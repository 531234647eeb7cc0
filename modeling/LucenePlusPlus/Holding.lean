import Mathlib.Data.Finset.Erase
import Mathlib.Data.Finset.Insert
import Mathlib.Data.Finset.SDiff
import Mathlib.Logic.Function.Basic

/-!
A set of things that are taken, beside who has taken which. Taking free things and giving them back keep the
two together.
-/

section Holding
variable {Holder Thing : Type} [DecidableEq Holder] [DecidableEq Thing] {held : Finset Thing}
  {holder : Holder → Option Thing} {t : Holder} {f : Thing}

/-- `held` are the things that holders have, each of them one at most, and no two the same. -/
structure Holding (held : Finset Thing) (holder : Holder → Option Thing) : Prop where
  mem_iff : ∀ f, f ∈ held ↔ ∃ t, holder t = some f
  exclusive : ∀ t t' f, holder t = some f → holder t' = some f → t = t'

theorem Holding.take (h : Holding held holder) (hnone : holder t = none) (hf : f ∉ held) :
    Holding (insert f held) (Function.update holder t (some f)) := by
  have hupdate : ∀ t' g, Function.update holder t (some f) t' = some g ↔
      t' = t ∧ f = g ∨ holder t' = some g := by
    intro t' g
    by_cases heq : t' = t
    · rw [heq, Function.update_self, hnone]
      simp
    · rw [Function.update_of_ne heq]
      simp [heq]
  have hfree : ∀ t', holder t' ≠ some f := fun t' heq => hf ((h.mem_iff f).mpr ⟨t', heq⟩)
  refine ⟨fun g => ?_, fun t₁ t₂ g h₁ h₂ => ?_⟩
  · simp only [Finset.mem_insert, h.mem_iff, hupdate, exists_or, exists_eq_left]
    rw [eq_comm]
  · rcases (hupdate t₁ g).mp h₁ with ⟨rfl, rfl⟩ | hold₁
    · exact ((hupdate t₂ f).mp h₂).elim (fun hnew => hnew.1.symm) fun hold₂ => absurd hold₂ (hfree t₂)
    · rcases (hupdate t₂ g).mp h₂ with ⟨rfl, rfl⟩ | hold₂
      · exact absurd hold₁ (hfree t₁)
      · exact h.exclusive t₁ t₂ g hold₁ hold₂

theorem Holding.release (h : Holding held holder) (hsome : holder t = some f) :
    Holding (held.erase f) (Function.update holder t none) := by
  have hupdate : ∀ t' g, Function.update holder t none t' = some g ↔ g ≠ f ∧ holder t' = some g := by
    intro t' g
    by_cases heq : t' = t
    · rw [heq, Function.update_self, hsome]
      simp [eq_comm]
    · rw [Function.update_of_ne heq]
      refine ⟨fun hg => ⟨fun hfg => heq ?_, hg⟩, And.right⟩
      rw [hfg] at hg
      exact h.exclusive t' t f hg hsome
  refine ⟨fun g => ?_, fun t₁ t₂ g h₁ h₂ => ?_⟩
  · simp only [Finset.mem_erase, h.mem_iff, hupdate, exists_and_left]
  · exact h.exclusive t₁ t₂ g ((hupdate t₁ g).mp h₁).2 ((hupdate t₂ g).mp h₂).2

/-- As `Holding`, where a holder may have many things. -/
structure Shares (held : Finset Thing) (shares : Holder → Finset Thing) : Prop where
  mem_iff : ∀ x, x ∈ held ↔ ∃ t, x ∈ shares t
  exclusive : ∀ t t' x, x ∈ shares t → x ∈ shares t' → t = t'

theorem Shares.take {shares : Holder → Finset Thing} {new : Finset Thing} (h : Shares held shares)
    (hnew : ∀ x ∈ new, x ∉ held) :
    Shares (held ∪ new) (Function.update shares t (shares t ∪ new)) := by
  have hupdate : ∀ t' x, x ∈ Function.update shares t (shares t ∪ new) t' ↔
      x ∈ shares t' ∨ t' = t ∧ x ∈ new := by
    intro t' x
    by_cases heq : t' = t
    · rw [heq, Function.update_self, Finset.mem_union]
      simp
    · rw [Function.update_of_ne heq]
      simp [heq]
  have hfree : ∀ t' x, x ∈ shares t' → x ∉ new := fun t' x hx hin =>
    hnew x hin ((h.mem_iff x).mpr ⟨t', hx⟩)
  refine ⟨fun x => ?_, fun t₁ t₂ x h₁ h₂ => ?_⟩
  · simp only [Finset.mem_union, h.mem_iff, hupdate, exists_or, exists_eq_left]
  · rcases (hupdate t₁ x).mp h₁ with hold₁ | ⟨heq₁, hnew₁⟩
    · rcases (hupdate t₂ x).mp h₂ with hold₂ | ⟨-, hnew₂⟩
      · exact h.exclusive t₁ t₂ x hold₁ hold₂
      · exact absurd hnew₂ (hfree t₁ x hold₁)
    · rcases (hupdate t₂ x).mp h₂ with hold₂ | ⟨heq₂, -⟩
      · exact absurd hnew₁ (hfree t₂ x hold₂)
      · exact heq₁.trans heq₂.symm

theorem Shares.release {shares : Holder → Finset Thing} (h : Shares held shares) :
    Shares (held \ shares t) (Function.update shares t ∅) := by
  have hupdate : ∀ t' x, x ∈ Function.update shares t ∅ t' ↔ x ∈ shares t' ∧ t' ≠ t := by
    intro t' x
    by_cases heq : t' = t
    · rw [heq, Function.update_self]
      simp
    · rw [Function.update_of_ne heq]
      simp [heq]
  refine ⟨fun x => ?_, fun t₁ t₂ x h₁ h₂ => ?_⟩
  · simp only [Finset.mem_sdiff, h.mem_iff, hupdate]
    constructor
    · rintro ⟨⟨t', hx⟩, hnot⟩
      exact ⟨t', hx, fun heq => hnot (heq ▸ hx)⟩
    · rintro ⟨t', hx, hne⟩
      exact ⟨⟨t', hx⟩, fun hx' => hne (h.exclusive t' t x hx hx')⟩
  · exact h.exclusive t₁ t₂ x ((hupdate t₁ x).mp h₁).1 ((hupdate t₂ x).mp h₂).1

end Holding
