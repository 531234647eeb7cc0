import Mathlib.Data.List.Basic

/-!
The longest beginning of a list that has a property.
-/

def longestPrefix {α : Type} (P : List α → Bool) : List α → Option (List α)
  | [] => if P [] then some [] else none
  | a :: text =>
      match longestPrefix (fun w => P (a :: w)) text with
      | some w => some (a :: w)
      | none => if P [] then some [] else none

namespace LongestPrefix
variable {α : Type} {P Q : List α → Bool} {text v w : List α}

theorem spec : (longestPrefix P text = none ∧ ∀ v, v <+: text → P v = false) ∨
    ∃ w, longestPrefix P text = some w ∧ w <+: text ∧ P w ∧ ∀ v, v <+: text → P v → v.length ≤ w.length := by
  induction text generalizing P with
  | nil =>
    rw [longestPrefix]
    by_cases hP : P [] = true
    · refine .inr ⟨[], if_pos hP, List.prefix_rfl, hP, fun v hv _ => ?_⟩
      rewrite [List.prefix_nil.mp hv]
      exact Nat.le_refl _
    · refine .inl ⟨if_neg hP, fun v hv => ?_⟩
      rw [List.prefix_nil.mp hv]
      exact Bool.eq_false_iff.mpr hP
  | cons a text ih =>
    rw [longestPrefix]
    obtain ⟨heq, hnone⟩ | ⟨w, heq, hpre, hw, hmax⟩ := @ih fun w => P (a :: w)
    · rw [heq]
      have hcons : ∀ v, v <+: a :: text → P v → v = [] := by
        intro v hv hPv
        obtain rfl | ⟨v, rfl, hv⟩ := List.prefix_cons_iff.mp hv
        · rfl
        · rw [hnone v (List.cons_prefix_cons.mp hv).2] at hPv
          cases hPv
      dsimp only
      by_cases hP : P [] = true
      · refine .inr ⟨[], if_pos hP, List.nil_prefix, hP, fun v hv hPv => ?_⟩
        rewrite [hcons v hv hPv]
        exact Nat.le_refl _
      · refine .inl ⟨if_neg hP, fun v hv => Bool.eq_false_iff.mpr fun hPv => hP ?_⟩
        rwa [hcons v hv hPv] at hPv
    · rw [heq]
      refine .inr ⟨a :: w, rfl, List.cons_prefix_cons.mpr ⟨rfl, hpre⟩, hw, fun v hv hPv => ?_⟩
      obtain rfl | ⟨v, rfl, hv⟩ := List.prefix_cons_iff.mp hv
      · exact Nat.zero_le _
      · exact Nat.succ_le_succ (hmax v (List.cons_prefix_cons.mp hv).2 hPv)

theorem eq_none_iff : longestPrefix P text = none ↔ ∀ v, v <+: text → P v = false := by
  obtain ⟨heq, hnone⟩ | ⟨w, heq, hpre, hw, -⟩ := @spec α P text
  · exact ⟨fun _ => hnone, fun _ => heq⟩
  · refine ⟨fun h => absurd (heq.symm.trans h) (by simp), fun h => absurd hw ?_⟩
    rw [h w hpre]
    exact Bool.false_ne_true

theorem eq_some_iff : longestPrefix P text = some w ↔
    w <+: text ∧ P w ∧ ∀ v, v <+: text → P v → v.length ≤ w.length := by
  obtain ⟨heq, hnone⟩ | ⟨u, heq, hpre, hu, hmax⟩ := @spec α P text
  · refine ⟨fun h => absurd (heq.symm.trans h) (by simp), fun ⟨hw, hPw, _⟩ => absurd hPw ?_⟩
    rw [hnone w hw]
    exact Bool.false_ne_true
  · rw [heq, Option.some.injEq]
    constructor
    · rintro rfl
      exact ⟨hpre, hu, hmax⟩
    · rintro ⟨hw, hPw, hmax'⟩
      exact (List.prefix_of_prefix_length_le hpre hw (hmax' u hpre hu)).eq_of_length
        (Nat.le_antisymm (hmax' u hpre hu) (hmax w hw hPw))

/-- Where the longest beginning with one property has the other, which is no weaker, it is the longest with that too. -/
theorem eq_some_of_imp (himp : ∀ v, Q v → P v) (h : longestPrefix P text = some w) (hw : Q w) :
    longestPrefix Q text = some w := by
  obtain ⟨hpre, -, hmax⟩ := eq_some_iff.mp h
  exact eq_some_iff.mpr ⟨hpre, hw, fun v hv hQ => hmax v hv (himp v hQ)⟩

theorem eq_none_of_imp (himp : ∀ v, Q v → P v) (h : longestPrefix P text = none) : longestPrefix Q text = none := by
  refine eq_none_iff.mpr fun v hv => Bool.eq_false_iff.mpr fun hQ => ?_
  have hP := himp v hQ
  rw [eq_none_iff.mp h v hv] at hP
  cases hP

end LongestPrefix
