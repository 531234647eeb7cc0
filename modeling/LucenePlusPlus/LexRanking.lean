import Mathlib.Order.RelClasses
import Mathlib.Order.Defs.LinearOrder
import Mathlib.Order.Lattice
import Mathlib.Data.Int.Order.Basic

/-!
Elements ranked by several criteria, one after the other, and by an order of their own where all criteria leave
them equal.
-/

namespace Ranking

/-- A total preorder. -/
structure Criterion (α : Type*) where
  le : α → α → Prop
  decidable : DecidableRel le
  total : ∀ a b, le a b ∨ le b a
  trans : ∀ a b c, le a b → le b c → le a c

namespace Criterion
variable {α : Type*} (k : Criterion α)

instance : DecidableRel k.le := k.decidable

/-- The other way round. -/
def flip : Criterion α where
  le a b := k.le b a
  decidable := fun a b => k.decidable b a
  total a b := k.total b a
  trans a b c hab hbc := k.trans c b a hbc hab

/-- The order of a key. -/
def ofKey {κ : Type*} [LinearOrder κ] (key : α → κ) : Criterion α where
  le a b := key a ≤ key b
  decidable := fun _ _ => inferInstance
  total _ _ := le_total _ _
  trans _ _ _ := le_trans

/-- A number whose sign says how two elements compare. -/
structure Sign (c : Int) (a b : α) : Prop where
  le : c ≤ 0 ↔ k.le a b
  ge : 0 ≤ c ↔ k.le b a

variable {k}

theorem Sign.neg {c : Int} {a b : α} (h : k.Sign c a b) : k.flip.Sign (-1 * c) a b where
  le := by
    rw [show -1 * c ≤ 0 ↔ 0 ≤ c by omega]
    exact h.ge
  ge := by
    rw [show 0 ≤ -1 * c ↔ c ≤ 0 by omega]
    exact h.le

end Criterion

variable {α : Type*} [LinearOrder α]

/-- `a` ranks at `b` or before it. -/
def LexLE : List (Criterion α) → α → α → Prop
  | [], a, b => a ≤ b
  | k :: ks, a, b => k.le a b ∧ (k.le b a → LexLE ks a b)

@[reducible] def decidableLexLE : (ks : List (Criterion α)) → DecidableRel (LexLE ks)
  | [], a, b => inferInstanceAs (Decidable (a ≤ b))
  | k :: ks, a, b =>
      have := decidableLexLE ks a b
      inferInstanceAs (Decidable (k.le a b ∧ (k.le b a → LexLE ks a b)))

instance (ks : List (Criterion α)) : DecidableRel (LexLE ks) := decidableLexLE ks

variable {ks : List (Criterion α)} {k : Criterion α} {a b : α} {c : Int}

/-- The first criterion decides if its sign is not zero, and else the others do. -/
theorem lexLE_cons (h : k.Sign c a b) : LexLE (k :: ks) a b ↔ c < 0 ∨ c = 0 ∧ LexLE ks a b := by
  rw [LexLE, ← h.le, ← h.ge]
  constructor
  · rintro ⟨hle, hrest⟩
    rcases hle.lt_or_eq with hlt | heq
    · exact Or.inl hlt
    · exact Or.inr ⟨heq, hrest heq.ge⟩
  · rintro (hlt | ⟨heq, hrest⟩)
    · exact ⟨hlt.le, fun hge => absurd hge hlt.not_ge⟩
    · exact ⟨heq.le, fun _ => hrest⟩

theorem lexLE_cons' (h : k.Sign c a b) : LexLE (k :: ks) b a ↔ 0 < c ∨ c = 0 ∧ LexLE ks b a := by
  rw [LexLE, ← h.le, ← h.ge]
  constructor
  · rintro ⟨hle, hrest⟩
    rcases hle.lt_or_eq with hlt | heq
    · exact Or.inl hlt
    · exact Or.inr ⟨heq.symm, hrest heq.symm.le⟩
  · rintro (hlt | ⟨heq, hrest⟩)
    · exact ⟨hlt.le, fun hge => absurd hge hlt.not_ge⟩
    · exact ⟨heq.ge, fun _ => hrest⟩

theorem lexLE_total (ks : List (Criterion α)) (a b : α) : LexLE ks a b ∨ LexLE ks b a := by
  induction ks with
  | nil => exact le_total a b
  | cons k ks ih =>
      rw [LexLE, LexLE]
      by_cases hab : k.le a b
      · by_cases hba : k.le b a
        · rcases ih with h | h
          · exact Or.inl ⟨hab, fun _ => h⟩
          · exact Or.inr ⟨hba, fun _ => h⟩
        · exact Or.inl ⟨hab, fun h => absurd h hba⟩
      · have hba : k.le b a := (k.total a b).resolve_left hab
        exact Or.inr ⟨hba, fun h => absurd h hab⟩

theorem LexLE.trans {c : α} (hab : LexLE ks a b) (hbc : LexLE ks b c) : LexLE ks a c := by
  induction ks with
  | nil => exact le_trans hab hbc
  | cons k ks ih =>
      obtain ⟨hab, hrest⟩ := hab
      obtain ⟨hbc, hrest'⟩ := hbc
      refine ⟨k.trans a b c hab hbc, fun hca => ?_⟩
      have hba : k.le b a := k.trans b c a hbc hca
      have hcb : k.le c b := k.trans c a b hca hab
      exact ih (hrest hba) (hrest' hcb)

theorem LexLE.antisymm (hab : LexLE ks a b) (hba : LexLE ks b a) : a = b := by
  induction ks with
  | nil => exact le_antisymm hab hba
  | cons k ks ih => exact ih (hab.2 hba.1) (hba.2 hab.1)

instance : Std.Total (LexLE ks) := ⟨lexLE_total ks⟩

instance : IsTrans α (LexLE ks) := ⟨fun _ _ _ => LexLE.trans⟩

instance : Std.Antisymm (LexLE ks) := ⟨fun _ _ => LexLE.antisymm⟩

end Ranking
