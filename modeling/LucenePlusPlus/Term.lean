import LucenePlusPlus.UTF8Stream
import Mathlib.Data.List.Lex
import Mathlib.Data.Prod.Lex

/-!
Terms and their order: by field, and in a field by text, character by character.
-/

namespace LucenePlusPlus

/-- By the number, whatever other orders there are on integers. -/
instance : LinearOrder WChar := @Subtype.instLinearOrder Int Int.instLinearOrder _

instance : DecidableLT WChar := fun c c' => Int.decLt c.1 c'.1

instance : DecidableLE WChar := fun c c' => Int.decLe c.1 c'.1

abbrev WString := List WChar

/-- `std::wstring::compare`. -/
def WString.compare : WString → WString → Int
  | [], [] => 0
  | [], _ :: _ => -1
  | _ :: _, [] => 1
  | c :: text, c' :: text' => if c < c' then -1 else if c' < c then 1 else WString.compare text text'

structure Term where
  field : WString
  text : WString
  deriving DecidableEq

namespace Term

def compareTo (term other : Term) : Int :=
  if term.field = other.field then WString.compare term.text other.text
  else WString.compare term.field other.field

end Term

theorem WString.compare_spec (text text' : WString) :
    text.compare text' = if text < text' then -1 else if text' < text then 1 else 0 := by
  induction text generalizing text' with
  | nil =>
      cases text' with
      | nil => rfl
      | cons c' text' => rw [if_pos (List.nil_lt_cons c' text')]; rfl
  | cons c text ih =>
      cases text' with
      | nil => rw [if_neg (List.not_lt_nil _), if_pos (List.nil_lt_cons c text)]; rfl
      | cons c' text' =>
          simp only [WString.compare, List.cons_lt_cons_iff, ih]
          rcases lt_trichotomy c c' with hlt | rfl | hgt
          · simp [hlt]
          · simp
          · simp [hgt, hgt.not_gt, hgt.ne']

theorem WString.compare_neg_iff {text text' : WString} : text.compare text' < 0 ↔ text < text' := by
  rw [compare_spec]
  split_ifs with hlt hgt <;> simp_all

theorem WString.compare_eq_zero_iff {text text' : WString} : text.compare text' = 0 ↔ text = text' := by
  rw [compare_spec]
  rcases lt_trichotomy text text' with hlt | heq | hgt
  · simp [hlt, hlt.ne]
  · simp [heq]
  · simp [hgt, hgt.not_gt, hgt.ne']

theorem WString.compare_nonpos_iff (text text' : WString) : text.compare text' ≤ 0 ↔ text ≤ text' := by
  rw [le_iff_lt_or_eq, le_iff_lt_or_eq, compare_neg_iff, compare_eq_zero_iff]

theorem WString.compare_nonneg_iff (text text' : WString) : 0 ≤ text.compare text' ↔ text' ≤ text := by
  rw [← not_lt, ← not_lt, compare_neg_iff]

namespace Term

instance : LinearOrder Term :=
  LinearOrder.lift' (fun term => toLex (term.field, term.text)) fun term other h => by
    cases term
    cases other
    simpa using h

theorem lt_iff {term other : Term} :
    term < other ↔ term.field < other.field ∨ term.field = other.field ∧ term.text < other.text :=
  Prod.Lex.toLex_lt_toLex

theorem compareTo_neg_iff {term other : Term} : term.compareTo other < 0 ↔ term < other := by
  rw [compareTo, lt_iff]
  split
  · rename_i heq
    rw [WString.compare_neg_iff, heq]
    simp
  · rename_i hne
    rw [WString.compare_neg_iff]
    simp [hne]

theorem compareTo_eq_zero_iff {term other : Term} : term.compareTo other = 0 ↔ term = other := by
  rw [compareTo]
  cases term
  cases other
  split
  · rename_i heq
    rw [WString.compare_eq_zero_iff]
    simp_all
  · rename_i hne
    rw [WString.compare_eq_zero_iff]
    simp_all

end Term

end LucenePlusPlus
