import Mathlib.Data.List.TakeWhile
import Mathlib.Order.Lattice

/-!
`std::lower_bound` in sorted lists: the place of the first element that is not less than a key.
-/

namespace LowerBound
variable {α : Type*} [LinearOrder α]

/-- The first place whose element is not less than `key`. -/
def lowerBound (l : List α) (key : α) : Nat := (l.takeWhile (· < key)).length

variable {l : List α} {key : α} {i m : Nat}

theorem getElem_le_of_le {j : Nat} (h : l.Pairwise (· ≤ ·)) (hij : i ≤ j) (hi : i < l.length) (hj : j < l.length) :
    l[i] ≤ l[j] := by
  rcases hij.lt_or_eq with hlt | rfl
  · exact List.pairwise_iff_getElem.mp h i j hi hj hlt
  · exact le_rfl

theorem lowerBound_le_length (l : List α) (key : α) : lowerBound l key ≤ l.length :=
  List.IsPrefix.length_le (List.takeWhile_prefix _)

theorem lt_of_lt_lowerBound (hlt : i < lowerBound l key) (hi : i < l.length) : l[i] < key := by
  have hbelow : i < (l.takeWhile (· < key)).length := hlt
  have hget : (l.takeWhile (· < key))[i] = l[i] := List.IsPrefix.getElem (List.takeWhile_prefix _) hbelow
  have hmem : l[i] ∈ l.takeWhile (· < key) := by
    rw [← hget]
    exact List.getElem_mem hbelow
  simpa using List.mem_takeWhile_imp hmem

theorem le_of_lowerBound_le (h : l.Pairwise (· ≤ ·)) (hle : lowerBound l key ≤ i) (hi : i < l.length) : key ≤ l[i] := by
  induction l generalizing i with
  | nil => exact absurd hi (Nat.not_lt_zero i)
  | cons a l ih =>
      rw [List.pairwise_cons] at h
      by_cases ha : a < key
      · have hcons : lowerBound (a :: l) key = lowerBound l key + 1 := by
          rw [lowerBound, List.takeWhile_cons_of_pos (by simpa using ha), List.length_cons, lowerBound]
        obtain ⟨j, rfl⟩ : ∃ j, i = j + 1 := ⟨i - 1, by omega⟩
        exact ih h.2 (by omega) (by simpa using hi)
      · cases i with
        | zero => exact not_lt.mp ha
        | succ j => exact (not_lt.mp ha).trans (h.1 _ (List.getElem_mem (by simpa using hi)))

theorem succ_le_countP (h : l.Pairwise (· ≤ ·)) (hi : i < l.length) (hle : l[i] ≤ key) :
    i + 1 ≤ l.countP (· ≤ key) := by
  have htake : (l.take (i + 1)).countP (· ≤ key) = i + 1 := by
    rw [List.countP_eq_length.mpr, List.length_take_of_le hi]
    intro a ha
    obtain ⟨j, hj, rfl⟩ := List.getElem_of_mem ha
    rw [List.length_take] at hj
    rw [List.getElem_take, decide_eq_true_iff]
    exact (getElem_le_of_le h (by omega) _ hi).trans hle
  rw [← htake]
  exact (List.take_sublist (i + 1) l).countP_le

theorem countP_le_of_lt (hbehind : ∀ i (hi : i < l.length), m ≤ i → key < l[i]) : l.countP (· ≤ key) ≤ m := by
  have hdrop : (l.drop m).countP (· ≤ key) = 0 := by
    rw [List.countP_eq_zero]
    intro a ha
    obtain ⟨i, hi, rfl⟩ := List.getElem_of_mem ha
    rw [List.length_drop] at hi
    rw [List.getElem_drop, decide_eq_true_iff, not_le]
    exact hbehind (m + i) (by omega) (by omega)
  calc
    l.countP (· ≤ key) = (l.take m).countP (· ≤ key) + (l.drop m).countP (· ≤ key) := by
      rw [← List.countP_append, List.take_append_drop]
    _ ≤ (l.take m).length := by
      rw [hdrop]
      exact List.countP_le_length
    _ ≤ m := List.length_take_le m l

/-- So many elements are not greater than the key: those before a place where the greater ones begin. -/
theorem countP_le_eq (h : l.Pairwise (· ≤ ·)) (hi : i < l.length) (hle : l[i] ≤ key)
    (hbehind : ∀ j (hj : j < l.length), i + 1 ≤ j → key < l[j]) : l.countP (· ≤ key) = i + 1 :=
  le_antisymm (countP_le_of_lt hbehind) (succ_le_countP h hi hle)

theorem countP_le_mono {key' : α} (h : key ≤ key') : l.countP (· ≤ key) ≤ l.countP (· ≤ key') := by
  apply List.countP_mono_left
  intro a _ ha
  rw [decide_eq_true_iff] at ha ⊢
  exact ha.trans h

end LowerBound
