import Mathlib.Data.List.Perm.Basic
import Mathlib.Order.Lattice

/-!
`std::sort`, of which nothing is known unless the comparison is a strict weak order on the elements: then the elements are put
in an order in which none is less than an earlier one.
-/

namespace StdSort
variable {α β : Type} {lt : α → α → Bool} {xs : List α}

/-- The comparison is a strict weak order on these elements. -/
structure StrictWeakOn (lt : α → α → Bool) (xs : List α) : Prop where
  irrefl : ∀ x ∈ xs, lt x x = false
  trans : ∀ x ∈ xs, ∀ y ∈ xs, ∀ z ∈ xs, lt x y = true → lt y z = true → lt x z = true
  incomparable_trans : ∀ x ∈ xs, ∀ y ∈ xs, ∀ z ∈ xs, lt x y = false → lt y x = false → lt y z = false → lt z y = false →
    lt x z = false ∧ lt z x = false

namespace StrictWeakOn

theorem asymm (h : StrictWeakOn lt xs) {x y : α} (hx : x ∈ xs) (hy : y ∈ xs) (hlt : lt x y = true) : lt y x = false := by
  rw [Bool.eq_false_iff]
  intro hgt
  have hself := h.trans x hx y hy x hx hlt hgt
  rw [h.irrefl x hx] at hself
  cases hself

theorem not_lt_trans (h : StrictWeakOn lt xs) {x y z : α} (hx : x ∈ xs) (hy : y ∈ xs) (hz : z ∈ xs) (hyx : lt y x = false)
    (hzy : lt z y = false) : lt z x = false := by
  rw [Bool.eq_false_iff]
  intro hzx
  have hyz : lt y z = false := by
    rw [Bool.eq_false_iff]
    intro hyz
    rw [h.trans y hy z hz x hx hyz hzx] at hyx
    cases hyx
  have hxy : lt x y = false := by
    rw [Bool.eq_false_iff]
    intro hxy
    rw [h.trans z hz x hx y hy hzx hxy] at hzy
    cases hzy
  rw [(h.incomparable_trans x hx y hy z hz hxy hyx hyz hzy).2] at hzx
  cases hzx

theorem of_key [LinearOrder β] (key : α → β) (h : ∀ x ∈ xs, ∀ y ∈ xs, lt x y = true ↔ key x < key y) : StrictWeakOn lt xs where
  irrefl x hx := by
    rw [Bool.eq_false_iff, Ne, h x hx x hx]
    exact lt_irrefl _
  trans x hx y hy z hz hxy hyz := (h x hx z hz).mpr (((h x hx y hy).mp hxy).trans ((h y hy z hz).mp hyz))
  incomparable_trans x hx y hy z hz := by
    simp only [Bool.eq_false_iff, Ne, h x hx y hy, h y hy x hx, h y hy z hz, h z hz y hy, h x hx z hz, h z hz x hx, not_lt]
    intro hyx hxy hzy hyz
    exact ⟨hzy.trans hyx, hxy.trans hyz⟩

end StrictWeakOn

/-- What is promised of a sort. -/
def Sorts (sort : (α → α → Bool) → List α → List α) : Prop :=
  ∀ lt xs, StrictWeakOn lt xs → (sort lt xs).Perm xs ∧ (sort lt xs).Pairwise fun x y => lt y x = false

/-- A sort that keeps the promise: a merge sort of the elements. -/
def mergeSort (lt : α → α → Bool) (xs : List α) : List α :=
  (xs.attach.mergeSort fun x y => !lt y.1 x.1).map Subtype.val

theorem sorts_mergeSort : Sorts (@mergeSort α) := by
  intro lt xs h
  constructor
  · have hperm := (List.mergeSort_perm xs.attach fun x y => !lt y.1 x.1).map Subtype.val
    rwa [List.attach_map_subtype_val] at hperm
  · rw [mergeSort, List.pairwise_map]
    have hsorted := @List.pairwise_mergeSort _ (fun x y : { x // x ∈ xs } => !lt y.1 x.1)
      (fun x y z hxy hyz => by
        simp only [Bool.not_eq_true'] at hxy hyz ⊢
        exact h.not_lt_trans x.2 y.2 z.2 hxy hyz)
      (fun x y => by
        by_cases hyx : lt y.1 x.1 = true
        · simp [h.asymm y.2 x.2 hyx]
        · simp [hyx]) xs.attach
    exact hsorted.imp fun hle => by simpa using hle

end StdSort
