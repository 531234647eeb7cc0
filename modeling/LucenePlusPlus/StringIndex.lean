import LucenePlusPlus.FieldCache
import LucenePlusPlus.LowerBound
import Mathlib.Order.WithBot

/-!
`StringIndex`: the terms of a field in their order, and for each document the number of its term. Number `0` is kept
for the documents that have no term.
-/

namespace LucenePlusPlus

structure StringIndex where
  order : List Nat
  lookup : List WString
  deriving DecidableEq

namespace StringIndex

/-- Behind the first entry, the terms of the field. -/
structure Valid (index : StringIndex) : Prop where
  lookup : ∃ terms : List WString, index.lookup = [] :: terms ∧ terms.Pairwise (· < ·)
  order : ∀ ord ∈ index.order, ord < index.lookup.length

/-- The term of a document. It is `⊥` if there is none. -/
def valueOf (index : StringIndex) (doc : Nat) : WithBot WString :=
  if index.order.getD doc 0 = 0 then ⊥ else ↑(index.lookup.getD (index.order.getD doc 0) [])

def binarySearchLookup (index : StringIndex) (key : WString) : Int :=
  let keyPos := LowerBound.lowerBound index.lookup key
  match index.lookup[keyPos]? with
  | none => -(keyPos + 1)
  | some found => if key < found then -(keyPos + 1) else keyPos

variable {index : StringIndex}

theorem Valid.length_pos (h : index.Valid) : 0 < index.lookup.length := by
  obtain ⟨terms, hterms, -⟩ := h.lookup
  rw [hterms]
  exact Nat.succ_pos _

theorem Valid.getElem_zero (h : index.Valid) (hpos : 0 < index.lookup.length) : index.lookup[0] = [] := by
  obtain ⟨terms, hterms, -⟩ := h.lookup
  simp only [hterms]
  rfl

theorem Valid.nil_mem (h : index.Valid) : [] ∈ index.lookup := by
  obtain ⟨terms, hterms, -⟩ := h.lookup
  rw [hterms]
  exact List.mem_cons_self

theorem Valid.getElem_lt (h : index.Valid) {i j : Nat} (hi : 1 ≤ i) (hij : i < j) (hj : j < index.lookup.length) :
    index.lookup[i] < index.lookup[j] := by
  obtain ⟨terms, hterms, hsorted⟩ := h.lookup
  obtain ⟨i, rfl⟩ : ∃ k, i = k + 1 := ⟨i - 1, by omega⟩
  obtain ⟨j, rfl⟩ : ∃ k, j = k + 1 := ⟨j - 1, by omega⟩
  simp only [hterms, List.length_cons] at hj ⊢
  rw [List.getElem_cons_succ, List.getElem_cons_succ]
  exact List.pairwise_iff_getElem.mp hsorted i j (by omega) (by omega) (by omega)

theorem Valid.sorted (h : index.Valid) : index.lookup.Pairwise (· ≤ ·) := by
  obtain ⟨terms, hterms, hsorted⟩ := h.lookup
  rw [hterms, List.pairwise_cons]
  exact ⟨fun term _ => not_lt.mp (List.not_lt_nil _), hsorted.imp le_of_lt⟩

theorem Valid.order_lt (h : index.Valid) (doc : Nat) : index.order.getD doc 0 < index.lookup.length := by
  rw [List.getD_eq_getElem?_getD]
  by_cases hdoc : doc < index.order.length
  · rw [List.getElem?_eq_getElem hdoc, Option.getD_some]
    exact h.order _ (List.getElem_mem hdoc)
  · rw [List.getElem?_eq_none (by omega), Option.getD_none]
    exact h.length_pos

end StringIndex

end LucenePlusPlus
