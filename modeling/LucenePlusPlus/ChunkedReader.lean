import Mathlib.Data.List.Basic

/-!
A reader that gives its input in chunks, each as long as it likes.
-/

/-- What has not been read, and how long the chunks are at most: one more than `sizes` says. -/
structure ChunkedReader (α : Type) where
  rest : List α
  sizes : Nat → Nat
  round : Nat

namespace ChunkedReader
variable {α : Type}

def ofInput (input : List α) (sizes : Nat → Nat) : ChunkedReader α := { rest := input, sizes, round := 0 }

/-- At most `length` elements, or nothing at the end of the input. -/
def read (reader : ChunkedReader α) (length : Nat) : Option (List α) × ChunkedReader α :=
  if reader.rest = [] then (none, reader)
  else
    let count := min (reader.sizes reader.round + 1) length
    (some (reader.rest.take count), { reader with rest := reader.rest.drop count, round := reader.round + 1 })

/-- One element. -/
def readOne (reader : ChunkedReader α) : Option α × ChunkedReader α :=
  match reader.rest with
  | [] => (none, reader)
  | a :: rest => (some a, { reader with rest })

/-- The array with a chunk from `pos` on. -/
def store (array : List α) (pos : Nat) (chunk : List α) : List α :=
  array.take pos ++ chunk ++ array.drop (pos + chunk.length)

variable {reader : ChunkedReader α} {length : Nat} {array chunk : List α} {pos : Nat}

theorem length_store (h : pos + chunk.length ≤ array.length) : (store array pos chunk).length = array.length := by
  rw [store, List.length_append, List.length_append, List.length_take, List.length_drop]
  omega

theorem take_store (h : pos ≤ array.length) : (store array pos chunk).take (pos + chunk.length) = array.take pos ++ chunk := by
  have hlength : (array.take pos ++ chunk).length = pos + chunk.length := by
    rw [List.length_append, List.length_take, Nat.min_eq_left h]
  rw [store, ← hlength, List.take_left]

theorem read_of_nil (h : reader.rest = []) (length : Nat) : reader.read length = (none, reader) := if_pos h

theorem read_cases (reader : ChunkedReader α) (length : Nat) :
    reader.read length = (none, reader) ∨
      ∃ chunk reader', reader.read length = (some chunk, reader') ∧ reader.rest = chunk ++ reader'.rest := by
  by_cases h : reader.rest = []
  · exact .inl (read_of_nil h length)
  · exact .inr ⟨_, _, if_neg h, (List.take_append_drop _ _).symm⟩

theorem length_le_of_read {reader' : ChunkedReader α} (h : reader.read length = (some chunk, reader')) :
    chunk.length ≤ length := by
  rw [read] at h
  split at h
  · cases h
  · cases h
    exact Nat.le_trans (List.length_take_le ..) (Nat.min_le_right _ _)

theorem read_of_ne_nil (h : reader.rest ≠ []) (hlength : 0 < length) :
    ∃ chunk reader', reader.read length = (some chunk, reader') ∧ chunk ≠ [] ∧ chunk.length ≤ length ∧
      reader.rest = chunk ++ reader'.rest := by
  refine ⟨_, _, if_neg h, ?_, ?_, (List.take_append_drop _ _).symm⟩
  · have hpos := List.length_pos_iff.mpr h
    rw [← List.length_pos_iff, List.length_take]
    omega
  · rw [List.length_take]
    omega

end ChunkedReader
