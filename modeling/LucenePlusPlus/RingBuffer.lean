import Mathlib.Data.List.Rotate

/-!
Ring buffers: a list of cells and the index `head` of the first one. What a buffer holds, from its head on,
is `cells.rotate head`; here is what the operations on cells and head do to it.
-/

namespace RingBuffer
variable {α : Type*} {size head gap : Nat}

/-- The index of a cell, which wraps at most one time. -/
def index (size head gap : Nat) : Nat :=
  if size ≤ head + gap then head + gap - size else head + gap

/-- The head after one step. -/
def next (size head : Nat) : Nat := if head + 1 = size then 0 else head + 1

/-- `len` elements are copied over those of `dst`. -/
def arrayCopy (src : List α) (srcPos : Nat) (dst : List α) (dstPos len : Nat) : List α :=
  dst.take dstPos ++ (src.drop srcPos).take len ++ dst.drop (dstPos + len)

theorem index_zero (hhead : head < size) : index size head 0 = head := if_neg (Nat.not_le.mpr hhead)

theorem index_lt (hhead : head < size) (hgap : gap < size) : index size head gap < size := by
  have hsum : head + gap < size + size := Nat.add_lt_add hhead hgap
  unfold index
  split <;> omega

theorem index_eq_mod (hhead : head < size) (hgap : gap < size) :
    index size head gap = (gap + head) % size := by
  unfold index
  split
  · rename_i hle
    rw [Nat.add_comm, Nat.mod_eq_sub_mod (by omega), Nat.mod_eq_of_lt (by omega)]
  · rename_i hlt
    rw [Nat.add_comm, Nat.mod_eq_of_lt (by omega)]

theorem index_injective {gap' : Nat} (hgap : gap < size) (hgap' : gap' < size)
    (h : index size head gap = index size head gap') : gap = gap' := by
  unfold index at h
  split at h <;> split at h <;> omega

theorem next_lt (hhead : head < size) : next size head < size := by
  unfold next
  split
  · exact Nat.zero_lt_of_lt hhead
  · omega

theorem getElem?_rotate_eq {cells : List α} (hhead : head < cells.length) (hgap : gap < cells.length) :
    (cells.rotate head)[gap]? = cells[index cells.length head gap]? := by
  rw [List.getElem?_rotate hgap, index_eq_mod hhead hgap]

theorem rotate_set {cells : List α} (hhead : head < cells.length) (hgap : gap < cells.length) (a : α) :
    (cells.set (index cells.length head gap) a).rotate head = (cells.rotate head).set gap a := by
  refine List.ext_getElem? fun n => ?_
  by_cases hn : n < cells.length
  · have hrotate := @getElem?_rotate_eq _ head n (cells.set (index cells.length head gap) a)
      (by rwa [List.length_set]) (by rwa [List.length_set])
    rw [List.length_set] at hrotate
    rw [hrotate, List.getElem?_set, List.getElem?_set, getElem?_rotate_eq hhead hn, List.length_rotate]
    by_cases heq : gap = n
    · rw [heq, if_pos rfl, if_pos rfl, if_pos (index_lt hhead hn), if_pos hn]
    · rw [if_neg heq, if_neg fun h => heq (index_injective hgap hn h)]
  · rw [List.getElem?_eq_none, List.getElem?_eq_none] <;> simp <;> omega

theorem rotate_next {cells : List α} :
    cells.rotate (next cells.length head) = (cells.rotate head).rotate 1 := by
  rw [List.rotate_rotate]
  unfold next
  split
  · rename_i heq
    rw [heq, List.rotate_length, List.rotate_zero]
  · rfl

/-- A larger buffer, into which the two parts of the old one are copied in their order. -/
theorem arrayCopy_rotate {cells fresh : List α} (hhead : head < cells.length) :
    arrayCopy cells 0 (arrayCopy cells head fresh 0 (cells.length - head)) (cells.length - head) head =
      cells.rotate head ++ fresh.drop cells.length := by
  have hfirst : arrayCopy cells head fresh 0 (cells.length - head) =
      cells.drop head ++ fresh.drop (cells.length - head) := by
    rw [arrayCopy, List.take_zero, List.nil_append, Nat.zero_add, List.take_of_length_le (by simp)]
  have hlen : (cells.drop head).length = cells.length - head := List.length_drop
  have hrest : (cells.drop head ++ fresh.drop (cells.length - head)).drop (cells.length - head + head) =
      fresh.drop cells.length := by
    rw [← hlen, List.drop_append, List.drop_of_length_le (by omega), List.nil_append, List.drop_drop]
    congr 1
    omega
  rw [hfirst, arrayCopy, hrest, ← hlen, List.take_left, List.drop_zero,
    List.rotate_eq_drop_append_take hhead.le]

end RingBuffer
