import Mathlib.Data.Nat.Count
import Mathlib.Tactic

/-!
The bits of an array of words. Bit `i` is bit `i % w` of word `i / w`; behind the last word there are none.
-/

namespace WordBits

variable {w : Nat} {words words' : List (BitVec w)} {x : BitVec w} {i k : Nat}

def bit (words : List (BitVec w)) (i : Nat) : Bool := (words.getD (i / w) 0).getLsbD (i % w)

/-- The number of bits of a word that are set. -/
def pop (x : BitVec w) : Nat := Nat.count (fun i => x.getLsbD i = true) w

/-- The number of bits that are set below `n`. -/
def popBelow (words : List (BitVec w)) (n : Nat) : Nat := Nat.count (fun i => bit words i = true) n

theorem bit_of_le (h : words.length ≤ i / w) : bit words i = false := by
  rw [bit, List.getD_eq_getElem?_getD, List.getElem?_eq_none h]
  exact BitVec.getLsbD_zero

theorem bit_of_getD_eq (h : words.getD (i / w) 0 = words'.getD (i / w) 0) : bit words i = bit words' i := by
  rw [bit, bit, h]

theorem getD_set_self (h : k < words.length) : (words.set k x).getD k 0 = x := by
  rw [List.getD_eq_getElem?_getD, List.getElem?_set_self h, Option.getD_some]

theorem getD_set_of_ne {j : Nat} (h : j ≠ k) : (words.set k x).getD j 0 = words.getD j 0 := by
  rw [List.getD_eq_getElem?_getD, List.getElem?_set_ne h.symm, List.getD_eq_getElem?_getD]

theorem bit_set (h : k < words.length) (i : Nat) :
    bit (words.set k x) i = if i / w = k then x.getLsbD (i % w) else bit words i := by
  split
  · rename_i heq
    rw [bit, heq, getD_set_self h]
  · rename_i hne
    exact bit_of_getD_eq (getD_set_of_ne hne)

theorem getD_eq_of_bit_eq (hw : 0 < w) (h : ∀ j < w, bit words (w * k + j) = bit words' (w * k + j)) :
    words.getD k 0 = words'.getD k 0 := by
  apply BitVec.eq_of_getLsbD_eq
  intro j hj
  have hbit := h j hj
  rwa [bit, bit, Nat.mul_add_div hw, Nat.div_eq_of_lt hj, Nat.add_zero, Nat.mul_add_mod, Nat.mod_eq_of_lt hj] at hbit

theorem getD_eq_zero_of_bit_eq (hw : 0 < w) (h : ∀ j < w, bit words (w * k + j) = false) : words.getD k 0 = 0 := by
  have heq : words.getD k 0 = ([] : List (BitVec w)).getD k 0 :=
    getD_eq_of_bit_eq hw fun j hj => (h j hj).trans (bit_of_le (Nat.zero_le _)).symm
  exact heq

theorem bit_cons_of_lt (h : i < w) : bit (x :: words) i = x.getLsbD i := by
  rw [bit, Nat.div_eq_of_lt h, Nat.mod_eq_of_lt h]
  rfl

theorem bit_cons_add (hw : 0 < w) (i : Nat) : bit (x :: words) (w + i) = bit words i := by
  rw [bit, Nat.add_div_left i hw, Nat.add_mod_left, List.getD_cons_succ]
  rfl

theorem count_congr {p q : Nat → Prop} [DecidablePred p] [DecidablePred q] {n : Nat} (h : ∀ i < n, p i ↔ q i) :
    Nat.count p n = Nat.count q n :=
  le_antisymm (Nat.count_mono_left fun i hi => (h i hi).mp) (Nat.count_mono_left fun i hi => (h i hi).mpr)

theorem popBelow_cons (hw : 0 < w) (n : Nat) : popBelow (x :: words) (w + n) = pop x + popBelow words n := by
  rw [popBelow, Nat.count_add]
  congr 1
  · exact count_congr fun i hi => by rw [bit_cons_of_lt hi]
  · simp only [bit_cons_add hw]
    rfl

theorem sum_pop (hw : 0 < w) (words : List (BitVec w)) :
    (words.map pop).sum = popBelow words (w * words.length) := by
  induction words with
  | nil => rfl
  | cons x words ih => rw [List.map_cons, List.sum_cons, ih, List.length_cons, Nat.mul_succ, Nat.add_comm _ w, popBelow_cons hw]

theorem popBelow_of_le {n m : Nat} (hle : n ≤ m) (h : ∀ i, n ≤ i → bit words i = false) :
    popBelow words m = popBelow words n := by
  obtain ⟨d, rfl⟩ := Nat.exists_eq_add_of_le hle
  rw [popBelow, popBelow, Nat.count_add, Nat.add_eq_left, Nat.count_iff_forall_not]
  intro i _
  rw [h (n + i) (Nat.le_add_right n i)]
  exact Bool.false_ne_true

theorem popBelow_congr {n : Nat} (h : ∀ i < n, bit words i = bit words' i) : popBelow words n = popBelow words' n :=
  count_congr fun i hi => by rw [h i hi]

theorem popBelow_insert {n : Nat} (hk : k < n) (hbit : bit words k = false)
    (h : ∀ i, bit words' i = if i = k then true else bit words i) : popBelow words' n = popBelow words n + 1 := by
  rw [popBelow, popBelow, Nat.count_eq_card_filter_range, Nat.count_eq_card_filter_range]
  have hinsert : (Finset.range n).filter (fun i => bit words' i = true) =
      insert k ((Finset.range n).filter fun i => bit words i = true) := by
    ext i
    rw [Finset.mem_filter, Finset.mem_insert, Finset.mem_filter, h i]
    by_cases heq : i = k
    · simp [heq, hk]
    · simp [heq]
  rw [hinsert, Finset.card_insert_of_notMem (by simp [hbit])]

end WordBits
