import Mathlib.Data.List.Sort
import Mathlib.Data.Multiset.Basic
import Mathlib.Order.Lattice

/-!
The best of a list of elements under a total order `r`, where `r a b` says that `a` ranks at `b` or before it. A
collection of the best can be kept up to date one element at a time: only its last one is compared with the new one.
-/

namespace Ranking
variable {α : Type*}

/-- The last of a sorted list is the only element that all the others rank at or before. -/
theorem last_unique {r : α → α → Prop} [Std.Antisymm r] {p : List α} {b x : α} {rest : Multiset α}
    (h : (p ++ [b]).Pairwise r) (hx : ((p ++ [b] : List α) : Multiset α) = x ::ₘ rest) (hlast : ∀ y ∈ rest, r y x) : x = b ∧ rest = p := by
  have hxb : x = b := by
    have hmem : x ∈ p ++ [b] := by
      rw [← Multiset.mem_coe, hx]
      exact Multiset.mem_cons_self x rest
    rcases List.mem_append.mp hmem with hp | hb
    · have hbx : b ∈ x ::ₘ rest := by
        rw [← hx]
        simp
      rcases Multiset.mem_cons.mp hbx with heq | hrest
      · exact heq.symm
      · have hxb : r x b := (List.pairwise_append.mp h).2.2 x hp b (List.mem_singleton_self b)
        exact Std.Antisymm.antisymm _ _ hxb (hlast b hrest)
    · exact List.mem_singleton.mp hb
  subst hxb
  refine ⟨rfl, ?_⟩
  have hperm : ((p ++ [x] : List α) : Multiset α) = x ::ₘ (p : Multiset α) := by
    rw [Multiset.cons_coe, Multiset.coe_eq_coe]
    exact List.perm_append_singleton x p
  rw [hperm] at hx
  exact ((Multiset.cons_inj_right x).mp hx).symm

variable (r : α → α → Prop) [DecidableRel r]

/-- The first `k` in the order. -/
def best (k : Nat) (l : List α) : List α := (l.insertionSort r).take k

variable {r} {l l' p t : List α} {k : Nat} {b x : α}

theorem length_best (h : k ≤ l.length) : (best r k l).length = k := by
  rw [best, List.length_take, List.length_insertionSort]
  exact min_eq_left h

theorem best_eq_append (h : k + 1 ≤ l.length) : ∃ b, best r (k + 1) l = best r k l ++ [b] := by
  have hlt : k < (l.insertionSort r).length := by
    rw [List.length_insertionSort]
    exact h
  exact ⟨(l.insertionSort r)[k], List.take_succ_eq_append_getElem hlt⟩

theorem insertionSort_of_best (hb : best r (k + 1) l = best r k l ++ [b]) :
    l.insertionSort r = best r k l ++ b :: (l.insertionSort r).drop (k + 1) := by
  conv_lhs => rw [← List.take_append_drop (k + 1) (l.insertionSort r)]
  rw [show (l.insertionSort r).take (k + 1) = best r k l ++ [b] from hb, List.append_assoc]
  rfl

variable [Std.Total r] [IsTrans α r]

theorem pairwise_best : (best r k l).Pairwise r :=
  (List.pairwise_insertionSort r l).sublist (List.take_sublist k _)

variable [Std.Antisymm r]

theorem insertionSort_congr (h : l.Perm l') : l.insertionSort r = l'.insertionSort r := by
  apply List.Perm.eq_of_pairwise' (List.pairwise_insertionSort r l) (List.pairwise_insertionSort r l')
  calc
    (l.insertionSort r).Perm l := List.perm_insertionSort r l
    l.Perm l' := h
    l'.Perm (l'.insertionSort r) := (List.perm_insertionSort r l').symm

/-- The new element does not come before the last of the best: it is inserted behind them. -/
theorem orderedInsert_behind (h : (p ++ b :: t).Pairwise r) (hx : r b x) :
    (p ++ b :: t).orderedInsert r x = p ++ b :: t.orderedInsert r x := by
  apply List.Perm.eq_of_pairwise' (h.orderedInsert x)
  · rw [List.pairwise_append, List.pairwise_cons] at h ⊢
    obtain ⟨hp, ⟨hbt, ht⟩, hpt⟩ := h
    refine ⟨hp, ⟨fun y hy => ?_, ht.orderedInsert x⟩, fun y hy z hz => ?_⟩
    · rcases (List.mem_orderedInsert r).mp hy with rfl | hy
      · exact hx
      · exact hbt y hy
    · rcases List.mem_cons.mp hz with rfl | hz
      · exact hpt y hy z List.mem_cons_self
      · rcases (List.mem_orderedInsert r).mp hz with rfl | hz
        · exact IsTrans.trans _ _ _ (hpt y hy b List.mem_cons_self) hx
        · exact hpt y hy z (List.mem_cons_of_mem _ hz)
  · calc
      ((p ++ b :: t).orderedInsert r x).Perm (x :: (p ++ b :: t)) := List.perm_orderedInsert r x _
      (x :: (p ++ b :: t)).Perm (p ++ b :: (x :: t)) :=
        (List.perm_middle.symm).trans (List.Perm.append_left p (List.Perm.swap b x t))
      (p ++ b :: (x :: t)).Perm (p ++ b :: t.orderedInsert r x) :=
        List.Perm.append_left p ((List.perm_orderedInsert r x t).symm.cons b)

/-- The new element comes before the last of the best: it takes a place among the others. -/
theorem orderedInsert_before (h : (p ++ b :: t).Pairwise r) (hx : r x b) :
    (p ++ b :: t).orderedInsert r x = p.orderedInsert r x ++ b :: t := by
  apply List.Perm.eq_of_pairwise' (h.orderedInsert x)
  · rw [List.pairwise_append] at h ⊢
    obtain ⟨hp, ht, hpt⟩ := h
    refine ⟨hp.orderedInsert x, ht, fun y hy z hz => ?_⟩
    rcases (List.mem_orderedInsert r).mp hy with rfl | hy
    · rcases List.mem_cons.mp hz with rfl | hz
      · exact hx
      · exact IsTrans.trans _ _ _ hx ((List.pairwise_cons.mp ht).1 z hz)
    · exact hpt y hy z hz
  · calc
      ((p ++ b :: t).orderedInsert r x).Perm (x :: (p ++ b :: t)) := List.perm_orderedInsert r x _
      (x :: p ++ b :: t).Perm (p.orderedInsert r x ++ b :: t) :=
        List.Perm.append_right _ (List.perm_orderedInsert r x p).symm

theorem best_push_behind (hk : k + 1 ≤ l.length) (hb : best r (k + 1) l = best r k l ++ [b]) (hx : r b x) :
    best r (k + 1) (x :: l) = best r (k + 1) l := by
  have hsorted := List.pairwise_insertionSort r l
  rw [insertionSort_of_best hb] at hsorted
  have hlength : (best r k l ++ [b]).length = k + 1 := by
    rw [← hb]
    exact length_best hk
  rw [best, List.insertionSort_cons, insertionSort_of_best hb, orderedInsert_behind hsorted hx, hb]
  rw [List.append_cons, ← hlength, List.take_left]

theorem best_push_before (hk : k + 1 ≤ l.length) (hb : best r (k + 1) l = best r k l ++ [b]) (hx : r x b) :
    (best r (k + 1) (x :: l)).Perm (x :: best r k l) := by
  have hsorted := List.pairwise_insertionSort r l
  rw [insertionSort_of_best hb] at hsorted
  have hlength : ((best r k l).orderedInsert r x).length = k + 1 := by
    rw [List.orderedInsert_length, length_best (by omega)]
  rw [best, List.insertionSort_cons, insertionSort_of_best hb, orderedInsert_before hsorted hx, ← hlength,
    List.take_left]
  exact List.perm_orderedInsert r x _

end Ranking
