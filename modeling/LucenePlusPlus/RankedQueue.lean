import LucenePlusPlus.PriorityQueue
import LucenePlusPlus.Ranking

/-!
A queue that keeps the best of the elements it has seen. Its first element is the one that ranks last, so that only
this one is compared with a new one; popped, the elements come out from the last to the first.
-/

namespace LucenePlusPlus
namespace PriorityQueue
open Ranking

/-- `r a b` says that `a` ranks at `b` or before it. -/
def Ranks {α : Type} (lessThan : α → α → Bool) (r : α → α → Prop) : Prop := ∀ a b, lessThan a b = false ↔ r a b

variable {α : Type} {lessThan : α → α → Bool} {r : α → α → Prop} {q : PriorityQueue α} {p s l : List α} {b x : α}
  {k : Nat}

theorem Ranks.strictWeakOn [Std.Total r] [IsTrans α r] (h : Ranks lessThan r) :
    BinaryHeap.StrictWeakOn lessThan fun _ => True where
  asymm a b _ _ hless := by
    rw [h]
    rcases Std.Total.total (r := r) a b with hab | hba
    · rw [(h a b).mpr hab] at hless
      cases hless
    · exact hba
  trans a b c _ _ _ hab hbc := by
    rw [h] at hab hbc ⊢
    exact IsTrans.trans _ _ _ hab hbc

theorem holds_newPopulated {sentinel : α} {maxSize : Nat} (hless : lessThan sentinel sentinel = false)
    (hpos : 1 ≤ maxSize) (hmax : maxSize < INT_MAX) :
    Holds lessThan (newPopulated sentinel maxSize) (Multiset.replicate maxSize sentinel) := by
  have hheap : ∀ k, 1 ≤ k → k ≤ maxSize → (newPopulated sentinel maxSize).heap k = some sentinel := by
    intro k hk hle
    refine if_pos ⟨hk, ?_⟩
    simp only [new]
    split_ifs <;> omega
  refine ⟨fun j hj hle => ?_, ?_, fun k hk => ?_⟩
  · change j ≤ maxSize at hle
    rw [hheap j (by omega) hle, hheap (j / 2) (by omega) (by omega)]
    exact hless
  · rw [Multiset.map_replicate]
    change BinaryHeap.contents (newPopulated sentinel maxSize).heap maxSize = _
    calc
      BinaryHeap.contents (newPopulated sentinel maxSize).heap maxSize =
          ∑ _k ∈ Finset.Icc 1 maxSize, {some sentinel} := by
        apply Finset.sum_congr rfl
        intro k hk
        rw [Finset.mem_Icc] at hk
        rw [hheap k hk.1 hk.2]
      _ = Multiset.replicate maxSize (some sentinel) := by
        rw [Finset.sum_const, Nat.card_Icc, Nat.add_sub_cancel, Multiset.nsmul_singleton]
  · have hlt : maxSize < k := hk
    refine if_neg fun hheap => ?_
    have hsize := hheap.2
    simp only [new] at hsize
    split_ifs at hsize <;> omega

section Standing
variable {β : Type} {lessThan : β → β → Bool} {q : PriorityQueue β} {f : β → α} {E : Multiset β} {e y : β}
  [Std.Total r] [IsTrans α r] [Std.Antisymm r]

theorem Holds.pop_standing (h : Holds lessThan q E) (hr : Ranks lessThan (Order.Preimage f r))
    (hE : E.map f = ((p ++ [b] : List α) : Multiset α)) (hsorted : (p ++ [b]).Pairwise r) :
    ∃ e rest q', E = e ::ₘ rest ∧ f e = b ∧ rest.map f = p ∧ q.top = some e ∧ q.pop lessThan = (some e, q') ∧
      Holds lessThan q' rest ∧ q'.heapSize = q.heapSize := by
  have hne : E ≠ 0 := by
    rintro rfl
    rw [Multiset.map_zero, eq_comm, Multiset.coe_eq_zero] at hE
    simp at hE
  obtain ⟨e, rest, q', helements, htop, hpop, hholds, hsize, hlast⟩ := h.pop hr.strictWeakOn hne
  rw [helements, Multiset.map_cons] at hE
  obtain ⟨hb, hp⟩ := last_unique hsorted hE.symm fun a ha => by
    obtain ⟨y, hy, rfl⟩ := Multiset.mem_map.mp ha
    exact (hr y e).mp (hlast y hy)
  exact ⟨e, rest, q', helements, hb, hp, htop, hpop, hholds, hsize⟩

/-- Popped into an array from its end on, they stand for the last ones in their order. -/
theorem Holds.popInto_standing (h : Holds lessThan q E) (hr : Ranks lessThan (Order.Preimage f r))
    (hE : E.map f = ((p ++ s : List α) : Multiset α)) (hsorted : (p ++ s).Pairwise r) :
    ∃ (es : List β) (rest : Multiset β) (q' : PriorityQueue β), E = rest + es ∧ es.map f = s ∧ rest.map f = p ∧
      q.popInto lessThan s.length = (es.map some, q') ∧ Holds lessThan q' rest := by
  induction s using List.reverseRecOn generalizing q E with
  | nil =>
      rw [List.append_nil] at hE
      refine ⟨[], E, q, ?_, rfl, hE, rfl, h⟩
      rw [Multiset.coe_nil, add_zero]
  | append_singleton s b ih =>
      rw [← List.append_assoc] at hE hsorted
      obtain ⟨e, E', q', rfl, hb, hE', -, hpop, hholds, -⟩ := h.pop_standing hr hE hsorted
      obtain ⟨es, rest, q'', rfl, hes, hrest, hinto, hholds'⟩ := ih hholds hE' (List.pairwise_append.mp hsorted).1
      refine ⟨es ++ [e], rest, q'', ?_, ?_, hrest, ?_, hholds'⟩
      · rw [← Multiset.coe_add, Multiset.coe_singleton, ← add_assoc, add_comm _ ({e} : Multiset β),
          Multiset.singleton_add]
      · rw [List.map_append, hes, List.map_singleton, hb]
      · rw [List.length_append, List.length_singleton, PriorityQueue.popInto, hpop]
        dsimp only
        rw [hinto, List.map_append]
        rfl

variable [DecidableRel r]

/-- The queue has the best of some elements, and a new one does not come before the last of them. -/
theorem Holds.keep_behind_standing (h : Holds lessThan q E) (hr : Ranks lessThan (Order.Preimage f r))
    (hE : E.map f = best r (k + 1) l) (hlength : k + 1 ≤ l.length) (htop : q.top = some e) (hx : r (f e) x) :
    E.map f = best r (k + 1) (x :: l) := by
  obtain ⟨c, hc⟩ := best_eq_append (r := r) hlength
  have hsorted : (best r k l ++ [c]).Pairwise r := by
    rw [← hc]
    exact pairwise_best
  obtain ⟨e', -, -, -, hb, -, htop', -⟩ := h.pop_standing hr (hE.trans (congrArg _ hc)) hsorted
  rw [htop] at htop'
  cases htop'
  rw [hb] at hx
  rw [best_push_behind hlength hc hx]
  exact hE

theorem Holds.keep_before_standing (h : Holds lessThan q E) (hr : Ranks lessThan (Order.Preimage f r))
    (hE : E.map f = best r (k + 1) l) (hlength : k + 1 ≤ l.length) (htop : q.top = some e) (hx : r (f y) (f e)) :
    ∃ rest, E = e ::ₘ rest ∧ Holds lessThan (q.changeTop lessThan y) (y ::ₘ rest) ∧
      (y ::ₘ rest).map f = best r (k + 1) (f y :: l) := by
  obtain ⟨c, hc⟩ := best_eq_append (r := r) hlength
  have hsorted : (best r k l ++ [c]).Pairwise r := by
    rw [← hc]
    exact pairwise_best
  obtain ⟨e', rest, -, rfl, hb, hrest, htop', -⟩ := h.pop_standing hr (hE.trans (congrArg _ hc)) hsorted
  rw [htop] at htop'
  cases htop'
  rw [hb] at hx
  refine ⟨rest, rfl, (h.changeTop hr.strictWeakOn htop y).1, ?_⟩
  rw [Multiset.map_cons, hrest, Multiset.cons_coe, eq_comm, Multiset.coe_eq_coe]
  exact best_push_before hlength hc hx

end Standing

theorem Ranks.standing (hr : Ranks lessThan r) : Ranks lessThan (Order.Preimage id r) := hr

variable [Std.Total r] [IsTrans α r] [Std.Antisymm r]

theorem Holds.pop_last (h : Holds lessThan q ((p ++ [b] : List α) : Multiset α)) (hr : Ranks lessThan r)
    (hsorted : (p ++ [b]).Pairwise r) :
    ∃ q', q.top = some b ∧ q.pop lessThan = (some b, q') ∧ Holds lessThan q' (p : Multiset α) := by
  obtain ⟨e, rest, q', -, hb, hrest, htop, hpop, hholds, -⟩ :=
    h.pop_standing hr.standing (Multiset.map_id _) hsorted
  rw [Multiset.map_id] at hrest
  cases hb
  cases hrest
  exact ⟨q', htop, hpop, hholds⟩

/-- Popped into an array from its end on, the last ones stand there in their order. -/
theorem Holds.popInto (h : Holds lessThan q ((p ++ s : List α) : Multiset α)) (hr : Ranks lessThan r)
    (hsorted : (p ++ s).Pairwise r) :
    ∃ q', q.popInto lessThan s.length = (s.map some, q') ∧ Holds lessThan q' (p : Multiset α) := by
  obtain ⟨es, rest, q', -, hes, hrest, hinto, hholds⟩ :=
    h.popInto_standing hr.standing (Multiset.map_id _) hsorted
  rw [Multiset.map_id] at hrest
  rw [List.map_id] at hes
  cases hrest
  cases hes
  exact ⟨q', hinto, hholds⟩

section Keeping
variable [DecidableRel r]

/-- The queue has the best of some elements, and a new one does not come before the last of them. -/
theorem Holds.keep_behind (h : Holds lessThan q (best r (k + 1) l : Multiset α)) (hr : Ranks lessThan r)
    (hlength : k + 1 ≤ l.length) (htop : q.top = some b) (hx : r b x) :
    Holds lessThan q (best r (k + 1) (x :: l) : Multiset α) := by
  have hbest := h.keep_behind_standing hr.standing (Multiset.map_id _) hlength htop hx
  rw [Multiset.map_id] at hbest
  rw [← hbest]
  exact h

theorem Holds.keep_before (h : Holds lessThan q (best r (k + 1) l : Multiset α)) (hr : Ranks lessThan r)
    (hlength : k + 1 ≤ l.length) (htop : q.top = some b) (hx : r x b) :
    Holds lessThan (q.changeTop lessThan x) (best r (k + 1) (x :: l) : Multiset α) := by
  obtain ⟨rest, -, hholds, hbest⟩ := h.keep_before_standing hr.standing (Multiset.map_id _) hlength htop (y := x) hx
  rw [Multiset.map_id] at hbest
  rw [← show x ::ₘ rest = (best r (k + 1) (x :: l) : Multiset α) from hbest]
  exact hholds

end Keeping

end PriorityQueue
end LucenePlusPlus
