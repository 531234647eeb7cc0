import LucenePlusPlus.BinaryHeap

/-!
`PriorityQueue`: the least of its elements can always be found. A null pointer is `none`; slot `0` of the
heap is not used. The indices of slots are numbers here: in the source, the children of a slot do not fit an
`int32_t` from slot `2 ^ 30` on, which is one of a queue with at least so many elements.
-/

namespace LucenePlusPlus

def INT_MAX : Nat := 0x7fffffff

structure PriorityQueue (α : Type) where
  heap : Nat → Option α
  /-- `heap.size()` -/
  heapSize : Nat
  size : Nat
  maxSize : Nat

namespace PriorityQueue
open BinaryHeap

section Operations
variable {α : Type} (lessThan : α → α → Bool) (q : PriorityQueue α)

/-- What `lessThan` is asked of the slots, which are not null where it is. -/
def slotLess : Option α → Option α → Bool
  | some first, some second => lessThan first second
  | _, _ => false

/-- A queue without sentinels, after `initialize`. -/
def new (maxSize : Nat) : PriorityQueue α where
  heap := fun _ => none
  heapSize := if maxSize = 0 then 2 else if maxSize = INT_MAX then INT_MAX else maxSize + 1
  size := 0
  maxSize := maxSize

def upHeap : PriorityQueue α :=
  { q with heap := siftUp (slotLess lessThan) (q.heap q.size) q.size q.heap q.size }

def downHeap : PriorityQueue α :=
  { q with heap := siftDown (slotLess lessThan) (q.heap 1) q.size q.size q.heap 1 }

/-- The error is the `IndexOutOfBoundsException`, with the queue as it is then. -/
def add (type : α) : Except (PriorityQueue α) (PriorityQueue α) :=
  let q := { q with size := q.size + 1 }
  if q.heapSize ≤ q.size then .error q
  else .ok (upHeap lessThan { q with heap := Function.update q.heap q.size (some type) })

def top : Option α := q.heap 1

def pop : Option α × PriorityQueue α :=
  if 0 < q.size then
    (q.heap 1, downHeap lessThan { q with
      heap := Function.update (Function.update q.heap 1 (q.heap q.size)) q.size none
      size := q.size - 1 })
  else (none, q)

def empty : Bool := q.size = 0

/-- A queue whose `getSentinelObject` gives this, after `initialize`. -/
def newPopulated (sentinel : α) (maxSize : Nat) : PriorityQueue α :=
  { (new maxSize : PriorityQueue α) with
    heap := fun k => if 1 ≤ k ∧ k < (new maxSize : PriorityQueue α).heapSize then some sentinel else none
    size := maxSize }

/-- The first element is changed, and `updateTop` is called. -/
def changeTop (x : α) : PriorityQueue α :=
  downHeap lessThan { q with heap := Function.update q.heap 1 (some x) }

/-- So many elements are popped. -/
def discard : Nat → PriorityQueue α → PriorityQueue α
  | 0, q => q
  | n + 1, q => discard n (q.pop lessThan).2

/-- So many elements are popped, and put in an array from its end on. -/
def popInto : Nat → PriorityQueue α → List (Option α) × PriorityQueue α
  | 0, q => ([], q)
  | n + 1, q =>
      ((popInto n (q.pop lessThan).2).1 ++ [(q.pop lessThan).1], (popInto n (q.pop lessThan).2).2)

end Operations

variable {α : Type} {lessThan : α → α → Bool} {q : PriorityQueue α} {elements : Multiset α} {x : α}

/-- The queue is a heap of these elements. -/
structure Holds (lessThan : α → α → Bool) (q : PriorityQueue α) (elements : Multiset α) : Prop where
  order : HeapOrder (slotLess lessThan) q.heap q.size
  contents_eq : contents q.heap q.size = elements.map some
  beyond : ∀ k, q.size < k → q.heap k = none

theorem strictWeakOn_slotLess (h : StrictWeakOn lessThan fun _ => True) :
    StrictWeakOn (slotLess lessThan) fun slot => slot.isSome = true where
  asymm slot slot' hslot hslot' hless := by
    obtain ⟨x, rfl⟩ := Option.isSome_iff_exists.mp hslot
    obtain ⟨y, rfl⟩ := Option.isSome_iff_exists.mp hslot'
    exact h.asymm x y trivial trivial hless
  trans slot₁ slot₂ slot₃ h₁ h₂ h₃ h₁₂ h₂₃ := by
    obtain ⟨x, rfl⟩ := Option.isSome_iff_exists.mp h₁
    obtain ⟨y, rfl⟩ := Option.isSome_iff_exists.mp h₂
    obtain ⟨z, rfl⟩ := Option.isSome_iff_exists.mp h₃
    exact h.trans x y z trivial trivial trivial h₁₂ h₂₃

theorem isSome_of_contents {h : Nat → Option α} {n : Nat} (heq : contents h n = elements.map some) :
    All (fun slot => slot.isSome = true) h n := by
  intro k hk hkn
  have hmem : h k ∈ contents h n := mem_contents.mpr ⟨k, hk, hkn, rfl⟩
  rw [heq, Multiset.mem_map] at hmem
  obtain ⟨x, -, hx⟩ := hmem
  rw [← hx]
  rfl

theorem holds_new (lessThan : α → α → Bool) (maxSize : Nat) :
    Holds lessThan (new maxSize) 0 where
  order j hj hjn := by
    change j ≤ 0 at hjn
    omega
  contents_eq := rfl
  beyond _ _ := rfl

theorem Holds.card (h : Holds lessThan q elements) : elements.card = q.size := by
  rw [← Multiset.card_map some, ← h.contents_eq, contents, Multiset.card_sum]
  rw [Finset.sum_const_nat fun _ _ => Multiset.card_singleton _, Nat.card_Icc]
  omega

theorem Holds.empty_iff (h : Holds lessThan q elements) : q.empty = true ↔ elements = 0 := by
  rw [empty, decide_eq_true_iff, ← h.card, Multiset.card_eq_zero]

theorem Holds.top_of_eq_zero (h : Holds lessThan q 0) : q.top = none := by
  have hsize := h.card
  rw [Multiset.card_zero] at hsize
  exact h.beyond 1 (by omega)

theorem Holds.pop_of_eq_zero (h : Holds lessThan q 0) : q.pop lessThan = (none, q) := by
  have hsize := h.card
  rw [Multiset.card_zero] at hsize
  rw [PriorityQueue.pop, if_neg (by omega)]

theorem heapSize_add {q' : PriorityQueue α} (h : q.add lessThan x = .ok q') : q'.heapSize = q.heapSize := by
  simp only [add] at h
  split at h
  · cases h
  · cases h
    rfl

theorem Holds.add (h : Holds lessThan q elements) (hless : StrictWeakOn lessThan fun _ => True)
    (hroom : q.size + 1 < q.heapSize) :
    ∃ q', q.add lessThan x = .ok q' ∧ Holds lessThan q' (x ::ₘ elements) := by
  have hcontents : contents (Function.update q.heap (q.size + 1) (some x)) (q.size + 1) =
      (x ::ₘ elements).map some := by
    rw [contents_succ, Function.update_self, Multiset.map_cons, ← h.contents_eq]
    congr 1
    exact contents_congr fun k _ hk => Function.update_of_ne (by omega) _ _
  have hready := h.order.upReady (some x)
  have hidem : Function.update (Function.update q.heap (q.size + 1) (some x)) (q.size + 1) (some x) =
      Function.update q.heap (q.size + 1) (some x) := Function.update_idem _ _ _
  rw [← hidem] at hcontents hready
  obtain ⟨horder, hsame, hbeyond⟩ := siftUp_spec (strictWeakOn_slotLess hless) le_rfl (by omega) le_rfl
    (isSome_of_contents hcontents) hready
  refine ⟨upHeap lessThan { q with
    heap := Function.update q.heap (q.size + 1) (some x)
    size := q.size + 1 }, ?_, ?_, ?_, ?_⟩
  · simp only [PriorityQueue.add]
    rw [if_neg (by omega)]
  · simp only [upHeap, Function.update_self]
    exact horder
  · simp only [upHeap, Function.update_self]
    exact hsame.trans hcontents
  · intro k hk
    simp only [upHeap, Function.update_self] at hk ⊢
    rw [hbeyond k hk, Function.update_of_ne (by omega)]
    exact h.beyond k (by omega)

/-- The slots when the last element has taken the place of the first. -/
def removed (q : PriorityQueue α) : Nat → Option α :=
  Function.update (Function.update q.heap 1 (q.heap q.size)) q.size none

theorem removed_of_le {k : Nat} (hk : 2 ≤ k) (hlt : k < q.size) : removed q k = q.heap k := by
  rw [removed, Function.update_of_ne (by omega), Function.update_of_ne (by omega)]

theorem removed_of_size_le (h : ∀ k, q.size < k → q.heap k = none) {k : Nat} (hk : 2 ≤ k)
    (hle : q.size ≤ k) : removed q k = none := by
  rw [removed]
  by_cases heq : k = q.size
  · rw [heq, Function.update_self]
  · rw [Function.update_of_ne heq, Function.update_of_ne (by omega)]
    exact h k (by omega)

theorem Holds.contents_removed (h : Holds lessThan q elements) {n : Nat} (hn : q.size = n + 1)
    (hx : q.heap 1 = some x) :
    ∃ rest, elements = x ::ₘ rest ∧ contents (removed q) n = rest.map some := by
  have hlast : contents q.heap (n + 1) = q.heap 1 ::ₘ contents (removed q) n := by
    rw [contents_succ]
    rcases Nat.eq_zero_or_pos n with rfl | hpos
    · rfl
    · rw [← contents_update ⟨le_rfl, hpos⟩]
      congr 1
      refine contents_congr fun k _ hkn => ?_
      rw [removed, hn]
      exact (Function.update_of_ne (by omega) _ _).symm
  have heq : elements.map some = some x ::ₘ contents (removed q) n := by
    rw [← h.contents_eq, hn, hlast, hx]
  obtain ⟨y, hy, hyx⟩ := Multiset.mem_map.mp (heq ▸ Multiset.mem_cons_self (some x) _)
  cases hyx
  obtain ⟨rest, rfl⟩ := Multiset.exists_cons_of_mem hy
  refine ⟨rest, rfl, ?_⟩
  rw [Multiset.map_cons] at heq
  exact ((Multiset.cons_inj_right _).mp heq).symm

/-- The queue is not empty: its first element is the one that `top` returns, and none comes before it. -/
theorem Holds.pop (h : Holds lessThan q elements) (hless : StrictWeakOn lessThan fun _ => True)
    (hne : elements ≠ 0) :
    ∃ x rest q', elements = x ::ₘ rest ∧ q.top = some x ∧ q.pop lessThan = (some x, q') ∧
      Holds lessThan q' rest ∧ q'.heapSize = q.heapSize ∧ ∀ y ∈ rest, lessThan y x = false := by
  have hpos : 0 < q.size := by
    rw [← h.card]
    exact Multiset.card_pos.mpr hne
  obtain ⟨n, hn⟩ : ∃ n, q.size = n + 1 := ⟨q.size - 1, by omega⟩
  have hall := isSome_of_contents h.contents_eq
  have hstrict := strictWeakOn_slotLess hless
  obtain ⟨x, hx⟩ := Option.isSome_iff_exists.mp (hall 1 le_rfl hpos)
  obtain ⟨rest, helements, hcontents⟩ := h.contents_removed hn hx
  have hsize : q.size - 1 = n := by omega
  -- what goes down from the first slot is there already
  have hself : Function.update (removed q) 1 (removed q 1) = removed q := Function.update_eq_self _ _
  have hsift : HeapOrder (slotLess lessThan) (siftDown (slotLess lessThan) (removed q 1) n n (removed q) 1) n ∧
      contents (siftDown (slotLess lessThan) (removed q 1) n n (removed q) 1) n = contents (removed q) n ∧
      ∀ k, n < k → siftDown (slotLess lessThan) (removed q 1) n n (removed q) 1 k = removed q k := by
    rcases Nat.eq_zero_or_pos n with rfl | hnpos
    · rw [siftDown, hself]
      exact ⟨fun j hj hjn => by omega, rfl, fun _ _ => rfl⟩
    · have horder : HeapOrder (slotLess lessThan) q.heap n := fun j hj hjn => h.order j hj (by omega)
      have hready := horder.downReady fun k hk hkn => removed_of_le hk (by omega)
      rw [← hself] at hready
      have hspec := siftDown_spec hstrict (Nat.le_add_right n 1) le_rfl hnpos
        (by rw [hself]; exact isSome_of_contents hcontents) hready
      rw [hself] at hspec
      exact hspec
  obtain ⟨horder, hsame, hbeyond⟩ := hsift
  refine ⟨x, rest, ⟨siftDown (slotLess lessThan) (removed q 1) n n (removed q) 1, q.heapSize, n, q.maxSize⟩,
    helements, hx, ?_, ⟨horder, hsame.trans hcontents, fun k hk => ?_⟩, rfl, fun y hy => ?_⟩
  · rw [PriorityQueue.pop, if_pos hpos, hx, downHeap, hsize]
    rfl
  · have hnk : n < k := hk
    refine (hbeyond k hnk).trans ?_
    rcases Nat.eq_zero_or_pos n with rfl | hnpos
    · rw [removed, hn]
      by_cases hone : k = 1
      · rw [hone, Function.update_self]
      · rw [Function.update_of_ne hone, Function.update_of_ne hone]
        exact h.beyond k (by rw [hn]; omega)
    · exact removed_of_size_le h.beyond (by omega) (by omega)
  · have hmem : some y ∈ contents q.heap q.size := by
      rw [h.contents_eq, helements]
      exact Multiset.mem_map_of_mem some (Multiset.mem_cons_of_mem hy)
    obtain ⟨k, hk, hkn, hky⟩ := mem_contents.mp hmem
    have hfirst := h.order.first_le hstrict hall hk hkn
    rw [hky, hx] at hfirst
    exact hfirst

theorem Holds.changeTop (h : Holds lessThan q (x ::ₘ elements)) (hless : StrictWeakOn lessThan fun _ => True)
    (htop : q.top = some x) (y : α) :
    Holds lessThan (q.changeTop lessThan y) (y ::ₘ elements) ∧ (q.changeTop lessThan y).size = q.size ∧
      (q.changeTop lessThan y).heapSize = q.heapSize := by
  have hpos : 0 < q.size := by
    rw [← h.card, Multiset.card_cons]
    omega
  have hcontents : contents (Function.update q.heap 1 (some y)) q.size = (y ::ₘ elements).map some := by
    have hupdate := contents_update ⟨le_rfl, hpos⟩ (h := q.heap) (some y)
    rw [h.contents_eq, show q.heap 1 = some x from htop, Multiset.map_cons, Multiset.cons_swap] at hupdate
    rw [Multiset.map_cons]
    exact (Multiset.cons_inj_right _).mp hupdate
  have hself : Function.update (Function.update q.heap 1 (some y)) 1 (some y) = Function.update q.heap 1 (some y) :=
    Function.update_idem _ _ _
  have hothers : ∀ k, 2 ≤ k → k ≤ q.size → Function.update q.heap 1 (some y) k = q.heap k := by
    intro k hk _
    exact Function.update_of_ne (by omega) _ _
  have hready := h.order.downReady hothers
  rw [← hself] at hready
  obtain ⟨horder, hsame, hbeyond⟩ := siftDown_spec (strictWeakOn_slotLess hless) (Nat.le_add_right q.size 1) le_rfl hpos
    (by rw [hself]; exact isSome_of_contents hcontents) hready
  rw [hself] at hsame
  refine ⟨⟨?_, ?_, fun k hk => ?_⟩, rfl, rfl⟩
  · simp only [PriorityQueue.changeTop, downHeap, Function.update_self]
    exact horder
  · simp only [PriorityQueue.changeTop, downHeap, Function.update_self]
    exact hsame.trans hcontents
  · simp only [PriorityQueue.changeTop, downHeap, Function.update_self] at hk ⊢
    rw [hbeyond k hk, Function.update_of_ne (by omega)]
    exact h.beyond k hk

/-! ### Orders that agree on the elements -/

section Agreeing
variable {lessThan' : α → α → Bool}

/-- The two orders compare these elements in the same way. -/
def Agree (lessThan lessThan' : α → α → Bool) (elements : Multiset α) : Prop :=
  ∀ x ∈ elements, ∀ y ∈ elements, lessThan x y = lessThan' x y

theorem Agree.slotLess (h : Agree lessThan lessThan' elements) :
    AgreeOn (slotLess lessThan) (slotLess lessThan') fun slot => slot ∈ elements.map some := by
  intro slot slot' hslot hslot'
  obtain ⟨x, hx, rfl⟩ := Multiset.mem_map.mp hslot
  obtain ⟨y, hy, rfl⟩ := Multiset.mem_map.mp hslot'
  exact h x hx y hy

theorem all_of_contents {h : Nat → Option α} {n : Nat} (heq : contents h n ≤ elements.map some) :
    All (fun slot => slot ∈ elements.map some) h n :=
  fun k hk hkn => Multiset.mem_of_le heq (mem_contents.mpr ⟨k, hk, hkn, rfl⟩)

theorem Holds.add_congr (h : Holds lessThan' q elements) (hagree : Agree lessThan lessThan' (x ::ₘ elements)) :
    q.add lessThan x = q.add lessThan' x := by
  have hcontents : contents (Function.update q.heap (q.size + 1) (some x)) (q.size + 1) ≤
      (x ::ₘ elements).map some := by
    rw [contents_succ, Function.update_self, Multiset.map_cons, ← h.contents_eq]
    apply le_of_eq
    congr 1
    exact contents_congr fun k _ hk => Function.update_of_ne (by omega) _ _
  have hup := siftUp_congr hagree.slotLess (Multiset.mem_map_of_mem some (Multiset.mem_cons_self x elements))
    (q.size + 1) (all_of_contents hcontents) (le_refl (q.size + 1))
  simp only [PriorityQueue.add, upHeap, Function.update_self]
  rw [hup]

theorem Holds.changeTop_congr {y : α} (h : Holds lessThan' q (y ::ₘ elements)) (htop : q.top = some y)
    (hagree : Agree lessThan lessThan' (x ::ₘ elements)) : q.changeTop lessThan x = q.changeTop lessThan' x := by
  have hpos : 0 < q.size := by
    rw [← h.card, Multiset.card_cons]
    omega
  have hcontents : contents (Function.update q.heap 1 (some x)) q.size = (x ::ₘ elements).map some := by
    have hupdate := contents_update ⟨le_rfl, hpos⟩ (h := q.heap) (some x)
    rw [h.contents_eq, show q.heap 1 = some y from htop, Multiset.map_cons, Multiset.cons_swap] at hupdate
    rw [Multiset.map_cons]
    exact (Multiset.cons_inj_right _).mp hupdate
  have hdown := siftDown_congr hagree.slotLess (Multiset.mem_map_of_mem some (Multiset.mem_cons_self x elements))
    q.size (all_of_contents hcontents.le) le_rfl
  simp only [PriorityQueue.changeTop, downHeap, Function.update_self]
  rw [hdown]

theorem Holds.pop_congr (h : Holds lessThan' q elements) (hagree : Agree lessThan lessThan' elements) :
    q.pop lessThan = q.pop lessThan' := by
  unfold PriorityQueue.pop
  split
  · rename_i hpos
    obtain ⟨n, hn⟩ : ∃ n, q.size = n + 1 := ⟨q.size - 1, by omega⟩
    have hall := isSome_of_contents h.contents_eq
    obtain ⟨x, hx⟩ := Option.isSome_iff_exists.mp (hall 1 le_rfl hpos)
    obtain ⟨rest, helements, hcontents⟩ := h.contents_removed hn hx
    have hle : contents (removed q) n ≤ elements.map some := by
      rw [hcontents, helements]
      exact Multiset.map_le_map (Multiset.le_cons_self rest x)
    rw [Prod.mk.injEq]
    refine ⟨rfl, ?_⟩
    simp only [downHeap, show q.size - 1 = n by omega]
    rcases Nat.eq_zero_or_pos n with rfl | hnpos
    · rfl
    · have hslots := all_of_contents hle
      have hdown := siftDown_congr hagree.slotLess (hslots 1 le_rfl hnpos) n hslots le_rfl
      change (⟨siftDown _ (removed q 1) n n (removed q) 1, _, _, _⟩ : PriorityQueue α) =
        ⟨siftDown _ (removed q 1) n n (removed q) 1, _, _, _⟩
      rw [hdown]
  · rfl

theorem Agree.mono {rest : Multiset α} (h : Agree lessThan lessThan' elements) (hle : rest ≤ elements) :
    Agree lessThan lessThan' rest :=
  fun y hy z hz => h y (Multiset.mem_of_le hle hy) z (Multiset.mem_of_le hle hz)

theorem Holds.popInto_congr (h : Holds lessThan' q elements) (hless : StrictWeakOn lessThan' fun _ => True)
    (hagree : Agree lessThan lessThan' elements) (n : Nat) : q.popInto lessThan n = q.popInto lessThan' n := by
  induction n generalizing q elements with
  | zero => rfl
  | succ n ih =>
      rw [PriorityQueue.popInto, PriorityQueue.popInto, h.pop_congr hagree]
      by_cases hzero : elements = 0
      · subst hzero
        rw [h.pop_of_eq_zero]
        dsimp only
        rw [ih h hagree]
      · obtain ⟨x, rest, q', rfl, -, hpop, hholds, -, -⟩ := h.pop hless hzero
        rw [hpop]
        dsimp only
        rw [ih hholds (hagree.mono (Multiset.le_cons_self rest x))]

end Agreeing

end PriorityQueue
end LucenePlusPlus
