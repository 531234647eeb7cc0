import LucenePlusPlus.PriorityQueue

/-!
`PriorityQueue` over whole runs of its operations: what it holds is a heap, popping sorts it, and what overflows is never
greater than what is kept.
-/

namespace LucenePlusPlus
namespace PriorityQueue
open BinaryHeap

section Operations
variable {α : Type} (lessThan : α → α → Bool) (q : PriorityQueue α)

/-- The result is null where nothing was dropped. -/
def addOverflow (type : α) : Except (PriorityQueue α) (Option α × PriorityQueue α) :=
  if q.size < q.maxSize then (q.add lessThan type).map fun q => (none, q)
  else if 0 < q.size ∧ slotLess lessThan (some type) q.top = false then .ok (q.top, q.changeTop lessThan type)
  else .ok (some type, q)

def clear : PriorityQueue α := { q with heap := fun k => if k ≤ q.size then none else q.heap k, size := 0 }

/-- `changeTop` changes the first element and calls `updateTop`. -/
inductive Op (α : Type) where
  | add (type : α)
  | addOverflow (type : α)
  | pop
  | changeTop (type : α)
  | clear

/-- What an operation returns, and the queue it leaves. -/
def apply : Op α → Except (PriorityQueue α) (Option α × PriorityQueue α)
  | .add type => (q.add lessThan type).map fun q => (q.top, q)
  | .addOverflow type => q.addOverflow lessThan type
  | .pop => .ok (q.pop lessThan)
  | .changeTop type => .ok ((q.changeTop lessThan type).top, q.changeTop lessThan type)
  | .clear => .ok (none, q.clear)

/-- An element is added within the capacity, and only a first element that there is can be changed. -/
def Permits : Op α → Prop
  | .add _ => q.size < q.maxSize
  | .changeTop _ => 0 < q.size
  | _ => True

inductive Reachable (maxSize : Nat) : PriorityQueue α → Prop
  | new : Reachable maxSize (new maxSize)
  | apply {q q' : PriorityQueue α} {op : Op α} {result : Option α} (h : Reachable maxSize q) (hop : q.Permits op)
      (hq' : q.apply lessThan op = .ok (result, q')) : Reachable maxSize q'

/-- Elements offered one after another, with what each call returned. -/
def offer (q : PriorityQueue α) : List α → Except (PriorityQueue α) (List (Option α) × PriorityQueue α)
  | [] => .ok ([], q)
  | type :: rest => do
      let (result, q) ← q.addOverflow lessThan type
      let (results, q) ← offer q rest
      pure (result :: results, q)

/-- So many elements are popped, in the order in which they come. -/
def pops (q : PriorityQueue α) : Nat → List (Option α)
  | 0 => []
  | n + 1 => (q.pop lessThan).1 :: pops (q.pop lessThan).2 n

end Operations

variable {α : Type} {lessThan : α → α → Bool} {q q' : PriorityQueue α} {E : Multiset α} {maxSize : Nat} {x : α}
  {op : Op α} {result : Option α}

/-- What an operation makes of the elements, and what it returns. The kept elements are not less than the dropped one. -/
inductive Effect (lessThan : α → α → Bool) (maxSize : Nat) : Op α → Multiset α → Option α → Multiset α → Prop
  | add {x top : α} {E : Multiset α} (htop : top ∈ x ::ₘ E) (hleast : ∀ y ∈ x ::ₘ E, lessThan y top = false) :
      Effect lessThan maxSize (.add x) E (some top) (x ::ₘ E)
  | room {x : α} {E : Multiset α} (h : E.card < maxSize) : Effect lessThan maxSize (.addOverflow x) E none (x ::ₘ E)
  | drop {x dropped : α} {E E' : Multiset α} (h : E.card = maxSize) (hE : dropped ::ₘ E' = x ::ₘ E)
      (hleast : ∀ y ∈ E', lessThan y dropped = false) : Effect lessThan maxSize (.addOverflow x) E (some dropped) E'
  | pop {top : α} {E : Multiset α} (hleast : ∀ y ∈ E, lessThan y top = false) :
      Effect lessThan maxSize .pop (top ::ₘ E) (some top) E
  | popEmpty : Effect lessThan maxSize .pop 0 none 0
  | changeTop {x top top' : α} {E : Multiset α} (hleast : ∀ y ∈ E, lessThan y top = false) (htop : top' ∈ x ::ₘ E)
      (hleast' : ∀ y ∈ x ::ₘ E, lessThan y top' = false) :
      Effect lessThan maxSize (.changeTop x) (top ::ₘ E) (some top') (x ::ₘ E)
  | clear {E : Multiset α} : Effect lessThan maxSize .clear E none 0

theorem irrefl (hless : StrictWeakOn lessThan fun _ => True) (x : α) : lessThan x x = false := by
  by_contra h
  exact h (hless.asymm x x trivial trivial (Bool.eq_true_of_not_eq_false h))

theorem Holds.exists_top (h : Holds lessThan q E) (hless : StrictWeakOn lessThan fun _ => True) (hpos : 0 < q.size) :
    ∃ top rest, E = top ::ₘ rest ∧ q.top = some top ∧ ∀ y ∈ rest, lessThan y top = false := by
  have hne : E ≠ 0 := by
    rw [← Multiset.card_pos, h.card]
    exact hpos
  obtain ⟨top, rest, -, hE, htop, -, -, -, hleast⟩ := h.pop hless hne
  exact ⟨top, rest, hE, htop, hleast⟩

theorem Holds.top_least (h : Holds lessThan q E) (hless : StrictWeakOn lessThan fun _ => True) (hpos : 0 < q.size) :
    ∃ top ∈ E, q.top = some top ∧ ∀ y ∈ E, lessThan y top = false := by
  obtain ⟨top, rest, rfl, htop, hleast⟩ := h.exists_top hless hpos
  refine ⟨top, Multiset.mem_cons_self top rest, htop, fun y hy => ?_⟩
  rcases Multiset.mem_cons.mp hy with rfl | hy
  · exact irrefl hless y
  · exact hleast y hy

theorem holds_clear (h : ∀ k, q.size < k → q.heap k = none) : Holds lessThan q.clear 0 where
  order j hj hle := by
    have hzero : j ≤ 0 := hle
    omega
  contents_eq := rfl
  beyond k _ := by
    change (if k ≤ q.size then none else q.heap k) = none
    split
    · rfl
    · exact h k (by omega)

/-- The queue has the elements, and its size and its array are those of `maxSize`. -/
structure Sound (lessThan : α → α → Bool) (maxSize : Nat) (q : PriorityQueue α) (E : Multiset α) : Prop where
  holds : Holds lessThan q E
  maxSize_eq : q.maxSize = maxSize
  heapSize_eq : q.heapSize = (new maxSize : PriorityQueue α).heapSize
  size_le : q.size ≤ maxSize

theorem sound_new (lessThan : α → α → Bool) (maxSize : Nat) : Sound lessThan maxSize (new maxSize) 0 where
  holds := holds_new lessThan maxSize
  maxSize_eq := rfl
  heapSize_eq := rfl
  size_le := Nat.zero_le maxSize

theorem room (hmax : maxSize < INT_MAX) (hsize : q.size < maxSize) :
    q.size + 1 < (new maxSize : PriorityQueue α).heapSize := by
  simp only [new]
  split_ifs <;> omega

theorem maxSize_add (h : q.add lessThan x = .ok q') : q'.maxSize = q.maxSize ∧ q'.size = q.size + 1 := by
  simp only [add] at h
  split at h
  · cases h
  · cases h
    exact ⟨rfl, rfl⟩

theorem Sound.add (h : Sound lessThan maxSize q E) (hless : StrictWeakOn lessThan fun _ => True)
    (hmax : maxSize < INT_MAX) (hsize : q.size < maxSize) (x : α) :
    ∃ q', q.add lessThan x = .ok q' ∧ Sound lessThan maxSize q' (x ::ₘ E) := by
  obtain ⟨q', hq', hholds⟩ := h.holds.add hless (h.heapSize_eq ▸ room hmax hsize)
  obtain ⟨hmaxSize, hsize'⟩ := maxSize_add hq'
  exact ⟨q', hq', hholds, hmaxSize.trans h.maxSize_eq, (heapSize_add hq').trans h.heapSize_eq, by omega⟩

theorem Sound.changeTop {top : α} (h : Sound lessThan maxSize q (top ::ₘ E)) (hless : StrictWeakOn lessThan fun _ => True)
    (htop : q.top = some top) (x : α) : Sound lessThan maxSize (q.changeTop lessThan x) (x ::ₘ E) := by
  obtain ⟨hholds, hsize, hheapSize⟩ := h.holds.changeTop hless htop x
  exact ⟨hholds, h.maxSize_eq, hheapSize.trans h.heapSize_eq, hsize ▸ h.size_le⟩

theorem Sound.pop (h : Sound lessThan maxSize q E) (hless : StrictWeakOn lessThan fun _ => True) (hne : E ≠ 0) :
    ∃ top rest q', E = top ::ₘ rest ∧ q.pop lessThan = (some top, q') ∧ Sound lessThan maxSize q' rest ∧
      ∀ y ∈ rest, lessThan y top = false := by
  obtain ⟨top, rest, q', hE, -, hpop, hholds, hheapSize, hleast⟩ := h.holds.pop hless hne
  have hmaxSize : (q.pop lessThan).2.maxSize = q.maxSize := by
    rw [PriorityQueue.pop]
    split <;> rfl
  rw [hpop] at hmaxSize
  have hcard := hholds.card
  have hcard' := h.holds.card
  have hle := h.size_le
  rw [hE, Multiset.card_cons] at hcard'
  exact ⟨top, rest, q', hE, hpop, ⟨hholds, hmaxSize.trans h.maxSize_eq, hheapSize.trans h.heapSize_eq, by omega⟩, hleast⟩

/-- An element is offered to a full queue: the lesser of it and the first one is dropped. -/
theorem Sound.addOverflow_full (h : Sound lessThan maxSize q E) (hless : StrictWeakOn lessThan fun _ => True)
    (hfull : ¬ q.size < maxSize) (x : α) :
    ∃ dropped q' E', q.addOverflow lessThan x = .ok (some dropped, q') ∧ Sound lessThan maxSize q' E' ∧
      dropped ::ₘ E' = x ::ₘ E ∧ ∀ y ∈ E', lessThan y dropped = false := by
  have hnot : ¬ q.size < q.maxSize := h.maxSize_eq ▸ hfull
  by_cases hpos : 0 < q.size
  · obtain ⟨top, rest, rfl, htop, hleast⟩ := h.holds.exists_top hless hpos
    have hslot : slotLess lessThan (some x) q.top = lessThan x top := by
      rw [htop]
      rfl
    by_cases hx : lessThan x top = false
    · refine ⟨top, q.changeTop lessThan x, x ::ₘ rest, ?_, h.changeTop hless htop x, Multiset.cons_swap top x rest, ?_⟩
      · rw [addOverflow, if_neg hnot, if_pos ⟨hpos, hslot.trans hx⟩, htop]
      · intro y hy
        rcases Multiset.mem_cons.mp hy with rfl | hy
        · exact hx
        · exact hleast y hy
    · refine ⟨x, q, top ::ₘ rest, ?_, h, rfl, fun y hy => ?_⟩
      · rw [addOverflow, if_neg hnot, if_neg fun hcond => hx (hslot.symm.trans hcond.2)]
      · have hafter := hless.asymm x top trivial trivial (Bool.eq_true_of_not_eq_false hx)
        rcases Multiset.mem_cons.mp hy with rfl | hy
        · exact hafter
        · exact hless.trans y top x trivial trivial trivial (hleast y hy) hafter
  · have hE : E = 0 := by
      rw [← Multiset.card_eq_zero, h.holds.card]
      omega
    subst hE
    refine ⟨x, q, 0, ?_, h, rfl, fun y hy => absurd hy (Multiset.notMem_zero y)⟩
    rw [addOverflow, if_neg hnot, if_neg fun hcond => hpos hcond.1]

theorem Sound.apply (h : Sound lessThan maxSize q E) (hless : StrictWeakOn lessThan fun _ => True)
    (hmax : maxSize < INT_MAX) (hop : q.Permits op) :
    ∃ result q' E', q.apply lessThan op = .ok (result, q') ∧ Sound lessThan maxSize q' E' ∧
      Effect lessThan maxSize op E result E' := by
  cases op with
  | add x =>
      have hsize : q.size < maxSize := h.maxSize_eq ▸ hop
      obtain ⟨q', hq', hsound⟩ := h.add hless hmax hsize x
      have hpos : 0 < q'.size := by
        rw [← hsound.holds.card, Multiset.card_cons]
        omega
      obtain ⟨top, hmem, htop, hleast⟩ := hsound.holds.top_least hless hpos
      refine ⟨some top, q', x ::ₘ E, ?_, hsound, .add hmem hleast⟩
      rw [PriorityQueue.apply, hq', ← htop]
      rfl
  | addOverflow x =>
      by_cases hsize : q.size < maxSize
      · obtain ⟨q', hq', hsound⟩ := h.add hless hmax hsize x
        refine ⟨none, q', x ::ₘ E, ?_, hsound, .room (h.holds.card ▸ hsize)⟩
        rw [PriorityQueue.apply, addOverflow, if_pos (h.maxSize_eq ▸ hsize), hq']
        rfl
      · obtain ⟨dropped, q', E', hq', hsound, hE, hleast⟩ := h.addOverflow_full hless hsize x
        have hcard := h.holds.card
        have hle := h.size_le
        exact ⟨some dropped, q', E', hq', hsound, .drop (by omega) hE hleast⟩
  | pop =>
      by_cases hE : E = 0
      · subst hE
        exact ⟨none, q, 0, congrArg Except.ok h.holds.pop_of_eq_zero, h, .popEmpty⟩
      · obtain ⟨top, rest, q', rfl, hpop, hsound, hleast⟩ := h.pop hless hE
        exact ⟨some top, q', rest, congrArg Except.ok hpop, hsound, .pop hleast⟩
  | changeTop x =>
      obtain ⟨top, rest, rfl, htop, hleast⟩ := h.holds.exists_top hless hop
      have hsound := h.changeTop hless htop x
      have hpos : 0 < (q.changeTop lessThan x).size := hop
      obtain ⟨top', hmem, htop', hleast'⟩ := hsound.holds.top_least hless hpos
      refine ⟨some top', _, x ::ₘ rest, ?_, hsound, .changeTop hleast hmem hleast'⟩
      rw [PriorityQueue.apply, htop']
  | clear =>
      exact ⟨none, q.clear, 0, rfl, ⟨holds_clear h.holds.beyond, h.maxSize_eq, h.heapSize_eq, Nat.zero_le _⟩, .clear⟩

/-! ### Runs -/

theorem Reachable.sound (h : Reachable lessThan maxSize q) (hless : StrictWeakOn lessThan fun _ => True)
    (hmax : maxSize < INT_MAX) : ∃ E, Sound lessThan maxSize q E := by
  induction h with
  | new => exact ⟨0, sound_new lessThan maxSize⟩
  | apply _ hop hq' ih =>
      obtain ⟨E, hsound⟩ := ih
      obtain ⟨result, q', E', happly, hsound', -⟩ := hsound.apply hless hmax hop
      rw [hq'] at happly
      cases happly
      exact ⟨E', hsound'⟩

theorem Sound.pops (h : Sound lessThan maxSize q E) (hless : StrictWeakOn lessThan fun _ => True) {n : Nat}
    (hn : E.card = n) :
    ∃ sorted : List α, q.pops lessThan n = sorted.map some ∧ (sorted : Multiset α) = E ∧
      sorted.Pairwise fun a b => lessThan b a = false := by
  induction n generalizing q E with
  | zero =>
      rw [Multiset.card_eq_zero] at hn
      exact ⟨[], rfl, hn.symm, .nil⟩
  | succ n ih =>
      have hne : E ≠ 0 := by
        rw [← Multiset.card_pos, hn]
        exact Nat.succ_pos n
      obtain ⟨top, rest, q', rfl, hpop, hsound, hleast⟩ := h.pop hless hne
      rw [Multiset.card_cons, Nat.add_right_cancel_iff] at hn
      obtain ⟨sorted, hsorted, rfl, hpairwise⟩ := ih hsound hn
      refine ⟨top :: sorted, ?_, rfl, List.pairwise_cons.mpr ⟨hleast, hpairwise⟩⟩
      rw [PriorityQueue.pops, hpop, hsorted, List.map_cons]

/-- What stays and what is dropped when elements are offered one after another. -/
structure Offered (lessThan : α → α → Bool) (maxSize : Nat) (E : Multiset α) (offered : List α)
    (results : List (Option α)) (kept : Multiset α) : Prop where
  length_eq : results.length = offered.length
  add_eq : kept + (results.filterMap id : List α) = E + offered
  card_eq : kept.card = min maxSize (E.card + offered.length)
  greatest : ∀ dropped ∈ results.filterMap id, ∀ y ∈ kept, lessThan y dropped = false

theorem Sound.offer (h : Sound lessThan maxSize q E) (hless : StrictWeakOn lessThan fun _ => True)
    (hmax : maxSize < INT_MAX) (offered : List α) :
    ∃ results q' kept, q.offer lessThan offered = .ok (results, q') ∧ Sound lessThan maxSize q' kept ∧
      Offered lessThan maxSize E offered results kept ∧
      (E.card = maxSize → ∀ a, (∀ y ∈ E, lessThan y a = false) → ∀ y ∈ kept, lessThan y a = false) := by
  induction offered generalizing q E with
  | nil =>
      have hcard := h.holds.card
      have hle := h.size_le
      refine ⟨[], q, E, rfl, h, ⟨rfl, rfl, ?_, fun dropped hdropped => ?_⟩, fun _ a ha => ha⟩
      · rw [List.length_nil, Nat.add_zero, min_eq_right]
        omega
      · cases hdropped
  | cons x offered ih =>
      have hcard := h.holds.card
      have hle := h.size_le
      by_cases hsize : q.size < maxSize
      · obtain ⟨q₁, hq₁, hsound₁⟩ := h.add hless hmax hsize x
        obtain ⟨results, q', kept, hoffer, hsound, hoffered, -⟩ := ih hsound₁
        refine ⟨none :: results, q', kept, ?_, hsound, ⟨?_, ?_, ?_, ?_⟩, fun hfull => by omega⟩
        · rw [PriorityQueue.offer, addOverflow, if_pos (h.maxSize_eq ▸ hsize), hq₁]
          simp only [Except.map, bind, Except.bind, hoffer]
          rfl
        · rw [List.length_cons, List.length_cons, hoffered.length_eq]
        · calc kept + ((none :: results).filterMap id : List α)
            _ = x ::ₘ E + offered := hoffered.add_eq
            _ = E + (x :: offered : List α) := by rw [Multiset.cons_add, ← Multiset.add_cons, Multiset.cons_coe]
        · rw [hoffered.card_eq, Multiset.card_cons, List.length_cons]
          congr 1
          omega
        · intro dropped hdropped
          exact hoffered.greatest dropped hdropped
      · obtain ⟨dropped, q₁, E₁, hq₁, hsound₁, hE, hleast⟩ := h.addOverflow_full hless hsize x
        obtain ⟨results, q', kept, hoffer, hsound, hoffered, hfloor⟩ := ih hsound₁
        have hcard₁ : E₁.card = E.card := by
          have hcards := congrArg Multiset.card hE
          rw [Multiset.card_cons, Multiset.card_cons] at hcards
          omega
        refine ⟨some dropped :: results, q', kept, ?_, hsound, ⟨?_, ?_, ?_, ?_⟩, fun hfull a ha => ?_⟩
        · rw [PriorityQueue.offer, hq₁]
          simp only [bind, Except.bind, hoffer]
          rfl
        · rw [List.length_cons, List.length_cons, hoffered.length_eq]
        · calc kept + ((some dropped :: results).filterMap id : List α)
            _ = dropped ::ₘ (kept + (results.filterMap id : List α)) := by
              rw [← Multiset.add_cons]
              rfl
            _ = (dropped ::ₘ E₁) + offered := by rw [hoffered.add_eq, Multiset.cons_add]
            _ = E + (x :: offered : List α) := by rw [hE, Multiset.cons_add, ← Multiset.add_cons, Multiset.cons_coe]
        · rw [hoffered.card_eq, hcard₁, List.length_cons]
          omega
        · intro a ha
          rcases List.mem_cons.mp ha with rfl | ha
          · exact hfloor (by omega) a hleast
          · exact hoffered.greatest a ha
        · -- what is dropped was offered now, or is not less than the bound
          refine hfloor (by omega) a fun y hy => ?_
          have hmem : dropped ∈ x ::ₘ E := hE ▸ Multiset.mem_cons_self dropped E₁
          rcases Multiset.mem_cons.mp hmem with rfl | hmem
          · rw [Multiset.cons_inj_right] at hE
            exact ha y (hE ▸ hy)
          · exact hless.trans y dropped a trivial trivial trivial (hleast y hy) (ha dropped hmem)

/-- What the queue is for, at one of its states. -/
structure KeepsBest (lessThan : α → α → Bool) (maxSize : Nat) (q : PriorityQueue α) (E : Multiset α) : Prop where
  heap : Holds lessThan q E
  card_le : E.card ≤ maxSize
  least : E ≠ 0 → ∃ top ∈ E, q.top = some top ∧ ∀ y ∈ E, lessThan y top = false
  operates : ∀ op, q.Permits op → ∃ result q' E', q.apply lessThan op = .ok (result, q') ∧ Holds lessThan q' E' ∧
    Effect lessThan maxSize op E result E'
  sorts : ∃ sorted : List α, q.pops lessThan E.card = sorted.map some ∧ (sorted : Multiset α) = E ∧
    sorted.Pairwise fun a b => lessThan b a = false
  overflows : ∀ offered : List α, ∃ results q' kept, q.offer lessThan offered = .ok (results, q') ∧
    Holds lessThan q' kept ∧ Offered lessThan maxSize E offered results kept

/-- Whatever is done with it, the queue is a heap of its elements and keeps the greatest that it is offered. -/
theorem keeps_best (hless : StrictWeakOn lessThan fun _ => True) (hmax : maxSize < 2 ^ 30)
    (h : Reachable lessThan maxSize q) : ∃ E, KeepsBest lessThan maxSize q E := by
  have hmax : maxSize < INT_MAX := hmax.trans (by decide)
  obtain ⟨E, hsound⟩ := h.sound hless hmax
  refine ⟨E, hsound.holds, hsound.holds.card.trans_le hsound.size_le, fun hne => ?_, fun op hop => ?_,
    hsound.pops hless rfl, fun offered => ?_⟩
  · refine hsound.holds.top_least hless ?_
    rw [← hsound.holds.card]
    exact Multiset.card_pos.mpr hne
  · obtain ⟨result, q', E', happly, hsound', heffect⟩ := hsound.apply hless hmax hop
    exact ⟨result, q', E', happly, hsound'.holds, heffect⟩
  · obtain ⟨results, q', kept, hoffer, hsound', hoffered, -⟩ := hsound.offer hless hmax offered
    exact ⟨results, q', kept, hoffer, hsound'.holds, hoffered⟩

theorem strictWeakOn_lt : StrictWeakOn (fun a b : Nat => decide (a < b)) fun _ => True where
  asymm x y _ _ h := by simp only [decide_eq_true_eq, decide_eq_false_iff_not] at h ⊢; omega
  trans x y z _ _ _ hxy hyz := by simp only [decide_eq_false_iff_not] at hxy hyz ⊢; omega

theorem keeps_best_two : ∃ E, KeepsBest (fun a b : Nat => decide (a < b)) 2 (new 2) E :=
  keeps_best strictWeakOn_lt (by decide) .new

theorem exists_reachable {n : Nat} (hless : StrictWeakOn lessThan fun _ => True) (hn : n < INT_MAX) (x : α) :
    ∃ q, Reachable lessThan INT_MAX q ∧ q.size = n ∧ q.maxSize = INT_MAX ∧ q.heapSize = INT_MAX ∧
      ∃ E, Holds lessThan q E := by
  induction n with
  | zero => exact ⟨new INT_MAX, .new, rfl, rfl, rfl, 0, holds_new lessThan INT_MAX⟩
  | succ n ih =>
      obtain ⟨q, hreachable, hsize, hmaxSize, hheapSize, E, hholds⟩ := ih (by omega)
      obtain ⟨q', hq', hholds'⟩ := @Holds.add _ _ _ _ x hholds hless (by omega)
      obtain ⟨hmaxSize', hsize'⟩ := maxSize_add hq'
      refine ⟨q', @Reachable.apply _ _ _ _ _ (.add x) q'.top hreachable ?_ ?_, by omega, by omega, ?_, x ::ₘ E, hholds'⟩
      · change q.size < q.maxSize
        omega
      · rw [PriorityQueue.apply, hq']
        rfl
      · rw [heapSize_add hq', hheapSize]

/-- The array of the largest queue has no slot for its last element. -/
theorem largest_raises : ∃ q : PriorityQueue Nat, Reachable (fun a b => decide (a < b)) INT_MAX q ∧
    q.size < q.maxSize ∧ (∃ q', q.addOverflow (fun a b => decide (a < b)) 0 = .error q') ∧
    ¬ ∃ E, KeepsBest (fun a b => decide (a < b)) INT_MAX q E := by
  obtain ⟨q, hreachable, hsize, hmaxSize, hheapSize, -⟩ :=
    exists_reachable strictWeakOn_lt (show INT_MAX - 1 < INT_MAX by decide) 0
  have hlt : q.size < q.maxSize := by
    rw [hsize, hmaxSize]
    decide
  have hadd : q.addOverflow (fun a b => decide (a < b)) 0 = .error { q with size := q.size + 1 } := by
    have hle : q.heapSize ≤ q.size + 1 := by
      rw [hsize, hheapSize]
      decide
    rw [addOverflow, if_pos hlt, add, if_pos hle]
    rfl
  refine ⟨q, hreachable, hlt, ⟨_, hadd⟩, ?_⟩
  rintro ⟨E, hbest⟩
  obtain ⟨result, q', E', happly, -, -⟩ := hbest.operates (.addOverflow 0) trivial
  rw [PriorityQueue.apply, hadd] at happly
  cases happly

theorem bounds_add (h : q.add lessThan x = .ok q') : q'.maxSize = q.maxSize ∧ q'.heapSize = q.heapSize :=
  ⟨(maxSize_add h).1, heapSize_add h⟩

theorem bounds_apply (h : q.apply lessThan op = .ok (result, q')) :
    q'.maxSize = q.maxSize ∧ q'.heapSize = q.heapSize := by
  cases op with
  | add x =>
      simp only [apply] at h
      cases hadd : q.add lessThan x with
      | error q => rw [hadd] at h; cases h
      | ok q =>
          rw [hadd] at h
          cases h
          exact bounds_add hadd
  | addOverflow x =>
      simp only [apply, addOverflow] at h
      split at h
      · cases hadd : q.add lessThan x with
        | error q => rw [hadd] at h; cases h
        | ok q =>
            rw [hadd] at h
            cases h
            exact bounds_add hadd
      · split at h <;> cases h <;> exact ⟨rfl, rfl⟩
  | pop =>
      simp only [apply, PriorityQueue.pop] at h
      split at h <;> cases h <;> exact ⟨rfl, rfl⟩
  | changeTop x => cases h; exact ⟨rfl, rfl⟩
  | clear => cases h; exact ⟨rfl, rfl⟩

theorem bounds_reachable (h : Reachable lessThan maxSize q) :
    q.maxSize = maxSize ∧ q.heapSize = (new maxSize : PriorityQueue α).heapSize := by
  induction h with
  | new => exact ⟨rfl, rfl⟩
  | apply _ _ hq' ih =>
      obtain ⟨hmaxSize, hheapSize⟩ := bounds_apply hq'
      exact ⟨hmaxSize.trans ih.1, hheapSize.trans ih.2⟩

/-- `add` raises, and the queue is as it was. -/
def LeavesIntact (lessThan : α → α → Bool) (q : PriorityQueue α) (type : α) : Prop :=
  ∃ q', q.add lessThan type = .error q' ∧ q'.size = q.size ∧ ∀ k, q'.heap k = q.heap k

/-- The size is counted up before it is compared with that of the array, which for no elements at all is too large. -/
theorem add_full_not_intact (h : Reachable lessThan maxSize q) (_hfull : q.size = q.maxSize) (type : α) :
    ¬ LeavesIntact lessThan q type := by
  rintro ⟨q', hadd, hsize, -⟩
  obtain ⟨hmaxSize, hheapSize⟩ := bounds_reachable h
  simp only [add] at hadd
  split at hadd
  · cases hadd
    have hsucc : q.size + 1 = q.size := hsize
    omega
  · cases hadd

theorem reachable_one : Reachable (fun a b : Nat => decide (a < b)) 1
    ⟨Function.update (fun _ => none) 1 (some 5), 2, 1, 1⟩ :=
  @Reachable.apply _ _ _ _ _ (.add 5) (some 5) .new (show 0 < 1 by decide) (by
    have hidem : Function.update (Function.update (fun _ : Nat => (none : Option Nat)) 1 (some 5)) 1 (some 5) =
      Function.update (fun _ => none) 1 (some 5) := Function.update_idem _ _ _
    rw [← hidem]
    rfl)

theorem add_full_not_intact_one : ¬ LeavesIntact (fun a b : Nat => decide (a < b))
    ⟨Function.update (fun _ => none) 1 (some 5), 2, 1, 1⟩ 7 :=
  add_full_not_intact reachable_one rfl 7

/-- The failed `add` is counted. -/
theorem failed_add_counted : ∃ q : PriorityQueue Nat, Reachable (fun a b => decide (a < b)) 1 q ∧
    q.size = q.maxSize ∧ (∃ q', q.add (fun a b => decide (a < b)) 7 = .error q' ∧ q'.size = 2) ∧
    ¬ LeavesIntact (fun a b => decide (a < b)) q 7 := by
  refine ⟨_, reachable_one, rfl, ⟨_, rfl, rfl⟩, ?_⟩
  rintro ⟨q', hadd, hsize, -⟩
  cases hadd
  cases hsize

end PriorityQueue
end LucenePlusPlus
