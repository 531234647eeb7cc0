import LucenePlusPlus.PriorityQueueRuns
import Mathlib.Data.List.Sort
import Mathlib.Data.Multiset.Bind

/-!
`MultipleTermPositions`: the documents of several terms as those of one. The enumerators of the terms are in a queue by
their documents, and the positions that they have in a document are put together in an `IntQueue`. The sizes of the queues
are not bounded here.
-/

namespace LucenePlusPlus

structure IntQueue where
  arraySize : Nat
  index : Nat
  lastIndex : Nat
  array : List Int

namespace IntQueue

def new : IntQueue := { arraySize := 16, index := 0, lastIndex := 0, array := List.replicate 16 0 }

def growArray (q : IntQueue) : IntQueue :=
  { q with array := q.array ++ List.replicate (q.arraySize * 2 - q.array.length) 0, arraySize := q.arraySize * 2 }

def add (q : IntQueue) (i : Int) : IntQueue :=
  let q := if q.lastIndex = q.arraySize then q.growArray else q
  { q with array := q.array.set q.lastIndex i, lastIndex := q.lastIndex + 1 }

def next (q : IntQueue) : Int × IntQueue := (q.array.getD q.index 0, { q with index := q.index + 1 })

/-- `std::sort` from `index` to `lastIndex`. -/
def sort (q : IntQueue) : IntQueue :=
  { q with array := q.array.take q.index ++ ((q.array.take q.lastIndex).drop q.index).insertionSort (· ≤ ·) ++
      q.array.drop q.lastIndex }

def clear (q : IntQueue) : IntQueue := { q with index := 0, lastIndex := 0 }

def size (q : IntQueue) : Nat := q.lastIndex - q.index

end IntQueue

/-- A document of a term, with its positions. -/
structure TermPosting where
  doc : Nat
  positions : List Int

/-- The enumerator of a term, at a document. -/
structure TermPositions where
  doc : Nat
  freq : Nat
  unread : List Int
  rest : List TermPosting

namespace TermPositions

/-- At the first of these, if there is one. -/
def first : List TermPosting → Option TermPositions
  | [] => none
  | posting :: rest => some { doc := posting.doc, freq := posting.positions.length, unread := posting.positions, rest }

def next (tp : TermPositions) : Option TermPositions := first tp.rest

/-- At the first one beyond the current whose number is greater than or equal to the target. -/
def skipTo (tp : TermPositions) (target : Int) : Option TermPositions :=
  first (tp.rest.dropWhile fun posting => decide ((posting.doc : Int) < target))

def nextPosition (tp : TermPositions) : Int × TermPositions := (tp.unread.headD 0, { tp with unread := tp.unread.tail })

def lessThan (first second : TermPositions) : Bool := decide (first.doc < second.doc)

end TermPositions

structure MultipleTermPositions where
  doc : Nat
  freq : Nat
  termPositionsQueue : PriorityQueue TermPositions
  posList : IntQueue

namespace MultipleTermPositions
open TermPositions (lessThan)

/-- `TermPositionsQueue::initialize`; the error is the `IndexOutOfBoundsException` of `add`. -/
def addAll : List (List TermPosting) → PriorityQueue TermPositions →
    Except (PriorityQueue TermPositions) (PriorityQueue TermPositions)
  | [], queue => .ok queue
  | postings :: terms, queue =>
      match TermPositions.first postings with
      | none => addAll terms queue
      | some tp => do addAll terms (← queue.add lessThan tp)

def new (terms : List (List TermPosting)) : Except (PriorityQueue TermPositions) MultipleTermPositions := do
  return { doc := 0, freq := 0, termPositionsQueue := ← addAll terms (.new terms.length), posList := .new }

/-- The positions of the enumerator, all in the queue. -/
def addPositions : Nat → TermPositions → IntQueue → TermPositions × IntQueue
  | 0, tp, posList => (tp, posList)
  | i + 1, tp, posList => addPositions i tp.nextPosition.2 (posList.add tp.nextPosition.1)

/-- The first enumerator goes on, or is taken out at its end. -/
def nextTop (queue : PriorityQueue TermPositions) (tp : TermPositions) : PriorityQueue TermPositions :=
  match tp.next with
  | some tp => queue.changeTop lessThan tp
  | none => (queue.pop lessThan).2

/-- The loop over the enumerators that are at the document. -/
def gather (doc : Nat) : Nat → PriorityQueue TermPositions → IntQueue → Option (PriorityQueue TermPositions × IntQueue)
  | 0, _, _ => none
  | rounds + 1, queue, posList =>
      match queue.top with
      | none => none
      | some tp =>
          let (tp, posList) := addPositions tp.freq tp posList
          let queue := nextTop queue tp
          if queue.empty = false ∧ (queue.top.map TermPositions.doc) = some doc then gather doc rounds queue posList
          else some (queue, posList)

/-- Whether there is a document, and the enumerator there. -/
def next (rounds : Nat) (m : MultipleTermPositions) : Option (Bool × MultipleTermPositions) :=
  if m.termPositionsQueue.empty then some (false, m)
  else do
    let posList := m.posList.clear
    let tp ← m.termPositionsQueue.top
    let (queue, posList) ← gather tp.doc rounds m.termPositionsQueue posList
    let posList := posList.sort
    return (true, { doc := tp.doc, freq := posList.size, termPositionsQueue := queue, posList })

def nextPosition (m : MultipleTermPositions) : Int × MultipleTermPositions :=
  (m.posList.next.1, { m with posList := m.posList.next.2 })

/-- The enumerator is put back into the queue, or closed at its end. -/
def putBack (queue : PriorityQueue TermPositions) :
    Option TermPositions → Except (PriorityQueue TermPositions) (PriorityQueue TermPositions)
  | some tp => queue.add lessThan tp
  | none => .ok queue

/-- The loop of `skipTo`. -/
def skip (target : Int) : Nat → PriorityQueue TermPositions → Option (PriorityQueue TermPositions)
  | 0, _ => none
  | rounds + 1, queue =>
      match queue.top with
      | none => some queue
      | some tp =>
          if target > tp.doc then
            match putBack (queue.pop lessThan).2 (tp.skipTo target) with
            | .ok queue => skip target rounds queue
            | .error _ => none
          else some queue

def skipTo (rounds : Nat) (m : MultipleTermPositions) (target : Int) : Option (Bool × MultipleTermPositions) := do
  let queue ← skip target rounds m.termPositionsQueue
  next rounds { m with termPositionsQueue := queue }

end MultipleTermPositions

namespace IntQueue
variable {q : IntQueue} {items : List Int}

/-- The numbers that are to come. -/
structure Holds (q : IntQueue) (items : List Int) : Prop where
  length_eq : q.array.length = q.arraySize
  pos : 0 < q.arraySize
  le : q.index ≤ q.lastIndex ∧ q.lastIndex ≤ q.arraySize
  items_eq : (q.array.take q.lastIndex).drop q.index = items

theorem holds_new : new.Holds [] := ⟨rfl, by decide, by decide, rfl⟩

theorem Holds.clear (h : q.Holds items) : q.clear.Holds [] := ⟨h.length_eq, h.pos, ⟨le_rfl, Nat.zero_le _⟩, rfl⟩

theorem Holds.size (h : q.Holds items) : q.size = items.length := by
  have hlength := h.length_eq
  have hle := h.le
  rw [← h.items_eq, IntQueue.size, List.length_drop, List.length_take]
  omega

theorem Holds.growArray (h : q.Holds items) : q.growArray.Holds items where
  length_eq := by
    rw [IntQueue.growArray, List.length_append, List.length_replicate]
    have hlength := h.length_eq
    dsimp only
    omega
  pos := Nat.mul_pos h.pos (by decide)
  le := ⟨h.le.1, h.le.2.trans (Nat.le_mul_of_pos_right _ (by decide))⟩
  items_eq := by
    rw [← h.items_eq, IntQueue.growArray, List.take_append_of_le_length (h.length_eq ▸ h.le.2)]

theorem Holds.add_of_lt (h : q.Holds items) (hlt : q.lastIndex < q.arraySize) (i : Int) :
    (⟨q.arraySize, q.index, q.lastIndex + 1, q.array.set q.lastIndex i⟩ : IntQueue).Holds (items ++ [i]) where
  length_eq := by rw [List.length_set, h.length_eq]
  pos := h.pos
  le := ⟨h.le.1.trans (Nat.le_succ _), hlt⟩
  items_eq := by
    have hlength := h.length_eq
    have hle := h.le
    have htake : q.index ≤ (q.array.take q.lastIndex).length := by
      rw [List.length_take]
      omega
    rw [← h.items_eq, List.take_add_one, List.take_set_of_le le_rfl,
      List.getElem?_set_self (by omega), Option.toList_some, List.drop_append_of_le_length htake]

theorem Holds.add (h : q.Holds items) (i : Int) : (q.add i).Holds (items ++ [i]) := by
  rw [IntQueue.add]
  split
  case isTrue hfull =>
    refine h.growArray.add_of_lt ?_ i
    have hpos := h.pos
    rw [IntQueue.growArray]
    dsimp only
    omega
  case isFalse hroom => exact h.add_of_lt (lt_of_le_of_ne h.le.2 hroom) i

theorem Holds.next {i : Int} (h : q.Holds (i :: items)) : q.next.1 = i ∧ q.next.2.Holds items := by
  have hitems := h.items_eq
  have hsize := h.size
  have hlength := h.length_eq
  have hle := h.le
  rw [IntQueue.size, List.length_cons] at hsize
  have hindex : q.index < q.array.length := by omega
  rw [List.drop_eq_getElem_cons (by rw [List.length_take]; omega), List.getElem_take] at hitems
  obtain ⟨hhead, htail⟩ := List.cons.inj hitems
  refine ⟨?_, hlength, h.pos, ⟨?_, hle.2⟩, htail⟩
  · rw [IntQueue.next, ← hhead, List.getD_eq_getElem?_getD, List.getElem?_eq_getElem hindex]
    rfl
  · rw [IntQueue.next]
    dsimp only
    omega

theorem Holds.sort (h : q.Holds items) : q.sort.Holds (items.insertionSort (· ≤ ·)) := by
  have hlength := h.length_eq
  have hle := h.le
  have hsize := h.size
  rw [IntQueue.size] at hsize
  have htake : (q.array.take q.index).length = q.index := by
    rw [List.length_take]
    omega
  have hsorted : (items.insertionSort (· ≤ ·)).length = q.lastIndex - q.index := by
    rw [List.length_insertionSort, hsize]
  rw [IntQueue.sort, h.items_eq]
  refine ⟨?_, h.pos, hle, ?_⟩
  · rw [List.length_append, List.length_append, htake, hsorted, List.length_drop]
    dsimp only
    omega
  · dsimp only
    rw [List.take_left' (by rw [List.length_append, htake, hsorted]; omega), List.drop_left' htake]

end IntQueue
end LucenePlusPlus
