import LucenePlusPlus.ArrayHeap
import LucenePlusPlus.DocIdSetIterator
import Mathlib.Algebra.Order.Ring.Rat

/-!
`DisjunctionMaxScorer`: the documents of some scorers, each with the best of its scores and a part of the others. The
scorers that are not exhausted are kept in a heap by the document that they are on. Its places are not bounded here.
-/

namespace LucenePlusPlus
open ArrayHeap

/-- A scorer of a clause: the document that it is on and those that follow, with their scores. -/
@[ext] structure SubScorer where
  postings : List (Nat × ℚ)
  sorted : (postings.map Prod.fst).Pairwise (· < ·)
  below : ∀ posting ∈ postings, (posting.1 : Int) < NO_MORE_DOCS

namespace SubScorer

def docID (sub : SubScorer) : Int := match sub.postings with
  | [] => NO_MORE_DOCS
  | (doc, _) :: _ => doc

def score (sub : SubScorer) : ℚ := match sub.postings with
  | [] => 0
  | (_, score) :: _ => score

def nextDoc (sub : SubScorer) : SubScorer where
  postings := sub.postings.tail
  sorted := by
    rw [List.map_tail]
    exact sub.sorted.tail
  below posting hmem := sub.below posting (List.mem_of_mem_tail hmem)

/-- The target is behind the document that the scorer is on. -/
def advance (sub : SubScorer) (target : Int) : SubScorer where
  postings := sub.postings.dropWhile fun posting => (posting.1 : Int) < target
  sorted := sub.sorted.sublist ((List.dropWhile_sublist _).map _)
  below posting hmem := sub.below posting ((List.dropWhile_sublist _).subset hmem)

theorem postings_nextDoc (sub : SubScorer) : sub.nextDoc.postings = sub.postings.tail := rfl

theorem postings_advance (sub : SubScorer) (target : Int) :
    (sub.advance target).postings = sub.postings.dropWhile fun posting => (posting.1 : Int) < target := rfl

end SubScorer

structure DisjunctionMaxScorer where
  /-- those from `numScorers` on are null -/
  subScorers : Nat → SubScorer
  numScorers : Nat
  tieBreakerMultiplier : ℚ
  doc : Int

namespace DisjunctionMaxScorer

/-- The loop of `heapAdjust`, with the scorer that is put in its place. Rounds bound the steps down. -/
def adjustFrom (numScorers : Nat) (scorer : SubScorer) : Nat → (Nat → SubScorer) → Nat → Nat → SubScorer
  | 0, subScorers, _ => subScorers
  | rounds + 1, subScorers, i =>
      if i + 1 ≤ numScorers / 2 then
        let ldoc := (subScorers (2 * i + 1)).docID
        let rdoc := if 2 * i + 2 < numScorers then (subScorers (2 * i + 2)).docID else INT_MAX
        if ldoc < scorer.docID then
          if rdoc < ldoc then
            adjustFrom numScorers scorer rounds
              (Function.update (Function.update subScorers i (subScorers (2 * i + 2))) (2 * i + 2) scorer) (2 * i + 2)
          else
            adjustFrom numScorers scorer rounds
              (Function.update (Function.update subScorers i (subScorers (2 * i + 1))) (2 * i + 1) scorer) (2 * i + 1)
        else if rdoc < scorer.docID then
          adjustFrom numScorers scorer rounds
            (Function.update (Function.update subScorers i (subScorers (2 * i + 2))) (2 * i + 2) scorer) (2 * i + 2)
        else subScorers
      else subScorers

variable (s : DisjunctionMaxScorer)

def heapAdjust (root : Nat) : DisjunctionMaxScorer :=
  { s with subScorers := adjustFrom s.numScorers (s.subScorers root) s.numScorers s.subScorers root }

def heapifyFrom : Nat → DisjunctionMaxScorer → DisjunctionMaxScorer
  | 0, s => s
  | i + 1, s => heapifyFrom i (s.heapAdjust i)

def heapify : DisjunctionMaxScorer := heapifyFrom (s.numScorers / 2) s

def heapRemoveRoot : DisjunctionMaxScorer :=
  if s.numScorers = 1 then { s with numScorers := 0 }
  else
    heapAdjust { s with
      subScorers := Function.update s.subScorers 0 (s.subScorers (s.numScorers - 1))
      numScorers := s.numScorers - 1 } 0

/-- The loop of `nextDoc` and `advance`: as long as the first scorer is `behind`, it is moved. Each scorer is moved once at
most. -/
def moveRoots (behind : Int → Bool) (move : SubScorer → SubScorer) :
    Nat → DisjunctionMaxScorer → DisjunctionMaxScorer
  | 0, s => s
  | rounds + 1, s =>
      if behind (s.subScorers 0).docID then
        let moved := { s with subScorers := Function.update s.subScorers 0 (move (s.subScorers 0)) }
        if (move (s.subScorers 0)).docID ≠ NO_MORE_DOCS then moveRoots behind move rounds (moved.heapAdjust 0)
        else if moved.heapRemoveRoot.numScorers = 0 then { moved.heapRemoveRoot with doc := NO_MORE_DOCS }
        else moveRoots behind move rounds moved.heapRemoveRoot
      else { s with doc := (s.subScorers 0).docID }

def nextDoc : DisjunctionMaxScorer :=
  if s.numScorers = 0 then { s with doc := NO_MORE_DOCS }
  else moveRoots (fun docID => docID = s.doc) SubScorer.nextDoc (s.numScorers + 1) s

def advance (target : Int) : DisjunctionMaxScorer :=
  if s.numScorers = 0 then { s with doc := NO_MORE_DOCS }
  else moveRoots (fun docID => docID < target) (fun sub => sub.advance target) (s.numScorers + 1) s

/-- The sum and the maximum. -/
def scoreAll (size : Nat) (doc : Int) : Nat → Nat → ℚ × ℚ → ℚ × ℚ
  | 0, _, acc => acc
  | depth + 1, root, (sum, max) =>
      if root < size ∧ (s.subScorers root).docID = doc then
        let sub := (s.subScorers root).score
        scoreAll size doc depth (2 * root + 2)
          (scoreAll size doc depth (2 * root + 1) (sum + sub, Max.max max sub))
      else (sum, max)

def score : ℚ :=
  let doc := (s.subScorers 0).docID
  let first := (s.subScorers 0).score
  let (sum, max) := s.scoreAll s.numScorers doc s.numScorers 2
    (s.scoreAll s.numScorers doc s.numScorers 1 (first, first))
  max + (sum - max) * s.tieBreakerMultiplier

/-- The sub-scorers are on their first documents. -/
def new (tieBreakerMultiplier : ℚ) (first : SubScorer) (others : List SubScorer) : DisjunctionMaxScorer :=
  heapify {
    subScorers := fun i => (first :: others).getD i first
    numScorers := others.length + 1
    tieBreakerMultiplier
    doc := -1 }

/-- `DisjunctionMaxWeight::scorer`: only the scorers that have documents are taken. -/
def scorer (tieBreakerMultiplier : ℚ) (subScorers : List SubScorer) : Option DisjunctionMaxScorer :=
  match subScorers.filter fun sub => sub.docID ≠ NO_MORE_DOCS with
  | [] => none
  | first :: others => some (new tieBreakerMultiplier first others)

/-- Calls with the document they return. -/
def iterator : DocIdSetIterator DisjunctionMaxScorer where
  nextDoc s := (s.nextDoc.doc, s.nextDoc)
  advance s target := ((s.advance target).doc, s.advance target)

end DisjunctionMaxScorer
end LucenePlusPlus
