import LucenePlusPlus.FieldValueHitQueue
import LucenePlusPlus.RankedQueue
import Mathlib.Data.List.MinMax

/-!
`TopFieldCollector`: the first hits in the order of the sort fields.
-/

namespace LucenePlusPlus
open Ranking

/-- What is done with scores: they are not computed, or kept with the hits, or the greatest is found too. -/
inductive Scoring where
  | nonScoring
  | scoringNoMaxScore
  | scoringMaxScore
  deriving DecidableEq

/-- The score of an entry, which is not a number if there are no scores. -/
def Scoring.entryScore {S : Type} (scoring : Scoring) (score : S) : Option S :=
  match scoring with
  | .nonScoring => none
  | _ => some score

structure TopFieldCollector (ρ V S : Type) where
  /-- its first element is `bottom` -/
  pq : PriorityQueue (FieldValueHitQueueEntry S)
  comparators : List (SortingComparator ρ V)
  numHits : Nat
  fillFields : Bool
  /-- none if it is not a number -/
  maxScore : Option (WithBot S)
  queueFull : Bool
  docBase : Nat
  totalHits : Nat

/-- `maxScore` is none where it is not a number. A null pointer in the array is none. -/
structure TopFieldDocs (V S : Type) where
  totalHits : Nat
  scoreDocs : List (Option (FieldDoc V S))
  maxScore : Option (WithBot S)
  deriving DecidableEq

section Collectors
variable {ρ V S : Type} [LinearOrder S]

namespace TopFieldCollector

def new (fields : List (SortField ρ V)) (numHits : Nat) (fillFields : Bool) (scoring : Scoring) :
    TopFieldCollector ρ V S where
  pq := .new numHits
  comparators := fields.map (.new numHits)
  numHits := numHits
  fillFields := fillFields
  maxScore := if scoring = .scoringMaxScore then some ⊥ else none
  queueFull := false
  docBase := 0
  totalHits := 0

variable (c : TopFieldCollector ρ V S)

def setNextReader (reader : ρ) (docBase : Nat) : TopFieldCollector ρ V S :=
  { c with docBase := docBase, comparators := c.comparators.map fun comparator => comparator.setNextReader reader docBase }

/-- A document is copied to a slot of all comparators. -/
def copy (slot doc : Nat) : TopFieldCollector ρ V S :=
  { c with comparators := c.comparators.map fun comparator => comparator.copy slot doc }

/-- The slot of the first element is the bottom of all comparators. -/
def setBottom : TopFieldCollector ρ V S :=
  match c.pq.top with
  | none => c
  | some bottom => { c with comparators := c.comparators.map fun comparator => comparator.setBottom bottom.slot }

/-- It is none if the queue raises an exception. -/
def add (slot doc : Nat) (score : Option S) : Option (TopFieldCollector ρ V S) :=
  match c.pq.add (FieldValueHitQueue.lessThan c.comparators) ⟨slot, c.docBase + doc, score⟩ with
  | .error _ => none
  | .ok pq => some { c with pq := pq, queueFull := c.totalHits = c.numHits }

/-- Without scores, the one of the bottom is not a number already. -/
def updateBottom (scoring : Scoring) (bottom : FieldValueHitQueueEntry S) (doc : Nat) (score : S) :
    TopFieldCollector ρ V S :=
  let entry : FieldValueHitQueueEntry S :=
    ⟨bottom.slot, c.docBase + doc, if scoring = .nonScoring then bottom.score else some score⟩
  { c with pq := c.pq.changeTop (FieldValueHitQueue.lessThan c.comparators) entry }

/-- `score > maxScore` is false if `maxScore` is not a number. -/
def trackMaxScore (scoring : Scoring) (score : S) : TopFieldCollector ρ V S :=
  if scoring = .scoringMaxScore then
    match c.maxScore with
    | none => c
    | some maxScore => { c with maxScore := some (if maxScore < score then score else maxScore) }
  else c

/-- Says of a document whether it comes before the bottom: the comparators, the document of the bottom, `docBase`,
and the document in the current reader. -/
abbrev Competitive (ρ V : Type) := List (SortingComparator ρ V) → Nat → Nat → Nat → Bool

/-- What all `collect` do. -/
def collectWith (scoring : Scoring) (competitive : Competitive ρ V) (doc : Nat) (score : S) :
    Option (TopFieldCollector ρ V S) :=
  let c := c.trackMaxScore scoring score
  let c := { c with totalHits := c.totalHits + 1 }
  if c.queueFull then
    match c.pq.top with
    | none => none
    | some bottom =>
        if competitive c.comparators bottom.doc c.docBase doc then
          some (((c.copy bottom.slot doc).updateBottom scoring bottom doc score).setBottom)
        else some c
  else
    let slot := c.totalHits - 1
    match (c.copy slot doc).add slot doc (scoring.entryScore score) with
    | none => none
    | some c => some (if c.queueFull then c.setBottom else c)

end TopFieldCollector

/-- `(reverseMul * comparator->compareBottom(doc)) <= 0` returns. There is a comparator. -/
def OneComparatorNonScoringCollector.competitive : TopFieldCollector.Competitive ρ V
  | [], _, _, _ => false
  | comparator :: _, _, _, doc => ¬ comparator.compareBottom doc ≤ 0

def OutOfOrderOneComparatorNonScoringCollector.competitive : TopFieldCollector.Competitive ρ V
  | [], _, _, _ => false
  | comparator :: _, bottomDoc, docBase, doc =>
      let cmp := comparator.compareBottom doc
      ¬ (cmp < 0 ∨ cmp = 0 ∧ bottomDoc < doc + docBase)

/-- The loop over the comparators, of which there is one: equal by the last one, a document is not competitive. -/
def MultiComparatorNonScoringCollector.competitive : TopFieldCollector.Competitive ρ V
  | [], _, _, _ => false
  | comparator :: rest, bottomDoc, docBase, doc =>
      let c := comparator.compareBottom doc
      if c < 0 then false
      else if 0 < c then true
      else if rest.isEmpty then false
      else MultiComparatorNonScoringCollector.competitive rest bottomDoc docBase doc

def OutOfOrderMultiComparatorNonScoringCollector.competitive : TopFieldCollector.Competitive ρ V
  | [], _, _, _ => false
  | comparator :: rest, bottomDoc, docBase, doc =>
      let c := comparator.compareBottom doc
      if c < 0 then false
      else if 0 < c then true
      else if rest.isEmpty then ¬ bottomDoc < doc + docBase
      else OutOfOrderMultiComparatorNonScoringCollector.competitive rest bottomDoc docBase doc

section Collect
variable (c : TopFieldCollector ρ V S) (doc : Nat) (score : S)

def OneComparatorNonScoringCollector.collect : Option (TopFieldCollector ρ V S) :=
  c.collectWith .nonScoring OneComparatorNonScoringCollector.competitive doc score

def OutOfOrderOneComparatorNonScoringCollector.collect : Option (TopFieldCollector ρ V S) :=
  c.collectWith .nonScoring OutOfOrderOneComparatorNonScoringCollector.competitive doc score

def OneComparatorScoringNoMaxScoreCollector.collect : Option (TopFieldCollector ρ V S) :=
  c.collectWith .scoringNoMaxScore OneComparatorNonScoringCollector.competitive doc score

def OutOfOrderOneComparatorScoringNoMaxScoreCollector.collect : Option (TopFieldCollector ρ V S) :=
  c.collectWith .scoringNoMaxScore OutOfOrderOneComparatorNonScoringCollector.competitive doc score

def OneComparatorScoringMaxScoreCollector.collect : Option (TopFieldCollector ρ V S) :=
  c.collectWith .scoringMaxScore OneComparatorNonScoringCollector.competitive doc score

def OutOfOrderOneComparatorScoringMaxScoreCollector.collect : Option (TopFieldCollector ρ V S) :=
  c.collectWith .scoringMaxScore OutOfOrderOneComparatorNonScoringCollector.competitive doc score

def MultiComparatorNonScoringCollector.collect : Option (TopFieldCollector ρ V S) :=
  c.collectWith .nonScoring MultiComparatorNonScoringCollector.competitive doc score

def OutOfOrderMultiComparatorNonScoringCollector.collect : Option (TopFieldCollector ρ V S) :=
  c.collectWith .nonScoring OutOfOrderMultiComparatorNonScoringCollector.competitive doc score

def MultiComparatorScoringMaxScoreCollector.collect : Option (TopFieldCollector ρ V S) :=
  c.collectWith .scoringMaxScore MultiComparatorNonScoringCollector.competitive doc score

def OutOfOrderMultiComparatorScoringMaxScoreCollector.collect : Option (TopFieldCollector ρ V S) :=
  c.collectWith .scoringMaxScore OutOfOrderMultiComparatorNonScoringCollector.competitive doc score

def MultiComparatorScoringNoMaxScoreCollector.collect : Option (TopFieldCollector ρ V S) :=
  c.collectWith .scoringNoMaxScore MultiComparatorNonScoringCollector.competitive doc score

def OutOfOrderMultiComparatorScoringNoMaxScoreCollector.collect : Option (TopFieldCollector ρ V S) :=
  c.collectWith .scoringNoMaxScore OutOfOrderMultiComparatorNonScoringCollector.competitive doc score

end Collect

/-- A collector, with the `collect` of its class. -/
structure CollectorObject (ρ V S : Type) where
  collect : TopFieldCollector ρ V S → Nat → S → Option (TopFieldCollector ρ V S)
  collector : TopFieldCollector ρ V S

/-- It is none if there are no fields: an `IllegalArgumentException` is thrown. -/
def TopFieldCollector.create (fields : List (SortField ρ V)) (numHits : Nat)
    (fillFields trackDocScores trackMaxScore docsScoredInOrder : Bool) : Option (CollectorObject ρ V S) :=
  if fields.isEmpty then none
  else if fields.length = 1 then
    if docsScoredInOrder then
      if trackMaxScore then
        some ⟨OneComparatorScoringMaxScoreCollector.collect, .new fields numHits fillFields .scoringMaxScore⟩
      else if trackDocScores then
        some ⟨OneComparatorScoringNoMaxScoreCollector.collect, .new fields numHits fillFields .scoringNoMaxScore⟩
      else some ⟨OneComparatorNonScoringCollector.collect, .new fields numHits fillFields .nonScoring⟩
    else if trackMaxScore then
      some ⟨OutOfOrderOneComparatorScoringMaxScoreCollector.collect, .new fields numHits fillFields .scoringMaxScore⟩
    else if trackDocScores then
      some ⟨OutOfOrderOneComparatorScoringNoMaxScoreCollector.collect,
        .new fields numHits fillFields .scoringNoMaxScore⟩
    else some ⟨OutOfOrderOneComparatorNonScoringCollector.collect, .new fields numHits fillFields .nonScoring⟩
  else if docsScoredInOrder then
    if trackMaxScore then
      some ⟨MultiComparatorScoringMaxScoreCollector.collect, .new fields numHits fillFields .scoringMaxScore⟩
    else if trackDocScores then
      some ⟨MultiComparatorScoringNoMaxScoreCollector.collect, .new fields numHits fillFields .scoringNoMaxScore⟩
    else some ⟨MultiComparatorNonScoringCollector.collect, .new fields numHits fillFields .nonScoring⟩
  else if trackMaxScore then
    some ⟨OutOfOrderMultiComparatorScoringMaxScoreCollector.collect, .new fields numHits fillFields .scoringMaxScore⟩
  else if trackDocScores then
    some ⟨OutOfOrderMultiComparatorScoringNoMaxScoreCollector.collect,
      .new fields numHits fillFields .scoringNoMaxScore⟩
  else some ⟨OutOfOrderMultiComparatorNonScoringCollector.collect, .new fields numHits fillFields .nonScoring⟩

namespace TopFieldCollector
variable (c : TopFieldCollector ρ V S)

/-- The last elements of the queue, from the array's end on. -/
def populateResults (pq : PriorityQueue (FieldValueHitQueueEntry S)) (howMany : Nat) : List (Option (FieldDoc V S)) :=
  let popped := (pq.popInto (FieldValueHitQueue.lessThan c.comparators) howMany).1
  if c.fillFields then popped.map (Option.map (FieldValueHitQueue.fillFields c.comparators))
  else popped.map (Option.map fun entry => ⟨entry.doc, entry.score, none⟩)

/-- Results that are a null pointer are none. -/
def newTopDocs (results : Option (List (Option (FieldDoc V S)))) : TopFieldDocs V S :=
  match results with
  | none => ⟨c.totalHits, [], none⟩
  | some results => ⟨c.totalHits, results, c.maxScore⟩

/-- `topDocs(start, howMany)` -/
def topDocsRange (start howMany : Int) : TopFieldDocs V S :=
  let size := if c.totalHits < c.pq.size then c.totalHits else c.pq.size
  if start < 0 ∨ size ≤ start ∨ howMany ≤ 0 then c.newTopDocs none
  else
    let howMany := min (size - start) howMany
    let pq := c.pq.discard (FieldValueHitQueue.lessThan c.comparators) (c.pq.size - start - howMany).toNat
    c.newTopDocs (some (c.populateResults pq howMany.toNat))

/-- `topDocs()` -/
def topDocs : TopFieldDocs V S :=
  c.topDocsRange 0 (if c.totalHits < c.pq.size then c.totalHits else c.pq.size : Nat)

end TopFieldCollector

/-- A segment with the hits in it, in the order they are collected in. -/
structure SearchedSegment (ρ : Type) extends IndexSegment ρ where
  hits : List (Fin maxDoc)

/-- The hits with their documents in the index. -/
def SearchedSegment.docs (segment : SearchedSegment ρ) : List Nat :=
  segment.hits.map fun hit => segment.docBase + hit.val

/-- All hits of a search. -/
def docsOf (searched : List (SearchedSegment ρ)) : List Nat := searched.flatMap SearchedSegment.docs

/-- The hits of a segment are collected. -/
def CollectorObject.searchSegment (score : Nat → S) (object : CollectorObject ρ V S) (c : TopFieldCollector ρ V S)
    (segment : SearchedSegment ρ) : Option (TopFieldCollector ρ V S) :=
  segment.hits.foldlM (fun c hit => object.collect c hit.val (score (segment.docBase + hit.val)))
    (c.setNextReader segment.reader segment.docBase)

def CollectorObject.search (score : Nat → S) (searched : List (SearchedSegment ρ)) (object : CollectorObject ρ V S) :
    Option (TopFieldCollector ρ V S) :=
  searched.foldlM (object.searchSegment score) object.collector

end Collectors

end LucenePlusPlus
