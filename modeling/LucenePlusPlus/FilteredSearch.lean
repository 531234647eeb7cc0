import LucenePlusPlus.DocIdSetIterator

/-!
Searching with a filter: `IndexSearcher::searchWithFilter`, the scorer of a `FilteredQuery`, and
`FilteredDocIdSetIterator`. A loop is given a number of rounds, and none is left when it has not come to an end by then.
-/

namespace LucenePlusPlus
namespace FilteredSearch
variable {σ τ : Type} (scorers : DocIdSetIterator σ) (filters : DocIdSetIterator τ)

/-- The loop, with the documents that are collected. -/
def collectLoop : Nat → σ → Int → τ → Int → Option (List Int)
  | 0, _, _, _, _ => none
  | rounds + 1, scorer, scorerDoc, filterIter, filterDoc =>
      if scorerDoc = filterDoc then
        -- whether the scorer has exhausted is checked only before collecting
        if scorerDoc = NO_MORE_DOCS then some []
        else
          let filterNext := filters.nextDoc filterIter
          let scorerNext := scorers.advance scorer filterNext.1
          (collectLoop rounds scorerNext.2 scorerNext.1 filterNext.2 filterNext.1).map (scorerDoc :: ·)
      else if scorerDoc > filterDoc then
        let filterNext := filters.advance filterIter scorerDoc
        collectLoop rounds scorer scorerDoc filterNext.2 filterNext.1
      else
        let scorerNext := scorers.advance scorer filterDoc
        collectLoop rounds scorerNext.2 scorerNext.1 filterIter filterDoc

/-- A scorer, a set and its iterator may be null. -/
def searchWithFilter (rounds : Nat) (scorer : Option σ) (filterDocIdSet : Option (Option τ)) : Option (List Int) :=
  match scorer, filterDocIdSet with
  | some scorer, some (some filterIter) =>
      let filterFirst := filters.nextDoc filterIter
      let scorerFirst := scorers.advance scorer filterFirst.1
      collectLoop scorers filters rounds scorerFirst.2 scorerFirst.1 filterFirst.2 filterFirst.1
  | _, _ => some []

structure FilteredQueryWeightScorer (σ τ : Type) where
  scorer : σ
  docIdSetIterator : τ
  doc : Int

/-- `FilteredQueryWeight::scorer` -/
def weightScorer (scorer : Option σ) (docIdSet : Option (Option τ)) : Option (FilteredQueryWeightScorer σ τ) :=
  match scorer, docIdSet with
  | some scorer, some (some docIdSetIterator) => some { scorer, docIdSetIterator, doc := -1 }
  | _, _ => none

def advanceToCommon : Nat → σ → Int → τ → Int → Option (Int × σ × τ)
  | 0, _, _, _, _ => none
  | rounds + 1, scorer, scorerDoc, docIdSetIterator, disiDoc =>
      if scorerDoc ≠ disiDoc then
        if scorerDoc < disiDoc then
          let scorerNext := scorers.advance scorer disiDoc
          advanceToCommon rounds scorerNext.2 scorerNext.1 docIdSetIterator disiDoc
        else
          let disiNext := filters.advance docIdSetIterator scorerDoc
          advanceToCommon rounds scorer scorerDoc disiNext.2 disiNext.1
      else some (scorerDoc, scorer, docIdSetIterator)

/-- What follows the first calls on the two: the scorer's `docID()` is the document that it has returned last. -/
def common (rounds : Nat) (disiFirst : Int × τ) (scorerFirst : Int × σ) : Option (FilteredQueryWeightScorer σ τ) :=
  if scorerFirst.1 ≠ NO_MORE_DOCS then
    (advanceToCommon scorers filters rounds scorerFirst.2 scorerFirst.1 disiFirst.2 disiFirst.1).map
      fun (doc, scorer, docIdSetIterator) =>
        { scorer, docIdSetIterator, doc := if doc ≠ NO_MORE_DOCS then doc else NO_MORE_DOCS }
  else some { scorer := scorerFirst.2, docIdSetIterator := disiFirst.2, doc := NO_MORE_DOCS }

namespace FilteredQueryWeightScorer

def nextDoc (rounds : Nat) (s : FilteredQueryWeightScorer σ τ) : Option (FilteredQueryWeightScorer σ τ) :=
  common scorers filters rounds (filters.nextDoc s.docIdSetIterator) (scorers.nextDoc s.scorer)

def advance (rounds : Nat) (s : FilteredQueryWeightScorer σ τ) (target : Int) :
    Option (FilteredQueryWeightScorer σ τ) :=
  common scorers filters rounds (filters.advance s.docIdSetIterator target) (scorers.advance s.scorer target)

/-- When a loop has no rounds left, the document stays the one before. -/
def iterator (rounds : Nat) : DocIdSetIterator (FilteredQueryWeightScorer σ τ) where
  nextDoc s := match s.nextDoc scorers filters rounds with
    | some next => (next.doc, next)
    | none => (s.doc, s)
  advance s target := match s.advance scorers filters rounds target with
    | some next => (next.doc, next)
    | none => (s.doc, s)

end FilteredQueryWeightScorer

structure FilteredDocIdSetIterator (τ : Type) where
  innerIter : τ
  doc : Int

namespace FilteredDocIdSetIterator
variable (accepts : Int → Bool)

/-- The iterator may be null. -/
def new (innerIter : Option τ) : Except String (FilteredDocIdSetIterator τ) :=
  match innerIter with
  | none => .error "null iterator"
  | some innerIter => .ok { innerIter, doc := -1 }

def nextDoc : Nat → FilteredDocIdSetIterator τ → Option (FilteredDocIdSetIterator τ)
  | 0, _ => none
  | rounds + 1, s =>
      let next := filters.nextDoc s.innerIter
      if next.1 ≠ NO_MORE_DOCS then
        if accepts next.1 then some { innerIter := next.2, doc := next.1 }
        else nextDoc rounds { innerIter := next.2, doc := next.1 }
      else some { innerIter := next.2, doc := next.1 }

def advance (rounds : Nat) (s : FilteredDocIdSetIterator τ) (target : Int) : Option (FilteredDocIdSetIterator τ) :=
  let next := filters.advance s.innerIter target
  if next.1 ≠ NO_MORE_DOCS then
    if accepts next.1 then some { innerIter := next.2, doc := next.1 }
    else nextDoc filters accepts rounds { innerIter := next.2, doc := next.1 }
  else some { innerIter := next.2, doc := next.1 }

/-- When a loop has no rounds left, the document stays the one before. -/
def iterator (rounds : Nat) : DocIdSetIterator (FilteredDocIdSetIterator τ) where
  nextDoc s := match s.nextDoc filters accepts rounds with
    | some next => (next.doc, next)
    | none => (s.doc, s)
  advance s target := match s.advance filters accepts rounds target with
    | some next => (next.doc, next)
    | none => (s.doc, s)

end FilteredDocIdSetIterator

end FilteredSearch
end LucenePlusPlus
