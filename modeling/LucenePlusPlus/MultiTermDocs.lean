import LucenePlusPlus.PostingsUnion

/-!
`MultiTermDocs` and `MultiTermPositions`, over the enumerators of the sub-readers: `SegmentTermDocs` and
`SegmentTermPositions` for a term, and `AllTermDocs` for the null term. What an enumerator of a term has of the freq
stream is the list of the postings that are left, and how many of them the skip list passes is any number that stays
before the target.
-/

namespace LucenePlusPlus
open PostingsMerge (Reader)

/-- What an enumerator is at; the positions are those that `nextPosition` reads there. -/
structure TermDoc where
  doc : Int
  freq : Nat
  positions : List (Int × Payload)
  deriving DecidableEq

def TermDoc.shift (base : Int) (entry : TermDoc) : TermDoc := { entry with doc := base + entry.doc }

/-- How many postings are passed, when those are left, and `skipTo` has been called with these targets before. -/
structure SkipList where
  passes : List Posting → List Int → Int → Nat
  before : ∀ (rest : List Posting) (targets : List Int) (target : Int),
    ∀ posting ∈ rest.take (passes rest targets target), (posting.doc : Int) < target

/-- `positions` says that it is a `SegmentTermPositions`. -/
structure SegmentTermDocs where
  positions : Bool
  currentFieldOmitTermFreqAndPositions : Bool
  isDeleted : Nat → Bool
  skipList : SkipList
  targets : List Int
  rest : List Posting

namespace SegmentTermDocs

def entry (docs : SegmentTermDocs) (posting : Posting) : TermDoc where
  doc := posting.doc
  freq := if docs.currentFieldOmitTermFreqAndPositions then 1 else posting.positions.length
  positions := if docs.positions then posting.positions else []

/-- `next` until the document is not before the target, past the deleted ones. -/
def scan (isDeleted : Nat → Bool) (behind : Nat → Bool) : List Posting → Option Posting × List Posting
  | [] => (none, [])
  | posting :: rest =>
      if isDeleted posting.doc || behind posting.doc then scan isDeleted behind rest else (some posting, rest)

def next (docs : SegmentTermDocs) : Option TermDoc × SegmentTermDocs :=
  let (posting, rest) := scan docs.isDeleted (fun _ => false) docs.rest
  (posting.map docs.entry, { docs with rest := rest })

def skipTo (docs : SegmentTermDocs) (target : Int) : Option TermDoc × SegmentTermDocs :=
  let left := docs.rest.drop (docs.skipList.passes docs.rest docs.targets target)
  let (posting, rest) := scan docs.isDeleted (fun doc => target > doc) left
  (posting.map docs.entry, { docs with rest := rest, targets := docs.targets ++ [target] })

/-- At most `length` documents. -/
def readLive (isDeleted : Nat → Bool) : Nat → List Posting → List Posting × List Posting
  | _, [] => ([], [])
  | 0, rest => ([], rest)
  | length + 1, posting :: rest =>
      if isDeleted posting.doc then readLive isDeleted (length + 1) rest
      else
        let (got, rest) := readLive isDeleted length rest
        (posting :: got, rest)

/-- There is none where several documents cannot be read in one call. -/
def read (docs : SegmentTermDocs) (length : Nat) : Option (List TermDoc × SegmentTermDocs) :=
  if docs.positions then none
  else
    let (got, rest) := readLive docs.isDeleted length docs.rest
    some (got.map docs.entry, { docs with rest := rest })

end SegmentTermDocs

/-- `isDeleted` also answers for numbers before the first document. -/
structure AbstractAllTermDocs where
  maxDoc : Nat
  isDeleted : Int → Bool
  doc : Int

namespace AbstractAllTermDocs

def entry (doc : Int) : TermDoc := ⟨doc, 1, []⟩

/-- The loop of `skipTo`, from `doc` on, with fuel for the documents that are left. -/
def skipLoop (maxDoc : Nat) (isDeleted : Int → Bool) : Nat → Int → Bool × Int
  | 0, doc => (false, doc)
  | fuel + 1, doc =>
      if doc < maxDoc then if isDeleted doc then skipLoop maxDoc isDeleted fuel (doc + 1) else (true, doc)
      else (false, doc)

def skipTo (docs : AbstractAllTermDocs) (target : Int) : Option TermDoc × AbstractAllTermDocs :=
  let (found, doc) := skipLoop docs.maxDoc docs.isDeleted (docs.maxDoc - target).toNat target
  (if found then some (entry doc) else none, { docs with doc := doc })

def next (docs : AbstractAllTermDocs) : Option TermDoc × AbstractAllTermDocs := docs.skipTo (docs.doc + 1)

def readLoop (maxDoc : Nat) (isDeleted : Int → Bool) : Nat → Nat → Int → List Int × Int
  | 0, _, doc => ([], doc)
  | fuel + 1, length, doc =>
      if 0 < length ∧ doc < maxDoc then
        if isDeleted doc then readLoop maxDoc isDeleted fuel length (doc + 1)
        else
          let (got, last) := readLoop maxDoc isDeleted fuel (length - 1) (doc + 1)
          (doc :: got, last)
      else ([], doc)

/-- It begins at the current document. -/
def read (docs : AbstractAllTermDocs) (length : Nat) : List TermDoc × AbstractAllTermDocs :=
  let (got, doc) := readLoop docs.maxDoc docs.isDeleted (docs.maxDoc - docs.doc).toNat length docs.doc
  (got.map entry, { docs with doc := doc })

end AbstractAllTermDocs

inductive TermDocs where
  | segment (docs : SegmentTermDocs)
  | all (docs : AbstractAllTermDocs)

namespace TermDocs

def next : TermDocs → Option TermDoc × TermDocs
  | segment docs => (docs.next.1, segment docs.next.2)
  | all docs => (docs.next.1, all docs.next.2)

def skipTo (target : Int) : TermDocs → Option TermDoc × TermDocs
  | segment docs => ((docs.skipTo target).1, segment (docs.skipTo target).2)
  | all docs => ((docs.skipTo target).1, all (docs.skipTo target).2)

def read (length : Nat) : TermDocs → Option (List TermDoc × TermDocs)
  | segment docs => (docs.read length).map fun read => (read.1, segment read.2)
  | all docs => some ((docs.read length).1, all (docs.read length).2)

end TermDocs

/-- `MultiTermDocs`, at a term or at the null term, and `MultiTermPositions`, which has no null term. -/
inductive Seek where
  | docs (term : Option Term)
  | positions (term : Term)

/-- A sub-reader, with what is in memory before the bits of its deleted documents. -/
structure SubReader where
  reader : Reader
  skipList : Term → SkipList
  outside : Int → Bool

namespace SubReader

/-- `deletedDocs && deletedDocs->get(doc)`. -/
def isDeleted (sub : SubReader) (doc : Int) : Bool :=
  sub.reader.segment.hasDeletions &&
    if doc < 0 then sub.outside doc else sub.reader.segment.isDeleted doc.toNat

def omits (sub : SubReader) (term : Term) : Bool :=
  ((sub.reader.fieldInfos.fieldInfo term.field).map FieldInfo.omitTermFreqAndPositions).getD false

def segmentTermDocs (sub : SubReader) (positions : Bool) (term : Term) : SegmentTermDocs :=
  ⟨positions, sub.omits term, sub.reader.segment.isDeleted, sub.skipList term, [], sub.reader.postings term⟩

/-- The enumerator when it has been seeked. -/
def termDocs (sub : SubReader) : Seek → TermDocs
  | .docs none => .all ⟨sub.reader.segment.maxDoc, sub.isDeleted, -1⟩
  | .docs (some term) => .segment (sub.segmentTermDocs false term)
  | .positions term => .segment (sub.segmentTermDocs true term)

end SubReader

/-- The enumerator of a sub-reader, with the number of documents before it. -/
structure SubDocs where
  base : Int
  docs : TermDocs

/-- `todo` are the sub-readers from `pointer` on. -/
structure MultiTermDocs where
  current : Option SubDocs
  todo : List SubDocs

namespace MultiTermDocs

/-- `next` and `skipTo`: asks the current enumerator, and goes on to the next sub-reader when it has nothing. -/
def advance (call : SubDocs → Option TermDoc × TermDocs) :
    Option SubDocs → List SubDocs → Option TermDoc × MultiTermDocs
  | none, [] => (none, ⟨none, []⟩)
  | none, sub :: todo => advance call (some sub) todo
  | some sub, [] => (((call sub).1).map (TermDoc.shift sub.base), ⟨some ⟨sub.base, (call sub).2⟩, []⟩)
  | some sub, sub' :: todo =>
      match (call sub).1 with
      | some entry => (some (entry.shift sub.base), ⟨some ⟨sub.base, (call sub).2⟩, sub' :: todo⟩)
      | none => advance call (some sub') todo

def next (multi : MultiTermDocs) : Option TermDoc × MultiTermDocs :=
  advance (fun sub => sub.docs.next) multi.current multi.todo

def skipTo (multi : MultiTermDocs) (target : Int) : Option TermDoc × MultiTermDocs :=
  advance (fun sub => sub.docs.skipTo (target - sub.base)) multi.current multi.todo

/-- Reads of the first sub-reader that something is read of. -/
def readFrom (length : Nat) : List SubDocs → Option (List TermDoc × MultiTermDocs)
  | [] => some ([], ⟨none, []⟩)
  | sub :: todo =>
      match sub.docs.read length with
      | none => none
      | some ([], _) => readFrom length todo
      | some (got, docs) => some (got.map (TermDoc.shift sub.base), ⟨some ⟨sub.base, docs⟩, todo⟩)

/-- There is none where a sub-reader throws `UnsupportedOperationException`. -/
def read (multi : MultiTermDocs) (length : Nat) : Option (List TermDoc × MultiTermDocs) :=
  readFrom length (multi.current.toList ++ multi.todo)

/-- The enumerators of sub-readers that have `base` documents before them. -/
def subDocs (seek : Seek) : Int → List SubReader → List SubDocs
  | _, [] => []
  | base, sub :: subs => ⟨base, sub.termDocs seek⟩ :: subDocs seek (base + sub.reader.segment.maxDoc) subs

def seek (subs : List SubReader) (seek : Seek) : MultiTermDocs := ⟨none, subDocs seek 0 subs⟩

inductive Call where
  | next
  | read (length : Nat)
  | skipTo (target : Int)

/-- What a call returns, with the document that the enumerator is at. -/
inductive Answer where
  | entry (entry : Option TermDoc)
  | docs (entries : List TermDoc)
  | unsupported

def call (multi : MultiTermDocs) : Call → Answer × MultiTermDocs
  | .next => (.entry multi.next.1, multi.next.2)
  | .skipTo target => (.entry (multi.skipTo target).1, (multi.skipTo target).2)
  | .read length =>
      match multi.read length with
      | none => (.unsupported, multi)
      | some (entries, multi) => (.docs entries, multi)

/-- The calls with what they return. -/
def run : MultiTermDocs → List Call → List (Call × Answer) × MultiTermDocs
  | multi, [] => ([], multi)
  | multi, call :: calls =>
      let (answers, last) := run (multi.call call).2 calls
      ((call, (multi.call call).1) :: answers, last)

end MultiTermDocs
end LucenePlusPlus
