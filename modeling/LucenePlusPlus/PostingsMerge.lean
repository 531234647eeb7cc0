import LucenePlusPlus.FieldInfos
import LucenePlusPlus.PriorityQueue
import LucenePlusPlus.SegmentReader
import LucenePlusPlus.SegmentTermPositions

/-!
`SegmentMerger::mergeTermInfos`: the term enumerators of the readers stand in a queue, by term and then by the
number of the reader's first document in the merged segment. The postings of the readers that share the least
term are appended to one another.

What is written is modelled by the list of the entries of the term dictionary, each with its documents; the files
they are encoded in are left out, as is the abort that `checkAbort` may raise.
-/

namespace LucenePlusPlus.PostingsMerge
open SegmentTermPositions

inductive MergeError where
  | nullPointer
  | corruptIndex
  | indexOutOfBounds
  | readPastEOF
  /-- more rounds than entries -/
  | rounds
deriving DecidableEq

/-- An entry of a term dictionary. -/
structure TermPostings where
  term : Term
  postings : List Posting

/-- The reader of a segment, with its fields and its terms. -/
structure Reader where
  segment : SegmentReader
  fieldInfos : FieldInfos
  terms : List TermPostings
  sorted : terms.Pairwise fun entry entry' => entry.term < entry'.term
  docs_sorted : ∀ entry ∈ terms, entry.postings.Pairwise fun posting posting' => posting.doc < posting'.doc
  docs_lt : ∀ entry ∈ terms, ∀ posting ∈ entry.postings, posting.doc < segment.maxDoc
  stored : ∀ entry ∈ terms, ∃ info, fieldInfos.fieldInfo entry.term.field = some info ∧
    ∀ posting ∈ entry.postings, Stored info.storePayloads posting.positions ∧
      (info.omitTermFreqAndPositions = true → posting.positions = [])

/-- So many readers that the indices of the queue, and of the children of its slots, are `int32_t`. -/
abbrev Readers := { readers : List Reader // readers.length < 2 ^ 30 }

/-- An enumerator, at the term `term`; `rest` is to come. -/
structure SegmentMergeInfo where
  base : Int
  reader : Reader
  term : Term
  postings : List Posting
  rest : List TermPostings

/-- `next`, for an enumerator that `terms` are to come of. A term of the field with the empty name is taken for
one that is not set, and is null; what is raised when it is compared or written is raised when it is read here. -/
def nextTerm (base : Int) (reader : Reader) : List TermPostings → Except MergeError (Option SegmentMergeInfo)
  | [] => .ok none
  | entry :: rest =>
      if entry.term.field = [] then .error .nullPointer
      else .ok (some ⟨base, reader, entry.term, entry.postings, rest⟩)

namespace SegmentMergeInfo

/-- The number of document `i` when the deleted ones are gone, or `-1`; `j` documents before it are left. -/
def mapDocs (segment : SegmentReader) : Nat → Nat → Nat → List Int
  | 0, _, _ => []
  | count + 1, i, j =>
      if segment.isDeleted i then -1 :: mapDocs segment count (i + 1) j
      else (j : Int) :: mapDocs segment count (i + 1) (j + 1)

/-- There is no map where nothing is deleted. -/
def getDocMap (segment : SegmentReader) : Option (List Int) :=
  if segment.hasDeletions then some (mapDocs segment segment.maxDoc 0 0) else none

/-- `docMap[doc]`, where there is a map. -/
def mapDoc (segment : SegmentReader) (doc : Nat) : Int :=
  match getDocMap segment with
  | some docMap => docMap.getD doc 0
  | none => doc

def next (smi : SegmentMergeInfo) : Except MergeError (Option SegmentMergeInfo) :=
  nextTerm smi.base smi.reader smi.rest

end SegmentMergeInfo

/-- `SegmentMergeQueue::lessThan`. -/
def lessThan (first second : SegmentMergeInfo) : Bool :=
  if first.term.compareTo second.term = 0 then first.base < second.base
  else first.term.compareTo second.term < 0

/-- A document of an entry. The frequency is not written where it is omitted. -/
structure WrittenDoc where
  docID : Int
  freq : Option Nat
  positions : List (Int × Payload)
deriving DecidableEq

/-- `FormatPostingsDocsWriter`, in one entry. -/
structure DocsWriter where
  lastDocID : Int
  docs : List WrittenDoc

/-- `addDoc`. It returns what takes the positions of the document. -/
def DocsWriter.addDoc (info : FieldInfo) (w : DocsWriter) (docID : Int) (termDocFreq : Nat) :
    Except MergeError (List (Int × Payload) → DocsWriter) :=
  if docID < 0 ∨ (0 < w.docs.length ∧ docID - w.lastDocID ≤ 0) then .error .corruptIndex
  else .ok fun positions =>
    { lastDocID := docID
      docs := w.docs ++ [
        { docID := docID
          freq := if info.omitTermFreqAndPositions then none else some termDocFreq
          positions := positions.map fun position =>
            (position.1, if info.storePayloads then position.2 else []) }] }

/-- The documents of one reader: the loop over `postings->next()`, with fuel for one more call than there are
documents. -/
def appendDocs (info : FieldInfo) (smi : SegmentMergeInfo) :
    Nat → SegmentTermPositions → DocsWriter → Except MergeError DocsWriter
  | 0, _, w => .ok w
  | fuel + 1, postings, w =>
      match postings.next smi.reader.segment.isDeleted with
      | none => .ok w
      | some postings => do
          let doc := SegmentMergeInfo.mapDoc smi.reader.segment postings.doc
          let posConsumer ← w.addDoc info (doc + smi.base) postings.freq
          if info.omitTermFreqAndPositions then appendDocs info smi fuel postings (posConsumer [])
          else
            match postings.readPositions postings.freq with
            | none => .error .readPastEOF
            | some (positions, postings) => appendDocs info smi fuel postings (posConsumer positions)

def SegmentMergeInfo.seek (smi : SegmentMergeInfo) : SegmentTermPositions :=
  match smi.reader.fieldInfos.fieldInfo smi.term.field with
  | some info => .seek info.omitTermFreqAndPositions info.storePayloads smi.postings
  | none => .seek false false smi.postings

/-- The documents of the entry; `df` is their number. -/
def appendPostings (info : FieldInfo) (smis : List SegmentMergeInfo) : Except MergeError (List WrittenDoc) :=
  (smis.foldlM (fun w smi => appendDocs info smi (smi.postings.length + 1) smi.seek w) ⟨0, []⟩).map
    DocsWriter.docs

abbrev Queue := PriorityQueue SegmentMergeInfo

def addToQueue (queue : Queue) : Option SegmentMergeInfo → Except MergeError Queue
  | none => .ok queue
  | some smi =>
      match queue.add lessThan smi with
      | .ok queue => .ok queue
      | .error _ => .error .indexOutOfBounds

/-- The enumerators of the readers, each at its first term, and the number of documents they have before
them. -/
def initialQueue (readers : List Reader) (queue : Queue) : Except MergeError (Int × Queue) :=
  readers.foldlM (fun (base, queue) reader => do
    let smi ← nextTerm base reader reader.terms
    let queue ← addToQueue queue smi
    return (base + reader.segment.numDocs, queue)) (0, queue)

/-- Pops what has the same term; the fuel is the size of the queue. -/
def popMatching (term : Term) : Nat → Queue → List SegmentMergeInfo → List SegmentMergeInfo × Queue
  | 0, queue, matching => (matching, queue)
  | fuel + 1, queue, matching =>
      match queue.top with
      | none => (matching, queue)
      | some top =>
          if term.compareTo top.term = 0 then
            match queue.pop lessThan with
            | (some smi, queue) => popMatching term fuel queue (matching ++ [smi])
            | (none, queue) => (matching, queue)
          else (matching, queue)

/-- The enumerators that were popped go on, the last of them first. -/
def restoreQueue (matching : List SegmentMergeInfo) (queue : Queue) : Except MergeError Queue :=
  matching.reverse.foldlM (fun queue smi => do addToQueue queue (← smi.next)) queue

/-- The entries of the merged dictionary. There is one round for each term. -/
def mergeTerms (fieldInfos : FieldInfos) : Nat → Queue → WString → Option FieldInfo →
    Except MergeError (List (Term × List WrittenDoc))
  | 0, _, _, _ => .error .rounds
  | rounds + 1, queue, currentField, termsConsumer =>
      match queue.pop lessThan with
      | (none, _) => .ok []
      | (some smi, queue) => do
          let (matching, queue) := popMatching smi.term queue.size queue [smi]
          let termsConsumer :=
            if currentField ≠ smi.term.field then fieldInfos.fieldInfo smi.term.field else termsConsumer
          match termsConsumer with
          | none => .error .nullPointer
          | some info =>
              let docs ← appendPostings info matching
              let queue ← restoreQueue matching queue
              let entries ← mergeTerms fieldInfos rounds queue smi.term.field (some info)
              -- an entry without documents is not added
              return if docs = [] then entries else (smi.term, docs) :: entries

/-- The fields of the merged segment are those of `mergeFields`. -/
def mergeTermInfos (mergeDocStores : Bool) (readers : Readers) :
    Except MergeError (List (Term × List WrittenDoc)) := do
  let fieldInfos := FieldInfos.mergeFields mergeDocStores (readers.val.map Reader.fieldInfos)
  let (_, queue) ← initialQueue readers.val (.new readers.val.length)
  mergeTerms fieldInfos ((readers.val.map fun reader => reader.terms.length).sum + 1) queue [] none

end LucenePlusPlus.PostingsMerge
