import LucenePlusPlus.BufferedDeletes

/-!
`DocumentsWriter` as a buffer of documents and deletes. A document has as its number the count of documents
before it, in RAM (`nextDocID`) and flushed (`flushedDocCount`); a delete has as its bound the number of the
next document. Deletes done after the last flush are apart from those done before it.

`IndexWriter` flushes the buffer to a new segment and applies the deletes to all segments.
-/

namespace LucenePlusPlus

/-- `docs` are the documents in RAM, in the order of their numbers. -/
structure DocumentsWriter (Doc Term Query : Type) where
  docs : List Doc
  nextDocID : Nat
  numDocsInRAM : Nat
  flushedDocCount : Nat
  deletesInRAM : BufferedDeletes Term Query
  deletesFlushed : BufferedDeletes Term Query

/-- How `processDocument` ends. After an exception that does not abort, the document may be there in
part. -/
inductive Processed (Doc : Type) where
  | done
  | exception (partly : Doc)
  | aborting

/-- The documents of a segment, each with whether it is deleted. -/
def Segment.entries {Doc : Type} (s : Segment Doc) : List (Doc × Bool) :=
  s.docs.mapIdx fun n doc => (doc, s.reader.isDeleted n)

namespace DocumentsWriter
variable {Doc Term Query : Type} [DecidableEq Term] [DecidableEq Query]

def addDeleteTerm (w : DocumentsWriter Doc Term Query) (term : Term) (docCount : Nat) :
    DocumentsWriter Doc Term Query :=
  let docIDUpto := w.flushedDocCount + docCount
  -- `setNum` keeps the greater number
  let num := match w.deletesInRAM.terms.lookup term with
    | none => docIDUpto
    | some num => max num docIDUpto
  { w with deletesInRAM := { w.deletesInRAM with terms := w.deletesInRAM.terms.insert term num } }

def addDeleteDocID (w : DocumentsWriter Doc Term Query) (docID : Nat) : DocumentsWriter Doc Term Query :=
  { w with deletesInRAM :=
      { w.deletesInRAM with docIDs := w.deletesInRAM.docIDs ++ [w.flushedDocCount + docID] } }

def addDeleteQuery (w : DocumentsWriter Doc Term Query) (query : Query) (docID : Nat) :
    DocumentsWriter Doc Term Query :=
  { w with deletesInRAM :=
      { w.deletesInRAM with
        queries := w.deletesInRAM.queries.insert query (w.flushedDocCount + docID) } }

def bufferDeleteTerms (w : DocumentsWriter Doc Term Query) (terms : List Term) :
    DocumentsWriter Doc Term Query :=
  terms.foldl (fun w term => w.addDeleteTerm term w.numDocsInRAM) w

def bufferDeleteQueries (w : DocumentsWriter Doc Term Query) (queries : List Query) :
    DocumentsWriter Doc Term Query :=
  queries.foldl (fun w query => w.addDeleteQuery query w.numDocsInRAM) w

/-- The buffer is empty again. -/
def doAfterFlush (w : DocumentsWriter Doc Term Query) : DocumentsWriter Doc Term Query :=
  { w with docs := [], nextDocID := 0, numDocsInRAM := 0 }

def abort (w : DocumentsWriter Doc Term Query) : DocumentsWriter Doc Term Query :=
  { w with deletesInRAM := .empty, deletesFlushed := .empty }.doAfterFlush

/-- The number of the document, and what is done before it is processed. -/
def getThreadState (w : DocumentsWriter Doc Term Query) (delTerm : Option Term) :
    Nat × DocumentsWriter Doc Term Query :=
  let docID := w.nextDocID
  let w := match delTerm with
    | none => w
    | some term => w.addDeleteTerm term docID
  (docID, { w with nextDocID := w.nextDocID + 1, numDocsInRAM := w.numDocsInRAM + 1 })

def updateDocument (w : DocumentsWriter Doc Term Query) (doc : Doc) (delTerm : Option Term) :
    Processed Doc → DocumentsWriter Doc Term Query
  | .done =>
      let (_, w) := w.getThreadState delTerm
      { w with docs := w.docs ++ [doc] }
  | .exception partly =>
      let (docID, w) := w.getThreadState delTerm
      { w with docs := w.docs ++ [partly] }.addDeleteDocID docID
  | .aborting => (w.getThreadState delTerm).2.abort

def pushDeletes (w : DocumentsWriter Doc Term Query) : DocumentsWriter Doc Term Query :=
  { w with deletesFlushed := w.deletesFlushed.update w.deletesInRAM, deletesInRAM := .empty }

/-- The documents in RAM become a segment. -/
def flush (w : DocumentsWriter Doc Term Query) : Segment Doc × DocumentsWriter Doc Term Query :=
  (.new w.docs, { w with flushedDocCount := w.flushedDocCount + w.numDocsInRAM }.doAfterFlush)

/-- The loop of `applyDeletes(infos)`, for the segments from `docStart` on. -/
def applyDeletesFrom (d : BufferedDeletes Term Query) (M : Matching Doc Term Query) :
    Nat → List (Segment Doc) → Option (List (Segment Doc))
  | _, [] => some []
  | docStart, s :: rest => do
      let s' ← d.applyTo M docStart s
      let rest' ← applyDeletesFrom d M (docStart + s.reader.maxDoc) rest
      return s' :: rest'

def applyDeletes (w : DocumentsWriter Doc Term Query) (M : Matching Doc Term Query)
    (infos : List (Segment Doc)) : Option (List (Segment Doc) × DocumentsWriter Doc Term Query) :=
  if !w.deletesFlushed.any then some (infos, w)
  else (applyDeletesFrom w.deletesFlushed M 0 infos).map
    fun infos => (infos, { w with deletesFlushed := .empty })

end DocumentsWriter

/-- The part of `IndexWriter` that documents and deletes go through. -/
structure BufferedIndex (Doc Term Query : Type) where
  docWriter : DocumentsWriter Doc Term Query
  segmentInfos : List (Segment Doc)

namespace BufferedIndex
variable {Doc Term Query : Type} [DecidableEq Term] [DecidableEq Query]

/-- The writer of an index of the given segments. -/
def opened (segmentInfos : List (Segment Doc)) : BufferedIndex Doc Term Query where
  docWriter :=
    { docs := []
      nextDocID := 0
      numDocsInRAM := 0
      flushedDocCount := (segmentInfos.map fun s => s.reader.maxDoc).sum
      deletesInRAM := .empty
      deletesFlushed := .empty }
  segmentInfos

def applyDeletes (w : BufferedIndex Doc Term Query) (M : Matching Doc Term Query) :
    Option (BufferedIndex Doc Term Query) :=
  (w.docWriter.applyDeletes M w.segmentInfos).map fun (segmentInfos, docWriter) =>
    { docWriter, segmentInfos }

/-- `doFlush`: documents first, if there are any. -/
def flushDocs (w : BufferedIndex Doc Term Query) : BufferedIndex Doc Term Query :=
  if 0 < w.docWriter.numDocsInRAM then
    let (newSegment, docWriter) := w.docWriter.flush
    { docWriter, segmentInfos := w.segmentInfos ++ [newSegment] }
  else w

def pushDeletes (w : BufferedIndex Doc Term Query) : BufferedIndex Doc Term Query :=
  { w with docWriter := w.docWriter.pushDeletes }

def flush (w : BufferedIndex Doc Term Query) (M : Matching Doc Term Query) (flushDeletes : Bool) :
    Option (BufferedIndex Doc Term Query) :=
  if flushDeletes then w.flushDocs.pushDeletes.applyDeletes M else some w.flushDocs.pushDeletes

inductive Op (Doc Term Query : Type) where
  | updateDocument (doc : Doc) (delTerm : Option Term) (processed : Processed Doc)
  | deleteTerms (terms : List Term)
  | deleteQueries (queries : List Query)
  | flush (flushDeletes : Bool)
  /-- writing the segment raises an exception -/
  | failedFlush
  | pushDeletes
  | applyDeletes

def step (M : Matching Doc Term Query) (w : BufferedIndex Doc Term Query) :
    Op Doc Term Query → Option (BufferedIndex Doc Term Query)
  | .updateDocument doc delTerm processed =>
      some { w with docWriter := w.docWriter.updateDocument doc delTerm processed }
  | .deleteTerms terms => some { w with docWriter := w.docWriter.bufferDeleteTerms terms }
  | .deleteQueries queries => some { w with docWriter := w.docWriter.bufferDeleteQueries queries }
  | .flush flushDeletes => w.flush M flushDeletes
  | .failedFlush => some { w with docWriter := w.docWriter.abort }
  | .pushDeletes => some w.pushDeletes
  | .applyDeletes => w.applyDeletes M

/-- The documents that a reader of the segments sees. -/
def liveDocs (w : BufferedIndex Doc Term Query) : List Doc :=
  ((w.segmentInfos.flatMap Segment.entries).filter fun e => !e.2).map Prod.fst

end BufferedIndex
end LucenePlusPlus
