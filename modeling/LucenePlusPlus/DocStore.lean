import Mathlib.Tactic

/-!
What `DocumentsWriter` knows of the segment that it buffers, and of the doc store that is open: the segments of an index
may share the files that their stored fields and term vectors are in. A name that is empty stands for none.
-/

namespace LucenePlusPlus

structure DocStore where
  /-- the segment of the buffered documents -/
  segment : String
  docStoreSegment : String
  docStoreOffset : Nat
  numDocsInStore : Nat
  numDocsInRAM : Nat
  deriving DecidableEq

namespace DocStore

def new : DocStore where
  segment := ""
  docStoreSegment := ""
  docStoreOffset := 0
  numDocsInStore := 0
  numDocsInRAM := 0

/-- `newSegmentName` is the name that the writer gives, when it is asked for one. -/
def initSegmentName (d : DocStore) (newSegmentName : String) (onlyDocStore : Bool) : DocStore :=
  let segment :=
    if d.segment = "" ∧ (onlyDocStore = false ∨ d.docStoreSegment = "") then newSegmentName else d.segment
  { d with segment, docStoreSegment := if d.docStoreSegment = "" then segment else d.docStoreSegment }

/-- Whether `initSegmentName` asks for a name. -/
def needsName (d : DocStore) (onlyDocStore : Bool) : Bool :=
  d.segment = "" ∧ (onlyDocStore = false ∨ d.docStoreSegment = "")

/-- A thread gets a state for a document. -/
def getThreadState (d : DocStore) (newSegmentName : String) : DocStore :=
  let d := d.initSegmentName newSegmentName false
  { d with numDocsInRAM := d.numDocsInRAM + 1 }

/-- The wait queue has written a document. -/
def writeDocument (d : DocStore) : DocStore := { d with numDocsInStore := d.numDocsInStore + 1 }

/-- `closeDocStore`, when there is a doc store. -/
def closeDocStore (d : DocStore) : DocStore :=
  { d with docStoreSegment := "", docStoreOffset := 0, numDocsInStore := 0 }

/-- `flush`: the names that the segment has been given, the offset of the next segment's documents, the doc store that may
be closed, and `doAfterFlush`. -/
def flush (d : DocStore) (newSegmentName : String) (closing : Bool) : DocStore :=
  let d := d.initSegmentName newSegmentName false
  let d := { d with docStoreOffset := d.numDocsInStore }
  let d := if closing then d.closeDocStore else d
  { d with segment := "", numDocsInRAM := 0 }

/-- `abort`, with its `doAfterFlush`. -/
def abort (_ : DocStore) : DocStore := new

@[simp] theorem docStoreSegment_closeDocStore (d : DocStore) : d.closeDocStore.docStoreSegment = "" := rfl

@[simp] theorem docStoreSegment_abort (d : DocStore) : d.abort.docStoreSegment = "" := rfl

@[simp] theorem docStoreSegment_writeDocument (d : DocStore) : d.writeDocument.docStoreSegment = d.docStoreSegment := rfl

end DocStore

end LucenePlusPlus
