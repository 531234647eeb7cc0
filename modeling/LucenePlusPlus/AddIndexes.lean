import LucenePlusPlus.RefCountSafety
import Mathlib.Data.List.ReduceOption

/-!
`IndexWriter::addIndexesNoOptimize` and `IndexWriter::addIndexes`: the steps one call takes inside its
transaction, and what happens beside it, that is the merges that are committed and the references that
others count in the deleter. The model starts when the buffered documents are flushed. A step ends well,
raises an exception that Lucene catches as its own, or runs out of memory: `catch (LuceneException&)` does
not catch `std::bad_alloc`.

`commitTransaction` and `rollbackTransaction` raise nothing but `std::bad_alloc`: the deleter catches what
deleting a file raises, and looking up the files of a segment is taken to succeed.
-/

namespace LucenePlusPlus

/-- What the deleter does in a call it is promised to get. -/
def IndexFileDeleter.State.perform (s : IndexFileDeleter.State) (op : IndexFileDeleter.Op) :
    Option IndexFileDeleter.State :=
  if IndexFileDeleter.Legal s op then IndexFileDeleter.step s op else none

namespace AddIndexes

/-- A segment has files. -/
abbrev SegmentFiles := { files : List String // files ≠ [] }

/-- `external` says that the segment lies in another directory than the index. A deleted document is
`none`. -/
structure SegmentInfo (Doc : Type) where
  name : String
  external : Bool
  docs : List (Option Doc)
  files : SegmentFiles
deriving DecidableEq

section Infos
variable {Doc : Type}

def SegmentInfo.docCount (info : SegmentInfo Doc) : Nat := info.docs.length

/-- The documents of a segment list, without those that are deleted. -/
def live (infos : List (SegmentInfo Doc)) : List Doc := infos.flatMap fun info => info.docs.reduceOption

def docCount (infos : List (SegmentInfo Doc)) : Nat := (infos.map SegmentInfo.docCount).sum

/-- `segmentInfos->files(directory, false)`. -/
def files (infos : List (SegmentInfo Doc)) : List String :=
  ((infos.filter fun info => !info.external).flatMap fun info => info.files.val).dedup

def hasExternalSegments (infos : List (SegmentInfo Doc)) : Bool := infos.any SegmentInfo.external

/-- The segment list as the deleter sees it, which has no use for the generations when it is not a commit
that it is shown. -/
def filesOnly (infos : List (SegmentInfo Doc)) : SegmentInfos :=
  { generation := 0, lastGeneration := 0, files := files infos }

end Infos

/-- An element of the `dirs` of `addIndexesNoOptimize`: the directory of the index, or one whose segments
are those. -/
inductive Source (Doc : Type) where
  | itself
  | index (infos : List (SegmentInfo Doc))

def Source.docs {Doc : Type} : Source Doc → List Doc
  | .itself => []
  | .index infos => live infos

inductive Sources (Doc : Type) where
  | dirs (sources : List (Source Doc))
  | readers (sources : List (List (Option Doc)))

/-- The documents to be added. -/
def Sources.docs {Doc : Type} : Sources Doc → List Doc
  | .dirs sources => sources.flatMap Source.docs
  | .readers sources => sources.flatMap List.reduceOption

/-- A call. `mergedName` is the `newSegmentName()` of `addIndexes`, the segment of which has the files
`mergedFiles` and then, in compound format, `compoundFiles`. -/
structure Call (Doc : Type) where
  sources : Sources Doc
  mergedName : String
  mergedFiles : SegmentFiles
  compoundFiles : SegmentFiles
  useCompoundFile : Bool

/-- The two blocks between `startTransaction` and its commit or rollback. -/
inductive Transaction where
  | adding
  | compoundFile
deriving DecidableEq

/-- What the call does next. -/
inductive Place (Doc : Type) where
  | optimizing
  /-- `startTransaction`, up to the write lock -/
  | starting (t : Transaction)
  /-- `startTransaction`, under the write lock -/
  | protecting (t : Transaction)
  /-- reads `infos`, then `dirs`; `docCount` documents are read -/
  | reading (infos : List (SegmentInfo Doc)) (dirs : List (Source Doc)) (docCount : Nat)
  | maybeMerge
  | resolveExternalSegments
  /-- a name and a merger for the new segment, and a reader of the existing one -/
  | preparing
  | merging (existing : List Doc)
  | releasing
  /-- `raised` says that an exception is thrown on afterwards -/
  | committing (t : Transaction) (raised : Bool)
  | rollingBack (t : Transaction)
  /-- whether to build a compound file -/
  | choosing
  | createCompoundFile
  /-- `deleter->decRef(files)` -/
  | returning (success : Bool)
  | done

def Place.isDone {Doc : Type} : Place Doc → Bool
  | .done => true
  | _ => false

/-- What the calling thread has of the lock on segment transactions. -/
inductive Lock where
  | outside
  | reading
  | writing
deriving DecidableEq

/-- `others` is ghost: the references on files that are not the call's. -/
structure State (Doc : Type) where
  segmentInfos : List (SegmentInfo Doc)
  flushedDocCount : Int
  deleter : IndexFileDeleter.State
  others : Multiset String
  lock : Lock
  localRollbackSegmentInfos : List (SegmentInfo Doc)
  localFlushedDocCount : Int
  place : Place Doc

inductive Outcome where
  | ok
  | exception
  | badAlloc
deriving DecidableEq

/-- `openFiles` are those of the documents writer when the deleter is asked for a checkpoint. -/
inductive Event (Doc : Type) where
  | next (outcome : Outcome) (openFiles : Option (List String))
  | commitMerge (start len : Nat) (merged : SegmentInfo Doc) (openFiles : Option (List String))
  | elsewhere (op : IndexFileDeleter.Op)

/-! ### The steps of the call -/

section Steps
variable {Doc : Type} (c : Call Doc) (s : State Doc)

/-- `startTransaction`, under the write lock. -/
def startTransaction (place : Place Doc) : Option (State Doc) :=
  (s.deleter.perform (.incRefInfos (filesOnly s.segmentInfos) false)).map fun d =>
    { s with
      localRollbackSegmentInfos := s.segmentInfos
      localFlushedDocCount := s.flushedDocCount
      deleter := d
      place := place }

def checkpoint (d : IndexFileDeleter.State) (infos : List (SegmentInfo Doc))
    (openFiles : Option (List String)) : Option IndexFileDeleter.State :=
  d.perform (.checkpoint (filesOnly infos) false openFiles fun _ => [])

def rollbackTransaction (openFiles : Option (List String)) (place : Place Doc) : Option (State Doc) := do
  let d ← checkpoint s.deleter s.localRollbackSegmentInfos openFiles
  let d ← d.perform (.decRefInfos (filesOnly s.localRollbackSegmentInfos))
  let d ← d.perform (.refresh "")
  return { s with
    segmentInfos := s.localRollbackSegmentInfos
    flushedDocCount := s.localFlushedDocCount
    deleter := d
    lock := .outside
    place := place }

def commitTransaction (openFiles : Option (List String)) (place : Place Doc) : Option (State Doc) := do
  let d ← checkpoint s.deleter s.segmentInfos openFiles
  let d ← d.perform (.decRefInfos (filesOnly s.localRollbackSegmentInfos))
  return { s with deleter := d, lock := .outside, place := place }

/-- The segment that the documents of `addIndexes` are merged into. -/
def Call.merged (existing : List Doc) : SegmentInfo Doc where
  name := c.mergedName
  external := false
  docs := (existing ++ c.sources.docs).map some
  files := c.mergedFiles

/-- `segmentInfos->contains(info)`. -/
def Call.containsMerged (infos : List (SegmentInfo Doc)) : Bool :=
  infos.any fun info => info.name = c.mergedName && !info.external

/-- `info->setUseCompoundFile(true)`. -/
def Call.setUseCompoundFile (info : SegmentInfo Doc) : SegmentInfo Doc :=
  if info.name = c.mergedName && !info.external then { info with files := c.compoundFiles } else info

/-- Where a transaction begins. -/
def Call.first (t : Transaction) : Place Doc :=
  match t, c.sources with
  | .adding, .dirs sources => .reading [] sources 0
  | .adding, .readers _ => .preparing
  | .compoundFile, _ => .createCompoundFile

/-- Where the call goes on when a transaction is committed. -/
def Call.afterCommit (t : Transaction) (raised : Bool) : Place Doc :=
  match t, c.sources, raised with
  | .adding, .readers _, false => .choosing
  | _, _, _ => .done

/-- The next step of the call, where it ends well. -/
def proceed (openFiles : Option (List String)) : Option (State Doc) :=
  match s.place with
  | .optimizing => some { s with place := .starting .adding }
  | .starting t => some { s with lock := .writing, place := .protecting t }
  | .protecting t => startTransaction s (c.first t)
  | .reading (info :: infos) dirs docCount => some
      { s with
        segmentInfos := s.segmentInfos ++ [{ info with external := true }]
        place := .reading infos dirs (docCount + info.docCount) }
  -- cannot add this index to itself: raises
  | .reading [] (.itself :: _) _ => some { s with place := .rollingBack .adding }
  | .reading [] (.index infos :: dirs) docCount =>
      some { s with place := .reading infos dirs docCount }
  | .reading [] [] docCount => some
      { s with flushedDocCount := s.flushedDocCount + docCount, place := .maybeMerge }
  | .maybeMerge => some { s with place := .resolveExternalSegments }
  | .resolveExternalSegments =>
      if hasExternalSegments s.segmentInfos then none
      else some { s with place := .committing .adding false }
  | .preparing =>
      -- the existing segment is added if there is one, and only one
      some { s with place := .merging (if s.segmentInfos.length = 1 then live s.segmentInfos else []) }
  | .merging existing => some
      { s with
        segmentInfos := [c.merged existing]
        flushedDocCount := s.flushedDocCount + (c.merged existing).docCount
        place := .releasing }
  | .releasing => some { s with place := .committing .adding false }
  | .committing t raised => commitTransaction s openFiles (c.afterCommit t raised)
  | .rollingBack _ => rollbackTransaction s openFiles .done
  | .choosing =>
      if c.useCompoundFile && c.containsMerged s.segmentInfos then
        (s.deleter.perform (.incRefFiles c.mergedFiles)).map fun d =>
          { s with deleter := d, place := .starting .compoundFile }
      else some { s with place := .done }
  | .createCompoundFile => some
      { s with
        segmentInfos := s.segmentInfos.map c.setUseCompoundFile
        place := .returning true }
  | .returning success =>
      (s.deleter.perform (.decRefFiles c.mergedFiles)).map fun d =>
        { s with
          deleter := d
          place := if success then .committing .compoundFile false else .rollingBack .compoundFile }
  | .done => none

/-- The next step of the call, where it raises a `LuceneException`. -/
def raise : Option (State Doc) :=
  match s.place with
  | .optimizing | .starting _ | .protecting _ => some { s with lock := .outside, place := .done }
  | .reading .. | .maybeMerge | .resolveExternalSegments | .merging _ =>
      some { s with place := .rollingBack .adding }
  -- `success` is still what `optimize` has set it to
  | .preparing | .releasing => some { s with place := .committing .adding true }
  | .choosing => some { s with place := .done }
  | .createCompoundFile => some { s with place := .returning false }
  | .committing _ _ | .rollingBack _ | .returning _ | .done => none

end Steps

/-- What others ask of the deleter. Only the writer itself closes it or shows it a new segment list. -/
def Elsewhere : IndexFileDeleter.Op → Bool
  | .checkpoint _ false _ _ | .close => false
  | _ => true

/-- The segments `infos[start, start + len)` are replaced by what they were merged into. -/
def replaceRange {Doc : Type} (infos : List (SegmentInfo Doc)) (start len : Nat)
    (merged : SegmentInfo Doc) : List (SegmentInfo Doc) :=
  infos.take start ++ merged :: infos.drop (start + len)

/-- The segments `infos[start, start + len)`. -/
def range {Doc : Type} (infos : List (SegmentInfo Doc)) (start len : Nat) : List (SegmentInfo Doc) :=
  (infos.drop start).take len

def step {Doc : Type} [DecidableEq Doc] (c : Call Doc) (s : State Doc) (e : Event Doc) :
    Option (State Doc) :=
  if s.place.isDone then none
  else
    match e with
    | .next .ok openFiles => proceed c s openFiles
    | .next .exception _ => raise s
    | .next .badAlloc _ => some { s with place := .done }
    | .commitMerge start len merged openFiles =>
        if range s.segmentInfos start len ≠ [] ∧ merged.external = false ∧
            live [merged] = live (range s.segmentInfos start len) then
          (checkpoint s.deleter (replaceRange s.segmentInfos start len merged) openFiles).map fun d =>
            { s with
              segmentInfos := replaceRange s.segmentInfos start len merged
              -- `docWriter->remapDeletes`
              flushedDocCount := s.flushedDocCount -
                (docCount (range s.segmentInfos start len) - merged.docCount)
              deleter := d }
        else none
    | .elsewhere op =>
        if Elsewhere op = true ∧ IndexFileDeleter.Legal ⟨s.deleter.deleter, s.others⟩ op then
          (s.deleter.perform op).map fun d =>
            { s with
              deleter := d
              others := IndexFileDeleter.outstandingAfter ⟨s.deleter.deleter, s.others⟩ op }
        else none

end AddIndexes
end LucenePlusPlus
