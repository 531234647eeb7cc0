import LucenePlusPlus.SegmentInfos
import LucenePlusPlus.Runs
import Mathlib.Data.List.Sort
import Mathlib.Logic.Function.Basic

/-!
`IndexFileDeleter`: keeps a reference count for every index file and deletes a file when its count
drops to zero. Files are referred to by commit points, by the files of the last checkpoint, and by
callers that count references of their own.

The directory is the list of its file names. Whether a call of `Directory::deleteFile` raises is up to
the environment (`failures`, indexed by the number of the call). An operation is `none` when one of the
assertions of `RefCount` fails.
-/

namespace LucenePlusPlus

structure RefCount where
  initDone : Bool
  count : Int
deriving DecidableEq

namespace RefCount

def new : RefCount := ⟨false, 0⟩

/-- Asserts that the count is positive, unless it is the first reference. -/
def incRef (rc : RefCount) : Option RefCount :=
  if rc.initDone then
    if 0 < rc.count then some { rc with count := rc.count + 1 } else none
  else some ⟨true, rc.count + 1⟩

def decRef (rc : RefCount) : Option RefCount :=
  if 0 < rc.count then some { rc with count := rc.count - 1 } else none

end RefCount

/-- A commit in the directory. `id` stands for the identity of the object. -/
structure CommitPoint where
  id : Nat
  segmentsFileName : String
  generation : Int
  files : List String
  deleted : Bool
deriving DecidableEq

structure IndexFileDeleter where
  directory : List String
  refCounts : String → Option RefCount
  /-- sorted, oldest first -/
  commits : List CommitPoint
  commitsToDelete : List CommitPoint
  lastFiles : List (List String)
  /-- files whose deletion failed and is tried again later -/
  deletable : List String
  nextCommit : Nat
  failures : Nat → Bool
  calls : Nat
  /-- ghost: the files passed to `Directory::deleteFile` by the current operation, with the reference
  count they had then -/
  attempts : List (String × Int)

namespace IndexFileDeleter

/-- The count of a file, `0` when the file is not known. -/
def count (d : IndexFileDeleter) (fileName : String) : Int :=
  match d.refCounts fileName with
  | some rc => rc.count
  | none => 0

def getRefCount (d : IndexFileDeleter) (fileName : String) : RefCount :=
  (d.refCounts fileName).getD .new

def setRefCount (d : IndexFileDeleter) (fileName : String) (rc : Option RefCount) : IndexFileDeleter :=
  { d with refCounts := Function.update d.refCounts fileName rc }

/-- A file that exists and that the directory does not delete is queued for a later attempt. Where it
does not exist, the exception is dropped. -/
def deleteFile (d : IndexFileDeleter) (fileName : String) : IndexFileDeleter :=
  let failed := d.failures d.calls
  { d with
    directory := if failed then d.directory else d.directory.filter (· ≠ fileName)
    deletable := if failed ∧ fileName ∈ d.directory then d.deletable.insert fileName else d.deletable
    calls := d.calls + 1
    attempts := (fileName, d.count fileName) :: d.attempts }

def deletePendingFiles (d : IndexFileDeleter) : IndexFileDeleter :=
  let oldDeletable := d.deletable
  oldDeletable.foldl deleteFile { d with deletable := [] }

def incRef (d : IndexFileDeleter) (fileName : String) : Option IndexFileDeleter :=
  (d.getRefCount fileName).incRef.map fun rc => d.setRefCount fileName (some rc)

def incRefs (d : IndexFileDeleter) (files : List String) : Option IndexFileDeleter :=
  files.foldlM incRef d

def decRef (d : IndexFileDeleter) (fileName : String) : Option IndexFileDeleter :=
  (d.getRefCount fileName).decRef.map fun rc =>
    let d := d.setRefCount fileName (some rc)
    if rc.count = 0 then (d.deleteFile fileName).setRefCount fileName none else d

def decRefs (d : IndexFileDeleter) (files : List String) : Option IndexFileDeleter :=
  files.foldlM decRef d

/-- `CommitPoint::deleteCommit`. A commit point that is no longer listed is deleted already. -/
def deleteCommit (d : IndexFileDeleter) (id : Nat) : IndexFileDeleter :=
  match d.commits.find? fun c => c.id = id with
  | none => d
  | some c =>
      if c.deleted then d
      else
        { d with
          commits := d.commits.map fun c => if c.id = id then { c with deleted := true } else c
          commitsToDelete := d.commitsToDelete ++ [{ c with deleted := true }] }

/-- Releases the files of the deleted commits, and compacts `commits`. -/
def deleteCommits (d : IndexFileDeleter) : Option IndexFileDeleter :=
  if d.commitsToDelete = [] then some d
  else do
    let d' ← d.commitsToDelete.foldlM (fun d c => d.decRefs c.files) d
    return { d' with commitsToDelete := [], commits := d'.commits.filter fun c => !c.deleted }

/-- A deletion policy: the ids of the commit points it deletes when it is shown `commits`. -/
abbrev Policy := List CommitPoint → List Nat

/-- `KeepOnlyLastCommitDeletionPolicy`: deletes all commits but the most recent one. -/
def keepOnlyLastCommit : Policy := fun commits => (commits.map CommitPoint.id).dropLast

/-- `policy->onInit(commits)` or `policy->onCommit(commits)`. -/
def runPolicy (d : IndexFileDeleter) (policy : Policy) : IndexFileDeleter :=
  (policy d.commits).foldl deleteCommit d

def newCommitPoint (d : IndexFileDeleter) (infos : SegmentInfos) : CommitPoint where
  id := d.nextCommit
  segmentsFileName := infos.getCurrentSegmentFileName
  generation := infos.generation
  files := infos.allFiles true
  deleted := false

def addCommit (d : IndexFileDeleter) (infos : SegmentInfos) : IndexFileDeleter :=
  { d with commits := d.commits ++ [d.newCommitPoint infos], nextCommit := d.nextCommit + 1 }

/-- `openFiles` is `docWriter->openFiles()`, when there is a doc writer and it has any. -/
def checkpoint (d : IndexFileDeleter) (infos : SegmentInfos) (isCommit : Bool)
    (openFiles : Option (List String)) (policy : Policy) : Option IndexFileDeleter := do
  let d := d.deletePendingFiles
  let d ← d.incRefs (infos.allFiles isCommit)
  if isCommit then
    ((d.addCommit infos).runPolicy policy).deleteCommits
  else
    let d ← d.incRefs (openFiles.getD [])
    let d ← d.lastFiles.foldlM decRefs d
    return { d with lastFiles := infos.files :: openFiles.toList }

/-- Deletes the index files of a segment, or of all of them, that are not referenced. -/
def refresh (d : IndexFileDeleter) (segmentName : String) : IndexFileDeleter :=
  let unreferenced (fileName : String) : Bool :=
    IndexFileNameFilter.accept fileName &&
      (segmentName = "" || IndexFileNames.startsWith fileName (segmentName ++ ".") ||
        IndexFileNames.startsWith fileName (segmentName ++ "_")) &&
      (d.refCounts fileName).isNone && fileName ≠ IndexFileNames.segmentsGen
  (d.directory.filter unreferenced).foldl deleteFile d

def close (d : IndexFileDeleter) : Option IndexFileDeleter :=
  (d.lastFiles.foldlM decRefs d).map fun d => { d with lastFiles := [] }.deletePendingFiles

/-- What reading a segments file gives. -/
inductive ReadResult where
  | files (files : List String)
  | ioException
  | otherException
deriving DecidableEq

inductive InitError where
  | ioException
  | corruptIndex
  | assertion
deriving DecidableEq

def orAssertion {α : Type} : Option α → Except InitError α
  | some x => .ok x
  | none => .error .assertion

/-- `sis->read(directory, fileName)` for a file that could be read. -/
def readInfos (fileName : String) (files : List String) : SegmentInfos :=
  let generation := SegmentInfos.generationFromSegmentsFileName fileName
  { generation, lastGeneration := generation, files }

/-- A deleter that knows no file. -/
def fresh (directory : List String) (nextCommit : Nat) (failures : Nat → Bool) : IndexFileDeleter where
  directory := directory
  refCounts := fun _ => none
  commits := []
  commitsToDelete := []
  lastFiles := []
  deletable := []
  nextCommit := nextCommit
  failures := failures
  calls := 0
  attempts := []

/-- `commits.add(commitPoint); incRef(sis, true)`. -/
def loadCommit (d : IndexFileDeleter) (sis : SegmentInfos) : Except InitError IndexFileDeleter :=
  orAssertion ((d.addCommit sis).incRefs (sis.allFiles true))

/-- One step of the walk over the directory listing; the second component is the commit point of the
current segment infos, once it is found. -/
def visitFile (read : String → ReadResult) (current : SegmentInfos)
    (st : IndexFileDeleter × Option Nat) (fileName : String) :
    Except InitError (IndexFileDeleter × Option Nat) :=
  let (d, currentCommitPoint) := st
  if IndexFileNameFilter.accept fileName ∧ fileName ≠ IndexFileNames.segmentsGen then
    let d := d.setRefCount fileName (some (d.getRefCount fileName))
    if IndexFileNames.startsWith fileName IndexFileNames.segments then
      match read fileName with
      | .files files => do
          let sis := readInfos fileName files
          let currentCommitPoint :=
            if sis.generation = current.generation then some d.nextCommit else currentCommitPoint
          return (← d.loadCommit sis, currentCommitPoint)
      | .ioException =>
          if SegmentInfos.generationFromSegmentsFileName fileName ≤ current.generation then
            .error .ioException
          -- most likely an aborted "future" commit
          else .ok (d, currentCommitPoint)
      | .otherException => .ok (d, currentCommitPoint)
    else .ok (d, currentCommitPoint)
  else .ok (d, currentCommitPoint)

/-- The listing may be stale and miss the current segments file, which is then opened by name. -/
def forceCurrent (read : String → ReadResult) (current : SegmentInfos)
    (st : IndexFileDeleter × Option Nat) : Except InitError (IndexFileDeleter × Nat) :=
  match st with
  | (d, some id) => .ok (d, id)
  | (d, none) =>
      let fileName := current.getCurrentSegmentFileName
      match read fileName with
      | .files files => do return (← d.loadCommit (readInfos fileName files), d.nextCommit)
      | _ => .error .corruptIndex

/-- The first pass: the commits of the directory, and the commit point of the current infos. -/
def loadCommits (d : IndexFileDeleter) (listing : List String) (read : String → ReadResult)
    (segmentInfos : SegmentInfos) : Except InitError (IndexFileDeleter × Nat) := do
  let st ← listing.foldlM (visitFile read segmentInfos) (d, none)
  forceCurrent read segmentInfos st

/-- Deletes the files of the listing that no commit refers to. -/
def deleteUnreferenced (d : IndexFileDeleter) (listing : List String) : IndexFileDeleter :=
  (listing.filter fun f => (d.refCounts f).any fun rc => rc.count = 0).foldl deleteFile d

def sortCommits (d : IndexFileDeleter) : IndexFileDeleter :=
  { d with commits := d.commits.insertionSort fun c c' => c.generation ≤ c'.generation }

def isDeleted (d : IndexFileDeleter) (id : Nat) : Bool :=
  d.commits.any fun c => c.id = id && c.deleted

/-- The constructor, and its `startingCommitDeleted`. -/
def init (d : IndexFileDeleter) (listing : List String) (read : String → ReadResult)
    (segmentInfos : SegmentInfos) (openFiles : Option (List String)) (policy : Policy) :
    Except InitError (IndexFileDeleter × Bool) := do
  let (d, currentCommitPoint) ← d.loadCommits listing read segmentInfos
  let d := (d.sortCommits.deleteUnreferenced listing).runPolicy policy
  -- always protect the incoming infos, since they may not be the most recent commit
  let d ← orAssertion (d.checkpoint segmentInfos false openFiles fun _ => [])
  let startingCommitDeleted := d.isDeleted currentCommitPoint
  return (← orAssertion d.deleteCommits, startingCommitDeleted)

end IndexFileDeleter
end LucenePlusPlus
