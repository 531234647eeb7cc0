import LucenePlusPlus.RefCountSafety
import LucenePlusPlus.SegmentInfosCommit

/-!
`IndexWriter`: committing. `startCommit` copies the segment infos, syncs the files of the copy without
holding the lock of the writer, and prepares the segments file; `finishCommit` finishes it and tells the
deleter. Several threads may be between the first and the last part of `startCommit` (`syncing`), but
only one commit is prepared at a time (`pendingCommit`).

Operations of the directory raise `LuceneException`s, which is what all of the code here catches.
-/

namespace LucenePlusPlus

/-- `infos` says what the complete segments files of the directory hold. -/
structure IndexWriter where
  files : IndexFileDeleter.State
  infos : String → Option (List String)
  segmentInfos : SegmentInfos
  changeCount : Nat
  lastCommitChangeCount : Nat
  pendingCommit : Option SegmentInfos
  pendingCommitChangeCount : Nat
  /-- the infos to be synced by started commits, with their change counts -/
  syncing : List (SegmentInfos × Nat)

namespace IndexWriter

def directory (w : IndexWriter) : Directory := ⟨w.files.deleter.directory, w.infos⟩

def setDirectory (w : IndexWriter) (dir : Directory) : IndexWriter :=
  { w with
    files := { w.files with deleter := { w.files.deleter with directory := dir.fileNames } }
    infos := dir.infos }

/-- `deleter->decRef(infos)`. -/
def release (w : IndexWriter) (infos : SegmentInfos) : Option IndexWriter :=
  (IndexFileDeleter.step w.files (.decRefInfos infos)).map fun files => { w with files }

/-- New segments: `checkpoint()` of the writer. -/
def checkpoint (w : IndexWriter) (files : List String) (openFiles : Option (List String)) :
    Option IndexWriter :=
  let segmentInfos := { w.segmentInfos with files }
  (IndexFileDeleter.step w.files (.checkpoint segmentInfos false openFiles fun _ => [])).map
    fun files => { w with files, segmentInfos, changeCount := w.changeCount + 1 }

/-- `startCommit` up to its release of the lock. Tail segments that refer to the open doc store are
removed from the copy; `files` are those of the segments that stay, `removed` counts the others. -/
def startCommit (w : IndexWriter) (files : List String) (removed : Nat) : Option IndexWriter :=
  if w.changeCount = w.lastCommitChangeCount then some w
  else
    let toSync := { w.segmentInfos with files }
    (IndexFileDeleter.step w.files (.incRefInfos toSync false)).map fun files =>
      { w with
        files
        changeCount := w.changeCount + removed
        syncing := w.syncing ++ [(toSync, w.changeCount)] }

/-- The rest of `startCommit`, for a commit that was started. It waits while another one is prepared. -/
def prepareCommit (w : IndexWriter) (k : Nat) (syncFiles : Bool) (out : SegmentInfos.WriteOutcome) :
    Option IndexWriter :=
  match w.syncing[k]? with
  | none => some w
  | some (toSync, myChangeCount) =>
      let w' := { w with syncing := w.syncing.eraseIdx k }
      if !syncFiles || myChangeCount ≤ w.lastCommitChangeCount then w'.release toSync
      else if w.pendingCommit.isSome then some w
      else
        let toSync := if toSync.generation < w.segmentInfos.generation then
          toSync.updateGeneration w.segmentInfos else toSync
        let (toSync, dir, raised) := toSync.prepareCommit w.directory out
        -- on error or success, so that no segments file is written twice
        let w' := { w' with segmentInfos := w.segmentInfos.updateGeneration toSync }.setDirectory dir
        if raised then w'.release toSync
        else some { w' with pendingCommit := some toSync, pendingCommitChangeCount := myChangeCount }

/-- What `finishCommit` does once the segments file is finished. -/
def announce (w : IndexWriter) (pendingCommit : SegmentInfos) (policy : IndexFileDeleter.Policy) :
    Option IndexWriter :=
  (IndexFileDeleter.step w.files (.checkpoint pendingCommit true none policy)).map fun files =>
    { w with
      files
      lastCommitChangeCount := w.pendingCommitChangeCount
      segmentInfos := w.segmentInfos.updateGeneration pendingCommit }

/-- Also says whether an exception is raised. -/
def finishCommit (w : IndexWriter) (out : SegmentInfos.FinishOutcome)
    (policy : IndexFileDeleter.Policy) : Option (IndexWriter × Bool) :=
  match w.pendingCommit with
  | none => some (w, false)
  | some pendingCommit => do
      let (pendingCommit, dir, raised) := pendingCommit.finishCommit w.directory out
      let w := w.setDirectory dir
      let w ← if raised then some w else w.announce pendingCommit policy
      let w ← w.release pendingCommit
      return ({ w with pendingCommit := none }, raised)

/-- What `rollbackInternal` does to a prepared commit. -/
def rollbackPending (w : IndexWriter) (deleteFile : Bool) : Option IndexWriter :=
  match w.pendingCommit with
  | none => some w
  | some pendingCommit =>
      let (pendingCommit, dir) := pendingCommit.rollbackCommit w.directory deleteFile
      ((w.setDirectory dir).release pendingCommit).map fun w => { w with pendingCommit := none }

inductive Op where
  | checkpoint (files : List String) (openFiles : Option (List String))
  | startCommit (files : List String) (removed : Nat)
  | prepareCommit (k : Nat) (syncFiles : Bool) (out : SegmentInfos.WriteOutcome)
  | finishCommit (out : SegmentInfos.FinishOutcome) (policy : IndexFileDeleter.Policy)
  | rollbackPending (deleteFile : Bool)
  | deleter (op : IndexFileDeleter.Op)

def step (w : IndexWriter) : Op → Option IndexWriter
  | .checkpoint files openFiles => w.checkpoint files openFiles
  | .startCommit files removed => w.startCommit files removed
  | .prepareCommit k syncFiles out => w.prepareCommit k syncFiles out
  | .finishCommit out policy => (w.finishCommit out policy).map Prod.fst
  | .rollbackPending deleteFile => w.rollbackPending deleteFile
  | .deleter op => (IndexFileDeleter.step w.files op).map fun files => { w with files }

/-- The files on which commits in progress hold references. -/
def committing (w : IndexWriter) : List String :=
  (w.pendingCommit.toList ++ w.syncing.map Prod.fst).flatMap SegmentInfos.files

/-- A policy that keeps the most recent commit, as policies are told to. -/
def KeepsLast (policy : IndexFileDeleter.Policy) : Prop :=
  ∀ commits c, (commits.map CommitPoint.id).Nodup → commits.getLast? = some c → c.id ∉ policy commits

/-- A file of a segment, hence no segments file. -/
def SegmentFile (fileName : String) : Prop :=
  IndexFileNames.startsWith fileName IndexFileNames.segments = false

/-- Other uses of the deleter: files are created, in use by readers, pending, or of a segment that failed
to flush. -/
def LegalDeleter (w : IndexWriter) : IndexFileDeleter.Op → Prop
  | .createOutput fileName => SegmentFile fileName
  | .incRefFiles files => ∀ f ∈ files, SegmentFile f ∧ f ∉ w.files.deleter.deletable
  | .decRefFiles files => (files : Multiset String) ≤ w.files.outstanding - w.committing
  | .deletePendingFiles => True
  | .refresh segmentName => IndexFileNames.startsWith segmentName "_" = true
  | _ => False

/-- What callers promise: the files of new segments exist, and a commit is of current segments. -/
def Legal (w : IndexWriter) : Op → Prop
  | .checkpoint files openFiles => ∀ f ∈ files ++ openFiles.getD [],
      SegmentFile f ∧ f ∉ w.files.deleter.deletable ∧ f ∈ w.files.deleter.directory
  | .startCommit files _ => ∀ f ∈ files, f ∈ w.segmentInfos.files
  | .finishCommit _ policy => KeepsLast policy
  | .deleter op => LegalDeleter w op
  | _ => True

/-- A segments file and the files it references are all there. -/
def Durable (w : IndexWriter) : Prop :=
  ∃ gen : Int, 0 ≤ gen ∧
    w.directory.HasCommit (IndexFileNames.fileNameFromGeneration IndexFileNames.segments "" gen)

/-- A failing sync of a new segments file shows, since deleting the file then fails too. -/
def SyncReported : Op → Prop
  | .finishCommit out _ => out.reported = true
  | _ => True

/-- A commit that fails raises, keeps the last generation, and is not announced to the deleter. -/
def FailureReported (w : IndexWriter) (infos : SegmentInfos) (out : SegmentInfos.FinishOutcome)
    (policy : IndexFileDeleter.Policy) : Prop :=
  ∃ w', w.finishCommit out policy = some (w', true) ∧
    (infos.finishCommit w.directory out).1.lastGeneration = infos.lastGeneration ∧
    w'.segmentInfos = w.segmentInfos ∧ w'.files.deleter.commits = w.files.deleter.commits

end IndexWriter
end LucenePlusPlus
