import LucenePlusPlus.RefCountSafety

/-!
`SnapshotDeletionPolicy`: wraps another deletion policy and protects one commit. The wrapped policy is
shown wrappers of the commit points; a wrapper passes `deleteCommit` on unless its commit point has the
segments file name of the snapshot. The policy outlives a deleter: a new writer on the same directory
makes a new deleter, which calls `onInit` on it.
-/

namespace LucenePlusPlus

/-- `snapshot` is the segments file name of the protected commit, empty when there is none. -/
structure SnapshotDeletionPolicy where
  lastCommit : Option CommitPoint
  snapshot : String

namespace SnapshotDeletionPolicy

/-- The test of `MyCommitPoint::deleteCommit`. -/
def mayDelete (p : SnapshotDeletionPolicy) (c : CommitPoint) : Bool :=
  p.snapshot = "" || p.snapshot ≠ c.segmentsFileName

/-- What the deletions of the wrapped policy come to, once they have gone through the wrappers. -/
def wrapCommits (p : SnapshotDeletionPolicy) (primary : IndexFileDeleter.Policy) :
    IndexFileDeleter.Policy := fun commits =>
  (primary commits).filter fun id => commits.all fun c => c.id ≠ id || p.mayDelete c

/-- `onInit` and `onCommit`, after the wrapped policy has been called. -/
def onCommit (p : SnapshotDeletionPolicy) (commits : List CommitPoint) : SnapshotDeletionPolicy :=
  { p with lastCommit := commits.getLast? }

/-- `snapshot()`; `none` when it raises `IllegalStateException`. -/
def takeSnapshot (p : SnapshotDeletionPolicy) : Option (CommitPoint × SnapshotDeletionPolicy) :=
  match p.lastCommit with
  | none => none
  | some c => if p.snapshot = "" then some (c, { p with snapshot := c.segmentsFileName }) else none

/-- `release()`; `none` when it raises `IllegalStateException`. -/
def release (p : SnapshotDeletionPolicy) : Option SnapshotDeletionPolicy :=
  if p.snapshot ≠ "" then some { p with snapshot := "" } else none

/-- The current deleter with the references of its callers, the policy, the commit points of earlier
deleters, which someone may still hold, and a ghost record of the commit that `snapshot()` returned and
of the directory at that time. -/
structure State where
  files : IndexFileDeleter.State
  policy : SnapshotDeletionPolicy
  closed : List CommitPoint
  taken : Option (CommitPoint × List String)

/-- No writer yet, and a policy that has seen no commit. -/
def start (directory : List String) (failures : Nat → Bool) : State :=
  ⟨⟨.fresh directory 0 failures, 0⟩, ⟨none, ""⟩, [], none⟩

inductive Op where
  /-- `checkpoint(infos, true)`, hence `onCommit`, with what the wrapped policy does -/
  | commit (infos : SegmentInfos) (primary : IndexFileDeleter.Policy)
  /-- the wrapped policy deletes through a wrapper that it was shown earlier -/
  | deleteCommit (id : Nat)
  /-- any other operation of the deleter -/
  | other (op : IndexFileDeleter.Op)
  /-- a new writer, hence `onInit` -/
  | newDeleter (listing : List String) (read : String → IndexFileDeleter.ReadResult)
      (infos : SegmentInfos) (openFiles : Option (List String)) (primary : IndexFileDeleter.Policy)
      (failures : Nat → Bool)
  | snapshot
  | release

/-- All commit point objects that someone may hold. -/
def State.objects (s : State) : List CommitPoint := s.files.deleter.commits ++ s.closed

/-- The commit points that the constructor of a new deleter shows to `onInit`. -/
def initCommits (d : IndexFileDeleter) (listing : List String)
    (read : String → IndexFileDeleter.ReadResult) (infos : SegmentInfos) : List CommitPoint :=
  match d.loadCommits listing read infos with
  | .ok (d, _) => d.sortCommits.commits
  | .error _ => []

def State.newDeleter (s : State) (failures : Nat → Bool) : IndexFileDeleter :=
  .fresh s.files.deleter.directory s.files.deleter.nextCommit failures

/-- An exception raised by `snapshot`, `release` or the constructor leaves everything as it was. -/
def step (s : State) : Op → Option State
  | .commit infos primary =>
      (IndexFileDeleter.step s.files
        (.checkpoint infos true none (s.policy.wrapCommits primary))).map fun files =>
          { s with files, policy := s.policy.onCommit (s.files.deleter.shownCommits infos) }
  | .deleteCommit id =>
      if s.objects.all fun c => c.id ≠ id || s.policy.mayDelete c then
        (IndexFileDeleter.step s.files (.deleteCommit id)).map fun files =>
          { s with
            files
            closed := s.closed.map fun c => if c.id = id then { c with deleted := true } else c }
      else some s
  | .other op => (IndexFileDeleter.step s.files op).map fun files => { s with files }
  | .newDeleter listing read infos openFiles primary failures =>
      let d := s.newDeleter failures
      match d.init listing read infos openFiles (s.policy.wrapCommits primary) with
      | .ok (d', _) =>
          some { s with
            files := ⟨d', 0⟩
            policy := s.policy.onCommit (initCommits d listing read infos)
            closed := s.objects }
      | .error .assertion => none
      | .error _ => some s
  | .snapshot =>
      match s.policy.takeSnapshot with
      | some (c, policy) => some { s with policy, taken := some (c, s.files.deleter.directory) }
      | none => some s
  | .release =>
      match s.policy.release with
      | some policy => some { s with policy, taken := none }
      | none => some s

/-- What the callers promise. A commit is announced when its segments file is in the directory. A new
writer sees all files of the directory, and a segments file reads as it was written. -/
def Legal (s : State) : Op → Prop
  | .commit infos primary =>
      IndexFileDeleter.Legal s.files (.checkpoint infos true none primary) ∧
        0 ≤ infos.lastGeneration ∧ infos.getCurrentSegmentFileName ∈ s.files.deleter.directory
  | .other (.checkpoint _ true _ _) => False
  | .other (.deleteCommit _) => False
  | .other op => IndexFileDeleter.Legal s.files op
  | .newDeleter listing read infos openFiles _ failures =>
      (∀ f ∈ s.files.deleter.directory, f ∈ listing) ∧
        IndexFileDeleter.BuiltOnCommit (s.newDeleter failures) listing read infos openFiles ∧
        (∀ f files, read f = .files files → f ∈ s.files.deleter.directory ∧
          (IndexFileDeleter.readInfos f files).getCurrentSegmentFileName = f) ∧
        ∀ c ∈ s.files.deleter.commits, c.deleted = false →
          ∃ files, read c.segmentsFileName = .files files ∧ c.files = c.segmentsFileName :: files
  | _ => True

/-- The commit point is not deleted. -/
def State.Live (s : State) (c : CommitPoint) : Prop :=
  ∃ c' ∈ s.objects, c'.id = c.id ∧ c'.deleted = false

/-- While a snapshot is held its commit is not deleted, and the files of the commit that were in the
directory when it was taken still are. -/
def Protected (s : State) : Prop :=
  ∀ c directory, s.taken = some (c, directory) →
    s.Live c ∧ ∀ f ∈ c.files, f ∈ directory → f ∈ s.files.deleter.directory

/-- `snapshot()` is called while the last commit is not deleted. -/
def LastCommitLive (s : State) (op : Op) : Prop :=
  op = .snapshot → ∀ c, s.policy.lastCommit = some c →
    ∃ c' ∈ s.files.deleter.commits, c'.id = c.id ∧ c'.deleted = false

end SnapshotDeletionPolicy
end LucenePlusPlus
