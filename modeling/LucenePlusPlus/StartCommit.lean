import Mathlib.Data.List.DropRight
import LucenePlusPlus.DocStore
import LucenePlusPlus.MergeRegistration

/-!
The segments that `IndexWriter::startCommit` is about to sync: those of the writer, without the last ones that are in the
doc store that is still open. Threads add documents, flush, merge and commit, and a step is what one of them does while it
holds the lock. In between, the doc store may have been opened again.
-/

namespace LucenePlusPlus.StartCommit
open Runs
open MergeRegistration (segmentName)

structure SegmentInfo where
  name : String
  /-- empty when the doc store is not shared -/
  docStoreSegment : String
  deriving DecidableEq

/-- A commit that goes on: what it syncs, and the changes that it has seen. -/
structure Commit where
  toSync : List SegmentInfo
  changeCount : Nat
  deriving DecidableEq

structure State where
  segmentInfos : List SegmentInfo
  counter : Nat
  changeCount : Nat
  lastCommitChangeCount : Nat
  docWriter : DocStore
  commits : List Commit
  deriving DecidableEq

inductive Action where
  | addDocument
  /-- `compoundDocStore` and `compoundFile`: whether the files of a doc store, or of the segment, are put in one -/
  | doFlush (flushDocStores compoundDocStore compoundFile : Bool)
  /-- a document could not be added, or a flush failed -/
  | abort
  /-- the merged segment is in the doc store of those it is made of, or in none that is shared -/
  | commitMerge (start count : Nat) (mergeDocStores : Bool)
  | deleteAll
  /-- by adding indexes, or by giving it up -/
  | setSegmentInfos (segmentInfos : List SegmentInfo)
  | startCommit
  /-- by the thread of one of the commits -/
  | finishCommit (i : Nat)

/-- The loop of `startCommit`. None when it reads the last element of an empty list. -/
def dropTail (dss : String) (toSync : List SegmentInfo) (changeCount : Nat) : Option (List SegmentInfo × Nat) :=
  match hlast : toSync.getLast? with
  | none => none
  | some info =>
      if info.docStoreSegment = "" ∨ info.docStoreSegment ≠ dss then some (toSync, changeCount)
      else dropTail dss toSync.dropLast (changeCount + 1)
termination_by toSync.length
decreasing_by
  cases toSync with
  | nil => cases hlast
  | cons => simp

namespace State

/-- A writer that has been opened. -/
def opened (segmentInfos : List SegmentInfo) (counter changeCount : Nat) : State where
  segmentInfos
  counter
  changeCount
  lastCommitChangeCount := 0
  docWriter := .new
  commits := []

def checkpoint (s : State) : State := { s with changeCount := s.changeCount + 1 }

/-- The counter, when `initSegmentName` may have asked for a name. -/
def countName (s : State) (onlyDocStore : Bool) : Nat :=
  if s.docWriter.needsName onlyDocStore then s.counter + 1 else s.counter

def addDocument (s : State) : State :=
  { s with
    counter := s.countName false
    docWriter := (s.docWriter.getThreadState (segmentName s.counter)).writeDocument }

/-- `IndexWriter::flushDocStores` -/
def flushDocStores (s : State) (compoundDocStore : Bool) : State :=
  let s := { s with docWriter := s.docWriter.closeDocStore }
  if compoundDocStore then s.checkpoint else s

/-- The part of `doFlushInternal` that flushes documents. `docStoreSegment` and `docStoreOffset` are those from before. -/
def flushDocs (s : State) (docStoreSegment : String) (docStoreOffset : Nat) (closing compoundFile : Bool) : State :=
  let info : SegmentInfo :=
    { name := s.docWriter.segment
      -- private doc stores will not be shared with other segments
      docStoreSegment := if docStoreOffset = 0 ∧ closing then "" else docStoreSegment }
  let s := { s with
    docWriter := s.docWriter.flush (segmentName s.counter) closing
    segmentInfos := s.segmentInfos ++ [info] }
  let s := s.checkpoint
  let s := if compoundFile then s.checkpoint else s
  s.checkpoint

/-- `doFlushInternal`, when it does not fail. -/
def doFlush (s : State) (flushDocStores compoundDocStore compoundFile : Bool) : State :=
  let d := s.docWriter
  let closing := flushDocStores && d.docStoreSegment != ""
  -- other segments, besides the one that is flushed, are in the doc store
  let separately := closing && (d.numDocsInRAM == 0 || d.segment != d.docStoreSegment)
  let s := if separately then s.flushDocStores compoundDocStore else s
  if d.numDocsInRAM = 0 then s
  else s.flushDocs d.docStoreSegment d.docStoreOffset (closing && !separately) compoundFile

def commitMerge (s : State) (start count : Nat) (mergeDocStores : Bool) : State :=
  let info : SegmentInfo :=
    { name := segmentName s.counter
      docStoreSegment := if mergeDocStores then "" else (s.segmentInfos[start]?.map SegmentInfo.docStoreSegment).getD "" }
  { s with
    counter := s.counter + 1
    segmentInfos := s.segmentInfos.take start ++ info :: s.segmentInfos.drop (start + count) }.checkpoint

def deleteAll (s : State) : State :=
  { s with docWriter := s.docWriter.abort, segmentInfos := [], changeCount := s.changeCount + 1 }

/-- The part of `startCommit` that holds the lock. -/
def startCommit (s : State) : Option State :=
  if s.changeCount = s.lastCommitChangeCount then some s -- no changes pending
  else if s.docWriter.docStoreSegment = "" then
    some { s with commits := s.commits ++ [⟨s.segmentInfos, s.changeCount⟩] }
  else
    match dropTail s.docWriter.docStoreSegment s.segmentInfos s.changeCount with
    | none => none
    | some (toSync, changeCount) =>
        some { s with changeCount, commits := s.commits ++ [⟨toSync, s.changeCount⟩] }

/-- A commit that is superseded by a newer one does nothing. -/
def finishCommit (s : State) (i : Nat) : State :=
  match s.commits[i]? with
  | none => s
  | some commit =>
      if commit.changeCount ≤ s.lastCommitChangeCount then s
      else { s with lastCommitChangeCount := commit.changeCount }

def step (s : State) : Action → Option State
  | .addDocument => some s.addDocument
  | .doFlush flushDocStores compoundDocStore compoundFile =>
      some (s.doFlush flushDocStores compoundDocStore compoundFile)
  | .abort => some { s with docWriter := s.docWriter.abort }
  | .commitMerge start count mergeDocStores => some (s.commitMerge start count mergeDocStores)
  | .deleteAll => some s.deleteAll
  | .setSegmentInfos segmentInfos => some { s with segmentInfos, changeCount := s.changeCount + 1 }
  | .startCommit => s.startCommit
  | .finishCommit i => some (s.finishCommit i)

end State

/-! ### The loop -/

/-- A segment that is in the doc store that is open. -/
def SharesDocStore (s : State) (info : SegmentInfo) : Prop :=
  s.docWriter.docStoreSegment ≠ "" ∧ info.docStoreSegment = s.docWriter.docStoreSegment

instance (s : State) (info : SegmentInfo) : Decidable (SharesDocStore s info) := inferInstanceAs (Decidable (_ ∧ _))

/-- The segments that a commit is to have: all but the last ones that are in the open doc store. -/
def State.committed (s : State) : List SegmentInfo := s.segmentInfos.rdropWhile fun info => SharesDocStore s info

theorem dropTail_concat (dss : String) (infos : List SegmentInfo) (info : SegmentInfo) (changeCount : Nat) :
    dropTail dss (infos ++ [info]) changeCount =
      if info.docStoreSegment = "" ∨ info.docStoreSegment ≠ dss then some (infos ++ [info], changeCount)
      else dropTail dss infos (changeCount + 1) := by
  rw [dropTail]
  split
  · rename_i hlast
    rw [List.getLast?_concat] at hlast
    cases hlast
  · rename_i info' hlast
    rw [List.getLast?_concat] at hlast
    obtain rfl := Option.some.inj hlast
    rw [List.dropLast_concat]

/-- The loop drops the last segments that are in the doc store, if there is one that is not. -/
theorem dropTail_eq {dss : String} (hdss : dss ≠ "") (infos : List SegmentInfo) (changeCount : Nat) :
    (∃ info ∈ infos, info.docStoreSegment ≠ dss) ∧
        (∃ changeCount', dropTail dss infos changeCount =
          some (infos.rdropWhile fun info => info.docStoreSegment = dss, changeCount')) ∨
      (∀ info ∈ infos, info.docStoreSegment = dss) ∧ dropTail dss infos changeCount = none := by
  induction infos using List.reverseRecOn generalizing changeCount with
  | nil =>
      refine Or.inr ⟨fun _ hmem => absurd hmem List.not_mem_nil, ?_⟩
      rw [dropTail]
      rfl
  | append_singleton infos info ih =>
      rw [dropTail_concat]
      by_cases hshares : info.docStoreSegment = dss
      · rw [if_neg (by rintro (hempty | hne); exacts [hdss (hshares ▸ hempty), hne hshares]),
          List.rdropWhile_concat, if_pos (by simpa using hshares)]
        rcases ih (changeCount + 1) with ⟨⟨other, hmem, hother⟩, hdrop⟩ | ⟨hall, hdrop⟩
        · exact Or.inl ⟨⟨other, List.mem_append_left _ hmem, hother⟩, hdrop⟩
        · refine Or.inr ⟨fun other hmem => ?_, hdrop⟩
          rcases List.mem_append.mp hmem with hmem | hmem
          · exact hall other hmem
          · exact List.mem_singleton.mp hmem ▸ hshares
      · rw [if_pos (Or.inr hshares), List.rdropWhile_concat, if_neg (by simpa using hshares)]
        exact Or.inl ⟨⟨info, List.mem_append_right _ (List.mem_singleton_self _), hshares⟩, changeCount, rfl⟩

/-- The commit has seen a segment that is in no open doc store, when it has a doc store to look for. -/
def Meets (s : State) : Action → Prop
  | .startCommit => s.changeCount = s.lastCommitChangeCount ∨ s.docWriter.docStoreSegment = "" ∨
      ∃ info ∈ s.segmentInfos, info.docStoreSegment ≠ s.docWriter.docStoreSegment
  | _ => True

/-- The commit does not read outside of the list, and drops the last segments that are in the open doc store. -/
def DropsTail (s : State) : Action → Prop
  | .startCommit => s.changeCount ≠ s.lastCommitChangeCount →
      ∃ s', s.startCommit = some s' ∧ s'.commits = s.commits ++ [⟨s.committed, s.changeCount⟩]
  | _ => True

theorem meets_iff_dropsTail (s : State) (action : Action) : Meets s action ↔ DropsTail s action := by
  cases action with
  | startCommit =>
      rw [Meets, DropsTail, State.startCommit, State.committed]
      by_cases hchanges : s.changeCount = s.lastCommitChangeCount
      · exact ⟨fun _ hne => absurd hchanges hne, fun _ => Or.inl hchanges⟩
      · rw [if_neg hchanges]
        by_cases hdss : s.docWriter.docStoreSegment = ""
        · rw [if_pos hdss]
          refine ⟨fun _ _ => ⟨_, rfl, ?_⟩, fun _ => Or.inr (Or.inl hdss)⟩
          rw [List.rdropWhile_eq_self_iff.mpr]
          intro hne hshares
          exact (of_decide_eq_true hshares).1 hdss
        · have hcommitted : (s.segmentInfos.rdropWhile fun info => SharesDocStore s info) =
              s.segmentInfos.rdropWhile fun info => info.docStoreSegment = s.docWriter.docStoreSegment := by
            congr 1
            funext info
            exact decide_eq_decide.mpr (and_iff_right hdss)
          rw [if_neg hdss, hcommitted]
          rcases dropTail_eq hdss s.segmentInfos s.changeCount with ⟨hother, changeCount, hdrop⟩ | ⟨hall, hdrop⟩
          · rw [hdrop]
            exact ⟨fun _ _ => ⟨_, rfl, rfl⟩, fun _ => Or.inr (Or.inr hother)⟩
          · rw [hdrop]
            constructor
            · rintro (h | h | ⟨info, hmem, hne⟩)
              · exact absurd h hchanges
              · exact absurd h hdss
              · exact absurd (hall info hmem) hne
            · intro h
              obtain ⟨s', hnone, -⟩ := h hchanges
              cases hnone
  | _ => exact Iff.rfl

theorem step_of_meets {s : State} {action : Action} (h : Meets s action) : ∃ s', s.step action = some s' := by
  cases action with
  | startCommit =>
      by_cases hchanges : s.changeCount = s.lastCommitChangeCount
      · exact ⟨s, if_pos hchanges⟩
      · obtain ⟨s', hstep, -⟩ := (meets_iff_dropsTail s .startCommit).mp h hchanges
        exact ⟨s', hstep⟩
  | _ => exact ⟨_, rfl⟩

/-- In a run in which each commit sees a segment that is not in the open doc store, every commit syncs all segments but
the last ones that are, and nothing is read outside of a list; and only then. -/
theorem commits_drop_tail_iff (s : State) (actions : List Action) :
    Legal State.step Meets s actions ↔
      Legal State.step DropsTail s actions ∧ ∃ s', run State.step s actions = some s' := by
  constructor
  · intro h
    refine ⟨h.mono fun s action => (meets_iff_dropsTail s action).mp, ?_⟩
    obtain ⟨s', hrun, -⟩ := @legal_run_total _ _ State.step Meets s (fun _ => True)
      (fun s action _ hmeets => (step_of_meets hmeets).imp fun _ hstep => ⟨hstep, trivial⟩) actions trivial h
    exact ⟨s', hrun⟩
  · exact fun h => h.1.mono fun s action => (meets_iff_dropsTail s action).mpr

/-- The segment of the first document, which is in the doc store that is open. -/
def flushed : State :=
  (((State.opened [] 0 0).doFlush true false false).addDocument).doFlush false false false

/-- After a flush that had nothing to do, and before the commit goes on, another thread has flushed the first document
without closing the doc store. -/
theorem commit_reads_outside :
    run State.step (.opened [] 0 0) [.doFlush true false false, .addDocument, .doFlush false false false, .startCommit] = none ∧
      ¬ Legal State.step DropsTail (.opened [] 0 0)
        [.doFlush true false false, .addDocument, .doFlush false false false, .startCommit] := by
  have hdss : flushed.docWriter.docStoreSegment ≠ "" := by decide
  have hchanges : flushed.changeCount ≠ flushed.lastCommitChangeCount := by decide
  have hshares : ∀ info ∈ flushed.segmentInfos, info.docStoreSegment = flushed.docWriter.docStoreSegment := by decide
  have hnone : flushed.startCommit = none := by
    rw [State.startCommit, if_neg hchanges, if_neg hdss]
    rcases dropTail_eq hdss flushed.segmentInfos flushed.changeCount with ⟨⟨info, hmem, hne⟩, -⟩ | ⟨-, hdrop⟩
    · exact absurd (hshares info hmem) hne
    · rw [hdrop]
  constructor
  · change flushed.startCommit.bind some = none
    rw [hnone]
    rfl
  · intro h
    obtain ⟨s', hstep, -⟩ := (((h.2 _ rfl).2 _ rfl).2 flushed rfl).1 hchanges
    rw [hnone] at hstep
    cases hstep

end LucenePlusPlus.StartCommit
