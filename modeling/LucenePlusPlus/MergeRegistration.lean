import LucenePlusPlus.Holding
import LucenePlusPlus.IndexFileNames
import LucenePlusPlus.Runs

/-!
How `IndexWriter` keeps merges apart. A merge is registered, taken from the pending merges by the thread that
runs it, initialised, and finished; meanwhile its segments, and the segment that it writes, are in
`mergingSegments`. Each step here holds the lock of the writer.

What a merge does besides, as committing what it has merged, changes the segments of the writer only, and so do
flushes and rollbacks: they can make `segmentInfos` any list whose segments in the directory of the writer have
names that `newSegmentName` gave. A failure is one that `mergeInit` catches.
-/

namespace LucenePlusPlus.MergeRegistration

/-- What `equals` compares. -/
structure SegmentInfo (Dir : Type) where
  dir : Dir
  name : String
  deriving DecidableEq

/-- `segments` are never empty: the constructor raises an exception. `info` is the merged segment. -/
structure OneMerge (Dir : Type) where
  segments : List (SegmentInfo Dir)
  segments_ne : segments ≠ []
  info : Option (SegmentInfo Dir) := none
  optimize : Bool := false
  maxNumSegmentsOptimize : Nat := 0
  registerDone : Bool := false
  isExternal : Bool := false
  aborted : Bool := false

/-- `merges` are all objects that there are or will be. How often a merge has been registered and removed again
is only counted here. -/
structure State (Dir Merge : Type) where
  segmentInfos : List (SegmentInfo Dir)
  counter : Nat
  segmentsToOptimize : Finset (SegmentInfo Dir)
  optimizeMaxNumSegments : Nat
  pendingMerges : List Merge
  runningMerges : Finset Merge
  mergingSegments : Finset (SegmentInfo Dir)
  stopMerges : Bool
  merges : Merge → OneMerge Dir
  registered : Merge → Nat
  finished : Merge → Nat

inductive Error where
  | mergeAborted
  | notInIndex
  | nonContiguous

variable {Dir Merge : Type} [DecidableEq Dir] [DecidableEq Merge]

def segmentName (counter : Nat) : String := "_" ++ StringUtils.toBaseString counter

/-- What `mergeFinish` leaves of `mergingSegments`. -/
def OneMerge.removeFrom (merge : OneMerge Dir) (mergingSegments : Finset (SegmentInfo Dir)) :
    Finset (SegmentInfo Dir) :=
  let infos := merge.segments.foldl Finset.erase mergingSegments
  merge.info.elim infos infos.erase

namespace State

def setMerge (s : State Dir Merge) (m : Merge) (merge : OneMerge Dir) : State Dir Merge :=
  { s with merges := Function.update s.merges m merge }

def abort (s : State Dir Merge) (m : Merge) : State Dir Merge :=
  s.setMerge m { s.merges m with aborted := true }

/-- The first segment of the merge in the index, when the others follow it. -/
def ensureContiguousMerge (s : State Dir Merge) (merge : OneMerge Dir) : Except Error Nat :=
  let first := s.segmentInfos.idxOf (merge.segments.head merge.segments_ne)
  if merge.segments.isPrefixOf (s.segmentInfos.drop first) then .ok first
  else if ∀ info ∈ merge.segments, info ∈ s.segmentInfos then .error .nonContiguous
  else .error .notInIndex

/-- The loop of `registerMerge`: whether it goes through, the merge then, and whether it is external. -/
def checkSegments (s : State Dir Merge) (directory : Dir) :
    List (SegmentInfo Dir) → OneMerge Dir → Bool → Bool × OneMerge Dir × Bool
  | [], merge, isExternal => (true, merge, isExternal)
  | info :: infos, merge, isExternal =>
      if info ∈ s.mergingSegments then (false, merge, isExternal)
      else if info ∉ s.segmentInfos then (false, merge, isExternal)
      else
        s.checkSegments directory infos
          (if info ∈ s.segmentsToOptimize then
            { merge with optimize := true, maxNumSegmentsOptimize := s.optimizeMaxNumSegments }
          else merge)
          (isExternal || info.dir ≠ directory)

def registerMerge (s : State Dir Merge) (directory : Dir) (m : Merge) :
    Except Error Bool × State Dir Merge :=
  if (s.merges m).registerDone then (.ok true, s)
  else if s.stopMerges then (.error .mergeAborted, s.abort m)
  else
    match s.checkSegments directory (s.merges m).segments (s.merges m) false with
    | (false, merge, _) => (.ok false, s.setMerge m merge)
    | (true, merge, isExternal) =>
        match s.ensureContiguousMerge merge with
        | .error e => (.error e, s.setMerge m merge)
        | .ok _ =>
            (.ok true,
              { s.setMerge m { merge with isExternal, registerDone := true } with
                pendingMerges := s.pendingMerges ++ [m]
                mergingSegments := merge.segments.foldl (fun infos info => insert info infos) s.mergingSegments
                registered := Function.update s.registered m (s.registered m + 1) })

/-- The merge goes from pending to running. -/
def advance (s : State Dir Merge) (m : Merge) : State Dir Merge :=
  { s with pendingMerges := s.pendingMerges.erase m, runningMerges := insert m s.runningMerges }

def getNextMerge (s : State Dir Merge) : Option Merge × State Dir Merge :=
  match s.pendingMerges with
  | [] => (none, s)
  | m :: _ => (some m, s.advance m)

def getNextExternalMerge (s : State Dir Merge) : Option Merge × State Dir Merge :=
  match s.pendingMerges.find? fun m => (s.merges m).isExternal with
  | none => (none, s)
  | some m => (some m, s.advance m)

def mergeFinish (s : State Dir Merge) (m : Merge) : State Dir Merge :=
  if (s.merges m).registerDone then
    { s.setMerge m { s.merges m with registerDone := false } with
      mergingSegments := (s.merges m).removeFrom s.mergingSegments
      runningMerges := s.runningMerges.erase m
      finished := Function.update s.finished m (s.finished m + 1) }
  else { s with runningMerges := s.runningMerges.erase m }

/-- `_mergeInit` `raises` an exception before it makes the merged segment, or it does not. -/
def mergeInit (s : State Dir Merge) (directory : Dir) (m : Merge) (raises : Bool) : State Dir Merge :=
  if raises then s.mergeFinish m
  else if (s.merges m).info.isSome || (s.merges m).aborted then s
  else
    { s.setMerge m { s.merges m with info := some ⟨directory, segmentName s.counter⟩ } with
      counter := s.counter + 1
      mergingSegments := insert ⟨directory, segmentName s.counter⟩ s.mergingSegments }

/-- `finishMerges(false)` up to where it waits for the running merges. -/
def abortMerges (s : State Dir Merge) : State Dir Merge :=
  let s' := s.pendingMerges.foldl (fun s m => (s.abort m).mergeFinish m) { s with stopMerges := true }
  { s' with
    pendingMerges := []
    merges := fun m =>
      { s'.merges m with aborted := (s'.merges m).aborted || decide (m ∈ s'.runningMerges) } }

end State

/-- A thread that resolves external segments registers a merge and takes it at once: `registerMerge`, and
`takeMerge`. -/
inductive Op (Dir Merge : Type) where
  | registerMerge (m : Merge)
  | getNextMerge
  | getNextExternalMerge
  | takeMerge (m : Merge)
  | mergeInit (m : Merge) (raises : Bool)
  | mergeFinish (m : Merge)
  | abort (m : Merge)
  | finishMerges
  | finishedMerges
  | newSegmentName
  | setSegmentInfos (infos : List (SegmentInfo Dir))
  | setSegmentsToOptimize (infos : Finset (SegmentInfo Dir)) (maxNumSegments : Nat)

/-- `finishedMerges` is the end of `finishMerges`, when it has waited. -/
def step (directory : Dir) (s : State Dir Merge) : Op Dir Merge → Option (State Dir Merge)
  | .registerMerge m => some (s.registerMerge directory m).2
  | .getNextMerge => some s.getNextMerge.2
  | .getNextExternalMerge => some s.getNextExternalMerge.2
  | .takeMerge m => if m ∈ s.pendingMerges then some (s.advance m) else none
  | .mergeInit m raises => some (s.mergeInit directory m raises)
  | .mergeFinish m => some (s.mergeFinish m)
  | .abort m => some (s.abort m)
  | .finishMerges => some s.abortMerges
  | .finishedMerges => if s.runningMerges = ∅ then some { s with stopMerges := false } else none
  | .newSegmentName => some { s with counter := s.counter + 1 }
  | .setSegmentInfos infos => some { s with segmentInfos := infos }
  | .setSegmentsToOptimize infos maxNumSegments =>
      some { s with segmentsToOptimize := infos, optimizeMaxNumSegments := maxNumSegments }

/-- The segment is of another directory, or its name has been given. -/
def Named (directory : Dir) (counter : Nat) (info : SegmentInfo Dir) : Prop :=
  info.dir = directory → ∃ n < counter, info.name = segmentName n

/-- What callers keep to: merges that are registered are new objects, those that are initialised have been taken
and are still running, and a merge is finished by who has taken it. -/
def Legal (directory : Dir) (s : State Dir Merge) : Op Dir Merge → Prop
  | .registerMerge m => s.registered m = 0 ∨ (s.merges m).registerDone = true
  | .mergeInit m _ => m ∈ s.runningMerges
  | .mergeFinish m => m ∉ s.pendingMerges
  | .setSegmentInfos infos => ∀ info ∈ infos, Named directory s.counter info
  | _ => True

instance (directory : Dir) (counter : Nat) (info : SegmentInfo Dir) : Decidable (Named directory counter info) := by
  unfold Named
  infer_instance

instance (directory : Dir) (s : State Dir Merge) (op : Op Dir Merge) : Decidable (Legal directory s op) := by
  cases op <;> unfold Legal <;> infer_instance

def init (segmentInfos : List (SegmentInfo Dir)) (counter : Nat)
    (segments : Merge → { infos : List (SegmentInfo Dir) // infos ≠ [] }) : State Dir Merge where
  segmentInfos
  counter
  segmentsToOptimize := ∅
  optimizeMaxNumSegments := 0
  pendingMerges := []
  runningMerges := ∅
  mergingSegments := ∅
  stopMerges := false
  merges m := { segments := (segments m).1, segments_ne := (segments m).2 }
  registered _ := 0
  finished _ := 0

/-- The segments of a merge, with the merged one as soon as there is one. -/
def OneMerge.allSegments (merge : OneMerge Dir) : Finset (SegmentInfo Dir) :=
  (merge.segments ++ merge.info.toList).toFinset

/-- Merges that are pending or running have no segment in common, and `mergingSegments` are all their segments;
each merge that has been registered, and is neither pending nor running, has been removed once. -/
structure Exclusive (s : State Dir Merge) : Prop where
  disjoint : ∀ m m', m ∈ s.pendingMerges ∨ m ∈ s.runningMerges →
    m' ∈ s.pendingMerges ∨ m' ∈ s.runningMerges → m ≠ m' →
    Disjoint (s.merges m).allSegments (s.merges m').allSegments
  mergingSegments : ∀ info, info ∈ s.mergingSegments ↔
    ∃ m, (m ∈ s.pendingMerges ∨ m ∈ s.runningMerges) ∧ info ∈ (s.merges m).allSegments
  registerDone : ∀ m, (s.merges m).registerDone = true ↔ m ∈ s.pendingMerges ∨ m ∈ s.runningMerges
  removed : ∀ m, s.registered m ≤ 1 ∧
    s.registered m = s.finished m + if m ∈ s.pendingMerges ∨ m ∈ s.runningMerges then 1 else 0
  empty : s.pendingMerges = [] → s.runningMerges = ∅ → s.mergingSegments = ∅

/-! ### The invariant -/

namespace State

/-- The segments that are in `mergingSegments` because of a merge. -/
def shares (s : State Dir Merge) (m : Merge) : Finset (SegmentInfo Dir) :=
  if (s.merges m).registerDone then (s.merges m).allSegments else ∅

end State

/-- Where `pending` are the merges that are pending, or still to be gone through when all of them are aborted. -/
structure Inv (directory : Dir) (pending : List Merge) (s : State Dir Merge) : Prop where
  registerDone : ∀ m, (s.merges m).registerDone = true ↔ m ∈ pending ∨ m ∈ s.runningMerges
  nodup : pending.Nodup
  notBoth : ∀ m ∈ pending, m ∉ s.runningMerges
  shares : Shares s.mergingSegments s.shares
  removed : ∀ m, s.registered m = s.finished m + (s.merges m).registerDone.toNat
  once : ∀ m, s.registered m ≤ 1
  info : ∀ m, s.registered m = 0 → (s.merges m).info = none
  named : ∀ info, info ∈ s.segmentInfos ∨ info ∈ s.mergingSegments → Named directory s.counter info

variable {directory : Dir} {s s' : State Dir Merge} {m m' : Merge} {pending : List Merge}
  {info : SegmentInfo Dir}

namespace State

omit [DecidableEq Dir] in
@[simp] theorem setMerge_merges (merge : OneMerge Dir) :
    (s.setMerge m merge).merges = Function.update s.merges m merge := rfl

@[simp] theorem setMerge_shares {merge : OneMerge Dir} :
    (s.setMerge m merge).shares =
      Function.update s.shares m (if merge.registerDone then merge.allSegments else ∅) := by
  funext m'
  unfold shares
  by_cases heq : m' = m
  · rw [heq, setMerge_merges, Function.update_self, Function.update_self]
  · rw [setMerge_merges, Function.update_of_ne heq, Function.update_of_ne heq]

end State

theorem OneMerge.mem_allSegments {merge : OneMerge Dir} :
    info ∈ merge.allSegments ↔ info ∈ merge.segments ∨ merge.info = some info := by
  rw [allSegments, List.mem_toFinset, List.mem_append, Option.mem_toList]

omit [DecidableEq Dir] in
theorem segmentName_injective {n n' : Nat} (h : segmentName n = segmentName n') : n = n' := by
  have hbase : StringUtils.toBaseString n = StringUtils.toBaseString n' := by
    have hlist := congrArg String.toList h
    simp only [segmentName, String.toList_append, List.append_cancel_left_eq] at hlist
    exact String.toList_inj.mp hlist
  have := congrArg StringUtils.toLong hbase
  rw [StringUtils.toLong_toBaseString, StringUtils.toLong_toBaseString] at this
  omega

omit [DecidableEq Dir] in
theorem Named.ne {counter : Nat} (h : Named directory counter info) :
    info ≠ ⟨directory, segmentName counter⟩ := by
  rintro rfl
  obtain ⟨n, hn, hname⟩ := h rfl
  exact Nat.ne_of_gt hn (segmentName_injective hname)

omit [DecidableEq Dir] in
theorem Named.mono {counter counter' : Nat} (h : Named directory counter info)
    (hle : counter ≤ counter') : Named directory counter' info := by
  intro hdir
  obtain ⟨n, hn, hname⟩ := h hdir
  exact ⟨n, hn.trans_le hle, hname⟩

theorem foldl_insert_eq (infos : List (SegmentInfo Dir)) (held : Finset (SegmentInfo Dir)) :
    infos.foldl (fun infos info => insert info infos) held = held ∪ infos.toFinset := by
  induction infos generalizing held with
  | nil => rw [List.foldl_nil, List.toFinset_nil, Finset.union_empty]
  | cons info infos ih =>
      rw [List.foldl_cons, ih, List.toFinset_cons, Finset.insert_union, Finset.union_insert]

theorem foldl_erase_eq (infos : List (SegmentInfo Dir)) (held : Finset (SegmentInfo Dir)) :
    infos.foldl Finset.erase held = held \ infos.toFinset := by
  induction infos generalizing held with
  | nil => rw [List.foldl_nil, List.toFinset_nil, Finset.sdiff_empty]
  | cons info infos ih =>
      rw [List.foldl_cons, ih, List.toFinset_cons, Finset.sdiff_insert, Finset.erase_sdiff_comm]

theorem OneMerge.removeFrom_eq (merge : OneMerge Dir) (held : Finset (SegmentInfo Dir)) :
    merge.removeFrom held = held \ merge.allSegments := by
  ext info
  unfold removeFrom
  rw [Finset.mem_sdiff, mem_allSegments, foldl_erase_eq]
  cases hinfo : merge.info with
  | none => simp
  | some merged =>
      rw [Option.elim_some, Finset.mem_erase, Finset.mem_sdiff, List.mem_toFinset, Option.some.injEq, not_or,
        ne_comm (a := info)]
      exact and_rotate

omit [DecidableEq Merge] in
theorem Inv.congr (h : Inv directory pending s) (hrunning : s'.runningMerges = s.runningMerges)
    (hmerging : s'.mergingSegments = s.mergingSegments) (hregistered : s'.registered = s.registered)
    (hfinished : s'.finished = s.finished) (hinfos : s'.segmentInfos = s.segmentInfos)
    (hcounter : s'.counter = s.counter)
    (hmerges : ∀ m, (s'.merges m).registerDone = (s.merges m).registerDone ∧
      (s'.merges m).info = (s.merges m).info ∧ (s'.merges m).segments = (s.merges m).segments) :
    Inv directory pending s' := by
  have hshares : s'.shares = s.shares := by
    funext m
    obtain ⟨hdone, hinfo, hsegments⟩ := hmerges m
    unfold State.shares OneMerge.allSegments
    rw [hdone, hinfo, hsegments]
  constructor
  · intro m
    rw [(hmerges m).1, hrunning, h.registerDone]
  · exact h.nodup
  · rw [hrunning]
    exact h.notBoth
  · rw [hmerging, hshares]
    exact h.shares
  · intro m
    rw [hregistered, hfinished, (hmerges m).1, h.removed]
  · rw [hregistered]
    exact h.once
  · intro m
    rw [hregistered, (hmerges m).2.1]
    exact h.info m
  · rw [hinfos, hmerging, hcounter]
    exact h.named

theorem Inv.setMerge (h : Inv directory pending s) {merge : OneMerge Dir}
    (hdone : merge.registerDone = (s.merges m).registerDone) (hinfo : merge.info = (s.merges m).info)
    (hsegments : merge.segments = (s.merges m).segments) : Inv directory pending (s.setMerge m merge) := by
  refine h.congr rfl rfl rfl rfl rfl rfl fun m' => ?_
  by_cases heq : m' = m
  · rw [State.setMerge_merges, heq, Function.update_self]
    exact ⟨hdone, hinfo, hsegments⟩
  · rw [State.setMerge_merges, Function.update_of_ne heq]
    exact ⟨rfl, rfl, rfl⟩

theorem Inv.abort (h : Inv directory pending s) : Inv directory pending (s.abort m) :=
  h.setMerge rfl rfl rfl

/-- A merge that goes from the pending ones to the running ones, or is gone through. -/
theorem Inv.advance (h : Inv directory s.pendingMerges s) (hm : m ∈ s.pendingMerges) :
    Inv directory (s.advance m).pendingMerges (s.advance m) where
  registerDone m' := by
    show _ ↔ m' ∈ s.pendingMerges.erase m ∨ m' ∈ insert m s.runningMerges
    rw [h.nodup.mem_erase_iff, Finset.mem_insert]
    refine (h.registerDone m').trans ?_
    by_cases heq : m' = m
    · simp [heq, hm]
    · simp [heq]
  nodup := h.nodup.erase m
  notBoth m' hm' := by
    obtain ⟨hne, hpending⟩ := h.nodup.mem_erase_iff.mp hm'
    show m' ∉ insert m s.runningMerges
    rw [Finset.mem_insert]
    exact not_or.mpr ⟨hne, h.notBoth m' hpending⟩
  shares := h.shares
  removed := h.removed
  once := h.once
  info := h.info
  named := h.named

theorem Inv.mergeFinish {pending' : List Merge} (h : Inv directory pending s) (hm : m ∉ pending')
    (hothers : ∀ m', m' ≠ m → (m' ∈ pending' ↔ m' ∈ pending)) (hnodup : pending'.Nodup) :
    Inv directory pending' (s.mergeFinish m) := by
  have hrunning : (s.mergeFinish m).runningMerges = s.runningMerges.erase m := by
    unfold State.mergeFinish
    split <;> rfl
  have hnotBoth : ∀ m' ∈ pending', m' ∉ (s.mergeFinish m).runningMerges := by
    intro m' hm'
    have hne : m' ≠ m := fun heq => hm (heq ▸ hm')
    rw [hrunning, Finset.mem_erase]
    exact fun hmem => h.notBoth m' ((hothers m' hne).mp hm') hmem.2
  have hiff : ∀ m', m' ≠ m → ((s.merges m').registerDone = true ↔
      m' ∈ pending' ∨ m' ∈ (s.mergeFinish m).runningMerges) := by
    intro m' hne
    rw [h.registerDone, hothers m' hne, hrunning, Finset.mem_erase]
    simp [hne]
  have hnot : ¬ (m ∈ pending' ∨ m ∈ (s.mergeFinish m).runningMerges) := by
    rw [hrunning]
    exact not_or.mpr ⟨hm, Finset.notMem_erase _ _⟩
  by_cases hdone : (s.merges m).registerDone = true
  · have heq : s.mergeFinish m =
        { s.setMerge m { s.merges m with registerDone := false } with
          mergingSegments := s.mergingSegments \ (s.merges m).allSegments
          runningMerges := s.runningMerges.erase m
          finished := Function.update s.finished m (s.finished m + 1) } := by
      unfold State.mergeFinish
      rw [if_pos hdone, OneMerge.removeFrom_eq]
    have hshare : s.shares m = (s.merges m).allSegments := if_pos hdone
    rw [heq] at hiff hnot hnotBoth ⊢
    refine ⟨fun m' => ?_, hnodup, hnotBoth, ?_, fun m' => ?_, h.once, fun m' hm' => ?_, fun info hinfo => ?_⟩
    · by_cases hmm : m' = m
      · rw [hmm]
        refine iff_of_false ?_ hnot
        simp
      · rw [← hiff m' hmm]
        simp [Function.update_of_ne hmm]
    · have := h.shares.release (t := m)
      rw [hshare] at this
      exact State.setMerge_shares (s := s) ▸ this
    · have := h.removed m'
      by_cases hmm : m' = m
      · rw [hmm] at this ⊢
        simp [hdone] at this ⊢
        exact this
      · simp [Function.update_of_ne hmm]
        exact this
    · by_cases hmm : m' = m
      · rw [hmm] at hm' ⊢
        simp only [State.setMerge_merges, Function.update_self]
        exact h.info m hm'
      · simp only [State.setMerge_merges, Function.update_of_ne hmm]
        exact h.info m' hm'
    · exact h.named info (hinfo.imp_right fun hmem => (Finset.mem_sdiff.mp hmem).1)
  · have heq : s.mergeFinish m = { s with runningMerges := s.runningMerges.erase m } := by
      unfold State.mergeFinish
      rw [if_neg hdone]
    rw [heq] at hiff hnot hnotBoth ⊢
    refine ⟨fun m' => ?_, hnodup, hnotBoth, h.shares, h.removed, h.once, h.info, h.named⟩
    by_cases hmm : m' = m
    · rw [hmm]
      exact iff_of_false hdone hnot
    · exact hiff m' hmm

omit [DecidableEq Merge] in
theorem checkSegments_merge (infos : List (SegmentInfo Dir)) (merge : OneMerge Dir) (isExternal : Bool) :
    (s.checkSegments directory infos merge isExternal).2.1.segments = merge.segments ∧
      (s.checkSegments directory infos merge isExternal).2.1.info = merge.info ∧
      (s.checkSegments directory infos merge isExternal).2.1.registerDone = merge.registerDone := by
  induction infos generalizing merge isExternal with
  | nil => exact ⟨rfl, rfl, rfl⟩
  | cons info infos ih =>
      unfold State.checkSegments
      split
      · exact ⟨rfl, rfl, rfl⟩
      · split
        · exact ⟨rfl, rfl, rfl⟩
        · obtain ⟨hsegments, hinfo, hdone⟩ := ih (if info ∈ s.segmentsToOptimize then
            { merge with optimize := true, maxNumSegmentsOptimize := s.optimizeMaxNumSegments }
            else merge) (isExternal || info.dir ≠ directory)
          rw [hsegments, hinfo, hdone]
          split <;> exact ⟨rfl, rfl, rfl⟩

omit [DecidableEq Merge] in
theorem checkSegments_free {infos : List (SegmentInfo Dir)} {merge : OneMerge Dir} {isExternal : Bool}
    (h : (s.checkSegments directory infos merge isExternal).1 = true) :
    ∀ info ∈ infos, info ∉ s.mergingSegments ∧ info ∈ s.segmentInfos := by
  induction infos generalizing merge isExternal with
  | nil => nofun
  | cons info infos ih =>
      unfold State.checkSegments at h
      split at h
      · cases h
      · rename_i hfree
        split at h
        · cases h
        · rename_i hmem
          intro info' hinfo'
          rcases List.mem_cons.mp hinfo' with rfl | htail
          · exact ⟨hfree, not_not.mp hmem⟩
          · exact ih h info' htail

theorem Inv.register (h : Inv directory pending s) {merge : OneMerge Dir} (hnew : s.registered m = 0)
    (hdone : merge.registerDone = true) (hinfo : merge.info = none)
    (hfree : ∀ info ∈ merge.segments, info ∉ s.mergingSegments ∧ info ∈ s.segmentInfos) :
    Inv directory (pending ++ [m])
      { s.setMerge m merge with
        pendingMerges := pending ++ [m]
        mergingSegments := merge.segments.foldl (fun infos info => insert info infos) s.mergingSegments
        registered := Function.update s.registered m (s.registered m + 1) } := by
  have hzero := h.removed m
  rw [hnew] at hzero
  have hundone : (s.merges m).registerDone = false := by
    cases hreg : (s.merges m).registerDone with
    | false => rfl
    | true => simp [hreg] at hzero
  have hnot : ¬ (m ∈ pending ∨ m ∈ s.runningMerges) := fun hmem =>
    Bool.false_ne_true (hundone.symm.trans ((h.registerDone m).mpr hmem))
  have hshare : s.shares m = ∅ := if_neg (Bool.not_eq_true _ ▸ hundone)
  have hall : merge.allSegments = merge.segments.toFinset := by
    unfold OneMerge.allSegments
    rw [hinfo, Option.toList_none, List.append_nil]
  refine ⟨fun m' => ?_, ?_, ?_, ?_, fun m' => ?_, fun m' => ?_, fun m' hm' => ?_, fun info hmem => ?_⟩
  · show (Function.update s.merges m merge m').registerDone = true ↔ m' ∈ pending ++ [m] ∨ m' ∈ s.runningMerges
    rw [List.mem_append, List.mem_singleton]
    by_cases hmm : m' = m
    · rw [hmm, Function.update_self]
      exact iff_of_true hdone (Or.inl (Or.inr rfl))
    · rw [Function.update_of_ne hmm, h.registerDone]
      simp [hmm]
  · exact List.Nodup.append h.nodup (List.nodup_singleton m)
      (List.disjoint_singleton.mpr fun hmem => hnot (Or.inl hmem))
  · intro m' hm'
    rcases List.mem_append.mp hm' with hpending | hlast
    · exact h.notBoth m' hpending
    · rw [List.mem_singleton.mp hlast]
      exact fun hmem => hnot (Or.inr hmem)
  · have htake := h.shares.take (t := m) fun info hmem =>
      (hfree info (List.mem_toFinset.mp hmem)).1
    have hshares : (s.setMerge m merge).shares = Function.update s.shares m merge.segments.toFinset := by
      rw [State.setMerge_shares, if_pos hdone, hall]
    rw [hshare, Finset.empty_union, ← hshares, ← foldl_insert_eq] at htake
    exact htake
  · show Function.update s.registered m (s.registered m + 1) m' =
      s.finished m' + (Function.update s.merges m merge m').registerDone.toNat
    by_cases hmm : m' = m
    · rw [hmm, Function.update_self, Function.update_self, hdone, hnew]
      rw [hundone] at hzero
      exact congrArg (· + 1) hzero
    · rw [Function.update_of_ne hmm, Function.update_of_ne hmm]
      exact h.removed m'
  · show Function.update s.registered m (s.registered m + 1) m' ≤ 1
    by_cases hmm : m' = m
    · rw [hmm, Function.update_self, hnew]
    · rw [Function.update_of_ne hmm]
      exact h.once m'
  · have hm' : Function.update s.registered m (s.registered m + 1) m' = 0 := hm'
    by_cases hmm : m' = m
    · rw [hmm, Function.update_self] at hm'
      exact absurd hm' (Nat.succ_ne_zero _)
    · rw [Function.update_of_ne hmm] at hm'
      show (Function.update s.merges m merge m').info = none
      rw [Function.update_of_ne hmm]
      exact h.info m' hm'
  · rcases hmem with hinfos | hmerging
    · exact h.named info (Or.inl hinfos)
    · rw [foldl_insert_eq] at hmerging
      rcases Finset.mem_union.mp hmerging with hold | hsegment
      · exact h.named info (Or.inr hold)
      · exact h.named info (Or.inl (hfree info (List.mem_toFinset.mp hsegment)).2)

theorem Inv.registerMerge (h : Inv directory s.pendingMerges s)
    (hlegal : s.registered m = 0 ∨ (s.merges m).registerDone = true) :
    Inv directory (s.registerMerge directory m).2.pendingMerges (s.registerMerge directory m).2 := by
  unfold State.registerMerge
  by_cases hdone : (s.merges m).registerDone = true
  · rw [if_pos hdone]
    exact h
  · rw [if_neg hdone]
    by_cases hstop : s.stopMerges = true
    · rw [if_pos hstop]
      exact h.abort
    · rw [if_neg hstop]
      obtain ⟨hsegments, hinfo, hundone⟩ :=
        checkSegments_merge (s := s) (s.merges m).segments (s.merges m) false
      have hfree := @checkSegments_free _ _ _ directory s (s.merges m).segments (s.merges m) false
      split
      · rename_i hcheck
        rw [hcheck] at hsegments hinfo hundone
        exact h.setMerge hundone hinfo hsegments
      · rename_i merge isExternal hcheck
        rw [hcheck] at hsegments hinfo hundone hfree
        have hnew := hlegal.resolve_right hdone
        split
        · exact h.setMerge hundone hinfo hsegments
        · refine h.register hnew rfl (hinfo.trans (h.info m hnew)) fun info hmem => hfree rfl info ?_
          rwa [← hsegments]

omit [DecidableEq Merge] in
theorem newSegment_free (h : Inv directory pending s) :
    (⟨directory, segmentName s.counter⟩ : SegmentInfo Dir) ∉ s.mergingSegments := fun hmem =>
  (h.named _ (Or.inr hmem)).ne rfl

theorem Inv.addInfo (h : Inv directory pending s) (hm : m ∈ s.runningMerges)
    (hnone : (s.merges m).info = none) :
    Inv directory pending
      { s.setMerge m { s.merges m with info := some ⟨directory, segmentName s.counter⟩ } with
        counter := s.counter + 1
        mergingSegments := insert ⟨directory, segmentName s.counter⟩ s.mergingSegments } := by
  have hdone : (s.merges m).registerDone = true := (h.registerDone m).mpr (Or.inr hm)
  have hsame : ∀ m', (Function.update s.merges m
      { s.merges m with info := some ⟨directory, segmentName s.counter⟩ } m').registerDone =
        (s.merges m').registerDone := by
    intro m'
    by_cases hmm : m' = m
    · rw [hmm, Function.update_self]
    · rw [Function.update_of_ne hmm]
  refine ⟨fun m' => ?_, h.nodup, h.notBoth, ?_, fun m' => ?_, h.once, fun m' hm' => ?_, fun info hmem => ?_⟩
  · rw [State.setMerge_merges, hsame]
    exact h.registerDone m'
  · have htake := h.shares.take (t := m) fun info hmem =>
      Finset.mem_singleton.mp hmem ▸ newSegment_free h
    have hshares : (s.setMerge m { s.merges m with info := some ⟨directory, segmentName s.counter⟩ }).shares =
        Function.update s.shares m (s.shares m ∪ {⟨directory, segmentName s.counter⟩}) := by
      rw [State.setMerge_shares, if_pos hdone]
      unfold State.shares OneMerge.allSegments
      rw [if_pos hdone, hnone, Option.toList_none, List.append_nil, Option.toList_some, List.toFinset_append]
      rfl
    rw [← hshares, Finset.union_comm, ← Finset.insert_eq] at htake
    exact htake
  · rw [State.setMerge_merges, hsame]
    exact h.removed m'
  · have hzero : s.registered m' = 0 := hm'
    have hmm : m' ≠ m := by
      rintro rfl
      have hremoved := h.removed m'
      rw [hzero, hdone] at hremoved
      exact absurd hremoved.symm (Nat.succ_ne_zero _)
    rw [State.setMerge_merges, Function.update_of_ne hmm]
    exact h.info m' hzero
  · rcases hmem with hinfos | hmerging
    · exact (h.named info (Or.inl hinfos)).mono (Nat.le_succ _)
    · rcases Finset.mem_insert.mp hmerging with rfl | hold
      · exact fun _ => ⟨s.counter, Nat.lt_succ_self _, rfl⟩
      · exact (h.named info (Or.inr hold)).mono (Nat.le_succ _)

@[simp] theorem mergeFinish_pendingMerges : (s.mergeFinish m).pendingMerges = s.pendingMerges := by
  unfold State.mergeFinish
  split <;> rfl

theorem Inv.mergeInit (h : Inv directory s.pendingMerges s) {raises : Bool} (hm : m ∈ s.runningMerges) :
    Inv directory (s.mergeInit directory m raises).pendingMerges (s.mergeInit directory m raises) := by
  unfold State.mergeInit
  split
  · rw [mergeFinish_pendingMerges]
    exact h.mergeFinish (fun hpending => h.notBoth m hpending hm) (fun _ _ => Iff.rfl) h.nodup
  · split
    · exact h
    · rename_i hinfo
      rw [Bool.or_eq_true, not_or, Option.not_isSome_iff_eq_none] at hinfo
      exact h.addInfo hm hinfo.1

theorem Inv.finishPending (h : Inv directory pending s) :
    Inv directory [] (pending.foldl (fun s m => (s.abort m).mergeFinish m) s) := by
  induction pending generalizing s with
  | nil => exact h
  | cons m pending ih =>
      obtain ⟨hm, hnodup⟩ := List.nodup_cons.mp h.nodup
      refine ih (h.abort.mergeFinish hm (fun m' hne => ?_) hnodup)
      rw [List.mem_cons, or_iff_right hne]

theorem Inv.abortMerges (h : Inv directory s.pendingMerges s) :
    Inv directory s.abortMerges.pendingMerges s.abortMerges := by
  have hstopped : Inv directory s.pendingMerges { s with stopMerges := true } :=
    h.congr rfl rfl rfl rfl rfl rfl fun _ => ⟨rfl, rfl, rfl⟩
  exact hstopped.finishPending.congr rfl rfl rfl rfl rfl rfl fun _ => ⟨rfl, rfl, rfl⟩

theorem Inv.getNextMerge (h : Inv directory s.pendingMerges s) :
    Inv directory s.getNextMerge.2.pendingMerges s.getNextMerge.2 := by
  unfold State.getNextMerge
  split
  · exact h
  · rename_i hpending
    exact h.advance (hpending ▸ List.mem_cons_self)

theorem Inv.getNextExternalMerge (h : Inv directory s.pendingMerges s) :
    Inv directory s.getNextExternalMerge.2.pendingMerges s.getNextExternalMerge.2 := by
  unfold State.getNextExternalMerge
  split
  · exact h
  · rename_i hfind
    exact h.advance (List.mem_of_find?_eq_some hfind)

theorem inv_step {op : Op Dir Merge} (h : Inv directory s.pendingMerges s) (hlegal : Legal directory s op)
    (hstep : step directory s op = some s') : Inv directory s'.pendingMerges s' := by
  cases op with
  | registerMerge m =>
      cases hstep
      exact h.registerMerge hlegal
  | getNextMerge =>
      cases hstep
      exact h.getNextMerge
  | getNextExternalMerge =>
      cases hstep
      exact h.getNextExternalMerge
  | takeMerge m =>
      simp only [step] at hstep
      split at hstep
      · rename_i hm
        cases hstep
        exact h.advance hm
      · cases hstep
  | mergeInit m raises =>
      cases hstep
      exact h.mergeInit hlegal
  | mergeFinish m =>
      cases hstep
      rw [mergeFinish_pendingMerges]
      exact h.mergeFinish hlegal (fun _ _ => Iff.rfl) h.nodup
  | abort m =>
      cases hstep
      exact h.abort
  | finishMerges =>
      cases hstep
      exact h.abortMerges
  | finishedMerges =>
      simp only [step] at hstep
      split at hstep
      · cases hstep
        exact h.congr rfl rfl rfl rfl rfl rfl fun _ => ⟨rfl, rfl, rfl⟩
      · cases hstep
  | newSegmentName =>
      cases hstep
      exact { h with named := fun info hmem => (h.named info hmem).mono (Nat.le_succ _) }
  | setSegmentInfos infos =>
      cases hstep
      exact { h with named := fun info hmem => hmem.elim (hlegal info) fun hold => h.named info (Or.inr hold) }
  | setSegmentsToOptimize infos maxNumSegments =>
      cases hstep
      exact h.congr rfl rfl rfl rfl rfl rfl fun _ => ⟨rfl, rfl, rfl⟩

omit [DecidableEq Merge] in
theorem inv_init {infos : List (SegmentInfo Dir)} {counter : Nat}
    {segments : Merge → { infos : List (SegmentInfo Dir) // infos ≠ [] }}
    (hnamed : ∀ info ∈ infos, Named directory counter info) :
    Inv directory [] (init infos counter segments) where
  registerDone _ := iff_of_false nofun nofun
  nodup := List.nodup_nil
  notBoth := nofun
  shares := ⟨fun _ => iff_of_false nofun nofun, nofun⟩
  removed _ := rfl
  once _ := Nat.zero_le _
  info _ _ := rfl
  named info hmem := hmem.elim (hnamed info) nofun

theorem Inv.exclusive (h : Inv directory s.pendingMerges s) : Exclusive s := by
  have hshare : ∀ m info, info ∈ s.shares m ↔
      (m ∈ s.pendingMerges ∨ m ∈ s.runningMerges) ∧ info ∈ (s.merges m).allSegments := by
    intro m info
    rw [← h.registerDone]
    unfold State.shares
    split <;> simp_all
  have hmem : ∀ info, info ∈ s.mergingSegments ↔
      ∃ m, (m ∈ s.pendingMerges ∨ m ∈ s.runningMerges) ∧ info ∈ (s.merges m).allSegments := by
    intro info
    rw [h.shares.mem_iff]
    exact exists_congr fun m => hshare m info
  refine ⟨fun m m' hm hm' hne => ?_, hmem, h.registerDone, fun m => ⟨h.once m, ?_⟩, fun hpending hrunning => ?_⟩
  · rw [Finset.disjoint_left]
    intro info hinfo hinfo'
    exact hne (h.shares.exclusive m m' info ((hshare m info).mpr ⟨hm, hinfo⟩)
      ((hshare m' info).mpr ⟨hm', hinfo'⟩))
  · rw [h.removed m]
    by_cases hdone : (s.merges m).registerDone = true
    · rw [hdone, if_pos ((h.registerDone m).mp hdone), Bool.toNat_true]
    · rw [if_neg (mt (h.registerDone m).mpr hdone), Bool.eq_false_iff.mpr hdone, Bool.toNat_false]
  · rw [Finset.eq_empty_iff_forall_notMem]
    intro info hinfo
    obtain ⟨m, hm, -⟩ := (hmem info).mp hinfo
    rw [hpending, hrunning] at hm
    rcases hm with hm | hm
    · cases hm
    · exact absurd hm (Finset.notMem_empty m)

/-- Registration of merges is exclusive, in every state of every run. -/
theorem registration_exclusive (directory : Dir) (infos : List (SegmentInfo Dir)) (counter : Nat)
    (segments : Merge → { infos : List (SegmentInfo Dir) // infos ≠ [] }) (ops : List (Op Dir Merge))
    (s : State Dir Merge) (hnamed : ∀ info ∈ infos, Named directory counter info)
    (hlegal : Runs.Legal (step directory) (Legal directory) (init infos counter segments) ops)
    (hrun : Runs.run (step directory) (init infos counter segments) ops = some s) : Exclusive s :=
  (Runs.legal_invariant (P := fun s => Inv directory s.pendingMerges s)
    (fun _ _ _ h hlegal hstep => inv_step h hlegal hstep) (inv_init hnamed) hlegal hrun).exclusive

/-- Two merges that have a segment in common, both offered; one is initialised, aborted and finished. -/
theorem registration_exclusive_two :
    ∃ s, Runs.run (step 0)
        (init [⟨1, "_0"⟩, ⟨1, "_1"⟩, ⟨1, "_2"⟩] 0 fun m : Fin 2 =>
          if m = 0 then ⟨[⟨1, "_0"⟩, ⟨1, "_1"⟩], by decide⟩ else ⟨[⟨1, "_1"⟩, ⟨1, "_2"⟩], by decide⟩)
        [.registerMerge 0, .registerMerge 1, .getNextMerge, .mergeInit 0 false, .finishMerges,
          .mergeFinish 0, .finishedMerges] = some s ∧
      Exclusive s := by
  refine ⟨_, (Option.some_get (by decide)).symm, ?_⟩
  exact registration_exclusive 0 _ _ _ _ _ (by decide) (by decide) (Option.some_get (by decide)).symm

end LucenePlusPlus.MergeRegistration
