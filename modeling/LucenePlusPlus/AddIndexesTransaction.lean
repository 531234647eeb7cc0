import LucenePlusPlus.AddIndexes

/-!
A call that adds indexes leaves the segment list with all of the added documents or with none, and the
lock, the count of flushed documents and the reference counts as they belong to it, exactly if its run
meets three conditions: memory does not run out inside a transaction, `addIndexes` merges into an index
without documents, and its second transaction starts.
-/

namespace LucenePlusPlus
namespace AddIndexes
open IndexFileDeleter (Inv Stepped)

section Infos
variable {Doc : Type} {infos infos' : List (SegmentInfo Doc)} {merged : SegmentInfo Doc} {start len : Nat}

@[simp] theorem live_append : live (infos ++ infos') = live infos ++ live infos' :=
  List.flatMap_append

@[simp] theorem live_nil : live ([] : List (SegmentInfo Doc)) = [] := rfl

@[simp] theorem live_cons (info : SegmentInfo Doc) :
    live (info :: infos) = info.docs.reduceOption ++ live infos := rfl

@[simp] theorem docCount_append : docCount (infos ++ infos') = docCount infos + docCount infos' := by
  rw [docCount, List.map_append, List.sum_append]
  rfl

@[simp] theorem docCount_nil : docCount ([] : List (SegmentInfo Doc)) = 0 := rfl

@[simp] theorem docCount_cons (info : SegmentInfo Doc) :
    docCount (info :: infos) = info.docCount + docCount infos := by
  rw [docCount, List.map_cons, List.sum_cons]
  rfl

theorem live_eq_nil_of_docCount (h : docCount infos = 0) : live infos = [] := by
  induction infos with
  | nil => rfl
  | cons info infos ih =>
      rw [docCount_cons, Nat.add_eq_zero_iff, SegmentInfo.docCount, List.length_eq_zero_iff] at h
      rw [live_cons, ih h.2, h.1]
      rfl

theorem eq_take_range_drop (infos : List (SegmentInfo Doc)) (start len : Nat) :
    infos = infos.take start ++ (range infos start len ++ infos.drop (start + len)) := by
  rw [range, ← List.drop_drop, List.take_append_drop, List.take_append_drop]

theorem live_replaceRange (h : live [merged] = live (range infos start len)) :
    live (replaceRange infos start len merged) = live infos := by
  conv_rhs => rw [eq_take_range_drop infos start len]
  rw [replaceRange, ← List.singleton_append, live_append, live_append, live_append, live_append, h]

theorem docCount_replaceRange (infos : List (SegmentInfo Doc)) (start len : Nat)
    (merged : SegmentInfo Doc) :
    (docCount (replaceRange infos start len merged) : Int) =
      docCount infos - (docCount (range infos start len) - merged.docCount) := by
  have hsplit : docCount infos = docCount (infos.take start) +
      (docCount (range infos start len) + docCount (infos.drop (start + len))) := by
    conv_lhs => rw [eq_take_range_drop infos start len]
    rw [docCount_append, docCount_append]
  rw [replaceRange, docCount_append, docCount_cons, hsplit]
  push_cast
  ring

/-- No segment is external. -/
def Internal (infos : List (SegmentInfo Doc)) : Prop := hasExternalSegments infos = false

theorem internal_iff : Internal infos ↔ ∀ info ∈ infos, info.external = false := by
  simp [Internal, hasExternalSegments]

theorem Internal.replaceRange (h : Internal infos) (hmerged : merged.external = false) :
    Internal (replaceRange infos start len merged) := by
  rw [internal_iff] at h ⊢
  intro info hinfo
  rw [AddIndexes.replaceRange, List.mem_append, List.mem_cons] at hinfo
  rcases hinfo with hinfo | rfl | hinfo
  · exact h info (List.mem_of_mem_take hinfo)
  · exact hmerged
  · exact h info (List.mem_of_mem_drop hinfo)

theorem files_append_external (info : SegmentInfo Doc) :
    files (infos ++ [{ info with external := true }]) = files infos := by
  simp [files]

variable (c : Call Doc)

theorem live_map_setUseCompoundFile : live (infos.map c.setUseCompoundFile) = live infos := by
  rw [live, live, List.flatMap_map]
  congr 1
  funext info
  rw [Call.setUseCompoundFile]
  split <;> rfl

theorem docCount_map_setUseCompoundFile :
    docCount (infos.map c.setUseCompoundFile) = docCount infos := by
  rw [docCount, docCount, List.map_map]
  congr 2
  funext info
  rw [Function.comp_apply, Call.setUseCompoundFile]
  split <;> rfl

theorem Internal.map_setUseCompoundFile (h : Internal infos) :
    Internal (infos.map c.setUseCompoundFile) := by
  rw [internal_iff] at h ⊢
  intro info hinfo
  obtain ⟨info, hmem, rfl⟩ := List.mem_map.mp hinfo
  rw [Call.setUseCompoundFile]
  split
  · exact h info hmem
  · exact h info hmem

end Infos

theorem Place.isDone_iff {Doc : Type} {place : Place Doc} : place.isDone = true ↔ place = .done := by
  cases place <;> simp [Place.isDone]

section Deleter
variable {Doc : Type} {d d' : IndexFileDeleter.State} {op : IndexFileDeleter.Op}
  {infos : List (SegmentInfo Doc)} {openFiles : Option (List String)}

theorem stepped_of_perform (h : Inv d.deleter d.outstanding) (hperform : d.perform op = some d') :
    Stepped d op d' := by
  rw [IndexFileDeleter.State.perform] at hperform
  split at hperform
  case isTrue hlegal =>
    obtain ⟨d₁, hstep, hstepped⟩ := h.step hlegal
    rw [hstep] at hperform
    exact Option.some.inj hperform ▸ hstepped
  case isFalse => exact nomatch hperform

theorem stepped_of_checkpoint (h : Inv d.deleter d.outstanding)
    (hcheck : checkpoint d infos openFiles = some d') :
    Inv d'.deleter d'.outstanding ∧ d'.outstanding = d.outstanding ∧
      d'.deleter.lastFiles = files infos :: openFiles.toList := by
  have hstepped := stepped_of_perform h hcheck
  exact ⟨hstepped.inv, hstepped.outstanding_eq, hstepped.lastFiles_eq⟩

/-- What others do leaves the last checkpoint alone, and does to the references what it does to
theirs. -/
theorem outstandingAfter_elsewhere {own others : Multiset String} (hown : d.outstanding = own + others)
    (helse : Elsewhere op = true) (hlegal : IndexFileDeleter.Legal ⟨d.deleter, others⟩ op) :
    IndexFileDeleter.lastFilesAfter d op = d.deleter.lastFiles ∧
      IndexFileDeleter.outstandingAfter d op =
        own + IndexFileDeleter.outstandingAfter ⟨d.deleter, others⟩ op := by
  cases op with
  | incRefInfos infos isCommit =>
      refine ⟨rfl, ?_⟩
      simp only [IndexFileDeleter.outstandingAfter, hown]
      exact add_left_comm _ _ _
  | incRefFiles files =>
      refine ⟨rfl, ?_⟩
      simp only [IndexFileDeleter.outstandingAfter, hown]
      exact add_left_comm _ _ _
  | decRefInfos infos =>
      refine ⟨rfl, ?_⟩
      simp only [IndexFileDeleter.outstandingAfter, hown]
      exact add_tsub_assoc_of_le hlegal own
  | decRefFiles files =>
      refine ⟨rfl, ?_⟩
      simp only [IndexFileDeleter.outstandingAfter, hown]
      exact add_tsub_assoc_of_le hlegal own
  | checkpoint infos isCommit openFiles policy =>
      cases isCommit with
      | true => exact ⟨rfl, hown⟩
      | false => cases helse
  | close => cases helse
  | deleteCommit id => exact ⟨rfl, hown⟩
  | deletePendingFiles => exact ⟨rfl, hown⟩
  | refresh segmentName => exact ⟨rfl, hown⟩
  | createOutput fileName => exact ⟨rfl, hown⟩

end Deleter

section Invariant
variable {Doc : Type} (c : Call Doc) (before : List Doc)

/-- The references that the call has on files. -/
def own (s : State Doc) : Multiset String :=
  match s.place with
  | .starting .compoundFile | .protecting .compoundFile => c.mergedFiles.val
  | .createCompoundFile | .returning _ => files s.localRollbackSegmentInfos + c.mergedFiles.val
  | .reading .. | .maybeMerge | .resolveExternalSegments | .preparing | .merging _ | .releasing
  | .committing .. | .rollingBack _ => files s.localRollbackSegmentInfos
  | .optimizing | .starting .adding | .protecting .adding | .choosing | .done => 0

/-- Whether the segment list may have changed since the deleter was shown it. -/
def Place.pending : Place Doc → Bool
  | .releasing | .committing .. | .rollingBack _ | .returning _ => true
  | _ => false

/-- The last checkpoint was one of the segment list. -/
def Checkpointed (s : State Doc) : Prop :=
  ∃ openFiles : Option (List String),
    s.deleter.deleter.lastFiles = files s.segmentInfos :: openFiles.toList

/-- A segment list has the documents `docs`, none of its segments are external, and it goes with a count of
flushed documents. -/
structure Settled (docs : List Doc) (infos : List (SegmentInfo Doc)) (flushed : Int) : Prop where
  live_eq : live infos = docs
  internal : Internal infos
  flushed_eq : flushed = docCount infos

/-- The documents of the segment list when a transaction starts. -/
def atStart : Transaction → List Doc
  | .adding => before
  | .compoundFile => before ++ c.sources.docs

/-- Where the call stands, with respect to the segment list, the rollback copy and the lock. -/
def Stage (s : State Doc) : Prop :=
  match s.place with
  | .optimizing => s.lock ≠ .writing ∧ Settled before s.segmentInfos s.flushedDocCount
  | .starting t => s.lock ≠ .writing ∧ Settled (atStart c before t) s.segmentInfos s.flushedDocCount
  | .protecting t => s.lock = .writing ∧ Settled (atStart c before t) s.segmentInfos s.flushedDocCount
  | .reading infos dirs n => s.lock = .writing ∧
      Settled before s.localRollbackSegmentInfos s.localFlushedDocCount ∧
      live s.segmentInfos ++ (live infos ++ dirs.flatMap Source.docs) = before ++ c.sources.docs ∧
      s.flushedDocCount + n = docCount s.segmentInfos
  | .maybeMerge | .resolveExternalSegments => s.lock = .writing ∧
      Settled before s.localRollbackSegmentInfos s.localFlushedDocCount ∧
      live s.segmentInfos = before ++ c.sources.docs ∧ s.flushedDocCount = docCount s.segmentInfos
  | .preparing => s.lock = .writing ∧
      Settled before s.localRollbackSegmentInfos s.localFlushedDocCount ∧
      Settled before s.segmentInfos s.flushedDocCount
  | .merging existing => s.lock = .writing ∧
      Settled before s.localRollbackSegmentInfos s.localFlushedDocCount ∧
      Settled before s.segmentInfos s.flushedDocCount ∧ (existing = before ∨ existing = [])
  | .releasing => s.lock = .writing ∧
      Settled (before ++ c.sources.docs) s.segmentInfos s.flushedDocCount
  | .committing _ raised => s.lock = .writing ∧
      (Settled (before ++ c.sources.docs) s.segmentInfos s.flushedDocCount ∨
        raised = true ∧ Settled before s.segmentInfos s.flushedDocCount)
  | .rollingBack t => s.lock = .writing ∧
      Settled (atStart c before t) s.localRollbackSegmentInfos s.localFlushedDocCount
  | .choosing => s.lock ≠ .writing ∧
      Settled (before ++ c.sources.docs) s.segmentInfos s.flushedDocCount
  | .createCompoundFile | .returning _ => s.lock = .writing ∧
      Settled (before ++ c.sources.docs) s.localRollbackSegmentInfos s.localFlushedDocCount ∧
      Settled (before ++ c.sources.docs) s.segmentInfos s.flushedDocCount
  | .done => s.lock ≠ .writing ∧
      (Settled (before ++ c.sources.docs) s.segmentInfos s.flushedDocCount ∨
        Settled before s.segmentInfos s.flushedDocCount)

/-- What holds as long as nothing has gone wrong that the call does not put right. -/
structure Good (s : State Doc) : Prop where
  inv : Inv s.deleter.deleter s.deleter.outstanding
  outstanding_eq : s.deleter.outstanding = own c s + s.others
  checkpointed : s.place.pending = false → Checkpointed s
  stage : Stage c before s

variable {c before} {s s' : State Doc} {openFiles : Option (List String)}

theorem Settled.replaceRange {docs : List Doc} {infos : List (SegmentInfo Doc)} {flushed : Int}
    {merged : SegmentInfo Doc} {start len : Nat} (h : Settled docs infos flushed)
    (hmerged : merged.external = false) (hlive : live [merged] = live (range infos start len)) :
    Settled docs (replaceRange infos start len merged)
      (flushed - (docCount (range infos start len) - merged.docCount)) where
  live_eq := (live_replaceRange hlive).trans h.live_eq
  internal := h.internal.replaceRange hmerged
  flushed_eq := by rw [h.flushed_eq, docCount_replaceRange]

theorem Good.elsewhere {op : IndexFileDeleter.Op} {d : IndexFileDeleter.State} (h : Good c before s)
    (helse : Elsewhere op = true) (hlegal : IndexFileDeleter.Legal ⟨s.deleter.deleter, s.others⟩ op)
    (hperform : s.deleter.perform op = some d) :
    Good c before { s with
      deleter := d
      others := IndexFileDeleter.outstandingAfter ⟨s.deleter.deleter, s.others⟩ op } := by
  have hstepped := stepped_of_perform h.inv hperform
  obtain ⟨hlast, hout⟩ := outstandingAfter_elsewhere h.outstanding_eq helse hlegal
  refine ⟨hstepped.inv, hstepped.outstanding_eq.trans hout, fun hpending => ?_, h.stage⟩
  obtain ⟨openFiles, heq⟩ := h.checkpointed hpending
  exact ⟨openFiles, (hstepped.lastFiles_eq.trans hlast).trans heq⟩

/-- A merge that is committed changes neither the documents nor how their number is kept. -/
theorem Stage.commitMerge {merged : SegmentInfo Doc} {start len : Nat} {d : IndexFileDeleter.State}
    (h : Stage c before s) (hmerged : merged.external = false)
    (hlive : live [merged] = live (range s.segmentInfos start len)) :
    Stage c before { s with
      segmentInfos := replaceRange s.segmentInfos start len merged
      flushedDocCount := s.flushedDocCount -
        (docCount (range s.segmentInfos start len) - merged.docCount)
      deleter := d } := by
  have hsettled : ∀ docs, Settled docs s.segmentInfos s.flushedDocCount →
      Settled docs (replaceRange s.segmentInfos start len merged) (s.flushedDocCount -
        (docCount (range s.segmentInfos start len) - merged.docCount)) :=
    fun docs hs => hs.replaceRange hmerged hlive
  obtain ⟨infos, flushed, d₀, others, lock, rollback, localFlushed, place⟩ := s
  cases place with
  | optimizing => exact ⟨h.1, hsettled _ h.2⟩
  | starting t => exact ⟨h.1, hsettled _ h.2⟩
  | protecting t => exact ⟨h.1, hsettled _ h.2⟩
  | reading todo dirs n =>
      obtain ⟨hlock, hrollback, hdocs, hcount⟩ := h
      refine ⟨hlock, hrollback, ?_, ?_⟩
      · rw [live_replaceRange hlive]
        exact hdocs
      · dsimp only at hcount ⊢
        rw [docCount_replaceRange, ← hcount]
        ring
  | maybeMerge =>
      obtain ⟨hlock, hrollback, hdocs, hcount⟩ := h
      exact ⟨hlock, hrollback, (live_replaceRange hlive).trans hdocs, by
        rw [docCount_replaceRange]
        exact congrArg (· - _) hcount⟩
  | resolveExternalSegments =>
      obtain ⟨hlock, hrollback, hdocs, hcount⟩ := h
      exact ⟨hlock, hrollback, (live_replaceRange hlive).trans hdocs, by
        rw [docCount_replaceRange]
        exact congrArg (· - _) hcount⟩
  | preparing => exact ⟨h.1, h.2.1, hsettled _ h.2.2⟩
  | merging existing => exact ⟨h.1, h.2.1, hsettled _ h.2.2.1, h.2.2.2⟩
  | releasing => exact ⟨h.1, hsettled _ h.2⟩
  | committing t raised =>
      exact ⟨h.1, h.2.imp (hsettled _) fun h => ⟨h.1, hsettled _ h.2⟩⟩
  | rollingBack t => exact h
  | choosing => exact ⟨h.1, hsettled _ h.2⟩
  | createCompoundFile => exact ⟨h.1, h.2.1, hsettled _ h.2.2⟩
  | returning success => exact ⟨h.1, h.2.1, hsettled _ h.2.2⟩
  | done => exact ⟨h.1, h.2.imp (hsettled _) (hsettled _)⟩

theorem Good.commitMerge {merged : SegmentInfo Doc} {start len : Nat} {d : IndexFileDeleter.State}
    (h : Good c before s) (hmerged : merged.external = false)
    (hlive : live [merged] = live (range s.segmentInfos start len))
    (hcheck : checkpoint s.deleter (replaceRange s.segmentInfos start len merged) openFiles = some d) :
    Good c before { s with
      segmentInfos := replaceRange s.segmentInfos start len merged
      flushedDocCount := s.flushedDocCount -
        (docCount (range s.segmentInfos start len) - merged.docCount)
      deleter := d } := by
  obtain ⟨hinv, hout, hlast⟩ := stepped_of_checkpoint h.inv hcheck
  exact ⟨hinv, hout.trans h.outstanding_eq, fun _ => ⟨openFiles, hlast⟩,
    h.stage.commitMerge hmerged hlive⟩

theorem startTransaction_eq {place : Place Doc} (h : startTransaction s place = some s') :
    ∃ d, s.deleter.perform (.incRefInfos (filesOnly s.segmentInfos) false) = some d ∧
      s' = { s with
        localRollbackSegmentInfos := s.segmentInfos
        localFlushedDocCount := s.flushedDocCount
        deleter := d
        place := place } := by
  obtain ⟨d, hperform, rfl⟩ := Option.map_eq_some_iff.mp h
  exact ⟨d, hperform, rfl⟩

/-- The checkpoint that ends a transaction, and the references on the files of the rollback copy that are
dropped after it. -/
theorem stepped_of_end {d d₁ d₂ : IndexFileDeleter.State} {infos rollback : List (SegmentInfo Doc)}
    {rest : Multiset String} (h : Inv d.deleter d.outstanding)
    (hout : d.outstanding = files rollback + rest) (hcheck : checkpoint d infos openFiles = some d₁)
    (hdec : d₁.perform (.decRefInfos (filesOnly rollback)) = some d₂) :
    Inv d₂.deleter d₂.outstanding ∧ d₂.outstanding = rest ∧
      d₂.deleter.lastFiles = files infos :: openFiles.toList := by
  obtain ⟨hinv, hout₁, hlast⟩ := stepped_of_checkpoint h hcheck
  have hstepped := stepped_of_perform hinv hdec
  refine ⟨hstepped.inv, hstepped.outstanding_eq.trans ?_, hstepped.lastFiles_eq.trans hlast⟩
  change d₁.outstanding - (files rollback : Multiset String) = rest
  rw [hout₁, hout]
  exact add_tsub_cancel_left _ _

theorem commitTransaction_spec {place : Place Doc} {rest : Multiset String}
    (hinv : Inv s.deleter.deleter s.deleter.outstanding)
    (hout : s.deleter.outstanding = files s.localRollbackSegmentInfos + rest)
    (h : commitTransaction s openFiles place = some s') :
    ∃ d, s' = { s with deleter := d, lock := .outside, place := place } ∧
      Inv d.deleter d.outstanding ∧ d.outstanding = rest ∧
      d.deleter.lastFiles = files s.segmentInfos :: openFiles.toList := by
  obtain ⟨d₁, hcheck, h⟩ := Option.bind_eq_some_iff.mp h
  obtain ⟨d₂, hdec, h⟩ := Option.bind_eq_some_iff.mp h
  exact ⟨d₂, (Option.some.inj h).symm, stepped_of_end hinv hout hcheck hdec⟩

theorem rollbackTransaction_spec {place : Place Doc} {rest : Multiset String}
    (hinv : Inv s.deleter.deleter s.deleter.outstanding)
    (hout : s.deleter.outstanding = files s.localRollbackSegmentInfos + rest)
    (h : rollbackTransaction s openFiles place = some s') :
    ∃ d, s' = { s with
        segmentInfos := s.localRollbackSegmentInfos
        flushedDocCount := s.localFlushedDocCount
        deleter := d
        lock := .outside
        place := place } ∧
      Inv d.deleter d.outstanding ∧ d.outstanding = rest ∧
      d.deleter.lastFiles = files s.localRollbackSegmentInfos :: openFiles.toList := by
  obtain ⟨d₁, hcheck, h⟩ := Option.bind_eq_some_iff.mp h
  obtain ⟨d₂, hdec, h⟩ := Option.bind_eq_some_iff.mp h
  obtain ⟨d₃, hrefresh, h⟩ := Option.bind_eq_some_iff.mp h
  obtain ⟨hinv₂, hout₂, hlast⟩ := stepped_of_end hinv hout hcheck hdec
  have hstepped := stepped_of_perform hinv₂ hrefresh
  exact ⟨d₃, (Option.some.inj h).symm, hstepped.inv, hstepped.outstanding_eq.trans hout₂,
    hstepped.lastFiles_eq.trans hlast⟩

/-- The steps after which the call still ends as it should: memory may run out outside the transactions
only, the second transaction starts, and `addIndexes` merges into an index without documents, as the
documents that exist are in the number of those it merges and in the count already. -/
def Meets (s : State Doc) : Event Doc → Prop
  | .next .badAlloc _ => s.lock ≠ .writing ∧ ∀ t, s.place = .starting t → t = .adding
  | .next .exception _ =>
      ∀ t, s.place = .starting t ∨ s.place = .protecting t → t = .adding
  | .next .ok _ => ∀ existing, s.place = .merging existing → docCount s.segmentInfos = 0
  | _ => True

theorem Good.startTransaction {t : Transaction} (h : Good c before s) (hplace : s.place = .protecting t)
    (hstep : AddIndexes.startTransaction s (c.first t) = some s') : Good c before s' := by
  obtain ⟨infos, flushed, d, others, lock, rollback, localFlushed, place⟩ := s
  obtain rfl : place = .protecting t := hplace
  obtain ⟨d', hperform, rfl⟩ := startTransaction_eq hstep
  have hstepped := stepped_of_perform h.inv hperform
  have hlast : ∃ openFiles : Option (List String),
      d'.deleter.lastFiles = files infos :: openFiles.toList := by
    obtain ⟨openFiles, heq⟩ := h.checkpointed rfl
    exact ⟨openFiles, hstepped.lastFiles_eq.trans heq⟩
  have hout : ∀ rest : Multiset String, d.outstanding = rest + others →
      d'.outstanding = files infos + rest + others := by
    intro rest hrest
    rw [hstepped.outstanding_eq, add_assoc, ← hrest]
    rfl
  obtain ⟨hlock, hsettled⟩ := h.stage
  cases t with
  | adding =>
      have hown := hout 0 h.outstanding_eq
      rw [add_zero] at hown
      cases hsources : c.sources with
      | dirs sources =>
          have hfirst : c.first .adding = .reading [] sources 0 := by
            simp only [Call.first, hsources]
          rw [hfirst]
          refine ⟨hstepped.inv, hown, fun _ => hlast, hlock, hsettled, ?_, ?_⟩
          · rw [hsources, hsettled.live_eq]
            rfl
          · rw [Nat.cast_zero, add_zero]
            exact hsettled.flushed_eq
      | readers sources =>
          have hfirst : c.first .adding = .preparing := by
            simp only [Call.first, hsources]
          rw [hfirst]
          exact ⟨hstepped.inv, hown, fun _ => hlast, hlock, hsettled, hsettled⟩
  | compoundFile =>
      exact ⟨hstepped.inv, hout _ h.outstanding_eq, fun _ => hlast, hlock, hsettled, hsettled⟩

theorem Good.commitTransaction {t : Transaction} {raised : Bool} (h : Good c before s)
    (hplace : s.place = .committing t raised)
    (hstep : AddIndexes.commitTransaction s openFiles (c.afterCommit t raised) = some s') :
    Good c before s' := by
  obtain ⟨infos, flushed, d, others, lock, rollback, localFlushed, place⟩ := s
  obtain rfl : place = .committing t raised := hplace
  obtain ⟨d', rfl, hinv, hout, hlast⟩ := commitTransaction_spec h.inv h.outstanding_eq hstep
  have hown : d'.outstanding = 0 + others := hout.trans (zero_add _).symm
  obtain ⟨-, hsettled⟩ := h.stage
  have hdone : Good c before
      ⟨infos, flushed, d', others, .outside, rollback, localFlushed, .done⟩ :=
    ⟨hinv, hown, fun _ => ⟨openFiles, hlast⟩, nofun, hsettled.imp_right And.right⟩
  unfold Call.afterCommit
  split
  · refine ⟨hinv, hown, fun _ => ⟨openFiles, hlast⟩, nofun, ?_⟩
    rcases hsettled with hsettled | ⟨hraised, -⟩
    · exact hsettled
    · cases hraised
  · exact hdone

theorem Good.rollbackTransaction {t : Transaction} (h : Good c before s)
    (hplace : s.place = .rollingBack t)
    (hstep : AddIndexes.rollbackTransaction s openFiles .done = some s') : Good c before s' := by
  obtain ⟨infos, flushed, d, others, lock, rollback, localFlushed, place⟩ := s
  obtain rfl : place = .rollingBack t := hplace
  obtain ⟨d', rfl, hinv, hout, hlast⟩ := rollbackTransaction_spec h.inv h.outstanding_eq hstep
  refine ⟨hinv, hout.trans (zero_add _).symm, fun _ => ⟨openFiles, hlast⟩, nofun, ?_⟩
  obtain ⟨-, hsettled⟩ := h.stage
  cases t with
  | adding => exact Or.inr hsettled
  | compoundFile => exact Or.inl hsettled

theorem Good.merging {existing : List Doc} (h : Good c before s) (hplace : s.place = .merging existing)
    (hempty : docCount s.segmentInfos = 0) :
    Good c before { s with
      segmentInfos := [c.merged existing]
      flushedDocCount := s.flushedDocCount + (c.merged existing).docCount
      place := .releasing } := by
  obtain ⟨infos, flushed, d, others, lock, rollback, localFlushed, place⟩ := s
  obtain rfl : place = .merging existing := hplace
  obtain ⟨hlock, -, hsettled, hexisting⟩ := h.stage
  have hbefore : before = [] := hsettled.live_eq.symm.trans (live_eq_nil_of_docCount hempty)
  have hnil : existing = [] := by
    rcases hexisting with rfl | rfl
    · exact hbefore
    · rfl
  refine ⟨h.inv, h.outstanding_eq, nofun, hlock, ?_, ?_, ?_⟩
  · rw [live_cons, live_nil, List.append_nil, Call.merged, hnil, hbefore]
    simp [List.reduceOption]
  · exact internal_iff.mpr fun info hinfo => by rw [List.mem_singleton.mp hinfo]; rfl
  · have hflushed : flushed = 0 := hsettled.flushed_eq.trans (congrArg Nat.cast hempty)
    rw [docCount_cons, docCount_nil, hflushed, zero_add, add_zero]

theorem Good.addInfo {info : SegmentInfo Doc} {infos : List (SegmentInfo Doc)}
    {dirs : List (Source Doc)} {n : Nat} (h : Good c before s)
    (hplace : s.place = .reading (info :: infos) dirs n) :
    Good c before { s with
      segmentInfos := s.segmentInfos ++ [{ info with external := true }]
      place := .reading infos dirs (n + info.docCount) } := by
  obtain ⟨segmentInfos, flushed, d, others, lock, rollback, localFlushed, place⟩ := s
  obtain rfl : place = .reading (info :: infos) dirs n := hplace
  obtain ⟨hlock, hrollback, hdocs, hcount⟩ := h.stage
  refine ⟨h.inv, h.outstanding_eq, fun _ => ?_, hlock, hrollback, ?_, ?_⟩
  · obtain ⟨openFiles, heq⟩ := h.checkpointed rfl
    refine ⟨openFiles, ?_⟩
    dsimp only at heq ⊢
    rw [files_append_external, heq]
  · rw [← hdocs]
    simp
  · dsimp only at hcount ⊢
    have hinfo : SegmentInfo.docCount { info with external := true } = info.docCount := rfl
    rw [docCount_append, docCount_cons, docCount_nil, hinfo, add_zero]
    push_cast
    rw [← hcount]
    ring

theorem Good.setUseCompoundFile (h : Good c before s) (hplace : s.place = .createCompoundFile) :
    Good c before { s with
      segmentInfos := s.segmentInfos.map c.setUseCompoundFile
      place := .returning true } := by
  obtain ⟨infos, flushed, d, others, lock, rollback, localFlushed, place⟩ := s
  obtain rfl : place = .createCompoundFile := hplace
  obtain ⟨hlock, hrollback, hsettled⟩ := h.stage
  exact ⟨h.inv, h.outstanding_eq, nofun, hlock, hrollback,
    (live_map_setUseCompoundFile c).trans hsettled.live_eq, hsettled.internal.map_setUseCompoundFile c,
    hsettled.flushed_eq.trans (congrArg Nat.cast (docCount_map_setUseCompoundFile c).symm)⟩

theorem Good.proceed (h : Good c before s)
    (hempty : ∀ existing, s.place = .merging existing → docCount s.segmentInfos = 0)
    (hstep : AddIndexes.proceed c s openFiles = some s') : Good c before s' := by
  obtain ⟨segmentInfos, flushed, d, others, lock, rollback, localFlushed, place⟩ := s
  cases place with
  | optimizing =>
      cases hstep
      exact ⟨h.inv, h.outstanding_eq, h.checkpointed, h.stage⟩
  | starting t =>
      cases hstep
      refine ⟨h.inv, ?_, h.checkpointed, rfl, h.stage.2⟩
      cases t with
      | adding => exact h.outstanding_eq
      | compoundFile => exact h.outstanding_eq
  | protecting t => exact h.startTransaction rfl hstep
  | reading infos dirs n =>
      cases infos with
      | cons info infos =>
          cases hstep
          exact h.addInfo rfl
      | nil =>
          obtain ⟨hlock, hrollback, hdocs, hcount⟩ := h.stage
          cases dirs with
          | nil =>
              cases hstep
              rw [live_nil, List.flatMap_nil, List.append_nil, List.append_nil] at hdocs
              exact ⟨h.inv, h.outstanding_eq, h.checkpointed, hlock, hrollback, hdocs, hcount⟩
          | cons dir dirs =>
              cases dir with
              | itself =>
                  cases hstep
                  exact ⟨h.inv, h.outstanding_eq, nofun, hlock, hrollback⟩
              | index infos =>
                  cases hstep
                  exact ⟨h.inv, h.outstanding_eq, h.checkpointed, hlock, hrollback, hdocs, hcount⟩
  | maybeMerge =>
      cases hstep
      exact ⟨h.inv, h.outstanding_eq, h.checkpointed, h.stage⟩
  | resolveExternalSegments =>
      simp only [AddIndexes.proceed] at hstep
      split at hstep
      case isTrue => cases hstep
      case isFalse hinternal =>
        cases hstep
        obtain ⟨hlock, -, hdocs, hcount⟩ := h.stage
        exact ⟨h.inv, h.outstanding_eq, nofun, hlock,
          Or.inl ⟨hdocs, Bool.eq_false_iff.mpr hinternal, hcount⟩⟩
  | preparing =>
      cases hstep
      obtain ⟨hlock, hrollback, hsettled⟩ := h.stage
      refine ⟨h.inv, h.outstanding_eq, h.checkpointed, hlock, hrollback, hsettled, ?_⟩
      split
      · exact Or.inl hsettled.live_eq
      · exact Or.inr rfl
  | merging existing =>
      cases hstep
      exact h.merging rfl (hempty existing rfl)
  | releasing =>
      cases hstep
      exact ⟨h.inv, h.outstanding_eq, nofun, h.stage.1, Or.inl h.stage.2⟩
  | committing t raised => exact h.commitTransaction rfl hstep
  | rollingBack t => exact h.rollbackTransaction rfl hstep
  | choosing =>
      simp only [AddIndexes.proceed] at hstep
      split at hstep
      case isTrue =>
        obtain ⟨d', hperform, rfl⟩ := Option.map_eq_some_iff.mp hstep
        have hstepped := stepped_of_perform h.inv hperform
        refine ⟨hstepped.inv, ?_, fun _ => ?_, h.stage⟩
        · rw [hstepped.outstanding_eq]
          exact congrArg ((c.mergedFiles.val : Multiset String) + ·)
            (h.outstanding_eq.trans (zero_add others))
        · obtain ⟨openFiles, heq⟩ := h.checkpointed rfl
          exact ⟨openFiles, hstepped.lastFiles_eq.trans heq⟩
      case isFalse =>
        cases hstep
        exact ⟨h.inv, h.outstanding_eq, h.checkpointed, h.stage.1, Or.inl h.stage.2⟩
  | createCompoundFile =>
      cases hstep
      exact h.setUseCompoundFile rfl
  | returning success =>
      obtain ⟨d', hperform, rfl⟩ := Option.map_eq_some_iff.mp hstep
      have hstepped := stepped_of_perform h.inv hperform
      have hout : d'.outstanding = files rollback + others := by
        have hown : d.outstanding = files rollback + c.mergedFiles.val + others := h.outstanding_eq
        have hafter : d'.outstanding = d.outstanding - c.mergedFiles.val := hstepped.outstanding_eq
        rw [hafter, hown, add_right_comm, add_tsub_cancel_right]
      obtain ⟨hlock, hrollback, hsettled⟩ := h.stage
      cases success with
      | true => exact ⟨hstepped.inv, hout, nofun, hlock, Or.inl hsettled⟩
      | false => exact ⟨hstepped.inv, hout, nofun, hlock, hrollback⟩
  | done => cases hstep

theorem Good.raise (h : Good c before s)
    (hfirst : ∀ t, s.place = .starting t ∨ s.place = .protecting t → t = .adding)
    (hstep : AddIndexes.raise s = some s') : Good c before s' := by
  obtain ⟨segmentInfos, flushed, d, others, lock, rollback, localFlushed, place⟩ := s
  cases place with
  | optimizing =>
      cases hstep
      exact ⟨h.inv, h.outstanding_eq, h.checkpointed, nofun, Or.inr h.stage.2⟩
  | starting t =>
      cases hstep
      obtain rfl := hfirst t (Or.inl rfl)
      exact ⟨h.inv, h.outstanding_eq, h.checkpointed, nofun, Or.inr h.stage.2⟩
  | protecting t =>
      cases hstep
      obtain rfl := hfirst t (Or.inr rfl)
      exact ⟨h.inv, h.outstanding_eq, h.checkpointed, nofun, Or.inr h.stage.2⟩
  | reading infos dirs n =>
      cases hstep
      exact ⟨h.inv, h.outstanding_eq, nofun, h.stage.1, h.stage.2.1⟩
  | maybeMerge =>
      cases hstep
      exact ⟨h.inv, h.outstanding_eq, nofun, h.stage.1, h.stage.2.1⟩
  | resolveExternalSegments =>
      cases hstep
      exact ⟨h.inv, h.outstanding_eq, nofun, h.stage.1, h.stage.2.1⟩
  | preparing =>
      cases hstep
      exact ⟨h.inv, h.outstanding_eq, nofun, h.stage.1, Or.inr ⟨rfl, h.stage.2.2⟩⟩
  | merging existing =>
      cases hstep
      exact ⟨h.inv, h.outstanding_eq, nofun, h.stage.1, h.stage.2.1⟩
  | releasing =>
      cases hstep
      exact ⟨h.inv, h.outstanding_eq, nofun, h.stage.1, Or.inl h.stage.2⟩
  | choosing =>
      cases hstep
      exact ⟨h.inv, h.outstanding_eq, h.checkpointed, h.stage.1, Or.inl h.stage.2⟩
  | createCompoundFile =>
      cases hstep
      exact ⟨h.inv, h.outstanding_eq, nofun, h.stage⟩
  | committing t raised => cases hstep
  | rollingBack t => cases hstep
  | returning success => cases hstep
  | done => cases hstep

theorem Good.badAlloc (h : Good c before s) (hlock : s.lock ≠ .writing)
    (hfirst : ∀ t, s.place = .starting t → t = .adding) :
    Good c before { s with place := .done } := by
  obtain ⟨segmentInfos, flushed, d, others, lock, rollback, localFlushed, place⟩ := s
  cases place with
  | optimizing => exact ⟨h.inv, h.outstanding_eq, h.checkpointed, hlock, Or.inr h.stage.2⟩
  | starting t =>
      obtain rfl := hfirst t rfl
      exact ⟨h.inv, h.outstanding_eq, h.checkpointed, hlock, Or.inr h.stage.2⟩
  | choosing => exact ⟨h.inv, h.outstanding_eq, h.checkpointed, hlock, Or.inl h.stage.2⟩
  | done => exact h
  | protecting t => exact absurd h.stage.1 hlock
  | reading infos dirs n => exact absurd h.stage.1 hlock
  | maybeMerge => exact absurd h.stage.1 hlock
  | resolveExternalSegments => exact absurd h.stage.1 hlock
  | preparing => exact absurd h.stage.1 hlock
  | merging existing => exact absurd h.stage.1 hlock
  | releasing => exact absurd h.stage.1 hlock
  | committing t raised => exact absurd h.stage.1 hlock
  | rollingBack t => exact absurd h.stage.1 hlock
  | createCompoundFile => exact absurd h.stage.1 hlock
  | returning success => exact absurd h.stage.1 hlock

theorem Good.step [DecidableEq Doc] {e : Event Doc} (h : Good c before s) (hmeets : Meets s e)
    (hstep : AddIndexes.step c s e = some s') : Good c before s' := by
  unfold AddIndexes.step at hstep
  split at hstep
  · cases hstep
  · cases e with
    | next outcome openFiles =>
        cases outcome with
        | ok => exact h.proceed hmeets hstep
        | exception => exact h.raise hmeets hstep
        | badAlloc =>
            cases hstep
            exact h.badAlloc hmeets.1 hmeets.2
    | commitMerge start len merged openFiles =>
        dsimp only at hstep
        split at hstep
        case isTrue hcond =>
          obtain ⟨d, hcheck, rfl⟩ := Option.map_eq_some_iff.mp hstep
          exact h.commitMerge hcond.2.1 hcond.2.2 hcheck
        case isFalse => cases hstep
    | elsewhere op =>
        dsimp only at hstep
        split at hstep
        case isTrue hcond =>
          obtain ⟨d, hperform, rfl⟩ := Option.map_eq_some_iff.mp hstep
          exact h.elsewhere hcond.1 hcond.2 hperform
        case isFalse => cases hstep

/-! ### What is not put right again -/

/-- More documents are counted than there are. -/
def Inflated (infos : List (SegmentInfo Doc)) (flushed : Int) : Prop := docCount infos < flushed

theorem Inflated.replaceRange {infos : List (SegmentInfo Doc)} {flushed : Int} {start len : Nat}
    {merged : SegmentInfo Doc} (h : Inflated infos flushed) :
    Inflated (replaceRange infos start len merged)
      (flushed - (docCount (range infos start len) - merged.docCount)) := by
  rw [Inflated, docCount_replaceRange]
  exact sub_lt_sub_right h _

/-- The references on the files of the merged segment were not given back. -/
structure Leaked (c : Call Doc) (s : State Doc) : Prop where
  inv : Inv s.deleter.deleter s.deleter.outstanding
  outstanding_eq : s.deleter.outstanding = c.mergedFiles.val + s.others

/-- The call has gone wrong: the count is too high for good, or the call has ended with the write lock or with
references on files. -/
def Bad (c : Call Doc) (s : State Doc) : Prop :=
  match s.place with
  | .releasing | .committing .. | .choosing | .starting .compoundFile | .protecting .compoundFile =>
      Inflated s.segmentInfos s.flushedDocCount
  | .createCompoundFile | .returning _ | .rollingBack .compoundFile =>
      Inflated s.segmentInfos s.flushedDocCount ∧
        Inflated s.localRollbackSegmentInfos s.localFlushedDocCount
  | .done => s.lock = .writing ∨ Inflated s.segmentInfos s.flushedDocCount ∨ Leaked c s
  | _ => False

theorem Good.bad_proceed (h : Good c before s)
    (hbad : ¬ ∀ existing, s.place = .merging existing → docCount s.segmentInfos = 0)
    (hstep : AddIndexes.proceed c s openFiles = some s') : Bad c s' := by
  obtain ⟨segmentInfos, flushed, d, others, lock, rollback, localFlushed, place⟩ := s
  push Not at hbad
  obtain ⟨existing, rfl, hne⟩ := hbad
  cases hstep
  obtain ⟨-, -, hsettled, -⟩ := h.stage
  have hflushed := hsettled.flushed_eq
  dsimp only at hflushed hne
  change ((docCount [c.merged existing] : Nat) : Int) < flushed + (c.merged existing).docCount
  rw [docCount_cons, docCount_nil, hflushed]
  omega

theorem Good.bad_raise (h : Good c before s)
    (hbad : ¬ ∀ t, s.place = .starting t ∨ s.place = .protecting t → t = .adding)
    (hstep : AddIndexes.raise s = some s') : Bad c s' := by
  obtain ⟨segmentInfos, flushed, d, others, lock, rollback, localFlushed, place⟩ := s
  push Not at hbad
  obtain ⟨t, hplace, hne⟩ := hbad
  cases t with
  | adding => exact absurd rfl hne
  | compoundFile =>
      rcases hplace with rfl | rfl
      · cases hstep
        exact Or.inr (Or.inr ⟨h.inv, h.outstanding_eq⟩)
      · cases hstep
        exact Or.inr (Or.inr ⟨h.inv, h.outstanding_eq⟩)

theorem Good.bad_badAlloc (h : Good c before s)
    (hbad : ¬ (s.lock ≠ .writing ∧ ∀ t, s.place = .starting t → t = .adding)) :
    Bad c { s with place := .done } := by
  obtain ⟨segmentInfos, flushed, d, others, lock, rollback, localFlushed, place⟩ := s
  by_cases hlock : lock = .writing
  · exact Or.inl hlock
  · rw [not_and] at hbad
    have hstart := hbad hlock
    push Not at hstart
    obtain ⟨t, rfl, hne⟩ := hstart
    cases t with
    | adding => exact absurd rfl hne
    | compoundFile => exact Or.inr (Or.inr ⟨h.inv, h.outstanding_eq⟩)

theorem Good.bad_step [DecidableEq Doc] {e : Event Doc} (h : Good c before s) (hbad : ¬ Meets s e)
    (hstep : AddIndexes.step c s e = some s') : Bad c s' := by
  unfold AddIndexes.step at hstep
  split at hstep
  · cases hstep
  · cases e with
    | next outcome openFiles =>
        cases outcome with
        | ok => exact h.bad_proceed hbad hstep
        | exception => exact h.bad_raise hbad hstep
        | badAlloc =>
            cases hstep
            exact h.bad_badAlloc hbad
    | commitMerge start len merged openFiles => exact absurd trivial hbad
    | elsewhere op => exact absurd trivial hbad

theorem Bad.proceed (h : Bad c s) (hstep : AddIndexes.proceed c s openFiles = some s') : Bad c s' := by
  obtain ⟨segmentInfos, flushed, d, others, lock, rollback, localFlushed, place⟩ := s
  cases place with
  | starting t =>
      cases t with
      | adding => exact h.elim
      | compoundFile =>
          cases hstep
          exact h
  | protecting t =>
      cases t with
      | adding => exact h.elim
      | compoundFile =>
          obtain ⟨d', -, rfl⟩ := startTransaction_eq hstep
          exact ⟨h, h⟩
  | releasing =>
      cases hstep
      exact h
  | committing t raised =>
      obtain ⟨d₁, -, hstep⟩ := Option.bind_eq_some_iff.mp hstep
      obtain ⟨d₂, -, hstep⟩ := Option.bind_eq_some_iff.mp hstep
      cases hstep
      have hafter : c.afterCommit t raised = .choosing ∨ c.afterCommit t raised = .done := by
        unfold Call.afterCommit
        split
        · exact Or.inl rfl
        · exact Or.inr rfl
      rcases hafter with hafter | hafter
      · rw [hafter]
        exact h
      · rw [hafter]
        exact Or.inr (Or.inl h)
  | rollingBack t =>
      cases t with
      | adding => exact h.elim
      | compoundFile =>
          obtain ⟨d₁, -, hstep⟩ := Option.bind_eq_some_iff.mp hstep
          obtain ⟨d₂, -, hstep⟩ := Option.bind_eq_some_iff.mp hstep
          obtain ⟨d₃, -, hstep⟩ := Option.bind_eq_some_iff.mp hstep
          cases hstep
          exact Or.inr (Or.inl h.2)
  | choosing =>
      simp only [AddIndexes.proceed] at hstep
      split at hstep
      · obtain ⟨d', -, rfl⟩ := Option.map_eq_some_iff.mp hstep
        exact h
      · cases hstep
        exact Or.inr (Or.inl h)
  | createCompoundFile =>
      cases hstep
      refine ⟨?_, h.2⟩
      rw [Inflated, docCount_map_setUseCompoundFile]
      exact h.1
  | returning success =>
      obtain ⟨d', -, rfl⟩ := Option.map_eq_some_iff.mp hstep
      cases success with
      | true => exact h.1
      | false => exact h
  | done => cases hstep
  | optimizing => exact h.elim
  | reading infos dirs n => exact h.elim
  | maybeMerge => exact h.elim
  | resolveExternalSegments => exact h.elim
  | preparing => exact h.elim
  | merging existing => exact h.elim

theorem Bad.raise (h : Bad c s) (hstep : AddIndexes.raise s = some s') : Bad c s' := by
  obtain ⟨segmentInfos, flushed, d, others, lock, rollback, localFlushed, place⟩ := s
  cases place with
  | starting t =>
      cases t with
      | adding => exact h.elim
      | compoundFile =>
          cases hstep
          exact Or.inr (Or.inl h)
  | protecting t =>
      cases t with
      | adding => exact h.elim
      | compoundFile =>
          cases hstep
          exact Or.inr (Or.inl h)
  | releasing =>
      cases hstep
      exact h
  | choosing =>
      cases hstep
      exact Or.inr (Or.inl h)
  | createCompoundFile =>
      cases hstep
      exact h
  | committing t raised => cases hstep
  | rollingBack t => cases hstep
  | returning success => cases hstep
  | done => cases hstep
  | optimizing => exact h.elim
  | reading infos dirs n => exact h.elim
  | maybeMerge => exact h.elim
  | resolveExternalSegments => exact h.elim
  | preparing => exact h.elim
  | merging existing => exact h.elim

/-- The segment list or the lock of a call that has gone wrong, wherever memory runs out. -/
theorem Bad.badAlloc (h : Bad c s) (hdone : s.place.isDone = false) : Bad c { s with place := .done } := by
  obtain ⟨segmentInfos, flushed, d, others, lock, rollback, localFlushed, place⟩ := s
  refine Or.inr (Or.inl ?_)
  cases place with
  | starting t =>
      cases t with
      | adding => exact h.elim
      | compoundFile => exact h
  | protecting t =>
      cases t with
      | adding => exact h.elim
      | compoundFile => exact h
  | rollingBack t =>
      cases t with
      | adding => exact h.elim
      | compoundFile => exact h.1
  | releasing => exact h
  | committing t raised => exact h
  | choosing => exact h
  | createCompoundFile => exact h.1
  | returning success => exact h.1
  | done => cases hdone
  | optimizing => exact h.elim
  | reading infos dirs n => exact h.elim
  | maybeMerge => exact h.elim
  | resolveExternalSegments => exact h.elim
  | preparing => exact h.elim
  | merging existing => exact h.elim

/-- Merges and what others ask of the deleter leave a count that is too high too high. -/
theorem Bad.beside (h : Bad c s) (hdone : s.place.isDone = false) {infos : List (SegmentInfo Doc)}
    {flushed : Int} {d : IndexFileDeleter.State} {others : Multiset String}
    (hinflated : Inflated s.segmentInfos s.flushedDocCount → Inflated infos flushed) :
    Bad c { s with
      segmentInfos := infos
      flushedDocCount := flushed
      deleter := d
      others := others } := by
  obtain ⟨segmentInfos, flushed₀, d₀, others₀, lock, rollback, localFlushed, place⟩ := s
  cases place with
  | starting t =>
      cases t with
      | adding => exact h.elim
      | compoundFile => exact hinflated h
  | protecting t =>
      cases t with
      | adding => exact h.elim
      | compoundFile => exact hinflated h
  | rollingBack t =>
      cases t with
      | adding => exact h.elim
      | compoundFile => exact ⟨hinflated h.1, h.2⟩
  | releasing => exact hinflated h
  | committing t raised => exact hinflated h
  | choosing => exact hinflated h
  | createCompoundFile => exact ⟨hinflated h.1, h.2⟩
  | returning success => exact ⟨hinflated h.1, h.2⟩
  | done => cases hdone
  | optimizing => exact h.elim
  | reading infos dirs n => exact h.elim
  | maybeMerge => exact h.elim
  | resolveExternalSegments => exact h.elim
  | preparing => exact h.elim
  | merging existing => exact h.elim

theorem Bad.step [DecidableEq Doc] {e : Event Doc} (h : Bad c s)
    (hstep : AddIndexes.step c s e = some s') : Bad c s' := by
  unfold AddIndexes.step at hstep
  split at hstep
  case isTrue => cases hstep
  case isFalse hdone =>
    rw [Bool.not_eq_true] at hdone
    cases e with
    | next outcome openFiles =>
        cases outcome with
        | ok => exact h.proceed hstep
        | exception => exact h.raise hstep
        | badAlloc =>
            cases hstep
            exact h.badAlloc hdone
    | commitMerge start len merged openFiles =>
        dsimp only at hstep
        split at hstep
        case isTrue hcond =>
          obtain ⟨d, -, rfl⟩ := Option.map_eq_some_iff.mp hstep
          exact h.beside hdone Inflated.replaceRange
        case isFalse => cases hstep
    | elsewhere op =>
        dsimp only at hstep
        split at hstep
        case isTrue hcond =>
          obtain ⟨d, -, rfl⟩ := Option.map_eq_some_iff.mp hstep
          exact h.beside hdone id
        case isFalse => cases hstep

/-- The references that the segment list `infos`, the commits and others than the call have on files. A
commit whose deletion is pending has them still. -/
def implied (s : State Doc) (openFiles : Option (List String)) : Multiset String :=
  s.deleter.deleter.liveFiles + s.deleter.deleter.pendingFiles + files s.segmentInfos +
    (openFiles.toList.flatten : List String) + s.others

/-- The reference counts are those implied by the segment list and the commits. -/
def Counted (s : State Doc) : Prop :=
  ∃ openFiles : Option (List String),
    s.deleter.deleter.lastFiles = files s.segmentInfos :: openFiles.toList ∧
      ∀ f, s.deleter.deleter.count f = (implied s openFiles).count f

/-- Where a call starts, once it has flushed: in `addIndexes` it has acquired the lock for reading. -/
structure Initial (c : Call Doc) (s : State Doc) : Prop where
  inv : Inv s.deleter.deleter s.deleter.outstanding
  others : s.deleter.outstanding = s.others
  checkpointed : Checkpointed s
  internal : Internal s.segmentInfos
  flushed : s.flushedDocCount = docCount s.segmentInfos
  start : (∃ sources, c.sources = .dirs sources ∧ s.place = .starting .adding ∧ s.lock = .outside) ∨
    ∃ sources, c.sources = .readers sources ∧ s.place = .optimizing ∧ s.lock = .reading

/-- What a call that has ended is to leave: all of the added documents after those of `before`, or
none. -/
structure Transactional (c : Call Doc) (before : List (SegmentInfo Doc)) (s : State Doc) : Prop where
  documents : live s.segmentInfos = live before ++ c.sources.docs ∨ live s.segmentInfos = live before
  internal : Internal s.segmentInfos
  released : s.lock ≠ .writing
  flushed : s.flushedDocCount = docCount s.segmentInfos
  counted : Counted s

theorem Initial.good (h : Initial c s) : Good c (live s.segmentInfos) s := by
  have hsettled : Settled (live s.segmentInfos) s.segmentInfos s.flushedDocCount :=
    ⟨rfl, h.internal, h.flushed⟩
  obtain ⟨segmentInfos, flushed, d, others, lock, rollback, localFlushed, place⟩ := s
  obtain ⟨sources, -, rfl, rfl⟩ | ⟨sources, -, rfl, rfl⟩ := h.start
  · exact ⟨h.inv, h.others.trans (zero_add _).symm, fun _ => h.checkpointed, nofun, hsettled⟩
  · exact ⟨h.inv, h.others.trans (zero_add _).symm, fun _ => h.checkpointed, nofun, hsettled⟩

theorem count_eq {own : Multiset String} (hinv : Inv s.deleter.deleter s.deleter.outstanding)
    (hout : s.deleter.outstanding = own + s.others)
    (hlast : s.deleter.deleter.lastFiles = files s.segmentInfos :: openFiles.toList) (f : String) :
    s.deleter.deleter.count f = (implied s openFiles).count f + own.count f := by
  rw [hinv.counted.count_eq, ← Nat.cast_add, ← Multiset.count_add]
  congr 2
  rw [IndexFileDeleter.held, implied, hout, hlast, List.flatten_cons, ← Multiset.coe_add]
  abel

theorem Good.transactional {infos : List (SegmentInfo Doc)} (h : Good c (live infos) s)
    (hdone : s.place = .done) : Transactional c infos s := by
  obtain ⟨segmentInfos, flushed, d, others, lock, rollback, localFlushed, place⟩ := s
  obtain rfl : place = .done := hdone
  obtain ⟨hlock, hsettled⟩ := h.stage
  obtain ⟨openFiles, hlast⟩ := h.checkpointed rfl
  have hcounted : ∀ f, d.deleter.count f = (implied
      ⟨segmentInfos, flushed, d, others, lock, rollback, localFlushed, .done⟩ openFiles).count f := by
    intro f
    rw [count_eq h.inv h.outstanding_eq hlast]
    exact add_zero _
  rcases hsettled with hsettled | hsettled
  · exact ⟨Or.inl hsettled.live_eq, hsettled.internal, hlock, hsettled.flushed_eq, openFiles, hlast,
      hcounted⟩
  · exact ⟨Or.inr hsettled.live_eq, hsettled.internal, hlock, hsettled.flushed_eq, openFiles, hlast,
      hcounted⟩

theorem Bad.not_transactional {infos : List (SegmentInfo Doc)} (h : Bad c s) (hdone : s.place = .done) :
    ¬ Transactional c infos s := by
  obtain ⟨segmentInfos, flushed, d, others, lock, rollback, localFlushed, place⟩ := s
  obtain rfl : place = .done := hdone
  intro htrans
  rcases h with hlock | hinflated | hleaked
  · exact htrans.released hlock
  · exact absurd htrans.flushed (ne_of_gt hinflated)
  · obtain ⟨openFiles, hlast, hcounted⟩ := htrans.counted
    obtain ⟨f, hf⟩ := List.exists_mem_of_ne_nil _ c.mergedFiles.property
    have hpos : 0 < (c.mergedFiles.val : Multiset String).count f := Multiset.count_pos.mpr hf
    have heq := hcounted f
    rw [count_eq hleaked.inv hleaked.outstanding_eq hlast] at heq
    omega

/-- A call that has ended leaves things as it should exactly if every step of its run meets the
conditions. -/
theorem transactional_iff [DecidableEq Doc] {s₀ : State Doc} {events : List (Event Doc)}
    (hinit : Initial c s₀) (hrun : Runs.run (step c) s₀ events = some s) (hdone : s.place = .done) :
    Transactional c s₀.segmentInfos s ↔ Runs.Legal (step c) Meets s₀ events := by
  obtain ⟨hlegal, hgood⟩ | ⟨hlegal, hbad⟩ := Runs.legal_good_or_bad
    (fun _ _ _ h hmeets => h.step hmeets) (fun _ _ _ h hmeets => h.bad_step hmeets)
    (fun _ _ _ h => h.step) hinit.good hrun
  · exact iff_of_true (hgood.transactional hdone) hlegal
  · exact iff_of_false (hbad.not_transactional hdone) hlegal

end Invariant

/-- An index with one segment, which has one document. -/
def oneDocument : List (SegmentInfo String) := [⟨"_0", false, [some "old"], ⟨["_0.cfs"], by decide⟩⟩]

def newDeleter : IndexFileDeleter.State :=
  ⟨IndexFileDeleter.fresh ["_0.cfs"] 0 fun _ => false, 0⟩

def oneDeleter : IndexFileDeleter.State :=
  (checkpoint newDeleter oneDocument none).getD newDeleter

def oneState (place : Place String) (lock : Lock) : State String :=
  ⟨oneDocument, 1, oneDeleter, 0, lock, [], 0, place⟩

theorem inv_newDeleter : Inv newDeleter.deleter newDeleter.outstanding where
  counted := ⟨fun _ => rfl, nofun, nofun, nofun⟩
  ids_nodup := List.nodup_nil
  ids_lt := nofun

theorem oneDeleter_spec : Inv oneDeleter.deleter oneDeleter.outstanding ∧ oneDeleter.outstanding = 0 ∧
    oneDeleter.deleter.lastFiles = [["_0.cfs"]] := by
  have hsome : (checkpoint newDeleter oneDocument none).isSome = true := by decide
  obtain ⟨d, hd⟩ := Option.isSome_iff_exists.mp hsome
  have heq : oneDeleter = d := by rw [oneDeleter, hd, Option.getD_some]
  rw [heq]
  exact stepped_of_checkpoint inv_newDeleter hd

/-- The document of a reader is added. -/
def addReader : Call String where
  sources := .readers [[some "new"]]
  mergedName := "_1"
  mergedFiles := ⟨["_1.cfs"], by decide⟩
  compoundFiles := ⟨["_1.cfs"], by decide⟩
  useCompoundFile := false

/-- The document of another directory is added. -/
def addDirectory : Call String where
  sources := .dirs [.index [⟨"_0", false, [none, some "new"], ⟨["_0.cfs"], by decide⟩⟩]]
  mergedName := "_1"
  mergedFiles := ⟨["_1.cfs"], by decide⟩
  compoundFiles := ⟨["_1.cfs"], by decide⟩
  useCompoundFile := true

def nexts (n : Nat) : List (Event String) := List.replicate n (.next .ok none)

theorem initial_oneState {c : Call String} {place : Place String} {lock : Lock}
    (hstart : (∃ sources, c.sources = .dirs sources ∧ place = .starting .adding ∧ lock = .outside) ∨
      ∃ sources, c.sources = .readers sources ∧ place = .optimizing ∧ lock = .reading) :
    Initial c (oneState place lock) where
  inv := oneDeleter_spec.1
  others := oneDeleter_spec.2.1
  checkpointed := ⟨none, oneDeleter_spec.2.2⟩
  internal := rfl
  flushed := rfl
  start := hstart

/-- The directory is read and its segment is merged on its own. -/
def copyDirectory : List (Event String) :=
  nexts 6 ++ .commitMerge 1 1 ⟨"_1", false, [some "new"], ⟨["_1.cfs"], by decide⟩⟩ none :: nexts 2

theorem transactional_iff_addDirectory :
    ∃ s, Runs.run (step addDirectory) (oneState (.starting .adding) .outside) copyDirectory = some s ∧
      (Transactional addDirectory oneDocument s ↔
        Runs.Legal (step addDirectory) Meets (oneState (.starting .adding) .outside) copyDirectory) := by
  have hsome : (Runs.run (step addDirectory) (oneState (.starting .adding) .outside)
      copyDirectory).map (fun s => s.place.isDone) = some true := by decide
  obtain ⟨s, hrun, hdone⟩ := Option.map_eq_some_iff.mp hsome
  exact ⟨s, hrun, transactional_iff (initial_oneState (Or.inl ⟨_, rfl, rfl, rfl⟩)) hrun
    (Place.isDone_iff.mp hdone)⟩

/-- The one document of a reader is added to an index with one document, and three are counted. -/
theorem flushed_counted_twice :
    ¬ ∀ (c : Call String) (s₀ s : State String) (events : List (Event String)), Initial c s₀ →
      Runs.run (step c) s₀ events = some s → s.place = .done → Transactional c s₀.segmentInfos s := by
  intro hclaim
  have hsome : (Runs.run (step addReader) (oneState .optimizing .reading) (nexts 8)).map
      (fun s => (s.place.isDone, s.flushedDocCount, docCount s.segmentInfos)) = some (true, 3, 2) := by
    decide
  obtain ⟨s, hrun, heq⟩ := Option.map_eq_some_iff.mp hsome
  obtain ⟨hdone, hcounts⟩ := Prod.mk.inj heq
  obtain ⟨hflushed, hcount⟩ := Prod.mk.inj hcounts
  have htrans := hclaim addReader _ s (nexts 8) (initial_oneState (Or.inr ⟨_, rfl, rfl, rfl⟩)) hrun
    (Place.isDone_iff.mp hdone)
  have hsame := htrans.flushed
  rw [hflushed, hcount] at hsame
  cases hsame

end AddIndexes
end LucenePlusPlus
