import LucenePlusPlus.CommitDurability

/-!
A writer that is opened on an index keeps a complete commit in every run. A failure to sync a new segments
file is dropped, however, and the file is deleted: then the deleter is told of a commit that is not
there, and a policy that keeps only the last commit deletes the one before.
-/

namespace LucenePlusPlus
namespace IndexWriter
open IndexFileDeleter (ReadResult readInfos)

/-- What the directory holds when the writer is opened. -/
def readable (read : String → ReadResult) (fileName : String) : Option (List String) :=
  match read fileName with
  | .files files => some files
  | _ => none

/-- `init`, once the segment infos are read and the deleter is constructed. -/
def init (deleter : IndexFileDeleter) (read : String → ReadResult) (segmentInfos : SegmentInfos)
    (changeCount : Nat) : IndexWriter where
  files := ⟨deleter, 0⟩
  infos := readable read
  segmentInfos := segmentInfos
  changeCount := changeCount
  lastCommitChangeCount := 0
  pendingCommit := none
  pendingCommitChangeCount := 0
  syncing := []

/-- An index, as a writer finds it: `infos` carry the generation of the most recent commit, which is
complete, and the files of some commit. -/
structure Index (directory listing : List String) (read : String → ReadResult) (infos : SegmentInfos)
    (openFiles : Option (List String)) : Prop where
  listing : ∀ f ∈ directory, f ∈ listing
  segmentsFiles : ∀ f files, read f = .files files → f ∈ directory ∧
    (readInfos f files).getCurrentSegmentFileName = f ∧
    SegmentInfos.generationFromSegmentsFileName f ≤ infos.generation ∧ ∀ g ∈ files, SegmentFile g
  current : ∃ files, read (segmentsN infos.generation) = .files files ∧ ∀ f ∈ files, f ∈ directory
  generation : 0 ≤ infos.generation
  lastGeneration : infos.lastGeneration = infos.generation
  notPending : infos.pendingSegnOutput = false
  files : ∀ f ∈ infos.files ++ openFiles.getD [], SegmentFile f ∧ f ∈ directory

variable {directory listing : List String} {read : String → ReadResult} {infos : SegmentInfos}
  {openFiles : Option (List String)}

theorem Index.last_eq (h : Index directory listing read infos openFiles) {d d₀ : IndexFileDeleter}
    (hloaded : IndexFileDeleter.Loaded read listing d d₀) :
    ∃ c, d₀.sortCommits.commits.getLast? = some c ∧ c.deleted = false ∧
      c.segmentsFileName = segmentsN infos.generation ∧
      ∃ files, read (segmentsN infos.generation) = .files files ∧
        c.files = segmentsN infos.generation :: files := by
  have hperm := d₀.perm_sortCommits
  obtain ⟨current, hcurrent, -⟩ := h.current
  obtain ⟨haccept, hne, hstart⟩ := SegmentInfos.accept_segmentsFileName h.generation
  obtain ⟨c₁, hc₁, -, hgen₁, -⟩ := hloaded.lists _ (h.listing _ (h.segmentsFiles _ _ hcurrent).1) current
    ⟨haccept, hne, hstart, hcurrent⟩
  rw [SegmentInfos.generationFromSegmentsFileName_eq h.generation] at hgen₁
  cases hlast : d₀.sortCommits.commits.getLast? with
  | none =>
      rw [List.getLast?_eq_none_iff] at hlast
      have hmem := hperm.mem_iff.mpr hc₁
      rw [hlast] at hmem
      cases hmem
  | some c =>
      have hmem := hperm.mem_iff.mp (List.mem_of_getLast? hlast)
      obtain ⟨fileName, files, hread, hname, hgen, hfiles⟩ := hloaded.loading.readFrom c hmem
      obtain ⟨-, hcanonical, hle, -⟩ := h.segmentsFiles fileName files hread
      -- the commit points are sorted by generation, so the last one has that of the writer
      have hsorted := d₀.pairwise_sortCommits
      have hge : infos.generation ≤ c.generation := by
        obtain ⟨before, hsplit⟩ := List.getLast?_eq_some_iff.mp hlast
        have hmem₁ := hperm.mem_iff.mpr hc₁
        rw [hsplit] at hsorted hmem₁
        rcases List.mem_append.mp hmem₁ with hbefore | heq
        · rw [← hgen₁]
          exact (List.pairwise_append.mp hsorted).2.2 c₁ hbefore c (List.mem_singleton_self _)
        · rw [List.mem_singleton.mp heq] at hgen₁
          exact hgen₁.ge
      have heq : fileName = segmentsN infos.generation := by
        rw [← hcanonical, SegmentInfos.getCurrentSegmentFileName, readInfos]
        simp only
        rw [show SegmentInfos.generationFromSegmentsFileName fileName = infos.generation by omega]
      rw [heq] at hcanonical hread
      refine ⟨c, rfl, hloaded.loading.live c hmem, ?_, files, hread, ?_⟩
      · rw [hname, heq, hcanonical]
      · rw [hfiles, SegmentInfos.allFiles, if_pos rfl, heq, hcanonical]
        rfl

theorem mem_directory_of_held {d d' : IndexFileDeleter} {outstanding : Multiset String} {f : String}
    (h : IndexFileDeleter.Inv d' outstanding) (hshrinks : IndexFileDeleter.Shrinks d d')
    (hheld : f ∈ d'.held outstanding) (hf : f ∈ d.directory) : f ∈ d'.directory := by
  rcases hshrinks.directory f hf with hmem | ⟨count, hattempt⟩
  · exact hmem
  · exact absurd hheld (h.counted.attempts f count hattempt).2

theorem Index.init (h : Index directory listing read infos openFiles) {nextCommit changeCount : Nat}
    {failures : Nat → Bool} {policy : IndexFileDeleter.Policy} (hpolicy : KeepsLast policy)
    {d : IndexFileDeleter}
    (hinit : IndexFileDeleter.Initialized (.fresh directory nextCommit failures) listing read infos
      openFiles policy d)
    (hfree : ∀ gen, infos.generation < gen → segmentsN gen ∉ d.deletable) :
    WriterInv (IndexWriter.init d read infos changeCount) := by
  obtain ⟨hinv, hshrinks, hlastFiles, hpending, d₀, id, -, hloaded, hpruned⟩ := hinit
  have hcurrent : ∀ f ∈ infos.files, f ∈ d.lastFiles.flatten := by
    rw [hlastFiles]
    exact fun f hf => List.mem_flatten.mpr ⟨infos.files, List.mem_cons_self, hf⟩
  refine ⟨⟨hinv, Multiset.zero_le _, hcurrent, fun f hf => ?_, ?_, h.generation, h.notPending,
    fun gen hlt => ⟨?_, hfree gen hlt⟩, nofun⟩, nofun⟩
  · have hf : f ∈ infos.files := by
      rcases List.mem_append.mp hf with hf | hf
      · exact hf
      · cases hf
    exact mem_directory_of_held hinv hshrinks (mem_held_of_current (hcurrent f hf))
      (h.files f (List.mem_append_left _ hf)).2
  · obtain ⟨c, hlast, hdel, hname, files, hread, hfiles⟩ := h.last_eq hloaded
    have hperm := d₀.perm_sortCommits
    have hnodup := (hperm.map CommitPoint.id).nodup_iff.mpr hloaded.loading.inv.ids_nodup
    have hmem := hpruned.survives c (List.mem_of_getLast? hlast) hdel (hpolicy _ _ hnodup hlast)
    refine ⟨c, hmem, hdel, infos.generation, h.generation, hname, files, hfiles, ?_, fun f hf => ?_⟩
    · change readable read _ = _
      rw [readable, hread]
    · refine mem_directory_of_held hinv hshrinks
        (IndexFileDeleter.mem_held_of_mem_live hmem hdel hf) ?_
      obtain ⟨current, hcurrent', hpresent⟩ := h.current
      rw [hread] at hcurrent'
      cases hcurrent'
      rw [hfiles] at hf
      rcases List.mem_cons.mp hf with rfl | hf
      · exact (h.segmentsFiles _ _ hread).1
      · exact hpresent f hf
  · -- the files that are counted are those of commits, of no later generation, and of segments
    have hlt : infos.generation < gen := hlt
    have hpos := h.generation.trans hlt.le
    have hnot : segmentsN gen ∉ d.held 0 := by
      rw [IndexFileDeleter.held, IndexFileDeleter.pendingFiles, hpending, hlastFiles]
      simp only [List.flatMap_nil, Multiset.coe_nil, add_zero, Multiset.mem_add, Multiset.mem_coe]
      rintro (hlive | hopen)
      · obtain ⟨c, hc, hmem⟩ := List.mem_flatMap.mp hlive
        obtain ⟨hc, hdel⟩ := List.mem_filter.mp hc
        obtain ⟨c₀, hc₀, rfl | rfl⟩ := hpruned.descends c hc
        · have hmem₀ := d₀.perm_sortCommits.mem_iff.mp hc₀
          obtain ⟨fileName, files, hread, hname, -, hfiles⟩ := hloaded.loading.readFrom c hmem₀
          obtain ⟨-, hcanonical, hle, hsegments⟩ := h.segmentsFiles fileName files hread
          rw [hfiles, SegmentInfos.allFiles, if_pos rfl] at hmem
          rcases List.mem_cons.mp hmem with heq | hmem
          · have heq := congrArg SegmentInfos.generationFromSegmentsFileName (heq.trans hcanonical)
            rw [SegmentInfos.generationFromSegmentsFileName_eq hpos] at heq
            omega
          · exact notMem_of_segmentFile hpos hsegments hmem
        · cases hdel
      · have hflat : (infos.files :: openFiles.toList).flatten = infos.files ++ openFiles.getD [] := by
          cases openFiles <;> simp
        rw [hflat] at hopen
        exact notMem_of_segmentFile hpos (fun f hf => (h.files f hf).1) hopen
    change d.count _ = 0
    rw [hinv.counted.count_eq, Multiset.count_eq_zero_of_notMem hnot]
    rfl

theorem keepsLast_keepOnlyLastCommit : KeepsLast IndexFileDeleter.keepOnlyLastCommit := by
  intro commits c hnodup hlast hmem
  obtain ⟨before, rfl⟩ := List.getLast?_eq_some_iff.mp hlast
  rw [IndexFileDeleter.keepOnlyLastCommit, List.map_append, List.map_singleton,
    List.dropLast_concat] at hmem
  rw [List.map_append, List.map_singleton, List.nodup_append] at hnodup
  exact hnodup.2.2 c.id hmem c.id (List.mem_singleton_self _) rfl

/-! ### A second commit -/

/-- An index with one commit, opened by a writer. -/
def firstCommit : List String := ["segments_1", "_0.cfs"]

def firstInfos : SegmentInfos := ⟨1, 1, ["_0.cfs"], false⟩

def readFirst (fileName : String) : ReadResult :=
  if fileName = "segments_1" then .files ["_0.cfs"] else .ioException

def opened : IndexFileDeleter :=
  match (IndexFileDeleter.fresh firstCommit 0 fun _ => false).init firstCommit readFirst firstInfos
    none IndexFileDeleter.keepOnlyLastCommit with
  | .ok (d, _) => d
  | .error _ => .fresh [] 0 fun _ => false

/-- A new segment is committed. -/
def secondCommit (out : SegmentInfos.FinishOutcome) : List Op :=
  [.deleter (.createOutput "_1.cfs"), .checkpoint ["_0.cfs", "_1.cfs"] none,
    .startCommit ["_0.cfs", "_1.cfs"] 0, .prepareCommit 0 true ⟨true, true, true⟩,
    .finishCommit out IndexFileDeleter.keepOnlyLastCommit]

theorem index_firstCommit : Index firstCommit firstCommit readFirst firstInfos none where
  listing f hf := hf
  segmentsFiles f files hread := by
    unfold readFirst at hread
    split at hread
    · rename_i heq
      subst heq
      cases hread
      exact ⟨by decide, by decide, by decide, by unfold SegmentFile; decide⟩
    · cases hread
  current := ⟨["_0.cfs"], by decide, by decide⟩
  generation := by decide
  lastGeneration := rfl
  notPending := rfl
  files := by unfold SegmentFile; decide

theorem opened_eq : ∃ deleted, (IndexFileDeleter.fresh firstCommit 0 fun _ => false).init firstCommit
    readFirst firstInfos none IndexFileDeleter.keepOnlyLastCommit = .ok (opened, deleted) := by
  have hok : ((IndexFileDeleter.fresh firstCommit 0 fun _ => false).init firstCommit readFirst
    firstInfos none IndexFileDeleter.keepOnlyLastCommit).toOption.isSome = true := by decide
  unfold opened
  cases hd : (IndexFileDeleter.fresh firstCommit 0 fun _ => false).init firstCommit readFirst
      firstInfos none IndexFileDeleter.keepOnlyLastCommit with
  | error e =>
      rw [hd] at hok
      cases hok
  | ok st => exact ⟨st.2, rfl⟩

theorem legal_secondCommit (out : SegmentInfos.FinishOutcome) {P : Op → Prop}
    (hP : ∀ op ∈ secondCommit out, P op) :
    Runs.Legal step (fun w op => Legal w op ∧ P op) (init opened readFirst firstInfos 0)
      (secondCommit out) := by
  have hlegal : ∀ op ∈ (secondCommit out).drop 3, ∀ w, Legal w op := by
    intro op hop w
    simp only [secondCommit, List.drop_succ_cons, List.drop_zero, List.mem_cons, List.not_mem_nil,
      or_false] at hop
    rcases hop with rfl | rfl
    · trivial
    · exact keepsLast_keepOnlyLastCommit
  refine ⟨⟨?_, hP _ (by simp [secondCommit])⟩, fun w₁ hw₁ => ?_⟩
  · unfold Legal LegalDeleter SegmentFile
    decide
  obtain rfl := Option.get_of_eq_some (by decide) hw₁
  refine ⟨⟨?_, hP _ (by simp [secondCommit])⟩, fun w₂ hw₂ => ?_⟩
  · unfold Legal SegmentFile
    decide
  obtain rfl := Option.get_of_eq_some (by decide) hw₂
  refine ⟨⟨?_, hP _ (by simp [secondCommit])⟩, fun w₃ _ => ?_⟩
  · unfold Legal
    decide
  refine ⟨⟨hlegal _ (by simp [secondCommit]) _, hP _ (by simp [secondCommit])⟩, fun w₄ _ => ?_⟩
  exact ⟨⟨hlegal _ (by simp [secondCommit]) _, hP _ (by simp [secondCommit])⟩, fun _ _ => trivial⟩

/-- In every run in which a failing sync of a new segments file shows, a complete commit stays in the
directory, and every commit that fails is reported. The writer is opened with no deletion pending of a
file that a later commit is going to write. -/
theorem commits_durable {nextCommit changeCount : Nat} {failures : Nat → Bool}
    {policy : IndexFileDeleter.Policy} {d : IndexFileDeleter} {deleted : Bool} {ops : List Op}
    (hindex : Index directory listing read infos openFiles) (hpolicy : KeepsLast policy)
    (hbuilt : IndexFileDeleter.BuiltOnCommit (.fresh directory nextCommit failures) listing read infos
      openFiles)
    (hinit : (IndexFileDeleter.fresh directory nextCommit failures).init listing read infos openFiles
      policy = .ok (d, deleted))
    (hfree : ∀ gen, infos.generation < gen → segmentsN gen ∉ d.deletable)
    (hlegal : Runs.Legal step (fun w op => Legal w op ∧ SyncReported op)
      (init d read infos changeCount) ops) :
    ∃ w, Runs.run step (init d read infos changeCount) ops = some w ∧ Durable w ∧
      ∀ pendingCommit, w.pendingCommit = some pendingCommit → ∀ out policy, out.fails = true →
        (FailureReported w pendingCommit out policy ↔ SyncReported (.finishCommit out policy)) := by
  have hloading := IndexFileDeleter.loading_fresh read directory nextCommit failures
  have hinv : WriterInv (init d read infos changeCount) :=
    hindex.init hpolicy ((hloading.init hbuilt).2 d deleted hinit) hfree
  obtain ⟨w, hrun, hw⟩ := Runs.legal_run_total (fun w op => WriterInv.step) hinv hlegal
  exact ⟨w, hrun, hw.durable, fun pendingCommit hpending out policy hfails =>
    hw.failureReported_iff hpending hfails policy⟩

theorem commits_durable_second_commit :
    ∃ w, Runs.run step (init opened readFirst firstInfos 0)
        (secondCommit ⟨true, true, true, true, true⟩) = some w ∧ Durable w := by
  obtain ⟨deleted, hopened⟩ := opened_eq
  have hload : ((IndexFileDeleter.fresh firstCommit 0 fun _ => false).loadCommits firstCommit readFirst
      firstInfos).toOption.map (fun st => st.1.commits.map CommitPoint.files) =
        some [["segments_1", "_0.cfs"]] := by decide
  have hbuilt : IndexFileDeleter.BuiltOnCommit (.fresh firstCommit 0 fun _ => false) firstCommit
      readFirst firstInfos none := by
    intro d₀ id hd₀ f hf _
    rw [hd₀] at hload
    have hcommits : d₀.commits.map CommitPoint.files = [["segments_1", "_0.cfs"]] :=
      Option.some.inj hload
    obtain ⟨c, hc, hfiles⟩ : ∃ c ∈ d₀.commits, c.files = ["segments_1", "_0.cfs"] :=
      List.mem_map.mp (by rw [hcommits]; exact List.mem_singleton_self _)
    refine ⟨c, hc, ?_⟩
    rw [List.mem_singleton.mp hf, hfiles]
    decide
  have hfree : ∀ gen, firstInfos.generation < gen → segmentsN gen ∉ opened.deletable := by
    intro gen _
    rw [show opened.deletable = [] by decide]
    exact List.not_mem_nil
  obtain ⟨w, hrun, hdurable, -⟩ := commits_durable index_firstCommit keepsLast_keepOnlyLastCommit hbuilt
    hopened hfree (legal_secondCommit ⟨true, true, true, true, true⟩ fun op hop => by
      simp only [secondCommit, List.mem_cons, List.not_mem_nil, or_false] at hop
      rcases hop with rfl | rfl | rfl | rfl | rfl <;> trivial)
  exact ⟨w, hrun, hdurable⟩

/-- The sync of the second segments file fails, and the file is deleted: nothing is raised, and the policy
has deleted the first commit. -/
theorem failed_sync_not_durable :
    Runs.Legal step Legal (init opened readFirst firstInfos 0)
        (secondCommit ⟨true, true, false, true, true⟩) ∧
      ∃ w, Runs.run step (init opened readFirst firstInfos 0)
        (secondCommit ⟨true, true, false, true, true⟩) = some w ∧ ¬ Durable w := by
  have hlegal := legal_secondCommit ⟨true, true, false, true, true⟩ fun (_ : Op) _ => trivial
  refine ⟨hlegal.mono fun _ _ => And.left, _, (Option.some_get (by decide)).symm, ?_⟩
  rintro ⟨gen, hgen, hmem, -⟩
  obtain ⟨-, hne, hstart⟩ := SegmentInfos.accept_segmentsFileName hgen
  have hnone : ∀ f ∈ ((Runs.run step (init opened readFirst firstInfos 0)
      (secondCommit ⟨true, true, false, true, true⟩)).get (by decide)).files.deleter.directory,
      f = IndexFileNames.segmentsGen ∨
        IndexFileNames.startsWith f IndexFileNames.segments = false := by decide
  rcases hnone _ hmem with heq | hnot
  · exact hne heq
  · rw [hnot] at hstart
    cases hstart

end IndexWriter
end LucenePlusPlus
