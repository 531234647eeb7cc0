import LucenePlusPlus.CommitPoints

/-!
The constructor of the deleter: it loads the commits that a directory listing shows, deletes what none
of them refers to, and protects the infos it was given.
-/

namespace LucenePlusPlus

/-- The commit point is that of a segments file, which is the first of its files. -/
def CommitPoint.Named (c : CommitPoint) : Prop :=
  ∃ gen : Int, 0 ≤ gen ∧ ∃ files : List String,
    c.segmentsFileName = IndexFileNames.fileNameFromGeneration IndexFileNames.segments "" gen ∧
      c.files = c.segmentsFileName :: files

namespace IndexFileDeleter

theorem named_newCommitPoint (d : IndexFileDeleter) {infos : SegmentInfos}
    (h : 0 ≤ infos.lastGeneration) : (d.newCommitPoint infos).Named :=
  ⟨infos.lastGeneration, h, infos.files, rfl, rfl⟩

/-- The commit point was read from a segments file. -/
def ReadFrom (read : String → ReadResult) (c : CommitPoint) : Prop :=
  ∃ fileName files, read fileName = .files files ∧
    c.segmentsFileName = (readInfos fileName files).getCurrentSegmentFileName ∧
    c.generation = SegmentInfos.generationFromSegmentsFileName fileName ∧
    c.files = (readInfos fileName files).allFiles true

theorem ReadFrom.named {read : String → ReadResult} {c : CommitPoint} (h : ReadFrom read c) :
    c.Named := by
  obtain ⟨fileName, files, -, hname, -, hfiles⟩ := h
  have hgen : 0 ≤ SegmentInfos.generationFromSegmentsFileName fileName := by
    unfold SegmentInfos.generationFromSegmentsFileName
    split <;> omega
  exact ⟨_, hgen, files, hname, by rw [hfiles, hname]; rfl⟩

theorem Counted.enter {d : IndexFileDeleter} {held : Multiset String} (h : Counted d held)
    (f : String) : Counted (d.setRefCount f (some (d.getRefCount f))) held where
  count_eq g := by
    rw [count_setRefCount, Option.getD_some, getRefCount_count]
    split
    · rename_i heq
      rw [heq, h.count_eq]
    · exact h.count_eq g
  count_pos g rc hg hinit := by
    rcases eq_or_ne g f with rfl | hne
    · simp only [IndexFileDeleter.setRefCount, Function.update_self, Option.some.injEq] at hg
      unfold getRefCount at hg
      cases hf : d.refCounts g with
      | none =>
          rw [hf] at hg
          rw [← hg] at hinit
          cases hinit
      | some rc' =>
          rw [hf] at hg
          exact h.count_pos g rc (by rw [hf, ← hg]; rfl) hinit
    · simp only [IndexFileDeleter.setRefCount, Function.update_of_ne hne] at hg
      exact h.count_pos g rc hg hinit
  deletable := h.deletable
  attempts := h.attempts

/-- A deleter in the first pass of the constructor: nothing is deleted yet. -/
structure Loading (read : String → ReadResult) (d : IndexFileDeleter) : Prop where
  inv : Inv d 0
  untouched : ∀ g, d.Untouched g
  live : ∀ c ∈ d.commits, c.deleted = false
  readFrom : ∀ c ∈ d.commits, ReadFrom read c

theorem Loading.loadCommit {read : String → ReadResult} {d : IndexFileDeleter} (h : Loading read d)
    {fileName : String} {files : List String} (hread : read fileName = .files files) :
    ∃ d', d.loadCommit (readInfos fileName files) = .ok d' ∧ Loading read d' ∧ Shrinks d d' ∧
      d'.commits = d.commits ++ [d.newCommitPoint (readInfos fileName files)] := by
  generalize hsis : readInfos fileName files = sis
  have hadd : Counted (d.addCommit sis) (d.held 0) := h.inv.counted.congr rfl rfl rfl
  obtain ⟨d', hinc, h', hbook, hun⟩ := hadd.incRefs fun f (_ : f ∈ sis.allFiles true) => h.untouched f
  obtain ⟨hnodup, hlt⟩ := ids_addCommit sis h.inv.ids_nodup h.inv.ids_lt
  have hclear : Shrinks d (d.addCommit sis) := ⟨fun _ h => h, fun _ h => Or.inl h⟩
  refine ⟨d', by rw [IndexFileDeleter.loadCommit, hinc]; rfl, ⟨⟨?_, ?_, ?_⟩, fun g => ?_, ?_, ?_⟩,
    hclear.trans hbook.toShrinks, hbook.commits_eq⟩
  · rw [hbook.held_eq, held_addCommit]
    exact h'
  · rw [hbook.commits_eq]
    exact hnodup
  · rw [hbook.commits_eq, hbook.nextCommit_eq]
    exact hlt
  · exact hun g (h.untouched g)
  · rw [hbook.commits_eq]
    intro c hc
    rcases List.mem_append.mp hc with hc | hc
    · exact h.live c hc
    · rw [List.mem_singleton.mp hc]
      rfl
  · rw [hbook.commits_eq]
    intro c hc
    rcases List.mem_append.mp hc with hc | hc
    · exact h.readFrom c hc
    · rw [List.mem_singleton.mp hc, ← hsis]
      exact ⟨fileName, files, hread, rfl, rfl, rfl⟩

theorem Loading.enter {read : String → ReadResult} {d : IndexFileDeleter} (h : Loading read d)
    (f : String) : Loading read (d.setRefCount f (some (d.getRefCount f))) where
  inv := h.inv.of_bookkeeping (bookkeeping_setRefCount d f _) (h.inv.counted.enter f)
  untouched := h.untouched
  live := h.live
  readFrom := h.readFrom

/-- A commit of the directory that can be read. -/
def IsCommit (read : String → ReadResult) (fileName : String) (files : List String) : Prop :=
  IndexFileNameFilter.accept fileName = true ∧ fileName ≠ IndexFileNames.segmentsGen ∧
    IndexFileNames.startsWith fileName IndexFileNames.segments = true ∧ read fileName = .files files

/-- The commit point of a commit read from the directory is listed. -/
def Lists (d : IndexFileDeleter) (fileName : String) (files : List String) : Prop :=
  ∃ c ∈ d.commits, c.segmentsFileName = (readInfos fileName files).getCurrentSegmentFileName ∧
    c.generation = SegmentInfos.generationFromSegmentsFileName fileName ∧
    c.files = (readInfos fileName files).allFiles true

/-- One pass of the constructor over a part of the listing. -/
structure Loaded (read : String → ReadResult) (listing : List String) (d d' : IndexFileDeleter) :
    Prop where
  loading : Loading read d'
  shrinks : Shrinks d d'
  commits_mono : ∀ c ∈ d.commits, c ∈ d'.commits
  lists : ∀ fileName ∈ listing, ∀ files, IsCommit read fileName files → Lists d' fileName files

theorem Loading.visitFile {read : String → ReadResult} {d : IndexFileDeleter} (h : Loading read d)
    (current : SegmentInfos) (cur : Option Nat) (fileName : String) :
    IndexFileDeleter.visitFile read current (d, cur) fileName ≠ .error .assertion ∧
    ∀ d' cur', IndexFileDeleter.visitFile read current (d, cur) fileName = .ok (d', cur') →
      Loaded read [fileName] d d' := by
  have henter := h.enter fileName
  have hshrinks := (bookkeeping_setRefCount d fileName (some (d.getRefCount fileName))).toShrinks
  have hskip : ∀ d₁ : IndexFileDeleter, Loading read d₁ → Shrinks d d₁ → d₁.commits = d.commits →
      (∀ files, ¬ IsCommit read fileName files) →
      (.ok (d₁, cur) : Except InitError (IndexFileDeleter × Option Nat)) ≠ .error .assertion ∧
      ∀ d' cur', (.ok (d₁, cur) : Except InitError (IndexFileDeleter × Option Nat)) = .ok (d', cur') →
        Loaded read [fileName] d d' := by
    intro d₁ h₁ hshrinks₁ hcommits hno
    refine ⟨nofun, fun d' cur' heq => ?_⟩
    cases heq
    refine ⟨h₁, hshrinks₁, fun c hc => hcommits ▸ hc, fun g hg files hc => absurd hc ?_⟩
    rw [List.mem_singleton.mp hg]
    exact hno files
  unfold IndexFileDeleter.visitFile
  simp only
  split
  · rename_i haccept
    split
    · rename_i hstart
      cases hread : read fileName with
      | files files =>
          obtain ⟨d₁, hload, h₁, hshrinks₁, hcommits⟩ :=
            henter.loadCommit hread
          simp only [hload]
          refine ⟨nofun, fun d' cur' heq => ?_⟩
          cases heq
          refine ⟨h₁, hshrinks.trans hshrinks₁, fun c hc => ?_, fun g hg files' hc' => ?_⟩
          · rw [hcommits]
            exact List.mem_append_left _ hc
          · rw [List.mem_singleton.mp hg] at hc' ⊢
            obtain rfl : files = files' := ReadResult.files.inj (hread.symm.trans hc'.2.2.2)
            refine ⟨d.newCommitPoint (readInfos fileName files), ?_, rfl, rfl, rfl⟩
            rw [hcommits]
            exact List.mem_append_right _ (List.mem_singleton_self _)
      | ioException =>
          simp only
          split
          · exact ⟨nofun, nofun⟩
          · exact hskip _ henter hshrinks rfl fun files hc => by simp [IsCommit, hread] at hc
      | otherException => exact hskip _ henter hshrinks rfl fun files hc => by simp [IsCommit, hread] at hc
    · rename_i hstart
      exact hskip _ henter hshrinks rfl fun files hc => hstart hc.2.2.1
  · rename_i haccept
    exact hskip _ h (.refl d) rfl fun files hc => haccept ⟨hc.1, hc.2.1⟩

theorem Loaded.trans {read : String → ReadResult} {listing₁ listing₂ : List String}
    {d₁ d₂ d₃ : IndexFileDeleter} (h₁ : Loaded read listing₁ d₁ d₂)
    (h₂ : Loaded read listing₂ d₂ d₃) : Loaded read (listing₁ ++ listing₂) d₁ d₃ where
  loading := h₂.loading
  shrinks := h₁.shrinks.trans h₂.shrinks
  commits_mono c hc := h₂.commits_mono c (h₁.commits_mono c hc)
  lists g hg files hc := by
    rcases List.mem_append.mp hg with hg | hg
    · obtain ⟨c, hmem, hspec⟩ := h₁.lists g hg files hc
      exact ⟨c, h₂.commits_mono c hmem, hspec⟩
    · exact h₂.lists g hg files hc

theorem Loading.foldlM_visitFile {read : String → ReadResult} {d : IndexFileDeleter}
    (h : Loading read d) (current : SegmentInfos) (cur : Option Nat) (listing : List String) :
    listing.foldlM (IndexFileDeleter.visitFile read current) (d, cur) ≠ .error .assertion ∧
    ∀ d' cur', listing.foldlM (IndexFileDeleter.visitFile read current) (d, cur) = .ok (d', cur') →
      Loaded read listing d d' := by
  induction listing generalizing d cur with
  | nil =>
      refine ⟨nofun, fun d' cur' heq => ?_⟩
      cases heq
      exact ⟨h, .refl d, fun c hc => hc, nofun⟩
  | cons fileName listing ih =>
      obtain ⟨hno, hstep⟩ := h.visitFile current cur fileName
      rw [List.foldlM_cons]
      cases hvisit : IndexFileDeleter.visitFile read current (d, cur) fileName with
      | error e =>
          rw [hvisit] at hno
          exact ⟨fun heq => hno heq, nofun⟩
      | ok st =>
          obtain ⟨d₁, cur₁⟩ := st
          have h₁ := hstep d₁ cur₁ hvisit
          obtain ⟨hno', hrest⟩ := ih h₁.loading cur₁
          exact ⟨hno', fun d' cur' heq => h₁.trans (hrest d' cur' heq)⟩

theorem Loading.loadCommits {read : String → ReadResult} {d : IndexFileDeleter}
    (h : Loading read d) (listing : List String) (infos : SegmentInfos) :
    d.loadCommits listing read infos ≠ .error .assertion ∧
    ∀ d' id, d.loadCommits listing read infos = .ok (d', id) → Loaded read listing d d' := by
  obtain ⟨hno, hfold⟩ := h.foldlM_visitFile infos none listing
  unfold IndexFileDeleter.loadCommits
  cases hst : listing.foldlM (IndexFileDeleter.visitFile read infos) (d, none) with
  | error e =>
      rw [hst] at hno
      refine ⟨fun heq => hno ?_, nofun⟩
      cases heq
      rfl
  | ok st =>
      obtain ⟨d₁, cur⟩ := st
      have h₁ := hfold d₁ cur hst
      change forceCurrent read infos (d₁, cur) ≠ _ ∧ ∀ d' id, forceCurrent read infos (d₁, cur) = _ → _
      cases cur with
      | some id =>
          refine ⟨nofun, fun d' id' heq => ?_⟩
          cases heq
          exact h₁
      | none =>
          unfold forceCurrent
          simp only
          cases hread : read infos.getCurrentSegmentFileName with
          | files files =>
              obtain ⟨d₂, hload, h₂, hshrinks₂, hcommits⟩ :=
                h₁.loading.loadCommit hread
              simp only [hload]
              refine ⟨nofun, fun d' id' heq => ?_⟩
              cases heq
              have h₂ : Loaded read [] d₁ d₂ := by
                refine ⟨h₂, hshrinks₂, fun c hc => ?_, nofun⟩
                rw [hcommits]
                exact List.mem_append_left _ hc
              have h := h₁.trans h₂
              rwa [List.append_nil] at h
          | ioException => exact ⟨nofun, nofun⟩
          | otherException => exact ⟨nofun, nofun⟩

theorem perm_sortCommits (d : IndexFileDeleter) : d.sortCommits.commits.Perm d.commits :=
  List.perm_insertionSort _ _

theorem pairwise_sortCommits (d : IndexFileDeleter) :
    d.sortCommits.commits.Pairwise fun c c' => c.generation ≤ c'.generation := by
  have : Std.Total fun c c' : CommitPoint => c.generation ≤ c'.generation :=
    ⟨fun c c' => le_total c.generation c'.generation⟩
  have : IsTrans CommitPoint fun c c' => c.generation ≤ c'.generation := ⟨fun _ _ _ => le_trans⟩
  exact List.pairwise_insertionSort _ _

theorem Inv.sortCommits {d : IndexFileDeleter} {outstanding : Multiset String}
    (h : Inv d outstanding) : Inv d.sortCommits outstanding := by
  have hperm := d.perm_sortCommits
  have hlive : (d.sortCommits.liveFiles : Multiset String) = d.liveFiles :=
    Multiset.coe_eq_coe.mpr ((hperm.filter _).flatMap_right _)
  refine ⟨?_, (hperm.map _).nodup_iff.mpr h.ids_nodup, fun c hc => h.ids_lt c (hperm.mem_iff.mp hc)⟩
  rw [held, hlive]
  exact h.counted.congr rfl rfl rfl

theorem Inv.deleteUnreferenced {d : IndexFileDeleter} {outstanding : Multiset String}
    (h : Inv d outstanding) (listing : List String) :
    Inv (d.deleteUnreferenced listing) outstanding ∧
      Bookkeeping d (d.deleteUnreferenced listing) ∧
      ∀ g, d.Untouched g → (g ∈ listing → g ∈ d.held outstanding) →
        (d.deleteUnreferenced listing).Untouched g := by
  have hbook : Bookkeeping d (d.deleteUnreferenced listing) := bookkeeping_foldl_deleteFile d _
  have hzero : ∀ f ∈ listing.filter (fun f => (d.refCounts f).any fun rc => rc.count = 0),
      f ∉ d.held outstanding := by
    intro f hf
    obtain ⟨-, hany⟩ := List.mem_filter.mp hf
    cases hrc : d.refCounts f with
    | none => simp [hrc] at hany
    | some rc =>
        simp only [hrc, Option.any_some, decide_eq_true_eq] at hany
        exact h.counted.notMem_of_count_eq_zero (by rw [count, hrc]; exact hany)
  refine ⟨h.of_bookkeeping hbook (h.counted.foldl_deleteFile hzero), hbook, fun g hg hheld => ?_⟩
  refine untouched_foldl_deleteFile hg fun hmem => hzero g hmem (hheld ?_)
  exact (List.mem_filter.mp hmem).1

/-- The incoming infos are read from, or built on, a commit that the first pass finds: a file of theirs
that the listing shows belongs to such a commit. -/
def BuiltOnCommit (d : IndexFileDeleter) (listing : List String) (read : String → ReadResult)
    (infos : SegmentInfos) (openFiles : Option (List String)) : Prop :=
  ∀ d₀ id, d.loadCommits listing read infos = .ok (d₀, id) →
    ∀ f ∈ infos.files ++ openFiles.getD [], f ∈ listing → ∃ c ∈ d₀.commits, f ∈ c.files

theorem loading_fresh (read : String → ReadResult) (directory : List String) (nextCommit : Nat)
    (failures : Nat → Bool) : Loading read (fresh directory nextCommit failures) where
  inv :=
    { counted := ⟨fun _ => rfl, nofun, nofun, nofun⟩
      ids_nodup := List.nodup_nil
      ids_lt := nofun }
  untouched _ := ⟨nofun, nofun⟩
  live := nofun
  readFrom := nofun

/-- What the constructor leaves: the counts are right, and the policy deleted no commit but those it
chose among the ones it was shown. -/
structure Initialized (d : IndexFileDeleter) (listing : List String) (read : String → ReadResult)
    (infos : SegmentInfos) (openFiles : Option (List String)) (policy : Policy)
    (d' : IndexFileDeleter) : Prop where
  inv : Inv d' 0
  shrinks : Shrinks d d'
  lastFiles_eq : d'.lastFiles = infos.files :: openFiles.toList
  commitsToDelete_eq : d'.commitsToDelete = []
  pruned : ∃ d₀ id, d.loadCommits listing read infos = .ok (d₀, id) ∧ Loaded read listing d d₀ ∧
    Pruned (policy d₀.sortCommits.commits) d₀.sortCommits.commits d'.commits

theorem Loading.init {read : String → ReadResult} {d : IndexFileDeleter} (h : Loading read d)
    {listing : List String} {infos : SegmentInfos} {openFiles : Option (List String)}
    {policy : Policy} (hbuilt : BuiltOnCommit d listing read infos openFiles) :
    d.init listing read infos openFiles policy ≠ .error .assertion ∧
    ∀ d' b, d.init listing read infos openFiles policy = .ok (d', b) →
      Initialized d listing read infos openFiles policy d' := by
  obtain ⟨hno, hload⟩ := h.loadCommits listing infos
  cases hst : d.loadCommits listing read infos with
  | error e =>
      rw [hst] at hno
      have heq : d.init listing read infos openFiles policy = .error e := by
        rw [IndexFileDeleter.init, hst]
        rfl
      rw [heq]
      refine ⟨fun he => hno ?_, nofun⟩
      cases he
      rfl
  | ok st =>
      obtain ⟨d₀, id⟩ := st
      have hloaded := hload d₀ id hst
      have h₀ := hloaded.loading
      obtain ⟨h₁, hbook₁, hun₁⟩ := h₀.inv.sortCommits.deleteUnreferenced listing
      obtain ⟨h₂, hshrinks₂, hpruned₂⟩ := h₁.runPolicy policy
      have hun₂ : ∀ f ∈ infos.files ++ openFiles.getD [],
          ((d₀.sortCommits.deleteUnreferenced listing).runPolicy policy).Untouched f := by
        intro f hf
        refine untouched_runPolicy policy (hun₁ f (h₀.untouched f) fun hmem => ?_)
        obtain ⟨c, hc, hfc⟩ := hbuilt d₀ id hst f hf hmem
        exact mem_held_of_mem_live (d₀.perm_sortCommits.mem_iff.mpr hc) (h₀.live c hc) hfc
      obtain ⟨d₃, hcheck, h₃, hshrinks₃, -, hcommits₃, hlast₃, -⟩ := h₂.checkpoint false (fun _ => [])
        (fun f hf => hun₂ f (List.mem_append_left _ hf))
        (fun f hf => hun₂ f (List.mem_append_right _ hf))
      obtain ⟨d₄, hdel, h₄, hshrinks₄, hpruned₄, hlast₄, hpending₄, -⟩ :=
        h₃.deleteCommits
      have heq : d.init listing read infos openFiles policy = .ok (d₄, d₃.isDeleted id) := by
        rw [IndexFileDeleter.init, hst]
        change orAssertion (IndexFileDeleter.checkpoint _ infos false openFiles _) >>= _ = _
        rw [hcheck]
        change orAssertion d₃.deleteCommits >>= _ = _
        rw [hdel]
        rfl
      rw [heq]
      refine ⟨nofun, fun d' b heq' => ?_⟩
      cases heq'
      have hsort : Shrinks d₀ d₀.sortCommits := ⟨fun _ h => h, fun _ h => Or.inl h⟩
      refine ⟨h₄, hloaded.shrinks.trans (hsort.trans (hbook₁.toShrinks.trans
        (hshrinks₂.trans (hshrinks₃.trans hshrinks₄)))), hlast₄.trans hlast₃, hpending₄, d₀,
        id, hst, hloaded, ?_⟩
      rw [hbook₁.commits_eq] at hpruned₂
      rw [hcommits₃ rfl] at hpruned₄
      have hpruned := hpruned₂.trans hpruned₄
      rwa [List.append_nil] at hpruned

end IndexFileDeleter
end LucenePlusPlus
