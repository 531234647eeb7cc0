import LucenePlusPlus.RefCounts

/-!
Commit points and checkpoints. The references held on files are those of the commit points that are not
deleted, of the deleted ones that are not processed yet, of the last checkpoint, and of the callers
(`held`). `Inv` is kept by every operation of the deleter.
-/

namespace LucenePlusPlus
namespace IndexFileDeleter

/-- The files of the commit points that are not deleted. -/
def liveFiles (d : IndexFileDeleter) : List String :=
  (d.commits.filter fun c => !c.deleted).flatMap CommitPoint.files

/-- The files of deleted commit points whose references have not been dropped yet. -/
def pendingFiles (d : IndexFileDeleter) : List String :=
  d.commitsToDelete.flatMap CommitPoint.files

/-- All references on files; `outstanding` are those of the callers. -/
def held (d : IndexFileDeleter) (outstanding : Multiset String) : Multiset String :=
  d.liveFiles + d.pendingFiles + d.lastFiles.flatten + outstanding

/-! ### Deleting commit points -/

/-- From the listed commit points `cs` to `cs'`: those with an id in `ids` may have been deleted, and
deleted ones may have been dropped. -/
structure Pruned (ids : List Nat) (cs cs' : List CommitPoint) : Prop where
  descends : ∀ c ∈ cs', ∃ c₀ ∈ cs, c = c₀ ∨ c = { c₀ with deleted := true }
  survives : ∀ c ∈ cs, c.deleted = false → c.id ∉ ids → c ∈ cs'

theorem Pruned.refl (cs : List CommitPoint) : Pruned [] cs cs :=
  ⟨fun c hc => ⟨c, hc, Or.inl rfl⟩, fun _ hc _ _ => hc⟩

theorem Pruned.trans {ids₁ ids₂ : List Nat} {cs₁ cs₂ cs₃ : List CommitPoint}
    (h₁ : Pruned ids₁ cs₁ cs₂) (h₂ : Pruned ids₂ cs₂ cs₃) : Pruned (ids₁ ++ ids₂) cs₁ cs₃ where
  descends c hc := by
    obtain ⟨c₂, hc₂, heq₂⟩ := h₂.descends c hc
    obtain ⟨c₁, hc₁, heq₁⟩ := h₁.descends c₂ hc₂
    refine ⟨c₁, hc₁, ?_⟩
    rcases heq₁ with rfl | rfl <;> rcases heq₂ with rfl | rfl <;> simp
  survives c hc hdel hid := by
    rw [List.mem_append, not_or] at hid
    exact h₂.survives c (h₁.survives c hc hdel hid.1) hdel hid.2

/-- The counts are right, and no two listed commit points are the same object. -/
structure Inv (d : IndexFileDeleter) (outstanding : Multiset String) : Prop where
  counted : Counted d (d.held outstanding)
  ids_nodup : (d.commits.map CommitPoint.id).Nodup
  ids_lt : ∀ c ∈ d.commits, c.id < d.nextCommit

theorem Bookkeeping.held_eq {d d' : IndexFileDeleter} (h : Bookkeeping d d')
    (outstanding : Multiset String) : d'.held outstanding = d.held outstanding := by
  rw [held, held, liveFiles, pendingFiles, h.commits_eq, h.commitsToDelete_eq, h.lastFiles_eq]
  rfl

theorem Inv.of_bookkeeping {d d' : IndexFileDeleter} {outstanding outstanding' : Multiset String}
    (h : Inv d outstanding) (hbook : Bookkeeping d d')
    (hcounted : Counted d' (d.held outstanding')) : Inv d' outstanding' where
  counted := by rw [hbook.held_eq]; exact hcounted
  ids_nodup := by rw [hbook.commits_eq]; exact h.ids_nodup
  ids_lt := by rw [hbook.commits_eq, hbook.nextCommit_eq]; exact h.ids_lt

theorem deleteCommit_cases (d : IndexFileDeleter) (id : Nat)
    (hids : (d.commits.map CommitPoint.id).Nodup) :
    d.deleteCommit id = d ∨
    ∃ before c after, d.commits = before ++ c :: after ∧ c.id = id ∧ c.deleted = false ∧
      d.deleteCommit id = { d with
        commits := before ++ { c with deleted := true } :: after
        commitsToDelete := d.commitsToDelete ++ [{ c with deleted := true }] } := by
  unfold deleteCommit
  cases hfind : d.commits.find? fun c => c.id = id with
  | none => exact Or.inl rfl
  | some c =>
      simp only
      split
      · exact Or.inl rfl
      · rename_i hdel
        obtain ⟨hid, before, after, hcommits, -⟩ := List.find?_eq_some_iff_append.mp hfind
        simp only [decide_eq_true_eq] at hid
        refine Or.inr ⟨before, c, after, hcommits, hid, by simpa using hdel, ?_⟩
        have hother : ∀ l : List CommitPoint, id ∉ l.map CommitPoint.id →
            (l.map fun c => if c.id = id then { c with deleted := true } else c) = l := by
          intro l hl
          refine (List.map_congr_left fun c' hc' => if_neg fun heq => hl ?_).trans (List.map_id l)
          exact heq ▸ List.mem_map_of_mem hc'
        rw [hcommits, List.map_append, List.map_cons, List.nodup_append, List.nodup_cons] at hids
        obtain ⟨-, ⟨hafter, -⟩, hbefore⟩ := hids
        rw [hid] at hafter hbefore
        have hbefore : id ∉ before.map CommitPoint.id := fun hmem =>
          hbefore id hmem id List.mem_cons_self rfl
        rw [hcommits, List.map_append, List.map_cons, hother before hbefore, hother after hafter,
          if_pos hid]

/-- Deleting a commit point moves its references from the live files to the pending ones. -/
theorem Inv.deleteCommit {d : IndexFileDeleter} {outstanding : Multiset String}
    (h : Inv d outstanding) (id : Nat) : Inv (d.deleteCommit id) outstanding := by
  rcases deleteCommit_cases d id h.ids_nodup with heq | ⟨before, c, after, hcommits, hid, hdel, heq⟩
  · rw [heq]
    exact h
  · have hheld : (d.deleteCommit id).held outstanding = d.held outstanding := by
      have hlive : (d.liveFiles : Multiset String) =
          c.files + ((d.deleteCommit id).liveFiles : Multiset String) := by
        rw [heq, liveFiles, liveFiles, hcommits]
        simp only [List.filter_append, List.filter_cons, hdel, Bool.not_false, Bool.not_true,
          if_true, List.flatMap_append, List.flatMap_cons, ← Multiset.coe_add]
        simp only [Bool.false_eq_true, if_false]
        rw [add_left_comm]
      have hpending : ((d.deleteCommit id).pendingFiles : Multiset String) =
          d.pendingFiles + c.files := by
        rw [heq, pendingFiles, pendingFiles]
        simp [← Multiset.coe_add]
      have hlast : (d.deleteCommit id).lastFiles = d.lastFiles := by rw [heq]
      rw [held, held, hlive, hpending, hlast]
      abel
    refine ⟨?_, ?_, ?_⟩
    · rw [hheld]
      exact h.counted.congr (by rw [heq]) (by rw [heq]) (by rw [heq])
    · have hids := h.ids_nodup
      rw [hcommits] at hids
      rw [heq]
      simpa using hids
    · intro c' hc'
      have hlt := h.ids_lt
      rw [hcommits] at hlt
      rw [heq] at hc' ⊢
      simp only [List.mem_append, List.mem_cons] at hc' hlt
      rcases hc' with hc' | rfl | hc'
      · exact hlt c' (Or.inl hc')
      · exact hlt c (Or.inr (Or.inl rfl))
      · exact hlt c' (Or.inr (Or.inr hc'))

theorem Inv.pruned_deleteCommit {d : IndexFileDeleter} {outstanding : Multiset String}
    (h : Inv d outstanding) (id : Nat) : Pruned [id] d.commits (d.deleteCommit id).commits := by
  rcases deleteCommit_cases d id h.ids_nodup with heq | ⟨before, c, after, hcommits, hid, -, heq⟩
  · rw [heq]
    exact ⟨(Pruned.refl _).descends, fun c hc _ _ => hc⟩
  · rw [heq, hcommits]
    refine ⟨fun c' hc' => ?_, fun c' hc' _ hne => ?_⟩
    · simp only [List.mem_append, List.mem_cons] at hc'
      rcases hc' with hc' | rfl | hc'
      · exact ⟨c', by simp [hc'], Or.inl rfl⟩
      · exact ⟨c, by simp, Or.inr rfl⟩
      · exact ⟨c', by simp [hc'], Or.inl rfl⟩
    · simp only [List.mem_append, List.mem_cons] at hc' ⊢
      rcases hc' with hc' | rfl | hc'
      · exact Or.inl hc'
      · exact absurd (List.mem_singleton.mpr hid) hne
      · exact Or.inr (Or.inr hc')

theorem shrinks_deleteCommit (d : IndexFileDeleter) (id : Nat) : Shrinks d (d.deleteCommit id) := by
  unfold deleteCommit
  split
  · exact .refl d
  · split
    · exact .refl d
    · exact ⟨fun _ h => h, fun _ h => Or.inl h⟩

theorem Inv.foldl_deleteCommit {d : IndexFileDeleter} {outstanding : Multiset String}
    (h : Inv d outstanding) (ids : List Nat) :
    Inv (ids.foldl IndexFileDeleter.deleteCommit d) outstanding ∧
      Shrinks d (ids.foldl IndexFileDeleter.deleteCommit d) ∧
      Pruned ids d.commits (ids.foldl IndexFileDeleter.deleteCommit d).commits := by
  induction ids generalizing d with
  | nil => exact ⟨h, .refl d, .refl _⟩
  | cons id ids ih =>
      obtain ⟨hinv, hshrinks, hpruned⟩ := ih (h.deleteCommit id)
      exact ⟨hinv, (shrinks_deleteCommit d id).trans hshrinks, (h.pruned_deleteCommit id).trans hpruned⟩

theorem Inv.runPolicy {d : IndexFileDeleter} {outstanding : Multiset String}
    (h : Inv d outstanding) (policy : Policy) :
    Inv (d.runPolicy policy) outstanding ∧ Shrinks d (d.runPolicy policy) ∧
      Pruned (policy d.commits) d.commits (d.runPolicy policy).commits :=
  h.foldl_deleteCommit _

theorem untouched_deleteCommit {d : IndexFileDeleter} {g : String} (id : Nat) (h : d.Untouched g) :
    (d.deleteCommit id).Untouched g := by
  unfold deleteCommit
  split
  · exact h
  · split <;> exact h

theorem count_deleteCommit (d : IndexFileDeleter) (id : Nat) (g : String) :
    (d.deleteCommit id).count g = d.count g := by
  unfold deleteCommit
  split
  · rfl
  · split <;> rfl

theorem untouched_runPolicy {d : IndexFileDeleter} {g : String} (policy : Policy)
    (h : d.Untouched g) : (d.runPolicy policy).Untouched g := by
  unfold runPolicy
  generalize policy d.commits = ids
  induction ids generalizing d with
  | nil => exact h
  | cons id ids ih => exact ih (untouched_deleteCommit id h)

theorem count_runPolicy (d : IndexFileDeleter) (policy : Policy) (g : String) :
    (d.runPolicy policy).count g = d.count g := by
  unfold runPolicy
  generalize policy d.commits = ids
  induction ids generalizing d with
  | nil => rfl
  | cons id ids ih => exact (ih (d.deleteCommit id)).trans (count_deleteCommit d id g)

theorem lastFiles_deleteCommit (d : IndexFileDeleter) (id : Nat) :
    (d.deleteCommit id).lastFiles = d.lastFiles := by
  unfold deleteCommit
  split
  · rfl
  · split <;> rfl

theorem lastFiles_runPolicy (d : IndexFileDeleter) (policy : Policy) :
    (d.runPolicy policy).lastFiles = d.lastFiles := by
  unfold runPolicy
  generalize policy d.commits = ids
  induction ids generalizing d with
  | nil => rfl
  | cons id ids ih => exact (ih (d.deleteCommit id)).trans (lastFiles_deleteCommit d id)

theorem Foreign.runPolicy {d : IndexFileDeleter} {g : String} (h : d.Foreign g) (policy : Policy) :
    (d.runPolicy policy).Foreign g :=
  ⟨(count_runPolicy d policy g).trans h.count_eq, untouched_runPolicy policy h.untouched⟩

theorem held_addCommit (d : IndexFileDeleter) (outstanding : Multiset String) (infos : SegmentInfos) :
    (d.addCommit infos).held outstanding = infos.allFiles true + d.held outstanding := by
  have hlive : ((d.addCommit infos).liveFiles : Multiset String) =
      infos.allFiles true + (d.liveFiles : Multiset String) := by
    simp only [liveFiles, addCommit, newCommitPoint, List.filter_append, List.flatMap_append,
      ← Multiset.coe_add]
    rw [add_comm]
    simp
  rw [held, held, hlive]
  simp only [add_assoc]
  rfl

theorem ids_addCommit {d : IndexFileDeleter} (infos : SegmentInfos)
    (hnodup : (d.commits.map CommitPoint.id).Nodup) (hlt : ∀ c ∈ d.commits, c.id < d.nextCommit) :
    ((d.addCommit infos).commits.map CommitPoint.id).Nodup ∧
      ∀ c ∈ (d.addCommit infos).commits, c.id < (d.addCommit infos).nextCommit := by
  constructor
  · simp only [addCommit, List.map_append, List.map_cons, List.map_nil]
    rw [List.nodup_append]
    refine ⟨hnodup, List.nodup_singleton _, fun a ha b hb => ?_⟩
    obtain ⟨c, hc, rfl⟩ := List.mem_map.mp ha
    rw [List.mem_singleton] at hb
    rw [hb]
    exact (hlt c hc).ne
  · intro c hc
    simp only [addCommit, List.mem_append, List.mem_singleton] at hc ⊢
    rcases hc with hc | rfl
    · exact (hlt c hc).trans (Nat.lt_succ_self _)
    · exact Nat.lt_succ_self _

theorem Inv.addCommit {d : IndexFileDeleter} {outstanding : Multiset String} {infos : SegmentInfos}
    (hcounted : Counted d (infos.allFiles true + d.held outstanding))
    (hnodup : (d.commits.map CommitPoint.id).Nodup) (hlt : ∀ c ∈ d.commits, c.id < d.nextCommit) :
    Inv (d.addCommit infos) outstanding where
  counted := by
    rw [held_addCommit]
    exact hcounted.congr rfl rfl rfl
  ids_nodup := (ids_addCommit infos hnodup hlt).1
  ids_lt := (ids_addCommit infos hnodup hlt).2

theorem Inv.deleteCommits {d : IndexFileDeleter} {outstanding : Multiset String}
    (h : Inv d outstanding) :
    ∃ d', d.deleteCommits = some d' ∧ Inv d' outstanding ∧ Shrinks d d' ∧
      Pruned [] d.commits d'.commits ∧ d'.lastFiles = d.lastFiles ∧ d'.commitsToDelete = [] ∧
      ∀ g, d.Foreign g → d'.Foreign g := by
  unfold IndexFileDeleter.deleteCommits
  split
  · rename_i hnone
    exact ⟨d, rfl, h, .refl d, .refl _, rfl, hnone, fun _ hg => hg⟩
  · have hpending : ((d.commitsToDelete.map CommitPoint.files).flatten : Multiset String) =
        d.pendingFiles := by rw [pendingFiles, List.flatMap_def]
    have hle : ((d.commitsToDelete.map CommitPoint.files).flatten : Multiset String) ≤
        d.held outstanding := by
      rw [hpending, held]
      exact (Multiset.le_add_left _ _).trans ((Multiset.le_add_right _ _).trans
        (Multiset.le_add_right _ _))
    obtain ⟨d₁, hdec, h₁, hbook⟩ := h.counted.foldlM_decRefs hle
    have hforeign : ∀ g, d.Foreign g → d₁.Foreign g := fun g hg =>
      hg.foldlM_decRefs hdec fun hmem => h.counted.notMem_of_foreign hg (Multiset.mem_of_le hle hmem)
    rw [List.foldlM_map] at hdec
    rw [hdec]
    have hsub : (d₁.commits.filter fun c => !c.deleted).Sublist d.commits := by
      rw [hbook.commits_eq]
      exact List.filter_sublist
    refine ⟨_, rfl, ⟨?_, h.ids_nodup.sublist (hsub.map _), fun c hc => ?_⟩,
      hbook.toShrinks.trans ⟨fun _ h => h, fun _ h => Or.inl h⟩, ⟨fun c hc => ?_,
      fun c hc hdel _ => ?_⟩, hbook.lastFiles_eq, rfl,
      fun g hg => ⟨(hforeign g hg).count_eq, (hforeign g hg).untouched⟩⟩
    · rw [hpending] at h₁
      have hheld : d.held outstanding - d.pendingFiles =
          d.liveFiles + d.lastFiles.flatten + outstanding := by
        rw [held, add_right_comm (d.liveFiles : Multiset String), add_right_comm, add_tsub_cancel_right]
      rw [hheld] at h₁
      have hlive : (d₁.commits.filter fun c => !c.deleted).filter (fun c => !c.deleted) =
          d.commits.filter fun c => !c.deleted := by
        rw [List.filter_filter, hbook.commits_eq]
        simp
      simp only [held, liveFiles, pendingFiles, hlive, hbook.lastFiles_eq, List.flatMap_nil,
        Multiset.coe_nil, add_zero]
      exact h₁.congr rfl rfl rfl
    · simp only [hbook.nextCommit_eq]
      exact h.ids_lt c (hsub.mem hc)
    · exact ⟨c, hsub.mem hc, Or.inl rfl⟩
    · simp only [hbook.commits_eq]
      exact List.mem_filter.mpr ⟨hc, by rw [hdel]; rfl⟩

/-- The commit points that a commit shows to the policy: the new one comes last. -/
def shownCommits (d : IndexFileDeleter) (infos : SegmentInfos) : List CommitPoint :=
  (d.addCommit infos).commits

/-- The effect of a checkpoint on the last-checkpoint file lists and on the references. -/
theorem Inv.checkpoint {d : IndexFileDeleter} {outstanding : Multiset String} {infos : SegmentInfos}
    {openFiles : Option (List String)} (h : Inv d outstanding) (isCommit : Bool) (policy : Policy)
    (hfiles : ∀ f ∈ infos.allFiles isCommit, d.Untouched f)
    (hopen : ∀ f ∈ openFiles.getD [], d.Untouched f) :
    ∃ d', d.checkpoint infos isCommit openFiles policy = some d' ∧ Inv d' outstanding ∧
      Shrinks d d' ∧
      (isCommit = true → Pruned (policy (d.shownCommits infos)) (d.shownCommits infos) d'.commits) ∧
      (isCommit = false → d'.commits = d.commits) ∧
      d'.lastFiles = (if isCommit then d.lastFiles else infos.files :: openFiles.toList) ∧
      ∀ g, g ∉ infos.allFiles isCommit ++ openFiles.getD [] → d.Foreign g → d'.Foreign g := by
  have hbook₁ := bookkeeping_deletePendingFiles d
  have h₁ : Inv d.deletePendingFiles outstanding := h.of_bookkeeping hbook₁ h.counted.deletePendingFiles
  obtain ⟨d₂, hinc, h₂, hbook₂, hun₂⟩ :=
    h₁.counted.incRefs fun f hf => (hfiles f hf).deletePendingFiles
  have hinv₂ := (hbook₁.trans hbook₂)
  have hforeign₂ : ∀ g, g ∉ infos.allFiles isCommit → d.Foreign g → d₂.Foreign g :=
    fun g hg hf => hf.deletePendingFiles.incRefs hinc hg
  unfold IndexFileDeleter.checkpoint
  simp only [hinc, Option.bind_eq_bind, Option.bind_some]
  cases isCommit with
  | true =>
      have hadd : Inv (d₂.addCommit infos) outstanding := by
        refine Inv.addCommit ?_ ?_ ?_
        · rw [hbook₂.held_eq]
          exact h₂
        · rw [hinv₂.commits_eq]
          exact h.ids_nodup
        · rw [hinv₂.commits_eq, hinv₂.nextCommit_eq]
          exact h.ids_lt
      obtain ⟨h₃, hshrinks₃, hpruned₃⟩ := hadd.runPolicy policy
      obtain ⟨d', hdel, h', hshrinks', hpruned', hlast', -, hforeign'⟩ := h₃.deleteCommits
      have hshown : (d₂.addCommit infos).commits = d.shownCommits infos := by
        simp only [shownCommits, IndexFileDeleter.addCommit, newCommitPoint, hinv₂.commits_eq,
          hinv₂.nextCommit_eq]
      have hclear : Shrinks d₂ (d₂.addCommit infos) := ⟨fun _ h => h, fun _ h => Or.inl h⟩
      refine ⟨d', hdel, h', hinv₂.toShrinks.trans (hclear.trans (hshrinks₃.trans hshrinks')),
        fun _ => ?_, nofun, ?_, fun g hg hf => ?_⟩
      · rw [hshown] at hpruned₃
        have := hpruned₃.trans hpruned'
        rwa [List.append_nil] at this
      · rw [if_pos rfl, hlast', lastFiles_runPolicy]
        exact hinv₂.lastFiles_eq
      · rw [List.mem_append, not_or] at hg
        have hadd : (d₂.addCommit infos).Foreign g :=
          ⟨(hforeign₂ g hg.1 hf).count_eq, (hforeign₂ g hg.1 hf).untouched⟩
        exact hforeign' g (hadd.runPolicy policy)
  | false =>
      obtain ⟨d₃, hinc₃, h₃, hbook₃, -⟩ :=
        h₂.incRefs fun f hf => hun₂ f (hopen f hf).deletePendingFiles
      have hbook := hinv₂.trans hbook₃
      have hheld : (openFiles.getD [] : Multiset String) + (infos.files +
          d.deletePendingFiles.held outstanding) =
          d.lastFiles.flatten + (d.liveFiles + d.pendingFiles +
            ((infos.files :: openFiles.toList).flatten : Multiset String) + outstanding) := by
        have hopenFlat : ((infos.files :: openFiles.toList).flatten : Multiset String) =
            infos.files + (openFiles.getD [] : Multiset String) := by
          cases openFiles <;> simp [← Multiset.coe_add]
        rw [hopenFlat, hbook₁.held_eq, held]
        abel
      rw [show infos.allFiles false = infos.files from rfl, hheld] at h₃
      obtain ⟨d₄, hdec, h₄, hbook₄⟩ := h₃.foldlM_decRefs (Multiset.le_add_right _ _)
      have hforeign₄ : ∀ g, g ∉ infos.files ++ openFiles.getD [] → d.Foreign g → d₄.Foreign g := by
        intro g hg hf
        rw [List.mem_append, not_or] at hg
        have hf₃ := (hforeign₂ g hg.1 hf).incRefs hinc₃ hg.2
        refine hf₃.foldlM_decRefs hdec fun hmem => h₃.notMem_of_foreign hf₃ ?_
        exact Multiset.mem_add.mpr (Or.inl hmem)
      rw [add_tsub_cancel_left] at h₄
      simp only [Bool.false_eq_true, if_false, hinc₃, Option.bind_some, hbook.lastFiles_eq, hdec,
        Option.pure_def]
      have hbook' := hbook.trans hbook₄
      refine ⟨_, rfl, ⟨?_, ?_, ?_⟩, hbook'.toShrinks.trans ⟨fun _ h => h, fun _ h => Or.inl h⟩,
        nofun, fun _ => hbook'.commits_eq, rfl,
        fun g hg hf => ⟨(hforeign₄ g hg hf).count_eq, (hforeign₄ g hg hf).untouched⟩⟩
      · simp only [held, liveFiles, pendingFiles, hbook'.commits_eq, hbook'.commitsToDelete_eq]
        exact h₄.congr rfl rfl rfl
      · simp only [hbook'.commits_eq]
        exact h.ids_nodup
      · simp only [hbook'.commits_eq, hbook'.nextCommit_eq]
        exact h.ids_lt

theorem mem_held_of_mem_live {d : IndexFileDeleter} {outstanding : Multiset String} {c : CommitPoint}
    {f : String} (hc : c ∈ d.commits) (hdel : c.deleted = false) (hf : f ∈ c.files) :
    f ∈ d.held outstanding := by
  have hlive : f ∈ d.liveFiles := by
    refine List.mem_flatMap.mpr ⟨c, List.mem_filter.mpr ⟨hc, ?_⟩, hf⟩
    rw [hdel]
    rfl
  simp only [held, Multiset.mem_add]
  exact Or.inl (Or.inl (Or.inl (Multiset.mem_coe.mpr hlive)))

theorem held_add (d : IndexFileDeleter) (files outstanding : Multiset String) :
    d.held (files + outstanding) = files + d.held outstanding := by
  simp only [held]
  abel

theorem held_sub (d : IndexFileDeleter) {files outstanding : Multiset String}
    (h : files ≤ outstanding) : d.held (outstanding - files) = d.held outstanding - files := by
  rw [held, held, add_tsub_assoc_of_le h]

theorem Inv.incRefs {d : IndexFileDeleter} {outstanding : Multiset String} {files : List String}
    (h : Inv d outstanding) (hfiles : ∀ f ∈ files, d.Untouched f) :
    ∃ d', d.incRefs files = some d' ∧ Inv d' (files + outstanding) ∧ Bookkeeping d d' ∧
      ∀ g, g ∉ files → d.Foreign g → d'.Foreign g := by
  obtain ⟨d', hinc, h', hbook, -⟩ := h.counted.incRefs hfiles
  exact ⟨d', hinc, h.of_bookkeeping hbook (by rw [held_add]; exact h'), hbook,
    fun g hg hf => hf.incRefs hinc hg⟩

theorem Inv.decRefs {d : IndexFileDeleter} {outstanding : Multiset String} {files : List String}
    (h : Inv d outstanding) (hfiles : (files : Multiset String) ≤ outstanding) :
    ∃ d', d.decRefs files = some d' ∧ Inv d' (outstanding - files) ∧ Bookkeeping d d' ∧
      ∀ g, d.Foreign g → d'.Foreign g := by
  have hle : (files : Multiset String) ≤ d.held outstanding :=
    hfiles.trans (Multiset.le_add_left _ _)
  obtain ⟨d', hdec, h', hbook⟩ := h.counted.decRefs hle
  exact ⟨d', hdec, h.of_bookkeeping hbook (by rw [held_sub d hfiles]; exact h'), hbook,
    fun g hg => hg.decRefs hdec fun hmem =>
      h.counted.notMem_of_foreign hg (Multiset.mem_of_le hle hmem)⟩

theorem Inv.deletePendingFiles {d : IndexFileDeleter} {outstanding : Multiset String}
    (h : Inv d outstanding) : Inv d.deletePendingFiles outstanding :=
  h.of_bookkeeping (bookkeeping_deletePendingFiles d) h.counted.deletePendingFiles

/-- The names that `refresh(segmentName)` looks at. -/
def OfSegment (segmentName g : String) : Prop :=
  segmentName = "" ∨ IndexFileNames.startsWith g (segmentName ++ ".") = true ∨
    IndexFileNames.startsWith g (segmentName ++ "_") = true

theorem Inv.refresh {d : IndexFileDeleter} {outstanding : Multiset String} (h : Inv d outstanding)
    (segmentName : String) :
    Inv (d.refresh segmentName) outstanding ∧ Bookkeeping d (d.refresh segmentName) ∧
      ∀ g, ¬ OfSegment segmentName g → d.Foreign g → (d.refresh segmentName).Foreign g := by
  have hbook : Bookkeeping d (d.refresh segmentName) := bookkeeping_foldl_deleteFile d _
  refine ⟨h.of_bookkeeping hbook (h.counted.foldl_deleteFile fun f hf => ?_), hbook,
    fun g hg hf => hf.foldl_deleteFile fun hmem => hg ?_⟩
  · obtain ⟨-, hcond⟩ := List.mem_filter.mp hf
    simp only [Bool.and_eq_true, Option.isNone_iff_eq_none] at hcond
    exact h.counted.notMem_of_count_eq_zero (by rw [count, hcond.1.2])
  · obtain ⟨-, hcond⟩ := List.mem_filter.mp hmem
    simp only [Bool.and_eq_true, Bool.or_eq_true, decide_eq_true_eq] at hcond
    exact or_assoc.mp hcond.1.1.2

theorem Inv.close {d : IndexFileDeleter} {outstanding : Multiset String} (h : Inv d outstanding) :
    ∃ d', d.close = some d' ∧ Inv d' outstanding ∧ Shrinks d d' ∧ d'.commits = d.commits ∧
      d'.lastFiles = [] ∧ ∀ g, d.Foreign g → d'.Foreign g := by
  have hheld : d.held outstanding =
      d.lastFiles.flatten + (d.liveFiles + d.pendingFiles + outstanding) := by
    rw [held]
    abel
  have hcounted := h.counted
  rw [hheld] at hcounted
  obtain ⟨d₁, hdec, h₁, hbook⟩ := hcounted.foldlM_decRefs (Multiset.le_add_right _ _)
  have hforeign : ∀ g, d.Foreign g → d₁.Foreign g := fun g hg =>
    hg.foldlM_decRefs hdec fun hmem =>
      hcounted.notMem_of_foreign hg (Multiset.mem_add.mpr (Or.inl hmem))
  rw [add_tsub_cancel_left] at h₁
  have hinv : Inv { d₁ with lastFiles := [] } outstanding := by
    refine ⟨?_, ?_, ?_⟩
    · simp only [held, liveFiles, pendingFiles, hbook.commits_eq, hbook.commitsToDelete_eq,
        List.flatten_nil, Multiset.coe_nil, add_zero]
      exact h₁.congr rfl rfl rfl
    · simp only [hbook.commits_eq]
      exact h.ids_nodup
    · simp only [hbook.commits_eq, hbook.nextCommit_eq]
      exact h.ids_lt
  have hbook' := bookkeeping_deletePendingFiles { d₁ with lastFiles := [] }
  have hclear : Shrinks d₁ { d₁ with lastFiles := [] } := ⟨fun _ h => h, fun _ h => Or.inl h⟩
  refine ⟨_, by rw [IndexFileDeleter.close, hdec]; rfl, hinv.deletePendingFiles,
    (hbook.toShrinks.trans hclear).trans hbook'.toShrinks, hbook'.commits_eq.trans hbook.commits_eq,
    hbook'.lastFiles_eq, fun g hg => ?_⟩
  have hcleared : Foreign { d₁ with lastFiles := [] } g :=
    ⟨(hforeign g hg).count_eq, (hforeign g hg).untouched⟩
  exact hcleared.deletePendingFiles

end IndexFileDeleter
end LucenePlusPlus
