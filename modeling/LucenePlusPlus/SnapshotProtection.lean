import LucenePlusPlus.SnapshotDeletionPolicy

/-!
Snapshots are protected in every run in which `snapshot()` is called while the last commit is not
deleted. `snapshot()` itself does not check this.
-/

namespace LucenePlusPlus

theorem CommitPoint.Named.ne_empty {c : CommitPoint} (h : c.Named) : c.segmentsFileName ≠ "" := by
  obtain ⟨gen, hgen, files, hname, -⟩ := h
  have hstart := (SegmentInfos.accept_segmentsFileName hgen).2.2
  rw [← hname] at hstart
  intro hempty
  rw [hempty] at hstart
  exact absurd hstart (by decide)

theorem CommitPoint.Named.mem_files {c : CommitPoint} (h : c.Named) : c.segmentsFileName ∈ c.files := by
  obtain ⟨-, -, files, -, hfiles⟩ := h
  rw [hfiles]
  exact List.mem_cons_self

namespace SnapshotDeletionPolicy
open IndexFileDeleter (Inv Shrinks Pruned)

theorem mayDelete_eq_false {p : SnapshotDeletionPolicy} {c : CommitPoint} (h : c.Named)
    (hsnapshot : p.snapshot = c.segmentsFileName) : p.mayDelete c = false := by
  have hne := h.ne_empty
  simp [mayDelete, hsnapshot, hne]

theorem notMem_wrapCommits {p : SnapshotDeletionPolicy} {primary : IndexFileDeleter.Policy}
    {commits : List CommitPoint} {c : CommitPoint} (hc : c ∈ commits) (h : p.mayDelete c = false) :
    c.id ∉ p.wrapCommits primary commits := by
  intro hmem
  obtain ⟨-, hall⟩ := List.mem_filter.mp hmem
  have hmay := List.all_eq_true.mp hall c hc
  simp [h] at hmay

/-- The commit point `c` was returned by `snapshot()` when the directory was `directory`. Its object is
not deleted, and the current deleter lists a commit point for it. -/
structure Holding (s : State) (c : CommitPoint) (directory : List String) : Prop where
  named : c.Named
  snapshot : s.policy.snapshot = c.segmentsFileName
  object : ∃ c' ∈ s.objects, c'.id = c.id ∧ c'.segmentsFileName = c.segmentsFileName ∧
    c'.files = c.files ∧ c'.deleted = false
  listed : ∃ c' ∈ s.files.deleter.commits, c'.segmentsFileName = c.segmentsFileName ∧
    c'.files = c.files ∧ c'.deleted = false
  files : ∀ f ∈ c.files, f ∈ directory → f ∈ s.files.deleter.directory

/-- What every step keeps. -/
structure SnapshotInv (s : State) : Prop where
  inv : Inv s.files.deleter s.files.outstanding
  named : ∀ c ∈ s.files.deleter.commits, c.Named
  present : ∀ c ∈ s.files.deleter.commits, c.deleted = false →
    c.segmentsFileName ∈ s.files.deleter.directory
  last : ∀ c, s.policy.lastCommit = some c → c.Named ∧
    ∀ c' ∈ s.files.deleter.commits, c'.id = c.id →
      c'.segmentsFileName = c.segmentsFileName ∧ c'.files = c.files
  holding : ∀ c directory, s.taken = some (c, directory) → Holding s c directory

theorem SnapshotInv.protected {s : State} (h : SnapshotInv s) : Protected s := by
  intro c directory htaken
  have hold := h.holding c directory htaken
  obtain ⟨c', hc', hid, -, -, hdel⟩ := hold.object
  exact ⟨⟨c', hc', hid, hdel⟩, hold.files⟩

theorem mem_directory_of_live {d d' : IndexFileDeleter} {outstanding : Multiset String}
    {c : CommitPoint} {f : String} (h : Inv d' outstanding) (hshrinks : Shrinks d d')
    (hc : c ∈ d'.commits) (hdel : c.deleted = false) (hf : f ∈ c.files) (hdir : f ∈ d.directory) :
    f ∈ d'.directory := by
  rcases hshrinks.directory f hdir with hmem | ⟨count, hattempt⟩
  · exact hmem
  · exact absurd (IndexFileDeleter.mem_held_of_mem_live hc hdel hf)
      (h.counted.attempts f count hattempt).2

/-- From a deleter `d` on the same directory to `d'`, deleting commit points among `shown` that the
snapshot does not protect. -/
theorem SnapshotInv.advance {s : State} (h : SnapshotInv s) {d d' : IndexFileDeleter}
    {outstanding : Multiset String} {ids : List Nat} {shown : List CommitPoint}
    (policy : SnapshotDeletionPolicy) (closed : List CommitPoint)
    (hinv : Inv d' outstanding) (hshrinks : Shrinks d d') (hpruned : Pruned ids shown d'.commits)
    (hdir : d.directory = s.files.deleter.directory)
    (hshown : ∀ c ∈ shown, c.Named ∧
      (c.deleted = false → c.segmentsFileName ∈ s.files.deleter.directory))
    (hids : ∀ c ∈ shown, s.policy.mayDelete c = false → c.id ∉ ids)
    (hsnapshot : policy.snapshot = s.policy.snapshot)
    (hlast : ∀ c, policy.lastCommit = some c → c.Named ∧ ∀ c' ∈ shown, c'.id = c.id →
      c'.segmentsFileName = c.segmentsFileName ∧ c'.files = c.files)
    (hlisted : ∀ c directory, Holding s c directory → ∃ c' ∈ shown,
      c'.segmentsFileName = c.segmentsFileName ∧ c'.files = c.files ∧ c'.deleted = false)
    (hobjects : ∀ c ∈ s.objects, c.deleted = false → s.policy.mayDelete c = false →
      c ∈ d'.commits ++ closed) :
    SnapshotInv { s with files := ⟨d', outstanding⟩, policy, closed } where
  inv := hinv
  named c hc := by
    obtain ⟨c₀, hc₀, heq⟩ := hpruned.descends c hc
    rcases heq with rfl | rfl <;> exact (hshown _ hc₀).1
  present c hc hdel := by
    obtain ⟨c₀, hc₀, rfl | rfl⟩ := hpruned.descends c hc
    · refine mem_directory_of_live hinv hshrinks hc hdel (hshown c hc₀).1.mem_files ?_
      rw [hdir]
      exact (hshown c hc₀).2 hdel
    · cases hdel
  last c hc := by
    obtain ⟨hnamed, hsame⟩ := hlast c hc
    refine ⟨hnamed, fun c' hc' hid => ?_⟩
    obtain ⟨c₀, hc₀, rfl | rfl⟩ := hpruned.descends c' hc'
    · exact hsame c' hc₀ hid
    · exact hsame c₀ hc₀ hid
  holding c directory htaken := by
    have hold := h.holding c directory htaken
    obtain ⟨c', hc', hname, hfiles, hdel⟩ := hlisted c directory hold
    have hmay : ∀ c'' : CommitPoint, c''.segmentsFileName = c.segmentsFileName →
        c''.files = c.files → s.policy.mayDelete c'' = false := by
      intro c'' hname'' hfiles''
      obtain ⟨gen, hgen, files, heq, hcons⟩ := hold.named
      exact mayDelete_eq_false ⟨gen, hgen, files, hname''.trans heq, by rw [hfiles'', hname'', hcons]⟩
        (hold.snapshot.trans hname''.symm)
    have hmem := hpruned.survives c' hc' hdel (hids c' hc' (hmay c' hname hfiles))
    refine ⟨hold.named, hsnapshot.trans hold.snapshot, ?_, ⟨c', hmem, hname, hfiles, hdel⟩,
      fun f hf hfdir => ?_⟩
    · obtain ⟨o, ho, hid, hname', hfiles', hdel'⟩ := hold.object
      exact ⟨o, hobjects o ho hdel' (hmay o hname' hfiles'), hid, hname', hfiles', hdel'⟩
    · refine mem_directory_of_live hinv hshrinks hmem hdel (hfiles ▸ hf) ?_
      rw [hdir]
      exact hold.files f hf hfdir

/-! ### One step -/

theorem SnapshotInv.operate {s : State} (h : SnapshotInv s) {op : IndexFileDeleter.Op}
    {files : IndexFileDeleter.State} {closed : List CommitPoint}
    (hstepped : IndexFileDeleter.Stepped s.files op files)
    (hshown : IndexFileDeleter.shown s.files op = s.files.deleter.commits)
    (hids : ∀ c ∈ s.objects, s.policy.mayDelete c = false →
      c.id ∉ IndexFileDeleter.deletedIds s.files op)
    (hclosed : ∀ c ∈ s.closed, s.policy.mayDelete c = false → c ∈ closed) :
    SnapshotInv { s with files, closed } := by
  have hpruned := hstepped.pruned
  rw [hshown] at hpruned
  have hcommit : ∀ c ∈ s.files.deleter.commits, c ∈ s.objects :=
    fun c hc => List.mem_append_left _ hc
  refine h.advance s.policy closed hstepped.inv hstepped.shrinks hpruned rfl
    (fun c hc => ⟨h.named c hc, h.present c hc⟩) (fun c hc => hids c (hcommit c hc)) rfl h.last
    (fun c directory hold => hold.listed) fun c hc hdel hmay => ?_
  rcases List.mem_append.mp hc with hc' | hc'
  · exact List.mem_append_left _ (hpruned.survives c hc' hdel (hids c hc hmay))
  · exact List.mem_append_right _ (hclosed c hc' hmay)

theorem SnapshotInv.commit {s : State} (h : SnapshotInv s) {infos : SegmentInfos}
    {primary : IndexFileDeleter.Policy} (hlegal : Legal s (.commit infos primary)) :
    ∃ s', step s (.commit infos primary) = some s' ∧ SnapshotInv s' := by
  obtain ⟨hlegal, hgen, hfile⟩ := hlegal
  have hlegal : IndexFileDeleter.Legal s.files
      (.checkpoint infos true none (s.policy.wrapCommits primary)) := hlegal
  obtain ⟨files, hstep, hstepped⟩ := h.inv.step hlegal
  refine ⟨_, by rw [step, hstep]; rfl, ?_⟩
  have hnamed := IndexFileDeleter.named_newCommitPoint s.files.deleter hgen
  have hmem : ∀ c ∈ s.files.deleter.shownCommits infos,
      c ∈ s.files.deleter.commits ∨ c = s.files.deleter.newCommitPoint infos := by
    intro c hc
    simpa [IndexFileDeleter.shownCommits, IndexFileDeleter.addCommit] using hc
  have hids : ∀ c ∈ s.files.deleter.shownCommits infos, s.policy.mayDelete c = false →
      c.id ∉ s.policy.wrapCommits primary (s.files.deleter.shownCommits infos) :=
    fun c hc hmay => notMem_wrapCommits hc hmay
  refine h.advance _ s.closed hstepped.inv hstepped.shrinks hstepped.pruned rfl
    (fun c hc => ?_) hids rfl (fun c hc => ?_) (fun c directory hold => ?_) fun c hc hdel hmay => ?_
  · rcases hmem c hc with hc | rfl
    · exact ⟨h.named c hc, h.present c hc⟩
    · exact ⟨hnamed, fun _ => hfile⟩
  · have hlast : s.files.deleter.newCommitPoint infos = c := by
      simpa [onCommit, IndexFileDeleter.shownCommits, IndexFileDeleter.addCommit] using hc
    subst hlast
    refine ⟨hnamed, fun c' hc' hid => ?_⟩
    rcases hmem c' hc' with hc' | rfl
    · exact absurd hid (h.inv.ids_lt c' hc').ne
    · exact ⟨rfl, rfl⟩
  · obtain ⟨c', hc', hsame⟩ := hold.listed
    exact ⟨c', List.mem_append_left _ hc', hsame⟩
  · rcases List.mem_append.mp hc with hc | hc
    · have hc : c ∈ s.files.deleter.shownCommits infos := List.mem_append_left _ hc
      exact List.mem_append_left _ (hstepped.pruned.survives c hc hdel (hids c hc hmay))
    · exact List.mem_append_right _ hc

theorem SnapshotInv.deleteCommit {s : State} (h : SnapshotInv s) (id : Nat) :
    ∃ s', step s (.deleteCommit id) = some s' ∧ SnapshotInv s' := by
  rw [step]
  split
  · rename_i hall
    have hlegal : IndexFileDeleter.Legal s.files (.deleteCommit id) := trivial
    obtain ⟨files, hstep, hstepped⟩ := h.inv.step hlegal
    have hne : ∀ c ∈ s.objects, s.policy.mayDelete c = false → c.id ≠ id := by
      intro c hc hmay heq
      have := List.all_eq_true.mp hall c hc
      simp [hmay, heq] at this
    refine ⟨_, by rw [hstep]; rfl, h.operate hstepped rfl (fun c hc hmay => ?_)
      fun c hc hmay => ?_⟩
    · rw [IndexFileDeleter.deletedIds, List.mem_singleton]
      exact hne c hc hmay
    · refine List.mem_map.mpr ⟨c, hc, if_neg (hne c (List.mem_append_right _ hc) hmay)⟩
  · exact ⟨s, rfl, h⟩

theorem SnapshotInv.other {s : State} (h : SnapshotInv s) {op : IndexFileDeleter.Op}
    (hlegal : Legal s (.other op)) : ∃ s', step s (.other op) = some s' ∧ SnapshotInv s' := by
  have hspec : IndexFileDeleter.Legal s.files op ∧ IndexFileDeleter.shown s.files op =
      s.files.deleter.commits ∧ IndexFileDeleter.deletedIds s.files op = [] := by
    cases op with
    | checkpoint infos isCommit openFiles policy =>
        cases isCommit with
        | true => exact hlegal.elim
        | false => exact ⟨hlegal, rfl, rfl⟩
    | deleteCommit id => exact hlegal.elim
    | _ => exact ⟨hlegal, rfl, rfl⟩
  obtain ⟨hlegal, hshown, hids⟩ := hspec
  obtain ⟨files, hstep, hstepped⟩ := h.inv.step hlegal
  refine ⟨_, by rw [step, hstep]; rfl, h.operate hstepped hshown (fun c _ _ => ?_)
    fun c hc _ => hc⟩
  rw [hids]
  exact List.not_mem_nil

theorem SnapshotInv.newDeleter {s : State} (h : SnapshotInv s) {listing : List String}
    {read : String → IndexFileDeleter.ReadResult} {infos : SegmentInfos}
    {openFiles : Option (List String)} {primary : IndexFileDeleter.Policy} {failures : Nat → Bool}
    (hlegal : Legal s (.newDeleter listing read infos openFiles primary failures)) :
    ∃ s', step s (.newDeleter listing read infos openFiles primary failures) = some s' ∧
      SnapshotInv s' := by
  obtain ⟨hlisting, hbuilt, hread, hcontent⟩ := hlegal
  have hloading := IndexFileDeleter.loading_fresh read s.files.deleter.directory
    s.files.deleter.nextCommit failures
  obtain ⟨hno, hinit⟩ : (s.newDeleter failures).init listing read infos openFiles
      (s.policy.wrapCommits primary) ≠ .error .assertion ∧ _ := hloading.init hbuilt
  rw [step]
  cases hd : (s.newDeleter failures).init listing read infos openFiles
      (s.policy.wrapCommits primary) with
  | error e =>
      rw [hd] at hno
      cases e with
      | assertion => exact absurd rfl hno
      | ioException => exact ⟨s, rfl, h⟩
      | corruptIndex => exact ⟨s, rfl, h⟩
  | ok st =>
      obtain ⟨d', b⟩ := st
      obtain ⟨hinv, hshrinks, -, -, d₀, id, hload, hloaded, hpruned⟩ := hinit d' b hd
      have hshown : initCommits (s.newDeleter failures) listing read infos =
          d₀.sortCommits.commits := by
        rw [initCommits, State.newDeleter, hload]
      refine ⟨_, rfl, ?_⟩
      have hperm := d₀.perm_sortCommits
      have hnamed : ∀ c ∈ d₀.sortCommits.commits, c.Named ∧
          c.segmentsFileName ∈ s.files.deleter.directory := by
        intro c hc
        have hfrom := hloaded.loading.readFrom c (hperm.mem_iff.mp hc)
        obtain ⟨fileName, files, hf, hname, -⟩ := hfrom
        refine ⟨IndexFileDeleter.ReadFrom.named (hloaded.loading.readFrom c (hperm.mem_iff.mp hc)), ?_⟩
        rw [hname, (hread fileName files hf).2]
        exact (hread fileName files hf).1
      refine h.advance _ s.objects hinv hshrinks hpruned rfl
        (fun c hc => ⟨(hnamed c hc).1, fun _ => (hnamed c hc).2⟩)
        (fun c hc hmay => notMem_wrapCommits hc hmay) rfl (fun c hc => ?_)
        (fun c directory hold => ?_) fun c hc _ _ => List.mem_append_right _ hc
      · have hlast : (initCommits (s.newDeleter failures) listing read infos).getLast? = some c := hc
        rw [hshown] at hlast
        have hmem := List.mem_of_getLast? hlast
        refine ⟨(hnamed c hmem).1, fun c' hc' hid => ?_⟩
        have hnodup : (d₀.sortCommits.commits.map CommitPoint.id).Nodup :=
          (hperm.map _).nodup_iff.mpr hloaded.loading.inv.ids_nodup
        rw [List.inj_on_of_nodup_map hnodup hc' hmem hid]
        exact ⟨rfl, rfl⟩
      · obtain ⟨c', hc', hname, hfiles, hdel⟩ := hold.listed
        obtain ⟨files, hf, hcons⟩ := hcontent c' hc' hdel
        have hcanonical := (hread _ _ hf).2
        obtain ⟨gen, hgen, -, hgenName, -⟩ := h.named c' hc'
        obtain ⟨haccept, hne, hstart⟩ := SegmentInfos.accept_segmentsFileName hgen
        rw [← hgenName] at haccept hne hstart
        obtain ⟨c'', hc'', hname'', -, hfiles''⟩ := hloaded.lists _
          (hlisting _ (h.present c' hc' hdel)) files ⟨haccept, hne, hstart, hf⟩
        refine ⟨c'', hperm.mem_iff.mpr hc'', ?_, ?_, hloaded.loading.live c'' hc''⟩
        · rw [hname'', hcanonical, hname]
        · rw [hfiles'', SegmentInfos.allFiles, if_pos rfl, hcanonical, ← hfiles, hcons]
          rfl

theorem SnapshotInv.takeSnapshot {s : State} (h : SnapshotInv s) (hlive : LastCommitLive s .snapshot) :
    ∃ s', step s .snapshot = some s' ∧ SnapshotInv s' := by
  rw [step]
  cases htake : s.policy.takeSnapshot with
  | none => exact ⟨s, rfl, h⟩
  | some taken =>
      obtain ⟨c, policy⟩ := taken
      obtain ⟨hlast, hpolicy⟩ : s.policy.lastCommit = some c ∧
          policy = { s.policy with snapshot := c.segmentsFileName } := by
        unfold SnapshotDeletionPolicy.takeSnapshot at htake
        split at htake
        · cases htake
        · rename_i c' hlast
          split at htake
          · cases htake
            exact ⟨hlast, rfl⟩
          · cases htake
      subst hpolicy
      refine ⟨_, rfl, h.inv, h.named, h.present, h.last, fun c' directory heq => ?_⟩
      cases heq
      obtain ⟨c', hc', hid, hdel⟩ := hlive rfl c hlast
      obtain ⟨hnamed, hsame⟩ := h.last c hlast
      obtain ⟨hname, hfiles⟩ := hsame c' hc' hid
      exact ⟨hnamed, rfl, ⟨c', List.mem_append_left _ hc', hid, hname, hfiles, hdel⟩,
        ⟨c', hc', hname, hfiles, hdel⟩, fun f _ hf => hf⟩

theorem SnapshotInv.release {s : State} (h : SnapshotInv s) :
    ∃ s', step s .release = some s' ∧ SnapshotInv s' := by
  rw [step]
  cases hrelease : s.policy.release with
  | none => exact ⟨s, rfl, h⟩
  | some policy =>
      have hpolicy : policy = { s.policy with snapshot := "" } := by
        unfold SnapshotDeletionPolicy.release at hrelease
        split at hrelease
        · exact (Option.some.inj hrelease).symm
        · cases hrelease
      subst hpolicy
      exact ⟨_, rfl, h.inv, h.named, h.present, h.last, nofun⟩

theorem SnapshotInv.step {s : State} {op : Op} (h : SnapshotInv s)
    (hlegal : Legal s op ∧ LastCommitLive s op) :
    ∃ s', SnapshotDeletionPolicy.step s op = some s' ∧ SnapshotInv s' := by
  cases op with
  | commit infos primary => exact h.commit hlegal.1
  | deleteCommit id => exact h.deleteCommit id
  | other op => exact h.other hlegal.1
  | newDeleter listing read infos openFiles primary failures => exact h.newDeleter hlegal.1
  | snapshot => exact h.takeSnapshot hlegal.2
  | release => exact h.release

theorem snapshotInv_start (directory : List String) (failures : Nat → Bool) :
    SnapshotInv (start directory failures) where
  inv := (IndexFileDeleter.loading_fresh (fun _ => .ioException) directory 0 failures).inv
  named := nofun
  present := nofun
  last := nofun
  holding := nofun

/-- Whatever the wrapped policy asks to delete, in every run that takes its snapshots of commits that
are not deleted. -/
theorem snapshot_protected {directory : List String} {failures : Nat → Bool} {ops : List Op}
    (hlegal : Runs.Legal step (fun s op => Legal s op ∧ LastCommitLive s op)
      (start directory failures) ops) :
    ∃ s, Runs.run step (start directory failures) ops = some s ∧ Protected s := by
  obtain ⟨s, hrun, hs⟩ := Runs.legal_run_total (fun s op => SnapshotInv.step)
    (snapshotInv_start directory failures) hlegal
  exact ⟨s, hrun, hs.protected⟩

/-- A snapshot of the first commit, and a second commit that would delete it. -/
def snapshotThenCommit : List Op :=
  [.other (.createOutput "segments_1"),
    .commit ⟨1, 1, [], false⟩ IndexFileDeleter.keepOnlyLastCommit, .snapshot,
    .other (.createOutput "segments_2"),
    .commit ⟨2, 2, [], false⟩ IndexFileDeleter.keepOnlyLastCommit]

theorem snapshot_protected_second_commit :
    ∃ s, Runs.run step (start [] fun _ => false) snapshotThenCommit = some s ∧ Protected s := by
  refine snapshot_protected ⟨⟨trivial, nofun⟩, fun s hs => ?_⟩
  obtain rfl := Option.some.inj hs
  refine ⟨⟨⟨by decide, by decide, by decide⟩, nofun⟩, fun s hs => ?_⟩
  obtain rfl := Option.some.inj hs
  refine ⟨⟨trivial, fun _ c hc => ?_⟩, fun s hs => ?_⟩
  · obtain rfl := Option.some.inj hc
    decide
  obtain rfl := Option.some.inj hs
  refine ⟨⟨trivial, nofun⟩, fun s hs => ?_⟩
  obtain rfl := Option.some.inj hs
  refine ⟨⟨⟨by decide, by decide, by decide⟩, nofun⟩, fun _ _ => trivial⟩

/-- The wrapped policy deletes the commit it is told of, and the directory cannot delete its file right
away; the snapshot is that commit, and the next attempt to delete the file succeeds. -/
def snapshotOfDeleted : List Op :=
  [.other (.createOutput "segments_1"), .commit ⟨1, 1, [], false⟩ fun commits =>
    commits.map CommitPoint.id, .snapshot, .other .deletePendingFiles]

theorem snapshotOfDeleted_not_protected :
    Runs.Legal step Legal (start [] fun call => call = 0) snapshotOfDeleted ∧
      ∃ s, Runs.run step (start [] fun call => call = 0) snapshotOfDeleted = some s ∧
        ¬ Protected s := by
  refine ⟨⟨trivial, fun s hs => ?_⟩, _, rfl, fun h => ?_⟩
  · obtain rfl := Option.some.inj hs
    refine ⟨⟨by decide, by decide, by decide⟩, fun s hs => ⟨trivial, fun s hs => ?_⟩⟩
    exact ⟨trivial, fun _ _ => trivial⟩
  · have hfile := (h _ _ rfl).2 "segments_1" (by decide) (by decide)
    exact absurd hfile (by decide)

end SnapshotDeletionPolicy
end LucenePlusPlus
