import LucenePlusPlus.DeleterInit
import LucenePlusPlus.IndexWriterCommit

/-!
Durability of commits: in every run in which a failing sync of a new segments file shows, a complete
segments file with all its files stays in the directory. The most recent commit point that the deleter
knows is such a file, and a file is announced to the deleter only once it is complete.
-/

namespace LucenePlusPlus
namespace IndexWriter
open IndexFileDeleter (Inv Stepped)

abbrev segmentsN (gen : Int) : String :=
  IndexFileNames.fileNameFromGeneration IndexFileNames.segments "" gen

/-- The deleter has nothing to do with the file. -/
def Unused (w : IndexWriter) (g : String) : Prop :=
  w.files.deleter.count g = 0 ∧ g ∉ w.files.deleter.deletable

/-- The commit point is not deleted and its segments file is complete. -/
def Kept (w : IndexWriter) (c : CommitPoint) : Prop :=
  c.deleted = false ∧ ∃ gen : Int, 0 ≤ gen ∧ c.segmentsFileName = segmentsN gen ∧
    ∃ files, c.files = segmentsN gen :: files ∧ w.infos (segmentsN gen) = some files ∧
      ∀ f ∈ c.files, f ∈ w.files.deleter.directory

/-- A commit whose segments file is written but for its end. -/
structure Prepared (w : IndexWriter) (infos : SegmentInfos) : Prop where
  pendingSegnOutput : infos.pendingSegnOutput = true
  generation : infos.generation = w.segmentInfos.generation
  mem_directory : infos.segmentsFileName ∈ w.files.deleter.directory
  unused : Unused w infos.segmentsFileName

/-- What holds also in the middle of `finishCommit`. -/
structure CommitInv (w : IndexWriter) : Prop where
  inv : Inv w.files.deleter w.files.outstanding
  owed : (w.committing : Multiset String) ≤ w.files.outstanding
  current : ∀ f ∈ w.segmentInfos.files, f ∈ w.files.deleter.lastFiles.flatten
  present : ∀ f ∈ w.segmentInfos.files ++ w.committing, f ∈ w.files.deleter.directory
  newest : ∃ c ∈ w.files.deleter.commits, Kept w c
  generation : 0 ≤ w.segmentInfos.generation
  notPending : w.segmentInfos.pendingSegnOutput = false
  unused : ∀ gen, w.segmentInfos.generation < gen → Unused w (segmentsN gen)
  started : ∀ p ∈ w.syncing, p.1.generation ≤ w.segmentInfos.generation ∧ p.1.pendingSegnOutput = false

theorem CommitInv.durable {w : IndexWriter} (h : CommitInv w) : Durable w := by
  obtain ⟨c, -, -, gen, hgen, -, files, hfiles, hinfos, hdir⟩ := h.newest
  rw [hfiles] at hdir
  exact ⟨gen, hgen, hdir _ List.mem_cons_self, files, hinfos,
    fun f hf => hdir f (List.mem_cons_of_mem _ hf)⟩

theorem Unused.foreign {w : IndexWriter} {g : String} (h : Unused w g) :
    IndexFileDeleter.Foreign { w.files.deleter with attempts := [] } g :=
  ⟨h.1, h.2, nofun⟩

theorem CommitInv.notMem_held {w : IndexWriter} (h : CommitInv w) {g : String} (hg : Unused w g) :
    g ∉ w.files.deleter.held w.files.outstanding :=
  h.inv.counted.notMem_of_count_eq_zero hg.1

theorem mem_held_of_current {d : IndexFileDeleter} {outstanding : Multiset String} {f : String}
    (hf : f ∈ d.lastFiles.flatten) : f ∈ d.held outstanding := by
  have hmem : f ∈ (d.lastFiles.flatten : Multiset String) := Multiset.mem_coe.mpr hf
  simp only [IndexFileDeleter.held, Multiset.mem_add]
  exact Or.inl (Or.inr hmem)

theorem mem_held_of_owed {d : IndexFileDeleter} {outstanding : Multiset String} {files : List String}
    {f : String} (howed : (files : Multiset String) ≤ outstanding) (hf : f ∈ files) :
    f ∈ d.held outstanding := by
  simp only [IndexFileDeleter.held, Multiset.mem_add]
  exact Or.inr (Multiset.mem_of_le howed (Multiset.mem_coe.mpr hf))

theorem CommitInv.mem_held {w : IndexWriter} (h : CommitInv w) {f : String}
    (hf : f ∈ w.segmentInfos.files ++ w.committing) :
    f ∈ w.files.deleter.held w.files.outstanding := by
  rcases List.mem_append.mp hf with hf | hf
  · exact mem_held_of_current (h.current f hf)
  · exact mem_held_of_owed h.owed hf

theorem notMem_of_segmentFile {gen : Int} (hgen : 0 ≤ gen) {files : List String}
    (hfiles : ∀ f ∈ files, SegmentFile f) : segmentsN gen ∉ files := by
  intro hmem
  have hstart := (SegmentInfos.accept_segmentsFileName hgen).2.2
  rw [hfiles _ hmem] at hstart
  cases hstart

theorem not_ofSegment {segmentName : String} (h : IndexFileNames.startsWith segmentName "_" = true)
    {gen : Int} (hgen : 0 ≤ gen) : ¬ IndexFileDeleter.OfSegment segmentName (segmentsN gen) := by
  have hstart := (SegmentInfos.accept_segmentsFileName hgen).2.2
  rw [IndexFileNames.startsWith, List.isPrefixOf_iff_prefix] at h hstart
  obtain ⟨rest, hrest⟩ := h
  obtain ⟨rest', hrest'⟩ := hstart
  have hnot : ∀ suffix : String,
      IndexFileNames.startsWith (segmentsN gen) (segmentName ++ suffix) = false := by
    intro suffix
    by_contra hcon
    rw [Bool.not_eq_false, IndexFileNames.startsWith, List.isPrefixOf_iff_prefix,
      String.toList_append, ← hrest, ← hrest'] at hcon
    obtain ⟨rest'', hcon⟩ := hcon
    cases hcon
  rintro (hempty | hdot | hunderscore)
  · rw [hempty] at hrest
    cases hrest
  · rw [hnot] at hdot
    cases hdot
  · rw [hnot] at hunderscore
    cases hunderscore

theorem Unused.step {w w' : IndexWriter} {op : IndexFileDeleter.Op} {g : String} (h : Unused w g)
    (hstepped : Stepped w.files op w'.files) (hreach : ¬ IndexFileDeleter.Reaches op g) :
    Unused w' g ∧ (g ∈ w.files.deleter.directory → g ∈ w'.files.deleter.directory) := by
  have hforeign := hstepped.foreign g hreach h.foreign
  refine ⟨⟨hforeign.count_eq, hforeign.untouched.1⟩, fun hmem => ?_⟩
  rcases hstepped.shrinks.directory g hmem with hmem | ⟨count, hattempt⟩
  · exact hmem
  · exact absurd hattempt (hforeign.untouched.2 count)

theorem Prepared.step {w w' : IndexWriter} {op : IndexFileDeleter.Op} {infos : SegmentInfos}
    (h : Prepared w infos) (hstepped : Stepped w.files op w'.files)
    (hreach : ¬ IndexFileDeleter.Reaches op infos.segmentsFileName)
    (hgen : w'.segmentInfos.generation = w.segmentInfos.generation) : Prepared w' infos where
  pendingSegnOutput := h.pendingSegnOutput
  generation := h.generation.trans hgen.symm
  mem_directory := (h.unused.step hstepped hreach).2 h.mem_directory
  unused := (h.unused.step hstepped hreach).1

theorem CommitInv.operate {w w' : IndexWriter} {op : IndexFileDeleter.Op} (h : CommitInv w)
    (hstepped : Stepped w.files op w'.files)
    (hnewest : ∃ c ∈ IndexFileDeleter.shown w.files op,
      c.id ∉ IndexFileDeleter.deletedIds w.files op ∧ Kept w c)
    (hreach : ∀ gen, w.segmentInfos.generation < gen →
      ¬ IndexFileDeleter.Reaches op (segmentsN gen))
    (hinfos : w'.infos = w.infos)
    (hgen : w'.segmentInfos.generation = w.segmentInfos.generation)
    (hpending : w'.segmentInfos.pendingSegnOutput = false)
    (howed : (w'.committing : Multiset String) ≤ w'.files.outstanding)
    (hcurrent : ∀ f ∈ w'.segmentInfos.files, f ∈ w'.files.deleter.lastFiles.flatten)
    (hpresent : ∀ f ∈ w'.segmentInfos.files ++ w'.committing, f ∈ w.files.deleter.directory)
    (hstarted : ∀ p ∈ w'.syncing, p.1.generation ≤ w.segmentInfos.generation ∧
      p.1.pendingSegnOutput = false) : CommitInv w' where
  inv := hstepped.inv
  owed := howed
  current := hcurrent
  present f hf := by
    have hheld : f ∈ w'.files.deleter.held w'.files.outstanding := by
      rcases List.mem_append.mp hf with hf | hf
      · exact mem_held_of_current (hcurrent f hf)
      · exact mem_held_of_owed howed hf
    rcases hstepped.shrinks.directory f (hpresent f hf) with hmem | ⟨count, hattempt⟩
    · exact hmem
    · exact absurd hheld (hstepped.inv.counted.attempts f count hattempt).2
  newest := by
    obtain ⟨c, hc, hid, hdel, gen, hgen, hname, files, hfiles, hcomplete, hdir⟩ := hnewest
    have hmem := hstepped.pruned.survives c hc hdel hid
    refine ⟨c, hmem, hdel, gen, hgen, hname, files, hfiles, hinfos ▸ hcomplete, fun f hf => ?_⟩
    exact hstepped.mem_directory (hdir f hf) (Or.inl ⟨c, hmem, hdel, hf⟩)
  generation := by
    rw [hgen]
    exact h.generation
  notPending := hpending
  unused gen hlt := by
    rw [hgen] at hlt
    exact ((h.unused gen hlt).step hstepped (hreach gen hlt)).1
  started p hp := by
    rw [hgen]
    exact hstarted p hp

theorem CommitInv.newest_of_no_commit {w : IndexWriter} {op : IndexFileDeleter.Op} (h : CommitInv w)
    (hshown : IndexFileDeleter.shown w.files op = w.files.deleter.commits)
    (hids : IndexFileDeleter.deletedIds w.files op = []) :
    ∃ c ∈ IndexFileDeleter.shown w.files op,
      c.id ∉ IndexFileDeleter.deletedIds w.files op ∧ Kept w c := by
  obtain ⟨c, hc, hkept⟩ := h.newest
  exact ⟨c, hshown ▸ hc, by rw [hids]; exact List.not_mem_nil, hkept⟩

theorem committing_eq (w : IndexWriter) : (w.committing : Multiset String) =
    (w.pendingCommit.toList.flatMap SegmentInfos.files : Multiset String) +
      (w.syncing.flatMap fun p => p.1.files : Multiset String) := by
  rw [committing, List.flatMap_append, List.flatMap_map, Multiset.coe_add]

theorem committing_eraseIdx {w : IndexWriter} {k : Nat} {toSync : SegmentInfos} {count : Nat}
    (hk : w.syncing[k]? = some (toSync, count)) :
    (toSync.files : Multiset String) + { w with syncing := w.syncing.eraseIdx k }.committing =
      w.committing := by
  obtain ⟨hlt, hget⟩ := List.getElem?_eq_some_iff.mp hk
  have hperm := List.getElem_cons_eraseIdx_perm hlt
  rw [hget] at hperm
  have hfiles := Multiset.coe_eq_coe.mpr (hperm.flatMap_right fun p => p.1.files)
  rw [List.flatMap_cons, ← Multiset.coe_add] at hfiles
  rw [committing_eq, committing_eq, ← hfiles]
  simp only
  abel

theorem CommitInv.drop {w w' : IndexWriter} (h : CommitInv w) (hfiles : w'.files = w.files)
    (hinfos : w'.infos = w.infos) (hsegmentInfos : w'.segmentInfos = w.segmentInfos)
    (hcommitting : (w'.committing : Multiset String) ≤ w.committing)
    (hsyncing : ∀ p ∈ w'.syncing, p ∈ w.syncing) : CommitInv w' where
  inv := by rw [hfiles]; exact h.inv
  owed := by rw [hfiles]; exact hcommitting.trans h.owed
  current := by rw [hfiles, hsegmentInfos]; exact h.current
  present f hf := by
    rw [hfiles]
    rw [hsegmentInfos, List.mem_append] at hf
    refine h.present f (List.mem_append.mpr (hf.imp_right fun hf => ?_))
    exact Multiset.mem_coe.mp (Multiset.mem_of_le hcommitting (Multiset.mem_coe.mpr hf))
  newest := by
    obtain ⟨c, hc, hdel, gen, hgen, hname, files, hcons, hcomplete, hdir⟩ := h.newest
    rw [← hfiles] at hc hdir
    rw [← hinfos] at hcomplete
    exact ⟨c, hc, hdel, gen, hgen, hname, files, hcons, hcomplete, hdir⟩
  generation := by rw [hsegmentInfos]; exact h.generation
  notPending := by rw [hsegmentInfos]; exact h.notPending
  unused gen hlt := by
    rw [hsegmentInfos] at hlt
    rw [Unused, hfiles]
    exact h.unused gen hlt
  started p hp := by
    rw [hsegmentInfos]
    exact h.started p (hsyncing p hp)

theorem CommitInv.setDirectory {w : IndexWriter} (h : CommitInv w) {g : String} {dir : Directory}
    (hg : Unused w g) (htouch : w.directory.OnlyTouches g dir) : CommitInv (w.setDirectory dir) where
  inv := ⟨h.inv.counted.congr rfl rfl rfl, h.inv.ids_nodup, h.inv.ids_lt⟩
  owed := h.owed
  current := h.current
  present f hf := htouch.fileNames f (fun heq => h.notMem_held hg (heq ▸ h.mem_held hf)) (h.present f hf)
  newest := by
    obtain ⟨c, hc, hdel, gen, hgen, hname, files, hcons, hcomplete, hdir⟩ := h.newest
    have hne : ∀ f ∈ c.files, f ≠ g := fun f hf heq =>
      h.notMem_held hg (heq ▸ IndexFileDeleter.mem_held_of_mem_live hc hdel hf)
    refine ⟨c, hc, hdel, gen, hgen, hname, files, hcons, ?_,
      fun f hf => htouch.fileNames f (hne f hf) (hdir f hf)⟩
    have hmem : segmentsN gen ∈ c.files := hcons ▸ List.mem_cons_self
    exact (htouch.infos _ (hne _ hmem) (SegmentInfos.accept_segmentsFileName hgen).2.1).trans hcomplete
  generation := h.generation
  notPending := h.notPending
  unused := h.unused
  started := h.started

theorem CommitInv.updateGeneration {w : IndexWriter} (h : CommitInv w) {infos : SegmentInfos}
    (hle : w.segmentInfos.generation ≤ infos.generation) :
    CommitInv { w with segmentInfos := w.segmentInfos.updateGeneration infos } where
  inv := h.inv
  owed := h.owed
  current := h.current
  present := h.present
  newest := h.newest
  generation := h.generation.trans hle
  notPending := h.notPending
  unused gen hlt := h.unused gen (hle.trans_lt hlt)
  started p hp := ⟨(h.started p hp).1.trans hle, (h.started p hp).2⟩

theorem CommitInv.release {w : IndexWriter} (h : CommitInv w) {infos : SegmentInfos}
    (howed : (infos.files : Multiset String) + w.committing ≤ w.files.outstanding) :
    ∃ files, IndexFileDeleter.step w.files (.decRefInfos infos) = some files ∧
      CommitInv { w with files } ∧ files.deleter.commits = w.files.deleter.commits ∧
      ∀ infos', Prepared w infos' → Prepared { w with files } infos' := by
  have hle : (infos.files : Multiset String) ≤ w.files.outstanding :=
    (Multiset.le_add_right _ _).trans howed
  have hlegal : IndexFileDeleter.Legal w.files (.decRefInfos infos) := hle
  obtain ⟨files, hstep, hstepped⟩ := h.inv.step hlegal
  obtain ⟨d', hdec, -, hbook, -⟩ := h.inv.clear_attempts.decRefs hle
  have hcommits : files.deleter.commits = w.files.deleter.commits := by
    rw [IndexFileDeleter.step, hdec, Option.map_some, Option.some.injEq] at hstep
    rw [← hstep]
    exact hbook.commits_eq
  have hout : files.outstanding = w.files.outstanding - infos.files := hstepped.outstanding_eq
  have hlast : files.deleter.lastFiles = w.files.deleter.lastFiles := hstepped.lastFiles_eq
  refine ⟨files, hstep, ?_, hcommits, fun infos' hp => hp.step hstepped not_false rfl⟩
  refine h.operate hstepped (h.newest_of_no_commit rfl rfl) (fun _ _ => not_false) rfl rfl
    h.notPending ?_ ?_ h.present h.started
  · rw [hout]
    exact le_tsub_of_add_le_left howed
  · rw [hlast]
    exact h.current

/-! ### Operations of the writer -/

/-- What holds between the operations. -/
structure WriterInv (w : IndexWriter) : Prop extends CommitInv w where
  prepared : ∀ infos, w.pendingCommit = some infos → Prepared w infos

theorem WriterInv.checkpoint {w : IndexWriter} (h : WriterInv w) {files : List String}
    {openFiles : Option (List String)} (hlegal : Legal w (.checkpoint files openFiles)) :
    ∃ w', w.checkpoint files openFiles = some w' ∧ WriterInv w' := by
  have hdeleter : IndexFileDeleter.Legal w.files
      (.checkpoint { w.segmentInfos with files } false openFiles fun _ => []) :=
    fun f hf => (hlegal f hf).2.1
  obtain ⟨state, hstep, hstepped⟩ := h.inv.step hdeleter
  have hreach : ∀ gen : Int, 0 ≤ gen → ¬ IndexFileDeleter.Reaches
      (.checkpoint { w.segmentInfos with files } false openFiles fun _ => []) (segmentsN gen) :=
    fun gen hgen => notMem_of_segmentFile hgen fun f hf => (hlegal f hf).1
  have hout : state.outstanding = w.files.outstanding := hstepped.outstanding_eq
  have hlast : state.deleter.lastFiles = files :: openFiles.toList := hstepped.lastFiles_eq
  refine ⟨_, by rw [IndexWriter.checkpoint, hstep]; rfl, ?_, fun infos hinfos => ?_⟩
  · refine h.operate hstepped (h.newest_of_no_commit rfl rfl)
      (fun gen hlt => hreach gen (h.generation.trans hlt.le)) rfl rfl h.notPending ?_ ?_ ?_ h.started
    · rw [hout]
      exact h.owed
    · rw [hlast]
      exact fun f hf => List.mem_flatten.mpr ⟨files, List.mem_cons_self, hf⟩
    · intro f hf
      rcases List.mem_append.mp hf with hf | hf
      · exact (hlegal f (List.mem_append_left _ hf)).2.2
      · exact h.present f (List.mem_append_right _ hf)
  · have hp := h.prepared infos hinfos
    refine hp.step hstepped (hreach _ ?_) rfl
    rw [hp.generation]
    exact h.generation

theorem WriterInv.startCommit {w : IndexWriter} (h : WriterInv w) {files : List String} (removed : Nat)
    (hlegal : Legal w (.startCommit files removed)) :
    ∃ w', w.startCommit files removed = some w' ∧ WriterInv w' := by
  unfold IndexWriter.startCommit
  split
  · exact ⟨w, rfl, h⟩
  · have hheld : ∀ f ∈ files, f ∈ w.files.deleter.held w.files.outstanding :=
      fun f hf => mem_held_of_current (h.current f (hlegal f hf))
    have hdeleter : IndexFileDeleter.Legal w.files
        (.incRefInfos { w.segmentInfos with files } false) :=
      fun f hf hmem => h.inv.counted.deletable f hmem (hheld f hf)
    have hreach : ∀ g, Unused w g → ¬ IndexFileDeleter.Reaches
        (.incRefInfos { w.segmentInfos with files } false) g :=
      fun g hg hmem => h.notMem_held hg (hheld g hmem)
    obtain ⟨state, hstep, hstepped⟩ := h.inv.step hdeleter
    have hout : state.outstanding = files + w.files.outstanding := hstepped.outstanding_eq
    have hlast : state.deleter.lastFiles = w.files.deleter.lastFiles := hstepped.lastFiles_eq
    refine ⟨_, by simp only [hstep, Option.map_some]; rfl, ?_, fun infos hinfos => ?_⟩
    · refine h.operate hstepped (h.newest_of_no_commit rfl rfl)
        (fun gen hlt => hreach _ (h.unused gen hlt)) rfl rfl h.notPending ?_ ?_ ?_ ?_
      · rw [hout, committing_eq]
        simp only [List.flatMap_append, List.flatMap_cons, List.flatMap_nil, List.append_nil]
        rw [← Multiset.coe_add, ← add_assoc, add_comm, ← committing_eq]
        exact add_le_add_right h.owed _
      · rw [hlast]
        exact h.current
      · intro f hf
        simp only [committing, List.map_append, List.flatMap_append, List.mem_append, List.map_cons,
          List.map_nil, List.flatMap_cons, List.flatMap_nil, List.append_nil] at hf
        rcases hf with hf | hf | hf | hf
        · exact h.present f (List.mem_append_left _ hf)
        · refine h.present f (List.mem_append_right _ ?_)
          rw [committing, List.flatMap_append]
          exact List.mem_append_left _ hf
        · refine h.present f (List.mem_append_right _ ?_)
          rw [committing, List.flatMap_append]
          exact List.mem_append_right _ hf
        · exact h.present f (List.mem_append_left _ (hlegal f hf))
      · intro p hp
        rcases List.mem_append.mp hp with hp | hp
        · exact h.started p hp
        · rw [List.mem_singleton.mp hp]
          exact ⟨le_rfl, h.notPending⟩
    · have hp := h.prepared infos hinfos
      exact hp.step hstepped (hreach _ hp.unused) rfl

theorem CommitInv.nextSegmentsFile {w : IndexWriter} (h : CommitInv w) {toSync : SegmentInfos}
    (hle : toSync.generation ≤ w.segmentInfos.generation) :
    (if toSync.generation < w.segmentInfos.generation then toSync.updateGeneration w.segmentInfos
      else toSync).nextGeneration = w.segmentInfos.generation + 1 := by
  have hgen := h.generation
  split
  · rw [SegmentInfos.nextGeneration, SegmentInfos.updateGeneration, if_neg (by simp only; omega)]
  · rw [SegmentInfos.nextGeneration, if_neg (by omega)]
    omega

theorem WriterInv.write {w : IndexWriter} (h : WriterInv w) (hnone : w.pendingCommit = none) {k : Nat}
    {toSync updated : SegmentInfos} {count : Nat} (hk : w.syncing[k]? = some (toSync, count))
    (hnext : updated.nextGeneration = w.segmentInfos.generation + 1)
    (hfiles : updated.files = toSync.files) {out : SegmentInfos.WriteOutcome} {infos : SegmentInfos}
    {dir : Directory} {raised : Bool} (hwrite : updated.write w.directory out = (infos, dir, raised)) :
    ((infos.files : Multiset String) +
        { w with syncing := w.syncing.eraseIdx k }.committing ≤ w.files.outstanding) ∧
      CommitInv ({ w with
        syncing := w.syncing.eraseIdx k
        segmentInfos := w.segmentInfos.updateGeneration infos }.setDirectory dir) ∧
      (raised = false → WriterInv { { w with
        syncing := w.syncing.eraseIdx k
        segmentInfos := w.segmentInfos.updateGeneration infos }.setDirectory dir with
          pendingCommit := some infos, pendingCommitChangeCount := count }) := by
  have hcommitting := committing_eraseIdx hk
  have howed := h.owed
  rw [← hcommitting] at howed
  have hunused : Unused w updated.getNextSegmentFileName := by
    rw [SegmentInfos.getNextSegmentFileName, hnext]
    exact h.unused _ (lt_add_one _)
  have hgen := updated.write_generation w.directory out
  have htouch := updated.onlyTouches_write w.directory out
  have hwritten := updated.write_files w.directory out
  rw [hwrite] at hgen htouch hwritten
  simp only [hnext] at hgen
  simp only [hfiles] at hwritten
  have hdrop : CommitInv { w with syncing := w.syncing.eraseIdx k } :=
    h.drop rfl rfl rfl (hcommitting ▸ Multiset.le_add_left _ _)
      fun p hp => (List.eraseIdx_sublist _ _).mem hp
  have hle : w.segmentInfos.generation ≤ infos.generation := by omega
  have hinv := (hdrop.updateGeneration hle).setDirectory hunused htouch
  rw [hwritten]
  refine ⟨howed, hinv, fun hraised => ⟨⟨hinv.inv, ?_, hinv.current, fun f hf => ?_, hinv.newest,
    hinv.generation, hinv.notPending, hinv.unused, hinv.started⟩, fun infos' heq => ?_⟩⟩
  · rw [committing_eq] at howed ⊢
    simpa [hnone, hwritten, IndexWriter.setDirectory] using howed
  · simp only [committing, Option.toList_some, List.singleton_append, List.flatMap_cons,
      List.mem_append] at hf
    rcases hf with hf | hf | hf
    · exact hinv.present f (List.mem_append_left _ hf)
    · have hpart : f ∈ w.committing := by
        rw [hwritten] at hf
        rw [← Multiset.mem_coe, ← hcommitting, Multiset.mem_add]
        exact Or.inl (Multiset.mem_coe.mpr hf)
      refine htouch.fileNames f (fun heq => ?_) (h.present f (List.mem_append_right _ hpart))
      exact h.notMem_held hunused (heq ▸ mem_held_of_owed h.owed hpart)
    · refine hinv.present f (List.mem_append_right _ ?_)
      rw [committing, List.flatMap_append]
      exact List.mem_append_right _ hf
  · cases heq
    have hprepared : (updated.write w.directory out).2.2 = false := by rw [hwrite]; exact hraised
    obtain ⟨hpending, hmem⟩ := SegmentInfos.write_prepared hprepared
    rw [hwrite] at hpending hmem
    have hsegments : infos.segmentsFileName = updated.getNextSegmentFileName := by
      rw [SegmentInfos.segmentsFileName, hgen, SegmentInfos.getNextSegmentFileName, hnext]
    exact ⟨hpending, rfl, hsegments ▸ hmem, hsegments ▸ hunused⟩

theorem WriterInv.prepareCommit {w : IndexWriter} (h : WriterInv w) (k : Nat) (syncFiles : Bool)
    (out : SegmentInfos.WriteOutcome) :
    ∃ w', w.prepareCommit k syncFiles out = some w' ∧ WriterInv w' := by
  unfold IndexWriter.prepareCommit
  cases hk : w.syncing[k]? with
  | none => exact ⟨w, rfl, h⟩
  | some started =>
      obtain ⟨toSync, count⟩ := started
      have hcommitting := committing_eraseIdx hk
      have howed := h.owed
      rw [← hcommitting] at howed
      simp only
      split
      · have hdrop : CommitInv { w with syncing := w.syncing.eraseIdx k } :=
          h.drop rfl rfl rfl (hcommitting ▸ Multiset.le_add_left _ _)
            fun p hp => (List.eraseIdx_sublist _ _).mem hp
        obtain ⟨files, hstep, hinv, -, hprepared⟩ := hdrop.release howed
        refine ⟨_, by rw [IndexWriter.release, hstep]; rfl, hinv, fun infos hinfos => ?_⟩
        have hp := h.prepared infos hinfos
        exact hprepared infos ⟨hp.pendingSegnOutput, hp.generation, hp.mem_directory, hp.unused⟩
      · split
        · exact ⟨w, rfl, h⟩
        · rename_i hnone
          rw [Option.not_isSome_iff_eq_none] at hnone
          obtain ⟨hle, hpending⟩ := h.started _ (List.mem_of_getElem? hk)
          have hnext := h.nextSegmentsFile hle
          have hkept : (if toSync.generation < w.segmentInfos.generation then
              toSync.updateGeneration w.segmentInfos else toSync).files = toSync.files ∧
              (if toSync.generation < w.segmentInfos.generation then
                toSync.updateGeneration w.segmentInfos else toSync).pendingSegnOutput = false := by
            split <;> exact ⟨rfl, hpending⟩
          revert hnext hkept
          generalize (if toSync.generation < w.segmentInfos.generation then
            toSync.updateGeneration w.segmentInfos else toSync) = updated
          rintro hnext ⟨hfiles, hpending⟩
          simp only [SegmentInfos.prepareCommit, hpending, Bool.false_eq_true, if_false]
          generalize hwrite : updated.write w.directory out = written
          obtain ⟨infos, dir, raised⟩ := written
          obtain ⟨howed, hinv, hwriter⟩ := h.write hnone hk hnext hfiles hwrite
          cases raised with
          | true =>
              obtain ⟨files, hstep, hinv', -, -⟩ := hinv.release howed
              refine ⟨_, by rw [if_pos rfl, IndexWriter.release, hstep]; rfl, hinv',
                fun infos' heq => ?_⟩
              rw [show w.pendingCommit = some infos' from heq] at hnone
              cases hnone
          | false => exact ⟨_, rfl, hwriter rfl⟩

theorem CommitInv.clearPending {w : IndexWriter} (h : CommitInv w) {infos : SegmentInfos}
    (hpending : w.pendingCommit = some infos) :
    CommitInv { w with pendingCommit := none } ∧
      (infos.files : Multiset String) + { w with pendingCommit := none }.committing ≤
        w.files.outstanding := by
  have hcommitting : (infos.files : Multiset String) + { w with pendingCommit := none }.committing =
      w.committing := by
    rw [committing_eq, committing_eq, hpending]
    simp
  refine ⟨h.drop rfl rfl rfl ?_ fun p hp => hp, ?_⟩
  · rw [← hcommitting]
    exact Multiset.le_add_left _ _
  · rw [hcommitting]
    exact h.owed

theorem CommitInv.releasePending {w : IndexWriter} (h : CommitInv w) {infos infos' : SegmentInfos}
    (hpending : w.pendingCommit = some infos) (hfiles : infos'.files = infos.files) :
    ∃ w', w.release infos' = some w' ∧ WriterInv { w' with pendingCommit := none } ∧
      w'.segmentInfos = w.segmentInfos ∧ w'.files.deleter.commits = w.files.deleter.commits := by
  obtain ⟨hclear, howed⟩ := h.clearPending hpending
  rw [← hfiles] at howed
  obtain ⟨files, hstep, hinv, hcommits, -⟩ := hclear.release howed
  exact ⟨{ w with files }, by rw [IndexWriter.release, hstep]; rfl, ⟨hinv, nofun⟩, rfl, hcommits⟩

theorem WriterInv.rollbackPending {w : IndexWriter} (h : WriterInv w) (deleteFile : Bool) :
    ∃ w', w.rollbackPending deleteFile = some w' ∧ WriterInv w' := by
  unfold IndexWriter.rollbackPending
  cases hpending : w.pendingCommit with
  | none => exact ⟨w, rfl, h⟩
  | some infos =>
      obtain ⟨hfiles, -, htouch⟩ := infos.rollbackCommit_spec w.directory deleteFile
      have hinv := h.setDirectory (h.prepared infos hpending).unused htouch
      obtain ⟨w', hrelease, hw', -, -⟩ := hinv.releasePending hpending hfiles
      exact ⟨_, by simp only [hrelease]; rfl, hw'⟩

/-- A finished segments file is announced to the deleter, and the policy keeps it. -/
theorem CommitInv.announce {w : IndexWriter} (h : CommitInv w) {infos : SegmentInfos}
    {policy : IndexFileDeleter.Policy} (hpolicy : KeepsLast policy)
    (hlast : infos.lastGeneration = infos.generation)
    (hgen : infos.generation = w.segmentInfos.generation)
    (hunused : Unused w infos.segmentsFileName)
    (hmem : infos.segmentsFileName ∈ w.files.deleter.directory)
    (hcomplete : w.infos infos.segmentsFileName = some infos.files)
    (hfiles : ∀ f ∈ infos.files, f ∈ w.committing) :
    ∃ w', w.announce infos policy = some w' ∧ CommitInv w' ∧ w'.pendingCommit = w.pendingCommit := by
  have hname : infos.allFiles true = segmentsN infos.generation :: infos.files := by
    rw [SegmentInfos.allFiles, if_pos rfl, SegmentInfos.getCurrentSegmentFileName, hlast]
  have hheld : ∀ f ∈ infos.files, f ∈ w.files.deleter.held w.files.outstanding :=
    fun f hf => h.mem_held (List.mem_append_right _ (hfiles f hf))
  have hdeleter : IndexFileDeleter.Legal w.files (.checkpoint infos true none policy) := by
    intro f hf
    rw [Option.getD_none, List.append_nil, hname] at hf
    rcases List.mem_cons.mp hf with rfl | hf
    · exact hunused.2
    · exact fun hdel => h.inv.counted.deletable f hdel (hheld f hf)
  obtain ⟨state, hstep, hstepped⟩ := h.inv.step hdeleter
  have hout : state.outstanding = w.files.outstanding := hstepped.outstanding_eq
  have hlastFiles : state.deleter.lastFiles = w.files.deleter.lastFiles := hstepped.lastFiles_eq
  have heq : w.announce infos policy = some { w with
      files := state
      lastCommitChangeCount := w.pendingCommitChangeCount
      segmentInfos := w.segmentInfos.updateGeneration infos } := by
    rw [IndexWriter.announce, hstep]
    rfl
  refine ⟨_, heq, ?_, rfl⟩
  refine h.operate hstepped ?_ (fun gen hlt hreach => ?_) rfl hgen h.notPending ?_ ?_ h.present h.started
  · have hids := (IndexFileDeleter.ids_addCommit infos h.inv.ids_nodup h.inv.ids_lt).1
    have hshown : IndexFileDeleter.shown w.files (.checkpoint infos true none policy) =
        w.files.deleter.commits ++ [w.files.deleter.newCommitPoint infos] := rfl
    refine ⟨w.files.deleter.newCommitPoint infos, hshown ▸ List.mem_append_right _ (List.mem_singleton_self _),
      hpolicy _ _ hids ?_, rfl, infos.generation, hgen ▸ h.generation, ?_, infos.files, hname, hcomplete,
      fun f hf => ?_⟩
    · exact List.getLast?_concat
    · rw [IndexFileDeleter.newCommitPoint, SegmentInfos.getCurrentSegmentFileName, hlast]
    · rw [show (w.files.deleter.newCommitPoint infos).files = infos.allFiles true from rfl, hname] at hf
      rcases List.mem_cons.mp hf with rfl | hf
      · exact hmem
      · exact h.present f (List.mem_append_right _ (hfiles f hf))
  · have hpos := h.generation.trans hlt.le
    change segmentsN gen ∈ infos.allFiles true ++ [] at hreach
    rw [List.append_nil, hname] at hreach
    rcases List.mem_cons.mp hreach with heq | hmem'
    · have := SegmentInfos.segmentsFileName_injective hpos (hgen ▸ h.generation) heq
      omega
    · exact h.notMem_held (h.unused gen hlt) (hheld _ hmem')
  · rw [hout]
    exact h.owed
  · rw [hlastFiles]
    exact h.current

/-- A commit that raises changes nothing that the deleter or the next commit sees. -/
theorem WriterInv.finishCommit_raised {w : IndexWriter} (h : WriterInv w) {infos : SegmentInfos}
    (hpending : w.pendingCommit = some infos) {out : SegmentInfos.FinishOutcome}
    (hraised : (infos.finishCommit w.directory out).2.2 = true) (policy : IndexFileDeleter.Policy) :
    ∃ w', w.finishCommit out policy = some (w', true) ∧ WriterInv w' ∧
      w'.segmentInfos = w.segmentInfos ∧ w'.files.deleter.commits = w.files.deleter.commits := by
  have htouch := infos.onlyTouches_finishCommit w.directory out
  have hinv := h.setDirectory (h.prepared infos hpending).unused htouch
  have hfiles := infos.finishCommit_files w.directory out
  unfold IndexWriter.finishCommit
  simp only [hpending]
  revert hraised hinv hfiles
  generalize infos.finishCommit w.directory out = finished
  obtain ⟨infos', dir, raised⟩ := finished
  rintro rfl hinv hfiles
  obtain ⟨w', hrelease, hw', hsegmentInfos, hcommits⟩ := hinv.releasePending hpending hfiles
  exact ⟨_, by simp only [if_true, Option.bind_eq_bind, Option.bind_some, hrelease]; rfl, hw',
    hsegmentInfos, hcommits⟩

theorem WriterInv.finishCommit {w : IndexWriter} (h : WriterInv w) {out : SegmentInfos.FinishOutcome}
    {policy : IndexFileDeleter.Policy} (hpolicy : KeepsLast policy) (hreported : out.reported = true) :
    ∃ w' raised, w.finishCommit out policy = some (w', raised) ∧ WriterInv w' := by
  cases hpending : w.pendingCommit with
  | none => exact ⟨w, false, by rw [IndexWriter.finishCommit, hpending], h⟩
  | some infos =>
      cases hraised : (infos.finishCommit w.directory out).2.2 with
      | true =>
          obtain ⟨w', hfinish, hw', -, -⟩ := h.finishCommit_raised hpending hraised policy
          exact ⟨w', true, hfinish, hw'⟩
      | false =>
          have hp := h.prepared infos hpending
          have hgenerated : 0 ≤ infos.generation := hp.generation ▸ h.generation
          have htouch := infos.onlyTouches_finishCommit w.directory out
          have hinv := h.setDirectory hp.unused htouch
          obtain ⟨heq, hmem, hcomplete⟩ := SegmentInfos.finishCommit_complete hp.pendingSegnOutput
            hreported hraised (SegmentInfos.accept_segmentsFileName hgenerated).2.1 hp.mem_directory
          unfold IndexWriter.finishCommit
          simp only [hpending]
          revert heq hraised hinv hmem hcomplete
          generalize infos.finishCommit w.directory out = finished
          obtain ⟨infos', dir, raised⟩ := finished
          rintro rfl hinv rfl hmem hcomplete
          have hfiles : ∀ f ∈ infos.files, f ∈ (w.setDirectory dir).committing := by
            intro f hf
            change f ∈ w.committing
            rw [committing, hpending]
            simp [hf]
          obtain ⟨w₁, hannounce, hw₁, hpending₁⟩ : ∃ w₁, (w.setDirectory dir).announce
              { infos with lastGeneration := infos.generation, pendingSegnOutput := false } policy =
                some w₁ ∧ CommitInv w₁ ∧ w₁.pendingCommit = w.pendingCommit :=
            hinv.announce hpolicy rfl hp.generation hp.unused hmem hcomplete hfiles
          have hsame : ({ infos with
              lastGeneration := infos.generation, pendingSegnOutput := false } : SegmentInfos).files =
                infos.files := rfl
          obtain ⟨w', hrelease, hw', -, -⟩ := hw₁.releasePending (hpending₁.trans hpending) hsame
          refine ⟨_, false, ?_, hw'⟩
          simp only [Bool.false_eq_true, if_false, Option.bind_eq_bind, hannounce, Option.bind_some]
          rw [hrelease]
          rfl

/-- The other uses of the deleter add references to files of segments, and drop references of others. -/
theorem LegalDeleter.spec {w : IndexWriter} (h : WriterInv w) {op : IndexFileDeleter.Op}
    (hlegal : LegalDeleter w op) :
    IndexFileDeleter.Legal w.files op ∧
      IndexFileDeleter.shown w.files op = w.files.deleter.commits ∧
      IndexFileDeleter.deletedIds w.files op = [] ∧
      IndexFileDeleter.lastFilesAfter w.files op = w.files.deleter.lastFiles ∧
      (w.committing : Multiset String) ≤ IndexFileDeleter.outstandingAfter w.files op ∧
      ∀ gen : Int, 0 ≤ gen → ¬ IndexFileDeleter.Reaches op (segmentsN gen) := by
  cases op with
  | createOutput fileName => exact ⟨trivial, rfl, rfl, rfl, h.owed, fun _ _ => not_false⟩
  | incRefFiles files =>
      exact ⟨fun f hf => (hlegal f hf).2, rfl, rfl, rfl, h.owed.trans (Multiset.le_add_left _ _),
        fun gen hgen => notMem_of_segmentFile hgen fun f hf => (hlegal f hf).1⟩
  | decRefFiles files =>
      refine ⟨hlegal.trans tsub_le_self, rfl, rfl, rfl, ?_, fun _ _ => not_false⟩
      apply le_tsub_of_add_le_right
      calc (w.committing : Multiset String) + files
          ≤ w.committing + (w.files.outstanding - w.committing) := add_le_add_right hlegal _
        _ = w.files.outstanding := add_tsub_cancel_of_le h.owed
  | deletePendingFiles => exact ⟨trivial, rfl, rfl, rfl, h.owed, fun _ _ => not_false⟩
  | refresh segmentName =>
      exact ⟨trivial, rfl, rfl, rfl, h.owed, fun gen hgen => not_ofSegment hlegal hgen⟩
  | incRefInfos _ _ | decRefInfos _ | checkpoint _ _ _ _ | deleteCommit _ | close => exact hlegal.elim

theorem WriterInv.deleter {w : IndexWriter} (h : WriterInv w) {op : IndexFileDeleter.Op}
    (hlegal : LegalDeleter w op) :
    ∃ w', IndexWriter.step w (.deleter op) = some w' ∧ WriterInv w' := by
  obtain ⟨hdeleter, hshown, hids, hlast, howed, hreach⟩ := hlegal.spec h
  obtain ⟨state, hstep, hstepped⟩ := h.inv.step hdeleter
  refine ⟨_, by rw [IndexWriter.step, hstep]; rfl, ?_, fun infos hinfos => ?_⟩
  · refine h.operate hstepped (h.newest_of_no_commit hshown hids)
      (fun gen hlt => hreach gen (h.generation.trans hlt.le)) rfl rfl h.notPending ?_ ?_ h.present
      h.started
    · rw [hstepped.outstanding_eq]
      exact howed
    · rw [hstepped.lastFiles_eq, hlast]
      exact h.current
  · have hp := h.prepared infos hinfos
    refine hp.step hstepped (hreach _ ?_) rfl
    rw [hp.generation]
    exact h.generation

theorem WriterInv.step {w : IndexWriter} {op : Op} (h : WriterInv w)
    (hlegal : Legal w op ∧ SyncReported op) :
    ∃ w', IndexWriter.step w op = some w' ∧ WriterInv w' := by
  cases op with
  | checkpoint files openFiles => exact h.checkpoint hlegal.1
  | startCommit files removed => exact h.startCommit removed hlegal.1
  | prepareCommit k syncFiles out => exact h.prepareCommit k syncFiles out
  | finishCommit out policy =>
      obtain ⟨w', raised, hfinish, hw'⟩ := h.finishCommit hlegal.1 hlegal.2
      exact ⟨w', by rw [IndexWriter.step, hfinish]; rfl, hw'⟩
  | rollbackPending deleteFile => exact h.rollbackPending deleteFile
  | deleter op => exact h.deleter hlegal.1

/-- Of a commit that fails, the failure is reported exactly when the failing sync shows. -/
theorem WriterInv.failureReported_iff {w : IndexWriter} (h : WriterInv w) {infos : SegmentInfos}
    (hpending : w.pendingCommit = some infos) {out : SegmentInfos.FinishOutcome}
    (hfails : out.fails = true) (policy : IndexFileDeleter.Policy) :
    FailureReported w infos out policy ↔ out.reported = true := by
  have hraised : (infos.finishCommit w.directory out).2.2 = true ↔ _ :=
    SegmentInfos.finishCommit_raised_iff (h.prepared infos hpending).pendingSegnOutput
  constructor
  · rintro ⟨w', hfinish, -⟩
    refine (hraised.mp ?_).2
    unfold IndexWriter.finishCommit at hfinish
    simp only [hpending] at hfinish
    revert hfinish
    generalize infos.finishCommit w.directory out = finished
    obtain ⟨infos', dir, raised⟩ := finished
    intro hfinish
    cases raised with
    | true => rfl
    | false =>
        simp only [Bool.false_eq_true, if_false, Option.bind_eq_bind, Option.bind_eq_some_iff] at hfinish
        obtain ⟨_, _, _, _, heq⟩ := hfinish
        cases heq
  · intro hreported
    have hraised := hraised.mpr ⟨hfails, hreported⟩
    obtain ⟨w', hfinish, -, hinfos, hcommits⟩ := h.finishCommit_raised hpending hraised policy
    exact ⟨w', hfinish, SegmentInfos.finishCommit_lastGeneration_of_raised hraised, hinfos, hcommits⟩

end IndexWriter
end LucenePlusPlus
