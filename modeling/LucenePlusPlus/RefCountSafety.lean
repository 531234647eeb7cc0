import LucenePlusPlus.DeleterInit

/-!
Reference counting is safe in every run: no assertion of `RefCount` fails, the files of undeleted commit
points are counted, and a file is deleted only when nothing refers to it.
-/

namespace LucenePlusPlus
namespace IndexFileDeleter

/-- A deleter, and the references its callers hold (ghost). -/
structure State where
  deleter : IndexFileDeleter
  outstanding : Multiset String

/-- What callers, deletion policies and other writers of the directory do. -/
inductive Op where
  | incRefInfos (infos : SegmentInfos) (isCommit : Bool)
  | decRefInfos (infos : SegmentInfos)
  | incRefFiles (files : List String)
  | decRefFiles (files : List String)
  | checkpoint (infos : SegmentInfos) (isCommit : Bool) (openFiles : Option (List String))
      (policy : Policy)
  | deleteCommit (id : Nat)
  | deletePendingFiles
  | refresh (segmentName : String)
  | createOutput (fileName : String)
  | close

def step (s : State) (op : Op) : Option State :=
  let d := { s.deleter with attempts := [] }
  match op with
  | .incRefInfos infos isCommit =>
      (d.incRefs (infos.allFiles isCommit)).map fun d => ⟨d, infos.allFiles isCommit + s.outstanding⟩
  | .decRefInfos infos => (d.decRefs infos.files).map fun d => ⟨d, s.outstanding - infos.files⟩
  | .incRefFiles files => (d.incRefs files).map fun d => ⟨d, files + s.outstanding⟩
  | .decRefFiles files => (d.decRefs files).map fun d => ⟨d, s.outstanding - files⟩
  | .checkpoint infos isCommit openFiles policy =>
      (d.checkpoint infos isCommit openFiles policy).map fun d => ⟨d, s.outstanding⟩
  | .deleteCommit id => some ⟨d.deleteCommit id, s.outstanding⟩
  | .deletePendingFiles => some ⟨d.deletePendingFiles, s.outstanding⟩
  | .refresh segmentName => some ⟨d.refresh segmentName, s.outstanding⟩
  | .createOutput fileName => some ⟨{ d with directory := fileName :: d.directory }, s.outstanding⟩
  | .close => d.close.map fun d => ⟨d, s.outstanding⟩

/-- File names are write-once, so a file waiting to be deleted is not referred to again; and callers
drop only references of their own. -/
def Legal (s : State) : Op → Prop
  | .incRefInfos infos isCommit => ∀ f ∈ infos.allFiles isCommit, f ∉ s.deleter.deletable
  | .incRefFiles files => ∀ f ∈ files, f ∉ s.deleter.deletable
  | .decRefInfos infos => (infos.files : Multiset String) ≤ s.outstanding
  | .decRefFiles files => (files : Multiset String) ≤ s.outstanding
  | .checkpoint infos isCommit openFiles _ =>
      ∀ f ∈ infos.allFiles isCommit ++ openFiles.getD [], f ∉ s.deleter.deletable
  | _ => True

instance (s : State) : ∀ op, Decidable (Legal s op)
  | .incRefInfos infos isCommit =>
      inferInstanceAs (Decidable (∀ f ∈ infos.allFiles isCommit, f ∉ s.deleter.deletable))
  | .decRefInfos infos => inferInstanceAs (Decidable ((infos.files : Multiset String) ≤ s.outstanding))
  | .incRefFiles files => inferInstanceAs (Decidable (∀ f ∈ files, f ∉ s.deleter.deletable))
  | .decRefFiles files => inferInstanceAs (Decidable ((files : Multiset String) ≤ s.outstanding))
  | .checkpoint infos isCommit openFiles _ => inferInstanceAs (Decidable
      (∀ f ∈ infos.allFiles isCommit ++ openFiles.getD [], f ∉ s.deleter.deletable))
  | .deleteCommit _ | .deletePendingFiles | .refresh _ | .createOutput _ | .close => .isTrue trivial

/-- An undeleted commit point, the last checkpoint, or a caller refers to the file. -/
def Referenced (s : State) (f : String) : Prop :=
  (∃ c ∈ s.deleter.commits, c.deleted = false ∧ f ∈ c.files) ∨
    (∃ files ∈ s.deleter.lastFiles, f ∈ files) ∨ f ∈ s.outstanding

/-- What reference counting is for. -/
structure Safe (s : State) : Prop where
  /-- the files the last operation tried to delete had count zero, and nothing refers to them -/
  deleted : ∀ f c, (f, c) ∈ s.deleter.attempts → c = 0 ∧ ¬ Referenced s f
  commits : ∀ c ∈ s.deleter.commits, c.deleted = false → ∀ f ∈ c.files, 0 < s.deleter.count f
  nonneg : ∀ f, 0 ≤ s.deleter.count f

theorem mem_held_of_referenced {s : State} {f : String} (h : Referenced s f) :
    f ∈ s.deleter.held s.outstanding := by
  rcases h with ⟨c, hc, hdel, hf⟩ | ⟨files, hfiles, hf⟩ | hf
  · exact mem_held_of_mem_live hc hdel hf
  · have hmem : f ∈ (s.deleter.lastFiles.flatten : Multiset String) :=
      Multiset.mem_coe.mpr (List.mem_flatten.mpr ⟨files, hfiles, hf⟩)
    simp only [held, Multiset.mem_add]
    exact Or.inl (Or.inr hmem)
  · simp only [held, Multiset.mem_add]
    exact Or.inr hf

theorem Inv.safe {s : State} (h : Inv s.deleter s.outstanding) : Safe s where
  deleted f c hmem := by
    obtain ⟨hzero, hheld⟩ := h.counted.attempts f c hmem
    exact ⟨hzero, fun href => hheld (mem_held_of_referenced href)⟩
  commits c hc hdel f hf := by
    have hmem : f ∈ s.deleter.held s.outstanding := mem_held_of_mem_live hc hdel hf
    rw [h.counted.count_eq]
    exact_mod_cast Multiset.count_pos.mpr hmem
  nonneg f := by
    rw [h.counted.count_eq]
    exact Int.natCast_nonneg _

theorem Inv.clear_attempts {d : IndexFileDeleter} {outstanding : Multiset String}
    (h : Inv d outstanding) : Inv { d with attempts := [] } outstanding where
  counted := ⟨h.counted.count_eq, h.counted.count_pos, h.counted.deletable, nofun⟩
  ids_nodup := h.ids_nodup
  ids_lt := h.ids_lt

/-- The commit points that are listed once an operation has added its own. -/
def shown (s : State) : Op → List CommitPoint
  | .checkpoint infos true _ _ => s.deleter.shownCommits infos
  | _ => s.deleter.commits

/-- The ids of the commit points that an operation may delete. -/
def deletedIds (s : State) : Op → List Nat
  | .checkpoint infos true _ policy => policy (s.deleter.shownCommits infos)
  | .deleteCommit id => [id]
  | _ => []

/-- The files that an operation may refer to or delete although nothing referred to them. -/
def Reaches : Op → String → Prop
  | .incRefInfos infos isCommit, g => g ∈ infos.allFiles isCommit
  | .incRefFiles files, g => g ∈ files
  | .checkpoint infos isCommit openFiles _, g => g ∈ infos.allFiles isCommit ++ openFiles.getD []
  | .refresh segmentName, g => OfSegment segmentName g
  | _, _ => False

/-- The files of the last checkpoint, after an operation. -/
def lastFilesAfter (s : State) : Op → List (List String)
  | .checkpoint infos false openFiles _ => infos.files :: openFiles.toList
  | .close => []
  | _ => s.deleter.lastFiles

/-- The references of the callers, after an operation. -/
def outstandingAfter (s : State) : Op → Multiset String
  | .incRefInfos infos isCommit => infos.allFiles isCommit + s.outstanding
  | .incRefFiles files => files + s.outstanding
  | .decRefInfos infos => s.outstanding - infos.files
  | .decRefFiles files => s.outstanding - files
  | _ => s.outstanding

/-- What a legal operation preserves and what it does to commit points, to the directory and to files
that it has no business with. -/
structure Stepped (s : State) (op : Op) (s' : State) : Prop where
  inv : Inv s'.deleter s'.outstanding
  shrinks : Shrinks { s.deleter with attempts := [] } s'.deleter
  pruned : Pruned (deletedIds s op) (shown s op) s'.deleter.commits
  lastFiles_eq : s'.deleter.lastFiles = lastFilesAfter s op
  outstanding_eq : s'.outstanding = outstandingAfter s op
  foreign : ∀ g, ¬ Reaches op g → IndexFileDeleter.Foreign { s.deleter with attempts := [] } g →
    s'.deleter.Foreign g

theorem Inv.step {s : State} {op : Op} (h : Inv s.deleter s.outstanding) (hlegal : Legal s op) :
    ∃ s', IndexFileDeleter.step s op = some s' ∧ Stepped s op s' := by
  have h₀ := h.clear_attempts
  have huntouched : ∀ f, f ∉ s.deleter.deletable →
      IndexFileDeleter.Untouched { s.deleter with attempts := [] } f := fun f hf => ⟨hf, nofun⟩
  -- an operation that only counts references
  have hbookkeeping : ∀ {d' : IndexFileDeleter} {outstanding : Multiset String},
      Inv d' outstanding → Bookkeeping { s.deleter with attempts := [] } d' →
      (∀ g, ¬ Reaches op g → IndexFileDeleter.Foreign { s.deleter with attempts := [] } g →
        d'.Foreign g) →
      shown s op = s.deleter.commits → deletedIds s op = [] →
      lastFilesAfter s op = s.deleter.lastFiles → outstanding = outstandingAfter s op →
      Stepped s op ⟨d', outstanding⟩ := by
    intro d' outstanding h' hbook hforeign hshown hids hlast hout
    refine ⟨h', hbook.toShrinks, ?_, hbook.lastFiles_eq.trans hlast.symm, hout, hforeign⟩
    rw [hshown, hids, hbook.commits_eq]
    exact .refl _
  cases op with
  | incRefInfos infos isCommit =>
      obtain ⟨d', hinc, h', hbook, hforeign⟩ := h₀.incRefs fun f hf => huntouched f (hlegal f hf)
      exact ⟨_, by rw [IndexFileDeleter.step, hinc]; rfl, hbookkeeping h' hbook hforeign rfl rfl rfl rfl⟩
  | decRefInfos infos =>
      obtain ⟨d', hdec, h', hbook, hforeign⟩ := h₀.decRefs hlegal
      exact ⟨_, by rw [IndexFileDeleter.step, hdec]; rfl,
        hbookkeeping h' hbook (fun g _ => hforeign g) rfl rfl rfl rfl⟩
  | incRefFiles files =>
      obtain ⟨d', hinc, h', hbook, hforeign⟩ := h₀.incRefs fun f hf => huntouched f (hlegal f hf)
      exact ⟨_, by rw [IndexFileDeleter.step, hinc]; rfl, hbookkeeping h' hbook hforeign rfl rfl rfl rfl⟩
  | decRefFiles files =>
      obtain ⟨d', hdec, h', hbook, hforeign⟩ := h₀.decRefs hlegal
      exact ⟨_, by rw [IndexFileDeleter.step, hdec]; rfl,
        hbookkeeping h' hbook (fun g _ => hforeign g) rfl rfl rfl rfl⟩
  | checkpoint infos isCommit openFiles policy =>
      obtain ⟨d', hcheck, h', hshrinks, hcommit, hnoCommit, hlast, hforeign⟩ :=
        h₀.checkpoint isCommit policy
        (fun f hf => huntouched f (hlegal f (List.mem_append_left _ hf)))
        (fun f hf => huntouched f (hlegal f (List.mem_append_right _ hf)))
      refine ⟨⟨d', s.outstanding⟩, by rw [IndexFileDeleter.step, hcheck]; rfl, h', hshrinks, ?_, ?_, rfl,
        fun g hg => hforeign g hg⟩
      · cases isCommit with
        | true => exact hcommit rfl
        | false =>
            rw [hnoCommit rfl]
            exact .refl _
      · cases isCommit <;> exact hlast
  | deleteCommit id =>
      exact ⟨_, rfl, h₀.deleteCommit id, shrinks_deleteCommit _ id, h₀.pruned_deleteCommit id,
        lastFiles_deleteCommit _ id, rfl, fun g _ hg => ⟨(count_deleteCommit _ id g).trans hg.count_eq,
          untouched_deleteCommit id hg.untouched⟩⟩
  | deletePendingFiles =>
      exact ⟨_, rfl, hbookkeeping h₀.deletePendingFiles (bookkeeping_deletePendingFiles _)
        (fun g _ hg => hg.deletePendingFiles) rfl rfl rfl rfl⟩
  | refresh segmentName =>
      obtain ⟨h', hbook, hforeign⟩ := h₀.refresh segmentName
      exact ⟨_, rfl, hbookkeeping h' hbook hforeign rfl rfl rfl rfl⟩
  | createOutput fileName =>
      refine ⟨⟨_, s.outstanding⟩, rfl, ⟨h₀.counted.congr rfl rfl rfl, h₀.ids_nodup, h₀.ids_lt⟩,
        ⟨fun _ h => h, fun f hf => Or.inl (List.mem_cons_of_mem _ hf)⟩, .refl _, rfl, rfl,
        fun g _ hg => ⟨hg.count_eq, hg.untouched⟩⟩
  | close =>
      obtain ⟨d', hclose, h', hshrinks, hcommits, hlast, hforeign⟩ := h₀.close
      refine ⟨⟨d', s.outstanding⟩, by rw [IndexFileDeleter.step, hclose]; rfl, h', hshrinks, ?_, hlast, rfl,
        fun g _ => hforeign g⟩
      simp only [hcommits]
      exact .refl _

/-- A file that something still refers to after an operation is still in the directory. -/
theorem Stepped.mem_directory {s s' : State} {op : Op} {f : String} (h : Stepped s op s')
    (hf : f ∈ s.deleter.directory) (href : Referenced s' f) : f ∈ s'.deleter.directory := by
  rcases h.shrinks.directory f hf with hmem | ⟨c, hc⟩
  · exact hmem
  · exact absurd href (h.inv.safe.deleted f c hc).2

/-- From any directory listing, through any legal run: no count drops below zero (which `RefCount`
asserts), the files of undeleted commit points are counted, and only files that nothing refers to are
deleted. -/
theorem refCounts_safe {directory listing : List String} {nextCommit : Nat} {failures : Nat → Bool}
    {read : String → ReadResult} {infos : SegmentInfos} {openFiles : Option (List String)}
    {policy : Policy}
    (hbuilt : BuiltOnCommit (fresh directory nextCommit failures) listing read infos openFiles) :
    (fresh directory nextCommit failures).init listing read infos openFiles policy ≠
        .error .assertion ∧
      ∀ d b, (fresh directory nextCommit failures).init listing read infos openFiles policy =
          .ok (d, b) →
        ∀ ops, Runs.Legal step Legal ⟨d, 0⟩ ops →
          ∃ s, Runs.run step ⟨d, 0⟩ ops = some s ∧ Safe s := by
  obtain ⟨hno, hinit⟩ := (loading_fresh read directory nextCommit failures).init hbuilt
  refine ⟨hno, fun d b hd ops hlegal => ?_⟩
  have hinv : Inv (State.deleter ⟨d, 0⟩) (State.outstanding ⟨d, 0⟩) :=
    (hinit d b hd).inv
  have hstep : ∀ s op, Inv (State.deleter s) s.outstanding → Legal s op →
      ∃ s', step s op = some s' ∧ Inv s'.deleter s'.outstanding := fun s op hs hlegal => by
    obtain ⟨s', heq, hs'⟩ := hs.step hlegal
    exact ⟨s', heq, hs'.inv⟩
  obtain ⟨s, hrun, hs⟩ := Runs.legal_run_total hstep hinv hlegal
  exact ⟨s, hrun, hs.safe⟩

/-- An index with one commit, and a file of a segment that was never committed. -/
def abandoned : List String := ["segments_1", "_0.cfs", "_1.cfs"]

def readFirst (fileName : String) : ReadResult :=
  if fileName = "segments_1" then .files ["_0.cfs"] else .ioException

/-- A commit of a second segment. -/
def secondCommit : List Op :=
  [.createOutput "_2.cfs",
    .checkpoint ⟨2, 2, ["_2.cfs"], false⟩ true none keepOnlyLastCommit]

theorem refCounts_safe_second_commit :
    ∃ d b s, (fresh abandoned 0 fun _ => false).init abandoned readFirst ⟨1, 1, ["_0.cfs"], false⟩ none
        (fun _ => []) = .ok (d, b) ∧
      Runs.run step ⟨d, 0⟩ secondCommit = some s ∧ Safe s := by
  have hload : ((fresh abandoned 0 fun _ => false).loadCommits abandoned readFirst
      ⟨1, 1, ["_0.cfs"], false⟩).toOption.map (fun st => st.1.commits.map CommitPoint.files) =
        some [["segments_1", "_0.cfs"]] := by decide
  have hinit : ((fresh abandoned 0 fun _ => false).init abandoned readFirst
      ⟨1, 1, ["_0.cfs"], false⟩ none (fun _ => [])).toOption.map (fun st => st.1.deletable) =
        some [] := by decide
  have hbuilt : BuiltOnCommit (fresh abandoned 0 fun _ => false) abandoned readFirst
      ⟨1, 1, ["_0.cfs"], false⟩ none := by
    intro d₀ id hd₀ f hf _
    rw [hd₀] at hload
    have hcommits : d₀.commits.map CommitPoint.files = [["segments_1", "_0.cfs"]] :=
      Option.some.inj hload
    obtain ⟨c, hc, hfiles⟩ : ∃ c ∈ d₀.commits, c.files = ["segments_1", "_0.cfs"] :=
      List.mem_map.mp (by rw [hcommits]; exact List.mem_singleton_self _)
    refine ⟨c, hc, ?_⟩
    rw [List.mem_singleton.mp hf, hfiles]
    decide
  cases hd : (fresh abandoned 0 fun _ => false).init abandoned readFirst
      ⟨1, 1, ["_0.cfs"], false⟩ none (fun _ => []) with
  | error e =>
      rw [hd] at hinit
      cases hinit
  | ok st =>
      obtain ⟨d, b⟩ := st
      rw [hd] at hinit
      have hdeletable : d.deletable = [] := Option.some.inj hinit
      have hlegal : Runs.Legal step Legal ⟨d, 0⟩ secondCommit := by
        refine ⟨trivial, fun s' hs' => ⟨fun f _ => ?_, fun _ _ => trivial⟩⟩
        rw [← Option.some.inj hs']
        simp [hdeletable]
      obtain ⟨s, hrun, hs⟩ := (refCounts_safe hbuilt).2 d b hd secondCommit hlegal
      exact ⟨d, b, s, rfl, hrun, hs⟩

end IndexFileDeleter
end LucenePlusPlus
