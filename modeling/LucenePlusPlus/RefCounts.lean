import LucenePlusPlus.IndexFileDeleter
import Mathlib.Data.Multiset.AddSub

/-!
The counts of the deleter as a multiset of references. `Counted d held` says that the counts are the
multiplicities of `held` and that no file of `held` is deleted or about to be; each primitive operation
on counts adds to or takes from the multiset.
-/

namespace LucenePlusPlus
namespace IndexFileDeleter

/-- The counts are those of the references `held`, and no held file is deleted or about to be. -/
structure Counted (d : IndexFileDeleter) (held : Multiset String) : Prop where
  count_eq : ∀ f, d.count f = held.count f
  count_pos : ∀ f rc, d.refCounts f = some rc → rc.initDone = true → 0 < rc.count
  deletable : ∀ f ∈ d.deletable, f ∉ held
  attempts : ∀ f c, (f, c) ∈ d.attempts → c = 0 ∧ f ∉ held

/-- The file is neither pending deletion nor deleted by the current operation. -/
def Untouched (d : IndexFileDeleter) (f : String) : Prop :=
  f ∉ d.deletable ∧ ∀ c, (f, c) ∉ d.attempts

/-- Files go away only through `Directory::deleteFile`. -/
structure Shrinks (d d' : IndexFileDeleter) : Prop where
  attempts_mono : ∀ fc ∈ d.attempts, fc ∈ d'.attempts
  directory : ∀ f ∈ d.directory, f ∈ d'.directory ∨ ∃ c, (f, c) ∈ d'.attempts

theorem Shrinks.refl (d : IndexFileDeleter) : Shrinks d d := ⟨fun _ h => h, fun _ h => Or.inl h⟩

theorem Shrinks.trans {d₁ d₂ d₃ : IndexFileDeleter} (h₁ : Shrinks d₁ d₂) (h₂ : Shrinks d₂ d₃) :
    Shrinks d₁ d₃ where
  attempts_mono fc h := h₂.attempts_mono fc (h₁.attempts_mono fc h)
  directory f hf := by
    rcases h₁.directory f hf with hf | ⟨c, hc⟩
    · exact h₂.directory f hf
    · exact Or.inr ⟨c, h₂.attempts_mono _ hc⟩

/-- What reference counting leaves alone. -/
structure Bookkeeping (d d' : IndexFileDeleter) : Prop extends Shrinks d d' where
  commits_eq : d'.commits = d.commits
  commitsToDelete_eq : d'.commitsToDelete = d.commitsToDelete
  lastFiles_eq : d'.lastFiles = d.lastFiles
  nextCommit_eq : d'.nextCommit = d.nextCommit

theorem Bookkeeping.refl (d : IndexFileDeleter) : Bookkeeping d d := ⟨.refl d, rfl, rfl, rfl, rfl⟩

theorem Bookkeeping.trans {d₁ d₂ d₃ : IndexFileDeleter} (h₁ : Bookkeeping d₁ d₂)
    (h₂ : Bookkeeping d₂ d₃) : Bookkeeping d₁ d₃ where
  toShrinks := h₁.toShrinks.trans h₂.toShrinks
  commits_eq := h₂.commits_eq.trans h₁.commits_eq
  commitsToDelete_eq := h₂.commitsToDelete_eq.trans h₁.commitsToDelete_eq
  lastFiles_eq := h₂.lastFiles_eq.trans h₁.lastFiles_eq
  nextCommit_eq := h₂.nextCommit_eq.trans h₁.nextCommit_eq

theorem mem_deletable_deleteFile {d : IndexFileDeleter} {f g : String}
    (h : g ∈ (d.deleteFile f).deletable) : g = f ∨ g ∈ d.deletable := by
  simp only [deleteFile] at h
  split at h
  · exact List.mem_insert_iff.mp h
  · exact Or.inr h

theorem mem_attempts_deleteFile {d : IndexFileDeleter} {f g : String} {c : Int}
    (h : (g, c) ∈ (d.deleteFile f).attempts) : (g = f ∧ c = d.count f) ∨ (g, c) ∈ d.attempts := by
  rcases List.mem_cons.mp h with heq | h
  · exact Or.inl (Prod.mk.inj heq)
  · exact Or.inr h

theorem bookkeeping_deleteFile (d : IndexFileDeleter) (f : String) :
    Bookkeeping d (d.deleteFile f) := by
  refine ⟨⟨fun fc h => List.mem_cons_of_mem _ h, fun g hg => ?_⟩, rfl, rfl, rfl, rfl⟩
  rcases eq_or_ne g f with rfl | hne
  · exact Or.inr ⟨d.count g, List.mem_cons_self⟩
  · left
    simp only [deleteFile]
    split
    · exact hg
    · exact List.mem_filter.mpr ⟨hg, by simpa using hne⟩

theorem Counted.notMem_of_count_eq_zero {d : IndexFileDeleter} {held : Multiset String} {f : String}
    (h : Counted d held) (hf : d.count f = 0) : f ∉ held := by
  rw [h.count_eq] at hf
  rw [← Multiset.count_eq_zero]
  exact_mod_cast hf

theorem Counted.deleteFile {d : IndexFileDeleter} {held : Multiset String} {f : String}
    (h : Counted d held) (hf : f ∉ held) : Counted (d.deleteFile f) held where
  count_eq := h.count_eq
  count_pos := h.count_pos
  deletable g hg := by
    rcases mem_deletable_deleteFile hg with rfl | hg
    · exact hf
    · exact h.deletable g hg
  attempts g c hg := by
    rcases mem_attempts_deleteFile hg with ⟨rfl, rfl⟩ | hg
    · rw [h.count_eq, Multiset.count_eq_zero_of_notMem hf]
      exact ⟨rfl, hf⟩
    · exact h.attempts g c hg

theorem Counted.foldl_deleteFile {d : IndexFileDeleter} {held : Multiset String} {files : List String}
    (h : Counted d held) (hfiles : ∀ f ∈ files, f ∉ held) :
    Counted (files.foldl IndexFileDeleter.deleteFile d) held := by
  induction files generalizing d with
  | nil => exact h
  | cons f files ih =>
      exact ih (h.deleteFile (hfiles f List.mem_cons_self))
        fun g hg => hfiles g (List.mem_cons_of_mem _ hg)

theorem bookkeeping_foldl_deleteFile (d : IndexFileDeleter) (files : List String) :
    Bookkeeping d (files.foldl deleteFile d) := by
  induction files generalizing d with
  | nil => exact .refl d
  | cons f files ih => exact (bookkeeping_deleteFile d f).trans (ih _)

theorem untouched_foldl_deleteFile {d : IndexFileDeleter} {files : List String} {g : String}
    (h : d.Untouched g) (hg : g ∉ files) : (files.foldl deleteFile d).Untouched g := by
  induction files generalizing d with
  | nil => exact h
  | cons f files ih =>
      rw [List.mem_cons, not_or] at hg
      refine ih ⟨fun hmem => ?_, fun c hc => ?_⟩ hg.2
      · rcases mem_deletable_deleteFile hmem with heq | hmem
        · exact hg.1 heq
        · exact h.1 hmem
      · rcases mem_attempts_deleteFile hc with ⟨heq, -⟩ | hc
        · exact hg.1 heq
        · exact h.2 c hc

theorem bookkeeping_clear_deletable (d : IndexFileDeleter) :
    Bookkeeping d { d with deletable := [] } :=
  ⟨⟨fun _ h => h, fun _ h => Or.inl h⟩, rfl, rfl, rfl, rfl⟩

theorem bookkeeping_deletePendingFiles (d : IndexFileDeleter) :
    Bookkeeping d d.deletePendingFiles :=
  (bookkeeping_clear_deletable d).trans (bookkeeping_foldl_deleteFile _ _)

theorem Counted.deletePendingFiles {d : IndexFileDeleter} {held : Multiset String}
    (h : Counted d held) : Counted d.deletePendingFiles held := by
  refine Counted.foldl_deleteFile ⟨h.count_eq, h.count_pos, fun f hf => ?_, h.attempts⟩ h.deletable
  simp at hf

theorem Untouched.deletePendingFiles {d : IndexFileDeleter} {g : String} (h : d.Untouched g) :
    d.deletePendingFiles.Untouched g := by
  refine untouched_foldl_deleteFile ⟨fun hf => ?_, h.2⟩ h.1
  simp at hf

theorem Counted.congr {d d' : IndexFileDeleter} {held : Multiset String} (h : Counted d held)
    (hrefs : d'.refCounts = d.refCounts) (hdeletable : d'.deletable = d.deletable)
    (hattempts : d'.attempts = d.attempts) : Counted d' held where
  count_eq f := by rw [count, hrefs]; exact h.count_eq f
  count_pos f rc := by rw [hrefs]; exact h.count_pos f rc
  deletable := by rw [hdeletable]; exact h.deletable
  attempts := by rw [hattempts]; exact h.attempts

/-! ### Counting references -/

theorem count_setRefCount (d : IndexFileDeleter) (f g : String) (rc : Option RefCount) :
    (d.setRefCount f rc).count g = if g = f then (rc.getD .new).count else d.count g := by
  unfold count setRefCount
  rcases eq_or_ne g f with rfl | hne
  · cases rc <;> simp [RefCount.new]
  · simp [hne]

theorem getRefCount_count (d : IndexFileDeleter) (f : String) : (d.getRefCount f).count = d.count f := by
  unfold getRefCount count
  cases d.refCounts f <;> rfl

theorem bookkeeping_setRefCount (d : IndexFileDeleter) (f : String) (rc : Option RefCount) :
    Bookkeeping d (d.setRefCount f rc) :=
  ⟨⟨fun _ h => h, fun _ h => Or.inl h⟩, rfl, rfl, rfl, rfl⟩

theorem Counted.incRef {d : IndexFileDeleter} {held : Multiset String} {f : String}
    (h : Counted d held) (hf : d.Untouched f) :
    ∃ d', d.incRef f = some d' ∧ Counted d' (f ::ₘ held) ∧ Bookkeeping d d' ∧
      ∀ g, d.Untouched g → d'.Untouched g := by
  obtain ⟨rc, hrc, hcount⟩ : ∃ rc, (d.getRefCount f).incRef = some rc ∧
      rc = ⟨true, d.count f + 1⟩ := by
    rw [← getRefCount_count]
    unfold getRefCount RefCount.incRef
    cases hf : d.refCounts f with
    | none => exact ⟨_, rfl, rfl⟩
    | some rc =>
        simp only [Option.getD_some]
        split
        · rename_i hinit
          rw [if_pos (h.count_pos f rc hf hinit)]
          exact ⟨_, rfl, by rw [← hinit]⟩
        · exact ⟨_, rfl, rfl⟩
  subst hcount
  refine ⟨_, by rw [IndexFileDeleter.incRef, hrc, Option.map_some], ⟨fun g => ?_, fun g rc hg hinit => ?_,
    fun g hg => ?_, fun g c hg => ?_⟩, bookkeeping_setRefCount d f _, fun g hg => hg⟩
  · rw [count_setRefCount]
    split
    · rename_i heq
      rw [heq, Multiset.count_cons_self, h.count_eq f]
      rfl
    · rename_i hne
      rw [Multiset.count_cons_of_ne hne, h.count_eq g]
  · rcases eq_or_ne g f with rfl | hne
    · simp only [setRefCount, Function.update_self, Option.some.injEq] at hg
      rw [← hg, h.count_eq]
      simp only
      omega
    · simp only [setRefCount, Function.update_of_ne hne] at hg
      exact h.count_pos g rc hg hinit
  · rw [Multiset.mem_cons, not_or]
    exact ⟨fun heq => hf.1 (heq ▸ hg), h.deletable g hg⟩
  · rw [Multiset.mem_cons, not_or]
    exact ⟨(h.attempts g c hg).1, fun heq => hf.2 c (heq ▸ hg), (h.attempts g c hg).2⟩

theorem Counted.incRefs {d : IndexFileDeleter} {held : Multiset String} {files : List String}
    (h : Counted d held) (hfiles : ∀ f ∈ files, d.Untouched f) :
    ∃ d', d.incRefs files = some d' ∧ Counted d' (files + held) ∧ Bookkeeping d d' ∧
      ∀ g, d.Untouched g → d'.Untouched g := by
  induction files generalizing d held with
  | nil => exact ⟨d, rfl, by simpa using h, .refl d, fun _ hg => hg⟩
  | cons f files ih =>
      obtain ⟨d₁, hinc, h₁, hbook₁, hun₁⟩ := h.incRef (hfiles f List.mem_cons_self)
      obtain ⟨d₂, hincs, h₂, hbook₂, hun₂⟩ :=
        ih h₁ fun g hg => hun₁ g (hfiles g (List.mem_cons_of_mem _ hg))
      refine ⟨d₂, ?_, ?_, hbook₁.trans hbook₂, fun g hg => hun₂ g (hun₁ g hg)⟩
      · rw [IndexFileDeleter.incRefs, List.foldlM_cons, hinc]
        exact hincs
      · rwa [← Multiset.cons_coe, Multiset.cons_add, ← Multiset.add_cons]

theorem Counted.setRefCount {d : IndexFileDeleter} {held : Multiset String} {f : String}
    {rc : Option RefCount} (h : Counted d held)
    (hcount : (rc.getD .new).count = (held.erase f).count f)
    (hpos : ∀ rc', rc = some rc' → 0 < rc'.count) :
    Counted (d.setRefCount f rc) (held.erase f) where
  count_eq g := by
    rw [count_setRefCount]
    split
    · rename_i heq
      rw [heq, hcount]
    · rename_i hne
      rw [Multiset.count_erase_of_ne hne, h.count_eq g]
  count_pos g rc' hg hinit := by
    rcases eq_or_ne g f with rfl | hne
    · rw [IndexFileDeleter.setRefCount] at hg
      exact hpos rc' ((Function.update_self g rc d.refCounts).symm.trans hg)
    · simp only [IndexFileDeleter.setRefCount, Function.update_of_ne hne] at hg
      exact h.count_pos g rc' hg hinit
  deletable g hg hmem := h.deletable g hg (Multiset.mem_of_mem_erase hmem)
  attempts g c hg :=
    ⟨(h.attempts g c hg).1, fun hmem => (h.attempts g c hg).2 (Multiset.mem_of_mem_erase hmem)⟩

theorem setRefCount_deleteFile {d : IndexFileDeleter} {f : String} {rc : RefCount}
    (h : rc.count = 0) :
    ((d.setRefCount f (some rc)).deleteFile f).setRefCount f none =
      (d.setRefCount f none).deleteFile f := by
  have hcount : (d.setRefCount f (some rc)).count f = (d.setRefCount f none).count f := by
    rw [count_setRefCount, count_setRefCount, if_pos rfl, if_pos rfl]
    exact h
  simp only [deleteFile, hcount]
  simp only [setRefCount, Function.update_idem]
  rfl

theorem Counted.decRef {d : IndexFileDeleter} {held : Multiset String} {f : String}
    (h : Counted d held) (hf : f ∈ held) :
    ∃ d', d.decRef f = some d' ∧ Counted d' (held.erase f) ∧ Bookkeeping d d' := by
  have hheld : 0 < held.count f := Multiset.count_pos.mpr hf
  have hcount : (d.getRefCount f).count = held.count f := by rw [getRefCount_count, h.count_eq]
  have hdec : (d.getRefCount f).decRef =
      some { d.getRefCount f with count := (d.getRefCount f).count - 1 } :=
    if_pos (by omega)
  have herase := Multiset.count_erase_self f held
  unfold IndexFileDeleter.decRef
  rw [hdec, Option.map_some]
  simp only
  split
  · rename_i hzero
    rw [setRefCount_deleteFile hzero]
    have hnone : Counted (d.setRefCount f none) (held.erase f) := by
      refine h.setRefCount ?_ fun rc' h => by cases h
      rw [herase]
      simp only [Option.getD_none, RefCount.new]
      omega
    refine ⟨_, rfl, hnone.deleteFile ?_,
      (bookkeeping_setRefCount d f none).trans (bookkeeping_deleteFile _ f)⟩
    rw [← Multiset.count_eq_zero, herase]
    omega
  · rename_i hzero
    refine ⟨_, rfl, h.setRefCount ?_ fun rc' heq => ?_, bookkeeping_setRefCount d f _⟩
    · rw [herase, Option.getD_some]
      simp only
      omega
    · rw [← Option.some.inj heq]
      simp only
      omega

theorem Counted.decRefs {d : IndexFileDeleter} {held : Multiset String} {files : List String}
    (h : Counted d held) (hfiles : (files : Multiset String) ≤ held) :
    ∃ d', d.decRefs files = some d' ∧ Counted d' (held - files) ∧ Bookkeeping d d' := by
  induction files generalizing d held with
  | nil => exact ⟨d, rfl, by simpa using h, .refl d⟩
  | cons f files ih =>
      rw [← Multiset.cons_coe] at hfiles
      have hf : f ∈ held := Multiset.mem_of_le hfiles (Multiset.mem_cons_self _ _)
      obtain ⟨d₁, hdec, h₁, hbook₁⟩ := h.decRef hf
      have hle : (files : Multiset String) ≤ held.erase f := by
        rw [← Multiset.erase_cons_head f files]
        exact Multiset.erase_le_erase f hfiles
      obtain ⟨d₂, hdecs, h₂, hbook₂⟩ := ih h₁ hle
      refine ⟨d₂, ?_, ?_, hbook₁.trans hbook₂⟩
      · rw [IndexFileDeleter.decRefs, List.foldlM_cons, hdec]
        exact hdecs
      · rwa [← Multiset.cons_coe, Multiset.sub_cons]

theorem Counted.foldlM_decRefs {d : IndexFileDeleter} {held : Multiset String}
    {lists : List (List String)} (h : Counted d held)
    (hfiles : (lists.flatten : Multiset String) ≤ held) :
    ∃ d', lists.foldlM IndexFileDeleter.decRefs d = some d' ∧
      Counted d' (held - lists.flatten) ∧ Bookkeeping d d' := by
  induction lists generalizing d held with
  | nil => exact ⟨d, rfl, by simpa using h, .refl d⟩
  | cons files lists ih =>
      rw [List.flatten_cons, ← Multiset.coe_add] at hfiles
      obtain ⟨d₁, hdec, h₁, hbook₁⟩ := h.decRefs ((Multiset.le_add_right _ _).trans hfiles)
      obtain ⟨d₂, hdecs, h₂, hbook₂⟩ := ih h₁ (le_tsub_of_add_le_left hfiles)
      refine ⟨d₂, ?_, ?_, hbook₁.trans hbook₂⟩
      · rw [List.foldlM_cons, hdec]
        exact hdecs
      · rwa [List.flatten_cons, ← Multiset.coe_add, Multiset.sub_add_eq_sub_sub]

/-- Nothing refers to the file, and it is neither pending deletion nor deleted by the current operation:
the deleter does not know it, or has entered it without a reference. -/
structure Foreign (d : IndexFileDeleter) (g : String) : Prop where
  count_eq : d.count g = 0
  untouched : d.Untouched g

theorem Foreign.deleteFile {d : IndexFileDeleter} {f g : String} (h : d.Foreign g) (hne : g ≠ f) :
    (d.deleteFile f).Foreign g :=
  ⟨h.count_eq, untouched_foldl_deleteFile h.untouched (by simpa using hne : g ∉ [f])⟩

theorem Foreign.foldl_deleteFile {d : IndexFileDeleter} {files : List String} {g : String}
    (h : d.Foreign g) (hg : g ∉ files) : (files.foldl IndexFileDeleter.deleteFile d).Foreign g := by
  induction files generalizing d with
  | nil => exact h
  | cons f files ih =>
      rw [List.mem_cons, not_or] at hg
      exact ih (h.deleteFile hg.1) hg.2

theorem Foreign.deletePendingFiles {d : IndexFileDeleter} {g : String} (h : d.Foreign g) :
    d.deletePendingFiles.Foreign g :=
  have hclear : Foreign { d with deletable := [] } g := ⟨h.count_eq, nofun, h.untouched.2⟩
  hclear.foldl_deleteFile h.untouched.1

theorem Foreign.setRefCount {d : IndexFileDeleter} {f g : String} (h : d.Foreign g) (hne : g ≠ f)
    (rc : Option RefCount) : (d.setRefCount f rc).Foreign g :=
  ⟨by rw [count_setRefCount, if_neg hne, h.count_eq], h.untouched⟩

theorem Foreign.incRefs {d d' : IndexFileDeleter} {files : List String} {g : String}
    (h : d.Foreign g) (hinc : d.incRefs files = some d') (hg : g ∉ files) : d'.Foreign g := by
  induction files generalizing d with
  | nil => exact Option.some.inj hinc ▸ h
  | cons f files ih =>
      rw [List.mem_cons, not_or] at hg
      rw [IndexFileDeleter.incRefs, List.foldlM_cons, Option.bind_eq_bind,
        Option.bind_eq_some_iff] at hinc
      obtain ⟨d₁, hinc₁, hrest⟩ := hinc
      obtain ⟨rc, -, rfl⟩ := Option.map_eq_some_iff.mp hinc₁
      exact ih (h.setRefCount hg.1 _) hrest hg.2

theorem Foreign.decRef {d d' : IndexFileDeleter} {f g : String} (h : d.Foreign g)
    (hdec : d.decRef f = some d') (hne : g ≠ f) : d'.Foreign g := by
  obtain ⟨rc, -, rfl⟩ := Option.map_eq_some_iff.mp hdec
  simp only
  split
  · exact ((h.setRefCount hne _).deleteFile hne).setRefCount hne _
  · exact h.setRefCount hne _

theorem Foreign.decRefs {d d' : IndexFileDeleter} {files : List String} {g : String}
    (h : d.Foreign g) (hdec : d.decRefs files = some d') (hg : g ∉ files) : d'.Foreign g := by
  induction files generalizing d with
  | nil => exact Option.some.inj hdec ▸ h
  | cons f files ih =>
      rw [List.mem_cons, not_or] at hg
      rw [IndexFileDeleter.decRefs, List.foldlM_cons, Option.bind_eq_bind,
        Option.bind_eq_some_iff] at hdec
      obtain ⟨d₁, hdec₁, hrest⟩ := hdec
      exact ih (h.decRef hdec₁ hg.1) hrest hg.2

theorem Foreign.foldlM_decRefs {d d' : IndexFileDeleter} {lists : List (List String)} {g : String}
    (h : d.Foreign g) (hdec : lists.foldlM IndexFileDeleter.decRefs d = some d')
    (hg : g ∉ lists.flatten) : d'.Foreign g := by
  induction lists generalizing d with
  | nil => exact Option.some.inj hdec ▸ h
  | cons files lists ih =>
      rw [List.flatten_cons, List.mem_append, not_or] at hg
      rw [List.foldlM_cons, Option.bind_eq_bind, Option.bind_eq_some_iff] at hdec
      obtain ⟨d₁, hdec₁, hrest⟩ := hdec
      exact ih (h.decRefs hdec₁ hg.1) hrest hg.2

theorem Counted.notMem_of_foreign {d : IndexFileDeleter} {held : Multiset String} {g : String}
    (h : Counted d held) (hg : d.Foreign g) : g ∉ held :=
  h.notMem_of_count_eq_zero hg.count_eq

end IndexFileDeleter
end LucenePlusPlus
