import LucenePlusPlus.SegmentInfos
import Mathlib.Logic.Function.Basic

/-!
`SegmentInfos`: the two phases of writing a segments file. `prepareCommit` writes the file without its
checksum and leaves it open, `finishCommit` completes and syncs it, `rollbackCommit` gives it up.

Whether an operation of the directory raises is up to the environment: the fields of an outcome say which
of them succeed. The results say whether an exception is raised.
-/

namespace LucenePlusPlus

/-- The names of the files, and for a segments file that is complete the files of the segments it lists. -/
structure Directory where
  fileNames : List String
  infos : String → Option (List String)

namespace Directory

/-- A new file is empty. -/
def createOutput (dir : Directory) (fileName : String) : Directory where
  fileNames := dir.fileNames.insert fileName
  infos := Function.update dir.infos fileName none

def deleteFile (dir : Directory) (fileName : String) (succeeds : Bool) : Directory :=
  if succeeds then { dir with fileNames := dir.fileNames.filter (· ≠ fileName) } else dir

/-- The last bytes of a segments file are written. -/
def complete (dir : Directory) (fileName : String) (files : List String) : Directory :=
  { dir with infos := Function.update dir.infos fileName (some files) }

theorem mem_createOutput {dir : Directory} {f g : String} :
    g ∈ (dir.createOutput f).fileNames ↔ g = f ∨ g ∈ dir.fileNames := List.mem_insert_iff

theorem infos_createOutput {dir : Directory} {f g : String} (h : g ≠ f) :
    (dir.createOutput f).infos g = dir.infos g := Function.update_of_ne h _ _

theorem mem_deleteFile {dir : Directory} {f g : String} {succeeds : Bool} (h : g ≠ f) :
    g ∈ (dir.deleteFile f succeeds).fileNames ↔ g ∈ dir.fileNames := by
  unfold deleteFile
  split
  · simp [h]
  · rfl

theorem infos_deleteFile (dir : Directory) (f : String) (succeeds : Bool) :
    (dir.deleteFile f succeeds).infos = dir.infos := by
  unfold deleteFile
  split <;> rfl

/-- A segments file that is complete, with all the files it references. -/
def HasCommit (dir : Directory) (fileName : String) : Prop :=
  fileName ∈ dir.fileNames ∧ ∃ files, dir.infos fileName = some files ∧ ∀ f ∈ files, f ∈ dir.fileNames

/-- From `dir` to `dir'`, nothing but the file and the generations file is changed. -/
structure OnlyTouches (fileName : String) (dir dir' : Directory) : Prop where
  fileNames : ∀ g, g ≠ fileName → g ∈ dir.fileNames → g ∈ dir'.fileNames
  infos : ∀ g, g ≠ fileName → g ≠ IndexFileNames.segmentsGen → dir'.infos g = dir.infos g

theorem OnlyTouches.refl (fileName : String) (dir : Directory) : OnlyTouches fileName dir dir :=
  ⟨fun _ _ h => h, fun _ _ _ => rfl⟩

theorem OnlyTouches.trans {fileName : String} {dir₁ dir₂ dir₃ : Directory}
    (h₁ : OnlyTouches fileName dir₁ dir₂) (h₂ : OnlyTouches fileName dir₂ dir₃) :
    OnlyTouches fileName dir₁ dir₃ where
  fileNames g hne hg := h₂.fileNames g hne (h₁.fileNames g hne hg)
  infos g hne hgen := (h₂.infos g hne hgen).trans (h₁.infos g hne hgen)

theorem onlyTouches_createOutput (dir : Directory) (f : String) :
    OnlyTouches f dir (dir.createOutput f) :=
  ⟨fun _ _ hg => mem_createOutput.mpr (Or.inr hg), fun _ hne _ => infos_createOutput hne⟩

theorem onlyTouches_createGen (dir : Directory) (f : String) (createGen : Bool) :
    OnlyTouches f dir (if createGen then dir.createOutput IndexFileNames.segmentsGen else dir) := by
  cases createGen with
  | false => exact .refl f dir
  | true => exact ⟨fun _ _ hg => mem_createOutput.mpr (Or.inr hg), fun _ _ h => infos_createOutput h⟩

theorem onlyTouches_deleteFile (dir : Directory) (f : String) (succeeds : Bool) :
    OnlyTouches f dir (dir.deleteFile f succeeds) :=
  ⟨fun _ hne hg => (mem_deleteFile hne).mpr hg, fun _ _ _ => by rw [infos_deleteFile]⟩

theorem onlyTouches_complete (dir : Directory) (f : String) (files : List String) :
    OnlyTouches f dir (dir.complete f files) :=
  ⟨fun _ _ hg => hg, fun _ hne _ => Function.update_of_ne hne _ _⟩

end Directory

namespace SegmentInfos
open IndexFileNames

/-- Which operations of `write` succeed. -/
structure WriteOutcome where
  createOutput : Bool
  write : Bool
  deleteFile : Bool

/-- Which operations of `finishCommit` succeed; `createGen` is about `segments.gen`. -/
structure FinishOutcome where
  finishOutput : Bool
  closeOutput : Bool
  sync : Bool
  deleteFile : Bool
  createGen : Bool

/-- The segments file of the current generation. -/
def segmentsFileName (infos : SegmentInfos) : String :=
  fileNameFromGeneration segments "" infos.generation

def nextGeneration (infos : SegmentInfos) : Int :=
  if infos.generation = -1 then 1 else infos.generation + 1

def getNextSegmentFileName (infos : SegmentInfos) : String :=
  fileNameFromGeneration segments "" infos.nextGeneration

def updateGeneration (infos other : SegmentInfos) : SegmentInfos :=
  { infos with lastGeneration := other.lastGeneration, generation := other.generation }

/-- The generation is advanced before the file is created, and stays advanced. -/
def write (infos : SegmentInfos) (dir : Directory) (out : WriteOutcome) :
    SegmentInfos × Directory × Bool :=
  let segmentFileName := infos.getNextSegmentFileName
  let infos := { infos with generation := infos.nextGeneration }
  if !out.createOutput then (infos, dir, true)
  else
    let dir := dir.createOutput segmentFileName
    if out.write then ({ infos with pendingSegnOutput := true }, dir, false)
    -- try not to leave a truncated file in the index
    else (infos, dir.deleteFile segmentFileName out.deleteFile, true)

def prepareCommit (infos : SegmentInfos) (dir : Directory) (out : WriteOutcome) :
    SegmentInfos × Directory × Bool :=
  if infos.pendingSegnOutput then (infos, dir, true) else infos.write dir out

def rollbackCommit (infos : SegmentInfos) (dir : Directory) (deleteFile : Bool) :
    SegmentInfos × Directory :=
  if infos.pendingSegnOutput then
    ({ infos with pendingSegnOutput := false }, dir.deleteFile infos.segmentsFileName deleteFile)
  else (infos, dir)

/-- A failure to sync is dropped; an exception of the `deleteFile` that follows it is not. Nor is one of
the two operations that finish the output. -/
def finishCommit (infos : SegmentInfos) (dir : Directory) (out : FinishOutcome) :
    SegmentInfos × Directory × Bool :=
  if !infos.pendingSegnOutput then (infos, dir, true)
  else if !(out.finishOutput && out.closeOutput) then
    let (infos, dir) := infos.rollbackCommit dir out.deleteFile
    (infos, dir, true)
  else
    let fileName := infos.segmentsFileName
    let infos := { infos with pendingSegnOutput := false }
    let dir := dir.complete fileName infos.files
    if !out.sync && !out.deleteFile then (infos, dir, true)
    else
      let dir := if out.sync then dir else dir.deleteFile fileName true
      let dir := if out.createGen then dir.createOutput segmentsGen else dir
      ({ infos with lastGeneration := infos.generation }, dir, false)

namespace FinishOutcome

/-- The new segments file is not finished, or not synced. -/
def fails (out : FinishOutcome) : Bool := !(out.finishOutput && out.closeOutput && out.sync)

/-- A failure to sync shows: the output fails before it, or `deleteFile` raises after it. -/
def reported (out : FinishOutcome) : Bool :=
  out.sync || !out.deleteFile || !(out.finishOutput && out.closeOutput)

end FinishOutcome

theorem write_generation (infos : SegmentInfos) (dir : Directory) (out : WriteOutcome) :
    (infos.write dir out).1.generation = infos.nextGeneration := by
  unfold write
  split
  · rfl
  · split <;> rfl

theorem write_files (infos : SegmentInfos) (dir : Directory) (out : WriteOutcome) :
    (infos.write dir out).1.files = infos.files := by
  unfold write
  split
  · rfl
  · split <;> rfl

theorem onlyTouches_write (infos : SegmentInfos) (dir : Directory) (out : WriteOutcome) :
    dir.OnlyTouches infos.getNextSegmentFileName (infos.write dir out).2.1 := by
  unfold write
  split
  · exact .refl _ dir
  · have hcreate := dir.onlyTouches_createOutput infos.getNextSegmentFileName
    split
    · exact hcreate
    · exact hcreate.trans (Directory.onlyTouches_deleteFile _ _ _)

theorem write_prepared {infos : SegmentInfos} {dir : Directory} {out : WriteOutcome}
    (h : (infos.write dir out).2.2 = false) :
    (infos.write dir out).1.pendingSegnOutput = true ∧
      infos.getNextSegmentFileName ∈ (infos.write dir out).2.1.fileNames := by
  unfold write at h ⊢
  split
  · rename_i hcreate
    rw [if_pos hcreate] at h
    cases h
  · rename_i hcreate
    rw [if_neg hcreate] at h
    split
    · exact ⟨rfl, Directory.mem_createOutput.mpr (Or.inl rfl)⟩
    · rename_i hwrite
      rw [if_neg hwrite] at h
      cases h

theorem rollbackCommit_spec (infos : SegmentInfos) (dir : Directory) (deleteFile : Bool) :
    (infos.rollbackCommit dir deleteFile).1.files = infos.files ∧
      (infos.rollbackCommit dir deleteFile).1.lastGeneration = infos.lastGeneration ∧
      dir.OnlyTouches infos.segmentsFileName (infos.rollbackCommit dir deleteFile).2 := by
  unfold rollbackCommit
  split
  · exact ⟨rfl, rfl, dir.onlyTouches_deleteFile _ _⟩
  · exact ⟨rfl, rfl, .refl _ dir⟩

theorem finishCommit_files (infos : SegmentInfos) (dir : Directory) (out : FinishOutcome) :
    (infos.finishCommit dir out).1.files = infos.files := by
  unfold finishCommit
  split
  · rfl
  · split
    · exact (infos.rollbackCommit_spec dir out.deleteFile).1
    · split <;> rfl

theorem onlyTouches_finishCommit (infos : SegmentInfos) (dir : Directory) (out : FinishOutcome) :
    dir.OnlyTouches infos.segmentsFileName (infos.finishCommit dir out).2.1 := by
  unfold finishCommit
  split
  · exact .refl _ dir
  · split
    · exact (infos.rollbackCommit_spec dir out.deleteFile).2.2
    · have hcomplete := dir.onlyTouches_complete infos.segmentsFileName infos.files
      split
      · exact hcomplete
      · have hsync : dir.OnlyTouches infos.segmentsFileName (if out.sync then
            dir.complete infos.segmentsFileName infos.files else
            (dir.complete infos.segmentsFileName infos.files).deleteFile infos.segmentsFileName true) := by
          split
          · exact hcomplete
          · exact hcomplete.trans (Directory.onlyTouches_deleteFile _ _ _)
        exact hsync.trans (Directory.onlyTouches_createGen _ _ _)

theorem finishCommit_lastGeneration_of_raised {infos : SegmentInfos} {dir : Directory}
    {out : FinishOutcome} (h : (infos.finishCommit dir out).2.2 = true) :
    (infos.finishCommit dir out).1.lastGeneration = infos.lastGeneration := by
  unfold finishCommit at h ⊢
  split
  · rfl
  · rename_i hpending
    rw [if_neg hpending] at h
    split
    · exact (infos.rollbackCommit_spec dir out.deleteFile).2.1
    · rename_i houtput
      rw [if_neg houtput] at h
      split
      · rfl
      · rename_i hsync
        rw [if_neg hsync] at h
        cases h

/-- Of a prepared commit, a failure is reported unless the sync fails and the file is then deleted. -/
theorem finishCommit_raised_iff {infos : SegmentInfos} {dir : Directory} {out : FinishOutcome}
    (hpending : infos.pendingSegnOutput = true) :
    (infos.finishCommit dir out).2.2 = true ↔ out.fails = true ∧ out.reported = true := by
  obtain ⟨finishOutput, closeOutput, sync, deleteFile, createGen⟩ := out
  cases finishOutput <;> cases closeOutput <;> cases sync <;> cases deleteFile <;>
    simp [finishCommit, hpending, FinishOutcome.fails, FinishOutcome.reported]

/-- A commit that raises nothing, and of which every failure is reported, has a complete file. -/
theorem finishCommit_complete {infos : SegmentInfos} {dir : Directory} {out : FinishOutcome}
    (hpending : infos.pendingSegnOutput = true) (hreported : out.reported = true)
    (hraised : (infos.finishCommit dir out).2.2 = false) (hne : infos.segmentsFileName ≠ segmentsGen)
    (hmem : infos.segmentsFileName ∈ dir.fileNames) :
    (infos.finishCommit dir out).1 =
        { infos with lastGeneration := infos.generation, pendingSegnOutput := false } ∧
      infos.segmentsFileName ∈ (infos.finishCommit dir out).2.1.fileNames ∧
      (infos.finishCommit dir out).2.1.infos infos.segmentsFileName = some infos.files := by
  have hfails : out.fails = false := by
    by_contra h
    rw [Bool.not_eq_false] at h
    rw [(finishCommit_raised_iff hpending).mpr ⟨h, hreported⟩] at hraised
    cases hraised
  simp only [FinishOutcome.fails, Bool.not_eq_false', Bool.and_eq_true] at hfails
  obtain ⟨⟨hfinish, hclose⟩, hsync⟩ := hfails
  simp only [finishCommit, hpending, hfinish, hclose, hsync, Bool.not_true, Bool.and_self,
    Bool.false_and, Bool.false_eq_true, if_false, if_true, true_and]
  constructor
  · split
    · exact Directory.mem_createOutput.mpr (Or.inr hmem)
    · exact hmem
  · split
    · rw [Directory.infos_createOutput hne]
      exact Function.update_self _ _ _
    · exact Function.update_self _ _ _

end SegmentInfos
end LucenePlusPlus
