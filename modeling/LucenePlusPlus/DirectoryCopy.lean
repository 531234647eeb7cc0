import LucenePlusPlus.IndexFileNames
import LucenePlusPlus.SimpleFSIndexOutput

/-!
`Directory::copy` to a directory of files. A file is written to a `SimpleFSIndexOutput`, whose failures are not
reported, and what closing it raises is dropped.
-/

namespace LucenePlusPlus
open Buffering BufferedIndexOutput SimpleFSIndexOutput

namespace Directory

/-- Reading raises an exception behind the first `readable` bytes. -/
structure SourceFile where
  name : String
  bytes : List UInt8
  readable : Nat

section Model
variable (failures : Failures)

/-- The loop of `copy`. Each round copies a byte at least. -/
def copyBytes (source : SourceFile) :
    Nat → Nat → BufferedIndexOutput OutputFile → Bool × BufferedIndexOutput OutputFile
  | 0, _, os => (false, os)
  | rounds + 1, readCount, os =>
      if readCount < source.bytes.length then
        let toRead :=
          if readCount + BUFFER_SIZE > source.bytes.length then source.bytes.length - readCount else BUFFER_SIZE
        if source.readable < readCount + toRead then (true, os)
        else
          copyBytes source rounds (readCount + toRead)
            (writeBytes (flushBuffer failures) os ((source.bytes.drop readCount).take toRead))
      else (false, os)

/-- Whether an exception is raised, and the file that is left when the output is closed. -/
def copyFile (memory : Fin BUFFER_SIZE → UInt8) (source : SourceFile) : Bool × OutputFile :=
  let (raised, os) := copyBytes failures source (source.bytes.length + 1) 0 (.new memory (.new [] true))
  (raised, (BufferedIndexOutput.close (flushBuffer failures) os).file)

end Model

/-- The files by name. -/
abbrev Files := String → Option (List UInt8)

/-- `failures` are those of the stream of the file with this name. -/
def copy (memory : Fin BUFFER_SIZE → UInt8) (failures : String → Failures) :
    List SourceFile → Files → Bool × Files
  | [], dest => (false, dest)
  | source :: files, dest =>
      if !IndexFileNameFilter.accept source.name then copy memory failures files dest
      else
        let (raised, file) := copyFile (failures source.name) memory source
        let dest := Function.update dest source.name (some file.disk.content)
        if raised then (true, dest) else copy memory failures files dest

/-- An exception is raised, or each index file is there with its bytes, whatever call of a stream fails. -/
def CopiesOrRaises (files : List SourceFile) : Prop :=
  ∀ memory failures dest, (copy memory failures files dest).1 = true ∨
    ∀ source ∈ files, IndexFileNameFilter.accept source.name = true →
      (copy memory failures files dest).2 source.name = some source.bytes

section CopyFile
variable {failures : Failures} {memory : Fin BUFFER_SIZE → UInt8} {source : SourceFile}

theorem copyBytes_raises {rounds readCount : Nat} (os : BufferedIndexOutput OutputFile)
    (hrounds : source.bytes.length - readCount ≤ rounds) (hle : readCount ≤ source.bytes.length) :
    (copyBytes failures source rounds readCount os).1 = true ↔
      readCount < source.bytes.length ∧ source.readable < source.bytes.length := by
  induction rounds generalizing readCount os with
  | zero =>
      rw [copyBytes]
      exact ⟨fun h => (nomatch h), fun h => absurd h.1 (by omega)⟩
  | succ rounds ih =>
      have hpos := BUFFER_SIZE_pos
      rw [copyBytes]
      dsimp only
      generalize hread : (if readCount + BUFFER_SIZE > source.bytes.length then source.bytes.length - readCount
        else BUFFER_SIZE) = toRead
      by_cases hmore : readCount < source.bytes.length
      · have htoRead : 0 < toRead ∧ readCount + toRead ≤ source.bytes.length := by
          split_ifs at hread <;> omega
        rw [if_pos hmore]
        by_cases hraise : source.readable < readCount + toRead
        · rw [if_pos hraise]
          exact ⟨fun _ => ⟨hmore, by omega⟩, fun _ => rfl⟩
        · rw [if_neg hraise, ih _ (by omega) htoRead.2]
          omega
      · rw [if_neg hmore]
        exact ⟨fun h => (nomatch h), fun h => absurd h.1 hmore⟩

theorem copyFile_raises : (copyFile failures memory source).1 = true ↔ source.readable < source.bytes.length := by
  rw [copyFile]
  dsimp only
  rw [copyBytes_raises _ (by omega) (Nat.zero_le _)]
  omega

theorem wrote_copyBytes {rounds readCount : Nat} {os : BufferedIndexOutput OutputFile} (h : os.WellFormed) :
    ∃ b, Wrote (flushBuffer failures) os b (copyBytes failures source rounds readCount os).2 := by
  induction rounds generalizing readCount os with
  | zero => exact ⟨[], h.refl⟩
  | succ rounds ih =>
      rw [copyBytes]
      dsimp only
      by_cases hmore : readCount < source.bytes.length
      · rw [if_pos hmore]
        generalize (if readCount + BUFFER_SIZE > source.bytes.length then source.bytes.length - readCount
          else BUFFER_SIZE) = toRead
        by_cases hraise : source.readable < readCount + toRead
        · rw [if_pos hraise]
          exact ⟨[], h.refl⟩
        · rw [if_neg hraise]
          have hwrote : Wrote (flushBuffer failures) os ((source.bytes.drop readCount).take toRead) _ :=
            wrote_writeBytes h _
          obtain ⟨b, hrest⟩ := @ih (readCount + toRead) _ hwrote.toWellFormed
          exact ⟨_, hwrote.trans hrest⟩
      · rw [if_neg hmore]
        exact ⟨[], h.refl⟩

theorem preserved_copyFile {R : OutputFile → Prop}
    (hflush : ∀ {pending file}, R file → R (flushBuffer failures pending file)) (hnew : R (.new [] true)) :
    R (copyFile failures memory source).2 := by
  obtain ⟨b, hwrote⟩ := @wrote_copyBytes failures source (source.bytes.length + 1) 0
    (.new memory (.new [] true)) (wellFormed_new memory _)
  have hclose : Wrote (flushBuffer failures) _ [] _ := wrote_close hwrote.toWellFormed
  have hmoves := (hwrote.trans hclose).moves
  exact hmoves.preserves (R := fun (_ : List UInt8) _ file => R file) List.append_nil
    (fun a b b' => (List.append_assoc a b b').symm) (fun _ hR => hR) (fun hR => hflush hR) (a := []) hnew

theorem content_copyFile_of_failing : (copyFile (fun _ => some 0) memory source).2.disk.content = [] := by
  refine preserved_copyFile (R := fun file => file.disk.content = []) ?_ rfl
  intro pending file hfile
  rcases flushBuffer_cases (fun _ => some 0) pending file with
    ⟨-, heq⟩ | ⟨-, reached, calls, ⟨n, hzero⟩, heq⟩ | ⟨-, hnone, -⟩
  · rw [heq]
    exact hfile
  · cases hzero
    rw [heq, OutputFile.fail, List.take_zero, DirectFile.write_nil]
    exact hfile
  · cases hnone

theorem content_copyFile_of_empty (h : source.bytes = []) : (copyFile failures memory source).2.disk.content = [] := by
  have hcopy : copyFile failures memory source =
      (false, flushBuffer failures [] (.new [] true)) := by
    rw [copyFile, h, List.length_nil, copyBytes, h]
    rfl
  rw [hcopy]
  rcases flushBuffer_cases failures [] (.new [] true) with ⟨-, heq⟩ | ⟨-, reached, calls, -, heq⟩ | ⟨-, -, heq⟩
  · rw [heq]
    rfl
  · rw [heq, OutputFile.fail, OutputFile.new, List.append_nil, List.take_nil, DirectFile.write_nil]
  · rw [heq, OutputFile.new, List.append_nil, DirectFile.write_nil]

end CopyFile

section Copy
variable {memory : Fin BUFFER_SIZE → UInt8} {failures : String → Failures} {files : List SourceFile} {dest : Files}

/-- The index files among them. -/
def accepted (files : List SourceFile) : List SourceFile :=
  files.filter fun source => IndexFileNameFilter.accept source.name

theorem copy_of_not_accept {source : SourceFile} (h : ¬ IndexFileNameFilter.accept source.name = true) :
    copy memory failures (source :: files) dest = copy memory failures files dest ∧
      accepted (source :: files) = accepted files := by
  refine ⟨?_, List.filter_cons_of_neg h⟩
  rw [copy, if_pos (by simpa using h)]

theorem copy_of_accept {source : SourceFile} (h : IndexFileNameFilter.accept source.name = true) :
    copy memory failures (source :: files) dest =
        (if (copyFile (failures source.name) memory source).1 then
          (true, Function.update dest source.name
            (some (copyFile (failures source.name) memory source).2.disk.content))
        else copy memory failures files (Function.update dest source.name
          (some (copyFile (failures source.name) memory source).2.disk.content))) ∧
      accepted (source :: files) = source :: accepted files := by
  refine ⟨?_, List.filter_cons_of_pos h⟩
  rw [copy, if_neg (by simp [h])]

theorem copy_raises : (copy memory failures files dest).1 = true ↔
    ∃ source ∈ accepted files, source.readable < source.bytes.length := by
  induction files generalizing dest with
  | nil => simp [copy, accepted]
  | cons source files ih =>
      by_cases haccept : IndexFileNameFilter.accept source.name = true
      · obtain ⟨hcopy, haccepted⟩ := @copy_of_accept memory failures files dest source haccept
        have hraises := @copyFile_raises (failures source.name) memory source
        rw [hcopy, haccepted, List.exists_mem_cons_iff]
        split_ifs with hraised
        · exact ⟨fun _ => .inl (hraises.mp hraised), fun _ => rfl⟩
        · rw [ih]
          exact ⟨.inr, fun h => h.resolve_left fun hlt => hraised (hraises.mpr hlt)⟩
      · obtain ⟨hcopy, haccepted⟩ := @copy_of_not_accept memory failures files dest source haccept
        rw [hcopy, haccepted]
        exact ih

theorem copy_dest_of_empty {name : String} (hraised : (copy memory failures files dest).1 = false)
    (hempty : ∀ source ∈ accepted files, (copyFile (failures source.name) memory source).2.disk.content = [])
    (hname : (∃ source ∈ accepted files, source.name = name) ∨ dest name = some []) :
    (copy memory failures files dest).2 name = some [] := by
  induction files generalizing dest with
  | nil => exact hname.resolve_left fun ⟨_, h, _⟩ => nomatch h
  | cons source files ih =>
      by_cases haccept : IndexFileNameFilter.accept source.name = true
      · obtain ⟨hcopy, haccepted⟩ := @copy_of_accept memory failures files dest source haccept
        rw [haccepted] at hempty hname
        obtain ⟨hsource, hfiles⟩ := List.forall_mem_cons.mp hempty
        rw [hcopy] at hraised ⊢
        split_ifs at hraised ⊢ with hfails
        refine ih hraised hfiles ?_
        by_cases heq : name = source.name
        · right
          rw [heq, Function.update_self, hsource]
        · rw [Function.update_of_ne heq]
          rw [List.exists_mem_cons_iff] at hname
          exact hname.imp (fun h => h.resolve_left fun h => heq h.symm) id
      · obtain ⟨hcopy, haccepted⟩ := @copy_of_not_accept memory failures files dest source haccept
        rw [hcopy] at hraised ⊢
        rw [haccepted] at hempty hname
        exact ih hraised hempty hname

theorem not_copiesOrRaises (hread : ∀ source ∈ accepted files, source.bytes.length ≤ source.readable)
    {source : SourceFile} (hmem : source ∈ accepted files) (hbytes : source.bytes ≠ []) : ¬ CopiesOrRaises files := by
  intro hcopies
  have hraised : (copy (fun _ => 0) (fun _ _ => some 0) files fun _ => none).1 = false := by
    rw [← Bool.not_eq_true, copy_raises]
    rintro ⟨source, hmem, hlt⟩
    exact absurd (hread source hmem) (by omega)
  have hempty := copy_dest_of_empty hraised (fun _ _ => content_copyFile_of_failing) (.inl ⟨source, hmem, rfl⟩)
  obtain ⟨hfiles, haccept⟩ := List.mem_filter.mp hmem
  rcases hcopies (fun _ => 0) (fun _ _ => some 0) fun _ => none with htrue | hall
  · exact absurd (hraised.symm.trans htrue) (by decide)
  · exact hbytes (Option.some.inj ((hall source hfiles haccept).symm.trans hempty))

theorem copiesOrRaises_iff (files : List SourceFile) : CopiesOrRaises files ↔
    (∃ source ∈ accepted files, source.readable < source.bytes.length) ∨
      ∀ source ∈ accepted files, source.bytes = [] := by
  constructor
  · intro hcopies
    by_contra hnot
    rw [not_or] at hnot
    obtain ⟨hread, hnonempty⟩ := hnot
    push Not at hread hnonempty
    obtain ⟨source, hmem, hbytes⟩ := hnonempty
    exact not_copiesOrRaises hread hmem hbytes hcopies
  · intro h memory failures dest
    rcases h with hread | hnil
    · exact .inl (copy_raises.mpr hread)
    · cases hraised : (copy memory failures files dest).1 with
      | true => exact .inl rfl
      | false =>
          refine .inr fun source hmem haccept => ?_
          have hsource : source ∈ accepted files := List.mem_filter.mpr ⟨hmem, haccept⟩
          rw [hnil source hsource]
          exact copy_dest_of_empty hraised (fun source hmem => content_copyFile_of_empty (hnil source hmem))
            (.inl ⟨source, hsource, rfl⟩)

end Copy

/-- When outputs report what they lose, and when copying does. -/
theorem reports_and_copies_iff (ops : List FileOp) (files : List SourceFile) :
    (Reports ops ↔ SeeksAfterWrites ops) ∧
      (CopiesOrRaises files ↔ (∃ source ∈ accepted files, source.readable < source.bytes.length) ∨
        ∀ source ∈ accepted files, source.bytes = []) :=
  ⟨reports_iff ops, copiesOrRaises_iff files⟩

/-- One byte is written and the output closed; one file of one byte is copied. -/
theorem one_byte_is_lost : ¬ Reports [.writeByte 0x41] ∧ ¬ CopiesOrRaises [⟨"segments.gen", [0x41], 1⟩] := by
  refine ⟨@not_reports [] [] (.writeByte 0x41) (by decide) (fun _ hmem => nomatch hmem), ?_⟩
  refine @not_copiesOrRaises _ (fun source hmem => ?_) ⟨"segments.gen", [0x41], 1⟩ ?_ (by decide)
  · obtain rfl := List.mem_singleton.mp (List.mem_filter.mp hmem).1
    exact le_rfl
  · exact List.mem_filter.mpr ⟨List.mem_singleton_self _, by decide⟩

end Directory

end LucenePlusPlus
