import LucenePlusPlus.RAMInputStream
import LucenePlusPlus.Runs

/-!
RAM files are arrays of bytes: what streams read of a file is what was written to it, up to its length, as long as
their calls are safe.
-/

namespace LucenePlusPlus
open RAM ByteCursor

namespace RAMOutputStream
variable {memory : Nat → Buffer}

def written (ops : List WriteOp) : Written := ops.foldl Written.step ⟨[], 0, 0⟩

/-- Every operation is legal where it is made. -/
def LegalWrites (ops : List WriteOp) : Prop :=
  Runs.Legal (fun w op => some (Written.step w op)) Written.Legal ⟨[], 0, 0⟩ ops

theorem new_represents : (new .empty).Represents ⟨[], 0, 0⟩ :=
  ⟨nofun, rfl, rfl, MAX_LENGTH_pos, ⟨rfl, rfl, rfl, rfl, rfl⟩⟩

theorem run_represents {out : RAMOutputStream} {w : Written} {ops : List WriteOp} (h : out.Represents w)
    (hlegal : Runs.Legal (fun w op => some (Written.step w op)) Written.Legal w ops) :
    ∃ out', Runs.run (step memory) out ops = some out' ∧ out'.Represents (ops.foldl Written.step w) := by
  induction ops generalizing out w with
  | nil => exact ⟨out, rfl, h⟩
  | cons op ops ih =>
      obtain ⟨hop, hrest⟩ := hlegal
      obtain ⟨out₁, hstep, h₁⟩ := step_spec h hop
      obtain ⟨out', hrun, h'⟩ := ih h₁ (hrest _ rfl)
      exact ⟨out', Runs.run_cons_eq_some.mpr ⟨out₁, hstep, hrun⟩, h'⟩

end RAMOutputStream

open RAMOutputStream

/-- What a file holds up to its length. -/
def RAMOutputStream.Written.content (w : Written) : List UInt8 := w.bytes.take w.length

theorem RAMOutputStream.Represents.content {out : RAMOutputStream} {w : Written} (h : out.Represents w) :
    out.file.Holds w.content ∧ out.file.length = w.content.length := by
  have hlength : w.content.length = w.length := by
    rw [Written.content, List.length_take, h.length_bytes]
    omega
  refine ⟨fun i hi => ?_, by rw [hlength, h.length_eq]⟩
  rw [hlength] at hi
  rw [Written.content, List.getElem?_take_of_lt hi, h.holds i]
  rw [h.length_bytes]
  omega

theorem RAMInputStream.new_reads {file : RAMFile} {bytes : List UInt8} (hholds : file.Holds bytes)
    (hlength : file.length = bytes.length) (hbounded : bytes.length < MAX_LENGTH) :
    ∃ s, RAMInputStream.new file = .ok s ∧ s.Reads bytes 0 := by
  have hsmall : file.length / BUFFER_SIZE < 0x7fffffff := by
    rw [hlength]
    unfold MAX_LENGTH at hbounded
    unfold BUFFER_SIZE at *
    omega
  rw [RAMInputStream.new, if_neg (by omega)]
  exact ⟨_, rfl, hholds, hlength, ⟨rfl, rfl, Or.inl ⟨rfl, rfl, rfl⟩⟩⟩

/-- After any legal writes, streams are opened on the file, and each is a cursor over what it holds: a read gives
the bytes last written, or, when it does not fit, raises an end of file. -/
theorem streams_read_back (memory : Nat → Buffer) (writes : List WriteOp) (reads : List (Nat × Op))
    (hwrites : LegalWrites writes) :
    ∃ out s, Runs.run (RAMOutputStream.step memory) (.new .empty) writes = some out ∧
      RAMInputStream.new out.file = .ok s ∧
      (Traces.Legal (Traces.familyStep RAMInputStream.step) (Traces.familyLegal RAMInputStream.Safe)
          (fun _ => s) reads →
        Traces.Allows (Traces.familySpec (Step (written writes).content)) (fun _ => 0) reads
          (Traces.run (Traces.familyStep RAMInputStream.step) (fun _ => s) reads).1) := by
  obtain ⟨out, hrun, hrepresents⟩ := run_represents new_represents hwrites
  obtain ⟨hholds, hlength⟩ := hrepresents.content
  have hbounded : (written writes).content.length < MAX_LENGTH := by
    refine lt_of_le_of_lt ?_ hrepresents.bounded
    rw [Written.content, List.length_take]
    exact min_le_right _ _
  obtain ⟨s, hnew, hreads⟩ := RAMInputStream.new_reads hholds hlength hbounded
  refine ⟨out, s, hrun, hnew, fun hlegal => ?_⟩
  exact (RAMInputStream.simulates (written writes).content).family.allows (fun _ => hreads) hlegal

theorem streams_read_back_two_bytes :
    ∃ out s, Runs.run (RAMOutputStream.step fun _ _ => 0) (.new .empty) [.writeBytes [1, 2], .flush] = some out ∧
      RAMInputStream.new out.file = .ok s ∧
      Traces.Allows (Traces.familySpec (Step (written [.writeBytes [1, 2], .flush]).content)) (fun _ => 0)
        [(0, .readByte), (1, .readBytes 3)]
        (Traces.run (Traces.familyStep RAMInputStream.step) (fun _ => s) [(0, .readByte), (1, .readBytes 3)]).1 := by
  have hwrites : LegalWrites [.writeBytes [1, 2], .flush] := by
    refine ⟨?_, fun _ h => by cases h; exact ⟨trivial, fun _ _ => trivial⟩⟩
    change 0 + 2 < MAX_LENGTH
    unfold MAX_LENGTH BUFFER_SIZE
    omega
  obtain ⟨out, s, hrun, hnew, h⟩ := streams_read_back (fun _ _ => 0) [.writeBytes [1, 2], .flush]
    [(0, .readByte), (1, .readBytes 3)] hwrites
  refine ⟨out, s, hrun, hnew, h ⟨?_, ?_, trivial⟩⟩
  all_goals
    cases hrun
    cases hnew
    exact Or.inr (Or.inr (Or.inl (by unfold RAMInputStream.NoBufferBehind; decide)))

/-- Seeking the start of an empty file gives it a buffer, and a byte of it is read where the file has none. -/
theorem empty_file_read :
    LegalWrites [.seek 0, .flush] ∧
      ¬ ∃ out s, Runs.run (RAMOutputStream.step fun _ _ => 0) (.new .empty) [.seek 0, .flush] = some out ∧
        RAMInputStream.new out.file = .ok s ∧
        Traces.Allows (Step (written [.seek 0, .flush]).content) 0 [.readByte]
          (Traces.run RAMInputStream.step s [.readByte]).1 := by
  refine ⟨⟨Nat.zero_le _, fun _ h => by cases h; exact ⟨trivial, fun _ _ => trivial⟩⟩, ?_⟩
  rintro ⟨out, s, hrun, hnew, hallows⟩
  cases hrun
  cases hnew
  obtain ⟨pos, hstep, -⟩ := hallows
  have hend : ∀ answer pos, Step [] 0 .readByte answer pos → answer = .endOfFile := by
    intro answer pos hanswer
    cases hanswer with
    | readByte h => exact absurd h (Nat.not_lt_zero _)
    | readByteEnd => rfl
  exact absurd (hend _ _ hstep) (by decide)

end LucenePlusPlus
