import LucenePlusPlus.BufferedIndexOutput

/-!
`SimpleFSIndexOutput`, the output to a file whose writes may fail. `OutputFile::write` says whether it has failed, and
`flushBuffer` does not look at it; only `seek` looks at the state of the stream.
-/

namespace LucenePlusPlus
open Buffering

/-- Whether the n-th call of the stream fails, and how many bytes reach the file then. -/
abbrev Failures := Nat → Option Nat

/-- A file behind its stream. `lost` counts the bytes that were to be written and are not. -/
structure OutputFile where
  disk : DirectFile
  good : Bool
  pending : List UInt8
  calls : Nat
  lost : Nat

namespace OutputFile

/-- `good` tells whether the file could be opened. -/
def new (content : List UInt8) (good : Bool) : OutputFile := ⟨⟨content, 0⟩, good, [], 0, 0⟩

section Model
variable (failures : Failures) (file : OutputFile)

/-- Bytes of the stream that do not all reach the file. -/
def fail (b : List UInt8) (reached : Nat) : OutputFile where
  disk := file.disk.write (b.take reached)
  good := false
  pending := []
  calls := file.calls + 1
  lost := file.lost + (b.drop reached).length

def write (b : List UInt8) : Bool × OutputFile :=
  if !file.good then (false, { file with lost := file.lost + b.length })
  else
    match failures file.calls with
    | none => (true, { file with pending := file.pending ++ b, calls := file.calls + 1 })
    | some reached => (false, file.fail (file.pending ++ b) reached)

def flush : OutputFile :=
  if !file.good then file
  else
    match failures file.calls with
    | none => { file with disk := file.disk.write file.pending, pending := [], calls := file.calls + 1 }
    | some reached => file.fail file.pending reached

/-- Also tells whether an exception is raised. -/
def setPosition (pos : Nat) : Bool × OutputFile :=
  let file := if file.good then { file with disk := file.disk.seek pos } else file
  (!file.good, file)

end Model

end OutputFile

namespace SimpleFSIndexOutput
open BufferedIndexOutput

/-- What `write` returns is not looked at. -/
def flushBuffer (failures : Failures) (b : List UInt8) (file : OutputFile) : OutputFile :=
  (file.write failures b).2.flush failures

inductive FileOp where
  | writeByte (b : UInt8)
  | writeBytes (b : List UInt8)
  | flush
  | seek (pos : Nat)

def FileOp.bytes : FileOp → List UInt8
  | .writeByte b => [b]
  | .writeBytes b => b
  | .flush => []
  | .seek _ => []

/-- The calls of the stream are counted from here. -/
def restart (out : BufferedIndexOutput OutputFile) : BufferedIndexOutput OutputFile :=
  { out with file := { out.file with calls := 0 } }

def seek (failures : Failures) (out : BufferedIndexOutput OutputFile) (pos : Nat) :
    Bool × BufferedIndexOutput OutputFile :=
  let out := BufferedIndexOutput.seek (flushBuffer failures) out pos
  let (raised, file) := out.file.setPosition pos
  (raised, { out with file := file })

/-- Whether the call raises an exception, and what it leaves. -/
def step (failures : Failures) (out : BufferedIndexOutput OutputFile) :
    FileOp → Bool × BufferedIndexOutput OutputFile
  | .writeByte b => (false, writeByte (flushBuffer failures) (restart out) b)
  | .writeBytes b => (false, writeBytes (flushBuffer failures) (restart out) b)
  | .flush => (false, BufferedIndexOutput.flush (flushBuffer failures) (restart out))
  | .seek pos => seek failures (restart out) pos

/-- Whether one of the calls has raised an exception, and what they leave. -/
def run (out : BufferedIndexOutput OutputFile) : List (FileOp × Failures) → Bool × BufferedIndexOutput OutputFile
  | [] => (false, out)
  | (op, failures) :: ops =>
      let (raised, out) := step failures out op
      let (raised', out) := run out ops
      (raised || raised', out)

/-- `close` raises nothing. -/
def close (failures : Failures) (out : BufferedIndexOutput OutputFile) : BufferedIndexOutput OutputFile :=
  BufferedIndexOutput.close (flushBuffer failures) (restart out)

/-- Where bytes are lost, a call has raised an exception, whatever call of the stream fails. -/
def Reports (ops : List FileOp) : Prop :=
  ∀ memory content good (calls : List (FileOp × Failures)) (last : Failures), calls.map Prod.fst = ops →
    0 < (close last (run (new memory (.new content good)) calls).2).file.lost →
      (run (new memory (.new content good)) calls).1 = true

section FlushBuffer
variable {failures : Failures} {file : OutputFile} {b : List UInt8}

/-- Nothing of what has been written is in the stream, and nothing is lost as long as the stream is good. -/
structure Honest (file : OutputFile) : Prop where
  pending : file.pending = []
  lost : file.good = true → file.lost = 0

theorem flushBuffer_cases (failures : Failures) (b : List UInt8) (file : OutputFile) :
    (file.good = false ∧ flushBuffer failures b file = { file with lost := file.lost + b.length }) ∨
    (file.good = true ∧ ∃ reached calls, (∃ n, failures n = some reached) ∧
      flushBuffer failures b file = { file.fail (file.pending ++ b) reached with calls := calls }) ∨
    (file.good = true ∧ failures file.calls = none ∧
      flushBuffer failures b file =
        { file with disk := file.disk.write (file.pending ++ b), pending := [], calls := file.calls + 2 }) := by
  rw [flushBuffer, OutputFile.write]
  cases hgood : file.good with
  | false => exact .inl ⟨rfl, by simp [OutputFile.flush]⟩
  | true =>
      cases hwrite : failures file.calls with
      | some reached =>
          exact .inr (.inl ⟨rfl, reached, file.calls + 1, ⟨_, hwrite⟩, by simp [OutputFile.flush, OutputFile.fail]⟩)
      | none =>
          cases hflush : failures (file.calls + 1) with
          | some reached =>
              exact .inr (.inl ⟨rfl, reached, file.calls + 2, ⟨_, hflush⟩,
                by simp [OutputFile.flush, OutputFile.fail, hflush]⟩)
          | none => exact .inr (.inr ⟨rfl, rfl, by simp [OutputFile.flush, hflush]⟩)

theorem Honest.flushBuffer (h : Honest file) (failures : Failures) (b : List UInt8) :
    Honest (flushBuffer failures b file) := by
  rcases flushBuffer_cases failures b file with ⟨hbad, heq⟩ | ⟨hgood, reached, calls, -, heq⟩ | ⟨hgood, -, heq⟩ <;> rw [heq]
  · exact ⟨h.pending, fun hgood => absurd hgood (by simp [hbad])⟩
  · exact ⟨rfl, fun hgood => nomatch hgood⟩
  · exact ⟨rfl, h.lost⟩

theorem lost_flushBuffer_nil (h : Honest file) : (flushBuffer failures [] file).lost = file.lost := by
  rcases flushBuffer_cases failures [] file with ⟨-, heq⟩ | ⟨-, reached, calls, -, heq⟩ | ⟨-, -, heq⟩ <;> rw [heq]
  · rfl
  · simp [OutputFile.fail, h.pending]

theorem le_lost_flushBuffer : file.lost ≤ (flushBuffer failures b file).lost := by
  rcases flushBuffer_cases failures b file with ⟨-, heq⟩ | ⟨-, reached, calls, -, heq⟩ | ⟨-, -, heq⟩ <;> rw [heq]
  · exact Nat.le_add_right _ _
  · exact Nat.le_add_right _ _

theorem lost_flushBuffer_pos (hb : b ≠ []) : 0 < (flushBuffer (fun _ => some 0) b file).lost := by
  have hpos := List.length_pos_of_ne_nil hb
  rw [flushBuffer, OutputFile.write]
  cases hgood : file.good with
  | false => simp [OutputFile.flush, hpos]
  | true =>
      simp [OutputFile.flush, OutputFile.fail]
      omega

end FlushBuffer

/-! ### Steps -/

section Steps
variable {failures : Failures} {out : BufferedIndexOutput OutputFile} {op : FileOp} {ops : List FileOp}

theorem wrote_step (h : out.WellFormed) (hop : ∀ pos, op ≠ .seek pos) :
    (step failures out op).1 = false ∧
      Wrote (flushBuffer failures) (restart out) op.bytes (step failures out op).2 := by
  have hrestart : (restart out).WellFormed := ⟨h.length_buffer, h.bufferPosition_le⟩
  cases op with
  | writeByte b => exact ⟨rfl, wrote_writeByte hrestart b⟩
  | writeBytes b => exact ⟨rfl, wrote_writeBytes hrestart b⟩
  | flush => exact ⟨rfl, wrote_flush hrestart⟩
  | seek pos => exact absurd rfl (hop pos)

theorem wellFormed_step (h : out.WellFormed) : (step failures out op).2.WellFormed := by
  by_cases hop : ∃ pos, op = .seek pos
  · obtain ⟨pos, rfl⟩ := hop
    exact ⟨h.length_buffer, Nat.zero_le _⟩
  · exact (wrote_step h fun pos heq => hop ⟨pos, heq⟩).2.toWellFormed

/-- What each way of emptying the buffer keeps, a call that does not seek keeps. -/
theorem preserved_step (failures : Failures) {R : List UInt8 → List UInt8 → OutputFile → Prop} (h : out.WellFormed)
    (hop : ∀ pos, op ≠ .seek pos)
    (happend : ∀ {a pending file} piece, R a pending file → R (a ++ piece) (pending ++ piece) file)
    (hflush : ∀ {a pending file}, R a pending file → R a [] (flushBuffer failures pending file))
    (hR : R [] (restart out).view.1 (restart out).view.2) :
    R op.bytes (step failures out op).2.view.1 (step failures out op).2.view.2 := by
  have hmoves := (@wrote_step failures out op h hop).2.moves
  exact hmoves.preserves (R := R) List.append_nil (fun a b b' => (List.append_assoc a b b').symm) happend hflush hR

theorem honest_step (h : out.WellFormed) (hfile : Honest out.file) : Honest (step failures out op).2.file := by
  have hrestart : Honest (restart out).file := ⟨hfile.pending, hfile.lost⟩
  by_cases hop : ∃ pos, op = .seek pos
  · obtain ⟨pos, rfl⟩ := hop
    have hflush := hrestart.flushBuffer failures (restart out).view.1
    rw [step, seek]
    dsimp only [OutputFile.setPosition]
    split_ifs
    · exact ⟨hflush.pending, hflush.lost⟩
    · exact hflush
  · exact preserved_step failures (R := fun _ _ file => Honest file) h (fun pos heq => hop ⟨pos, heq⟩) (fun _ hR => hR)
      (fun hR => hR.flushBuffer failures _) hrestart

/-- Nothing is in the buffer, and nothing has been lost. -/
structure Quiet (out : BufferedIndexOutput OutputFile) : Prop where
  buffer : out.view.1 = []
  honest : Honest out.file
  lost : out.file.lost = 0

theorem quiet_step (hquiet : Quiet out) (h : out.WellFormed) (hop : ∀ pos, op ≠ .seek pos) (hbytes : op.bytes = []) :
    Quiet (step failures out op).2 := by
  have hkept := preserved_step failures (R := fun a pending file => a = [] → pending = [] ∧ Honest file ∧ file.lost = 0) h hop ?_ ?_ ?_ hbytes
  · exact ⟨hkept.1, hkept.2.1, hkept.2.2⟩
  · intro a pending file piece hR hnil
    obtain ⟨ha, hpiece⟩ := List.append_eq_nil_iff.mp hnil
    obtain ⟨hpending, hrest⟩ := hR ha
    exact ⟨by rw [hpending, hpiece, List.append_nil], hrest⟩
  · intro a pending file hR hnil
    obtain ⟨rfl, hfile, hlost⟩ := hR hnil
    exact ⟨rfl, hfile.flushBuffer failures [], (lost_flushBuffer_nil hfile).trans hlost⟩
  · exact fun _ => ⟨hquiet.buffer, ⟨hquiet.honest.pending, hquiet.honest.lost⟩, hquiet.lost⟩

theorem quiet_seek (h : out.WellFormed) (hfile : Honest out.file) {pos : Nat}
    (hraised : (step failures out (.seek pos)).1 = false) : Quiet (step failures out (.seek pos)).2 := by
  have hhonest := @honest_step failures out (.seek pos) h hfile
  have hempty : (step failures out (.seek pos)).2.view.1 = [] := by
    simp [step, seek, view, BufferedIndexOutput.seek, BufferedIndexOutput.flush]
  refine ⟨hempty, hhonest, hhonest.lost ?_⟩
  rw [step, seek] at hraised ⊢
  exact (Bool.not_eq_false' _).mp hraised

theorem lost_close_of_quiet (hquiet : Quiet out) (h : out.WellFormed) : (close failures out).file.lost = 0 := by
  have hstep : close failures out = (step failures out .flush).2 := rfl
  have hne : ∀ pos, FileOp.flush ≠ .seek pos := fun _ heq => nomatch heq
  rw [hstep]
  exact (quiet_step hquiet h hne rfl).lost

/-- Each byte that is written is sought away from later. -/
def SeeksAfterWrites (ops : List FileOp) : Prop :=
  ∀ before op after, ops = before ++ op :: after → op.bytes ≠ [] → ∃ pos, FileOp.seek pos ∈ after

theorem SeeksAfterWrites.tail (h : SeeksAfterWrites (op :: ops)) : SeeksAfterWrites ops :=
  fun before op' after heq => h (op :: before) op' after (congrArg (List.cons op) heq)

theorem lost_run_eq_zero {calls : List (FileOp × Failures)} {last : Failures} (h : out.WellFormed)
    (hfile : Honest out.file) (hseeks : SeeksAfterWrites (calls.map Prod.fst))
    (hout : Quiet out ∨ ∃ pos, FileOp.seek pos ∈ calls.map Prod.fst) (hraised : (run out calls).1 = false) :
    (close last (run out calls).2).file.lost = 0 := by
  induction calls generalizing out with
  | nil =>
      rcases hout with hquiet | ⟨_, hmem⟩
      · exact lost_close_of_quiet hquiet h
      · exact nomatch hmem
  | cons call calls ih =>
      obtain ⟨op, failures⟩ := call
      rw [run, Bool.or_eq_false_iff] at hraised
      refine ih (wellFormed_step h) (honest_step h hfile) hseeks.tail ?_ hraised.2
      by_cases hop : ∃ pos, op = .seek pos
      · obtain ⟨pos, rfl⟩ := hop
        exact .inl (quiet_seek h hfile hraised.1)
      · have hne : ∀ pos, op ≠ .seek pos := fun pos heq => hop ⟨pos, heq⟩
        by_cases hbytes : op.bytes = []
        · refine hout.imp (fun hquiet => quiet_step hquiet h hne hbytes) fun ⟨pos, hmem⟩ => ⟨pos, ?_⟩
          exact (List.mem_cons.mp hmem).resolve_left fun heq => hne pos heq.symm
        · exact .inr (hseeks [] op _ rfl hbytes)

/-- What is written, or was in the buffer or lost before, is in the buffer or lost. -/
theorem lost_step (h : out.WellFormed) (hop : ∀ pos, op ≠ .seek pos)
    (hlost : (out.view.1 ≠ [] ∨ 0 < out.file.lost) ∨ op.bytes ≠ []) :
    (step (fun _ => some 0) out op).2.view.1 ≠ [] ∨ 0 < (step (fun _ => some 0) out op).2.file.lost := by
  refine preserved_step _ (R := fun a pending file =>
    (out.view.1 ≠ [] ∨ 0 < out.file.lost) ∨ a ≠ [] → pending ≠ [] ∨ 0 < file.lost) h hop ?_ ?_ ?_ hlost
  · intro a pending file piece hR hbefore
    by_cases hpiece : piece = []
    · rw [hpiece, List.append_nil] at hbefore ⊢
      exact hR hbefore
    · exact .inl (List.append_ne_nil_of_right_ne_nil pending hpiece)
  · intro a pending file hR hbefore
    rcases hR hbefore with hpending | hpos
    · exact .inr (lost_flushBuffer_pos hpending)
    · exact .inr (hpos.trans_le le_lost_flushBuffer)
  · exact fun hbefore => hbefore.resolve_right fun hnil => hnil rfl

theorem good_run {ops : List FileOp} (h : out.WellFormed) (hgood : out.file.good = true) :
    (run out (ops.map fun op => (op, fun _ => none))).1 = false ∧
      (run out (ops.map fun op => (op, fun _ => none))).2.WellFormed ∧
      (run out (ops.map fun op => (op, fun _ => none))).2.file.good = true := by
  have hflush : ∀ {pending file}, file.good = true → (flushBuffer (fun _ => none) pending file).good = true := by
    intro pending file hfile
    simp [flushBuffer, OutputFile.write, OutputFile.flush, hfile]
  induction ops generalizing out with
  | nil => exact ⟨rfl, h, hgood⟩
  | cons op ops ih =>
      have hstep : (step (fun _ => none) out op).1 = false ∧ (step (fun _ => none) out op).2.file.good = true := by
        by_cases hop : ∃ pos, op = .seek pos
        · obtain ⟨pos, rfl⟩ := hop
          have hfile : (flushBuffer (fun _ => none) (restart out).view.1 (restart out).file).good = true := hflush hgood
          constructor <;> simp only [step, seek, OutputFile.setPosition, BufferedIndexOutput.seek,
            BufferedIndexOutput.flush] <;> rw [view] at hfile <;> simp [hfile]
        · have hne : ∀ pos, op ≠ .seek pos := fun pos heq => hop ⟨pos, heq⟩
          exact ⟨(wrote_step h hne).1, preserved_step _ (R := fun _ _ file => file.good = true) h hne
            (fun _ hR => hR) hflush hgood⟩
      obtain ⟨hraised, hrest⟩ := ih (wellFormed_step h) hstep.2
      exact ⟨Bool.or_eq_false_iff.mpr ⟨hstep.1, hraised⟩, hrest⟩

theorem lost_run_pos {ops : List FileOp} (h : out.WellFormed) (hlost : out.view.1 ≠ [] ∨ 0 < out.file.lost)
    (hops : ∀ pos, FileOp.seek pos ∉ ops) :
    (run out (ops.map fun op => (op, fun _ => some 0))).1 = false ∧
      0 < (close (fun _ => some 0) (run out (ops.map fun op => (op, fun _ => some 0))).2).file.lost := by
  induction ops generalizing out with
  | nil =>
      refine ⟨rfl, ?_⟩
      rcases hlost with hpending | hpos
      · exact lost_flushBuffer_pos hpending
      · exact hpos.trans_le (@le_lost_flushBuffer _ (restart out).file _)
  | cons op ops ih =>
      have hne : ∀ pos, op ≠ .seek pos := fun pos heq => hops pos (heq ▸ List.mem_cons_self)
      obtain ⟨hraised, hpos⟩ := ih (wellFormed_step h) (lost_step h hne (.inl hlost))
        fun pos hmem => hops pos (List.mem_cons_of_mem op hmem)
      exact ⟨Bool.or_eq_false_iff.mpr ⟨(wrote_step h hne).1, hraised⟩, hpos⟩

end Steps

theorem run_cons (out : BufferedIndexOutput OutputFile) (op : FileOp) (failures : Failures)
    (calls : List (FileOp × Failures)) : run out ((op, failures) :: calls) =
      ((step failures out op).1 || (run (step failures out op).2 calls).1, (run (step failures out op).2 calls).2) := rfl

theorem run_append (out : BufferedIndexOutput OutputFile) (calls calls' : List (FileOp × Failures)) :
    run out (calls ++ calls') =
      ((run out calls).1 || (run (run out calls).2 calls').1, (run (run out calls).2 calls').2) := by
  induction calls generalizing out with
  | nil => rfl
  | cons call calls ih =>
      obtain ⟨op, failures⟩ := call
      rw [List.cons_append, run_cons, run_cons, ih, Bool.or_assoc]

theorem quiet_new (memory : Fin BUFFER_SIZE → UInt8) (content : List UInt8) (good : Bool) :
    Quiet (BufferedIndexOutput.new memory (OutputFile.new content good)) where
  buffer := by rw [view, new, List.take_zero]
  honest := ⟨rfl, fun _ => rfl⟩
  lost := rfl

theorem not_reports {before after : List FileOp} {op : FileOp} (hbytes : op.bytes ≠ [])
    (hafter : ∀ pos, FileOp.seek pos ∉ after) : ¬ Reports (before ++ op :: after) := by
  intro hreports
  have hne : ∀ pos, op ≠ .seek pos := fun pos heq => hbytes (heq ▸ rfl)
  obtain ⟨hraised, hwell, -⟩ := @good_run (BufferedIndexOutput.new (fun _ => 0) (OutputFile.new [] true)) before
    (wellFormed_new _ _) rfl
  obtain ⟨hraised', hpos⟩ := @lost_run_pos _ after (wellFormed_step hwell)
    (lost_step hwell hne (.inr hbytes)) hafter
  have hreported := hreports (fun _ => 0) [] true
    (before.map (fun op => (op, fun _ => none)) ++
      (op :: after).map fun op => (op, fun _ => some 0)) (fun _ => some 0)
    (by simp [Function.comp_def])
  rw [run_append, List.map_cons, run_cons, (wrote_step hwell hne).1, hraised, hraised'] at hreported
  exact Bool.false_ne_true (hreported hpos)

theorem reports_iff (ops : List FileOp) : Reports ops ↔ SeeksAfterWrites ops := by
  constructor
  · rintro hreports before op after rfl hbytes
    by_contra hnone
    exact not_reports hbytes (fun pos hmem => hnone ⟨pos, hmem⟩) hreports
  · rintro hseeks memory content good calls last rfl hpos
    by_contra hraised
    have hquiet := quiet_new memory content good
    rw [Bool.not_eq_true] at hraised
    have hlost := @lost_run_eq_zero _ calls last (wellFormed_new memory _) hquiet.honest hseeks (.inl hquiet) hraised
    omega

end SimpleFSIndexOutput

end LucenePlusPlus
