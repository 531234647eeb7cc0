import LucenePlusPlus.Buffering

/-!
`BufferedIndexOutput`, whose buffer is emptied with `flushBuffer` of the class that is derived from it. Emptied into a
file, it writes what would have been written without a buffer.
-/

namespace LucenePlusPlus
open Buffering ByteCursor

/-- `δ` is the state of the derived class. -/
structure BufferedIndexOutput (δ : Type) where
  bufferStart : Nat
  bufferPosition : Nat
  buffer : List UInt8
  file : δ

namespace BufferedIndexOutput

def BUFFER_SIZE : Nat := 16384

theorem BUFFER_SIZE_pos : 0 < BUFFER_SIZE := by
  rw [BUFFER_SIZE]
  omega

/-- `memory` is what the buffer holds at first. -/
def new {δ : Type} (memory : Fin BUFFER_SIZE → UInt8) (file : δ) : BufferedIndexOutput δ where
  bufferStart := 0
  bufferPosition := 0
  buffer := List.ofFn memory
  file := file

section Model
variable {δ : Type} (flushBuffer : List UInt8 → δ → δ) (out : BufferedIndexOutput δ)

def flush : BufferedIndexOutput δ :=
  { out with
    file := flushBuffer (out.buffer.take out.bufferPosition) out.file
    bufferStart := out.bufferStart + out.bufferPosition
    bufferPosition := 0 }

/-- Copies to the end of what is in the buffer. -/
def append (b : List UInt8) : BufferedIndexOutput δ :=
  { out with
    buffer := overwrite out.buffer out.bufferPosition b
    bufferPosition := out.bufferPosition + b.length }

def writeByte (b : UInt8) : BufferedIndexOutput δ :=
  (if out.bufferPosition ≥ BUFFER_SIZE then flush flushBuffer out else out).append [b]

/-- If the buffer is full, flush it. -/
def flushIfFull : BufferedIndexOutput δ :=
  if BUFFER_SIZE - out.bufferPosition = 0 then flush flushBuffer out else out

/-- The loop of `writeBytes`, with the bytes from `pos` on. -/
def writePieces : Nat → BufferedIndexOutput δ → List UInt8 → BufferedIndexOutput δ
  | 0, out, _ => out
  | rounds + 1, out, b =>
      if b.length = 0 then out
      else
        let bytesLeft := BUFFER_SIZE - out.bufferPosition
        let pieceLength := if b.length < bytesLeft then b.length else bytesLeft
        writePieces rounds (flushIfFull flushBuffer (out.append (b.take pieceLength))) (b.drop pieceLength)

def writeBytes (b : List UInt8) : BufferedIndexOutput δ :=
  let bytesLeft := BUFFER_SIZE - out.bufferPosition
  if bytesLeft ≥ b.length then flushIfFull flushBuffer (out.append b)
  else if b.length > BUFFER_SIZE then
    let out := if out.bufferPosition > 0 then flush flushBuffer out else out
    { out with file := flushBuffer b out.file, bufferStart := out.bufferStart + b.length }
  else writePieces flushBuffer (b.length + 1) out b

def close : BufferedIndexOutput δ := flush flushBuffer out

def getFilePointer : Nat := out.bufferStart + out.bufferPosition

def seek (pos : Nat) : BufferedIndexOutput δ := { flush flushBuffer out with bufferStart := pos }

end Model

section Specs
variable {δ : Type} {flushBuffer : List UInt8 → δ → δ} {out out' : BufferedIndexOutput δ} {b b' : List UInt8}

/-- What is in the buffer, and the file behind it. -/
def view (out : BufferedIndexOutput δ) : List UInt8 × δ := (out.buffer.take out.bufferPosition, out.file)

structure WellFormed (out : BufferedIndexOutput δ) : Prop where
  length_buffer : out.buffer.length = BUFFER_SIZE
  bufferPosition_le : out.bufferPosition ≤ BUFFER_SIZE

variable (flushBuffer) in
/-- The bytes have been written, to the buffer or through it. -/
structure Wrote (out : BufferedIndexOutput δ) (b : List UInt8) (out' : BufferedIndexOutput δ) : Prop
    extends WellFormed out' where
  moves : Moves flushBuffer out.view b out'.view
  pointer : out'.getFilePointer = out.getFilePointer + b.length

theorem WellFormed.refl (h : out.WellFormed) : Wrote flushBuffer out [] out :=
  ⟨h, .refl _, rfl⟩

theorem Wrote.trans (h : Wrote flushBuffer out b out') {out'' : BufferedIndexOutput δ}
    (h' : Wrote flushBuffer out' b' out'') : Wrote flushBuffer out (b ++ b') out'' where
  toWellFormed := h'.toWellFormed
  moves := h.moves.trans h'.moves
  pointer := by rw [h'.pointer, h.pointer, List.length_append, Nat.add_assoc]

theorem wellFormed_new (memory : Fin BUFFER_SIZE → UInt8) (file : δ) : (new memory file).WellFormed :=
  { length_buffer := by rw [new, List.length_ofFn]
    bufferPosition_le := Nat.zero_le _ }

theorem view_flush : (flush flushBuffer out).view = ([], flushBuffer out.view.1 out.view.2) := by
  rw [view, flush, List.take_zero]
  rfl

theorem wrote_flush (h : out.WellFormed) : Wrote flushBuffer out [] (flush flushBuffer out) where
  length_buffer := h.length_buffer
  bufferPosition_le := Nat.zero_le _
  moves := by
    rw [view_flush]
    exact (Moves.refl _).flush
  pointer := rfl

theorem take_overwrite {bytes : List UInt8} {pos : Nat} (h : pos ≤ bytes.length) :
    (overwrite bytes pos b).take (pos + b.length) = bytes.take pos ++ b := by
  have htake : (bytes.take pos ++ b).length = pos + b.length := by
    rw [List.length_append, List.length_take, min_eq_left h]
  rw [overwrite, ← htake, List.take_left]

theorem wrote_append (h : out.WellFormed) (hle : out.bufferPosition + b.length ≤ BUFFER_SIZE) :
    Wrote flushBuffer out b (out.append b) where
  length_buffer := by
    rw [append, length_overwrite (by rw [h.length_buffer]; omega), h.length_buffer]
    omega
  bufferPosition_le := hle
  moves := by
    have hview : (out.append b).view = (out.view.1 ++ b, out.view.2) := by
      rw [view, append, take_overwrite (by rw [h.length_buffer]; omega)]
      rfl
    rw [hview, ← List.nil_append b]
    exact (Moves.refl _).append b
  pointer := (Nat.add_assoc ..).symm

theorem wrote_flushIfFull (h : out.WellFormed) :
    Wrote flushBuffer out [] (flushIfFull flushBuffer out) ∧ (flushIfFull flushBuffer out).bufferPosition < BUFFER_SIZE := by
  have hle := h.bufferPosition_le
  rw [flushIfFull]
  split_ifs with hfull
  · exact ⟨wrote_flush h, BUFFER_SIZE_pos⟩
  · exact ⟨h.refl, by omega⟩

theorem wrote_writeByte (h : out.WellFormed) (b : UInt8) : Wrote flushBuffer out [b] (writeByte flushBuffer out b) := by
  have hle := h.bufferPosition_le
  rw [writeByte]
  split_ifs with hfull
  · have hflush : Wrote flushBuffer out [] (flush flushBuffer out) := wrote_flush h
    exact hflush.trans (wrote_append hflush.toWellFormed (Nat.succ_le_of_lt BUFFER_SIZE_pos))
  · exact wrote_append h (by rw [List.length_singleton]; omega)

/-- A round in which the buffer is full already copies nothing; each other one copies a byte at least. -/
theorem wrote_writePieces {rounds : Nat} (h : out.WellFormed)
    (hrounds : b.length + (if out.bufferPosition = BUFFER_SIZE then 1 else 0) ≤ rounds) :
    Wrote flushBuffer out b (writePieces flushBuffer rounds out b) := by
  induction rounds generalizing out b with
  | zero =>
      rw [List.eq_nil_of_length_eq_zero (by omega : b.length = 0)]
      exact h.refl
  | succ rounds ih =>
      have hle := h.bufferPosition_le
      rw [writePieces]
      split_ifs with hnil
      · rw [List.eq_nil_of_length_eq_zero hnil]
        exact h.refl
      · dsimp only
        generalize hpiece : (if b.length < BUFFER_SIZE - out.bufferPosition then b.length
          else BUFFER_SIZE - out.bufferPosition) = pieceLength
        have hmin : pieceLength ≤ b.length ∧ out.bufferPosition + pieceLength ≤ BUFFER_SIZE ∧
            (out.bufferPosition = BUFFER_SIZE ∨ 0 < pieceLength) := by
          split_ifs at hpiece <;> omega
        have htake : (b.take pieceLength).length = pieceLength := by rw [List.length_take, min_eq_left hmin.1]
        have happend : Wrote flushBuffer out (b.take pieceLength) (out.append (b.take pieceLength)) :=
          wrote_append h (by rw [htake]; exact hmin.2.1)
        obtain ⟨hflush, hlt⟩ := @wrote_flushIfFull _ flushBuffer _ happend.toWellFormed
        have hrest := ih (b := b.drop pieceLength) hflush.toWellFormed (by
          rw [if_neg (by omega), List.length_drop]
          split_ifs at hrounds <;> omega)
        have hall := (happend.trans hflush).trans hrest
        rwa [List.append_nil, List.take_append_drop] at hall

theorem wrote_flushBuffer (h : out.WellFormed) (hempty : out.bufferPosition = 0) (b : List UInt8) :
    Wrote flushBuffer out b
      { out with file := flushBuffer b out.file, bufferStart := out.bufferStart + b.length } where
  length_buffer := h.length_buffer
  bufferPosition_le := h.bufferPosition_le
  moves := by
    have hmoves : Moves flushBuffer out.view b ([], flushBuffer b out.file) := by
      have hview : out.view = ([], out.file) := by rw [view, hempty, List.take_zero]
      rw [hview]
      exact ((Moves.refl ([], out.file)).append b).flush
    simpa only [view, hempty, List.take_zero] using hmoves
  pointer := by
    dsimp only [getFilePointer]
    omega

theorem wrote_writeBytes (h : out.WellFormed) (b : List UInt8) :
    Wrote flushBuffer out b (writeBytes flushBuffer out b) := by
  have hle := h.bufferPosition_le
  rw [writeBytes]
  by_cases hfits : BUFFER_SIZE - out.bufferPosition ≥ b.length
  · have happend : Wrote flushBuffer out b (out.append b) := wrote_append h (by omega)
    have hall := happend.trans (wrote_flushIfFull happend.toWellFormed).1
    rw [List.append_nil] at hall
    rw [if_pos hfits]
    exact hall
  · rw [if_neg hfits]
    by_cases hlarge : b.length > BUFFER_SIZE
    · rw [if_pos hlarge]
      by_cases hpos : out.bufferPosition > 0
      · rw [if_pos hpos]
        have hflush : Wrote flushBuffer out [] (flush flushBuffer out) := wrote_flush h
        exact hflush.trans (wrote_flushBuffer hflush.toWellFormed rfl b)
      · rw [if_neg hpos]
        exact wrote_flushBuffer h (by omega) b
    · rw [if_neg hlarge]
      refine wrote_writePieces h ?_
      split_ifs <;> omega

theorem wrote_close (h : out.WellFormed) : Wrote flushBuffer out [] (close flushBuffer out) := wrote_flush h

end Specs

/-! ### With a file behind the buffer -/

inductive OutputOp where
  | writeByte (b : UInt8)
  | writeBytes (b : List UInt8)
  | flush
  | seek (pos : Nat)
  | close

section Direct

/-- Each write at once at its position. -/
def direct (file : DirectFile) : OutputOp → DirectFile
  | .writeByte b => file.write [b]
  | .writeBytes b => file.write b
  | .flush => file
  | .seek pos => file.seek pos
  | .close => file

/-- `flushBuffer` writes to the file at its position, and `seek` goes on to the file. -/
def step (out : BufferedIndexOutput DirectFile) : OutputOp → BufferedIndexOutput DirectFile
  | .writeByte b => writeByte (fun b file => file.write b) out b
  | .writeBytes b => writeBytes (fun b file => file.write b) out b
  | .flush => flush (fun b file => file.write b) out
  | .seek pos =>
      let out := seek (fun b file => file.write b) out pos
      { out with file := out.file.seek pos }
  | .close => close (fun b file => file.write b) out

variable {out out' : BufferedIndexOutput DirectFile} {file : DirectFile} {b : List UInt8}

/-- The file is the one behind the buffer when what is in the buffer has been written. -/
structure Represents (out : BufferedIndexOutput DirectFile) (file : DirectFile) : Prop extends WellFormed out where
  write_eq : out.view.2.write out.view.1 = file
  pointer_eq : out.getFilePointer = file.position

theorem Represents.write (h : out.Represents file) (hwrote : Wrote (fun b file => file.write b) out b out') :
    out'.Represents (file.write b) where
  toWellFormed := hwrote.toWellFormed
  write_eq := by rw [DirectFile.write_of_moves hwrote.moves, h.write_eq]
  pointer_eq := by
    rw [hwrote.pointer, h.pointer_eq]
    rfl

theorem Represents.step (h : out.Represents file) (op : OutputOp) : (step out op).Represents (direct file op) := by
  cases op with
  | writeByte b => exact h.write (wrote_writeByte h.toWellFormed b)
  | writeBytes b => exact h.write (wrote_writeBytes h.toWellFormed b)
  | flush => exact file.write_nil ▸ h.write (wrote_flush h.toWellFormed)
  | close => exact file.write_nil ▸ h.write (wrote_close h.toWellFormed)
  | seek pos =>
      have hwrite : out.view.2.write out.view.1 = file := h.write_eq
      refine ⟨⟨h.length_buffer, Nat.zero_le _⟩, ?_, rfl⟩
      rw [direct, ← hwrite, DirectFile.seek]
      exact DirectFile.write_nil _

theorem Represents.run (h : out.Represents file) (ops : List OutputOp) :
    (ops.foldl BufferedIndexOutput.step out).Represents (ops.foldl direct file) := by
  induction ops generalizing out file with
  | nil => exact h
  | cons op ops ih => exact ih (h.step op)

theorem represents_new (memory : Fin BUFFER_SIZE → UInt8) (content : List UInt8) :
    (new memory (⟨content, 0⟩ : DirectFile)).Represents ⟨content, 0⟩ where
  toWellFormed := wellFormed_new memory _
  write_eq := DirectFile.write_nil _
  pointer_eq := rfl

/-- The pointer is the position of the file that is written directly, and closing leaves this file. -/
theorem run_eq_direct (memory : Fin BUFFER_SIZE → UInt8) (content : List UInt8) (ops : List OutputOp) :
    (ops.foldl step (new memory ⟨content, 0⟩)).getFilePointer = (ops.foldl direct ⟨content, 0⟩).position ∧
      (close (fun b file => file.write b) (ops.foldl step (new memory ⟨content, 0⟩))).file =
        ops.foldl direct ⟨content, 0⟩ := by
  have h := (represents_new memory content).run ops
  exact ⟨h.pointer_eq, h.write_eq⟩

end Direct

end BufferedIndexOutput

end LucenePlusPlus
