import LucenePlusPlus.ByteCursor

/-!
`RAMFile` and `RAMOutputStream`: a file is a list of buffers, and a length that is set when the stream is flushed
or sought. A pointer to a buffer is its place in the list.
-/

namespace LucenePlusPlus

/-- The conversion to `int32_t`. -/
def toInt32 (n : Int) : Int := (n + 0x80000000) % 0x100000000 - 0x80000000

theorem toInt32_of_lt {n : Int} (hge : -0x80000000 ≤ n) (hlt : n < 0x80000000) : toInt32 n = n := by
  rw [toInt32]
  omega

namespace RAM

def BUFFER_SIZE : Nat := 1024

/-- The first `BUFFER_SIZE` bytes are those of the buffer. -/
abbrev Buffer := Nat → UInt8

def Buffer.write (buffer : Buffer) (position : Nat) (b : List UInt8) : Buffer := fun i =>
  if position ≤ i ∧ i < position + b.length then b.getD (i - position) 0 else buffer i

end RAM

open RAM

structure RAMFile where
  buffers : List Buffer
  length : Nat

namespace RAMFile

def empty : RAMFile := ⟨[], 0⟩

def numBuffers (file : RAMFile) : Int := file.buffers.length

def setLength (file : RAMFile) (length : Nat) : RAMFile := { file with length := length }

/-- The buffer comes with what is in its memory. -/
def addBuffer (file : RAMFile) (buffer : Buffer) : RAMFile := { file with buffers := file.buffers ++ [buffer] }

/-- Byte `i` of the file. -/
def byteAt (file : RAMFile) (i : Nat) : Option UInt8 :=
  file.buffers[i / BUFFER_SIZE]?.map fun buffer => buffer (i % BUFFER_SIZE)

/-- The buffers hold the bytes. -/
def Holds (file : RAMFile) (bytes : List UInt8) : Prop := ∀ i, i < bytes.length → file.byteAt i = bytes[i]?

section Holds
variable {file : RAMFile} {bytes : List UInt8}

theorem Holds.lt_buffers (h : file.Holds bytes) {i : Nat} (hi : i < bytes.length) :
    i / BUFFER_SIZE < file.buffers.length := by
  by_contra hge
  have hbyte := h i hi
  rw [byteAt, List.getElem?_eq_none (not_lt.mp hge), Option.map_none, List.getElem?_eq_getElem hi] at hbyte
  cases hbyte

theorem Holds.addBuffer (h : file.Holds bytes) (buffer : Buffer) : (file.addBuffer buffer).Holds bytes := by
  intro i hi
  rw [byteAt, RAMFile.addBuffer, List.getElem?_append_left (h.lt_buffers hi)]
  exact h i hi

theorem Holds.write (h : file.Holds bytes) {k position : Nat} {b : List UInt8} (hk : k < file.buffers.length)
    (hpos : BUFFER_SIZE * k + position ≤ bytes.length) (hroom : position + b.length ≤ BUFFER_SIZE) :
    RAMFile.Holds { file with buffers := file.buffers.modify k fun buffer => buffer.write position b }
      (ByteCursor.overwrite bytes (BUFFER_SIZE * k + position) b) := by
  intro i hi
  rw [ByteCursor.length_overwrite hpos] at hi
  rw [byteAt, ByteCursor.getElem?_overwrite hpos]
  dsimp only
  have hdiv := Nat.div_add_mod i BUFFER_SIZE
  have hmod := Nat.mod_lt i (show 0 < BUFFER_SIZE by decide)
  by_cases hbuffer : k = i / BUFFER_SIZE
  · subst hbuffer
    rw [List.getElem?_modify_eq, List.getElem?_eq_getElem hk, Option.map_eq_map, Option.map_some, Option.map_some,
      Buffer.write]
    split_ifs with hin hbefore hbehind hbefore' hin'
    · omega
    · rw [List.getD_eq_getElem?_getD, List.getElem?_eq_getElem (by omega), Option.getD_some,
        List.getElem?_eq_getElem (by omega)]
      congr 2
      omega
    · omega
    · rw [← h i (by omega), byteAt, List.getElem?_eq_getElem hk, Option.map_some]
    · omega
    · rw [← h i (by omega), byteAt, List.getElem?_eq_getElem hk, Option.map_some]
  · rw [List.getElem?_modify_ne _ _ hbuffer]
    have hother : ¬ (BUFFER_SIZE * k + position ≤ i ∧ i < BUFFER_SIZE * k + position + b.length) := by
      rintro ⟨hge, hlt⟩
      apply hbuffer
      unfold BUFFER_SIZE at *
      omega
    split_ifs with hbefore hbehind
    · exact h i (by omega)
    · exact absurd ⟨not_lt.mp hbefore, hbehind⟩ hother
    · exact h i (by omega)

end Holds

end RAMFile

structure RAMOutputStream where
  file : RAMFile
  currentBuffer : Option Nat
  currentBufferIndex : Int
  bufferPosition : Nat
  bufferStart : Nat
  bufferLength : Nat

namespace RAMOutputStream

/-- A stream that writes to the file from the start. -/
def new (file : RAMFile) : RAMOutputStream where
  file := file
  currentBuffer := none
  currentBufferIndex := -1
  bufferPosition := 0
  bufferStart := 0
  bufferLength := 0

section Operations
variable (memory : Nat → Buffer) (out : RAMOutputStream)

/-- `memory` is what is in the buffers that are allocated. There is no result where a buffer is taken that is not
there. -/
def switchCurrentBuffer : Option RAMOutputStream :=
  if out.currentBufferIndex = out.file.numBuffers then
    some { file := out.file.addBuffer (memory out.file.buffers.length)
           currentBuffer := some out.currentBufferIndex.toNat
           currentBufferIndex := out.currentBufferIndex
           bufferPosition := 0
           bufferStart := BUFFER_SIZE * out.currentBufferIndex.toNat
           bufferLength := BUFFER_SIZE }
  else if 0 ≤ out.currentBufferIndex ∧ out.currentBufferIndex < out.file.numBuffers then
    some { out with
           currentBuffer := some out.currentBufferIndex.toNat
           bufferPosition := 0
           bufferStart := BUFFER_SIZE * out.currentBufferIndex.toNat
           bufferLength := BUFFER_SIZE }
  else none

/-- Copies to the current buffer. -/
def store (b : List UInt8) : Option RAMOutputStream :=
  match out.currentBuffer with
  | none => none
  | some k => some { out with
      file := { out.file with
        buffers := out.file.buffers.modify k fun buffer => buffer.write out.bufferPosition b }
      bufferPosition := out.bufferPosition + b.length }

/-- The next buffer, when the current one is full. -/
def ensureBuffer : Option RAMOutputStream :=
  if out.bufferPosition = out.bufferLength then
    switchCurrentBuffer memory { out with currentBufferIndex := out.currentBufferIndex + 1 }
  else some out

def writeByte (b : UInt8) : Option RAMOutputStream := (ensureBuffer memory out).bind fun out => out.store [b]

/-- The loop of `writeBytes`, with fuel for one round more than there are bytes. -/
def writeBytesLoop : Nat → RAMOutputStream → List UInt8 → Option RAMOutputStream
  | _, out, [] => some out
  | 0, _, _ :: _ => none
  | fuel + 1, out, b => do
      let out ← ensureBuffer memory out
      let remainInBuffer := BUFFER_SIZE - out.bufferPosition
      let out ← out.store (b.take remainInBuffer)
      writeBytesLoop fuel out (b.drop remainInBuffer)

def writeBytes (b : List UInt8) : Option RAMOutputStream := writeBytesLoop memory (b.length + 1) out b

def setFileLength : RAMOutputStream :=
  if out.file.length < out.bufferStart + out.bufferPosition then
    { out with file := out.file.setLength (out.bufferStart + out.bufferPosition) }
  else out

def flush : RAMOutputStream := out.setFileLength

def reset : RAMOutputStream := new (out.file.setLength 0)

/-- The buffer of the position. -/
def seekBuffer (pos : Nat) : Option RAMOutputStream :=
  if pos < out.bufferStart ∨ out.bufferStart + out.bufferLength ≤ pos then
    switchCurrentBuffer memory { out with currentBufferIndex := toInt32 ((pos / BUFFER_SIZE : Nat) : Int) }
  else some out

def seek (pos : Nat) : Option RAMOutputStream :=
  (seekBuffer memory out.setFileLength pos).map fun out => { out with bufferPosition := pos % BUFFER_SIZE }

end Operations

/-! ### What has been written -/

/-- A file is shorter than this, or it cannot be opened. -/
@[irreducible] def MAX_LENGTH : Nat := BUFFER_SIZE * 0x7fffffff

theorem MAX_LENGTH_pos : 0 < MAX_LENGTH := by
  unfold MAX_LENGTH BUFFER_SIZE
  omega

theorem toInt32_index {n : Nat} (h : n < MAX_LENGTH) :
    toInt32 ((n / BUFFER_SIZE : Nat) : Int) = (n / BUFFER_SIZE : Nat) := by
  have hlt : n / BUFFER_SIZE < 0x7fffffff := by
    unfold MAX_LENGTH at h
    unfold BUFFER_SIZE at *
    omega
  generalize n / BUFFER_SIZE = index at hlt
  rw [toInt32_of_lt] <;> omega

/-- An array of bytes with a cursor, and its length as it was when the stream was flushed or sought. -/
structure Written where
  bytes : List UInt8
  pos : Nat
  length : Nat

inductive WriteOp where
  | writeByte (b : UInt8)
  | writeBytes (b : List UInt8)
  | seek (pos : Nat)
  | reset
  | flush

def Written.write (w : Written) (b : List UInt8) : Written :=
  { w with bytes := ByteCursor.overwrite w.bytes w.pos b, pos := w.pos + b.length }

def Written.step (w : Written) : WriteOp → Written
  | .writeByte b => w.write [b]
  | .writeBytes b => w.write b
  | .seek pos => { w with pos := pos, length := w.bytes.length }
  | .reset => ⟨[], 0, 0⟩
  | .flush => { w with length := w.bytes.length }

/-- Positions are sought up to the length, and the file does not grow too large. -/
def Written.Legal (w : Written) : WriteOp → Prop
  | .writeByte _ => w.pos + 1 < MAX_LENGTH
  | .writeBytes b => w.pos + b.length < MAX_LENGTH
  | .seek pos => pos ≤ w.bytes.length
  | .reset => True
  | .flush => True

def step (memory : Nat → Buffer) (out : RAMOutputStream) : WriteOp → Option RAMOutputStream
  | .writeByte b => out.writeByte memory b
  | .writeBytes b => out.writeBytes memory b
  | .seek pos => out.seek memory pos
  | .reset => some out.reset
  | .flush => some out.flush

/-- The current buffer is the one of the position, or the one before. -/
def At (out : RAMOutputStream) (pos : Nat) : Prop :=
  match out.currentBuffer with
  | none => out.currentBufferIndex = -1 ∧ out.bufferPosition = 0 ∧ out.bufferStart = 0 ∧ out.bufferLength = 0 ∧
      pos = 0
  | some k => out.currentBufferIndex = k ∧ k < out.file.buffers.length ∧ out.bufferStart = BUFFER_SIZE * k ∧
      out.bufferLength = BUFFER_SIZE ∧ out.bufferPosition ≤ BUFFER_SIZE ∧ pos = out.bufferStart + out.bufferPosition

structure Represents (out : RAMOutputStream) (w : Written) : Prop where
  holds : out.file.Holds w.bytes
  length_eq : out.file.length = w.length
  length_bytes : w.bytes.length = max w.length w.pos
  bounded : w.bytes.length < MAX_LENGTH
  position : out.At w.pos

section Correctness
variable {memory : Nat → Buffer} {out : RAMOutputStream} {w : Written} {b : List UInt8}

theorem Represents.pos_le (h : out.Represents w) : w.pos ≤ w.bytes.length := by
  rw [h.length_bytes]
  exact le_max_right _ _

theorem switchCurrentBuffer_spec {bytes : List UInt8} (hholds : out.file.Holds bytes) {k : Nat}
    (hindex : out.currentBufferIndex = k) (hk : k ≤ out.file.buffers.length) :
    ∃ out', out.switchCurrentBuffer memory = some out' ∧ out'.file.Holds bytes ∧
      out'.file.length = out.file.length ∧ out'.currentBuffer = some k ∧ out'.currentBufferIndex = k ∧
      k < out'.file.buffers.length ∧ out'.bufferPosition = 0 ∧ out'.bufferStart = BUFFER_SIZE * k ∧
      out'.bufferLength = BUFFER_SIZE := by
  rw [switchCurrentBuffer, RAMFile.numBuffers, hindex]
  by_cases heq : k = out.file.buffers.length
  · rw [if_pos (by exact_mod_cast heq)]
    refine ⟨_, rfl, hholds.addBuffer _, rfl, rfl, rfl, ?_, rfl, rfl, rfl⟩
    dsimp only [RAMFile.addBuffer]
    rw [List.length_append, List.length_singleton]
    omega
  · rw [if_neg (by exact_mod_cast heq), if_pos (by omega)]
    exact ⟨_, rfl, hholds, rfl, rfl, rfl, lt_of_le_of_ne hk heq, rfl, rfl, rfl⟩

theorem ensureBuffer_spec (h : out.Represents w) :
    ∃ out' k, out.ensureBuffer memory = some out' ∧ out'.Represents w ∧ out'.currentBuffer = some k ∧
      out'.bufferPosition < BUFFER_SIZE := by
  have hposition := h.position
  rw [ensureBuffer]
  by_cases hfull : out.bufferPosition = out.bufferLength
  · rw [if_pos hfull]
    obtain ⟨k, hindex, hk, hpos⟩ : ∃ k : Nat, out.currentBufferIndex + 1 = k ∧ k ≤ out.file.buffers.length ∧
        w.pos = BUFFER_SIZE * k := by
      rw [At] at hposition
      split at hposition
      case h_1 =>
        obtain ⟨hindex, -, -, -, hpos⟩ := hposition
        exact ⟨0, by omega, Nat.zero_le _, by omega⟩
      case h_2 k _ =>
        obtain ⟨hindex, hk, hstart, hlength, -, hpos⟩ := hposition
        exact ⟨k + 1, by omega, hk, by rw [hpos, hstart, hfull, hlength, Nat.mul_succ]⟩
    obtain ⟨out', hok, hholds, hlength, hcurrent, hindex', hk', hzero, hstart, hbufferLength⟩ :=
      @switchCurrentBuffer_spec memory
        { out with currentBufferIndex := out.currentBufferIndex + 1 } _ h.holds _ hindex hk
    refine ⟨out', k, hok, ⟨hholds, hlength.trans h.length_eq, h.length_bytes, h.bounded, ?_⟩, hcurrent, ?_⟩
    · rw [At, hcurrent]
      exact ⟨hindex', hk', hstart, hbufferLength, by omega, by omega⟩
    · rw [hzero]
      decide
  · rw [if_neg hfull]
    rw [At] at hposition
    split at hposition
    case h_1 =>
      obtain ⟨-, hzero, -, hlength, -⟩ := hposition
      omega
    case h_2 k hcurrent =>
      exact ⟨out, k, rfl, h, hcurrent, by omega⟩

theorem store_spec (h : out.Represents w) {k : Nat} (hcurrent : out.currentBuffer = some k)
    (hroom : out.bufferPosition + b.length ≤ BUFFER_SIZE) (hbounded : w.pos + b.length < MAX_LENGTH) :
    ∃ out', out.store b = some out' ∧ out'.Represents (w.write b) := by
  have hposition := h.position
  rw [At, hcurrent] at hposition
  obtain ⟨hindex, hk, hstart, hbufferLength, -, hpos⟩ := hposition
  have hle := h.pos_le
  have hlength := ByteCursor.length_overwrite (b := b) hle
  have hlengthBytes := h.length_bytes
  have hbound := h.bounded
  rw [store, hcurrent]
  refine ⟨_, rfl, ⟨?_, h.length_eq, ?_, ?_, ?_⟩⟩
  · have hwrite := h.holds.write (b := b) hk (by omega) hroom
    rw [← hstart, ← hpos] at hwrite
    exact hwrite
  · dsimp only [Written.write]
    omega
  · dsimp only [Written.write]
    omega
  · rw [At]
    dsimp only [Written.write]
    exact ⟨hindex, by rw [List.length_modify]; exact hk, hstart, hbufferLength, hroom, by omega⟩

theorem writeBytesLoop_spec {fuel : Nat} (hfuel : b.length < fuel) (h : out.Represents w)
    (hbounded : w.pos + b.length < MAX_LENGTH) :
    ∃ out', writeBytesLoop memory fuel out b = some out' ∧ out'.Represents (w.write b) := by
  induction fuel generalizing out w b with
  | zero => omega
  | succ fuel ih =>
      cases b with
      | nil =>
          refine ⟨out, rfl, ?_⟩
          rw [Written.write, ByteCursor.overwrite_nil]
          exact h
      | cons first rest =>
          set b := first :: rest with hb
          have hpositive : 0 < b.length := Nat.succ_pos _
          obtain ⟨out₁, k, hensure, h₁, hcurrent, hroom⟩ := ensureBuffer_spec h
          set n := BUFFER_SIZE - out₁.bufferPosition with hn
          have htake : (b.take n).length = min n b.length := List.length_take
          obtain ⟨out₂, hstore, h₂⟩ := store_spec (b := b.take n) h₁ hcurrent (by omega) (by omega)
          have hdrop : (b.drop n).length = b.length - n := List.length_drop
          obtain ⟨out₃, hloop, h₃⟩ := ih (b := b.drop n) (by omega) h₂ (by
            dsimp only [Written.write]
            omega)
          refine ⟨out₃, ?_, ?_⟩
          · rw [writeBytesLoop, hensure]
            dsimp only [bind, Option.bind]
            rw [hstore]
            exact hloop
            · exact fun hnil => absurd hnil (List.ne_nil_of_length_pos hpositive)
          · rw [Written.write, Written.write] at h₃
            dsimp only at h₃
            rw [ByteCursor.overwrite_append h.pos_le, List.take_append_drop] at h₃
            rw [Written.write, show w.pos + b.length = w.pos + (b.take n).length + (b.drop n).length by omega]
            exact h₃

theorem setFileLength_spec (h : out.Represents w) :
    out.setFileLength.Represents { w with length := w.bytes.length } := by
  have hposition := h.position
  have hpointer : out.bufferStart + out.bufferPosition = w.pos := by
    rw [At] at hposition
    split at hposition <;> omega
  have hlength := h.length_bytes
  have heq := h.length_eq
  rw [setFileLength, hpointer]
  split
  case isTrue hlt => exact ⟨h.holds, by dsimp only [RAMFile.setLength]; omega, by dsimp only; omega, h.bounded, hposition⟩
  case isFalse hge => exact ⟨h.holds, by dsimp only; omega, by dsimp only; omega, h.bounded, hposition⟩

theorem reset_spec : out.reset.Represents ⟨[], 0, 0⟩ :=
  ⟨nofun, rfl, rfl, MAX_LENGTH_pos, ⟨rfl, rfl, rfl, rfl, rfl⟩⟩

theorem seek_spec (h : out.Represents w) {pos : Nat} (hpos : pos ≤ w.bytes.length) :
    ∃ out', out.seek memory pos = some out' ∧ out'.Represents { w with pos := pos, length := w.bytes.length } := by
  have hset := setFileLength_spec h
  have hposition := hset.position
  have hbounded := h.bounded
  have hmod := Nat.mod_lt pos (show 0 < BUFFER_SIZE by decide)
  have hdiv := Nat.div_add_mod pos BUFFER_SIZE
  have hmax : w.bytes.length = max w.bytes.length pos := by omega
  rw [seek, seekBuffer]
  split_ifs with hother
  · have hindex := toInt32_index (lt_of_le_of_lt hpos hbounded)
    have hbuffer : pos / BUFFER_SIZE ≤ out.setFileLength.file.buffers.length := by
      rcases Nat.eq_zero_or_pos pos with rfl | hpositive
      · exact Nat.zero_le _
      · have hlast := hset.holds.lt_buffers (show pos - 1 < w.bytes.length by omega)
        have hstep : pos / BUFFER_SIZE ≤ (pos - 1) / BUFFER_SIZE + 1 := by
          rw [BUFFER_SIZE]
          omega
        omega
    obtain ⟨out', hok, hholds, hlength, hcurrent, hindex, hk, hzero, hstart, hbufferLength⟩ :=
      @switchCurrentBuffer_spec memory
        { out.setFileLength with currentBufferIndex := toInt32 ((pos / BUFFER_SIZE : Nat) : Int) } _
        hset.holds (pos / BUFFER_SIZE) hindex hbuffer
    rw [hok]
    refine ⟨_, rfl, ⟨hholds, hlength.trans hset.length_eq, hmax, hbounded, ?_⟩⟩
    rw [At]
    dsimp only
    rw [hcurrent]
    exact ⟨hindex, hk, hstart, hbufferLength, hmod.le, by omega⟩
  · refine ⟨_, rfl, ⟨hset.holds, hset.length_eq, hmax, hbounded, ?_⟩⟩
    rw [At] at hposition ⊢
    dsimp only
    split at hposition
    case h_1 => omega
    case h_2 k hcurrent =>
      obtain ⟨hindex, hk, hstart, hbufferLength, -, -⟩ := hposition
      refine ⟨hindex, hk, hstart, hbufferLength, hmod.le, ?_⟩
      have hk' : pos / BUFFER_SIZE = k := by
        unfold BUFFER_SIZE at *
        omega
      rw [hstart, ← hk']
      exact hdiv.symm

theorem step_spec (h : out.Represents w) {op : WriteOp} (hlegal : w.Legal op) :
    ∃ out', out.step memory op = some out' ∧ out'.Represents (w.step op) := by
  cases op with
  | writeByte b =>
      obtain ⟨out', k, hensure, h', hcurrent, hroom⟩ := ensureBuffer_spec h
      obtain ⟨out'', hstore, h''⟩ := store_spec (b := [b]) h' hcurrent hroom hlegal
      refine ⟨out'', ?_, h''⟩
      rw [step, writeByte, hensure]
      exact hstore
  | writeBytes b => exact writeBytesLoop_spec (Nat.lt_succ_self _) h hlegal
  | seek pos => exact seek_spec h hlegal
  | reset => exact ⟨_, rfl, reset_spec⟩
  | flush => exact ⟨_, rfl, setFileLength_spec h⟩

end Correctness

end RAMOutputStream

end LucenePlusPlus
