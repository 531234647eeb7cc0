import LucenePlusPlus.ByteCursor
import LucenePlusPlus.RAMOutputStream
import LucenePlusPlus.Traces

/-!
`BufferedIndexInput`: reads through a buffer from whatever its subclass reads from. Clones share what is below,
and each has its own buffer.
-/

namespace LucenePlusPlus

inductive InputError where
  | readPastEOF
  | io
  /-- what is read is not in an array, or the call does not return -/
  | undefined
deriving DecidableEq

/-- The conversion to `int64_t`. -/
def toInt64 (n : Int) : Int := (n + 0x8000000000000000) % 0x10000000000000000 - 0x8000000000000000

theorem toInt64_of_lt {n : Int} (hge : 0 ≤ n) (hlt : n < 0x8000000000000000) : toInt64 n = n := by
  rw [toInt64]
  omega

/-- What a subclass of `BufferedIndexInput` reads from: `length`, and `readInternal`, which is given where it reads
and how many bytes. It gives the bytes that were stored, also when it raises. -/
structure Device (δ : Type) where
  length : δ → Int
  readInternal : δ → Int → Nat → (List UInt8 × Option InputError) × δ

namespace VInt
variable {w : Nat} (wide : UInt8 → Nat → BitVec w)

/-- The lower seven bits of a byte, shifted; a shift by the width or more is undefined. -/
def group (b : UInt8) (shift : Nat) : BitVec w :=
  if shift < w then BitVec.ofNat w (b.toNat % 128) <<< shift else wide b shift

/-- The bytes up to the first one without the high bit: the number and how many bytes it takes. -/
def readFrom (i : BitVec w) (shift : Nat) : List UInt8 → Option (BitVec w × Nat)
  | [] => none
  | b :: rest =>
      if b.toNat < 128 then some (i ||| group wide b shift, 1)
      else (readFrom (i ||| group wide b shift) (shift + 7) rest).map fun (i, count) => (i, count + 1)

def read (bytes : List UInt8) : Option (BitVec w × Nat) := readFrom wide 0 0 bytes

/-- A byte without the high bit is there. -/
def Terminated (bytes : List UInt8) : Prop := ∃ b ∈ bytes, b.toNat < 128

theorem readFrom_append {front : List UInt8} (h : Terminated front) (i : BitVec w) (shift : Nat)
    (rest : List UInt8) :
    ∃ v count, readFrom wide i shift front = some (v, count) ∧ count ≤ front.length ∧
      readFrom wide i shift (front ++ rest) = some (v, count) := by
  induction front generalizing i shift with
  | nil =>
      obtain ⟨b, hb, -⟩ := h
      cases hb
  | cons b front ih =>
      rw [List.cons_append, readFrom, readFrom]
      by_cases hlast : b.toNat < 128
      · rw [if_pos hlast, if_pos hlast]
        exact ⟨_, 1, rfl, Nat.succ_le_succ (Nat.zero_le _), rfl⟩
      · rw [if_neg hlast, if_neg hlast]
        have hfront : Terminated front := by
          obtain ⟨b', hmem, hb'⟩ := h
          rcases List.mem_cons.mp hmem with rfl | hmem
          · exact absurd hb' hlast
          · exact ⟨b', hmem, hb'⟩
        obtain ⟨v, count, hfrom, hle, happend⟩ := ih hfront (i ||| group wide b shift) (shift + 7)
        rw [hfrom, happend]
        exact ⟨v, count + 1, rfl, Nat.succ_le_succ hle, rfl⟩

end VInt

structure BufferedIndexInput where
  bufferSize : Int
  bufferStart : Int
  bufferLength : Nat
  bufferPosition : Nat
  buffer : Option (List UInt8)

namespace BufferedIndexInput

def MAX_VARINT32_LENGTH : Int := 5

def new (bufferSize : Int) : BufferedIndexInput := ⟨bufferSize, 0, 0, 0, none⟩

section Operations
variable {δ : Type} (device : Device δ) (memory : Nat → UInt8) (wide : ∀ w, UInt8 → Nat → BitVec w)
  (file : δ) (s : BufferedIndexInput)

/-- What a call returns, and the state it leaves. -/
abbrev Result (δ α : Type) := Except InputError α × δ × BufferedIndexInput

/-- `ByteArray::newInstance`, with what is in its memory. -/
def newInstance (size : Int) : List UInt8 := (List.range size.toNat).map memory

def getFilePointer : Int := s.bufferStart + s.bufferPosition

/-- Bytes of the buffer's array. -/
def slice (position count : Nat) : Option (List UInt8) :=
  if count = 0 then some []
  else
    match s.buffer with
    | none => none
    | some buffer => if position + count ≤ buffer.length then some ((buffer.drop position).take count) else none

def copyBytes (position count : Nat) : Except InputError (List UInt8) :=
  match s.slice position count with
  | none => .error .undefined
  | some bytes => .ok bytes

/-- The buffer is allocated when it is first used. -/
def allocated : List UInt8 :=
  match s.buffer with
  | none => newInstance memory s.bufferSize
  | some buffer => buffer

/-- How many bytes `refill` asks for. -/
def newLength : Int :=
  if toInt64 (s.bufferStart + s.bufferPosition + s.bufferSize) > device.length file then
    toInt32 (device.length file - (s.bufferStart + s.bufferPosition))
  else
    toInt32 (toInt64 (s.bufferStart + s.bufferPosition + s.bufferSize) - (s.bufferStart + s.bufferPosition))

def refill : Result δ Unit :=
  if newLength device file s ≤ 0 then (.error .readPastEOF, file, s)
  else
    match device.readInternal file (s.bufferStart + s.bufferPosition) (newLength device file s).toNat with
    | ((bytes, some e), file) =>
        (.error e, file, { s with buffer := some (bytes ++ (s.allocated memory).drop bytes.length) })
    | ((bytes, none), file') =>
        (.ok (), file', { s with
          buffer := some (bytes ++ (s.allocated memory).drop bytes.length)
          bufferLength := (newLength device file s).toNat
          bufferStart := s.bufferStart + s.bufferPosition
          bufferPosition := 0 })

def nextByte : Result δ UInt8 :=
  match s.slice s.bufferPosition 1 with
  | some [b] => (.ok b, file, { s with bufferPosition := s.bufferPosition + 1 })
  | _ => (.error .undefined, file, s)

def readByte : Result δ UInt8 :=
  if s.bufferPosition < s.bufferLength then nextByte file s
  else
    match refill device memory file s with
    | (.error e, file, s) => (.error e, file, s)
    | (.ok (), file, s) => nextByte file s

/-- Reads the groups byte by byte, as `IndexInput::readVInt` and `IndexInput::readVLong` do. -/
def readGroups (w : Nat) : Nat → BitVec w → Nat → δ → BufferedIndexInput → Result δ (BitVec w)
  | 0, _, _, file, s => (.error .undefined, file, s)
  | fuel + 1, i, shift, file, s =>
      match readByte device memory file s with
      | (.error e, file, s) => (.error e, file, s)
      | (.ok b, file, s) =>
          if b.toNat < 128 then (.ok (i ||| VInt.group (wide w) b shift), file, s)
          else readGroups w fuel (i ||| VInt.group (wide w) b shift) (shift + 7) file s

/-- Every byte read is one of the file, so the loops end when there are no more. -/
def readSlow (w : Nat) : Result δ (BitVec w) :=
  readGroups device memory wide w ((device.length file).toNat + 1) 0 0 file s

/-- With more than five bytes left in the buffer, it is read without looking at its end. -/
def readVInt : Result δ (BitVec 32) :=
  if toInt32 (s.bufferPosition + MAX_VARINT32_LENGTH) < s.bufferLength then
    match s.buffer.bind fun buffer => VInt.read (wide 32) (buffer.drop s.bufferPosition) with
    | none => (.error .undefined, file, s)
    | some (i, count) => (.ok i, file, { s with bufferPosition := s.bufferPosition + count })
  else readSlow device memory wide file s 32

def readVLong : Result δ (BitVec 64) := readSlow device memory wide file s 64

/-- What is not in the buffer, read behind it. -/
def readRest (front : List UInt8) (length : Nat) (useBuffer : Bool) : Result δ (List UInt8) :=
  if useBuffer = true ∧ (length : Int) < s.bufferSize then
    match refill device memory file s with
    | (.error e, file, s) => (.error e, file, s)
    | (.ok (), file, s) =>
        if s.bufferLength < length then (.error .readPastEOF, file, s)
        else
          match s.copyBytes 0 length with
          | .error e => (.error e, file, s)
          | .ok bytes => (.ok (front ++ bytes), file, { s with bufferPosition := length })
  else if toInt64 (s.bufferStart + s.bufferPosition + length) > device.length file then
    (.error .readPastEOF, file, s)
  else
    match device.readInternal file s.getFilePointer length with
    | ((_, some e), file) => (.error e, file, s)
    | ((bytes, none), file) =>
        (.ok (front ++ bytes), file, { s with
          bufferStart := toInt64 (s.bufferStart + s.bufferPosition + length)
          bufferPosition := 0
          bufferLength := 0 })

/-- First comes what the buffer has. -/
def readBytes (length : Nat) (useBuffer : Bool) : Result δ (List UInt8) :=
  if (length : Int) ≤ s.bufferLength - s.bufferPosition then
    match s.copyBytes s.bufferPosition length with
    | .error e => (.error e, file, s)
    | .ok bytes => (.ok bytes, file, { s with bufferPosition := s.bufferPosition + length })
  else
    match s.copyBytes s.bufferPosition (s.bufferLength - s.bufferPosition) with
    | .error e => (.error e, file, s)
    | .ok front =>
        readRest device memory file
          { s with bufferPosition := s.bufferPosition + (s.bufferLength - s.bufferPosition) } front
          (length - (s.bufferLength - s.bufferPosition)) useBuffer

/-- The array shrinks or grows; as many of the bytes that are not read yet as fit in it are kept. -/
def setBufferSize (newSize : Int) : Except InputError Unit × BufferedIndexInput :=
  if newSize = s.bufferSize then (.ok (), s)
  else
    match s.buffer with
    | none => (.ok (), { s with bufferSize := newSize })
    | some _ =>
        if newSize < 0 ∨ s.bufferLength < s.bufferPosition then (.error .undefined, { s with bufferSize := newSize })
        else
          let numToCopy := min (s.bufferLength - s.bufferPosition) newSize.toNat
          match s.copyBytes s.bufferPosition numToCopy with
          | .error e => (.error e, { s with bufferSize := newSize })
          | .ok bytes =>
              (.ok (), {
                bufferSize := newSize
                bufferStart := s.bufferStart + s.bufferPosition
                bufferPosition := 0
                bufferLength := numToCopy
                buffer := some (bytes ++ (newInstance memory newSize).drop numToCopy) })

def seek (pos : Int) : BufferedIndexInput :=
  if s.bufferStart ≤ pos ∧ pos < s.bufferStart + s.bufferLength then
    { s with bufferPosition := (pos - s.bufferStart).toNat }
  else { s with bufferStart := pos, bufferPosition := 0, bufferLength := 0 }

def clone : BufferedIndexInput :=
  { bufferSize := s.bufferSize
    bufferStart := s.getFilePointer
    bufferLength := 0
    bufferPosition := 0
    buffer := none }

end Operations

/-! ### Calls -/

inductive Op where
  | readByte
  | readBytes (length : Nat) (useBuffer : Bool)
  | readVInt
  | readVLong
  | seek (pos : Int)
  | setBufferSize (newSize : Int)
  | getFilePointer

inductive Outcome where
  | plain (outcome : ByteCursor.Outcome)
  | int (i : BitVec 32)
  | long (i : BitVec 64)
  | position (pos : Int)
deriving DecidableEq

/-- The answer to a call that raises or returns something. -/
def outcome {α : Type} (answer : α → Outcome) : Except InputError α → Outcome
  | .ok a => answer a
  | .error .readPastEOF => .plain .endOfFile
  | .error _ => .plain .fault

section Step
variable {δ : Type} (device : Device δ) (memory : Nat → UInt8) (wide : ∀ w, UInt8 → Nat → BitVec w)

def step (file : δ) (s : BufferedIndexInput) : Op → Outcome × δ × BufferedIndexInput
  | .readByte =>
      (outcome (fun b => .plain (.bytes [b])) (readByte device memory file s).1, (readByte device memory file s).2)
  | .readBytes length useBuffer =>
      (outcome (fun b => .plain (.bytes b)) (readBytes device memory file s length useBuffer).1,
        (readBytes device memory file s length useBuffer).2)
  | .readVInt => (outcome .int (readVInt device memory wide file s).1, (readVInt device memory wide file s).2)
  | .readVLong => (outcome .long (readVLong device memory wide file s).1, (readVLong device memory wide file s).2)
  | .seek pos => (.plain .done, file, s.seek pos)
  | .setBufferSize newSize =>
      (outcome (fun _ => .plain .done) (s.setBufferSize memory newSize).1, file, (s.setBufferSize memory newSize).2)
  | .getFilePointer => (.position s.getFilePointer, file, s)

/-- A stream and its clones: what they share, and what each of them has beside its buffer. -/
structure Inputs (δ π : Type) where
  file : δ
  inputs : List (BufferedIndexInput × π)

inductive Call where
  | on (i : Nat) (op : Op)
  | clone (i : Nat)

def Inputs.step {π : Type} (device : Device (δ × π)) (cloneOwn : π → π) (inputs : Inputs δ π) :
    Call → Outcome × Inputs δ π
  | .on i op =>
      match inputs.inputs[i]? with
      | none => (.plain .fault, inputs)
      | some (s, own) =>
          ((BufferedIndexInput.step device memory wide (inputs.file, own) s op).1,
            ⟨(BufferedIndexInput.step device memory wide (inputs.file, own) s op).2.1.1,
              inputs.inputs.set i ((BufferedIndexInput.step device memory wide (inputs.file, own) s op).2.2,
                (BufferedIndexInput.step device memory wide (inputs.file, own) s op).2.1.2)⟩)
  | .clone i =>
      match inputs.inputs[i]? with
      | none => (.plain .fault, inputs)
      | some (s, own) => (.plain .done, { inputs with inputs := inputs.inputs ++ [(s.clone, cloneOwn own)] })

end Step

end BufferedIndexInput

end LucenePlusPlus
