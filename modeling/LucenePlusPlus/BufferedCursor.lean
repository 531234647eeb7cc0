import LucenePlusPlus.BufferedIndexInput
import Mathlib.Data.List.Forall2

/-!
A buffered stream is a cursor over the bytes that its device serves: the valid part of the buffer is what they are
from `bufferStart` on, and no call reads beyond it that is safe.
-/

namespace LucenePlusPlus

/-- A device that is ready gives any of the bytes, as many at once as fit, and stays ready. -/
structure Device.Serves {δ : Type} (device : Device δ) (Fits : Nat → Prop) (Ready : δ → Prop) (bytes : List UInt8) :
    Prop where
  small : ∀ file, Ready file → (bytes.length : Int) ≤ 0x7fffffff00000000
  length : ∀ file, Ready file → device.length file = bytes.length
  read : ∀ file (p n : Nat), Ready file → 0 < n → p + n ≤ bytes.length → Fits n →
    ∃ file', device.readInternal file p n = (((bytes.drop p).take n, none), file') ∧ Ready file'

namespace BufferedIndexInput

section Safe
variable (Fits : Nat → Prop) (fileLength : Nat) (s : BufferedIndexInput)

/-- Beyond the end, the bytes that are missing are not taken for bytes that are there. -/
def SafeRefill : Prop :=
  (fileLength < s.getFilePointer → toInt32 (fileLength - s.getFilePointer) ≤ 0) ∧
    ∀ n : Nat, 0 < n → (n : Int) ≤ s.bufferSize → n ≤ fileLength → Fits n

def SafeReadBytes (length : Nat) (useBuffer : Bool) : Prop :=
  length < 0x80000000 ∧ (s.bufferLength - s.bufferPosition < length →
    if useBuffer = true ∧ ((length - (s.bufferLength - s.bufferPosition) : Nat) : Int) < s.bufferSize then
      SafeRefill Fits fileLength s
    else Fits (length - (s.bufferLength - s.bufferPosition)))

/-- Where the buffer is read without looking at its end, a number ends in it. -/
def SafeVInt : Prop :=
  (toInt32 (s.bufferPosition + MAX_VARINT32_LENGTH) < s.bufferLength →
      VInt.Terminated (((s.buffer.getD []).take s.bufferLength).drop s.bufferPosition)) ∧
    (s.bufferLength ≤ toInt32 (s.bufferPosition + MAX_VARINT32_LENGTH) → SafeRefill Fits fileLength s)

def Safe : Op → Prop
  | .readByte => SafeRefill Fits fileLength s
  | .readBytes length useBuffer => SafeReadBytes Fits fileLength s length useBuffer
  | .readVInt => SafeVInt Fits fileLength s
  | .readVLong => SafeRefill Fits fileLength s
  | .seek pos => 0 ≤ pos ∧ pos ≤ 0x7fffffff00000000
  | .setBufferSize newSize => 0 < newSize ∧ newSize < 0x80000000
  | .getFilePointer => True

end Safe

/-- The valid part of the buffer is a part of the bytes, and the pointer is in it or at its end. -/
structure Reads (bytes : List UInt8) (s : BufferedIndexInput) (pos : Nat) : Prop where
  bufferSize_pos : 0 < s.bufferSize
  bufferSize_lt : s.bufferSize < 0x80000000
  bufferStart_nonneg : 0 ≤ s.bufferStart
  bufferPosition_le : s.bufferPosition ≤ s.bufferLength
  pointer : s.getFilePointer = pos
  small : (pos : Int) ≤ 0x7fffffff00000000
  unallocated : s.buffer = none → s.bufferLength = 0
  allocated : ∀ buffer, s.buffer = some buffer → (buffer.length : Int) = s.bufferSize ∧
    s.bufferLength ≤ buffer.length ∧
    buffer.take s.bufferLength = (bytes.drop s.bufferStart.toNat).take s.bufferLength

section Correctness
variable {δ : Type} {device : Device δ} {memory : Nat → UInt8} {wide : ∀ w, UInt8 → Nat → BitVec w}
  {Fits : Nat → Prop} {Ready : δ → Prop} {bytes : List UInt8} {file : δ} {s : BufferedIndexInput} {pos length : Nat}

theorem new_reads {bufferSize : Int} (hpos : 0 < bufferSize) (hlt : bufferSize < 0x80000000) :
    (new bufferSize).Reads bytes 0 :=
  ⟨hpos, hlt, le_rfl, le_rfl, rfl, by decide, fun _ => rfl, nofun⟩

theorem clone_reads (h : s.Reads bytes pos) : s.clone.Reads bytes pos := by
  have hpointer := h.pointer
  refine ⟨h.bufferSize_pos, h.bufferSize_lt, ?_, le_rfl, ?_, h.small, fun _ => rfl, nofun⟩
  · change 0 ≤ s.getFilePointer
    omega
  · change s.getFilePointer + ((0 : Nat) : Int) = pos
    omega

theorem length_newInstance (size : Int) : (newInstance memory size).length = size.toNat := by
  rw [newInstance, List.length_map, List.length_range]

theorem Reads.length_allocated (h : s.Reads bytes pos) (memory : Nat → UInt8) : ((s.allocated memory).length : Int) = s.bufferSize := by
  have hpositive := h.bufferSize_pos
  rw [BufferedIndexInput.allocated]
  cases hbuffer : s.buffer with
  | none =>
      dsimp only
      rw [length_newInstance]
      omega
  | some buffer => exact (h.allocated buffer hbuffer).1

theorem Reads.bufferLength_le (h : s.Reads bytes pos) :
    s.bufferLength = 0 ∨ s.bufferStart + s.bufferLength ≤ bytes.length := by
  have hnonneg := h.bufferStart_nonneg
  cases hbuffer : s.buffer with
  | none => exact Or.inl (h.unallocated hbuffer)
  | some buffer =>
      obtain ⟨-, hle, hvalid⟩ := h.allocated buffer hbuffer
      have hlengths := congrArg List.length hvalid
      rw [List.length_take, List.length_take, List.length_drop] at hlengths
      omega

theorem Reads.slice (h : s.Reads bytes pos) {position count : Nat} (hin : position + count ≤ s.bufferLength) :
    s.slice position count = some ((bytes.drop (s.bufferStart.toNat + position)).take count) := by
  rw [BufferedIndexInput.slice]
  by_cases hzero : count = 0
  · rw [if_pos hzero, hzero, List.take_zero]
  · rw [if_neg hzero]
    cases hbuffer : s.buffer with
    | none =>
        have hempty := h.unallocated hbuffer
        omega
    | some buffer =>
        obtain ⟨-, hle, hvalid⟩ := h.allocated buffer hbuffer
        dsimp only
        rw [if_pos (by omega)]
        have hcut : ∀ l : List UInt8, (l.drop position).take count =
            ((l.take s.bufferLength).drop position).take count := by
          intro l
          rw [List.drop_take, List.take_take, min_eq_left (by omega)]
        rw [hcut, hvalid, ← hcut, List.drop_drop]

theorem Reads.copyBytes (h : s.Reads bytes pos) (count : Nat) (hin : s.bufferPosition + count ≤ s.bufferLength) :
    s.copyBytes s.bufferPosition count = .ok ((bytes.drop pos).take count) := by
  have hpointer := h.pointer
  have hnonneg := h.bufferStart_nonneg
  rw [getFilePointer] at hpointer
  rw [BufferedIndexInput.copyBytes, h.slice hin]
  dsimp only
  congr 3
  omega

theorem Reads.move (h : s.Reads bytes pos) {position : Nat} (hin : position ≤ s.bufferLength) {target : Nat}
    (htarget : s.bufferStart + position = target) (hsmall : (target : Int) ≤ 0x7fffffff00000000) :
    Reads bytes { s with bufferPosition := position } target :=
  ⟨h.bufferSize_pos, h.bufferSize_lt, h.bufferStart_nonneg, hin, htarget, hsmall, h.unallocated, h.allocated⟩

theorem Reads.leave (h : s.Reads bytes pos) {start : Int} {target : Nat} (htarget : start = target)
    (hsmall : (target : Int) ≤ 0x7fffffff00000000) :
    Reads bytes { s with bufferStart := start, bufferPosition := 0, bufferLength := 0 } target := by
  refine ⟨h.bufferSize_pos, h.bufferSize_lt, ?_, le_rfl, ?_, hsmall, fun _ => rfl, fun buffer hbuffer => ?_⟩
  · dsimp only
    omega
  · change start + ((0 : Nat) : Int) = target
    omega
  · exact ⟨(h.allocated buffer hbuffer).1, Nat.zero_le _, by rw [List.take_zero, List.take_zero]⟩

/-- The number of bytes that are asked for, at the end of a buffer or of the file. -/
theorem newLength_of_lt (hserves : device.Serves Fits Ready bytes) (hready : Ready file) (h : s.Reads bytes pos)
    (hlt : pos < bytes.length) :
    newLength device file s = min s.bufferSize (bytes.length - pos) := by
  have hpointer := h.pointer
  have hpositive := h.bufferSize_pos
  have hsize := h.bufferSize_lt
  have hsmall := h.small
  rw [getFilePointer] at hpointer
  rw [newLength, hserves.length file hready, hpointer, toInt64_of_lt (by omega) (by omega)]
  split
  · rw [toInt32_of_lt] <;> omega
  · rw [toInt32_of_lt] <;> omega

theorem newLength_of_ge (hserves : device.Serves Fits Ready bytes) (hready : Ready file) (h : s.Reads bytes pos)
    (hsafe : SafeRefill Fits bytes.length s) (hge : bytes.length ≤ pos) : newLength device file s ≤ 0 := by
  have hpointer := h.pointer
  have hpositive := h.bufferSize_pos
  have hsize := h.bufferSize_lt
  have hsmall := h.small
  obtain ⟨hbeyond, -⟩ := hsafe
  rw [hpointer] at hbeyond
  rw [getFilePointer] at hpointer
  rw [newLength, hserves.length file hready, hpointer, toInt64_of_lt (by omega) (by omega), if_pos (by omega)]
  rcases eq_or_lt_of_le hge with heq | hlt
  · rw [heq, sub_self]
    decide
  · exact hbeyond (by exact_mod_cast hlt)

theorem refill_end (hserves : device.Serves Fits Ready bytes) (hready : Ready file) (h : s.Reads bytes pos)
    (hsafe : SafeRefill Fits bytes.length s) (hge : bytes.length ≤ pos) :
    refill device memory file s = (.error .readPastEOF, file, s) := by
  rw [refill, if_pos (newLength_of_ge hserves hready h hsafe hge)]

theorem refill_spec (hserves : device.Serves Fits Ready bytes) (hready : Ready file) (h : s.Reads bytes pos)
    (hsafe : SafeRefill Fits bytes.length s) (hlt : pos < bytes.length) :
    ∃ file' s', refill device memory file s = (.ok (), file', s') ∧ Ready file' ∧ s'.Reads bytes pos ∧
      s'.bufferPosition = 0 ∧ (s'.bufferLength : Int) = min s.bufferSize (bytes.length - pos) ∧
      s'.bufferSize = s.bufferSize := by
  have hnew := newLength_of_lt hserves hready h hlt
  have hpointer := h.pointer
  have hpositive := h.bufferSize_pos
  have harray := h.length_allocated memory
  rw [getFilePointer] at hpointer
  obtain ⟨count, hcount⟩ : ∃ count : Nat, (count : Int) = min s.bufferSize (bytes.length - pos) :=
    ⟨(min s.bufferSize (bytes.length - pos)).toNat, by omega⟩
  rw [← hcount] at hnew
  obtain ⟨file', hread, hready'⟩ := hserves.read file pos count hready (by omega) (by omega)
    (hsafe.2 count (by omega) (by omega) (by omega))
  have hlength : ((bytes.drop pos).take count).length = count := by
    rw [List.length_take, List.length_drop]
    omega
  rw [refill, if_neg (by omega), hnew, Int.toNat_natCast, hpointer, hread]
  refine ⟨file', _, rfl, hready', ⟨hpositive, h.bufferSize_lt, ?_, Nat.zero_le _, ?_, h.small, nofun, ?_⟩, rfl,
    hcount, rfl⟩
  · exact Int.natCast_nonneg pos
  · change (pos : Int) + ((0 : Nat) : Int) = pos
    omega
  · intro buffer hbuffer
    cases hbuffer
    dsimp only
    refine ⟨?_, ?_, ?_⟩
    · rw [List.length_append, List.length_drop, hlength]
      omega
    · rw [List.length_append, hlength]
      exact Nat.le_add_right _ _
    · rw [Int.toNat_natCast, List.take_append_of_le_length (by omega), List.take_take, min_self]

theorem nextByte_spec (hserves : device.Serves Fits Ready bytes) (hready : Ready file) (h : s.Reads bytes pos)
    (hlt : s.bufferPosition < s.bufferLength) :
    ∃ hpos : pos < bytes.length, ∃ s', nextByte file s = (.ok bytes[pos], file, s') ∧ s'.Reads bytes (pos + 1) ∧
      s'.bufferSize = s.bufferSize := by
  have hpointer := h.pointer
  have hnonneg := h.bufferStart_nonneg
  have hsmall := hserves.small file hready
  rw [getFilePointer] at hpointer
  have hpos : pos < bytes.length := by
    rcases h.bufferLength_le with hzero | hend <;> omega
  refine ⟨hpos, { s with bufferPosition := s.bufferPosition + 1 }, ?_, h.move hlt (by omega) (by omega), rfl⟩
  have hstart : s.bufferStart.toNat + s.bufferPosition = pos := by omega
  rw [nextByte, h.slice hlt, hstart, List.take_one_drop_eq_of_lt_length hpos]
  rfl

theorem Reads.pos_lt (h : s.Reads bytes pos) (hlt : s.bufferPosition < s.bufferLength) : pos < bytes.length := by
  have hpointer := h.pointer
  rw [getFilePointer] at hpointer
  rcases h.bufferLength_le with hzero | hend <;> omega

theorem readByte_end (hserves : device.Serves Fits Ready bytes) (hready : Ready file) (h : s.Reads bytes pos)
    (hsafe : SafeRefill Fits bytes.length s) (hge : bytes.length ≤ pos) :
    readByte device memory file s = (.error .readPastEOF, file, s) := by
  have hempty : ¬ s.bufferPosition < s.bufferLength := fun hlt => absurd (h.pos_lt hlt) (not_lt.mpr hge)
  rw [readByte, if_neg hempty, refill_end hserves hready h hsafe hge]

theorem readByte_spec (hserves : device.Serves Fits Ready bytes) (hready : Ready file) (h : s.Reads bytes pos)
    (hsafe : SafeRefill Fits bytes.length s) (hpos : pos < bytes.length) :
    ∃ file' s', readByte device memory file s = (.ok bytes[pos], file', s') ∧ Ready file' ∧
      s'.Reads bytes (pos + 1) ∧ s'.bufferSize = s.bufferSize := by
  rw [readByte]
  by_cases hlt : s.bufferPosition < s.bufferLength
  · obtain ⟨_, s', hnext, hreads, hsize⟩ := nextByte_spec hserves hready h hlt
    rw [if_pos hlt]
    exact ⟨file, s', hnext, hready, hreads, hsize⟩
  · obtain ⟨file₁, s₁, hrefill, hready₁, h₁, hzero, hfull, hsize₁⟩ :=
      refill_spec hserves hready h hsafe hpos
    have hpositive := h.bufferSize_pos
    obtain ⟨_, s', hnext, hreads, hsize⟩ := nextByte_spec hserves hready₁ h₁ (by omega)
    rw [if_neg hlt, hrefill]
    exact ⟨file₁, s', hnext, hready₁, hreads, hsize.trans hsize₁⟩

theorem SafeRefill.of_le (h : SafeRefill Fits bytes.length s) {s' : BufferedIndexInput} (hreads : s'.Reads bytes pos)
    (hle : pos ≤ bytes.length) (hsize : s'.bufferSize = s.bufferSize) : SafeRefill Fits bytes.length s' := by
  refine ⟨fun hbeyond => ?_, fun n hn hfits hin => h.2 n hn (hsize ▸ hfits) hin⟩
  rw [hreads.pointer] at hbeyond
  omega

/-- Where a cursor is after a number, or after it has run into the end. -/
def VIntStep (bytes : List UInt8) (pos : Nat) {w : Nat} (read : Option (BitVec w × Nat))
    (answer : Except InputError (BitVec w)) (pos' : Nat) : Prop :=
  match read with
  | some (i, count) => answer = .ok i ∧ pos' = pos + count
  | none => answer = .error .readPastEOF ∧ pos ≤ pos' ∧ pos' ≤ max pos bytes.length

theorem readGroups_spec (hserves : device.Serves Fits Ready bytes) {w fuel : Nat} (i : BitVec w) (shift : Nat)
    (hfuel : bytes.length - pos < fuel) (hready : Ready file) (h : s.Reads bytes pos)
    (hsafe : SafeRefill Fits bytes.length s) :
    ∃ answer file' s' pos', readGroups device memory wide w fuel i shift file s = (answer, file', s') ∧
      Ready file' ∧ s'.Reads bytes pos' ∧
      VIntStep bytes pos (VInt.readFrom (wide w) i shift (bytes.drop pos)) answer pos' := by
  induction fuel generalizing file s pos i shift with
  | zero => exact absurd hfuel (Nat.not_lt_zero _)
  | succ fuel ih =>
      rcases lt_or_ge pos bytes.length with hpos | hge
      · obtain ⟨file₁, s₁, hread, hready₁, h₁, hsize⟩ := readByte_spec hserves hready h hsafe hpos
        rw [readGroups, hread, List.drop_eq_getElem_cons hpos, VInt.readFrom]
        dsimp only
        by_cases hlast : bytes[pos].toNat < 128
        · rw [if_pos hlast, if_pos hlast]
          exact ⟨_, file₁, s₁, pos + 1, rfl, hready₁, h₁, rfl, rfl⟩
        · rw [if_neg hlast, if_neg hlast]
          obtain ⟨answer, file', s', pos', hgroups, hready', h', hstep⟩ :=
            ih (i ||| VInt.group (wide w) bytes[pos] shift) (shift + 7) (by omega) hready₁ h₁
              (hsafe.of_le h₁ hpos hsize)
          refine ⟨answer, file', s', pos', hgroups, hready', h', ?_⟩
          cases hrest : VInt.readFrom (wide w) (i ||| VInt.group (wide w) bytes[pos] shift) (shift + 7)
              (bytes.drop (pos + 1)) with
          | none =>
              rw [hrest] at hstep
              obtain ⟨herror, hle, hle'⟩ := hstep
              exact ⟨herror, by omega, by omega⟩
          | some found =>
              rw [hrest] at hstep
              obtain ⟨hok, hpos'⟩ := hstep
              exact ⟨hok, by rw [hpos']; omega⟩
      · rw [readGroups, readByte_end hserves hready h hsafe hge, List.drop_of_length_le hge]
        exact ⟨_, file, s, pos, rfl, hready, h, rfl, le_rfl, le_max_left _ _⟩

theorem readSlow_spec (hserves : device.Serves Fits Ready bytes) (w : Nat) (hready : Ready file)
    (h : s.Reads bytes pos) (hsafe : SafeRefill Fits bytes.length s) :
    ∃ answer file' s' pos', readSlow device memory wide file s w = (answer, file', s') ∧ Ready file' ∧
      s'.Reads bytes pos' ∧ VIntStep bytes pos (VInt.read (wide w) (bytes.drop pos)) answer pos' := by
  rw [readSlow, VInt.read, hserves.length file hready, Int.toNat_natCast]
  exact readGroups_spec hserves 0 0 (by omega) hready h hsafe

theorem Reads.read_buffer (h : s.Reads bytes pos) {buffer : List UInt8} (hbuffer : s.buffer = some buffer)
    (hterminated : VInt.Terminated ((buffer.take s.bufferLength).drop s.bufferPosition)) :
    ∃ i count, VInt.read (wide 32) (buffer.drop s.bufferPosition) = some (i, count) ∧
      VInt.read (wide 32) (bytes.drop pos) = some (i, count) ∧ s.bufferPosition + count ≤ s.bufferLength ∧
      pos + count ≤ bytes.length := by
  obtain ⟨-, hle, hvalid⟩ := h.allocated buffer hbuffer
  have hpointer := h.pointer
  have hnonneg := h.bufferStart_nonneg
  rw [getFilePointer] at hpointer
  have hin : s.bufferPosition < s.bufferLength := by
    obtain ⟨b, hb, -⟩ := hterminated
    have hlength := List.length_pos_of_mem hb
    rw [List.length_drop, List.length_take] at hlength
    omega
  -- the array and the bytes both start with what is left of the valid part
  have harray : buffer.drop s.bufferPosition =
      (buffer.take s.bufferLength).drop s.bufferPosition ++ buffer.drop s.bufferLength := by
    rw [← List.drop_append_of_le_length (by rw [List.length_take]; omega), List.take_append_drop]
  have hbytes : bytes.drop pos =
      (buffer.take s.bufferLength).drop s.bufferPosition ++ bytes.drop (s.bufferStart.toNat + s.bufferLength) := by
    have hlength := congrArg List.length hvalid
    rw [List.length_take] at hlength
    rw [hvalid, ← List.drop_append_of_le_length (by rw [← hlength]; omega), ← List.drop_drop,
      List.take_append_drop, List.drop_drop]
    congr 1
    omega
  obtain ⟨i, count, hfront, hcount, harrayRead⟩ :=
    VInt.readFrom_append (wide 32) hterminated 0 0 (buffer.drop s.bufferLength)
  obtain ⟨i', count', hfront', -, hbytesRead⟩ :=
    VInt.readFrom_append (wide 32) hterminated 0 0 (bytes.drop (s.bufferStart.toNat + s.bufferLength))
  rw [hfront] at hfront'
  cases hfront'
  rw [List.length_drop, List.length_take] at hcount
  refine ⟨i, count, ?_, ?_, by omega, ?_⟩
  · rw [VInt.read, harray, harrayRead]
  · rw [VInt.read, hbytes, hbytesRead]
  · rcases h.bufferLength_le with hzero | hend <;> omega

theorem readVInt_spec (hserves : device.Serves Fits Ready bytes) (hready : Ready file) (h : s.Reads bytes pos)
    (hsafe : SafeVInt Fits bytes.length s) :
    ∃ answer file' s' pos', readVInt device memory wide file s = (answer, file', s') ∧ Ready file' ∧
      s'.Reads bytes pos' ∧ VIntStep bytes pos (VInt.read (wide 32) (bytes.drop pos)) answer pos' := by
  obtain ⟨hfastSafe, hslowSafe⟩ := hsafe
  rw [readVInt]
  by_cases hfast : toInt32 (s.bufferPosition + MAX_VARINT32_LENGTH) < s.bufferLength
  · have hterminated := hfastSafe hfast
    rw [if_pos hfast]
    cases hbuffer : s.buffer with
    | none =>
        rw [hbuffer] at hterminated
        obtain ⟨b, hb, -⟩ := hterminated
        simp at hb
    | some buffer =>
        rw [hbuffer, Option.getD_some] at hterminated
        obtain ⟨i, count, harray, hbytes, hin, hend⟩ := h.read_buffer hbuffer hterminated
        have hpointer := h.pointer
        have hsmall := hserves.small file hready
        rw [getFilePointer] at hpointer
        have hmove := @Reads.move _ _ _ h _ hin (pos + count) (by omega) (by omega)
        rw [hbuffer] at hmove
        rw [Option.bind_some, harray, hbytes]
        exact ⟨_, file, _, pos + count, rfl, hready, hmove, rfl, rfl⟩
  · rw [if_neg hfast]
    exact readSlow_spec hserves 32 hready h (hslowSafe (not_lt.mp hfast))

/-! ### Bytes -/

/-- Where a cursor is after bytes, or after it has run into the end. -/
def BytesStep (bytes : List UInt8) (pos length : Nat) (answer : Except InputError (List UInt8)) (pos' : Nat) : Prop :=
  ((length = 0 ∨ pos + length ≤ bytes.length) ∧ answer = .ok ((bytes.drop pos).take length) ∧ pos' = pos + length) ∨
    0 < length ∧ bytes.length < pos + length ∧ answer = .error .readPastEOF ∧ pos ≤ pos' ∧
      pos' ≤ max pos bytes.length

theorem readRest_spec (hserves : device.Serves Fits Ready bytes) (hready : Ready file) (h : s.Reads bytes pos)
    {front : List UInt8} {useBuffer : Bool} (hpositive : 0 < length)
    (hlength : length < 0x80000000)
    (hsafe : if useBuffer = true ∧ (length : Int) < s.bufferSize then SafeRefill Fits bytes.length s else Fits length) :
    ∃ answer file' s' pos', readRest device memory file s front length useBuffer = (answer, file', s') ∧
      Ready file' ∧ s'.Reads bytes pos' ∧
      (pos + length ≤ bytes.length ∧ answer = .ok (front ++ (bytes.drop pos).take length) ∧ pos' = pos + length ∨
        bytes.length < pos + length ∧ answer = .error .readPastEOF ∧ pos' = pos) := by
  have hpointer := h.pointer
  have hnonneg := h.bufferStart_nonneg
  have hsmall := h.small
  have hbytes := hserves.small file hready
  rw [getFilePointer] at hpointer
  rw [readRest]
  by_cases hbuffered : useBuffer = true ∧ (length : Int) < s.bufferSize
  · rw [if_pos hbuffered] at hsafe
    rw [if_pos hbuffered]
    rcases lt_or_ge pos bytes.length with hlt | hge
    · obtain ⟨file₁, s₁, hrefill, hready₁, h₁, hzero, hfull, -⟩ :=
        refill_spec hserves hready h hsafe hlt
      rw [hrefill]
      dsimp only
      by_cases hshort : s₁.bufferLength < length
      · rw [if_pos hshort]
        exact ⟨_, file₁, s₁, pos, rfl, hready₁, h₁, Or.inr ⟨by omega, rfl, rfl⟩⟩
      · have hcopy := h₁.copyBytes length (by omega)
        have hpointer₁ := h₁.pointer
        rw [hzero] at hcopy
        rw [getFilePointer, hzero] at hpointer₁
        rw [if_neg hshort, hcopy]
        exact ⟨_, file₁, _, pos + length, rfl, hready₁, h₁.move (by omega) (by omega) (by omega),
          Or.inl ⟨by omega, rfl, rfl⟩⟩
    · rw [refill_end hserves hready h hsafe hge]
      exact ⟨_, file, s, pos, rfl, hready, h, Or.inr ⟨by omega, rfl, rfl⟩⟩
  · rw [if_neg hbuffered] at hsafe
    rw [if_neg hbuffered, hserves.length file hready, hpointer, toInt64_of_lt (by omega) (by omega)]
    by_cases hend : (bytes.length : Int) < pos + length
    · rw [if_pos hend]
      exact ⟨_, file, s, pos, rfl, hready, h, Or.inr ⟨by omega, rfl, rfl⟩⟩
    · obtain ⟨file', hread, hready'⟩ := hserves.read file pos length hready hpositive (by omega) hsafe
      rw [if_neg hend, h.pointer, hread]
      exact ⟨_, file', _, pos + length, rfl, hready', h.leave (by push_cast; rfl) (by omega),
        Or.inl ⟨by omega, rfl, rfl⟩⟩

theorem readBytes_spec (hserves : device.Serves Fits Ready bytes) (hready : Ready file) (h : s.Reads bytes pos)
    {useBuffer : Bool} (hsafe : SafeReadBytes Fits bytes.length s length useBuffer) :
    ∃ answer file' s' pos', readBytes device memory file s length useBuffer = (answer, file', s') ∧ Ready file' ∧
      s'.Reads bytes pos' ∧ BytesStep bytes pos length answer pos' := by
  have hpointer := h.pointer
  have hnonneg := h.bufferStart_nonneg
  have hle := h.bufferPosition_le
  have hsmall := h.small
  have hbytes := hserves.small file hready
  obtain ⟨hlength, hsafe⟩ := hsafe
  rw [getFilePointer] at hpointer
  rw [readBytes]
  by_cases henough : (length : Int) ≤ s.bufferLength - s.bufferPosition
  · rw [if_pos henough, h.copyBytes _ (by omega)]
    have hin : length = 0 ∨ pos + length ≤ bytes.length := by
      rcases h.bufferLength_le with hzero | hend <;> omega
    exact ⟨_, file, _, pos + length, rfl, hready, h.move (by omega) (by omega) (by omega),
      Or.inl ⟨hin, rfl, rfl⟩⟩
  · rw [if_neg henough, h.copyBytes _ (by omega)]
    dsimp only
    obtain ⟨available, havailable⟩ : ∃ available, available = s.bufferLength - s.bufferPosition := ⟨_, rfl⟩
    rw [← havailable] at hsafe ⊢
    have hmove : Reads bytes { s with bufferPosition := s.bufferPosition + available } (pos + available) := by
      refine h.move (by omega) (by omega) ?_
      rcases h.bufferLength_le with hzero | hend <;> omega
    have hrefill : SafeRefill Fits bytes.length s →
        SafeRefill Fits bytes.length { s with bufferPosition := s.bufferPosition + available } := by
      rintro ⟨hbeyond, hfits⟩
      refine ⟨fun hlt => ?_, hfits⟩
      rw [hmove.pointer] at hlt ⊢
      rw [h.pointer] at hbeyond
      rcases h.bufferLength_le with hzero | hend
      · obtain rfl : available = 0 := by omega
        exact hbeyond hlt
      · omega
    have hsafe' : if useBuffer = true ∧ ((length - available : Nat) : Int) < s.bufferSize then
        SafeRefill Fits bytes.length { s with bufferPosition := s.bufferPosition + available }
        else Fits (length - available) := by
      have hrest := hsafe (by omega)
      split
      case isTrue hbuffered =>
        rw [if_pos hbuffered] at hrest
        exact hrefill hrest
      case isFalse hunbuffered =>
        rw [if_neg hunbuffered] at hrest
        exact hrest
    obtain ⟨answer, file', s', pos', hrest, hready', h', hcases⟩ :=
      @readRest_spec _ _ memory _ _ _ _ _ _ (length - available) hserves hready hmove
        ((bytes.drop pos).take available) useBuffer (by omega) (by omega) hsafe'
    refine ⟨answer, file', s', pos', hrest, hready', h', ?_⟩
    rcases hcases with ⟨hin, hok, hpos'⟩ | ⟨hout, herror, hpos'⟩
    · refine Or.inl ⟨Or.inr (by omega), ?_, by omega⟩
      rw [hok, ← List.drop_drop, ← List.take_add, Nat.add_sub_cancel' (by omega)]
    · refine Or.inr ⟨by omega, by omega, herror, by omega, ?_⟩
      rcases h.bufferLength_le with hzero | hend <;> omega

theorem seek_reads (h : s.Reads bytes pos) {target : Int} (hnonneg : 0 ≤ target)
    (hsmall : target ≤ 0x7fffffff00000000) : (s.seek target).Reads bytes target.toNat := by
  rw [seek]
  by_cases hin : s.bufferStart ≤ target ∧ target < s.bufferStart + s.bufferLength
  · rw [if_pos hin]
    exact h.move (by omega) (by omega) (by omega)
  · rw [if_neg hin]
    exact h.leave (by omega) (by omega)

theorem setBufferSize_spec (h : s.Reads bytes pos) (memory : Nat → UInt8) {newSize : Int} (hpositive : 0 < newSize)
    (hlt : newSize < 0x80000000) :
    ∃ s', s.setBufferSize memory newSize = (.ok (), s') ∧ s'.Reads bytes pos := by
  have hpointer := h.pointer
  have hnonneg := h.bufferStart_nonneg
  have hle := h.bufferPosition_le
  rw [setBufferSize]
  by_cases hsame : newSize = s.bufferSize
  · rw [if_pos hsame]
    exact ⟨s, rfl, h⟩
  · rw [if_neg hsame]
    cases hbuffer : s.buffer with
    | none =>
        exact ⟨_, rfl, hpositive, hlt, hnonneg, hle, hpointer, h.small, fun _ => h.unallocated hbuffer, nofun⟩
    | some buffer =>
        obtain ⟨numToCopy, hnum⟩ : ∃ n, n = min (s.bufferLength - s.bufferPosition) newSize.toNat := ⟨_, rfl⟩
        have hcopied : ((bytes.drop pos).take numToCopy).length = numToCopy := by
          rw [getFilePointer] at hpointer
          rw [List.length_take, List.length_drop]
          rcases h.bufferLength_le with hzero | hend <;> omega
        dsimp only
        rw [if_neg (by omega), ← hnum, h.copyBytes _ (by omega)]
        refine ⟨_, rfl, ⟨hpositive, hlt, ?_, Nat.zero_le _, ?_, h.small, nofun, fun buffer' hsome => ?_⟩⟩
        · dsimp only
          omega
        · change s.getFilePointer + ((0 : Nat) : Int) = pos
          omega
        · cases hsome
          have hstart : (s.bufferStart + s.bufferPosition).toNat = pos := by
            rw [getFilePointer] at hpointer
            omega
          dsimp only
          rw [List.length_append, hcopied, List.length_drop, length_newInstance, hstart]
          refine ⟨by omega, by omega, ?_⟩
          rw [List.take_append_of_le_length (by omega), List.take_take, min_self]

/-- A cursor over the bytes. -/
def Cursor (wide : ∀ w, UInt8 → Nat → BitVec w) (bytes : List UInt8) (pos : Nat) : Op → Outcome → Nat → Prop
  | .readByte, answer, pos' => ∃ o, answer = .plain o ∧ ByteCursor.Step bytes pos .readByte o pos'
  | .readBytes length _, answer, pos' =>
      ∃ o, answer = .plain o ∧ ByteCursor.Step bytes pos (.readBytes length) o pos'
  | .readVInt, answer, pos' =>
      ∃ o, answer = outcome .int o ∧ VIntStep bytes pos (VInt.read (wide 32) (bytes.drop pos)) o pos'
  | .readVLong, answer, pos' =>
      ∃ o, answer = outcome .long o ∧ VIntStep bytes pos (VInt.read (wide 64) (bytes.drop pos)) o pos'
  | .seek target, answer, pos' => 0 ≤ target ∧ answer = .plain .done ∧ pos' = target.toNat
  | .setBufferSize _, answer, pos' => answer = .plain .done ∧ pos' = pos
  | .getFilePointer, answer, pos' => answer = .position pos ∧ pos' = pos

theorem step_spec (hserves : device.Serves Fits Ready bytes) (hready : Ready file) (h : s.Reads bytes pos) {op : Op}
    (hsafe : Safe Fits bytes.length s op) :
    ∃ answer file' s' pos', step device memory wide file s op = (answer, file', s') ∧ Ready file' ∧
      s'.Reads bytes pos' ∧ Cursor wide bytes pos op answer pos' := by
  cases op with
  | readByte =>
      rcases lt_or_ge pos bytes.length with hpos | hge
      · obtain ⟨file', s', hread, hready', h', -⟩ := readByte_spec hserves hready h hsafe hpos
        rw [step, hread]
        exact ⟨_, file', s', pos + 1, rfl, hready', h', _, rfl, .readByte hpos⟩
      · rw [step, readByte_end hserves hready h hsafe hge]
        exact ⟨_, file, s, pos, rfl, hready, h, _, rfl, .readByteEnd hge⟩
  | readBytes length useBuffer =>
      obtain ⟨answer, file', s', pos', hread, hready', h', hcases⟩ :=
        readBytes_spec hserves hready h hsafe
      rw [step, hread]
      refine ⟨_, file', s', pos', rfl, hready', h', ?_⟩
      rcases hcases with ⟨hin, rfl, rfl⟩ | ⟨hpositive, hout, rfl, hle, hle'⟩
      · exact ⟨_, rfl, .readBytes hin⟩
      · exact ⟨_, rfl, .readBytesEnd hpositive hout hle hle'⟩
  | readVInt =>
      obtain ⟨answer, file', s', pos', hread, hready', h', hstep⟩ :=
        readVInt_spec hserves hready h hsafe
      rw [step, hread]
      exact ⟨_, file', s', pos', rfl, hready', h', answer, rfl, hstep⟩
  | readVLong =>
      obtain ⟨answer, file', s', pos', hread, hready', h', hstep⟩ :=
        readSlow_spec hserves 64 hready h hsafe
      rw [step, readVLong, hread]
      exact ⟨_, file', s', pos', rfl, hready', h', answer, rfl, hstep⟩
  | seek target =>
      obtain ⟨hnonneg, hsmall⟩ := hsafe
      exact ⟨_, file, _, target.toNat, rfl, hready, seek_reads h hnonneg hsmall, hnonneg, rfl, rfl⟩
  | setBufferSize newSize =>
      obtain ⟨s', hset, h'⟩ := setBufferSize_spec h memory hsafe.1 hsafe.2
      rw [step, hset]
      exact ⟨_, file, s', pos, rfl, hready, h', rfl, rfl⟩
  | getFilePointer => exact ⟨_, file, s, pos, rfl, hready, h, by rw [h.pointer], rfl⟩

end Correctness

section Clones
variable {δ π : Type} {device : Device (δ × π)} {cloneOwn : π → π} {memory : Nat → UInt8}
  {wide : ∀ w, UInt8 → Nat → BitVec w} {Fits : Nat → Prop} {Ready : δ → Prop} {Own : π → List UInt8 → Prop}

/-- A call is made of a stream that is there, and it is safe. -/
def Inputs.SafeCall (device : Device (δ × π)) (Fits : Nat → Prop) (inputs : Inputs δ π) : Call → Prop
  | .on i op => ∃ s own, inputs.inputs[i]? = some (s, own) ∧
      Safe Fits (device.length (inputs.file, own)).toNat s op
  | .clone i => i < inputs.inputs.length

/-- A cursor: the bytes that it is over, and where it is. -/
abbrev Position := List UInt8 × Nat

/-- Cursors; a clone starts where the stream is that it is a clone of. -/
def Cursors (wide : ∀ w, UInt8 → Nat → BitVec w) (positions : List Position) : Call → Outcome → List Position → Prop
  | .on i op, answer, positions' =>
      ∃ bytes pos pos', positions[i]? = some (bytes, pos) ∧ Cursor wide bytes pos op answer pos' ∧
        positions' = positions.set i (bytes, pos')
  | .clone i, answer, positions' =>
      ∃ position, positions[i]? = some position ∧ answer = .plain .done ∧ positions' = positions ++ [position]

/-- A stream with what it has of its own is a cursor. -/
def Is (Own : π → List UInt8 → Prop) (input : BufferedIndexInput × π) (position : Position) : Prop :=
  Own input.2 position.1 ∧ input.1.Reads position.1 position.2

def Inputs.Are (Ready : δ → Prop) (Own : π → List UInt8 → Prop) (inputs : Inputs δ π) (positions : List Position) :
    Prop :=
  Ready inputs.file ∧ List.Forall₂ (Is Own) inputs.inputs positions

theorem forall₂_getElem? {α β : Type} {R : α → β → Prop} {as : List α} {bs : List β} (h : List.Forall₂ R as bs)
    {i : Nat} {a : α} (ha : as[i]? = some a) : ∃ b, bs[i]? = some b ∧ R a b := by
  induction h generalizing i with
  | nil => cases ha
  | cons hab _ ih =>
      cases i with
      | zero =>
          cases ha
          exact ⟨_, rfl, hab⟩
      | succ i => exact ih ha

theorem forall₂_set {α β : Type} {R : α → β → Prop} {as : List α} {bs : List β} (h : List.Forall₂ R as bs)
    {a : α} {b : β} (hab : R a b) (i : Nat) : List.Forall₂ R (as.set i a) (bs.set i b) := by
  induction h generalizing i with
  | nil => exact .nil
  | cons hhead htail ih =>
      cases i with
      | zero => exact .cons hab htail
      | succ i => exact .cons hhead (ih i)

theorem simulates
    (hserves : ∀ bytes, device.Serves Fits (fun file => Ready file.1 ∧ Own file.2 bytes) bytes)
    (hclone : ∀ own bytes, Own own bytes → Own (cloneOwn own) bytes) :
    Traces.Simulates (Inputs.step memory wide device cloneOwn) (Inputs.SafeCall device Fits) (Cursors wide)
      (Inputs.Are Ready Own) := by
  rintro inputs positions call ⟨hready, hare⟩ hsafe
  cases call with
  | on i op =>
      obtain ⟨s, own, hs, hop⟩ := hsafe
      obtain ⟨⟨bytes, pos⟩, hpos, hown, h⟩ := forall₂_getElem? hare hs
      rw [(hserves bytes).length (inputs.file, own) ⟨hready, hown⟩, Int.toNat_natCast] at hop
      obtain ⟨answer, file', s', pos', hstep, ⟨hready', hown'⟩, h', hcursor⟩ :=
        @step_spec _ _ memory wide _ _ _ (inputs.file, own) _ _ (hserves bytes) ⟨hready, hown⟩ h op hop
      rw [Inputs.step, hs]
      dsimp only
      rw [hstep]
      exact ⟨positions.set i (bytes, pos'), ⟨bytes, pos, pos', hpos, hcursor, rfl⟩, hready',
        forall₂_set hare ⟨hown', h'⟩ i⟩
  | clone i =>
      obtain ⟨⟨s, own⟩, hs⟩ : ∃ input, inputs.inputs[i]? = some input := ⟨_, List.getElem?_eq_getElem hsafe⟩
      obtain ⟨⟨bytes, pos⟩, hpos, hown, h⟩ := forall₂_getElem? hare hs
      rw [Inputs.step, hs]
      exact ⟨positions ++ [(bytes, pos)], ⟨(bytes, pos), hpos, rfl, rfl⟩, hready,
        List.rel_append hare (.cons ⟨hclone own bytes hown, clone_reads h⟩ .nil)⟩

end Clones

end BufferedIndexInput

end LucenePlusPlus
