import LucenePlusPlus.RAMOutputStream
import LucenePlusPlus.Traces

/-!
`RAMInputStream`: reads a RAM file, of the length that it has when it is opened, buffer by buffer. Reading beyond
the length is only noticed when there are no more buffers; so it is safe where the last buffer is the one that the
last byte is in.
-/

namespace LucenePlusPlus
open RAM

inductive RAMError where
  | tooLarge
  | readPastEOF
  /-- what is read is not in an array -/
  | undefined
deriving DecidableEq

structure RAMInputStream where
  file : RAMFile
  length : Nat
  currentBuffer : Option Nat
  currentBufferIndex : Int
  bufferPosition : Nat
  bufferStart : Nat
  bufferLength : Int

namespace RAMInputStream

def new (file : RAMFile) : Except RAMError RAMInputStream :=
  if 0x7fffffff ≤ file.length / BUFFER_SIZE then .error .tooLarge
  else .ok ⟨file, file.length, none, -1, 0, 0, 0⟩

/-- What a buffer holds of a file of `length` bytes. -/
def validLength (length k : Nat) : Int :=
  if (BUFFER_SIZE : Int) < (length : Int) - (BUFFER_SIZE * k : Nat) then BUFFER_SIZE
  else toInt32 ((length : Int) - (BUFFER_SIZE * k : Nat))

section Operations
variable (s : RAMInputStream)

/-- An error leaves the stream as it is then. -/
def switchCurrentBuffer (enforceEOF : Bool) : Except RAMError Unit × RAMInputStream :=
  if s.file.numBuffers ≤ s.currentBufferIndex then
    if enforceEOF then (.error .readPastEOF, s)
    else (.ok (), { s with currentBufferIndex := s.currentBufferIndex - 1, bufferPosition := BUFFER_SIZE })
  else if s.currentBufferIndex < 0 then (.error .undefined, s)
  else (.ok (), { s with
    currentBuffer := some s.currentBufferIndex.toNat
    bufferPosition := 0
    bufferStart := BUFFER_SIZE * s.currentBufferIndex.toNat
    bufferLength := validLength s.length s.currentBufferIndex.toNat })

/-- The byte at `position` of the current buffer. -/
def bufferByte (position : Nat) : Option UInt8 :=
  match s.currentBuffer with
  | none => none
  | some k => if position < BUFFER_SIZE then s.file.byteAt (BUFFER_SIZE * k + position) else none

/-- The next buffer, when the current one has been read. -/
def ensureBuffer : Except RAMError Unit × RAMInputStream :=
  if s.bufferLength ≤ s.bufferPosition then
    switchCurrentBuffer { s with currentBufferIndex := s.currentBufferIndex + 1 } true
  else (.ok (), s)

/-- Copies bytes of the current buffer. -/
def copyBytes (count : Nat) : Except RAMError (List UInt8) × RAMInputStream :=
  match (List.range count).mapM fun i => s.bufferByte (s.bufferPosition + i) with
  | none => (.error .undefined, s)
  | some b => (.ok b, { s with bufferPosition := s.bufferPosition + count })

def readByte : Except RAMError (List UInt8) × RAMInputStream :=
  match ensureBuffer s with
  | (.error e, s) => (.error e, s)
  | (.ok (), s) => s.copyBytes 1

/-- The loop of `readBytes`. A round copies a byte or goes to the next buffer. -/
def readBytesLoop : Nat → Nat → RAMInputStream → Except RAMError (List UInt8) × RAMInputStream
  | _, 0, s => (.ok [], s)
  | 0, _ + 1, s => (.error .undefined, s)
  | fuel + 1, length, s =>
      match ensureBuffer s with
      | (.error e, s) => (.error e, s)
      | (.ok (), s) =>
          -- a negative number of bytes cannot be copied
          if s.bufferLength < s.bufferPosition then (.error .undefined, s)
          else
            match s.copyBytes (min length (s.bufferLength - s.bufferPosition).toNat) with
            | (.error e, s) => (.error e, s)
            | (.ok b, s') =>
                match readBytesLoop fuel (length - min length (s.bufferLength - s.bufferPosition).toNat) s' with
                | (.error e, s) => (.error e, s)
                | (.ok b', s) => (.ok (b ++ b'), s)

def readBytes (length : Nat) : Except RAMError (List UInt8) × RAMInputStream :=
  readBytesLoop (length + s.file.buffers.length + 1) length s

def seek (pos : Nat) : Except RAMError Unit × RAMInputStream :=
  if s.currentBuffer = none ∨ toInt32 pos < s.bufferStart ∨ s.bufferStart + BUFFER_SIZE ≤ toInt32 pos then
    match switchCurrentBuffer { s with currentBufferIndex := toInt32 ((pos / BUFFER_SIZE : Nat) : Int) } false with
    | (.error e, s) => (.error e, s)
    | (.ok (), s) => (.ok (), { s with bufferPosition := pos % BUFFER_SIZE })
  else (.ok (), { s with bufferPosition := pos % BUFFER_SIZE })

end Operations

open ByteCursor

def outcome : Except RAMError (List UInt8) → Outcome
  | .ok b => .bytes b
  | .error .readPastEOF => .endOfFile
  | .error _ => .fault

def step (s : RAMInputStream) : Op → Outcome × RAMInputStream
  | .readByte => (outcome s.readByte.1, s.readByte.2)
  | .readBytes length => (outcome (s.readBytes length).1, (s.readBytes length).2)
  | .seek pos =>
      (match (s.seek pos).1 with
        | .ok () => .done
        | .error _ => .fault, (s.seek pos).2)

/-- No buffer lies behind the one that the last byte is in. -/
def NoBufferBehind (s : RAMInputStream) : Prop := s.file.buffers.length * BUFFER_SIZE < s.length + BUFFER_SIZE

/-- The read ends in the file, or a read that does not finds no buffer. -/
def SafeRead (s : RAMInputStream) (length : Nat) : Prop :=
  length = 0 ∨ s.bufferStart + s.bufferPosition + length ≤ s.length ∨ s.NoBufferBehind ∨
    s.file.numBuffers ≤ s.currentBufferIndex + 1 ∧ (s.bufferLength ≤ s.bufferPosition ∨ s.bufferStart < s.length)

/-- The number of the buffer is an `int32_t`. Where there is a current buffer, the position is in it if its
`int32_t` is, and behind all buffers it is not where this one has bytes. -/
def SafeSeek (s : RAMInputStream) (pos : Nat) : Prop :=
  pos < BUFFER_SIZE * 0x80000000 ∧ (s.currentBuffer ≠ none →
    ((s.bufferStart : Int) ≤ toInt32 pos → toInt32 pos < s.bufferStart + BUFFER_SIZE →
      s.bufferStart ≤ pos ∧ pos < s.bufferStart + BUFFER_SIZE) ∧
    (pos < BUFFER_SIZE * s.file.buffers.length ∨ s.bufferLength ≤ (pos % BUFFER_SIZE : Nat)))

def Safe (s : RAMInputStream) : Op → Prop
  | .readByte => s.SafeRead 1
  | .readBytes length => s.SafeRead length
  | .seek pos => s.SafeSeek pos

/-! ### Where the stream is -/

/-- The position is in the current buffer or at its end, or behind the file, where the next read finds no
buffer. -/
def At (s : RAMInputStream) (pos : Nat) : Prop :=
  match s.currentBuffer with
  | none => s.bufferStart = 0 ∧ s.bufferLength = 0 ∧
      (s.currentBufferIndex = -1 ∧ s.bufferPosition = 0 ∧ pos = 0 ∨
        s.file.numBuffers ≤ s.currentBufferIndex + 1 ∧ s.length ≤ pos)
  | some k => k < s.file.buffers.length ∧ s.bufferStart = BUFFER_SIZE * k ∧
      s.bufferLength = validLength s.length k ∧ s.bufferPosition ≤ BUFFER_SIZE ∧
      (pos = BUFFER_SIZE * k + s.bufferPosition ∧
          (s.currentBufferIndex = k ∨
            s.length ≤ BUFFER_SIZE * k + BUFFER_SIZE ∧ s.file.numBuffers ≤ s.currentBufferIndex + 1) ∨
        s.length ≤ pos ∧ s.bufferLength ≤ s.bufferPosition ∧ s.length ≤ BUFFER_SIZE * k + BUFFER_SIZE ∧
          s.file.numBuffers ≤ s.currentBufferIndex + 1)

structure Reads (s : RAMInputStream) (bytes : List UInt8) (pos : Nat) : Prop where
  holds : s.file.Holds bytes
  length_eq : s.length = bytes.length
  position : s.At pos

/-- The next byte is in the current buffer. -/
structure Inside (s : RAMInputStream) (bytes : List UInt8) (pos k : Nat) : Prop where
  reads : s.Reads bytes pos
  currentBuffer_eq : s.currentBuffer = some k
  pos_eq : pos = BUFFER_SIZE * k + s.bufferPosition
  lt_bufferLength : (s.bufferPosition : Int) < s.bufferLength
  bufferLength_le : s.bufferLength ≤ BUFFER_SIZE ∧ (BUFFER_SIZE * k : Nat) + s.bufferLength ≤ bytes.length

section Correctness
variable {s : RAMInputStream} {bytes : List UInt8} {pos length k : Nat}

theorem validLength_of_lt (h : BUFFER_SIZE * k < length) :
    validLength length k = min (BUFFER_SIZE : Int) ((length : Int) - (BUFFER_SIZE * k : Nat)) := by
  rw [validLength]
  unfold BUFFER_SIZE at *
  split
  · omega
  · rw [toInt32_of_lt] <;> omega

theorem Holds.length_le {file : RAMFile} (h : file.Holds bytes) : bytes.length ≤ BUFFER_SIZE * file.buffers.length := by
  rcases Nat.eq_zero_or_pos bytes.length with hzero | hpositive
  · omega
  · have hlast := h.lt_buffers (show bytes.length - 1 < bytes.length by omega)
    unfold BUFFER_SIZE at *
    omega

theorem switchCurrentBuffer_inside (hholds : s.file.Holds bytes) (hlength : s.length = bytes.length)
    (hindex : s.currentBufferIndex = k) (hlt : BUFFER_SIZE * k < bytes.length) (enforceEOF : Bool) :
    ∃ s', s.switchCurrentBuffer enforceEOF = (.ok (), s') ∧ s'.Inside bytes (BUFFER_SIZE * k) k ∧
      s'.file = s.file ∧ s'.currentBufferIndex = k := by
  have hbuffers := Holds.length_le hholds
  have hk : k < s.file.buffers.length := by
    unfold BUFFER_SIZE at *
    omega
  have hvalid := validLength_of_lt (hlength ▸ hlt)
  rw [switchCurrentBuffer, RAMFile.numBuffers, hindex, if_neg (by omega), if_neg (by omega)]
  refine ⟨_, rfl, ⟨⟨hholds, hlength, ?_⟩, rfl, rfl, ?_, ?_⟩, rfl, rfl⟩
  · exact ⟨hk, rfl, rfl, Nat.zero_le _, Or.inl ⟨rfl, Or.inl rfl⟩⟩
  · dsimp only
    rw [Int.toNat_natCast, hvalid]
    unfold BUFFER_SIZE at *
    omega
  · dsimp only
    rw [Int.toNat_natCast, hvalid]
    omega

theorem switchCurrentBuffer_eof (h : s.file.numBuffers ≤ s.currentBufferIndex) :
    s.switchCurrentBuffer true = (.error .readPastEOF, s) := by
  rw [switchCurrentBuffer, if_pos h]
  rfl

/-- Before a safe read, the stream goes to where the next byte is; at the end it raises. -/
theorem ensureBuffer_spec (h : s.Reads bytes pos) (hpositive : 0 < length) (hsafe : s.SafeRead length) :
    (∃ s' k, s.ensureBuffer = (.ok (), s') ∧ s'.Inside bytes pos k ∧ s'.SafeRead length ∧ s'.file = s.file) ∨
      ∃ s', s.ensureBuffer = (.error .readPastEOF, s') ∧ s'.Reads bytes pos ∧ bytes.length ≤ pos ∧
        s'.file = s.file := by
  have hposition := h.position
  have hlength := h.length_eq
  have hbuffers := Holds.length_le h.holds
  rw [SafeRead, NoBufferBehind, RAMFile.numBuffers] at hsafe
  rw [At, RAMFile.numBuffers] at hposition
  -- where the next buffer is taken, and where there is none
  have hnext : ∀ k : Nat, s.currentBufferIndex + 1 = k → s.bufferLength ≤ s.bufferPosition →
      BUFFER_SIZE * k < bytes.length → pos = BUFFER_SIZE * k →
      (s.bufferStart + s.bufferPosition + length ≤ s.length → pos + length ≤ bytes.length) →
      ∃ s' k, s.ensureBuffer = (.ok (), s') ∧ s'.Inside bytes pos k ∧ s'.SafeRead length ∧ s'.file = s.file := by
    intro k hindex hread hlt hpos hends
    obtain ⟨s', hok, hinside, hfile, hindex'⟩ := switchCurrentBuffer_inside
      (s := { s with currentBufferIndex := s.currentBufferIndex + 1 }) h.holds hlength hindex hlt true
    refine ⟨s', k, ?_, hpos ▸ hinside, ?_, hfile⟩
    · rw [ensureBuffer, if_pos hread]
      exact hok
    · have hlength' := hinside.reads.length_eq
      have hposition' := hinside.reads.position
      rw [At, hinside.currentBuffer_eq] at hposition'
      obtain ⟨-, hstart', -, -, -⟩ := hposition'
      have hpos' := hinside.pos_eq
      rw [SafeRead, NoBufferBehind, hfile]
      dsimp only
      rcases hsafe with hzero | hends' | hbehind | ⟨hlast, -⟩
      · omega
      · have hfits := hends hends'
        exact Or.inr (Or.inl (by omega))
      · exact Or.inr (Or.inr (Or.inl (by omega)))
      · unfold BUFFER_SIZE at *
        omega
  have hnone : (s.file.buffers.length : Int) ≤ s.currentBufferIndex + 1 → s.bufferLength ≤ s.bufferPosition →
      bytes.length ≤ pos → ∀ s', s' = { s with currentBufferIndex := s.currentBufferIndex + 1 } → s'.At pos →
      ∃ s', s.ensureBuffer = (.error .readPastEOF, s') ∧ s'.Reads bytes pos ∧ bytes.length ≤ pos ∧
        s'.file = s.file := by
    intro hlast hread hend s' heq hAt
    refine ⟨s', ?_, ⟨?_, ?_, hAt⟩, hend, by rw [heq]⟩
    · rw [ensureBuffer, if_pos hread, heq]
      exact switchCurrentBuffer_eof hlast
    · rw [heq]
      exact h.holds
    · rw [heq]
      exact hlength
  cases hcurrent : s.currentBuffer with
  | none =>
      rw [hcurrent] at hposition
      obtain ⟨hstart, hzero, ⟨hindex, hbufferPosition, hpos⟩ | ⟨hlast, hend⟩⟩ := hposition
      · rcases Nat.eq_zero_or_pos bytes.length with hempty | hbytes
        · right
          have hlast : (s.file.buffers.length : Int) ≤ s.currentBufferIndex + 1 := by
            unfold BUFFER_SIZE at *
            omega
          refine hnone hlast (by omega) (by omega) _ rfl ?_
          rw [At]
          dsimp only
          rw [hcurrent]
          exact ⟨hstart, hzero, Or.inr ⟨by dsimp only [RAMFile.numBuffers]; omega, by omega⟩⟩
        · left
          exact hnext 0 (by omega) (by omega) (by omega) (by omega) (by omega)
      · right
        refine hnone hlast (by omega) (by omega) _ rfl ?_
        rw [At]
        dsimp only
        rw [hcurrent]
        exact ⟨hstart, hzero, Or.inr ⟨by dsimp only [RAMFile.numBuffers]; omega, hend⟩⟩
  | some k =>
      rw [hcurrent] at hposition
      obtain ⟨hk, hstart, hvalid, hle, ⟨hpos, hindex⟩ | ⟨hend, hread, hreach, hlast⟩⟩ := hposition
      · by_cases hread : s.bufferLength ≤ s.bufferPosition
        · rcases lt_or_ge pos bytes.length with hlt | hge
          · left
            have hreach : BUFFER_SIZE * k < s.length := by omega
            rw [validLength_of_lt hreach] at hvalid
            have hfull : s.bufferPosition = BUFFER_SIZE := by omega
            have hindex' : s.currentBufferIndex = k := by
              rcases hindex with hindex | ⟨hreach, -⟩
              · exact hindex
              · omega
            exact hnext (k + 1) (by omega) hread (by rw [Nat.mul_succ]; omega) (by rw [Nat.mul_succ]; omega) (by omega)
          · right
            have hlast : (s.file.buffers.length : Int) ≤ s.currentBufferIndex + 1 := by
              rcases hindex with hindex | ⟨-, hlast⟩
              · rcases hsafe with hzero | hends | hbehind | ⟨hlast, -⟩
                · omega
                · omega
                · unfold BUFFER_SIZE at *
                  omega
                · exact hlast
              · exact hlast
            refine hnone hlast hread hge _ rfl ?_
            rw [At]
            dsimp only
            rw [hcurrent]
            exact ⟨hk, hstart, hvalid, hle,
              Or.inr ⟨by omega, hread, by omega, by dsimp only [RAMFile.numBuffers]; omega⟩⟩
        · left
          have hreach : BUFFER_SIZE * k < s.length := by
            rcases hsafe with hzero | hends | hbehind | ⟨-, hread' | hreach⟩
            · omega
            · omega
            · unfold BUFFER_SIZE at *
              omega
            · exact absurd hread' hread
            · omega
          rw [validLength_of_lt hreach] at hvalid
          refine ⟨s, k, ?_, ⟨h, hcurrent, hpos, by omega, by omega, by omega⟩, ?_, rfl⟩
          · rw [ensureBuffer, if_neg hread]
          · rw [SafeRead, NoBufferBehind, RAMFile.numBuffers]
            exact hsafe
      · right
        refine hnone hlast hread (by omega) _ rfl ?_
        rw [At]
        dsimp only
        rw [hcurrent]
        exact ⟨hk, hstart, hvalid, hle, Or.inr ⟨hend, hread, hreach, by dsimp only [RAMFile.numBuffers]; omega⟩⟩

theorem mapM_range {f : Nat → Option UInt8} {b : List UInt8} (h : ∀ i, i < b.length → f i = b[i]?) :
    (List.range b.length).mapM f = some b := by
  induction b using List.reverseRecOn with
  | nil => rfl
  | append_singleton b last ih =>
      have hinit : (List.range b.length).mapM f = some b := by
        apply ih
        intro i hi
        rw [h i (by rw [List.length_append]; omega), List.getElem?_append_left hi]
      have hlast : f b.length = some last := by
        rw [h b.length (by simp), List.getElem?_concat_length]
      rw [List.length_append, List.length_singleton, List.range_succ, List.mapM_append, hinit]
      simp [hlast]

theorem copyBytes_spec (h : s.Inside bytes pos k) {count : Nat}
    (hcount : (s.bufferPosition : Int) + count ≤ s.bufferLength) :
    ∃ s', s.copyBytes count = (.ok ((bytes.drop pos).take count), s') ∧ s'.Reads bytes (pos + count) ∧
      s' = { s with bufferPosition := s.bufferPosition + count } := by
  obtain ⟨hle, hend⟩ := h.bufferLength_le
  have hpos := h.pos_eq
  have hbytes : ((List.range count).mapM fun i => s.bufferByte (s.bufferPosition + i)) =
      some ((bytes.drop pos).take count) := by
    have hlength : ((bytes.drop pos).take count).length = count := by
      rw [List.length_take, List.length_drop]
      omega
    have hmap := mapM_range (f := fun i => s.bufferByte (s.bufferPosition + i)) (b := (bytes.drop pos).take count)
      fun i hi => by
        rw [hlength] at hi
        rw [bufferByte, h.currentBuffer_eq]
        dsimp only
        rw [if_pos (by omega), h.reads.holds _ (by omega), List.getElem?_take_of_lt hi, List.getElem?_drop, hpos,
          Nat.add_assoc]
    rw [hlength] at hmap
    exact hmap
  rw [copyBytes, hbytes]
  refine ⟨_, rfl, ⟨h.reads.holds, h.reads.length_eq, ?_⟩, rfl⟩
  have hposition := h.reads.position
  rw [At, h.currentBuffer_eq] at hposition
  rw [At]
  dsimp only
  rw [h.currentBuffer_eq]
  obtain ⟨hk, hstart, hvalid, -, hwhere⟩ := hposition
  refine ⟨hk, hstart, hvalid, by omega, Or.inl ⟨by omega, ?_⟩⟩
  rcases hwhere with ⟨-, hindex⟩ | ⟨-, -, hreach, hlast⟩
  · exact hindex
  · exact Or.inr ⟨hreach, hlast⟩

theorem readByte_spec (h : s.Reads bytes pos) (hsafe : s.SafeRead 1) :
    ∃ pos', Step bytes pos .readByte (outcome s.readByte.1) pos' ∧ s.readByte.2.Reads bytes pos' := by
  rw [readByte]
  rcases ensureBuffer_spec h Nat.one_pos hsafe with ⟨s', k, hok, hinside, -, -⟩ | ⟨s', heof, hreads, hend, -⟩
  · have hlt := hinside.lt_bufferLength
    obtain ⟨-, hfits⟩ := hinside.bufferLength_le
    have hpos := hinside.pos_eq
    obtain ⟨s'', hcopy, hreads, -⟩ := @copyBytes_spec _ _ _ _ hinside 1 (by omega)
    have hin : pos < bytes.length := by omega
    rw [hok]
    dsimp only
    rw [hcopy, List.take_one_drop_eq_of_lt_length hin]
    exact ⟨pos + 1, .readByte hin, hreads⟩
  · rw [heof]
    exact ⟨pos, .readByteEnd hend, hreads⟩

theorem readBytesLoop_spec {fuel : Nat} (hfuel : length ≤ fuel) (h : s.Reads bytes pos)
    (hsafe : s.SafeRead length) :
    ∃ s', ((length = 0 ∨ pos + length ≤ bytes.length) ∧
          readBytesLoop fuel length s = (.ok ((bytes.drop pos).take length), s') ∧
          s'.Reads bytes (pos + length)) ∨
      ∃ pos', 0 < length ∧ bytes.length < pos + length ∧ pos ≤ pos' ∧ pos' ≤ max pos bytes.length ∧
        readBytesLoop fuel length s = (.error .readPastEOF, s') ∧ s'.Reads bytes pos' := by
  induction fuel generalizing s pos length with
  | zero =>
      obtain rfl : length = 0 := by omega
      exact ⟨s, Or.inl ⟨Or.inl rfl, rfl, h⟩⟩
  | succ fuel ih =>
      cases hlength : length with
      | zero => exact ⟨s, Or.inl ⟨Or.inl rfl, rfl, h⟩⟩
      | succ n =>
          rw [← hlength]
          have hpositive : 0 < length := by omega
          rcases ensureBuffer_spec h hpositive hsafe with
            ⟨s₁, k, hok, hinside, hsafe₁, hfile⟩ | ⟨s₁, heof, hreads, hend, -⟩
          · have hlt := hinside.lt_bufferLength
            obtain ⟨-, hfits⟩ := hinside.bufferLength_le
            have hpos := hinside.pos_eq
            set count := min length (s₁.bufferLength - s₁.bufferPosition).toNat with hcount
            obtain ⟨s₂, hcopy, hreads₂, heq⟩ := @copyBytes_spec _ _ _ _ hinside count (by omega)
            have hsafe₂ : s₂.SafeRead (length - count) := by
              rw [heq]
              rcases hsafe₁ with hzero | hends | hbehind | ⟨hlast, hreach⟩
              · omega
              · exact Or.inr (Or.inl (by dsimp only; omega))
              · exact Or.inr (Or.inr (Or.inl hbehind))
              · refine Or.inr (Or.inr (Or.inr ⟨hlast, ?_⟩))
                rcases hreach with hread | hreach
                · omega
                · exact Or.inr hreach
            have hloop : readBytesLoop (fuel + 1) length s =
                match readBytesLoop fuel (length - count) s₂ with
                | (.error e, s) => (.error e, s)
                | (.ok b', s) => (.ok ((bytes.drop pos).take count ++ b'), s) := by
              rw [hlength, readBytesLoop, hok]
              dsimp only
              rw [if_neg (by omega), ← hlength, ← hcount, hcopy]
              exact nofun
            obtain ⟨s₃, ⟨hin, hrest, hreads₃⟩ | ⟨pos', hrest, hout, hle, hle', herror, hreads₃⟩⟩ :=
              ih (by omega) hreads₂ hsafe₂
            · refine ⟨s₃, Or.inl ⟨Or.inr (by omega), ?_, ?_⟩⟩
              · rw [hloop, hrest]
                dsimp only
                rw [← List.drop_drop, ← List.take_add, Nat.add_sub_cancel' (by omega)]
              · rw [Nat.add_assoc, Nat.add_sub_cancel' (by omega)] at hreads₃
                exact hreads₃
            · refine ⟨s₃, Or.inr ⟨pos', hpositive, by omega, by omega, by omega, ?_, hreads₃⟩⟩
              rw [hloop, herror]
          · refine ⟨s₁, Or.inr ⟨pos, hpositive, by omega, le_rfl, le_max_left _ _, ?_, hreads⟩⟩
            rw [hlength, readBytesLoop, heof]
            exact nofun

theorem seek_spec (h : s.Reads bytes pos) {target : Nat} (hsafe : s.SafeSeek target) :
    ∃ s', s.seek target = (.ok (), s') ∧ s'.Reads bytes target := by
  obtain ⟨hsmall, hcurrent⟩ := hsafe
  have hposition := h.position
  have hlength := h.length_eq
  have hbuffers := Holds.length_le h.holds
  have hmod := Nat.mod_lt target (show 0 < BUFFER_SIZE by decide)
  have hdiv := Nat.div_add_mod target BUFFER_SIZE
  rw [At, RAMFile.numBuffers] at hposition
  rw [seek]
  by_cases hswitch : s.currentBuffer = none ∨ toInt32 target < s.bufferStart ∨
      (s.bufferStart : Int) + BUFFER_SIZE ≤ toInt32 target
  · rw [if_pos hswitch]
    have hindex : toInt32 ((target / BUFFER_SIZE : Nat) : Int) = (target / BUFFER_SIZE : Nat) := by
      have hlt : target / BUFFER_SIZE < 0x80000000 := by
        unfold BUFFER_SIZE at *
        omega
      generalize target / BUFFER_SIZE = index at hlt
      rw [toInt32_of_lt] <;> omega
    rw [hindex, switchCurrentBuffer]
    simp only [RAMFile.numBuffers, Bool.false_eq_true, if_false]
    generalize hk : target / BUFFER_SIZE = k at hdiv
    by_cases hbehind : s.file.buffers.length ≤ k
    · rw [if_pos (by exact_mod_cast hbehind)]
      refine ⟨_, rfl, ⟨h.holds, hlength, ?_⟩⟩
      have hend : BUFFER_SIZE * s.file.buffers.length ≤ target := by
        have hmul := Nat.mul_le_mul_left BUFFER_SIZE hbehind
        omega
      rw [At, RAMFile.numBuffers]
      dsimp only
      cases hbuffer : s.currentBuffer with
      | none =>
          rw [hbuffer] at hposition
          obtain ⟨hstart, hzero, -⟩ := hposition
          exact ⟨hstart, hzero, Or.inr ⟨by omega, by omega⟩⟩
      | some j =>
          rw [hbuffer] at hposition
          obtain ⟨hj, hstart, hvalid, -, -⟩ := hposition
          obtain ⟨-, hbytes⟩ := hcurrent (by rw [hbuffer]; exact Option.some_ne_none j)
          have hshort : s.bufferLength ≤ (target % BUFFER_SIZE : Nat) := by
            rcases hbytes with hlt | hshort
            · omega
            · exact hshort
          have hreach : s.length ≤ BUFFER_SIZE * j + BUFFER_SIZE := by
            by_contra hmore
            rw [validLength, if_pos (by omega)] at hvalid
            omega
          exact ⟨hj, hstart, hvalid, hmod.le, Or.inr ⟨by omega, hshort, hreach, by omega⟩⟩
    · rw [if_neg (by exact_mod_cast hbehind), if_neg (by omega)]
      refine ⟨_, rfl, ⟨h.holds, hlength, ?_⟩⟩
      rw [At]
      dsimp only
      rw [Int.toNat_natCast]
      exact ⟨by omega, rfl, rfl, hmod.le, Or.inl ⟨hdiv.symm, Or.inl rfl⟩⟩
  · rw [if_neg hswitch]
    rw [not_or, not_or, not_lt, not_le] at hswitch
    obtain ⟨hsome, hge, hlt⟩ := hswitch
    obtain ⟨hin, -⟩ := hcurrent hsome
    obtain ⟨hge', hlt'⟩ := hin hge hlt
    refine ⟨_, rfl, ⟨h.holds, hlength, ?_⟩⟩
    rw [At, RAMFile.numBuffers]
    dsimp only
    cases hbuffer : s.currentBuffer with
    | none => exact absurd hbuffer hsome
    | some k =>
        rw [hbuffer] at hposition
        obtain ⟨hk, hstart, hvalid, -, hwhere⟩ := hposition
        have hk' : target / BUFFER_SIZE = k := by
          unfold BUFFER_SIZE at *
          omega
        refine ⟨hk, hstart, hvalid, hmod.le, Or.inl ⟨by rw [← hk']; exact hdiv.symm, ?_⟩⟩
        rcases hwhere with ⟨-, hindex⟩ | ⟨-, -, hreach, hlast⟩
        · exact hindex
        · exact Or.inr ⟨hreach, hlast⟩

theorem simulates (bytes : List UInt8) : Traces.Simulates step Safe (Step bytes) fun s pos => s.Reads bytes pos := by
  intro s pos op h hsafe
  cases op with
  | readByte => exact readByte_spec h hsafe
  | readBytes length =>
      obtain ⟨s', ⟨hin, hok, hreads⟩ | ⟨pos', hpositive, hout, hle, hle', herror, hreads⟩⟩ :=
        readBytesLoop_spec (show length ≤ length + s.file.buffers.length + 1 by omega) h hsafe
      · refine ⟨pos + length, ?_, ?_⟩
        · rw [step, readBytes, hok]
          exact .readBytes hin
        · rw [step, readBytes, hok]
          exact hreads
      · refine ⟨pos', ?_, ?_⟩
        · rw [step, readBytes, herror]
          exact .readBytesEnd hpositive hout hle hle'
        · rw [step, readBytes, herror]
          exact hreads
  | seek target =>
      obtain ⟨s', hok, hreads⟩ := seek_spec h hsafe
      refine ⟨target, ?_, ?_⟩
      · rw [step, hok]
        exact .seek
      · rw [step, hok]
        exact hreads

end Correctness

end RAMInputStream

end LucenePlusPlus
