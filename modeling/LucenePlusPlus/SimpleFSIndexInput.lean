import LucenePlusPlus.BufferedCursor

/-!
`SimpleFSIndexInput`: a buffered stream and its clones read from one `InputFile`, chunk by chunk. The flags of the
`ifstream` stay set when it has run into the end of the file.
-/

namespace LucenePlusPlus

/-- The file, the `position` that is kept beside the stream, and where the stream is. -/
structure InputFile where
  bytes : List UInt8
  position : Int
  offset : Nat
  eof : Bool
  fail : Bool

namespace InputFile

def new (bytes : List UInt8) : InputFile := ⟨bytes, 0, 0, false, false⟩

/-- `seekg` clears the flag of the end, and does nothing more on a stream that has failed. The first component
says that the stream is good. -/
def setPosition (file : InputFile) (position : Int) : Bool × InputFile :=
  if file.fail then (false, { file with position := position, eof := false })
  else if position < 0 then (false, { file with position := position, eof := false, fail := true })
  else (true, { file with position := position, eof := false, offset := position.toNat })

/-- Nothing is `FILE_EOF`. -/
def read (file : InputFile) (length : Nat) : Option (List UInt8) × InputFile :=
  if file.eof then (none, file)
  else if file.fail then (some [], file)
  else
    let b := (file.bytes.drop file.offset).take length
    (some b, { file with
      position := file.position + b.length
      offset := file.offset + b.length
      eof := b.length < length
      fail := b.length < length })

end InputFile

namespace SimpleFSIndexInput
open BufferedIndexInput

/-- The loop of `readInternal`. A read that gives no byte is made again. -/
def readChunks (chunkSize : Int) (length : Nat) : Nat → Nat → InputFile → (List UInt8 × Option InputError) × InputFile
  | 0, _, file => (([], some .undefined), file)
  | fuel + 1, total, file =>
      if length ≤ total then (([], none), file)
      else
        match file.read (if toInt32 (total + chunkSize) > length then length - total else chunkSize.toNat) with
        | (none, file) => (([], some .readPastEOF), file)
        | (some b, file) =>
            match readChunks chunkSize length fuel (total + b.length) file with
            | ((rest, error), file) => ((b ++ rest, error), file)

def readInternal (chunkSize : Int) (file : InputFile) (position : Int) (length : Nat) :
    (List UInt8 × Option InputError) × InputFile :=
  if position ≠ file.position then
    match file.setPosition position with
    | (false, file) => (([], some .io), file)
    | (true, file) => readChunks chunkSize length (length + 2) 0 file
  else readChunks chunkSize length (length + 2) 0 file

/-- A stream has nothing of its own beside its buffer. -/
def device (chunkSize : Int) : Device (InputFile × Unit) where
  length file := file.1.bytes.length
  readInternal file position length :=
    ((readInternal chunkSize file.1 position length).1, (readInternal chunkSize file.1 position length).2, ())

/-- The number of bytes of whole chunks stays an `int32_t`. -/
def ChunksFit (chunkSize : Int) (length : Nat) : Prop :=
  0 < chunkSize ∧ ∀ k : Nat, k * chunkSize < length → k * chunkSize + chunkSize < 0x80000000

/-- The stream is good, and is where `position` says. -/
def Ready (bytes : List UInt8) (file : InputFile) : Prop :=
  file.bytes = bytes ∧ file.position = file.offset ∧ file.eof = false ∧ file.fail = false

section Correctness
variable {chunkSize : Int} {bytes : List UInt8} {file : InputFile} {length : Nat}

theorem read_spec (hready : Ready bytes file) (hin : file.offset + length ≤ bytes.length) :
    ∃ file', file.read length = (some ((bytes.drop file.offset).take length), file') ∧ Ready bytes file' ∧
      file'.offset = file.offset + length := by
  obtain ⟨rfl, hposition, heof, hfail⟩ := hready
  have hlength : ((file.bytes.drop file.offset).take length).length = length := by
    rw [List.length_take, List.length_drop]
    omega
  rw [InputFile.read, heof, hfail]
  dsimp only [Bool.false_eq_true, if_false]
  rw [hlength]
  refine ⟨_, rfl, ⟨rfl, ?_, ?_, ?_⟩, rfl⟩
  · dsimp only
    rw [hposition, Nat.cast_add]
  · exact decide_eq_false (lt_irrefl _)
  · exact decide_eq_false (lt_irrefl _)

theorem readChunks_spec {fuel total : Nat} (hfits : ChunksFit chunkSize length) (hready : Ready bytes file)
    (htotal : total = length ∨ total < length ∧ ∃ k : Nat, (total : Int) = k * chunkSize)
    (hin : file.offset + (length - total) ≤ bytes.length) (hfuel : length - total < fuel) :
    ∃ file', readChunks chunkSize length fuel total file =
        (((bytes.drop file.offset).take (length - total), none), file') ∧ Ready bytes file' := by
  induction fuel generalizing file total with
  | zero => exact absurd hfuel (Nat.not_lt_zero _)
  | succ fuel ih =>
      rcases htotal with rfl | ⟨hlt, k, hk⟩
      · rw [readChunks, if_pos le_rfl, Nat.sub_self, List.take_zero]
        exact ⟨file, rfl, hready⟩
      · obtain ⟨hpositive, hfit⟩ := hfits
        have hnext := hfit k (by rw [← hk]; exact_mod_cast hlt)
        rw [← hk] at hnext
        rw [readChunks, if_neg (not_le.mpr hlt), toInt32_of_lt (by omega) hnext]
        obtain ⟨count, hcount⟩ : ∃ count, count =
          if (total : Int) + chunkSize > length then length - total else chunkSize.toNat := ⟨_, rfl⟩
        have hchunk : count = length - total ∨ (count : Int) = chunkSize ∧ total + chunkSize ≤ length := by
          rw [hcount]
          split <;> omega
        rw [← hcount]
        clear hcount
        obtain ⟨file₁, hread, hready₁, hoffset⟩ := read_spec hready (show file.offset + count ≤ bytes.length by omega)
        have hlength : ((bytes.drop file.offset).take count).length = count := by
          rw [List.length_take, List.length_drop]
          omega
        have hin₁ : file₁.offset + (length - (total + count)) ≤ bytes.length := by omega
        have hfuel₁ : length - (total + count) < fuel := by omega
        have hsplit : count + (length - (total + count)) = length - total := by omega
        have htotal₁ : total + count = length ∨
            total + count < length ∧ ∃ k : Nat, ((total + count : Nat) : Int) = k * chunkSize := by
          by_cases hlast : total + count = length
          · exact Or.inl hlast
          · rcases hchunk with hrest | ⟨hchunk, hle⟩
            · omega
            · refine Or.inr ⟨by omega, k + 1, ?_⟩
              rw [Nat.cast_add, hk, hchunk, Nat.cast_add, Nat.cast_one, add_mul, one_mul]
        obtain ⟨file', hrest, hready'⟩ := ih hready₁ htotal₁ hin₁ hfuel₁
        rw [hread]
        dsimp only
        rw [hlength, hrest, hoffset]
        refine ⟨file', ?_, hready'⟩
        rw [← List.drop_drop, ← List.take_add, hsplit]

theorem serves (chunkSize : Int) (hsmall : (bytes.length : Int) ≤ 0x7fffffff00000000) :
    (device chunkSize).Serves (ChunksFit chunkSize) (fun file => Ready bytes file.1) bytes := by
  refine ⟨fun _ _ => hsmall, fun file hready => congrArg (fun b : List UInt8 => (b.length : Int)) hready.1, ?_⟩
  rintro ⟨file, own⟩ p n hready hpos hin hfits
  dsimp only at hready
  have hchunks : ∀ file : InputFile, Ready bytes file → file.offset = p →
      ∃ file', readChunks chunkSize n (n + 2) 0 file = (((bytes.drop p).take n, none), file') ∧
        Ready bytes file' := by
    rintro file hready rfl
    exact readChunks_spec hfits hready (Or.inr ⟨hpos, 0, by rw [Nat.cast_zero, zero_mul]⟩) hin (by omega)
  suffices h : ∃ file', readInternal chunkSize file p n = (((bytes.drop p).take n, none), file') ∧
      Ready bytes file' by
    obtain ⟨file', hread, hready'⟩ := h
    refine ⟨(file', ()), ?_, hready'⟩
    dsimp only [device]
    rw [hread]
  rw [readInternal]
  obtain ⟨hbytes, hposition, heof, hfail⟩ := hready
  by_cases hmoved : (p : Int) = file.position
  · rw [if_neg (not_not.mpr hmoved)]
    exact hchunks file ⟨hbytes, hposition, heof, hfail⟩ (by omega)
  · rw [if_pos hmoved, InputFile.setPosition, hfail, if_neg Bool.false_ne_true, if_neg (by omega)]
    exact hchunks _ ⟨hbytes, rfl, rfl, rfl⟩ rfl

end Correctness

section Streams
variable (memory : Nat → UInt8) (wide : ∀ w, UInt8 → Nat → BitVec w) (chunkSize bufferSize : Int)
  (bytes : List UInt8)

/-- A stream that has just been opened. -/
def opened : Inputs InputFile Unit := ⟨InputFile.new bytes, [(BufferedIndexInput.new bufferSize, ())]⟩

/-- Calls of a stream and of its clones, each of them safe where it is made. -/
def SafeCalls (calls : List Call) : Prop :=
  Traces.Legal (Inputs.step memory wide (device chunkSize) id) (Inputs.SafeCall (device chunkSize) (ChunksFit chunkSize))
    (opened bufferSize bytes) calls

/-- The answers to the calls, and the streams then. -/
def runCalls (calls : List Call) : List Outcome × Inputs InputFile Unit :=
  Traces.run (Inputs.step memory wide (device chunkSize) id) (opened bufferSize bytes) calls

variable {chunkSize bufferSize bytes}

theorem opened_are (hpositive : 0 < bufferSize) (hlt : bufferSize < 0x80000000) :
    Inputs.Are (Ready bytes) (fun _ content => content = bytes) (opened bufferSize bytes) [(bytes, 0)] :=
  ⟨⟨rfl, rfl, rfl, rfl⟩, .cons ⟨rfl, new_reads hpositive hlt⟩ .nil⟩

end Streams

theorem simulates_cursors (memory : Nat → UInt8) (wide : ∀ w, UInt8 → Nat → BitVec w) (chunkSize : Int) {bytes : List UInt8}
    (hsmall : (bytes.length : Int) ≤ 0x7fffffff00000000) :
    Traces.Simulates (Inputs.step memory wide (device chunkSize) id) (Inputs.SafeCall (device chunkSize) (ChunksFit chunkSize))
      (Cursors wide) (Inputs.Are (Ready bytes) (fun _ content => content = bytes)) := by
  have hserves : ∀ content, (device chunkSize).Serves (ChunksFit chunkSize)
      (fun file => Ready bytes file.1 ∧ content = bytes) content := by
    refine fun content => ⟨fun _ ⟨_, heq⟩ => heq ▸ hsmall, ?_, ?_⟩
    · rintro file ⟨hready, rfl⟩
      exact (serves chunkSize hsmall).length file hready
    · rintro file p n ⟨hready, rfl⟩ hpos hin hfits
      obtain ⟨file', hread, hready'⟩ := (serves chunkSize hsmall).read file p n hready hpos hin hfits
      exact ⟨file', hread, hready', rfl⟩
  exact @simulates _ _ _ id memory wide _ (Ready bytes) (fun _ content => content = bytes) hserves fun _ _ hown => hown

/-- A stream on a file and its clones are cursors over the bytes of the file, whatever the size of the buffer: in
every run of safe calls, they answer what cursors answer, and none is ever beyond the valid part of its buffer. -/
theorem buffered_is_cursor (memory : Nat → UInt8) (wide : ∀ w, UInt8 → Nat → BitVec w)
    {chunkSize bufferSize : Int} {bytes : List UInt8} {calls : List Call} (hpositive : 0 < bufferSize)
    (hlt : bufferSize < 0x80000000) (hsmall : (bytes.length : Int) ≤ 0x7fffffff00000000)
    (hsafe : SafeCalls memory wide chunkSize bufferSize bytes calls) :
    Traces.Allows (Cursors wide) [(bytes, 0)] calls (runCalls memory wide chunkSize bufferSize bytes calls).1 ∧
      ∀ input ∈ (runCalls memory wide chunkSize bufferSize bytes calls).2.inputs,
        input.1.bufferPosition ≤ input.1.bufferLength := by
  have hare := @opened_are bufferSize bytes hpositive hlt
  have hsimulates := simulates_cursors memory wide chunkSize hsmall
  refine ⟨hsimulates.allows hare hsafe, fun input hs => ?_⟩
  obtain ⟨positions, -, hreads⟩ := hsimulates.related hare hsafe
  obtain ⟨i, hi⟩ := List.getElem?_of_mem hs
  obtain ⟨position, -, -, hread⟩ := forall₂_getElem? hreads hi
  exact hread.bufferPosition_le

theorem buffered_is_cursor_three_bytes :
    Traces.Allows (Cursors fun _ _ _ => 0) [([1, 0x81, 2], 0)]
        [.on 0 .readByte, .clone 0, .on 1 .readVInt]
        (runCalls (fun _ => 0) (fun _ _ _ => 0) 1024 2 [1, 0x81, 2]
          [.on 0 .readByte, .clone 0, .on 1 .readVInt]).1 ∧
      ∀ input ∈ (runCalls (fun _ => 0) (fun _ _ _ => 0) 1024 2 [1, 0x81, 2]
          [.on 0 .readByte, .clone 0, .on 1 .readVInt]).2.inputs,
        input.1.bufferPosition ≤ input.1.bufferLength := by
  have hfits : ∀ n : Nat, 0 < n → (n : Int) ≤ 2 → n ≤ 3 → ChunksFit 1024 n := by
    refine fun n _ hn _ => ⟨by decide, fun k hk => ?_⟩
    omega
  have hread : SafeRefill (ChunksFit 1024) 3 (BufferedIndexInput.new 2) :=
    ⟨fun h => absurd h (by decide), hfits⟩
  have hclone : SafeVInt (ChunksFit 1024) 3 ⟨2, 1, 0, 0, none⟩ :=
    ⟨fun h => absurd h (by decide), fun _ => ⟨fun h => absurd h (by decide), hfits⟩⟩
  exact buffered_is_cursor (fun _ => 0) (fun _ _ _ => 0) (by decide) (by decide) (by decide)
    ⟨⟨_, _, rfl, hread⟩, Nat.one_pos, ⟨_, _, rfl, hclone⟩, trivial⟩

/-- Eight bytes that all have the high bit: the number is read from what lies behind them in the buffer. -/
theorem read_beyond_buffer :
    ¬ Traces.Allows (Cursors fun _ _ _ => 0) [(List.replicate 8 0x80, 0)] [.on 0 .readByte, .on 0 .readVInt]
      (runCalls (fun _ => 0) (fun _ _ _ => 0) 1024 16 (List.replicate 8 0x80)
        [.on 0 .readByte, .on 0 .readVInt]).1 := by
  have hanswers : (runCalls (fun _ => 0) (fun _ _ _ => 0) 1024 16 (List.replicate 8 0x80)
      [.on 0 .readByte, .on 0 .readVInt]).1 = [.plain (.bytes [0x80]), .int 0] := by decide
  rw [hanswers]
  rintro ⟨positions, ⟨bytes, pos, pos', hpos, ⟨o, hanswer, hstep⟩, rfl⟩, positions',
    ⟨bytes₁, pos₁, pos₁', hpos₁, hcursor, -⟩, -⟩
  cases hpos
  cases hanswer
  cases hstep
  cases hpos₁
  obtain ⟨o, hint, hend⟩ := hcursor
  obtain ⟨rfl, -⟩ : o = .error .readPastEOF ∧ _ := hend
  cases hint

end SimpleFSIndexInput

end LucenePlusPlus
