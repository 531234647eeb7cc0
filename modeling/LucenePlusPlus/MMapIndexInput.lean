import LucenePlusPlus.SimpleFSIndexInput

/-!
`MMapIndexInput`: an input over a file that is mapped into memory, and its clones. The bytes are taken from the mapping without a
look at its end; a read beyond it is undefined, and raises nothing.
-/

namespace LucenePlusPlus

/-- `_length` and the next byte to read, both an `int32_t`. -/
structure MMapIndexInput where
  length : Int
  bufferPosition : Int

namespace MMapIndexInput
open BufferedIndexInput (Outcome Position Cursor Cursors Inputs)

inductive Op where
  | readByte
  | readBytes (length : Nat)
  | seek (pos : Int)
  | getFilePointer

inductive Call where
  | on (i : Nat) (op : Op)
  | clone (i : Nat)

section Operations
variable (file : List UInt8) (s : MMapIndexInput)

/-- So many bytes of the mapping, from a position on. -/
def slice (position : Int) (count : Nat) : Option (List UInt8) :=
  if count = 0 then some []
  else if 0 ≤ position ∧ position + count ≤ file.length then some ((file.drop position.toNat).take count)
  else none

/-- What is not in the mapping is undefined. -/
def answer : Option (List UInt8) → Outcome
  | some b => .plain (.bytes b)
  | none => .plain .fault

def readByte : Outcome × MMapIndexInput :=
  (answer (slice file s.bufferPosition 1), { s with bufferPosition := toInt32 (s.bufferPosition + 1) })

def readBytes (length : Nat) : Outcome × MMapIndexInput :=
  (answer (slice file s.bufferPosition length), { s with bufferPosition := toInt32 (s.bufferPosition + length) })

def seek (pos : Int) : MMapIndexInput := { s with bufferPosition := toInt32 pos }

def step : Op → Outcome × MMapIndexInput
  | .readByte => readByte file s
  | .readBytes length => readBytes file s length
  | .seek pos => (.plain .done, s.seek pos)
  | .getFilePointer => (.position s.bufferPosition, s)

end Operations

/-- An input and its clones over one mapping. -/
structure Mapped where
  file : List UInt8
  inputs : List MMapIndexInput

/-- A clone has the length and the position of the input that it is a clone of. -/
def Mapped.step (mapped : Mapped) : Call → Outcome × Mapped
  | .on i op =>
      match mapped.inputs[i]? with
      | none => (.plain .fault, mapped)
      | some s => ((MMapIndexInput.step mapped.file s op).1, { mapped with inputs := mapped.inputs.set i (MMapIndexInput.step mapped.file s op).2 })
  | .clone i =>
      match mapped.inputs[i]? with
      | none => (.plain .fault, mapped)
      | some s => (.plain .done, { mapped with inputs := mapped.inputs ++ [s] })

/-- The constructor: nothing is the `FileNotFoundException` where `mapped_file_source::open` throws. -/
def openMapped (mapFile : List UInt8 → Int → Option (List UInt8)) (bytes : List UInt8) : Option Mapped :=
  (mapFile bytes (toInt32 bytes.length)).map fun file => ⟨file, [⟨toInt32 bytes.length, 0⟩]⟩

/-- As many bytes of a file can be mapped as it has. -/
def MapsFiles (mapFile : List UInt8 → Int → Option (List UInt8)) : Prop :=
  ∀ bytes (n : Nat), 0 < n → n ≤ bytes.length → mapFile bytes n = some (bytes.take n)

/-- No byte behind the end is read, and positions are an `int32_t`. -/
def Within (fileLength : Nat) (s : MMapIndexInput) : Op → Prop
  | .readByte => 0 ≤ s.bufferPosition ∧ s.bufferPosition < fileLength
  | .readBytes length => length = 0 ∨ 0 ≤ s.bufferPosition ∧ s.bufferPosition + length ≤ fileLength
  | .seek pos => 0 ≤ pos ∧ pos < 0x80000000
  | .getFilePointer => True

def Mapped.Within (fileLength : Nat) (mapped : Mapped) : Call → Prop
  | .on i op => ∃ s, mapped.inputs[i]? = some s ∧ MMapIndexInput.Within fileLength s op
  | .clone i => i < mapped.inputs.length

/-- The same call of a `SimpleFSIndexInput`. -/
def Op.buffered : Op → BufferedIndexInput.Op
  | .readByte => .readByte
  | .readBytes length => .readBytes length true
  | .seek pos => .seek pos
  | .getFilePointer => .getFilePointer

def Call.buffered : Call → BufferedIndexInput.Call
  | .on i op => .on i op.buffered
  | .clone i => .clone i

variable {bytes : List UInt8} {pos pos' pos'' : Nat} {wide : ∀ w, UInt8 → Nat → BitVec w} {s : MMapIndexInput} {op : Op}
  {o o' : Outcome}

/-- The input is where the cursor is. -/
structure At (bytes : List UInt8) (s : MMapIndexInput) (position : Position) : Prop where
  bytes_eq : position.1 = bytes
  pos_eq : s.bufferPosition = position.2
  length_eq : s.length = bytes.length
  small : position.2 < 0x80000000

theorem slice_eq {count : Nat} (h : count = 0 ∨ pos + count ≤ bytes.length) :
    slice bytes pos count = some ((bytes.drop pos).take count) := by
  rw [slice]
  by_cases hzero : count = 0
  · rw [if_pos hzero, hzero, List.take_zero]
  · rw [if_neg hzero, if_pos (by omega), Int.toNat_natCast]

theorem step_spec (hlength : bytes.length < 0x80000000) (h : At bytes s (bytes, pos)) (hop : Within bytes.length s op) :
    ∃ pos', Cursor wide bytes pos op.buffered (step bytes s op).1 pos' ∧ At bytes (step bytes s op).2 (bytes, pos') := by
  obtain ⟨-, hpos, hlen, hsmall⟩ := h
  dsimp only at hpos hsmall
  cases op with
  | readByte =>
      obtain ⟨-, hlt⟩ := hop
      have hin : pos < bytes.length := by omega
      have hbyte : (bytes.drop pos).take 1 = [bytes[pos]] := by
        rw [List.drop_eq_getElem_cons hin]
        rfl
      refine ⟨pos + 1, ⟨.bytes [bytes[pos]], ?_, .readByte hin⟩, rfl, ?_, hlen, ?_⟩
      · rw [step, readByte, hpos, slice_eq (.inr (by omega)), hbyte]
        rfl
      · dsimp only [step, readByte]
        rw [hpos, toInt32_of_lt (by omega) (by omega)]
        push_cast
        rfl
      · dsimp only
        omega
  | readBytes length =>
      have hin : length = 0 ∨ pos + length ≤ bytes.length := by
        rcases hop with hzero | ⟨-, hle⟩
        · exact .inl hzero
        · exact .inr (by omega)
      refine ⟨pos + length, ⟨.bytes ((bytes.drop pos).take length), ?_, .readBytes hin⟩, rfl, ?_, hlen, ?_⟩
      · rw [step, readBytes, hpos, slice_eq hin]
        rfl
      · dsimp only [step, readBytes]
        rw [hpos, toInt32_of_lt (by omega) (by omega)]
        push_cast
        rfl
      · dsimp only
        omega
  | seek target =>
      obtain ⟨hnonneg, hlt⟩ := hop
      refine ⟨target.toNat, ⟨hnonneg, rfl, rfl⟩, rfl, ?_, hlen, ?_⟩
      · dsimp only [step, seek]
        rw [toInt32_of_lt (by omega) hlt, Int.toNat_of_nonneg hnonneg]
      · dsimp only
        omega
  | getFilePointer => exact ⟨pos, ⟨by rw [step, hpos], rfl⟩, rfl, hpos, hlen, hsmall⟩

theorem cursor_unique (h : At bytes s (bytes, pos)) (hop : Within bytes.length s op) (hcursor : Cursor wide bytes pos op.buffered o pos')
    (hcursor' : Cursor wide bytes pos op.buffered o' pos'') : o = o' ∧ pos' = pos'' := by
  have hpos := h.pos_eq
  dsimp only at hpos
  cases op with
  | readByte =>
      have hlt := hop.2
      obtain ⟨_, rfl, hstep⟩ := hcursor
      obtain ⟨_, rfl, hstep'⟩ := hcursor'
      cases hstep with
      | readByte _ =>
          cases hstep' with
          | readByte _ => exact ⟨rfl, rfl⟩
          | readByteEnd hend => omega
      | readByteEnd hend => omega
  | readBytes length =>
      obtain ⟨_, rfl, hstep⟩ := hcursor
      obtain ⟨_, rfl, hstep'⟩ := hcursor'
      have hin : ¬ (0 < length ∧ bytes.length < pos + length) := by
        rcases hop with hzero | ⟨-, hle⟩ <;> omega
      cases hstep with
      | readBytes _ =>
          cases hstep' with
          | readBytes _ => exact ⟨rfl, rfl⟩
          | readBytesEnd hpositive hend _ _ => exact absurd ⟨hpositive, hend⟩ hin
      | readBytesEnd hpositive hend _ _ => exact absurd ⟨hpositive, hend⟩ hin
  | seek target =>
      obtain ⟨-, rfl, rfl⟩ := hcursor
      obtain ⟨-, rfl, rfl⟩ := hcursor'
      exact ⟨rfl, rfl⟩
  | getFilePointer =>
      obtain ⟨rfl, rfl⟩ := hcursor
      obtain ⟨rfl, rfl⟩ := hcursor'
      exact ⟨rfl, rfl⟩

/-! ### Beside a `SimpleFSIndexInput` -/

open SimpleFSIndexInput (ChunksFit Ready device simulates_cursors opened opened_are runCalls)

section Agreement
variable {chunkSize bufferSize : Int} {mapped : Mapped} {simple : Inputs InputFile Unit} {positions : List Position}

theorem safe_buffered (hlength : bytes.length < 0x80000000) (hchunk : ∀ n : Nat, n < 0x80000000 → ChunksFit chunkSize n)
    (h : At bytes s (bytes, pos)) (hop : Within bytes.length s op) {b : BufferedIndexInput} (hb : b.Reads bytes pos) :
    BufferedIndexInput.Safe (ChunksFit chunkSize) bytes.length b op.buffered := by
  have hpos := h.pos_eq
  have hsmall := h.small
  have hsize := hb.bufferSize_lt
  dsimp only at hpos hsmall
  have hrefill : BufferedIndexInput.SafeRefill (ChunksFit chunkSize) bytes.length b := by
    refine ⟨fun hlt => ?_, fun n _ hle _ => hchunk n (by omega)⟩
    rw [hb.pointer] at hlt ⊢
    rw [toInt32_of_lt (by omega) (by omega)]
    omega
  cases op with
  | readByte => exact hrefill
  | readBytes length =>
      have hle : length < 0x80000000 := by
        rcases hop with hzero | ⟨hnonneg, hle⟩ <;> omega
      refine ⟨hle, fun _ => ?_⟩
      split
      · exact hrefill
      · exact hchunk _ (by omega)
  | seek target =>
      obtain ⟨hnonneg, hlt⟩ := hop
      exact ⟨hnonneg, by omega⟩
  | getFilePointer => trivial

/-- The inputs over the mapping and those over the file are at the same positions. -/
structure Agree (bytes : List UInt8) (mapped : Mapped) (simple : Inputs InputFile Unit) (positions : List Position) : Prop where
  file_eq : mapped.file = bytes
  at_positions : List.Forall₂ (At bytes) mapped.inputs positions
  are : Inputs.Are (Ready bytes) (fun _ content => content = bytes) simple positions

theorem Agree.step (memory : Nat → UInt8) (wide : ∀ w, UInt8 → Nat → BitVec w) (h : Agree bytes mapped simple positions)
    (hlength : bytes.length < 0x80000000) (hchunk : ∀ n : Nat, n < 0x80000000 → ChunksFit chunkSize n) {call : Call}
    (hcall : mapped.Within bytes.length call) :
    ∃ positions', Cursors wide positions call.buffered (mapped.step call).1 positions' ∧
      (mapped.step call).1 = (Inputs.step memory wide (device chunkSize) id simple call.buffered).1 ∧
      Agree bytes (mapped.step call).2 (Inputs.step memory wide (device chunkSize) id simple call.buffered).2 positions' := by
  have hsimulates := simulates_cursors memory wide chunkSize (show (bytes.length : Int) ≤ 0x7fffffff00000000 by omega)
  obtain ⟨rfl, hat, hare⟩ := h
  cases call with
  | on i op =>
      obtain ⟨s, hs, hop⟩ := hcall
      obtain ⟨⟨content, pos⟩, hposition, hs_at⟩ := BufferedIndexInput.forall₂_getElem? hat hs
      obtain rfl := hs_at.bytes_eq
      obtain ⟨⟨b, own⟩, hb, hown, hreads⟩ := BufferedIndexInput.forall₂_getElem? hare.2.flip hposition
      have hsafe : Inputs.SafeCall (device chunkSize) (ChunksFit chunkSize) simple (Call.on i op).buffered := by
        refine ⟨b, own, hb, ?_⟩
        have hdevice : ((device chunkSize).length (simple.file, own)).toNat = mapped.file.length := by
          rw [← hare.1.1]
          exact Int.toNat_natCast _
        rw [hdevice]
        exact safe_buffered hlength hchunk hs_at hop hreads
      obtain ⟨positions', ⟨content', pos₁, pos', hposition', hcursor, rfl⟩, hare'⟩ := hsimulates simple positions _ hare hsafe
      rw [hposition] at hposition'
      cases hposition'
      obtain ⟨pos'', hcursor', hat'⟩ := @step_spec _ _ wide _ _ hlength hs_at hop
      obtain ⟨hanswer, rfl⟩ := cursor_unique hs_at hop hcursor' hcursor
      have hstep : mapped.step (.on i op) = ((MMapIndexInput.step mapped.file s op).1,
          { mapped with inputs := mapped.inputs.set i (MMapIndexInput.step mapped.file s op).2 }) := by
        rw [Mapped.step, hs]
      rw [hstep]
      exact ⟨_, ⟨mapped.file, pos, pos'', hposition, hcursor', rfl⟩, hanswer, rfl, BufferedIndexInput.forall₂_set hat hat' i, hare'⟩
  | clone i =>
      obtain ⟨s, hs⟩ : ∃ s, mapped.inputs[i]? = some s := ⟨_, List.getElem?_eq_getElem hcall⟩
      obtain ⟨position, hposition, hs_at⟩ := BufferedIndexInput.forall₂_getElem? hat hs
      have hsafe : Inputs.SafeCall (device chunkSize) (ChunksFit chunkSize) simple (Call.clone i).buffered :=
        lt_of_lt_of_eq hcall (hat.length_eq.trans hare.2.length_eq.symm)
      obtain ⟨positions', ⟨position', hposition', hanswer, rfl⟩, hare'⟩ := hsimulates simple positions _ hare hsafe
      rw [hposition] at hposition'
      cases hposition'
      have hstep : mapped.step (.clone i) = (.plain .done, { mapped with inputs := mapped.inputs ++ [s] }) := by
        rw [Mapped.step, hs]
      rw [hstep]
      exact ⟨_, ⟨position, hposition, rfl, rfl⟩, hanswer.symm, rfl, List.rel_append hat (.cons hs_at .nil), hare'⟩

theorem Agree.run (memory : Nat → UInt8) (wide : ∀ w, UInt8 → Nat → BitVec w) (h : Agree bytes mapped simple positions)
    (hlength : bytes.length < 0x80000000) (hchunk : ∀ n : Nat, n < 0x80000000 → ChunksFit chunkSize n) {calls : List Call}
    (hcalls : Traces.Legal Mapped.step (Mapped.Within bytes.length) mapped calls) :
    Traces.Allows (Cursors wide) positions (calls.map Call.buffered) (Traces.run Mapped.step mapped calls).1 ∧
      (Traces.run Mapped.step mapped calls).1 =
        (Traces.run (Inputs.step memory wide (device chunkSize) id) simple (calls.map Call.buffered)).1 ∧
      ∃ simple' positions', Agree bytes (Traces.run Mapped.step mapped calls).2 simple' positions' := by
  induction calls generalizing mapped simple positions with
  | nil => exact ⟨trivial, rfl, simple, positions, h⟩
  | cons call calls ih =>
      obtain ⟨positions', hcursor, hanswer, hagree⟩ := h.step memory wide hlength hchunk hcalls.1
      obtain ⟨hallows, hanswers, hend⟩ := ih hagree hcalls.2
      refine ⟨⟨positions', hcursor, hallows⟩, ?_, hend⟩
      simp only [Traces.run, List.map_cons]
      rw [hanswer, hanswers]

end Agreement

/-- A file that is not empty and shorter than 2 to the 31st is mapped; calls within the file then get the bytes of the file at the
position of each input, and the same answers as those of a `SimpleFSIndexInput`. -/
theorem mapped_is_cursor (memory : Nat → UInt8) (wide : ∀ w, UInt8 → Nat → BitVec w)
    {mapFile : List UInt8 → Int → Option (List UInt8)} (hmap : MapsFiles mapFile) {chunkSize bufferSize : Int} (hpositive : 0 < bufferSize)
    (hlt : bufferSize < 0x80000000) (hchunk : ∀ n : Nat, n < 0x80000000 → ChunksFit chunkSize n) {bytes : List UInt8}
    (hne : 0 < bytes.length) (hlength : bytes.length < 0x80000000) :
    ∃ mapped, openMapped mapFile bytes = some mapped ∧
      ∀ calls, Traces.Legal Mapped.step (Mapped.Within bytes.length) mapped calls →
        Traces.Allows (Cursors wide) [(bytes, 0)] (calls.map Call.buffered) (Traces.run Mapped.step mapped calls).1 ∧
        (Traces.run Mapped.step mapped calls).1 = (runCalls memory wide chunkSize bufferSize bytes (calls.map Call.buffered)).1 ∧
        ∀ s ∈ (Traces.run Mapped.step mapped calls).2.inputs, s.length = bytes.length := by
  have hint : toInt32 bytes.length = bytes.length := toInt32_of_lt (by omega) (by omega)
  refine ⟨⟨bytes, [⟨bytes.length, 0⟩]⟩, ?_, fun calls hcalls => ?_⟩
  · rw [openMapped, hint, hmap bytes bytes.length hne le_rfl, List.take_length]
    rfl
  · have hagree : Agree bytes ⟨bytes, [⟨bytes.length, 0⟩]⟩ (opened bufferSize bytes) [(bytes, 0)] :=
      ⟨rfl, .cons ⟨rfl, rfl, rfl, show 0 < 0x80000000 by decide⟩ .nil, opened_are hpositive hlt⟩
    obtain ⟨hallows, hanswers, simple', positions', hend⟩ := hagree.run memory wide hlength hchunk hcalls
    refine ⟨hallows, hanswers, fun s hs => ?_⟩
    obtain ⟨i, hi⟩ := List.getElem?_of_mem hs
    obtain ⟨position, -, hs_at⟩ := BufferedIndexInput.forall₂_getElem? hend.at_positions hi
    exact hs_at.length_eq

/-- A part of a file is mapped if the file has it, and if it is not empty. -/
def mapPart (bytes : List UInt8) (n : Int) : Option (List UInt8) :=
  if 0 < n ∧ n ≤ bytes.length then some (bytes.take n.toNat) else none

theorem mapsFiles_mapPart : MapsFiles mapPart := by
  intro bytes n hpos hle
  rw [mapPart, if_pos ⟨by omega, by omega⟩, Int.toNat_natCast]

theorem chunksFit_of_lt {n : Nat} (h : n < 0x80000000) : ChunksFit 0x7fffffff n := by
  refine ⟨by decide, fun k hk => ?_⟩
  obtain rfl : k = 0 := by omega
  decide

/-- The byte is read by the input, and once more by its clone. -/
theorem mapped_is_cursor_one_byte :
    ∃ mapped, openMapped mapPart [7] = some mapped ∧
      (Traces.run Mapped.step mapped [.clone 0, .on 0 .readByte, .on 1 .readByte]).1 =
        (runCalls (fun _ => 0) (fun _ _ _ => 0) 0x7fffffff 16 [7] [.clone 0, .on 0 .readByte, .on 1 .readByte]).1 := by
  obtain ⟨mapped, hopen, hruns⟩ := mapped_is_cursor (fun _ => 0) (fun _ _ _ => 0) mapsFiles_mapPart (show (0 : Int) < 16 by decide)
    (by decide) (fun n hn => chunksFit_of_lt hn) (show 0 < [(7 : UInt8)].length by decide) (by decide)
  cases hopen
  refine ⟨_, rfl, (hruns [.clone 0, .on 0 .readByte, .on 1 .readByte] ⟨?_, ?_, ?_, trivial⟩).2.1⟩
  · exact Nat.one_pos
  · exact ⟨_, rfl, by decide, by decide⟩
  · exact ⟨_, rfl, by decide, by decide⟩

/-- The read behind the end is not answered by an end of file. -/
theorem read_past_mapping : MapsFiles mapPart ∧ ∃ mapped, openMapped mapPart [7] = some mapped ∧
    ¬ Traces.Allows (Cursors fun _ _ _ => 0) [([7], 0)] [.on 0 .readByte, .on 0 .readByte]
        (Traces.run Mapped.step mapped [.on 0 .readByte, .on 0 .readByte]).1 ∧
    (runCalls (fun _ => 0) (fun _ _ _ => 0) 0x7fffffff 16 [7] [.on 0 .readByte, .on 0 .readByte]).1 =
      [.plain (.bytes [7]), .plain .endOfFile] := by
  refine ⟨mapsFiles_mapPart, ⟨[7], [⟨1, 0⟩]⟩, rfl, ?_, by decide⟩
  have hanswers : (Traces.run Mapped.step ⟨[7], [⟨1, 0⟩]⟩ [.on 0 .readByte, .on 0 .readByte]).1 =
      [.plain (.bytes [7]), .plain .fault] := by decide
  rw [hanswers]
  rintro ⟨positions, -, positions', ⟨bytes, pos, pos', -, ⟨o, hanswer, hstep⟩, -⟩, -⟩
  cases hanswer
  cases hstep

end MMapIndexInput
end LucenePlusPlus
