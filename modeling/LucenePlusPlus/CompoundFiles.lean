import LucenePlusPlus.CompoundFileReader

/-!
Compound files: what is added under a name is what is read back under it, and nothing of the other sub-files, as
long as the names can be written and the calls of the streams are safe.
-/

namespace LucenePlusPlus
open BufferedIndexInput CompoundFileWriter

namespace CompoundFiles

/-- The compound file of the sources. -/
def write (size : Nat) (sources : List Source) : Except CompoundError (List UInt8) :=
  match addFiles sources with
  | .error e => .error e
  | .ok added =>
      match close size added with
      | .error e => .error e
      | .ok w => .ok (w.bytes.take w.length)

/-- A name that is read back as it was written, from octets that an `int32_t` counts. -/
def Writable (size : Nat) (name : List WChar) : Prop :=
  StringUtils.toUnicode 0 (StringUtils.toUTF8 size name) = name ∧
    (StringUtils.toUTF8 size name).length < 0x80000000

section Streams
variable (memory : Nat → UInt8) (wide : ∀ w, UInt8 → Nat → BitVec w) (chunkSize readBufferSize : Int)

/-- Streams on sub-files that have just been opened by name, each with a clone of the reader's stream. -/
def openAll (reader : List CompoundFileReader.FileEntry) (stream : BufferedIndexInput) (names : List (List WChar)) :
    Except InputError (List (BufferedIndexInput × CSIndexInput.Part)) :=
  names.mapM (CompoundFileReader.openInput reader stream readBufferSize)

/-- Calls of the streams and of their clones, each of them safe where it is made. -/
def SafeCalls (inputs : Inputs InputFile CSIndexInput.Part) (calls : List BufferedIndexInput.Call) : Prop :=
  Traces.Legal (Inputs.step memory wide (CSIndexInput.device memory chunkSize) CSIndexInput.cloneBase)
    (Inputs.SafeCall (CSIndexInput.device memory chunkSize)
      fun n => n < 0x80000000 ∧ SimpleFSIndexInput.ChunksFit chunkSize n)
    inputs calls

def answers (inputs : Inputs InputFile CSIndexInput.Part) (calls : List BufferedIndexInput.Call) : List Outcome :=
  (Traces.run (Inputs.step memory wide (CSIndexInput.device memory chunkSize) CSIndexInput.cloneBase) inputs calls).1

end Streams

section Correctness
variable {memory : Nat → UInt8} {wide : ∀ w, UInt8 → Nat → BitVec w} {chunkSize readBufferSize : Int} {size : Nat}
  {sources : List Source} {image : List UInt8}

theorem writable_of_valid {name : List WChar} (hterm : UTF8Base.UNICODE_TERMINATOR ∉ name)
    (hvalid : WChar.validText name = true) (hlength : 4 * name.length < 0x80000000) : Writable size name := by
  rw [Writable, StringUtils.toUTF8_of_valid size hterm hvalid]
  exact ⟨StringUtils.toUnicode_octets 0 hvalid, (UTF8Encoder.length_octets_le name).trans_lt hlength⟩

/-- The places of the data in the image, and what the reader makes of the directory. -/
theorem write_spec (hne : sources ≠ []) (hnamed : ∀ source ∈ sources, source.file ≠ [])
    (hnodup : (sources.map Source.file).Nodup) (hwritable : ∀ source ∈ sources, Writable size source.file)
    (hcount : sources.length < 0x80000000)
    (hsmall : ∀ image, write size sources = .ok image → (image.length : Int) ≤ 0x7fffffff00000000) :
    ∃ image reader, write size sources = .ok image ∧ CompoundFileReader.new wide image = .ok reader ∧
      ∀ source ∈ sources, ∃ offset : Nat,
        CompoundFileReader.entry? reader source.file = some ⟨source.file, offset, source.content.length⟩ ∧
        offset + source.content.length ≤ image.length ∧
        (image.drop offset).take source.content.length = source.content := by
  obtain ⟨entries, w, hclose, hlength, hsources, hbytes, hdata⟩ := @close_spec size sources hne
  have hwrite : write size sources = .ok w.bytes := by
    rw [write, addFiles_spec hnamed hnodup]
    dsimp only
    rw [hclose]
    dsimp only
    rw [hlength, List.take_length]
  have hcontents : sources.flatMap (·.content) = entries.flatMap (·.content) := by
    rw [← hsources, List.flatMap_map]
  have hbounded := hsmall w.bytes hwrite
  rw [← List.length_append] at hdata
  rw [hcontents, ← List.append_assoc] at hbytes
  obtain ⟨reader, hnew, hfind⟩ := @CompoundFileReader.new_spec wide size sources entries w.bytes _ hcount hsources hnodup
    (fun source hs => (hwritable source hs).1) (fun source hs => (hwritable source hs).2) rfl hbytes (by omega) hdata
  refine ⟨w.bytes, reader, hwrite, hnew, fun source hs => ?_⟩
  obtain ⟨entry, hentry, rfl⟩ := List.mem_map.mp (hsources ▸ hs)
  obtain ⟨htake, hle⟩ := CompoundFileReader.data_at hdata hentry
  rw [← hbytes] at htake hle
  exact ⟨entry.dataOffset, hfind entry hentry, hle, htake⟩

/-- Every name is found, with the length of its content, and streams that are opened by name, any number of them
on one file, are cursors over the contents. -/
theorem sub_files_read_back (memory : Nat → UInt8) (wide : ∀ w, UInt8 → Nat → BitVec w)
    (chunkSize readBufferSize : Int) (size : Nat) {sources : List Source} (hne : sources ≠ [])
    (hnamed : ∀ source ∈ sources, source.file ≠ []) (hnodup : (sources.map Source.file).Nodup)
    (hwritable : ∀ source ∈ sources, Writable size source.file) (hcount : sources.length < 0x80000000)
    (hsmall : ∀ image, write size sources = .ok image → (image.length : Int) ≤ 0x7fffffff00000000)
    (hpositive : 0 < readBufferSize) (hlt : readBufferSize < 0x80000000) :
    ∃ image reader, write size sources = .ok image ∧ CompoundFileReader.new wide image = .ok reader ∧
      (∀ source ∈ sources, CompoundFileReader.fileLength reader source.file = .ok source.content.length) ∧
      ∀ (file : InputFile) (stream : BufferedIndexInput) (pos : Nat) (opened : List Source),
        SimpleFSIndexInput.Ready image file → stream.Reads image pos → (∀ source ∈ opened, source ∈ sources) →
        ∃ inputs, openAll readBufferSize reader stream (opened.map Source.file) = .ok inputs ∧
          ∀ calls, SafeCalls memory wide chunkSize ⟨file, inputs⟩ calls →
            Traces.Allows (Cursors wide) (opened.map fun source => (source.content, 0)) calls
              (answers memory wide chunkSize ⟨file, inputs⟩ calls) := by
  obtain ⟨image, reader, hwrite, hnew, hplaces⟩ := @write_spec wide _ _ hne hnamed hnodup hwritable hcount hsmall
  refine ⟨image, reader, hwrite, hnew, fun source hs => ?_, fun file stream pos opened hready hreads hopened => ?_⟩
  · obtain ⟨offset, hentry, -, -⟩ := hplaces source hs
    rw [CompoundFileReader.fileLength, hentry]
  · have hall : ∃ inputs, openAll readBufferSize reader stream (opened.map Source.file) = .ok inputs ∧
        List.Forall₂ (Is (CSIndexInput.Part.Is image)) inputs (opened.map fun source => (source.content, 0)) := by
      induction opened with
      | nil => exact ⟨[], rfl, .nil⟩
      | cons source opened ih =>
          obtain ⟨inputs, hopen, hare⟩ := ih fun s hs => hopened s (List.mem_cons_of_mem _ hs)
          obtain ⟨offset, hentry, hle, htake⟩ := hplaces source (hopened source List.mem_cons_self)
          refine ⟨(.new readBufferSize, ⟨offset, source.content.length, stream.clone⟩) :: inputs, ?_, .cons ?_ hare⟩
          · rw [openAll] at hopen ⊢
            rw [List.map_cons, List.mapM_cons, CompoundFileReader.openInput, hentry, hopen]
            rfl
          · exact ⟨⟨offset, pos, rfl, rfl, hle, htake, clone_reads hreads⟩, new_reads hpositive hlt⟩
    obtain ⟨inputs, hopen, hare⟩ := hall
    refine ⟨inputs, hopen, fun calls hsafe => ?_⟩
    have hsimulates := @simulates _ _ (CSIndexInput.device memory chunkSize) CSIndexInput.cloneBase memory wide _
      (SimpleFSIndexInput.Ready image) (CSIndexInput.Part.Is image) (CSIndexInput.serves (hsmall image hwrite))
      fun _ _ hpart => CSIndexInput.cloneBase_is hpart
    exact hsimulates.allows ⟨hready, hare⟩ hsafe

end Correctness

/-- A file with the name of one character. -/
def single (content : List UInt8) : Source := ⟨[⟨97, WChar.a_mem⟩], content⟩

/-- Two files, the second of one byte. -/
def pair : List Source := [single [1, 2, 3], ⟨[⟨98, by decide⟩], [4]⟩]

theorem sub_files_read_back_pair :
    ∃ image reader, write 0 pair = .ok image ∧ CompoundFileReader.new (fun _ _ _ => 0) image = .ok reader ∧
      (∀ source ∈ pair, CompoundFileReader.fileLength reader source.file = .ok source.content.length) ∧
      ∃ inputs, openAll 2 reader (.new 2) (pair.map Source.file) = .ok inputs ∧
        Traces.Allows (Cursors fun _ _ _ => 0) (pair.map fun source => (source.content, 0)) [.on 0 (.readBytes 3 true)]
          (answers (fun _ => 0) (fun _ _ _ => 0) 1024 ⟨InputFile.new image, inputs⟩ [.on 0 (.readBytes 3 true)]) := by
  have himage : write 0 pair = .ok [2, 0, 0, 0, 0, 0, 0, 0, 21, 1, 97, 0, 0, 0, 0, 0, 0, 0, 24, 1, 98, 1, 2, 3, 4] := by
    decide +kernel
  have hreader : CompoundFileReader.new (fun _ _ _ => 0)
      [2, 0, 0, 0, 0, 0, 0, 0, 21, 1, 97, 0, 0, 0, 0, 0, 0, 0, 24, 1, 98, 1, 2, 3, 4] =
      .ok [⟨[⟨98, by decide⟩], 24, 1⟩, ⟨(single []).file, 21, 3⟩] := by decide +kernel
  have hwritable : ∀ source ∈ pair, Writable 0 source.file := by
    intro source hs
    rcases List.mem_cons.mp hs with rfl | hs
    · exact writable_of_valid (by decide) (by decide) (by decide)
    · rw [List.mem_singleton.mp hs]
      exact writable_of_valid (by decide) (by decide) (by decide)
  have hsmall : ∀ image, write 0 pair = .ok image → (image.length : Int) ≤ 0x7fffffff00000000 := by
    intro image hwrite
    rw [himage] at hwrite
    cases hwrite
    decide
  obtain ⟨image, reader, hwrite, hnew, hlengths, hstreams⟩ := sub_files_read_back (fun _ => 0) (fun _ _ _ => 0) 1024 2 0
    (show pair ≠ [] by decide) (by decide) (by decide) hwritable (by decide) hsmall (by decide) (by decide)
  rw [himage] at hwrite
  cases hwrite
  rw [hreader] at hnew
  cases hnew
  obtain ⟨inputs, hopen, hallows⟩ := hstreams (InputFile.new _) (.new 2) 0 pair ⟨rfl, rfl, rfl, rfl⟩
    (new_reads (by decide) (by decide)) fun _ hs => hs
  refine ⟨_, _, himage, hreader, hlengths, inputs, hopen, hallows _ ?_⟩
  cases hopen
  refine ⟨⟨_, _, rfl, by decide, fun _ => ?_⟩, trivial⟩
  rw [if_neg (by decide)]
  exact ⟨by decide, by decide, fun k hk => by omega⟩

/-- Eight bytes that all have the high bit: the number is read from what lies behind them in the buffer. -/
theorem read_beyond_sub_file :
    ¬ ∃ image reader, write 0 [single (List.replicate 8 0x80)] = .ok image ∧
      CompoundFileReader.new (fun _ _ _ => 0) image = .ok reader ∧
      ∃ inputs, openAll 16 reader (.new 16) [(single (List.replicate 8 0x80)).file] = .ok inputs ∧
        Traces.Allows (Cursors fun _ _ _ => 0) [(List.replicate 8 0x80, 0)] [.on 0 .readByte, .on 0 .readVInt]
          (answers (fun _ => 0) (fun _ _ _ => 0) 1024 ⟨InputFile.new image, inputs⟩
            [.on 0 .readByte, .on 0 .readVInt]) := by
  have himage : write 0 [single (List.replicate 8 0x80)] =
      .ok ([1, 0, 0, 0, 0, 0, 0, 0, 11, 1, 97] ++ List.replicate 8 0x80) := by decide +kernel
  have hreader : CompoundFileReader.new (fun _ _ _ => 0)
      ([1, 0, 0, 0, 0, 0, 0, 0, 11, 1, 97] ++ List.replicate 8 0x80) = .ok [⟨(single []).file, 11, 8⟩] := by
    decide +kernel
  have hanswers : answers (fun _ => 0) (fun _ _ _ => 0) 1024
      ⟨InputFile.new ([1, 0, 0, 0, 0, 0, 0, 0, 11, 1, 97] ++ List.replicate 8 0x80),
        [(.new 16, ⟨11, 8, (BufferedIndexInput.new 16).clone⟩)]⟩ [.on 0 .readByte, .on 0 .readVInt] =
      [.plain (.bytes [0x80]), .int 0] := by decide +kernel
  rintro ⟨image, reader, hwrite, hnew, inputs, hopen, hallows⟩
  rw [himage] at hwrite
  cases hwrite
  rw [hreader] at hnew
  cases hnew
  have hinputs : openAll 16 [⟨(single []).file, 11, 8⟩] (.new 16) [(single (List.replicate 8 0x80)).file] =
      .ok [(.new 16, ⟨11, 8, (BufferedIndexInput.new 16).clone⟩)] := rfl
  rw [hinputs] at hopen
  cases hopen
  rw [hanswers] at hallows
  obtain ⟨positions, ⟨bytes, pos, pos', hpos, ⟨o, hanswer, hstep⟩, rfl⟩, positions',
    ⟨bytes₁, pos₁, pos₁', hpos₁, ⟨o₁, hint, hend⟩, -⟩, -⟩ := hallows
  cases hpos
  cases hanswer
  cases hstep
  cases hpos₁
  obtain ⟨rfl, -⟩ : o₁ = .error .readPastEOF ∧ _ := hend
  cases hint

end CompoundFiles

end LucenePlusPlus
