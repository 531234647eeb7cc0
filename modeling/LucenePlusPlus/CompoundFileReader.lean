import LucenePlusPlus.CompoundFileWriter
import LucenePlusPlus.SimpleFSIndexInput

/-!
`CompoundFileReader` and `CSIndexInput`: the directory of a compound file gives the place of each sub-file, and a
stream over a sub-file is a buffered stream that reads through a clone of the reader's stream.
-/

namespace LucenePlusPlus
open Decoders IndexInput

namespace CompoundFileReader

structure FileEntry where
  id : List WChar
  offset : Int
  length : Int
deriving DecidableEq

section Operations
variable (wide : ∀ w, UInt8 → Nat → BitVec w)

/-- The length of the previous entry is known when the next offset is. The entry that was put last comes first. -/
def setLength (offset : Int) : List FileEntry → List FileEntry
  | [] => []
  | entry :: entries => { entry with length := offset - entry.offset } :: entries

def addEntry (entries : List FileEntry) (slot : Int × List WChar) : List FileEntry :=
  ⟨slot.2, slot.1, 0⟩ :: setLength slot.1 entries

def readSlot : Decoder InputError (Int × List WChar) := do
  let offset ← readLong
  let id ← readString wide
  pure (offset, id)

def readSlots : Decoder InputError (List (Int × List WChar)) := do
  let count ← readVInt wide
  times (readSlot wide) count.toNat

def new (bytes : List UInt8) : Except InputError (List FileEntry) :=
  match readSlots wide bytes with
  | .error e => .error e
  | .ok (slots, _) => .ok (setLength bytes.length (slots.foldl addEntry []))

end Operations

/-- An entry takes the place of one that was put under the same name. -/
def entry? (entries : List FileEntry) (name : List WChar) : Option FileEntry := entries.find? (·.id = name)

def fileLength (entries : List FileEntry) (name : List WChar) : Except InputError Int :=
  match entry? entries name with
  | none => .error .io
  | some entry => .ok entry.length

end CompoundFileReader

namespace CSIndexInput
open BufferedIndexInput

/-- What a stream has beside its buffer. -/
structure Part where
  fileOffset : Int
  length : Int
  base : BufferedIndexInput

section Operations
variable (memory : Nat → UInt8) (chunkSize : Int)

/-- The base is read unbuffered. When it raises, what it has stored is left out. -/
def readInternal (file : InputFile) (part : Part) (start : Int) (length : Nat) :
    (List UInt8 × Option InputError) × InputFile × Part :=
  if start + length > part.length then (([], some .readPastEOF), file, part)
  else
    match readBytes (SimpleFSIndexInput.device chunkSize) memory (file, ()) (part.base.seek (part.fileOffset + start))
        length false with
    | (.error e, file, base) => (([], some e), file.1, { part with base := base })
    | (.ok bytes, file, base) => ((bytes, none), file.1, { part with base := base })

def device : Device (InputFile × Part) where
  length file := file.2.length
  readInternal file start length := readInternal memory chunkSize file.1 file.2 start length

def cloneBase (part : Part) : Part := { part with base := part.base.clone }

end Operations

end CSIndexInput

/-- `openInput`: the stream has a clone of the reader's stream as its base. -/
def CompoundFileReader.openInput (entries : List FileEntry) (stream : BufferedIndexInput) (readBufferSize : Int)
    (name : List WChar) : Except InputError (BufferedIndexInput × CSIndexInput.Part) :=
  match entry? entries name with
  | none => .error .io
  | some entry => .ok (.new readBufferSize, ⟨entry.offset, entry.length, stream.clone⟩)

namespace CompoundFileReader
open CompoundFileWriter (Source DataFrom directory)
variable {wide : ∀ w, UInt8 → Nat → BitVec w} {size : Nat} {sources : List Source}
  {entries : List CompoundFileWriter.FileEntry}

/-- An entry as the reader has it. -/
def entryOf (entry : CompoundFileWriter.FileEntry) : FileEntry := ⟨entry.file, entry.dataOffset, entry.content.length⟩

theorem foldl_addEntry {start : Nat} (h : DataFrom start entries) (before : List FileEntry) :
    setLength ((start + (entries.flatMap (·.content)).length : Nat) : Int)
        ((entries.map fun entry => ((entry.dataOffset : Int), entry.file)).foldl addEntry before) =
      (entries.map entryOf).reverse ++ setLength start before := by
  induction entries generalizing start before with
  | nil => rfl
  | cons entry entries ih =>
      obtain ⟨hstart, hrest⟩ := h
      have hlength : start + ((entry :: entries).flatMap (·.content)).length =
          start + entry.content.length + (entries.flatMap (·.content)).length := by
        rw [List.flatMap_cons, List.length_append, Nat.add_assoc]
      have hentry : (⟨entry.file, entry.dataOffset, ((start + entry.content.length : Nat) : Int) - entry.dataOffset⟩ :
          FileEntry) = entryOf entry := by
        rw [entryOf, hstart]
        congr 1
        omega
      rw [hlength, List.map_cons, List.foldl_cons, ih hrest, addEntry, setLength, hentry, List.map_cons,
        List.reverse_cons, List.append_assoc, List.singleton_append, hstart]

theorem decodes_readSlots (hcount : sources.length < 0x80000000) (hsources : entries.map (·.toSource) = sources)
    (hround : ∀ source ∈ sources, StringUtils.toUnicode 0 (StringUtils.toUTF8 size source.file) = source.file)
    (hshort : ∀ source ∈ sources, (StringUtils.toUTF8 size source.file).length < 0x80000000)
    (hsmall : ∀ entry ∈ entries, (entry.dataOffset : Int) < 0x8000000000000000) :
    Decodes (readSlots wide)
      (IndexOutput.writeVInt sources.length ++
        directory size (entries.map fun entry => (entry.file, (entry.dataOffset : Int))))
      (entries.map fun entry => ((entry.dataOffset : Int), entry.file)) := by
  have hslot : ∀ entry ∈ entries, Decodes (readSlot wide)
      (IndexOutput.writeLong entry.dataOffset ++ IndexOutput.writeString size entry.file)
      ((entry.dataOffset : Int), entry.file) := by
    intro entry hentry
    have hmem : entry.toSource ∈ sources := hsources ▸ List.mem_map_of_mem hentry
    have hstring := @decodes_readString wide size _ (hshort _ hmem)
    rw [hround _ hmem] at hstring
    apply (decodes_readLong (by omega) (hsmall entry hentry)).bind
    exact hstring.map (decodes_pure _)
  rw [readSlots]
  apply (decodes_readVInt (by omega) (by omega)).bind
  rw [Int.toNat_natCast, ← hsources, List.length_map, directory, List.flatMap_map]
  exact Decodes.times hslot

theorem find?_id {l : List FileEntry} (hnodup : (l.map FileEntry.id).Nodup) {entry : FileEntry} (hmem : entry ∈ l) :
    l.find? (·.id = entry.id) = some entry := by
  induction l with
  | nil => cases hmem
  | cons first l ih =>
      rw [List.map_cons, List.nodup_cons] at hnodup
      rcases List.mem_cons.mp hmem with rfl | hrest
      · exact List.find?_cons_of_pos (by rw [decide_eq_true_iff])
      · have hne : first.id ≠ entry.id := fun heq => hnodup.1 (heq ▸ List.mem_map_of_mem hrest)
        rw [List.find?_cons_of_neg (by rw [decide_eq_true_iff]; exact hne), ih hnodup.2 hrest]

theorem data_at {header : List UInt8} (h : DataFrom header.length entries) {entry : CompoundFileWriter.FileEntry}
    (hmem : entry ∈ entries) :
    ((header ++ entries.flatMap (·.content)).drop entry.dataOffset).take entry.content.length = entry.content ∧
      entry.dataOffset + entry.content.length ≤ (header ++ entries.flatMap (·.content)).length := by
  induction entries generalizing header with
  | nil => cases hmem
  | cons first entries ih =>
      obtain ⟨hstart, hrest⟩ := h
      rw [List.flatMap_cons]
      rcases List.mem_cons.mp hmem with rfl | htail
      · rw [hstart, List.drop_left, List.take_left, List.length_append, List.length_append]
        exact ⟨rfl, by omega⟩
      · rw [← List.append_assoc]
        exact ih (by rwa [List.length_append]) htail

theorem new_spec {bytes header : List UInt8} (hcount : sources.length < 0x80000000)
    (hsources : entries.map (·.toSource) = sources) (hnodup : (sources.map Source.file).Nodup)
    (hround : ∀ source ∈ sources, StringUtils.toUnicode 0 (StringUtils.toUTF8 size source.file) = source.file)
    (hshort : ∀ source ∈ sources, (StringUtils.toUTF8 size source.file).length < 0x80000000)
    (hheader : header = IndexOutput.writeVInt sources.length ++
      directory size (entries.map fun entry => (entry.file, (entry.dataOffset : Int))))
    (hbytes : bytes = header ++ entries.flatMap (·.content))
    (hsmall : (bytes.length : Int) < 0x8000000000000000) (hdata : DataFrom header.length entries) :
    ∃ reader, new wide bytes = .ok reader ∧
      ∀ entry ∈ entries, entry? reader entry.file = some (entryOf entry) := by
  have hoffsets : ∀ entry ∈ entries, (entry.dataOffset : Int) < 0x8000000000000000 := by
    intro entry hentry
    obtain ⟨-, hle⟩ := data_at hdata hentry
    rw [← hbytes] at hle
    omega
  have hslots := @decodes_readSlots wide _ _ _ hcount hsources hround hshort hoffsets
  rw [← hheader] at hslots
  have hlength : bytes.length = header.length + (entries.flatMap (·.content)).length := by
    rw [hbytes, List.length_append]
  have hlist := foldl_addEntry hdata []
  rw [← hlength, setLength, List.append_nil] at hlist
  refine ⟨(entries.map entryOf).reverse, ?_, fun entry hentry => ?_⟩
  · rw [new]
    have hread := hslots (entries.flatMap (·.content))
    rw [← hbytes] at hread
    rw [hread]
    dsimp only
    rw [hlist]
  · have hids : ((entries.map entryOf).reverse.map FileEntry.id).Nodup := by
      have hsame : (entries.map entryOf).map FileEntry.id = sources.map Source.file := by
        rw [← hsources, List.map_map, List.map_map]
        rfl
      rw [List.map_reverse, List.nodup_reverse, hsame]
      exact hnodup
    exact find?_id hids (List.mem_reverse.mpr (List.mem_map_of_mem hentry))

end CompoundFileReader

namespace CSIndexInput
open BufferedIndexInput SimpleFSIndexInput
variable {memory : Nat → UInt8} {chunkSize : Int} {image : List UInt8}

/-- A part of the image that is the content. -/
def Part.Is (image : List UInt8) (part : Part) (content : List UInt8) : Prop :=
  ∃ offset pos : Nat, part.fileOffset = offset ∧ part.length = content.length ∧
    offset + content.length ≤ image.length ∧ (image.drop offset).take content.length = content ∧
    part.base.Reads image pos

theorem ChunksFit.mono {n m : Nat} (h : ChunksFit chunkSize n) (hle : m ≤ n) : ChunksFit chunkSize m :=
  ⟨h.1, fun k hk => h.2 k (by omega)⟩

theorem serves (hsmall : (image.length : Int) ≤ 0x7fffffff00000000) (content : List UInt8) :
    (CSIndexInput.device memory chunkSize).Serves (fun n => n < 0x80000000 ∧ ChunksFit chunkSize n)
      (fun file => Ready image file.1 ∧ file.2.Is image content) content := by
  refine ⟨?_, ?_, ?_⟩
  · rintro file ⟨-, offset, pos, -, -, hle, -⟩
    omega
  · rintro file ⟨-, offset, pos, -, hlength, -⟩
    exact hlength
  · rintro ⟨file, part⟩ p n ⟨hready, offset, pos, hoffset, hlength, hle, hcontent, hbase⟩ hpos hin ⟨hn, hfits⟩
    dsimp only at hready hoffset hlength hbase
    have hseek : (part.base.seek (part.fileOffset + p)).Reads image (part.fileOffset + p).toNat :=
      seek_reads hbase (by omega) (by omega)
    have htarget : (part.fileOffset + (p : Int)).toNat = offset + p := by omega
    rw [htarget] at hseek
    obtain ⟨answer, file', base', pos', hread, hready', hbase', hstep⟩ :=
      @readBytes_spec _ _ memory _ _ _ (file, ()) _ _ n (SimpleFSIndexInput.serves chunkSize hsmall) hready hseek false
        ⟨hn, fun _ => by rw [if_neg (fun h => Bool.false_ne_true h.1)]; exact ChunksFit.mono hfits (Nat.sub_le _ _)⟩
    have hbytes : (image.drop (offset + p)).take n = (content.drop p).take n := by
      rw [← hcontent, List.drop_take, List.take_take, List.drop_drop, min_eq_left (by omega)]
    rcases hstep with ⟨-, hok, -⟩ | ⟨-, hout, -⟩
    · refine ⟨(file'.1, { part with base := base' }), ?_, hready', offset, pos', hoffset, hlength, hle, hcontent,
        hbase'⟩
      change CSIndexInput.readInternal memory chunkSize file part p n = _
      rw [CSIndexInput.readInternal, if_neg (by omega), hread, hok, hbytes]
    · omega

theorem cloneBase_is {part : Part} {content : List UInt8} (h : part.Is image content) :
    (cloneBase part).Is image content := by
  obtain ⟨offset, pos, hoffset, hlength, hle, hcontent, hbase⟩ := h
  exact ⟨offset, pos, hoffset, hlength, hle, hcontent, clone_reads hbase⟩

end CSIndexInput

end LucenePlusPlus
