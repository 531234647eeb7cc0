import LucenePlusPlus.IndexFormat
import LucenePlusPlus.RAMOutputStream

/-!
`CompoundFileWriter`: writes the number of files, a directory with an offset and a name for each file, and their
contents; the offsets are written as zeros first, and over these when they are known. The output is an array of
bytes with a cursor.
-/

namespace LucenePlusPlus
open RAMOutputStream IndexOutput

inductive CompoundError where
  | illegalArgument
  | illegalState
  | io
deriving DecidableEq

namespace CompoundFileWriter

/-- A file that is added: its name, and what it has in the directory. -/
structure Source where
  file : List WChar
  content : List UInt8

structure FileEntry extends Source where
  directoryOffset : Nat
  dataOffset : Nat

def COPY_BUFFER_SIZE : Nat := 16384

section Operations
variable (size : Nat)

def addFile (entries : List Source) (source : Source) : Except CompoundError (List Source) :=
  if source.file = [] then .error .illegalArgument
  else if source.file ∈ entries.map Source.file then .error .illegalArgument
  else .ok (entries ++ [source])

/-- The directory, with zeros for the offsets. -/
def writeDirectory : List Source → Written → List FileEntry × Written
  | [], w => ([], w)
  | source :: sources, w =>
      let rest := writeDirectory sources ((w.write (writeLong 0)).write (writeString size source.file))
      (⟨source, w.pos, 0⟩ :: rest.1, rest.2)

/-- The loop of `copyFile`: what is left to copy, and what is left of the source. -/
def copyChunks : Nat → Nat → List UInt8 → Written → Except CompoundError (Nat × Written)
  | 0, remainder, _, w => .ok (remainder, w)
  | fuel + 1, remainder, source, w =>
      if remainder = 0 then .ok (remainder, w)
      else if source.length < min COPY_BUFFER_SIZE remainder then .error .io
      else
        copyChunks fuel (remainder - min COPY_BUFFER_SIZE remainder) (source.drop (min COPY_BUFFER_SIZE remainder))
          (w.write (source.take (min COPY_BUFFER_SIZE remainder)))

def copyFile (content : List UInt8) (w : Written) : Except CompoundError Written :=
  match copyChunks content.length content.length content w with
  | .error e => .error e
  | .ok (remainder, w') =>
      if remainder ≠ 0 then .error .io
      else if w'.pos - w.pos ≠ content.length then .error .io
      else .ok w'

def copyFiles : List FileEntry → Written → Except CompoundError (List FileEntry × Written)
  | [], w => .ok ([], w)
  | entry :: entries, w =>
      match copyFile entry.content w with
      | .error e => .error e
      | .ok w' =>
          match copyFiles entries w' with
          | .error e => .error e
          | .ok (entries, w'') => .ok ({ entry with dataOffset := w.pos } :: entries, w'')

def writeOffsets : List FileEntry → Written → Written
  | [], w => w
  | entry :: entries, w =>
      writeOffsets entries ((w.step (.seek entry.directoryOffset)).write (writeLong entry.dataOffset))

def close (sources : List Source) : Except CompoundError Written :=
  if sources = [] then .error .illegalState
  else
    let opened := writeDirectory size sources (Written.write ⟨[], 0, 0⟩ (writeVInt sources.length))
    match copyFiles opened.1 opened.2 with
    | .error e => .error e
    | .ok (entries, w) => .ok ((writeOffsets entries w).step .flush)

def addFiles (sources : List Source) : Except CompoundError (List Source) := sources.foldlM addFile []

end Operations

/-- A directory. -/
def directory (size : Nat) (slots : List (List WChar × Int)) : List UInt8 :=
  slots.flatMap fun slot => writeLong slot.2 ++ writeString size slot.1

/-- The slots of the entries lie one behind the other from `start` on. -/
def SlotsFrom (size : Nat) : Nat → List FileEntry → Prop
  | _, [] => True
  | start, entry :: entries =>
      entry.directoryOffset = start ∧ SlotsFrom size (start + (8 + (writeString size entry.file).length)) entries

/-- The data of the entries lie one behind the other from `start` on. -/
def DataFrom : Nat → List FileEntry → Prop
  | _, [] => True
  | start, entry :: entries => entry.dataOffset = start ∧ DataFrom (start + entry.content.length) entries

section Correctness
variable {size : Nat} {w : Written} {sources : List Source} {entries : List FileEntry}

theorem directory_cons (slot : List WChar × Int) (slots : List (List WChar × Int)) :
    directory size (slot :: slots) = writeLong slot.2 ++ (writeString size slot.1 ++ directory size slots) := by
  rw [directory, List.flatMap_cons, List.append_assoc]
  rfl

theorem length_writeLong (i : Int) : (writeLong i).length = 8 := rfl

theorem write_end (hend : w.pos = w.bytes.length) (b : List UInt8) :
    (w.write b).bytes = w.bytes ++ b ∧ (w.write b).pos = (w.write b).bytes.length := by
  have hbytes : (w.write b).bytes = w.bytes ++ b := by
    rw [Written.write, ByteCursor.overwrite, hend, List.take_length, List.drop_of_length_le (Nat.le_add_right _ _),
      List.append_nil]
  refine ⟨hbytes, ?_⟩
  rw [hbytes, List.length_append, ← hend]
  rfl

theorem writeDirectory_spec (hend : w.pos = w.bytes.length) :
    ∃ entries w', writeDirectory size sources w = (entries, w') ∧ w'.pos = w'.bytes.length ∧
      w'.bytes = w.bytes ++ directory size (sources.map fun source => (source.file, 0)) ∧
      entries.map FileEntry.toSource = sources ∧ SlotsFrom size w.pos entries := by
  induction sources generalizing w with
  | nil => exact ⟨[], w, rfl, hend, by rw [directory, List.map_nil, List.flatMap_nil, List.append_nil], rfl, trivial⟩
  | cons source sources ih =>
      obtain ⟨hlong, hlongEnd⟩ := write_end hend (writeLong 0)
      obtain ⟨hname, hnameEnd⟩ := write_end hlongEnd (writeString size source.file)
      obtain ⟨entries, w', hwrite, hend', hbytes, hentries, hslots⟩ := ih hnameEnd
      rw [writeDirectory, hwrite]
      refine ⟨_, w', rfl, hend', ?_, congrArg (source :: ·) hentries, rfl, ?_⟩
      · rw [hbytes, hname, hlong, List.map_cons, directory_cons, List.append_assoc, List.append_assoc]
      · rw [hnameEnd, hname, hlong, List.length_append, List.length_append, length_writeLong, ← hend,
          Nat.add_assoc] at hslots
        exact hslots

theorem copyChunks_spec {fuel : Nat} {source : List UInt8} (hend : w.pos = w.bytes.length)
    (hfuel : source.length ≤ fuel) :
    ∃ w', copyChunks fuel source.length source w = .ok (0, w') ∧ w'.pos = w'.bytes.length ∧
      w'.bytes = w.bytes ++ source := by
  induction fuel generalizing source w with
  | zero =>
      obtain rfl : source = [] := List.eq_nil_of_length_eq_zero (by omega)
      exact ⟨w, rfl, hend, (List.append_nil _).symm⟩
  | succ fuel ih =>
      rw [copyChunks]
      by_cases hzero : source.length = 0
      · obtain rfl : source = [] := List.eq_nil_of_length_eq_zero hzero
        rw [if_pos hzero]
        exact ⟨w, rfl, hend, (List.append_nil _).symm⟩
      · obtain ⟨len, hlen⟩ : ∃ len, len = min COPY_BUFFER_SIZE source.length := ⟨_, rfl⟩
        have hbound : 0 < len ∧ len ≤ source.length := by
          unfold COPY_BUFFER_SIZE at hlen
          omega
        obtain ⟨hbytes, hend'⟩ := write_end hend (source.take len)
        obtain ⟨w', hcopy, hend'', hbytes'⟩ := @ih _ (source.drop len) hend' (by rw [List.length_drop]; omega)
        rw [if_neg hzero, ← hlen, if_neg (by omega), ← List.length_drop, hcopy]
        refine ⟨w', rfl, hend'', ?_⟩
        rw [hbytes', hbytes, List.append_assoc, List.take_append_drop]

theorem copyFile_spec (hend : w.pos = w.bytes.length) (content : List UInt8) :
    ∃ w', copyFile content w = .ok w' ∧ w'.pos = w'.bytes.length ∧ w'.bytes = w.bytes ++ content := by
  obtain ⟨w', hcopy, hend', hbytes⟩ := copyChunks_spec hend (le_refl content.length)
  have hdiff : w'.pos - w.pos = content.length := by
    rw [hend', hend, hbytes, List.length_append]
    omega
  rw [copyFile, hcopy]
  dsimp only
  rw [if_neg (not_not.mpr rfl), if_neg (not_not.mpr hdiff)]
  exact ⟨w', rfl, hend', hbytes⟩

theorem copyFiles_spec (hend : w.pos = w.bytes.length) {start : Nat} (hslots : SlotsFrom size start entries) :
    ∃ entries' w', copyFiles entries w = .ok (entries', w') ∧
      w'.bytes = w.bytes ++ entries.flatMap (·.content) ∧
      entries'.map FileEntry.toSource = entries.map FileEntry.toSource ∧ SlotsFrom size start entries' ∧
      DataFrom w.pos entries' := by
  induction entries generalizing w start with
  | nil => exact ⟨[], w, rfl, by rw [List.flatMap_nil, List.append_nil], rfl, trivial, trivial⟩
  | cons entry entries ih =>
      obtain ⟨hslot, hrest⟩ := hslots
      obtain ⟨w₁, hcopy, hend₁, hbytes₁⟩ := copyFile_spec hend entry.content
      obtain ⟨entries', w', hcopies, hbytes, hsame, hslots', hdata⟩ := ih hend₁ hrest
      rw [copyFiles, hcopy]
      dsimp only
      rw [hcopies]
      refine ⟨_, w', rfl, ?_, ?_, ⟨hslot, hslots'⟩, rfl, ?_⟩
      · rw [hbytes, hbytes₁, List.flatMap_cons, List.append_assoc]
      · rw [List.map_cons, List.map_cons, hsame]
      · rw [hend₁, hbytes₁, List.length_append, ← hend] at hdata
        exact hdata

theorem writeOffsets_spec {front back : List UInt8} (hslots : SlotsFrom size front.length entries)
    (hbytes : w.bytes = front ++ directory size (entries.map fun entry => (entry.file, 0)) ++ back) :
    (writeOffsets entries w).bytes =
      front ++ directory size (entries.map fun entry => (entry.file, (entry.dataOffset : Int))) ++ back := by
  induction entries generalizing w front with
  | nil => exact hbytes
  | cons entry entries ih =>
      obtain ⟨hslot, hrest⟩ := hslots
      have hslotLength : (front ++ (writeLong entry.dataOffset ++ writeString size entry.file)).length =
          front.length + (8 + (writeString size entry.file).length) := by
        rw [List.length_append, List.length_append, length_writeLong]
      have hwrite : ((w.step (.seek entry.directoryOffset)).write (writeLong entry.dataOffset)).bytes =
          front ++ (writeLong entry.dataOffset ++ writeString size entry.file) ++
            directory size (entries.map fun entry => (entry.file, 0)) ++ back := by
        rw [List.map_cons, directory_cons, List.append_assoc, List.append_assoc] at hbytes
        have hlong : (writeLong 0).length = (writeLong entry.dataOffset).length := by
          rw [length_writeLong, length_writeLong]
        change ByteCursor.overwrite w.bytes entry.directoryOffset (writeLong entry.dataOffset) = _
        rw [hbytes, hslot, ByteCursor.overwrite_middle front _ hlong]
        simp only [List.append_assoc]
      rw [writeOffsets, ih (by rw [hslotLength]; exact hrest) hwrite, List.map_cons, directory_cons]
      simp only [List.append_assoc]

theorem addFiles_spec (hnamed : ∀ source ∈ sources, source.file ≠ [])
    (hnodup : (sources.map Source.file).Nodup) : addFiles sources = .ok sources := by
  have hadd : ∀ added : List Source, ((added ++ sources).map Source.file).Nodup →
      sources.foldlM addFile added = .ok (added ++ sources) := by
    induction sources with
    | nil => exact fun added _ => by rw [List.append_nil]; rfl
    | cons source sources ih =>
        intro added hall
        have hnew : source.file ∉ added.map Source.file := by
          rw [List.map_append, List.map_cons, List.nodup_append] at hall
          exact fun hmem => hall.2.2 _ hmem _ List.mem_cons_self rfl
        have hrest := ih (fun s hs => hnamed s (List.mem_cons_of_mem _ hs)) (List.nodup_cons.mp hnodup).2
          (added ++ [source]) (by rw [List.append_assoc]; exact hall)
        rw [List.foldlM_cons, addFile, if_neg (hnamed source List.mem_cons_self), if_neg hnew]
        rw [List.append_assoc] at hrest
        exact hrest
  exact hadd [] hnodup

theorem length_directory (offset : FileEntry → Int) :
    (directory size (entries.map fun entry => (entry.file, offset entry))).length =
      (directory size ((entries.map FileEntry.toSource).map fun source => (source.file, 0))).length := by
  induction entries with
  | nil => rfl
  | cons entry entries ih =>
      rw [List.map_cons, List.map_cons, List.map_cons, directory_cons, directory_cons, List.length_append,
        List.length_append, List.length_append, List.length_append, ih, length_writeLong, length_writeLong]

theorem close_spec (hsources : sources ≠ []) :
    ∃ entries w, close size sources = .ok w ∧ w.length = w.bytes.length ∧
      entries.map FileEntry.toSource = sources ∧
      w.bytes = writeVInt sources.length ++
        (directory size (entries.map fun entry => (entry.file, (entry.dataOffset : Int))) ++
          sources.flatMap (·.content)) ∧
      DataFrom ((writeVInt sources.length).length +
        (directory size (entries.map fun entry => (entry.file, (entry.dataOffset : Int)))).length) entries := by
  obtain ⟨hcount, hcountEnd⟩ := @write_end ⟨[], 0, 0⟩ rfl (writeVInt sources.length)
  obtain ⟨entries, w₁, hopen, hend₁, hbytes₁, hentries, hslots⟩ :=
    @writeDirectory_spec size _ sources hcountEnd
  obtain ⟨entries', w₂, hcopy, hbytes₂, hsame, hslots', hdata⟩ := copyFiles_spec hend₁ hslots
  have hsources' : entries'.map FileEntry.toSource = sources := hsame.trans hentries
  have hcontents : entries.flatMap (·.content) = sources.flatMap (·.content) := by
    rw [← hentries, List.flatMap_map]
  have hnames : (sources.map fun source => (source.file, (0 : Int))) = entries'.map fun entry => (entry.file, 0) := by
    rw [← hsources', List.map_map]
    rfl
  rw [List.nil_append] at hcount
  rw [hcountEnd, hcount] at hslots'
  rw [hbytes₁, hcount, hcontents, hnames] at hbytes₂
  have hbytes := writeOffsets_spec hslots' hbytes₂
  rw [hend₁, hbytes₁, hcount, List.length_append, hnames, ← hsources'] at hdata
  rw [close, if_neg hsources, hopen]
  dsimp only
  rw [hcopy]
  refine ⟨entries', _, rfl, rfl, hsources', ?_, ?_⟩
  · rw [← List.append_assoc]
    exact hbytes
  · rw [length_directory, hsources'] at hdata
    rw [length_directory, hsources', ← hsources']
    rw [← hsources'] at hdata
    exact hdata

end Correctness

end CompoundFileWriter

end LucenePlusPlus
