import LucenePlusPlus.FieldNumbering

/-!
The file of the `FieldInfos`: a field is its name and a byte of flags, and its number is its place. A name comes back when
its code points are valid, without the terminator, and its length times four is an `int32_t`.
-/

namespace LucenePlusPlus
namespace FieldNumbering
open Decoders IndexOutput IndexInput UTF8Base WChar

/-- Of files without a header, which are older. -/
def FORMAT_PRE : Int := -1
def FORMAT_START : Int := -2
def CURRENT_FORMAT : Int := FORMAT_START

def IS_INDEXED : UInt8 := 0x1
def STORE_TERMVECTOR : UInt8 := 0x2
def STORE_POSITIONS_WITH_TERMVECTOR : UInt8 := 0x4
def STORE_OFFSET_WITH_TERMVECTOR : UInt8 := 0x8
def OMIT_NORMS : UInt8 := 0x10
def STORE_PAYLOADS : UInt8 := 0x20
def OMIT_TERM_FREQ_AND_POSITIONS : UInt8 := 0x40

namespace Flags

def bits (flags : Flags) : UInt8 :=
  (if flags.isIndexed then IS_INDEXED else 0) ||| (if flags.storeTermVector then STORE_TERMVECTOR else 0) |||
    (if flags.storePositionWithTermVector then STORE_POSITIONS_WITH_TERMVECTOR else 0) |||
    (if flags.storeOffsetWithTermVector then STORE_OFFSET_WITH_TERMVECTOR else 0) |||
    (if flags.omitNorms then OMIT_NORMS else 0) ||| (if flags.storePayloads then STORE_PAYLOADS else 0) |||
    (if flags.omitTermFreqAndPositions then OMIT_TERM_FREQ_AND_POSITIONS else 0)

def ofBits (bits : UInt8) : Flags where
  isIndexed := bits &&& IS_INDEXED != 0
  storeTermVector := bits &&& STORE_TERMVECTOR != 0
  storePositionWithTermVector := bits &&& STORE_POSITIONS_WITH_TERMVECTOR != 0
  storeOffsetWithTermVector := bits &&& STORE_OFFSET_WITH_TERMVECTOR != 0
  omitNorms := bits &&& OMIT_NORMS != 0
  storePayloads := bits &&& STORE_PAYLOADS != 0
  omitTermFreqAndPositions := bits &&& OMIT_TERM_FREQ_AND_POSITIONS != 0

theorem ofBits_bits (flags : Flags) : ofBits flags.bits = flags := by
  have hall : ∀ a b c d e f g : Bool, ofBits (bits ⟨a, b, c, d, e, f, g⟩) = ⟨a, b, c, d, e, f, g⟩ := by decide
  exact hall _ _ _ _ _ _ _

end Flags

inductive ReadError where
  | input (e : InputError)
  | corruptIndex (message : String)
deriving DecidableEq

namespace FieldInfos

def writeFields : List FieldInfo → Option (List UInt8)
  | [] => some []
  | fi :: fields => do
      let name ← writeStringInt32 fi.name
      let rest ← writeFields fields
      pure (name ++ (fi.bits :: rest))

def write (infos : FieldInfos) : Option (List UInt8) :=
  (writeFields infos.byNumber).map fun fields => writeVInt CURRENT_FORMAT ++ (writeVInt infos.size ++ fields)

section Read
variable (wide : ∀ w, UInt8 → Nat → BitVec w)

def readFields : Nat → FieldInfos → Decoder InputError FieldInfos
  | 0, infos => pure infos
  | size + 1, infos => do
      let name ← readString wide
      let bits ← readByte
      readFields size (infos.addInternal name (.ofBits bits))

/-- `read` for a `FieldInfos` that is new. -/
def read (fileName : String) (bytes : List UInt8) : Except ReadError FieldInfos := do
  let (firstInt, rest) ← (readVInt wide bytes).mapError .input
  let format := if firstInt < 0 then firstInt else FORMAT_PRE
  if format ≠ FORMAT_PRE ∧ format ≠ FORMAT_START then
    throw (.corruptIndex ("unrecognized format " ++ toString format ++ " in file \"" ++ fileName ++ "\""))
  let (size, rest) ← ((if format = FORMAT_PRE then pure firstInt else readVInt wide) rest).mapError .input
  let (infos, rest) ← (readFields wide size.toNat .new rest).mapError .input
  if rest ≠ [] then
    throw (.corruptIndex ("did not read all bytes from file \"" ++ fileName ++ "\": read " ++
      toString (bytes.length - rest.length) ++ " vs size " ++ toString bytes.length))
  pure infos

end Read

/-! ### Reading what was written -/

section RoundTrip
variable {wide : ∀ w, UInt8 → Nat → BitVec w}

/-- What is added for fields that have been written. -/
def addWritten (infos : FieldInfos) (fields : List FieldInfo) : FieldInfos :=
  fields.foldl (fun infos fi => infos.addInternal (stringReadBack fi.name) fi.toFlags) infos

theorem decodes_readFields {fields : List FieldInfo} {bytes : List UInt8} (infos : FieldInfos)
    (h : writeFields fields = some bytes) :
    Decodes (readFields wide fields.length infos) bytes (infos.addWritten fields) := by
  induction fields generalizing infos bytes with
  | nil =>
      cases h
      rw [List.length_nil, readFields]
      exact decodes_pure infos
  | cons fi fields ih =>
      rw [writeFields, Option.bind_eq_bind, Option.bind_eq_some_iff] at h
      obtain ⟨name, hname, h⟩ := h
      rw [Option.bind_eq_some_iff] at h
      obtain ⟨rest, hrest, h⟩ := h
      cases h
      rw [List.length_cons, readFields]
      apply (decodes_writeStringInt32 wide hname).bind
      apply Decodes.cons
      rw [Flags.ofBits_bits]
      exact ih _ hrest

theorem isSome_writeFields_iff {fields : List FieldInfo} :
    (∃ bytes, writeFields fields = some bytes) ↔ ∀ fi ∈ fields, ∃ bytes, writeStringInt32 fi.name = some bytes := by
  induction fields with
  | nil => simp [writeFields]
  | cons fi fields ih =>
      rw [List.forall_mem_cons, ← ih, writeFields]
      cases writeStringInt32 fi.name with
      | none => simp
      | some name => cases writeFields fields <;> simp

theorem length_readFields {size : Nat} {infos infos' : FieldInfos} {bytes rest : List UInt8}
    (h : readFields wide size infos bytes = .ok (infos', rest)) :
    infos'.byNumber.length = infos.byNumber.length + size := by
  induction size generalizing infos bytes with
  | zero =>
      rw [readFields] at h
      cases h
      rfl
  | succ size ih =>
      rw [readFields] at h
      obtain ⟨name, bytes', -, h⟩ := ok_of_bind h
      obtain ⟨bits, bytes'', -, h⟩ := ok_of_bind h
      rw [ih h, addInternal, List.length_append, List.length_singleton]
      omega

theorem names_addWritten (infos : FieldInfos) (fields : List FieldInfo) :
    (infos.addWritten fields).byNumber.map FieldInfo.name =
      infos.byNumber.map FieldInfo.name ++ fields.map fun fi => stringReadBack fi.name := by
  induction fields generalizing infos with
  | nil => exact (List.append_nil _).symm
  | cons fi fields ih =>
      rw [addWritten, List.foldl_cons, ← addWritten, ih, addInternal, List.map_append, List.append_assoc,
        List.map_singleton, FieldInfo.name_new, List.singleton_append, List.map_cons]

theorem addWritten_concat (infos : FieldInfos) (fields : List FieldInfo) (fi : FieldInfo) :
    infos.addWritten (fields ++ [fi]) = (infos.addWritten fields).addInternal (stringReadBack fi.name) fi.toFlags := by
  rw [addWritten, List.foldl_append]
  rfl

/-- Fields whose numbers are their places are what they were, when their names come back. -/
theorem addWritten_new {fields : List FieldInfo} (hnames : (fields.map FieldInfo.name).Nodup)
    (hnumber : ∀ (place : Nat) info, fields[place]? = some info → info.number = toInt32 place)
    (hback : ∀ fi ∈ fields, stringReadBack fi.name = fi.name) :
    FieldInfos.new.addWritten fields =
      { byNumber := fields, byName := fun name => (fields.map FieldInfo.name).idxOf? name } := by
  induction fields using List.reverseRecOn with
  | nil =>
      rw [addWritten, List.foldl_nil, new]
      congr 1
  | append_singleton fields fi ih =>
      rw [List.map_append, List.map_singleton, List.nodup_append] at hnames
      have hfi : fi.name ∉ fields.map FieldInfo.name := fun hmem => hnames.2.2 _ hmem _ List.mem_cons_self rfl
      have hlast : fi.number = toInt32 fields.length := hnumber fields.length fi List.getElem?_concat_length
      have hfields := ih hnames.1
        (fun place info hinfo => hnumber place info (List.getElem?_append_left (List.getElem?_eq_some_iff.mp hinfo).1 ▸
          hinfo))
        (fun fi' hmem => hback fi' (List.mem_append_left _ hmem))
      have hnew : FieldInfo.new fi.name (toInt32 fields.length) fi.toFlags = fi := by rw [← hlast]; exact fi.clone_eq
      rw [addWritten_concat, hfields, hback fi (List.mem_append_right _ List.mem_cons_self), addInternal]
      congr 1
      · rw [size, hnew]
      · funext name
        rw [List.map_append, List.map_singleton, idxOf?_concat _ hfi, List.length_map]
        exact Function.update_apply _ _ _ _

theorem read_eq_ok_iff {infos : FieldInfos} {fileName : String} {size : Int} {fields : List UInt8}
    (hle : -0x80000000 ≤ size) (hlt : size < 0x80000000) :
    read wide fileName (writeVInt CURRENT_FORMAT ++ (writeVInt size ++ fields)) = .ok infos ↔
      readFields wide size.toNat .new fields = .ok (infos, []) := by
  have hformat : readVInt wide (writeVInt CURRENT_FORMAT ++ (writeVInt size ++ fields)) =
      .ok (CURRENT_FORMAT, writeVInt size ++ fields) := decodes_readVInt (by decide) (by decide) _
  have hsize : readVInt wide (writeVInt size ++ fields) = .ok (size, fields) := decodes_readVInt hle hlt fields
  have hneg : CURRENT_FORMAT < 0 := by decide
  have hknown : ¬ (CURRENT_FORMAT ≠ FORMAT_PRE ∧ CURRENT_FORMAT ≠ FORMAT_START) := by decide
  have hpre : CURRENT_FORMAT ≠ FORMAT_PRE := by decide
  rw [read, hformat]
  simp only [Except.mapError, bind, Except.bind, if_pos hneg, if_neg hknown, if_neg hpre, hsize, pure, Except.pure]
  cases readFields wide size.toNat .new fields with
  | error e => simp
  | ok p =>
      obtain ⟨infos', rest⟩ := p
      cases rest <;> simp [throw, throwThe, MonadExceptOf.throw]

end RoundTrip
end FieldInfos

/-- The file of some fields is read as what they are. -/
def RoundTrips (wide : ∀ w, UInt8 → Nat → BitVec w) (fileName : String) (infos : FieldInfos) : Prop :=
  ∃ bytes, infos.write = some bytes ∧ FieldInfos.read wide fileName bytes = .ok infos

section Exact
variable {wide : ∀ w, UInt8 → Nat → BitVec w} {fileName : String} {infos : FieldInfos} {calls : List Add}

theorem Numbered.eq (h : Numbered infos calls) :
    infos = { byNumber := infos.byNumber, byName := fun name => (infos.byNumber.map FieldInfo.name).idxOf? name } := by
  have hbyName := funext h.byName
  rw [← h.byNumber] at hbyName
  rw [← hbyName]

theorem Numbered.roundTrips_iff_names (h : Numbered infos calls) :
    RoundTrips wide fileName infos ↔ (names calls).length < 0x80000000 ∧
      ∀ name ∈ names calls, validText name = true ∧ UNICODE_TERMINATOR ∉ name ∧ name.length < 0x20000000 := by
  have hbounds : -0x80000000 ≤ infos.size ∧ infos.size < 0x80000000 := by
    rw [FieldInfos.size, toInt32]
    omega
  have hwritten : (∃ fields, FieldInfos.writeFields infos.byNumber = some fields) ↔
      ∀ name ∈ names calls, ∃ bytes, writeStringInt32 name = some bytes := by
    rw [FieldInfos.isSome_writeFields_iff, ← h.byNumber, List.forall_mem_map]
  have hlength : (names calls).length < 0x80000000 ↔ infos.byNumber.length = infos.size.toNat := by
    rw [← h.length_eq, FieldInfos.size, toInt32]
    omega
  rw [hlength]
  constructor
  · rintro ⟨bytes, hwrite, hread⟩
    rw [FieldInfos.write, Option.map_eq_some_iff] at hwrite
    obtain ⟨fields, hfields, rfl⟩ := hwrite
    rw [FieldInfos.read_eq_ok_iff hbounds.1 hbounds.2] at hread
    have hsize : infos.byNumber.length = infos.size.toNat :=
      (FieldInfos.length_readFields hread).trans (Nat.zero_add _)
    have hagain := @FieldInfos.decodes_readFields wide _ _ .new hfields []
    rw [hsize, List.append_nil, hread, Except.ok.injEq, Prod.mk.injEq] at hagain
    have hnames := congrArg (fun infos => infos.byNumber.map FieldInfo.name) hagain.1
    rw [FieldInfos.names_addWritten, FieldInfos.new, List.map_nil, List.nil_append] at hnames
    refine ⟨hsize, fun name hmem => stringReadBack_eq_iff.mp ⟨hwritten.mp ⟨fields, hfields⟩ name hmem, ?_⟩⟩
    rw [← h.byNumber] at hmem
    obtain ⟨fi, hfi, rfl⟩ := List.mem_map.mp hmem
    exact (List.map_inj_left.mp hnames fi hfi).symm
  · rintro ⟨hsize, hvalid⟩
    have hback := fun name hmem => stringReadBack_eq_iff.mpr (hvalid name hmem)
    obtain ⟨fields, hfields⟩ := hwritten.mpr fun name hmem => (hback name hmem).1
    refine ⟨_, by rw [FieldInfos.write, hfields]; rfl, ?_⟩
    rw [FieldInfos.read_eq_ok_iff hbounds.1 hbounds.2, ← hsize]
    have hread := (@FieldInfos.decodes_readFields wide _ _ .new hfields).run_eq
    rw [hread, FieldInfos.addWritten_new (h.byNumber ▸ nodup_names calls) h.number, ← h.eq]
    intro fi hmem
    exact (hback fi.name (h.byNumber ▸ List.mem_map_of_mem hmem)).2

theorem Numbered.fieldNumber_eq (h : Numbered infos calls) {name : WString} {place : Nat}
    (hplace : (names calls)[place]? = some name) : infos.fieldNumber name = toInt32 place := by
  have hidx := idxOf?_of_getElem? (nodup_names calls) hplace
  rw [← h.byNumber, List.getElem?_map, Option.map_eq_some_iff] at hplace
  obtain ⟨info, hinfo, rfl⟩ := hplace
  rw [FieldInfos.fieldNumber, FieldInfos.fieldInfo, h.byName, hidx, Option.bind_some, hinfo]
  exact h.number place info hinfo

theorem Numbered.fieldInfoAt_eq (h : Numbered infos calls) (hlength : (names calls).length < 0x80000000)
    {number : Int} {info : FieldInfo} :
    infos.fieldInfoAt number = some info ↔ info ∈ infos.byNumber ∧ info.number = number := by
  rw [← h.length_eq] at hlength
  have hsize : infos.size = infos.byNumber.length := toInt32_of_lt (by omega) (by omega)
  have hnumber : ∀ {place : Nat} {info}, infos.byNumber[place]? = some info → info.number = place := by
    intro place info hinfo
    have hlt := (List.getElem?_eq_some_iff.mp hinfo).1
    rw [h.number place info hinfo, toInt32_of_lt (by omega) (by omega)]
  rw [FieldInfos.fieldInfoAt, hsize]
  constructor
  · intro hinfo
    split_ifs at hinfo with hbounds
    refine ⟨List.mem_of_getElem? hinfo, (hnumber hinfo).trans ?_⟩
    omega
  · rintro ⟨hmem, rfl⟩
    obtain ⟨place, hinfo⟩ := List.mem_iff_getElem?.mp hmem
    have hlt := (List.getElem?_eq_some_iff.mp hinfo).1
    rw [hnumber hinfo, if_pos (by omega), Int.toNat_natCast]
    exact hinfo

theorem Numbered.flags_eq (h : Numbered infos calls) (name : WString) :
    (infos.fieldInfo name).map FieldInfo.toFlags =
      if flagsOf calls name = [] then none else some (.combine (flagsOf calls name)) := by
  cases hinfo : infos.fieldInfo name with
  | none =>
      have hnot : name ∉ names calls := by
        rw [← h.byNumber]
        intro hmem
        obtain ⟨info, hinfos, rfl⟩ := List.mem_map.mp hmem
        rw [h.fieldInfo_eq_some_iff.mpr ⟨hinfos, rfl⟩] at hinfo
        cases hinfo
      rw [if_pos (flagsOf_eq_nil hnot)]
      rfl
  | some info =>
      obtain ⟨hmem, rfl⟩ := h.fieldInfo_eq_some_iff.mp hinfo
      have hname : info.name ∈ names calls := h.byNumber ▸ List.mem_map_of_mem hmem
      obtain ⟨call, hcall, heq⟩ := mem_names.mp hname
      have hne : flagsOf calls info.name ≠ [] := by
        apply List.ne_nil_of_mem (a := call.toFlags)
        exact List.mem_map_of_mem (List.mem_filter.mpr ⟨hcall, decide_eq_true heq⟩)
      rw [if_neg hne, Option.map_some, h.flags info hmem]

end Exact

/-- Numbers are given in the order in which the names first appear, and stay; a field is found by its number and by its
name; its flags do not depend on the order of the adds for it; the file of the fields is read as what they are. -/
structure Exact (wide : ∀ w, UInt8 → Nat → BitVec w) (fileName : String) (calls : List Add) : Prop where
  dense : ∀ (place : Nat) name, (names calls)[place]? = some name → (ofAdds calls).fieldNumber name = place
  stays : ∀ count, ∀ name ∈ names (calls.take count),
    (ofAdds calls).fieldNumber name = (ofAdds (calls.take count)).fieldNumber name
  byNumber : ∀ number info, (ofAdds calls).fieldInfoAt number = some info →
    info.number = number ∧ (ofAdds calls).fieldInfo info.name = some info
  byName : ∀ name info, (ofAdds calls).fieldInfo name = some info →
    info.name = name ∧ (ofAdds calls).fieldInfoAt info.number = some info
  orderFree : ∀ calls' name, (flagsOf calls name).Perm (flagsOf calls' name) →
    ((ofAdds calls).fieldInfo name).map FieldInfo.toFlags = ((ofAdds calls').fieldInfo name).map FieldInfo.toFlags
  roundTrips : RoundTrips wide fileName (ofAdds calls)

theorem numbering_exact_iff (wide : ∀ w, UInt8 → Nat → BitVec w) (fileName : String) (calls : List Add) :
    Exact wide fileName calls ↔ (names calls).length < 0x80000000 ∧
      ∀ call ∈ calls, validText call.name = true ∧ UNICODE_TERMINATOR ∉ call.name ∧ call.name.length < 0x20000000 := by
  have h := numbered_ofAdds calls
  have hnames : (∀ name ∈ names calls, validText name = true ∧ UNICODE_TERMINATOR ∉ name ∧ name.length < 0x20000000) ↔
      ∀ call ∈ calls, validText call.name = true ∧ UNICODE_TERMINATOR ∉ call.name ∧
        call.name.length < 0x20000000 := by
    constructor
    · exact fun hall call hmem => hall call.name (mem_names.mpr ⟨call, hmem, rfl⟩)
    · intro hall name hmem
      obtain ⟨call, hcall, rfl⟩ := mem_names.mp hmem
      exact hall call hcall
  rw [← hnames]
  constructor
  · exact fun hexact => h.roundTrips_iff_names.mp hexact.roundTrips
  · intro hcond
    refine ⟨?_, ?_, ?_, ?_, ?_, h.roundTrips_iff_names.mpr hcond⟩
    · intro place name hplace
      have hlt := (List.getElem?_eq_some_iff.mp hplace).1
      rw [h.fieldNumber_eq hplace, toInt32_of_lt (by omega) (by omega)]
    · intro count name hmem
      obtain ⟨place, hplace⟩ := List.mem_iff_getElem?.mp hmem
      obtain ⟨others, hothers⟩ := names_append (calls.take count) (calls.drop count)
      rw [List.take_append_drop] at hothers
      have hlt := (List.getElem?_eq_some_iff.mp hplace).1
      rw [(numbered_ofAdds (calls.take count)).fieldNumber_eq hplace]
      apply h.fieldNumber_eq
      rw [hothers, List.getElem?_append_left hlt, hplace]
    · intro number info hinfo
      obtain ⟨hmem, hnumber⟩ := (h.fieldInfoAt_eq hcond.1).mp hinfo
      exact ⟨hnumber, h.fieldInfo_eq_some_iff.mpr ⟨hmem, rfl⟩⟩
    · intro name info hinfo
      obtain ⟨hmem, hname⟩ := h.fieldInfo_eq_some_iff.mp hinfo
      exact ⟨hname, (h.fieldInfoAt_eq hcond.1).mpr ⟨hmem, rfl⟩⟩
    · intro calls' name hperm
      have hempty : flagsOf calls name = [] ↔ flagsOf calls' name = [] :=
        ⟨fun heq => (heq ▸ hperm).nil_eq.symm, fun heq => (heq ▸ hperm).eq_nil⟩
      rw [h.flags_eq, (numbered_ofAdds calls').flags_eq, Flags.combine_perm hperm]
      exact if_congr hempty rfl rfl

/-- A name that is the character U+1FFFF is read as an empty one. -/
theorem terminator_name_is_lost : ¬ ∃ wide fileName, Exact wide fileName
    [{ name := [⟨0x1ffff, by decide⟩], isIndexed := true, storeTermVector := false,
       storePositionWithTermVector := false, storeOffsetWithTermVector := false, omitNorms := false,
       storePayloads := false, omitTermFreqAndPositions := false }] := by
  rintro ⟨wide, fileName, h⟩
  exact absurd (((numbered_ofAdds _).roundTrips_iff_names.mp h.roundTrips).2 _ List.mem_cons_self).2.1 (by decide)

end FieldNumbering
end LucenePlusPlus
