import LucenePlusPlus.StoredFields
import LucenePlusPlus.TermVectorsRoundTrip

/-!
What `FieldsReader` reads of files whose index has the place of each document: the documents, one at a time or raw.
-/

namespace LucenePlusPlus.StoredFields
open Decoders IndexOutput IndexInput CopiedRuns

variable {wide : ∀ w, UInt8 → Nat → BitVec w}

section Index

theorem length_writeLong (i : Int) : (writeLong i).length = 8 := rfl

theorem length_flatMap_writeLong (places : List Int) : (places.flatMap writeLong).length = places.length * 8 := by
  induction places with
  | nil => rfl
  | cons place places ih => rw [List.flatMap_cons, List.length_append, length_writeLong, ih, List.length_cons]; omega

theorem drop_flatMap_writeLong (places : List Int) (n : Nat) :
    (places.flatMap writeLong).drop (n * 8) = (places.drop n).flatMap writeLong := by
  by_cases hle : n ≤ places.length
  · conv_lhs => rw [← List.take_append_drop n places, List.flatMap_append]
    rw [List.drop_left' (by rw [length_flatMap_writeLong, List.length_take, Nat.min_eq_left hle])]
  · have hnil : places.drop n = [] := List.drop_eq_nil_of_le (by omega)
    rw [hnil, List.flatMap_nil]
    apply List.drop_eq_nil_of_le
    rw [length_flatMap_writeLong]
    omega

theorem drop_positions (start : Int) (lengths : List Int) (n : Nat) :
    (positions start lengths).drop n = positions (start + (lengths.take n).sum) (lengths.drop n) := by
  induction n generalizing start lengths with
  | zero => rw [List.drop_zero, List.take_zero, List.sum_nil, Int.add_zero, List.drop_zero]
  | succ n ih =>
      cases lengths with
      | nil => rfl
      | cons length lengths =>
          rw [positions, List.drop_succ_cons, ih, List.take_succ_cons, List.sum_cons, Int.add_assoc, List.drop_succ_cons]

theorem drop_positions_lengthsOf (start : Int) (pieces : List (List UInt8)) (n : Nat) :
    (positions start (lengthsOf pieces)).drop n =
      positions (start + (pieces.take n).flatten.length) (lengthsOf (pieces.drop n)) := by
  rw [drop_positions, lengthsOf, ← List.map_take, ← List.map_drop, ← sum_lengthsOf]
  rfl

theorem drop_flatten (pieces : List (List UInt8)) (n : Nat) :
    pieces.flatten.drop (pieces.take n).flatten.length = (pieces.drop n).flatten := by
  conv_lhs => rw [← List.take_append_drop n pieces, List.flatten_append, List.take_append_drop]
  rw [List.drop_left]

theorem length_flatten_take_le (pieces : List (List UInt8)) (n : Nat) :
    (pieces.take n).flatten.length + (pieces.drop n).flatten.length = pieces.flatten.length := by
  rw [← List.length_append, ← List.flatten_append, List.take_append_drop]

theorem toInt32_add (i k : Int) : toInt32 (i + 0x100000000 * k) = toInt32 i := by
  rw [toInt32, toInt32]
  omega

theorem writeLong_toInt64 (i : Int) : writeLong (toInt64 i) = writeLong i := by
  have hsplit : i = toInt64 i + 0x10000000000000000 * ((i + 0x8000000000000000) / 0x10000000000000000) := by
    rw [toInt64]
    omega
  generalize (i + 0x8000000000000000) / 0x10000000000000000 = k at hsplit
  generalize toInt64 i = j at hsplit
  subst hsplit
  have hhigh : (j + 0x10000000000000000 * k) / 0x100000000 = j / 0x100000000 + 0x100000000 * k := by omega
  have hlow : j + 0x10000000000000000 * k = j + 0x100000000 * (0x100000000 * k) := by ring
  rw [writeLong, writeLong, hhigh, toInt32_add, hlow, toInt32_add]

theorem toInt64_of_writeLong {i j : Int} (h : writeLong i = writeLong j) : toInt64 i = toInt64 j := by
  have hdecodes : ∀ i, Decodes readLong (writeLong i) (toInt64 i) := by
    intro i
    rw [← writeLong_toInt64]
    apply decodes_readLong <;> rw [toInt64] <;> omega
  have hrun := (hdecodes i).run_eq
  rw [h, (hdecodes j).run_eq] at hrun
  exact (Prod.mk.inj (Except.ok.inj hrun)).1.symm

theorem toInt64_of_flatMap_writeLong {places places' : List Int}
    (h : places.flatMap writeLong = places'.flatMap writeLong) : places.map toInt64 = places'.map toInt64 := by
  induction places generalizing places' with
  | nil =>
      have hlength := congrArg List.length h
      rw [length_flatMap_writeLong, length_flatMap_writeLong, List.length_nil] at hlength
      rw [List.length_eq_zero_iff.mp (show places'.length = 0 by omega)]
  | cons place places ih =>
      cases places' with
      | nil =>
          have hlength := congrArg List.length h
          rw [length_flatMap_writeLong, length_flatMap_writeLong, List.length_cons, List.length_nil] at hlength
          omega
      | cons place' places' =>
          rw [List.flatMap_cons, List.flatMap_cons] at h
          obtain ⟨hfirst, hrest⟩ := List.append_inj h rfl
          rw [List.map_cons, List.map_cons, toInt64_of_writeLong hfirst, ih hrest]

theorem eq_of_map_toInt64 {places places' : List Int} (h : places.map toInt64 = places'.map toInt64)
    (hplaces : ∀ place ∈ places, -0x4000000000000000 ≤ place ∧ place < 0xC000000000000000)
    (hplaces' : ∀ place ∈ places', 0 ≤ place ∧ place < 0x8000000000000000) : places = places' := by
  induction places generalizing places' with
  | nil => exact (List.map_eq_nil_iff.mp h.symm).symm
  | cons place places ih =>
      cases places' with
      | nil => cases h
      | cons place' places' =>
          rw [List.map_cons, List.map_cons] at h
          obtain ⟨hfirst, hrest⟩ := List.cons.inj h
          have hplace := hplaces place List.mem_cons_self
          have hplace' := hplaces' place' List.mem_cons_self
          rw [toInt64, toInt64] at hfirst
          rw [ih hrest (fun p hmem => hplaces p (List.mem_cons_of_mem _ hmem)) fun p hmem =>
            hplaces' p (List.mem_cons_of_mem _ hmem), show place = place' by omega]

theorem separate_of_decodes {ε α : Type} {d : Decoder ε α} {bytes bytes' : List UInt8} {a a' : α}
    (h : Decodes d bytes a) (h' : Decodes d bytes' a') : Separate bytes bytes' := by
  rintro source ⟨rest, rfl⟩ ⟨rest', heq⟩
  have hrun := h rest
  rw [← heq, h' rest'] at hrun
  obtain rfl := (Prod.mk.inj (Except.ok.inj hrun)).2
  exact (List.append_cancel_right heq).symm

end Index

section Documents
variable {size : Nat} {infos infos' : FieldInfos}

/-- What is stored of a text is a text. Only fields that are indexed are tokenized. Lengths are `int32_t`. -/
structure Field.WellFormed (infos : FieldInfos) (field : Field) : Prop where
  isTokenized : field.isTokenized = true → field.isBinary = false ∧
    ∃ info, infos.fieldInfo field.name = some info ∧ info.isIndexed = true
  text : ∀ value, field.value = .text value →
    (WChar.validText value = true ∧ UTF8Base.UNICODE_TERMINATOR ∉ value) ∧ 4 * value.length < 0x80000000
  binary : ∀ data, field.value = .binary data → data.length < 0x80000000

/-- The fields that a reader knows have their numbers in `infos'`, too. -/
def Congruent (infos infos' : FieldInfos) : Prop :=
  ∀ (number : Nat) (info : FieldInfo), infos[number]? = some info →
    ∃ info', infos'[number]? = some info' ∧ info'.name = info.name ∧ (info.isIndexed = true → info'.isIndexed = true)

theorem Congruent.refl (infos : FieldInfos) : Congruent infos infos := fun _ info h => ⟨info, h, rfl, id⟩

theorem findIdx?_fieldInfo {name : WString} {number : Nat}
    (h : infos.findIdx? (fun info => info.name = name) = some number) :
    ∃ info, infos[number]? = some info ∧ infos.fieldInfo name = some info ∧ info.name = name := by
  obtain ⟨hlt, hname, hbefore⟩ := List.findIdx?_eq_some_iff_getElem.mp h
  refine ⟨infos[number], List.getElem?_eq_getElem hlt, ?_, of_decide_eq_true hname⟩
  rw [FieldInfos.fieldInfo, List.find?_eq_some_iff_getElem]
  exact ⟨hname, number, hlt, rfl, fun j hj => by simpa using hbefore j hj⟩

/-- What is read of a document: a text that is empty, as is its name, is left out. -/
def readBack (doc : Document) : Document := doc.filter fun field => !field.isEmpty

theorem readBack_readBack (doc : Document) : readBack (readBack doc) = readBack doc := by
  rw [readBack, readBack, List.filter_filter]
  apply List.filter_congr
  intro field _
  exact Bool.and_self _

theorem decodes_writeValue {field : Field} (h : field.WellFormed infos) :
    Decodes (FieldsReader.readValue wide field.isBinary) (FieldsWriter.writeValue size field.value) field.value := by
  obtain ⟨name, isTokenized, value⟩ := field
  cases value with
  | text value =>
      obtain ⟨htext, hlength⟩ := h.text value rfl
      have hutf8 := TermVectors.length_toUTF8_le size value
      have hstring := @decodes_readString wide size value (by omega)
      rw [(toUnicode_toUTF8_iff size value).mpr htext] at hstring
      exact hstring.map (decodes_pure _)
  | binary data =>
      have hlength := h.binary data rfl
      apply Decodes.bind (decodes_readVInt (by omega) (by omega))
      rw [if_neg (by omega), Int.toNat_natCast]
      exact (decodes_take InputError.readPastEOF data).map (decodes_pure _)

theorem toNat_bits (field : Field) :
    (((UInt8.ofNat field.bits).toNat &&& FIELD_IS_BINARY != 0) = field.isBinary) ∧
      (((UInt8.ofNat field.bits).toNat &&& FIELD_IS_TOKENIZED != 0) = field.isTokenized) := by
  rw [Field.bits]
  cases field.isTokenized <;> cases field.isBinary <;> decide

theorem decodes_readField {field : Field} {bytes : List UInt8} (hcongruent : Congruent infos infos')
    (hlength : infos.length < 0x80000000) (h : field.WellFormed infos)
    (hwrite : FieldsWriter.writeField size infos field = some bytes) :
    Decodes (FieldsReader.readField wide infos') bytes (if field.isEmpty then none else some field) := by
  rw [FieldsWriter.writeField] at hwrite
  cases hfind : infos.findIdx? fun info => info.name = field.name with
  | none =>
      rw [hfind] at hwrite
      cases hwrite
  | some number =>
      rw [hfind] at hwrite
      obtain rfl := Option.some.inj hwrite
      obtain ⟨info, hnumber, hinfo, hname⟩ := findIdx?_fieldInfo hfind
      obtain ⟨info', hnumber', hname', hindexed⟩ := hcongruent number info hnumber
      have hlt := (List.getElem?_eq_some_iff.mp hnumber).1
      apply Decodes.bind (decodes_readVInt (by omega) (by omega))
      apply Decodes.cons
      rw [(toNat_bits field).1, (toNat_bits field).2, if_pos (by omega), Int.toNat_natCast, hnumber',
        FieldsReader.addField]
      apply (decodes_writeValue h).map
      have hfield : (⟨info'.name, !field.isBinary && info'.isIndexed && field.isTokenized, field.value⟩ : Field) =
          field := by
        have htokenized : (!field.isBinary && info'.isIndexed && field.isTokenized) = field.isTokenized := by
          cases hfield : field.isTokenized with
          | false => rw [Bool.and_false]
          | true =>
              obtain ⟨hbinary, info'', hinfo'', hindexed''⟩ := h.isTokenized hfield
              rw [hinfo] at hinfo''
              obtain rfl := Option.some.inj hinfo''
              rw [hbinary, hindexed hindexed'']
              rfl
        rw [htokenized, hname', hname]
      rw [hfield]
      exact decodes_pure _

theorem writeFields_cons {field : Field} {doc : Document} {bytes : List UInt8}
    (h : FieldsWriter.writeFields size infos (field :: doc) = some bytes) :
    ∃ first rest, FieldsWriter.writeField size infos field = some first ∧
      FieldsWriter.writeFields size infos doc = some rest ∧ bytes = first ++ rest := by
  rw [FieldsWriter.writeFields] at h
  cases hfirst : FieldsWriter.writeField size infos field with
  | none =>
      rw [hfirst] at h
      cases h
  | some first =>
      cases hrest : FieldsWriter.writeFields size infos doc with
      | none =>
          rw [hfirst, hrest] at h
          cases h
      | some rest =>
          rw [hfirst, hrest] at h
          exact ⟨first, rest, rfl, rfl, (Option.some.inj h).symm⟩

theorem decodes_readFields {doc : Document} {bytes : List UInt8} (hcongruent : Congruent infos infos')
    (hlength : infos.length < 0x80000000) (h : ∀ field ∈ doc, field.WellFormed infos)
    (hwrite : FieldsWriter.writeFields size infos doc = some bytes) :
    Decodes (times (FieldsReader.readField wide infos') doc.length) bytes
      (doc.map fun field => if field.isEmpty then none else some field) := by
  induction doc generalizing bytes with
  | nil =>
      obtain rfl := Option.some.inj hwrite
      exact decodes_pure []
  | cons field doc ih =>
      obtain ⟨first, rest, hfirst, hrest, rfl⟩ := writeFields_cons hwrite
      apply (decodes_readField hcongruent hlength (h field List.mem_cons_self) hfirst).bind
      exact (ih (fun f hmem => h f (List.mem_cons_of_mem _ hmem)) hrest).map (decodes_pure _)

theorem filterMap_readBack (doc : Document) :
    (doc.map fun field => if field.isEmpty then none else some field).filterMap id = readBack doc := by
  induction doc with
  | nil => rfl
  | cons field doc ih =>
      rw [List.map_cons, readBack, List.filter_cons]
      cases hempty : field.isEmpty with
      | false => exact congrArg (field :: ·) ih
      | true => exact ih

/-- A document that has been stored. -/
structure Document.WellFormed (infos : FieldInfos) (doc : Document) : Prop where
  fields : ∀ field ∈ doc, field.WellFormed infos
  length_lt : doc.length < 0x80000000

theorem decodes_readDocument {doc : Document} {bytes : List UInt8} (hcongruent : Congruent infos infos')
    (hlength : infos.length < 0x80000000) (h : doc.WellFormed infos)
    (hwrite : FieldsWriter.writeDocument size infos doc = some bytes) :
    Decodes (FieldsReader.readDocument wide infos') bytes (readBack doc) := by
  obtain ⟨fields, hfields, rfl⟩ := Option.map_eq_some_iff.mp hwrite
  have hcount := h.length_lt
  apply Decodes.bind (decodes_readVInt (by omega) (by omega))
  rw [Int.toNat_natCast]
  apply (decodes_readFields hcongruent hlength h.fields hfields).map
  rw [filterMap_readBack]
  exact decodes_pure _

theorem writeDocument_isSome {doc : Document} (h : ∀ field ∈ doc, (infos.fieldInfo field.name).isSome = true) :
    ∃ bytes, FieldsWriter.writeDocument size infos doc = some bytes := by
  have hfields : ∃ bytes, FieldsWriter.writeFields size infos doc = some bytes := by
    induction doc with
    | nil => exact ⟨[], rfl⟩
    | cons field doc ih =>
        obtain ⟨rest, hrest⟩ := ih fun f hmem => h f (List.mem_cons_of_mem _ hmem)
        have hname := h field List.mem_cons_self
        rw [FieldInfos.fieldInfo, List.find?_isSome, ← List.any_eq_true, ← List.findIdx?_isSome] at hname
        obtain ⟨number, hnumber⟩ := Option.isSome_iff_exists.mp hname
        refine ⟨writeVInt number ++ (.ofNat field.bits :: FieldsWriter.writeValue size field.value) ++ rest, ?_⟩
        rw [FieldsWriter.writeFields, FieldsWriter.writeField, hnumber, hrest]
  obtain ⟨bytes, hbytes⟩ := hfields
  exact ⟨_, by rw [FieldsWriter.writeDocument, hbytes, Option.map_some]⟩

end Documents

/-! ### Files -/

/-- The data of the documents, one behind the other, and the place of each. -/
structure Files (pieces : List (List UInt8)) (fdx fdt : List UInt8) : Prop where
  fdx_eq : fdx = writeInt FORMAT_CURRENT ++ (positions FORMAT_SIZE (lengthsOf pieces)).flatMap writeLong
  fdt_eq : fdt = writeInt FORMAT_CURRENT ++ pieces.flatten

/-- The length that raw documents are copied by. -/
def rawLength (piece : List UInt8) : Int32 := .ofInt piece.length

namespace FieldsReader

/-- A file has a length that is an `int64_t`. -/
structure Holds (r : FieldsReader) (pieces : List (List UInt8)) : Prop where
  files : Files pieces r.fdx r.fdt
  numTotalDocs_eq : r.numTotalDocs = pieces.length
  length_fdt : r.fdt.length < 0x8000000000000000

/-- The place of a document in the index file is an `int32_t`. -/
def Reaches (r : FieldsReader) (docID : Nat) : Prop := FORMAT_SIZE + (docID + r.docStoreOffset) * 8 < 0x80000000

instance (r : FieldsReader) (docID : Nat) : Decidable (r.Reaches docID) := inferInstanceAs (Decidable (_ < _))

section Reading
variable {r : FieldsReader} {pieces : List (List UInt8)} {docID : Nat}

theorem Holds.length_flatten (h : r.Holds pieces) : (r.fdt.length : Int) = FORMAT_SIZE + pieces.flatten.length := by
  rw [h.files.fdt_eq, List.length_append, Nat.cast_add]
  rfl

/-- The place of a document's data. -/
def place (pieces : List (List UInt8)) (n : Nat) : Int := FORMAT_SIZE + (pieces.take n).flatten.length

theorem Holds.place_le (h : r.Holds pieces) (n : Nat) :
    place pieces n + (pieces.drop n).flatten.length = r.fdt.length := by
  rw [h.length_flatten, ← length_flatten_take_le pieces n, place]
  push_cast
  ring

theorem seekIndex_of_reaches (h : r.Holds pieces) (hreaches : r.Reaches docID) :
    seekIndex r docID = .ok ((positions (place pieces (docID + r.docStoreOffset))
      (lengthsOf (pieces.drop (docID + r.docStoreOffset)))).flatMap writeLong) := by
  rw [Reaches] at hreaches
  have hheader : (writeInt FORMAT_CURRENT).length = FORMAT_SIZE := rfl
  rw [seekIndex, if_pos hreaches, h.files.fdx_eq, ← List.drop_drop, List.drop_left' hheader, drop_flatMap_writeLong,
    drop_positions_lengthsOf, place]

theorem seekIndex_of_not_reaches (h : ¬ r.Reaches docID) : seekIndex r docID = .error .undefined := if_neg h

theorem seek_place (h : r.Holds pieces) (n : Nat) : seek r.fdt (place pieces n) = .ok (pieces.drop n).flatten := by
  have htoNat : (place pieces n).toNat = FORMAT_SIZE + (pieces.take n).flatten.length := Int.toNat_natCast _
  have hheader : (writeInt FORMAT_CURRENT).length = FORMAT_SIZE := rfl
  rw [seek, if_neg (by rw [place]; omega), htoNat, h.files.fdt_eq, ← List.drop_drop, List.drop_left' hheader, drop_flatten]

theorem decodes_place {place : Int} (hle : 0 ≤ place) (hlt : place < 0x8000000000000000) :
    Decodes readLong (writeLong place) place := decodes_readLong (by omega) hlt

theorem place_nonneg (pieces : List (List UInt8)) (n : Nat) : 0 ≤ place pieces n := Int.natCast_nonneg _

theorem Holds.place_lt (h : r.Holds pieces) (n : Nat) : place pieces n < 0x8000000000000000 := by
  have hle := h.place_le n
  have hlt := h.length_fdt
  omega

theorem doc_eq (h : r.Holds pieces) (hreaches : r.Reaches docID) {piece : List UInt8} {document : Document}
    (hpiece : pieces[docID + r.docStoreOffset]? = some piece)
    (hread : Decodes (readDocument wide r.fieldInfos) piece document) : doc wide r docID = .ok document := by
  obtain ⟨hlt, rfl⟩ := List.getElem?_eq_some_iff.mp hpiece
  have hlong := decodes_place (place_nonneg pieces _) (h.place_lt (docID + r.docStoreOffset))
  rw [doc, seekIndex_of_reaches h hreaches, TermVectors.ok_bind, List.drop_eq_getElem_cons hlt, lengthsOf_cons, positions,
    List.flatMap_cons]
  dsimp only [StateT.run]
  rw [hlong, TermVectors.ok_bind]
  dsimp only
  rw [seek_place h, TermVectors.ok_bind, List.drop_eq_getElem_cons hlt, List.flatten_cons, hread]
  rfl

theorem doc_of_not_reaches (h : ¬ r.Reaches docID) : doc wide r docID = .error .undefined := by
  rw [doc, seekIndex_of_not_reaches h]
  rfl

/-- The lengths of the pieces from the one before `docID` on, of which the index has the places that are left. -/
theorem readLengths_eq {piece : List UInt8} {rest : List (List UInt8)} {last : Int} {numDocs : Nat} (hlast : 0 ≤ last)
    (hend : last + (piece :: rest).flatten.length = r.fdt.length) (hlength : r.fdt.length < 0x8000000000000000)
    (hcount : docID + rest.length = r.numTotalDocs) (hle : numDocs ≤ rest.length + 1) :
    ∃ bytes, readLengths r docID last numDocs
        ((positions (last + piece.length) (lengthsOf rest)).flatMap writeLong) =
      .ok (((piece :: rest).take numDocs).map rawLength, bytes) := by
  induction numDocs generalizing docID piece rest last with
  | zero => exact ⟨_, rfl⟩
  | succ numDocs ih =>
      rw [List.flatten_cons, List.length_append, Nat.cast_add] at hend
      have hraw : Int32.ofInt (last + piece.length - last) = rawLength piece := by rw [rawLength, add_sub_cancel_left]
      cases rest with
      | nil =>
          rw [List.flatten_nil, List.length_nil, Nat.cast_zero, Int.add_zero] at hend
          rw [List.length_nil, Nat.add_zero] at hcount
          have hnone : numDocs = 0 := by
            rw [List.length_nil] at hle
            omega
          subst hnone
          refine ⟨[], ?_⟩
          rw [readLengths, bind_eq (show readOffset r docID _ = .ok (last + piece.length, _) by
            rw [readOffset, if_neg (by omega), hend]
            rfl), hraw]
          rfl
      | cons next rest =>
          have hlong := decodes_readLong (i := last + piece.length) (by omega) (by omega)
            ((positions (last + piece.length + next.length) (lengthsOf rest)).flatMap writeLong)
          rw [List.length_cons] at hcount hle
          obtain ⟨bytes, hrest⟩ := @ih (docID + 1) next rest (last + piece.length) (by omega) (by omega) (by omega) (by omega)
          refine ⟨bytes, ?_⟩
          rw [readLengths, lengthsOf_cons, positions, List.flatMap_cons, bind_eq (show readOffset r docID _ =
            .ok (last + piece.length, _) by rw [readOffset, if_pos (by omega), hlong]), bind_eq hrest, hraw]
          rfl

theorem rawDocs_eq (h : r.Holds pieces) (hreaches : r.Reaches docID) {numDocs : Nat} (hpos : 0 < numDocs)
    (hle : docID + r.docStoreOffset + numDocs ≤ pieces.length) :
    rawDocs r docID numDocs = .ok (((pieces.drop (docID + r.docStoreOffset)).take numDocs).map rawLength,
      (pieces.drop (docID + r.docStoreOffset)).flatten) := by
  have hlt : docID + r.docStoreOffset < pieces.length := by omega
  have hlong := decodes_place (place_nonneg pieces _) (h.place_lt (docID + r.docStoreOffset))
  have hend := h.place_le (docID + r.docStoreOffset)
  have htotal := h.numTotalDocs_eq
  rw [List.drop_eq_getElem_cons hlt] at hend
  obtain ⟨bytes, hlengths⟩ := @readLengths_eq r (r.docStoreOffset + docID + 1) _
    (pieces.drop (docID + r.docStoreOffset + 1)) _ numDocs (place_nonneg pieces (docID + r.docStoreOffset)) hend
    h.length_fdt (by rw [List.length_drop]; omega) (by rw [List.length_drop]; omega)
  rw [rawDocs, seekIndex_of_reaches h hreaches, TermVectors.ok_bind, List.drop_eq_getElem_cons hlt, lengthsOf_cons,
    positions, List.flatMap_cons]
  dsimp only [StateT.run]
  rw [hlong, TermVectors.ok_bind]
  dsimp only
  rw [hlengths, TermVectors.ok_bind]
  dsimp only
  rw [seek_place h, TermVectors.ok_bind, List.drop_eq_getElem_cons hlt]
  rfl

theorem rawDocs_of_not_reaches (h : ¬ r.Reaches docID) (numDocs : Nat) :
    rawDocs r docID numDocs = .error .undefined := by
  rw [rawDocs, seekIndex_of_not_reaches h]
  rfl

end Reading
end FieldsReader
end LucenePlusPlus.StoredFields
