import LucenePlusPlus.LazyFields

/-!
Lazily loaded fields have the values of those that are loaded at once, as long as the reader is open and no array is
given to two fields. But a binary field without bytes has no array when it is loaded lazily, and a text without
characters in a field without a name is left out when it is loaded at once.
-/

namespace LucenePlusPlus.StoredFields
open CopiedRuns Decoders IndexOutput IndexInput

namespace FieldValue

/-- What is written behind the length. -/
def bytes (size : Nat) : FieldValue → List UInt8
  | .text value => StringUtils.toUTF8 size value
  | .binary data => data

/-- What is read again. -/
def readBack (size : Nat) : FieldValue → FieldValue
  | .text value => .text (StringUtils.toUnicode 0 (StringUtils.toUTF8 size value))
  | .binary data => .binary data

theorem writeValue_eq (size : Nat) (value : FieldValue) :
    FieldsWriter.writeValue size value = writeVInt (value.bytes size).length ++ value.bytes size := by
  cases value <;> rfl

end FieldValue

namespace Field

/-- What is loaded at once, if anything is. -/
def eager (size : Nat) (info : FieldInfo) (field : Field) : Option Field :=
  let loaded : Field :=
    { name := info.name, isTokenized := !field.isBinary && info.isIndexed && field.isTokenized,
      value := field.value.readBack size }
  if loaded.isEmpty then none else some loaded

end Field

/-- The field stands for these bytes of the file, which have not been read. -/
structure LazyField.StandsFor (r : FieldsReader) (bytes : List UInt8) (binary : Bool) (f : LazyField) : Prop where
  isBinary : f.isBinary = binary
  toRead : f.toRead = bytes.length
  bytesAt : r.bytesAt f.pointer f.toRead = some bytes

namespace FieldsReader
variable {wide : ∀ w, UInt8 → Nat → BitVec w} {r : FieldsReader} {size : Nat}

theorem getFilePointer_eq (r : FieldsReader) (rest : List UInt8) :
    getFilePointer r rest = .ok (r.fdt.length - rest.length, rest) := rfl

theorem drop_behind {bytes rest : List UInt8} (h : bytes ++ rest <:+ r.fdt) :
    r.fdt.drop (r.fdt.length - (bytes ++ rest).length) = bytes ++ rest := (List.suffix_iff_eq_drop.mp h).symm

theorem seekTo_behind {bytes rest : List UInt8} (h : bytes ++ rest <:+ r.fdt) (from' : List UInt8) :
    seekTo r (((r.fdt.length - (bytes ++ rest).length : Nat) : Int) + bytes.length) from' = .ok ((), rest) := by
  have hnat : ((r.fdt.length - (bytes ++ rest).length : Nat) : Int) + bytes.length =
      ((r.fdt.length - (bytes ++ rest).length + bytes.length : Nat) : Int) := by
    push_cast
    rfl
  have hdrop : r.fdt.drop (r.fdt.length - (bytes ++ rest).length + bytes.length) = rest := by
    rw [← List.drop_drop, drop_behind h, List.drop_left]
  rw [seekTo, seek, hnat, if_neg (by omega), Int.toNat_natCast, hdrop]
  rfl

theorem bytesAt_behind {bytes rest : List UInt8} (h : bytes ++ rest <:+ r.fdt) :
    r.bytesAt (r.fdt.length - (bytes ++ rest).length) bytes.length = some bytes := by
  rw [bytesAt, drop_behind h, Int.toNat_natCast, if_pos (by rw [List.length_append]; omega), List.take_left]

theorem decodes_addField {info : FieldInfo} {field : Field} (hlength : (field.value.bytes size).length < 0x80000000) :
    Decodes (addField wide (some info) field.isBinary field.isTokenized) (FieldsWriter.writeValue size field.value)
      (field.eager size info) := by
  have hvalue : Decodes (readValue wide field.isBinary) (FieldsWriter.writeValue size field.value)
      (field.value.readBack size) := by
    obtain ⟨name, isTokenized, value⟩ := field
    cases value with
    | text value => exact (@decodes_readString wide size value hlength).map (decodes_pure _)
    | binary data =>
        apply Decodes.bind (decodes_readVInt (by omega) (Int.ofNat_lt.mpr hlength))
        rw [if_neg (by omega), Int.toNat_natCast]
        exact (decodes_take InputError.readPastEOF data).map (decodes_pure _)
  rw [addField]
  exact hvalue.map (decodes_pure _)

/-- What a field becomes by what the selector says. -/
def LoadedAs (r : FieldsReader) (size : Nat) (info : FieldInfo) (field : Field) :
    FieldSelectorResult → Option (Loaded LazyField) → Prop
  | .load, loaded | .loadAndBreak, loaded => loaded = (field.eager size info).map .field
  | .lazyLoad, loaded => ∃ f, loaded = some (.lazy f) ∧ f.name = info.name ∧ f.fieldsData = .null ∧
      f.StandsFor r (field.value.bytes size) field.isBinary
  | .size, loaded | .sizeAndBreak, loaded => loaded = some (.field
      ⟨info.name, false, .binary (writeInt (if field.isBinary then (field.value.bytes size).length
        else toInt32 (2 * (field.value.bytes size).length)))⟩)
  | .null, loaded | .noLoad, loaded => loaded = none

def breaks (accept : FieldSelectorResult) : Bool := accept = .loadAndBreak || accept = .sizeAndBreak

theorem readVInt_value {field : Field} (hlength : (field.value.bytes size).length < 0x80000000) (rest : List UInt8) :
    readVInt wide (FieldsWriter.writeValue size field.value ++ rest) =
      .ok (((field.value.bytes size).length : Int), field.value.bytes size ++ rest) := by
  rw [FieldValue.writeValue_eq, List.append_assoc]
  exact decodes_readVInt (by omega) (Int.ofNat_lt.mpr hlength) _

theorem loadAs_eq {info : FieldInfo} {field : Field} {rest : List UInt8}
    (hlength : (field.value.bytes size).length < 0x80000000)
    (hsuffix : FieldsWriter.writeValue size field.value ++ rest <:+ r.fdt) (accept : FieldSelectorResult) :
    ∃ loaded rest', loadAs wide r info field.isBinary field.isTokenized accept
        (FieldsWriter.writeValue size field.value ++ rest) = .ok ((breaks accept, loaded), rest') ∧
      (breaks accept = false → rest' = rest) ∧ LoadedAs r size info field accept loaded := by
  have hread := @readVInt_value wide size field hlength rest
  have hbehind : field.value.bytes size ++ rest <:+ r.fdt := by
    rw [FieldValue.writeValue_eq, List.append_assoc] at hsuffix
    exact (List.suffix_append _ _).trans hsuffix
  have hadd := @decodes_addField wide size info field hlength rest
  have hsize : addFieldSize wide info field.isBinary (FieldsWriter.writeValue size field.value ++ rest) =
      .ok ((((field.value.bytes size).length : Int), ⟨info.name, false, .binary (writeInt (if field.isBinary then
        (field.value.bytes size).length else toInt32 (2 * (field.value.bytes size).length)))⟩),
          field.value.bytes size ++ rest) := by
    rw [addFieldSize, bind_eq hread]
    rfl
  have hskip : skipField r (field.value.bytes size).length (field.value.bytes size ++ rest) = .ok ((), rest) := by
    rw [skipField, bind_eq (getFilePointer_eq r _)]
    exact seekTo_behind hbehind _
  cases accept with
  | load | loadAndBreak =>
      refine ⟨(field.eager size info).map .field, rest, ?_, fun _ => rfl, rfl⟩
      rw [loadAs, bind_eq hadd]
      rfl
  | lazyLoad =>
      refine ⟨some (.lazy ⟨info.name, (field.value.bytes size).length,
        r.fdt.length - (field.value.bytes size ++ rest).length, field.isBinary,
        if field.isBinary then ((field.value.bytes size).length : Int) else 0, .null⟩),
        rest, ?_, fun _ => rfl, _, rfl, rfl, rfl, rfl, rfl, bytesAt_behind hbehind⟩
      rw [loadAs, addFieldLazy, bind_assoc, bind_eq hread]
      rw [bind_assoc, bind_eq (getFilePointer_eq r _), bind_assoc, bind_eq (seekTo_behind hbehind _)]
      rfl
  | size =>
      refine ⟨_, rest, ?_, fun _ => rfl, rfl⟩
      rw [loadAs, bind_eq hsize]
      dsimp only
      rw [bind_eq hskip]
      rfl
  | sizeAndBreak =>
      refine ⟨_, field.value.bytes size ++ rest, ?_, fun h => Bool.noConfusion h, rfl⟩
      rw [loadAs, bind_eq hsize]
      rfl
  | null | noLoad =>
      refine ⟨none, rest, ?_, fun _ => rfl, rfl⟩
      rw [loadAs, bind_eq hread, bind_eq hskip]
      rfl

theorem loadField_eq {field : Field} {bytes rest : List UInt8} (hlength : (field.value.bytes size).length < 0x80000000)
    (hinfos : r.fieldInfos.length < 0x80000000) (hwrite : FieldsWriter.writeField size r.fieldInfos field = some bytes)
    (hsuffix : bytes ++ rest <:+ r.fdt) (fieldSelector : Option FieldSelector) :
    ∃ info, r.fieldInfos.fieldInfo field.name = some info ∧ info.name = field.name ∧ ∃ loaded rest',
      loadField wide r fieldSelector (bytes ++ rest) =
        .ok ((breaks (acceptField fieldSelector field.name), loaded), rest') ∧
      (breaks (acceptField fieldSelector field.name) = false → rest' = rest) ∧
        LoadedAs r size info field (acceptField fieldSelector field.name) loaded := by
  rw [FieldsWriter.writeField] at hwrite
  cases hfind : r.fieldInfos.findIdx? fun info => info.name = field.name with
  | none =>
      rw [hfind] at hwrite
      cases hwrite
  | some number =>
      rw [hfind] at hwrite
      obtain rfl := Option.some.inj hwrite
      obtain ⟨info, hnumber, hinfo, hname⟩ := findIdx?_fieldInfo hfind
      have hlt := (List.getElem?_eq_some_iff.mp hnumber).1
      refine ⟨info, hinfo, hname, ?_⟩
      have hsuffix' : FieldsWriter.writeValue size field.value ++ rest <:+ r.fdt :=
        ((List.suffix_cons _ _).trans (List.suffix_append (writeVInt number) _)).trans
          (by rwa [List.append_assoc, List.cons_append] at hsuffix)
      obtain ⟨loaded, rest', heq, hrest, hloaded⟩ := @loadAs_eq wide r size info field rest hlength hsuffix'
        (acceptField fieldSelector field.name)
      refine ⟨loaded, rest', ?_, hrest, hloaded⟩
      have hread : readVInt wide (writeVInt number ++ (.ofNat field.bits :: FieldsWriter.writeValue size field.value) ++
          rest) = .ok ((number : Int), .ofNat field.bits :: (FieldsWriter.writeValue size field.value ++ rest)) := by
        rw [List.append_assoc]
        exact decodes_readVInt (by omega) (by omega) _
      rw [loadField, bind_eq hread, if_pos (by omega), Int.toNat_natCast, hnumber]
      dsimp only
      rw [hname, ← heq]
      have hbits := toNat_bits field
      calc _ = loadAs wide r info ((UInt8.ofNat field.bits).toNat &&& FIELD_IS_BINARY != 0)
            ((UInt8.ofNat field.bits).toNat &&& FIELD_IS_TOKENIZED != 0) (acceptField fieldSelector field.name)
            (FieldsWriter.writeValue size field.value ++ rest) := rfl
        _ = _ := by rw [hbits.1, hbits.2]

/-- The fields up to the one that ends the loop. -/
def visited (fieldSelector : Option FieldSelector) : Document → Document
  | [] => []
  | field :: doc =>
      if breaks (acceptField fieldSelector field.name) then [field] else field :: visited fieldSelector doc

/-- `LoadedAs` for what is known of the field. -/
def LoadedBy (r : FieldsReader) (size : Nat) (fieldSelector : Option FieldSelector) (field : Field)
    (loaded : Option (Loaded LazyField)) : Prop :=
  ∃ info, r.fieldInfos.fieldInfo field.name = some info ∧ info.name = field.name ∧
    LoadedAs r size info field (acceptField fieldSelector field.name) loaded

theorem loadFields_eq {doc : Document} {bytes rest : List UInt8}
    (hlength : ∀ field ∈ doc, (field.value.bytes size).length < 0x80000000)
    (hinfos : r.fieldInfos.length < 0x80000000) (hwrite : FieldsWriter.writeFields size r.fieldInfos doc = some bytes)
    (hsuffix : bytes ++ rest <:+ r.fdt) (fieldSelector : Option FieldSelector) :
    ∃ loaded rest', loadFields wide r fieldSelector doc.length (bytes ++ rest) = .ok (loaded, rest') ∧
      List.Forall₂ (LoadedBy r size fieldSelector) (visited fieldSelector doc) loaded := by
  induction doc generalizing bytes with
  | nil => exact ⟨[], _, rfl, .nil⟩
  | cons field doc ih =>
      obtain ⟨first, others, hfirst, hothers, rfl⟩ := writeFields_cons hwrite
      rw [List.append_assoc] at hsuffix ⊢
      obtain ⟨info, hinfo, hname, loaded, rest', heq, hrest, hloaded⟩ := @loadField_eq wide r size field first
        (others ++ rest) (hlength field List.mem_cons_self) hinfos hfirst hsuffix fieldSelector
      rw [List.length_cons, loadFields, bind_eq heq, visited]
      cases hbreaks : breaks (acceptField fieldSelector field.name) with
      | true => exact ⟨[loaded], rest', rfl, .cons ⟨info, hinfo, hname, hloaded⟩ .nil⟩
      | false =>
          obtain rfl := hrest hbreaks
          obtain ⟨more, rest'', hmore, hall⟩ := ih (fun f hmem => hlength f (List.mem_cons_of_mem _ hmem)) hothers
            ((List.suffix_append _ _).trans hsuffix)
          refine ⟨loaded :: more, rest'', ?_, .cons ⟨info, hinfo, hname, hloaded⟩ hall⟩
          simp only [Bool.false_eq_true, if_false]
          rw [bind_eq hmore]
          rfl

/-- The document has at most as many fields as an `int32_t` counts, and so it is with the bytes of each. -/
structure Stored (r : FieldsReader) (size : Nat) (doc : Document) (piece : List UInt8) : Prop where
  written : FieldsWriter.writeDocument size r.fieldInfos doc = some piece
  length_lt : doc.length < 0x80000000
  bytes_lt : ∀ field ∈ doc, (field.value.bytes size).length < 0x80000000
  fieldInfos_lt : r.fieldInfos.length < 0x80000000

theorem load_eq {pieces : List (List UInt8)} (hholds : r.Holds pieces) {n : Nat} (hreaches : r.Reaches n)
    {piece : List UInt8} (hpiece : pieces[n + r.docStoreOffset]? = some piece) {doc : Document}
    (hstored : Stored r size doc piece) (fieldSelector : Option FieldSelector) :
    ∃ loaded, load wide r n fieldSelector = .ok loaded ∧
      List.Forall₂ (LoadedBy r size fieldSelector) (visited fieldSelector doc) loaded := by
  obtain ⟨hlt, rfl⟩ := List.getElem?_eq_some_iff.mp hpiece
  obtain ⟨fields, hfields, hbytes⟩ := Option.map_eq_some_iff.mp hstored.written
  have hlong := decodes_place (place_nonneg pieces _) (hholds.place_lt (n + r.docStoreOffset))
  have hcount := hstored.length_lt
  have hdrop : (pieces.drop (n + r.docStoreOffset)).flatten =
      writeVInt doc.length ++ (fields ++ (pieces.drop (n + r.docStoreOffset + 1)).flatten) := by
    rw [List.drop_eq_getElem_cons hlt, List.flatten_cons, ← hbytes, List.append_assoc]
  have hsuffix : fields ++ (pieces.drop (n + r.docStoreOffset + 1)).flatten <:+ r.fdt := by
    refine (List.suffix_append (writeVInt doc.length) _).trans ?_
    rw [← hdrop, hholds.files.fdt_eq]
    refine List.IsSuffix.trans ?_ (List.suffix_append _ _)
    exact ⟨(pieces.take (n + r.docStoreOffset)).flatten, by rw [← List.flatten_append, List.take_append_drop]⟩
  obtain ⟨loaded, rest', heq, hall⟩ := @loadFields_eq wide r size doc fields _ hstored.bytes_lt
    hstored.fieldInfos_lt hfields hsuffix fieldSelector
  refine ⟨loaded, ?_, hall⟩
  rw [load, seekIndex_of_reaches hholds hreaches, TermVectors.ok_bind, List.drop_eq_getElem_cons hlt, lengthsOf_cons,
    positions, List.flatMap_cons]
  dsimp only [StateT.run]
  rw [hlong, TermVectors.ok_bind]
  dsimp only
  rw [seek_place hholds, TermVectors.ok_bind, hdrop, bind_eq (decodes_readVInt (by omega) (by omega) _),
    Int.toNat_natCast, heq]
  rfl

end FieldsReader
end LucenePlusPlus.StoredFields
