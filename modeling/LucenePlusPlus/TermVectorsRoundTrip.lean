import LucenePlusPlus.StringRoundTrip
import LucenePlusPlus.TermVectors

/-!
What `TermVectorsReader` makes of the vectors that `TermVectorsWriter` has written. Positions never come back: where a
vector has them, they are not written, and where it has none, they are looked for.
-/

namespace LucenePlusPlus.TermVectors
open Decoders IndexOutput IndexInput Writer Reader

variable {wide : ∀ w, UInt8 → Nat → BitVec w}

section Integers

theorem decodes_readVLong {i : Int} (hle : -0x8000000000000000 ≤ i) (hlt : i < 0x8000000000000000) :
    Decodes (readVLong wide) (writeVLong i) i := by
  intro rest
  have hn : (i % 0x10000000000000000).toNat < 2 ^ (64 - 0) := by
    rw [show (2 : Nat) ^ (64 - 0) = 0x10000000000000000 from rfl]
    omega
  have hvalue : (BitVec.ofNat 64 (i % 0x10000000000000000).toNat).toInt = i := by
    rw [BitVec.toInt_eq_toNat_cond, BitVec.toNat_ofNat, show (2 : Nat) ^ 64 = 0x10000000000000000 from rfl]
    split <;> omega
  rw [readVLong, writeVLong, VInt.read, readFrom_encode _ _ _ hn (by decide)]
  dsimp only
  rw [List.drop_left, BitVec.shiftLeft_zero, show (0 : BitVec 64) = 0#64 from rfl, BitVec.zero_or, hvalue]

theorem decodes_readSize {n : Nat} (h : n < 0x80000000) : Decodes (readSize wide) (writeVInt n) n := by
  rw [readSize]
  apply (decodes_readVInt (by omega) (by omega)).map
  rw [if_neg (by omega), Int.toNat_natCast]
  exact decodes_pure n

theorem decodes_readInt32 (i : Int32) : Decodes (readVInt wide) (writeVInt i.toInt) i.toInt :=
  decodes_readVInt (by have := i.le_toInt; omega) (by have := i.toInt_lt; omega)

theorem add_sub_toInt (i j : Int32) : j + .ofInt (i - j).toInt = i := by
  rw [Int32.ofInt_toInt, Int32.add_comm, Int32.sub_add_cancel]

theorem decodes_readPositions (positions : List Int32) (lastPosition : Int32) :
    Decodes (readPositions wide positions.length lastPosition) (writePositions lastPosition positions) positions := by
  induction positions generalizing lastPosition with
  | nil => exact decodes_pure []
  | cons position positions ih =>
      rw [List.length_cons, readPositions, writePositions]
      apply (decodes_readInt32 _).bind
      rw [add_sub_toInt]
      exact (ih position).map (decodes_pure _)

theorem decodes_readOffsets (offsets : List OffsetInfo) (lastEndOffset : Int32) :
    Decodes (readOffsets wide offsets.length lastEndOffset) (writeOffsets lastEndOffset offsets) offsets := by
  induction offsets generalizing lastEndOffset with
  | nil => exact decodes_pure []
  | cons offset offsets ih =>
      rw [List.length_cons, readOffsets, writeOffsets, List.append_assoc]
      apply (decodes_readInt32 _).bind
      apply (decodes_readInt32 _).bind
      rw [add_sub_toInt, add_sub_toInt]
      exact (ih offset.endOffset).map (decodes_pure _)

end Integers

section Terms
variable {last utf8 : List UInt8}

theorem bytesDifference_le_left : ∀ (last utf8 : List UInt8), bytesDifference last utf8 ≤ last.length
  | [], [] => le_rfl
  | [], _ :: _ => le_rfl
  | _ :: _, [] => Nat.zero_le _
  | b :: last, b' :: utf8 => by
      rw [bytesDifference]
      split_ifs
      · exact Nat.succ_le_succ (bytesDifference_le_left last utf8)
      · exact Nat.zero_le _

theorem bytesDifference_le_right : ∀ (last utf8 : List UInt8), bytesDifference last utf8 ≤ utf8.length
  | [], [] => le_rfl
  | [], _ :: _ => Nat.zero_le _
  | _ :: _, [] => le_rfl
  | b :: last, b' :: utf8 => by
      rw [bytesDifference]
      split_ifs
      · exact Nat.succ_le_succ (bytesDifference_le_right last utf8)
      · exact Nat.zero_le _

theorem take_bytesDifference : ∀ (last utf8 : List UInt8),
    last.take (bytesDifference last utf8) = utf8.take (bytesDifference last utf8)
  | [], [] => rfl
  | [], _ :: _ => rfl
  | _ :: _, [] => rfl
  | b :: last, b' :: utf8 => by
      rw [bytesDifference]
      split_ifs with heq
      · rw [List.take_succ_cons, List.take_succ_cons, take_bytesDifference last utf8, heq]
      · rfl

theorem takeD_append_drop {byteBuffer : List UInt8} (h : byteBuffer.take last.length = last) :
    byteBuffer.takeD (bytesDifference last utf8) 0 ++ utf8.drop (bytesDifference last utf8) = utf8 := by
  have hle := bytesDifference_le_left last utf8
  have hlength : last.length ≤ byteBuffer.length := by
    rw [← h, List.length_take]
    exact Nat.min_le_right _ _
  have htake : byteBuffer.take (bytesDifference last utf8) = last.take (bytesDifference last utf8) := by
    rw [← h, List.take_take, Nat.min_eq_left (by rw [h]; exact hle), h]
  rw [List.takeD_eq_take _ (by omega), htake, take_bytesDifference, List.take_append_drop]

theorem length_utf32to8_le (length : Nat) (utf8 : List UInt8) (text : List WChar) :
    (UTF8Encoder.utf32to8 length utf8 text).2.length ≤ utf8.length + 4 * text.length := by
  induction text generalizing utf8 with
  | nil => rw [UTF8Encoder.utf32to8]; exact Nat.le_add_right _ _
  | cons c text ih =>
      have hchar := UTF8Encoder.length_appendChar_le c.toUInt32
      rw [UTF8Encoder.utf32to8, List.length_cons]
      dsimp only
      split_ifs
      · exact Nat.le_add_right _ _
      · exact Nat.le_add_right _ _
      · rw [List.length_append]
        omega
      · have hle := ih (utf8 ++ UTF8Encoder.appendChar c.toUInt32)
        rw [List.length_append] at hle
        omega

theorem length_toUTF8_le (size : Nat) (text : List WChar) : (StringUtils.toUTF8 size text).length ≤ 4 * text.length := by
  rw [StringUtils.toUTF8]
  split_ifs
  · exact Nat.zero_le _
  · have hle := length_utf32to8_le (max size (text.length * StringUtils.MAX_ENCODING_UTF8_SIZE)) [] text
    rw [List.length_nil, Nat.zero_add] at hle
    rw [List.length_take]
    exact (Nat.min_le_right _ _).trans hle

end Terms

/-- A vector whose arrays agree with one another; the arrays that its terms are put in have sizes that are `int32_t`. -/
structure TermFreqVector.WellFormed (vector : TermFreqVector) : Prop where
  plain : vector.isTermPositionVector = false →
    ∀ entry ∈ vector.entries, entry.positions = none ∧ entry.offsets = none
  positions_isSome : ∀ entry ∈ vector.entries, ∀ entry' ∈ vector.entries,
    entry.positions.isSome = entry'.positions.isSome
  offsets_isSome : ∀ entry ∈ vector.entries, ∀ entry' ∈ vector.entries, entry.offsets.isSome = entry'.offsets.isSome
  length_positions : ∀ entry ∈ vector.entries, ∀ positions, entry.positions = some positions →
    (positions.length : Int) = entry.freq.toInt
  length_offsets : ∀ entry ∈ vector.entries, ∀ offsets, entry.offsets = some offsets →
    (offsets.length : Int) = entry.freq.toInt
  length_entries : vector.entries.length < 0x80000000
  length_term : ∀ entry ∈ vector.entries, 6 * entry.term.length < 0x80000000

abbrev Vector := { vector : TermFreqVector // vector.WellFormed }

/-- What is read of a term. -/
def readEntry (size : Nat) (storePositions storeOffsets : Bool) (entry : TermEntry) : TermEntry where
  term := StringUtils.toUnicode 0 (StringUtils.toUTF8 size entry.term)
  freq := entry.freq
  positions := if storePositions then entry.positions else none
  offsets := if storeOffsets then entry.offsets else none

section Entries
variable {size : Nat} {storePositions storeOffsets : Bool}

theorem decodes_term {last utf8 : List UInt8}
    (hutf8 : utf8.length < 0x80000000) {α : Type} {f : Nat → Nat → List UInt8 → Decoder InputError α} {bytes : List UInt8}
    {a : α} (hf : Decodes (f (bytesDifference last utf8) (utf8.length - bytesDifference last utf8)
      (utf8.drop (bytesDifference last utf8))) bytes a) :
    Decodes (do
      let start ← readSize wide
      let deltaLength ← readSize wide
      let delta ← take .readPastEOF deltaLength
      f start deltaLength delta) (writeTerm last utf8 ++ bytes) a := by
  have hle := bytesDifference_le_right last utf8
  have hcast : (utf8.length : Int) - bytesDifference last utf8 = ((utf8.length - bytesDifference last utf8 : Nat) : Int) :=
    (Nat.cast_sub hle).symm
  have htake := decodes_take InputError.readPastEOF (utf8.drop (bytesDifference last utf8))
  rw [List.length_drop] at htake
  rw [writeTerm, hcast, List.append_assoc, List.append_assoc]
  apply (decodes_readSize (by omega)).bind
  apply (decodes_readSize (by omega)).bind
  exact htake.bind hf

theorem decodes_stored {α : Type} {d : Decoder InputError α} {store : Bool} {bytes : List UInt8} {a : Option α}
    (hnone : store = true → a ≠ none) (h : ∀ b, a = some b → Decodes d bytes b) :
    Decodes (stored store d) (if store then bytes else []) (if store then a else none) := by
  cases store with
  | false => exact decodes_pure none
  | true =>
      cases a with
      | none => exact absurd rfl (hnone rfl)
      | some b => exact (h b rfl).map (decodes_pure (some b))

theorem decodes_occurrences {entry : TermEntry} {bytes : List UInt8}
    (h : writeOccurrences storePositions storeOffsets entry = .ok bytes)
    (hpositions : ∀ positions, entry.positions = some positions → (positions.length : Int) = entry.freq.toInt)
    (hoffsets : ∀ offsets, entry.offsets = some offsets → (offsets.length : Int) = entry.freq.toInt)
    {α : Type} {f : Option (List Int32) → Option (List OffsetInfo) → Decoder InputError α} {bytes' : List UInt8} {a : α}
    (hf : Decodes (f (if storePositions then entry.positions else none) (if storeOffsets then entry.offsets else none))
      bytes' a) :
    Decodes (do
      let positions ← stored storePositions (readPositions wide entry.freq.toInt.toNat 0)
      let offsets ← stored storeOffsets (readOffsets wide entry.freq.toInt.toNat 0)
      f positions offsets) (bytes ++ bytes') a := by
  rw [writeOccurrences] at h
  by_cases hpositionsNull : storePositions = true ∧ entry.positions.isNone = true
  · rw [if_pos hpositionsNull] at h
    cases h
  rw [if_neg hpositionsNull] at h
  by_cases hoffsetsNull : storeOffsets = true ∧ entry.offsets.isNone = true
  · rw [if_pos hoffsetsNull] at h
    cases h
  rw [if_neg hoffsetsNull] at h
  obtain rfl := Except.ok.inj h
  rw [List.append_assoc]
  have hpositionsRead : Decodes (stored storePositions (readPositions wide entry.freq.toInt.toNat 0))
      (if storePositions then writePositions 0 (entry.positions.getD []) else [])
      (if storePositions then entry.positions else none) := by
    apply decodes_stored
    · intro hstore hnone
      exact hpositionsNull ⟨hstore, by rw [hnone]; rfl⟩
    · intro positions hsome
      have hlength := hpositions positions hsome
      rw [hsome, Option.getD_some, show entry.freq.toInt.toNat = positions.length by omega]
      exact decodes_readPositions positions 0
  have hoffsetsRead : Decodes (stored storeOffsets (readOffsets wide entry.freq.toInt.toNat 0))
      (if storeOffsets then writeOffsets 0 (entry.offsets.getD []) else [])
      (if storeOffsets then entry.offsets else none) := by
    apply decodes_stored
    · intro hstore hnone
      exact hoffsetsNull ⟨hstore, by rw [hnone]; rfl⟩
    · intro offsets hsome
      have hlength := hoffsets offsets hsome
      rw [hsome, Option.getD_some, show entry.freq.toInt.toNat = offsets.length by omega]
      exact decodes_readOffsets offsets 0
  have hrest := hoffsetsRead.bind hf
  exact hpositionsRead.bind (f := fun positions => stored storeOffsets (readOffsets wide entry.freq.toInt.toNat 0) >>=
    f positions) hrest

theorem decodes_readEntries {entries : List TermEntry} {last byteBuffer bytes : List UInt8}
    (hbuffer : byteBuffer.take last.length = last)
    (h : writeEntries size storePositions storeOffsets last entries = .ok bytes)
    (hpositions : ∀ entry ∈ entries, ∀ positions, entry.positions = some positions →
      (positions.length : Int) = entry.freq.toInt)
    (hoffsets : ∀ entry ∈ entries, ∀ offsets, entry.offsets = some offsets →
      (offsets.length : Int) = entry.freq.toInt)
    (hterm : ∀ entry ∈ entries, 6 * entry.term.length < 0x80000000) :
    Decodes (readEntries wide storePositions storeOffsets entries.length byteBuffer) bytes
      (entries.map (readEntry size storePositions storeOffsets)) := by
  induction entries generalizing last byteBuffer bytes with
  | nil =>
      obtain rfl := Except.ok.inj h
      exact decodes_pure []
  | cons entry entries ih =>
      rw [writeEntries] at h
      cases hoccurrences : writeOccurrences storePositions storeOffsets entry with
      | error e =>
          rw [hoccurrences] at h
          cases h
      | ok occurrences =>
          cases hrest : writeEntries size storePositions storeOffsets (StringUtils.toUTF8 size entry.term) entries with
          | error e =>
              rw [hoccurrences, hrest] at h
              cases h
          | ok rest =>
              rw [hoccurrences, hrest] at h
              obtain rfl := Except.ok.inj h
              have hutf8 := length_toUTF8_le size entry.term
              have hlength := hterm entry List.mem_cons_self
              have hle := bytesDifference_le_right last (StringUtils.toUTF8 size entry.term)
              rw [List.length_cons, readEntries, List.map_cons, List.append_assoc, List.append_assoc]
              refine decodes_term (by omega) ?_
              apply (decodes_readInt32 entry.freq).bind
              refine decodes_occurrences hoccurrences (hpositions entry List.mem_cons_self)
                (hoffsets entry List.mem_cons_self) ?_
              rw [takeD_append_drop hbuffer, Nat.add_sub_cancel' hle]
              have hbuffer' : (StringUtils.toUTF8 size entry.term ++
                  byteBuffer.drop (StringUtils.toUTF8 size entry.term).length).take
                    (StringUtils.toUTF8 size entry.term).length = StringUtils.toUTF8 size entry.term := List.take_left
              have hentry := ih hbuffer' hrest
                (fun entry' hmem => hpositions entry' (List.mem_cons_of_mem _ hmem))
                (fun entry' hmem => hoffsets entry' (List.mem_cons_of_mem _ hmem))
                (fun entry' hmem => hterm entry' (List.mem_cons_of_mem _ hmem))
              apply hentry.map
              rw [List.take_left, Int32.ofInt_toInt]
              exact decodes_pure _

end Entries

section Vectors
variable {size : Nat} {vector : TermFreqVector} {bytes : List UInt8}

theorem storePositions_of_writeVector (h : writeVector size vector = .ok bytes) : storePositions vector = false := by
  rw [← Bool.not_eq_true]
  intro hstore
  have hentries : ∃ entry entries, vector.entries = entry :: entries ∧ entry.positions = none := by
    rw [storePositions, Bool.and_eq_true] at hstore
    cases hcons : vector.entries with
    | nil =>
        rw [hcons] at hstore
        cases hstore.2
    | cons entry entries =>
        rw [hcons] at hstore
        exact ⟨entry, entries, rfl, Option.isNone_iff_eq_none.mp hstore.2⟩
  obtain ⟨entry, entries, hcons, hnone⟩ := hentries
  rw [writeVector, hstore, hcons, writeEntries, writeOccurrences, if_pos ⟨rfl, by rw [hnone]; rfl⟩] at h
  cases h

theorem writeVector_ok (hwell : vector.WellFormed) (hnot : storePositions vector = false) :
    ∃ bytes, writeVector size vector = .ok bytes := by
  have hwrite : ∀ entries last, (∀ entry ∈ entries, entry ∈ vector.entries) →
      ∃ bytes, writeEntries size false (storeOffsets vector) last entries = .ok bytes := by
    intro entries
    induction entries with
    | nil => exact fun _ _ => ⟨[], rfl⟩
    | cons entry entries ih =>
        intro last hmem
        obtain ⟨rest, hrest⟩ := ih (StringUtils.toUTF8 size entry.term) fun e he => hmem e (List.mem_cons_of_mem _ he)
        have hoffsets : ¬ (storeOffsets vector = true ∧ entry.offsets.isNone = true) := by
          rintro ⟨hstore, hnone⟩
          rw [storeOffsets, Bool.and_eq_true] at hstore
          cases hcons : vector.entries with
          | nil =>
              rw [hcons] at hstore
              cases hstore.2
          | cons first others =>
              rw [hcons] at hstore
              have hsame := hwell.offsets_isSome entry (hmem entry List.mem_cons_self) first (hcons ▸ List.mem_cons_self)
              have hsome : first.offsets.isSome = true := hstore.2
              rw [Option.isNone_iff_eq_none.mp hnone, hsome] at hsame
              cases hsame
        refine ⟨writeTerm last (StringUtils.toUTF8 size entry.term) ++ writeVInt entry.freq.toInt ++
          (if storeOffsets vector then writeOffsets 0 (entry.offsets.getD []) else []) ++ rest, ?_⟩
        rw [writeEntries, writeOccurrences, if_neg (by simp), if_neg hoffsets, hrest]
        rfl
  obtain ⟨written, hwritten⟩ := hwrite vector.entries [] fun _ hmem => hmem
  refine ⟨writeVInt vector.entries.length ++ writeVInt (bits vector) ++ written, ?_⟩
  rw [writeVector, hnot, hwritten]
  rfl

/-- What is read of a vector, when the number of its field has this name. -/
def readVector (size : Nat) (field : List WChar) (vector : TermFreqVector) : Option TermFreqVector :=
  if vector.entries = [] ∨ field = [] then none
  else some ⟨field, true, vector.entries.map (readEntry size false (storeOffsets vector))⟩

theorem decodes_bits (hnot : storePositions vector = false) :
    Decodes readByte (writeVInt (bits vector)) (.ofNat (bits vector)) := by
  have hlt : bits vector < 128 := by
    rw [bits, hnot]
    cases storeOffsets vector <;> decide
  have hmod : ((bits vector : Int) % 0x100000000).toNat = bits vector := by omega
  rw [writeVInt, hmod, VarInt.encode_of_lt hlt]
  exact fun rest => rfl

theorem decodes_readTermVector (hwell : vector.WellFormed) (hne : vector.entries ≠ [])
    (h : writeVector size vector = .ok bytes) (field : List WChar) :
    Decodes (readTermVector wide field) bytes (readVector size field vector) := by
  intro rest
  have hnot := storePositions_of_writeVector h
  have hsize := @decodes_readSize wide _ hwell.length_entries
  rw [writeVector, hnot] at h
  cases hentries : writeEntries size false (storeOffsets vector) [] vector.entries with
  | error e =>
      rw [hentries] at h
      cases h
  | ok written =>
      rw [hentries] at h
      obtain rfl := Except.ok.inj h
      rw [List.append_assoc, List.append_assoc]
      rw [readTermVector, readVector]
      have hbuffer : (List.replicate 20 (0 : UInt8)).take ([] : List UInt8).length = [] := rfl
      have hread := @decodes_readEntries wide _ _ _ _ _ _ _ hbuffer hentries
        hwell.length_positions hwell.length_offsets hwell.length_term
      have hpositions : ((UInt8.ofNat (bits vector)).toNat &&& STORE_POSITIONS_WITH_TERMVECTOR != 0) = false := by
        rw [bits, hnot]
        cases storeOffsets vector <;> decide
      have hoffsets : ((UInt8.ofNat (bits vector)).toNat &&& STORE_OFFSET_WITH_TERMVECTOR != 0) =
          storeOffsets vector := by
        rw [bits, hnot]
        cases storeOffsets vector <;> decide
      rw [bind_eq (hsize _), if_neg (by rwa [List.length_eq_zero_iff]), bind_eq (decodes_bits hnot _), hpositions,
        hoffsets, bind_eq (hread rest)]
      by_cases hfield : field = []
      · rw [if_pos hfield, if_pos (Or.inr hfield)]
        rfl
      · rw [if_neg hfield, if_neg (by simp [hne, hfield])]
        rfl

theorem readTermVector_eq (hwell : vector.WellFormed) (h : writeVector size vector = .ok bytes) (field : List WChar)
    (rest : List UInt8) :
    ∃ rest', readTermVector wide field (bytes ++ rest) = .ok (readVector size field vector, rest') := by
  by_cases hnil : vector.entries = []
  · have hnot := storePositions_of_writeVector h
    have hsize := @decodes_readSize wide _ hwell.length_entries
    rw [writeVector, hnot, hnil] at h
    obtain rfl := Except.ok.inj h
    refine ⟨writeVInt (bits vector) ++ rest, ?_⟩
    rw [hnil] at hsize
    rw [List.append_nil, List.append_assoc, readTermVector, readVector, bind_eq (hsize _),
      if_pos List.length_nil, if_pos (Or.inl hnil)]
    rfl
  · exact ⟨rest, decodes_readTermVector hwell hnil h field rest⟩

theorem fieldName_fieldNumber (fieldInfos : FieldNames) (field : List WChar) :
    fieldInfos.fieldName (fieldInfos.fieldNumber field) = if field ∈ fieldInfos then field else [] := by
  rw [FieldNames.fieldNumber]
  split_ifs with hmem
  · have hlt := List.idxOf_lt_length_of_mem hmem
    rw [FieldNames.fieldName, if_pos (by omega), Int.toNat_natCast, List.getD_eq_getElem?_getD, List.getElem?_eq_getElem hlt, Option.getD_some,
      List.getElem_idxOf]
  · rfl

/-- The vector as an object of one of the classes that are read. -/
def TermFreqVector.asRead (vector : TermFreqVector) : TermFreqVector := { vector with isTermPositionVector := true }

/-- A vector of another class than those, with terms that are texts, of a field that has a name. -/
structure TermFreqVector.ComesBack (fieldInfos : FieldNames) (vector : TermFreqVector) : Prop where
  plain : vector.isTermPositionVector = false
  entries_ne : vector.entries ≠ []
  field_ne : vector.field ≠ []
  field_mem : vector.field ∈ fieldInfos
  valid : ∀ entry ∈ vector.entries, WChar.validText entry.term = true ∧ UTF8Base.UNICODE_TERMINATOR ∉ entry.term

theorem readEntry_eq_iff (size : Nat) (entry : TermEntry) (storeOffsets : Bool) :
    readEntry size false storeOffsets entry = entry ↔
      (WChar.validText entry.term = true ∧ UTF8Base.UNICODE_TERMINATOR ∉ entry.term) ∧ entry.positions = none ∧
        (storeOffsets = false → entry.offsets = none) := by
  obtain ⟨term, freq, positions, offsets⟩ := entry
  rw [readEntry, TermEntry.mk.injEq, toUnicode_toUTF8_iff]
  constructor
  · rintro ⟨hterm, -, hpositions, hoffsets⟩
    refine ⟨hterm, hpositions.symm, fun hstore => ?_⟩
    subst hstore
    exact hoffsets.symm
  · rintro ⟨hterm, hpositions, hoffsets⟩
    refine ⟨hterm, rfl, hpositions.symm, ?_⟩
    cases storeOffsets with
    | false => exact (hoffsets rfl).symm
    | true => rfl

theorem readVector_eq_iff {fieldInfos : FieldNames} (hwell : vector.WellFormed) (hnot : storePositions vector = false) :
    readVector size (fieldInfos.fieldName (fieldInfos.fieldNumber vector.field)) vector = some vector.asRead ↔
      vector.ComesBack fieldInfos := by
  rw [fieldName_fieldNumber, readVector]
  constructor
  · intro heq
    by_cases hnone : vector.entries = [] ∨ (if vector.field ∈ fieldInfos then vector.field else []) = []
    · rw [if_pos hnone] at heq
      cases heq
    · rw [if_neg hnone, Option.some.injEq] at heq
      rw [not_or] at hnone
      have hfield : vector.field ∈ fieldInfos := by
        by_contra hmem
        exact hnone.2 (if_neg hmem)
      have hentries : ∀ entry ∈ vector.entries, readEntry size false (storeOffsets vector) entry = entry := by
        have hmap : vector.entries.map (readEntry size false (storeOffsets vector)) = vector.entries.map id :=
          (congrArg TermFreqVector.entries heq).trans (List.map_id _).symm
        exact List.map_inj_left.mp hmap
      have hplain : vector.isTermPositionVector = false := by
        rw [← Bool.not_eq_true]
        intro hposition
        obtain ⟨entry, entries, hcons⟩ := List.exists_cons_of_ne_nil hnone.1
        have hpositions := ((readEntry_eq_iff size entry _).mp (hentries entry (hcons ▸ List.mem_cons_self))).2.1
        have hsome : entry.positions.isNone = false := by
          rw [storePositions, hposition, hcons, Bool.true_and] at hnot
          exact hnot
        rw [hpositions] at hsome
        cases hsome
      rw [if_pos hfield] at hnone
      exact ⟨hplain, hnone.1, hnone.2, hfield, fun entry hmem => ((readEntry_eq_iff size entry _).mp (hentries entry hmem)).1⟩
  · intro h
    have hoffsets : storeOffsets vector = false := by
      rw [storeOffsets, h.plain, Bool.false_and]
    have hentries : vector.entries.map (readEntry size false false) = vector.entries := by
      refine (List.map_inj_left.mpr fun entry hmem => ?_).trans (List.map_id _)
      obtain ⟨hpositions, hoffsets⟩ := hwell.plain h.plain entry hmem
      exact (readEntry_eq_iff size entry false).mpr ⟨h.valid entry hmem, hpositions, fun _ => hoffsets⟩
    rw [if_pos h.field_mem, if_neg (not_or.mpr ⟨h.entries_ne, h.field_ne⟩), hoffsets, hentries]
    rfl

end Vectors

/-! ### The vectors of a document -/

section Documents
variable {size docNum docStoreOffset : Nat} {w w' : Writer} {vectors : List Vector}

/-- What is read of a document whose writer knows these fields. -/
def readVectors (size : Nat) (fieldInfos : FieldNames) (vectors : List Vector) : List (Option TermFreqVector) :=
  vectors.map fun vector =>
    readVector size (fieldInfos.fieldName (fieldInfos.fieldNumber vector.1.field)) vector.1

theorem writeVectors_cons {pointer : Nat} {vector : TermFreqVector} {rest : List TermFreqVector}
    {written : List UInt8 × List Nat} (h : writeVectors size pointer (vector :: rest) = .ok written) :
    ∃ bytes others, writeVector size vector = .ok bytes ∧ writeVectors size (pointer + bytes.length) rest = .ok others ∧
      written = (bytes ++ others.1, pointer :: others.2) := by
  rw [writeVectors] at h
  cases hvector : writeVector size vector with
  | error e =>
      rw [hvector] at h
      cases h
  | ok bytes =>
      rw [hvector] at h
      change (writeVectors size (pointer + bytes.length) rest >>= _) = _ at h
      cases hrest : writeVectors size (pointer + bytes.length) rest with
      | error e =>
          rw [hrest] at h
          cases h
      | ok others =>
          rw [hrest] at h
          exact ⟨bytes, others, rfl, hrest, (Except.ok.inj h).symm⟩

/-- The pointers are those of places behind one another, of which the first is where the document starts. -/
structure Pointers (pointer last : Nat) (vectors : List Vector) (pointers : List Nat) : Prop where
  length_eq : pointers.length = vectors.length
  le_last : ∀ p ∈ pointers, p ≤ last
  sorted : pointers.Pairwise (· ≤ ·)
  head_eq : vectors ≠ [] → ∃ rest, pointers = pointer :: rest
  le_of_mem : ∀ p ∈ pointers, pointer ≤ p

theorem pointers_of_writeVectors {pointer : Nat} {written : List UInt8 × List Nat}
    (h : writeVectors size pointer (vectors.map Subtype.val) = .ok written) :
    Pointers pointer (pointer + written.1.length) vectors written.2 := by
  induction vectors generalizing pointer written with
  | nil =>
      obtain rfl := Except.ok.inj h
      exact ⟨rfl, fun p hmem => absurd hmem List.not_mem_nil, List.Pairwise.nil, fun hne => absurd rfl hne,
        fun p hmem => absurd hmem List.not_mem_nil⟩
  | cons vector vectors ih =>
      obtain ⟨bytes, others, -, hothers, rfl⟩ := writeVectors_cons h
      have hrest := ih hothers
      refine ⟨by rw [List.length_cons, List.length_cons, hrest.length_eq], ?_, ?_, fun _ => ⟨_, rfl⟩, ?_⟩
      · intro p hmem
        rw [List.length_append]
        rcases List.mem_cons.mp hmem with rfl | hmem
        · omega
        · have hle := hrest.le_last p hmem
          omega
      · rw [List.pairwise_cons]
        exact ⟨fun p hmem => (Nat.le_add_right _ _).trans (hrest.le_of_mem p hmem), hrest.sorted⟩
      · intro p hmem
        rcases List.mem_cons.mp hmem with rfl | hmem
        · exact le_rfl
        · exact (Nat.le_add_right _ _).trans (hrest.le_of_mem p hmem)

theorem decodes_readTvfPointers {last pointer : Nat} {pointers : List Nat}
    (hsorted : (pointer :: pointers).Pairwise (· ≤ ·)) (hlast : ∀ p ∈ pointers, p ≤ last)
    (hlt : last < 0x8000000000000000) :
    Decodes (readTvfPointers wide pointers.length pointer) (writePointers pointer pointers)
      (pointers.map (Nat.cast (R := Int))) := by
  induction pointers generalizing pointer with
  | nil => exact decodes_pure []
  | cons next pointers ih =>
      rw [List.pairwise_cons] at hsorted
      have hle := hsorted.1 next List.mem_cons_self
      have hnext := hlast next List.mem_cons_self
      rw [List.length_cons, readTvfPointers, writePointers, List.map_cons]
      apply (decodes_readVLong (by omega) (by omega)).bind
      rw [add_sub_cancel]
      exact (ih hsorted.2 fun p hmem => hlast p (List.mem_cons_of_mem _ hmem)).map (decodes_pure _)

theorem decodes_readFields {fieldInfos : FieldNames} (hfields : fieldInfos.length < 0x80000000)
    (vectors : List Vector) :
    Decodes (readFields wide fieldInfos (vectors.map Subtype.val).length)
      ((vectors.map Subtype.val).flatMap fun vector => writeVInt (fieldInfos.fieldNumber vector.field))
      ((vectors.map Subtype.val).map fun vector => fieldInfos.fieldName (fieldInfos.fieldNumber vector.field)) := by
  apply Decodes.times
  intro vector _
  refine (decodes_readVInt ?_ ?_).map (decodes_pure _)
  · rw [FieldNames.fieldNumber]
    split_ifs <;> omega
  · rw [FieldNames.fieldNumber]
    split_ifs with hmem
    · have hlt := List.idxOf_lt_length_of_mem hmem
      omega
    · omega

theorem readTermVectors_eq {r : Reader} {front rest : List UInt8} {written : List UInt8 × List Nat}
    (h : writeVectors size front.length (vectors.map Subtype.val) = .ok written)
    (htvf : r.tvf = front ++ written.1 ++ rest) :
    readTermVectors wide r (vectors.map fun vector => r.fieldInfos.fieldName (r.fieldInfos.fieldNumber vector.1.field))
      (written.2.map (Nat.cast (R := Int))) = .ok (readVectors size r.fieldInfos vectors) := by
  induction vectors generalizing front written with
  | nil => rfl
  | cons vector vectors ih =>
      obtain ⟨bytes, others, hvector, hothers, rfl⟩ := writeVectors_cons h
      rw [← List.append_assoc] at htvf
      obtain ⟨rest', hread⟩ := @readTermVector_eq wide _ _ _ vector.2 hvector
        (r.fieldInfos.fieldName (r.fieldInfos.fieldNumber vector.1.field)) (others.1 ++ rest)
      have hrest := @ih (front ++ bytes) others (by rw [List.length_append]; exact hothers) (by
        rw [htvf])
      have hseek : seek r.tvf (front.length : Int) = .ok (bytes ++ (others.1 ++ rest)) := by
        rw [seek, if_neg (by omega), Int.toNat_natCast, htvf, List.append_assoc, List.append_assoc, List.drop_left]
      rw [List.map_cons, List.map_cons, readTermVectors, hseek]
      change (readTermVector wide _ (bytes ++ (others.1 ++ rest)) >>= _) = _
      rw [hread]
      change (readTermVectors wide r _ _ >>= _) = _
      rw [hrest]
      rfl

/-- The vectors of this many documents have been written. Files have lengths that are `int64_t`. -/
structure Writer.At (w : Writer) (docNum : Nat) : Prop where
  length_tvx : w.tvx.length = docNum * 16 + FORMAT_SIZE
  length_tvd : w.tvd.length < 0x8000000000000000
  length_tvf : w.tvf.length < 0x8000000000000000
  length_fieldInfos : w.fieldInfos.length < 0x80000000

/-- The files with what is written behind. -/
def Writer.reader (w : Writer) (docStoreOffset : Nat) (tvx tvd tvf : List UInt8) : Reader where
  tvx := w.tvx ++ tvx
  tvd := w.tvd ++ tvd
  tvf := w.tvf ++ tvf
  docStoreOffset := docStoreOffset
  fieldInfos := w.fieldInfos

/-- The place of a document in the index file is an `int32_t`. -/
def Writer.Reaches (w : Writer) : Prop := w.tvx.length < 0x80000000

instance (w : Writer) : Decidable w.Reaches := inferInstanceAs (Decidable (_ < _))

theorem seekTvx_of_reaches (hat : w.At (docNum + docStoreOffset)) (h : w.Reaches) {r : Reader}
    {rest : List UInt8} (htvx : r.tvx = w.tvx ++ rest) (hoffset : r.docStoreOffset = docStoreOffset) :
    seekTvx r docNum = .ok rest := by
  have hlength := hat.length_tvx
  rw [Writer.Reaches] at h
  rw [seekTvx, hoffset, ← hlength, if_pos h, htvx, List.drop_left]

theorem seekTvx_of_not_reaches (hat : w.At (docNum + docStoreOffset)) (h : ¬ w.Reaches)
    {r : Reader} (hoffset : r.docStoreOffset = docStoreOffset) : seekTvx r docNum = .error .undefined := by
  have hlength := hat.length_tvx
  rw [Writer.Reaches] at h
  rw [seekTvx, hoffset, ← hlength, if_neg h]

theorem seek_append (bytes rest : List UInt8) : seek (bytes ++ rest) (bytes.length : Int) = .ok rest := by
  rw [seek, if_neg (by omega), Int.toNat_natCast, List.drop_left]

theorem ok_bind {ε α β : Type} (a : α) (f : α → Except ε β) : (Except.ok a >>= f) = f a := rfl

theorem get_none (hat : w.At (docNum + docStoreOffset)) (hreaches : w.Reaches) (tvx tvd tvf : List UInt8) :
    Reader.get wide ⟨w.tvx ++ writeLong w.tvd.length ++ writeLong w.tvf.length ++ tvx, w.tvd ++ writeVInt 0 ++ tvd, tvf,
      docStoreOffset, w.fieldInfos⟩ docNum = .ok none := by
  have hlong := decodes_readLong (i := w.tvd.length) (by omega) (by have := hat.length_tvd; omega)
    (writeLong w.tvf.length ++ tvx)
  have hsize := @decodes_readSize wide 0 (by decide) tvd
  rw [Nat.cast_zero] at hsize
  rw [Reader.get, List.append_assoc, List.append_assoc, seekTvx_of_reaches hat hreaches rfl rfl, ok_bind]
  dsimp only [StateT.run]
  rw [List.append_assoc, hlong, ok_bind]
  dsimp only
  rw [seek_append, ok_bind, hsize, ok_bind, if_pos rfl]
  rfl

theorem addAllDocVectors_some {vectors : List TermFreqVector}
    (h : w.addAllDocVectors size (some vectors) = .ok w') :
    ∃ written, writeVectors size w.tvf.length vectors = .ok written ∧
      w' = { w with
        tvx := w.tvx ++ writeLong w.tvd.length ++ writeLong w.tvf.length
        tvd := w.tvd ++ writeVInt vectors.length ++
          (vectors.flatMap fun vector => writeVInt (w.fieldInfos.fieldNumber vector.field)) ++
          writePointers (written.2.headD 0) written.2.tail
        tvf := w.tvf ++ written.1 } := by
  rw [Writer.addAllDocVectors] at h
  cases hwritten : writeVectors size w.tvf.length vectors with
  | error e =>
      rw [hwritten] at h
      cases h
  | ok written =>
      rw [hwritten] at h
      exact ⟨written, rfl, (Except.ok.inj h).symm⟩

theorem get_some (hat : w.At (docNum + docStoreOffset)) (hreaches : w.Reaches) (hne : vectors ≠ []) (hlength : vectors.length < 0x80000000)
    (h : w.addAllDocVectors size (some (vectors.map Subtype.val)) = .ok w') (htvf : w'.tvf.length < 0x8000000000000000)
    (tvx tvd tvf : List UInt8) :
    Reader.get wide (w'.reader docStoreOffset tvx tvd tvf) docNum = .ok (some (readVectors size w.fieldInfos vectors)) := by
  obtain ⟨written, hwritten, rfl⟩ := addAllDocVectors_some h
  have hpointers := pointers_of_writeVectors hwritten
  obtain ⟨pointers, hhead⟩ := hpointers.head_eq hne
  have hcount := hpointers.length_eq
  have hsorted := hpointers.sorted
  have hlast := hpointers.le_last
  rw [hhead] at hcount hsorted hlast
  rw [List.length_cons] at hcount
  dsimp only at htvf
  rw [List.length_append] at htvf
  have hlong := decodes_readLong (i := w.tvd.length) (by omega) (by have := hat.length_tvd; omega)
  have hlong' := decodes_readLong (i := w.tvf.length) (by omega) (by have := hat.length_tvf; omega)
  have hsize := @decodes_readSize wide vectors.length hlength
  have hfields := @decodes_readFields wide w.fieldInfos hat.length_fieldInfos vectors
  have htvfPointers := @decodes_readTvfPointers wide (w.tvf.length + written.1.length) w.tvf.length pointers hsorted
    (fun p hmem => hlast p (List.mem_cons_of_mem _ hmem)) (by omega)
  rw [show pointers.length = vectors.length - 1 by omega] at htvfPointers
  rw [List.length_map] at hfields
  have hread : ∀ r : Reader, r.tvf = w.tvf ++ written.1 ++ tvf → r.fieldInfos = w.fieldInfos →
      readTermVectors wide r ((vectors.map Subtype.val).map fun vector =>
        w.fieldInfos.fieldName (w.fieldInfos.fieldNumber vector.field)) ((w.tvf.length : Int) ::
          pointers.map (Nat.cast (R := Int))) = .ok (readVectors size w.fieldInfos vectors) := by
    intro r hrtvf hinfos
    have hvectors := @readTermVectors_eq wide _ _ r w.tvf tvf written hwritten hrtvf
    rw [hinfos, hhead, List.map_cons] at hvectors
    rw [List.map_map]
    exact hvectors
  rw [Writer.reader, Reader.get, List.append_assoc, List.append_assoc, seekTvx_of_reaches hat hreaches rfl rfl, ok_bind]
  dsimp only [StateT.run]
  rw [List.length_map, hlong, ok_bind]
  dsimp only
  rw [List.append_assoc, List.append_assoc, List.append_assoc, seek_append, ok_bind, hsize, ok_bind]
  dsimp only
  rw [if_neg (by rwa [List.length_eq_zero_iff]), hfields, ok_bind, hlong', ok_bind, hhead, List.headD_cons,
    List.tail_cons, htvfPointers, ok_bind]
  dsimp only
  rw [hread _ rfl rfl]
  rfl

theorem get_of_not_reaches (hat : w.At (docNum + docStoreOffset)) (h : ¬ w.Reaches) {r : Reader}
    (hoffset : r.docStoreOffset = docStoreOffset) : Reader.get wide r docNum = .error .undefined := by
  rw [Reader.get, seekTvx_of_not_reaches hat h hoffset]
  rfl

/-- The vectors are written, and read back whatever is written behind. No vectors are the same as null. -/
def Writer.RoundTrips (wide : ∀ w, UInt8 → Nat → BitVec w) (size docNum docStoreOffset : Nat) (w : Writer)
    (vectors : Option (List Vector)) : Prop :=
  ∃ w', w.addAllDocVectors size (vectors.map (List.map Subtype.val)) = .ok w' ∧
    ∀ tvx tvd tvf, ∃ result, Reader.get wide (w'.reader docStoreOffset tvx tvd tvf) docNum = .ok result ∧
      result.getD [] = (vectors.getD []).map fun vector => some vector.1.asRead

theorem writeVectors_ok (pointer : Nat) (h : ∀ vector ∈ vectors, storePositions vector.1 = false) :
    ∃ written, writeVectors size pointer (vectors.map Subtype.val) = .ok written := by
  induction vectors generalizing pointer with
  | nil => exact ⟨([], []), rfl⟩
  | cons vector vectors ih =>
      obtain ⟨bytes, hbytes⟩ := @writeVector_ok size _ vector.2 (h vector List.mem_cons_self)
      obtain ⟨others, hothers⟩ := ih (pointer + bytes.length) fun v hmem => h v (List.mem_cons_of_mem _ hmem)
      refine ⟨(bytes ++ others.1, pointer :: others.2), ?_⟩
      rw [List.map_cons, writeVectors, hbytes, ok_bind, hothers]
      rfl

theorem storePositions_of_writeVectors {pointer : Nat} {written : List UInt8 × List Nat}
    (h : writeVectors size pointer (vectors.map Subtype.val) = .ok written) :
    ∀ vector ∈ vectors, storePositions vector.1 = false := by
  induction vectors generalizing pointer written with
  | nil => exact fun vector hmem => absurd hmem List.not_mem_nil
  | cons vector vectors ih =>
      obtain ⟨bytes, others, hvector, hothers, -⟩ := writeVectors_cons h
      intro vector' hmem
      rcases List.mem_cons.mp hmem with rfl | hmem
      · exact storePositions_of_writeVector hvector
      · exact ih hothers vector' hmem

theorem reaches_of_roundTrips {vectors : Option (List Vector)} (hat : w.At (docNum + docStoreOffset))
    (h : w.RoundTrips wide size docNum docStoreOffset vectors) : w.Reaches := by
  by_contra hnot
  obtain ⟨w', -, hget⟩ := h
  obtain ⟨result, hresult, -⟩ := hget [] [] []
  rw [get_of_not_reaches hat hnot rfl] at hresult
  cases hresult

theorem comesBack_of_roundTrips (hat : w.At (docNum + docStoreOffset)) (hlength : vectors.length < 0x80000000)
    (hsize : ∀ w', w.addAllDocVectors size (some (vectors.map Subtype.val)) = .ok w' →
      w'.tvf.length < 0x8000000000000000) (h : w.RoundTrips wide size docNum docStoreOffset (some vectors)) :
    ∀ vector ∈ vectors, vector.1.ComesBack w.fieldInfos := by
  have hreaches := reaches_of_roundTrips hat h
  obtain ⟨w', hadd, hget⟩ := h
  intro vector hmem
  have hread := @get_some wide _ _ _ _ _ _ hat hreaches (List.ne_nil_of_mem hmem) hlength hadd (hsize w' hadd)
  obtain ⟨result, hresult, heq⟩ := hget [] [] []
  rw [hread [] [] []] at hresult
  obtain rfl := Except.ok.inj hresult
  obtain ⟨written, hwritten, -⟩ := addAllDocVectors_some hadd
  have hvector := List.map_inj_left.mp heq vector hmem
  exact (readVector_eq_iff vector.2 (storePositions_of_writeVectors hwritten vector hmem)).mp hvector

theorem roundTrips_of_comesBack (hat : w.At (docNum + docStoreOffset)) (hreaches : w.Reaches)
    (hlength : vectors.length < 0x80000000)
    (hsize : ∀ w', w.addAllDocVectors size (some (vectors.map Subtype.val)) = .ok w' →
      w'.tvf.length < 0x8000000000000000) (h : ∀ vector ∈ vectors, vector.1.ComesBack w.fieldInfos) :
    w.RoundTrips wide size docNum docStoreOffset (some vectors) := by
  have hstore : ∀ vector ∈ vectors, storePositions vector.1 = false := fun vector hmem => by
    rw [storePositions, (h vector hmem).plain, Bool.false_and]
  obtain ⟨written, hwritten⟩ := @writeVectors_ok size vectors w.tvf.length hstore
  have hadd : ∃ w', w.addAllDocVectors size (some (vectors.map Subtype.val)) = .ok w' := by
    rw [Writer.addAllDocVectors, hwritten, ok_bind]
    exact ⟨_, rfl⟩
  obtain ⟨w', hadd⟩ := hadd
  refine ⟨w', hadd, fun tvx tvd tvf => ?_⟩
  by_cases hne : vectors = []
  · subst hne
    obtain ⟨written', hwritten', rfl⟩ := addAllDocVectors_some hadd
    obtain rfl := Except.ok.inj hwritten'
    have hread := @get_none wide _ _ _ hat hreaches tvx tvd (w.tvf ++ tvf)
    refine ⟨none, ?_, rfl⟩
    have htvd : w.tvd ++ writeVInt 0 ++ [] ++ [] ++ tvd = w.tvd ++ writeVInt 0 ++ tvd := by
      rw [List.append_nil, List.append_nil]
    rw [← htvd] at hread
    rw [Writer.reader]
    dsimp only
    rw [List.append_nil]
    exact hread
  · refine ⟨_, get_some hat hreaches hne hlength hadd (hsize w' hadd) tvx tvd tvf, ?_⟩
    apply List.map_congr_left
    intro vector hmem
    exact (readVector_eq_iff vector.2 (hstore vector hmem)).mpr (h vector hmem)

end Documents

theorem wellFormed_singleton {field : List WChar} {isTermPositionVector : Bool} {entry : TermEntry}
    (hplain : isTermPositionVector = false → entry.positions = none ∧ entry.offsets = none)
    (hpositions : ∀ positions, entry.positions = some positions → (positions.length : Int) = entry.freq.toInt)
    (hoffsets : ∀ offsets, entry.offsets = some offsets → (offsets.length : Int) = entry.freq.toInt)
    (hterm : 6 * entry.term.length < 0x80000000) :
    (⟨field, isTermPositionVector, [entry]⟩ : TermFreqVector).WellFormed where
  plain hflag e hmem := List.mem_singleton.mp hmem ▸ hplain hflag
  positions_isSome e hmem e' hmem' := by rw [List.mem_singleton.mp hmem, List.mem_singleton.mp hmem']
  offsets_isSome e hmem e' hmem' := by rw [List.mem_singleton.mp hmem, List.mem_singleton.mp hmem']
  length_positions e hmem := List.mem_singleton.mp hmem ▸ hpositions
  length_offsets e hmem := List.mem_singleton.mp hmem ▸ hoffsets
  length_entries := Nat.lt_of_sub_eq_succ rfl
  length_term e hmem := List.mem_singleton.mp hmem ▸ hterm

/-- A document with the field `f` and its one term `a`. -/
def oneTerm (isTermPositionVector : Bool) (positions : Option (List Int32)) : TermFreqVector :=
  ⟨[⟨102, WChar.f_mem⟩], isTermPositionVector, [⟨[⟨97, WChar.a_mem⟩], 1, positions, none⟩]⟩

/-- A writer that has not written anything. -/
def newWriter : Writer := ⟨writeInt 4, writeInt 4, writeInt 4, [[⟨102, WChar.f_mem⟩]]⟩

theorem newWriter_at : newWriter.At 0 := ⟨by decide, by decide, by decide, by decide⟩

theorem wellFormed_position : (oneTerm true (some [0])).WellFormed := by
  apply wellFormed_singleton
  · exact fun h => absurd h (by decide)
  · rintro positions hpositions
    obtain rfl := Option.some.inj hpositions
    rfl
  · exact fun offsets hoffsets => absurd hoffsets (by simp)
  · decide

theorem wellFormed_plain : (oneTerm false none).WellFormed := by
  apply wellFormed_singleton
  · exact fun _ => ⟨rfl, rfl⟩
  · exact fun positions hpositions => absurd hpositions (by simp)
  · exact fun offsets hoffsets => absurd hoffsets (by simp)
  · decide

theorem length_writeVInt_le (i : Int) : (writeVInt i).length ≤ 5 := by
  apply VarInt.length_encode_le 4
  have hlt : (i % 0x100000000).toNat < 0x100000000 := by omega
  exact hlt.trans (by decide)

/-- The file of the fields is short, when one vector of one term has been written. -/
theorem length_tvf_oneTerm {isTermPositionVector : Bool} {positions : Option (List Int32)} {w' : Writer}
    (hstore : storePositions (oneTerm isTermPositionVector positions) = false)
    (h : newWriter.addAllDocVectors 0 (some [oneTerm isTermPositionVector positions]) = .ok w') :
    w'.tvf.length < 0x8000000000000000 := by
  have hutf8 : StringUtils.toUTF8 0 [⟨97, by decide⟩] = [97] := by decide
  have hoffsets : storeOffsets (oneTerm isTermPositionVector positions) = false := Bool.and_false _
  obtain ⟨written, hwritten, rfl⟩ := addAllDocVectors_some h
  obtain ⟨bytes, others, hbytes, hothers, rfl⟩ := writeVectors_cons hwritten
  obtain rfl := Except.ok.inj hothers
  rw [writeVector, hstore, hoffsets, oneTerm, writeEntries, writeOccurrences, hutf8] at hbytes
  obtain rfl := Except.ok.inj hbytes
  have hterm : (writeTerm [] [97]).length ≤ 11 := by
    rw [writeTerm, List.length_append, List.length_append, List.length_drop]
    have hstart := length_writeVInt_le (bytesDifference [] [97])
    have hlength := length_writeVInt_le (([97] : List UInt8).length - bytesDifference [] [97])
    rw [List.length_singleton] at hlength ⊢
    omega
  have hfreq := length_writeVInt_le (Int32.toInt 1)
  have hsize := length_writeVInt_le (1 : Nat)
  have hbits := length_writeVInt_le (bits (oneTerm isTermPositionVector positions))
  rw [oneTerm] at hbits
  simp only [Bool.false_eq_true, if_false, List.length_append, List.length_nil, List.length_cons, newWriter, Nat.zero_add,
    Nat.add_zero]
  have hheader : (writeInt 4).length = 4 := rfl
  omega

/-- The vectors of a document are read back when they have terms that are texts, of fields that have names, and are of
classes that have no positions to ask for; only then, and only if the place of the document is reached. -/
theorem roundTrips_iff (wide : ∀ w, UInt8 → Nat → BitVec w) (size docNum docStoreOffset : Nat) (w : Writer)
    (vectors : Option (List Vector)) (hat : w.At (docNum + docStoreOffset))
    (hlength : (vectors.getD []).length < 0x80000000)
    (hsize : ∀ w', w.addAllDocVectors size (vectors.map (List.map Subtype.val)) = .ok w' →
      w'.tvf.length < 0x8000000000000000) :
    w.RoundTrips wide size docNum docStoreOffset vectors ↔
      w.Reaches ∧ ∀ vector ∈ vectors.getD [], vector.1.ComesBack w.fieldInfos := by
  cases vectors with
  | none =>
      refine ⟨fun h => ⟨reaches_of_roundTrips hat h, fun vector hmem => absurd hmem List.not_mem_nil⟩, ?_⟩
      rintro ⟨hreaches, -⟩
      exact ⟨_, rfl, fun tvx tvd tvf => ⟨none, get_none hat hreaches tvx tvd (w.tvf ++ tvf), rfl⟩⟩
  | some vectors =>
      exact ⟨fun h => ⟨reaches_of_roundTrips hat h, comesBack_of_roundTrips hat hlength hsize h⟩,
        fun h => roundTrips_of_comesBack hat h.1 hlength hsize h.2⟩

/-- A vector of a class that is no `TermPositionVector` is read back. -/
theorem roundTrips_iff_plain :
    newWriter.RoundTrips (fun _ _ _ => 0) 0 0 0 (some [⟨_, wellFormed_plain⟩]) ↔
      newWriter.Reaches ∧
        ∀ vector ∈ (some [(⟨_, wellFormed_plain⟩ : Vector)]).getD [], vector.1.ComesBack newWriter.fieldInfos :=
  roundTrips_iff (fun _ _ _ => 0) 0 0 0 newWriter (some [⟨_, wellFormed_plain⟩]) newWriter_at (Nat.lt_of_sub_eq_succ rfl)
    fun _ hadd => length_tvf_oneTerm rfl hadd

/-- The position of the one term is lost. -/
theorem positions_do_not_come_back :
    ∃ (w : Writer) (vector : Vector), w.At 0 ∧ w.Reaches ∧ vector.1 = oneTerm true (some [0]) ∧
      vector.1.field ∈ w.fieldInfos ∧ ¬ w.RoundTrips (fun _ _ _ => 0) 0 0 0 (some [vector]) := by
  refine ⟨newWriter, ⟨_, wellFormed_position⟩, newWriter_at, by decide, rfl, List.mem_singleton_self _, fun hround => ?_⟩
  have hback := comesBack_of_roundTrips (newWriter_at : newWriter.At (0 + 0)) (Nat.lt_of_sub_eq_succ rfl)
    (fun w' hadd => length_tvf_oneTerm rfl hadd) hround _ (List.mem_singleton_self _)
  exact Bool.false_ne_true hback.plain.symm

end LucenePlusPlus.TermVectors
