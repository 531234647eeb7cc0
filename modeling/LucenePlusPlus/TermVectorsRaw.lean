import LucenePlusPlus.StoredFieldsFiles
import LucenePlusPlus.TermVectorsRoundTrip

/-!
The vectors of documents are copied raw: what `TermVectorsReader` reads of the index file for them, and what
`TermVectorsWriter` writes. The files of a reader have the data of each document, one behind the other.
-/

namespace LucenePlusPlus.TermVectors
open Decoders IndexOutput IndexInput CopiedRuns

/-- Places in the one file and in the other, by turns. -/
def interleave : List Int → List Int → List Int
  | place :: places, place' :: places' => place :: place' :: interleave places places'
  | _, _ => []

namespace Reader

def numTotalDocs (r : Reader) : Nat := r.tvx.length / 16

/-- Where the document before `docID` ends in the one file and in the other. -/
def readEnds (r : Reader) (docID : Nat) : Decoder InputError (Int × Int) :=
  if docID < r.numTotalDocs then do
    let tvdPosition ← readLong
    let tvfPosition ← readLong
    pure (tvdPosition, tvfPosition)
  else pure ((r.tvd.length : Int), (r.tvf.length : Int))

/-- The loop of `rawDocs`, when `docID` is the next document. -/
def readLengths (r : Reader) : Nat → Int × Int → Nat → Decoder InputError (List Int32 × List Int32)
  | _, _, 0 => pure ([], [])
  | docID, last, numDocs + 1 => do
      let ends ← readEnds r docID
      let lengths ← readLengths r (docID + 1) ends numDocs
      pure (.ofInt (ends.1 - last.1) :: lengths.1, .ofInt (ends.2 - last.2) :: lengths.2)

/-- What `rawDocs` leaves: the lengths of the documents in both files, and the bytes from the first one on. -/
structure RawDocs where
  tvdLengths : List Int32
  tvfLengths : List Int32
  tvd : List UInt8
  tvf : List UInt8

def rawDocs (r : Reader) (startDocID numDocs : Nat) : Except InputError RawDocs := do
  let tvx ← seekTvx r startDocID
  let (tvdPosition, tvx) ← readLong.run tvx
  let tvd ← seek r.tvd tvdPosition
  let (tvfPosition, tvx) ← readLong.run tvx
  let tvf ← seek r.tvf tvfPosition
  let (lengths, _) ← (readLengths r (r.docStoreOffset + startDocID + 1) (tvdPosition, tvfPosition) numDocs).run tvx
  pure ⟨lengths.1, lengths.2, tvd, tvf⟩

end Reader

/-- `addRawDocuments`, of what a reader has left. -/
def Writer.addRawDocuments (w : Writer) (docs : Reader.RawDocs) : Except InputError Writer := do
  let tvd ← copyBytes docs.tvd (docs.tvdLengths.map Int32.toInt).sum
  let tvf ← copyBytes docs.tvf (docs.tvfLengths.map Int32.toInt).sum
  pure { w with
    tvx := w.tvx ++ (interleave (positions w.tvd.length (docs.tvdLengths.map Int32.toInt))
      (positions w.tvf.length (docs.tvfLengths.map Int32.toInt))).flatMap writeLong
    tvd := w.tvd ++ tvd
    tvf := w.tvf ++ tvf }

section Vectors
open Writer
variable {wide : ∀ w, UInt8 → Nat → BitVec w} {names : FieldNames} {numbers numbers' : List Nat}
  {pieces pieces' : List (List UInt8)} {vectors vectors' : List (Option TermFreqVector)}

/-- What the file of the documents has: the numbers of the fields, and the lengths of all vectors but the last. -/
def writeNumbers (numbers : List Nat) (pieces : List (List UInt8)) : List UInt8 :=
  writeVInt numbers.length ++ (numbers.flatMap fun number : Nat => writeVInt number) ++
    (pieces.dropLast.flatMap fun piece => writeVLong piece.length)

/-- The vectors of a document, when the file of the fields has these pieces. -/
structure VectorData (wide : ∀ w, UInt8 → Nat → BitVec w) (names : FieldNames) (numbers : List Nat)
    (pieces : List (List UInt8)) (vectors : List (Option TermFreqVector)) : Prop where
  length_numbers : numbers.length = pieces.length
  length_lt : numbers.length < 0x80000000
  length_names : names.length < 0x80000000
  known : ∀ number ∈ numbers, number < names.length
  pieces_lt : ∀ piece ∈ pieces, piece.length < 0x8000000000000000
  read : List.Forall₂ (fun (data : Nat × List UInt8) vector =>
    Decodes (Reader.readTermVector wide (names.fieldName data.1)) data.2 vector) (numbers.zip pieces) vectors

/-- The data of a document in both files. -/
def Stores (wide : ∀ w, UInt8 → Nat → BitVec w) (names : FieldNames) (data : List UInt8 × List UInt8)
    (vectors : List (Option TermFreqVector)) : Prop :=
  ∃ numbers pieces, VectorData wide names numbers pieces vectors ∧ data = (writeNumbers numbers pieces, pieces.flatten)

theorem VectorData.length_vectors (h : VectorData wide names numbers pieces vectors) :
    vectors.length = numbers.length := by
  have hlength := h.read.length_eq
  rw [List.length_zip, ← h.length_numbers, Nat.min_self] at hlength
  exact hlength.symm

theorem VectorData.numbers_lt (h : VectorData wide names numbers pieces vectors) :
    ∀ number ∈ numbers, number < 0x80000000 := fun number hmem => (h.known number hmem).trans h.length_names

theorem decodes_numbers (h : ∀ number ∈ numbers, number < 0x80000000) :
    Decodes (times (readVInt wide) numbers.length) (numbers.flatMap fun number : Nat => writeVInt number)
      (numbers.map (Nat.cast (R := Int))) := by
  apply Decodes.times
  intro number hmem
  have hlt := h number hmem
  exact decodes_readVInt (by omega) (by omega)

theorem decodes_lengths (h : ∀ piece ∈ pieces, piece.length < 0x8000000000000000) :
    Decodes (times (Reader.readVLong wide) pieces.length) (pieces.flatMap fun piece => writeVLong piece.length)
      (pieces.map fun piece => (piece.length : Int)) := by
  apply Decodes.times
  intro piece hmem
  have hlt := h piece hmem
  exact decodes_readVLong (by omega) (by omega)

/-- The numbers and the lengths, as they stand in the file of the documents. -/
def readNumbers (wide : ∀ w, UInt8 → Nat → BitVec w) : Decoder InputError (List Int × List Int) := do
  let count ← Reader.readSize wide
  let numbers ← times (readVInt wide) count
  let lengths ← times (Reader.readVLong wide) (count - 1)
  pure (numbers, lengths)

theorem decodes_readNumbers (h : VectorData wide names numbers pieces vectors) :
    Decodes (readNumbers wide) (writeNumbers numbers pieces)
      (numbers.map (Nat.cast (R := Int)), lengthsOf pieces.dropLast) := by
  have hlengths := @decodes_lengths wide pieces.dropLast fun piece hmem => h.pieces_lt piece (List.mem_of_mem_dropLast hmem)
  rw [List.length_dropLast, ← h.length_numbers] at hlengths
  rw [readNumbers, writeNumbers, List.append_assoc]
  apply (decodes_readSize h.length_lt).bind
  apply (decodes_numbers h.numbers_lt).bind
  exact hlengths.map (decodes_pure _)

theorem VectorData.separate (h : VectorData wide names numbers pieces vectors)
    (h' : VectorData wide names numbers' pieces' vectors') :
    Separate (writeNumbers numbers pieces) (writeNumbers numbers' pieces') :=
  StoredFields.separate_of_decodes (decodes_readNumbers h) (decodes_readNumbers h')

/-- The fields of the documents are the same, when what the file of the documents has is the same. -/
theorem VectorData.numbers_eq (h : VectorData wide names numbers pieces vectors)
    (h' : VectorData wide names numbers' pieces' vectors')
    (heq : writeNumbers numbers pieces = writeNumbers numbers' pieces') : numbers = numbers' := by
  have hrun := (decodes_readNumbers h).run_eq
  rw [heq, (decodes_readNumbers h').run_eq] at hrun
  have hcast := (Prod.mk.inj (Prod.mk.inj (Except.ok.inj hrun)).1).1
  exact (List.map_injective_iff.mpr Nat.cast_injective hcast).symm

theorem VectorData.separate_pieces (h : VectorData wide names numbers pieces vectors)
    (h' : VectorData wide names numbers pieces' vectors') : List.Forall₂ Separate pieces pieces' := by
  have hlength := h.length_numbers
  have hlength' := h'.length_numbers
  have hread := h.read
  have hread' := h'.read
  clear h h'
  induction numbers generalizing pieces pieces' vectors vectors' with
  | nil =>
      rw [List.length_eq_zero_iff.mp hlength.symm, List.length_eq_zero_iff.mp hlength'.symm]
      exact List.Forall₂.nil
  | cons number numbers ih =>
      cases pieces with
      | nil => cases hlength
      | cons piece pieces =>
          cases pieces' with
          | nil => cases hlength'
          | cons piece' pieces' =>
              rw [List.zip_cons_cons] at hread hread'
              obtain ⟨vector, rest, hvector, hrest, rfl⟩ := List.forall₂_cons_left_iff.mp hread
              obtain ⟨vector', rest', hvector', hrest', rfl⟩ := List.forall₂_cons_left_iff.mp hread'
              exact List.Forall₂.cons (StoredFields.separate_of_decodes hvector hvector')
                (ih (Nat.succ.inj hlength) (Nat.succ.inj hlength') hrest hrest')

theorem Stores.separate_tvd {data data' : List UInt8 × List UInt8} (h : Stores wide names data vectors)
    (h' : Stores wide names data' vectors') : Separate data.1 data'.1 := by
  obtain ⟨numbers, pieces, hdata, rfl⟩ := h
  obtain ⟨numbers', pieces', hdata', rfl⟩ := h'
  exact hdata.separate hdata'

theorem Stores.separate_tvf {data data' : List UInt8 × List UInt8} (h : Stores wide names data vectors)
    (h' : Stores wide names data' vectors') (heq : data.1 = data'.1) : Separate data.2 data'.2 := by
  obtain ⟨numbers, pieces, hdata, rfl⟩ := h
  obtain ⟨numbers', pieces', hdata', rfl⟩ := h'
  obtain rfl := hdata.numbers_eq hdata' heq
  intro source hprefix hprefix'
  exact congrArg List.flatten (eq_of_flatten_prefixed (hdata.separate_pieces hdata') hprefix hprefix')

theorem Stores.eq {data : List UInt8 × List UInt8} (h : Stores wide names data vectors)
    (h' : Stores wide names data vectors') : vectors = vectors' := by
  obtain ⟨numbers, pieces, hdata, rfl⟩ := h
  obtain ⟨numbers', pieces', hdata', heq⟩ := h'
  obtain ⟨htvd, htvf⟩ := Prod.mk.inj heq
  obtain rfl := hdata.numbers_eq hdata' htvd
  obtain rfl := eq_of_flatten_prefixed (hdata.separate_pieces hdata') (List.prefix_refl _) (htvf ▸ List.prefix_refl _)
  apply List.right_unique_forall₂' _ hdata.read hdata'.read
  intro data vector vector' hread hread'
  have hrun := hread.run_eq
  rw [hread'.run_eq] at hrun
  exact (Prod.mk.inj (Except.ok.inj hrun)).1.symm

theorem VectorData.decodes_readFields (h : VectorData wide names numbers pieces vectors) :
    Decodes (Reader.readFields wide names numbers.length) (numbers.flatMap fun number : Nat => writeVInt number)
      (numbers.map fun number : Nat => names.fieldName number) := by
  apply Decodes.times
  intro number hmem
  have hlt := h.numbers_lt number hmem
  exact (decodes_readVInt (by omega) (by omega)).map (decodes_pure _)

theorem decodes_tvfPointers {piece : List UInt8} (h : ∀ p ∈ piece :: pieces, p.length < 0x8000000000000000) (pointer : Int) :
    Decodes (Reader.readTvfPointers wide pieces.length pointer)
      ((piece :: pieces).dropLast.flatMap fun p => writeVLong p.length)
      (positions (pointer + piece.length) (lengthsOf pieces)) := by
  induction pieces generalizing piece pointer with
  | nil => exact decodes_pure []
  | cons next pieces ih =>
      have hlt := h piece List.mem_cons_self
      rw [List.length_cons, Reader.readTvfPointers, List.dropLast_cons_cons, List.flatMap_cons, lengthsOf_cons, positions]
      apply (decodes_readVLong (by omega) (by omega)).bind
      exact (ih (fun p hmem => h p (List.mem_cons_of_mem _ hmem)) _).map (decodes_pure _)

theorem seek_add {bytes piece rest : List UInt8} {place : Int} (h : Reader.seek bytes place = .ok (piece ++ rest)) :
    Reader.seek bytes (place + piece.length) = .ok rest := by
  rw [Reader.seek] at h ⊢
  split_ifs at h with hneg
  rw [if_neg (by omega), show (place + piece.length).toNat = place.toNat + piece.length by omega, ← List.drop_drop,
    Except.ok.inj h, List.drop_left]

theorem VectorData.readTermVectors_eq {r : Reader} (h : VectorData wide names numbers pieces vectors) {pointer : Int}
    {rest : List UInt8} (hseek : Reader.seek r.tvf pointer = .ok (pieces.flatten ++ rest)) :
    Reader.readTermVectors wide r (numbers.map fun number : Nat => names.fieldName number)
      (positions pointer (lengthsOf pieces)) = .ok vectors := by
  have hlength := h.length_numbers
  have hread := h.read
  clear h
  induction numbers generalizing pieces vectors pointer with
  | nil =>
      rw [List.zip_nil_left, List.forall₂_nil_left_iff] at hread
      rw [hread]
      rfl
  | cons number numbers ih =>
      cases pieces with
      | nil => cases hlength
      | cons piece pieces =>
          rw [List.zip_cons_cons] at hread
          obtain ⟨vector, vectors, hvector, hvectors, rfl⟩ := List.forall₂_cons_left_iff.mp hread
          rw [List.flatten_cons, List.append_assoc] at hseek
          rw [List.map_cons, lengthsOf_cons, positions, Reader.readTermVectors, hseek, ok_bind]
          dsimp only [StateT.run]
          rw [hvector, ok_bind, ih (seek_add hseek) (Nat.succ.inj hlength) hvectors]
          rfl

theorem field_of_readTermVector {field : List WChar} {bytes rest : List UInt8} {vector : TermFreqVector}
    (h : Reader.readTermVector wide field bytes = .ok (some vector, rest)) : vector.field = field ∧ field ≠ [] := by
  obtain ⟨numTerms, bytes₁, -, h⟩ := ok_of_bind h
  split_ifs at h with hzero hfield
  · cases h
  · obtain ⟨bits, bytes₂, -, h⟩ := ok_of_bind h
    obtain ⟨entries, bytes₃, -, h⟩ := ok_of_bind h
    cases h
  · obtain ⟨bits, bytes₂, -, h⟩ := ok_of_bind h
    obtain ⟨entries, bytes₃, -, h⟩ := ok_of_bind h
    cases h
    exact ⟨rfl, hfield⟩

theorem Stores.field_mem {data : List UInt8 × List UInt8} (h : Stores wide names data vectors) {vector : TermFreqVector}
    (hmem : some vector ∈ vectors) : vector.field ≠ [] ∧ vector.field ∈ names := by
  obtain ⟨numbers, pieces, hdata, -⟩ := h
  obtain ⟨d, hd, hread⟩ : ∃ d ∈ numbers.zip pieces,
      Decodes (Reader.readTermVector wide (names.fieldName d.1)) d.2 (some vector) := by
    obtain ⟨i, hi, hget⟩ := List.getElem_of_mem hmem
    have hi' : i < (numbers.zip pieces).length := hdata.read.length_eq ▸ hi
    refine ⟨_, List.getElem_mem hi', ?_⟩
    rw [← hget]
    exact (List.forall₂_iff_get.mp hdata.read).2 i hi' hi
  obtain ⟨hfield, hne⟩ := field_of_readTermVector hread.run_eq
  have hnumber := hdata.known _ (List.of_mem_zip hd).1
  refine ⟨hfield ▸ hne, ?_⟩
  rw [hfield, FieldNames.fieldName, if_pos (Int.natCast_nonneg _), Int.toNat_natCast, List.getD_eq_getElem?_getD,
    List.getElem?_eq_getElem hnumber, Option.getD_some]
  exact List.getElem_mem hnumber

theorem Stores.length_lt {data : List UInt8 × List UInt8} (h : Stores wide names data vectors) :
    vectors.length < 0x80000000 := by
  obtain ⟨numbers, pieces, hdata, -⟩ := h
  exact hdata.length_vectors ▸ hdata.length_lt

theorem pieces_of_writeVectors {size pointer : Nat} {fields : List TermFreqVector} {written : List UInt8 × List Nat}
    (h : writeVectors size pointer fields = .ok written) :
    ∃ pieces, List.Forall₂ (fun vector piece => writeVector size vector = .ok piece) fields pieces ∧
      written.1 = pieces.flatten ∧ writePointers (written.2.headD 0) written.2.tail =
        (pieces.dropLast.flatMap fun piece => writeVLong piece.length) ∧
      (written.2 = [] ∧ fields = [] ∨ ∃ rest, written.2 = pointer :: rest ∧ fields ≠ []) := by
  induction fields generalizing pointer written with
  | nil =>
      obtain rfl := Except.ok.inj h
      exact ⟨[], List.Forall₂.nil, rfl, rfl, Or.inl ⟨rfl, rfl⟩⟩
  | cons vector fields ih =>
      obtain ⟨bytes, others, hbytes, hothers, rfl⟩ := writeVectors_cons h
      obtain ⟨pieces, hpieces, hflatten, hpointers, hhead⟩ := ih hothers
      refine ⟨bytes :: pieces, List.Forall₂.cons hbytes hpieces, ?_, ?_, Or.inr ⟨others.2, rfl, List.cons_ne_nil _ _⟩⟩
      · rw [List.flatten_cons, ← hflatten]
      · rw [List.headD_cons, List.tail_cons]
        rcases hhead with ⟨hnil, hfields⟩ | ⟨rest, hrest, hfields⟩
        · subst hfields
          rw [List.forall₂_nil_left_iff.mp hpieces, hnil]
          rfl
        · rw [hrest, List.headD_cons, List.tail_cons] at hpointers
          have hne : pieces ≠ [] := by
            rintro rfl
            exact hfields (List.forall₂_nil_right_iff.mp hpieces)
          rw [hrest, writePointers, hpointers, List.dropLast_cons_of_ne_nil hne, List.flatMap_cons]
          congr 2
          push_cast
          ring

theorem Stores.congruent {names' : FieldNames} {data : List UInt8 × List UInt8} (h : Stores wide names data vectors)
    (hlength : names'.length < 0x80000000) (hsame : ∀ number < names.length,
      number < names'.length ∧ names'.fieldName (number : Nat) = names.fieldName (number : Nat)) :
    Stores wide names' data vectors := by
  obtain ⟨numbers, pieces, hdata, rfl⟩ := h
  refine ⟨numbers, pieces, ⟨hdata.length_numbers, hdata.length_lt, hlength,
    fun number hmem => (hsame number (hdata.known number hmem)).1, hdata.pieces_lt, ?_⟩, rfl⟩
  have hread := hdata.read
  have hknown := hdata.known
  clear hdata
  rw [List.forall₂_iff_zip] at hread ⊢
  refine ⟨hread.1, fun {data vector} hmem => ?_⟩
  have hnumber := List.of_mem_zip (List.of_mem_zip hmem).1
  rw [(hsame data.1 (hknown data.1 hnumber.1)).2]
  exact hread.2 hmem

end Vectors

/-! ### Files -/

/-- The data of the documents, one behind the other, and the places of each. -/
structure VectorFiles (data : List (List UInt8 × List UInt8)) (tvx tvd tvf : List UInt8) : Prop where
  tvx_eq : tvx = writeInt FORMAT_SIZE ++ (interleave (positions FORMAT_SIZE (lengthsOf (data.map Prod.fst)))
    (positions FORMAT_SIZE (lengthsOf (data.map Prod.snd)))).flatMap writeLong
  tvd_eq : tvd = writeInt FORMAT_SIZE ++ (data.map Prod.fst).flatten
  tvf_eq : tvf = writeInt FORMAT_SIZE ++ (data.map Prod.snd).flatten

namespace Reader

/-- A file has a length that is an `int64_t`. -/
structure Holds (r : Reader) (data : List (List UInt8 × List UInt8)) : Prop where
  files : VectorFiles data r.tvx r.tvd r.tvf
  length_tvd : r.tvd.length < 0x8000000000000000
  length_tvf : r.tvf.length < 0x8000000000000000

/-- The place of a document in the index file is an `int32_t`. -/
def Reaches (r : Reader) (docID : Nat) : Prop := (docID + r.docStoreOffset) * 16 + FORMAT_SIZE < 0x80000000

instance (r : Reader) (docID : Nat) : Decidable (r.Reaches docID) := inferInstanceAs (Decidable (_ < _))

end Reader

section Index

theorem interleave_nil_left (places : List Int) : interleave [] places = [] := rfl

theorem interleave_nil_right (places : List Int) : interleave places [] = [] := by cases places <;> rfl

theorem drop_interleave (places places' : List Int) (n : Nat) :
    (interleave places places').drop (n * 2) = interleave (places.drop n) (places'.drop n) := by
  induction n generalizing places places' with
  | zero => rfl
  | succ n ih =>
      cases places with
      | nil => rw [interleave_nil_left, List.drop_nil, List.drop_nil, interleave_nil_left]
      | cons place places =>
          cases places' with
          | nil => rw [interleave_nil_right, List.drop_nil, List.drop_nil, interleave_nil_right]
          | cons place' places' =>
              rw [Nat.succ_mul, interleave, List.drop_succ_cons, List.drop_succ_cons]
              exact ih places places'

theorem length_interleave {places places' : List Int} (h : places.length = places'.length) :
    (interleave places places').length = places.length * 2 := by
  induction places generalizing places' with
  | nil => rfl
  | cons place places ih =>
      cases places' with
      | nil => cases h
      | cons place' places' =>
          have hrest := ih (Nat.succ.inj h)
          rw [interleave, List.length_cons, List.length_cons, List.length_cons]
          omega

theorem interleave_append {places₁ places₁' places₂ places₂' : List Int} (h : places₁.length = places₁'.length) :
    interleave (places₁ ++ places₂) (places₁' ++ places₂') = interleave places₁ places₁' ++ interleave places₂ places₂' := by
  induction places₁ generalizing places₁' with
  | nil =>
      rw [List.length_eq_zero_iff.mp h.symm]
      rfl
  | cons place places₁ ih =>
      cases places₁' with
      | nil => cases h
      | cons place' places₁' =>
          rw [List.cons_append, List.cons_append, interleave, ih (Nat.succ.inj h)]
          rfl

theorem interleave_inj {places₁ places₁' places₂ places₂' : List Int} (h₁ : places₁.length = places₁'.length)
    (h₂ : places₂.length = places₂'.length) (h : interleave places₁ places₁' = interleave places₂ places₂') :
    places₁ = places₂ ∧ places₁' = places₂' := by
  have hlength := congrArg List.length h
  rw [length_interleave h₁, length_interleave h₂] at hlength
  induction places₁ generalizing places₁' places₂ places₂' with
  | nil =>
      have h₂nil : places₂.length = 0 := by
        rw [List.length_nil] at hlength
        omega
      rw [List.length_eq_zero_iff.mp h₁.symm, List.length_eq_zero_iff.mp h₂nil,
        List.length_eq_zero_iff.mp (h₂.symm.trans h₂nil)]
      exact ⟨rfl, rfl⟩
  | cons place places₁ ih =>
      cases places₁' with
      | nil => cases h₁
      | cons place' places₁' =>
          cases places₂ with
          | nil =>
              rw [List.length_cons, List.length_nil] at hlength
              omega
          | cons place₂ places₂ =>
              cases places₂' with
              | nil => cases h₂
              | cons place₂' places₂' =>
                  rw [interleave, interleave] at h
                  obtain ⟨hfirst, hother⟩ := List.cons_eq_cons.mp h
                  obtain ⟨hsecond, hrest⟩ := List.cons_eq_cons.mp hother
                  rw [List.length_cons, List.length_cons] at hlength
                  obtain ⟨hplaces, hplaces'⟩ := ih (Nat.succ.inj h₁) (Nat.succ.inj h₂) hrest (by omega)
                  rw [hfirst, hsecond, hplaces, hplaces']
                  exact ⟨rfl, rfl⟩

theorem map_interleave (f : Int → Int) (places places' : List Int) :
    (interleave places places').map f = interleave (places.map f) (places'.map f) := by
  induction places generalizing places' with
  | nil => rfl
  | cons place places ih =>
      cases places' with
      | nil => rfl
      | cons place' places' =>
          rw [interleave, List.map_cons, List.map_cons, ih]
          rfl

end Index

namespace Reader
open StoredFields.FieldsReader (place place_nonneg decodes_place)
variable {wide : ∀ w, UInt8 → Nat → BitVec w} {r : Reader} {data : List (List UInt8 × List UInt8)} {docID : Nat}

theorem length_place (pieces : List (List UInt8)) (n : Nat) :
    place pieces n + (pieces.drop n).flatten.length = FORMAT_SIZE + pieces.flatten.length := by
  rw [← StoredFields.length_flatten_take_le pieces n, place, StoredFields.FORMAT_SIZE, FORMAT_SIZE]
  push_cast
  ring

theorem Holds.length_tvd_eq (h : r.Holds data) :
    (r.tvd.length : Int) = FORMAT_SIZE + (data.map Prod.fst).flatten.length := by
  rw [h.files.tvd_eq, List.length_append, Nat.cast_add]
  rfl

theorem Holds.length_tvf_eq (h : r.Holds data) :
    (r.tvf.length : Int) = FORMAT_SIZE + (data.map Prod.snd).flatten.length := by
  rw [h.files.tvf_eq, List.length_append, Nat.cast_add]
  rfl

theorem Holds.numTotalDocs_eq (h : r.Holds data) : r.numTotalDocs = data.length := by
  have hlength : (lengthsOf (data.map Prod.fst)).length = data.length := by rw [length_lengthsOf, List.length_map]
  have hlength' : (lengthsOf (data.map Prod.snd)).length = data.length := by rw [length_lengthsOf, List.length_map]
  have hheader : (writeInt FORMAT_SIZE).length = 4 := rfl
  rw [numTotalDocs, h.files.tvx_eq, List.length_append, StoredFields.length_flatMap_writeLong,
    length_interleave (by rw [length_positions, length_positions, hlength, hlength']), length_positions, hlength, hheader]
  omega

theorem seekTvx_eq (h : r.Holds data) (hreaches : r.Reaches docID) :
    seekTvx r docID = .ok ((interleave
      (positions (place (data.map Prod.fst) (docID + r.docStoreOffset))
        (lengthsOf ((data.drop (docID + r.docStoreOffset)).map Prod.fst)))
      (positions (place (data.map Prod.snd) (docID + r.docStoreOffset))
        (lengthsOf ((data.drop (docID + r.docStoreOffset)).map Prod.snd)))).flatMap writeLong) := by
  rw [Reaches] at hreaches
  have hheader : (writeInt FORMAT_SIZE).length = FORMAT_SIZE := rfl
  have hfirst : ∀ pieces n, positions (place pieces n) (lengthsOf (pieces.drop n)) =
      (positions FORMAT_SIZE (lengthsOf pieces)).drop n :=
    fun pieces n => (StoredFields.drop_positions_lengthsOf _ pieces n).symm
  rw [seekTvx, if_pos hreaches, h.files.tvx_eq, Nat.add_comm _ FORMAT_SIZE, ← List.drop_drop, List.drop_left' hheader,
    show (docID + r.docStoreOffset) * 16 = (docID + r.docStoreOffset) * 2 * 8 by omega,
    StoredFields.drop_flatMap_writeLong, drop_interleave, List.map_drop, List.map_drop, hfirst, hfirst]

theorem seekTvx_eq_error (h : ¬ r.Reaches docID) : seekTvx r docID = .error .undefined := if_neg h

theorem seek_pieces {bytes : List UInt8} {pieces : List (List UInt8)} (h : bytes = writeInt FORMAT_SIZE ++ pieces.flatten)
    (n : Nat) : seek bytes (place pieces n) = .ok (pieces.drop n).flatten := by
  have htoNat : (place pieces n).toNat = FORMAT_SIZE + (pieces.take n).flatten.length := Int.toNat_natCast _
  have hheader : (writeInt FORMAT_SIZE).length = FORMAT_SIZE := rfl
  have hnonneg := place_nonneg pieces n
  rw [seek, if_neg (by omega), htoNat, h, ← List.drop_drop, List.drop_left' hheader, StoredFields.drop_flatten]

theorem Holds.place_lt (h : r.Holds data) (n : Nat) :
    place (data.map Prod.fst) n < 0x8000000000000000 ∧ place (data.map Prod.snd) n < 0x8000000000000000 := by
  have htvd := h.length_tvd
  have htvf := h.length_tvf
  have htvd' := h.length_tvd_eq
  have htvf' := h.length_tvf_eq
  have hfirst := length_place (data.map Prod.fst) n
  have hsecond := length_place (data.map Prod.snd) n
  omega

theorem get_eq {names : FieldNames} {vectors : List (Option TermFreqVector)} (h : r.Holds data) (hnames : r.fieldInfos = names)
    (hreaches : r.Reaches docID) {d : List UInt8 × List UInt8} (hdata : data[docID + r.docStoreOffset]? = some d)
    (hstores : Stores wide names d vectors) :
    Reader.get wide r docID = .ok (if vectors = [] then none else some vectors) := by
  obtain ⟨hlt, rfl⟩ := List.getElem?_eq_some_iff.mp hdata
  obtain ⟨numbers, pieces, hvectors, heq⟩ := hstores
  have hplaces := h.place_lt (docID + r.docStoreOffset)
  have hlong := decodes_place (place_nonneg (data.map Prod.fst) _) hplaces.1
  have hlong' := decodes_place (place_nonneg (data.map Prod.snd) _) hplaces.2
  have htvd := seek_pieces h.files.tvd_eq (docID + r.docStoreOffset)
  have htvf := seek_pieces h.files.tvf_eq (docID + r.docStoreOffset)
  rw [← List.map_drop, List.drop_eq_getElem_cons hlt, heq, List.map_cons, List.flatten_cons] at htvd htvf
  rw [Reader.get, seekTvx_eq h hreaches, ok_bind, List.drop_eq_getElem_cons hlt, heq, List.map_cons, List.map_cons,
    lengthsOf_cons, lengthsOf_cons, positions, positions, interleave, List.flatMap_cons, List.flatMap_cons]
  dsimp only [StateT.run]
  rw [hlong, ok_bind]
  dsimp only
  rw [htvd, ok_bind, writeNumbers, List.append_assoc, List.append_assoc, decodes_readSize hvectors.length_lt, ok_bind]
  dsimp only
  by_cases hnil : vectors = []
  · rw [if_pos (by rw [← hvectors.length_vectors, hnil]; rfl), if_pos hnil]
    rfl
  · have hne : numbers.length ≠ 0 := by
      rw [← hvectors.length_vectors]
      exact fun hzero => hnil (List.length_eq_zero_iff.mp hzero)
    rw [if_neg hne, if_neg hnil, hnames, hvectors.decodes_readFields, ok_bind]
    dsimp only
    rw [hlong', ok_bind]
    dsimp only
    cases pieces with
    | nil => exact absurd hvectors.length_numbers hne
    | cons piece pieces =>
        have hpointers := @decodes_tvfPointers wide pieces piece hvectors.pieces_lt
          (place (data.map Prod.snd) (docID + r.docStoreOffset))
        have hread := hvectors.readTermVectors_eq htvf
        rw [lengthsOf_cons, positions] at hread
        rw [show numbers.length - 1 = pieces.length by rw [hvectors.length_numbers]; rfl, hpointers, ok_bind]
        dsimp only
        rw [hread]
        rfl

theorem get_eq_error (h : ¬ r.Reaches docID) : Reader.get wide r docID = .error .undefined := by
  rw [Reader.get, seekTvx_eq_error h]
  rfl

theorem readLengths_eq {d : List UInt8 × List UInt8} {rest : List (List UInt8 × List UInt8)} {last : Int × Int}
    {numDocs : Nat} (hlast : 0 ≤ last.1 ∧ 0 ≤ last.2)
    (htvd : last.1 + ((d :: rest).map Prod.fst).flatten.length = r.tvd.length)
    (htvf : last.2 + ((d :: rest).map Prod.snd).flatten.length = r.tvf.length)
    (hlength : r.tvd.length < 0x8000000000000000 ∧ r.tvf.length < 0x8000000000000000)
    (hcount : docID + rest.length = r.numTotalDocs) (hle : numDocs ≤ rest.length + 1) :
    ∃ bytes, readLengths r docID last numDocs
        ((interleave (positions (last.1 + d.1.length) (lengthsOf (rest.map Prod.fst)))
          (positions (last.2 + d.2.length) (lengthsOf (rest.map Prod.snd)))).flatMap writeLong) =
      .ok ((((d :: rest).take numDocs).map fun d => StoredFields.rawLength d.1,
        ((d :: rest).take numDocs).map fun d => StoredFields.rawLength d.2), bytes) := by
  induction numDocs generalizing docID d rest last with
  | zero => exact ⟨_, rfl⟩
  | succ numDocs ih =>
      rw [List.map_cons, List.flatten_cons, List.length_append, Nat.cast_add] at htvd htvf
      have hraw : Int32.ofInt (last.1 + d.1.length - last.1) = StoredFields.rawLength d.1 := by
        rw [StoredFields.rawLength, add_sub_cancel_left]
      have hraw' : Int32.ofInt (last.2 + d.2.length - last.2) = StoredFields.rawLength d.2 := by
        rw [StoredFields.rawLength, add_sub_cancel_left]
      cases rest with
      | nil =>
          rw [List.map_nil, List.flatten_nil, List.length_nil, Nat.cast_zero, Int.add_zero] at htvd htvf
          rw [List.length_nil, Nat.add_zero] at hcount
          have hnone : numDocs = 0 := by
            rw [List.length_nil] at hle
            omega
          subst hnone
          have hends : ∀ bytes, readEnds r docID bytes = .ok ((last.1 + d.1.length, last.2 + d.2.length), bytes) := by
            intro bytes
            rw [readEnds, if_neg (by omega), htvd, htvf]
            rfl
          refine ⟨[], ?_⟩
          rw [readLengths, bind_eq (hends _)]
          dsimp only
          rw [hraw, hraw']
          rfl
      | cons next rest =>
          rw [List.length_cons] at hcount hle
          have hlong := decodes_readLong (i := last.1 + d.1.length) (by omega) (by omega)
          have hlong' := decodes_readLong (i := last.2 + d.2.length) (by omega) (by omega)
          obtain ⟨bytes, hrest⟩ := @ih (docID + 1) next rest (last.1 + d.1.length, last.2 + d.2.length)
            (by dsimp only; omega) (by dsimp only; omega) (by dsimp only; omega) (by omega) (by omega)
          have hends : ∀ bytes, readEnds r docID (writeLong (last.1 + d.1.length) ++
              (writeLong (last.2 + d.2.length) ++ bytes)) = .ok ((last.1 + d.1.length, last.2 + d.2.length), bytes) := by
            intro bytes
            rw [readEnds, if_pos (by omega), bind_eq (hlong _), bind_eq (hlong' _)]
            rfl
          refine ⟨bytes, ?_⟩
          rw [readLengths, List.map_cons, List.map_cons, lengthsOf_cons, lengthsOf_cons, positions, positions, interleave,
            List.flatMap_cons, List.flatMap_cons, bind_eq (hends _)]
          dsimp only at hrest ⊢
          rw [bind_eq hrest, hraw, hraw']
          rfl

theorem rawDocs_eq (h : r.Holds data) (hreaches : r.Reaches docID) {numDocs : Nat} (hpos : 0 < numDocs)
    (hle : docID + r.docStoreOffset + numDocs ≤ data.length) :
    rawDocs r docID numDocs = .ok
      { tvdLengths := ((data.drop (docID + r.docStoreOffset)).take numDocs).map fun d => StoredFields.rawLength d.1
        tvfLengths := ((data.drop (docID + r.docStoreOffset)).take numDocs).map fun d => StoredFields.rawLength d.2
        tvd := ((data.drop (docID + r.docStoreOffset)).map Prod.fst).flatten
        tvf := ((data.drop (docID + r.docStoreOffset)).map Prod.snd).flatten } := by
  have hlt : docID + r.docStoreOffset < data.length := by omega
  have hplaces := h.place_lt (docID + r.docStoreOffset)
  have hnonneg := place_nonneg (data.map Prod.fst) (docID + r.docStoreOffset)
  have hnonneg' := place_nonneg (data.map Prod.snd) (docID + r.docStoreOffset)
  have hlong := decodes_place hnonneg hplaces.1
  have hlong' := decodes_place hnonneg' hplaces.2
  have htvd := seek_pieces h.files.tvd_eq (docID + r.docStoreOffset)
  have htvf := seek_pieces h.files.tvf_eq (docID + r.docStoreOffset)
  have hend := length_place (data.map Prod.fst) (docID + r.docStoreOffset)
  have hend' := length_place (data.map Prod.snd) (docID + r.docStoreOffset)
  rw [← h.length_tvd_eq] at hend
  rw [← h.length_tvf_eq] at hend'
  have htotal := h.numTotalDocs_eq
  rw [← List.map_drop, List.drop_eq_getElem_cons hlt] at htvd htvf hend hend'
  obtain ⟨bytes, hlengths⟩ := @readLengths_eq r (r.docStoreOffset + docID + 1) _
    (data.drop (docID + r.docStoreOffset + 1)) (place (data.map Prod.fst) (docID + r.docStoreOffset),
      place (data.map Prod.snd) (docID + r.docStoreOffset)) numDocs ⟨hnonneg, hnonneg'⟩ hend hend'
    ⟨h.length_tvd, h.length_tvf⟩ (by rw [List.length_drop]; omega) (by rw [List.length_drop]; omega)
  rw [rawDocs, seekTvx_eq h hreaches, ok_bind, List.drop_eq_getElem_cons hlt, List.map_cons, List.map_cons,
    lengthsOf_cons, lengthsOf_cons, positions, positions, interleave, List.flatMap_cons, List.flatMap_cons]
  dsimp only [StateT.run]
  rw [hlong, ok_bind]
  dsimp only
  rw [htvd, ok_bind, hlong', ok_bind]
  dsimp only
  rw [htvf, ok_bind]
  dsimp only at hlengths
  rw [hlengths, ok_bind]
  rfl

theorem rawDocs_eq_error (h : ¬ r.Reaches docID) (numDocs : Nat) : rawDocs r docID numDocs = .error .undefined := by
  rw [rawDocs, seekTvx_eq_error h]
  rfl

end Reader
end LucenePlusPlus.TermVectors
