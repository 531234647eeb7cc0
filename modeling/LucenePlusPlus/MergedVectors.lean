import LucenePlusPlus.MergedFields
import LucenePlusPlus.TermVectorsRaw

/-!
`SegmentMerger::mergeVectors`: the term vectors of the documents that are left. The vectors of a document that is copied
raw are what they were. Of a document that is read and written again, they are so only if there are none.
-/

namespace LucenePlusPlus.SegmentMerger
open CopiedRuns Decoders IndexOutput IndexInput TermVectors

variable (wide : ∀ w, UInt8 → Nat → BitVec w) (size : Nat)

inductive MergeError where
  | read (e : InputError)
  | write (e : WriteError)
  /-- a vector is null -/
  | nullPointer
  /-- mergeVectors produced an invalid result -/
  | invalidResult

def copyRawVectors (matchingVectorsReader : TermVectors.Reader) (w : TermVectors.Writer) (start numDocs : Nat) :
    Except MergeError TermVectors.Writer :=
  match matchingVectorsReader.rawDocs start numDocs with
  | .error e => .error (.read e)
  | .ok docs =>
      match w.addRawDocuments docs with
      | .error e => .error (.read e)
      | .ok w => .ok w

def MergeReader.getTermFreqVectors (r : MergeReader) (docNumber : Nat) :
    Except InputError (Option (List (Option TermFreqVector))) :=
  match r.termVectorsReader with
  | none => .ok none
  | some termVectorsReader => termVectorsReader.get wide docNumber

def addAllDocVectors (w : TermVectors.Writer) (vectors : Option (List TermFreqVector)) :
    Except MergeError TermVectors.Writer :=
  match w.addAllDocVectors size vectors with
  | .error e => .error (.write e)
  | .ok w => .ok w

def copyVectors (r : MergeReader) (w : TermVectors.Writer) (docNum : Nat) : Except MergeError TermVectors.Writer :=
  match r.getTermFreqVectors wide docNum with
  | .error e => .error (.read e)
  | .ok none => addAllDocVectors size w none
  | .ok (some vectors) =>
      if vectors.any Option.isNone then .error .nullPointer
      else addAllDocVectors size w (some (vectors.filterMap id))

def newVectorsWriter (fieldInfos : FieldInfos) : TermVectors.Writer where
  tvx := writeInt FORMAT_SIZE
  tvd := writeInt FORMAT_SIZE
  tvf := writeInt FORMAT_SIZE
  fieldInfos := fieldInfos.map FieldInfo.name

/-- Without `raw`, no reader matches. The size of the index file is checked against the number of documents. -/
def mergeVectors (raw : Bool) (mergedDocs : Nat) (readers : List MergeReader) : Except MergeError TermVectors.Writer :=
  let merged := mergeDocuments (fun r => copyDocuments r.reader
    (if raw && isMatching (mergedFieldInfos readers) r then r.termVectorsReader.map copyRawVectors else none)
    (copyVectors wide size r)) readers (newVectorsWriter (mergedFieldInfos readers)) 0
  match merged with
  | .error e => .error e
  | .ok (w, _) => if FORMAT_SIZE + mergedDocs * 16 ≠ w.tvx.length then .error .invalidResult else .ok w

/-- A vector that has been stored: of a field that has a name, it is not null. What is stored of a term is a text. -/
structure StoredVector (vector : TermFreqVector) : Prop where
  asRead : vector.isTermPositionVector = true
  wellFormed : vector.WellFormed
  entries_ne : vector.entries ≠ []
  valid : ∀ entry ∈ vector.entries, WChar.validText entry.term = true ∧ UTF8Base.UNICODE_TERMINATOR ∉ entry.term

/-- The vectors that the doc store has: the data of each document, and what is read of it. -/
structure StoredSegment (wide : ∀ w, UInt8 → Nat → BitVec w) extends StoredReader where
  vectorData : List (List UInt8 × List UInt8)
  vectors : List (List (Option TermFreqVector))
  stores : List.Forall₂ (Stores wide (toMergeReader.fieldInfos.map FieldInfo.name)) vectorData vectors
  stored : ∀ docVectors ∈ vectors, ∀ vector, some vector ∈ docVectors → StoredVector vector
  vectors_hold : ∀ r, termVectorsReader = some r → r.Holds vectorData ∧
    r.fieldInfos = toMergeReader.fieldInfos.map FieldInfo.name ∧ reader.maxDoc + r.docStoreOffset ≤ vectorData.length

namespace StoredSegment
variable {wide : ∀ w, UInt8 → Nat → BitVec w} {r : StoredSegment wide} {reader : TermVectors.Reader} {n : Nat}

/-- The vectors of a document, as they are read. There are none where they are null. -/
def docVectors (r : StoredSegment wide) (n : Nat) : List (Option TermFreqVector) :=
  match r.termVectorsReader with
  | none => []
  | some reader => r.vectors.getD (n + reader.docStoreOffset) []

/-- The data of a document's vectors. -/
def docData (r : StoredSegment wide) (n : Nat) : List UInt8 × List UInt8 :=
  match r.termVectorsReader with
  | none => ([], [])
  | some reader => r.vectorData.getD (n + reader.docStoreOffset) ([], [])

theorem exists_vectors (hreader : r.termVectorsReader = some reader) (hlt : n < r.reader.maxDoc) :
    r.docVectors n ∈ r.vectors ∧ Stores wide (r.fieldInfos.map FieldInfo.name) (r.docData n) (r.docVectors n) ∧
      r.vectorData[n + reader.docStoreOffset]? = some (r.docData n) := by
  obtain ⟨-, -, hle⟩ := r.vectors_hold reader hreader
  have hdata : n + reader.docStoreOffset < r.vectorData.length := by omega
  have hvectors : n + reader.docStoreOffset < r.vectors.length := r.stores.length_eq ▸ hdata
  have hget : r.docVectors n = r.vectors[n + reader.docStoreOffset] := by
    rw [docVectors, hreader]
    dsimp only
    rw [List.getD_eq_getElem?_getD, List.getElem?_eq_getElem hvectors, Option.getD_some]
  have hget' : r.docData n = r.vectorData[n + reader.docStoreOffset] := by
    rw [docData, hreader]
    dsimp only
    rw [List.getD_eq_getElem?_getD, List.getElem?_eq_getElem hdata, Option.getD_some]
  refine ⟨hget ▸ List.getElem_mem hvectors, ?_, ?_⟩
  · rw [hget, hget']
    exact (List.forall₂_iff_get.mp r.stores).2 _ hdata hvectors
  · rw [hget', List.getElem?_eq_getElem hdata]

theorem getTermFreqVectors_eq (hlt : n < r.reader.maxDoc)
    (hreaches : ∀ reader, r.termVectorsReader = some reader → reader.Reaches n) :
    r.getTermFreqVectors wide n = .ok (if r.docVectors n = [] then none else some (r.docVectors n)) := by
  rw [MergeReader.getTermFreqVectors]
  cases hreader : r.termVectorsReader with
  | none =>
      rw [docVectors, hreader]
      rfl
  | some reader =>
      obtain ⟨hholds, hnames, -⟩ := r.vectors_hold reader hreader
      obtain ⟨-, hstores, hdata⟩ := exists_vectors hreader hlt
      exact Reader.get_eq hholds hnames (hreaches reader hreader) hdata hstores

theorem field_mem (hlt : n < r.reader.maxDoc) {vector : TermFreqVector} (hmem : some vector ∈ r.docVectors n) :
    StoredVector vector ∧ vector.field ≠ [] ∧ vector.field ∈ r.fieldInfos.map FieldInfo.name := by
  cases hreader : r.termVectorsReader with
  | none =>
      rw [docVectors, hreader] at hmem
      cases hmem
  | some reader =>
      obtain ⟨hvectors, hstores, -⟩ := exists_vectors hreader hlt
      exact ⟨r.stored _ hvectors vector hmem, hstores.field_mem hmem⟩

theorem length_docVectors_lt (hlt : n < r.reader.maxDoc) : (r.docVectors n).length < 0x80000000 := by
  cases hreader : r.termVectorsReader with
  | none =>
      rw [docVectors, hreader]
      exact Nat.lt_of_sub_eq_succ rfl
  | some reader =>
      obtain ⟨-, hstores, -⟩ := exists_vectors hreader hlt
      exact hstores.length_lt

end StoredSegment

section Writing
variable {wide : ∀ w, UInt8 → Nat → BitVec w} {size : Nat} {raw : Bool} {readers : List (StoredSegment wide)}
  {r : StoredSegment wide} {w w' : TermVectors.Writer} {n : Nat}

/-- A run of documents in both files. -/
structure VectorRun where
  tvd : Run UInt8
  tvf : Run UInt8
  length_eq : tvd.pieces.length = tvf.pieces.length

def extendVectors (w : TermVectors.Writer) (run : VectorRun) : TermVectors.Writer :=
  { w with
    tvx := w.tvx ++ (interleave (positions w.tvd.length run.tvd.lengths)
      (positions w.tvf.length run.tvf.lengths)).flatMap writeLong
    tvd := w.tvd ++ run.tvd.copied
    tvf := w.tvf ++ run.tvf.copied }

theorem foldl_extendVectors (runs : List VectorRun) (w : TermVectors.Writer) :
    runs.foldl extendVectors w =
      { w with
        tvx := w.tvx ++ (interleave (entries w.tvd.length (runs.map VectorRun.tvd))
          (entries w.tvf.length (runs.map VectorRun.tvf))).flatMap writeLong
        tvd := w.tvd ++ data (runs.map VectorRun.tvd)
        tvf := w.tvf ++ data (runs.map VectorRun.tvf) } := by
  induction runs generalizing w with
  | nil =>
      simp only [List.foldl_nil, List.map_nil, entries, data, interleave, List.flatMap_nil, List.append_nil]
  | cons run runs ih =>
      have hlength : (positions w.tvd.length run.tvd.lengths).length = (positions w.tvf.length run.tvf.lengths).length := by
        rw [length_positions, length_positions, run.tvd.length_lengths, run.tvf.length_lengths, run.length_eq]
      rw [List.foldl_cons, ih, List.map_cons, List.map_cons, entries, entries, data_cons, data_cons,
        interleave_append hlength]
      simp only [extendVectors, List.length_append, Nat.cast_add, List.flatMap_append, List.append_assoc]

abbrev segmentsOf (readers : List (StoredSegment wide)) : List StoredReader := readers.map StoredSegment.toStoredReader

/-- The names of the fields of the merged segment. -/
abbrev namesOf (readers : List (StoredSegment wide)) : FieldNames := (fieldInfosOf (segmentsOf readers)).map FieldInfo.name

theorem mem_namesOf (hmem : r ∈ readers) {name : WString} (hname : name ∈ r.fieldInfos.map FieldInfo.name) :
    name ∈ namesOf readers := by
  obtain ⟨info, hinfo, rfl⟩ := List.mem_map.mp hname
  obtain ⟨info', hinfo'⟩ := mem_of_fieldInfo_name hinfo
  have hsegment : r.toStoredReader ∈ segmentsOf readers := List.mem_map_of_mem hmem
  obtain ⟨merged, hmerged, -⟩ := fieldInfo_merged hsegment hinfo'
  exact List.mem_map.mpr ⟨merged, FieldInfos.mem_of_fieldInfo hmerged, FieldInfos.name_of_fieldInfo hmerged⟩

theorem fieldName_map (infos : FieldInfos) (number : Nat) :
    FieldNames.fieldName (infos.map FieldInfo.name) (number : Nat) = fieldName infos number := by
  rw [FieldNames.fieldName, if_pos (Int.natCast_nonneg _), Int.toNat_natCast, List.getD_eq_getElem?_getD, List.getElem?_map,
    fieldName]

/-- The data of a document stands for the same vectors in a segment that gives the fields the same numbers. -/
theorem stores_merged (hnames : (namesOf readers).length < 0x80000000) (hmem : r ∈ readers)
    (hmatching : isMatching (fieldInfosOf (segmentsOf readers)) r.toMergeReader = true) {data : List UInt8 × List UInt8}
    {vectors : List (Option TermFreqVector)} (h : Stores wide (r.fieldInfos.map FieldInfo.name) data vectors) :
    Stores wide (namesOf readers) data vectors := by
  have hsegment : r.toStoredReader ∈ segmentsOf readers := List.mem_map_of_mem hmem
  apply h.congruent hnames
  intro number hnumber
  rw [List.length_map] at hnumber
  refine ⟨?_, ?_⟩
  · rw [List.length_map]
    exact hnumber.trans_le (length_fieldInfos_le hsegment)
  · rw [fieldName_map, fieldName_map]
    exact of_decide_eq_true (List.all_eq_true.mp hmatching number (List.mem_range.mpr hnumber))

theorem stores_of_addAllDocVectors {fields : List TermFreqVector} {names : FieldNames} (hfields : fields.length < 0x80000000)
    (hlength : names.length < 0x80000000)
    (hstored : ∀ vector ∈ fields, StoredVector vector ∧ vector.field ≠ [] ∧ vector.field ∈ names)
    (hnames : w.fieldInfos = names) (h : w.addAllDocVectors size (some fields) = .ok w') :
    ∃ data : List UInt8 × List UInt8, w'.tvx = w.tvx ++ writeLong w.tvd.length ++ writeLong w.tvf.length ∧
      w'.tvd = w.tvd ++ data.1 ∧ w'.tvf = w.tvf ++ data.2 ∧ w'.fieldInfos = w.fieldInfos ∧
        (data.2.length < 0x8000000000000000 → ∃ vectors, Stores wide names data vectors ∧
          (vectors = fields.map some ↔ fields = [])) := by
  obtain ⟨written, hwritten, rfl⟩ := addAllDocVectors_some h
  obtain ⟨pieces, hpieces, hflatten, hpointers, -⟩ := pieces_of_writeVectors hwritten
  subst hnames
  have hnumber : ∀ vector ∈ fields, w.fieldInfos.fieldNumber vector.field = (w.fieldInfos.idxOf vector.field : Nat) :=
    fun vector hmem => if_pos (hstored vector hmem).2.2
  refine ⟨(writeNumbers (fields.map fun vector => w.fieldInfos.idxOf vector.field) pieces, pieces.flatten), rfl, ?_, ?_, rfl,
    fun hlt => ⟨fields.map fun vector => readVector size vector.field vector, ⟨_, pieces, ⟨?_, ?_, hlength, ?_, ?_, ?_⟩, rfl⟩, ?_⟩⟩
  · have hnumbers : (fields.flatMap fun vector => writeVInt (w.fieldInfos.fieldNumber vector.field)) =
        fields.flatMap fun vector => writeVInt (w.fieldInfos.idxOf vector.field : Nat) :=
      List.flatMap_congr fun vector hmem => by rw [hnumber vector hmem]
    dsimp only
    rw [writeNumbers, hpointers, hnumbers, List.length_map, List.flatMap_map]
    simp only [List.append_assoc]
  · dsimp only
    rw [hflatten]
  · rw [List.length_map, hpieces.length_eq]
  · rw [List.length_map]
    exact hfields
  · intro number hmem
    obtain ⟨vector, hvector, rfl⟩ := List.mem_map.mp hmem
    exact List.idxOf_lt_length_of_mem (hstored vector hvector).2.2
  · intro piece hmem
    exact (List.sublist_flatten_of_mem hmem).length_le.trans_lt hlt
  · clear hwritten hflatten hpointers hlt h
    induction hpieces with
    | nil => exact List.Forall₂.nil
    | cons hpiece _ ih =>
        rename_i vector piece fields pieces hrest
        obtain ⟨hvector, -, hmem⟩ := hstored vector List.mem_cons_self
        rw [List.map_cons, List.map_cons, List.zip_cons_cons]
        refine List.Forall₂.cons ?_ (ih ?_ (fun v hv => hstored v (List.mem_cons_of_mem _ hv))
          (fun v hv => hnumber v (List.mem_cons_of_mem _ hv)))
        · have hname := fieldName_fieldNumber w.fieldInfos vector.field
          rw [if_pos hmem, hnumber vector List.mem_cons_self] at hname
          rw [hname]
          exact decodes_readTermVector hvector.wellFormed hvector.entries_ne hpiece vector.field
        · rw [List.length_cons] at hfields
          omega
  · have hread : ∀ vector ∈ fields, readVector size vector.field vector ≠ some vector := by
      intro vector hmem heq
      obtain ⟨hvector, -, hname⟩ := hstored vector hmem
      have hnot : Writer.storePositions vector = false := by
        obtain ⟨piece, hpiece⟩ : ∃ piece, Writer.writeVector size vector = .ok piece := by
          obtain ⟨i, hi, rfl⟩ := List.getElem_of_mem hmem
          exact ⟨_, (List.forall₂_iff_get.mp hpieces).2 i hi (hpieces.length_eq ▸ hi)⟩
        exact storePositions_of_writeVector hpiece
      have hiff := @readVector_eq_iff size vector w.fieldInfos hvector.wellFormed hnot
      have hsame : vector.asRead = vector := by rw [TermFreqVector.asRead, ← hvector.asRead]
      rw [fieldName_fieldNumber, if_pos hname, hsame] at hiff
      exact Bool.false_ne_true ((hiff.mp heq).plain.symm.trans hvector.asRead)
    rw [List.map_inj_left, List.eq_nil_iff_forall_not_mem]
    exact forall₂_congr fun vector hmem => iff_of_false (hread vector hmem) not_false

theorem stores_none (names : FieldNames) (hnames : names.length < 0x80000000) :
    Stores wide names (writeVInt 0, []) [] :=
  ⟨[], [], ⟨rfl, Nat.lt_of_sub_eq_succ rfl, hnames, fun _ hmem => absurd hmem List.not_mem_nil,
    fun _ hmem => absurd hmem List.not_mem_nil, List.Forall₂.nil⟩, by
      rw [writeNumbers, List.flatMap_nil, List.dropLast_nil, List.flatMap_nil, List.append_nil, List.append_nil]
      rfl⟩

/-- A document that is copied as a whole. -/
def singleVectors (data : List UInt8 × List UInt8) : VectorRun := ⟨singleRun data.1, singleRun data.2, rfl⟩

theorem extendVectors_single {data : List UInt8 × List UInt8}
    (htvx : w'.tvx = w.tvx ++ writeLong w.tvd.length ++ writeLong w.tvf.length) (htvd : w'.tvd = w.tvd ++ data.1)
    (htvf : w'.tvf = w.tvf ++ data.2) (hnames : w'.fieldInfos = w.fieldInfos) : w' = extendVectors w (singleVectors data) := by
  obtain ⟨tvx, tvd, tvf, names⟩ := w'
  dsimp only at htvx htvd htvf hnames
  rw [extendVectors, htvx, htvd, htvf, hnames]
  dsimp only [singleVectors]
  rw [copied_singleRun, copied_singleRun, List.append_assoc]
  rfl

theorem filterMap_some {vectors : List (Option TermFreqVector)} (h : vectors.any Option.isNone = false) :
    (vectors.filterMap id).map some = vectors := by
  induction vectors with
  | nil => rfl
  | cons v vectors ih =>
      rw [List.any_cons, Bool.or_eq_false_iff] at h
      cases v with
      | none => cases h.1
      | some vector => exact congrArg (some vector :: ·) (ih h.2)

theorem reaches_of_copyVectors (h : copyVectors wide size r.toMergeReader w n = .ok w') :
    ∀ reader, r.termVectorsReader = some reader → reader.Reaches n := by
  intro reader hreader
  by_contra hnot
  have herror : r.getTermFreqVectors wide n = .error .undefined := by
    rw [MergeReader.getTermFreqVectors, hreader]
    exact Reader.get_eq_error hnot
  rw [copyVectors, herror] at h
  cases h

/-- What is written of a document that is read. -/
def Wrote (wide : ∀ w, UInt8 → Nat → BitVec w) (names : FieldNames) (vectors : List (Option TermFreqVector))
    (data : List UInt8 × List UInt8) : Prop :=
  ∃ written, Stores wide names data written ∧ (written = vectors ↔ vectors = [])

theorem copyVectors_ok (hmem : r ∈ readers) (hlt : n < r.reader.maxDoc) (hnames : w.fieldInfos = namesOf readers)
    (hlength : (namesOf readers).length < 0x80000000) (h : copyVectors wide size r.toMergeReader w n = .ok w') :
    ∃ data, w' = extendVectors w (singleVectors data) ∧
      (data.2.length < 0x8000000000000000 → Wrote wide (namesOf readers) (r.docVectors n) data) := by
  have hget := StoredSegment.getTermFreqVectors_eq hlt (reaches_of_copyVectors h)
  rw [copyVectors, hget] at h
  by_cases hnil : r.docVectors n = []
  · rw [if_pos hnil] at h
    obtain rfl := Except.ok.inj h
    refine ⟨(writeVInt 0, []), extendVectors_single rfl rfl (List.append_nil _).symm rfl, fun _ =>
      ⟨[], stores_none _ hlength, ?_⟩⟩
    rw [hnil]
  · rw [if_neg hnil] at h
    dsimp only at h
    split_ifs at h with hnone
    have hsome := filterMap_some (Bool.eq_false_iff.mpr hnone)
    rw [addAllDocVectors] at h
    cases hadd : w.addAllDocVectors size (some ((r.docVectors n).filterMap id)) with
    | error e =>
        rw [hadd] at h
        cases h
    | ok w₁ =>
        rw [hadd] at h
        obtain rfl := Except.ok.inj h
        have hcount : ((r.docVectors n).filterMap id).length < 0x80000000 := by
          have hlt' := StoredSegment.length_docVectors_lt hlt
          rwa [← hsome, List.length_map] at hlt'
        obtain ⟨data, htvx, htvd, htvf, hinfos, hstores⟩ := stores_of_addAllDocVectors hcount hlength (fun vector hvector => by
          have hdoc : some vector ∈ r.docVectors n := by
            rw [← hsome]
            exact List.mem_map_of_mem hvector
          obtain ⟨hstored, hne, hname⟩ := StoredSegment.field_mem hlt hdoc
          exact ⟨hstored, hne, mem_namesOf hmem hname⟩) hnames hadd
        refine ⟨data, extendVectors_single htvx htvd htvf hinfos, fun hsmall => ?_⟩
        obtain ⟨vectors, hdata, hiff⟩ := hstores hsmall
        rw [← List.map_eq_nil_iff (f := some), hsome] at hiff
        exact ⟨vectors, hdata, hiff⟩

theorem copyVectors_of_nil (hlt : n < r.reader.maxDoc)
    (hreaches : ∀ reader, r.termVectorsReader = some reader → reader.Reaches n) (hnil : r.docVectors n = [])
    (w : TermVectors.Writer) : ∃ w', copyVectors wide size r.toMergeReader w n = .ok w' := by
  rw [copyVectors, StoredSegment.getTermFreqVectors_eq hlt hreaches, if_pos hnil]
  exact ⟨_, rfl⟩

theorem reaches_of_copyRawVectors {reader : TermVectors.Reader} {start count : Nat}
    (h : copyRawVectors reader w start count = .ok w') : reader.Reaches start := by
  by_contra hnot
  rw [copyRawVectors, Reader.rawDocs_eq_error hnot] at h
  cases h

/-- The data of the documents from `start` on is at the front of the data that is left. -/
theorem drop_vectorData {reader : TermVectors.Reader} (hreader : r.termVectorsReader = some reader) {start count : Nat}
    (hle : start + count ≤ r.reader.maxDoc) :
    ∃ rest, r.vectorData.drop (start + reader.docStoreOffset) = (List.range' start count).map r.docData ++ rest := by
  obtain ⟨-, -, hmax⟩ := r.vectors_hold reader hreader
  refine ⟨r.vectorData.drop (start + reader.docStoreOffset + count), ?_⟩
  have htake : (r.vectorData.drop (start + reader.docStoreOffset)).take count = (List.range' start count).map r.docData := by
    apply List.ext_getElem
    · rw [List.length_take, List.length_drop, List.length_map, List.length_range']
      omega
    · intro i hi hi'
      rw [List.length_map, List.length_range'] at hi'
      rw [List.getElem_take, List.getElem_drop, List.getElem_map, List.getElem_range', Nat.one_mul, StoredSegment.docData,
        hreader]
      dsimp only
      rw [List.getD_eq_getElem?_getD, show start + i + reader.docStoreOffset = start + reader.docStoreOffset + i by omega,
        List.getElem?_eq_getElem (by omega), Option.getD_some]
  rw [← htake]
  conv_lhs => rw [← List.take_append_drop count (r.vectorData.drop _), List.drop_drop]

theorem copyRawVectors_eq {reader : TermVectors.Reader} (hreader : r.termVectorsReader = some reader) {start count : Nat}
    (hpos : 0 < count) (hle : start + count ≤ r.reader.maxDoc) (hreaches : reader.Reaches start) :
    ∃ rest rest', ∀ w : TermVectors.Writer, copyRawVectors reader w start count =
      match w.addRawDocuments
        { tvdLengths := ((List.range' start count).map r.docData).map fun d => StoredFields.rawLength d.1
          tvfLengths := ((List.range' start count).map r.docData).map fun d => StoredFields.rawLength d.2
          tvd := (((List.range' start count).map r.docData).map Prod.fst).flatten ++ rest
          tvf := (((List.range' start count).map r.docData).map Prod.snd).flatten ++ rest' } with
      | .error e => .error (.read e)
      | .ok w => .ok w := by
  obtain ⟨hholds, -, hmax⟩ := r.vectors_hold reader hreader
  obtain ⟨rest, hdrop⟩ := drop_vectorData hreader hle
  refine ⟨(rest.map Prod.fst).flatten, (rest.map Prod.snd).flatten, fun w => ?_⟩
  rw [copyRawVectors, Reader.rawDocs_eq hholds hreaches hpos (by omega), hdrop,
    List.take_left' (by rw [List.length_map, List.length_range']), List.map_append, List.map_append, List.flatten_append,
    List.flatten_append]

theorem addRawDocuments_vectors {docs : Reader.RawDocs} (h : w.addRawDocuments docs = .ok w') :
    (0 ≤ (docs.tvdLengths.map Int32.toInt).sum ∧ (docs.tvdLengths.map Int32.toInt).sum ≤ docs.tvd.length) ∧
      (0 ≤ (docs.tvfLengths.map Int32.toInt).sum ∧ (docs.tvfLengths.map Int32.toInt).sum ≤ docs.tvf.length) ∧
      w' = { w with
        tvx := w.tvx ++ (interleave (positions w.tvd.length (docs.tvdLengths.map Int32.toInt))
          (positions w.tvf.length (docs.tvfLengths.map Int32.toInt))).flatMap writeLong
        tvd := w.tvd ++ docs.tvd.take (docs.tvdLengths.map Int32.toInt).sum.toNat
        tvf := w.tvf ++ docs.tvf.take (docs.tvfLengths.map Int32.toInt).sum.toNat } := by
  rw [TermVectors.Writer.addRawDocuments, copyBytes, copyBytes] at h
  split_ifs at h with hneg hneg' hle hle'
  all_goals first
    | cases h
      done
    | exact ⟨⟨by omega, by assumption⟩, ⟨by omega, by assumption⟩, (Except.ok.inj h).symm⟩

/-- A reader whose vectors are copied raw. -/
def isRawVectors (raw : Bool) (readers : List (StoredSegment wide)) (r : StoredSegment wide) : Bool :=
  isRaw raw (segmentsOf readers) r.toStoredReader && r.termVectorsReader.isSome

/-- How the vectors of a reader are copied raw, when they are. -/
def rawVectors (raw : Bool) (readers : List (StoredSegment wide)) (r : StoredSegment wide) :
    Option (TermVectors.Writer → Nat → Nat → Except MergeError TermVectors.Writer) :=
  if isRaw raw (segmentsOf readers) r.toStoredReader then r.termVectorsReader.map copyRawVectors else none

theorem isSome_rawVectors (raw : Bool) (readers : List (StoredSegment wide)) :
    (fun r => (rawVectors raw readers r).isSome) = isRawVectors raw readers := by
  funext r
  rw [rawVectors, isRawVectors]
  cases isRaw raw (segmentsOf readers) r.toStoredReader with
  | true => exact Option.isSome_map
  | false => rfl

theorem rawVectors_cases (raw : Bool) (readers : List (StoredSegment wide)) (r : StoredSegment wide) :
    (isRawVectors raw readers r = false ∧ rawVectors raw readers r = none) ∨
      ∃ reader, isRawVectors raw readers r = true ∧ r.termVectorsReader = some reader ∧
        rawVectors raw readers r = some (copyRawVectors reader) := by
  rw [isRawVectors, rawVectors]
  cases isRaw raw (segmentsOf readers) r.toStoredReader with
  | false => exact Or.inl ⟨rfl, rfl⟩
  | true =>
      cases r.termVectorsReader with
      | none => exact Or.inl ⟨rfl, rfl⟩
      | some reader => exact Or.inr ⟨reader, rfl, rfl, rfl⟩

/-- The data of the documents of a job. -/
def jobData (job : Job (StoredSegment wide)) : List (List UInt8 × List UInt8) :=
  (List.range' job.start job.count).map job.reader.docData

/-- What is written of the vectors of a run: the data that they have, or the data that one document is given. -/
def AddsVectors (raw : Bool) (readers : List (StoredSegment wide)) (job : Job (StoredSegment wide)) (run : VectorRun) :
    Prop :=
  if isRawVectors raw readers job.reader then
    (run.tvd.pieces = (jobData job).map Prod.fst ∧
      run.tvd.lengths = run.tvd.pieces.map fun piece => (StoredFields.rawLength piece).toInt) ∧
    run.tvf.pieces = (jobData job).map Prod.snd ∧
      run.tvf.lengths = run.tvf.pieces.map fun piece => (StoredFields.rawLength piece).toInt
  else ∃ data : List UInt8 × List UInt8, run = singleVectors data ∧
    (data.2.length < 0x8000000000000000 → Wrote wide (namesOf readers) (job.reader.docVectors job.start) data)

theorem reaches_of_copyVectorJob {job : Job (StoredSegment wide)}
    (h : copyJob (rawVectors raw readers) (fun r => copyVectors wide size r.toMergeReader) w job = .ok w') :
    ∀ reader, job.reader.termVectorsReader = some reader → reader.Reaches job.start := by
  rw [copyJob] at h
  rcases rawVectors_cases raw readers job.reader with ⟨-, hnone⟩ | ⟨reader, -, hreader, hsome⟩
  · rw [hnone, copyRun] at h
    exact reaches_of_copyVectors h
  · rw [hsome, copyRun] at h
    intro reader' hreader'
    rw [hreader] at hreader'
    obtain rfl := Option.some.inj hreader'
    exact reaches_of_copyRawVectors h

theorem jobData_ne {job : Job (StoredSegment wide)} (hpos : 0 < job.count) :
    (jobData job).map Prod.fst ≠ [] ∧ (jobData job).map Prod.snd ≠ [] := by
  rw [jobData, List.map_map, List.map_map]
  exact ⟨map_range'_ne_nil _ hpos, map_range'_ne_nil _ hpos⟩

theorem map_rawLength (data : List (List UInt8 × List UInt8)) :
    (data.map fun d => StoredFields.rawLength d.1) = (data.map Prod.fst).map StoredFields.rawLength ∧
      (data.map fun d => StoredFields.rawLength d.2) = (data.map Prod.snd).map StoredFields.rawLength := by
  rw [List.map_map, List.map_map]
  exact ⟨rfl, rfl⟩

theorem adds_of_copyVectorJob {job : Job (StoredSegment wide)} (hreader : job.reader ∈ readers)
    (hlength : (namesOf readers).length < 0x80000000) (hpos : 0 < job.count)
    (hle : job.start + job.count ≤ job.reader.reader.maxDoc) (hnames : w.fieldInfos = namesOf readers)
    (h : copyJob (rawVectors raw readers) (fun r => copyVectors wide size r.toMergeReader) w job = .ok w') :
    ∃ run, AddsVectors raw readers job run ∧ w' = extendVectors w run := by
  have hreaches := reaches_of_copyVectorJob h
  rw [copyJob] at h
  rcases rawVectors_cases raw readers job.reader with ⟨hraw, hnone⟩ | ⟨reader, hraw, htv, hsome⟩
  · rw [hnone, copyRun] at h
    obtain ⟨data, hextend, hwrote⟩ := copyVectors_ok hreader (by omega) hnames hlength h
    refine ⟨singleVectors data, ?_, hextend⟩
    rw [AddsVectors, hraw, if_neg Bool.false_ne_true]
    exact ⟨data, rfl, hwrote⟩
  · obtain ⟨rest, rest', hcopy⟩ := copyRawVectors_eq htv hpos hle (hreaches reader htv)
    obtain ⟨hne, hne'⟩ := jobData_ne hpos
    rw [hsome, copyRun, hcopy] at h
    split at h
    · cases h
    · rename_i w₁ hadd
      obtain rfl := Except.ok.inj h
      obtain ⟨⟨hnonneg, hsum⟩, ⟨hnonneg', hsum'⟩, rfl⟩ := addRawDocuments_vectors hadd
      dsimp only at hnonneg hsum hnonneg' hsum'
      have hfst : ((List.range' job.start job.count).map job.reader.docData).map (fun d => StoredFields.rawLength d.1) =
          ((jobData job).map Prod.fst).map StoredFields.rawLength := (map_rawLength (jobData job)).1
      have hsnd : ((List.range' job.start job.count).map job.reader.docData).map (fun d => StoredFields.rawLength d.2) =
          ((jobData job).map Prod.snd).map StoredFields.rawLength := (map_rawLength (jobData job)).2
      rw [hfst] at hnonneg hsum
      rw [hsnd] at hnonneg' hsum'
      refine ⟨⟨rawRunOf _ rest hne hnonneg hsum, rawRunOf _ rest' hne' hnonneg' hsum', ?_⟩, ?_, ?_⟩
      · change ((jobData job).map Prod.fst).length = ((jobData job).map Prod.snd).length
        rw [List.length_map, List.length_map]
      · rw [AddsVectors, if_pos hraw]
        exact ⟨⟨rfl, List.map_map⟩, rfl, List.map_map⟩
      · simp only [hfst, hsnd]
        rfl

theorem copyVectorJob_ok {job : Job (StoredSegment wide)} (hreader : job.reader ∈ readers)
    (hlength : (namesOf readers).length < 0x80000000) (hpos : 0 < job.count)
    (hle : job.start + job.count ≤ job.reader.reader.maxDoc) (hnames : w.fieldInfos = namesOf readers)
    (hreaches : ∀ reader, job.reader.termVectorsReader = some reader → reader.Reaches job.start)
    (hnil : isRawVectors raw readers job.reader = false → job.reader.docVectors job.start = [])
    (hsmall : isRawVectors raw readers job.reader = true → ∀ d ∈ jobData job,
      d.1.length < 0x80000000 ∧ d.2.length < 0x80000000) :
    ∃ run, copyJob (rawVectors raw readers) (fun r => copyVectors wide size r.toMergeReader) w job =
      .ok (extendVectors w run) := by
  have hok : ∃ w', copyJob (rawVectors raw readers) (fun r => copyVectors wide size r.toMergeReader) w job = .ok w' := by
    rw [copyJob]
    rcases rawVectors_cases raw readers job.reader with ⟨hraw, hnone⟩ | ⟨reader, hraw, htv, hsome⟩
    · rw [hnone, copyRun]
      exact copyVectors_of_nil (by omega) hreaches (hnil hraw) w
    · obtain ⟨rest, rest', hcopy⟩ := copyRawVectors_eq htv hpos hle (hreaches reader htv)
      have hfst : (((List.range' job.start job.count).map job.reader.docData).map fun d =>
          StoredFields.rawLength d.1).map Int32.toInt = lengthsOf ((jobData job).map Prod.fst) := by
        refine (congrArg _ (map_rawLength (jobData job)).1).trans ?_
        rw [List.map_map]
        apply rawLengths_eq
        intro piece hmem
        obtain ⟨d, hd, rfl⟩ := List.mem_map.mp hmem
        exact (hsmall hraw d hd).1
      have hsnd : (((List.range' job.start job.count).map job.reader.docData).map fun d =>
          StoredFields.rawLength d.2).map Int32.toInt = lengthsOf ((jobData job).map Prod.snd) := by
        refine (congrArg _ (map_rawLength (jobData job)).2).trans ?_
        rw [List.map_map]
        apply rawLengths_eq
        intro piece hmem
        obtain ⟨d, hd, rfl⟩ := List.mem_map.mp hmem
        exact (hsmall hraw d hd).2
      have hsum := sum_lengthsOf ((jobData job).map Prod.fst)
      have hsum' := sum_lengthsOf ((jobData job).map Prod.snd)
      rw [hsome, copyRun, hcopy, TermVectors.Writer.addRawDocuments, copyBytes, copyBytes]
      dsimp only
      rw [hfst, hsnd, if_neg (by omega), if_pos (by rw [hsum, List.length_append, Nat.cast_add, jobData]; omega),
        if_neg (by omega), if_pos (by rw [hsum', List.length_append, Nat.cast_add, jobData]; omega)]
      exact ⟨_, rfl⟩
  obtain ⟨w', hcopy⟩ := hok
  obtain ⟨run, -, rfl⟩ := adds_of_copyVectorJob hreader hlength hpos hle hnames hcopy
  exact ⟨run, hcopy⟩

end Writing

section Merging
variable {wide : ∀ w, UInt8 → Nat → BitVec w} {size : Nat} {raw : Bool} {readers : List (StoredSegment wide)}
  {jobs : List (Job (StoredSegment wide))} {runs : List VectorRun}

/-- The documents that are left, each with its reader. -/
abbrev segmentDocs (readers : List (StoredSegment wide)) : List (StoredSegment wide × Nat) :=
  mergedDocs (fun r : StoredSegment wide => r.reader) readers

/-- The term vectors are merged, and the files have the vectors of the documents that are left, each once and in order. -/
def MergesVectors (size : Nat) (raw : Bool) (readers : List (StoredSegment wide)) : Prop :=
  ∃ w, mergeVectors wide size raw (docsOf (segmentsOf readers)).length
      ((segmentsOf readers).map StoredReader.toMergeReader) = .ok w ∧
    ∃ data, VectorFiles data w.tvx w.tvd w.tvf ∧ List.Forall₂ (fun (doc : StoredSegment wide × Nat) d =>
      Stores wide (namesOf readers) d (doc.1.docVectors doc.2)) (segmentDocs readers) data

/-- The numbers of fields are `int32_t`, and the lengths of files `int64_t`. -/
structure VectorsFit (size : Nat) (readers : List (StoredSegment wide)) : Prop where
  length_names : (namesOf readers).length < 0x80000000
  length_files : ∀ raw w, mergeVectors wide size raw (docsOf (segmentsOf readers)).length
      ((segmentsOf readers).map StoredReader.toMergeReader) = .ok w →
    w.tvd.length < 0x8000000000000000 ∧ w.tvf.length < 0x8000000000000000

/-- The writer when all runs have been written. -/
def writtenVectors (readers : List (StoredSegment wide)) (runs : List VectorRun) : TermVectors.Writer where
  tvx := writeInt FORMAT_SIZE ++ (interleave (entries FORMAT_SIZE (runs.map VectorRun.tvd))
    (entries FORMAT_SIZE (runs.map VectorRun.tvf))).flatMap writeLong
  tvd := writeInt FORMAT_SIZE ++ data (runs.map VectorRun.tvd)
  tvf := writeInt FORMAT_SIZE ++ data (runs.map VectorRun.tvf)
  fieldInfos := namesOf readers

theorem foldl_extendVectors_new (runs : List VectorRun) :
    runs.foldl extendVectors (newVectorsWriter (fieldInfosOf (segmentsOf readers))) = writtenVectors readers runs :=
  foldl_extendVectors runs _

theorem length_segmentDocs (readers : List (StoredSegment wide)) :
    (docsOf (segmentsOf readers)).length = (segmentDocs readers).length := by
  rw [docsOf, segmentDocs, mergedDocs, mergedDocs, List.flatMap_map, List.length_flatMap, List.length_flatMap]
  simp only [List.length_map]

theorem mergeVectors_eq (size : Nat) (raw : Bool) (readers : List (StoredSegment wide)) :
    ∃ jobs, JobsCover (fun r : StoredSegment wide => r.reader) (isRawVectors raw readers) readers jobs ∧
      mergeVectors wide size raw (docsOf (segmentsOf readers)).length
          ((segmentsOf readers).map StoredReader.toMergeReader) =
        match jobs.foldlM (copyJob (rawVectors raw readers) (fun r => copyVectors wide size r.toMergeReader))
          (newVectorsWriter (fieldInfosOf (segmentsOf readers))) with
        | .error e => .error e
        | .ok w => if FORMAT_SIZE + (segmentDocs readers).length * 16 ≠ w.tvx.length then .error .invalidResult
            else .ok w := by
  obtain ⟨jobs, hjobs, heq⟩ := @mergeDocuments_eq TermVectors.Writer MergeError (StoredSegment wide) (fun r => r.reader)
    (rawVectors raw readers) (fun r => copyVectors wide size r.toMergeReader) readers
  rw [isSome_rawVectors] at hjobs
  refine ⟨jobs, hjobs, ?_⟩
  have hunfold : mergeVectors wide size raw (docsOf (segmentsOf readers)).length
        ((segmentsOf readers).map StoredReader.toMergeReader) =
      match mergeDocuments (fun r : StoredSegment wide => copyDocuments r.reader (rawVectors raw readers r)
          (copyVectors wide size r.toMergeReader)) readers (newVectorsWriter (fieldInfosOf (segmentsOf readers))) 0 with
      | .error e => .error e
      | .ok (w, _) =>
          if FORMAT_SIZE + (docsOf (segmentsOf readers)).length * 16 ≠ w.tvx.length then .error .invalidResult
          else .ok w := by
    rw [mergeVectors, mergeDocuments_map, mergeDocuments_map]
    rfl
  rw [hunfold, heq, length_segmentDocs]
  cases jobs.foldlM (copyJob (rawVectors raw readers) (fun r => copyVectors wide size r.toMergeReader))
    (newVectorsWriter (fieldInfosOf (segmentsOf readers))) <;> rfl

theorem vectorJob_le {isRaw : StoredSegment wide → Bool}
    (hjobs : JobsCover (fun r : StoredSegment wide => r.reader) isRaw readers jobs) {job : Job (StoredSegment wide)}
    (hmem : job ∈ jobs) : job.reader ∈ readers ∧ job.start + job.count ≤ job.reader.reader.maxDoc := by
  have hpos := hjobs.pos job hmem
  have hlast : (job.reader, job.start + job.count - 1) ∈ mergedDocs _ readers :=
    hjobs.mem_mergedDocs hmem (by omega) (by omega)
  obtain ⟨hreader, hlive⟩ := (mem_mergedDocs _).mp hlast
  have hlt := (mem_liveDocs.mp hlive).1
  exact ⟨hreader, by omega⟩

/-- What the runs have in both files. -/
def dataOf (runs : List VectorRun) : List (List UInt8 × List UInt8) :=
  runs.flatMap fun run => run.tvd.pieces.zip run.tvf.pieces

theorem map_dataOf (runs : List VectorRun) :
    (dataOf runs).map Prod.fst = pieces (runs.map VectorRun.tvd) ∧
      (dataOf runs).map Prod.snd = pieces (runs.map VectorRun.tvf) := by
  rw [dataOf, List.map_flatMap, List.map_flatMap, pieces, pieces, List.flatMap_map, List.flatMap_map]
  exact ⟨List.flatMap_congr fun run _ => List.map_fst_zip run.length_eq.le,
    List.flatMap_congr fun run _ => List.map_snd_zip run.length_eq.ge⟩

/-- What the data of a document that is written stands for. Raw data stands for the vectors of the document. -/
def WroteDoc (raw : Bool) (readers : List (StoredSegment wide)) (doc : StoredSegment wide × Nat)
    (d : List UInt8 × List UInt8) : Prop :=
  Wrote wide (namesOf readers) (doc.1.docVectors doc.2) d ∨
    isRawVectors raw readers doc.1 = true ∧ Stores wide (namesOf readers) d (doc.1.docVectors doc.2)

theorem WroteDoc.stores {doc : StoredSegment wide × Nat} {d : List UInt8 × List UInt8} (h : WroteDoc raw readers doc d) :
    ∃ vectors, Stores wide (namesOf readers) d vectors := by
  rcases h with ⟨vectors, hstores, -⟩ | ⟨-, hstores⟩
  · exact ⟨vectors, hstores⟩
  · exact ⟨_, hstores⟩

theorem forall₂_of_addsVectors {job : Job (StoredSegment wide)} {run : VectorRun} (hreader : job.reader ∈ readers)
    (hnames : (namesOf readers).length < 0x80000000) (hle : job.start + job.count ≤ job.reader.reader.maxDoc)
    (hsingle : isRawVectors raw readers job.reader = false → job.count = 1) (h : AddsVectors raw readers job run)
    (hlength : run.tvf.copied.length < 0x8000000000000000) :
    List.Forall₂ (WroteDoc raw readers) job.docs (run.tvd.pieces.zip run.tvf.pieces) := by
  rw [AddsVectors] at h
  rw [Job.docs]
  split_ifs at h with hraw
  · have hzip : run.tvd.pieces.zip run.tvf.pieces = jobData job :=
      (List.zip_of_prod h.1.1.symm h.2.1.symm).symm
    rw [hzip, jobData, List.forall₂_map_left_iff, List.forall₂_map_right_iff, List.forall₂_same]
    intro n hn
    rw [List.mem_range'_1] at hn
    obtain ⟨hmatching, htv⟩ := Bool.and_eq_true_iff.mp hraw
    obtain ⟨reader, hreader'⟩ := Option.isSome_iff_exists.mp htv
    obtain ⟨-, hstores, -⟩ := StoredSegment.exists_vectors hreader' (n := n) (by omega)
    exact Or.inr ⟨hraw, stores_merged hnames hreader (isMatching_of_isRaw hmatching) hstores⟩
  · obtain ⟨d, rfl, hwrote⟩ := h
    rw [hsingle (Bool.eq_false_iff.mpr hraw)]
    refine List.Forall₂.cons (Or.inl (hwrote ?_)) List.Forall₂.nil
    rwa [singleVectors, copied_singleRun] at hlength

theorem length_copied_le {run : Run UInt8} {runs : List (Run UInt8)} (hmem : run ∈ runs) :
    run.copied.length ≤ (data runs).length := by
  rw [data, List.flatMap_def]
  exact (List.sublist_flatten_of_mem (List.mem_map_of_mem hmem)).length_le

theorem forall₂_dataOf (hnames : (namesOf readers).length < 0x80000000)
    (hjobs : JobsCover (fun r : StoredSegment wide => r.reader) (isRawVectors raw readers) readers jobs)
    (h : List.Forall₂ (AddsVectors raw readers) jobs runs)
    (hlength : (data (runs.map VectorRun.tvf)).length < 0x8000000000000000) :
    List.Forall₂ (WroteDoc raw readers) (segmentDocs readers) (dataOf runs) := by
  rw [segmentDocs, ← hjobs.flatMap_eq]
  have hall : ∀ job run, job ∈ jobs → run ∈ runs → AddsVectors raw readers job run →
      List.Forall₂ (WroteDoc raw readers) job.docs (run.tvd.pieces.zip run.tvf.pieces) := by
    intro job run hjob hrun hadds
    obtain ⟨hreader, hle⟩ := vectorJob_le hjobs hjob
    exact forall₂_of_addsVectors hreader hnames hle (hjobs.single job hjob) hadds
      ((length_copied_le (List.mem_map_of_mem hrun)).trans_lt hlength)
  clear hjobs hlength
  induction h with
  | nil => exact List.Forall₂.nil
  | cons hadds _ ih =>
      exact List.rel_append (hall _ _ List.mem_cons_self List.mem_cons_self hadds)
        (ih fun job run hjob hrun => hall job run (List.mem_cons_of_mem _ hjob) (List.mem_cons_of_mem _ hrun))

theorem addsVectors_of_mem (h : List.Forall₂ (AddsVectors raw readers) jobs runs) {run : VectorRun} (hmem : run ∈ runs) :
    ∃ job ∈ jobs, AddsVectors raw readers job run := by
  obtain ⟨i, hi, rfl⟩ := List.getElem_of_mem hmem
  have hi' : i < jobs.length := h.length_eq ▸ hi
  exact ⟨_, List.getElem_mem hi', (List.forall₂_iff_get.mp h).2 i hi' hi⟩

theorem exists_addsVectors (h : List.Forall₂ (AddsVectors raw readers) jobs runs) {job : Job (StoredSegment wide)}
    (hmem : job ∈ jobs) : ∃ run ∈ runs, AddsVectors raw readers job run := by
  obtain ⟨i, hi, rfl⟩ := List.getElem_of_mem hmem
  have hi' : i < runs.length := h.length_eq ▸ hi
  exact ⟨_, List.getElem_mem hi', (List.forall₂_iff_get.mp h).2 i hi hi'⟩

/-- Lengths that are not right are those of raw documents, of which a run has not too many. -/
theorem bounded_of_addsVectors {job : Job (StoredSegment wide)} {run : VectorRun} (hmax : job.count ≤ MAX_RAW_MERGE_DOCS)
    (h : AddsVectors raw readers job run) :
    (run.tvd.Exact ∨ (∀ length ∈ run.tvd.lengths, |length| ≤ 0x80000000) ∧
      (run.tvd.lengths.length : Int) ≤ MAX_RAW_MERGE_DOCS) ∧
    (run.tvf.Exact ∨ (∀ length ∈ run.tvf.lengths, |length| ≤ 0x80000000) ∧
      (run.tvf.lengths.length : Int) ≤ MAX_RAW_MERGE_DOCS) := by
  have hraw : ∀ {r : Run UInt8} {pieces : List (List UInt8)}, r.pieces = pieces → pieces.length = job.count →
      r.lengths = r.pieces.map (fun piece => (StoredFields.rawLength piece).toInt) →
      (∀ length ∈ r.lengths, |length| ≤ 0x80000000) ∧ (r.lengths.length : Int) ≤ MAX_RAW_MERGE_DOCS := by
    intro r pieces hpieces hcount hlengths
    refine ⟨fun length hmem => ?_, ?_⟩
    · rw [hlengths] at hmem
      obtain ⟨piece, -, rfl⟩ := List.mem_map.mp hmem
      exact abs_toInt_le _
    · rw [r.length_lengths, hpieces, hcount]
      exact_mod_cast hmax
  have hcount : (jobData job).length = job.count := by rw [jobData, List.length_map, List.length_range']
  rw [AddsVectors] at h
  split_ifs at h
  · exact ⟨Or.inr (hraw h.1.1 ((List.length_map _).trans hcount) h.1.2),
      Or.inr (hraw h.2.1 ((List.length_map _).trans hcount) h.2.2)⟩
  · obtain ⟨d, rfl, -⟩ := h
    exact ⟨Or.inl rfl, Or.inl rfl⟩

theorem exact_of_addsVectors {job : Job (StoredSegment wide)} {run : VectorRun} (h : AddsVectors raw readers job run)
    (hsmall : isRawVectors raw readers job.reader = true → ∀ d ∈ jobData job,
      d.1.length < 0x80000000 ∧ d.2.length < 0x80000000) : run.tvd.Exact ∧ run.tvf.Exact := by
  rw [AddsVectors] at h
  split_ifs at h with hraw
  · rw [Run.Exact, Run.Exact, h.1.2, h.1.1, h.2.2, h.2.1]
    constructor
    · apply rawLengths_eq
      intro piece hmem
      obtain ⟨d, hd, rfl⟩ := List.mem_map.mp hmem
      exact (hsmall hraw d hd).1
    · apply rawLengths_eq
      intro piece hmem
      obtain ⟨d, hd, rfl⟩ := List.mem_map.mp hmem
      exact (hsmall hraw d hd).2
  · obtain ⟨d, rfl, -⟩ := h
    exact ⟨rfl, rfl⟩

theorem small_of_rawLengths {run : Run UInt8} (hlengths : run.lengths = run.pieces.map fun piece =>
    (StoredFields.rawLength piece).toInt) (hexact : run.Exact) {piece : List UInt8} (hmem : piece ∈ run.pieces) :
    piece.length < 0x80000000 := by
  rw [Run.Exact, hlengths, lengthsOf] at hexact
  have heq := List.map_inj_left.mp hexact _ hmem
  have hlt := (StoredFields.rawLength piece).toInt_lt
  omega

theorem small_of_exactVectors {job : Job (StoredSegment wide)} {run : VectorRun} (h : AddsVectors raw readers job run)
    (hexact : run.tvd.Exact ∧ run.tvf.Exact) (hraw : isRawVectors raw readers job.reader = true) :
    ∀ d ∈ jobData job, d.1.length < 0x80000000 ∧ d.2.length < 0x80000000 := by
  rw [AddsVectors, if_pos hraw] at h
  intro d hd
  exact ⟨small_of_rawLengths h.1.2 hexact.1 (h.1.1 ▸ List.mem_map_of_mem hd),
    small_of_rawLengths h.2.2 hexact.2 (h.2.1 ▸ List.mem_map_of_mem hd)⟩

theorem written_of_mergeVectors {w : TermVectors.Writer} (hnames : (namesOf readers).length < 0x80000000)
    (h : mergeVectors wide size raw (docsOf (segmentsOf readers)).length
      ((segmentsOf readers).map StoredReader.toMergeReader) = .ok w) :
    ∃ jobs runs, JobsCover (fun r : StoredSegment wide => r.reader) (isRawVectors raw readers) readers jobs ∧
      List.Forall₂ (AddsVectors raw readers) jobs runs ∧ w = writtenVectors readers runs ∧
        ∀ job ∈ jobs, ∀ reader, job.reader.termVectorsReader = some reader → reader.Reaches job.start := by
  obtain ⟨jobs, hjobs, heq⟩ := mergeVectors_eq size raw readers
  rw [heq] at h
  cases hfold : jobs.foldlM (copyJob (rawVectors raw readers) (fun r => copyVectors wide size r.toMergeReader))
      (newVectorsWriter (fieldInfosOf (segmentsOf readers))) with
  | error e =>
      rw [hfold] at h
      cases h
  | ok w' =>
      rw [hfold] at h
      dsimp only at h
      split_ifs at h
      obtain rfl := Except.ok.inj h
      obtain ⟨runs, hruns, rfl⟩ := @foldlM_of_ok _ _ _ _ (fun w : TermVectors.Writer => w.fieldInfos = namesOf readers)
        extendVectors _ (AddsVectors raw readers) jobs (fun _ _ hw => hw) (fun job hmem _ _ hw hcopy => by
          obtain ⟨hreader, hle⟩ := vectorJob_le hjobs hmem
          exact adds_of_copyVectorJob hreader hnames (hjobs.pos job hmem) hle hw hcopy) _ _ rfl hfold
      refine ⟨jobs, runs, hjobs, hruns, foldl_extendVectors_new runs, fun job hmem => ?_⟩
      obtain ⟨w₁, w₂, hcopy⟩ := ok_of_foldlM hfold job hmem
      exact reaches_of_copyVectorJob hcopy

end Merging

end LucenePlusPlus.SegmentMerger
