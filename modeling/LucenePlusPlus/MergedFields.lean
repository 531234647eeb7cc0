import LucenePlusPlus.DocumentCopies
import LucenePlusPlus.StoredFieldsFiles

/-!
`SegmentMerger::mergeFields`, when doc stores are merged: the stored fields of the documents that are left. A document that
is copied raw and one that is read and written again are the same document when they are read.
-/

namespace LucenePlusPlus.SegmentMerger
open StoredFields CopiedRuns Decoders IndexOutput IndexInput

variable (wide : ∀ w, UInt8 → Nat → BitVec w) (size : Nat)

/-- A reader that is merged. -/
structure MergeReader where
  reader : SegmentReader
  fieldsReader : FieldsReader
  /-- null when the segment has no term vectors -/
  termVectorsReader : Option TermVectors.Reader

namespace MergeReader

def fieldInfos (r : MergeReader) : FieldInfos := r.fieldsReader.fieldInfos

end MergeReader

/-- The fields of the merged segment. -/
def mergedFieldInfos (readers : List MergeReader) : FieldInfos :=
  FieldInfos.mergeFields true (readers.map MergeReader.fieldInfos)

/-- `FieldInfos::fieldName` -/
def fieldName (infos : FieldInfos) (fieldNumber : Nat) : WString := (infos[fieldNumber]?.map FieldInfo.name).getD []

/-- `setMatchingSegmentReaders`: the fields of the segment have the same numbers in the merged one. -/
def isMatching (fieldInfos : FieldInfos) (r : MergeReader) : Bool :=
  (List.range r.fieldInfos.length).all fun j => fieldName fieldInfos j = fieldName r.fieldInfos j

def copyRawFields (matchingFieldsReader : FieldsReader) (w : FieldsWriter) (start numDocs : Nat) :
    Except InputError FieldsWriter :=
  match matchingFieldsReader.rawDocs start numDocs with
  | .error e => .error e
  | .ok (rawDocLengths, stream) => w.addRawDocuments stream rawDocLengths

def copyFields (fieldsReader : FieldsReader) (w : FieldsWriter) (j : Nat) : Except InputError FieldsWriter :=
  match fieldsReader.doc wide j with
  | .error e => .error e
  | .ok doc => w.addDocument size doc

/-- Without `raw`, no reader matches. The size of the index file is checked against the number of documents. -/
def mergeFields (raw : Bool) (readers : List MergeReader) : Except InputError (FieldsWriter × Nat) :=
  let merged := mergeDocuments (fun r => copyDocuments r.reader
    (if raw && isMatching (mergedFieldInfos readers) r then some (copyRawFields r.fieldsReader) else none)
    (copyFields wide size r.fieldsReader)) readers (.new (mergedFieldInfos readers)) 0
  match merged with
  | .error e => .error e
  | .ok (w, docCount) => if FORMAT_SIZE + docCount * 8 ≠ w.fdx.length then .error .undefined else .ok (w, docCount)

/-- A reader, and what the doc store of its segment has: the documents, and the data of each. -/
structure StoredReader extends MergeReader where
  docs : List Document
  pieces : List (List UInt8)
  /-- of the writer that has written the data -/
  arraySize : Nat
  wellFormed : ∀ doc ∈ docs, Document.WellFormed toMergeReader.fieldInfos doc
  written : List.Forall₂ (fun doc piece => FieldsWriter.writeDocument arraySize toMergeReader.fieldInfos doc = some piece)
    docs pieces
  holds : fieldsReader.Holds pieces
  names_nodup : (toMergeReader.fieldInfos.map FieldInfo.name).Nodup
  length_fieldInfos : toMergeReader.fieldInfos.length < 0x80000000
  maxDoc_le : reader.maxDoc + fieldsReader.docStoreOffset ≤ docs.length

namespace StoredReader
variable {wide : ∀ w, UInt8 → Nat → BitVec w} {size : Nat} {r : StoredReader} {n : Nat} {infos : FieldInfos}

/-- A document of the segment, as it is read. -/
def document (r : StoredReader) (n : Nat) : Document := readBack (r.docs.getD (n + r.fieldsReader.docStoreOffset) [])

/-- The data of a document of the segment. -/
def piece (r : StoredReader) (n : Nat) : List UInt8 := r.pieces.getD (n + r.fieldsReader.docStoreOffset) []

theorem length_pieces (r : StoredReader) : r.pieces.length = r.docs.length := r.written.length_eq.symm

theorem exists_doc (hlt : n < r.reader.maxDoc) :
    ∃ doc ∈ r.docs, r.document n = readBack doc ∧
      FieldsWriter.writeDocument r.arraySize r.fieldInfos doc = some (r.piece n) ∧
      r.pieces[n + r.fieldsReader.docStoreOffset]? = some (r.piece n) := by
  have hle := r.maxDoc_le
  have hdoc : n + r.fieldsReader.docStoreOffset < r.docs.length := by omega
  have hpiece : n + r.fieldsReader.docStoreOffset < r.pieces.length := r.length_pieces ▸ hdoc
  have hget : r.piece n = r.pieces[n + r.fieldsReader.docStoreOffset] := by
    rw [piece, List.getD_eq_getElem?_getD, List.getElem?_eq_getElem hpiece, Option.getD_some]
  refine ⟨r.docs[n + r.fieldsReader.docStoreOffset], List.getElem_mem hdoc, ?_, ?_, ?_⟩
  · rw [document, List.getD_eq_getElem?_getD, List.getElem?_eq_getElem hdoc, Option.getD_some]
  · rw [hget]
    exact (List.forall₂_iff_get.mp r.written).2 _ hdoc hpiece
  · rw [hget, List.getElem?_eq_getElem hpiece]

theorem decodes_piece (hlt : n < r.reader.maxDoc) (hcongruent : Congruent r.fieldInfos infos) :
    Decodes (FieldsReader.readDocument wide infos) (r.piece n) (r.document n) := by
  obtain ⟨doc, hmem, hdoc, hwrite, -⟩ := exists_doc hlt
  rw [hdoc]
  exact decodes_readDocument hcongruent r.length_fieldInfos (r.wellFormed doc hmem) hwrite

theorem doc_eq (hlt : n < r.reader.maxDoc) (hreaches : r.fieldsReader.Reaches n) :
    r.fieldsReader.doc wide n = .ok (r.document n) := by
  obtain ⟨doc, -, -, -, hpiece⟩ := exists_doc hlt
  exact FieldsReader.doc_eq r.holds hreaches hpiece (decodes_piece hlt (StoredFields.Congruent.refl _))

theorem isSome_of_writeFields {doc : Document} {bytes : List UInt8} {field : Field}
    (h : FieldsWriter.writeFields size infos doc = some bytes) (hmem : field ∈ doc) :
    ∃ info, infos.fieldInfo field.name = some info := by
  induction doc generalizing bytes with
  | nil => cases hmem
  | cons first doc ih =>
      obtain ⟨bytes₁, rest, hfirst, hrest, -⟩ := writeFields_cons h
      rcases List.mem_cons.mp hmem with rfl | hmem
      · rw [FieldsWriter.writeField] at hfirst
        cases hfind : infos.findIdx? fun info => info.name = field.name with
        | none =>
            rw [hfind] at hfirst
            cases hfirst
        | some number =>
            obtain ⟨info, -, hinfo, -⟩ := findIdx?_fieldInfo hfind
            exact ⟨info, hinfo⟩
      · exact ih hrest hmem

theorem mem_document (hlt : n < r.reader.maxDoc) {field : Field} (hmem : field ∈ r.document n) :
    field.WellFormed r.fieldInfos ∧ ∃ info, r.fieldInfos.fieldInfo field.name = some info := by
  obtain ⟨doc, hdocs, hdoc, hwrite, -⟩ := exists_doc hlt
  obtain ⟨fields, hfields, -⟩ := Option.map_eq_some_iff.mp hwrite
  rw [hdoc] at hmem
  have hfield := List.mem_of_mem_filter hmem
  exact ⟨(r.wellFormed doc hdocs).fields field hfield, isSome_of_writeFields hfields hfield⟩

theorem length_document_lt (hlt : n < r.reader.maxDoc) : (r.document n).length < 0x80000000 := by
  obtain ⟨doc, hdocs, hdoc, -, -⟩ := exists_doc hlt
  rw [hdoc]
  exact (List.length_filter_le _ _).trans_lt (r.wellFormed doc hdocs).length_lt

theorem readBack_document (r : StoredReader) (n : Nat) : readBack (r.document n) = r.document n := readBack_readBack _

end StoredReader

abbrev fieldInfosOf (readers : List StoredReader) : FieldInfos :=
  mergedFieldInfos (readers.map StoredReader.toMergeReader)

section FieldInfos
variable {readers : List StoredReader} {r : StoredReader}

theorem isIndexed_update (info other : FieldInfo) :
    (info.update other).isIndexed = (info.isIndexed || other.isIndexed) := by
  change (if info.isIndexed ≠ other.isIndexed then true else info.isIndexed) = _
  cases info.isIndexed <;> cases other.isIndexed <;> rfl

theorem fieldInfo_merged (hmem : r ∈ readers) {name : WString} {info : FieldInfo}
    (hinfo : r.fieldInfos.fieldInfo name = some info) :
    ∃ merged, (fieldInfosOf readers).fieldInfo name = some merged ∧
      (info.isIndexed = true → merged.isIndexed = true) := by
  have hreaders : r.fieldInfos ∈ (readers.map StoredReader.toMergeReader).map MergeReader.fieldInfos :=
    List.mem_map_of_mem (List.mem_map_of_mem hmem)
  obtain ⟨merged, hmerged, hflag⟩ := FieldInfos.fieldInfo_mergeFields true
    ⟨r.fieldInfos, hreaders, by rw [hinfo]; rfl⟩
  refine ⟨merged, hmerged, fun hindexed => ?_⟩
  apply (hflag FieldInfo.isIndexed _).mpr
  · exact ⟨_, hreaders, info, FieldInfos.mem_of_fieldInfo hinfo, FieldInfos.name_of_fieldInfo hinfo, hindexed⟩
  · exact isIndexed_update

theorem mem_of_fieldInfo_name {infos : FieldInfos} {info : FieldInfo} (hmem : info ∈ infos) :
    ∃ info', infos.fieldInfo info.name = some info' := by
  rw [← Option.isSome_iff_exists, FieldInfos.fieldInfo, List.find?_isSome]
  exact ⟨info, hmem, decide_eq_true rfl⟩

theorem length_fieldInfos_le (hmem : r ∈ readers) :
    r.fieldInfos.length ≤ (fieldInfosOf readers).length := by
  have hsubset : r.fieldInfos.map FieldInfo.name ⊆
      (fieldInfosOf readers).map FieldInfo.name := by
    intro name hname
    obtain ⟨info, hinfo, rfl⟩ := List.mem_map.mp hname
    obtain ⟨info', hinfo'⟩ := mem_of_fieldInfo_name hinfo
    obtain ⟨merged, hmerged, -⟩ := fieldInfo_merged hmem hinfo'
    exact List.mem_map.mpr ⟨merged, FieldInfos.mem_of_fieldInfo hmerged, FieldInfos.name_of_fieldInfo hmerged⟩
  have hle := (List.subperm_of_subset r.names_nodup hsubset).length_le
  rwa [List.length_map, List.length_map] at hle

theorem fieldName_eq {infos : FieldInfos} {number : Nat} {info : FieldInfo} (h : infos[number]? = some info) :
    fieldName infos number = info.name := by
  rw [fieldName, h]
  rfl

theorem congruent_of_isMatching (hmem : r ∈ readers)
    (h : isMatching (fieldInfosOf readers) r.toMergeReader = true) :
    Congruent r.fieldInfos (fieldInfosOf readers) := by
  intro number info hinfo
  have hsame : ∀ j < r.fieldInfos.length, fieldName (fieldInfosOf readers) j =
      fieldName r.fieldInfos j := fun j hj => of_decide_eq_true (List.all_eq_true.mp h j (List.mem_range.mpr hj))
  obtain ⟨hlt, rfl⟩ := List.getElem?_eq_some_iff.mp hinfo
  have hlt' := hlt.trans_le (length_fieldInfos_le hmem)
  have hname : ∀ j (hj : j < r.fieldInfos.length) (hj' : j < (fieldInfosOf readers).length),
      (fieldInfosOf readers)[j].name = r.fieldInfos[j].name := by
    intro j hj hj'
    rw [← fieldName_eq (List.getElem?_eq_getElem hj), ← hsame j hj, fieldName_eq (List.getElem?_eq_getElem hj')]
  have hdistinct : ∀ i j (hi : i < r.fieldInfos.length) (hj : j < r.fieldInfos.length),
      r.fieldInfos[i].name = r.fieldInfos[j].name → i = j := by
    intro i j hi hj heq
    have hinj := List.nodup_iff_injective_getElem.mp r.names_nodup
    have hfin := @hinj ⟨i, by rwa [List.length_map]⟩ ⟨j, by rwa [List.length_map]⟩ (by
      simpa only [List.getElem_map] using heq)
    exact congrArg Fin.val hfin
  refine ⟨_, List.getElem?_eq_getElem hlt', hname number hlt hlt', fun hindexed => ?_⟩
  have hfirst : r.fieldInfos.fieldInfo r.fieldInfos[number].name = some r.fieldInfos[number] := by
    rw [FieldInfos.fieldInfo, List.find?_eq_some_iff_getElem]
    refine ⟨decide_eq_true rfl, number, hlt, rfl, fun j hj => ?_⟩
    have hne : r.fieldInfos[j].name ≠ r.fieldInfos[number].name := fun heq => by
      have := hdistinct j number (hj.trans hlt) hlt heq
      omega
    simpa using hne
  obtain ⟨merged, hmerged, hflag⟩ := fieldInfo_merged hmem hfirst
  have hfirst' : (fieldInfosOf readers).fieldInfo r.fieldInfos[number].name =
      some (fieldInfosOf readers)[number] := by
    rw [FieldInfos.fieldInfo, List.find?_eq_some_iff_getElem]
    refine ⟨decide_eq_true (hname number hlt hlt'), number, hlt', rfl, fun j hj => ?_⟩
    have hne : (fieldInfosOf readers)[j].name ≠ r.fieldInfos[number].name := by
      rw [hname j (hj.trans hlt) (hj.trans hlt')]
      intro heq
      have := hdistinct j number (hj.trans hlt) hlt heq
      omega
    simpa using hne
  rw [hfirst'] at hmerged
  obtain rfl := Option.some.inj hmerged
  exact hflag hindexed

/-- A document that has been read can be written with the numbers of the merged segment. -/
theorem wellFormed_merged (hmem : r ∈ readers) {n : Nat} (hlt : n < r.reader.maxDoc) :
    Document.WellFormed (fieldInfosOf readers) (r.document n) where
  fields := by
    intro field hfield
    obtain ⟨hwell, info, hinfo⟩ := StoredReader.mem_document hlt hfield
    refine ⟨fun htokenized => ?_, hwell.text, hwell.binary⟩
    obtain ⟨hbinary, info', hinfo', hindexed⟩ := hwell.isTokenized htokenized
    obtain ⟨merged, hmerged, hflag⟩ := fieldInfo_merged hmem hinfo'
    exact ⟨hbinary, merged, hmerged, hflag hindexed⟩
  length_lt := StoredReader.length_document_lt hlt

theorem writeDocument_merged (size : Nat) (hmem : r ∈ readers) {n : Nat} (hlt : n < r.reader.maxDoc) :
    ∃ bytes, FieldsWriter.writeDocument size (fieldInfosOf readers) (r.document n) =
      some bytes := by
  apply writeDocument_isSome
  intro field hfield
  obtain ⟨-, info, hinfo⟩ := StoredReader.mem_document hlt hfield
  obtain ⟨merged, hmerged, -⟩ := fieldInfo_merged hmem hinfo
  rw [hmerged]
  rfl

end FieldInfos

section Writing
variable {size : Nat} {raw : Bool} {readers : List StoredReader} {r : StoredReader} {w w' : FieldsWriter}

/-- A run is written. -/
def extend (w : FieldsWriter) (run : Run UInt8) : FieldsWriter :=
  { w with
    fdx := w.fdx ++ (positions w.fdt.length run.lengths).flatMap writeLong
    fdt := w.fdt ++ run.copied }

theorem foldl_extend (runs : List (Run UInt8)) (w : FieldsWriter) :
    runs.foldl extend w =
      { w with fdx := w.fdx ++ (entries w.fdt.length runs).flatMap writeLong, fdt := w.fdt ++ data runs } := by
  induction runs generalizing w with
  | nil =>
      rw [List.foldl_nil, entries, data, List.flatMap_nil, List.flatMap_nil, List.append_nil, List.append_nil]
  | cons run runs ih =>
      rw [List.foldl_cons, ih, entries, data_cons]
      simp only [extend, List.length_append, Nat.cast_add, List.flatMap_append, List.append_assoc]

/-- A reader whose documents are copied raw. -/
def isRaw (raw : Bool) (readers : List StoredReader) (r : StoredReader) : Bool :=
  raw && isMatching (fieldInfosOf readers) r.toMergeReader

/-- What is written of the documents of a run: the data that they have, or the data that one is given. -/
def Adds (size : Nat) (raw : Bool) (readers : List StoredReader) (job : Job StoredReader) (run : Run UInt8) : Prop :=
  if isRaw raw readers job.reader then
    run.pieces = (List.range' job.start job.count).map job.reader.piece ∧
      run.lengths = run.pieces.map fun piece => (rawLength piece).toInt
  else
    ∃ bytes, FieldsWriter.writeDocument size (fieldInfosOf readers) (job.reader.document job.start) = some bytes ∧
      run.pieces = [bytes] ∧ run.Exact

/-- The data of the documents from `start` on is at the front of the data that is left. -/
theorem drop_pieces {start count : Nat} (hle : start + count ≤ r.reader.maxDoc) :
    ∃ rest, r.pieces.drop (start + r.fieldsReader.docStoreOffset) = (List.range' start count).map r.piece ++ rest := by
  refine ⟨r.pieces.drop (start + r.fieldsReader.docStoreOffset + count), ?_⟩
  have hmax := r.maxDoc_le
  have hlength := r.length_pieces
  have htake : (r.pieces.drop (start + r.fieldsReader.docStoreOffset)).take count =
      (List.range' start count).map r.piece := by
    apply List.ext_getElem
    · rw [List.length_take, List.length_drop, List.length_map, List.length_range']
      omega
    · intro i hi hi'
      rw [List.length_map, List.length_range'] at hi'
      rw [List.getElem_take, List.getElem_drop, List.getElem_map, List.getElem_range', Nat.one_mul, StoredReader.piece,
        List.getD_eq_getElem?_getD, show start + i + r.fieldsReader.docStoreOffset =
          start + r.fieldsReader.docStoreOffset + i by omega, List.getElem?_eq_getElem (by omega), Option.getD_some]
  rw [← htake]
  conv_lhs => rw [← List.take_append_drop count (r.pieces.drop _), List.drop_drop]

theorem copyRawFields_eq {start count : Nat} (hpos : 0 < count) (hle : start + count ≤ r.reader.maxDoc)
    (hreaches : r.fieldsReader.Reaches start) :
    ∃ rest, ∀ w : FieldsWriter, copyRawFields r.fieldsReader w start count =
      w.addRawDocuments (((List.range' start count).map r.piece).flatten ++ rest)
        (((List.range' start count).map r.piece).map rawLength) := by
  obtain ⟨rest, hdrop⟩ := drop_pieces hle
  have hmax := r.maxDoc_le
  refine ⟨rest.flatten, fun w => ?_⟩
  rw [copyRawFields, FieldsReader.rawDocs_eq r.holds hreaches hpos (by rw [r.length_pieces]; omega), hdrop,
    List.take_left' (by rw [List.length_map, List.length_range']), List.flatten_append]

theorem addRawDocuments_ok {stream : List UInt8} {lengths : List Int32} (h : w.addRawDocuments stream lengths = .ok w') :
    0 ≤ (lengths.map Int32.toInt).sum ∧ (lengths.map Int32.toInt).sum ≤ stream.length ∧
      w' = { w with
        fdx := w.fdx ++ (positions w.fdt.length (lengths.map Int32.toInt)).flatMap writeLong
        fdt := w.fdt ++ stream.take (lengths.map Int32.toInt).sum.toNat } := by
  rw [FieldsWriter.addRawDocuments, copyBytes] at h
  split_ifs at h with hneg hle
  · cases h
  · exact ⟨by omega, hle, (Except.ok.inj h).symm⟩
  · cases h

theorem job_le {isRaw : StoredReader → Bool} {jobs : List (Job StoredReader)}
    (hjobs : JobsCover (fun r : StoredReader => r.reader) isRaw readers jobs) {job : Job StoredReader} (hmem : job ∈ jobs) :
    job.reader ∈ readers ∧ job.start + job.count ≤ job.reader.reader.maxDoc := by
  have hpos := hjobs.pos job hmem
  have hlast : (job.reader, job.start + job.count - 1) ∈ mergedDocs _ readers :=
    hjobs.mem_mergedDocs hmem (by omega) (by omega)
  obtain ⟨hreader, hlive⟩ := (mem_mergedDocs _).mp hlast
  have hlt := (mem_liveDocs.mp hlive).1
  exact ⟨hreader, by omega⟩

/-- A run that is not larger than its source, and has a piece. -/
def rawRunOf (pieces : List (List UInt8)) (rest : List UInt8) (hne : pieces ≠ [])
    (hnonneg : 0 ≤ ((pieces.map rawLength).map Int32.toInt).sum)
    (hle : ((pieces.map rawLength).map Int32.toInt).sum ≤ (pieces.flatten ++ rest).length) : Run UInt8 where
  pieces := pieces
  lengths := (pieces.map rawLength).map Int32.toInt
  rest := rest
  pieces_ne := hne
  length_lengths := by rw [List.length_map, List.length_map]
  sum_nonneg := hnonneg
  sum_le := hle

theorem map_range'_ne_nil {α : Type} {start count : Nat} (f : Nat → α) (hpos : 0 < count) :
    (List.range' start count).map f ≠ [] := by
  intro hnil
  have hlength := congrArg List.length hnil
  rw [List.length_map, List.length_range', List.length_nil] at hlength
  omega

theorem reaches_of_copyRawFields {start count : Nat} (h : copyRawFields r.fieldsReader w start count = .ok w') :
    r.fieldsReader.Reaches start := by
  by_contra hnot
  rw [copyRawFields, FieldsReader.rawDocs_of_not_reaches hnot] at h
  cases h

theorem reaches_of_copyFields {wide : ∀ w, UInt8 → Nat → BitVec w} {n : Nat}
    (h : copyFields wide size r.fieldsReader w n = .ok w') : r.fieldsReader.Reaches n := by
  by_contra hnot
  rw [copyFields, FieldsReader.doc_of_not_reaches hnot] at h
  cases h

/-- One piece, which is copied as a whole. -/
def singleRun (piece : List UInt8) : Run UInt8 where
  pieces := [piece]
  lengths := lengthsOf [piece]
  rest := []
  pieces_ne := List.cons_ne_nil _ _
  length_lengths := rfl
  sum_nonneg := by rw [sum_lengthsOf]; exact Int.natCast_nonneg _
  sum_le := by rw [sum_lengthsOf, List.append_nil]

theorem copied_singleRun (piece : List UInt8) : (singleRun piece).copied = piece := by
  have hexact : (singleRun piece).Exact := rfl
  rw [Run.copied_of_exact hexact]
  exact List.append_nil piece

theorem copyFields_eq (wide : ∀ w, UInt8 → Nat → BitVec w) (size : Nat) (hmem : r ∈ readers) {n : Nat}
    (hlt : n < r.reader.maxDoc) (hreaches : r.fieldsReader.Reaches n) :
    ∃ bytes, FieldsWriter.writeDocument size (fieldInfosOf readers) (r.document n) = some bytes ∧
      ∀ w : FieldsWriter, w.fieldInfos = fieldInfosOf readers →
        copyFields wide size r.fieldsReader w n = .ok (extend w (singleRun bytes)) := by
  obtain ⟨bytes, hbytes⟩ := writeDocument_merged size hmem hlt
  refine ⟨bytes, hbytes, fun w hinfos => ?_⟩
  rw [copyFields, StoredReader.doc_eq hlt hreaches]
  dsimp only
  rw [← hinfos] at hbytes
  rw [FieldsWriter.addDocument, hbytes, extend, copied_singleRun]
  rfl

theorem reaches_of_copyJob {wide : ∀ w, UInt8 → Nat → BitVec w} {job : Job StoredReader}
    (h : copyJob (fun r : StoredReader => if isRaw raw readers r then some (copyRawFields r.fieldsReader) else none)
      (fun r => copyFields wide size r.fieldsReader) w job = .ok w') : job.reader.fieldsReader.Reaches job.start := by
  rw [copyJob] at h
  cases hraw : isRaw raw readers job.reader with
  | true =>
      rw [hraw, if_pos rfl, copyRun] at h
      exact reaches_of_copyRawFields h
  | false =>
      rw [hraw, if_neg Bool.false_ne_true, copyRun] at h
      exact reaches_of_copyFields h

theorem adds_of_copyJob {wide : ∀ w, UInt8 → Nat → BitVec w} {job : Job StoredReader} (hreader : job.reader ∈ readers)
    (hpos : 0 < job.count) (hle : job.start + job.count ≤ job.reader.reader.maxDoc)
    (hinfos : w.fieldInfos = fieldInfosOf readers)
    (h : copyJob (fun r : StoredReader => if isRaw raw readers r then some (copyRawFields r.fieldsReader) else none)
      (fun r => copyFields wide size r.fieldsReader) w job = .ok w') :
    ∃ run, Adds size raw readers job run ∧ w' = extend w run := by
  rw [copyJob] at h
  cases hraw : isRaw raw readers job.reader with
  | true =>
      rw [hraw, if_pos rfl] at h
      obtain ⟨rest, hcopy⟩ := copyRawFields_eq hpos hle (reaches_of_copyRawFields h)
      rw [copyRun, hcopy] at h
      obtain ⟨hnonneg, hsum, rfl⟩ := addRawDocuments_ok h
      refine ⟨rawRunOf _ rest (map_range'_ne_nil _ hpos) hnonneg hsum, ?_, rfl⟩
      rw [Adds, if_pos hraw]
      exact ⟨rfl, List.map_map⟩
  | false =>
      rw [hraw, if_neg Bool.false_ne_true] at h
      obtain ⟨bytes, hbytes, hcopy⟩ := copyFields_eq wide size hreader (by omega) (reaches_of_copyFields h)
      rw [copyRun, hcopy w hinfos] at h
      refine ⟨singleRun bytes, ?_, (Except.ok.inj h).symm⟩
      rw [Adds, hraw, if_neg Bool.false_ne_true]
      exact ⟨bytes, hbytes, rfl, rfl⟩

theorem toInt_rawLength {piece : List UInt8} (h : piece.length < 0x80000000) : (rawLength piece).toInt = piece.length := by
  rw [rawLength, Int32.toInt_ofInt_of_le] <;> omega

theorem rawLengths_eq {pieces : List (List UInt8)} (h : ∀ piece ∈ pieces, piece.length < 0x80000000) :
    (pieces.map fun piece => (rawLength piece).toInt) = lengthsOf pieces :=
  List.map_congr_left fun piece hmem => toInt_rawLength (h piece hmem)

theorem copyJob_ok {wide : ∀ w, UInt8 → Nat → BitVec w} {job : Job StoredReader} (hreader : job.reader ∈ readers)
    (hpos : 0 < job.count) (hle : job.start + job.count ≤ job.reader.reader.maxDoc)
    (hinfos : w.fieldInfos = fieldInfosOf readers) (hreaches : job.reader.fieldsReader.Reaches job.start)
    (hsmall : isRaw raw readers job.reader = true →
      ∀ n ∈ List.range' job.start job.count, (job.reader.piece n).length < 0x80000000) :
    ∃ run, copyJob (fun r : StoredReader => if isRaw raw readers r then some (copyRawFields r.fieldsReader) else none)
      (fun r => copyFields wide size r.fieldsReader) w job = .ok (extend w run) := by
  rw [copyJob]
  cases hraw : isRaw raw readers job.reader with
  | true =>
      obtain ⟨rest, hcopy⟩ := copyRawFields_eq hpos hle hreaches
      have hlengths : (((List.range' job.start job.count).map job.reader.piece).map rawLength).map Int32.toInt =
          lengthsOf ((List.range' job.start job.count).map job.reader.piece) := by
        rw [List.map_map]
        apply rawLengths_eq
        intro piece hmem
        obtain ⟨n, hn, rfl⟩ := List.mem_map.mp hmem
        exact hsmall hraw n hn
      have hsum := sum_lengthsOf ((List.range' job.start job.count).map job.reader.piece)
      rw [if_pos rfl, copyRun, hcopy, FieldsWriter.addRawDocuments, copyBytes, hlengths, if_neg (by omega),
        if_pos (by rw [hsum, List.length_append, Nat.cast_add]; omega)]
      refine ⟨rawRunOf _ rest (map_range'_ne_nil _ hpos) (by rw [hlengths]; omega) (by
        rw [hlengths, hsum, List.length_append, Nat.cast_add]; omega), ?_⟩
      rw [extend, Run.copied]
      simp only [rawRunOf, hlengths]
      rfl
  | false =>
      obtain ⟨bytes, -, hcopy⟩ := copyFields_eq wide size hreader (n := job.start) (by omega) hreaches
      rw [if_neg Bool.false_ne_true, copyRun, hcopy w hinfos]
      exact ⟨_, rfl⟩

end Writing

/-! ### All documents -/

section Merging
variable {wide : ∀ w, UInt8 → Nat → BitVec w} {size : Nat} {raw : Bool} {readers : List StoredReader}

theorem mergeDocuments_map {W ε ρ ρ' : Type} (f : ρ → ρ') (copy : ρ' → W → Except ε (W × Nat)) (readers : List ρ) (w : W)
    (docCount : Nat) :
    mergeDocuments copy (readers.map f) w docCount = mergeDocuments (fun r => copy (f r)) readers w docCount := by
  induction readers generalizing w docCount with
  | nil => rfl
  | cons reader readers ih =>
      rw [List.map_cons, mergeDocuments, mergeDocuments]
      cases copy (f reader) w with
      | error e => rfl
      | ok merged => exact ih _ _

/-- The documents that are left, each with its reader. -/
abbrev docsOf (readers : List StoredReader) : List (StoredReader × Nat) :=
  mergedDocs (fun r : StoredReader => r.reader) readers

/-- The stored fields are merged, and the files have the documents that are left, each once and in order. -/
def MergesFields (wide : ∀ w, UInt8 → Nat → BitVec w) (size : Nat) (raw : Bool) (readers : List StoredReader) : Prop :=
  ∃ w docCount, mergeFields wide size raw (readers.map StoredReader.toMergeReader) = .ok (w, docCount) ∧
    docCount = (docsOf readers).length ∧ ∃ pieces, Files pieces w.fdx w.fdt ∧
      List.Forall₂ (fun doc piece => Decodes (FieldsReader.readDocument wide (fieldInfosOf readers)) piece
        (doc.1.document doc.2)) (docsOf readers) pieces

/-- The numbers of fields are `int32_t`, and the lengths of files `int64_t`. -/
structure FieldsFit (wide : ∀ w, UInt8 → Nat → BitVec w) (size : Nat) (readers : List StoredReader) : Prop where
  length_fieldInfos : (fieldInfosOf readers).length < 0x80000000
  length_fdt : ∀ raw w docCount, mergeFields wide size raw (readers.map StoredReader.toMergeReader) = .ok (w, docCount) →
    w.fdt.length < 0x8000000000000000

/-- The writer when all runs have been written. -/
def written (readers : List StoredReader) (runs : List (Run UInt8)) : FieldsWriter where
  fdx := writeInt FORMAT_CURRENT ++ (entries FORMAT_SIZE runs).flatMap writeLong
  fdt := writeInt FORMAT_CURRENT ++ data runs
  fieldInfos := fieldInfosOf readers

theorem foldl_extend_new (runs : List (Run UInt8)) :
    runs.foldl extend (.new (fieldInfosOf readers)) = written readers runs := foldl_extend runs _

theorem mergeFields_eq (wide : ∀ w, UInt8 → Nat → BitVec w) (size : Nat) (raw : Bool) (readers : List StoredReader) :
    ∃ jobs, JobsCover (fun r : StoredReader => r.reader) (isRaw raw readers) readers jobs ∧
      mergeFields wide size raw (readers.map StoredReader.toMergeReader) =
        match jobs.foldlM (copyJob (fun r : StoredReader =>
            if isRaw raw readers r then some (copyRawFields r.fieldsReader) else none)
          (fun r => copyFields wide size r.fieldsReader)) (FieldsWriter.new (fieldInfosOf readers)) with
        | .error e => .error e
        | .ok w => if FORMAT_SIZE + (docsOf readers).length * 8 ≠ w.fdx.length then .error .undefined
            else .ok (w, (docsOf readers).length) := by
  obtain ⟨jobs, hjobs, heq⟩ := @mergeDocuments_eq FieldsWriter InputError StoredReader (fun r => r.reader)
    (fun r : StoredReader => if isRaw raw readers r then some (copyRawFields r.fieldsReader) else none)
    (fun r => copyFields wide size r.fieldsReader) readers
  have hisRaw : (fun r : StoredReader => (if isRaw raw readers r = true then some (copyRawFields r.fieldsReader)
      else none).isSome) = isRaw raw readers := by
    funext r
    cases isRaw raw readers r <;> rfl
  rw [hisRaw] at hjobs
  refine ⟨jobs, hjobs, ?_⟩
  have hunfold : mergeFields wide size raw (readers.map StoredReader.toMergeReader) =
      match mergeDocuments (fun r : StoredReader => copyDocuments r.reader
          (if isRaw raw readers r then some (copyRawFields r.fieldsReader) else none)
          (copyFields wide size r.fieldsReader)) readers (.new (fieldInfosOf readers)) 0 with
      | .error e => .error e
      | .ok (w, docCount) =>
          if FORMAT_SIZE + docCount * 8 ≠ w.fdx.length then .error .undefined else .ok (w, docCount) := by
    rw [mergeFields, mergeDocuments_map]
    rfl
  rw [hunfold, heq, Nat.zero_add]
  cases jobs.foldlM (copyJob (fun r : StoredReader =>
      if isRaw raw readers r then some (copyRawFields r.fieldsReader) else none)
    (fun r => copyFields wide size r.fieldsReader)) (FieldsWriter.new (fieldInfosOf readers)) <;> rfl

theorem forall₂_of_adds {job : Job StoredReader} {run : Run UInt8} (hreader : job.reader ∈ readers)
    (hfields : (fieldInfosOf readers).length < 0x80000000) (hle : job.start + job.count ≤ job.reader.reader.maxDoc)
    (hsingle : isRaw raw readers job.reader = false → job.count = 1) (h : Adds size raw readers job run) :
    List.Forall₂ (fun doc piece => Decodes (FieldsReader.readDocument wide (fieldInfosOf readers)) piece
      (doc.1.document doc.2)) job.docs run.pieces := by
  rw [Adds] at h
  rw [Job.docs]
  split_ifs at h with hraw
  · rw [h.1, List.forall₂_map_left_iff, List.forall₂_map_right_iff, List.forall₂_same]
    intro n hn
    have hmatching : isMatching (fieldInfosOf readers) job.reader.toMergeReader = true := by
      rw [isRaw, Bool.and_eq_true] at hraw
      exact hraw.2
    rw [List.mem_range'_1] at hn
    exact StoredReader.decodes_piece (by omega) (congruent_of_isMatching hreader hmatching)
  · obtain ⟨bytes, hbytes, hpieces, -⟩ := h
    rw [hsingle (Bool.eq_false_iff.mpr hraw)] at hle ⊢
    rw [hpieces]
    refine List.Forall₂.cons ?_ List.Forall₂.nil
    have hread := @decodes_readDocument wide size _ _ _ _ (StoredFields.Congruent.refl _) hfields
      (wellFormed_merged hreader (n := job.start) (by omega)) hbytes
    rwa [StoredReader.readBack_document] at hread

theorem forall₂_pieces {jobs : List (Job StoredReader)} {runs : List (Run UInt8)}
    (hfields : (fieldInfosOf readers).length < 0x80000000)
    (hjobs : JobsCover (fun r : StoredReader => r.reader) (isRaw raw readers) readers jobs)
    (h : List.Forall₂ (Adds size raw readers) jobs runs) :
    List.Forall₂ (fun doc piece => Decodes (FieldsReader.readDocument wide (fieldInfosOf readers)) piece
      (doc.1.document doc.2)) (docsOf readers) (pieces runs) := by
  rw [docsOf, ← hjobs.flatMap_eq]
  apply forall₂_flatMap
  have hall : ∀ job run, job ∈ jobs → Adds size raw readers job run →
      List.Forall₂ (fun doc piece => Decodes (FieldsReader.readDocument wide (fieldInfosOf readers)) piece
        (doc.1.document doc.2)) job.docs run.pieces := by
    intro job run hmem hadds
    obtain ⟨hreader, hle⟩ := job_le hjobs hmem
    exact forall₂_of_adds hreader hfields hle (hjobs.single job hmem) hadds
  clear hjobs
  induction h with
  | nil => exact List.Forall₂.nil
  | cons hadds _ ih =>
      exact List.Forall₂.cons (hall _ _ List.mem_cons_self hadds)
        (ih fun job run hmem => hall job run (List.mem_cons_of_mem _ hmem))

theorem written_of_mergeFields {w : FieldsWriter} {docCount : Nat}
    (h : mergeFields wide size raw (readers.map StoredReader.toMergeReader) = .ok (w, docCount)) :
    ∃ jobs runs, JobsCover (fun r : StoredReader => r.reader) (isRaw raw readers) readers jobs ∧
      List.Forall₂ (Adds size raw readers) jobs runs ∧ w = written readers runs ∧ docCount = (docsOf readers).length ∧
        ∀ job ∈ jobs, job.reader.fieldsReader.Reaches job.start := by
  obtain ⟨jobs, hjobs, heq⟩ := mergeFields_eq wide size raw readers
  rw [heq] at h
  cases hfold : jobs.foldlM (copyJob (fun r : StoredReader =>
      if isRaw raw readers r then some (copyRawFields r.fieldsReader) else none)
      (fun r => copyFields wide size r.fieldsReader)) (FieldsWriter.new (fieldInfosOf readers)) with
  | error e =>
      rw [hfold] at h
      cases h
  | ok w' =>
      rw [hfold] at h
      dsimp only at h
      split_ifs at h
      obtain ⟨rfl, rfl⟩ := Prod.mk.inj (Except.ok.inj h)
      obtain ⟨runs, hruns, rfl⟩ := @foldlM_of_ok _ _ _ _ (fun w : FieldsWriter => w.fieldInfos = fieldInfosOf readers)
        extend _ (Adds size raw readers) jobs (fun _ _ hw => hw) (fun job hmem _ _ hw hcopy => by
          obtain ⟨hreader, hle⟩ := job_le hjobs hmem
          exact adds_of_copyJob hreader (hjobs.pos job hmem) hle hw hcopy) _ _ rfl hfold
      refine ⟨jobs, runs, hjobs, hruns, foldl_extend_new runs, rfl, fun job hmem => ?_⟩
      obtain ⟨w₁, w₂, hcopy⟩ := ok_of_foldlM hfold job hmem
      exact reaches_of_copyJob hcopy

theorem adds_of_mem {jobs : List (Job StoredReader)} {runs : List (Run UInt8)}
    (h : List.Forall₂ (Adds size raw readers) jobs runs) {run : Run UInt8} (hmem : run ∈ runs) :
    ∃ job ∈ jobs, Adds size raw readers job run := by
  induction h with
  | nil => cases hmem
  | cons hadds _ ih =>
      rcases List.mem_cons.mp hmem with rfl | hmem
      · exact ⟨_, List.mem_cons_self, hadds⟩
      · obtain ⟨job, hjob, hadds'⟩ := ih hmem
        exact ⟨job, List.mem_cons_of_mem _ hjob, hadds'⟩

theorem exists_adds {jobs : List (Job StoredReader)} {runs : List (Run UInt8)}
    (h : List.Forall₂ (Adds size raw readers) jobs runs) {job : Job StoredReader} (hmem : job ∈ jobs) :
    ∃ run ∈ runs, Adds size raw readers job run := by
  induction h with
  | nil => cases hmem
  | cons hadds _ ih =>
      rcases List.mem_cons.mp hmem with rfl | hmem
      · exact ⟨_, List.mem_cons_self, hadds⟩
      · obtain ⟨run, hrun, hadds'⟩ := ih hmem
        exact ⟨run, List.mem_cons_of_mem _ hrun, hadds'⟩

theorem abs_toInt_le (i : Int32) : |i.toInt| ≤ 0x80000000 := by
  have hle := i.le_toInt
  have hlt := i.toInt_lt
  rw [abs_le]
  omega

/-- Lengths that are not right are those of raw documents, of which a run has not too many. -/
theorem bounded_of_adds {job : Job StoredReader} {run : Run UInt8} (hmax : job.count ≤ MAX_RAW_MERGE_DOCS)
    (h : Adds size raw readers job run) :
    run.Exact ∨ (∀ length ∈ run.lengths, |length| ≤ 0x80000000) ∧ (run.lengths.length : Int) ≤ MAX_RAW_MERGE_DOCS := by
  rw [Adds] at h
  split_ifs at h with hraw
  · refine Or.inr ⟨fun length hmem => ?_, ?_⟩
    · rw [h.2] at hmem
      obtain ⟨piece, -, rfl⟩ := List.mem_map.mp hmem
      exact abs_toInt_le _
    · rw [run.length_lengths, h.1, List.length_map, List.length_range']
      exact_mod_cast hmax
  · obtain ⟨bytes, -, -, hexact⟩ := h
    exact Or.inl hexact

theorem exact_of_adds {job : Job StoredReader} {run : Run UInt8} (h : Adds size raw readers job run)
    (hsmall : isRaw raw readers job.reader = true →
      ∀ n ∈ List.range' job.start job.count, (job.reader.piece n).length < 0x80000000) : run.Exact := by
  rw [Adds] at h
  split_ifs at h with hraw
  · rw [Run.Exact, h.2, h.1]
    apply rawLengths_eq
    intro piece hmem
    obtain ⟨n, hn, rfl⟩ := List.mem_map.mp hmem
    exact hsmall hraw n hn
  · obtain ⟨bytes, -, -, hexact⟩ := h
    exact hexact

theorem small_of_exact {job : Job StoredReader} {run : Run UInt8} (h : Adds size raw readers job run) (hexact : run.Exact)
    (hraw : isRaw raw readers job.reader = true) :
    ∀ n ∈ List.range' job.start job.count, (job.reader.piece n).length < 0x80000000 := by
  intro n hn
  rw [Adds, if_pos hraw] at h
  rw [Run.Exact, h.2, lengthsOf] at hexact
  have hmem : job.reader.piece n ∈ run.pieces := h.1 ▸ List.mem_map_of_mem hn
  have heq := List.map_inj_left.mp hexact _ hmem
  have hlt := (rawLength (job.reader.piece n)).toInt_lt
  omega

theorem entries_eq_of_map_toInt64 {start : Nat} {runs : List (Run UInt8)} {pieces' : List (List UInt8)} (hstart : start ≤ 0xFF)
    (hruns : ∀ run ∈ runs, run.Exact ∨ (∀ length ∈ run.lengths, |length| ≤ 0x80000000) ∧
      (run.lengths.length : Int) ≤ MAX_RAW_MERGE_DOCS)
    (hdata : data runs = pieces'.flatten) (hlength : (data runs).length + start < 0x8000000000000000)
    (h : (entries start runs).map toInt64 = (positions start (lengthsOf pieces')).map toInt64) :
    entries start runs = positions start (lengthsOf pieces') := by
  apply eq_of_map_toInt64 h
  · intro place hmem
    have hplace := @mem_entries _ 0x80000000 MAX_RAW_MERGE_DOCS start place runs (by decide) (by decide) hruns hmem
    rw [MAX_RAW_MERGE_DOCS] at hplace
    omega
  · intro place hmem
    have hplace := le_of_mem_positions hmem
    rw [hdata] at hlength
    omega

/-- The lengths that the data is copied by are right, when the files have the documents. -/
theorem exact_of_files {jobs : List (Job StoredReader)} {runs : List (Run UInt8)} {pieces' : List (List UInt8)}
    (hfields : (fieldInfosOf readers).length < 0x80000000)
    (hfdt : (written readers runs).fdt.length < 0x8000000000000000)
    (hjobs : JobsCover (fun r : StoredReader => r.reader) (isRaw raw readers) readers jobs)
    (h : List.Forall₂ (Adds size raw readers) jobs runs)
    (hfiles : Files pieces' (written readers runs).fdx (written readers runs).fdt)
    (hread : List.Forall₂ (fun doc piece => Decodes (FieldsReader.readDocument wide (fieldInfosOf readers)) piece
      (doc.1.document doc.2)) (docsOf readers) pieces') : ∀ run ∈ runs, run.Exact := by
  have hdata : data runs = pieces'.flatten := List.append_cancel_left hfiles.fdt_eq
  have hlength : (data runs).length + FORMAT_SIZE < 0x8000000000000000 := by
    rw [written, List.length_append] at hfdt
    have hheader : (writeInt FORMAT_CURRENT).length = FORMAT_SIZE := rfl
    omega
  have hbounded : ∀ run ∈ runs, run.Exact ∨ (∀ length ∈ run.lengths, |length| ≤ 0x80000000) ∧
      (run.lengths.length : Int) ≤ MAX_RAW_MERGE_DOCS := by
    intro run hrun
    obtain ⟨job, hjob, hadds⟩ := adds_of_mem h hrun
    exact bounded_of_adds (hjobs.le_max job hjob) hadds
  have hindex : entries FORMAT_SIZE runs = positions FORMAT_SIZE (lengthsOf pieces') :=
    entries_eq_of_map_toInt64 (by decide) hbounded hdata hlength
      (toInt64_of_flatMap_writeLong (List.append_cancel_left hfiles.fdx_eq))
  have hseparate : List.Forall₂ Separate (pieces runs) pieces' :=
    forall₂_separate (fun _ _ _ => separate_of_decodes) (forall₂_pieces hfields hjobs h) hread
  exact (exact_of_entries hseparate hdata hindex).2

/-- A document has a place in the index that is reached, and data that is short when it is copied raw. -/
def FieldsCopied (readers : List StoredReader) (r : StoredReader) (n : Nat) : Prop :=
  r.fieldsReader.Reaches n ∧
    (isMatching (fieldInfosOf readers) r.toMergeReader = true → (r.piece n).length < 0x80000000)

theorem isMatching_of_isRaw {r : StoredReader} (h : isRaw raw readers r = true) :
    isMatching (fieldInfosOf readers) r.toMergeReader = true := by
  rw [isRaw, Bool.and_eq_true] at h
  exact h.2

theorem mergesFields_of_copied (hfields : (fieldInfosOf readers).length < 0x80000000)
    (h : ∀ r ∈ readers, ∀ n ∈ liveDocs r.reader, FieldsCopied readers r n) (raw : Bool) :
    MergesFields wide size raw readers := by
  obtain ⟨jobs, hjobs, heq⟩ := mergeFields_eq wide size raw readers
  have hcopied : ∀ job ∈ jobs, ∀ n ∈ List.range' job.start job.count, FieldsCopied readers job.reader n := by
    intro job hmem n hn
    rw [List.mem_range'_1] at hn
    obtain ⟨hreader, hlive⟩ := (mem_mergedDocs _).mp (hjobs.mem_mergedDocs hmem hn.1 hn.2)
    exact h _ hreader n hlive
  have hstart : ∀ job ∈ jobs, job.start ∈ List.range' job.start job.count := fun job hmem =>
    List.mem_range'_1.mpr ⟨le_rfl, Nat.lt_add_of_pos_right (hjobs.pos job hmem)⟩
  have hsmall : ∀ job ∈ jobs, isRaw raw readers job.reader = true →
      ∀ n ∈ List.range' job.start job.count, (job.reader.piece n).length < 0x80000000 :=
    fun job hmem hraw n hn => (hcopied job hmem n hn).2 (isMatching_of_isRaw hraw)
  obtain ⟨w, hfold⟩ := @foldlM_ok _ InputError _ _ (fun w : FieldsWriter => w.fieldInfos = fieldInfosOf readers) extend
    (copyJob (fun r : StoredReader => if isRaw raw readers r then some (copyRawFields r.fieldsReader) else none)
      (fun r => copyFields wide size r.fieldsReader)) jobs (fun _ _ hw => hw) (fun job hmem w hw => by
        obtain ⟨hreader, hle⟩ := job_le hjobs hmem
        exact copyJob_ok hreader (hjobs.pos job hmem) hle hw (hcopied job hmem _ (hstart job hmem)).1 (hsmall job hmem))
    (FieldsWriter.new (fieldInfosOf readers)) rfl
  obtain ⟨runs, hruns, rfl⟩ := @foldlM_of_ok _ _ _ _ (fun w : FieldsWriter => w.fieldInfos = fieldInfosOf readers)
    extend _ (Adds size raw readers) jobs (fun _ _ hw => hw) (fun job hmem _ _ hw hcopy => by
      obtain ⟨hreader, hle⟩ := job_le hjobs hmem
      exact adds_of_copyJob hreader (hjobs.pos job hmem) hle hw hcopy) _ _ rfl hfold
  have hexact : ∀ run ∈ runs, run.Exact := by
    intro run hmem
    obtain ⟨job, hjob, hadds⟩ := adds_of_mem hruns hmem
    exact exact_of_adds hadds (hsmall job hjob)
  have hread := @forall₂_pieces wide size raw readers jobs runs hfields hjobs hruns
  have hlength : (written readers runs).fdx.length = FORMAT_SIZE + (docsOf readers).length * 8 := by
    rw [written, List.length_append, length_flatMap_writeLong, length_entries, hread.length_eq]
    rfl
  rw [hfold, foldl_extend_new] at heq
  dsimp only at heq
  rw [hlength, if_neg (fun hne => hne rfl)] at heq
  refine ⟨_, _, heq, rfl, pieces runs, ⟨?_, ?_⟩, hread⟩
  · rw [written, entries_of_exact _ hexact]
  · rw [written, data_of_exact hexact]

theorem reaches_of_mergesFields {r : StoredReader} {n : Nat} (hreader : r ∈ readers) (hlive : n ∈ liveDocs r.reader)
    (h : MergesFields wide size false readers) : r.fieldsReader.Reaches n := by
  obtain ⟨w, docCount, hmerge, -⟩ := h
  obtain ⟨jobs, runs, hjobs, -, -, -, hreaches⟩ := written_of_mergeFields hmerge
  have hmem := (mem_mergedDocs (fun r : StoredReader => r.reader)).mpr ⟨hreader, hlive⟩
  rw [← hjobs.flatMap_eq, List.mem_flatMap] at hmem
  obtain ⟨job, hjob, hdoc⟩ := hmem
  rw [Job.docs, hjobs.single job hjob (Bool.false_and _)] at hdoc
  obtain ⟨rfl, rfl⟩ := Prod.mk.inj (List.mem_singleton.mp hdoc)
  exact hreaches job hjob

theorem small_of_mergesFields {r : StoredReader} {n : Nat} (hfit : FieldsFit wide size readers) (hreader : r ∈ readers)
    (hlive : n ∈ liveDocs r.reader) (hmatching : isMatching (fieldInfosOf readers) r.toMergeReader = true)
    (h : MergesFields wide size true readers) : (r.piece n).length < 0x80000000 := by
  obtain ⟨w, docCount, hmerge, -, pieces', hfiles, hread⟩ := h
  have hlength := hfit.length_fdt true w docCount hmerge
  obtain ⟨jobs, runs, hjobs, hruns, rfl, -, -⟩ := written_of_mergeFields hmerge
  have hexact := exact_of_files hfit.length_fieldInfos hlength hjobs hruns hfiles hread
  have hmem := (mem_mergedDocs (fun r : StoredReader => r.reader)).mpr ⟨hreader, hlive⟩
  rw [← hjobs.flatMap_eq, List.mem_flatMap] at hmem
  obtain ⟨job, hjob, hdoc⟩ := hmem
  obtain ⟨n', hn', heq⟩ := List.mem_map.mp hdoc
  obtain ⟨rfl, rfl⟩ := Prod.mk.inj heq
  obtain ⟨run, hrun, hadds⟩ := exists_adds hruns hjob
  exact small_of_exact hadds (hexact run hrun) hmatching n' hn'

theorem mergesFields_iff (hfit : FieldsFit wide size readers) :
    (∀ raw, MergesFields wide size raw readers) ↔
      ∀ r ∈ readers, ∀ n ∈ liveDocs r.reader, FieldsCopied readers r n := by
  constructor
  · intro h r hreader n hlive
    exact ⟨reaches_of_mergesFields hreader hlive (h false),
      fun hmatching => small_of_mergesFields hfit hreader hlive hmatching (h true)⟩
  · exact fun h raw => mergesFields_of_copied hfit.length_fieldInfos h raw

end Merging

end LucenePlusPlus.SegmentMerger
