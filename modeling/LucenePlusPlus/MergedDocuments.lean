import LucenePlusPlus.MergedVectors

/-!
The documents of the merged segment are those that are left of the segments, whether they are copied raw or read and
written again. Of term vectors this is so when there are none.
-/

namespace LucenePlusPlus.SegmentMerger
open CopiedRuns Decoders IndexOutput IndexInput TermVectors

variable {wide : ∀ w, UInt8 → Nat → BitVec w} {size : Nat} {raw : Bool} {readers : List (StoredSegment wide)}
  {jobs : List (Job (StoredSegment wide))} {runs : List VectorRun}

theorem exact_of_vectorFiles {data' : List (List UInt8 × List UInt8)} (hnames : (namesOf readers).length < 0x80000000)
    (hlength : (writtenVectors readers runs).tvd.length < 0x8000000000000000 ∧
      (writtenVectors readers runs).tvf.length < 0x8000000000000000)
    (hjobs : JobsCover (fun r : StoredSegment wide => r.reader) (isRawVectors raw readers) readers jobs)
    (h : List.Forall₂ (AddsVectors raw readers) jobs runs)
    (hfiles : VectorFiles data' (writtenVectors readers runs).tvx (writtenVectors readers runs).tvd
      (writtenVectors readers runs).tvf)
    (hread : List.Forall₂ (fun (doc : StoredSegment wide × Nat) d =>
      Stores wide (namesOf readers) d (doc.1.docVectors doc.2)) (segmentDocs readers) data') :
    dataOf runs = data' ∧ ∀ run ∈ runs, run.tvd.Exact ∧ run.tvf.Exact := by
  have htvd : data (runs.map VectorRun.tvd) = (data'.map Prod.fst).flatten := List.append_cancel_left hfiles.tvd_eq
  have htvf : data (runs.map VectorRun.tvf) = (data'.map Prod.snd).flatten := List.append_cancel_left hfiles.tvf_eq
  have hheader : (writeInt FORMAT_SIZE).length = FORMAT_SIZE := rfl
  have hshort : (data (runs.map VectorRun.tvd)).length + FORMAT_SIZE < 0x8000000000000000 ∧
      (data (runs.map VectorRun.tvf)).length + FORMAT_SIZE < 0x8000000000000000 := by
    rw [writtenVectors, List.length_append, List.length_append] at hlength
    omega
  have hwrote := forall₂_dataOf hnames hjobs h (by omega)
  obtain ⟨hfst, hsnd⟩ := map_dataOf runs
  -- the places in both files
  have hcount : (pieces (runs.map VectorRun.tvd)).length = (pieces (runs.map VectorRun.tvf)).length := by
    rw [← hfst, ← hsnd, List.length_map, List.length_map]
  have hplaces := StoredFields.toInt64_of_flatMap_writeLong (List.append_cancel_left hfiles.tvx_eq)
  rw [map_interleave, map_interleave] at hplaces
  obtain ⟨hplaces₁, hplaces₂⟩ := interleave_inj
    (by rw [List.length_map, List.length_map, length_entries, length_entries, hcount])
    (by simp only [List.length_map, length_positions, length_lengthsOf]) hplaces
  have hindex₁ := entries_eq_of_map_toInt64 (by decide) (fun run hrun => by
    obtain ⟨run', hrun', rfl⟩ := List.mem_map.mp hrun
    obtain ⟨job, hjob, hadds⟩ := addsVectors_of_mem h hrun'
    exact (bounded_of_addsVectors (hjobs.le_max job hjob) hadds).1) htvd hshort.1 hplaces₁
  have hindex₂ := entries_eq_of_map_toInt64 (by decide) (fun run hrun => by
    obtain ⟨run', hrun', rfl⟩ := List.mem_map.mp hrun
    obtain ⟨job, hjob, hadds⟩ := addsVectors_of_mem h hrun'
    exact (bounded_of_addsVectors (hjobs.le_max job hjob) hadds).2) htvf hshort.2 hplaces₂
  -- the numbers of the fields are those of the documents, and then the vectors are
  have hpairs : List.Forall₂ (fun d d' => ∃ vectors vectors', Stores wide (namesOf readers) d vectors ∧
      Stores wide (namesOf readers) d' vectors') (dataOf runs) data' :=
    (forall₂_common hwrote hread).imp fun d d' ⟨_, hd, hd'⟩ => by
      obtain ⟨vectors, hvectors⟩ := hd.stores
      exact ⟨vectors, _, hvectors, hd'⟩
  have hseparate₁ : List.Forall₂ Separate (pieces (runs.map VectorRun.tvd)) (data'.map Prod.fst) := by
    rw [← hfst, List.forall₂_map_left_iff, List.forall₂_map_right_iff]
    exact hpairs.imp fun _ _ ⟨_, _, hd, hd'⟩ => hd.separate_tvd hd'
  obtain ⟨heq₁, hexact₁⟩ := exact_of_entries hseparate₁ htvd hindex₁
  have hseparate₂ : List.Forall₂ Separate (pieces (runs.map VectorRun.tvf)) (data'.map Prod.snd) := by
    rw [← hfst] at heq₁
    rw [← hsnd, List.forall₂_map_left_iff, List.forall₂_map_right_iff]
    apply List.forall₂_iff_get.mpr
    refine ⟨hpairs.length_eq, fun i hi hi' => ?_⟩
    obtain ⟨vectors, vectors', hd, hd'⟩ := (List.forall₂_iff_get.mp hpairs).2 i hi hi'
    apply hd.separate_tvf hd'
    have hsame := congrArg (fun l => l[i]?) heq₁
    simp only [List.getElem?_map, List.getElem?_eq_getElem hi, List.getElem?_eq_getElem hi', Option.map_some,
      Option.some.injEq] at hsame
    exact hsame
  obtain ⟨heq₂, hexact₂⟩ := exact_of_entries hseparate₂ htvf hindex₂
  refine ⟨?_, fun run hrun => ⟨hexact₁ _ (List.mem_map_of_mem hrun), hexact₂ _ (List.mem_map_of_mem hrun)⟩⟩
  rw [← hfst] at heq₁
  rw [← hsnd] at heq₂
  calc dataOf runs
      = ((dataOf runs).map Prod.fst).zip ((dataOf runs).map Prod.snd) := List.zip_of_prod rfl rfl
    _ = (data'.map Prod.fst).zip (data'.map Prod.snd) := by rw [heq₁, heq₂]
    _ = data' := (List.zip_of_prod rfl rfl).symm

/-- The document has a place in the index of the vectors that is reached, and no vectors; its data is short when it is
copied raw. -/
def VectorsCopied (readers : List (StoredSegment wide)) (r : StoredSegment wide) (n : Nat) : Prop :=
  ∀ reader, r.termVectorsReader = some reader → reader.Reaches n ∧ r.docVectors n = [] ∧
    (isMatching (fieldInfosOf (segmentsOf readers)) r.toMergeReader = true →
      (r.docData n).1.length < 0x80000000 ∧ (r.docData n).2.length < 0x80000000)

theorem docVectors_of_none {r : StoredSegment wide} (h : r.termVectorsReader = none) (n : Nat) :
    r.docVectors n = [] := by
  rw [StoredSegment.docVectors, h]

theorem isRawVectors_iff {r : StoredSegment wide} : isRawVectors raw readers r = true ↔
    raw = true ∧ isMatching (fieldInfosOf (segmentsOf readers)) r.toMergeReader = true ∧
      ∃ reader, r.termVectorsReader = some reader := by
  rw [isRawVectors, isRaw, Bool.and_eq_true, Bool.and_eq_true, Option.isSome_iff_exists, and_assoc]

theorem VectorsCopied.nil {r : StoredSegment wide} {n : Nat} (h : VectorsCopied readers r n) : r.docVectors n = [] := by
  cases hreader : r.termVectorsReader with
  | none => exact docVectors_of_none hreader n
  | some reader => exact (h reader hreader).2.1

theorem VectorsCopied.small {r : StoredSegment wide} {n : Nat} (h : VectorsCopied readers r n)
    (hraw : isRawVectors raw readers r = true) :
    (r.docData n).1.length < 0x80000000 ∧ (r.docData n).2.length < 0x80000000 := by
  obtain ⟨-, hmatching, reader, hreader⟩ := isRawVectors_iff.mp hraw
  exact (h reader hreader).2.2 hmatching

theorem WroteDoc.stores_of_nil {doc : StoredSegment wide × Nat} {d : List UInt8 × List UInt8}
    (h : WroteDoc raw readers doc d) (hnil : doc.1.docVectors doc.2 = []) :
    Stores wide (namesOf readers) d (doc.1.docVectors doc.2) := by
  rcases h with ⟨vectors, hstores, hiff⟩ | ⟨-, hstores⟩
  · rwa [hiff.mpr hnil] at hstores
  · exact hstores

theorem copied_of_job {job : Job (StoredSegment wide)} {isRaw : StoredSegment wide → Bool} {P : StoredSegment wide → Nat → Prop}
    (hjobs : JobsCover (fun r : StoredSegment wide => r.reader) isRaw readers jobs) (hmem : job ∈ jobs)
    (h : ∀ r ∈ readers, ∀ n ∈ liveDocs r.reader, P r n) : ∀ n ∈ List.range' job.start job.count, P job.reader n := by
  intro n hn
  rw [List.mem_range'_1] at hn
  obtain ⟨hreader, hlive⟩ := (mem_mergedDocs _).mp (hjobs.mem_mergedDocs hmem hn.1 hn.2)
  exact h _ hreader n hlive

theorem length_dataOf (hjobs : JobsCover (fun r : StoredSegment wide => r.reader) (isRawVectors raw readers) readers jobs)
    (h : List.Forall₂ (AddsVectors raw readers) jobs runs) : (dataOf runs).length = (segmentDocs readers).length := by
  have hrun : ∀ job run, (job ∈ jobs ∧ AddsVectors raw readers job run) →
      List.Forall₂ (fun _ _ => True) job.docs (run.tvd.pieces.zip run.tvf.pieces) := by
    rintro job run ⟨hmem, hadds⟩
    apply List.forall₂_iff_get.mpr
    refine ⟨Eq.symm ?_, fun _ _ _ => trivial⟩
    rw [List.length_zip, ← run.length_eq, Nat.min_self, Job.docs, List.length_map, List.length_range']
    rw [AddsVectors] at hadds
    split_ifs at hadds with hraw
    · rw [hadds.1.1, jobData, List.length_map, List.length_map, List.length_range']
    · obtain ⟨d, rfl, -⟩ := hadds
      exact (hjobs.single job hmem (Bool.eq_false_iff.mpr hraw)).symm
  rw [segmentDocs, ← hjobs.flatMap_eq, dataOf]
  have hpairs := (List.forall₂_and_left _ _).mpr ⟨fun _ hmem => hmem, h⟩
  exact (List.rel_flatMap hpairs hrun).length_eq.symm

theorem mergesVectors_of_copied (hnames : (namesOf readers).length < 0x80000000)
    (hlengths : ∀ w, mergeVectors wide size raw (docsOf (segmentsOf readers)).length
        ((segmentsOf readers).map StoredReader.toMergeReader) = .ok w → w.tvf.length < 0x8000000000000000)
    (h : ∀ r ∈ readers, ∀ n ∈ liveDocs r.reader, VectorsCopied readers r n) : MergesVectors size raw readers := by
  obtain ⟨jobs, hjobs, heq⟩ := mergeVectors_eq size raw readers
  have hcopied : ∀ job ∈ jobs, ∀ n ∈ List.range' job.start job.count, VectorsCopied readers job.reader n :=
    fun _ hmem => copied_of_job hjobs hmem h
  have hstart : ∀ job ∈ jobs, job.start ∈ List.range' job.start job.count := fun job hmem =>
    List.mem_range'_1.mpr ⟨le_rfl, Nat.lt_add_of_pos_right (hjobs.pos job hmem)⟩
  have hsmall : ∀ job ∈ jobs, isRawVectors raw readers job.reader = true → ∀ d ∈ jobData job,
      d.1.length < 0x80000000 ∧ d.2.length < 0x80000000 := by
    intro job hmem hraw d hd
    obtain ⟨n, hn, rfl⟩ := List.mem_map.mp hd
    exact (hcopied job hmem n hn).small hraw
  obtain ⟨w, hfold⟩ := @foldlM_ok _ MergeError _ _ (fun w : TermVectors.Writer => w.fieldInfos = namesOf readers)
    extendVectors (copyJob (rawVectors raw readers) (fun r => copyVectors wide size r.toMergeReader)) jobs
    (fun _ _ hw => hw) (fun job hmem w hw => by
      obtain ⟨hreader, hle⟩ := vectorJob_le hjobs hmem
      have hfirst := hcopied job hmem _ (hstart job hmem)
      exact copyVectorJob_ok hreader hnames (hjobs.pos job hmem) hle hw (fun reader hr => (hfirst reader hr).1)
        (fun _ => hfirst.nil) (hsmall job hmem)) (newVectorsWriter (fieldInfosOf (segmentsOf readers))) rfl
  obtain ⟨runs, hruns, rfl⟩ := @foldlM_of_ok _ _ _ _ (fun w : TermVectors.Writer => w.fieldInfos = namesOf readers)
    extendVectors _ (AddsVectors raw readers) jobs (fun _ _ hw => hw) (fun job hmem _ _ hw hcopy => by
      obtain ⟨hreader, hle⟩ := vectorJob_le hjobs hmem
      exact adds_of_copyVectorJob hreader hnames (hjobs.pos job hmem) hle hw hcopy) _ _ rfl hfold
  have hexact : ∀ run ∈ runs, run.tvd.Exact ∧ run.tvf.Exact := by
    intro run hmem
    obtain ⟨job, hjob, hadds⟩ := addsVectors_of_mem hruns hmem
    exact exact_of_addsVectors hadds (hsmall job hjob)
  have htvd : ∀ run ∈ runs.map VectorRun.tvd, run.Exact := fun run hrun => by
    obtain ⟨run', hrun', rfl⟩ := List.mem_map.mp hrun
    exact (hexact run' hrun').1
  have htvf : ∀ run ∈ runs.map VectorRun.tvf, run.Exact := fun run hrun => by
    obtain ⟨run', hrun', rfl⟩ := List.mem_map.mp hrun
    exact (hexact run' hrun').2
  obtain ⟨hfst, hsnd⟩ := map_dataOf runs
  have hcount : (entries FORMAT_SIZE (runs.map VectorRun.tvd)).length =
      (entries FORMAT_SIZE (runs.map VectorRun.tvf)).length := by
    rw [length_entries, length_entries, ← hfst, ← hsnd, List.length_map, List.length_map]
  have hlength : (writtenVectors readers runs).tvx.length = FORMAT_SIZE + (segmentDocs readers).length * 16 := by
    rw [writtenVectors, List.length_append, StoredFields.length_flatMap_writeLong, length_interleave hcount, length_entries,
      ← hfst, List.length_map, length_dataOf hjobs hruns, Nat.mul_assoc]
    rfl
  rw [hfold, foldl_extendVectors_new] at heq
  dsimp only at heq
  rw [hlength, if_neg (fun hne => hne rfl)] at heq
  refine ⟨_, heq, dataOf runs, ⟨?_, ?_, ?_⟩, ?_⟩
  · rw [writtenVectors, entries_of_exact _ htvd, entries_of_exact _ htvf, hfst, hsnd]
  · rw [writtenVectors, data_of_exact htvd, hfst]
  · rw [writtenVectors, data_of_exact htvf, hsnd]
  · have hshort := hlengths _ heq
    rw [writtenVectors, List.length_append] at hshort
    have hwrote := forall₂_dataOf hnames hjobs hruns (by omega)
    have hnil : ∀ doc ∈ segmentDocs readers, doc.1.docVectors doc.2 = [] := fun doc hdoc => by
      obtain ⟨hreader, hlive⟩ := (mem_mergedDocs _).mp hdoc
      exact (h _ hreader _ hlive).nil
    exact ((List.forall₂_and_left _ _).mpr ⟨hnil, hwrote⟩).imp fun doc d ⟨hn, hd⟩ => hd.stores_of_nil hn

theorem nil_of_mergesVectors {r : StoredSegment wide} {n : Nat} (hnames : (namesOf readers).length < 0x80000000)
    (hlengths : ∀ w, mergeVectors wide size false (docsOf (segmentsOf readers)).length
        ((segmentsOf readers).map StoredReader.toMergeReader) = .ok w →
      w.tvd.length < 0x8000000000000000 ∧ w.tvf.length < 0x8000000000000000)
    (hreader : r ∈ readers) (hlive : n ∈ liveDocs r.reader) (h : MergesVectors size false readers) :
    r.docVectors n = [] ∧ ∀ reader, r.termVectorsReader = some reader → reader.Reaches n := by
  have hmem := (mem_mergedDocs (fun r : StoredSegment wide => r.reader)).mpr ⟨hreader, hlive⟩
  obtain ⟨w, hmerge, data', hfiles, hread⟩ := h
  have hlength := hlengths w hmerge
  obtain ⟨jobs, runs, hjobs, hruns, rfl, hreaches⟩ := written_of_mergeVectors hnames hmerge
  constructor
  · obtain ⟨rfl, -⟩ := exact_of_vectorFiles hnames hlength hjobs hruns hfiles hread
    have hshort := hlength.2
    rw [writtenVectors, List.length_append] at hshort
    have hwrote := forall₂_dataOf hnames hjobs hruns (by omega)
    obtain ⟨i, hi, hget⟩ := List.getElem_of_mem hmem
    have hi' : i < (dataOf runs).length := hwrote.length_eq ▸ hi
    have hdoc := (List.forall₂_iff_get.mp hwrote).2 i hi hi'
    have hstores := (List.forall₂_iff_get.mp hread).2 i hi hi'
    simp only [List.get_eq_getElem, hget] at hdoc hstores
    rcases hdoc with ⟨vectors, hvectors, hiff⟩ | ⟨hraw, -⟩
    · exact hiff.mp (hvectors.eq hstores)
    · exact absurd (isRawVectors_iff.mp hraw).1 Bool.false_ne_true
  · rw [← hjobs.flatMap_eq, List.mem_flatMap] at hmem
    obtain ⟨job, hjob, hdoc⟩ := hmem
    rw [Job.docs, hjobs.single job hjob rfl] at hdoc
    obtain ⟨rfl, rfl⟩ := Prod.mk.inj (List.mem_singleton.mp hdoc)
    exact hreaches job hjob

theorem small_of_mergesVectors {r : StoredSegment wide} {n : Nat} (hfit : VectorsFit size readers) (hreader : r ∈ readers)
    (hlive : n ∈ liveDocs r.reader) (hraw : isRawVectors true readers r = true) (h : MergesVectors size true readers) :
    (r.docData n).1.length < 0x80000000 ∧ (r.docData n).2.length < 0x80000000 := by
  have hmem := (mem_mergedDocs (fun r : StoredSegment wide => r.reader)).mpr ⟨hreader, hlive⟩
  obtain ⟨w, hmerge, data', hfiles, hread⟩ := h
  have hlength := hfit.length_files true w hmerge
  obtain ⟨jobs, runs, hjobs, hruns, rfl, -⟩ := written_of_mergeVectors hfit.length_names hmerge
  have hexact := (exact_of_vectorFiles hfit.length_names hlength hjobs hruns hfiles hread).2
  rw [← hjobs.flatMap_eq, List.mem_flatMap] at hmem
  obtain ⟨job, hjob, hdoc⟩ := hmem
  obtain ⟨n', hn', heq⟩ := List.mem_map.mp hdoc
  obtain ⟨rfl, rfl⟩ := Prod.mk.inj heq
  obtain ⟨run, hrun, hadds⟩ := exists_addsVectors hruns hjob
  exact small_of_exactVectors hadds (hexact run hrun) hraw _ (List.mem_map_of_mem hn')

theorem mergesVectors_iff (hfit : VectorsFit size readers) :
    (∀ raw, MergesVectors size raw readers) ↔ ∀ r ∈ readers, ∀ n ∈ liveDocs r.reader, VectorsCopied readers r n := by
  constructor
  · intro h r hreader n hlive reader htv
    obtain ⟨hnil, hreaches⟩ := nil_of_mergesVectors hfit.length_names (hfit.length_files false) hreader hlive (h false)
    refine ⟨hreaches reader htv, hnil, fun hmatching => ?_⟩
    exact small_of_mergesVectors hfit hreader hlive (isRawVectors_iff.mpr ⟨rfl, hmatching, reader, htv⟩) (h true)
  · exact fun h raw => mergesVectors_of_copied hfit.length_names (fun w hw => (hfit.length_files raw w hw).2) h

/-! ### One document -/

theorem writeVInt_of_lt {n : Nat} (h : n < 128) : writeVInt n = [.ofNat n] := by
  rw [writeVInt, show ((n : Int) % 0x100000000).toNat = n by omega, VarInt.encode_of_lt h]

/-- A segment of one document, which has no stored fields, and of which the vectors are read by `vectorsReader`. -/
def oneDocument (vectorsReader : Option TermVectors.Reader) : StoredReader where
  reader := .fresh 1
  fieldsReader :=
    { fdx := writeInt 2 ++ writeLong 4
      fdt := writeInt 2 ++ [0]
      docStoreOffset := 0
      numTotalDocs := 1
      fieldInfos := [⟨[⟨102, WChar.f_mem⟩], false, false, false, fun _ => ⟨rfl, rfl⟩⟩] }
  termVectorsReader := vectorsReader
  docs := [[]]
  pieces := [[0]]
  arraySize := 0
  wellFormed := by
    intro doc hmem
    obtain rfl := List.mem_singleton.mp hmem
    exact ⟨fun _ hfield => absurd hfield List.not_mem_nil, Nat.lt_of_sub_eq_succ rfl⟩
  written := by
    refine List.Forall₂.cons ?_ List.Forall₂.nil
    exact congrArg some (congrArg (· ++ []) (writeVInt_of_lt (n := 0) (by decide)))
  holds := ⟨⟨rfl, rfl⟩, rfl, Nat.lt_of_sub_eq_succ rfl⟩
  names_nodup := List.nodup_singleton _
  length_fieldInfos := Nat.lt_of_sub_eq_succ rfl
  maxDoc_le := le_rfl

/-- The data of a vector that has one term, at the position 0. -/
def positionData : List UInt8 × List UInt8 := ([1, 0], [1, 1, 0, 1, 97, 1, 0])

theorem decodes_position : Decodes (Reader.readTermVector (fun _ _ _ => 0) [⟨102, by decide⟩]) positionData.2
    (some (oneTerm true (some [0]))) := by
  have hutf8 : StringUtils.toUTF8 0 [⟨97, by decide⟩] = [97] := by decide
  have hentries : Writer.writeEntries 0 true false [] (oneTerm true (some [0])).entries = .ok [0, 1, 97, 1, 0] := by
    have hzero : writeVInt (0 : Int) = [0] := writeVInt_of_lt (n := 0) (by decide)
    have hone : writeVInt (1 : Int) = [1] := writeVInt_of_lt (n := 1) (by decide)
    rw [oneTerm, Writer.writeEntries, Writer.writeOccurrences, hutf8]
    change Except.ok (writeVInt (0 : Int) ++ writeVInt (1 : Int) ++ [97] ++ writeVInt (1 : Int) ++
      (writeVInt (0 : Int) ++ [] ++ []) ++ []) = _
    rw [hzero, hone]
    rfl
  have hsize : Decodes (Reader.readSize fun _ _ _ => 0) [1] 1 := by
    have hdecodes := @decodes_readSize (fun _ _ _ => 0) 1 (by decide)
    rwa [writeVInt_of_lt (by decide)] at hdecodes
  have hterm : StringUtils.toUnicode 0 (StringUtils.toUTF8 0 [⟨97, by decide⟩]) = [⟨97, by decide⟩] := by
    rw [toUnicode_toUTF8_iff]
    decide
  have hentry : (oneTerm true (some [0])).entries.map (readEntry 0 true false) = (oneTerm true (some [0])).entries := by
    rw [oneTerm, List.map_singleton, readEntry, hterm]
    rfl
  have hbyte : Decodes readByte [1] 1 := fun _ => rfl
  have hread := @decodes_readEntries (fun _ _ _ => 0) 0 true false _ [] (List.replicate 20 0) _ rfl hentries
    (by decide) (by decide) (by decide)
  have hcount : (oneTerm true (some [0])).entries.length = 1 := rfl
  rw [hentry, hcount] at hread
  have hpositions : ((1 : UInt8).toNat &&& STORE_POSITIONS_WITH_TERMVECTOR != 0) = true := by decide
  have hoffsets : ((1 : UInt8).toNat &&& STORE_OFFSET_WITH_TERMVECTOR != 0) = false := by decide
  intro rest
  rw [Reader.readTermVector, show positionData.2 ++ rest = [1] ++ ([1] ++ ([0, 1, 97, 1, 0] ++ rest)) from rfl,
    bind_eq (hsize _), if_neg (by decide), bind_eq (hbyte _), hpositions, hoffsets, bind_eq (hread rest), if_neg (by decide)]
  rfl

theorem stores_position : Stores (fun _ _ _ => 0) [[⟨102, by decide⟩]] positionData [some (oneTerm true (some [0]))] := by
  refine ⟨[0], [positionData.2], ⟨rfl, by decide, by decide, by decide, by decide, ?_⟩, ?_⟩
  · exact List.Forall₂.cons decodes_position List.Forall₂.nil
  · have hnumbers : writeNumbers [0] [positionData.2] = writeVInt (1 : Nat) ++ writeVInt (0 : Nat) :=
      (List.append_nil _).trans (congrArg _ (List.append_nil _))
    rw [hnumbers, writeVInt_of_lt (by decide), writeVInt_of_lt (by decide)]
    rfl

/-- A segment of which the one document has a vector with a position. -/
def positionSegment : StoredSegment (fun _ _ _ => 0) where
  toStoredReader := oneDocument (some
    { tvx := writeInt 4 ++ writeLong 4 ++ writeLong 4
      tvd := writeInt 4 ++ positionData.1
      tvf := writeInt 4 ++ positionData.2
      docStoreOffset := 0
      fieldInfos := [[⟨102, WChar.f_mem⟩]] })
  vectorData := [positionData]
  vectors := [[some (oneTerm true (some [0]))]]
  stores := List.Forall₂.cons stores_position List.Forall₂.nil
  stored := by
    intro docVectors hdoc vector hmem
    obtain rfl := List.mem_singleton.mp hdoc
    obtain rfl := Option.some.inj (List.mem_singleton.mp hmem)
    exact ⟨rfl, wellFormed_position, List.cons_ne_nil _ _, by decide⟩
  vectors_hold := by
    intro reader hreader
    obtain rfl := Option.some.inj hreader
    exact ⟨⟨⟨rfl, rfl, rfl⟩, Nat.lt_of_sub_eq_succ rfl, Nat.lt_of_sub_eq_succ rfl⟩, rfl, le_rfl⟩

/-- A segment of which the one document has no vectors. -/
def noVectorsSegment : StoredSegment (fun _ _ _ => 0) where
  toStoredReader := oneDocument none
  vectorData := []
  vectors := []
  stores := List.Forall₂.nil
  stored := fun _ hdoc => absurd hdoc List.not_mem_nil
  vectors_hold := fun _ hreader => (nomatch hreader)

theorem jobs_of_oneDocument {ρ : Type} {segment : ρ → SegmentReader} {isRaw : ρ → Bool} {r : ρ} {jobs : List (Job ρ)}
    (hlive : liveDocs (segment r) = [0]) (h : JobsCover segment isRaw [r] jobs) : jobs = [⟨r, 0, 1⟩] := by
  have heq : jobs.flatMap Job.docs = [(r, 0)] := by
    rw [h.flatMap_eq, mergedDocs, List.flatMap_singleton, hlive]
    rfl
  cases jobs with
  | nil => cases heq
  | cons job jobs =>
      have hpos := h.pos job List.mem_cons_self
      have hlength := congrArg List.length heq
      rw [List.flatMap_cons, List.length_append, Job.docs, List.length_map, List.length_range', List.length_singleton]
        at hlength
      have hjobs : jobs = [] := by
        cases jobs with
        | nil => rfl
        | cons job' jobs =>
            have hpos' := h.pos job' (List.mem_cons_of_mem _ List.mem_cons_self)
            rw [List.flatMap_cons, List.length_append, Job.docs, List.length_map, List.length_range'] at hlength
            omega
      subst hjobs
      obtain ⟨reader, start, count⟩ := job
      obtain rfl : count = 1 := by
        rw [List.flatMap_nil, List.length_nil] at hlength
        exact hlength
      obtain ⟨rfl, rfl⟩ := Prod.mk.inj (List.cons.inj heq).1
      rfl

theorem fieldsFit_oneDocument (vectorsReader : Option TermVectors.Reader) :
    FieldsFit (fun _ _ _ => 0) 0 [oneDocument vectorsReader] := by
  refine ⟨Nat.lt_of_sub_eq_succ rfl, fun raw w docCount h => ?_⟩
  obtain ⟨jobs, runs, hjobs, hruns, rfl, -, -⟩ := written_of_mergeFields h
  obtain rfl := jobs_of_oneDocument rfl hjobs
  obtain ⟨run, rest, hadds, hrest, rfl⟩ := List.forall₂_cons_left_iff.mp hruns
  obtain rfl := List.forall₂_nil_left_iff.mp hrest
  have hcopied : run.copied.length = 1 := by
    rw [Adds] at hadds
    split_ifs at hadds
    · have hlength := run.length_copied
      rw [hadds.2, hadds.1] at hlength
      exact Int.ofNat.inj hlength
    · obtain ⟨bytes, hbytes, hpieces, hexact⟩ := hadds
      rw [Run.copied_of_exact hexact, hpieces]
      obtain rfl := Option.some.inj hbytes
      have hzero : writeVInt (0 : Nat) = [0] := writeVInt_of_lt (by decide)
      change ((writeVInt (0 : Nat) ++ []) ++ []).length = 1
      rw [hzero]
      rfl
  rw [written, List.length_append, data_cons, data, List.flatMap_nil, List.append_nil, hcopied]
  exact Nat.lt_of_sub_eq_succ rfl

theorem mergeVectors_noVectors (raw : Bool) :
    mergeVectors (fun _ _ _ => 0) 0 raw 1 [(oneDocument none).toMergeReader] =
      .ok { newVectorsWriter (oneDocument none).fieldInfos with
        tvx := writeInt 4 ++ writeLong 4 ++ writeLong 4
        tvd := writeInt 4 ++ writeVInt 0 } := by
  cases raw <;> rfl

theorem vectorsFit_noVectors : VectorsFit 0 [noVectorsSegment] := by
  refine ⟨Nat.lt_of_sub_eq_succ rfl, fun raw w h => ?_⟩
  obtain rfl := Except.ok.inj ((mergeVectors_noVectors raw).symm.trans h)
  have hzero : writeVInt (0 : Int) = [0] := writeVInt_of_lt (n := 0) (by decide)
  rw [hzero]
  exact ⟨Nat.lt_of_sub_eq_succ rfl, Nat.lt_of_sub_eq_succ rfl⟩

theorem length_positionSegment {w : TermVectors.Writer} (h : mergeVectors (fun _ _ _ => 0) 0 false
      (docsOf (segmentsOf [positionSegment])).length ((segmentsOf [positionSegment]).map StoredReader.toMergeReader) = .ok w) :
    w.tvd.length < 0x8000000000000000 ∧ w.tvf.length < 0x8000000000000000 := by
  have hget := @StoredSegment.getTermFreqVectors_eq _ positionSegment 0 Nat.zero_lt_one fun reader hreader => by
    obtain rfl := Option.some.inj hreader
    decide
  have hcopy : copyVectors (fun _ _ _ => 0) 0 positionSegment.toMergeReader newWriter 0 =
      addAllDocVectors 0 newWriter (some [oneTerm true (some [0])]) := by
    rw [copyVectors, hget]
    rfl
  obtain ⟨jobs, hjobs, heq⟩ := mergeVectors_eq 0 false [positionSegment]
  obtain rfl := jobs_of_oneDocument rfl hjobs
  have hfold : [(⟨positionSegment, 0, 1⟩ : Job _)].foldlM (copyJob (rawVectors false [positionSegment])
        (fun r => copyVectors (fun _ _ _ => 0) 0 r.toMergeReader))
        (newVectorsWriter (fieldInfosOf (segmentsOf [positionSegment]))) =
      copyVectors (fun _ _ _ => 0) 0 positionSegment.toMergeReader newWriter 0 := by
    change (copyVectors (fun _ _ _ => 0) 0 positionSegment.toMergeReader newWriter 0 >>= pure) = _
    exact bind_pure _
  rw [heq, hfold, hcopy, addAllDocVectors] at h
  cases hadd : newWriter.addAllDocVectors 0 (some [oneTerm true (some [0])]) with
  | error e =>
      rw [hadd] at h
      cases h
  | ok w' =>
      rw [hadd] at h
      dsimp only at h
      split_ifs at h
      obtain rfl := Except.ok.inj h
      refine ⟨?_, length_tvf_oneTerm rfl hadd⟩
      obtain ⟨written, hwritten, rfl⟩ := addAllDocVectors_some hadd
      obtain ⟨bytes, others, -, hothers, rfl⟩ := writeVectors_cons hwritten
      obtain rfl := Except.ok.inj hothers
      have hzero : writeVInt (0 : Int) = [0] := writeVInt_of_lt (n := 0) (by decide)
      have hone : writeVInt (1 : Int) = [1] := writeVInt_of_lt (n := 1) (by decide)
      change (writeInt 4 ++ writeVInt (1 : Int) ++ (writeVInt (0 : Int) ++ []) ++ []).length < _
      rw [hzero, hone]
      exact Nat.lt_of_sub_eq_succ rfl

/-- The documents that are left are merged, each once and in order, whether they are copied raw or not. This is so when
they have places that are reached, no vectors, and not too much data to be copied raw; only then. -/
theorem mergesDocuments_iff (hfields : FieldsFit wide size (segmentsOf readers)) (hvectors : VectorsFit size readers) :
    (∀ raw, MergesFields wide size raw (segmentsOf readers) ∧ MergesVectors size raw readers) ↔
      ∀ r ∈ readers, ∀ n ∈ liveDocs r.reader,
        FieldsCopied (segmentsOf readers) r.toStoredReader n ∧ VectorsCopied readers r n := by
  have hfieldsIff := mergesFields_iff hfields
  have hvectorsIff := mergesVectors_iff hvectors
  constructor
  · intro h r hreader n hlive
    exact ⟨hfieldsIff.mp (fun raw => (h raw).1) _ (List.mem_map_of_mem hreader) n hlive,
      hvectorsIff.mp (fun raw => (h raw).2) r hreader n hlive⟩
  · intro h raw
    refine ⟨hfieldsIff.mpr (fun r hmem n hlive => ?_) raw, hvectorsIff.mpr (fun r hmem n hlive => (h r hmem n hlive).2) raw⟩
    obtain ⟨reader, hreader, rfl⟩ := List.mem_map.mp hmem
    exact (h reader hreader n hlive).1

/-- A document without vectors is merged. -/
theorem mergesDocuments_iff_noVectors :
    (∀ raw, MergesFields (fun _ _ _ => 0) 0 raw (segmentsOf [noVectorsSegment]) ∧ MergesVectors 0 raw [noVectorsSegment]) ↔
      ∀ r ∈ [noVectorsSegment], ∀ n ∈ liveDocs r.reader,
        FieldsCopied (segmentsOf [noVectorsSegment]) r.toStoredReader n ∧ VectorsCopied [noVectorsSegment] r n :=
  mergesDocuments_iff (fieldsFit_oneDocument none) vectorsFit_noVectors

/-- The vector with a position is lost when the document is read and written again. -/
theorem position_is_not_merged : positionSegment.docVectors 0 = [some (oneTerm true (some [0]))] ∧
    ¬ ∀ raw, MergesVectors 0 raw [positionSegment] := by
  refine ⟨rfl, fun h => ?_⟩
  have hnil := (nil_of_mergesVectors (n := 0) (Nat.lt_of_sub_eq_succ rfl) (fun w hw => length_positionSegment hw)
    List.mem_cons_self (List.mem_singleton_self 0) (h false)).1
  exact List.cons_ne_nil _ _ hnil

end LucenePlusPlus.SegmentMerger
