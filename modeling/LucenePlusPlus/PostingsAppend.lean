import LucenePlusPlus.PostingsMerge

/-!
What the postings of one reader become in the merged segment: a document that is not deleted is moved to where the
reader's documents start, behind those of the reader that are left before it.
-/

namespace LucenePlusPlus.PostingsMerge
open SegmentTermPositions

section DocMaps
variable {segment : SegmentReader} {doc doc' : Nat}

/-- How many documents before `doc` are not deleted. -/
def compacted (segment : SegmentReader) (doc : Nat) : Nat :=
  (List.range doc).countP fun i => !segment.isDeleted i

theorem compacted_succ (segment : SegmentReader) (doc : Nat) :
    compacted segment (doc + 1) = compacted segment doc + if segment.isDeleted doc then 0 else 1 := by
  rw [compacted, List.range_succ, List.countP_append, List.countP_singleton, compacted]
  cases segment.isDeleted doc <;> rfl

theorem compacted_mono (h : doc ≤ doc') : compacted segment doc ≤ compacted segment doc' := by
  induction h with
  | refl => exact le_rfl
  | step _ ih => exact ih.trans (by rw [compacted_succ]; omega)

theorem compacted_lt (hlive : segment.isDeleted doc = false) (h : doc < doc') :
    compacted segment doc < compacted segment doc' := by
  refine lt_of_lt_of_le ?_ (compacted_mono h)
  rw [compacted_succ, hlive]
  simp

theorem isDeleted_of_hasDeletions (h : segment.hasDeletions = false) (doc : Nat) :
    segment.isDeleted doc = false := by
  rw [SegmentReader.hasDeletions, Option.isSome_eq_false_iff, Option.isNone_iff_eq_none] at h
  rw [SegmentReader.isDeleted, h]

theorem compacted_of_hasDeletions (h : segment.hasDeletions = false) (doc : Nat) :
    compacted segment doc = doc := by
  rw [compacted, List.countP_eq_length.mpr, List.length_range]
  intro i _
  rw [isDeleted_of_hasDeletions h i]
  rfl

theorem compacted_maxDoc (segment : SegmentReader) :
    compacted segment segment.maxDoc = segment.numDocs := by
  have hsplit := List.length_eq_countP_add_countP segment.isDeleted (l := List.range segment.maxDoc)
  rw [List.length_range, ← segment.numDeletedDocs_eq_countP, SegmentReader.numDeletedDocs] at hsplit
  have hle : segment.numDocs ≤ segment.maxDoc := by
    rw [SegmentReader.numDocs]
    split
    · exact le_rfl
    · exact Nat.sub_le _ _
  simp only [Bool.not_eq_true, Bool.decide_eq_false] at hsplit
  rw [compacted]
  omega

theorem getD_mapDocs (segment : SegmentReader) (count i j k : Nat) (hk : k < count)
    (hlive : segment.isDeleted (i + k) = false) :
    (SegmentMergeInfo.mapDocs segment count i j).getD k 0 =
      ((j + compacted segment (i + k) - compacted segment i : Nat) : Int) := by
  induction count generalizing i j k with
  | zero => omega
  | succ count ih =>
      have hmono := @compacted_mono segment i (i + k) (Nat.le_add_right i k)
      rw [SegmentMergeInfo.mapDocs]
      cases k with
      | zero =>
          rw [if_neg (by rw [Nat.add_zero] at hlive; simp [hlive])]
          simp
      | succ k =>
          have hnext := ih (i + 1) (if segment.isDeleted i then j else j + 1) k (by omega)
            (by rw [Nat.add_right_comm]; exact hlive)
          have hcompacted := compacted_succ segment i
          have hmono' := @compacted_mono segment (i + 1) (i + 1 + k) (by omega)
          rw [show i + (k + 1) = i + 1 + k by omega]
          split
          case isTrue hdeleted =>
            rw [if_pos hdeleted] at hnext hcompacted
            rw [List.getD_cons_succ, hnext, hcompacted]
            congr 1
          case isFalse hnot =>
            rw [if_neg hnot] at hnext hcompacted
            rw [List.getD_cons_succ, hnext, hcompacted]
            congr 1
            omega

end DocMaps

theorem mapDoc_eq {segment : SegmentReader} {doc : Nat} (hdoc : doc < segment.maxDoc)
    (hlive : segment.isDeleted doc = false) :
    SegmentMergeInfo.mapDoc segment doc = compacted segment doc := by
  rw [SegmentMergeInfo.mapDoc, SegmentMergeInfo.getDocMap]
  by_cases hdeletions : segment.hasDeletions = true
  · rw [if_pos hdeletions]
    dsimp only
    rw [getD_mapDocs segment _ 0 0 doc hdoc (by rw [Nat.zero_add]; exact hlive), Nat.zero_add, Nat.zero_add]
    rfl
  · rw [if_neg hdeletions]
    dsimp only
    rw [compacted_of_hasDeletions (Bool.eq_false_iff.mpr hdeletions)]

/-- A document in the merged segment. -/
def writtenDoc (omitted : Bool) (segment : SegmentReader) (base : Int) (posting : Posting) : WrittenDoc where
  docID := compacted segment posting.doc + base
  freq := if omitted then none else some posting.positions.length
  positions := if omitted then [] else posting.positions

def writtenDocs (omitted : Bool) (segment : SegmentReader) (base : Int) (postings : List Posting) :
    List WrittenDoc :=
  (postings.filter fun posting => !segment.isDeleted posting.doc).map (writtenDoc omitted segment base)

/-- The writer knows the document it wrote last. -/
def DocsWriter.KnowsLast (w : DocsWriter) : Prop :=
  ∀ doc, w.docs.getLast? = some doc → doc.docID = w.lastDocID

theorem addDoc_eq {info : FieldInfo} {w : DocsWriter} {docID : Int} (termDocFreq : Nat)
    (hlast : w.KnowsLast) (hpos : 0 ≤ docID) (hlt : ∀ doc ∈ w.docs, doc.docID < docID) :
    w.addDoc info docID termDocFreq = .ok fun positions =>
      { lastDocID := docID
        docs := w.docs ++ [
          { docID := docID
            freq := if info.omitTermFreqAndPositions then none else some termDocFreq
            positions := positions.map fun position =>
              (position.1, if info.storePayloads then position.2 else []) }] } := by
  rw [DocsWriter.addDoc, if_neg]
  rintro (hneg | ⟨hlength, hle⟩)
  · omega
  · obtain ⟨doc, hdoc⟩ : ∃ doc, w.docs.getLast? = some doc :=
      Option.isSome_iff_exists.mp (by rw [List.getLast?_isSome]; exact List.ne_nil_of_length_pos hlength)
    have hbefore := hlt doc (List.mem_of_getLast? hdoc)
    rw [hlast doc hdoc] at hbefore
    omega

theorem knowsLast_append {w : DocsWriter} {doc : WrittenDoc} (h : doc.docID = w.lastDocID)
    {docs : List WrittenDoc} (heq : w.docs = docs ++ [doc]) : w.KnowsLast := by
  intro doc' hdoc'
  rw [heq, List.getLast?_concat] at hdoc'
  rw [← Option.some.inj hdoc']
  exact h

theorem map_storePayloads {info : FieldInfo} {storePayloads : Bool} {positions : List (Int × Payload)}
    (hstored : Stored storePayloads positions) (hpayloads : storePayloads = true → info.storePayloads = true) :
    (positions.map fun position => (position.1, if info.storePayloads then position.2 else [])) =
      positions := by
  refine (List.map_congr_left fun position hmem => ?_).trans (List.map_id' positions)
  split
  · rfl
  case isFalse hnot =>
    cases storePayloads with
    | true => exact absurd (hpayloads rfl) hnot
    | false => rw [← hstored rfl position hmem]

/-- What is asked of a reader's stream and of the field for the documents to be appended. -/
structure Readable (info : FieldInfo) (segment : SegmentReader) (s : SegmentTermPositions)
    (postings : List Posting) : Prop where
  before : SegmentTermPositions.Before s postings
  ascending : Ascending s.doc postings
  docs_lt : ∀ posting ∈ postings, posting.doc < segment.maxDoc
  stored : ∀ posting ∈ postings, Stored s.currentFieldStoresPayloads posting.positions
  omitted : s.currentFieldOmitTermFreqAndPositions = true → info.omitTermFreqAndPositions = true
  payloads : s.currentFieldStoresPayloads = true → info.storePayloads = true

theorem Readable.tail {info : FieldInfo} {segment : SegmentReader} {s s' : SegmentTermPositions}
    {posting : Posting} {postings rest : List Posting} (h : Readable info segment s postings)
    (hsuffix : posting :: rest <:+ postings) (hsame : SameField s s') (hdoc : s'.doc = posting.doc)
    (hasc : Ascending posting.doc rest) (hbefore : SegmentTermPositions.Before s' rest) : Readable info segment s' rest := by
  have hsub : ∀ p ∈ rest, p ∈ postings := fun p hp => hsuffix.subset (List.mem_cons_of_mem _ hp)
  refine ⟨hbefore, hdoc ▸ hasc, fun p hp => h.docs_lt p (hsub p hp), fun p hp => ?_, ?_, ?_⟩
  · rw [hsame.payloads_eq]
    exact h.stored p (hsub p hp)
  · rw [hsame.omit_eq]
    exact h.omitted
  · rw [hsame.payloads_eq]
    exact h.payloads

theorem appendDocs_spec {info : FieldInfo} {smi : SegmentMergeInfo} {fuel : Nat}
    {s : SegmentTermPositions} {postings : List Posting} {w : DocsWriter} (hfuel : postings.length < fuel)
    (hread : Readable info smi.reader.segment s postings) (hbase : 0 ≤ smi.base) (hlast : w.KnowsLast)
    (hsorted : (w.docs ++ writtenDocs info.omitTermFreqAndPositions smi.reader.segment smi.base
      postings).Pairwise fun doc doc' => doc.docID < doc'.docID) :
    ∃ w', appendDocs info smi fuel s w = .ok w' ∧ w'.KnowsLast ∧
      w'.docs = w.docs ++ writtenDocs info.omitTermFreqAndPositions smi.reader.segment smi.base postings := by
  induction fuel generalizing s postings w with
  | zero => omega
  | succ fuel ih =>
      rw [appendDocs]
      rcases next_spec hread.before hread.ascending with
        ⟨hnone, hfilter⟩ | ⟨s', posting, rest, hsome, hfilter, hasc, hsuffix, hsame, hat⟩
      · rw [hnone, writtenDocs, hfilter]
        exact ⟨w, rfl, hlast, (List.append_nil _).symm⟩
      · have hmem : posting ∈ postings := hsuffix.subset List.mem_cons_self
        have hlive : smi.reader.segment.isDeleted posting.doc = false := by
          have hin : posting ∈ postings.filter fun p => !smi.reader.segment.isDeleted p.doc := by
            rw [hfilter]
            exact List.mem_cons_self
          simpa using (List.mem_filter.mp hin).2
        have hwritten : writtenDocs info.omitTermFreqAndPositions smi.reader.segment smi.base postings =
            writtenDoc info.omitTermFreqAndPositions smi.reader.segment smi.base posting ::
              writtenDocs info.omitTermFreqAndPositions smi.reader.segment smi.base rest := by
          rw [writtenDocs, hfilter, List.map_cons, writtenDocs]
        rw [hwritten] at hsorted ⊢
        have hdocID : SegmentMergeInfo.mapDoc smi.reader.segment s'.doc + smi.base =
            (writtenDoc info.omitTermFreqAndPositions smi.reader.segment smi.base posting).docID := by
          rw [hat.doc_eq, mapDoc_eq (hread.docs_lt posting hmem) hlive]
          rfl
        have hlt : ∀ doc ∈ w.docs, doc.docID <
            (writtenDoc info.omitTermFreqAndPositions smi.reader.segment smi.base posting).docID :=
          fun doc hdoc => (List.pairwise_append.mp hsorted).2.2 doc hdoc _ List.mem_cons_self
        have hpos : 0 ≤ (writtenDoc info.omitTermFreqAndPositions smi.reader.segment smi.base
            posting).docID := by
          exact Int.add_nonneg (Int.natCast_nonneg _) hbase
        -- with the document written, the rest is as it was for all
        have hrest : ∀ s'' w', Readable info smi.reader.segment s'' rest →
            w'.docs = w.docs ++ [writtenDoc info.omitTermFreqAndPositions smi.reader.segment smi.base
              posting] →
            w'.lastDocID = (writtenDoc info.omitTermFreqAndPositions smi.reader.segment smi.base
              posting).docID →
            ∃ w'', appendDocs info smi fuel s'' w' = .ok w'' ∧ w''.KnowsLast ∧
              w''.docs = w.docs ++ writtenDoc info.omitTermFreqAndPositions smi.reader.segment smi.base
                posting :: writtenDocs info.omitTermFreqAndPositions smi.reader.segment smi.base rest := by
          intro s'' w' hread' hdocs hlastID
          have hlength := hsuffix.length_le
          rw [List.length_cons] at hlength
          obtain ⟨w'', hok, hlast', heq⟩ := ih (by omega) hread' (knowsLast_append hlastID.symm hdocs)
            (by rw [hdocs, List.append_assoc]; exact hsorted)
          exact ⟨w'', hok, hlast', by rw [heq, hdocs, List.append_assoc]; rfl⟩
        rw [hsome]
        dsimp only
        rw [hdocID, addDoc_eq _ hlast hpos hlt]
        dsimp only [bind, Except.bind]
        by_cases homit : info.omitTermFreqAndPositions = true
        · rw [if_pos homit]
          refine hrest s' _ (hread.tail hsuffix hsame hat.doc_eq hasc hat.before) ?_ rfl
          simp [writtenDoc, homit]
        · rw [if_neg homit]
          have homit' : s'.currentFieldOmitTermFreqAndPositions = false := by
            rw [hsame.omit_eq]
            exact Bool.eq_false_iff.mpr fun htrue => homit (hread.omitted htrue)
          have hfreq : s'.freq = posting.positions.length := by
            rw [hat.freq_eq, if_neg (Bool.eq_false_iff.mp homit')]
          have hstored : Stored s'.currentFieldStoresPayloads posting.positions := by
            rw [hsame.payloads_eq]
            exact hread.stored posting hmem
          have hpayloads : s'.currentFieldStoresPayloads = true → info.storePayloads = true := by
            rw [hsame.payloads_eq]
            exact hread.payloads
          have hprox : s'.proxStream.drop s'.lazySkipProxCount =
              Posting.deltas s'.position posting.positions ++ Posting.proxEntries rest := by
            rw [hat.position_eq]
            exact hat.proxStream_eq homit'
          obtain ⟨s'', hpositions, hsame', hdoc, hstream, hskip⟩ :=
            readPositions_spec homit' hstored (hat.proxCount_eq.trans hfreq) hprox
          have hbefore : SegmentTermPositions.Before s'' rest := by
            refine ⟨?_, fun _ => hskip⟩
            rw [hstream, hdoc]
            exact hat.freqStream_eq
          rw [hfreq, hpositions]
          refine hrest s'' _ (hread.tail hsuffix (hsame.trans hsame') (hdoc.trans hat.doc_eq) hasc hbefore)
            ?_ rfl
          dsimp only
          rw [map_storePayloads hstored hpayloads]
          simp [writtenDoc, homit]

end LucenePlusPlus.PostingsMerge
