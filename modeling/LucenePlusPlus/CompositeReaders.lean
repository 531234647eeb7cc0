import LucenePlusPlus.CompositeDocs
import LucenePlusPlus.FilteredTermEnum
import LucenePlusPlus.MultiTermEnum

/-!
Composite readers as one index: the live postings of the sub-readers, with the numbers they have in the composite.
-/

namespace LucenePlusPlus
open PostingsMerge (Reader Readers)

namespace SubReader

/-- The live documents of the term, or all live documents. -/
def liveDocs (sub : SubReader) : Seek → List TermDoc
  | .docs none =>
      ((List.range sub.reader.segment.maxDoc).filter fun doc => !sub.reader.segment.isDeleted doc).map
        fun doc : Nat => ⟨doc, 1, []⟩
  | .docs (some term) => (sub.segmentTermDocs false term).left
  | .positions term => (sub.segmentTermDocs true term).left

variable {sub : SubReader} {seek : Seek}

theorem left_termDocs (sub : SubReader) (seek : Seek) : (sub.termDocs seek).left = sub.liveDocs seek := by
  cases seek with
  | docs term =>
      cases term with
      | some term => rfl
      | none =>
          have hdeleted : ∀ doc : Nat, sub.isDeleted doc = sub.reader.segment.isDeleted doc := by
            intro doc
            rw [isDeleted, if_neg (by omega), Int.toNat_natCast, SegmentReader.hasDeletions, SegmentReader.isDeleted]
            cases sub.reader.segment.deletedDocs <;> simp
          rw [termDocs, TermDocs.left, AbstractAllTermDocs.left, AbstractAllTermDocs.liveFrom, liveDocs]
          simp only [hdeleted]
          rw [List.range_eq_range']
          rfl
  | positions term => rfl

theorem valid_termDocs (sub : SubReader) (seek : Seek) : (sub.termDocs seek).Valid := by
  cases seek with
  | docs term =>
      cases term with
      | some term => trivial
      | none => exact le_rfl
  | positions term => trivial

theorem postings_mem {reader : Reader} {term : Term} {posting : Posting} (h : posting ∈ reader.postings term) :
    ∃ entry ∈ reader.terms, reader.postings term = entry.postings ∧ posting ∈ entry.postings := by
  rw [Reader.postings] at h ⊢
  cases hfind : reader.terms.find? fun entry => entry.term = term with
  | none =>
      rw [hfind] at h
      cases h
  | some entry =>
      rw [hfind] at h
      exact ⟨entry, List.mem_of_find?_eq_some hfind, rfl, h⟩

theorem sorted_postings (reader : Reader) (term : Term) :
    (reader.postings term).Pairwise fun posting posting' => posting.doc < posting'.doc := by
  rw [Reader.postings]
  cases hfind : reader.terms.find? fun entry => entry.term = term with
  | none => exact List.Pairwise.nil
  | some entry => exact reader.docs_sorted entry (List.mem_of_find?_eq_some hfind)

theorem left_segmentTermDocs (sub : SubReader) (positions : Bool) (term : Term) :
    (∀ entry ∈ (sub.segmentTermDocs positions term).left, 0 ≤ entry.doc ∧ entry.doc < sub.reader.segment.maxDoc) ∧
      (sub.segmentTermDocs positions term).left.Pairwise fun entry entry' => entry.doc < entry'.doc := by
  constructor
  · intro entry hmem
    obtain ⟨posting, hposting, rfl⟩ := List.mem_map.mp hmem
    obtain ⟨terms, hterms, -, hin⟩ := postings_mem (List.mem_of_mem_filter hposting)
    exact ⟨Int.natCast_nonneg _, Int.ofNat_lt.mpr (sub.reader.docs_lt terms hterms posting hin)⟩
  · rw [SegmentTermDocs.left, List.pairwise_map]
    exact ((sorted_postings sub.reader term).filter _).imp fun hlt => Int.ofNat_lt.mpr hlt

theorem liveDocs_spec (sub : SubReader) (seek : Seek) :
    (∀ entry ∈ sub.liveDocs seek, 0 ≤ entry.doc ∧ entry.doc < sub.reader.segment.maxDoc) ∧
      (sub.liveDocs seek).Pairwise fun entry entry' => entry.doc < entry'.doc := by
  cases seek with
  | docs term =>
      cases term with
      | some term => exact sub.left_segmentTermDocs false term
      | none =>
          constructor
          · intro entry hmem
            obtain ⟨doc, hdoc, rfl⟩ := List.mem_map.mp hmem
            exact ⟨Int.natCast_nonneg _, Int.ofNat_lt.mpr (List.mem_range.mp (List.mem_of_mem_filter hdoc))⟩
          · rw [liveDocs, List.pairwise_map]
            exact (List.pairwise_lt_range.filter _).imp fun hlt => Int.ofNat_lt.mpr hlt
  | positions term => exact sub.left_segmentTermDocs true term

end SubReader

namespace MultiTermDocs

/-- The live postings of the sub-readers one after another, each shifted by the number of documents before its
sub-reader. -/
def liveDocs (seek : Seek) : Int → List SubReader → List TermDoc
  | _, [] => []
  | base, sub :: subs =>
      (sub.liveDocs seek).map (TermDoc.shift base) ++ liveDocs seek (base + sub.reader.segment.maxDoc) subs

theorem left_seek (subs : List SubReader) (how : Seek) : (seek subs how).left = liveDocs how 0 subs := by
  have hsubs : ∀ base, (subDocs how base subs).flatMap SubDocs.left = liveDocs how base subs := by
    induction subs with
    | nil => exact fun _ => rfl
    | cons sub subs ih =>
        intro base
        rw [subDocs, List.flatMap_cons, ih, liveDocs, SubDocs.left, sub.left_termDocs]
  exact hsubs 0

theorem valid_seek (subs : List SubReader) (how : Seek) : (seek subs how).Valid := by
  have hsubs : ∀ base, ∀ sub ∈ subDocs how base subs, sub.docs.Valid := by
    induction subs with
    | nil => exact fun _ => nofun
    | cons sub subs ih =>
        intro base sub' hmem
        rcases List.mem_cons.mp hmem with rfl | hmem
        · exact sub.valid_termDocs how
        · exact ih _ sub' hmem
  exact hsubs 0

theorem liveDocs_sorted (seek : Seek) (base : Int) (subs : List SubReader) :
    (∀ entry ∈ liveDocs seek base subs, base ≤ entry.doc) ∧
      (liveDocs seek base subs).Pairwise fun entry entry' => entry.doc < entry'.doc := by
  induction subs generalizing base with
  | nil => exact ⟨nofun, List.Pairwise.nil⟩
  | cons sub subs ih =>
      obtain ⟨hrange, hsorted⟩ := sub.liveDocs_spec seek
      obtain ⟨hlater, hrest⟩ := ih (base + sub.reader.segment.maxDoc)
      have hshift : ∀ entry ∈ (sub.liveDocs seek).map (TermDoc.shift base),
          base ≤ entry.doc ∧ entry.doc < base + sub.reader.segment.maxDoc := by
        intro entry hmem
        obtain ⟨entry, hentry, rfl⟩ := List.mem_map.mp hmem
        have hbounds := hrange entry hentry
        rw [TermDoc.shift]
        dsimp only
        omega
      constructor
      · intro entry hmem
        rcases List.mem_append.mp hmem with hmem | hmem
        · exact (hshift entry hmem).1
        · have hle := hlater entry hmem
          omega
      · refine List.pairwise_append.mpr ⟨?_, hrest, fun entry hmem entry' hmem' => ?_⟩
        · rw [List.pairwise_map]
          exact hsorted.imp fun hlt => Int.add_lt_add_left hlt base
        · exact (hshift entry hmem).2.trans_le (hlater entry' hmem')

/-- A sub-reader of one document, with no deletions. -/
def oneDocument : SubReader where
  reader := PostingsMerge.oneDocument false
  skipList _ := ⟨fun _ _ _ => 0, fun _ _ _ => nofun⟩
  outside _ := false

theorem oneDocument_indexed :
    TermEnum.Indexed 128 (oneDocument.reader.terms.map PostingsMerge.TermPostings.term) :=
  ⟨List.pairwise_singleton _ _, by decide⟩

end MultiTermDocs
end LucenePlusPlus
