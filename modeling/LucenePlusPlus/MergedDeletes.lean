import LucenePlusPlus.SegmentReader

/-!
`IndexWriter::commitMergedDeletes`: deletes that were flushed while a merge ran are carried over to
the merged segment. The merge itself has removed the documents that were deleted when it started and
concatenated the rest, so the merged document numbers are the positions in `compaction`.
-/

namespace LucenePlusPlus.MergedDeletes

/-- One source segment of a merge with the reader cloned when the merge started and the live reader.
Deletes are only ever added to a segment, so the first set of deletes is part of the second. -/
structure SourceSegment where
  docCount : Nat
  previousReader : SegmentReader
  currentReader : SegmentReader
  previous_maxDoc : previousReader.maxDoc = docCount
  current_maxDoc : currentReader.maxDoc = docCount
  subset : ∀ j, previousReader.isDeleted j = true → currentReader.isDeleted j = true

/-- The locals of the loop. `visited` is a ghost log of the merged document numbers that `docUpto`
has passed, in the order it passed them. -/
structure Cursor where
  docUpto : Nat
  delCount : Nat
  mergeReader : SegmentReader
  visited : List Nat

namespace Cursor

/-- `docUpto += n`. -/
def advance (c : Cursor) (n : Nat) : Cursor :=
  { c with
    docUpto := c.docUpto + n
    visited := c.visited ++ (List.range n).map (c.docUpto + ·) }

/-- `mergeReader->doDelete(docUpto); ++delCount;` -/
def delete (c : Cursor) : Option Cursor :=
  (c.mergeReader.doDelete c.docUpto).map fun r =>
    { c with mergeReader := r, delCount := c.delCount + 1 }

end Cursor

/-- The body shared by both document loops once the document is known to have survived the merge. -/
def visitDoc (deletedNow : Bool) (c : Cursor) : Option Cursor := do
  let c ← if deletedNow then c.delete else some c
  return c.advance 1

/-- The loop body of the case in which deletes existed before and new ones came; `none` is the
failed assertion that a document deleted before is still deleted. -/
def visitOldDeletes (s : SourceSegment) (c : Cursor) (j : Nat) : Option Cursor :=
  if s.previousReader.isDeleted j then
    if s.currentReader.isDeleted j then some c else none
  else visitDoc (s.currentReader.isDeleted j) c

/-- The loop body of the case in which the segment had no deletes before but now does. -/
def visitNewDeletes (s : SourceSegment) (c : Cursor) (j : Nat) : Option Cursor :=
  visitDoc (s.currentReader.isDeleted j) c

def visitSegment (c : Cursor) (s : SourceSegment) : Option Cursor :=
  if s.previousReader.hasDeletions then
    if s.currentReader.numDeletedDocs > s.previousReader.numDeletedDocs then
      (List.range s.docCount).foldlM (visitOldDeletes s) c
    else some (c.advance (s.docCount - s.previousReader.numDeletedDocs))
  else if s.currentReader.hasDeletions then
    (List.range s.docCount).foldlM (visitNewDeletes s) c
  else some (c.advance s.docCount)

/-- `none` is a failed assertion or an exception of `doDelete`. -/
def commitMergedDeletes (sourceSegments : List SourceSegment) (mergeReader : SegmentReader) :
    Option Cursor := do
  let c ← sourceSegments.foldlM visitSegment ⟨0, 0, mergeReader, []⟩
  if c.mergeReader.numDeletedDocs = c.delCount then
    return { c with mergeReader := { c.mergeReader with hasChanges := decide (0 < c.delCount) } }
  else none

def SourceSegment.kept (s : SourceSegment) : List Nat :=
  (List.range s.docCount).filter fun j => !s.previousReader.isDeleted j

/-- Position `d` holds the segment and the document whose image is the merged document `d`. -/
def compaction (sourceSegments : List SourceSegment) : List (SourceSegment × Nat) :=
  sourceSegments.flatMap fun s => s.kept.map fun j => (s, j)

def deletedNow (doc : SourceSegment × Nat) : Bool := doc.1.currentReader.isDeleted doc.2

structure Passed (c : Cursor) (flags : List Bool) : Prop where
  docUpto_eq : c.docUpto = flags.length
  visited_eq : c.visited = List.range flags.length
  delCount_eq : c.delCount = flags.count true
  bits_eq : c.mergeReader.writableDeletedDocs.bits =
    flags ++ List.replicate (c.mergeReader.maxDoc - flags.length) false

theorem Passed.init (r : SegmentReader) (hfresh : r.hasDeletions = false) :
    Passed ⟨0, 0, r, []⟩ [] := by
  have hnone : r.deletedDocs = none := by
    simpa [SegmentReader.hasDeletions] using hfresh
  refine ⟨rfl, rfl, rfl, ?_⟩
  simp [SegmentReader.writableDeletedDocs, hnone, BitVector.ofSize]

theorem Passed.advance {c : Cursor} {flags : List Bool} (h : Passed c flags) {n : Nat}
    (hroom : flags.length + n ≤ c.mergeReader.maxDoc) :
    Passed (c.advance n) (flags ++ List.replicate n false) := by
  refine ⟨?_, ?_, ?_, ?_⟩
  · simp [Cursor.advance, h.docUpto_eq]
  · simp only [Cursor.advance, h.visited_eq, h.docUpto_eq, List.length_append,
      List.length_replicate, List.range_add]
  · simp [Cursor.advance, h.delCount_eq, List.count_replicate]
  · simp only [Cursor.advance, h.bits_eq, List.append_assoc, List.replicate_append_replicate,
      List.length_append, List.length_replicate]
    congr 2
    omega

theorem set_length_append_replicate (flags : List Bool) {n : Nat} (hn : 0 < n) :
    (flags ++ List.replicate n false).set flags.length true =
      (flags ++ [true]) ++ List.replicate (n - 1) false := by
  obtain ⟨m, rfl⟩ : ∃ m, n = m + 1 := ⟨n - 1, by omega⟩
  simp [List.replicate_succ]

theorem visitDoc_spec {c : Cursor} {flags : List Bool} (h : Passed c flags) (b : Bool)
    (hroom : flags.length < c.mergeReader.maxDoc) :
    ∃ c', visitDoc b c = some c' ∧ Passed c' (flags ++ [b]) ∧
      c'.mergeReader.maxDoc = c.mergeReader.maxDoc := by
  cases b with
  | false => exact ⟨c.advance 1, rfl, h.advance hroom, rfl⟩
  | true =>
      obtain ⟨r, hr, hmax, -, hbits⟩ :=
        c.mergeReader.doDelete_spec (h.docUpto_eq ▸ hroom : c.docUpto < c.mergeReader.maxDoc)
      refine ⟨_, by simp [visitDoc, Cursor.delete, hr]; rfl, ⟨?_, ?_, ?_, ?_⟩, hmax⟩
      · simp [Cursor.advance, h.docUpto_eq]
      · simp [Cursor.advance, h.visited_eq, h.docUpto_eq, List.range_succ]
      · simp [Cursor.advance, h.delCount_eq]
      · have hpos : 0 < c.mergeReader.maxDoc - flags.length := by omega
        show r.writableDeletedDocs.bits = _
        rw [hbits, h.bits_eq, h.docUpto_eq, set_length_append_replicate _ hpos]
        show _ = _ ++ List.replicate (r.maxDoc - _) false
        rw [hmax, List.length_append, List.length_singleton, Nat.sub_sub]

/-- A loop over documents whose body passes the kept ones and skips the others passes the flags of
the kept ones. -/
theorem foldlM_visit {f : Cursor → Nat → Option Cursor} {kept flag : Nat → Bool} (docs : List Nat)
    (hkept : ∀ c, ∀ j ∈ docs, kept j = true → f c j = visitDoc (flag j) c)
    (hskip : ∀ c, ∀ j ∈ docs, kept j = false → f c j = some c)
    {c : Cursor} {flags : List Bool} (h : Passed c flags)
    (hroom : flags.length + (docs.filter kept).length ≤ c.mergeReader.maxDoc) :
    ∃ c', docs.foldlM f c = some c' ∧ Passed c' (flags ++ (docs.filter kept).map flag) ∧
      c'.mergeReader.maxDoc = c.mergeReader.maxDoc := by
  induction docs generalizing c flags with
  | nil => exact ⟨c, rfl, by simpa using h, rfl⟩
  | cons j docs ih =>
      have hkept' : ∀ c, ∀ i ∈ docs, kept i = true → f c i = visitDoc (flag i) c :=
        fun c i hi => hkept c i (List.mem_cons_of_mem _ hi)
      have hskip' : ∀ c, ∀ i ∈ docs, kept i = false → f c i = some c :=
        fun c i hi => hskip c i (List.mem_cons_of_mem _ hi)
      cases hj : kept j with
      | false =>
          rw [List.filter_cons_of_neg (by simp [hj])] at hroom ⊢
          rw [List.foldlM_cons, hskip c j List.mem_cons_self hj]
          exact ih hkept' hskip' h hroom
      | true =>
          rw [List.filter_cons_of_pos hj] at hroom ⊢
          simp only [List.length_cons] at hroom
          obtain ⟨c₁, hc₁, hp₁, hm₁⟩ := visitDoc_spec h (flag j) (by omega)
          obtain ⟨c₂, hc₂, hp₂, hm₂⟩ := ih hkept' hskip' hp₁ (by
            rw [hm₁, List.length_append, List.length_singleton]
            omega)
          refine ⟨c₂, ?_, ?_, hm₂.trans hm₁⟩
          · rw [List.foldlM_cons, hkept c j List.mem_cons_self hj, hc₁]
            exact hc₂
          · simpa [List.append_assoc] using hp₂

/-! ### One segment

Whichever of the four cases runs, the cursor passes exactly the kept documents of the segment. -/

theorem isDeleted_false_of_not_hasDeletions {r : SegmentReader} (h : r.hasDeletions = false)
    (j : Nat) : r.isDeleted j = false := by
  have hnone : r.deletedDocs = none := by
    simpa [SegmentReader.hasDeletions] using h
  simp [SegmentReader.isDeleted, hnone]

theorem SourceSegment.length_kept (s : SourceSegment) :
    s.kept.length = s.docCount - s.previousReader.numDeletedDocs := by
  have hsplit : (List.range s.docCount).length = _ :=
    List.length_eq_countP_add_countP s.previousReader.isDeleted
  rw [SegmentReader.numDeletedDocs_eq_countP, s.previous_maxDoc, SourceSegment.kept,
    ← List.countP_eq_length_filter]
  simp only [List.length_range, Bool.not_eq_true, Bool.decide_eq_false] at hsplit
  omega

/-- A superset of the deletes of the same size is the same set, so no kept document is deleted. -/
theorem SourceSegment.kept_not_deleted (s : SourceSegment)
    (hle : s.currentReader.numDeletedDocs ≤ s.previousReader.numDeletedDocs) :
    ∀ j ∈ s.kept, s.currentReader.isDeleted j = false := by
  rw [SegmentReader.numDeletedDocs_eq_countP, SegmentReader.numDeletedDocs_eq_countP, s.previous_maxDoc, s.current_maxDoc] at hle
  intro j hj
  obtain ⟨hmem, hprev⟩ := List.mem_filter.mp hj
  rw [Bool.not_eq_true'] at hprev
  by_contra hcur
  rw [Bool.not_eq_false] at hcur
  have hlt : (List.range s.docCount).countP s.previousReader.isDeleted <
      (List.range s.docCount).countP s.currentReader.isDeleted := by
    rw [List.countP_eq_length_filter, List.countP_eq_length_filter]
    have hsub := List.monotone_filter_right (List.range s.docCount) s.subset
    refine lt_of_le_of_ne hsub.length_le fun hlen => ?_
    have hin : j ∈ (List.range s.docCount).filter s.currentReader.isDeleted :=
      List.mem_filter.mpr ⟨hmem, hcur⟩
    rw [← hsub.eq_of_length hlen, List.mem_filter, hprev] at hin
    exact Bool.false_ne_true hin.2
  omega

theorem map_eq_replicate_false {l : List Nat} {f : Nat → Bool} (h : ∀ j ∈ l, f j = false) :
    l.map f = List.replicate l.length false :=
  List.map_eq_replicate_iff.mpr h

theorem visitSegment_spec {c : Cursor} {flags : List Bool} (h : Passed c flags) (s : SourceSegment)
    (hroom : flags.length + s.kept.length ≤ c.mergeReader.maxDoc) :
    ∃ c', visitSegment c s = some c' ∧
      Passed c' (flags ++ s.kept.map s.currentReader.isDeleted) ∧
      c'.mergeReader.maxDoc = c.mergeReader.maxDoc := by
  unfold visitSegment
  cases hprev : s.previousReader.hasDeletions with
  | true =>
      by_cases hnew : s.currentReader.numDeletedDocs > s.previousReader.numDeletedDocs
      · rw [if_pos rfl, if_pos hnew]
        refine foldlM_visit (List.range s.docCount) ?_ ?_ h hroom
        · intro c j _ hj
          rw [Bool.not_eq_true'] at hj
          simp [visitOldDeletes, hj]
        · intro c j _ hj
          rw [Bool.not_eq_false'] at hj
          simp [visitOldDeletes, hj, s.subset j hj]
      · rw [if_pos rfl, if_neg hnew, ← s.length_kept,
          map_eq_replicate_false (s.kept_not_deleted (by omega))]
        exact ⟨_, rfl, h.advance hroom, rfl⟩
  | false =>
      have hall : s.kept = List.range s.docCount := List.filter_eq_self.mpr fun j _ => by
        simp [isDeleted_false_of_not_hasDeletions hprev]
      rw [if_neg Bool.false_ne_true]
      cases hcur : s.currentReader.hasDeletions with
      | true =>
          rw [if_pos rfl]
          refine foldlM_visit (List.range s.docCount) (fun c j _ _ => rfl) ?_ h hroom
          intro c j _ hj
          simp [isDeleted_false_of_not_hasDeletions hprev] at hj
      | false =>
          have hlen : s.kept.length = s.docCount := by rw [hall, List.length_range]
          rw [if_neg Bool.false_ne_true, map_eq_replicate_false fun j _ =>
            isDeleted_false_of_not_hasDeletions hcur j, hlen]
          exact ⟨_, rfl, h.advance (hlen ▸ hroom), rfl⟩

theorem map_deletedNow_compaction (sourceSegments : List SourceSegment) :
    (compaction sourceSegments).map deletedNow =
      sourceSegments.flatMap fun s => s.kept.map s.currentReader.isDeleted := by
  simp only [compaction, List.map_flatMap, List.map_map]
  rfl

theorem foldlM_visitSegment {c : Cursor} {flags : List Bool} (h : Passed c flags)
    (sourceSegments : List SourceSegment)
    (hroom : flags.length + (compaction sourceSegments).length ≤ c.mergeReader.maxDoc) :
    ∃ c', sourceSegments.foldlM visitSegment c = some c' ∧
      Passed c' (flags ++ (compaction sourceSegments).map deletedNow) ∧
      c'.mergeReader.maxDoc = c.mergeReader.maxDoc := by
  induction sourceSegments generalizing c flags with
  | nil => exact ⟨c, rfl, by simpa [compaction] using h, rfl⟩
  | cons s segs ih =>
      have hsplit : (compaction (s :: segs)).length = s.kept.length + (compaction segs).length := by
        simp [compaction]
      obtain ⟨c₁, hc₁, hp₁, hm₁⟩ := visitSegment_spec h s (by omega)
      obtain ⟨c₂, hc₂, hp₂, hm₂⟩ := ih hp₁ (by
        rw [hm₁, List.length_append, List.length_map]
        omega)
      refine ⟨c₂, ?_, ?_, hm₂.trans hm₁⟩
      · rw [List.foldlM_cons, hc₁]
        exact hc₂
      · rw [map_deletedNow_compaction, List.flatMap_cons, ← List.append_assoc,
          ← map_deletedNow_compaction]
        exact hp₂

/-- For every list of source segments, `commitMergedDeletes` raises nothing and trips no assertion,
passes every merged document number exactly once, and leaves the merged segment with exactly those
documents deleted whose source is deleted now. The merged reader is the one of the segment the merge
has just written: one document for each kept one, none of them deleted. -/
theorem commitMergedDeletes_spec (sourceSegments : List SourceSegment) (mergeReader : SegmentReader)
    (hcount : mergeReader.maxDoc = (compaction sourceSegments).length)
    (hfresh : mergeReader.hasDeletions = false) :
    ∃ c, commitMergedDeletes sourceSegments mergeReader = some c ∧
      c.visited = List.range (compaction sourceSegments).length ∧
      c.docUpto = (compaction sourceSegments).length ∧
      (∀ d, c.mergeReader.isDeleted d = true ↔
        ∃ h : d < (compaction sourceSegments).length,
          deletedNow (compaction sourceSegments)[d] = true) ∧
      c.mergeReader.hasChanges = (compaction sourceSegments).any deletedNow := by
  obtain ⟨c, hc, hp, hm⟩ := foldlM_visitSegment (Passed.init mergeReader hfresh) sourceSegments
    (by simp [hcount])
  have hbits : c.mergeReader.writableDeletedDocs.bits =
      (compaction sourceSegments).map deletedNow := by
    rw [hp.bits_eq, hm, hcount]
    simp
  have hdel : c.mergeReader.numDeletedDocs = c.delCount := by
    rw [SegmentReader.numDeletedDocs_eq_count, BitVector.count, hbits, hp.delCount_eq,
      List.nil_append]
  refine ⟨_, by simp only [commitMergedDeletes, hc, Option.bind_eq_bind, Option.bind_some, if_pos hdel]; rfl,
    ?_, ?_, ?_, ?_⟩
  · simpa using hp.visited_eq
  · simpa using hp.docUpto_eq
  · intro d
    show c.mergeReader.isDeleted d = true ↔ _
    rw [SegmentReader.isDeleted_eq_get, BitVector.get, hbits, List.getD_eq_getElem?_getD,
      List.getElem?_map]
    by_cases hd : d < (compaction sourceSegments).length
    · simp [hd]
    · simp [hd]
  · show decide (0 < c.delCount) = _
    rw [hp.delCount_eq, List.nil_append, Bool.eq_iff_iff, decide_eq_true_iff, List.count_pos_iff,
      List.any_eq_true]
    simp

/-- A segment that lost document 0 before the merge and document 2 during it. -/
def deletedDuringMerge : SourceSegment where
  docCount := 3
  previousReader := .ofBits [true, false, false]
  currentReader := .ofBits [true, false, true]
  previous_maxDoc := rfl
  current_maxDoc := rfl
  subset j hj := by
    match j with
    | 0 => rfl
    | 1 | 2 => cases hj
    | j + 3 => cases hj

/-- A segment without deletes when the merge started that has lost document 1 since. -/
def firstDeleteDuringMerge : SourceSegment where
  docCount := 2
  previousReader := .fresh 2
  currentReader := .ofBits [false, true]
  previous_maxDoc := rfl
  current_maxDoc := rfl
  subset j hj := by cases hj

theorem commitMergedDeletes_two_segments :
    ∃ c, commitMergedDeletes [deletedDuringMerge, firstDeleteDuringMerge] (.fresh 4) = some c ∧
      c.visited = [0, 1, 2, 3] ∧ c.mergeReader.isDeleted 1 = true ∧
      c.mergeReader.isDeleted 2 = false ∧ c.mergeReader.isDeleted 3 = true := by
  obtain ⟨c, hc, hvisited, -, hdel, -⟩ :=
    commitMergedDeletes_spec [deletedDuringMerge, firstDeleteDuringMerge] (.fresh 4)
      (by decide) rfl
  refine ⟨c, hc, hvisited, (hdel 1).mpr ⟨by decide, by decide⟩, ?_, (hdel 3).mpr ⟨by decide, by decide⟩⟩
  rw [← Bool.not_eq_true, hdel]
  decide

end LucenePlusPlus.MergedDeletes
