import LucenePlusPlus.MergeDocIDRemapper

/-!
A document that a merge leaves has the number that the remapper gives for it, and the remapped deletes select the
documents that they selected. A limit that is the number of a document that the merge has removed is another matter.
-/

namespace LucenePlusPlus.MergeDocIDRemapper
open PostingsMerge

section Rank
variable {α : Type} {q : α → Bool} {l l' : List α} {n : Nat} {a : α}

/-- The number of a place when only what satisfies `q` is left, also of one behind the end. -/
def rank (q : α → Bool) (l : List α) (n : Nat) : Nat := (l.take n).countP q + (n - l.length)

theorem rank_append_of_lt (h : n < l.length) : rank q (l ++ l') n = rank q l n := by
  rw [rank, rank, List.take_append_of_le_length h.le, List.length_append]
  omega

theorem rank_append_of_le (h : l.length ≤ n) : rank q (l ++ l') n = l.countP q + rank q l' (n - l.length) := by
  rw [rank, rank, List.take_append, List.take_of_length_le h, List.countP_append, List.length_append]
  omega

theorem rank_of_all (h : ∀ x ∈ l, q x = true) (n : Nat) : rank q l n = n := by
  rw [rank, List.countP_eq_length.mpr fun x hx => h x (List.mem_of_mem_take hx), List.length_take]
  omega

theorem rank_map {β : Type} (f : β → α) (l : List β) (n : Nat) : rank q (l.map f) n = rank (q ∘ f) l n := by
  rw [rank, rank, ← List.map_take, List.countP_map, List.length_map]

theorem take_rank (l : List α) (n : Nat) : (l.filter q).take (rank q l n) = (l.take n).filter q := by
  have hsplit : l.filter q = (l.take n).filter q ++ (l.drop n).filter q := by
    rw [← List.filter_append, List.take_append_drop]
  rcases Nat.lt_or_ge l.length n with hlt | hge
  · rw [List.take_of_length_le hlt.le, List.take_of_length_le]
    rw [rank, List.take_of_length_le hlt.le, List.countP_eq_length_filter]
    exact Nat.le_add_right _ _
  · rw [rank, Nat.sub_eq_zero_of_le hge, Nat.add_zero, hsplit, List.countP_eq_length_filter, List.take_left]

theorem getElem?_rank (h : ∀ a, l[n]? = some a → q a = true) : (l.filter q)[rank q l n]? = l[n]? := by
  rcases Nat.lt_or_ge n l.length with hlt | hge
  · have hsplit : l = l.take n ++ l[n] :: l.drop (n + 1) := by
      rw [List.getElem_cons_drop, List.take_append_drop]
    have hkept := h l[n] (List.getElem?_eq_getElem hlt)
    rw [rank, Nat.sub_eq_zero_of_le hlt.le, Nat.add_zero, List.getElem?_eq_getElem hlt]
    conv_lhs =>
      rw [hsplit]
    rw [List.filter_append, List.filter_cons_of_pos hkept, ← hsplit, List.countP_eq_length_filter,
      List.getElem?_append_right le_rfl, Nat.sub_self, List.getElem?_cons_zero]
  · rw [List.getElem?_eq_none hge, List.getElem?_eq_none]
    rw [rank, List.take_of_length_le hge, List.countP_eq_length_filter]
    exact Nat.le_add_right _ _

end Rank

section Merged
variable {Id : Type}

/-- For each document of the segments, if it is not deleted. -/
def live (segments : List (SegmentInfo Id × SegmentReader)) : List Bool :=
  segments.flatMap fun segment => (List.range segment.1.docCount).map fun n => !segment.2.isDeleted n

theorem rank_live (reader : SegmentReader) (docCount : Nat) {n : Nat} (h : n ≤ docCount) :
    rank id ((List.range docCount).map fun n => !reader.isDeleted n) n = compacted reader n := by
  rw [rank_map, rank, List.length_range, Nat.sub_eq_zero_of_le h, Nat.add_zero, List.take_range, min_eq_left h]
  rfl

theorem countP_live {reader : SegmentReader} {docCount : Nat} (h : reader.maxDoc = docCount) :
    ((List.range docCount).map fun n => !reader.isDeleted n).countP id = reader.numDocs := by
  rw [List.countP_map, ← compacted_maxDoc, h]
  rfl

theorem docCount_sub_delCount {reader : SegmentReader} {docCount : Nat} (h : reader.maxDoc = docCount) :
    (docCount : Int) - (if reader.hasDeletions then (reader.maxDoc : Int) - reader.numDocs else 0) = reader.numDocs := by
  split_ifs with hdeletions
  · rw [h]
    omega
  · rw [sub_zero, ← h, ← compacted_maxDoc, compacted_of_hasDeletions (Bool.eq_false_iff.mpr hdeletions)]

theorem upperBound_cons_of_le {start oldDocID : Int} {starts : List Int} (h : start ≤ oldDocID) :
    upperBound (start :: starts) oldDocID = upperBound starts oldDocID + 1 := by
  rw [upperBound, List.takeWhile_cons_of_pos (by simpa using h), List.length_cons, upperBound]

theorem upperBound_startsFrom_of_lt {start oldDocID : Int} (docCounts : List Int) (h : oldDocID < start) :
    upperBound (startsFrom start docCounts) oldDocID = 0 := by
  cases docCounts with
  | nil => rfl
  | cons docCount docCounts =>
      rw [startsFrom, upperBound, List.takeWhile_cons_of_neg (by simpa using h), List.length_nil]

theorem remapMerged_head {start newStart oldDocID : Int} {starts newStarts : List Int}
    {docMaps : List (Option (List Int))} {docMap : Option (List Int)} (h : upperBound starts oldDocID = 0)
    (hle : start ≤ oldDocID) :
    remapMerged (start :: starts) (newStart :: newStarts) (docMap :: docMaps) oldDocID =
      match docMap with
      | some map => newStart + map.getD (oldDocID - start).toNat 0
      | none => newStart + oldDocID - start := by
  rw [remapMerged, upperBound_cons_of_le hle, h]
  rfl

theorem remapMerged_tail {start newStart oldDocID : Int} {starts newStarts : List Int}
    {docMaps : List (Option (List Int))} {docMap : Option (List Int)} (h : upperBound starts oldDocID ≠ 0)
    (hle : start ≤ oldDocID) :
    remapMerged (start :: starts) (newStart :: newStarts) (docMap :: docMaps) oldDocID =
      remapMerged starts newStarts docMaps oldDocID := by
  obtain ⟨index, hindex⟩ := Nat.exists_eq_succ_of_ne_zero h
  rw [remapMerged, remapMerged, upperBound_cons_of_le hle, hindex]
  rfl

/-- The binary search finds the segment of a document; its number there is that of `mapDoc`. -/
theorem remapMerged_eq {segments : List (SegmentInfo Id × SegmentReader)} (start newStart : Int) {n : Nat}
    (hmaxDoc : ∀ segment ∈ segments, segment.2.maxDoc = segment.1.docCount) (hlive : (live segments)[n]? = some true) :
    remapMerged (startsFrom start (segments.map fun segment => (segment.1.docCount : Int)))
        (startsFrom newStart (segments.map fun segment => (segment.2.numDocs : Int)))
        (segments.map fun segment => SegmentMergeInfo.getDocMap segment.2) (start + n) =
      newStart + rank id (live segments) n := by
  induction segments generalizing start newStart n with
  | nil => cases hlive
  | cons segment segments ih =>
      have hhead := hmaxDoc segment List.mem_cons_self
      have hlength : ((List.range segment.1.docCount).map fun n => !segment.2.isDeleted n).length =
          segment.1.docCount := by
        rw [List.length_map, List.length_range]
      rw [live, List.flatMap_cons] at hlive ⊢
      rw [List.map_cons, List.map_cons, List.map_cons, startsFrom, startsFrom]
      rcases Nat.lt_or_ge n segment.1.docCount with hlt | hge
      · have hbefore : upperBound (startsFrom (start + segment.1.docCount)
            (segments.map fun segment => (segment.1.docCount : Int))) (start + n) = 0 :=
          upperBound_startsFrom_of_lt _ (by omega)
        rw [List.getElem?_append_left (hlength.symm ▸ hlt), List.getElem?_map, List.getElem?_range hlt] at hlive
        have hnot : segment.2.isDeleted n = false := by simpa using hlive
        have hmap := mapDoc_eq (hhead.symm ▸ hlt) hnot
        rw [remapMerged_head hbefore (by omega), rank_append_of_lt (hlength.symm ▸ hlt), rank_live _ _ hlt.le]
        rw [SegmentMergeInfo.mapDoc] at hmap
        have htoNat : (start + (n : Int) - start).toNat = n := by omega
        generalize SegmentMergeInfo.getDocMap segment.2 = docMap at hmap ⊢
        cases docMap with
        | none =>
            dsimp only at hmap ⊢
            omega
        | some docMap =>
            dsimp only at hmap ⊢
            rw [htoNat, hmap]
      · rw [List.getElem?_append_right (hlength.symm ▸ hge), hlength] at hlive
        have hnonempty : segments ≠ [] := by
          rintro rfl
          cases hlive
        obtain ⟨next, segments', rfl⟩ := List.exists_cons_of_ne_nil hnonempty
        have hfound : upperBound (startsFrom (start + segment.1.docCount)
            ((next :: segments').map fun segment => (segment.1.docCount : Int))) (start + n) ≠ 0 := by
          rw [List.map_cons, startsFrom, upperBound_cons_of_le (by omega)]
          exact Nat.succ_ne_zero _
        have hrest := ih (start + segment.1.docCount) (newStart + segment.2.numDocs)
          (fun segment hmem => hmaxDoc segment (List.mem_cons_of_mem _ hmem)) hlive
        have hplace : start + (segment.1.docCount : Int) + ((n - segment.1.docCount : Nat) : Int) = start + n := by omega
        rw [hplace] at hrest
        rw [remapMerged_tail hfound (by omega), hrest, rank_append_of_le (hlength.symm ▸ hge), hlength,
          countP_live hhead, Nat.cast_add, add_assoc]
        rfl

theorem countP_live_segments {segments : List (SegmentInfo Id × SegmentReader)}
    (hmaxDoc : ∀ segment ∈ segments, segment.2.maxDoc = segment.1.docCount) :
    ((live segments).countP id : Int) = mergedDocCount (segments.map Prod.snd) := by
  induction segments with
  | nil => rfl
  | cons segment segments ih =>
      have hhead := countP_live (hmaxDoc segment List.mem_cons_self)
      have htail := ih fun segment hmem => hmaxDoc segment (List.mem_cons_of_mem _ hmem)
      rw [live, List.flatMap_cons, List.countP_append, hhead, Nat.cast_add]
      rw [live] at htail
      rw [htail]
      rfl

end Merged

/-- A document, by the segment that it was flushed to, or by its number in RAM. -/
inductive Document (Id : Type) where
  | flushed (segment : Id) (n : Nat)
  | buffered (n : Nat)
  deriving DecidableEq

/-- Neighbouring segments that are merged, with the readers that the merge has read. -/
structure Merge (Id : Type) where
  before : List (SegmentInfo Id)
  merged : List (SegmentInfo Id × SegmentReader)
  after : List (SegmentInfo Id)
  numDocsInRAM : Nat
  merged_ne : merged ≠ []
  maxDoc_eq : ∀ segment ∈ merged, segment.2.maxDoc = segment.1.docCount
  nodup : ((before ++ merged.map Prod.fst ++ after).map SegmentInfo.id).Nodup

namespace Merge
variable {Id : Type} (merge : Merge Id)

def infos : List (SegmentInfo Id) := merge.before ++ merge.merged.map Prod.fst ++ merge.after

def readers : List SegmentReader := merge.merged.map Prod.snd

def documentsOf (info : SegmentInfo Id) : List (Document Id) := (List.range info.docCount).map (.flushed info.id)

def buffered : List (Document Id) := (List.range merge.numDocsInRAM).map .buffered

/-- The documents by their numbers. -/
def documents : List (Document Id) := merge.infos.flatMap documentsOf ++ merge.buffered

/-- The documents that are written for a segment. -/
def kept (segment : SegmentInfo Id × SegmentReader) : List (Document Id) :=
  ((List.range segment.1.docCount).filter fun n => !segment.2.isDeleted n).map (.flushed segment.1.id)

/-- The documents by their numbers when the merged segment is in the place of the others. -/
def committed : List (Document Id) :=
  merge.before.flatMap documentsOf ++ merge.merged.flatMap kept ++ merge.after.flatMap documentsOf ++ merge.buffered

variable [DecidableEq Id]

/-- The document is not one that the merge removes. -/
def survives : Document Id → Bool
  | .flushed id n => merge.merged.all fun segment => segment.1.id ≠ id ∨ !segment.2.isDeleted n
  | .buffered _ => true

/-- `remapDeletes`, as `commitMerge` calls it. -/
def remapDeletes {Term Query : Type} (writer : Writer Term Query) : Option (Writer Term Query) :=
  MergeDocIDRemapper.remapDeletes writer merge.infos (getDocMaps merge.readers) (getDelCounts merge.readers)
    (merge.merged.map Prod.fst) (mergedDocCount merge.readers)

variable {merge}

theorem survives_of_ne {info : SegmentInfo Id} (h : ∀ segment ∈ merge.merged, segment.1.id ≠ info.id) :
    ∀ document ∈ documentsOf info, merge.survives document = true := by
  intro document hmem
  obtain ⟨n, -, rfl⟩ := List.mem_map.mp hmem
  rw [survives, List.all_eq_true]
  intro segment hsegment
  simpa using Or.inl (h segment hsegment)

omit [DecidableEq Id] in
theorem ids_nodup (merge : Merge Id) : (merge.before.map SegmentInfo.id ++
    (merge.merged.map (fun segment => segment.1.id) ++ merge.after.map SegmentInfo.id)).Nodup := by
  have hnodup := merge.nodup
  rwa [List.map_append, List.map_append, List.append_assoc, List.map_map] at hnodup

omit [DecidableEq Id] in
theorem before_ne {info : SegmentInfo Id} (h : info ∈ merge.before) :
    ∀ segment ∈ merge.merged, segment.1.id ≠ info.id := by
  intro segment hsegment heq
  exact (List.nodup_append.mp merge.ids_nodup).2.2 _ (List.mem_map_of_mem h) _
    (List.mem_append_left _ (List.mem_map_of_mem hsegment)) heq.symm

omit [DecidableEq Id] in
theorem after_ne {info : SegmentInfo Id} (h : info ∈ merge.after) :
    ∀ segment ∈ merge.merged, segment.1.id ≠ info.id := by
  intro segment hsegment
  have hbehind := (List.nodup_append.mp merge.ids_nodup).2.1
  exact (List.nodup_append.mp hbehind).2.2 _ (List.mem_map_of_mem hsegment) _ (List.mem_map_of_mem h)

theorem survives_flushed {segment : SegmentInfo Id × SegmentReader} (h : segment ∈ merge.merged) (n : Nat) :
    merge.survives (.flushed segment.1.id n) = !segment.2.isDeleted n := by
  have hmerged := (List.nodup_append.mp (List.nodup_append.mp merge.ids_nodup).2.1).1
  rw [Bool.eq_iff_iff, survives, List.all_eq_true]
  constructor
  · intro hall
    simpa using hall segment h
  · intro hlive segment' hmem
    rw [decide_eq_true_iff]
    by_cases heq : segment'.1.id = segment.1.id
    · rw [List.inj_on_of_nodup_map hmerged hmem h heq]
      exact Or.inr hlive
    · exact Or.inl heq

theorem map_survives (merge : Merge Id) (segments : List (SegmentInfo Id × SegmentReader))
    (h : ∀ segment ∈ segments, segment ∈ merge.merged) :
    ((segments.map Prod.fst).flatMap documentsOf).map merge.survives = live segments := by
  rw [live, List.flatMap_map, List.map_flatMap]
  apply List.flatMap_congr
  intro segment hsegment
  rw [documentsOf, List.map_map]
  apply List.map_congr_left
  intro n _
  exact survives_flushed (h segment hsegment) n

theorem filter_merged : ((merge.merged.map Prod.fst).flatMap documentsOf).filter merge.survives =
    merge.merged.flatMap kept := by
  rw [List.flatMap_map, List.filter_flatMap]
  apply List.flatMap_congr
  intro segment hsegment
  rw [documentsOf, kept, List.filter_map]
  congr 1
  apply List.filter_congr
  intro n _
  exact survives_flushed hsegment n

theorem committed_eq (merge : Merge Id) : merge.committed = merge.documents.filter merge.survives := by
  have hbefore : (merge.before.flatMap documentsOf).filter merge.survives = merge.before.flatMap documentsOf := by
    rw [List.filter_eq_self]
    intro document hmem
    obtain ⟨info, hinfo, hmem⟩ := List.mem_flatMap.mp hmem
    exact survives_of_ne (before_ne hinfo) document hmem
  have hafter : (merge.after.flatMap documentsOf).filter merge.survives = merge.after.flatMap documentsOf := by
    rw [List.filter_eq_self]
    intro document hmem
    obtain ⟨info, hinfo, hmem⟩ := List.mem_flatMap.mp hmem
    exact survives_of_ne (after_ne hinfo) document hmem
  have hbuffered : merge.buffered.filter merge.survives = merge.buffered := by
    rw [List.filter_eq_self]
    intro document hmem
    obtain ⟨n, -, rfl⟩ := List.mem_map.mp hmem
    rfl
  rw [committed, documents, infos, List.flatMap_append, List.flatMap_append, List.filter_append, List.filter_append,
    List.filter_append, hbefore, hafter, hbuffered, filter_merged]

/-! ### The remapper of a merge -/

def docCount (infos : List (SegmentInfo Id)) : Nat := (infos.map SegmentInfo.docCount).sum

omit [DecidableEq Id] in
theorem length_documentsOf (infos : List (SegmentInfo Id)) : (infos.flatMap documentsOf).length = docCount infos := by
  rw [List.length_flatMap, docCount]
  congr 1
  apply List.map_congr_left
  intro info _
  rw [documentsOf, List.length_map, List.length_range]

omit [DecidableEq Id] in
theorem cast_docCount (infos : List (SegmentInfo Id)) :
    (infos.map fun info => (info.docCount : Int)).sum = docCount infos := by
  induction infos with
  | nil => rfl
  | cons info infos ih =>
      rw [List.map_cons, List.sum_cons, ih, docCount, docCount, List.map_cons, List.sum_cons, Nat.cast_add]

theorem locate_eq {firstSegment : SegmentInfo Id} {before : List (SegmentInfo Id)} (rest : List (SegmentInfo Id))
    (start : Int) (h : ∀ info ∈ before, info.id ≠ firstSegment.id) :
    locate firstSegment (before ++ firstSegment :: rest) start =
      some (start + docCount before, firstSegment :: rest) := by
  induction before generalizing start with
  | nil =>
      rw [List.nil_append, locate, if_pos rfl, docCount, List.map_nil, List.sum_nil, Nat.cast_zero, add_zero]
  | cons info before ih =>
      rw [List.cons_append, locate, if_neg (h info List.mem_cons_self),
        ih _ fun info hmem => h info (List.mem_cons_of_mem _ hmem), docCount, docCount, List.map_cons, List.sum_cons,
        Nat.cast_add, add_assoc]

omit [DecidableEq Id] in
theorem newStarts_eq {segments : List (SegmentInfo Id × SegmentReader)}
    (hmaxDoc : ∀ segment ∈ segments, segment.2.maxDoc = segment.1.docCount) :
    List.zipWith (fun (info : SegmentInfo Id) delCount => (info.docCount : Int) - delCount) (segments.map Prod.fst)
        (getDelCounts (segments.map Prod.snd)) = segments.map fun segment => (segment.2.numDocs : Int) := by
  rw [getDelCounts, List.map_map, List.zipWith_map, List.zipWith_self]
  apply List.map_congr_left
  intro segment hmem
  exact docCount_sub_delCount (hmaxDoc segment hmem)

theorem new_eq {docMaps : List (Option (List Int))} (h : getDocMaps merge.readers = some docMaps) :
    new merge.infos docMaps (getDelCounts merge.readers) (merge.merged.map Prod.fst) (mergedDocCount merge.readers) =
      some
        { starts := startsFrom (docCount merge.before) (merge.merged.map fun segment => (segment.1.docCount : Int))
          newStarts := startsFrom (docCount merge.before) (merge.merged.map fun segment => (segment.2.numDocs : Int))
          docMaps := merge.merged.map fun segment => SegmentMergeInfo.getDocMap segment.2
          minDocID := docCount merge.before
          maxDocID := docCount merge.before + docCount (merge.merged.map Prod.fst)
          docShift := docCount (merge.merged.map Prod.fst) - mergedDocCount merge.readers } := by
  have hmaps : docMaps = merge.merged.map fun segment => SegmentMergeInfo.getDocMap segment.2 := by
    rw [getDocMaps] at h
    split_ifs at h
    rw [← Option.some.inj h, readers, List.map_map]
    rfl
  have hlocate : (merge.merged.map Prod.fst).head?.bind (fun firstSegment => locate firstSegment merge.infos 0) =
      some ((docCount merge.before : Int), merge.merged.map Prod.fst ++ merge.after) := by
    obtain ⟨first, rest, hmerged⟩ := List.exists_cons_of_ne_nil merge.merged_ne
    have hne : ∀ info ∈ merge.before, info.id ≠ first.1.id := fun info hinfo =>
      (before_ne hinfo first (hmerged ▸ List.mem_cons_self)).symm
    rw [infos, hmerged, List.map_cons, List.head?_cons, Option.bind_some, List.append_assoc, List.cons_append,
      locate_eq _ _ hne, zero_add]
  have hlength : docMaps.length = (merge.merged.map Prod.fst).length := by
    rw [hmaps, List.length_map, List.length_map]
  rw [new, hlocate]
  dsimp only
  rw [if_neg (by rw [List.length_append]; omega), hlength, List.take_left, cast_docCount, readers,
    newStarts_eq merge.maxDoc_eq, hmaps, List.map_map]
  rfl

theorem remap_eq {docMaps : List (Option (List Int))} {mapper : MergeDocIDRemapper}
    (h : getDocMaps merge.readers = some docMaps)
    (hmapper : new merge.infos docMaps (getDelCounts merge.readers) (merge.merged.map Prod.fst)
      (mergedDocCount merge.readers) = some mapper) {n : Nat}
    (hsurvives : ∀ document, merge.documents[n]? = some document → merge.survives document = true) :
    mapper.remap n = rank merge.survives merge.documents n := by
  rw [new_eq h, Option.some.injEq] at hmapper
  subst hmapper
  have hbefore : ∀ document ∈ merge.before.flatMap documentsOf, merge.survives document = true := by
    intro document hmem
    obtain ⟨info, hinfo, hmem⟩ := List.mem_flatMap.mp hmem
    exact survives_of_ne (before_ne hinfo) document hmem
  have hbehind : ∀ document ∈ merge.after.flatMap documentsOf ++ merge.buffered, merge.survives document = true := by
    intro document hmem
    rcases List.mem_append.mp hmem with hmem | hmem
    · obtain ⟨info, hinfo, hmem⟩ := List.mem_flatMap.mp hmem
      exact survives_of_ne (after_ne hinfo) document hmem
    · obtain ⟨n, -, rfl⟩ := List.mem_map.mp hmem
      rfl
  have hdocuments : merge.documents = merge.before.flatMap documentsOf ++
      ((merge.merged.map Prod.fst).flatMap documentsOf ++ (merge.after.flatMap documentsOf ++ merge.buffered)) := by
    rw [documents, infos, List.flatMap_append, List.flatMap_append, List.append_assoc, List.append_assoc]
  have hmap := map_survives merge merge.merged fun segment hmem => hmem
  have hlength := length_documentsOf merge.before
  have hlength' := length_documentsOf (merge.merged.map Prod.fst)
  rw [hdocuments] at hsurvives ⊢
  rw [remap]
  dsimp only
  rcases Nat.lt_or_ge n (docCount merge.before) with hlt | hge
  · rw [if_pos (by omega), rank_append_of_lt (hlength.symm ▸ hlt), rank_of_all hbefore]
  · rw [if_neg (by omega), rank_append_of_le (hlength.symm ▸ hge), List.countP_eq_length.mpr hbefore, hlength]
    rw [List.getElem?_append_right (hlength.symm ▸ hge), hlength] at hsurvives
    rcases Nat.lt_or_ge (n - docCount merge.before) (docCount (merge.merged.map Prod.fst)) with hlt | hge'
    · have hinside := hlength'.symm ▸ hlt
      rw [List.getElem?_append_left hinside, List.getElem?_eq_getElem hinside] at hsurvives
      have hlive : (live merge.merged)[n - docCount merge.before]? = some true := by
        rw [← hmap, List.getElem?_map, List.getElem?_eq_getElem hinside, Option.map_some, hsurvives _ rfl]
      have hmerged := remapMerged_eq (docCount merge.before) (docCount merge.before) merge.maxDoc_eq hlive
      have hplace : (docCount merge.before : Int) + ((n - docCount merge.before : Nat) : Int) = n := by omega
      rw [hplace] at hmerged
      rw [if_neg (by omega), rank_append_of_lt hinside, hmerged, ← hmap, rank_map, Nat.cast_add]
      rfl
    · have hnumDocs := countP_live_segments merge.maxDoc_eq
      rw [← hmap, List.countP_map] at hnumDocs
      rw [if_pos (by omega), rank_append_of_le (hlength'.symm ▸ hge'), rank_of_all hbehind, hlength', readers, ← hnumDocs]
      change _ = ((_ + (((merge.merged.map Prod.fst).flatMap documentsOf).countP (id ∘ merge.survives) + _) : Nat) : Int)
      omega

/-- The document with this number. -/
def numbered (documents : List (Document Id)) (docID : Int) : Option (Document Id) :=
  if docID < 0 then none else documents[docID.toNat]?

/-- The merge removes the document with this number. -/
def Removes (merge : Merge Id) (docID : Int) : Prop :=
  ∃ document, numbered merge.documents docID = some document ∧ merge.survives document = false

/-- How many documents the merge removes. -/
def removed (merge : Merge Id) : Nat := merge.documents.countP fun document => !merge.survives document

/-- The number of the same document afterwards. As a limit, it has the same documents before it. -/
structure Follows (merge : Merge Id) (docID docID' : Int) : Prop where
  numbered_eq : numbered merge.committed docID' = numbered merge.documents docID
  take_eq : merge.committed.take docID'.toNat = (merge.documents.take docID.toNat).filter merge.survives
  unchanged : docID < docCount merge.before → docID' = docID
  shifted : docCount merge.before + docCount (merge.merged.map Prod.fst) ≤ docID → docID' = docID - merge.removed

/-- A limit that is not the number of a removed document has the same documents before it, as far as they are left. -/
def KeepsLimit (merge : Merge Id) (limit limit' : Int) : Prop :=
  ¬ merge.Removes limit →
    merge.committed.take limit'.toNat = (merge.documents.take limit.toNat).filter merge.survives

/-- The deletes select the documents that they have selected. -/
structure KeepsSelecting {Term Query : Type} (merge : Merge Id) (deletes deletes' : Deletes Term Query) : Prop where
  terms : ∀ term, Option.Rel merge.KeepsLimit (deletes.terms term) (deletes'.terms term)
  queries : ∀ query, Option.Rel merge.KeepsLimit (deletes.queries query) (deletes'.queries query)
  docIDs : List.Forall₂ (fun docID docID' => ¬ merge.Removes docID →
    numbered merge.committed docID' = numbered merge.documents docID) deletes.docIDs deletes'.docIDs

omit [DecidableEq Id] in
theorem numbered_cast (documents : List (Document Id)) (n : Nat) : numbered documents n = documents[n]? := by
  rw [numbered, if_neg (by omega), Int.toNat_natCast]

omit [DecidableEq Id] in
theorem numbered_of_neg (documents : List (Document Id)) {docID : Int} (h : docID < 0) :
    numbered documents docID = none := if_pos h

theorem survives_of_not_removes {n : Nat} (h : ¬ merge.Removes n) (document : Document Id)
    (hdocument : merge.documents[n]? = some document) : merge.survives document = true := by
  by_contra hnot
  exact h ⟨document, by rw [numbered_cast, hdocument], Bool.eq_false_iff.mpr hnot⟩

theorem docShift_eq {docMaps : List (Option (List Int))} {mapper : MergeDocIDRemapper}
    (h : getDocMaps merge.readers = some docMaps)
    (hmapper : new merge.infos docMaps (getDelCounts merge.readers) (merge.merged.map Prod.fst)
      (mergedDocCount merge.readers) = some mapper) : mapper.docShift = merge.removed := by
  have hend := remap_eq h hmapper (n := merge.documents.length) fun document hdocument => by
    rw [List.getElem?_eq_none le_rfl] at hdocument
    cases hdocument
  have hcount := List.length_eq_countP_add_countP merge.survives (l := merge.documents)
  rw [rank, List.take_length, Nat.sub_self, Nat.add_zero] at hend
  simp only [Bool.not_eq_true, Bool.decide_eq_false] at hcount
  rw [new_eq h, Option.some.injEq] at hmapper
  have hlength : docCount merge.before + docCount (merge.merged.map Prod.fst) ≤ merge.documents.length := by
    rw [documents, infos, List.length_append, length_documentsOf, docCount, docCount, docCount, List.map_append,
      List.map_append, List.sum_append, List.sum_append]
    omega
  subst hmapper
  rw [remap] at hend
  dsimp only at hend ⊢
  rw [if_neg (by omega), if_pos (by omega)] at hend
  rw [removed]
  omega

theorem follows_remap {docMaps : List (Option (List Int))} {mapper : MergeDocIDRemapper}
    (h : getDocMaps merge.readers = some docMaps)
    (hmapper : new merge.infos docMaps (getDelCounts merge.readers) (merge.merged.map Prod.fst)
      (mergedDocCount merge.readers) = some mapper) {docID : Int} (hnot : ¬ merge.Removes docID) :
    merge.Follows docID (mapper.remap docID) := by
  have hshift := docShift_eq h hmapper
  have hnew := hmapper
  rw [new_eq h, Option.some.injEq] at hnew
  have hmin : mapper.minDocID = docCount merge.before := by rw [← hnew]
  have hmax : mapper.maxDocID = docCount merge.before + docCount (merge.merged.map Prod.fst) := by rw [← hnew]
  have hunchanged : docID < docCount merge.before → mapper.remap docID = docID := fun hlt => if_pos (by omega)
  have hshifted : docCount merge.before + docCount (merge.merged.map Prod.fst) ≤ docID →
      mapper.remap docID = docID - merge.removed := by
    intro hle
    rw [remap, if_neg (by omega), if_pos (by omega), hshift]
  rcases lt_or_ge docID 0 with hneg | hnonneg
  · have hsame : mapper.remap docID = docID := hunchanged (by omega)
    refine ⟨?_, ?_, hunchanged, hshifted⟩
    · rw [hsame, numbered_of_neg _ hneg, numbered_of_neg _ hneg]
    · rw [hsame, Int.toNat_of_nonpos hneg.le]
      rfl
  · obtain ⟨n, rfl⟩ := Int.eq_ofNat_of_zero_le hnonneg
    have hsurvives := survives_of_not_removes hnot
    have hremap := remap_eq h hmapper hsurvives
    refine ⟨?_, ?_, hunchanged, hshifted⟩
    · rw [hremap, numbered_cast, numbered_cast, committed_eq, getElem?_rank hsurvives]
    · rw [hremap, Int.toNat_natCast, Int.toNat_natCast, committed_eq, take_rank]

theorem survives_of_none (h : getDocMaps merge.readers = none) (document : Document Id) :
    merge.survives document = true := by
  cases document with
  | buffered n => rfl
  | flushed id n =>
      rw [getDocMaps] at h
      split_ifs at h with hany
      rw [survives, List.all_eq_true]
      intro segment hsegment
      have hnone : segment.2.hasDeletions = false := by
        rw [Bool.eq_false_iff]
        intro hdeletions
        exact hany (List.any_eq_true.mpr ⟨segment.2, List.mem_map_of_mem hsegment, hdeletions⟩)
      simp [isDeleted_of_hasDeletions hnone n]

theorem removed_of_none (h : getDocMaps merge.readers = none) : merge.removed = 0 := by
  rw [removed, List.countP_eq_zero]
  intro document _
  simp [survives_of_none h document]

theorem follows_self (h : getDocMaps merge.readers = none) (docID : Int) : merge.Follows docID docID := by
  have hall : merge.survives = fun _ => true := funext (survives_of_none h)
  have hcommitted : merge.committed = merge.documents := by
    rw [committed_eq, hall, List.filter_true]
  refine ⟨by rw [hcommitted], ?_, fun _ => rfl, fun _ => by rw [removed_of_none h, Nat.cast_zero, sub_zero]⟩
  rw [hcommitted, hall, List.filter_true]

theorem keepsLimit_map {f : Int → Int} (hf : ∀ docID, ¬ merge.Removes docID → merge.Follows docID (f docID))
    (limit : Option Int) : Option.Rel merge.KeepsLimit limit (limit.map f) := by
  cases limit with
  | none => exact .none
  | some limit => exact .some fun hnot => (hf limit hnot).take_eq

theorem keepsSelecting_of_follows {Term Query : Type} {f : Int → Int} {deletes deletes' : Deletes Term Query}
    (hf : ∀ docID, ¬ merge.Removes docID → merge.Follows docID (f docID))
    (hterms : ∀ term, deletes'.terms term = (deletes.terms term).map f)
    (hqueries : ∀ query, deletes'.queries query = (deletes.queries query).map f)
    (hdocIDs : deletes'.docIDs = deletes.docIDs.map f) : merge.KeepsSelecting deletes deletes' where
  terms term := by
    rw [hterms]
    exact keepsLimit_map hf _
  queries query := by
    rw [hqueries]
    exact keepsLimit_map hf _
  docIDs := by
    rw [hdocIDs, List.forall₂_map_right_iff, List.forall₂_same]
    exact fun docID _ hnot => (hf docID hnot).numbered_eq

end Merge

open Merge in
/-- Documents outside of the merged segments and documents that are not deleted get the numbers that they have when the
merge is committed. Deletes whose limit or number is not that of a removed document select what they selected. -/
theorem remapDeletes_selects {Id Term Query : Type} [DecidableEq Id] (merge : Merge Id) (writer : Writer Term Query) :
    (∀ docMaps, getDocMaps merge.readers = some docMaps →
      ∃ mapper, new merge.infos docMaps (getDelCounts merge.readers) (merge.merged.map Prod.fst)
          (mergedDocCount merge.readers) = some mapper ∧
        ∀ docID, ¬ merge.Removes docID → merge.Follows docID (mapper.remap docID)) ∧
    ∃ writer', merge.remapDeletes writer = some writer' ∧
      merge.KeepsSelecting writer.deletesInRAM writer'.deletesInRAM ∧
      merge.KeepsSelecting writer.deletesFlushed writer'.deletesFlushed ∧
      writer'.flushedDocCount = writer.flushedDocCount - merge.removed := by
  constructor
  · intro docMaps h
    exact ⟨_, new_eq h, fun docID hnot => follows_remap h (new_eq h) hnot⟩
  · cases hmaps : getDocMaps merge.readers with
    | none =>
        have hself : ∀ docID, ¬ merge.Removes docID → merge.Follows docID (id docID) :=
          fun docID _ => follows_self hmaps docID
        have hkeeps : ∀ deletes : Deletes Term Query, merge.KeepsSelecting deletes deletes := fun deletes =>
          keepsSelecting_of_follows hself (fun term => (Option.map_id_apply).symm)
            (fun query => (Option.map_id_apply).symm) (List.map_id _).symm
        refine ⟨writer, ?_, hkeeps _, hkeeps _, by rw [removed_of_none hmaps, Nat.cast_zero, sub_zero]⟩
        rw [Merge.remapDeletes, hmaps, MergeDocIDRemapper.remapDeletes]
    | some docMaps =>
        have hnew := new_eq hmaps
        generalize hmapper : (⟨_, _, _, _, _, _⟩ : MergeDocIDRemapper) = mapper at hnew
        have hfollows : ∀ docID, ¬ merge.Removes docID → merge.Follows docID (mapper.remap docID) :=
          fun docID hnot => follows_remap hmaps hnew hnot
        refine ⟨⟨writer.deletesInRAM.remap mapper, writer.deletesFlushed.remap mapper,
          writer.flushedDocCount - mapper.docShift⟩, ?_,
          keepsSelecting_of_follows hfollows (fun _ => rfl) (fun _ => rfl) rfl,
          keepsSelecting_of_follows hfollows (fun _ => rfl) (fun _ => rfl) rfl, ?_⟩
        · rw [Merge.remapDeletes, hmaps, MergeDocIDRemapper.remapDeletes]
          rw [hnew]
          rfl
        · rw [docShift_eq hmaps hnew]

/-- The limit is the number of the second document, which is removed; the first one is not selected any more. -/
theorem remapped_limit_selects_less :
    ∃ merge : Merge Unit, ∃ writer writer' : Writer Unit Unit, ∃ limit limit',
      merge.remapDeletes writer = some writer' ∧ writer.deletesInRAM.terms () = some limit ∧
        writer'.deletesInRAM.terms () = some limit' ∧
        (merge.documents.take limit.toNat).filter merge.survives = [.flushed () 0] ∧
        merge.committed.take limit'.toNat = [] := by
  refine ⟨⟨[], [(⟨(), 2⟩, .ofBits [false, true])], [], 0, by decide, by decide, by decide⟩,
    ⟨⟨fun _ => some 1, fun _ => none, []⟩, ⟨fun _ => none, fun _ => none, []⟩, 2⟩, _, 1, -1, rfl, rfl, rfl, ?_, ?_⟩
  · decide
  · decide

end LucenePlusPlus.MergeDocIDRemapper
