import LucenePlusPlus.LogMergePolicy

/-!
The merges that `LogMergePolicy` selects are ranges of the list of segments, apart from one another. Those that expunge
deletes have the segments with deletions.
-/

namespace LucenePlusPlus.LogMergePolicy
open MergeRegistration (SegmentInfo)

variable {Dir α : Type}

def slice {σ : Type} (infos : List σ) (r : Nat × Nat) : List σ := (infos.drop r.1).take (r.2 - r.1)

section Slices
variable {σ : Type} {infos rest : List σ} {info : σ} {first i : Nat}

theorem length_slice {r : Nat × Nat} (h : r.2 ≤ infos.length) : (slice infos r).length = r.2 - r.1 := by
  rw [slice, List.length_take, List.length_drop]
  omega

theorem slice_self (infos : List σ) (i : Nat) : slice infos (i, i) = [] := by
  rw [slice, Nat.sub_self, List.take_zero]

theorem slice_succ (hle : first ≤ i) (h : infos.drop i = info :: rest) :
    slice infos (first, i + 1) = slice infos (first, i) ++ [info] := by
  have hlt : i < infos.length := by
    by_contra hnot
    rw [List.drop_eq_nil_of_le (by omega)] at h
    cases h
  have hinfo : infos[i] = info := by
    rw [List.drop_eq_getElem_cons hlt] at h
    exact (List.cons.inj h).1
  rw [slice, slice]
  dsimp only
  rw [Nat.sub_add_comm hle, List.take_add_one, List.getElem?_drop, Nat.add_sub_cancel' hle, List.getElem?_eq_getElem hlt, hinfo]
  rfl

theorem drop_succ (h : infos.drop i = info :: rest) : infos.drop (i + 1) = rest := by
  rw [← List.drop_drop, h, List.drop_one, List.tail_cons]

theorem lt_length (h : infos.drop i = info :: rest) : i < infos.length := by
  by_contra hnot
  rw [List.drop_eq_nil_of_le (by omega)] at h
  cases h

end Slices

/-- The merges are ranges of the segments, within their bounds, and apart from one another. -/
structure Selects (infos : List (SegmentInfo Dir)) (merges : List (OneMerge Dir)) (ranges : List (Nat × Nat)) : Prop where
  segments_eq : merges.map (fun merge => merge.segments) = ranges.map (slice infos)
  bounds : ∀ r ∈ ranges, r.1 < r.2 ∧ r.2 ≤ infos.length
  disjoint : ranges.Pairwise fun r r' => r.2 ≤ r'.1 ∨ r'.2 ≤ r.1

/-- Merges that go up, from `start` on. -/
structure Ascending (infos : List (SegmentInfo Dir)) (start : Nat) (merges : List (OneMerge Dir))
    (ranges : List (Nat × Nat)) : Prop where
  segments_eq : merges.map (fun merge => merge.segments) = ranges.map (slice infos)
  bounds : ∀ r ∈ ranges, start ≤ r.1 ∧ r.1 < r.2 ∧ r.2 ≤ infos.length
  ordered : ranges.Pairwise fun r r' => r.2 ≤ r'.1

namespace Ascending
variable {infos : List (SegmentInfo Dir)} {start start' : Nat} {merge : OneMerge Dir} {merges merges' : List (OneMerge Dir)}
  {ranges ranges' : List (Nat × Nat)}

theorem nil (infos : List (SegmentInfo Dir)) (start : Nat) : Ascending infos start [] [] :=
  ⟨rfl, fun _ hmem => absurd hmem List.not_mem_nil, List.Pairwise.nil⟩

theorem cons {first last : Nat} (h : Ascending infos start' merges ranges) (hstart : start ≤ first) (hlt : first < last)
    (hle : last ≤ start') (hlength : last ≤ infos.length) (hsegments : merge.segments = slice infos (first, last)) :
    Ascending infos start (merge :: merges) ((first, last) :: ranges) where
  segments_eq := by rw [List.map_cons, List.map_cons, hsegments, h.segments_eq]
  bounds := by
    intro r hmem
    rcases List.mem_cons.mp hmem with rfl | hmem
    · exact ⟨hstart, hlt, hlength⟩
    · obtain ⟨hfirst, hbounds⟩ := h.bounds r hmem
      exact ⟨by omega, hbounds⟩
  ordered := List.pairwise_cons.mpr ⟨fun r hmem => hle.trans (h.bounds r hmem).1, h.ordered⟩

theorem mono (h : Ascending infos start' merges ranges) (hle : start ≤ start') : Ascending infos start merges ranges :=
  ⟨h.segments_eq, fun r hmem => ⟨hle.trans (h.bounds r hmem).1, (h.bounds r hmem).2⟩, h.ordered⟩

theorem append (h : Ascending infos start merges ranges) (h' : Ascending infos start' merges' ranges')
    (hle : start ≤ start') (hlast : ∀ r ∈ ranges, r.2 ≤ start') :
    Ascending infos start (merges ++ merges') (ranges ++ ranges') where
  segments_eq := by rw [List.map_append, List.map_append, h.segments_eq, h'.segments_eq]
  bounds := by
    intro r hmem
    rcases List.mem_append.mp hmem with hmem | hmem
    · exact h.bounds r hmem
    · exact (h'.mono hle).bounds r hmem
  ordered := List.pairwise_append.mpr ⟨h.ordered, h'.ordered, fun r hmem r' hmem' =>
    (hlast r hmem).trans (h'.bounds r' hmem').1⟩

theorem selects (h : Ascending infos start merges ranges) : Selects infos merges ranges :=
  ⟨h.segments_eq, fun r hmem => (h.bounds r hmem).2, h.ordered.imp Or.inl⟩

end Ascending

section Ranges
variable [Field α] [LinearOrder α] {p : Policy Dir α} {infos rest : List (SegmentInfo Dir)} {first last i : Nat}

theorem mergeRange_eq (p : Policy Dir α) (hlt : first < last) (hle : last ≤ infos.length) :
    ∃ merge, p.mergeRange infos first last = .ok merge ∧ merge.segments = slice infos (first, last) := by
  have hlength := length_slice (r := (first, last)) hle
  have hne : slice infos (first, last) ≠ [] := by
    intro hnil
    rw [hnil, List.length_nil] at hlength
    omega
  have hrange : range infos first last = .ok (slice infos (first, last)) := by
    rw [range, if_pos (by omega), slice, Int.toNat_natCast, show ((last : Int) - first).toNat = last - first by omega]
  refine ⟨{ segments := slice infos (first, last), segments_ne := hne,
            useCompoundFile := p.doCFS infos (slice infos (first, last)) }, ?_, rfl⟩
  rw [Policy.mergeRange, hrange]
  exact dif_neg hne

/-- What the loop has gone through since the first segment with deletions. -/
def pendingSegments (infos : List (SegmentInfo Dir)) (i : Nat) : Option Nat → List (SegmentInfo Dir)
  | none => []
  | some first => slice infos (first, i)

theorem expungeDeletes_eq (first : Option Nat) (hrest : infos.drop i = rest)
    (hfirst : ∀ f, first = some f → f < i ∧ i ≤ infos.length ∧ i - f ≤ p.mergeFactor) :
    ∃ merges ranges, p.expungeDeletes infos i rest first = .ok merges ∧ Ascending infos (first.getD i) merges ranges ∧
      (∀ r ∈ ranges, r.2 - r.1 ≤ p.mergeFactor) ∧
      merges.flatMap (fun merge => merge.segments) =
        pendingSegments infos i first ++ rest.filter fun info => 0 < p.numDeletedDocs info := by
  induction rest generalizing i first with
  | nil =>
      cases first with
      | none => exact ⟨[], [], rfl, .nil _ _, fun _ hmem => absurd hmem List.not_mem_nil, rfl⟩
      | some first =>
          obtain ⟨hlt, hle, hcount⟩ := hfirst first rfl
          obtain ⟨merge, hmerge, hsegments⟩ := mergeRange_eq p hlt hle
          refine ⟨[merge], [(first, i)], ?_, (Ascending.nil infos i).cons le_rfl hlt le_rfl hle hsegments, ?_, ?_⟩
          · rw [Policy.expungeDeletes, hmerge]
            rfl
          · rintro r hmem
            obtain rfl := List.mem_singleton.mp hmem
            exact hcount
          · rw [List.flatMap_singleton, hsegments, List.filter_nil, List.append_nil]
            rfl
  | cons info rest ih =>
      have hlt := lt_length hrest
      have hnext := drop_succ hrest
      have hfactor := p.two_le_mergeFactor
      have hpending : ∀ f ≤ i, pendingSegments infos (i + 1) (some f) = slice infos (f, i) ++ [info] :=
        fun f hf => slice_succ hf hrest
      have hkeep (hdel : 0 < p.numDeletedDocs info) : ((info :: rest).filter fun info => 0 < p.numDeletedDocs info) =
          info :: rest.filter fun info => 0 < p.numDeletedDocs info := List.filter_cons_of_pos (decide_eq_true hdel)
      have hdrop (hdel : ¬ 0 < p.numDeletedDocs info) : ((info :: rest).filter fun info => 0 < p.numDeletedDocs info) =
          rest.filter fun info => 0 < p.numDeletedDocs info := List.filter_cons_of_neg (by simpa using hdel)
      cases first with
      | none =>
          by_cases hdel : 0 < p.numDeletedDocs info
          · obtain ⟨merges, ranges, heq, hasc, hcount, hflat⟩ := ih (some i) hnext (fun f hf => by
              obtain rfl := Option.some.inj hf
              omega)
            refine ⟨merges, ranges, ?_, hasc, hcount, ?_⟩
            · rw [Policy.expungeDeletes, if_pos hdel, heq]
            · rw [hflat, hpending i le_rfl, slice_self, hkeep hdel]
              rfl
          · obtain ⟨merges, ranges, heq, hasc, hcount, hflat⟩ := ih none hnext (fun f hf => (nomatch hf))
            refine ⟨merges, ranges, ?_, hasc.mono (Nat.le_succ i), hcount, ?_⟩
            · rw [Policy.expungeDeletes, if_neg hdel, heq]
            · rw [hflat, hdrop hdel]
              rfl
      | some first =>
          obtain ⟨hlt', -, hcount'⟩ := hfirst first rfl
          obtain ⟨merge, hmerge, hsegments⟩ := mergeRange_eq p hlt' hlt.le
          by_cases hdel : 0 < p.numDeletedDocs info
          · by_cases hfull : i - first = p.mergeFactor
            · obtain ⟨merges, ranges, heq, hasc, hcount, hflat⟩ := ih (some i) hnext (fun f hf => by
                obtain rfl := Option.some.inj hf
                omega)
              refine ⟨merge :: merges, (first, i) :: ranges, ?_, hasc.cons le_rfl hlt' le_rfl hlt.le hsegments, ?_, ?_⟩
              · rw [Policy.expungeDeletes, if_pos hdel, if_pos hfull, hmerge, heq]
                rfl
              · rintro r hmem
                rcases List.mem_cons.mp hmem with rfl | hmem
                · exact hcount'
                · exact hcount r hmem
              · rw [List.flatMap_cons, hflat, hsegments, hpending i le_rfl, slice_self, hkeep hdel]
                rfl
            · obtain ⟨merges, ranges, heq, hasc, hcount, hflat⟩ := ih (some first) hnext (fun f hf => by
                obtain rfl := Option.some.inj hf
                omega)
              refine ⟨merges, ranges, ?_, hasc, hcount, ?_⟩
              · rw [Policy.expungeDeletes, if_pos hdel, if_neg hfull, heq]
              · rw [hflat, hpending first hlt'.le, hkeep hdel, List.append_assoc]
                rfl
          · obtain ⟨merges, ranges, heq, hasc, hcount, hflat⟩ := ih none hnext (fun f hf => (nomatch hf))
            refine ⟨merge :: merges, (first, i) :: ranges, ?_,
              hasc.cons le_rfl hlt' (Nat.le_succ i) hlt.le hsegments, ?_, ?_⟩
            · rw [Policy.expungeDeletes, if_neg hdel, hmerge, heq]
              rfl
            · rintro r hmem
              rcases List.mem_cons.mp hmem with rfl | hmem
              · exact hcount'
              · exact hcount r hmem
            · rw [List.flatMap_cons, hflat, hsegments, hdrop hdel]
              rfl

/-- The merges are ranges of the segments, apart from one another and not too long. They have the segments with
deletions, each once and in order. -/
theorem findMergesToExpungeDeletes_covers (p : Policy Dir α) (infos : List (SegmentInfo Dir)) :
    ∃ merges ranges, p.findMergesToExpungeDeletes infos = .ok merges ∧ Selects infos merges ranges ∧
      (∀ merge ∈ merges, merge.segments.length ≤ p.mergeFactor) ∧
      merges.flatMap (fun merge => merge.segments) = infos.filter fun info => 0 < p.numDeletedDocs info := by
  obtain ⟨merges, ranges, heq, hasc, hcount, hflat⟩ := @expungeDeletes_eq _ _ _ _ p infos infos 0 none List.drop_zero
    (fun f hf => (nomatch hf))
  refine ⟨merges, ranges, heq, hasc.selects, fun merge hmem => ?_, hflat⟩
  have hsegments : merge.segments ∈ ranges.map (slice infos) := hasc.segments_eq ▸ List.mem_map_of_mem hmem
  obtain ⟨r, hr, hslice⟩ := List.mem_map.mp hsegments
  rw [← hslice, length_slice (hasc.bounds r hr).2.2]
  exact hcount r hr

end Ranges

section Levels
variable [LinearOrder α] {level : SegmentInfo Dir → α} {levelBottom : α} {infos : List (SegmentInfo Dir)} {start : Nat}

theorem maxLevelOf_spec (level : SegmentInfo Dir → α) (info : SegmentInfo Dir) (rest : List (SegmentInfo Dir)) :
    ∃ info' ∈ info :: rest, level info' = maxLevelOf level info rest := by
  have hfold : ∀ maxLevel, rest.foldl (fun maxLevel info => max maxLevel (level info)) maxLevel = maxLevel ∨
      ∃ info' ∈ rest, level info' = rest.foldl (fun maxLevel info => max maxLevel (level info)) maxLevel := by
    induction rest with
    | nil => exact fun _ => Or.inl rfl
    | cons first rest ih =>
        intro maxLevel
        rw [List.foldl_cons]
        rcases ih (max maxLevel (level first)) with heq | ⟨info', hmem, heq⟩
        · rcases max_choice maxLevel (level first) with hmax | hmax
          · exact Or.inl (heq.trans hmax)
          · exact Or.inr ⟨first, List.mem_cons_self, (heq.trans hmax).symm⟩
        · exact Or.inr ⟨info', List.mem_cons_of_mem _ hmem, heq⟩
  rcases hfold (level info) with heq | ⟨info', hmem, heq⟩
  · exact ⟨info, List.mem_cons_self, heq.symm⟩
  · exact ⟨info', List.mem_cons_of_mem _ hmem, heq⟩

theorem searchBackwards_le (level : SegmentInfo Dir → α) (levelBottom : α) (infos : List (SegmentInfo Dir)) (start stop : Nat) :
    searchBackwards level levelBottom infos start stop ≤ stop := by
  induction stop with
  | zero => exact le_rfl
  | succ upto ih =>
      rw [searchBackwards]
      split_ifs
      · exact le_rfl
      · exact ih.trans (Nat.le_succ upto)
      · exact le_rfl

theorem lt_searchBackwards {stop i : Nat} (hstart : start ≤ i) (hlt : i < stop) (hlength : i < infos.length)
    (hlevel : levelBottom ≤ level infos[i]) : i < searchBackwards level levelBottom infos start stop := by
  induction stop with
  | zero => exact absurd hlt (Nat.not_lt_zero i)
  | succ upto ih =>
      rw [searchBackwards, if_pos (hstart.trans (Nat.le_of_lt_succ hlt))]
      by_cases heq : i = upto
      · subst heq
        rw [List.getElem?_eq_getElem hlength, Option.map_some, Option.getD_some, if_pos (decide_eq_true hlevel)]
        exact hlt
      · split_ifs
        · exact hlt
        · exact ih (by omega)

end Levels

section Merges
variable [Field α] [LinearOrder α] {p : Policy Dir α} {infos : List (SegmentInfo Dir)} {level : SegmentInfo Dir → α}
  {levelFloor : α}

/-- The segments of a merge are below the limits. -/
def WithinLimits (p : Policy Dir α) (merge : OneMerge Dir) : Prop :=
  ∀ info ∈ merge.segments, p.size info < p.maxMergeSize ∧ p.sizeDocs info < p.maxMergeDocs

theorem levelMerges_eq {start stop : Nat} (hle : start ≤ stop) (hstop : stop ≤ infos.length)
    (hfit : infos.length + p.mergeFactor < 0x80000000) :
    ∃ merges ranges, p.levelMerges infos start stop = .ok merges ∧ Ascending infos start merges ranges ∧
      (∀ r ∈ ranges, r.2 ≤ stop ∧ r.2 = r.1 + p.mergeFactor) ∧ ∀ merge ∈ merges, WithinLimits p merge := by
  have hfactor := p.two_le_mergeFactor
  induction hn : stop - start using Nat.strong_induction_on generalizing start with
  | _ n ih =>
      rw [Policy.levelMerges, if_neg (by omega)]
      by_cases hwindow : start + p.mergeFactor ≤ stop
      · obtain ⟨merges, ranges, heq, hasc, hranges, hlimits⟩ := ih (stop - (start + p.mergeFactor)) (by omega) hwindow rfl
        rw [if_pos hwindow]
        dsimp only
        split_ifs with hlarge
        · exact ⟨merges, ranges, heq, hasc.mono (Nat.le_add_right _ _), hranges, hlimits⟩
        · obtain ⟨merge, hmerge, hsegments⟩ := @mergeRange_eq _ _ _ _ infos start (start + p.mergeFactor) p (by omega)
            (hwindow.trans hstop)
          rw [Nat.cast_add] at hmerge
          refine ⟨merge :: merges, (start, start + p.mergeFactor) :: ranges, ?_,
            hasc.cons le_rfl (by omega) le_rfl (hwindow.trans hstop) hsegments, ?_, ?_⟩
          · rw [hmerge, heq]
            rfl
          · rintro r hmem
            rcases List.mem_cons.mp hmem with rfl | hmem
            · exact ⟨hwindow, rfl⟩
            · exact hranges r hmem
          · intro merge' hmem
            rcases List.mem_cons.mp hmem with rfl | hmem
            · intro info hinfo
              rw [hsegments, slice, Nat.add_sub_cancel_left] at hinfo
              rw [Bool.not_eq_true, List.any_eq_false] at hlarge
              have hsmall := hlarge info hinfo
              rw [Bool.or_eq_true, decide_eq_true_eq, decide_eq_true_eq, not_or, not_le, not_le] at hsmall
              exact hsmall
            · exact hlimits merge' hmem
      · rw [if_neg hwindow]
        exact ⟨[], [], rfl, .nil _ _, fun _ hmem => absurd hmem List.not_mem_nil, fun _ hmem => absurd hmem List.not_mem_nil⟩

theorem levelsMerges_succ {info : SegmentInfo Dir} {rest : List (SegmentInfo Dir)} {start stop : Nat}
    (hdrop : infos.drop start = info :: rest) (hstop : searchBackwards level
      (Policy.levelBottomOf levelFloor (maxLevelOf level info rest)) infos start infos.length = stop) (fuel : Nat) :
    p.levelsMerges level levelFloor infos (fuel + 1) start =
      match p.levelMerges infos start stop with
      | .error e => some (.error e)
      | .ok merges => (p.levelsMerges level levelFloor infos fuel stop).map fun rest =>
          rest >>= fun rest => pure (merges ++ rest) := by
  rw [Policy.levelsMerges, hdrop]
  dsimp only
  rewrite [hstop]
  cases p.levelMerges infos start stop <;> rfl

variable [IsStrictOrderedRing α]

theorem levelBottomOf_le {maxLevel : α} (h : -1 ≤ maxLevel ∨ levelFloor ≤ maxLevel) :
    Policy.levelBottomOf levelFloor maxLevel ≤ maxLevel := by
  rw [Policy.levelBottomOf]
  split_ifs with hlow hfloor
  · exact h.resolve_right (not_le.mpr hlow)
  · exact hfloor.2
  · rw [Policy.levelLogSpan]
    linarith

theorem levelsMerges_eq {start : Nat} (hlevels : ∀ info ∈ infos, -1 ≤ level info ∨ levelFloor ≤ level info)
    (hfit : infos.length + p.mergeFactor < 0x80000000) (hstart : start ≤ infos.length) :
    ∃ merges ranges, (∀ fuel, infos.length - start < fuel →
        p.levelsMerges level levelFloor infos fuel start = some (.ok merges)) ∧
      Ascending infos start merges ranges ∧ (∀ r ∈ ranges, r.2 = r.1 + p.mergeFactor) ∧
      ∀ merge ∈ merges, WithinLimits p merge := by
  induction hn : infos.length - start using Nat.strong_induction_on generalizing start with
  | _ n ih =>
      cases hdrop : infos.drop start with
      | nil =>
          refine ⟨[], [], fun fuel hfuel => ?_, .nil _ _, fun _ hmem => absurd hmem List.not_mem_nil,
            fun _ hmem => absurd hmem List.not_mem_nil⟩
          obtain ⟨fuel, rfl⟩ := Nat.exists_eq_add_of_lt hfuel
          rw [Policy.levelsMerges, hdrop]
      | cons info rest =>
          have hlt := lt_length hdrop
          obtain ⟨info', hmem, hmax⟩ := maxLevelOf_spec level info rest
          -- the segment of the highest level is not left behind, so the loop goes on
          obtain ⟨k, hk, rfl⟩ := List.getElem_of_mem (hdrop ▸ hmem)
          rw [List.length_drop] at hk
          rw [List.getElem_drop] at hmax
          have hinfo : infos[start + k] ∈ infos := List.getElem_mem _
          have hbottom := levelBottomOf_le (hlevels _ hinfo)
          have hprogress := @lt_searchBackwards _ _ _ level (Policy.levelBottomOf levelFloor (maxLevelOf level info rest))
            infos start infos.length (start + k) (Nat.le_add_right _ _) (by omega) (by omega) (by rwa [← hmax])
          have hstop := searchBackwards_le level (Policy.levelBottomOf levelFloor (maxLevelOf level info rest)) infos start
            infos.length
          obtain ⟨merges, ranges, hmerges, hasc, hranges, hlimits⟩ := @levelMerges_eq _ _ _ _ p infos start _
            (by omega) hstop hfit
          obtain ⟨merges', ranges', hmerges', hasc', hranges', hlimits'⟩ := ih _ (by omega) hstop rfl
          refine ⟨merges ++ merges', ranges ++ ranges', fun fuel hfuel => ?_,
            hasc.append hasc' (by omega) fun r hmem => (hranges r hmem).1, fun r hmem => ?_, fun merge hmem => ?_⟩
          · obtain ⟨fuel, rfl⟩ := Nat.exists_eq_add_of_lt hfuel
            rw [levelsMerges_succ hdrop rfl, hmerges]
            dsimp only
            rw [hmerges' _ (by omega)]
            rfl
          · rcases List.mem_append.mp hmem with hmem | hmem
            · exact (hranges r hmem).2
            · exact hranges' r hmem
          · rcases List.mem_append.mp hmem with hmem | hmem
            · exact hlimits merge hmem
            · exact hlimits' merge hmem

end Merges

/-! ### Optimizing -/

theorem considerStart_foldl (p : Policy Dir α) (infos : List (SegmentInfo Dir)) (finalMergeSize : Nat) (starts : List Nat) (best : Int × Nat) :
    (starts.foldl (p.considerStart infos finalMergeSize) best).2 = best.2 ∨
      (starts.foldl (p.considerStart infos finalMergeSize) best).2 ∈ starts := by
  induction starts generalizing best with
  | nil => exact Or.inl rfl
  | cons start starts ih =>
      rw [List.foldl_cons]
      rcases ih (p.considerStart infos finalMergeSize best start) with heq | hmem
      · rw [heq, Policy.considerStart]
        split_ifs
        · exact Or.inr List.mem_cons_self
        · exact Or.inl rfl
      · exact Or.inr (List.mem_cons_of_mem _ hmem)

theorem bestStart_le (p : Policy Dir α) (infos : List (SegmentInfo Dir)) (last finalMergeSize : Nat) :
    p.bestStart infos last finalMergeSize ≤ last - finalMergeSize := by
  rw [Policy.bestStart]
  rcases considerStart_foldl p infos finalMergeSize (List.range (last - finalMergeSize + 1)) (0, 0) with
    heq | hmem
  · rw [heq]
    exact Nat.zero_le _
  · exact Nat.le_of_lt_succ (List.mem_range.mp hmem)

section Optimizing
variable [Field α] [LinearOrder α] {p : Policy Dir α} {infos : List (SegmentInfo Dir)} {maxSegmentCount last : Nat}

theorem fullMerges_eq (hmax : 0 < maxSegmentCount) (hlast : last ≤ infos.length) :
    ∃ merges ranges left, p.fullMerges maxSegmentCount infos last = .ok (merges, left) ∧ Selects infos merges ranges ∧
      (∀ r ∈ ranges, r.2 ≤ last) ∧ (merges = [] → left = last) := by
  have hfactor := p.two_le_mergeFactor
  induction hn : last using Nat.strong_induction_on generalizing last with
  | _ n ih =>
      subst hn
      rw [Policy.fullMerges]
      by_cases hfull : (p.mergeFactor : Int) ≤ (last : Int) - maxSegmentCount + 1
      · obtain ⟨merge, hmerge, hsegments⟩ := @mergeRange_eq _ _ _ _ infos (last - p.mergeFactor) last p (by omega) hlast
        rw [Nat.cast_sub (by omega)] at hmerge
        obtain ⟨merges, ranges, left, heq, hselects, hranges, -⟩ := ih (last - p.mergeFactor) (by omega) (by omega) rfl
        refine ⟨merge :: merges, (last - p.mergeFactor, last) :: ranges, left, ?_, ⟨?_, ?_, ?_⟩, ?_, fun h => (nomatch h)⟩
        · rw [if_pos hfull, hmerge, heq]
          rfl
        · rw [List.map_cons, List.map_cons, hsegments, hselects.segments_eq]
        · intro r hmem
          rcases List.mem_cons.mp hmem with rfl | hmem
          · exact ⟨by omega, hlast⟩
          · exact hselects.bounds r hmem
        · exact List.pairwise_cons.mpr ⟨fun r hmem => Or.inr (hranges r hmem), hselects.disjoint⟩
        · intro r hmem
          rcases List.mem_cons.mp hmem with rfl | hmem
          · exact le_rfl
          · exact (hranges r hmem).trans (Nat.sub_le _ _)
      · rw [if_neg hfull]
        exact ⟨[], [], last, rfl, ⟨rfl, fun _ hmem => absurd hmem List.not_mem_nil, List.Pairwise.nil⟩,
          fun _ hmem => absurd hmem List.not_mem_nil, fun _ => rfl⟩

theorem selects_singleton {merge : OneMerge Dir} {first : Nat} (hlt : first < last) (hle : last ≤ infos.length)
    (hsegments : merge.segments = slice infos (first, last)) : Selects infos [merge] [(first, last)] :=
  ((Ascending.nil infos last).cons (Nat.zero_le _) hlt le_rfl hle hsegments).selects

theorem lastToOptimize_le (segmentsToOptimize : SegmentInfo Dir → Bool) (infos : List (SegmentInfo Dir)) (n : Nat) :
    lastToOptimize segmentsToOptimize infos n ≤ n := by
  induction n with
  | zero => exact le_rfl
  | succ n ih =>
      rw [lastToOptimize]
      split_ifs
      · exact le_rfl
      · exact ih.trans (Nat.le_succ n)

variable [DecidableEq Dir]

theorem partialMerge_eq (hmax : 0 < maxSegmentCount) (hpos : 0 < last) (hlast : last ≤ infos.length) :
    ∃ merges ranges, p.partialMerge maxSegmentCount infos last = .ok merges ∧ Selects infos merges ranges := by
  have hnone : ∃ ranges, Selects infos ([] : List (OneMerge Dir)) ranges :=
    ⟨[], rfl, fun _ hmem => absurd hmem List.not_mem_nil, List.Pairwise.nil⟩
  obtain ⟨none, hnone⟩ := hnone
  rw [Policy.partialMerge]
  split_ifs with hone hall hmany
  · obtain ⟨merge, hmerge, hsegments⟩ := @mergeRange_eq _ _ _ _ infos 0 last p hpos hlast
    rw [Nat.cast_zero] at hmerge
    refine ⟨[merge], _, ?_, selects_singleton hpos hlast hsegments⟩
    rw [hmerge]
    rfl
  · exact ⟨[], none, rfl, hnone⟩
  · have hbest := bestStart_le p infos last (last - maxSegmentCount + 1)
    obtain ⟨merge, hmerge, hsegments⟩ := @mergeRange_eq _ _ _ _ infos (p.bestStart infos last (last - maxSegmentCount + 1))
      (p.bestStart infos last (last - maxSegmentCount + 1) + (last - maxSegmentCount + 1)) p (by omega) (by omega)
    rw [Nat.cast_add] at hmerge
    refine ⟨[merge], _, ?_, selects_singleton (by omega) (by omega) hsegments⟩
    dsimp only
    rw [hmerge]
    rfl
  · exact ⟨[], none, rfl, hnone⟩

theorem findMergesForOptimize_selects (p : Policy Dir α) (infos : List (SegmentInfo Dir)) (hmax : 0 < maxSegmentCount)
    (segmentsToOptimize : SegmentInfo Dir → Bool) :
    ∃ spec ranges, p.findMergesForOptimize infos maxSegmentCount segmentsToOptimize = .ok spec ∧
      Selects infos (spec.getD []) ranges := by
  have hnone : Selects infos ([] : List (OneMerge Dir)) [] :=
    ⟨rfl, fun _ hmem => absurd hmem List.not_mem_nil, List.Pairwise.nil⟩
  have hlast := lastToOptimize_le segmentsToOptimize infos infos.length
  rw [Policy.findMergesForOptimize]
  split_ifs with hoptimized hzero
  · exact ⟨none, [], rfl, hnone⟩
  · exact ⟨none, [], rfl, hnone⟩
  · obtain ⟨merges, ranges, left, heq, hselects, -, hleft⟩ := @fullMerges_eq _ _ _ _ p infos _ _ hmax hlast
    cases merges with
    | nil =>
        obtain ⟨merges, ranges, hselection, hselects⟩ := @partialMerge_eq _ _ _ _ p infos maxSegmentCount left _ hmax
          (by rw [hleft rfl]; exact Nat.pos_of_ne_zero hzero) (by rw [hleft rfl]; exact hlast)
        refine ⟨some merges, ranges, ?_, hselects⟩
        rw [heq]
        change (p.partialMerge maxSegmentCount infos left >>= fun merges => pure (some merges)) = _
        rw [hselection]
        rfl
    | cons merge merges =>
        refine ⟨some (merge :: merges), ranges, ?_, hselects⟩
        rw [heq]
        rfl

/-- A merge that `ensureContiguousMerge` does not reject, when the writer has these segments. -/
def Accepted (infos : List (SegmentInfo Dir)) (merge : OneMerge Dir) : Prop :=
  ∀ (Merge : Type) [DecidableEq Merge] (s : MergeRegistration.State Dir Merge), s.segmentInfos = infos →
    ∃ first, s.ensureContiguousMerge merge.toOneMerge = .ok first

theorem Selects.accepted {merges : List (OneMerge Dir)} {ranges : List (Nat × Nat)} (h : Selects infos merges ranges)
    (hnodup : infos.Nodup) : ∀ merge ∈ merges, Accepted infos merge := by
  intro merge hmem Merge _ s hinfos
  have hsegments : merge.segments ∈ ranges.map (slice infos) := h.segments_eq ▸ List.mem_map_of_mem hmem
  obtain ⟨r, hr, hslice⟩ := List.mem_map.mp hsegments
  obtain ⟨hlt, hle⟩ := h.bounds r hr
  have hfirst : infos.idxOf (merge.segments.head merge.segments_ne) = r.1 := by
    have hhead : merge.segments.head merge.segments_ne = infos[r.1] := by
      simp only [← hslice, slice, List.head_take, List.head_drop]
    rw [hhead, hnodup.idxOf_getElem]
  refine ⟨r.1, ?_⟩
  rw [MergeRegistration.State.ensureContiguousMerge, hinfos, hfirst, ← hslice,
    if_pos (show (slice infos r).isPrefixOf (infos.drop r.1) = true from
      List.isPrefixOf_iff_prefix.mpr (List.take_prefix _ _))]

end Optimizing

section Selection
variable [Field α] [LinearOrder α] [IsStrictOrderedRing α] [DecidableEq Dir]

theorem findMergesAt_selects (p : Policy Dir α) {level : SegmentInfo Dir → α} {levelFloor : α}
    {infos : List (SegmentInfo Dir)} (hnodup : infos.Nodup)
    (hlevels : ∀ info ∈ infos, -1 ≤ level info ∨ levelFloor ≤ level info)
    (hfit : infos.length + p.mergeFactor < 0x80000000) :
    ∃ spec ranges, (∀ fuel, infos.length < fuel → p.findMergesAt level levelFloor fuel infos = some (.ok spec)) ∧
      Selects infos (spec.getD []) ranges ∧ ∀ merge ∈ spec.getD [],
        merge.segments.length = p.mergeFactor ∧ WithinLimits p merge ∧ Accepted infos merge := by
  obtain ⟨merges, ranges, heq, hasc, hranges, hlimits⟩ := @levelsMerges_eq _ _ _ _ p infos level levelFloor _ 0 hlevels
    hfit (Nat.zero_le _)
  have hspec : (if merges.isEmpty then none else some merges).getD [] = merges := by
    cases merges <;> rfl
  refine ⟨if merges.isEmpty then none else some merges, ranges, fun fuel hfuel => ?_, ?_, ?_⟩
  · rw [Policy.findMergesAt, heq fuel hfuel]
    rfl
  · rw [hspec]
    exact hasc.selects
  · rw [hspec]
    intro merge hmem
    have hsegments : merge.segments ∈ ranges.map (slice infos) := hasc.segments_eq ▸ List.mem_map_of_mem hmem
    obtain ⟨r, hr, hslice⟩ := List.mem_map.mp hsegments
    refine ⟨?_, hlimits merge hmem, hasc.selects.accepted hnodup merge hmem⟩
    rw [← hslice, length_slice (hasc.bounds r hr).2.2, hranges r hr, Nat.add_sub_cancel_left]

/-- The merges that are selected are ranges of the segments, apart from one another, and the writer does not reject them.
Those of levels have as many segments as the merge factor says, all of them below the limits. A level below the floor is
not below -1. -/
theorem selections_are_wellFormed (p : Policy Dir α) (level : SegmentInfo Dir → α) (levelFloor : α)
    (infos : List (SegmentInfo Dir)) (maxSegmentCount : Nat) (segmentsToOptimize : SegmentInfo Dir → Bool)
    (hnodup : infos.Nodup) (hlevels : ∀ info ∈ infos, -1 ≤ level info ∨ levelFloor ≤ level info)
    (hfit : infos.length + p.mergeFactor < 0x80000000) (hmax : 0 < maxSegmentCount) :
    (∃ spec ranges, (∀ fuel, infos.length < fuel → p.findMergesAt level levelFloor fuel infos = some (.ok spec)) ∧
      Selects infos (spec.getD []) ranges ∧ ∀ merge ∈ spec.getD [],
        merge.segments.length = p.mergeFactor ∧ WithinLimits p merge ∧ Accepted infos merge) ∧
    ∃ spec ranges, p.findMergesForOptimize infos maxSegmentCount segmentsToOptimize = .ok spec ∧
      Selects infos (spec.getD []) ranges ∧ ∀ merge ∈ spec.getD [], Accepted infos merge := by
  refine ⟨findMergesAt_selects p hnodup hlevels hfit, ?_⟩
  obtain ⟨spec, ranges, heq, hselects⟩ := findMergesForOptimize_selects p infos hmax segmentsToOptimize
  exact ⟨spec, ranges, heq, hselects, hselects.accepted hnodup⟩

end Selection

/-- A policy that merges this many segments, each of which has one document. -/
def policyOf (mergeFactor : Nat) (h : 2 ≤ mergeFactor) : Policy Unit ℚ where
  mergeFactor := mergeFactor
  two_le_mergeFactor := h
  minMergeSize := 1000
  maxMergeSize := 0x7FFFFFFFFFFFFFFF
  maxMergeDocs := 0x7FFFFFFF
  noCFSRatio := 1 / 10
  calibrateSizeByDeletes := false
  useCompoundFile := true
  directory := ()
  numDeletedDocs := fun _ => 0
  docCount := fun _ => 1
  hasSeparateNorms := fun _ => false
  isCompoundFile := fun _ => false
  size := fun _ => 1

theorem selections_of_three :
    (∃ spec ranges, (∀ fuel, 3 < fuel → (policyOf 2 le_rfl).findMergesAt (fun _ => 0) 1 fuel
        [⟨(), "_0"⟩, ⟨(), "_1"⟩, ⟨(), "_2"⟩] = some (.ok spec)) ∧
      Selects [⟨(), "_0"⟩, ⟨(), "_1"⟩, ⟨(), "_2"⟩] (spec.getD []) ranges ∧ ∀ merge ∈ spec.getD [],
        merge.segments.length = (policyOf 2 le_rfl).mergeFactor ∧ WithinLimits (policyOf 2 le_rfl) merge ∧
          Accepted [⟨(), "_0"⟩, ⟨(), "_1"⟩, ⟨(), "_2"⟩] merge) ∧
    ∃ spec ranges, (policyOf 2 le_rfl).findMergesForOptimize [⟨(), "_0"⟩, ⟨(), "_1"⟩, ⟨(), "_2"⟩] 1 (fun _ => true) =
        .ok spec ∧ Selects [⟨(), "_0"⟩, ⟨(), "_1"⟩, ⟨(), "_2"⟩] (spec.getD []) ranges ∧
      ∀ merge ∈ spec.getD [], Accepted [⟨(), "_0"⟩, ⟨(), "_1"⟩, ⟨(), "_2"⟩] merge :=
  selections_are_wellFormed (policyOf 2 le_rfl) (fun _ => 0) 1 [⟨(), "_0"⟩, ⟨(), "_1"⟩, ⟨(), "_2"⟩] 1 (fun _ => true)
    (by decide) (fun _ _ => Or.inl (by norm_num)) (by decide) Nat.one_pos

/-- Levels below -1 are not left behind: the loop does not end. With the greatest merge factor there is, the end of the
second level's first window is no `int32_t`. -/
theorem selections_are_not_wellFormed :
    (∀ fuel, (policyOf 10 (by decide)).findMergesAt (fun _ => -2) 0 fuel [⟨(), "_0"⟩] = none) ∧
      (policyOf 0x7FFFFFFF (by decide)).findMergesAt (fun info => if info.name = "_0" then 1 else 0) (1 / 2) 3
        [⟨(), "_0"⟩, ⟨(), "_1"⟩] = some (.error .undefined) := by
  constructor
  · intro fuel
    have hloop : (policyOf 10 (by decide)).levelsMerges (fun _ => -2) 0 [⟨(), "_0"⟩] fuel 0 = none := by
      induction fuel with
      | zero => rfl
      | succ fuel ih =>
          have hbottom : Policy.levelBottomOf (0 : ℚ) (-2) = -1 := by norm_num [Policy.levelBottomOf]
          have hstop : searchBackwards (fun _ => (-2 : ℚ)) (Policy.levelBottomOf 0 (maxLevelOf (fun _ => -2) ⟨(), "_0"⟩ []))
              [(⟨(), "_0"⟩ : SegmentInfo Unit)] 0 1 = 0 := by
            rw [maxLevelOf, List.foldl_nil, hbottom]
            norm_num [searchBackwards]
          have hmerges : (policyOf 10 (by decide)).levelMerges [⟨(), "_0"⟩] 0 0 = .ok [] := by
            rw [Policy.levelMerges]
            rfl
          rw [levelsMerges_succ (by rfl) hstop, hmerges]
          dsimp only
          rw [ih]
          rfl
    rw [Policy.findMergesAt, hloop]
    rfl
  · have hstop : searchBackwards (fun info => if info.name = "_0" then (1 : ℚ) else 0)
        (Policy.levelBottomOf (1 / 2) (maxLevelOf (fun info => if info.name = "_0" then 1 else 0) ⟨(), "_0"⟩ [⟨(), "_1"⟩]))
        [(⟨(), "_0"⟩ : SegmentInfo Unit), ⟨(), "_1"⟩] 0 2 = 1 := by
      have hname : "_1" ≠ "_0" := by decide
      norm_num [maxLevelOf, Policy.levelBottomOf, Policy.levelLogSpan, searchBackwards, hname]
    have hmerges : (policyOf 0x7FFFFFFF (by decide)).levelMerges [⟨(), "_0"⟩, ⟨(), "_1"⟩] 0 1 = .ok [] := by
      rw [Policy.levelMerges]
      rfl
    have hmerges' (stop : Nat) : (policyOf 0x7FFFFFFF (by decide)).levelMerges [⟨(), "_0"⟩, ⟨(), "_1"⟩] 1 stop =
        .error .undefined := by
      rw [Policy.levelMerges]
      rfl
    rw [Policy.findMergesAt, levelsMerges_succ (by rfl) hstop, hmerges]
    dsimp only
    rw [levelsMerges_succ (by rfl) rfl, hmerges']
    rfl

end LucenePlusPlus.LogMergePolicy
