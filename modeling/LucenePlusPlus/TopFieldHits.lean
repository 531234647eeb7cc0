import LucenePlusPlus.TopFieldCollector

/-!
Searches with a `TopFieldCollector`. Its queue has the best of the hits collected, its comparators have the documents
of the queue in the slots of their entries, and when the queue is full the slot of its first entry is their bottom.
-/

namespace LucenePlusPlus
open Ranking

variable {ρ V S : Type} {segments : Set (IndexSegment ρ)}

/-- A document is found competitive only if it comes before the bottom, and not competitive only if the bottom comes
before it: when this relation holds between the bottom and the document. -/
def Decides (fields : List (OrderedField V segments)) (after : Nat → Nat → Prop)
    (competitive : TopFieldCollector.Competitive ρ V) : Prop :=
  ∀ numHits segment slots slot bottomDoc doc comparators,
    List.Forall₂ (Follows numHits (some segment) slots (some slot)) fields comparators →
    slots slot = some bottomDoc → doc < segment.maxDoc → Reversible fields bottomDoc (segment.docBase + doc) →
    after bottomDoc (segment.docBase + doc) →
    (competitive comparators bottomDoc segment.docBase doc = true →
      Before fields (segment.docBase + doc) bottomDoc) ∧
    (competitive comparators bottomDoc segment.docBase doc = false →
      Before fields bottomDoc (segment.docBase + doc))

section Competitive
variable {fields : List (OrderedField V segments)}

theorem multiComparator_decides (hne : fields ≠ []) :
    Decides fields (fun bottomDoc doc => bottomDoc < doc) MultiComparatorNonScoringCollector.competitive := by
  intro numHits segment slots slot bottomDoc doc comparators h hslot hdoc hreversible hafter
  induction h with
  | nil => exact absurd rfl hne
  | @cons f c fs cs hc hrest ih =>
      have hsign := hc.compareBottom hslot hdoc hreversible.1
      rw [before_cons hsign, before_cons' hsign, MultiComparatorNonScoringCollector.competitive]
      split_ifs with hneg hpos hlast
      · exact ⟨fun h => h.elim, fun _ => Or.inl hneg⟩
      · exact ⟨fun _ => Or.inl hpos, fun h => h.elim⟩
      · rw [List.isEmpty_iff] at hlast
        subst hlast
        cases hrest
        exact ⟨fun h => h.elim, fun _ => Or.inr ⟨by omega, hafter.le⟩⟩
      · have hfs : fs ≠ [] := by
          rintro rfl
          cases hrest
          exact hlast rfl
        obtain ⟨htrue, hfalse⟩ := ih hfs (hreversible.tail hsign (by omega))
        exact ⟨fun h => Or.inr ⟨by omega, htrue h⟩, fun h => Or.inr ⟨by omega, hfalse h⟩⟩

theorem outOfOrderMultiComparator_decides (hne : fields ≠ []) :
    Decides fields (fun _ _ => True) OutOfOrderMultiComparatorNonScoringCollector.competitive := by
  intro numHits segment slots slot bottomDoc doc comparators h hslot hdoc hreversible _
  induction h with
  | nil => exact absurd rfl hne
  | @cons f c fs cs hc hrest ih =>
      have hsign := hc.compareBottom hslot hdoc hreversible.1
      rw [before_cons hsign, before_cons' hsign,
        OutOfOrderMultiComparatorNonScoringCollector.competitive]
      split_ifs with hneg hpos hlast
      · exact ⟨fun h => h.elim, fun _ => Or.inl hneg⟩
      · exact ⟨fun _ => Or.inl hpos, fun h => h.elim⟩
      · rw [List.isEmpty_iff] at hlast
        subst hlast
        cases hrest
        rw [decide_eq_true_iff, decide_eq_false_iff_not, not_not]
        refine ⟨fun h => Or.inr ⟨by omega, ?_⟩, fun h => Or.inr ⟨by omega, ?_⟩⟩
        · change segment.docBase + doc ≤ bottomDoc
          omega
        · change bottomDoc ≤ segment.docBase + doc
          omega
      · have hfs : fs ≠ [] := by
          rintro rfl
          cases hrest
          exact hlast rfl
        obtain ⟨htrue, hfalse⟩ := ih hfs (hreversible.tail hsign (by omega))
        exact ⟨fun h => Or.inr ⟨by omega, htrue h⟩, fun h => Or.inr ⟨by omega, hfalse h⟩⟩

theorem Decides.mono {after after' : Nat → Nat → Prop} {competitive : TopFieldCollector.Competitive ρ V}
    (h : Decides fields after competitive) (hle : ∀ bottomDoc doc, after' bottomDoc doc → after bottomDoc doc) :
    Decides fields after' competitive :=
  fun numHits segment slots slot bottomDoc doc comparators hfollows hslot hdoc hreversible hafter =>
    h numHits segment slots slot bottomDoc doc comparators hfollows hslot hdoc hreversible (hle _ _ hafter)

theorem Decides.one {after : Nat → Nat → Prop} {many one : TopFieldCollector.Competitive ρ V}
    (h : Decides fields after many) (hone : fields.length = 1)
    (heq : ∀ comparator bottomDoc docBase doc,
      one [comparator] bottomDoc docBase doc = many [comparator] bottomDoc docBase doc) :
    Decides fields after one := by
  intro numHits segment slots slot bottomDoc doc comparators hfollows
  obtain ⟨comparator, rfl⟩ := List.length_eq_one_iff.mp (hfollows.length_eq ▸ hone)
  rw [heq]
  exact h numHits segment slots slot bottomDoc doc [comparator] hfollows

theorem oneComparator_decides (hone : fields.length = 1) :
    Decides fields (fun bottomDoc doc => bottomDoc < doc) OneComparatorNonScoringCollector.competitive := by
  have hne : fields ≠ [] := by
    rintro rfl
    cases hone
  apply (multiComparator_decides hne).one hone
  intro comparator bottomDoc docBase doc
  rw [OneComparatorNonScoringCollector.competitive, MultiComparatorNonScoringCollector.competitive]
  split_ifs with hneg hpos
  · rw [decide_eq_false_iff_not, not_not]
    exact hneg.le
  · rw [decide_eq_true_iff]
    omega
  · rw [decide_eq_false_iff_not]
    omega
  · rename_i hlast
    exact absurd rfl hlast

theorem outOfOrderOneComparator_decides (hone : fields.length = 1) :
    Decides fields (fun _ _ => True) OutOfOrderOneComparatorNonScoringCollector.competitive := by
  have hne : fields ≠ [] := by
    rintro rfl
    cases hone
  apply (outOfOrderMultiComparator_decides hne).one hone
  intro comparator bottomDoc docBase doc
  rw [OutOfOrderOneComparatorNonScoringCollector.competitive, OutOfOrderMultiComparatorNonScoringCollector.competitive]
  split_ifs with hneg hpos
  · rw [decide_eq_false_iff_not, not_not]
    exact Or.inl hneg
  · rw [decide_eq_true_iff]
    omega
  · rw [decide_eq_decide]
    omega
  · rename_i hlast
    exact absurd rfl hlast

end Competitive

/-- The first of two entries comes behind the second. -/
def behind (fields : List (OrderedField V segments)) (first second : FieldValueHitQueueEntry S) : Bool :=
  ¬ Before fields first.doc second.doc

theorem ranks_behind (fields : List (OrderedField V segments)) :
    PriorityQueue.Ranks (@behind ρ V S segments fields) (Order.Preimage FieldValueHitQueueEntry.doc (Before fields)) := by
  intro first second
  rw [behind, decide_eq_false_iff_not, not_not]
  rfl

/-- The slots have the documents of the entries. -/
structure InSlots (entries : Multiset (FieldValueHitQueueEntry S)) (slots : Nat → Option Nat) : Prop where
  docs : ∀ entry ∈ entries, slots entry.slot = some entry.doc
  nodup : (entries.map FieldValueHitQueueEntry.slot).Nodup

theorem InSlots.update {entries : Multiset (FieldValueHitQueueEntry S)} {slots : Nat → Option Nat}
    (h : InSlots entries slots) {entry : FieldValueHitQueueEntry S}
    (hfree : entry.slot ∉ entries.map FieldValueHitQueueEntry.slot) :
    InSlots (entry ::ₘ entries) (Function.update slots entry.slot (some entry.doc)) where
  docs entry' hmem := by
    rcases Multiset.mem_cons.mp hmem with rfl | hmem
    · exact Function.update_self _ _ _
    · have hne : entry'.slot ≠ entry.slot := by
        intro heq
        exact hfree (heq ▸ Multiset.mem_map_of_mem _ hmem)
      rw [Function.update_of_ne hne]
      exact h.docs entry' hmem
  nodup := by
    rw [Multiset.map_cons, Multiset.nodup_cons]
    exact ⟨hfree, h.nodup⟩

theorem InSlots.of_cons {entries : Multiset (FieldValueHitQueueEntry S)} {slots : Nat → Option Nat}
    {entry : FieldValueHitQueueEntry S} (h : InSlots (entry ::ₘ entries) slots) :
    InSlots entries slots ∧ entry.slot ∉ entries.map FieldValueHitQueueEntry.slot := by
  have hnodup := h.nodup
  rw [Multiset.map_cons, Multiset.nodup_cons] at hnodup
  exact ⟨⟨fun entry' hmem => h.docs entry' (Multiset.mem_cons_of_mem hmem), hnodup.2⟩, hnodup.1⟩

theorem InSlots.agree {entries : Multiset (FieldValueHitQueueEntry S)} {slots : Nat → Option Nat}
    (h : InSlots entries slots) {numHits : Nat} {current : Option (IndexSegment ρ)} {bottom : Option Nat}
    {fields : List (OrderedField V segments)} {comparators : List (SortingComparator ρ V)}
    (hfollows : List.Forall₂ (Follows numHits current slots bottom) fields comparators)
    (hreversible : ∀ first ∈ entries, ∀ second ∈ entries, Reversible fields first.doc second.doc) :
    PriorityQueue.Agree (FieldValueHitQueue.lessThan comparators) (behind fields) entries := by
  intro first hfirst second hsecond
  rw [FieldValueHitQueue.lessThan_eq, Bool.eq_iff_iff, ← not_iff_not, Bool.not_eq_true, Bool.not_eq_true,
    MultiComparatorsFieldValueHitQueue.lessThan_iff hfollows (h.docs first hfirst) (h.docs second hsecond)
      (hreversible first hfirst second hsecond)]
  exact (ranks_behind fields first second).symm

variable {fields : List (OrderedField V segments)} {numHits : Nat} {fillFields : Bool} {scoring : Scoring}
  {score : Nat → S} {current : Option (IndexSegment ρ)} {segment : IndexSegment ρ} {c : TopFieldCollector ρ V S}
  {docs : List Nat} {doc : Nat} {entries : Multiset (FieldValueHitQueueEntry S)} {slots : Nat → Option Nat}

/-- A queue of entries for the first of these documents, which are in these slots. -/
structure Queued (fields : List (OrderedField V segments)) (numHits : Nat) (scoring : Scoring) (score : Nat → S)
    (docs : List Nat) (entries : Multiset (FieldValueHitQueueEntry S)) (slots : Nat → Option Nat)
    (pq : PriorityQueue (FieldValueHitQueueEntry S)) : Prop where
  holds : pq.Holds (behind fields) entries
  docs_eq : entries.map FieldValueHitQueueEntry.doc = best (Before fields) numHits docs
  inSlots : InSlots entries slots
  slot_lt : ∀ entry ∈ entries, entry.slot < min numHits docs.length
  score_eq : ∀ entry ∈ entries, entry.score = scoring.entryScore (score entry.doc)
  heapSize : pq.heapSize = (PriorityQueue.new numHits : PriorityQueue (FieldValueHitQueueEntry S)).heapSize

namespace Queued
variable {pq : PriorityQueue (FieldValueHitQueueEntry S)} {entry : FieldValueHitQueueEntry S}

theorem card (h : Queued fields numHits scoring score docs entries slots pq) :
    entries.card = min numHits docs.length := by
  rw [← Multiset.card_map FieldValueHitQueueEntry.doc, h.docs_eq, Multiset.coe_card, best, List.length_take,
    List.length_insertionSort]

theorem mem_docs (h : Queued fields numHits scoring score docs entries slots pq) (hmem : entry ∈ entries) :
    entry.doc ∈ docs := by
  have hdocs : entry.doc ∈ entries.map FieldValueHitQueueEntry.doc := Multiset.mem_map_of_mem _ hmem
  rw [h.docs_eq, Multiset.mem_coe] at hdocs
  exact (List.mem_insertionSort _).mp (List.mem_of_mem_take hdocs)

/-- The queue compares its entries with these comparators as their documents are ordered. -/
theorem agree (h : Queued fields numHits scoring score docs entries slots pq) {bottom : Option Nat}
    {comparators : List (SortingComparator ρ V)}
    (hfollows : List.Forall₂ (Follows numHits current slots bottom) fields comparators)
    (hreversible : ∀ a ∈ docs, ∀ b ∈ docs, Reversible fields a b) :
    PriorityQueue.Agree (FieldValueHitQueue.lessThan comparators) (behind fields) entries :=
  h.inSlots.agree hfollows fun _ hfirst _ hsecond =>
    hreversible _ (h.mem_docs hfirst) _ (h.mem_docs hsecond)

theorem top (h : Queued fields numHits scoring score docs entries slots pq) (hpos : 0 < min numHits docs.length) :
    ∃ entry ∈ entries, pq.top = some entry := by
  have hne : entries ≠ 0 := by
    rw [← Multiset.card_pos, h.card]
    exact hpos
  obtain ⟨entry, rest, -, rfl, htop, -⟩ := h.holds.pop (ranks_behind fields).strictWeakOn hne
  exact ⟨entry, Multiset.mem_cons_self entry rest, htop⟩

theorem reject (h : Queued fields numHits scoring score docs entries slots pq) (hpos : 1 ≤ numHits)
    (hfull : numHits ≤ docs.length) (htop : pq.top = some entry) (hx : Before fields entry.doc doc) :
    Queued fields numHits scoring score (doc :: docs) entries slots pq where
  holds := h.holds
  docs_eq := by
    obtain ⟨k, rfl⟩ : ∃ k, numHits = k + 1 := ⟨numHits - 1, by omega⟩
    exact h.holds.keep_behind_standing (ranks_behind fields) h.docs_eq hfull htop hx
  inSlots := h.inSlots
  slot_lt entry' hmem := by
    have hlt := h.slot_lt entry' hmem
    rw [List.length_cons]
    omega
  score_eq := h.score_eq
  heapSize := h.heapSize

theorem accept (h : Queued fields numHits scoring score docs entries slots pq) (hpos : 1 ≤ numHits)
    (hfull : numHits ≤ docs.length) (htop : pq.top = some entry) (entry' : FieldValueHitQueueEntry S)
    (hx : Before fields entry'.doc entry.doc) (hslot : entry'.slot = entry.slot)
    (hscore : entry'.score = scoring.entryScore (score entry'.doc)) :
    ∃ entries', Queued fields numHits scoring score (entry'.doc :: docs) entries'
      (Function.update slots entry.slot (some entry'.doc)) (pq.changeTop (behind fields) entry') ∧
      ∀ lessThan, PriorityQueue.Agree lessThan (behind fields) entries' →
        pq.changeTop lessThan entry' = pq.changeTop (behind fields) entry' := by
  obtain ⟨k, rfl⟩ : ∃ k, numHits = k + 1 := ⟨numHits - 1, by omega⟩
  obtain ⟨rest, rfl, hholds, hbest⟩ :=
    h.holds.keep_before_standing (ranks_behind fields) h.docs_eq hfull htop hx
  obtain ⟨hrest, hfree⟩ := h.inSlots.of_cons
  refine ⟨entry' ::ₘ rest, ⟨hholds, hbest, ?_, fun e he => ?_, fun e he => ?_, ?_⟩, fun lessThan hagree => ?_⟩
  · rw [← hslot] at hfree ⊢
    exact hrest.update hfree
  · rw [List.length_cons]
    rcases Multiset.mem_cons.mp he with rfl | he
    · have hlt := h.slot_lt entry (Multiset.mem_cons_self entry rest)
      omega
    · have hlt := h.slot_lt e (Multiset.mem_cons_of_mem he)
      omega
  · rcases Multiset.mem_cons.mp he with rfl | he
    · exact hscore
    · exact h.score_eq e (Multiset.mem_cons_of_mem he)
  · exact h.heapSize
  · exact h.holds.changeTop_congr htop hagree

theorem add (h : Queued fields numHits scoring score docs entries slots pq) (hroom : docs.length < numHits)
    (hmax : numHits = INT_MAX → docs.length + 1 < INT_MAX) (entry' : FieldValueHitQueueEntry S)
    (hslot : entry'.slot = docs.length) (hscore : entry'.score = scoring.entryScore (score entry'.doc)) :
    ∃ entries' pq', Queued fields numHits scoring score (entry'.doc :: docs) entries'
      (Function.update slots docs.length (some entry'.doc)) pq' ∧
      ∀ lessThan, PriorityQueue.Agree lessThan (behind fields) entries' → pq.add lessThan entry' = .ok pq' := by
  have hsize : pq.size = docs.length := by
    rw [← h.holds.card, h.card]
    omega
  have hheap : pq.size + 1 < pq.heapSize := by
    rw [h.heapSize, hsize]
    simp only [PriorityQueue.new]
    split_ifs with hzero hint
    · omega
    · exact hmax hint
    · omega
  obtain ⟨pq', hadd, hholds⟩ := h.holds.add (x := entry') (ranks_behind fields).strictWeakOn hheap
  have hfree : entry'.slot ∉ entries.map FieldValueHitQueueEntry.slot := by
    intro hmem
    obtain ⟨e, he, heq⟩ := Multiset.mem_map.mp hmem
    have hlt := h.slot_lt e he
    omega
  have hall : ∀ l : List Nat, l.length ≤ numHits → best (Before fields) numHits l = l.insertionSort (Before fields) := by
    intro l hl
    apply List.take_of_length_le
    rw [List.length_insertionSort]
    exact hl
  refine ⟨entry' ::ₘ entries, pq', ⟨hholds, ?_, ?_, fun e he => ?_, fun e he => ?_, ?_⟩, fun lessThan hagree => ?_⟩
  · rw [Multiset.map_cons, h.docs_eq, hall docs hroom.le, hall (entry'.doc :: docs) hroom, Multiset.cons_coe,
      Multiset.coe_eq_coe]
    calc
      (entry'.doc :: docs.insertionSort (Before fields)).Perm (entry'.doc :: docs) :=
        (List.perm_insertionSort _ docs).cons _
      (entry'.doc :: docs).Perm _ := (List.perm_insertionSort _ _).symm
  · rw [← hslot]
    exact h.inSlots.update hfree
  · rw [List.length_cons]
    rcases Multiset.mem_cons.mp he with rfl | he
    · omega
    · have hlt := h.slot_lt e he
      omega
  · rcases Multiset.mem_cons.mp he with rfl | he
    · exact hscore
    · exact h.score_eq e he
  · exact (PriorityQueue.heapSize_add hadd).trans h.heapSize
  · rw [h.holds.add_congr hagree]
    exact hadd

end Queued

namespace TopFieldCollector

theorem keeps_setBottom {pq : PriorityQueue (FieldValueHitQueueEntry S)}
    (hqueued : Queued fields numHits scoring score docs entries slots pq) {comparators : List (SortingComparator ρ V)}
    (hfollows : List.Forall₂ (Follows numHits (some segment) slots none) fields comparators)
    (hpos : 0 < min numHits docs.length) :
    ∃ bottom, pq.top = some bottom ∧ List.Forall₂ (Follows numHits (some segment) slots (some bottom.slot)) fields
      (comparators.map fun comparator => comparator.setBottom bottom.slot) := by
  obtain ⟨bottom, hmem, htop⟩ := hqueued.top hpos
  refine ⟨bottom, htop, ?_⟩
  rw [List.forall₂_map_right_iff]
  exact hfollows.imp fun f comparator hf => hf.setBottom (hqueued.inSlots.docs bottom hmem)

theorem setBottom_of_top {c : TopFieldCollector ρ V S} {bottom : FieldValueHitQueueEntry S}
    (h : c.pq.top = some bottom) :
    c.setBottom = { c with comparators := c.comparators.map fun comparator => comparator.setBottom bottom.slot } := by
  unfold setBottom
  rw [h]

end TopFieldCollector

section Collecting
variable [LinearOrder S]

/-- What a collector has after these documents of a search. -/
structure TopFieldCollector.Keeps (fields : List (OrderedField V segments)) (numHits : Nat) (fillFields : Bool)
    (scoring : Scoring) (score : Nat → S) (current : Option (IndexSegment ρ)) (c : TopFieldCollector ρ V S)
    (docs : List Nat) (entries : Multiset (FieldValueHitQueueEntry S)) (slots : Nat → Option Nat) : Prop where
  queued : Queued fields numHits scoring score docs entries slots c.pq
  comparators : List.Forall₂
    (Follows numHits current slots (if c.queueFull then c.pq.top.map FieldValueHitQueueEntry.slot else none))
    fields c.comparators
  numHits_eq : c.numHits = numHits
  fillFields_eq : c.fillFields = fillFields
  totalHits : c.totalHits = docs.length
  queueFull : c.queueFull = decide (1 ≤ docs.length ∧ numHits ≤ docs.length)
  docBase : ∀ segment ∈ current, c.docBase = segment.docBase
  maxScore : c.maxScore = if scoring = .scoringMaxScore then some (docs.map score).maximum else none

namespace TopFieldCollector

theorem keeps_new (fields : List (OrderedField V segments)) (numHits : Nat) (fillFields : Bool) (scoring : Scoring)
    (score : Nat → S) :
    (new (fields.map OrderedField.field) numHits fillFields scoring).Keeps fields numHits fillFields scoring score none
      [] 0 fun _ => none where
  queued :=
    { holds := PriorityQueue.holds_new _ _
      docs_eq := by
        rw [best, List.insertionSort_nil, List.take_nil]
        rfl
      inSlots := ⟨fun _ hmem => absurd hmem (Multiset.notMem_zero _), Multiset.nodup_zero⟩
      slot_lt := fun _ hmem => absurd hmem (Multiset.notMem_zero _)
      score_eq := fun _ hmem => absurd hmem (Multiset.notMem_zero _)
      heapSize := rfl }
  comparators := by
    change List.Forall₂ _ fields ((fields.map OrderedField.field).map _)
    rw [List.map_map, List.forall₂_map_right_iff, List.forall₂_same]
    exact fun f _ => Follows.new numHits f
  numHits_eq := rfl
  fillFields_eq := rfl
  totalHits := rfl
  queueFull := by
    change false = decide (1 ≤ 0 ∧ numHits ≤ 0)
    rw [eq_comm, decide_eq_false_iff_not]
    omega
  docBase segment hmem := by cases hmem
  maxScore := rfl

theorem Keeps.setNextReader (h : c.Keeps fields numHits fillFields scoring score current docs entries slots)
    (hmem : segment ∈ segments) :
    (c.setNextReader segment.reader segment.docBase).Keeps fields numHits fillFields scoring score (some segment) docs
      entries slots where
  queued := h.queued
  comparators := by
    rw [TopFieldCollector.setNextReader, List.forall₂_map_right_iff]
    exact h.comparators.imp fun f comparator hfollows => hfollows.setNextReader hmem
  numHits_eq := h.numHits_eq
  fillFields_eq := h.fillFields_eq
  totalHits := h.totalHits
  queueFull := h.queueFull
  docBase segment' hmem' := by
    rw [Option.mem_some_iff] at hmem'
    rw [← hmem']
    rfl
  maxScore := h.maxScore

theorem trackMaxScore_eq (c : TopFieldCollector ρ V S) (x : S)
    (h : c.maxScore = if scoring = .scoringMaxScore then some (docs.map score).maximum else none) :
    c.trackMaxScore scoring x =
      { c with maxScore := if scoring = .scoringMaxScore then some (x :: docs.map score).maximum else none } := by
  unfold trackMaxScore
  by_cases hmax : scoring = .scoringMaxScore
  · rw [if_pos hmax] at h
    rw [if_pos hmax, if_pos hmax, h, List.maximum_cons]
    dsimp only
    congr 2
    split
    · rename_i hlt
      exact (max_eq_left hlt.le).symm
    · rename_i hle
      exact (max_eq_right (not_lt.mp hle)).symm
  · rw [if_neg hmax] at h
    rw [if_neg hmax, if_neg hmax, ← h]

theorem Keeps.collect (h : c.Keeps fields numHits fillFields scoring score (some segment) docs entries slots)
    (hpos : 1 ≤ numHits) (hint : numHits = INT_MAX → docs.length + 1 < INT_MAX) (hdoc : doc < segment.maxDoc)
    {after : Nat → Nat → Prop} {competitive : Competitive ρ V} (hdecides : Decides fields after competitive)
    (hafter : ∀ earlier ∈ docs, after earlier (segment.docBase + doc))
    (hreversible : ∀ a ∈ (segment.docBase + doc) :: docs, ∀ b ∈ (segment.docBase + doc) :: docs, Reversible fields a b) :
    ∃ c' entries' slots', c.collectWith scoring competitive doc (score (segment.docBase + doc)) = some c' ∧
      c'.Keeps fields numHits fillFields scoring score (some segment) ((segment.docBase + doc) :: docs) entries'
        slots' := by
  have hbase : c.docBase = segment.docBase := h.docBase segment rfl
  unfold collectWith
  rw [trackMaxScore_eq c (score (segment.docBase + doc)) h.maxScore]
  dsimp only
  by_cases hq : c.queueFull = true
  · have hle : numHits ≤ docs.length := (of_decide_eq_true (h.queueFull.symm.trans hq)).2
    obtain ⟨bottom, hmem, htop⟩ := h.queued.top (by omega)
    have hslot := h.queued.inSlots.docs bottom hmem
    have hfollows := h.comparators
    rw [if_pos hq, htop, Option.map_some] at hfollows
    have hbottom : bottom.doc ∈ docs := h.queued.mem_docs hmem
    obtain ⟨hbefore, hbehind⟩ := hdecides numHits segment slots bottom.slot bottom.doc doc c.comparators hfollows
      hslot hdoc (hreversible _ (List.mem_cons_of_mem _ hbottom) _ List.mem_cons_self) (hafter bottom.doc hbottom)
    rw [if_pos hq, htop]
    dsimp only
    rw [hbase]
    split
    · rename_i hcompetitive
      -- the document is copied to the slot of the bottom, and a new bottom is found
      obtain ⟨entry', hentry'⟩ : ∃ entry' : FieldValueHitQueueEntry S, entry' = ⟨bottom.slot, segment.docBase + doc,
        if scoring = .nonScoring then bottom.score else some (score (segment.docBase + doc))⟩ := ⟨_, rfl⟩
      have hscore : entry'.score = scoring.entryScore (score entry'.doc) := by
        rw [hentry']
        dsimp only
        split
        · rename_i hnone
          rw [h.queued.score_eq bottom hmem, hnone]
          rfl
        · rename_i hsome
          cases scoring
          · exact absurd rfl hsome
          · rfl
          · rfl
      obtain ⟨entries', hqueued, hchange⟩ := h.queued.accept hpos hle htop entry'
        (by rw [hentry']; exact hbefore hcompetitive) (by rw [hentry']) hscore
      have hcopied : List.Forall₂ (Follows numHits (some segment) (Function.update slots bottom.slot (some entry'.doc)) none)
          fields (c.comparators.map fun comparator => comparator.copy bottom.slot doc) := by
        rw [List.forall₂_map_right_iff, hentry']
        exact hfollows.imp fun f comparator hf => hf.copy (Or.inr rfl) ((h.queued.slot_lt bottom hmem).trans_le (min_le_left _ _)) hdoc
      have hpq := hchange _ (hqueued.agree hcopied (by rw [hentry']; exact hreversible))
      obtain ⟨bottom', htop', hset⟩ := keeps_setBottom hqueued hcopied (by rw [List.length_cons]; omega)
      have hdoc' : entry'.doc = segment.docBase + doc := by rw [hentry']
      unfold copy updateBottom
      dsimp only
      rw [← hentry', hpq, setBottom_of_top htop']
      rw [hdoc'] at hqueued hset
      refine ⟨_, entries', _, rfl, ⟨hqueued, ?_, h.numHits_eq, h.fillFields_eq, ?_, ?_, ?_, rfl⟩⟩
      · dsimp only
        rw [if_pos hq, htop']
        exact hset
      · rw [h.totalHits, List.length_cons]
      · rw [hq, eq_comm, decide_eq_true_iff, List.length_cons]
        omega
      · exact fun segment' hsegment' => hbase ▸ h.docBase segment' hsegment'
    · rename_i hcompetitive
      have hfalse : competitive c.comparators bottom.doc segment.docBase doc = false :=
        Bool.eq_false_of_not_eq_true hcompetitive
      refine ⟨_, entries, slots, rfl, ⟨h.queued.reject hpos hle htop (hbehind hfalse), h.comparators, h.numHits_eq,
        h.fillFields_eq, ?_, ?_, ?_, rfl⟩⟩
      · rw [h.totalHits, List.length_cons]
      · rw [hq, eq_comm, decide_eq_true_iff, List.length_cons]
        omega
      · exact fun segment' hsegment' => hbase ▸ h.docBase segment' hsegment'
  · have hlt : docs.length < numHits := by
      by_contra hle
      rw [h.queueFull, decide_eq_true_iff] at hq
      omega
    have hfollows := h.comparators
    rw [if_neg hq] at hfollows
    obtain ⟨entry', hentry'⟩ : ∃ entry' : FieldValueHitQueueEntry S, entry' = ⟨docs.length, segment.docBase + doc,
      scoring.entryScore (score (segment.docBase + doc))⟩ := ⟨_, rfl⟩
    have hdoc' : entry'.doc = segment.docBase + doc := by rw [hentry']
    obtain ⟨entries', pq', hqueued, hadd⟩ := h.queued.add hlt hint entry'
      (by rw [hentry']) (by rw [hentry'])
    have hcopied : List.Forall₂ (Follows numHits (some segment) (Function.update slots docs.length (some entry'.doc)) none)
        fields (c.comparators.map fun comparator => comparator.copy docs.length doc) := by
      rw [List.forall₂_map_right_iff, hdoc']
      exact hfollows.imp fun f comparator hf => hf.copy (Or.inl rfl) hlt hdoc
    have hpq := hadd _ (hqueued.agree hcopied (by rw [hdoc']; exact hreversible))
    rw [if_neg hq, h.totalHits, Nat.add_sub_cancel]
    unfold copy add
    dsimp only
    rw [hbase, ← hentry', hpq, h.numHits_eq]
    dsimp only
    obtain ⟨bottom', htop', hset⟩ := keeps_setBottom hqueued hcopied (by rw [List.length_cons]; omega)
    rw [hdoc'] at hqueued hset hcopied
    by_cases hfull : docs.length + 1 = numHits
    · rw [if_pos (decide_eq_true hfull), setBottom_of_top htop']
      refine ⟨_, entries', _, rfl, ⟨hqueued, ?_, rfl, h.fillFields_eq, rfl, ?_, ?_, rfl⟩⟩
      · dsimp only
        rw [if_pos (decide_eq_true hfull), htop']
        exact hset
      · rw [List.length_cons, decide_eq_decide]
        omega
      · exact fun segment' hsegment' => hbase ▸ h.docBase segment' hsegment'
    · rw [if_neg (by rw [decide_eq_true_iff]; exact hfull)]
      refine ⟨_, entries', _, rfl, ⟨hqueued, ?_, rfl, h.fillFields_eq, rfl, ?_, ?_, rfl⟩⟩
      · dsimp only
        rw [if_neg (by rw [decide_eq_true_iff]; exact hfull)]
        exact hcopied
      · rw [List.length_cons, decide_eq_decide]
        omega
      · exact fun segment' hsegment' => hbase ▸ h.docBase segment' hsegment'

theorem Keeps.searchSegment {after : Nat → Nat → Prop} {competitive : Competitive ρ V}
    (hdecides : Decides fields after competitive) (hits : List (Fin segment.maxDoc))
    (h : c.Keeps fields numHits fillFields scoring score (some segment) docs entries slots)
    (hpos : numHits = 0 → hits = []) (hint : numHits = INT_MAX → docs.length + hits.length < INT_MAX)
    (hafter : (docs.reverse ++ hits.map fun hit => segment.docBase + hit.val).Pairwise after) {P : Nat → Prop}
    (hreversible : ∀ a b, P a → P b → Reversible fields a b) (hdocs : ∀ doc ∈ docs, P doc)
    (hhits : ∀ hit ∈ hits, P (segment.docBase + hit.val)) :
    ∃ c' entries' slots',
      hits.foldlM (fun c hit => c.collectWith scoring competitive hit.val (score (segment.docBase + hit.val))) c = some c' ∧
      c'.Keeps fields numHits fillFields scoring score (some segment)
        ((hits.map fun hit => segment.docBase + hit.val).reverse ++ docs) entries' slots' := by
  induction hits generalizing c docs entries slots with
  | nil => exact ⟨c, entries, slots, rfl, h⟩
  | cons hit hits ih =>
      rw [List.map_cons, List.append_cons] at hafter
      have hdocs' : ∀ doc ∈ (segment.docBase + hit.val) :: docs, P doc :=
        List.forall_mem_cons.mpr ⟨hhits hit List.mem_cons_self, hdocs⟩
      have hpos' : 1 ≤ numHits := by
        by_contra hzero
        exact absurd (hpos (by omega)) (List.cons_ne_nil hit hits)
      obtain ⟨c', entries', slots', hcollect, h'⟩ := h.collect hpos'
        (fun heq => by have hlt := hint heq; rw [List.length_cons] at hlt; omega) hit.isLt hdecides
        (fun earlier hmem => (List.pairwise_append.mp (List.pairwise_append.mp hafter).1).2.2 earlier
          (List.mem_reverse.mpr hmem) _ (List.mem_singleton_self _))
        fun a ha b hb => hreversible a b (hdocs' a ha) (hdocs' b hb)
      rw [← List.reverse_cons] at hafter
      obtain ⟨c'', entries'', slots'', hrest, h''⟩ := ih h' (fun heq => by omega)
        (fun heq => by have hlt := hint heq; rw [List.length_cons] at hlt ⊢; omega) hafter hdocs'
        fun hit' hmem' => hhits hit' (List.mem_cons_of_mem _ hmem')
      refine ⟨c'', entries'', slots'', ?_, ?_⟩
      · rw [List.foldlM_cons, hcollect]
        exact hrest
      · rw [List.map_cons, List.reverse_cons, List.append_assoc]
        exact h''

theorem Keeps.search {after : Nat → Nat → Prop} {competitive : Competitive ρ V}
    (hdecides : Decides fields after competitive) (object : CollectorObject ρ V S)
    (hobject : object.collect = fun c => c.collectWith scoring competitive) {searched : List (SearchedSegment ρ)}
    (h : c.Keeps fields numHits fillFields scoring score current docs entries slots)
    (hpos : numHits = 0 → docsOf searched = []) (hmem : ∀ segment ∈ searched, segment.toIndexSegment ∈ segments)
    (hint : numHits = INT_MAX → docs.length + (docsOf searched).length < INT_MAX)
    (hafter : (docs.reverse ++ docsOf searched).Pairwise after) {P : Nat → Prop}
    (hreversible : ∀ a b, P a → P b → Reversible fields a b) (hdocs : ∀ doc ∈ docs, P doc)
    (hsearched : ∀ doc ∈ docsOf searched, P doc) :
    ∃ c' current' entries' slots', searched.foldlM (object.searchSegment score) c = some c' ∧
      c'.Keeps fields numHits fillFields scoring score current' ((docsOf searched).reverse ++ docs) entries'
        slots' := by
  induction searched generalizing c current docs entries slots with
  | nil => exact ⟨c, current, entries, slots, rfl, h⟩
  | cons segment searched ih =>
      have hcons : docsOf (segment :: searched) = segment.docs ++ docsOf searched := List.flatMap_cons
      rw [hcons] at hpos
      rw [hcons, ← List.append_assoc] at hafter
      rw [hcons, List.length_append] at hint
      rw [hcons, List.forall_mem_append] at hsearched
      have hlength : segment.docs.length = segment.hits.length := List.length_map _
      have hhits : ∀ hit ∈ segment.hits, P (segment.docBase + hit.val) := fun hit hmem' =>
        hsearched.1 _ (List.mem_map_of_mem hmem')
      have hnext := h.setNextReader (hmem segment List.mem_cons_self)
      obtain ⟨c', entries', slots', hsegment, h'⟩ := hnext.searchSegment hdecides segment.hits
        (fun heq => List.map_eq_nil_iff.mp (List.append_eq_nil_iff.mp (hpos heq)).1) (fun heq => by have hlt := hint heq; omega) (List.pairwise_append.mp hafter).1 hreversible hdocs hhits
      obtain ⟨c'', current'', entries'', slots'', hrest, h''⟩ := ih h'
        (fun heq => (List.append_eq_nil_iff.mp (hpos heq)).2) (fun segment' hmem' => hmem segment' (List.mem_cons_of_mem _ hmem'))
        (fun heq => by
          have hlt := hint heq
          rw [List.length_append, List.length_reverse, List.length_map]
          omega)
        (by
          rw [List.reverse_append, List.reverse_reverse]
          exact hafter) (fun doc hmem' => by
          rcases List.mem_append.mp hmem' with hmem' | hmem'
          · exact hsearched.1 doc (List.mem_reverse.mp hmem')
          · exact hdocs doc hmem') hsearched.2
      refine ⟨c'', current'', entries'', slots'', ?_, ?_⟩
      · rw [List.foldlM_cons, CollectorObject.searchSegment, hobject, hsegment]
        exact hrest
      · rw [hcons, List.reverse_append, List.append_assoc]
        exact h''

end TopFieldCollector

/-! ### What is returned -/

/-- What a search is to return for these hits: the first of them in the order of the fields, with their scores and
the values they are sorted by if those are asked for. -/
def sortedTopDocs (fields : List (OrderedField V segments)) (numHits : Nat) (fillFields : Bool) (scoring : Scoring)
    (score : Nat → S) (docs : List Nat) : TopFieldDocs V S where
  totalHits := docs.length
  scoreDocs := ((docs.insertionSort (Before fields)).take numHits).map fun doc =>
    some ⟨doc, scoring.entryScore (score doc), if fillFields then some (fields.map fun f => f.valueOf doc) else none⟩
  maxScore := if scoring = .scoringMaxScore ∧ docs ≠ [] then some (docs.map score).maximum else none

theorem sortedTopDocs_congr {docs' : List Nat} (hperm : docs.Perm docs') :
    sortedTopDocs fields numHits fillFields scoring score docs =
      sortedTopDocs fields numHits fillFields scoring score docs' := by
  have hnil : docs = [] ↔ docs' = [] := by
    rw [← List.length_eq_zero_iff, hperm.length_eq, List.length_eq_zero_iff]
  have hmaximum : (docs.map score).maximum = (docs'.map score).maximum := by
    apply le_antisymm
    · exact List.maximum_le_of_forall_le fun x hx => List.le_maximum_of_mem' ((hperm.map score).subset hx)
    · exact List.maximum_le_of_forall_le fun x hx => List.le_maximum_of_mem' ((hperm.map score).symm.subset hx)
  rw [sortedTopDocs, sortedTopDocs, insertionSort_congr hperm, hperm.length_eq, hmaximum]
  simp only [ne_eq, hnil]

theorem TopFieldCollector.Keeps.values
    (h : c.Keeps fields numHits fillFields scoring score current docs entries slots)
    {entry : FieldValueHitQueueEntry S} (hmem : entry ∈ entries) :
    (c.comparators.map fun comparator => comparator.value entry.slot) = fields.map fun f => f.valueOf entry.doc := by
  have hslot := h.queued.inSlots.docs entry hmem
  have hfollows := h.comparators
  clear h
  generalize (if c.queueFull then c.pq.top.map FieldValueHitQueueEntry.slot else none) = bottom at hfollows
  generalize c.comparators = comparators at hfollows ⊢
  induction hfollows with
  | nil => rfl
  | cons hf _ ih => rw [List.map_cons, List.map_cons, hf.value hslot, ih]

theorem TopFieldCollector.Keeps.populateResults
    (h : c.Keeps fields numHits fillFields scoring score current docs entries slots)
    (hreversible : ∀ a ∈ docs, ∀ b ∈ docs, Reversible fields a b) :
    c.populateResults c.pq (best (Before fields) numHits docs).length = (best (Before fields) numHits docs).map fun doc =>
      some ⟨doc, scoring.entryScore (score doc),
        if fillFields then some (fields.map fun f => f.valueOf doc) else none⟩ := by
  have hcongr := h.queued.holds.popInto_congr (ranks_behind fields).strictWeakOn
    (h.queued.agree h.comparators hreversible) (best (Before fields) numHits docs).length
  obtain ⟨es, rest, pq', hentries, hes, -, hinto, -⟩ := h.queued.holds.popInto_standing (p := [])
    (s := best (Before fields) numHits docs) (ranks_behind fields) h.queued.docs_eq pairwise_best
  have hmem : ∀ entry ∈ es, entry ∈ entries := by
    intro entry he
    rw [hentries, Multiset.mem_add, Multiset.mem_coe]
    exact Or.inr he
  unfold TopFieldCollector.populateResults
  dsimp only
  rw [hcongr, hinto, h.fillFields_eq, ← hes, List.map_map]
  split
  · rename_i hfill
    rw [List.map_map]
    apply List.map_congr_left
    intro entry he
    change some (FieldValueHitQueue.fillFields c.comparators entry) = _
    rw [FieldValueHitQueue.fillFields, h.values (hmem entry he), h.queued.score_eq entry (hmem entry he)]
    rfl
  · rename_i hfill
    rw [List.map_map, List.map_map]
    apply List.map_congr_left
    intro entry he
    change some (⟨entry.doc, entry.score, none⟩ : FieldDoc V S) = _
    rw [h.queued.score_eq entry (hmem entry he)]
    rfl

theorem TopFieldCollector.Keeps.topDocs (h : c.Keeps fields numHits fillFields scoring score current docs entries slots)
    (hpos : numHits = 0 → docs = []) (hreversible : ∀ a ∈ docs, ∀ b ∈ docs, Reversible fields a b) :
    c.topDocs = sortedTopDocs fields numHits fillFields scoring score docs := by
  have hsize : c.pq.size = min numHits docs.length := by
    rw [← h.queued.holds.card, h.queued.card]
  have hmin : (if c.totalHits < c.pq.size then c.totalHits else c.pq.size) = c.pq.size := by
    rw [h.totalHits, hsize, if_neg (by omega)]
  unfold TopFieldCollector.topDocs topDocsRange
  dsimp only
  rw [hmin]
  by_cases hnil : docs = []
  · subst hnil
    rw [List.length_nil, Nat.min_zero] at hsize
    rw [hsize, if_pos (by omega)]
    unfold newTopDocs sortedTopDocs
    dsimp only
    rw [h.totalHits, List.insertionSort_nil, List.take_nil, List.map_nil, if_neg fun hand => hand.2 rfl]
  · have hlength : 0 < docs.length := List.length_pos_of_ne_nil hnil
    have hpos' : numHits ≠ 0 := fun heq => hnil (hpos heq)
    rw [if_neg (by omega)]
    have hdiscard : ((c.pq.size : Int) - 0 - min ((c.pq.size : Int) - 0) (c.pq.size : Int)).toNat = 0 := by omega
    have hhow : (min ((c.pq.size : Int) - 0) (c.pq.size : Int)).toNat = (best (Before fields) numHits docs).length := by
      rw [best, List.length_take, List.length_insertionSort, ← hsize]
      omega
    rw [hdiscard, hhow, PriorityQueue.discard, h.populateResults hreversible]
    unfold newTopDocs sortedTopDocs
    dsimp only
    rw [h.totalHits, h.maxScore]
    simp only [hnil, ne_eq, not_false_eq_true, and_true]
    rfl

/-- What is done with scores when they are asked for. -/
def Scoring.tracked (trackDocScores trackMaxScore : Bool) : Scoring :=
  if trackMaxScore then .scoringMaxScore else if trackDocScores then .scoringNoMaxScore else .nonScoring

/-- The collector that is chosen decides right, if the documents come in the order that it is chosen for. -/
theorem TopFieldCollector.create_eq {fields : List (OrderedField V segments)} (hne : fields ≠ []) (numHits : Nat)
    (fillFields trackDocScores trackMaxScore docsScoredInOrder : Bool) :
    ∃ competitive : Competitive ρ V,
      Decides fields (fun bottomDoc doc => docsScoredInOrder = true → bottomDoc < doc) competitive ∧
      (create (fields.map OrderedField.field) numHits fillFields trackDocScores trackMaxScore docsScoredInOrder :
        Option (CollectorObject ρ V S)) =
        some ⟨fun c => c.collectWith (.tracked trackDocScores trackMaxScore) competitive,
          .new (fields.map OrderedField.field) numHits fillFields (.tracked trackDocScores trackMaxScore)⟩ := by
  have hisEmpty : ¬ (fields.map OrderedField.field).isEmpty = true := by
    rw [List.isEmpty_iff, List.map_eq_nil_iff]
    exact hne
  unfold create
  rw [if_neg hisEmpty, List.length_map]
  by_cases hone : fields.length = 1
  · rw [if_pos hone]
    cases docsScoredInOrder
    · refine ⟨_, (outOfOrderOneComparator_decides hone).mono fun _ _ _ => trivial, ?_⟩
      cases trackMaxScore <;> cases trackDocScores <;> rfl
    · refine ⟨_, (oneComparator_decides hone).mono fun _ _ h => h rfl, ?_⟩
      cases trackMaxScore <;> cases trackDocScores <;> rfl
  · rw [if_neg hone]
    cases docsScoredInOrder
    · refine ⟨_, (outOfOrderMultiComparator_decides hne).mono fun _ _ _ => trivial, ?_⟩
      cases trackMaxScore <;> cases trackDocScores <;> rfl
    · refine ⟨_, (multiComparator_decides hne).mono fun _ _ h => h rfl, ?_⟩
      cases trackMaxScore <;> cases trackDocScores <;> rfl

/-- A field of bytes in reverse order, in segments of documents that have these bytes. -/
def reversedBytes (valueOf : Nat → UInt8) : OrderedField UInt8
    {segment : IndexSegment (List UInt8) | ∀ doc < segment.maxDoc, segment.reader.getD doc 0 = valueOf (segment.docBase + doc)} :=
  ⟨⟨ByteComparator fun reader doc => reader.getD doc 0, true⟩, _, _, _, ByteComparator.implements _ valueOf⟩

theorem reversible_bytes (valueOf : Nat → UInt8) (a b : Nat) : Reversible [reversedBytes valueOf] a b := by
  have hne : ∀ value value' : UInt8, Int32.ofInt (value.toNat - value'.toNat) ≠ Int32.minValue := by
    intro value value' heq
    have hint := ByteComparator.toInt_answer value value'
    have hlt := value'.toNat_lt
    rw [heq, Int32.toInt_minValue] at hint
    omega
  exact ⟨⟨fun _ _ _ _ _ _ _ _ _ _ _ => hne _ _, fun _ _ _ _ _ _ _ _ _ _ _ => hne _ _⟩, fun _ _ => trivial⟩

/-- A comparator that answers `INT_MIN` for a smaller byte, as its documentation lets it. -/
def leastAnswer (value value' : UInt8) : Int32 :=
  if value.toNat < value'.toNat then Int32.minValue else if value'.toNat < value.toNat then 1 else 0

theorem leastAnswer_sign (valueOf : Nat → UInt8) (doc doc' : Nat) :
    (Criterion.ofKey fun doc => (valueOf doc).toNat).Sign (leastAnswer (valueOf doc) (valueOf doc')).toInt doc doc' := by
  constructor
  · change _ ↔ (valueOf doc).toNat ≤ (valueOf doc').toNat
    rw [leastAnswer]
    split_ifs with hlt hgt
    · exact iff_of_true (by decide) hlt.le
    · exact iff_of_false (by decide) hgt.not_ge
    · exact iff_of_true (by decide) (not_lt.mp hgt)
  · change _ ↔ (valueOf doc').toNat ≤ (valueOf doc).toNat
    rw [leastAnswer]
    split_ifs with hlt hgt
    · exact iff_of_false (by decide) hlt.not_ge
    · exact iff_of_true (by decide) hgt.le
    · exact iff_of_true (by decide) (not_lt.mp hlt)

end Collecting

end LucenePlusPlus
