import LucenePlusPlus.FilteredSearch

/-!
Searching with a filter is intersection. Of the two iterators, the one that is behind goes to where the other is, and no
document that both have is passed.
-/

namespace LucenePlusPlus
namespace FilteredSearch
variable {σ τ : Type} {scorers : DocIdSetIterator σ} {filters : DocIdSetIterator τ} {docs docs' : Set Nat}
  {target scorerDoc filterDoc : Int} {scorer : σ} {filterIter : τ}

variable (scorers filters docs docs') in
/-- Both iterators are at the target or behind it, and have not passed a document that both have. -/
structure Leap (target : Int) (scorer : σ) (scorerDoc : Int) (filterIter : τ) (filterDoc : Int) : Prop where
  scorer : scorers.AnswersAll docs scorer scorerDoc
  filter : filters.AnswersAll docs' filterIter filterDoc
  le : target ≤ scorerDoc ∧ target ≤ filterDoc
  scorerMem : scorerDoc = NO_MORE_DOCS ∨ ∃ n ∈ docs, scorerDoc = n
  filterMem : filterDoc = NO_MORE_DOCS ∨ ∃ n ∈ docs', filterDoc = n
  passed : ∀ m ∈ docs ∩ docs', target ≤ (m : Int) → scorerDoc ≤ m ∧ filterDoc ≤ m

namespace Leap

theorem scorerDoc_le (h : Leap scorers filters docs docs' target scorer scorerDoc filterIter filterDoc)
    (hdocs : ∀ n ∈ docs, (n : Int) < NO_MORE_DOCS) : scorerDoc ≤ NO_MORE_DOCS := by
  rcases h.scorerMem with rfl | ⟨n, hmem, rfl⟩
  · exact le_rfl
  · exact (hdocs n hmem).le

theorem filterDoc_le (h : Leap scorers filters docs docs' target scorer scorerDoc filterIter filterDoc)
    (hdocs' : ∀ n ∈ docs', (n : Int) < NO_MORE_DOCS) : filterDoc ≤ NO_MORE_DOCS := by
  rcases h.filterMem with rfl | ⟨n, hmem, rfl⟩
  · exact le_rfl
  · exact (hdocs' n hmem).le

theorem of_isFirst (hscorer : scorers.AnswersAll docs scorer scorerDoc)
    (hfilter : filters.AnswersAll docs' filterIter filterDoc) (hfirst : IsFirst docs target scorerDoc)
    (hfirst' : IsFirst docs' target filterDoc) (htarget : target ≤ NO_MORE_DOCS) :
    Leap scorers filters docs docs' target scorer scorerDoc filterIter filterDoc where
  scorer := hscorer
  filter := hfilter
  le := ⟨hfirst.target_le htarget, hfirst'.target_le htarget⟩
  scorerMem := hfirst.mem
  filterMem := hfirst'.mem
  passed _ hm hle := ⟨hfirst.le_of_mem hm.1 hle, hfirst'.le_of_mem hm.2 hle⟩

theorem advanceScorer (h : Leap scorers filters docs docs' target scorer scorerDoc filterIter filterDoc)
    (hdocs' : ∀ n ∈ docs', (n : Int) < NO_MORE_DOCS) (hlt : scorerDoc < filterDoc) :
    Leap scorers filters docs docs' target (scorers.advance scorer filterDoc).2 (scorers.advance scorer filterDoc).1
      filterIter filterDoc ∧ filterDoc ≤ (scorers.advance scorer filterDoc).1 := by
  obtain ⟨hfirst, hscorer⟩ := h.scorer.advance hlt (h.filterDoc_le hdocs')
  have hle := hfirst.target_le (h.filterDoc_le hdocs')
  refine ⟨⟨hscorer, h.filter, ⟨h.le.2.trans hle, h.le.2⟩, hfirst.mem, h.filterMem, fun m hm htarget => ?_⟩, hle⟩
  have hpassed := (h.passed m hm htarget).2
  exact ⟨hfirst.le_of_mem hm.1 hpassed, hpassed⟩

theorem advanceFilter (h : Leap scorers filters docs docs' target scorer scorerDoc filterIter filterDoc)
    (hdocs : ∀ n ∈ docs, (n : Int) < NO_MORE_DOCS) (hlt : filterDoc < scorerDoc) :
    Leap scorers filters docs docs' target scorer scorerDoc (filters.advance filterIter scorerDoc).2
      (filters.advance filterIter scorerDoc).1 ∧ scorerDoc ≤ (filters.advance filterIter scorerDoc).1 := by
  obtain ⟨hfirst, hfilter⟩ := h.filter.advance hlt (h.scorerDoc_le hdocs)
  have hle := hfirst.target_le (h.scorerDoc_le hdocs)
  refine ⟨⟨h.scorer, hfilter, ⟨h.le.1, h.le.1.trans hle⟩, h.scorerMem, hfirst.mem, fun m hm htarget => ?_⟩, hle⟩
  have hpassed := (h.passed m hm htarget).1
  exact ⟨hpassed, hfirst.le_of_mem hm.2 hpassed⟩

theorem isFirst (h : Leap scorers filters docs docs' target scorer scorerDoc filterIter filterDoc)
    (hdocs : ∀ n ∈ docs, (n : Int) < NO_MORE_DOCS) (heq : scorerDoc = filterDoc) :
    IsFirst (docs ∩ docs') target scorerDoc := by
  rcases h.scorerMem with hnone | ⟨n, hmem, hn⟩
  · rw [hnone]
    refine IsFirst.none fun m hm hle => ?_
    have hpassed := (h.passed m hm hle).1
    have hlt := hdocs m hm.1
    omega
  · rcases h.filterMem with hnone | ⟨n', hmem', hn'⟩
    · have hlt := hdocs n hmem
      omega
    · have hsame : n = n' := by omega
      refine Or.inl ⟨n, ⟨hmem, hsame ▸ hmem'⟩, hn, hn ▸ h.le.1, fun m hm hle => ?_⟩
      have hpassed := (h.passed m hm hle).1
      omega

end Leap

/-- The documents from a target on, in their order. -/
def Lists (docs : Set Nat) (target : Int) (list : List Int) : Prop :=
  list.Pairwise (· < ·) ∧ ∀ doc, doc ∈ list ↔ ∃ n ∈ docs, doc = n ∧ target ≤ n

theorem Lists.cons {doc : Int} {list : List Int} (h : Lists docs (doc + 1) list) (hfirst : IsFirst docs target doc)
    (hdoc : doc ≠ NO_MORE_DOCS) : Lists docs target (doc :: list) := by
  obtain ⟨n, hmem, rfl, htarget, hleast⟩ := hfirst.resolve_right fun hnone => hdoc hnone.1
  constructor
  · refine List.pairwise_cons.mpr ⟨fun doc' hmem' => ?_, h.1⟩
    obtain ⟨n', -, rfl, hle⟩ := (h.2 doc').mp hmem'
    omega
  · intro doc'
    rw [List.mem_cons, h.2 doc']
    constructor
    · rintro (rfl | ⟨n', hmem', rfl, hle⟩)
      · exact ⟨n, hmem, rfl, htarget⟩
      · exact ⟨n', hmem', rfl, by omega⟩
    · rintro ⟨n', hmem', rfl, hle⟩
      have hnot := hleast n' hmem' hle
      by_cases heq : n' = n
      · exact Or.inl (by rw [heq])
      · exact Or.inr ⟨n', hmem', rfl, by omega⟩

section Loops
variable (hdocs : ∀ n ∈ docs, (n : Int) < NO_MORE_DOCS) (hdocs' : ∀ n ∈ docs', (n : Int) < NO_MORE_DOCS)
include hdocs hdocs'

theorem advanceToCommon_spec {rounds : Nat}
    (h : Leap scorers filters docs docs' target scorer scorerDoc filterIter filterDoc)
    (hrounds : (NO_MORE_DOCS - scorerDoc) + (NO_MORE_DOCS - filterDoc) < rounds) :
    ∃ doc scorer' filterIter',
      advanceToCommon scorers filters rounds scorer scorerDoc filterIter filterDoc = some (doc, scorer', filterIter') ∧
        IsFirst (docs ∩ docs') target doc ∧ scorers.AnswersAll docs scorer' doc ∧
        filters.AnswersAll docs' filterIter' doc := by
  induction rounds generalizing scorer scorerDoc filterIter filterDoc with
  | zero =>
      have hle := h.scorerDoc_le hdocs
      have hle' := h.filterDoc_le hdocs'
      omega
  | succ rounds ih =>
      rw [advanceToCommon]
      rcases lt_trichotomy scorerDoc filterDoc with hlt | heq | hgt
      · obtain ⟨hleap, hle⟩ := h.advanceScorer hdocs' hlt
        rw [if_pos hlt.ne, if_pos hlt]
        exact ih hleap (by omega)
      · rw [if_neg (not_not.mpr heq)]
        exact ⟨scorerDoc, scorer, filterIter, rfl, h.isFirst hdocs heq, h.scorer, heq ▸ h.filter⟩
      · obtain ⟨hleap, hle⟩ := h.advanceFilter hdocs hgt
        rw [if_pos hgt.ne', if_neg hgt.le.not_gt]
        exact ih hleap (by omega)

theorem collectLoop_spec {rounds : Nat}
    (h : Leap scorers filters docs docs' target scorer scorerDoc filterIter filterDoc)
    (hrounds : (NO_MORE_DOCS - scorerDoc) + (NO_MORE_DOCS - filterDoc) < rounds) :
    ∃ collected, collectLoop scorers filters rounds scorer scorerDoc filterIter filterDoc = some collected ∧
      Lists (docs ∩ docs') target collected := by
  induction rounds generalizing target scorer scorerDoc filterIter filterDoc with
  | zero =>
      have hle := h.scorerDoc_le hdocs
      have hle' := h.filterDoc_le hdocs'
      omega
  | succ rounds ih =>
      rw [collectLoop]
      rcases lt_trichotomy scorerDoc filterDoc with hlt | heq | hgt
      · obtain ⟨hleap, hle⟩ := h.advanceScorer hdocs' hlt
        rw [if_neg hlt.ne, if_neg hlt.le.not_gt]
        exact ih hleap (by omega)
      · have hfirst := h.isFirst hdocs heq
        rw [if_pos heq]
        by_cases hnone : scorerDoc = NO_MORE_DOCS
        · rw [if_pos hnone]
          refine ⟨[], rfl, List.Pairwise.nil, fun doc => iff_of_false List.not_mem_nil ?_⟩
          rintro ⟨n, hmem, -, hle⟩
          have hpassed := (h.passed n hmem hle).1
          have hlt := hdocs n hmem.1
          omega
        · have hlt : scorerDoc < NO_MORE_DOCS := lt_of_le_of_ne (h.scorerDoc_le hdocs) hnone
          obtain ⟨hfilterFirst, hfilter⟩ := h.filter.nextDoc (heq ▸ hlt)
          have hfilterLe := hfilterFirst.le_noMoreDocs hdocs'
          have hbehind := hfilterFirst.target_le (heq ▸ hlt)
          obtain ⟨hscorerFirst, hscorer⟩ := h.scorer.advance (show scorerDoc < _ by omega) hfilterLe
          have hscorerLe := hscorerFirst.target_le hfilterLe
          -- both go on behind the document that has been collected
          have hleap : Leap scorers filters docs docs' (scorerDoc + 1)
              (scorers.advance scorer (filters.nextDoc filterIter).1).2
              (scorers.advance scorer (filters.nextDoc filterIter).1).1 (filters.nextDoc filterIter).2
              (filters.nextDoc filterIter).1 := by
            refine ⟨hscorer, hfilter, ⟨by omega, by omega⟩, hscorerFirst.mem, hfilterFirst.mem, fun m hm hle => ?_⟩
            have hpassed := hfilterFirst.le_of_mem hm.2 (heq ▸ hle)
            exact ⟨hscorerFirst.le_of_mem hm.1 hpassed, hpassed⟩
          obtain ⟨collected, hcollected, hlists⟩ := ih hleap (by omega)
          rw [if_neg hnone]
          dsimp only
          rw [hcollected]
          exact ⟨scorerDoc :: collected, rfl, hlists.cons hfirst hnone⟩
      · obtain ⟨hleap, hle⟩ := h.advanceFilter hdocs hgt
        rw [if_neg hgt.ne', if_pos hgt]
        exact ih hleap (by omega)

/-- What the scorer of a `FilteredQuery` returns, from the first answers of the two. -/
theorem common_spec {rounds : Nat} {disiFirst : Int × τ} {scorerFirst : Int × σ}
    (h : Leap scorers filters docs docs' target scorerFirst.2 scorerFirst.1 disiFirst.2 disiFirst.1)
    (hrounds : (NO_MORE_DOCS - scorerFirst.1) + (NO_MORE_DOCS - disiFirst.1) < rounds) :
    ∃ s, common scorers filters rounds disiFirst scorerFirst = some s ∧ IsFirst (docs ∩ docs') target s.doc ∧
      (s.doc < NO_MORE_DOCS → scorers.AnswersAll docs s.scorer s.doc ∧
        filters.AnswersAll docs' s.docIdSetIterator s.doc) := by
  rw [common]
  by_cases hnone : scorerFirst.1 = NO_MORE_DOCS
  · rw [if_neg (not_not.mpr hnone)]
    refine ⟨_, rfl, IsFirst.none fun m hm hle => ?_, fun hlt => absurd hlt (lt_irrefl _)⟩
    have hpassed := (h.passed m hm hle).1
    have hlt := hdocs m hm.1
    omega
  · obtain ⟨doc, scorer', filterIter', heq, hfirst, hscorer, hfilter⟩ := advanceToCommon_spec hdocs hdocs' h hrounds
    have hdoc : (if doc ≠ NO_MORE_DOCS then doc else NO_MORE_DOCS) = doc := by
      split
      case isTrue => rfl
      case isFalse hsame => exact (not_not.mp hsame).symm
    rw [if_pos hnone, heq, Option.map_some]
    dsimp only
    rw [hdoc]
    exact ⟨_, rfl, hfirst, fun _ => ⟨hscorer, hfilter⟩⟩

end Loops
/-- More rounds than two iterators can be moved forward. -/
def ROUNDS : Nat := 2 * INT_MAX + 1

section Calls
variable (hdocs : ∀ n ∈ docs, (n : Int) < NO_MORE_DOCS) (hdocs' : ∀ n ∈ docs', (n : Int) < NO_MORE_DOCS)
include hdocs hdocs'

theorem searchWithFilter_spec {rounds : Nat} (hrounds : ROUNDS ≤ rounds) (hscorer : scorers.Enumerates scorer docs)
    (hfilter : filters.Enumerates filterIter docs') :
    ∃ collected, searchWithFilter scorers filters rounds (some scorer) (some (some filterIter)) = some collected ∧
      Lists (docs ∩ docs') (-1) collected := by
  have hmax : (ROUNDS : Int) = 2 * NO_MORE_DOCS + 1 := rfl
  obtain ⟨hfilterFirst, hfilterNext⟩ := DocIdSetIterator.AnswersAll.nextDoc hfilter (by decide)
  have hfilterLe := hfilterFirst.le_noMoreDocs hdocs'
  have hzero := hfilterFirst.target_le (by decide)
  obtain ⟨hscorerFirst, hscorerNext⟩ := DocIdSetIterator.AnswersAll.advance hscorer (show -1 < _ by omega) hfilterLe
  have hscorerLe := hscorerFirst.target_le hfilterLe
  apply collectLoop_spec hdocs hdocs'
  · refine ⟨hscorerNext, hfilterNext, ⟨by omega, by omega⟩, hscorerFirst.mem, hfilterFirst.mem, fun m hm hle => ?_⟩
    have hpassed := hfilterFirst.le_of_mem hm.2 (by omega)
    exact ⟨hscorerFirst.le_of_mem hm.1 hpassed, hpassed⟩
  · omega

namespace FilteredQueryWeightScorer

theorem enumerates {rounds : Nat} (hrounds : ROUNDS ≤ rounds) (hscorer : scorers.Enumerates scorer docs)
    (hfilter : filters.Enumerates filterIter docs') :
    (iterator scorers filters rounds).Enumerates { scorer, docIdSetIterator := filterIter, doc := -1 } (docs ∩ docs') := by
  have hmax : (ROUNDS : Int) = 2 * NO_MORE_DOCS + 1 := rfl
  apply DocIdSetIterator.enumerates_of_invariant fun s doc => s.doc = doc ∧ -1 ≤ doc ∧
    (doc < NO_MORE_DOCS → scorers.AnswersAll docs s.scorer doc ∧ filters.AnswersAll docs' s.docIdSetIterator doc)
  · exact ⟨rfl, le_rfl, fun _ => ⟨hscorer, hfilter⟩⟩
  · rintro s doc call ⟨rfl, hge, hanswers⟩ hlegal
    obtain ⟨hlt, hle⟩ := hlegal.target
    obtain ⟨hscorer, hfilter⟩ := hanswers (hlt.trans_le hle)
    obtain ⟨hscorerFirst, hscorerNext⟩ := hscorer.call hlegal
    obtain ⟨hfilterFirst, hfilterNext⟩ := hfilter.call hlegal
    have hscorerLe := hscorerFirst.target_le hle
    have hfilterLe := hfilterFirst.target_le hle
    obtain ⟨next, heq, hfirst, hnext⟩ := @common_spec _ _ scorers filters docs docs' (call.target s.doc) hdocs hdocs'
      rounds (filters.call s.docIdSetIterator call) (scorers.call s.scorer call)
      (.of_isFirst hscorerNext hfilterNext hscorerFirst hfilterFirst hle) (by omega)
    have hcall : (iterator scorers filters rounds).call s call = (next.doc, next) := by
      cases call with
      | nextDoc =>
          have hnextDoc : s.nextDoc scorers filters rounds = some next := heq
          rw [DocIdSetIterator.call, iterator]
          dsimp only
          rw [hnextDoc]
      | advance target =>
          have hadvance : s.advance scorers filters rounds target = some next := heq
          rw [DocIdSetIterator.call, iterator]
          dsimp only
          rw [hadvance]
    have hnextLe := hfirst.target_le hle
    rw [hcall]
    exact ⟨hfirst, rfl, by omega, hnext⟩

end FilteredQueryWeightScorer
end Calls

namespace FilteredDocIdSetIterator
variable {accepts : Int → Bool}

/-- The documents of a set that are accepted. -/
def accepted (accepts : Int → Bool) (docs : Set Nat) : Set Nat := {n | n ∈ docs ∧ accepts n = true}

theorem isFirst_of_not_accepted {doc next : Int} (hfirst : IsFirst docs target doc) (hdoc : accepts doc = false)
    (htarget : target ≤ NO_MORE_DOCS) (hnext : IsFirst (accepted accepts docs) (doc + 1) next) :
    IsFirst (accepted accepts docs) target next := by
  have hle := hfirst.target_le htarget
  refine hnext.of_le (by omega) fun m hm hle => ?_
  have hfirstLe := hfirst.le_of_mem hm.1 hle
  have hne : doc ≠ m := by
    rintro rfl
    rw [hm.2] at hdoc
    cases hdoc
  omega

theorem isFirst_of_accepted {doc : Int} (hfirst : IsFirst docs target doc)
    (hdoc : doc = NO_MORE_DOCS ∨ accepts doc = true) (hdocs : ∀ n ∈ docs, (n : Int) < NO_MORE_DOCS) :
    IsFirst (accepted accepts docs) target doc := by
  rcases hfirst with ⟨n, hmem, rfl, hle, hleast⟩ | ⟨rfl, hnone⟩
  · have haccepts := hdoc.resolve_left (hdocs n hmem).ne
    exact Or.inl ⟨n, ⟨hmem, haccepts⟩, rfl, hle, fun m hm => hleast m hm.1⟩
  · exact IsFirst.none fun m hm => hnone m hm.1

variable (hdocs : ∀ n ∈ docs, (n : Int) < NO_MORE_DOCS)
include hdocs

theorem nextDoc_spec {rounds : Nat} {s : FilteredDocIdSetIterator τ} (h : filters.AnswersAll docs s.innerIter s.doc)
    (hlt : s.doc < NO_MORE_DOCS) (hrounds : NO_MORE_DOCS - s.doc < rounds) :
    ∃ next, s.nextDoc filters accepts rounds = some next ∧ IsFirst (accepted accepts docs) (s.doc + 1) next.doc ∧
      filters.AnswersAll docs next.innerIter next.doc := by
  induction rounds generalizing s with
  | zero => omega
  | succ rounds ih =>
      obtain ⟨hfirst, hnext⟩ := h.nextDoc hlt
      have hbehind := hfirst.target_le hlt
      rw [nextDoc]
      split_ifs with hmore haccepts
      · exact ⟨_, rfl, isFirst_of_accepted hfirst (Or.inr haccepts) hdocs, hnext⟩
      · have hless := lt_of_le_of_ne (hfirst.le_noMoreDocs hdocs) hmore
        obtain ⟨next, heq, hfirst', hnext'⟩ := @ih
          { innerIter := (filters.nextDoc s.innerIter).2, doc := (filters.nextDoc s.innerIter).1 } hnext hless
          (show NO_MORE_DOCS - (filters.nextDoc s.innerIter).1 < rounds by omega)
        exact ⟨next, heq, isFirst_of_not_accepted hfirst (Bool.eq_false_iff.mpr haccepts) hlt hfirst', hnext'⟩
      · exact ⟨_, rfl, isFirst_of_accepted hfirst (Or.inl (not_not.mp hmore)) hdocs, hnext⟩

theorem advance_spec {rounds : Nat} {s : FilteredDocIdSetIterator τ} (h : filters.AnswersAll docs s.innerIter s.doc)
    (hge : -1 ≤ s.doc) (hlt : s.doc < target) (hle : target ≤ NO_MORE_DOCS) (hrounds : ROUNDS ≤ rounds) :
    ∃ next, s.advance filters accepts rounds target = some next ∧ IsFirst (accepted accepts docs) target next.doc ∧
      filters.AnswersAll docs next.innerIter next.doc := by
  have hmax : (ROUNDS : Int) = 2 * NO_MORE_DOCS + 1 := rfl
  obtain ⟨hfirst, hnext⟩ := h.advance hlt hle
  have hbehind := hfirst.target_le hle
  rw [advance]
  split_ifs with hmore haccepts
  · exact ⟨_, rfl, isFirst_of_accepted hfirst (Or.inr haccepts) hdocs, hnext⟩
  · have hless := lt_of_le_of_ne (hfirst.le_noMoreDocs hdocs) hmore
    obtain ⟨next, heq, hfirst', hnext'⟩ := @nextDoc_spec _ filters docs accepts hdocs rounds
      { innerIter := (filters.advance s.innerIter target).2, doc := (filters.advance s.innerIter target).1 } hnext hless
      (show NO_MORE_DOCS - (filters.advance s.innerIter target).1 < rounds by
        have hpos : (0 : Int) < NO_MORE_DOCS := by decide
        omega)
    exact ⟨next, heq, isFirst_of_not_accepted hfirst (Bool.eq_false_iff.mpr haccepts) hle hfirst', hnext'⟩
  · exact ⟨_, rfl, isFirst_of_accepted hfirst (Or.inl (not_not.mp hmore)) hdocs, hnext⟩

theorem enumerates {rounds : Nat} (hrounds : ROUNDS ≤ rounds) {innerIter : τ}
    (h : filters.Enumerates innerIter docs) :
    (iterator filters accepts rounds).Enumerates { innerIter, doc := -1 } (accepted accepts docs) := by
  have hmax : (ROUNDS : Int) = 2 * NO_MORE_DOCS + 1 := rfl
  apply DocIdSetIterator.enumerates_of_invariant fun s doc => s.doc = doc ∧ -1 ≤ doc ∧
    filters.AnswersAll docs s.innerIter doc
  · exact ⟨rfl, le_rfl, h⟩
  · rintro s doc call ⟨rfl, hge, hanswers⟩ hlegal
    obtain ⟨hlt, hle⟩ := hlegal.target
    have hpos : (0 : Int) < NO_MORE_DOCS := by decide
    have hcall : ∃ next, (iterator filters accepts rounds).call s call = (next.doc, next) ∧
        IsFirst (accepted accepts docs) (call.target s.doc) next.doc ∧ filters.AnswersAll docs next.innerIter next.doc := by
      cases call with
      | nextDoc =>
          obtain ⟨next, heq, hfirst, hnext⟩ := @nextDoc_spec _ filters docs accepts hdocs rounds s hanswers hlegal
            (by omega)
          refine ⟨next, ?_, hfirst, hnext⟩
          rw [DocIdSetIterator.call, iterator]
          dsimp only
          rw [heq]
      | advance target =>
          obtain ⟨next, heq, hfirst, hnext⟩ := @advance_spec _ filters docs target accepts hdocs rounds s hanswers hge
            hlegal.1 hlegal.2 hrounds
          refine ⟨next, ?_, hfirst, hnext⟩
          rw [DocIdSetIterator.call, iterator]
          dsimp only
          rw [heq]
    obtain ⟨next, heq, hfirst, hnext⟩ := hcall
    have hnextLe := hfirst.target_le hle
    rw [heq]
    exact ⟨hfirst, rfl, by omega, hnext⟩

end FilteredDocIdSetIterator

/-- The documents that an iterator enumerates. A null iterator has none. -/
def Gives {σ : Type} (it : DocIdSetIterator σ) : Option σ → Set Nat → Prop
  | none, docs => docs = ∅
  | some s, docs => it.Enumerates s docs

theorem filtered_search_exact (accepts : Int → Bool) {rounds : Nat} (hrounds : ROUNDS ≤ rounds) (scorer : Option σ)
    (filterDocIdSet : Option (Option τ)) (hscorer : Gives scorers scorer docs)
    (hfilter : Gives filters filterDocIdSet.join docs') (hdocs : ∀ n ∈ docs, (n : Int) < NO_MORE_DOCS)
    (hdocs' : ∀ n ∈ docs', (n : Int) < NO_MORE_DOCS) :
    (∃ collected, searchWithFilter scorers filters rounds scorer filterDocIdSet = some collected ∧
      Lists (docs ∩ docs') (-1) collected) ∧
    Gives (FilteredQueryWeightScorer.iterator scorers filters rounds) (weightScorer scorer filterDocIdSet)
      (docs ∩ docs') ∧
    ∀ s, FilteredDocIdSetIterator.new filterDocIdSet.join = .ok s →
      (FilteredDocIdSetIterator.iterator filters accepts rounds).Enumerates s
        (FilteredDocIdSetIterator.accepted accepts docs') := by
  have hnone : docs ∩ docs' = ∅ → Lists (docs ∩ docs') (-1) [] := by
    intro hempty
    refine ⟨List.Pairwise.nil, fun doc => iff_of_false List.not_mem_nil ?_⟩
    rintro ⟨n, hmem, -⟩
    rw [hempty] at hmem
    exact hmem
  refine ⟨?_, ?_, fun s hs => ?_⟩
  · rcases scorer with - | scorer
    · have hempty : docs ∩ docs' = ∅ := by rw [show docs = ∅ from hscorer, Set.empty_inter]
      exact ⟨[], rfl, hnone hempty⟩
    · rcases filterDocIdSet with - | - | filterIter
      · have hempty : docs ∩ docs' = ∅ := by rw [show docs' = ∅ from hfilter, Set.inter_empty]
        exact ⟨[], rfl, hnone hempty⟩
      · have hempty : docs ∩ docs' = ∅ := by rw [show docs' = ∅ from hfilter, Set.inter_empty]
        exact ⟨[], rfl, hnone hempty⟩
      · exact searchWithFilter_spec hdocs hdocs' hrounds hscorer hfilter
  · rcases scorer with - | scorer
    · show docs ∩ docs' = ∅
      rw [show docs = ∅ from hscorer, Set.empty_inter]
    · rcases filterDocIdSet with - | - | filterIter
      · show docs ∩ docs' = ∅
        rw [show docs' = ∅ from hfilter, Set.inter_empty]
      · show docs ∩ docs' = ∅
        rw [show docs' = ∅ from hfilter, Set.inter_empty]
      · exact FilteredQueryWeightScorer.enumerates hdocs hdocs' hrounds hscorer hfilter
  · cases hjoin : filterDocIdSet.join with
    | none =>
        rw [hjoin] at hs
        cases hs
    | some innerIter =>
        rw [hjoin] at hs hfilter
        cases hs
        exact FilteredDocIdSetIterator.enumerates hdocs' hrounds hfilter

/-! ### All documents from one on -/

def docsFrom (n : Nat) : Set Nat := {m | n ≤ m ∧ (m : Int) < NO_MORE_DOCS}

def firstFrom (n : Nat) (target : Int) : Int := min (max n target) NO_MORE_DOCS

theorem isFirst_firstFrom (n : Nat) (target : Int) : IsFirst (docsFrom n) target (firstFrom n target) := by
  by_cases hlt : max (n : Int) target < NO_MORE_DOCS
  · refine Or.inl ⟨(max (n : Int) target).toNat, ⟨by omega, by omega⟩, ?_, by omega, fun m hm _ => ?_⟩
    · rw [firstFrom, min_eq_left hlt.le]
      omega
    · have hn := hm.1
      omega
  · rw [firstFrom, min_eq_right (not_lt.mp hlt)]
    refine IsFirst.none fun m hm hle => hlt (max_lt ?_ (hle.trans_lt hm.2))
    exact (Int.ofNat_le.mpr hm.1).trans_lt hm.2

def iterateFrom (n : Nat) : DocIdSetIterator Int where
  nextDoc doc := (firstFrom n (doc + 1), firstFrom n (doc + 1))
  advance _ target := (firstFrom n target, firstFrom n target)

theorem iterateFrom_enumerates (n : Nat) : (iterateFrom n).Enumerates (-1) (docsFrom n) := by
  apply DocIdSetIterator.enumerates_of_invariant fun s doc => s = doc
  · rfl
  · rintro s doc call rfl -
    cases call with
    | nextDoc => exact ⟨isFirst_firstFrom n (s + 1), rfl⟩
    | advance target => exact ⟨isFirst_firstFrom n target, rfl⟩

theorem filtered_search_exact_from :
    (∃ collected, searchWithFilter (iterateFrom 3) (iterateFrom 5) ROUNDS (some (-1)) (some (some (-1))) = some collected ∧
      Lists (docsFrom 3 ∩ docsFrom 5) (-1) collected) ∧
    Gives (FilteredQueryWeightScorer.iterator (iterateFrom 3) (iterateFrom 5) ROUNDS)
      (weightScorer (some (-1)) (some (some (-1)))) (docsFrom 3 ∩ docsFrom 5) ∧
    ∀ s, FilteredDocIdSetIterator.new (some (-1)) = .ok s →
      (FilteredDocIdSetIterator.iterator (iterateFrom 5) (fun doc => doc % 2 = 0) ROUNDS).Enumerates s
        (FilteredDocIdSetIterator.accepted (fun doc => doc % 2 = 0) (docsFrom 5)) :=
  filtered_search_exact _ le_rfl (some (-1)) (some (some (-1))) (iterateFrom_enumerates 3) (iterateFrom_enumerates 5)
    (fun _ hn => hn.2) fun _ hn => hn.2

end FilteredSearch
end LucenePlusPlus
