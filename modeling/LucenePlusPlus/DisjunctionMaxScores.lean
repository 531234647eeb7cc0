import LucenePlusPlus.DisjunctionMaxDocs
import Mathlib.Algebra.BigOperators.Group.Multiset.Basic
import Mathlib.Tactic.Abel

/-!
The scores of a `DisjunctionMaxScorer`. The scorers that are on the document are found from the first one downwards: below
one that is on a later document, all are on later ones.
-/

namespace LucenePlusPlus
open ArrayHeap
namespace DisjunctionMaxScorer
open SubScorer

/-- The sum and the maximum, with some more scores. -/
def withScores (acc : ℚ × ℚ) (scores : Multiset ℚ) : ℚ × ℚ := (acc.1 + scores.sum, scores.foldl max acc.2)

theorem withScores_zero (acc : ℚ × ℚ) : withScores acc 0 = acc := by
  rw [withScores, Multiset.sum_zero, add_zero, Multiset.foldl_zero]

theorem withScores_add (acc : ℚ × ℚ) (scores scores' : Multiset ℚ) :
    withScores (withScores acc scores) scores' = withScores acc (scores + scores') := by
  rw [withScores, withScores, withScores, Multiset.sum_add, Multiset.foldl_add, add_assoc]

theorem withScores_cons (acc : ℚ × ℚ) (score : ℚ) (scores : Multiset ℚ) :
    withScores (acc.1 + score, max acc.2 score) scores = withScores acc (score ::ₘ scores) := by
  rw [withScores, withScores, Multiset.sum_cons, Multiset.foldl_cons, add_assoc]

theorem foldl_max_isGreatest (first : ℚ) (scores : Multiset ℚ) :
    IsGreatest {score | score ∈ first ::ₘ scores} (scores.foldl max first) := by
  induction scores using Multiset.induction generalizing first with
  | empty =>
      rw [Multiset.foldl_zero]
      refine ⟨?_, fun score hmem => (Multiset.mem_singleton.mp hmem).le⟩
      exact Multiset.mem_cons_self first 0
  | cons score scores ih =>
      obtain ⟨hmem, hle⟩ := ih (max first score)
      rw [Multiset.foldl_cons]
      constructor
      · rcases Multiset.mem_cons.mp hmem with heq | hmem
        · rw [heq]
          rcases max_choice first score with hmax | hmax
          · rw [hmax]
            exact Multiset.mem_cons_self _ _
          · rw [hmax]
            exact Multiset.mem_cons_of_mem (Multiset.mem_cons_self _ _)
        · exact Multiset.mem_cons_of_mem (Multiset.mem_cons_of_mem hmem)
      · intro x hx
        have hmax : max first score ≤ scores.foldl max (max first score) := hle (Multiset.mem_cons_self _ _)
        rcases Multiset.mem_cons.mp hx with rfl | hx
        · exact (le_max_left _ _).trans hmax
        · rcases Multiset.mem_cons.mp hx with rfl | hx
          · exact (le_max_right _ _).trans hmax
          · exact hle (Multiset.mem_cons_of_mem hx)

variable {s : DisjunctionMaxScorer} {doc : Int}

/-- The scores of the scorers in some slots that are on the document. -/
def scoresIn (s : DisjunctionMaxScorer) (doc : Int) (slots : Multiset Nat) : Multiset ℚ :=
  (slots.filter fun k => (s.subScorers k).docID = doc).map fun k => (s.subScorers k).score

theorem scoresIn_add (s : DisjunctionMaxScorer) (doc : Int) (slots slots' : Multiset Nat) :
    s.scoresIn doc (slots + slots') = s.scoresIn doc slots + s.scoresIn doc slots' := by
  rw [scoresIn, Multiset.filter_add, Multiset.map_add]
  rfl

theorem scoresIn_cons {k : Nat} (slots : Multiset Nat) (h : (s.subScorers k).docID = doc) :
    s.scoresIn doc (k ::ₘ slots) = (s.subScorers k).score ::ₘ s.scoresIn doc slots := by
  rw [scoresIn, Multiset.filter_cons_of_pos (p := fun k => (s.subScorers k).docID = doc) slots h, Multiset.map_cons]
  rfl

theorem scoreAll_eq (hordered : OrderedFrom docID s.subScorers s.numScorers 0)
    (hdoc : ∀ k < s.numScorers, doc ≤ (s.subScorers k).docID) {depth root : Nat} (hdepth : s.numScorers ≤ depth + root)
    (acc : ℚ × ℚ) :
    s.scoreAll s.numScorers doc depth root acc = withScores acc (s.scoresIn doc (subtree s.numScorers depth root)) := by
  induction depth generalizing root acc with
  | zero => exact (withScores_zero acc).symm
  | succ depth ih =>
      rw [scoreAll]
      split
      case isTrue hon =>
        dsimp only
        rw [ih (by omega), ih (by omega), withScores_add, withScores_cons, subtree, if_pos hon.1, scoresIn_cons _ hon.2,
          scoresIn_add]
      case isFalse hnot =>
        have hnone : s.scoresIn doc (subtree s.numScorers (depth + 1) root) = 0 := by
          rw [scoresIn, Multiset.map_eq_zero, Multiset.filter_eq_nil]
          intro k hk heq
          obtain ⟨hlt, hbelow⟩ := (mem_subtree hdepth).mp hk
          have hle := hordered.le_of_below hbelow hlt
          have hroot : root < s.numScorers := hbelow.le.trans_lt hlt
          exact hnot ⟨hroot, le_antisymm (hle.trans heq.le) (hdoc root hroot)⟩
        rw [hnone, withScores_zero]

theorem score_eq (hordered : OrderedFrom docID s.subScorers s.numScorers 0) (hpos : 0 < s.numScorers)
    (hdoc : (s.subScorers 0).docID = doc) :
    ∃ best, IsGreatest {score | score ∈ s.scoresIn doc (Multiset.range s.numScorers)} best ∧
      s.score = best + ((s.scoresIn doc (Multiset.range s.numScorers)).sum - best) * s.tieBreakerMultiplier := by
  have hle : ∀ k < s.numScorers, doc ≤ (s.subScorers k).docID := fun k hk => hdoc ▸ hordered.first_le hk
  have hrange : s.scoresIn doc (Multiset.range s.numScorers) = (s.subScorers 0).score ::ₘ
      (s.scoresIn doc (subtree s.numScorers s.numScorers 1) + s.scoresIn doc (subtree s.numScorers s.numScorers 2)) := by
    rw [← subtree_zero (Nat.le_succ s.numScorers), subtree, if_pos hpos, scoresIn_cons _ hdoc, scoresIn_add]
  have hall := scoreAll_eq hordered hle (Nat.le_add_right s.numScorers 2) (withScores
    ((s.subScorers 0).score, (s.subScorers 0).score) (s.scoresIn doc (subtree s.numScorers s.numScorers 1)))
  rw [withScores_add] at hall
  rw [hrange]
  refine ⟨_, foldl_max_isGreatest _ _, ?_⟩
  rw [score]
  dsimp only
  rw [hdoc, scoreAll_eq hordered hle (Nat.le_add_right s.numScorers 1), hall, withScores, Multiset.sum_cons]

def scoreAt (sub : SubScorer) (doc : Int) : Option ℚ :=
  (sub.postings.find? fun posting => (posting.1 : Int) = doc).map Prod.snd

def scoresAt (subScorers : List SubScorer) (doc : Int) : List ℚ := subScorers.filterMap fun sub => scoreAt sub doc

theorem find?_eq_head?_dropWhile {postings : List (Nat × ℚ)} (hsorted : (postings.map Prod.fst).Pairwise (· < ·))
    (doc : Int) :
    postings.find? (fun posting => (posting.1 : Int) = doc) =
      (postings.dropWhile fun posting => (posting.1 : Int) < doc).head?.filter fun posting => (posting.1 : Int) = doc := by
  induction postings with
  | nil => rfl
  | cons first rest ih =>
      rw [List.map_cons, List.pairwise_cons] at hsorted
      rw [List.find?_cons, List.dropWhile_cons]
      rcases lt_trichotomy (first.1 : Int) doc with hlt | heq | hgt
      · rw [if_pos (decide_eq_true hlt), decide_eq_false hlt.ne]
        exact ih hsorted.2
      · rw [decide_eq_true heq, if_neg (by simp [heq]), List.head?_cons, Option.filter_some, if_pos (decide_eq_true heq)]
      · rw [decide_eq_false hgt.ne', if_neg (by simpa using hgt.le), List.head?_cons, Option.filter_some,
          if_neg (by simpa using hgt.ne'), List.find?_eq_none]
        intro posting hmem heq
        have hless := hsorted.1 posting.1 (List.mem_map_of_mem hmem)
        have hdoc := of_decide_eq_true heq
        omega

theorem scoreAt_eq (sub : SubScorer) (doc : Int) :
    scoreAt sub doc =
      if (sub.advance doc).postings = [] then none
      else if (sub.advance doc).docID = doc then some (sub.advance doc).score else none := by
  rw [scoreAt, find?_eq_head?_dropWhile sub.sorted, ← sub.postings_advance, docID, SubScorer.score]
  cases (sub.advance doc).postings with
  | nil => rfl
  | cons first rest =>
      rw [if_neg (List.cons_ne_nil _ _), List.head?_cons, Option.filter_some]
      by_cases heq : (first.1 : Int) = doc
      · rw [if_pos (decide_eq_true heq), if_pos heq, Option.map_some]
      · rw [if_neg (mt of_decide_eq_true heq), if_neg heq, Option.map_none]

theorem scoresIn_eq {subScorers : List SubScorer} (h : Holds s (remaining subScorers doc)) :
    s.scoresIn doc (Multiset.range s.numScorers) = scoresAt subScorers doc := by
  have hslots : s.scoresIn doc (Multiset.range s.numScorers) =
      ((remaining subScorers doc).filter fun sub => sub.docID = doc).map SubScorer.score := by
    rw [← h.contents, contents, Multiset.filter_map, Multiset.map_map]
    rfl
  rw [hslots]
  clear hslots h
  induction subScorers with
  | nil => rfl
  | cons sub subScorers ih =>
      rw [← Multiset.cons_coe, remaining_cons, scoresAt, List.filterMap_cons, scoreAt_eq]
      by_cases hnil : (sub.advance doc).postings = []
      · rw [if_pos hnil, if_pos hnil]
        exact ih
      · rw [if_neg hnil, if_neg hnil]
        by_cases heq : (sub.advance doc).docID = doc
        · rw [if_pos heq, Multiset.filter_cons_of_pos (p := fun sub : SubScorer => sub.docID = doc) _ heq,
            Multiset.map_cons, ih]
          rfl
        · rw [if_neg heq, Multiset.filter_cons_of_neg (p := fun sub : SubScorer => sub.docID = doc) _ heq]
          exact ih

/-! ### All calls -/

theorem on_new (tieBreakerMultiplier : ℚ) (first : SubScorer) (others : List SubScorer)
    (hne : ∀ sub ∈ first :: others, sub.postings ≠ []) :
    On tieBreakerMultiplier (first :: others) (new tieBreakerMultiplier first others) (-1) := by
  have hle : ∀ sub : SubScorer, -1 ≤ sub.docID := by
    intro sub
    rw [docID]
    split
    · decide
    · omega
  have hcontents : contents (fun i => (first :: others).getD i first) (others.length + 1) =
      ((first :: others : List SubScorer) : Multiset SubScorer) := by
    rw [contents, ← Multiset.coe_range, Multiset.map_coe]
    congr 1
    apply List.ext_getElem
    · rw [List.length_map, List.length_range, List.length_cons]
    · intro i hi hi'
      rw [List.getElem_map, List.getElem_range, List.getD_eq_getElem?_getD, List.getElem?_eq_getElem hi',
        Option.getD_some]
  have hremaining : remaining ((first :: others : List SubScorer) : Multiset SubScorer) (-1) =
      ((first :: others : List SubScorer) : Multiset SubScorer) :=
    remaining_of_le (fun sub _ => hle sub) fun sub hmem => hne sub hmem
  obtain ⟨subScorers, heq, hholds⟩ := @heapifyFrom_spec {
    subScorers := fun i => (first :: others).getD i first
    numScorers := others.length + 1
    tieBreakerMultiplier
    doc := -1 } ((others.length + 1) / 2) le_rfl (orderedFrom_of_le (by dsimp only; omega))
  rw [hcontents, ← hremaining] at hholds
  exact ⟨by rw [new, heapify, heq], hholds, Or.inl rfl, by rw [new, heapify, heq]⟩

theorem on_of_reached {tieBreakerMultiplier : ℚ} {subScorers : List SubScorer} {start s : DisjunctionMaxScorer}
    (hstart : On tieBreakerMultiplier subScorers start (-1)) {doc : Int} (h : iterator.Reached start s doc) :
    On tieBreakerMultiplier subScorers s doc := by
  refine h.invariant (On tieBreakerMultiplier subScorers) hstart fun s doc call hon hlegal => ?_
  cases call with
  | nextDoc => exact (hon.nextDoc hlegal).2
  | advance target => exact (hon.advance hlegal.1 hlegal.2).2

/-- The documents of the sub-scorers in their order. The scorers that are on a document are those that have it, and its
score is the best of theirs and a part of the others. -/
structure Exact (tieBreakerMultiplier : ℚ) (subScorers : List SubScorer) (s : DisjunctionMaxScorer) : Prop where
  enumerates : iterator.Enumerates s (docs subScorers)
  exhausted : ∀ s' doc, iterator.Reached s s' doc → doc = NO_MORE_DOCS → s'.nextDoc.doc = NO_MORE_DOCS
  positioned : ∀ (s' : DisjunctionMaxScorer) (doc : Nat), iterator.Reached s s' doc →
    s'.scoresIn doc (Multiset.range s'.numScorers) = scoresAt subScorers doc
  score : ∀ (s' : DisjunctionMaxScorer) (doc : Nat), iterator.Reached s s' doc → (doc : Int) ≠ NO_MORE_DOCS →
    ∃ best, IsGreatest {score | score ∈ scoresAt subScorers doc} best ∧
      s'.score = best + tieBreakerMultiplier * ((scoresAt subScorers doc).sum - best)

theorem exact_new (tieBreakerMultiplier : ℚ) (first : SubScorer) (others : List SubScorer)
    (hne : ∀ sub ∈ first :: others, sub.postings ≠ []) :
    Exact tieBreakerMultiplier (first :: others) (new tieBreakerMultiplier first others) where
  enumerates := by
    apply DocIdSetIterator.enumerates_of_invariant (On tieBreakerMultiplier (first :: others))
    · exact on_new tieBreakerMultiplier first others hne
    · intro s doc call hon hlegal
      cases call with
      | nextDoc => exact hon.nextDoc hlegal
      | advance target => exact hon.advance hlegal.1 hlegal.2
  exhausted s' doc hreached hdoc := by
    have hon := on_of_reached (on_new tieBreakerMultiplier first others hne) hreached
    have hzero : s'.numScorers = 0 := by
      by_contra hpos
      have hmem : s'.subScorers 0 ∈ remaining ((first :: others : List SubScorer) : Multiset SubScorer) doc := by
        rw [← hon.holds.contents, mem_contents]
        exact ⟨0, Nat.pos_of_ne_zero hpos, rfl⟩
      obtain ⟨-, hleft⟩ := mem_remaining.mp hmem
      rcases hon.first with hstart | hfirst
      · rw [hstart] at hdoc
        exact absurd hdoc (by decide)
      · rw [if_neg hpos] at hfirst
        exact hleft ((docID_eq_iff _).mp (hfirst.symm.trans hdoc))
    rw [nextDoc, if_pos hzero]
  positioned s' doc hreached :=
    scoresIn_eq (on_of_reached (on_new tieBreakerMultiplier first others hne) hreached).holds
  score s' doc hreached hdoc := by
    have hon := on_of_reached (on_new tieBreakerMultiplier first others hne) hreached
    rcases hon.first with hstart | hfirst
    · omega
    · have hpos : s'.numScorers ≠ 0 := fun hzero => hdoc (hfirst.trans (if_pos hzero))
      rw [if_neg hpos] at hfirst
      obtain ⟨best, hbest, hscore⟩ := score_eq hon.holds.ordered (Nat.pos_of_ne_zero hpos) hfirst.symm
      rw [scoresIn_eq hon.holds, hon.multiplier, Multiset.sum_coe, mul_comm] at hscore
      rw [scoresIn_eq hon.holds] at hbest
      exact ⟨best, hbest, hscore⟩

theorem docs_filter (subScorers : List SubScorer) :
    docs (subScorers.filter fun sub => sub.docID ≠ NO_MORE_DOCS) = docs subScorers := by
  ext n
  constructor
  · rintro ⟨sub, hsub, posting, hposting, heq⟩
    exact ⟨sub, List.mem_of_mem_filter hsub, posting, hposting, heq⟩
  · rintro ⟨sub, hsub, posting, hposting, heq⟩
    refine ⟨sub, List.mem_filter.mpr ⟨hsub, decide_eq_true fun hnone => ?_⟩, posting, hposting, heq⟩
    rw [(docID_eq_iff sub).mp hnone] at hposting
    cases hposting

theorem scoresAt_filter (subScorers : List SubScorer) (doc : Int) :
    scoresAt (subScorers.filter fun sub => sub.docID ≠ NO_MORE_DOCS) doc = scoresAt subScorers doc := by
  induction subScorers with
  | nil => rfl
  | cons sub subScorers ih =>
      have hcons : ∀ others, scoresAt (sub :: others) doc = (scoreAt sub doc).toList ++ scoresAt others doc := by
        intro others
        rw [scoresAt, List.filterMap_cons]
        cases scoreAt sub doc <;> rfl
      rw [hcons]
      by_cases hnone : sub.docID = NO_MORE_DOCS
      · have hnot : scoreAt sub doc = none := by rw [scoreAt, (docID_eq_iff sub).mp hnone]; rfl
        rw [List.filter_cons_of_neg (by simpa using hnone), hnot, ih]
        rfl
      · rw [List.filter_cons_of_pos (by simpa using hnone), hcons, ih]

theorem scorer_exact (tieBreakerMultiplier : ℚ) (subScorers : List SubScorer) :
    match scorer tieBreakerMultiplier subScorers with
    | none => docs subScorers = ∅
    | some s => Exact tieBreakerMultiplier subScorers s := by
  have hdocs := docs_filter subScorers
  have hscores := scoresAt_filter subScorers
  have hlive : ∀ sub ∈ subScorers.filter fun sub => sub.docID ≠ NO_MORE_DOCS, sub.postings ≠ [] := by
    intro sub hmem hnil
    exact of_decide_eq_true (List.mem_filter.mp hmem).2 ((docID_eq_iff sub).mpr hnil)
  rw [scorer]
  cases hfilter : subScorers.filter fun sub => sub.docID ≠ NO_MORE_DOCS with
  | nil =>
      rw [hfilter] at hdocs
      rw [← hdocs]
      exact Set.eq_empty_of_forall_notMem fun n ⟨sub, hmem, _⟩ => List.not_mem_nil hmem
  | cons first others =>
      rw [hfilter] at hdocs hscores hlive
      have hexact := exact_new tieBreakerMultiplier first others hlive
      refine ⟨hdocs ▸ hexact.enumerates, hexact.exhausted, fun s' doc => ?_, fun s' doc => ?_⟩
      · rw [← hscores]
        exact hexact.positioned s' doc
      · rw [← hscores]
        exact hexact.score s' doc

end DisjunctionMaxScorer
end LucenePlusPlus
