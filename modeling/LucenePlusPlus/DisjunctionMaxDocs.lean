import LucenePlusPlus.DisjunctionMaxScorer

/-!
What a `DisjunctionMaxScorer` returns: the documents of its sub-scorers in their order, each with the score that its
scores make.
-/

namespace LucenePlusPlus
open ArrayHeap

namespace SubScorer

theorem docID_lt_or (sub : SubScorer) : sub.docID < NO_MORE_DOCS ∨ sub.postings = [] ∧ sub.docID = NO_MORE_DOCS := by
  cases hpostings : sub.postings with
  | nil => exact Or.inr ⟨rfl, by rw [docID, hpostings]⟩
  | cons posting rest =>
      have hlt := sub.below posting (hpostings ▸ List.mem_cons_self)
      exact Or.inl (by rw [docID, hpostings]; exact hlt)

theorem docID_le (sub : SubScorer) : sub.docID ≤ NO_MORE_DOCS := by
  rcases sub.docID_lt_or with hlt | ⟨-, heq⟩
  · exact hlt.le
  · exact heq.le

theorem docID_eq_iff (sub : SubScorer) : sub.docID = NO_MORE_DOCS ↔ sub.postings = [] := by
  rcases sub.docID_lt_or with hlt | ⟨hnil, heq⟩
  · refine iff_of_false hlt.ne fun hnil => ?_
    rw [docID, hnil] at hlt
    exact lt_irrefl _ hlt
  · exact iff_of_true heq hnil

theorem docID_le_of_mem (sub : SubScorer) {posting : Nat × ℚ} (h : posting ∈ sub.postings) : sub.docID ≤ posting.1 := by
  have hsorted := sub.sorted
  rw [docID]
  cases hpostings : sub.postings with
  | nil => rw [hpostings] at h; cases h
  | cons first rest =>
      rw [hpostings] at h hsorted
      rcases List.mem_cons.mp h with rfl | hmem
      · exact le_rfl
      · rw [List.map_cons, List.pairwise_cons] at hsorted
        exact Int.ofNat_le.mpr (hsorted.1 posting.1 (List.mem_map_of_mem hmem)).le

theorem mem_advance (sub : SubScorer) {target : Int} {posting : Nat × ℚ} :
    posting ∈ (sub.advance target).postings ↔ posting ∈ sub.postings ∧ target ≤ posting.1 := by
  have hsorted := sub.sorted
  rw [postings_advance]
  revert hsorted
  induction sub.postings with
  | nil => simp
  | cons first rest ih =>
      intro hsorted
      rw [List.map_cons, List.pairwise_cons] at hsorted
      rw [List.dropWhile_cons]
      split
      case isTrue hlt =>
        refine (ih hsorted.2).trans ?_
        rw [List.mem_cons]
        constructor
        · exact fun h => ⟨Or.inr h.1, h.2⟩
        · rintro ⟨rfl | hmem, hle⟩
          · exact absurd hle (not_le.mpr (of_decide_eq_true hlt))
          · exact ⟨hmem, hle⟩
      case isFalse hnot =>
        have hfirst : target ≤ first.1 := not_lt.mp fun hlt => hnot (decide_eq_true hlt)
        refine ⟨fun hmem => ⟨hmem, ?_⟩, fun h => h.1⟩
        rcases List.mem_cons.mp hmem with rfl | hmem
        · exact hfirst
        · exact hfirst.trans (Int.ofNat_le.mpr (hsorted.1 posting.1 (List.mem_map_of_mem hmem)).le)

theorem le_docID_advance (sub : SubScorer) {target : Int} (htarget : target ≤ NO_MORE_DOCS) :
    target ≤ (sub.advance target).docID := by
  cases hpostings : (sub.advance target).postings with
  | nil => rw [docID, hpostings]; exact htarget
  | cons first rest =>
      have hmem : first ∈ (sub.advance target).postings := hpostings ▸ List.mem_cons_self
      rw [docID, hpostings]
      exact (sub.mem_advance.mp hmem).2

theorem advance_of_le (sub : SubScorer) {target : Int} (h : target ≤ sub.docID) : sub.advance target = sub := by
  apply SubScorer.ext
  rw [postings_advance]
  rw [docID] at h
  cases hpostings : sub.postings with
  | nil => rfl
  | cons first rest =>
      rw [hpostings] at h
      exact List.dropWhile_cons_of_neg (by simpa using h)

theorem advance_advance (sub : SubScorer) {target target' : Int} (h : target ≤ target') :
    (sub.advance target).advance target' = sub.advance target' := by
  apply SubScorer.ext
  rw [postings_advance, postings_advance, postings_advance]
  induction sub.postings with
  | nil => rfl
  | cons first rest ih =>
      by_cases hlt : (first.1 : Int) < target
      · rw [@List.dropWhile_cons _ first rest, if_pos (decide_eq_true hlt), ih, List.dropWhile_cons,
          if_pos (decide_eq_true (hlt.trans_le h))]
      · rw [@List.dropWhile_cons _ first rest, if_neg (mt of_decide_eq_true hlt)]

theorem nextDoc_eq_advance (sub : SubScorer) : sub.nextDoc = sub.advance (sub.docID + 1) := by
  have hsorted := sub.sorted
  apply SubScorer.ext
  rw [postings_nextDoc, postings_advance]
  cases hpostings : sub.postings with
  | nil => rfl
  | cons first rest =>
      have hdoc : sub.docID = first.1 := by rw [docID, hpostings]
      rw [hpostings, List.map_cons, List.pairwise_cons] at hsorted
      rw [hdoc, List.tail_cons, List.dropWhile_cons, if_pos (decide_eq_true (Int.lt_succ _))]
      cases hrest : rest with
      | nil => rfl
      | cons second rest' =>
          have hlt := hsorted.1 second.1 (hrest ▸ List.mem_cons_self)
          rw [List.dropWhile_cons, if_neg]
          simp only [decide_eq_true_eq]
          omega

end SubScorer

namespace DisjunctionMaxScorer
open SubScorer

theorem adjustFrom_spec {numScorers : Nat} {scorer : SubScorer} {rounds : Nat} {subScorers : Nat → SubScorer} {r i : Nat}
    (hrounds : numScorers ≤ rounds + i) (hready : Ready docID subScorers numScorers r i) (hr : r ≤ i)
    (hi : i < numScorers) (hscorer : subScorers i = scorer) :
    OrderedFrom docID (adjustFrom numScorers scorer rounds subScorers i) numScorers r ∧
      contents (adjustFrom numScorers scorer rounds subScorers i) numScorers = contents subScorers numScorers := by
  induction rounds generalizing subScorers i with
  | zero => omega
  | succ rounds ih =>
      have hchildren : ∀ j, 0 < j → j < numScorers → (j - 1) / 2 = i → j = 2 * i + 1 ∨ j = 2 * i + 2 := by omega
      have hdown : ∀ c, 0 < c → c < numScorers → (c - 1) / 2 = i → (subScorers c).docID < scorer.docID →
          (∀ j, 0 < j → j < numScorers → (j - 1) / 2 = i → (subScorers c).docID ≤ (subScorers j).docID) →
          OrderedFrom docID (adjustFrom numScorers scorer rounds
            (Function.update (Function.update subScorers i (subScorers c)) c scorer) c) numScorers r ∧
          contents (adjustFrom numScorers scorer rounds
            (Function.update (Function.update subScorers i (subScorers c)) c scorer) c) numScorers =
              contents subScorers numScorers := by
        intro c hpos hc hparent hless hfirst
        have hne : i ≠ c := by omega
        rw [← hscorer] at hless
        obtain ⟨hordered, hcontents⟩ := @ih (swap subScorers i c) c (by omega)
          (hready.exchange hr hpos hc hparent hless.le hfirst) (by omega) hc ((swap_right _ _ _).trans hscorer)
        rw [swap, hscorer] at hordered hcontents
        exact ⟨hordered, hcontents.trans (by rw [← hscorer]; exact contents_swap subScorers hi hc hne)⟩
      rw [adjustFrom]
      dsimp only
      by_cases hchild : i + 1 ≤ numScorers / 2
      · rw [if_pos hchild]
        obtain ⟨rdoc, hrdoc⟩ : ∃ rdoc : Int,
            (if 2 * i + 2 < numScorers then (subScorers (2 * i + 2)).docID else INT_MAX) = rdoc := ⟨_, rfl⟩
        have hthere : 2 * i + 2 < numScorers → rdoc = (subScorers (2 * i + 2)).docID := by
          intro hlt
          rw [← hrdoc, if_pos hlt]
        have hright : ∀ {x : Int}, x ≤ NO_MORE_DOCS → rdoc < x →
            2 * i + 2 < numScorers ∧ (subScorers (2 * i + 2)).docID < x := by
          intro x hx hless
          by_cases hlt : 2 * i + 2 < numScorers
          · exact ⟨hlt, hthere hlt ▸ hless⟩
          · rw [if_neg hlt] at hrdoc
            rw [← hrdoc] at hless
            exact absurd hless (not_lt.mpr hx)
        rw [hrdoc]
        by_cases hleft : (subScorers (2 * i + 1)).docID < scorer.docID
        · rw [if_pos hleft]
          split_ifs with hless
          case pos =>
            obtain ⟨hlt, hless⟩ := hright (docID_le _) hless
            refine hdown (2 * i + 2) (by omega) hlt (by omega) (hless.trans hleft) fun j hj hjn hji => ?_
            rcases hchildren j hj hjn hji with rfl | rfl
            · exact hless.le
            · exact le_rfl
          case neg =>
            refine hdown (2 * i + 1) (by omega) (by omega) (by omega) hleft fun j hj hjn hji => ?_
            rcases hchildren j hj hjn hji with rfl | rfl
            · exact le_rfl
            · rw [hthere hjn] at hless
              exact not_lt.mp hless
        · rw [if_neg hleft]
          split_ifs with hless
          case pos =>
            obtain ⟨hlt, hless⟩ := hright (docID_le _) hless
            refine hdown (2 * i + 2) (by omega) hlt (by omega) hless fun j hj hjn hji => ?_
            rcases hchildren j hj hjn hji with rfl | rfl
            · exact hless.le.trans (not_lt.mp hleft)
            · exact le_rfl
          case neg =>
            refine ⟨hready.ordered fun j hj hjn hji => ?_, rfl⟩
            rw [hscorer]
            rcases hchildren j hj hjn hji with rfl | rfl
            · exact not_lt.mp hleft
            · rw [hthere hjn] at hless
              exact not_lt.mp hless
      · rw [if_neg hchild]
        refine ⟨hready.ordered fun j hj hjn hji => ?_, rfl⟩
        omega

/-- The scorers that are not exhausted. -/
structure Holds (s : DisjunctionMaxScorer) (live : Multiset SubScorer) : Prop where
  ordered : OrderedFrom docID s.subScorers s.numScorers 0
  contents : contents s.subScorers s.numScorers = live

theorem holds_heapAdjust {s : DisjunctionMaxScorer} (hready : Ready docID s.subScorers s.numScorers 0 0)
    (hpos : 0 < s.numScorers) : Holds (s.heapAdjust 0) (ArrayHeap.contents s.subScorers s.numScorers) := by
  obtain ⟨hordered, hcontents⟩ := adjustFrom_spec (Nat.le_add_right _ _) hready le_rfl hpos rfl
  exact ⟨hordered, hcontents⟩

theorem heapifyFrom_spec {s : DisjunctionMaxScorer} {i : Nat} (hi : i ≤ s.numScorers / 2)
    (hordered : OrderedFrom docID s.subScorers s.numScorers i) :
    ∃ subScorers, heapifyFrom i s = { s with subScorers } ∧
      Holds (heapifyFrom i s) (ArrayHeap.contents s.subScorers s.numScorers) := by
  induction i generalizing s with
  | zero => exact ⟨s.subScorers, rfl, hordered, rfl⟩
  | succ i ih =>
      obtain ⟨hadjusted, hcontents⟩ := adjustFrom_spec (Nat.le_add_right s.numScorers i) hordered.ready le_rfl
        (by omega) rfl
      have hstep : contents (s.heapAdjust i).subScorers s.numScorers = ArrayHeap.contents s.subScorers s.numScorers :=
        hcontents
      have hi' : i ≤ (s.heapAdjust i).numScorers / 2 := Nat.le_of_succ_le hi
      obtain ⟨subScorers, heq, hholds⟩ := ih hi' hadjusted
      refine ⟨subScorers, heq, ?_⟩
      rw [← hstep]
      exact hholds

theorem heapRemoveRoot_spec {s : DisjunctionMaxScorer} {rest : Multiset SubScorer}
    (hready : Ready docID s.subScorers s.numScorers 0 0) (hpos : 0 < s.numScorers)
    (hrest : contents s.subScorers s.numScorers = s.subScorers 0 ::ₘ rest) :
    Holds s.heapRemoveRoot rest ∧ s.heapRemoveRoot.numScorers = s.numScorers - 1 ∧
      s.heapRemoveRoot.tieBreakerMultiplier = s.tieBreakerMultiplier := by
  obtain ⟨m, hm⟩ := Nat.exists_eq_succ_of_ne_zero (Nat.ne_of_gt hpos)
  rw [hm, contents_succ] at hrest
  rw [heapRemoveRoot]
  by_cases hone : s.numScorers = 1
  · rw [if_pos hone]
    have hzero : m = 0 := by omega
    rw [hzero] at hrest
    have hnil : rest = 0 := (Multiset.cons_inj_right _).mp hrest.symm
    refine ⟨⟨orderedFrom_of_le (Nat.zero_le _), ?_⟩, by rw [hone], rfl⟩
    rw [hnil]
    rfl
  · rw [if_neg hone]
    obtain ⟨others, hfirst, hupdate⟩ := contents_update_zero s.subScorers (show 0 < m by omega) (s.subScorers m)
    have hlast : s.numScorers - 1 = m := by omega
    have hothers : rest = s.subScorers m ::ₘ others := by
      rw [hfirst, Multiset.cons_swap] at hrest
      exact ((Multiset.cons_inj_right _).mp hrest).symm
    rw [hlast]
    have hready' : Ready docID (Function.update s.subScorers 0 (s.subScorers m)) m 0 0 :=
      hready.of_eq (by omega) fun k hk _ => Function.update_of_ne (by omega) _ _
    have hholds := @holds_heapAdjust { s with
      subScorers := Function.update s.subScorers 0 (s.subScorers m)
      numScorers := m } hready' (show 0 < m by omega)
    rw [hupdate, ← hothers] at hholds
    exact ⟨hholds, rfl, rfl⟩

/-- What is left of some scorers from a target on. -/
def remaining (live : Multiset SubScorer) (target : Int) : Multiset SubScorer :=
  (live.map fun sub => sub.advance target).filter fun sub => sub.postings ≠ []

theorem remaining_cons (sub : SubScorer) (live : Multiset SubScorer) (target : Int) :
    remaining (sub ::ₘ live) target =
      if (sub.advance target).postings = [] then remaining live target
      else sub.advance target ::ₘ remaining live target := by
  rw [remaining, Multiset.map_cons]
  split
  case isTrue hnil => exact Multiset.filter_cons_of_neg _ (not_not.mpr hnil)
  case isFalse hne => exact Multiset.filter_cons_of_pos _ hne

theorem remaining_of_le {live : Multiset SubScorer} {target : Int} (h : ∀ sub ∈ live, target ≤ sub.docID)
    (hne : ∀ sub ∈ live, sub.postings ≠ []) : remaining live target = live := by
  rw [remaining, Multiset.map_congr rfl fun sub hmem => sub.advance_of_le (h sub hmem), Multiset.map_id']
  exact Multiset.filter_eq_self.mpr hne

/-! ### Moving the scorers that are behind -/

/-- The scorers that are behind are moved to the target, and the first one says which document it is. -/
theorem moveRoots_spec {behind : Int → Bool} {move : SubScorer → SubScorer} {low target : Int}
    (htarget : target ≤ NO_MORE_DOCS) (hlow : low ≤ target)
    (hbehind : ∀ docID, low ≤ docID → (behind docID = true ↔ docID < target))
    (hmove : ∀ sub : SubScorer, low ≤ sub.docID → behind sub.docID = true → move sub = sub.advance target)
    {rounds : Nat} {s : DisjunctionMaxScorer} {live : Multiset SubScorer} (h : Holds s live) (hpos : 0 < s.numScorers)
    (hlive : ∀ sub ∈ live, low ≤ sub.docID ∧ sub.postings ≠ [])
    (hrounds : (live.filter fun sub => sub.docID < target).card < rounds) :
    Holds (moveRoots behind move rounds s) (remaining live target) ∧
      (moveRoots behind move rounds s).doc =
        (if (moveRoots behind move rounds s).numScorers = 0 then NO_MORE_DOCS
          else ((moveRoots behind move rounds s).subScorers 0).docID) ∧
      (moveRoots behind move rounds s).tieBreakerMultiplier = s.tieBreakerMultiplier := by
  induction rounds generalizing s live with
  | zero => exact absurd hrounds (Nat.not_lt_zero _)
  | succ rounds ih =>
      obtain ⟨rest, hrest, hupdate⟩ := contents_update_zero s.subScorers hpos (move (s.subScorers 0))
      rw [h.contents] at hrest
      have hroot := hlive (s.subScorers 0) (hrest ▸ Multiset.mem_cons_self _ _)
      have hothers : ∀ sub ∈ rest, low ≤ sub.docID ∧ sub.postings ≠ [] :=
        fun sub hmem => hlive sub (hrest ▸ Multiset.mem_cons_of_mem hmem)
      rw [moveRoots]
      by_cases hfirst : behind (s.subScorers 0).docID = true
      · have hless := (hbehind _ hroot.1).mp hfirst
        rw [if_pos hfirst, hmove _ hroot.1 hfirst]
        rw [hmove _ hroot.1 hfirst] at hupdate
        have hready := h.ordered.ready_zero.of_eq le_rfl fun k hk _ =>
          @Function.update_of_ne _ (fun _ => SubScorer) _ k 0 (by omega) ((s.subScorers 0).advance target) s.subScorers
        have hcount : (rest.filter fun sub => sub.docID < target).card < rounds := by
          rw [hrest, Multiset.filter_cons_of_pos (p := fun sub : SubScorer => sub.docID < target) rest hless,
            Multiset.card_cons] at hrounds
          omega
        dsimp only
        by_cases hmore : ((s.subScorers 0).advance target).docID = NO_MORE_DOCS
        · rw [if_neg (not_not.mpr hmore)]
          have hgone : remaining live target = remaining rest target := by
            rw [hrest, remaining_cons, if_pos ((docID_eq_iff _).mp hmore)]
          have hself := Function.update_self 0 ((s.subScorers 0).advance target) s.subScorers
          obtain ⟨hholds, hnum, htie⟩ := @heapRemoveRoot_spec
            { s with subScorers := Function.update s.subScorers 0 ((s.subScorers 0).advance target) } rest hready hpos
            (hupdate.trans (congrArg (· ::ₘ rest) hself.symm))
          rw [hgone]
          generalize heapRemoveRoot _ = removed at hholds hnum htie ⊢
          by_cases hzero : removed.numScorers = 0
          · have hcontents := hholds.contents
            rw [hzero] at hcontents
            have hnil : rest = 0 := hcontents.symm
            rw [if_pos hzero, if_pos hzero, hnil]
            exact ⟨⟨hholds.ordered, hholds.contents.trans hnil⟩, rfl, htie⟩
          · rw [if_neg hzero]
            obtain ⟨hholds', hdoc, htie'⟩ := ih hholds (Nat.pos_of_ne_zero hzero) hothers hcount
            exact ⟨hholds', hdoc, htie'.trans htie⟩
        · rw [if_pos hmore]
          have hdoc : target ≤ ((s.subScorers 0).advance target).docID := le_docID_advance _ htarget
          have hsame : remaining live target = remaining ((s.subScorers 0).advance target ::ₘ rest) target := by
            rw [hrest, remaining_cons, remaining_cons, advance_of_le _ hdoc]
          have hholds := @holds_heapAdjust
            { s with subScorers := Function.update s.subScorers 0 ((s.subScorers 0).advance target) } hready hpos
          rw [hupdate] at hholds
          rw [hsame]
          apply ih hholds hpos
          · intro sub hmem
            rcases Multiset.mem_cons.mp hmem with rfl | hmem
            · exact ⟨hlow.trans hdoc, fun hnil => hmore ((docID_eq_iff _).mpr hnil)⟩
            · exact hothers sub hmem
          · rw [Multiset.filter_cons_of_neg (p := fun sub : SubScorer => sub.docID < target) rest (not_lt.mpr hdoc)]
            exact hcount
      · rw [if_neg hfirst]
        have hle : target ≤ (s.subScorers 0).docID := not_lt.mp (mt (hbehind _ hroot.1).mpr hfirst)
        have hall : ∀ sub ∈ live, target ≤ sub.docID := by
          intro sub hmem
          rw [← h.contents, mem_contents] at hmem
          obtain ⟨k, hk, rfl⟩ := hmem
          exact hle.trans (h.ordered.first_le hk)
        rw [remaining_of_le hall fun sub hmem => (hlive sub hmem).2]
        exact ⟨⟨h.ordered, h.contents⟩, (if_neg (Nat.ne_of_gt hpos)).symm, rfl⟩

def docs (subScorers : List SubScorer) : Set Nat :=
  {n | ∃ sub ∈ subScorers, ∃ posting ∈ sub.postings, posting.1 = n}

theorem mem_remaining {live : Multiset SubScorer} {target : Int} {sub : SubScorer} :
    sub ∈ remaining live target ↔ (∃ sub' ∈ live, sub'.advance target = sub) ∧ sub.postings ≠ [] := by
  rw [remaining, Multiset.mem_filter, Multiset.mem_map]

theorem remaining_remaining (live : Multiset SubScorer) {target target' : Int} (h : target ≤ target') :
    remaining (remaining live target) target' = remaining live target' := by
  induction live using Multiset.induction with
  | empty => rfl
  | cons sub live ih =>
      rw [remaining_cons, remaining_cons, ← sub.advance_advance h]
      split
      case isTrue hnil =>
        have hgone : ((sub.advance target).advance target').postings = [] := by rw [postings_advance, hnil]; rfl
        rw [if_pos hgone, ih]
      case isFalse => rw [remaining_cons, ih]

theorem isFirst_of_holds {s : DisjunctionMaxScorer} {subScorers : List SubScorer} {target doc : Int}
    (htarget : target ≤ NO_MORE_DOCS) (h : Holds s (remaining subScorers target))
    (hdoc : doc = if s.numScorers = 0 then NO_MORE_DOCS else (s.subScorers 0).docID) :
    IsFirst (docs subScorers) target doc ∧ Holds s (remaining subScorers doc) := by
  have hlive : ∀ sub ∈ remaining (subScorers : Multiset SubScorer) target, doc ≤ sub.docID := by
    intro sub hmem
    rw [← h.contents, mem_contents] at hmem
    obtain ⟨k, hk, rfl⟩ := hmem
    rw [hdoc, if_neg (by omega)]
    exact h.ordered.first_le hk
  have hleast : ∀ m ∈ docs subScorers, target ≤ (m : Int) → ∃ sub ∈ remaining (subScorers : Multiset SubScorer) target,
      sub.docID ≤ m := by
    rintro m ⟨sub, hsub, posting, hposting, rfl⟩ hle
    have hmem := sub.mem_advance.mpr ⟨hposting, hle⟩
    exact ⟨sub.advance target, mem_remaining.mpr ⟨⟨sub, hsub, rfl⟩, List.ne_nil_of_mem hmem⟩, docID_le_of_mem _ hmem⟩
  have hle : target ≤ doc := by
    rw [hdoc]
    split
    case isTrue => exact htarget
    case isFalse hpos =>
      have hmem : s.subScorers 0 ∈ remaining (subScorers : Multiset SubScorer) target := by
        rw [← h.contents, mem_contents]
        exact ⟨0, Nat.pos_of_ne_zero hpos, rfl⟩
      obtain ⟨⟨sub, -, heq⟩, -⟩ := mem_remaining.mp hmem
      rw [← heq]
      exact sub.le_docID_advance htarget
  constructor
  · by_cases hzero : s.numScorers = 0
    · rw [hdoc, if_pos hzero]
      refine IsFirst.none fun m hm hle => ?_
      obtain ⟨sub, hmem, -⟩ := hleast m hm hle
      rw [← h.contents, hzero] at hmem
      exact Multiset.notMem_zero _ hmem
    · have hmem : s.subScorers 0 ∈ remaining (subScorers : Multiset SubScorer) target := by
        rw [← h.contents, mem_contents]
        exact ⟨0, Nat.pos_of_ne_zero hzero, rfl⟩
      obtain ⟨⟨sub, hsub, heq⟩, hne⟩ := mem_remaining.mp hmem
      obtain ⟨posting, rest, hpostings⟩ := List.exists_cons_of_ne_nil hne
      have hdoc' : doc = posting.1 := by rw [hdoc, if_neg hzero, docID, hpostings]
      have hposting : posting ∈ (sub.advance target).postings := heq ▸ hpostings ▸ List.mem_cons_self
      refine Or.inl ⟨posting.1, ⟨sub, hsub, posting, (sub.mem_advance.mp hposting).1, rfl⟩, hdoc', hdoc' ▸ hle, ?_⟩
      intro m hm hle'
      obtain ⟨sub', hsub', hle''⟩ := hleast m hm hle'
      have hfirst := (hlive sub' hsub').trans hle''
      omega
  · rw [← remaining_remaining _ hle, remaining_of_le hlive fun sub hmem => (mem_remaining.mp hmem).2]
    exact h

/-- The state after a call that has returned `doc`, or before the first one. -/
structure On (tieBreakerMultiplier : ℚ) (subScorers : List SubScorer) (s : DisjunctionMaxScorer) (doc : Int) : Prop where
  returned : s.doc = doc
  holds : Holds s (remaining subScorers doc)
  first : doc = -1 ∨ doc = if s.numScorers = 0 then NO_MORE_DOCS else (s.subScorers 0).docID
  multiplier : s.tieBreakerMultiplier = tieBreakerMultiplier

variable {tieBreakerMultiplier : ℚ} {subScorers : List SubScorer} {s : DisjunctionMaxScorer} {doc : Int}

theorem On.le (h : On tieBreakerMultiplier subScorers s doc) : doc ≤ NO_MORE_DOCS := by
  rcases h.first with rfl | rfl
  · decide
  · split
    · exact le_rfl
    · exact docID_le _

theorem On.moveRoots (h : On tieBreakerMultiplier subScorers s doc) {behind : Int → Bool} {move : SubScorer → SubScorer}
    {target : Int} (htarget : target ≤ NO_MORE_DOCS) (hlow : doc ≤ target)
    (hbehind : ∀ docID, doc ≤ docID → (behind docID = true ↔ docID < target))
    (hmove : ∀ sub : SubScorer, doc ≤ sub.docID → behind sub.docID = true → move sub = sub.advance target)
    (hpos : 0 < s.numScorers) :
    IsFirst (docs subScorers) target (moveRoots behind move (s.numScorers + 1) s).doc ∧
      On tieBreakerMultiplier subScorers (moveRoots behind move (s.numScorers + 1) s)
        (moveRoots behind move (s.numScorers + 1) s).doc := by
  have hlive : ∀ sub ∈ remaining (subScorers : Multiset SubScorer) doc, doc ≤ sub.docID ∧ sub.postings ≠ [] := by
    intro sub hmem
    obtain ⟨⟨sub', -, rfl⟩, hne⟩ := mem_remaining.mp hmem
    exact ⟨sub'.le_docID_advance h.le, hne⟩
  have hcard : (remaining (subScorers : Multiset SubScorer) doc).card = s.numScorers := by
    rw [← h.holds.contents, contents, Multiset.card_map, Multiset.card_range]
  have hcount := Multiset.card_le_card (Multiset.filter_le (fun sub : SubScorer => sub.docID < target)
    (remaining (subScorers : Multiset SubScorer) doc))
  obtain ⟨hholds, hdoc, htie⟩ := moveRoots_spec htarget hlow hbehind hmove h.holds hpos hlive
    (show _ < s.numScorers + 1 by omega)
  rw [remaining_remaining _ hlow] at hholds
  obtain ⟨hfirst, hholds'⟩ := isFirst_of_holds htarget hholds hdoc
  exact ⟨hfirst, rfl, hholds', Or.inr hdoc, htie.trans h.multiplier⟩

theorem On.exhausted (h : On tieBreakerMultiplier subScorers s doc) (hzero : s.numScorers = 0) {target : Int}
    (hlow : doc ≤ target) (htarget : target ≤ NO_MORE_DOCS) :
    IsFirst (docs subScorers) target NO_MORE_DOCS ∧
      On tieBreakerMultiplier subScorers { s with doc := NO_MORE_DOCS } NO_MORE_DOCS := by
  have hnil : remaining (subScorers : Multiset SubScorer) doc = 0 := by
    rw [← h.holds.contents, hzero]
    rfl
  have hgone : ∀ target', doc ≤ target' → remaining (subScorers : Multiset SubScorer) target' = 0 := by
    intro target' hle
    rw [← remaining_remaining _ hle, hnil]
    rfl
  have hcontents : Holds { s with doc := NO_MORE_DOCS } (0 : Multiset SubScorer) :=
    ⟨h.holds.ordered, h.holds.contents.trans hnil⟩
  have hfirst := @isFirst_of_holds { s with doc := NO_MORE_DOCS } subScorers target NO_MORE_DOCS htarget
    ((hgone target hlow).symm ▸ hcontents) (if_pos hzero).symm
  exact ⟨hfirst.1, rfl, hfirst.2, Or.inr (if_pos hzero).symm, h.multiplier⟩

theorem On.nextDoc (h : On tieBreakerMultiplier subScorers s doc) (hlt : doc < NO_MORE_DOCS) :
    IsFirst (docs subScorers) (doc + 1) s.nextDoc.doc ∧ On tieBreakerMultiplier subScorers s.nextDoc s.nextDoc.doc := by
  rw [DisjunctionMaxScorer.nextDoc]
  split_ifs with hzero
  case pos => exact h.exhausted hzero (by omega) hlt
  case neg =>
    apply h.moveRoots hlt (by omega)
    · intro docID hle
      rw [decide_eq_true_iff, h.returned]
      omega
    · intro sub _ hbehind
      rw [sub.nextDoc_eq_advance, of_decide_eq_true hbehind, h.returned]
    · exact Nat.pos_of_ne_zero hzero

theorem On.advance (h : On tieBreakerMultiplier subScorers s doc) {target : Int} (hlow : doc < target)
    (htarget : target ≤ NO_MORE_DOCS) :
    IsFirst (docs subScorers) target (s.advance target).doc ∧
      On tieBreakerMultiplier subScorers (s.advance target) (s.advance target).doc := by
  rw [DisjunctionMaxScorer.advance]
  split_ifs with hzero
  case pos => exact h.exhausted hzero hlow.le htarget
  case neg =>
    apply h.moveRoots htarget hlow.le
    · exact fun docID _ => decide_eq_true_iff
    · exact fun sub _ _ => rfl
    · exact Nat.pos_of_ne_zero hzero

end DisjunctionMaxScorer
end LucenePlusPlus
