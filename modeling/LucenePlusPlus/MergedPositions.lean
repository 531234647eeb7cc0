import LucenePlusPlus.MultipleTermPositions

/-!
What `MultipleTermPositions` enumerates: the postings that are left to the enumerators in the queue are those from some
document on, whatever the calls before were.
-/

namespace LucenePlusPlus

namespace TermPositions

/-- The postings from the one the enumerator is at on. -/
def postings (tp : TermPositions) : List TermPosting := ⟨tp.doc, tp.unread⟩ :: tp.rest

def Sorted (postings : List TermPosting) : Prop := postings.Pairwise fun posting posting' => posting.doc < posting'.doc

/-- No position has been read, and the documents go up. -/
structure Ready (tp : TermPositions) : Prop where
  freq : tp.freq = tp.unread.length
  sorted : Sorted tp.postings

theorem first_spec {postings : List TermPosting} (hsorted : Sorted postings) :
    first postings = none ∧ postings = [] ∨
      ∃ tp, first postings = some tp ∧ tp.postings = postings ∧ tp.Ready := by
  cases postings with
  | nil => exact Or.inl ⟨rfl, rfl⟩
  | cons posting rest => exact Or.inr ⟨_, rfl, rfl, rfl, hsorted⟩

theorem strictWeakOn_lessThan : BinaryHeap.StrictWeakOn lessThan fun _ => True where
  asymm tp tp' _ _ h := by
    rw [lessThan, decide_eq_true_iff] at h
    exact decide_eq_false h.not_gt
  trans tp tp' tp'' _ _ _ h h' := by
    rw [lessThan, decide_eq_false_iff_not, not_lt] at h h'
    exact decide_eq_false (h'.trans h).not_gt

/-- All postings of some enumerators. -/
def all (enumerators : Multiset TermPositions) : Multiset TermPosting :=
  enumerators.bind fun tp => (tp.postings : Multiset TermPosting)

theorem all_cons (tp : TermPositions) (others : Multiset TermPositions) :
    all (tp ::ₘ others) = ⟨tp.doc, tp.unread⟩ ::ₘ ((tp.rest : Multiset TermPosting) + all others) := by
  rw [all, Multiset.cons_bind, postings, ← Multiset.cons_coe, Multiset.cons_add]
  rfl

theorem doc_le_of_mem_postings {tp : TermPositions} (h : tp.Ready) {posting : TermPosting} (hmem : posting ∈ tp.postings) :
    tp.doc ≤ posting.doc := by
  rcases List.mem_cons.mp hmem with rfl | hmem
  · exact le_rfl
  · exact ((List.pairwise_cons.mp h.sorted).1 posting hmem).le

end TermPositions

namespace MultipleTermPositions
open PriorityQueue TermPositions

variable {queue : PriorityQueue TermPositions} {posList : IntQueue} {items : List Int} {tp : TermPositions}
  {E others : Multiset TermPositions} {rounds doc : Nat} {target : Int}

/-- These enumerators are in the queue, at their documents. -/
structure Queued (queue : PriorityQueue TermPositions) (E : Multiset TermPositions) : Prop where
  holds : Holds lessThan queue E
  room : queue.size < queue.heapSize
  ready : ∀ tp ∈ E, tp.Ready

theorem Queued.exists_top (h : Queued queue E) (hne : E ≠ 0) :
    ∃ tp others, E = tp ::ₘ others ∧ queue.top = some tp ∧ ∀ posting ∈ all E, tp.doc ≤ posting.doc := by
  have hpos : 0 < queue.size := by
    rw [← h.holds.card]
    exact Multiset.card_pos.mpr hne
  obtain ⟨tp, others, rfl, htop, hleast⟩ := h.holds.exists_top strictWeakOn_lessThan hpos
  refine ⟨tp, others, rfl, htop, fun posting hmem => ?_⟩
  obtain ⟨tp', htp', hposting⟩ := Multiset.mem_bind.mp hmem
  have hle := doc_le_of_mem_postings (h.ready tp' htp') hposting
  rcases Multiset.mem_cons.mp htp' with rfl | htp'
  · exact hle
  · have hless := hleast tp' htp'
    rw [lessThan, decide_eq_false_iff_not, not_lt] at hless
    exact hless.trans hle

theorem Queued.pop (h : Queued queue (tp ::ₘ others)) (htop : queue.top = some tp) :
    Queued (queue.pop lessThan).2 others ∧ (queue.pop lessThan).2.size + 1 < (queue.pop lessThan).2.heapSize := by
  obtain ⟨first, rest, queue', hE, htop', hpop, hholds, hheapSize, -⟩ :=
    h.holds.pop strictWeakOn_lessThan (Multiset.cons_ne_zero)
  rw [htop] at htop'
  obtain rfl := Option.some.inj htop'
  obtain rfl := (Multiset.cons_inj_right _).mp hE
  have hcard := h.holds.card
  have hcard' := hholds.card
  have hroom := h.room
  rw [Multiset.card_cons] at hcard
  rw [hpop]
  exact ⟨⟨hholds, by dsimp only; omega, fun tp' hmem => h.ready tp' (Multiset.mem_cons_of_mem hmem)⟩,
    by dsimp only; omega⟩

theorem Queued.nextTop (h : Queued queue (tp ::ₘ others)) (htop : queue.top = some tp) {tp' : TermPositions}
    (hrest : tp'.rest = tp.rest) :
    ∃ E', Queued (nextTop queue tp') E' ∧ all E' = (tp.rest : Multiset TermPosting) + all others := by
  have hsorted : TermPositions.Sorted tp.rest :=
    (List.pairwise_cons.mp (h.ready tp (Multiset.mem_cons_self tp others)).sorted).2
  rw [MultipleTermPositions.nextTop, TermPositions.next, hrest]
  rcases first_spec hsorted with ⟨hfirst, hnil⟩ | ⟨following, hfirst, hpostings, hready⟩
  · rw [hfirst, hnil]
    exact ⟨others, (h.pop htop).1, (zero_add _).symm⟩
  · rw [hfirst]
    obtain ⟨hholds, hsize, hheapSize⟩ := h.holds.changeTop strictWeakOn_lessThan htop following
    refine ⟨following ::ₘ others, ⟨hholds, ?_, fun tp'' hmem => ?_⟩, ?_⟩
    · dsimp only
      rw [hsize, hheapSize]
      exact h.room
    · rcases Multiset.mem_cons.mp hmem with rfl | hmem
      · exact hready
      · exact h.ready tp'' (Multiset.mem_cons_of_mem hmem)
    · rw [all, Multiset.cons_bind, hpostings]
      rfl

theorem addPositions_spec (h : posList.Holds items) :
    ∃ tp' posList', addPositions tp.unread.length tp posList = (tp', posList') ∧ tp'.rest = tp.rest ∧
      posList'.Holds (items ++ tp.unread) := by
  induction hunread : tp.unread generalizing tp posList items with
  | nil => exact ⟨tp, posList, rfl, rfl, by rwa [List.append_nil]⟩
  | cons position positions ih =>
      have hnext : tp.nextPosition = (position, { tp with unread := positions }) := by
        rw [TermPositions.nextPosition, hunread]
        rfl
      obtain ⟨tp', posList', heq, hrest, hholds⟩ := @ih _ _ { tp with unread := positions } (h.add position) rfl
      refine ⟨tp', posList', ?_, hrest, ?_⟩
      · rw [List.length_cons, addPositions, hnext]
        exact heq
      · rwa [List.append_assoc] at hholds

/-- The positions of a document. -/
def positionsAt (postings : Multiset TermPosting) (doc : Nat) : Multiset Int :=
  (postings.filter fun posting => posting.doc = doc).bind fun posting => (posting.positions : Multiset Int)

theorem gather_spec (h : Queued queue (tp ::ₘ others)) (htop : queue.top = some tp) (hpos : posList.Holds items)
    (hleast : ∀ posting ∈ all (tp ::ₘ others), tp.doc ≤ posting.doc) (hrounds : (all (tp ::ₘ others)).card ≤ rounds) :
    ∃ queue' posList' E' items', gather tp.doc rounds queue posList = some (queue', posList') ∧ Queued queue' E' ∧
      posList'.Holds items' ∧ all E' = (all (tp ::ₘ others)).filter (fun posting => tp.doc < posting.doc) ∧
      (items' : Multiset Int) = items + positionsAt (all (tp ::ₘ others)) tp.doc := by
  induction rounds generalizing queue posList items tp others with
  | zero =>
      rw [all_cons, Multiset.card_cons] at hrounds
      exact absurd hrounds (Nat.not_succ_le_zero _)
  | succ rounds ih =>
      obtain ⟨tp', posList', hadd, hrest, hpos'⟩ := @addPositions_spec posList items tp hpos
      obtain ⟨E', hqueued, hall⟩ := h.nextTop htop hrest
      have hready := h.ready tp (Multiset.mem_cons_self tp others)
      have hsplit : all (tp ::ₘ others) = ⟨tp.doc, tp.unread⟩ ::ₘ all E' := by rw [all_cons, hall]
      have hleast' : ∀ posting ∈ all E', tp.doc ≤ posting.doc := fun posting hmem =>
        hleast posting (hsplit ▸ Multiset.mem_cons_of_mem hmem)
      rw [hsplit, Multiset.card_cons] at hrounds
      rw [gather, htop]
      dsimp only
      rw [hready.freq, hadd]
      dsimp only
      generalize nextTop queue tp' = queue' at hqueued ⊢
      have hfilter : (all (tp ::ₘ others)).filter (fun posting => tp.doc < posting.doc) =
          (all E').filter fun posting => tp.doc < posting.doc := by
        rw [hsplit]
        exact Multiset.filter_cons_of_neg _ (lt_irrefl _)
      have hpositions : positionsAt (all (tp ::ₘ others)) tp.doc = tp.unread + positionsAt (all E') tp.doc := by
        have hpos : (all (tp ::ₘ others)).filter (fun posting => posting.doc = tp.doc) =
            ⟨tp.doc, tp.unread⟩ ::ₘ (all E').filter fun posting => posting.doc = tp.doc := by
          rw [hsplit]
          exact Multiset.filter_cons_of_pos _ rfl
        rw [positionsAt, hpos, Multiset.cons_bind]
        rfl
      rw [hfilter, hpositions]
      by_cases hmore : queue'.empty = false ∧ queue'.top.map TermPositions.doc = some tp.doc
      · rw [if_pos hmore]
        have hne : E' ≠ 0 := by
          rintro rfl
          rw [hqueued.holds.empty_iff.mpr rfl] at hmore
          exact Bool.noConfusion hmore.1
        obtain ⟨following, others', rfl, htop', -⟩ := hqueued.exists_top hne
        have hdoc : following.doc = tp.doc := by
          rw [htop'] at hmore
          exact Option.some.inj hmore.2
        obtain ⟨queue'', posList'', E'', items'', hgather, hqueued'', hpos'', hall'', hitems''⟩ :=
          ih hqueued htop' hpos' (hdoc ▸ hleast') (by omega)
        rw [hdoc] at hgather hall'' hitems''
        refine ⟨queue'', posList'', E'', items'', hgather, hqueued'', hpos'', hall'', ?_⟩
        rw [hitems'', ← Multiset.coe_add, add_assoc]
      · rw [if_neg hmore]
        have hbehind : ∀ posting ∈ all E', tp.doc < posting.doc := by
          intro posting hmem
          have hne : E' ≠ 0 := by
            rintro rfl
            exact Multiset.notMem_zero _ hmem
          obtain ⟨following, others', rfl, htop', hfollowing⟩ := hqueued.exists_top hne
          have hdoc : following.doc ≠ tp.doc := by
            intro heq
            refine hmore ⟨?_, by rw [htop', Option.map_some, heq]⟩
            rw [← Bool.not_eq_true, hqueued.holds.empty_iff]
            exact hne
          have hle := hleast' ⟨following.doc, following.unread⟩ (by rw [all_cons]; exact Multiset.mem_cons_self _ _)
          exact (lt_of_le_of_ne hle hdoc.symm).trans_le (hfollowing posting hmem)
        refine ⟨queue', posList', E', items ++ tp.unread, rfl, hqueued, hpos', ?_, ?_⟩
        · exact (Multiset.filter_eq_self.mpr hbehind).symm
        · have hnone : positionsAt (all E') tp.doc = 0 := by
            rw [positionsAt, Multiset.filter_eq_nil.mpr fun posting hmem => (hbehind posting hmem).ne']
            rfl
          rw [hnone, add_zero, Multiset.coe_add]

/-- The enumerator is at a document, with its positions. -/
structure At (m : MultipleTermPositions) (postings : Multiset TermPosting) (doc : Nat) (positions : List Int) : Prop where
  doc_eq : m.doc = doc
  freq_eq : m.freq = positions.length
  sorted : positions.Pairwise (· ≤ ·)
  positions_eq : (positions : Multiset Int) = positionsAt postings doc

/-- These postings are left, and these positions of the current document are unread. -/
structure Left (m : MultipleTermPositions) (postings : Multiset TermPosting) (unread : List Int) : Prop where
  queued : ∃ E, Queued m.termPositionsQueue E ∧ all E = postings
  unread : m.posList.Holds unread

theorem next_spec {m : MultipleTermPositions} {postings : Multiset TermPosting} {unread : List Int}
    (h : Left m postings unread) (hrounds : postings.card ≤ rounds) :
    postings = 0 ∧ m.next rounds = some (false, m) ∨
      ∃ m' doc positions, m.next rounds = some (true, m') ∧ (∃ posting ∈ postings, posting.doc = doc) ∧
        (∀ posting ∈ postings, doc ≤ posting.doc) ∧ At m' postings doc positions ∧
        Left m' (postings.filter fun posting => doc < posting.doc) positions := by
  obtain ⟨E, hqueued, rfl⟩ := h.queued
  rw [next]
  by_cases hzero : E = 0
  · rw [if_pos (hqueued.holds.empty_iff.mpr hzero)]
    exact Or.inl ⟨by rw [hzero]; rfl, rfl⟩
  · rw [if_neg fun hempty => hzero (hqueued.holds.empty_iff.mp hempty)]
    obtain ⟨tp, others, rfl, htop, hleast⟩ := hqueued.exists_top hzero
    obtain ⟨queue', posList', E', items, hgather, hqueued', hpos, hall, hitems⟩ :=
      gather_spec hqueued htop h.unread.clear hleast hrounds
    rw [htop]
    dsimp only [Option.bind_eq_bind, Option.bind_some]
    rw [hgather]
    have hsorted := hpos.sort
    refine Or.inr ⟨_, tp.doc, items.insertionSort (· ≤ ·), rfl, ?_, hleast, ⟨rfl, hsorted.size, ?_, ?_⟩, ?_⟩
    · exact ⟨⟨tp.doc, tp.unread⟩, by rw [all_cons]; exact Multiset.mem_cons_self _ _, rfl⟩
    · exact List.pairwise_insertionSort _ _
    · rw [Multiset.coe_eq_coe.mpr (List.perm_insertionSort _ _), hitems]
      exact zero_add _
    · exact ⟨⟨E', hqueued', hall⟩, hsorted⟩

/-! ### Skips -/

theorem dropWhile_eq_filter {postings : List TermPosting} (hsorted : TermPositions.Sorted postings) (target : Int) :
    postings.dropWhile (fun posting => decide ((posting.doc : Int) < target)) =
      postings.filter fun posting => decide (target ≤ posting.doc) := by
  induction postings with
  | nil => rfl
  | cons posting rest ih =>
      obtain ⟨hlt, hrest⟩ := List.pairwise_cons.mp hsorted
      by_cases hbefore : (posting.doc : Int) < target
      · rw [List.dropWhile_cons, if_pos (decide_eq_true hbefore), ih hrest,
          List.filter_cons_of_neg (by simpa using hbefore)]
      · rw [List.dropWhile_cons, if_neg (by simpa using hbefore), List.filter_eq_self.mpr]
        intro posting' hmem
        rcases List.mem_cons.mp hmem with rfl | hmem
        · exact decide_eq_true (not_lt.mp hbefore)
        · have hless := hlt posting' hmem
          exact decide_eq_true (by omega)

/-- The enumerators before the target. -/
def behind (target : Int) (E : Multiset TermPositions) : Multiset TermPositions :=
  E.filter fun tp => (tp.doc : Int) < target

def fromTarget (target : Int) (postings : Multiset TermPosting) : Multiset TermPosting :=
  postings.filter fun posting => target ≤ posting.doc

theorem fromTarget_add (target : Int) (postings postings' : Multiset TermPosting) :
    fromTarget target (postings + postings') = fromTarget target postings + fromTarget target postings' :=
  Multiset.filter_add _ _ _

theorem fromTarget_self (target : Int) (postings : Multiset TermPosting) :
    fromTarget target (fromTarget target postings) = fromTarget target postings :=
  Multiset.filter_eq_self.mpr fun _ hmem => (Multiset.mem_filter.mp hmem).2

theorem Queued.skipTop (h : Queued queue (tp ::ₘ others)) (htop : queue.top = some tp) (hbefore : (tp.doc : Int) < target) :
    ∃ queue' E', putBack (queue.pop lessThan).2 (tp.skipTo target) = .ok queue' ∧ Queued queue' E' ∧
      fromTarget target (all E') = fromTarget target (all (tp ::ₘ others)) ∧
      (behind target E').card < (behind target (tp ::ₘ others)).card := by
  obtain ⟨hpop, hroom⟩ := h.pop htop
  have hready := h.ready tp (Multiset.mem_cons_self tp others)
  have hsorted : TermPositions.Sorted tp.rest := (List.pairwise_cons.mp hready.sorted).2
  have hbehind : behind target (tp ::ₘ others) = tp ::ₘ behind target others := Multiset.filter_cons_of_pos _ hbefore
  have hfrom : fromTarget target (all (tp ::ₘ others)) = fromTarget target (tp.rest : Multiset TermPosting) + fromTarget target (all others) := by
    rw [all_cons, ← fromTarget_add]
    exact Multiset.filter_cons_of_neg _ (not_le.mpr hbefore)
  have hrest : fromTarget target (tp.rest : Multiset TermPosting) =
      (tp.rest.dropWhile fun posting => decide ((posting.doc : Int) < target) : List TermPosting) := by
    rw [dropWhile_eq_filter hsorted, fromTarget, Multiset.filter_coe]
  rw [hbehind, hfrom, Multiset.card_cons, TermPositions.skipTo, hrest]
  rcases first_spec (hsorted.sublist (List.dropWhile_sublist _)) with ⟨hfirst, hnil⟩ | ⟨tp', hfirst, hpostings, hready'⟩
  · rw [hfirst, hnil]
    exact ⟨_, others, rfl, hpop, (zero_add _).symm, Nat.lt_succ_self _⟩
  · obtain ⟨queue', hadd, hholds⟩ := @Holds.add _ _ _ _ tp' hpop.holds strictWeakOn_lessThan hroom
    have hdoc : target ≤ tp'.doc := by
      have hmem : (⟨tp'.doc, tp'.unread⟩ : TermPosting) ∈ fromTarget target (tp.rest : Multiset TermPosting) := by
        rw [hrest, ← hpostings]
        exact List.mem_cons_self
      exact (Multiset.mem_filter.mp hmem).2
    have hall : fromTarget target (all (tp' ::ₘ others)) = (tp'.postings : Multiset TermPosting) + fromTarget target (all others) := by
      have hself : fromTarget target (tp'.postings : Multiset TermPosting) = tp'.postings := by
        rw [hpostings, ← hrest, fromTarget_self]
      rw [all, Multiset.cons_bind, ← all, fromTarget_add, hself]
    rw [hfirst]
    refine ⟨queue', tp' ::ₘ others, hadd, ⟨hholds, ?_, fun tp'' hmem => ?_⟩, ?_, ?_⟩
    · have hcard := hholds.card
      have hcard' := hpop.holds.card
      rw [Multiset.card_cons] at hcard
      rw [heapSize_add hadd]
      omega
    · rcases Multiset.mem_cons.mp hmem with rfl | hmem
      · exact hready'
      · exact hpop.ready tp'' hmem
    · rw [hall, hpostings]
    · have hcons : behind target (tp' ::ₘ others) = behind target others := Multiset.filter_cons_of_neg _ (not_lt.mpr hdoc)
      rw [hcons]
      exact Nat.lt_succ_self _

theorem skip_spec (h : Queued queue E) (hrounds : (behind target E).card < rounds) :
    ∃ queue' E', skip target rounds queue = some queue' ∧ Queued queue' E' ∧ all E' = fromTarget target (all E) := by
  induction rounds generalizing queue E with
  | zero => exact absurd hrounds (Nat.not_lt_zero _)
  | succ rounds ih =>
      rw [skip]
      by_cases hzero : E = 0
      · subst hzero
        rw [h.holds.top_of_eq_zero]
        exact ⟨queue, 0, rfl, h, rfl⟩
      · obtain ⟨tp, others, rfl, htop, hleast⟩ := h.exists_top hzero
        rw [htop]
        dsimp only
        by_cases hbefore : (tp.doc : Int) < target
        · obtain ⟨queue', E', hput, hqueued, hfrom, hless⟩ := h.skipTop htop hbefore
          rw [if_pos hbefore, hput, ← hfrom]
          exact ih hqueued (by omega)
        · rw [if_neg hbefore]
          refine ⟨queue, _, rfl, h, (Multiset.filter_eq_self.mpr fun posting hmem => ?_).symm⟩
          have hle := hleast posting hmem
          omega

theorem skipTo_left {m : MultipleTermPositions} {postings : Multiset TermPosting} {unread : List Int}
    (h : Left m postings unread) (hrounds : m.termPositionsQueue.size < rounds) :
    ∃ queue', m.skipTo rounds target = next rounds { m with termPositionsQueue := queue' } ∧
      Left { m with termPositionsQueue := queue' } (fromTarget target postings) unread := by
  obtain ⟨E, hqueued, rfl⟩ := h.queued
  have hcard := Multiset.card_le_card (Multiset.filter_le (fun tp => (tp.doc : Int) < target) E)
  rw [hqueued.holds.card] at hcard
  obtain ⟨queue', E', hskip, hqueued', hall⟩ := @skip_spec _ _ rounds target hqueued (hcard.trans_lt hrounds)
  refine ⟨queue', ?_, ⟨E', hqueued', hall⟩, h.unread⟩
  rw [skipTo, hskip]
  rfl

theorem room_of_add {queue' : PriorityQueue TermPositions} (h : queue.add lessThan tp = .ok queue') :
    queue.size + 1 < queue.heapSize := by
  simp only [PriorityQueue.add] at h
  split at h
  case isTrue => cases h
  case isFalse hroom => exact not_le.mp hroom

theorem Queued.add (h : Queued queue E) (hready : tp.Ready) {queue' : PriorityQueue TermPositions}
    (hadd : queue.add lessThan tp = .ok queue') : Queued queue' (tp ::ₘ E) := by
  have hroom := room_of_add hadd
  obtain ⟨queue'', hadd', hholds⟩ := @Holds.add _ _ _ _ tp h.holds strictWeakOn_lessThan hroom
  obtain rfl := Except.ok.inj (hadd.symm.trans hadd')
  refine ⟨hholds, ?_, fun tp' hmem => ?_⟩
  · rw [(maxSize_add hadd).2, heapSize_add hadd]
    exact hroom
  · rcases Multiset.mem_cons.mp hmem with rfl | hmem
    · exact hready
    · exact h.ready tp' hmem

theorem addAll_spec {terms : List (List TermPosting)} (hsorted : ∀ postings ∈ terms, TermPositions.Sorted postings)
    (h : Queued queue E) {queue' : PriorityQueue TermPositions} (hadd : addAll terms queue = .ok queue') :
    ∃ E', Queued queue' E' ∧ all E' = all E + (terms.flatten : Multiset TermPosting) := by
  induction terms generalizing queue E with
  | nil =>
      cases hadd
      exact ⟨E, h, (add_zero _).symm⟩
  | cons postings terms ih =>
      have hrest : ∀ postings ∈ terms, TermPositions.Sorted postings := fun postings' hmem =>
        hsorted postings' (List.mem_cons_of_mem postings hmem)
      rw [addAll] at hadd
      rcases first_spec (hsorted postings List.mem_cons_self) with ⟨hfirst, rfl⟩ | ⟨tp, hfirst, hpostings, hready⟩
      · rw [hfirst] at hadd
        exact ih hrest h hadd
      · rw [hfirst] at hadd
        cases hput : queue.add lessThan tp with
        | error _ =>
            dsimp only at hadd
            rw [hput] at hadd
            cases hadd
        | ok queue'' =>
            dsimp only at hadd
            rw [hput] at hadd
            obtain ⟨E', hqueued, hall⟩ := ih hrest (h.add hready hput) hadd
            refine ⟨E', hqueued, ?_⟩
            rw [hall, all, Multiset.cons_bind, ← all, hpostings, List.flatten_cons, ← Multiset.coe_add, add_comm _ (all E),
              add_assoc]

theorem addAll_ok (terms : List (List TermPosting)) (hroom : queue.size + terms.length < queue.heapSize) :
    ∃ queue', addAll terms queue = .ok queue' := by
  induction terms generalizing queue with
  | nil => exact ⟨queue, rfl⟩
  | cons postings terms ih =>
      rw [List.length_cons] at hroom
      rw [addAll]
      cases TermPositions.first postings with
      | none => exact ih (by omega)
      | some tp =>
          have hput : ∃ queue', queue.add lessThan tp = .ok queue' := by
            rw [PriorityQueue.add, if_neg (show ¬ queue.heapSize ≤ queue.size + 1 by omega)]
            exact ⟨_, rfl⟩
          obtain ⟨queue', hput⟩ := hput
          dsimp only
          rw [hput]
          exact ih (by rw [(maxSize_add hput).2, heapSize_add hput]; omega)

inductive Call
  | next
  | skipTo (target : Int)
  | nextPosition

/-- Whether a call goes to a document. -/
def move (rounds : Nat) (m : MultipleTermPositions) : Call → Option (Bool × MultipleTermPositions)
  | .next => m.next rounds
  | .skipTo target => m.skipTo rounds target
  | .nextPosition => none

/-- The first document that a call may go to, when it may be `start`. -/
def Call.lowest (start : Nat) : Call → Nat
  | .skipTo target => max start target.toNat
  | _ => start

/-- The calls are answered with the documents of the postings from `start` on, and with the positions that are unread.
It is an error to ask for more positions than there are. -/
def Answers (rounds : Nat) (postings : Multiset TermPosting) : MultipleTermPositions → Nat → List Int → List Call → Prop
  | _, _, _, [] => True
  | _, _, [], .nextPosition :: _ => True
  | m, start, position :: unread, .nextPosition :: calls =>
      m.nextPosition.1 = position ∧ Answers rounds postings m.nextPosition.2 start unread calls
  | m, start, unread, call :: calls =>
      (∃ m', m.move rounds call = some (false, m') ∧ (∀ posting ∈ postings, posting.doc < call.lowest start) ∧
        Answers rounds postings m' (call.lowest start) unread calls) ∨
      ∃ m' doc positions, m.move rounds call = some (true, m') ∧ (∃ posting ∈ postings, posting.doc = doc) ∧
        call.lowest start ≤ doc ∧ (∀ posting ∈ postings, call.lowest start ≤ posting.doc → doc ≤ posting.doc) ∧
        At m' postings doc positions ∧ Answers rounds postings m' (doc + 1) positions calls

/-- The postings from a document on. -/
def fromDoc (start : Nat) (postings : Multiset TermPosting) : Multiset TermPosting :=
  postings.filter fun posting => start ≤ posting.doc

variable {postings : Multiset TermPosting} {start : Nat} {unread : List Int} {m : MultipleTermPositions}

theorem fromTarget_fromDoc (target : Int) (start : Nat) (postings : Multiset TermPosting) :
    fromTarget target (fromDoc start postings) = fromDoc (max start target.toNat) postings := by
  rw [fromTarget, fromDoc, fromDoc, Multiset.filter_filter]
  exact Multiset.filter_congr fun posting _ => by omega

theorem card_le_card_all (E : Multiset TermPositions) : E.card ≤ (all E).card := by
  induction E using Multiset.induction with
  | empty => exact le_rfl
  | cons tp others ih =>
      rw [all_cons, Multiset.card_cons, Multiset.card_cons, Multiset.card_add]
      omega

theorem move_spec {call : Call} (hcall : call ≠ .nextPosition) (h : Left m (fromDoc start postings) unread)
    (hrounds : postings.card < rounds) :
    (∃ m', m.move rounds call = some (false, m') ∧ (∀ posting ∈ postings, posting.doc < call.lowest start) ∧
      Left m' (fromDoc (call.lowest start) postings) unread) ∨
    ∃ m' doc positions, m.move rounds call = some (true, m') ∧ (∃ posting ∈ postings, posting.doc = doc) ∧
      call.lowest start ≤ doc ∧ (∀ posting ∈ postings, call.lowest start ≤ posting.doc → doc ≤ posting.doc) ∧
      At m' postings doc positions ∧ Left m' (fromDoc (doc + 1) postings) positions := by
  obtain ⟨m₁, hmove, hleft⟩ : ∃ m₁, m.move rounds call = next rounds m₁ ∧
      Left m₁ (fromDoc (call.lowest start) postings) unread := by
    cases call with
    | next => exact ⟨m, rfl, h⟩
    | skipTo target =>
        have hsize : m.termPositionsQueue.size < rounds := by
          obtain ⟨E, hqueued, hall⟩ := h.queued
          have hcard := card_le_card_all E
          have hle := Multiset.card_le_card (Multiset.filter_le (fun posting => start ≤ posting.doc) postings)
          rw [hall, hqueued.holds.card] at hcard
          exact (hcard.trans hle).trans_lt hrounds
        obtain ⟨queue', heq, hleft⟩ := @skipTo_left rounds target m _ _ h hsize
        rw [fromTarget_fromDoc] at hleft
        exact ⟨_, heq, hleft⟩
    | nextPosition => exact absurd rfl hcall
  have hle := Multiset.card_le_card (Multiset.filter_le (fun posting => call.lowest start ≤ posting.doc) postings)
  rw [hmove]
  rcases next_spec hleft (hle.trans hrounds.le) with ⟨hnil, heq⟩ | ⟨m', doc, positions, heq, ⟨posting, hmem, hdoc⟩, hleast, hat, hleft'⟩
  · refine Or.inl ⟨m₁, heq, fun posting hmem => ?_, hleft⟩
    by_contra hnot
    have hin : posting ∈ fromDoc (call.lowest start) postings := Multiset.mem_filter.mpr ⟨hmem, not_lt.mp hnot⟩
    rw [hnil] at hin
    exact Multiset.notMem_zero _ hin
  · obtain ⟨hmem, hstart⟩ := Multiset.mem_filter.mp hmem
    rw [hdoc] at hstart
    have hpositions : positionsAt (fromDoc (call.lowest start) postings) doc = positionsAt postings doc := by
      rw [positionsAt, positionsAt, fromDoc, Multiset.filter_filter]
      congr 1
      exact Multiset.filter_congr fun posting _ => by omega
    have hbehind : (fromDoc (call.lowest start) postings).filter (fun posting => doc < posting.doc) =
        fromDoc (doc + 1) postings := by
      rw [fromDoc, fromDoc, Multiset.filter_filter]
      exact Multiset.filter_congr fun posting _ => by omega
    refine Or.inr ⟨m', doc, positions, heq, ⟨posting, hmem, hdoc⟩, hstart, fun posting' hmem' hle' => ?_, ?_, ?_⟩
    · exact hleast posting' (Multiset.mem_filter.mpr ⟨hmem', hle'⟩)
    · exact ⟨hat.doc_eq, hat.freq_eq, hat.sorted, hat.positions_eq.trans hpositions⟩
    · rwa [hbehind] at hleft'

theorem answers (hrounds : postings.card < rounds) (calls : List Call) (h : Left m (fromDoc start postings) unread) :
    Answers rounds postings m start unread calls := by
  induction calls generalizing m start unread with
  | nil =>
      cases unread <;> exact trivial
  | cons call calls ih =>
      have hmoves (hcall : call ≠ .nextPosition) :
          (∃ m', m.move rounds call = some (false, m') ∧ (∀ posting ∈ postings, posting.doc < call.lowest start) ∧
            Answers rounds postings m' (call.lowest start) unread calls) ∨
          ∃ m' doc positions, m.move rounds call = some (true, m') ∧ (∃ posting ∈ postings, posting.doc = doc) ∧
            call.lowest start ≤ doc ∧ (∀ posting ∈ postings, call.lowest start ≤ posting.doc → doc ≤ posting.doc) ∧
            At m' postings doc positions ∧ Answers rounds postings m' (doc + 1) positions calls := by
        rcases move_spec hcall h hrounds with ⟨m', heq, hnone, hleft⟩ | ⟨m', doc, positions, heq, hdoc, hle, hleast, hat, hleft⟩
        · exact Or.inl ⟨m', heq, hnone, ih hleft⟩
        · exact Or.inr ⟨m', doc, positions, heq, hdoc, hle, hleast, hat, ih hleft⟩
      cases call with
      | next => cases unread <;> exact hmoves nofun
      | skipTo target => cases unread <;> exact hmoves nofun
      | nextPosition =>
          cases unread with
          | nil => exact trivial
          | cons position unread =>
              obtain ⟨hposition, hunread⟩ := h.unread.next
              exact ⟨hposition, ih ⟨h.queued, hunread⟩⟩

/-- Two terms that are in a document together. -/
def twoTerms : List (List TermPosting) := [[⟨0, [3]⟩, ⟨2, [5, 9]⟩], [⟨2, [1]⟩]]

end MultipleTermPositions
end LucenePlusPlus
