import LucenePlusPlus.PostingsUnion

/-!
`MultiTermEnum`: the terms of the sub-readers of a composite reader, in a queue of their enumerators. The numbers of
documents are sums.
-/

namespace LucenePlusPlus
open PostingsMerge

structure MultiTermEnum where
  queue : Queue
  matchingSegments : List SegmentMergeInfo
  term : Option Term
  docFreq : Nat

namespace MultiTermEnum

/-- The enumerator of a sub-reader at its first term, or at the first one that is not before `t`. For the term whose
field and text are empty, as those of an unset one, it stays before its first term, and is closed. -/
def startAt (base : Int) (reader : Reader) : Option Term → Except MergeError (Option SegmentMergeInfo)
  | none => nextTerm base reader reader.terms
  | some t =>
      if t = ⟨[], []⟩ then .ok none else
      match reader.terms.dropWhile fun entry => decide (entry.term < t) with
      | [] => .ok none
      | entry :: rest =>
          -- a term of the field with the empty name is null
          if entry.term.field = [] then .ok none else .ok (some ⟨base, reader, entry.term, entry.postings, rest⟩)

def initialQueue (t : Option Term) : Int → List Reader → Queue → Except MergeError Queue
  | _, [], queue => .ok queue
  | base, reader :: readers, queue => do
      let smi ← startAt base reader t
      let queue ← addToQueue queue smi
      initialQueue t (base + reader.segment.maxDoc) readers queue

def next (enum : MultiTermEnum) : Except MergeError (Bool × MultiTermEnum) := do
  let queue ← enum.matchingSegments.foldlM (fun queue smi => do addToQueue queue (← smi.next)) enum.queue
  match queue.top with
  | none => return (false, ⟨queue, [], none, enum.docFreq⟩)
  | some top =>
      let (matching, queue) := popMatching top.term queue.size queue []
      return (true, ⟨queue, matching, some top.term, (matching.map fun smi => smi.postings.length).sum⟩)

/-- The constructor. -/
def init (readers : Readers) (t : Option Term) : Except MergeError MultiTermEnum := do
  let queue ← initialQueue t 0 readers.val (.new readers.val.length)
  let enum : MultiTermEnum := ⟨queue, [], none, 0⟩
  if t.isSome ∧ queue.empty = false then
    let (_, enum) ← enum.next
    return enum
  else return enum

/-- The terms that calls of `next` go to, with the numbers of their documents. -/
def remaining : Nat → MultiTermEnum → Except MergeError (List (Term × Nat))
  | 0, _ => .error .rounds
  | rounds + 1, enum => do
      let (_, enum) ← enum.next
      match enum.term with
      | none => return []
      | some term =>
          let entries ← remaining rounds enum
          return (term, enum.docFreq) :: entries

/-- The term that the enumerator begins at, if it begins at one, and those that follow. -/
def enumerate (readers : Readers) (t : Option Term) : Except MergeError (List (Term × Nat)) := do
  let enum ← init readers t
  let entries ← remaining ((readers.val.map fun reader => reader.terms.length).sum + 1) enum
  return (enum.term.map fun term => (term, enum.docFreq)).toList ++ entries

/-- The number of documents of the term, in one list. -/
def freqIn (term : Term) (terms : List TermPostings) : Nat :=
  ((terms.filter fun entry => entry.term = term).map fun entry => entry.postings.length).sum

/-- The terms of the lists in order, each with the sum of its numbers of documents. -/
structure Sums (lists : Multiset (List TermPostings)) (entries : List (Term × Nat)) : Prop where
  sorted : entries.Pairwise fun entry entry' => entry.1 < entry'.1
  mem_iff : ∀ term docFreq, (term, docFreq) ∈ entries ↔
    (∃ terms ∈ lists, ∃ entry ∈ terms, entry.term = term) ∧ docFreq = (lists.map (freqIn term)).sum

def Sorted (terms : List TermPostings) : Prop := terms.Pairwise fun entry entry' => entry.term < entry'.term

variable {terms rest : List TermPostings} {entry : TermPostings} {term : Term} {lists : Multiset (List TermPostings)}
  {entries : List (Term × Nat)}

theorem freqIn_cons_self (entry : TermPostings) (rest : List TermPostings) :
    freqIn entry.term (entry :: rest) = entry.postings.length + freqIn entry.term rest := by
  rw [freqIn, List.filter_cons_of_pos (by simp), List.map_cons, List.sum_cons]
  rfl

theorem freqIn_cons_of_ne (h : entry.term ≠ term) : freqIn term (entry :: rest) = freqIn term rest := by
  rw [freqIn, List.filter_cons_of_neg (by simpa using h)]
  rfl

theorem freqIn_eq_zero (h : ∀ entry ∈ terms, entry.term ≠ term) : freqIn term terms = 0 := by
  rw [freqIn, List.filter_eq_nil_iff.mpr fun entry hmem => by simpa using h entry hmem]
  rfl

theorem Sums.zero (h : ∀ terms ∈ lists, terms = []) : Sums lists [] where
  sorted := List.Pairwise.nil
  mem_iff term docFreq := by
    refine iff_of_false nofun ?_
    rintro ⟨⟨terms, hterms, entry, hentry, -⟩, -⟩
    rw [h terms hterms] at hentry
    cases hentry

theorem Sums.cons (popped : Multiset (TermPostings × List TermPostings)) (others : Multiset (List TermPostings))
    (hpopped : ∀ head ∈ popped, head.1.term = term ∧ Sorted (head.1 :: head.2)) (hne : popped ≠ 0)
    (hothers : ∀ terms ∈ others, ∀ entry ∈ terms, term < entry.term)
    (h : Sums (popped.map Prod.snd + others) entries) :
    Sums (popped.map (fun head => head.1 :: head.2) + others)
      ((term, (popped.map fun head => head.1.postings.length).sum) :: entries) := by
  have hafter : ∀ terms ∈ popped.map Prod.snd + others, ∀ entry ∈ terms, term < entry.term := by
    intro terms hterms entry hentry
    rcases Multiset.mem_add.mp hterms with hmem | hmem
    · obtain ⟨head, hhead, rfl⟩ := Multiset.mem_map.mp hmem
      obtain ⟨rfl, hsorted⟩ := hpopped head hhead
      exact (List.pairwise_cons.mp hsorted).1 entry hentry
    · exact hothers terms hmem entry hentry
  have hlater : ∀ entry ∈ entries, term < entry.1 := by
    rintro ⟨other, docFreq⟩ hmem
    obtain ⟨⟨terms, hterms, entry, hentry, rfl⟩, -⟩ := (h.mem_iff other docFreq).mp hmem
    exact hafter terms hterms entry hentry
  have hsame : ((popped.map fun head => head.1 :: head.2).map (freqIn term)).sum =
      (popped.map fun head => head.1.postings.length).sum := by
    rw [Multiset.map_map]
    refine congrArg Multiset.sum (Multiset.map_congr rfl fun head hhead => ?_)
    obtain ⟨hterm, hsorted⟩ := hpopped head hhead
    rw [Function.comp_apply, ← hterm, freqIn_cons_self, freqIn_eq_zero, add_zero]
    exact fun entry hentry => ((List.pairwise_cons.mp hsorted).1 entry hentry).ne'
  have hzero : (others.map (freqIn term)).sum = 0 := by
    refine Multiset.sum_eq_zero fun n hn => ?_
    obtain ⟨terms, hterms, rfl⟩ := Multiset.mem_map.mp hn
    exact freqIn_eq_zero fun entry hentry => (hothers terms hterms entry hentry).ne'
  have hother : ∀ other, other ≠ term → ((popped.map fun head => head.1 :: head.2).map (freqIn other)).sum =
      ((popped.map Prod.snd).map (freqIn other)).sum := by
    intro other hne
    rw [Multiset.map_map, Multiset.map_map]
    refine congrArg Multiset.sum (Multiset.map_congr rfl fun head hhead => ?_)
    exact freqIn_cons_of_ne fun heq => hne (heq.symm.trans (hpopped head hhead).1)
  refine ⟨List.pairwise_cons.mpr ⟨hlater, h.sorted⟩, fun other docFreq => ?_⟩
  rw [List.mem_cons, Multiset.map_add, Multiset.sum_add, Prod.mk.injEq]
  by_cases heq : other = term
  · subst heq
    rw [hsame, hzero, add_zero, and_iff_right rfl]
    obtain ⟨head, hhead⟩ := Multiset.exists_mem_of_ne_zero hne
    rw [and_iff_right, or_iff_left]
    · exact fun hmem => absurd (hlater _ hmem) (lt_irrefl _)
    · exact ⟨_, Multiset.mem_add.mpr (Or.inl (Multiset.mem_map_of_mem _ hhead)), head.1, List.mem_cons_self,
        (hpopped head hhead).1⟩
  · rw [or_iff_right (fun hboth => heq hboth.1), h.mem_iff, hother other heq, Multiset.map_add, Multiset.sum_add]
    refine and_congr_left fun _ => ⟨?_, ?_⟩
    · rintro ⟨terms, hterms, entry, hentry, rfl⟩
      rcases Multiset.mem_add.mp hterms with hmem | hmem
      · obtain ⟨head, hhead, rfl⟩ := Multiset.mem_map.mp hmem
        exact ⟨_, Multiset.mem_add.mpr (Or.inl (Multiset.mem_map_of_mem _ hhead)), entry,
          List.mem_cons_of_mem _ hentry, rfl⟩
      · exact ⟨terms, Multiset.mem_add.mpr (Or.inr hmem), entry, hentry, rfl⟩
    · rintro ⟨terms, hterms, entry, hentry, rfl⟩
      rcases Multiset.mem_add.mp hterms with hmem | hmem
      · obtain ⟨head, hhead, rfl⟩ := Multiset.mem_map.mp hmem
        rcases List.mem_cons.mp hentry with rfl | hentry
        · exact absurd (hpopped head hhead).1 heq
        · exact ⟨_, Multiset.mem_add.mpr (Or.inl (Multiset.mem_map_of_mem _ hhead)), entry, hentry, rfl⟩
      · exact ⟨terms, Multiset.mem_add.mpr (Or.inr hmem), entry, hentry, rfl⟩

/-- The lists have the same entries, but for how they are divided and for empty lists. -/
structure Same (lists lists' : Multiset (List TermPostings)) : Prop where
  mem_iff : ∀ entry, (∃ terms ∈ lists, entry ∈ terms) ↔ ∃ terms ∈ lists', entry ∈ terms
  sum_eq : ∀ term, (lists.map (freqIn term)).sum = (lists'.map (freqIn term)).sum
  length_eq : (lists.map List.length).sum = (lists'.map List.length).sum

theorem Same.add {lists' others : Multiset (List TermPostings)} (h : Same lists lists') :
    Same (lists + others) (lists' + others) where
  mem_iff entry := by
    simp only [Multiset.mem_add, or_and_right, exists_or, h.mem_iff]
  sum_eq term := by
    rw [Multiset.map_add, Multiset.map_add, Multiset.sum_add, Multiset.sum_add, h.sum_eq]
  length_eq := by
    rw [Multiset.map_add, Multiset.map_add, Multiset.sum_add, Multiset.sum_add, h.length_eq]

theorem Same.cons_nil {lists' : Multiset (List TermPostings)} (h : Same lists lists') : Same lists ([] ::ₘ lists') where
  mem_iff entry := by
    rw [h.mem_iff]
    simp only [Multiset.mem_cons, exists_eq_or_imp, List.not_mem_nil, false_or]
  sum_eq term := by
    rw [h.sum_eq, Multiset.map_cons, Multiset.sum_cons]
    exact (zero_add _).symm
  length_eq := by
    rw [h.length_eq, Multiset.map_cons, Multiset.sum_cons]
    exact (zero_add _).symm

theorem Same.cons {lists' : Multiset (List TermPostings)} (h : Same lists lists') (terms : List TermPostings) :
    Same (terms ::ₘ lists) (terms ::ₘ lists') where
  mem_iff entry := by
    simp only [Multiset.mem_cons, exists_eq_or_imp, h.mem_iff]
  sum_eq term := by
    rw [Multiset.map_cons, Multiset.map_cons, Multiset.sum_cons, Multiset.sum_cons, h.sum_eq]
  length_eq := by
    rw [Multiset.map_cons, Multiset.map_cons, Multiset.sum_cons, Multiset.sum_cons, h.length_eq]

theorem Same.trans {lists' lists'' : Multiset (List TermPostings)} (h : Same lists lists') (h' : Same lists' lists'') :
    Same lists lists'' :=
  ⟨fun entry => (h.mem_iff entry).trans (h'.mem_iff entry), fun term => (h.sum_eq term).trans (h'.sum_eq term),
    h.length_eq.trans h'.length_eq⟩

theorem Same.refl (lists : Multiset (List TermPostings)) : Same lists lists := ⟨fun _ => Iff.rfl, fun _ => rfl, rfl⟩

theorem Sums.congr {lists' : Multiset (List TermPostings)} (h : Sums lists entries) (hsame : Same lists lists') :
    Sums lists' entries := by
  refine ⟨h.sorted, fun term docFreq => ?_⟩
  rw [h.mem_iff, hsame.sum_eq]
  have hmem := hsame.mem_iff
  refine and_congr_left fun _ => ⟨?_, ?_⟩
  · rintro ⟨terms, hterms, entry, hentry, heq⟩
    obtain ⟨terms', hterms', hentry'⟩ := (hmem entry).mp ⟨terms, hterms, hentry⟩
    exact ⟨terms', hterms', entry, hentry', heq⟩
  · rintro ⟨terms, hterms, entry, hentry, heq⟩
    obtain ⟨terms', hterms', hentry'⟩ := (hmem entry).mpr ⟨terms, hterms, hentry⟩
    exact ⟨terms', hterms', entry, hentry', heq⟩

/-- The entry that the enumerator is at. -/
def headOf (smi : SegmentMergeInfo) : TermPostings := ⟨smi.term, smi.postings⟩

/-- The entries that are to come, from the one that the enumerator is at. -/
def toCome (smi : SegmentMergeInfo) : List TermPostings := headOf smi :: smi.rest

structure Proper (smi : SegmentMergeInfo) : Prop where
  sorted : Sorted (toCome smi)
  named : ∀ entry ∈ smi.rest, entry.term.field ≠ []

variable {smi : SegmentMergeInfo} {enum : MultiTermEnum} {elements : Multiset SegmentMergeInfo}

theorem Proper.next_eq (h : Proper smi) : smi.next = .ok smi.advance := nextTerm_eq h.named

theorem info?_spec (base : Int) (reader : Reader) (terms : List TermPostings) (hsorted : Sorted terms)
    (hnamed : ∀ entry ∈ terms, entry.term.field ≠ []) :
    Same (((Cursor.info? ⟨base, reader, terms⟩).toList.map toCome : List _) : Multiset _) {terms} ∧
      ∀ smi, Cursor.info? ⟨base, reader, terms⟩ = some smi → Proper smi := by
  cases terms with
  | nil => exact ⟨Same.cons_nil (Same.refl 0), nofun⟩
  | cons entry rest =>
      refine ⟨Same.refl _, fun smi hsmi => ?_⟩
      cases hsmi
      exact ⟨hsorted, fun entry' hmem => hnamed entry' (List.mem_cons_of_mem _ hmem)⟩

theorem Proper.advance_spec (h : Proper smi) :
    Same ((smi.advance.toList.map toCome : List _) : Multiset _) {smi.rest} ∧
      ∀ smi', smi.advance = some smi' → Proper smi' :=
  info?_spec _ _ _ (List.pairwise_cons.mp h.sorted).2 h.named

theorem rest_of_advance (smi : SegmentMergeInfo) : smi.rest = (smi.advance.map toCome).getD [] := by
  rw [SegmentMergeInfo.advance, Cursor.info?]
  cases hrest : smi.rest <;> rfl

theorem sum_length_advance (smis : List SegmentMergeInfo) :
    ((smis.filterMap SegmentMergeInfo.advance).map fun smi => (toCome smi).length).sum + smis.length =
      (smis.map fun smi => (toCome smi).length).sum := by
  induction smis with
  | nil => rfl
  | cons smi smis ih =>
      have hrest := rest_of_advance smi
      rw [List.map_cons, List.sum_cons, ← ih, List.filterMap_cons, List.length_cons, toCome, List.length_cons, hrest]
      cases smi.advance with
      | none =>
          simp only [Option.map_none, Option.getD_none, List.length_nil]
          omega
      | some smi' =>
          simp only [Option.map_some, Option.getD_some, List.map_cons, List.sum_cons]
          omega

theorem same_filterMap_advance (popped : List SegmentMergeInfo) :
    Same (((popped.filterMap SegmentMergeInfo.advance).map toCome : List _) : Multiset _)
      ((popped.map fun smi => smi.rest : List _) : Multiset _) := by
  induction popped with
  | nil => exact Same.refl 0
  | cons smi popped ih =>
      rw [List.filterMap_cons, List.map_cons, ← Multiset.cons_coe, rest_of_advance smi]
      cases smi.advance with
      | none => exact ih.cons_nil
      | some smi' =>
          dsimp only [Option.map_some, Option.getD_some]
          rw [List.map_cons, ← Multiset.cons_coe]
          exact ih.cons _

/-- The enumerators that are in the queue, and those at the current term, which go on first. -/
structure Stands (enum : MultiTermEnum) (elements : Multiset SegmentMergeInfo) : Prop where
  holds : enum.queue.Holds lessThan elements
  proper : ∀ smi ∈ elements, Proper smi
  matching : ∀ smi ∈ enum.matchingSegments, Proper smi
  room : elements.card + enum.matchingSegments.length < enum.queue.heapSize

/-- What stands in the queue when the enumerators at the current term have gone on. -/
def pending (enum : MultiTermEnum) (elements : Multiset SegmentMergeInfo) : Multiset SegmentMergeInfo :=
  (enum.matchingSegments.filterMap SegmentMergeInfo.advance : List SegmentMergeInfo) + elements

theorem Stands.proper_pending (h : Stands enum elements) : ∀ smi ∈ pending enum elements, Proper smi := by
  intro smi hmem
  rcases Multiset.mem_add.mp hmem with hmem | hmem
  · obtain ⟨smi', hmem', hadvance⟩ := List.mem_filterMap.mp (Multiset.mem_coe.mp hmem)
    exact (h.matching smi' hmem').advance_spec.2 smi hadvance
  · exact h.proper smi hmem

theorem Stands.next_spec (h : Stands enum elements) :
    (pending enum elements = 0 ∧ ∃ enum', enum.next = .ok (false, enum') ∧ enum'.term = none) ∨
      ∃ enum' term rest, enum.next = .ok (true, enum') ∧ enum'.term = some term ∧ Stands enum' rest ∧
        pending enum elements = (enum'.matchingSegments : Multiset _) + rest ∧ enum'.matchingSegments ≠ [] ∧
        (∀ smi ∈ enum'.matchingSegments, smi.term = term) ∧ (∀ smi ∈ rest, term < smi.term) ∧
        enum'.docFreq = (enum'.matchingSegments.map fun smi => smi.postings.length).sum := by
  obtain ⟨queue, hfold, hholds, hsize⟩ := foldlM_addToQueue_spec enum.matchingSegments h.holds
    (fun smi hmem => (h.matching smi hmem).next_eq) h.room
  have hpending := h.proper_pending
  have hcard : (pending enum elements).card ≤ elements.card + enum.matchingSegments.length := by
    rw [pending, Multiset.card_add, Multiset.coe_card, add_comm]
    exact Nat.add_le_add_left (List.length_filterMap_le _ _) _
  have hnext : enum.next = match queue.top with
      | none => .ok (false, ⟨queue, [], none, enum.docFreq⟩)
      | some top => .ok (true, ⟨(popMatching top.term queue.size queue []).2, (popMatching top.term queue.size queue []).1,
          some top.term, ((popMatching top.term queue.size queue []).1.map fun smi => smi.postings.length).sum⟩) := by
    rw [next, hfold]
    dsimp only [bind, Except.bind]
    cases queue.top <;> rfl
  change queue.Holds lessThan (pending enum elements) at hholds
  by_cases hempty : pending enum elements = 0
  · rw [hempty] at hholds
    rw [hholds.top_of_eq_zero] at hnext
    exact Or.inl ⟨hempty, _, hnext, rfl⟩
  · obtain ⟨top, others, -, heq, htop, -, -, -, hleast⟩ := hholds.pop strictWeakOn_lessThan hempty
    rw [htop] at hnext
    dsimp only at hnext
    have hfrom : ∀ smi ∈ pending enum elements, top.term ≤ smi.term := by
      intro smi hmem
      rw [heq] at hmem
      rcases Multiset.mem_cons.mp hmem with rfl | hmem
      · exact le_rfl
      · have hnot := hleast smi hmem
        rw [← Bool.not_eq_true, lessThan_iff, not_or, not_lt] at hnot
        exact hnot.1
    obtain ⟨popped, rest, queue', hpop, hholds', hsize', hsplit, hall, hgreater, -⟩ :=
      popMatching_spec hholds hholds.card.le hfrom []
    rw [hpop, List.nil_append] at hnext
    refine Or.inr ⟨_, top.term, rest, hnext, rfl, ⟨hholds', ?_, ?_, ?_⟩, hsplit, ?_, hall, hgreater, rfl⟩
    · exact fun smi hmem => hpending smi (hsplit ▸ Multiset.mem_add.mpr (Or.inr hmem))
    · exact fun smi hmem => hpending smi (hsplit ▸ Multiset.mem_add.mpr (Or.inl (Multiset.mem_coe.mpr hmem)))
    · have hsum : rest.card + popped.length = (pending enum elements).card := by
        rw [hsplit, Multiset.card_add, Multiset.coe_card, add_comm]
      dsimp only
      rw [hsum, hsize', hsize]
      exact hcard.trans_lt h.room
    · rintro rfl
      have hmem : top ∈ rest := by
        rw [heq, Multiset.coe_nil, zero_add] at hsplit
        exact hsplit ▸ Multiset.mem_cons_self _ _
      exact absurd (hgreater top hmem) (lt_irrefl _)

theorem Stands.remaining_spec {rounds : Nat} (h : Stands enum elements)
    (hrounds : ((pending enum elements).map fun smi => (toCome smi).length).sum < rounds) :
    ∃ entries, remaining rounds enum = .ok entries ∧ Sums ((pending enum elements).map toCome) entries := by
  induction rounds generalizing enum elements with
  | zero => exact absurd hrounds (Nat.not_lt_zero _)
  | succ rounds ih =>
      rw [remaining]
      rcases h.next_spec with ⟨hzero, enum', hnext, hterm⟩ |
        ⟨enum', term, rest, hnext, hterm, hstands, hsplit, hne, hall, hgreater, hfreq⟩
      · rw [hnext]
        dsimp only [bind, Except.bind]
        rw [hterm, hzero]
        exact ⟨[], rfl, Sums.zero nofun⟩
      · have hmatching := hstands.matching
        have hpending : Same ((pending enum' rest).map toCome)
            (((enum'.matchingSegments.map fun smi => smi.rest : List _) : Multiset _) + rest.map toCome) := by
          rw [pending, Multiset.map_add]
          exact (same_filterMap_advance _).add
        obtain ⟨entries, hok, hsums⟩ := ih hstands (by
          have hsame := sum_length_advance enum'.matchingSegments
          have hpos := List.length_pos_of_ne_nil hne
          rw [hsplit, Multiset.map_add, Multiset.sum_add, Multiset.map_coe, Multiset.sum_coe] at hrounds
          rw [pending, Multiset.map_add, Multiset.sum_add, Multiset.map_coe, Multiset.sum_coe]
          omega)
        rw [hnext]
        dsimp only [bind, Except.bind]
        rw [hterm]
        dsimp only
        rw [hok]
        refine ⟨_, rfl, ?_⟩
        have hpopped : ∀ head ∈ Multiset.ofList (enum'.matchingSegments.map fun smi => (headOf smi, smi.rest)),
            head.1.term = term ∧ Sorted (head.1 :: head.2) := by
          intro head hmem
          obtain ⟨smi, hsmi, rfl⟩ := List.mem_map.mp (Multiset.mem_coe.mp hmem)
          exact ⟨hall smi hsmi, (hmatching smi hsmi).sorted⟩
        have hothers : ∀ terms ∈ rest.map toCome, ∀ entry ∈ terms, term < entry.term := by
          intro terms hterms entry hentry
          obtain ⟨smi, hsmi, rfl⟩ := Multiset.mem_map.mp hterms
          have hsorted := (hstands.proper smi hsmi).sorted
          rcases List.mem_cons.mp hentry with rfl | hentry
          · exact hgreater smi hsmi
          · exact (hgreater smi hsmi).trans ((List.pairwise_cons.mp hsorted).1 entry hentry)
        have hcons := Sums.cons _ (rest.map toCome) hpopped
          (fun hzero => hne (List.map_eq_nil_iff.mp (Multiset.coe_eq_zero _ |>.mp hzero))) hothers (by
            rw [Multiset.map_coe, List.map_map]
            exact hsums.congr hpending)
        rw [hsplit, Multiset.map_add, Multiset.map_coe, hfreq]
        rw [Multiset.map_coe, Multiset.map_coe, List.map_map, List.map_map, Multiset.sum_coe] at hcons
        exact hcons

/-! ### All sub-readers -/

variable {readers : List Reader} {reader : Reader} {t : Option Term}

/-- The entries of the reader from `t` on. -/
def termsFrom (t : Option Term) (reader : Reader) : List TermPostings :=
  match t with
  | none => reader.terms
  | some t => reader.terms.dropWhile fun entry => decide (entry.term < t)

theorem termsFrom_suffix (t : Option Term) (reader : Reader) : termsFrom t reader <:+ reader.terms := by
  cases t with
  | none => exact List.suffix_rfl
  | some t => exact List.dropWhile_suffix _

/-- What is read of a reader: nothing where the enumerator is closed, before its first term or at one that is null. -/
def taken (t : Option Term) (reader : Reader) : List TermPostings :=
  if t = some ⟨[], []⟩ ∨ (termsFrom t reader).head?.any fun entry => entry.term.field = [] then []
  else termsFrom t reader

theorem sorted_termsFrom (t : Option Term) (reader : Reader) : Sorted (termsFrom t reader) :=
  reader.sorted.sublist (termsFrom_suffix t reader).sublist

theorem named_of_head (hsorted : Sorted terms) (h : ¬ terms.head?.any fun entry => entry.term.field = []) :
    ∀ entry ∈ terms, entry.term.field ≠ [] := by
  cases terms with
  | nil => exact fun entry hmem => absurd hmem List.not_mem_nil
  | cons first rest =>
      have hfirst : first.term.field ≠ [] := by simpa using h
      refine List.forall_mem_cons.mpr ⟨hfirst, fun entry hmem hnil => ?_⟩
      rcases Term.lt_iff.mp ((List.pairwise_cons.mp hsorted).1 entry hmem) with hlt | ⟨heq, -⟩
      · rw [hnil] at hlt
        exact List.not_lt_nil _ hlt
      · exact hfirst (heq.trans hnil)

theorem taken_spec (t : Option Term) (reader : Reader) :
    taken t reader <:+ reader.terms ∧ ∀ entry ∈ taken t reader, entry.term.field ≠ [] := by
  rw [taken]
  split
  · exact ⟨List.nil_suffix, fun entry hmem => absurd hmem List.not_mem_nil⟩
  · rename_i hnot
    exact ⟨termsFrom_suffix t reader, named_of_head (sorted_termsFrom t reader) fun hhead => hnot (Or.inr hhead)⟩

theorem taken_eq (ht : t = some ⟨[], []⟩ → reader.terms = [])
    (hnamed : ∀ entry ∈ termsFrom t reader, entry.term.field ≠ []) : taken t reader = termsFrom t reader := by
  rw [taken]
  split
  · rename_i hclosed
    cases hterms : termsFrom t reader with
    | nil => rfl
    | cons first rest =>
        rw [hterms] at hclosed hnamed
        rcases hclosed with heq | hhead
        · have hmem := (termsFrom_suffix t reader).subset (hterms ▸ List.mem_cons_self)
          exact absurd (ht heq ▸ hmem) List.not_mem_nil
        · exact absurd (by simpa using hhead) (hnamed first List.mem_cons_self)
  · rfl

theorem startAt_eq (base : Int) (hnamed : t = none → ∀ entry ∈ reader.terms, entry.term.field ≠ []) :
    startAt base reader t = .ok (Cursor.info? ⟨base, reader, taken t reader⟩) := by
  cases t with
  | none =>
      have hnamed := hnamed rfl
      rw [@taken_eq reader none (fun heq => by cases heq) hnamed]
      exact nextTerm_eq hnamed
  | some t =>
      rw [startAt, taken, termsFrom]
      by_cases ht : t = ⟨[], []⟩
      · rw [if_pos ht, if_pos (Or.inl (congrArg some ht))]
        rfl
      · rw [if_neg ht]
        cases hterms : reader.terms.dropWhile fun entry => decide (entry.term < t) with
        | nil => simp [Cursor.info?]
        | cons entry rest => by_cases hname : entry.term.field = [] <;> simp [ht, hname, Cursor.info?]

theorem initialQueue_spec (base : Int) {queue : Queue} {elements : Multiset SegmentMergeInfo}
    (hnamed : t = none → ∀ reader ∈ readers, ∀ entry ∈ reader.terms, entry.term.field ≠ [])
    (h : queue.Holds lessThan elements) (hproper : ∀ smi ∈ elements, Proper smi)
    (hroom : elements.card + readers.length < queue.heapSize) :
    ∃ queue' elements', initialQueue t base readers queue = .ok queue' ∧ queue'.Holds lessThan elements' ∧
      queue'.heapSize = queue.heapSize ∧ (∀ smi ∈ elements', Proper smi) ∧
      elements'.card ≤ elements.card + readers.length ∧
      Same (elements'.map toCome) (((readers.map (taken t) : List _) : Multiset _) + elements.map toCome) := by
  induction readers generalizing base queue elements with
  | nil =>
      refine ⟨queue, elements, rfl, h, rfl, hproper, le_rfl, ?_⟩
      rw [List.map_nil, Multiset.coe_nil, zero_add]
      exact Same.refl _
  | cons reader readers ih =>
      rw [List.length_cons] at hroom
      obtain ⟨htaken, htakenNamed⟩ := taken_spec t reader
      obtain ⟨hsame, hinfo⟩ := info?_spec base reader (taken t reader) (reader.sorted.sublist htaken.sublist) htakenNamed
      generalize hsmi : Cursor.info? ⟨base, reader, taken t reader⟩ = smi at hsame hinfo
      obtain ⟨mid, hmid, hmidHolds, hmidSize⟩ := addToQueue_spec h (by omega) smi
      have hcard : (smi.toList : Multiset SegmentMergeInfo).card ≤ 1 := by
        cases smi <;> simp
      obtain ⟨queue', elements', hok, hholds, hsize, hproper', hcard', hsame'⟩ :=
        ih (base + reader.segment.maxDoc) (fun ht reader' hmem => hnamed ht reader' (List.mem_cons_of_mem _ hmem)) hmidHolds
          (fun smi' hmem => by
            rcases Multiset.mem_add.mp hmem with hmem | hmem
            · exact hinfo smi' (Option.mem_toList.mp hmem)
            · exact hproper smi' hmem)
          (by rw [hmidSize, Multiset.card_add]; omega)
      refine ⟨queue', elements', ?_, hholds, hsize.trans hmidSize, hproper', ?_, hsame'.trans ?_⟩
      · rw [initialQueue, startAt_eq base fun ht => hnamed ht reader List.mem_cons_self, hsmi]
        dsimp only [bind, Except.bind]
        rw [hmid]
        exact hok
      · rw [Multiset.card_add] at hcard'
        rw [List.length_cons]
        omega
      · rw [Multiset.map_add, Multiset.map_coe, List.map_cons, ← Multiset.cons_coe, ← Multiset.singleton_add,
          add_left_comm, add_assoc]
        exact hsame.add

theorem freqIn_eq_postings (reader : Reader) (term : Term) : freqIn term reader.terms = (reader.postings term).length := by
  have hsorted := reader.sorted
  rw [Reader.postings]
  generalize reader.terms = terms at hsorted
  induction terms with
  | nil => rfl
  | cons entry rest ih =>
      obtain ⟨hlt, hrest⟩ := List.pairwise_cons.mp hsorted
      by_cases heq : entry.term = term
      · subst heq
        rw [freqIn_cons_self, freqIn_eq_zero (fun entry' hmem => (hlt entry' hmem).ne'), List.find?_cons_of_pos (by simp)]
        rfl
      · rw [freqIn_cons_of_ne heq, ih hrest, List.find?_cons_of_neg (by simpa using heq)]

theorem mem_termsFrom {entry : TermPostings} :
    entry ∈ termsFrom t reader ↔ entry ∈ reader.terms ∧ ∀ t' ∈ t, t' ≤ entry.term := by
  cases t with
  | none => simp [termsFrom]
  | some t =>
      have hsorted := reader.sorted
      rw [termsFrom]
      generalize reader.terms = terms at hsorted
      simp only [Option.mem_some_iff, forall_eq']
      induction terms with
      | nil => simp
      | cons first rest ih =>
          obtain ⟨hlt, hrest⟩ := List.pairwise_cons.mp hsorted
          rw [List.dropWhile_cons]
          split
          · rename_i hbefore
            refine (ih hrest).trans ?_
            rw [List.mem_cons]
            refine and_congr_left fun hle => ⟨Or.inr, fun hmem => hmem.resolve_left ?_⟩
            rintro rfl
            exact absurd (of_decide_eq_true hbefore) (not_lt.mpr hle)
          · rename_i hnot
            refine ⟨fun hmem => ⟨hmem, ?_⟩, And.left⟩
            have hle : t ≤ first.term := not_lt.mp fun hlt => hnot (decide_eq_true hlt)
            rcases List.mem_cons.mp hmem with rfl | hmem
            · exact hle
            · exact hle.trans (hlt entry hmem).le

theorem freqIn_termsFrom (h : ∀ t' ∈ t, t' ≤ term) : freqIn term (termsFrom t reader) = freqIn term reader.terms := by
  obtain ⟨before, hsplit⟩ := termsFrom_suffix t reader
  conv_rhs => rw [← hsplit]
  have hbefore : before.filter (fun entry => decide (entry.term = term)) = [] := by
    refine List.filter_eq_nil_iff.mpr fun entry hmem heq => ?_
    have heq := of_decide_eq_true heq
    have hsorted := reader.sorted
    rw [← hsplit, List.pairwise_append] at hsorted
    have hin : entry ∈ termsFrom t reader :=
      mem_termsFrom.mpr ⟨hsplit ▸ List.mem_append_left _ hmem, fun t' ht' => heq ▸ h t' ht'⟩
    exact absurd (hsorted.2.2 entry hmem entry hin) (lt_irrefl _)
  rw [freqIn, freqIn, List.filter_append, hbefore, List.nil_append]

/-- The terms of all readers from `t` on, in order and each of them once, with the sums of their numbers of
documents. -/
structure IsUnion (readers : List Reader) (t : Option Term) (entries : List (Term × Nat)) : Prop where
  sorted : entries.Pairwise fun entry entry' => entry.1 < entry'.1
  mem_iff : ∀ term docFreq, (term, docFreq) ∈ entries ↔
    ((∃ reader ∈ readers, ∃ entry ∈ reader.terms, entry.term = term) ∧ ∀ t' ∈ t, t' ≤ term) ∧
      docFreq = (readers.map fun reader => (reader.postings term).length).sum

theorem Sums.isUnion (h : Sums (readers.map (termsFrom t) : List _) entries) : IsUnion readers t entries := by
  refine ⟨h.sorted, fun term docFreq => ?_⟩
  have hexists : (∃ terms ∈ Multiset.ofList (readers.map (termsFrom t)), ∃ entry ∈ terms, entry.term = term) ↔
      (∃ reader ∈ readers, ∃ entry ∈ reader.terms, entry.term = term) ∧ ∀ t' ∈ t, t' ≤ term := by
    constructor
    · rintro ⟨terms, hterms, entry, hentry, rfl⟩
      obtain ⟨reader, hreader, rfl⟩ := List.mem_map.mp (Multiset.mem_coe.mp hterms)
      obtain ⟨hmem, hle⟩ := mem_termsFrom.mp hentry
      exact ⟨⟨reader, hreader, entry, hmem, rfl⟩, hle⟩
    · rintro ⟨⟨reader, hreader, entry, hentry, rfl⟩, hle⟩
      exact ⟨_, Multiset.mem_coe.mpr (List.mem_map_of_mem hreader), entry, mem_termsFrom.mpr ⟨hentry, hle⟩, rfl⟩
  rw [h.mem_iff, hexists]
  refine and_congr_right fun hfound => ?_
  have hsum : ((Multiset.ofList (readers.map (termsFrom t))).map (freqIn term)).sum =
      (readers.map fun reader => (reader.postings term).length).sum := by
    rw [Multiset.map_coe, Multiset.sum_coe, List.map_map]
    refine congrArg List.sum (List.map_congr_left fun reader _ => ?_)
    rw [Function.comp_apply, freqIn_termsFrom hfound.2, freqIn_eq_postings]
  rw [hsum]

theorem enumerate_sums (readers : Readers)
    (hnamed : t = none → ∀ reader ∈ readers.val, ∀ entry ∈ reader.terms, entry.term.field ≠ []) :
    ∃ entries, enumerate readers t = .ok entries ∧ Sums (readers.val.map (taken t) : List _) entries := by
  have hroom : readers.val.length < (PriorityQueue.new readers.val.length : Queue).heapSize := by
    have hlt : readers.val.length < INT_MAX := readers.property.trans (by decide)
    rw [PriorityQueue.new]
    dsimp only
    split
    · omega
    · split <;> omega
  obtain ⟨queue, elements, hok, hholds, hsize, hproper, hcard, hsame⟩ := initialQueue_spec 0 hnamed
    (PriorityQueue.holds_new lessThan readers.val.length) nofun (by rw [Multiset.card_zero, Nat.zero_add]; exact hroom)
  rw [Multiset.map_zero, add_zero] at hsame
  have hstands : Stands ⟨queue, [], none, 0⟩ elements := by
    refine ⟨hholds, hproper, nofun, ?_⟩
    rw [Multiset.card_zero] at hcard
    rw [hsize]
    simp only [List.length_nil]
    omega
  have hpending : pending ⟨queue, [], none, 0⟩ elements = elements := by
    rw [pending, List.filterMap_nil, Multiset.coe_nil, zero_add]
  have htotal : ((pending ⟨queue, [], none, 0⟩ elements).map fun smi => (toCome smi).length).sum <
      (readers.val.map fun reader => reader.terms.length).sum + 1 := by
    have hlength := hsame.length_eq
    rw [Multiset.map_map, Multiset.map_coe, Multiset.sum_coe, List.map_map] at hlength
    rw [hpending]
    refine Nat.lt_succ_of_le (hlength.le.trans (List.sum_le_sum fun reader _ => ?_))
    exact (taken_spec t reader).1.length_le
  have hinit : init readers t = if t.isSome ∧ queue.empty = false then
      (next ⟨queue, [], none, 0⟩).map Prod.snd else .ok ⟨queue, [], none, 0⟩ := by
    rw [init, hok]
    dsimp only [bind, Except.bind]
    split
    · cases next ⟨queue, [], none, 0⟩ <;> rfl
    · rfl
  have hsums : ∀ entries, Sums ((pending ⟨queue, [], none, 0⟩ elements).map toCome) entries →
      Sums (readers.val.map (taken t) : List _) entries := by
    intro entries h
    rw [hpending] at h
    exact h.congr hsame
  by_cases hstart : t.isSome ∧ queue.empty = false
  · -- the first call of `next` is made by the constructor
    obtain ⟨entries, hentries, hunion⟩ := hstands.remaining_spec (Nat.lt_succ_of_lt htotal)
    rcases hstands.next_spec with ⟨hzero, -⟩ | ⟨enum', term, rest, hnext, hterm, -⟩
    · rw [hpending] at hzero
      rw [hzero] at hholds
      have hempty := hholds.empty_iff.mpr rfl
      rw [hstart.2] at hempty
      cases hempty
    · rw [if_pos hstart, hnext] at hinit
      refine ⟨entries, ?_, hsums entries hunion⟩
      rw [remaining, hnext] at hentries
      rw [enumerate, hinit]
      dsimp only [bind, Except.bind] at hentries ⊢
      rw [hterm] at hentries
      dsimp only [Except.map] at hentries ⊢
      rw [hterm]
      cases hrest : remaining ((readers.val.map fun reader => reader.terms.length).sum + 1) enum' with
      | error failure =>
          rw [hrest] at hentries
          cases hentries
      | ok later =>
          rw [hrest] at hentries
          exact hentries
  · obtain ⟨entries, hentries, hunion⟩ := hstands.remaining_spec htotal
    rw [if_neg hstart] at hinit
    refine ⟨entries, ?_, hsums entries hunion⟩
    rw [enumerate, hinit]
    dsimp only [bind, Except.bind]
    rw [hentries]
    rfl

theorem initialQueue_ne_ok (base : Int) {queue queue' : Queue} (hreader : reader ∈ readers)
    (hunnamed : ¬ ∀ entry ∈ reader.terms, entry.term.field ≠ []) : initialQueue none base readers queue ≠ .ok queue' := by
  induction readers generalizing base queue with
  | nil => exact absurd hreader List.not_mem_nil
  | cons first readers ih =>
      intro hok
      rw [initialQueue] at hok
      cases hstart : startAt base first none with
      | error failure =>
          rw [hstart] at hok
          cases hok
      | ok smi =>
          rw [hstart] at hok
          dsimp only [bind, Except.bind] at hok
          cases hadd : addToQueue queue smi with
          | error failure =>
              rw [hadd] at hok
              cases hok
          | ok mid =>
              rw [hadd] at hok
              rcases List.mem_cons.mp hreader with rfl | hmem
              · -- the first term is null
                have hhead := not_imp_comm.mp (named_of_head reader.sorted) hunnamed
                rw [startAt] at hstart
                cases hterms : reader.terms with
                | nil =>
                    rw [hterms] at hhead
                    cases hhead
                | cons entry rest =>
                    rw [hterms] at hhead hstart
                    rw [nextTerm, if_pos (by simpa using hhead)] at hstart
                    cases hstart
              · exact ih _ hmem hok

/-- The terms are those of the union exactly if none that is to come is null, and the enumerators do not begin at the
term that is taken for an unset one. -/
theorem enumerate_isUnion_iff (readers : Readers) (t : Option Term) :
    (∃ entries, enumerate readers t = .ok entries ∧ IsUnion readers.val t entries) ↔
      (t = some ⟨[], []⟩ → ∀ reader ∈ readers.val, reader.terms = []) ∧
        ∀ reader ∈ readers.val, ∀ entry ∈ termsFrom t reader, entry.term.field ≠ [] := by
  constructor
  · rintro ⟨entries, hok, hunion⟩
    have hnamed : t = none → ∀ reader ∈ readers.val, ∀ entry ∈ reader.terms, entry.term.field ≠ [] := by
      rintro rfl reader hreader
      by_contra hunnamed
      rw [enumerate, init] at hok
      cases hqueue : initialQueue none 0 readers.val (.new readers.val.length) with
      | error failure =>
          rw [hqueue] at hok
          cases hok
      | ok queue => exact initialQueue_ne_ok 0 hreader hunnamed hqueue
    obtain ⟨entries', hok', hsums⟩ := enumerate_sums readers hnamed
    cases hok.symm.trans hok'
    have htaken : ∀ reader ∈ readers.val, ∀ entry ∈ termsFrom t reader,
        ∃ other ∈ readers.val, ∃ entry' ∈ taken t other, entry'.term = entry.term := by
      intro reader hreader entry hentry
      obtain ⟨hmem, hle⟩ := mem_termsFrom.mp hentry
      obtain ⟨⟨terms, hterms, hfound⟩, -⟩ := (hsums.mem_iff entry.term _).mp
        ((hunion.mem_iff entry.term _).mpr ⟨⟨⟨reader, hreader, entry, hmem, rfl⟩, hle⟩, rfl⟩)
      obtain ⟨other, hother, rfl⟩ := List.mem_map.mp (Multiset.mem_coe.mp hterms)
      exact ⟨other, hother, hfound⟩
    refine ⟨fun ht reader hreader => List.eq_nil_iff_forall_not_mem.mpr fun entry hmem => ?_,
      fun reader hreader entry hentry hnil => ?_⟩
    · have hle : ∀ t' ∈ t, t' ≤ entry.term := by
        rintro t' ht'
        cases ht.symm.trans ht'
        refine not_lt.mp fun hlt => ?_
        rcases Term.lt_iff.mp hlt with hlt | ⟨-, hlt⟩ <;> exact List.not_lt_nil _ hlt
      obtain ⟨other, -, entry', hentry', -⟩ := htaken reader hreader entry (mem_termsFrom.mpr ⟨hmem, hle⟩)
      rw [taken, if_pos (Or.inl ht)] at hentry'
      exact List.not_mem_nil hentry'
    · obtain ⟨other, -, entry', hentry', heq⟩ := htaken reader hreader entry hentry
      exact (taken_spec t other).2 entry' hentry' (heq ▸ hnil)
  · rintro ⟨hunset, hnamed⟩
    obtain ⟨entries, hok, hsums⟩ := @enumerate_sums t readers fun ht => by
      subst ht
      exact hnamed
    rw [List.map_congr_left fun reader hreader => taken_eq (fun ht => hunset ht reader hreader) (hnamed reader hreader)] at hsums
    exact ⟨entries, hok, hsums.isUnion⟩

end MultiTermEnum
end LucenePlusPlus
