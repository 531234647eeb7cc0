import LucenePlusPlus.PostingsAppend

/-!
The merged dictionary is the union of those of the readers: it has the terms that a document is left of, in order,
each with the documents of all readers one after another, and their numbers go up.
-/

namespace LucenePlusPlus.PostingsMerge
open SegmentTermPositions

/-! ### The readers and the queue

Of each reader, a cursor holds the entries that are to come. The queue holds the enumerators of the cursors that
are not at their end. -/

structure Cursor where
  base : Int
  reader : Reader
  terms : List TermPostings

namespace Cursor

def info? (cursor : Cursor) : Option SegmentMergeInfo :=
  match cursor.terms with
  | [] => none
  | entry :: rest => some ⟨cursor.base, cursor.reader, entry.term, entry.postings, rest⟩

/-- The documents of the term that are to come from the reader. -/
def docs (omitted : WString → Bool) (term : Term) (cursor : Cursor) : List WrittenDoc :=
  match cursor.terms.find? fun entry => entry.term = term with
  | none => []
  | some entry => writtenDocs (omitted term.field) cursor.reader.segment cursor.base entry.postings

/-- The cursor behind the term, if it is there. -/
def pass (term : Term) (cursor : Cursor) : Cursor :=
  match cursor.terms with
  | [] => cursor
  | entry :: rest => if entry.term = term then { cursor with terms := rest } else cursor

/-- The entries are those at the end of the reader's dictionary, and each is of a field that is written as that of
the reader can be. -/
structure Valid (fieldInfos : FieldInfos) (cursor : Cursor) : Prop where
  base_nonneg : 0 ≤ cursor.base
  suffix : cursor.terms <:+ cursor.reader.terms
  named : ∀ entry ∈ cursor.reader.terms, entry.term.field ≠ []
  written : ∀ entry ∈ cursor.reader.terms, ∀ info,
    cursor.reader.fieldInfos.fieldInfo entry.term.field = some info →
      ∃ merged, fieldInfos.fieldInfo entry.term.field = some merged ∧
        (info.omitTermFreqAndPositions = true → merged.omitTermFreqAndPositions = true) ∧
        (info.storePayloads = true → merged.storePayloads = true)

variable {fieldInfos : FieldInfos} {cursor : Cursor} {term : Term} {omitted : WString → Bool}

theorem Valid.sorted (h : cursor.Valid fieldInfos) :
    cursor.terms.Pairwise fun entry entry' => entry.term < entry'.term :=
  cursor.reader.sorted.sublist h.suffix.sublist

theorem Valid.pass (h : cursor.Valid fieldInfos) (term : Term) : (cursor.pass term).Valid fieldInfos := by
  rw [Cursor.pass]
  split
  · exact h
  case h_2 entry rest hterms =>
    split
    · refine ⟨h.base_nonneg, ?_, h.named, h.written⟩
      exact (List.suffix_cons entry rest).trans (hterms ▸ h.suffix)
    · exact h

@[simp] theorem base_pass (cursor : Cursor) (term : Term) : (cursor.pass term).base = cursor.base := by
  rw [pass]
  split
  · rfl
  · split <;> rfl

@[simp] theorem reader_pass (cursor : Cursor) (term : Term) : (cursor.pass term).reader = cursor.reader := by
  rw [pass]
  split
  · rfl
  · split <;> rfl

/-- No term of the cursor comes before `term`. -/
def From (term : Term) (cursor : Cursor) : Prop := ∀ entry ∈ cursor.terms, term ≤ entry.term

theorem mem_pass (hsorted : cursor.terms.Pairwise fun entry entry' => entry.term < entry'.term)
    (hfrom : cursor.From term) {entry : TermPostings} :
    entry ∈ (cursor.pass term).terms ↔ entry ∈ cursor.terms ∧ term < entry.term := by
  rw [pass]
  split
  case h_1 hnil =>
    rw [hnil]
    simp
  case h_2 first rest hterms =>
    rw [hterms] at hsorted
    obtain ⟨hfirst, -⟩ := List.pairwise_cons.mp hsorted
    split
    case isTrue heq =>
      dsimp only
      rw [hterms, List.mem_cons]
      constructor
      · intro hmem
        exact ⟨Or.inr hmem, heq ▸ hfirst entry hmem⟩
      · rintro ⟨rfl | hmem, hlt⟩
        · exact absurd hlt (heq ▸ lt_irrefl _)
        · exact hmem
    case isFalse hne =>
      have hlt : term < first.term :=
        lt_of_le_of_ne (hfrom first (hterms ▸ List.mem_cons_self)) (Ne.symm hne)
      refine ⟨fun hmem => ⟨hmem, ?_⟩, And.left⟩
      rw [hterms, List.mem_cons] at hmem
      rcases hmem with rfl | hmem
      · exact hlt
      · exact hlt.trans (hfirst entry hmem)

theorem docs_pass_of_ne {other : Term} (hne : other ≠ term) :
    (cursor.pass term).docs omitted other = cursor.docs omitted other := by
  have hfind : (cursor.pass term).terms.find? (fun entry => entry.term = other) =
      cursor.terms.find? fun entry => entry.term = other := by
    rw [pass]
    split
    · rfl
    case h_2 first rest hterms =>
      split
      case isTrue heq =>
        rw [hterms, List.find?_cons_of_neg (by simpa [heq] using hne.symm)]
      case isFalse => rfl
  simp only [docs, hfind, reader_pass, base_pass]

theorem docs_eq_nil (h : ∀ entry ∈ cursor.terms, entry.term ≠ term) : cursor.docs omitted term = [] := by
  have hfind : cursor.terms.find? (fun entry => entry.term = term) = none := by
    rw [List.find?_eq_none]
    intro entry hmem
    simpa using h entry hmem
  rw [docs, hfind]

theorem mem_of_docs_ne_nil (h : cursor.docs omitted term ≠ []) : ∃ entry ∈ cursor.terms, entry.term = term := by
  by_contra hnone
  push Not at hnone
  exact h (docs_eq_nil hnone)

end Cursor

section Infos
variable {fieldInfos : FieldInfos} {cursor : Cursor} {smi : SegmentMergeInfo} {omitted : WString → Bool}

theorem Cursor.terms_of_info? (h : cursor.info? = some smi) :
    cursor.terms = ⟨smi.term, smi.postings⟩ :: smi.rest ∧ cursor.base = smi.base ∧
      cursor.reader = smi.reader := by
  rw [Cursor.info?] at h
  split at h
  · cases h
  case h_2 entry rest hterms =>
    cases h
    exact ⟨hterms, rfl, rfl⟩

/-- The enumerator is that of a cursor. -/
def SegmentMergeInfo.Valid (fieldInfos : FieldInfos) (smi : SegmentMergeInfo) : Prop :=
  ∃ cursor : Cursor, cursor.Valid fieldInfos ∧ cursor.info? = some smi

/-- The documents of the term that the enumerator is at. -/
def SegmentMergeInfo.docs (omitted : WString → Bool) (smi : SegmentMergeInfo) : List WrittenDoc :=
  writtenDocs (omitted smi.term.field) smi.reader.segment smi.base smi.postings

theorem Cursor.docs_of_info? (h : cursor.info? = some smi) :
    cursor.docs omitted smi.term = smi.docs omitted := by
  obtain ⟨hterms, hbase, hreader⟩ := Cursor.terms_of_info? h
  rw [Cursor.docs, hterms, List.find?_cons_of_pos (by simp), hbase, hreader]
  rfl

theorem SegmentMergeInfo.Valid.mem (h : smi.Valid fieldInfos) :
    ⟨smi.term, smi.postings⟩ ∈ smi.reader.terms := by
  obtain ⟨cursor, hvalid, hinfo⟩ := h
  obtain ⟨hterms, -, hreader⟩ := Cursor.terms_of_info? hinfo
  rw [← hreader]
  exact hvalid.suffix.subset (hterms ▸ List.mem_cons_self)

theorem SegmentMergeInfo.Valid.field_ne_nil (h : smi.Valid fieldInfos) : smi.term.field ≠ [] := by
  have hmem := h.mem
  obtain ⟨cursor, hvalid, hinfo⟩ := h
  obtain ⟨-, -, hreader⟩ := Cursor.terms_of_info? hinfo
  rw [← hreader] at hmem
  exact hvalid.named _ hmem

theorem SegmentMergeInfo.Valid.base_nonneg (h : smi.Valid fieldInfos) : 0 ≤ smi.base := by
  obtain ⟨cursor, hvalid, hinfo⟩ := h
  obtain ⟨-, hbase, -⟩ := Cursor.terms_of_info? hinfo
  rw [← hbase]
  exact hvalid.base_nonneg

theorem SegmentMergeInfo.Valid.readable (h : smi.Valid fieldInfos) :
    ∃ merged, fieldInfos.fieldInfo smi.term.field = some merged ∧
      Readable merged smi.reader.segment smi.seek smi.postings := by
  have hmem := h.mem
  obtain ⟨info, hinfo, hstored⟩ := smi.reader.stored _ hmem
  have hwritten : ∃ merged, fieldInfos.fieldInfo smi.term.field = some merged ∧
      (info.omitTermFreqAndPositions = true → merged.omitTermFreqAndPositions = true) ∧
      (info.storePayloads = true → merged.storePayloads = true) := by
    obtain ⟨cursor, hvalid, hcursor⟩ := h
    obtain ⟨-, -, hreader⟩ := Cursor.terms_of_info? hcursor
    exact hvalid.written _ (hreader ▸ hmem) info (hreader ▸ hinfo)
  obtain ⟨merged, hmerged, homit, hpayloads⟩ := hwritten
  have hseek : smi.seek = .seek info.omitTermFreqAndPositions info.storePayloads smi.postings := by
    rw [SegmentMergeInfo.seek, hinfo]
  refine ⟨merged, hmerged, ?_⟩
  rw [hseek]
  exact ⟨before_seek _ _ _, ⟨fun _ _ => Nat.zero_le _, smi.reader.docs_sorted _ hmem⟩,
    smi.reader.docs_lt _ hmem, fun posting hposting => (hstored posting hposting).1, homit, hpayloads⟩

theorem appendPostings_spec {term : Term} {info : FieldInfo} {matching : List SegmentMergeInfo}
    (hinfo : fieldInfos.fieldInfo term.field = some info)
    (homitted : omitted term.field = info.omitTermFreqAndPositions)
    (hvalid : ∀ smi ∈ matching, smi.Valid fieldInfos) (hterm : ∀ smi ∈ matching, smi.term = term)
    (hsorted : (matching.flatMap (SegmentMergeInfo.docs omitted)).Pairwise
      fun doc doc' => doc.docID < doc'.docID) :
    appendPostings info matching = .ok (matching.flatMap (SegmentMergeInfo.docs omitted)) := by
  have hfold : ∀ (matching : List SegmentMergeInfo) (w : DocsWriter), w.KnowsLast →
      (∀ smi ∈ matching, smi.Valid fieldInfos) → (∀ smi ∈ matching, smi.term = term) →
      (w.docs ++ matching.flatMap (SegmentMergeInfo.docs omitted)).Pairwise
        (fun doc doc' => doc.docID < doc'.docID) →
      ∃ w', matching.foldlM (fun w smi => appendDocs info smi (smi.postings.length + 1) smi.seek w) w =
        .ok w' ∧ w'.docs = w.docs ++ matching.flatMap (SegmentMergeInfo.docs omitted) := by
    intro matching
    induction matching with
    | nil => exact fun w _ _ _ _ => ⟨w, rfl, (List.append_nil _).symm⟩
    | cons smi matching ih =>
        intro w hlast hvalid hterm hsorted
        have hsmi := hvalid smi List.mem_cons_self
        obtain ⟨merged, hmerged, hread⟩ := hsmi.readable
        rw [hterm smi List.mem_cons_self, hinfo] at hmerged
        cases hmerged
        have hdocs : smi.docs omitted = writtenDocs info.omitTermFreqAndPositions smi.reader.segment
            smi.base smi.postings := by
          rw [SegmentMergeInfo.docs, hterm smi List.mem_cons_self, homitted]
        rw [List.flatMap_cons, ← List.append_assoc] at hsorted
        obtain ⟨w', hok, hlast', hdocs'⟩ := appendDocs_spec (Nat.lt_succ_self _) hread hsmi.base_nonneg
          hlast (by rw [← hdocs]; exact (List.pairwise_append.mp hsorted).1)
        rw [← hdocs] at hdocs'
        obtain ⟨w'', hfold, hdocs''⟩ := ih w' hlast' (fun smi hmem => hvalid smi (List.mem_cons_of_mem _ hmem))
          (fun smi hmem => hterm smi (List.mem_cons_of_mem _ hmem)) (by rw [hdocs']; exact hsorted)
        refine ⟨w'', ?_, ?_⟩
        · rw [List.foldlM_cons, hok]
          exact hfold
        · rw [hdocs'', hdocs', List.flatMap_cons, List.append_assoc]
  obtain ⟨w, hok, hdocs⟩ := hfold matching ⟨0, []⟩ nofun hvalid hterm hsorted
  rw [appendPostings, hok, Except.map, hdocs]
  rfl

theorem lessThan_iff {first second : SegmentMergeInfo} :
    lessThan first second = true ↔
      first.term < second.term ∨ first.term = second.term ∧ first.base < second.base := by
  rw [lessThan]
  split
  case isTrue heq =>
    rw [Term.compareTo_eq_zero_iff] at heq
    simp [heq]
  case isFalse hne =>
    rw [Term.compareTo_eq_zero_iff] at hne
    simp [hne, Term.compareTo_neg_iff]

theorem strictWeakOn_lessThan : BinaryHeap.StrictWeakOn lessThan fun _ => True where
  asymm first second _ _ h := by
    rw [lessThan_iff] at h
    rw [← Bool.not_eq_true, lessThan_iff]
    rintro (hlt | ⟨heq, hlt⟩)
    · rcases h with hlt' | ⟨heq', -⟩
      · exact lt_asymm hlt hlt'
      · exact absurd hlt (heq' ▸ lt_irrefl _)
    · rcases h with hlt' | ⟨-, hlt'⟩
      · exact absurd hlt' (heq ▸ lt_irrefl _)
      · exact lt_asymm hlt hlt'
  trans first second third _ _ _ h h' := by
    rw [← Bool.not_eq_true, lessThan_iff, not_or, not_lt, not_and, not_lt] at h h' ⊢
    refine ⟨h'.1.trans h.1, fun heq => ?_⟩
    have heq₁ : first.term = second.term := le_antisymm (heq ▸ h'.1) h.1
    exact (h'.2 (heq₁.symm.trans heq)).trans (h.2 heq₁)

theorem popMatching_spec {term : Term} {fuel : Nat} {queue : Queue} {elements : Multiset SegmentMergeInfo}
    (h : queue.Holds lessThan elements) (hfuel : elements.card ≤ fuel)
    (hfrom : ∀ smi ∈ elements, term ≤ smi.term) (matching : List SegmentMergeInfo) :
    ∃ popped rest queue', popMatching term fuel queue matching = (matching ++ popped, queue') ∧
      queue'.Holds lessThan rest ∧ queue'.heapSize = queue.heapSize ∧
      elements = (popped : Multiset SegmentMergeInfo) + rest ∧ (∀ smi ∈ popped, smi.term = term) ∧
      (∀ smi ∈ rest, term < smi.term) ∧ popped.Pairwise fun smi smi' => smi.base ≤ smi'.base := by
  induction fuel generalizing queue elements matching with
  | zero =>
      obtain rfl := Multiset.card_eq_zero.mp (Nat.le_zero.mp hfuel)
      exact ⟨[], 0, queue, by rw [popMatching, List.append_nil], h, rfl, rfl, nofun, nofun, List.Pairwise.nil⟩
  | succ fuel ih =>
      rw [popMatching]
      by_cases hempty : elements = 0
      · subst hempty
        rw [h.top_of_eq_zero]
        exact ⟨[], 0, queue, by rw [List.append_nil], h, rfl, rfl, nofun, nofun, List.Pairwise.nil⟩
      · obtain ⟨top, rest, queue', rfl, htop, hpop, hrest, hsize, hleast⟩ :=
          h.pop strictWeakOn_lessThan hempty
        rw [htop]
        dsimp only
        split
        case isTrue heq =>
          have hterm : top.term = term := (Term.compareTo_eq_zero_iff.mp heq).symm
          rw [hpop]
          rw [Multiset.card_cons] at hfuel
          obtain ⟨popped, rest', queue'', hok, hholds, hsize', hsplit, hall, hgreater, hsorted⟩ :=
            ih hrest (by omega) (fun smi hmem => hfrom smi (Multiset.mem_cons_of_mem hmem)) (matching ++ [top])
          refine ⟨top :: popped, rest', queue'', ?_, hholds, hsize'.trans hsize, ?_, ?_, hgreater, ?_⟩
          · dsimp only
            rw [hok, List.append_assoc]
            rfl
          · rw [hsplit, ← Multiset.cons_coe, Multiset.cons_add]
          · exact List.forall_mem_cons.mpr ⟨hterm, hall⟩
          · refine List.pairwise_cons.mpr ⟨fun smi hmem => ?_, hsorted⟩
            have hnot := hleast smi (hsplit ▸ Multiset.mem_add.mpr (Or.inl (Multiset.mem_coe.mpr hmem)))
            rw [← Bool.not_eq_true, lessThan_iff, not_or, not_and, not_lt, not_lt] at hnot
            exact hnot.2 ((hall smi hmem).trans hterm.symm)
        case isFalse hne =>
          have hne' : term ≠ top.term := fun heq => hne (Term.compareTo_eq_zero_iff.mpr heq)
          have hlt : term < top.term := lt_of_le_of_ne (hfrom top (Multiset.mem_cons_self _ _)) hne'
          refine ⟨[], top ::ₘ rest, queue, by rw [List.append_nil], h, rfl, (zero_add _).symm, nofun, ?_,
            List.Pairwise.nil⟩
          intro smi hmem
          rcases Multiset.mem_cons.mp hmem with rfl | hmem
          · exact hlt
          · have hnot := hleast smi hmem
            rw [← Bool.not_eq_true, lessThan_iff, not_or, not_lt] at hnot
            exact hlt.trans_le hnot.1

/-- The enumerator at its next term. -/
def SegmentMergeInfo.advance (smi : SegmentMergeInfo) : Option SegmentMergeInfo :=
  Cursor.info? ⟨smi.base, smi.reader, smi.rest⟩

theorem nextTerm_eq {base : Int} {reader : Reader} {terms : List TermPostings}
    (h : ∀ entry ∈ terms, entry.term.field ≠ []) :
    nextTerm base reader terms = .ok (Cursor.info? ⟨base, reader, terms⟩) := by
  cases terms with
  | nil => rfl
  | cons entry rest =>
      rw [nextTerm, if_neg (h entry List.mem_cons_self)]
      rfl

theorem SegmentMergeInfo.Valid.next_eq (h : smi.Valid fieldInfos) : smi.next = .ok smi.advance := by
  obtain ⟨cursor, hvalid, hinfo⟩ := h
  obtain ⟨hterms, -, -⟩ := Cursor.terms_of_info? hinfo
  refine nextTerm_eq fun entry hmem => hvalid.named entry (hvalid.suffix.subset ?_)
  rw [hterms]
  exact List.mem_cons_of_mem _ hmem

theorem addToQueue_spec {queue : Queue} {elements : Multiset SegmentMergeInfo}
    (h : queue.Holds lessThan elements) (hroom : elements.card + 1 < queue.heapSize)
    (smi : Option SegmentMergeInfo) :
    ∃ queue', addToQueue queue smi = .ok queue' ∧
      queue'.Holds lessThan ((smi.toList : Multiset SegmentMergeInfo) + elements) ∧
      queue'.heapSize = queue.heapSize := by
  cases smi with
  | none => exact ⟨queue, rfl, by rw [Option.toList_none, Multiset.coe_nil, zero_add]; exact h, rfl⟩
  | some smi =>
      obtain ⟨queue', hok, hholds⟩ := h.add strictWeakOn_lessThan (by rw [← h.card]; exact hroom)
      refine ⟨queue', ?_, hholds, PriorityQueue.heapSize_add hok⟩
      rw [addToQueue, hok]

theorem coe_filterMap_cons {α β : Type} (f : α → Option β) (x : α) (xs : List α) :
    ((x :: xs).filterMap f : Multiset β) = (xs.filterMap f : Multiset β) + ((f x).toList : Multiset β) := by
  rw [List.filterMap_cons]
  cases f x with
  | none => simp
  | some y =>
      dsimp only
      rw [Option.toList_some, Multiset.coe_singleton, add_comm, Multiset.singleton_add]
      rfl

theorem foldlM_addToQueue_spec (smis : List SegmentMergeInfo) {queue : Queue} {elements : Multiset SegmentMergeInfo}
    (h : queue.Holds lessThan elements) (hnext : ∀ smi ∈ smis, smi.next = .ok smi.advance)
    (hroom : elements.card + smis.length < queue.heapSize) :
    ∃ queue', smis.foldlM (fun queue smi => do addToQueue queue (← smi.next)) queue = .ok queue' ∧
      queue'.Holds lessThan ((List.filterMap SegmentMergeInfo.advance smis : Multiset SegmentMergeInfo) + elements) ∧
      queue'.heapSize = queue.heapSize := by
  induction smis generalizing queue elements with
  | nil =>
      refine ⟨queue, rfl, ?_, rfl⟩
      rw [List.filterMap_nil, Multiset.coe_nil, zero_add]
      exact h
  | cons smi smis ih =>
      rw [List.length_cons] at hroom
      obtain ⟨queue', hok, hholds, hsize⟩ := addToQueue_spec h (by omega) smi.advance
      have hcard : (smi.advance.toList : Multiset SegmentMergeInfo).card ≤ 1 := by
        cases smi.advance <;> simp
      obtain ⟨queue'', hfold, hholds', hsize'⟩ := ih hholds (fun smi hmem => hnext smi (List.mem_cons_of_mem _ hmem))
        (by rw [hsize, Multiset.card_add]; omega)
      refine ⟨queue'', ?_, ?_, hsize'.trans hsize⟩
      · rw [List.foldlM_cons, hnext smi List.mem_cons_self]
        dsimp only [bind, Except.bind]
        rw [hok]
        exact hfold
      · rw [coe_filterMap_cons, add_assoc]
        exact hholds'

theorem restoreQueue_spec {matching : List SegmentMergeInfo} {queue : Queue}
    {elements : Multiset SegmentMergeInfo} (h : queue.Holds lessThan elements)
    (hvalid : ∀ smi ∈ matching, smi.Valid fieldInfos)
    (hroom : elements.card + matching.length < queue.heapSize) :
    ∃ queue', restoreQueue matching queue = .ok queue' ∧
      queue'.Holds lessThan ((List.filterMap SegmentMergeInfo.advance matching : Multiset SegmentMergeInfo) + elements) ∧
      queue'.heapSize = queue.heapSize := by
  obtain ⟨queue', hok, hholds, hsize⟩ := foldlM_addToQueue_spec matching.reverse h
    (fun smi hmem => (hvalid smi (List.mem_reverse.mp hmem)).next_eq) (by rw [List.length_reverse]; exact hroom)
  refine ⟨queue', hok, ?_, hsize⟩
  rw [List.filterMap_reverse, Multiset.coe_reverse] at hholds
  exact hholds

end Infos

section Rounds
variable {fieldInfos : FieldInfos} {cursors : List Cursor} {term : Term} {omitted : WString → Bool}

theorem SegmentMergeInfo.Valid.docs_bounds {smi : SegmentMergeInfo} (h : smi.Valid fieldInfos) :
    (∀ doc ∈ smi.docs omitted, smi.base ≤ doc.docID ∧ doc.docID < smi.base + smi.reader.segment.numDocs) ∧
      (smi.docs omitted).Pairwise fun doc doc' => doc.docID < doc'.docID := by
  have hmem := h.mem
  refine ⟨fun doc hdoc => ?_, ?_⟩
  · obtain ⟨posting, hposting, rfl⟩ := List.mem_map.mp hdoc
    obtain ⟨hin, hlive⟩ := List.mem_filter.mp hposting
    rw [Bool.not_eq_true'] at hlive
    have hlt := compacted_lt hlive (smi.reader.docs_lt _ hmem posting hin)
    rw [compacted_maxDoc] at hlt
    rw [writtenDoc]
    dsimp only
    omega
  · rw [SegmentMergeInfo.docs, writtenDocs, List.pairwise_map, List.pairwise_filter]
    refine (smi.reader.docs_sorted _ hmem).imp fun hlt hlive _ => ?_
    rw [Bool.not_eq_true'] at hlive
    have hcompacted := compacted_lt hlive hlt
    rw [writtenDoc, writtenDoc]
    dsimp only
    omega

/-- The documents of one of the two come before those of the other. -/
def SegmentMergeInfo.Apart (smi smi' : SegmentMergeInfo) : Prop :=
  smi.base + smi.reader.segment.numDocs ≤ smi'.base ∨
    smi'.base + smi'.reader.segment.numDocs ≤ smi.base

theorem pairwise_docs {smis : List SegmentMergeInfo} (hvalid : ∀ smi ∈ smis, smi.Valid fieldInfos)
    (hsorted : smis.Pairwise fun smi smi' => smi.base ≤ smi'.base)
    (hapart : smis.Pairwise SegmentMergeInfo.Apart) :
    (smis.flatMap (SegmentMergeInfo.docs omitted)).Pairwise fun doc doc' => doc.docID < doc'.docID := by
  rw [List.pairwise_flatMap]
  refine ⟨fun smi hmem => (hvalid smi hmem).docs_bounds.2, ?_⟩
  refine (hsorted.and hapart).imp_of_mem fun {smi smi'} hmem hmem' h doc hdoc doc' hdoc' => ?_
  have hbounds := (hvalid smi hmem).docs_bounds.1 doc hdoc
  have hbounds' := (hvalid smi' hmem').docs_bounds.1 doc' hdoc'
  obtain ⟨hle, hapart | hapart⟩ := h
  · omega
  · -- the later one has no documents
    omega

theorem flatMap_docs (hvalid : ∀ cursor ∈ cursors, cursor.Valid fieldInfos)
    (hfrom : ∀ cursor ∈ cursors, cursor.From term) :
    cursors.flatMap (Cursor.docs omitted term) =
      ((cursors.filterMap Cursor.info?).filter fun smi => smi.term = term).flatMap
        (SegmentMergeInfo.docs omitted) := by
  induction cursors with
  | nil => rfl
  | cons cursor cursors ih =>
      have ih := ih (fun cursor hmem => hvalid cursor (List.mem_cons_of_mem _ hmem))
        fun cursor hmem => hfrom cursor (List.mem_cons_of_mem _ hmem)
      rw [List.flatMap_cons, ih, List.filterMap_cons]
      cases hinfo : cursor.info? with
      | none =>
          have hnil : cursor.terms = [] := by
            rw [Cursor.info?] at hinfo
            split at hinfo
            case h_1 hterms => exact hterms
            case h_2 => cases hinfo
          rw [Cursor.docs_eq_nil (by rw [hnil]; nofun), List.nil_append]
      | some smi =>
          dsimp only
          by_cases hterm : smi.term = term
          · rw [List.filter_cons_of_pos (by simpa using hterm), List.flatMap_cons, ← hterm,
              Cursor.docs_of_info? hinfo]
          · obtain ⟨hterms, -, -⟩ := Cursor.terms_of_info? hinfo
            have hsorted := (hvalid cursor List.mem_cons_self).sorted
            have hlt : term < smi.term := lt_of_le_of_ne
              (hfrom cursor List.mem_cons_self _ (hterms ▸ List.mem_cons_self)) (Ne.symm hterm)
            rw [List.filter_cons_of_neg (by simpa using hterm), Cursor.docs_eq_nil, List.nil_append]
            intro entry hmem
            rw [hterms] at hsorted hmem
            rcases List.mem_cons.mp hmem with rfl | hmem
            · exact hterm
            · exact (hlt.trans ((List.pairwise_cons.mp hsorted).1 entry hmem)).ne'

/-- What becomes of an enumerator in the round of `term`. -/
def passInfo (term : Term) (smi : SegmentMergeInfo) : Option SegmentMergeInfo :=
  if smi.term = term then smi.advance else some smi

theorem info?_pass (cursor : Cursor) (term : Term) :
    (cursor.pass term).info? = cursor.info?.bind (passInfo term) := by
  rw [Cursor.pass]
  cases hterms : cursor.terms with
  | nil =>
      dsimp only
      rw [Cursor.info?, hterms]
      rfl
  | cons entry rest =>
      dsimp only
      have hinfo : cursor.info? = some ⟨cursor.base, cursor.reader, entry.term, entry.postings, rest⟩ := by
        rw [Cursor.info?, hterms]
      rw [hinfo, Option.bind_some, passInfo]
      by_cases heq : entry.term = term
      · rw [if_pos heq, if_pos heq]
        rfl
      · rw [if_neg heq, if_neg heq, hinfo]

theorem filterMap_pass {matching : List SegmentMergeInfo} {rest : Multiset SegmentMergeInfo}
    (hsplit : (cursors.filterMap Cursor.info? : Multiset SegmentMergeInfo) =
      (matching : Multiset SegmentMergeInfo) + rest)
    (hmatching : ∀ smi ∈ matching, smi.term = term) (hrest : ∀ smi ∈ rest, term < smi.term) :
    ((cursors.map (Cursor.pass term)).filterMap Cursor.info? : Multiset SegmentMergeInfo) =
      (List.filterMap SegmentMergeInfo.advance matching : Multiset SegmentMergeInfo) + rest := by
  have hpass : (cursors.map (Cursor.pass term)).filterMap Cursor.info? =
      (cursors.filterMap Cursor.info?).filterMap (passInfo term) := by
    rw [List.filterMap_map, List.filterMap_filterMap]
    congr 1
    funext cursor
    exact info?_pass cursor term
  have hadvance : matching.filterMap (passInfo term) = matching.filterMap SegmentMergeInfo.advance :=
    List.filterMap_congr fun smi hmem => if_pos (hmatching smi hmem)
  have hstay : rest.filterMap (passInfo term) = rest := by
    induction rest using Quotient.inductionOn with
    | h smis =>
        refine congrArg _ ((List.filterMap_congr fun smi hmem => ?_).trans List.filterMap_some)
        exact if_neg (hrest smi (Multiset.mem_coe.mpr hmem)).ne'
  rw [hpass, ← Multiset.filterMap_coe, hsplit, Multiset.filterMap_add, Multiset.filterMap_coe, hadvance, hstay]

/-- The entries of the merged dictionary, for what is to come of the readers. -/
structure Merged (omitted : WString → Bool) (cursors : List Cursor)
    (entries : List (Term × List WrittenDoc)) : Prop where
  sorted : entries.Pairwise fun entry entry' => entry.1 < entry'.1
  mem_iff : ∀ term docs, (term, docs) ∈ entries ↔
    docs = cursors.flatMap (Cursor.docs omitted term) ∧ docs ≠ []
  docs_sorted : ∀ entry ∈ entries, entry.2.Pairwise fun doc doc' => doc.docID < doc'.docID

theorem Merged.nil (h : ∀ cursor ∈ cursors, cursor.terms = []) : Merged omitted cursors [] where
  sorted := List.Pairwise.nil
  mem_iff term docs := by
    have hnil : cursors.flatMap (Cursor.docs omitted term) = [] := by
      rw [List.flatMap_eq_nil_iff]
      exact fun cursor hmem => Cursor.docs_eq_nil (by rw [h cursor hmem]; nofun)
    rw [hnil]
    exact iff_of_false nofun fun hand => hand.2 hand.1
  docs_sorted := nofun

/-- The entry of the least term, before what comes of the cursors that have passed it. -/
theorem Merged.round {docs : List WrittenDoc} {entries : List (Term × List WrittenDoc)}
    (h : Merged omitted (cursors.map (Cursor.pass term)) entries)
    (hvalid : ∀ cursor ∈ cursors, cursor.Valid fieldInfos) (hfrom : ∀ cursor ∈ cursors, cursor.From term)
    (hdocs : docs = cursors.flatMap (Cursor.docs omitted term))
    (hsorted : docs.Pairwise fun doc doc' => doc.docID < doc'.docID) :
    Merged omitted cursors (if docs = [] then entries else (term, docs) :: entries) := by
  have hother : ∀ other, other ≠ term → (cursors.map (Cursor.pass term)).flatMap (Cursor.docs omitted other) =
      cursors.flatMap (Cursor.docs omitted other) := by
    intro other hne
    rw [List.flatMap_map]
    congr 1
    funext cursor
    exact Cursor.docs_pass_of_ne hne
  have hlater : ∀ other docs', (other, docs') ∈ entries → term < other := by
    intro other docs' hmem
    obtain ⟨rfl, hne⟩ := (h.mem_iff other docs').mp hmem
    obtain ⟨doc, hdoc⟩ := List.exists_mem_of_ne_nil _ hne
    obtain ⟨cursor', hcursor', hin⟩ := List.mem_flatMap.mp hdoc
    obtain ⟨cursor, hcursor, rfl⟩ := List.mem_map.mp hcursor'
    obtain ⟨entry, hentry, rfl⟩ := Cursor.mem_of_docs_ne_nil (List.ne_nil_of_mem hin)
    exact ((Cursor.mem_pass (hvalid cursor hcursor).sorted (hfrom cursor hcursor)).mp hentry).2
  have hmem : ∀ other docs', other ≠ term → ((other, docs') ∈ entries ↔
      docs' = cursors.flatMap (Cursor.docs omitted other) ∧ docs' ≠ []) := by
    intro other docs' hne
    rw [h.mem_iff, hother other hne]
  have hself : ∀ docs', (term, docs') ∉ entries := fun docs' hin => lt_irrefl _ (hlater term docs' hin)
  split
  case isTrue hnil =>
    refine ⟨h.sorted, fun other docs' => ?_, h.docs_sorted⟩
    by_cases hne : other = term
    · rw [hne, ← hdocs, hnil]
      exact iff_of_false (hself docs') fun hand => hand.2 hand.1
    · exact hmem other docs' hne
  case isFalse hnonempty =>
    refine ⟨List.pairwise_cons.mpr ⟨fun entry hin => hlater entry.1 entry.2 hin, h.sorted⟩,
      fun other docs' => ?_, List.forall_mem_cons.mpr ⟨hsorted, h.docs_sorted⟩⟩
    rw [List.mem_cons, Prod.mk.injEq]
    by_cases hne : other = term
    · rw [hne, ← hdocs]
      constructor
      · rintro (⟨-, rfl⟩ | hin)
        · exact ⟨rfl, hnonempty⟩
        · exact absurd hin (hself docs')
      · rintro ⟨rfl, -⟩
        exact Or.inl ⟨rfl, rfl⟩
    · rw [hmem other docs' hne]
      exact or_iff_right fun hand => hne hand.1

/-- Whether frequencies and positions are left out of the merged field. -/
def omits (fieldInfos : FieldInfos) (field : WString) : Bool :=
  match fieldInfos.fieldInfo field with
  | some info => info.omitTermFreqAndPositions
  | none => false

theorem sum_length_pass {smi : SegmentMergeInfo} (hmem : smi ∈ cursors.filterMap Cursor.info?) :
    ((cursors.map (Cursor.pass smi.term)).map fun cursor => cursor.terms.length).sum <
      (cursors.map fun cursor => cursor.terms.length).sum := by
  rw [List.map_map]
  obtain ⟨cursor, hcursor, hinfo⟩ := List.mem_filterMap.mp hmem
  obtain ⟨hterms, -, -⟩ := Cursor.terms_of_info? hinfo
  refine List.sum_lt_sum _ _ (fun cursor' _ => ?_) ⟨cursor, hcursor, ?_⟩
  · rw [Function.comp_apply, Cursor.pass]
    cases hterms' : cursor'.terms with
    | nil =>
        dsimp only
        rw [hterms']
    | cons entry rest =>
        dsimp only
        split
        · exact Nat.le_succ _
        · rw [hterms']
  · rw [Function.comp_apply, Cursor.pass, hterms]
    simp

/-- The readers one after another, each with its documents. -/
def Consecutive (cursors : List Cursor) : Prop :=
  cursors.Pairwise fun cursor cursor' => cursor.base + (cursor.reader.segment.numDocs : Int) ≤ cursor'.base

theorem Consecutive.pass (h : Consecutive cursors) (term : Term) :
    Consecutive (cursors.map (Cursor.pass term)) := by
  rw [Consecutive, List.pairwise_map]
  refine h.imp fun {cursor cursor'} hle => ?_
  rw [Cursor.base_pass, Cursor.base_pass, Cursor.reader_pass]
  exact hle

theorem Consecutive.infos (h : Consecutive cursors) :
    (cursors.filterMap Cursor.info?).Pairwise fun smi smi' =>
      smi.base + (smi.reader.segment.numDocs : Int) ≤ smi'.base := by
  rw [List.pairwise_filterMap]
  refine h.imp fun {cursor cursor'} hle smi hsmi smi' hsmi' => ?_
  obtain ⟨-, hbase, hreader⟩ := Cursor.terms_of_info? hsmi
  obtain ⟨-, hbase', -⟩ := Cursor.terms_of_info? hsmi'
  rw [← hbase, ← hreader, ← hbase']
  exact hle

/-- The enumerators at the least term, popped in the order of their bases, give the documents of the readers in
their order. -/
theorem docs_matching {matching : List SegmentMergeInfo} {rest : Multiset SegmentMergeInfo}
    (hvalid : ∀ cursor ∈ cursors, cursor.Valid fieldInfos) (hconsecutive : Consecutive cursors)
    (hfrom : ∀ cursor ∈ cursors, cursor.From term)
    (hsplit : (cursors.filterMap Cursor.info? : Multiset SegmentMergeInfo) =
      (matching : Multiset SegmentMergeInfo) + rest)
    (hmatching : ∀ smi ∈ matching, smi.term = term) (hrest : ∀ smi ∈ rest, term < smi.term)
    (hsorted : matching.Pairwise fun smi smi' => smi.base ≤ smi'.base)
    (hmatchingValid : ∀ smi ∈ matching, smi.Valid fieldInfos) :
    (matching.flatMap (SegmentMergeInfo.docs omitted)).Pairwise (fun doc doc' => doc.docID < doc'.docID) ∧
      matching.flatMap (SegmentMergeInfo.docs omitted) = cursors.flatMap (Cursor.docs omitted term) := by
  have hperm : List.Perm (cursors.filterMap Cursor.info?) (matching ++ rest.toList) := by
    rw [← Multiset.coe_eq_coe, hsplit, ← Multiset.coe_add, Multiset.coe_toList]
  have hapart : matching.Pairwise SegmentMergeInfo.Apart := by
    have hall : (cursors.filterMap Cursor.info?).Pairwise SegmentMergeInfo.Apart :=
      hconsecutive.infos.imp Or.inl
    exact (List.pairwise_append.mp (hperm.pairwise hall fun h => Or.symm h)).1
  have hdocs : (matching.flatMap (SegmentMergeInfo.docs omitted)).Pairwise
      fun doc doc' => doc.docID < doc'.docID := pairwise_docs hmatchingValid hsorted hapart
  refine ⟨hdocs, ?_⟩
  have hfilter : List.Perm ((cursors.filterMap Cursor.info?).filter fun smi => smi.term = term) matching := by
    have hself : (matching.filter fun smi => smi.term = term) = matching := by
      rw [List.filter_eq_self]
      simpa using hmatching
    have hnone : (rest.toList.filter fun smi => smi.term = term) = [] := by
      rw [List.filter_eq_nil_iff]
      intro smi hmem
      simpa using (hrest smi (Multiset.mem_toList.mp hmem)).ne'
    have hkept := hperm.filter fun smi => smi.term = term
    rw [List.filter_append, hself, hnone, List.append_nil] at hkept
    exact hkept
  have hcursors : (((cursors.filterMap Cursor.info?).filter fun smi => smi.term = term).flatMap
      (SegmentMergeInfo.docs omitted)).Pairwise fun doc doc' => doc.docID < doc'.docID := by
    have hinfos := hconsecutive.infos.filter fun smi => smi.term = term
    refine pairwise_docs (fun smi hmem => hmatchingValid smi (hfilter.mem_iff.mp hmem)) ?_ (hinfos.imp Or.inl)
    exact hinfos.imp fun hle => by omega
  rw [flatMap_docs hvalid hfrom]
  exact (hfilter.flatMap_right _).symm.eq_of_pairwise
    (fun doc doc' _ _ hlt hlt' => absurd hlt hlt'.asymm) hdocs hcursors

theorem mergeTerms_spec {rounds : Nat} {queue : Queue} {currentField : WString}
    {termsConsumer : Option FieldInfo} (hvalid : ∀ cursor ∈ cursors, cursor.Valid fieldInfos)
    (hconsecutive : Consecutive cursors)
    (hqueue : queue.Holds lessThan (cursors.filterMap Cursor.info? : List SegmentMergeInfo))
    (hroom : cursors.length < queue.heapSize)
    (hrounds : (cursors.map fun cursor => cursor.terms.length).sum < rounds)
    (hconsumer : currentField ≠ [] → termsConsumer = fieldInfos.fieldInfo currentField) :
    ∃ entries, mergeTerms fieldInfos rounds queue currentField termsConsumer = .ok entries ∧
      Merged (omits fieldInfos) cursors entries := by
  induction rounds generalizing queue currentField termsConsumer cursors with
  | zero => omega
  | succ rounds ih =>
      rw [mergeTerms]
      by_cases hempty : cursors.filterMap Cursor.info? = []
      · rw [hempty] at hqueue
        rw [hqueue.pop_of_eq_zero]
        refine ⟨[], rfl, Merged.nil fun cursor hmem => ?_⟩
        have hnone := List.filterMap_eq_nil_iff.mp hempty cursor hmem
        rw [Cursor.info?] at hnone
        split at hnone
        case h_1 hterms => exact hterms
        case h_2 => cases hnone
      · obtain ⟨smi, rest, queue', hsmi, -, hpop, hrest, hsize, hleast⟩ :=
          hqueue.pop strictWeakOn_lessThan (by rw [Ne, Multiset.coe_eq_zero]; exact hempty)
        have hvalidInfo : ∀ info ∈ cursors.filterMap Cursor.info?, info.Valid fieldInfos := by
          intro info hmem
          obtain ⟨cursor, hcursor, hinfo⟩ := List.mem_filterMap.mp hmem
          exact ⟨cursor, hvalid cursor hcursor, hinfo⟩
        have hinfos : ∀ info, info ∈ cursors.filterMap Cursor.info? ↔ info ∈ smi ::ₘ rest := by
          intro info
          rw [← hsmi, Multiset.mem_coe]
        have hmem : smi ∈ cursors.filterMap Cursor.info? := (hinfos smi).mpr (Multiset.mem_cons_self _ _)
        have hfirst : ∀ info ∈ rest, smi.term ≤ info.term := by
          intro info hin
          have hnot := hleast info hin
          rw [← Bool.not_eq_true, lessThan_iff, not_or, not_lt] at hnot
          exact hnot.1
        obtain ⟨popped, rest', queue'', hpopped, hholds, hsize', hsplit, hterm, hlater, hsorted⟩ :=
          popMatching_spec hrest (le_of_eq hrest.card) hfirst [smi]
        have hall : (cursors.filterMap Cursor.info? : Multiset SegmentMergeInfo) =
            ((smi :: popped : List SegmentMergeInfo) : Multiset SegmentMergeInfo) + rest' := by
          rw [hsmi, hsplit, ← Multiset.cons_coe, Multiset.cons_add]
        have hatFirst : ∀ info ∈ smi :: popped, info.term = smi.term := List.forall_mem_cons.mpr ⟨rfl, hterm⟩
        have hmatchingValid : ∀ info ∈ smi :: popped, info.Valid fieldInfos := fun info hin =>
          hvalidInfo info (Multiset.mem_coe.mp (hall ▸ Multiset.mem_add.mpr (Or.inl hin)))
        have hfrom : ∀ cursor ∈ cursors, cursor.From smi.term := by
          intro cursor hcursor
          cases hterms : cursor.terms with
          | nil => exact fun entry hin => absurd (hterms ▸ hin) List.not_mem_nil
          | cons first terms =>
              have hinfo : cursor.info? = some ⟨cursor.base, cursor.reader, first.term, first.postings, terms⟩ := by
                rw [Cursor.info?, hterms]
              have hle : smi.term ≤ first.term := by
                rcases Multiset.mem_cons.mp ((hinfos _).mp (List.mem_filterMap.mpr ⟨cursor, hcursor, hinfo⟩)) with
                  heq | hin
                · rw [← heq]
                · exact hfirst _ hin
              have hsortedTerms := (hvalid cursor hcursor).sorted
              intro entry hin
              rw [hterms] at hsortedTerms hin
              rcases List.mem_cons.mp hin with rfl | hin
              · exact hle
              · exact hle.trans ((List.pairwise_cons.mp hsortedTerms).1 entry hin).le
        have hsortedAll : (smi :: popped).Pairwise fun info info' => info.base ≤ info'.base := by
          refine List.pairwise_cons.mpr ⟨fun info hin => ?_, hsorted⟩
          have hnot := hleast info (hsplit ▸ Multiset.mem_add.mpr (Or.inl (Multiset.mem_coe.mpr hin)))
          rw [← Bool.not_eq_true, lessThan_iff, not_or, not_and, not_lt, not_lt] at hnot
          exact hnot.2 (hterm info hin)
        obtain ⟨hdocsSorted, hdocs⟩ := docs_matching hvalid hconsecutive hfrom hall
          hatFirst hlater hsortedAll hmatchingValid
        obtain ⟨info, hinfo, -⟩ := (hvalidInfo smi hmem).readable
        have hterms : (if currentField ≠ smi.term.field then fieldInfos.fieldInfo smi.term.field
            else termsConsumer) = some info := by
          rw [← hinfo]
          split
          · rfl
          case isFalse heq =>
            rw [not_not] at heq
            rw [← heq]
            exact hconsumer (heq ▸ (hvalidInfo smi hmem).field_ne_nil)
        have homits : omits fieldInfos smi.term.field = info.omitTermFreqAndPositions := by
          rw [omits, hinfo]
        have happend := appendPostings_spec hinfo homits hmatchingValid hatFirst hdocsSorted
        have hcard : (smi :: popped).length + rest'.card ≤ cursors.length := by
          have hlength := congrArg Multiset.card hall
          rw [Multiset.card_add, Multiset.coe_card, Multiset.coe_card] at hlength
          rw [← hlength]
          exact List.length_filterMap_le _ _
        obtain ⟨queue₃, hrestore, hholds₃, hsize₃⟩ := restoreQueue_spec hholds hmatchingValid (by
          rw [hsize', hsize]
          omega)
        rw [← filterMap_pass hall hatFirst hlater] at hholds₃
        have hpassValid : ∀ cursor ∈ cursors.map (Cursor.pass smi.term), cursor.Valid fieldInfos :=
          List.forall_mem_map.mpr fun cursor hcursor => (hvalid cursor hcursor).pass smi.term
        obtain ⟨entries, hentries, hmerged⟩ := @ih _ _ smi.term.field (some info)
          hpassValid (hconsecutive.pass smi.term) hholds₃
          (by rw [List.length_map, hsize₃, hsize', hsize]; exact hroom)
          (by have hless := sum_length_pass hmem; omega) (fun _ => hinfo.symm)
        refine ⟨_, ?_, hmerged.round hvalid hfrom hdocs hdocsSorted⟩
        have hpopped' : popMatching smi.term queue'.size queue' [smi] = (smi :: popped, queue'') := hpopped
        rw [hpop]
        dsimp only
        rw [hpopped']
        dsimp only
        rw [hterms]
        dsimp only [bind, Except.bind]
        rw [happend]
        dsimp only
        rw [hrestore]
        dsimp only
        rw [hentries]
        rfl

end Rounds

/-- The readers before their first terms; `base` documents come before them. -/
def cursorsFrom : Int → List Reader → List Cursor
  | _, [] => []
  | base, reader :: readers =>
      ⟨base, reader, reader.terms⟩ :: cursorsFrom (base + reader.segment.numDocs) readers

/-- The postings of the term. -/
def Reader.postings (reader : Reader) (term : Term) : List Posting :=
  match reader.terms.find? fun entry => entry.term = term with
  | none => []
  | some entry => entry.postings

/-- A posting in the merged segment; its frequency and its positions are as they were. -/
def remapped (segment : SegmentReader) (base : Int) (omitted : Bool) (posting : Posting) : WrittenDoc where
  docID := base + SegmentMergeInfo.mapDoc segment posting.doc
  freq := if omitted then none else some posting.positions.length
  positions := if omitted then [] else posting.positions

/-- The live documents of the term, reader by reader. -/
def unionDocs (omitted : Bool) (term : Term) : Int → List Reader → List WrittenDoc
  | _, [] => []
  | base, reader :: readers =>
      ((reader.postings term).filter fun posting => !reader.segment.isDeleted posting.doc).map
          (remapped reader.segment base omitted) ++
        unionDocs omitted term (base + reader.segment.numDocs) readers

/-- One of the readers has no frequencies and no positions for the field. -/
def omitsTermFreqAndPositions (readers : List Reader) (field : WString) : Bool :=
  readers.any fun reader => reader.fieldInfos.any fun info =>
    info.name = field && info.omitTermFreqAndPositions

structure IsUnion (readers : List Reader) (entries : List (Term × List WrittenDoc)) : Prop where
  sorted : entries.Pairwise fun entry entry' => entry.1 < entry'.1
  mem_iff : ∀ term docs, (term, docs) ∈ entries ↔
    docs = unionDocs (omitsTermFreqAndPositions readers term.field) term 0 readers ∧ docs ≠ []
  docs_sorted : ∀ entry ∈ entries, entry.2.Pairwise fun doc doc' => doc.docID < doc'.docID

section AllReaders
variable {readers : List Reader} {base : Int} {omitted : WString → Bool}

theorem mem_cursorsFrom {cursor : Cursor} (h : cursor ∈ cursorsFrom base readers) :
    base ≤ cursor.base ∧ cursor.reader ∈ readers ∧ cursor.terms = cursor.reader.terms := by
  induction readers generalizing base with
  | nil => cases h
  | cons reader readers ih =>
      rcases List.mem_cons.mp h with rfl | h
      · exact ⟨le_rfl, List.mem_cons_self, rfl⟩
      · obtain ⟨hle, hmem, hterms⟩ := ih h
        exact ⟨by omega, List.mem_cons_of_mem _ hmem, hterms⟩

theorem consecutive_cursorsFrom (base : Int) (readers : List Reader) :
    Consecutive (cursorsFrom base readers) := by
  induction readers generalizing base with
  | nil => exact List.Pairwise.nil
  | cons reader readers ih =>
      exact List.pairwise_cons.mpr ⟨fun cursor hmem => (mem_cursorsFrom hmem).1, ih _⟩

theorem length_cursorsFrom (base : Int) (readers : List Reader) :
    (cursorsFrom base readers).length = readers.length := by
  induction readers generalizing base with
  | nil => rfl
  | cons reader readers ih => exact congrArg Nat.succ (ih _)

theorem terms_cursorsFrom (base : Int) (readers : List Reader) :
    (cursorsFrom base readers).map (fun cursor => cursor.terms.length) =
      readers.map fun reader => reader.terms.length := by
  induction readers generalizing base with
  | nil => rfl
  | cons reader readers ih => exact congrArg (reader.terms.length :: ·) (ih _)

theorem docs_cursorsFrom {term : Term} {flag : Bool}
    (hflag : ∀ reader ∈ readers, ∀ entry ∈ reader.terms, entry.term = term → omitted term.field = flag) :
    (cursorsFrom base readers).flatMap (Cursor.docs omitted term) = unionDocs flag term base readers := by
  induction readers generalizing base with
  | nil => rfl
  | cons reader readers ih =>
      rw [cursorsFrom, List.flatMap_cons, unionDocs,
        ih fun reader' hmem => hflag reader' (List.mem_cons_of_mem _ hmem)]
      congr 1
      rw [Cursor.docs, Reader.postings]
      cases hfind : reader.terms.find? fun entry => entry.term = term with
      | none => rfl
      | some entry =>
          dsimp only
          have hmem := List.mem_of_find?_eq_some hfind
          rw [hflag reader List.mem_cons_self entry hmem (by simpa using List.find?_some hfind), writtenDocs]
          refine List.map_congr_left fun posting hposting => ?_
          obtain ⟨hin, hlive⟩ := List.mem_filter.mp hposting
          rw [Bool.not_eq_true'] at hlive
          rw [writtenDoc, remapped, mapDoc_eq (reader.docs_lt entry hmem posting hin) hlive, add_comm]

theorem initialQueue_spec (hnamed : ∀ reader ∈ readers, ∀ entry ∈ reader.terms, entry.term.field ≠ [])
    {queue : Queue} {elements : Multiset SegmentMergeInfo} (h : queue.Holds lessThan elements)
    (hroom : elements.card + readers.length < queue.heapSize) :
    ∃ base' queue', readers.foldlM (fun (base, queue) reader => do
        let smi ← nextTerm base reader reader.terms
        let queue ← addToQueue queue smi
        return (base + reader.segment.numDocs, queue)) (base, queue) = Except.ok (base', queue') ∧
      queue'.Holds lessThan
        (((cursorsFrom base readers).filterMap Cursor.info? : Multiset SegmentMergeInfo) + elements) ∧
      queue'.heapSize = queue.heapSize := by
  induction readers generalizing base queue elements with
  | nil => exact ⟨base, queue, rfl, by rw [cursorsFrom, List.filterMap_nil, Multiset.coe_nil, zero_add]; exact h, rfl⟩
  | cons reader readers ih =>
      rw [List.length_cons] at hroom
      have hnext := @nextTerm_eq base reader _ (hnamed reader List.mem_cons_self)
      obtain ⟨queue', hok, hholds, hsize⟩ := addToQueue_spec h (by omega)
        (Cursor.info? ⟨base, reader, reader.terms⟩)
      have hcard : ((Cursor.info? ⟨base, reader, reader.terms⟩).toList : Multiset SegmentMergeInfo).card ≤ 1 := by
        cases Cursor.info? ⟨base, reader, reader.terms⟩ <;> simp
      obtain ⟨base'', queue'', hfold, hholds', hsize'⟩ := @ih (base + reader.segment.numDocs)
        (fun reader' hmem => hnamed reader' (List.mem_cons_of_mem _ hmem)) _ _ hholds
        (by rw [hsize, Multiset.card_add]; omega)
      refine ⟨base'', queue'', ?_, ?_, hsize'.trans hsize⟩
      · rw [List.foldlM_cons]
        dsimp only
        rw [hnext]
        dsimp only [bind, Except.bind]
        rw [hok]
        exact hfold
      · rw [cursorsFrom, coe_filterMap_cons, add_assoc]
        exact hholds'

theorem fieldInfo_merged (mergeDocStores : Bool) {field : WString}
    (hfield : ∃ reader ∈ readers, ∃ info, reader.fieldInfos.fieldInfo field = some info) :
    ∃ merged, (FieldInfos.mergeFields mergeDocStores (readers.map Reader.fieldInfos)).fieldInfo field =
        some merged ∧
      merged.omitTermFreqAndPositions = omitsTermFreqAndPositions readers field ∧
      ∀ reader ∈ readers, ∀ info, reader.fieldInfos.fieldInfo field = some info →
        info.storePayloads = true → merged.storePayloads = true := by
  obtain ⟨reader, hreader, info, hinfo⟩ := hfield
  obtain ⟨merged, hmerged, hflags⟩ := @FieldInfos.fieldInfo_mergeFields field mergeDocStores
    (readers.map Reader.fieldInfos)
    ⟨reader.fieldInfos, List.mem_map_of_mem hreader, by rw [hinfo]; rfl⟩
  refine ⟨merged, hmerged, ?_, ?_⟩
  · rw [Bool.eq_iff_iff, hflags FieldInfo.omitTermFreqAndPositions FieldInfo.omitTermFreqAndPositions_update]
    simp [omitsTermFreqAndPositions]
  · intro reader' hmem info' hinfo' hstore
    rw [hflags FieldInfo.storePayloads FieldInfo.storePayloads_update]
    exact ⟨reader'.fieldInfos, List.mem_map_of_mem hmem, info', FieldInfos.mem_of_fieldInfo hinfo',
      FieldInfos.name_of_fieldInfo hinfo', hstore⟩

end AllReaders

/-- The term `f:t`. -/
def someTerm : Term := ⟨[⟨102, by decide⟩], [⟨116, by decide⟩]⟩

/-- One document with one term, at its first position unless positions are omitted. -/
def oneDocument (omitted : Bool) : Reader where
  segment := .fresh 1
  fieldInfos := [⟨someTerm.field, true, false, omitted, nofun⟩]
  terms := [⟨someTerm, [⟨0, if omitted then [] else [(0, [])]⟩]⟩]
  sorted := List.pairwise_singleton _ _
  docs_sorted := List.forall_mem_singleton.mpr (List.pairwise_singleton _ _)
  docs_lt := List.forall_mem_singleton.mpr (List.forall_mem_singleton.mpr Nat.one_pos)
  stored := List.forall_mem_singleton.mpr
    ⟨⟨someTerm.field, true, false, omitted, nofun⟩, by simp [FieldInfos.fieldInfo], List.forall_mem_singleton.mpr ⟨by cases omitted <;> simp [Stored], fun homit => if_pos homit⟩⟩

end LucenePlusPlus.PostingsMerge
