import LucenePlusPlus.DocumentsWriter
import LucenePlusPlus.Runs

/-!
Buffered deletes mean what the calls say, one after the other: a delete removes the documents before it, and
none after it. The invariant is that the bound of every buffered delete is at most the number of documents,
and at least that of every delete of the same key before the last flush.

An exception that aborts, in a document or in a flush, takes back what was buffered since the last flush.
-/

namespace LucenePlusPlus

section Entries
variable {Doc : Type} {dead dead' : Nat → Doc → Bool} {n : Nat}

/-- The documents that are neither deleted nor dead by their number, which starts with `n`. -/
def liveFrom (dead : Nat → Doc → Bool) : Nat → List (Doc × Bool) → List Doc
  | _, [] => []
  | n, (doc, deleted) :: rest =>
      if deleted || dead n doc then liveFrom dead (n + 1) rest
      else doc :: liveFrom dead (n + 1) rest

/-- What is dead becomes deleted. -/
def markFrom (dead : Nat → Doc → Bool) : Nat → List (Doc × Bool) → List (Doc × Bool)
  | _, [] => []
  | n, (doc, deleted) :: rest => (doc, deleted || dead n doc) :: markFrom dead (n + 1) rest

theorem liveFrom_append (es fs : List (Doc × Bool)) :
    liveFrom dead n (es ++ fs) = liveFrom dead n es ++ liveFrom dead (n + es.length) fs := by
  induction es generalizing n with
  | nil => rfl
  | cons e es ih =>
      simp only [List.cons_append, liveFrom, ih, List.length_cons]
      rw [Nat.add_right_comm, ← Nat.add_assoc]
      split <;> rfl

theorem liveFrom_congr {es : List (Doc × Bool)}
    (h : ∀ m doc, n ≤ m → m < n + es.length → dead m doc = dead' m doc) :
    liveFrom dead n es = liveFrom dead' n es := by
  induction es generalizing n with
  | nil => rfl
  | cons e es ih =>
      rw [List.length_cons] at h
      rw [liveFrom, liveFrom, h n e.1 (by omega) (by omega),
        ih fun m doc hn hm => h m doc (by omega) (by omega)]

theorem liveFrom_or (p : Doc → Bool) (es : List (Doc × Bool)) :
    liveFrom (fun m doc => dead m doc || p doc) n es = (liveFrom dead n es).filter fun doc => !p doc := by
  induction es generalizing n with
  | nil => rfl
  | cons e es ih =>
      simp only [liveFrom, ih, ← Bool.or_assoc]
      cases hdead : e.2 || dead n e.1 with
      | true => simp
      | false => cases hp : p e.1 <;> simp [hp]

theorem liveFrom_false (es : List (Doc × Bool)) :
    liveFrom (fun _ _ => false) n es = (es.filter fun e => !e.2).map Prod.fst := by
  induction es generalizing n with
  | nil => rfl
  | cons e es ih =>
      obtain ⟨doc, deleted⟩ := e
      cases deleted <;> simp [liveFrom, ih]

theorem liveFrom_markFrom (es : List (Doc × Bool)) :
    liveFrom dead' n (markFrom dead n es) = liveFrom (fun m doc => dead m doc || dead' m doc) n es := by
  induction es generalizing n with
  | nil => rfl
  | cons e es ih => simp only [markFrom, liveFrom, ih, Bool.or_assoc]

theorem markFrom_append (es fs : List (Doc × Bool)) :
    markFrom dead n (es ++ fs) = markFrom dead n es ++ markFrom dead (n + es.length) fs := by
  induction es generalizing n with
  | nil => rfl
  | cons e es ih =>
      simp only [List.cons_append, markFrom, ih, List.length_cons]
      rw [Nat.add_right_comm, ← Nat.add_assoc]

theorem length_markFrom (es : List (Doc × Bool)) : (markFrom dead n es).length = es.length := by
  induction es generalizing n with
  | nil => rfl
  | cons e es ih => rw [markFrom, List.length_cons, List.length_cons, ih]

theorem markFrom_eq_mapIdx (es : List (Doc × Bool)) :
    markFrom dead n es = es.mapIdx fun i e => (e.1, e.2 || dead (n + i) e.1) := by
  induction es generalizing n with
  | nil => rfl
  | cons e es ih =>
      rw [markFrom, ih, List.mapIdx_cons, Nat.add_zero]
      congr 2
      funext i e
      rw [Nat.add_assoc, Nat.add_comm 1]

end Entries

namespace Segment
variable {Doc : Type}

@[simp] theorem length_entries (s : Segment Doc) : s.entries.length = s.docs.length := by
  rw [entries, List.length_mapIdx]

theorem entries_new (docs : List Doc) : (new docs).entries = docs.map fun doc => (doc, false) := by
  have hfresh : ∀ m n, (SegmentReader.fresh m).isDeleted n = false := fun m n => rfl
  rw [entries, List.mapIdx_eq_iff]
  intro n
  simp only [new, hfresh, List.getElem?_map]

theorem Deletes.entries_eq {s s' : Segment Doc} {dead : Nat → Doc → Bool} {docIDStart : Nat}
    (h : Deletes (fun n doc => dead (docIDStart + n) doc = true) s s') :
    s'.entries = markFrom dead docIDStart s.entries := by
  rw [markFrom_eq_mapIdx, entries, entries, List.mapIdx_mapIdx, h.docs_eq]
  refine List.ext_getElem (by simp) fun n hn _ => ?_
  rw [List.length_mapIdx] at hn
  rw [List.getElem_mapIdx, List.getElem_mapIdx]
  refine congrArg _ (Bool.eq_iff_iff.mpr ?_)
  rw [Bool.or_eq_true]
  exact h.isDeleted n _ (List.getElem?_eq_getElem hn)

end Segment

namespace BufferedDeletes
variable {Doc Term Query : Type} {M : Matching Doc Term Query} {d other : BufferedDeletes Term Query}
  {lo mid hi n : Nat} {doc : Doc}

@[simp] theorem concerns_empty : (empty : BufferedDeletes Term Query).concerns M n doc = false := rfl

theorem concerns_of_not_any (h : d.any = false) : d.concerns M n doc = false := by
  simp only [any, Bool.or_eq_false_iff, Bool.not_eq_false', List.isEmpty_iff] at h
  simp [concerns, Limits.covers, h]

variable [DecidableEq Term] [DecidableEq Query]

/-- The bounds are from `lo` to `hi`, and the document numbers below `hi`. -/
structure Within (d : BufferedDeletes Term Query) (lo hi : Nat) : Prop where
  terms : ∀ term limit, d.terms.lookup term = some limit → lo ≤ limit ∧ limit ≤ hi
  queries : ∀ query limit, d.queries.lookup query = some limit → lo ≤ limit ∧ limit ≤ hi
  docIDs : ∀ docID ∈ d.docIDs, docID < hi

theorem within_empty : (empty : BufferedDeletes Term Query).Within lo hi where
  terms _ _ h := by cases h
  queries _ _ h := by cases h
  docIDs _ h := by cases h

theorem Within.mono (h : d.Within lo mid) (hle : mid ≤ hi) : d.Within lo hi where
  terms term limit hl := ⟨(h.terms term limit hl).1, (h.terms term limit hl).2.trans hle⟩
  queries query limit hl := ⟨(h.queries query limit hl).1, (h.queries query limit hl).2.trans hle⟩
  docIDs docID hmem := (h.docIDs docID hmem).trans_le hle

theorem Within.concerns_eq_false (h : d.Within lo hi) (hn : hi ≤ n) : d.concerns M n doc = false := by
  rw [concerns, Limits.covers_eq_false fun term limit hl => (h.terms term limit hl).2.trans hn,
    Limits.covers_eq_false fun query limit hl => (h.queries query limit hl).2.trans hn,
    Bool.or_false, Bool.false_or, ← Bool.not_eq_true, List.contains_iff_mem]
  intro hmem
  have := h.docIDs n hmem
  omega

theorem lookup_union_cases {Key : Type} [DecidableEq Key] {m m' : Limits Key} {key : Key} {limit : Nat}
    (h : AList.lookup key (m' ∪ m) = some limit) :
    m.lookup key = some limit ∨ m'.lookup key = some limit :=
  (AList.lookup_union_eq_some.mp h).symm.imp_left And.right

theorem lookup_insert_cases {Key : Type} [DecidableEq Key] {m : Limits Key} {key key' : Key}
    {limit limit' : Nat} (h : AList.lookup key' (m.insert key limit) = some limit') :
    limit' = limit ∨ m.lookup key' = some limit' := by
  by_cases heq : key' = key
  · subst heq
    rw [AList.lookup_insert] at h
    exact Or.inl (Option.some.inj h).symm
  · rw [AList.lookup_insert_ne heq] at h
    exact Or.inr h

theorem Within.concerns_update (h : d.Within lo mid) (h' : other.Within mid hi) :
    (d.update other).concerns M n doc = (d.concerns M n doc || other.concerns M n doc) := by
  have hcontains : (d.docIDs ++ other.docIDs).contains n =
      (d.docIDs.contains n || other.docIDs.contains n) := by
    simp
  simp only [concerns, update, hcontains]
  rw [Limits.covers_union fun term old new hold hnew =>
      (h.terms term old hold).2.trans (h'.terms term new hnew).1,
    Limits.covers_union fun query old new hold hnew =>
      (h.queries query old hold).2.trans (h'.queries query new hnew).1]
  ac_rfl

theorem Within.update (h : d.Within 0 mid) (h' : other.Within mid hi) (hle : mid ≤ hi) :
    (d.update other).Within 0 hi where
  terms term limit hl := by
    rcases lookup_union_cases hl with hold | hnew
    · exact ⟨Nat.zero_le _, (h.terms term limit hold).2.trans hle⟩
    · exact ⟨Nat.zero_le _, (h'.terms term limit hnew).2⟩
  queries query limit hl := by
    rcases lookup_union_cases hl with hold | hnew
    · exact ⟨Nat.zero_le _, (h.queries query limit hold).2.trans hle⟩
    · exact ⟨Nat.zero_le _, (h'.queries query limit hnew).2⟩
  docIDs docID hmem := by
    rcases List.mem_append.mp hmem with hold | hnew
    · exact (h.docIDs docID hold).trans_le hle
    · exact h'.docIDs docID hnew

end BufferedDeletes

namespace DocumentsWriter
variable {Doc Term Query : Type} [DecidableEq Term] [DecidableEq Query] {M : Matching Doc Term Query}
  {w w' w'' : DocumentsWriter Doc Term Query} {p q : Doc → Bool}

/-- A buffered delete concerns the document. -/
def dead (w : DocumentsWriter Doc Term Query) (M : Matching Doc Term Query) (n : Nat) (doc : Doc) :
    Bool :=
  w.deletesFlushed.concerns M n doc || w.deletesInRAM.concerns M n doc

structure Inv (w : DocumentsWriter Doc Term Query) : Prop where
  nextDocID_eq : w.nextDocID = w.docs.length
  numDocsInRAM_eq : w.numDocsInRAM = w.docs.length
  deletesInRAM : w.deletesInRAM.Within w.flushedDocCount (w.flushedDocCount + w.docs.length)
  deletesFlushed : w.deletesFlushed.Within 0 w.flushedDocCount

/-- From `w` to `w'`, a delete by what documents match was buffered. -/
structure Buffers (M : Matching Doc Term Query) (p : Doc → Bool) (w w' : DocumentsWriter Doc Term Query) :
    Prop where
  inv : w'.Inv
  docs_eq : w'.docs = w.docs
  flushedDocCount_eq : w'.flushedDocCount = w.flushedDocCount
  deletesFlushed_eq : w'.deletesFlushed = w.deletesFlushed
  dead_eq : ∀ n doc, n < w.flushedDocCount + w.docs.length →
    w'.dead M n doc = (w.dead M n doc || p doc)

theorem Buffers.refl (h : w.Inv) : Buffers M (fun _ => false) w w :=
  ⟨h, rfl, rfl, rfl, fun _ _ _ => (Bool.or_false _).symm⟩

theorem Buffers.trans (h : Buffers M p w w') (h' : Buffers M q w' w'') :
    Buffers M (fun doc => p doc || q doc) w w'' where
  inv := h'.inv
  docs_eq := h'.docs_eq.trans h.docs_eq
  flushedDocCount_eq := h'.flushedDocCount_eq.trans h.flushedDocCount_eq
  deletesFlushed_eq := h'.deletesFlushed_eq.trans h.deletesFlushed_eq
  dead_eq n doc hn := by
    rw [h'.dead_eq n doc (by rwa [h.flushedDocCount_eq, h.docs_eq]), h.dead_eq n doc hn, Bool.or_assoc]

theorem addDeleteTerm_spec (h : w.Inv) (term : Term) :
    Buffers M (M.hasTerm term) w (w.addDeleteTerm term w.docs.length) := by
  obtain ⟨num, hnum, hterm⟩ : ∃ num, num = w.flushedDocCount + w.docs.length ∧
      w.addDeleteTerm term w.docs.length = { w with deletesInRAM :=
        { w.deletesInRAM with terms := w.deletesInRAM.terms.insert term num } } := by
    unfold addDeleteTerm
    cases hlookup : w.deletesInRAM.terms.lookup term with
    | none => exact ⟨_, rfl, rfl⟩
    | some num =>
        exact ⟨_, max_eq_right (h.deletesInRAM.terms term num hlookup).2, rfl⟩
  have hle : ∀ old ∈ w.deletesInRAM.terms.lookup term, old ≤ num :=
    fun old hold => hnum ▸ (h.deletesInRAM.terms term old hold).2
  rw [hterm]
  refine ⟨⟨h.nextDocID_eq, h.numDocsInRAM_eq, ⟨?_, h.deletesInRAM.queries, h.deletesInRAM.docIDs⟩,
    h.deletesFlushed⟩, rfl, rfl, rfl, fun n doc hn => ?_⟩
  · intro term' limit hlookup
    rcases BufferedDeletes.lookup_insert_cases hlookup with rfl | hold
    · exact ⟨hnum ▸ Nat.le_add_right _ _, hnum.le⟩
    · exact h.deletesInRAM.terms term' limit hold
  · have hlt : n < num := hnum ▸ hn
    simp only [dead, BufferedDeletes.concerns, Limits.covers_insert hle, hlt, decide_true,
      Bool.and_true]
    ac_rfl

theorem addDeleteQuery_spec (h : w.Inv) (query : Query) :
    Buffers M (M.hits query) w (w.addDeleteQuery query w.docs.length) := by
  have hle : ∀ old ∈ w.deletesInRAM.queries.lookup query, old ≤ w.flushedDocCount + w.docs.length :=
    fun old hold => (h.deletesInRAM.queries query old hold).2
  refine ⟨⟨h.nextDocID_eq, h.numDocsInRAM_eq, ⟨h.deletesInRAM.terms, ?_, h.deletesInRAM.docIDs⟩,
    h.deletesFlushed⟩, rfl, rfl, rfl, fun n doc hn => ?_⟩
  · intro query' limit hlookup
    rcases BufferedDeletes.lookup_insert_cases hlookup with rfl | hold
    · exact ⟨Nat.le_add_right _ _, le_rfl⟩
    · exact h.deletesInRAM.queries query' limit hold
  · simp only [dead, addDeleteQuery, BufferedDeletes.concerns, Limits.covers_insert hle, hn,
      decide_true, Bool.and_true]
    ac_rfl

theorem bufferDeleteTerms_spec (h : w.Inv) (terms : List Term) :
    Buffers M (fun doc => terms.any (M.hasTerm · doc)) w (w.bufferDeleteTerms terms) := by
  induction terms generalizing w with
  | nil => exact .refl h
  | cons term terms ih =>
      have hterm := addDeleteTerm_spec (M := M) h term
      rw [bufferDeleteTerms, List.foldl_cons, h.numDocsInRAM_eq]
      exact hterm.trans (ih hterm.inv)

theorem bufferDeleteQueries_spec (h : w.Inv) (queries : List Query) :
    Buffers M (fun doc => queries.any (M.hits · doc)) w (w.bufferDeleteQueries queries) := by
  induction queries generalizing w with
  | nil => exact .refl h
  | cons query queries ih =>
      have hquery := addDeleteQuery_spec (M := M) h query
      rw [bufferDeleteQueries, List.foldl_cons, h.numDocsInRAM_eq]
      exact hquery.trans (ih hquery.inv)

/-- A document joins the buffer. -/
def add (w : DocumentsWriter Doc Term Query) (doc : Doc) : DocumentsWriter Doc Term Query :=
  { w with
    docs := w.docs ++ [doc]
    nextDocID := w.nextDocID + 1
    numDocsInRAM := w.numDocsInRAM + 1 }

theorem Inv.add (h : w.Inv) (doc : Doc) : (w.add doc).Inv where
  nextDocID_eq := by simp [DocumentsWriter.add, h.nextDocID_eq]
  numDocsInRAM_eq := by simp [DocumentsWriter.add, h.numDocsInRAM_eq]
  deletesInRAM := h.deletesInRAM.mono (by simp [DocumentsWriter.add])
  deletesFlushed := h.deletesFlushed

theorem inv_abort (w : DocumentsWriter Doc Term Query) : w.abort.Inv where
  nextDocID_eq := rfl
  numDocsInRAM_eq := rfl
  deletesInRAM := BufferedDeletes.within_empty
  deletesFlushed := BufferedDeletes.within_empty

theorem Inv.dead_eq_false (h : w.Inv) {n : Nat} (hn : w.flushedDocCount + w.docs.length ≤ n)
    (doc : Doc) : w.dead M n doc = false := by
  rw [dead, h.deletesFlushed.concerns_eq_false (by omega), h.deletesInRAM.concerns_eq_false hn,
    Bool.or_false]

/-- What an update does before its document is processed. -/
def deleteFirst (w : DocumentsWriter Doc Term Query) (delTerm : Option Term) :
    DocumentsWriter Doc Term Query :=
  delTerm.elim w fun term => w.addDeleteTerm term w.nextDocID

theorem deleteFirst_spec (h : w.Inv) (delTerm : Option Term) :
    Buffers M (fun doc => delTerm.any (M.hasTerm · doc)) w (w.deleteFirst delTerm) := by
  cases delTerm with
  | none => exact .refl h
  | some term =>
      rw [deleteFirst, h.nextDocID_eq]
      exact addDeleteTerm_spec h term

omit [DecidableEq Query] in
theorem updateDocument_done (w : DocumentsWriter Doc Term Query) (doc : Doc) (delTerm : Option Term) :
    w.updateDocument doc delTerm .done = (w.deleteFirst delTerm).add doc := by
  cases delTerm <;> rfl

omit [DecidableEq Query] in
/-- A document whose indexing raised an exception is buffered with a delete by its number. -/
theorem updateDocument_exception (w : DocumentsWriter Doc Term Query) (doc partly : Doc)
    (delTerm : Option Term) :
    w.updateDocument doc delTerm (.exception partly) =
      ((w.deleteFirst delTerm).add partly).addDeleteDocID w.nextDocID := by
  cases delTerm <;> rfl

omit [DecidableEq Query] in
theorem updateDocument_aborting (w : DocumentsWriter Doc Term Query) (doc : Doc)
    (delTerm : Option Term) : w.updateDocument doc delTerm .aborting = w.abort := by
  cases delTerm <;> rfl

theorem addDeleteDocID_spec (h : w.Inv) {docID : Nat} (hlt : docID < w.docs.length) :
    (w.addDeleteDocID docID).Inv ∧ ∀ n doc, (w.addDeleteDocID docID).dead M n doc =
      (w.dead M n doc || decide (n = w.flushedDocCount + docID)) := by
  refine ⟨⟨h.nextDocID_eq, h.numDocsInRAM_eq, ⟨h.deletesInRAM.terms, h.deletesInRAM.queries, ?_⟩,
    h.deletesFlushed⟩, fun n doc => ?_⟩
  · intro n hn
    rcases List.mem_append.mp hn with hn | hn
    · exact h.deletesInRAM.docIDs n hn
    · rw [List.mem_singleton.mp hn]
      exact Nat.add_lt_add_left hlt _
  · have hcontains : (w.deletesInRAM.docIDs ++ [w.flushedDocCount + docID]).contains n =
        (w.deletesInRAM.docIDs.contains n || decide (n = w.flushedDocCount + docID)) := by
      simp
    simp only [dead, addDeleteDocID, BufferedDeletes.concerns, hcontains]
    ac_rfl

end DocumentsWriter

namespace BufferedIndex

/-- The documents now, and when the buffer was last flushed. -/
structure Documents (Doc : Type) where
  current : List Doc
  flushed : List Doc

variable {Doc Term Query : Type} {M : Matching Doc Term Query} {w : BufferedIndex Doc Term Query}
  {d : Documents Doc}

/-- The calls, one after the other. -/
def sequential (M : Matching Doc Term Query) (docs : List Doc) : Op Doc Term Query → List Doc
  | .updateDocument doc delTerm processed =>
      let docs := docs.filter fun doc => !delTerm.any (M.hasTerm · doc)
      match processed with
      | .done => docs ++ [doc]
      | _ => docs
  | .deleteTerms terms => docs.filter fun doc => !terms.any (M.hasTerm · doc)
  | .deleteQueries queries => docs.filter fun doc => !queries.any (M.hits · doc)
  | _ => docs

/-- The call ends in an abort. -/
def Op.aborts : Op Doc Term Query → Bool
  | .updateDocument _ _ .aborting | .failedFlush => true
  | _ => false

/-- The call ends with nothing in the buffer. -/
def Op.pushes : Op Doc Term Query → Bool
  | .flush _ | .pushDeletes => true
  | _ => false

def Documents.step (M : Matching Doc Term Query) (d : Documents Doc) (op : Op Doc Term Query) :
    Documents Doc :=
  if op.aborts then { d with current := d.flushed }
  else
    let current := sequential M d.current op
    { current, flushed := if op.pushes then current else d.flushed }

/-- Deletes are pushed when no documents are in RAM; a flush writes documents. -/
def Legal (w : BufferedIndex Doc Term Query) : Op Doc Term Query → Prop
  | .pushDeletes => w.docWriter.numDocsInRAM = 0
  | .failedFlush => 0 < w.docWriter.numDocsInRAM
  | _ => True

/-- An abort finds no deletes that were pushed and are not applied yet. -/
def NothingPushed (w : BufferedIndex Doc Term Query) (op : Op Doc Term Query) : Prop :=
  op.aborts = true → w.docWriter.deletesFlushed.any = false

def entries (w : BufferedIndex Doc Term Query) : List (Doc × Bool) :=
  w.segmentInfos.flatMap Segment.entries

theorem length_buffered (w : BufferedIndex Doc Term Query) :
    (w.entries ++ w.docWriter.docs.map fun doc => (doc, false)).length =
      w.entries.length + w.docWriter.docs.length := by
  rw [List.length_append, List.length_map]

/-- What is live with one more document, which has the number `w.entries.length + w.docWriter.docs.length`. -/
theorem liveFrom_add {dead : Nat → Doc → Bool} (w : BufferedIndex Doc Term Query) (doc : Doc) :
    liveFrom dead 0 (w.entries ++ (w.docWriter.add doc).docs.map fun doc => (doc, false)) =
      liveFrom dead 0 (w.entries ++ w.docWriter.docs.map fun doc => (doc, false)) ++
        if dead (w.entries.length + w.docWriter.docs.length) doc then [] else [doc] := by
  rw [DocumentsWriter.add, List.map_append, ← List.append_assoc, liveFrom_append, length_buffered,
    Nat.zero_add]
  rfl

theorem applyDeletesFrom_spec (deletes : BufferedDeletes Term Query) (docStart : Nat)
    (segmentInfos : List (Segment Doc)) :
    ∃ segmentInfos', DocumentsWriter.applyDeletesFrom deletes M docStart segmentInfos = some segmentInfos' ∧
      segmentInfos'.flatMap Segment.entries =
        markFrom (deletes.concerns M) docStart (segmentInfos.flatMap Segment.entries) := by
  induction segmentInfos generalizing docStart with
  | nil => exact ⟨[], rfl, rfl⟩
  | cons s rest ih =>
      obtain ⟨s', hs', hdeletes⟩ := deletes.applyTo_spec M docStart s
      obtain ⟨rest', hrest', hentries⟩ := ih (docStart + s.reader.maxDoc)
      refine ⟨s' :: rest', ?_, ?_⟩
      · rw [DocumentsWriter.applyDeletesFrom, hs', Option.bind_eq_bind, Option.bind_some, hrest']
        rfl
      · rw [List.flatMap_cons, List.flatMap_cons, markFrom_append, hdeletes.entries_eq, hentries,
          Segment.length_entries, s.size_eq]

variable [DecidableEq Term] [DecidableEq Query]

/-- `d` is what the index and the buffer hold. -/
structure Represents (M : Matching Doc Term Query) (w : BufferedIndex Doc Term Query)
    (d : Documents Doc) : Prop where
  inv : w.docWriter.Inv
  flushedDocCount_eq : w.docWriter.flushedDocCount = w.entries.length
  current_eq : liveFrom (w.docWriter.dead M) 0 (w.entries ++ w.docWriter.docs.map fun doc => (doc, false)) =
    d.current
  flushed_eq : liveFrom (w.docWriter.deletesFlushed.concerns M) 0 w.entries = d.flushed

theorem represents_opened (segmentInfos : List (Segment Doc)) :
    Represents M (opened segmentInfos) ⟨(opened segmentInfos : BufferedIndex Doc Term Query).liveDocs,
      (opened segmentInfos : BufferedIndex Doc Term Query).liveDocs⟩ where
  inv := ⟨rfl, rfl, BufferedDeletes.within_empty, BufferedDeletes.within_empty⟩
  flushedDocCount_eq := by
    simp only [opened, entries, List.length_flatMap, Segment.length_entries, Segment.size_eq]
  current_eq := (congrArg _ (List.append_nil _)).trans (liveFrom_false _)
  flushed_eq := liveFrom_false _

theorem Represents.buffers (h : Represents M w d) {p : Doc → Bool}
    {dw : DocumentsWriter Doc Term Query}
    (hdw : DocumentsWriter.Buffers M p w.docWriter dw) :
    Represents M { w with docWriter := dw } { d with current := d.current.filter fun doc => !p doc } where
  inv := hdw.inv
  flushedDocCount_eq := hdw.flushedDocCount_eq.trans h.flushedDocCount_eq
  current_eq := by
    rw [← h.current_eq, ← liveFrom_or]
    simp only [hdw.docs_eq]
    refine liveFrom_congr fun n doc _ hn => hdw.dead_eq n doc ?_
    rw [h.flushedDocCount_eq, ← length_buffered, ← Nat.zero_add (List.length _)]
    exact hn
  flushed_eq := by
    simp only [hdw.deletesFlushed_eq]
    exact h.flushed_eq

theorem Represents.add (h : Represents M w d) (doc : Doc) :
    Represents M { w with docWriter := w.docWriter.add doc } { d with current := d.current ++ [doc] } where
  inv := h.inv.add doc
  flushedDocCount_eq := h.flushedDocCount_eq
  current_eq := by
    have hdead : w.docWriter.dead M (w.entries.length + w.docWriter.docs.length) doc = false :=
      h.inv.dead_eq_false (by rw [h.flushedDocCount_eq]) doc
    calc liveFrom ((w.docWriter.add doc).dead M) 0
          (w.entries ++ (w.docWriter.add doc).docs.map fun doc => (doc, false))
        = liveFrom (w.docWriter.dead M) 0 (w.entries ++ w.docWriter.docs.map fun doc => (doc, false)) ++
            if w.docWriter.dead M (w.entries.length + w.docWriter.docs.length) doc then [] else [doc] :=
          liveFrom_add w doc
      _ = d.current ++ [doc] := by rw [h.current_eq, hdead]; rfl
  flushed_eq := h.flushed_eq

theorem Represents.addDeleted (h : Represents M w d) (doc : Doc) :
    Represents M { w with docWriter := (w.docWriter.add doc).addDeleteDocID w.docWriter.docs.length } d := by
  obtain ⟨hinv, hdead⟩ := DocumentsWriter.addDeleteDocID_spec (M := M) (h.inv.add doc)
    (show w.docWriter.docs.length < _ by simp [DocumentsWriter.add])
  refine ⟨hinv, h.flushedDocCount_eq, ?_, h.flushed_eq⟩
  have hlast : ((w.docWriter.add doc).addDeleteDocID w.docWriter.docs.length).dead M
      (w.entries.length + w.docWriter.docs.length) doc = true := by
    rw [hdead, ← h.flushedDocCount_eq]
    simp [DocumentsWriter.add]
  refine (liveFrom_add w doc).trans ?_
  rw [hlast, if_pos rfl, List.append_nil, ← h.current_eq]
  refine liveFrom_congr fun n doc' _ hn => (hdead n doc').trans ?_
  rw [Nat.zero_add, length_buffered, ← h.flushedDocCount_eq] at hn
  have hne : n ≠ (w.docWriter.add doc).flushedDocCount + w.docWriter.docs.length := hn.ne
  rw [decide_eq_false hne, Bool.or_false]
  rfl

theorem Represents.deleteFirst (h : Represents M w d) (delTerm : Option Term) :
    Represents M { w with docWriter := w.docWriter.deleteFirst delTerm }
      { d with current := d.current.filter fun doc => !delTerm.any (M.hasTerm · doc) } :=
  h.buffers (DocumentsWriter.deleteFirst_spec h.inv delTerm)

/-- With no pushed deletes, an abort goes back to the documents of the last flush. -/
theorem Represents.abort (h : Represents M w d) (hnone : w.docWriter.deletesFlushed.any = false) :
    Represents M { w with docWriter := w.docWriter.abort } { d with current := d.flushed } := by
  have hflushed : liveFrom (fun _ _ => false) 0 w.entries = d.flushed := by
    rw [← h.flushed_eq]
    exact liveFrom_congr fun n doc _ _ => (BufferedDeletes.concerns_of_not_any hnone).symm
  refine ⟨DocumentsWriter.inv_abort _, h.flushedDocCount_eq, ?_, hflushed⟩
  calc liveFrom (w.docWriter.abort.dead M) 0
        (w.entries ++ w.docWriter.abort.docs.map fun doc => (doc, false))
      = liveFrom (fun _ _ => false) 0 w.entries := congrArg _ (List.append_nil _)
    _ = d.flushed := hflushed

theorem Represents.updateDocument (h : Represents M w d) (doc : Doc) (delTerm : Option Term)
    {processed : Processed Doc} (hlegal : NothingPushed w (.updateDocument doc delTerm processed)) :
    Represents M { w with docWriter := w.docWriter.updateDocument doc delTerm processed }
      (d.step M (.updateDocument doc delTerm processed)) := by
  have hfirst := h.deleteFirst delTerm
  cases processed with
  | done =>
      rw [DocumentsWriter.updateDocument_done]
      exact hfirst.add doc
  | exception partly =>
      rw [DocumentsWriter.updateDocument_exception, h.inv.nextDocID_eq,
        ← (DocumentsWriter.deleteFirst_spec (M := M) h.inv delTerm).docs_eq]
      exact hfirst.addDeleted partly
  | aborting =>
      rw [DocumentsWriter.updateDocument_aborting]
      exact h.abort (hlegal rfl)

/-- What a flush of the documents does, deletes apart. -/
structure FlushedDocs (w w' : BufferedIndex Doc Term Query) : Prop where
  entries_eq : w'.entries = w.entries ++ w.docWriter.docs.map fun doc => (doc, false)
  docs_eq : w'.docWriter.docs = []
  nextDocID_eq : w'.docWriter.nextDocID = 0
  numDocsInRAM_eq : w'.docWriter.numDocsInRAM = 0
  flushedDocCount_eq :
    w'.docWriter.flushedDocCount = w.docWriter.flushedDocCount + w.docWriter.docs.length
  deletesInRAM_eq : w'.docWriter.deletesInRAM = w.docWriter.deletesInRAM
  deletesFlushed_eq : w'.docWriter.deletesFlushed = w.docWriter.deletesFlushed

theorem flushDocs_spec (h : w.docWriter.Inv) : FlushedDocs w w.flushDocs := by
  unfold flushDocs
  split
  · refine ⟨?_, rfl, rfl, rfl, congrArg _ h.numDocsInRAM_eq, rfl, rfl⟩
    simp [entries, DocumentsWriter.flush, Segment.entries_new]
  · rename_i hzero
    have hlen : w.docWriter.docs.length = 0 := by
      have := h.numDocsInRAM_eq
      omega
    have hdocs : w.docWriter.docs = [] := List.length_eq_zero_iff.mp hlen
    refine ⟨?_, hdocs, ?_, ?_, by rw [hlen, Nat.add_zero], rfl, rfl⟩
    · rw [hdocs, List.map_nil, List.append_nil]
    · rw [h.nextDocID_eq, hlen]
    · rw [h.numDocsInRAM_eq, hlen]

theorem Represents.push (h : Represents M w d) :
    Represents M w.flushDocs.pushDeletes ⟨d.current, d.current⟩ := by
  have hspec := flushDocs_spec h.inv
  have hlive : liveFrom (w.flushDocs.pushDeletes.docWriter.deletesFlushed.concerns M) 0 w.flushDocs.entries =
      d.current := by
    rw [← h.current_eq, hspec.entries_eq]
    refine liveFrom_congr fun n doc _ _ => ?_
    rw [pushDeletes, DocumentsWriter.pushDeletes, hspec.deletesFlushed_eq, hspec.deletesInRAM_eq]
    exact h.inv.deletesFlushed.concerns_update h.inv.deletesInRAM
  refine ⟨⟨?_, ?_, BufferedDeletes.within_empty, ?_⟩, ?_, ?_, hlive⟩
  · exact hspec.nextDocID_eq.trans (congrArg List.length hspec.docs_eq.symm)
  · exact hspec.numDocsInRAM_eq.trans (congrArg List.length hspec.docs_eq.symm)
  · have hwithin := h.inv.deletesFlushed.update h.inv.deletesInRAM (Nat.le_add_right _ _)
    rw [← hspec.flushedDocCount_eq, ← hspec.deletesFlushed_eq, ← hspec.deletesInRAM_eq] at hwithin
    exact hwithin
  · calc w.flushDocs.docWriter.flushedDocCount
        = w.entries.length + w.docWriter.docs.length := by
          rw [hspec.flushedDocCount_eq, h.flushedDocCount_eq]
      _ = w.flushDocs.entries.length := by rw [hspec.entries_eq, length_buffered]
  · have hnone : w.flushDocs.pushDeletes.docWriter.docs.map (fun doc => (doc, false)) = [] :=
      congrArg _ hspec.docs_eq
    rw [hnone, List.append_nil, ← hlive]
    exact liveFrom_congr fun n doc _ _ => Bool.or_false _

/-- What applying the deletes leaves: the same documents, with no pushed deletes. -/
theorem Represents.applyDeletes (h : Represents M w d) :
    ∃ w', w.applyDeletes M = some w' ∧ Represents M w' d ∧
      w'.docWriter.docs = w.docWriter.docs ∧ w'.docWriter.deletesInRAM = w.docWriter.deletesInRAM ∧
      w'.docWriter.deletesFlushed.any = false := by
  unfold BufferedIndex.applyDeletes DocumentsWriter.applyDeletes
  cases hany : w.docWriter.deletesFlushed.any with
  | false => exact ⟨w, rfl, h, rfl, rfl, hany⟩
  | true =>
      obtain ⟨segmentInfos', happly, hentries⟩ :=
        applyDeletesFrom_spec (M := M) w.docWriter.deletesFlushed 0 w.segmentInfos
      rw [Bool.not_true, if_neg Bool.false_ne_true, happly]
      refine ⟨_, rfl, ⟨⟨h.inv.nextDocID_eq, h.inv.numDocsInRAM_eq, h.inv.deletesInRAM,
        BufferedDeletes.within_empty⟩, ?_, ?_, ?_⟩, rfl, rfl, rfl⟩
      · rw [entries, hentries, length_markFrom]
        exact h.flushedDocCount_eq
      · rw [entries, hentries, ← h.current_eq, liveFrom_append, liveFrom_append, liveFrom_markFrom,
          length_markFrom]
        refine congrArg _ (liveFrom_congr fun n doc hn _ => ?_)
        -- pushed deletes do not concern the documents in RAM
        rw [Nat.zero_add, ← entries, ← h.flushedDocCount_eq] at hn
        rw [DocumentsWriter.dead, DocumentsWriter.dead, h.inv.deletesFlushed.concerns_eq_false hn]
        rfl
      · rw [entries, hentries, ← h.flushed_eq, liveFrom_markFrom]
        exact liveFrom_congr fun n doc _ _ => Bool.or_false _

theorem Represents.step (h : Represents M w d) {op : Op Doc Term Query} (hlegal : Legal w op)
    (hnone : NothingPushed w op) :
    ∃ w', BufferedIndex.step M w op = some w' ∧ Represents M w' (d.step M op) := by
  cases op with
  | updateDocument doc delTerm processed => exact ⟨_, rfl, h.updateDocument doc delTerm hnone⟩
  | deleteTerms terms =>
      exact ⟨_, rfl, h.buffers (DocumentsWriter.bufferDeleteTerms_spec h.inv terms)⟩
  | deleteQueries queries =>
      exact ⟨_, rfl, h.buffers (DocumentsWriter.bufferDeleteQueries_spec h.inv queries)⟩
  | flush flushDeletes =>
      cases flushDeletes with
      | false => exact ⟨_, rfl, h.push⟩
      | true =>
          obtain ⟨w', happly, hw', -⟩ := h.push.applyDeletes
          exact ⟨w', happly, hw'⟩
  | failedFlush => exact ⟨_, rfl, h.abort (hnone rfl)⟩
  | pushDeletes =>
      have hsame : w.flushDocs = w := if_neg (Nat.not_lt.mpr hlegal.le)
      have hpush := h.push
      rw [hsame] at hpush
      exact ⟨_, rfl, hpush⟩
  | applyDeletes =>
      obtain ⟨w', happly, hw', -⟩ := h.applyDeletes
      exact ⟨w', happly, hw'⟩

theorem Represents.liveDocs_eq (h : Represents M w d) (hdocs : w.docWriter.docs = [])
    (hram : w.docWriter.deletesInRAM = .empty) (hflushed : w.docWriter.deletesFlushed.any = false) :
    w.liveDocs = d.current := by
  rw [← h.current_eq, hdocs, List.map_nil, List.append_nil, liveDocs, ← entries, ← liveFrom_false]
  refine liveFrom_congr fun n doc _ _ => ?_
  rw [DocumentsWriter.dead, BufferedDeletes.concerns_of_not_any hflushed, hram]
  rfl

theorem Represents.flush (h : Represents M w d) :
    ∃ w', w.flush M true = some w' ∧ w'.liveDocs = d.current := by
  obtain ⟨w', happly, hw', hdocs, hram, hflushed⟩ := h.push.applyDeletes
  exact ⟨w', happly, hw'.liveDocs_eq (hdocs.trans (flushDocs_spec h.inv).docs_eq) hram hflushed⟩

theorem Represents.run {ops : List (Op Doc Term Query)} (h : Represents M w d)
    (hlegal : Runs.Legal (BufferedIndex.step M) (fun w op => Legal w op ∧ NothingPushed w op) w ops) :
    ∃ w', Runs.run (BufferedIndex.step M) w ops = some w' ∧
      Represents M w' (ops.foldl (Documents.step M) d) := by
  induction ops generalizing w d with
  | nil => exact ⟨w, rfl, h⟩
  | cons op ops ih =>
      obtain ⟨w₁, hstep, h₁⟩ := h.step hlegal.1.1 hlegal.1.2
      obtain ⟨w', hrun, h'⟩ := ih h₁ (hlegal.2 w₁ hstep)
      exact ⟨w', Runs.run_cons_eq_some.mpr ⟨w₁, hstep, hrun⟩, h'⟩

/-- Whatever calls are made on an index, a flush that applies the deletes leaves the documents that the
calls say, one after the other, where an abort takes back the calls since the last flush. -/
theorem liveDocs_flush_eq {segmentInfos : List (Segment Doc)} {ops : List (Op Doc Term Query)}
    (hlegal : Runs.Legal (BufferedIndex.step M) (fun w op => Legal w op ∧ NothingPushed w op)
      (opened segmentInfos) ops) :
    ∃ w, Runs.run (BufferedIndex.step M) (opened segmentInfos) ops = some w ∧
      ∃ w', w.flush M true = some w' ∧ w'.liveDocs = (ops.foldl (Documents.step M)
        ⟨(opened segmentInfos : BufferedIndex Doc Term Query).liveDocs,
          (opened segmentInfos : BufferedIndex Doc Term Query).liveDocs⟩).current := by
  obtain ⟨w, hrun, h⟩ := (represents_opened segmentInfos).run hlegal
  exact ⟨w, hrun, h.flush⟩

/-! ### Numbers as documents -/

instance (w : BufferedIndex Doc Term Query) (op : Op Doc Term Query) : Decidable (Legal w op) := by
  cases op <;> unfold Legal <;> infer_instance

instance (w : BufferedIndex Doc Term Query) (op : Op Doc Term Query) :
    Decidable (NothingPushed w op) := by
  unfold NothingPushed
  infer_instance

/-- A term is a last digit, and a query a lower bound. -/
def digits : Matching Nat Nat Nat := ⟨fun term doc => doc % 10 == term, fun query doc => query ≤ doc⟩

theorem liveDocs_flush_eq_digits :
    ∃ w, Runs.run (BufferedIndex.step digits) (opened [])
        [.updateDocument 11 none .done, .updateDocument 12 none .done, .updateDocument 21 (some 1) .done,
          .flush true, .updateDocument 31 none .done, .updateDocument 41 (some 2) .aborting,
          .deleteQueries [20], .updateDocument 51 none .done] = some w ∧
      ∃ w', w.flush digits true = some w' ∧ w'.liveDocs = [12, 51] :=
  liveDocs_flush_eq (by decide)

/-- A document is gone although nothing deleted it: the next one aborted. -/
theorem aborted_docs_not_live :
    Runs.Legal (BufferedIndex.step digits) Legal (opened [])
        [.updateDocument 11 none .done, .updateDocument 12 none .aborting] ∧
      ∃ w, Runs.run (BufferedIndex.step digits) (opened [])
          [.updateDocument 11 none .done, .updateDocument 12 none .aborting] = some w ∧
        ∃ w', w.flush digits true = some w' ∧ w'.liveDocs ≠
          [.updateDocument 11 none .done, .updateDocument 12 none .aborting].foldl
            (sequential digits) [] :=
  ⟨by decide, _, rfl, _, rfl, by decide⟩

end BufferedIndex
end LucenePlusPlus
