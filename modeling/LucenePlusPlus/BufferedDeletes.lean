import LucenePlusPlus.SegmentReader
import Mathlib.Data.List.AList

/-!
`BufferedDeletes`: deletes by term, by query and by document number that have not been applied yet. A
delete by term or query carries a bound: it concerns documents with a smaller number only. Applying the
deletes to a segment, whose documents have numbers from `docIDStart` on, deletes exactly the documents
they concern.
-/

namespace LucenePlusPlus

/-- Which documents a term or a query matches. -/
structure Matching (Doc Term Query : Type) where
  hasTerm : Term → Doc → Bool
  hits : Query → Doc → Bool

/-- A map with one bound for a key. -/
abbrev Limits (Key : Type) := AList fun _ : Key => Nat

structure BufferedDeletes (Term Query : Type) where
  terms : Limits Term
  queries : Limits Query
  docIDs : List Nat

/-- A flushed segment, with the reader that holds its deleted documents. -/
structure Segment (Doc : Type) where
  docs : List Doc
  reader : SegmentReader
  size_eq : docs.length = reader.maxDoc

namespace SegmentReader

theorem maxDoc_doDelete {r r' : SegmentReader} {docNum : Nat} (h : r.doDelete docNum = some r') :
    r'.maxDoc = r.maxDoc := by
  unfold doDelete at h
  split at h
  · cases h
  · cases h
    rfl

theorem isDeleted_doDelete {r r' : SegmentReader} {docNum : Nat} (hlt : docNum < r.maxDoc)
    (h : r.doDelete docNum = some r') (n : Nat) :
    r'.isDeleted n = true ↔ r.isDeleted n = true ∨ n = docNum := by
  obtain ⟨r₁, hr₁, -, -, hbits⟩ := r.doDelete_spec hlt
  cases h.symm.trans hr₁
  have hsize : docNum < r.writableDeletedDocs.bits.length := by
    rw [← size_writableDeletedDocs r] at hlt
    exact hlt
  rw [isDeleted_eq_get, isDeleted_eq_get, BitVector.get, BitVector.get, hbits,
    List.getD_eq_getElem?_getD, List.getD_eq_getElem?_getD, List.getElem?_set]
  rcases eq_or_ne n docNum with rfl | hne
  · simp [hsize]
  · simp [hne, hne.symm]

end SegmentReader

namespace Segment
variable {Doc : Type}

def new (docs : List Doc) : Segment Doc := ⟨docs, .fresh docs.length, rfl⟩

def deleteDocument (s : Segment Doc) (docNum : Nat) : Option (Segment Doc) :=
  match h : s.reader.doDelete docNum with
  | none => none
  | some reader => some ⟨s.docs, reader, s.size_eq.trans (SegmentReader.maxDoc_doDelete h).symm⟩

/-- The documents that are not deleted and that `p` accepts, in increasing order. -/
def matching (s : Segment Doc) (p : Doc → Bool) : List Nat :=
  (List.range s.docs.length).filter fun n => !s.reader.isDeleted n && s.docs[n]?.any p

/-- The loop over the documents of a term or of a query, which ends at the bound. -/
def deleteMatching (docIDStart limit : Nat) : List Nat → Segment Doc → Option (Segment Doc)
  | [], s => some s
  | docID :: rest, s =>
      if limit ≤ docIDStart + docID then some s
      else (s.deleteDocument docID).bind (deleteMatching docIDStart limit rest)

/-- From `s` to `s'`, exactly the documents of which `P` holds are deleted. -/
structure Deletes (P : Nat → Doc → Prop) (s s' : Segment Doc) : Prop where
  docs_eq : s'.docs = s.docs
  isDeleted : ∀ n doc, s.docs[n]? = some doc →
    (s'.reader.isDeleted n = true ↔ s.reader.isDeleted n = true ∨ P n doc)

variable {s s' : Segment Doc} {P Q : Nat → Doc → Prop}

theorem Deletes.refl (s : Segment Doc) (h : ∀ n doc, ¬ P n doc) : Deletes P s s :=
  ⟨rfl, fun n doc _ => by simp [h n doc]⟩

theorem Deletes.trans {s₁ s₂ s₃ : Segment Doc} (h₁ : Deletes P s₁ s₂) (h₂ : Deletes Q s₂ s₃) :
    Deletes (fun n doc => P n doc ∨ Q n doc) s₁ s₃ where
  docs_eq := h₂.docs_eq.trans h₁.docs_eq
  isDeleted n doc hdoc := by
    rw [h₂.isDeleted n doc (h₁.docs_eq ▸ hdoc), h₁.isDeleted n doc hdoc, or_assoc]

theorem Deletes.congr (h : Deletes P s s') (hPQ : ∀ n doc, s.docs[n]? = some doc →
    s.reader.isDeleted n = false → (P n doc ↔ Q n doc)) : Deletes Q s s' where
  docs_eq := h.docs_eq
  isDeleted n doc hdoc := by
    rw [h.isDeleted n doc hdoc]
    cases hdel : s.reader.isDeleted n with
    | true => simp
    | false => simp [hPQ n doc hdoc hdel]

theorem lt_maxDoc {n : Nat} (hlt : n < s.docs.length) : n < s.reader.maxDoc := s.size_eq ▸ hlt

theorem deleteDocument_spec {docNum : Nat} (hlt : docNum < s.docs.length) :
    ∃ s', s.deleteDocument docNum = some s' ∧ Deletes (fun n _ => n = docNum) s s' := by
  unfold deleteDocument
  split
  · rename_i hnone
    obtain ⟨r, hr, -⟩ := s.reader.doDelete_spec (lt_maxDoc hlt)
    rw [hr] at hnone
    cases hnone
  · rename_i reader hsome
    exact ⟨_, rfl, rfl, fun n _ _ => SegmentReader.isDeleted_doDelete (lt_maxDoc hlt) hsome n⟩

theorem mem_matching {p : Doc → Bool} {n : Nat} {doc : Doc} (hdoc : s.docs[n]? = some doc) :
    n ∈ s.matching p ↔ s.reader.isDeleted n = false ∧ p doc = true := by
  have hlt : n < s.docs.length := (List.getElem?_eq_some_iff.mp hdoc).1
  rw [matching, List.mem_filter, List.mem_range, hdoc]
  simp only [hlt, true_and, Option.any_some, Bool.and_eq_true, Bool.not_eq_true']

theorem pairwise_matching (s : Segment Doc) (p : Doc → Bool) : (s.matching p).Pairwise (· < ·) :=
  List.pairwise_lt_range.filter _

theorem lt_of_mem_matching {p : Doc → Bool} {n : Nat} (h : n ∈ s.matching p) : n < s.docs.length :=
  List.mem_range.mp (List.mem_filter.mp h).1

/-- Since the documents come in increasing order, none is missed behind the bound. -/
theorem deleteMatching_spec {docIDStart limit : Nat} {docIDs : List Nat}
    (hsorted : docIDs.Pairwise (· < ·)) (hlt : ∀ n ∈ docIDs, n < s.docs.length) :
    ∃ s', deleteMatching docIDStart limit docIDs s = some s' ∧
      Deletes (fun n _ => n ∈ docIDs ∧ docIDStart + n < limit) s s' := by
  induction docIDs generalizing s with
  | nil => exact ⟨s, rfl, .refl s (by simp)⟩
  | cons docID rest ih =>
      obtain ⟨hfirst, hrest⟩ := List.pairwise_cons.mp hsorted
      rw [deleteMatching]
      split
      · rename_i hlimit
        refine ⟨s, rfl, .refl s fun n _ ⟨hmem, hn⟩ => ?_⟩
        rcases List.mem_cons.mp hmem with rfl | hmem
        · omega
        · have := hfirst n hmem
          omega
      · rename_i hlimit
        obtain ⟨s₁, hdelete, h₁⟩ := deleteDocument_spec (hlt docID List.mem_cons_self)
        obtain ⟨s', hloop, h'⟩ := ih (s := s₁) hrest fun n hn =>
          h₁.docs_eq ▸ hlt n (List.mem_cons_of_mem _ hn)
        refine ⟨s', by rw [hdelete]; exact hloop, (h₁.trans h').congr fun n _ _ _ => ?_⟩
        rw [List.mem_cons]
        constructor
        · rintro (rfl | ⟨hmem, hn⟩)
          · exact ⟨Or.inl rfl, by omega⟩
          · exact ⟨Or.inr hmem, hn⟩
        · rintro ⟨rfl | hmem, hn⟩
          · exact Or.inl rfl
          · exact Or.inr ⟨hmem, hn⟩

theorem deleteMatching_matching (s : Segment Doc) (docIDStart limit : Nat) (p : Doc → Bool) :
    ∃ s', deleteMatching docIDStart limit (s.matching p) s = some s' ∧
      Deletes (fun n doc => p doc = true ∧ docIDStart + n < limit) s s' := by
  obtain ⟨s', hloop, h⟩ := deleteMatching_spec (s.pairwise_matching p) fun n => lt_of_mem_matching
  refine ⟨s', hloop, h.congr fun n doc hdoc hdel => ?_⟩
  rw [mem_matching hdoc]
  simp [hdel]

theorem foldlM_spec {α : Type} {step : Segment Doc → α → Option (Segment Doc)}
    {R : α → Nat → Doc → Prop} (hstep : ∀ s a, ∃ s', step s a = some s' ∧ Deletes (R a) s s')
    (as : List α) (s : Segment Doc) :
    ∃ s', as.foldlM step s = some s' ∧ Deletes (fun n doc => ∃ a ∈ as, R a n doc) s s' := by
  induction as generalizing s with
  | nil => exact ⟨s, rfl, .refl s (by simp)⟩
  | cons a as ih =>
      obtain ⟨s₁, hs₁, h₁⟩ := hstep s a
      obtain ⟨s', hs', h'⟩ := ih s₁
      refine ⟨s', ?_, (h₁.trans h').congr fun n doc _ _ => ?_⟩
      · rw [List.foldlM_cons, hs₁]
        exact hs'
      · rw [List.exists_mem_cons_iff]

end Segment

namespace Limits
variable {Key : Type} {m other : Limits Key} {p : Key → Bool} {n limit : Nat}

/-- A key that `p` accepts has a bound above `n`. -/
def covers (m : Limits Key) (p : Key → Bool) (n : Nat) : Bool :=
  m.entries.any fun e => p e.1 && n < e.2

variable [DecidableEq Key]

theorem covers_iff :
    m.covers p n = true ↔ ∃ key limit, m.lookup key = some limit ∧ p key = true ∧ n < limit := by
  simp only [covers, List.any_eq_true, Bool.and_eq_true, decide_eq_true_eq]
  constructor
  · rintro ⟨⟨key, limit⟩, hmem, hp, hn⟩
    exact ⟨key, limit, AList.mem_lookup_iff.mpr hmem, hp, hn⟩
  · rintro ⟨key, limit, hlookup, hp, hn⟩
    exact ⟨⟨key, limit⟩, AList.mem_lookup_iff.mp hlookup, hp, hn⟩

theorem covers_insert {key : Key} (h : ∀ old ∈ m.lookup key, old ≤ limit) :
    covers (m.insert key limit) p n = (m.covers p n || (p key && decide (n < limit))) := by
  rw [Bool.eq_iff_iff, Bool.or_eq_true, covers_iff, covers_iff, Bool.and_eq_true, decide_eq_true_eq]
  constructor
  · rintro ⟨key', limit', hlookup, hp, hn⟩
    rcases eq_or_ne key' key with rfl | hne
    · rw [AList.lookup_insert] at hlookup
      cases hlookup
      exact Or.inr ⟨hp, hn⟩
    · rw [AList.lookup_insert_ne hne] at hlookup
      exact Or.inl ⟨key', limit', hlookup, hp, hn⟩
  · rintro (⟨key', limit', hlookup, hp, hn⟩ | ⟨hp, hn⟩)
    · rcases eq_or_ne key' key with rfl | hne
      · exact ⟨key', limit, AList.lookup_insert m, hp, by have := h limit' hlookup; omega⟩
      · exact ⟨key', limit', by rwa [AList.lookup_insert_ne hne], hp, hn⟩
    · exact ⟨key, limit, AList.lookup_insert m, hp, hn⟩

theorem covers_union
    (h : ∀ key old new, m.lookup key = some old → other.lookup key = some new → old ≤ new) :
    covers (other ∪ m) p n = (m.covers p n || other.covers p n) := by
  rw [Bool.eq_iff_iff, Bool.or_eq_true, covers_iff, covers_iff, covers_iff]
  simp only [AList.lookup_union_eq_some]
  constructor
  · rintro ⟨key, limit, hlookup | ⟨-, hlookup⟩, hp, hn⟩
    · exact Or.inr ⟨key, limit, hlookup, hp, hn⟩
    · exact Or.inl ⟨key, limit, hlookup, hp, hn⟩
  · rintro (⟨key, limit, hlookup, hp, hn⟩ | ⟨key, limit, hlookup, hp, hn⟩)
    · cases hnew : other.lookup key with
      | none => exact ⟨key, limit, Or.inr ⟨AList.lookup_eq_none.mp hnew, hlookup⟩, hp, hn⟩
      | some new =>
          have := h key limit new hlookup hnew
          exact ⟨key, new, Or.inl hnew, hp, by omega⟩
    · exact ⟨key, limit, Or.inl hlookup, hp, hn⟩

theorem covers_eq_false (h : ∀ key limit, m.lookup key = some limit → limit ≤ n) :
    m.covers p n = false := by
  rw [← Bool.not_eq_true, covers_iff]
  rintro ⟨key, limit, hlookup, -, hn⟩
  have := h key limit hlookup
  omega

end Limits

namespace BufferedDeletes
variable {Doc Term Query : Type}

def empty : BufferedDeletes Term Query := ⟨∅, ∅, []⟩

/-- `any()`. -/
def any (d : BufferedDeletes Term Query) : Bool :=
  !d.terms.entries.isEmpty || !d.docIDs.isEmpty || !d.queries.entries.isEmpty

/-- `putAll` replaces the bounds of keys that both have. -/
def update [DecidableEq Term] [DecidableEq Query] (d other : BufferedDeletes Term Query) :
    BufferedDeletes Term Query where
  terms := other.terms ∪ d.terms
  queries := other.queries ∪ d.queries
  docIDs := d.docIDs ++ other.docIDs

/-- `applyDeletes(reader, docIDStart)`: by term, by document number, by query. Terms are not taken in their
order, which makes no difference. -/
def applyTo (d : BufferedDeletes Term Query) (M : Matching Doc Term Query) (docIDStart : Nat)
    (s : Segment Doc) : Option (Segment Doc) := do
  let s ← d.terms.entries.foldlM (fun s e =>
    s.deleteMatching docIDStart e.2 (s.matching (M.hasTerm e.1))) s
  let s ← d.docIDs.foldlM (fun s docID =>
    if docIDStart ≤ docID ∧ docID < docIDStart + s.reader.maxDoc then
      s.deleteDocument (docID - docIDStart) else some s) s
  d.queries.entries.foldlM (fun s e => s.deleteMatching docIDStart e.2 (s.matching (M.hits e.1))) s

/-- The deletes concern the document `doc` with number `n`. -/
def concerns (d : BufferedDeletes Term Query) (M : Matching Doc Term Query) (n : Nat) (doc : Doc) :
    Bool :=
  d.terms.covers (M.hasTerm · doc) n || d.docIDs.contains n || d.queries.covers (M.hits · doc) n

theorem deleteDocID_spec (docIDStart docID : Nat) (s : Segment Doc) :
    ∃ s', (if docIDStart ≤ docID ∧ docID < docIDStart + s.reader.maxDoc then
        s.deleteDocument (docID - docIDStart) else some s) = some s' ∧
      s.Deletes (fun n _ => docIDStart + n = docID) s' := by
  split
  · rename_i hrange
    rw [← s.size_eq] at hrange
    obtain ⟨s', hdelete, h⟩ := @Segment.deleteDocument_spec
      _ s (docID - docIDStart) (by omega)
    exact ⟨s', hdelete, h.congr fun n _ _ _ => by omega⟩
  · rename_i hrange
    refine ⟨s, rfl, rfl, fun n doc hdoc => ⟨Or.inl, ?_⟩⟩
    have hlt := Segment.lt_maxDoc (List.getElem?_eq_some_iff.mp hdoc).1
    rintro (h | h)
    · exact h
    · omega

theorem applyTo_spec (d : BufferedDeletes Term Query) (M : Matching Doc Term Query) (docIDStart : Nat)
    (s : Segment Doc) :
    ∃ s', d.applyTo M docIDStart s = some s' ∧
      s.Deletes (fun n doc => d.concerns M (docIDStart + n) doc = true) s' := by
  obtain ⟨s₁, hs₁, h₁⟩ := Segment.foldlM_spec
    (fun s (e : Sigma fun _ : Term => Nat) =>
      s.deleteMatching_matching docIDStart e.2 (M.hasTerm e.1)) d.terms.entries s
  obtain ⟨s₂, hs₂, h₂⟩ := Segment.foldlM_spec
    (fun s docID => deleteDocID_spec docIDStart docID s) d.docIDs s₁
  obtain ⟨s', hs', h'⟩ := Segment.foldlM_spec
    (fun s (e : Sigma fun _ : Query => Nat) =>
      s.deleteMatching_matching docIDStart e.2 (M.hits e.1)) d.queries.entries s₂
  refine ⟨s', ?_, ((h₁.trans h₂).trans h').congr fun n doc _ _ => ?_⟩
  · simp only [applyTo, hs₁, hs₂, hs', Option.bind_eq_bind, Option.bind_some]
  · simp [concerns, Limits.covers, or_assoc]

end BufferedDeletes
end LucenePlusPlus
