import Mathlib.Data.List.Basic
import Mathlib.Data.Int.Basic

/-!
`SegmentTermDocs` and `SegmentTermPositions`: reading the documents of a term that are not deleted, with their
positions. An entry of the freq stream is a document, as the difference to the one before, and a frequency; an
entry of the prox stream is a position, as the difference to the one before it in the document, and its payload.
Positions that are not asked for are skipped when the next one is.
-/

namespace LucenePlusPlus

abbrev Payload := List UInt8

/-- A document of a term, with its positions. -/
structure Posting where
  doc : Nat
  positions : List (Int × Payload)
deriving DecidableEq

namespace Posting

/-- The entries of the freq stream. -/
def freqEntries : Nat → List Posting → List (Nat × Nat)
  | _, [] => []
  | lastDoc, posting :: postings =>
      (posting.doc - lastDoc, posting.positions.length) :: freqEntries posting.doc postings

/-- The entries of the prox stream for one document. -/
def deltas : Int → List (Int × Payload) → List (Int × Payload)
  | _, [] => []
  | lastPosition, (position, payload) :: positions =>
      (position - lastPosition, payload) :: deltas position positions

def proxEntries (postings : List Posting) : List (Int × Payload) :=
  postings.flatMap fun posting => deltas 0 posting.positions

@[simp] theorem length_deltas (lastPosition : Int) (positions : List (Int × Payload)) :
    (deltas lastPosition positions).length = positions.length := by
  induction positions generalizing lastPosition with
  | nil => rfl
  | cons position positions ih => rw [deltas, List.length_cons, ih, List.length_cons]

end Posting

/-- `freqStream` and `proxStream` are what is left of the streams. -/
structure SegmentTermPositions where
  currentFieldOmitTermFreqAndPositions : Bool
  currentFieldStoresPayloads : Bool
  freqStream : List (Nat × Nat)
  doc : Nat
  freq : Nat
  proxStream : List (Int × Payload)
  proxCount : Nat
  lazySkipProxCount : Nat
  position : Int
  payload : Payload

namespace SegmentTermPositions
open Posting

/-- `seek` to a term with these postings. -/
def seek (omitTermFreqAndPositions storePayloads : Bool) (postings : List Posting) :
    SegmentTermPositions where
  currentFieldOmitTermFreqAndPositions := omitTermFreqAndPositions
  currentFieldStoresPayloads := storePayloads
  freqStream := freqEntries 0 postings
  doc := 0
  freq := 0
  proxStream := proxEntries postings
  proxCount := 0
  lazySkipProxCount := 0
  position := 0
  payload := []

/-- `SegmentTermDocs::next`, with the `skippingDoc` of `SegmentTermPositions`. -/
def nextDoc (isDeleted : Nat → Bool) (s : SegmentTermPositions) :
    List (Nat × Nat) → Option SegmentTermPositions
  | [] => none
  | (docCode, freq) :: freqStream =>
      let s := { s with
        freqStream := freqStream
        doc := s.doc + docCode
        freq := if s.currentFieldOmitTermFreqAndPositions then 1 else freq }
      if isDeleted s.doc then
        nextDoc isDeleted { s with lazySkipProxCount := s.lazySkipProxCount + s.freq } freqStream
      else some s

def next (isDeleted : Nat → Bool) (s : SegmentTermPositions) : Option SegmentTermPositions :=
  (nextDoc isDeleted { s with lazySkipProxCount := s.lazySkipProxCount + s.proxCount } s.freqStream).map
    fun s => { s with proxCount := s.freq, position := 0 }

/-- `none` is a read past the end of the stream. -/
def nextPosition (s : SegmentTermPositions) : Option (Int × SegmentTermPositions) :=
  if s.currentFieldOmitTermFreqAndPositions then some (0, s)
  else
    match s.proxStream.drop s.lazySkipProxCount with
    | [] => none
    | (delta, payload) :: proxStream => some (s.position + delta,
        { s with
          proxStream := proxStream
          lazySkipProxCount := 0
          proxCount := s.proxCount - 1
          position := s.position + delta
          payload := if s.currentFieldStoresPayloads then payload else [] })

/-- `n` calls of `nextPosition`, each followed by one of `getPayload`. -/
def readPositions : Nat → SegmentTermPositions → Option (List (Int × Payload) × SegmentTermPositions)
  | 0, s => some ([], s)
  | n + 1, s => do
      let (position, s) ← s.nextPosition
      let (positions, s') ← readPositions n s
      return ((position, s.payload) :: positions, s')

/-- The streams are before `postings`, once the positions that are left of the current document are
skipped. -/
structure Before (s : SegmentTermPositions) (postings : List Posting) : Prop where
  freqStream_eq : s.freqStream = freqEntries s.doc postings
  proxStream_eq : s.currentFieldOmitTermFreqAndPositions = false →
    s.proxStream.drop (s.lazySkipProxCount + s.proxCount) = proxEntries postings

/-- The stream of a field that does not store payloads has none. -/
def Stored (storePayloads : Bool) (positions : List (Int × Payload)) : Prop :=
  storePayloads = false → ∀ position ∈ positions, position.2 = []

theorem before_seek (omitTermFreqAndPositions storePayloads : Bool) (postings : List Posting) :
    Before (seek omitTermFreqAndPositions storePayloads postings) postings :=
  ⟨rfl, fun _ => rfl⟩

section Reading
variable {isDeleted : Nat → Bool} {s s' : SegmentTermPositions} {posting : Posting} {postings rest : List Posting}

/-- The documents of a term, from the one that is read last. -/
structure Ascending (lastDoc : Nat) (postings : List Posting) : Prop where
  le : ∀ posting ∈ postings, lastDoc ≤ posting.doc
  sorted : postings.Pairwise fun posting posting' => posting.doc < posting'.doc

theorem Ascending.tail {lastDoc : Nat} (h : Ascending lastDoc (posting :: postings)) :
    Ascending posting.doc postings where
  le posting' hmem := Nat.le_of_lt ((List.pairwise_cons.mp h.sorted).1 posting' hmem)
  sorted := (List.pairwise_cons.mp h.sorted).2

/-- The document `posting` has been read, and none of its positions; `rest` is to come. -/
structure At (s : SegmentTermPositions) (posting : Posting) (rest : List Posting) : Prop where
  freqStream_eq : s.freqStream = freqEntries s.doc rest
  doc_eq : s.doc = posting.doc
  freq_eq : s.freq = if s.currentFieldOmitTermFreqAndPositions then 1 else posting.positions.length
  proxCount_eq : s.proxCount = s.freq
  position_eq : s.position = 0
  proxStream_eq : s.currentFieldOmitTermFreqAndPositions = false →
    s.proxStream.drop s.lazySkipProxCount = deltas 0 posting.positions ++ proxEntries rest

/-- The field whose terms are read stays the same. -/
structure SameField (s s' : SegmentTermPositions) : Prop where
  omit_eq : s'.currentFieldOmitTermFreqAndPositions = s.currentFieldOmitTermFreqAndPositions
  payloads_eq : s'.currentFieldStoresPayloads = s.currentFieldStoresPayloads

theorem SameField.trans {s₁ s₂ s₃ : SegmentTermPositions} (h : SameField s₁ s₂) (h' : SameField s₂ s₃) :
    SameField s₁ s₃ :=
  ⟨h'.omit_eq.trans h.omit_eq, h'.payloads_eq.trans h.payloads_eq⟩

theorem nextDoc_spec (hasc : Ascending s.doc postings)
    (hprox : s.currentFieldOmitTermFreqAndPositions = false →
      s.proxStream.drop s.lazySkipProxCount = proxEntries postings) :
    (nextDoc isDeleted s (freqEntries s.doc postings) = none ∧
        postings.filter (fun p => !isDeleted p.doc) = []) ∨
      ∃ s' posting rest, nextDoc isDeleted s (freqEntries s.doc postings) = some s' ∧
        postings.filter (fun p => !isDeleted p.doc) =
          posting :: rest.filter (fun p => !isDeleted p.doc) ∧
        Ascending posting.doc rest ∧ posting :: rest <:+ postings ∧ SameField s s' ∧
        At { s' with proxCount := s'.freq, position := 0 } posting rest := by
  induction postings generalizing s with
  | nil => exact Or.inl ⟨rfl, rfl⟩
  | cons first postings ih =>
      have hdoc : s.doc + (first.doc - s.doc) = first.doc :=
        Nat.add_sub_cancel' (hasc.le first List.mem_cons_self)
      simp only [freqEntries, nextDoc, hdoc]
      split
      case isTrue hdeleted =>
        have hrest := ih (s := { s with
          freqStream := freqEntries first.doc postings
          doc := first.doc
          freq := if s.currentFieldOmitTermFreqAndPositions then 1 else first.positions.length
          lazySkipProxCount := s.lazySkipProxCount +
            if s.currentFieldOmitTermFreqAndPositions then 1 else first.positions.length })
          hasc.tail (fun homit => by
            dsimp only at homit ⊢
            rw [homit, if_neg Bool.false_ne_true, ← List.drop_drop, hprox homit, proxEntries, List.flatMap_cons,
              List.drop_left' (length_deltas _ _)]
            rfl)
        rw [List.filter_cons_of_neg (by simp [hdeleted])]
        rcases hrest with ⟨hnone, hfilter⟩ | ⟨s', posting, rest, hsome, hfilter, hasc', hsuffix, hsame, hat⟩
        · exact Or.inl ⟨hnone, hfilter⟩
        · exact Or.inr ⟨s', posting, rest, hsome, hfilter, hasc', hsuffix.trans (List.suffix_cons _ _),
            ⟨hsame.omit_eq, hsame.payloads_eq⟩, hat⟩
      case isFalse hlive =>
        refine Or.inr ⟨_, first, postings, rfl, List.filter_cons_of_pos (by simp [hlive]), hasc.tail,
          List.suffix_refl _, ⟨rfl, rfl⟩, ⟨rfl, rfl, rfl, rfl, rfl, fun homit => ?_⟩⟩
        exact (hprox homit).trans List.flatMap_cons

theorem next_spec (h : Before s postings) (hasc : Ascending s.doc postings) :
    (s.next isDeleted = none ∧ postings.filter (fun p => !isDeleted p.doc) = []) ∨
      ∃ s' posting rest, s.next isDeleted = some s' ∧
        postings.filter (fun p => !isDeleted p.doc) =
          posting :: rest.filter (fun p => !isDeleted p.doc) ∧
        Ascending posting.doc rest ∧ posting :: rest <:+ postings ∧ SameField s s' ∧
        At s' posting rest := by
  have hstream := congrArg
    (nextDoc isDeleted { s with lazySkipProxCount := s.lazySkipProxCount + s.proxCount }) h.freqStream_eq
  rcases nextDoc_spec (s := { s with lazySkipProxCount := s.lazySkipProxCount + s.proxCount }) hasc
    h.proxStream_eq with
    ⟨hnone, hfilter⟩ | ⟨s', posting, rest, hsome, hfilter, hasc', hsuffix, hsame, hat⟩
  · refine Or.inl ⟨?_, hfilter⟩
    rw [next, hstream, hnone]
    rfl
  · refine Or.inr ⟨{ s' with proxCount := s'.freq, position := 0 }, posting, rest, ?_, hfilter, hasc',
      hsuffix, ⟨hsame.omit_eq, hsame.payloads_eq⟩, hat⟩
    rw [next, hstream, hsome]
    rfl

/-- Where the field is omitted the positions stay unread, and are skipped when the next document is read. -/
theorem At.before {s : SegmentTermPositions} {posting : Posting} {rest : List Posting}
    (h : At s posting rest) : Before s rest where
  freqStream_eq := h.freqStream_eq
  proxStream_eq homit := by
    have hcount : s.proxCount = (deltas 0 posting.positions).length := by
      rw [h.proxCount_eq, h.freq_eq, if_neg (Bool.eq_false_iff.mp homit), length_deltas]
    rw [← List.drop_drop, h.proxStream_eq homit, hcount, List.drop_left' rfl]

theorem readPositions_spec {positions : List (Int × Payload)} {entries : List (Int × Payload)}
    (homit : s.currentFieldOmitTermFreqAndPositions = false)
    (hstored : Stored s.currentFieldStoresPayloads positions) (hcount : s.proxCount = positions.length)
    (hprox : s.proxStream.drop s.lazySkipProxCount = deltas s.position positions ++ entries) :
    ∃ s', readPositions positions.length s = some (positions, s') ∧ SameField s s' ∧ s'.doc = s.doc ∧
      s'.freqStream = s.freqStream ∧ s'.proxStream.drop (s'.lazySkipProxCount + s'.proxCount) = entries := by
  induction positions generalizing s with
  | nil =>
      refine ⟨s, rfl, ⟨rfl, rfl⟩, rfl, rfl, ?_⟩
      rw [hcount]
      exact hprox
  | cons first positions ih =>
      obtain ⟨position, payload⟩ := first
      have hpayload : (if s.currentFieldStoresPayloads then payload else []) = payload := by
        split
        case isTrue => rfl
        case isFalse hnot =>
          exact (hstored (Bool.eq_false_iff.mpr hnot) (position, payload) List.mem_cons_self).symm
      have hposition : s.position + (position - s.position) = position := by omega
      have hnext : s.nextPosition = some (position, { s with
          proxStream := deltas position positions ++ entries
          lazySkipProxCount := 0
          proxCount := s.proxCount - 1
          position := position
          payload := payload }) := by
        rw [nextPosition, if_neg (Bool.eq_false_iff.mp homit), hprox]
        simp only [deltas, List.cons_append, hpayload, hposition]
      obtain ⟨s', hread, hsame, hdoc, hfreq, hrest⟩ := ih (s := { s with
          proxStream := deltas position positions ++ entries
          lazySkipProxCount := 0
          proxCount := s.proxCount - 1
          position := position
          payload := payload }) homit
        (fun hnot p hp => hstored hnot p (List.mem_cons_of_mem _ hp)) (by rw [hcount]; rfl) rfl
      refine ⟨s', ?_, ⟨hsame.omit_eq, hsame.payloads_eq⟩, hdoc, hfreq, hrest⟩
      rw [List.length_cons, readPositions, hnext]
      simp only [Option.bind_eq_bind, Option.bind_some, hread]
      rfl

end Reading

end SegmentTermPositions
end LucenePlusPlus
