import LucenePlusPlus.RingBuffer
import LucenePlusPlus.Runs
import Mathlib

/-!
`WaitQueue`: documents are indexed by several threads and written in the order of their numbers. One that is
done before an earlier one waits in a ring buffer, in the cell of its distance (`gap`) from the next document
to be written. A document that failed, or has nothing to be written, is `skipDocWriter`, one object for all
of them, whose number changes with each.

An operation that would break an assertion of the code is `none`. The array's size, an `int32_t`, is not
bounded here.
-/

namespace LucenePlusPlus

inductive DocWriter where
  | perDoc (docID : Nat) (size : Nat)
  | skip
  deriving DecidableEq

def DocWriter.sizeInBytes : DocWriter → Int
  | .perDoc _ size => size
  | .skip => 0

/-- `MiscUtils::getNextSize`. -/
def getNextSize (targetSize : Nat) : Nat :=
  targetSize / 8 + (if targetSize < 9 then 3 else 6) + targetSize

theorem lt_getNextSize (targetSize : Nat) : targetSize < getNextSize targetSize := by
  unfold getNextSize
  split <;> omega

/-- `skipDocID` is the number of `skipDocWriter`, and `finished` says which documents were finished. -/
structure WaitQueue where
  waiting : List (Option DocWriter)
  nextWriteDocID : Nat
  nextWriteLoc : Nat
  numWaiting : Int
  waitingBytes : Int
  skipDocID : Nat
  finished : List (Nat × DocWriter)

namespace WaitQueue

def new : WaitQueue where
  waiting := List.replicate 10 none
  nextWriteDocID := 0
  nextWriteLoc := 0
  numWaiting := 0
  waitingBytes := 0
  skipDocID := 0
  finished := []

def docID (q : WaitQueue) : DocWriter → Nat
  | .perDoc docID _ => docID
  | .skip => q.skipDocID

def writeDocument (q : WaitQueue) (doc : DocWriter) : Option WaitQueue :=
  if doc = .skip ∨ q.nextWriteDocID = q.docID doc then
    if q.nextWriteLoc + 1 ≤ q.waiting.length then
      some
        { q with
          nextWriteDocID := q.nextWriteDocID + 1
          nextWriteLoc := RingBuffer.next q.waiting.length q.nextWriteLoc
          finished := q.finished ++ [(q.nextWriteDocID, doc)] }
    else none
  else none

/-- A waiting document leaves the queue. -/
def remove (q : WaitQueue) (doc : DocWriter) : WaitQueue :=
  { q with
    numWaiting := q.numWaiting - 1
    waiting := q.waiting.set q.nextWriteLoc none
    waitingBytes := q.waitingBytes - doc.sizeInBytes }

/-- The cells in use. -/
def occupied (q : WaitQueue) : Nat := q.waiting.countP Option.isSome

theorem waiting_writeDocument {q q' : WaitQueue} {doc : DocWriter} (h : q.writeDocument doc = some q') :
    q'.waiting = q.waiting := by
  unfold writeDocument at h
  split at h
  · split at h
    · cases h
      rfl
    · cases h
  · cases h

theorem occupied_remove {q : WaitQueue} {doc : DocWriter}
    (h : q.waiting[q.nextWriteLoc]? = some (some doc)) : (q.remove doc).occupied + 1 = q.occupied := by
  obtain ⟨hlt, hget⟩ := List.getElem?_eq_some_iff.mp h
  rw [remove, occupied, occupied, List.countP_set hlt, hget]
  have hpos : 0 < q.waiting.countP Option.isSome :=
    List.countP_pos_iff.mpr ⟨some doc, List.mem_of_getElem? h, rfl⟩
  simp only [Option.isSome_some, Option.isSome_none, if_true, Bool.false_eq_true, if_false]
  omega

/-- The loop of `add`: the documents that waited for this one. -/
def writeWaiting (q : WaitQueue) : Option WaitQueue :=
  match _ : q.waiting[q.nextWriteLoc]? with
  | some (some doc) =>
      match _ : (q.remove doc).writeDocument doc with
      | some q' => q'.writeWaiting
      | none => none
  | some none => some q
  | none => none
termination_by q.occupied
decreasing_by
  rename_i hget hwrite
  have hremove := occupied_remove hget
  rw [occupied, waiting_writeDocument hwrite, ← occupied]
  omega

/-- The two copies put the next document into the first cell. -/
def grow (q : WaitQueue) (gap : Nat) : WaitQueue :=
  if q.waiting.length ≤ gap then
    let newArray := List.replicate (getNextSize gap) none
    let rest := q.waiting.length - q.nextWriteLoc
    let newArray := RingBuffer.arrayCopy q.waiting q.nextWriteLoc newArray 0 rest
    let newArray := RingBuffer.arrayCopy q.waiting 0 newArray rest q.nextWriteLoc
    { q with nextWriteLoc := 0, waiting := newArray }
  else q

/-- Nobody may be in the document's cell. -/
def enqueue (q : WaitQueue) (doc : DocWriter) (gap : Nat) : Option WaitQueue :=
  let loc := RingBuffer.index q.waiting.length q.nextWriteLoc gap
  if q.waiting[loc]? = some none then
    some
      { q with
        waiting := q.waiting.set loc (some doc)
        numWaiting := q.numWaiting + 1
        waitingBytes := q.waitingBytes + doc.sizeInBytes }
  else none

def add (q : WaitQueue) (doc : DocWriter) : Option WaitQueue :=
  if q.docID doc < q.nextWriteDocID then none
  else if q.docID doc = q.nextWriteDocID then (q.writeDocument doc).bind writeWaiting
  else
    let gap := q.docID doc - q.nextWriteDocID
    (q.grow gap).enqueue doc gap

/-- After a flush; `nextWriteLoc` stays where it is. -/
def reset (q : WaitQueue) : Option WaitQueue :=
  if q.numWaiting = 0 ∧ q.waitingBytes = 0 then some { q with nextWriteDocID := 0, finished := [] }
  else none

/-- What a thread does with a document that it is done with. -/
inductive Completion where
  | finish (docID : Nat) (size : Nat)
  | skip (docID : Nat)
  deriving DecidableEq

namespace Completion

def docID : Completion → Nat
  | finish docID _ | skip docID => docID

def doc : Completion → DocWriter
  | finish docID size => .perDoc docID size
  | skip _ => .skip

end Completion

def step (q : WaitQueue) (c : Completion) : Option WaitQueue :=
  match c with
  | .finish docID size => q.add (.perDoc docID size)
  | .skip docID => { q with skipDocID := docID }.add .skip

/-- The queue after some flushes, each of a list of documents. -/
def flushes (flushed : List (List Completion)) : Option WaitQueue :=
  flushed.foldlM (fun q cs => (Runs.run step q cs).bind reset) new

theorem writeWaiting_of_none {q : WaitQueue} (h : q.waiting[q.nextWriteLoc]? = some none) :
    q.writeWaiting = some q := by
  rw [writeWaiting]
  split <;> simp_all

theorem writeWaiting_of_some {q q' : WaitQueue} {doc : DocWriter}
    (h : q.waiting[q.nextWriteLoc]? = some (some doc)) (hwrite : (q.remove doc).writeDocument doc = some q') :
    q.writeWaiting = q'.writeWaiting := by
  rw [writeWaiting]
  split
  · rename_i doc' hdoc'
    cases Option.some.inj (Option.some.inj (h.symm.trans hdoc'))
    split <;> simp_all
  all_goals simp_all

/-! ### The invariant -/

/-- The documents that are done, but have a number from `docID` on. -/
def waitingFrom (docID : Nat) (done : List Completion) : List Completion :=
  done.filter fun c => docID ≤ c.docID

def totalSize (done : List Completion) : Int := (done.map fun c => c.doc.sizeInBytes).sum

/-- After `done`, in any order: what is finished, and what waits in which cell. -/
structure Inv (q : WaitQueue) (done : List Completion) : Prop where
  loc_lt : q.nextWriteLoc < q.waiting.length
  finished_docIDs : q.finished.map Prod.fst = List.range q.nextWriteDocID
  finished_mem : ∀ e ∈ q.finished, ∃ c ∈ done, e = (c.docID, c.doc)
  cell : ∀ gap < q.waiting.length, ∀ doc, (q.waiting.rotate q.nextWriteLoc)[gap]? = some (some doc) ↔
    ∃ c ∈ done, c.docID = q.nextWriteDocID + gap ∧ c.doc = doc
  docID_lt : ∀ c ∈ done, c.docID < q.nextWriteDocID + q.waiting.length
  numWaiting_eq : q.numWaiting = (waitingFrom q.nextWriteDocID done).length
  waitingBytes_eq : q.waitingBytes = totalSize (waitingFrom q.nextWriteDocID done)

variable {q q' : WaitQueue} {c : Completion} {done done' : List Completion} {n gap : Nat}

theorem waitingFrom_cons_of_le (h : n ≤ c.docID) : waitingFrom n (c :: done) = c :: waitingFrom n done :=
  List.filter_cons_of_pos (decide_eq_true h)

theorem waitingFrom_cons_of_lt (h : c.docID < n) : waitingFrom n (c :: done) = waitingFrom n done :=
  List.filter_cons_of_neg (by simpa using h)

theorem waitingFrom_succ (h : ∀ c ∈ done, c.docID ≠ n) :
    waitingFrom (n + 1) done = waitingFrom n done := by
  refine List.filter_congr fun c hc => ?_
  have := h c hc
  rw [decide_eq_decide]
  omega

@[simp] theorem totalSize_cons : totalSize (c :: done) = c.doc.sizeInBytes + totalSize done := by
  rw [totalSize, List.map_cons, List.sum_cons, totalSize]

theorem Inv.perm (h : Inv q done) (hperm : done.Perm done') : Inv q done' where
  loc_lt := h.loc_lt
  finished_docIDs := h.finished_docIDs
  finished_mem e he := by
    obtain ⟨c, hc, heq⟩ := h.finished_mem e he
    exact ⟨c, hperm.subset hc, heq⟩
  cell gap hgap doc := by
    rw [h.cell gap hgap doc]
    simp only [hperm.mem_iff]
  docID_lt c hc := h.docID_lt c (hperm.symm.subset hc)
  numWaiting_eq := by rw [h.numWaiting_eq, waitingFrom, (hperm.filter _).length_eq, waitingFrom]
  waitingBytes_eq := by
    rw [h.waitingBytes_eq]
    exact ((hperm.filter _).map _).sum_eq

theorem inv_new : Inv new [] where
  loc_lt := by decide
  finished_docIDs := rfl
  finished_mem _ h := by cases h
  cell gap hgap doc := by
    refine ⟨fun hsome => ?_, fun ⟨c, hc, _⟩ => by cases hc⟩
    have hmem : some doc ∈ new.waiting := List.mem_rotate.mp (List.mem_of_getElem? hsome)
    cases List.eq_of_mem_replicate hmem
  docID_lt _ h := by cases h
  numWaiting_eq := rfl
  waitingBytes_eq := rfl

theorem Inv.first_cell (h : Inv q done) (doc : DocWriter) :
    q.waiting[q.nextWriteLoc]? = some (some doc) ↔
      ∃ c ∈ done, c.docID = q.nextWriteDocID ∧ c.doc = doc := by
  have hpos := Nat.zero_lt_of_lt h.loc_lt
  have hcell := h.cell 0 hpos doc
  rw [List.getElem?_rotate hpos, Nat.zero_add, Nat.mod_eq_of_lt h.loc_lt] at hcell
  exact hcell

theorem Inv.lt_nextWriteDocID (h : Inv q done) {e : Nat × DocWriter} (he : e ∈ q.finished) :
    e.1 < q.nextWriteDocID :=
  List.mem_range.mp (h.finished_docIDs ▸ List.mem_map_of_mem he)

theorem docID_doc (q : WaitQueue) (c : Completion) : c.doc = .skip ∨ q.docID c.doc = c.docID := by
  cases c with
  | finish docID size => exact Or.inr rfl
  | skip docID => exact Or.inl rfl

theorem Inv.writeDocument (h : Inv q done) (hnext : c.docID = q.nextWriteDocID)
    (hnew : ∀ c' ∈ done, c'.docID ≠ q.nextWriteDocID) :
    ∃ q', q.writeDocument c.doc = some q' ∧ Inv q' (c :: done) ∧ q'.waiting = q.waiting := by
  have hassert : c.doc = .skip ∨ q.nextWriteDocID = q.docID c.doc :=
    (docID_doc q c).imp_right fun heq => (heq.trans hnext).symm
  rw [WaitQueue.writeDocument, if_pos hassert, if_pos (Nat.succ_le_of_lt h.loc_lt)]
  refine ⟨_, rfl, ⟨RingBuffer.next_lt h.loc_lt, ?_, ?_, ?_, ?_, ?_, ?_⟩, rfl⟩
  · rw [List.map_append, h.finished_docIDs, List.range_succ]
    rfl
  · intro e he
    rcases List.mem_append.mp he with he | he
    · obtain ⟨c', hc', heq⟩ := h.finished_mem e he
      exact ⟨c', List.mem_cons_of_mem _ hc', heq⟩
    · exact ⟨c, List.mem_cons_self, by rw [List.mem_singleton.mp he, hnext]⟩
  · intro gap hgap doc
    have hdone : (∃ c' ∈ c :: done, c'.docID = q.nextWriteDocID + 1 + gap ∧ c'.doc = doc) ↔
        ∃ c' ∈ done, c'.docID = q.nextWriteDocID + (gap + 1) ∧ c'.doc = doc := by
      rw [List.exists_mem_cons_iff, Nat.add_assoc, Nat.add_comm 1]
      refine or_iff_right fun hc => ?_
      omega
    rw [hdone, RingBuffer.rotate_next, List.getElem?_rotate (by rwa [List.length_rotate]),
      List.length_rotate]
    rcases Nat.lt_or_ge (gap + 1) q.waiting.length with hlt | hge
    · rw [Nat.mod_eq_of_lt hlt]
      exact h.cell (gap + 1) hlt doc
    · -- the cell of the document just written
      have hlast : gap + 1 = q.waiting.length := Nat.le_antisymm hgap hge
      rw [hlast, Nat.mod_self, h.cell 0 (Nat.zero_lt_of_lt hgap) doc]
      constructor
      · rintro ⟨c', hc', hdocID, -⟩
        exact absurd hdocID (hnew c' hc')
      · rintro ⟨c', hc', hdocID, -⟩
        exact absurd hdocID (h.docID_lt c' hc').ne
  · intro c' hc'
    show c'.docID < q.nextWriteDocID + 1 + q.waiting.length
    rcases List.mem_cons.mp hc' with rfl | hc'
    · omega
    · have := h.docID_lt c' hc'
      omega
  · rw [waitingFrom_cons_of_lt (hnext ▸ Nat.lt_succ_self _), waitingFrom_succ hnew]
    exact h.numWaiting_eq
  · rw [waitingFrom_cons_of_lt (hnext ▸ Nat.lt_succ_self _), waitingFrom_succ hnew]
    exact h.waitingBytes_eq

theorem Inv.remove (h : Inv q (c :: done)) (hnext : c.docID = q.nextWriteDocID)
    (hnew : ∀ c' ∈ done, c'.docID ≠ q.nextWriteDocID) : Inv (q.remove c.doc) done where
  loc_lt := by
    rw [WaitQueue.remove, List.length_set]
    exact h.loc_lt
  finished_docIDs := h.finished_docIDs
  finished_mem e he := by
    obtain ⟨c', hc', heq⟩ := h.finished_mem e he
    rcases List.mem_cons.mp hc' with rfl | hc'
    · have hlt := h.lt_nextWriteDocID he
      rw [heq] at hlt
      exact absurd hnext hlt.ne
    · exact ⟨c', hc', heq⟩
  cell gap hgap doc := by
    rw [WaitQueue.remove, List.length_set] at hgap
    have hset := RingBuffer.rotate_set h.loc_lt (Nat.zero_lt_of_lt hgap) none
    rw [RingBuffer.index_zero h.loc_lt] at hset
    simp only [WaitQueue.remove]
    rw [hset, List.getElem?_set]
    by_cases hzero : 0 = gap
    · rw [if_pos hzero, if_pos (by rwa [List.length_rotate, hzero])]
      refine ⟨nofun, fun ⟨c', hc', hdocID, _⟩ => absurd hdocID ?_⟩
      rw [← hzero]
      exact hnew c' hc'
    · rw [if_neg hzero, h.cell gap hgap doc, List.exists_mem_cons_iff]
      refine or_iff_right fun hc => ?_
      omega
  docID_lt c' hc' := by
    rw [WaitQueue.remove, List.length_set]
    exact h.docID_lt c' (List.mem_cons_of_mem _ hc')
  numWaiting_eq := by
    have hnum := h.numWaiting_eq
    rw [waitingFrom_cons_of_le hnext.ge, List.length_cons] at hnum
    simp only [WaitQueue.remove]
    omega
  waitingBytes_eq := by
    have hbytes := h.waitingBytes_eq
    rw [waitingFrom_cons_of_le hnext.ge, totalSize_cons] at hbytes
    simp only [WaitQueue.remove]
    omega

theorem Inv.writeWaiting (h : Inv q done) (hnodup : (done.map Completion.docID).Nodup) :
    ∃ q', q.writeWaiting = some q' ∧ Inv q' done ∧ ∀ c ∈ done, c.docID ≠ q'.nextWriteDocID := by
  induction hcount : q.occupied using Nat.strong_induction_on generalizing q with
  | _ count ih =>
      obtain ⟨cell, hcell⟩ : ∃ cell, q.waiting[q.nextWriteLoc]? = some cell :=
        ⟨_, List.getElem?_eq_getElem h.loc_lt⟩
      cases cell with
      | none =>
          refine ⟨q, writeWaiting_of_none hcell, h, fun c hc hnext => ?_⟩
          have hsome := (h.first_cell c.doc).mpr ⟨c, hc, hnext, rfl⟩
          rw [hcell] at hsome
          cases hsome
      | some doc =>
          obtain ⟨c, hc, hnext, rfl⟩ := (h.first_cell doc).mp hcell
          obtain ⟨before, after, rfl⟩ := List.append_of_mem hc
          have hperm : (before ++ c :: after).Perm (c :: (before ++ after)) := List.perm_middle
          have hnew : ∀ c' ∈ before ++ after, c'.docID ≠ q.nextWriteDocID := by
            intro c' hc' heq
            have hnotMem := (List.nodup_cons.mp ((hperm.map _).nodup_iff.mp hnodup)).1
            exact hnotMem (List.mem_map.mpr ⟨c', hc', heq.trans hnext.symm⟩)
          obtain ⟨q', hwrite, h', hwaiting⟩ :=
            ((h.perm hperm).remove hnext hnew).writeDocument hnext hnew
          have hlt : q'.occupied < count := by
            have := occupied_remove hcell
            rw [occupied, hwaiting, ← occupied]
            omega
          rw [writeWaiting_of_some hcell hwrite]
          exact ih _ hlt (h'.perm hperm.symm) rfl

theorem Inv.grow (h : Inv q done) (gap : Nat) : Inv (q.grow gap) done ∧ gap < (q.grow gap).waiting.length := by
  unfold WaitQueue.grow
  split
  · rename_i hle
    have hsize := lt_getNextSize gap
    have harray := @RingBuffer.arrayCopy_rotate _ _ _
      (List.replicate (getNextSize gap) none) h.loc_lt
    rw [List.drop_replicate] at harray
    have hlen : (q.waiting.rotate q.nextWriteLoc ++
        List.replicate (getNextSize gap - q.waiting.length) none).length = getNextSize gap := by
      rw [List.length_append, List.length_rotate, List.length_replicate]
      omega
    simp only [harray]
    refine ⟨⟨?_, h.finished_docIDs, h.finished_mem, fun gap' _ doc => ?_, fun c hc => ?_,
      h.numWaiting_eq, h.waitingBytes_eq⟩, ?_⟩
    · rw [hlen]
      exact Nat.zero_lt_of_lt hsize
    · rw [List.rotate_zero]
      by_cases hlt : gap' < q.waiting.length
      · rw [List.getElem?_append_left (by rwa [List.length_rotate])]
        exact h.cell gap' hlt doc
      · -- a new cell
        rw [List.getElem?_append_right (by rw [List.length_rotate]; omega), List.getElem?_replicate]
        constructor
        · intro hsome
          split at hsome <;> cases hsome
        · rintro ⟨c, hc, hdocID, -⟩
          have hlt := h.docID_lt c hc
          rw [hdocID] at hlt
          exact absurd (Nat.lt_of_add_lt_add_left hlt) ‹_›
    · rw [hlen]
      exact (h.docID_lt c hc).trans (Nat.add_lt_add_left (hle.trans_lt hsize) _)
    · rw [hlen]
      exact hsize
  · rename_i hlt
    exact ⟨h, Nat.not_le.mp hlt⟩

@[simp] theorem nextWriteDocID_grow : (q.grow gap).nextWriteDocID = q.nextWriteDocID := by
  unfold WaitQueue.grow
  split <;> rfl

theorem Inv.enqueue (h : Inv q done) (hgap : gap < q.waiting.length)
    (hdocID : c.docID = q.nextWriteDocID + gap) (hnew : ∀ c' ∈ done, c'.docID ≠ c.docID) :
    ∃ q', q.enqueue c.doc gap = some q' ∧ Inv q' (c :: done) ∧ q'.nextWriteDocID = q.nextWriteDocID := by
  have hle : q.nextWriteDocID ≤ c.docID := hdocID ▸ Nat.le_add_right _ _
  have hfree : q.waiting[RingBuffer.index q.waiting.length q.nextWriteLoc gap]? = some none := by
    rw [← RingBuffer.getElem?_rotate_eq h.loc_lt hgap]
    obtain ⟨cell, hcell⟩ : ∃ cell, (q.waiting.rotate q.nextWriteLoc)[gap]? = some cell :=
      ⟨_, List.getElem?_eq_getElem (by rwa [List.length_rotate])⟩
    cases cell with
    | none => exact hcell
    | some doc =>
        obtain ⟨c', hc', hdocID', -⟩ := (h.cell gap hgap doc).mp hcell
        exact absurd (hdocID'.trans hdocID.symm) (hnew c' hc')
  rw [WaitQueue.enqueue, if_pos hfree]
  refine ⟨_, rfl, ⟨?_, h.finished_docIDs, fun e he => ?_, fun gap' hgap' doc => ?_, fun c' hc' => ?_,
    ?_, ?_⟩, rfl⟩
  · rw [List.length_set]
    exact h.loc_lt
  · obtain ⟨c', hc', heq⟩ := h.finished_mem e he
    exact ⟨c', List.mem_cons_of_mem _ hc', heq⟩
  · rw [List.length_set] at hgap'
    rw [RingBuffer.rotate_set h.loc_lt hgap, List.getElem?_set, List.exists_mem_cons_iff]
    by_cases heq : gap = gap'
    · rw [if_pos heq, if_pos (by rwa [List.length_rotate])]
      constructor
      · intro hsome
        exact Or.inl ⟨heq ▸ hdocID, Option.some.inj (Option.some.inj hsome)⟩
      · rintro (⟨-, hdoc⟩ | ⟨c', hc', hdocID', -⟩)
        · rw [hdoc]
        · rw [← heq, ← hdocID] at hdocID'
          exact absurd hdocID' (hnew c' hc')
    · rw [if_neg heq, h.cell gap' hgap' doc]
      refine (or_iff_right fun hc => heq ?_).symm
      exact Nat.add_left_cancel (hdocID.symm.trans hc.1)
  · rw [List.length_set]
    rcases List.mem_cons.mp hc' with rfl | hc'
    · rw [hdocID]
      exact Nat.add_lt_add_left hgap _
    · exact h.docID_lt c' hc'
  · rw [waitingFrom_cons_of_le hle, List.length_cons]
    have := h.numWaiting_eq
    simp only [this]
    omega
  · rw [waitingFrom_cons_of_le hle, totalSize_cons, add_comm c.doc.sizeInBytes, ← h.waitingBytes_eq]

/-- Between two calls, no document waits in front of the next one. -/
structure AtRest (q : WaitQueue) (done : List Completion) : Prop extends Inv q done where
  next_new : ∀ c ∈ done, c.docID ≠ q.nextWriteDocID

theorem AtRest.add (h : AtRest q done) (hdocID : q.docID c.doc = c.docID)
    (hnodup : ((c :: done).map Completion.docID).Nodup) (hle : q.nextWriteDocID ≤ c.docID) :
    ∃ q', q.add c.doc = some q' ∧ AtRest q' (c :: done) := by
  have hnew : ∀ c' ∈ done, c'.docID ≠ c.docID := fun c' hc' heq =>
    (List.nodup_cons.mp hnodup).1 (List.mem_map.mpr ⟨c', hc', heq⟩)
  rw [WaitQueue.add, hdocID, if_neg (Nat.not_lt.mpr hle)]
  by_cases hnext : c.docID = q.nextWriteDocID
  · obtain ⟨q₁, hwrite, h₁, -⟩ := h.toInv.writeDocument hnext h.next_new
    obtain ⟨q', hloop, h', hrest⟩ := h₁.writeWaiting hnodup
    exact ⟨q', by rw [if_pos hnext, hwrite]; exact hloop, h', hrest⟩
  · obtain ⟨hgrow, hgap⟩ := h.toInv.grow (c.docID - q.nextWriteDocID)
    obtain ⟨q', henqueue, h', hsame⟩ := hgrow.enqueue (c := c) hgap
      (by rw [nextWriteDocID_grow]; omega) hnew
    refine ⟨q', by rw [if_neg hnext]; exact henqueue, h', fun c' hc' => ?_⟩
    rw [hsame, nextWriteDocID_grow]
    rcases List.mem_cons.mp hc' with rfl | hc'
    · exact hnext
    · exact h.next_new c' hc'

theorem AtRest.perm (h : AtRest q done) (hperm : done.Perm done') : AtRest q done' :=
  ⟨h.toInv.perm hperm, fun c hc => h.next_new c (hperm.symm.subset hc)⟩

theorem Inv.exists_of_lt (h : Inv q done) (hn : n < q.nextWriteDocID) :
    ∃ c ∈ done, c.docID = n ∧ (n, c.doc) ∈ q.finished := by
  have hmem : n ∈ q.finished.map Prod.fst := h.finished_docIDs ▸ List.mem_range.mpr hn
  obtain ⟨e, he, rfl⟩ := List.mem_map.mp hmem
  obtain ⟨c, hc, heq⟩ := h.finished_mem e he
  subst heq
  exact ⟨c, hc, rfl, he⟩

theorem AtRest.setSkipDocID (h : AtRest q done) (docID : Nat) :
    AtRest { q with skipDocID := docID } done :=
  ⟨⟨h.loc_lt, h.finished_docIDs, h.finished_mem, h.cell, h.docID_lt, h.numWaiting_eq,
    h.waitingBytes_eq⟩, h.next_new⟩

theorem AtRest.step (h : AtRest q done) (hnodup : ((c :: done).map Completion.docID).Nodup) :
    ∃ q', step q c = some q' ∧ AtRest q' (c :: done) := by
  have hle : q.nextWriteDocID ≤ c.docID := by
    by_contra hlt
    obtain ⟨c', hc', heq, -⟩ := h.exists_of_lt (Nat.not_le.mp hlt)
    exact (List.nodup_cons.mp hnodup).1 (List.mem_map.mpr ⟨c', hc', heq⟩)
  cases c with
  | finish docID size => exact h.add rfl hnodup hle
  | skip docID => exact (h.setSkipDocID docID).add (c := .skip docID) rfl hnodup hle

theorem AtRest.run {cs : List Completion} (h : AtRest q done)
    (hnodup : ((done ++ cs).map Completion.docID).Nodup) :
    ∃ q', Runs.run WaitQueue.step q cs = some q' ∧ AtRest q' (done ++ cs) := by
  induction cs generalizing q done with
  | nil => exact ⟨q, rfl, by rwa [List.append_nil]⟩
  | cons c cs ih =>
      have hmiddle : (done ++ c :: cs).Perm (c :: done ++ cs) := List.perm_middle
      have hnodup' : ((c :: done ++ cs).map Completion.docID).Nodup :=
        (hmiddle.map _).nodup_iff.mp hnodup
      have hfirst : ((c :: done).map Completion.docID).Nodup := by
        rw [List.map_append] at hnodup'
        exact hnodup'.of_append_left
      obtain ⟨q₁, hstep, h₁⟩ := h.step hfirst
      obtain ⟨q', hrun, h'⟩ := ih h₁ hnodup'
      exact ⟨q', Runs.run_cons_eq_some.mpr ⟨q₁, hstep, hrun⟩, h'.perm hmiddle.symm⟩

/-- The documents `done` are finished in the order of their numbers up to the first one that is missing, and
the others wait, each in its cell. -/
structure InOrder (q : WaitQueue) (done : List Completion) : Prop where
  finished_docIDs : q.finished.map Prod.fst = List.range q.nextWriteDocID
  mem_finished : ∀ e, e ∈ q.finished ↔
    ∃ c ∈ done, c.docID < q.nextWriteDocID ∧ e = (c.docID, c.doc)
  next_missing : ∀ c ∈ done, c.docID ≠ q.nextWriteDocID
  waits : ∀ c ∈ done, q.nextWriteDocID < c.docID →
    q.waiting[RingBuffer.index q.waiting.length q.nextWriteLoc (c.docID - q.nextWriteDocID)]? =
      some (some c.doc)
  numWaiting_eq : q.numWaiting = (waitingFrom q.nextWriteDocID done).length
  waitingBytes_eq : q.waitingBytes = totalSize (waitingFrom q.nextWriteDocID done)

theorem AtRest.inOrder (h : AtRest q done) (hnodup : (done.map Completion.docID).Nodup) :
    InOrder q done where
  finished_docIDs := h.finished_docIDs
  mem_finished e := by
    constructor
    · intro he
      obtain ⟨c, hc, rfl⟩ := h.finished_mem e he
      exact ⟨c, hc, h.lt_nextWriteDocID he, rfl⟩
    · rintro ⟨c, hc, hlt, rfl⟩
      obtain ⟨c', hc', heq, hmem⟩ := h.exists_of_lt hlt
      rwa [List.inj_on_of_nodup_map hnodup hc' hc heq] at hmem
  next_missing := h.next_new
  waits c hc hlt := by
    have hgap : c.docID - q.nextWriteDocID < q.waiting.length := by
      have := h.docID_lt c hc
      omega
    rw [← RingBuffer.getElem?_rotate_eq h.loc_lt hgap, h.cell _ hgap]
    exact ⟨c, hc, by omega, rfl⟩
  numWaiting_eq := h.numWaiting_eq
  waitingBytes_eq := h.waitingBytes_eq

/-- The documents `0` to `n - 1`, in any order. -/
def All (n : Nat) (cs : List Completion) : Prop := (cs.map Completion.docID).Perm (List.range n)

theorem All.nodup {cs : List Completion} (hall : All n cs) : (cs.map Completion.docID).Nodup :=
  hall.nodup_iff.mpr List.nodup_range

theorem All.docID_lt {cs : List Completion} (hall : All n cs) (hc : c ∈ cs) : c.docID < n :=
  List.mem_range.mp (hall.subset (List.mem_map_of_mem hc))

theorem All.exists {cs : List Completion} (hall : All n cs) {d : Nat} (hd : d < n) :
    ∃ c ∈ cs, c.docID = d :=
  List.mem_map.mp (hall.symm.subset (List.mem_range.mpr hd))

theorem AtRest.all {cs : List Completion} (h : AtRest q cs) (hall : All n cs) :
    q.nextWriteDocID = n ∧ q.numWaiting = 0 ∧ q.waitingBytes = 0 := by
  have hnext : q.nextWriteDocID = n := by
    refine Nat.le_antisymm (Nat.not_lt.mp fun hlt => ?_) (Nat.not_lt.mp fun hlt => ?_)
    · obtain ⟨c, hc, heq, -⟩ := h.exists_of_lt hlt
      exact lt_irrefl n (heq ▸ hall.docID_lt hc)
    · obtain ⟨c, hc, heq⟩ := hall.exists hlt
      exact h.next_new c hc heq
  have hnone : waitingFrom q.nextWriteDocID cs = [] :=
    List.filter_eq_nil_iff.mpr fun c hc => by simp [hnext, hall.docID_lt hc]
  exact ⟨hnext, h.numWaiting_eq.trans (by rw [hnone]; rfl), h.waitingBytes_eq.trans (by rw [hnone]; rfl)⟩

theorem AtRest.reset {cs : List Completion} (h : AtRest q cs) (hall : All n cs) :
    ∃ q', q.reset = some q' ∧ AtRest q' [] := by
  obtain ⟨hnext, hnum, hbytes⟩ := h.all hall
  rw [WaitQueue.reset, if_pos ⟨hnum, hbytes⟩]
  refine ⟨_, rfl, ⟨h.loc_lt, rfl, nofun, fun gap hgap doc => ?_, nofun, hnum, hbytes⟩, nofun⟩
  refine ⟨fun hsome => ?_, nofun⟩
  obtain ⟨c, hc, hdocID, -⟩ := (h.cell gap hgap doc).mp hsome
  have := hall.docID_lt hc
  omega

theorem AtRest.flush {cs : List Completion} (h : AtRest q []) (hall : All n cs) :
    ∃ q', (Runs.run WaitQueue.step q cs).bind WaitQueue.reset = some q' ∧ AtRest q' [] := by
  obtain ⟨q₁, hrun, h₁⟩ := h.run hall.nodup
  rw [hrun]
  exact h₁.reset hall

theorem AtRest.flushes {flushed : List (List Completion)} (h : AtRest q [])
    (hall : ∀ cs ∈ flushed, ∃ n, All n cs) :
    ∃ q', flushed.foldlM (fun q cs => (Runs.run WaitQueue.step q cs).bind WaitQueue.reset) q = some q' ∧
      AtRest q' [] := by
  induction flushed generalizing q with
  | nil => exact ⟨q, rfl, h⟩
  | cons cs flushed ih =>
      obtain ⟨n, hcs⟩ := hall cs List.mem_cons_self
      obtain ⟨q₁, hflush, h₁⟩ := h.flush hcs
      rw [List.foldlM_cons, hflush]
      exact ih h₁ fun cs' hcs' => hall cs' (List.mem_cons_of_mem _ hcs')

theorem atRest_new : AtRest new [] := ⟨inv_new, nofun⟩

end WaitQueue
end LucenePlusPlus
