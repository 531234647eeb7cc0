import LucenePlusPlus.MultiTermDocs
import Mathlib.Data.List.TakeWhile

/-!
What `MultiTermDocs` returns over any calls: the live documents of the sub-readers one after another, as long as no
call is one that the enumerators of the null term answer wrongly.
-/

namespace LucenePlusPlus
open PostingsMerge (Reader)

variable {target : Int} {length : Nat}

namespace SegmentTermDocs

variable {isDeleted : Nat → Bool} {behind : Nat → Bool} {postings : List Posting}

def live (isDeleted : Nat → Bool) (postings : List Posting) : List Posting :=
  postings.filter fun posting => !isDeleted posting.doc

theorem live_cons_of_deleted {posting : Posting} (h : isDeleted posting.doc = true) :
    live isDeleted (posting :: postings) = live isDeleted postings := by
  rw [live, List.filter_cons_of_neg (by simp [h])]
  rfl

theorem live_cons_of_live {posting : Posting} (h : isDeleted posting.doc = false) :
    live isDeleted (posting :: postings) = posting :: live isDeleted postings := by
  rw [live, List.filter_cons_of_pos (by simp [h])]
  rfl

theorem scan_spec (isDeleted behind : Nat → Bool) (postings : List Posting) :
    (scan isDeleted behind postings).1 = ((live isDeleted postings).dropWhile fun posting => behind posting.doc).head? ∧
      live isDeleted (scan isDeleted behind postings).2 =
        ((live isDeleted postings).dropWhile fun posting => behind posting.doc).tail := by
  induction postings with
  | nil => exact ⟨rfl, rfl⟩
  | cons posting postings ih =>
      rw [scan]
      cases hdeleted : isDeleted posting.doc with
      | true =>
          rw [live_cons_of_deleted hdeleted]
          exact ih
      | false =>
          rw [live_cons_of_live hdeleted, List.dropWhile_cons]
          cases hbehind : behind posting.doc with
          | true => exact ih
          | false => exact ⟨rfl, rfl⟩

theorem readLive_spec (isDeleted : Nat → Bool) (length : Nat) (postings : List Posting) :
    live isDeleted postings = (readLive isDeleted length postings).1 ++ live isDeleted (readLive isDeleted length postings).2 ∧
      (readLive isDeleted length postings).1.length ≤ length ∧
      (0 < length → (readLive isDeleted length postings).1 = [] → live isDeleted (readLive isDeleted length postings).2 = []) := by
  induction postings generalizing length with
  | nil => exact ⟨rfl, Nat.zero_le _, fun _ _ => rfl⟩
  | cons posting postings ih =>
      cases length with
      | zero => exact ⟨rfl, le_rfl, fun hpos => absurd hpos (lt_irrefl _)⟩
      | succ length =>
          rw [readLive]
          cases hdeleted : isDeleted posting.doc with
          | true =>
              rw [live_cons_of_deleted hdeleted, if_pos rfl]
              exact ih (length + 1)
          | false =>
              obtain ⟨heq, hle, -⟩ := ih length
              rw [live_cons_of_live hdeleted, if_neg Bool.false_ne_true]
              refine ⟨?_, Nat.succ_le_succ hle, fun _ => nofun⟩
              dsimp only
              rw [List.cons_append, ← heq]

theorem dropWhile_live_drop {n : Nat} (h : ∀ posting ∈ postings.take n, (posting.doc : Int) < target) :
    ((live isDeleted (postings.drop n)).dropWhile fun posting => decide (target > posting.doc)) =
      (live isDeleted postings).dropWhile fun posting => decide (target > posting.doc) := by
  conv_rhs => rw [← List.take_append_drop n postings, live, List.filter_append]
  rw [List.dropWhile_append, if_pos]
  · rfl
  · rw [List.isEmpty_iff, List.dropWhile_eq_nil_iff]
    intro posting hmem
    exact decide_eq_true (h posting (List.mem_of_mem_filter hmem))

/-- The documents that are left. -/
def left (docs : SegmentTermDocs) : List TermDoc := (live docs.isDeleted docs.rest).map docs.entry

theorem next_spec (docs : SegmentTermDocs) : docs.next.1 = docs.left.head? ∧ docs.next.2.left = docs.left.tail := by
  obtain ⟨hhead, htail⟩ := scan_spec docs.isDeleted (fun _ => false) docs.rest
  rw [List.dropWhile_eq_self_iff.mpr (fun _ => Bool.false_ne_true)] at hhead htail
  constructor
  · rw [left, List.head?_map, ← hhead]
    rfl
  · rw [left, left, ← List.map_tail, ← htail]
    rfl

theorem skipTo_spec (docs : SegmentTermDocs) (target : Int) :
    (docs.skipTo target).1 = (docs.left.dropWhile fun entry => decide (entry.doc < target)).head? ∧
      (docs.skipTo target).2.left = (docs.left.dropWhile fun entry => decide (entry.doc < target)).tail := by
  obtain ⟨hhead, htail⟩ := scan_spec docs.isDeleted (fun doc => target > doc)
    (docs.rest.drop (docs.skipList.passes docs.rest docs.targets target))
  rw [dropWhile_live_drop (docs.skipList.before _ _ _)] at hhead htail
  rw [left, List.dropWhile_map]
  constructor
  · rw [List.head?_map]
    exact congrArg (Option.map docs.entry) hhead
  · rw [← List.map_tail]
    exact congrArg (List.map docs.entry) htail

theorem read_spec {docs docs' : SegmentTermDocs} {got : List TermDoc} (h : docs.read length = some (got, docs')) :
    docs.left = got ++ docs'.left ∧ got.length ≤ length ∧ (0 < length → got = [] → docs'.left = []) := by
  obtain ⟨heq, hle, hend⟩ := readLive_spec docs.isDeleted length docs.rest
  rw [read] at h
  split at h
  · cases h
  · cases h
    refine ⟨?_, ?_, fun hpos hnil => ?_⟩
    · rw [left, heq, List.map_append]
      rfl
    · rwa [List.length_map]
    · rw [left]
      dsimp only
      rw [hend hpos (List.map_eq_nil_iff.mp hnil), List.map_nil]

end SegmentTermDocs

namespace AbstractAllTermDocs

variable {maxDoc : Nat} {isDeleted : Int → Bool} {lo hi : Nat}

/-- The live documents from `lo` on. -/
def liveFrom (maxDoc : Nat) (isDeleted : Int → Bool) (lo : Nat) : List TermDoc :=
  ((List.range' lo (maxDoc - lo)).filter fun doc : Nat => !isDeleted doc).map fun doc : Nat => entry doc

theorem liveFrom_of_le (h : maxDoc ≤ lo) : liveFrom maxDoc isDeleted lo = [] := by
  rw [liveFrom, Nat.sub_eq_zero_of_le h]
  rfl

theorem liveFrom_succ (h : lo < maxDoc) : liveFrom maxDoc isDeleted lo =
    if isDeleted lo then liveFrom maxDoc isDeleted (lo + 1) else entry lo :: liveFrom maxDoc isDeleted (lo + 1) := by
  have hsub : maxDoc - lo = maxDoc - (lo + 1) + 1 := by omega
  rw [liveFrom, hsub, List.range'_succ, List.filter_cons]
  cases isDeleted lo <;> rfl

theorem liveFrom_eq_of_deleted (hle : lo ≤ hi) (h : ∀ doc, lo ≤ doc → doc < hi → doc < maxDoc → isDeleted doc = true) :
    liveFrom maxDoc isDeleted lo = liveFrom maxDoc isDeleted hi := by
  induction hle using Nat.decreasingInduction with
  | self => rfl
  | of_succ lo hlt ih =>
      rw [← ih fun doc hdoc => h doc (Nat.le_of_succ_le hdoc)]
      by_cases hmax : lo < maxDoc
      · rw [liveFrom_succ hmax, if_pos (h lo le_rfl hlt hmax)]
      · rw [liveFrom_of_le (Nat.le_of_not_lt hmax), liveFrom_of_le (Nat.le_succ_of_le (Nat.le_of_not_lt hmax))]

theorem le_doc_of_mem_liveFrom {termDoc : TermDoc} (h : termDoc ∈ liveFrom maxDoc isDeleted lo) :
    (lo : Int) ≤ termDoc.doc ∧ termDoc.doc < maxDoc := by
  obtain ⟨doc, hdoc, rfl⟩ := List.mem_map.mp h
  have hrange := List.mem_range'_1.mp (List.mem_of_mem_filter hdoc)
  simp only [entry]
  omega

theorem dropWhile_liveFrom (hle : lo ≤ hi) :
    (liveFrom maxDoc isDeleted lo).dropWhile (fun entry => decide (entry.doc < (hi : Int))) = liveFrom maxDoc isDeleted hi := by
  induction hle using Nat.decreasingInduction with
  | self =>
      refine List.dropWhile_eq_self_iff.mpr fun hpos => ?_
      have hmem := le_doc_of_mem_liveFrom (List.getElem_mem hpos)
      simpa using hmem.1
  | of_succ lo hlt ih =>
      by_cases hmax : lo < maxDoc
      · rw [liveFrom_succ hmax]
        split
        · exact ih
        · rw [List.dropWhile_cons_of_pos, ih]
          exact decide_eq_true (Int.ofNat_lt.mpr hlt)
      · rw [liveFrom_of_le (Nat.le_of_not_lt hmax), liveFrom_of_le ((Nat.le_of_not_lt hmax).trans hlt.le)]
        rfl

theorem skipLoop_spec (isDeleted : Int → Bool) (fuel : Nat) (hfuel : maxDoc ≤ lo + fuel) :
    ∃ doc : Nat, lo ≤ doc ∧ (skipLoop maxDoc isDeleted fuel lo).2 = doc ∧
      if (skipLoop maxDoc isDeleted fuel lo).1 then
        liveFrom maxDoc isDeleted lo = entry doc :: liveFrom maxDoc isDeleted (doc + 1)
      else liveFrom maxDoc isDeleted lo = [] ∧ maxDoc ≤ doc := by
  induction fuel generalizing lo with
  | zero => exact ⟨lo, le_rfl, rfl, liveFrom_of_le hfuel, hfuel⟩
  | succ fuel ih =>
      rw [skipLoop]
      by_cases hmax : lo < maxDoc
      · rw [if_pos (Int.ofNat_lt.mpr hmax), liveFrom_succ hmax]
        cases hdeleted : isDeleted lo with
        | true =>
            obtain ⟨doc, hle, heq, hrest⟩ := @ih (lo + 1) (by omega)
            rw [Nat.cast_succ] at heq hrest
            exact ⟨doc, Nat.le_of_succ_le hle, heq, hrest⟩
        | false => exact ⟨lo, le_rfl, rfl, rfl⟩
      · rw [if_neg (fun hlt => hmax (Int.ofNat_lt.mp hlt))]
        exact ⟨lo, le_rfl, rfl, liveFrom_of_le (Nat.le_of_not_lt hmax), Nat.le_of_not_lt hmax⟩

/-- The documents that are left. -/
def left (docs : AbstractAllTermDocs) : List TermDoc := liveFrom docs.maxDoc docs.isDeleted (docs.doc + 1).toNat

/-- The target is not before the first document, nor behind a live document that has been passed. -/
def Ahead (docs : AbstractAllTermDocs) (target : Int) : Prop :=
  0 ≤ target ∧ ∀ doc, target ≤ doc → doc ≤ docs.doc → doc < docs.maxDoc → docs.isDeleted doc = true

theorem skipTo_spec {docs : AbstractAllTermDocs} (h : docs.Ahead target) :
    (docs.skipTo target).1 = (docs.left.dropWhile fun entry => decide (entry.doc < target)).head? ∧
      (docs.skipTo target).2.left = (docs.left.dropWhile fun entry => decide (entry.doc < target)).tail ∧
      -1 ≤ (docs.skipTo target).2.doc := by
  obtain ⟨lo, rfl⟩ := Int.eq_ofNat_of_zero_le h.1
  have hdrop : docs.left.dropWhile (fun entry => decide (entry.doc < (lo : Int))) = liveFrom docs.maxDoc docs.isDeleted lo := by
    rw [left]
    rcases le_total (docs.doc + 1).toNat lo with hle | hle
    · exact dropWhile_liveFrom hle
    · rw [liveFrom_eq_of_deleted hle fun doc hlo hhi hmax => h.2 doc (Int.ofNat_le.mpr hlo) (by omega)
        (Int.ofNat_lt.mpr hmax)]
      refine List.dropWhile_eq_self_iff.mpr fun hpos => ?_
      have hmem := le_doc_of_mem_liveFrom (List.getElem_mem hpos)
      have hcast : (lo : Int) ≤ (docs.doc + 1).toNat := Int.ofNat_le.mpr hle
      simpa using hcast.trans hmem.1
  rw [hdrop]
  obtain ⟨doc, hle, hdoc, hspec⟩ := skipLoop_spec docs.isDeleted
    (docs.maxDoc - (lo : Int)).toNat (show docs.maxDoc ≤ lo + _ by omega)
  rw [skipTo]
  generalize skipLoop docs.maxDoc docs.isDeleted (docs.maxDoc - (lo : Int)).toNat lo = loop at hdoc hspec ⊢
  obtain ⟨found, last⟩ := loop
  dsimp only at hdoc hspec ⊢
  subst hdoc
  have hlast : -1 ≤ (doc : Int) := by omega
  cases found with
  | true =>
      rw [if_pos rfl] at hspec
      rw [if_pos rfl, hspec]
      exact ⟨rfl, rfl, hlast⟩
  | false =>
      rw [if_neg Bool.false_ne_true] at hspec
      rw [if_neg Bool.false_ne_true, hspec.1]
      refine ⟨rfl, ?_, hlast⟩
      rw [left]
      exact liveFrom_of_le (Nat.le_succ_of_le hspec.2)

theorem ahead_next (docs : AbstractAllTermDocs) (hvalid : -1 ≤ docs.doc) : docs.Ahead (docs.doc + 1) :=
  ⟨by omega, fun doc hlo hhi => by omega⟩

theorem read_of_end {docs : AbstractAllTermDocs} (h : docs.maxDoc ≤ docs.doc) : docs.read length = ([], docs) := by
  have hfuel : ((docs.maxDoc : Int) - docs.doc).toNat = 0 := Int.toNat_eq_zero.mpr (by omega)
  rw [read, hfuel]
  rfl

end AbstractAllTermDocs

/-! ### Enumerators of sub-readers -/

namespace TermDocs

variable {docs : TermDocs}

def left : TermDocs → List TermDoc
  | segment docs => docs.left
  | all docs => docs.left

def Valid : TermDocs → Prop
  | segment _ => True
  | all docs => -1 ≤ docs.doc

/-- The enumerator answers `skipTo` as one of a term does. -/
def Ahead (target : Int) : TermDocs → Prop
  | segment _ => True
  | all docs => docs.Ahead target

/-- The enumerator can read several documents, or has come to the end of all documents. -/
def Reads : TermDocs → Prop
  | segment docs => docs.positions = false
  | all docs => docs.maxDoc ≤ docs.doc

theorem skipTo_spec (hvalid : docs.Valid) (h : docs.Ahead target) :
    (docs.skipTo target).1 = (docs.left.dropWhile fun entry => decide (entry.doc < target)).head? ∧
      (docs.skipTo target).2.left = (docs.left.dropWhile fun entry => decide (entry.doc < target)).tail ∧
      (docs.skipTo target).2.Valid := by
  cases docs with
  | segment docs => exact ⟨(docs.skipTo_spec target).1, (docs.skipTo_spec target).2, trivial⟩
  | all docs => exact AbstractAllTermDocs.skipTo_spec h

theorem next_spec (hvalid : docs.Valid) :
    docs.next.1 = docs.left.head? ∧ docs.next.2.left = docs.left.tail ∧ docs.next.2.Valid := by
  cases docs with
  | segment docs => exact ⟨docs.next_spec.1, docs.next_spec.2, trivial⟩
  | all docs =>
      have hspec := AbstractAllTermDocs.skipTo_spec (docs.ahead_next hvalid)
      have hself : docs.left.dropWhile (fun entry => decide (entry.doc < docs.doc + 1)) = docs.left := by
        refine List.dropWhile_eq_self_iff.mpr fun hpos => ?_
        have hmem := (AbstractAllTermDocs.le_doc_of_mem_liveFrom (List.getElem_mem hpos)).1
        rw [decide_eq_true_eq, not_lt]
        exact (Int.self_le_toNat _).trans hmem
      rw [hself] at hspec
      exact hspec

theorem read_spec (length : Nat) (hvalid : docs.Valid) (h : docs.Reads) :
    ∃ got docs', docs.read length = some (got, docs') ∧ docs.left = got ++ docs'.left ∧ got.length ≤ length ∧
      (0 < length → got = [] → docs'.left = []) ∧ docs'.Valid := by
  cases docs with
  | segment docs =>
      obtain ⟨read, hread⟩ : ∃ read, docs.read length = some read := by
        rw [SegmentTermDocs.read, if_neg (by rw [h]; exact Bool.false_ne_true)]
        exact ⟨_, rfl⟩
      obtain ⟨got, docs'⟩ := read
      obtain ⟨heq, hle, hend⟩ := SegmentTermDocs.read_spec hread
      exact ⟨got, .segment docs', by rw [read, hread]; rfl, heq, hle, hend, trivial⟩
  | all docs =>
      refine ⟨[], .all docs, ?_, rfl, Nat.zero_le _, fun _ _ => ?_, hvalid⟩
      · rw [read, AbstractAllTermDocs.read_of_end h]
      · have hend : docs.maxDoc ≤ docs.doc := h
        exact AbstractAllTermDocs.liveFrom_of_le (by omega)

end TermDocs

namespace SubDocs

def left (sub : SubDocs) : List TermDoc := sub.docs.left.map (TermDoc.shift sub.base)

theorem dropWhile_left (sub : SubDocs) (target : Int) :
    sub.left.dropWhile (fun entry => decide (entry.doc < target)) =
      (sub.docs.left.dropWhile fun entry => decide (entry.doc < target - sub.base)).map (TermDoc.shift sub.base) := by
  rw [left, List.dropWhile_map]
  congr 2
  funext entry
  rw [Function.comp_apply, decide_eq_decide]
  dsimp only [TermDoc.shift]
  omega

end SubDocs

namespace MultiTermDocs

variable {multi : MultiTermDocs} {pending todo : List SubDocs} {current : Option SubDocs}
  {behind : TermDoc → Bool} {call : SubDocs → Option TermDoc × TermDocs} {ok : SubDocs → Prop}

/-- The current sub-reader, and those from `pointer` on. -/
def subs (multi : MultiTermDocs) : List SubDocs := multi.current.toList ++ multi.todo

/-- The documents that are left. -/
def left (multi : MultiTermDocs) : List TermDoc := multi.subs.flatMap SubDocs.left

def Valid (multi : MultiTermDocs) : Prop := ∀ sub ∈ multi.subs, sub.docs.Valid

/-- The sub-readers that a search comes to are all right. -/
def Visits (ok : SubDocs → Prop) (behind : TermDoc → Bool) : List SubDocs → Prop
  | [] => True
  | sub :: subs => ok sub ∧ ((∃ entry ∈ sub.left, behind entry = false) ∨ Visits ok behind subs)

theorem visits_of_forall (h : ∀ sub ∈ pending, ok sub) (behind : TermDoc → Bool) : Visits ok behind pending := by
  induction pending with
  | nil => trivial
  | cons sub pending ih =>
      exact ⟨h sub List.mem_cons_self, Or.inr (ih fun sub' hmem => h sub' (List.mem_cons_of_mem _ hmem))⟩

/-- The call answers with the first document that is not behind, and leaves those after it. -/
def Answers (call : SubDocs → Option TermDoc × TermDocs) (behind : TermDoc → Bool) (sub : SubDocs) : Prop :=
  ((call sub).1).map (TermDoc.shift sub.base) = (sub.left.dropWhile behind).head? ∧
    (⟨sub.base, (call sub).2⟩ : SubDocs).left = (sub.left.dropWhile behind).tail ∧ (call sub).2.Valid

theorem advance_spec (hcall : ∀ sub : SubDocs, sub.docs.Valid → ok sub → Answers call behind sub)
    (hvalid : ∀ sub ∈ current.toList ++ todo, sub.docs.Valid)
    (hvisits : Visits ok behind (current.toList ++ todo)) :
    (advance call current todo).1 =
        (((current.toList ++ todo).flatMap SubDocs.left).dropWhile behind).head? ∧
      (advance call current todo).2.left =
        (((current.toList ++ todo).flatMap SubDocs.left).dropWhile behind).tail ∧
      (advance call current todo).2.Valid := by
  induction todo generalizing current with
  | nil =>
      cases current with
      | none => exact ⟨rfl, rfl, nofun⟩
      | some sub =>
          obtain ⟨hhead, htail, hsub⟩ := hcall sub (hvalid sub List.mem_cons_self) hvisits.1
          rw [Option.toList_some, List.append_nil, List.flatMap_singleton, advance]
          refine ⟨hhead, ?_, fun sub' hmem => ?_⟩
          · rw [left, subs, Option.toList_some, List.append_nil, List.flatMap_singleton]
            exact htail
          · rw [List.mem_singleton.mp hmem]
            exact hsub
  | cons sub' todo ih =>
      cases current with
      | none => exact @ih (some sub') hvalid hvisits
      | some sub =>
          obtain ⟨hhead, htail, hsub⟩ := hcall sub (hvalid sub List.mem_cons_self) hvisits.1
          have hrest : ∀ sub'' ∈ sub' :: todo, sub''.docs.Valid :=
            fun sub'' hmem => hvalid sub'' (List.mem_cons_of_mem _ hmem)
          rw [Option.toList_some, List.singleton_append, List.flatMap_cons, List.dropWhile_append, advance]
          cases hanswer : (call sub).1 with
          | none =>
              rw [hanswer, Option.map_none, eq_comm, List.head?_eq_none_iff] at hhead
              have hnone : ¬ ∃ entry ∈ sub.left, behind entry = false := by
                rintro ⟨entry, hmem, hnot⟩
                rw [List.dropWhile_eq_nil_iff.mp hhead entry hmem] at hnot
                cases hnot
              rw [hhead, List.isEmpty_nil, if_pos rfl]
              exact @ih (some sub') hrest (hvisits.2.resolve_left hnone)
          | some entry =>
              rw [hanswer, Option.map_some] at hhead
              obtain ⟨rest, hdrop⟩ := List.head?_eq_some_iff.mp hhead.symm
              rw [hdrop, List.tail_cons] at htail
              rw [hdrop, List.isEmpty_cons, if_neg Bool.false_ne_true, List.cons_append]
              refine ⟨rfl, ?_, fun sub'' hmem => ?_⟩
              · rw [left, subs, Option.toList_some, List.singleton_append, List.flatMap_cons, htail]
                rfl
              · rcases List.mem_cons.mp hmem with rfl | hmem
                · exact hsub
                · exact hrest sub'' hmem

theorem next_spec (hvalid : multi.Valid) :
    multi.next.1 = multi.left.head? ∧ multi.next.2.left = multi.left.tail ∧ multi.next.2.Valid := by
  have hanswers : ∀ sub : SubDocs, sub.docs.Valid → True → Answers (fun sub => sub.docs.next) (fun _ => false) sub := by
    intro sub hsub _
    obtain ⟨hhead, htail, hvalid'⟩ := TermDocs.next_spec hsub
    rw [Answers, List.dropWhile_eq_self_iff.mpr fun _ => Bool.false_ne_true]
    refine ⟨?_, ?_, hvalid'⟩
    · rw [SubDocs.left, List.head?_map, hhead]
    · rw [SubDocs.left, SubDocs.left, ← List.map_tail, htail]
  have hspec := advance_spec hanswers hvalid (visits_of_forall (fun _ _ => trivial) _)
  rw [List.dropWhile_eq_self_iff.mpr fun _ => Bool.false_ne_true] at hspec
  exact hspec

theorem skipTo_spec (hvalid : multi.Valid)
    (h : Visits (fun sub => sub.docs.Ahead (target - sub.base)) (fun entry : TermDoc => entry.doc < target) multi.subs) :
    (multi.skipTo target).1 = (multi.left.dropWhile fun entry => decide (entry.doc < target)).head? ∧
      (multi.skipTo target).2.left = (multi.left.dropWhile fun entry => decide (entry.doc < target)).tail ∧
      (multi.skipTo target).2.Valid := by
  refine advance_spec (fun sub hsub hahead => ?_) hvalid h
  obtain ⟨hhead, htail, hvalid'⟩ := TermDocs.skipTo_spec hsub hahead
  rw [Answers, sub.dropWhile_left]
  refine ⟨?_, ?_, hvalid'⟩
  · rw [List.head?_map, hhead]
  · rw [SubDocs.left, ← List.map_tail, htail]

theorem readFrom_spec (hvalid : ∀ sub ∈ pending, sub.docs.Valid) (hreads : ∀ sub ∈ pending, sub.docs.Reads)
    (hlength : 0 < length ∨ pending.flatMap SubDocs.left = []) :
    ∃ got multi, readFrom length pending = some (got, multi) ∧ pending.flatMap SubDocs.left = got ++ multi.left ∧
      got.length ≤ length ∧ (got = [] → multi.left = []) ∧ multi.Valid := by
  induction pending with
  | nil => exact ⟨[], ⟨none, []⟩, rfl, rfl, Nat.zero_le _, fun _ => rfl, nofun⟩
  | cons sub pending ih =>
      obtain ⟨got, docs, hread, heq, hle, hend, hdocs⟩ := TermDocs.read_spec length
        (hvalid sub List.mem_cons_self) (hreads sub List.mem_cons_self)
      have hrest : ∀ sub' ∈ pending, sub'.docs.Valid := fun sub' hmem => hvalid sub' (List.mem_cons_of_mem _ hmem)
      rw [readFrom, hread]
      rw [List.flatMap_cons] at hlength
      cases got with
      | nil =>
          have hnil : sub.left = [] := by
            rcases hlength with hpos | hall
            · rw [SubDocs.left, heq, List.nil_append, hend hpos rfl, List.map_nil]
            · exact (List.append_eq_nil_iff.mp hall).1
          obtain ⟨got', multi, hok, heq', hle', hend', hvalid'⟩ := ih hrest
            (fun sub' hmem => hreads sub' (List.mem_cons_of_mem _ hmem))
            (hlength.imp_right fun hall => (List.append_eq_nil_iff.mp hall).2)
          exact ⟨got', multi, hok, by rw [List.flatMap_cons, hnil, List.nil_append, heq'], hle', hend', hvalid'⟩
      | cons entry got =>
          refine ⟨_, _, rfl, ?_, ?_, nofun, fun sub' hmem => ?_⟩
          · rw [List.flatMap_cons, SubDocs.left, heq, List.map_append, List.append_assoc]
            rfl
          · rwa [List.length_map]
          · rcases List.mem_cons.mp hmem with rfl | hmem
            · exact hdocs
            · exact hrest sub' hmem

/-- What a call returns of the documents that are left, and what it leaves. -/
inductive Returns : List TermDoc → Call → Answer → List TermDoc → Prop
  | next (rest : List TermDoc) : Returns rest .next (.entry rest.head?) rest.tail
  | skipTo (rest : List TermDoc) (target : Int) :
      Returns rest (.skipTo target) (.entry (rest.dropWhile fun entry => decide (entry.doc < target)).head?)
        (rest.dropWhile fun entry => decide (entry.doc < target)).tail
  | read (length : Nat) (got rest : List TermDoc) : got.length ≤ length → (got = [] → rest = []) →
      Returns (got ++ rest) (.read length) (.docs got) rest

inductive Follows : List TermDoc → List (Call × Answer) → List TermDoc → Prop
  | nil (rest : List TermDoc) : Follows rest [] rest
  | cons {rest mid last : List TermDoc} {call : Call} {answer : Answer} {answers : List (Call × Answer)} :
      Returns rest call answer mid → Follows mid answers last → Follows rest ((call, answer) :: answers) last

/-- The calls that are answered rightly. Nothing is read into no room, of positions, or of all documents before their
end; and no sub-reader in which `skipTo` looks for a document of all documents begins behind the target, or has passed
a live one from the target on. -/
def Meets (multi : MultiTermDocs) : Call → Prop
  | .next => True
  | .skipTo target =>
      Visits (fun sub => sub.docs.Ahead (target - sub.base)) (fun entry : TermDoc => entry.doc < target) multi.subs
  | .read length => (0 < length ∨ multi.left = []) ∧ ∀ sub ∈ multi.subs, sub.docs.Reads

def AllMeet : MultiTermDocs → List Call → Prop
  | _, [] => True
  | multi, call :: calls => multi.Meets call ∧ AllMeet (multi.call call).2 calls

theorem call_spec (hvalid : multi.Valid) {call : Call} (h : multi.Meets call) :
    Returns multi.left call (multi.call call).1 (multi.call call).2.left ∧ (multi.call call).2.Valid := by
  cases call with
  | next =>
      obtain ⟨hhead, htail, hvalid'⟩ := next_spec hvalid
      rw [MultiTermDocs.call]
      dsimp only
      rw [hhead, htail]
      exact ⟨.next _, hvalid'⟩
  | skipTo target =>
      obtain ⟨hhead, htail, hvalid'⟩ := skipTo_spec hvalid h
      rw [MultiTermDocs.call]
      dsimp only
      rw [hhead, htail]
      exact ⟨.skipTo _ _, hvalid'⟩
  | read length =>
      obtain ⟨got, multi', hread, heq, hle, hend, hvalid'⟩ := readFrom_spec hvalid h.2 h.1
      have hread' : multi.read length = some (got, multi') := hread
      rw [MultiTermDocs.call, hread']
      dsimp only
      have hleft : multi.left = got ++ multi'.left := heq
      rw [hleft]
      exact ⟨.read _ _ _ hle hend, hvalid'⟩

theorem run_spec {calls : List Call} (hvalid : multi.Valid) (h : multi.AllMeet calls) :
    Follows multi.left (multi.run calls).1 (multi.run calls).2.left := by
  induction calls generalizing multi with
  | nil => exact .nil _
  | cons call calls ih =>
      obtain ⟨hreturns, hvalid'⟩ := call_spec hvalid h.1
      exact .cons hreturns (ih hvalid' h.2)

end MultiTermDocs
end LucenePlusPlus
