import LucenePlusPlus.Term
import Mathlib.Data.List.TakeWhile

/-!
`FilteredTermEnum`: of the terms that an enumerator of the dictionary goes over, those that `termCompare` of the class
accepts, until it sets `_endEnum`.
-/

namespace LucenePlusPlus

/-- An enumerator: the term it is at and those that follow. -/
structure TermEnum where
  rest : List Term

namespace TermEnum

/-- The terms of a segment are in order. Those of the field with the empty name are so few that none of them is an
index term, where it would be taken for an unset one. -/
structure Indexed (indexInterval : Nat) (dictionary : List Term) : Prop where
  sorted : dictionary.Pairwise (· < ·)
  unnamed : (dictionary.filter fun term => decide (term.field = [])).length < indexInterval

/-- `IndexReader::terms`, of a segment. The buffer of an enumerator before its first term is unset, so that its field
and its text are empty: `scanTo` does not go beyond it for such a term. -/
def terms (dictionary : List Term) (t : Term) : TermEnum :=
  if t = ⟨[], []⟩ then ⟨t :: dictionary⟩ else ⟨dictionary.dropWhile fun term => decide (term < t)⟩

theorem terms_of_ne {dictionary : List Term} {t : Term} (h : t ≠ ⟨[], []⟩) :
    terms dictionary t = ⟨dictionary.dropWhile fun term => decide (term < t)⟩ := if_neg h

/-- A term of the field with the empty name is null. -/
def term (actualEnum : TermEnum) : Option Term := actualEnum.rest.head?.filter fun term => term.field ≠ []

def next (actualEnum : TermEnum) : Bool × TermEnum := (!actualEnum.rest.tail.isEmpty, ⟨actualEnum.rest.tail⟩)

theorem length_next_lt {actualEnum : TermEnum} (h : actualEnum.next.1 = true) :
    actualEnum.next.2.rest.length < actualEnum.rest.length := by
  rcases actualEnum with ⟨- | ⟨term, rest⟩⟩
  · cases h
  · exact Nat.lt_succ_self _

theorem term_cons {term : Term} {rest : List Term} (h : term.field ≠ []) : (⟨term :: rest⟩ : TermEnum).term = some term := by
  rw [TermEnum.term, List.head?_cons, Option.filter_some, if_pos (decide_eq_true h)]

theorem term_cons_unnamed {term : Term} {rest : List Term} (h : term.field = []) :
    (⟨term :: rest⟩ : TermEnum).term = none := by
  rw [TermEnum.term, List.head?_cons, Option.filter_some, if_neg (by simpa using h)]

end TermEnum

structure FilteredTermEnum where
  actualEnum : TermEnum
  currentTerm : Option Term
  endEnum : Bool

namespace FilteredTermEnum

inductive Failure
  | nullPointer
  /-- More terms than the rounds that are made. -/
  | rounds
  deriving DecidableEq

/-- What `termCompare` returns, and whether it sets `_endEnum`. -/
structure Comparison where
  accepted : Bool
  ended : Bool

variable (termCompare : Option Term → Except Failure Comparison)

def next (enum : FilteredTermEnum) : Except Failure (Bool × FilteredTermEnum) :=
  if enum.endEnum then .ok (false, { enum with currentTerm := none })
  else if _h : enum.actualEnum.next.1 = true then do
    let actualEnum := enum.actualEnum.next.2
    let comparison ← termCompare actualEnum.term
    if comparison.accepted then return (true, ⟨actualEnum, actualEnum.term, comparison.ended⟩)
    else next ⟨actualEnum, none, comparison.ended⟩
  else .ok (false, ⟨enum.actualEnum.next.2, none, false⟩)
termination_by enum.actualEnum.rest.length
decreasing_by exact TermEnum.length_next_lt _h

def setEnum (actualEnum : TermEnum) : Except Failure FilteredTermEnum :=
  match actualEnum.term with
  | none => (next termCompare ⟨actualEnum, none, false⟩).map Prod.snd
  | some term => do
      let comparison ← termCompare (some term)
      if comparison.accepted then return ⟨actualEnum, some term, comparison.ended⟩
      else (next termCompare ⟨actualEnum, none, comparison.ended⟩).map Prod.snd

/-- The term the enumeration is at, and those that calls of `next` go to until there are no more. -/
def remaining : Nat → FilteredTermEnum → Except Failure (List Term)
  | 0, _ => .error .rounds
  | rounds + 1, enum => do
      let (more, following) ← next termCompare enum
      let terms ← if more then remaining rounds following else pure []
      return enum.currentTerm.toList ++ terms

/-- All terms of an enumeration of the dictionary that begins at `t`. -/
def enumerate (dictionary : List Term) (t : Term) : Except Failure (List Term) := do
  remaining termCompare (dictionary.length + 1) (← setEnum termCompare (.terms dictionary t))

/-- The accepted ones of the terms before the one that ends the enumeration. -/
def selected (accepts ends : Term → Bool) (terms : List Term) : List Term :=
  (terms.takeWhile fun term => !ends term).filter accepts

variable {termCompare} {accepts ends : Term → Bool}

variable (termCompare accepts ends) in
/-- The terms have names for their fields, and are compared without failure. -/
structure Compares (terms : List Term) : Prop where
  named : ∀ term ∈ terms, term.field ≠ []
  compare : ∀ term ∈ terms, termCompare (some term) = .ok ⟨accepts term, ends term⟩
  goesOn : ∀ term ∈ terms, accepts term = true → ends term = false

theorem Compares.tail {term : Term} {rest : List Term} (h : Compares termCompare accepts ends (term :: rest)) :
    Compares termCompare accepts ends rest where
  named term' hmem := h.named term' (List.mem_cons_of_mem term hmem)
  compare term' hmem := h.compare term' (List.mem_cons_of_mem term hmem)
  goesOn term' hmem := h.goesOn term' (List.mem_cons_of_mem term hmem)

theorem selected_of_ends {term : Term} {rest : List Term} (h : ends term = true) :
    selected accepts ends (term :: rest) = [] := by
  rw [selected, List.takeWhile_cons_of_neg (by simp [h])]
  rfl

theorem selected_of_accepts {term : Term} {rest : List Term} (haccepts : accepts term = true) (hends : ends term = false) :
    selected accepts ends (term :: rest) = term :: selected accepts ends rest := by
  rw [selected, List.takeWhile_cons_of_pos (by simp [hends]), List.filter_cons_of_pos haccepts]
  rfl

theorem selected_of_not_accepts {term : Term} {rest : List Term} (haccepts : accepts term = false)
    (hends : ends term = false) : selected accepts ends (term :: rest) = selected accepts ends rest := by
  rw [selected, List.takeWhile_cons_of_pos (by simp [hends]), List.filter_cons_of_neg (by simp [haccepts])]
  rfl

/-- Nothing is left. -/
structure Exhausted (enum : FilteredTermEnum) : Prop where
  currentTerm : enum.currentTerm = none
  ended : enum.endEnum = true ∨ enum.actualEnum.rest.tail = []

theorem next_of_over {enum : FilteredTermEnum} (h : enum.endEnum = true ∨ enum.actualEnum.rest.tail = []) :
    ∃ following, next termCompare enum = .ok (false, following) ∧ Exhausted following := by
  rw [next]
  by_cases hends : enum.endEnum = true
  · rw [if_pos hends]
    exact ⟨_, rfl, rfl, Or.inl hends⟩
  · have htail := h.resolve_left hends
    rw [if_neg hends, dif_neg (by simp [TermEnum.next, htail])]
    exact ⟨_, rfl, rfl, Or.inr (by rw [TermEnum.next, htail]; rfl)⟩

theorem remaining_exhausted {rounds : Nat} {enum : FilteredTermEnum} (h : Exhausted enum) :
    remaining termCompare (rounds + 1) enum = .ok [] := by
  obtain ⟨following, heq, -⟩ := @next_of_over termCompare enum h.ended
  rw [remaining, heq, h.currentTerm]
  rfl

theorem next_spec {current : Term} {rest : List Term} (h : Compares termCompare accepts ends rest)
    (currentTerm : Option Term) :
    ∃ following, next termCompare ⟨⟨current :: rest⟩, currentTerm, false⟩ =
        .ok (!(selected accepts ends rest).isEmpty, following) ∧
      (selected accepts ends rest = [] ∧ Exhausted following ∨
        ∃ term rest', following = ⟨⟨term :: rest'⟩, some term, false⟩ ∧
          selected accepts ends rest = term :: selected accepts ends rest' ∧
          Compares termCompare accepts ends rest' ∧ rest'.length < rest.length) := by
  induction rest generalizing current currentTerm with
  | nil =>
      obtain ⟨following, heq, hexhausted⟩ :=
        @next_of_over termCompare ⟨⟨[current]⟩, currentTerm, false⟩ (Or.inr rfl)
      exact ⟨following, heq, Or.inl ⟨rfl, hexhausted⟩⟩
  | cons term rest ih =>
      have hterm : (⟨term :: rest⟩ : TermEnum).term = some term := TermEnum.term_cons (h.named term List.mem_cons_self)
      have hcompare := h.compare term List.mem_cons_self
      rw [next, if_neg Bool.false_ne_true, dif_pos (by simp [TermEnum.next])]
      simp only [TermEnum.next, List.tail_cons, hterm, hcompare]
      cases haccepts : accepts term with
      | true =>
          have hends := h.goesOn term List.mem_cons_self haccepts
          rw [selected_of_accepts haccepts hends, hends]
          exact ⟨_, rfl, Or.inr ⟨term, rest, rfl, rfl, h.tail, Nat.lt_succ_self _⟩⟩
      | false =>
          cases hends : ends term with
          | true =>
              obtain ⟨following, heq, hexhausted⟩ := @next_of_over termCompare ⟨⟨term :: rest⟩, none, true⟩ (Or.inl rfl)
              rw [selected_of_ends hends]
              exact ⟨following, heq, Or.inl ⟨rfl, hexhausted⟩⟩
          | false =>
              obtain ⟨following, heq, hrest⟩ := @ih term h.tail none
              rw [selected_of_not_accepts haccepts hends]
              refine ⟨following, heq, ?_⟩
              rcases hrest with hnone | ⟨term', rest', hfollowing, hselected, hcompares, hlt⟩
              · exact Or.inl hnone
              · exact Or.inr ⟨term', rest', hfollowing, hselected, hcompares, hlt.trans (Nat.lt_succ_self _)⟩

theorem remaining_spec {rounds : Nat} {term : Term} {rest : List Term} (h : Compares termCompare accepts ends rest)
    (hrounds : rest.length < rounds) :
    remaining termCompare rounds ⟨⟨term :: rest⟩, some term, false⟩ = .ok (term :: selected accepts ends rest) := by
  induction rounds generalizing term rest with
  | zero => exact absurd hrounds (Nat.not_lt_zero _)
  | succ rounds ih =>
      obtain ⟨following, heq, hfollowing⟩ := @next_spec _ _ _ term _ h (some term)
      rw [remaining, heq]
      rcases hfollowing with ⟨hnil, -⟩ | ⟨term', rest', rfl, hselected, hcompares, hlt⟩
      · rw [hnil]
        rfl
      · have hlast := @ih term' rest' hcompares (by omega)
        rw [hselected]
        show (do
          let terms ← remaining termCompare rounds ⟨⟨term' :: rest'⟩, some term', false⟩
          return (some term).toList ++ terms) = Except.ok (term :: term' :: selected accepts ends rest')
        rw [hlast]
        rfl

theorem setEnum_spec {rounds : Nat} {rest : List Term} (h : Compares termCompare accepts ends rest)
    (hrounds : rest.length ≤ rounds) :
    (setEnum termCompare ⟨rest⟩ >>= remaining termCompare (rounds + 1)) = .ok (selected accepts ends rest) := by
  cases rest with
  | nil =>
      obtain ⟨following, heq, hexhausted⟩ := @next_of_over termCompare ⟨⟨[]⟩, none, false⟩ (Or.inr rfl)
      have hset : setEnum termCompare ⟨[]⟩ = .ok following := by
        show (next termCompare ⟨⟨[]⟩, none, false⟩).map Prod.snd = _
        rw [heq]
        rfl
      rw [hset]
      exact remaining_exhausted hexhausted
  | cons term rest =>
      have hterm : (⟨term :: rest⟩ : TermEnum).term = some term := TermEnum.term_cons (h.named term List.mem_cons_self)
      have hcompare := h.compare term List.mem_cons_self
      rw [setEnum, hterm]
      dsimp only
      rw [hcompare]
      cases haccepts : accepts term with
      | true =>
          have hends := h.goesOn term List.mem_cons_self haccepts
          rw [selected_of_accepts haccepts hends, hends]
          exact remaining_spec h.tail (Nat.lt_succ_of_lt hrounds)
      | false =>
          cases hends : ends term with
          | true =>
              obtain ⟨following, heq, hexhausted⟩ := @next_of_over termCompare ⟨⟨term :: rest⟩, none, true⟩ (Or.inl rfl)
              rw [selected_of_ends hends]
              show ((next termCompare ⟨⟨term :: rest⟩, none, true⟩).map Prod.snd >>= remaining termCompare (rounds + 1)) = _
              rw [heq]
              exact remaining_exhausted hexhausted
          | false =>
              obtain ⟨following, heq, hfollowing⟩ := @next_spec _ _ _ term _ h.tail none
              rw [selected_of_not_accepts haccepts hends]
              show ((next termCompare ⟨⟨term :: rest⟩, none, false⟩).map Prod.snd >>= remaining termCompare (rounds + 1)) = _
              rw [heq]
              rcases hfollowing with ⟨hnil, hexhausted⟩ | ⟨term', rest', rfl, hselected, hcompares, hlt⟩
              · rw [hnil]
                exact remaining_exhausted hexhausted
              · rw [hselected]
                have hlength := @List.length_cons _ term rest
                exact remaining_spec hcompares (by omega)

theorem enumerate_eq {dictionary : List Term} {t : Term} (ht : t ≠ ⟨[], []⟩)
    (h : Compares termCompare accepts ends (dictionary.dropWhile fun term => decide (term < t))) :
    enumerate termCompare dictionary t =
      .ok (selected accepts ends (dictionary.dropWhile fun term => decide (term < t))) := by
  rw [enumerate, TermEnum.terms_of_ne ht]
  exact setEnum_spec h (List.dropWhile_sublist _).length_le

/-! ### Dictionaries in order -/

/-- If nothing before `t` is accepted, and what is between `t` and an accepted term does not end the enumeration. -/
theorem selected_dropWhile {dictionary : List Term} {t : Term} (hsorted : dictionary.Pairwise (· < ·))
    (hstart : ∀ term ∈ dictionary, accepts term = true → t ≤ term)
    (hgoesOn : ∀ term ∈ dictionary, accepts term = true → ends term = false)
    (hbetween : ∀ term term', t ≤ term → term < term' → accepts term' = true → ends term = false) :
    selected accepts ends (dictionary.dropWhile fun term => decide (term < t)) = dictionary.filter accepts := by
  induction dictionary with
  | nil => rfl
  | cons term rest ih =>
      obtain ⟨hlt, hrest⟩ := List.pairwise_cons.mp hsorted
      have hlast := ih hrest (fun term' hmem => hstart term' (List.mem_cons_of_mem term hmem))
        fun term' hmem => hgoesOn term' (List.mem_cons_of_mem term hmem)
      by_cases hbefore : term < t
      · have hnot : accepts term = false := by
          by_contra haccepts
          exact (hstart term List.mem_cons_self (Bool.eq_true_of_not_eq_false haccepts)).not_gt hbefore
        rw [List.dropWhile_cons, if_pos (decide_eq_true hbefore), List.filter_cons_of_neg (by simp [hnot])]
        exact hlast
      · have hle : t ≤ term := not_lt.mp hbefore
        have hdrop : rest.dropWhile (fun term => decide (term < t)) = rest := by
          rw [List.dropWhile_eq_self_iff]
          intro hpos
          simpa using hle.trans (hlt _ (List.getElem_mem hpos)).le
        rw [hdrop] at hlast
        rw [List.dropWhile_cons, if_neg (by simpa using hle)]
        cases hends : ends term with
        | true =>
            have hnone : ∀ term' ∈ term :: rest, ¬ accepts term' = true := by
              intro term' hmem haccepts
              rcases List.mem_cons.mp hmem with rfl | hmem
              · rw [hgoesOn term' List.mem_cons_self haccepts] at hends
                cases hends
              · rw [hbetween term term' hle (hlt term' hmem) haccepts] at hends
                cases hends
            rw [selected_of_ends hends, List.filter_eq_nil_iff.mpr hnone]
        | false =>
            cases haccepts : accepts term with
            | true => rw [selected_of_accepts haccepts hends, hlast, List.filter_cons_of_pos haccepts]
            | false =>
                rw [selected_of_not_accepts haccepts hends, hlast, List.filter_cons_of_neg (by simp [haccepts])]

theorem dropWhile_eq_filter {dictionary : List Term} (hsorted : dictionary.Pairwise (· < ·)) (t : Term) :
    dictionary.dropWhile (fun term => decide (term < t)) = dictionary.filter fun term => decide (t ≤ term) := by
  induction dictionary with
  | nil => rfl
  | cons term rest ih =>
      obtain ⟨hlt, hrest⟩ := List.pairwise_cons.mp hsorted
      by_cases hbefore : term < t
      · rw [List.dropWhile_cons, if_pos (decide_eq_true hbefore), ih hrest,
          List.filter_cons_of_neg (by simpa using hbefore)]
      · have hle : t ≤ term := not_lt.mp hbefore
        rw [List.dropWhile_cons, if_neg (by simpa using hle), List.filter_eq_self.mpr]
        intro term' hmem
        rcases List.mem_cons.mp hmem with rfl | hmem
        · exact decide_eq_true hle
        · exact decide_eq_true (hle.trans (hlt term' hmem).le)

theorem le_iff {t term : Term} : t ≤ term ↔ t.field < term.field ∨ t.field = term.field ∧ t.text ≤ term.text := by
  rw [← not_lt, Term.lt_iff, not_or, not_and]
  constructor
  · rintro ⟨hfield, htext⟩
    rcases (not_lt.mp hfield).lt_or_eq with hlt | heq
    · exact Or.inl hlt
    · exact Or.inr ⟨heq, not_lt.mp (htext heq.symm)⟩
  · rintro (hlt | ⟨heq, hle⟩)
    · exact ⟨hlt.not_gt, fun heq => absurd heq hlt.ne'⟩
    · exact ⟨heq.not_gt, fun _ => hle.not_gt⟩

theorem field_le {t term : Term} (h : t ≤ term) : t.field ≤ term.field := by
  rcases le_iff.mp h with hlt | ⟨heq, -⟩
  · exact hlt.le
  · exact heq.le

/-- The terms of the dictionary that match, each once and in order. -/
def Enumerated (dictionary : List Term) (Matches : Term → Prop) (terms : List Term) : Prop :=
  terms.Pairwise (· < ·) ∧ ∀ term, term ∈ terms ↔ term ∈ dictionary ∧ Matches term

theorem enumerated_filter {dictionary : List Term} {Matches : Term → Prop} (hsorted : dictionary.Pairwise (· < ·))
    (h : ∀ term, accepts term = true ↔ Matches term) : Enumerated dictionary Matches (dictionary.filter accepts) :=
  ⟨hsorted.filter accepts, fun term => by rw [List.mem_filter, h]⟩

theorem enumerated_nil_iff {dictionary : List Term} {Matches : Term → Prop} :
    Enumerated dictionary Matches [] ↔ ∀ term ∈ dictionary, ¬ Matches term := by
  constructor
  · intro h term hmem hmatches
    exact List.not_mem_nil ((h.2 term).mpr ⟨hmem, hmatches⟩)
  · exact fun h => ⟨List.Pairwise.nil, fun term => iff_of_false List.not_mem_nil fun ⟨hmem, hmatches⟩ => h term hmem hmatches⟩

theorem enumerate_unnamed {dictionary : List Term} {t term : Term} {rest : List Term}
    (hterms : TermEnum.terms dictionary t = ⟨term :: rest⟩) (hterm : term.field = [])
    (hrest : rest ≠ [] → termCompare (⟨rest⟩ : TermEnum).term = .ok ⟨false, true⟩) :
    enumerate termCompare dictionary t = .ok [] := by
  have hset : ∃ enum, setEnum termCompare ⟨term :: rest⟩ = .ok enum ∧ Exhausted enum := by
    rw [setEnum, TermEnum.term_cons_unnamed hterm]
    dsimp only
    rw [next, if_neg Bool.false_ne_true]
    by_cases hnil : rest = []
    · rw [dif_neg (by simp [TermEnum.next, hnil])]
      exact ⟨_, rfl, rfl, Or.inr (by simp [TermEnum.next, hnil])⟩
    · obtain ⟨following, heq, hexhausted⟩ := @next_of_over termCompare ⟨⟨rest⟩, none, true⟩ (Or.inl rfl)
      rw [dif_pos (by simpa [TermEnum.next] using hnil)]
      simp only [TermEnum.next, List.tail_cons, hrest hnil]
      show ∃ enum, (next termCompare ⟨⟨rest⟩, none, true⟩).map Prod.snd = .ok enum ∧ Exhausted enum
      rw [heq]
      exact ⟨following, rfl, hexhausted⟩
  obtain ⟨enum, heq, hexhausted⟩ := hset
  rw [enumerate, hterms, heq]
  exact remaining_exhausted hexhausted

theorem enumerate_unnamed_error {dictionary : List Term} {t term second : Term} {rest : List Term} {failure : Failure}
    (hterms : TermEnum.terms dictionary t = ⟨term :: second :: rest⟩) (hterm : term.field = [])
    (hsecond : termCompare (⟨second :: rest⟩ : TermEnum).term = .error failure) :
    enumerate termCompare dictionary t = .error failure := by
  rw [enumerate, hterms, setEnum, TermEnum.term_cons_unnamed hterm]
  dsimp only
  rw [next, if_neg Bool.false_ne_true, dif_pos (by simp [TermEnum.next])]
  simp only [TermEnum.next, List.tail_cons, hsecond]
  rfl

end FilteredTermEnum
end LucenePlusPlus
