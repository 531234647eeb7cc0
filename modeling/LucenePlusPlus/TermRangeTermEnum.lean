import LucenePlusPlus.WildcardTermEnum

/-!
`TermRangeTermEnum`, without a collator: the terms of a field between two texts. The enumeration begins at the lower
text and ends behind the upper one.
-/

namespace LucenePlusPlus

/-- The bounds as they are given. An open one is null. -/
structure TermRange where
  field : WString
  lowerTermText : Option WString
  upperTermText : Option WString
  includeLower : Bool
  includeUpper : Bool

/-- A term of the field between the bounds. -/
structure TermRange.Matches (range : TermRange) (term : Term) : Prop where
  field : term.field = range.field
  lower : ∀ lower ∈ range.lowerTermText, lower < term.text ∨ range.includeLower = true ∧ lower = term.text
  upper : ∀ upper ∈ range.upperTermText, term.text < upper ∨ range.includeUpper = true ∧ upper = term.text

structure TermRangeTermEnum extends TermRange

namespace TermRangeTermEnum
open FilteredTermEnum

/-- The constructor, up to `setEnum`: open ended range queries should always be inclusive. -/
def new (range : TermRange) : TermRangeTermEnum :=
  { range with
    includeLower := if range.lowerTermText.isNone then true else range.includeLower
    includeUpper := if range.upperTermText.isNone then true else range.includeUpper }

def termCompare (enum : TermRangeTermEnum) : Option Term → Except Failure Comparison
  | none => .ok { accepted := false, ended := true }
  | some term =>
      let checkLower := !enum.includeLower
      .ok (if term.field = enum.field then
        if checkLower = false ∨ enum.lowerTermText.isNone ∨ term.text.compare (enum.lowerTermText.getD []) > 0 then
          match enum.upperTermText with
          | none => { accepted := true, ended := false }
          | some upperTermText =>
              let compare := upperTermText.compare term.text
              -- if beyond the upper term, or is exclusive and this is equal to the upper term, break out
              if compare < 0 ∨ enum.includeUpper = false ∧ compare = 0 then { accepted := false, ended := true }
              else { accepted := true, ended := false }
        else { accepted := false, ended := false }
      else { accepted := false, ended := true })

/-- The text of null is empty. -/
def startTermText (range : TermRange) : WString := range.lowerTermText.getD []

/-- The terms that are enumerated. -/
def enumerate (dictionary : List Term) (range : TermRange) : Except Failure (List Term) :=
  FilteredTermEnum.enumerate (new range).termCompare dictionary ⟨range.field, startTermText range⟩

variable {range : TermRange} {term term' : Term} {dictionary : List Term}

/-- The lower bound, for a term that is not before the start. -/
def AboveLower (range : TermRange) (text : WString) : Prop :=
  ∀ lower ∈ range.lowerTermText, lower < text ∨ range.includeLower = true ∧ lower = text

def BelowUpper (range : TermRange) (text : WString) : Prop :=
  ∀ upper ∈ range.upperTermText, text < upper ∨ range.includeUpper = true ∧ upper = text

theorem matches_iff : range.Matches term ↔
    term.field = range.field ∧ AboveLower range term.text ∧ BelowUpper range term.text :=
  ⟨fun h => ⟨h.field, h.lower, h.upper⟩, fun h => ⟨h.1, h.2.1, h.2.2⟩⟩

theorem checksLower_iff (hstart : startTermText range ≤ term.text) :
    ((!(new range).includeLower) = false ∨ (new range).lowerTermText.isNone ∨
      term.text.compare ((new range).lowerTermText.getD []) > 0) ↔ AboveLower range term.text := by
  rw [AboveLower, new]
  rw [startTermText] at hstart
  cases hlower : range.lowerTermText with
  | none => exact iff_of_true (Or.inr (Or.inl rfl)) nofun
  | some lower =>
      rw [hlower] at hstart
      have hpos : term.text.compare lower > 0 ↔ lower < term.text := by
        rw [gt_iff_lt, ← not_le, WString.compare_nonpos_iff, not_le]
      simp only [Option.isNone_some, Bool.false_eq_true, if_false, false_or, Option.getD_some, hpos, Option.mem_some_iff,
        forall_eq']
      cases range.includeLower with
      | true => exact iff_of_true (Or.inl rfl) (hstart.lt_or_eq.imp_right fun heq => ⟨rfl, heq⟩)
      | false => simp

theorem pastUpper_iff {upper : WString} (hupper : range.upperTermText = some upper) :
    (upper.compare term.text < 0 ∨ (new range).includeUpper = false ∧ upper.compare term.text = 0) ↔
      ¬ BelowUpper range term.text := by
  rw [BelowUpper, new, hupper, WString.compare_neg_iff, WString.compare_eq_zero_iff]
  simp only [Option.isNone_some, Bool.false_eq_true, if_false, Option.mem_some_iff, forall_eq', not_or, not_and, not_lt]
  constructor
  · rintro (hlt | ⟨hexclusive, rfl⟩)
    · exact ⟨hlt.le, fun _ => hlt.ne⟩
    · exact ⟨le_rfl, fun hinclusive => by rw [hexclusive] at hinclusive; cases hinclusive⟩
  · rintro ⟨hle, hne⟩
    rcases hle.lt_or_eq with hlt | rfl
    · exact Or.inl hlt
    · refine Or.inr ⟨?_, rfl⟩
      cases hinclusive : range.includeUpper with
      | true => exact absurd rfl (hne hinclusive)
      | false => rfl

theorem termCompare_some (hstart : ⟨range.field, startTermText range⟩ ≤ term) :
    ∃ comparison, (new range).termCompare (some term) = .ok comparison ∧
      (comparison.accepted = true ↔ range.Matches term) ∧
      (comparison.ended = true ↔ term.field ≠ range.field ∨
        AboveLower range term.text ∧ ¬ BelowUpper range term.text) := by
  rw [termCompare, matches_iff]
  refine ⟨_, rfl, ?_⟩
  by_cases hfield : term.field = range.field
  · have htext : startTermText range ≤ term.text := by
      rcases FilteredTermEnum.le_iff.mp hstart with hlt | ⟨-, hle⟩
      · exact absurd hfield.symm hlt.ne
      · exact hle
    rw [if_pos (show term.field = (new range).field from hfield)]
    by_cases hlower : AboveLower range term.text
    · rw [if_pos ((checksLower_iff htext).mpr hlower)]
      cases hupper : range.upperTermText with
      | none =>
          have hbelow : BelowUpper range term.text := by
            rw [BelowUpper, hupper]
            exact nofun
          have hnew : (new range).upperTermText = none := hupper
          rw [hnew]
          simp [hfield, hlower, hbelow]
      | some upper =>
          have hnew : (new range).upperTermText = some upper := hupper
          rw [hnew]
          dsimp only
          by_cases hbelow : BelowUpper range term.text
          · rw [if_neg fun hpast => (pastUpper_iff hupper).mp hpast hbelow]
            simp [hfield, hlower, hbelow]
          · rw [if_pos ((pastUpper_iff hupper).mpr hbelow)]
            simp [hlower, hbelow]
    · rw [if_neg fun hchecks => hlower ((checksLower_iff htext).mp hchecks)]
      simp [hfield, hlower]
  · rw [if_neg (show ¬ term.field = (new range).field from hfield)]
    simp [hfield]

/-! ### The enumeration -/

theorem start_le_of_matches (h : range.Matches term) : ⟨range.field, startTermText range⟩ ≤ term := by
  refine FilteredTermEnum.le_iff.mpr (Or.inr ⟨h.field.symm, ?_⟩)
  rw [startTermText]
  cases hlower : range.lowerTermText with
  | none => exact not_lt.mp (List.not_lt_nil _)
  | some lower =>
      rcases h.lower lower hlower with hlt | ⟨-, heq⟩
      · exact hlt.le
      · exact heq.le

/-- Before a term that matches, no term from the start on is past the upper bound. -/
theorem not_past_of_lt (hstart : ⟨range.field, startTermText range⟩ ≤ term) (hlt : term < term')
    (h : range.Matches term') : ¬ (term.field ≠ range.field ∨ AboveLower range term.text ∧ ¬ BelowUpper range term.text) := by
  have hfield : term.field = range.field :=
    le_antisymm (h.field ▸ FilteredTermEnum.field_le hlt.le)
      (@FilteredTermEnum.field_le ⟨range.field, startTermText range⟩ term hstart)
  have htext : term.text ≤ term'.text := by
    rcases FilteredTermEnum.le_iff.mp hlt.le with hless | ⟨-, hle⟩
    · exact absurd (hfield.trans h.field.symm) hless.ne
    · exact hle
  rintro (hne | ⟨-, hpast⟩)
  · exact hne hfield
  · apply hpast
    intro upper hupper
    rcases h.upper upper hupper with hbelow | ⟨hinclusive, heq⟩
    · exact Or.inl (htext.trans_lt hbelow)
    · exact (htext.trans heq.ge).lt_or_eq.imp_right fun hsame => ⟨hinclusive, hsame.symm⟩

open Classical in
theorem enumerate_named (hsorted : dictionary.Pairwise (· < ·))
    (hstart : (⟨range.field, startTermText range⟩ : Term) ≠ ⟨[], []⟩)
    (hnamed : ∀ term ∈ dictionary, ⟨range.field, startTermText range⟩ ≤ term → term.field ≠ []) :
    ∃ terms, enumerate dictionary range = .ok terms ∧ Enumerated dictionary range.Matches terms := by
  let accepts : Term → Bool := fun term => decide (range.Matches term)
  let ends : Term → Bool := fun term =>
    decide (term.field ≠ range.field ∨ AboveLower range term.text ∧ ¬ BelowUpper range term.text)
  have hgoesOn : ∀ term, accepts term = true → ends term = false := by
    intro term haccepts
    have hmatches : range.Matches term := of_decide_eq_true haccepts
    apply decide_eq_false
    rintro (hne | ⟨-, hpast⟩)
    · exact hne hmatches.field
    · exact hpast hmatches.upper
  have hcompares : Compares (new range).termCompare accepts ends
      (dictionary.dropWhile fun term => decide (term < ⟨range.field, startTermText range⟩)) := by
    rw [FilteredTermEnum.dropWhile_eq_filter hsorted]
    refine ⟨fun term hmem => ?_, fun term hmem => ?_, fun term _ => hgoesOn term⟩
    · obtain ⟨hmem, hle⟩ := List.mem_filter.mp hmem
      exact hnamed term hmem (of_decide_eq_true hle)
    · obtain ⟨comparison, heq, haccepted, hended⟩ := termCompare_some (of_decide_eq_true (List.mem_filter.mp hmem).2)
      have hsame : comparison = ⟨accepts term, ends term⟩ := by
        rcases comparison with ⟨accepted, ended⟩
        exact congrArg₂ Comparison.mk (Bool.eq_iff_iff.mpr (haccepted.trans decide_eq_true_iff.symm))
          (Bool.eq_iff_iff.mpr (hended.trans decide_eq_true_iff.symm))
      rw [heq, hsame]
  refine ⟨dictionary.filter accepts, ?_, FilteredTermEnum.enumerated_filter hsorted fun term => decide_eq_true_iff⟩
  rw [enumerate, FilteredTermEnum.enumerate_eq hstart hcompares, FilteredTermEnum.selected_dropWhile hsorted]
  · exact fun term _ haccepts => start_le_of_matches (of_decide_eq_true haccepts)
  · exact fun term _ => hgoesOn term
  · exact fun term term' hle hlt haccepts => decide_eq_false (not_past_of_lt hle hlt (of_decide_eq_true haccepts))

theorem enumerate_unnamed {first : Term} {others : List Term} (hfield : range.field = []) (hfirst : first.field = [])
    (hterms : TermEnum.terms dictionary ⟨range.field, startTermText range⟩ = ⟨first :: others⟩) :
    enumerate dictionary range = .ok [] := by
  apply FilteredTermEnum.enumerate_unnamed hterms hfirst
  intro hne
  cases others with
  | nil => exact absurd rfl hne
  | cons second others =>
      by_cases hsecond : second.field = []
      · rw [TermEnum.term_cons_unnamed hsecond]
        rfl
      · rw [TermEnum.term_cons hsecond, termCompare, if_neg]
        exact fun hsame => hsecond (hsame.trans hfield)

theorem enumerate_null_exact_iff {first : Term} {others : List Term} (hfield : range.field = []) (hfirst : first.field = [])
    (hterms : TermEnum.terms dictionary ⟨range.field, startTermText range⟩ = ⟨first :: others⟩) :
    (∃ terms, enumerate dictionary range = .ok terms ∧ Enumerated dictionary range.Matches terms) ↔
      range.field ≠ [] ∨ ∀ term ∈ dictionary, ¬ range.Matches term := by
  rw [enumerate_unnamed hfield hfirst hterms, or_iff_right (not_not.mpr hfield), ← enumerated_nil_iff]
  constructor
  · rintro ⟨terms, hterms, henumerated⟩
    cases hterms
    exact henumerated
  · exact fun henumerated => ⟨[], rfl, henumerated⟩

theorem enumerate_exact_iff (hsorted : dictionary.Pairwise (· < ·)) :
    (∃ terms, enumerate dictionary range = .ok terms ∧ Enumerated dictionary range.Matches terms) ↔
      range.field ≠ [] ∨ ∀ term ∈ dictionary, ¬ range.Matches term := by
  by_cases hstart : (⟨range.field, startTermText range⟩ : Term) = ⟨[], []⟩
  · have hfield : range.field = [] := (Term.mk.inj hstart).1
    exact enumerate_null_exact_iff hfield hfield (if_pos hstart)
  by_cases hnamed : ∀ term ∈ dictionary, ⟨range.field, startTermText range⟩ ≤ term → term.field ≠ []
  · refine iff_of_true (enumerate_named hsorted hstart hnamed) ?_
    by_cases hfield : range.field = []
    · exact Or.inr fun term hmem h => hnamed term hmem (start_le_of_matches h) (h.field.trans hfield)
    · exact Or.inl hfield
  · push Not at hnamed
    obtain ⟨term, hmem, hle, hterm⟩ := hnamed
    have hfield : range.field = [] := by
      have hle' := @FilteredTermEnum.field_le ⟨range.field, startTermText range⟩ term hle
      rw [hterm] at hle'
      exact WildcardTermEnum.eq_nil_of_le hle'
    have hterms := @TermEnum.terms_of_ne dictionary _ hstart
    rw [FilteredTermEnum.dropWhile_eq_filter hsorted] at hterms
    have hrestSorted := hsorted.filter fun term => decide ((⟨range.field, startTermText range⟩ : Term) ≤ term)
    have hin : term ∈ dictionary.filter fun term => decide ((⟨range.field, startTermText range⟩ : Term) ≤ term) :=
      List.mem_filter.mpr ⟨hmem, decide_eq_true hle⟩
    cases hrest : dictionary.filter fun term => decide ((⟨range.field, startTermText range⟩ : Term) ≤ term) with
    | nil =>
        rw [hrest] at hin
        cases hin
    | cons first others =>
        rw [hrest] at hterms hrestSorted hin
        have hfirst : first.field = [] := by
          by_contra hne
          exact WildcardTermEnum.named_behind hrestSorted hne term hin hterm
        exact enumerate_null_exact_iff hfield hfirst hterms

end TermRangeTermEnum

/-- The patterns match as they should, and the enumerations are right but for the field with the empty name. -/
theorem term_enumerations_exact_iff {indexInterval : Nat} {dictionary : List Term}
    (hindexed : TermEnum.Indexed indexInterval dictionary) (term : Term) (range : TermRange) :
    (∀ pattern string, WildcardTermEnum.wildcardEquals pattern string = true ↔ WildcardTermEnum.Glob pattern string) ∧
    ((∃ terms, WildcardTermEnum.enumerate dictionary term = .ok terms ∧
        FilteredTermEnum.Enumerated dictionary (WildcardTermEnum.Matches term) terms) ↔
      term.field ≠ [] ∨
        ((WildcardTermEnum.unnamed dictionary (WildcardTermEnum.new term).pre).length <
          if (WildcardTermEnum.new term).pre = [] then 1 else 2) ∧
        ∀ term' ∈ dictionary, ¬ WildcardTermEnum.Matches term term') ∧
    ((∃ terms, TermRangeTermEnum.enumerate dictionary range = .ok terms ∧
        FilteredTermEnum.Enumerated dictionary range.Matches terms) ↔
      range.field ≠ [] ∨ ∀ term' ∈ dictionary, ¬ range.Matches term') :=
  ⟨WildcardTermEnum.wildcardEquals_iff, WildcardTermEnum.enumerate_exact_iff hindexed.sorted,
    TermRangeTermEnum.enumerate_exact_iff hindexed.sorted⟩

/-- The term "a" of the field with the empty name and of the field "f". -/
def twoFieldsDictionary : List Term :=
  [⟨[], [⟨97, WChar.a_mem⟩]⟩, ⟨[⟨102, WChar.f_mem⟩], [⟨97, WChar.a_mem⟩]⟩]

theorem twoFieldsDictionary_indexed : TermEnum.Indexed 128 twoFieldsDictionary :=
  ⟨List.pairwise_pair.mpr (Term.lt_iff.mpr (Or.inl (List.nil_lt_cons _ _))), by decide⟩

theorem term_enumerations_exact_iff_two_fields :
    (∀ pattern string, WildcardTermEnum.wildcardEquals pattern string = true ↔ WildcardTermEnum.Glob pattern string) ∧
    ((∃ terms, WildcardTermEnum.enumerate twoFieldsDictionary ⟨[], [WildcardTermEnum.WILDCARD_STRING]⟩ = .ok terms ∧
        FilteredTermEnum.Enumerated twoFieldsDictionary
          (WildcardTermEnum.Matches ⟨[], [WildcardTermEnum.WILDCARD_STRING]⟩) terms) ↔
      ([] : WString) ≠ [] ∨ ((WildcardTermEnum.unnamed twoFieldsDictionary
        (WildcardTermEnum.new ⟨[], [WildcardTermEnum.WILDCARD_STRING]⟩).pre).length <
          if (WildcardTermEnum.new ⟨[], [WildcardTermEnum.WILDCARD_STRING]⟩).pre = [] then 1 else 2) ∧
        ∀ term' ∈ twoFieldsDictionary, ¬ WildcardTermEnum.Matches ⟨[], [WildcardTermEnum.WILDCARD_STRING]⟩ term') ∧
    ((∃ terms, TermRangeTermEnum.enumerate twoFieldsDictionary ⟨[⟨102, by decide⟩], none, none, false, false⟩ = .ok terms ∧
        FilteredTermEnum.Enumerated twoFieldsDictionary
          (TermRange.Matches ⟨[⟨102, by decide⟩], none, none, false, false⟩) terms) ↔
      ([⟨102, by decide⟩] : WString) ≠ [] ∨
        ∀ term' ∈ twoFieldsDictionary, ¬ TermRange.Matches ⟨[⟨102, by decide⟩], none, none, false, false⟩ term') :=
  term_enumerations_exact_iff twoFieldsDictionary_indexed ⟨[], [WildcardTermEnum.WILDCARD_STRING]⟩
    ⟨[⟨102, by decide⟩], none, none, false, false⟩

/-- A term of the field with the empty name that matches is not enumerated. -/
theorem unnamed_term_is_lost :
    ¬ ((∃ terms, WildcardTermEnum.enumerate twoFieldsDictionary ⟨[], [WildcardTermEnum.WILDCARD_STRING]⟩ = .ok terms ∧
        FilteredTermEnum.Enumerated twoFieldsDictionary
          (WildcardTermEnum.Matches ⟨[], [WildcardTermEnum.WILDCARD_STRING]⟩) terms) ∧
      ∃ terms, TermRangeTermEnum.enumerate twoFieldsDictionary ⟨[], none, none, false, false⟩ = .ok terms ∧
        FilteredTermEnum.Enumerated twoFieldsDictionary (TermRange.Matches ⟨[], none, none, false, false⟩) terms) := by
  rintro ⟨-, hrange⟩
  rcases (TermRangeTermEnum.enumerate_exact_iff twoFieldsDictionary_indexed.sorted).mp hrange with hne | hno
  · exact hne rfl
  · exact hno _ List.mem_cons_self ⟨rfl, nofun, nofun⟩

end LucenePlusPlus
