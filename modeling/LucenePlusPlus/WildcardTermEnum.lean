import LucenePlusPlus.FilteredTermEnum
import Mathlib.Data.List.Infix

/-!
`WildcardTermEnum`: the terms of a field that match a pattern with wildcards. The terms that begin with the part of the
pattern before its first wildcard follow one another in the dictionary.
-/

namespace LucenePlusPlus
namespace WildcardTermEnum
open FilteredTermEnum

def WILDCARD_STRING : WChar := ⟨42, by decide⟩

def WILDCARD_CHAR : WChar := ⟨63, by decide⟩

/-! ### Patterns -/

/-- Whether the pattern ends in wildcards that need no more characters. -/
def justWildcardsLeft : WString → Bool
  | [] => true
  | wildchar :: pattern =>
      if wildchar ≠ WILDCARD_CHAR ∧ wildchar ≠ WILDCARD_STRING then false
      else if wildchar = WILDCARD_CHAR then false -- to prevent "cat" matches "ca??"
      else justWildcardsLeft pattern

/-- The pattern and the string are those from `patternIdx` and from `stringIdx` on. -/
def wildcardEquals : WString → WString → Bool
  | pattern, [] => justWildcardsLeft pattern
  | [], _ :: _ => false
  | p :: pattern, s :: string =>
      if p = WILDCARD_CHAR then wildcardEquals pattern string
      else if p = WILDCARD_STRING then
        -- the string is examined from its end on
        (s :: string).tails.reverse.any fun rest =>
          wildcardEquals (pattern.dropWhile fun p => decide (p = WILDCARD_STRING)) rest
      else if p ≠ s then false
      else wildcardEquals pattern string
termination_by pattern => pattern.length
decreasing_by
  · exact Nat.lt_succ_self _
  · exact Nat.lt_succ_of_le (List.dropWhile_sublist _).length_le
  · exact Nat.lt_succ_self _

/-- `?` stands for one character and `*` for any number of them. -/
def Glob : WString → WString → Prop
  | [], string => string = []
  | p :: pattern, string =>
      if p = WILDCARD_CHAR then ∃ c rest, string = c :: rest ∧ Glob pattern rest
      else if p = WILDCARD_STRING then ∃ skipped rest, string = skipped ++ rest ∧ Glob pattern rest
      else ∃ rest, string = p :: rest ∧ Glob pattern rest

theorem star_ne_any : WILDCARD_STRING ≠ WILDCARD_CHAR := by decide

theorem glob_any_iff (pattern string : WString) :
    Glob (WILDCARD_CHAR :: pattern) string ↔ ∃ c rest, string = c :: rest ∧ Glob pattern rest := by
  rw [Glob, if_pos rfl]

theorem glob_star_iff (pattern string : WString) :
    Glob (WILDCARD_STRING :: pattern) string ↔ ∃ skipped rest, string = skipped ++ rest ∧ Glob pattern rest := by
  rw [Glob, if_neg star_ne_any, if_pos rfl]

theorem glob_char_iff {p : WChar} (hany : p ≠ WILDCARD_CHAR) (hstar : p ≠ WILDCARD_STRING) (pattern string : WString) :
    Glob (p :: pattern) string ↔ ∃ rest, string = p :: rest ∧ Glob pattern rest := by
  rw [Glob, if_neg hany, if_neg hstar]

theorem justWildcardsLeft_iff (pattern : WString) : justWildcardsLeft pattern = true ↔ Glob pattern [] := by
  induction pattern with
  | nil => exact iff_of_true rfl rfl
  | cons p pattern ih =>
      rw [justWildcardsLeft]
      by_cases hany : p = WILDCARD_CHAR
      · subst hany
        rw [if_neg (fun h => h.1 rfl), if_pos rfl, glob_any_iff]
        exact iff_of_false Bool.false_ne_true fun ⟨c, rest, heq, _⟩ => by cases heq
      · by_cases hstar : p = WILDCARD_STRING
        · subst hstar
          rw [if_neg (fun h => h.2 rfl), if_neg hany, ih, glob_star_iff]
          constructor
          · exact fun h => ⟨[], [], rfl, h⟩
          · rintro ⟨skipped, rest, heq, h⟩
            rwa [(List.append_eq_nil_iff.mp heq.symm).2] at h
        · rw [if_pos ⟨hany, hstar⟩, glob_char_iff hany hstar]
          exact iff_of_false Bool.false_ne_true fun ⟨rest, heq, _⟩ => by cases heq

theorem glob_stars_iff (pattern string : WString) :
    Glob (WILDCARD_STRING :: pattern) string ↔
      ∃ rest, rest <:+ string ∧ Glob (pattern.dropWhile fun p => decide (p = WILDCARD_STRING)) rest := by
  induction pattern generalizing string with
  | nil =>
      rw [glob_star_iff]
      exact ⟨fun ⟨skipped, rest, heq, h⟩ => ⟨rest, ⟨skipped, heq.symm⟩, h⟩,
        fun ⟨rest, ⟨skipped, heq⟩, h⟩ => ⟨skipped, rest, heq.symm, h⟩⟩
  | cons p pattern ih =>
      rw [glob_star_iff, List.dropWhile_cons]
      by_cases hstar : p = WILDCARD_STRING
      · subst hstar
        rw [if_pos (decide_eq_true rfl)]
        constructor
        · rintro ⟨skipped, rest, rfl, h⟩
          obtain ⟨rest', hsuffix, h'⟩ := (ih rest).mp h
          exact ⟨rest', hsuffix.trans (List.suffix_append skipped rest), h'⟩
        · rintro ⟨rest', ⟨skipped, rfl⟩, h'⟩
          exact ⟨skipped, rest', rfl, (ih rest').mpr ⟨rest', List.suffix_rfl, h'⟩⟩
      · rw [if_neg (by simpa using hstar)]
        exact ⟨fun ⟨skipped, rest, heq, h⟩ => ⟨rest, ⟨skipped, heq.symm⟩, h⟩,
          fun ⟨rest, ⟨skipped, heq⟩, h⟩ => ⟨skipped, rest, heq.symm, h⟩⟩

theorem wildcardEquals_iff (pattern string : WString) : wildcardEquals pattern string = true ↔ Glob pattern string := by
  induction pattern, string using wildcardEquals.induct with
  | case1 pattern => rw [wildcardEquals, justWildcardsLeft_iff]
  | case2 s string =>
      rw [wildcardEquals]
      exact iff_of_false Bool.false_ne_true (List.cons_ne_nil s string)
  | case3 pattern s string ih =>
      rw [wildcardEquals, if_pos rfl, ih, glob_any_iff]
      constructor
      · exact fun h => ⟨s, string, rfl, h⟩
      · rintro ⟨c, rest, heq, h⟩
        rwa [(List.cons.inj heq).2]
  | case4 pattern s string hany ih =>
      rw [wildcardEquals, if_neg hany, if_pos rfl, List.any_eq_true, glob_stars_iff]
      simp only [List.mem_reverse, List.mem_tails, ih]
  | case5 p pattern s string hany hstar hne =>
      rw [wildcardEquals, if_neg hany, if_neg hstar, if_pos hne, glob_char_iff hany hstar]
      exact iff_of_false Bool.false_ne_true fun ⟨rest, heq, _⟩ => hne (List.cons.inj heq).1.symm
  | case6 p pattern s string hany hstar hsame ih =>
      rw [wildcardEquals, if_neg hany, if_neg hstar, if_neg hsame, ih, glob_char_iff hany hstar]
      constructor
      · exact fun h => ⟨string, by rw [not_not.mp hsame], h⟩
      · rintro ⟨rest, heq, h⟩
        rwa [(List.cons.inj heq).2]

end WildcardTermEnum

structure WildcardTermEnum where
  searchTerm : Term
  field : WString
  text : WString
  pre : WString

namespace WildcardTermEnum
open FilteredTermEnum

/-- The constructor, up to `setEnum`. -/
def new (term : Term) : WildcardTermEnum :=
  let sidx := term.text.idxOf? WILDCARD_STRING
  let cidx := term.text.idxOf? WILDCARD_CHAR
  let idx := match sidx, cidx with
    | none, cidx => cidx
    | some sidx, some cidx => some (min sidx cidx)
    | some sidx, none => some sidx
  let pre := match idx with
    | some idx => term.text.take idx
    | none => []
  { searchTerm := term, field := term.field, text := term.text.drop pre.length, pre }

def termCompare (enum : WildcardTermEnum) : Option Term → Except Failure Comparison
  | none => .error .nullPointer
  | some term =>
      .ok (if enum.field = term.field ∧ enum.pre.isPrefixOf term.text = true then
        { accepted := wildcardEquals enum.text (term.text.drop enum.pre.length), ended := false }
      else { accepted := false, ended := true })

/-- The terms that are enumerated. -/
def enumerate (dictionary : List Term) (term : Term) : Except Failure (List Term) :=
  FilteredTermEnum.enumerate (new term).termCompare dictionary ⟨term.field, (new term).pre⟩

theorem not_mem_take_idxOf? {text : WString} {c : WChar} {i : Nat} (h : text.idxOf? c = some i) : c ∉ text.take i := by
  obtain ⟨hlt, -, hbefore⟩ := List.idxOf?_eq_some_iff.mp h
  intro hmem
  obtain ⟨j, hj, heq⟩ := List.mem_take_iff_getElem.mp hmem
  exact hbefore j (by omega) heq

theorem new_spec (term : Term) :
    WILDCARD_STRING ∉ (new term).pre ∧ WILDCARD_CHAR ∉ (new term).pre ∧ (new term).pre ++ (new term).text = term.text := by
  have htake : ∀ n, (term.text.take n) ++ term.text.drop (term.text.take n).length = term.text := by
    intro n
    rw [List.length_take]
    rcases Nat.le_total n term.text.length with hle | hle
    · rw [Nat.min_eq_left hle, List.take_append_drop]
    · rw [Nat.min_eq_right hle, List.drop_length, List.take_of_length_le hle, List.append_nil]
  rw [new]
  cases hs : term.text.idxOf? WILDCARD_STRING with
  | none =>
      have hstar := List.idxOf?_eq_none_iff.mp hs
      cases hc : term.text.idxOf? WILDCARD_CHAR with
      | none => exact ⟨List.not_mem_nil, List.not_mem_nil, rfl⟩
      | some cidx =>
          exact ⟨fun hmem => hstar (List.mem_of_mem_take hmem), not_mem_take_idxOf? hc, htake cidx⟩
  | some sidx =>
      cases hc : term.text.idxOf? WILDCARD_CHAR with
      | none =>
          have hany := List.idxOf?_eq_none_iff.mp hc
          exact ⟨not_mem_take_idxOf? hs, fun hmem => hany (List.mem_of_mem_take hmem), htake sidx⟩
      | some cidx =>
          have hsub : ∀ n, min sidx cidx ≤ n → ∀ c ∈ term.text.take (min sidx cidx), c ∈ term.text.take n :=
            fun n hle c hmem => (List.take_subset_take_left term.text hle) hmem
          exact ⟨fun hmem => not_mem_take_idxOf? hs (hsub sidx (min_le_left _ _) _ hmem),
            fun hmem => not_mem_take_idxOf? hc (hsub cidx (min_le_right _ _) _ hmem), htake _⟩

theorem glob_append_iff {pre : WString} (hstar : WILDCARD_STRING ∉ pre) (hany : WILDCARD_CHAR ∉ pre)
    (pattern string : WString) : Glob (pre ++ pattern) string ↔ ∃ rest, string = pre ++ rest ∧ Glob pattern rest := by
  induction pre generalizing string with
  | nil => exact ⟨fun h => ⟨string, rfl, h⟩, fun ⟨rest, heq, h⟩ => heq ▸ h⟩
  | cons p pre ih =>
      have hp : p ≠ WILDCARD_CHAR := fun heq => hany (heq ▸ List.mem_cons_self)
      have hp' : p ≠ WILDCARD_STRING := fun heq => hstar (heq ▸ List.mem_cons_self)
      have hlast := ih (fun hmem => hstar (List.mem_cons_of_mem p hmem)) fun hmem => hany (List.mem_cons_of_mem p hmem)
      rw [List.cons_append, glob_char_iff hp hp']
      constructor
      · rintro ⟨rest, rfl, h⟩
        obtain ⟨rest', rfl, h'⟩ := (hlast rest).mp h
        exact ⟨rest', rfl, h'⟩
      · rintro ⟨rest', rfl, h'⟩
        exact ⟨pre ++ rest', rfl, (hlast _).mpr ⟨rest', rfl, h'⟩⟩

/-- A text of the field that the pattern matches. -/
def Matches (term term' : Term) : Prop := term'.field = term.field ∧ Glob term.text term'.text

def accepts (enum : WildcardTermEnum) (term : Term) : Bool :=
  decide (enum.field = term.field ∧ enum.pre.isPrefixOf term.text = true) &&
    wildcardEquals enum.text (term.text.drop enum.pre.length)

def ends (enum : WildcardTermEnum) (term : Term) : Bool :=
  !decide (enum.field = term.field ∧ enum.pre.isPrefixOf term.text = true)

theorem termCompare_some (enum : WildcardTermEnum) (term : Term) :
    enum.termCompare (some term) = .ok ⟨enum.accepts term, enum.ends term⟩ := by
  rw [termCompare, accepts, ends]
  by_cases h : enum.field = term.field ∧ enum.pre.isPrefixOf term.text = true
  · rw [if_pos h, decide_eq_true h, Bool.true_and]
    rfl
  · rw [if_neg h, decide_eq_false h, Bool.false_and]
    rfl

theorem ends_eq_false {enum : WildcardTermEnum} {term : Term} (h : enum.accepts term = true) : enum.ends term = false := by
  rw [accepts, Bool.and_eq_true] at h
  rw [ends, h.1]
  rfl

theorem accepts_iff (term term' : Term) : (new term).accepts term' = true ↔ Matches term term' := by
  obtain ⟨hstar, hany, htext⟩ := new_spec term
  have hfield : (new term).field = term.field := rfl
  rw [accepts, Bool.and_eq_true, decide_eq_true_iff, List.isPrefixOf_iff_prefix, wildcardEquals_iff, Matches, ← htext,
    glob_append_iff hstar hany, hfield]
  constructor
  · rintro ⟨⟨hsame, rest, hrest⟩, h⟩
    rw [← hrest, List.drop_left] at h
    exact ⟨hsame.symm, rest, hrest.symm, h⟩
  · rintro ⟨hsame, rest, hrest, h⟩
    rw [hrest, List.drop_left]
    exact ⟨⟨hsame.symm, rest, rfl⟩, h⟩

theorem le_of_prefix {pre text : WString} (h : pre <+: text) : pre ≤ text := not_lt.mp h.le

theorem eq_nil_of_le {text : WString} (h : text ≤ []) : text = [] :=
  le_antisymm h (not_lt.mp (List.not_lt_nil text))

theorem prefix_of_le {pre text rest : WString} (hle : pre ≤ text) (hle' : text ≤ pre ++ rest) : pre <+: text := by
  induction pre generalizing text with
  | nil => exact List.nil_prefix
  | cons c pre ih =>
      cases text with
      | nil => exact absurd (List.nil_lt_cons c pre) hle.not_gt
      | cons d text =>
          rw [List.cons_append] at hle'
          have hcd : ¬ d < c := fun hlt => hle.not_gt (List.cons_lt_cons_iff.mpr (Or.inl hlt))
          have hdc : ¬ c < d := fun hlt => hle'.not_gt (List.cons_lt_cons_iff.mpr (Or.inl hlt))
          obtain rfl := le_antisymm (not_lt.mp hcd) (not_lt.mp hdc)
          refine (List.prefix_cons_inj c).mpr (ih ?_ ?_)
          · exact not_lt.mp fun hlt => hle.not_gt (List.cons_lt_cons_iff.mpr (Or.inr ⟨rfl, hlt⟩))
          · exact not_lt.mp fun hlt => hle'.not_gt (List.cons_lt_cons_iff.mpr (Or.inr ⟨rfl, hlt⟩))

section Exact
variable {dictionary : List Term} {term : Term}

theorem le_of_accepts {term' : Term} (h : (new term).accepts term' = true) : ⟨term.field, (new term).pre⟩ ≤ term' := by
  rw [accepts, Bool.and_eq_true, decide_eq_true_iff, List.isPrefixOf_iff_prefix] at h
  exact FilteredTermEnum.le_iff.mpr (Or.inr ⟨h.1.1, le_of_prefix h.1.2⟩)

/-- A term between the start and one that is accepted does not end the enumeration. -/
theorem ends_between {term' term'' : Term} (hle : ⟨term.field, (new term).pre⟩ ≤ term') (hlt : term' < term'')
    (h : (new term).accepts term'' = true) : (new term).ends term' = false := by
  rw [accepts, Bool.and_eq_true, decide_eq_true_iff, List.isPrefixOf_iff_prefix] at h
  obtain ⟨⟨hfield, rest, hrest⟩, -⟩ := h
  have hfield' : (new term).field = term'.field :=
    le_antisymm (@FilteredTermEnum.field_le ⟨term.field, (new term).pre⟩ term' hle)
      (hfield ▸ FilteredTermEnum.field_le hlt.le)
  have htext : (new term).pre ≤ term'.text := by
    rcases FilteredTermEnum.le_iff.mp hle with hless | ⟨-, hle⟩
    · exact absurd hfield' hless.ne
    · exact hle
  have htext' : term'.text ≤ (new term).pre ++ rest := by
    rcases FilteredTermEnum.le_iff.mp hlt.le with hless | ⟨-, hle⟩
    · exact absurd (hfield'.symm.trans hfield) hless.ne
    · rwa [hrest]
  rw [ends, decide_eq_true ⟨hfield', List.isPrefixOf_iff_prefix.mpr (prefix_of_le htext htext')⟩]
  rfl

theorem enumerate_named (hsorted : dictionary.Pairwise (· < ·)) (hstart : term.field ≠ [] ∨ (new term).pre ≠ [])
    (hnamed : ∀ term' ∈ dictionary, ⟨term.field, (new term).pre⟩ ≤ term' → term'.field ≠ []) :
    enumerate dictionary term = .ok (dictionary.filter (new term).accepts) := by
  have hne : (⟨term.field, (new term).pre⟩ : Term) ≠ ⟨[], []⟩ := by
    intro heq
    rw [Term.mk.injEq] at heq
    exact hstart.elim (absurd heq.1) (absurd heq.2)
  rw [enumerate, @FilteredTermEnum.enumerate_eq _ (new term).accepts (new term).ends _ _ hne]
  · rw [FilteredTermEnum.selected_dropWhile hsorted]
    · exact fun term' _ h => le_of_accepts h
    · exact fun term' _ h => ends_eq_false h
    · exact fun term' term'' hle hlt h => ends_between hle hlt h
  · rw [FilteredTermEnum.dropWhile_eq_filter hsorted]
    refine ⟨fun term' hmem => ?_, fun term' _ => termCompare_some _ term', fun term' _ h => ends_eq_false h⟩
    obtain ⟨hmem, hle⟩ := List.mem_filter.mp hmem
    exact hnamed term' hmem (of_decide_eq_true hle)

variable (dictionary) in
/-- The terms of the field with the empty name from a text on. -/
def unnamed (pre : WString) : List Term := dictionary.filter fun term => decide (term.field = [] ∧ pre ≤ term.text)

theorem unnamed_eq {pre : WString} : unnamed dictionary pre =
    (dictionary.filter fun term => decide ((⟨[], pre⟩ : Term) ≤ term)).filter fun term => decide (term.field = []) := by
  rw [unnamed, List.filter_filter]
  refine List.filter_congr fun term _ => ?_
  rw [← Bool.decide_and, decide_eq_decide, FilteredTermEnum.le_iff]
  constructor
  · rintro ⟨hfield, htext⟩
    exact ⟨hfield, Or.inr ⟨hfield.symm, htext⟩⟩
  · rintro ⟨hfield, hlt | ⟨-, htext⟩⟩
    · rw [hfield] at hlt
      exact absurd hlt (lt_irrefl _)
    · exact ⟨hfield, htext⟩

theorem matches_mem (hfield : term.field = []) {term' : Term} (hmem : term' ∈ dictionary) (h : Matches term term') :
    term'.field = [] ∧ term' ∈ dictionary.filter fun term' => decide ((⟨[], (new term).pre⟩ : Term) ≤ term') := by
  have hle := le_of_accepts ((accepts_iff term term').mpr h)
  rw [hfield] at hle
  exact ⟨h.1.trans hfield, List.mem_filter.mpr ⟨hmem, decide_eq_true hle⟩⟩

theorem named_behind {first : Term} {others : List Term} (hsorted : (first :: others).Pairwise (· < ·))
    (hfirst : first.field ≠ []) : ∀ term' ∈ first :: others, term'.field ≠ [] := by
  intro term' hmem hnil
  rcases List.mem_cons.mp hmem with rfl | hmem
  · exact hfirst hnil
  · have hle := FilteredTermEnum.field_le ((List.pairwise_cons.mp hsorted).1 term' hmem).le
    rw [hnil] at hle
    exact hfirst (eq_nil_of_le hle)

theorem enumerated_ok_nil_iff (h : enumerate dictionary term = .ok []) :
    (∃ terms, enumerate dictionary term = .ok terms ∧ Enumerated dictionary (Matches term) terms) ↔
      ∀ term' ∈ dictionary, ¬ Matches term term' := by
  rw [h, ← enumerated_nil_iff]
  constructor
  · rintro ⟨terms, hterms, henumerated⟩
    cases hterms
    exact henumerated
  · exact fun henumerated => ⟨[], rfl, henumerated⟩

theorem enumerate_null_exact_iff {first : Term} {others : List Term} (hsorted : others.Pairwise (· < ·))
    (hfield : term.field = []) (hfirst : first.field = [])
    (hterms : TermEnum.terms dictionary ⟨term.field, (new term).pre⟩ = ⟨first :: others⟩) :
    (∃ terms, enumerate dictionary term = .ok terms ∧ Enumerated dictionary (Matches term) terms) ↔
      (others.filter fun term' => decide (term'.field = [])) = [] ∧ ∀ term' ∈ dictionary, ¬ Matches term term' := by
  cases others with
  | nil =>
      have hok := @FilteredTermEnum.enumerate_unnamed (new term).termCompare _ _ _ _ hterms hfirst
        fun hne => absurd rfl hne
      rw [enumerated_ok_nil_iff hok]
      exact (and_iff_right rfl).symm
  | cons second others =>
      by_cases hsecond : second.field = []
      · have herror : enumerate dictionary term = .error .nullPointer := by
          apply FilteredTermEnum.enumerate_unnamed_error hterms hfirst
          rw [TermEnum.term_cons_unnamed hsecond, termCompare]
        rw [herror, List.filter_cons_of_pos (by simpa using hsecond)]
        exact iff_of_false (fun ⟨terms, hterms, _⟩ => nomatch hterms) fun h => List.cons_ne_nil _ _ h.1
      · have hok := @FilteredTermEnum.enumerate_unnamed (new term).termCompare _ _ _ _ hterms hfirst
          fun _ => by rw [TermEnum.term_cons hsecond, termCompare, if_neg fun h => hsecond (h.1.symm.trans hfield)]
        rw [enumerated_ok_nil_iff hok, List.filter_eq_nil_iff.mpr]
        · exact (and_iff_right rfl).symm
        · exact fun term' hmem => by simpa using named_behind hsorted hsecond term' hmem

theorem enumerate_unnamed_exact_iff (hsorted : dictionary.Pairwise (· < ·)) (hfield : term.field = []) :
    (∃ terms, enumerate dictionary term = .ok terms ∧ Enumerated dictionary (Matches term) terms) ↔
      ((unnamed dictionary (new term).pre).length < if (new term).pre = [] then 1 else 2) ∧
        ∀ term' ∈ dictionary, ¬ Matches term term' := by
  by_cases hpre : (new term).pre = []
  · have hall : unnamed dictionary [] = dictionary.filter fun term' => decide (term'.field = []) :=
      List.filter_congr fun term' _ => decide_eq_decide.mpr (and_iff_left (not_lt.mp (List.not_lt_nil _)))
    rw [hpre, if_pos rfl, hall, Nat.lt_one_iff, List.length_eq_zero_iff]
    refine @enumerate_null_exact_iff dictionary term ⟨[], []⟩ dictionary hsorted hfield rfl ?_
    rw [hfield, hpre]
    rfl
  · have hstart : (⟨term.field, (new term).pre⟩ : Term) = ⟨[], (new term).pre⟩ := by rw [hfield]
    have hne : (⟨term.field, (new term).pre⟩ : Term) ≠ ⟨[], []⟩ := fun heq => hpre (Term.mk.inj heq).2
    have hterms := @TermEnum.terms_of_ne dictionary _ hne
    rw [FilteredTermEnum.dropWhile_eq_filter hsorted, hstart] at hterms
    have hrestSorted := hsorted.filter fun term' => decide ((⟨[], (new term).pre⟩ : Term) ≤ term')
    rw [if_neg hpre, unnamed_eq]
    by_cases hnamed : ∀ term' ∈ dictionary.filter fun term' => decide ((⟨[], (new term).pre⟩ : Term) ≤ term'),
        term'.field ≠ []
    · refine iff_of_true ⟨_, enumerate_named hsorted (Or.inr hpre) fun term' hmem hle => ?_,
        FilteredTermEnum.enumerated_filter hsorted (accepts_iff term)⟩ ⟨?_, fun term' hmem h => ?_⟩
      · rw [hstart] at hle
        exact hnamed term' (List.mem_filter.mpr ⟨hmem, decide_eq_true hle⟩)
      · rw [List.filter_eq_nil_iff.mpr fun term' hmem => by simpa using hnamed term' hmem]
        exact Nat.zero_lt_two
      · exact hnamed term' (matches_mem hfield hmem h).2 (matches_mem hfield hmem h).1
    · cases hrest : dictionary.filter fun term' => decide ((⟨[], (new term).pre⟩ : Term) ≤ term') with
      | nil =>
          rw [hrest] at hnamed
          exact absurd (fun term' hmem => absurd hmem List.not_mem_nil) hnamed
      | cons first others =>
          rw [hrest] at hterms hrestSorted hnamed
          have hfirst : first.field = [] := by
            by_contra hne
            exact hnamed (named_behind hrestSorted hne)
          rw [List.filter_cons_of_pos (by simpa using hfirst), List.length_cons, Nat.succ_lt_succ_iff,
            Nat.lt_one_iff, List.length_eq_zero_iff]
          rw [← hstart] at hterms
          exact enumerate_null_exact_iff (List.pairwise_cons.mp hrestSorted).2 hfield hfirst hterms

theorem enumerate_exact_iff (hsorted : dictionary.Pairwise (· < ·)) :
    (∃ terms, enumerate dictionary term = .ok terms ∧ Enumerated dictionary (Matches term) terms) ↔
      term.field ≠ [] ∨ ((unnamed dictionary (new term).pre).length < if (new term).pre = [] then 1 else 2) ∧
        ∀ term' ∈ dictionary, ¬ Matches term term' := by
  by_cases hfield : term.field = []
  · rw [or_iff_right (not_not.mpr hfield)]
    exact enumerate_unnamed_exact_iff hsorted hfield
  · refine iff_of_true ⟨_, enumerate_named hsorted (Or.inl hfield) fun term' _ hle hnil => ?_,
      FilteredTermEnum.enumerated_filter hsorted (accepts_iff term)⟩ (Or.inl hfield)
    have hle := FilteredTermEnum.field_le hle
    rw [hnil] at hle
    exact hfield (eq_nil_of_le hle)

end Exact

end WildcardTermEnum
end LucenePlusPlus
