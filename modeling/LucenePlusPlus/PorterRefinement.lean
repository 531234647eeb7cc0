import LucenePlusPlus.PorterAlgorithm

/-!
With memory operations that compare and copy whole strings, the stemmer follows the Porter algorithm.
-/

namespace LucenePlusPlus.PorterStemmer
open LoggedProgram (ofState modify ask bind_of_eq ofState_of_eq)
open Porter (shape changes consonants isConsonant hasVowel endsDouble endsCvc applies before longestRule)

variable {s : PorterStemmer} {b w v : WString} {n : Nat}

theorem length_consonants (p : Bool) (w : WString) : (consonants p w).length = w.length := by
  induction w generalizing p with
  | nil => rfl
  | cons c w ih => exact congrArg (· + 1) (ih _)

theorem consonants_take (p : Bool) (w : WString) (n : Nat) : consonants p (w.take n) = (consonants p w).take n := by
  induction w generalizing p n with
  | nil => rw [List.take_nil, consonants, List.take_nil]
  | cons c w ih =>
    cases n with
    | zero => rfl
    | succ n => exact congrArg _ (ih _ n)

theorem consonants_succ (p : Bool) (w : WString) (i : Nat) :
    (consonants p w)[i + 1]? = (w[i + 1]?).bind fun c => ((consonants p w)[i]?).map (isConsonant · c) := by
  induction w generalizing p i with
  | nil => rfl
  | cons c w ih =>
    rw [consonants, List.getElem?_cons_succ, List.getElem?_cons_succ]
    cases i with
    | zero =>
      rw [List.getElem?_cons_zero]
      cases w <;> rfl
    | succ i => rw [ih, List.getElem?_cons_succ]

theorem consIn_eq (b : WString) (i : Nat) : consIn b i = (shape b)[i]? := by
  induction i with
  | zero =>
    cases b with
    | nil => rfl
    | cons c b =>
      change some (!isVowel c) = some (isConsonant false c)
      rw [isConsonant]
      cases isVowel c <;> simp
  | succ i ih =>
    rw [consIn, shape, consonants_succ, ← shape]
    cases hc : b[i + 1]? with
    | none => rfl
    | some c =>
      have hlt : i < (shape b).length := by
        rw [shape, length_consonants]
        exact Nat.lt_of_succ_lt (List.getElem?_eq_some_iff.mp hc).1
      rw [ih, List.getElem?_eq_getElem hlt]
      simp only [Option.bind_eq_bind, Option.bind_some, Option.map_some, isConsonant]
      split_ifs <;> rfl

theorem changes_true (rest : List Bool) : changes (true :: rest) = changes rest := by
  cases rest <;> rfl

theorem changes_false_false (rest : List Bool) : changes (false :: false :: rest) = changes (false :: rest) := rfl

theorem changes_append_of_true {before : List Bool} (h : ∀ x ∈ before, x = true) (rest : List Bool) :
    changes (before ++ rest) = changes rest := by
  induction before with
  | nil => rfl
  | cons x before ih =>
    rw [List.forall_mem_cons] at h
    rw [h.1, List.cons_append, changes_true, ih h.2]

theorem changes_false_append {before : List Bool} (h : ∀ x ∈ before, x = false) (rest : List Bool) :
    changes (false :: (before ++ true :: rest)) = changes rest + 1 := by
  induction before with
  | nil => rw [List.nil_append, changes, changes_true]
  | cons x before ih =>
    rw [List.forall_mem_cons] at h
    rw [h.1, List.cons_append, changes_false_false, ih h.2]

theorem changes_of_false {before : List Bool} (h : ∀ x ∈ before, x = false) : changes before = 0 := by
  induction before with
  | nil => rfl
  | cons x before ih =>
    rw [List.forall_mem_cons] at h
    rw [h.1]
    cases before with
    | nil => rfl
    | cons y before =>
      have hy := h.2 y List.mem_cons_self
      subst hy
      exact ih h.2

/-- The buffer up to `j` is `v`. -/
structure UpTo (s : PorterStemmer) (v : WString) : Prop where
  j : s.j + 1 = v.length
  word : s.b.take v.length = v

theorem cons_eq (hword : s.b.take v.length = v) {i : Nat} (hi : i < v.length) : s.cons i = (shape v)[i]? := by
  have hshape : shape v = (shape s.b).take v.length := by
    rw [shape, shape, ← consonants_take, hword]
  rw [cons, consIn_eq, hshape, List.getElem?_take_of_lt hi]

theorem UpTo.scan (h : UpTo s v) (wanted : Bool) {rounds i : Nat} (hi : i ≤ v.length)
    (hrounds : v.length < rounds + i) :
    (s.scan wanted rounds i = some none ∧ ∀ x ∈ (shape v).drop i, x = !wanted) ∨
      ∃ d skipped, s.scan wanted rounds i = some (some (d + 1)) ∧ i ≤ d ∧ d < v.length ∧
        (shape v).drop i = skipped ++ wanted :: (shape v).drop (d + 1) ∧ ∀ x ∈ skipped, x = !wanted := by
  have hlen : (shape v).length = v.length := length_consonants _ _
  induction rounds generalizing i with
  | zero => omega
  | succ rounds ih =>
    rw [PorterStemmer.scan]
    by_cases hend : (i : Int) > s.j
    · have hj := h.j
      rw [if_pos hend, List.drop_eq_nil_of_le (by omega)]
      exact .inl ⟨rfl, fun _ hx => absurd hx List.not_mem_nil⟩
    · have hi : i < v.length := by
        have := h.j
        omega
      have hi' : i < (shape v).length := hlen.symm ▸ hi
      rw [if_neg hend, cons_eq h.word hi, List.getElem?_eq_getElem hi', List.drop_eq_getElem_cons hi']
      simp only [Option.bind_eq_bind, Option.bind_some]
      by_cases hfound : (shape v)[i] = wanted
      · rw [if_pos hfound, hfound]
        exact .inr ⟨i, [], rfl, Nat.le_refl i, hi, rfl, fun _ hx => absurd hx List.not_mem_nil⟩
      · rw [if_neg hfound, Bool.eq_not_of_ne hfound]
        obtain ⟨heq, hall⟩ | ⟨d, skipped, heq, hle, hlt, hdrop, hskipped⟩ := @ih (i + 1) hi (by omega)
        · exact .inl ⟨heq, List.forall_mem_cons.mpr ⟨rfl, hall⟩⟩
        · refine .inr ⟨d, (!wanted) :: skipped, heq, by omega, hlt, by rw [hdrop, List.cons_append], ?_⟩
          exact List.forall_mem_cons.mpr ⟨rfl, hskipped⟩

theorem UpTo.countFrom (h : UpTo s v) {rounds i : Nat} (hi : i ≤ v.length) (hrounds : v.length < rounds + i) (k : Nat) :
    s.countFrom rounds i k = some (k + changes (false :: (shape v).drop i)) := by
  have hj : v.length < (s.j + 2).toNat := by
    have := h.j
    omega
  induction rounds generalizing i k with
  | zero => omega
  | succ rounds ih =>
    rw [PorterStemmer.countFrom]
    obtain ⟨heq, hall⟩ | ⟨d, skipped, heq, hle, hlt, hdrop, hskipped⟩ :=
      h.scan true hi (show v.length < (s.j + 2).toNat + i by omega)
    · rw [heq, changes_of_false (List.forall_mem_cons.mpr ⟨rfl, hall⟩)]
      rfl
    · rw [heq, hdrop, changes_false_append hskipped]
      simp only [Option.bind_eq_bind, Option.bind_some]
      obtain ⟨heq', hall'⟩ | ⟨e, skipped', heq', hle', hlt', hdrop', hskipped'⟩ :=
        h.scan false hlt (show v.length < (s.j + 2).toNat + (d + 1) by omega)
      · have := changes_append_of_true hall' []
        rw [List.append_nil] at this
        rw [heq', this]
        rfl
      · rw [heq', hdrop', changes_append_of_true hskipped']
        simp only [Option.bind_some]
        rw [ih hlt' (by omega), Nat.add_assoc, Nat.add_comm 1]

theorem UpTo.m (h : UpTo s v) : s.m = some (Porter.measure v) := by
  have hj : v.length < (s.j + 2).toNat := by
    have := h.j
    omega
  rw [PorterStemmer.m, Porter.measure]
  obtain ⟨heq, hall⟩ | ⟨d, skipped, heq, -, hlt, hdrop, hskipped⟩ := h.scan false (Nat.zero_le _) (by omega)
  · have := changes_append_of_true hall []
    rw [List.drop_zero, List.append_nil] at this
    rw [heq, this]
    rfl
  · rw [List.drop_zero] at hdrop
    rw [heq, hdrop, changes_append_of_true hskipped]
    simp only [Option.bind_eq_bind, Option.bind_some]
    rw [h.countFrom hlt (by omega), Nat.zero_add]

theorem UpTo.vowelinstem (h : UpTo s v) : s.vowelinstem = some (hasVowel v) := by
  have hj : v.length < (s.j + 2).toNat := by
    have := h.j
    omega
  rw [PorterStemmer.vowelinstem, hasVowel]
  obtain ⟨heq, hall⟩ | ⟨d, skipped, heq, -, hlt, hdrop, hskipped⟩ := h.scan false (Nat.zero_le _) (by omega)
  · have hnot : (shape v).contains false = false := by
      rw [← Bool.not_eq_true, List.contains_iff_mem]
      exact fun hmem => absurd (hall false hmem) (by decide)
    rw [heq, hnot]
    rfl
  · have hyes : (shape v).contains false = true := by
      rw [List.drop_zero] at hdrop
      rw [List.contains_iff_mem, hdrop]
      exact List.mem_append_right _ List.mem_cons_self
    rw [heq, hyes]
    rfl

/-! ### The end of a word -/

theorem charAt_eq (hword : s.b.take v.length = v) {i : Nat} (hi : i < v.length) : s.charAt i = v[i]? := by
  have hb : v[i]? = (s.b.take v.length)[i]? := by rw [hword]
  rw [charAt, if_pos (Int.natCast_nonneg i), Int.toNat_natCast, hb, List.getElem?_take_of_lt hi]

theorem doublec_eq (hword : s.b.take v.length = v) {i : Int} (hi : i + 1 = v.length) :
    s.doublec i = some (endsDouble v) := by
  have hshape : (shape v).length = v.length := length_consonants _ _
  rw [doublec, endsDouble]
  by_cases hlt : v.length < 2
  · rw [if_pos (by omega), decide_eq_false (by omega), Bool.false_and, Bool.false_and]
  · have hi₁ : i = ((v.length - 1 : Nat) : Int) := by omega
    have hi₂ : i - 1 = ((v.length - 2 : Nat) : Int) := by omega
    rw [if_neg (by omega), hi₂, hi₁, charAt_eq hword (by omega), charAt_eq hword (by omega), Int.toNat_natCast,
      cons_eq hword (by omega), decide_eq_true (not_lt.mp hlt), Bool.true_and,
      List.getElem?_eq_getElem (show v.length - 1 < v.length by omega),
      List.getElem?_eq_getElem (show v.length - 2 < v.length by omega),
      List.getElem?_eq_getElem (show v.length - 1 < (shape v).length by omega)]
    simp only [Option.bind_eq_bind, Option.bind_some, ne_eq, ite_not]
    by_cases heq : v[v.length - 1] = v[v.length - 2]
    · rw [if_pos heq, heq]
      simp
    · rw [if_neg heq]
      have hne : (some v[v.length - 1] == some v[v.length - 2]) = false := by
        rw [beq_eq_false_iff_ne]
        exact fun h => heq (Option.some.inj h)
      rw [hne, Bool.false_and]

theorem cvc_eq (hword : s.b.take v.length = v) {i : Int} (hi : i + 1 = v.length) : s.cvc i = some (endsCvc v) := by
  have hshape : (shape v).length = v.length := length_consonants _ _
  rw [cvc, endsCvc]
  by_cases hlt : v.length < 3
  · rw [if_pos (by omega), decide_eq_false (by omega)]
    simp only [Bool.false_and]
  · have hi₁ : i.toNat = v.length - 1 := by omega
    have hi₂ : (i - 1).toNat = v.length - 2 := by omega
    have hi₃ : (i - 2).toNat = v.length - 3 := by omega
    have hi₄ : i = ((v.length - 1 : Nat) : Int) := by omega
    rw [if_neg (by omega), hi₁, hi₂, hi₃, cons_eq hword (by omega), cons_eq hword (by omega), cons_eq hword (by omega), hi₄,
      charAt_eq hword (by omega), decide_eq_true (not_lt.mp hlt), Bool.true_and, List.getLast?_eq_getElem?,
      List.getElem?_eq_getElem (show v.length - 1 < v.length by omega),
      List.getElem?_eq_getElem (show v.length - 1 < (shape v).length by omega),
      List.getElem?_eq_getElem (show v.length - 2 < (shape v).length by omega),
      List.getElem?_eq_getElem (show v.length - 3 < (shape v).length by omega)]
    simp only [Option.bind_eq_bind, Option.bind_some, Option.any_some]
    cases (shape v)[v.length - 1] <;> cases (shape v)[v.length - 2] <;> cases (shape v)[v.length - 3] <;> rfl

variable {suffix : String} {ρ : Type}

theorem before_append (h : applies suffix w) : w = before suffix w ++ letters suffix := by
  rw [applies, List.isSuffixOf_iff_suffix] at h
  obtain ⟨front, rfl⟩ := h
  rw [before, List.length_append, Nat.add_sub_cancel, List.take_left]

theorem length_before (h : applies suffix w) : (before suffix w).length + (letters suffix).length = w.length := by
  have := congrArg List.length (before_append h)
  rw [List.length_append] at this
  exact this.symm

/-- Where no suffix is one of those after it, the first that applies is the longest. -/
theorem longestRule_eq_find? (name : ρ → String) {rules : List ρ}
    (hrules : rules.Pairwise fun a b => ¬letters (name a) <:+ letters (name b)) (w : WString) :
    longestRule name rules w = rules.find? fun rule => applies (name rule) w := by
  rw [longestRule, ← List.head?_filter]
  have hsorted := hrules.filter fun rule => applies (name rule) w
  have happ : ∀ rule ∈ rules.filter fun rule => applies (name rule) w, letters (name rule) <:+ w := fun rule hmem =>
    List.isSuffixOf_iff_suffix.mp (List.mem_filter.mp hmem).2
  cases hfilter : rules.filter fun rule => applies (name rule) w with
  | nil => rfl
  | cons first others =>
    rw [hfilter] at hsorted happ
    rw [List.forall_mem_cons] at happ
    have hlt : ∀ rule ∈ others, (letters (name rule)).length < (letters (name first)).length := by
      intro rule hmem
      by_contra hle
      exact (List.pairwise_cons.mp hsorted).1 rule hmem
        (List.suffix_of_suffix_length_le happ.1 (happ.2 rule hmem) (not_lt.mp hle))
    rw [List.head?_cons]
    cases hmax : (first :: others).argmax fun rule => (letters (name rule)).length with
    | none => exact absurd (List.argmax_eq_none.mp hmax) (List.cons_ne_nil _ _)
    | some rule =>
      have hle := List.le_of_mem_argmax (show first ∈ first :: others from List.mem_cons_self) hmax
      obtain rfl | hmem := List.mem_cons.mp (List.argmax_mem hmax)
      · rfl
      · exact absurd (hlt rule hmem) (not_lt.mpr hle)

theorem find?_caseOf (name : ρ → String) {cases : List (Char × List ρ)} (i : Nat)
    (hkeys : cases.Pairwise fun a b => letter a.1 ≠ letter b.1)
    (hletters : ∀ x ∈ cases, ∀ rule ∈ x.2, (letters (name rule)).reverse[i]? = some (letter x.1)) {c : WChar}
    (hc : w.reverse[i]? = some c) :
    (caseOf cases c).find? (fun rule => applies (name rule) w) =
      (cases.flatMap Prod.snd).find? fun rule => applies (name rule) w := by
  have hnone : ∀ x ∈ cases, letter x.1 ≠ c → x.2.find? (fun rule => applies (name rule) w) = none := by
    intro x hx hne
    rw [List.find?_eq_none]
    intro rule hrule happ
    have hget := hletters x hx rule hrule
    rw [applies, List.isSuffixOf_iff_suffix] at happ
    obtain ⟨rest, hrest⟩ := List.reverse_prefix.mpr happ
    have hlt := (List.getElem?_eq_some_iff.mp hget).1
    rw [← hrest, List.getElem?_append_left hlt, hget] at hc
    exact hne (Option.some.inj hc)
  induction cases with
  | nil => rfl
  | cons x cases ih =>
    rw [List.pairwise_cons] at hkeys
    rw [List.forall_mem_cons] at hletters hnone
    rw [caseOf, List.map_cons, List.lookup_cons, List.flatMap_cons, List.find?_append]
    by_cases hx : c = letter x.1
    · have hrest : (cases.flatMap Prod.snd).find? (fun rule => applies (name rule) w) = none := by
        rw [List.find?_eq_none]
        intro rule hrule
        obtain ⟨y, hy, hrule⟩ := List.mem_flatMap.mp hrule
        exact List.find?_eq_none.mp (hnone.2 y hy (fun h => hkeys.1 y hy (hx.symm.trans h.symm))) rule hrule
      rw [hx, beq_self_eq_true, hrest, Option.or_none]
      rfl
    · rw [beq_eq_false_iff_ne.mpr hx, hnone.1 (Ne.symm hx), Option.none_or]
      exact ih hkeys.2 hletters.2 hnone.2

/-- The buffer of length `n` begins with the word `w`. -/
structure Holds (s : PorterStemmer) (w : WString) (n : Nat) : Prop where
  len : s.b.length = n
  k : s.k + 1 = w.length
  word : s.b.take w.length = w

theorem Holds.le (h : Holds s w n) : w.length ≤ n := by
  have := congrArg List.length h.word
  rw [List.length_take, h.len] at this
  omega

theorem Holds.upTo (h : Holds s w n) : UpTo { s with j := s.k } w := ⟨h.k, h.word⟩

theorem Holds.charAt_last (h : Holds s w n) (hw : w ≠ []) : s.charAt s.k = w.getLast? := by
  have hpos := List.length_pos_iff.mpr hw
  have hk : s.k = ((w.length - 1 : Nat) : Int) := by
    have := h.k
    omega
  rw [hk, charAt_eq h.word (by omega), List.getLast?_eq_getElem?]

theorem Holds.window (h : Holds s w n) (length : Nat) : s.window length = w.drop (w.length - length) := by
  have hk : (s.k + 1).toNat = w.length := by
    have := h.k
    omega
  rw [PorterStemmer.window, hk, h.word]

theorem isSuffixOf_iff_drop (text : WString) : text.isSuffixOf w = (w.drop (w.length - text.length) == text) := by
  rw [Bool.eq_iff_iff, List.isSuffixOf_iff_suffix, beq_iff_eq, List.suffix_iff_eq_drop]
  exact eq_comm

theorem Holds.ends (h : Holds s w n) (hw : w ≠ []) {text : WString} (htext : text ≠ []) :
    ends text whole s =
      (if text.getLast? = w.getLast? ∧ text.length ≤ w.length then [.compare (w.drop (w.length - text.length)) text] else [],
        some (text.isSuffixOf w, if text.isSuffixOf w then { s with j := s.k - text.length } else s)) := by
  have hk := h.k
  have hchar : (ofState fun s => s.charAt s.k : Stem WChar) whole s = ([], some (w.getLast hw, s)) :=
    ofState_of_eq ((h.charAt_last hw).trans (List.getLast?_eq_some_getLast hw))
  have hlength : (ofState fun s => some (s.k + 1) : Stem Int) whole s = ([], some (s.k + 1, s)) := rfl
  rw [PorterStemmer.ends, bind_of_eq hchar, List.nil_append, List.getLast?_eq_some_getLast hw]
  by_cases hlast : text.getLast? = some (w.getLast hw)
  · rw [if_neg (not_not.mpr hlast), bind_of_eq hlength, List.nil_append]
    by_cases hlong : (text.length : Int) > s.k + 1
    · have hnot : text.isSuffixOf w = false := by
        rw [← Bool.not_eq_true, List.isSuffixOf_iff_suffix]
        intro hsuffix
        have := hsuffix.length_le
        omega
      rw [if_pos hlong, hnot, if_neg (fun hends => absurd hends.2 (by omega))]
      rfl
    · rw [if_neg hlong, compare, isSuffixOf_iff_drop, if_pos ⟨hlast, by omega⟩]
      change ([Access.compare (s.window text.length) text], some (if (s.window text.length == text) then _ else _)) = _
      rw [h.window]
      split_ifs with heq
      · rw [heq]
      · rw [Bool.not_eq_true] at heq
        rw [heq]
  · have hnot : text.isSuffixOf w = false := by
      rw [← Bool.not_eq_true, List.isSuffixOf_iff_suffix]
      rintro ⟨front, rfl⟩
      rw [List.getLast_append_of_ne_nil _ htext] at hlast
      exact hlast (List.getLast?_eq_some_getLast htext)
    rw [if_pos hlast, hnot, if_neg fun hends => hlast hends.1]
    rfl

end LucenePlusPlus.PorterStemmer
