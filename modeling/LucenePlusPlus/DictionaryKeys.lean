import LucenePlusPlus.DictionaryOrder

/-!
When the keys of a field are strictly increasing. A text that is not valid is written as the empty key, and its
difference from another text may overflow when the threads are merged.
-/

namespace LucenePlusPlus.DictionaryOrder
open UTF8Base WChar

/-- The texts that a thread keeps of its tokens. -/
def keptTexts (tokens : List WString) : List WString :=
  (tokens.map replaceTerminator).filter fun text => text.length < CHAR_BLOCK_SIZE

/-- Of texts that are merged in this order, `text` is the first in the output, and all that are equal to it are
taken: the least of those before it is greater, those after it are not less, and none of the differences overflows. -/
def ComesFirst (texts : List WString) (text : WString) : Prop :=
  ∃ before after, texts = before ++ text :: after ∧ text ∉ before ∧
    (∀ least ∈ before, (∀ other ∈ before, least ≤ other) → Near text least ∧ text < least) ∧
      ∀ other ∈ after, Near other text ∧ text ≤ other

variable {text text' : WString}

theorem near_refl (text : WString) : Near text text := by
  induction text with
  | nil => exact trivial
  | cons c text ih => rwa [Near, if_pos rfl]

theorem compareText_of_not_near (h : UNICODE_TERMINATOR ∉ text) (h' : UNICODE_TERMINATOR ∉ text')
    (hvalid' : validText text' = true) :
    (¬ Near text text' → 0 < compareText (stored text) (stored text')) ∧
      (¬ Near text' text → compareText (stored text') (stored text) < 0) := by
  induction text generalizing text' with
  | nil =>
      refine ⟨fun hnear => absurd trivial hnear, fun hnear => absurd ?_ hnear⟩
      cases text' <;> exact trivial
  | cons c text ih =>
      cases text' with
      | nil => exact ⟨fun hnear => absurd trivial hnear, fun hnear => absurd trivial hnear⟩
      | cons c' text' =>
          have hne : c ≠ UNICODE_TERMINATOR := fun heq => h (heq ▸ List.mem_cons_self)
          have hne' : c' ≠ UNICODE_TERMINATOR := fun heq => h' (heq ▸ List.mem_cons_self)
          obtain ⟨hc', htext'⟩ := validText_cons.mp hvalid'
          have ih := ih (fun hmem => h (List.mem_cons_of_mem _ hmem)) (fun hmem => h' (List.mem_cons_of_mem _ hmem)) htext'
          by_cases heq : c = c'
          · simpa [Near, stored, compareText, heq, hne'] using ih
          · have hpos := valid_nonneg hc'
            have hrange := c.2
            simp only [Near, heq, Ne.symm heq, if_false, stored, List.cons_append, compareText, ne_eq, not_false_eq_true,
              if_true, hne, hne', toInt32]
            omega

theorem compareText_neg_iff (h : UNICODE_TERMINATOR ∉ text) (h' : UNICODE_TERMINATOR ∉ text')
    (hvalid' : validText text' = true) :
    compareText (stored text) (stored text') < 0 ↔ Near text text' ∧ text < text' := by
  by_cases hnear : Near text text'
  · rw [and_iff_right hnear]
    exact (compareText_spec h h').2 hnear
  · exact iff_of_false ((compareText_of_not_near h h' hvalid').1 hnear).not_gt fun hboth => hnear hboth.1

theorem compareText_not_neg_iff (h : UNICODE_TERMINATOR ∉ text) (h' : UNICODE_TERMINATOR ∉ text')
    (hvalid' : text' = text ∨ validText text' = true) :
    ¬ compareText (stored text') (stored text) < 0 ↔ Near text' text ∧ text ≤ text' := by
  by_cases hnear : Near text' text
  · rw [and_iff_right hnear, (compareText_spec h' h).2 hnear, not_lt]
  · refine iff_of_false (not_not_intro ?_) fun hboth => hnear hboth.1
    rcases hvalid' with rfl | hvalid'
    · exact absurd (near_refl _) hnear
    · exact (compareText_of_not_near h h' hvalid').2 hnear

theorem ComesFirst.nil_notMem {texts : List WString} (h : ComesFirst texts text) (hne : [] ≠ text) : [] ∉ texts := by
  obtain ⟨before, after, rfl, -, hgreater, hafter⟩ := h
  intro hmem
  rcases List.mem_append.mp hmem with hbefore | hrest
  · exact List.not_lt_nil _ (hgreater [] hbefore fun other _ => not_lt.mp (List.not_lt_nil other)).2
  · rcases List.mem_cons.mp hrest with heq | hother
    · exact hne heq
    · exact hne (le_antisymm (not_lt.mp (List.not_lt_nil _)) (hafter [] hother).2)

section Round
variable {texts : List WString} {term : TermStates}

theorem foldl_compare_of_not_neg (h : ∀ text ∈ texts, ¬ compareText (stored text) (stored term.text) < 0) :
    texts.foldl TermStates.compare term =
      ⟨term.text, term.merged ++ texts.map fun text => decide (compareText (stored text) (stored term.text) = 0)⟩ := by
  induction texts generalizing term with
  | nil => rw [List.foldl_nil, List.map_nil, List.append_nil]
  | cons text texts ih =>
      have hfirst : term.compare text =
          ⟨term.text, term.merged ++ [decide (compareText (stored text) (stored term.text) = 0)]⟩ :=
        if_neg (h text List.mem_cons_self)
      rw [List.foldl_cons, hfirst]
      refine (@ih ⟨term.text, term.merged ++ [_]⟩ fun other hother => h other (List.mem_cons_of_mem _ hother)).trans ?_
      rw [List.map_cons, List.append_assoc, List.singleton_append]

/-- A state that is in `termStates` in the end has been there since it was compared: no text took its place. -/
theorem of_merged_foldl {k : Nat} (hk : (texts.foldl TermStates.compare term).merged[k]? = some true)
    (hlt : k < term.merged.length) :
    term.merged[k]? = some true ∧ ∀ text ∈ texts, ¬ compareText (stored text) (stored term.text) < 0 := by
  induction texts generalizing term with
  | nil => exact ⟨hk, fun text hmem => absurd hmem List.not_mem_nil⟩
  | cons text texts ih =>
      rw [List.foldl_cons, TermStates.compare] at hk
      split at hk
      · have hfalse := (ih hk (by rw [List.length_append, List.length_map]; omega)).1
        rw [List.getElem?_append_left (by rwa [List.length_map]), List.getElem?_map, List.getElem?_eq_getElem hlt] at hfalse
        exact absurd (Option.some.inj hfalse) Bool.false_ne_true
      · rename_i hcmp
        obtain ⟨hold, hrest⟩ := ih hk (by rw [List.length_append]; omega)
        rw [List.getElem?_append_left hlt] at hold
        exact ⟨hold, List.forall_mem_cons.mpr ⟨hcmp, hrest⟩⟩

section Split
variable {first : WString} {before after : List WString} (hterm : ∀ other ∈ first :: texts, UNICODE_TERMINATOR ∉ other)
  (hvalid : ∀ other ∈ first :: texts, other = text ∨ validText other = true) (heq : first :: texts = before ++ text :: after)
include hterm hvalid heq

/-- The texts before the first that may be invalid are valid, so they are merged in order. -/
theorem least_before (hnot : text ∉ before) {b : WString} {bs : List WString} (hbefore : before = b :: bs) :
    Least before (termStates b bs) ∧ Marks before (termStates b bs) ∧ validText (termStates b bs).text = true ∧
      termStates first texts = after.foldl TermStates.compare ((termStates b bs).compare text) := by
  subst hbefore
  have hin : ∀ other ∈ b :: bs, other ∈ first :: texts := fun other hother => heq ▸ List.mem_append_left _ hother
  have hvalid : ∀ other ∈ b :: bs, validText other = true := fun other hother =>
    (hvalid other (hin other hother)).resolve_left fun htext => hnot (htext ▸ hother)
  have hterm : ∀ other ∈ b :: bs, UNICODE_TERMINATOR ∉ other := fun other hother => hterm other (hin other hother)
  have hmarks := marks_termStates hterm
  refine ⟨least_termStates hterm fun x hx y hy => near_of_valid (hvalid x hx) (hvalid y hy), hmarks,
    hvalid _ (List.of_mem_zip hmarks.mem).1, ?_⟩
  obtain ⟨rfl, hrest⟩ := List.cons.inj (heq.trans (List.cons_append ..))
  rw [termStates, hrest, List.foldl_append, List.foldl_cons, termStates]

theorem text_and_marks_of_first (hnot : text ∉ before)
    (hgreater : ∀ least ∈ before, (∀ other ∈ before, least ≤ other) → Near text least ∧ text < least)
    (hafter : ∀ other ∈ after, Near other text ∧ text ≤ other) : (termStates first texts).text = text ∧
      ∀ mark ∈ (first :: texts).zip (termStates first texts).merged, mark.1 = text → mark.2 = true := by
  have htext : text ∈ first :: texts := heq ▸ List.mem_append_right _ List.mem_cons_self
  have hreached : ∃ marks : List Bool, marks.length = before.length ∧
      termStates first texts = after.foldl TermStates.compare ⟨text, marks ++ [true]⟩ := by
    cases hcons : before with
    | nil =>
        rw [hcons] at heq
        obtain ⟨rfl, rfl⟩ := List.cons.inj heq
        exact ⟨[], rfl, rfl⟩
    | cons b bs =>
        obtain ⟨hleast, hmarks, hleastValid, hreached⟩ := least_before hterm hvalid heq hnot hcons
        have hin := (List.of_mem_zip hmarks.mem).1
        have hcmp := (compareText_neg_iff (hterm text htext) (hterm _ (heq ▸ List.mem_append_left _ hin)) hleastValid).mpr
          (hgreater _ hin hleast.le)
        refine ⟨(termStates b bs).merged.map fun _ => false, ?_, ?_⟩
        · rw [List.length_map, ← hcons, hmarks.length_eq]
        · exact hreached.trans (congrArg (after.foldl TermStates.compare) (if_pos hcmp))
  obtain ⟨marks, hlength, hreached⟩ := hreached
  have hin : ∀ other ∈ after, other ∈ first :: texts := fun other hother =>
    heq ▸ List.mem_append_right _ (List.mem_cons_of_mem _ hother)
  rw [foldl_compare_of_not_neg fun other hother => (compareText_not_neg_iff (hterm text htext)
    (hterm other (hin other hother)) (hvalid other (hin other hother))).mpr (hafter other hother)] at hreached
  rw [hreached]
  refine ⟨rfl, fun mark hmark hmarked => ?_⟩
  rw [heq, List.append_assoc, List.singleton_append, List.zip_append hlength.symm, List.zip_cons_cons] at hmark
  rcases List.mem_append.mp hmark with hold | hrest
  · exact absurd (hmarked ▸ (List.of_mem_zip hold).1) hnot
  · rcases List.mem_cons.mp hrest with rfl | hrest
    · rfl
    · rw [← List.map_prod_left_eq_zip, List.mem_map] at hrest
      obtain ⟨other, hother, rfl⟩ := hrest
      exact decide_eq_true ((compareText_spec (hterm other (hin other hother)) (hterm text htext)).1.mpr hmarked)

/-- No text after one that is marked in the end has taken its place. -/
theorem near_after_of_mark {term : TermStates} (hlength : term.merged.length = before.length + 1) (htext : term.text = text)
    (hreached : termStates first texts = after.foldl TermStates.compare term)
    (hmark : (termStates first texts).merged[before.length]? = some true) :
    ∀ other ∈ after, Near other text ∧ text ≤ other := by
  intro other hother
  subst htext
  rw [hreached] at hmark
  have hcmp := (of_merged_foldl hmark (by omega)).2 other hother
  have hmem : term.text ∈ first :: texts := heq ▸ List.mem_append_right _ List.mem_cons_self
  have hin : other ∈ first :: texts := heq ▸ List.mem_append_right _ (List.mem_cons_of_mem _ hother)
  exact (compareText_not_neg_iff (hterm _ hmem) (hterm other hin) (hvalid other hin)).mp hcmp

theorem comesFirst_of_mark (hnot : text ∉ before)
    (hmark : (termStates first texts).merged[before.length]? = some true) : ComesFirst (first :: texts) text := by
  have hmem : text ∈ first :: texts := heq ▸ List.mem_append_right _ List.mem_cons_self
  refine ⟨before, after, heq, hnot, ?_⟩
  cases hcons : before with
  | nil =>
      rw [hcons] at heq hmark
      obtain ⟨rfl, rfl⟩ := List.cons.inj heq
      exact ⟨fun least hleast => absurd hleast List.not_mem_nil,
        near_after_of_mark hterm hvalid heq rfl rfl rfl hmark⟩
  | cons b bs =>
      obtain ⟨hleast, hseen, hleastValid, hreached⟩ := least_before hterm hvalid heq hnot hcons
      have hin := (List.of_mem_zip hseen.mem).1
      have hiff := compareText_neg_iff (hterm text hmem) (hterm _ (heq ▸ List.mem_append_left _ hin)) hleastValid
      rw [← hcons]
      by_cases hcmp : compareText (stored text) (stored (termStates b bs).text) < 0
      · refine ⟨fun least hmemLeast hle => ?_, near_after_of_mark hterm hvalid heq ?_ ?_ hreached hmark⟩
        · rw [le_antisymm (hle _ hin) (hleast.le least hmemLeast)]
          exact hiff.mp hcmp
        · rw [TermStates.compare, if_pos hcmp, List.length_append, List.length_map, ← hseen.length_eq]
          rfl
        · rw [TermStates.compare, if_pos hcmp]
      · -- the text has not taken the place of the least, so it is none of the states that share the term
        rw [hreached, TermStates.compare, if_neg hcmp] at hmark
        have hold := (of_merged_foldl hmark (by rw [List.length_append, ← hseen.length_eq]; exact Nat.lt_succ_self _)).1
        rw [hseen.length_eq, List.getElem?_concat_length] at hold
        have heqText := (compareText_spec (hterm text hmem) (hterm _ (heq ▸ List.mem_append_left _ hin))).1.mp
          (of_decide_eq_true (Option.some.inj hold))
        exact absurd (heqText ▸ hin) hnot

end Split

theorem comesFirst_iff {first : WString} (hterm : ∀ other ∈ first :: texts, UNICODE_TERMINATOR ∉ other)
    (hvalid : ∀ other ∈ first :: texts, other = text ∨ validText other = true) :
    ComesFirst (first :: texts) text ↔ (termStates first texts).text = text ∧
      ∀ mark ∈ (first :: texts).zip (termStates first texts).merged, mark.1 = text → mark.2 = true := by
  constructor
  · rintro ⟨before, after, heq, hnot, hgreater, hafter⟩
    exact text_and_marks_of_first hterm hvalid heq hnot hgreater hafter
  · rintro ⟨htext, hmarked⟩
    have hmarks := marks_termStates hterm
    obtain ⟨before, after, heq, hnot⟩ := List.eq_append_cons_of_mem (htext ▸ (List.of_mem_zip hmarks.mem).1)
    refine comesFirst_of_mark hterm hvalid heq hnot ?_
    have hlt : before.length < (termStates first texts).merged.length := by
      rw [← hmarks.length_eq, heq, List.length_append, List.length_cons]
      omega
    rw [List.getElem?_eq_getElem hlt]
    refine congrArg some (hmarked (text, (termStates first texts).merged[before.length]) ?_ rfl)
    refine List.mem_of_getElem? (List.getElem?_zip_eq_some.mpr ⟨?_, List.getElem?_eq_getElem hlt⟩)
    rw [heq, List.getElem?_append_right le_rfl, Nat.sub_self, List.getElem?_cons_zero]

end Round

/-- How a text is read back: one that is not valid is read as the empty text. -/
def readText (text : WString) : WString := if validText text then text else []

theorem readText_of_valid (h : validText text = true) : readText text = text := if_pos h

theorem readText_of_invalid (h : validText text = false) : readText text = [] :=
  if_neg (h.trans_ne Bool.false_ne_true)

theorem valid_of_readText_lt (h : readText text < readText text') : validText text' = true := by
  by_contra hvalid
  rw [readText_of_invalid (Bool.eq_false_iff.mpr hvalid)] at h
  exact List.not_lt_nil _ h

section Merge
variable {rounds : Nat} {mergeStates : List FieldMergeState} (hsorted : ∀ state ∈ mergeStates, state.texts.Pairwise (· < ·))
  (hterm : ∀ state ∈ mergeStates, ∀ text ∈ state.texts, UNICODE_TERMINATOR ∉ text)
  (hrounds : (mergeStates.map fun state => state.texts.length).sum ≤ rounds)
include hsorted hterm hrounds

theorem increasing_of_valid (hvalid : ∀ state ∈ mergeStates, ∀ text ∈ state.texts, validText text = true) :
    (appendPostings rounds mergeStates).Pairwise fun first second => readText first < readText second := by
  have hmem : ∀ text ∈ appendPostings rounds mergeStates, validText text = true := fun text htext => by
    obtain ⟨state, hstate, hin⟩ := (mem_appendPostings hterm hrounds).mp htext
    exact hvalid state hstate text hin
  have hout := appendPostings_sorted hsorted hterm (fun state hstate text htext state' hstate' text' htext' =>
    near_of_valid (hvalid state hstate text htext) (hvalid state' hstate' text' htext')) hrounds
  refine hout.imp_of_mem fun hfirst hsecond hlt => ?_
  rwa [readText_of_valid (hmem _ hfirst), readText_of_valid (hmem _ hsecond)]

theorem increasing_round_iff {first : FieldMergeState} {others : List FieldMergeState}
    (heq : mergeStates = first :: others) (hround : rounds ≠ 0) :
    ((appendPostings rounds mergeStates).Pairwise fun first second => readText first < readText second) ↔
      let term := termStates first.text (others.map FieldMergeState.text)
      ∀ state ∈ nextTerms mergeStates term.merged, ∀ text ∈ state.texts,
        validText text = true ∧ readText term.text < text := by
  obtain ⟨rounds, rfl⟩ := Nat.exists_eq_succ_of_ne_zero hround
  subst heq
  have hmarks := marks_of_states hterm
  have hnext := hmarks.forall_texts hterm
  have hsum := Nat.lt_succ_iff.mp (hmarks.sum_lt.trans_le hrounds)
  rw [appendPostings, List.pairwise_cons]
  constructor
  · rintro ⟨hlt, -⟩ term state hstate text htext
    have hlt := hlt text ((mem_appendPostings hnext hsum).mpr ⟨state, hstate, htext⟩)
    have hvalid := valid_of_readText_lt hlt
    rw [readText_of_valid hvalid] at hlt
    exact ⟨hvalid, hlt⟩
  · intro h
    refine ⟨fun text htext => ?_, increasing_of_valid (sorted_nextTerms hsorted) hnext hsum fun state hstate text htext =>
      (h state hstate text htext).1⟩
    obtain ⟨state, hstate, hin⟩ := (mem_appendPostings hnext hsum).mp htext
    obtain ⟨hvalid, hlt⟩ := h state hstate text hin
    rwa [readText_of_valid hvalid]

/-- An invalid text comes out in the first round, from every thread that has it, or out of order. -/
theorem increasing_iff :
    ((appendPostings rounds mergeStates).Pairwise fun first second => readText first < readText second) ↔
      ∀ text, (∃ state ∈ mergeStates, text ∈ state.texts) → validText text = false →
        (∀ state ∈ mergeStates, ∀ other ∈ state.texts, other = text ∨ validText other = true) ∧
          (∀ state ∈ mergeStates, text ∈ state.texts → state.text = text) ∧
            ComesFirst (mergeStates.map FieldMergeState.text) text := by
  by_cases hall : ∀ state ∈ mergeStates, ∀ text ∈ state.texts, validText text = true
  · refine iff_of_true (increasing_of_valid hsorted hterm hrounds hall) ?_
    rintro text ⟨state, hstate, htext⟩ hinvalid
    exact absurd (hall state hstate text htext) (hinvalid.trans_ne Bool.false_ne_true)
  push Not at hall
  obtain ⟨state₀, hstate₀, text₀, htext₀, hinvalid₀⟩ := hall
  obtain ⟨first, others, heq⟩ := List.exists_cons_of_ne_nil (List.ne_nil_of_mem hstate₀)
  have hround : rounds ≠ 0 := by
    rintro rfl
    rw [heq, List.map_cons, List.sum_cons, FieldMergeState.texts, List.length_cons] at hrounds
    omega
  rw [increasing_round_iff hsorted hterm hrounds heq hround]
  subst heq
  have hmarks := marks_of_states hterm
  constructor
  · rintro h text ⟨state, hstate, htext⟩ hinvalid
    have hnot : ∀ left ∈ nextTerms (first :: others) (termStates first.text (others.map FieldMergeState.text)).merged,
        text ∉ left.texts := fun left hleft hmem =>
      (hinvalid.trans_ne Bool.false_ne_true) (h left hleft text hmem).1
    have hcomes := (hmarks.mem_texts_iff.mp ⟨state, hstate, htext⟩).resolve_right <| by
      rintro ⟨left, hleft, hmem⟩
      exact hnot left hleft hmem
    have hvalid : ∀ state ∈ first :: others, ∀ other ∈ state.texts, other = text ∨ validText other = true := by
      intro state hstate other hother
      rcases hmarks.mem_texts_iff.mp ⟨state, hstate, hother⟩ with heq | ⟨left, hleft, hmem⟩
      · exact Or.inl (heq.trans hcomes.symm)
      · exact Or.inr (h left hleft other hmem).1
    refine ⟨hvalid, fun state hstate htext => ?_,
      (comesFirst_iff (forall_text hterm) (forall_text hvalid)).mpr ⟨hcomes.symm, fun mark hmark htextMark => ?_⟩⟩
    · obtain ⟨b, hmark⟩ := exists_mark hmarks.length hstate
      cases b with
      | false => exact absurd htext (hnot state (mem_nextTerms.mpr (Or.inl hmark)))
      | true => exact (hmarks.state_text hmark).trans hcomes.symm
    · rw [← List.map_cons, List.zip_map_left, List.mem_map] at hmark
      obtain ⟨⟨state, b⟩, hstate, rfl⟩ := hmark
      cases b with
      | false => exact absurd (htextMark ▸ List.mem_cons_self) (hnot state (mem_nextTerms.mpr (Or.inl hstate)))
      | true => rfl
  · intro h term state hstate text htext
    obtain ⟨hvalid, hhead, hfirst⟩ := h text₀ ⟨state₀, hstate₀, htext₀⟩ (Bool.eq_false_iff.mpr hinvalid₀)
    obtain ⟨hcomes, hmarked⟩ := (comesFirst_iff (forall_text hterm) (forall_text hvalid)).mp hfirst
    obtain ⟨old, hold, hin⟩ := hmarks.mem_texts_iff.mpr (Or.inr ⟨state, hstate, htext⟩)
    have hne : text ≠ text₀ := by
      rintro rfl
      rcases mem_nextTerms.mp hstate with hmark | ⟨old, hmark, heq⟩
      · have hmap := List.mem_map_of_mem (f := Prod.map FieldMergeState.text id) hmark
        rw [← List.zip_map_left] at hmap
        exact Bool.false_ne_true (hmarked _ hmap (hhead state (List.of_mem_zip hmark).1 htext))
      · have hlt := (List.pairwise_cons.mp (hsorted old (List.of_mem_zip hmark).1)).1 text (heq ▸ htext)
        exact hlt.ne ((hmarks.state_text hmark).trans hcomes)
    have hempty : text ≠ [] := by
      rintro rfl
      refine hfirst.nil_notMem hne (List.mem_map.mpr ⟨old, hold, ?_⟩)
      rcases List.mem_cons.mp hin with heq | hrest
      · exact heq.symm
      · exact absurd ((List.pairwise_cons.mp (hsorted old hold)).1 [] hrest) (List.not_lt_nil _)
    refine ⟨(hvalid old hold text hin).resolve_left hne, ?_⟩
    rw [show term.text = text₀ from hcomes, readText_of_invalid (Bool.eq_false_iff.mpr hinvalid₀)]
    obtain ⟨c, text, rfl⟩ := List.exists_cons_of_ne_nil hempty
    exact List.nil_lt_cons c text

end Merge

/-- A thread begins with the least of the texts that it keeps, and goes through all of them in order. -/
theorem mergeState_spec (tokens : List WString) :
    (mergeState tokens).map FieldMergeState.text = (keptTexts tokens).min? ∧ ∀ state, mergeState tokens = some state →
      state.texts.Pairwise (· < ·) ∧ ∀ text, text ∈ state.texts ↔ text ∈ keptTexts tokens := by
  obtain ⟨hnodup, hterm, hmem⟩ := foldl_add_spec tokens (fun text hmem => absurd hmem List.not_mem_nil) List.nodup_nil
  obtain ⟨hsorted, hsame⟩ := sortPostings_spec hterm hnodup
  have hkept : ∀ text, text ∈ sortPostings (tokens.foldl add []) ↔ text ∈ keptTexts tokens := by
    intro text
    rw [hsame, hmem, or_iff_right List.not_mem_nil, keptTexts, List.mem_filter, List.mem_map, decide_eq_true_iff]
    constructor
    · rintro ⟨tokenText, htoken, rfl, hlength⟩
      exact ⟨⟨tokenText, htoken, rfl⟩, hlength⟩
    · rintro ⟨⟨tokenText, htoken, rfl⟩, hlength⟩
      exact ⟨tokenText, htoken, rfl, hlength⟩
  refine ⟨?_, fun state hstate => ?_⟩
  · rw [mergeState]
    cases hlist : sortPostings (tokens.foldl add []) with
    | nil =>
        rw [hlist] at hkept
        have hempty : keptTexts tokens = [] := List.eq_nil_iff_forall_not_mem.mpr fun text hin =>
          List.not_mem_nil ((hkept text).mpr hin)
        rw [hempty]
        rfl
    | cons text rest =>
        rw [hlist] at hkept hsorted
        refine (List.min?_eq_some_iff.mpr ⟨(hkept text).mp List.mem_cons_self, fun other hother => ?_⟩).symm
        rcases List.mem_cons.mp ((hkept other).mpr hother) with rfl | hrest
        · exact le_rfl
        · exact ((List.pairwise_cons.mp hsorted).1 other hrest).le
  · rw [← FieldMergeState.ofTexts_eq_some.mp hstate]
    exact ⟨hsorted, hkept⟩

theorem exists_mergeState {tokens : List WString} (h : text ∈ keptTexts tokens) :
    ∃ state, mergeState tokens = some state ∧ text ∈ state.texts := by
  have hmin : (keptTexts tokens).min? ≠ none := List.min?_eq_none_iff.not.mpr (List.ne_nil_of_mem h)
  rw [← (mergeState_spec tokens).1, Ne, Option.map_eq_none_iff] at hmin
  obtain ⟨state, heq⟩ := Option.ne_none_iff_exists'.mp hmin
  exact ⟨state, heq, (((mergeState_spec tokens).2 state heq).2 text).mpr h⟩

theorem exists_state_iff {threads : List (List WString)} :
    (∃ state ∈ threads.filterMap mergeState, text ∈ state.texts) ↔ ∃ tokens ∈ threads, text ∈ keptTexts tokens := by
  constructor
  · rintro ⟨state, hstate, htext⟩
    obtain ⟨tokens, htokens, heq⟩ := List.mem_filterMap.mp hstate
    exact ⟨tokens, htokens, (((mergeState_spec tokens).2 state heq).2 text).mp htext⟩
  · rintro ⟨tokens, htokens, htext⟩
    obtain ⟨state, heq, hin⟩ := exists_mergeState htext
    exact ⟨state, List.mem_filterMap.mpr ⟨tokens, htokens, heq⟩, hin⟩

theorem keyTerm_finish (field : WString) (size : WString → Nat) (size' : List UInt8 → Nat) (after : WString → List WChar)
    (h : UNICODE_TERMINATOR ∉ text) : keyTerm field size' (finish size after text) = ⟨field, readText text⟩ := by
  rw [keyTerm, finish, stored, List.append_assoc, List.singleton_append,
    StringUtils.toUnicode_toUTF8 _ _ _ h, readText]

/-- The keys of a field are strictly increasing exactly if each text that is not valid is the only one, is the first
in each thread that has it, and comes first when the threads are merged. -/
theorem keys_increasing_iff (field : WString) (size : WString → Nat) (size' : List UInt8 → Nat)
    (after : WString → List WChar) (threads : List (List WString)) :
    ((keys size after threads).Pairwise fun key key' =>
        (keyTerm field size' key).compareTo (keyTerm field size' key') < 0) ↔
      ∀ text, (∃ tokens ∈ threads, text ∈ keptTexts tokens) → validText text = false →
        (∀ tokens ∈ threads, ∀ other ∈ keptTexts tokens, other = text ∨ validText other = true) ∧
          (∀ tokens ∈ threads, text ∈ keptTexts tokens → (keptTexts tokens).min? = some text) ∧
            ComesFirst (threads.filterMap fun tokens => (keptTexts tokens).min?) text := by
  have hterm : ∀ state ∈ threads.filterMap mergeState, ∀ text ∈ state.texts, UNICODE_TERMINATOR ∉ text := by
    intro state hstate text htext
    obtain ⟨tokens, -, hkept⟩ := exists_state_iff.mp ⟨state, hstate, htext⟩
    obtain ⟨tokenText, -, rfl⟩ := List.mem_map.mp (List.mem_filter.mp hkept).1
    exact terminator_notMem_replaceTerminator tokenText
  have hsorted : ∀ state ∈ threads.filterMap mergeState, state.texts.Pairwise (· < ·) := by
    intro state hstate
    obtain ⟨tokens, -, heq⟩ := List.mem_filterMap.mp hstate
    exact ((mergeState_spec tokens).2 state heq).1
  have hread : ∀ {first second}, first ∈ flush threads → second ∈ flush threads →
      ((keyTerm field size' (finish size after first)).compareTo (keyTerm field size' (finish size after second)) < 0 ↔
        readText first < readText second) := by
    intro first second hfirst hsecond
    obtain ⟨state, hstate, hin⟩ := (mem_appendPostings hterm le_rfl).mp hfirst
    obtain ⟨state', hstate', hin'⟩ := (mem_appendPostings hterm le_rfl).mp hsecond
    rw [Term.compareTo_neg_iff, keyTerm_finish _ _ _ _ (hterm state hstate _ hin),
      keyTerm_finish _ _ _ _ (hterm state' hstate' _ hin'), Term.lt_iff, or_iff_right (lt_irrefl _), and_iff_right rfl]
  rw [keys, List.pairwise_map, List.Pairwise.iff_of_mem hread, flush, increasing_iff hsorted hterm le_rfl]
  refine forall_congr' fun text => imp_congr exists_state_iff (imp_congr_right fun _ => ?_)
  refine and_congr ?_ (and_congr ?_ ?_)
  · constructor
    · intro h tokens htokens other hother
      obtain ⟨state, hstate, hin⟩ := exists_state_iff.mpr ⟨tokens, htokens, hother⟩
      exact h state hstate other hin
    · intro h state hstate other hother
      obtain ⟨tokens, htokens, hin⟩ := exists_state_iff.mp ⟨state, hstate, hother⟩
      exact h tokens htokens other hin
  · constructor
    · intro h tokens htokens htext
      obtain ⟨state, heq, hin⟩ := exists_mergeState htext
      rw [← (mergeState_spec tokens).1, heq, Option.map_some, h state (List.mem_filterMap.mpr ⟨tokens, htokens, heq⟩) hin]
    · intro h state hstate htext
      obtain ⟨tokens, htokens, heq⟩ := List.mem_filterMap.mp hstate
      have hmin := h tokens htokens ((((mergeState_spec tokens).2 state heq).2 text).mp htext)
      rw [← (mergeState_spec tokens).1, heq] at hmin
      exact Option.some.inj hmin
  · rw [List.map_filterMap]
    exact iff_of_eq (congrArg (ComesFirst · text) (List.filterMap_congr fun tokens _ => (mergeState_spec tokens).1))

/-- Two texts of one character, neither of which is a valid code point, get one key. -/
theorem keys_of_invalid_texts :
    keys (fun _ => 10) (fun _ => []) [[[⟨0xfffe, by decide⟩], [⟨0xffff, by decide⟩]]] = [[], []] ∧
      ¬ (keys (fun _ => 10) (fun _ => []) [[[⟨0xfffe, by decide⟩], [⟨0xffff, by decide⟩]]]).Pairwise
        fun key key' => (keyTerm [] (fun _ => 10) key).compareTo (keyTerm [] (fun _ => 10) key') < 0 := by
  decide

end LucenePlusPlus.DictionaryOrder
