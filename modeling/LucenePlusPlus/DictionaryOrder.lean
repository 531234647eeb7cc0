import LucenePlusPlus.RAMOutputStream
import LucenePlusPlus.Term
import Mathlib.Algebra.Order.BigOperators.Group.List
import Mathlib.Data.List.Sort

/-!
From tokens to the keys of the term dictionary, for one field. Each thread keeps the texts of its tokens in a hash,
`TermsHashPerField`. When the segment is flushed, each thread's texts are sorted, `FreqProxTermsWriter` merges
them, and `FormatPostingsDocsWriter` encodes them for `TermInfosWriter::add`.

A hash is modelled by the list of its texts; in the character block a text ends with the terminator. Every posting
has a document, so that no term is left out.
-/

namespace LucenePlusPlus.DictionaryOrder
open UTF8Base WChar

def CHAR_BLOCK_SIZE : Nat := 2 ^ 14

/-- A text as it is in the character block. -/
def stored (text : WString) : List WChar := text ++ [UNICODE_TERMINATOR]

/-- What `add` makes of the token's text. -/
def replaceTerminator (tokenText : WString) : WString :=
  tokenText.map fun ch => if ch = UNICODE_TERMINATOR then UNICODE_REPLACEMENT_CHAR else ch

def postingEquals : List WChar → WString → Bool
  | text, [] => text.head? = some UNICODE_TERMINATOR
  | [], _ :: _ => false
  | ch :: text, c :: tokenText => if c ≠ ch then false else postingEquals text tokenText

/-- A text that does not fit in a block is skipped. -/
def add (postings : List WString) (tokenText : WString) : List WString :=
  let tokenText := replaceTerminator tokenText
  if postings.any fun text => postingEquals (stored text) tokenText then postings
  else if 1 + tokenText.length > CHAR_BLOCK_SIZE then postings
  else postings ++ [tokenText]

def comparePostings : List WChar → List WChar → Bool
  | c₁ :: text₁, c₂ :: text₂ =>
      if c₁ ≠ c₂ then
        if c₂ = UNICODE_TERMINATOR then false else if c₁ = UNICODE_TERMINATOR then true else c₁ < c₂
      else if c₁ = UNICODE_TERMINATOR then false
      else comparePostings text₁ text₂
  | _, _ => false

def sortPostings (postings : List WString) : List WString :=
  postings.insertionSort fun first second => ¬ comparePostings (stored second) (stored first)

/-- The difference of two characters is an `int32_t`. -/
def compareText : List WChar → List WChar → Int
  | c₁ :: text₁, c₂ :: text₂ =>
      if c₁ ≠ c₂ then
        if c₂ = UNICODE_TERMINATOR then 1 else if c₁ = UNICODE_TERMINATOR then -1 else toInt32 (c₁.1 - c₂.1)
      else if c₁ = UNICODE_TERMINATOR then 0
      else compareText text₁ text₂
  | _, _ => 0

/-- Where a thread is in its texts: at `text`, with `rest` to come. -/
structure FieldMergeState where
  text : WString
  rest : List WString

namespace FieldMergeState

/-- The state of a thread that has not begun, or has come to its end, is none. -/
def ofTexts : List WString → Option FieldMergeState
  | [] => none
  | text :: rest => some ⟨text, rest⟩

def nextTerm (state : FieldMergeState) : Option FieldMergeState := ofTexts state.rest

def texts (state : FieldMergeState) : List WString := state.text :: state.rest

end FieldMergeState

/-- The text of `termStates[0]`, and which of the states that have been compared are in `termStates`. -/
structure TermStates where
  text : WString
  merged : List Bool

def TermStates.compare (termStates : TermStates) (text : WString) : TermStates :=
  let cmp := compareText (stored text) (stored termStates.text)
  if cmp < 0 then ⟨text, termStates.merged.map (fun _ => false) ++ [true]⟩
  else ⟨termStates.text, termStates.merged ++ [decide (cmp = 0)]⟩

/-- The next term, when the states are at these texts. -/
def termStates (text : WString) (texts : List WString) : TermStates := texts.foldl TermStates.compare ⟨text, [true]⟩

/-- The states that share the term go on when their documents have been written. -/
def nextTerms (mergeStates : List FieldMergeState) (merged : List Bool) : List FieldMergeState :=
  (mergeStates.zip merged).filterMap fun state => if state.2 then state.1.nextTerm else some state.1

/-- The texts for `addTerm`, one in a round. -/
def appendPostings : Nat → List FieldMergeState → List WString
  | 0, _ => []
  | _ + 1, [] => []
  | rounds + 1, state :: mergeStates =>
      let term := termStates state.text (mergeStates.map FieldMergeState.text)
      term.text :: appendPostings rounds (nextTerms (state :: mergeStates) term.merged)

/-- A thread that has added the tokens, before its texts are merged. -/
def mergeState (tokens : List WString) : Option FieldMergeState :=
  FieldMergeState.ofTexts (sortPostings (tokens.foldl add []))

/-- The texts of a field in the order in which they are flushed. There are no more rounds than texts. -/
def flush (threads : List (List WString)) : List WString :=
  let mergeStates := threads.filterMap mergeState
  appendPostings (mergeStates.map fun state => state.texts.length).sum mergeStates

/-- `finish` encodes what is in the block from the start of the text; `after` is what the text is followed by there,
and `size` the one of the array for the octets. -/
def finish (size : WString → Nat) (after : WString → List WChar) (text : WString) : List UInt8 :=
  StringUtils.toUTF8 (size text) (stored text ++ after text)

/-- The keys that reach `TermInfosWriter::add`. -/
def keys (size : WString → Nat) (after : WString → List WChar) (threads : List (List WString)) :
    List (List UInt8) :=
  (flush threads).map (finish size after)

/-- The term that `TermInfosReader` compares with when it has read the key. -/
def keyTerm (field : WString) (size : List UInt8 → Nat) (key : List UInt8) : Term :=
  ⟨field, StringUtils.toUnicode (size key) key⟩

variable {text text' : WString}

theorem terminator_notMem_replaceTerminator (tokenText : WString) :
    UNICODE_TERMINATOR ∉ replaceTerminator tokenText := by
  rw [replaceTerminator, List.mem_map]
  rintro ⟨ch, -, heq⟩
  split at heq
  · exact absurd heq (by decide)
  · rename_i hne
    exact hne heq

theorem postingEquals_iff (h : UNICODE_TERMINATOR ∉ text) (h' : UNICODE_TERMINATOR ∉ text') :
    postingEquals (stored text) text' = true ↔ text = text' := by
  induction text' generalizing text with
  | nil =>
      cases text with
      | nil => simp [stored, postingEquals]
      | cons c text =>
          have hne : c ≠ UNICODE_TERMINATOR := fun heq => h (heq ▸ List.mem_cons_self)
          simp [stored, postingEquals, hne]
  | cons c' text' ih =>
      cases text with
      | nil =>
          have hne : c' ≠ UNICODE_TERMINATOR := fun heq => h' (heq ▸ List.mem_cons_self)
          simp [stored, postingEquals, hne]
      | cons c text =>
          have ih := ih (fun hmem => h (List.mem_cons_of_mem _ hmem)) fun hmem => h' (List.mem_cons_of_mem _ hmem)
          simp only [stored, List.cons_append, postingEquals, ne_eq, ite_not, List.cons.injEq] at ih ⊢
          by_cases heq : c' = c
          · rw [if_pos heq, ih]
            simp [heq]
          · simp [if_neg heq, Ne.symm heq]

theorem comparePostings_iff (h : UNICODE_TERMINATOR ∉ text) (h' : UNICODE_TERMINATOR ∉ text') :
    comparePostings (stored text) (stored text') = true ↔ text < text' := by
  induction text generalizing text' with
  | nil =>
      cases text' with
      | nil => simp [stored, comparePostings]
      | cons c' text' =>
          have hne : c' ≠ UNICODE_TERMINATOR := fun heq => h' (heq ▸ List.mem_cons_self)
          simp [stored, comparePostings, hne, Ne.symm hne]
  | cons c text ih =>
      have hne : c ≠ UNICODE_TERMINATOR := fun heq => h (heq ▸ List.mem_cons_self)
      cases text' with
      | nil => simp [stored, comparePostings, hne]
      | cons c' text' =>
          have hne' : c' ≠ UNICODE_TERMINATOR := fun heq => h' (heq ▸ List.mem_cons_self)
          have ih := ih (fun hmem => h (List.mem_cons_of_mem _ hmem)) fun hmem => h' (List.mem_cons_of_mem _ hmem)
          rw [List.cons_lt_cons_iff, ← ih]
          by_cases heq : c = c'
          · simp [stored, comparePostings, heq, hne']
          · simp [stored, comparePostings, heq, hne, hne']

/-- The difference of the first characters in which the texts differ does not overflow. -/
def Near : WString → WString → Prop
  | c₁ :: text₁, c₂ :: text₂ =>
      if c₁ = c₂ then Near text₁ text₂ else -0x80000000 ≤ c₁.1 - c₂.1 ∧ c₁.1 - c₂.1 < 0x80000000
  | _, _ => True

theorem valid_nonneg {c : WChar} (h : isValidCodePoint c.toUInt32 = true) : 0 ≤ c.1 ∧ c.1 < 0x80000000 := by
  rw [isValidCodePoint, Bool.and_eq_true, Bool.and_eq_true, Bool.and_eq_true, decide_eq_true_eq] at h
  have hle := h.1.1.1
  rw [toUInt32, CODE_POINT_MAX] at hle
  have hrange := c.2
  omega

theorem near_of_valid (h : validText text = true) (h' : validText text' = true) : Near text text' := by
  induction text generalizing text' with
  | nil => exact trivial
  | cons c text ih =>
      cases text' with
      | nil => exact trivial
      | cons c' text' =>
          obtain ⟨hc, htext⟩ := validText_cons.mp h
          obtain ⟨hc', htext'⟩ := validText_cons.mp h'
          rw [Near]
          split
          · exact ih htext htext'
          · have hlt := valid_nonneg hc
            have hlt' := valid_nonneg hc'
            omega

theorem compareText_spec (h : UNICODE_TERMINATOR ∉ text) (h' : UNICODE_TERMINATOR ∉ text') :
    (compareText (stored text) (stored text') = 0 ↔ text = text') ∧
      (Near text text' → (compareText (stored text) (stored text') < 0 ↔ text < text')) := by
  induction text generalizing text' with
  | nil =>
      cases text' with
      | nil => simp [stored, compareText]
      | cons c' text' =>
          have hne : c' ≠ UNICODE_TERMINATOR := fun heq => h' (heq ▸ List.mem_cons_self)
          simp [stored, compareText, hne, Ne.symm hne]
  | cons c text ih =>
      have hne : c ≠ UNICODE_TERMINATOR := fun heq => h (heq ▸ List.mem_cons_self)
      cases text' with
      | nil => simp [stored, compareText, hne]
      | cons c' text' =>
          have hne' : c' ≠ UNICODE_TERMINATOR := fun heq => h' (heq ▸ List.mem_cons_self)
          have ih := ih (fun hmem => h (List.mem_cons_of_mem _ hmem)) fun hmem => h' (List.mem_cons_of_mem _ hmem)
          rw [List.cons_lt_cons_iff, List.cons.injEq, ← ih.1, Near]
          by_cases heq : c = c'
          · rw [if_pos heq]
            refine ⟨by simp [stored, compareText, heq, hne'], fun hnear => ?_⟩
            rw [← ih.2 hnear]
            simp [stored, compareText, heq, hne']
          · have hrange := c.2
            have hrange' := c'.2
            have hdiff : toInt32 (c.1 - c'.1) ≠ 0 := fun hzero => heq (Subtype.ext (by rw [toInt32] at hzero; omega))
            rw [if_neg heq]
            refine ⟨by simp [stored, compareText, heq, hne, hne', hdiff], fun hnear => ?_⟩
            have hlt : toInt32 (c.1 - c'.1) < 0 ↔ c < c' := by
              rw [toInt32_of_lt hnear.1 hnear.2, ← Subtype.coe_lt_coe]
              omega
            simp [stored, compareText, heq, hne, hne', hlt]

theorem mem_add {postings : List WString} (h : ∀ text ∈ postings, UNICODE_TERMINATOR ∉ text) (tokenText : WString) :
    text ∈ add postings tokenText ↔
      text ∈ postings ∨ text = replaceTerminator tokenText ∧ text.length < CHAR_BLOCK_SIZE := by
  have hterm := terminator_notMem_replaceTerminator tokenText
  simp only [add]
  split
  · rename_i hany
    obtain ⟨old, hold, hequals⟩ := List.any_eq_true.mp hany
    rw [postingEquals_iff (h old hold) hterm] at hequals
    refine ⟨Or.inl, ?_⟩
    rintro (hmem | ⟨rfl, -⟩)
    · exact hmem
    · exact hequals ▸ hold
  · split
    · rename_i hlong
      refine ⟨Or.inl, ?_⟩
      rintro (hmem | ⟨rfl, hshort⟩)
      · exact hmem
      · omega
    · rename_i hshort
      rw [List.mem_append, List.mem_singleton]
      refine or_congr_right ⟨?_, And.left⟩
      rintro rfl
      exact ⟨rfl, by omega⟩

theorem nodup_add {postings : List WString} (h : ∀ text ∈ postings, UNICODE_TERMINATOR ∉ text)
    (hnodup : postings.Nodup) (tokenText : WString) : (add postings tokenText).Nodup := by
  have hterm := terminator_notMem_replaceTerminator tokenText
  simp only [add]
  split
  · exact hnodup
  · rename_i hany
    split
    · exact hnodup
    · refine List.Nodup.append hnodup (List.nodup_singleton _) (List.disjoint_singleton.mpr fun hmem => hany ?_)
      exact List.any_eq_true.mpr ⟨_, hmem, (postingEquals_iff (h _ hmem) hterm).mpr rfl⟩

/-- The hash of a thread: no text twice, and those of its tokens that fit in a block. -/
theorem foldl_add_spec (tokens : List WString) {postings : List WString}
    (h : ∀ text ∈ postings, UNICODE_TERMINATOR ∉ text) (hnodup : postings.Nodup) :
    (tokens.foldl add postings).Nodup ∧
      (∀ text ∈ tokens.foldl add postings, UNICODE_TERMINATOR ∉ text) ∧
      ∀ text, text ∈ tokens.foldl add postings ↔ text ∈ postings ∨
        ∃ tokenText ∈ tokens, text = replaceTerminator tokenText ∧ text.length < CHAR_BLOCK_SIZE := by
  induction tokens generalizing postings with
  | nil => exact ⟨hnodup, h, fun text => by simp⟩
  | cons tokenText tokens ih =>
      have h' : ∀ text ∈ add postings tokenText, UNICODE_TERMINATOR ∉ text := by
        intro text hmem
        rcases (mem_add h tokenText).mp hmem with hold | ⟨rfl, -⟩
        · exact h text hold
        · exact terminator_notMem_replaceTerminator tokenText
      obtain ⟨hn, ht, hmem⟩ := ih h' (nodup_add h hnodup tokenText)
      refine ⟨hn, ht, fun text => ?_⟩
      rw [List.foldl_cons, hmem, mem_add h, or_assoc]
      simp only [List.mem_cons, exists_eq_or_imp]

theorem sortPostings_spec {postings : List WString} (h : ∀ text ∈ postings, UNICODE_TERMINATOR ∉ text)
    (hnodup : postings.Nodup) :
    (sortPostings postings).Pairwise (· < ·) ∧ ∀ text, text ∈ sortPostings postings ↔ text ∈ postings := by
  have heq : sortPostings postings = postings.insertionSort (· ≤ ·) := by
    have hmap := List.map_insertionSort
      (r := fun first second => ¬ comparePostings (stored second) (stored first) = true) (s := (· ≤ ·)) id postings
      fun a ha b hb => by rw [comparePostings_iff (h b hb) (h a ha), not_lt]; rfl
    rwa [List.map_id, List.map_id] at hmap
  rw [heq]
  refine ⟨?_, fun text => List.mem_insertionSort _⟩
  have hne := (List.perm_insertionSort (· ≤ ·) postings).nodup_iff.mpr hnodup
  exact (List.pairwise_insertionSort (· ≤ ·) postings).imp₂ (fun _ _ hle hne => lt_of_le_of_ne hle hne) hne

/-- The states in `termStates` are at the text of the term; one is. -/
structure Marks (texts : List WString) (term : TermStates) : Prop where
  length_eq : texts.length = term.merged.length
  text_eq : ∀ mark ∈ texts.zip term.merged, mark.2 = true → mark.1 = term.text
  mem : (term.text, true) ∈ texts.zip term.merged

theorem Marks.compare {texts : List WString} {term : TermStates} (hmarks : Marks texts term)
    (hterm : UNICODE_TERMINATOR ∉ term.text) (h : UNICODE_TERMINATOR ∉ text) :
    Marks (texts ++ [text]) (term.compare text) := by
  rw [TermStates.compare]
  split
  · have hlength : texts.length = (term.merged.map fun _ => false).length := by rw [List.length_map, hmarks.length_eq]
    refine ⟨by simp [hlength], fun mark hmem hmark => ?_, ?_⟩
    · rw [List.zip_append hlength, List.mem_append] at hmem
      rcases hmem with hold | hnew
      · obtain ⟨b, -, hb⟩ := List.mem_map.mp (List.of_mem_zip hold).2
        exact absurd (hb.trans hmark) Bool.false_ne_true
      · rw [List.mem_singleton.mp hnew]
    · rw [List.zip_append hlength]
      exact List.mem_append_right _ (List.mem_singleton_self _)
  · refine ⟨by simp [hmarks.length_eq], fun mark hmem hmark => ?_, ?_⟩
    · rw [List.zip_append hmarks.length_eq, List.mem_append] at hmem
      rcases hmem with hold | hnew
      · exact hmarks.text_eq mark hold hmark
      · rw [List.mem_singleton.mp hnew] at hmark ⊢
        exact (compareText_spec h hterm).1.mp (of_decide_eq_true hmark)
    · rw [List.zip_append hmarks.length_eq]
      exact List.mem_append_left _ hmarks.mem

theorem Marks.foldl {seen texts : List WString} {term : TermStates} (hmarks : Marks seen term)
    (h : ∀ text ∈ seen ++ texts, UNICODE_TERMINATOR ∉ text) :
    Marks (seen ++ texts) (texts.foldl TermStates.compare term) := by
  induction texts generalizing seen term with
  | nil => rwa [List.append_nil]
  | cons text texts ih =>
      have hseen := h _ (List.mem_append_left _ (List.of_mem_zip hmarks.mem).1)
      have hnext := hmarks.compare hseen (h text (List.mem_append_right _ List.mem_cons_self))
      rw [List.append_cons] at h ⊢
      exact ih hnext h

theorem marks_termStates {texts : List WString} (h : ∀ text' ∈ text :: texts, UNICODE_TERMINATOR ∉ text') :
    Marks (text :: texts) (termStates text texts) := by
  have hfirst : Marks [text] ⟨text, [true]⟩ :=
    ⟨rfl, fun mark hmem _ => by rw [List.mem_singleton.mp hmem], List.mem_singleton_self _⟩
  exact hfirst.foldl h

/-- Without overflow, the term is the least text, and all states that are at it are in `termStates`. -/
structure Least (texts : List WString) (term : TermStates) : Prop where
  le : ∀ text ∈ texts, term.text ≤ text
  merged : ∀ mark ∈ texts.zip term.merged, mark.1 = term.text → mark.2 = true

theorem Least.foldl {seen texts : List WString} {term : TermStates} (hleast : Least seen term) (hmarks : Marks seen term)
    (h : ∀ text ∈ seen ++ texts, UNICODE_TERMINATOR ∉ text)
    (hnear : ∀ text ∈ seen ++ texts, ∀ text' ∈ seen ++ texts, Near text text') :
    Least (seen ++ texts) (texts.foldl TermStates.compare term) := by
  induction texts generalizing seen term with
  | nil => rwa [List.append_nil]
  | cons text texts ih =>
      have hmem := List.mem_append_left (text :: texts) (List.of_mem_zip hmarks.mem).1
      have hmem' : text ∈ seen ++ text :: texts := List.mem_append_right _ List.mem_cons_self
      have hnext := hmarks.compare (h _ hmem) (h text hmem')
      have hspec := compareText_spec (h text hmem') (h _ hmem)
      have hlt := hspec.2 (hnear text hmem' _ hmem)
      rw [List.append_cons] at h hnear ⊢
      refine ih ?_ hnext h hnear
      rw [TermStates.compare]
      split
      · rename_i hcmp
        rw [hlt] at hcmp
        refine ⟨fun text' htext' => ?_, fun mark hmark heq => ?_⟩
        · rcases List.mem_append.mp htext' with hold | hnew
          · exact hcmp.le.trans (hleast.le text' hold)
          · exact (List.mem_singleton.mp hnew).ge
        · rw [List.zip_append (by rw [List.length_map, hmarks.length_eq])] at hmark
          rcases List.mem_append.mp hmark with hold | hnew
          · exact absurd (hleast.le _ (List.of_mem_zip hold).1) (heq.trans_lt hcmp).not_ge
          · rw [List.mem_singleton.mp hnew]
      · rename_i hcmp
        rw [hlt, not_lt] at hcmp
        refine ⟨fun text' htext' => ?_, fun mark hmark heq => ?_⟩
        · rcases List.mem_append.mp htext' with hold | hnew
          · exact hleast.le text' hold
          · exact hcmp.trans (List.mem_singleton.mp hnew).ge
        · rw [List.zip_append hmarks.length_eq] at hmark
          rcases List.mem_append.mp hmark with hold | hnew
          · exact hleast.merged mark hold heq
          · rw [List.mem_singleton.mp hnew] at heq ⊢
            exact decide_eq_true (hspec.1.mpr heq)

theorem least_termStates {texts : List WString} (h : ∀ text' ∈ text :: texts, UNICODE_TERMINATOR ∉ text')
    (hnear : ∀ text' ∈ text :: texts, ∀ text'' ∈ text :: texts, Near text' text'') :
    Least (text :: texts) (termStates text texts) := by
  have hfirst : Least [text] ⟨text, [true]⟩ :=
    ⟨fun text' hmem => (List.mem_singleton.mp hmem).ge, fun mark hmem _ => by rw [List.mem_singleton.mp hmem]⟩
  have hmarks : Marks [text] ⟨text, [true]⟩ :=
    ⟨rfl, fun mark hmem _ => by rw [List.mem_singleton.mp hmem], List.mem_singleton_self _⟩
  exact hfirst.foldl hmarks h hnear

namespace FieldMergeState

@[simp] theorem ofTexts_eq_some {texts : List WString} {state : FieldMergeState} :
    ofTexts texts = some state ↔ texts = state.texts := by
  cases texts with
  | nil => exact iff_of_false nofun nofun
  | cons text rest =>
      cases state
      simp [ofTexts, FieldMergeState.texts]

end FieldMergeState

section Rounds
variable {mergeStates : List FieldMergeState} {term : TermStates}

theorem exists_mark {state : FieldMergeState} (hlength : mergeStates.length = term.merged.length)
    (hmem : state ∈ mergeStates) : ∃ b, (state, b) ∈ mergeStates.zip term.merged := by
  rw [← List.map_fst_zip hlength.le] at hmem
  obtain ⟨⟨state, b⟩, hmark, rfl⟩ := List.mem_map.mp hmem
  exact ⟨b, hmark⟩

theorem mem_nextTerms {state : FieldMergeState} : state ∈ nextTerms mergeStates term.merged ↔
    (state, false) ∈ mergeStates.zip term.merged ∨
      ∃ old, (old, true) ∈ mergeStates.zip term.merged ∧ old.rest = state.texts := by
  rw [nextTerms, List.mem_filterMap]
  constructor
  · rintro ⟨⟨old, b⟩, hmem, heq⟩
    cases b with
    | false => exact Or.inl (Option.some.inj heq ▸ hmem)
    | true => exact Or.inr ⟨old, hmem, FieldMergeState.ofTexts_eq_some.mp heq⟩
  · rintro (hmem | ⟨old, hmem, heq⟩)
    · exact ⟨_, hmem, rfl⟩
    · exact ⟨_, hmem, FieldMergeState.ofTexts_eq_some.mpr heq⟩

variable (hmarks : Marks (mergeStates.map FieldMergeState.text) term)
include hmarks

theorem Marks.length : mergeStates.length = term.merged.length := by
  rw [← hmarks.length_eq, List.length_map]

theorem Marks.state_text {state : FieldMergeState} (hmem : (state, true) ∈ mergeStates.zip term.merged) :
    state.text = term.text := by
  have hmap := List.mem_map_of_mem (f := Prod.map FieldMergeState.text id) hmem
  rw [← List.zip_map_left] at hmap
  exact hmarks.text_eq _ hmap rfl

theorem Marks.exists_state : ∃ state, (state, true) ∈ mergeStates.zip term.merged := by
  have hmem := hmarks.mem
  rw [List.zip_map_left] at hmem
  obtain ⟨⟨state, b⟩, hstate, heq⟩ := List.mem_map.mp hmem
  obtain ⟨-, rfl⟩ := Prod.mk.inj heq
  exact ⟨state, hstate⟩

/-- In a round the text of the term comes out, of the states that are in `termStates`. -/
theorem Marks.mem_texts_iff {x : WString} : (∃ state ∈ mergeStates, x ∈ state.texts) ↔
    x = term.text ∨ ∃ state ∈ nextTerms mergeStates term.merged, x ∈ state.texts := by
  constructor
  · rintro ⟨state, hstate, hx⟩
    obtain ⟨b, hmark⟩ := exists_mark hmarks.length hstate
    cases b with
    | false => exact Or.inr ⟨state, mem_nextTerms.mpr (Or.inl hmark), hx⟩
    | true =>
        rcases List.mem_cons.mp hx with rfl | hrest
        · exact Or.inl (hmarks.state_text hmark)
        · obtain ⟨first, others, heq⟩ := List.exists_cons_of_ne_nil (List.ne_nil_of_mem hrest)
          refine Or.inr ⟨⟨first, others⟩, mem_nextTerms.mpr (Or.inr ⟨state, hmark, heq⟩), ?_⟩
          rw [heq] at hrest
          exact hrest
  · rintro (rfl | ⟨state, hstate, hx⟩)
    · obtain ⟨state, hmark⟩ := hmarks.exists_state
      exact ⟨state, (List.of_mem_zip hmark).1, hmarks.state_text hmark ▸ List.mem_cons_self⟩
    · rcases mem_nextTerms.mp hstate with hmark | ⟨old, hmark, heq⟩
      · exact ⟨state, (List.of_mem_zip hmark).1, hx⟩
      · exact ⟨old, (List.of_mem_zip hmark).1, List.mem_cons_of_mem _ (heq ▸ hx)⟩

theorem Marks.sum_lt : ((nextTerms mergeStates term.merged).map fun state => state.texts.length).sum <
    (mergeStates.map fun state => state.texts.length).sum := by
  have hnext : ∀ marks : List (FieldMergeState × Bool), ((marks.filterMap fun state =>
      if state.2 then state.1.nextTerm else some state.1).map fun state => state.texts.length).sum =
        (marks.map fun mark => if mark.2 then mark.1.rest.length else mark.1.texts.length).sum := by
    intro marks
    induction marks with
    | nil => rfl
    | cons mark marks ih =>
        obtain ⟨⟨text, rest⟩, b⟩ := mark
        rw [List.map_cons, List.sum_cons, ← ih]
        cases b with
        | false => rfl
        | true =>
            cases rest with
            | nil => exact (Nat.zero_add _).symm
            | cons first others => rfl
  rw [nextTerms, hnext]
  conv_rhs => rw [← List.map_fst_zip hmarks.length.le, List.map_map]
  obtain ⟨state, hmark⟩ := hmarks.exists_state
  refine List.sum_lt_sum _ _ (fun mark _ => ?_) ⟨_, hmark, Nat.lt_succ_self _⟩
  split
  · exact Nat.le_succ _
  · exact le_rfl

end Rounds

section Merge
variable {rounds : Nat} {mergeStates : List FieldMergeState}

theorem forall_text {P : WString → Prop} {state : FieldMergeState}
    (h : ∀ state' ∈ state :: mergeStates, ∀ text ∈ state'.texts, P text) :
    ∀ text ∈ state.text :: mergeStates.map FieldMergeState.text, P text := by
  intro text htext
  obtain ⟨state', hstate', rfl⟩ := List.mem_map.mp (show text ∈ (state :: mergeStates).map FieldMergeState.text from htext)
  exact h state' hstate' _ List.mem_cons_self

theorem marks_of_states {state : FieldMergeState}
    (hterm : ∀ state' ∈ state :: mergeStates, ∀ text ∈ state'.texts, UNICODE_TERMINATOR ∉ text) :
    Marks ((state :: mergeStates).map FieldMergeState.text) (termStates state.text (mergeStates.map FieldMergeState.text)) :=
  marks_termStates (forall_text hterm)

theorem Marks.forall_texts {P : WString → Prop} {term : TermStates}
    (hmarks : Marks (mergeStates.map FieldMergeState.text) term) (h : ∀ state ∈ mergeStates, ∀ text ∈ state.texts, P text) :
    ∀ state ∈ nextTerms mergeStates term.merged, ∀ text ∈ state.texts, P text := by
  intro state hstate text htext
  obtain ⟨old, hold, hmem⟩ := hmarks.mem_texts_iff.mpr (Or.inr ⟨state, hstate, htext⟩)
  exact h old hold text hmem

theorem sorted_nextTerms {term : TermStates} (hsorted : ∀ state ∈ mergeStates, state.texts.Pairwise (· < ·)) :
    ∀ state ∈ nextTerms mergeStates term.merged, state.texts.Pairwise (· < ·) := by
  intro state hstate
  rcases mem_nextTerms.mp hstate with hmark | ⟨old, hmark, heq⟩
  · exact hsorted state (List.of_mem_zip hmark).1
  · exact heq ▸ (List.pairwise_cons.mp (hsorted old (List.of_mem_zip hmark).1)).2

theorem mem_appendPostings {x : WString}
    (hterm : ∀ state ∈ mergeStates, ∀ text ∈ state.texts, UNICODE_TERMINATOR ∉ text)
    (hrounds : (mergeStates.map fun state => state.texts.length).sum ≤ rounds) :
    x ∈ appendPostings rounds mergeStates ↔ ∃ state ∈ mergeStates, x ∈ state.texts := by
  induction rounds generalizing mergeStates with
  | zero =>
      cases mergeStates with
      | nil => simp [appendPostings]
      | cons state mergeStates =>
          rw [List.map_cons, List.sum_cons, FieldMergeState.texts, List.length_cons] at hrounds
          omega
  | succ rounds ih =>
      cases mergeStates with
      | nil => simp [appendPostings]
      | cons state mergeStates =>
          have hmarks := marks_of_states hterm
          rw [appendPostings, List.mem_cons, hmarks.mem_texts_iff,
            ih (hmarks.forall_texts hterm) (Nat.lt_succ_iff.mp (hmarks.sum_lt.trans_le hrounds))]

/-- Where no difference overflows, the texts come out in order, each of them once. -/
theorem appendPostings_sorted (hsorted : ∀ state ∈ mergeStates, state.texts.Pairwise (· < ·))
    (hterm : ∀ state ∈ mergeStates, ∀ text ∈ state.texts, UNICODE_TERMINATOR ∉ text)
    (hnear : ∀ state ∈ mergeStates, ∀ text ∈ state.texts, ∀ state' ∈ mergeStates, ∀ text' ∈ state'.texts, Near text text')
    (hrounds : (mergeStates.map fun state => state.texts.length).sum ≤ rounds) :
    (appendPostings rounds mergeStates).Pairwise (· < ·) := by
  induction rounds generalizing mergeStates with
  | zero => exact List.Pairwise.nil
  | succ rounds ih =>
      cases mergeStates with
      | nil => exact List.Pairwise.nil
      | cons state mergeStates =>
          have hmarks := marks_of_states hterm
          have hleast : Least ((state :: mergeStates).map FieldMergeState.text)
              (termStates state.text (mergeStates.map FieldMergeState.text)) := by
            refine least_termStates (forall_text hterm) (forall_text fun first hfirst text htext => ?_)
            exact forall_text fun second hsecond text' htext' => hnear first hfirst text htext second hsecond text' htext'
          have hnext := hmarks.forall_texts hterm
          have hsum := Nat.lt_succ_iff.mp (hmarks.sum_lt.trans_le hrounds)
          rw [appendPostings, List.pairwise_cons]
          refine ⟨fun x hx => ?_, ih (sorted_nextTerms hsorted) hnext (fun first hfirst text htext second hsecond text' htext' => ?_)
            hsum⟩
          · obtain ⟨left, hleft, hmem⟩ := (mem_appendPostings hnext hsum).mp hx
            rcases mem_nextTerms.mp hleft with hmark | ⟨old, hmark, heq⟩
            · have hin := (List.of_mem_zip hmark).1
              have hle := hleast.le left.text (List.mem_map_of_mem hin)
              have hne : left.text ≠ (termStates state.text (mergeStates.map FieldMergeState.text)).text := by
                intro heq
                have hmap := List.mem_map_of_mem (f := Prod.map FieldMergeState.text id) hmark
                rw [← List.zip_map_left] at hmap
                exact Bool.false_ne_true (hleast.merged _ hmap heq)
              have hlt := lt_of_le_of_ne hle hne.symm
              rcases List.mem_cons.mp hmem with rfl | hrest
              · exact hlt
              · exact hlt.trans ((List.pairwise_cons.mp (hsorted left hin)).1 x hrest)
            · rw [← hmarks.state_text hmark]
              exact (List.pairwise_cons.mp (hsorted old (List.of_mem_zip hmark).1)).1 x (heq ▸ hmem)
          · obtain ⟨old, hold, hmem⟩ := hmarks.mem_texts_iff.mpr (Or.inr ⟨first, hfirst, htext⟩)
            obtain ⟨old', hold', hmem'⟩ := hmarks.mem_texts_iff.mpr (Or.inr ⟨second, hsecond, htext'⟩)
            exact hnear old hold text hmem old' hold' text' hmem'

end Merge

end LucenePlusPlus.DictionaryOrder
