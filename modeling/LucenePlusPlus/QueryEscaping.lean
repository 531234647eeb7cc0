import LucenePlusPlus.Term
import Mathlib.Tactic.IntervalCases

/-!
How `QueryParser` escapes the characters of its syntax, and takes escapes out of the image of a token.
-/

namespace LucenePlusPlus

/-- A character as a wide character. -/
def WChar.ofChar (c : Char) : WChar :=
  ⟨c.toNat, by
    rcases c.valid with hlt | ⟨-, hlt⟩
    · exact ⟨by omega, by exact_mod_cast hlt.trans (by norm_num)⟩
    · exact ⟨by omega, by exact_mod_cast hlt.trans (by norm_num)⟩⟩

namespace QueryParser
open WChar (ofChar)

/-- What a parse fails with. -/
inductive QueryParserError
  /-- Truncated unicode escape sequence. -/
  | truncatedUnicodeEscape
  /-- Term can not end with escape character. -/
  | escapeAtEnd
  /-- None-hex character in unicode escape sequence. -/
  | noneHex (c : WChar)
deriving DecidableEq

def ESCAPE_CHAR : WChar := ofChar '\\'

def UNICODE_CHAR : WChar := ofChar 'u'

/-- The characters that are part of the query syntax. -/
def SYNTAX_CHARS : List WChar :=
  ['\\', '+', '-', '!', '(', ')', ':', '^', '[', ']', '"', '\x7b', '\x7d', '~', '*', '?', '|', '&'].map ofChar

def escape (s : WString) : WString := s.flatMap fun c => if c ∈ SYNTAX_CHARS then [ESCAPE_CHAR, c] else [c]

def hexToInt (c : WChar) : Except QueryParserError Nat :=
  if ofChar '0' ≤ c ∧ c ≤ ofChar '9' then return (c.1 - (ofChar '0').1).toNat
  else if ofChar 'a' ≤ c ∧ c ≤ ofChar 'f' then return (c.1 - (ofChar 'a').1).toNat + 10
  else if ofChar 'A' ≤ c ∧ c ≤ ofChar 'F' then return (c.1 - (ofChar 'A').1).toNat + 10
  else throw (.noneHex c)

/-- The variables of the loop; `output` has the characters up to `length`. -/
structure Discarding where
  output : WString
  lastCharWasEscapeChar : Bool
  codePointMultiplier : Nat
  codePoint : Nat

def discardChar (s : Discarding) (curChar : WChar) : Except QueryParserError Discarding :=
  if 0 < s.codePointMultiplier then do
    let codePoint := s.codePoint + (← hexToInt curChar) * s.codePointMultiplier
    let codePointMultiplier := s.codePointMultiplier >>> 4
    if codePointMultiplier = 0 then
      return { s with output := s.output ++ [.ofUInt32 codePoint], codePointMultiplier, codePoint := 0 }
    else return { s with codePointMultiplier, codePoint }
  else if s.lastCharWasEscapeChar then
    if curChar = UNICODE_CHAR then
      -- found an escaped unicode character
      return { s with codePointMultiplier := 16 * 16 * 16, lastCharWasEscapeChar := false }
    else return { s with output := s.output ++ [curChar], lastCharWasEscapeChar := false }
  else if curChar = ESCAPE_CHAR then return { s with lastCharWasEscapeChar := true }
  else return { s with output := s.output ++ [curChar] }

/-- Between escapes. -/
def Discarding.between (output : WString) : Discarding :=
  { output, lastCharWasEscapeChar := false, codePointMultiplier := 0, codePoint := 0 }

def discardEscapeChar (input : WString) : Except QueryParserError WString := do
  let s ← input.foldlM discardChar (.between [])
  if 0 < s.codePointMultiplier then throw .truncatedUnicodeEscape
  else if s.lastCharWasEscapeChar then throw .escapeAtEnd
  else return s.output

def LOWER_DIGITS : WString := "0123456789abcdef".toList.map ofChar

def UPPER_DIGITS : WString := "0123456789ABCDEF".toList.map ofChar

/-- The value of a digit is its place among the digits. -/
def IsHex (c : WChar) (value : Nat) : Prop := LOWER_DIGITS[value]? = some c ∨ UPPER_DIGITS[value]? = some c

/-- A hexadecimal digit, with its value. -/
structure HexDigit where
  char : WChar
  value : Nat
  isHex : IsHex char value

/-- What an escaped text is made of. -/
inductive Piece
  | plain (c : WChar) (h : c ≠ ESCAPE_CHAR)
  | escaped (c : WChar) (h : c ≠ UNICODE_CHAR)
  | unicode (a b c d : HexDigit)

namespace Piece

def text : Piece → WString
  | plain c _ => [c]
  | escaped c _ => [ESCAPE_CHAR, c]
  | unicode a b c d => [ESCAPE_CHAR, UNICODE_CHAR, a.char, b.char, c.char, d.char]

/-- The character, or the code unit that the digits give. -/
def value : Piece → WChar
  | plain c _ => c
  | escaped c _ => c
  | unicode a b c d => .ofUInt32 (a.value * 4096 + b.value * 256 + c.value * 16 + d.value)

end Piece

/-- Texts that begin with an escape that is not one, and what they are refused with. -/
inductive Broken : WString → QueryParserError → Prop
  | escapeAtEnd : Broken [ESCAPE_CHAR] .escapeAtEnd
  | truncated (digits : List HexDigit) (h : digits.length < 4) :
      Broken (ESCAPE_CHAR :: UNICODE_CHAR :: digits.map HexDigit.char) .truncatedUnicodeEscape
  | noneHex (digits : List HexDigit) (h : digits.length < 4) (c : WChar) (hc : ∀ value, ¬ IsHex c value)
      (rest : WString) : Broken (ESCAPE_CHAR :: UNICODE_CHAR :: (digits.map HexDigit.char ++ c :: rest)) (.noneHex c)

theorem hexToInt_of_isHex {c : WChar} {value : Nat} (h : IsHex c value) : hexToInt c = .ok value := by
  have hlt : value < 16 := by
    rcases h with h | h
    all_goals exact (List.getElem?_eq_some_iff.mp h).1
  rcases h with h | h
  all_goals
    interval_cases value
    all_goals
      cases h
      decide

theorem isHex_of_hexToInt {c : WChar} {value : Nat} (h : hexToInt c = .ok value) : IsHex c value := by
  obtain ⟨num, hnum⟩ := c
  rw [hexToInt] at h
  split_ifs at h with hdigit hlower hupper
  · have hge : 48 ≤ num := hdigit.1
    have hle : num ≤ 57 := hdigit.2
    interval_cases num
    all_goals
      cases h
      exact Or.inl rfl
  · have hge : 97 ≤ num := hlower.1
    have hle : num ≤ 102 := hlower.2
    interval_cases num
    all_goals
      cases h
      exact Or.inl rfl
  · have hge : 65 ≤ num := hupper.1
    have hle : num ≤ 70 := hupper.2
    interval_cases num
    all_goals
      cases h
      exact Or.inr rfl

theorem hexToInt_of_not_isHex {c : WChar} (h : ∀ value, ¬ IsHex c value) : hexToInt c = .error (.noneHex c) := by
  cases hc : hexToInt c with
  | ok value => exact absurd (isHex_of_hexToInt hc) (h value)
  | error e =>
      unfold hexToInt at hc
      split_ifs at hc
      · cases hc
      · cases hc
      · cases hc
      · exact hc.symm

/-! ### Rounds of the loop -/

variable {output : WString}

/-- After an escape character. -/
def Discarding.escaping (output : WString) : Discarding :=
  { output, lastCharWasEscapeChar := true, codePointMultiplier := 0, codePoint := 0 }

/-- When the digits of a unicode escape are awaited. -/
def Discarding.digits (output : WString) (codePointMultiplier codePoint : Nat) : Discarding :=
  { output, lastCharWasEscapeChar := false, codePointMultiplier, codePoint }

theorem discardChar_plain {c : WChar} (h : c ≠ ESCAPE_CHAR) :
    discardChar (.between output) c = .ok (.between (output ++ [c])) := by
  simp [discardChar, Discarding.between, h, pure, Except.pure]

theorem discardChar_escape : discardChar (.between output) ESCAPE_CHAR
    = .ok (.escaping output) := by
  simp [discardChar, Discarding.between, Discarding.escaping, pure, Except.pure]

theorem discardChar_escaped {c : WChar} (h : c ≠ UNICODE_CHAR) :
    discardChar (.escaping output) c = .ok (.between (output ++ [c])) := by
  simp [discardChar, Discarding.between, Discarding.escaping, h, pure, Except.pure]

theorem discardChar_unicode : discardChar (.escaping output) UNICODE_CHAR
    = .ok (.digits output 4096 0) := by
  simp [discardChar, Discarding.escaping, Discarding.digits, pure, Except.pure]

theorem discardChar_digit {multiplier codePoint : Nat} (h : multiplier >>> 4 ≠ 0) (digit : HexDigit) :
    discardChar (.digits output multiplier codePoint) digit.char
      = .ok (.digits output (multiplier >>> 4) (codePoint + digit.value * multiplier)) := by
  have hpos : 0 < multiplier := by
    rw [Nat.pos_iff_ne_zero]
    rintro rfl
    exact h rfl
  simp only [discardChar, Discarding.digits, hpos, if_true, hexToInt_of_isHex digit.isHex, bind, Except.bind, h, if_false]
  rfl

theorem discardChar_last_digit (codePoint : Nat) (digit : HexDigit) :
    discardChar (.digits output 1 codePoint) digit.char
      = .ok (.between (output ++ [.ofUInt32 (codePoint + digit.value)])) := by
  simp [discardChar, Discarding.digits, Discarding.between, hexToInt_of_isHex digit.isHex, bind, Except.bind, pure, Except.pure]

theorem discardChar_noneHex {multiplier codePoint : Nat} (h : 0 < multiplier) {c : WChar}
    (hc : ∀ value, ¬ IsHex c value) : discardChar (.digits output multiplier codePoint) c = .error (.noneHex c) := by
  simp only [discardChar, Discarding.digits, h, if_true, hexToInt_of_not_isHex hc, bind, Except.bind]

theorem foldlM_cons_of_ok {s s' : Discarding} {c : WChar} (h : discardChar s c = .ok s') (cs : WString) :
    (c :: cs).foldlM discardChar s = cs.foldlM discardChar s' := by
  rw [List.foldlM_cons, h]
  rfl

theorem foldlM_text (piece : Piece) :
    piece.text.foldlM discardChar (.between output) = .ok (.between (output ++ [piece.value])) := by
  cases piece with
  | plain c h => exact foldlM_cons_of_ok (discardChar_plain h) []
  | escaped c h =>
      rw [Piece.text, foldlM_cons_of_ok discardChar_escape, foldlM_cons_of_ok (discardChar_escaped h)]
      rfl
  | unicode a b c d =>
      have hvalue : 0 + a.value * 4096 + b.value * (4096 >>> 4) + c.value * (4096 >>> 4 >>> 4) + d.value
          = a.value * 4096 + b.value * 256 + c.value * 16 + d.value := by
        show 0 + a.value * 4096 + b.value * 256 + c.value * 16 + d.value = _
        rw [Nat.zero_add]
      rw [Piece.text, foldlM_cons_of_ok discardChar_escape, foldlM_cons_of_ok discardChar_unicode,
        foldlM_cons_of_ok (discardChar_digit (by decide) a), foldlM_cons_of_ok (discardChar_digit (by decide) b),
        foldlM_cons_of_ok (discardChar_digit (by decide) c)]
      exact (foldlM_cons_of_ok (discardChar_last_digit _ d) []).trans (by rw [hvalue]; rfl)

theorem foldlM_texts (pieces : List Piece) :
    (pieces.flatMap Piece.text).foldlM discardChar (.between output)
      = .ok (.between (output ++ pieces.map Piece.value)) := by
  induction pieces generalizing output with
  | nil => rw [List.map_nil, List.append_nil]; rfl
  | cons piece pieces ih =>
      rw [List.flatMap_cons, List.foldlM_append, foldlM_text]
      show (pieces.flatMap Piece.text).foldlM discardChar (.between (output ++ [piece.value])) = _
      rw [ih, List.append_assoc]
      rfl

theorem foldlM_digits {digits : List HexDigit} {multiplier codePoint : Nat} (h : multiplier >>> (4 * digits.length) ≠ 0) :
    ∃ codePoint', (digits.map HexDigit.char).foldlM discardChar (.digits output multiplier codePoint)
      = .ok (.digits output (multiplier >>> (4 * digits.length)) codePoint') := by
  induction digits generalizing multiplier codePoint with
  | nil => exact ⟨codePoint, rfl⟩
  | cons digit digits ih =>
      rw [List.length_cons, Nat.mul_succ, Nat.add_comm, Nat.shiftRight_add] at h ⊢
      have hne : multiplier >>> 4 ≠ 0 := by
        intro hzero
        rw [hzero, Nat.zero_shiftRight] at h
        exact h rfl
      obtain ⟨codePoint', hrest⟩ := @ih _ (codePoint + digit.value * multiplier) h
      refine ⟨codePoint', ?_⟩
      rw [List.map_cons, List.foldlM_cons, discardChar_digit hne]
      exact hrest

/-- What is left to be done when the loop has come to an end. -/
def finish (s : Discarding) : Except QueryParserError WString :=
  if 0 < s.codePointMultiplier then throw .truncatedUnicodeEscape
  else if s.lastCharWasEscapeChar then throw .escapeAtEnd
  else return s.output

theorem discardEscapeChar_append (pieces : List Piece) (rest : WString) :
    discardEscapeChar (pieces.flatMap Piece.text ++ rest)
      = (rest.foldlM discardChar (.between (pieces.map Piece.value))).bind finish := by
  rw [discardEscapeChar, List.foldlM_append, foldlM_texts, List.nil_append]
  rfl

theorem discardEscapeChar_texts (pieces : List Piece) :
    discardEscapeChar (pieces.flatMap Piece.text) = .ok (pieces.map Piece.value) := by
  have happend := discardEscapeChar_append pieces []
  rw [List.append_nil] at happend
  rw [happend]
  rfl

theorem four_digits {digits : List HexDigit} (h : digits.length < 4) :
    4096 >>> (4 * digits.length) ≠ 0 := by
  have hcases : digits.length = 0 ∨ digits.length = 1 ∨ digits.length = 2 ∨ digits.length = 3 := by omega
  rcases hcases with h | h | h | h <;> rw [h] <;> decide

theorem discardEscapeChar_broken (pieces : List Piece) {rest : WString} {e : QueryParserError} (h : Broken rest e) :
    discardEscapeChar (pieces.flatMap Piece.text ++ rest) = .error e := by
  rw [discardEscapeChar_append]
  generalize pieces.map Piece.value = output
  cases h with
  | escapeAtEnd =>
      rw [foldlM_cons_of_ok discardChar_escape]
      rfl
  | truncated digits h =>
      obtain ⟨codePoint, hdigits⟩ := @foldlM_digits output digits 4096 0 (four_digits h)
      rw [foldlM_cons_of_ok discardChar_escape, foldlM_cons_of_ok discardChar_unicode, hdigits]
      exact if_pos (Nat.pos_iff_ne_zero.mpr (four_digits h))
  | noneHex digits h c hc rest =>
      obtain ⟨codePoint, hdigits⟩ := @foldlM_digits output digits 4096 0 (four_digits h)
      rw [foldlM_cons_of_ok discardChar_escape, foldlM_cons_of_ok discardChar_unicode, List.foldlM_append, hdigits]
      show Except.bind ((c :: rest).foldlM discardChar (.digits output _ codePoint)) finish = _
      rw [List.foldlM_cons, discardChar_noneHex (Nat.pos_iff_ne_zero.mpr (four_digits h)) hc]
      rfl

theorem exists_digits (count : Nat) (text : WString) :
    ∃ digits : List HexDigit, (digits.length = count ∧ ∃ rest, text = digits.map HexDigit.char ++ rest) ∨
      digits.length < count ∧ (text = digits.map HexDigit.char ∨
        ∃ c rest, (∀ value, ¬ IsHex c value) ∧ text = digits.map HexDigit.char ++ c :: rest) := by
  induction count generalizing text with
  | zero => exact ⟨[], Or.inl ⟨rfl, text, rfl⟩⟩
  | succ count ih =>
      cases text with
      | nil => exact ⟨[], Or.inr ⟨Nat.succ_pos _, Or.inl rfl⟩⟩
      | cons c text =>
          by_cases hhex : ∃ value, IsHex c value
          · obtain ⟨value, hvalue⟩ := hhex
            obtain ⟨digits, ⟨hlength, rest, rfl⟩ | ⟨hlength, hrest⟩⟩ := ih text
            · exact ⟨⟨c, value, hvalue⟩ :: digits, Or.inl ⟨by rw [List.length_cons, hlength], rest, rfl⟩⟩
            · refine ⟨⟨c, value, hvalue⟩ :: digits, Or.inr ⟨Nat.succ_lt_succ hlength, ?_⟩⟩
              rcases hrest with rfl | ⟨c', rest, hc', rfl⟩
              · exact Or.inl rfl
              · exact Or.inr ⟨c', rest, hc', rfl⟩
          · exact ⟨[], Or.inr ⟨Nat.succ_pos _, Or.inr ⟨c, text, not_exists.mp hhex, rfl⟩⟩⟩

theorem exists_pieces (text : WString) : ∃ pieces : List Piece, text = pieces.flatMap Piece.text ∨
    ∃ rest e, Broken rest e ∧ text = pieces.flatMap Piece.text ++ rest := by
  induction hlength : text.length using Nat.strongRecOn generalizing text with
  | ind length ih =>
      have hprepend : ∀ (piece : Piece) (rest : WString), text = piece.text ++ rest → piece.text ≠ [] →
          ∃ pieces : List Piece, text = pieces.flatMap Piece.text ∨
            ∃ rest e, Broken rest e ∧ text = pieces.flatMap Piece.text ++ rest := by
        intro piece rest htext hne
        have hlt : rest.length < length := by
          have hpos := List.length_pos_iff.mpr hne
          rw [← hlength, htext, List.length_append]
          omega
        obtain ⟨pieces, hrest | ⟨broken, e, hbroken, hrest⟩⟩ := ih rest.length hlt rest rfl
        · exact ⟨piece :: pieces, Or.inl (by rw [List.flatMap_cons, ← hrest, htext])⟩
        · exact ⟨piece :: pieces, Or.inr ⟨broken, e, hbroken, by
            rw [List.flatMap_cons, List.append_assoc, ← hrest, htext]⟩⟩
      cases text with
      | nil => exact ⟨[], Or.inl rfl⟩
      | cons c text =>
          by_cases hescape : c = ESCAPE_CHAR
          · subst hescape
            cases text with
            | nil => exact ⟨[], Or.inr ⟨_, _, .escapeAtEnd, rfl⟩⟩
            | cons c text =>
                by_cases hunicode : c = UNICODE_CHAR
                · subst hunicode
                  obtain ⟨digits, ⟨hcount, rest, rfl⟩ | ⟨hcount, rfl | ⟨c, rest, hc, rfl⟩⟩⟩ := exists_digits 4 text
                  · obtain ⟨a, b, c, d, rfl⟩ := List.length_eq_four.mp hcount
                    exact hprepend (.unicode a b c d) rest rfl (List.cons_ne_nil _ _)
                  · exact ⟨[], Or.inr ⟨_, _, .truncated digits hcount, rfl⟩⟩
                  · exact ⟨[], Or.inr ⟨_, _, .noneHex digits hcount c hc rest, rfl⟩⟩
                · exact hprepend (.escaped c hunicode) text rfl (List.cons_ne_nil _ _)
          · exact hprepend (.plain c hescape) text rfl (List.cons_ne_nil _ _)

theorem discardEscapeChar_ok_iff {text value : WString} : discardEscapeChar text = .ok value ↔
    ∃ pieces : List Piece, text = pieces.flatMap Piece.text ∧ value = pieces.map Piece.value := by
  constructor
  · intro h
    obtain ⟨pieces, rfl | ⟨rest, e, hbroken, rfl⟩⟩ := exists_pieces text
    · rw [discardEscapeChar_texts] at h
      exact ⟨pieces, rfl, (Except.ok.inj h).symm⟩
    · rw [discardEscapeChar_broken pieces hbroken] at h
      cases h
  · rintro ⟨pieces, rfl, rfl⟩
    exact discardEscapeChar_texts pieces

theorem discardEscapeChar_error_iff {text : WString} {e : QueryParserError} : discardEscapeChar text = .error e ↔
    ∃ (pieces : List Piece) (rest : WString), text = pieces.flatMap Piece.text ++ rest ∧ Broken rest e := by
  constructor
  · intro h
    obtain ⟨pieces, rfl | ⟨rest, e', hbroken, rfl⟩⟩ := exists_pieces text
    · rw [discardEscapeChar_texts] at h
      cases h
    · have hsame := discardEscapeChar_broken pieces hbroken
      rw [h] at hsame
      cases hsame
      exact ⟨pieces, rest, rfl, hbroken⟩
  · rintro ⟨pieces, rest, rfl, hbroken⟩
    exact discardEscapeChar_broken pieces hbroken

theorem exists_escaped (s : WString) :
    ∃ pieces : List Piece, escape s = pieces.flatMap Piece.text ∧ s = pieces.map Piece.value := by
  induction s with
  | nil => exact ⟨[], rfl, rfl⟩
  | cons c s ih =>
      obtain ⟨pieces, hescape, rfl⟩ := ih
      rw [escape, List.flatMap_cons, ← escape, hescape]
      split
      case isTrue hsyntax =>
        have hne : c ≠ UNICODE_CHAR := by
          rintro rfl
          exact absurd hsyntax (by decide)
        exact ⟨.escaped c hne :: pieces, rfl, rfl⟩
      case isFalse hplain =>
        have hne : c ≠ ESCAPE_CHAR := by
          rintro rfl
          exact hplain (by decide)
        exact ⟨.plain c hne :: pieces, rfl, rfl⟩

end QueryParser
end LucenePlusPlus
