import Mathlib.Data.Int.Order.Basic
import Mathlib.Data.List.Basic
import Mathlib.Tactic.NormNum

/-!
`UTF8Encoder` and `UTF8Decoder`, and how `StringUtils` uses them, for wide characters of four bytes.
A code point that is not valid ends the encoding, and nothing of the text is left then.
-/

namespace LucenePlusPlus

/-- `wchar_t` is signed. -/
abbrev WChar := { c : Int // -0x80000000 ≤ c ∧ c < 0x80000000 }

instance : LawfulBEq (List WChar) := inferInstance

namespace WChar

theorem null_mem : -0x80000000 ≤ (0 : Int) ∧ (0 : Int) < 0x80000000 := by decide

theorem a_mem : -0x80000000 ≤ (97 : Int) ∧ (97 : Int) < 0x80000000 := by decide

theorem f_mem : -0x80000000 ≤ (102 : Int) ∧ (102 : Int) < 0x80000000 := by decide

/-- The cast to `uint32_t`. -/
def toUInt32 (c : WChar) : Nat := (c.1 % 0x100000000).toNat

/-- The value of the lower 32 bits. -/
def wrap (x : Int) : Int :=
  if x % 0x100000000 < 0x80000000 then x % 0x100000000 else x % 0x100000000 - 0x100000000

theorem wrap_mem (x : Int) : -0x80000000 ≤ wrap x ∧ wrap x < 0x80000000 := by
  unfold wrap
  split <;> omega

/-- The cast from `uint32_t`. -/
def ofUInt32 (cp : Nat) : WChar := ⟨wrap cp, wrap_mem cp⟩

end WChar

namespace UTF8Base

def LEAD_SURROGATE_MIN : Nat := 0xd800
def TRAIL_SURROGATE_MAX : Nat := 0xdfff
def CODE_POINT_MAX : Nat := 0x10ffff
def UNICODE_REPLACEMENT_CHAR : WChar := ⟨0x1fffd, by decide⟩
def UNICODE_TERMINATOR : WChar := ⟨0x1ffff, by decide⟩

def mask8 (b : Nat) : Nat := 0xff &&& b

def isTrail (b : Nat) : Bool := mask8 b >>> 6 = 0x2

def isSurrogate (cp : Nat) : Bool := LEAD_SURROGATE_MIN ≤ cp ∧ cp ≤ TRAIL_SURROGATE_MAX

def isValidCodePoint (cp : Nat) : Bool :=
  cp ≤ CODE_POINT_MAX && !isSurrogate cp && cp != 0xfffe && cp != 0xffff

def isOverlongSequence (cp length : Nat) : Bool :=
  if cp < 0x80 then length != 1
  else if cp < 0x800 then length != 2
  else if cp < 0x10000 then length != 3
  else false

end UTF8Base

def READER_EOF : Int := -1

namespace UTF8Encoder
open UTF8Base

def appendChar (cp : Nat) : List UInt8 :=
  if cp < 0x80 then [.ofNat cp]
  else if cp < 0x800 then [.ofNat (cp >>> 6 ||| 0xc0), .ofNat (cp &&& 0x3f ||| 0x80)]
  else if cp < 0x10000 then
    [.ofNat (cp >>> 12 ||| 0xe0), .ofNat (cp >>> 6 &&& 0x3f ||| 0x80), .ofNat (cp &&& 0x3f ||| 0x80)]
  else
    [.ofNat (cp >>> 18 ||| 0xf0), .ofNat (cp >>> 12 &&& 0x3f ||| 0x80),
      .ofNat (cp >>> 6 &&& 0x3f ||| 0x80), .ofNat (cp &&& 0x3f ||| 0x80)]

/-- What is returned when the text or its terminator is reached. -/
def endOf (utf8 : List UInt8) : Int := if utf8.length = 0 then READER_EOF else utf8.length

/-- Also gives what has been written to the array, which has place for `length` octets. -/
def utf32to8 (length : Nat) (utf8 : List UInt8) : List WChar → Int × List UInt8
  | [] => (endOf utf8, utf8)
  | next :: unicode =>
      if next = UNICODE_TERMINATOR then (endOf utf8, utf8)
      else if !isValidCodePoint next.toUInt32 then (0, utf8)
      else
        let utf8 := utf8 ++ appendChar next.toUInt32
        if utf8.length ≥ length then (utf8.length, utf8) else utf32to8 length utf8 unicode

end UTF8Encoder

namespace UTF8Decoder
open UTF8Base

def sequenceLength (cp : Nat) : Nat :=
  let lead := mask8 cp
  if lead < 0x80 then 1
  else if lead >>> 5 = 0x6 then 2
  else if lead >>> 4 = 0xe then 3
  else if lead >>> 3 = 0x1e then 4
  else 0

/-- The next octet, if it is a trail octet, and what follows it. -/
def readTrail : List UInt8 → Option (Nat × List UInt8)
  | [] => none
  | next :: utf8 => if isTrail next.toNat then some (next.toNat, utf8) else none

/-- The code point of a sequence of octets that starts with `cp`, and what follows it. -/
def getSequence (cp length : Nat) (utf8 : List UInt8) : Option (Nat × List UInt8) := do
  let cp := mask8 cp
  if length = 1 then return (cp, utf8)
  let (next, utf8) ← readTrail utf8
  if length = 2 then return ((cp <<< 6 &&& 0x7ff) + (next &&& 0x3f), utf8)
  if length = 3 then
    let cp := (cp <<< 12 &&& 0xffff) + (mask8 next <<< 6 &&& 0xfff)
    let (next, utf8) ← readTrail utf8
    return (cp + (next &&& 0x3f), utf8)
  let cp := (cp <<< 18 &&& 0x1fffff) + (mask8 next <<< 12 &&& 0x3ffff)
  let (next, utf8) ← readTrail utf8
  let cp := cp + (mask8 next <<< 6 &&& 0xfff)
  let (next, utf8) ← readTrail utf8
  return (cp + (next &&& 0x3f), utf8)

def isValidNext (cp : Nat) (utf8 : List UInt8) : Option (Nat × List UInt8) := do
  let length := sequenceLength cp
  if length < 1 ∨ length > 4 then failure
  let (cp, utf8) ← getSequence cp length utf8
  if isValidCodePoint cp && !isOverlongSequence cp length then return (cp, utf8) else failure

def endOf (unicode : List WChar) : Int := if unicode.length = 0 then READER_EOF else unicode.length

/-- Also gives what has been written to the array, which has place for `length` characters. Each round reads an
octet at least, so that there are no more rounds than octets. -/
def utf8to32 (length : Nat) : Nat → List WChar → List UInt8 → Int × List WChar
  | 0, unicode, _ => (endOf unicode, unicode)
  | _ + 1, unicode, [] => (endOf unicode, unicode)
  | rounds + 1, unicode, next :: utf8 =>
      match isValidNext next.toNat utf8 with
      | none => (0, unicode)
      | some (next, utf8) =>
          let unicode := unicode ++ [WChar.ofUInt32 next]
          if unicode.length ≥ length then (unicode.length, unicode)
          else utf8to32 length rounds unicode utf8

end UTF8Decoder

namespace StringUtils

def MAX_ENCODING_UTF8_SIZE : Nat := 4

/-- `size` is the one of the result's array, which grows if it may be too small. -/
def toUTF8 (size : Nat) (unicode : List WChar) : List UInt8 :=
  if unicode.length = 0 then []
  else
    let (encodeLength, utf8) :=
      UTF8Encoder.utf32to8 (max size (unicode.length * MAX_ENCODING_UTF8_SIZE)) [] unicode
    utf8.take (if encodeLength = READER_EOF then 0 else encodeLength).toNat

def toUnicode (size : Nat) (utf8 : List UInt8) : List WChar :=
  if utf8.length = 0 then []
  else
    let (decodeLength, unicode) := UTF8Decoder.utf8to32 (max size utf8.length) utf8.length [] utf8
    unicode.take (if decodeLength = READER_EOF then 0 else decodeLength).toNat

end StringUtils

/-! ### Decoding what has been encoded -/

namespace UTF8Base

theorem and_0x3f (n : Nat) : n &&& 0x3f = n % 64 := Nat.and_two_pow_sub_one_eq_mod n 6

theorem mask8_eq (n : Nat) : mask8 n = n % 256 := by
  rw [mask8, Nat.and_comm]
  exact Nat.and_two_pow_sub_one_eq_mod n 8

theorem or_mark {n i : Nat} (k : Nat) (h : n < 2 ^ i) : n ||| 2 ^ i * k = 2 ^ i * k + n := by
  rw [Nat.or_comm, Nat.two_pow_add_eq_or_of_lt h]

theorem toNat_trail (n : Nat) : (UInt8.ofNat (n &&& 0x3f ||| 0x80)).toNat = 128 + n % 64 := by
  have hlt : n % 64 < 2 ^ 6 := Nat.mod_lt _ (by decide)
  rw [and_0x3f, show (0x80 : Nat) = 2 ^ 6 * 2 from rfl, or_mark 2 hlt, UInt8.toNat_ofNat']
  omega

theorem isValidCodePoint_iff {cp : Nat} : isValidCodePoint cp = true ↔
    cp ≤ 0x10ffff ∧ ¬ (0xd800 ≤ cp ∧ cp ≤ 0xdfff) ∧ cp ≠ 0xfffe ∧ cp ≠ 0xffff := by
  rw [isValidCodePoint, isSurrogate]
  simp only [Bool.and_eq_true, decide_eq_true_eq, Bool.not_eq_true', decide_eq_false_iff_not, bne_iff_ne, and_assoc]
  exact Iff.rfl

end UTF8Base

namespace UTF8Decoder
open UTF8Base UTF8Encoder

theorem readTrail_trail (n : Nat) (utf8 : List UInt8) :
    readTrail (.ofNat (n &&& 0x3f ||| 0x80) :: utf8) = some (128 + n % 64, utf8) := by
  have htrail : isTrail (128 + n % 64) = true := by
    rw [isTrail, mask8_eq, Nat.shiftRight_eq_div_pow]
    exact decide_eq_true (by omega)
  rw [readTrail, toNat_trail, if_pos htrail]

theorem sequenceLength_of {lead : Nat} (h : lead < 256) : sequenceLength lead =
    if lead < 128 then 1 else if lead / 32 = 6 then 2 else if lead / 16 = 14 then 3
    else if lead / 8 = 30 then 4 else 0 := by
  rw [sequenceLength, mask8_eq, Nat.mod_eq_of_lt h]
  simp only [Nat.shiftRight_eq_div_pow, Nat.reducePow]

theorem shift_and (n i j : Nat) : n <<< i &&& (2 ^ j - 1) = n * 2 ^ i % 2 ^ j := by
  rw [Nat.and_two_pow_sub_one_eq_mod, Nat.shiftLeft_eq]

theorem isValidNext_of {lead cp l : Nat} {utf8 rest : List UInt8} (hlength : sequenceLength lead = l)
    (hle : 1 ≤ l ∧ l ≤ 4) (hsequence : getSequence lead l utf8 = some (cp, rest))
    (hvalid : isValidCodePoint cp = true) (hlong : isOverlongSequence cp l = false) :
    isValidNext lead utf8 = some (cp, rest) := by
  simp only [isValidNext, hlength, hsequence, Option.bind_eq_bind, Option.bind_some, hvalid, hlong]
  rw [if_neg (by omega)]
  rfl

theorem isValidNext_one {cp : Nat} (hvalid : isValidCodePoint cp = true) (h : cp < 0x80)
    (utf8 : List UInt8) : isValidNext cp utf8 = some (cp, utf8) := by
  refine isValidNext_of (l := 1) ?_ (by omega) ?_ hvalid ?_
  · rw [sequenceLength_of (by omega), if_pos h]
  · simp [getSequence, mask8_eq, Nat.mod_eq_of_lt (show cp < 256 by omega)]
  · simp [isOverlongSequence, h]

theorem isValidNext_two {cp : Nat} (hvalid : isValidCodePoint cp = true) (hle : 0x80 ≤ cp)
    (hlt : cp < 0x800) (utf8 : List UInt8) :
    isValidNext (192 + cp / 64) (.ofNat (cp &&& 0x3f ||| 0x80) :: utf8) = some (cp, utf8) := by
  refine isValidNext_of (l := 2) ?_ (by omega) ?_ hvalid ?_
  · rw [sequenceLength_of (by omega), if_neg (by omega), if_pos (by omega)]
  · have hsum : (((192 + cp / 64) % 256) <<< 6 &&& 0x7ff) + ((128 + cp % 64) &&& 0x3f) = cp := by
      rw [show (0x7ff : Nat) = 2 ^ 11 - 1 from rfl, shift_and, and_0x3f]
      omega
    simp only [getSequence, readTrail_trail, mask8_eq, Option.bind_eq_bind, Option.bind_some, Option.pure_def,
      hsum]
    rfl
  · simp [isOverlongSequence, hlt, Nat.not_lt.mpr hle]

theorem isValidNext_three {cp : Nat} (hvalid : isValidCodePoint cp = true) (hle : 0x800 ≤ cp)
    (hlt : cp < 0x10000) (utf8 : List UInt8) :
    isValidNext (224 + cp / 4096)
        (.ofNat (cp >>> 6 &&& 0x3f ||| 0x80) :: .ofNat (cp &&& 0x3f ||| 0x80) :: utf8) =
      some (cp, utf8) := by
  refine isValidNext_of (l := 3) ?_ (by omega) ?_ hvalid ?_
  · rw [sequenceLength_of (by omega), if_neg (by omega), if_neg (by omega), if_pos (by omega)]
  · have hsum : (((224 + cp / 4096) % 256) <<< 12 &&& 0xffff) +
        (((128 + (cp >>> 6) % 64) % 256) <<< 6 &&& 0xfff) + ((128 + cp % 64) &&& 0x3f) = cp := by
      rw [show (0xffff : Nat) = 2 ^ 16 - 1 from rfl, show (0xfff : Nat) = 2 ^ 12 - 1 from rfl, shift_and,
        shift_and, and_0x3f, Nat.shiftRight_eq_div_pow]
      omega
    simp only [getSequence, readTrail_trail, mask8_eq, Option.bind_eq_bind, Option.bind_some, Option.pure_def,
      hsum]
    rfl
  · simp [isOverlongSequence, hlt, Nat.not_lt.mpr hle, show ¬ cp < 128 by omega]

theorem isValidNext_four {cp : Nat} (hvalid : isValidCodePoint cp = true) (hle : 0x10000 ≤ cp)
    (utf8 : List UInt8) :
    isValidNext (240 + cp / 262144)
        (.ofNat (cp >>> 12 &&& 0x3f ||| 0x80) :: .ofNat (cp >>> 6 &&& 0x3f ||| 0x80) ::
          .ofNat (cp &&& 0x3f ||| 0x80) :: utf8) =
      some (cp, utf8) := by
  have hmax := (isValidCodePoint_iff.mp hvalid).1
  refine isValidNext_of (l := 4) ?_ (by omega) ?_ hvalid ?_
  · rw [sequenceLength_of (by omega), if_neg (by omega), if_neg (by omega), if_neg (by omega), if_pos (by omega)]
  · have hsum : (((240 + cp / 262144) % 256) <<< 18 &&& 0x1fffff) +
        (((128 + (cp >>> 12) % 64) % 256) <<< 12 &&& 0x3ffff) +
          (((128 + (cp >>> 6) % 64) % 256) <<< 6 &&& 0xfff) + ((128 + cp % 64) &&& 0x3f) = cp := by
      rw [show (0x1fffff : Nat) = 2 ^ 21 - 1 from rfl, show (0x3ffff : Nat) = 2 ^ 18 - 1 from rfl,
        show (0xfff : Nat) = 2 ^ 12 - 1 from rfl, shift_and, shift_and, shift_and, and_0x3f,
        Nat.shiftRight_eq_div_pow, Nat.shiftRight_eq_div_pow]
      omega
    simp only [getSequence, readTrail_trail, mask8_eq, Option.bind_eq_bind, Option.bind_some, Option.pure_def,
      hsum]
    rfl
  · simp [isOverlongSequence, Nat.not_lt.mpr hle, show ¬ cp < 128 by omega, show ¬ cp < 2048 by omega]

theorem isValidNext_appendChar {cp : Nat} (hvalid : isValidCodePoint cp = true) :
    ∃ lead trail, appendChar cp = lead :: trail ∧
      ∀ utf8, isValidNext lead.toNat (trail ++ utf8) = some (cp, utf8) := by
  have hmax := (isValidCodePoint_iff.mp hvalid).1
  by_cases h₁ : cp < 0x80
  · refine ⟨_, _, if_pos h₁, fun utf8 => ?_⟩
    rw [UInt8.toNat_ofNat', Nat.mod_eq_of_lt (by omega)]
    exact isValidNext_one hvalid h₁ utf8
  · by_cases h₂ : cp < 0x800
    · refine ⟨_, _, (if_neg h₁).trans (if_pos h₂), fun utf8 => ?_⟩
      rw [Nat.shiftRight_eq_div_pow, show (0xc0 : Nat) = 2 ^ 6 * 3 from rfl, or_mark 3 (by omega),
        UInt8.toNat_ofNat', Nat.mod_eq_of_lt (by omega)]
      exact isValidNext_two hvalid (by omega) h₂ utf8
    · by_cases h₃ : cp < 0x10000
      · refine ⟨_, _, (if_neg h₁).trans ((if_neg h₂).trans (if_pos h₃)), fun utf8 => ?_⟩
        rw [Nat.shiftRight_eq_div_pow, show (0xe0 : Nat) = 2 ^ 5 * 7 from rfl, or_mark 7 (by omega),
          UInt8.toNat_ofNat', Nat.mod_eq_of_lt (by omega)]
        exact isValidNext_three hvalid (by omega) h₃ utf8
      · refine ⟨_, _, (if_neg h₁).trans ((if_neg h₂).trans (if_neg h₃)), fun utf8 => ?_⟩
        rw [Nat.shiftRight_eq_div_pow, show (0xf0 : Nat) = 2 ^ 4 * 15 from rfl, or_mark 15 (by omega),
          UInt8.toNat_ofNat', Nat.mod_eq_of_lt (by omega)]
        exact isValidNext_four hvalid (by omega) utf8

end UTF8Decoder

namespace WChar
open UTF8Base

theorem wrap_emod {c : Int} (hle : -0x80000000 ≤ c) (hlt : c < 0x80000000) :
    wrap (c % 0x100000000).toNat = c := by
  have hnonneg : 0 ≤ c % 0x100000000 := by omega
  rw [Int.toNat_of_nonneg hnonneg, wrap]
  split <;> omega

theorem ofUInt32_toUInt32 (c : WChar) : ofUInt32 c.toUInt32 = c := by
  apply Subtype.ext
  rw [ofUInt32, toUInt32]
  dsimp only
  exact wrap_emod c.2.1 c.2.2

/-- All code points of the text are valid. -/
def validText (text : List WChar) : Bool := text.all fun c => isValidCodePoint c.toUInt32

theorem validText_cons {c : WChar} {text : List WChar} :
    validText (c :: text) = true ↔ isValidCodePoint c.toUInt32 = true ∧ validText text = true := by
  rw [validText, List.all_cons, Bool.and_eq_true]
  rfl

end WChar

namespace UTF8Encoder
open UTF8Base WChar

def octets (text : List WChar) : List UInt8 := text.flatMap fun c => appendChar c.toUInt32

theorem length_appendChar_le (cp : Nat) : (appendChar cp).length ≤ 4 := by
  unfold appendChar
  split_ifs <;> simp

theorem appendChar_ne_nil (cp : Nat) : appendChar cp ≠ [] := by
  unfold appendChar
  split_ifs <;> simp

theorem octets_cons (c : WChar) (text : List WChar) :
    octets (c :: text) = appendChar c.toUInt32 ++ octets text := List.flatMap_cons

theorem length_octets_le (text : List WChar) : (octets text).length ≤ 4 * text.length := by
  induction text with
  | nil => exact le_rfl
  | cons c text ih =>
      have hchar := length_appendChar_le c.toUInt32
      rw [octets_cons, List.length_append, List.length_cons]
      omega

theorem length_le_octets (text : List WChar) : text.length ≤ (octets text).length := by
  induction text with
  | nil => exact le_rfl
  | cons c text ih =>
      have hpos := List.length_pos_of_ne_nil (appendChar_ne_nil c.toUInt32)
      rw [octets_cons, List.length_append, List.length_cons]
      omega

/-- The encoder stops at the terminator, and has nothing to return for a text that is not valid. -/
theorem utf32to8_eq {length : Nat} {text : List WChar} (rest : List WChar) (utf8 : List UInt8)
    (hterm : UNICODE_TERMINATOR ∉ text) (hlen : utf8.length + 4 * text.length < length) :
    ∃ written, utf32to8 length utf8 (text ++ UNICODE_TERMINATOR :: rest) =
      if validText text then (endOf (utf8 ++ octets text), utf8 ++ octets text) else (0, written) := by
  induction text generalizing utf8 with
  | nil => exact ⟨[], by simp [utf32to8, validText, octets]⟩
  | cons c text ih =>
      obtain ⟨hne, hterm⟩ := not_or.mp (mt List.mem_cons.mpr hterm)
      rw [List.length_cons] at hlen
      have hchar := length_appendChar_le c.toUInt32
      rw [List.cons_append, utf32to8, if_neg (Ne.symm hne)]
      by_cases hvalid : isValidCodePoint c.toUInt32 = true
      · have hroom : ¬ (utf8 ++ appendChar c.toUInt32).length ≥ length := by
          rw [List.length_append]
          omega
        have hmore : (utf8 ++ appendChar c.toUInt32).length + 4 * text.length < length := by
          rw [List.length_append]
          omega
        obtain ⟨written, hih⟩ := ih (utf8 ++ appendChar c.toUInt32) hterm hmore
        refine ⟨written, ?_⟩
        have hcons : validText (c :: text) = validText text := by
          rw [validText, List.all_cons, hvalid, Bool.true_and]
          rfl
        rw [hvalid, hcons, octets_cons, ← List.append_assoc]
        simp only [Bool.not_true, Bool.false_eq_true, if_false, if_neg hroom]
        exact hih
      · have hcons : ¬ validText (c :: text) = true := fun h => hvalid (validText_cons.mp h).1
        refine ⟨utf8, ?_⟩
        rw [if_neg hcons, if_pos (by simpa using hvalid)]

end UTF8Encoder

namespace UTF8Decoder
open UTF8Base UTF8Encoder WChar

theorem utf8to32_octets {length : Nat} {text : List WChar} (rounds : Nat) (unicode : List WChar)
    (hvalid : validText text = true) (hrounds : text.length ≤ rounds)
    (hlen : unicode.length + text.length ≤ length) :
    utf8to32 length rounds unicode (octets text) = (endOf (unicode ++ text), unicode ++ text) := by
  induction text generalizing unicode rounds with
  | nil =>
      rw [List.append_nil, show octets [] = [] from rfl]
      cases rounds <;> rfl
  | cons c text ih =>
      obtain ⟨hc, htext⟩ := validText_cons.mp hvalid
      obtain ⟨lead, trail, happend, hnext⟩ := isValidNext_appendChar hc
      obtain ⟨rounds, rfl⟩ : ∃ r, rounds = r + 1 := ⟨rounds - 1, by rw [List.length_cons] at hrounds; omega⟩
      rw [List.length_cons] at hrounds hlen
      rw [octets_cons, happend, List.cons_append, utf8to32, hnext]
      have happ : unicode ++ c :: text = unicode ++ [c] ++ text := by simp
      simp only [ofUInt32_toUInt32]
      split
      · rename_i hfull
        rw [List.length_append, List.length_singleton] at hfull
        have hnil : text = [] := List.eq_nil_of_length_eq_zero (by omega)
        rw [hnil]
        simp [endOf]
      · rw [ih rounds (unicode ++ [c]) htext (by omega) (by rw [List.length_append, List.length_singleton]; omega),
          ← happ]

end UTF8Decoder

namespace StringUtils
open UTF8Base UTF8Encoder UTF8Decoder WChar

theorem toUTF8_eq (size : Nat) {text : List WChar} (rest : List WChar) (hterm : UNICODE_TERMINATOR ∉ text) :
    toUTF8 size (text ++ UNICODE_TERMINATOR :: rest) = if validText text then octets text else [] := by
  have hne : ¬ (text ++ UNICODE_TERMINATOR :: rest).length = 0 := by simp
  have hlen : ([] : List UInt8).length + 4 * text.length <
      max size ((text ++ UNICODE_TERMINATOR :: rest).length * MAX_ENCODING_UTF8_SIZE) := by
    refine lt_max_of_lt_right ?_
    rw [List.length_append, List.length_cons, List.length_nil, MAX_ENCODING_UTF8_SIZE]
    omega
  obtain ⟨written, heq⟩ := utf32to8_eq rest [] hterm hlen
  rw [toUTF8, if_neg hne, heq]
  by_cases hvalid : validText text = true
  · rw [if_pos hvalid, if_pos hvalid, List.nil_append, UTF8Encoder.endOf]
    by_cases hnil : (octets text).length = 0
    · rw [List.eq_nil_of_length_eq_zero hnil]
      rfl
    · simp only [if_neg hnil]
      rw [if_neg (by rw [READER_EOF]; omega), Int.toNat_natCast, List.take_length]
  · rw [if_neg hvalid, if_neg hvalid]
    simp [READER_EOF]

theorem toUnicode_octets (size : Nat) {text : List WChar} (hvalid : validText text = true) :
    toUnicode size (octets text) = text := by
  rw [toUnicode]
  split
  · rename_i hnil
    cases text with
    | nil => rfl
    | cons c text =>
        rw [octets_cons, List.length_append, Nat.add_eq_zero_iff] at hnil
        exact absurd (List.eq_nil_of_length_eq_zero hnil.1) (appendChar_ne_nil _)
  · have hle := length_le_octets text
    rw [utf8to32_octets (octets text).length [] hvalid hle (by rw [List.length_nil]; omega), List.nil_append,
      UTF8Decoder.endOf]
    by_cases hnil : text.length = 0
    · rw [List.eq_nil_of_length_eq_zero hnil]
      rfl
    · simp only [if_neg hnil]
      rw [if_neg (by rw [READER_EOF]; omega), Int.toNat_natCast, List.take_length]

/-- A text that has been encoded and decoded again is unchanged, or empty if it is not valid. -/
theorem toUnicode_toUTF8 (size size' : Nat) {text : List WChar} (rest : List WChar)
    (hterm : UNICODE_TERMINATOR ∉ text) :
    toUnicode size' (toUTF8 size (text ++ UNICODE_TERMINATOR :: rest)) = if validText text then text else [] := by
  rw [toUTF8_eq size rest hterm]
  split
  · rename_i hvalid
    exact toUnicode_octets size' hvalid
  · rfl

theorem utf32to8_of_valid {length : Nat} {text : List WChar} (utf8 : List UInt8) (hterm : UNICODE_TERMINATOR ∉ text)
    (hvalid : validText text = true) (hlen : utf8.length + 4 * text.length ≤ length) :
    ∃ encodeLength, utf32to8 length utf8 text = (encodeLength, utf8 ++ octets text) ∧
      (if encodeLength = READER_EOF then 0 else encodeLength).toNat = (utf8 ++ octets text).length := by
  induction text generalizing utf8 with
  | nil =>
      refine ⟨UTF8Encoder.endOf utf8, by rw [utf32to8, octets, List.flatMap_nil, List.append_nil], ?_⟩
      rw [octets, List.flatMap_nil, List.append_nil, UTF8Encoder.endOf]
      by_cases hnil : utf8.length = 0
      · rw [if_pos hnil, if_pos rfl, hnil]
        rfl
      · rw [if_neg hnil, if_neg (by rw [READER_EOF]; omega), Int.toNat_natCast]
  | cons c text ih =>
      obtain ⟨hc, htext⟩ := (validText_cons).mp hvalid
      have hchar := length_appendChar_le c.toUInt32
      rw [List.length_cons] at hlen
      have hne : c ≠ UNICODE_TERMINATOR := fun h => hterm (h ▸ List.mem_cons_self)
      rw [utf32to8, if_neg hne, hc, octets_cons, ← List.append_assoc]
      simp only [Bool.not_true, Bool.false_eq_true, if_false]
      split
      · rename_i hfull
        rw [List.length_append] at hfull
        obtain rfl : text = [] := List.eq_nil_of_length_eq_zero (by omega)
        refine ⟨_, by rw [octets, List.flatMap_nil, List.append_nil], ?_⟩
        rw [if_neg (by rw [READER_EOF]; omega), Int.toNat_natCast, octets, List.flatMap_nil, List.append_nil]
      · exact ih _ (fun h => hterm (List.mem_cons_of_mem c h)) htext (by rw [List.length_append]; omega)

theorem toUTF8_of_valid (size : Nat) {text : List WChar} (hterm : UNICODE_TERMINATOR ∉ text)
    (hvalid : validText text = true) : toUTF8 size text = octets text := by
  rw [toUTF8]
  split
  · rename_i hnil
    rw [List.eq_nil_of_length_eq_zero hnil]
    rfl
  · obtain ⟨encodeLength, heq, hlength⟩ := utf32to8_of_valid [] hterm hvalid
      (le_max_of_le_right (by rw [List.length_nil, MAX_ENCODING_UTF8_SIZE, Nat.zero_add, Nat.mul_comm]) :
        _ ≤ max size (text.length * MAX_ENCODING_UTF8_SIZE))
    rw [heq]
    simp only [hlength, List.take_length, List.nil_append]

end StringUtils

end LucenePlusPlus
