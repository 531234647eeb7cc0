import LucenePlusPlus.IndexFormat

/-!
Which strings `IndexInput::readString` gives back after `IndexOutput::writeString`: those whose code points are valid,
without the terminator, whose length times four is an `int32_t`.
-/

namespace LucenePlusPlus
open Decoders UTF8Base WChar

theorem utf32to8_of_not_valid (length : Nat) {text : List WChar} (utf8 : List UInt8) (hterm : UNICODE_TERMINATOR ∉ text)
    (hnot : validText text = false) (hlen : utf8.length + 4 * text.length ≤ length) :
    (UTF8Encoder.utf32to8 length utf8 text).1 = 0 := by
  induction text generalizing utf8 with
  | nil => cases hnot
  | cons c text ih =>
      have hchar := UTF8Encoder.length_appendChar_le c.toUInt32
      rw [List.length_cons] at hlen
      have hne : c ≠ UNICODE_TERMINATOR := fun h => hterm (h ▸ List.mem_cons_self)
      rw [UTF8Encoder.utf32to8, if_neg hne]
      cases hc : isValidCodePoint c.toUInt32 with
      | false => rfl
      | true =>
          have htext : validText text = false := by
            rw [validText, List.all_cons, hc, Bool.true_and] at hnot
            exact hnot
          have hpos : 0 < text.length := List.length_pos_of_ne_nil fun hnil => by
            rw [hnil] at htext
            cases htext
          simp only [Bool.not_true, Bool.false_eq_true, if_false]
          rw [if_neg (by rw [List.length_append]; omega)]
          exact ih _ (fun h => hterm (List.mem_cons_of_mem c h)) htext (by rw [List.length_append]; omega)

theorem toUTF8_of_not_valid (size : Nat) {text : List WChar} (hterm : UNICODE_TERMINATOR ∉ text)
    (hnot : validText text = false) : StringUtils.toUTF8 size text = [] := by
  have hzero := utf32to8_of_not_valid (max size (text.length * StringUtils.MAX_ENCODING_UTF8_SIZE)) [] hterm hnot
    (by
      rw [List.length_nil, StringUtils.MAX_ENCODING_UTF8_SIZE]
      omega)
  rw [StringUtils.toUTF8]
  split_ifs with hlength
  · rfl
  · dsimp only
    rw [hzero]
    rfl

theorem toUnicode_toUTF8_iff (size : Nat) (text : List WChar) :
    StringUtils.toUnicode 0 (StringUtils.toUTF8 size text) = text ↔
      validText text = true ∧ UNICODE_TERMINATOR ∉ text := by
  constructor
  · intro heq
    have hterm : UNICODE_TERMINATOR ∉ text := by
      intro hmem
      obtain ⟨before, after, rfl, hnot⟩ := List.eq_append_cons_of_mem hmem
      rw [StringUtils.toUnicode_toUTF8 size 0 after hnot] at heq
      have hlength := congrArg List.length heq
      rw [List.length_append, List.length_cons] at hlength
      split_ifs at hlength with hvalid
      omega
    refine ⟨?_, hterm⟩
    by_contra hnot
    rw [toUTF8_of_not_valid size hterm (Bool.eq_false_iff.mpr hnot)] at heq
    exact hnot (heq ▸ rfl)
  · rintro ⟨hvalid, hterm⟩
    rw [StringUtils.toUTF8_of_valid size hterm hvalid, StringUtils.toUnicode_octets 0 hvalid]

/-- Whatever the text, what is written is the octets of a part of it that is valid. -/
theorem exists_take_octets (size : Nat) (text : List WChar) :
    ∃ n, validText (text.take n) = true ∧ UNICODE_TERMINATOR ∉ text.take n ∧
      StringUtils.toUTF8 size text = UTF8Encoder.octets (text.take n) := by
  by_cases hmem : UNICODE_TERMINATOR ∈ text
  · obtain ⟨before, after, rfl, hnot⟩ := List.eq_append_cons_of_mem hmem
    rw [StringUtils.toUTF8_eq size after hnot]
    split
    · rename_i hvalid
      refine ⟨before.length, ?_⟩
      rw [List.take_left]
      exact ⟨hvalid, hnot, rfl⟩
    · exact ⟨0, rfl, List.not_mem_nil, rfl⟩
  · cases hvalid : validText text with
    | true =>
        refine ⟨text.length, ?_⟩
        rw [List.take_length]
        exact ⟨hvalid, hmem, StringUtils.toUTF8_of_valid size hmem hvalid⟩
    | false => exact ⟨0, rfl, List.not_mem_nil, toUTF8_of_not_valid size hmem hvalid⟩

theorem exists_octets_eq_toUTF8 (size : Nat) (text : List WChar) :
    ∃ valid, validText valid = true ∧ UNICODE_TERMINATOR ∉ valid ∧
      StringUtils.toUTF8 size text = UTF8Encoder.octets valid := by
  obtain ⟨n, hvalid, hterm, heq⟩ := exists_take_octets size text
  exact ⟨text.take n, hvalid, hterm, heq⟩

/-- Octets that have been written for a text are written again for what is read. -/
theorem toUTF8_toUnicode_toUTF8 (size size' size'' : Nat) (text : List WChar) :
    StringUtils.toUTF8 size'' (StringUtils.toUnicode size' (StringUtils.toUTF8 size text)) =
      StringUtils.toUTF8 size text := by
  obtain ⟨valid, hvalid, hterm, heq⟩ := exists_octets_eq_toUTF8 size text
  rw [heq, StringUtils.toUnicode_octets size' hvalid, StringUtils.toUTF8_of_valid size'' hterm hvalid]

theorem toUnicode_toUTF8_take (size : Nat) (text : List WChar) :
    ∃ n, StringUtils.toUnicode 0 (StringUtils.toUTF8 size text) = text.take n := by
  obtain ⟨n, hvalid, hterm, heq⟩ := exists_take_octets size text
  exact ⟨n, by rw [heq, StringUtils.toUnicode_octets 0 hvalid]⟩

theorem length_toUTF8_le (size : Nat) (text : List WChar) :
    (StringUtils.toUTF8 size text).length ≤ 4 * text.length := by
  obtain ⟨n, hvalid, hterm, heq⟩ := exists_take_octets size text
  have hle := UTF8Encoder.length_octets_le (text.take n)
  rw [List.length_take] at hle
  rw [heq]
  omega

namespace IndexOutput

/-- The size of the array of a `UTF8Result` that has just been made. -/
def UTF8_RESULT_SIZE : Nat := 10

/-- `IndexOutput::writeString` with its lengths in 32 bits. Nothing is defined where the size of the array is none, or
where the text would end before its begin. -/
def writeStringInt32 (s : List WChar) : Option (List UInt8) :=
  let length := toInt32 s.length
  let size := length * StringUtils.MAX_ENCODING_UTF8_SIZE
  if size < -0x80000000 ∨ size ≥ 0x80000000 then none
  else if length < 0 then none
  else some (writeString UTF8_RESULT_SIZE (s.take length.toNat))

theorem writeStringInt32_of_lt {s : List WChar} (h : s.length < 0x20000000) :
    writeStringInt32 s = some (writeString UTF8_RESULT_SIZE s) := by
  have hmax : (StringUtils.MAX_ENCODING_UTF8_SIZE : Int) = 4 := rfl
  rw [writeStringInt32, @toInt32_of_lt s.length (by omega) (by omega), hmax]
  rw [if_neg (by omega), if_neg (by omega), Int.toNat_natCast, List.take_length]

end IndexOutput

open IndexOutput IndexInput
variable (wide : ∀ w, UInt8 → Nat → BitVec w)

/-- The string is read again from what has been written, and no octet behind it is. -/
def ComesBack (s : List WChar) : Prop :=
  ∃ bytes, writeStringInt32 s = some bytes ∧ Decodes (readString wide) bytes s

/-- What is read of a string that has been written. -/
def stringReadBack (s : List WChar) : List WChar :=
  StringUtils.toUnicode 0 (StringUtils.toUTF8 UTF8_RESULT_SIZE (s.take (toInt32 s.length).toNat))

theorem decodes_writeStringInt32 {s : List WChar} {bytes : List UInt8} (h : writeStringInt32 s = some bytes) :
    Decodes (readString wide) bytes (stringReadBack s) := by
  have hmax : (StringUtils.MAX_ENCODING_UTF8_SIZE : Int) = 4 := rfl
  rw [writeStringInt32] at h
  split_ifs at h with hsize hneg
  rw [hmax] at hsize
  cases h
  have hle := length_toUTF8_le UTF8_RESULT_SIZE (s.take (toInt32 s.length).toNat)
  rw [List.length_take] at hle
  exact @decodes_readString wide UTF8_RESULT_SIZE (s.take (toInt32 s.length).toNat) (by omega)

theorem stringReadBack_eq_iff {s : List WChar} :
    (∃ bytes, writeStringInt32 s = some bytes) ∧ stringReadBack s = s ↔
      validText s = true ∧ UNICODE_TERMINATOR ∉ s ∧ s.length < 0x20000000 := by
  have hmax : (StringUtils.MAX_ENCODING_UTF8_SIZE : Int) = 4 := rfl
  constructor
  · rintro ⟨⟨bytes, hwrite⟩, hread⟩
    rw [writeStringInt32] at hwrite
    split_ifs at hwrite with hsize hneg
    rw [hmax] at hsize
    obtain ⟨n, htake⟩ := toUnicode_toUTF8_take UTF8_RESULT_SIZE (s.take (toInt32 s.length).toNat)
    have hwhole : s.length ≤ (toInt32 s.length).toNat := by
      have hlengths := congrArg List.length (hread.symm.trans htake)
      rw [List.length_take, List.length_take] at hlengths
      omega
    rw [stringReadBack, List.take_of_length_le hwhole] at hread
    obtain ⟨hvalid, hterm⟩ := (toUnicode_toUTF8_iff _ s).mp hread
    exact ⟨hvalid, hterm, by omega⟩
  · rintro ⟨hvalid, hterm, hlt⟩
    refine ⟨⟨_, writeStringInt32_of_lt hlt⟩, ?_⟩
    rw [stringReadBack, @toInt32_of_lt s.length (by omega) (by omega), Int.toNat_natCast, List.take_length]
    exact (toUnicode_toUTF8_iff _ s).mpr ⟨hvalid, hterm⟩

theorem comesBack_iff {s : List WChar} (hvalid : validText s = true) :
    ComesBack wide s ↔ UNICODE_TERMINATOR ∉ s ∧ s.length < 0x20000000 := by
  have hiff : ComesBack wide s ↔ (∃ bytes, writeStringInt32 s = some bytes) ∧ stringReadBack s = s := by
    constructor
    · rintro ⟨bytes, hwrite, hread⟩
      have hagain := decodes_writeStringInt32 wide hwrite []
      rw [hread [], Except.ok.injEq, Prod.mk.injEq] at hagain
      exact ⟨⟨bytes, hwrite⟩, hagain.1.symm⟩
    · rintro ⟨⟨bytes, hwrite⟩, hread⟩
      exact ⟨bytes, hwrite, hread ▸ decodes_writeStringInt32 wide hwrite⟩
  rw [hiff, stringReadBack_eq_iff]
  exact ⟨fun h => h.2, fun h => ⟨hvalid, h⟩⟩

theorem comesBack_letter_and_euro : validText [⟨0x41, by decide⟩, ⟨0x20ac, by decide⟩] = true ∧
    (ComesBack (fun w b s => BitVec.ofNat w b.toNat <<< s) [⟨0x41, by decide⟩, ⟨0x20ac, by decide⟩] ↔
      UNICODE_TERMINATOR ∉ [(⟨0x41, by decide⟩ : WChar), ⟨0x20ac, by decide⟩] ∧ 2 < 0x20000000) :=
  ⟨by decide, comesBack_iff _ (by decide)⟩

/-- A string of one letter and U+1FFFF. -/
theorem letter_and_terminator : validText [⟨0x41, by decide⟩, ⟨0x1ffff, by decide⟩] = true ∧
    ¬ ∃ wide : ∀ w, UInt8 → Nat → BitVec w, ComesBack wide [⟨0x41, by decide⟩, ⟨0x1ffff, by decide⟩] := by
  refine ⟨by decide, ?_⟩
  rintro ⟨wide, bytes, hwrite, hread⟩
  have hbytes : writeStringInt32 [⟨0x41, by decide⟩, ⟨0x1ffff, by decide⟩] =
      some (writeString UTF8_RESULT_SIZE [⟨0x41, by decide⟩, ⟨0x1ffff, by decide⟩]) :=
    writeStringInt32_of_lt (by decide)
  rw [hbytes] at hwrite
  cases hwrite
  have hagain := @decodes_readString wide UTF8_RESULT_SIZE [⟨0x41, by decide⟩, ⟨0x1ffff, by decide⟩] (by decide) []
  rw [hread [], Except.ok.injEq, Prod.mk.injEq] at hagain
  exact absurd hagain.1 (by decide)

end LucenePlusPlus
