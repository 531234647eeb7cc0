import LucenePlusPlus.UTF8Reads

/-!
What `UTF8Decoder` accepts: the octets of valid code points as the standard puts them, which Lean's own encoding of a
character gives. The code point of the terminator is one of them, and the encoder stops there.
-/

namespace LucenePlusPlus
open UTF8Base WChar

namespace UTF8Encoder

theorem appendChar_eq {cp : Nat} (h : cp ≤ 0x10ffff) : appendChar cp =
    if cp < 0x80 then [.ofNat cp]
    else if cp < 0x800 then [.ofNat (192 + cp / 64), .ofNat (128 + cp % 64)]
    else if cp < 0x10000 then [.ofNat (224 + cp / 4096), .ofNat (128 + cp / 64 % 64), .ofNat (128 + cp % 64)]
    else [.ofNat (240 + cp / 262144), .ofNat (128 + cp / 4096 % 64), .ofNat (128 + cp / 64 % 64),
      .ofNat (128 + cp % 64)] := by
  have htrail : ∀ n, n &&& 0x3f ||| 0x80 = 128 + n % 64 := by
    intro n
    have hlt : n % 64 < 2 ^ 6 := Nat.mod_lt _ (by decide)
    rw [and_0x3f, show (0x80 : Nat) = 2 ^ 6 * 2 from rfl, or_mark 2 hlt]
  unfold appendChar
  simp only [htrail, Nat.shiftRight_eq_div_pow, Nat.reducePow]
  split_ifs with h₁ h₂ h₃
  · rfl
  · rw [show (0xc0 : Nat) = 2 ^ 6 * 3 from rfl, or_mark 3 (by omega)]
  · rw [show (0xe0 : Nat) = 2 ^ 5 * 7 from rfl, or_mark 7 (by omega)]
  · rw [show (0xf0 : Nat) = 2 ^ 4 * 15 from rfl, or_mark 15 (by omega)]

theorem appendChar_toNat (c : Char) : appendChar c.toNat = String.utf8EncodeChar c := by
  have hmax : c.toNat ≤ 0x10ffff := by
    have hvalid := c.valid
    rw [UInt32.isValidChar, Nat.isValidChar] at hvalid
    have htoNat : c.toNat = c.val.toNat := rfl
    omega
  rw [appendChar_eq hmax]
  unfold String.utf8EncodeChar
  have htoNat : c.val.toNat = c.toNat := rfl
  dsimp only
  rw [htoNat]
  generalize c.toNat = cp at hmax
  by_cases h₁ : cp < 0x80
  · rw [if_pos h₁, if_pos (by omega)]
  · by_cases h₂ : cp < 0x800
    · rw [if_neg h₁, if_pos h₂, if_neg (by omega), if_pos (by omega), Nat.mod_eq_of_lt (by omega : cp / 64 < 32),
        Nat.add_comm 192, Nat.add_comm 128]
    · by_cases h₃ : cp < 0x10000
      · rw [if_neg h₁, if_neg h₂, if_pos h₃, if_neg (by omega), if_neg (by omega), if_pos (by omega),
          Nat.mod_eq_of_lt (by omega : cp / 4096 < 16), Nat.add_comm 224, Nat.add_comm 128, Nat.add_comm 128]
      · rw [if_neg h₁, if_neg h₂, if_neg h₃, if_neg (by omega), if_neg (by omega), if_neg (by omega),
          Nat.mod_eq_of_lt (by omega : cp / 262144 < 8), Nat.add_comm 240, Nat.add_comm 128, Nat.add_comm 128,
          Nat.add_comm 128]

end UTF8Encoder

namespace UTF8Decoder
open UTF8Encoder
variable {utf8 rest : List UInt8} {cp length : Nat}

theorem readTrail_eq_some {next : Nat} (h : readTrail utf8 = some (next, rest)) :
    ∃ t < 64, next = 128 + t ∧ utf8 = .ofNat (128 + t) :: rest := by
  cases utf8 with
  | nil => cases h
  | cons b utf8 =>
      rw [readTrail] at h
      split_ifs at h with htrail
      cases h
      rw [isTrail, mask8_eq, Nat.shiftRight_eq_div_pow, decide_eq_true_eq] at htrail
      have hlt := b.toNat_lt
      refine ⟨b.toNat - 128, by omega, by omega, ?_⟩
      rw [show 128 + (b.toNat - 128) = b.toNat by omega, UInt8.ofNat_toNat]

theorem lead_of_sequenceLength {lead : Nat} (hlt : lead < 256) (hlength : sequenceLength lead = length) :
    (length = 1 → lead < 128) ∧ (length = 2 → lead / 32 = 6) ∧ (length = 3 → lead / 16 = 14) ∧
      (length = 4 → lead / 8 = 30) := by
  rw [sequenceLength_of hlt] at hlength
  split_ifs at hlength <;> omega

theorem isOverlongSequence_eq_false : isOverlongSequence cp length = false ↔
    (cp < 0x80 → length = 1) ∧ (0x80 ≤ cp → cp < 0x800 → length = 2) ∧
      (0x800 ≤ cp → cp < 0x10000 → length = 3) := by
  unfold isOverlongSequence
  split_ifs with h₁ h₂ h₃ <;> simp <;> omega

theorem getSequence_eq_some {lead : Nat} (hlt : lead < 256) (h : getSequence lead length utf8 = some (cp, rest)) :
    (length = 1 ∧ cp = lead ∧ utf8 = rest) ∨
    (length = 2 ∧ ∃ t < 64, cp = lead * 64 % 2048 + t ∧ utf8 = .ofNat (128 + t) :: rest) ∨
    (length = 3 ∧ ∃ t < 64, ∃ u < 64, cp = lead * 4096 % 65536 + t * 64 + u ∧
      utf8 = .ofNat (128 + t) :: .ofNat (128 + u) :: rest) ∨
    (¬ length < 4 ∨ length = 0) ∧ ∃ t < 64, ∃ u < 64, ∃ v < 64,
      cp = lead * 262144 % 2097152 + t * 4096 + u * 64 + v ∧
        utf8 = .ofNat (128 + t) :: .ofNat (128 + u) :: .ofNat (128 + v) :: rest := by
  have hand : ∀ n i j, n <<< i &&& (2 ^ j - 1) = n * 2 ^ i % 2 ^ j := shift_and
  have h11 := fun n => hand n 6 11
  have h16 := fun n => hand n 12 16
  have h12 := fun n => hand n 6 12
  have h21 := fun n => hand n 18 21
  have h18 := fun n => hand n 12 18
  simp only [Nat.reducePow, Nat.reduceSub] at h11 h16 h12 h21 h18
  unfold getSequence at h
  simp only [mask8_eq, Nat.mod_eq_of_lt hlt, h11, h16, h12, h21, h18, and_0x3f] at h
  by_cases h₁ : length = 1
  · rw [if_pos h₁] at h
    cases h
    exact .inl ⟨h₁, rfl, rfl⟩
  rw [if_neg h₁] at h
  obtain ⟨⟨next, octets⟩, htrail, h₂⟩ := Option.bind_eq_some_iff.mp h
  clear h
  obtain ⟨t, ht, rfl, rfl⟩ := readTrail_eq_some htrail
  by_cases hlength : length = 2
  · rw [if_pos hlength] at h₂
    cases h₂
    exact .inr (.inl ⟨hlength, t, ht, by omega, rfl⟩)
  rw [if_neg hlength] at h₂
  by_cases hlength' : length = 3
  · rw [if_pos hlength'] at h₂
    obtain ⟨⟨next, octets⟩, htrail, h₃⟩ := Option.bind_eq_some_iff.mp h₂
    clear h₂
    obtain ⟨u, hu, rfl, rfl⟩ := readTrail_eq_some htrail
    cases h₃
    exact .inr (.inr (.inl ⟨hlength', t, ht, u, hu, by omega, rfl⟩))
  rw [if_neg hlength'] at h₂
  obtain ⟨⟨next, octets⟩, htrail, h₃⟩ := Option.bind_eq_some_iff.mp h₂
  clear h₂
  obtain ⟨u, hu, rfl, rfl⟩ := readTrail_eq_some htrail
  obtain ⟨⟨next, octets⟩, htrail, h₄⟩ := Option.bind_eq_some_iff.mp h₃
  clear h₃
  obtain ⟨v, hv, rfl, rfl⟩ := readTrail_eq_some htrail
  cases h₄
  exact .inr (.inr (.inr ⟨by omega, t, ht, u, hu, v, hv, by omega, rfl⟩))

theorem eq_appendChar_of_isValidNext {lead : UInt8} (h : isValidNext lead.toNat utf8 = some (cp, rest)) :
    isValidCodePoint cp = true ∧ lead :: utf8 = appendChar cp ++ rest := by
  have hlead := lead.toNat_lt
  unfold isValidNext at h
  generalize hlength : sequenceLength lead.toNat = length at h
  obtain ⟨hlead₁, hlead₂, hlead₃, hlead₄⟩ := lead_of_sequenceLength hlead hlength
  dsimp only at h
  split_ifs at h with hout
  · cases h
  obtain ⟨⟨cp', rest'⟩, hsequence, h⟩ := Option.bind_eq_some_iff.mp h
  split_ifs at h with hvalid
  cases h
  rw [Bool.and_eq_true, Bool.not_eq_true'] at hvalid
  obtain ⟨hvalid, hlong⟩ := hvalid
  obtain ⟨hlong₁, hlong₂, hlong₃⟩ := isOverlongSequence_eq_false.mp hlong
  have hmax := (isValidCodePoint_iff.mp hvalid).1
  refine ⟨hvalid, ?_⟩
  rw [appendChar_eq hmax, ← UInt8.ofNat_toNat (x := lead)]
  rcases getSequence_eq_some hlead hsequence with ⟨h₁, rfl, rfl⟩ | ⟨h₂, t, ht, hcp, rfl⟩ |
    ⟨h₃, t, ht, u, hu, hcp, rfl⟩ | ⟨h₄, t, ht, u, hu, v, hv, hcp, rfl⟩
  · rw [if_pos (hlead₁ h₁)]
    rfl
  · have hdiv := hlead₂ h₂
    rw [if_neg (by omega), if_pos (by omega), show 192 + cp' / 64 = lead.toNat by omega,
      show 128 + cp' % 64 = 128 + t by omega]
    rfl
  · have hdiv := hlead₃ h₃
    rw [if_neg (by omega), if_neg (by omega), if_pos (by omega), show 224 + cp' / 4096 = lead.toNat by omega,
      show 128 + cp' / 64 % 64 = 128 + t by omega, show 128 + cp' % 64 = 128 + u by omega]
    rfl
  · have hdiv := hlead₄ (by omega)
    rw [if_neg (by omega), if_neg (by omega), if_neg (by omega), show 240 + cp' / 262144 = lead.toNat by omega,
      show 128 + cp' / 4096 % 64 = 128 + t by omega, show 128 + cp' / 64 % 64 = 128 + u by omega,
      show 128 + cp' % 64 = 128 + v by omega]
    rfl

/-! ### All octets -/

theorem toUInt32_ofUInt32 (h : cp ≤ 0x10ffff) : (ofUInt32 cp).toUInt32 = cp := by
  have hwrap : wrap cp = cp := by
    rw [wrap]
    split <;> omega
  rw [toUInt32, ofUInt32]
  dsimp only
  rw [hwrap]
  omega

theorem exists_text_of_utf8to32 {rounds : Nat} (unicode : List WChar) (hrounds : utf8.length ≤ rounds)
    (hlength : unicode.length + utf8.length ≤ length) (h : (utf8to32 length rounds unicode utf8).1 ≠ 0) :
    ∃ text, validText text = true ∧ octets text = utf8 := by
  induction rounds generalizing unicode utf8 with
  | zero => exact ⟨[], rfl, (List.eq_nil_of_length_eq_zero (by omega)).symm⟩
  | succ rounds ih =>
      cases utf8 with
      | nil => exact ⟨[], rfl, rfl⟩
      | cons lead utf8 =>
          rw [List.length_cons] at hrounds hlength
          rw [utf8to32] at h
          cases hnext : isValidNext lead.toNat utf8 with
          | none =>
              rw [hnext] at h
              exact absurd rfl h
          | some p =>
              obtain ⟨cp, rest⟩ := p
              obtain ⟨hvalid, happend⟩ := eq_appendChar_of_isValidNext hnext
              have hcp := toUInt32_ofUInt32 (isValidCodePoint_iff.mp hvalid).1
              have hpos := List.length_pos_of_ne_nil (appendChar_ne_nil cp)
              have hsum := congrArg List.length happend
              rw [List.length_cons, List.length_append] at hsum
              rw [hnext] at h
              dsimp only at h
              have hrest : ∃ text, validText text = true ∧ octets text = rest := by
                split_ifs at h with hfull
                · rw [List.length_append, List.length_singleton] at hfull
                  exact ⟨[], rfl, (List.eq_nil_of_length_eq_zero (by omega)).symm⟩
                · rw [List.length_append, List.length_singleton] at hfull
                  refine ih (unicode ++ [ofUInt32 cp]) (by omega) ?_ h
                  rw [List.length_append, List.length_singleton]
                  omega
              obtain ⟨text, htext, hoctets⟩ := hrest
              refine ⟨ofUInt32 cp :: text, validText_cons.mpr ⟨hcp.symm ▸ hvalid, htext⟩, ?_⟩
              rw [octets_cons, hcp, hoctets, happend]

theorem utf8to32_ne_zero_iff (hlength : utf8.length ≤ length) :
    (utf8to32 length utf8.length [] utf8).1 ≠ 0 ↔ ∃ text, validText text = true ∧ octets text = utf8 := by
  constructor
  · exact exists_text_of_utf8to32 [] le_rfl (by rw [List.length_nil]; omega)
  · rintro ⟨text, hvalid, rfl⟩
    have hle := length_le_octets text
    rw [utf8to32_octets _ [] hvalid hle (by rw [List.length_nil]; omega), List.nil_append, endOf]
    dsimp only
    split_ifs
    · decide
    · omega

end UTF8Decoder

namespace UTF8Decoder
open UTF8Encoder StringUtils
variable {utf8 : List UInt8} {length : Nat}

/-- The octets of characters whose code points are valid. -/
def Encodes (text : List Char) (utf8 : List UInt8) : Prop :=
  (∀ c ∈ text, isValidCodePoint c.toNat = true) ∧ text.flatMap String.utf8EncodeChar = utf8

theorem exists_char {cp : Nat} (hvalid : isValidCodePoint cp = true) : ∃ c : Char, c.toNat = cp := by
  obtain ⟨hmax, hsurrogate, -⟩ := isValidCodePoint_iff.mp hvalid
  have hchar : cp.isValidChar := by
    rw [Nat.isValidChar]
    omega
  exact ⟨Char.ofNatAux cp hchar, rfl⟩

theorem encodes_of_validText {text : List WChar} (h : validText text = true) :
    ∃ chars, Encodes chars (octets text) ∧ chars.map Char.toNat = text.map toUInt32 := by
  induction text with
  | nil => exact ⟨[], ⟨fun _ hmem => (nomatch hmem), rfl⟩, rfl⟩
  | cons c text ih =>
      obtain ⟨hc, htext⟩ := validText_cons.mp h
      obtain ⟨chars, ⟨hchars, hflat⟩, hmap⟩ := ih htext
      obtain ⟨char, hchar⟩ := exists_char hc
      refine ⟨char :: chars, ⟨List.forall_mem_cons.mpr ⟨hchar ▸ hc, hchars⟩, ?_⟩, ?_⟩
      · rw [List.flatMap_cons, hflat, octets_cons, ← hchar, appendChar_toNat]
      · rw [List.map_cons, List.map_cons, hmap, hchar]

theorem validText_of_encodes {chars : List Char} (h : Encodes chars utf8) :
    validText (chars.map fun c => ofUInt32 c.toNat) = true ∧ octets (chars.map fun c => ofUInt32 c.toNat) = utf8 := by
  obtain ⟨hvalid, rfl⟩ := h
  induction chars with
  | nil => exact ⟨rfl, rfl⟩
  | cons c chars ih =>
      obtain ⟨hc, hchars⟩ := List.forall_mem_cons.mp hvalid
      obtain ⟨htext, hoctets⟩ := ih hchars
      have htoUInt32 := toUInt32_ofUInt32 (isValidCodePoint_iff.mp hc).1
      refine ⟨validText_cons.mpr ⟨htoUInt32.symm ▸ hc, htext⟩, ?_⟩
      rw [List.map_cons, octets_cons, htoUInt32, appendChar_toNat, hoctets, List.flatMap_cons]

theorem toUTF8_eq_octets_iff (size : Nat) {text : List WChar} (hvalid : validText text = true) :
    toUTF8 size text = octets text ↔ UNICODE_TERMINATOR ∉ text := by
  constructor
  · intro heq hmem
    obtain ⟨before, after, rfl, hnot⟩ := List.eq_append_cons_of_mem hmem
    have hsplit : octets (before ++ UNICODE_TERMINATOR :: after) =
        octets before ++ octets (UNICODE_TERMINATOR :: after) := List.flatMap_append
    have hlonger : (octets before).length < (octets (before ++ UNICODE_TERMINATOR :: after)).length := by
      have hpos := length_le_octets (UNICODE_TERMINATOR :: after)
      rw [List.length_cons] at hpos
      rw [hsplit, List.length_append]
      omega
    rw [← heq, toUTF8_eq size after hnot] at hlonger
    split_ifs at hlonger
    · omega
    · exact absurd hlonger (Nat.not_lt_zero _)
  · exact fun hterm => toUTF8_of_valid size hterm hvalid

/-- Decoding reads no octet but these, gives no text exactly if they are not those of valid code points, and encoding
what it gives gives them again. -/
def Exact (size length : Nat) (utf8 : List UInt8) : Prop :=
  ∃ decodeLength unicode, Pointers.decode utf8 length = some (decodeLength, unicode) ∧
    (decodeLength ≠ 0 ↔ ∃ text, Encodes text utf8) ∧ (decodeLength ≠ 0 → toUTF8 size unicode = utf8)

theorem exists_encodes_iff : (∃ chars, Encodes chars utf8) ↔ ∃ text, validText text = true ∧ octets text = utf8 := by
  constructor
  · rintro ⟨chars, hchars⟩
    exact ⟨_, validText_of_encodes hchars⟩
  · rintro ⟨text, hvalid, rfl⟩
    obtain ⟨chars, hchars, -⟩ := encodes_of_validText hvalid
    exact ⟨chars, hchars⟩

/-- An array with a place for each octet, as `StringUtils::toUnicode` takes it. -/
theorem exact_iff (size : Nat) (hlength : utf8.length ≤ length) :
    Exact size length utf8 ↔ ∀ text, Encodes text utf8 → ∀ c ∈ text, c.toNat ≠ 0x1ffff := by
  have hterm : UNICODE_TERMINATOR.toUInt32 = 0x1ffff := rfl
  have hdecode := @Pointers.decode_eq utf8 length
  have hsuccess := utf8to32_ne_zero_iff hlength
  have htext : ∀ text, validText text = true → octets text = utf8 →
      (utf8to32 length utf8.length [] utf8).2 = text := by
    rintro text hvalid rfl
    have hle := length_le_octets text
    rw [utf8to32_octets _ [] hvalid hle (by rw [List.length_nil]; omega), List.nil_append]
  constructor
  · rintro ⟨decodeLength, unicode, hresult, -, hagain⟩ chars hchars c hmem heq
    obtain ⟨hvalid, hoctets⟩ := validText_of_encodes hchars
    rw [hdecode, Option.some.injEq] at hresult
    have hencoded := hagain (by
      have hne := hsuccess.mpr ⟨_, hvalid, hoctets⟩
      rwa [hresult] at hne)
    have hunicode := htext _ hvalid hoctets
    rw [hresult] at hunicode
    dsimp only at hunicode
    rw [hunicode] at hencoded
    refine (toUTF8_eq_octets_iff size hvalid).mp (hencoded.trans hoctets.symm) ?_
    refine List.mem_map.mpr ⟨c, hmem, ?_⟩
    rw [heq, ← hterm, ofUInt32_toUInt32]
  · intro hnot
    refine ⟨_, _, hdecode, hsuccess.trans exists_encodes_iff.symm, fun hne => ?_⟩
    obtain ⟨text, hvalid, hoctets⟩ := hsuccess.mp hne
    obtain ⟨chars, hchars, hmap⟩ := encodes_of_validText hvalid
    rw [htext text hvalid hoctets, ← hoctets]
    refine (toUTF8_eq_octets_iff size hvalid).mpr fun hmem => ?_
    have hcode := List.mem_map_of_mem (f := toUInt32) hmem
    rw [← hmap, hterm] at hcode
    obtain ⟨c, hc, heq⟩ := List.mem_map.mp hcode
    exact hnot chars (hoctets ▸ hchars) c hc heq

theorem exact_iff_two_letters : [0x41, 0xc3, 0xa9].length ≤ 3 ∧
    (Exact 0 3 [0x41, 0xc3, 0xa9] ↔ ∀ text, Encodes text [0x41, 0xc3, 0xa9] → ∀ c ∈ text, c.toNat ≠ 0x1ffff) :=
  ⟨by decide, exact_iff 0 (by decide)⟩

/-- U+1FFFF. -/
theorem terminator_is_not_exact : ¬ Exact 0 4 [0xf0, 0x9f, 0xbf, 0xbf] := by
  have hdecode : Pointers.decode [0xf0, 0x9f, 0xbf, 0xbf] 4 = some (1, [UNICODE_TERMINATOR]) := by
    have hoctets : octets [UNICODE_TERMINATOR] = [0xf0, 0x9f, 0xbf, 0xbf] := by decide
    have heq := @utf8to32_octets 4 [UNICODE_TERMINATOR] 4 [] (by decide) (by decide) (by decide)
    rw [hoctets] at heq
    rw [Pointers.decode_eq]
    exact congrArg some heq
  rintro ⟨decodeLength, unicode, hresult, -, hagain⟩
  rw [hdecode, Option.some.injEq, Prod.mk.injEq] at hresult
  obtain ⟨rfl, rfl⟩ := hresult
  exact absurd (hagain (by decide)) (by decide)

end UTF8Decoder

end LucenePlusPlus
