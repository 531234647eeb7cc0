import LucenePlusPlus.NumericRanges
import LucenePlusPlus.StringRoundTrip

/-!
The decoding of prefix coded numbers, which gives them back without their low bits, and the terms, which are in the order
of the numbers and of seven-bit characters.
-/

namespace LucenePlusPlus.NumericUtils
open AlignedBits

inductive DecodeError where
  | numberFormat (message : String)
deriving DecidableEq

def invalidChar (ch i : Nat) : DecodeError :=
  .numberFormat ("Invalid prefixCoded numerical value representation (char " ++ String.ofList (Nat.toDigits 16 ch) ++
    " at position " ++ toString i ++ " is invalid)")

/-- The loop over the characters behind the first one. -/
def decodeChars {w : Nat} : BitVec w → Nat → WString → Except DecodeError (BitVec w)
  | sortableBits, _, [] => .ok sortableBits
  | sortableBits, i, ch :: rest =>
      if 0x7f < ch.1 then .error (invalidChar ch.1.toNat i)
      else decodeChars (sortableBits <<< 7 ||| BitVec.ofInt w ch.1) (i + 1) rest

/-- An empty text has the character zero in front of its end. -/
def decode {w : Nat} (shiftStart : Nat) (invalid : String) (prefixCoded : WString) : Except DecodeError (BitVec w) :=
  let shift := (prefixCoded.head?.elim 0 Subtype.val) - shiftStart
  if (w : Int) - 1 < shift ∨ shift < 0 then .error (.numberFormat invalid)
  else do
    let sortableBits ← decodeChars (0 : BitVec w) 1 prefixCoded.tail
    return sortableBits <<< shift.toNat ^^^ BitVec.intMin w

def prefixCodedToLong (prefixCoded : WString) : Except DecodeError (BitVec 64) :=
  decode SHIFT_START_LONG "Invalid shift value in prefixCoded string (is encoded value really a LONG?)" prefixCoded

def prefixCodedToInt (prefixCoded : WString) : Except DecodeError (BitVec 32) :=
  decode SHIFT_START_INT "Invalid shift value in prefixCoded string (is encoded value really a INT?)" prefixCoded

def prefixCodedTo : (valSize : ValSize) → WString → Except DecodeError (BitVec valSize.bits)
  | .int => prefixCodedToInt
  | .long => prefixCodedToLong

/-- The number with its low bits cleared. -/
def clearLow {w : Nat} (val : BitVec w) (shift : Nat) : BitVec w := val &&& BitVec.allOnes w <<< shift

section Codes
variable {w : Nat}

theorem decodeChars_append (bits : BitVec w) (i : Nat) (text rest : WString) :
    decodeChars bits i (text ++ rest) =
      (decodeChars bits i text).bind fun bits => decodeChars bits (i + text.length) rest := by
  induction text generalizing bits i with
  | nil => rfl
  | cons ch text ih =>
      rw [List.cons_append, decodeChars, decodeChars]
      split
      · rfl
      · rw [ih, List.length_cons, Nat.add_assoc, Nat.add_comm 1]

theorem toNat_shiftLeft_or (hw : 7 < w) (bits : BitVec w) {c : Nat} (hc : c < 0x80) :
    (bits <<< 7 ||| BitVec.ofInt w c).toNat = (bits.toNat * 0x80 + c) % 2 ^ w := by
  obtain ⟨k, hk⟩ : 2 ^ 7 ∣ 2 ^ w := Nat.pow_dvd_pow 2 hw.le
  have hpow : 2 ^ 7 < 2 ^ w := Nat.pow_lt_pow_right (by decide) hw
  rw [BitVec.toNat_or, BitVec.toNat_shiftLeft, BitVec.ofInt_natCast, BitVec.toNat_ofNat,
    Nat.mod_eq_of_lt (lt_trans hc hpow), Nat.shiftLeft_eq, hk, Nat.mul_comm bits.toNat, Nat.mul_mod_mul_left,
    ← Nat.two_pow_add_eq_or_of_lt hc, Nat.mod_mul]
  have hdiv : (2 ^ 7 * bits.toNat + c) / 2 ^ 7 = bits.toNat := by omega
  rw [hdiv]
  omega

theorem decodeChars_prefixChars (hw : 7 < w) (nChars i : Nat) (acc bits : BitVec w) :
    ∃ r, decodeChars acc i (prefixChars nChars bits) = .ok r ∧
      r.toNat = (acc.toNat * 0x80 ^ nChars + bits.toNat % 0x80 ^ nChars) % 2 ^ w := by
  induction nChars generalizing bits with
  | zero =>
      refine ⟨acc, rfl, ?_⟩
      rw [pow_zero, Nat.mul_one, Nat.mod_one, Nat.add_zero, Nat.mod_eq_of_lt acc.isLt]
  | succ nChars ih =>
      obtain ⟨r, hr, hnat⟩ := ih (unsignedShift bits 7)
      have hc : bits.toNat % 0x80 < 0x80 := Nat.mod_lt _ (by decide)
      refine ⟨r <<< 7 ||| BitVec.ofInt w ((bits.toNat % 0x80 : Nat) : Int), ?_, ?_⟩
      · rw [prefixChars, decodeChars_append, hr]
        change decodeChars r _ [prefixChar bits] = _
        rw [decodeChars, if_neg (by simp only [prefixChar]; omega)]
        rfl
      · rw [toNat_shiftLeft_or hw r hc, hnat, toNat_unsignedShift hw]
        have hsplit : acc.toNat * 0x80 ^ (nChars + 1) + bits.toNat % 0x80 ^ (nChars + 1) =
            (acc.toNat * 0x80 ^ nChars + bits.toNat / 0x80 % 0x80 ^ nChars) * 0x80 + bits.toNat % 0x80 := by
          rw [pow_succ', Nat.mod_mul]
          ring
        rw [hsplit]
        exact ((Nat.mod_modEq _ _).mul_right 0x80).add_right _

theorem shiftLeft_unsignedShift_xor {shift : Nat} (h : shift < w) (val : BitVec w) :
    unsignedShift (val ^^^ BitVec.intMin w) shift <<< shift ^^^ BitVec.intMin w = clearLow val shift := by
  rw [unsignedShift_eq h, clearLow]
  apply BitVec.eq_of_getLsbD_eq
  intro i hi
  simp only [BitVec.getLsbD_xor, BitVec.getLsbD_shiftLeft, BitVec.getLsbD_ushiftRight, BitVec.getLsbD_intMin,
    BitVec.getLsbD_and, BitVec.getLsbD_allOnes, hi, decide_true, Bool.true_and]
  by_cases hlow : i < shift
  · simp [hlow, show ¬ i + 1 = w by omega]
  · have hadd : shift + (i - shift) = i := by omega
    simp [hlow, hadd, show i - shift < w by omega]

theorem clearLow_eq {shift : Nat} (val : BitVec w) : clearLow val shift = val >>> shift <<< shift := by
  apply BitVec.eq_of_getLsbD_eq
  intro i hi
  rw [clearLow]
  simp only [BitVec.getLsbD_and, BitVec.getLsbD_shiftLeft, BitVec.getLsbD_allOnes, BitVec.getLsbD_ushiftRight, hi,
    decide_true, Bool.true_and]
  by_cases hlow : i < shift
  · simp [hlow]
  · have hadd : shift + (i - shift) = i := by omega
    simp [hlow, hadd, show i - shift < w by omega]

theorem toInt_clearLow {shift : Nat} (h : shift < w) (val : BitVec w) :
    (clearLow val shift).toInt = val.toInt / (2 ^ shift : Nat) * (2 ^ shift : Nat) := by
  have hnat : (clearLow val shift).toNat = val.toNat - val.toNat % 2 ^ shift + 0 := by
    have hdiv := Nat.div_add_mod val.toNat (2 ^ shift)
    have hlt := val.isLt
    rw [clearLow_eq, BitVec.toNat_shiftLeft, BitVec.toNat_ushiftRight, Nat.shiftRight_eq_div_pow, Nat.shiftLeft_eq,
      Nat.mul_comm, Nat.mod_eq_of_lt (by omega)]
    omega
  have hint := toInt_of_toNat h (Nat.two_pow_pos shift) hnat
  have hdiv := Int.mul_ediv_add_emod val.toInt (2 ^ shift : Nat)
  rw [hint, Int.mul_comm]
  push_cast at hdiv ⊢
  omega

theorem prefixCoded_eq {shiftStart : Nat} {illegal : String} (hstart : shiftStart + w ≤ 0x80) {shift : Nat}
    (h : shift < w) (val : BitVec w) :
    prefixCoded shiftStart illegal hstart val shift = .ok (⟨(shiftStart + shift : Nat), by omega⟩ ::
      prefixChars ((w - 1 - shift) / 7 + 1) (unsignedShift (val ^^^ BitVec.intMin w) shift)) :=
  dif_neg (by omega)

theorem decode_prefixCoded {shiftStart : Nat} {illegal invalid : String} (hstart : shiftStart + w ≤ 0x80) (hw : 7 < w)
    {shift : Nat} (h : shift < w) {val : BitVec w} {code : WString}
    (hcode : prefixCoded shiftStart illegal hstart val shift = .ok code) :
    decode shiftStart invalid code = .ok (clearLow val shift) := by
  rw [prefixCoded_eq hstart h, Except.ok.injEq] at hcode
  subst hcode
  set bits := unsignedShift (val ^^^ BitVec.intMin w) shift with hbits
  set nChars := (w - 1 - shift) / 7 + 1 with hnChars
  obtain ⟨r, hr, hnat⟩ := decodeChars_prefixChars hw nChars 1 0 bits
  have hfits : bits.toNat < 0x80 ^ nChars := by
    rw [hbits, unsignedShift_eq h, BitVec.toNat_ushiftRight, Nat.shiftRight_eq_div_pow,
      Nat.div_lt_iff_lt_mul (Nat.two_pow_pos shift)]
    calc (val ^^^ BitVec.intMin w).toNat < 2 ^ w := BitVec.isLt _
      _ ≤ 2 ^ (7 * nChars + shift) := Nat.pow_le_pow_right Nat.two_pos (by omega)
      _ = 0x80 ^ nChars * 2 ^ shift := by rw [pow_add, pow_mul]; norm_num
  have heq : r = bits := by
    apply BitVec.eq_of_toNat_eq
    have hzero : (0 : BitVec w).toNat = 0 := BitVec.toNat_zero
    rw [hnat, hzero, Nat.zero_mul, Nat.zero_add, Nat.mod_eq_of_lt hfits, Nat.mod_eq_of_lt bits.isLt]
  have hshift : ((shiftStart + shift : Nat) : Int) - shiftStart = shift := by
    push_cast
    omega
  rw [decode]
  simp only [List.head?_cons, Option.elim_some, List.tail_cons, hshift, hr, heq]
  rw [if_neg (by omega), ← shiftLeft_unsignedShift_xor h val]
  rfl

theorem mem_prefixChars {nChars : Nat} {bits : BitVec w} {c : WChar} (h : c ∈ prefixChars nChars bits) :
    0 ≤ c.1 ∧ c.1 ≤ 0x7f := by
  induction nChars generalizing bits with
  | zero => cases h
  | succ nChars ih =>
      rw [prefixChars, List.mem_append, List.mem_singleton] at h
      rcases h with h | rfl
      · exact ih h
      · simp only [prefixChar]
        omega

theorem mem_prefixCoded {shiftStart : Nat} {illegal : String} (hstart : shiftStart + w ≤ 0x80) {shift : Nat}
    (h : shift < w) {val : BitVec w} {code : WString}
    (hcode : prefixCoded shiftStart illegal hstart val shift = .ok code) {c : WChar} (hc : c ∈ code) :
    0 ≤ c.1 ∧ c.1 ≤ 0x7f := by
  rw [prefixCoded_eq hstart h, Except.ok.injEq] at hcode
  subst hcode
  rcases List.mem_cons.mp hc with rfl | hc
  · constructor
    · exact Int.natCast_nonneg _
    · have hle : ((shiftStart + shift : Nat) : Int) ≤ 0x7f := by omega
      exact hle
  · exact mem_prefixChars hc

theorem length_prefixCoded {shiftStart : Nat} {illegal : String} (hstart : shiftStart + w ≤ 0x80) {shift : Nat}
    (h : shift < w) {val : BitVec w} {code : WString}
    (hcode : prefixCoded shiftStart illegal hstart val shift = .ok code) : code.length ≤ (w - 1) / 7 + 2 := by
  rw [prefixCoded_eq hstart h, Except.ok.injEq] at hcode
  rw [← hcode, List.length_cons, length_prefixChars]
  omega

theorem toUnicode_toUTF8_of_sevenBit {text : WString} (h : ∀ c ∈ text, 0 ≤ c.1 ∧ c.1 ≤ 0x7f) (size size' : Nat) :
    StringUtils.toUnicode size' (StringUtils.toUTF8 size text) = text := by
  have hterm : UTF8Base.UNICODE_TERMINATOR ∉ text := by
    intro hmem
    exact absurd (h _ hmem).2 (by decide)
  have hvalid : WChar.validText text = true := by
    rw [WChar.validText, List.all_eq_true]
    intro c hc
    obtain ⟨hpos, hle⟩ := h c hc
    have hcp : c.toUInt32 ≤ 0x7f := by
      rw [WChar.toUInt32]
      omega
    generalize c.toUInt32 = cp at hcp
    have hall : ∀ cp ≤ 0x7f, UTF8Base.isValidCodePoint cp = true := by decide
    exact hall cp hcp
  rw [StringUtils.toUTF8_of_valid size hterm hvalid, StringUtils.toUnicode_octets size' hvalid]

end Codes

def BUF_SIZE_LONG : Nat := 63 / 7 + 2

def BUF_SIZE_INT : Nat := 31 / 7 + 2

def bufSize : ValSize → Nat
  | .int => BUF_SIZE_INT
  | .long => BUF_SIZE_LONG

/-- The codes of two numbers at a shift: they are in the order of the numbers without their low bits, the first one is
decoded to such a number, and its characters fit in the buffer and come through the encoding of terms. -/
structure Codes (valSize : ValSize) (shift : Nat) (a b : BitVec valSize.bits) (code code' : WString) : Prop where
  encoded : toPrefixCoded valSize a shift = .ok code
  encoded' : toPrefixCoded valSize b shift = .ok code'
  before_iff : code.compare code' < 0 ↔ (clearLow a shift).toInt < (clearLow b shift).toInt
  equal_iff : code.compare code' = 0 ↔ (clearLow a shift).toInt = (clearLow b shift).toInt
  decoded : prefixCodedTo valSize code = .ok (clearLow a shift)
  fits : code.length ≤ bufSize valSize
  sevenBit : ∀ c ∈ code, 0 ≤ c.1 ∧ c.1 ≤ 0x7f
  survives : ∀ size size', StringUtils.toUnicode size' (StringUtils.toUTF8 size code) = code

theorem clearLow_le_iff {w shift : Nat} (h : shift < w) (a b : BitVec w) :
    (clearLow a shift).toInt ≤ (clearLow b shift).toInt ↔
      a.toInt / (2 ^ shift : Nat) ≤ b.toInt / (2 ^ shift : Nat) := by
  have hpos : (0 : Int) < (2 ^ shift : Nat) := by exact_mod_cast Nat.two_pow_pos shift
  rw [toInt_clearLow h, toInt_clearLow h, Int.mul_le_mul_right hpos]

theorem codes_of_prefixCoded {w shiftStart shift : Nat} {illegal : String} (hstart : shiftStart + w ≤ 0x80) (hw : 7 < w)
    (h : shift < w) (a b : BitVec w) :
    ∃ code code', prefixCoded shiftStart illegal hstart a shift = .ok code ∧
      prefixCoded shiftStart illegal hstart b shift = .ok code' ∧
      (code.compare code' < 0 ↔ (clearLow a shift).toInt < (clearLow b shift).toInt) ∧
      (code.compare code' = 0 ↔ (clearLow a shift).toInt = (clearLow b shift).toInt) := by
  obtain ⟨code, code', ha, hb, hle⟩ := @prefixCoded_le_iff w shiftStart illegal hstart hw a b shift h
  obtain ⟨code₁, code₁', hb', ha', hge⟩ := @prefixCoded_le_iff w shiftStart illegal hstart hw b a shift h
  rw [hb, Except.ok.injEq] at hb'
  rw [ha, Except.ok.injEq] at ha'
  subst hb' ha'
  rw [← clearLow_le_iff h] at hle hge
  refine ⟨code, code', ha, hb, ?_, ?_⟩
  · rw [WString.compare_neg_iff, ← not_le, hge, not_le]
  · rw [WString.compare_eq_zero_iff, le_antisymm_iff, hle, hge, ← le_antisymm_iff]

/-- Prefix coding keeps the order and the value of the numbers, for both widths and every shift. -/
theorem prefixCoded_exact (valSize : ValSize) (a b : BitVec valSize.bits) {shift : Nat} (h : shift < valSize.bits) :
    ∃ code code', Codes valSize shift a b code code' := by
  cases valSize with
  | int =>
      have hstart : SHIFT_START_INT + 32 ≤ 0x80 := by decide
      obtain ⟨code, code', ha, hb, hlt, heq⟩ := codes_of_prefixCoded hstart (by decide) h a b
      have hchars := fun c => @mem_prefixCoded _ _ _ hstart _ h _ _ ha c
      exact ⟨code, code', ha, hb, hlt, heq, decode_prefixCoded hstart (by decide) h ha, length_prefixCoded hstart h ha,
        hchars, toUnicode_toUTF8_of_sevenBit hchars⟩
  | long =>
      have hstart : SHIFT_START_LONG + 64 ≤ 0x80 := by decide
      obtain ⟨code, code', ha, hb, hlt, heq⟩ := codes_of_prefixCoded hstart (by decide) h a b
      have hchars := fun c => @mem_prefixCoded _ _ _ hstart _ h _ _ ha c
      exact ⟨code, code', ha, hb, hlt, heq, decode_prefixCoded hstart (by decide) h ha, length_prefixCoded hstart h ha,
        hchars, toUnicode_toUTF8_of_sevenBit hchars⟩

theorem prefixCoded_exact_long : ∃ code code', Codes .long 4 (-1) 0x10 code code' :=
  prefixCoded_exact .long (-1) 0x10 (by decide)

end LucenePlusPlus.NumericUtils
