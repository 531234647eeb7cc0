import LucenePlusPlus.RadixStrings

/-!
`NumberTools`: numbers of 64 bits as strings that are in the order of the numbers. A negative number gets a `'0'` behind its sign,
for which there is no place if it is close to zero.
-/

namespace LucenePlusPlus
namespace NumberTools
open WChar (ofChar)
open StringUtils (toStringInBase toLongInBase TellsDigits radixDigit radixDigit_lt_iff toStringInBase_spec toLongInBase_numeral)
open Numerals

def RADIX : Int := 36

def NEGATIVE_PREFIX : WChar := ofChar '-'

def POSITIVE_PREFIX : WChar := ofChar '0'

def MIN_STRING_VALUE : WString := NEGATIVE_PREFIX :: "0000000000000".toList.map ofChar

def STR_SIZE : Nat := MIN_STRING_VALUE.length

def longToString (l : Int) : Option WString :=
  -- special case, because long is not symmetric around zero
  if l = -2 ^ 63 then some MIN_STRING_VALUE
  else
    let buf := if l < 0 then [NEGATIVE_PREFIX] else []
    let l := if l < 0 then 2 ^ 63 - 1 + l + 1 else l
    let buf := buf ++ [POSITIVE_PREFIX]
    (toStringInBase l RADIX).map fun num =>
      let padLen : Int := STR_SIZE - num.length - buf.length
      buf ++ List.replicate padLen.toNat (ofChar '0') ++ num

inductive NumberFormatException
  | wrongSize
  | wrongPrefix
deriving DecidableEq

def stringToLong (isDigit : WChar → Bool) (str : WString) : Except NumberFormatException Int :=
  if str.length ≠ STR_SIZE then .error .wrongSize
  else if str = MIN_STRING_VALUE then .ok (-2 ^ 63)
  else
    let l := toLongInBase isDigit (str.drop 1) RADIX
    if str.head? = some POSITIVE_PREFIX then .ok l
    else if str.head? = some NEGATIVE_PREFIX then .ok (toInt64 (l - (2 ^ 63 - 1) - 1))
    else .error .wrongPrefix

/-- Numbers whose strings have the right size: not those below zero that need thirteen digits. -/
def Good (l : Int) : Prop := l < 36 ^ 12 - 2 ^ 63 ∨ 0 ≤ l

instance (l : Int) : Decidable (Good l) := by
  unfold Good
  infer_instance

/-- The string of a good number. -/
def encoded (l : Int) : WString :=
  if l < 0 then NEGATIVE_PREFIX :: POSITIVE_PREFIX :: (numeral 36 12 (l + 2 ^ 63).toNat).map radixDigit
  else POSITIVE_PREFIX :: (numeral 36 13 l.toNat).map radixDigit

theorem length_encoded (l : Int) : (encoded l).length = STR_SIZE := by
  rw [encoded]
  split
  · rw [List.length_cons, List.length_cons, List.length_map, length_numeral]
    rfl
  · rw [List.length_cons, List.length_map, length_numeral]
    rfl

theorem padded_eq {k w n : Nat} (hw : IsWidth 36 n w) (hle : w ≤ k) :
    List.replicate (k - w) (ofChar '0') ++ (numeral 36 w n).map radixDigit = (numeral 36 k n).map radixDigit := by
  have hzero : ofChar '0' = radixDigit 0 := by decide
  conv_rhs => rw [show k = (k - w) + w by omega]
  rw [numeral_add_of_lt (k - w) hw.lt, List.map_append, List.map_replicate, hzero]

variable {l : Int}

/-- What is written for a number that is not the least one, by the number that is written behind the sign. -/
theorem longToString_eq (hne : l ≠ -2 ^ 63) {n w : Nat} (hn : (if l < 0 then 2 ^ 63 - 1 + l + 1 else l) = n)
    (hwritten : toStringInBase n 36 = some ((numeral 36 w n).map radixDigit)) :
    longToString l = some ((if l < 0 then [NEGATIVE_PREFIX] else []) ++ [POSITIVE_PREFIX] ++
      List.replicate ((if l < 0 then 12 else 13) - w) (ofChar '0') ++ (numeral 36 w n).map radixDigit) := by
  have hsize : STR_SIZE = 14 := rfl
  rw [longToString, if_neg hne, hn, RADIX]
  simp only [hwritten, Option.map_some, List.length_map, length_numeral, hsize]
  have hpad : ((14 : Nat) - (w : Int) - (((if l < 0 then [NEGATIVE_PREFIX] else []) ++ [POSITIVE_PREFIX]).length : Nat)).toNat =
      (if l < 0 then 12 else 13) - w := by
    split
    · simp
      omega
    · simp
      omega
  rw [hpad]

theorem exists_written (hge : -2 ^ 63 ≤ l) (hlt : l < 2 ^ 63) : ∃ n w : Nat,
    (if l < 0 then 2 ^ 63 - 1 + l + 1 else l) = n ∧ n < 2 ^ 63 ∧ IsWidth 36 n w ∧
      toStringInBase n 36 = some ((numeral 36 w n).map radixDigit) := by
  obtain ⟨n, hn⟩ : ∃ n : Nat, (if l < 0 then 2 ^ 63 - 1 + l + 1 else l) = n := by
    refine ⟨(if l < 0 then 2 ^ 63 - 1 + l + 1 else l).toNat, (Int.toNat_of_nonneg ?_).symm⟩
    split <;> omega
  have hlt : n < 2 ^ 63 := by
    split at hn <;> omega
  obtain ⟨w, hw, hwritten⟩ := toStringInBase_spec (hlt.trans (by decide))
  exact ⟨n, w, hn, hlt, hw, hwritten⟩

theorem longToString_of_good (hge : -2 ^ 63 ≤ l) (hlt : l < 2 ^ 63) (hgood : Good l) : longToString l = some (encoded l) := by
  by_cases hmin : l = -2 ^ 63
  · rw [hmin]
    decide
  · obtain ⟨n, w, hn, hn63, hw, hwritten⟩ := exists_written hge hlt
    rw [longToString_eq hmin hn hwritten, encoded]
    by_cases hneg : l < 0
    · simp only [hneg, if_true] at hn ⊢
      have hle : w ≤ 12 := by
        rw [hw.le_iff (by decide) (by decide)]
        rcases hgood with hbelow | habove
        · omega
        · omega
      have hnat : (l + 2 ^ 63).toNat = n := by omega
      rw [List.append_assoc, padded_eq hw hle, hnat]
      rfl
    · simp only [hneg, if_false] at hn ⊢
      have hle : w ≤ 13 := by
        rw [hw.le_iff (by decide) (by decide)]
        omega
      have hnat : l.toNat = n := by omega
      rw [List.append_assoc, padded_eq hw hle, hnat]
      rfl

/-- A negative number that needs thirteen digits gets a string that is too long. -/
theorem longToString_of_not_good (hge : -2 ^ 63 ≤ l) (hgood : ¬ Good l) :
    ∃ s, longToString l = some s ∧ s.length = STR_SIZE + 1 := by
  have hneg : l < 0 := by
    by_contra hpos
    exact hgood (.inr (by omega))
  have hbig : ¬ l < 36 ^ 12 - 2 ^ 63 := fun h => hgood (.inl h)
  obtain ⟨n, w, hn, hn63, hw, hwritten⟩ := exists_written hge (by omega)
  have hwidth : w = 13 := by
    have hthirteen := (hw.le_iff (by decide) (by decide : 0 < 13)).mpr (hn63.trans (by decide))
    have htwelve := (hw.le_iff (by decide) (by decide : 0 < 12)).not.mpr (by
      simp only [hneg, if_true] at hn
      omega)
    omega
  refine ⟨_, longToString_eq (by omega) hn hwritten, ?_⟩
  simp [hneg, hwidth, STR_SIZE, MIN_STRING_VALUE]

theorem encoded_lt {a b : Int} (hge : -2 ^ 63 ≤ a) (hlt : b < 2 ^ 63) (hb : Good b) (hab : a < b) :
    encoded a < encoded b := by
  rw [Good] at hb
  rw [encoded, encoded]
  by_cases haneg : a < 0
  · rw [if_pos haneg]
    by_cases hbneg : b < 0
    · rw [if_pos hbneg, List.cons_lt_cons_iff]
      refine .inr ⟨rfl, List.cons_lt_cons_iff.mpr (.inr ⟨rfl, ?_⟩)⟩
      rw [map_numeral_lt_iff (by decide) radixDigit_lt_iff, Nat.mod_eq_of_lt (by omega), Nat.mod_eq_of_lt (by omega)]
      omega
    · rw [if_neg hbneg, List.cons_lt_cons_iff]
      exact .inl (by decide)
  · rw [if_neg haneg, if_neg (by omega), List.cons_lt_cons_iff]
    refine .inr ⟨rfl, ?_⟩
    rw [map_numeral_lt_iff (by decide) radixDigit_lt_iff, Nat.mod_eq_of_lt (by omega), Nat.mod_eq_of_lt (by omega)]
    omega

variable {isDigit : WChar → Bool}

theorem encoded_min : encoded (-2 ^ 63) = MIN_STRING_VALUE := by decide

theorem head_zero (n : Nat) (hn : n < 36 ^ 12) :
    POSITIVE_PREFIX :: (numeral 36 12 n).map radixDigit = (numeral 36 13 n).map radixDigit := by
  rw [numeral_add_of_lt 1 hn]
  rfl

theorem stringToLong_encoded (h : TellsDigits isDigit) (hge : -2 ^ 63 ≤ l) (hlt : l < 2 ^ 63) (hgood : Good l) :
    stringToLong isDigit (encoded l) = .ok l := by
  have hsize : ¬ (encoded l).length ≠ STR_SIZE := fun hne => hne (length_encoded l)
  rw [stringToLong, if_neg hsize]
  by_cases hmin : l = -2 ^ 63
  · rw [hmin, if_pos encoded_min]
  · have hne : encoded l ≠ MIN_STRING_VALUE := by
      rw [← encoded_min]
      exact (encoded_lt le_rfl hlt hgood (by omega)).ne'
    rw [if_neg hne, encoded]
    by_cases hneg : l < 0
    · have hn : (l + 2 ^ 63).toNat < 36 ^ 12 := by
        rcases hgood with hbelow | habove <;> omega
      have hvalue := @toLongInBase_numeral _ h 13 (l + 2 ^ 63).toNat (by omega)
      have hsign : ¬ some NEGATIVE_PREFIX = some POSITIVE_PREFIX := by decide
      rw [if_pos hneg]
      simp only [List.head?_cons, hsign, if_false, if_true, List.drop_one, List.tail_cons, head_zero _ hn, RADIX, hvalue]
      rw [Nat.mod_eq_of_lt (hn.trans (by decide)), toInt64]
      congr 1
      omega
    · obtain ⟨n, rfl⟩ := Int.eq_ofNat_of_zero_le (show 0 ≤ l by omega)
      have hvalue := @toLongInBase_numeral _ h 13 n (by omega)
      rw [if_neg hneg]
      simp only [List.head?_cons, if_true, List.drop_one, List.tail_cons, Int.toNat_natCast, RADIX, hvalue]
      rw [Nat.mod_eq_of_lt (by omega)]

/-- The strings of two numbers are in their order, have the fixed size, and are read as the numbers. -/
def Encodes (isDigit : WChar → Bool) (a b : Int) : Prop :=
  ∃ s t, longToString a = some s ∧ longToString b = some t ∧ s < t ∧ s.length = STR_SIZE ∧ t.length = STR_SIZE ∧
    stringToLong isDigit s = .ok a ∧ stringToLong isDigit t = .ok b

/-- What is promised of the strings holds of two numbers unless one is below zero and needs thirteen digits. -/
theorem longToString_iff (h : TellsDigits isDigit) {a b : Int} (hge : -2 ^ 63 ≤ a) (hlt : b < 2 ^ 63) (hab : a < b) :
    Encodes isDigit a b ↔ Good a ∧ Good b := by
  constructor
  · rintro ⟨s, t, hs, ht, -, hslength, htlength, -⟩
    constructor
    · by_contra hbad
      obtain ⟨s', hs', hlength⟩ := longToString_of_not_good hge hbad
      rw [hs] at hs'
      cases hs'
      omega
    · by_contra hbad
      obtain ⟨t', ht', hlength⟩ := longToString_of_not_good (by omega) hbad
      rw [ht] at ht'
      cases ht'
      omega
  · rintro ⟨ha, hb⟩
    exact ⟨encoded a, encoded b, longToString_of_good hge (by omega) ha, longToString_of_good (by omega) hlt hb,
      encoded_lt hge hlt hb hab, length_encoded a, length_encoded b, stringToLong_encoded h hge (by omega) ha,
      stringToLong_encoded h (by omega) hlt hb⟩

/-- `'0'` to `'9'` -/
def isAsciiDigit (c : WChar) : Bool := decide ((ofChar '0').1 ≤ c.1 ∧ c.1 ≤ (ofChar '9').1)

theorem tellsDigits_ascii : TellsDigits isAsciiDigit := by
  unfold TellsDigits
  decide

theorem longToString_iff_ten_digits : TellsDigits isAsciiDigit ∧
    (Encodes isAsciiDigit 1234 101559956668416 ↔ Good 1234 ∧ Good 101559956668416) :=
  ⟨tellsDigits_ascii, longToString_iff tellsDigits_ascii (by decide) (by decide) (by decide)⟩

/-- The string of -1 has fifteen characters. -/
theorem minus_one_is_too_long : ¬ Encodes isAsciiDigit (-1) 0 := by
  rintro ⟨s, t, hs, -, -, hlength, -⟩
  obtain ⟨s', hs', hlength'⟩ := longToString_of_not_good (show -2 ^ 63 ≤ (-1 : Int) by decide) (by decide)
  rw [hs] at hs'
  cases hs'
  omega

end NumberTools
end LucenePlusPlus
