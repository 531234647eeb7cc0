import LucenePlusPlus.BufferedIndexInput
import LucenePlusPlus.FastCharStream
import LucenePlusPlus.Numerals
import LucenePlusPlus.QueryEscaping

/-!
Numbers as strings in a base, and back: `StringUtils::toString` and `StringUtils::toLong` with a base.
-/

namespace LucenePlusPlus
namespace StringUtils
open WChar (ofChar)
open FastCharStream (NUL)
open Numerals

def radixDigits : WString := "0123456789abcdefghijklmnopqrstuvwxyz".toList.map ofChar

/-- `digits[i]` -/
def digitAt (i : Int) : Option WChar := if i < 0 then none else radixDigits[i.toNat]?

/-- The loop of `toString`, with room for so many more characters in front of those that are written. -/
def writeDigits (base : Int) : Nat → Int → WString → Option WString
  | 0, _, written => some written
  | room + 1, value, written =>
      match digitAt (value.tmod base) with
      | none => none
      | some c => if value.tdiv base > 0 then writeDigits base room (value.tdiv base) (c :: written) else some (c :: written)

/-- `StringUtils::toString(value, base)`; the buffer has `8 * sizeof(int32_t)` characters. -/
def toStringInBase (value base : Int) : Option WString := writeDigits base 32 value []

/-- `StringUtils::toLong(value, base)` -/
def toLongInBase (isDigit : WChar → Bool) (value : WString) (base : Int) : Int :=
  value.foldl (fun longValue c =>
    toInt64 (if isDigit c then base * longValue + (c.1 - (ofChar '0').1) else base * longValue + (c.1 - (ofChar 'a').1 + 10))) 0

def radixDigit (d : Nat) : WChar := radixDigits.getD d NUL

theorem digitAt_eq {d : Nat} (h : d < 36) : digitAt d = some (radixDigit d) := by
  have hlength : d < radixDigits.length := h
  rw [digitAt, if_neg (by omega), Int.toNat_natCast, radixDigit, List.getD_eq_getElem?_getD, List.getElem?_eq_getElem hlength,
    Option.getD_some]

theorem radixDigit_lt_iff : ∀ d < 36, ∀ e < 36, radixDigit d < radixDigit e ↔ d < e := by decide

theorem writeDigits_spec {room n : Nat} (hroom : 0 < room) (hn : n < 36 ^ room) (written : WString) :
    ∃ w, IsWidth 36 n w ∧ writeDigits 36 room n written = some ((numeral 36 w n).map radixDigit ++ written) := by
  induction room generalizing n written with
  | zero => exact absurd hroom (lt_irrefl 0)
  | succ room ih =>
      have hmod : (n : Int).tmod 36 = (n % 36 : Nat) := Int.ofNat_tmod n 36
      have hdiv : (n : Int).tdiv 36 = (n / 36 : Nat) := Int.ofNat_tdiv n 36
      have hone : numeral 36 1 n = [n % 36] := by simp [numeral]
      rw [writeDigits, hmod, hdiv, digitAt_eq (Nat.mod_lt n (by decide))]
      simp only []
      by_cases hpos : 0 < n / 36
      · have hlt : n / 36 < 36 ^ room := by
          rw [Nat.div_lt_iff_lt_mul (by decide)]
          exact hn
        have hroom' : 0 < room := by
          rcases Nat.eq_zero_or_pos room with rfl | h
          · omega
          · exact h
        obtain ⟨w, hw, heq⟩ := ih hroom' hlt (radixDigit (n % 36) :: written)
        have hsplit : numeral 36 (w + 1) n = numeral 36 w (n / 36) ++ [n % 36] := by
          rw [numeral_add, hone, pow_one]
        refine ⟨w + 1, ⟨Nat.succ_pos w, ?_, fun _ => ?_⟩, ?_⟩
        · have hlt := hw.lt
          rw [Nat.div_lt_iff_lt_mul (by decide)] at hlt
          exact hlt
        · have hle : 36 ^ (w - 1) ≤ n / 36 := by
            rcases Nat.lt_or_ge 1 w with hw1 | hw1
            · exact hw.le hw1
            · rw [show w - 1 = 0 by omega]
              exact hpos
          rw [Nat.le_div_iff_mul_le (by decide), ← Nat.pow_succ, show (w - 1).succ = w by have := hw.pos; omega] at hle
          exact hle
        · rw [if_pos (by exact_mod_cast hpos), heq, hsplit, List.map_append, List.append_assoc]
          rfl
      · refine ⟨1, ⟨one_pos, by omega, fun h => absurd h (lt_irrefl 1)⟩, ?_⟩
        rw [if_neg (by exact_mod_cast hpos), hone]
        rfl

theorem toStringInBase_spec {n : Nat} (hn : n < 36 ^ 32) :
    ∃ w, IsWidth 36 n w ∧ toStringInBase n 36 = some ((numeral 36 w n).map radixDigit) := by
  obtain ⟨w, hw, heq⟩ := writeDigits_spec (by decide) hn []
  rw [List.append_nil] at heq
  exact ⟨w, hw, heq⟩

/-- What is relied on of `UnicodeUtil::isDigit`: it tells the digits from the letters. -/
def TellsDigits (isDigit : WChar → Bool) : Prop := ∀ d < 36, isDigit (radixDigit d) = decide (d < 10)

theorem radixDigit_code : ∀ d < 36,
    (radixDigit d).1 = if d < 10 then (ofChar '0').1 + d else (ofChar 'a').1 + d - 10 := by decide

theorem toLongInBase_numeral {isDigit : WChar → Bool} (h : TellsDigits isDigit) {w n : Nat} (hn : n % 36 ^ w < 2 ^ 63) :
    toLongInBase isDigit ((numeral 36 w n).map radixDigit) 36 = (n % 36 ^ w : Nat) := by
  have hfold (w acc : Nat) (hlt : acc * 36 ^ w + n % 36 ^ w < 2 ^ 63) :
      ((numeral 36 w n).map radixDigit).foldl (fun longValue c =>
        toInt64 (if isDigit c then 36 * longValue + (c.1 - (ofChar '0').1) else 36 * longValue + (c.1 - (ofChar 'a').1 + 10)))
        (acc : Int) = (acc * 36 ^ w + n % 36 ^ w : Nat) := by
    induction w generalizing acc with
    | zero => simp [numeral, Nat.mod_one]
    | succ w ih =>
        have hd : n / 36 ^ w % 36 < 36 := Nat.mod_lt _ (by decide)
        have hsum : acc * 36 ^ (w + 1) + n % 36 ^ (w + 1) = (36 * acc + n / 36 ^ w % 36) * 36 ^ w + n % 36 ^ w := by
          rw [mod_pow_succ_eq]
          ring
        have hle : 36 * acc + n / 36 ^ w % 36 ≤ (36 * acc + n / 36 ^ w % 36) * 36 ^ w :=
          Nat.le_mul_of_pos_right _ (Nat.pow_pos (by decide))
        have hstep : toInt64 (if isDigit (radixDigit (n / 36 ^ w % 36)) then
              36 * (acc : Int) + ((radixDigit (n / 36 ^ w % 36)).1 - (ofChar '0').1)
            else 36 * (acc : Int) + ((radixDigit (n / 36 ^ w % 36)).1 - (ofChar 'a').1 + 10)) =
            (36 * acc + n / 36 ^ w % 36 : Nat) := by
          have hvalue : (if isDigit (radixDigit (n / 36 ^ w % 36)) then
              36 * (acc : Int) + ((radixDigit (n / 36 ^ w % 36)).1 - (ofChar '0').1)
            else 36 * (acc : Int) + ((radixDigit (n / 36 ^ w % 36)).1 - (ofChar 'a').1 + 10)) =
              (36 * acc + n / 36 ^ w % 36 : Nat) := by
            rw [h _ hd, radixDigit_code _ hd]
            split <;> rename_i hten <;> simp only [decide_eq_true_eq] at hten
            · rw [if_pos hten]
              omega
            · rw [if_neg hten]
              omega
          rw [hvalue, toInt64_of_lt (by omega) (by omega)]
        rw [hsum] at hlt ⊢
        rw [numeral, List.map_cons, List.foldl_cons, hstep, ih _ hlt]
  have hzero := hfold w 0 (by omega)
  rw [Nat.zero_mul, Nat.zero_add] at hzero
  exact hzero

end StringUtils
end LucenePlusPlus
