import Mathlib.Data.Nat.Bitwise
import Mathlib.Data.Int.Order.Basic

/-!
`double` by its bits: a sign and a magnitude. Numbers compare as the magnitudes with their signs do, the two zeros
are equal, and from a magnitude on the bits are not a number. `NumericUtils` maps the bits to integers that are sorted
as the numbers are, with the negative zero just before the positive one.
-/

namespace DoubleBits

/-- The bits without the sign. -/
def magnitude (d : UInt64) : Nat := d.toNat % 2 ^ 63

/-- The magnitude of infinity: greater ones are not numbers. -/
def INFINITY : Nat := 0x7ff0000000000000

def isNaN (d : UInt64) : Bool := INFINITY < magnitude d

/-- The magnitude with the sign. -/
def key (d : UInt64) : Int := if d.toNat < 2 ^ 63 then d.toNat else 2 ^ 63 - d.toNat

/-- `a <= b` -/
def le (a b : UInt64) : Bool := ¬ isNaN a ∧ ¬ isNaN b ∧ key a ≤ key b

/-- `a < b` -/
def lt (a b : UInt64) : Bool := ¬ isNaN a ∧ ¬ isNaN b ∧ key a < key b

/-- The value of a two's complement number of 64 bits. -/
def wrap64 (n : Int) : Int := n.bmod (2 ^ 64)

def doubleToSortableLong (d : UInt64) : Int :=
  if d.toNat < 2 ^ 63 then d.toNat else ((d.toNat ^^^ 0x7fffffffffffffff : Nat) : Int) - 2 ^ 64

def sortableLongToDouble (val : Int) : UInt64 :=
  if val < 0 then .ofNat ((val + 2 ^ 64).toNat ^^^ 0x7fffffffffffffff) else .ofNat val.toNat

theorem xor_mask {x : Nat} (h : 2 ^ 63 ≤ x) (hlt : x < 2 ^ 64) : x ^^^ 0x7fffffffffffffff = 3 * 2 ^ 63 - 1 - x := by
  obtain ⟨y, rfl⟩ : ∃ y, x = 2 ^ 63 + y := ⟨x - 2 ^ 63, by omega⟩
  have hy : y < 2 ^ 63 := by omega
  have hr : 3 * 2 ^ 63 - 1 - (2 ^ 63 + y) = 2 ^ 63 + (2 ^ 63 - (y + 1)) := by omega
  rw [hr, show (0x7fffffffffffffff : Nat) = 2 ^ 63 - 1 from rfl]
  apply Nat.eq_of_testBit_eq
  intro i
  rw [Nat.testBit_xor, Nat.testBit_two_pow_sub_one]
  rcases lt_trichotomy i 63 with hi | rfl | hi
  · rw [Nat.testBit_two_pow_add_gt hi, Nat.testBit_two_pow_add_gt hi, Nat.testBit_two_pow_sub_succ hy]
    simp [hi]
  · rw [Nat.testBit_two_pow_add_eq, Nat.testBit_two_pow_add_eq, Nat.testBit_lt_two_pow hy,
      Nat.testBit_lt_two_pow (by omega)]
    rfl
  · have hpow : 2 ^ 64 ≤ 2 ^ i := Nat.pow_le_pow_right (by decide) hi
    rw [Nat.testBit_lt_two_pow (hlt.trans_le hpow), Nat.testBit_lt_two_pow (by omega)]
    simp [hi.not_gt]

theorem toNat_lt (d : UInt64) : d.toNat < 2 ^ 64 := d.toNat_lt

theorem doubleToSortableLong_eq (d : UInt64) :
    doubleToSortableLong d = if d.toNat < 2 ^ 63 then (d.toNat : Int) else 2 ^ 63 - 1 - d.toNat := by
  have hlt := toNat_lt d
  unfold doubleToSortableLong
  split
  · rfl
  · rename_i hneg
    rw [xor_mask (not_lt.mp hneg) hlt]
    omega

theorem toNat_sortableLongToDouble {val : Int} (hlow : -2 ^ 63 ≤ val) (hhigh : val < 2 ^ 63) :
    ((sortableLongToDouble val).toNat : Int) = if val < 0 then 2 ^ 63 - 1 - val else val := by
  unfold sortableLongToDouble
  split
  · have hbits : (val + 2 ^ 64).toNat < 2 ^ 64 := by omega
    have hsize : 3 * 2 ^ 63 - 1 - (val + 2 ^ 64).toNat < UInt64.size := by
      unfold UInt64.size
      omega
    rw [xor_mask (by omega) hbits, UInt64.toNat_ofNat_of_lt' hsize]
    omega
  · have hsize : val.toNat < UInt64.size := by
      unfold UInt64.size
      omega
    rw [UInt64.toNat_ofNat_of_lt' hsize]
    omega

theorem wrap64_eq {n : Int} (hlow : -2 ^ 63 ≤ n) (hhigh : n < 2 ^ 63) : wrap64 n = n := by
  unfold wrap64
  rw [Int.bmod_def]
  split <;> omega

theorem doubleToSortableLong_bounds (d : UInt64) :
    -2 ^ 63 ≤ doubleToSortableLong d ∧ doubleToSortableLong d < 2 ^ 63 := by
  have hlt := toNat_lt d
  rw [doubleToSortableLong_eq]
  split <;> omega

theorem sortableLongToDouble_doubleToSortableLong (d : UInt64) :
    sortableLongToDouble (doubleToSortableLong d) = d := by
  obtain ⟨hlow, hhigh⟩ := doubleToSortableLong_bounds d
  have hbits := toNat_sortableLongToDouble hlow hhigh
  have hlt := toNat_lt d
  have hsortable := doubleToSortableLong_eq d
  apply UInt64.toNat.inj
  split at hsortable <;> split at hbits <;> omega

theorem toNat_succ (d : UInt64) :
    (sortableLongToDouble (wrap64 (doubleToSortableLong d + 1))).toNat =
      if d.toNat = 2 ^ 63 - 1 then 2 ^ 64 - 1 else if d.toNat = 2 ^ 63 then 0
      else if d.toNat < 2 ^ 63 then d.toNat + 1 else d.toNat - 1 := by
  have hlt := toNat_lt d
  by_cases hmax : d.toNat = 2 ^ 63 - 1
  · rw [doubleToSortableLong_eq, if_pos (by omega), if_pos hmax, hmax]
    decide
  · have hsortable := doubleToSortableLong_eq d
    have hwrap : wrap64 (doubleToSortableLong d + 1) = doubleToSortableLong d + 1 :=
      wrap64_eq (by split at hsortable <;> omega) (by split at hsortable <;> omega)
    have hbits := toNat_sortableLongToDouble
      (show -2 ^ 63 ≤ doubleToSortableLong d + 1 by split at hsortable <;> omega) (by split at hsortable <;> omega)
    rw [hwrap, if_neg hmax]
    split at hsortable <;> split at hbits <;> split <;> try split
    all_goals omega

theorem toNat_pred (d : UInt64) :
    (sortableLongToDouble (wrap64 (doubleToSortableLong d - 1))).toNat =
      if d.toNat = 2 ^ 64 - 1 then 2 ^ 63 - 1 else if d.toNat = 0 then 2 ^ 63
      else if d.toNat < 2 ^ 63 then d.toNat - 1 else d.toNat + 1 := by
  have hlt := toNat_lt d
  by_cases hmin : d.toNat = 2 ^ 64 - 1
  · rw [doubleToSortableLong_eq, if_neg (by omega), if_pos hmin, hmin]
    decide
  · have hsortable := doubleToSortableLong_eq d
    have hwrap : wrap64 (doubleToSortableLong d - 1) = doubleToSortableLong d - 1 :=
      wrap64_eq (by split at hsortable <;> omega) (by split at hsortable <;> omega)
    have hbits := toNat_sortableLongToDouble
      (show -2 ^ 63 ≤ doubleToSortableLong d - 1 by split at hsortable <;> omega) (by split at hsortable <;> omega)
    rw [hwrap, if_neg hmin]
    split at hsortable <;> split at hbits <;> split <;> try split
    all_goals omega

theorem isNaN_eq (d : UInt64) :
    isNaN d = decide (INFINITY < d.toNat ∧ d.toNat < 2 ^ 63 ∨ 2 ^ 63 + INFINITY < d.toNat) := by
  have hlt := toNat_lt d
  unfold isNaN magnitude INFINITY
  rw [decide_eq_decide]
  omega

theorem isNaN_eq_false (d : UInt64) :
    isNaN d = false ↔ ¬ (INFINITY < d.toNat ∧ d.toNat < 2 ^ 63 ∨ 2 ^ 63 + INFINITY < d.toNat) := by
  rw [isNaN_eq, decide_eq_false_iff_not]

theorem lt_eq_false_of_infinity {d v : UInt64} (h : d.toNat = INFINITY) : lt d v = false := by
  have hv := toNat_lt v
  unfold lt
  rw [decide_eq_false_iff_not]
  rintro ⟨-, hnumber, hlt⟩
  rw [Bool.not_eq_true, isNaN_eq_false] at hnumber
  unfold key INFINITY at *
  split at hlt <;> split at hlt <;> omega

theorem lt_eq_false_of_neg_infinity {d v : UInt64} (h : d.toNat = 2 ^ 63 + INFINITY) : lt v d = false := by
  have hv := toNat_lt v
  unfold lt
  rw [decide_eq_false_iff_not]
  rintro ⟨hnumber, -, hlt⟩
  rw [Bool.not_eq_true, isNaN_eq_false] at hnumber
  unfold key INFINITY at *
  split at hlt <;> split at hlt <;> omega

theorem lt_eq_false_of_le_of_le {a b v : UInt64} (h : le a v = true) (h' : le v b = true) : lt b a = false := by
  unfold le at h h'
  unfold lt
  rw [decide_eq_true_iff] at h h'
  rw [decide_eq_false_iff_not]
  rintro ⟨-, -, hlt⟩
  have hle := h.2.2.trans h'.2.2
  omega

/-- The next number up: except after the negative zero, a number is not less than it if and only if it is greater. The
first magnitude that is no number, if it is negative, is followed by negative infinity. -/
theorem le_succ_iff (d v : UInt64) :
    le (sortableLongToDouble (wrap64 (doubleToSortableLong d + 1))) v = true ↔
      lt d v = true ∨ isNaN v = false ∧ (d.toNat = 2 ^ 63 ∧ key v = 0 ∨ d.toNat = 2 ^ 63 + INFINITY + 1) := by
  have hd := toNat_lt d
  have hv := toNat_lt v
  have hbits := toNat_succ d
  generalize sortableLongToDouble (wrap64 (doubleToSortableLong d + 1)) = next at hbits ⊢
  unfold le lt
  simp only [isNaN_eq, decide_eq_true_eq, decide_eq_false_iff_not, key]
  unfold INFINITY
  split at hbits
  · omega
  · split at hbits
    · omega
    · split at hbits <;> omega

/-- The next number down: except before the positive zero, a number is not greater than it if and only if it is less.
The first magnitude that is no number, if it is positive, is preceded by infinity. -/
theorem le_pred_iff (d v : UInt64) :
    le v (sortableLongToDouble (wrap64 (doubleToSortableLong d - 1))) = true ↔
      lt v d = true ∨ isNaN v = false ∧ (d.toNat = 0 ∧ key v = 0 ∨ d.toNat = INFINITY + 1) := by
  have hd := toNat_lt d
  have hv := toNat_lt v
  have hbits := toNat_pred d
  generalize sortableLongToDouble (wrap64 (doubleToSortableLong d - 1)) = next at hbits ⊢
  unfold le lt
  simp only [isNaN_eq, decide_eq_true_eq, decide_eq_false_iff_not, key]
  unfold INFINITY
  split at hbits
  · omega
  · split at hbits
    · omega
    · split at hbits <;> omega

end DoubleBits
