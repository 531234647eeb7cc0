import Mathlib.Data.Int.Basic
import Mathlib.Tactic

/-!
Blocks of bits in a two's complement number: a mask for the `p` bits from bit `s` on, and what masking does to a
number whose bits below `s` are zero.
-/

namespace AlignedBits

/-- The `p` bits from bit `s` on. -/
def mask (w s p : Nat) : BitVec w := ((1#w <<< p) - 1#w) <<< s

section Naturals
variable {w s p : Nat} {x y : BitVec w}

theorem two_pow_lt (h : s + p < w) : 2 ^ s * 2 ^ p < 2 ^ w := by
  rw [← pow_add]
  exact Nat.pow_lt_pow_right Nat.one_lt_two h

theorem toNat_shiftLeft_one (h : p < w) : (1#w <<< p).toNat = 2 ^ p := by
  rw [BitVec.toNat_shiftLeft, BitVec.toNat_ofNat, Nat.shiftLeft_eq, Nat.mod_eq_of_lt (a := 1), one_mul]
  · exact Nat.mod_eq_of_lt (Nat.pow_lt_pow_right Nat.one_lt_two h)
  · exact Nat.one_lt_two_pow (by omega)

theorem toNat_shiftLeft_one_sub_one (h : p < w) : ((1#w <<< p) - 1#w).toNat = 2 ^ p - 1 := by
  have hpos : 0 < 2 ^ p := Nat.two_pow_pos p
  rw [BitVec.toNat_sub_of_le, toNat_shiftLeft_one h, BitVec.toNat_ofNat,
    Nat.mod_eq_of_lt (Nat.one_lt_two_pow (by omega))]
  rw [BitVec.le_def, toNat_shiftLeft_one h, BitVec.toNat_ofNat,
    Nat.mod_eq_of_lt (Nat.one_lt_two_pow (by omega))]
  exact hpos

theorem toNat_mask (h : s + p < w) : (mask w s p).toNat = (2 ^ p - 1) * 2 ^ s := by
  rw [mask, BitVec.toNat_shiftLeft, toNat_shiftLeft_one_sub_one (by omega), Nat.shiftLeft_eq]
  refine Nat.mod_eq_of_lt (lt_of_le_of_lt ?_ (two_pow_lt h))
  rw [mul_comm]
  exact Nat.mul_le_mul_left _ (Nat.sub_le _ _)

theorem toNat_and_mask (h : s + p < w) (hx : 2 ^ s ∣ x.toNat) :
    (x &&& mask w s p).toNat = x.toNat % 2 ^ (s + p) := by
  obtain ⟨k, hk⟩ := hx
  rw [BitVec.toNat_and, toNat_mask h, hk, mul_comm (2 ^ s) k, ← Nat.shiftLeft_eq, ← Nat.shiftLeft_eq,
    ← Nat.shiftLeft_and_distrib, Nat.and_two_pow_sub_one_eq_mod, Nat.shiftLeft_eq, Nat.shiftLeft_eq, add_comm,
    pow_add, Nat.mul_mod_mul_right]

theorem toNat_and_not_mask (h : s + p < w) (hx : 2 ^ s ∣ x.toNat) :
    (x &&& ~~~mask w s p).toNat = x.toNat - x.toNat % 2 ^ (s + p) := by
  have hdisjoint : (x &&& ~~~mask w s p) &&& (x &&& mask w s p) = 0#w := by
    ext i hi
    simp
    tauto
  have hor : (x &&& ~~~mask w s p) ||| (x &&& mask w s p) = x := by
    ext i hi
    simp only [BitVec.getElem_or, BitVec.getElem_and, BitVec.getElem_not]
    cases x[i] <;> cases (mask w s p)[i] <;> rfl
  have hadd := BitVec.toNat_add_of_and_eq_zero hdisjoint
  rw [BitVec.add_eq_or_of_and_eq_zero _ _ hdisjoint, hor, toNat_and_mask h hx] at hadd
  omega

theorem toNat_or_mask (h : s + p < w) (hx : 2 ^ s ∣ x.toNat) :
    (x ||| mask w s p).toNat = x.toNat - x.toNat % 2 ^ (s + p) + (2 ^ p - 1) * 2 ^ s := by
  have hdisjoint : (x &&& ~~~mask w s p) &&& mask w s p = 0#w := by
    ext i hi
    simp
  have hor : (x &&& ~~~mask w s p) ||| mask w s p = x ||| mask w s p := by
    ext i hi
    simp only [BitVec.getElem_or, BitVec.getElem_and, BitVec.getElem_not]
    cases x[i] <;> cases (mask w s p)[i] <;> rfl
  have hadd := BitVec.toNat_add_of_and_eq_zero hdisjoint
  rw [BitVec.add_eq_or_of_and_eq_zero _ _ hdisjoint, hor, toNat_and_not_mask h hx, toNat_mask h] at hadd
  exact hadd

end Naturals

section Signed
variable {w s p e : Nat} {x y : BitVec w}

theorem toInt_emod (x : BitVec w) (h : e ≤ w) : x.toInt % (2 ^ e : Nat) = (x.toNat % 2 ^ e : Nat) := by
  have hdvd : ((2 ^ e : Nat) : Int) ∣ (2 ^ w : Nat) := Int.natCast_dvd_natCast.mpr (Nat.pow_dvd_pow 2 h)
  rw [BitVec.toInt_eq_toNat_cond]
  split
  · exact (Int.natCast_mod _ _).symm
  · rw [Int.sub_emod, Int.emod_eq_zero_of_dvd hdvd, sub_zero, Int.emod_emod]
    exact (Int.natCast_mod _ _).symm

theorem dvd_toNat_iff (x : BitVec w) (h : e ≤ w) : 2 ^ e ∣ x.toNat ↔ ((2 ^ e : Nat) : Int) ∣ x.toInt := by
  rw [Nat.dvd_iff_mod_eq_zero, Int.dvd_iff_emod_eq_zero, toInt_emod x h]
  omega

theorem toInt_of_toNat (h : e < w) {r : Nat} (hr : r < 2 ^ e) (hy : y.toNat = x.toNat - x.toNat % 2 ^ e + r) :
    y.toInt = x.toInt - x.toInt % (2 ^ e : Nat) + r := by
  obtain ⟨k, hk⟩ : 2 ^ e ∣ 2 ^ (w - 1) := Nat.pow_dvd_pow 2 (by omega)
  have hw : 2 ^ w = 2 * 2 ^ (w - 1) := by
    rw [← Nat.pow_succ']
    congr 1
    omega
  have hdiv := Nat.div_add_mod x.toNat (2 ^ e)
  have hmod := Nat.mod_lt x.toNat (Nat.two_pow_pos e)
  have hsign : 2 * y.toNat < 2 ^ w ↔ 2 * x.toNat < 2 ^ w := by
    rw [hw, hk]
    have hlt : ∀ a b : Nat, b < 2 ^ e → (2 ^ e * a + b < 2 ^ e * k ↔ a < k) := by
      intro a b hb
      constructor
      · intro hlt
        exact Nat.lt_of_mul_lt_mul_left (lt_of_le_of_lt (Nat.le_add_right _ b) hlt)
      · intro hlt
        calc 2 ^ e * a + b < 2 ^ e * a + 2 ^ e := by omega
          _ = 2 ^ e * (a + 1) := by ring
          _ ≤ 2 ^ e * k := Nat.mul_le_mul_left _ hlt
    have hxk := hlt (x.toNat / 2 ^ e) (x.toNat % 2 ^ e) hmod
    have hyk := hlt (x.toNat / 2 ^ e) r hr
    omega
  rw [toInt_emod x h.le, BitVec.toInt_eq_toNat_cond, BitVec.toInt_eq_toNat_cond]
  by_cases hx : 2 * x.toNat < 2 ^ w
  · rw [if_pos hx, if_pos (hsign.mpr hx)]
    omega
  · rw [if_neg hx, if_neg (hsign.not.mpr hx)]
    omega

theorem toInt_and_not_mask (h : s + p < w) (hx : ((2 ^ s : Nat) : Int) ∣ x.toInt) :
    (x &&& ~~~mask w s p).toInt = x.toInt - x.toInt % (2 ^ (s + p) : Nat) := by
  have hnat := toNat_and_not_mask h ((dvd_toNat_iff x (by omega)).mpr hx)
  rw [toInt_of_toNat h (r := 0) (Nat.two_pow_pos _) hnat]
  simp

theorem toInt_or_mask (h : s + p < w) (hx : ((2 ^ s : Nat) : Int) ∣ x.toInt) :
    (x ||| mask w s p).toInt = x.toInt - x.toInt % (2 ^ (s + p) : Nat) + (2 ^ (s + p) : Nat) - (2 ^ s : Nat) := by
  have hnat := toNat_or_mask h ((dvd_toNat_iff x (by omega)).mpr hx)
  have hpow : (2 ^ p - 1) * 2 ^ s + 2 ^ s = 2 ^ (s + p) := by
    rw [← Nat.succ_mul, Nat.succ_eq_add_one, Nat.sub_add_cancel (Nat.two_pow_pos p), add_comm s p, pow_add]
  have hpos := Nat.two_pow_pos s
  rw [toInt_of_toNat h (by omega) hnat]
  omega

theorem and_mask_eq_zero_iff (h : s + p < w) (hx : ((2 ^ s : Nat) : Int) ∣ x.toInt) :
    x &&& mask w s p = 0#w ↔ x.toInt % (2 ^ (s + p) : Nat) = 0 := by
  rw [← BitVec.toNat_inj, toNat_and_mask h ((dvd_toNat_iff x (by omega)).mpr hx), toInt_emod x h.le]
  simp only [BitVec.toNat_ofNat, Nat.zero_mod]
  omega

theorem and_mask_eq_mask_iff (h : s + p < w) (hx : ((2 ^ s : Nat) : Int) ∣ x.toInt) :
    x &&& mask w s p = mask w s p ↔ x.toInt % (2 ^ (s + p) : Nat) = (2 ^ (s + p) : Nat) - (2 ^ s : Nat) := by
  have hpow : (2 ^ p - 1) * 2 ^ s + 2 ^ s = 2 ^ (s + p) := by
    rw [← Nat.succ_mul, Nat.succ_eq_add_one, Nat.sub_add_cancel (Nat.two_pow_pos p), add_comm s p, pow_add]
  rw [← BitVec.toNat_inj, toNat_and_mask h ((dvd_toNat_iff x (by omega)).mpr hx), toInt_emod x h.le,
    toNat_mask h]
  omega

theorem toInt_add_two_pow (hw : 0 < w) (h : e < w) (x : BitVec w) :
    (x + 1#w <<< e).toInt =
      if x.toInt + (2 ^ e : Nat) < (2 ^ (w - 1) : Nat) then x.toInt + (2 ^ e : Nat)
      else x.toInt + (2 ^ e : Nat) - (2 ^ w : Nat) := by
  have hdouble : 2 ^ w = 2 * 2 ^ (w - 1) := by
    rw [← Nat.pow_succ']
    congr 1
    omega
  have hle : 2 ^ e ≤ 2 ^ (w - 1) := Nat.pow_le_pow_right Nat.two_pos (by omega)
  have hlt := x.isLt
  have hnat : (x + 1#w <<< e).toNat = (x.toNat + 2 ^ e) % 2 ^ w := by
    rw [BitVec.toNat_add, toNat_shiftLeft_one h]
  rw [BitVec.toInt_eq_toNat_cond, BitVec.toInt_eq_toNat_cond, hnat]
  generalize 2 ^ e = d, 2 ^ (w - 1) = half, 2 ^ w = whole at *
  by_cases hcarry : x.toNat + d < whole
  · rw [Nat.mod_eq_of_lt hcarry]
    split_ifs <;> omega
  · have hsub : x.toNat + d = x.toNat + d - whole + whole := by omega
    rw [hsub, Nat.add_mod_right, Nat.mod_eq_of_lt (by omega)]
    split_ifs <;> omega

theorem toInt_sub_two_pow (hw : 0 < w) (h : e < w) (x : BitVec w) :
    (x - 1#w <<< e).toInt =
      if -((2 ^ (w - 1) : Nat) : Int) ≤ x.toInt - (2 ^ e : Nat) then x.toInt - (2 ^ e : Nat)
      else x.toInt - (2 ^ e : Nat) + (2 ^ w : Nat) := by
  have hdouble : 2 ^ w = 2 * 2 ^ (w - 1) := by
    rw [← Nat.pow_succ']
    congr 1
    omega
  have hle : 2 ^ e ≤ 2 ^ (w - 1) := Nat.pow_le_pow_right Nat.two_pos (by omega)
  have hlt := x.isLt
  have hnat : (x - 1#w <<< e).toNat = (2 ^ w - 2 ^ e + x.toNat) % 2 ^ w := by
    rw [BitVec.toNat_sub, toNat_shiftLeft_one h]
  rw [BitVec.toInt_eq_toNat_cond, BitVec.toInt_eq_toNat_cond, hnat]
  generalize 2 ^ e = d, 2 ^ (w - 1) = half, 2 ^ w = whole at *
  by_cases hborrow : x.toNat < d
  · rw [Nat.mod_eq_of_lt (by omega)]
    split_ifs <;> omega
  · have hadd : whole - d + x.toNat = x.toNat - d + whole := by omega
    rw [hadd, Nat.add_mod_right, Nat.mod_eq_of_lt (by omega)]
    split_ifs <;> omega

end Signed

section Rounding
variable {d a c m : Int}

/-- The least multiple of `d` that is not below `a`. -/
def roundUp (d a : Int) : Int := -(-a / d * d)

/-- The greatest multiple of `d` that is not above `c`. -/
def roundDown (d c : Int) : Int := c / d * d

theorem dvd_roundUp (d a : Int) : d ∣ roundUp d a := (dvd_mul_left d _).neg_right

theorem dvd_roundDown (d c : Int) : d ∣ roundDown d c := dvd_mul_left d _

theorem le_roundDown_iff (hd : 0 < d) (hm : d ∣ m) : m ≤ roundDown d c ↔ m ≤ c := by
  obtain ⟨k, rfl⟩ := hm
  rw [roundDown, mul_comm d k, mul_le_mul_iff_of_pos_right hd, Int.le_ediv_iff_mul_le hd]

theorem roundUp_le_iff (hd : 0 < d) (hm : d ∣ m) : roundUp d a ≤ m ↔ a ≤ m := by
  have hdown := le_roundDown_iff (c := -a) hd (Int.dvd_neg.mpr hm)
  rw [roundDown] at hdown
  rw [roundUp]
  omega

theorem roundDown_le (hd : 0 < d) (c : Int) : roundDown d c ≤ c :=
  (le_roundDown_iff hd (dvd_roundDown d c)).mp le_rfl

theorem le_roundUp (hd : 0 < d) (a : Int) : a ≤ roundUp d a :=
  (roundUp_le_iff hd (dvd_roundUp d a)).mp le_rfl

theorem add_le_of_dvd {m' : Int} (hm : d ∣ m) (hm' : d ∣ m') (hlt : m < m') : m + d ≤ m' := by
  have hle := Int.le_of_dvd (by omega) (Int.dvd_sub hm' hm)
  omega

theorem roundDown_eq_sub (d c : Int) : roundDown d c = c - c % d := by
  rw [roundDown, mul_comm]
  have hdiv := Int.mul_ediv_add_emod c d
  omega

theorem roundUp_eq_of_dvd (h : d ∣ a) : roundUp d a = a := by
  rw [roundUp, Int.ediv_mul_cancel (Int.dvd_neg.mpr h), neg_neg]

theorem roundUp_eq_add (hd : 0 < d) (h : a % d ≠ 0) : roundUp d a = a - a % d + d := by
  have hdown := roundDown_eq_sub d a
  have hlt := Int.emod_lt_of_pos a hd
  have hnonneg := Int.emod_nonneg a hd.ne'
  have hdvd : d ∣ a - a % d + d := hdown ▸ (dvd_roundDown d a).add (dvd_refl d)
  refine le_antisymm ((roundUp_le_iff hd hdvd).mpr (by omega)) ?_
  have hle := le_roundUp hd a
  have hbelow : a - a % d < roundUp d a := by omega
  exact add_le_of_dvd (hdown ▸ dvd_roundDown d a) (dvd_roundUp d a) hbelow

end Rounding

end AlignedBits
