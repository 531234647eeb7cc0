import LucenePlusPlus.NumericUtils

/-!
The ranges that `splitRange` gives cover what it is given, and no value twice. At shift `s`, a number stands for
the block of the `2 ^ s` numbers from it on; what a level leaves to the next is what the blocks of the next are
whole in.
-/

namespace LucenePlusPlus.NumericUtils
open AlignedBits

section Codes
variable {w : Nat}

theorem unsignedShift_eq {num : BitVec w} {shift : Nat} (h : shift < w) : unsignedShift num shift = num >>> shift := by
  rw [unsignedShift, Nat.mod_eq_of_lt h]
  split
  case isTrue hzero => rw [hzero, BitVec.ushiftRight_zero]
  case isFalse hpos =>
    rw [← BitVec.shiftRight_add]
    congr 1
    omega

theorem append_singleton_lt {α : Type} [LinearOrder α] {l l' : List α} {a b : α} (h : l.length = l'.length) :
    l ++ [a] < l' ++ [b] ↔ l < l' ∨ l = l' ∧ a < b := by
  induction l generalizing l' with
  | nil =>
      obtain rfl := List.length_eq_zero_iff.mp h.symm
      simp [List.cons_lt_cons_iff]
  | cons c l ih =>
      cases l' with
      | nil => cases h
      | cons c' l' =>
          rw [List.length_cons, List.length_cons, Nat.succ_inj] at h
          simp only [List.cons_append, List.cons_lt_cons_iff, ih h, List.cons.injEq]
          tauto

@[simp] theorem length_prefixChars (nChars : Nat) (bits : BitVec w) : (prefixChars nChars bits).length = nChars := by
  induction nChars generalizing bits with
  | zero => rfl
  | succ nChars ih => rw [prefixChars, List.length_append, ih, List.length_singleton]

theorem prefixChar_lt_iff {bits bits' : BitVec w} :
    prefixChar bits < prefixChar bits' ↔ bits.toNat % 0x80 < bits'.toNat % 0x80 := by
  rw [← Subtype.coe_lt_coe, prefixChar, prefixChar, Int.ofNat_lt]

theorem prefixChar_inj {bits bits' : BitVec w} :
    prefixChar bits = prefixChar bits' ↔ bits.toNat % 0x80 = bits'.toNat % 0x80 := by
  rw [prefixChar, prefixChar, Subtype.mk.injEq, Int.natCast_inj]

theorem toNat_unsignedShift (hw : 7 < w) (bits : BitVec w) : (unsignedShift bits 7).toNat = bits.toNat / 0x80 := by
  rw [unsignedShift_eq hw, BitVec.toNat_ushiftRight, Nat.shiftRight_eq_div_pow]

theorem prefixChars_order (hw : 7 < w) (nChars : Nat) (bits bits' : BitVec w) :
    (prefixChars nChars bits < prefixChars nChars bits' ↔
        bits.toNat % 0x80 ^ nChars < bits'.toNat % 0x80 ^ nChars) ∧
      (prefixChars nChars bits = prefixChars nChars bits' ↔
        bits.toNat % 0x80 ^ nChars = bits'.toNat % 0x80 ^ nChars) := by
  induction nChars generalizing bits bits' with
  | zero => simp [prefixChars, Nat.mod_one]
  | succ nChars ih =>
      obtain ⟨hlt, heq⟩ := ih (unsignedShift bits 7) (unsignedShift bits' 7)
      rw [toNat_unsignedShift hw, toNat_unsignedShift hw] at hlt heq
      have hsplit : ∀ n, n % 0x80 ^ (nChars + 1) = n % 0x80 + 0x80 * (n / 0x80 % 0x80 ^ nChars) := by
        intro n
        rw [pow_succ', Nat.mod_mul]
      have hlength : (prefixChars nChars (unsignedShift bits 7)).length =
          (prefixChars nChars (unsignedShift bits' 7)).length := by
        rw [length_prefixChars, length_prefixChars]
      have hmod := Nat.mod_lt bits.toNat (show 0 < 0x80 by decide)
      have hmod' := Nat.mod_lt bits'.toNat (show 0 < 0x80 by decide)
      rw [prefixChars, prefixChars, append_singleton_lt hlength, hlt, heq, prefixChar_lt_iff, hsplit, hsplit]
      refine ⟨by omega, ?_⟩
      have hinj : prefixChars nChars (unsignedShift bits 7) ++ [prefixChar bits] =
            prefixChars nChars (unsignedShift bits' 7) ++ [prefixChar bits'] ↔
          prefixChars nChars (unsignedShift bits 7) = prefixChars nChars (unsignedShift bits' 7) ∧
            prefixChar bits = prefixChar bits' := by
        constructor
        · intro happend
          obtain ⟨hinit, hlast⟩ := List.append_inj happend hlength
          exact ⟨hinit, List.singleton_inj.mp hlast⟩
        · rintro ⟨hinit, hlast⟩
          rw [hinit, hlast]
      rw [hinj, heq, prefixChar_inj]
      omega

theorem toNat_xor_intMin (hw : 0 < w) (val : BitVec w) :
    ((val ^^^ BitVec.intMin w).toNat : Int) = val.toInt + (2 ^ (w - 1) : Nat) := by
  have hdouble : 2 ^ w = 2 * 2 ^ (w - 1) := by
    rw [← Nat.pow_succ']
    congr 1
    omega
  -- without a sign bit, the two have no bits in common
  have hadd : ∀ u : BitVec w, u.msb = false → (u ^^^ BitVec.intMin w).toNat = u.toNat + 2 ^ (w - 1) := by
    intro u hmsb
    have hbit : ∀ i (hi : i < w), u[i] = true → (BitVec.intMin w)[i] = false := by
      intro i hi hu
      rw [← BitVec.getLsbD_eq_getElem, BitVec.getLsbD_intMin, decide_eq_false_iff_not]
      intro hlast
      rw [BitVec.msb_eq_getLsbD_last, show w - 1 = i by omega, BitVec.getLsbD_eq_getElem hi, hu] at hmsb
      cases hmsb
    have hdisjoint : u &&& BitVec.intMin w = 0#w := by
      ext i hi
      have hi' := hbit i hi
      simp only [BitVec.getElem_and, BitVec.getElem_zero]
      cases hu : u[i] with
      | false => rfl
      | true => rw [hi' hu]; rfl
    have hxor : u ^^^ BitVec.intMin w = u ||| BitVec.intMin w := by
      ext i hi
      have hi' := hbit i hi
      simp only [BitVec.getElem_xor, BitVec.getElem_or]
      cases hu : u[i] with
      | false => rw [Bool.false_xor, Bool.false_or]
      | true => rw [hi' hu]; rfl
    rw [hxor, ← BitVec.add_eq_or_of_and_eq_zero _ _ hdisjoint, BitVec.toNat_add_of_and_eq_zero hdisjoint,
      BitVec.toNat_intMin_of_pos hw]
  have hlt := (val ^^^ BitVec.intMin w).isLt
  rw [BitVec.toInt_eq_toNat_cond]
  cases hmsb : val.msb with
  | false =>
      have hval := hadd val hmsb
      rw [if_pos (by omega), hval]
      push_cast
      rfl
  | true =>
      have hflip := hadd (val ^^^ BitVec.intMin w) (by
        rw [BitVec.msb_xor, hmsb, BitVec.msb_intMin, decide_eq_true hw]
        rfl)
      rw [BitVec.xor_assoc, BitVec.xor_self, BitVec.xor_zero] at hflip
      rw [if_neg (by omega), hflip]
      push_cast
      have hpow : (2 : Int) ^ w = 2 * 2 ^ (w - 1) := by exact_mod_cast hdouble
      omega

theorem prefixCoded_le_iff {shiftStart : Nat} {illegal : String} (hstart : shiftStart + w ≤ 0x80) (hw : 7 < w)
    {val val' : BitVec w} {shift : Nat} (h : shift < w) :
    ∃ code code', prefixCoded shiftStart illegal hstart val shift = .ok code ∧
      prefixCoded shiftStart illegal hstart val' shift = .ok code' ∧
      (code ≤ code' ↔ val.toInt / (2 ^ shift : Nat) ≤ val'.toInt / (2 ^ shift : Nat)) := by
  refine ⟨_, _, dif_neg (by omega), dif_neg (by omega), ?_⟩
  set nChars := (w - 1 - shift) / 7 + 1
  rw [← not_lt, List.cons_lt_cons_iff]
  simp only [lt_self_iff_false, true_and, false_or]
  rw [(prefixChars_order hw nChars _ _).1, not_lt]
  have hvalue : ∀ u : BitVec w,
      (((unsignedShift (u ^^^ BitVec.intMin w) shift).toNat % 0x80 ^ nChars : Nat) : Int) =
        u.toInt / (2 ^ shift : Nat) + (2 ^ (w - 1 - shift) : Nat) := by
    intro u
    have hfits : (u ^^^ BitVec.intMin w).toNat / 2 ^ shift < 0x80 ^ nChars := by
      rw [Nat.div_lt_iff_lt_mul (Nat.two_pow_pos shift)]
      calc (u ^^^ BitVec.intMin w).toNat < 2 ^ w := BitVec.isLt _
        _ ≤ 2 ^ (7 * nChars + shift) := Nat.pow_le_pow_right Nat.two_pos (by omega)
        _ = 0x80 ^ nChars * 2 ^ shift := by rw [pow_add, pow_mul]; norm_num
    have hpow : 2 ^ (w - 1) = 2 ^ (w - 1 - shift) * 2 ^ shift := by
      rw [← pow_add]
      congr 1
      omega
    rw [unsignedShift_eq h, BitVec.toNat_ushiftRight, Nat.shiftRight_eq_div_pow, Nat.mod_eq_of_lt hfits,
      Int.natCast_div, toNat_xor_intMin (by omega), hpow, Nat.cast_mul, Int.add_mul_ediv_right]
    exact_mod_cast (Nat.two_pow_pos shift).ne'
  have hval := hvalue val
  have hval' := hvalue val'
  omega

end Codes

theorem ValSize.bits_le (valSize : ValSize) : valSize.bits ≤ 64 := by cases valSize <;> decide

theorem covers_iff {valSize : ValSize} {range : Range valSize} {val : BitVec valSize.bits}
    (h : range.shift < valSize.bits) :
    range.Covers val ↔
      range.min.toInt / (2 ^ range.shift : Nat) ≤ val.toInt / (2 ^ range.shift : Nat) ∧
        val.toInt / (2 ^ range.shift : Nat) ≤ range.max.toInt / (2 ^ range.shift : Nat) := by
  have hle : ∀ u u' : BitVec valSize.bits, ∃ code code', toPrefixCoded valSize u range.shift = .ok code ∧
      toPrefixCoded valSize u' range.shift = .ok code' ∧
      (code ≤ code' ↔ u.toInt / (2 ^ range.shift : Nat) ≤ u'.toInt / (2 ^ range.shift : Nat)) := by
    intro u u'
    cases valSize with
    | int => exact prefixCoded_le_iff (by decide) (by decide) h
    | long => exact prefixCoded_le_iff (by decide) (by decide) h
  obtain ⟨min, term, hmin, hterm, hlower⟩ := hle range.min val
  obtain ⟨term', max, hterm', hmax, hupper⟩ := hle val range.max
  rw [hterm, Except.ok.injEq] at hterm'
  subst hterm'
  rw [← hlower, ← hupper]
  constructor
  · rintro ⟨min', max', term', hmin', hmax', hterm', hge, hle⟩
    rw [hmin, Except.ok.injEq] at hmin'
    rw [hmax, Except.ok.injEq] at hmax'
    rw [hterm, Except.ok.injEq] at hterm'
    subst hmin' hmax' hterm'
    exact ⟨hge, hle⟩
  · rintro ⟨hge, hle⟩
    exact ⟨min, max, term, hmin, hmax, hterm, hge, hle⟩

/-- The bounds of a level: blocks of `2 ^ shift` numbers of the type. -/
structure Aligned (valSize : ValSize) (shift : Nat) (minBound maxBound : BitVec 64) : Prop where
  shift_lt : shift < valSize.bits
  min_dvd : ((2 ^ shift : Nat) : Int) ∣ minBound.toInt
  max_dvd : ((2 ^ shift : Nat) : Int) ∣ maxBound.toInt
  le : minBound.toInt ≤ maxBound.toInt
  lower : -((2 ^ (valSize.bits - 1) : Nat) : Int) ≤ minBound.toInt
  upper : maxBound.toInt + (2 ^ shift : Nat) ≤ (2 ^ (valSize.bits - 1) : Nat)

section Level
variable {wide : BitVec 64 → Nat → BitVec 64} {valSize : ValSize} {precisionStep shift : Nat}
  {minBound maxBound : BitVec 64}

theorem shiftLeft_eq {num : BitVec 64} (h : shift < 64) : shiftLeft wide num shift = num <<< shift := if_pos h

theorem diff_eq (h : shift + precisionStep < 64) : diff wide precisionStep shift = 1#64 <<< (shift + precisionStep) :=
  shiftLeft_eq h

theorem mask_eq (h : shift + precisionStep < 64) :
    NumericUtils.mask wide precisionStep shift = AlignedBits.mask 64 shift precisionStep := by
  rw [NumericUtils.mask, lowerBits, shiftLeft_eq (by omega), shiftLeft_eq (by omega)]
  rfl

theorem Aligned.dvd_end (h : Aligned valSize shift minBound maxBound) :
    ((2 ^ shift : Nat) : Int) ∣ maxBound.toInt + (2 ^ shift : Nat) := h.max_dvd.add (dvd_refl _)

theorem hasLower_iff (h : shift + precisionStep < 64) (hmin : ((2 ^ shift : Nat) : Int) ∣ minBound.toInt) :
    hasLower wide precisionStep shift minBound = true ↔
      minBound.toInt % (2 ^ (shift + precisionStep) : Nat) ≠ 0 := by
  rw [hasLower, decide_eq_true_iff, mask_eq h, Ne, Ne, ← and_mask_eq_zero_iff h hmin]
  rfl

theorem hasUpper_iff (h : shift + precisionStep < 64) (hmax : ((2 ^ shift : Nat) : Int) ∣ maxBound.toInt) :
    hasUpper wide precisionStep shift maxBound = true ↔
      (maxBound.toInt + (2 ^ shift : Nat)) % (2 ^ (shift + precisionStep) : Nat) ≠ 0 := by
  rw [hasUpper, decide_eq_true_iff, mask_eq h, Ne, Ne, and_mask_eq_mask_iff h hmax]
  have hpos : (0 : Int) < (2 ^ shift : Nat) := by exact_mod_cast Nat.two_pow_pos shift
  have hle : ((2 ^ shift : Nat) : Int) ≤ (2 ^ (shift + precisionStep) : Nat) := by
    exact_mod_cast Nat.pow_le_pow_right Nat.two_pos (Nat.le_add_right _ _)
  have hdvd : ((2 ^ shift : Nat) : Int) ∣ (2 ^ (shift + precisionStep) : Nat) := by
    exact_mod_cast Nat.pow_dvd_pow 2 (Nat.le_add_right _ _)
  generalize ((2 ^ shift : Nat) : Int) = d, ((2 ^ (shift + precisionStep) : Nat) : Int) = e at *
  have hnonneg := Int.emod_nonneg maxBound.toInt (show e ≠ 0 by omega)
  have hlt := Int.emod_lt_of_pos maxBound.toInt (show 0 < e by omega)
  have hsum : (maxBound.toInt + d) % e = (maxBound.toInt % e + d) % e := by
    rw [Int.emod_add_emod]
  -- the remainder is a multiple of `d`
  have hrem : d ∣ maxBound.toInt % e := by
    rw [Int.emod_def]
    exact Int.dvd_sub hmax (hdvd.mul_right _)
  have hroom : maxBound.toInt % e + d ≤ e := add_le_of_dvd hrem hdvd hlt
  rw [hsum]
  rcases hroom.lt_or_eq with hroom | hroom
  · rw [Int.emod_eq_of_lt (by omega) hroom]
    omega
  · rw [hroom, Int.emod_self]
    omega

theorem two_pow_63 : ((2 ^ 63 : Nat) : Int) = 9223372036854775808 := by norm_num

theorem powers (hnext : shift + precisionStep < 64) :
    (0 : Int) < (2 ^ shift : Nat) ∧ ((2 ^ shift : Nat) : Int) ≤ (2 ^ (shift + precisionStep) : Nat) ∧
      ((2 ^ shift : Nat) : Int) ∣ (2 ^ (shift + precisionStep) : Nat) ∧
      ((2 ^ (shift + precisionStep) : Nat) : Int) ≤ 9223372036854775808 ∧
      ((2 ^ (shift + precisionStep) : Nat) : Int) ∣ 9223372036854775808 := by
  rw [← two_pow_63]
  refine ⟨?_, ?_, ?_, ?_, ?_⟩
  · exact_mod_cast Nat.two_pow_pos shift
  · exact_mod_cast Nat.pow_le_pow_right Nat.two_pos (Nat.le_add_right _ _)
  · exact_mod_cast Nat.pow_dvd_pow 2 (Nat.le_add_right _ _)
  · exact_mod_cast Nat.pow_le_pow_right Nat.two_pos (show shift + precisionStep ≤ 63 by omega)
  · exact_mod_cast Nat.pow_dvd_pow 2 (show shift + precisionStep ≤ 63 by omega)

theorem toInt_bounds (num : BitVec 64) :
    -9223372036854775808 ≤ num.toInt ∧ num.toInt < 9223372036854775808 := by
  have hle := num.le_toInt
  have hlt := num.toInt_lt
  norm_num at hle hlt
  omega

/-- The next lower bound is the start of the first block that is whole, or it has wrapped. -/
theorem nextMinBound_cases (hnext : shift + precisionStep < 64)
    (hmin : ((2 ^ shift : Nat) : Int) ∣ minBound.toInt) :
    roundUp (2 ^ (shift + precisionStep) : Nat) minBound.toInt < 9223372036854775808 ∧
        (nextMinBound wide precisionStep shift minBound).toInt =
          roundUp (2 ^ (shift + precisionStep) : Nat) minBound.toInt ∨
      roundUp (2 ^ (shift + precisionStep) : Nat) minBound.toInt = 9223372036854775808 ∧
        (nextMinBound wide precisionStep shift minBound).toInt < minBound.toInt := by
  obtain ⟨hd, hle, hdvd, hsmall, hwhole⟩ := powers hnext
  obtain ⟨hge, hlt⟩ := toInt_bounds minBound
  rw [nextMinBound, mask_eq hnext, diff_eq hnext]
  by_cases hlower : hasLower wide precisionStep shift minBound = true
  · rw [if_pos hlower]
    rw [hasLower_iff hnext hmin] at hlower
    have hadd := toInt_add_two_pow (by decide) hnext minBound
    have hround := roundUp_eq_add (by omega) hlower
    have hnonneg := Int.emod_nonneg minBound.toInt
      (show ((2 ^ (shift + precisionStep) : Nat) : Int) ≠ 0 by omega)
    have hup := roundUp_le_iff (a := minBound.toInt) (by omega) hwhole
    rw [show 64 - 1 = 63 from rfl, two_pow_63, show ((2 ^ 64 : Nat) : Int) = 18446744073709551616 by norm_num]
      at hadd
    split at hadd
    case isTrue hfits =>
      rw [toInt_and_not_mask hnext (by rw [hadd]; exact hmin.add hdvd), hadd, Int.add_emod_right]
      omega
    case isFalse hwrap =>
      have hturn : (minBound.toInt + (2 ^ (shift + precisionStep) : Nat) - 18446744073709551616) %
          (2 ^ (shift + precisionStep) : Nat) = minBound.toInt % (2 ^ (shift + precisionStep) : Nat) := by
        have htwice : ((2 ^ (shift + precisionStep) : Nat) : Int) ∣ 18446744073709551616 :=
          hwhole.trans (by norm_num)
        rw [Int.sub_emod, Int.emod_eq_zero_of_dvd htwice, sub_zero, Int.emod_emod, Int.add_emod_right]
      rw [toInt_and_not_mask hnext (by
        rw [hadd]
        exact Int.dvd_sub (hmin.add hdvd) ((hdvd.trans hwhole).trans (by norm_num))), hadd, hturn]
      have hdown := le_roundDown_iff (c := minBound.toInt + (2 ^ (shift + precisionStep) : Nat)) (by omega) hwhole
      rw [roundDown_eq_sub, Int.add_emod_right] at hdown
      omega
  · rw [if_neg hlower]
    rw [hasLower_iff hnext hmin, not_not] at hlower
    rw [toInt_and_not_mask hnext hmin, hlower, sub_zero, roundUp_eq_of_dvd (Int.dvd_of_emod_eq_zero hlower)]
    omega

/-- Where the upper bound is not the end of a block, the block it is in starts where the blocks end that are
whole. -/
theorem roundDown_max (hnext : shift + precisionStep < 64) (hmax : ((2 ^ shift : Nat) : Int) ∣ maxBound.toInt)
    (hupper : (maxBound.toInt + (2 ^ shift : Nat)) % (2 ^ (shift + precisionStep) : Nat) ≠ 0) :
    roundDown (2 ^ (shift + precisionStep) : Nat) maxBound.toInt =
      roundDown (2 ^ (shift + precisionStep) : Nat) (maxBound.toInt + (2 ^ shift : Nat)) := by
  obtain ⟨hd, hle, hdvd, -, -⟩ := powers hnext
  have hpos : (0 : Int) < (2 ^ (shift + precisionStep) : Nat) := by omega
  set next : Int := ((2 ^ (shift + precisionStep) : Nat) : Int)
  set block : Int := ((2 ^ shift : Nat) : Int)
  have hend := roundDown_eq_sub next (maxBound.toInt + block)
  have hnonneg := Int.emod_nonneg (maxBound.toInt + block) hpos.ne'
  have hroom : roundDown next (maxBound.toInt + block) + block ≤ maxBound.toInt + block :=
    add_le_of_dvd (hdvd.trans (dvd_roundDown _ _)) (hmax.add (dvd_refl _)) (by omega)
  refine le_antisymm ?_ ?_
  · exact (le_roundDown_iff hpos (dvd_roundDown _ _)).mpr ((roundDown_le hpos _).trans (by omega))
  · exact (le_roundDown_iff hpos (dvd_roundDown _ _)).mpr (by omega)

/-- The next upper bound is the start of the last block that is whole, or it has wrapped. -/
theorem nextMaxBound_cases (hnext : shift + precisionStep < 64)
    (hmax : ((2 ^ shift : Nat) : Int) ∣ maxBound.toInt) :
    -9223372036854775808 < roundDown (2 ^ (shift + precisionStep) : Nat) (maxBound.toInt + (2 ^ shift : Nat)) ∧
        (nextMaxBound wide precisionStep shift maxBound).toInt =
          roundDown (2 ^ (shift + precisionStep) : Nat) (maxBound.toInt + (2 ^ shift : Nat)) -
            (2 ^ (shift + precisionStep) : Nat) ∨
      roundDown (2 ^ (shift + precisionStep) : Nat) (maxBound.toInt + (2 ^ shift : Nat)) =
          -9223372036854775808 ∧
        maxBound.toInt < (nextMaxBound wide precisionStep shift maxBound).toInt := by
  obtain ⟨hd, hle, hdvd, hsmall, hwhole⟩ := powers hnext
  obtain ⟨hge, hlt⟩ := toInt_bounds maxBound
  have hpos : (0 : Int) < (2 ^ (shift + precisionStep) : Nat) := by omega
  rw [nextMaxBound, mask_eq hnext, diff_eq hnext]
  by_cases hupper : hasUpper wide precisionStep shift maxBound = true
  · rw [if_pos hupper]
    rw [hasUpper_iff hnext hmax] at hupper
    rw [← roundDown_max hnext hmax hupper]
    have hsub := toInt_sub_two_pow (by decide) hnext maxBound
    have hround := roundDown_eq_sub (2 ^ (shift + precisionStep) : Nat) maxBound.toInt
    have hdown := roundDown_le hpos maxBound.toInt
    have hfloor := le_roundDown_iff (c := maxBound.toInt) hpos (Int.dvd_neg.mpr hwhole)
    rw [show 64 - 1 = 63 from rfl, two_pow_63, show ((2 ^ 64 : Nat) : Int) = 18446744073709551616 by norm_num]
      at hsub
    split at hsub
    case isTrue hfits =>
      rw [toInt_and_not_mask hnext (by rw [hsub]; exact Int.dvd_sub hmax hdvd), hsub, Int.sub_emod_right]
      have habove := (le_roundDown_iff (c := maxBound.toInt) hpos
        (Int.dvd_add (Int.dvd_neg.mpr hwhole) (dvd_refl _))).mpr (by omega)
      omega
    case isFalse hwrap =>
      have htwice : ((2 ^ (shift + precisionStep) : Nat) : Int) ∣ 18446744073709551616 :=
        hwhole.trans (by norm_num)
      have hturn : (maxBound.toInt - (2 ^ (shift + precisionStep) : Nat) + 18446744073709551616) %
          (2 ^ (shift + precisionStep) : Nat) = maxBound.toInt % (2 ^ (shift + precisionStep) : Nat) := by
        rw [Int.add_emod, Int.emod_eq_zero_of_dvd htwice, add_zero, Int.emod_emod, Int.sub_emod_right]
      rw [toInt_and_not_mask hnext (by
        rw [hsub]
        exact Int.dvd_add (Int.dvd_sub hmax hdvd) (hdvd.trans htwice)), hsub, hturn]
      have hbelow : roundDown (2 ^ (shift + precisionStep) : Nat) maxBound.toInt ≤ -9223372036854775808 := by
        by_contra hgt
        have hroom := add_le_of_dvd (Int.dvd_neg.mpr hwhole) (dvd_roundDown _ maxBound.toInt) (not_le.mp hgt)
        omega
      omega
  · rw [if_neg hupper]
    rw [hasUpper_iff hnext hmax, not_not] at hupper
    rw [toInt_and_not_mask hnext hmax, ← roundDown_eq_sub, roundDown_eq_sub _ (maxBound.toInt + (2 ^ shift : Nat)),
      hupper, sub_zero]
    have hend := Int.dvd_of_emod_eq_zero hupper
    have hle' := roundDown_le hpos maxBound.toInt
    have hroom := add_le_of_dvd (dvd_roundDown (2 ^ (shift + precisionStep) : Nat) maxBound.toInt) hend (by omega)
    have hge' := (le_roundDown_iff (c := maxBound.toInt) hpos (Int.dvd_sub hend (dvd_refl _))).mpr (by omega)
    omega

theorem isLast_iff (h : Aligned valSize shift minBound maxBound) (hnext : shift + precisionStep < valSize.bits) :
    isLast wide valSize precisionStep shift minBound maxBound = true ↔
      roundDown (2 ^ (shift + precisionStep) : Nat) (maxBound.toInt + (2 ^ shift : Nat)) ≤
        roundUp (2 ^ (shift + precisionStep) : Nat) minBound.toInt := by
  have hnext' : shift + precisionStep < 64 := lt_of_lt_of_le hnext valSize.bits_le
  obtain ⟨hd, hle, hdvd, hsmall, hwhole⟩ := powers hnext'
  have hpos : (0 : Int) < (2 ^ (shift + precisionStep) : Nat) := by omega
  obtain ⟨hge, -⟩ := toInt_bounds minBound
  have hup := le_roundUp hpos minBound.toInt
  have hdown := roundDown_le hpos (maxBound.toInt + (2 ^ shift : Nat))
  have hupper : maxBound.toInt + (2 ^ shift : Nat) ≤ 9223372036854775808 := by
    refine h.upper.trans ?_
    cases valSize <;> decide
  simp only [isLast, Bool.or_eq_true, decide_eq_true_iff, BitVec.slt_eq_decide]
  rcases nextMinBound_cases hnext' h.min_dvd with ⟨-, hmin⟩ | ⟨hmin, hwrap⟩
  · rcases nextMaxBound_cases hnext' h.max_dvd with ⟨-, hmax⟩ | ⟨hmax, hwrap⟩
    · rw [hmin, hmax]
      constructor
      · rintro (((hlast | hlt) | hlt) | hlt)
        · omega
        · by_contra hgt
          have hroom := add_le_of_dvd (dvd_roundUp _ minBound.toInt) (dvd_roundDown _ _) (not_le.mp hgt)
          omega
        · omega
        · omega
      · intro hle
        exact Or.inl (Or.inl (Or.inr (by omega)))
    · exact iff_of_true (Or.inr hwrap) (by omega)
  · exact iff_of_true (Or.inl (Or.inr hwrap)) (by omega)

/-! ### What a level computes -/

/-- The next bounds of a level with blocks of `2 ^ shift` numbers can be computed: those of blocks of `2 ^ next`
numbers in the range from `a` to `c`, exclusively. For `next = 63`, the power itself is not a number of the type,
but the least of all. -/
def Representable (shift next : Nat) (a c : Int) : Prop :=
  next < 63 ∧ a ≤ (2 ^ 63 : Nat) - (2 ^ next : Nat) ∧ (2 ^ next : Nat) - (2 ^ 63 : Nat) ≤ c ∨
    next = 63 ∧ (a ≤ -(2 ^ 63 : Nat) ∨ ¬ a ≤ -(2 ^ shift : Nat)) ∧ (¬ (2 ^ shift : Nat) ≤ c ∨ (2 ^ 63 : Nat) ≤ c)

theorem lowerBitsDefined_iff (wide : BitVec 64 → Nat → BitVec 64) (shift : Nat) :
    lowerBitsDefined wide shift = true ↔ shift ≤ 62 := by
  have hall : ∀ n : Fin 64, (!BitVec.ssubOverflow (1#64 <<< n.val) 1) = decide (n.val ≤ 62) := by decide
  rw [lowerBitsDefined]
  by_cases hlt : shift < 64
  · rw [shiftLeft_eq hlt, decide_eq_true hlt, Bool.true_and]
    exact (Bool.eq_iff_iff.mp (hall ⟨shift, hlt⟩)).trans decide_eq_true_iff
  · rw [decide_eq_false hlt, Bool.false_and]
    exact iff_of_false nofun (by omega)

theorem toInt_diff (wide : BitVec 64 → Nat → BitVec 64) (hnext : shift + precisionStep < 64) :
    (diff wide precisionStep shift).toInt =
      if shift + precisionStep = 63 then -9223372036854775808
      else ((2 ^ (shift + precisionStep) : Nat) : Int) := by
  have hall : ∀ n : Fin 64, (1#64 <<< n.val).toInt =
      if n.val = 63 then -9223372036854775808 else ((2 ^ n.val : Nat) : Int) := by decide
  rw [diff_eq hnext]
  exact hall ⟨shift + precisionStep, hnext⟩

theorem lower_defined_iff (hnext : shift + precisionStep < 64)
    (hmin : ((2 ^ shift : Nat) : Int) ∣ minBound.toInt) :
    (hasLower wide precisionStep shift minBound && minBound.saddOverflow (diff wide precisionStep shift)) = false ↔
      if shift + precisionStep = 63 then minBound.toInt ≤ -(2 ^ 63 : Nat) ∨ ¬ minBound.toInt ≤ -(2 ^ shift : Nat)
      else minBound.toInt ≤ (2 ^ 63 : Nat) - (2 ^ (shift + precisionStep) : Nat) := by
  obtain ⟨hd, hle, hdvd, hsmall, hwhole⟩ := powers hnext
  obtain ⟨hge, hlt⟩ := toInt_bounds minBound
  have hpos : (0 : Int) < (2 ^ (shift + precisionStep) : Nat) := by omega
  have hmod : minBound.toInt % (2 ^ (shift + precisionStep) : Nat) = 0 ↔
      ((2 ^ (shift + precisionStep) : Nat) : Int) ∣ minBound.toInt := Int.dvd_iff_emod_eq_zero.symm
  rw [← Bool.not_eq_true, Bool.and_eq_true, hasLower_iff hnext hmin, BitVec.saddOverflow, toInt_diff wide hnext,
    two_pow_63, Ne, hmod]
  simp only [Bool.or_eq_true, decide_eq_true_iff]
  split
  case isTrue hlast =>
    rw [show ((2 ^ (shift + precisionStep) : Nat) : Int) = 9223372036854775808 by rw [hlast]; norm_num]
    constructor
    · intro hnot
      by_contra hneg
      refine hnot ⟨fun hwhole => ?_, by omega⟩
      obtain ⟨k, hk⟩ := hwhole
      omega
    · rintro (hleast | hgt) ⟨hlower, hover⟩
      · exact hlower ⟨-1, by omega⟩
      · have hneg : minBound.toInt + (2 ^ shift : Nat) ≤ 0 := add_le_of_dvd hmin (dvd_zero _) (by omega)
        omega
  case isFalse =>
    constructor
    · intro hnot
      by_contra hgt
      have hblock : ((2 ^ (shift + precisionStep) : Nat) : Int) ∣ minBound.toInt := by
        by_contra hlower
        exact hnot ⟨hlower, by omega⟩
      have hroom := add_le_of_dvd (Int.dvd_sub hwhole (dvd_refl _)) hblock (not_le.mp hgt)
      omega
    · rintro hfits ⟨hlower, hover⟩
      refine hlower ?_
      rw [show minBound.toInt = 9223372036854775808 - (2 ^ (shift + precisionStep) : Nat) by omega]
      exact Int.dvd_sub hwhole (dvd_refl _)

theorem upper_defined_iff (h : Aligned valSize shift minBound maxBound) (hnext : shift + precisionStep < 64) :
    (hasUpper wide precisionStep shift maxBound && maxBound.ssubOverflow (diff wide precisionStep shift)) = false ↔
      if shift + precisionStep = 63 then
        ¬ (2 ^ shift : Nat) ≤ maxBound.toInt + (2 ^ shift : Nat) ∨ (2 ^ 63 : Nat) ≤ maxBound.toInt + (2 ^ shift : Nat)
      else (2 ^ (shift + precisionStep) : Nat) - (2 ^ 63 : Nat) ≤ maxBound.toInt + (2 ^ shift : Nat) := by
  obtain ⟨hd, hle, hdvd, hsmall, hwhole⟩ := powers hnext
  obtain ⟨hge, -⟩ := toInt_bounds minBound
  have hrange := h.le
  have hend := h.dvd_end
  have hupper : maxBound.toInt + (2 ^ shift : Nat) ≤ 9223372036854775808 := by
    refine h.upper.trans ?_
    cases valSize <;> decide
  have hmod : (maxBound.toInt + (2 ^ shift : Nat)) % (2 ^ (shift + precisionStep) : Nat) = 0 ↔
      ((2 ^ (shift + precisionStep) : Nat) : Int) ∣ maxBound.toInt + (2 ^ shift : Nat) :=
    Int.dvd_iff_emod_eq_zero.symm
  rw [← Bool.not_eq_true, Bool.and_eq_true, hasUpper_iff hnext h.max_dvd, BitVec.ssubOverflow,
    toInt_diff wide hnext, two_pow_63, Ne, hmod]
  simp only [Bool.or_eq_true, decide_eq_true_iff]
  split
  case isTrue hlast =>
    rw [show ((2 ^ (shift + precisionStep) : Nat) : Int) = 9223372036854775808 by rw [hlast]; norm_num]
    constructor
    · intro hnot
      by_contra hboth
      refine hnot ⟨fun hwhole => ?_, by omega⟩
      obtain ⟨k, hk⟩ := hwhole
      omega
    · rintro (hneg | hgreatest) ⟨hnotWhole, hover⟩
      · omega
      · exact hnotWhole ⟨1, by omega⟩
  case isFalse =>
    constructor
    · intro hnot
      by_contra hlt
      have hblock : ((2 ^ (shift + precisionStep) : Nat) : Int) ∣ maxBound.toInt + (2 ^ shift : Nat) := by
        by_contra hnotWhole
        exact hnot ⟨hnotWhole, by omega⟩
      have hroom := add_le_of_dvd hblock (Int.dvd_sub (dvd_refl _) hwhole) (not_le.mp hlt)
      omega
    · rintro hfits ⟨hnotWhole, hover⟩
      refine hnotWhole ?_
      have heq : maxBound.toInt + (2 ^ shift : Nat) =
          (2 ^ (shift + precisionStep) : Nat) - 9223372036854775808 := by
        refine le_antisymm ?_ hfits
        by_contra hgt
        have hroom := add_le_of_dvd (Int.dvd_sub hdvd (hdvd.trans hwhole)) hend (not_le.mp hgt)
        omega
      rw [heq]
      exact Int.dvd_sub (dvd_refl _) hwhole

theorem levelDefined_iff (hp : 1 ≤ precisionStep) (h : Aligned valSize shift minBound maxBound) :
    levelDefined wide precisionStep shift minBound maxBound = true ↔
      precisionStep ≤ 62 ∧ Representable shift (shift + precisionStep) minBound.toInt
        (maxBound.toInt + (2 ^ shift : Nat)) := by
  simp only [levelDefined, Bool.and_eq_true, decide_eq_true_iff, Bool.not_eq_true', lowerBitsDefined_iff]
  rw [Representable]
  by_cases hnext : shift + precisionStep < 64
  · rw [lower_defined_iff hnext h.min_dvd, upper_defined_iff h hnext]
    by_cases hlast : shift + precisionStep = 63
    · rw [if_pos hlast, if_pos hlast]
      constructor
      · rintro ⟨⟨⟨⟨⟨-, hstep⟩, -⟩, hlower⟩, hupper⟩, -⟩
        exact ⟨hstep, Or.inr ⟨hlast, hlower, hupper⟩⟩
      · rintro ⟨hstep, ⟨hlt, -⟩ | ⟨-, hlower, hupper⟩⟩
        · omega
        · exact ⟨⟨⟨⟨⟨hnext, hstep⟩, by omega⟩, hlower⟩, hupper⟩, by omega⟩
    · rw [if_neg hlast, if_neg hlast]
      constructor
      · rintro ⟨⟨⟨⟨⟨-, hstep⟩, -⟩, hlower⟩, hupper⟩, -⟩
        exact ⟨hstep, Or.inl ⟨by omega, hlower, hupper⟩⟩
      · rintro ⟨hstep, ⟨-, hlower, hupper⟩ | ⟨heq, -⟩⟩
        · exact ⟨⟨⟨⟨⟨hnext, hstep⟩, by omega⟩, hlower⟩, hupper⟩, by omega⟩
        · omega
  · constructor
    · rintro ⟨⟨⟨⟨⟨hlt, -⟩, -⟩, -⟩, -⟩, -⟩
      omega
    · rintro ⟨-, ⟨hlt, -⟩ | ⟨heq, -⟩⟩ <;> omega

theorem toInt_setWidth {num : BitVec 64} (hge : -((2 ^ (valSize.bits - 1) : Nat) : Int) ≤ num.toInt)
    (hlt : num.toInt < (2 ^ (valSize.bits - 1) : Nat)) : (num.setWidth valSize.bits).toInt = num.toInt := by
  cases valSize with
  | int =>
      change -((2 ^ 31 : Nat) : Int) ≤ num.toInt at hge
      change num.toInt < (2 ^ 31 : Nat) at hlt
      change (num.setWidth 32).toInt = num.toInt
      rw [BitVec.toInt_eq_toNat_cond] at hge hlt ⊢
      rw [BitVec.toInt_eq_toNat_cond, BitVec.toNat_setWidth]
      have hnum := num.isLt
      split_ifs at * <;> omega
  | long =>
      change (num.setWidth 64).toInt = num.toInt
      rw [BitVec.setWidth_eq]

theorem addRange_covers {first last : BitVec 64} (h : Aligned valSize shift first last)
    {val : BitVec valSize.bits} :
    (addRange wide valSize first last shift).Covers val ↔
      first.toInt ≤ val.toInt ∧ val.toInt < last.toInt + (2 ^ shift : Nat) := by
  have hshift : shift < 64 := lt_of_lt_of_le h.shift_lt valSize.bits_le
  have hd : (0 : Int) < (2 ^ shift : Nat) := by exact_mod_cast Nat.two_pow_pos shift
  have hle := h.le
  have hlower := h.lower
  have hupper := h.upper
  have hlast : (last ||| lowerBits wide shift).toInt = last.toInt + (2 ^ shift : Nat) - 1 := by
    have hor := toInt_or_mask (x := last) (s := 0) (p := shift) (by omega) (one_dvd _)
    rw [zero_add, Int.emod_eq_zero_of_dvd h.max_dvd, sub_zero] at hor
    rw [AlignedBits.mask, BitVec.shiftLeft_zero, pow_zero, Nat.cast_one] at hor
    rw [lowerBits, shiftLeft_eq hshift]
    exact hor
  rw [covers_iff h.shift_lt, addRange]
  dsimp only
  rw [toInt_setWidth hlower (by omega), toInt_setWidth (by omega) (by omega), hlast]
  obtain ⟨k, hk⟩ := h.min_dvd
  obtain ⟨m, hm⟩ := h.max_dvd
  have hdiv : (last.toInt + (2 ^ shift : Nat) - 1) / (2 ^ shift : Nat) = m := by
    rw [hm, add_sub_assoc, Int.add_comm, Int.add_mul_ediv_left _ _ hd.ne', Int.ediv_eq_zero_of_lt (by omega) (by omega),
      zero_add]
  rw [hdiv, hk, hm, Int.mul_ediv_cancel_left _ hd.ne', Int.le_ediv_iff_mul_le hd, mul_comm k,
    ← Int.lt_add_one_iff (b := m), Int.ediv_lt_iff_lt_mul hd]
  refine and_congr_right fun _ => ?_
  rw [add_mul, one_mul, mul_comm m]

/-- The blocks before the first one, and behind the last one, that the next level has. -/
theorem fringes_cover (h : Aligned valSize shift minBound maxBound)
    (hnext : shift + precisionStep < valSize.bits)
    (hlt : roundUp (2 ^ (shift + precisionStep) : Nat) minBound.toInt <
      roundDown (2 ^ (shift + precisionStep) : Nat) (maxBound.toInt + (2 ^ shift : Nat))) :
    (∀ val : BitVec valSize.bits,
      (∃ range ∈ fringes wide valSize precisionStep shift minBound maxBound, range.Covers val) ↔
        minBound.toInt ≤ val.toInt ∧ val.toInt < roundUp (2 ^ (shift + precisionStep) : Nat) minBound.toInt ∨
        roundDown (2 ^ (shift + precisionStep) : Nat) (maxBound.toInt + (2 ^ shift : Nat)) ≤ val.toInt ∧
          val.toInt < maxBound.toInt + (2 ^ shift : Nat)) ∧
      (fringes wide valSize precisionStep shift minBound maxBound).Pairwise
        fun range range' => ∀ val, ¬ (range.Covers val ∧ range'.Covers val) := by
  have hnext' : shift + precisionStep < 64 := lt_of_lt_of_le hnext valSize.bits_le
  obtain ⟨hd, hle, hdvd, -, -⟩ := powers hnext'
  have hpos : (0 : Int) < (2 ^ (shift + precisionStep) : Nat) := by omega
  have hup := le_roundUp hpos minBound.toInt
  have hdown := roundDown_le hpos (maxBound.toInt + (2 ^ shift : Nat))
  have hlower := h.lower
  have hupper := h.upper
  have hfirst : hasLower wide precisionStep shift minBound = true → ∀ val : BitVec valSize.bits,
      (addRange wide valSize minBound (minBound ||| NumericUtils.mask wide precisionStep shift) shift).Covers val ↔
        minBound.toInt ≤ val.toInt ∧ val.toInt < roundUp (2 ^ (shift + precisionStep) : Nat) minBound.toInt := by
    intro hhas val
    rw [hasLower_iff hnext' h.min_dvd] at hhas
    have hround := roundUp_eq_add hpos hhas
    have hor := toInt_or_mask hnext' h.min_dvd
    have hmod := Int.emod_lt_of_pos minBound.toInt hpos
    have hrem : ((2 ^ shift : Nat) : Int) ∣ minBound.toInt % (2 ^ (shift + precisionStep) : Nat) := by
      rw [Int.emod_def]
      exact Int.dvd_sub h.min_dvd (hdvd.mul_right _)
    have hroom := add_le_of_dvd hrem hdvd hmod
    have hedge : (minBound ||| AlignedBits.mask 64 shift precisionStep).toInt + (2 ^ shift : Nat) =
        roundUp (2 ^ (shift + precisionStep) : Nat) minBound.toInt := by omega
    rw [mask_eq hnext', addRange_covers ⟨h.shift_lt, h.min_dvd, ?_, by omega, hlower, by omega⟩, hedge]
    rw [show (minBound ||| AlignedBits.mask 64 shift precisionStep).toInt =
      roundUp (2 ^ (shift + precisionStep) : Nat) minBound.toInt - (2 ^ shift : Nat) by omega]
    exact Int.dvd_sub (hdvd.trans (dvd_roundUp _ _)) (dvd_refl _)
  have hnotFirst : ¬ hasLower wide precisionStep shift minBound = true →
      roundUp (2 ^ (shift + precisionStep) : Nat) minBound.toInt = minBound.toInt := by
    intro hhas
    rw [hasLower_iff hnext' h.min_dvd, not_not] at hhas
    exact roundUp_eq_of_dvd (Int.dvd_of_emod_eq_zero hhas)
  have hlast : hasUpper wide precisionStep shift maxBound = true → ∀ val : BitVec valSize.bits,
      (addRange wide valSize (maxBound &&& ~~~NumericUtils.mask wide precisionStep shift) maxBound shift).Covers val ↔
        roundDown (2 ^ (shift + precisionStep) : Nat) (maxBound.toInt + (2 ^ shift : Nat)) ≤ val.toInt ∧
          val.toInt < maxBound.toInt + (2 ^ shift : Nat) := by
    intro hhas val
    rw [hasUpper_iff hnext' h.max_dvd] at hhas
    have hclear := toInt_and_not_mask hnext' h.max_dvd
    rw [← roundDown_eq_sub, roundDown_max hnext' h.max_dvd hhas] at hclear
    have hroom : roundDown (2 ^ (shift + precisionStep) : Nat) (maxBound.toInt + (2 ^ shift : Nat)) ≤
        maxBound.toInt := by
      rw [← roundDown_max hnext' h.max_dvd hhas]
      exact roundDown_le hpos _
    rw [mask_eq hnext', addRange_covers ⟨h.shift_lt, ?_, h.max_dvd, by omega, by omega, hupper⟩, hclear]
    rw [hclear]
    exact hdvd.trans (dvd_roundDown _ _)
  have hnotLast : ¬ hasUpper wide precisionStep shift maxBound = true →
      roundDown (2 ^ (shift + precisionStep) : Nat) (maxBound.toInt + (2 ^ shift : Nat)) =
        maxBound.toInt + (2 ^ shift : Nat) := by
    intro hhas
    rw [hasUpper_iff hnext' h.max_dvd, not_not] at hhas
    rw [roundDown_eq_sub, hhas, sub_zero]
  rw [fringes]
  by_cases hhas : hasLower wide precisionStep shift minBound = true
  · rw [if_pos hhas]
    by_cases hhas' : hasUpper wide precisionStep shift maxBound = true
    · rw [if_pos hhas']
      refine ⟨fun val => ?_, ?_⟩
      · simp only [List.cons_append, List.nil_append, List.mem_cons, List.not_mem_nil, or_false, exists_eq_or_imp,
          exists_eq_left, hfirst hhas val, hlast hhas' val]
      · refine List.pairwise_pair.mpr fun val => ?_
        rw [hfirst hhas val, hlast hhas' val]
        omega
    · rw [if_neg hhas', List.append_nil]
      refine ⟨fun val => ?_, List.pairwise_singleton _ _⟩
      have heq := hnotLast hhas'
      simp only [List.mem_singleton, exists_eq_left, hfirst hhas val]
      omega
  · rw [if_neg hhas, List.nil_append]
    have heq := hnotFirst hhas
    by_cases hhas' : hasUpper wide precisionStep shift maxBound = true
    · rw [if_pos hhas']
      refine ⟨fun val => ?_, List.pairwise_singleton _ _⟩
      simp only [List.mem_singleton, exists_eq_left, hlast hhas' val]
      omega
    · rw [if_neg hhas']
      have heq' := hnotLast hhas'
      refine ⟨fun val => ?_, List.Pairwise.nil⟩
      simp only [List.not_mem_nil, false_and, exists_false, false_iff]
      omega

end Level

/-- The numbers from `a` to `c`, exclusively, contain a whole block of `2 ^ shift`. -/
def HoldsBlock (shift : Nat) (a c : Int) : Prop :=
  ∃ k : Int, a ≤ k * (2 ^ shift : Nat) ∧ (k + 1) * (2 ^ shift : Nat) ≤ c

section Levels
variable {wide : BitVec 64 → Nat → BitVec 64} {valSize : ValSize} {precisionStep shift : Nat}
  {minBound maxBound : BitVec 64} {a c : Int}

/-- For greater blocks, it does not matter that the range is cut to whole blocks. -/
theorem holdsBlock_round {shift' : Nat} (h : shift ≤ shift') :
    HoldsBlock shift' (roundUp (2 ^ shift : Nat) a) (roundDown (2 ^ shift : Nat) c) ↔ HoldsBlock shift' a c := by
  have hpos : (0 : Int) < (2 ^ shift : Nat) := by exact_mod_cast Nat.two_pow_pos shift
  have hdvd : ((2 ^ shift : Nat) : Int) ∣ (2 ^ shift' : Nat) := by exact_mod_cast Nat.pow_dvd_pow 2 h
  refine exists_congr fun k => ?_
  rw [roundUp_le_iff hpos (hdvd.mul_left k), le_roundDown_iff hpos (hdvd.mul_left (k + 1))]

theorem representable_round {shift' next : Nat} (h : shift ≤ shift') (hnext : shift' ≤ next) :
    Representable shift' next (roundUp (2 ^ shift : Nat) a) (roundDown (2 ^ shift : Nat) c) ↔
      Representable shift' next a c := by
  have hpos : (0 : Int) < (2 ^ shift : Nat) := by exact_mod_cast Nat.two_pow_pos shift
  have hdvd : ∀ n, shift ≤ n → ((2 ^ shift : Nat) : Int) ∣ (2 ^ n : Nat) := fun n hn => by
    exact_mod_cast Nat.pow_dvd_pow 2 hn
  rw [Representable, Representable]
  by_cases hle : next ≤ 63
  · have hnext' := hdvd next (by omega)
    have htop := hdvd 63 (by omega)
    rw [roundUp_le_iff hpos (Int.dvd_sub htop hnext'), le_roundDown_iff hpos (Int.dvd_sub hnext' htop),
      roundUp_le_iff hpos (Int.dvd_neg.mpr htop), roundUp_le_iff hpos (Int.dvd_neg.mpr (hdvd shift' h)),
      le_roundDown_iff hpos (hdvd shift' h), le_roundDown_iff hpos htop]
  · exact iff_of_false (by omega) (by omega)

theorem Aligned.next (h : Aligned valSize shift minBound maxBound)
    (hnext : shift + precisionStep < valSize.bits)
    (hlast : ¬ isLast wide valSize precisionStep shift minBound maxBound = true) :
    Aligned valSize (shift + precisionStep) (nextMinBound wide precisionStep shift minBound)
        (nextMaxBound wide precisionStep shift maxBound) ∧
      (nextMinBound wide precisionStep shift minBound).toInt =
        roundUp (2 ^ (shift + precisionStep) : Nat) minBound.toInt ∧
      (nextMaxBound wide precisionStep shift maxBound).toInt + (2 ^ (shift + precisionStep) : Nat) =
        roundDown (2 ^ (shift + precisionStep) : Nat) (maxBound.toInt + (2 ^ shift : Nat)) := by
  have hnext' : shift + precisionStep < 64 := lt_of_lt_of_le hnext valSize.bits_le
  obtain ⟨hd, -, -, -, -⟩ := powers hnext'
  have hpos : (0 : Int) < (2 ^ (shift + precisionStep) : Nat) := by
    exact_mod_cast Nat.two_pow_pos (shift + precisionStep)
  rw [isLast_iff h hnext, not_le] at hlast
  have hup := le_roundUp hpos minBound.toInt
  have hdown := roundDown_le hpos (maxBound.toInt + (2 ^ shift : Nat))
  have hroom := add_le_of_dvd (dvd_roundUp _ _) (dvd_roundDown _ _) hlast
  have hle := h.le
  have hlower := h.lower
  have hupper := h.upper
  obtain ⟨hge, -⟩ := toInt_bounds minBound
  have htop : maxBound.toInt + (2 ^ shift : Nat) ≤ 9223372036854775808 := by
    refine hupper.trans ?_
    cases valSize <;> decide
  have hmin : (nextMinBound wide precisionStep shift minBound).toInt =
      roundUp (2 ^ (shift + precisionStep) : Nat) minBound.toInt := by
    rcases nextMinBound_cases hnext' h.min_dvd with ⟨-, hmin⟩ | ⟨hwrap, -⟩
    · exact hmin
    · omega
  have hmax : (nextMaxBound wide precisionStep shift maxBound).toInt =
      roundDown (2 ^ (shift + precisionStep) : Nat) (maxBound.toInt + (2 ^ shift : Nat)) -
        (2 ^ (shift + precisionStep) : Nat) := by
    rcases nextMaxBound_cases hnext' h.max_dvd with ⟨-, hmax⟩ | ⟨hwrap, -⟩
    · exact hmax
    · omega
  refine ⟨⟨hnext, ?_, ?_, by omega, by omega, by omega⟩, hmin, by omega⟩
  · rw [hmin]
    exact dvd_roundUp _ _
  · rw [hmax]
    exact Int.dvd_sub (dvd_roundDown _ _) (dvd_refl _)

/-- From a level on, the values of its range are covered once, and what is computed has a value when that of the
levels is that have a block in the range. -/
theorem splitFrom_spec (hp : 1 ≤ precisionStep) {fuel : Nat} (hfuel : valSize.bits ≤ shift + fuel)
    (h : Aligned valSize shift minBound maxBound) (hmultiple : precisionStep ∣ shift) :
    ∃ split, splitFrom wide valSize precisionStep fuel shift minBound maxBound = .ok split ∧
      (∀ range ∈ split.ranges, precisionStep ∣ range.shift ∧ range.shift < valSize.bits) ∧
      (∀ val : BitVec valSize.bits, (∃ range ∈ split.ranges, range.Covers val) ↔
        minBound.toInt ≤ val.toInt ∧ val.toInt < maxBound.toInt + (2 ^ shift : Nat)) ∧
      (split.ranges.Pairwise fun range range' => ∀ val, ¬ (range.Covers val ∧ range'.Covers val)) ∧
      (split.defined = true ↔ precisionStep ≤ 62 ∧ ∀ shift', shift ≤ shift' → shift' < valSize.bits →
        precisionStep ∣ shift' →
        (shift' = shift ∨ HoldsBlock shift' minBound.toInt (maxBound.toInt + (2 ^ shift : Nat))) →
        Representable shift' (shift' + precisionStep) minBound.toInt (maxBound.toInt + (2 ^ shift : Nat))) := by
  induction fuel generalizing shift minBound maxBound with
  | zero =>
      have hlt := h.shift_lt
      omega
  | succ fuel ih =>
      rw [splitFrom]
      have hlevel := @levelDefined_iff wide _ _ _ _ _ hp h
      have hmultiples : ∀ shift', precisionStep ∣ shift' → shift < shift' → shift + precisionStep ≤ shift' := by
        intro shift' hdvd hlt
        have hle := Nat.le_of_dvd (by omega) (Nat.dvd_sub hdvd hmultiple)
        omega
      by_cases hlast : isLast wide valSize precisionStep shift minBound maxBound = true
      · rw [if_pos hlast]
        refine ⟨_, rfl, ?_, fun val => ?_, List.pairwise_singleton _ _, ?_⟩
        · exact List.forall_mem_singleton.mpr ⟨hmultiple, h.shift_lt⟩
        · simp only [List.mem_singleton, exists_eq_left, addRange_covers h]
        · dsimp only
          rw [hlevel]
          refine and_congr_right fun _ => ⟨fun hrep shift' hle hlt hdvd hreach => ?_, fun hall => ?_⟩
          · rcases hle.eq_or_lt with rfl | hgt
            · exact hrep
            · -- no later level has a block
              exfalso
              have hnext := hmultiples shift' hdvd hgt
              have hpos : (0 : Int) < (2 ^ (shift + precisionStep) : Nat) := by
                exact_mod_cast Nat.two_pow_pos (shift + precisionStep)
              rcases hreach with heq | hblock
              · omega
              · rw [isLast_iff h (by omega)] at hlast
                obtain ⟨k, hk, hk'⟩ := (holdsBlock_round hnext).mpr hblock
                have hblockPos : (0 : Int) < (2 ^ shift' : Nat) := by exact_mod_cast Nat.two_pow_pos shift'
                rw [add_mul, one_mul] at hk'
                omega
          · exact hall shift le_rfl h.shift_lt hmultiple (Or.inl rfl)
      · rw [if_neg hlast]
        have hnext : shift + precisionStep < valSize.bits := by
          by_contra hge
          refine hlast ?_
          rw [isLast, decide_eq_true (not_lt.mp hge)]
          rfl
        obtain ⟨haligned, hmin, hmax⟩ := h.next hnext hlast
        obtain ⟨split, hok, hshifts, hcover, hdisjoint, hdefined⟩ :=
          ih (by omega) haligned (Nat.dvd_add hmultiple (dvd_refl _))
        rw [isLast_iff h hnext, not_le] at hlast
        obtain ⟨hfringes, hfringesDisjoint⟩ := fringes_cover h hnext hlast
        rw [hmin, hmax] at hcover hdefined
        rw [hok]
        refine ⟨_, rfl, ?_, fun val => ?_, ?_, ?_⟩
        · intro range hmem
          rcases List.mem_append.mp hmem with hmem | hmem
          · have hshift : range.shift = shift := by
              rw [fringes, List.mem_append] at hmem
              rcases hmem with hmem | hmem
              all_goals
                split at hmem
                · rw [List.mem_singleton.mp hmem, addRange]
                · cases hmem
            rw [hshift]
            exact ⟨hmultiple, h.shift_lt⟩
          · exact hshifts range hmem
        · have hpos : (0 : Int) < (2 ^ (shift + precisionStep) : Nat) := by
            exact_mod_cast Nat.two_pow_pos (shift + precisionStep)
          have hup := le_roundUp hpos minBound.toInt
          have hdown := roundDown_le hpos (maxBound.toInt + (2 ^ shift : Nat))
          have hfringe := hfringes val
          have hinner := hcover val
          simp only [List.mem_append, or_and_right, exists_or]
          rw [hfringe, hinner]
          omega
        · refine List.pairwise_append.mpr ⟨hfringesDisjoint, hdisjoint, fun range hmem range' hmem' val hboth => ?_⟩
          have houter := (hfringes val).mp ⟨range, hmem, hboth.1⟩
          have hinner := (hcover val).mp ⟨range', hmem', hboth.2⟩
          omega
        · dsimp only
          rw [Bool.and_eq_true, hlevel, hdefined]
          constructor
          · rintro ⟨⟨hstep, hrep⟩, -, hall⟩
            refine ⟨hstep, fun shift' hle hlt hdvd hreach => ?_⟩
            rcases hle.eq_or_lt with rfl | hgt
            · exact hrep
            · have hge := hmultiples shift' hdvd hgt
              rw [← representable_round hge (Nat.le_add_right _ _)]
              refine hall shift' hge hlt hdvd (Or.inr ?_)
              rw [holdsBlock_round hge]
              exact hreach.resolve_left (by omega)
          · rintro ⟨hstep, hall⟩
            refine ⟨⟨hstep, hall shift le_rfl h.shift_lt hmultiple (Or.inl rfl)⟩, hstep, ?_⟩
            intro shift' hle hlt hdvd hreach
            rw [representable_round hle (Nat.le_add_right _ _)]
            refine hall shift' (by omega) hlt hdvd (Or.inr ?_)
            rcases hreach with rfl | hblock
            · -- the next level has the block it starts with
              obtain ⟨k, hk⟩ := dvd_roundUp ((2 ^ (shift + precisionStep) : Nat) : Int) minBound.toInt
              refine (holdsBlock_round le_rfl).mp ⟨k, ?_, ?_⟩
              · rw [hk, mul_comm]
              · rw [add_mul, one_mul, mul_comm k, ← hk]
                exact add_le_of_dvd (dvd_roundUp _ _) (dvd_roundDown _ _) hlast
            · exact (holdsBlock_round hle).mp hblock

/-- The ranges cover the numbers from the lower to the upper bound, each once, and nothing without a value was
computed. -/
structure SplitsExactly (precisionStep minBound maxBound : Int) (split : Split valSize) : Prop where
  covers_iff : ∀ val : BitVec valSize.bits,
    (∃ range ∈ split.ranges, range.Covers val) ↔ minBound ≤ val.toInt ∧ val.toInt ≤ maxBound
  disjoint : split.ranges.Pairwise fun range range' => ∀ val, ¬ (range.Covers val ∧ range'.Covers val)
  shifts : ∀ range ∈ split.ranges, precisionStep ∣ range.shift ∧ range.shift < valSize.bits
  defined : split.defined = true

/-- Every level that is reached can compute its next bounds. -/
def LevelsRepresentable (valSize : ValSize) (precisionStep : Nat) (minBound maxBound : Int) : Prop :=
  precisionStep ≤ 62 ∧ ∀ shift, shift < valSize.bits → precisionStep ∣ shift →
    (shift = 0 ∨ HoldsBlock shift minBound (maxBound + 1)) →
    Representable shift (shift + precisionStep) minBound (maxBound + 1)

theorem splitRange_spec (wide : BitVec 64 → Nat → BitVec 64) (hp : 1 ≤ precisionStep)
    (hle : minBound.toInt ≤ maxBound.toInt) (hlower : -((2 ^ (valSize.bits - 1) : Nat) : Int) ≤ minBound.toInt)
    (hupper : maxBound.toInt < (2 ^ (valSize.bits - 1) : Nat)) :
    ∃ split, splitRange wide valSize precisionStep minBound maxBound = .ok split ∧
      (split.defined = true ↔
        LevelsRepresentable valSize precisionStep minBound.toInt maxBound.toInt) ∧
      (split.defined = true → SplitsExactly precisionStep minBound.toInt maxBound.toInt split) := by
  have haligned : Aligned valSize 0 minBound maxBound :=
    ⟨by cases valSize <;> decide, one_dvd _, one_dvd _, hle, hlower, by rw [pow_zero]; omega⟩
  obtain ⟨split, hok, hshifts, hcover, hdisjoint, hdefined⟩ :=
    splitFrom_spec hp (by rw [zero_add]) haligned (dvd_zero _)
  refine ⟨split, ?_, ?_, fun hdef => ⟨fun val => ?_, hdisjoint, fun range hmem => ?_, hdef⟩⟩
  · rw [splitRange, if_neg (by omega), BitVec.slt_eq_decide, if_neg (by simpa using hle)]
    exact hok
  · rw [hdefined, LevelsRepresentable, pow_zero, Nat.cast_one]
    refine and_congr_right fun _ => ⟨fun h shift' hlt hdvd hreach => ?_, fun h shift' _ hlt hdvd hreach => ?_⟩
    · exact h shift' (Nat.zero_le _) hlt hdvd hreach
    · exact h shift' hlt hdvd hreach
  · rw [hcover val, pow_zero, Nat.cast_one, Int.lt_add_one_iff]
  · exact ⟨Int.natCast_dvd_natCast.mpr (hshifts range hmem).1, (hshifts range hmem).2⟩

end Levels

/-- A range is split exactly where the levels can be computed that it is wide enough for. -/
theorem splitRange_exact_iff (wide : BitVec 64 → Nat → BitVec 64) (valSize : ValSize) (precisionStep : Int)
    (minBound maxBound : BitVec 64) (hp : 1 ≤ precisionStep) (hle : minBound.toInt ≤ maxBound.toInt)
    (hlower : -((2 ^ (valSize.bits - 1) : Nat) : Int) ≤ minBound.toInt)
    (hupper : maxBound.toInt < (2 ^ (valSize.bits - 1) : Nat)) :
    (∃ split, splitRange wide valSize precisionStep minBound maxBound = .ok split ∧
        SplitsExactly precisionStep minBound.toInt maxBound.toInt split) ↔
      LevelsRepresentable valSize precisionStep.toNat minBound.toInt maxBound.toInt := by
  obtain ⟨step, rfl⟩ : ∃ step : Nat, precisionStep = step := ⟨precisionStep.toNat, by omega⟩
  obtain ⟨split, hok, hdefined, hexact⟩ := splitRange_spec wide (by omega : 1 ≤ step) hle hlower hupper
  rw [Int.toNat_natCast, ← hdefined]
  constructor
  · rintro ⟨split', hok', hsplits⟩
    rw [hok, Except.ok.injEq] at hok'
    rw [hok']
    exact hsplits.defined
  · intro hdef
    exact ⟨split, hok, hexact hdef⟩

theorem splitRange_exact_iff_int :
    1 ≤ (4 : Int) ∧ ((∃ split, splitRange (fun _ _ => 0) .int 4 3 1000 = .ok split ∧
        SplitsExactly 4 (BitVec.toInt 3#64) (BitVec.toInt 1000#64) split) ↔
      LevelsRepresentable .int 4 (BitVec.toInt 3#64) (BitVec.toInt 1000#64)) :=
  ⟨by decide, splitRange_exact_iff (fun _ _ => 0) .int 4 3 1000 (by decide) (by decide) (by decide) (by decide)⟩

/-- For the range of all numbers, the last level shifts by the width of the type. -/
theorem splitRange_all_not_exact :
    ¬ ∃ (wide : BitVec 64 → Nat → BitVec 64) (split : Split .long),
      splitRange wide .long 4 (BitVec.intMin 64) (BitVec.intMax 64) = .ok split ∧
        SplitsExactly 4 (BitVec.intMin 64).toInt (BitVec.intMax 64).toInt split := by
  rintro ⟨wide, split, hok, hsplits⟩
  obtain ⟨split', hok', hdefined, -⟩ := @splitRange_spec .long 4
    (BitVec.intMin 64) (BitVec.intMax 64) wide (by decide) (by decide) (by decide) (by decide)
  have hsame : splitRange wide .long 4 (BitVec.intMin 64) (BitVec.intMax 64) = .ok split' := hok'
  rw [hok, Except.ok.injEq] at hsame
  obtain ⟨-, hlevels⟩ := hdefined.mp (hsame ▸ hsplits.defined)
  have hlast := hlevels 60 (by decide) (by decide) (Or.inr ⟨0, by decide, by decide⟩)
  rw [Representable] at hlast
  omega

end LucenePlusPlus.NumericUtils
