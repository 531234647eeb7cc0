import Mathlib.Algebra.BigOperators.Intervals
import Mathlib.Data.Nat.Count
import Mathlib.Tactic
import LucenePlusPlus.ByteLanes
import LucenePlusPlus.WordBits

/-!
`BitUtil`: the bits of a word added up inside the word, those of many words with carry-save adders, and the lowest bit
of a word found by its bytes.
-/

namespace LucenePlusPlus

/-- `MiscUtils::unsignedShift`: only the low bits of the shift count. -/
def unsignedShift {w : Nat} (num : BitVec w) (shift : Int) : BitVec w :=
  let k := (shift % w).toNat
  if k = 0 then num else (num >>> 1 &&& BitVec.allOnes w >>> 1) >>> (k - 1)

theorem unsignedShift_eq {w : Nat} (num : BitVec w) (shift : Int) :
    unsignedShift num shift = num >>> (shift % w).toNat := by
  rw [unsignedShift]
  generalize (shift % w).toNat = k
  split
  · rename_i h
    rw [h, BitVec.ushiftRight_zero]
  · rename_i h
    apply BitVec.eq_of_getLsbD_eq
    intro i hi
    have hk : 1 + (k - 1 + i) = k + i := by omega
    rw [BitVec.getLsbD_ushiftRight, BitVec.getLsbD_and, BitVec.getLsbD_ushiftRight, BitVec.getLsbD_ushiftRight,
      BitVec.getLsbD_ushiftRight, BitVec.getLsbD_allOnes, hk]
    by_cases hlt : k + i < w
    · simp [hlt]
    · simp [hlt, BitVec.getLsbD_of_ge num (k + i) (by omega)]

namespace BitUtil

def pop (x : BitVec 64) : Nat :=
  let x := x - (unsignedShift x 1 &&& 0x5555555555555555)
  let x := (x &&& 0x3333333333333333) + (unsignedShift x 2 &&& 0x3333333333333333)
  let x := (x + unsignedShift x 4) &&& 0x0f0f0f0f0f0f0f0f
  let x := x + unsignedShift x 8
  let x := x + unsignedShift x 16
  let x := x + unsignedShift x 32
  (x.setWidth 32 &&& 0x7f).toNat

/-- The high and the low word of three words added bit by bit. -/
def CSA (a b c : BitVec 64) : BitVec 64 × BitVec 64 :=
  let u := a ^^^ b
  ((a &&& b) ||| (u &&& c), u ^^^ c)

/-- What the steps of `pop` make of a byte: the bits of its pairs, of its halves and of the byte. -/
def pairs (d : Nat) : Nat := d - (d >>> 1 &&& 0x55)

def quads (d : Nat) : Nat := (pairs d &&& 0x33) + (pairs d >>> 2 &&& 0x33)

def bytes (d : Nat) : Nat := quads d % 16 + quads d / 16

/-- Nothing that the steps make of a byte goes beyond its field, and in the end it is the number of bits. -/
theorem byte_facts : ∀ d < 256, d >>> 1 &&& 0x55 ≤ id d ∧ pairs d < 256 ∧ quads d ≤ 0x44 ∧
    (quads d % 16 ≤ 4 ∧ quads d / 16 ≤ 4) ∧ bytes d = Nat.count (fun i => d.testBit i = true) 8 := by
  decide +kernel

theorem bytes_eq_count (d : Nat) (hd : d < 256) : bytes d = Nat.count (fun i => d.testBit i = true) 8 :=
  (byte_facts d hd).2.2.2.2

theorem bytes_le (d : Nat) (hd : d < 256) : bytes d ≤ 8 := by
  rw [bytes_eq_count d hd]
  exact Nat.count_le _

theorem toNat_unsignedShift {x : BitVec 64} {k : Nat} (h : k < 64) :
    (unsignedShift x k).toNat = x.toNat / 2 ^ k := by
  rw [unsignedShift_eq, BitVec.toNat_ushiftRight, Nat.shiftRight_eq_div_pow]
  congr 2
  omega

theorem total_bytes (k : Nat) {x : Nat} (h : x < 256 ^ k) :
    ByteLanes.total bytes k x = Nat.count (fun i => x.testBit i = true) (8 * k) := by
  induction k generalizing x with
  | zero => rfl
  | succ k ih =>
      rw [ByteLanes.total, ih (Nat.div_lt_of_lt_mul (by rwa [pow_succ, Nat.mul_comm] at h)),
        bytes_eq_count _ (Nat.mod_lt _ (by decide)), Nat.mul_succ, Nat.add_comm (8 * k), Nat.count_add]
      congr 1
      · apply WordBits.count_congr
        intro i hi
        rw [show 256 = 2 ^ 8 from rfl, Nat.testBit_mod_two_pow]
        simp [hi]
      · apply WordBits.count_congr
        intro i _
        rw [show 256 = 2 ^ 8 from rfl, Nat.testBit_div_two_pow, Nat.add_comm]

theorem toNat_add_unsignedShift {x : BitVec 64} {k y : Nat} (hk : k < 64) (hy : x.toNat = y)
    (hlt : y + y / 2 ^ k < 2 ^ 64) : (x + unsignedShift x k).toNat = y + y / 2 ^ k := by
  rw [BitVec.toNat_add, toNat_unsignedShift hk, hy, Nat.mod_eq_of_lt hlt]

theorem toNat_unsignedShift_and {x mask : BitVec 64} {k m : Nat} (hk : k < 64) (hm : m < 2 ^ (8 - k))
    (hmask : mask.toNat = ByteLanes.mask m 8) :
    (unsignedShift x k &&& mask).toNat = ByteLanes.lanes (fun d => d >>> k &&& m) 8 x.toNat := by
  rw [BitVec.toNat_and, hmask, toNat_unsignedShift hk, ← Nat.shiftRight_eq_div_pow]
  exact ByteLanes.shiftRight_and_mask hm 8 x.toNat

theorem toNat_pairs (x : BitVec 64) :
    (x - (unsignedShift x 1 &&& 0x5555555555555555)).toNat = ByteLanes.lanes pairs 8 x.toNat := by
  have hbits : (unsignedShift x 1 &&& 0x5555555555555555).toNat =
      ByteLanes.lanes (fun d => d >>> 1 &&& 0x55) 8 x.toNat :=
    toNat_unsignedShift_and (by decide) (by decide) rfl
  have hlanes := ByteLanes.lanes_sub (fun d hd => (byte_facts d hd).1) 8 x.toNat
  have hid : ByteLanes.lanes id 8 x.toNat = x.toNat := ByteLanes.lanes_id x.isLt
  rw [hid] at hlanes
  rw [BitVec.toNat_sub_of_le, hbits, hlanes]
  · rfl
  · have hshift := @toNat_unsignedShift x 1 (by decide)
    calc (unsignedShift x 1 &&& 0x5555555555555555).toNat
        ≤ (unsignedShift x 1).toNat := by rw [BitVec.toNat_and]; exact Nat.and_le_left
      _ = x.toNat / 2 ^ 1 := hshift
      _ ≤ x.toNat := Nat.div_le_self _ _

theorem lanes_quads (n : Nat) :
    ByteLanes.lanes ((fun d => d &&& 0x33) ∘ pairs) 8 n + ByteLanes.lanes ((fun d => d >>> 2 &&& 0x33) ∘ pairs) 8 n =
      ByteLanes.lanes quads 8 n :=
  ByteLanes.lanes_add 8 n

theorem lanes_quads_lt (n : Nat) : ByteLanes.lanes quads 8 n < 2 ^ 64 := by
  have hbyte : ∀ d < 256, quads d < 256 := fun d hd => (byte_facts d hd).2.2.1.trans_lt (by decide)
  have hlt := ByteLanes.lanes_lt hbyte 8 n
  exact hlt

theorem toNat_quads {y : BitVec 64} {n : Nat} (h : y.toNat = ByteLanes.lanes pairs 8 n) :
    ((y &&& 0x3333333333333333) + (unsignedShift y 2 &&& 0x3333333333333333)).toNat = ByteLanes.lanes quads 8 n := by
  have hpairs : ∀ d < 256, pairs d < 256 := fun d hd => (byte_facts d hd).2.1
  have hlow : (y &&& 0x3333333333333333).toNat = ByteLanes.lanes (fun d => d &&& 0x33) 8 y.toNat := by
    rw [BitVec.toNat_and, ← ByteLanes.and_mask (by decide)]
    rfl
  have hhigh : (unsignedShift y 2 &&& 0x3333333333333333).toNat =
      ByteLanes.lanes (fun d => d >>> 2 &&& 0x33) 8 y.toNat :=
    toNat_unsignedShift_and (by decide) (by decide) rfl
  rw [BitVec.toNat_add, hlow, hhigh, h, ByteLanes.lanes_lanes hpairs, ByteLanes.lanes_lanes hpairs, lanes_quads,
    Nat.mod_eq_of_lt (lanes_quads_lt n)]

theorem toNat_bytes {y : BitVec 64} {n : Nat} (h : y.toNat = ByteLanes.lanes quads 8 n) :
    ((y + unsignedShift y 4) &&& 0x0f0f0f0f0f0f0f0f).toNat = ByteLanes.lanes bytes 8 n := by
  have hle : ByteLanes.lanes quads 8 n ≤ 0x4444444444444444 :=
    ByteLanes.lanes_le_mask (fun d hd => (byte_facts d hd).2.2.1) 8 n
  have hadd : (y + unsignedShift y 4).toNat = ByteLanes.lanes quads 8 n + ByteLanes.lanes quads 8 n / 2 ^ 4 :=
    toNat_add_unsignedShift (by decide) h (by norm_num; omega)
  rw [BitVec.toNat_and, hadd, ← Nat.shiftRight_eq_div_pow]
  exact ByteLanes.halves_and_mask (fun d hd => (byte_facts d hd).2.2.2.1) 8 n

theorem toNat_total {y₀ y₁ y₂ y₃ : BitVec 64} {n : Nat} (h₀ : y₀.toNat = ByteLanes.lanes bytes 8 n)
    (h₁ : y₁ = y₀ + unsignedShift y₀ 8) (h₂ : y₂ = y₁ + unsignedShift y₁ 16) (h₃ : y₃ = y₂ + unsignedShift y₂ 32) :
    (y₃.setWidth 32 &&& 0x7f).toNat = ByteLanes.total bytes 8 n := by
  have hle : ByteLanes.lanes bytes 8 n ≤ 0x0808080808080808 := ByteLanes.lanes_le_mask bytes_le 8 n
  have e₁ := @toNat_add_unsignedShift y₀ 8 _ (by decide) h₀ (by omega)
  have e₂ := @toNat_add_unsignedShift y₁ 16 _ (by decide) (h₁ ▸ e₁) (by omega)
  have e₃ := @toNat_add_unsignedShift y₂ 32 _ (by decide) (h₂ ▸ e₂) (by omega)
  rw [BitVec.toNat_and, BitVec.toNat_setWidth, show (0x7f : BitVec 32).toNat = 2 ^ 7 - 1 from rfl,
    Nat.and_two_pow_sub_one_eq_mod, Nat.mod_mod_of_dvd _ (by decide : 2 ^ 7 ∣ 2 ^ 32), h₃]
  exact ByteLanes.total_eq bytes_le n rfl rfl rfl e₃

theorem pop_eq (x : BitVec 64) : pop x = WordBits.pop x :=
  calc pop x
    _ = ByteLanes.total bytes 8 x.toNat := toNat_total (toNat_bytes (toNat_quads (toNat_pairs x))) rfl rfl rfl
    _ = WordBits.pop x := total_bytes 8 x.isLt

theorem pop_eq_sum (x : BitVec 64) : pop x = ∑ i ∈ Finset.range 64, (x.getLsbD i).toNat := by
  rw [pop_eq, WordBits.pop, Nat.count_eq_card_filter_range, Finset.card_filter]
  apply Finset.sum_congr rfl
  intro i _
  cases x.getLsbD i <;> rfl

theorem pop_CSA (a b c : BitVec 64) : 2 * pop (CSA a b c).1 + pop (CSA a b c).2 = pop a + pop b + pop c := by
  simp only [pop_eq_sum, Finset.mul_sum, ← Finset.sum_add_distrib]
  apply Finset.sum_congr rfl
  intro i _
  simp only [CSA, BitVec.getLsbD_or, BitVec.getLsbD_and, BitVec.getLsbD_xor]
  cases a.getLsbD i <;> cases b.getLsbD i <;> cases c.getLsbD i <;> rfl

theorem pop_of_CSA_eq {a b c : BitVec 64} {p : BitVec 64 × BitVec 64} (h : CSA a b c = p) :
    2 * pop p.1 + pop p.2 = pop a + pop b + pop c :=
  h ▸ pop_CSA a b c

theorem pop_and_xor (a b : BitVec 64) : 2 * pop (a &&& b) + pop (a ^^^ b) = pop a + pop b := by
  have h := pop_CSA a b 0
  have hzero : pop 0#64 = 0 := by decide
  simpa [CSA, hzero] using h

/-- The counters of `pop_array` and its siblings. -/
structure Tally where
  ones : BitVec 64
  twos : BitVec 64
  fours : BitVec 64
  tot8 : Nat

namespace Tally

def weight (t : Tally) : Nat := 8 * t.tot8 + 4 * pop t.fours + 2 * pop t.twos + pop t.ones

/-- Eight words more, `A i` standing for what the loop reads at `i`. -/
def addEight (A : Nat → BitVec 64) (i : Nat) (t : Tally) : Tally :=
  let (twosA, ones) := CSA t.ones (A i) (A (i + 1))
  let (twosB, ones) := CSA ones (A (i + 2)) (A (i + 3))
  let (foursA, twos) := CSA t.twos twosA twosB
  let (twosA, ones) := CSA ones (A (i + 4)) (A (i + 5))
  let (twosB, ones) := CSA ones (A (i + 6)) (A (i + 7))
  let (foursB, twos) := CSA twos twosA twosB
  let (eights, fours) := CSA t.fours foursA foursB
  { ones, twos, fours, tot8 := t.tot8 + pop eights }

def addFour (A : Nat → BitVec 64) (i : Nat) (t : Tally) : Tally :=
  let (twosA, ones) := CSA t.ones (A i) (A (i + 1))
  let (twosB, ones) := CSA ones (A (i + 2)) (A (i + 3))
  let (foursA, twos) := CSA t.twos twosA twosB
  let eights := t.fours &&& foursA
  { ones, twos, fours := t.fours ^^^ foursA, tot8 := t.tot8 + pop eights }

def addTwo (A : Nat → BitVec 64) (i : Nat) (t : Tally) : Tally :=
  let (twosA, ones) := CSA t.ones (A i) (A (i + 1))
  let foursA := t.twos &&& twosA
  let eights := t.fours &&& foursA
  { ones, twos := t.twos ^^^ twosA, fours := t.fours ^^^ foursA, tot8 := t.tot8 + pop eights }

/-- The loop over eight words at a time: the counters, where it stopped and how many words were left. -/
def addEights (A : Nat → BitVec 64) (i : Nat) (t : Tally) : Nat → Tally × Nat × Nat
  | num + 8 => addEights A (i + 8) (t.addEight A i) num
  | num => (t, i, num)

end Tally

/-- `pop_array`, `pop_intersect`, `pop_union`, `pop_andnot` and `pop_xor`, over what they read at each word. -/
def popWords (A : Nat → BitVec 64) (wordOffset numWords : Nat) : Nat :=
  let (t, i, rest) := Tally.addEights A wordOffset ⟨0, 0, 0, 0⟩ numWords
  let (t, i, rest) := if 4 ≤ rest then (t.addFour A i, i + 4, rest - 4) else (t, i, rest)
  let (t, i, rest) := if 2 ≤ rest then (t.addTwo A i, i + 2, rest - 2) else (t, i, rest)
  let tot := if 0 < rest then pop (A i) else 0
  tot + ((pop t.fours <<< 2) + (pop t.twos <<< 1) + pop t.ones + (t.tot8 <<< 3))

def pop_array (A : List (BitVec 64)) (wordOffset numWords : Nat) : Nat :=
  popWords (fun i => A.getD i 0) wordOffset numWords

def pop_intersect (A B : List (BitVec 64)) (wordOffset numWords : Nat) : Nat :=
  popWords (fun i => A.getD i 0 &&& B.getD i 0) wordOffset numWords

def pop_union (A B : List (BitVec 64)) (wordOffset numWords : Nat) : Nat :=
  popWords (fun i => A.getD i 0 ||| B.getD i 0) wordOffset numWords

def pop_andnot (A B : List (BitVec 64)) (wordOffset numWords : Nat) : Nat :=
  popWords (fun i => A.getD i 0 &&& ~~~B.getD i 0) wordOffset numWords

def pop_xor (A B : List (BitVec 64)) (wordOffset numWords : Nat) : Nat :=
  popWords (fun i => A.getD i 0 ^^^ B.getD i 0) wordOffset numWords

/-- The bits of the words from `i` on. -/
def sum (A : Nat → BitVec 64) (i num : Nat) : Nat := ∑ k ∈ Finset.range num, pop (A (i + k))

theorem sum_add (A : Nat → BitVec 64) (i n m : Nat) : sum A i (n + m) = sum A i n + sum A (i + n) m := by
  rw [sum, sum, sum, Finset.sum_range_add]
  simp only [Nat.add_assoc]

/-! Each adder trades bits for half as many of twice the weight. -/

theorem weight_addEight (A : Nat → BitVec 64) (i : Nat) (t : Tally) :
    (t.addEight A i).weight = t.weight + sum A i 8 := by
  simp only [Tally.addEight, Tally.weight, sum, Finset.sum_range_succ, Finset.sum_range_zero]
  generalize h₁ : CSA t.ones (A i) (A (i + 1)) = p₁
  generalize h₂ : CSA p₁.2 (A (i + 2)) (A (i + 3)) = p₂
  generalize h₃ : CSA t.twos p₁.1 p₂.1 = p₃
  generalize h₄ : CSA p₂.2 (A (i + 4)) (A (i + 5)) = p₄
  generalize h₅ : CSA p₄.2 (A (i + 6)) (A (i + 7)) = p₅
  generalize h₆ : CSA p₃.2 p₄.1 p₅.1 = p₆
  generalize h₇ : CSA t.fours p₃.1 p₆.1 = p₇
  have e₁ := pop_of_CSA_eq h₁
  have e₂ := pop_of_CSA_eq h₂
  have e₃ := pop_of_CSA_eq h₃
  have e₄ := pop_of_CSA_eq h₄
  have e₅ := pop_of_CSA_eq h₅
  have e₆ := pop_of_CSA_eq h₆
  have e₇ := pop_of_CSA_eq h₇
  clear h₁ h₂ h₃ h₄ h₅ h₆ h₇
  simp only [Nat.add_zero]
  omega

theorem weight_addFour (A : Nat → BitVec 64) (i : Nat) (t : Tally) :
    (t.addFour A i).weight = t.weight + sum A i 4 := by
  simp only [Tally.addFour, Tally.weight, sum, Finset.sum_range_succ, Finset.sum_range_zero]
  generalize h₁ : CSA t.ones (A i) (A (i + 1)) = p₁
  generalize h₂ : CSA p₁.2 (A (i + 2)) (A (i + 3)) = p₂
  generalize h₃ : CSA t.twos p₁.1 p₂.1 = p₃
  have e₁ := pop_of_CSA_eq h₁
  have e₂ := pop_of_CSA_eq h₂
  have e₃ := pop_of_CSA_eq h₃
  have e₄ := pop_and_xor t.fours p₃.1
  clear h₁ h₂ h₃
  simp only [Nat.add_zero]
  omega

theorem weight_addTwo (A : Nat → BitVec 64) (i : Nat) (t : Tally) :
    (t.addTwo A i).weight = t.weight + sum A i 2 := by
  simp only [Tally.addTwo, Tally.weight, sum, Finset.sum_range_succ, Finset.sum_range_zero]
  generalize h₁ : CSA t.ones (A i) (A (i + 1)) = p₁
  have e₁ := pop_of_CSA_eq h₁
  have e₂ := pop_and_xor t.twos p₁.1
  have e₃ := pop_and_xor t.fours (t.twos &&& p₁.1)
  clear h₁
  simp only [Nat.add_zero]
  omega

theorem addEights_spec (A : Nat → BitVec 64) (i num : Nat) (t : Tally) :
    (Tally.addEights A i t num).2.2 < 8 ∧
      (Tally.addEights A i t num).1.weight +
        sum A (Tally.addEights A i t num).2.1 (Tally.addEights A i t num).2.2 = t.weight + sum A i num := by
  fun_induction Tally.addEights A i t num with
  | case1 i t num ih => rwa [weight_addEight, Nat.add_assoc, ← sum_add, Nat.add_comm 8 num] at ih
  | case2 i t num h => exact ⟨show num < 8 from Nat.lt_of_not_le fun hle => h (num - 8) (by omega), rfl⟩

theorem tail_spec {A : Nat → BitVec 64} {add : Nat → Tally → Tally} {n : Nat}
    (hadd : ∀ i t, (add i t).weight = t.weight + sum A i n) {t : Tally} {i rest : Nat} (hlt : rest < 2 * n)
    {r : Tally × Nat × Nat} (hr : (if n ≤ rest then (add i t, i + n, rest - n) else (t, i, rest)) = r) :
    r.2.2 < n ∧ r.1.weight + sum A r.2.1 r.2.2 = t.weight + sum A i rest := by
  split at hr
  · rename_i hle
    subst hr
    refine ⟨show rest - n < n by omega, ?_⟩
    change (add i t).weight + sum A (i + n) (rest - n) = _
    rw [hadd, Nat.add_assoc, ← sum_add, Nat.add_sub_cancel' hle]
  · rename_i hle
    subst hr
    exact ⟨Nat.lt_of_not_le hle, rfl⟩

theorem popWords_eq (A : Nat → BitVec 64) (wordOffset numWords : Nat) :
    popWords A wordOffset numWords = sum A wordOffset numWords := by
  obtain ⟨hlt, hsum⟩ := addEights_spec A wordOffset numWords ⟨0, 0, 0, 0⟩
  have hzero : Tally.weight ⟨0, 0, 0, 0⟩ = 0 := by decide
  rw [hzero, Nat.zero_add] at hsum
  rw [popWords]
  generalize Tally.addEights A wordOffset ⟨0, 0, 0, 0⟩ numWords = loop at hlt hsum
  obtain ⟨t, i, rest⟩ := loop
  dsimp only at hlt hsum ⊢
  generalize hr : (if 4 ≤ rest then (t.addFour A i, i + 4, rest - 4) else (t, i, rest)) = r
  obtain ⟨hlt₄, hsum₄⟩ := tail_spec (fun i t => weight_addFour A i t) hlt hr
  obtain ⟨t', i', rest'⟩ := r
  dsimp only at hlt₄ hsum₄ ⊢
  generalize hr' : (if 2 ≤ rest' then (t'.addTwo A i', i' + 2, rest' - 2) else (t', i', rest')) = r'
  obtain ⟨hlt₂, hsum₂⟩ := tail_spec (fun i t => weight_addTwo A i t) hlt₄ hr'
  obtain ⟨t'', i'', rest''⟩ := r'
  dsimp only at hlt₂ hsum₂ ⊢
  have hlast : (if 0 < rest'' then pop (A i'') else 0) = sum A i'' rest'' := by
    obtain rfl | rfl : rest'' = 0 ∨ rest'' = 1 := by omega
    · rfl
    · rw [if_pos Nat.one_pos, sum, Finset.sum_range_one, Nat.add_zero]
  rw [hlast, Nat.shiftLeft_eq, Nat.shiftLeft_eq, Nat.shiftLeft_eq]
  rw [Tally.weight] at hsum₂
  omega

/-- The number of bits that are set in a word. -/
def bitCount (x : BitVec 64) : Nat := ((Finset.range 64).filter fun i => x.getLsbD i = true).card

def bitSum (words : List (BitVec 64)) : Nat := (words.map bitCount).sum

theorem pop_eq_bitCount (x : BitVec 64) : pop x = bitCount x := by
  rw [pop_eq_sum, bitCount, Finset.card_filter]
  refine Finset.sum_congr rfl fun i _ => ?_
  cases x.getLsbD i <;> rfl

theorem sum_eq_bitSum (f : BitVec 64 → BitVec 64 → BitVec 64) {A B : List (BitVec 64)} {wordOffset numWords : Nat}
    (hA : wordOffset + numWords ≤ A.length) (hB : wordOffset + numWords ≤ B.length) :
    sum (fun i => f (A.getD i 0) (B.getD i 0)) wordOffset numWords =
      bitSum (List.zipWith f ((A.drop wordOffset).take numWords) ((B.drop wordOffset).take numWords)) := by
  induction numWords generalizing wordOffset with
  | zero => rfl
  | succ numWords ih =>
      have hltA : wordOffset < A.length := by omega
      have hltB : wordOffset < B.length := by omega
      have hfirst : sum (fun i => f (A.getD i 0) (B.getD i 0)) wordOffset 1 = bitCount (f A[wordOffset] B[wordOffset]) := by
        rw [sum, Finset.sum_range_one, Nat.add_zero, List.getD_eq_getElem?_getD, List.getD_eq_getElem?_getD,
          List.getElem?_eq_getElem hltA, List.getElem?_eq_getElem hltB, pop_eq_bitCount]
        rfl
      rw [Nat.add_comm numWords 1, sum_add, hfirst, ih (by omega) (by omega), Nat.add_comm 1 numWords,
        List.drop_eq_getElem_cons hltA, List.drop_eq_getElem_cons hltB, List.take_succ_cons, List.take_succ_cons,
        List.zipWith_cons_cons, bitSum, bitSum, List.map_cons, List.sum_cons]

/-- The five counts over a range of words are the numbers of set bits of the words, or of what they are combined to. -/
theorem pops_eq_bitSum {A B : List (BitVec 64)} {wordOffset numWords : Nat} (hA : wordOffset + numWords ≤ A.length)
    (hB : wordOffset + numWords ≤ B.length) :
    pop_array A wordOffset numWords = bitSum ((A.drop wordOffset).take numWords) ∧
      pop_intersect A B wordOffset numWords =
        bitSum (List.zipWith (· &&& ·) ((A.drop wordOffset).take numWords) ((B.drop wordOffset).take numWords)) ∧
      pop_union A B wordOffset numWords =
        bitSum (List.zipWith (· ||| ·) ((A.drop wordOffset).take numWords) ((B.drop wordOffset).take numWords)) ∧
      pop_andnot A B wordOffset numWords =
        bitSum (List.zipWith (· &&& ~~~·) ((A.drop wordOffset).take numWords) ((B.drop wordOffset).take numWords)) ∧
      pop_xor A B wordOffset numWords =
        bitSum (List.zipWith (· ^^^ ·) ((A.drop wordOffset).take numWords) ((B.drop wordOffset).take numWords)) := by
  refine ⟨?_, ?_, ?_, ?_, ?_⟩
  · have hsame := sum_eq_bitSum (fun a _ => a) hA hA
    rw [List.zipWith_self, List.map_id'] at hsame
    rw [pop_array, popWords_eq, hsame]
  · rw [pop_intersect, popWords_eq, sum_eq_bitSum (· &&& ·) hA hB]
  · rw [pop_union, popWords_eq, sum_eq_bitSum (· ||| ·) hA hB]
  · rw [pop_andnot, popWords_eq, sum_eq_bitSum (· &&& ~~~·) hA hB]
  · rw [pop_xor, popWords_eq, sum_eq_bitSum (· ^^^ ·) hA hB]

theorem pops_eq_bitSum_three :
    pop_array [1, 2, 3] 1 2 = bitSum [2, 3] ∧ pop_intersect [1, 2, 3] [3, 3, 1] 1 2 = bitSum [2, 1] ∧
      pop_union [1, 2, 3] [3, 3, 1] 1 2 = bitSum [3, 3] ∧ pop_andnot [1, 2, 3] [3, 3, 1] 1 2 = bitSum [0, 2] ∧
      pop_xor [1, 2, 3] [3, 3, 1] 1 2 = bitSum [1, 2] :=
  @pops_eq_bitSum [1, 2, 3] [3, 3, 1] 1 2 (by decide) (by decide)

theorem sum_eq_count (A : Nat → BitVec 64) (num : Nat) :
    sum A 0 num = Nat.count (fun i => (A (i / 64)).getLsbD (i % 64) = true) (64 * num) := by
  induction num with
  | zero => rfl
  | succ num ih =>
      rw [sum_add A 0 num 1, ih, Nat.mul_succ, Nat.count_add]
      congr 1
      rw [sum, Finset.sum_range_one, pop_eq, WordBits.pop]
      apply WordBits.count_congr
      intro i hi
      rw [Nat.mul_add_div (by decide), Nat.div_eq_of_lt hi, Nat.mul_add_mod, Nat.mod_eq_of_lt hi]
      simp

def ntzTable : List Nat := [
  8, 0, 1, 0, 2, 0, 1, 0, 3, 0, 1, 0, 2, 0, 1, 0, 4, 0, 1, 0, 2, 0, 1, 0, 3, 0, 1, 0, 2, 0, 1, 0,
  5, 0, 1, 0, 2, 0, 1, 0, 3, 0, 1, 0, 2, 0, 1, 0, 4, 0, 1, 0, 2, 0, 1, 0, 3, 0, 1, 0, 2, 0, 1, 0,
  6, 0, 1, 0, 2, 0, 1, 0, 3, 0, 1, 0, 2, 0, 1, 0, 4, 0, 1, 0, 2, 0, 1, 0, 3, 0, 1, 0, 2, 0, 1, 0,
  5, 0, 1, 0, 2, 0, 1, 0, 3, 0, 1, 0, 2, 0, 1, 0, 4, 0, 1, 0, 2, 0, 1, 0, 3, 0, 1, 0, 2, 0, 1, 0,
  7, 0, 1, 0, 2, 0, 1, 0, 3, 0, 1, 0, 2, 0, 1, 0, 4, 0, 1, 0, 2, 0, 1, 0, 3, 0, 1, 0, 2, 0, 1, 0,
  5, 0, 1, 0, 2, 0, 1, 0, 3, 0, 1, 0, 2, 0, 1, 0, 4, 0, 1, 0, 2, 0, 1, 0, 3, 0, 1, 0, 2, 0, 1, 0,
  6, 0, 1, 0, 2, 0, 1, 0, 3, 0, 1, 0, 2, 0, 1, 0, 4, 0, 1, 0, 2, 0, 1, 0, 3, 0, 1, 0, 2, 0, 1, 0,
  5, 0, 1, 0, 2, 0, 1, 0, 3, 0, 1, 0, 2, 0, 1, 0, 4, 0, 1, 0, 2, 0, 1, 0, 3, 0, 1, 0, 2, 0, 1, 0]

/-- The table at the first byte of an `int32_t` that is not zero. -/
def ntz32 (val : BitVec 32) : Nat :=
  let lowByte := val &&& 0xff
  if lowByte ≠ 0 then ntzTable.getD lowByte.toNat 0
  else
    let lowByte := unsignedShift val 8 &&& 0xff
    if lowByte ≠ 0 then ntzTable.getD lowByte.toNat 0 + 8
    else
      let lowByte := unsignedShift val 16 &&& 0xff
      if lowByte ≠ 0 then ntzTable.getD lowByte.toNat 0 + 16
      else ntzTable.getD (unsignedShift val 24).toNat 0 + 24

/-- The same over the halves of an `int64_t`. -/
def ntz (val : BitVec 64) : Nat :=
  let lower := val.setWidth 32
  let lowByte := lower &&& 0xff
  if lowByte ≠ 0 then ntzTable.getD lowByte.toNat 0
  else if lower ≠ 0 then
    let lowByte := unsignedShift lower 8 &&& 0xff
    if lowByte ≠ 0 then ntzTable.getD lowByte.toNat 0 + 8
    else
      let lowByte := unsignedShift lower 16 &&& 0xff
      if lowByte ≠ 0 then ntzTable.getD lowByte.toNat 0 + 16
      else ntzTable.getD (unsignedShift lower 24).toNat 0 + 24
  else
    let upper := (val.sshiftRight 32).setWidth 32
    let lowByte := upper &&& 0xff
    if lowByte ≠ 0 then ntzTable.getD lowByte.toNat 0 + 32
    else
      let lowByte := unsignedShift upper 8 &&& 0xff
      if lowByte ≠ 0 then ntzTable.getD lowByte.toNat 0 + 40
      else
        let lowByte := unsignedShift upper 16 &&& 0xff
        if lowByte ≠ 0 then ntzTable.getD lowByte.toNat 0 + 48
        else ntzTable.getD (unsignedShift upper 24).toNat 0 + 56

/-- Bit `n` is the lowest one that is set. -/
def Lowest (x n : Nat) : Prop := x.testBit n = true ∧ ∀ j < n, x.testBit j = false

instance (x n : Nat) : Decidable (Lowest x n) := inferInstanceAs (Decidable (_ ∧ _))

theorem lowest_ntzTable : ∀ b < 256, b ≠ 0 → Lowest b (ntzTable.getD b 0) := by
  decide +kernel

theorem lowest_of_mod {x k n : Nat} (h : Lowest (x % 2 ^ k) n) : Lowest x n := by
  obtain ⟨hbit, hbelow⟩ := h
  rw [Nat.testBit_mod_two_pow, Bool.and_eq_true, decide_eq_true_eq] at hbit
  refine ⟨hbit.2, fun j hj => ?_⟩
  have hj' := hbelow j hj
  rw [Nat.testBit_mod_two_pow] at hj'
  simpa [hj.trans hbit.1] using hj'

theorem lowest_of_div {x k n : Nat} (hzero : x % 2 ^ k = 0) (h : Lowest (x / 2 ^ k) n) : Lowest x (n + k) := by
  obtain ⟨hbit, hbelow⟩ := h
  refine ⟨by rwa [Nat.testBit_div_two_pow] at hbit, fun j hj => ?_⟩
  by_cases hlt : j < k
  · have hmod : (x % 2 ^ k).testBit j = false := by rw [hzero, Nat.zero_testBit]
    rw [Nat.testBit_mod_two_pow] at hmod
    simpa [hlt] using hmod
  · have hdiv := hbelow (j - k) (by omega)
    rwa [Nat.testBit_div_two_pow, Nat.sub_add_cancel (Nat.le_of_not_lt hlt)] at hdiv

theorem toNat_and_lowByte (x : BitVec 32) : (x &&& 0xff).toNat = x.toNat % 2 ^ 8 := by
  rw [BitVec.toNat_and, show (0xff : BitVec 32).toNat = 2 ^ 8 - 1 from rfl, Nat.and_two_pow_sub_one_eq_mod]

theorem toNat_unsignedShift32 {x : BitVec 32} {k : Nat} (h : k < 32) : (unsignedShift x k).toNat = x.toNat / 2 ^ k := by
  rw [unsignedShift_eq, BitVec.toNat_ushiftRight, Nat.shiftRight_eq_div_pow]
  congr 2
  omega

theorem toNat_ne_zero {w : Nat} {x : BitVec w} (h : x ≠ 0) : x.toNat ≠ 0 :=
  fun hzero => h (BitVec.eq_of_toNat_eq hzero)

theorem toNat_eq_zero {w : Nat} {x : BitVec w} (h : ¬ x ≠ 0) : x.toNat = 0 := by
  rw [Decidable.not_not.mp h]
  exact BitVec.toNat_zero

theorem lowest_of_byte {x k b : Nat} (hzero : x % 2 ^ k = 0) (hb : b = x / 2 ^ k % 2 ^ 8) (h : b ≠ 0) :
    Lowest x (ntzTable.getD b 0 + k) :=
  have hbyte := lowest_ntzTable b (hb ▸ Nat.mod_lt _ (by decide)) h
  lowest_of_div hzero (@lowest_of_mod _ 8 _ (hb ▸ hbyte))

theorem lowest_ntz32 {val : BitVec 32} (h : val ≠ 0) : Lowest val.toNat (ntz32 val) := by
  have hval := toNat_ne_zero h
  have hlt := val.isLt
  have h₀ := toNat_and_lowByte val
  have h₁ := toNat_and_lowByte (unsignedShift val 8)
  have h₂ := toNat_and_lowByte (unsignedShift val 16)
  have h₃ : (unsignedShift val 24).toNat = val.toNat / 2 ^ 24 := @toNat_unsignedShift32 val 24 (by decide)
  rw [show (unsignedShift val 8).toNat = val.toNat / 2 ^ 8 from @toNat_unsignedShift32 val 8 (by decide)] at h₁
  rw [show (unsignedShift val 16).toNat = val.toNat / 2 ^ 16 from @toNat_unsignedShift32 val 16 (by decide)] at h₂
  unfold ntz32
  dsimp only
  split
  · rename_i hne
    exact lowest_of_byte (Nat.mod_one _) (by rw [h₀, pow_zero, Nat.div_one]) (toNat_ne_zero hne)
  · rename_i he
    rw [toNat_eq_zero he] at h₀
    split
    · rename_i hne
      exact lowest_of_byte h₀.symm h₁ (toNat_ne_zero hne)
    · rename_i he'
      rw [toNat_eq_zero he'] at h₁
      split
      · rename_i hne
        exact lowest_of_byte (by omega) h₂ (toNat_ne_zero hne)
      · rename_i he''
        rw [toNat_eq_zero he''] at h₂
        exact lowest_of_byte (by omega) (by omega) (by omega)

theorem setWidth_sshiftRight (val : BitVec 64) : ((val.sshiftRight 32).setWidth 32).toNat = val.toNat / 2 ^ 32 := by
  have heq : (val.sshiftRight 32).setWidth 32 = (val >>> 32).setWidth 32 := by
    apply BitVec.eq_of_getLsbD_eq
    intro i hi
    rw [BitVec.getLsbD_setWidth, BitVec.getLsbD_setWidth, BitVec.getLsbD_sshiftRight, BitVec.getLsbD_ushiftRight]
    simp [show 32 + i < 64 by omega, show ¬ 64 ≤ i by omega]
  rw [heq, BitVec.toNat_setWidth, BitVec.toNat_ushiftRight, Nat.shiftRight_eq_div_pow]
  have hlt := val.isLt
  omega

theorem ntz_eq (val : BitVec 64) :
    ntz val = if val.setWidth 32 ≠ 0 then ntz32 (val.setWidth 32)
      else ntz32 ((val.sshiftRight 32).setWidth 32) + 32 := by
  unfold ntz ntz32
  dsimp only
  generalize (val.sshiftRight 32).setWidth 32 = upper
  by_cases hlower : val.setWidth 32 = 0
  · rw [hlower]
    have hzero : (0 : BitVec 32) &&& 0xff = 0 := rfl
    simp only [hzero, ne_eq, not_true_eq_false, if_false]
    split
    · rfl
    · split
      · rfl
      · split <;> rfl
  · simp only [ne_eq, hlower, not_false_eq_true, if_true]

theorem lowest_ntz {val : BitVec 64} (h : val ≠ 0) : Lowest val.toNat (ntz val) := by
  rw [ntz_eq]
  split
  · rename_i hlower
    have hlow := lowest_ntz32 hlower
    rw [BitVec.toNat_setWidth] at hlow
    exact lowest_of_mod hlow
  · rename_i hlower
    have hzero : val.toNat % 2 ^ 32 = 0 := by
      rw [← BitVec.toNat_setWidth, toNat_eq_zero hlower]
    have hupper := setWidth_sshiftRight val
    have hne : (val.sshiftRight 32).setWidth 32 ≠ 0 := by
      intro he
      rw [toNat_eq_zero (not_not_intro he)] at hupper
      exact toNat_ne_zero h (by omega)
    have hlow := lowest_ntz32 hne
    rw [hupper] at hlow
    exact lowest_of_div hzero hlow

end BitUtil

end LucenePlusPlus
