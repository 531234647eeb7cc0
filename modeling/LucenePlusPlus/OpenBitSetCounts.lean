import LucenePlusPlus.OpenBitSetSets

/-!
What an `OpenBitSet` tells about its set: the counts, the next bit, and whether two sets are equal or intersect.
-/

namespace LucenePlusPlus
namespace OpenBitSet
open WordBits

variable {s t : OpenBitSet} {A : Nat → BitVec 64} {E : Finset Nat} {index i k n : Nat}

theorem popWords_eq_card (hE : ∀ i, i ∈ E ↔ (A (i / 64)).getLsbD (i % 64) = true) (hlt : ∀ i ∈ E, i / 64 < n) :
    BitUtil.popWords A 0 n = E.card := by
  rw [BitUtil.popWords_eq, BitUtil.sum_eq_count, Nat.count_eq_card_filter_range]
  congr 1
  ext i
  rw [Finset.mem_filter, Finset.mem_range, ← hE, and_iff_right_iff_imp]
  intro hi
  have hdiv := hlt i hi
  omega

theorem popWords_add {B : Nat → BitVec 64} {m : Nat} (hB : ∀ k, n ≤ k → k < n + m → B k = A k) :
    BitUtil.popWords A 0 n + BitUtil.popWords B n m = BitUtil.popWords A 0 (n + m) := by
  rw [BitUtil.popWords_eq, BitUtil.popWords_eq, BitUtil.popWords_eq, BitUtil.sum_add, Nat.zero_add]
  congr 1
  apply Finset.sum_congr rfl
  intro k hk
  rw [Finset.mem_range] at hk
  rw [hB (n + k) (Nat.le_add_right n k) (by omega)]

theorem Valid.cardinality (h : Valid s) : s.cardinality = s.elements.card :=
  popWords_eq_card (fun _ => mem_elements) fun _ hi => h.lt_wlen (mem_elements.mp hi)

theorem Valid.isEmpty (h : Valid s) : s.isEmpty = true ↔ s.elements = ∅ := by
  rw [OpenBitSet.isEmpty, decide_eq_true_eq, h.cardinality, Finset.card_eq_zero]

theorem Valid.intersectionCount (hs : Valid s) (ht : Valid t) :
    intersectionCount s t = (s.elements ∩ t.elements).card := by
  refine popWords_eq_card (fun i => ?_) fun i hi => ?_
  · rw [Finset.mem_inter, mem_elements, mem_elements, BitVec.getLsbD_and, Bool.and_eq_true]
    rfl
  · rw [Finset.mem_inter, mem_elements, mem_elements] at hi
    exact lt_min (hs.lt_wlen hi.1) (ht.lt_wlen hi.2)

/-- Up to the end of the shorter set the words are combined, and what the longer one has more is counted alone. -/
theorem Valid.count_longer {g : BitVec 64 → BitVec 64 → BitVec 64} (hs : Valid s) (ht : Valid t)
    (hleft : ∀ y, g 0 y = y) (hright : ∀ x, g x 0 = x)
    (hE : ∀ i, i ∈ E ↔ (g (s.word (i / 64)) (t.word (i / 64))).getLsbD (i % 64) = true) :
    (if s.wlen < t.wlen then
        BitUtil.popWords (fun k => g (s.word k) (t.word k)) 0 (min s.wlen t.wlen) +
          BitUtil.popWords t.word s.wlen (t.wlen - s.wlen)
      else if t.wlen < s.wlen then
        BitUtil.popWords (fun k => g (s.word k) (t.word k)) 0 (min s.wlen t.wlen) +
          BitUtil.popWords s.word t.wlen (s.wlen - t.wlen)
      else BitUtil.popWords (fun k => g (s.word k) (t.word k)) 0 (min s.wlen t.wlen)) = E.card := by
  have hlt : ∀ i ∈ E, i / 64 < max s.wlen t.wlen := by
    intro i hi
    rw [hE] at hi
    by_contra hge
    rw [hs.zero _ (by omega), ht.zero _ (by omega), hleft] at hi
    exact absurd (BitVec.getLsbD_zero.symm.trans hi) Bool.false_ne_true
  rw [← @popWords_eq_card (fun k => g (s.word k) (t.word k)) E (max s.wlen t.wlen) hE hlt]
  split
  · rename_i hshort
    rw [min_eq_left hshort.le, popWords_add, Nat.add_sub_cancel' hshort.le, max_eq_right hshort.le]
    intro k hk _
    rw [hs.zero k hk, hleft]
  · split
    · rename_i hshort
      rw [min_eq_right hshort.le, popWords_add, Nat.add_sub_cancel' hshort.le, max_eq_left hshort.le]
      intro k hk _
      rw [ht.zero k hk, hright]
    · have heq : s.wlen = t.wlen := by omega
      rw [heq, min_self, max_self]

theorem Valid.unionCount (hs : Valid s) (ht : Valid t) : unionCount s t = (s.elements ∪ t.elements).card := by
  refine hs.count_longer ht (fun y => BitVec.zero_or) (fun x => BitVec.or_zero) fun i => ?_
  rw [Finset.mem_union, mem_elements, mem_elements, BitVec.getLsbD_or, Bool.or_eq_true, has_eq, has_eq]

theorem Valid.xorCount (hs : Valid s) (ht : Valid t) : xorCount s t = (symmDiff s.elements t.elements).card := by
  refine hs.count_longer ht (fun y => BitVec.zero_xor) (fun x => BitVec.xor_zero) fun i => ?_
  rw [Finset.mem_symmDiff, mem_elements, mem_elements, BitVec.getLsbD_xor, has_eq, has_eq]
  cases (s.word (i / 64)).getLsbD (i % 64) <;> cases (t.word (i / 64)).getLsbD (i % 64) <;> simp

theorem Valid.andNotCount (hs : Valid s) (ht : Valid t) : andNotCount s t = (s.elements \ t.elements).card := by
  have hE : ∀ i, i ∈ s.elements \ t.elements ↔ (s.word (i / 64) &&& ~~~t.word (i / 64)).getLsbD (i % 64) = true := by
    intro i
    have hmod := Nat.mod_lt i (show 0 < 64 by decide)
    rw [Finset.mem_sdiff, mem_elements, mem_elements, BitVec.getLsbD_and, BitVec.getLsbD_not, decide_eq_true hmod,
      Bool.true_and, Bool.and_eq_true, has_eq, has_eq, Bool.not_eq_true']
    simp
  have hlt : ∀ i ∈ s.elements \ t.elements, i / 64 < s.wlen := by
    intro i hi
    rw [Finset.mem_sdiff, mem_elements] at hi
    exact hs.lt_wlen hi.1
  rw [← @popWords_eq_card (fun k => s.word k &&& ~~~t.word k) _ s.wlen hE hlt]
  change (if t.wlen < s.wlen then
      BitUtil.popWords (fun k => s.word k &&& ~~~t.word k) 0 (min s.wlen t.wlen) +
        BitUtil.popWords s.word t.wlen (s.wlen - t.wlen)
    else BitUtil.popWords (fun k => s.word k &&& ~~~t.word k) 0 (min s.wlen t.wlen)) = _
  split
  · rename_i hshort
    rw [min_eq_right hshort.le, popWords_add, Nat.add_sub_cancel' hshort.le]
    intro k hk _
    rw [ht.zero k hk, show ~~~(0 : BitVec 64) = BitVec.allOnes 64 from rfl, BitVec.and_allOnes]
  · rename_i hlong
    rw [min_eq_left (Nat.le_of_not_lt hlong)]

/-- The least number of the set from `index` on, or `-1` when there is none. -/
def IsNext (E : Finset Nat) (index : Nat) (r : Int) : Prop :=
  (r = -1 ∧ ∀ e ∈ E, e < index) ∨ ∃ e ∈ E, r = e ∧ index ≤ e ∧ ∀ e' ∈ E, index ≤ e' → e ≤ e'

theorem IsNext.unique {r r' : Int} (h : IsNext E index r) (h' : IsNext E index r') : r = r' := by
  rcases h with ⟨rfl, hnone⟩ | ⟨e, he, rfl, hge, hleast⟩
  · rcases h' with ⟨rfl, -⟩ | ⟨e', he', -, hge', -⟩
    · rfl
    · exact absurd (hnone e' he') (by omega)
  · rcases h' with ⟨-, hnone⟩ | ⟨e', he', rfl, hge', hleast'⟩
    · exact absurd (hnone e he) (by omega)
    · have hle := hleast e' he' hge'
      have hle' := hleast' e he hge
      omega

/-- The bits of a word from `subIndex` on; behind them there may be copies of the last one. -/
structure Shifted (x : BitVec 64) (subIndex : Nat) (word : BitVec 64) : Prop where
  bit : ∀ j, subIndex + j < 64 → word.getLsbD j = x.getLsbD (subIndex + j)
  behind : ∀ j, word.getLsbD j = true → ∃ j', subIndex + j' < 64 ∧ j' ≤ j ∧ word.getLsbD j' = true

theorem shifted_unsignedShift (x : BitVec 64) {n : Nat} (hn : n < 64) : Shifted x n (unsignedShift x n) := by
  have hmod : ((n : Int) % ((64 : Nat) : Int)).toNat = n := by omega
  rw [unsignedShift_eq, hmod]
  refine ⟨fun j _ => BitVec.getLsbD_ushiftRight x n j, fun j hj => ⟨j, ?_, le_rfl, hj⟩⟩
  rw [BitVec.getLsbD_ushiftRight] at hj
  exact BitVec.lt_of_getLsbD hj

theorem shifted_sshiftRight (x : BitVec 64) {n : Nat} (hn : n < 64) : Shifted x n (x.sshiftRight n) := by
  have hbit : ∀ j, n + j < 64 → (x.sshiftRight n).getLsbD j = x.getLsbD (n + j) := by
    intro j hj
    rw [BitVec.getLsbD_sshiftRight]
    simp [hj, show ¬ 64 ≤ j by omega]
  refine ⟨hbit, fun j hj => ?_⟩
  by_cases hlt : n + j < 64
  · exact ⟨j, hlt, le_rfl, hj⟩
  · have hmsb := hj
    rw [BitVec.getLsbD_sshiftRight] at hmsb
    simp only [hlt, if_false, Bool.and_eq_true] at hmsb
    refine ⟨63 - n, by omega, by omega, ?_⟩
    rw [hbit _ (by omega), show n + (63 - n) = 63 by omega]
    exact hmsb.2

theorem Shifted.lowest {x word : BitVec 64} (h : Shifted x k word) (hne : word ≠ 0) :
    k + BitUtil.ntz word < 64 ∧ x.getLsbD (k + BitUtil.ntz word) = true ∧
      ∀ j, k ≤ j → j < k + BitUtil.ntz word → x.getLsbD j = false := by
  obtain ⟨hbit, hbelow⟩ := BitUtil.lowest_ntz hne
  have hlt : k + BitUtil.ntz word < 64 := by
    obtain ⟨j', hj', hle, hset⟩ := h.behind _ hbit
    by_contra hge
    have hfalse := hbelow j' (by omega)
    exact absurd (hset.symm.trans hfalse) (by decide)
  refine ⟨hlt, (h.bit _ hlt).symm.trans hbit, fun j hle hj => ?_⟩
  have hsum : k + (j - k) = j := by omega
  rw [← hsum, ← h.bit _ (by omega)]
  exact hbelow _ (by omega)

theorem Shifted.zero {x : BitVec 64} (h : Shifted x k 0) {j : Nat} (hle : k ≤ j) (hj : j < 64) : x.getLsbD j = false := by
  have hsum : k + (j - k) = j := by omega
  rw [← hsum, ← h.bit _ (by omega)]
  exact BitVec.getLsbD_zero

theorem shifted_self (x : BitVec 64) : Shifted x 0 x where
  bit j _ := by rw [Nat.zero_add]
  behind j hj := ⟨j, by rw [Nat.zero_add]; exact BitVec.lt_of_getLsbD hj, le_rfl, hj⟩

theorem Shifted.isNext {word : BitVec 64} (h : Shifted (s.word i) k word) (hk : k < 64) {rest : Int}
    (hrest : IsNext s.elements (64 * (i + 1)) rest) :
    IsNext s.elements (64 * i + k) (if word ≠ 0 then ((64 * i + (k + BitUtil.ntz word) : Nat) : Int) else rest) := by
  split
  · rename_i hne
    obtain ⟨hlt, hbit, hbelow⟩ := h.lowest hne
    refine Or.inr ⟨64 * i + (k + BitUtil.ntz word), ?_, rfl, by omega, fun e he hge => ?_⟩
    · rw [mem_elements, has_eq, show (64 * i + (k + BitUtil.ntz word)) / 64 = i by omega,
        show (64 * i + (k + BitUtil.ntz word)) % 64 = k + BitUtil.ntz word by omega]
      exact hbit
    · by_contra hlt'
      rw [mem_elements, has_eq, show e / 64 = i by omega, hbelow (e % 64) (by omega) (by omega)] at he
      cases he
  · rename_i hzero
    rw [Decidable.not_not.mp hzero] at h
    have hnone : ∀ e ∈ s.elements, 64 * i + k ≤ e → 64 * (i + 1) ≤ e := by
      intro e he hge
      by_contra hlt
      rw [mem_elements, has_eq, show e / 64 = i by omega, h.zero (by omega) (by omega)] at he
      cases he
    rcases hrest with ⟨rfl, hall⟩ | ⟨e, he, rfl, hge, hleast⟩
    · refine Or.inl ⟨rfl, fun e he => ?_⟩
      by_contra hge
      have hlt := hall e he
      have hle := hnone e he (by omega)
      omega
    · exact Or.inr ⟨e, he, rfl, by omega, fun e' he' hge' => hleast e' he' (hnone e' he' hge')⟩

theorem Valid.isNext_nextWord (h : Valid s) (hn : s.wlen ≤ i + n) : IsNext s.elements (64 * i) (s.nextWord i n) := by
  induction n generalizing i with
  | zero =>
      refine Or.inl ⟨rfl, fun e he => ?_⟩
      have hlt := h.lt_wlen (mem_elements.mp he)
      omega
  | succ n ih =>
      have hnext := (shifted_self (s.word i)).isNext (by decide) (@ih (i + 1) (by omega))
      rw [nextWord, Nat.shiftLeft_eq, Nat.mul_comm i]
      rwa [Nat.add_zero, Nat.zero_add] at hnext

theorem Valid.isNext_none (h : Valid s) (hle : s.wlen ≤ index / 64) : IsNext s.elements index (-1) := by
  refine Or.inl ⟨rfl, fun e he => ?_⟩
  have hlt := h.lt_wlen (mem_elements.mp he)
  omega

theorem Valid.isNext_nextSetBit (h : Valid s) (hi : index < 2 ^ 37) :
    IsNext s.elements index (s.nextSetBit index) := by
  have hmod := Nat.mod_lt index (show 0 < 64 by decide)
  rw [nextSetBit, wordNum_eq hi, and_0x3f]
  dsimp only
  split
  · rename_i hle
    exact h.isNext_none hle
  · have hnext := (shifted_sshiftRight (s.word (index / 64)) hmod).isNext hmod
      (@Valid.isNext_nextWord s (index / 64 + 1) (s.wlen - (index / 64 + 1)) h (by omega))
    rw [Nat.div_add_mod] at hnext
    rwa [Nat.shiftLeft_eq, Nat.mul_comm (index / 64)]

theorem Valid.nextSetBit32_eq (h : Valid s) (hi : index < 2 ^ 32) :
    s.nextSetBit32 index = toInt32 (s.nextSetBit index) := by
  have hmod := Nat.mod_lt index (show 0 < 64 by decide)
  have hsum : index >>> 6 = index / 64 := Nat.shiftRight_eq_div_pow index 6
  have hnext := (shifted_unsignedShift (s.word (index / 64)) hmod).isNext hmod
    (@Valid.isNext_nextWord s (index / 64 + 1) (s.wlen - (index / 64 + 1)) h (by omega))
  rw [Nat.div_add_mod] at hnext
  rw [nextSetBit32, hsum, and_0x3f]
  dsimp only
  split
  · rename_i hle
    rw [(h.isNext_nextSetBit (by omega)).unique (h.isNext_none hle)]
    rfl
  · rw [(h.isNext_nextSetBit (by omega)).unique hnext]
    split
    · rw [Nat.shiftLeft_eq, Nat.mul_comm (index / 64), Nat.add_assoc]
    · rfl

/-! ### Equality -/

theorem zeroFrom_iff (s : OpenBitSet) (low n : Nat) :
    s.zeroFrom low n = true ↔ ∀ k, low ≤ k → k < low + n → s.word k = 0 := by
  induction n with
  | zero => exact iff_of_true rfl fun k hk hlt => by omega
  | succ n ih =>
      rw [zeroFrom]
      split
      · rename_i hne
        refine iff_of_false Bool.false_ne_true fun hall => hne (hall _ (by omega) (by omega))
      · rename_i hzero
        rw [ih]
        constructor
        · intro hall k hk hlt
          by_cases heq : k = low + n
          · rw [heq]
            exact Decidable.not_not.mp hzero
          · exact hall k hk (by omega)
        · intro hall k hk hlt
          exact hall k hk (by omega)

theorem sameBelow_iff (s t : OpenBitSet) (n : Nat) : s.sameBelow t n = true ↔ ∀ k < n, s.word k = t.word k := by
  induction n with
  | zero => exact iff_of_true rfl fun k hk => absurd hk (Nat.not_lt_zero k)
  | succ n ih =>
      rw [sameBelow]
      split
      · rename_i hne
        exact iff_of_false Bool.false_ne_true fun hall => hne (hall n (Nat.lt_succ_self n))
      · rename_i heq
        rw [ih]
        constructor
        · intro hall k hk
          rcases Nat.lt_succ_iff_lt_or_eq.mp hk with hlt | rfl
          · exact hall k hlt
          · exact Decidable.not_not.mp heq
        · intro hall k hk
          exact hall k (by omega)

theorem meets_iff (s t : OpenBitSet) (n : Nat) : s.meets t n = true ↔ ∃ k < n, s.word k &&& t.word k ≠ 0 := by
  induction n with
  | zero => exact iff_of_false Bool.false_ne_true fun ⟨k, hk, _⟩ => Nat.not_lt_zero k hk
  | succ n ih =>
      rw [meets]
      split
      · rename_i hne
        exact iff_of_true rfl ⟨n, Nat.lt_succ_self n, hne⟩
      · rename_i hzero
        rw [ih]
        constructor
        · rintro ⟨k, hk, hne⟩
          exact ⟨k, by omega, hne⟩
        · rintro ⟨k, hk, hne⟩
          refine ⟨k, ?_, hne⟩
          rcases Nat.lt_succ_iff_lt_or_eq.mp hk with hlt | rfl
          · exact hlt
          · exact absurd hne hzero

theorem elements_eq_iff : s.elements = t.elements ↔ ∀ k, s.word k = t.word k := by
  constructor
  · intro h k
    apply getD_eq_of_bit_eq (by decide)
    intro j _
    have hmem := Finset.ext_iff.mp h (64 * k + j)
    rw [mem_elements, mem_elements] at hmem
    exact Bool.eq_iff_iff.mpr hmem
  · intro h
    ext i
    rw [mem_elements, mem_elements, has_congr h]

theorem Valid.equals (hs : Valid s) (ht : Valid t) : s.equals t = true ↔ s.elements = t.elements := by
  have hordered : ∀ {a b : OpenBitSet}, Valid a → Valid b → b.wlen ≤ a.wlen →
      ((if a.zeroFrom b.wlen (a.wlen - b.wlen) then a.sameBelow b b.wlen else false) = true ↔
        a.elements = b.elements) := by
    intro a b ha hb hle
    rw [elements_eq_iff]
    by_cases hzero : a.zeroFrom b.wlen (a.wlen - b.wlen) = true
    · rw [if_pos hzero, sameBelow_iff]
      rw [zeroFrom_iff, Nat.add_sub_cancel' hle] at hzero
      constructor
      · intro hall k
        by_cases hk : k < b.wlen
        · exact hall k hk
        · rw [hb.zero k (Nat.le_of_not_lt hk)]
          by_cases hk' : k < a.wlen
          · exact hzero k (Nat.le_of_not_lt hk) hk'
          · exact ha.zero k (Nat.le_of_not_lt hk')
      · intro hall k _
        exact hall k
    · rw [if_neg hzero]
      refine iff_of_false Bool.false_ne_true fun hall => hzero ?_
      rw [zeroFrom_iff]
      intro k hk _
      rw [hall k, hb.zero k hk]
  rw [OpenBitSet.equals]
  by_cases hlt : s.wlen < t.wlen
  · rw [if_pos hlt, eq_comm (a := s.elements)]
    exact hordered ht hs hlt.le
  · rw [if_neg hlt]
    exact hordered hs ht (Nat.le_of_not_lt hlt)

theorem Valid.intersects (hs : Valid s) (ht : Valid t) :
    s.intersects t = true ↔ (s.elements ∩ t.elements).Nonempty := by
  rw [OpenBitSet.intersects, meets_iff]
  constructor
  · rintro ⟨k, -, hne⟩
    by_contra hempty
    rw [Finset.not_nonempty_iff_eq_empty] at hempty
    apply hne
    apply BitVec.eq_of_getLsbD_eq
    intro j hj
    by_contra hbit
    rw [BitVec.getLsbD_and] at hbit
    have hnot : 64 * k + j ∉ s.elements ∩ t.elements := by
      rw [hempty]
      exact Finset.notMem_empty _
    rw [Finset.mem_inter, mem_elements, mem_elements, has_eq, has_eq, show (64 * k + j) / 64 = k by omega,
      show (64 * k + j) % 64 = j by omega] at hnot
    apply hbit
    have hzero : (0 : BitVec 64).getLsbD j = false := BitVec.getLsbD_zero
    rw [hzero, Bool.eq_false_iff]
    rwa [ne_eq, Bool.and_eq_true]
  · rintro ⟨i, hi⟩
    rw [Finset.mem_inter, mem_elements, mem_elements] at hi
    refine ⟨i / 64, lt_min (hs.lt_wlen hi.1) (ht.lt_wlen hi.2), fun hzero => ?_⟩
    have hbit := congrArg (fun x => x.getLsbD (i % 64)) hzero
    rw [has_eq, has_eq] at hi
    simp only [BitVec.getLsbD_and, hi.1, hi.2, Bool.and_self] at hbit
    exact absurd (hbit.trans BitVec.getLsbD_zero) (by decide)

end OpenBitSet
end LucenePlusPlus
