import LucenePlusPlus.OpenBitSet

/-!
The words and the bits of an `OpenBitSet` after each of its operations. Bit `i` is bit `i % 64` of word `i / 64`, and
beyond the array there are none.
-/

namespace LucenePlusPlus
namespace OpenBitSet
open WordBits

variable {s t other : OpenBitSet} {f : BitVec 64 → BitVec 64} {index startIndex endIndex i k low high : Nat}

/-- Whether bit `i` is set. -/
def has (s : OpenBitSet) (i : Nat) : Bool := bit s.bits i

theorem has_eq (s : OpenBitSet) (i : Nat) : s.has i = (s.word (i / 64)).getLsbD (i % 64) := rfl

theorem word_of_length_le (h : s.bits.length ≤ k) : s.word k = 0 := by
  rw [word, List.getD_eq_getElem?_getD, List.getElem?_eq_none h, Option.getD_none]

theorem wordNum_eq (h : index < 2 ^ 37) : wordNum index = index / 64 := by
  rw [wordNum, Nat.shiftRight_eq_div_pow]
  omega

theorem and_0x3f (index : Nat) : index &&& 0x3f = index % 64 := Nat.and_two_pow_sub_one_eq_mod index 6

theorem getLsbD_bitmask (index : Nat) {j : Nat} (hj : j < 64) :
    (bitmask index).getLsbD j = decide (j = index % 64) := by
  have hmod := Nat.mod_lt index (show 0 < 64 by decide)
  rw [bitmask, and_0x3f, BitVec.getLsbD_shiftLeft, show (1 : BitVec 64) = 1#64 from rfl, BitVec.getLsbD_one]
  by_cases heq : j = index % 64
  · simp [heq, hmod]
  · by_cases hlt : j < index % 64
    · simp [heq, hlt]
    · simp [heq, hj, show ¬ j - index % 64 = 0 by omega]

theorem and_bitmask_ne_zero (x : BitVec 64) (index : Nat) :
    decide (x &&& bitmask index ≠ 0) = x.getLsbD (index % 64) := by
  have hmod := Nat.mod_lt index (show 0 < 64 by decide)
  rw [Bool.eq_iff_iff, decide_eq_true_eq]
  constructor
  · intro hne
    by_contra hbit
    apply hne
    apply BitVec.eq_of_getLsbD_eq
    intro j hj
    rw [BitVec.getLsbD_and, getLsbD_bitmask index hj]
    by_cases heq : j = index % 64
    · rw [heq, Bool.eq_false_iff.mpr hbit]
      exact BitVec.getLsbD_zero.symm
    · simp [heq]
  · intro hbit hzero
    have hand := congrArg (fun y => y.getLsbD (index % 64)) hzero
    simp only [BitVec.getLsbD_and, getLsbD_bitmask index hmod, hbit, decide_true, Bool.and_self] at hand
    exact absurd hand (by simp)

theorem getLsbD_startmask (startIndex : Nat) {j : Nat} (hj : j < 64) :
    (startmask startIndex).getLsbD j = decide (startIndex % 64 ≤ j) := by
  rw [startmask, and_0x3f, BitVec.getLsbD_shiftLeft, BitVec.getLsbD_allOnes]
  by_cases hle : startIndex % 64 ≤ j
  · simp [hle, hj, show j - startIndex % 64 < 64 by omega]
  · simp [hle, show j < startIndex % 64 by omega]

theorem getLsbD_endmask (hpos : 0 < endIndex) (j : Nat) :
    (endmask endIndex).getLsbD j = decide (j ≤ (endIndex - 1) % 64) := by
  rw [endmask, unsignedShift_eq, BitVec.getLsbD_ushiftRight, BitVec.getLsbD_allOnes, decide_eq_decide]
  have hshift : ((-(endIndex : Int)) % ((64 : Nat) : Int)).toNat = 63 - (endIndex - 1) % 64 := by omega
  rw [hshift]
  omega

theorem word_modify (hk : k < s.bits.length) (j : Nat) :
    (s.modify k f).word j = if j = k then f (s.word k) else s.word j := by
  rw [modify, word, word, word, List.getD_eq_getElem?_getD, List.getElem?_modify]
  split
  · rename_i heq
    subst heq
    rw [if_pos rfl, List.getD_eq_getElem?_getD, List.getElem?_eq_getElem hk]
    rfl
  · rename_i hne
    rw [if_neg (Ne.symm hne), List.getD_eq_getElem?_getD]
    cases s.bits[j]? <;> rfl

@[simp] theorem length_modify (s : OpenBitSet) (k : Nat) (f : BitVec 64 → BitVec 64) :
    (s.modify k f).bits.length = s.bits.length := List.length_modify f s.bits k

@[simp] theorem wlen_modify (s : OpenBitSet) (k : Nat) (f : BitVec 64 → BitVec 64) : (s.modify k f).wlen = s.wlen := rfl

theorem word_mapWords (hhigh : high ≤ s.bits.length) (j : Nat) :
    (s.mapWords f low high).word j = if low ≤ j ∧ j < high then f (s.word j) else s.word j := by
  rw [mapWords, word, word, List.getD_eq_getElem?_getD, List.getD_eq_getElem?_getD, List.getElem?_mapIdx]
  by_cases hj : j < s.bits.length
  · rw [List.getElem?_eq_getElem hj]
    rfl
  · rw [List.getElem?_eq_none (by omega), if_neg (by omega)]
    rfl

@[simp] theorem length_mapWords (s : OpenBitSet) (f : BitVec 64 → BitVec 64) (low high : Nat) :
    (s.mapWords f low high).bits.length = s.bits.length := List.length_mapIdx

@[simp] theorem wlen_mapWords (s : OpenBitSet) (f : BitVec 64 → BitVec 64) (low high : Nat) :
    (s.mapWords f low high).wlen = s.wlen := rfl

theorem word_combine {g : BitVec 64 → BitVec 64 → BitVec 64} {n : Nat} (hn : n ≤ s.bits.length) (j : Nat) :
    (combine other g n s).word j = if j < n then g (s.word j) (other.word j) else s.word j := by
  induction n generalizing s with
  | zero => rfl
  | succ n ih =>
      rw [combine, ih (by rw [length_modify]; omega), word_modify (by omega)]
      by_cases hj : j = n
      · subst hj
        rw [if_neg (by omega), if_pos rfl, if_pos (by omega)]
      · rw [if_neg hj]
        by_cases hlt : j < n
        · rw [if_pos hlt, if_pos (by omega)]
        · rw [if_neg hlt, if_neg (by omega)]

theorem length_combine (g : BitVec 64 → BitVec 64 → BitVec 64) (n : Nat) (s : OpenBitSet) :
    (combine other g n s).bits.length = s.bits.length := by
  induction n generalizing s with
  | zero => rfl
  | succ n ih => rw [combine, ih, length_modify]

theorem wlen_combine (g : BitVec 64 → BitVec 64 → BitVec 64) (n : Nat) (s : OpenBitSet) :
    (combine other g n s).wlen = s.wlen := by
  induction n generalizing s with
  | zero => rfl
  | succ n ih => rw [combine, ih, wlen_modify]

theorem getD_arrayCopy {src dst : List (BitVec 64)} {len : Nat} (hsrc : low + len ≤ src.length)
    (hdst : low + len ≤ dst.length) (j : Nat) :
    (RingBuffer.arrayCopy src low dst low len).getD j 0 =
      if low ≤ j ∧ j < low + len then src.getD j 0 else dst.getD j 0 := by
  simp only [RingBuffer.arrayCopy, List.getD_eq_getElem?_getD, List.getElem?_append, List.length_append,
    List.length_take, List.length_drop, List.getElem?_take, List.getElem?_drop]
  rw [min_eq_left (by omega : low ≤ dst.length), min_eq_left (by omega : len ≤ src.length - low)]
  by_cases hlow : low ≤ j
  · by_cases hhigh : j < low + len
    · rw [if_pos hhigh, if_neg (by omega), if_pos (by omega), if_pos ⟨hlow, hhigh⟩, Nat.add_sub_cancel' hlow]
    · rw [if_neg hhigh, if_neg (by omega), Nat.add_sub_cancel' (by omega)]
  · rw [if_pos (by omega), if_pos (by omega), if_pos (by omega), if_neg (by omega)]

theorem length_arrayCopy {src dst : List (BitVec 64)} {len : Nat} (hsrc : low + len ≤ src.length)
    (hdst : low + len ≤ dst.length) : (RingBuffer.arrayCopy src low dst low len).length = dst.length := by
  rw [RingBuffer.arrayCopy, List.length_append, List.length_append, List.length_take, List.length_take, List.length_drop,
    List.length_drop]
  omega

theorem bits2words_eq (h : i ≤ 2 ^ 37) : bits2words i = (i + 63) / 64 := by
  rcases Nat.eq_zero_or_pos i with rfl | hpos
  · rfl
  · have hsub : (BitVec.ofNat 64 i - 1).toNat = i - 1 := by
      have hone : (1 : BitVec 64).toNat = 1 := rfl
      have hi : (BitVec.ofNat 64 i).toNat = i := by
        rw [BitVec.toNat_ofNat]
        omega
      rw [BitVec.toNat_sub_of_le (by rw [BitVec.le_def, hone, hi]; exact hpos), hone, hi]
    have hshift : (unsignedShift (BitVec.ofNat 64 i - 1) 6).toNat = (i - 1) / 64 := by
      rw [unsignedShift_eq, BitVec.toNat_ushiftRight, hsub, Nat.shiftRight_eq_div_pow]
      rfl
    have hone : (1 : BitVec 64).toNat = 1 := rfl
    rw [bits2words, BitVec.toNat_setWidth, BitVec.toNat_add, hshift, hone]
    omega

theorem word_ensureCapacityWords (s : OpenBitSet) (n k : Nat) : (s.ensureCapacityWords n).word k = s.word k := by
  rw [ensureCapacityWords]
  split
  · by_cases hk : k < s.bits.length
    · rw [word, word, List.getD_eq_getElem?_getD, List.getElem?_append_left hk, List.getD_eq_getElem?_getD]
    · rw [word_of_length_le (Nat.le_of_not_lt hk), word, List.getD_eq_getElem?_getD,
        List.getElem?_append_right (Nat.le_of_not_lt hk), List.getElem?_replicate]
      split <;> rfl
  · rfl

theorem length_ensureCapacityWords (s : OpenBitSet) (n : Nat) :
    s.bits.length ≤ (s.ensureCapacityWords n).bits.length ∧ n ≤ (s.ensureCapacityWords n).bits.length := by
  have hlt := lt_getNextSize n
  rw [ensureCapacityWords]
  split
  · simp only [List.length_append, List.length_replicate]
    omega
  · omega

@[simp] theorem wlen_ensureCapacityWords (s : OpenBitSet) (n : Nat) : (s.ensureCapacityWords n).wlen = s.wlen := by
  rw [ensureCapacityWords]
  split <;> rfl

theorem has_modify_bit {g : Bool → Bool} (hk : index / 64 < s.bits.length)
    (hf : ∀ j < 64, (f (s.word (index / 64))).getLsbD j =
      if j = index % 64 then g ((s.word (index / 64)).getLsbD j) else (s.word (index / 64)).getLsbD j) (i : Nat) :
    (s.modify (index / 64) f).has i = if i = index then g (s.has i) else s.has i := by
  have hmod := Nat.mod_lt i (show 0 < 64 by decide)
  rw [has_eq, has_eq, word_modify hk]
  by_cases hword : i / 64 = index / 64
  · rw [if_pos hword, hf _ hmod, hword]
    by_cases hbit : i % 64 = index % 64
    · rw [if_pos hbit, if_pos (by omega)]
    · rw [if_neg hbit, if_neg (by omega)]
  · rw [if_neg hword, if_neg (by omega)]

theorem getLsbD_or_bitmask (x : BitVec 64) (index : Nat) {j : Nat} (hj : j < 64) :
    (x ||| bitmask index).getLsbD j = if j = index % 64 then true else x.getLsbD j := by
  rw [BitVec.getLsbD_or, getLsbD_bitmask index hj]
  split <;> simp_all

theorem getLsbD_and_not_bitmask (x : BitVec 64) (index : Nat) {j : Nat} (hj : j < 64) :
    (x &&& ~~~bitmask index).getLsbD j = if j = index % 64 then false else x.getLsbD j := by
  rw [BitVec.getLsbD_and, BitVec.getLsbD_not, getLsbD_bitmask index hj]
  split <;> simp_all

theorem getLsbD_xor_bitmask (x : BitVec 64) (index : Nat) {j : Nat} (hj : j < 64) :
    (x ^^^ bitmask index).getLsbD j = if j = index % 64 then !x.getLsbD j else x.getLsbD j := by
  rw [BitVec.getLsbD_xor, getLsbD_bitmask index hj]
  split <;> simp_all

/-- What a range operation does to a word under a mask and to a whole word, bit by bit. -/
structure Acts (masked : BitVec 64 → BitVec 64 → BitVec 64) (whole : BitVec 64 → BitVec 64) (g : Bool → Bool) : Prop where
  masked : ∀ x m j, j < 64 → (masked x m).getLsbD j = if m.getLsbD j then g (x.getLsbD j) else x.getLsbD j
  whole : ∀ x j, j < 64 → (whole x).getLsbD j = g (x.getLsbD j)

theorem acts_set : Acts (· ||| ·) (fun _ => BitVec.allOnes 64) fun _ => true where
  masked x m j _ := by
    rw [BitVec.getLsbD_or]
    cases m.getLsbD j <;> simp
  whole x j hj := by
    rw [BitVec.getLsbD_allOnes, decide_eq_true hj]

theorem acts_flip : Acts (· ^^^ ·) (~~~ ·) (!·) where
  masked x m j _ := by
    rw [BitVec.getLsbD_xor]
    cases m.getLsbD j <;> simp
  whole x j hj := by
    rw [BitVec.getLsbD_not, decide_eq_true hj, Bool.true_and]

/-- The words of a range: the first and the last one under their masks, those between them whole. -/
theorem has_masked_words {masked : BitVec 64 → BitVec 64 → BitVec 64} {whole : BitVec 64 → BitVec 64} {g : Bool → Bool}
    (hacts : Acts masked whole g) (hlt : startIndex < endIndex) (hlen : (endIndex - 1) / 64 < s.bits.length) (i : Nat) :
    (if startIndex / 64 = (endIndex - 1) / 64 then
        s.modify (startIndex / 64) (masked · (startmask startIndex &&& endmask endIndex))
      else ((s.modify (startIndex / 64) (masked · (startmask startIndex))).mapWords whole (startIndex / 64 + 1)
        ((endIndex - 1) / 64)).modify ((endIndex - 1) / 64) (masked · (endmask endIndex))).has i =
      if startIndex ≤ i ∧ i < endIndex then g (s.has i) else s.has i := by
  have hmod := Nat.mod_lt i (show 0 < 64 by decide)
  have hstart : startIndex / 64 < s.bits.length := lt_of_le_of_lt (Nat.div_le_div_right (by omega)) hlen
  have hendmask := @getLsbD_endmask endIndex (by omega) (i % 64)
  have hstartmask := getLsbD_startmask startIndex hmod
  split
  · rename_i heq
    rw [has_eq, has_eq, word_modify hstart]
    by_cases hword : i / 64 = startIndex / 64
    · rw [if_pos hword, hacts.masked _ _ _ hmod, BitVec.getLsbD_and, hstartmask, hendmask, hword]
      by_cases hin : startIndex ≤ i ∧ i < endIndex
      · rw [if_pos hin, decide_eq_true (by omega), decide_eq_true (by omega), Bool.and_self, if_pos rfl]
      · rw [if_neg hin, if_neg]
        rw [Bool.and_eq_true, decide_eq_true_eq, decide_eq_true_eq]
        omega
    · rw [if_neg hword, if_neg (by omega)]
  · rename_i hne
    have hlen' : (endIndex - 1) / 64 ≤ (s.modify (startIndex / 64) (masked · (startmask startIndex))).bits.length := by
      rw [length_modify]
      omega
    rw [has_eq, has_eq, word_modify (by rw [length_mapWords, length_modify]; exact hlen), word_mapWords hlen',
      word_mapWords hlen', word_modify hstart, word_modify hstart]
    by_cases hfirst : i / 64 = startIndex / 64
    · rw [if_neg (by omega), if_neg (by omega), if_pos hfirst, hacts.masked _ _ _ hmod, hstartmask, hfirst]
      by_cases hin : startIndex % 64 ≤ i % 64
      · rw [if_pos (decide_eq_true hin), if_pos (by omega)]
      · rw [if_neg (by rwa [decide_eq_true_eq]), if_neg (by omega)]
    · by_cases hlast : i / 64 = (endIndex - 1) / 64
      · rw [if_pos hlast, if_neg (by omega), if_neg (by omega), hacts.masked _ _ _ hmod, hendmask, hlast]
        by_cases hin : i % 64 ≤ (endIndex - 1) % 64
        · rw [if_pos (decide_eq_true hin), if_pos (by omega)]
        · rw [if_neg (by rwa [decide_eq_true_eq]), if_neg (by omega)]
      · rw [if_neg hlast, if_neg hfirst]
        by_cases hin : startIndex / 64 + 1 ≤ i / 64 ∧ i / 64 < (endIndex - 1) / 64
        · rw [if_pos hin, hacts.whole _ _ hmod, if_pos (by omega)]
        · rw [if_neg hin, if_neg (by omega)]

end OpenBitSet
end LucenePlusPlus
