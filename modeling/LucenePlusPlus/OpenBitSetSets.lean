import LucenePlusPlus.OpenBitSetWords

/-!
`OpenBitSet` as a finite set of numbers: what each operation does to the set, as long as the words that are not in use
are zero.
-/

namespace LucenePlusPlus
namespace OpenBitSet
open WordBits

variable {s t : OpenBitSet} {index startIndex endIndex i k : Nat}

/-- The words in use are in the array, and the others are zero. -/
structure Valid (s : OpenBitSet) : Prop where
  wlen_le : s.wlen ≤ s.bits.length
  zero : ∀ k, s.wlen ≤ k → s.word k = 0

/-- The numbers of the bits that are set. -/
def elements (s : OpenBitSet) : Finset Nat := (Finset.range (64 * s.bits.length)).filter fun i => s.has i = true

theorem lt_of_has (h : s.has i = true) : i / 64 < s.bits.length := by
  by_contra hle
  rw [has, bit_of_le (Nat.le_of_not_lt hle)] at h
  cases h

theorem mem_elements : i ∈ s.elements ↔ s.has i = true := by
  rw [elements, Finset.mem_filter, Finset.mem_range, and_iff_right_iff_imp]
  intro h
  have hlt := lt_of_has h
  omega

theorem Valid.lt_wlen (h : Valid s) (hi : s.has i = true) : i / 64 < s.wlen := by
  by_contra hle
  rw [has_eq, h.zero _ (Nat.le_of_not_lt hle)] at hi
  exact absurd (BitVec.getLsbD_zero.symm.trans hi) Bool.false_ne_true

theorem valid_of_has (hle : s.wlen ≤ s.bits.length) (h : ∀ i, s.has i = true → i / 64 < s.wlen) : Valid s where
  wlen_le := hle
  zero k hk := by
    apply getD_eq_zero_of_bit_eq (by decide)
    intro j hj
    by_contra hbit
    have hlt := h (64 * k + j) (Bool.eq_true_of_not_eq_false hbit)
    omega

/-- A valid set of these numbers. -/
structure Stands (s : OpenBitSet) (E : Finset Nat) : Prop where
  valid : Valid s
  elements_eq : s.elements = E

theorem stands_of_has {E : Finset Nat} (hle : s.wlen ≤ s.bits.length) (h : ∀ i, s.has i = true ↔ i ∈ E)
    (hlt : ∀ i ∈ E, i / 64 < s.wlen) : Stands s E where
  valid := valid_of_has hle fun i hi => hlt i ((h i).mp hi)
  elements_eq := by
    ext i
    rw [mem_elements, h]

theorem has_congr (h : ∀ k, s.word k = t.word k) (i : Nat) : s.has i = t.has i := by rw [has_eq, has_eq, h]

/-- The array makes room for an index. -/
structure Expanded (s t : OpenBitSet) (index : Nat) : Prop where
  word : ∀ k, t.word k = s.word k
  wlen : t.wlen = max s.wlen (index / 64 + 1)
  wlen_le : t.wlen ≤ t.bits.length

theorem expandingWordNum_spec (h : Valid s) (hi : index < 2 ^ 37) :
    ∃ t, s.expandingWordNum index = (t, index / 64) ∧ Expanded s t index := by
  rw [expandingWordNum]
  simp only [wordNum_eq hi]
  split
  · rename_i hle
    refine ⟨_, rfl, fun k => word_ensureCapacityWords s _ k, (max_eq_right (show s.wlen ≤ index / 64 + 1 by omega)).symm, ?_⟩
    obtain ⟨-, hlen⟩ := length_ensureCapacityWords s (bits2words (index + 1))
    rw [bits2words_eq (by omega)] at hlen
    change index / 64 + 1 ≤ (s.ensureCapacityWords (bits2words (index + 1))).bits.length
    rw [bits2words_eq (by omega)]
    omega
  · rename_i hlt
    exact ⟨s, rfl, fun k => rfl, (max_eq_left (by omega)).symm, h.wlen_le⟩

theorem Valid.ofSize {n : Nat} : Stands (ofSize n) ∅ := by
  apply stands_of_has
  · rw [OpenBitSet.ofSize, List.length_replicate]
  · intro i
    have hzero : (OpenBitSet.ofSize n).word (i / 64) = 0 := by
      rw [OpenBitSet.ofSize, word, List.getD_eq_getElem?_getD, List.getElem?_replicate]
      split <;> rfl
    rw [has_eq, hzero]
    simp
  · intro i hi
    cases hi

theorem Valid.ensureCapacityWords (h : Valid s) (n : Nat) : Stands (s.ensureCapacityWords n) s.elements := by
  obtain ⟨hlen, -⟩ := length_ensureCapacityWords s n
  apply stands_of_has
  · rw [wlen_ensureCapacityWords]
    exact h.wlen_le.trans hlen
  · intro i
    rw [has_congr (word_ensureCapacityWords s n), mem_elements]
  · intro i hi
    rw [wlen_ensureCapacityWords]
    exact h.lt_wlen (mem_elements.mp hi)

theorem Valid.expandingWordNum (h : Valid s) (hi : index < 2 ^ 37) :
    Stands (s.expandingWordNum index).1 s.elements := by
  obtain ⟨t, ht, hexp⟩ := expandingWordNum_spec h hi
  rw [ht]
  refine stands_of_has hexp.wlen_le (fun i => ?_) fun i hmem => ?_
  · rw [has_congr hexp.word, mem_elements]
  · have hlt := h.lt_wlen (mem_elements.mp hmem)
    rw [hexp.wlen]
    omega

theorem trimmed_spec (bits : List (BitVec 64)) (n : Nat) :
    trimmed bits n ≤ n ∧ ∀ k, trimmed bits n ≤ k → k < n → bits.getD k 0 = 0 := by
  induction n with
  | zero => exact ⟨le_rfl, fun k _ hk => absurd hk (Nat.not_lt_zero k)⟩
  | succ n ih =>
      rw [trimmed]
      split
      · rename_i hzero
        refine ⟨ih.1.trans (Nat.le_succ n), fun k hle hlt => ?_⟩
        by_cases hk : k = n
        · rw [hk]
          exact hzero
        · exact ih.2 k hle (by omega)
      · exact ⟨le_rfl, fun k hle hlt => by omega⟩

theorem Valid.trimTrailingZeros (h : Valid s) : Stands s.trimTrailingZeros s.elements := by
  obtain ⟨hle, hzero⟩ := trimmed_spec s.bits s.wlen
  refine ⟨⟨hle.trans h.wlen_le, fun k hk => ?_⟩, rfl⟩
  by_cases hlt : k < s.wlen
  · exact hzero k hk hlt
  · exact h.zero k (Nat.le_of_not_lt hlt)

theorem clone_eq (s : OpenBitSet) : s.clone = s := by
  rw [clone, RingBuffer.arrayCopy]
  simp

theorem Valid.modify_bit {f : BitVec 64 → BitVec 64} {g : Bool → Bool} (h : Valid s) (hk : index / 64 < s.wlen)
    (hf : ∀ j < 64, (f (s.word (index / 64))).getLsbD j =
      if j = index % 64 then g ((s.word (index / 64)).getLsbD j) else (s.word (index / 64)).getLsbD j)
    {E : Finset Nat} (hE : ∀ i, i ∈ E ↔ if i = index then g (s.has i) = true else s.has i = true) :
    Stands (s.modify (index / 64) f) E := by
  have hlen := h.wlen_le
  refine stands_of_has (by rwa [wlen_modify, length_modify]) (fun i => ?_) fun i hi => ?_
  · rw [has_modify_bit (hk.trans_le hlen) hf, hE]
    split <;> rfl
  · rw [wlen_modify]
    rw [hE] at hi
    split at hi
    · rename_i heq
      exact heq ▸ hk
    · exact h.lt_wlen hi

theorem Valid.modify_set (h : Valid s) (hk : index / 64 < s.wlen) :
    Stands (s.modify (index / 64) (· ||| bitmask index)) (insert index s.elements) := by
  refine h.modify_bit (f := (· ||| bitmask index)) (g := fun _ => true) hk (fun j hj => getLsbD_or_bitmask _ _ hj) fun i => ?_
  rw [Finset.mem_insert, mem_elements]
  split <;> simp_all

theorem Valid.modify_flip (h : Valid s) (hk : index / 64 < s.wlen) :
    Stands (s.modify (index / 64) (· ^^^ bitmask index)) (symmDiff s.elements {index}) := by
  refine h.modify_bit (f := (· ^^^ bitmask index)) (g := fun b => !b) hk (fun j hj => getLsbD_xor_bitmask _ _ hj) fun i => ?_
  rw [Finset.mem_symmDiff, Finset.mem_singleton, mem_elements]
  split <;> simp_all

theorem Valid.modify_clear (h : Valid s) (hk : index / 64 < s.bits.length) :
    Stands (s.modify (index / 64) (· &&& ~~~bitmask index)) (s.elements.erase index) := by
  have hhas := @has_modify_bit s (· &&& ~~~bitmask index) index (fun _ => false) hk fun j hj =>
    getLsbD_and_not_bitmask (s.word (index / 64)) index hj
  refine stands_of_has (by rw [wlen_modify, length_modify]; exact h.wlen_le) (fun i => ?_) fun i hi => ?_
  · rw [hhas, Finset.mem_erase, mem_elements]
    split <;> simp_all
  · rw [Finset.mem_erase, mem_elements] at hi
    exact h.lt_wlen hi.2

theorem Expanded.valid (h : Valid s) (hexp : Expanded s t index) : Stands t s.elements ∧ index / 64 < t.wlen := by
  refine ⟨stands_of_has hexp.wlen_le (fun i => ?_) fun i hi => ?_, ?_⟩
  · rw [has_congr hexp.word, mem_elements]
  · have hlt := h.lt_wlen (mem_elements.mp hi)
    rw [hexp.wlen]
    omega
  · rw [hexp.wlen]
    omega

theorem Valid.set (h : Valid s) (hi : index < 2 ^ 37) : Stands (s.set index) (insert index s.elements) := by
  obtain ⟨t, ht, hexp⟩ := expandingWordNum_spec h hi
  obtain ⟨⟨hvalid, helements⟩, hlt⟩ := hexp.valid h
  rw [OpenBitSet.set, ht, ← helements]
  exact hvalid.modify_set hlt

theorem Valid.flip (h : Valid s) (hi : index < 2 ^ 37) : Stands (s.flip index) (symmDiff s.elements {index}) := by
  obtain ⟨t, ht, hexp⟩ := expandingWordNum_spec h hi
  obtain ⟨⟨hvalid, helements⟩, hlt⟩ := hexp.valid h
  rw [OpenBitSet.flip, ht, ← helements]
  exact hvalid.modify_flip hlt

theorem Valid.clear (h : Valid s) (hi : index < 2 ^ 37) : Stands (s.clear index) (s.elements.erase index) := by
  rw [OpenBitSet.clear, wordNum_eq hi]
  split
  · rename_i hle
    have hnot : index ∉ s.elements := by
      intro hmem
      have hlt := h.lt_wlen (mem_elements.mp hmem)
      omega
    rw [Finset.erase_eq_of_notMem hnot]
    exact ⟨h, rfl⟩
  · exact h.modify_clear (lt_of_lt_of_le (by omega) h.wlen_le)

theorem has_eq_fastGet (hi : index < 2 ^ 37) : s.fastGet index = s.has index := by
  rw [fastGet, wordNum_eq hi, and_bitmask_ne_zero, has_eq]

theorem get_eq (hi : index < 2 ^ 37) : s.get index = s.has index := by
  rw [get]
  simp only [wordNum_eq hi, and_bitmask_ne_zero, has_eq]
  split
  · rename_i hle
    rw [word_of_length_le hle]
    exact BitVec.getLsbD_zero.symm
  · rfl

/-! ### Ranges -/

theorem Valid.overRange {masked : BitVec 64 → BitVec 64 → BitVec 64} {whole : BitVec 64 → BitVec 64} {g : Bool → Bool}
    (h : Valid s) (hacts : Acts masked whole g) (hend : endIndex ≤ 2 ^ 37) {E : Finset Nat}
    (hE : ∀ i, i ∈ E ↔ if startIndex ≤ i ∧ i < endIndex then g (s.has i) = true else s.has i = true) :
    Stands (s.overRange masked whole startIndex endIndex) E := by
  rw [OpenBitSet.overRange]
  split
  · rename_i hle
    refine ⟨h, ?_⟩
    ext i
    rw [mem_elements, hE, if_neg (by omega)]
  · rename_i hlt
    obtain ⟨t, ht, hexp⟩ := @expandingWordNum_spec s (endIndex - 1) h (by omega)
    obtain ⟨⟨hvalid, helements⟩, hword⟩ := hexp.valid h
    have hhas := @has_masked_words t startIndex endIndex masked whole g hacts (by omega) (hword.trans_le hvalid.wlen_le)
    simp only [ht, @wordNum_eq startIndex (by omega)]
    set r := if startIndex / 64 = (endIndex - 1) / 64 then
        t.modify (startIndex / 64) (masked · (startmask startIndex &&& endmask endIndex))
      else ((t.modify (startIndex / 64) (masked · (startmask startIndex))).mapWords whole (startIndex / 64 + 1)
        ((endIndex - 1) / 64)).modify ((endIndex - 1) / 64) (masked · (endmask endIndex)) with hr
    have hwlen : r.wlen = t.wlen := by
      rw [hr]
      split <;> rfl
    have hlength : r.bits.length = t.bits.length := by
      rw [hr]
      split <;> simp
    refine stands_of_has (by rw [hwlen, hlength]; exact hvalid.wlen_le) (fun i => ?_) fun i hi => ?_
    · rw [hhas, hE, has_congr hexp.word]
      split <;> rfl
    · rw [hwlen]
      rw [hE] at hi
      split at hi
      · have hle : i / 64 ≤ (endIndex - 1) / 64 := Nat.div_le_div_right (by omega)
        omega
      · rw [← has_congr hexp.word] at hi
        exact hvalid.lt_wlen hi

theorem Valid.setRange (h : Valid s) (hend : endIndex ≤ 2 ^ 37) :
    Stands (s.setRange startIndex endIndex) (s.elements ∪ Finset.Ico startIndex endIndex) := by
  refine h.overRange acts_set hend fun i => ?_
  rw [Finset.mem_union, Finset.mem_Ico, mem_elements]
  split <;> simp_all

theorem Valid.flipRange (h : Valid s) (hend : endIndex ≤ 2 ^ 37) :
    Stands (s.flipRange startIndex endIndex) (symmDiff s.elements (Finset.Ico startIndex endIndex)) := by
  refine h.overRange acts_flip hend fun i => ?_
  rw [Finset.mem_symmDiff, Finset.mem_Ico, mem_elements]
  split <;> simp_all

theorem acts_clear : Acts (fun x m => x &&& ~~~m) (fun _ => 0) fun _ => false where
  masked x m j hj := by
    rw [BitVec.getLsbD_and, BitVec.getLsbD_not, decide_eq_true hj, Bool.true_and]
    cases m.getLsbD j <;> simp
  whole x j _ := BitVec.getLsbD_zero

theorem Valid.stands_cleared (h : Valid s) (hlength : t.bits.length = s.bits.length) (hwlen : t.wlen = s.wlen)
    (hhas : ∀ i, t.has i = if startIndex ≤ i ∧ i < endIndex then false else s.has i) :
    Stands t (s.elements \ Finset.Ico startIndex endIndex) := by
  refine stands_of_has (by rw [hwlen, hlength]; exact h.wlen_le) (fun i => ?_) fun i hi => ?_
  · rw [hhas, Finset.mem_sdiff, Finset.mem_Ico, mem_elements]
    split <;> simp_all
  · rw [Finset.mem_sdiff, mem_elements] at hi
    rw [hwlen]
    exact h.lt_wlen hi.1

theorem Valid.has_cleared_tail (h : Valid s) (hlt : startIndex / 64 < s.wlen) (hend : 64 * s.wlen < endIndex) (i : Nat) :
    ((s.modify (startIndex / 64) (· &&& ~~~startmask startIndex)).mapWords (fun _ => 0) (startIndex / 64 + 1)
      s.wlen).has i = if startIndex ≤ i ∧ i < endIndex then false else s.has i := by
  have hmod := Nat.mod_lt i (show 0 < 64 by decide)
  have hwlen := h.wlen_le
  rw [has_eq, has_eq, word_mapWords (by rw [length_modify]; exact hwlen), word_modify (hlt.trans_le hwlen)]
  by_cases hfirst : i / 64 = startIndex / 64
  · rw [if_neg (by omega), if_pos hfirst, acts_clear.masked _ _ _ hmod, getLsbD_startmask startIndex hmod, hfirst]
    by_cases hin : startIndex % 64 ≤ i % 64
    · rw [if_pos (decide_eq_true hin), if_pos (by omega)]
    · rw [if_neg (by rwa [decide_eq_true_eq]), if_neg (by omega)]
  · by_cases hin : startIndex / 64 + 1 ≤ i / 64 ∧ i / 64 < s.wlen
    · rw [if_pos hin, if_pos (by omega)]
      exact BitVec.getLsbD_zero
    · rw [if_neg hin, if_neg hfirst]
      by_cases hbehind : startIndex ≤ i ∧ i < endIndex
      · rw [if_pos hbehind, h.zero _ (by omega)]
        exact BitVec.getLsbD_zero
      · rw [if_neg hbehind]

/-- The words up to the last one in use are cleared, the first and the last one under their masks. -/
theorem Valid.clearRange (h : Valid s) (hend : endIndex ≤ 2 ^ 37) :
    Stands (s.clearRange startIndex endIndex) (s.elements \ Finset.Ico startIndex endIndex) := by
  have hwlen := h.wlen_le
  rw [OpenBitSet.clearRange]
  split
  · rename_i hle
    rw [Finset.Ico_eq_empty_of_le hle, Finset.sdiff_empty]
    exact ⟨h, rfl⟩
  · rename_i hlt
    simp only [@wordNum_eq startIndex (by omega), @wordNum_eq (endIndex - 1) (by omega)]
    split
    · rename_i hbehind
      refine ⟨h, ?_⟩
      ext i
      rw [Finset.mem_sdiff, Finset.mem_Ico, mem_elements, iff_self_and]
      intro hi
      have hin := h.lt_wlen hi
      omega
    · rename_i hbehind
      by_cases hlast : (endIndex - 1) / 64 < s.wlen
      · have hhas := @has_masked_words s startIndex endIndex _ _ _ acts_clear (by omega) (hlast.trans_le hwlen)
        rw [BitVec.not_and] at hhas
        rw [min_eq_right (by rw [wlen_modify]; exact hlast.le)]
        simp only [wlen_mapWords, wlen_modify, hlast, if_true]
        refine h.stands_cleared ?_ ?_ hhas
        · split <;> simp
        · split <;> rfl
      · have hne : ¬ startIndex / 64 = (endIndex - 1) / 64 := by omega
        simp only [wlen_mapWords, wlen_modify, hlast, hne, if_false, min_eq_left (Nat.le_of_not_lt hlast)]
        exact h.stands_cleared (by simp) rfl (h.has_cleared_tail (by omega) (by omega))

theorem Valid.combine {g : BitVec 64 → BitVec 64 → BitVec 64} {p : Bool → Bool → Bool} (hs : Valid s)
    (hg : ∀ x y j, j < 64 → (g x y).getLsbD j = p (x.getLsbD j) (y.getLsbD j)) (i : Nat) :
    (OpenBitSet.combine t g (min s.wlen t.wlen) s).has i =
      if i / 64 < min s.wlen t.wlen then p (s.has i) (t.has i) else s.has i := by
  have hmod := Nat.mod_lt i (show 0 < 64 by decide)
  rw [has_eq, word_combine (le_trans (min_le_left _ _) hs.wlen_le)]
  split
  · rw [hg _ _ _ hmod, has_eq, has_eq]
  · rw [has_eq]

theorem Valid.remove (hs : Valid s) (ht : Valid t) : Stands (s.remove t) (s.elements \ t.elements) := by
  have hhas := @Valid.combine s t (fun x y => x &&& ~~~y) (fun x y => x && !y) hs (fun x y j hj => by
    rw [BitVec.getLsbD_and, BitVec.getLsbD_not, decide_eq_true hj, Bool.true_and])
  rw [OpenBitSet.remove]
  refine stands_of_has (by rw [wlen_combine, length_combine]; exact hs.wlen_le) (fun i => ?_) fun i hi => ?_
  · rw [hhas, Finset.mem_sdiff, mem_elements, mem_elements]
    split
    · simp
    · rename_i hge
      rw [iff_self_and]
      intro his hit
      have hlt := hs.lt_wlen his
      have hlt' := ht.lt_wlen hit
      omega
  · rw [Finset.mem_sdiff, mem_elements] at hi
    rw [wlen_combine]
    exact hs.lt_wlen hi.1

theorem Valid.intersect (hs : Valid s) (ht : Valid t) : Stands (s.intersect t) (s.elements ∩ t.elements) := by
  have hhas := @Valid.combine s t (· &&& ·) (· && ·) hs fun x y j _ => BitVec.getLsbD_and
  have hlength := @length_combine t (· &&& ·) (min s.wlen t.wlen) s
  have hle := hs.wlen_le
  set u := OpenBitSet.combine t (· &&& ·) (min s.wlen t.wlen) s with hu
  have hword : ∀ i, (s.intersect t).has i = if i / 64 < min s.wlen t.wlen then s.has i && t.has i else false := by
    intro i
    rw [OpenBitSet.intersect, ← hu]
    by_cases hshort : min s.wlen t.wlen < s.wlen
    · simp only [hshort, if_true]
      change (u.mapWords (fun _ => 0) (min s.wlen t.wlen) s.wlen).has i = _
      rw [has_eq, word_mapWords (by rw [hlength]; exact hle)]
      by_cases hin : i / 64 < min s.wlen t.wlen
      · rw [if_neg (by omega), if_pos hin, ← has_eq, hhas, if_pos hin]
      · rw [if_neg hin]
        by_cases hmid : i / 64 < s.wlen
        · rw [if_pos ⟨Nat.le_of_not_lt hin, hmid⟩]
          exact BitVec.getLsbD_zero
        · rw [if_neg (by omega), ← has_eq, hhas, if_neg hin, has_eq, hs.zero _ (Nat.le_of_not_lt hmid)]
          exact BitVec.getLsbD_zero
    · simp only [hshort, if_false]
      change u.has i = _
      rw [hhas]
      split
      · rfl
      · rw [has_eq, hs.zero _ (by omega)]
        exact BitVec.getLsbD_zero
  have hbits : (s.intersect t).bits.length = s.bits.length := by
    rw [OpenBitSet.intersect]
    by_cases hshort : min s.wlen t.wlen < s.wlen
    · simp only [hshort, if_true, length_mapWords, length_combine]
    · simp only [hshort, if_false, length_combine]
  refine stands_of_has ?_ (fun i => ?_) fun i hi => ?_
  · rw [hbits]
    exact le_trans (min_le_left _ _) hle
  · rw [hword, Finset.mem_inter, mem_elements, mem_elements]
    split
    · rw [Bool.and_eq_true]
    · rename_i hge
      refine iff_of_false Bool.false_ne_true fun hboth => hge ?_
      exact lt_min (hs.lt_wlen hboth.1) (ht.lt_wlen hboth.2)
  · rw [Finset.mem_inter, mem_elements, mem_elements] at hi
    exact lt_min (hs.lt_wlen hi.1) (ht.lt_wlen hi.2)

/-- Each word is combined with that of the other set, where one that is not in use is zero. -/
theorem Valid.extend {g : BitVec 64 → BitVec 64 → BitVec 64} (hs : Valid s) (ht : Valid t) (hleft : ∀ y, g 0 y = y)
    (hright : ∀ x, g x 0 = x) :
    (s.extend t g).wlen = max s.wlen t.wlen ∧ max s.wlen t.wlen ≤ (s.extend t g).bits.length ∧
      ∀ k, (s.extend t g).word k = g (s.word k) (t.word k) := by
  obtain ⟨hlen, hroom⟩ := length_ensureCapacityWords s (max s.wlen t.wlen)
  have hs' := hs.wlen_le
  have ht' := ht.wlen_le
  have hword := fun k => @word_combine (s.ensureCapacityWords (max s.wlen t.wlen)) t g (min s.wlen t.wlen) (by omega) k
  have hlength := @length_combine t g (min s.wlen t.wlen) (s.ensureCapacityWords (max s.wlen t.wlen))
  simp only [word_ensureCapacityWords] at hword
  rw [OpenBitSet.extend]
  set u := OpenBitSet.combine t g (min s.wlen t.wlen) (s.ensureCapacityWords (max s.wlen t.wlen)) with hu
  dsimp only
  by_cases hshort : s.wlen < max s.wlen t.wlen
  · rw [if_pos hshort]
    have hsrc : s.wlen + (max s.wlen t.wlen - s.wlen) ≤ t.bits.length := by omega
    have hdst : s.wlen + (max s.wlen t.wlen - s.wlen) ≤ u.bits.length := by omega
    refine ⟨rfl, ?_, fun k => ?_⟩
    · rw [length_arrayCopy hsrc hdst]
      omega
    · change (RingBuffer.arrayCopy t.bits s.wlen u.bits s.wlen (max s.wlen t.wlen - s.wlen)).getD k 0 = _
      rw [getD_arrayCopy hsrc hdst]
      split
      · rename_i hk
        rw [hs.zero k hk.1, hleft]
        rfl
      · rename_i hk
        change u.word k = _
        rw [hword]
        split
        · rfl
        · rw [hs.zero k (by omega), ht.zero k (by omega), hleft]
  · rw [if_neg hshort]
    refine ⟨rfl, show max s.wlen t.wlen ≤ u.bits.length by omega, fun k => ?_⟩
    change u.word k = _
    rw [hword]
    split
    · rfl
    · rw [ht.zero k (by omega), hright]

theorem Valid.stands_extend {g : BitVec 64 → BitVec 64 → BitVec 64} {E : Finset Nat} (hs : Valid s) (ht : Valid t)
    (hleft : ∀ y, g 0 y = y) (hright : ∀ x, g x 0 = x)
    (hE : ∀ i, i ∈ E ↔ (g (s.word (i / 64)) (t.word (i / 64))).getLsbD (i % 64) = true) : Stands (s.extend t g) E := by
  obtain ⟨hwlen, hlen, hword⟩ := hs.extend ht hleft hright
  refine stands_of_has (hwlen ▸ hlen) (fun i => ?_) fun i hi => ?_
  · rw [has_eq, hword, hE]
  · rw [hE] at hi
    by_contra hge
    rw [hwlen] at hge
    rw [hs.zero _ (by omega), ht.zero _ (by omega), hleft] at hi
    exact absurd (BitVec.getLsbD_zero.symm.trans hi) Bool.false_ne_true

theorem Valid.union (hs : Valid s) (ht : Valid t) : Stands (s.union t) (s.elements ∪ t.elements) := by
  refine hs.stands_extend ht (fun y => BitVec.zero_or) (fun x => BitVec.or_zero) fun i => ?_
  rw [Finset.mem_union, mem_elements, mem_elements, BitVec.getLsbD_or, Bool.or_eq_true, has_eq, has_eq]

theorem Valid.xor (hs : Valid s) (ht : Valid t) : Stands (s.xor t) (symmDiff s.elements t.elements) := by
  refine hs.stands_extend ht (fun y => BitVec.zero_xor) (fun x => BitVec.xor_zero) fun i => ?_
  rw [Finset.mem_symmDiff, mem_elements, mem_elements, BitVec.getLsbD_xor, has_eq, has_eq]
  cases (s.word (i / 64)).getLsbD (i % 64) <;> cases (t.word (i / 64)).getLsbD (i % 64) <;> simp

end OpenBitSet
end LucenePlusPlus
