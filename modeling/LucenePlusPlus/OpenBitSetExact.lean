import LucenePlusPlus.OpenBitSetCounts

/-!
`OpenBitSet` over whole runs: as long as the fast operations are used on the words in use, each operation is that on
finite sets of numbers.
-/

namespace LucenePlusPlus
namespace OpenBitSet

variable {s t : OpenBitSet} {index startIndex endIndex : Nat}

/-- The number of the word is an `int32_t`. -/
def Indexed (index : Nat) : Prop := index < 2 ^ 37

/-- So is the length of an array that is made for so many words. -/
def Roomy (numWords : Nat) : Prop := getNextSize numWords < 2 ^ 31

theorem indexed_of_roomy (h : Roomy (index / 64 + 1)) : index < 2 ^ 37 := by
  have hlt := lt_getNextSize (index / 64 + 1)
  rw [Roomy] at h
  omega

/-- The word of the index is in use. -/
def InUse (s : OpenBitSet) (index : Nat) : Prop := index < 2 ^ 37 ∧ index / 64 < s.wlen

/-- The states of a set whose fast operations are used on the words in use; `fastClear` may go to the end of the array.
An array has at most `2 ^ 31 - 1` words. -/
inductive Reachable : OpenBitSet → Prop
  | ofSize {numBits : Nat} (h : numBits ≤ 2 ^ 37 - 64) : Reachable (ofSize numBits)
  | ofArray {bits : List (BitVec 64)} {numWords : Nat} (hlength : bits.length < 2 ^ 31) (h : numWords ≤ bits.length)
      (hzero : ∀ k, numWords ≤ k → bits.getD k 0 = 0) : Reachable ⟨bits, numWords⟩
  | set {s : OpenBitSet} {index : Nat} (h : Reachable s) (hi : Roomy (index / 64 + 1)) : Reachable (s.set index)
  | fastSet {s : OpenBitSet} {index : Nat} (h : Reachable s) (hi : s.InUse index) : Reachable (s.fastSet index)
  | getAndSet {s : OpenBitSet} {index : Nat} (h : Reachable s) (hi : s.InUse index) : Reachable (s.getAndSet index).2
  | clear {s : OpenBitSet} {index : Nat} (h : Reachable s) (hi : Indexed index) : Reachable (s.clear index)
  | fastClear {s : OpenBitSet} {index : Nat} (h : Reachable s) (hi : Indexed index)
      (hlt : index / 64 < s.bits.length) : Reachable (s.fastClear index)
  | flip {s : OpenBitSet} {index : Nat} (h : Reachable s) (hi : Roomy (index / 64 + 1)) : Reachable (s.flip index)
  | fastFlip {s : OpenBitSet} {index : Nat} (h : Reachable s) (hi : s.InUse index) : Reachable (s.fastFlip index)
  | flipAndGet {s : OpenBitSet} {index : Nat} (h : Reachable s) (hi : s.InUse index) : Reachable (s.flipAndGet index).2
  | setRange {s : OpenBitSet} {startIndex endIndex : Nat} (h : Reachable s) (hi : Roomy ((endIndex - 1) / 64 + 1)) :
      Reachable (s.setRange startIndex endIndex)
  | clearRange {s : OpenBitSet} {startIndex endIndex : Nat} (h : Reachable s) (hi : endIndex ≤ 2 ^ 37) :
      Reachable (s.clearRange startIndex endIndex)
  | flipRange {s : OpenBitSet} {startIndex endIndex : Nat} (h : Reachable s) (hi : Roomy ((endIndex - 1) / 64 + 1)) :
      Reachable (s.flipRange startIndex endIndex)
  | intersect {s t : OpenBitSet} (h : Reachable s) (h' : Reachable t) : Reachable (s.intersect t)
  | union {s t : OpenBitSet} (h : Reachable s) (h' : Reachable t) (hroom : Roomy (max s.wlen t.wlen)) :
      Reachable (s.union t)
  | xor {s t : OpenBitSet} (h : Reachable s) (h' : Reachable t) (hroom : Roomy (max s.wlen t.wlen)) :
      Reachable (s.xor t)
  | remove {s t : OpenBitSet} (h : Reachable s) (h' : Reachable t) : Reachable (s.remove t)
  | ensureCapacityWords {s : OpenBitSet} {numWords : Nat} (h : Reachable s) (hroom : Roomy numWords) :
      Reachable (s.ensureCapacityWords numWords)
  | expandingWordNum {s : OpenBitSet} {index : Nat} (h : Reachable s) (hi : Roomy (index / 64 + 1)) :
      Reachable (s.expandingWordNum index).1
  | trimTrailingZeros {s : OpenBitSet} (h : Reachable s) : Reachable s.trimTrailingZeros
  | clone {s : OpenBitSet} (h : Reachable s) : Reachable s.clone

theorem indexed_end (h : Roomy ((endIndex - 1) / 64 + 1)) : endIndex ≤ 2 ^ 37 := by
  have hlt := indexed_of_roomy h
  omega

theorem Valid.fastSet (h : Valid s) (hi : s.InUse index) : Stands (s.fastSet index) (insert index s.elements) := by
  rw [OpenBitSet.fastSet, wordNum_eq hi.1]
  exact h.modify_set hi.2

theorem Valid.fastFlip (h : Valid s) (hi : s.InUse index) :
    Stands (s.fastFlip index) (symmDiff s.elements {index}) := by
  rw [OpenBitSet.fastFlip, wordNum_eq hi.1]
  exact h.modify_flip hi.2

theorem Valid.fastClear (h : Valid s) (hi : Indexed index) (hlt : index / 64 < s.bits.length) :
    Stands (s.fastClear index) (s.elements.erase index) := by
  rw [OpenBitSet.fastClear, wordNum_eq hi]
  exact h.modify_clear hlt

theorem Reachable.valid (h : Reachable s) : Valid s := by
  induction h with
  | ofSize => exact Valid.ofSize.valid
  | ofArray _ h hzero => exact ⟨h, hzero⟩
  | set _ hi ih => exact (ih.set (indexed_of_roomy hi)).valid
  | fastSet _ hi ih => exact (ih.fastSet hi).valid
  | getAndSet _ hi ih => exact (ih.fastSet hi).valid
  | clear _ hi ih => exact (ih.clear hi).valid
  | fastClear _ hi hlt ih => exact (ih.fastClear hi hlt).valid
  | flip _ hi ih => exact (ih.flip (indexed_of_roomy hi)).valid
  | fastFlip _ hi ih => exact (ih.fastFlip hi).valid
  | flipAndGet _ hi ih => exact (ih.fastFlip hi).valid
  | setRange _ hi ih => exact (ih.setRange (indexed_end hi)).valid
  | clearRange _ hi ih => exact (ih.clearRange hi).valid
  | flipRange _ hi ih => exact (ih.flipRange (indexed_end hi)).valid
  | intersect _ _ ih ih' => exact (ih.intersect ih').valid
  | union _ _ _ ih ih' => exact (ih.union ih').valid
  | xor _ _ _ ih ih' => exact (ih.xor ih').valid
  | remove _ _ ih ih' => exact (ih.remove ih').valid
  | ensureCapacityWords _ _ ih => exact (ih.ensureCapacityWords _).valid
  | expandingWordNum _ hi ih => exact (ih.expandingWordNum (indexed_of_roomy hi)).valid
  | trimTrailingZeros _ ih => exact ih.trimTrailingZeros.valid
  | clone _ ih => exact (clone_eq _).symm ▸ ih

/-- The operations on two sets and what they tell are those on finite sets, and the words that are not in use are zero. -/
structure Exact (s t : OpenBitSet) : Prop where
  zeroTail : ∀ k, s.wlen ≤ k → s.word k = 0
  get : ∀ index, Indexed index → (s.get index = true ↔ index ∈ s.elements)
  fastGet : ∀ index, Indexed index → index / 64 < s.bits.length → (s.fastGet index = true ↔ index ∈ s.elements)
  set : ∀ index, Roomy (index / 64 + 1) → (s.set index).elements = insert index s.elements
  fastSet : ∀ index, s.InUse index → (s.fastSet index).elements = insert index s.elements
  getAndSet : ∀ index, s.InUse index → ((s.getAndSet index).1 = true ↔ index ∈ s.elements) ∧
    (s.getAndSet index).2.elements = insert index s.elements
  clear : ∀ index, Indexed index → (s.clear index).elements = s.elements.erase index
  fastClear : ∀ index, Indexed index → index / 64 < s.bits.length →
    (s.fastClear index).elements = s.elements.erase index
  flip : ∀ index, Roomy (index / 64 + 1) → (s.flip index).elements = symmDiff s.elements {index}
  fastFlip : ∀ index, s.InUse index → (s.fastFlip index).elements = symmDiff s.elements {index}
  flipAndGet : ∀ index, s.InUse index → ((s.flipAndGet index).1 = true ↔ index ∉ s.elements) ∧
    (s.flipAndGet index).2.elements = symmDiff s.elements {index}
  setRange : ∀ startIndex endIndex, Roomy ((endIndex - 1) / 64 + 1) →
    (s.setRange startIndex endIndex).elements = s.elements ∪ Finset.Ico startIndex endIndex
  clearRange : ∀ startIndex endIndex, endIndex ≤ 2 ^ 37 →
    (s.clearRange startIndex endIndex).elements = s.elements \ Finset.Ico startIndex endIndex
  flipRange : ∀ startIndex endIndex, Roomy ((endIndex - 1) / 64 + 1) →
    (s.flipRange startIndex endIndex).elements = symmDiff s.elements (Finset.Ico startIndex endIndex)
  expandingWordNum : ∀ index, Roomy (index / 64 + 1) → (s.expandingWordNum index).1.elements = s.elements
  trimTrailingZeros : s.trimTrailingZeros.elements = s.elements
  clone : s.clone.elements = s.elements
  intersect : (s.intersect t).elements = s.elements ∩ t.elements
  union : (s.union t).elements = s.elements ∪ t.elements
  xor : (s.xor t).elements = symmDiff s.elements t.elements
  remove : (s.remove t).elements = s.elements \ t.elements
  cardinality : s.cardinality = s.elements.card
  isEmpty : s.isEmpty = true ↔ s.elements = ∅
  nextSetBit : ∀ index, Indexed index → IsNext s.elements index (s.nextSetBit index)
  nextSetBit32 : ∀ index < 2 ^ 31, s.nextSetBit32 index = toInt32 (s.nextSetBit index)
  intersectionCount : intersectionCount s t = (s.elements ∩ t.elements).card
  unionCount : unionCount s t = (s.elements ∪ t.elements).card
  xorCount : xorCount s t = (symmDiff s.elements t.elements).card
  andNotCount : andNotCount s t = (s.elements \ t.elements).card
  equals : s.equals t = true ↔ s.elements = t.elements
  intersects : s.intersects t = true ↔ (s.elements ∩ t.elements).Nonempty

theorem getAndSet_iff (hi : s.InUse index) : (s.getAndSet index).1 = true ↔ index ∈ s.elements := by
  rw [OpenBitSet.getAndSet, wordNum_eq hi.1, mem_elements, has_eq, ← and_bitmask_ne_zero]

theorem Valid.flipAndGet (h : Valid s) (hi : s.InUse index) : (s.flipAndGet index).1 = true ↔ index ∉ s.elements := by
  have hflip := (h.fastFlip hi).elements_eq
  have hmem : index ∈ (s.fastFlip index).elements ↔ index ∉ s.elements := by
    rw [hflip, Finset.mem_symmDiff, Finset.mem_singleton]
    simp
  rw [← hmem, mem_elements, has_eq, ← and_bitmask_ne_zero, OpenBitSet.flipAndGet, OpenBitSet.fastFlip, wordNum_eq hi.1]

/-- Whatever is done with the sets, they are the finite sets of their numbers. -/
theorem sets_exact (h : Reachable s) (h' : Reachable t) : Exact s t where
  zeroTail := h.valid.zero
  get index hi := by rw [get_eq hi, mem_elements]
  fastGet index hi _ := by rw [has_eq_fastGet hi, mem_elements]
  set index hi := (h.valid.set (indexed_of_roomy hi)).elements_eq
  fastSet index hi := (h.valid.fastSet hi).elements_eq
  getAndSet index hi := ⟨getAndSet_iff hi, (h.valid.fastSet hi).elements_eq⟩
  clear index hi := (h.valid.clear hi).elements_eq
  fastClear index hi hlt := (h.valid.fastClear hi hlt).elements_eq
  flip index hi := (h.valid.flip (indexed_of_roomy hi)).elements_eq
  fastFlip index hi := (h.valid.fastFlip hi).elements_eq
  flipAndGet index hi := ⟨h.valid.flipAndGet hi, (h.valid.fastFlip hi).elements_eq⟩
  setRange startIndex endIndex hi := (h.valid.setRange (indexed_end hi)).elements_eq
  clearRange startIndex endIndex hi := (h.valid.clearRange hi).elements_eq
  flipRange startIndex endIndex hi := (h.valid.flipRange (indexed_end hi)).elements_eq
  expandingWordNum index hi := (h.valid.expandingWordNum (indexed_of_roomy hi)).elements_eq
  trimTrailingZeros := h.valid.trimTrailingZeros.elements_eq
  clone := congrArg elements (clone_eq s)
  intersect := (h.valid.intersect h'.valid).elements_eq
  union := (h.valid.union h'.valid).elements_eq
  xor := (h.valid.xor h'.valid).elements_eq
  remove := (h.valid.remove h'.valid).elements_eq
  cardinality := h.valid.cardinality
  isEmpty := h.valid.isEmpty
  nextSetBit index hi := h.valid.isNext_nextSetBit hi
  nextSetBit32 index hi := h.valid.nextSetBit32_eq (by omega)
  intersectionCount := h.valid.intersectionCount h'.valid
  unionCount := h.valid.unionCount h'.valid
  xorCount := h.valid.xorCount h'.valid
  andNotCount := h.valid.andNotCount h'.valid
  equals := h.valid.equals h'.valid
  intersects := h.valid.intersects h'.valid

theorem sets_exact_two : Exact ((ofSize 64).set 5) ((ofSize 10).setRange 3 9) :=
  sets_exact (.set (.ofSize (by decide)) (by unfold Roomy; decide)) (.setRange (.ofSize (by decide)) (by unfold Roomy; decide))

/-- A bit in the room that `set` has made is found, but not counted. -/
theorem fastSet_not_counted : Reachable ((ofSize 64).set 64) ∧ 200 < ((ofSize 64).set 64).capacity ∧
    (((ofSize 64).set 64).fastSet 200).get 200 = true ∧ (((ofSize 64).set 64).fastSet 200).cardinality = 1 ∧
    ¬ Exact (((ofSize 64).set 64).fastSet 200) (ofSize 64) := by
  refine ⟨.set (.ofSize (by decide)) (by unfold Roomy; decide), by decide +kernel, by decide +kernel, by decide +kernel,
    fun h => ?_⟩
  have hword := h.zeroTail 3 (by decide +kernel)
  exact absurd hword (by decide +kernel)

end OpenBitSet
end LucenePlusPlus
