import LucenePlusPlus.BitSet
import LucenePlusPlus.OpenBitSetExact

/-!
The hash codes of `BitSet` and `OpenBitSet`: a fold over the words that rotates after each. Down from the last word,
words that are zero leave the zero at the start as it is; up from the first word, they rotate what is already there.
-/

namespace LucenePlusPlus

/-- What both hash codes make of the folded words. -/
def foldBits (hash : BitVec 64) : BitVec 32 := (hash.sshiftRight 32 ^^^ hash).setWidth 32 + 0x98761234

namespace BitSet

variable {a b : BitSet}

/-- `computeHash`; the shift by 63 keeps the sign. -/
def computeHash (hash block : BitVec 64) : BitVec 64 :=
  let hash := hash ^^^ block
  (hash <<< 1) ||| hash.sshiftRight 63

def hashCode (a : BitSet) : BitVec 32 := foldBits (a.blocks.foldl computeHash 0)

theorem getLsbD_block (a : BitSet) (k : Nat) {j : Nat} (hj : j < 64) : (a.block k).getLsbD j = a.get (64 * k + j) := by
  rw [block, BitVec.getLsbD_setWidth, BitVec.getLsbD_ofBoolListLE, List.getD_eq_getElem?_getD,
    List.getElem?_take_of_lt hj, List.getElem?_drop, get, List.getD_eq_getElem?_getD, decide_eq_true hj, Bool.true_and]

theorem block_congr (h : ∀ i, a.get i = b.get i) (k : Nat) : a.block k = b.block k := by
  apply BitVec.eq_of_getLsbD_eq
  intro j hj
  rw [getLsbD_block a k hj, getLsbD_block b k hj, h]

theorem hashCode_congr (h : ∀ i, a.get i = b.get i) (hblocks : a.numBlocks = b.numBlocks) :
    a.hashCode = b.hashCode := by
  have heq : a.blocks = b.blocks := by
    rw [blocks, blocks, hblocks]
    exact List.map_congr_left fun k _ => block_congr h k
  rw [hashCode, hashCode, heq]

theorem foldl_computeHash_zero (l : List (BitVec 64)) (h : ∀ x ∈ l, x = 0) : l.foldl computeHash 0 = 0 := by
  induction l with
  | nil => rfl
  | cons x l ih =>
      obtain rfl := h x List.mem_cons_self
      exact ih fun y hy => h y (List.mem_cons_of_mem _ hy)

theorem hashCode_of_isEmpty (h : a.isEmpty = true) : a.hashCode = foldBits 0 := by
  rw [isEmpty_iff] at h
  rw [hashCode, foldl_computeHash_zero]
  intro x hx
  obtain ⟨k, -, rfl⟩ := List.mem_map.mp hx
  apply BitVec.eq_of_getLsbD_eq
  intro j hj
  rw [getLsbD_block a k hj, h]
  exact (BitVec.getLsbD_zero).symm

end BitSet

namespace OpenBitSet

variable {s t : OpenBitSet}

def computeHash (hash word : BitVec 64) : BitVec 64 :=
  let hash := hash ^^^ word
  (hash <<< 1) ||| unsignedShift hash 63

/-- The loop down from the word before `n`. -/
def hashBelow (s : OpenBitSet) : Nat → BitVec 64 → BitVec 64
  | 0, hash => hash
  | i + 1, hash => hashBelow s i (computeHash hash (s.word i))

def hashCode (s : OpenBitSet) : BitVec 32 := foldBits (s.hashBelow s.bits.length 0)

theorem hashBelow_congr (h : ∀ k, s.word k = t.word k) (n : Nat) (hash : BitVec 64) :
    s.hashBelow n hash = t.hashBelow n hash := by
  induction n generalizing hash with
  | zero => rfl
  | succ n ih => rw [hashBelow, hashBelow, h, ih]

theorem hashBelow_add {m : Nat} (h : ∀ k, m ≤ k → s.word k = 0) (n : Nat) :
    s.hashBelow (m + n) 0 = s.hashBelow m 0 := by
  induction n with
  | zero => rfl
  | succ n ih =>
      rw [← Nat.add_assoc, hashBelow, h (m + n) (Nat.le_add_right m n)]
      exact ih

theorem hashCode_congr (h : ∀ k, s.word k = t.word k) : s.hashCode = t.hashCode := by
  have hshort : ∀ {s t : OpenBitSet}, (∀ k, s.word k = t.word k) → s.bits.length ≤ t.bits.length →
      s.hashBelow s.bits.length 0 = t.hashBelow t.bits.length 0 := by
    intro s t h hle
    obtain ⟨n, hn⟩ := Nat.exists_eq_add_of_le hle
    rw [hashBelow_congr h, hn, hashBelow_add fun k hk => (h k).symm.trans (word_of_length_le hk)]
  rw [hashCode, hashCode]
  rcases Nat.le_total s.bits.length t.bits.length with hle | hle
  · rw [hshort h hle]
  · rw [hshort (fun k => (h k).symm) hle]

end OpenBitSet

theorem getD_replicate_false (n i : Nat) : (List.replicate n false).getD i false = false := by
  rw [List.getD_eq_getElem?_getD, List.getElem?_replicate]
  split <;> rfl

/-- The same bits make two sets equal, and equal sets have the same hash code, as far as they have the same room. -/
structure BitSet.Hashed (a b : BitSet) : Prop where
  equals : a.equals b = true ↔ ∀ i, a.get i = b.get i
  hashCode : a.equals b = true → a.numBlocks = b.numBlocks ∨ a.isEmpty = true → a.hashCode = b.hashCode

structure OpenBitSet.Hashed (s t : OpenBitSet) : Prop where
  equals : s.equals t = true ↔ s.elements = t.elements
  hashCode : s.equals t = true → s.hashCode = t.hashCode

theorem BitSet.hashed (a b : BitSet) : a.Hashed b where
  equals := a.equals_iff b
  hashCode heq := by
    rw [equals_iff] at heq
    rintro (hblocks | hempty)
    · exact hashCode_congr heq hblocks
    · have hempty' : b.isEmpty = true := by
        rw [isEmpty_iff] at hempty ⊢
        exact fun i => (heq i).symm.trans (hempty i)
      rw [hashCode_of_isEmpty hempty, hashCode_of_isEmpty hempty']

theorem OpenBitSet.Valid.hashed {s t : OpenBitSet} (hs : Valid s) (ht : Valid t) : s.Hashed t where
  equals := hs.equals ht
  hashCode heq := hashCode_congr (elements_eq_iff.mp ((hs.equals ht).mp heq))

theorem equal_sets_hashed {s t : OpenBitSet} (hs : OpenBitSet.Reachable s) (ht : OpenBitSet.Reachable t)
    (a b : BitSet) : a.Hashed b ∧ s.Hashed t :=
  ⟨a.hashed b, hs.valid.hashed ht.valid⟩

theorem equal_sets_hashed_two :
    (BitSet.ofSize 64).Hashed (BitSet.ofSize 3) ∧ ((OpenBitSet.ofSize 64).set 5).Hashed (OpenBitSet.ofSize 640) :=
  equal_sets_hashed (.set (.ofSize (by decide)) (by unfold OpenBitSet.Roomy; decide)) (.ofSize (by decide)) _ _

/-- One block more, and the same bit has another hash code. -/
theorem longer_set_hashes_otherwise : ∃ a b, (BitSet.ofSize 64).set 0 true = some a ∧
    (BitSet.ofSize 128).set 0 true = some b ∧ a.equals b = true ∧ a.hashCode ≠ b.hashCode := by
  refine ⟨⟨true :: List.replicate 63 false⟩, ⟨true :: List.replicate 127 false⟩, by decide +kernel, by decide +kernel,
    ?_, by decide +kernel⟩
  rw [BitSet.equals_iff]
  intro i
  cases i with
  | zero => rfl
  | succ i => simp only [BitSet.get, List.getD_cons_succ, getD_replicate_false]

end LucenePlusPlus
