import Mathlib.Data.List.Basic
import Mathlib.Tactic

/-!
The part of `SegmentReader` that deletion code reads and writes. A reader holds at most one
`BitVector` of deleted documents; the vector's size is the reader's `maxDoc`, which the structure
carries as a field. Sharing of a vector between clones is invisible here: `doDelete` clones a shared
vector before it writes, so every reader is a value of its own.
-/

namespace LucenePlusPlus

/-- `BitVector`, one boolean per document. -/
structure BitVector where
  bits : List Bool
  deriving DecidableEq, Repr

namespace BitVector

def ofSize (n : Nat) : BitVector := ⟨List.replicate n false⟩

def size (v : BitVector) : Nat := v.bits.length

def get (v : BitVector) (bit : Nat) : Bool := v.bits.getD bit false

/-- The old value of the bit and the vector with the bit set; `none` is the
`IndexOutOfBoundsException`. -/
def getAndSet (v : BitVector) (bit : Nat) : Option (Bool × BitVector) :=
  if bit < v.size then some (v.get bit, ⟨v.bits.set bit true⟩) else none

def count (v : BitVector) : Nat := v.bits.count true

@[simp] theorem size_ofSize (n : Nat) : (ofSize n).size = n := by simp [ofSize, size]

theorem count_le_size (v : BitVector) : v.count ≤ v.size := List.count_le_length

theorem size_getAndSet {v w : BitVector} {bit : Nat} {old : Bool}
    (h : v.getAndSet bit = some (old, w)) : w.size = v.size := by
  unfold getAndSet at h
  split at h
  · simp only [Option.some.injEq, Prod.mk.injEq] at h
    simp [← h.2, size]
  · cases h

end BitVector

structure SegmentReader where
  maxDoc : Nat
  deletedDocs : Option BitVector
  pendingDeleteCount : Nat
  deletedDocsDirty : Bool
  hasChanges : Bool
  size_eq : ∀ v, deletedDocs = some v → v.size = maxDoc

namespace SegmentReader

/-- A reader of a segment that has no deletions file. -/
def fresh (maxDoc : Nat) : SegmentReader :=
  { maxDoc, deletedDocs := none, pendingDeleteCount := 0, deletedDocsDirty := false,
    hasChanges := false, size_eq := by simp }

/-- A reader whose deleted documents are the set bits of `bits`. -/
def ofBits (bits : List Bool) : SegmentReader :=
  { maxDoc := bits.length, deletedDocs := some ⟨bits⟩, pendingDeleteCount := 0,
    deletedDocsDirty := false, hasChanges := false,
    size_eq := fun v hv => by cases hv; rfl }

def hasDeletions (r : SegmentReader) : Bool := r.deletedDocs.isSome

def numDocs (r : SegmentReader) : Nat :=
  match r.deletedDocs with
  | none => r.maxDoc
  | some v => r.maxDoc - v.count

def numDeletedDocs (r : SegmentReader) : Nat := r.maxDoc - r.numDocs

def isDeleted (r : SegmentReader) (n : Nat) : Bool :=
  match r.deletedDocs with
  | none => false
  | some v => v.get n

/-- The vector `doDelete` writes to: a new one when the reader has none. -/
def writableDeletedDocs (r : SegmentReader) : BitVector :=
  r.deletedDocs.getD (BitVector.ofSize r.maxDoc)

@[simp] theorem size_writableDeletedDocs (r : SegmentReader) :
    r.writableDeletedDocs.size = r.maxDoc := by
  unfold writableDeletedDocs
  cases h : r.deletedDocs with
  | none => simp
  | some v => simpa using r.size_eq v h

/-- `none` is the exception of an out-of-range document number. -/
def doDelete (r : SegmentReader) (docNum : Nat) : Option SegmentReader :=
  match h : r.writableDeletedDocs.getAndSet docNum with
  | none => none
  | some (old, v) => some
      { r with
        deletedDocs := some v
        deletedDocsDirty := true
        pendingDeleteCount := if old then r.pendingDeleteCount else r.pendingDeleteCount + 1
        size_eq := fun w hw => by
          cases hw
          rw [BitVector.size_getAndSet h, size_writableDeletedDocs] }

theorem isDeleted_eq_get (r : SegmentReader) (n : Nat) :
    r.isDeleted n = r.writableDeletedDocs.get n := by
  unfold isDeleted writableDeletedDocs
  cases r.deletedDocs with
  | none =>
      simp only [Option.getD_none, BitVector.ofSize, BitVector.get, List.getD_eq_getElem?_getD,
        List.getElem?_replicate]
      split <;> rfl
  | some v => rfl

theorem numDeletedDocs_eq_count (r : SegmentReader) :
    r.numDeletedDocs = r.writableDeletedDocs.count := by
  unfold numDeletedDocs numDocs writableDeletedDocs
  cases h : r.deletedDocs with
  | none => simp [BitVector.ofSize, BitVector.count, List.count_replicate]
  | some v =>
      have hle := v.count_le_size
      rw [r.size_eq v h] at hle
      simp only [Option.getD_some]
      omega

theorem bits_eq_map_isDeleted (r : SegmentReader) :
    r.writableDeletedDocs.bits = (List.range r.maxDoc).map r.isDeleted := by
  have hlen : r.writableDeletedDocs.bits.length = r.maxDoc := r.size_writableDeletedDocs
  apply List.ext_getElem
  · simp [hlen]
  · intro j h₁ h₂
    simp [isDeleted_eq_get, BitVector.get, List.getD_eq_getElem?_getD, h₁]

theorem numDeletedDocs_eq_countP (r : SegmentReader) :
    r.numDeletedDocs = (List.range r.maxDoc).countP r.isDeleted := by
  rw [numDeletedDocs_eq_count, BitVector.count, bits_eq_map_isDeleted,
    List.count_eq_countP, List.countP_map]
  congr 1
  funext j
  simp

/-- What one deletion does: it succeeds on every document of the segment, sets that document's bit
and leaves `maxDoc` alone. -/
theorem doDelete_spec (r : SegmentReader) {docNum : Nat} (h : docNum < r.maxDoc) :
    ∃ r', r.doDelete docNum = some r' ∧ r'.maxDoc = r.maxDoc ∧ r'.hasDeletions = true ∧
      r'.writableDeletedDocs.bits = r.writableDeletedDocs.bits.set docNum true := by
  have hget : r.writableDeletedDocs.getAndSet docNum =
      some (r.writableDeletedDocs.get docNum, ⟨r.writableDeletedDocs.bits.set docNum true⟩) := by
    rw [BitVector.getAndSet, size_writableDeletedDocs, if_pos h]
  unfold doDelete
  split
  · rename_i hnone
    rw [hget] at hnone
    cases hnone
  · rename_i old v hsome
    rw [hget, Option.some.injEq, Prod.mk.injEq] at hsome
    exact ⟨_, rfl, rfl, rfl, by simp [writableDeletedDocs, ← hsome.2]⟩

end SegmentReader
end LucenePlusPlus
