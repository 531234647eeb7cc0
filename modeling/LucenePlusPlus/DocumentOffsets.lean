import LucenePlusPlus.RAMOutputStream
import LucenePlusPlus.StoredFields
import LucenePlusPlus.TermVectors

/-!
The places in the index files of a doc store, as `FieldsReader` and `TermVectorsReader` compute them: in `int32_t`, which
wraps around on the machines the code is built for, before they are widened for `seek`.
-/

namespace LucenePlusPlus

/-- The sum and the product of two `int32_t`. -/
def addInt32 (a b : Int) : Int := toInt32 (a + b)

def mulInt32 (a b : Int) : Int := toInt32 (a * b)

namespace StoredFields.FieldsReader

def FORMAT : Int := 0

/-- The size of the header of the index file. -/
def formatSize (format : Int) : Nat := if FORMAT < format then 4 else 0

/-- Where `seekIndex` goes. -/
def indexPosition (format : Int) (docStoreOffset docID : Nat) : Int :=
  addInt32 (formatSize format) (mulInt32 (addInt32 docID docStoreOffset) 8)

end StoredFields.FieldsReader

namespace TermVectors.Reader

def FORMAT_VERSION2 : Int := 3

/-- The size of an entry of the index file. -/
def entrySize (format : Int) : Nat := if format < FORMAT_VERSION2 then 8 else 16

/-- Where `seekTvx` goes. -/
def tvxPosition (format : Int) (docStoreOffset docNum : Nat) : Int :=
  addInt32 (mulInt32 (addInt32 docNum docStoreOffset) (entrySize format)) FORMAT_SIZE

end TermVectors.Reader

namespace DocumentOffsets

theorem toInt32_eq_iff {n : Nat} : toInt32 n = n ↔ n < 0x80000000 := by
  rw [toInt32]
  omega

theorem toInt32_mul_toInt32 (a k : Int) : toInt32 (toInt32 a * k) = toInt32 (a * k) := by
  have hmod : toInt32 a = a - 0x100000000 * ((a + 0x80000000) / 0x100000000) := by
    rw [toInt32]
    omega
  have hmul : toInt32 a * k = a * k - 0x100000000 * ((a + 0x80000000) / 0x100000000 * k) := by
    rw [hmod]
    ring
  rw [hmul]
  generalize (a + 0x80000000) / 0x100000000 * k = c
  rw [toInt32, toInt32]
  omega

theorem toInt32_add_toInt32 (a b : Int) : toInt32 (a + toInt32 b) = toInt32 (a + b) := by
  simp only [toInt32]
  omega

theorem position_eq (size docID docStoreOffset entry : Nat) :
    addInt32 size (mulInt32 (addInt32 docID docStoreOffset) entry) =
      toInt32 ((size + (docID + docStoreOffset) * entry : Nat) : Int) := by
  rw [addInt32, mulInt32, addInt32, toInt32_mul_toInt32, toInt32_add_toInt32]
  push_cast
  rfl

/-- The positions in the index files are those of the entries of the document. -/
structure Exact (fieldsFormat vectorsFormat : Int) (docStoreOffset docID : Nat) : Prop where
  fdx : StoredFields.FieldsReader.indexPosition fieldsFormat docStoreOffset docID =
    StoredFields.FieldsReader.formatSize fieldsFormat + (docID + docStoreOffset) * 8
  tvx : TermVectors.Reader.tvxPosition vectorsFormat docStoreOffset docID =
    TermVectors.FORMAT_SIZE + (docID + docStoreOffset) * TermVectors.Reader.entrySize vectorsFormat

/-- The entries begin below the largest `int32_t`. -/
def Fits (fieldsFormat vectorsFormat : Int) (docStoreOffset docID : Nat) : Prop :=
  StoredFields.FieldsReader.formatSize fieldsFormat + (docID + docStoreOffset) * 8 < 0x80000000 ∧
    TermVectors.FORMAT_SIZE + (docID + docStoreOffset) * TermVectors.Reader.entrySize vectorsFormat < 0x80000000

theorem indexPosition_eq_iff (format : Int) (docStoreOffset docID : Nat) :
    StoredFields.FieldsReader.indexPosition format docStoreOffset docID =
        StoredFields.FieldsReader.formatSize format + (docID + docStoreOffset) * 8 ↔
      StoredFields.FieldsReader.formatSize format + (docID + docStoreOffset) * 8 < 0x80000000 := by
  rw [StoredFields.FieldsReader.indexPosition, ← toInt32_eq_iff, ← position_eq]
  push_cast
  rfl

theorem tvxPosition_eq_iff (format : Int) (docStoreOffset docNum : Nat) :
    TermVectors.Reader.tvxPosition format docStoreOffset docNum =
        TermVectors.FORMAT_SIZE + (docNum + docStoreOffset) * TermVectors.Reader.entrySize format ↔
      TermVectors.FORMAT_SIZE + (docNum + docStoreOffset) * TermVectors.Reader.entrySize format < 0x80000000 := by
  have hcomm : TermVectors.Reader.tvxPosition format docStoreOffset docNum =
      addInt32 TermVectors.FORMAT_SIZE
        (mulInt32 (addInt32 docNum docStoreOffset) (TermVectors.Reader.entrySize format)) := by
    rw [TermVectors.Reader.tvxPosition, addInt32, Int.add_comm]
    rfl
  rw [hcomm, ← toInt32_eq_iff, ← position_eq]
  push_cast
  rfl

/-- In each format, the positions are exact where, and only where, they fit into an `int32_t`. -/
theorem positions_exact_iff (fieldsFormat vectorsFormat : Int) (docStoreOffset docID : Nat) :
    Exact fieldsFormat vectorsFormat docStoreOffset docID ↔ Fits fieldsFormat vectorsFormat docStoreOffset docID := by
  constructor
  · intro h
    exact ⟨(indexPosition_eq_iff _ _ _).mp h.fdx, (tvxPosition_eq_iff _ _ _).mp h.tvx⟩
  · intro h
    exact ⟨(indexPosition_eq_iff _ _ _).mpr h.1, (tvxPosition_eq_iff _ _ _).mpr h.2⟩

/-- The entry of a document in the middle of a store of half a billion is sought in front of the file. -/
theorem position_is_negative :
    StoredFields.FieldsReader.indexPosition 2 0 0x10000000 = -0x7ffffffc ∧
      TermVectors.Reader.tvxPosition 4 0 0x10000000 = 4 ∧ ¬ Exact 2 4 0 0x10000000 := by
  refine ⟨by decide, by decide, fun h => ?_⟩
  have hfits := (indexPosition_eq_iff 2 0 0x10000000).mp h.fdx
  exact absurd hfits (by decide)

end DocumentOffsets

end LucenePlusPlus
