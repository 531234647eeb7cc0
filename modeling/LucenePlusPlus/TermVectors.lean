import LucenePlusPlus.IndexFormat

/-!
`TermVectorsWriter` and `TermVectorsReader`: the vectors of a document, in three files. The index file has two pointers
for each document, into the file of the documents, which has the numbers of the fields, and into the file of the
fields, which has the terms. Files have the current format.
-/

namespace LucenePlusPlus.TermVectors
open Decoders IndexOutput IndexInput

/-- `TermVectorOffsetInfo` -/
structure OffsetInfo where
  startOffset : Int32
  endOffset : Int32
  deriving DecidableEq

/-- What the arrays of a vector have for one term. An array that is null has nothing for any term. -/
structure TermEntry where
  term : List WChar
  freq : Int32
  positions : Option (List Int32)
  offsets : Option (List OffsetInfo)
  deriving DecidableEq

/-- A vector, and whether its class is a `TermPositionVector`: a `SegmentTermVector` is one, though it has no positions
(its `getTermPositions` and `getOffsets` return null), and so is a `SegmentTermPositionVector`, which may have positions
and offsets. -/
structure TermFreqVector where
  field : List WChar
  isTermPositionVector : Bool
  entries : List TermEntry
  deriving DecidableEq

/-- The names of the fields, by their numbers. -/
abbrev FieldNames := List (List WChar)

namespace FieldNames

def fieldNumber (fieldInfos : FieldNames) (fieldName : List WChar) : Int :=
  if fieldName ∈ fieldInfos then fieldInfos.idxOf fieldName else -1

def fieldName (fieldInfos : FieldNames) (fieldNumber : Int) : List WChar :=
  if 0 ≤ fieldNumber then fieldInfos.getD fieldNumber.toNat [] else []

end FieldNames

def FORMAT_SIZE : Nat := 4
def STORE_POSITIONS_WITH_TERMVECTOR : Nat := 0x1
def STORE_OFFSET_WITH_TERMVECTOR : Nat := 0x2

/-- `IllegalStateException` -/
inductive WriteError where
  /-- Trying to write positions that are null! -/
  | positionsAreNull
  /-- Trying to write offsets that are null! -/
  | offsetsAreNull
  deriving DecidableEq

structure Writer where
  tvx : List UInt8
  tvd : List UInt8
  tvf : List UInt8
  fieldInfos : FieldNames

namespace Writer

/-- `MiscUtils::bytesDifference` -/
def bytesDifference : List UInt8 → List UInt8 → Nat
  | b :: bytes, b' :: bytes' => if b = b' then bytesDifference bytes bytes' + 1 else 0
  | _, _ => 0

/-- Each position by its difference to the one before. -/
def writePositions (lastPosition : Int32) : List Int32 → List UInt8
  | [] => []
  | position :: positions => writeVInt (position - lastPosition).toInt ++ writePositions position positions

def writeOffsets (lastEndOffset : Int32) : List OffsetInfo → List UInt8
  | [] => []
  | offset :: offsets =>
      writeVInt (offset.startOffset - lastEndOffset).toInt ++
        writeVInt (offset.endOffset - offset.startOffset).toInt ++ writeOffsets offset.endOffset offsets

/-- The octets of a term that `utf8` shares with the term before are not written again. -/
def writeTerm (lastUtf8 utf8 : List UInt8) : List UInt8 :=
  writeVInt (bytesDifference lastUtf8 utf8) ++
    writeVInt ((utf8.length : Int) - bytesDifference lastUtf8 utf8) ++ utf8.drop (bytesDifference lastUtf8 utf8)

/-- What is written of a term behind its frequency. -/
def writeOccurrences (storePositions storeOffsets : Bool) (entry : TermEntry) : Except WriteError (List UInt8) :=
  if storePositions ∧ entry.positions.isNone then .error .positionsAreNull
  else if storeOffsets ∧ entry.offsets.isNone then .error .offsetsAreNull
  else .ok ((if storePositions then writePositions 0 (entry.positions.getD []) else []) ++
    if storeOffsets then writeOffsets 0 (entry.offsets.getD []) else [])

/-- `size` is the one of the arrays that the octets of the terms are put in. -/
def writeEntries (size : Nat) (storePositions storeOffsets : Bool) :
    List UInt8 → List TermEntry → Except WriteError (List UInt8)
  | _, [] => .ok []
  | lastUtf8, entry :: entries => do
      let occurrences ← writeOccurrences storePositions storeOffsets entry
      let rest ← writeEntries size storePositions storeOffsets (StringUtils.toUTF8 size entry.term) entries
      pure (writeTerm lastUtf8 (StringUtils.toUTF8 size entry.term) ++ writeVInt entry.freq.toInt ++ occurrences ++ rest)

/-- `tpVector->size() > 0 && !tpVector->getTermPositions(0)`, of a `TermPositionVector`. -/
def storePositions (vector : TermFreqVector) : Bool :=
  vector.isTermPositionVector && match vector.entries with
    | [] => false
    | entry :: _ => entry.positions.isNone

/-- `tpVector->size() > 0 && tpVector->getOffsets(0)`, of a `TermPositionVector`. -/
def storeOffsets (vector : TermFreqVector) : Bool :=
  vector.isTermPositionVector && match vector.entries with
    | [] => false
    | entry :: _ => entry.offsets.isSome

def bits (vector : TermFreqVector) : Nat :=
  (if storePositions vector then STORE_POSITIONS_WITH_TERMVECTOR else 0) +
    if storeOffsets vector then STORE_OFFSET_WITH_TERMVECTOR else 0

/-- What is written to the file of the fields for a vector. -/
def writeVector (size : Nat) (vector : TermFreqVector) : Except WriteError (List UInt8) := do
  let entries ← writeEntries size (storePositions vector) (storeOffsets vector) [] vector.entries
  pure (writeVInt vector.entries.length ++ writeVInt (bits vector) ++ entries)

/-- The first pass: what is written for the fields, of which the first is at `pointer`, and where each of them is. -/
def writeVectors (size : Nat) : Nat → List TermFreqVector → Except WriteError (List UInt8 × List Nat)
  | _, [] => .ok ([], [])
  | pointer, vector :: vectors => do
      let bytes ← writeVector size vector
      let rest ← writeVectors size (pointer + bytes.length) vectors
      pure (bytes ++ rest.1, pointer :: rest.2)

def writeVLong (i : Int) : List UInt8 := VarInt.encode (i % 0x10000000000000000).toNat

/-- The second pass: the pointers behind the first one, each by its difference to the one before. -/
def writePointers (lastFieldPointer : Nat) : List Nat → List UInt8
  | [] => []
  | fieldPointer :: fieldPointers =>
      writeVLong ((fieldPointer : Int) - lastFieldPointer) ++ writePointers fieldPointer fieldPointers

/-- The vectors may be null. -/
def addAllDocVectors (size : Nat) (w : Writer) (vectors : Option (List TermFreqVector)) : Except WriteError Writer :=
  match vectors with
  | none =>
      .ok { w with
        tvx := w.tvx ++ writeLong w.tvd.length ++ writeLong w.tvf.length
        tvd := w.tvd ++ writeVInt 0 }
  | some vectors => do
      let fields ← writeVectors size w.tvf.length vectors
      pure { w with
        tvx := w.tvx ++ writeLong w.tvd.length ++ writeLong w.tvf.length
        tvd := w.tvd ++ writeVInt vectors.length ++
          (vectors.flatMap fun vector => writeVInt (w.fieldInfos.fieldNumber vector.field)) ++
          writePointers (fields.2.headD 0) fields.2.tail
        tvf := w.tvf ++ fields.1 }

end Writer

structure Reader where
  tvx : List UInt8
  tvd : List UInt8
  tvf : List UInt8
  docStoreOffset : Nat
  fieldInfos : FieldNames

namespace Reader
variable (wide : ∀ w, UInt8 → Nat → BitVec w)

def readVLong : Decoder InputError Int := fun bytes =>
  match VInt.read (wide 64) bytes with
  | none => .error .readPastEOF
  | some (i, count) => .ok (i.toInt, bytes.drop count)

/-- An `int32_t` that is the size of an array, or a count. -/
def readSize : Decoder InputError Nat := do
  let size ← readVInt wide
  if size < 0 then throw .undefined else pure size.toNat

def readPositions : Nat → Int32 → Decoder InputError (List Int32)
  | 0, _ => pure []
  | count + 1, prevPosition => do
      let delta ← readVInt wide
      let positions ← readPositions count (prevPosition + .ofInt delta)
      pure ((prevPosition + .ofInt delta) :: positions)

def readOffsets : Nat → Int32 → Decoder InputError (List OffsetInfo)
  | 0, _ => pure []
  | count + 1, prevOffset => do
      let delta ← readVInt wide
      let length ← readVInt wide
      let offset : OffsetInfo :=
        { startOffset := prevOffset + .ofInt delta, endOffset := prevOffset + .ofInt delta + .ofInt length }
      let offsets ← readOffsets count offset.endOffset
      pure (offset :: offsets)

/-- Null, where nothing is stored. -/
def stored {α : Type} (store : Bool) (d : Decoder InputError α) : Decoder InputError (Option α) :=
  if store then do let a ← d; pure (some a)
  else pure none

/-- The loop over the terms. `byteBuffer` has the octets of the term before, and grows. -/
def readEntries (storePositions storeOffsets : Bool) : Nat → List UInt8 → Decoder InputError (List TermEntry)
  | 0, _ => pure []
  | numTerms + 1, byteBuffer => do
      let start ← readSize wide
      let deltaLength ← readSize wide
      let delta ← take .readPastEOF deltaLength
      let byteBuffer := byteBuffer.takeD start 0 ++ delta ++ byteBuffer.drop (start + deltaLength)
      let freq ← readVInt wide
      let positions ← stored storePositions (readPositions wide freq.toNat 0)
      let offsets ← stored storeOffsets (readOffsets wide freq.toNat 0)
      let entries ← readEntries storePositions storeOffsets numTerms byteBuffer
      pure (⟨StringUtils.toUnicode 0 (byteBuffer.take (start + deltaLength)), .ofInt freq, positions, offsets⟩ :: entries)

/-- `readTermVector` with a `ParallelArrayTermVectorMapper`, and its `materializeVector`: a `SegmentTermVector`, or a
`SegmentTermPositionVector`. -/
def readTermVector (field : List WChar) : Decoder InputError (Option TermFreqVector) := do
  let numTerms ← readSize wide
  if numTerms = 0 then pure none
  else
    let bits ← readByte
    let storePositions := bits.toNat &&& STORE_POSITIONS_WITH_TERMVECTOR != 0
    let storeOffsets := bits.toNat &&& STORE_OFFSET_WITH_TERMVECTOR != 0
    let entries ← readEntries wide storePositions storeOffsets numTerms (List.replicate 20 0)
    if field = [] then pure none else pure (some ⟨field, true, entries⟩)

def readFields (fieldInfos : FieldNames) (fieldCount : Nat) : Decoder InputError (List (List WChar)) :=
  times (do let number ← readVInt wide; pure (fieldInfos.fieldName number)) fieldCount

/-- The pointers behind the first one. -/
def readTvfPointers : Nat → Int → Decoder InputError (List Int)
  | 0, _ => pure []
  | count + 1, position => do
      let delta ← readVLong wide
      let positions ← readTvfPointers count (position + delta)
      pure ((position + delta) :: positions)

/-- The bytes from a position of a file on. -/
def seek (bytes : List UInt8) (position : Int) : Except InputError (List UInt8) :=
  if position < 0 then .error .undefined else .ok (bytes.drop position.toNat)

def readTermVectors (r : Reader) : List (List WChar) → List Int → Except InputError (List (Option TermFreqVector))
  | field :: fields, tvfPointer :: tvfPointers => do
      let bytes ← seek r.tvf tvfPointer
      let vector ← (readTermVector wide field).run bytes
      let vectors ← readTermVectors r fields tvfPointers
      pure (vector.1 :: vectors)
  | _, _ => .ok []

/-- `seekTvx`. The place is computed in an `int32_t`. -/
def seekTvx (r : Reader) (docNum : Nat) : Except InputError (List UInt8) :=
  if (docNum + r.docStoreOffset) * 16 + FORMAT_SIZE < 0x80000000 then
    .ok (r.tvx.drop ((docNum + r.docStoreOffset) * 16 + FORMAT_SIZE))
  else .error .undefined

/-- `get(docNum)`: null, or the vectors, of which one that has not been read is null. -/
def get (r : Reader) (docNum : Nat) : Except InputError (Option (List (Option TermFreqVector))) := do
  let tvx ← seekTvx r docNum
  let (tvdPosition, tvx) ← readLong.run tvx
  let tvd ← seek r.tvd tvdPosition
  let (fieldCount, tvd) ← (readSize wide).run tvd
  if fieldCount = 0 then pure none
  else
    let (fields, tvd) ← (readFields wide r.fieldInfos fieldCount).run tvd
    let (position, _) ← readLong.run tvx
    let (tvfPointers, _) ← (readTvfPointers wide (fieldCount - 1) position).run tvd
    let vectors ← readTermVectors wide r fields (position :: tvfPointers)
    pure (some vectors)

end Reader
end LucenePlusPlus.TermVectors
