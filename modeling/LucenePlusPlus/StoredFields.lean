import LucenePlusPlus.CopiedRuns
import LucenePlusPlus.FieldInfos
import LucenePlusPlus.IndexFormat

/-!
`FieldsWriter` and `FieldsReader`: the stored fields of documents, in two files. The index file has a pointer for each
document, into the file of the fields. Files have the current format, of which documents can be copied raw.
-/

namespace LucenePlusPlus
open Decoders

/-- It is asserted that the number of bytes is not negative. -/
def IndexOutput.copyBytes (input : List UInt8) (numBytes : Int) : Except InputError (List UInt8) :=
  if numBytes < 0 then .error .undefined
  else if numBytes ≤ input.length then .ok (input.take numBytes.toNat)
  else .error .readPastEOF

namespace StoredFields
open IndexOutput IndexInput

inductive FieldValue where
  | text (value : WString)
  | binary (data : List UInt8)
  deriving DecidableEq

/-- A `Field` that is stored. -/
structure Field where
  name : WString
  isTokenized : Bool
  value : FieldValue
  deriving DecidableEq

abbrev Document := List Field

def FIELD_IS_TOKENIZED : Nat := 0x1
def FIELD_IS_BINARY : Nat := 0x2
def FORMAT_CURRENT : Int := 2
def FORMAT_SIZE : Nat := 4

namespace Field

def isBinary (field : Field) : Bool := match field.value with
  | .text _ => false
  | .binary _ => true

def bits (field : Field) : Nat :=
  (if field.isTokenized then FIELD_IS_TOKENIZED else 0) + if field.isBinary then FIELD_IS_BINARY else 0

/-- A text and its name cannot both be empty. -/
def isEmpty (field : Field) : Bool := field.name.isEmpty && field.value == .text []

end Field

structure FieldsWriter where
  fdx : List UInt8
  fdt : List UInt8
  fieldInfos : FieldInfos

namespace FieldsWriter

def new (fieldInfos : FieldInfos) : FieldsWriter :=
  { fdx := writeInt FORMAT_CURRENT, fdt := writeInt FORMAT_CURRENT, fieldInfos }

/-- The octets of a text are put in an array, which has a `size` and grows. -/
def writeValue (size : Nat) : FieldValue → List UInt8
  | .text value => writeString size value
  | .binary data => writeVInt data.length ++ data

/-- A field that is not known is null. -/
def writeField (size : Nat) (fieldInfos : FieldInfos) (field : Field) : Option (List UInt8) :=
  match fieldInfos.findIdx? fun info => info.name = field.name with
  | none => none
  | some number => some (writeVInt number ++ (.ofNat field.bits :: writeValue size field.value))

def writeFields (size : Nat) (fieldInfos : FieldInfos) : Document → Option (List UInt8)
  | [] => some []
  | field :: doc =>
      match writeField size fieldInfos field, writeFields size fieldInfos doc with
      | some bytes, some rest => some (bytes ++ rest)
      | _, _ => none

/-- What is written to the file of the fields for a document. -/
def writeDocument (size : Nat) (fieldInfos : FieldInfos) (doc : Document) : Option (List UInt8) :=
  (writeFields size fieldInfos doc).map fun fields => writeVInt doc.length ++ fields

def addDocument (size : Nat) (w : FieldsWriter) (doc : Document) : Except InputError FieldsWriter :=
  match writeDocument size w.fieldInfos doc with
  | none => .error .undefined
  | some bytes => .ok { w with fdx := w.fdx ++ writeLong w.fdt.length, fdt := w.fdt ++ bytes }

def addRawDocuments (w : FieldsWriter) (stream : List UInt8) (lengths : List Int32) : Except InputError FieldsWriter := do
  let bytes ← copyBytes stream (lengths.map Int32.toInt).sum
  pure { w with
    fdx := w.fdx ++ (CopiedRuns.positions w.fdt.length (lengths.map Int32.toInt)).flatMap writeLong
    fdt := w.fdt ++ bytes }

end FieldsWriter

structure FieldsReader where
  fdx : List UInt8
  fdt : List UInt8
  docStoreOffset : Nat
  numTotalDocs : Nat
  fieldInfos : FieldInfos

namespace FieldsReader
variable (wide : ∀ w, UInt8 → Nat → BitVec w)

/-- The bytes from a position of a file on. -/
def seek (bytes : List UInt8) (position : Int) : Except InputError (List UInt8) :=
  if position < 0 then .error .undefined else .ok (bytes.drop position.toNat)

/-- The place is computed in an `int32_t`. -/
def seekIndex (r : FieldsReader) (docID : Nat) : Except InputError (List UInt8) :=
  if FORMAT_SIZE + (docID + r.docStoreOffset) * 8 < 0x80000000 then
    .ok (r.fdx.drop (FORMAT_SIZE + (docID + r.docStoreOffset) * 8))
  else .error .undefined

def readBinary : Decoder InputError FieldValue := do
  let toRead ← readVInt wide
  if toRead < 0 then throw .undefined
  else
    let data ← take .readPastEOF toRead.toNat
    pure (.binary data)

def readText : Decoder InputError FieldValue := do
  let value ← readString wide
  pure (.text value)

def readValue (binary : Bool) : Decoder InputError FieldValue := if binary then readBinary wide else readText wide

/-- What `addField` adds to the document. A field that is not indexed is not tokenized. When a text and its name are both
empty, the exception is caught, and the field is left out. Behind a field that has no number here, or that cannot be read,
the bytes are not read as they were written. -/
def addField (fi : Option FieldInfo) (binary tokenize : Bool) : Decoder InputError (Option Field) :=
  match fi with
  | none => throw .undefined
  | some fi => do
      let value ← readValue wide binary
      let field : Field := { name := fi.name, isTokenized := !binary && fi.isIndexed && tokenize, value }
      pure (if field.isEmpty then none else some field)

def readField (fieldInfos : FieldInfos) : Decoder InputError (Option Field) := do
  let fieldNumber ← readVInt wide
  let bits ← readByte
  addField wide (if 0 ≤ fieldNumber then fieldInfos[fieldNumber.toNat]? else none)
    (bits.toNat &&& FIELD_IS_BINARY != 0) (bits.toNat &&& FIELD_IS_TOKENIZED != 0)

/-- What `doc` reads of the file of the fields. -/
def readDocument (fieldInfos : FieldInfos) : Decoder InputError Document := do
  let numFields ← readVInt wide
  let fields ← times (readField wide fieldInfos) numFields.toNat
  pure (fields.filterMap id)

def doc (r : FieldsReader) (n : Nat) : Except InputError Document := do
  let fdx ← seekIndex r n
  let (position, _) ← readLong.run fdx
  let fdt ← seek r.fdt position
  let (doc, _) ← (readDocument wide r.fieldInfos).run fdt
  pure doc

/-- Where the document before `docID` ends. -/
def readOffset (r : FieldsReader) (docID : Nat) : Decoder InputError Int :=
  if docID < r.numTotalDocs then readLong else pure (r.fdt.length : Int)

/-- The loop of `rawDocs`, when `docID` is the next document. -/
def readLengths (r : FieldsReader) : Nat → Int → Nat → Decoder InputError (List Int32)
  | _, _, 0 => pure []
  | docID, lastOffset, numDocs + 1 => do
      let offset ← readOffset r docID
      let lengths ← readLengths r (docID + 1) offset numDocs
      pure (.ofInt (offset - lastOffset) :: lengths)

/-- The lengths of the documents, and the bytes from the first one on. -/
def rawDocs (r : FieldsReader) (startDocID numDocs : Nat) : Except InputError (List Int32 × List UInt8) := do
  let fdx ← seekIndex r startDocID
  let (startOffset, fdx) ← readLong.run fdx
  let (lengths, _) ← (readLengths r (r.docStoreOffset + startDocID + 1) startOffset numDocs).run fdx
  let stream ← seek r.fdt startOffset
  pure (lengths, stream)

end FieldsReader
end StoredFields
end LucenePlusPlus
