import LucenePlusPlus.StoredFieldsFiles

/-!
Stored fields that are loaded when they are asked for. A `FieldSelector` says what becomes of the fields of a
document; of a field that is loaded lazily the place and the length are kept, and what has been read, when it has
been read. Nothing is compressed in the current format, and the lengths of texts are those of their bytes.
-/

namespace LucenePlusPlus.StoredFields
open Decoders IndexOutput IndexInput

inductive FieldSelectorResult where
  | null
  | load
  | lazyLoad
  | noLoad
  | loadAndBreak
  | size
  | sizeAndBreak
  deriving DecidableEq

abbrev FieldSelector := WString → FieldSelectorResult

/-- `fieldsData`; an array is known by its number. -/
inductive FieldsData where
  | null
  | text (value : WString)
  | binary (array : Option Nat)
  deriving DecidableEq

/-- The offset in the array is always zero. -/
structure LazyField where
  name : WString
  toRead : Int
  pointer : Nat
  isBinary : Bool
  binaryLength : Int
  fieldsData : FieldsData
  deriving DecidableEq

/-- A field of a document that has been read, `α` is how the lazily loaded ones are known. -/
inductive Loaded (α : Type) where
  | field (field : Field)
  | lazy (field : α)
  deriving DecidableEq

namespace Field

def stringValue (field : Field) : WString := match field.value with
  | .text value => value
  | .binary _ => []

def getBinaryValue (field : Field) : Option (List UInt8) := match field.value with
  | .text _ => none
  | .binary data => some data

end Field

namespace FieldsReader
variable (wide : ∀ w, UInt8 → Nat → BitVec w) (r : FieldsReader)

def getFilePointer : Decoder InputError Nat := fun rest => .ok (r.fdt.length - rest.length, rest)

def seekTo (position : Int) : Decoder InputError Unit := fun _ => do
  let rest ← seek r.fdt position
  pure ((), rest)

def skipField (toRead : Int) : Decoder InputError Unit := do
  let pointer ← getFilePointer r
  seekTo r (pointer + toRead)

def addFieldLazy (fi : FieldInfo) (binary : Bool) : Decoder InputError LazyField := do
  let toRead ← readVInt wide
  let pointer ← getFilePointer r
  seekTo r (pointer + toRead)
  pure { name := fi.name, toRead, pointer, isBinary := binary, binaryLength := if binary then toRead else 0,
         fieldsData := .null }

/-- The bytes are those of the number, highest first. -/
def addFieldSize (fi : FieldInfo) (binary : Bool) : Decoder InputError (Int × Field) := do
  let size ← readVInt wide
  let bytesize := if binary then size else toInt32 (2 * size)
  pure (size, { name := fi.name, isTokenized := false, value := .binary (writeInt bytesize) })

/-- What becomes of a field, and whether it is the last. -/
def loadAs (fi : FieldInfo) (binary tokenize : Bool) :
    FieldSelectorResult → Decoder InputError (Bool × Option (Loaded LazyField))
  | .load => do
      let field ← addField wide (some fi) binary tokenize
      pure (false, field.map .field)
  | .loadAndBreak => do
      let field ← addField wide (some fi) binary tokenize
      pure (true, field.map .field)
  | .lazyLoad => do
      let field ← addFieldLazy wide r fi binary
      pure (false, some (.lazy field))
  | .size => do
      let (size, field) ← addFieldSize wide fi binary
      skipField r size
      pure (false, some (.field field))
  | .sizeAndBreak => do
      let (_, field) ← addFieldSize wide fi binary
      pure (true, some (.field field))
  | .null | .noLoad => do
      let toRead ← readVInt wide
      skipField r toRead
      pure (false, none)

def acceptField (fieldSelector : Option FieldSelector) (name : WString) : FieldSelectorResult := match fieldSelector with
  | none => .load
  | some accept => accept name

/-- One round of the loop of `doc`. -/
def loadField (fieldSelector : Option FieldSelector) : Decoder InputError (Bool × Option (Loaded LazyField)) := do
  let fieldNumber ← readVInt wide
  match if 0 ≤ fieldNumber then r.fieldInfos[fieldNumber.toNat]? else none with
  | none => throw .undefined
  | some fi => do
      let bits ← readByte
      loadAs wide r fi (bits.toNat &&& FIELD_IS_BINARY != 0) (bits.toNat &&& FIELD_IS_TOKENIZED != 0)
        (acceptField fieldSelector fi.name)

def loadFields (fieldSelector : Option FieldSelector) : Nat → Decoder InputError (List (Option (Loaded LazyField)))
  | 0 => pure []
  | numFields + 1 => do
      let (last, field) ← loadField wide r fieldSelector
      if last then pure [field]
      else
        let fields ← loadFields fieldSelector numFields
        pure (field :: fields)

/-- `doc`; a place in the list for each field that has been visited. -/
def load (n : Nat) (fieldSelector : Option FieldSelector) : Except InputError (List (Option (Loaded LazyField))) := do
  let fdx ← seekIndex r n
  let (position, _) ← readLong.run fdx
  let fdt ← seek r.fdt position
  let (fields, _) ← (do
    let numFields ← readVInt wide
    loadFields wide r fieldSelector numFields.toNat).run fdt
  pure fields

/-- `seek` and `readBytes`; every read seeks its place first. -/
def bytesAt (pointer : Nat) (toRead : Int) : Option (List UInt8) :=
  if toRead.toNat ≤ (r.fdt.drop pointer).length then some ((r.fdt.drop pointer).take toRead.toNat) else none

end FieldsReader

/-- The arrays that there are, those of the callers too, and the fields that have been loaded lazily. -/
structure LazyState where
  closed : Bool
  arrays : List (List UInt8)
  lazyFields : List LazyField

namespace LazyField

/-- `stringValue`, while the reader is open. -/
def readString (r : FieldsReader) (f : LazyField) : LazyField :=
  if f.isBinary then f
  else match f.fieldsData with
    | .null =>
        if f.toRead ≤ 0 then { f with fieldsData := .text [] }
        else match r.bytesAt f.pointer f.toRead with
          | none => { f with fieldsData := .text [] }
          | some bytes => { f with fieldsData := .text (StringUtils.toUnicode 0 bytes) }
    | _ => f

/-- `result`, when there is place in it, or a new array. -/
def bufferFor (arrays : List (List UInt8)) (toRead : Nat) (result : Option Nat) : Nat × List (List UInt8) :=
  match result with
  | none => (arrays.length, arrays ++ [List.replicate toRead 0])
  | some number =>
      match arrays[number]? with
      | none => (arrays.length, arrays ++ [List.replicate toRead 0])
      | some array =>
          if array.length < toRead then (arrays.length, arrays ++ [List.replicate toRead 0]) else (number, arrays)

/-- `getBinaryValue`, while the reader is open. -/
def readBinary (r : FieldsReader) (f : LazyField) (arrays : List (List UInt8)) (result : Option Nat) :
    LazyField × List (List UInt8) :=
  if !f.isBinary then (f, arrays)
  else match f.fieldsData with
    | .null =>
        if f.toRead ≤ 0 then ({ f with fieldsData := .binary none, binaryLength := 0 }, arrays)
        else
          let (b, arrays) := bufferFor arrays f.toRead.toNat result
          match r.bytesAt f.pointer f.toRead with
          | none => ({ f with fieldsData := .binary none, binaryLength := 0 }, arrays)
          | some bytes =>
              ({ f with fieldsData := .binary (some b), binaryLength := f.toRead },
                arrays.set b (bytes ++ (arrays.getD b []).drop bytes.length))
    | _ => (f, arrays)

end LazyField

namespace LazyState

/-- The lazily loaded fields are numbered from `start` on. -/
def numbered (start : Nat) : List (Option (Loaded LazyField)) → List (Option (Loaded Nat))
  | [] => []
  | none :: fields => none :: numbered start fields
  | some (.field field) :: fields => some (.field field) :: numbered start fields
  | some (.lazy _) :: fields => some (.lazy start) :: numbered (start + 1) fields

def lazies : List (Option (Loaded LazyField)) → List LazyField
  | [] => []
  | some (.lazy f) :: fields => f :: lazies fields
  | _ :: fields => lazies fields

section Operations
variable (wide : ∀ w, UInt8 → Nat → BitVec w) (r : FieldsReader) (s : LazyState)

/-- When the reader is closed, so are its files. -/
def document (n : Nat) (fieldSelector : Option FieldSelector) :
    Except InputError (List (Option (Loaded Nat)) × LazyState) := do
  if s.closed then throw .undefined
  let fields ← r.load wide n fieldSelector
  pure (numbered s.lazyFields.length fields, { s with lazyFields := s.lazyFields ++ lazies fields })

def modifyString (i : Nat) : LazyState :=
  if s.closed then s
  else match s.lazyFields[i]? with
    | none => s
    | some f => { s with lazyFields := s.lazyFields.set i (f.readString r) }

def modifyBinary (i : Nat) (result : Option Nat) : LazyState :=
  if s.closed then s
  else match s.lazyFields[i]? with
    | none => s
    | some f => { s with lazyFields := s.lazyFields.set i (f.readBinary r s.arrays result).1,
                         arrays := (f.readBinary r s.arrays result).2 }

/-- What `stringValue` returns; nothing when the reader is closed, or has gone. -/
def stringValue (i : Nat) : WString :=
  if s.closed then []
  else match (s.modifyString r i).lazyFields[i]? with
    | none => []
    | some f => if f.isBinary then [] else match f.fieldsData with
      | .text value => value
      | _ => []

/-- What `getBinaryValue` returns. -/
def getBinaryValue (i : Nat) (result : Option Nat) : Option Nat :=
  if s.closed then none
  else match (s.modifyBinary r i result).lazyFields[i]? with
    | none => none
    | some f => if !f.isBinary then none else match f.fieldsData with
      | .binary array => array
      | _ => none

/-- The bytes of the array that are the value: as many as `getBinaryLength` says. -/
def binaryBytes (i : Nat) (result : Option Nat) : Option (List UInt8) := do
  let number ← s.getBinaryValue r i result
  let array ← (s.modifyBinary r i result).arrays[number]?
  let f ← (s.modifyBinary r i result).lazyFields[i]?
  pure (array.take f.binaryLength.toNat)

inductive Operation where
  | document (n : Nat) (fieldSelector : Option FieldSelector)
  | stringValue (i : Nat)
  | getBinaryValue (i : Nat) (result : Option Nat)
  /-- The caller makes an array. -/
  | newArray (array : List UInt8)
  | close

def step : Operation → LazyState
  | .document n fieldSelector =>
      match s.document wide r n fieldSelector with
      | .error _ => s
      | .ok (_, s') => s'
  | .stringValue i => s.modifyString r i
  | .getBinaryValue i result => s.modifyBinary r i result
  | .newArray array => { s with arrays := s.arrays ++ [array] }
  | .close => { s with closed := true }

end Operations
end LazyState
end LucenePlusPlus.StoredFields
