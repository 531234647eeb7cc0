import LucenePlusPlus.DocIdSetIterator
import LucenePlusPlus.DoubleBits
import LucenePlusPlus.StringIndex

/-!
`FieldCacheRangeFilter`: the documents whose cached value lies in a range. Exclusive bounds become inclusive ones, and
the iterator reads the documents that are not deleted only if the range contains the value of the documents without
one.
-/

namespace LucenePlusPlus
variable {α : Type}

/-- What the filters read of a reader: its deleted documents, and the values that the cache has for the field. -/
structure CachedReader where
  maxDoc : Nat
  deletedDocs : Option (Finset Nat)
  bytes : List UInt8
  ints : List Int32
  longs : List Int64
  doubles : List Double
  stringIndex : StringIndex
  maxDoc_le : maxDoc ≤ INT_MAX
  length_bytes : bytes.length = maxDoc
  length_ints : ints.length = maxDoc
  length_longs : longs.length = maxDoc
  length_doubles : doubles.length = maxDoc
  length_order : stringIndex.order.length = maxDoc
  valid : stringIndex.Valid
  order_le : ∀ ord ∈ stringIndex.order, ord ≤ INT_MAX

namespace CachedReader
variable (reader : CachedReader)

def hasDeletions : Bool := reader.deletedDocs.isSome

def isDeleted (doc : Nat) : Bool :=
  match reader.deletedDocs with
  | none => false
  | some deletedDocs => doc ∈ deletedDocs

end CachedReader

namespace AllTermDocs
variable (reader : CachedReader)

/-- The loop of `skipTo`. -/
def skip : Nat → Int → Bool × Int
  | 0, _doc => (false, _doc)
  | fuel + 1, _doc =>
      if _doc < reader.maxDoc then
        if reader.isDeleted _doc.toNat then skip fuel (_doc + 1) else (true, _doc)
      else (false, _doc)

def skipTo (target : Int) : Bool × Int := skip reader (reader.maxDoc - target).toNat target

def next (_doc : Int) : Bool × Int := skipTo reader (_doc + 1)

end AllTermDocs

/-- `FieldCacheDocIdSet`, with the values of its subclass and its comparison of one of them. -/
structure FieldCacheDocIdSet (α : Type) where
  mayUseTermDocs : Bool
  values : List α
  matchValue : α → Bool

namespace FieldCacheDocIdSet
variable (set : FieldCacheDocIdSet α)

/-- There is no answer where it throws. -/
def matchDoc (doc : Int) : Option Bool := if doc < 0 then none else set.values[doc.toNat]?.map set.matchValue

def isCacheable (reader : CachedReader) : Bool := ¬ (set.mayUseTermDocs ∧ reader.hasDeletions)

end FieldCacheDocIdSet

namespace FieldDocIdSetIteratorIncrement
variable (set : FieldCacheDocIdSet α)

/-- From `doc` on, the first document that matches. -/
def seek : Nat → Int → Int
  | 0, _ => NO_MORE_DOCS
  | fuel + 1, doc =>
      match set.matchDoc doc with
      | none => NO_MORE_DOCS
      | some true => doc
      | some false => seek fuel (doc + 1)

def seekAll (doc : Int) : Int := seek set (set.values.length - doc).toNat doc

def nextDoc (doc : Int) : Int := seekAll set (doc + 1)

def advance (target : Int) : Int := seekAll set target

end FieldDocIdSetIteratorIncrement

namespace FieldDocIdSetIteratorTermDocs
variable (set : FieldCacheDocIdSet α) (reader : CachedReader)

/-- From the document that `termDocs` has come to, if any, to the first one that matches. -/
def seek : Nat → Bool × Int → Int × Int
  | 0, (_, _doc) => (NO_MORE_DOCS, _doc)
  | _ + 1, (false, _doc) => (NO_MORE_DOCS, _doc)
  | fuel + 1, (true, _doc) =>
      if set.matchDoc _doc = some true then (_doc, _doc) else seek fuel (AllTermDocs.next reader _doc)

def seekAll (termDocs : Bool × Int) : Int × Int := seek set reader (reader.maxDoc - termDocs.2).toNat termDocs

def nextDoc (_doc : Int) : Int × Int := seekAll set reader (AllTermDocs.next reader _doc)

def advance (target : Int) : Int × Int := seekAll set reader (AllTermDocs.skipTo reader target)

end FieldDocIdSetIteratorTermDocs

/-- The sets that the filters make. -/
inductive FilterDocIdSet (α : Type)
  | EMPTY_DOCIDSET
  | fieldCache (set : FieldCacheDocIdSet α)

/-- The iterators of the sets, with the document they are at. That of `TermDocs` is the one of its `termDocs`. -/
inductive FilterIterator
  | empty
  | termDocs (_doc : Int)
  | increment (doc : Int)

namespace FilterDocIdSet
variable (reader : CachedReader)

def iterator : FilterDocIdSet α → FilterIterator
  | EMPTY_DOCIDSET => .empty
  | fieldCache set => if set.isCacheable reader then .increment (-1) else .termDocs (-1)

/-- The functions of the iterator that a set gives. -/
def iteration : FilterDocIdSet α → DocIdSetIterator FilterIterator
  | EMPTY_DOCIDSET => { nextDoc := fun s => (NO_MORE_DOCS, s), advance := fun s _ => (NO_MORE_DOCS, s) }
  | fieldCache set =>
      { nextDoc := fun s =>
          match s with
          | .empty => (NO_MORE_DOCS, .empty)
          | .increment doc =>
              (FieldDocIdSetIteratorIncrement.nextDoc set doc,
                .increment (FieldDocIdSetIteratorIncrement.nextDoc set doc))
          | .termDocs _doc =>
              ((FieldDocIdSetIteratorTermDocs.nextDoc set reader _doc).1,
                .termDocs (FieldDocIdSetIteratorTermDocs.nextDoc set reader _doc).2)
        advance := fun s target =>
          match s with
          | .empty => (NO_MORE_DOCS, .empty)
          | .increment _ =>
              (FieldDocIdSetIteratorIncrement.advance set target,
                .increment (FieldDocIdSetIteratorIncrement.advance set target))
          | .termDocs _ =>
              ((FieldDocIdSetIteratorTermDocs.advance set reader target).1,
                .termDocs (FieldDocIdSetIteratorTermDocs.advance set reader target).2) }

end FilterDocIdSet

/-! ### The filters -/

/-- The types of `FieldCacheRangeFilterNumeric` that are integers. -/
inductive NumericType
  | byte
  | int
  | long
  deriving DecidableEq

namespace NumericType

def minVal : NumericType → Int
  | byte => 0
  | int => -2 ^ 31
  | long => -2 ^ 63

def maxVal : NumericType → Int
  | byte => 2 ^ 8 - 1
  | int => 2 ^ 31 - 1
  | long => 2 ^ 63 - 1

/-- What a sum of the type comes to: a `byte` is an `int` there, and the others wrap. -/
def wrap : NumericType → Int → Int
  | byte, n => n.bmod (2 ^ 32)
  | int, n => n.bmod (2 ^ 32)
  | long, n => n.bmod (2 ^ 64)

end NumericType

structure FieldCacheRangeFilterNumeric where
  type : NumericType
  lowerVal : Int
  upperVal : Int
  includeLower : Bool
  includeUpper : Bool
  lower_mem : type.minVal ≤ lowerVal ∧ lowerVal ≤ type.maxVal
  upper_mem : type.minVal ≤ upperVal ∧ upperVal ≤ type.maxVal

/-- `FieldCacheDocIdSetNumeric`. The deleted documents are read if the range contains zero. -/
def FieldCacheDocIdSetNumeric (le : α → α → Bool) (zero : α) (values : List α)
    (inclusiveLowerPoint inclusiveUpperPoint : α) : FieldCacheDocIdSet α where
  mayUseTermDocs := le inclusiveLowerPoint zero ∧ le zero inclusiveUpperPoint
  values := values
  matchValue := fun value => le inclusiveLowerPoint value ∧ le value inclusiveUpperPoint

namespace FieldCacheRangeFilterNumeric
variable (filter : FieldCacheRangeFilterNumeric)

def inclusiveLowerPoint : Int :=
  if filter.includeLower then filter.lowerVal else filter.type.wrap (filter.lowerVal + 1)

def inclusiveUpperPoint : Int :=
  if filter.includeUpper then filter.upperVal else filter.type.wrap (filter.upperVal - 1)

def getDocIdSet (values : List Int) : FilterDocIdSet Int :=
  if ¬ filter.includeLower ∧ filter.lowerVal = filter.type.maxVal then .EMPTY_DOCIDSET
  else if ¬ filter.includeUpper ∧ filter.upperVal = 0 then .EMPTY_DOCIDSET
  else if filter.inclusiveUpperPoint < filter.inclusiveLowerPoint then .EMPTY_DOCIDSET
  else .fieldCache
    (FieldCacheDocIdSetNumeric (fun a b => a ≤ b) 0 values filter.inclusiveLowerPoint filter.inclusiveUpperPoint)

end FieldCacheRangeFilterNumeric

structure FieldCacheRangeFilterDouble where
  lowerVal : Double
  upperVal : Double
  includeLower : Bool
  includeUpper : Bool

/-- `MiscUtils::isInfinite` -/
def isInfinite (value : Double) : Bool := DoubleBits.magnitude value = DoubleBits.INFINITY

namespace FieldCacheRangeFilterDouble
open DoubleBits
variable (filter : FieldCacheRangeFilterDouble)

def inclusiveLowerPoint : Double :=
  let lower := doubleToSortableLong filter.lowerVal
  sortableLongToDouble (if filter.includeLower then lower else wrap64 (lower + 1))

def inclusiveUpperPoint : Double :=
  let upper := doubleToSortableLong filter.upperVal
  sortableLongToDouble (if filter.includeUpper then upper else wrap64 (upper - 1))

def getDocIdSet (values : List Double) : FilterDocIdSet Double :=
  if ¬ filter.includeLower ∧ lt 0 filter.lowerVal ∧ isInfinite filter.lowerVal then .EMPTY_DOCIDSET
  else if ¬ filter.includeUpper ∧ lt filter.upperVal 0 ∧ isInfinite filter.upperVal then .EMPTY_DOCIDSET
  else if lt filter.inclusiveUpperPoint filter.inclusiveLowerPoint then .EMPTY_DOCIDSET
  else .fieldCache (FieldCacheDocIdSetNumeric le 0 values filter.inclusiveLowerPoint filter.inclusiveUpperPoint)

end FieldCacheRangeFilterDouble

/-- An empty bound is none. -/
structure FieldCacheRangeFilterString where
  lowerVal : WString
  upperVal : WString
  includeLower : Bool
  includeUpper : Bool

namespace FieldCacheRangeFilterString
variable (filter : FieldCacheRangeFilterString) (fcsi : StringIndex)

def inclusiveLowerPoint : Int :=
  let lowerPoint := fcsi.binarySearchLookup filter.lowerVal
  if lowerPoint = 0 then 1
  else if filter.includeLower ∧ 0 < lowerPoint then lowerPoint
  else if 0 < lowerPoint then lowerPoint + 1
  else max 1 (-lowerPoint - 1)

def inclusiveUpperPoint : Int :=
  let upperPoint := fcsi.binarySearchLookup filter.upperVal
  if upperPoint = 0 then INT_MAX
  else if filter.includeUpper ∧ 0 < upperPoint then upperPoint
  else if 0 < upperPoint then upperPoint - 1
  else -upperPoint - 2

def getDocIdSet : FilterDocIdSet Nat :=
  if filter.inclusiveUpperPoint fcsi ≤ 0 ∨ filter.inclusiveUpperPoint fcsi < filter.inclusiveLowerPoint fcsi then
    .EMPTY_DOCIDSET
  else .fieldCache {
    mayUseTermDocs := false
    values := fcsi.order
    matchValue := fun ord => filter.inclusiveLowerPoint fcsi ≤ ord ∧ (ord : Int) ≤ filter.inclusiveUpperPoint fcsi }

end FieldCacheRangeFilterString

inductive FieldCacheRangeFilter
  | numeric (filter : FieldCacheRangeFilterNumeric)
  | double (filter : FieldCacheRangeFilterDouble)
  | string (filter : FieldCacheRangeFilterString)

/-- `getValues` of the filters of integers -/
def CachedReader.getValues (reader : CachedReader) : NumericType → List Int
  | .byte => reader.bytes.map fun value => (value.toNat : Int)
  | .int => reader.ints.map Int32.toInt
  | .long => reader.longs.map Int64.toInt

namespace FieldCacheRangeFilter
variable (reader : CachedReader)

/-- The iterator of the filter's set. -/
def iterator : FieldCacheRangeFilter → FilterIterator
  | numeric filter => (filter.getDocIdSet (reader.getValues filter.type)).iterator reader
  | double filter => (filter.getDocIdSet reader.doubles).iterator reader
  | string filter => (filter.getDocIdSet reader.stringIndex).iterator reader

def iteration : FieldCacheRangeFilter → DocIdSetIterator FilterIterator
  | numeric filter => (filter.getDocIdSet (reader.getValues filter.type)).iteration reader
  | double filter => (filter.getDocIdSet reader.doubles).iteration reader
  | string filter => (filter.getDocIdSet reader.stringIndex).iteration reader

end FieldCacheRangeFilter
end LucenePlusPlus
