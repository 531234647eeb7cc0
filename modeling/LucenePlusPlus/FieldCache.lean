import LucenePlusPlus.Term
import Mathlib.Data.List.Infix

/-!
`FieldCacheImpl`: one value for each document of a reader, made from the terms of a field and kept for the calls
that come later.
-/

namespace LucenePlusPlus

/-- What stops the reading of the terms. -/
inductive FillError
  | numberFormatException
  | stopFillCacheException
  /-- any other `LuceneException` -/
  | luceneException
  deriving DecidableEq

abbrev Parser (α : Type) := WString → Except FillError α

/-- What the cache reads of a reader: the key its entries are kept under, and the terms in their order, each with
its documents that are not deleted. -/
structure IndexReader where
  fieldCacheKey : Nat
  maxDoc : Nat
  postings : List (Term × List Nat)
  sorted : postings.Pairwise fun posting posting' => posting.1 < posting'.1
  docs_lt : ∀ posting ∈ postings, ∀ doc ∈ posting.2, doc < maxDoc

/-- What is read from the first term that is not before the given one. For a term whose field and text are empty the
enumerator is at an unset one, which is null, and where the reading stops. -/
def IndexReader.terms (reader : IndexReader) (term : Term) : List (Term × List Nat) :=
  if term = ⟨[], []⟩ then [] else reader.postings.dropWhile fun posting => posting.1 < term

/-- A `double`, by its bits. -/
abbrev Double := UInt64

inductive CacheType
  | CACHE_BYTE
  | CACHE_INT
  | CACHE_LONG
  | CACHE_DOUBLE
  | CACHE_STRING
  | CACHE_STRING_INDEX
  deriving DecidableEq

inductive CacheValue
  | bytes (values : List UInt8)
  | ints (values : List Int32)
  | longs (values : List Int64)
  | doubles (values : List Double)
  | strings (values : List WString)
  | stringIndex (order : List Nat) (lookup : List WString)
  deriving DecidableEq

/-- What a `boost::any` holds in an entry. -/
inductive Custom
  | byteParser (parser : Option (Parser UInt8))
  | intParser (parser : Option (Parser Int32))
  | longParser (parser : Option (Parser Int64))
  | doubleParser (parser : Option (Parser Double))
  /-- a null `ParserPtr` -/
  | parser

namespace VariantUtils

def equalsType : Custom → Custom → Bool
  | .byteParser _, .byteParser _ => true
  | .intParser _, .intParser _ => true
  | .longParser _, .longParser _ => true
  | .doubleParser _, .doubleParser _ => true
  | .parser, .parser => true
  | _, _ => false

/-- None of the types with a hash code of their own. -/
def hashCode (_ : Custom) : Int32 := 0

end VariantUtils

/-- `StringUtils::hashCode` -/
def WString.hashCode (value : WString) : Int32 :=
  value.foldl (fun hashCode c => hashCode * 31 + Int32.ofInt c.1) 0

structure Entry where
  field : WString
  custom : Custom

def Entry.equals (entry other : Entry) : Bool :=
  if other.field = entry.field then VariantUtils.equalsType entry.custom other.custom else false

def Entry.hashCode (entry : Entry) : Int32 := entry.field.hashCode ^^^ VariantUtils.hashCode entry.custom

/-- What is kept under an entry: a value, or a `CreationPlaceholder` that has none. -/
inductive Cached
  | placeholder
  | value (value : CacheValue)

abbrev MapEntryAny := List (Entry × Cached)

namespace MapEntryAny

def get? (map : MapEntryAny) (key : Entry) : Option Cached :=
  (map.find? fun mapEntry => mapEntry.1.equals key).map Prod.snd

def put (key : Entry) (cached : Cached) : MapEntryAny → MapEntryAny
  | [] => [(key, cached)]
  | mapEntry :: map =>
      if mapEntry.1.equals key then (mapEntry.1, cached) :: map else mapEntry :: put key cached map

end MapEntryAny

/-- `FieldCacheImpl::caches`, each with its `readerCache`. -/
abbrev FieldCacheImpl := CacheType → Nat → MapEntryAny

namespace FieldCacheImpl

/-- After `initialize`: no entries. -/
def new : FieldCacheImpl := fun _ _ => []

def put (cache : FieldCacheImpl) (type : CacheType) (readerKey : Nat) (key : Entry) (cached : Cached) :
    FieldCacheImpl :=
  fun type' readerKey' =>
    if type' = type ∧ readerKey' = readerKey then (cache type readerKey).put key cached
    else cache type' readerKey'

end FieldCacheImpl

/-- The value of a placeholder, once it is made, is kept in place of it. -/
def Cache.fulfil (type : CacheType) (readerKey : Nat) (key : Entry) :
    Except FillError CacheValue × FieldCacheImpl → Except FillError CacheValue × FieldCacheImpl
  | (.ok value, cache) => (.ok value, cache.put type readerKey key (.value value))
  | (.error error, cache) => (.error error, cache)

/-- `Cache::get` -/
def Cache.get (type : CacheType) (createValue : FieldCacheImpl → Except FillError CacheValue × FieldCacheImpl)
    (readerKey : Nat) (key : Entry) (cache : FieldCacheImpl) : Except FillError CacheValue × FieldCacheImpl :=
  match (cache type readerKey).get? key with
  | some (.value value) => (.ok value, cache)
  | some .placeholder => Cache.fulfil type readerKey key (createValue cache)
  | none => Cache.fulfil type readerKey key (createValue (cache.put type readerKey key .placeholder))

section Arrays
variable {α : Type}

/-- The loop over the terms: from the first one of another field on, the rest is not read. -/
def fill (parse : Parser α) (field : WString) : List (Term × List Nat) → List α → Except FillError (List α)
  | [], retArray => .ok retArray
  | (term, docs) :: postings, retArray =>
      if term.field ≠ field then .ok retArray
      else
        match parse term.text with
        | .ok termval => fill parse field postings (docs.foldl (fun array doc => array.set doc termval) retArray)
        | .error .stopFillCacheException => .ok retArray
        | .error error => .error error

def createArray (parse : Parser α) (zero : α) (reader : IndexReader) (field : WString) :
    Except FillError (List α) :=
  fill parse field (reader.terms ⟨field, []⟩) (List.replicate reader.maxDoc zero)

/-- The loop of `StringIndexCache`: the terms go to `mterms` in their order, and it stops where that is full. -/
def fillIndex (field : WString) (size : Nat) :
    List (Term × List Nat) → List Nat → List WString → List Nat × List WString
  | [], retArray, mterms => (retArray, mterms)
  | (term, docs) :: postings, retArray, mterms =>
      if term.field ≠ field ∨ size ≤ mterms.length then (retArray, mterms)
      else fillIndex field size postings
        (docs.foldl (fun array doc => array.set doc mterms.length) retArray) (mterms ++ [term.text])

end Arrays

/-- The parsers of `FieldCache`. -/
structure Parsers where
  DEFAULT_BYTE_PARSER : Parser UInt8
  DEFAULT_INT_PARSER : Parser Int32
  DEFAULT_LONG_PARSER : Parser Int64
  DEFAULT_DOUBLE_PARSER : Parser Double
  NUMERIC_UTILS_INT_PARSER : Parser Int32
  NUMERIC_UTILS_LONG_PARSER : Parser Int64
  NUMERIC_UTILS_DOUBLE_PARSER : Parser Double

/-- What the caches of numbers differ in. -/
structure NumericCache (α : Type) where
  type : CacheType
  custom : Option (Parser α) → Custom
  value : List α → CacheValue
  zero : α
  defaultParser : Parser α
  /-- the parser for terms the default one takes for no number, where there is one -/
  numericUtilsParser : Option (Parser α)

namespace NumericCache
variable {α : Type} (numeric : NumericCache α)

/-- `createValue` with a parser. -/
def createParsed (parse : Parser α) (reader : IndexReader) (field : WString) : Except FillError CacheValue :=
  (createArray parse numeric.zero reader field).map numeric.value

/-- A call with a parser. -/
def getParsed (parse : Parser α) (reader : IndexReader) (field : WString) (cache : FieldCacheImpl) :
    Except FillError CacheValue × FieldCacheImpl :=
  Cache.get numeric.type (fun cache => (numeric.createParsed parse reader field, cache)) reader.fieldCacheKey
    ⟨field, numeric.custom (some parse)⟩ cache

/-- Without a parser, the value is asked for again with one of those of `FieldCache`. -/
def createValue (parser : Option (Parser α)) (reader : IndexReader) (field : WString) (cache : FieldCacheImpl) :
    Except FillError CacheValue × FieldCacheImpl :=
  match parser with
  | some parse => (numeric.createParsed parse reader field, cache)
  | none =>
      match numeric.getParsed numeric.defaultParser reader field cache, numeric.numericUtilsParser with
      | (.error .numberFormatException, cache), some parse => numeric.getParsed parse reader field cache
      | result, _ => result

def get (parser : Option (Parser α)) (reader : IndexReader) (field : WString) (cache : FieldCacheImpl) :
    Except FillError CacheValue × FieldCacheImpl :=
  Cache.get numeric.type (numeric.createValue parser reader field) reader.fieldCacheKey
    ⟨field, numeric.custom parser⟩ cache

end NumericCache

section Caches
variable (parsers : Parsers)

def ByteCache : NumericCache UInt8 where
  type := .CACHE_BYTE
  custom := .byteParser
  value := .bytes
  zero := 0
  defaultParser := parsers.DEFAULT_BYTE_PARSER
  numericUtilsParser := none

def IntCache : NumericCache Int32 where
  type := .CACHE_INT
  custom := .intParser
  value := .ints
  zero := 0
  defaultParser := parsers.DEFAULT_INT_PARSER
  numericUtilsParser := some parsers.NUMERIC_UTILS_INT_PARSER

def LongCache : NumericCache Int64 where
  type := .CACHE_LONG
  custom := .longParser
  value := .longs
  zero := 0
  defaultParser := parsers.DEFAULT_LONG_PARSER
  numericUtilsParser := some parsers.NUMERIC_UTILS_LONG_PARSER

def DoubleCache : NumericCache Double where
  type := .CACHE_DOUBLE
  custom := .doubleParser
  value := .doubles
  zero := 0
  defaultParser := parsers.DEFAULT_DOUBLE_PARSER
  numericUtilsParser := some parsers.NUMERIC_UTILS_DOUBLE_PARSER

/-- `StringCache::createValue`. Terms are taken as they are. -/
def StringCache.createValue (reader : IndexReader) (field : WString) : Except FillError CacheValue :=
  (createArray (fun text => .ok text) [] reader field).map .strings

/-- `StringIndexCache::createValue` -/
def StringIndexCache.createValue (reader : IndexReader) (field : WString) : CacheValue :=
  .stringIndex
    (fillIndex field (reader.maxDoc + 1) (reader.terms ⟨field, []⟩) (List.replicate reader.maxDoc 0) [[]]).1
    (fillIndex field (reader.maxDoc + 1) (reader.terms ⟨field, []⟩) (List.replicate reader.maxDoc 0) [[]]).2

inductive Request
  | getBytes (parser : Option (Parser UInt8))
  | getInts (parser : Option (Parser Int32))
  | getLongs (parser : Option (Parser Int64))
  | getDoubles (parser : Option (Parser Double))
  | getStrings
  | getStringIndex

structure Call where
  request : Request
  reader : IndexReader
  field : WString

def Request.type : Request → CacheType
  | .getBytes _ => .CACHE_BYTE
  | .getInts _ => .CACHE_INT
  | .getLongs _ => .CACHE_LONG
  | .getDoubles _ => .CACHE_DOUBLE
  | .getStrings => .CACHE_STRING
  | .getStringIndex => .CACHE_STRING_INDEX

def FieldCacheImpl.call (call : Call) (cache : FieldCacheImpl) : Except FillError CacheValue × FieldCacheImpl :=
  match call.request with
  | .getBytes parser => (ByteCache parsers).get parser call.reader call.field cache
  | .getInts parser => (IntCache parsers).get parser call.reader call.field cache
  | .getLongs parser => (LongCache parsers).get parser call.reader call.field cache
  | .getDoubles parser => (DoubleCache parsers).get parser call.reader call.field cache
  | .getStrings =>
      Cache.get .CACHE_STRING (fun cache => (StringCache.createValue call.reader call.field, cache))
        call.reader.fieldCacheKey ⟨call.field, .parser⟩ cache
  | .getStringIndex =>
      Cache.get .CACHE_STRING_INDEX (fun cache => (.ok (StringIndexCache.createValue call.reader call.field), cache))
        call.reader.fieldCacheKey ⟨call.field, .parser⟩ cache

/-- What the calls return, one after the other. -/
def FieldCacheImpl.calls : List Call → FieldCacheImpl → List (Except FillError CacheValue)
  | [], _ => []
  | call :: calls, cache =>
      (FieldCacheImpl.call parsers call cache).1 :: FieldCacheImpl.calls calls (FieldCacheImpl.call parsers call cache).2

end Caches

/-! ### What is kept -/

namespace VariantUtils

theorem equalsType_symm (custom other : Custom) : equalsType custom other = equalsType other custom := by
  cases custom <;> cases other <;> rfl

theorem equalsType_trans {custom other another : Custom} (h : equalsType custom other = true) :
    equalsType custom another = equalsType other another := by
  cases custom <;> cases other <;> cases another <;> first | rfl | cases h

end VariantUtils

namespace Entry
variable {entry other another : Entry}

theorem equals_iff :
    entry.equals other = true ↔
      entry.field = other.field ∧ VariantUtils.equalsType entry.custom other.custom = true := by
  unfold equals
  split
  · rename_i h
    simp [h]
  · rename_i h
    simp [Ne.symm h]

theorem equals_comm : entry.equals other = other.equals entry := by
  rw [Bool.eq_iff_iff, equals_iff, equals_iff, VariantUtils.equalsType_symm, eq_comm]

theorem equals_congr (h : entry.equals other = true) : entry.equals another = other.equals another := by
  obtain ⟨hfield, htype⟩ := equals_iff.mp h
  rw [Bool.eq_iff_iff, equals_iff, equals_iff, hfield, VariantUtils.equalsType_trans htype]

end Entry

namespace MapEntryAny
variable {map : MapEntryAny} {key key' : Entry} {cached : Cached}

theorem get?_congr (h : key.equals key' = true) : map.get? key = map.get? key' := by
  unfold get?
  congr 1
  congr 1
  funext mapEntry
  rw [Entry.equals_comm, Entry.equals_congr h, Entry.equals_comm]

theorem get?_cons (mapEntry : Entry × Cached) (map : MapEntryAny) (key : Entry) :
    get? (mapEntry :: map) key = if mapEntry.1.equals key then some mapEntry.2 else get? map key := by
  unfold get?
  rw [List.find?_cons]
  split <;> rename_i h <;> simp [h]

theorem get?_put : (map.put key cached).get? key' = if key.equals key' then some cached else map.get? key' := by
  induction map with
  | nil => rw [put, get?_cons]
  | cons mapEntry map ih =>
      rw [put]
      split
      · rename_i h
        rw [get?_cons, get?_cons, Entry.equals_congr h]
        split <;> rfl
      · rename_i h
        rw [get?_cons, get?_cons, ih]
        split
        · rename_i hhead
          rw [if_neg]
          intro hkey
          exact h (by rw [Entry.equals_congr hhead, Entry.equals_comm, hkey])
        · rfl

end MapEntryAny

/-- Where a value is kept: in which cache, for which reader, under which field. -/
structure Place where
  type : CacheType
  readerKey : Nat
  field : WString
  deriving DecidableEq

/-- The entries of a cache all have the same type of parser. -/
def CacheType.custom : CacheType → Custom
  | .CACHE_BYTE => .byteParser none
  | .CACHE_INT => .intParser none
  | .CACHE_LONG => .longParser none
  | .CACHE_DOUBLE => .doubleParser none
  | .CACHE_STRING => .parser
  | .CACHE_STRING_INDEX => .parser

/-- The entry is one of those that are looked for at the place. -/
def Place.Fits (place : Place) (key : Entry) : Prop :=
  key.field = place.field ∧ VariantUtils.equalsType key.custom place.type.custom = true

namespace FieldCacheImpl
variable {cache : FieldCacheImpl} {place place' : Place} {key : Entry}

def slotAt (cache : FieldCacheImpl) (place : Place) : Option Cached :=
  (cache place.type place.readerKey).get? ⟨place.field, place.type.custom⟩

def valueAt (cache : FieldCacheImpl) (place : Place) : Option CacheValue :=
  match cache.slotAt place with
  | some (.value value) => some value
  | _ => none

theorem get?_of_fits (h : place.Fits key) : (cache place.type place.readerKey).get? key = cache.slotAt place :=
  MapEntryAny.get?_congr (Entry.equals_iff.mpr h)

theorem slotAt_put (h : place.Fits key) (cached : Cached) (place' : Place) :
    (cache.put place.type place.readerKey key cached).slotAt place' =
      if place' = place then some cached else cache.slotAt place' := by
  unfold slotAt put
  split
  · rename_i hcache
    rw [MapEntryAny.get?_put, hcache.1, hcache.2]
    refine if_congr ?_ rfl rfl
    rw [Entry.equals_iff]
    dsimp only
    rw [h.1]
    constructor
    · rintro ⟨hfield, -⟩
      cases place
      cases place'
      simp_all
    · rintro rfl
      exact ⟨rfl, h.2⟩
  · rename_i hcache
    rw [if_neg]
    rintro rfl
    exact hcache ⟨rfl, rfl⟩

theorem valueAt_put_value (h : place.Fits key) (value : CacheValue) (place' : Place) :
    (cache.put place.type place.readerKey key (.value value)).valueAt place' =
      if place' = place then some value else cache.valueAt place' := by
  unfold valueAt
  rw [slotAt_put h]
  by_cases hplace : place' = place
  · rw [if_pos hplace, if_pos hplace]
  · rw [if_neg hplace, if_neg hplace]

theorem valueAt_put_placeholder (h : place.Fits key) (place' : Place) :
    (cache.put place.type place.readerKey key .placeholder).valueAt place' =
      if place' = place then none else cache.valueAt place' := by
  unfold valueAt
  rw [slotAt_put h]
  by_cases hplace : place' = place
  · rw [if_pos hplace, if_pos hplace]
  · rw [if_neg hplace, if_neg hplace]

end FieldCacheImpl

/-- A function that makes the value for a place that has none: what it gives, and that it keeps it nowhere else. -/
structure Creates (create : FieldCacheImpl → Except FillError CacheValue × FieldCacheImpl) (place : Place)
    (computed : Except FillError CacheValue) : Prop where
  result : ∀ cache, cache.valueAt place = none → (create cache).1 = computed
  others : ∀ cache, cache.valueAt place = none → ∀ place', place' ≠ place →
    (create cache).2.valueAt place' = cache.valueAt place'
  failed : ∀ cache, cache.valueAt place = none → ∀ error, computed = .error error →
    (create cache).2.valueAt place = none

section Creates
variable {create : FieldCacheImpl → Except FillError CacheValue × FieldCacheImpl} {place : Place} {key : Entry}
  {computed : Except FillError CacheValue} {cache : FieldCacheImpl}

theorem creates_const (place : Place) (computed : Except FillError CacheValue) :
    Creates (fun cache => (computed, cache)) place computed where
  result _ _ := rfl
  others _ _ _ _ := rfl
  failed _ h _ _ := h

theorem Cache.get_of_valueAt (h : place.Fits key) {value : CacheValue} (hvalue : cache.valueAt place = some value) :
    Cache.get place.type create place.readerKey key cache = (.ok value, cache) := by
  unfold FieldCacheImpl.valueAt at hvalue
  unfold Cache.get
  rw [FieldCacheImpl.get?_of_fits h]
  split at hvalue
  · rename_i value' hslot
    cases hvalue
    rw [hslot]
  · cases hvalue

theorem Cache.fulfil_spec (h : place.Fits key) (hcreate : Creates create place computed)
    (hvalue : cache.valueAt place = none) :
    (Cache.fulfil place.type place.readerKey key (create cache)).1 = computed ∧
      ∀ place', (Cache.fulfil place.type place.readerKey key (create cache)).2.valueAt place' =
        if place' = place then computed.toOption else cache.valueAt place' := by
  have hresult := hcreate.result cache hvalue
  have hothers := hcreate.others cache hvalue
  have hfailed := hcreate.failed cache hvalue
  generalize create cache = made at hresult hothers hfailed ⊢
  obtain ⟨made, cache'⟩ := made
  subst hresult
  cases made with
  | ok value =>
      refine ⟨rfl, fun place' => ?_⟩
      dsimp only [Cache.fulfil]
      rw [FieldCacheImpl.valueAt_put_value h]
      by_cases hplace : place' = place
      · rw [if_pos hplace, if_pos hplace]
        rfl
      · rw [if_neg hplace, if_neg hplace]
        exact hothers place' hplace
  | error error =>
      refine ⟨rfl, fun place' => ?_⟩
      dsimp only [Cache.fulfil]
      by_cases hplace : place' = place
      · rw [if_pos hplace, hplace]
        exact hfailed error rfl
      · rw [if_neg hplace]
        exact hothers place' hplace

theorem Cache.get_of_none (h : place.Fits key) (hcreate : Creates create place computed)
    (hvalue : cache.valueAt place = none) :
    (Cache.get place.type create place.readerKey key cache).1 = computed ∧
      ∀ place', (Cache.get place.type create place.readerKey key cache).2.valueAt place' =
        if place' = place then computed.toOption else cache.valueAt place' := by
  have hslot := hvalue
  unfold FieldCacheImpl.valueAt at hslot
  unfold Cache.get
  rw [FieldCacheImpl.get?_of_fits h]
  rcases hcase : cache.slotAt place with _ | (_ | value)
  · have hplaceholder := fun place' => @FieldCacheImpl.valueAt_put_placeholder cache _ _ h place'
    have hnone := hplaceholder place
    rw [if_pos rfl] at hnone
    obtain ⟨hresult, hvalues⟩ := Cache.fulfil_spec h hcreate hnone
    refine ⟨hresult, fun place' => ?_⟩
    rw [hvalues, hplaceholder]
    by_cases hplace : place' = place
    · rw [if_pos hplace, if_pos hplace]
    · rw [if_neg hplace, if_neg hplace, if_neg hplace]
  · exact Cache.fulfil_spec h hcreate hvalue
  · rw [hcase] at hslot
    cases hslot

theorem Creates.get (h : place.Fits key) (hcreate : Creates create place computed) :
    Creates (Cache.get place.type create place.readerKey key) place computed where
  result _ hvalue := (Cache.get_of_none h hcreate hvalue).1
  others _ hvalue place' hplace := by rw [(Cache.get_of_none h hcreate hvalue).2, if_neg hplace]
  failed _ hvalue error herror := by
    rw [(Cache.get_of_none h hcreate hvalue).2, if_pos rfl, herror]
    rfl

theorem Creates.congr (hcreate : Creates create place computed)
    {create' : FieldCacheImpl → Except FillError CacheValue × FieldCacheImpl}
    (heq : ∀ cache, cache.valueAt place = none → create' cache = create cache) : Creates create' place computed where
  result cache hvalue := by rw [heq cache hvalue, hcreate.result cache hvalue]
  others cache hvalue place' hplace := by rw [heq cache hvalue, hcreate.others cache hvalue place' hplace]
  failed cache hvalue error herror := by rw [heq cache hvalue, hcreate.failed cache hvalue error herror]

theorem Creates.orElse {again : FieldCacheImpl → Except FillError CacheValue × FieldCacheImpl}
    {computed' : Except FillError CacheValue} (hcreate : Creates create place (.error .numberFormatException))
    (hagain : Creates again place computed') :
    Creates (fun cache => again (create cache).2) place computed' where
  result cache hvalue := hagain.result _ (hcreate.failed cache hvalue _ rfl)
  others cache hvalue place' hplace := by
    rw [hagain.others _ (hcreate.failed cache hvalue _ rfl) place' hplace, hcreate.others cache hvalue place' hplace]
  failed cache hvalue error herror := hagain.failed _ (hcreate.failed cache hvalue _ rfl) error herror

end Creates

section Numeric
variable {α : Type} (numeric : NumericCache α)

/-- What is made with a parser, or without one with those of `FieldCache`. -/
def NumericCache.parsed (make : Parser α → Except FillError CacheValue) : Option (Parser α) → Except FillError CacheValue
  | some parse => make parse
  | none =>
      match make numeric.defaultParser, numeric.numericUtilsParser with
      | .error .numberFormatException, some parse => make parse
      | result, _ => result

/-- The array that a call for numbers makes. -/
def NumericCache.computed (parser : Option (Parser α)) (reader : IndexReader) (field : WString) :
    Except FillError CacheValue :=
  numeric.parsed (fun parse => numeric.createParsed parse reader field) parser

variable {numeric} {reader : IndexReader} {field : WString}

theorem NumericCache.creates_getParsed
    (h : ∀ parser, VariantUtils.equalsType (numeric.custom parser) numeric.type.custom = true) (parse : Parser α) :
    Creates (numeric.getParsed parse reader field) ⟨numeric.type, reader.fieldCacheKey, field⟩
      (numeric.createParsed parse reader field) :=
  @Creates.get _ ⟨numeric.type, reader.fieldCacheKey, field⟩ _ _ ⟨rfl, h (some parse)⟩ (creates_const _ _)

theorem NumericCache.creates_createValue
    (h : ∀ parser, VariantUtils.equalsType (numeric.custom parser) numeric.type.custom = true)
    (parser : Option (Parser α)) :
    Creates (numeric.createValue parser reader field) ⟨numeric.type, reader.fieldCacheKey, field⟩
      (numeric.computed parser reader field) := by
  cases parser with
  | some parse => exact creates_const _ _
  | none =>
      have hdefault := @creates_getParsed _ _ reader field h numeric.defaultParser
      unfold NumericCache.computed NumericCache.parsed
      dsimp only
      split
      · rename_i parse hfailed hparser
        rw [hfailed] at hdefault
        apply (hdefault.orElse (creates_getParsed h parse)).congr
        intro cache hvalue
        have hresult := hdefault.result cache hvalue
        unfold NumericCache.createValue
        dsimp only
        rw [hparser]
        generalize numeric.getParsed numeric.defaultParser reader field cache = made at hresult ⊢
        obtain ⟨made, cache'⟩ := made
        subst hresult
        rfl
      · rename_i hother
        apply hdefault.congr
        intro cache hvalue
        have hresult := hdefault.result cache hvalue
        unfold NumericCache.createValue
        dsimp only
        generalize numeric.getParsed numeric.defaultParser reader field cache = made at hresult ⊢
        obtain ⟨made, cache'⟩ := made
        split
        · rename_i parse hmade hparser
          cases hmade
          exact absurd hparser (hother parse hresult.symm)
        · rfl

theorem NumericCache.get_of_none
    (h : ∀ parser, VariantUtils.equalsType (numeric.custom parser) numeric.type.custom = true)
    (parser : Option (Parser α)) {cache : FieldCacheImpl}
    (hvalue : cache.valueAt ⟨numeric.type, reader.fieldCacheKey, field⟩ = none) :
    (numeric.get parser reader field cache).1 = numeric.computed parser reader field ∧
      ∀ place, (numeric.get parser reader field cache).2.valueAt place =
        if place = ⟨numeric.type, reader.fieldCacheKey, field⟩ then
          (numeric.computed parser reader field).toOption
        else cache.valueAt place :=
  @Cache.get_of_none _ ⟨numeric.type, reader.fieldCacheKey, field⟩ _ _ _ ⟨rfl, h parser⟩
    (creates_createValue h parser) hvalue

theorem NumericCache.get_of_valueAt
    (h : ∀ parser, VariantUtils.equalsType (numeric.custom parser) numeric.type.custom = true)
    (parser : Option (Parser α)) {cache : FieldCacheImpl} {value : CacheValue}
    (hvalue : cache.valueAt ⟨numeric.type, reader.fieldCacheKey, field⟩ = some value) :
    numeric.get parser reader field cache = (.ok value, cache) :=
  @Cache.get_of_valueAt _ ⟨numeric.type, reader.fieldCacheKey, field⟩ _ _ ⟨rfl, h parser⟩ _ hvalue

end Numeric

end LucenePlusPlus
