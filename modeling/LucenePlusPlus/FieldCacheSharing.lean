import LucenePlusPlus.FieldCacheArrays

/-!
Which calls share an entry. The entries tell fields apart but not parsers: what a call returns is the array of the
first call before it that was for the same cache, reader and field.
-/

namespace LucenePlusPlus
variable (parsers : Parsers)

def Call.place (call : Call) : Place := ⟨call.request.type, call.reader.fieldCacheKey, call.field⟩

/-- The array that the call makes where none is kept. -/
def Call.computed (call : Call) : Except FillError CacheValue :=
  match call.request with
  | .getBytes parser => (ByteCache parsers).computed parser call.reader call.field
  | .getInts parser => (IntCache parsers).computed parser call.reader call.field
  | .getLongs parser => (LongCache parsers).computed parser call.reader call.field
  | .getDoubles parser => (DoubleCache parsers).computed parser call.reader call.field
  | .getStrings => StringCache.createValue call.reader call.field
  | .getStringIndex => .ok (StringIndexCache.createValue call.reader call.field)

/-- The array that the call is for: from the terms of its reader and field, with its parser. -/
def Call.own (call : Call) : Except FillError CacheValue :=
  match call.request with
  | .getBytes parser =>
      (ByteCache parsers).parsed (fun parse => (call.reader.arrayOf parse 0 call.field).map .bytes) parser
  | .getInts parser =>
      (IntCache parsers).parsed (fun parse => (call.reader.arrayOf parse 0 call.field).map .ints) parser
  | .getLongs parser =>
      (LongCache parsers).parsed (fun parse => (call.reader.arrayOf parse 0 call.field).map .longs) parser
  | .getDoubles parser =>
      (DoubleCache parsers).parsed (fun parse => (call.reader.arrayOf parse 0 call.field).map .doubles) parser
  | .getStrings => (call.reader.arrayOf (fun text => .ok text) [] call.field).map .strings
  | .getStringIndex => .ok (call.reader.indexOf call.field)

/-- An array in which no document has a value. -/
def CacheType.unset (maxDoc : Nat) : CacheType → CacheValue
  | .CACHE_BYTE => .bytes (List.replicate maxDoc 0)
  | .CACHE_INT => .ints (List.replicate maxDoc 0)
  | .CACHE_LONG => .longs (List.replicate maxDoc 0)
  | .CACHE_DOUBLE => .doubles (List.replicate maxDoc 0)
  | .CACHE_STRING => .strings (List.replicate maxDoc [])
  | .CACHE_STRING_INDEX => .stringIndex (List.replicate maxDoc 0) [[]]

/-- The field has a name, or no document has a value. -/
def Call.Readable (call : Call) : Prop :=
  call.field ≠ [] ∨ call.own parsers = .ok (call.request.type.unset call.reader.maxDoc)

def CacheValue.docs : CacheValue → Nat
  | .bytes values => values.length
  | .ints values => values.length
  | .longs values => values.length
  | .doubles values => values.length
  | .strings values => values.length
  | .stringIndex order _ => order.length

theorem CacheType.docs_unset (maxDoc : Nat) (type : CacheType) : (type.unset maxDoc).docs = maxDoc := by
  cases type <;> exact List.length_replicate

section Own
variable {parsers} {α : Type}

theorem IndexReader.length_of_arrayOf {parse : Parser α} {zero : α} {reader : IndexReader} {field : WString}
    {values : List α} (h : reader.arrayOf parse zero field = .ok values) : values.length = reader.maxDoc := by
  unfold IndexReader.arrayOf at h
  split at h
  · cases h
  · cases h
  · cases h
    rw [List.length_map, List.length_range]

theorem docs_of_parsed {numeric : NumericCache α} {reader : IndexReader} {field : WString} {zero : α}
    {toValue : List α → CacheValue} (hdocs : ∀ values, (toValue values).docs = values.length)
    {parser : Option (Parser α)} {value : CacheValue}
    (h : numeric.parsed (fun parse => (reader.arrayOf parse zero field).map toValue) parser = .ok value) :
    value.docs = reader.maxDoc := by
  have hmake : ∀ parse, (reader.arrayOf parse zero field).map toValue = .ok value → value.docs = reader.maxDoc := by
    intro parse hparse
    cases harray : reader.arrayOf parse zero field with
    | error error =>
        rw [harray] at hparse
        cases hparse
    | ok values =>
        rw [harray] at hparse
        cases hparse
        rw [hdocs, IndexReader.length_of_arrayOf harray]
  cases parser with
  | some parse => exact hmake parse h
  | none =>
      unfold NumericCache.parsed at h
      dsimp only at h
      split at h
      · exact hmake _ h
      · exact hmake _ h

theorem Call.docs_of_own {call : Call} {value : CacheValue} (h : call.own parsers = .ok value) :
    value.docs = call.reader.maxDoc := by
  obtain ⟨request, reader, field⟩ := call
  cases request with
  | getBytes parser => exact docs_of_parsed (fun _ => rfl) h
  | getInts parser => exact docs_of_parsed (fun _ => rfl) h
  | getLongs parser => exact docs_of_parsed (fun _ => rfl) h
  | getDoubles parser => exact docs_of_parsed (fun _ => rfl) h
  | getStrings =>
      exact @docs_of_parsed _ (⟨.CACHE_STRING, fun _ => .parser, .strings, [], fun _ => .ok [], none⟩) _ _ _ .strings
        (fun _ => rfl) (some fun text => .ok text) _ h
  | getStringIndex =>
      cases h
      exact (List.length_map _).trans List.length_range

theorem Call.computed_of_named {call : Call} (h : call.field ≠ []) : call.computed parsers = call.own parsers := by
  obtain ⟨request, reader, field⟩ := call
  cases request with
  | getBytes parser =>
      exact congrArg (fun make => (ByteCache parsers).parsed make parser)
        (funext fun parse => congrArg _ (createArray_eq parse 0 reader h))
  | getInts parser =>
      exact congrArg (fun make => (IntCache parsers).parsed make parser)
        (funext fun parse => congrArg _ (createArray_eq parse 0 reader h))
  | getLongs parser =>
      exact congrArg (fun make => (LongCache parsers).parsed make parser)
        (funext fun parse => congrArg _ (createArray_eq parse 0 reader h))
  | getDoubles parser =>
      exact congrArg (fun make => (DoubleCache parsers).parsed make parser)
        (funext fun parse => congrArg _ (createArray_eq parse 0 reader h))
  | getStrings =>
      exact congrArg (Except.map CacheValue.strings) (createArray_eq (fun text => .ok text) [] reader h)
  | getStringIndex => exact congrArg _ (createIndex_eq reader h)

theorem Call.computed_of_unnamed {call : Call} (h : call.field = []) :
    call.computed parsers = .ok (call.request.type.unset call.reader.maxDoc) := by
  obtain ⟨request, reader, field⟩ := call
  cases h
  cases request with
  | getBytes parser => cases parser <;> rfl
  | getInts parser => cases parser <;> rfl
  | getLongs parser => cases parser <;> rfl
  | getDoubles parser => cases parser <;> rfl
  | getStrings => rfl
  | getStringIndex => rfl

theorem Call.computed_eq_iff {call : Call} : call.computed parsers = call.own parsers ↔ call.Readable parsers := by
  unfold Call.Readable
  by_cases hfield : call.field = []
  · rw [Call.computed_of_unnamed hfield, or_iff_right (not_not.mpr hfield), eq_comm]
  · exact iff_of_true (Call.computed_of_named hfield) (Or.inl hfield)

end Own

namespace FieldCacheImpl
variable {parsers} {call : Call} {cache : FieldCacheImpl}

theorem call_of_valueAt {value : CacheValue} (hvalue : cache.valueAt call.place = some value) :
    FieldCacheImpl.call parsers call cache = (.ok value, cache) := by
  obtain ⟨request, reader, field⟩ := call
  cases request with
  | getBytes parser =>
      exact (ByteCache parsers).get_of_valueAt (fun parser => by cases parser <;> rfl) parser hvalue
  | getInts parser =>
      exact (IntCache parsers).get_of_valueAt (fun parser => by cases parser <;> rfl) parser hvalue
  | getLongs parser =>
      exact (LongCache parsers).get_of_valueAt (fun parser => by cases parser <;> rfl) parser hvalue
  | getDoubles parser =>
      exact (DoubleCache parsers).get_of_valueAt (fun parser => by cases parser <;> rfl) parser hvalue
  | getStrings =>
      exact @Cache.get_of_valueAt _ ⟨.CACHE_STRING, reader.fieldCacheKey, field⟩ _ _ ⟨rfl, rfl⟩ _ hvalue
  | getStringIndex =>
      exact @Cache.get_of_valueAt _ ⟨.CACHE_STRING_INDEX, reader.fieldCacheKey, field⟩ _ _ ⟨rfl, rfl⟩ _ hvalue

theorem call_of_none (hvalue : cache.valueAt call.place = none) :
    (FieldCacheImpl.call parsers call cache).1 = call.computed parsers ∧
      ∀ place, (FieldCacheImpl.call parsers call cache).2.valueAt place =
        if place = call.place then (call.computed parsers).toOption else cache.valueAt place := by
  obtain ⟨request, reader, field⟩ := call
  cases request with
  | getBytes parser =>
      exact (ByteCache parsers).get_of_none (fun parser => by cases parser <;> rfl) parser hvalue
  | getInts parser =>
      exact (IntCache parsers).get_of_none (fun parser => by cases parser <;> rfl) parser hvalue
  | getLongs parser =>
      exact (LongCache parsers).get_of_none (fun parser => by cases parser <;> rfl) parser hvalue
  | getDoubles parser =>
      exact (DoubleCache parsers).get_of_none (fun parser => by cases parser <;> rfl) parser hvalue
  | getStrings =>
      exact @Cache.get_of_none _ ⟨.CACHE_STRING, reader.fieldCacheKey, field⟩ _ _ _ ⟨rfl, rfl⟩
        (creates_const _ _) hvalue
  | getStringIndex =>
      exact @Cache.get_of_none _ ⟨.CACHE_STRING_INDEX, reader.fieldCacheKey, field⟩ _ _ _ ⟨rfl, rfl⟩
        (creates_const _ _) hvalue

end FieldCacheImpl

/-- An array that the first of two calls leaves behind is the one that the second is for. -/
def Agree (call call' : Call) : Prop :=
  call.place = call'.place → ∀ value, call.own parsers = .ok value → call'.own parsers = .ok value

/-- Every call returns the array that it is for. -/
def ReturnsOwn (calls : List Call) : Prop :=
  FieldCacheImpl.calls parsers calls FieldCacheImpl.new = calls.map (Call.own parsers)

/-- The values that are kept already are those the calls are for. -/
def FieldCacheImpl.Serves (cache : FieldCacheImpl) (calls : List Call) : Prop :=
  ∀ call ∈ calls, ∀ value, cache.valueAt call.place = some value → call.own parsers = .ok value

/-- What is kept for the field with the empty name has no values. -/
def FieldCacheImpl.Plain (cache : FieldCacheImpl) : Prop :=
  ∀ place value, place.field = [] → cache.valueAt place = some value → ∃ maxDoc, value = place.type.unset maxDoc

section Calls
variable {parsers} {call : Call} {calls : List Call} {cache : FieldCacheImpl}

theorem FieldCacheImpl.serves_cons_iff :
    cache.Serves parsers (call :: calls) ↔
      (∀ value, cache.valueAt call.place = some value → call.own parsers = .ok value) ∧
        cache.Serves parsers calls := by
  simp only [FieldCacheImpl.Serves, List.mem_cons, forall_eq_or_imp]

theorem FieldCacheImpl.Plain.call_fst_eq_iff (hplain : cache.Plain) :
    (FieldCacheImpl.call parsers call cache).1 = call.own parsers ↔
      (∀ value, cache.valueAt call.place = some value → call.own parsers = .ok value) ∧ call.Readable parsers := by
  rcases hvalue : cache.valueAt call.place with _ | value
  · rw [(FieldCacheImpl.call_of_none hvalue).1, Call.computed_eq_iff]
    simp
  · rw [FieldCacheImpl.call_of_valueAt hvalue]
    simp only [Option.some.injEq, forall_eq']
    rw [eq_comm, iff_self_and]
    intro hown
    by_cases hfield : call.field = []
    · obtain ⟨maxDoc, rfl⟩ := hplain call.place value hfield hvalue
      have hdocs := Call.docs_of_own hown
      rw [CacheType.docs_unset] at hdocs
      exact Or.inr (hdocs ▸ hown)
    · exact Or.inl hfield

theorem FieldCacheImpl.valueAt_call_iff
    (hown : ∀ value, cache.valueAt call.place = some value → call.computed parsers = .ok value) (place : Place)
    (value : CacheValue) :
    (FieldCacheImpl.call parsers call cache).2.valueAt place = some value ↔
      cache.valueAt place = some value ∨ call.place = place ∧ call.computed parsers = .ok value := by
  rcases hvalue : cache.valueAt call.place with _ | value'
  · rw [(FieldCacheImpl.call_of_none hvalue).2]
    by_cases hplace : place = call.place
    · subst hplace
      rw [if_pos rfl, hvalue]
      cases call.computed parsers <;> simp [Except.toOption]
    · rw [if_neg hplace]
      simp [Ne.symm hplace]
  · rw [FieldCacheImpl.call_of_valueAt hvalue]
    constructor
    · exact Or.inl
    · rintro (hcache | ⟨rfl, hcomputed⟩)
      · exact hcache
      · rw [hown value' hvalue] at hcomputed
        cases hcomputed
        exact hvalue

theorem FieldCacheImpl.Plain.call_snd (hplain : cache.Plain)
    (hown : ∀ value, cache.valueAt call.place = some value → call.computed parsers = .ok value) :
    (FieldCacheImpl.call parsers call cache).2.Plain := by
  intro place value hfield hvalue
  rcases (FieldCacheImpl.valueAt_call_iff hown place value).mp hvalue with hcache | ⟨rfl, hcomputed⟩
  · exact hplain place value hfield hcache
  · rw [Call.computed_of_unnamed hfield] at hcomputed
    cases hcomputed
    exact ⟨_, rfl⟩

/-- After a call that returned its own array, the later ones are served if they were before and agree with it. -/
theorem FieldCacheImpl.serves_call_iff (hreadable : call.Readable parsers)
    (hown : ∀ value, cache.valueAt call.place = some value → call.own parsers = .ok value) :
    (FieldCacheImpl.call parsers call cache).2.Serves parsers calls ↔
      cache.Serves parsers calls ∧ ∀ call' ∈ calls, Agree parsers call call' := by
  rw [← Call.computed_eq_iff.mpr hreadable] at hown
  have hkept := FieldCacheImpl.valueAt_call_iff hown
  rw [Call.computed_eq_iff.mpr hreadable] at hkept
  constructor
  · intro h
    refine ⟨fun call' hmem value hvalue => h call' hmem value ((hkept _ _).mpr (.inl hvalue)), ?_⟩
    exact fun call' hmem hplace value hvalue => h call' hmem value ((hkept _ _).mpr (.inr ⟨hplace, hvalue⟩))
  · rintro ⟨hserves, hagree⟩ call' hmem value hvalue
    rcases (hkept _ _).mp hvalue with hcache | ⟨hplace, hcomputed⟩
    · exact hserves call' hmem value hcache
    · exact hagree call' hmem hplace value hcomputed

theorem FieldCacheImpl.Plain.calls_eq_iff (hplain : cache.Plain) :
    FieldCacheImpl.calls parsers calls cache = calls.map (Call.own parsers) ↔
      cache.Serves parsers calls ∧ calls.Pairwise (Agree parsers) ∧ ∀ call ∈ calls, call.Readable parsers := by
  induction calls generalizing cache with
  | nil => simp [FieldCacheImpl.calls, FieldCacheImpl.Serves]
  | cons call calls ih =>
      rw [FieldCacheImpl.calls, List.map_cons, List.cons.injEq, hplain.call_fst_eq_iff,
        FieldCacheImpl.serves_cons_iff, List.pairwise_cons, List.forall_mem_cons]
      have hnext (hreadable : call.Readable parsers)
          (hown : ∀ value, cache.valueAt call.place = some value → call.own parsers = .ok value) :=
        ih (hplain.call_snd (Call.computed_eq_iff.mpr hreadable ▸ hown))
      constructor
      · rintro ⟨⟨hown, hreadable⟩, hcalls⟩
        obtain ⟨hserves, hpairwise, hall⟩ := (hnext hreadable hown).mp hcalls
        obtain ⟨hserves, hagree⟩ := (FieldCacheImpl.serves_call_iff hreadable hown).mp hserves
        exact ⟨⟨hown, hserves⟩, ⟨hagree, hpairwise⟩, hreadable, hall⟩
      · rintro ⟨⟨hown, hserves⟩, ⟨hagree, hpairwise⟩, hreadable, hall⟩
        exact ⟨⟨hown, hreadable⟩, (hnext hreadable hown).mpr
          ⟨(FieldCacheImpl.serves_call_iff hreadable hown).mpr ⟨hserves, hagree⟩, hpairwise, hall⟩⟩

end Calls

/-- A reader with one document, which has the term `7` in the field `n`. -/
def oneDocumentReader : IndexReader where
  fieldCacheKey := 0
  maxDoc := 1
  postings := [(⟨[⟨110, by decide⟩], [⟨55, by decide⟩]⟩, [0])]
  sorted := List.pairwise_singleton _ _
  docs_lt := by simp

/-- The numbers of one field, asked for with two parsers. -/
def twoParserCalls : List Call :=
  [⟨.getInts (some fun _ => .ok 7), oneDocumentReader, [⟨110, by decide⟩]⟩,
    ⟨.getInts (some fun _ => .ok (-7)), oneDocumentReader, [⟨110, by decide⟩]⟩]

end LucenePlusPlus
