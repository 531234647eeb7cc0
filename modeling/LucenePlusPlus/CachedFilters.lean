import LucenePlusPlus.OpenBitSetSets
import Mathlib.Logic.Function.Basic

/-!
`CachingWrapperFilter`: the set that a filter gives for a reader is kept, under the core of the reader, under its deletions, or
under both. What is kept under the core alone is patched with the deletions of the reader that asks.
-/

namespace LucenePlusPlus
namespace CachingWrapperFilter

/-- A `DocIdSet`: what its iterator lists, or none where the iterator is null, and whether the set itself may be kept. -/
structure DocIdSet where
  iterator : Option (List Nat)
  isCacheable : Bool
  ascending : ∀ docs ∈ iterator, docs.Pairwise (· < ·)

/-- The documents of a set that may be null. -/
def docsOf (set : Option DocIdSet) : List Nat := (set.bind DocIdSet.iterator).getD []

def EMPTY_DOCIDSET : DocIdSet := ⟨some [], true, by simp⟩

/-- `OpenBitSetDISI::inPlaceOr`, the size being an `int32_t`. -/
def inPlaceOr (set : OpenBitSet) (docs : List Nat) : OpenBitSet :=
  let _size := toInt32 set.capacity
  (docs.takeWhile fun (doc : Nat) => decide ((doc : Int) < _size)).foldl OpenBitSet.set set

/-- The bits that are set, in order. -/
def OpenBitSetDISI (docs : List Nat) (maxSize : Nat) : DocIdSet where
  iterator := some ((List.range (inPlaceOr (OpenBitSet.ofSize maxSize) docs).capacity).filter
    (inPlaceOr (OpenBitSet.ofSize maxSize) docs).has)
  isCacheable := true
  ascending := by
    rintro docs ⟨⟩
    exact List.pairwise_lt_range.filter _

/-- What the clones and reopens of a segment reader share. -/
structure Core (Stream : Type) where
  freqStream : Stream
  maxDoc : Nat
  maxDoc_lt : maxDoc < 2 ^ 31

/-- A segment reader: the vector of its deletions is null while it has none. -/
structure Reader (Stream Vector : Type) where
  core : Core Stream
  deletedDocs : Option Vector

inductive Key (Stream Vector : Type)
  | freqStream (stream : Stream)
  | deletedDocs (vector : Vector)
deriving DecidableEq

variable {Stream Vector : Type}

namespace Reader
variable (reader : Reader Stream Vector)

def hasDeletions : Bool := reader.deletedDocs.isSome

/-- With the bits of each vector. -/
def isDeleted (bits : Vector → Nat → Bool) (doc : Nat) : Bool := (reader.deletedDocs.map fun vector => bits vector doc).getD false

def getFieldCacheKey : Key Stream Vector := .freqStream reader.core.freqStream

/-- `reader->hasDeletions() ? reader->getDeletesCacheKey() : coreKey` -/
def delCoreKey : Key Stream Vector := (reader.deletedDocs.map Key.deletedDocs).getD reader.getFieldCacheKey

def Live (bits : Vector → Nat → Bool) (doc : Nat) : Prop := doc < reader.core.maxDoc ∧ reader.isDeleted bits doc = false

end Reader

inductive DeletesMode
  | DELETES_IGNORE
  | DELETES_RECACHE
  | DELETES_DYNAMIC
deriving DecidableEq

/-- What a call returns: a set that is kept, or one without the deletions of the reader. -/
inductive Served (Stream Vector : Type)
  | kept (set : DocIdSet)
  | filteredCacheDocIdSet (reader : Reader Stream Vector) (innerSet : DocIdSet)

/-- The documents of what is returned, or none where its iterator raises: a `FilteredDocIdSetIterator` over a null one. -/
def Served.docs (bits : Vector → Nat → Bool) : Served Stream Vector → Option (List Nat)
  | .kept set => some (set.iterator.getD [])
  | .filteredCacheDocIdSet reader innerSet => innerSet.iterator.map fun docs => docs.filter fun doc => !reader.isDeleted bits doc

abbrev FilterCache (Stream Vector : Type) := Key Stream Vector → Option DocIdSet

namespace FilterCache
variable (deletesMode : DeletesMode) (cache : FilterCache Stream Vector)

def mergeDeletes (reader : Reader Stream Vector) (value : DocIdSet) : Served Stream Vector := .filteredCacheDocIdSet reader value

def get (reader : Reader Stream Vector) (coreKey delCoreKey : Key Stream Vector) : Option (Served Stream Vector) :=
  match deletesMode with
  | .DELETES_IGNORE => (cache coreKey).map .kept
  | .DELETES_RECACHE => (cache delCoreKey).map .kept
  | .DELETES_DYNAMIC =>
      -- first the exact match, then the core with the deletions taken out
      ((cache delCoreKey).map .kept).or
        ((cache coreKey).map fun value => if reader.hasDeletions then mergeDeletes reader value else .kept value)

variable [DecidableEq Stream] [DecidableEq Vector]

def put (coreKey delCoreKey : Key Stream Vector) (value : DocIdSet) : FilterCache Stream Vector :=
  match deletesMode with
  | .DELETES_IGNORE => Function.update cache coreKey (some value)
  | .DELETES_RECACHE => Function.update cache delCoreKey (some value)
  | .DELETES_DYNAMIC => Function.update (Function.update cache coreKey (some value)) delCoreKey (some value)

end FilterCache

/-- The cache and the counts. -/
structure State (Stream Vector : Type) where
  cache : FilterCache Stream Vector
  hitCount : Nat
  missCount : Nat

def State.new : State Stream Vector := ⟨fun _ => none, 0, 0⟩

def docIdSetToCache (docIdSet : Option DocIdSet) (reader : Reader Stream Vector) : DocIdSet :=
  match docIdSet with
  | none => EMPTY_DOCIDSET
  | some set =>
      if set.isCacheable then set
      else
        match set.iterator with
        | none => EMPTY_DOCIDSET
        | some docs => OpenBitSetDISI docs reader.core.maxDoc

section
variable [DecidableEq Stream] [DecidableEq Vector] (filter : Reader Stream Vector → Option DocIdSet) (deletesMode : DeletesMode)

def getDocIdSet (state : State Stream Vector) (reader : Reader Stream Vector) : Served Stream Vector × State Stream Vector :=
  match FilterCache.get deletesMode state.cache reader reader.getFieldCacheKey reader.delCoreKey with
  | some docIdSet => (docIdSet, { state with hitCount := state.hitCount + 1 })
  | none =>
      let docIdSet := docIdSetToCache (filter reader) reader
      (.kept docIdSet,
        { state with
          cache := FilterCache.put deletesMode state.cache reader.getFieldCacheKey reader.delCoreKey docIdSet
          missCount := state.missCount + 1 })

/-- The sets that are returned to readers that ask in this order. -/
def run (state : State Stream Vector) : List (Reader Stream Vector) → List (Served Stream Vector)
  | [] => []
  | reader :: readers =>
      let (served, state) := getDocIdSet filter deletesMode state reader
      served :: run state readers

end
end CachingWrapperFilter
end LucenePlusPlus

/-!
What a cached filter gives to readers that share a core. Kept under the deletions, a set is the reader's own; kept under the
core, it is the set of the reader that asked first, without the later reader's deletions, and what the first one's deletions
took out of it stays out.
-/

namespace LucenePlusPlus
namespace CachingWrapperFilter
open OpenBitSet (Stands mem_elements bits2words_eq)

theorem mem_takeWhile_lt {docs : List Nat} (h : docs.Pairwise (· < ·)) (size : Int) (doc : Nat) :
    doc ∈ docs.takeWhile (fun (d : Nat) => decide ((d : Int) < size)) ↔ doc ∈ docs ∧ (doc : Int) < size := by
  induction docs with
  | nil => simp
  | cons d docs ih =>
      rw [List.pairwise_cons] at h
      rw [List.takeWhile_cons]
      split
      · rename_i hlt
        rw [List.mem_cons, List.mem_cons, ih h.2]
        constructor
        · rintro (rfl | ⟨hmem, hdoc⟩)
          · exact ⟨.inl rfl, of_decide_eq_true hlt⟩
          · exact ⟨.inr hmem, hdoc⟩
        · rintro ⟨rfl | hmem, hdoc⟩
          · exact .inl rfl
          · exact .inr ⟨hmem, hdoc⟩
      · rename_i hge
        have hsize : ¬ (d : Int) < size := fun hlt => hge (decide_eq_true hlt)
        simp only [List.not_mem_nil, List.mem_cons, false_iff, not_and]
        rintro (rfl | hmem)
        · exact hsize
        · have hlt := h.1 doc hmem
          omega

theorem stands_foldl_set {docs : List Nat} {set : OpenBitSet} {E : Finset Nat} (h : Stands set E)
    (hdocs : ∀ doc ∈ docs, doc < 2 ^ 37) : Stands (docs.foldl OpenBitSet.set set) (E ∪ docs.toFinset) := by
  induction docs generalizing set E with
  | nil => simpa using h
  | cons doc docs ih =>
      have hset := h.valid.set (hdocs doc List.mem_cons_self)
      rw [h.elements_eq] at hset
      have hrest := ih hset fun d hd => hdocs d (List.mem_cons_of_mem _ hd)
      rw [List.foldl_cons, List.toFinset_cons, Finset.union_insert, ← Finset.insert_union]
      exact hrest

theorem capacity_ofSize {n : Nat} (h : n < 2 ^ 31) : (OpenBitSet.ofSize n).capacity = 64 * ((n + 63) / 64) := by
  rw [OpenBitSet.capacity, OpenBitSet.ofSize, List.length_replicate, bits2words_eq (by omega), Nat.shiftLeft_eq]
  omega

/-- The size that `inPlaceOr` stops at is right unless it is that of `2 ^ 31` bits. -/
theorem lt_size_iff {n doc : Nat} (hn : n < 2 ^ 31) (hdoc : doc < n) :
    (doc : Int) < toInt32 ((OpenBitSet.ofSize n).capacity : Nat) ↔ n ≤ 2 ^ 31 - 64 := by
  rw [capacity_ofSize hn]
  by_cases hle : n ≤ 2 ^ 31 - 64
  · rw [toInt32_of_lt (by omega) (by omega)]
    omega
  · have hcap : 64 * ((n + 63) / 64) = 2 ^ 31 := by omega
    rw [hcap, show toInt32 ((2 ^ 31 : Nat) : Int) = -2 ^ 31 by decide]
    omega

theorem toInt32_le {n : Nat} (hn : n < 2 ^ 31) : toInt32 ((OpenBitSet.ofSize n).capacity : Nat) ≤ 2 ^ 31 := by
  rw [capacity_ofSize hn]
  unfold toInt32
  omega

theorem mem_OpenBitSetDISI {docs : List Nat} {n doc : Nat} (h : docs.Pairwise (· < ·)) (hn : n < 2 ^ 31) (hdoc : doc < n) :
    doc ∈ (OpenBitSetDISI docs n).iterator.getD [] ↔ doc ∈ docs ∧ n ≤ 2 ^ 31 - 64 := by
  have hstands : Stands (inPlaceOr (OpenBitSet.ofSize n) docs)
      (∅ ∪ (docs.takeWhile fun (d : Nat) => decide ((d : Int) < toInt32 (OpenBitSet.ofSize n).capacity)).toFinset) := by
    apply stands_foldl_set OpenBitSet.Valid.ofSize
    intro d hd
    have hlt := ((mem_takeWhile_lt h _ d).mp hd).2
    have hle := toInt32_le hn
    omega
  have hcapacity (s : OpenBitSet) : s.capacity = 64 * s.bits.length := by
    rw [OpenBitSet.capacity, Nat.shiftLeft_eq]
    omega
  have helements := hstands.elements_eq
  rw [Finset.empty_union] at helements
  calc
    doc ∈ (OpenBitSetDISI docs n).iterator.getD [] ↔ doc ∈ (inPlaceOr (OpenBitSet.ofSize n) docs).elements := by
      rw [OpenBitSetDISI, Option.getD_some, List.mem_filter, List.mem_range, hcapacity, OpenBitSet.elements, Finset.mem_filter,
        Finset.mem_range]
    _ ↔ doc ∈ docs ∧ n ≤ 2 ^ 31 - 64 := by
      rw [helements, List.mem_toFinset, mem_takeWhile_lt h, lt_size_iff hn hdoc]

variable {Stream Vector : Type} (filter : Reader Stream Vector → Option DocIdSet) (bits : Vector → Nat → Bool)

/-- What is kept for the reader has all its documents: the set itself, or a copy of a size that is an `int32_t`. -/
def Whole (reader : Reader Stream Vector) : Prop :=
  reader.core.maxDoc ≤ 2 ^ 31 - 64 ∨ ∀ set, filter reader = some set → set.isCacheable = true

/-- The set of the reader is kept itself, and its iterator is null. -/
def NullKept (reader : Reader Stream Vector) : Prop :=
  ∃ set, filter reader = some set ∧ set.isCacheable = true ∧ set.iterator = none

theorem mem_docIdSetToCache {reader : Reader Stream Vector} {doc : Nat} (hdoc : doc < reader.core.maxDoc) :
    doc ∈ (docIdSetToCache (filter reader) reader).iterator.getD [] ↔
      doc ∈ docsOf (filter reader) ∧ Whole filter reader := by
  rw [Whole]
  cases hset : filter reader with
  | none => simp [docIdSetToCache, EMPTY_DOCIDSET, docsOf]
  | some set =>
      by_cases hcacheable : set.isCacheable = true
      · simp [docIdSetToCache, docsOf, hcacheable]
      · cases hit : set.iterator with
        | none => simp [docIdSetToCache, docsOf, hcacheable, hit, EMPTY_DOCIDSET]
        | some docs =>
            have hmem := mem_OpenBitSetDISI (set.ascending docs hit) reader.core.maxDoc_lt hdoc
            simp only [docIdSetToCache, hcacheable, hit, docsOf]
            simpa [hcacheable, hit] using hmem

theorem iterator_docIdSetToCache (reader : Reader Stream Vector) :
    (docIdSetToCache (filter reader) reader).iterator = none ↔ NullKept filter reader := by
  rw [NullKept]
  cases hset : filter reader with
  | none => simp [docIdSetToCache, EMPTY_DOCIDSET]
  | some set =>
      by_cases hcacheable : set.isCacheable = true
      · simp [docIdSetToCache, hcacheable]
      · cases hit : set.iterator with
        | none => simp [docIdSetToCache, hcacheable, hit, EMPTY_DOCIDSET]
        | some docs => simp [docIdSetToCache, hcacheable, hit, OpenBitSetDISI]

theorem delCoreKey_inj {reader other : Reader Stream Vector} (hcore : reader.core = other.core) :
    reader.delCoreKey = other.delCoreKey ↔ reader = other := by
  constructor
  · intro hkey
    obtain ⟨core, deletedDocs⟩ := reader
    obtain ⟨_, deletedDocs'⟩ := other
    cases hcore
    cases deletedDocs <;> cases deletedDocs' <;>
      simp_all [Reader.delCoreKey, Reader.getFieldCacheKey]
  · rintro rfl
    rfl

/-- What a reader is served has, of its live documents, those that the wrapped filter has for it. -/
def Agrees (reader : Reader Stream Vector) (served : Served Stream Vector) : Prop :=
  ∃ docs, served.docs bits = some docs ∧ ∀ doc, reader.Live bits doc → (doc ∈ docs ↔ doc ∈ docsOf (filter reader))

/-- The set that the filter has for the first reader is also right for the other one, wherever that one's documents live. -/
def Right (first reader : Reader Stream Vector) : Prop :=
  ∀ doc, reader.Live bits doc → (doc ∈ docsOf (filter first) ∧ Whole filter first ↔ doc ∈ docsOf (filter reader))

theorem agrees_kept_iff {first reader : Reader Stream Vector} (hcore : reader.core = first.core) :
    Agrees filter bits reader (.kept (docIdSetToCache (filter first) first)) ↔ Right filter bits first reader := by
  rw [Agrees, Right]
  constructor
  · rintro ⟨docs, hdocs, hagree⟩ doc hlive
    rw [← hagree doc hlive, ← mem_docIdSetToCache filter (hcore ▸ hlive.1), ← Option.some.inj hdocs]
  · intro h
    refine ⟨_, rfl, fun doc hlive => ?_⟩
    rw [mem_docIdSetToCache filter (hcore ▸ hlive.1)]
    exact h doc hlive

theorem agrees_filtered_iff {first reader : Reader Stream Vector} (hcore : reader.core = first.core) :
    Agrees filter bits reader (.filteredCacheDocIdSet reader (docIdSetToCache (filter first) first)) ↔
      Right filter bits first reader ∧ ¬ NullKept filter first := by
  rw [← agrees_kept_iff filter bits hcore, ← iterator_docIdSetToCache, Agrees, Agrees, Served.docs, Served.docs]
  cases (docIdSetToCache (filter first) first).iterator with
  | none => simp
  | some docs =>
      have hlive (doc : Nat) (h : reader.Live bits doc) :
          (doc ∈ docs.filter fun doc => !reader.isDeleted bits doc) ↔ doc ∈ docs := by
        rw [List.mem_filter, h.2]
        simp
      simp only [Option.map_some, Option.getD_some, Option.some.injEq, exists_eq_left', reduceCtorEq, not_false_eq_true,
        and_true]
      exact forall₂_congr fun doc h => by rw [hlive doc h]

section Runs
variable [DecidableEq Stream] [DecidableEq Vector] {deletesMode : DeletesMode} {core : Core Stream}
variable {readers : List (Reader Stream Vector)}

/-- If every state that is met returns `S reader` to a reader, so does the whole run. -/
theorem run_eq_map {I : State Stream Vector → Prop} {S : Reader Stream Vector → Served Stream Vector}
    (hstep : ∀ state reader, I state → reader.core = core →
      (getDocIdSet filter deletesMode state reader).1 = S reader ∧ I (getDocIdSet filter deletesMode state reader).2)
    (hcore : ∀ reader ∈ readers, reader.core = core) {state : State Stream Vector} (h : I state) :
    run filter deletesMode state readers = readers.map S := by
  induction readers generalizing state with
  | nil => rfl
  | cons reader readers ih =>
      obtain ⟨hserved, hnext⟩ := hstep state reader h (hcore reader List.mem_cons_self)
      rw [run, List.map_cons, ← hserved, ← ih (fun r hr => hcore r (List.mem_cons_of_mem _ hr)) hnext]

/-- Under a key of deletions, or of a core for a reader with none, is the set of the reader itself. -/
def Recached (core : Core Stream) (state : State Stream Vector) : Prop :=
  ∀ reader : Reader Stream Vector, reader.core = core → ∀ value, state.cache reader.delCoreKey = some value →
    value = docIdSetToCache (filter reader) reader

theorem recached_step (state : State Stream Vector) (reader : Reader Stream Vector) (h : Recached filter core state)
    (hcore : reader.core = core) :
    (getDocIdSet filter .DELETES_RECACHE state reader).1 = .kept (docIdSetToCache (filter reader) reader) ∧
      Recached filter core (getDocIdSet filter .DELETES_RECACHE state reader).2 := by
  rw [getDocIdSet, FilterCache.get]
  cases hget : state.cache reader.delCoreKey with
  | some value => exact ⟨congrArg Served.kept (h reader hcore value hget), h⟩
  | none =>
      refine ⟨rfl, fun other hother value hvalue => ?_⟩
      simp only [Option.map_none, FilterCache.put, Function.update_apply] at hvalue
      split at hvalue
      · rename_i hkey
        rw [(delCoreKey_inj (hother.trans hcore.symm)).mp hkey]
        exact (Option.some.inj hvalue).symm
      · exact h other hother value hvalue

/-- A reader that is served the set of the first one, patched: it has deletions, and others. -/
def Patched (first reader : Reader Stream Vector) : Prop :=
  reader.hasDeletions = true ∧ reader.deletedDocs ≠ first.deletedDocs

instance (first reader : Reader Stream Vector) : Decidable (Patched first reader) := by
  unfold Patched
  infer_instance

/-- What is returned once the first reader has been served. -/
def servedAfter (first reader : Reader Stream Vector) : Served Stream Vector :=
  if Patched first reader then .filteredCacheDocIdSet reader (docIdSetToCache (filter first) first)
  else .kept (docIdSetToCache (filter first) first)

/-- The set of the first reader is under the core and under its own key, and no set is anywhere else. -/
def Dynamic (first : Reader Stream Vector) (state : State Stream Vector) : Prop :=
  state.cache first.getFieldCacheKey = some (docIdSetToCache (filter first) first) ∧
    ∀ reader : Reader Stream Vector, reader.core = first.core → state.cache reader.delCoreKey =
      if Patched first reader then none else some (docIdSetToCache (filter first) first)

theorem dynamic_first (first : Reader Stream Vector) :
    (getDocIdSet filter .DELETES_DYNAMIC State.new first).1 = servedAfter filter first first ∧
      Dynamic filter first (getDocIdSet filter .DELETES_DYNAMIC State.new first).2 := by
  have hfirst : ¬ Patched first first := fun h => h.2 rfl
  refine ⟨(if_neg hfirst).symm, ?_, fun reader hcore => ?_⟩
  · simp only [getDocIdSet, FilterCache.get, FilterCache.put, State.new, Option.map_none, Option.or_none, Function.update_apply]
    split <;> simp
  · simp only [getDocIdSet, FilterCache.get, FilterCache.put, State.new, Option.map_none, Option.or_none, Function.update_apply]
    split
    · rename_i heq
      rw [(delCoreKey_inj hcore).mp heq, if_neg hfirst]
    · rename_i hne
      obtain ⟨core, deletedDocs⟩ := reader
      cases hcore
      cases deletedDocs with
      | none => simp [Patched, Reader.hasDeletions, Reader.delCoreKey, Reader.getFieldCacheKey]
      | some vector =>
          have hpatched : Patched first ⟨first.core, some vector⟩ := ⟨rfl, fun heq => hne (congrArg (fun docs => Reader.delCoreKey ⟨first.core, docs⟩) heq)⟩
          rw [if_pos hpatched, if_neg (by simp [Reader.delCoreKey, Reader.getFieldCacheKey])]

theorem dynamic_step {first : Reader Stream Vector} (hfirst : first.core = core) (state : State Stream Vector)
    (reader : Reader Stream Vector) (h : Dynamic filter first state) (hcore : reader.core = core) :
    (getDocIdSet filter .DELETES_DYNAMIC state reader).1 = servedAfter filter first reader ∧
      Dynamic filter first (getDocIdSet filter .DELETES_DYNAMIC state reader).2 := by
  have hkey := h.2 reader (hcore.trans hfirst.symm)
  have hfield : reader.getFieldCacheKey = first.getFieldCacheKey := by
    rw [Reader.getFieldCacheKey, Reader.getFieldCacheKey, hcore, hfirst]
  rw [getDocIdSet, FilterCache.get, hkey, hfield, h.1, servedAfter]
  by_cases hpatched : Patched first reader
  · simp only [hpatched, if_true, Option.map_none, Option.map_some, Option.none_or, hpatched.1, FilterCache.mergeDeletes]
    exact ⟨trivial, h⟩
  · simp only [hpatched, if_false, Option.map_some, Option.some_or]
    exact ⟨trivial, h⟩

def Transparent (deletesMode : DeletesMode) (readers : List (Reader Stream Vector)) : Prop :=
  List.Forall₂ (Agrees filter bits) readers (run filter deletesMode State.new readers)

/-- Recached, a set is right as far as the copies are whole; patched, if the set of the first reader is right for all. -/
theorem getDocIdSet_transparent_iff (hcore : ∀ reader ∈ readers, reader.core = core) :
    (Transparent filter bits .DELETES_RECACHE readers ↔ ∀ reader ∈ readers, Right filter bits reader reader) ∧
      (Transparent filter bits .DELETES_DYNAMIC readers ↔ ∀ first ∈ readers.head?, ∀ reader ∈ readers,
        Right filter bits first reader ∧ (Patched first reader → ¬ NullKept filter first)) := by
  constructor
  · have hrun : run filter .DELETES_RECACHE State.new readers =
        readers.map fun reader => .kept (docIdSetToCache (filter reader) reader) :=
      run_eq_map filter (recached_step filter) hcore fun _ _ _ h => nomatch h
    rw [Transparent, hrun, List.forall₂_map_right_iff, List.forall₂_same]
    exact forall₂_congr fun reader _ => agrees_kept_iff filter bits rfl
  · cases readers with
    | nil => simp [Transparent, run]
    | cons first readers =>
        have hfirst := hcore first List.mem_cons_self
        obtain ⟨hserved, hnext⟩ := dynamic_first filter first
        have hrun : run filter .DELETES_DYNAMIC State.new (first :: readers) = (first :: readers).map (servedAfter filter first) := by
          rw [run, List.map_cons, ← hserved,
            ← run_eq_map filter (dynamic_step filter hfirst) (fun r hr => hcore r (List.mem_cons_of_mem _ hr)) hnext]
        rw [Transparent, hrun, List.forall₂_map_right_iff, List.forall₂_same]
        simp only [List.head?_cons, Option.mem_some_iff, forall_eq']
        refine forall₂_congr fun reader hmem => ?_
        have hsame : reader.core = first.core := (hcore reader hmem).trans hfirst.symm
        rw [servedAfter]
        split
        · rename_i hpatched
          rw [agrees_filtered_iff filter bits hsame]
          simp [hpatched]
        · rename_i hpatched
          rw [agrees_kept_iff filter bits hsame]
          simp [hpatched]

end Runs

/-- A filter that is not cacheable and gives the documents that are not deleted. -/
def liveDocs (reader : Reader Unit Unit) : Option DocIdSet :=
  some ⟨some ((List.range reader.core.maxDoc).filter fun doc => !reader.isDeleted (fun _ doc => doc == 0) doc), false, by
    rintro docs ⟨⟩
    exact List.pairwise_lt_range.filter _⟩

def twoDocs : Core Unit := ⟨(), 2, by decide⟩

def deletedFirst : Reader Unit Unit := ⟨twoDocs, some ()⟩

def undeleted : Reader Unit Unit := ⟨twoDocs, none⟩

theorem getDocIdSet_transparent_iff_two :
    (∀ reader ∈ [undeleted, deletedFirst], reader.core = twoDocs) ∧
      (Transparent liveDocs (fun _ doc => doc == 0) .DELETES_RECACHE [undeleted, deletedFirst] ↔
        ∀ reader ∈ [undeleted, deletedFirst], Right liveDocs (fun _ doc => doc == 0) reader reader) ∧
      (Transparent liveDocs (fun _ doc => doc == 0) .DELETES_DYNAMIC [undeleted, deletedFirst] ↔
        ∀ first ∈ [undeleted, deletedFirst].head?, ∀ reader ∈ [undeleted, deletedFirst],
          Right liveDocs (fun _ doc => doc == 0) first reader ∧ (Patched first reader → ¬ NullKept liveDocs first)) :=
  have hcore : ∀ reader ∈ [undeleted, deletedFirst], reader.core = twoDocs := by
    simp [undeleted, deletedFirst]
  ⟨hcore, getDocIdSet_transparent_iff liveDocs (fun _ doc => doc == 0) hcore⟩

/-- The reader with the deletion asks first: the older one, in which document 0 lives, is served document 1 alone. -/
theorem dynamic_loses_live_documents :
    ¬ Transparent liveDocs (fun _ doc => doc == 0) .DELETES_DYNAMIC [deletedFirst, undeleted] := by
  intro h
  rw [Transparent] at h
  obtain ⟨-, h⟩ := List.forall₂_cons.mp h
  obtain ⟨⟨docs, hdocs, hagree⟩, -⟩ := List.forall₂_cons.mp h
  have hserved : docs = [1] := (Option.some.inj hdocs).symm.trans (by decide)
  have hzero := (hagree 0 ⟨by decide, rfl⟩).mpr (by decide)
  rw [hserved] at hzero
  exact absurd hzero (by decide)

end CachingWrapperFilter
end LucenePlusPlus
