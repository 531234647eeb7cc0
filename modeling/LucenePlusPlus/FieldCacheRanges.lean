import LucenePlusPlus.FieldCacheRangeFilter

/-!
What the iterators of `FieldCacheRangeFilter` return: the documents whose value the rewritten bounds accept, and those
of them that are deleted if the range does not contain the value of the documents without one.
-/

namespace LucenePlusPlus
variable {α : Type} {reader : CachedReader}

namespace CachedReader

/-- The documents that are not deleted. -/
def Live (reader : CachedReader) (doc : Nat) : Prop := doc < reader.maxDoc ∧ reader.isDeleted doc = false

end CachedReader

namespace AllTermDocs

theorem skip_spec (fuel : Nat) (target : Int) (htarget : 0 ≤ target) (hfuel : reader.maxDoc ≤ target + fuel) :
    target ≤ (skip reader fuel target).2 ∧
    if (skip reader fuel target).1 then
      ∃ n, reader.Live n ∧ (skip reader fuel target).2 = n ∧ ∀ m, reader.Live m → target ≤ m → n ≤ m
    else ∀ m, reader.Live m → ¬ target ≤ m := by
  induction fuel generalizing target with
  | zero =>
      refine ⟨le_rfl, fun m hlive hle => ?_⟩
      have hlt := hlive.1
      omega
  | succ fuel ih =>
      rw [skip]
      split
      · split
        · rename_i hlt hdeleted
          obtain ⟨hle, hspec⟩ := ih (target + 1) (by omega) (by omega)
          have hskip : ∀ m, reader.Live m → target ≤ m → target + 1 ≤ m := by
            intro m hlive hm
            rcases hm.lt_or_eq with hm | rfl
            · exact hm
            · rw [Int.toNat_natCast, hlive.2] at hdeleted
              exact absurd hdeleted Bool.false_ne_true
          refine ⟨by omega, ?_⟩
          split at hspec
          · rename_i hfound
            obtain ⟨n, hlive, heq, hleast⟩ := hspec
            rw [if_pos hfound]
            exact ⟨n, hlive, heq, fun m hm hmt => hleast m hm (hskip m hm hmt)⟩
          · rename_i hfound
            rw [if_neg hfound]
            exact fun m hm hmt => hspec m hm (hskip m hm hmt)
        · rename_i hlt hdeleted
          rw [Bool.not_eq_true] at hdeleted
          refine ⟨le_rfl, ?_⟩
          rw [if_pos rfl]
          exact ⟨target.toNat, ⟨by omega, hdeleted⟩, by omega, fun m _ hm => by omega⟩
      · rename_i hge
        refine ⟨le_rfl, fun m hlive hm => ?_⟩
        have hlt := hlive.1
        omega

theorem skipTo_spec (target : Int) (htarget : 0 ≤ target) :
    target ≤ (skipTo reader target).2 ∧
    if (skipTo reader target).1 then
      ∃ n, reader.Live n ∧ (skipTo reader target).2 = n ∧ ∀ m, reader.Live m → target ≤ m → n ≤ m
    else ∀ m, reader.Live m → ¬ target ≤ m :=
  skip_spec _ target htarget (by omega)

end AllTermDocs

namespace FieldCacheDocIdSet

theorem matchDoc_natCast (set : FieldCacheDocIdSet α) (n : Nat) :
    set.matchDoc n = set.values[n]?.map set.matchValue := by
  rw [matchDoc, if_neg (by omega), Int.toNat_natCast]

theorem matchDoc_eq_none {set : FieldCacheDocIdSet α} {n : Nat} : set.matchDoc n = none ↔ set.values.length ≤ n := by
  rw [matchDoc_natCast, Option.map_eq_none_iff, List.getElem?_eq_none_iff]

end FieldCacheDocIdSet

theorem FieldDocIdSetIteratorIncrement.seek_isFirst (set : FieldCacheDocIdSet α) (fuel n : Nat)
    (hfuel : set.values.length ≤ n + fuel) :
    IsFirst {m | set.matchDoc m = some true} n (seek set fuel n) := by
  have hnone : ∀ n, set.values.length ≤ n → IsFirst {m : Nat | set.matchDoc m = some true} n NO_MORE_DOCS := by
    intro n hn
    apply IsFirst.none
    intro m hm hle
    have hmatch := FieldCacheDocIdSet.matchDoc_eq_none.mpr (hn.trans (Int.ofNat_le.mp hle))
    exact Option.some_ne_none _ ((show set.matchDoc m = some true from hm).symm.trans hmatch)
  induction fuel generalizing n with
  | zero => exact hnone n hfuel
  | succ fuel ih =>
      rw [seek]
      split
      · rename_i heq
        exact hnone n (FieldCacheDocIdSet.matchDoc_eq_none.mp heq)
      · rename_i heq
        exact IsFirst.self heq
      · rename_i heq
        have hnext := ih (n + 1) (by omega)
        rw [Nat.cast_succ] at hnext
        refine hnext.of_le (by omega) fun m hm hle => ?_
        rcases hle.lt_or_eq with hlt | hnm
        · exact hlt
        · rw [Set.mem_ofPred_eq, ← hnm, heq] at hm
          cases hm

theorem FieldDocIdSetIteratorTermDocs.seek_isFirst (set : FieldCacheDocIdSet α) (fuel : Nat) (target : Int)
    (htarget : 0 ≤ target) (hfuel : reader.maxDoc ≤ (AllTermDocs.skipTo reader target).2 + fuel) :
    IsFirst {m | reader.Live m ∧ set.matchDoc m = some true} target
      (seek set reader fuel (AllTermDocs.skipTo reader target)).1 ∧
    ((seek set reader fuel (AllTermDocs.skipTo reader target)).1 = NO_MORE_DOCS ∨
      (seek set reader fuel (AllTermDocs.skipTo reader target)).2 =
        (seek set reader fuel (AllTermDocs.skipTo reader target)).1) := by
  induction fuel generalizing target with
  | zero =>
      obtain ⟨-, hspec⟩ := @AllTermDocs.skipTo_spec reader target htarget
      rw [seek]
      refine ⟨IsFirst.none fun m hm hle => ?_, Or.inl rfl⟩
      split at hspec
      · obtain ⟨n, hlive, heq, -⟩ := hspec
        have hlt := hlive.1
        omega
      · exact hspec m hm.1 hle
  | succ fuel ih =>
      obtain ⟨-, hspec⟩ := @AllTermDocs.skipTo_spec reader target htarget
      generalize hskip : AllTermDocs.skipTo reader target = termDocs at hspec hfuel ⊢
      obtain ⟨found, _doc⟩ := termDocs
      cases found with
      | false =>
          rw [seek]
          exact ⟨IsFirst.none fun m hm hle => hspec m hm.1 hle, Or.inl rfl⟩
      | true =>
          obtain ⟨n, hlive, heq, hleast⟩ := hspec
          dsimp only at heq hfuel
          subst heq
          rw [seek]
          split
          · rename_i hmatch
            have hself : IsFirst {m | reader.Live m ∧ set.matchDoc m = some true} n n := IsFirst.self ⟨hlive, hmatch⟩
            have hle : target ≤ (n : Int) := by
              have hskipped := (@AllTermDocs.skipTo_spec reader target htarget).1
              rw [hskip] at hskipped
              exact hskipped
            exact ⟨hself.of_le hle fun m hm hmt => Int.ofNat_le.mpr (hleast m hm.1 hmt), Or.inr rfl⟩
          · rename_i hmatch
            have hnext := @AllTermDocs.skipTo_spec reader (n + 1) (by omega)
            have hle : target ≤ (n : Int) := by
              have hskipped := (@AllTermDocs.skipTo_spec reader target htarget).1
              rw [hskip] at hskipped
              exact hskipped
            obtain ⟨hfirst, hstate⟩ := ih (n + 1) (by omega) (by omega)
            refine ⟨hfirst.of_le (by omega) fun m hm hmt => ?_, hstate⟩
            rcases (hleast m hm.1 hmt).lt_or_eq with hlt | hnm
            · omega
            · rw [hnm] at hmatch
              exact absurd hm.2 hmatch

namespace FilterDocIdSet

/-- What a set accepts of the values. -/
def Accepts : FilterDocIdSet α → α → Prop
  | EMPTY_DOCIDSET, _ => False
  | fieldCache set, value => set.matchValue value = true

/-- The set is of these values. -/
def IsOf (values : List α) : FilterDocIdSet α → Prop
  | EMPTY_DOCIDSET => True
  | fieldCache set => set.values = values

/-- The deleted documents are left out. -/
def ReadsDeletions : FilterDocIdSet α → Prop
  | EMPTY_DOCIDSET => True
  | fieldCache set => set.mayUseTermDocs = true

/-- The documents that the iterator of a set returns. -/
def Returns (reader : CachedReader) (values : List α) (set : FilterDocIdSet α) : Set Nat :=
  {n | (∃ value, values[n]? = some value ∧ set.Accepts value) ∧ (set.ReadsDeletions → reader.isDeleted n = false)}

theorem isDeleted_of_not_hasDeletions (h : reader.hasDeletions = false) (n : Nat) : reader.isDeleted n = false := by
  unfold CachedReader.hasDeletions at h
  unfold CachedReader.isDeleted
  cases hdeleted : reader.deletedDocs with
  | none => rfl
  | some deletedDocs =>
      rw [hdeleted] at h
      cases h

theorem enumerates (set : FilterDocIdSet α) (values : List α) (hset : set.IsOf values)
    (hvalues : values.length = reader.maxDoc) :
    (set.iteration reader).Enumerates (set.iterator reader) (set.Returns reader values) := by
  cases set with
  | EMPTY_DOCIDSET =>
      apply DocIdSetIterator.enumerates_of_invariant fun s _ => s = .empty
      · rfl
      · rintro s doc call rfl -
        have hnone : ∀ target, IsFirst (Returns reader values .EMPTY_DOCIDSET) target NO_MORE_DOCS :=
          fun target => IsFirst.none fun m hm _ => hm.1.choose_spec.2
        cases call <;> exact ⟨hnone _, rfl⟩
  | fieldCache set =>
      obtain rfl : set.values = values := hset
      have hmatch : ∀ n : Nat, set.matchDoc n = some true ↔
          ∃ value, set.values[n]? = some value ∧ set.matchValue value = true := by
        intro n
        rw [FieldCacheDocIdSet.matchDoc_natCast, Option.map_eq_some_iff]
      by_cases hcache : set.isCacheable reader = true
      · have hdocs : Returns reader set.values (.fieldCache set) = {n : Nat | set.matchDoc n = some true} := by
          ext n
          rw [Set.mem_ofPred_eq, hmatch]
          refine ⟨fun h => h.1, fun h => ⟨h, fun hreads => isDeleted_of_not_hasDeletions ?_ n⟩⟩
          have hreads' : set.mayUseTermDocs = true := hreads
          simpa [FieldCacheDocIdSet.isCacheable, hreads'] using hcache
        rw [hdocs, iterator, if_pos hcache]
        apply DocIdSetIterator.enumerates_of_invariant fun s doc => s = .increment doc ∧ -1 ≤ doc
        · exact ⟨rfl, le_rfl⟩
        · rintro s doc call ⟨rfl, hdoc⟩ hlegal
          obtain ⟨hlt, hle⟩ := hlegal.target
          obtain ⟨n, hn⟩ := Int.eq_ofNat_of_zero_le (show 0 ≤ call.target doc by omega)
          have hfirst := FieldDocIdSetIteratorIncrement.seek_isFirst set (set.values.length - n) n (by omega)
          have hanswer : ((iteration reader (.fieldCache set)).call (.increment doc) call) =
              (FieldDocIdSetIteratorIncrement.seekAll set (call.target doc),
                .increment (FieldDocIdSetIteratorIncrement.seekAll set (call.target doc))) := by
            cases call <;> rfl
          have hseek : FieldDocIdSetIteratorIncrement.seekAll set (call.target doc) =
              FieldDocIdSetIteratorIncrement.seek set (set.values.length - n) n := by
            rw [FieldDocIdSetIteratorIncrement.seekAll, hn, Int.toNat_sub]
          rw [hanswer, hseek, hn]
          have hbehind := hfirst.target_le (by omega)
          exact ⟨hfirst, rfl, by omega⟩
      · have hboth : set.mayUseTermDocs = true ∧ reader.hasDeletions = true := by
          simpa [FieldCacheDocIdSet.isCacheable] using hcache
        have hdocs : Returns reader set.values (.fieldCache set) =
            {n : Nat | reader.Live n ∧ set.matchDoc n = some true} := by
          ext n
          rw [Set.mem_ofPred_eq, hmatch]
          constructor
          · rintro ⟨⟨value, hvalue, haccepts⟩, hlive⟩
            have hlength := (List.getElem?_eq_some_iff.mp hvalue).1
            exact ⟨⟨hvalues ▸ hlength, hlive hboth.1⟩, value, hvalue, haccepts⟩
          · rintro ⟨hlive, hvalue⟩
            exact ⟨hvalue, fun _ => hlive.2⟩
        rw [hdocs, iterator, if_neg hcache]
        apply DocIdSetIterator.enumerates_of_invariant
          fun s doc => (∃ _doc, s = .termDocs _doc ∧ (doc = NO_MORE_DOCS ∨ _doc = doc)) ∧ -1 ≤ doc
        · exact ⟨⟨-1, rfl, Or.inr rfl⟩, le_rfl⟩
        · rintro s doc call ⟨⟨_doc, rfl, hstate⟩, hdoc⟩ hlegal
          obtain ⟨hlt, hle⟩ := hlegal.target
          obtain rfl : _doc = doc := hstate.resolve_left (by omega)
          have hseek := @FieldDocIdSetIteratorTermDocs.seek_isFirst _ reader set
            (reader.maxDoc - (AllTermDocs.skipTo reader (call.target _doc)).2).toNat (call.target _doc) (by omega)
            (by omega)
          have hanswer : ((iteration reader (.fieldCache set)).call (.termDocs _doc) call) =
              ((FieldDocIdSetIteratorTermDocs.seekAll set reader (AllTermDocs.skipTo reader (call.target _doc))).1,
                .termDocs (FieldDocIdSetIteratorTermDocs.seekAll set reader
                  (AllTermDocs.skipTo reader (call.target _doc))).2) := by
            cases call <;> rfl
          rw [hanswer]
          have hbehind := hseek.1.target_le hle
          exact ⟨hseek.1, ⟨_, rfl, hseek.2⟩, (by omega : (-1 : Int) ≤ call.target _doc).trans hbehind⟩

theorem returns_eq_iff (set : FilterDocIdSet α) (values : List α) (hvalues : values.length = reader.maxDoc)
    (InRange : Nat → Prop) :
    set.Returns reader values = {doc | reader.Live doc ∧ InRange doc} ↔
      (∀ doc value, values[doc]? = some value → reader.isDeleted doc = false → (set.Accepts value ↔ InRange doc)) ∧
      ∀ doc value, values[doc]? = some value → reader.isDeleted doc = true → set.Accepts value →
        set.ReadsDeletions := by
  constructor
  · intro heq
    refine ⟨fun doc value hvalue hlive => ?_, fun doc value hvalue hdeleted haccepts => ?_⟩
    · have hlength := (List.getElem?_eq_some_iff.mp hvalue).1
      constructor
      · intro haccepts
        have hmem : doc ∈ set.Returns reader values := ⟨⟨value, hvalue, haccepts⟩, fun _ => hlive⟩
        rw [heq] at hmem
        exact hmem.2
      · intro hrange
        have hmem : doc ∈ {doc | reader.Live doc ∧ InRange doc} := ⟨⟨hvalues ▸ hlength, hlive⟩, hrange⟩
        rw [← heq] at hmem
        obtain ⟨⟨value', hvalue', haccepts⟩, -⟩ := hmem
        rw [hvalue, Option.some_inj] at hvalue'
        rwa [hvalue']
    · by_contra hreads
      have hmem : doc ∈ set.Returns reader values := ⟨⟨value, hvalue, haccepts⟩, fun h => absurd h hreads⟩
      rw [heq] at hmem
      rw [hmem.1.2] at hdeleted
      cases hdeleted
  · rintro ⟨hlives, hdeletions⟩
    ext doc
    constructor
    · rintro ⟨⟨value, hvalue, haccepts⟩, hreads⟩
      have hlive : reader.isDeleted doc = false := by
        rw [← Bool.not_eq_true]
        intro hdeleted
        have hlive := hreads (hdeletions doc value hvalue hdeleted haccepts)
        rw [hlive] at hdeleted
        cases hdeleted
      have hlength := (List.getElem?_eq_some_iff.mp hvalue).1
      exact ⟨⟨hvalues ▸ hlength, hlive⟩, (hlives doc value hvalue hlive).mp haccepts⟩
    · rintro ⟨⟨hlt, hlive⟩, hrange⟩
      have hvalue := List.getElem?_eq_getElem (hvalues.symm ▸ hlt : doc < values.length)
      exact ⟨⟨_, hvalue, (hlives doc _ hvalue hlive).mpr hrange⟩, fun _ => hlive⟩

theorem Returns.lt_noMoreDocs {set : FilterDocIdSet α} {values : List α} (hvalues : values.length = reader.maxDoc)
    {n : Nat} (h : n ∈ set.Returns reader values) : (n : Int) < NO_MORE_DOCS := by
  obtain ⟨⟨value, hvalue, -⟩, -⟩ := h
  have hlength := (List.getElem?_eq_some_iff.mp hvalue).1
  have hmax := reader.maxDoc_le
  unfold NO_MORE_DOCS
  omega

/-- The iterator returns the live documents in a range if and only if the set accepts their values as the range does,
and of the deleted documents none that are not left out. -/
theorem enumerates_iff (set : FilterDocIdSet α) (values : List α) (hset : set.IsOf values)
    (hvalues : values.length = reader.maxDoc) (InRange : Nat → Prop) :
    (set.iteration reader).Enumerates (set.iterator reader) {doc | reader.Live doc ∧ InRange doc} ↔
      (∀ doc value, values[doc]? = some value → reader.isDeleted doc = false → (set.Accepts value ↔ InRange doc)) ∧
      ∀ doc value, values[doc]? = some value → reader.isDeleted doc = true → set.Accepts value →
        set.ReadsDeletions := by
  rw [← returns_eq_iff set values hvalues InRange]
  have hreturns := @enumerates _ reader set values hset hvalues
  constructor
  · intro h
    refine hreturns.unique h (fun n hn => Returns.lt_noMoreDocs hvalues hn) fun n hn => ?_
    have hlt := hn.1.1
    have hmax := reader.maxDoc_le
    unfold NO_MORE_DOCS
    omega
  · intro heq
    rwa [← heq]

theorem enumerates_iff_slips (set : FilterDocIdSet α) (values : List α) (hset : set.IsOf values)
    (hvalues : values.length = reader.maxDoc) {InRange Missed Extra : Nat → Prop} {Zero : Prop}
    (haccepts : ∀ doc value, values[doc]? = some value →
      (set.Accepts value ↔ InRange doc ∧ ¬ Missed doc ∨ Extra doc))
    (hmissed : ∀ doc, Missed doc → InRange doc)
    (hextra : ∀ doc value, values[doc]? = some value → Extra doc → ¬ InRange doc)
    (hzero : ∀ value, set.Accepts value → (set.ReadsDeletions ↔ Zero)) :
    (set.iteration reader).Enumerates (set.iterator reader) {doc | reader.Live doc ∧ InRange doc} ↔
      (∀ doc, reader.Live doc → ¬ Missed doc ∧ ¬ Extra doc) ∧
      ∀ doc < reader.maxDoc, reader.isDeleted doc = true → InRange doc ∧ ¬ Missed doc ∨ Extra doc → Zero := by
  rw [enumerates_iff set values hset hvalues]
  have hvalue : ∀ doc < reader.maxDoc, ∃ value, values[doc]? = some value := fun doc hlt =>
    ⟨_, List.getElem?_eq_getElem (hvalues.symm ▸ hlt : doc < values.length)⟩
  have hlt : ∀ doc value, values[doc]? = some value → doc < reader.maxDoc := fun doc value hget =>
    hvalues ▸ (List.getElem?_eq_some_iff.mp hget).1
  apply and_congr
  · constructor
    · intro h doc hlive
      obtain ⟨value, hget⟩ := hvalue doc hlive.1
      have hiff := (haccepts doc value hget).symm.trans (h doc value hget hlive.2)
      exact ⟨fun hmiss => (hiff.mpr (hmissed doc hmiss)).elim (fun hrange => hrange.2 hmiss)
        fun hmore => hextra doc value hget hmore (hmissed doc hmiss),
        fun hmore => hextra doc value hget hmore (hiff.mp (Or.inr hmore))⟩
    · intro h doc value hget hlive
      obtain ⟨hmiss, hmore⟩ := h doc ⟨hlt doc value hget, hlive⟩
      rw [haccepts doc value hget, or_iff_left hmore, and_iff_left hmiss]
  · constructor
    · intro h doc hdoc hdeleted hreturned
      obtain ⟨value, hget⟩ := hvalue doc hdoc
      have haccepted := (haccepts doc value hget).mpr hreturned
      exact (hzero value haccepted).mp (h doc value hget hdeleted haccepted)
    · intro h doc value hget hdeleted haccepted
      rw [hzero value haccepted]
      exact h doc (hlt doc value hget) hdeleted ((haccepts doc value hget).mp haccepted)

end FilterDocIdSet

/-! ### The bounds -/

namespace NumericType

theorem wrap_eq {type : NumericType} {n : Int} (hlow : type.minVal ≤ n) (hhigh : n ≤ type.maxVal) :
    type.wrap n = n := by
  cases type <;> simp only [minVal, maxVal] at hlow hhigh <;> rw [wrap, Int.bmod_def] <;> split <;> omega

theorem wrap_minVal_sub {type : NumericType} (h : type ≠ .byte) : type.wrap (type.minVal - 1) = type.maxVal := by
  cases type with
  | byte => exact absurd rfl h
  | int => decide
  | long => decide

end NumericType

namespace FieldCacheRangeFilterNumeric
variable (filter : FieldCacheRangeFilterNumeric)

/-- The value is not before the lower bound. -/
def AboveLower (value : Int) : Prop := if filter.includeLower then filter.lowerVal ≤ value else filter.lowerVal < value

def InRange (value : Int) : Prop :=
  filter.AboveLower value ∧ if filter.includeUpper then value ≤ filter.upperVal else value < filter.upperVal

/-- An exclusive upper bound that is zero makes the set empty. -/
def Missed (value : Int) : Prop := filter.includeUpper = false ∧ filter.upperVal = 0 ∧ filter.InRange value

/-- An exclusive upper bound that is the least value becomes the greatest. -/
def Extra (value : Int) : Prop :=
  filter.type ≠ .byte ∧ filter.includeUpper = false ∧ filter.upperVal = filter.type.minVal ∧ filter.AboveLower value

theorem inclusiveLowerPoint_le (h : ¬ (¬ filter.includeLower ∧ filter.lowerVal = filter.type.maxVal)) (value : Int) :
    filter.inclusiveLowerPoint ≤ value ↔ filter.AboveLower value := by
  have hlower := filter.lower_mem
  unfold inclusiveLowerPoint AboveLower
  split
  · exact Iff.rfl
  · rename_i hinclude
    have hmax : filter.lowerVal ≠ filter.type.maxVal := fun heq => h ⟨hinclude, heq⟩
    rw [NumericType.wrap_eq (by omega) (by omega)]
    exact Iff.rfl

theorem le_inclusiveUpperPoint (h : ¬ (¬ filter.includeUpper ∧ filter.upperVal = 0)) {value : Int}
    (hvalue : filter.type.minVal ≤ value ∧ value ≤ filter.type.maxVal) :
    value ≤ filter.inclusiveUpperPoint ↔ (if filter.includeUpper then value ≤ filter.upperVal else value < filter.upperVal) ∨
      filter.type ≠ .byte ∧ filter.includeUpper = false ∧ filter.upperVal = filter.type.minVal := by
  have hupper := filter.upper_mem
  unfold inclusiveUpperPoint
  split
  · rename_i hinclude
    simp [hinclude]
  · rename_i hinclude
    rw [Bool.not_eq_true] at hinclude
    have hzero : filter.upperVal ≠ 0 := fun heq => h ⟨by simp [hinclude], heq⟩
    by_cases hmin : filter.upperVal = filter.type.minVal
    · have hbyte : filter.type ≠ .byte := by
        intro hbyte
        rw [hbyte] at hmin
        exact hzero hmin
      rw [hmin, NumericType.wrap_minVal_sub hbyte]
      exact iff_of_true hvalue.2 (Or.inr ⟨hbyte, hinclude, rfl⟩)
    · rw [NumericType.wrap_eq (by omega) (by omega)]
      constructor
      · exact fun hle => Or.inl (by omega)
      · rintro (hlt | ⟨-, -, heq⟩)
        · omega
        · exact absurd heq hmin

theorem accepts_iff (values : List Int) {value : Int}
    (hvalue : filter.type.minVal ≤ value ∧ value ≤ filter.type.maxVal) :
    (filter.getDocIdSet values).Accepts value ↔ filter.InRange value ∧ ¬ filter.Missed value ∨ filter.Extra value := by
  have hlower := filter.lower_mem
  unfold getDocIdSet
  split
  · rename_i hempty
    refine iff_of_false id fun h => ?_
    have habove : filter.AboveLower value := by
      rcases h with h | h
      · exact h.1.1
      · exact h.2.2.2
    rw [AboveLower, if_neg hempty.1] at habove
    omega
  · rename_i hlowerPoint
    split
    · rename_i hzero
      rw [Bool.not_eq_true] at hzero
      refine iff_of_false id ?_
      rintro (h | h)
      · exact h.2 ⟨hzero.1, hzero.2, h.1⟩
      · obtain ⟨hbyte, -, hmin, -⟩ := h
        rw [hzero.2] at hmin
        cases htype : filter.type with
        | byte => exact hbyte htype
        | int => rw [htype] at hmin; cases hmin
        | long => rw [htype] at hmin; cases hmin
    · rename_i hupperPoint
      have hmissed : ¬ filter.Missed value := fun h => hupperPoint ⟨by simp [h.1], h.2.1⟩
      have hbounds : filter.inclusiveLowerPoint ≤ value ∧ value ≤ filter.inclusiveUpperPoint ↔
          filter.InRange value ∧ ¬ filter.Missed value ∨ filter.Extra value := by
        rw [filter.inclusiveLowerPoint_le hlowerPoint, filter.le_inclusiveUpperPoint hupperPoint hvalue]
        unfold InRange Extra
        tauto
      split
      · rename_i hempty
        exact iff_of_false id fun h => by
          have hboth := hbounds.mpr h
          omega
      · rw [← hbounds]
        simp [FilterDocIdSet.Accepts, FieldCacheDocIdSetNumeric]

end FieldCacheRangeFilterNumeric

namespace FilterDocIdSet

theorem readsDeletions_iff {le : α → α → Bool} {zero lower upper value : α} {values : List α} {set : FilterDocIdSet α}
    (hset : set = .EMPTY_DOCIDSET ∨ set = .fieldCache (FieldCacheDocIdSetNumeric le zero values lower upper))
    (haccepts : set.Accepts value) : set.ReadsDeletions ↔ set.Accepts zero := by
  rcases hset with rfl | rfl
  · exact haccepts.elim
  · exact Iff.rfl

end FilterDocIdSet

theorem FieldCacheRangeFilterNumeric.getDocIdSet_eq (filter : FieldCacheRangeFilterNumeric) (values : List Int) :
    filter.getDocIdSet values = .EMPTY_DOCIDSET ∨ filter.getDocIdSet values = .fieldCache
      (FieldCacheDocIdSetNumeric (fun a b => a ≤ b) 0 values filter.inclusiveLowerPoint filter.inclusiveUpperPoint) := by
  unfold getDocIdSet
  split_ifs
  · exact Or.inl rfl
  · exact Or.inl rfl
  · exact Or.inl rfl
  · exact Or.inr rfl

namespace FieldCacheRangeFilterDouble
open DoubleBits
variable (filter : FieldCacheRangeFilterDouble)

def AboveLower (value : Double) : Prop :=
  if filter.includeLower then le filter.lowerVal value else lt filter.lowerVal value

def BelowUpper (value : Double) : Prop :=
  if filter.includeUpper then le value filter.upperVal else lt value filter.upperVal

def InRange (value : Double) : Prop := filter.AboveLower value ∧ filter.BelowUpper value

/-- An exclusive bound that is the negative zero steps over to the positive one, and the first negative bits that are
not a number step over to infinity. -/
def LowerSlip (value : Double) : Prop :=
  filter.includeLower = false ∧ isNaN value = false ∧
    (filter.lowerVal.toNat = 2 ^ 63 ∧ key value = 0 ∨ filter.lowerVal.toNat = 2 ^ 63 + INFINITY + 1)

def UpperSlip (value : Double) : Prop :=
  filter.includeUpper = false ∧ isNaN value = false ∧
    (filter.upperVal.toNat = 0 ∧ key value = 0 ∨ filter.upperVal.toNat = INFINITY + 1)

/-- A value that only such a step lets in. -/
def Extra (value : Double) : Prop :=
  ¬ filter.InRange value ∧ (filter.AboveLower value ∨ filter.LowerSlip value) ∧
    (filter.BelowUpper value ∨ filter.UpperSlip value)

theorem inclusiveLowerPoint_le (value : Double) :
    le filter.inclusiveLowerPoint value = true ↔ filter.AboveLower value ∨ filter.LowerSlip value := by
  unfold inclusiveLowerPoint AboveLower LowerSlip
  cases filter.includeLower with
  | true => simp [sortableLongToDouble_doubleToSortableLong]
  | false => simpa using le_succ_iff filter.lowerVal value

theorem le_inclusiveUpperPoint (value : Double) :
    le value filter.inclusiveUpperPoint = true ↔ filter.BelowUpper value ∨ filter.UpperSlip value := by
  unfold inclusiveUpperPoint BelowUpper UpperSlip
  cases filter.includeUpper with
  | true => simp [sortableLongToDouble_doubleToSortableLong]
  | false => simpa using le_pred_iff filter.upperVal value

theorem toNat_of_infinite_pos {d : Double} (hpos : lt 0 d = true) (h : isInfinite d = true) : d.toNat = INFINITY := by
  have hd := toNat_lt d
  unfold lt key at hpos
  unfold isInfinite magnitude at h
  rw [decide_eq_true_iff] at hpos h
  have hlt := hpos.2.2
  rw [UInt64.toNat_zero, if_pos (by decide)] at hlt
  split at hlt <;> omega

theorem toNat_of_infinite_neg {d : Double} (hneg : lt d 0 = true) (h : isInfinite d = true) :
    d.toNat = 2 ^ 63 + INFINITY := by
  have hd := toNat_lt d
  unfold lt key at hneg
  unfold isInfinite magnitude at h
  rw [decide_eq_true_iff] at hneg h
  have hlt := hneg.2.2
  rw [UInt64.toNat_zero, if_pos (show 0 < 2 ^ 63 by decide)] at hlt
  split at hlt <;> omega

theorem getDocIdSet_eq (values : List Double) :
    filter.getDocIdSet values = .EMPTY_DOCIDSET ∨ filter.getDocIdSet values = .fieldCache
      (FieldCacheDocIdSetNumeric le 0 values filter.inclusiveLowerPoint filter.inclusiveUpperPoint) := by
  unfold getDocIdSet
  split_ifs
  · exact Or.inl rfl
  · exact Or.inl rfl
  · exact Or.inl rfl
  · exact Or.inr rfl

theorem accepts_iff (values : List Double) (value : Double) :
    (filter.getDocIdSet values).Accepts value ↔ filter.InRange value ∨ filter.Extra value := by
  have hbounds : le filter.inclusiveLowerPoint value = true ∧ le value filter.inclusiveUpperPoint = true ↔
      filter.InRange value ∨ filter.Extra value := by
    rw [inclusiveLowerPoint_le, le_inclusiveUpperPoint]
    unfold Extra InRange
    tauto
  rw [← hbounds]
  unfold getDocIdSet
  split
  · rename_i hempty
    obtain ⟨hinclude, hpos, hinfinite⟩ := hempty
    have hinf := toNat_of_infinite_pos hpos hinfinite
    refine iff_of_false id fun h => ?_
    rcases (filter.inclusiveLowerPoint_le value).mp h.1 with habove | hslip
    · rw [AboveLower, if_neg hinclude, lt_eq_false_of_infinity hinf] at habove
      cases habove
    · unfold LowerSlip INFINITY at hslip
      unfold INFINITY at hinf
      omega
  · split
    · rename_i hempty
      obtain ⟨hinclude, hneg, hinfinite⟩ := hempty
      have hinf := toNat_of_infinite_neg hneg hinfinite
      refine iff_of_false id fun h => ?_
      rcases (filter.le_inclusiveUpperPoint value).mp h.2 with hbelow | hslip
      · rw [BelowUpper, if_neg hinclude, lt_eq_false_of_neg_infinity hinf] at hbelow
        cases hbelow
      · unfold UpperSlip INFINITY at hslip
        unfold INFINITY at hinf
        omega
    · split
      · rename_i hempty
        refine iff_of_false id fun h => ?_
        rw [lt_eq_false_of_le_of_le h.1 h.2] at hempty
        cases hempty
      · simp [FilterDocIdSet.Accepts, FieldCacheDocIdSetNumeric]

end FieldCacheRangeFilterDouble

theorem StringIndex.binarySearchLookup_nil {index : StringIndex} (h : index.Valid) :
    index.binarySearchLookup [] = 0 := by
  have hpos : LowerBound.lowerBound index.lookup [] = 0 := by
    by_contra hne
    exact List.not_lt_nil _ (LowerBound.lt_of_lt_lowerBound (Nat.pos_of_ne_zero hne) h.length_pos)
  rw [binarySearchLookup]
  rw [hpos, List.getElem?_eq_getElem h.length_pos, h.getElem_zero h.length_pos]
  rfl

/-- The place that is found splits the terms into those before the key and the others. -/
theorem StringIndex.binarySearchLookup_spec {index : StringIndex} (h : index.Valid) {key : WString} (hkey : key ≠ []) :
    ∃ keyPos, 1 ≤ keyPos ∧ (∀ i (hi : i < index.lookup.length), i < keyPos → index.lookup[i] < key) ∧
      (index.binarySearchLookup key = keyPos ∧
          (∀ i (hi : i < index.lookup.length), i = keyPos → index.lookup[i] = key) ∧
          (∀ i (hi : i < index.lookup.length), keyPos < i → key < index.lookup[i]) ∨
        index.binarySearchLookup key = -(keyPos + 1) ∧
          ∀ i (hi : i < index.lookup.length), keyPos ≤ i → key < index.lookup[i]) := by
  have hbefore : ∀ i (hi : i < index.lookup.length), i < LowerBound.lowerBound index.lookup key → index.lookup[i] < key :=
    fun i hi hlt => LowerBound.lt_of_lt_lowerBound hlt hi
  have hpos : 1 ≤ LowerBound.lowerBound index.lookup key := by
    by_contra hzero
    have hlower : LowerBound.lowerBound index.lookup key ≤ 0 := by omega
    have hle := LowerBound.le_of_lowerBound_le h.sorted hlower h.length_pos
    rw [h.getElem_zero h.length_pos] at hle
    exact hkey (le_antisymm hle (not_lt.mp (List.not_lt_nil _)))
  refine ⟨LowerBound.lowerBound index.lookup key, hpos, hbefore, ?_⟩
  rw [binarySearchLookup]
  split
  · rename_i hnone
    rw [List.getElem?_eq_none_iff] at hnone
    exact Or.inr ⟨rfl, fun i hi hle => by omega⟩
  · rename_i found hfound
    obtain ⟨hlt, rfl⟩ := List.getElem?_eq_some_iff.mp hfound
    split
    · rename_i hless
      refine Or.inr ⟨rfl, fun i hi hle => hless.trans_le ?_⟩
      exact LowerBound.getElem_le_of_le h.sorted hle _ hi
    · rename_i hless
      have heq := le_antisymm (LowerBound.le_of_lowerBound_le h.sorted le_rfl hlt) (not_lt.mp hless)
      refine Or.inl ⟨rfl, fun i hi hi' => ?_, fun i hi hi' => ?_⟩
      · subst hi'
        exact heq.symm
      · exact heq.trans_lt (h.getElem_lt hpos hi' hi)

namespace FieldCacheRangeFilterString
variable (filter : FieldCacheRangeFilterString)

/-- A bound that is empty is none, and a document without a term is in no range. -/
def InRange (value : WithBot WString) : Prop :=
  ∃ term : WString, value = term ∧
    (filter.lowerVal = [] ∨ if filter.includeLower then filter.lowerVal ≤ term else filter.lowerVal < term) ∧
    (filter.upperVal = [] ∨ if filter.includeUpper then term ≤ filter.upperVal else term < filter.upperVal)

variable {index : StringIndex}

theorem inclusiveLowerPoint_le (h : index.Valid) {ord : Nat} (hord : ord < index.lookup.length) :
    filter.inclusiveLowerPoint index ≤ ord ↔ ord ≠ 0 ∧ (filter.lowerVal = [] ∨
      if filter.includeLower then filter.lowerVal ≤ index.lookup[ord] else filter.lowerVal < index.lookup[ord]) := by
  by_cases hempty : filter.lowerVal = []
  · rw [inclusiveLowerPoint, hempty, StringIndex.binarySearchLookup_nil h]
    simp
    omega
  · obtain ⟨keyPos, hpos, hbefore, hfound | hnot⟩ := StringIndex.binarySearchLookup_spec h hempty
    · obtain ⟨heq, hat, hbehind⟩ := hfound
      rw [inclusiveLowerPoint, heq, or_iff_right hempty]
      rw [if_neg (by omega)]
      rcases lt_trichotomy ord keyPos with hlt | rfl | hlt
      · have hless := hbefore ord hord hlt
        refine iff_of_false (by split <;> omega) fun hterm => ?_
        have hge := hterm.2
        split at hge
        · exact absurd hless (not_lt.mpr hge)
        · exact absurd hless (not_lt.mpr hge.le)
      · rw [hat ord hord rfl]
        cases filter.includeLower with
        | true => simp; omega
        | false => simp; omega
      · have hgreater := hbehind ord hord hlt
        refine iff_of_true (by split <;> omega) ⟨by omega, ?_⟩
        split
        · exact hgreater.le
        · exact hgreater
    · obtain ⟨heq, hbehind⟩ := hnot
      rw [inclusiveLowerPoint, heq, or_iff_right hempty]
      rw [if_neg (by omega), if_neg (by omega), if_neg (by omega)]
      rcases lt_or_ge ord keyPos with hlt | hge
      · have hless := hbefore ord hord hlt
        refine iff_of_false (by omega) fun hterm => ?_
        have hge := hterm.2
        split at hge
        · exact absurd hless (not_lt.mpr hge)
        · exact absurd hless (not_lt.mpr hge.le)
      · have hgreater := hbehind ord hord hge
        refine iff_of_true (by omega) ⟨by omega, ?_⟩
        split
        · exact hgreater.le
        · exact hgreater

theorem le_inclusiveUpperPoint (h : index.Valid) {ord : Nat} (hord : ord < index.lookup.length) (hmax : ord ≤ INT_MAX) :
    (ord : Int) ≤ filter.inclusiveUpperPoint index ↔ filter.upperVal = [] ∨
      if filter.includeUpper then index.lookup[ord] ≤ filter.upperVal else index.lookup[ord] < filter.upperVal := by
  by_cases hempty : filter.upperVal = []
  · rw [inclusiveUpperPoint, hempty, StringIndex.binarySearchLookup_nil h]
    simpa using hmax
  · obtain ⟨keyPos, hpos, hbefore, hfound | hnot⟩ := StringIndex.binarySearchLookup_spec h hempty
    · obtain ⟨heq, hat, hbehind⟩ := hfound
      rw [inclusiveUpperPoint, heq, or_iff_right hempty]
      rw [if_neg (by omega)]
      rcases lt_trichotomy ord keyPos with hlt | rfl | hlt
      · have hless := hbefore ord hord hlt
        refine iff_of_true (by split <;> omega) ?_
        split
        · exact hless.le
        · exact hless
      · rw [hat ord hord rfl]
        cases filter.includeUpper with
        | true => simp; omega
        | false => simp; omega
      · have hgreater := hbehind ord hord hlt
        refine iff_of_false (by split <;> omega) fun hterm => ?_
        split at hterm
        · exact absurd hgreater (not_lt.mpr hterm)
        · exact absurd hgreater (not_lt.mpr hterm.le)
    · obtain ⟨heq, hbehind⟩ := hnot
      rw [inclusiveUpperPoint, heq, or_iff_right hempty]
      rw [if_neg (by omega), if_neg (by omega), if_neg (by omega)]
      rcases lt_or_ge ord keyPos with hlt | hge
      · have hless := hbefore ord hord hlt
        refine iff_of_true (by omega) ?_
        split
        · exact hless.le
        · exact hless
      · have hgreater := hbehind ord hord hge
        refine iff_of_false (by omega) fun hterm => ?_
        split at hterm
        · exact absurd hgreater (not_lt.mpr hterm)
        · exact absurd hgreater (not_lt.mpr hterm.le)

theorem accepts_iff (h : index.Valid) (hmax : ∀ ord ∈ index.order, ord ≤ INT_MAX) {doc ord : Nat}
    (hord : index.order[doc]? = some ord) :
    (filter.getDocIdSet index).Accepts ord ↔ filter.InRange (index.valueOf doc) := by
  have hmem := List.mem_of_getElem? hord
  have hlt := h.order ord hmem
  have hbounds : filter.inclusiveLowerPoint index ≤ ord ∧ (ord : Int) ≤ filter.inclusiveUpperPoint index ↔
      filter.InRange (index.valueOf doc) := by
    have hdoc : index.order.getD doc 0 = ord := by rw [List.getD_eq_getElem?_getD, hord, Option.getD_some]
    rw [filter.inclusiveLowerPoint_le h hlt, filter.le_inclusiveUpperPoint h hlt (hmax ord hmem), InRange,
      StringIndex.valueOf, hdoc]
    by_cases hzero : ord = 0
    · rw [if_pos hzero]
      refine iff_of_false (fun hterm => hterm.1.1 hzero) ?_
      rintro ⟨term, hterm, -⟩
      exact WithBot.bot_ne_coe hterm
    · rw [if_neg hzero, List.getD_eq_getElem?_getD, List.getElem?_eq_getElem hlt, Option.getD_some]
      constructor
      · rintro ⟨⟨-, hlower⟩, hupper⟩
        exact ⟨_, rfl, hlower, hupper⟩
      · rintro ⟨term, hterm, hlower, hupper⟩
        obtain rfl := WithBot.coe_injective hterm
        exact ⟨⟨hzero, hlower⟩, hupper⟩
  rw [← hbounds, getDocIdSet]
  split
  · rename_i hempty
    have hpos : (1 : Int) ≤ filter.inclusiveLowerPoint index := by
      unfold inclusiveLowerPoint
      dsimp only
      split_ifs <;> omega
    exact iff_of_false id fun hboth => by omega
  · simp [FilterDocIdSet.Accepts]

end FieldCacheRangeFilterString

namespace CachedReader

theorem length_getValues (reader : CachedReader) (type : NumericType) :
    (reader.getValues type).length = reader.maxDoc := by
  cases type with
  | byte => rw [getValues, List.length_map, reader.length_bytes]
  | int => rw [getValues, List.length_map, reader.length_ints]
  | long => rw [getValues, List.length_map, reader.length_longs]

theorem getValues_mem (reader : CachedReader) {type : NumericType} {value : Int} (h : value ∈ reader.getValues type) :
    type.minVal ≤ value ∧ value ≤ type.maxVal := by
  cases type with
  | byte =>
      obtain ⟨byte, -, rfl⟩ := List.mem_map.mp h
      have hlt := byte.toNat_lt
      simp only [NumericType.minVal, NumericType.maxVal]
      omega
  | int =>
      obtain ⟨int, -, rfl⟩ := List.mem_map.mp h
      have hle := int.le_toInt
      have hlt := int.toInt_lt
      simp only [NumericType.minVal, NumericType.maxVal]
      omega
  | long =>
      obtain ⟨long, -, rfl⟩ := List.mem_map.mp h
      have hle := long.le_toInt
      have hlt := long.toInt_lt
      simp only [NumericType.minVal, NumericType.maxVal]
      omega

end CachedReader

namespace FieldCacheRangeFilter

/-- The value of the document lies in the range. -/
def InRange (reader : CachedReader) (doc : Nat) : FieldCacheRangeFilter → Prop
  | numeric filter => filter.InRange ((reader.getValues filter.type).getD doc 0)
  | double filter => filter.InRange (reader.doubles.getD doc 0)
  | string filter => filter.InRange (reader.stringIndex.valueOf doc)

/-- The value lies in a range whose exclusive upper bound is zero. -/
def Missed (reader : CachedReader) (doc : Nat) : FieldCacheRangeFilter → Prop
  | numeric filter => filter.Missed ((reader.getValues filter.type).getD doc 0)
  | double _ => False
  | string _ => False

/-- The value lies behind an exclusive bound that has been stepped over. -/
def Extra (reader : CachedReader) (doc : Nat) : FieldCacheRangeFilter → Prop
  | numeric filter => filter.Extra ((reader.getValues filter.type).getD doc 0)
  | double filter => filter.Extra (reader.doubles.getD doc 0)
  | string _ => False

/-- Zero, the value of the documents without one, is in the range, or is let in. -/
def ContainsZero : FieldCacheRangeFilter → Prop
  | numeric filter => filter.InRange 0 ∧ ¬ filter.Missed 0 ∨ filter.Extra 0
  | double filter => filter.InRange 0 ∨ filter.Extra 0
  | string _ => False

/-- The iterator of the filter returns the live documents in its range, whatever calls are made, if and only if no live
document's value is missed or extra, and of the deleted documents none is accepted by a filter that does not accept
zero. -/
theorem enumerates_live_in_range (filter : FieldCacheRangeFilter) (reader : CachedReader) :
    (filter.iteration reader).Enumerates (filter.iterator reader) {doc | reader.Live doc ∧ filter.InRange reader doc} ↔
      (∀ doc, reader.Live doc → ¬ filter.Missed reader doc ∧ ¬ filter.Extra reader doc) ∧
      ∀ doc < reader.maxDoc, reader.isDeleted doc = true →
        filter.InRange reader doc ∧ ¬ filter.Missed reader doc ∨ filter.Extra reader doc → filter.ContainsZero := by
  have hgetD : ∀ {β : Type} {values : List β} {doc : Nat} {value : β} (zero : β), values[doc]? = some value →
      values.getD doc zero = value := by
    intro β values doc value zero hvalue
    rw [List.getD_eq_getElem?_getD, hvalue, Option.getD_some]
  cases filter with
  | numeric filter =>
      have hset := filter.getDocIdSet_eq (reader.getValues filter.type)
      have hof : (filter.getDocIdSet (reader.getValues filter.type)).IsOf (reader.getValues filter.type) := by
        rcases hset with heq | heq <;> rw [heq] <;> trivial
      have hzero : filter.type.minVal ≤ 0 ∧ 0 ≤ filter.type.maxVal := by cases filter.type <;> decide
      apply FilterDocIdSet.enumerates_iff_slips _ _ hof (reader.length_getValues filter.type)
      · intro doc value hvalue
        rw [InRange, Missed, Extra, hgetD 0 hvalue]
        exact filter.accepts_iff _ (reader.getValues_mem (List.mem_of_getElem? hvalue))
      · exact fun doc hmissed => hmissed.2.2
      · intro doc value hvalue hextra hrange
        have hmem := reader.getValues_mem (List.mem_of_getElem? hvalue)
        rw [Extra, hgetD 0 hvalue] at hextra
        rw [InRange, hgetD 0 hvalue] at hrange
        obtain ⟨-, hinclude, hmin, -⟩ := hextra
        have hbelow := hrange.2
        rw [hinclude, if_neg Bool.false_ne_true] at hbelow
        omega
      · intro value haccepts
        rw [FilterDocIdSet.readsDeletions_iff hset haccepts, filter.accepts_iff _ hzero]
        exact Iff.rfl
  | double filter =>
      have hset := filter.getDocIdSet_eq reader.doubles
      have hof : (filter.getDocIdSet reader.doubles).IsOf reader.doubles := by
        rcases hset with heq | heq <;> rw [heq] <;> trivial
      apply FilterDocIdSet.enumerates_iff_slips _ _ hof reader.length_doubles
      · intro doc value hvalue
        rw [InRange, Missed, Extra, hgetD 0 hvalue, and_iff_left not_false]
        exact filter.accepts_iff _ value
      · exact fun doc hmissed => hmissed.elim
      · exact fun doc value _ hextra => hextra.1
      · intro value haccepts
        rw [FilterDocIdSet.readsDeletions_iff hset haccepts, filter.accepts_iff]
        exact Iff.rfl
  | string filter =>
      have hof : (filter.getDocIdSet reader.stringIndex).IsOf reader.stringIndex.order := by
        unfold FieldCacheRangeFilterString.getDocIdSet
        split <;> trivial
      apply FilterDocIdSet.enumerates_iff_slips _ _ hof reader.length_order
      · intro doc ord hord
        rw [InRange, Missed, Extra, or_iff_left not_false, and_iff_left not_false]
        exact filter.accepts_iff reader.valid reader.order_le hord
      · exact fun doc hmissed => hmissed.elim
      · exact fun doc ord _ hextra => hextra.elim
      · intro ord haccepts
        generalize hset : filter.getDocIdSet reader.stringIndex = set at haccepts ⊢
        unfold FieldCacheRangeFilterString.getDocIdSet at hset
        split at hset
        · rw [← hset] at haccepts
          exact haccepts.elim
        · rw [← hset]
          exact iff_of_false Bool.false_ne_true id

/-- The range from -5 to 0 without 0. -/
def negatives : FieldCacheRangeFilterNumeric where
  type := .int
  lowerVal := -5
  upperVal := 0
  includeLower := true
  includeUpper := false
  lower_mem := by decide
  upper_mem := by decide

/-- A reader with one document, whose value is -3. -/
def oneNegative : CachedReader where
  maxDoc := 1
  deletedDocs := none
  bytes := [0]
  ints := [-3]
  longs := [0]
  doubles := [0]
  stringIndex := ⟨[0], [[]]⟩
  maxDoc_le := by decide
  length_bytes := rfl
  length_ints := rfl
  length_longs := rfl
  length_doubles := rfl
  length_order := rfl
  valid := ⟨⟨[], rfl, List.Pairwise.nil⟩, by decide⟩
  order_le := by decide

/-- The document is in the range, and the iterator has none. -/
theorem exclusive_zero_returns_nothing :
    oneNegative.Live 0 ∧ (numeric negatives).InRange oneNegative 0 ∧
      ((numeric negatives).iteration oneNegative).nextDoc ((numeric negatives).iterator oneNegative) =
        (NO_MORE_DOCS, .empty) ∧
      ¬ ((numeric negatives).iteration oneNegative).Enumerates ((numeric negatives).iterator oneNegative)
        {doc | oneNegative.Live doc ∧ (numeric negatives).InRange oneNegative doc} := by
  have hlive : oneNegative.Live 0 := ⟨by decide, by decide⟩
  have hrange : (numeric negatives).InRange oneNegative 0 :=
    ⟨show (-5 : Int) ≤ -3 by decide, show (-3 : Int) < 0 by decide⟩
  have hnext : ((numeric negatives).iteration oneNegative).nextDoc ((numeric negatives).iterator oneNegative) =
      (NO_MORE_DOCS, .empty) := rfl
  refine ⟨hlive, hrange, hnext, fun h => ?_⟩
  have hlegal : IteratorCall.nextDoc.Legal (-1) := show (-1 : Int) < NO_MORE_DOCS by decide
  have hfirst := (h [.nextDoc] hlegal).1
  have hzero := (IsFirst.mem_iff hfirst (n := 0) (by decide)).mp ⟨hlive, hrange⟩
  rw [DocIdSetIterator.call, hnext] at hzero
  cases hzero

end FieldCacheRangeFilter
end LucenePlusPlus
