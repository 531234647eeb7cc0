import LucenePlusPlus.FieldInfos
import LucenePlusPlus.StringRoundTrip

/-!
`FieldInfos` with the numbers and all the flags of the fields: `add` gives a field the next number when its name is
new, and updates its flags otherwise. Here a number is an `int32_t`.
-/

namespace LucenePlusPlus
namespace FieldNumbering

/-- The flags of a field, and those `add` is called with. -/
structure Flags where
  isIndexed : Bool
  storeTermVector : Bool
  storePositionWithTermVector : Bool
  storeOffsetWithTermVector : Bool
  omitNorms : Bool
  storePayloads : Bool
  omitTermFreqAndPositions : Bool
deriving DecidableEq

namespace Flags

/-- For fields that are not indexed, the defaults are left. -/
def new (flags : Flags) : Flags where
  isIndexed := flags.isIndexed
  storeTermVector := if flags.isIndexed then flags.storeTermVector else false
  storePositionWithTermVector := if flags.isIndexed then flags.storePositionWithTermVector else false
  storeOffsetWithTermVector := if flags.isIndexed then flags.storeOffsetWithTermVector else false
  omitNorms := if flags.isIndexed then flags.omitNorms else true
  storePayloads := if flags.isIndexed then flags.storePayloads else false
  omitTermFreqAndPositions := if flags.isIndexed then flags.omitTermFreqAndPositions else false

/-- A field that is added without being indexed leaves the flags as they are. -/
def update (info flags : Flags) : Flags where
  -- once indexed, always index
  isIndexed := if info.isIndexed ≠ flags.isIndexed then true else info.isIndexed
  storeTermVector :=
    if flags.isIndexed ∧ info.storeTermVector ≠ flags.storeTermVector then true else info.storeTermVector
  storePositionWithTermVector :=
    if flags.isIndexed ∧ info.storePositionWithTermVector ≠ flags.storePositionWithTermVector then true
    else info.storePositionWithTermVector
  storeOffsetWithTermVector :=
    if flags.isIndexed ∧ info.storeOffsetWithTermVector ≠ flags.storeOffsetWithTermVector then true
    else info.storeOffsetWithTermVector
  -- once norms are stored, always store
  omitNorms := if flags.isIndexed ∧ info.omitNorms ≠ flags.omitNorms then false else info.omitNorms
  storePayloads := if flags.isIndexed ∧ info.storePayloads ≠ flags.storePayloads then true else info.storePayloads
  omitTermFreqAndPositions :=
    if flags.isIndexed ∧ info.omitTermFreqAndPositions ≠ flags.omitTermFreqAndPositions then true
    else info.omitTermFreqAndPositions

/-- The flags after some adds: norms are omitted when all that index the field omit them, and each other flag is set
when one that indexes the field sets it. -/
def combine (adds : List Flags) : Flags where
  isIndexed := adds.any fun flags => flags.isIndexed
  storeTermVector := adds.any fun flags => flags.isIndexed && flags.storeTermVector
  storePositionWithTermVector := adds.any fun flags => flags.isIndexed && flags.storePositionWithTermVector
  storeOffsetWithTermVector := adds.any fun flags => flags.isIndexed && flags.storeOffsetWithTermVector
  omitNorms := adds.all fun flags => !flags.isIndexed || flags.omitNorms
  storePayloads := adds.any fun flags => flags.isIndexed && flags.storePayloads
  omitTermFreqAndPositions := adds.any fun flags => flags.isIndexed && flags.omitTermFreqAndPositions

theorem combine_singleton (flags : Flags) : combine [flags] = flags.new := by
  obtain ⟨indexed, _, _, _, _, _, _⟩ := flags
  cases indexed <;> simp [combine, new]

theorem or_eq_ite (indexed old flag : Bool) :
    (old || (indexed && flag)) = if indexed ∧ old ≠ flag then true else old := by
  cases indexed <;> cases old <;> cases flag <;> rfl

theorem and_eq_ite (indexed old flag : Bool) :
    (old && (!indexed || flag)) = if indexed ∧ old ≠ flag then false else old := by
  cases indexed <;> cases old <;> cases flag <;> rfl

theorem or_eq_ite_ne (old flag : Bool) : (old || flag) = if old ≠ flag then true else old := by
  cases old <;> cases flag <;> rfl

theorem combine_concat (adds : List Flags) (flags : Flags) :
    combine (adds ++ [flags]) = (combine adds).update flags := by
  simp only [combine, update, List.any_append, List.all_append, List.any_cons, List.any_nil, List.all_cons,
    List.all_nil, Bool.or_false, Bool.and_true]
  rw [or_eq_ite_ne, or_eq_ite, or_eq_ite, or_eq_ite, or_eq_ite, or_eq_ite, and_eq_ite]
  rfl

theorem combine_perm {adds adds' : List Flags} (h : adds.Perm adds') : combine adds = combine adds' := by
  simp only [combine, h.any_eq, h.all_eq]

theorem new_new (flags : Flags) : flags.new.new = flags.new := by
  obtain ⟨indexed, _, _, _, _, _, _⟩ := flags
  cases indexed <;> rfl

theorem new_of_isIndexed {flags : Flags} (h : flags.isIndexed = true) : flags.new = flags := by
  rw [new]
  simp only [h, if_true]
  rw [← h]

theorem isIndexed_update (info flags : Flags) : (info.update flags).isIndexed = (info.isIndexed || flags.isIndexed) :=
  (or_eq_ite_ne _ _).symm

theorem update_of_not_isIndexed {flags : Flags} (info : Flags) (h : flags.isIndexed = false) :
    info.update flags = { info with isIndexed := info.isIndexed || flags.isIndexed } := by
  rw [or_eq_ite_ne, update]
  simp only [h, Bool.false_eq_true, false_and, if_false]

theorem new_update {info : Flags} (h : info.new = info) (flags : Flags) :
    (info.update flags).new = info.update flags := by
  cases hindexed : (info.update flags).isIndexed with
  | true => exact new_of_isIndexed hindexed
  | false =>
      rw [isIndexed_update, Bool.or_eq_false_iff] at hindexed
      rw [update_of_not_isIndexed info hindexed.2, hindexed.2, Bool.or_false]
      exact h

end Flags

/-- For a field that is not indexed, the flags are the defaults. -/
@[ext] structure FieldInfo extends Flags where
  name : WString
  number : Int
  defaults : toFlags.new = toFlags
deriving DecidableEq

namespace FieldInfo

def new (name : WString) (number : Int) (flags : Flags) : FieldInfo where
  toFlags := flags.new
  name := name
  number := number
  defaults := flags.new_new

@[simp] theorem name_new (name : WString) (number : Int) (flags : Flags) : (new name number flags).name = name := rfl

def update (info : FieldInfo) (flags : Flags) : FieldInfo where
  toFlags := info.toFlags.update flags
  name := info.name
  number := info.number
  defaults := Flags.new_update info.defaults flags

def clone (info : FieldInfo) : FieldInfo := new info.name info.number info.toFlags

theorem clone_eq (info : FieldInfo) : info.clone = info := by
  rw [clone, new]
  congr 1
  exact info.defaults

end FieldInfo

/-- A field is kept in both under the same pointer: here `byName` has its place in `byNumber`. -/
structure FieldInfos where
  byNumber : List FieldInfo
  byName : WString → Option Nat

/-- A call of `add`. -/
structure Add extends Flags where
  name : WString
deriving DecidableEq

namespace FieldInfos

def new : FieldInfos := { byNumber := [], byName := fun _ => none }

def size (infos : FieldInfos) : Int := toInt32 infos.byNumber.length

def fieldInfo (infos : FieldInfos) (name : WString) : Option FieldInfo :=
  (infos.byName name).bind fun place => infos.byNumber[place]?

def fieldInfoAt (infos : FieldInfos) (fieldNumber : Int) : Option FieldInfo :=
  if fieldNumber ≥ 0 ∧ fieldNumber < infos.size then infos.byNumber[fieldNumber.toNat]? else none

def fieldNumber (infos : FieldInfos) (name : WString) : Int :=
  match infos.fieldInfo name with
  | some fi => fi.number
  | none => -1

def fieldName (infos : FieldInfos) (fieldNumber : Int) : WString :=
  match infos.fieldInfoAt fieldNumber with
  | some fi => fi.name
  | none => []

def addInternal (infos : FieldInfos) (name : WString) (flags : Flags) : FieldInfos where
  byNumber := infos.byNumber ++ [.new name infos.size flags]
  byName := Function.update infos.byName name (some infos.byNumber.length)

def add (infos : FieldInfos) (call : Add) : FieldInfos :=
  match infos.byName call.name with
  | none => infos.addInternal call.name call.toFlags
  | some place => { infos with byNumber := infos.byNumber.modify place fun fi => fi.update call.toFlags }

def addAll (infos : FieldInfos) (calls : List Add) : FieldInfos := calls.foldl add infos

end FieldInfos

/-! ### Numbers and flags after some adds -/

/-- The names in the order in which they first appear. -/
def names (calls : List Add) : List WString := (calls.map Add.name).eraseDups

/-- The flags `add` has been called with for a name. -/
def flagsOf (calls : List Add) (name : WString) : List Flags :=
  (calls.filter fun call => call.name = name).map Add.toFlags

theorem names_concat (calls : List Add) (call : Add) :
    names (calls ++ [call]) = if call.name ∈ names calls then names calls else names calls ++ [call.name] := by
  rw [names, List.map_append, List.eraseDups_append]
  split
  case isTrue hmem =>
    rw [names, List.mem_eraseDups] at hmem
    have hfilter : [call.name].removeAll (calls.map Add.name) = [] :=
      List.filter_eq_nil_iff.mpr fun name hname => by
        rw [List.mem_singleton.mp hname]
        simpa using hmem
    rw [List.map_cons, List.map_nil, hfilter, List.eraseDups_nil, List.append_nil, names]
  case isFalse hnot =>
    rw [names, List.mem_eraseDups] at hnot
    have hfilter : [call.name].removeAll (calls.map Add.name) = [call.name] :=
      List.filter_eq_self.mpr fun name hname => by
        rw [List.mem_singleton.mp hname]
        simpa using hnot
    rw [List.map_cons, List.map_nil, hfilter, names]
    rfl

theorem nodup_names (calls : List Add) : (names calls).Nodup := by
  induction calls using List.reverseRecOn with
  | nil => exact List.nodup_nil
  | append_singleton calls call ih =>
      rw [names_concat]
      split
      case isTrue => exact ih
      case isFalse hnot => exact List.nodup_append.mpr ⟨ih, List.nodup_singleton _, by
          rintro name hmem name' hmem' rfl
          rw [List.mem_singleton] at hmem'
          exact hnot (hmem' ▸ hmem)⟩

theorem mem_names {calls : List Add} {name : WString} : name ∈ names calls ↔ ∃ call ∈ calls, call.name = name := by
  rw [names, List.mem_eraseDups, List.mem_map]

theorem names_append (calls more : List Add) : ∃ others, names (calls ++ more) = names calls ++ others := by
  rw [names, List.map_append, List.eraseDups_append]
  exact ⟨_, rfl⟩

theorem flagsOf_concat (calls : List Add) (call : Add) (name : WString) :
    flagsOf (calls ++ [call]) name =
      if call.name = name then flagsOf calls name ++ [call.toFlags] else flagsOf calls name := by
  rw [flagsOf, List.filter_append, List.map_append]
  split
  case isTrue heq => simp [flagsOf, heq]
  case isFalse hne => simp [flagsOf, hne]

theorem flagsOf_eq_nil {calls : List Add} {name : WString} (h : name ∉ names calls) : flagsOf calls name = [] := by
  rw [flagsOf, List.map_eq_nil_iff, List.filter_eq_nil_iff]
  intro call hmem hname
  exact h (mem_names.mpr ⟨call, hmem, of_decide_eq_true hname⟩)

theorem getElem?_idxOf? {α : Type} [BEq α] [LawfulBEq α] {l : List α} {a : α} {i : Nat} (h : l.idxOf? a = some i) :
    l[i]? = some a := by
  obtain ⟨hi, heq, -⟩ := List.idxOf?_eq_some_iff.mp h
  rw [List.getElem?_eq_getElem hi, heq]

theorem idxOf?_of_getElem? {α : Type} [BEq α] [LawfulBEq α] {l : List α} {a : α} {i : Nat} (hnodup : l.Nodup)
    (h : l[i]? = some a) : l.idxOf? a = some i := by
  obtain ⟨hi, heq⟩ := List.getElem?_eq_some_iff.mp h
  refine List.idxOf?_eq_some_iff.mpr ⟨hi, heq, fun j hj heq' => ?_⟩
  exact absurd (hnodup.getElem_inj_iff.mp (heq'.trans heq.symm)) (Nat.ne_of_lt hj)

theorem idxOf?_concat {α : Type} [BEq α] [LawfulBEq α] [DecidableEq α] (l : List α) {a b : α} (h : a ∉ l) :
    (l ++ [a]).idxOf? b = if b = a then some l.length else l.idxOf? b := by
  rw [List.idxOf?, List.findIdx?_append]
  split
  case isTrue heq =>
    rw [← List.idxOf?, heq, List.idxOf?_eq_none_iff.mpr h]
    simp
  case isFalse hne =>
    rw [← List.idxOf?]
    simp [Ne.symm hne]

/-- What the fields are after some adds. -/
structure Numbered (infos : FieldInfos) (calls : List Add) : Prop where
  byNumber : infos.byNumber.map FieldInfo.name = names calls
  byName : ∀ name, infos.byName name = (names calls).idxOf? name
  number : ∀ (place : Nat) info, infos.byNumber[place]? = some info → info.number = toInt32 place
  flags : ∀ info ∈ infos.byNumber, info.toFlags = .combine (flagsOf calls info.name)

namespace Numbered
variable {infos : FieldInfos} {calls : List Add}

theorem length_eq (h : Numbered infos calls) : infos.byNumber.length = (names calls).length := by
  rw [← h.byNumber, List.length_map]

theorem byName_eq_some_iff (h : Numbered infos calls) {name : WString}
    {place place' : Nat} {info : FieldInfo} (hplace : infos.byName name = some place)
    (hinfo : infos.byNumber[place']? = some info) : place = place' ↔ name = info.name := by
  rw [h.byName] at hplace
  have hget : (names calls)[place']? = some info.name := by
    rw [← h.byNumber, List.getElem?_map, hinfo]
    rfl
  constructor
  · rintro rfl
    exact Option.some.inj ((getElem?_idxOf? hplace).symm.trans hget)
  · rintro rfl
    exact Option.some.inj (hplace.symm.trans (idxOf?_of_getElem? (nodup_names calls) hget))

theorem addInternal (h : Numbered infos calls) {call : Add} (hnew : call.name ∉ names calls) :
    Numbered (infos.addInternal call.name call.toFlags) (calls ++ [call]) := by
  have hnames : names (calls ++ [call]) = names calls ++ [call.name] := by rw [names_concat, if_neg hnew]
  constructor
  · rw [hnames, FieldInfos.addInternal, List.map_append, h.byNumber]
    rfl
  · intro name
    rw [hnames, idxOf?_concat _ hnew, ← h.length_eq, ← h.byName]
    exact Function.update_apply _ _ _ _
  · intro place info hplace
    rw [FieldInfos.addInternal, List.getElem?_append] at hplace
    split_ifs at hplace with hlt
    · exact h.number place info hplace
    · rw [List.getElem?_singleton] at hplace
      split_ifs at hplace with hzero
      cases hplace
      have hlast : place = infos.byNumber.length := by omega
      rw [hlast]
      rfl
  · intro info hmem
    rw [FieldInfos.addInternal, List.mem_append, List.mem_singleton] at hmem
    rcases hmem with hmem | rfl
    · have hne : call.name ≠ info.name := by
        rintro heq
        exact hnew (heq ▸ h.byNumber ▸ List.mem_map_of_mem hmem)
      rw [flagsOf_concat, if_neg hne]
      exact h.flags info hmem
    · rw [FieldInfo.new, flagsOf_concat, if_pos rfl, flagsOf_eq_nil hnew, List.nil_append, Flags.combine_singleton]

theorem add (h : Numbered infos calls) (call : Add) : Numbered (infos.add call) (calls ++ [call]) := by
  rw [FieldInfos.add]
  cases hplace : infos.byName call.name with
  | none =>
      rw [h.byName, List.idxOf?_eq_none_iff] at hplace
      exact h.addInternal hplace
  | some place =>
      have hmem : call.name ∈ names calls := List.mem_of_getElem? (getElem?_idxOf? (h.byName _ ▸ hplace))
      have hnames : names (calls ++ [call]) = names calls := by rw [names_concat, if_pos hmem]
      constructor
      · rw [hnames, ← h.byNumber]
        apply List.ext_getElem?
        intro place'
        rw [List.getElem?_map, List.getElem?_map, List.getElem?_modify]
        split <;> cases infos.byNumber[place']? <;> rfl
      · intro name
        rw [hnames]
        exact h.byName name
      · intro place' info hinfo
        rw [List.getElem?_modify, Option.map_eq_map, Option.map_eq_some_iff] at hinfo
        obtain ⟨old, hold, rfl⟩ := hinfo
        split
        · exact h.number place' old hold
        · exact h.number place' old hold
      · intro info hinfo
        obtain ⟨place', hinfo⟩ := List.mem_iff_getElem?.mp hinfo
        rw [List.getElem?_modify, Option.map_eq_map, Option.map_eq_some_iff] at hinfo
        obtain ⟨old, hold, rfl⟩ := hinfo
        have hflags := h.flags old (List.mem_of_getElem? hold)
        by_cases heq : place = place'
        · rw [if_pos heq]
          calc (old.update call.toFlags).toFlags
              = old.toFlags.update call.toFlags := rfl
            _ = .combine (flagsOf calls old.name ++ [call.toFlags]) := by rw [hflags, Flags.combine_concat]
            _ = .combine (flagsOf (calls ++ [call]) old.name) := by
                rw [flagsOf_concat, if_pos ((h.byName_eq_some_iff hplace hold).mp heq)]
        · rw [if_neg heq, flagsOf_concat, if_neg (mt (h.byName_eq_some_iff hplace hold).mpr heq)]
          exact hflags

theorem addAll (h : Numbered infos calls) (more : List Add) : Numbered (infos.addAll more) (calls ++ more) := by
  induction more generalizing infos calls with
  | nil =>
      rw [List.append_nil]
      exact h
  | cons call more ih =>
      rw [List.append_cons]
      exact ih (h.add call)

theorem new : Numbered .new [] where
  byNumber := rfl
  byName _ := rfl
  number _ _ h := by cases h
  flags _ h := by cases h

theorem fieldInfo_eq_some_iff (h : Numbered infos calls) {name : WString} {info : FieldInfo} :
    infos.fieldInfo name = some info ↔ info ∈ infos.byNumber ∧ info.name = name := by
  rw [FieldInfos.fieldInfo, h.byName, Option.bind_eq_some_iff]
  constructor
  · rintro ⟨place, hplace, hinfo⟩
    have hname := getElem?_idxOf? hplace
    rw [← h.byNumber, List.getElem?_map, hinfo] at hname
    exact ⟨List.mem_of_getElem? hinfo, Option.some.inj hname⟩
  · rintro ⟨hmem, rfl⟩
    obtain ⟨place, hinfo⟩ := List.mem_iff_getElem?.mp hmem
    refine ⟨place, idxOf?_of_getElem? (nodup_names calls) ?_, hinfo⟩
    rw [← h.byNumber, List.getElem?_map, hinfo]
    rfl

end Numbered

/-- The fields after some adds. -/
def ofAdds (calls : List Add) : FieldInfos := FieldInfos.new.addAll calls

theorem numbered_ofAdds (calls : List Add) : Numbered (ofAdds calls) calls := Numbered.new.addAll calls

end FieldNumbering
end LucenePlusPlus
