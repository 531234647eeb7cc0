import LucenePlusPlus.Term

/-!
`FieldInfos`: what is known of the fields of a segment. Of a field, only the flags are kept that its postings
depend on. The fields of a merged segment are those of the segments that are merged, with a flag set if one of
them sets it.
-/

namespace LucenePlusPlus

/-- For a field that is not indexed, the flags are left at their defaults. -/
structure FieldInfo where
  name : WString
  isIndexed : Bool
  storePayloads : Bool
  omitTermFreqAndPositions : Bool
  defaults : isIndexed = false → storePayloads = false ∧ omitTermFreqAndPositions = false
deriving DecidableEq

namespace FieldInfo

/-- `update`, with the flags of `other`. -/
def update (info other : FieldInfo) : FieldInfo where
  name := info.name
  -- once indexed, always index
  isIndexed := if info.isIndexed ≠ other.isIndexed then true else info.isIndexed
  storePayloads :=
    if other.isIndexed then
      if info.storePayloads ≠ other.storePayloads then true else info.storePayloads
    else info.storePayloads
  omitTermFreqAndPositions :=
    if other.isIndexed then
      if info.omitTermFreqAndPositions ≠ other.omitTermFreqAndPositions then true
      else info.omitTermFreqAndPositions
    else info.omitTermFreqAndPositions
  defaults h := by
    have hinfo := info.defaults
    cases hi : info.isIndexed <;> cases ho : other.isIndexed <;> simp_all

theorem storePayloads_update (info other : FieldInfo) :
    (info.update other).storePayloads = (info.storePayloads || other.storePayloads) := by
  have hother := other.defaults
  simp only [update]
  cases hindexed : other.isIndexed
  · simp [(hother hindexed).1]
  · cases info.storePayloads <;> cases other.storePayloads <;> rfl

theorem omitTermFreqAndPositions_update (info other : FieldInfo) :
    (info.update other).omitTermFreqAndPositions =
      (info.omitTermFreqAndPositions || other.omitTermFreqAndPositions) := by
  have hother := other.defaults
  simp only [update]
  cases hindexed : other.isIndexed
  · simp [(hother hindexed).2]
  · cases info.omitTermFreqAndPositions <;> cases other.omitTermFreqAndPositions <;> rfl

end FieldInfo

/-- By number. -/
abbrev FieldInfos := List FieldInfo

namespace FieldInfos

def fieldInfo (infos : FieldInfos) (name : WString) : Option FieldInfo :=
  infos.find? fun info => info.name = name

/-- `add` with the name and the flags of `other`. -/
def add (infos : FieldInfos) (other : FieldInfo) : FieldInfos :=
  match infos.fieldInfo other.name with
  | none => infos ++ [other]
  | some _ => infos.map fun info => if info.name = other.name then info.update other else info

/-- The fields that `mergeFields` starts with, and adds those of the readers to. When doc stores are not
merged, the numbers of the fields are the same in all segments, and those of the last are taken. -/
def mergeFields (mergeDocStores : Bool) (readers : List FieldInfos) : FieldInfos :=
  readers.flatten.foldl add (if mergeDocStores then [] else readers.getLast?.getD [])

theorem name_of_fieldInfo {infos : FieldInfos} {name : WString} {info : FieldInfo}
    (h : infos.fieldInfo name = some info) : info.name = name := by
  simpa using List.find?_some h

theorem mem_of_fieldInfo {infos : FieldInfos} {name : WString} {info : FieldInfo}
    (h : infos.fieldInfo name = some info) : info ∈ infos := List.mem_of_find?_eq_some h

theorem fieldInfo_add (infos : FieldInfos) (other : FieldInfo) (name : WString) :
    (infos.add other).fieldInfo name =
      if other.name = name then
        some (match infos.fieldInfo name with
          | none => other
          | some info => info.update other)
      else infos.fieldInfo name := by
  rw [add]
  cases hfind : infos.fieldInfo other.name with
  | none =>
      simp only [fieldInfo, List.find?_append]
      split
      case isTrue heq =>
        rw [heq] at hfind
        rw [fieldInfo] at hfind
        rw [hfind]
        simp [heq]
      case isFalse hne => simp [hne]
  | some info =>
      simp only [fieldInfo, List.find?_map]
      have hname : ((fun info : FieldInfo => decide (info.name = name)) ∘ fun info =>
          if info.name = other.name then info.update other else info) =
            fun info : FieldInfo => decide (info.name = name) := by
        funext info
        rw [Function.comp_apply]
        split <;> rfl
      rw [hname]
      split
      case isTrue heq =>
        rw [heq] at hfind
        rw [fieldInfo] at hfind
        rw [hfind, Option.map_some, if_pos (name_of_fieldInfo hfind |>.trans heq.symm)]
      case isFalse hne =>
        cases hother : infos.find? fun info => info.name = name with
        | none => rfl
        | some info' =>
            have hname' : info'.name = name := name_of_fieldInfo hother
            rw [Option.map_some, if_neg fun heq => hne (heq.symm.trans hname')]

section Flags
variable {flag : FieldInfo → Bool} {infos : FieldInfos} {name : WString}

theorem isSome_fieldInfo_foldl (others : FieldInfos)
    (h : (infos.fieldInfo name).isSome = true ∨ ∃ other ∈ others, other.name = name) :
    ((others.foldl add infos).fieldInfo name).isSome = true := by
  induction others generalizing infos with
  | nil =>
      rcases h with h | ⟨other, hmem, -⟩
      · exact h
      · cases hmem
  | cons other others ih =>
      apply ih
      rw [fieldInfo_add]
      split
      case isTrue => exact Or.inl rfl
      case isFalse hne =>
        rcases h with h | ⟨other', hmem, hname⟩
        · exact Or.inl h
        · rcases List.mem_cons.mp hmem with rfl | hmem
          · exact absurd hname hne
          · exact Or.inr ⟨other', hmem, hname⟩

/-- A flag that `update` sets when one of the two has it is set when one of all has it. -/
theorem flag_foldl_add (hflag : ∀ info other : FieldInfo, flag (info.update other) = (flag info || flag other))
    (others : FieldInfos) {merged : FieldInfo} (h : (others.foldl add infos).fieldInfo name = some merged) :
    flag merged = true ↔ (∃ info, infos.fieldInfo name = some info ∧ flag info = true) ∨
      ∃ other ∈ others, other.name = name ∧ flag other = true := by
  induction others generalizing infos with
  | nil =>
      rw [List.foldl_nil] at h
      rw [h]
      simp
  | cons other others ih =>
      rw [List.foldl_cons] at h
      rw [ih h, fieldInfo_add]
      by_cases hname : other.name = name
      · rw [if_pos hname]
        cases infos.fieldInfo name with
        | none => simp [hname]
        | some info => simp [hname, hflag, or_assoc]
      · rw [if_neg hname]
        simp [hname]

/-- A field of one of the readers is one of the merged segment, with the flags of all of them. -/
theorem fieldInfo_mergeFields (mergeDocStores : Bool) {readers : List FieldInfos}
    (hfield : ∃ infos ∈ readers, (infos.fieldInfo name).isSome = true) :
    ∃ merged, (mergeFields mergeDocStores readers).fieldInfo name = some merged ∧
      ∀ flag : FieldInfo → Bool,
        (∀ info other : FieldInfo, flag (info.update other) = (flag info || flag other)) →
        (flag merged = true ↔ ∃ infos ∈ readers, ∃ info ∈ infos, info.name = name ∧ flag info = true) := by
  have hstart : ∀ {info},
      fieldInfo (if mergeDocStores then [] else readers.getLast?.getD []) name = some info →
      ∃ infos ∈ readers, info ∈ infos ∧ info.name = name := by
    intro info hinfo
    split at hinfo
    · cases hinfo
    · cases hlast : readers.getLast? with
      | none =>
          rw [hlast] at hinfo
          cases hinfo
      | some infos =>
          rw [hlast] at hinfo
          exact ⟨infos, List.mem_of_getLast? hlast, mem_of_fieldInfo hinfo, name_of_fieldInfo hinfo⟩
  obtain ⟨infos, hinfos, hsome⟩ := hfield
  obtain ⟨info, hinfo⟩ := Option.isSome_iff_exists.mp hsome
  have hknown : ∃ other ∈ readers.flatten, other.name = name :=
    ⟨info, List.mem_flatten.mpr ⟨infos, hinfos, mem_of_fieldInfo hinfo⟩, name_of_fieldInfo hinfo⟩
  obtain ⟨merged, hmerged⟩ := Option.isSome_iff_exists.mp
    (isSome_fieldInfo_foldl readers.flatten (Or.inr hknown))
  refine ⟨merged, hmerged, fun flag hflag => ?_⟩
  rw [flag_foldl_add hflag readers.flatten hmerged]
  constructor
  · rintro (⟨info, hinfo, htrue⟩ | ⟨other, hother, hname, htrue⟩)
    · obtain ⟨infos, hmem, hin, hname⟩ := hstart hinfo
      exact ⟨infos, hmem, info, hin, hname, htrue⟩
    · obtain ⟨infos, hmem, hin⟩ := List.mem_flatten.mp hother
      exact ⟨infos, hmem, other, hin, hname, htrue⟩
  · rintro ⟨infos, hmem, info, hin, hname, htrue⟩
    exact Or.inr ⟨info, List.mem_flatten.mpr ⟨infos, hmem, hin⟩, hname, htrue⟩

end Flags

end FieldInfos
end LucenePlusPlus
