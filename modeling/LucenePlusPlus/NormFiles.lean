import Mathlib.Tactic
import LucenePlusPlus.BufferedIndexInput
import LucenePlusPlus.IndexFileNames

/-!
The files of a segment's norms. A field whose norms have been written again has a file of its own, whose generation is
kept by the segment; of segments from before there were generations, the directory tells.
-/

namespace LucenePlusPlus
namespace NormFiles
open IndexFileNames

/-- `SegmentInfo::NO` -/
def NO : Int := -1

/-- `SegmentInfo::YES` -/
def YES : Int := 1

/-- `SegmentInfo::CHECK_DIR` -/
def CHECK_DIR : Int := 0

/-- `SegmentInfo::WITHOUT_GEN` -/
def WITHOUT_GEN : Int := 0

/-- What is read of a segment here. -/
structure SegmentInfo where
  name : String
  preLockless : Bool
  hasSingleNormFile : Bool
  normGen : Option (List Int)
  deriving DecidableEq

namespace SegmentInfo

variable (si : SegmentInfo) (dir : List String) (isDigit : Char → Bool)

def setNumFields (numFields : Nat) : SegmentInfo :=
  match si.normGen with
  | some _ => si
  | none => { si with normGen := some (List.replicate numFields (if !si.preLockless then CHECK_DIR else NO)) }

/-- The file of a field in a segment from before there were generations. -/
def plainFile (fieldNumber : Nat) : String := si.name ++ ".s" ++ toString fieldNumber

/-- `hasSeparateNorms(fieldNumber)`; there is no answer for a field that `normGen` does not have. -/
def hasSeparateNormsOf (fieldNumber : Nat) : Option Bool :=
  match si.normGen with
  | none => some (if si.preLockless then decide (si.plainFile fieldNumber ∈ dir) else false)
  | some normGen =>
      normGen[fieldNumber]?.map fun gen =>
        if gen = CHECK_DIR then decide (si.plainFile fieldNumber ∈ dir) else if gen = NO then false else true

/-- What the listing of the directory is searched for. -/
def isSeparate (fileName : String) : Bool :=
  IndexFileNameFilter.accept fileName && startsWith fileName (si.name ++ ".s") &&
    (fileName.toList[(si.name ++ ".s").toList.length]?).any isDigit

def hasSeparateNorms : Bool :=
  match si.normGen with
  | none => if !si.preLockless then false else dir.any (si.isSeparate isDigit)
  | some normGen =>
      if normGen.any (YES ≤ ·) then true
      else (List.range normGen.length).any fun gen =>
        normGen.getD gen NO = CHECK_DIR && (si.hasSeparateNormsOf dir gen).getD false

/-- `none` where `normGen` is read outside. -/
def advanceNormGen (fieldIndex : Nat) : Option SegmentInfo :=
  match si.normGen with
  | none => none
  | some normGen =>
      normGen[fieldIndex]?.map fun gen =>
        { si with normGen := some (normGen.set fieldIndex (if gen = NO then YES else toInt64 (gen + 1))) }

def getNormFileName (number : Nat) : Option String :=
  let gen : Option Int :=
    match si.normGen with
    | none => some CHECK_DIR
    | some normGen => normGen[number]?
  gen.bind fun gen => (si.hasSeparateNormsOf dir number).map fun separate =>
    if separate then fileNameFromGeneration si.name (".s" ++ toString number) gen
    else if si.hasSingleNormFile then fileNameFromGeneration si.name ".nrm" WITHOUT_GEN
    else fileNameFromGeneration si.name (".f" ++ toString number) WITHOUT_GEN

/-- The part of `SegmentReader::commitChanges` on norms: those of some fields are written again. -/
def commitNorms (numFields : Nat) (dirty : List Nat) : Option SegmentInfo :=
  dirty.foldlM advanceNormGen (si.setNumFields numFields)

/-- How many fields `normGen` is for, or is going to be. -/
def fields (numFields : Nat) : Nat := (si.normGen.map List.length).getD numFields

/-- When the norms of some fields are written, the files of the others stay what they are. -/
def Stable (numFields : Nat) : Prop :=
  ∀ dirty : List Nat, (∀ k ∈ dirty, k < si.fields numFields) → ∀ n < si.fields numFields, n ∉ dirty →
    ∃ si', si.commitNorms numFields dirty = some si' ∧ si'.hasSeparateNormsOf dir n = si.hasSeparateNormsOf dir n ∧
      si'.getNormFileName dir n = si.getNormFileName dir n

/-- A segment has separate norms if and only if one of its fields has. -/
def Found (numFields : Nat) : Prop :=
  si.hasSeparateNorms dir isDigit = true ↔ ∃ n < si.fields numFields, si.hasSeparateNormsOf dir n = some true

/-- No generation is before `NO`, and no file looks like one of separate norms, unless some field has such norms. -/
def Clean (numFields : Nat) : Prop :=
  match si.normGen with
  | none => si.preLockless = true → (∃ f ∈ dir, si.isSeparate isDigit f = true) → ∃ n < numFields, si.plainFile n ∈ dir
  | some normGen => (∃ gen ∈ normGen, gen < NO) →
      (∃ gen ∈ normGen, YES ≤ gen) ∨ ∃ n, normGen[n]? = some CHECK_DIR ∧ si.plainFile n ∈ dir

variable {si dir isDigit} {numFields n : Nat} {gens gens' : List Int}

theorem hasSeparateNormsOf_some (hgen : si.normGen = some gens) (n : Nat) :
    si.hasSeparateNormsOf dir n = gens[n]?.map fun gen =>
      if gen = CHECK_DIR then decide (si.plainFile n ∈ dir) else if gen = NO then false else true := by
  rw [hasSeparateNormsOf, hgen]

theorem hasSeparateNormsOf_none (hgen : si.normGen = none) (n : Nat) :
    si.hasSeparateNormsOf dir n = some (if si.preLockless then decide (si.plainFile n ∈ dir) else false) := by
  rw [hasSeparateNormsOf, hgen]

theorem same_of_getElem_eq (hgen : si.normGen = some gens) (h : gens'[n]? = gens[n]?) :
    ({ si with normGen := some gens' } : SegmentInfo).hasSeparateNormsOf dir n = si.hasSeparateNormsOf dir n ∧
      ({ si with normGen := some gens' } : SegmentInfo).getNormFileName dir n = si.getNormFileName dir n := by
  have hseparate : ({ si with normGen := some gens' } : SegmentInfo).hasSeparateNormsOf dir n =
      si.hasSeparateNormsOf dir n := by
    rw [hasSeparateNormsOf_some rfl, hasSeparateNormsOf_some hgen, h]
    rfl
  refine ⟨hseparate, ?_⟩
  rw [getNormFileName, getNormFileName, hseparate, hgen]
  dsimp only
  rw [h]

theorem advanceNormGens (hgen : si.normGen = some gens) (dirty : List Nat) (hdirty : ∀ k ∈ dirty, k < gens.length) :
    ∃ gens', dirty.foldlM advanceNormGen si = some { si with normGen := some gens' } ∧
      ∀ n, n ∉ dirty → gens'[n]? = gens[n]? := by
  induction dirty generalizing si gens with
  | nil => exact ⟨gens, by rw [← hgen]; rfl, fun _ _ => rfl⟩
  | cons k dirty ih =>
      have hk := hdirty k List.mem_cons_self
      obtain ⟨gens', hfold, hsame⟩ := @ih
        { si with normGen := some (gens.set k (if gens[k] = NO then YES else toInt64 (gens[k] + 1))) } _ rfl
        fun k' hk' => by rw [List.length_set]; exact hdirty k' (List.mem_cons_of_mem k hk')
      refine ⟨gens', ?_, fun n hn => ?_⟩
      · have hadvance : si.advanceNormGen k =
            some { si with normGen := some (gens.set k (if gens[k] = NO then YES else toInt64 (gens[k] + 1))) } := by
          rw [advanceNormGen, hgen]
          dsimp only
          rw [List.getElem?_eq_getElem hk]
          rfl
        rw [List.foldlM_cons, hadvance]
        exact hfold
      · rw [List.mem_cons, not_or] at hn
        rw [hsame n hn.2, List.getElem?_set_ne (Ne.symm hn.1)]

theorem getNormFileName_of_not_separate (h : si.hasSeparateNormsOf dir n = some false) :
    si.getNormFileName dir n = some (if si.hasSingleNormFile then fileNameFromGeneration si.name ".nrm" WITHOUT_GEN
      else fileNameFromGeneration si.name (".f" ++ toString n) WITHOUT_GEN) := by
  rw [getNormFileName, h]
  cases hgen : si.normGen with
  | none => rfl
  | some gens =>
      rw [hasSeparateNormsOf_some hgen] at h
      obtain ⟨gen, hget, -⟩ := Option.map_eq_some_iff.mp h
      dsimp only
      rw [hget]
      rfl

theorem stable_iff : si.Stable dir numFields ↔ (si.normGen = none → ∀ n < numFields, si.plainFile n ∉ dir) := by
  cases hgen : si.normGen with
  | some gens =>
      refine iff_of_true (fun dirty hdirty n _ hn => ?_) fun h => by cases h
      have hset : si.setNumFields numFields = si := by rw [setNumFields, hgen]
      have hfields : si.fields numFields = gens.length := by rw [fields, hgen]; rfl
      rw [hfields] at hdirty
      obtain ⟨gens', hfold, hsame⟩ := advanceNormGens hgen dirty hdirty
      refine ⟨_, ?_, same_of_getElem_eq hgen (hsame n hn)⟩
      rw [commitNorms, hset, hfold]
  | none =>
      have hfields : si.fields numFields = numFields := by rw [fields, hgen]; rfl
      have hset : si.setNumFields numFields =
          { si with normGen := some (List.replicate numFields (if !si.preLockless then CHECK_DIR else NO)) } := by
        rw [setNumFields, hgen]
      have hafter : ∀ (n : Nat) (gens : List Int), gens[n]? = some (if !si.preLockless then CHECK_DIR else NO) →
          ({ si with normGen := some gens } : SegmentInfo).hasSeparateNormsOf dir n =
            some (if si.preLockless then false else decide (si.plainFile n ∈ dir)) := by
        intro n gens h
        rw [hasSeparateNormsOf_some rfl, h]
        cases si.preLockless <;> rfl
      have hget : ∀ n < numFields, (List.replicate numFields (if !si.preLockless then CHECK_DIR else NO))[n]? =
          some (if !si.preLockless then CHECK_DIR else NO) := fun n hn => List.getElem?_replicate_of_lt hn
      constructor
      · intro hstable _ n hn hmem
        obtain ⟨si', hcommit, hsame, -⟩ :=
          hstable [] (fun _ hk => absurd hk List.not_mem_nil) n (by rwa [hfields]) List.not_mem_nil
        rw [commitNorms, hset, List.foldlM_nil] at hcommit
        cases hcommit
        rw [hafter n _ (hget n hn), hasSeparateNormsOf_none hgen, decide_eq_true hmem] at hsame
        cases hpre : si.preLockless <;> rw [hpre] at hsame <;> cases hsame
      · intro hnone dirty hdirty n hn hnd
        rw [hfields] at hdirty hn
        obtain ⟨gens', hfold, hsame⟩ := @advanceNormGens
          { si with normGen := some (List.replicate numFields (if !si.preLockless then CHECK_DIR else NO)) } _ rfl dirty
          fun k hk => by rw [List.length_replicate]; exact hdirty k hk
        have hno : decide (si.plainFile n ∈ dir) = false := decide_eq_false (hnone rfl n hn)
        have hbefore : si.hasSeparateNormsOf dir n = some false := by
          rw [hasSeparateNormsOf_none hgen, hno, ite_self]
        have hlater : ({ si with normGen := some gens' } : SegmentInfo).hasSeparateNormsOf dir n = some false := by
          rw [hafter n gens' ((hsame n hnd).trans (hget n hn)), hno, ite_self]
        refine ⟨{ si with normGen := some gens' }, ?_, hlater.trans hbefore.symm, ?_⟩
        · rw [commitNorms, hset, hfold]
        · rw [getNormFileName_of_not_separate hlater, getNormFileName_of_not_separate hbefore]

/-! ### The listing -/

theorem extensionOf_plainFile (si : SegmentInfo) (n : Nat) :
    IndexFileNameFilter.extensionOf (si.plainFile n) = some ('s' :: Nat.toDigits 10 n) := by
  have hlist : (si.plainFile n).toList.reverse =
      ((Nat.toDigits 10 n).reverse ++ ['s']) ++ '.' :: si.name.toList.reverse := by
    rw [plainFile, String.toList_append, String.toList_append, Nat.toString_eq_repr, Nat.toList_repr]
    simp
  have hdots : ∀ c ∈ (Nat.toDigits 10 n).reverse ++ ['s'], decide (c ≠ '.') = true := by
    intro c hc
    rw [decide_eq_true_eq]
    rintro rfl
    rcases List.mem_append.mp hc with hc | hc
    · exact absurd (Nat.isDigit_of_mem_toDigits (by decide) (by decide) (List.mem_reverse.mp hc)) (by decide)
    · exact absurd (List.mem_singleton.mp hc) (by decide)
  rw [IndexFileNameFilter.extensionOf, hlist, if_pos (List.mem_append_right _ List.mem_cons_self), List.takeWhile_append_of_pos hdots,
    List.takeWhile_cons_of_neg (by decide), List.append_nil, List.reverse_append, List.reverse_reverse]
  rfl

theorem isSeparate_plainFile (hdigit : ∀ c : Char, c.isDigit = true → isDigit c = true) (si : SegmentInfo) (n : Nat) :
    si.isSeparate isDigit (si.plainFile n) = true := by
  obtain ⟨d, ds, hds⟩ := List.exists_cons_of_ne_nil (@Nat.toDigits_ne_nil n 10)
  have hd : d.isDigit = true :=
    Nat.isDigit_of_mem_toDigits (by decide) (by decide) (hds ▸ List.mem_cons_self : d ∈ Nat.toDigits 10 n)
  have hlist : (si.plainFile n).toList = (si.name ++ ".s").toList ++ d :: ds := by
    rw [plainFile, String.toList_append, Nat.toString_eq_repr, Nat.toList_repr, hds]
  have haccept : IndexFileNameFilter.accept (si.plainFile n) = true := by
    rw [IndexFileNameFilter.accept, extensionOf_plainFile, hds]
    dsimp only
    rw [Bool.or_eq_true]
    right
    simp [IndexFileNameFilter.letterAndDigit, hd]
  rw [isSeparate, haccept, startsWith, hlist, List.isPrefixOf_iff_prefix.mpr (List.prefix_append _ _),
    List.getElem?_append_right le_rfl, Nat.sub_self]
  exact hdigit d hd

theorem found_iff (hdigit : ∀ c : Char, c.isDigit = true → isDigit c = true) :
    si.Found dir isDigit numFields ↔ si.Clean dir isDigit numFields := by
  cases hgen : si.normGen with
  | none =>
      have hfields : si.fields numFields = numFields := by rw [fields, hgen]; rfl
      rw [Found, Clean, hgen, hfields, hasSeparateNorms, hgen]
      simp only [hasSeparateNormsOf_none hgen, Option.some.injEq]
      cases si.preLockless with
      | false => simp
      | true =>
          simp only [Bool.not_true, Bool.false_eq_true, if_false, if_true, List.any_eq_true, decide_eq_true_eq, true_imp_iff]
          exact ⟨fun h => h.mp, fun h => ⟨h, fun ⟨n, _, hmem⟩ => ⟨_, hmem, isSeparate_plainFile hdigit si n⟩⟩⟩
  | some gens =>
      have hfields : si.fields numFields = gens.length := by rw [fields, hgen]; rfl
      have hof : ∀ n, si.hasSeparateNormsOf dir n = some true ↔
          ∃ gen, gens[n]? = some gen ∧ (gen = CHECK_DIR ∧ si.plainFile n ∈ dir ∨ gen ≠ CHECK_DIR ∧ gen ≠ NO) := by
        intro n
        rw [hasSeparateNormsOf_some hgen, Option.map_eq_some_iff]
        refine exists_congr fun gen => and_congr_right fun _ => ?_
        by_cases hzero : gen = CHECK_DIR
        · simp [hzero]
        · simp [hzero]
      have hindex : ∀ P : Int → Prop, (∃ gen ∈ gens, P gen) ↔ ∃ n : Nat, ∃ gen, gens[n]? = some gen ∧ P gen := by
        intro P
        constructor
        · rintro ⟨gen, hmem, hgen⟩
          obtain ⟨n, hn⟩ := List.mem_iff_getElem?.mp hmem
          exact ⟨n, gen, hn, hgen⟩
        · rintro ⟨n, gen, hn, hgen⟩
          exact ⟨gen, List.mem_iff_getElem?.mpr ⟨n, hn⟩, hgen⟩
      have hall : si.hasSeparateNorms dir isDigit = true ↔
          (∃ gen ∈ gens, YES ≤ gen) ∨ ∃ n, gens[n]? = some CHECK_DIR ∧ si.plainFile n ∈ dir := by
        have hany : gens.any (YES ≤ ·) = true ↔ ∃ gen ∈ gens, YES ≤ gen := by simp
        have hrange : ((List.range gens.length).any fun gen =>
            gens.getD gen NO = CHECK_DIR && (si.hasSeparateNormsOf dir gen).getD false) = true ↔
            ∃ n, gens[n]? = some CHECK_DIR ∧ si.plainFile n ∈ dir := by
          rw [List.any_eq_true]
          constructor
          · rintro ⟨n, hn, hboth⟩
            rw [List.mem_range] at hn
            rw [hasSeparateNormsOf_some hgen, List.getD_eq_getElem?_getD, List.getElem?_eq_getElem hn,
              Bool.and_eq_true, decide_eq_true_eq] at hboth
            obtain ⟨hzero, hfile⟩ := hboth
            rw [Option.getD_some] at hzero
            rw [hzero] at hfile
            exact ⟨n, by rw [List.getElem?_eq_getElem hn, hzero], by simpa using hfile⟩
          · rintro ⟨n, hget, hfile⟩
            obtain ⟨hn, -⟩ := List.getElem?_eq_some_iff.mp hget
            refine ⟨n, List.mem_range.mpr hn, ?_⟩
            rw [hasSeparateNormsOf_some hgen, List.getD_eq_getElem?_getD, hget]
            simpa using hfile
        rw [hasSeparateNorms, hgen, ← hany, ← hrange]
        dsimp only
        split
        · rename_i hyes
          exact iff_of_true rfl (Or.inl hyes)
        · rename_i hno
          exact (or_iff_right hno).symm
      have hexists : (∃ n < si.fields numFields, si.hasSeparateNormsOf dir n = some true) ↔
          (∃ gen ∈ gens, gen < NO) ∨ (∃ gen ∈ gens, YES ≤ gen) ∨ ∃ n, gens[n]? = some CHECK_DIR ∧ si.plainFile n ∈ dir := by
        rw [hindex, hindex]
        constructor
        · rintro ⟨n, -, hsep⟩
          obtain ⟨gen, hget, ⟨rfl, hfile⟩ | ⟨hzero, hno⟩⟩ := (hof n).mp hsep
          · exact Or.inr (Or.inr ⟨n, hget, hfile⟩)
          · rcases lt_trichotomy gen NO with hlt | heq | hgt
            · exact Or.inl ⟨n, gen, hget, hlt⟩
            · exact absurd heq hno
            · refine Or.inr (Or.inl ⟨n, gen, hget, ?_⟩)
              rw [NO] at hgt
              rw [CHECK_DIR] at hzero
              rw [YES]
              omega
        · have hlt : ∀ {n : Nat} {gen : Int}, gens[n]? = some gen → n < si.fields numFields := by
            intro n gen hget
            rw [hfields]
            exact (List.getElem?_eq_some_iff.mp hget).1
          rintro (⟨n, gen, hget, hgen⟩ | ⟨n, gen, hget, hgen⟩ | ⟨n, hget, hfile⟩)
          · exact ⟨n, hlt hget, (hof n).mpr ⟨gen, hget, Or.inr ⟨by rw [CHECK_DIR]; rw [NO] at hgen; omega, hgen.ne⟩⟩⟩
          · exact ⟨n, hlt hget, (hof n).mpr ⟨gen, hget, Or.inr ⟨by rw [CHECK_DIR]; rw [YES] at hgen; omega,
              by rw [NO]; rw [YES] at hgen; omega⟩⟩⟩
          · exact ⟨n, hlt hget, (hof n).mpr ⟨CHECK_DIR, hget, Or.inl ⟨rfl, hfile⟩⟩⟩
      rw [Found, Clean, hgen, hall, hexists]
      exact ⟨fun h hbefore => h.mpr (Or.inl hbefore), fun h => ⟨Or.inr, fun hor => hor.elim h id⟩⟩

/-- What is looked up of a field stays the same if and only if no file of a segment without generations is there, and
the fields that have separate norms are found if and only if nothing else looks like them. -/
theorem norm_files_iff (hdigit : ∀ c : Char, c.isDigit = true → isDigit c = true) (si : SegmentInfo) (dir : List String)
    (numFields : Nat) :
    (si.Stable dir numFields ↔ (si.normGen = none → ∀ n < numFields, si.plainFile n ∉ dir)) ∧
      (si.Found dir isDigit numFields ↔ si.Clean dir isDigit numFields) :=
  ⟨stable_iff, found_iff hdigit⟩

theorem norm_files_iff_separate :
    (SegmentInfo.Stable ⟨"_0", false, false, some [-1, 2]⟩ ["_0.f0", "_0_2.s1"] 2 ↔
      (some [-1, 2] = none → ∀ n < 2, SegmentInfo.plainFile ⟨"_0", false, false, some [-1, 2]⟩ n ∉ ["_0.f0", "_0_2.s1"])) ∧
      (SegmentInfo.Found ⟨"_0", false, false, some [-1, 2]⟩ ["_0.f0", "_0_2.s1"] Char.isDigit 2 ↔
        SegmentInfo.Clean ⟨"_0", false, false, some [-1, 2]⟩ ["_0.f0", "_0_2.s1"] Char.isDigit 2) :=
  norm_files_iff (fun _ h => h) ⟨"_0", false, false, some [-1, 2]⟩ ["_0.f0", "_0_2.s1"] 2

/-- The norms of one field are written, and the separate norms of another are no longer looked for. -/
theorem separate_norms_lost : ∃ si', (⟨"_0", true, false, none⟩ : SegmentInfo).commitNorms 2 [1] = some si' ∧
    (⟨"_0", true, false, none⟩ : SegmentInfo).getNormFileName ["_0.s0"] 0 = some "_0.s0" ∧
    si'.getNormFileName ["_0.s0"] 0 = some "_0.f0" ∧
    ¬ (⟨"_0", true, false, none⟩ : SegmentInfo).Stable ["_0.s0"] 2 := by
  refine ⟨⟨"_0", true, false, some [-1, 1]⟩, by decide, by decide +kernel, by decide +kernel, fun hstable => ?_⟩
  exact stable_iff.mp hstable rfl 0 (by decide) (by decide +kernel)

end SegmentInfo

end NormFiles
end LucenePlusPlus
