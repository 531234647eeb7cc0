import LucenePlusPlus.FieldValueHitQueue
import LucenePlusPlus.StringIndex

/-!
`StringOrdValComparator`: documents of one reader are compared by the numbers of their terms, and others by the terms.
The number that the bottom has in a new reader is searched for.
-/

namespace LucenePlusPlus
open Ranking LowerBound

namespace StringOrdValComparator

structure State where
  ords : Nat → Int
  values : Nat → WString
  readerGen : Nat → Int
  currentReaderGen : Int
  lookup : List WString
  order : List Nat
  /-- none for `-1` -/
  bottomSlot : Option Nat
  bottomOrd : Int
  bottomValue : WString

def new : State := ⟨fun _ => 0, fun _ => [], fun _ => 0, -1, [], [], none, 0, []⟩

def binarySearch (lookup : List WString) (key : WString) (low high : Nat) : Int :=
  let keyPos := low + lowerBound ((lookup.take high).drop low) key
  match lookup[keyPos]? with
  | none => -(keyPos + 1)
  | some found => if key < found then -(keyPos + 1) else keyPos

section Operations
variable (sortPos : Nat) (reversed : Bool) (state : State)

def compare (slot₁ slot₂ : Nat) : Int :=
  let cmp := state.ords slot₁ - state.ords slot₂
  if state.readerGen slot₁ = state.readerGen slot₂ ∧ cmp ≠ 0 then cmp
  else WString.compare (state.values slot₁) (state.values slot₂)

def compareBottom (doc : Nat) : Int :=
  let order := state.order.getD doc 0
  let cmp := state.bottomOrd - order
  if cmp ≠ 0 then cmp else WString.compare state.bottomValue (state.lookup.getD order [])

def convert (slot : Nat) : State :=
  let state := { state with readerGen := Function.update state.readerGen slot state.currentReaderGen }
  let value := state.values slot
  if value = [] then { state with ords := Function.update state.ords slot 0 }
  else
    let index :=
      if sortPos = 0 ∧ state.bottomSlot ≠ none ∧ state.bottomSlot ≠ some slot then
        if reversed then binarySearch state.lookup value state.bottomOrd.toNat (state.lookup.length - 1)
        else binarySearch state.lookup value 0 state.bottomOrd.toNat
      else binarySearch state.lookup value 0 (state.lookup.length - 1)
    let index := if index < 0 then -index - 2 else index
    { state with ords := Function.update state.ords slot index }

def copy (slot doc : Nat) : State :=
  let ord := state.order.getD doc 0
  { state with
    ords := Function.update state.ords slot ord
    values := Function.update state.values slot (state.lookup.getD ord [])
    readerGen := Function.update state.readerGen slot state.currentReaderGen }

def setNextReader (currentReaderValues : StringIndex) : State :=
  let state := { state with
    currentReaderGen := state.currentReaderGen + 1
    order := currentReaderValues.order
    lookup := currentReaderValues.lookup }
  match state.bottomSlot with
  | none => state
  | some bottomSlot =>
      let state := convert sortPos reversed state bottomSlot
      { state with bottomOrd := state.ords bottomSlot }

def setBottom (slot : Nat) : State :=
  let state := { state with bottomSlot := some slot }
  let state := if state.readerGen slot ≠ state.currentReaderGen then convert sortPos reversed state slot else state
  { state with bottomOrd := state.ords slot, bottomValue := state.values slot }

end Operations

end StringOrdValComparator

namespace StringOrdValComparator
variable {lookup : List WString} {index : StringIndex} {text text' : WString} {v v' : WithBot WString} {doc : Nat}

/-- The number that stands for a text: that of the last term that is not greater. -/
def place (lookup : List WString) (text : WString) : Int :=
  if text = [] then 0 else lookup.countP (· ≤ text) - 1

/-- The text that is kept for a value: no text if there is none. -/
def textOf (v : WithBot WString) : WString := v.unbotD []

theorem countP_pos (hnil : [] ∈ lookup) (text : WString) : 1 ≤ lookup.countP (· ≤ text) := by
  rw [Nat.one_le_iff_ne_zero, Ne, List.countP_eq_zero]
  intro h
  apply h [] hnil
  rw [decide_eq_true_iff]
  exact not_lt.mp (List.not_lt_nil _)

theorem place_mono (hnil : [] ∈ lookup) (h : text ≤ text') : place lookup text ≤ place lookup text' := by
  unfold place
  have hpos := countP_pos hnil text'
  split_ifs with hempty hempty' hempty'
  · exact le_rfl
  · omega
  · rw [hempty'] at h
    exact absurd (le_antisymm h (not_lt.mp (List.not_lt_nil _))) hempty
  · have hmono := countP_le_mono (l := lookup) h
    omega

theorem lt_of_place_lt (hnil : [] ∈ lookup) (h : place lookup text < place lookup text') : text < text' := by
  by_contra hle
  exact absurd (place_mono hnil (not_lt.mp hle)) (not_le.mpr h)

theorem place_eq (h : index.Valid) (hempty : text ≠ []) {i : Nat} (hi : i < index.lookup.length)
    (hle : index.lookup[i] ≤ text)
    (hbehind : ∀ j (hj : j < index.lookup.length), i + 1 ≤ j → text < index.lookup[j]) :
    place index.lookup text = i := by
  rw [place, if_neg hempty, countP_le_eq h.sorted hi hle hbehind]
  omega

theorem place_getElem (h : index.Valid) {i : Nat} (hi : i < index.lookup.length) (hempty : index.lookup[i] ≠ []) :
    place index.lookup index.lookup[i] = i := by
  have hpos : 1 ≤ i := by
    by_contra hzero
    obtain rfl : i = 0 := by omega
    exact hempty (h.getElem_zero h.length_pos)
  exact place_eq h hempty hi le_rfl fun j hj hlt => h.getElem_lt hpos hlt hj

theorem binarySearch_eq (h : index.Valid) (hempty : text ≠ []) :
    (if binarySearch index.lookup text 0 (index.lookup.length - 1) < 0 then
      -binarySearch index.lookup text 0 (index.lookup.length - 1) - 2
    else binarySearch index.lookup text 0 (index.lookup.length - 1)) = place index.lookup text := by
  have hlength := h.length_pos
  obtain ⟨k, hk⟩ : ∃ k, k = lowerBound (index.lookup.take (index.lookup.length - 1)) text := ⟨_, rfl⟩
  have htake : (index.lookup.take (index.lookup.length - 1)).length = index.lookup.length - 1 := by
    rw [List.length_take]
    omega
  have hle : k ≤ index.lookup.length - 1 := by
    have hle := lowerBound_le_length (index.lookup.take (index.lookup.length - 1)) text
    omega
  have hlt : k < index.lookup.length := by omega
  have hbefore : ∀ i (hi : i < index.lookup.length), i < k → index.lookup[i] < text := by
    intro i hi hik
    have hi' : i < (index.lookup.take (index.lookup.length - 1)).length := by omega
    rw [hk] at hik
    have hless := lt_of_lt_lowerBound hik hi'
    rw [List.getElem_take] at hless
    exact hless
  have hbehind : k < index.lookup.length - 1 → text ≤ index.lookup[k] := by
    intro hik
    have hsorted := h.sorted.sublist (List.take_sublist (index.lookup.length - 1) index.lookup)
    have hi' : k < (index.lookup.take (index.lookup.length - 1)).length := by omega
    have hless := le_of_lowerBound_le hsorted hk.ge hi'
    rw [List.getElem_take] at hless
    exact hless
  have hsearch : binarySearch index.lookup text 0 (index.lookup.length - 1) =
      if text < index.lookup[k] then -((k : Int) + 1) else k := by
    rw [binarySearch, List.drop_zero, ← hk, Nat.zero_add, List.getElem?_eq_getElem hlt]
  rw [hsearch]
  by_cases hgreater : text < index.lookup[k]
  · have hpos : 1 ≤ k := by
      by_contra hzero
      obtain rfl : k = 0 := by omega
      rw [h.getElem_zero h.length_pos] at hgreater
      exact List.not_lt_nil _ hgreater
    rw [if_pos hgreater, if_pos (by omega), place_eq h hempty (i := k - 1) (by omega)]
    · omega
    · exact (hbefore (k - 1) (by omega) (by omega)).le
    · intro i hi hki
      exact hgreater.trans_le (getElem_le_of_le h.sorted (by omega) _ hi)
  · rw [if_neg hgreater, if_neg (by omega), place_eq h hempty hlt (not_lt.mp hgreater)]
    intro i hi hki
    have heq : text = index.lookup[k] := le_antisymm (hbehind (by omega)) (not_lt.mp hgreater)
    have hpos : 1 ≤ k := by
      by_contra hzero
      obtain rfl : k = 0 := by omega
      exact hempty (heq.trans (h.getElem_zero h.length_pos))
    rw [heq]
    exact h.getElem_lt hpos hki hi

/-- Missing values come first. -/
def valueOrder : Criterion (WithBot WString) := .ofKey id

theorem textOf_le_textOf (hv : v ≠ ↑([] : WString)) (v' : WithBot WString) : textOf v ≤ textOf v' ↔ v ≤ v' := by
  cases v with
  | bot => exact iff_of_true (not_lt.mp (List.not_lt_nil _)) bot_le
  | coe text =>
      cases v' with
      | bot =>
          refine iff_of_false (fun hle => ?_) (WithBot.not_coe_le_bot text)
          exact hv (congrArg _ (le_antisymm hle (not_lt.mp (List.not_lt_nil _))))
      | coe text' => exact WithBot.coe_le_coe.symm

theorem sign_compare (hv : v ≠ ↑([] : WString)) (hv' : v' ≠ ↑([] : WString)) :
    valueOrder.Sign (WString.compare (textOf v) (textOf v')) v v' where
  le := (WString.compare_nonpos_iff _ _).trans (textOf_le_textOf hv v')
  ge := (WString.compare_nonneg_iff _ _).trans (textOf_le_textOf hv' v)

theorem valueOrder_sign_neg {c : Int} (hc : c < 0) (h : v < v') : valueOrder.Sign c v v' where
  le := iff_of_true hc.le h.le
  ge := iff_of_false hc.not_ge h.not_ge

theorem valueOrder_sign_pos {c : Int} (hc : 0 < c) (h : v' < v) : valueOrder.Sign c v v' where
  le := iff_of_false hc.not_ge h.not_ge
  ge := iff_of_true hc.le h.le

/-- The place of a value compares to the number of a document as the value does to that of the document. -/
theorem sign_place (h : index.Valid) (hv : v ≠ ↑([] : WString)) (doc : Nat) :
    valueOrder.Sign
      (if place index.lookup (textOf v) - (index.order.getD doc 0 : Nat) ≠ 0 then
        place index.lookup (textOf v) - (index.order.getD doc 0 : Nat)
      else WString.compare (textOf v) (index.lookup.getD (index.order.getD doc 0) [])) v (index.valueOf doc) := by
  have hord := h.order_lt doc
  unfold StringIndex.valueOf
  generalize index.order.getD doc 0 = ord at hord ⊢
  rw [List.getD_eq_getElem?_getD, List.getElem?_eq_getElem hord, Option.getD_some]
  by_cases hzero : ord = 0
  · subst hzero
    rw [if_pos rfl, h.getElem_zero h.length_pos]
    cases v with
    | bot => exact ⟨iff_of_true le_rfl le_rfl, iff_of_true le_rfl le_rfl⟩
    | coe text =>
        have htext : text ≠ [] := fun heq => hv (congrArg _ heq)
        apply valueOrder_sign_pos _ (WithBot.bot_lt_coe text)
        have hpos := countP_pos h.nil_mem text
        change 0 < if place index.lookup text - ((0 : Nat) : Int) ≠ 0 then place index.lookup text - ((0 : Nat) : Int)
          else WString.compare text []
        rw [place, if_neg htext]
        split
        · omega
        · cases text with
          | nil => exact absurd rfl htext
          | cons c text => exact Int.one_pos
  · rw [if_neg hzero]
    split
    · rename_i hne
      rcases lt_or_gt_of_ne hne with hlt | hgt
      · apply valueOrder_sign_neg hlt
        cases v with
        | bot => exact WithBot.bot_lt_coe _
        | coe text =>
            have htext : text ≠ [] := fun heq => hv (congrArg _ heq)
            rw [WithBot.coe_lt_coe]
            by_contra hle
            have hcount := succ_le_countP h.sorted hord (not_lt.mp hle)
            change place index.lookup text - ord < 0 at hlt
            rw [place, if_neg htext] at hlt
            omega
      · apply valueOrder_sign_pos hgt
        cases v with
        | bot =>
            change 0 < place index.lookup [] - ord at hgt
            rw [place, if_pos rfl] at hgt
            omega
        | coe text =>
            have htext : text ≠ [] := fun heq => hv (congrArg _ heq)
            rw [WithBot.coe_lt_coe]
            by_contra hle
            have hcount := countP_le_of_lt (l := index.lookup) (m := ord + 1) fun i hi hlt =>
              (not_lt.mp hle).trans_lt (h.getElem_lt (by omega) hlt hi)
            change 0 < place index.lookup text - ord at hgt
            rw [place, if_neg htext] at hgt
            omega
    · rename_i heq
      cases v with
      | bot =>
          change ¬ (0 - (ord : Int) ≠ 0) at heq
          omega
      | coe text =>
          exact ⟨(WString.compare_nonpos_iff _ _).trans WithBot.coe_le_coe.symm,
            (WString.compare_nonneg_iff _ _).trans WithBot.coe_le_coe.symm⟩

/-! ### Runs -/

/-- The current reader, the values of the documents in the slots, and the slot that is the bottom. -/
structure Documents where
  current : Option StringIndex
  slots : Nat → Option (WithBot WString)
  bottom : Option Nat

variable {sortPos : Nat} {reversed : Bool} {state : State} {docs : Documents} {slot : Nat}

/-- What collectors may have done, where the documents copied have such values: a slot that is copied to is no
longer the bottom. -/
inductive Reaches (sortPos : Nat) (reversed : Bool) (Copied : WithBot WString → Prop) : State → Documents → Prop
  | new : Reaches sortPos reversed Copied new ⟨none, fun _ => none, none⟩
  | setNextReader {state : State} {docs : Documents} (h : Reaches sortPos reversed Copied state docs)
      {index : StringIndex} (hindex : index.Valid) :
      Reaches sortPos reversed Copied (setNextReader sortPos reversed state index) { docs with current := some index }
  | copy {state : State} {docs : Documents} (h : Reaches sortPos reversed Copied state docs) {index : StringIndex}
      (hindex : docs.current = some index) (slot doc : Nat) (hdoc : doc < index.order.length)
      (hcopied : Copied (index.valueOf doc)) :
      Reaches sortPos reversed Copied (copy state slot doc)
        { docs with
          slots := Function.update docs.slots slot (some (index.valueOf doc))
          bottom := if docs.bottom = some slot then none else docs.bottom }
  | setBottom {state : State} {docs : Documents} (h : Reaches sortPos reversed Copied state docs) {slot : Nat}
      (hslot : (docs.slots slot).isSome = true) :
      Reaches sortPos reversed Copied (setBottom sortPos reversed state slot) { docs with bottom := some slot }

/-- Slots, and the bottom and a document, are compared as the values of the documents are. -/
structure Compares (state : State) (docs : Documents) : Prop where
  compare : ∀ slot slot' v v', docs.slots slot = some v → docs.slots slot' = some v' →
    valueOrder.Sign (compare state slot slot') v v'
  compareBottom : ∀ index slot v doc, docs.current = some index → docs.bottom = some slot →
    docs.slots slot = some v → doc < index.order.length →
    valueOrder.Sign (compareBottom state doc) v (index.valueOf doc)

/-- The numbers in the slots are places in the lookups of their readers, which are numbered by `lookups`. -/
structure Tracks (state : State) (docs : Documents) (lookups : Int → List WString) : Prop where
  current : ∀ index ∈ docs.current, index.Valid ∧ state.order = index.order ∧ state.lookup = index.lookup ∧
    lookups state.currentReaderGen = index.lookup
  notStarted : docs.current = none → (∀ slot, docs.slots slot = none) ∧ state.bottomSlot = none
  nil_mem : ∀ gen, [] ∈ lookups gen
  readerGen : ∀ slot v, docs.slots slot = some v → state.readerGen slot ≤ state.currentReaderGen
  value : ∀ slot v, docs.slots slot = some v → v ≠ ↑([] : WString) ∧ state.values slot = textOf v
  ord : ∀ slot v, docs.slots slot = some v → state.ords slot = place (lookups (state.readerGen slot)) (textOf v)
  bottomSlot : ∀ slot, state.bottomSlot = some slot → (docs.slots slot).isSome = true
  bottom : ∀ slot v, docs.bottom = some slot → docs.slots slot = some v →
    state.bottomSlot = some slot ∧ state.bottomOrd = place state.lookup (textOf v) ∧ state.bottomValue = textOf v

theorem Tracks.compares {lookups : Int → List WString} (h : Tracks state docs lookups) : Compares state docs where
  compare slot slot' v v' hslot hslot' := by
    obtain ⟨hv, hvalue⟩ := h.value slot v hslot
    obtain ⟨hv', hvalue'⟩ := h.value slot' v' hslot'
    have htext := textOf_le_textOf hv v'
    have htext' := textOf_le_textOf hv' v
    unfold StringOrdValComparator.compare
    dsimp only
    split
    · rename_i hords
      obtain ⟨hgen, hne⟩ := hords
      rw [h.ord slot v hslot, h.ord slot' v' hslot', ← hgen] at hne ⊢
      rcases lt_or_gt_of_ne hne with hlt | hgt
      · apply valueOrder_sign_neg hlt
        have hless := lt_of_place_lt (h.nil_mem _) (sub_neg.mp hlt)
        rw [← not_le] at hless ⊢
        exact fun hle => hless (htext'.mpr hle)
      · apply valueOrder_sign_pos hgt
        have hless := lt_of_place_lt (h.nil_mem _) (sub_pos.mp hgt)
        rw [← not_le] at hless ⊢
        exact fun hle => hless (htext.mpr hle)
    · rw [hvalue, hvalue']
      exact sign_compare hv hv'
  compareBottom index slot v doc hcurrent hbottom hslot _ := by
    obtain ⟨hvalid, horder, hlookup, -⟩ := h.current index hcurrent
    obtain ⟨-, hord, hvalue⟩ := h.bottom slot v hbottom hslot
    unfold StringOrdValComparator.compareBottom
    dsimp only
    rw [hord, hvalue, horder, hlookup]
    exact sign_place hvalid (h.value slot v hslot).1 doc

theorem convert_eq (state : State) {index : StringIndex} (hvalid : index.Valid) (hlookup : state.lookup = index.lookup)
    (hslot : state.bottomSlot = some slot) :
    convert sortPos reversed state slot =
      { state with
        readerGen := Function.update state.readerGen slot state.currentReaderGen
        ords := Function.update state.ords slot (place index.lookup (state.values slot)) } := by
  unfold convert
  dsimp only
  split
  · rename_i hempty
    rw [place, if_pos hempty]
  · rename_i hempty
    have hfull : ¬ (sortPos = 0 ∧ state.bottomSlot ≠ none ∧ state.bottomSlot ≠ some slot) :=
      fun hcond => hcond.2.2 hslot
    rw [if_neg hfull, hlookup, binarySearch_eq hvalid hempty]

variable {lookups : Int → List WString}

theorem tracks_new : Tracks new ⟨none, fun _ => none, none⟩ fun _ => [[]] where
  current _ hmem := absurd hmem (Option.not_mem_none _)
  notStarted _ := ⟨fun _ => rfl, rfl⟩
  nil_mem _ := List.mem_singleton_self _
  readerGen _ _ hslot := absurd hslot.symm (Option.some_ne_none _)
  value _ _ hslot := absurd hslot.symm (Option.some_ne_none _)
  ord _ _ hslot := absurd hslot.symm (Option.some_ne_none _)
  bottomSlot _ hslot := absurd hslot.symm (Option.some_ne_none _)
  bottom _ _ hslot := absurd hslot.symm (Option.some_ne_none _)

theorem Tracks.nextReader (h : Tracks state docs lookups) (hindex : index.Valid) :
    Tracks { state with currentReaderGen := state.currentReaderGen + 1, order := index.order, lookup := index.lookup }
      ⟨some index, docs.slots, none⟩ (Function.update lookups (state.currentReaderGen + 1) index.lookup) where
  current index' hmem := by
    rw [Option.mem_some_iff] at hmem
    subst hmem
    exact ⟨hindex, rfl, rfl, Function.update_self _ _ _⟩
  notStarted hnone := absurd hnone (Option.some_ne_none _)
  nil_mem gen := by
    by_cases hgen : gen = state.currentReaderGen + 1
    · rw [hgen, Function.update_self]
      exact hindex.nil_mem
    · rw [Function.update_of_ne hgen]
      exact h.nil_mem gen
  readerGen slot v hslot := by
    have hle := h.readerGen slot v hslot
    dsimp only
    omega
  value := h.value
  ord slot v hslot := by
    have hle := h.readerGen slot v hslot
    dsimp only
    rw [Function.update_of_ne (by omega)]
    exact h.ord slot v hslot
  bottomSlot := h.bottomSlot
  bottom _ _ hbottom := absurd hbottom.symm (Option.some_ne_none _)

theorem Tracks.converted (h : Tracks state docs lookups) (hcurrent : docs.current = some index) (slot : Nat) :
    Tracks
      { state with
        readerGen := Function.update state.readerGen slot state.currentReaderGen
        ords := Function.update state.ords slot (place index.lookup (state.values slot)) }
      { docs with bottom := none } lookups where
  current := h.current
  notStarted := h.notStarted
  nil_mem := h.nil_mem
  readerGen slot' v hslot' := by
    dsimp only
    by_cases heq : slot' = slot
    · rw [heq, Function.update_self]
    · rw [Function.update_of_ne heq]
      exact h.readerGen slot' v hslot'
  value := h.value
  ord slot' v hslot' := by
    dsimp only
    by_cases heq : slot' = slot
    · rw [← heq, Function.update_self, Function.update_self, (h.value slot' v hslot').2,
        (h.current index hcurrent).2.2.2]
    · rw [Function.update_of_ne heq, Function.update_of_ne heq]
      exact h.ord slot' v hslot'
  bottomSlot := h.bottomSlot
  bottom _ _ hbottom := absurd hbottom.symm (Option.some_ne_none _)

theorem Tracks.setNextReader (h : Tracks state docs lookups) (hindex : index.Valid) :
    ∃ lookups', Tracks (setNextReader sortPos reversed state index) { docs with current := some index } lookups' := by
  have hnext := h.nextReader hindex
  refine ⟨Function.update lookups (state.currentReaderGen + 1) index.lookup, ?_⟩
  unfold StringOrdValComparator.setNextReader
  dsimp only
  split
  · rename_i hnone
    refine { hnext with bottom := fun slot v hbottom hslot => ?_ }
    have hsome := (h.bottom slot v hbottom hslot).1
    rw [hnone] at hsome
    exact absurd hsome.symm (Option.some_ne_none _)
  · rename_i bottomSlot hsome
    rw [convert_eq { state with
      currentReaderGen := state.currentReaderGen + 1, order := index.order, lookup := index.lookup } hindex rfl hsome]
    refine { hnext.converted rfl bottomSlot with bottom := fun slot v hbottom hslot => ?_ }
    obtain ⟨hslot', -, hvalue⟩ := h.bottom slot v hbottom hslot
    rw [hsome, Option.some.injEq] at hslot'
    subst hslot'
    refine ⟨hsome, ?_, hvalue⟩
    dsimp only
    rw [Function.update_self, (h.value bottomSlot v hslot).2]

theorem copied_eq (hvalid : index.Valid) (hvalue : index.valueOf doc ≠ ↑([] : WString)) :
    index.lookup.getD (index.order.getD doc 0) [] = textOf (index.valueOf doc) ∧
      ((index.order.getD doc 0 : Nat) : Int) = place index.lookup (textOf (index.valueOf doc)) := by
  have hord := hvalid.order_lt doc
  unfold StringIndex.valueOf at hvalue ⊢
  generalize index.order.getD doc 0 = ord at hord hvalue ⊢
  rw [List.getD_eq_getElem?_getD, List.getElem?_eq_getElem hord, Option.getD_some] at hvalue ⊢
  by_cases hzero : ord = 0
  · subst hzero
    rw [if_pos rfl, hvalid.getElem_zero hvalid.length_pos]
    exact ⟨rfl, rfl⟩
  · rw [if_neg hzero] at hvalue ⊢
    have hempty : index.lookup[ord] ≠ [] := fun heq => hvalue (congrArg _ heq)
    exact ⟨rfl, (place_getElem hvalid hord hempty).symm⟩

theorem Tracks.copy (h : Tracks state docs lookups) (hcurrent : docs.current = some index) (slot doc : Nat)
    (hvalue : index.valueOf doc ≠ ↑([] : WString)) :
    Tracks (copy state slot doc)
      { docs with
        slots := Function.update docs.slots slot (some (index.valueOf doc))
        bottom := if docs.bottom = some slot then none else docs.bottom } lookups := by
  obtain ⟨hvalid, horder, hlookup, hlookups⟩ := h.current index hcurrent
  obtain ⟨htext, hord⟩ := copied_eq hvalid hvalue
  rw [← horder, ← hlookup] at htext
  rw [← horder] at hord
  unfold StringOrdValComparator.copy
  refine ⟨?_, fun hnone => ?_, h.nil_mem, fun slot' v hslot' => ?_, fun slot' v hslot' => ?_,
    fun slot' v hslot' => ?_, fun slot' hslot' => ?_, fun slot' v hbottom hslot' => ?_⟩
  · exact h.current
  · rw [hcurrent] at hnone
    exact absurd hnone (Option.some_ne_none _)
  all_goals dsimp only at *
  all_goals by_cases heq : slot' = slot
  · rw [heq, Function.update_self]
  · rw [Function.update_of_ne heq] at hslot' ⊢
    exact h.readerGen slot' v hslot'
  · subst heq
    rw [Function.update_self, Option.some.injEq] at hslot'
    rw [Function.update_self, ← hslot', htext]
    exact ⟨hvalue, rfl⟩
  · rw [Function.update_of_ne heq] at hslot' ⊢
    exact h.value slot' v hslot'
  · subst heq
    rw [Function.update_self, Option.some.injEq] at hslot'
    rw [Function.update_self, Function.update_self, ← hslot', hlookups, hord]
  · rw [Function.update_of_ne heq] at hslot' ⊢
    rw [Function.update_of_ne heq]
    exact h.ord slot' v hslot'
  · rw [heq, Function.update_self]
    rfl
  · rw [Function.update_of_ne heq]
    exact h.bottomSlot slot' hslot'
  · subst heq
    split at hbottom
    · cases hbottom
    · rename_i hne
      exact absurd hbottom hne
  · rw [Function.update_of_ne heq] at hslot'
    split at hbottom
    · cases hbottom
    · exact h.bottom slot' v hbottom hslot'

theorem Tracks.setBottom (h : Tracks state docs lookups) (hslot : (docs.slots slot).isSome = true) :
    Tracks (setBottom sortPos reversed state slot) { docs with bottom := some slot } lookups := by
  obtain ⟨v, hv⟩ := Option.isSome_iff_exists.mp hslot
  obtain ⟨index, hcurrent⟩ : ∃ index, docs.current = some index := by
    rw [← Option.ne_none_iff_exists']
    intro hnone
    have hslots := (h.notStarted hnone).1 slot
    rw [hv] at hslots
    cases hslots
  obtain ⟨hvalid, -, hlookup, hlookups⟩ := h.current index hcurrent
  have hfirst : Tracks { state with bottomSlot := some slot } { docs with bottom := none } lookups :=
    { h with
      notStarted := fun hnone => by
        rw [hcurrent] at hnone
        cases hnone
      bottomSlot := fun slot' hslot' => by
        rw [Option.some.injEq] at hslot'
        exact hslot' ▸ hslot
      bottom := fun _ _ hbottom => by cases hbottom }
  unfold StringOrdValComparator.setBottom
  dsimp only
  split
  · rename_i hgen
    rw [convert_eq { state with bottomSlot := some slot } hvalid hlookup rfl]
    refine { hfirst.converted hcurrent slot with bottom := fun slot' v' hbottom hslot' => ?_ }
    rw [Option.some.injEq] at hbottom
    subst hbottom
    dsimp only at hslot' ⊢
    obtain ⟨-, hvalue⟩ := h.value slot v' hslot'
    rw [Function.update_self, hvalue, hlookup]
    exact ⟨rfl, rfl, rfl⟩
  · rename_i hgen
    rw [ne_eq, not_not] at hgen
    refine { hfirst with bottom := fun slot' v' hbottom hslot' => ?_ }
    rw [Option.some.injEq] at hbottom
    subst hbottom
    dsimp only at hslot' ⊢
    rw [h.ord slot v' hslot', hgen, hlookups, hlookup, (h.value slot v' hslot').2]
    exact ⟨rfl, rfl, rfl⟩

theorem Reaches.tracks (h : Reaches sortPos reversed (· ≠ ↑([] : WString)) state docs) :
    ∃ lookups, Tracks state docs lookups := by
  induction h with
  | new => exact ⟨_, tracks_new⟩
  | setNextReader _ hindex ih =>
      obtain ⟨lookups, htracks⟩ := ih
      exact htracks.setNextReader hindex
  | copy _ hindex slot doc _ hcopied ih =>
      obtain ⟨lookups, htracks⟩ := ih
      exact ⟨lookups, htracks.copy hindex slot doc hcopied⟩
  | setBottom _ hslot ih =>
      obtain ⟨lookups, htracks⟩ := ih
      exact ⟨lookups, htracks.setBottom hslot⟩

end StringOrdValComparator

open StringOrdValComparator

/-- If no document is copied whose value is the empty text, the documents are compared as their values are. -/
theorem ords_compare_as_values {sortPos : Nat} {reversed : Bool} {state : State} {docs : Documents}
    (h : Reaches sortPos reversed (· ≠ ↑([] : WString)) state docs) : Compares state docs := by
  obtain ⟨lookups, htracks⟩ := h.tracks
  exact htracks.compares

/-- A document of an earlier reader, and one without a value. -/
theorem ords_compare_as_values_two_readers :
    Compares
      (copy (setNextReader 0 false (copy (setNextReader 0 false new ⟨[1], [[], [⟨97, by decide⟩]]⟩) 0 0) ⟨[0], [[]]⟩)
        1 0)
      ⟨some ⟨[0], [[]]⟩,
        Function.update (Function.update (fun _ => none) 0 (some ↑([⟨97, by decide⟩] : WString))) 1 (some ⊥), none⟩ := by
  have hfirst : StringIndex.Valid ⟨[1], [[], [⟨97, by decide⟩]]⟩ :=
    ⟨⟨_, rfl, List.pairwise_singleton _ _⟩, by decide⟩
  have hsecond : StringIndex.Valid ⟨[0], [[]]⟩ := ⟨⟨_, rfl, List.Pairwise.nil⟩, by decide⟩
  have hcopied := ((@Reaches.new 0 false (· ≠ ↑([] : WString))).setNextReader hfirst).copy rfl 0 0 (by decide) (by decide)
  exact ords_compare_as_values ((hcopied.setNextReader hsecond).copy rfl 1 0 (by decide) (by decide))

/-- A document whose value is the empty text, and one of another reader that has no value. -/
theorem empty_text_compares_as_missing :
    ¬ ∀ state docs, Reaches 0 false (fun _ => True) state docs → Compares state docs := by
  intro h
  have hfirst : StringIndex.Valid ⟨[1], [[], []]⟩ := ⟨⟨_, rfl, List.pairwise_singleton _ _⟩, by decide⟩
  have hsecond : StringIndex.Valid ⟨[0], [[]]⟩ := ⟨⟨_, rfl, List.Pairwise.nil⟩, by decide⟩
  have hcopied := ((@Reaches.new 0 false fun _ => True).setNextReader hfirst).copy rfl 0 0 (by decide) trivial
  have hrun := (hcopied.setNextReader hsecond).copy rfl 1 0 (by decide) trivial
  have hsign := (h _ _ hrun).compare 0 1 ↑([] : WString) ⊥ rfl rfl
  exact absurd (hsign.le.mp (by decide)) (WithBot.not_coe_le_bot _)

end LucenePlusPlus
