import LucenePlusPlus.PriorityQueue
import LucenePlusPlus.LexRanking

/-!
`FieldComparator`: documents are compared in numbered slots that they are copied to, a reader at a time.
`FieldValueHitQueue` is a queue of hits, of which the last in the order of its comparators comes first.
-/

namespace LucenePlusPlus
open Ranking

/-- The documents `docBase` to `docBase + maxDoc - 1` of an index. -/
structure IndexSegment (ρ : Type) where
  reader : ρ
  docBase : Nat
  maxDoc : Nat

/-- A kind of comparator over readers `ρ`, with the values `V` of its slots. -/
structure FieldComparator (ρ V : Type) where
  State : Type
  new : Nat → State
  compare : State → Nat → Nat → Int32
  setBottom : State → Nat → State
  compareBottom : State → Nat → Int32
  copy : State → Nat → Nat → State
  setNextReader : State → ρ → Nat → State
  value : State → Nat → V

/-- What its documentation says of a comparator for the documents of these segments. In each state there are the
segment of the current reader, the documents copied to the slots, and the slot that is the bottom: copying to this
slot leaves none. -/
structure FieldComparator.Implements {ρ V : Type} (comparator : FieldComparator ρ V) (segments : Set (IndexSegment ρ))
    (order : Criterion Nat) (valueOf : Nat → V)
    (Holds : Nat → comparator.State → Option (IndexSegment ρ) → (Nat → Option Nat) → Option Nat → Prop) : Prop where
  new : ∀ numHits, Holds numHits (comparator.new numHits) none (fun _ => none) none
  setNextReader : ∀ numHits state current slots bottom, ∀ segment ∈ segments,
    Holds numHits state current slots bottom →
      Holds numHits (comparator.setNextReader state segment.reader segment.docBase) (some segment) slots bottom
  copy : ∀ numHits state segment slots bottom slot doc, Holds numHits state (some segment) slots bottom →
    (bottom = none ∨ bottom = some slot) → slot < numHits → doc < segment.maxDoc →
      Holds numHits (comparator.copy state slot doc) (some segment)
        (Function.update slots slot (some (segment.docBase + doc))) none
  setBottom : ∀ numHits state segment slots slot doc, Holds numHits state (some segment) slots none →
    slots slot = some doc → Holds numHits (comparator.setBottom state slot) (some segment) slots (some slot)
  compare : ∀ numHits state current slots bottom slot₁ slot₂ doc₁ doc₂, Holds numHits state current slots bottom →
    slots slot₁ = some doc₁ → slots slot₂ = some doc₂ → order.Sign (comparator.compare state slot₁ slot₂).toInt doc₁ doc₂
  compareBottom : ∀ numHits state segment slots slot bottomDoc doc,
    Holds numHits state (some segment) slots (some slot) → slots slot = some bottomDoc → doc < segment.maxDoc →
      order.Sign (comparator.compareBottom state doc).toInt bottomDoc (segment.docBase + doc)
  value : ∀ numHits state current slots bottom slot doc, Holds numHits state current slots bottom →
    slots slot = some doc → comparator.value state slot = valueOf doc

/-- What `getComparator` makes a comparator of. -/
structure SortField (ρ V : Type) where
  comparator : FieldComparator ρ V
  reverse : Bool

/-- A comparator of a queue, with its state and its `reverseMul`. -/
structure SortingComparator (ρ V : Type) where
  comparator : FieldComparator ρ V
  state : comparator.State
  reverseMul : Int32

namespace SortingComparator
variable {ρ V : Type} (c : SortingComparator ρ V)

def new (numHits : Nat) (field : SortField ρ V) : SortingComparator ρ V :=
  ⟨field.comparator, field.comparator.new numHits, if field.reverse then -1 else 1⟩

/-- times `reverseMul` -/
def compare (slot₁ slot₂ : Nat) : Int := (c.reverseMul * c.comparator.compare c.state slot₁ slot₂).toInt

/-- times `reverseMul` -/
def compareBottom (doc : Nat) : Int := (c.reverseMul * c.comparator.compareBottom c.state doc).toInt

def setBottom (slot : Nat) : SortingComparator ρ V := { c with state := c.comparator.setBottom c.state slot }

def copy (slot doc : Nat) : SortingComparator ρ V := { c with state := c.comparator.copy c.state slot doc }

def setNextReader (reader : ρ) (docBase : Nat) : SortingComparator ρ V :=
  { c with state := c.comparator.setNextReader c.state reader docBase }

def value (slot : Nat) : V := c.comparator.value c.state slot

end SortingComparator

/-- A score that is not a number is none. -/
structure FieldValueHitQueueEntry (S : Type) where
  slot : Nat
  doc : Nat
  score : Option S

section Queue
variable {ρ V S : Type}

/-- There is a comparator. -/
def OneComparatorFieldValueHitQueue.lessThan (comparators : List (SortingComparator ρ V))
    (firstEntry secondEntry : FieldValueHitQueueEntry S) : Bool :=
  match comparators with
  | [] => false
  | comparator :: _ =>
      let c := comparator.compare firstEntry.slot secondEntry.slot
      if c ≠ 0 then 0 < c else secondEntry.doc < firstEntry.doc

def MultiComparatorsFieldValueHitQueue.lessThan (comparators : List (SortingComparator ρ V))
    (firstEntry secondEntry : FieldValueHitQueueEntry S) : Bool :=
  match comparators with
  | [] => secondEntry.doc < firstEntry.doc
  | comparator :: rest =>
      let c := comparator.compare firstEntry.slot secondEntry.slot
      if c ≠ 0 then 0 < c else MultiComparatorsFieldValueHitQueue.lessThan rest firstEntry secondEntry

/-- The queue is the one that `create` chooses for so many fields. -/
def FieldValueHitQueue.lessThan (comparators : List (SortingComparator ρ V)) :
    FieldValueHitQueueEntry S → FieldValueHitQueueEntry S → Bool :=
  if comparators.length = 1 then OneComparatorFieldValueHitQueue.lessThan comparators
  else MultiComparatorsFieldValueHitQueue.lessThan comparators

theorem FieldValueHitQueue.lessThan_eq {comparators : List (SortingComparator ρ V)}
    (firstEntry secondEntry : FieldValueHitQueueEntry S) :
    FieldValueHitQueue.lessThan comparators firstEntry secondEntry =
      MultiComparatorsFieldValueHitQueue.lessThan comparators firstEntry secondEntry := by
  unfold FieldValueHitQueue.lessThan
  split
  · rename_i hone
    obtain ⟨comparator, rfl⟩ := List.length_eq_one_iff.mp hone
    rfl
  · rfl

/-- A hit with the values it was sorted by. -/
structure FieldDoc (V S : Type) where
  doc : Nat
  score : Option S
  fields : Option (List V)
  deriving DecidableEq

def FieldValueHitQueue.fillFields (comparators : List (SortingComparator ρ V)) (entry : FieldValueHitQueueEntry S) :
    FieldDoc V S :=
  ⟨entry.doc, entry.score, some (comparators.map fun comparator => comparator.value entry.slot)⟩

end Queue

/-! ### Fields that order the documents -/

/-- A field whose comparator implements an order on the documents of these segments. -/
structure OrderedField (V : Type) {ρ : Type} (segments : Set (IndexSegment ρ)) where
  field : SortField ρ V
  documentOrder : Criterion Nat
  valueOf : Nat → V
  Holds : Nat → field.comparator.State → Option (IndexSegment ρ) → (Nat → Option Nat) → Option Nat → Prop
  implements : field.comparator.Implements segments documentOrder valueOf Holds

variable {ρ V S : Type} {segments : Set (IndexSegment ρ)}

/-- The order of the documents, reversed as the field says. -/
def OrderedField.order (f : OrderedField V segments) : Criterion Nat :=
  if f.field.reverse then f.documentOrder.flip else f.documentOrder

theorem toInt_neg_one_mul {c : Int32} (h : c ≠ Int32.minValue) : (-1 * c).toInt = -1 * c.toInt := by
  have hne : c.toInt ≠ Int32.minValue.toInt := fun heq => h (Int32.toInt_inj.mp heq)
  have hge := c.le_toInt
  have hlt := c.toInt_lt
  rw [Int32.toInt_minValue] at hne
  rw [Int32.toInt_mul, show (-1 : Int32).toInt = -1 from rfl, Int.bmod_eq_of_le (by omega) (by omega)]

theorem OrderedField.sign (f : OrderedField V segments) {c : Int32} {a b : Nat} (h : f.documentOrder.Sign c.toInt a b)
    (hc : f.field.reverse = true → c ≠ Int32.minValue) :
    f.order.Sign ((if f.field.reverse then -1 else 1) * c).toInt a b := by
  unfold OrderedField.order
  split
  · rename_i hreverse
    rw [toInt_neg_one_mul (hc hreverse)]
    exact h.neg
  · rw [Int32.one_mul]
    exact h

/-- A reversed field's comparator does not answer `INT_MIN` of these documents, in whatever slots they are. -/
structure OrderedField.Reversible (f : OrderedField V segments) (a b : Nat) : Prop where
  compare : f.field.reverse = true → ∀ numHits state current slots bottom slot₁ slot₂,
    f.Holds numHits state current slots bottom → slots slot₁ = some a → slots slot₂ = some b →
      f.field.comparator.compare state slot₁ slot₂ ≠ Int32.minValue
  compareBottom : f.field.reverse = true → ∀ numHits state segment slots slot doc,
    f.Holds numHits state (some segment) slots (some slot) → slots slot = some a → segment.docBase + doc = b →
      doc < segment.maxDoc → f.field.comparator.compareBottom state doc ≠ Int32.minValue

/-- So it is with each field that the documents are compared by: the fields before it leave them equal. -/
def Reversible : List (OrderedField V segments) → Nat → Nat → Prop
  | [], _, _ => True
  | f :: fs, a, b => f.Reversible a b ∧ (f.documentOrder.le a b → f.documentOrder.le b a → Reversible fs a b)

/-- A comparator of the field, for so many hits, with these documents in its slots. -/
def Follows (numHits : Nat) (current : Option (IndexSegment ρ)) (slots : Nat → Option Nat) (bottom : Option Nat)
    (f : OrderedField V segments) (c : SortingComparator ρ V) : Prop :=
  ∃ state, c = ⟨f.field.comparator, state, if f.field.reverse then -1 else 1⟩ ∧ f.Holds numHits state current slots bottom

namespace Follows
variable {numHits : Nat} {current : Option (IndexSegment ρ)} {segment : IndexSegment ρ} {slots : Nat → Option Nat}
  {bottom : Option Nat} {f : OrderedField V segments} {c : SortingComparator ρ V} {slot doc : Nat}

theorem new (numHits : Nat) (f : OrderedField V segments) :
    Follows numHits none (fun _ => none) none f (.new numHits f.field) :=
  ⟨_, rfl, f.implements.new numHits⟩

theorem setNextReader (h : Follows numHits current slots bottom f c) (hmem : segment ∈ segments) :
    Follows numHits (some segment) slots bottom f (c.setNextReader segment.reader segment.docBase) := by
  obtain ⟨state, rfl, hstate⟩ := h
  exact ⟨_, rfl, f.implements.setNextReader _ _ _ _ _ _ hmem hstate⟩

theorem copy (h : Follows numHits (some segment) slots bottom f c) (hbottom : bottom = none ∨ bottom = some slot)
    (hslot : slot < numHits) (hdoc : doc < segment.maxDoc) :
    Follows numHits (some segment) (Function.update slots slot (some (segment.docBase + doc))) none f
      (c.copy slot doc) := by
  obtain ⟨state, rfl, hstate⟩ := h
  exact ⟨_, rfl, f.implements.copy _ _ _ _ _ _ _ hstate hbottom hslot hdoc⟩

theorem setBottom (h : Follows numHits (some segment) slots none f c) (hslot : slots slot = some doc) :
    Follows numHits (some segment) slots (some slot) f (c.setBottom slot) := by
  obtain ⟨state, rfl, hstate⟩ := h
  exact ⟨_, rfl, f.implements.setBottom _ _ _ _ _ _ hstate hslot⟩

theorem compare (h : Follows numHits current slots bottom f c) {slot₁ slot₂ doc₁ doc₂ : Nat}
    (h₁ : slots slot₁ = some doc₁) (h₂ : slots slot₂ = some doc₂) (hreversible : f.Reversible doc₁ doc₂) :
    f.order.Sign (c.compare slot₁ slot₂) doc₁ doc₂ := by
  obtain ⟨state, rfl, hstate⟩ := h
  exact f.sign (f.implements.compare _ _ _ _ _ _ _ _ _ hstate h₁ h₂) fun hreverse =>
    hreversible.compare hreverse _ _ _ _ _ _ _ hstate h₁ h₂

theorem compareBottom (h : Follows numHits (some segment) slots (some slot) f c) {bottomDoc : Nat}
    (hslot : slots slot = some bottomDoc) (hdoc : doc < segment.maxDoc)
    (hreversible : f.Reversible bottomDoc (segment.docBase + doc)) :
    f.order.Sign (c.compareBottom doc) bottomDoc (segment.docBase + doc) := by
  obtain ⟨state, rfl, hstate⟩ := h
  exact f.sign (f.implements.compareBottom _ _ _ _ _ _ _ hstate hslot hdoc) fun hreverse =>
    hreversible.compareBottom hreverse _ _ _ _ _ _ hstate hslot rfl hdoc

theorem value (h : Follows numHits current slots bottom f c) (hslot : slots slot = some doc) :
    c.value slot = f.valueOf doc := by
  obtain ⟨state, rfl, hstate⟩ := h
  exact f.implements.value _ _ _ _ _ _ _ hstate hslot

end Follows

/-- The order of the documents by all fields, and by their numbers where the fields leave them equal. -/
abbrev Before (fields : List (OrderedField V segments)) : Nat → Nat → Prop := LexLE (fields.map OrderedField.order)

theorem Reversible.tail {f : OrderedField V segments} {fs : List (OrderedField V segments)} {c : Int} {a b : Nat}
    (h : Reversible (f :: fs) a b) (hsign : f.order.Sign c a b) (hc : c = 0) : Reversible fs a b := by
  have hle := hsign.le.mp hc.le
  have hge := hsign.ge.mp hc.ge
  rw [OrderedField.order] at hle hge
  by_cases hreverse : f.field.reverse = true
  · rw [if_pos hreverse] at hle hge
    exact h.2 hge hle
  · rw [if_neg hreverse] at hle hge
    exact h.2 hle hge

theorem before_cons {f : OrderedField V segments} {fs : List (OrderedField V segments)} {c : Int} {a b : Nat}
    (h : f.order.Sign c a b) : Before (f :: fs) a b ↔ c < 0 ∨ c = 0 ∧ Before fs a b :=
  lexLE_cons h

theorem before_cons' {f : OrderedField V segments} {fs : List (OrderedField V segments)} {c : Int} {a b : Nat}
    (h : f.order.Sign c a b) : Before (f :: fs) b a ↔ 0 < c ∨ c = 0 ∧ Before fs b a :=
  lexLE_cons' h

variable {fields : List (OrderedField V segments)} {comparators : List (SortingComparator ρ V)} {numHits : Nat}
  {current : Option (IndexSegment ρ)} {slots : Nat → Option Nat} {bottom : Option Nat}
  {firstEntry secondEntry : FieldValueHitQueueEntry S}

theorem MultiComparatorsFieldValueHitQueue.lessThan_iff
    (h : List.Forall₂ (Follows numHits current slots bottom) fields comparators)
    (hfirst : slots firstEntry.slot = some firstEntry.doc) (hsecond : slots secondEntry.slot = some secondEntry.doc)
    (hreversible : Reversible fields firstEntry.doc secondEntry.doc) :
    MultiComparatorsFieldValueHitQueue.lessThan comparators firstEntry secondEntry = false ↔
      Before fields firstEntry.doc secondEntry.doc := by
  induction h with
  | nil =>
      unfold MultiComparatorsFieldValueHitQueue.lessThan
      rw [decide_eq_false_iff_not, not_lt]
      rfl
  | cons hc _ ih =>
      have hsign := hc.compare hfirst hsecond hreversible.1
      rw [before_cons hsign, MultiComparatorsFieldValueHitQueue.lessThan]
      split
      · rename_i hne
        rw [decide_eq_false_iff_not]
        omega
      · rename_i heq
        rw [not_not] at heq
        rw [ih (hreversible.tail hsign heq)]
        simp [heq]

/-- The arrays of a `NumericComparator`. -/
structure NumericComparator.State (V : Type) where
  values : Nat → V
  currentReaderValues : Nat → V
  bottom : V

/-- `getValues` gives the values of the field in a reader, and `answer` compares two of them. -/
def NumericComparator {V : Type} (getValues : ρ → Nat → V) (zero : V) (answer : V → V → Int32) :
    FieldComparator ρ V where
  State := NumericComparator.State V
  new _ := ⟨fun _ => zero, fun _ => zero, zero⟩
  compare state slot₁ slot₂ := answer (state.values slot₁) (state.values slot₂)
  setBottom state slot := { state with bottom := state.values slot }
  compareBottom state doc := answer state.bottom (state.currentReaderValues doc)
  copy state slot doc := { state with values := Function.update state.values slot (state.currentReaderValues doc) }
  setNextReader state reader _ := { state with currentReaderValues := getValues reader }
  value state slot := state.values slot

def ByteComparator (getBytes : ρ → Nat → UInt8) : FieldComparator ρ UInt8 :=
  NumericComparator getBytes 0 fun value value' => .ofInt (value.toNat - value'.toNat)

/-- The values of the documents in the slots, and of the bottom. -/
structure NumericComparator.Holds {V : Type} (valueOf : Nat → V) (state : NumericComparator.State V)
    (current : Option (IndexSegment ρ)) (slots : Nat → Option Nat) (bottom : Option Nat) : Prop where
  slots : ∀ slot doc, slots slot = some doc → state.values slot = valueOf doc
  current : ∀ segment ∈ current, ∀ doc < segment.maxDoc,
    state.currentReaderValues doc = valueOf (segment.docBase + doc)
  bottom : ∀ slot ∈ bottom, state.bottom = state.values slot

theorem NumericComparator.implements {V : Type} (getValues : ρ → Nat → V) (zero : V) {answer : V → V → Int32}
    {valueOf : Nat → V} {order : Criterion Nat}
    (hsign : ∀ doc doc', order.Sign (answer (valueOf doc) (valueOf doc')).toInt doc doc') :
    (NumericComparator getValues zero answer).Implements
      {segment | ∀ doc < segment.maxDoc, getValues segment.reader doc = valueOf (segment.docBase + doc)}
      order valueOf fun _ => NumericComparator.Holds valueOf where
  new _ := ⟨fun _ _ h => absurd h (Option.some_ne_none _).symm, fun _ h => absurd h (Option.not_mem_none _),
    fun _ h => absurd h (Option.not_mem_none _)⟩
  setNextReader _ _ _ _ _ segment hmem h := by
    refine ⟨h.slots, fun segment' hmem' => ?_, h.bottom⟩
    rw [Option.mem_some_iff] at hmem'
    rw [← hmem']
    exact hmem
  copy _ state segment _ _ slot doc h _ _ hdoc := by
    refine ⟨fun slot' doc' h' => ?_, h.current, fun _ hmem => absurd hmem (Option.not_mem_none _)⟩
    by_cases heq : slot' = slot
    · subst heq
      rw [Function.update_self, Option.some.injEq] at h'
      change Function.update state.values slot' _ slot' = _
      rw [Function.update_self, ← h']
      exact h.current segment rfl doc hdoc
    · rw [Function.update_of_ne heq] at h'
      change Function.update state.values slot _ slot' = _
      rw [Function.update_of_ne heq]
      exact h.slots slot' doc' h'
  setBottom _ _ _ _ slot _ h _ := by
    refine ⟨h.slots, h.current, fun slot' hmem => ?_⟩
    rw [Option.mem_some_iff] at hmem
    rw [← hmem]
    rfl
  compare _ _ _ _ _ slot₁ slot₂ doc₁ doc₂ h h₁ h₂ := by
    change order.Sign (answer _ _).toInt _ _
    rw [h.slots slot₁ doc₁ h₁, h.slots slot₂ doc₂ h₂]
    exact hsign doc₁ doc₂
  compareBottom _ _ segment _ slot bottomDoc doc h hslot hdoc := by
    change order.Sign (answer _ _).toInt _ _
    rw [h.bottom slot rfl, h.slots slot bottomDoc hslot, h.current segment rfl doc hdoc]
    exact hsign bottomDoc _
  value _ _ _ _ _ slot doc h hslot := h.slots slot doc hslot

theorem ByteComparator.toInt_answer (value value' : UInt8) :
    (Int32.ofInt (value.toNat - value'.toNat)).toInt = value.toNat - value'.toNat := by
  have hlt := value.toNat_lt
  have hlt' := value'.toNat_lt
  exact Int32.toInt_ofInt_of_le (by omega) (by omega)

theorem ByteComparator.implements (getBytes : ρ → Nat → UInt8) (valueOf : Nat → UInt8) :
    (ByteComparator getBytes).Implements
      {segment | ∀ doc < segment.maxDoc, getBytes segment.reader doc = valueOf (segment.docBase + doc)}
      (.ofKey fun doc => (valueOf doc).toNat) valueOf fun _ => NumericComparator.Holds valueOf := by
  apply NumericComparator.implements
  intro doc doc'
  rw [toInt_answer]
  constructor
  · change _ ↔ (valueOf doc).toNat ≤ (valueOf doc').toNat
    omega
  · change _ ↔ (valueOf doc').toNat ≤ (valueOf doc).toNat
    omega

end LucenePlusPlus
