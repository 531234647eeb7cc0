import Mathlib.Data.List.Nodup
import Mathlib.Data.String.Basic

/-!
`AttributeSource`s that share one map of attributes. Each source keeps the list of the attributes that it captures, from
the first time it needs it until it adds an attribute itself.
-/

namespace LucenePlusPlus
namespace AttributeSource

/-- The classes of the attribute objects: the name of each, whether it can be cast to a class, and its value when it has
been cleared. -/
structure Classes (Ptr V : Type) where
  getClassName : Ptr → String
  isA : Ptr → String → Bool
  isA_getClassName : ∀ p, isA p (getClassName p) = true
  cleared : Ptr → V

/-- A clone of each attribute: its class and its value. -/
abbrev State (V : Type) := List (String × V)

/-- The map is sorted by the names. -/
structure Group (Source Ptr V : Type) where
  attributes : List (String × Ptr)
  currentState : Source → Option (List Ptr)
  value : Ptr → V

inductive Op (Source Ptr V : Type) where
  | addAttribute (source : Source) (className : String) (attrImpl : Ptr)
  /-- `addAttribute` of a class, where `created` is what the factory creates -/
  | addAttributeOf (source : Source) (className : String) (created : Ptr)
  | captureState (source : Source)
  | restoreState (source : Source) (state : Option (State V))
  | clearAttributes (source : Source)
  /-- a value is set in an attribute -/
  | set (attrImpl : Ptr) (v : V)

inductive Answer (V : Type) where
  | done
  | state (state : Option (State V))
  | illegalArgument (message : String)
  /-- a method of a null attribute is called -/
  | undefined

namespace Group
variable {Source Ptr V : Type} (classes : Classes Ptr V)

/-- No source has an attribute yet. -/
def new (value : Ptr → V) : Group Source Ptr V := { attributes := [], currentState := fun _ => none, value }

def getAttribute (w : Group Source Ptr V) (className : String) : Option Ptr :=
  (w.attributes.find? fun entry => entry.1 = className).map Prod.snd

def put (entries : List (String × Ptr)) (className : String) (attrImpl : Ptr) : List (String × Ptr) :=
  if className ∈ entries.map Prod.fst then
    entries.map fun entry => if entry.1 = className then (className, attrImpl) else entry
  else
    entries.takeWhile (fun entry => entry.1 < className) ++
      (className, attrImpl) :: entries.dropWhile fun entry => entry.1 < className

section Methods
variable [DecidableEq Source] [DecidableEq Ptr]

def addAttribute (w : Group Source Ptr V) (source : Source) (className : String) (attrImpl : Ptr) :
    Group Source Ptr V where
  -- invalidate state to force recomputation in captureState()
  currentState := Function.update w.currentState source none
  attributes := put w.attributes className attrImpl
  value := w.value

/-- Whether a class is looked up and found. -/
def hasAttributeOf (w : Group Source Ptr V) (className : String) : Bool :=
  match w.getAttribute className with
  | none => false
  | some p => classes.isA p className

def computeCurrentState (w : Group Source Ptr V) (source : Source) : Group Source Ptr V :=
  { w with currentState := Function.update w.currentState source (some (w.attributes.map Prod.snd)) }

/-- `currentState` is computed when it is null. -/
def withCurrentState (w : Group Source Ptr V) (source : Source) : Group Source Ptr V :=
  match w.currentState source with
  | none => w.computeCurrentState source
  | some _ => w

def clearAttributes (w : Group Source Ptr V) (source : Source) : Group Source Ptr V :=
  if w.attributes = [] then w
  else
    let w := w.withCurrentState source
    { w with value := fun p => if p ∈ w.attributes.map Prod.snd then classes.cleared p else w.value p }

/-- Clones of the attributes of the source's list. -/
def captured (w : Group Source Ptr V) (source : Source) : State V :=
  ((w.currentState source).getD []).map fun p => (classes.getClassName p, w.value p)

def captureState (w : Group Source Ptr V) (source : Source) : Group Source Ptr V × Answer V :=
  if w.attributes = [] then (w, .state none)
  else (w.withCurrentState source, .state (some ((w.withCurrentState source).captured classes source)))

def restoreState (w : Group Source Ptr V) : State V → Group Source Ptr V × Answer V
  | [] => (w, .done)
  | (className, v) :: state =>
      match w.getAttribute className with
      | none => (w, .illegalArgument "State contains an AttributeImpl that is not in this AttributeSource")
      | some p =>
          if classes.isA p className then restoreState { w with value := Function.update w.value p v } state
          else (w, .undefined)

def step (w : Group Source Ptr V) : Op Source Ptr V → Group Source Ptr V × Answer V
  | .addAttribute source className attrImpl => (w.addAttribute source className attrImpl, .done)
  | .addAttributeOf source className created =>
      if w.hasAttributeOf classes className then (w, .done)
      else if classes.isA created className then (w.addAttribute source className created, .done)
      else (w, .illegalArgument ("Could not instantiate implementing class for " ++ className))
  | .captureState source => w.captureState classes source
  | .restoreState _ none => (w, .done)
  | .restoreState _ (some state) => w.restoreState classes state
  | .clearAttributes source => (w.clearAttributes classes source, .done)
  | .set attrImpl v => ({ w with value := Function.update w.value attrImpl v }, .done)

def run (w : Group Source Ptr V) (ops : List (Op Source Ptr V)) : Group Source Ptr V :=
  ops.foldl (fun w op => (w.step classes op).1) w

end Methods

section Map
variable {entries : List (String × Ptr)} {className : String} {attrImpl : Ptr}

theorem map_fst_put :
    (put entries className attrImpl).map Prod.fst =
      if className ∈ entries.map Prod.fst then entries.map Prod.fst
      else (entries.takeWhile fun entry => entry.1 < className).map Prod.fst ++
        className :: (entries.dropWhile fun entry => entry.1 < className).map Prod.fst := by
  rw [put]
  split
  case isTrue =>
    rw [List.map_map]
    apply List.map_congr_left
    intro entry hmem
    rw [Function.comp_apply]
    split
    case isTrue heq => exact heq.symm
    case isFalse => rfl
  case isFalse => rw [List.map_append, List.map_cons]

theorem mem_map_fst_put {name : String} :
    name ∈ (put entries className attrImpl).map Prod.fst ↔ name = className ∨ name ∈ entries.map Prod.fst := by
  rw [map_fst_put]
  split
  case isTrue hmem =>
    constructor
    · exact Or.inr
    · rintro (rfl | h)
      · exact hmem
      · exact h
  case isFalse =>
    rw [List.mem_append, List.mem_cons, or_left_comm, ← List.mem_append, ← List.map_append,
      List.takeWhile_append_dropWhile]

theorem nodup_put (h : (entries.map Prod.fst).Nodup) : ((put entries className attrImpl).map Prod.fst).Nodup := by
  rw [map_fst_put]
  split
  case isTrue => exact h
  case isFalse hnot =>
    rw [List.nodup_middle, ← List.map_append, List.takeWhile_append_dropWhile, List.nodup_cons]
    exact ⟨hnot, h⟩

theorem mem_put {entry : String × Ptr} (h : entry ∈ put entries className attrImpl) :
    entry = (className, attrImpl) ∨ entry ∈ entries := by
  rw [put] at h
  split at h
  case isTrue =>
    obtain ⟨old, hold, rfl⟩ := List.mem_map.mp h
    split
    · exact Or.inl rfl
    · exact Or.inr hold
  case isFalse =>
    rw [List.mem_append, List.mem_cons, or_left_comm, ← List.mem_append, List.takeWhile_append_dropWhile] at h
    exact h

end Map

/-! ### Which captures are complete -/

section Runs
variable [DecidableEq Source] [DecidableEq Ptr] {classes : Classes Ptr V} {w : Group Source Ptr V}
  {marks : Source → Bool} {op : Op Source Ptr V} {ops : List (Op Source Ptr V)}

variable (classes) in
/-- The source that puts an attribute in the map. -/
def adder (w : Group Source Ptr V) : Op Source Ptr V → Option Source
  | .addAttribute source _ _ => some source
  | .addAttributeOf source className created =>
      if w.hasAttributeOf classes className then none
      else if classes.isA created className then some source
      else none
  | _ => none

variable (classes) in
/-- The sources that are marked have a list, and since it was computed another source has added an attribute. -/
def mark (w : Group Source Ptr V) (marks : Source → Bool) (op : Op Source Ptr V) : Source → Bool :=
  match w.adder classes op with
  | none => marks
  | some source => fun other => if other = source then false else marks other || (w.currentState other).isSome

variable (classes) in
/-- An attribute is added under the name of its class, and no source that is marked captures. -/
def Meets (marks : Source → Bool) : Op Source Ptr V → Prop
  | .addAttribute _ className attrImpl => classes.getClassName attrImpl = className
  | .addAttributeOf _ className created => classes.getClassName created = className
  | .captureState source => marks source = false
  | _ => True

variable (classes) in
def Undisturbed (w : Group Source Ptr V) (marks : Source → Bool) : List (Op Source Ptr V) → Prop
  | [] => True
  | op :: ops => Meets classes marks op ∧ Undisturbed (w.step classes op).1 (w.mark classes marks op) ops

variable (classes) in
structure Invariant (w : Group Source Ptr V) (marks : Source → Bool) : Prop where
  named : ∀ entry ∈ w.attributes, classes.getClassName entry.2 = entry.1
  distinct : (w.attributes.map Prod.fst).Nodup
  upToDate : ∀ source, marks source = false → ∀ attrImpls, w.currentState source = some attrImpls →
    attrImpls = w.attributes.map Prod.snd

omit [DecidableEq Source] [DecidableEq Ptr] in
theorem invariant_new (value : Ptr → V) : Invariant classes (new value : Group Source Ptr V) fun _ => false where
  named _ h := by cases h
  distinct := List.nodup_nil
  upToDate _ _ _ h := by cases h

omit [DecidableEq Ptr] in
theorem currentState_addAttribute (w : Group Source Ptr V) (source : Source) (className : String) (attrImpl : Ptr) :
    (w.addAttribute source className attrImpl).currentState = Function.update w.currentState source none := rfl

omit [DecidableEq Ptr] in
theorem currentState_computeCurrentState (w : Group Source Ptr V) (source : Source) :
    (w.computeCurrentState source).currentState =
      Function.update w.currentState source (some (w.attributes.map Prod.snd)) := rfl

namespace Invariant

omit [DecidableEq Ptr] in
theorem addAttribute (h : Invariant classes w marks) {source : Source} {className : String} {attrImpl : Ptr}
    (hname : classes.getClassName attrImpl = className) :
    Invariant classes (w.addAttribute source className attrImpl) fun other =>
      if other = source then false else marks other || (w.currentState other).isSome where
  named entry hmem := by
    rcases mem_put hmem with rfl | hmem
    · exact hname
    · exact h.named entry hmem
  distinct := nodup_put h.distinct
  upToDate other hmark attrImpls hstate := by
    rw [currentState_addAttribute, Function.update_apply] at hstate
    split_ifs at hmark hstate with heq
    rw [hstate, Option.isSome_some, Bool.or_true] at hmark
    cases hmark

omit [DecidableEq Ptr] in
theorem computeCurrentState (h : Invariant classes w marks) (source : Source) :
    Invariant classes (w.computeCurrentState source) marks where
  named := h.named
  distinct := h.distinct
  upToDate other hmark attrImpls hstate := by
    rw [currentState_computeCurrentState, Function.update_apply] at hstate
    split_ifs at hstate with heq
    · cases hstate
      rfl
    · exact h.upToDate other hmark attrImpls hstate

omit [DecidableEq Ptr] in
theorem withCurrentState (h : Invariant classes w marks) (source : Source) :
    Invariant classes (w.withCurrentState source) marks := by
  rw [Group.withCurrentState]
  split
  · exact h.computeCurrentState source
  · exact h

omit [DecidableEq Source] [DecidableEq Ptr] in
theorem setValue (h : Invariant classes w marks) (value : Ptr → V) : Invariant classes { w with value } marks :=
  ⟨h.named, h.distinct, h.upToDate⟩

end Invariant

omit [DecidableEq Ptr] in
theorem withCurrentState_eq (w : Group Source Ptr V) (source : Source) :
    w.withCurrentState source = { w with currentState := (w.withCurrentState source).currentState } := by
  rw [withCurrentState]
  split <;> rfl

variable (classes) in
omit [DecidableEq Source] in
theorem restoreState_eq (w : Group Source Ptr V) (state : State V) :
    ∃ value, (w.restoreState classes state).1 = { w with value } := by
  induction state generalizing w with
  | nil => exact ⟨w.value, rfl⟩
  | cons captured state ih =>
      obtain ⟨className, v⟩ := captured
      rw [restoreState]
      split
      · exact ⟨w.value, rfl⟩
      · split
        · obtain ⟨value, hvalue⟩ := ih { w with value := Function.update w.value _ v }
          exact ⟨value, hvalue⟩
        · exact ⟨w.value, rfl⟩

theorem Invariant.step (h : Invariant classes w marks) (hmeets : Meets classes marks op) :
    Invariant classes (w.step classes op).1 (w.mark classes marks op) := by
  cases op with
  | addAttribute source className attrImpl => exact h.addAttribute hmeets
  | addAttributeOf source className created =>
      rw [Group.step, mark, adder]
      split_ifs
      · exact h
      · exact h.addAttribute hmeets
      · exact h
  | captureState source =>
      rw [Group.step, captureState]
      split_ifs
      · exact h
      · exact h.withCurrentState source
  | restoreState source state =>
      cases state with
      | none => exact h
      | some state =>
          obtain ⟨value, hvalue⟩ := restoreState_eq classes w state
          rw [Group.step, hvalue]
          exact h.setValue value
  | clearAttributes source =>
      rw [Group.step, clearAttributes]
      split_ifs
      · exact h
      · exact (h.withCurrentState source).setValue _
  | set attrImpl v => exact h.setValue _

variable (classes) in
/-- What the marks are after some operations. -/
def marksAfter (w : Group Source Ptr V) (marks : Source → Bool) : List (Op Source Ptr V) → Source → Bool
  | [] => marks
  | op :: ops => marksAfter (w.step classes op).1 (w.mark classes marks op) ops

theorem Undisturbed.of_append {before after : List (Op Source Ptr V)}
    (hops : Undisturbed classes w marks (before ++ after)) (h : Invariant classes w marks) :
    Invariant classes (w.run classes before) (w.marksAfter classes marks before) ∧
      Undisturbed classes (w.run classes before) (w.marksAfter classes marks before) after := by
  induction before generalizing w marks with
  | nil => exact ⟨h, hops⟩
  | cons op before ih => exact ih hops.2 (h.step hops.1)

/-- All attributes of the map, with their values. -/
def complete (w : Group Source Ptr V) : Option (State V) :=
  if w.attributes = [] then none else some (w.attributes.map fun entry => (entry.1, w.value entry.2))

omit [DecidableEq Ptr] in
theorem Invariant.captureState_eq (h : Invariant classes w marks) {source : Source} (hmark : marks source = false) :
    (w.captureState classes source).2 = .state w.complete := by
  rw [captureState, complete]
  split_ifs
  case pos => rfl
  case neg =>
    have hlist : ((w.withCurrentState source).currentState source).getD [] = w.attributes.map Prod.snd := by
      rw [Group.withCurrentState]
      split
      case h_1 => rw [currentState_computeCurrentState, Function.update_self, Option.getD_some]
      case h_2 attrImpls hstate => rw [hstate, Option.getD_some, h.upToDate source hmark attrImpls hstate]
    have hcaptured : (w.withCurrentState source).captured classes source =
        w.attributes.map fun entry => (entry.1, w.value entry.2) := by
      rw [captured, hlist, withCurrentState_eq, List.map_map]
      apply List.map_congr_left
      intro entry hmem
      rw [Function.comp_apply, h.named entry hmem]
    rw [hcaptured]

theorem mem_names_step {name : String} (h : name ∈ w.attributes.map Prod.fst) :
    name ∈ (w.step classes op).1.attributes.map Prod.fst := by
  have hadd : ∀ source className attrImpl, name ∈ (w.addAttribute source className attrImpl).attributes.map Prod.fst :=
    fun source className attrImpl => mem_map_fst_put.mpr (Or.inr h)
  cases op with
  | addAttribute source className attrImpl => exact hadd source className attrImpl
  | addAttributeOf source className created =>
      rw [step]
      split_ifs
      · exact h
      · exact hadd source className created
      · exact h
  | captureState source =>
      rw [step, captureState]
      split_ifs
      · exact h
      · rw [withCurrentState_eq]
        exact h
  | restoreState source state =>
      cases state with
      | none => exact h
      | some state =>
          obtain ⟨value, hvalue⟩ := restoreState_eq classes w state
          rw [step, hvalue]
          exact h
  | clearAttributes source =>
      rw [step, clearAttributes]
      split_ifs
      · exact h
      · rw [withCurrentState_eq]
        exact h
  | set attrImpl v => exact h

theorem mem_names_run {name : String} (ops : List (Op Source Ptr V)) (h : name ∈ w.attributes.map Prod.fst) :
    name ∈ (w.run classes ops).attributes.map Prod.fst := by
  induction ops generalizing w with
  | nil => exact h
  | cons op ops ih => exact ih (mem_names_step h)

omit [DecidableEq Source] [DecidableEq Ptr] in
theorem getAttribute_eq_some_iff (h : (w.attributes.map Prod.fst).Nodup) {name : String} {p : Ptr} :
    w.getAttribute name = some p ↔ (name, p) ∈ w.attributes := by
  rw [getAttribute, Option.map_eq_some_iff]
  constructor
  · rintro ⟨entry, hfind, rfl⟩
    have hname : entry.1 = name := of_decide_eq_true (List.find?_some hfind :)
    exact hname ▸ List.mem_of_find?_eq_some hfind
  · intro hmem
    have hsome : (w.attributes.find? fun entry => entry.1 = name).isSome = true :=
      List.find?_isSome.mpr ⟨_, hmem, decide_eq_true rfl⟩
    obtain ⟨entry, hfind⟩ := Option.isSome_iff_exists.mp hsome
    have hname : entry.1 = name := of_decide_eq_true (List.find?_some hfind :)
    have heq := List.inj_on_of_nodup_map h (List.mem_of_find?_eq_some hfind) hmem hname
    exact ⟨entry, hfind, by rw [heq]⟩

/-- A state is restored: the attributes of its classes have its values, and no other attribute has changed. -/
structure Restored (w : Group Source Ptr V) (state : State V) (result : Group Source Ptr V × Answer V) : Prop where
  answer : result.2 = .done
  attributes : result.1.attributes = w.attributes
  captured : ∀ name v, (name, v) ∈ state → ∃ p, w.getAttribute name = some p ∧ result.1.value p = v
  other : ∀ p, (∀ name v, (name, v) ∈ state → w.getAttribute name ≠ some p) → result.1.value p = w.value p

omit [DecidableEq Source] in
theorem Invariant.restored (h : Invariant classes w marks) {state : State V} (hnodup : (state.map Prod.fst).Nodup)
    (hknown : ∀ name ∈ state.map Prod.fst, name ∈ w.attributes.map Prod.fst) :
    Restored w state (w.restoreState classes state) := by
  induction state generalizing w with
  | nil => exact ⟨rfl, rfl, fun name v hmem => (List.not_mem_nil hmem).elim, fun p _ => rfl⟩
  | cons entry state ih =>
      obtain ⟨className, v⟩ := entry
      rw [List.map_cons, List.nodup_cons] at hnodup
      obtain ⟨⟨name, p⟩, hmem, hname⟩ := List.mem_map.mp (hknown className List.mem_cons_self)
      cases hname
      have hget : w.getAttribute name = some p := (getAttribute_eq_some_iff h.distinct).mpr hmem
      have hown : classes.getClassName p = name := h.named _ hmem
      have hclass : classes.isA p name = true := hown ▸ classes.isA_getClassName p
      obtain ⟨hanswer, hattributes, hcaptured, hother⟩ := ih (h.setValue (Function.update w.value p v)) hnodup.2
        fun name' hmem' => hknown name' (List.mem_cons_of_mem _ hmem')
      -- an attribute is in the map under the name of its class only
      have hnot : ∀ name' v', (name', v') ∈ state → w.getAttribute name' ≠ some p := by
        intro name' v' hmem' hget'
        have hname : name' = name :=
          (h.named _ ((getAttribute_eq_some_iff h.distinct).mp hget')).symm.trans hown
        exact hnodup.1 (List.mem_map.mpr ⟨_, hmem', hname⟩)
      have hrestore : w.restoreState classes ((name, v) :: state) =
          Group.restoreState classes { w with value := Function.update w.value p v } state := by
        rw [restoreState, hget]
        exact if_pos hclass
      rw [hrestore]
      refine ⟨hanswer, hattributes, ?_, ?_⟩
      · intro name' v' hmem'
        rcases List.mem_cons.mp hmem' with heq | hmem'
        · cases heq
          exact ⟨p, hget, (hother p hnot).trans (Function.update_self _ _ _)⟩
        · exact hcaptured name' v' hmem'
      · intro p' hp'
        have hne : p' ≠ p := fun heq => hp' name v List.mem_cons_self (heq ▸ hget)
        exact (hother p' fun name' v' hmem' => hp' name' v' (List.mem_cons_of_mem _ hmem')).trans
          (Function.update_of_ne hne _ _)

/-- Each capture is complete, and each state that a source of the group has captured is restored. -/
structure Faithful (classes : Classes Ptr V) (w : Group Source Ptr V) (ops : List (Op Source Ptr V)) : Prop where
  complete : ∀ before source after, ops = before ++ .captureState source :: after →
    ((w.run classes before).step classes (.captureState source)).2 = .state (w.run classes before).complete
  restored : ∀ before source between source' state after,
    ops = before ++ .captureState source :: (between ++ .restoreState source' (some state) :: after) →
    ((w.run classes before).step classes (.captureState source)).2 = .state (some state) →
    Restored (w.run classes (before ++ .captureState source :: between)) state
      ((w.run classes (before ++ .captureState source :: between)).step classes (.restoreState source' (some state)))

theorem captures_complete (classes : Classes Ptr V) (value : Ptr → V) (ops : List (Op Source Ptr V))
    (hops : Undisturbed classes (.new value) (fun _ => false) ops) : Faithful classes (.new value) ops where
  complete before source after heq := by
    rw [heq] at hops
    obtain ⟨hbefore, hcapture⟩ := hops.of_append (invariant_new value)
    exact hbefore.captureState_eq hcapture.1
  restored before source between source' state after heq hstate := by
    rw [heq] at hops
    obtain ⟨hbefore, hcapture⟩ := hops.of_append (invariant_new value)
    rw [step, hbefore.captureState_eq hcapture.1, Group.complete] at hstate
    rw [← List.cons_append, ← List.append_assoc] at hops
    obtain ⟨hrestore, -⟩ := hops.of_append (invariant_new value)
    split_ifs at hstate
    case pos => cases hstate
    case neg =>
      have hnames : state.map Prod.fst = ((new value).run classes before).attributes.map Prod.fst := by
        rw [← Option.some.inj (Answer.state.inj hstate), List.map_map]
        rfl
      apply hrestore.restored
      · rw [hnames]
        exact hbefore.distinct
      · intro name hname
        rw [hnames] at hname
        rw [run, List.foldl_append]
        exact mem_names_run (_ :: between) hname

end Runs

/-- Two sources, a `TermAttribute` and a `TypeAttribute`. -/
def twoClasses : Classes Bool Nat where
  getClassName p := if p then "TypeAttribute" else "TermAttribute"
  isA p className := className = if p then "TypeAttribute" else "TermAttribute"
  isA_getClassName _ := decide_eq_true rfl
  cleared _ := 0


/-- The second source captures before any attribute is there, and after the first one has added one. -/
theorem captures_complete_two :
    Undisturbed twoClasses (.new fun _ => 5) (fun _ => false)
      [.captureState true, .addAttribute false "TermAttribute" false, .captureState true, .set false 7,
       .restoreState false (some [("TermAttribute", 5)])] ∧
    Faithful twoClasses (.new fun _ => 5)
      [.captureState true, .addAttribute false "TermAttribute" false, .captureState true, .set false 7,
       .restoreState false (some [("TermAttribute", 5)])] :=
  have hops : Undisturbed twoClasses (.new fun _ => 5) (fun _ => false)
      [.captureState true, .addAttribute false "TermAttribute" false, .captureState true, .set false 7,
       .restoreState false (some [("TermAttribute", 5)])] :=
    ⟨rfl, rfl, rfl, trivial, trivial, trivial⟩
  ⟨hops, captures_complete twoClasses _ _ hops⟩

/-- The second source has captured before the first one adds another attribute. -/
theorem added_attribute_is_not_captured : ¬ Faithful twoClasses (.new fun _ => 5)
    [.addAttribute false "TermAttribute" false, .captureState true, .addAttribute false "TypeAttribute" true,
     .captureState true] := by
  intro h
  have hcapture := h.complete [.addAttribute false "TermAttribute" false, .captureState true,
    .addAttribute false "TypeAttribute" true] true [] rfl
  have hlength := congrArg (fun answer => match answer with
    | .state (some state) => state.length
    | _ => 0) hcapture
  revert hlength
  decide

end Group
end AttributeSource
end LucenePlusPlus
