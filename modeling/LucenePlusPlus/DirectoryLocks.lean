import LucenePlusPlus.Runs
import Mathlib.Data.Finset.Erase
import Mathlib.Data.Finset.Insert
import Mathlib.Logic.Function.Basic

/-!
Locks of a directory: `SingleInstanceLock`, a name in a set that the instances share, and `SimpleFSLock`, a
file in the lock directory. All instances here are of one lock. An instance holds the lock from the moment
its `obtain` succeeds until its `release` takes effect; `obtain` with a timeout is `obtain` again and again.

To look for a name, to insert and to erase one, and the operations on files are atomic each, and a file can be created
in a directory that exists.
-/

namespace LucenePlusPlus

/-- At most one instance holds the lock, and `isLocked` says whether one does. -/
structure Excludes {Instance : Type} (holds : Instance → Prop) (isLocked : Bool) : Prop where
  unique : ∀ i j, holds i → holds j → i = j
  isLocked_iff : isLocked = true ↔ ∃ i, holds i

namespace Excludes
variable {Instance : Type} {holds holds' : Instance → Prop} {i : Instance}

theorem not_holds (h : Excludes holds false) (i : Instance) : ¬ holds i := fun hi =>
  Bool.false_ne_true (h.isLocked_iff.mpr ⟨i, hi⟩)

theorem obtain_free (h : Excludes holds false) (hi : holds' i)
    (hothers : ∀ j, j ≠ i → (holds' j ↔ holds j)) : Excludes holds' true := by
  have heq : ∀ j, holds' j → j = i := by
    intro j hj
    by_contra hne
    exact h.not_holds j ((hothers j hne).mp hj)
  exact ⟨fun j k hj hk => (heq j hj).trans (heq k hk).symm, iff_of_true rfl ⟨i, hi⟩⟩

theorem release {isLocked : Bool} (h : Excludes holds isLocked) (hi : holds i) (hfree : ¬ holds' i)
    (hothers : ∀ j, j ≠ i → (holds' j ↔ holds j)) : Excludes holds' false := by
  have hnone : ∀ j, ¬ holds' j := by
    intro j hj
    by_cases heq : j = i
    · exact hfree (heq ▸ hj)
    · exact heq (h.unique j i ((hothers j heq).mp hj) hi)
  exact ⟨fun j _ hj => (hnone j hj).elim, iff_of_false nofun fun ⟨j, hj⟩ => hnone j hj⟩

theorem congr {isLocked : Bool} (h : Excludes holds isLocked) (hsame : ∀ j, holds' j ↔ holds j) :
    Excludes holds' isLocked := by
  rwa [show holds' = holds from funext fun j => propext (hsame j)]

end Excludes

namespace SingleInstanceLock

/-- Where an instance is; `add` looks for the name and then inserts it. A call of `obtain` that did not succeed keeps
whether the lock was held. -/
inductive Place where
  | idle
  | adding
  | held
  | failed (locked : Bool)
  deriving DecidableEq

/-- `locks` are the names in the set that the instances share, and `syncs` the mutexes that are locked. -/
structure State (Instance : Type) where
  locks : Finset String
  syncs : Option Instance → Bool
  places : Instance → Place

variable {Instance : Type} [DecidableEq Instance]

/-- No instance of the lock `lockName` holds it; other locks may be held. -/
def init (Instance : Type) (lockName : String) (others : Finset String) : State Instance :=
  ⟨others.erase lockName, fun _ => false, fun _ => .idle⟩

/-- The mutex of the set of an instance. The instance has a copy of the factory's `HashSet`, whose `objectLock` is null
unless `clearLock` has locked it before the copy is made; then the copy makes its own. -/
def getSync (cleared : Instance → Bool) (i : Instance) : Option Instance := if cleared i then none else some i

def State.move (s : State Instance) (i : Instance) (place : Place) : State Instance :=
  { s with places := Function.update s.places i place }

def isLocked (s : State Instance) (lockName : String) : Bool := lockName ∈ s.locks

/-- `obtain` locks the mutex and looks for the name, and goes on with `insert`. -/
inductive Op (Instance : Type) where
  | obtain (i : Instance)
  | insert (i : Instance)
  | release (i : Instance)

/-- Only an instance whose `obtain` succeeded calls `release`. -/
def step (cleared : Instance → Bool) (lockName : String) (s : State Instance) : Op Instance → Option (State Instance)
  | .obtain i =>
      if s.places i = .adding ∨ s.places i = .held ∨ s.syncs (getSync cleared i) then none
      else if lockName ∈ s.locks then some (s.move i (.failed (isLocked s lockName)))
      else some ({ s with syncs := Function.update s.syncs (getSync cleared i) true }.move i .adding)
  | .insert i =>
      if s.places i = .adding then
        some ({ s with locks := insert lockName s.locks,
                       syncs := Function.update s.syncs (getSync cleared i) false }.move i .held)
      else none
  | .release i =>
      if s.places i = .held ∧ s.syncs (getSync cleared i) = false then
        some ({ s with locks := s.locks.erase lockName }.move i .idle)
      else none

structure Excluding (lockName : String) (s : State Instance) : Prop where
  excludes : Excludes (fun i => s.places i = .held) (isLocked s lockName)
  obtains : ∀ i, s.places i ≠ .failed false

/-- The name is inserted only when it is not there yet: no other instance has inserted it since it was looked for. -/
def Meets (lockName : String) (s : State Instance) : Op Instance → Prop
  | .insert _ => lockName ∉ s.locks
  | _ => True

variable {cleared : Instance → Bool} {lockName : String} {s s' : State Instance} {i : Instance} {place : Place}

@[simp] theorem places_move_self : (s.move i place).places i = place := Function.update_self ..

theorem places_move_of_ne {j : Instance} (h : j ≠ i) : (s.move i place).places j = s.places j :=
  Function.update_of_ne h ..

theorem obtains_update {places : Instance → Place} (h : ∀ i, places i ≠ .failed false) (hplace : place ≠ .failed false)
    (j : Instance) : Function.update places i place j ≠ .failed false := by
  by_cases heq : j = i
  · rw [heq, Function.update_self]
    exact hplace
  · rw [Function.update_of_ne heq]
    exact h j

theorem Excluding.move (h : Excluding lockName s) (hi : s.places i ≠ .held) (hplace : place ≠ .held)
    (hobtains : place ≠ .failed false) : Excluding lockName (s.move i place) where
  excludes := h.excludes.congr fun j => by
    by_cases heq : j = i
    · rw [heq, places_move_self]
      exact iff_of_false hplace hi
    · rw [places_move_of_ne heq]
  obtains := obtains_update h.obtains hobtains

theorem excluding_insert_iff (h : Excluding lockName s) (hi : s.places i = .adding) (syncs : Option Instance → Bool) :
    Excluding lockName ({ s with locks := insert lockName s.locks, syncs }.move i .held) ↔ lockName ∉ s.locks := by
  constructor
  · intro h' hmem
    obtain ⟨j, hj⟩ := h.excludes.isLocked_iff.mp (decide_eq_true hmem)
    have hne : j ≠ i := by
      rintro rfl
      rw [hi] at hj
      cases hj
    exact hne (h'.excludes.unique j i ((places_move_of_ne hne).trans hj) places_move_self)
  · intro hmem
    have hfree := h.excludes
    rw [isLocked, decide_eq_false hmem] at hfree
    have hlocked : isLocked ({ s with locks := insert lockName s.locks, syncs }.move i .held) lockName = true :=
      decide_eq_true (Finset.mem_insert_self _ _)
    refine ⟨?_, obtains_update h.obtains (by decide)⟩
    rw [hlocked]
    refine hfree.obtain_free (i := i) places_move_self fun j hne => ?_
    rw [places_move_of_ne hne]

theorem excluding_release (h : Excluding lockName s) (hi : s.places i = .held) :
    Excluding lockName ({ s with locks := s.locks.erase lockName }.move i .idle) := by
  have hlocked : isLocked ({ s with locks := s.locks.erase lockName }.move i .idle) lockName = false :=
    decide_eq_false (Finset.notMem_erase _ _)
  refine ⟨?_, obtains_update h.obtains (by decide)⟩
  rw [hlocked]
  refine h.excludes.release hi ?_ fun j hne => ?_
  · rw [places_move_self]
    decide
  · rw [places_move_of_ne hne]

theorem step_cases {op : Op Instance} (hstep : step cleared lockName s op = some s') :
    (∃ i, op = .obtain i ∧ s.places i ≠ .held ∧ lockName ∈ s.locks ∧ s' = s.move i (.failed (isLocked s lockName))) ∨
    (∃ i, op = .obtain i ∧ s.places i ≠ .held ∧ lockName ∉ s.locks ∧ s.syncs (getSync cleared i) = false ∧
      s' = { s with syncs := Function.update s.syncs (getSync cleared i) true }.move i .adding) ∨
    (∃ i, op = .insert i ∧ s.places i = .adding ∧
      s' = { s with locks := insert lockName s.locks,
                    syncs := Function.update s.syncs (getSync cleared i) false }.move i .held) ∨
    ∃ i, op = .release i ∧ s.places i = .held ∧ s.syncs (getSync cleared i) = false ∧
      s' = { s with locks := s.locks.erase lockName }.move i .idle := by
  cases op with
  | obtain i =>
      simp only [step] at hstep
      split_ifs at hstep with hbusy hmem
      all_goals
        rw [not_or, not_or] at hbusy
        cases hstep
      · exact Or.inl ⟨i, rfl, hbusy.2.1, hmem, rfl⟩
      · exact Or.inr (Or.inl ⟨i, rfl, hbusy.2.1, hmem, by simpa using hbusy.2.2, rfl⟩)
  | insert i =>
      simp only [step] at hstep
      split_ifs at hstep with hadding
      cases hstep
      exact Or.inr (Or.inr (Or.inl ⟨i, rfl, hadding, rfl⟩))
  | release i =>
      simp only [step] at hstep
      split_ifs at hstep with hheld
      cases hstep
      exact Or.inr (Or.inr (Or.inr ⟨i, rfl, hheld.1, hheld.2, rfl⟩))

theorem excluding_step_iff {op : Op Instance} (h : Excluding lockName s) (hstep : step cleared lockName s op = some s') :
    Excluding lockName s' ↔ Meets lockName s op := by
  obtain ⟨i, rfl, hi, hmem, rfl⟩ | ⟨i, rfl, hi, -, -, rfl⟩ | ⟨i, rfl, hi, rfl⟩ | ⟨i, rfl, hi, -, rfl⟩ := step_cases hstep
  · rw [isLocked, decide_eq_true hmem]
    exact iff_of_true (h.move hi (by decide) (by decide)) trivial
  · have h' : Excluding lockName { s with syncs := Function.update s.syncs (getSync cleared i) true } :=
      ⟨h.excludes, h.obtains⟩
    exact iff_of_true (h'.move hi (by decide) (by decide)) trivial
  · exact excluding_insert_iff h hi _
  · exact iff_of_true (excluding_release h hi) trivial

omit [DecidableEq Instance] in
theorem excluding_init (others : Finset String) : Excluding lockName (init Instance lockName others) := by
  have hfree : isLocked (init Instance lockName others) lockName = false :=
    decide_eq_false (Finset.notMem_erase _ _)
  have hnone : ∀ i, (init Instance lockName others).places i ≠ .held := fun _ hi => Place.noConfusion hi
  refine ⟨?_, fun _ hi => Place.noConfusion hi⟩
  rw [hfree]
  exact ⟨fun i _ hi => absurd hi (hnone i), iff_of_false Bool.false_ne_true fun h => hnone _ h.choose_spec⟩

/-- With one mutex, no other instance is inside while one is between looking and inserting. -/
structure OneInside (lockName : String) (s : State Instance) : Prop where
  sync : ∀ i, s.places i = .adding → s.syncs none = true
  unique : ∀ i j, s.places i = .adding → s.places j = .adding → i = j
  absent : ∀ i, s.places i = .adding → lockName ∉ s.locks

theorem OneInside.step (hcleared : ∀ i, cleared i = true) {op : Op Instance} (h : OneInside lockName s)
    (hstep : step cleared lockName s op = some s') : OneInside lockName s' := by
  have hsync : ∀ i, getSync cleared i = none := fun i => if_pos (hcleared i)
  have hadding : ∀ {i j place}, place ≠ .adding → (s.move i place).places j = .adding → j ≠ i ∧ s.places j = .adding := by
    intro i j place hplace hj
    have hne : j ≠ i := by
      rintro rfl
      exact hplace (places_move_self.symm.trans hj)
    exact ⟨hne, (places_move_of_ne hne).symm.trans hj⟩
  obtain ⟨i, rfl, -, -, rfl⟩ | ⟨i, rfl, -, hmem, hfree, rfl⟩ | ⟨i, rfl, hi, rfl⟩ | ⟨i, rfl, -, hfree, rfl⟩ := step_cases hstep
  · have hsame := fun j => @hadding i j (.failed (isLocked s lockName)) fun heq => Place.noConfusion heq
    exact ⟨fun j hj => h.sync j (hsame j hj).2, fun j k hj hk => h.unique j k (hsame j hj).2 (hsame k hk).2,
      fun j hj => h.absent j (hsame j hj).2⟩
  · -- nobody was inside, the mutex was free
    rw [hsync] at hfree
    have honly : ∀ j, Function.update s.places i .adding j = .adding → j = i := by
      intro j hj
      by_contra hne
      rw [Function.update_of_ne hne] at hj
      rw [h.sync j hj] at hfree
      cases hfree
    refine ⟨fun j _ => ?_, fun j k hj hk => (honly j hj).trans (honly k hk).symm, fun _ _ => hmem⟩
    show Function.update s.syncs (getSync cleared i) true none = true
    rw [hsync, Function.update_self]
  · have hnone : ∀ j, Function.update s.places i .held j ≠ .adding := fun j hj =>
      (hadding (by decide) hj).1 (h.unique j i (hadding (by decide) hj).2 hi)
    exact ⟨fun j hj => absurd hj (hnone j), fun j _ hj => absurd hj (hnone j), fun j hj => absurd hj (hnone j)⟩
  · rw [hsync] at hfree
    have hnone : ∀ j, Function.update s.places i .idle j ≠ .adding := by
      intro j hj
      rw [h.sync j (hadding (by decide) hj).2] at hfree
      cases hfree
    exact ⟨fun j hj => absurd hj (hnone j), fun j _ hj => absurd hj (hnone j), fun j hj => absurd hj (hnone j)⟩

end SingleInstanceLock

/-! ### SimpleFSLock -/

namespace SimpleFSLock

/-- What is at the path of the lock directory. -/
inductive LockDir where
  | missing
  | directory
  | regularFile
  deriving DecidableEq

/-- Where an instance is. A call of `obtain` that did not succeed keeps whether the lock file existed. -/
inductive Place where
  | idle
  | creating
  | checking
  | opening
  | held
  | releasing
  | failed (locked : Bool)
  deriving DecidableEq

structure State (Instance : Type) where
  lockDir : LockDir
  lockFile : Bool
  places : Instance → Place

variable {Instance : Type} [DecidableEq Instance]

def init (Instance : Type) (lockDir : LockDir) : State Instance := ⟨lockDir, false, fun _ => .idle⟩

def State.move (s : State Instance) (i : Instance) (place : Place) : State Instance :=
  { s with places := Function.update s.places i place }

/-- The file operations of `obtain` and `release`. -/
inductive Op (Instance : Type) where
  | obtain (i : Instance)
  | createDirectory (i : Instance)
  | isDirectory (i : Instance)
  | openFile (i : Instance)
  | release (i : Instance)
  | removeFile (i : Instance)

/-- Opening the lock file creates it, unless it exists. -/
def step (s : State Instance) : Op Instance → Option (State Instance)
  | .obtain i =>
      match s.places i with
      | .idle | .failed _ => some (s.move i (if s.lockDir = .missing then .creating else .checking))
      | _ => none
  | .createDirectory i =>
      match s.places i with
      | .creating =>
          if s.lockDir = .missing then some ({ s with lockDir := .directory }.move i .opening)
          else some (s.move i (.failed s.lockFile))
      | _ => none
  | .isDirectory i =>
      match s.places i with
      | .checking => some (s.move i (if s.lockDir = .directory then .opening else .failed s.lockFile))
      | _ => none
  | .openFile i =>
      match s.places i with
      | .opening =>
          if s.lockDir = .directory then some ({ s with lockFile := true }.move i .held)
          else some (s.move i (.failed s.lockFile))
      | _ => none
  | .release i =>
      match s.places i with
      | .held => some (s.move i (if s.lockFile then .releasing else .idle))
      | _ => none
  | .removeFile i =>
      match s.places i with
      | .releasing => some ({ s with lockFile := false }.move i .idle)
      | _ => none

def Place.holds : Place → Bool
  | held | releasing => true
  | _ => false

/-- Instances exclude each other, and `obtain` fails only when the lock file exists. -/
structure Excluding (s : State Instance) : Prop where
  excludes : Excludes (fun i => (s.places i).holds = true) s.lockFile
  obtains : ∀ i, s.places i ≠ .failed false

/-- The lock file is opened only when it does not exist; and nothing is in the way of the lock directory, in
particular no instance that creates it at the same time. -/
def Meets (s : State Instance) : Op Instance → Prop
  | .createDirectory _ => s.lockDir = .missing ∨ s.lockFile = true
  | .isDirectory _ => s.lockDir = .directory
  | .openFile _ => s.lockFile = false
  | _ => True

/-- The lock directory exists as soon as it is needed. -/
structure Inv (s : State Instance) : Prop where
  lockDir : ∀ i, s.places i = .opening ∨ (s.places i).holds = true → s.lockDir = .directory
  lockFile : s.lockFile = true → s.lockDir = .directory

variable {s s' : State Instance} {i : Instance} {place : Place}

@[simp] theorem places_move_self : (s.move i place).places i = place := Function.update_self ..

theorem places_move_of_ne {j : Instance} (h : j ≠ i) : (s.move i place).places j = s.places j :=
  Function.update_of_ne h ..

theorem Inv.move (h : Inv s) (hplace : place = .opening ∨ place.holds = true → s.lockDir = .directory) :
    Inv (s.move i place) where
  lockDir j hj := by
    by_cases heq : j = i
    · rw [heq, places_move_self] at hj
      exact hplace hj
    · rw [places_move_of_ne heq] at hj
      exact h.lockDir j hj
  lockFile := h.lockFile

theorem Excluding.move_iff (h : Excluding s) (hholds : place.holds = (s.places i).holds) :
    Excluding (s.move i place) ↔ place ≠ .failed false := by
  constructor
  · intro h'
    have := h'.obtains i
    rwa [places_move_self] at this
  · intro hplace
    refine ⟨h.excludes.congr fun j => ?_, fun j => ?_⟩
    · by_cases heq : j = i
      · rw [heq, places_move_self, hholds]
      · rw [places_move_of_ne heq]
    · by_cases heq : j = i
      · rw [heq, places_move_self]
        exact hplace
      · rw [places_move_of_ne heq]
        exact h.obtains j

/-- What each operation does to the invariant, and when instances still exclude each other. -/
def StepsTo (s : State Instance) (op : Op Instance) (s' : State Instance) : Prop :=
  Inv s' ∧ (Excluding s → (Excluding s' ↔ Meets s op))

theorem stepsTo_move {op : Op Instance} (h : Inv s)
    (hplace : place = .opening ∨ place.holds = true → s.lockDir = .directory)
    (hholds : place.holds = (s.places i).holds) (hmeets : place ≠ .failed false ↔ Meets s op) :
    StepsTo s op (s.move i place) :=
  ⟨h.move hplace, fun hE => (hE.move_iff hholds).trans hmeets⟩

theorem stepsTo_createDirectory (hi : s.places i = .creating)
    (hmissing : s.lockDir = .missing) :
    StepsTo s (.createDirectory i) ({ s with lockDir := .directory }.move i .opening) := by
  have hcreated : Inv { s with lockDir := .directory } := ⟨fun _ _ => rfl, fun _ => rfl⟩
  refine ⟨hcreated.move fun _ => rfl, fun hE => ?_⟩
  have hE' : Excluding { s with lockDir := .directory } := ⟨hE.excludes, hE.obtains⟩
  exact (hE'.move_iff (by rw [hi]; rfl)).trans (iff_of_true nofun (Or.inl hmissing))

theorem stepsTo_openFile (h : Inv s) (hi : s.places i = .opening) :
    StepsTo s (.openFile i) ({ s with lockFile := true }.move i .held) := by
  have hdir := h.lockDir i (Or.inl hi)
  have hopened : Inv { s with lockFile := true } := ⟨h.lockDir, fun _ => hdir⟩
  refine ⟨hopened.move fun _ => hdir, fun hE => ?_⟩
  constructor
  · intro hE'
    show s.lockFile = false
    by_contra hfile
    obtain ⟨j, hj⟩ := hE.excludes.isLocked_iff.mp (Bool.not_eq_false _ ▸ hfile)
    have hne : j ≠ i := by
      rintro rfl
      rw [hi] at hj
      cases hj
    refine hne (hE'.excludes.unique j i ?_ ?_)
    · rw [places_move_of_ne hne]
      exact hj
    · rw [places_move_self]
      rfl
  · intro hfile
    have hfile : s.lockFile = false := hfile
    have hfree := hE.excludes
    rw [hfile] at hfree
    refine ⟨hfree.obtain_free (i := i) (by rw [places_move_self]; rfl) fun j hne => ?_, fun j => ?_⟩
    · rw [places_move_of_ne hne]
    · by_cases heq : j = i
      · rw [heq, places_move_self]
        nofun
      · rw [places_move_of_ne heq]
        exact hE.obtains j

theorem stepsTo_removeFile (h : Inv s) (hi : s.places i = .releasing) :
    StepsTo s (.removeFile i) ({ s with lockFile := false }.move i .idle) := by
  have hremoved : Inv { s with lockFile := false } := ⟨h.lockDir, nofun⟩
  refine ⟨hremoved.move nofun, fun hE => iff_of_true ⟨?_, fun j => ?_⟩ trivial⟩
  · refine hE.excludes.release (i := i) (by rw [hi]; rfl) ?_ fun j hne => ?_
    · rw [places_move_self]
      nofun
    · rw [places_move_of_ne hne]
  · by_cases heq : j = i
    · rw [heq, places_move_self]
      nofun
    · rw [places_move_of_ne heq]
      exact hE.obtains j

theorem step_spec {op : Op Instance} (h : Inv s) (hstep : step s op = some s') : StepsTo s op s' := by
  cases op with
  | obtain i =>
      simp only [step] at hstep
      have hplace : (s.places i).holds = false →
          some (s.move i (if s.lockDir = .missing then .creating else .checking)) = some s' →
          StepsTo s (.obtain i) s' := by
        intro hnot hsome
        cases hsome
        split <;> exact stepsTo_move h nofun hnot.symm (iff_of_true nofun trivial)
      split at hstep
      · rename_i hi
        exact hplace (by rw [hi]; rfl) hstep
      · rename_i hi
        exact hplace (by rw [hi]; rfl) hstep
      · cases hstep
  | createDirectory i =>
      simp only [step] at hstep
      split at hstep
      · rename_i hi
        split at hstep
        · rename_i hmissing
          cases hstep
          exact stepsTo_createDirectory hi hmissing
        · rename_i hexists
          cases hstep
          refine stepsTo_move h nofun (by rw [hi]; rfl) ?_
          simp [Meets, hexists]
      · cases hstep
  | isDirectory i =>
      simp only [step] at hstep
      split at hstep
      · rename_i hi
        cases hstep
        by_cases hdir : s.lockDir = .directory
        · rw [if_pos hdir]
          exact stepsTo_move h (fun _ => hdir) (by rw [hi]; rfl) (iff_of_true nofun hdir)
        · have hfile : s.lockFile = false := by
            by_contra hfile
            exact hdir (h.lockFile (Bool.not_eq_false _ ▸ hfile))
          rw [if_neg hdir, hfile]
          exact stepsTo_move h nofun (by rw [hi]; rfl) (iff_of_false (not_not_intro rfl) hdir)
      · cases hstep
  | openFile i =>
      simp only [step] at hstep
      split at hstep
      · rename_i hi
        rw [if_pos (h.lockDir i (Or.inl hi))] at hstep
        cases hstep
        exact stepsTo_openFile h hi
      · cases hstep
  | release i =>
      simp only [step] at hstep
      split at hstep
      · rename_i hi
        cases hstep
        have hdir := h.lockDir i (Or.inr (by rw [hi]; rfl))
        refine ⟨h.move fun _ => hdir, fun hE => ?_⟩
        have hfile : s.lockFile = true := hE.excludes.isLocked_iff.mpr ⟨i, by rw [hi]; rfl⟩
        rw [if_pos hfile]
        exact (hE.move_iff (by rw [hi]; rfl)).trans (iff_of_true nofun trivial)
      · cases hstep
  | removeFile i =>
      simp only [step] at hstep
      split at hstep
      · rename_i hi
        cases hstep
        exact stepsTo_removeFile h hi
      · cases hstep

omit [DecidableEq Instance] in
theorem inv_init (lockDir : LockDir) : Inv (init Instance lockDir) where
  lockDir _ h := by rcases h with h | h <;> cases h
  lockFile h := by cases h

omit [DecidableEq Instance] in
theorem excluding_init (lockDir : LockDir) : Excluding (init Instance lockDir) where
  excludes := ⟨nofun, iff_of_false nofun nofun⟩
  obtains _ := nofun

/-- Instances exclude each other exactly as long as nobody opens a lock file that exists, and nothing is in the
way of the lock directory. -/
theorem excluding_iff {lockDir : LockDir} {ops : List (Op Instance)}
    (hrun : Runs.run step (init Instance lockDir) ops = some s) :
    Runs.Always step Excluding (init Instance lockDir) ops ↔
      Runs.Legal step Meets (init Instance lockDir) ops :=
  Runs.always_iff_legal (fun _ _ _ h hstep => (step_spec h hstep).1)
    (fun _ _ _ h hE hstep => (step_spec h hstep).2 hE) (inv_init lockDir) (excluding_init lockDir) hrun

end SimpleFSLock

end LucenePlusPlus
