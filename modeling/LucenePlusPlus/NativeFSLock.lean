import LucenePlusPlus.Holding
import LucenePlusPlus.Runs

/-!
`NativeFSLock`: instances of one lock file in any number of processes. Inside a process the set `LOCK_HELD`
keeps instances apart, and between processes a record lock, which the operating system keeps for a process
and a file. A process loses it with any of its descriptors of the file, so also with the stream that `obtain`
creates the file by.

The calls of one instance come one after another. Each access to `LOCK_HELD` and each operation on files is
atomic and may fail, but for closing. A file that is deleted stays for those that have it open; a file that is
created is a new one.
-/

namespace LucenePlusPlus.NativeFSLock

/-- `release` without a lock obtains it first, and so does `isLocked`. The destructor calls `release`. -/
inductive Call where
  | obtain
  | release
  | isLocked
  deriving DecidableEq

inductive Result where
  | none
  | released
  | returned (b : Bool)
  | ioException
  | lockReleaseFailed
  deriving DecidableEq

/-- Where an instance is in its code, with the files of the stream and of `lock`. -/
inductive Place where
  | idle (lock : Option Nat) (last : Result)
  | lookingForFile
  | checkingDirectory (call : Call)
  | marking (call : Call)
  | openingStream (call : Call)
  | openingLock (call : Call) (stream : Nat)
  | locking (call : Call) (stream lock : Nat)
  | locked (call : Call) (stream lock : Nat)
  | unwinding (call : Call) (stream : Nat) (lock : Option Nat)
  | catching (call : Call) (lock : Option Nat)
  | unmarking (call : Call)
  | unlocking (call : Call) (lock : Nat)
  | resetting (call : Call) (lock : Nat)
  | unmarkingReleased (call : Call) (lock : Option Nat)
  | removingFile (call : Call) (lock : Option Nat)
  deriving DecidableEq

namespace Place

/-- `obtain` has returned true. -/
def obtained (lock : Nat) : Call → Place
  | .obtain => .idle (some lock) (.returned true)
  | call => .unlocking call lock

/-- `obtain` has returned false. -/
def failed : Call → Place
  | .obtain => .idle none (.returned false)
  | .release => .idle none .lockReleaseFailed
  | .isLocked => .idle none (.returned true)

/-- `obtain` has raised an exception. -/
def raised : Call → Place
  | .isLocked => .idle none (.returned false)
  | _ => .idle none .ioException

def released (lock : Option Nat) : Call → Place
  | .isLocked => .idle lock (.returned false)
  | _ => .idle lock .released

/-- What each call does first: `lockExists` says whether `lock` is set. -/
def start (lock : Option Nat) : Call → Place
  | .obtain => if lock.isSome then .idle lock (.returned false) else .checkingDirectory .obtain
  | .release => lock.elim (.checkingDirectory .release) (.unlocking .release)
  | .isLocked => if lock.isSome then .idle lock (.returned true) else .lookingForFile

/-- From when the operating system grants the lock until it is unlocked. -/
def holds : Place → Bool
  | idle lock _ | unmarkingReleased _ lock | removingFile _ lock => lock.isSome
  | locked .. | unlocking .. => true
  | _ => false

/-- The instance holds the lock, or it is obtaining or giving back what `LOCK_HELD` says. -/
def reserves : Place → Bool
  | idle lock _ | removingFile _ lock => lock.isSome
  | lookingForFile | checkingDirectory .. | marking .. => false
  | _ => true

/-- The file that the instance holds the lock on. -/
def lockedFile : Place → Option Nat
  | idle lock _ | unmarkingReleased _ lock | removingFile _ lock => lock
  | locked _ _ lock | unlocking _ lock => some lock
  | _ => none

end Place

/-- `file` is what the path leads to, `owner` the process that has the record lock of a file, and `lockHeld`
are the processes whose `LOCK_HELD` contains the path. -/
structure State (Process Instance : Type) where
  file : Option Nat
  nextFile : Nat
  owner : Nat → Option Process
  lockHeld : Finset Process
  places : Instance → Place

/-- What an instance does next, and whether the system lets it. -/
inductive Action where
  | call (call : Call)
  | lookForFile
  | checkDirectory (exists' : Bool)
  | mark
  | openStream (opens : Bool)
  | openLock (opens : Bool)
  | lock (granted : Bool)
  | closeStream
  | reset
  | unmark
  | unlock (unlocked : Bool)
  | removeFile (removed : Bool)
  deriving DecidableEq

/-- `clearLock` of the factory deletes the file, whoever holds the lock. -/
inductive Op (Instance : Type) where
  | act (i : Instance) (action : Action)
  | clearLock (removed : Bool)

variable {Process Instance : Type} [DecidableEq Process] [DecidableEq Instance]

namespace State

/-- Nobody holds the lock; the file may be there. -/
def init (Process Instance : Type) (file : Bool) : State Process Instance where
  file := if file then some 0 else none
  nextFile := 1
  owner _ := none
  lockHeld := ∅
  places _ := .idle none .none

def move (s : State Process Instance) (i : Instance) (place : Place) : State Process Instance :=
  { s with places := Function.update s.places i place }

/-- Opens the file for writing, and creates it if it is not there. -/
def create (s : State Process Instance) : Nat × State Process Instance :=
  match s.file with
  | some file => (file, s)
  | none => (s.nextFile, { s with file := some s.nextFile, nextFile := s.nextFile + 1 })

/-- The process gives back its record lock of the file, by unlocking it or by closing a descriptor. -/
def drop (s : State Process Instance) (p : Process) (file : Nat) : State Process Instance :=
  { s with owner := fun f => if f = file ∧ s.owner f = some p then none else s.owner f }

/-- The process waits as long as another process has the record lock. -/
def lockFile (s : State Process Instance) (p : Process) (file : Nat) :
    Option (State Process Instance) :=
  if s.owner file = none ∨ s.owner file = some p then
    some { s with owner := Function.update s.owner file (some p) }
  else none

def deleteFile (s : State Process Instance) (removed : Bool) : State Process Instance :=
  if removed then { s with file := none } else s

end State

/-- The instance `i` is in process `p`. -/
def act (s : State Process Instance) (p : Process) (i : Instance) (action : Action) :
    Option (State Process Instance) :=
  match s.places i, action with
  | .idle lock _, .call call => some (s.move i (.start lock call))
  | .lookingForFile, .lookForFile =>
      some (s.move i (if s.file.isSome then .checkingDirectory .isLocked else .idle none (.returned false)))
  | .checkingDirectory call, .checkDirectory exists' =>
      some (s.move i (if exists' then .marking call else .raised call))
  | .marking call, .mark =>
      if p ∈ s.lockHeld then some (s.move i (.failed call))
      else some ({ s with lockHeld := insert p s.lockHeld }.move i (.openingStream call))
  | .openingStream call, .openStream true => some (s.create.2.move i (.openingLock call s.create.1))
  | .openingStream call, .openStream false => some (s.move i (.unmarking call))
  | .openingLock call stream, .openLock opens =>
      match s.file, opens with
      | some lock, true => some (s.move i (.locking call stream lock))
      | _, _ => some (s.move i (.unwinding call stream none))
  | .locking call stream lock, .lock true =>
      (s.lockFile p lock).map (·.move i (.locked call stream lock))
  | .locking call stream lock, .lock false => some (s.move i (.unwinding call stream (some lock)))
  -- the stream goes out of scope at the end of the block that locks
  | .locked call stream lock, .closeStream => some ((s.drop p stream).move i (.obtained lock call))
  | .unwinding call stream lock, .closeStream => some ((s.drop p stream).move i (.catching call lock))
  | .catching call lock, .reset => some ((lock.elim s (s.drop p)).move i (.unmarking call))
  | .unmarking call, .unmark =>
      some ({ s with lockHeld := s.lockHeld.erase p }.move i (.failed call))
  | .unlocking call lock, .unlock true => some ((s.drop p lock).move i (.resetting call lock))
  | .unlocking call lock, .unlock false => some (s.move i (.unmarkingReleased call (some lock)))
  | .resetting call lock, .reset => some ((s.drop p lock).move i (.unmarkingReleased call none))
  | .unmarkingReleased call lock, .unmark =>
      some ({ s with lockHeld := s.lockHeld.erase p }.move i (.removingFile call lock))
  | .removingFile call lock, .removeFile removed =>
      some ((s.deleteFile removed).move i (.released lock call))
  | _, _ => none

def step (process : Instance → Process) (s : State Process Instance) :
    Op Instance → Option (State Process Instance)
  | .act i action => act s (process i) i action
  | .clearLock removed => some (s.deleteFile removed)

/-- The process of an instance that holds the lock or is obtaining it. -/
def reserver (process : Instance → Process) (s : State Process Instance) (i : Instance) :
    Option Process :=
  if (s.places i).reserves then some (process i) else none

/-- One instance at most holds the lock, and the `LOCK_HELD` of a process contains the path exactly while one
of its instances, and only one, holds the lock or is obtaining it. -/
structure Exclusive (process : Instance → Process) (s : State Process Instance) : Prop where
  unique : ∀ i j, (s.places i).holds = true → (s.places j).holds = true → i = j
  lockHeld : Holding s.lockHeld (reserver process s)

/-- No record lock goes that another instance holds. -/
def KeepsOthers (process : Instance → Process) (s : State Process Instance) (op : Op Instance) : Prop :=
  ∀ s', step process s op = some s' → ∀ j, (∀ action, op ≠ .act j action) → ∀ file,
    (s.places j).lockedFile = some file → s.owner file = some (process j) →
    s'.owner file = some (process j)

/-- When the lock of a file is granted, all that hold the lock have the record lock of this file: none has lost
it with its stream, and none has it of a file that is deleted. And what leaves `LOCK_HELD` is unlocked. -/
def Meets (process : Instance → Process) (s : State Process Instance) : Op Instance → Prop
  | .act i (.lock true) =>
      ∀ call stream lock, s.places i = .locking call stream lock →
        ∀ j, j ≠ i → (s.places j).holds = true → s.owner lock = some (process j)
  | .act i .unmark => (s.places i).holds = false
  | _ => True

/-! ### What an instance does in a step -/

namespace Place
variable {lock : Nat} {lock? : Option Nat} {call : Call}

@[simp] theorem start_reserves : (start lock? call).reserves = lock?.isSome := by
  cases call <;> cases lock? <;> rfl

@[simp] theorem start_holds : (start lock? call).holds = lock?.isSome := by
  cases call <;> cases lock? <;> rfl

@[simp] theorem obtained_reserves : (obtained lock call).reserves = true := by cases call <;> rfl

@[simp] theorem obtained_holds : (obtained lock call).holds = true := by cases call <;> rfl

@[simp] theorem failed_reserves : (failed call).reserves = false := by cases call <;> rfl

@[simp] theorem failed_holds : (failed call).holds = false := by cases call <;> rfl

@[simp] theorem raised_reserves : (raised call).reserves = false := by cases call <;> rfl

@[simp] theorem raised_holds : (raised call).holds = false := by cases call <;> rfl

@[simp] theorem released_reserves : (released lock? call).reserves = lock?.isSome := by
  cases call <;> rfl

@[simp] theorem released_holds : (released lock? call).holds = lock?.isSome := by cases call <;> rfl

theorem reserves_of_holds {place : Place} (h : place.holds = true) : place.reserves = true := by
  cases place <;> first | rfl | exact h

theorem holds_of_lockedFile {place : Place} {file : Nat} (h : place.lockedFile = some file) :
    place.holds = true := by
  cases place <;> first | rfl | cases h; rfl | cases h

end Place

variable {process : Instance → Process} {s s' : State Process Instance} {i : Instance} {place : Place}
  {action : Action} {meets : Prop}

section
omit [DecidableEq Process] [DecidableEq Instance]

@[simp] theorem create_places : s.create.2.places = s.places := by unfold State.create; split <;> rfl

@[simp] theorem create_lockHeld : s.create.2.lockHeld = s.lockHeld := by
  unfold State.create; split <;> rfl

@[simp] theorem create_owner : s.create.2.owner = s.owner := by unfold State.create; split <;> rfl

@[simp] theorem deleteFile_places (removed : Bool) : (s.deleteFile removed).places = s.places := by
  cases removed <;> rfl

@[simp] theorem deleteFile_lockHeld (removed : Bool) : (s.deleteFile removed).lockHeld = s.lockHeld := by
  cases removed <;> rfl

@[simp] theorem deleteFile_owner (removed : Bool) : (s.deleteFile removed).owner = s.owner := by
  cases removed <;> rfl

end

/-- A step of an instance that gets to `place`: what it does to `LOCK_HELD`, to the record locks and to the
instance itself, and when it `meets` what is asked of it. -/
inductive Effect (process : Instance → Process) (s s' : State Process Instance) (i : Instance)
    (place : Place) (meets : Prop) : Prop where
  | moves (hmeets : meets) (hlockHeld : s'.lockHeld = s.lockHeld)
      (hreserves : place.reserves = (s.places i).reserves)
      (hholds : place.holds = (s.places i).holds) (howner : s'.owner = s.owner)
  | drops (file : Nat) (hmeets : meets) (hlockHeld : s'.lockHeld = s.lockHeld)
      (hreserved : (s.places i).reserves = true) (hreserves : place.reserves = true)
      (hholds : place.holds = true → (s.places i).holds = true)
      (howner : s'.owner = (s.drop (process i) file).owner)
  | marks (hmeets : meets) (hfree : process i ∉ s.lockHeld)
      (hlockHeld : s'.lockHeld = insert (process i) s.lockHeld) (hreserved : (s.places i).reserves = false)
      (hreserves : place.reserves = true) (hholds : place.holds = false) (howner : s'.owner = s.owner)
  | locks (file : Nat) (hmeets : meets ↔ ∀ j, j ≠ i → (s.places j).holds = true → s.owner file = some (process j))
      (hgranted : s.owner file = none ∨ s.owner file = some (process i))
      (hlockHeld : s'.lockHeld = s.lockHeld) (hreserved : (s.places i).reserves = true)
      (hreserves : place.reserves = true) (hholds : place.holds = true)
      (howner : s'.owner = Function.update s.owner file (some (process i)))
  | unmarks (hmeets : meets ↔ (s.places i).holds = false)
      (hlockHeld : s'.lockHeld = s.lockHeld.erase (process i)) (hreserved : (s.places i).reserves = true)
      (hreserves : place.reserves = (s.places i).holds) (hholds : place.holds = (s.places i).holds)
      (howner : s'.owner = s.owner)

theorem act_effect (hstep : act s (process i) i action = some s') :
    ∃ place, s'.places = Function.update s.places i place ∧
      Effect process s s' i place (Meets process s (.act i action)) := by
  unfold act at hstep
  split at hstep
  case h_1 lock _ call hi =>
    cases hstep
    exact ⟨_, rfl, .moves trivial rfl (by rw [hi]; exact Place.start_reserves)
      (by rw [hi]; exact Place.start_holds) rfl⟩
  case h_2 hi =>
    cases hstep
    refine ⟨_, rfl, .moves trivial rfl ?_ ?_ rfl⟩ <;> rw [hi] <;> split <;> rfl
  case h_3 call exists' hi =>
    cases hstep
    refine ⟨_, rfl, .moves trivial rfl ?_ ?_ rfl⟩ <;> rw [hi] <;> cases exists' <;> cases call <;> rfl
  case h_4 call hi =>
    split at hstep
    · cases hstep
      exact ⟨_, rfl, .moves trivial rfl (by rw [hi]; exact Place.failed_reserves)
        (by rw [hi]; exact Place.failed_holds) rfl⟩
    · rename_i hfree
      cases hstep
      exact ⟨_, rfl, .marks trivial hfree rfl (by rw [hi]; rfl) rfl rfl rfl⟩
  case h_5 call hi =>
    cases hstep
    exact ⟨.openingLock call s.create.1, by simp [State.move], .moves trivial (by simp [State.move])
      (by rw [hi]; rfl) (by rw [hi]; rfl) (by simp [State.move])⟩
  case h_6 hi =>
    cases hstep
    exact ⟨_, rfl, .moves trivial rfl (by rw [hi]; rfl) (by rw [hi]; rfl) rfl⟩
  case h_7 hi =>
    split at hstep <;> cases hstep <;>
      exact ⟨_, rfl, .moves trivial rfl (by rw [hi]; rfl) (by rw [hi]; rfl) rfl⟩
  case h_8 call stream lock hi =>
    obtain ⟨s₁, hlock, hs'⟩ := Option.map_eq_some_iff.mp hstep
    unfold State.lockFile at hlock
    split at hlock
    · rename_i hgranted
      cases hlock
      cases hs'
      refine ⟨_, rfl, .locks lock ?_ hgranted rfl (by rw [hi]; rfl) rfl rfl rfl⟩
      simp only [Meets, hi]
      exact ⟨fun h => h _ _ _ rfl, fun h call' stream' lock' heq => by cases heq; exact h⟩
    · cases hlock
  case h_9 hi =>
    cases hstep
    exact ⟨_, rfl, .moves trivial rfl (by rw [hi]; rfl) (by rw [hi]; rfl) rfl⟩
  case h_10 call stream lock hi =>
    cases hstep
    exact ⟨_, rfl, .drops stream trivial rfl (by rw [hi]; rfl) Place.obtained_reserves
      (fun _ => by rw [hi]; rfl) rfl⟩
  case h_11 call stream lock hi =>
    cases hstep
    exact ⟨_, rfl, .drops stream trivial rfl (by rw [hi]; rfl) rfl nofun rfl⟩
  case h_12 call lock hi =>
    cases hstep
    cases lock with
    | none => exact ⟨_, rfl, .moves trivial rfl (by rw [hi]; rfl) (by rw [hi]; rfl) rfl⟩
    | some lock => exact ⟨_, rfl, .drops lock trivial rfl (by rw [hi]; rfl) rfl nofun rfl⟩
  case h_13 call hi =>
    cases hstep
    refine ⟨_, rfl, .unmarks Iff.rfl rfl (by rw [hi]; rfl) ?_ ?_ rfl⟩ <;> rw [hi]
    · exact Place.failed_reserves
    · exact Place.failed_holds
  case h_14 call lock hi =>
    cases hstep
    exact ⟨_, rfl, .drops lock trivial rfl (by rw [hi]; rfl) rfl nofun rfl⟩
  case h_15 hi =>
    cases hstep
    exact ⟨_, rfl, .moves trivial rfl (by rw [hi]; rfl) (by rw [hi]; rfl) rfl⟩
  case h_16 call lock hi =>
    cases hstep
    exact ⟨_, rfl, .drops lock trivial rfl (by rw [hi]; rfl) rfl nofun rfl⟩
  case h_17 hi =>
    cases hstep
    exact ⟨_, rfl, .unmarks Iff.rfl rfl (by rw [hi]; rfl) (by rw [hi]; rfl) (by rw [hi]; rfl) rfl⟩
  case h_18 call lock removed hi =>
    cases hstep
    exact ⟨.released lock call, by simp [State.move], .moves trivial (by simp [State.move])
      (by rw [hi]; exact Place.released_reserves) (by rw [hi]; exact Place.released_holds)
      (by simp [State.move])⟩
  case h_19 => cases hstep

omit [DecidableEq Process] in
theorem reserver_update (hplaces : s'.places = Function.update s.places i place) :
    reserver process s' =
      Function.update (reserver process s) i (if place.reserves then some (process i) else none) := by
  funext j
  unfold reserver
  rw [hplaces]
  by_cases heq : j = i
  · rw [heq, Function.update_self, Function.update_self]
  · rw [Function.update_of_ne heq, Function.update_of_ne heq]

omit [DecidableEq Process] [DecidableEq Instance] in
theorem reserver_eq_some {j : Instance} (h : (s.places j).reserves = true) :
    reserver process s j = some (process j) := if_pos h

omit [DecidableEq Process] in
theorem reserver_same (hplaces : s'.places = Function.update s.places i place)
    (hreserves : place.reserves = (s.places i).reserves) : reserver process s' = reserver process s := by
  rw [reserver_update hplaces, hreserves]
  exact Function.update_eq_self ..

omit [DecidableEq Process] [DecidableEq Instance] in
theorem Exclusive.eq_of_reserves (h : Exclusive process s) {j : Instance}
    (hi : (s.places i).reserves = true) (hj : (s.places j).reserves = true)
    (heq : process i = process j) : i = j :=
  h.lockHeld.exclusive i j (process i) (reserver_eq_some hi) (heq ▸ reserver_eq_some hj)

omit [DecidableEq Process] in
theorem unique_of_holds (h : Exclusive process s) (hplaces : s'.places = Function.update s.places i place)
    (hholds : place.holds = true → (s.places i).holds = true) (j k : Instance)
    (hj : (s'.places j).holds = true) (hk : (s'.places k).holds = true) : j = k := by
  have hbefore : ∀ j, (s'.places j).holds = true → (s.places j).holds = true := by
    intro j hj
    rw [hplaces] at hj
    by_cases heq : j = i
    · rw [heq, Function.update_self] at hj
      exact heq ▸ hholds hj
    · rwa [Function.update_of_ne heq] at hj
  exact h.unique j k (hbefore j hj) (hbefore k hk)

omit [DecidableEq Process] in
theorem unique_iff_locks (h : Exclusive process s) (hplaces : s'.places = Function.update s.places i place)
    (hholds : place.holds = true) {file : Nat} (hreserved : (s.places i).reserves = true)
    (hgranted : s.owner file = none ∨ s.owner file = some (process i)) :
    (∀ j k, (s'.places j).holds = true → (s'.places k).holds = true → j = k) ↔
      ∀ j, j ≠ i → (s.places j).holds = true → s.owner file = some (process j) := by
  have hi : (s'.places i).holds = true := by rw [hplaces, Function.update_self, hholds]
  have hother : ∀ j, j ≠ i → s'.places j = s.places j := by
    intro j hne
    rw [hplaces, Function.update_of_ne hne]
  constructor
  · intro hunique j hne hj
    rw [← hother j hne] at hj
    exact absurd (hunique j i hj hi) hne
  · intro howner
    have honly : ∀ j, (s'.places j).holds = true → j = i := by
      intro j hj
      by_contra hne
      rw [hother j hne] at hj
      have hj' := howner j hne hj
      rcases hgranted with hnone | hsome
      · rw [hnone] at hj'
        cases hj'
      · have heq : process j = process i := Option.some.inj (hj'.symm.trans hsome)
        exact hne (h.eq_of_reserves (Place.reserves_of_holds hj) hreserved heq)
    intro j k hj hk
    rw [honly j hj, honly k hk]

theorem exclusive_act_iff (h : Exclusive process s) (hplaces : s'.places = Function.update s.places i place)
    (heffect : Effect process s s' i place meets) : Exclusive process s' ↔ meets := by
  cases heffect with
  | moves hmeets hlockHeld hreserves hholds _ =>
      refine iff_of_true ⟨unique_of_holds h hplaces (hholds ▸ id), ?_⟩ hmeets
      rw [hlockHeld, reserver_same hplaces hreserves]
      exact h.lockHeld
  | drops file hmeets hlockHeld hreserved hreserves hholds _ =>
      refine iff_of_true ⟨unique_of_holds h hplaces hholds, ?_⟩ hmeets
      rw [hlockHeld, reserver_same hplaces (hreserves.trans hreserved.symm)]
      exact h.lockHeld
  | marks hmeets hfree hlockHeld hreserved hreserves hholds _ =>
      refine iff_of_true ⟨unique_of_holds h hplaces fun hplace => ?_, ?_⟩ hmeets
      · rw [hholds] at hplace
        cases hplace
      · rw [hlockHeld, reserver_update hplaces, if_pos hreserves]
        exact h.lockHeld.take (if_neg (Bool.not_eq_true _ ▸ hreserved)) hfree
  | locks file hmeets hgranted hlockHeld hreserved hreserves hholds _ =>
      rw [hmeets, ← unique_iff_locks h hplaces hholds hreserved hgranted]
      refine ⟨Exclusive.unique, fun hunique => ⟨hunique, ?_⟩⟩
      rw [hlockHeld, reserver_same hplaces (hreserves.trans hreserved.symm)]
      exact h.lockHeld
  | unmarks hmeets hlockHeld hreserved hreserves hholds _ =>
      rw [hmeets]
      constructor
      · intro h'
        by_contra hheld
        have hplace : (s'.places i).reserves = true := by
          rw [hplaces, Function.update_self, hreserves, eq_true_of_ne_false hheld]
        have hmem := (h'.lockHeld.mem_iff _).mpr ⟨i, reserver_eq_some hplace⟩
        rw [hlockHeld] at hmem
        exact Finset.notMem_erase _ _ hmem
      · intro hfree
        refine ⟨unique_of_holds h hplaces (hholds ▸ id), ?_⟩
        rw [hlockHeld, reserver_update hplaces, hreserves, hfree]
        exact h.lockHeld.release (reserver_eq_some hreserved)

theorem exclusive_step_iff {op : Op Instance} (h : Exclusive process s)
    (hstep : step process s op = some s') : Exclusive process s' ↔ Meets process s op := by
  cases op with
  | act i action =>
      obtain ⟨place, hplaces, heffect⟩ := act_effect hstep
      exact exclusive_act_iff h hplaces heffect
  | clearLock removed =>
      cases hstep
      refine iff_of_true ⟨?_, ?_⟩ trivial
      · rw [deleteFile_places]
        exact h.unique
      · rw [deleteFile_lockHeld, show reserver process (s.deleteFile removed) = reserver process s by
          unfold reserver; rw [deleteFile_places]]
        exact h.lockHeld

theorem keepsOthers (op : Op Instance) (h : Exclusive process s) : KeepsOthers process s op := by
  intro s' hstep j hother file hfile howner
  cases op with
  | act i action =>
      have hne : i ≠ j := by
        rintro rfl
        exact hother action rfl
      have hreserves := Place.reserves_of_holds (Place.holds_of_lockedFile hfile)
      obtain ⟨place, -, heffect⟩ := act_effect hstep
      cases heffect with
      | moves _ _ _ _ hsame => rw [hsame, howner]
      | drops _ _ _ hreserved _ _ hdrop =>
          rw [hdrop]
          refine (if_neg fun hlost => ?_).trans howner
          have heq : process i = process j := Option.some.inj (hlost.2.symm.trans howner)
          exact hne (h.eq_of_reserves hreserved hreserves heq)
      | marks _ _ _ _ _ _ hsame => rw [hsame, howner]
      | locks file' _ hgranted _ hreserved _ _ hlock =>
          rw [hlock]
          by_cases heq : file = file'
          · rw [← heq, howner] at hgranted
            rcases hgranted with hnone | hsome
            · cases hnone
            · exact absurd (h.eq_of_reserves hreserved hreserves (Option.some.inj hsome).symm) hne
          · rw [Function.update_of_ne heq, howner]
      | unmarks _ _ _ _ _ hsame => rw [hsame, howner]
  | clearLock removed =>
      cases hstep
      rw [deleteFile_owner, howner]

omit [DecidableEq Process] [DecidableEq Instance] in
theorem exclusive_init (file : Bool) : Exclusive process (State.init Process Instance file) where
  unique _ _ h := by cases h
  lockHeld := ⟨fun _ => iff_of_false nofun nofun, nofun⟩

/-- Instances exclude each other exactly as long as a lock is granted only where those that hold the lock have
the record lock, and nobody that cannot unlock leaves `LOCK_HELD`. -/
theorem native_locks_exclude (process : Instance → Process) (file : Bool) (ops : List (Op Instance))
    (s : State Process Instance) (hrun : Runs.run (step process) (.init Process Instance file) ops = some s) :
    (Runs.Always (step process) (Exclusive process) (.init Process Instance file) ops ∧
        Runs.Legal (step process) (KeepsOthers process) (.init Process Instance file) ops) ↔
      Runs.Legal (step process) (Meets process) (.init Process Instance file) ops := by
  have hiff := Runs.always_iff_legal (I := fun _ => True) (fun _ _ _ _ _ => trivial)
    (fun _ _ _ _ h hstep => exclusive_step_iff h hstep) trivial (exclusive_init file) hrun
  rw [← hiff]
  exact ⟨And.left, fun h => ⟨h, h.to_legal fun _ op hs => keepsOthers op hs⟩⟩

/-- All that an instance does to obtain the lock. -/
def obtains {Instance : Type} (i : Instance) : List (Op Instance) :=
  [.call .obtain, .checkDirectory true, .mark, .openStream true, .openLock true, .lock true, .closeStream].map
    (.act i)

theorem native_locks_exclude_one :
    Runs.Always (step id) (Exclusive id) (.init (Fin 2) (Fin 2) false) (obtains 0) ∧
        Runs.Legal (step id) (KeepsOthers id) (.init (Fin 2) (Fin 2) false) (obtains 0) ↔
      Runs.Legal (step id) (Meets id) (.init (Fin 2) (Fin 2) false) (obtains 0) :=
  native_locks_exclude id false (obtains 0) _ (Option.some_get (by decide)).symm

/-- The record lock of the first process is gone before the second one asks for it. -/
theorem both_processes_hold :
    ∃ s, Runs.run (step id) (.init (Fin 2) (Fin 2) false) (obtains 0 ++ obtains 1) = some s ∧
      s.places 0 = .idle (some 1) (.returned true) ∧ s.places 1 = .idle (some 1) (.returned true) ∧
      ¬ Exclusive id s := by
  refine ⟨_, (Option.some_get (by decide)).symm, by decide, by decide, fun h => ?_⟩
  have heq : (0 : Fin 2) = 1 := h.unique 0 1 (by decide) (by decide)
  cases heq

end LucenePlusPlus.NativeFSLock
