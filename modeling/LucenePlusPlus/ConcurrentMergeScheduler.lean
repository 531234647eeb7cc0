import LucenePlusPlus.Runs
import Mathlib.Data.Finset.Card

/-!
The threads of `ConcurrentMergeScheduler`, and those that wait for them. `MergeThread::run` takes its thread out of
`mergeThreads` behind the `catch` blocks, and one of them may throw.
-/

namespace LucenePlusPlus
namespace ConcurrentMergeScheduler

inductive Exception
  | mergeAborted
  /-- Any other `LuceneException`. -/
  | lucene
  /-- What is not a `LuceneException`. -/
  | foreign
deriving DecidableEq

/-- What the calls of a round come to; `getNextMerge` tells whether there is another merge. -/
structure Attempt where
  doMerge : Except Exception Unit
  getNextMerge : Except Exception Bool
  mergeInit : Except Exception Unit

/-- The loop of `run`; there is no result while it goes on. -/
def mergeLoop : List Attempt → Option (Except Exception Unit)
  | [] => none
  | attempt :: attempts =>
      match attempt.doMerge with
      | .error e => some (.error e)
      | .ok () =>
          match attempt.getNextMerge with
          | .error e => some (.error e)
          | .ok false => some (.ok ())
          | .ok true =>
              match attempt.mergeInit with
              | .error e => some (.error e)
              | .ok () => mergeLoop attempts

/-- `waiters` are the threads that wait in `sync` to be notified. -/
structure Scheduler where
  mergeThreads : Finset Nat
  suppressExceptions : Bool
  anyExceptions : Bool
  waiters : Finset Nat
deriving DecidableEq

/-- `notifyAll`, and the thread is removed. -/
def Scheduler.deregister (scheduler : Scheduler) (thread : Nat) : Scheduler :=
  { scheduler with waiters := ∅, mergeThreads := scheduler.mergeThreads.erase thread }

/-- A `MergeException` is thrown. -/
def handleMergeException (scheduler : Scheduler) : Scheduler × Except Exception Unit := (scheduler, .error .lucene)

/-- What `run` leaves, and what it throws. -/
def runThread (thread : Nat) (attempts : List Attempt) (scheduler : Scheduler) :
    Option (Scheduler × Except Exception Unit) :=
  match mergeLoop attempts with
  | none => none
  | some (.ok ()) => some (scheduler.deregister thread, .ok ())
  -- ignore the exception if it was due to abort
  | some (.error .mergeAborted) => some (scheduler.deregister thread, .ok ())
  | some (.error .lucene) =>
      if ¬ scheduler.suppressExceptions then some (handleMergeException { scheduler with anyExceptions := true })
      else some (scheduler.deregister thread, .error .lucene)
  | some (.error .foreign) => some (scheduler, .error .foreign)

/-- No exception gets past the clean-up. -/
def Handled (suppressExceptions : Bool) (attempts : List Attempt) : Prop :=
  mergeLoop attempts ≠ some (.error .foreign) ∧
    (mergeLoop attempts = some (.error .lucene) → suppressExceptions = true)

theorem runThread_spec {thread : Nat} {attempts : List Attempt} {scheduler scheduler' : Scheduler}
    {result : Except Exception Unit} (h : runThread thread attempts scheduler = some (scheduler', result)) :
    Handled scheduler.suppressExceptions attempts ∧ scheduler' = scheduler.deregister thread ∨
      ¬ Handled scheduler.suppressExceptions attempts ∧ scheduler'.mergeThreads = scheduler.mergeThreads := by
  rw [runThread] at h
  rw [Handled]
  split at h
  case h_1 => cases h
  case h_2 hloop =>
    cases h
    exact Or.inl ⟨⟨by rw [hloop]; nofun, by rw [hloop]; nofun⟩, rfl⟩
  case h_3 hloop =>
    cases h
    exact Or.inl ⟨⟨by rw [hloop]; nofun, by rw [hloop]; nofun⟩, rfl⟩
  case h_4 hloop =>
    split at h
    case isTrue hthrows =>
      cases h
      exact Or.inr ⟨fun hhandled => hthrows (hhandled.2 hloop), rfl⟩
    case isFalse hsuppress =>
      cases h
      exact Or.inl ⟨⟨by rw [hloop]; nofun, fun _ => not_not.mp hsuppress⟩, rfl⟩
  case h_5 hloop =>
    cases h
    exact Or.inr ⟨fun hhandled => hhandled.1 hloop, rfl⟩

inductive Phase
  | new
  | running
  /-- `run` has ended, but `LuceneThread` has not set that yet. -/
  | ended
  | exited
deriving DecidableEq

structure State extends Scheduler where
  phase : Nat → Phase

def State.init : State where
  mergeThreads := ∅
  suppressExceptions := false
  anyExceptions := false
  waiters := ∅
  phase _ := .new

/-- Nothing is known of a thread before it starts. -/
def isAlive (phase : Phase) : Bool := phase = .running || phase = .ended

def State.mergeThreadCount (state : State) : Nat :=
  (state.mergeThreads.filter fun thread => isAlive (state.phase thread) = true).card

/-- What the threads do, each under the lock of the scheduler. -/
inductive Action
  /-- `merge` adds a thread and starts it. -/
  | launch (thread : Nat)
  /-- `run` comes to its end. -/
  | runEnds (thread : Nat) (attempts : List Attempt)
  /-- `LuceneThread::runThread` sets that the thread does not run any more. -/
  | exits (thread : Nat)
  /-- A round of the loop of `sync`. -/
  | sync (waiter : Nat)
  | timeout (waiter : Nat)
  | setSuppressExceptions (suppress : Bool)

def step (state : State) : Action → Option State
  | .launch thread =>
      if state.phase thread = .new then
        some { state with
          mergeThreads := insert thread state.mergeThreads
          phase := Function.update state.phase thread .running }
      else none
  | .runEnds thread attempts =>
      if state.phase thread = .running then
        (runThread thread attempts state.toScheduler).map fun (scheduler, _) =>
          { scheduler with phase := Function.update state.phase thread .ended }
      else none
  | .exits thread =>
      if state.phase thread = .ended then some { state with phase := Function.update state.phase thread .exited }
      else none
  | .sync waiter =>
      if 0 < state.mergeThreadCount then some { state with waiters := insert waiter state.waiters }
      else some { state with mergeThreads := ∅ }
  | .timeout waiter => some { state with waiters := state.waiters.erase waiter }
  | .setSuppressExceptions suppress => some { state with suppressExceptions := suppress }

/-- What the action of a run is to be for threads to deregister. -/
def Deregisters (state : State) : Action → Prop
  | .runEnds _ attempts => Handled state.suppressExceptions attempts
  | _ => True

/-! ### Runs of the scheduler -/

variable {state state' : State}

/-- A thread is registered while `run` goes on. -/
def Registered (state : State) : Prop := ∀ thread, state.phase thread = .running → thread ∈ state.mergeThreads

theorem mergeThreadCount_pos {thread : Nat} (hmem : thread ∈ state.mergeThreads)
    (halive : isAlive (state.phase thread) = true) : 0 < state.mergeThreadCount :=
  Finset.card_pos.mpr ⟨thread, Finset.mem_filter.mpr ⟨hmem, halive⟩⟩

theorem registered_step {action : Action} (h : Registered state) (hstep : step state action = some state') :
    Registered state' := by
  intro thread hrunning
  cases action with
  | launch started =>
      rw [step] at hstep
      split at hstep
      case isTrue =>
        cases hstep
        refine Finset.mem_insert.mpr (or_iff_not_imp_left.mpr fun hne => ?_)
        dsimp only at hrunning
        rw [Function.update_of_ne hne] at hrunning
        exact h thread hrunning
      case isFalse => cases hstep
  | runEnds finished attempts =>
      rw [step] at hstep
      split at hstep
      case isTrue =>
        obtain ⟨⟨scheduler, result⟩, hrun, rfl⟩ := Option.map_eq_some_iff.mp hstep
        dsimp only at hrunning ⊢
        have hne : thread ≠ finished := by
          rintro rfl
          rw [Function.update_self] at hrunning
          cases hrunning
        rw [Function.update_of_ne hne] at hrunning
        rcases runThread_spec hrun with ⟨-, rfl⟩ | ⟨-, hsame⟩
        · exact Finset.mem_erase.mpr ⟨hne, h thread hrunning⟩
        · exact hsame ▸ h thread hrunning
      case isFalse => cases hstep
  | exits finished =>
      rw [step] at hstep
      split at hstep
      case isTrue =>
        cases hstep
        have hne : thread ≠ finished := by
          rintro rfl
          dsimp only at hrunning
          rw [Function.update_self] at hrunning
          cases hrunning
        dsimp only at hrunning
        rw [Function.update_of_ne hne] at hrunning
        exact h thread hrunning
      case isFalse => cases hstep
  | sync waiter =>
      rw [step] at hstep
      split at hstep
      case isTrue =>
        cases hstep
        exact h thread hrunning
      case isFalse hnone =>
        cases hstep
        dsimp only at hrunning
        exact absurd (mergeThreadCount_pos (h thread hrunning) (by rw [hrunning]; rfl)) hnone
  | timeout waiter =>
      cases hstep
      exact h thread hrunning
  | setSuppressExceptions suppress =>
      cases hstep
      exact h thread hrunning

/-- Only threads whose `run` goes on are registered, and they are there to notify those that wait. -/
structure Settled (state : State) : Prop where
  running : ∀ thread ∈ state.mergeThreads, state.phase thread = .running
  waited : state.waiters.Nonempty → ∃ thread, state.phase thread = .running

theorem settled_step {action : Action} (h : Settled state) (hderegisters : Deregisters state action)
    (hstep : step state action = some state') : Settled state' := by
  cases action with
  | launch started =>
      rw [step] at hstep
      split at hstep
      case isTrue =>
        cases hstep
        refine ⟨fun thread hmem => ?_, fun _ => ⟨started, Function.update_self ..⟩⟩
        by_cases heq : thread = started
        · rw [heq]
          exact Function.update_self ..
        · exact (Function.update_of_ne heq ..).trans (h.running thread (Finset.mem_of_mem_insert_of_ne hmem heq))
      case isFalse => cases hstep
  | runEnds finished attempts =>
      rw [step] at hstep
      split at hstep
      case isTrue =>
        obtain ⟨⟨scheduler, result⟩, hrun, rfl⟩ := Option.map_eq_some_iff.mp hstep
        rcases runThread_spec hrun with ⟨-, rfl⟩ | ⟨hnot, -⟩
        · refine ⟨fun thread hmem => ?_, fun hwaits => absurd hwaits Finset.not_nonempty_empty⟩
          obtain ⟨hne, hmem⟩ := Finset.mem_erase.mp hmem
          exact (Function.update_of_ne hne ..).trans (h.running thread hmem)
        · exact absurd hderegisters hnot
      case isFalse => cases hstep
  | exits finished =>
      rw [step] at hstep
      split at hstep
      case isTrue hended =>
        cases hstep
        have hkeeps : ∀ thread, state.phase thread = .running →
            Function.update state.phase finished .exited thread = .running := by
          intro thread hrunning
          have hne : thread ≠ finished := by
            rintro rfl
            rw [hended] at hrunning
            cases hrunning
          rw [Function.update_of_ne hne, hrunning]
        refine ⟨fun thread hmem => hkeeps thread (h.running thread hmem), fun hwaits => ?_⟩
        obtain ⟨thread, hrunning⟩ := h.waited hwaits
        exact ⟨thread, hkeeps thread hrunning⟩
      case isFalse => cases hstep
  | sync waiter =>
      rw [step] at hstep
      split at hstep
      case isTrue hcount =>
        cases hstep
        obtain ⟨thread, hmem⟩ := Finset.card_pos.mp hcount
        exact ⟨h.running, fun _ => ⟨thread, h.running thread (Finset.mem_filter.mp hmem).1⟩⟩
      case isFalse =>
        cases hstep
        exact ⟨fun _ hmem => absurd hmem (Finset.notMem_empty _), h.waited⟩
  | timeout waiter =>
      cases hstep
      exact ⟨h.running, fun hwaits => h.waited (hwaits.mono (Finset.erase_subset _ _))⟩
  | setSuppressExceptions suppress =>
      cases hstep
      exact ⟨h.running, h.waited⟩

/-- A thread whose `run` has ended is not registered, `mergeThreadCount` counts those whose `run` goes on, and when there
are none of them `sync` returns and nobody is left waiting. -/
structure Exact (state : State) : Prop where
  deregistered : ∀ thread, state.phase thread = .ended ∨ state.phase thread = .exited → thread ∉ state.mergeThreads
  counted : state.mergeThreadCount = state.mergeThreads.card ∧
    ∀ thread, thread ∈ state.mergeThreads ↔ state.phase thread = .running
  returns : (∀ thread, state.phase thread ≠ .running) → state.mergeThreadCount = 0 ∧ state.waiters = ∅ ∧
    ∀ waiter, step state (.sync waiter) = some { state with mergeThreads := ∅ }

theorem Settled.exact (h : Settled state) (hregistered : Registered state) : Exact state where
  deregistered thread hended hmem := by
    rw [h.running thread hmem] at hended
    rcases hended with hended | hended
    · cases hended
    · cases hended
  counted := by
    refine ⟨?_, fun thread => ⟨h.running thread, hregistered thread⟩⟩
    rw [State.mergeThreadCount, Finset.filter_true_of_mem fun thread hmem => by rw [h.running thread hmem]; rfl]
  returns hnone := by
    have hempty : state.mergeThreads = ∅ := Finset.eq_empty_of_forall_notMem fun thread hmem =>
      hnone thread (h.running thread hmem)
    have hcount : state.mergeThreadCount = 0 := by
      rw [State.mergeThreadCount, hempty, Finset.filter_empty, Finset.card_empty]
    refine ⟨hcount, Finset.not_nonempty_iff_eq_empty.mp fun hwaits => ?_, fun waiter => ?_⟩
    · obtain ⟨thread, hrunning⟩ := h.waited hwaits
      exact hnone thread hrunning
    · rw [step, hcount, if_neg (Nat.lt_irrefl 0)]

/-- In every run, a thread deregisters and notifies those that wait by the time its `run` ends if and only if no exception
gets past the clean-up; and a run in which none does keeps the registered threads exact. -/
theorem merge_threads_deregister_iff {actions : List Action} (hrun : Runs.run step .init actions = some state) :
    (∀ thread attempts state', step state (.runEnds thread attempts) = some state' →
      (thread ∉ state'.mergeThreads ∧ state'.waiters = ∅ ↔ Handled state.suppressExceptions attempts)) ∧
    (Runs.Legal step Deregisters .init actions → Exact state) := by
  have hregistered : Registered state :=
    Runs.run_invariant (fun _ _ _ h hstep => registered_step h hstep) (fun _ hrunning => by cases hrunning) hrun
  constructor
  · intro thread attempts state' hstep
    rw [step] at hstep
    split at hstep
    case isTrue hrunning =>
      obtain ⟨⟨scheduler, result⟩, hends, rfl⟩ := Option.map_eq_some_iff.mp hstep
      rcases runThread_spec hends with ⟨hhandled, rfl⟩ | ⟨hnot, hsame⟩
      · exact iff_of_true ⟨Finset.notMem_erase _ _, rfl⟩ hhandled
      · refine iff_of_false (fun hout => hout.1 ?_) hnot
        dsimp only
        rw [hsame]
        exact hregistered thread hrunning
    case isFalse => cases hstep
  · intro hlegal
    have hsettled : Settled state := Runs.legal_invariant (fun _ _ _ h hlegal hstep => settled_step h hlegal hstep)
      ⟨fun _ hmem => absurd hmem (Finset.notMem_empty _), fun hwaits => absurd hwaits Finset.not_nonempty_empty⟩ hlegal hrun
    exact hsettled.exact hregistered

/-- A merge is done, the next one is aborted, and another thread waits meanwhile. -/
def abortedMerge : List Action := [.launch 1, .sync 2,
  .runEnds 1 [⟨.ok (), .ok true, .ok ()⟩, ⟨.error .mergeAborted, .ok false, .ok ()⟩]]

theorem merge_threads_deregister_iff_abort : ∃ state, Runs.run step .init abortedMerge = some state ∧ Exact state := by
  have hlegal : Runs.Legal step Deregisters .init abortedMerge :=
    ⟨trivial, fun _ _ => ⟨trivial, fun _ _ => ⟨by simp [Deregisters, Handled, mergeLoop], fun _ _ => trivial⟩⟩⟩
  obtain ⟨state, hrun⟩ : ∃ state, Runs.run step .init abortedMerge = some state := ⟨_, rfl⟩
  exact ⟨state, hrun, (merge_threads_deregister_iff hrun).2 hlegal⟩

/-- When a merge fails, `run` ends while its thread is registered and counted, and the one that waits is not notified. -/
theorem failed_merge_stays_registered : ∃ state, Runs.run step .init [.launch 1, .sync 2,
    .runEnds 1 [⟨.error .lucene, .ok false, .ok ()⟩]] = some state ∧
      state.phase 1 = .ended ∧ 1 ∈ state.mergeThreads ∧ state.mergeThreadCount = 1 ∧ 2 ∈ state.waiters :=
  ⟨_, rfl, by decide, by decide, by decide, by decide⟩

end ConcurrentMergeScheduler
end LucenePlusPlus
