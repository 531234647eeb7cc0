import LucenePlusPlus.Holding
import LucenePlusPlus.Runs

/-!
How threads in `startCommit` share the work of syncing files. A thread syncs what is not synced yet and what
no other thread is syncing; it waits for the files that others are syncing. The parameter of
`waitForAllSynced` is named `syncing` as the set of the writer is, and hides it.

`wait` gives the lock back and then waits for a notification, some milliseconds at a time. What comes when the
thread is not in one of these waits (`parking`) is lost.
-/

namespace LucenePlusPlus

namespace SyncCoordination

/-- Where a thread is in the loop of `startCommit`: it has the files of its commit, those still to be gone
through, and those that others sync. -/
inductive Thread where
  | idle
  | starting (files todo pending : List String)
  | syncing (fileName : String) (files todo pending : List String)
  | parking (files pending : List String) (fileName : String) (todo : List String)
  | waiting (files pending : List String) (fileName : String) (todo : List String)
  | woken (files pending todo : List String)
  | returned (files pending : List String) (allSynced : Bool)
  deriving DecidableEq

structure State where
  synced : Finset String
  syncing : Finset String
  threads : Nat → Thread

/-- `notifyAll` reaches the threads that wait. -/
def Thread.notify : Thread → Thread
  | .waiting files pending fileName todo => .woken files pending (fileName :: todo)
  | thread => thread

namespace State

def init (synced : Finset String) : State := ⟨synced, ∅, fun _ => .idle⟩

def setThread (s : State) (t : Nat) (thread : Thread) : State :=
  { s with threads := Function.update s.threads t thread }

/-- Also gives what `pending` becomes. -/
def startSync (s : State) (fileName : String) (pending : List String) :
    Bool × State × List String :=
  if fileName ∉ s.synced then
    if fileName ∉ s.syncing then (true, { s with syncing := insert fileName s.syncing }, pending)
    else (false, s, pending.insert fileName)
  else (false, s, pending)

def finishSync (s : State) (fileName : String) (success : Bool) : Option State :=
  if fileName ∈ s.syncing then
    some
      { synced := if success then insert fileName s.synced else s.synced
        syncing := s.syncing.erase fileName
        threads := fun t => (s.threads t).notify }
  else none

/-- Where the thread is when it gives the lock back. -/
def waitForAllSynced (s : State) (files syncing : List String) : List String → Thread
  | [] => .returned files syncing true
  | fileName :: todo =>
      if fileName ∈ s.synced then s.waitForAllSynced files syncing todo
      else if fileName ∉ syncing then .returned files syncing false
      else .parking files syncing fileName todo

end State

/-- Each operation is of the thread `t`, and holds the lock. The pending files are gone through in any
order. -/
inductive Op where
  | startCommit (t : Nat) (files : List String)
  | startSync (t : Nat)
  | finishSync (t : Nat) (success : Bool)
  | waitForAllSynced (t : Nat) (order : List String)
  | park (t : Nat)
  | timeout (t : Nat)
  | wake (t : Nat)
  | resume (t : Nat)

open State in
def step (s : State) : Op → Option State
  | .startCommit t files =>
      match s.threads t with
      | .idle => some (s.setThread t (.starting files files []))
      | _ => none
  | .startSync t =>
      match s.threads t with
      | .starting files (fileName :: todo) pending =>
          let (start, s, pending) := s.startSync fileName pending
          some (s.setThread t
            (if start then .syncing fileName files todo pending else .starting files todo pending))
      | _ => none
  | .finishSync t success =>
      match s.threads t with
      | .syncing fileName files todo pending =>
          (s.finishSync fileName success).map fun s =>
            s.setThread t (if success then .starting files todo pending else .idle)
      | _ => none
  | .waitForAllSynced t order =>
      match s.threads t with
      | .starting files [] pending =>
          if order.Perm pending then some (s.setThread t (s.waitForAllSynced files pending order))
          else none
      | _ => none
  | .park t =>
      match s.threads t with
      | .parking files pending fileName todo =>
          some (s.setThread t (.waiting files pending fileName todo))
      | _ => none
  | .timeout t =>
      match s.threads t with
      | .waiting files pending fileName todo =>
          some (s.setThread t (.parking files pending fileName todo))
      | _ => none
  | .wake t =>
      match s.threads t with
      | .woken files pending todo => some (s.setThread t (s.waitForAllSynced files pending todo))
      | _ => none
  | .resume t =>
      match s.threads t with
      | .returned files _ allSynced =>
          some (s.setThread t (if allSynced then .idle else .starting files files []))
      | _ => none

namespace Thread

/-- The file that the thread is syncing. -/
def syncs : Thread → Option String
  | syncing fileName _ _ _ => some fileName
  | _ => none

/-- The file that the thread is blocked on. -/
def blockedOn : Thread → Option String
  | parking _ _ fileName _ | waiting _ _ fileName _ => some fileName
  | _ => none

/-- The file that the thread is blocked on, while no notification reaches it. -/
def parkingOn : Thread → Option String
  | parking _ _ fileName _ => some fileName
  | _ => none

/-- The files that the thread waits for. -/
def list : Thread → List String
  | starting _ _ pending | syncing _ _ _ pending | parking _ pending _ _ | waiting _ pending _ _
  | woken _ pending _ | returned _ pending _ => pending
  | idle => []

/-- Where the thread stands in its list: the files that it has passed are synced. -/
def Listed (synced : Finset String) : Thread → Prop
  | parking _ pending fileName todo | waiting _ pending fileName todo =>
      fileName ∈ pending ∧ (∀ f ∈ todo, f ∈ pending) ∧
        ∀ f ∈ pending, f ∈ synced ∨ f ∈ fileName :: todo
  | woken _ pending todo => (∀ f ∈ todo, f ∈ pending) ∧ ∀ f ∈ pending, f ∈ synced ∨ f ∈ todo
  | returned _ pending allSynced => allSynced = true → ∀ f ∈ pending, f ∈ synced
  | _ => True

end Thread

/-- A file is synced by one thread at a time; a thread is blocked on a file of its list that another one
syncs, hence on none that is neither synced nor being synced; and it goes on when all files of its list are
synced. -/
structure Coordinated (s : State) : Prop where
  exclusive : ∀ t t' fileName, (s.threads t).syncs = some fileName →
    (s.threads t').syncs = some fileName → t = t'
  blocked : ∀ t fileName, (s.threads t).blockedOn = some fileName →
    fileName ∈ (s.threads t).list ∧ ∃ t', (s.threads t').syncs = some fileName
  returned : ∀ t files pending, s.threads t = .returned files pending true →
    ∀ fileName ∈ pending, fileName ∈ s.synced

/-- The first of the files that is not synced is being synced. -/
def FirstSyncing (s : State) (todo : List String) : Prop :=
  ∀ fileName, todo.find? (· ∉ s.synced) = some fileName → fileName ∈ s.syncing

/-- A thread that looks for what to wait for finds no file that failed to sync, and the notification of a file
reaches the threads that are blocked on it. -/
def Meets (s : State) : Op → Prop
  | .waitForAllSynced _ order => FirstSyncing s order
  | .wake t => ∀ files pending todo, s.threads t = .woken files pending todo → FirstSyncing s todo
  | .finishSync t _ => ∀ t' fileName, (s.threads t).syncs = some fileName →
      (s.threads t').parkingOn ≠ some fileName
  | _ => True

/-- The files that threads sync. -/
def State.syncs (s : State) (t : Nat) : Option String := (s.threads t).syncs

structure Inv (s : State) : Prop where
  holding : Holding s.syncing s.syncs
  listed : ∀ t, (s.threads t).Listed s.synced

variable {s s' : State} {t : Nat} {thread : Thread} {files pending todo : List String} {fileName : String}

@[simp] theorem synced_setThread : (s.setThread t thread).synced = s.synced := rfl

@[simp] theorem syncing_setThread : (s.setThread t thread).syncing = s.syncing := rfl

@[simp] theorem threads_setThread_self : (s.setThread t thread).threads t = thread :=
  Function.update_self ..

theorem threads_setThread_of_ne {t' : Nat} (h : t' ≠ t) :
    (s.setThread t thread).threads t' = s.threads t' :=
  Function.update_of_ne h ..

theorem Thread.Listed.mono {synced synced' : Finset String} (h : thread.Listed synced)
    (hsub : synced ⊆ synced') : thread.Listed synced' := by
  cases thread with
  | idle | starting | syncing => trivial
  | parking | waiting => exact ⟨h.1, h.2.1, fun f hf => (h.2.2 f hf).imp_left (@hsub f)⟩
  | woken => exact ⟨h.1, fun f hf => (h.2 f hf).imp_left (@hsub f)⟩
  | returned => exact fun hall f hf => hsub (h hall f hf)

theorem Thread.Listed.notify {synced : Finset String} (h : thread.Listed synced) :
    thread.notify.Listed synced := by
  cases thread with
  | waiting files pending fileName todo =>
      refine ⟨fun f hf => ?_, h.2.2⟩
      rcases List.mem_cons.mp hf with rfl | hf
      · exact h.1
      · exact h.2.1 f hf
  | _ => exact h

@[simp] theorem Thread.syncs_notify : thread.notify.syncs = thread.syncs := by
  cases thread <;> rfl

theorem Thread.blockedOn_notify : thread.notify.blockedOn = thread.parkingOn := by
  cases thread <;> rfl

theorem Thread.blockedOn_of_parkingOn (h : thread.parkingOn = some fileName) :
    thread.blockedOn = some fileName := by
  cases thread <;> first | exact h | cases h

theorem waitForAllSynced_spec (hsub : ∀ f ∈ todo, f ∈ pending)
    (hpassed : ∀ f ∈ pending, f ∈ s.synced ∨ f ∈ todo) :
    (s.waitForAllSynced files pending todo).Listed s.synced ∧
      (s.waitForAllSynced files pending todo).syncs = none ∧
      (s.waitForAllSynced files pending todo).blockedOn = todo.find? (· ∉ s.synced) := by
  induction todo with
  | nil => exact ⟨fun _ f hf => (hpassed f hf).resolve_right List.not_mem_nil, rfl, rfl⟩
  | cons fileName todo ih =>
      have hrest : ∀ f ∈ todo, f ∈ pending := fun f hf => hsub f (List.mem_cons_of_mem _ hf)
      rw [State.waitForAllSynced]
      by_cases hsynced : fileName ∈ s.synced
      · rw [if_pos hsynced, List.find?_cons_of_neg (by simpa using hsynced)]
        refine ih hrest fun f hf => ?_
        rcases hpassed f hf with hf | hf
        · exact Or.inl hf
        · rcases List.mem_cons.mp hf with rfl | hf
          · exact Or.inl hsynced
          · exact Or.inr hf
      · have hmem : fileName ∈ pending := hsub fileName List.mem_cons_self
        rw [if_neg hsynced, if_neg (not_not_intro hmem), List.find?_cons_of_pos (by simpa using hsynced)]
        exact ⟨⟨hmem, hrest, hpassed⟩, rfl, rfl⟩

/-! ### Steps of one thread -/

theorem syncs_setThread : (s.setThread t thread).syncs = Function.update s.syncs t thread.syncs := by
  funext t'
  exact Function.apply_update (fun _ => Thread.syncs) s.threads t thread t'

theorem listed_setThread (h : ∀ t', (s.threads t').Listed s.synced) (hthread : thread.Listed s.synced)
    (t' : Nat) : ((s.setThread t thread).threads t').Listed s.synced := by
  by_cases heq : t' = t
  · rw [heq, threads_setThread_self]
    exact hthread
  · rw [threads_setThread_of_ne heq]
    exact h t'

theorem Inv.setThread (h : Inv s) (hsyncs : thread.syncs = (s.threads t).syncs)
    (hlisted : thread.Listed s.synced) : Inv (s.setThread t thread) where
  holding := by
    rw [syncs_setThread, hsyncs]
    exact (Function.update_eq_self t s.syncs).symm ▸ h.holding
  listed := listed_setThread h.listed hlisted

/-- Every thread that is blocked is blocked on a file that is being synced. -/
def BlockedOnSyncing (s : State) : Prop :=
  ∀ t fileName, (s.threads t).blockedOn = some fileName → fileName ∈ s.syncing

theorem blockedOnSyncing_setThread (h : BlockedOnSyncing s) :
    BlockedOnSyncing (s.setThread t thread) ↔
      ∀ fileName, thread.blockedOn = some fileName → fileName ∈ s.syncing := by
  constructor
  · intro h' f hf
    exact h' t f (by rwa [threads_setThread_self])
  · intro hthread t' f hf
    by_cases heq : t' = t
    · rw [heq, threads_setThread_self] at hf
      exact hthread f hf
    · rw [threads_setThread_of_ne heq] at hf
      exact h t' f hf

/-- What each operation does to the invariant, and when it leaves threads blocked for nothing. -/
def StepsTo (s : State) (op : Op) (s' : State) : Prop :=
  Inv s' ∧ (BlockedOnSyncing s → (BlockedOnSyncing s' ↔ Meets s op))

theorem stepsTo_of_not_blocked {op : Op} (hmeets : Meets s op) (h : Inv s)
    (hsyncs : thread.syncs = (s.threads t).syncs) (hlisted : thread.Listed s.synced)
    (hblocked : thread.blockedOn = none) : StepsTo s op (s.setThread t thread) :=
  ⟨h.setThread hsyncs hlisted, fun hB => iff_of_true
    ((blockedOnSyncing_setThread hB).mpr fun f hf => by rw [hblocked] at hf; cases hf) hmeets⟩

theorem stepsTo_of_blocked {op : Op} (hmeets : Meets s op) (h : Inv s)
    (hsyncs : thread.syncs = (s.threads t).syncs) (hlisted : thread.Listed s.synced)
    (hblocked : thread.blockedOn = (s.threads t).blockedOn) : StepsTo s op (s.setThread t thread) :=
  ⟨h.setThread hsyncs hlisted, fun hB => iff_of_true
    ((blockedOnSyncing_setThread hB).mpr fun f hf => hB t f (hblocked ▸ hf)) hmeets⟩

theorem stepsTo_waitForAllSynced {op : Op} (h : Inv s) (hsyncs : (s.threads t).syncs = none)
    (hsub : ∀ f ∈ todo, f ∈ pending) (hpassed : ∀ f ∈ pending, f ∈ s.synced ∨ f ∈ todo)
    (hmeets : Meets s op ↔ FirstSyncing s todo) :
    StepsTo s op (s.setThread t (s.waitForAllSynced files pending todo)) := by
  obtain ⟨hlisted, hnone, hblocked⟩ := @waitForAllSynced_spec _ files _ _ hsub hpassed
  refine ⟨h.setThread (hnone.trans hsyncs.symm) hlisted, fun hB => ?_⟩
  rw [blockedOnSyncing_setThread hB, hblocked, hmeets]
  exact Iff.rfl

theorem stepsTo_startSync (h : Inv s) (ht : s.threads t = .starting files (fileName :: todo) pending) :
    let (start, s₁, pending) := s.startSync fileName pending
    StepsTo s (.startSync t) (s₁.setThread t
      (if start then .syncing fileName files todo pending else .starting files todo pending)) := by
  have hnone : (s.threads t).syncs = none := by rw [ht]; rfl
  unfold State.startSync
  by_cases hsynced : fileName ∈ s.synced
  · rw [if_neg (not_not_intro hsynced)]
    exact stepsTo_of_not_blocked trivial h hnone.symm trivial rfl
  rw [if_pos hsynced]
  by_cases hsyncing : fileName ∈ s.syncing
  · rw [if_neg (not_not_intro hsyncing)]
    exact stepsTo_of_not_blocked trivial h hnone.symm trivial rfl
  rw [if_pos hsyncing]
  refine ⟨⟨?_, listed_setThread h.listed trivial⟩, fun hB => iff_of_true ?_ trivial⟩
  · rw [syncs_setThread]
    exact h.holding.take hnone hsyncing
  · have hgrown : BlockedOnSyncing { s with syncing := insert fileName s.syncing } :=
      fun t' f hf => Finset.mem_insert_of_mem (hB t' f hf)
    exact (blockedOnSyncing_setThread hgrown).mpr nofun

theorem stepsTo_finishSync {success : Bool} (h : Inv s)
    (ht : s.threads t = .syncing fileName files todo pending) :
    ∃ s₁, s.finishSync fileName success = some s₁ ∧ StepsTo s (.finishSync t success)
      (s₁.setThread t (if success then .starting files todo pending else .idle)) := by
  have hthread : s.syncs t = some fileName := by rw [State.syncs, ht]; rfl
  have hmem : fileName ∈ s.syncing := (h.holding.mem_iff fileName).mpr ⟨t, hthread⟩
  obtain ⟨thread, hnew⟩ : ∃ thread, (if success then Thread.starting files todo pending else .idle) =
    thread := ⟨_, rfl⟩
  have hquiet : thread.syncs = none ∧ thread.blockedOn = none ∧ ∀ synced, thread.Listed synced := by
    cases success <;> cases hnew <;> exact ⟨rfl, rfl, fun _ => trivial⟩
  have hsub : s.synced ⊆ if success then insert fileName s.synced else s.synced := by
    cases success
    · exact Finset.Subset.refl _
    · exact Finset.subset_insert fileName s.synced
  rw [State.finishSync, if_pos hmem, hnew]
  refine ⟨_, rfl, ⟨?_, listed_setThread (fun t' => ((h.listed t').mono hsub).notify) (hquiet.2.2 _)⟩,
    fun hB => ?_⟩
  · rw [syncs_setThread, hquiet.1]
    have hnotify : (fun t' => (s.threads t').notify.syncs) = s.syncs :=
      funext fun t' => Thread.syncs_notify
    show Holding (s.syncing.erase fileName)
      (Function.update (fun t' => (s.threads t').notify.syncs) t none)
    rw [hnotify]
    exact h.holding.release hthread
  · constructor
    · intro hB' t' f hf hparking
      cases hthread.symm.trans hf
      have hne : t' ≠ t := by
        rintro rfl
        rw [ht] at hparking
        cases hparking
      have := hB' t' fileName (by
        rw [threads_setThread_of_ne hne]
        exact Thread.blockedOn_notify.trans hparking)
      exact absurd rfl (Finset.mem_erase.mp this).1
    · intro hmeets t' f hf
      by_cases heq : t' = t
      · rw [heq, threads_setThread_self, hquiet.2.1] at hf
        cases hf
      · rw [threads_setThread_of_ne heq] at hf
        have hparking : (s.threads t').parkingOn = some f := Thread.blockedOn_notify.symm.trans hf
        refine Finset.mem_erase.mpr ⟨?_, hB t' f (Thread.blockedOn_of_parkingOn hparking)⟩
        rintro rfl
        exact hmeets t' f hthread hparking

theorem step_spec {op : Op} (h : Inv s) (hstep : step s op = some s') : StepsTo s op s' := by
  cases op with
  | startCommit t files =>
      simp only [step] at hstep
      split at hstep
      · rename_i ht
        cases hstep
        exact stepsTo_of_not_blocked trivial h (by rw [ht]; rfl) trivial rfl
      · cases hstep
  | startSync t =>
      simp only [step] at hstep
      split at hstep
      · rename_i files fileName todo pending ht
        cases hstep
        exact stepsTo_startSync h ht
      · cases hstep
  | finishSync t success =>
      simp only [step] at hstep
      split at hstep
      · rename_i fileName files todo pending ht
        obtain ⟨s₁, hfinish, hsteps⟩ := stepsTo_finishSync h ht
        rw [hfinish] at hstep
        cases hstep
        exact hsteps
      · cases hstep
  | waitForAllSynced t order =>
      simp only [step] at hstep
      split at hstep
      · rename_i files pending ht
        split at hstep
        · rename_i hperm
          cases hstep
          exact stepsTo_waitForAllSynced h (by rw [ht]; rfl) (fun f hf => hperm.subset hf)
            (fun f hf => Or.inr (hperm.symm.subset hf)) Iff.rfl
        · cases hstep
      · cases hstep
  | park t =>
      simp only [step] at hstep
      split at hstep
      · rename_i files pending fileName todo ht
        cases hstep
        have hlisted := h.listed t
        rw [ht] at hlisted
        exact stepsTo_of_blocked trivial h (by rw [ht]; rfl) hlisted (by rw [ht]; rfl)
      · cases hstep
  | timeout t =>
      simp only [step] at hstep
      split at hstep
      · rename_i files pending fileName todo ht
        cases hstep
        have hlisted := h.listed t
        rw [ht] at hlisted
        exact stepsTo_of_blocked trivial h (by rw [ht]; rfl) hlisted (by rw [ht]; rfl)
      · cases hstep
  | wake t =>
      simp only [step] at hstep
      split at hstep
      · rename_i files pending todo ht
        cases hstep
        have hlisted := h.listed t
        rw [ht] at hlisted
        refine stepsTo_waitForAllSynced h (by rw [ht]; rfl) hlisted.1 hlisted.2 ?_
        constructor
        · exact fun hmeets => hmeets files pending todo ht
        · intro hfirst files' pending' todo' ht'
          cases ht.symm.trans ht'
          exact hfirst
      · cases hstep
  | resume t =>
      simp only [step] at hstep
      split at hstep
      · rename_i files pending allSynced ht
        cases hstep
        refine stepsTo_of_not_blocked trivial h ?_ ?_ ?_ <;> cases allSynced <;>
          first | trivial | rfl | (rw [ht]; rfl)
      · cases hstep

theorem Inv.coordinated_iff_blocked (h : Inv s) : Coordinated s ↔ BlockedOnSyncing s := by
  constructor
  · intro hc t f hf
    exact (h.holding.mem_iff f).mpr (hc.blocked t f hf).2
  · intro hB
    refine ⟨h.holding.exclusive, fun t f hf => ⟨?_, (h.holding.mem_iff f).mp (hB t f hf)⟩,
      fun t files pending ht => ?_⟩
    · have hlisted := h.listed t
      cases hthread : s.threads t with
      | parking | waiting =>
          rw [hthread] at hf hlisted
          cases hf
          exact hlisted.1
      | _ =>
          rw [hthread] at hf
          cases hf
    · have hlisted := h.listed t
      rw [ht] at hlisted
      exact hlisted rfl

theorem inv_init (synced : Finset String) : Inv (.init synced) where
  holding := ⟨fun f => iff_of_false (Finset.notMem_empty f) nofun, nofun⟩
  listed _ := trivial

/-- A run goes as it should exactly when no thread that looks for what to wait for finds that a file failed to
sync, and no notification misses a thread that is blocked on the file. -/
theorem coordinated_iff_meets {synced : Finset String} {ops : List Op}
    (hrun : Runs.run step (.init synced) ops = some s) :
    Runs.Always step Coordinated (.init synced) ops ↔ Runs.Legal step Meets (.init synced) ops := by
  have hinit : Coordinated (.init synced) := (inv_init synced).coordinated_iff_blocked.mpr nofun
  refine Runs.always_iff_legal (I := Inv) (fun s a s' h hstep => (step_spec h hstep).1)
    (fun s a s' h hc hstep => ?_) (inv_init synced) hinit hrun
  obtain ⟨h', hiff⟩ := step_spec h hstep
  rw [h'.coordinated_iff_blocked]
  exact hiff (h.coordinated_iff_blocked.mp hc)

/-- Two threads commit the same file: the first one syncs it, and the second one waits. -/
def shared : List Op :=
  [.startCommit 0 ["_0.cfs"], .startSync 0, .startCommit 1 ["_0.cfs"], .startSync 1]

theorem coordinated_iff_meets_shared :
    Runs.Always step Coordinated (.init ∅)
        (shared ++ [.waitForAllSynced 1 ["_0.cfs"], .park 1, .finishSync 0 true, .wake 1]) ↔
      Runs.Legal step Meets (.init ∅)
        (shared ++ [.waitForAllSynced 1 ["_0.cfs"], .park 1, .finishSync 0 true, .wake 1]) :=
  coordinated_iff_meets (Option.some_get (by decide)).symm

/-- The sync fails, and the second thread is blocked on a file that nobody syncs. -/
theorem failed_sync_blocks :
    ∃ s, Runs.run step (.init ∅) (shared ++ [.finishSync 0 false, .waitForAllSynced 1 ["_0.cfs"]]) =
        some s ∧ (s.threads 1).blockedOn = some "_0.cfs" ∧ "_0.cfs" ∉ s.synced ∧
      (∀ t, (s.threads t).syncs ≠ some "_0.cfs") ∧ ¬ Coordinated s := by
  have hrun : ∃ s, Runs.run step (.init ∅)
      (shared ++ [.finishSync 0 false, .waitForAllSynced 1 ["_0.cfs"]]) = some s ∧
      (s.threads 1).blockedOn = some "_0.cfs" ∧ "_0.cfs" ∉ s.synced ∧ "_0.cfs" ∉ s.syncing :=
    ⟨_, (Option.some_get (by decide)).symm, by decide, by decide, by decide⟩
  obtain ⟨s, hrun, hblocked, hsynced, hsyncing⟩ := hrun
  have h : Inv s := Runs.run_invariant (fun s a s' h hstep => (step_spec h hstep).1) (inv_init ∅) hrun
  have hnone : ∀ t, (s.threads t).syncs ≠ some "_0.cfs" := fun t ht =>
    hsyncing ((h.holding.mem_iff _).mpr ⟨t, ht⟩)
  refine ⟨s, hrun, hblocked, hsynced, hnone, fun hc => ?_⟩
  obtain ⟨-, t, ht⟩ := hc.blocked 1 _ hblocked
  exact hnone t ht

end SyncCoordination
end LucenePlusPlus
