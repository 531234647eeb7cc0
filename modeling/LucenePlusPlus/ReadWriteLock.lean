import LucenePlusPlus.Runs
import Mathlib.Algebra.BigOperators.Fin
import Mathlib.Data.Fintype.Card
import Mathlib.Tactic.Ring

/-!
The lock of `IndexWriter` that lets one `addIndexes` proceed at once: a thread that writes, a count of those
that read, and of those that read and wait to write instead. The thread that writes may read as well.

A thread that waits gives the lock of the writer back and checks again later (`wake`); all else is done while
holding it. An operation that would break an assertion of the code is `none`.
-/

namespace LucenePlusPlus
namespace ReadWriteLock

/-- Where a thread is. -/
inductive Place where
  | outside
  | waitRead
  | reading
  | waitUpgrade
  | waitWrite
  | writing
  | writingReading
  deriving DecidableEq

structure State (Thread : Type) where
  readCount : Int
  writeThread : Option Thread
  upgradeCount : Int
  isOpen : Bool
  places : Thread → Place

namespace State
variable {Thread : Type} [DecidableEq Thread]

def init (Thread : Type) (isOpen : Bool) : State Thread := ⟨0, none, 0, isOpen, fun _ => .outside⟩

def move (s : State Thread) (t : Thread) (place : Place) : State Thread :=
  { s with places := Function.update s.places t place }

/-- The place of a thread that gets the lock to read. -/
def readingPlace (s : State Thread) (t : Thread) : Place :=
  if s.places t = .writing then .writingReading else .reading

def acquireRead (s : State Thread) (t : Thread) : State Thread :=
  if s.writeThread ≠ none ∧ s.writeThread ≠ some t then s.move t .waitRead
  else { s with readCount := s.readCount + 1 }.move t (s.readingPlace t)

/-- The writer may have been closed in the meantime, and an exception is raised. -/
def acquireWrite (s : State Thread) (t : Thread) : State Thread :=
  if s.writeThread ≠ none ∨ 0 < s.readCount then s.move t .waitWrite
  else if s.isOpen then { s with writeThread := some t }.move t .writing
  else s.move t .outside

/-- The loop of `upgradeReadToWrite`, and what comes after it. -/
def upgrade (s : State Thread) (t : Thread) : State Thread :=
  if s.upgradeCount < s.readCount ∨ s.writeThread ≠ none then s.move t .waitUpgrade
  else
    { s with
      writeThread := some t
      readCount := s.readCount - 1
      upgradeCount := s.upgradeCount - 1 }.move t .writing

def upgradeReadToWrite (s : State Thread) (t : Thread) : Option (State Thread) :=
  if 0 < s.readCount then some ({ s with upgradeCount := s.upgradeCount + 1 }.upgrade t) else none

def releaseRead (s : State Thread) (t : Thread) : Option (State Thread) :=
  if 0 ≤ s.readCount - 1 then
    let place := if s.places t = .writingReading then Place.writing else .outside
    some ({ s with readCount := s.readCount - 1 }.move t place)
  else none

def releaseWrite (s : State Thread) (t : Thread) : Option (State Thread) :=
  if s.writeThread = some t then some ({ s with writeThread := none }.move t .outside) else none

end State

inductive Op (Thread : Type) where
  | acquireRead (t : Thread)
  | upgradeReadToWrite (t : Thread)
  | acquireWrite (t : Thread)
  | releaseRead (t : Thread)
  | releaseWrite (t : Thread)
  | wake (t : Thread)
  | setOpen (isOpen : Bool)

variable {Thread : Type} [DecidableEq Thread]

def step (s : State Thread) : Op Thread → Option (State Thread)
  | .acquireRead t => some (s.acquireRead t)
  | .upgradeReadToWrite t => s.upgradeReadToWrite t
  | .acquireWrite t => if s.writeThread ≠ some t then some (s.acquireWrite t) else none
  | .releaseRead t => s.releaseRead t
  | .releaseWrite t => s.releaseWrite t
  | .wake t =>
      match s.places t with
      | .waitRead => some (s.acquireRead t)
      | .waitUpgrade => some (s.upgrade t)
      | .waitWrite => some (s.acquireWrite t)
      | _ => some s
  | .setOpen isOpen => some { s with isOpen }

/-- How `IndexWriter` pairs the calls: `addIndexes(readers)` reads and upgrades, other transactions write,
and all else reads, at most once, also while a transaction of the same thread rolls back. -/
def Legal (s : State Thread) : Op Thread → Prop
  | .acquireRead t => s.places t = .outside ∨ s.places t = .writing
  | .upgradeReadToWrite t => s.places t = .reading
  | .acquireWrite t => s.places t = .outside
  | .releaseRead t => s.places t = .reading ∨ s.places t = .writingReading
  | .releaseWrite t => s.places t = .writing
  | _ => True

instance (s : State Thread) (op : Op Thread) : Decidable (Legal s op) := by
  cases op <;> unfold Legal <;> infer_instance

namespace Place

/-- The thread holds the lock to write. -/
def writes : Place → Bool
  | writing | writingReading => true
  | _ => false

/-- The thread holds the lock to read. -/
def reads : Place → Bool
  | reading | waitUpgrade | writingReading => true
  | _ => false

/-- The thread waits to write instead. -/
def upgrades : Place → Bool
  | waitUpgrade => true
  | _ => false

theorem eq_of_upgrades {place : Place} (h : place.upgrades = true) : place = waitUpgrade := by
  cases place <;> first | rfl | cases h

end Place

variable [Fintype Thread]

/-- How many threads are at such a place. -/
def number (p : Place → Bool) (places : Thread → Place) : Nat :=
  (Finset.univ.filter fun t => p (places t) = true).card

/-- One thread at most writes, while other threads read only if they wait to write; and the counts are those
of the threads, hence zero when none holds the lock. -/
structure Exclusive (s : State Thread) : Prop where
  writer_unique : ∀ t t', (s.places t).writes = true → (s.places t').writes = true → t = t'
  readers_upgrade : ∀ w t, (s.places w).writes = true → (s.places t).reads = true → t ≠ w →
    s.places t = .waitUpgrade
  readCount_eq : s.readCount = number Place.reads s.places
  upgradeCount_eq : s.upgradeCount = number Place.upgrades s.places
  released : (∀ t, (s.places t).reads = false ∧ (s.places t).writes = false) →
    s.readCount = 0 ∧ s.upgradeCount = 0

/-! ### The invariant -/

variable {s s' : State Thread} {t : Thread} {place : Place} {p : Place → Bool} {places : Thread → Place}

theorem number_update (p : Place → Bool) (places : Thread → Place) (t : Thread) (place : Place) :
    (number p (Function.update places t place) : Int) =
      number p places - (if p (places t) then 1 else 0) + (if p place then 1 else 0) := by
  have hsum : ∀ places : Thread → Place,
      (number p places : Int) = ∑ t, if p (places t) = true then (1 : Int) else 0 := by
    intro places
    rw [number, Finset.card_filter]
    push_cast
    rfl
  have hupdate : (fun t' => if p (Function.update places t place t') = true then (1 : Int) else 0) =
      Function.update (fun t' => if p (places t') = true then (1 : Int) else 0) t
        (if p place = true then 1 else 0) := by
    funext t'
    exact Function.apply_update (fun _ place => if p place = true then (1 : Int) else 0) places t place t'
  have hrest := Finset.add_sum_erase Finset.univ
    (fun t' => if p (places t') = true then (1 : Int) else 0) (Finset.mem_univ t)
  rw [hsum, hsum, hupdate, Finset.sum_update_of_mem (Finset.mem_univ t),
    Finset.sdiff_singleton_eq_erase, ← hrest]
  ring

structure Inv (s : State Thread) : Prop where
  writer : ∀ t, s.writeThread = some t ↔ (s.places t).writes = true
  readers : ∀ w t, s.writeThread = some w → (s.places t).reads = true → t ≠ w →
    s.places t = .waitUpgrade
  readCount_eq : s.readCount = number Place.reads s.places
  upgradeCount_eq : s.upgradeCount = number Place.upgrades s.places

omit [DecidableEq Thread] in
theorem Inv.exclusive (h : Inv s) : Exclusive s where
  writer_unique t t' ht ht' :=
    Option.some.inj (((h.writer t).mpr ht).symm.trans ((h.writer t').mpr ht'))
  readers_upgrade w t hw ht hne := h.readers w t ((h.writer w).mpr hw) ht hne
  readCount_eq := h.readCount_eq
  upgradeCount_eq := h.upgradeCount_eq
  released hnone := by
    have hreads : number Place.reads s.places = 0 :=
      Finset.card_eq_zero.mpr (Finset.filter_eq_empty_iff.mpr fun t _ => by simp [(hnone t).1])
    have hupgrades : number Place.upgrades s.places = 0 := by
      refine Finset.card_eq_zero.mpr (Finset.filter_eq_empty_iff.mpr fun t _ hup => ?_)
      have hreads := (hnone t).1
      rw [Place.eq_of_upgrades hup] at hreads
      cases hreads
    exact ⟨by rw [h.readCount_eq, hreads]; rfl, by rw [h.upgradeCount_eq, hupgrades]; rfl⟩

omit [DecidableEq Thread] in
theorem inv_init (isOpen : Bool) : Inv (.init Thread isOpen) := by
  have hnone : ∀ p : Place → Bool, p .outside = false →
      number p (State.init Thread isOpen).places = 0 := fun p hp =>
    Finset.card_eq_zero.mpr (Finset.filter_eq_empty_iff.mpr fun t _ => by simp [State.init, hp])
  refine ⟨fun t => iff_of_false nofun nofun, nofun, ?_, ?_⟩
  · rw [hnone _ rfl]
    rfl
  · rw [hnone _ rfl]
    rfl

theorem Inv.move (h : Inv s) {readCount upgradeCount : Int} {writeThread : Option Thread}
    (hwriter : ∀ t', writeThread = some t' ↔ (Function.update s.places t place t').writes = true)
    (hreaders : ∀ w t', writeThread = some w → (Function.update s.places t place t').reads = true →
      t' ≠ w → Function.update s.places t place t' = .waitUpgrade)
    (hread : readCount = s.readCount - (if (s.places t).reads then 1 else 0) +
      (if place.reads then 1 else 0))
    (hupgrade : upgradeCount = s.upgradeCount - (if (s.places t).upgrades then 1 else 0) +
      (if place.upgrades then 1 else 0)) :
    Inv ({ s with readCount, upgradeCount, writeThread }.move t place) where
  writer := hwriter
  readers := hreaders
  readCount_eq := by
    rw [h.readCount_eq] at hread
    exact hread.trans (number_update Place.reads s.places t place).symm
  upgradeCount_eq := by
    rw [h.upgradeCount_eq] at hupgrade
    exact hupgrade.trans (number_update Place.upgrades s.places t place).symm

theorem Inv.move_same (h : Inv s) {readCount upgradeCount : Int}
    (hwrites : place.writes = (s.places t).writes)
    (hreads : ∀ w, s.writeThread = some w → t ≠ w → place.reads = true → place = .waitUpgrade)
    (hread : readCount = s.readCount - (if (s.places t).reads then 1 else 0) +
      (if place.reads then 1 else 0))
    (hupgrade : upgradeCount = s.upgradeCount - (if (s.places t).upgrades then 1 else 0) +
      (if place.upgrades then 1 else 0)) :
    Inv ({ s with readCount, upgradeCount }.move t place) := by
  refine h.move (fun t' => ?_) (fun w t' hw hr hne => ?_) hread hupgrade
  · by_cases heq : t' = t
    · rw [heq, Function.update_self, hwrites]
      exact h.writer t
    · rw [Function.update_of_ne heq]
      exact h.writer t'
  · by_cases heq : t' = t
    · subst heq
      rw [Function.update_self] at hr ⊢
      exact hreads w hw hne hr
    · rw [Function.update_of_ne heq] at hr ⊢
      exact h.readers w t' hw hr hne

theorem Inv.move_writing (h : Inv s) {readCount upgradeCount : Int} (hnone : s.writeThread = none)
    (hreaders : ∀ t', t' ≠ t → (s.places t').reads = true → s.places t' = .waitUpgrade)
    (hread : readCount = s.readCount - (if (s.places t).reads then 1 else 0))
    (hupgrade : upgradeCount = s.upgradeCount - (if (s.places t).upgrades then 1 else 0)) :
    Inv ({ s with readCount, upgradeCount, writeThread := some t }.move t .writing) := by
  refine h.move (fun t' => ?_) (fun w t' hw hr hne => ?_) (by simpa [Place.reads] using hread)
    (by simpa [Place.upgrades] using hupgrade)
  · by_cases heq : t' = t
    · rw [heq, Function.update_self]
      exact iff_of_true rfl rfl
    · rw [Function.update_of_ne heq, ← h.writer t', hnone]
      exact iff_of_false (fun hsome => heq (Option.some.inj hsome).symm) nofun
  · cases hw
    rw [Function.update_of_ne hne] at hr ⊢
    exact hreaders t' hne hr

theorem Inv.acquireRead (h : Inv s)
    (hplace : s.places t = .outside ∨ s.places t = .writing ∨ s.places t = .waitRead) :
    Inv (s.acquireRead t) := by
  unfold State.acquireRead
  split
  · rename_i hwait
    have hwrites : (s.places t).writes = false := by
      rw [← Bool.not_eq_true, ← h.writer t]
      exact hwait.2
    refine h.move_same hwrites.symm nofun ?_ ?_ <;>
      rcases hplace with hp | hp | hp <;> simp [hp, Place.reads, Place.upgrades]
  · rename_i hfree
    have hself : ∀ w, s.writeThread = some w → w = t := fun w hw => by
      by_contra hne
      exact hfree ⟨by rw [hw]; nofun, by rw [hw]; exact fun heq => hne (Option.some.inj heq)⟩
    refine h.move_same ?_ (fun w hw hne => absurd (hself w hw).symm hne) ?_ ?_ <;>
      rcases hplace with hp | hp | hp <;>
        simp [State.readingPlace, hp, Place.reads, Place.upgrades, Place.writes]

theorem Inv.acquireWrite (h : Inv s) (hplace : s.places t = .outside ∨ s.places t = .waitWrite) :
    Inv (s.acquireWrite t) := by
  unfold State.acquireWrite
  split
  · refine h.move_same ?_ nofun ?_ ?_ <;>
      rcases hplace with hp | hp <;> simp [hp, Place.reads, Place.upgrades, Place.writes]
  rename_i hfree
  rw [not_or, not_not, not_lt] at hfree
  split
  · have hnoReaders : ∀ t', (s.places t').reads = true → False := by
      intro t' hr
      have hzero : number Place.reads s.places = 0 := by
        have := h.readCount_eq
        omega
      have hempty := Finset.filter_eq_empty_iff.mp (Finset.card_eq_zero.mp hzero)
      exact hempty (Finset.mem_univ t') hr
    refine h.move_writing hfree.1 (fun t' _ hr => (hnoReaders t' hr).elim) ?_ ?_ <;>
      rcases hplace with hp | hp <;> simp [hp, Place.reads, Place.upgrades]
  · refine h.move_same ?_ nofun ?_ ?_ <;>
      rcases hplace with hp | hp <;> simp [hp, Place.reads, Place.upgrades, Place.writes]

omit [DecidableEq Thread] in
theorem Inv.all_upgrade (h : Inv s) (hle : s.readCount ≤ s.upgradeCount) {t' : Thread}
    (hr : (s.places t').reads = true) : s.places t' = .waitUpgrade := by
  have hcard : number Place.reads s.places ≤ number Place.upgrades s.places := by
    have h₁ := h.readCount_eq
    have h₂ := h.upgradeCount_eq
    omega
  have hsub : (Finset.univ.filter fun t => (s.places t).upgrades = true) ⊆
      Finset.univ.filter fun t => (s.places t).reads = true := by
    intro t ht
    rw [Finset.mem_filter] at ht ⊢
    rw [Place.eq_of_upgrades ht.2]
    exact ⟨ht.1, rfl⟩
  have heq := Finset.eq_of_subset_of_card_le hsub hcard
  have hmem : t' ∈ Finset.univ.filter fun t => (s.places t).upgrades = true :=
    heq ▸ Finset.mem_filter.mpr ⟨Finset.mem_univ t', hr⟩
  exact Place.eq_of_upgrades (Finset.mem_filter.mp hmem).2

theorem Inv.upgrade (h : Inv s) (hplace : s.places t = .waitUpgrade) : Inv (s.upgrade t) := by
  unfold State.upgrade
  split
  · refine h.move_same (by rw [hplace]) (fun _ _ _ _ => rfl) ?_ ?_ <;> simp [hplace]
  · rename_i hfree
    rw [not_or, not_not, not_lt] at hfree
    refine h.move_writing hfree.2 (fun t' _ => h.all_upgrade hfree.1) ?_ ?_ <;>
      simp [hplace, Place.reads, Place.upgrades]

theorem Inv.upgradeReadToWrite (h : Inv s) (hplace : s.places t = .reading) :
    ∃ s', s.upgradeReadToWrite t = some s' ∧ Inv s' := by
  have hpos : 0 < s.readCount := by
    have hmem : t ∈ Finset.univ.filter fun t => (s.places t).reads = true :=
      Finset.mem_filter.mpr ⟨Finset.mem_univ t, by rw [hplace]; rfl⟩
    have hcard : 0 < number Place.reads s.places := Finset.card_pos.mpr ⟨t, hmem⟩
    rw [h.readCount_eq]
    exact_mod_cast hcard
  have hwait : Inv ({ s with upgradeCount := s.upgradeCount + 1 }.move t .waitUpgrade) := by
    refine h.move_same (by rw [hplace]; rfl) (fun _ _ _ _ => rfl) ?_ ?_ <;>
      simp [hplace, Place.reads, Place.upgrades]
  have hsame : { s with upgradeCount := s.upgradeCount + 1 }.upgrade t =
      ({ s with upgradeCount := s.upgradeCount + 1 }.move t .waitUpgrade).upgrade t := by
    simp only [State.upgrade, State.move, Function.update_idem]
  rw [State.upgradeReadToWrite, if_pos hpos, hsame]
  exact ⟨_, rfl, hwait.upgrade (Function.update_self ..)⟩

theorem Inv.releaseRead (h : Inv s) (hplace : s.places t = .reading ∨ s.places t = .writingReading) :
    ∃ s', s.releaseRead t = some s' ∧ Inv s' := by
  have hpos : 0 ≤ s.readCount - 1 := by
    have hmem : t ∈ Finset.univ.filter fun t => (s.places t).reads = true :=
      Finset.mem_filter.mpr ⟨Finset.mem_univ t, by rcases hplace with hp | hp <;> rw [hp] <;> rfl⟩
    have hcard : 0 < number Place.reads s.places := Finset.card_pos.mpr ⟨t, hmem⟩
    have := h.readCount_eq
    omega
  rw [State.releaseRead, if_pos hpos]
  refine ⟨_, rfl, h.move_same ?_ (fun _ _ _ => ?_) ?_ ?_⟩ <;> rcases hplace with hp | hp <;>
    simp [hp, Place.reads, Place.upgrades, Place.writes]

theorem Inv.releaseWrite (h : Inv s) (hplace : s.places t = .writing) :
    ∃ s', s.releaseWrite t = some s' ∧ Inv s' := by
  have hwriter : s.writeThread = some t := (h.writer t).mpr (by rw [hplace]; rfl)
  rw [State.releaseWrite, if_pos hwriter]
  refine ⟨_, rfl, h.move (fun t' => ?_) nofun ?_ ?_⟩
  · by_cases heq : t' = t
    · rw [heq, Function.update_self]
      exact iff_of_false nofun nofun
    · rw [Function.update_of_ne heq, ← h.writer t', hwriter]
      exact iff_of_false nofun fun hsome => heq (Option.some.inj hsome).symm
  · simp [hplace, Place.reads]
  · simp [hplace, Place.upgrades]

theorem Inv.step {op : Op Thread} (h : Inv s) (hlegal : Legal s op) :
    ∃ s', ReadWriteLock.step s op = some s' ∧ Inv s' := by
  cases op with
  | acquireRead t => exact ⟨_, rfl, h.acquireRead (hlegal.imp_right Or.inl)⟩
  | upgradeReadToWrite t => exact h.upgradeReadToWrite hlegal
  | acquireWrite t =>
      have hother : s.writeThread ≠ some t := by
        rw [Ne, h.writer t, hlegal]
        nofun
      exact ⟨_, if_pos hother, h.acquireWrite (Or.inl hlegal)⟩
  | releaseRead t => exact h.releaseRead hlegal
  | releaseWrite t => exact h.releaseWrite hlegal
  | wake t =>
      simp only [ReadWriteLock.step]
      cases hplace : s.places t with
      | waitRead => exact ⟨_, rfl, h.acquireRead (Or.inr (Or.inr hplace))⟩
      | waitUpgrade => exact ⟨_, rfl, h.upgrade hplace⟩
      | waitWrite => exact ⟨_, rfl, h.acquireWrite (Or.inr hplace)⟩
      | _ => exact ⟨_, rfl, h⟩
  | setOpen isOpen => exact ⟨_, rfl, h.writer, h.readers, h.readCount_eq, h.upgradeCount_eq⟩

/-- Threads that pair their calls break no assertion, and exclude each other. -/
theorem calls_exclusive {isOpen : Bool} {ops : List (Op Thread)}
    (hlegal : Runs.Legal ReadWriteLock.step Legal (.init Thread isOpen) ops) :
    ∃ s, Runs.run ReadWriteLock.step (.init Thread isOpen) ops = some s ∧ Exclusive s := by
  obtain ⟨s, hrun, h⟩ := Runs.legal_run_total (fun s op h hlegal => Inv.step h hlegal)
    (inv_init isOpen) hlegal
  exact ⟨s, hrun, h.exclusive⟩

/-- One thread upgrades while another one waits to upgrade, and a third one to read. -/
theorem calls_exclusive_upgrade :
    ∃ s, Runs.run ReadWriteLock.step (.init (Fin 3) true)
        [.acquireRead 0, .acquireRead 1, .upgradeReadToWrite 0, .upgradeReadToWrite 1, .acquireRead 2,
          .acquireRead 1, .releaseRead 1] = some s ∧ Exclusive s :=
  calls_exclusive (by decide)

end ReadWriteLock
end LucenePlusPlus
