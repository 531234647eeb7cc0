import Mathlib.Data.List.Induction
import LucenePlusPlus.QueryParserTokenManager

/-!
A round of an automaton of `QueryParserTokenManager`, on lists: the states it is in, and those it moves to on a character. The
arrays of the manager hold these lists as long as they are no longer than half of `jjstateSet`.
-/

namespace LucenePlusPlus
namespace QueryParserTokenManager

/-- What the actions come down to. -/
inductive Mark
  | kind (k : Nat)
  | check (state : Nat)
  | push (state : Nat)
deriving DecidableEq

def Action.marks : Action → List Mark
  | .kind k => [.kind k]
  | .checkNAdd state => [.check state]
  | .checkNAddTwoStates state1 state2 => [.check state1, .check state2]
  | .checkNAddStates first last => ((jjnextStates.drop first).take (last + 1 - first)).map .check
  | .addStates first last => ((jjnextStates.drop first).take (last + 1 - first)).map .push
  | .add state => [.push state]

/-- The states that are added in a round, those of them that are checked, and the least kind. -/
structure Round where
  added : List Nat
  checked : List Nat
  kind : Nat

namespace Round

def start : Round := { added := [], checked := [], kind := NO_KIND }

def mark (r : Round) : Mark → Round
  | .kind k => { r with kind := if r.kind > k then k else r.kind }
  | .check state =>
      if state ∈ r.checked then r else { r with added := r.added ++ [state], checked := state :: r.checked }
  | .push state => { r with added := r.added ++ [state] }

theorem length_le_mark (r : Round) (mark : Mark) : r.added.length ≤ (r.mark mark).added.length := by
  cases mark with
  | kind k => exact le_rfl
  | check state =>
      rw [Round.mark]
      split
      · exact le_rfl
      · exact (List.prefix_append r.added [state]).length_le
  | push state => exact (List.prefix_append r.added [state]).length_le

theorem length_le_foldl (marks : List Mark) (r : Round) : r.added.length ≤ (marks.foldl mark r).added.length := by
  induction marks generalizing r with
  | nil => exact le_rfl
  | cons next marks ih => exact (r.length_le_mark next).trans (ih _)

end Round

/-- The marks of the branch that is taken. -/
def chosen (holds : Test → Bool) : Branches → List Mark
  | [] => []
  | (test, actions) :: branches => if holds test then actions.flatMap Action.marks else chosen holds branches

/-- The body of the case of a state that is not `-1`. -/
def caseAt (switch : Switch) (state : Nat) : List Branches :=
  ((switch.find? fun entry => entry.1.any fun label => label == state).map Prod.snd).getD []

theorem caseOf_natCast (switch : Switch) (state : Nat) : caseOf switch state = caseAt switch state := by
  have hlabel : ∀ label : Nat, ((label : Int) == (state : Int)) = (label == state) := fun label => by
    rw [Bool.eq_iff_iff, beq_iff_eq, beq_iff_eq, Int.natCast_inj]
  simp only [caseOf, caseAt, hlabel]

/-- The marks of a state. -/
def stateMarks (holds : Test → Bool) (switch : Switch) (state : Nat) : List Mark :=
  (caseAt switch state).flatMap (chosen holds)

/-- The states are looked at from the last one on. -/
def move (holds : Test → Bool) (switch : Switch) (states : List Nat) : Round :=
  (states.reverse.flatMap (stateMarks holds switch)).foldl Round.mark .start

def Mark.run (x : Nat × QueryParserTokenManager) : Mark → Except Fault (Nat × QueryParserTokenManager)
  | .kind k => .ok (if x.1 > k then k else x.1, x.2)
  | .check state => do return (x.1, ← x.2.jjCheckNAdd state)
  | .push state => do return (x.1, ← x.2.addState state)

/-- The states are among those that `jjrounds` has, and the places are in `jjnextStates`. -/
def Action.valid : Action → Bool
  | .kind _ => true
  | .checkNAdd state => state < 36
  | .checkNAddTwoStates state1 state2 => state1 < 36 && state2 < 36
  | .checkNAddStates first last => first ≤ last && last < jjnextStates.length
  | .addStates first last => first ≤ last && last < jjnextStates.length
  | .add state => state < 36

section Marks

theorem element_of_lt {α : Type} {xs : List α} {index : Nat} (hlt : index < xs.length) : element xs index = .ok xs[index] := by
  rw [element, List.getElem?_eq_getElem hlt]

theorem element_of_le {α : Type} {xs : List α} {index : Nat} (hle : xs.length ≤ index) :
    element xs index = .error .outOfBounds := by
  rw [element, List.getElem?_eq_none_iff.mpr hle]

theorem foldlM_range' {α β : Type} (f : β → α → Except Fault β) (xs : List α) {first count : Nat}
    (hle : first + count ≤ xs.length) (b : β) :
    (List.range' first count).foldlM (fun b n => do f b (← element xs n)) b =
      ((xs.drop first).take count).foldlM f b := by
  induction count generalizing first b with
  | zero => rfl
  | succ count ih =>
      have hlt : first < xs.length := by omega
      rw [List.range'_succ, List.drop_eq_getElem_cons hlt, List.take_succ_cons, List.foldlM_cons, List.foldlM_cons,
        element_of_lt hlt]
      exact congrArg (f b xs[first] >>= ·) (funext fun b => ih (by omega) b)

theorem foldlM_marks (mark : Nat → Mark) (f : QueryParserTokenManager → Nat → Except Fault QueryParserTokenManager)
    (hmark : ∀ x state, (mark state).run x = do return (x.1, ← f x.2 state)) (states : List Nat)
    (kind : Nat) (m : QueryParserTokenManager) :
    (states.map mark).foldlM Mark.run (kind, m) = do return (kind, ← states.foldlM f m) := by
  induction states generalizing m with
  | nil => rfl
  | cons state states ih =>
      rw [List.map_cons, List.foldlM_cons, List.foldlM_cons, hmark]
      cases hstep : f m state with
      | error fault => rfl
      | ok next => exact ih next

theorem act_eq_marks {action : Action} (hvalid : action.valid = true) (x : Nat × QueryParserTokenManager) :
    act x action = action.marks.foldlM Mark.run x := by
  obtain ⟨kind, m⟩ := x
  cases action with
  | kind k => rfl
  | checkNAdd state =>
      rw [act, Action.marks, List.foldlM_cons, Mark.run]
      cases m.jjCheckNAdd state <;> rfl
  | checkNAddTwoStates state1 state2 =>
      have htwo : [state1, state2].foldlM jjCheckNAdd m = m.jjCheckNAddTwoStates state1 state2 := by
        simp only [List.foldlM_cons, List.foldlM_nil, bind_pure, jjCheckNAddTwoStates]
      rw [act, ← htwo]
      exact (foldlM_marks .check jjCheckNAdd (fun _ _ => rfl) [state1, state2] kind m).symm
  | checkNAddStates first last =>
      rw [Action.valid, Bool.and_eq_true, decide_eq_true_iff, decide_eq_true_iff] at hvalid
      rw [act, Action.marks, foldlM_marks .check jjCheckNAdd (fun _ _ => rfl), jjCheckNAddStates,
        foldlM_range' jjCheckNAdd jjnextStates (by omega)]
  | addStates first last =>
      rw [Action.valid, Bool.and_eq_true, decide_eq_true_iff, decide_eq_true_iff] at hvalid
      rw [act, Action.marks, foldlM_marks .push addState (fun _ _ => rfl), jjAddStates,
        foldlM_range' addState jjnextStates (by omega)]
  | add state =>
      rw [act, Action.marks, List.foldlM_cons, Mark.run]
      cases m.addState state <;> rfl

theorem foldlM_act {actions : List Action} (hvalid : ∀ action ∈ actions, action.valid = true)
    (x : Nat × QueryParserTokenManager) :
    actions.foldlM act x = (actions.flatMap Action.marks).foldlM Mark.run x := by
  induction actions generalizing x with
  | nil => rfl
  | cons action actions ih =>
      rw [List.foldlM_cons, List.flatMap_cons, List.foldlM_append, act_eq_marks (hvalid action (List.mem_cons_self ..))]
      exact congrArg (_ >>= ·) (funext fun x => ih (fun action hmem => hvalid action (List.mem_cons_of_mem _ hmem)) x)

/-- The tests of the branches have the values, and the actions are valid. -/
def Readable (curChar : Nat) (holds : Test → Bool) (branches : Branches) : Prop :=
  ∀ entry ∈ branches, entry.1.holds curChar = .ok (holds entry.1) ∧ ∀ action ∈ entry.2, action.valid = true

theorem branch_eq_marks {curChar : Nat} {holds : Test → Bool} {branches : Branches}
    (hreadable : Readable curChar holds branches) (x : Nat × QueryParserTokenManager) :
    branch curChar x branches = (chosen holds branches).foldlM Mark.run x := by
  induction branches with
  | nil => rfl
  | cons entry branches ih =>
      obtain ⟨test, actions⟩ := entry
      obtain ⟨htest, hvalid⟩ := hreadable (test, actions) (List.mem_cons_self ..)
      rw [branch, chosen, htest]
      by_cases hholds : holds test = true
      · rw [if_pos hholds, ← foldlM_act hvalid, hholds]
        rfl
      · rw [if_neg hholds, ← ih fun entry hmem => hreadable entry (List.mem_cons_of_mem _ hmem),
          Bool.eq_false_iff.mpr hholds]
        rfl

theorem foldlM_branch {curChar : Nat} {holds : Test → Bool} {cases : List Branches}
    (hreadable : ∀ branches ∈ cases, Readable curChar holds branches) (x : Nat × QueryParserTokenManager) :
    cases.foldlM (branch curChar) x = (cases.flatMap (chosen holds)).foldlM Mark.run x := by
  induction cases generalizing x with
  | nil => rfl
  | cons branches rest ih =>
      rw [List.foldlM_cons, List.flatMap_cons, List.foldlM_append, branch_eq_marks (hreadable branches (List.mem_cons_self ..))]
      exact congrArg (_ >>= ·) (funext fun x => ih (fun branches hmem => hreadable branches (List.mem_cons_of_mem _ hmem)) x)

end Marks

/-! ### The arrays -/

/-- The arrays are as `ReInit` leaves them, and no state has been added in a later round. -/
structure Ready (m : QueryParserTokenManager) : Prop where
  length_stateSet : m.jjstateSet.length = 72
  length_rounds : m.jjrounds.length = 36
  round_lt : m.jjround < 0x7fffffff
  le_round : ∀ round ∈ m.jjrounds, -0x80000000 ≤ round ∧ round ≤ m.jjround
  lexState : 0 ≤ m.curLexState ∧ m.curLexState < 4

/-- The array has the states from the place on. -/
def HasStates (m : QueryParserTokenManager) (place : Nat) (states : List Nat) : Prop :=
  ∀ n (hlt : n < states.length), m.jjstateSet[place + n]? = some (states[n] : Int)

/-- A round that adds from `base` on, in the `room` that is there, has come as far as the lists say. -/
structure Marked (start : QueryParserTokenManager) (base room : Nat) (r : Round) (m : QueryParserTokenManager) : Prop where
  length_stateSet : m.jjstateSet.length = 72
  length_rounds : m.jjrounds.length = 36
  count : m.jjnewStateCnt = base + r.added.length
  added : HasStates m base r.added
  other : ∀ n, n < base ∨ base + room ≤ n → m.jjstateSet[n]? = start.jjstateSet[n]?
  checked : ∀ state, state < 36 → (m.jjrounds[state]? = some m.jjround ↔ state ∈ r.checked)
  le_round : ∀ round ∈ m.jjrounds, -0x80000000 ≤ round ∧ round ≤ m.jjround
  rest : m = { start with
    jjstateSet := m.jjstateSet, jjrounds := m.jjrounds, jjnewStateCnt := m.jjnewStateCnt }

/-- The states that a mark names are those that `jjrounds` has. -/
def Mark.valid : Mark → Bool
  | .kind _ => true
  | .check state => state < 36
  | .push _ => true

section Arrays
variable {start m : QueryParserTokenManager} {base room : Nat} {r : Round}

theorem Marked.round_eq (h : Marked start base room r m) : m.jjround = start.jjround := by
  rw [h.rest]

theorem getElem?_set_of {α : Type} {xs : List α} {place n : Nat} (x : α) (hlt : place < xs.length) :
    (xs.set place x)[n]? = if n = place then some x else xs[n]? := by
  rw [List.getElem?_set, if_pos hlt]
  split
  case isTrue heq => rw [if_pos heq.symm]
  case isFalse hne => rw [if_neg (Ne.symm hne)]

/-- The manager with one more state. -/
def appendState (m : QueryParserTokenManager) (state : Nat) : QueryParserTokenManager :=
  { m with
    jjstateSet := m.jjstateSet.set m.jjnewStateCnt state
    jjnewStateCnt := m.jjnewStateCnt + 1 }

theorem addState_eq (hlt : m.jjnewStateCnt < m.jjstateSet.length) (state : Nat) :
    m.addState state = .ok (m.appendState state) := by
  rw [addState, element_of_lt hlt]
  rfl

theorem jjCheckNAdd_of_eq {state : Nat} (hlt : state < m.jjrounds.length) (hround : m.jjrounds[state] = m.jjround) :
    m.jjCheckNAdd state = .ok m := by
  rw [jjCheckNAdd, element_of_lt hlt]
  exact if_neg (not_not_intro hround)

theorem jjCheckNAdd_of_ne {state : Nat} (hlt : state < m.jjrounds.length) (hround : m.jjrounds[state] ≠ m.jjround)
    (hcount : m.jjnewStateCnt < m.jjstateSet.length) :
    m.jjCheckNAdd state = .ok { m.appendState state with jjrounds := m.jjrounds.set state m.jjround } := by
  rw [jjCheckNAdd, element_of_lt hlt, element_of_lt hcount]
  exact if_pos hround

theorem Marked.hasStates_set (h : Marked start base room r m) (hroom : r.added.length < room) (hfit : base + room ≤ 72)
    (state : Nat) (next : QueryParserTokenManager) (hnext : next.jjstateSet = m.jjstateSet.set m.jjnewStateCnt state) :
    HasStates next base (r.added ++ [state]) ∧
      ∀ n, n < base ∨ base + room ≤ n → next.jjstateSet[n]? = start.jjstateSet[n]? := by
  have hlength := h.length_stateSet
  have hcount := h.count
  have hlt : m.jjnewStateCnt < m.jjstateSet.length := by omega
  rw [hnext]
  refine ⟨fun n hn => ?_, fun n hn => ?_⟩
  · rw [hnext, getElem?_set_of _ hlt]
    rw [List.length_append, List.length_singleton] at hn
    split
    case isTrue heq =>
      have hlast : n = r.added.length := by omega
      rw [List.getElem_append_right hlast.ge]
      simp only [List.getElem_singleton]
    case isFalse hne =>
      have hold : n < r.added.length := by omega
      rw [List.getElem_append_left hold, h.added n hold]
  · rw [getElem?_set_of _ hlt, if_neg (by omega), h.other n hn]

theorem Marked.run (h : Marked start base room r m) {mark : Mark} (hvalid : mark.valid = true)
    (hroom : (r.mark mark).added.length ≤ room) (hfit : base + room ≤ 72) :
    ∃ next, mark.run (r.kind, m) = .ok ((r.mark mark).kind, next) ∧ Marked start base room (r.mark mark) next := by
  have hlength := h.length_stateSet
  have hcount := h.count
  cases mark with
  | kind k => exact ⟨m, rfl, h.length_stateSet, h.length_rounds, h.count, h.added, h.other, h.checked, h.le_round, h.rest⟩
  | push state =>
      have hroom : r.added.length + 1 ≤ room := by
        rwa [Round.mark, List.length_append, List.length_singleton] at hroom
      obtain ⟨hadded, hother⟩ := h.hasStates_set hroom hfit state (m.appendState state) rfl
      refine ⟨m.appendState state, ?_, ?_, h.length_rounds, ?_, hadded, hother, h.checked, h.le_round, ?_⟩
      · have hcnt : m.jjnewStateCnt < m.jjstateSet.length := by omega
        rw [Mark.run, addState_eq hcnt]
        rfl
      · exact List.length_set.trans hlength
      · rw [Round.mark, List.length_append, List.length_singleton, appendState, hcount, Nat.add_assoc]
      · rw [h.rest]
        rfl
  | check state =>
      have hstate : state < 36 := of_decide_eq_true hvalid
      have hlt : state < m.jjrounds.length := h.length_rounds.symm ▸ hstate
      have hchecked := h.checked state hstate
      rw [List.getElem?_eq_getElem hlt, Option.some_inj] at hchecked
      by_cases hmem : state ∈ r.checked
      · have hmark : r.mark (.check state) = r := by rw [Round.mark, if_pos hmem]
        rw [hmark, Mark.run, jjCheckNAdd_of_eq hlt (hchecked.mpr hmem)]
        exact ⟨m, rfl, h⟩
      · have hmark : r.mark (.check state) = { r with added := r.added ++ [state], checked := state :: r.checked } := by
          rw [Round.mark, if_neg hmem]
        rw [hmark, List.length_append, List.length_singleton] at hroom
        have hcnt : m.jjnewStateCnt < m.jjstateSet.length := by omega
        have hnext := jjCheckNAdd_of_ne hlt (fun heq => hmem (hchecked.mp heq)) hcnt
        obtain ⟨hadded, hother⟩ := h.hasStates_set hroom hfit state
          { m.appendState state with jjrounds := m.jjrounds.set state m.jjround } rfl
        rw [hmark, Mark.run, hnext]
        refine ⟨_, rfl, ?_, ?_, ?_, hadded, hother, fun other hother => ?_, fun round hmem => ?_, ?_⟩
        · exact List.length_set.trans hlength
        · exact List.length_set.trans h.length_rounds
        · rw [List.length_append, List.length_singleton, appendState, hcount, Nat.add_assoc]
        · show (m.jjrounds.set state m.jjround)[other]? = some m.jjround ↔ other ∈ state :: r.checked
          rw [getElem?_set_of _ hlt, List.mem_cons]
          split
          case isTrue heq => exact iff_of_true rfl (Or.inl heq)
          case isFalse hne => rw [or_iff_right hne, h.checked other hother]
        · rcases List.mem_or_eq_of_mem_set hmem with hmem | rfl
          · exact h.le_round round hmem
          · have hold := h.le_round _ (List.getElem_mem hlt)
            exact ⟨hold.1.trans hold.2, le_rfl⟩
        · rw [h.rest]
          rfl

theorem Marked.foldlM (h : Marked start base room r m) {marks : List Mark} (hvalid : ∀ mark ∈ marks, mark.valid = true)
    (hroom : (marks.foldl Round.mark r).added.length ≤ room) (hfit : base + room ≤ 72) :
    ∃ next, marks.foldlM Mark.run (r.kind, m) = .ok ((marks.foldl Round.mark r).kind, next) ∧
      Marked start base room (marks.foldl Round.mark r) next := by
  induction marks generalizing r m with
  | nil => exact ⟨m, rfl, h⟩
  | cons mark marks ih =>
      obtain ⟨next, hrun, hmarked⟩ := h.run (hvalid mark (List.mem_cons_self ..))
        ((Round.length_le_foldl marks _).trans hroom) hfit
      obtain ⟨last, hlast, hend⟩ := ih hmarked (fun mark hmem => hvalid mark (List.mem_cons_of_mem _ hmem)) hroom
      refine ⟨last, ?_, hend⟩
      rw [List.foldlM_cons, hrun]
      exact hlast

theorem Ready.nextRound (h : Ready m) :
    ∃ next, m.nextRound = .ok next ∧ Ready next ∧ (∀ round ∈ next.jjrounds, round < next.jjround) ∧
      next = { m with jjround := next.jjround, jjrounds := next.jjrounds } := by
  have hlength := h.length_rounds
  have hround := h.round_lt
  rw [QueryParserTokenManager.nextRound]
  by_cases hlast : m.jjround + 1 = 0x7fffffff
  · have hrounds : List.replicate 36 (-0x80000000 : Int) ++ m.jjrounds.drop 36 = List.replicate 36 (-0x80000000) := by
      rw [List.drop_eq_nil_iff.mpr hlength.le, List.append_nil]
    rw [if_pos hlast, ReInitRounds, element_of_lt (by rw [hlength]; decide)]
    dsimp only
    rw [hrounds]
    have hmem : ∀ round ∈ List.replicate 36 (-0x80000000 : Int), round = -0x80000000 :=
      fun round hround => List.eq_of_mem_replicate hround
    exact ⟨_, rfl,
      ⟨h.length_stateSet, List.length_replicate, (by decide : (-0x7fffffff : Int) < 0x7fffffff),
        fun round hround =>
          ⟨(hmem round hround).ge, (hmem round hround).trans_le (by decide : (-0x80000000 : Int) ≤ -0x7fffffff)⟩, h.lexState⟩,
      fun round hround => (hmem round hround).trans_lt (by decide : (-0x80000000 : Int) < -0x7fffffff), rfl⟩
  · rw [if_neg hlast]
    refine ⟨_, rfl, ⟨h.length_stateSet, hlength, by dsimp only; omega, fun round hmem => ?_, h.lexState⟩,
      fun round hmem => Int.lt_add_one_of_le (h.le_round round hmem).2, rfl⟩
    exact ⟨(h.le_round round hmem).1, (h.le_round round hmem).2.trans (by dsimp only; omega)⟩

theorem Marked.begin (h : Ready m) (hrounds : ∀ round ∈ m.jjrounds, round < m.jjround) (hcount : m.jjnewStateCnt = base)
    (room : Nat) : Marked m base room .start m where
  length_stateSet := h.length_stateSet
  length_rounds := h.length_rounds
  count := hcount
  added := fun _ hlt => absurd hlt (Nat.not_lt_zero _)
  other := fun _ _ => rfl
  checked := fun state hstate => by
    rw [List.getElem?_eq_getElem (h.length_rounds.symm ▸ hstate), Option.some_inj]
    exact iff_of_false (hrounds _ (List.getElem_mem _)).ne List.not_mem_nil
  le_round := h.le_round
  rest := rfl

theorem Marked.ready (h : Marked start base room r m) (hstart : Ready start) : Ready m where
  length_stateSet := h.length_stateSet
  length_rounds := h.length_rounds
  round_lt := h.round_eq ▸ hstart.round_lt
  le_round := h.le_round
  lexState := by
    rw [h.rest]
    exact hstart.lexState

theorem Mark.valid_of_action {action : Action} (hvalid : action.valid = true) : ∀ mark ∈ action.marks, mark.valid = true := by
  have hnext : ∀ state ∈ jjnextStates, state < 36 := by decide
  intro mark hmem
  cases action with
  | kind k => rw [List.mem_singleton.mp hmem]; rfl
  | checkNAdd state => rw [List.mem_singleton.mp hmem]; exact hvalid
  | checkNAddTwoStates state1 state2 =>
      rw [Action.valid, Bool.and_eq_true] at hvalid
      rw [Action.marks, List.mem_pair] at hmem
      rcases hmem with rfl | rfl
      · exact hvalid.1
      · exact hvalid.2
  | checkNAddStates first last =>
      obtain ⟨state, hstate, rfl⟩ := List.mem_map.mp hmem
      exact decide_eq_true (hnext state (List.mem_of_mem_drop (List.mem_of_mem_take hstate)))
  | addStates first last =>
      obtain ⟨state, -, rfl⟩ := List.mem_map.mp hmem
      rfl
  | add state => rw [List.mem_singleton.mp hmem]; rfl

theorem valid_of_chosen {curChar : Nat} {holds : Test → Bool} {branches : Branches}
    (hreadable : Readable curChar holds branches) : ∀ mark ∈ chosen holds branches, mark.valid = true := by
  induction branches with
  | nil => exact fun mark hmem => absurd hmem List.not_mem_nil
  | cons entry branches ih =>
      intro mark hmem
      rw [chosen] at hmem
      split at hmem
      · obtain ⟨action, haction, hmem⟩ := List.mem_flatMap.mp hmem
        exact Mark.valid_of_action ((hreadable entry (List.mem_cons_self ..)).2 action haction) mark hmem
      · exact ih (fun entry hmem => hreadable entry (List.mem_cons_of_mem _ hmem)) mark hmem

/-- A character whose tests have the values, in the switch that is for it. -/
def ReadsAs (switch : Switch) (curChar : Nat) (holds : Test → Bool) : Prop :=
  ∀ entry ∈ switch, ∀ branches ∈ entry.2, Readable curChar holds branches

theorem ReadsAs.caseAt {switch : Switch} {curChar : Nat} {holds : Test → Bool} (h : ReadsAs switch curChar holds)
    (state : Nat) : ∀ branches ∈ caseAt switch state, Readable curChar holds branches := by
  intro branches hmem
  rw [QueryParserTokenManager.caseAt] at hmem
  cases hfind : switch.find? fun entry => entry.1.any fun label => label == state with
  | none =>
      rw [hfind] at hmem
      exact absurd hmem List.not_mem_nil
  | some entry =>
      rw [hfind] at hmem
      exact h entry (List.mem_of_find?_eq_some hfind) branches hmem

theorem moveStates_spec {switch : Switch} {curChar : Nat} {holds : Test → Bool} (hreads : ReadsAs switch curChar holds)
    {startsAt : Nat} {states : List Nat} (hstates : HasStates start startsAt states) (hne : states ≠ [])
    (hapart : ∀ n, n < states.length → startsAt + n < base ∨ base + room ≤ startsAt + n) (hfit : base + room ≤ 72)
    (h : Marked start base room r m)
    (hroom : ((states.reverse.flatMap (stateMarks holds switch)).foldl Round.mark r).added.length ≤ room) :
    ∃ next, moveStates switch startsAt curChar (startsAt + states.length) (r.kind, m) =
        .ok (((states.reverse.flatMap (stateMarks holds switch)).foldl Round.mark r).kind, next) ∧
      Marked start base room ((states.reverse.flatMap (stateMarks holds switch)).foldl Round.mark r) next := by
  induction states using List.reverseRecOn generalizing r m with
  | nil => exact absurd rfl hne
  | append_singleton states state ih =>
      have hlast : m.jjstateSet[startsAt + states.length]? = some (state : Int) := by
        have hlt : states.length < (states ++ [state]).length := by simp
        rw [h.other _ (hapart _ hlt), hstates _ hlt]
        simp
      have hvalid : ∀ mark ∈ stateMarks holds switch state, mark.valid = true := by
        intro mark hmem
        obtain ⟨branches, hbranches, hmem⟩ := List.mem_flatMap.mp hmem
        exact valid_of_chosen (hreads.caseAt state branches hbranches) mark hmem
      rw [List.reverse_append, List.reverse_singleton, List.singleton_append, List.flatMap_cons, List.foldl_append] at hroom ⊢
      obtain ⟨next, hrun, hmarked⟩ := h.foldlM hvalid ((Round.length_le_foldl _ _).trans hroom) hfit
      rw [List.length_append, List.length_singleton, ← Nat.add_assoc, moveStates, element, hlast]
      show ∃ last, ((caseOf switch state).foldlM (branch curChar) (r.kind, m) >>= _) = _ ∧ _
      rw [caseOf_natCast, foldlM_branch (hreads.caseAt state)]
      change (QueryParserTokenManager.caseAt switch state |>.flatMap (chosen holds)).foldlM Mark.run (r.kind, m) = _ at hrun
      rw [hrun]
      by_cases hnil : states = []
      · subst hnil
        exact ⟨next, if_pos rfl, hmarked⟩
      · have hlength : 0 < states.length := List.length_pos_iff.mpr hnil
        obtain ⟨last, hrest, hend⟩ := ih (fun n hlt => by
          have hmore := hstates n (by simp; omega)
          rwa [List.getElem_append_left hlt] at hmore) hnil (fun n hlt => hapart n (by simp; omega)) hmarked hroom
        refine ⟨last, ?_, hend⟩
        rw [← hrest]
        exact if_neg (by omega)

end Arrays

end QueryParserTokenManager
end LucenePlusPlus
