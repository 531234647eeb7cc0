import LucenePlusPlus.FastCharStream
import LucenePlusPlus.QueryEscaping

/-!
`QueryParserTokenManager`: the tokens of a query. Each lexical state has an automaton of its own. The states it is in and
those it moves to are in the two halves of `jjstateSet`, and `jjrounds` has the round in which a state was last added.
-/

namespace LucenePlusPlus

/-- `jjmatchedKind` is `NO_KIND` as long as nothing matches. A character is not negative. -/
structure QueryParserTokenManager where
  jjrounds : List Int
  jjstateSet : List Int
  curChar : WChar
  curLexState : Int
  jjnewStateCnt : Nat
  jjround : Int
  jjmatchedPos : Nat
  jjmatchedKind : Nat
  input_stream : FastCharStream

structure QueryParserToken where
  kind : Nat
  image : WString
  beginLine : Nat
  beginColumn : Nat
  endLine : Nat
  endColumn : Nat

/-- What the message of a `QueryParserError` is made of. -/
structure LexicalError where
  EOFSeen : Bool
  lexState : Int
  errorLine : Nat
  errorColumn : Nat
  errorAfter : WString
  curChar : WChar

namespace QueryParserTokenManager
open WChar (ofChar)

inductive Fault
  | outOfBounds
  | outOfFuel
deriving DecidableEq

def jjbitVec0 : List Nat := [0x1, 0x0, 0x0, 0x0]

def jjbitVec1 : List Nat := [0xfffffffffffffffe, 0xffffffffffffffff, 0xffffffffffffffff, 0xffffffffffffffff]

def jjbitVec3 : List Nat := [0x0, 0x0, 0xffffffffffffffff, 0xffffffffffffffff]

def jjbitVec4 : List Nat := [0xfffefffffffffffe, 0xffffffffffffffff, 0xffffffffffffffff, 0xffffffffffffffff]

def jjnextStates : List Nat := [15, 16, 18, 29, 32, 23, 33, 30, 20, 21, 32, 23, 33, 31, 34, 27, 2, 4, 5, 0, 1]

/-- Token literal values. -/
def jjstrLiteralImages : List WString :=
  [[], [], [], [], [], [], [], [], [], [], [], [ofChar '+'], [ofChar '-'],
    [ofChar '('], [ofChar ')'], [ofChar ':'], [ofChar '*'], [ofChar '^'], [], [], [], [], [], [ofChar '['],
    [ofChar '\x7b'], [], [ofChar 'T', ofChar 'O'], [ofChar ']'], [], [], [ofChar 'T', ofChar 'O'], [ofChar '\x7d'], [], []]

/-- Lex State array. -/
def jjnewLexState : List Int :=
  [-1, -1, -1, -1, -1, -1, -1, -1, -1, -1, -1, -1, -1, -1, -1, -1, -1, 0,
    -1, -1, -1, -1, -1, 2, 1, 3, -1, 3, -1, -1, -1, 3, -1, -1]

def jjtoToken : List Nat := [0x3ffffff01]

def NO_KIND : Nat := 0x7fffffff

/-- An access to an array. -/
def element {α : Type} (xs : List α) (index : Nat) : Except Fault α :=
  match xs[index]? with
  | some x => .ok x
  | none => .error .outOfBounds

def jjCanMove_0 (hiByte i2 l2 : Nat) : Except Fault Bool :=
  match hiByte with
  | 48 => do return (← element jjbitVec0 i2) &&& l2 != 0
  | _ => return false

def jjCanMove_1 (hiByte i1 i2 l1 l2 : Nat) : Except Fault Bool :=
  match hiByte with
  | 0 => do return (← element jjbitVec3 i2) &&& l2 != 0
  | _ => do return (← element jjbitVec1 i1) &&& l1 != 0

def jjCanMove_2 (hiByte i1 i2 l1 l2 : Nat) : Except Fault Bool :=
  match hiByte with
  | 0 => do return (← element jjbitVec3 i2) &&& l2 != 0
  | 48 => do return (← element jjbitVec1 i2) &&& l2 != 0
  | _ => do return (← element jjbitVec4 i1) &&& l1 != 0

/-- What a state looks at. -/
inductive Test
  /-- `(mask & l) != 0` -/
  | mask (mask : Nat)
  /-- `curChar == char` -/
  | char (char : Nat)
  | canMove_0
  | canMove_1
  | canMove_2
  | always
deriving DecidableEq

def Test.holds (curChar : Nat) (test : Test) : Except Fault Bool :=
  let l := 1 <<< (curChar &&& 0o77)
  let hiByte := curChar >>> 8
  let i1 := hiByte >>> 6
  let l1 := 1 <<< (hiByte &&& 0o77)
  let i2 := (curChar &&& 0xff) >>> 6
  match test with
  | mask bits => return bits &&& l != 0
  | char c => return curChar == c
  | canMove_0 => jjCanMove_0 hiByte i2 l
  | canMove_1 => jjCanMove_1 hiByte i1 i2 l1 l
  | canMove_2 => jjCanMove_2 hiByte i1 i2 l1 l
  | always => return true

/-- What a state does. -/
inductive Action
  /-- `if (kind > k) kind = k` -/
  | kind (k : Nat)
  | checkNAdd (state : Nat)
  | checkNAddTwoStates (state1 state2 : Nat)
  | checkNAddStates (first last : Nat)
  | addStates (first last : Nat)
  /-- `jjstateSet[jjnewStateCnt++] = state` -/
  | add (state : Nat)

/-- An `if` with its `else if` branches. -/
abbrev Branches := List (Test × List Action)

/-- The cases of a `switch` over the states. -/
abbrev Switch := List (List Nat × List Branches)

/-- The cases for a character below 64, below 128, and of 128 and more. -/
structure Automaton where
  size : Nat
  below64 : Switch
  below128 : Switch
  above : Switch

def Automaton.switch (automaton : Automaton) (curChar : Nat) : Switch :=
  if curChar < 64 then automaton.below64 else if curChar < 128 then automaton.below128 else automaton.above

def automaton_3 : Automaton where
  size := 36
  below64 :=
    [([36, 25], [[(.mask 0xfbfffcf8ffffd9ff, [.kind 22, .checkNAddTwoStates 25 26])]]),
      ([0],
        [[(.mask 0xfbffd4f8ffffd9ff, [.kind 22, .checkNAddTwoStates 25 26]),
            (.mask 0x100002600, [.kind 7]),
            (.char 34, [.checkNAddStates 0 2]),
            (.char 33, [.kind 10])],
          [(.mask 0x7bffd0f8ffffd9ff, [.kind 19, .checkNAddStates 3 7]), (.char 42, [.kind 21])],
          [(.char 38, [.add 4])]]),
      ([4], [[(.char 38, [.kind 8])]]),
      ([5], [[(.char 38, [.add 4])]]),
      ([13], [[(.char 33, [.kind 10])]]),
      ([14], [[(.char 34, [.checkNAddStates 0 2])]]),
      ([15], [[(.mask 0xfffffffbffffffff, [.checkNAddStates 0 2])]]),
      ([17], [[(.always, [.checkNAddStates 0 2])]]),
      ([18], [[(.char 34, [.kind 18])]]),
      ([20], [[(.mask 0x3ff000000000000, [.kind 20, .addStates 8 9])]]),
      ([21], [[(.char 46, [.checkNAdd 22])]]),
      ([22], [[(.mask 0x3ff000000000000, [.kind 20, .checkNAdd 22])]]),
      ([23], [[(.char 42, [.kind 21])]]),
      ([24], [[(.mask 0xfbffd4f8ffffd9ff, [.kind 22, .checkNAddTwoStates 25 26])]]),
      ([27], [[(.always, [.kind 22, .checkNAddTwoStates 25 26])]]),
      ([28], [[(.mask 0x7bffd0f8ffffd9ff, [.kind 19, .checkNAddStates 3 7])]]),
      ([29], [[(.mask 0x7bfff8f8ffffd9ff, [.kind 19, .checkNAddTwoStates 29 30])]]),
      ([31], [[(.always, [.kind 19, .checkNAddTwoStates 29 30])]]),
      ([32], [[(.mask 0x7bfff8f8ffffd9ff, [.checkNAddStates 10 12])]]),
      ([34], [[(.always, [.checkNAddStates 10 12])]])]
  below128 :=
    [([36],
        [[(.mask 0x97ffffff87ffffff, [.kind 22, .checkNAddTwoStates 25 26]), (.char 92, [.checkNAddTwoStates 27 27])]]),
      ([0],
        [[(.mask 0x97ffffff87ffffff, [.kind 19, .checkNAddStates 3 7]),
            (.char 92, [.checkNAddStates 13 15]),
            (.char 126, [.kind 20, .add 20])],
          [(.mask 0x97ffffff87ffffff, [.kind 22, .checkNAddTwoStates 25 26])],
          [(.char 78, [.add 11]), (.char 124, [.add 8]), (.char 79, [.add 6]), (.char 65, [.add 2])]]),
      ([1], [[(.char 68, [.kind 8])]]),
      ([2], [[(.char 78, [.add 1])]]),
      ([3], [[(.char 65, [.add 2])]]),
      ([6], [[(.char 82, [.kind 9])]]),
      ([7], [[(.char 79, [.add 6])]]),
      ([8], [[(.char 124, [.kind 9])]]),
      ([9], [[(.char 124, [.add 8])]]),
      ([10], [[(.char 84, [.kind 10])]]),
      ([11], [[(.char 79, [.add 10])]]),
      ([12], [[(.char 78, [.add 11])]]),
      ([15], [[(.mask 0xffffffffefffffff, [.checkNAddStates 0 2])]]),
      ([16], [[(.char 92, [.add 17])]]),
      ([17], [[(.always, [.checkNAddStates 0 2])]]),
      ([19], [[(.char 126, [.kind 20, .add 20])]]),
      ([24], [[(.mask 0x97ffffff87ffffff, [.kind 22, .checkNAddTwoStates 25 26])]]),
      ([25], [[(.mask 0x97ffffff87ffffff, [.kind 22, .checkNAddTwoStates 25 26])]]),
      ([26], [[(.char 92, [.checkNAddTwoStates 27 27])]]),
      ([27], [[(.always, [.kind 22, .checkNAddTwoStates 25 26])]]),
      ([28], [[(.mask 0x97ffffff87ffffff, [.kind 19, .checkNAddStates 3 7])]]),
      ([29], [[(.mask 0x97ffffff87ffffff, [.kind 19, .checkNAddTwoStates 29 30])]]),
      ([30], [[(.char 92, [.checkNAddTwoStates 31 31])]]),
      ([31], [[(.always, [.kind 19, .checkNAddTwoStates 29 30])]]),
      ([32], [[(.mask 0x97ffffff87ffffff, [.checkNAddStates 10 12])]]),
      ([33], [[(.char 92, [.checkNAddTwoStates 34 34])]]),
      ([34], [[(.always, [.checkNAddStates 10 12])]]),
      ([35], [[(.char 92, [.checkNAddStates 13 15])]])]
  above :=
    [([36, 25], [[(.canMove_2, [.kind 22, .checkNAddTwoStates 25 26])]]),
      ([0],
        [[(.canMove_0, [.kind 7])],
          [(.canMove_2, [.kind 22, .checkNAddTwoStates 25 26])],
          [(.canMove_2, [.kind 19, .checkNAddStates 3 7])]]),
      ([15, 17], [[(.canMove_1, [.checkNAddStates 0 2])]]),
      ([24], [[(.canMove_2, [.kind 22, .checkNAddTwoStates 25 26])]]),
      ([27], [[(.canMove_1, [.kind 22, .checkNAddTwoStates 25 26])]]),
      ([28], [[(.canMove_2, [.kind 19, .checkNAddStates 3 7])]]),
      ([29], [[(.canMove_2, [.kind 19, .checkNAddTwoStates 29 30])]]),
      ([31], [[(.canMove_1, [.kind 19, .checkNAddTwoStates 29 30])]]),
      ([32], [[(.canMove_2, [.checkNAddStates 10 12])]]),
      ([34], [[(.canMove_1, [.checkNAddStates 10 12])]])]

/-- The automata of the two kinds of range differ in the kinds of their tokens, and in the character that ends the range. -/
def rangeAutomaton (quoted goop : Nat) (notEnd : Nat) : Automaton where
  size := 7
  below64 :=
    [([0],
        [[(.mask 0xfffffffeffffffff, [.kind goop, .checkNAdd 6])],
          [(.mask 0x100002600, [.kind 7]), (.char 34, [.checkNAddTwoStates 2 4])]]),
      ([1], [[(.char 34, [.checkNAddTwoStates 2 4])]]),
      ([2], [[(.mask 0xfffffffbffffffff, [.checkNAddStates 16 18])]]),
      ([3], [[(.char 34, [.checkNAddStates 16 18])]]),
      ([5], [[(.char 34, [.kind quoted])]]),
      ([6], [[(.mask 0xfffffffeffffffff, [.kind goop, .checkNAdd 6])]])]
  below128 :=
    [([0, 6], [[(.mask notEnd, [.kind goop, .checkNAdd 6])]]),
      ([2], [[(.always, [.addStates 16 18])]]),
      ([4], [[(.char 92, [.add 3])]])]
  above :=
    [([0], [[(.canMove_0, [.kind 7])], [(.canMove_1, [.kind goop, .checkNAdd 6])]]),
      ([2], [[(.canMove_1, [.addStates 16 18])]]),
      ([6], [[(.canMove_1, [.kind goop, .checkNAdd 6])]])]

def automaton_1 : Automaton := rangeAutomaton 32 33 0xdfffffffffffffff

def automaton_2 : Automaton := rangeAutomaton 28 29 0xffffffffdfffffff

/-! ### Boost -/

def automaton_0 : Automaton where
  size := 3
  below64 :=
    [([0], [[(.mask 0x3ff000000000000, [.kind 25, .addStates 19 20])]]),
      ([1], [[(.char 46, [.checkNAdd 2])]]),
      ([2], [[(.mask 0x3ff000000000000, [.kind 25, .checkNAdd 2])]])]
  below128 := []
  above := []

def jjCheckNAdd (m : QueryParserTokenManager) (state : Nat) : Except Fault QueryParserTokenManager := do
  if (← element m.jjrounds state) ≠ m.jjround then
    let _ ← element m.jjstateSet m.jjnewStateCnt
    return { m with
      jjstateSet := m.jjstateSet.set m.jjnewStateCnt state
      jjnewStateCnt := m.jjnewStateCnt + 1
      jjrounds := m.jjrounds.set state m.jjround }
  else return m

/-- `jjstateSet[jjnewStateCnt++] = state` -/
def addState (m : QueryParserTokenManager) (state : Nat) : Except Fault QueryParserTokenManager := do
  let _ ← element m.jjstateSet m.jjnewStateCnt
  return { m with
    jjstateSet := m.jjstateSet.set m.jjnewStateCnt state
    jjnewStateCnt := m.jjnewStateCnt + 1 }

def jjCheckNAddTwoStates (m : QueryParserTokenManager) (state1 state2 : Nat) : Except Fault QueryParserTokenManager := do
  let m ← m.jjCheckNAdd state1
  m.jjCheckNAdd state2

/-- No call has `first` after `last`. -/
def jjAddStates (m : QueryParserTokenManager) (first last : Nat) : Except Fault QueryParserTokenManager :=
  (List.range' first (last + 1 - first)).foldlM (fun m n => do m.addState (← element jjnextStates n)) m

def jjCheckNAddStates (m : QueryParserTokenManager) (first last : Nat) : Except Fault QueryParserTokenManager :=
  (List.range' first (last + 1 - first)).foldlM (fun m n => do m.jjCheckNAdd (← element jjnextStates n)) m

/-- An action on the local `kind` and the lists of states. -/
def act (x : Nat × QueryParserTokenManager) (action : Action) : Except Fault (Nat × QueryParserTokenManager) :=
  let (kind, m) := x
  match action with
  | .kind k => return (if kind > k then k else kind, m)
  | .checkNAdd state => do return (kind, ← m.jjCheckNAdd state)
  | .checkNAddTwoStates state1 state2 => do return (kind, ← m.jjCheckNAddTwoStates state1 state2)
  | .checkNAddStates first last => do return (kind, ← m.jjCheckNAddStates first last)
  | .addStates first last => do return (kind, ← m.jjAddStates first last)
  | .add state => do return (kind, ← m.addState state)

/-- The actions of the first branch whose test holds. -/
def branch (curChar : Nat) (x : Nat × QueryParserTokenManager) : Branches → Except Fault (Nat × QueryParserTokenManager)
  | [] => return x
  | (test, actions) :: branches => do
      if ← test.holds curChar then actions.foldlM act x
      else branch curChar x branches

/-- The body of the case of a state; there is none for the states that the `switch` does not have. -/
def caseOf (switch : Switch) (state : Int) : List Branches :=
  ((switch.find? fun entry => entry.1.any fun label => (label : Int) == state).map Prod.snd).getD []

/-- `do switch (jjstateSet[--i]) while (i != startsAt)` -/
def moveStates (switch : Switch) (startsAt : Nat) (curChar : Nat) :
    Nat → Nat × QueryParserTokenManager → Except Fault (Nat × QueryParserTokenManager)
  | 0, _ => .error .outOfBounds
  | i + 1, x => do
      let state ← element x.2.jjstateSet i
      let x ← (caseOf switch state).foldlM (branch curChar) x
      if i = startsAt then return x else moveStates switch startsAt curChar i x

def ReInitRounds (m : QueryParserTokenManager) : Except Fault QueryParserTokenManager := do
  let _ ← element m.jjrounds 35
  return { m with
    jjround := -0x7fffffff
    jjrounds := List.replicate 36 (-0x80000000) ++ m.jjrounds.drop 36 }

/-- `if (++jjround == 0x7fffffff) ReInitRounds()` -/
def nextRound (m : QueryParserTokenManager) : Except Fault QueryParserTokenManager :=
  let m := { m with jjround := m.jjround + 1 }
  if m.jjround = 0x7fffffff then m.ReInitRounds else return m

/-- Whether a character is read, and the stream after it. -/
def readChar (m : QueryParserTokenManager) : Except Fault (Bool × QueryParserTokenManager) :=
  match m.input_stream.readChar with
  | (.ok curChar, input_stream) => return (true, { m with curChar, input_stream })
  | (.error .pastEOF, input_stream) => return (false, { m with input_stream })
  | (.error .undefined, _) => .error .outOfBounds

/-- The loop of `jjMoveNfa`. -/
def rounds (automaton : Automaton) :
    Nat → Nat → Nat → Nat → QueryParserTokenManager → Except Fault (Nat × QueryParserTokenManager)
  | 0, _, _, _, _ => .error .outOfFuel
  | fuel + 1, startsAt, i, curPos, m => do
      let m ← m.nextRound
      let curChar := m.curChar.1.toNat
      let (kind, m) ← moveStates (automaton.switch curChar) startsAt curChar i (NO_KIND, m)
      let m := if kind ≠ NO_KIND then { m with jjmatchedKind := kind, jjmatchedPos := curPos } else m
      let curPos := curPos + 1
      let i := m.jjnewStateCnt
      let m := { m with jjnewStateCnt := startsAt }
      let startsAt := automaton.size - m.jjnewStateCnt
      if i = startsAt then return (curPos, m)
      let (more, m) ← m.readChar
      if more then rounds automaton fuel startsAt i curPos m else return (curPos, m)

def jjMoveNfa (automaton : Automaton) (fuel : Nat) (m : QueryParserTokenManager) (startState : Int) (curPos : Nat) :
    Except Fault (Nat × QueryParserTokenManager) := do
  let _ ← element m.jjstateSet 0
  rounds automaton fuel 0 1 curPos { m with
    jjnewStateCnt := automaton.size
    jjstateSet := m.jjstateSet.set 0 startState }

def jjMoveNfa_3 := jjMoveNfa automaton_3

def jjMoveNfa_2 := jjMoveNfa automaton_2

def jjMoveNfa_1 := jjMoveNfa automaton_1

def jjMoveNfa_0 := jjMoveNfa automaton_0

def jjStopAtPos (m : QueryParserTokenManager) (pos kind : Nat) : Nat × QueryParserTokenManager :=
  (pos + 1, { m with jjmatchedKind := kind, jjmatchedPos := pos })

/-- `jjStartNfaWithStates` of the lexical state with the automaton. -/
def jjStartNfaWithStates (automaton : Automaton) (fuel : Nat) (m : QueryParserTokenManager) (pos kind : Nat)
    (state : Int) : Except Fault (Nat × QueryParserTokenManager) := do
  let (more, m) ← { m with jjmatchedKind := kind, jjmatchedPos := pos }.readChar
  if more then jjMoveNfa automaton fuel m state (pos + 1) else return (pos + 1, m)

def jjMoveStringLiteralDfa0_3 (fuel : Nat) (m : QueryParserTokenManager) : Except Fault (Nat × QueryParserTokenManager) :=
  match m.curChar.1.toNat with
  | 40 => return m.jjStopAtPos 0 13
  | 41 => return m.jjStopAtPos 0 14
  | 42 => jjStartNfaWithStates automaton_3 fuel m 0 16 36
  | 43 => return m.jjStopAtPos 0 11
  | 45 => return m.jjStopAtPos 0 12
  | 58 => return m.jjStopAtPos 0 15
  | 91 => return m.jjStopAtPos 0 23
  | 94 => return m.jjStopAtPos 0 17
  | 123 => return m.jjStopAtPos 0 24
  | _ => jjMoveNfa_3 fuel m 0 0

/-- `jjStopStringLiteralDfa` of a range: the bit of its `TO` in `active0`, and the kind of its goop. -/
def jjStopStringLiteralDfa (mask goop : Nat) (m : QueryParserTokenManager) (pos active0 : Nat) : Int × QueryParserTokenManager :=
  match pos with
  | 0 => if active0 &&& mask != 0 then (6, { m with jjmatchedKind := goop }) else (-1, m)
  | _ => (-1, m)

/-- `jjMoveStringLiteralDfa1` of a range. -/
def jjMoveStringLiteralDfa1 (automaton : Automaton) (mask kind goop : Nat) (fuel : Nat) (m : QueryParserTokenManager)
    (active0 : Nat) : Except Fault (Nat × QueryParserTokenManager) := do
  let (more, m) ← m.readChar
  if more then
    if m.curChar.1.toNat = 79 ∧ active0 &&& mask != 0 then jjStartNfaWithStates automaton fuel m 1 kind 6
    else
      let (state, m) := jjStopStringLiteralDfa mask goop m 0 active0
      jjMoveNfa automaton fuel m state 1
  else return (1, (jjStopStringLiteralDfa mask goop m 0 active0).2)

def jjMoveStringLiteralDfa0_2 (fuel : Nat) (m : QueryParserTokenManager) : Except Fault (Nat × QueryParserTokenManager) :=
  match m.curChar.1.toNat with
  | 84 => jjMoveStringLiteralDfa1 automaton_2 0x4000000 26 29 fuel m 0x4000000
  | 93 => return m.jjStopAtPos 0 27
  | _ => jjMoveNfa_2 fuel m 0 0

def jjMoveStringLiteralDfa0_1 (fuel : Nat) (m : QueryParserTokenManager) : Except Fault (Nat × QueryParserTokenManager) :=
  match m.curChar.1.toNat with
  | 84 => jjMoveStringLiteralDfa1 automaton_1 0x40000000 30 33 fuel m 0x40000000
  | 125 => return m.jjStopAtPos 0 31
  | _ => jjMoveNfa_1 fuel m 0 0

def jjMoveStringLiteralDfa0_0 (fuel : Nat) (m : QueryParserTokenManager) : Except Fault (Nat × QueryParserTokenManager) :=
  jjMoveNfa_0 fuel m 0 0

def jjFillToken (m : QueryParserTokenManager) : Except Fault QueryParserToken := do
  let im ← element jjstrLiteralImages m.jjmatchedKind
  return {
    kind := m.jjmatchedKind
    image := if im = [] then m.input_stream.getImage else im
    beginLine := m.input_stream.getBeginLine
    beginColumn := m.input_stream.getBeginColumn
    endLine := m.input_stream.getEndLine
    endColumn := m.input_stream.getEndColumn }

/-- The move of the lexical state that the manager is in. -/
def jjMove (fuel : Nat) (m : QueryParserTokenManager) : Except Fault (Nat × QueryParserTokenManager) :=
  let start := { m with jjmatchedKind := NO_KIND, jjmatchedPos := 0 }
  match m.curLexState with
  | 0 => jjMoveStringLiteralDfa0_0 fuel start
  | 1 => jjMoveStringLiteralDfa0_1 fuel start
  | 2 => jjMoveStringLiteralDfa0_2 fuel start
  | 3 => jjMoveStringLiteralDfa0_3 fuel start
  | _ => return (0, m)

def nextLexState (m : QueryParserTokenManager) : Except Fault QueryParserTokenManager := do
  let state ← element jjnewLexState m.jjmatchedKind
  return if state ≠ -1 then { m with curLexState := state } else m

/-- The error when nothing matches. -/
def lexicalError (m : QueryParserTokenManager) (curPos : Nat) : Except Fault (LexicalError × QueryParserTokenManager) :=
  let error_line := m.input_stream.getEndLine
  let error_column := m.input_stream.getEndColumn
  let error (EOFSeen : Bool) (errorLine errorColumn : Nat) (input_stream : FastCharStream) : LexicalError :=
    { EOFSeen, lexState := m.curLexState, errorLine, errorColumn
      errorAfter := if curPos ≤ 1 then [] else input_stream.getImage
      curChar := m.curChar }
  match m.input_stream.readChar with
  | (.ok _, input_stream) =>
      let input_stream := (input_stream.backup 1).backup 1
      return (error false error_line error_column input_stream, { m with input_stream })
  | (.error .pastEOF, input_stream) =>
      if m.curChar = ofChar '\n' ∨ m.curChar = ofChar '\r' then
        return (error true (error_line + 1) 0 input_stream, { m with input_stream })
      else return (error true error_line (error_column + 1) input_stream, { m with input_stream })
  | (.error .undefined, _) => .error .outOfBounds

/-- The next token, or what a `QueryParserError` says. -/
def getNextToken : Nat → QueryParserTokenManager →
    Except Fault (Except LexicalError QueryParserToken × QueryParserTokenManager)
  | 0, _ => .error .outOfFuel
  | fuel + 1, m =>
      match m.input_stream.beginToken with
      | (.ok curChar, input_stream) => do
          let (curPos, m) ← jjMove fuel { m with curChar, input_stream }
          if m.jjmatchedKind ≠ NO_KIND then
            let m := if m.jjmatchedPos + 1 < curPos then
                { m with input_stream := m.input_stream.backup (curPos - m.jjmatchedPos - 1) }
              else m
            if (← element jjtoToken (m.jjmatchedKind >>> 6)) &&& 1 <<< (m.jjmatchedKind &&& 0o77) != 0 then
              let matchedToken ← m.jjFillToken
              return (.ok matchedToken, ← m.nextLexState)
            else getNextToken fuel (← m.nextLexState)
          else
            let (error, m) ← m.lexicalError curPos
            return (.error error, m)
      | (.error .pastEOF, input_stream) => do
          let m := { m with input_stream, jjmatchedKind := 0 }
          return (.ok (← m.jjFillToken), m)
      | (.error .undefined, _) => .error .outOfBounds

def ReInit (m : QueryParserTokenManager) (input_stream : FastCharStream) : Except Fault QueryParserTokenManager :=
  ReInitRounds { m with jjmatchedPos := 0, jjnewStateCnt := 0, curLexState := 3, input_stream }

/-- An invalid lexical state is an error, and leaves the state. -/
def SwitchTo (m : QueryParserTokenManager) (lexState : Int) : Except Unit QueryParserTokenManager :=
  if lexState ≥ 4 ∨ lexState < 0 then .error () else .ok { m with curLexState := lexState }

end QueryParserTokenManager
end LucenePlusPlus
