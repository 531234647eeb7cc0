import LucenePlusPlus.LexerRounds

/-!
The lists of states that the automata of `QueryParserTokenManager` can be in. They are finitely many, and none is longer than
half of `jjstateSet`. Up to U+FFFF every test is within its table.
-/

namespace LucenePlusPlus
namespace QueryParserTokenManager

/-- The value of a test that is within its table. -/
def value (curChar : Nat) (test : Test) : Bool :=
  match test.holds curChar with
  | .ok value => value
  | .error _ => false

/-- The white space that is skipped. -/
def WHITE_SPACE : List Nat := [9, 10, 13, 32, 0x3000]

/-- The values of the tests for the characters of 128 and more. -/
def valueAbove (canMove_0 canMove_1 canMove_2 : Bool) : Test → Bool
  | .canMove_0 => canMove_0
  | .canMove_1 => canMove_1
  | .canMove_2 => canMove_2
  | .always => true
  | _ => false

/-- The states that an automaton is started in, the lists of states that it moves to, and the kinds of its tokens. -/
structure States where
  starts : List (List Nat)
  later : List (List Nat)
  kinds : List Nat

def states_3 : States where
  starts := [[0], [36]]
  later :=
    [[25, 26], [15, 16, 18], [25, 26, 29, 32, 23, 33, 30], [25, 26, 32, 23, 33, 29, 30], [29, 30, 32, 23, 33, 25, 26],
      [32, 23, 33, 29, 30, 25, 26], [25, 26, 29, 30, 32, 23, 33], [27], [27, 31, 34], [27, 34, 31], [31, 34, 27],
      [34, 31, 27], [1, 25, 26, 32, 23, 33, 29, 30], [10, 25, 26, 32, 23, 33, 29, 30], [17], [20], [20, 21], [22],
      [25, 26, 29, 32, 23, 33, 30, 4], [29, 32, 23, 33, 30, 25, 26], [29, 32, 23, 33, 30, 25, 26, 2],
      [29, 32, 23, 33, 30, 25, 26, 6], [29, 32, 23, 33, 30, 25, 26, 8], [29, 32, 23, 33, 30, 25, 26, 11]]
  kinds := [8, 9, 10, 18, 19, 20, 21, 22]

/-- The states of the automata of the ranges. -/
def rangeStates (quoted goop : Nat) : States where
  starts := [[0], [6]]
  later :=
    [[2, 4, 5], [2, 4, 5, 6], [3, 2, 4, 5], [3, 2, 4, 5, 6], [6], [6, 2, 4], [6, 2, 4, 5], [6, 3, 2, 4, 5]]
  kinds := [quoted, goop]

def states_0 : States where
  starts := [[0]]
  later := [[0, 1], [2]]
  kinds := [25]

/-- What a round leaves: one of the lists, or none, and one of the kinds, or none. White space is matched at the start only. -/
def States.fits (s : States) (white : Bool) (states : List Nat) : Round → Bool
  | { added, kind, .. } =>
      (added == [] || s.later.contains added) && (kind == NO_KIND || s.kinds.contains kind || kind == 7 && states == [0] && white)

/-- Every list of states is left for one of the lists, on every character below 128 and whatever the values of the other tests. -/
structure States.Of (s : States) (automaton : Automaton) : Prop where
  below : ∀ c < 128, ∀ states ∈ s.starts ++ s.later,
    s.fits (WHITE_SPACE.contains c) states (move (value c) (automaton.switch c) states) = true
  above : ∀ canMove_0 canMove_1 canMove_2, ∀ states ∈ s.starts ++ s.later,
    s.fits canMove_0 states (move (valueAbove canMove_0 canMove_1 canMove_2) automaton.above states) = true
  short : automaton.size ≤ 36 ∧ ∀ states ∈ s.starts ++ s.later, states.length ≤ automaton.size
  later_ne : ∀ states ∈ s.later, states ≠ [] ∧ states ≠ [0]
  valid : ∀ switch ∈ [automaton.below64, automaton.below128, automaton.above], ∀ entry ∈ switch, ∀ branches ∈ entry.2,
    ∀ entry ∈ branches, ∀ action ∈ entry.2, action.valid = true
  tests : ∀ entry ∈ automaton.above, ∀ branches ∈ entry.2, ∀ entry ∈ branches,
    entry.1 ∈ [Test.canMove_0, Test.canMove_1, Test.canMove_2, Test.always]

theorem states_3_of : states_3.Of automaton_3 := by
  constructor <;> decide +kernel

theorem states_2_of : (rangeStates 28 29).Of automaton_2 := by
  constructor <;> decide +kernel

theorem states_1_of : (rangeStates 32 33).Of automaton_1 := by
  constructor <;> decide

theorem states_0_of : states_0.Of automaton_0 := by
  constructor <;> decide

section Characters
variable {c : Nat}

/-- The values of the tests that the states look at. -/
def reads (c : Nat) : Test → Bool :=
  if c < 128 then value c else valueAbove (value c .canMove_0) (value c .canMove_1) (value c .canMove_2)

theorem i1_lt (hlt : c < 0x10000) : c >>> 8 >>> 6 < 4 := by
  rw [Nat.shiftRight_eq_div_pow, Nat.shiftRight_eq_div_pow]
  omega

theorem i2_lt (c : Nat) : (c &&& 0xff) >>> 6 < 4 := by
  have hle : c &&& 0xff ≤ 0xff := Nat.and_le_right
  rw [Nat.shiftRight_eq_div_pow]
  omega

theorem holds_eq (hlt : c < 0x10000) (test : Test) : test.holds c = .ok (value c test) := by
  have hok : ∃ b, test.holds c = .ok b := by
    cases test with
    | mask bits => exact ⟨_, rfl⟩
    | char char => exact ⟨_, rfl⟩
    | always => exact ⟨_, rfl⟩
    | canMove_0 =>
        rw [Test.holds, jjCanMove_0.eq_def]
        split
        · exact ⟨_, by rw [element_of_lt (i2_lt c)]; rfl⟩
        · exact ⟨_, rfl⟩
    | canMove_1 =>
        rw [Test.holds, jjCanMove_1.eq_def]
        split
        · exact ⟨_, by rw [element_of_lt (i2_lt c)]; rfl⟩
        · exact ⟨_, by rw [element_of_lt (i1_lt hlt)]; rfl⟩
    | canMove_2 =>
        rw [Test.holds, jjCanMove_2.eq_def]
        split
        · exact ⟨_, by rw [element_of_lt (i2_lt c)]; rfl⟩
        · exact ⟨_, by rw [element_of_lt (i2_lt c)]; rfl⟩
        · exact ⟨_, by rw [element_of_lt (i1_lt hlt)]; rfl⟩
  obtain ⟨b, hb⟩ := hok
  rw [value, hb]

theorem canMove_2_outOfBounds (hle : 0x10000 ≤ c) : Test.canMove_2.holds c = .error .outOfBounds := by
  have hhi : 256 ≤ c >>> 8 := by
    rw [Nat.shiftRight_eq_div_pow]
    omega
  have hi1 : 4 ≤ c >>> 8 >>> 6 := by
    rw [Nat.shiftRight_eq_div_pow _ 6]
    omega
  rw [Test.holds, jjCanMove_2.eq_def]
  split
  · omega
  · omega
  · rw [element_of_le (by exact hi1)]
    rfl

theorem canMove_0_of_le (hle : 0x10000 ≤ c) : Test.canMove_0.holds c = .ok false := by
  have hhi : 256 ≤ c >>> 8 := by
    rw [Nat.shiftRight_eq_div_pow]
    omega
  rw [Test.holds, jjCanMove_0.eq_def]
  split
  · omega
  · rfl

theorem white_of_canMove_0 (hvalue : value c .canMove_0 = true) : WHITE_SPACE.contains c = true := by
  have hpage : ∀ low < 256, value (0x3000 + low) .canMove_0 = true → WHITE_SPACE.contains (0x3000 + low) = true := by
    decide +kernel
  by_cases hhi : c >>> 8 = 48
  · rw [Nat.shiftRight_eq_div_pow] at hhi
    have hc : c = 0x3000 + c % 256 := by omega
    rw [hc] at hvalue ⊢
    exact hpage _ (Nat.mod_lt _ (by decide)) hvalue
  · have hfalse : Test.canMove_0.holds c = .ok false := by
      rw [Test.holds, jjCanMove_0.eq_def]
      split
      case h_1 heq => exact absurd heq hhi
      case h_2 => rfl
    rw [value, hfalse] at hvalue
    exact absurd hvalue Bool.false_ne_true

/-- What a round leaves. -/
structure States.Left (s : States) (c : Nat) (states : List Nat) (r : Round) : Prop where
  added : r.added = [] ∨ r.added ∈ s.later
  kind : r.kind = NO_KIND ∨ r.kind ∈ s.kinds ∨ r.kind = 7 ∧ states = [0] ∧ WHITE_SPACE.contains c = true

theorem States.left_of_fits {s : States} {white : Bool} {states : List Nat} {r : Round}
    (hfits : s.fits white states r = true) (hwhite : white = true → WHITE_SPACE.contains c = true) : s.Left c states r := by
  obtain ⟨added, checked, kind⟩ := r
  simp only [States.fits, Bool.and_eq_true, Bool.or_eq_true, beq_iff_eq, List.contains_iff_mem] at hfits
  refine ⟨hfits.1, ?_⟩
  rcases hfits.2 with (hnone | hkind) | ⟨⟨hseven, hstates⟩, htrue⟩
  · exact Or.inl hnone
  · exact Or.inr (Or.inl hkind)
  · exact Or.inr (Or.inr ⟨hseven, hstates, hwhite htrue⟩)

variable {s : States} {automaton : Automaton}

theorem States.Of.left (h : s.Of automaton) (c : Nat) {states : List Nat} (hmem : states ∈ s.starts ++ s.later) :
    s.Left c states (move (reads c) (automaton.switch c) states) := by
  rw [reads]
  by_cases hlt : c < 128
  · rw [if_pos hlt]
    exact s.left_of_fits (h.below c hlt states hmem) id
  · rw [if_neg hlt, Automaton.switch, if_neg (by omega), if_neg hlt]
    exact s.left_of_fits (h.above _ _ _ states hmem) white_of_canMove_0

theorem States.Of.readsAs (h : s.Of automaton) (hlt : c < 0x10000) : ReadsAs (automaton.switch c) c (reads c) := by
  have hvalid : ∀ entry ∈ automaton.switch c, ∀ branches ∈ entry.2, ∀ entry ∈ branches,
      ∀ action ∈ entry.2, action.valid = true := by
    refine h.valid _ ?_
    rw [Automaton.switch]
    split
    · exact List.mem_cons_self ..
    · split
      · exact List.mem_cons_of_mem _ (List.mem_cons_self ..)
      · exact List.mem_cons_of_mem _ (List.mem_cons_of_mem _ (List.mem_cons_self ..))
  intro entry hentry branches hbranches test htest
  refine ⟨?_, hvalid entry hentry branches hbranches test htest⟩
  rw [holds_eq hlt, reads]
  by_cases hbelow : c < 128
  · rw [if_pos hbelow]
  · rw [Automaton.switch, if_neg (by omega), if_neg hbelow] at hentry
    have hmem := h.tests entry hentry branches hbranches test htest
    rw [if_neg hbelow]
    generalize test.1 = looked at hmem
    cases looked with
    | mask bits => simp at hmem
    | char char => simp at hmem
    | canMove_0 => rfl
    | canMove_1 => rfl
    | canMove_2 => rfl
    | always => rfl

end Characters

end QueryParserTokenManager
end LucenePlusPlus
