import LucenePlusPlus.LexerAutomata

/-!
The tokens of a query. On a text of characters up to U+FFFF every access of `getNextToken` is within its array, and the tokens
are what is read of the text, without the white space between them.
-/

namespace LucenePlusPlus
namespace QueryParserTokenManager
open FastCharStream (Buffers)
open WChar (ofChar)

variable {text : WString} {s : States} {automaton : Automaton} {m : QueryParserTokenManager}
  {states : List Nat} {tokenBegin startsAt curPos fuel : Nat}

/-- The half of `jjstateSet` that the states are in, and the half that is free. -/
def Halves (size startsAt : Nat) (m : QueryParserTokenManager) : Prop :=
  startsAt = 0 ∧ m.jjnewStateCnt = size ∨ startsAt = size ∧ m.jjnewStateCnt = 0

theorem States.Of.length_le (h : s.Of automaton) {r : Round} {c : Nat} (hleft : s.Left c states r) :
    r.added.length ≤ automaton.size := by
  rcases hleft.added with hnil | hmem
  · rw [hnil]
    exact Nat.zero_le _
  · exact h.short.2 _ (List.mem_append_right _ hmem)

theorem round_spec (h : s.Of automaton) (hready : Ready m) (hhalves : Halves automaton.size startsAt m)
    (hmem : states ∈ s.starts ++ s.later) (hne : states ≠ []) (hstates : HasStates m startsAt states)
    {c : Nat} (hlt : c < 0x10000) :
    ∃ first next, m.nextRound = .ok first ∧ first.curChar = m.curChar ∧
      moveStates (automaton.switch c) startsAt c (startsAt + states.length) (NO_KIND, first) =
        .ok ((move (reads c) (automaton.switch c) states).kind, next) ∧
      Ready next ∧ next.jjnewStateCnt = m.jjnewStateCnt + (move (reads c) (automaton.switch c) states).added.length ∧
      HasStates next m.jjnewStateCnt (move (reads c) (automaton.switch c) states).added ∧
      next = { m with
        jjrounds := next.jjrounds, jjround := next.jjround
        jjstateSet := next.jjstateSet, jjnewStateCnt := next.jjnewStateCnt } := by
  obtain ⟨first, hfirst, hready', hrounds, hsame⟩ := hready.nextRound
  have hstateSet : first.jjstateSet = m.jjstateSet := by rw [hsame]
  have hcount : first.jjnewStateCnt = m.jjnewStateCnt := by rw [hsame]
  have hsize := h.short.1
  have hshort := h.short.2 states hmem
  have hfit : m.jjnewStateCnt + automaton.size ≤ 72 := by
    rcases hhalves with ⟨-, hcnt⟩ | ⟨-, hcnt⟩ <;> omega
  have hapart : ∀ n, n < states.length →
      startsAt + n < m.jjnewStateCnt ∨ m.jjnewStateCnt + automaton.size ≤ startsAt + n := by
    intro n hn
    rcases hhalves with ⟨hstart, hcnt⟩ | ⟨hstart, hcnt⟩ <;> omega
  have hstates' : HasStates first startsAt states := fun n hn => hstateSet ▸ hstates n hn
  obtain ⟨next, hmove, hmarked⟩ := moveStates_spec (h.readsAs hlt) hstates' hne hapart hfit
    (Marked.begin hready' hrounds hcount automaton.size) (h.length_le (h.left c hmem))
  refine ⟨first, next, hfirst, by rw [hsame], hmove, hmarked.ready hready', hmarked.count, hmarked.added, ?_⟩
  have hround := hmarked.round_eq
  rw [hround]
  have hrest := hmarked.rest
  rw [hsame] at hrest
  rw [hrest]

/-- What a kind that is found changes. -/
def found (m : QueryParserTokenManager) (kind curPos : Nat) : QueryParserTokenManager :=
  if kind ≠ NO_KIND then { m with jjmatchedKind := kind, jjmatchedPos := curPos } else m

theorem rounds_succ {i c : Nat} {first next : QueryParserTokenManager} {kind : Nat} (hc : m.curChar.1.toNat = c)
    (hfirst : m.nextRound = .ok first) (hchar : first.curChar = m.curChar)
    (hmove : moveStates (automaton.switch c) startsAt c i (NO_KIND, first) = .ok (kind, next)) :
    rounds automaton (fuel + 1) startsAt i curPos m =
      if (next.found kind curPos).jjnewStateCnt = automaton.size - startsAt then
        .ok (curPos + 1, { next.found kind curPos with jjnewStateCnt := startsAt })
      else do
        let (more, m) ← { next.found kind curPos with jjnewStateCnt := startsAt }.readChar
        if more then
          rounds automaton fuel (automaton.size - startsAt) (next.found kind curPos).jjnewStateCnt (curPos + 1) m
        else return (curPos + 1, m) := by
  rw [rounds, hfirst]
  show (moveStates (automaton.switch first.curChar.1.toNat) startsAt first.curChar.1.toNat i (NO_KIND, first) >>= _) = _
  rw [hchar, hc, hmove]
  rfl

/-- The manager has read `count` characters of the token. -/
structure Reads (text : WString) (m : QueryParserTokenManager) (tokenBegin count : Nat) : Prop where
  buffers : Buffers text m.input_stream
  cursor : m.input_stream.cursor = { tokenBegin, position := tokenBegin + count }

theorem Reads.readChar {count : Nat} (h : Reads text m tokenBegin count) :
    ∃ more next, m.readChar = .ok (more, next) ∧
      next = { m with curChar := next.curChar, input_stream := next.input_stream } ∧
      (more = true ∧ text[tokenBegin + count]? = some next.curChar ∧ Reads text next tokenBegin (count + 1) ∨
        more = false ∧ text[tokenBegin + count]? = none ∧ Reads text next tokenBegin count) := by
  obtain ⟨hbuffers, hcursor⟩ := h.buffers.readChar
  rw [h.cursor, FastCharStream.Cursor.readChar] at hcursor
  rw [QueryParserTokenManager.readChar]
  cases htext : text[tokenBegin + count]? with
  | some c =>
      rw [htext, Prod.mk.injEq] at hcursor
      generalize m.input_stream.readChar = read at hbuffers hcursor
      obtain ⟨result, input⟩ := read
      obtain ⟨rfl, hcursor⟩ := hcursor
      exact ⟨true, _, rfl, rfl, Or.inl ⟨rfl, rfl, hbuffers, hcursor⟩⟩
  | none =>
      rw [htext, Prod.mk.injEq] at hcursor
      generalize m.input_stream.readChar = read at hbuffers hcursor
      obtain ⟨result, input⟩ := read
      obtain ⟨rfl, hcursor⟩ := hcursor
      exact ⟨false, _, rfl, rfl, Or.inr ⟨rfl, rfl, hbuffers, hcursor⟩⟩

def White (text : WString) (place : Nat) : Prop := ∃ c, text[place]? = some c ∧ WHITE_SPACE.contains c.1.toNat = true

/-- The characters are code points up to U+FFFF. -/
def Basic (text : WString) : Prop := ∀ c ∈ text, 0 ≤ c.1 ∧ c.1 < 0x10000

theorem Basic.toNat_lt (h : Basic text) {place : Nat} {c : WChar} (hc : text[place]? = some c) : c.1.toNat < 0x10000 := by
  have hlt := (h c (List.mem_of_getElem? hc)).2
  omega

/-- What has been read when an automaton stops, and that nothing else of the manager has changed. -/
structure Stopped (text : WString) (m : QueryParserTokenManager) (tokenBegin curPos : Nat)
    (next : QueryParserTokenManager) : Prop where
  ready : Ready next
  reads : Reads text next tokenBegin curPos
  lexState : next.curLexState = m.curLexState

/-- The kind is the one from before, or one that is found among the characters from `curPos` on. -/
def Finds (s : States) (text : WString) (states : List Nat) (m : QueryParserTokenManager) (tokenBegin curPos stop : Nat)
    (next : QueryParserTokenManager) : Prop :=
  next.jjmatchedKind = m.jjmatchedKind ∧ next.jjmatchedPos = m.jjmatchedPos ∨
    (curPos ≤ next.jjmatchedPos ∧ next.jjmatchedPos < stop) ∧
      (next.jjmatchedKind ∈ s.kinds ∨
        next.jjmatchedKind = 7 ∧ states = [0] ∧ next.jjmatchedPos = curPos ∧ White text (tokenBegin + curPos))

theorem found_of_none (m : QueryParserTokenManager) (curPos : Nat) : m.found NO_KIND curPos = m := if_neg (not_not_intro rfl)

theorem finds_found {r : Round} {next : QueryParserTokenManager} (hleft : s.Left m.curChar.1.toNat states r)
    (hchar : text[tokenBegin + curPos]? = some m.curChar)
    (hkind : next.jjmatchedKind = (m.found r.kind curPos).jjmatchedKind)
    (hpos : next.jjmatchedPos = (m.found r.kind curPos).jjmatchedPos) :
    Finds s text states m tokenBegin curPos (curPos + 1) next := by
  by_cases hnone : r.kind = NO_KIND
  · rw [hnone, found_of_none] at hkind hpos
    exact Or.inl ⟨hkind, hpos⟩
  · rw [found, if_pos hnone] at hkind hpos
    refine Or.inr ⟨⟨hpos.ge, hpos.trans_lt (Nat.lt_succ_self _)⟩, ?_⟩
    rcases hleft.kind with heq | hkinds | ⟨hseven, hstates, hwhite⟩
    · exact absurd heq hnone
    · exact Or.inl (hkind ▸ hkinds)
    · exact Or.inr ⟨hkind.trans hseven, hstates, hpos, m.curChar, hchar, hwhite⟩

theorem Finds.trans {later : List Nat} {stop : Nat} {now next : QueryParserTokenManager}
    (hfirst : Finds s text states m tokenBegin curPos (curPos + 1) now)
    (hrest : Finds s text later now tokenBegin (curPos + 1) stop next) (hlater : later ≠ [0]) (hle : curPos + 1 ≤ stop) :
    Finds s text states m tokenBegin curPos stop next := by
  rcases hrest with ⟨hkind, hpos⟩ | ⟨hplace, hkinds | ⟨-, hzero, -⟩⟩
  · rw [Finds, hkind, hpos]
    exact hfirst.imp_right (And.imp_left (And.imp_right fun hlt => hlt.trans_le hle))
  · exact Or.inr ⟨⟨by omega, hplace.2⟩, Or.inl hkinds⟩
  · exact absurd hzero hlater

theorem rounds_spec (h : s.Of automaton) (hbasic : Basic text) (hready : Ready m) (hhalves : Halves automaton.size startsAt m)
    (hmem : states ∈ s.starts ++ s.later) (hne : states ≠ []) (hstates : HasStates m startsAt states)
    (hreads : Reads text m tokenBegin (curPos + 1)) (hchar : text[tokenBegin + curPos]? = some m.curChar)
    (hfuel : text.length ≤ tokenBegin + curPos + fuel) :
    ∃ stop next, rounds automaton fuel startsAt (startsAt + states.length) curPos m = .ok (stop, next) ∧
      Stopped text m tokenBegin stop next ∧ curPos < stop ∧ Finds s text states m tokenBegin curPos stop next ∧
      ((move (reads m.curChar.1.toNat) (automaton.switch m.curChar.1.toNat) states).added = [] →
        next.jjmatchedKind = (m.found (move (reads m.curChar.1.toNat) (automaton.switch m.curChar.1.toNat) states).kind
          curPos).jjmatchedKind) := by
  induction fuel generalizing m startsAt states curPos with
  | zero =>
      have hlt := (List.getElem?_eq_some_iff.mp hchar).1
      omega
  | succ fuel ih =>
      have hlt := hbasic.toNat_lt hchar
      generalize hc : m.curChar.1.toNat = c at hlt ⊢
      obtain ⟨first, after, hfirst, hcurChar, hmove, hready', hcount, hadded, hsame⟩ :=
        round_spec h hready hhalves hmem hne hstates hlt
      have hleft := h.left c hmem
      rw [rounds_succ hc hfirst hcurChar hmove]
      generalize move (QueryParserTokenManager.reads c) (automaton.switch c) states = r at hmove hcount hadded hleft ⊢
      have hfound : after.found r.kind curPos = { after with
          jjmatchedKind := (m.found r.kind curPos).jjmatchedKind, jjmatchedPos := (m.found r.kind curPos).jjmatchedPos } := by
        rw [hsame, found, found]
        split <;> rfl
      have hfree : automaton.size - startsAt = m.jjnewStateCnt := by
        rcases hhalves with ⟨hstart, hcnt⟩ | ⟨hstart, hcnt⟩ <;> omega
      rw [hfound, hfree]
      dsimp only
      rw [hcount]
      generalize hnow : ({ after with
        jjmatchedKind := (m.found r.kind curPos).jjmatchedKind, jjmatchedPos := (m.found r.kind curPos).jjmatchedPos
        jjnewStateCnt := startsAt } : QueryParserTokenManager) = now
      have hkind : now.jjmatchedKind = (m.found r.kind curPos).jjmatchedKind := by rw [← hnow]
      have hpos : now.jjmatchedPos = (m.found r.kind curPos).jjmatchedPos := by rw [← hnow]
      have hinput : now.input_stream = m.input_stream := by rw [← hnow, hsame]
      have hstops : Stopped text m tokenBegin (curPos + 1) now :=
        ⟨hnow ▸ ⟨hready'.length_stateSet, hready'.length_rounds, hready'.round_lt, hready'.le_round, hready'.lexState⟩,
          ⟨hinput ▸ hreads.buffers, hinput ▸ hreads.cursor⟩, by rw [← hnow, hsame]⟩
      have hfinds := finds_found (hc.symm ▸ hleft) hchar hkind hpos
      by_cases hnil : r.added = []
      · rw [hnil, List.length_nil, Nat.add_zero, if_pos rfl]
        exact ⟨_, now, rfl, hstops, Nat.lt_succ_self _, hfinds, fun _ => hkind⟩
      · have hlength := List.length_pos_iff.mpr hnil
        have hlater : r.added ∈ s.later := hleft.added.resolve_left hnil
        obtain ⟨more, last, hread, hlast, hcases⟩ := hstops.reads.readChar
        rw [if_neg (by omega), hread]
        rcases hcases with ⟨rfl, htext, hreads'⟩ | ⟨rfl, -, hreads'⟩
        · have hready'' : Ready last := by
            rw [hlast]
            exact ⟨hstops.ready.length_stateSet, hstops.ready.length_rounds, hstops.ready.round_lt, hstops.ready.le_round,
              hstops.ready.lexState⟩
          have hhalves' : Halves automaton.size m.jjnewStateCnt last := by
            have hcnt : last.jjnewStateCnt = startsAt := by rw [hlast, ← hnow]
            rw [Halves, hcnt]
            exact hhalves.symm.imp And.symm And.symm
          have hstates' : HasStates last m.jjnewStateCnt r.added := by
            rw [hlast, ← hnow]
            exact hadded
          obtain ⟨stop, next, hrun, hstop, hafter, hfound', -⟩ := ih hready'' hhalves'
            (List.mem_append_right _ hlater) hnil hstates' hreads' htext (by omega)
          have hsame' : Finds s text r.added now tokenBegin (curPos + 1) stop next := by
            rw [hlast] at hfound'
            exact hfound'
          refine ⟨stop, next, hrun, ⟨hstop.ready, hstop.reads, ?_⟩, by omega,
            hfinds.trans hsame' (h.later_ne _ hlater).2 hafter.le, fun heq => absurd heq hnil⟩
          rw [hstop.lexState, hlast, hstops.lexState]
        · refine ⟨curPos + 1, last, rfl, ⟨?_, hreads', ?_⟩, Nat.lt_succ_self _, ?_, fun heq => absurd heq hnil⟩
          · rw [hlast]
            exact ⟨hstops.ready.length_stateSet, hstops.ready.length_rounds, hstops.ready.round_lt, hstops.ready.le_round,
              hstops.ready.lexState⟩
          · rw [hlast, hstops.lexState]
          · rw [hlast]
            exact hfinds

theorem jjMoveNfa_spec (h : s.Of automaton) (hbasic : Basic text) (hready : Ready m) {state : Nat} (hmem : [state] ∈ s.starts)
    (hreads : Reads text m tokenBegin (curPos + 1)) (hchar : text[tokenBegin + curPos]? = some m.curChar)
    (hfuel : text.length ≤ tokenBegin + curPos + fuel) :
    ∃ stop next, jjMoveNfa automaton fuel m state curPos = .ok (stop, next) ∧
      Stopped text m tokenBegin stop next ∧ curPos < stop ∧ Finds s text [state] m tokenBegin curPos stop next ∧
      ((move (reads m.curChar.1.toNat) (automaton.switch m.curChar.1.toNat) [state]).added = [] →
        next.jjmatchedKind = (m.found (move (reads m.curChar.1.toNat) (automaton.switch m.curChar.1.toNat) [state]).kind
          curPos).jjmatchedKind) := by
  have hlength : 0 < m.jjstateSet.length := hready.length_stateSet.symm ▸ by decide
  let begun : QueryParserTokenManager :=
    { m with jjnewStateCnt := automaton.size, jjstateSet := m.jjstateSet.set 0 state }
  have hbegun : Ready begun :=
    ⟨List.length_set.trans hready.length_stateSet, hready.length_rounds, hready.round_lt, hready.le_round, hready.lexState⟩
  have hstates : HasStates begun 0 [state] := by
    intro n hn
    have hzero : n = 0 := by
      rw [List.length_singleton] at hn
      omega
    subst hzero
    exact List.getElem?_set_self hlength
  obtain ⟨stop, next, hrun, hstop, hlt, hfinds, hdead⟩ := rounds_spec h hbasic hbegun (Or.inl ⟨rfl, rfl⟩)
    (List.mem_append_left _ hmem) (List.cons_ne_nil _ _) hstates ⟨hreads.buffers, hreads.cursor⟩ hchar hfuel
  refine ⟨stop, next, ?_, ⟨hstop.ready, hstop.reads, hstop.lexState⟩, hlt, hfinds, fun hnil => (hdead hnil).trans ?_⟩
  · rw [jjMoveNfa, element_of_lt hlength]
    exact hrun
  · rw [found, found]
    split <;> rfl

/-- A match: white space, which is skipped, or a token whose literal image, if it has one, is what has been read. -/
def Matched (text : WString) (tokenBegin kind pos : Nat) : Prop :=
  kind = 7 ∧ pos = 0 ∧ White text tokenBegin ∨
    8 ≤ kind ∧ ∃ im, jjstrLiteralImages[kind]? = some im ∧ (im = [] ∨ im = (text.drop tokenBegin).take (pos + 1))

/-- No token of the lexical state starts with the character. -/
def StartsNone (lexState : Int) (c : WChar) : Prop :=
  lexState = 0 ∧ ¬ (ofChar '0' ≤ c ∧ c ≤ ofChar '9') ∨ lexState = 3 ∧ (c = ofChar ']' ∨ c = ofChar '\x7d')

instance (lexState : Int) (c : WChar) : Decidable (StartsNone lexState c) :=
  inferInstanceAs (Decidable (_ ∨ _))

/-- What a move leaves: a match within what has been read, if there is one. -/
structure Ends (text : WString) (m : QueryParserTokenManager) (tokenBegin stop : Nat) (next : QueryParserTokenManager) :
    Prop where
  stopped : Stopped text m tokenBegin stop next
  pos : 0 < stop
  matched : next.jjmatchedKind = NO_KIND ∨
    next.jjmatchedPos < stop ∧ Matched text tokenBegin next.jjmatchedKind next.jjmatchedPos

/-- The kinds that an automaton finds have no literal image. -/
def States.Plain (s : States) : Prop := ∀ kind ∈ s.kinds, 8 ≤ kind ∧ jjstrLiteralImages[kind]? = some []

instance (s : States) : Decidable s.Plain :=
  inferInstanceAs (Decidable (∀ kind ∈ s.kinds, 8 ≤ kind ∧ jjstrLiteralImages[kind]? = some []))

theorem ends_of_finds {stop : Nat} {next : QueryParserTokenManager} (hplain : s.Plain)
    (hstop : Stopped text m tokenBegin stop next) (hlt : curPos < stop)
    (hfinds : Finds s text states m tokenBegin curPos stop next) (hzero : states = [0] → curPos = 0)
    (hbefore : m.jjmatchedKind = NO_KIND ∨ m.jjmatchedPos < stop ∧ Matched text tokenBegin m.jjmatchedKind m.jjmatchedPos) :
    Ends text m tokenBegin stop next := by
  refine ⟨hstop, by omega, ?_⟩
  rcases hfinds with ⟨hkind, hpos⟩ | ⟨hplace, hkinds | ⟨hseven, hstates, hpos, hwhite⟩⟩
  · rw [hkind, hpos]
    exact hbefore
  · obtain ⟨hle, himage⟩ := hplain _ hkinds
    exact Or.inr ⟨hplace.2, Or.inr ⟨hle, [], himage, Or.inl rfl⟩⟩
  · rw [hzero hstates, Nat.add_zero] at hwhite
    exact Or.inr ⟨hplace.2, Or.inl ⟨hseven, hpos.trans (hzero hstates), hwhite⟩⟩

theorem take_one_of_getElem? {α : Type} {xs : List α} {place : Nat} {x : α} (hx : xs[place]? = some x) :
    (xs.drop place).take 1 = [x] := by
  obtain ⟨hlt, hx⟩ := List.getElem?_eq_some_iff.mp hx
  rw [List.drop_eq_getElem_cons hlt, List.take_succ_cons, List.take_zero, hx]

theorem take_two_of_getElem? {α : Type} {xs : List α} {place : Nat} {x y : α} (hx : xs[place]? = some x)
    (hy : xs[place + 1]? = some y) : (xs.drop place).take 2 = [x, y] := by
  obtain ⟨hlt, hx⟩ := List.getElem?_eq_some_iff.mp hx
  rw [List.drop_eq_getElem_cons hlt, List.take_succ_cons, take_one_of_getElem? hy, hx]

theorem Basic.eq_ofChar (h : Basic text) {place : Nat} {c : WChar} (hc : text[place]? = some c) (char : Char)
    (hchar : c.1.toNat = char.toNat) : c = ofChar char := by
  have hle := (h c (List.mem_of_getElem? hc)).1
  refine Subtype.ext ?_
  show c.1 = (char.toNat : Int)
  omega

theorem Ready.withMatch (h : Ready m) (kind pos : Nat) : Ready { m with jjmatchedKind := kind, jjmatchedPos := pos } :=
  ⟨h.length_stateSet, h.length_rounds, h.round_lt, h.le_round, h.lexState⟩

theorem Ready.withChar (h : Ready m) (curChar : WChar) (input_stream : FastCharStream) :
    Ready { m with curChar, input_stream } :=
  ⟨h.length_stateSet, h.length_rounds, h.round_lt, h.le_round, h.lexState⟩

theorem jjStopAtPos_ends (hready : Ready m) (hreads : Reads text m tokenBegin 1)
    (hchar : text[tokenBegin]? = some m.curChar) {kind : Nat} (hkind : 8 ≤ kind)
    (himage : jjstrLiteralImages[kind]? = some [m.curChar]) :
    Ends text m tokenBegin (m.jjStopAtPos 0 kind).1 (m.jjStopAtPos 0 kind).2 :=
  ⟨⟨hready.withMatch kind 0, ⟨hreads.buffers, hreads.cursor⟩, rfl⟩, Nat.one_pos,
    Or.inr ⟨Nat.one_pos, Or.inr ⟨hkind, _, himage, Or.inr (take_one_of_getElem? hchar).symm⟩⟩⟩

theorem jjStartNfaWithStates_ends (h : s.Of automaton) (hplain : s.Plain) (hbasic : Basic text) (hready : Ready m)
    {state kind pos : Nat} (hmem : [state] ∈ s.starts) (hstate : state ≠ 0) (hreads : Reads text m tokenBegin (pos + 1))
    (hmatched : Matched text tokenBegin kind pos) (hfuel : text.length ≤ tokenBegin + (pos + 1) + fuel) :
    ∃ stop next, jjStartNfaWithStates automaton fuel m pos kind state = .ok (stop, next) ∧
      Ends text m tokenBegin stop next := by
  let begun : QueryParserTokenManager := { m with jjmatchedKind := kind, jjmatchedPos := pos }
  have hbegun : Reads text begun tokenBegin (pos + 1) := ⟨hreads.buffers, hreads.cursor⟩
  obtain ⟨more, after, hread, hafter, hcases⟩ := hbegun.readChar
  have hready' : Ready after := by
    rw [hafter]
    exact (hready.withMatch kind pos).withChar _ _
  have hkind : after.jjmatchedKind = kind := by rw [hafter]
  have hpos : after.jjmatchedPos = pos := by rw [hafter]
  have hlexState : after.curLexState = m.curLexState := by rw [hafter]
  rw [jjStartNfaWithStates, hread]
  rcases hcases with ⟨rfl, htext, hreads'⟩ | ⟨rfl, -, hreads'⟩
  · obtain ⟨stop, next, hrun, hstop, hlt, hfinds, -⟩ := jjMoveNfa_spec h hbasic hready' hmem hreads' htext hfuel
    have hends := ends_of_finds hplain hstop hlt hfinds (fun heq => absurd (List.head_eq_of_cons_eq heq) hstate)
      (Or.inr ⟨by omega, by rwa [hkind, hpos]⟩)
    exact ⟨stop, next, hrun, ⟨hends.stopped.ready, hends.stopped.reads, hends.stopped.lexState.trans hlexState⟩,
      hends.pos, hends.matched⟩
  · refine ⟨pos + 1, after, rfl, ⟨hready', hreads', hlexState⟩, Nat.succ_pos _, Or.inr ⟨by omega, ?_⟩⟩
    rwa [hkind, hpos]

theorem jjMoveNfa_ends (h : s.Of automaton) (hplain : s.Plain) (hbasic : Basic text) (hready : Ready m)
    (hmem : [0] ∈ s.starts) (hreads : Reads text m tokenBegin 1) (hchar : text[tokenBegin]? = some m.curChar)
    (hkind : m.jjmatchedKind = NO_KIND) (hfuel : text.length ≤ tokenBegin + fuel) :
    ∃ stop next, jjMoveNfa automaton fuel m 0 0 = .ok (stop, next) ∧ Ends text m tokenBegin stop next ∧
      ((move (reads m.curChar.1.toNat) (automaton.switch m.curChar.1.toNat) [0]).added = [] →
        (move (reads m.curChar.1.toNat) (automaton.switch m.curChar.1.toNat) [0]).kind = NO_KIND →
        next.jjmatchedKind = NO_KIND) := by
  obtain ⟨stop, next, hrun, hstop, hlt, hfinds, hdead⟩ := jjMoveNfa_spec h hbasic hready hmem hreads hchar hfuel
  refine ⟨stop, next, hrun, ends_of_finds hplain hstop hlt hfinds (fun _ => rfl) (Or.inl hkind), fun hnil hnone => ?_⟩
  rw [hdead hnil, hnone, found_of_none, hkind]

theorem jjMoveStringLiteralDfa1_ends (h : s.Of automaton) (hplain : s.Plain) (hbasic : Basic text) (hready : Ready m)
    (hmem : [6] ∈ s.starts) (hreads : Reads text m tokenBegin 1) (hchar : text[tokenBegin]? = some (ofChar 'T'))
    {bit kind goop : Nat} (hbit : (bit &&& bit != 0) = true) (hgoop : goop ∈ s.kinds) (hle : 8 ≤ kind)
    (himage : jjstrLiteralImages[kind]? = some [ofChar 'T', ofChar 'O']) (hpos : m.jjmatchedPos = 0)
    (hfuel : text.length ≤ tokenBegin + fuel) :
    ∃ stop next, jjMoveStringLiteralDfa1 automaton bit kind goop fuel m bit = .ok (stop, next) ∧
      Ends text m tokenBegin stop next := by
  obtain ⟨hgoop, hplainGoop⟩ := hplain goop hgoop
  obtain ⟨more, after, hread, hafter, hcases⟩ := hreads.readChar
  have hready' : Ready after := by
    rw [hafter]
    exact hready.withChar _ _
  have hpos' : after.jjmatchedPos = 0 := by rw [hafter, hpos]
  have hlexState : after.curLexState = m.curLexState := by rw [hafter]
  have hstopGoop : jjStopStringLiteralDfa bit goop after 0 bit = (6, { after with jjmatchedKind := goop }) := if_pos hbit
  have hmatchedGoop : Matched text tokenBegin goop 0 := Or.inr ⟨hgoop, [], hplainGoop, Or.inl rfl⟩
  rw [jjMoveStringLiteralDfa1, hread]
  rcases hcases with ⟨rfl, htext, hreads'⟩ | ⟨rfl, -, hreads'⟩
  · show ∃ stop next, (if after.curChar.1.toNat = 79 ∧ (bit &&& bit != 0) = true
      then jjStartNfaWithStates automaton fuel after 1 kind 6
      else jjMoveNfa automaton fuel (jjStopStringLiteralDfa bit goop after 0 bit).2
        (jjStopStringLiteralDfa bit goop after 0 bit).1 1) = _ ∧ _
    have hfuel' : text.length ≤ tokenBegin + (1 + 1) + fuel := by omega
    by_cases hO : after.curChar.1.toNat = 79
    · rw [hbasic.eq_ofChar htext 'O' hO] at htext
      have hmatched : Matched text tokenBegin kind 1 :=
        Or.inr ⟨hle, _, himage, Or.inr (take_two_of_getElem? hchar htext).symm⟩
      obtain ⟨stop, next, hrun, hends⟩ := jjStartNfaWithStates_ends h hplain hbasic hready' hmem (by decide) hreads'
        hmatched hfuel'
      rw [if_pos ⟨hO, hbit⟩]
      exact ⟨stop, next, hrun, ⟨hends.stopped.ready, hends.stopped.reads, hends.stopped.lexState.trans hlexState⟩,
        hends.pos, hends.matched⟩
    · have hreads'' : Reads text { after with jjmatchedKind := goop } tokenBegin (1 + 1) := ⟨hreads'.buffers, hreads'.cursor⟩
      obtain ⟨stop, next, hrun, hstop, hlt, hfinds, -⟩ := jjMoveNfa_spec h hbasic (hready'.withMatch goop after.jjmatchedPos)
        hmem hreads'' htext (by omega : text.length ≤ tokenBegin + 1 + fuel)
      have hends := ends_of_finds hplain hstop hlt hfinds (fun heq => absurd (List.head_eq_of_cons_eq heq) (by decide))
        (Or.inr ⟨by dsimp only; omega, by dsimp only; rwa [hpos']⟩)
      rw [if_neg fun hboth => hO hboth.1, hstopGoop]
      exact ⟨stop, next, hrun, ⟨hends.stopped.ready, hends.stopped.reads, hends.stopped.lexState.trans hlexState⟩,
        hends.pos, hends.matched⟩
  · refine ⟨1, _, rfl, ?_⟩
    rw [hstopGoop]
    refine ⟨⟨hready'.withMatch goop after.jjmatchedPos, ⟨hreads'.buffers, hreads'.cursor⟩, hlexState⟩, Nat.one_pos,
      Or.inr ⟨?_, ?_⟩⟩
    · dsimp only
      omega
    · dsimp only
      rwa [hpos']

/-! ### The lexical states -/

theorem states_3_plain : states_3.Plain := by
  decide

theorem states_2_plain : (rangeStates 28 29).Plain := by
  decide

theorem states_1_plain : (rangeStates 32 33).Plain := by
  decide

theorem states_0_plain : states_0.Plain := by
  decide

/-- On `]` and `}` the automaton of DEFAULT stops, and on anything but a digit that of Boost. -/
theorem dead_3 : ∀ c ∈ [93, 125], (move (reads c) (automaton_3.switch c) [0]).added = [] ∧
    (move (reads c) (automaton_3.switch c) [0]).kind = NO_KIND := by
  decide

theorem dead_0 {c : Nat} (hdigit : ¬ (48 ≤ c ∧ c ≤ 57)) : (move (reads c) (automaton_0.switch c) [0]).added = [] ∧
    (move (reads c) (automaton_0.switch c) [0]).kind = NO_KIND := by
  have hbelow : ∀ c < 64, ¬ (48 ≤ c ∧ c ≤ 57) → (move (reads c) (automaton_0.switch c) [0]).added = [] ∧
      (move (reads c) (automaton_0.switch c) [0]).kind = NO_KIND := by
    decide
  by_cases hlt : c < 64
  · exact hbelow c hlt hdigit
  · have hswitch : automaton_0.switch c = [] := by
      rw [Automaton.switch, if_neg hlt, automaton_0]
      exact ite_self _
    rw [hswitch]
    exact ⟨rfl, rfl⟩

theorem stops_3 (hbasic : Basic text) (hready : Ready m) (hreads : Reads text m tokenBegin 1)
    (hchar : text[tokenBegin]? = some m.curChar) (kind : Nat) (char : Char) (hc : m.curChar.1.toNat = char.toNat) (hle : 8 ≤ kind)
    (himage : jjstrLiteralImages[kind]? = some [ofChar char]) (hstarts : ¬ StartsNone 3 (ofChar char)) :
    ∃ stop next, (.ok (m.jjStopAtPos 0 kind) : Except Fault _) = .ok (stop, next) ∧ Ends text m tokenBegin stop next ∧
      (StartsNone 3 m.curChar → next.jjmatchedKind = NO_KIND) := by
  have hcurChar := hbasic.eq_ofChar hchar char hc
  exact ⟨_, _, rfl, jjStopAtPos_ends hready hreads hchar hle (hcurChar ▸ himage), fun hnone => absurd (hcurChar ▸ hnone) hstarts⟩

section Moves
variable (hbasic : Basic text) (hready : Ready m) (hreads : Reads text m tokenBegin 1)
  (hchar : text[tokenBegin]? = some m.curChar) (hkind : m.jjmatchedKind = NO_KIND)
  (hfuel : text.length ≤ tokenBegin + fuel)
include hbasic hready hreads hchar hkind hfuel

theorem jjMoveStringLiteralDfa0_0_ends : ∃ stop next, jjMoveStringLiteralDfa0_0 fuel m = .ok (stop, next) ∧
    Ends text m tokenBegin stop next ∧ (StartsNone 0 m.curChar → next.jjmatchedKind = NO_KIND) := by
  obtain ⟨stop, next, hrun, hends, hdead⟩ :=
    jjMoveNfa_ends states_0_of states_0_plain hbasic hready (by decide) hreads hchar hkind hfuel
  refine ⟨stop, next, hrun, hends, fun hnone => ?_⟩
  have hdigit : ¬ (48 ≤ m.curChar.1.toNat ∧ m.curChar.1.toNat ≤ 57) := by
    rcases hnone with ⟨-, hdigit⟩ | ⟨heq, -⟩
    · have hle := (hbasic m.curChar (List.mem_of_getElem? hchar)).1
      exact fun hboth => hdigit ⟨show (48 : Int) ≤ m.curChar.1 by omega, show m.curChar.1 ≤ (57 : Int) by omega⟩
    · exact absurd heq (by decide)
  exact hdead (dead_0 hdigit).1 (dead_0 hdigit).2

theorem jjMoveStringLiteralDfa0_1_ends (hpos : m.jjmatchedPos = 0) :
    ∃ stop next, jjMoveStringLiteralDfa0_1 fuel m = .ok (stop, next) ∧ Ends text m tokenBegin stop next := by
  rw [jjMoveStringLiteralDfa0_1]
  split
  case h_1 hT =>
    rw [hbasic.eq_ofChar hchar 'T' hT] at hchar
    exact jjMoveStringLiteralDfa1_ends states_1_of states_1_plain hbasic hready (by decide) hreads hchar (by decide)
      (by decide) (by decide) rfl hpos hfuel
  case h_2 hend =>
    have himage : jjstrLiteralImages[31]? = some [m.curChar] := by rw [hbasic.eq_ofChar hchar '\x7d' hend]; rfl
    exact ⟨_, _, rfl, jjStopAtPos_ends hready hreads hchar (by decide) himage⟩
  case h_3 =>
    obtain ⟨stop, next, hrun, hends, -⟩ :=
      jjMoveNfa_ends states_1_of states_1_plain hbasic hready (by decide) hreads hchar hkind hfuel
    exact ⟨stop, next, hrun, hends⟩

theorem jjMoveStringLiteralDfa0_2_ends (hpos : m.jjmatchedPos = 0) :
    ∃ stop next, jjMoveStringLiteralDfa0_2 fuel m = .ok (stop, next) ∧ Ends text m tokenBegin stop next := by
  rw [jjMoveStringLiteralDfa0_2]
  split
  case h_1 hT =>
    rw [hbasic.eq_ofChar hchar 'T' hT] at hchar
    exact jjMoveStringLiteralDfa1_ends states_2_of states_2_plain hbasic hready (by decide) hreads hchar (by decide)
      (by decide) (by decide) rfl hpos hfuel
  case h_2 hend =>
    have himage : jjstrLiteralImages[27]? = some [m.curChar] := by rw [hbasic.eq_ofChar hchar ']' hend]; rfl
    exact ⟨_, _, rfl, jjStopAtPos_ends hready hreads hchar (by decide) himage⟩
  case h_3 =>
    obtain ⟨stop, next, hrun, hends, -⟩ :=
      jjMoveNfa_ends states_2_of states_2_plain hbasic hready (by decide) hreads hchar hkind hfuel
    exact ⟨stop, next, hrun, hends⟩

theorem jjMoveStringLiteralDfa0_3_ends : ∃ stop next, jjMoveStringLiteralDfa0_3 fuel m = .ok (stop, next) ∧
    Ends text m tokenBegin stop next ∧ (StartsNone 3 m.curChar → next.jjmatchedKind = NO_KIND) := by
  have hstops := stops_3 hbasic hready hreads hchar
  rw [jjMoveStringLiteralDfa0_3]
  split
  case h_1 hc => exact hstops 13 '(' hc (by decide) rfl (by decide)
  case h_2 hc => exact hstops 14 ')' hc (by decide) rfl (by decide)
  case h_3 hc =>
    have hcurChar := hbasic.eq_ofChar hchar '*' hc
    have hmatched : Matched text tokenBegin 16 0 :=
      Or.inr ⟨by decide, _, rfl, Or.inr (hcurChar ▸ take_one_of_getElem? hchar).symm⟩
    obtain ⟨stop, next, hrun, hends⟩ := jjStartNfaWithStates_ends states_3_of states_3_plain hbasic hready
      (by decide : [36] ∈ states_3.starts) (by decide) hreads hmatched
      (by omega : text.length ≤ tokenBegin + (0 + 1) + fuel)
    refine ⟨stop, next, hrun, hends, fun hnone => absurd (hcurChar ▸ hnone) (by decide)⟩
  case h_4 hc => exact hstops 11 '+' hc (by decide) rfl (by decide)
  case h_5 hc => exact hstops 12 '-' hc (by decide) rfl (by decide)
  case h_6 hc => exact hstops 15 ':' hc (by decide) rfl (by decide)
  case h_7 hc => exact hstops 23 '[' hc (by decide) rfl (by decide)
  case h_8 hc => exact hstops 17 '^' hc (by decide) rfl (by decide)
  case h_9 hc => exact hstops 24 '\x7b' hc (by decide) rfl (by decide)
  case h_10 =>
    obtain ⟨stop, next, hrun, hends, hdead⟩ :=
      jjMoveNfa_ends states_3_of states_3_plain hbasic hready (by decide) hreads hchar hkind hfuel
    refine ⟨stop, next, hrun, hends, fun hnone => ?_⟩
    have hc : m.curChar.1.toNat ∈ [93, 125] := by
      rcases hnone with ⟨heq, -⟩ | ⟨-, hc | hc⟩
      · exact absurd heq (by decide)
      · rw [hc]; decide
      · rw [hc]; decide
    exact hdead (dead_3 _ hc).1 (dead_3 _ hc).2

end Moves

theorem jjMove_ends (hbasic : Basic text) (hready : Ready m) (hreads : Reads text m tokenBegin 1)
    (hchar : text[tokenBegin]? = some m.curChar) (hfuel : text.length ≤ tokenBegin + fuel) :
    ∃ stop next, jjMove fuel m = .ok (stop, next) ∧ Ends text m tokenBegin stop next ∧
      (StartsNone m.curLexState m.curChar → next.jjmatchedKind = NO_KIND) := by
  have hstart : Ready { m with jjmatchedKind := NO_KIND, jjmatchedPos := 0 } := hready.withMatch NO_KIND 0
  have hreads' : Reads text { m with jjmatchedKind := NO_KIND, jjmatchedPos := 0 } tokenBegin 1 :=
    ⟨hreads.buffers, hreads.cursor⟩
  have hlexState : m.curLexState = 0 ∨ m.curLexState = 1 ∨ m.curLexState = 2 ∨ m.curLexState = 3 := by
    have hstate := hready.lexState
    omega
  let start : QueryParserTokenManager := { m with jjmatchedKind := NO_KIND, jjmatchedPos := 0 }
  rcases hlexState with hstate | hstate | hstate | hstate
  · have hmove : jjMove fuel m = jjMoveStringLiteralDfa0_0 fuel start := by simp only [jjMove, start, hstate]
    obtain ⟨stop, next, hrun, hends, hdead⟩ := jjMoveStringLiteralDfa0_0_ends hbasic hstart hreads' hchar rfl hfuel
    rw [hmove, hstate]
    exact ⟨stop, next, hrun, ⟨⟨hends.stopped.ready, hends.stopped.reads, hends.stopped.lexState⟩, hends.pos, hends.matched⟩,
      hdead⟩
  · have hmove : jjMove fuel m = jjMoveStringLiteralDfa0_1 fuel start := by simp only [jjMove, start, hstate]
    obtain ⟨stop, next, hrun, hends⟩ := jjMoveStringLiteralDfa0_1_ends hbasic hstart hreads' hchar rfl hfuel rfl
    rw [hmove, hstate]
    exact ⟨stop, next, hrun, ⟨⟨hends.stopped.ready, hends.stopped.reads, hends.stopped.lexState⟩, hends.pos, hends.matched⟩,
      fun hnone => absurd hnone (by rw [StartsNone]; omega)⟩
  · have hmove : jjMove fuel m = jjMoveStringLiteralDfa0_2 fuel start := by simp only [jjMove, start, hstate]
    obtain ⟨stop, next, hrun, hends⟩ := jjMoveStringLiteralDfa0_2_ends hbasic hstart hreads' hchar rfl hfuel rfl
    rw [hmove, hstate]
    exact ⟨stop, next, hrun, ⟨⟨hends.stopped.ready, hends.stopped.reads, hends.stopped.lexState⟩, hends.pos, hends.matched⟩,
      fun hnone => absurd hnone (by rw [StartsNone]; omega)⟩
  · have hmove : jjMove fuel m = jjMoveStringLiteralDfa0_3 fuel start := by simp only [jjMove, start, hstate]
    obtain ⟨stop, next, hrun, hends, hdead⟩ := jjMoveStringLiteralDfa0_3_ends hbasic hstart hreads' hchar rfl hfuel
    rw [hmove, hstate]
    exact ⟨stop, next, hrun, ⟨⟨hends.stopped.ready, hends.stopped.reads, hends.stopped.lexState⟩, hends.pos, hends.matched⟩,
      hdead⟩

theorem Matched.kind_lt {kind pos : Nat} (h : Matched text tokenBegin kind pos) : 7 ≤ kind ∧ kind < 34 := by
  rcases h with ⟨rfl, -, -⟩ | ⟨hle, im, himage, -⟩
  · decide
  · exact ⟨by omega, (List.getElem?_eq_some_iff.mp himage).1⟩

theorem jjtoToken_spec {kind : Nat} (hkind : 7 ≤ kind ∧ kind < 34) :
    ∃ word, element jjtoToken (kind >>> 6) = .ok word ∧ (word &&& 1 <<< (kind &&& 0o77) != 0) = decide (kind ≠ 7) := by
  have hbits : ∀ kind < 34, 7 ≤ kind → (0x3ffffff01 &&& 1 <<< (kind &&& 0o77) != 0) = decide (kind ≠ 7) := by decide
  have hzero : kind >>> 6 = 0 := by
    rw [Nat.shiftRight_eq_div_pow]
    omega
  exact ⟨0x3ffffff01, by rw [hzero]; rfl, hbits kind hkind.2 hkind.1⟩

theorem nextLexState_spec (hready : Ready m) (hkind : m.jjmatchedKind < 34) :
    ∃ next, m.nextLexState = .ok next ∧ Ready next ∧ next.input_stream = m.input_stream ∧
      (m.jjmatchedKind = 7 → next.curLexState = m.curLexState) := by
  have hstates : ∀ state ∈ jjnewLexState, state ≠ -1 → 0 ≤ state ∧ state < 4 := by decide
  rw [nextLexState, element_of_lt (show m.jjmatchedKind < jjnewLexState.length from hkind)]
  show ∃ next, (.ok (if jjnewLexState[m.jjmatchedKind] ≠ -1
    then { m with curLexState := jjnewLexState[m.jjmatchedKind] } else m) : Except Fault _) = .ok next ∧ _
  by_cases hsame : jjnewLexState[m.jjmatchedKind] = -1
  · rw [if_neg (not_not_intro hsame)]
    exact ⟨m, rfl, hready, rfl, fun _ => rfl⟩
  · rw [if_pos hsame]
    refine ⟨_, rfl, ⟨hready.length_stateSet, hready.length_rounds, hready.round_lt, hready.le_round,
      hstates _ (List.getElem_mem _) hsame⟩, rfl, fun hseven => absurd ?_ hsame⟩
    simp only [hseven]
    rfl

theorem backup_reads {stop : Nat} {next : QueryParserTokenManager} (hends : Ends text m tokenBegin stop next)
    (hpos : next.jjmatchedPos < stop) :
    Reads text (if next.jjmatchedPos + 1 < stop
      then { next with input_stream := next.input_stream.backup (stop - next.jjmatchedPos - 1) } else next)
      tokenBegin (next.jjmatchedPos + 1) := by
  obtain ⟨hbuffers, hcursor⟩ := hends.stopped.reads
  split
  case isTrue hmore =>
    have hamount : stop - next.jjmatchedPos - 1 ≤ next.input_stream.cursor.position - next.input_stream.cursor.tokenBegin := by
      rw [hcursor]
      dsimp only
      omega
    obtain ⟨hback, hcursor'⟩ := hbuffers.backup hamount
    refine ⟨hback, hcursor'.trans ?_⟩
    rw [hcursor, FastCharStream.Cursor.mk.injEq]
    exact ⟨rfl, by dsimp only; omega⟩
  case isFalse hall =>
    have hstop : stop = next.jjmatchedPos + 1 := by omega
    exact ⟨hbuffers, hstop ▸ hcursor⟩

theorem jjFillToken_spec {count : Nat} (hreads : Reads text m tokenBegin count) {im : WString}
    (hmatched : jjstrLiteralImages[m.jjmatchedKind]? = some im) (him : im = [] ∨ im = (text.drop tokenBegin).take count) :
    ∃ token, m.jjFillToken = .ok token ∧ token.kind = m.jjmatchedKind ∧ token.image = (text.drop tokenBegin).take count := by
  have himage := hreads.buffers.getImage
  have hcursor := hreads.cursor
  rw [FastCharStream.cursor, FastCharStream.Cursor.mk.injEq] at hcursor
  rw [hcursor.1, hcursor.2, Nat.add_sub_cancel_left] at himage
  rw [jjFillToken, element, hmatched]
  refine ⟨_, rfl, rfl, ?_⟩
  dsimp only
  split
  case isTrue => exact himage
  case isFalse hne => exact him.resolve_left hne

/-- From a place of the text on there is white space, and after it the image of the token, up to where the stream is. A token
without a kind is the end of the text. With an error, there is a character where no token is read. -/
def Lexed (text : WString) (lexState : Int) (place : Nat) (result : Except LexicalError QueryParserToken)
    (next : QueryParserTokenManager) : Prop :=
  ∃ skipped : WString, (∀ c ∈ skipped, WHITE_SPACE.contains c.1.toNat = true) ∧
    match result with
    | .ok token =>
        text.drop place = skipped ++ token.image ++ text.drop next.input_stream.cursor.position ∧
          next.input_stream.cursor =
            { tokenBegin := place + skipped.length, position := place + skipped.length + token.image.length } ∧
          (token.kind = 0 ∧ token.image = [] ∧ next.input_stream.cursor.position = text.length ∨
            token.kind ≠ 0 ∧ ∃ c rest, token.image = c :: rest ∧ ¬ StartsNone lexState c)
    | .error _ => ∃ c rest, text.drop place = skipped ++ c :: rest

theorem lexicalError_spec {stop : Nat} (hready : Ready m) (hreads : Reads text m tokenBegin stop) (hpos : 0 < stop) :
    ∃ error next, m.lexicalError stop = .ok (error, next) ∧ Ready next ∧ Buffers text next.input_stream := by
  obtain ⟨hbuffers, hcursor⟩ := hreads.buffers.readChar
  rw [hreads.cursor, FastCharStream.Cursor.readChar] at hcursor
  rw [lexicalError]
  dsimp only
  generalize m.input_stream.readChar = read at hbuffers hcursor ⊢
  obtain ⟨result, input⟩ := read
  cases htext : text[tokenBegin + stop]? with
  | some c =>
      rw [htext, Prod.mk.injEq] at hcursor
      obtain ⟨rfl, hcursor⟩ := hcursor
      have hfirst : 1 ≤ input.cursor.position - input.cursor.tokenBegin := by
        rw [hcursor]
        dsimp only
        omega
      obtain ⟨hback, hcursor'⟩ := hbuffers.backup hfirst
      have hsecond : 1 ≤ (input.backup 1).cursor.position - (input.backup 1).cursor.tokenBegin := by
        rw [hcursor', hcursor]
        dsimp only
        omega
      exact ⟨_, _, rfl, hready.withChar m.curChar _, (hback.backup hsecond).1⟩
  | none =>
      rw [htext, Prod.mk.injEq] at hcursor
      obtain ⟨rfl, hcursor⟩ := hcursor
      dsimp only
      split
      · exact ⟨_, _, rfl, hready.withChar m.curChar _, hbuffers⟩
      · exact ⟨_, _, rfl, hready.withChar m.curChar _, hbuffers⟩

theorem drop_eq_take_append {α : Type} (xs : List α) (place count : Nat) :
    xs.drop place = (xs.drop place).take count ++ xs.drop (place + count) := by
  rw [← List.drop_drop, List.take_append_drop]

theorem Lexed.cons {lexState : Int} {place : Nat} {c : WChar} {result : Except LexicalError QueryParserToken}
    {next : QueryParserTokenManager} (hdrop : text.drop place = c :: text.drop (place + 1))
    (hwhite : WHITE_SPACE.contains c.1.toNat = true) (h : Lexed text lexState (place + 1) result next) :
    Lexed text lexState place result next := by
  obtain ⟨skipped, hskipped, hresult⟩ := h
  refine ⟨c :: skipped, fun d hmem => ?_, ?_⟩
  · rcases List.mem_cons.mp hmem with rfl | hmem
    · exact hwhite
    · exact hskipped d hmem
  · cases result with
    | ok token =>
        obtain ⟨htext, hcursor, hkind⟩ := hresult
        refine ⟨?_, ?_, hkind⟩
        · rw [hdrop, htext, List.cons_append, List.cons_append]
        · rw [hcursor, List.length_cons, FastCharStream.Cursor.mk.injEq]
          omega
    | error error =>
        obtain ⟨d, rest, htext⟩ := hresult
        exact ⟨d, rest, by rw [hdrop, htext, List.cons_append]⟩

theorem getNextToken_spec (hbasic : Basic text) (hready : Ready m) (hbuffers : Buffers text m.input_stream)
    (hfuel : text.length + 2 ≤ m.input_stream.cursor.position + fuel) (hle : m.input_stream.cursor.position ≤ text.length) :
    ∃ result next, getNextToken fuel m = .ok (result, next) ∧ Ready next ∧ Buffers text next.input_stream ∧
      Lexed text m.curLexState m.input_stream.cursor.position result next := by
  induction fuel generalizing m with
  | zero => omega
  | succ fuel ih =>
      obtain ⟨hbegun, hcursor⟩ := hbuffers.beginToken
      rw [FastCharStream.Cursor.readChar] at hcursor
      dsimp only at hcursor
      generalize hplace : m.input_stream.cursor.position = place at hcursor hfuel hle ⊢
      rw [getNextToken]
      generalize m.input_stream.beginToken = begun at hbegun hcursor ⊢
      obtain ⟨result, input⟩ := begun
      cases htext : text[place]? with
      | none =>
          rw [htext, Prod.mk.injEq] at hcursor
          obtain ⟨rfl, hcursor⟩ := hcursor
          have hend : place = text.length := le_antisymm hle (List.getElem?_eq_none_iff.mp htext)
          have hreads : Reads text { m with input_stream := input, jjmatchedKind := 0 } place 0 := ⟨hbegun, hcursor⟩
          obtain ⟨token, htoken, hkind, himage⟩ := jjFillToken_spec hreads rfl (Or.inl rfl)
          dsimp only
          rw [htoken]
          rw [List.take_zero] at himage
          refine ⟨_, _, rfl, (hready.withMatch 0 m.jjmatchedPos).withChar m.curChar input, hbegun, [], by simp, ?_, ?_, ?_⟩
          · rw [himage, hcursor]
            rfl
          · rw [himage]
            exact hcursor
          · exact Or.inl ⟨hkind, himage, by rw [hcursor, hend]⟩
      | some c =>
          rw [htext, Prod.mk.injEq] at hcursor
          obtain ⟨rfl, hcursor⟩ := hcursor
          have hreads : Reads text { m with curChar := c, input_stream := input } place 1 := ⟨hbegun, hcursor⟩
          have hdrop : text.drop place = c :: text.drop (place + 1) := by
            obtain ⟨hlt, rfl⟩ := List.getElem?_eq_some_iff.mp htext
            exact List.drop_eq_getElem_cons hlt
          obtain ⟨stop, after, hmove, hends, hnone⟩ := jjMove_ends hbasic (hready.withChar c input) hreads htext
            (by omega : text.length ≤ place + fuel)
          dsimp only
          rw [hmove]
          show ∃ result next, (if after.jjmatchedKind ≠ NO_KIND then _ else _) = _ ∧ _
          rcases hends.matched with hno | ⟨hpos, hmatched⟩
          · obtain ⟨error, next, herror, hready', hbuffers'⟩ :=
              lexicalError_spec hends.stopped.ready hends.stopped.reads hends.pos
            rw [if_neg (not_not_intro hno), herror]
            exact ⟨.error error, next, rfl, hready', hbuffers', [], by simp, c, _, hdrop⟩
          · have hlt := hmatched.kind_lt
            have hkind : after.jjmatchedKind ≠ NO_KIND := fun heq => by
              rw [heq, NO_KIND] at hlt
              omega
            have hback := backup_reads hends hpos
            have hsame : (if after.jjmatchedPos + 1 < stop
                then { after with input_stream := after.input_stream.backup (stop - after.jjmatchedPos - 1) } else after) =
                { after with input_stream := (if after.jjmatchedPos + 1 < stop
                  then { after with input_stream := after.input_stream.backup (stop - after.jjmatchedPos - 1) }
                  else after).input_stream } := by
              split <;> rfl
            rw [if_pos hkind]
            dsimp only
            generalize hgen : (if after.jjmatchedPos + 1 < stop
              then { after with input_stream := after.input_stream.backup (stop - after.jjmatchedPos - 1) }
              else after) = back at hback hsame ⊢
            have hbackKind : back.jjmatchedKind = after.jjmatchedKind := by rw [hsame]
            have hbackState : back.curLexState = m.curLexState := by
              rw [hsame]
              exact hends.stopped.lexState
            have hbackReady : Ready back := by
              rw [hsame]
              exact hends.stopped.ready.withChar after.curChar _
            obtain ⟨word, hword, hbit⟩ := jjtoToken_spec hlt
            obtain ⟨next, hnext, hready', hinput, hstate⟩ := nextLexState_spec hbackReady (hbackKind.symm ▸ hlt.2)
            rw [hbackKind, hword]
            show ∃ result next, (if (word &&& 1 <<< (after.jjmatchedKind &&& 0o77) != 0) = true then _ else _) = _ ∧ _
            rw [hbit]
            rcases hmatched with ⟨hseven, hzero, hwhite⟩ | ⟨height, im, him, himage⟩
            · have htail : Lexed text next.curLexState (place + 1) = Lexed text m.curLexState (place + 1) := by
                rw [hstate (hbackKind.trans hseven), hbackState]
              rw [hzero] at hback
              have hnextBuffers : Buffers text next.input_stream := hinput ▸ hback.buffers
              have hnextCursor : next.input_stream.cursor = { tokenBegin := place, position := place + 1 } :=
                hinput ▸ hback.cursor
              have hlt : place < text.length := (List.getElem?_eq_some_iff.mp htext).1
              obtain ⟨result, last, hrun, hlast, hbuffers', hlexed⟩ := ih hready' hnextBuffers
                (by rw [hnextCursor]; dsimp only; omega) (by rw [hnextCursor]; exact hlt)
              rw [hnextCursor] at hlexed
              rw [if_neg (by simp [hseven]), hnext]
              have hcontains : WHITE_SPACE.contains c.1.toNat = true := by
                obtain ⟨found, hfound, hcontains⟩ := hwhite
                rwa [← Option.some_inj.mp (htext.symm.trans hfound)] at hcontains
              exact ⟨result, last, hrun, hlast, hbuffers', Lexed.cons hdrop hcontains (htail ▸ hlexed)⟩
            · obtain ⟨token, htoken, htokenKind, htokenImage⟩ := jjFillToken_spec hback (hbackKind.symm ▸ him) himage
              have hlength : token.image.length = after.jjmatchedPos + 1 := by
                have hin := hback.buffers.position_le_length
                rw [hback.cursor] at hin
                rw [htokenImage, List.length_take, List.length_drop]
                exact min_eq_left (by dsimp only at hin; omega)
              rw [if_pos (decide_eq_true (by omega)), htoken, hnext]
              refine ⟨.ok token, next, rfl, hready', hinput ▸ hback.buffers, [], by simp, ?_, ?_,
                Or.inr ⟨?_, c, (text.drop (place + 1)).take after.jjmatchedPos, ?_, ?_⟩⟩
              · rw [hinput, hback.cursor, htokenImage]
                exact drop_eq_take_append text place _
              · rw [hinput, hback.cursor, hlength]
                rfl
              · rw [htokenKind, hbackKind]
                omega
              · rw [htokenImage, hdrop, List.take_succ_cons]
              · exact fun hstarts => hkind (hnone hstarts)

/-- A manager in DEFAULT before the character at a place of the text. -/
def lexerAt (text : WString) (place : Nat) : QueryParserTokenManager :=
  { jjrounds := List.replicate 36 0
    jjstateSet := List.replicate 72 0
    curChar := ⟨0, WChar.null_mem⟩
    curLexState := 3
    jjnewStateCnt := 0
    jjround := 0
    jjmatchedPos := 0
    jjmatchedKind := 0
    input_stream :=
      { buffer := text, bufferLength := text.length, bufferPosition := place, tokenStart := place, bufferStart := 0
        input := .ofInput [] fun _ => 0 } }

theorem lexerAt_ready (text : WString) (place : Nat) : Ready (lexerAt text place) :=
  ⟨List.length_replicate, List.length_replicate, (by decide : (0 : Int) < 0x7fffffff),
    fun _ hround => (List.eq_of_mem_replicate hround) ▸ (by decide : (-0x80000000 : Int) ≤ 0 ∧ (0 : Int) ≤ 0),
    (by decide : (0 : Int) ≤ 3 ∧ (3 : Int) < 4)⟩

theorem lexerAt_buffers {place : Nat} (hle : place ≤ text.length) : Buffers text (lexerAt text place).input_stream :=
  ⟨by simp [lexerAt, ChunkedReader.ofInput], by simp [lexerAt, ChunkedReader.ofInput], le_rfl, hle, le_rfl⟩

theorem getNextToken_outOfBounds {place : Nat} {c : WChar} (hc : text[place]? = some c) (hle : 0x10000 ≤ c.1) (fuel : Nat) :
    getNextToken (fuel + 2) (lexerAt text place) = .error .outOfBounds := by
  have hlt : place < text.length := (List.getElem?_eq_some_iff.mp hc).1
  obtain ⟨-, hcursor⟩ := (lexerAt_buffers hlt.le).beginToken
  have hposition : (lexerAt text place).input_stream.cursor.position = place := Nat.zero_add place
  rw [FastCharStream.Cursor.readChar] at hcursor
  dsimp only at hcursor
  rw [hposition, hc, Prod.mk.injEq] at hcursor
  rw [getNextToken]
  generalize (lexerAt text place).input_stream.beginToken = begun at hcursor ⊢
  obtain ⟨result, input⟩ := begun
  obtain ⟨rfl, -⟩ := hcursor
  dsimp only
  have hlow : 0x10000 ≤ c.1.toNat := by omega
  have habove : automaton_3.switch c.1.toNat = automaton_3.above := by
    rw [Automaton.switch, if_neg (by omega), if_neg (by omega)]
  have hmove : ∀ first : QueryParserTokenManager, first.jjstateSet = List.replicate 72 0 →
      moveStates automaton_3.above 0 c.1.toNat 1 (NO_KIND, first) = .error .outOfBounds := by
    intro first hfirst
    have hcase : caseOf automaton_3.above 0 = [[(.canMove_0, [.kind 7])],
        [(.canMove_2, [.kind 22, .checkNAddTwoStates 25 26])], [(.canMove_2, [.kind 19, .checkNAddStates 3 7])]] := rfl
    rw [moveStates, hfirst]
    show ((caseOf automaton_3.above 0).foldlM (branch c.1.toNat) (NO_KIND, first) >>= _) = _
    rw [hcase, List.foldlM_cons, branch, canMove_0_of_le hlow, List.foldlM_cons]
    show ((branch c.1.toNat (NO_KIND, first) [(.canMove_2, [.kind 22, .checkNAddTwoStates 25 26])] >>= _) >>= _) = _
    rw [branch, canMove_2_outOfBounds hlow]
    rfl
  have hdfa : jjMove (fuel + 1) { lexerAt text place with curChar := c, input_stream := input } =
      jjMoveNfa_3 (fuel + 1)
        { lexerAt text place with curChar := c, input_stream := input, jjmatchedKind := NO_KIND } 0 0 := by
    show jjMoveStringLiteralDfa0_3 (fuel + 1)
      { lexerAt text place with curChar := c, input_stream := input, jjmatchedKind := NO_KIND } = _
    rw [jjMoveStringLiteralDfa0_3]
    split
    case h_10 => rfl
    all_goals
      rename_i heq
      have heq : c.1.toNat = _ := heq
      omega
  have hrun : jjMoveNfa_3 (fuel + 1)
      { lexerAt text place with curChar := c, input_stream := input, jjmatchedKind := NO_KIND } 0 0 =
        .error .outOfBounds := by
    show (moveStates (automaton_3.switch c.1.toNat) 0 c.1.toNat 1 (NO_KIND, _) >>= _) = _
    rw [habove, hmove _ rfl]
    rfl
  rw [hdfa, hrun]
  rfl

/-- On a text of Unicode code points, the lexer works from every place of the text and in every lexical state exactly when
no character is beyond U+FFFF: it comes to a token or an error, with no access out of bounds, what it has read is white space
and the image of the token, no token is read where none can start, and the lexer is ready for the next token. -/
theorem get_next_token_iff {text : WString} (hcode : ∀ c ∈ text, 0 ≤ c.1 ∧ c.1 ≤ 0x10ffff) :
    (∀ (m : QueryParserTokenManager) (fuel : Nat), Ready m → Buffers text m.input_stream → text.length + 2 ≤ fuel →
      ∃ result next, getNextToken fuel m = .ok (result, next) ∧ Ready next ∧ Buffers text next.input_stream ∧
        Lexed text m.curLexState m.input_stream.cursor.position result next) ↔
      ∀ c ∈ text, c.1 < 0x10000 := by
  constructor
  · intro hlexes c hmem
    by_contra hlarge
    obtain ⟨place, hlt, hc⟩ := List.getElem_of_mem hmem
    obtain ⟨result, next, hrun, -⟩ :=
      hlexes (lexerAt text place) (text.length + 2) (lexerAt_ready text place) (lexerAt_buffers hlt.le) le_rfl
    rw [getNextToken_outOfBounds (hc ▸ List.getElem?_eq_getElem hlt) (by omega)] at hrun
    exact absurd hrun nofun
  · intro hsmall m fuel hready hbuffers hfuel
    exact getNextToken_spec (fun c hmem => ⟨(hcode c hmem).1, hsmall c hmem⟩) hready hbuffers (by omega)
      hbuffers.position_le_length

/-- A text of one supplementary character is read out of bounds. -/
theorem supplementary_character_is_out_of_bounds :
    getNextToken 3 (lexerAt [⟨0x1f600, by decide⟩] 0) = .error .outOfBounds :=
  getNextToken_outOfBounds rfl (by decide) 1

theorem get_next_token_iff_two_words :
    ∃ result next, getNextToken 5 (lexerAt [ofChar 'a', ofChar ' ', ofChar 'b'] 0) = .ok (result, next) ∧ Ready next ∧
      Buffers [ofChar 'a', ofChar ' ', ofChar 'b'] next.input_stream ∧ Lexed [ofChar 'a', ofChar ' ', ofChar 'b'] 3 0 result next :=
  (@get_next_token_iff [ofChar 'a', ofChar ' ', ofChar 'b'] (by decide)).mpr (by decide) (lexerAt [ofChar 'a', ofChar ' ', ofChar 'b'] 0) 5
    (lexerAt_ready _ _) (lexerAt_buffers (Nat.zero_le _)) le_rfl

end QueryParserTokenManager
end LucenePlusPlus
