import LucenePlusPlus.Highlighter

/-!
The fragments of a highlighted text. What has been stored is always the text up to the end of the last group, and a group covers
no character before it; so the fragments are consecutive pieces of the text.
-/

namespace LucenePlusPlus
namespace Highlighter

variable {S : Type} {a b total : Nat} {text : WString}

/-- The fragments are consecutive, from one position to another. -/
def Tiles : Nat → Nat → List (TextFragment S) → Prop
  | a, b, [] => a = b
  | a, b, frag :: rest => frag.textStartPos = a ∧ a ≤ frag.textEndPos ∧ Tiles frag.textEndPos b rest

theorem Tiles.le {frags : List (TextFragment S)} (h : Tiles a b frags) : a ≤ b := by
  induction frags generalizing a with
  | nil => exact le_of_eq h
  | cons frag frags ih => exact h.2.1.trans (ih h.2.2)

theorem Tiles.append_singleton {frags : List (TextFragment S)} (h : Tiles a b frags) (frag : TextFragment S)
    (hstart : frag.textStartPos = b) (hend : b ≤ frag.textEndPos) : Tiles a frag.textEndPos (frags ++ [frag]) := by
  induction frags generalizing a with
  | nil =>
      cases h
      exact ⟨hstart, hend, rfl⟩
  | cons first frags ih => exact ⟨h.1, h.2.1, ih h.2.2⟩

theorem take_append_substr (text : WString) (h : a ≤ b) : text.take a ++ substr text a b = text.take b := by
  rw [substr, if_pos h, ← List.take_add, Nat.add_sub_cancel' h]

theorem substr_append_substr {c : Nat} (hab : a ≤ b) (hbc : b ≤ c) :
    substr text a b ++ substr text b c = substr text a c := by
  suffices heq : text.take a ++ (substr text a b ++ substr text b c) = text.take a ++ substr text a c from List.append_cancel_left heq
  rw [← List.append_assoc, take_append_substr text hab, take_append_substr text hbc, take_append_substr text (hab.trans hbc)]

/-- Consecutive pieces give the text between the first position and the last one. -/
theorem Tiles.flatten {frags : List (TextFragment S)} (text : WString) (h : Tiles a b frags) :
    (frags.map (TextFragment.toString text)).flatten = substr text a b := by
  induction frags generalizing a with
  | nil =>
      cases h
      rw [substr, if_pos le_rfl, Nat.sub_self]
      rfl
  | cons frag frags ih =>
      obtain ⟨rfl, hle, hrest⟩ := h
      rw [List.map_cons, List.flatten_cons, ih hrest, TextFragment.toString, substr_append_substr hle hrest.le]

/-- The offsets of a token are those of a part of the text. -/
structure HighlightToken.Within (token : HighlightToken S) (text : WString) : Prop where
  start_le : token.startOffset ≤ token.endOffset
  end_le : token.endOffset ≤ text.length

/-- What the group matches is a part of the text behind a position. -/
structure TokenGroup.Behind (g : TokenGroup S) (text : WString) (lastEndOffset : Nat) : Prop where
  last_le : lastEndOffset ≤ g.matchStartOffset
  start_le : g.matchStartOffset ≤ g.matchEndOffset
  end_le : g.matchEndOffset ≤ g.endOffset
  within : g.matchEndOffset ≤ text.length

/-- The formatter and the encoder leave the text as it is. -/
structure IsPlain (h : Highlighter S) : Prop where
  highlightTerm_eq : ∀ s g, h.highlightTerm s g = s
  encodeText_eq : ∀ s, h.encodeText s = s

/-- Nothing is marked up. -/
def plain (S : Type) (maxDocCharsToAnalyze : Nat) : Highlighter S where
  highlightTerm text _ := text
  encodeText text := text
  maxDocCharsToAnalyze := maxDocCharsToAnalyze

theorem isPlain_plain (maxDocCharsToAnalyze : Nat) : IsPlain (plain S maxDocCharsToAnalyze) := ⟨fun _ _ => rfl, fun _ => rfl⟩

/-- The text is stored up to the end of the last group, in consecutive fragments, and the tokens to come are behind it. -/
structure Progress.Sound (text : WString) (total : Nat) (p : Progress S) (rest : List (HighlightToken S)) : Prop where
  newText_eq : p.newText = text.take p.lastEndOffset
  last_le : p.lastEndOffset ≤ text.length
  ahead : ∀ token ∈ rest, p.lastEndOffset ≤ token.startOffset
  group : 0 < p.tokenGroup.numTokens → p.tokenGroup.Behind text p.lastEndOffset
  tiles : Tiles 0 p.currentFrag.textStartPos p.docFrags
  start_le : p.currentFrag.textStartPos ≤ p.lastEndOffset
  nums : (p.docFrags ++ [p.currentFrag]).map (·.fragNum) = List.range (p.docFrags.length + 1)
  count : p.docFrags.length + rest.length ≤ total

theorem Progress.Sound.length_newText {p : Progress S} {rest : List (HighlightToken S)} (hp : p.Sound text total rest) :
    p.newText.length = p.lastEndOffset := by
  rw [hp.newText_eq, List.length_take, min_eq_left hp.last_le]

theorem appendGroup_eq {h : Highlighter S} (hplain : IsPlain h) {p : Progress S} {rest : List (HighlightToken S)} (hp : p.Sound text total rest)
    (hpos : 0 < p.tokenGroup.numTokens) :
    h.appendGroup text p = { p with
      newText := text.take p.tokenGroup.matchEndOffset
      lastEndOffset := p.tokenGroup.matchEndOffset } := by
  obtain ⟨hlast, hstart, -, -⟩ := hp.group hpos
  have hmax : max p.tokenGroup.matchEndOffset p.lastEndOffset = p.tokenGroup.matchEndOffset := max_eq_left (hlast.trans hstart)
  have hstored : (if p.tokenGroup.matchStartOffset > p.lastEndOffset then
      p.newText ++ substr text p.lastEndOffset p.tokenGroup.matchStartOffset else p.newText) =
        text.take p.tokenGroup.matchStartOffset := by
    rw [hp.newText_eq]
    split
    · exact take_append_substr text hlast
    · rw [show p.tokenGroup.matchStartOffset = p.lastEndOffset by omega]
  simp only [appendGroup, hplain.highlightTerm_eq, hplain.encodeText_eq, hstored, take_append_substr text hstart, hmax]

variable [Zero S]

theorem sound_start (text : WString) (tokens : List (HighlightToken S)) :
    (Progress.start : Progress S).Sound text tokens.length tokens where
  newText_eq := rfl
  last_le := Nat.zero_le _
  ahead _ _ := Nat.zero_le _
  group hpos := absurd hpos (lt_irrefl 0)
  tiles := rfl
  start_le := le_rfl
  nums := rfl
  count := (Nat.zero_add _).le

theorem Progress.Sound.startFragment {p : Progress S} {rest : List (HighlightToken S)} (hp : p.Sound text total rest)
    (hcount : p.docFrags.length + 1 + rest.length ≤ total) (score : S) : (p.startFragment score).Sound text total rest where
  newText_eq := hp.newText_eq
  last_le := hp.last_le
  ahead := hp.ahead
  group := hp.group
  tiles := hp.tiles.append_singleton { p.currentFrag with score := score, textEndPos := p.newText.length } rfl
    (hp.length_newText ▸ hp.start_le)
  start_le := hp.length_newText.le
  nums := by
    have hnums := hp.nums
    simp only [Progress.startFragment, TextFragment.new, List.map_append, List.map_cons, List.map_nil, List.length_append,
      List.length_singleton] at hnums ⊢
    rw [hnums, ← List.range_succ]
  count := by
    simp only [Progress.startFragment, List.length_append, List.length_singleton]
    exact hcount

variable [LinearOrder S] [Add S] {h : Highlighter S}

theorem TokenGroup.Behind.addToken {g : TokenGroup S} {last : Nat} (hg : 0 < g.numTokens → g.Behind text last)
    {token : HighlightToken S} (htoken : token.Within text) (hlast : last ≤ token.startOffset) :
    (g.addToken token).Behind text last := by
  have hstart := htoken.start_le
  have hend := htoken.end_le
  unfold TokenGroup.addToken
  by_cases hempty : g.numTokens = 0
  · rw [if_pos (by rw [hempty]; decide), if_pos hempty]
    exact ⟨hlast, hstart, le_rfl, hend⟩
  · obtain ⟨hlast', hstart', hend', hwithin⟩ := hg (Nat.pos_of_ne_zero hempty)
    rw [if_neg hempty]
    dsimp only
    split
    · split
      · split
        · exact ⟨hlast, hstart, le_max_right _ _, hend⟩
        · exact ⟨le_min hlast' hlast, (min_le_left _ _).trans (hstart'.trans (le_max_left _ _)), max_le_max hend' le_rfl,
            max_le hwithin hend⟩
      · exact ⟨hlast', hstart', hend'.trans (le_max_left _ _), hwithin⟩
    · exact ⟨hlast', hstart', hend', hwithin⟩

theorem Progress.Sound.analyzeToken (hplain : IsPlain h) {p : Progress S} {token : HighlightToken S} {rest : List (HighlightToken S)}
    (hp : p.Sound text total (token :: rest)) (htoken : token.Within text)
    (hsorted : ∀ next ∈ rest, token.startOffset ≤ next.startOffset) :
    ∃ p', h.analyzeToken text p token = .ok p' ∧ p'.Sound text total rest := by
  have hcount := hp.count
  rw [List.length_cons] at hcount
  have hvalid : ¬ (token.endOffset > text.length ∨ token.startOffset > text.length) := by
    have hstart := htoken.start_le
    have hend := htoken.end_le
    omega
  -- the token is added to a group that is behind the text stored
  have hadd {q : Progress S} (hq : q.Sound text total rest) (hlast : q.lastEndOffset ≤ token.startOffset) :
      ({ q with tokenGroup := q.tokenGroup.addToken token } : Progress S).Sound text total rest :=
    { hq with group := fun _ => TokenGroup.Behind.addToken hq.group htoken hlast }
  have hrest : p.Sound text total rest :=
    { hp with
      ahead := fun next hnext => hp.ahead next (List.mem_cons_of_mem _ hnext)
      count := by omega }
  rw [Highlighter.analyzeToken, if_neg hvalid]
  refine ⟨_, rfl, ?_⟩
  by_cases hdistinct : p.tokenGroup.numTokens > 0 ∧ p.tokenGroup.isDistinct token
  · obtain ⟨hpos, hbehind⟩ := hdistinct
    have hgroup := hp.group hpos
    have hle : p.tokenGroup.matchEndOffset ≤ token.startOffset := hgroup.end_le.trans (of_decide_eq_true hbehind)
    have hstored : ({ h.appendGroup text p with tokenGroup := p.tokenGroup.clear } : Progress S).Sound text total rest := by
      rw [appendGroup_eq hplain hp hpos]
      exact { hrest with
        newText_eq := rfl
        last_le := hgroup.within
        ahead := fun next hnext => hle.trans (hsorted next hnext)
        group := fun hclear => absurd hclear (lt_irrefl 0)
        start_le := hp.start_le.trans (hgroup.last_le.trans hgroup.start_le) }
    have hlast : (h.appendGroup text p).lastEndOffset ≤ token.startOffset := by
      rw [appendGroup_eq hplain hp hpos]
      exact hle
    have hlength : (h.appendGroup text p).docFrags = p.docFrags := rfl
    simp only [hpos, hbehind, and_self, if_true]
    split
    · refine hadd (hstored.startFragment ?_ token.fragmentScore) hlast
      rw [hlength]
      omega
    · exact hadd hstored hlast
  · rw [if_neg hdistinct]
    exact hadd hrest (hp.ahead token List.mem_cons_self)

theorem Progress.Sound.analyze (hplain : IsPlain h) {p : Progress S} {tokens : List (HighlightToken S)}
    (hp : p.Sound text total tokens) (hwithin : ∀ token ∈ tokens, token.Within text)
    (hsorted : tokens.Pairwise (·.startOffset ≤ ·.startOffset)) :
    ∃ p', h.analyze text tokens p = .ok p' ∧ p'.Sound text total [] := by
  have hstop {q : Progress S} {rest : List (HighlightToken S)} (hq : q.Sound text total rest) : q.Sound text total [] :=
    { hq with
      ahead := fun _ hnext => absurd hnext List.not_mem_nil
      count := (Nat.le_add_right _ _).trans hq.count }
  induction tokens generalizing p with
  | nil => exact ⟨p, rfl, hp⟩
  | cons token rest ih =>
      rw [Highlighter.analyze]
      split
      · obtain ⟨hfirst, hsorted⟩ := List.pairwise_cons.mp hsorted
        obtain ⟨p', hp', hsound⟩ := hp.analyzeToken hplain (hwithin token List.mem_cons_self) hfirst
        rw [hp']
        exact ih hsound (fun next hnext => hwithin next (List.mem_cons_of_mem _ hnext)) hsorted
      · exact ⟨p, rfl, hstop hp⟩

/-- The marked up text is the text, and its fragments are consecutive, numbered pieces of it. -/
theorem docFragments_spec (hplain : IsPlain h) {tokens : List (HighlightToken S)} (hlimit : text.length ≤ h.maxDocCharsToAnalyze)
    (hwithin : ∀ token ∈ tokens, token.Within text) (hsorted : tokens.Pairwise (·.startOffset ≤ ·.startOffset)) (score : S) :
    ∃ docFrags, h.docFragments text tokens score = .ok (text, docFrags) ∧ Tiles 0 text.length docFrags ∧
      docFrags.map (·.fragNum) = List.range docFrags.length ∧ docFrags.length ≤ tokens.length + 1 := by
  obtain ⟨p, hp, hsound⟩ := (sound_start text tokens).analyze hplain hwithin hsorted
  -- the last group is stored
  obtain ⟨q, hq, hq_sound⟩ : ∃ q, (if p.tokenGroup.numTokens > 0 then h.appendGroup text p else p) = q ∧
      q.newText = text.take q.lastEndOffset ∧ q.lastEndOffset ≤ text.length ∧ q.docFrags = p.docFrags ∧
      q.currentFrag = p.currentFrag ∧ p.lastEndOffset ≤ q.lastEndOffset := by
    by_cases hpos : p.tokenGroup.numTokens > 0
    · have hgroup := hsound.group hpos
      rw [if_pos hpos, appendGroup_eq hplain hsound hpos]
      exact ⟨_, rfl, rfl, hgroup.within, rfl, rfl, hgroup.last_le.trans hgroup.start_le⟩
    · rw [if_neg hpos]
      exact ⟨_, rfl, hsound.newText_eq, hsound.last_le, rfl, rfl, le_rfl⟩
  obtain ⟨hnewText, hlast, hdocFrags, hcurrent, hle⟩ := hq_sound
  have hwhole : (if q.lastEndOffset < text.length ∧ text.length ≤ h.maxDocCharsToAnalyze then
      q.newText ++ h.encodeText (text.drop q.lastEndOffset) else q.newText) = text := by
    rw [hplain.encodeText_eq, hnewText]
    split
    · exact List.take_append_drop _ _
    · exact List.take_of_length_le (by omega)
  have hnums := hsound.nums
  have hcount := hsound.count
  refine ⟨p.docFrags ++ [{ p.currentFrag with
    score := score
    textEndPos := text.length }], ?_, ?_, ?_, ?_⟩
  · rw [docFragments, hp]
    simp only [Except.map, finish, hq, hwhole, hdocFrags, hcurrent]
  · exact hsound.tiles.append_singleton { p.currentFrag with score := score, textEndPos := text.length } rfl
      (hsound.start_le.trans hsound.last_le)
  · rw [List.length_append, List.length_singleton, ← hnums]
    simp only [List.map_append, List.map_cons, List.map_nil]
  · rw [List.length_append, List.length_singleton]
    rw [List.length_nil] at hcount
    omega

end Highlighter
end LucenePlusPlus

/-!
The fragments that are selected: the best by score, the earlier ones first on ties.
-/

namespace LucenePlusPlus
namespace PriorityQueue
open BinaryHeap

variable {α : Type} {lessThan : α → α → Bool} {q : PriorityQueue α} {E : Multiset α}

theorem Holds.offer_room (h : Holds lessThan q E) (hless : StrictWeakOn lessThan fun _ => True) (offered : List α)
    (hmax : E.card + offered.length ≤ q.maxSize) (hheap : E.card + offered.length < q.heapSize) :
    ∃ results q', q.offer lessThan offered = .ok (results, q') ∧ Holds lessThan q' (E + offered) := by
  induction offered generalizing q E with
  | nil => exact ⟨[], q, rfl, by rwa [Multiset.coe_nil, add_zero]⟩
  | cons x offered ih =>
      rw [List.length_cons] at hmax hheap
      have hcard := h.card
      obtain ⟨q₁, hq₁, hholds⟩ := h.add hless (x := x) (by omega)
      obtain ⟨hmaxSize, -⟩ := maxSize_add hq₁
      have hheapSize := heapSize_add hq₁
      obtain ⟨results, q', hoffer, hholds'⟩ := ih hholds (by rw [Multiset.card_cons]; omega) (by rw [Multiset.card_cons]; omega)
      refine ⟨none :: results, q', ?_, ?_⟩
      · rw [PriorityQueue.offer, addOverflow, if_pos (by omega), hq₁]
        simp only [Except.map, bind, Except.bind, hoffer]
        rfl
      · rwa [← Multiset.cons_coe, Multiset.add_cons, ← Multiset.cons_add]

/-- Popped into an array from its end on, the elements stand there from the greatest to the least. -/
theorem Holds.popInto_sorted (h : Holds lessThan q E) (hless : StrictWeakOn lessThan fun _ => True) :
    ∃ sorted : List α, (q.popInto lessThan q.size).1 = sorted.map some ∧ (sorted : Multiset α) = E ∧
      sorted.Pairwise fun a b => lessThan a b = false := by
  obtain ⟨n, hn⟩ : ∃ n, q.size = n := ⟨_, rfl⟩
  rw [hn]
  induction n generalizing q E with
  | zero =>
      have hzero : E = 0 := Multiset.card_eq_zero.mp (h.card.trans hn)
      exact ⟨[], rfl, hzero.symm, .nil⟩
  | succ n ih =>
      have hcard := h.card
      have hne : E ≠ 0 := by
        rw [← Multiset.card_pos]
        omega
      obtain ⟨top, rest, q', rfl, -, hpop, hholds, -, hleast⟩ := h.pop hless hne
      have hcard' := hholds.card
      rw [Multiset.card_cons] at hcard
      obtain ⟨sorted, hsorted, rfl, hpairwise⟩ := ih hholds (by omega)
      refine ⟨sorted ++ [top], ?_, ?_, ?_⟩
      · rw [PriorityQueue.popInto, hpop]
        dsimp only
        rw [hsorted, List.map_append, List.map_singleton]
      · rw [← Multiset.coe_add, Multiset.coe_singleton, add_comm, Multiset.singleton_add]
      · exact List.pairwise_append.mpr ⟨hpairwise, List.pairwise_singleton _ _, fun a ha b hb => by
          rw [List.mem_singleton] at hb
          rw [hb]
          exact hleast a (Multiset.mem_coe.mpr ha)⟩

end PriorityQueue

namespace Highlighter
open BinaryHeap

variable {S : Type} [LinearOrder S] {docFrags frag : List (TextFragment S)} {maxNumFragments : Nat}

/-- By score, the earlier first on ties. -/
def RanksBefore (frag other : TextFragment S) : Prop :=
  other.score < frag.score ∨ other.score = frag.score ∧ frag.fragNum < other.fragNum

theorem lessThan_eq_true {first second : TextFragment S} : FragmentQueue.lessThan first second = true ↔ RanksBefore second first := by
  rw [FragmentQueue.lessThan, RanksBefore]
  split
  · rename_i heq
    simp [heq]
  · rename_i hne
    simp [hne]

theorem ranksBefore_of_not_less {first second : TextFragment S} (h : FragmentQueue.lessThan first second = false)
    (hnum : first.fragNum ≠ second.fragNum) : RanksBefore first second := by
  have hnot : ¬ RanksBefore second first := by
    rw [← lessThan_eq_true, h]
    exact Bool.false_ne_true
  rw [RanksBefore, not_or, not_lt, not_and, not_lt] at hnot
  rcases hnot.1.lt_or_eq with hlt | heq
  · exact .inl hlt
  · exact .inr ⟨heq, lt_of_le_of_ne (hnot.2 heq.symm) hnum⟩

theorem strictWeakOn_lessThan : StrictWeakOn (FragmentQueue.lessThan (S := S)) fun _ => True where
  asymm first second _ _ hless := by
    rw [lessThan_eq_true] at hless
    rw [Bool.eq_false_iff, Ne, lessThan_eq_true]
    rcases hless with hlt | ⟨heq, hlt⟩
    · rintro (hlt' | ⟨heq', -⟩)
      · exact lt_asymm hlt hlt'
      · exact hlt.ne heq'.symm
    · rintro (hlt' | ⟨-, hlt'⟩)
      · exact hlt'.ne heq.symm
      · exact lt_asymm hlt hlt'
  trans first second third _ _ _ h₁₂ h₂₃ := by
    rw [Bool.eq_false_iff, Ne, lessThan_eq_true, RanksBefore, not_or, not_lt, not_and, not_lt] at h₁₂ h₂₃ ⊢
    refine ⟨h₂₃.1.trans h₁₂.1, fun heq => ?_⟩
    have hle₁ := h₁₂.1
    have hle₂ := h₂₃.1
    have heq₂ : second.score = first.score := le_antisymm (h₁₂.1) (heq ▸ h₂₃.1)
    have heq₃ : third.score = second.score := le_antisymm h₂₃.1 (heq₂.le.trans heq.le)
    exact (h₁₂.2 heq₂.symm).trans (h₂₃.2 heq₃.symm)

/-- These are so many of the fragments, in their order, and all others rank behind them. -/
structure IsBest (maxNumFragments : Nat) (docFrags frag : List (TextFragment S)) : Prop where
  length_eq : frag.length = min maxNumFragments docFrags.length
  subperm : frag.Subperm docFrags
  sorted : frag.Pairwise RanksBefore
  best : ∀ kept ∈ frag, ∀ dropped ∈ docFrags, dropped ∉ frag → RanksBefore kept dropped

theorem offer_docFrags (hmax : maxNumFragments ≤ INT_MAX) (hcount : maxNumFragments = INT_MAX → docFrags.length < INT_MAX) :
    ∃ results q kept, (PriorityQueue.new maxNumFragments).offer FragmentQueue.lessThan docFrags = .ok (results, q) ∧
      PriorityQueue.Holds FragmentQueue.lessThan q kept ∧ kept ≤ docFrags ∧ kept.card = min maxNumFragments docFrags.length ∧
      ∀ y ∈ kept, ∀ dropped ∈ docFrags, dropped ∉ kept → FragmentQueue.lessThan y dropped = false := by
  by_cases hlargest : maxNumFragments = INT_MAX
  · -- the array has one slot less than the capacity, which is enough
    have hlength := hcount hlargest
    subst hlargest
    obtain ⟨results, q, hoffer, hholds⟩ := (PriorityQueue.holds_new FragmentQueue.lessThan INT_MAX).offer_room
      (strictWeakOn_lessThan (S := S)) docFrags (by simpa [PriorityQueue.new] using hlength.le)
      (by simpa [PriorityQueue.new, INT_MAX] using hlength)
    rw [zero_add] at hholds
    refine ⟨results, q, docFrags, hoffer, hholds, le_rfl, ?_, fun y _ dropped hdropped hnot => absurd hdropped hnot⟩
    rw [Multiset.coe_card, min_eq_right hlength.le]
  · obtain ⟨results, q, kept, hoffer, hsound, hoffered, -⟩ := (PriorityQueue.sound_new FragmentQueue.lessThan maxNumFragments).offer
      (strictWeakOn_lessThan (S := S)) (lt_of_le_of_ne hmax hlargest) docFrags
    have hadd := hoffered.add_eq
    have hcard := hoffered.card_eq
    rw [zero_add] at hadd
    rw [Multiset.card_zero, zero_add] at hcard
    refine ⟨results, q, kept, hoffer, hsound.holds, ?_, hcard, fun y hy dropped hdropped hnot => ?_⟩
    · rw [← hadd]
      exact Multiset.le_add_right _ _
    · have hmem : dropped ∈ kept + (results.filterMap id : List (TextFragment S)) := by
        rw [hadd]
        exact hdropped
      rcases Multiset.mem_add.mp hmem with hkept | hdropped
      · exact absurd hkept hnot
      · exact hoffered.greatest dropped hdropped y hy

theorem select_spec (hmax : maxNumFragments ≤ INT_MAX) (hcount : maxNumFragments = INT_MAX → docFrags.length < INT_MAX)
    (hnums : (docFrags.map (·.fragNum)).Nodup) :
    ∃ frag, select maxNumFragments docFrags = .ok (frag.map some) ∧ IsBest maxNumFragments docFrags frag := by
  obtain ⟨results, q, kept, hoffer, hholds, hle, hcard, hdropped⟩ := offer_docFrags hmax hcount
  obtain ⟨frag, hpop, rfl, hsorted⟩ := hholds.popInto_sorted strictWeakOn_lessThan
  have hsub : frag.Subperm docFrags := Multiset.coe_le.mp hle
  have hinj := List.inj_on_of_nodup_map hnums
  have hdistinct : frag.Pairwise fun first second => first.fragNum ≠ second.fragNum := by
    rw [← List.pairwise_map (f := TextFragment.fragNum) (R := (· ≠ ·))]
    have hle : (frag.map TextFragment.fragNum : Multiset Nat) ≤ docFrags.map TextFragment.fragNum :=
      Multiset.map_le_map (f := TextFragment.fragNum) hle
    exact Multiset.coe_nodup.mp (Multiset.nodup_of_le hle hnums)
  refine ⟨frag, ?_, ⟨hcard, hsub, ?_, fun f hf dropped hmem hnot => ?_⟩⟩
  · rw [select, hoffer]
    dsimp only
    rw [hpop]
  · exact hsorted.imp₂ (fun _ _ hnot hne => ranksBefore_of_not_less hnot hne) hdistinct
  · refine ranksBefore_of_not_less (hdropped f hf dropped hmem hnot) fun heq => hnot ?_
    rw [← hinj (hsub.subset hf) hmem heq]
    exact hf

end Highlighter
end LucenePlusPlus
