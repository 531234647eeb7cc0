import LucenePlusPlus.PriorityQueueRuns
import LucenePlusPlus.Term

/-!
`Highlighter`: a text is marked up group of tokens by group of tokens, and cut into fragments; the best of these are selected, and
those that are contiguous are merged.
-/

namespace LucenePlusPlus

namespace Highlighter

inductive Fault
  /-- Token exceeds length of provided text. -/
  | invalidTokenOffsets (term : WString) (length : Nat)
  | indexOutOfBounds
deriving DecidableEq

/-- What the attributes of the stream say at a token, and what the scorer and the fragmenter answer there. -/
structure HighlightToken (S : Type) where
  term : WString
  startOffset : Nat
  endOffset : Nat
  /-- `getTokenScore` -/
  score : S
  /-- `isNewFragment`, where it is asked -/
  isNewFragment : Bool
  /-- `getFragmentScore`, before the token -/
  fragmentScore : S

/-- The characters from a position to another one; all the others if this one comes before, as the count is not signed. -/
def substr (text : WString) (start «end» : Nat) : WString :=
  if start ≤ «end» then (text.drop start).take («end» - start) else text.drop start

def MAX_NUM_TOKENS_PER_GROUP : Nat := 50

/-- One, or several overlapping tokens, with the scope of the original text. -/
structure TokenGroup (S : Type) where
  tokens : List (HighlightToken S)
  startOffset : Nat
  endOffset : Nat
  tot : S
  matchStartOffset : Nat
  matchEndOffset : Nat

namespace TokenGroup
variable {S : Type} [LinearOrder S] [Zero S] [Add S]

def new : TokenGroup S := ⟨[], 0, 0, 0, 0, 0⟩

def numTokens (g : TokenGroup S) : Nat := g.tokens.length

/-- The scope takes in each token, the match those that score, and the first one as long as none does. -/
def addToken (g : TokenGroup S) (token : HighlightToken S) : TokenGroup S :=
  if g.numTokens < MAX_NUM_TOKENS_PER_GROUP then
    if g.numTokens = 0 then ⟨g.tokens ++ [token], token.startOffset, token.endOffset, g.tot + token.score, token.startOffset, token.endOffset⟩
    else
      let g := { g with
        tokens := g.tokens ++ [token]
        startOffset := min g.startOffset token.startOffset
        endOffset := max g.endOffset token.endOffset }
      if token.score > 0 then
        if g.tot = 0 then
          { g with
            matchStartOffset := token.startOffset
            matchEndOffset := token.endOffset
            tot := g.tot + token.score }
        else
          { g with
            matchStartOffset := min g.matchStartOffset token.startOffset
            matchEndOffset := max g.matchEndOffset token.endOffset
            tot := g.tot + token.score }
      else g
  else g

def isDistinct (g : TokenGroup S) (token : HighlightToken S) : Bool := token.startOffset ≥ g.endOffset

def clear (g : TokenGroup S) : TokenGroup S := { g with tokens := [], tot := 0 }

end TokenGroup

/-- A piece of the marked up text. -/
structure TextFragment (S : Type) where
  textStartPos : Nat
  textEndPos : Nat
  fragNum : Nat
  score : S
deriving DecidableEq

namespace TextFragment
variable {S : Type}

def new [Zero S] (textStartPos fragNum : Nat) : TextFragment S := ⟨textStartPos, 0, fragNum, 0⟩

def merge [LinearOrder S] (frag1 frag2 : TextFragment S) : TextFragment S :=
  { frag1 with
    textEndPos := frag2.textEndPos
    score := max frag1.score frag2.score }

def follows (frag fragment : TextFragment S) : Bool := frag.textStartPos = fragment.textEndPos

def toString (markedUpText : WString) (frag : TextFragment S) : WString :=
  substr markedUpText frag.textStartPos frag.textEndPos

end TextFragment

def FragmentQueue.lessThan {S : Type} [LinearOrder S] (first second : TextFragment S) : Bool :=
  if first.score = second.score then first.fragNum > second.fragNum else first.score < second.score

end Highlighter

/-- The `formatter`, the `encoder` and the limit of a highlighter. -/
structure Highlighter (S : Type) where
  highlightTerm : WString → Highlighter.TokenGroup S → WString
  encodeText : WString → WString
  maxDocCharsToAnalyze : Nat

namespace Highlighter
variable {S : Type} [LinearOrder S] [Zero S] [Add S]

/-- The variables of the loop over the tokens; `docFrags` without `currentFrag`. -/
structure Progress (S : Type) where
  newText : WString
  docFrags : List (TextFragment S)
  currentFrag : TextFragment S
  tokenGroup : TokenGroup S
  lastEndOffset : Nat

def Progress.start : Progress S := ⟨[], [], .new 0 0, .new, 0⟩

section Analysis
variable (h : Highlighter S) (text : WString)

/-- The group is marked up, and what lies between it and the last one is stored. -/
def appendGroup (p : Progress S) : Progress S :=
  let startOffset := p.tokenGroup.matchStartOffset
  let endOffset := p.tokenGroup.matchEndOffset
  let tokenText := substr text startOffset endOffset
  let markedUpText := h.highlightTerm (h.encodeText tokenText) p.tokenGroup
  let newText :=
    if startOffset > p.lastEndOffset then p.newText ++ h.encodeText (substr text p.lastEndOffset startOffset) else p.newText
  { p with
    newText := newText ++ markedUpText
    lastEndOffset := max endOffset p.lastEndOffset }

/-- The current fragment ends, and another one starts. -/
def Progress.startFragment (p : Progress S) (fragmentScore : S) : Progress S :=
  let docFrags := p.docFrags ++ [{ p.currentFrag with
    score := fragmentScore
    textEndPos := p.newText.length }]
  { p with
    docFrags := docFrags
    currentFrag := .new p.newText.length docFrags.length }

def analyzeToken (p : Progress S) (token : HighlightToken S) : Except Fault (Progress S) :=
  if token.endOffset > text.length ∨ token.startOffset > text.length then .error (.invalidTokenOffsets token.term text.length)
  else
    let p :=
      if p.tokenGroup.numTokens > 0 ∧ p.tokenGroup.isDistinct token then
        let p := { h.appendGroup text p with tokenGroup := p.tokenGroup.clear }
        if token.isNewFragment then p.startFragment token.fragmentScore else p
      else p
    .ok { p with tokenGroup := p.tokenGroup.addToken token }

def analyze : List (HighlightToken S) → Progress S → Except Fault (Progress S)
  | [], p => .ok p
  | token :: rest, p =>
      if token.startOffset < h.maxDocCharsToAnalyze then
        match h.analyzeToken text p token with
        | .ok p => analyze rest p
        | .error fault => .error fault
      else .ok p

/-- The last group and the rest of the text, and the end of the last fragment. -/
def finish (fragmentScore : S) (p : Progress S) : WString × List (TextFragment S) :=
  let p := if p.tokenGroup.numTokens > 0 then h.appendGroup text p else p
  let newText :=
    if p.lastEndOffset < text.length ∧ text.length ≤ h.maxDocCharsToAnalyze then
      p.newText ++ h.encodeText (text.drop p.lastEndOffset)
    else p.newText
  (newText, p.docFrags ++ [{ p.currentFrag with
    score := fragmentScore
    textEndPos := newText.length }])

/-- The marked up text, and all its fragments. -/
def docFragments (tokens : List (HighlightToken S)) (fragmentScore : S) : Except Fault (WString × List (TextFragment S)) :=
  (h.analyze text tokens .start).map (h.finish text fragmentScore)

end Analysis

/-- The most relevant fragments, popped into an array from its end on. -/
def select (maxNumFragments : Nat) (docFrags : List (TextFragment S)) : Except Fault (List (Option (TextFragment S))) :=
  match (PriorityQueue.new maxNumFragments).offer FragmentQueue.lessThan docFrags with
  | .error _ => .error .indexOutOfBounds
  | .ok (_, fragQueue) => .ok (fragQueue.popInto FragmentQueue.lessThan fragQueue.size).1

/-- Two contiguous fragments are merged into the slot of the better one; the other slot gets null. -/
def mergeInto (frag : List (Option (TextFragment S))) (frag1Num frag2Num : Nat) (frag1 frag2 : TextFragment S) :
    List (Option (TextFragment S)) :=
  let bestScoringFragNum := if frag1.score > frag2.score then frag1Num else frag2Num
  let worstScoringFragNum := if frag1.score > frag2.score then frag2Num else frag1Num
  (frag.set worstScoringFragNum none).set bestScoringFragNum (some (frag1.merge frag2))

/-- The slots `i` and `x` are compared, if there is something in both: they are merged if one follows the other. -/
def mergeSlots (frag : List (Option (TextFragment S))) (i x : Nat) : List (Option (TextFragment S)) × Bool :=
  match frag[i]?.join, frag[x]?.join with
  | some fragI, some fragX =>
      if fragI.follows fragX then (mergeInto frag x i fragX fragI, true)
      else if fragX.follows fragI then (mergeInto frag i x fragI fragX, true)
      else (frag, false)
  | _, _ => (frag, false)

/-- So many comparisons, and whether something was merged. -/
def sweep : List (Nat × Nat) → List (Option (TextFragment S)) → List (Option (TextFragment S)) × Bool
  | [], frag => (frag, false)
  | (i, x) :: rest, frag => ((sweep rest (mergeSlots frag i x).1).1, (mergeSlots frag i x).2 || (sweep rest (mergeSlots frag i x).1).2)

/-- For each fragment, the other frags are scanned: the pairs of the two loops. -/
def scans (size : Nat) : List (Nat × Nat) := (List.range size).flatMap fun i => (List.range size).map fun x => (i, x)

/-- The loop goes on while merging is still being done, for so many rounds. -/
def mergeWhile (pairs : List (Nat × Nat)) : Nat → List (Option (TextFragment S)) → Option (List (Option (TextFragment S)))
  | 0, _ => none
  | fuel + 1, frag => if (sweep pairs frag).2 then mergeWhile pairs fuel (sweep pairs frag).1 else some (sweep pairs frag).1

/-- The result is null as long as the loop has not ended. -/
def mergeContiguousFragments (fuel : Nat) (frag : List (Option (TextFragment S))) : Option (List (Option (TextFragment S))) :=
  if frag.length > 1 then mergeWhile (scans frag.length) fuel frag else some frag

/-- The marked up text and its best fragments. -/
def getBestTextFragments (h : Highlighter S) (fuel : Nat) (tokens : List (HighlightToken S)) (fragmentScore : S) (text : WString)
    (merge : Bool) (maxNumFragments : Nat) : Except Fault (Option (WString × List (Option (TextFragment S)))) := do
  let (newText, docFrags) ← h.docFragments text tokens fragmentScore
  let frag ← select maxNumFragments docFrags
  if merge then
    pure ((mergeContiguousFragments fuel frag).map fun frag =>
      (newText, frag.filter fun slot => slot.any fun frag => decide (frag.score > 0)))
  else pure (some (newText, frag))

end Highlighter
end LucenePlusPlus
