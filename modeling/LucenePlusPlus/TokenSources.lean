import LucenePlusPlus.StdSort
import LucenePlusPlus.Term

/-!
`TokenSources::getTokenStream`: the tokens of a field put together again from its term vector, either by sorting them on their
offsets or by placing each at its position.
-/

namespace LucenePlusPlus
namespace TokenSources
open StdSort (Sorts StrictWeakOn)

/-- A token with its term and offsets. -/
structure Token where
  term : WString
  startOffset : Int
  endOffset : Int
deriving DecidableEq

inductive Stop
  /-- The vector has no offsets: a null stream is returned. -/
  | noOffsets
  | outOfBounds
  | nullToken
deriving DecidableEq

/-- `TermPositionVector`; offsets and positions are null where they are not stored. -/
structure TermPositionVector where
  getTerms : List WString
  getTermFrequencies : List Nat
  getOffsets : Nat → Option (List (Int × Int))
  getTermPositions : Nat → Option (List Int)

def lessTokenOffset (first second : Token) : Bool :=
  if first.startOffset < second.startOffset then true
  else first.startOffset > second.endOffset

/-- `StoredTokenStream`; the pointers of its tokens may be null. -/
structure StoredTokenStream where
  tokens : List (Option Token)
  currentToken : Int

/-- The token that the attributes are set to, or none when there is no next token. -/
def StoredTokenStream.incrementToken (s : StoredTokenStream) : Except Stop (Option Token × StoredTokenStream) :=
  if s.currentToken ≥ s.tokens.length then .ok (none, s)
  else if s.currentToken < 0 then .error .outOfBounds
  else
    match s.tokens.getD s.currentToken.toNat none with
    | some token => .ok (some token, { s with currentToken := s.currentToken + 1 })
    | none => .error .nullToken

/-- The result of the `n`th call, counted from 0. -/
def StoredTokenStream.call : Nat → StoredTokenStream → Except Stop (Option Token)
  | 0, s => s.incrementToken.map Prod.fst
  | n + 1, s => s.incrementToken >>= fun r => r.2.call n

/-- `tokensInOriginalOrder` and `unsortedTokens`, null until it is needed. -/
structure Building where
  tokensInOriginalOrder : List (Option Token)
  unsortedTokens : Option (List Token)

/-- The tokens of a term are placed at its positions. -/
def place (term : WString) (order : List (Option Token)) : List Int → List (Int × Int) → Except Stop (List (Option Token))
  | [], _ => .ok order
  | _ :: _, [] => .error .outOfBounds
  | pos :: positions, offset :: offsets =>
      if 0 ≤ pos ∧ pos < order.length then
        place term (order.set pos.toNat (some ⟨term, offset.1, offset.2⟩)) positions offsets
      else .error .outOfBounds

/-- The round of the loop for term `t`. -/
def addTerm (tpv : TermPositionVector) (tokenPositionsGuaranteedContiguous : Bool) (s : Building) (t : Nat) :
    Except Stop Building :=
  match tpv.getOffsets t, tpv.getTerms[t]? with
  | none, _ => .error .noOffsets
  | some _, none => .error .outOfBounds
  | some offsets, some term =>
      match (if tokenPositionsGuaranteedContiguous then tpv.getTermPositions t else none) with
      | none =>
          let tokens := offsets.map fun offset => Token.mk term offset.1 offset.2
          .ok { s with unsortedTokens := some (s.unsortedTokens.getD [] ++ tokens) }
      | some pos => (place term s.tokensInOriginalOrder pos offsets).map fun order => { s with tokensInOriginalOrder := order }

/-- The constructor of the stream leaves `currentToken` as the memory has it. -/
def getTokenStream (sort : (Token → Token → Bool) → List Token → List Token) (memory : Int) (tpv : TermPositionVector)
    (tokenPositionsGuaranteedContiguous : Bool) : Except Stop StoredTokenStream :=
  let totalTokens := tpv.getTermFrequencies.sum
  ((List.range tpv.getTermFrequencies.length).foldlM (addTerm tpv tokenPositionsGuaranteedContiguous)
    ⟨List.replicate totalTokens none, none⟩).map fun s =>
      { tokens := (s.unsortedTokens.map fun unsorted => (sort lessTokenOffset unsorted).map some).getD s.tokensInOriginalOrder
        currentToken := memory }

structure Occurrence where
  position : Int
  startOffset : Int
  endOffset : Int
deriving DecidableEq

structure Entry where
  term : WString
  occurrences : List Occurrence

/-- The vector of these terms and their occurrences, with offsets, and with or without positions. -/
def vector (storePositions : Bool) (entries : List Entry) : TermPositionVector where
  getTerms := entries.map Entry.term
  getTermFrequencies := entries.map fun entry => entry.occurrences.length
  getOffsets t := entries[t]?.map fun entry => entry.occurrences.map fun o => (o.startOffset, o.endOffset)
  getTermPositions t :=
    if storePositions then entries[t]?.map fun entry => entry.occurrences.map Occurrence.position else none

def Entry.token (entry : Entry) (o : Occurrence) : Token := ⟨entry.term, o.startOffset, o.endOffset⟩

/-- The occurrences of all terms, with the tokens that stand for them. -/
def placements (entries : List Entry) : List (Int × Token) :=
  entries.flatMap fun entry => entry.occurrences.map fun o => (o.position, entry.token o)

def tokens (entries : List Entry) : List Token := (placements entries).map Prod.snd

end TokenSources
end LucenePlusPlus
