import LucenePlusPlus.ChunkedReader
import LucenePlusPlus.Term

/-!
`NGramTokenizer` and `EdgeNGramTokenizer`: the pieces of a text, read through a buffer that is filled again when few characters
are left in it.
-/

namespace LucenePlusPlus

structure NGramTokenizer where
  minGram : Nat
  maxGram : Nat
  buffer : WString
  bufferStart : Nat
  bufferEnd : Nat
  offset : Int
  gramSize : Nat
  exhausted : Bool
  lastCheckedChar : Int
  lastNonTokenChar : Int
  input : ChunkedReader WChar

namespace NGramTokenizer
open ChunkedReader (store)

/-- What a token leaves in the attributes. -/
structure Gram where
  term : WString
  positionIncrement : Nat
  startOffset : Int
  endOffset : Int
deriving DecidableEq

inductive Fault
  | illegalArgument
  /-- A counter that is no `int32_t`. -/
  | overflow
  | outOfBounds
deriving DecidableEq

def int32 (x : Int) : Except Fault Int := if -2 ^ 31 ≤ x ∧ x < 2 ^ 31 then .ok x else .error .overflow

/-- `CharReader` has the offsets as they are. -/
def correctOffset (currentOff : Int) : Int := currentOff

def resetState (s : NGramTokenizer) : NGramTokenizer :=
  { s with
    bufferStart := s.buffer.length
    bufferEnd := s.buffer.length
    lastNonTokenChar := s.buffer.length - 1
    lastCheckedChar := s.buffer.length - 1
    offset := 0
    gramSize := s.minGram
    exhausted := false }

def new (minGram maxGram : Nat) (input : ChunkedReader WChar) : Except Fault NGramTokenizer :=
  if minGram < 1 then .error .illegalArgument
  else if minGram > maxGram then .error .illegalArgument
  else
    (int32 (2 * maxGram + 1024)).map fun size => resetState
      { minGram, maxGram, buffer := List.replicate size.toNat ⟨0, WChar.null_mem⟩, bufferStart := 0, bufferEnd := 0, offset := 0,
        gramSize := 0, exhausted := false, lastCheckedChar := 0, lastNonTokenChar := 0, input }

/-- The loop of `fillBuffer`, with as many rounds as there is room: each one reads a character at least. -/
def readMore : Nat → NGramTokenizer → NGramTokenizer
  | 0, s => s
  | room + 1, s =>
      if s.bufferEnd < s.buffer.length then
        match s.input.read (s.buffer.length - s.bufferEnd) with
        | (none, input) => { s with exhausted := true, input }
        | (some chars, input) =>
            readMore room { s with buffer := store s.buffer s.bufferEnd chars, bufferEnd := s.bufferEnd + chars.length, input }
      else s

def fillBuffer (s : NGramTokenizer) : Except Fault NGramTokenizer :=
  if s.exhausted = true ∨ (s.bufferStart : Int) < s.bufferEnd - s.maxGram - 1 then .ok s
  else do
    let remaining := s.bufferEnd - s.bufferStart
    let buffer :=
      if remaining > 0 ∧ s.bufferStart > 0 then store s.buffer 0 ((s.buffer.drop s.bufferStart).take remaining) else s.buffer
    let lastCheckedChar ← int32 (s.lastCheckedChar - s.bufferStart)
    let lastNonTokenChar ← int32 (s.lastNonTokenChar - s.bufferStart)
    return readMore (buffer.length - remaining)
      { s with buffer, bufferEnd := remaining, lastCheckedChar, lastNonTokenChar, bufferStart := 0 }

def consume (s : NGramTokenizer) : Except Fault NGramTokenizer :=
  (int32 (s.offset + 1)).map fun offset => { s with bufferStart := s.bufferStart + 1, offset }

/-- `buffer[i]` -/
def charAt (s : NGramTokenizer) (i : Int) : Except Fault WChar :=
  if i < 0 then .error .outOfBounds
  else
    match s.buffer[i.toNat]? with
    | some c => .ok c
    | none => .error .outOfBounds

section
variable (isTokenChar : WChar → Bool)

/-- The last one of these many characters up to `i` that is not of a token. -/
def findNonTokenChar (s : NGramTokenizer) : Nat → Int → Except Fault (Option Int)
  | 0, _ => .ok none
  | count + 1, i => do
      let c ← s.charAt i
      if isTokenChar c then findNonTokenChar s count (i - 1) else return some i

def updateLastNonTokenChar (s : NGramTokenizer) : Except Fault NGramTokenizer :=
  let termEnd : Int := s.bufferStart + s.gramSize - 1
  if termEnd > s.lastCheckedChar then
    (s.findNonTokenChar isTokenChar (termEnd - s.lastCheckedChar).toNat termEnd).map fun found =>
      { s with lastNonTokenChar := found.getD s.lastNonTokenChar, lastCheckedChar := termEnd }
  else .ok s

/-- The characters from `bufferStart` on, as the next token. -/
def emit (s : NGramTokenizer) : Except Fault (Option Gram × NGramTokenizer) :=
  (int32 (s.offset + s.gramSize)).map fun termEnd =>
    (some ⟨(s.buffer.drop s.bufferStart).take s.gramSize, 1, correctOffset s.offset, correctOffset termEnd⟩,
      { s with gramSize := s.gramSize + 1 })

/-- The loop of `incrementToken`; there is no result when the rounds do not do. -/
def incrementToken : Nat → NGramTokenizer → Option (Except Fault (Option Gram × NGramTokenizer))
  | 0, _ => none
  | rounds + 1, s =>
      match s.fillBuffer with
      | .error e => some (.error e)
      | .ok s =>
          if s.gramSize > s.maxGram ∨ s.bufferStart + s.gramSize > s.bufferEnd then
            if s.bufferStart + 1 + s.minGram > s.bufferEnd then
              if s.exhausted then some (.ok (none, s)) else incrementToken rounds s
            else
              match s.consume with
              | .error e => some (.error e)
              | .ok s => incrementToken rounds { s with gramSize := s.minGram }
          else
            match s.updateLastNonTokenChar isTokenChar with
            | .error e => some (.error e)
            | .ok s =>
                if s.lastNonTokenChar ≥ s.bufferStart ∧ s.lastNonTokenChar < s.bufferStart + s.gramSize then
                  match s.consume with
                  | .error e => some (.error e)
                  | .ok s => incrementToken rounds { s with gramSize := s.minGram }
                else some s.emit

/-- `EdgeNGramTokenizer::incrementToken` -/
def incrementEdgeToken : Nat → NGramTokenizer → Option (Except Fault (Option Gram × NGramTokenizer))
  | 0, _ => none
  | rounds + 1, s =>
      match s.fillBuffer with
      | .error e => some (.error e)
      | .ok s =>
          if s.gramSize > s.maxGram ∨ s.bufferStart + s.gramSize > s.bufferEnd then
            if s.exhausted then some (.ok (none, s)) else incrementEdgeToken rounds s
          else
            match s.updateLastNonTokenChar isTokenChar with
            | .error e => some (.error e)
            | .ok s =>
                if s.lastNonTokenChar ≥ s.bufferStart ∧ s.lastNonTokenChar < s.bufferStart + s.gramSize then
                  match s.consume with
                  | .error e => some (.error e)
                  | .ok s => incrementEdgeToken rounds { s with gramSize := s.minGram }
                else some s.emit

end

/-- `end`: the offset that is set. -/
def finalOffset (s : NGramTokenizer) : Except Fault Int :=
  (int32 (s.offset + (s.bufferEnd - s.bufferStart : Nat))).map correctOffset

end NGramTokenizer
end LucenePlusPlus
