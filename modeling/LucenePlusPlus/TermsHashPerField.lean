import LucenePlusPlus.DictionaryOrder
import LucenePlusPlus.OpenAddressing

/-!
`TermsHashPerField`: the table of the texts of a field, with the postings in open addressing and the texts in the
character blocks that the fields of a thread share. This is the first hash of the chain, in which `add` hashes the
text. The streams of a posting are left out.
-/

namespace LucenePlusPlus
open UTF8Base WChar OpenAddressing
open DictionaryOrder (CHAR_BLOCK_SIZE stored replaceTerminator)

namespace DocumentsWriter

def MAX_TERM_LENGTH : Nat := CHAR_BLOCK_SIZE - 1

end DocumentsWriter

/-- `buffers` has what is in the cells of the blocks, also of those that are not in use. -/
structure CharBlockPool where
  buffers : Int → Nat → WChar
  bufferUpto : Int
  charUpto : Nat
  charOffset : Int

namespace CharBlockPool

/-- The constructor, and what `reset` makes of a pool; the blocks that are given out later hold anything. -/
def empty (buffers : Int → Nat → WChar) : CharBlockPool := ⟨buffers, -1, CHAR_BLOCK_SIZE, -CHAR_BLOCK_SIZE⟩

/-- There is none when the offset leaves `int32_t`. -/
def nextBuffer (pool : CharBlockPool) : Option CharBlockPool :=
  if pool.charOffset + CHAR_BLOCK_SIZE < 2 ^ 31 then
    some ⟨pool.buffers, pool.bufferUpto + 1, 0, pool.charOffset + CHAR_BLOCK_SIZE⟩
  else none

/-- The cells of a block with `chars` written from `pos` on. -/
def write (text : Nat → WChar) (pos : Nat) (chars : List WChar) (i : Nat) : WChar :=
  if pos ≤ i then (chars[i - pos]?).getD (text i) else text i

/-- Writes the text into the current block; the place of the text is `charUpto + charOffset`. -/
def put (pool : CharBlockPool) (tokenText : WString) : CharBlockPool :=
  ⟨fun b => if b = pool.bufferUpto then write (pool.buffers b) pool.charUpto (stored tokenText) else pool.buffers b,
    pool.bufferUpto, pool.charUpto + (1 + tokenText.length), pool.charOffset⟩

/-- The place of a text in the pool, and the pool with the text. -/
def append (pool : CharBlockPool) (tokenText : WString) : Option (Int × CharBlockPool) := do
  let pool ← if 1 + tokenText.length + pool.charUpto > CHAR_BLOCK_SIZE then pool.nextBuffer else some pool
  return (pool.charUpto + pool.charOffset, pool.put tokenText)

/-- The block that has the place. -/
def block (pool : CharBlockPool) (textStart : Int) : Nat → WChar := pool.buffers (textStart / CHAR_BLOCK_SIZE)

/-- The place in its block. -/
def blockPos (textStart : Int) : Nat := (textStart % CHAR_BLOCK_SIZE).toNat

/-- The characters from `pos` to the terminator, or to the end of the block. -/
def untilTerminator (text : Nat → WChar) : Nat → Nat → WString
  | 0, _ => []
  | cells + 1, pos =>
      if text pos = UNICODE_TERMINATOR then [] else text pos :: untilTerminator text cells (pos + 1)

/-- The text at a place. -/
def text (pool : CharBlockPool) (textStart : Int) : WString :=
  untilTerminator (pool.block textStart) CHAR_BLOCK_SIZE (blockPos textStart)

end CharBlockPool

structure RawPostingList where
  textStart : Int
  deriving DecidableEq

/-- `overflow` is a size or an offset outside `int32_t`; `loops` is a search without an end. -/
inductive TermsHashPerField.Failure where
  | assertion
  | overflow
  | loops

/-- What `add` did with the token. -/
inductive TermsHashPerField.Outcome where
  | located (p : RawPostingList)
  | newTerm (p : RawPostingList)
  | skippingLongTerm

structure TermsHashPerField where
  postingsCompacted : Bool
  numPostings : Nat
  postingsHashSize : Nat
  postingsHashHalfSize : Nat
  postingsHashMask : Nat
  postingsHash : List (Option RawPostingList)
  charPool : CharBlockPool

namespace TermsHashPerField

/-- The field of a thread with `charPool`. -/
def initial (charPool : CharBlockPool) : TermsHashPerField := ⟨false, 0, 4, 2, 3, List.replicate 4 none, charPool⟩

/-- The characters from the last one to the first. -/
def hashCode (text : WString) : BitVec 32 := text.foldr (fun ch code => code * 31#32 + BitVec.ofInt 32 ch.1) 0#32

def hashPos (mask : Nat) (code : BitVec 32) : Nat := (code &&& BitVec.ofNat 32 mask).toNat

def inc (code : BitVec 32) : BitVec 32 := (code.sshiftRight 8 + code) ||| 1#32

def postingEquals (text : Nat → WChar) : Nat → WString → Bool
  | pos, [] => text pos = UNICODE_TERMINATOR
  | pos, ch :: tokenText => if ch ≠ text pos then false else postingEquals text (pos + 1) tokenText

/-- The slot at which the search for a text ends. -/
def find (field : TermsHashPerField) (tokenText : WString) : Option Nat :=
  let code := hashCode tokenText
  probe (hashPos field.postingsHashMask) (· + inc code) field.postingsHash
    (fun p => postingEquals (field.charPool.block p.textStart) (CharBlockPool.blockPos p.textStart) tokenText)
    field.postingsHash.length code

/-- The turn of a slot of the old table; the code is that of the text in the character block. -/
def rehashPosting (charPool : CharBlockPool) (newMask : Nat) (newHash : List (Option RawPostingList)) :
    Option RawPostingList → Except Failure (List (Option RawPostingList))
  | none => .ok newHash
  | some p0 =>
      let code := hashCode (charPool.text p0.textStart)
      match probe (hashPos newMask) (· + inc code) newHash (fun _ => false) newHash.length code with
      | none => .error .loops
      | some i => .ok (newHash.set i (some p0))

def rehashPostings (field : TermsHashPerField) (newSize : Nat) : Except Failure TermsHashPerField :=
  if newSize < 2 ^ 31 then
    match field.postingsHash.foldlM (rehashPosting field.charPool (newSize - 1)) (List.replicate newSize none) with
    | .error failure => .error failure
    | .ok newHash =>
        .ok { field with
          postingsHashMask := newSize - 1
          postingsHash := newHash
          postingsHashSize := newSize
          postingsHashHalfSize := newSize / 2 }
  else .error .overflow

/-- The posting of a new text goes into the slot. -/
def insert (field : TermsHashPerField) (i : Nat) (tokenText : WString) : Except Failure (Outcome × TermsHashPerField) :=
  if 1 + tokenText.length > CHAR_BLOCK_SIZE then .ok (.skippingLongTerm, field)
  else
    match field.charPool.append tokenText with
    | none => .error .overflow
    | some (textStart, charPool) =>
        let field := { field with
          charPool := charPool
          postingsHash := field.postingsHash.set i (some ⟨textStart⟩)
          numPostings := field.numPostings + 1 }
        if field.numPostings = field.postingsHashHalfSize then
          match field.rehashPostings (2 * field.postingsHashSize) with
          | .error failure => .error failure
          | .ok field => .ok (.newTerm ⟨textStart⟩, field)
        else .ok (.newTerm ⟨textStart⟩, field)

def add (field : TermsHashPerField) (tokenText : WString) : Except Failure (Outcome × TermsHashPerField) :=
  if field.postingsCompacted then .error .assertion
  else
    let tokenText := replaceTerminator tokenText
    match field.find tokenText with
    | none => .error .loops
    | some i =>
        match occupant field.postingsHash i with
        | some p => .ok (.located p, field)
        | none => field.insert i tokenText

/-- The turn of slot `i`; the postings found so far are in the first `upto` slots. -/
def compactPosting (state : List (Option RawPostingList) × Nat) (i : Nat) : List (Option RawPostingList) × Nat :=
  match occupant state.1 i with
  | none => state
  | some p => (if state.2 < i then (state.1.set state.2 (some p)).set i none else state.1, state.2 + 1)

def compactPostings (field : TermsHashPerField) : Except Failure TermsHashPerField :=
  let state := (List.range field.postingsHashSize).foldl compactPosting (field.postingsHash, 0)
  if state.2 = field.numPostings then .ok { field with postingsHash := state.1, postingsCompacted := true }
  else .error .assertion

def recyclePostings (field : TermsHashPerField) : Except Failure TermsHashPerField :=
  if field.numPostings ≤ field.postingsHash.length then
    .ok { field with
      postingsHash := List.replicate field.numPostings none ++ field.postingsHash.drop field.numPostings
      numPostings := 0
      postingsCompacted := false }
  else .error .assertion

def reset (field : TermsHashPerField) : Except Failure TermsHashPerField :=
  if field.postingsCompacted then field.recyclePostings
  else
    match field.compactPostings with
    | .error failure => .error failure
    | .ok field => field.recyclePostings

/-- The size that is asked for is not looked at. -/
def shrinkHash (field : TermsHashPerField) (_targetSize : Nat) : Except Failure TermsHashPerField :=
  if field.postingsCompacted ∨ field.numPostings = 0 then
    let newSize := 4
    if newSize ≠ field.postingsHash.length then
      .ok { field with
        postingsHash := List.replicate newSize none
        postingsHashSize := newSize
        postingsHashHalfSize := newSize / 2
        postingsHashMask := newSize - 1 }
    else .ok { field with postingsHash := List.replicate newSize none }
  else .error .assertion

/-- What can have become of a field, with the tokens that were added since the last `reset`. The other fields of the
thread put their texts into the same character blocks, which are given back when the field has no postings. -/
inductive Runs : List WString → TermsHashPerField → Prop
  | initial (buffers : Int → Nat → WChar) : Runs [] (initial (.empty buffers))
  | add {tokens field tokenText outcome field'} : Runs tokens field → field.add tokenText = .ok (outcome, field') →
      Runs (tokens ++ [tokenText]) field'
  | otherField {tokens field tokenText textStart charPool} : Runs tokens field →
      1 + tokenText.length ≤ CHAR_BLOCK_SIZE → field.charPool.append tokenText = some (textStart, charPool) →
      Runs tokens { field with charPool := charPool }
  | compactPostings {tokens field field'} : Runs tokens field → field.compactPostings = .ok field' → Runs tokens field'
  | reset {tokens field field'} : Runs tokens field → field.reset = .ok field' → Runs [] field'
  | shrinkHash {tokens field targetSize field'} : Runs tokens field → field.shrinkHash targetSize = .ok field' →
      Runs tokens field'
  | resetPool {tokens field} (buffers : Int → Nat → WChar) : Runs tokens field → field.numPostings = 0 →
      Runs tokens { field with charPool := .empty buffers }

/-- The texts of the postings in the table. -/
def texts (field : TermsHashPerField) : List WString :=
  field.postingsHash.reduceOption.map fun p => field.charPool.text p.textStart

/-- The posting that a search for the text finds. -/
def lookup (field : TermsHashPerField) (text : WString) : Option RawPostingList :=
  (field.find text).bind (occupant field.postingsHash)

end TermsHashPerField
end LucenePlusPlus
