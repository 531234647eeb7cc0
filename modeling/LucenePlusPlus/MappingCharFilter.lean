import LucenePlusPlus.ChunkedReader
import LucenePlusPlus.NormalizeCharMap

/-!
`MappingCharFilter`: the characters of a reader, with the strings of a `NormalizeCharMap` replaced, and the corrections that
bring an offset back to the input. Counters are not bounded here, and −1, the mark of the end, is a
character like others.
-/

namespace LucenePlusPlus

/-- `offsets` and `diffs` are the arrays of `BaseCharFilter` as far as they are used. -/
structure MappingCharFilter where
  normMap : NormalizeCharMap
  buffer : WString
  replacement : WString
  charPointer : Nat
  nextCharCounter : Int
  offsets : List Int
  diffs : List Int
  input : ChunkedReader WChar

namespace MappingCharFilter

def new (normMap : NormalizeCharMap) (input : ChunkedReader WChar) : MappingCharFilter :=
  { normMap, buffer := [], replacement := [], charPointer := 0, nextCharCounter := 0, offsets := [], diffs := [], input }

def getLastCumulativeDiff (s : MappingCharFilter) : Int := s.diffs.getLastD 0

def addOffCorrectMap (s : MappingCharFilter) (off cumulativeDiff : Int) : MappingCharFilter :=
  { s with offsets := s.offsets ++ [off], diffs := s.diffs ++ [cumulativeDiff] }

/-- The loop of `correct`: the last `mid`, with the place itself when its offset is the one looked for. -/
def search (offsets : List Int) (currentOff : Int) : Nat → Int → Int → Int → Option Int
  | 0, _, _, _ => none
  | rounds + 1, lo, hi, mid =>
      if hi ≥ lo then
        let mid := (lo + hi) / 2
        match offsets[mid.toNat]? with
        | none => none
        | some off =>
            if currentOff < off then search offsets currentOff rounds lo (mid - 1) mid
            else if currentOff > off then search offsets currentOff rounds (mid + 1) hi mid
            else some mid
      else some mid

/-- There is no result when a place is outside of the arrays. -/
def correct (s : MappingCharFilter) (currentOff : Int) : Option Int :=
  match s.offsets with
  | [] => some currentOff
  | first :: _ =>
      if currentOff < first then some currentOff
      else do
        let hi : Int := s.offsets.length - 1
        if currentOff ≥ (← s.offsets[hi.toNat]?) then some (currentOff + (← s.diffs[hi.toNat]?))
        else
          let mid ← search s.offsets currentOff (s.offsets.length + 1) 0 hi (-1)
          if currentOff < (← s.offsets[mid.toNat]?) then
            if mid = 0 then some currentOff else some (currentOff + (← s.diffs[(mid - 1).toNat]?))
          else some (currentOff + (← s.diffs[mid.toNat]?))

/-- The input leaves the offset as it is. -/
def correctOffset (s : MappingCharFilter) (currentOff : Int) : Option Int := s.correct currentOff

/-- The counter moves also at the end of the input. -/
def nextChar (s : MappingCharFilter) : Option WChar × MappingCharFilter :=
  let s := { s with nextCharCounter := s.nextCharCounter + 1 }
  match s.buffer with
  | c :: buffer => (some c, { s with buffer })
  | [] =>
      let (c, input) := s.input.readOne
      (c, { s with input })

def pushChar (s : MappingCharFilter) (c : WChar) : MappingCharFilter :=
  { s with nextCharCounter := s.nextCharCounter - 1, buffer := c :: s.buffer }

def pushLastChar (s : MappingCharFilter) (c : WChar) : MappingCharFilter := { s with buffer := s.buffer ++ [c] }

/-- `match`: what the recursive call gives is never null, so the character that has a submap is not pushed back. -/
def matchMap : Nat → MappingCharFilter → NormalizeCharMap → Option (NormalizeCharMap × MappingCharFilter)
  | 0, _, _ => none
  | rounds + 1, s, map =>
      if map.submap.isEmpty then some (map, s)
      else
        match s.nextChar with
        | (none, s) => some (map, s)
        | (some chr, s) =>
            match map.get chr with
            | some subMap => matchMap rounds s subMap
            | none => some (map, s.pushChar chr)

/-- The replacement is read next, and what it does to the offsets is recorded. -/
def replaceBy (s : MappingCharFilter) (result : NormalizeCharMap) : MappingCharFilter :=
  let s := { s with replacement := result.normStr, charPointer := 0 }
  let prevCumulativeDiff := s.getLastCumulativeDiff
  if result.diff < 0 then
    (List.range (-result.diff).toNat).foldl
      (fun s (i : Nat) => s.addOffCorrectMap (s.nextCharCounter + i - prevCumulativeDiff) (prevCumulativeDiff - 1 - i)) s
  else if result.diff > 0 then
    s.addOffCorrectMap (s.nextCharCounter - result.diff - prevCumulativeDiff) (prevCumulativeDiff + result.diff)
  else s

/-- What has not been read of the input. -/
def remaining (s : MappingCharFilter) : WString := s.buffer ++ s.input.rest

/-- The loop of `read`. -/
def readLoop : Nat → MappingCharFilter → Option (Option WChar × MappingCharFilter)
  | 0, _ => none
  | rounds + 1, s =>
      match s.replacement[s.charPointer]? with
      | some c => some (some c, { s with charPointer := s.charPointer + 1 })
      | none =>
          match s.nextChar with
          | (none, s) => some (none, s)
          | (some firstChar, s) =>
              match s.normMap.get firstChar with
              | none => some (some firstChar, s)
              | some nm =>
                  match s.matchMap (s.remaining.length + 1) nm with
                  | none => none
                  | some (result, s) => readLoop rounds (s.replaceBy result)

/-- There are more rounds than characters. -/
def read (s : MappingCharFilter) : Option (Option WChar × MappingCharFilter) := readLoop (s.remaining.length + 2) s

/-- The loop of `read(buffer)`. -/
def readChars : Nat → MappingCharFilter → Option (WString × MappingCharFilter)
  | 0, s => some ([], s)
  | length + 1, s =>
      match s.read with
      | none => none
      | some (none, s) => some ([], s)
      | some (some c, s) =>
          match readChars length s with
          | none => none
          | some (chars, s) => some (c :: chars, s)

def readAhead (s : MappingCharFilter) (length : Nat) : MappingCharFilter :=
  match s.input.read length with
  | (none, input) => { s with input }
  | (some tmp, input) => tmp.foldl pushLastChar { s with input }

def readBuffer (s : MappingCharFilter) (length : Nat) : Option (Option WString × MappingCharFilter) :=
  match (s.readAhead length).readChars length with
  | none => none
  | some (chars, s) => some (if chars.length = 0 then none else some chars, s)

inductive Call
  | read
  | readBuffer (length : Nat)
deriving DecidableEq

/-- The characters that a call delivers, or nothing where it returns −1. -/
def call (s : MappingCharFilter) : Call → Option (Option WString × MappingCharFilter)
  | .read => s.read.map fun (c, s) => (c.map fun c => [c], s)
  | .readBuffer length => s.readBuffer length

def run (s : MappingCharFilter) : List Call → Option (List (Option WString) × MappingCharFilter)
  | [] => some ([], s)
  | next :: calls =>
      match s.call next with
      | none => none
      | some (result, s) =>
          match s.run calls with
          | none => none
          | some (results, s) => some (result :: results, s)

namespace Cursor

def call (text : WString) : Call → Option WString × WString
  | .read =>
      match text with
      | [] => (none, [])
      | c :: text => (some [c], text)
  | .readBuffer length => (if text.take length = [] then none else some (text.take length), text.drop length)

def run (text : WString) : List Call → List (Option WString) × WString
  | [] => ([], text)
  | next :: calls =>
      let (result, text) := call text next
      let (results, text) := run text calls
      (result :: results, text)

end Cursor

end MappingCharFilter

end LucenePlusPlus
