import LucenePlusPlus.LoggedProgram
import LucenePlusPlus.Term

/-!
`PorterStemmer`: the steps as they work on the buffer of a word. The buffer is compared with a suffix and filled from a
replacement by operations on raw memory, of which the program keeps a log.
-/

namespace LucenePlusPlus

def letters (s : String) : WString := s.toList.map fun c => WChar.ofUInt32 c.toNat

def letter (c : Char) : WChar := WChar.ofUInt32 c.toNat

/-- `b` has the characters of the word that is stemmed, and no others. -/
structure PorterStemmer where
  b : WString
  k : Int
  j : Int
  dirty : Bool
deriving DecidableEq

namespace PorterStemmer
open LoggedProgram (ofState modify ask)

/-- Characters of the buffer are compared with a suffix, or replaced; they are as many as those given. -/
inductive Access
  | compare (window suffix : WString)
  | replace (window s : WString)
deriving DecidableEq

/-- Whether no difference is found, and what is in place of the characters afterwards. -/
structure MemoryOps where
  memcmp : WString → WString → Bool
  memmove : WString → WString → WString

/-- The lowest bytes of a character replaced by those of another. -/
def mixed (bytes : Fin 4) (c d : WChar) : WChar :=
  ⟨c.1 - c.1 % 256 ^ bytes.1 + d.1 % 256 ^ bytes.1, by
    have := c.2
    have := d.2
    obtain h | h | h | h : bytes.1 = 0 ∨ bytes.1 = 1 ∨ bytes.1 = 2 ∨ bytes.1 = 3 := by omega
    all_goals
      rw [h]
      omega⟩

/-- Characters are four bytes, the lowest first. -/
def memcmp : Nat → WString → WString → Bool
  | bytes, c :: a, d :: b =>
      if bytes < 4 then c.1 % 256 ^ bytes == d.1 % 256 ^ bytes else c == d && memcmp (bytes - 4) a b
  | _, _, _ => true

def memmove : Nat → WString → WString → WString
  | bytes, c :: old, d :: s =>
      if h : bytes < 4 then mixed ⟨bytes, h⟩ c d :: old else d :: memmove (bytes - 4) old s
  | _, old, _ => old

/-- The length of the string is taken for a number of bytes. -/
def memory : MemoryOps where
  memcmp window s := memcmp s.length window s
  memmove window s := memmove s.length window s

/-- The whole string is compared, and the whole string is copied. -/
def whole : MemoryOps where
  memcmp window s := window == s
  memmove _ s := s

abbrev Stem := LoggedProgram MemoryOps PorterStemmer Access

/-- There is no result outside of the buffer. -/
def charAt (s : PorterStemmer) (i : Int) : Option WChar := if 0 ≤ i then s.b[i.toNat]? else none

def isVowel (c : WChar) : Bool := (letters "aeiou").contains c

def consIn (b : WString) : Nat → Option Bool
  | 0 => do
      let c ← b[0]?
      some (!isVowel c)
  | i + 1 => do
      let c ← b[i + 1]?
      if isVowel c then some false
      else if c = letter 'y' then some (!(← consIn b i))
      else some true

def cons (s : PorterStemmer) (i : Nat) : Option Bool := consIn s.b i

/-- One of the loops of `m`: the place after the first letter that is a consonant or is none, or nothing after `j`. -/
def scan (s : PorterStemmer) (wanted : Bool) : Nat → Nat → Option (Option Nat)
  | 0, _ => none
  | rounds + 1, i => do
      if (i : Int) > s.j then some none
      else if (← s.cons i) = wanted then some (some (i + 1))
      else s.scan wanted rounds (i + 1)

def countFrom (s : PorterStemmer) : Nat → Nat → Nat → Option Nat
  | 0, _, _ => none
  | rounds + 1, i, n => do
      match ← s.scan true (s.j + 2).toNat i with
      | none => some n
      | some i =>
          match ← s.scan false (s.j + 2).toNat i with
          | none => some (n + 1)
          | some i => s.countFrom rounds i (n + 1)

def m (s : PorterStemmer) : Option Nat := do
  match ← s.scan false (s.j + 2).toNat 0 with
  | none => some 0
  | some i => s.countFrom (s.j + 2).toNat i 0

def vowelinstem (s : PorterStemmer) : Option Bool := do
  match ← s.scan false (s.j + 2).toNat 0 with
  | none => some false
  | some _ => some true

def doublec (s : PorterStemmer) (j : Int) : Option Bool := do
  if j < 1 then some false
  else if (← s.charAt j) ≠ (← s.charAt (j - 1)) then some false
  else s.cons j.toNat

def cvc (s : PorterStemmer) (i : Int) : Option Bool := do
  if i < 2 then some false
  else if !(← s.cons i.toNat) then some false
  else if ← s.cons (i - 1).toNat then some false
  else if !(← s.cons (i - 2).toNat) then some false
  else
    let ch ← s.charAt i
    some (!(letters "wxy").contains ch)

/-- The last characters of the word. -/
def window (s : PorterStemmer) (length : Nat) : WString := (s.b.take (s.k + 1).toNat).drop ((s.k + 1).toNat - length)

/-- The characters after `j`. -/
def windowAfter (s : PorterStemmer) (length : Nat) : WString := (s.b.drop (s.j + 1).toNat).take length

def compare (suffix : WString) : Stem Bool :=
  ask (fun s => .compare (s.window suffix.length) suffix) fun ops s =>
    if ops.memcmp (s.window suffix.length) suffix then (true, { s with j := s.k - suffix.length }) else (false, s)

def ends (suffix : WString) : Stem Bool := do
  -- tiny speed-up
  if suffix.getLast? ≠ some (← ofState fun s => s.charAt s.k) then pure false
  else if (suffix.length : Int) > (← ofState fun s => some (s.k + 1)) then pure false
  else compare suffix

/-- Nothing is copied outside of the buffer. -/
def setto (text : WString) : Stem Unit := do
  ofState fun s => if 0 ≤ s.j + 1 ∧ s.j + 1 + text.length ≤ s.b.length then some () else none
  ask (fun s => .replace (s.windowAfter text.length) text) fun ops s =>
    ((), { s with
      b := s.b.take (s.j + 1).toNat ++ ops.memmove (s.windowAfter text.length) text ++
        s.b.drop ((s.j + 1).toNat + text.length)
      k := s.j + text.length
      dirty := true })

def r (text : WString) : Stem Unit := do
  if 0 < (← ofState m) then setto text else pure ()

/-- `k` moved. -/
def move (by_ : Int) : Stem Unit := modify fun s => { s with k := s.k + by_ }

/-! ### Steps -/

/-- The first part of `step1ab`. -/
def step1a : Stem Unit := do
  if (← ofState fun s => s.charAt s.k) = letter 's' then
    if ← ends (letters "sses") then move (-2)
    else if ← ends (letters "ies") then setto (letters "i")
    else if (← ofState fun s => s.charAt (s.k - 1)) ≠ letter 's' then move (-1)
    else pure ()
  else pure ()

/-- After a double consonant, one letter less unless it is `l`, `s` or `z`. -/
def undouble : Stem Unit := do
  move (-1)
  if (letters "lsz").contains (← ofState fun s => s.charAt s.k) then move 1 else pure ()

/-- What follows when `-ed` or `-ing` has been taken off. -/
def restore : Stem Unit := do
  if ← ends (letters "at") then setto (letters "ate")
  else if ← ends (letters "bl") then setto (letters "ble")
  else if ← ends (letters "iz") then setto (letters "ize")
  else if ← ofState fun s => s.doublec s.k then undouble
  else if (← ofState m) = 1 then
    if ← ofState fun s => s.cvc s.k then setto (letters "e") else pure ()
  else pure ()

def endsEdOrIng : Stem Bool := do
  if ← ends (letters "ed") then pure true else ends (letters "ing")

/-- The second part of `step1ab`. -/
def step1b : Stem Unit := do
  if ← ends (letters "eed") then
    if 0 < (← ofState m) then move (-1) else pure ()
  else if ← endsEdOrIng then
    if ← ofState vowelinstem then do
      modify fun s => { s with k := s.j }
      restore
    else pure ()
  else pure ()

def step1ab : Stem Unit := do
  step1a
  step1b

def step1c : Stem Unit := do
  if ← ends (letters "y") then
    if ← ofState vowelinstem then
      modify fun s => { s with b := s.b.set s.k.toNat (letter 'i'), dirty := true }
    else pure ()
  else pure ()

/-- The cases of a switch, with what is tried in each. -/
def caseOf {α : Type} (cases : List (Char × List α)) (c : WChar) : List α :=
  ((cases.map fun (l, tried) => (letter l, tried)).lookup c).getD []

/-- The first suffix that the word ends with is replaced. -/
def tryRules : List (String × String) → Stem Unit
  | [] => pure ()
  | (suffix, text) :: rules => do
      if ← ends (letters suffix) then r (letters text) else tryRules rules

def step2Cases : List (Char × List (String × String)) :=
  [('a', [("ational", "ate"), ("tional", "tion")]),
   ('c', [("enci", "ence"), ("anci", "ance")]),
   ('e', [("izer", "ize")]),
   ('l', [("bli", "ble"), ("alli", "al"), ("entli", "ent"), ("eli", "e"), ("ousli", "ous")]),
   ('o', [("ization", "ize"), ("ation", "ate"), ("ator", "ate")]),
   ('s', [("alism", "al"), ("iveness", "ive"), ("fulness", "ful"), ("ousness", "ous")]),
   ('t', [("aliti", "al"), ("iviti", "ive"), ("biliti", "ble")]),
   ('g', [("logi", "log")])]

def step2 : Stem Unit := do
  if (← ofState fun s => some s.k) = 0 then pure ()
  else tryRules (caseOf step2Cases (← ofState fun s => s.charAt (s.k - 1)))

def step3Cases : List (Char × List (String × String)) :=
  [('e', [("icate", "ic"), ("ative", ""), ("alize", "al")]),
   ('i', [("iciti", "ic")]),
   ('l', [("ical", "ic"), ("ful", "")]),
   ('s', [("ness", "")])]

def step3 : Stem Unit := do
  tryRules (caseOf step3Cases (← ofState fun s => s.charAt s.k))

/-- `-ion` is one of the suffixes only after `s` or `t`. -/
def endsInStep4 (suffix : String) : Stem Bool := do
  if ← ends (letters suffix) then
    if suffix = "ion" then pure ((letters "st").contains (← ofState fun s => s.charAt s.j)) else pure true
  else pure false

def tryEnds : List String → Stem Bool
  | [] => pure false
  | suffix :: rest => do
      if ← endsInStep4 suffix then pure true else tryEnds rest

def step4Cases : List (Char × List String) :=
  [('a', ["al"]),
   ('c', ["ance", "ence"]),
   ('e', ["er"]),
   ('i', ["ic"]),
   ('l', ["able", "ible"]),
   ('n', ["ant", "ement", "ment", "ent"]),
   ('o', ["ion", "ou"]),
   -- takes care of -ous
   ('s', ["ism"]),
   ('t', ["ate", "iti"]),
   ('u', ["ous"]),
   ('v', ["ive"]),
   ('z', ["ize"])]

def step4 : Stem Unit := do
  if (← ofState fun s => some s.k) = 0 then pure ()
  else if ← tryEnds (caseOf step4Cases (← ofState fun s => s.charAt (s.k - 1))) then
    if 1 < (← ofState m) then modify fun s => { s with k := s.j } else pure ()
  else pure ()

/-- Whether the final `e` goes. -/
def losesE (s : PorterStemmer) : Option Bool := do
  if (← s.charAt s.k) = letter 'e' then
    let a ← s.m
    if a > 1 then some true
    else if a = 1 then some (!(← s.cvc (s.k - 1)))
    else some false
  else some false

/-- Whether a final double `l` becomes one. -/
def losesL (s : PorterStemmer) : Option Bool := do
  if (← s.charAt s.k) = letter 'l' then
    if ← s.doublec s.k then some (1 < (← s.m)) else some false
  else some false

def step5 : Stem Unit := do
  modify fun s => { s with j := s.k }
  (do if ← ofState losesE then move (-1) else pure ())
  (do if ← ofState losesL then move (-1) else pure ())

def steps : Stem Unit := do
  step1ab
  step1c
  step2
  step3
  step4
  step5

/-- The steps, and whether the word is another one now; `i` is where it ended before. -/
def stepsAndDirty (i : Int) : Stem Bool := do
  steps
  modify fun s => { s with dirty := s.dirty || i ≠ s.k }
  ofState fun s => some s.dirty

/-- The result comes with what the memory has been asked. -/
def stem (ops : MemoryOps) (word : WString) : List Access × Option (Bool × PorterStemmer) :=
  let s : PorterStemmer := { b := word, k := word.length - 1, j := 0, dirty := false }
  if s.k ≤ 1 then ([], some (false, s)) -- DEPARTURE
  else stepsAndDirty s.k ops s

/-- The word that is left in the buffer. -/
def getResult (s : PorterStemmer) : WString := s.b.take (s.k + 1).toNat

end PorterStemmer

end LucenePlusPlus
