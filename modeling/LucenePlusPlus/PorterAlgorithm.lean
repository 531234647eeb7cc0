import LucenePlusPlus.PorterStemmer
import Mathlib.Data.List.MinMax

/-!
The Porter algorithm on words: steps 1a to 5 as rules for the longest matching suffix, with a condition on what is before it.
-/

namespace LucenePlusPlus.Porter
open PorterStemmer (isVowel)

/-- A letter other than `a`, `e`, `i`, `o` and `u`, and other than `y` after a consonant. -/
def isConsonant (afterConsonant : Bool) (c : WChar) : Bool :=
  if isVowel c then false else if c = letter 'y' then !afterConsonant else true

def consonants : Bool → WString → List Bool
  | _, [] => []
  | afterConsonant, c :: w => isConsonant afterConsonant c :: consonants (isConsonant afterConsonant c) w

/-- Which letters of a word are consonants. -/
def shape (w : WString) : List Bool := consonants false w

/-- How often a consonant follows a vowel. -/
def changes : List Bool → Nat
  | false :: true :: rest => changes (true :: rest) + 1
  | _ :: rest => changes rest
  | [] => 0

/-- The `m` of a word that has the form `[C](VC)^m[V]`. -/
def measure (w : WString) : Nat := changes (shape w)

/-- `*v*`. -/
def hasVowel (w : WString) : Bool := (shape w).contains false

/-- `*d`. -/
def endsDouble (w : WString) : Bool :=
  2 ≤ w.length && w[w.length - 1]? == w[w.length - 2]? && (shape w)[w.length - 1]? == some true

/-- `*o`. -/
def endsCvc (w : WString) : Bool :=
  3 ≤ w.length && (shape w)[w.length - 3]? == some true && (shape w)[w.length - 2]? == some false &&
    (shape w)[w.length - 1]? == some true && !w.getLast?.any (letters "wxy").contains

def applies (suffix : String) (w : WString) : Bool := (letters suffix).isSuffixOf w

/-- What is before a suffix. -/
def before (suffix : String) (w : WString) : WString := w.take (w.length - (letters suffix).length)

/-- The rule with the longest suffix that the word ends with. -/
def longestRule {ρ : Type} (suffix : ρ → String) (rules : List ρ) (w : WString) : Option ρ :=
  (rules.filter fun rule => applies (suffix rule) w).argmax fun rule => (letters (suffix rule)).length

def step1a (w : WString) : WString :=
  match longestRule Prod.fst [("sses", "ss"), ("ies", "i"), ("ss", "ss"), ("s", "")] w with
  | some (suffix, text) => before suffix w ++ letters text
  | none => w

/-- What follows when `-ed` or `-ing` has been taken off. -/
def restore (w : WString) : WString :=
  match longestRule id ["at", "bl", "iz"] w with
  | some _ => w ++ letters "e"
  | none =>
      if endsDouble w && !w.getLast?.any (letters "lsz").contains then w.dropLast
      else if measure w = 1 && endsCvc w then w ++ letters "e"
      else w

def step1b (w : WString) : WString :=
  match longestRule id ["eed", "ed", "ing"] w with
  | some suffix =>
      if suffix = "eed" then if 0 < measure (before suffix w) then before suffix w ++ letters "ee" else w
      else if hasVowel (before suffix w) then restore (before suffix w)
      else w
  | none => w

def step1c (w : WString) : WString :=
  if applies "y" w && hasVowel (before "y" w) then before "y" w ++ letters "i" else w

/-- The suffix of a rule is replaced where the measure of what is before it is not zero. -/
def replaceFound (w : WString) : Option (String × String) → WString
  | some (suffix, text) => if 0 < measure (before suffix w) then before suffix w ++ letters text else w
  | none => w

def replaceSuffix (rules : List (String × String)) (w : WString) : WString :=
  replaceFound w (longestRule Prod.fst rules w)

def step2Rules : List (String × String) :=
  [("ational", "ate"), ("tional", "tion"), ("enci", "ence"), ("anci", "ance"), ("izer", "ize"),
   ("bli", "ble"), -- DEPARTURE
   ("alli", "al"), ("entli", "ent"), ("eli", "e"), ("ousli", "ous"), ("ization", "ize"), ("ation", "ate"), ("ator", "ate"),
   ("alism", "al"), ("iveness", "ive"), ("fulness", "ful"), ("ousness", "ous"), ("aliti", "al"), ("iviti", "ive"),
   ("biliti", "ble"),
   ("logi", "log")] -- DEPARTURE

def step2 (w : WString) : WString := replaceSuffix step2Rules w

def step3Rules : List (String × String) :=
  [("icate", "ic"), ("ative", ""), ("alize", "al"), ("iciti", "ic"), ("ical", "ic"), ("ful", ""), ("ness", "")]

def step3 (w : WString) : WString := replaceSuffix step3Rules w

def step4Suffixes : List String :=
  ["al", "ance", "ence", "er", "ic", "able", "ible", "ant", "ement", "ment", "ent", "ion", "ou", "ism", "ate", "iti", "ous",
   "ive", "ize"]

/-- `-ion` is taken off only after `s` or `t`. -/
def canGo (w : WString) (suffix : String) : Bool :=
  suffix ≠ "ion" || (before suffix w).getLast?.any (letters "st").contains

def step4 (w : WString) : WString :=
  match longestRule id step4Suffixes w with
  | some suffix => if canGo w suffix && 1 < measure (before suffix w) then before suffix w else w
  | none => w

def step5a (w : WString) : WString :=
  if applies "e" w && (1 < measure (before "e" w) || (measure (before "e" w) = 1 && !endsCvc (before "e" w))) then
    before "e" w
  else w

def step5b (w : WString) : WString :=
  if 1 < measure w && endsDouble w && applies "l" w then w.dropLast else w

/-- The word as step 4 gets it. -/
def beforeStep4 (w : WString) : WString := step3 (step2 (step1c (step1b (step1a w))))

/-- A word of one or two letters is left as it is. -/
def stem (w : WString) : WString :=
  if w.length ≤ 2 then w -- DEPARTURE
  else step5b (step5a (step4 (beforeStep4 w)))

end LucenePlusPlus.Porter
