import Mathlib.Data.Nat.Digits.Lemmas
import Mathlib.Tactic

/-!
Names of index files: the extensions, the filter that tells index files from others, and names that
carry a generation in base 36.
-/

namespace LucenePlusPlus

namespace StringUtils

/-- `CHARACTER_MAX_RADIX`. -/
def characterMaxRadix : Nat := 36

def digits : List Char := "0123456789abcdefghijklmnopqrstuvwxyz".toList

/-- The digits of `value`, lowest one first; at least one. -/
def digitsOf (value : Nat) : List Char :=
  if value = 0 then ['0'] else (Nat.digits characterMaxRadix value).map fun d => digits.getD d '0'

/-- `StringUtils::toString(value, CHARACTER_MAX_RADIX)`. -/
def toBaseString (value : Nat) : String := String.ofList (digitsOf value).reverse

/-- The value of digits given lowest one first; a character that is no digit counts as `0`. -/
def valueOf (cs : List Char) : Nat :=
  Nat.ofDigits characterMaxRadix (cs.map fun c => (digits.idxOf? c).getD 0)

/-- `StringUtils::toLong(value, CHARACTER_MAX_RADIX)` on a string of digits. -/
def toLong (s : String) : Nat := valueOf s.toList.reverse

theorem valueOf_digitsOf (value : Nat) : valueOf (digitsOf value) = value := by
  have hdigit : ∀ d < characterMaxRadix, (digits.idxOf? (digits.getD d '0')).getD 0 = d := by decide
  rw [digitsOf]
  split
  · rename_i hzero
    rw [hzero]
    decide
  · rw [valueOf, List.map_map]
    have hmap : (Nat.digits characterMaxRadix value).map
        ((fun c => (digits.idxOf? c).getD 0) ∘ fun d => digits.getD d '0') =
        Nat.digits characterMaxRadix value := by
      refine (List.map_congr_left fun d hd => ?_).trans (List.map_id _)
      exact hdigit d (Nat.digits_lt_base (by decide) hd)
    rw [hmap, Nat.ofDigits_digits]

theorem toLong_toBaseString (value : Nat) : toLong (toBaseString value) = value := by
  rw [toLong, toBaseString, String.toList_ofList, List.reverse_reverse, valueOf_digitsOf]

theorem dot_notMem_digitsOf (value : Nat) : '.' ∉ digitsOf value := by
  have hdigit : ∀ d < characterMaxRadix, digits.getD d '0' ≠ '.' := by decide
  rw [digitsOf]
  split
  · decide
  · intro hmem
    obtain ⟨d, hd, hdot⟩ := List.mem_map.mp hmem
    exact hdigit d (Nat.digits_lt_base (by decide) hd) hdot

end StringUtils

namespace IndexFileNames

def segments : String := "segments"

def segmentsGen : String := "segments.gen"

def deletable : String := "deletable"

def indexExtensions : List String :=
  ["cfs", "fnm", "fdx", "fdt", "tii", "tis", "frq", "prx", "del", "tvx", "tvd", "tvf", "gen", "nrm",
    "cfx"]

/-- `SegmentInfo::NO` is `-1` and `SegmentInfo::WITHOUT_GEN` is `0`. -/
def fileNameFromGeneration (base extension : String) (gen : Int) : String :=
  if gen = -1 then ""
  else if gen = 0 then base ++ extension
  else base ++ "_" ++ StringUtils.toBaseString gen.toNat ++ extension

/-- `boost::starts_with`. -/
def startsWith (name start : String) : Bool := start.toList.isPrefixOf name.toList

end IndexFileNames

namespace IndexFileNameFilter
open IndexFileNames

/-- The text behind the last dot, if there is one. -/
def extensionOf (name : String) : Option (List Char) :=
  let cs := name.toList.reverse
  if '.' ∈ cs then some (cs.takeWhile (· ≠ '.')).reverse else none

/-- A search for the letter followed by a digit, in an extension that starts with the letter. -/
def letterAndDigit (letter : Char) (extension : List Char) : Bool :=
  extension.head? = some letter &&
    (extension.zip extension.tail).any fun (c, d) => c = letter && d.isDigit

def accept (name : String) : Bool :=
  match extensionOf name with
  | some extension =>
      indexExtensions.contains (String.ofList extension) || letterAndDigit 'f' extension ||
        letterAndDigit 's' extension
  | none => name = deletable || startsWith name segments

end IndexFileNameFilter

end LucenePlusPlus
