import LucenePlusPlus.AlignedBits
import LucenePlusPlus.Term

/-!
`NumericUtils`: prefix coded numbers, and the split of a range of numbers into ranges of prefixes.

A shift by the width of the type or more and a sum that overflows have no defined value in the source. Here the
shift gives what `wide` says, whatever that is, and the sum wraps around, as they do on the machines the code is
built for; that there was one is recorded.
-/

namespace LucenePlusPlus.NumericUtils

inductive NumericError where
  | illegalArgument (message : String)
  /-- more levels than bits -/
  | levels
deriving DecidableEq

/-- `MiscUtils::unsignedShift`. -/
def unsignedShift {w : Nat} (num : BitVec w) (shift : Nat) : BitVec w :=
  if shift % w = 0 then num else (num >>> 1) >>> (shift % w - 1)

/-- Seven bits of a number. -/
def prefixChar {w : Nat} (sortableBits : BitVec w) : WChar :=
  ⟨(sortableBits.toNat % 0x80 : Nat), by omega⟩

/-- The loop that fills the buffer from its end. -/
def prefixChars {w : Nat} : Nat → BitVec w → WString
  | 0, _ => []
  | nChars + 1, sortableBits => prefixChars nChars (unsignedShift sortableBits 7) ++ [prefixChar sortableBits]

/-- The shift, and the bits that are left of the number with its sign bit flipped. -/
def prefixCoded {w : Nat} (shiftStart : Nat) (illegal : String) (hstart : shiftStart + w ≤ 0x80)
    (val : BitVec w) (shift : Nat) : Except NumericError WString :=
  if h : w - 1 < shift then .error (.illegalArgument illegal)
  else .ok (⟨(shiftStart + shift : Nat), by omega⟩ ::
    prefixChars ((w - 1 - shift) / 7 + 1) (unsignedShift (val ^^^ BitVec.intMin w) shift))

def SHIFT_START_LONG : Nat := 0x20

def SHIFT_START_INT : Nat := 0x60

def longToPrefixCoded (val : BitVec 64) (shift : Nat) : Except NumericError WString :=
  prefixCoded SHIFT_START_LONG "Illegal shift value, must be 0..63" (by decide) val shift

def intToPrefixCoded (val : BitVec 32) (shift : Nat) : Except NumericError WString :=
  prefixCoded SHIFT_START_INT "Illegal shift value, must be 0..31" (by decide) val shift

inductive ValSize where
  | int
  | long
deriving DecidableEq

def ValSize.bits : ValSize → Nat
  | .int => 32
  | .long => 64

/-- What the builder is given. -/
structure Range (valSize : ValSize) where
  min : BitVec valSize.bits
  max : BitVec valSize.bits
  shift : Nat
deriving DecidableEq

def toPrefixCoded : (valSize : ValSize) → BitVec valSize.bits → Nat → Except NumericError WString
  | .int => intToPrefixCoded
  | .long => longToPrefixCoded

/-- The terms of a range are those from that of `min` to that of `max`; the value is indexed under its term for the
shift. -/
def Range.Covers {valSize : ValSize} (range : Range valSize) (val : BitVec valSize.bits) : Prop :=
  ∃ minPrefixCoded maxPrefixCoded term, toPrefixCoded valSize range.min range.shift = .ok minPrefixCoded ∧
    toPrefixCoded valSize range.max range.shift = .ok maxPrefixCoded ∧
    toPrefixCoded valSize val range.shift = .ok term ∧ minPrefixCoded ≤ term ∧ term ≤ maxPrefixCoded

/-- The ranges, and whether no shift was too wide and no sum overflowed. -/
structure Split (valSize : ValSize) where
  ranges : List (Range valSize)
  defined : Bool

section Levels
variable (wide : BitVec 64 → Nat → BitVec 64)

def shiftLeft (num : BitVec 64) (shift : Nat) : BitVec 64 :=
  if shift < 64 then num <<< shift else wide num shift

/-- `1 << shift`, less one. -/
def lowerBits (shift : Nat) : BitVec 64 := shiftLeft wide 1 shift - 1

def lowerBitsDefined (shift : Nat) : Bool :=
  shift < 64 && !BitVec.ssubOverflow (shiftLeft wide 1 shift) 1

def addRange (valSize : ValSize) (minBound maxBound : BitVec 64) (shift : Nat) : Range valSize where
  min := minBound.setWidth valSize.bits
  max := (maxBound ||| lowerBits wide shift).setWidth valSize.bits
  shift := shift

def diff (precisionStep shift : Nat) : BitVec 64 := shiftLeft wide 1 (shift + precisionStep)

def mask (precisionStep shift : Nat) : BitVec 64 := shiftLeft wide (lowerBits wide precisionStep) shift

def hasLower (precisionStep shift : Nat) (minBound : BitVec 64) : Bool :=
  minBound &&& mask wide precisionStep shift ≠ 0

def hasUpper (precisionStep shift : Nat) (maxBound : BitVec 64) : Bool :=
  maxBound &&& mask wide precisionStep shift ≠ mask wide precisionStep shift

def nextMinBound (precisionStep shift : Nat) (minBound : BitVec 64) : BitVec 64 :=
  (if hasLower wide precisionStep shift minBound then minBound + diff wide precisionStep shift else minBound) &&&
    ~~~mask wide precisionStep shift

def nextMaxBound (precisionStep shift : Nat) (maxBound : BitVec 64) : BitVec 64 :=
  (if hasUpper wide precisionStep shift maxBound then maxBound - diff wide precisionStep shift else maxBound) &&&
    ~~~mask wide precisionStep shift

/-- Whether what a level computes has a value. -/
def levelDefined (precisionStep shift : Nat) (minBound maxBound : BitVec 64) : Bool :=
  shift + precisionStep < 64 && lowerBitsDefined wide precisionStep && shift < 64 &&
    !(hasLower wide precisionStep shift minBound &&
      minBound.saddOverflow (diff wide precisionStep shift)) &&
    !(hasUpper wide precisionStep shift maxBound &&
      maxBound.ssubOverflow (diff wide precisionStep shift)) &&
    lowerBitsDefined wide shift

/-- This is the lowest precision, or the next one is not available. -/
def isLast (valSize : ValSize) (precisionStep shift : Nat) (minBound maxBound : BitVec 64) : Bool :=
  valSize.bits ≤ shift + precisionStep ||
    (nextMaxBound wide precisionStep shift maxBound).slt (nextMinBound wide precisionStep shift minBound) ||
    (nextMinBound wide precisionStep shift minBound).slt minBound ||
    maxBound.slt (nextMaxBound wide precisionStep shift maxBound)

/-- The ranges of a level that is not the last. -/
def fringes (valSize : ValSize) (precisionStep shift : Nat) (minBound maxBound : BitVec 64) :
    List (Range valSize) :=
  (if hasLower wide precisionStep shift minBound then
    [addRange wide valSize minBound (minBound ||| mask wide precisionStep shift) shift] else []) ++
  if hasUpper wide precisionStep shift maxBound then
    [addRange wide valSize (maxBound &&& ~~~mask wide precisionStep shift) maxBound shift] else []

/-- The loop, from `shift` on, with fuel for the levels. -/
def splitFrom (valSize : ValSize) (precisionStep : Nat) :
    Nat → Nat → BitVec 64 → BitVec 64 → Except NumericError (Split valSize)
  | 0, _, _, _ => .error .levels
  | fuel + 1, shift, minBound, maxBound =>
      if isLast wide valSize precisionStep shift minBound maxBound then
        .ok ⟨[addRange wide valSize minBound maxBound shift],
          levelDefined wide precisionStep shift minBound maxBound⟩
      else do
        let split ← splitFrom valSize precisionStep fuel (shift + precisionStep)
          (nextMinBound wide precisionStep shift minBound) (nextMaxBound wide precisionStep shift maxBound)
        return ⟨fringes wide valSize precisionStep shift minBound maxBound ++ split.ranges,
          levelDefined wide precisionStep shift minBound maxBound && split.defined⟩

def splitRange (valSize : ValSize) (precisionStep : Int) (minBound maxBound : BitVec 64) :
    Except NumericError (Split valSize) :=
  if precisionStep < 1 then .error (.illegalArgument "precisionStep must be >=1")
  else if maxBound.slt minBound then .ok ⟨[], true⟩
  else splitFrom wide valSize precisionStep.toNat valSize.bits 0 minBound maxBound

def splitLongRange (precisionStep : Int) (minBound maxBound : BitVec 64) : Except NumericError (Split .long) :=
  splitRange wide .long precisionStep minBound maxBound

def splitIntRange (precisionStep : Int) (minBound maxBound : BitVec 32) : Except NumericError (Split .int) :=
  splitRange wide .int precisionStep (minBound.signExtend 64) (maxBound.signExtend 64)

end Levels

end LucenePlusPlus.NumericUtils
