import LucenePlusPlus.Gregorian
import LucenePlusPlus.RadixStrings

/-!
`DateTools`: times as digits of year, month, day, hour, minute, second and millisecond, as far as a resolution goes, and back.
-/

namespace LucenePlusPlus
namespace DateTools
open WChar (ofChar)
open StringUtils (radixDigit)
open Numerals
open Gregorian (Date dayNumber ofDayNumber)

inductive Resolution
  | RESOLUTION_NULL
  | RESOLUTION_YEAR
  | RESOLUTION_MONTH
  | RESOLUTION_DAY
  | RESOLUTION_HOUR
  | RESOLUTION_MINUTE
  | RESOLUTION_SECOND
  | RESOLUTION_MILLISECOND
deriving DecidableEq

inductive Fault
  /-- Unknown resolution. -/
  | illegalArgument
  /-- The input is not a valid date string. -/
  | parse
deriving DecidableEq

/-- The days before 1970. -/
def epoch : Nat := dayNumber ⟨1970, 1, 1⟩

/-- A `ptime`, as the milliseconds since the first day of 1970, by its day and the milliseconds of it. -/
def ptime (day ms : Nat) : Int := ((day : Int) - epoch) * 86400000 + ms

/-- `boost::gregorian::date`: the day of a date, if it is one in the supported years. -/
def gregorianDate (year month day : Nat) : Option Nat :=
  if (Date.mk year month day).Valid ∧ 1400 ≤ year ∧ year ≤ 9999 then some (dayNumber ⟨year, month, day⟩) else none

def dayOf (time : Int) : Nat := (epoch + time / 86400000).toNat

def dateOf (time : Int) : Date := ofDayNumber (dayOf time)

def timeOfDay (time : Int) : Nat := (time % 86400000).toNat

def hours (ms : Nat) : Nat := ms / 3600000

def minutes (ms : Nat) : Nat := ms / 60000 % 60

def seconds (ms : Nat) : Nat := ms / 1000 % 60

def milliseconds (ms : Nat) : Nat := ms % 1000

/-- So many decimal digits. -/
def decimal (w n : Nat) : WString := (numeral 10 w n).map radixDigit

/-- `to_iso_string`: `YYYYMMDDTHHMMSS`, and microseconds if there are any. -/
def toIsoString (time : Int) : WString :=
  let date := dateOf time
  let ms := timeOfDay time
  decimal 4 date.year ++ decimal 2 date.month ++ decimal 2 date.day ++ [ofChar 'T'] ++ decimal 2 (hours ms) ++
    decimal 2 (minutes ms) ++ decimal 2 (seconds ms) ++
    if milliseconds ms = 0 then [] else ofChar '.' :: decimal 6 (milliseconds ms * 1000)

def substr (s : WString) (pos count : Nat) : WString := (s.drop pos).take count

/-- The times of the days from the first one of 1400 to the last one of 9999. -/
def Supported (time : Int) : Prop :=
  ptime (dayNumber ⟨1400, 1, 1⟩) 0 ≤ time ∧ time < ptime (dayNumber ⟨9999, 12, 31⟩ + 1) 0

/-- What is called of the date library. -/
structure Boost where
  toIsoString : Int → WString
  gregorianDate : Nat → Nat → Nat → Option Nat
  dateOf : Int → Date

/-- The documented results. -/
structure Boost.Documented (boost : Boost) : Prop where
  toIsoString_eq : ∀ time, Supported time → boost.toIsoString time = DateTools.toIsoString time
  gregorianDate_eq : boost.gregorianDate = DateTools.gregorianDate
  dateOf_eq : ∀ time, Supported time → boost.dateOf time = DateTools.dateOf time

def gregorian : Boost := ⟨toIsoString, gregorianDate, dateOf⟩

variable (boost : Boost)

def timeToString (time : Int) (resolution : Resolution) : Except Fault WString :=
  let timeString := boost.toIsoString time
  match resolution with
  | .RESOLUTION_YEAR => .ok (substr timeString 0 4)
  | .RESOLUTION_MONTH => .ok (substr timeString 0 6)
  | .RESOLUTION_DAY => .ok (substr timeString 0 8)
  | .RESOLUTION_HOUR => .ok (substr timeString 0 8 ++ substr timeString 9 2)
  | .RESOLUTION_MINUTE => .ok (substr timeString 0 8 ++ substr timeString 9 4)
  | .RESOLUTION_SECOND => .ok (substr timeString 0 8 ++ substr timeString 9 6)
  | .RESOLUTION_MILLISECOND =>
      let fraction := if timeString.length > 16 then substr timeString 16 3 else List.replicate 3 (ofChar '0')
      .ok (substr timeString 0 8 ++ substr timeString 9 6 ++ fraction)
  | .RESOLUTION_NULL => .error .illegalArgument

def isSpace (c : WChar) : Bool := [' ', '\t', '\n', '\x0b', '\x0c', '\r'].any fun space => c == ofChar space

def digitValue (c : WChar) : Int := c.1 - (ofChar '0').1

def isDecimalDigit (c : WChar) : Bool := decide (0 ≤ digitValue c ∧ digitValue c ≤ 9)

/-- `wcstol` in base 10, for strings too short to be out of range. -/
def wcstol (s : WString) : Int :=
  let s := s.dropWhile isSpace
  let negative := s.head? == some (ofChar '-')
  let s := if negative || s.head? == some (ofChar '+') then s.drop 1 else s
  let value := (s.takeWhile isDecimalDigit).foldl (fun value c => 10 * value + digitValue c) 0
  if negative then -value else value

/-- A field of a date string, as a `uint16_t`, if the string is long enough. -/
def field (dateString : WString) (length pos count default : Nat) : Nat :=
  if dateString.length ≥ length then (wcstol (substr dateString pos count) % 65536).toNat else default

def stringToDate (dateString : WString) : Except Fault Int :=
  let year := field dateString 4 0 4 1970
  let month := field dateString 6 4 2 1
  let day := field dateString 8 6 2 1
  let hour := field dateString 10 8 2 0
  let minute := field dateString 12 10 2 0
  let second := field dateString 14 12 2 0
  let millisecond := field dateString 16 14 3 0
  match boost.gregorianDate year month day with
  | some day => .ok (ptime day (hour * 3600000 + minute * 60000 + second * 1000 + millisecond))
  | none => .error .parse

def stringToTime (dateString : WString) : Except Fault Int := stringToDate boost dateString

/-- `not_a_date_time` for no resolution. -/
def round (time : Int) (resolution : Resolution) : Option Int :=
  let date := boost.dateOf time
  let ms := timeOfDay time
  match resolution with
  | .RESOLUTION_YEAR => (boost.gregorianDate date.year 1 1).map fun day => ptime day 0
  | .RESOLUTION_MONTH => (boost.gregorianDate date.year date.month 1).map fun day => ptime day 0
  | .RESOLUTION_DAY => some (ptime (dayOf time) 0)
  | .RESOLUTION_HOUR => some (ptime (dayOf time) (hours ms * 3600000))
  | .RESOLUTION_MINUTE => some (ptime (dayOf time) (hours ms * 3600000 + minutes ms * 60000))
  | .RESOLUTION_SECOND => some (ptime (dayOf time) (hours ms * 3600000 + minutes ms * 60000 + seconds ms * 1000))
  | .RESOLUTION_MILLISECOND => some time
  | .RESOLUTION_NULL => none

end DateTools
end LucenePlusPlus
