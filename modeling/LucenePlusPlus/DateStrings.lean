import LucenePlusPlus.DateTools
import LucenePlusPlus.NumberTools
import LucenePlusPlus.RadixStrings
import Mathlib.Data.List.TakeWhile

/-!
`DateField`: times as the last characters of numbers in base 36.
-/

namespace LucenePlusPlus
namespace DateField
open WChar (ofChar)
open StringUtils (toStringInBase toLongInBase TellsDigits radixDigit radixDigit_lt_iff toStringInBase_spec toLongInBase_numeral)
open Numerals

def CHARACTER_MAX_RADIX : Int := 36

/-- Long enough to last a millennium. -/
def DATE_LEN : Nat := ((toStringInBase (1000 * 365 * 24 * (60 * 60 * 1000)) CHARACTER_MAX_RADIX).getD []).length

inductive Fault
  /-- The time is too early, must be >= 0. -/
  | tooEarly (time : Int)
  | outOfBounds
deriving DecidableEq

def timeToString (time : Int) : Except Fault WString :=
  if time < 0 then .error (.tooEarly time)
  else
    match toStringInBase time CHARACTER_MAX_RADIX with
    | none => .error .outOfBounds
    | some num =>
        let timeString := List.replicate DATE_LEN (ofChar '0') ++ num
        .ok ((timeString.drop (timeString.length - DATE_LEN)).take DATE_LEN)

def stringToTime (isDigit : WChar → Bool) (s : WString) : Int := toLongInBase isDigit s CHARACTER_MAX_RADIX

variable {isDigit : WChar → Bool} {a b n : Nat}

theorem DATE_LEN_eq : DATE_LEN = 9 := by decide

theorem timeToString_eq (h : n < 2 ^ 63) : timeToString n = .ok ((numeral 36 9 n).map radixDigit) := by
  obtain ⟨w, hw, hwritten⟩ := toStringInBase_spec (h.trans (by decide))
  have hzero : ofChar '0' = radixDigit 0 := by decide
  have hpadded : List.replicate 9 (ofChar '0') ++ (numeral 36 w n).map radixDigit =
      (numeral 36 w (n / 36 ^ 9)).map radixDigit ++ (numeral 36 9 n).map radixDigit := by
    rw [hzero, ← List.map_replicate, ← List.map_append, ← numeral_add_of_lt 9 hw.lt, Nat.add_comm, numeral_add, List.map_append]
  rw [timeToString, if_neg (by omega), CHARACTER_MAX_RADIX, hwritten]
  simp only [DATE_LEN_eq, hpadded, List.length_append, List.length_map, length_numeral, Nat.add_sub_cancel]
  rw [List.drop_left' (by simp), List.take_of_length_le (by simp)]

theorem stringToTime_eq (h : TellsDigits isDigit) (n : Nat) :
    stringToTime isDigit ((numeral 36 9 n).map radixDigit) = (n % 36 ^ 9 : Nat) :=
  toLongInBase_numeral h ((Nat.mod_lt n (by decide)).trans (by decide))

/-- Two times are rejected, or have strings of the fixed length that are read as the times and are in their order. -/
def Encodes (isDigit : WChar → Bool) (a b : Int) : Prop :=
  ∀ s t, timeToString a = .ok s → timeToString b = .ok t → s.length = DATE_LEN ∧ t.length = DATE_LEN ∧
    stringToTime isDigit s = a ∧ stringToTime isDigit t = b ∧ s < t

theorem encodes_iff (h : TellsDigits isDigit) (hab : a < b) (hb : b < 2 ^ 63) : Encodes isDigit a b ↔ b < 36 ^ 9 := by
  rw [Encodes, timeToString_eq (hab.trans hb), timeToString_eq hb]
  simp only [Except.ok.injEq, forall_eq', forall_apply_eq_imp_iff, stringToTime_eq h, List.length_map, length_numeral, DATE_LEN_eq,
    Nat.cast_inj, map_numeral_lt_iff (show 0 < 36 by decide) radixDigit_lt_iff, true_and]
  constructor
  · rintro ⟨-, hmod, -⟩
    rw [← hmod]
    exact Nat.mod_lt b (by decide)
  · intro hlt
    rw [Nat.mod_eq_of_lt hlt, Nat.mod_eq_of_lt (hab.trans hlt)]
    exact ⟨rfl, rfl, hab⟩

end DateField
end LucenePlusPlus

/-!
Times that go through strings. The strings of `DateTools` are the first digits of a number that is in the order of the times, and
what is read from them is the time rounded down; those of `DateField` are cut to nine digits in base 36.
-/

namespace LucenePlusPlus
namespace DateTools
open WChar (ofChar)
open StringUtils (TellsDigits radixDigit radixDigit_lt_iff radixDigit_code)
open Numerals
open Gregorian (Date dayNumber ofDayNumber ofDayNumber_spec)

@[simp] theorem length_decimal (w n : Nat) : (decimal w n).length = w := by rw [decimal, List.length_map, length_numeral]

theorem digit_facts : ∀ d < 10, isDecimalDigit (radixDigit d) = true ∧ isSpace (radixDigit d) = false ∧
    radixDigit d ≠ ofChar '-' ∧ radixDigit d ≠ ofChar '+' ∧ digitValue (radixDigit d) = d := by decide

theorem wcstol_decimal {w : Nat} (n : Nat) (hw : 0 < w) : wcstol (decimal w n) = (n % 10 ^ w : Nat) := by
  have hfold (l : List Nat) (hl : ∀ d ∈ l, d < 10) (acc : Nat) :
      (l.map radixDigit).foldl (fun value c => 10 * value + digitValue c) (acc : Int) =
        (l.foldl (fun value d => 10 * value + d) acc : Nat) := by
    induction l generalizing acc with
    | nil => rfl
    | cons d l ih =>
        obtain ⟨-, -, -, -, hvalue⟩ := digit_facts d (hl d List.mem_cons_self)
        rw [List.map_cons, List.foldl_cons, List.foldl_cons, hvalue,
          ← ih (fun e he => hl e (List.mem_cons_of_mem _ he)) (10 * acc + d)]
        norm_cast
  have hlt : ∀ d ∈ numeral 10 w n, d < 10 := fun d hd => lt_of_mem_numeral (by decide) hd
  have hdigits : ∀ c ∈ decimal w n, isDecimalDigit c = true := by
    intro c hc
    obtain ⟨d, hd, rfl⟩ := List.mem_map.mp hc
    exact (digit_facts d (hlt d hd)).1
  obtain ⟨v, rfl⟩ := Nat.exists_eq_add_of_le' hw
  have hcons : decimal (v + 1) n = radixDigit (n / 10 ^ v % 10) :: decimal v n := rfl
  obtain ⟨-, hspace, hminus, hplus, -⟩ := digit_facts (n / 10 ^ v % 10) (Nat.mod_lt _ (by decide))
  have hdrop : (decimal (v + 1) n).dropWhile isSpace = decimal (v + 1) n := by
    rw [hcons, List.dropWhile_cons_of_neg (by rw [hspace]; decide)]
  have hnominus : ((decimal (v + 1) n).head? == some (ofChar '-')) = false := by
    rw [hcons, List.head?_cons, beq_eq_false_iff_ne]
    exact fun heq => hminus (Option.some.inj heq)
  have hnoplus : ((decimal (v + 1) n).head? == some (ofChar '+')) = false := by
    rw [hcons, List.head?_cons, beq_eq_false_iff_ne]
    exact fun heq => hplus (Option.some.inj heq)
  have hzero := hfold (numeral 10 (v + 1) n) hlt 0
  rw [foldl_numeral, Nat.zero_mul, Nat.zero_add] at hzero
  rw [wcstol]
  simp only [hdrop, hnominus, hnoplus, Bool.or_self, Bool.false_eq_true, if_false, List.takeWhile_eq_self_iff.mpr hdigits]
  exact hzero

/-- A field of the first `width` characters: its number, or the default if they do not reach as far. -/
theorem field_take {full : WString} {width length pos count default n : Nat} (hcount : 0 < count)
    (hreach : length ≤ width → pos + count ≤ width) (hlength : length ≤ full.length)
    (hsub : substr full pos count = decimal count n) (hn : n < 10 ^ count) (hshort : n < 65536) :
    field (full.take width) length pos count default = if length ≤ width then n else default := by
  rw [field, List.length_take]
  by_cases hle : length ≤ width
  · have htake : substr (full.take width) pos count = substr full pos count := by
      have hpos := hreach hle
      rw [substr, substr, List.drop_take, List.take_take, Nat.min_eq_left (by omega)]
    rw [if_pos (by omega), if_pos hle, htake, hsub, wcstol_decimal n hcount, Nat.mod_eq_of_lt hn]
    omega
  · rw [if_neg (by omega), if_neg hle]

structure Parts where
  date : Date
  hour : Nat
  minute : Nat
  second : Nat
  millisecond : Nat

namespace Parts
variable (p q : Parts)

structure Valid : Prop where
  date : p.date.Valid
  year_ge : 1400 ≤ p.date.year
  year_le : p.date.year ≤ 9999
  hour : p.hour < 24
  minute : p.minute < 60
  second : p.second < 60
  millisecond : p.millisecond < 1000

/-- The digits of the parts, as one number. -/
def key : Nat :=
  (((((p.date.year * 100 + p.date.month) * 100 + p.date.day) * 100 + p.hour) * 100 + p.minute) * 100 + p.second) * 1000 +
    p.millisecond

/-- The milliseconds from the first day of year 1 on. -/
def time : Nat := (((dayNumber p.date * 24 + p.hour) * 60 + p.minute) * 60 + p.second) * 1000 + p.millisecond

def full : WString :=
  decimal 4 p.date.year ++ (decimal 2 p.date.month ++ (decimal 2 p.date.day ++ (decimal 2 p.hour ++ (decimal 2 p.minute ++
    (decimal 2 p.second ++ decimal 3 p.millisecond)))))

/-- The parts that the first `width` digits give, and the least values for the others. -/
def truncate (width : Nat) : Parts where
  date := ⟨p.date.year, if 6 ≤ width then p.date.month else 1, if 8 ≤ width then p.date.day else 1⟩
  hour := if 10 ≤ width then p.hour else 0
  minute := if 12 ≤ width then p.minute else 0
  second := if 14 ≤ width then p.second else 0
  millisecond := if 16 ≤ width then p.millisecond else 0

variable {p q}

theorem Valid.month_lt (h : p.Valid) : p.date.month < 100 := by
  have hle := h.date.month_le
  omega

theorem Valid.day_lt (h : p.Valid) : p.date.day < 100 := by
  have hle := h.date.day_le
  have hmonth : Gregorian.daysInMonth p.date.year p.date.month ≤ 31 := by
    have hpos := h.date.month_pos
    have hend := h.date.month_le
    generalize p.date.month = m at hpos hend
    cases hleap : Gregorian.isLeapYear p.date.year <;> interval_cases m <;>
      simp [Gregorian.daysInMonth, Gregorian.monthLengths, hleap]
  omega

theorem Valid.full_eq (h : p.Valid) : p.full = decimal 17 p.key := by
  have hmonth := h.month_lt
  have hday := h.day_lt
  have hhour := h.hour
  have hminute := h.minute
  have hsecond := h.second
  have hmillisecond := h.millisecond
  have htwo (v m : Nat) {n : Nat} (hn : n < 100) : decimal (v + 2) (m * 100 + n) = decimal v m ++ decimal 2 n := by
    rw [show m * 100 + n = m * 10 ^ 2 + n by rfl, decimal, numeral_mul_add 10 v 2 m hn, List.map_append]
    rfl
  have hthree (v m : Nat) {n : Nat} (hn : n < 1000) : decimal (v + 3) (m * 1000 + n) = decimal v m ++ decimal 3 n := by
    rw [show m * 1000 + n = m * 10 ^ 3 + n by rfl, decimal, numeral_mul_add 10 v 3 m hn, List.map_append]
    rfl
  rw [key, hthree 14 _ hmillisecond, htwo 12 _ (by omega), htwo 10 _ (by omega), htwo 8 _ (by omega), htwo 6 _ hday,
    htwo 4 _ hmonth, full]
  simp only [List.append_assoc]

theorem Valid.truncate (h : p.Valid) (width : Nat) : (p.truncate width).Valid := by
  have hdays (m : Nat) (hpos : 1 ≤ m) (hle : m ≤ 12) : 1 ≤ Gregorian.daysInMonth p.date.year m := by
    cases hleap : Gregorian.isLeapYear p.date.year <;> interval_cases m <;>
      simp [Gregorian.daysInMonth, Gregorian.monthLengths, hleap]
  have hmonth := h.date.month_pos
  have hmonth_le := h.date.month_le
  have hday := h.date.day_pos
  have hhour := h.hour
  have hminute := h.minute
  have hsecond := h.second
  have hmillisecond := h.millisecond
  refine ⟨⟨h.date.year_pos, ?_, ?_, ?_, ?_⟩, h.year_ge, h.year_le, ?_, ?_, ?_, ?_⟩ <;> simp only [Parts.truncate]
  · split <;> omega
  · split <;> omega
  · split <;> omega
  · by_cases hwidth : 8 ≤ width
    · rw [if_pos hwidth, if_pos (by omega)]
      exact h.date.day_le
    · rw [if_neg hwidth]
      split
      · exact hdays _ hmonth hmonth_le
      · exact hdays 1 le_rfl (by decide)
  · split <;> omega
  · split <;> omega
  · split <;> omega
  · split <;> omega

/-- Two numbers and two others are in the same order. -/
def SameOrder (a b a' b' : Nat) : Prop := (a < b ↔ a' < b') ∧ (b < a ↔ b' < a')

theorem SameOrder.step {a b a' b' x y B B' : Nat} (h : SameOrder a b a' b') (hx : x < B) (hy : y < B) (hx' : x < B') (hy' : y < B') :
    SameOrder (a * B + x) (b * B + y) (a' * B' + x) (b' * B' + y) := by
  have hmul {m n C : Nat} (hlt : m < n) : m * C + C ≤ n * C := by
    rw [← Nat.succ_mul]
    exact Nat.mul_le_mul_right C hlt
  rcases Nat.lt_trichotomy a b with hlt | rfl | hgt
  · have hle := @hmul a b B hlt
    have hle' := @hmul a' b' B' (h.1.mp hlt)
    constructor <;> constructor <;> intro _ <;> omega
  · have heq : a' = b' := by
      have hnot := h.1.not.mp (lt_irrefl a)
      have hnot' := h.2.not.mp (lt_irrefl a)
      omega
    subst heq
    constructor <;> constructor <;> intro _ <;> omega
  · have hle := @hmul b a B hgt
    have hle' := @hmul b' a' B' (h.2.mp hgt)
    constructor <;> constructor <;> intro _ <;> omega

theorem sameOrder_date (hp : p.Valid) (hq : q.Valid) : SameOrder ((p.date.year * 100 + p.date.month) * 100 + p.date.day)
    ((q.date.year * 100 + q.date.month) * 100 + q.date.day) (dayNumber p.date) (dayNumber q.date) := by
  have hpmonth := hp.month_lt
  have hqmonth := hq.month_lt
  have hpday := hp.day_lt
  have hqday := hq.day_lt
  rw [SameOrder, hp.date.dayNumber_lt_iff hq.date, hq.date.dayNumber_lt_iff hp.date]
  simp only [Date.parts, List.cons_lt_cons_iff, List.lt_irrefl, and_false, or_false]
  constructor <;> omega

theorem key_lt_iff (hp : p.Valid) (hq : q.Valid) : p.key < q.key ↔ p.time < q.time := by
  have hphour := hp.hour
  have hqhour := hq.hour
  have hpminute := hp.minute
  have hqminute := hq.minute
  have hpsecond := hp.second
  have hqsecond := hq.second
  have hhour := (sameOrder_date hp hq).step (show p.hour < 100 by omega) (show q.hour < 100 by omega) hphour hqhour
  have hminute := hhour.step (show p.minute < 100 by omega) (show q.minute < 100 by omega) hpminute hqminute
  have hsecond := hminute.step (show p.second < 100 by omega) (show q.second < 100 by omega) hpsecond hqsecond
  exact (hsecond.step hp.millisecond hq.millisecond hp.millisecond hq.millisecond).1

/-- The numbers of digits of the resolutions. -/
def IsTextWidth (width : Nat) : Prop :=
  width = 4 ∨ width = 6 ∨ width = 8 ∨ width = 10 ∨ width = 12 ∨ width = 14 ∨ width = 17

theorem Valid.key_lt (h : p.Valid) : p.key < 10 ^ 17 := by
  have hyear := h.year_le
  have hmonth := h.month_lt
  have hday := h.day_lt
  have hhour := h.hour
  have hminute := h.minute
  have hsecond := h.second
  have hmillisecond := h.millisecond
  rw [key]
  omega

theorem take_full_lt_iff (hp : p.Valid) (hq : q.Valid) {width rest : Nat} (hwidth : width + rest = 17) :
    p.full.take width < q.full.take width ↔ p.key / 10 ^ rest < q.key / 10 ^ rest := by
  have htake {r : Parts} (hr : r.Valid) : r.full.take width = decimal width (r.key / 10 ^ rest) := by
    rw [hr.full_eq, ← hwidth, decimal, numeral_add, List.map_append, List.take_left' (by simp)]
    rfl
  have hmod {r : Parts} (hr : r.Valid) : r.key / 10 ^ rest % 10 ^ width = r.key / 10 ^ rest := by
    have hlt := hr.key_lt
    rw [← hwidth, Nat.pow_add] at hlt
    exact Nat.mod_eq_of_lt (Nat.div_lt_of_lt_mul (by rwa [Nat.mul_comm]))
  rw [htake hp, htake hq, decimal, decimal, map_numeral_lt_iff (by decide)
    (fun d hd e he => radixDigit_lt_iff d (by omega) e (by omega)), hmod hp, hmod hq]

theorem text_lt_iff (hp : p.Valid) (hq : q.Valid) {width : Nat} (hwidth : IsTextWidth width) :
    p.full.take width < q.full.take width ↔ (p.truncate width).time < (q.truncate width).time := by
  rw [← key_lt_iff (hp.truncate width) (hq.truncate width)]
  have hpmonth := hp.month_lt
  have hqmonth := hq.month_lt
  have hpday := hp.day_lt
  have hqday := hq.day_lt
  have hphour := hp.hour
  have hqhour := hq.hour
  have hpminute := hp.minute
  have hqminute := hq.minute
  have hpsecond := hp.second
  have hqsecond := hq.second
  have hpmillisecond := hp.millisecond
  have hqmillisecond := hq.millisecond
  rcases hwidth with rfl | rfl | rfl | rfl | rfl | rfl | rfl
  · rw [take_full_lt_iff hp hq (show 4 + 13 = 17 by rfl)]
    simp [key, truncate]
    omega
  · rw [take_full_lt_iff hp hq (show 6 + 11 = 17 by rfl)]
    simp [key, truncate]
    omega
  · rw [take_full_lt_iff hp hq (show 8 + 9 = 17 by rfl)]
    simp [key, truncate]
    omega
  · rw [take_full_lt_iff hp hq (show 10 + 7 = 17 by rfl)]
    simp [key, truncate]
    omega
  · rw [take_full_lt_iff hp hq (show 12 + 5 = 17 by rfl)]
    simp [key, truncate]
    omega
  · rw [take_full_lt_iff hp hq (show 14 + 3 = 17 by rfl)]
    simp [key, truncate]
    omega
  · rw [take_full_lt_iff hp hq (show 17 + 0 = 17 by rfl)]
    simp [key, truncate]

/-- The milliseconds since the first day of 1970. -/
def instant (p : Parts) : Int := p.time - (epoch : Int) * 86400000

theorem instant_eq (p : Parts) : p.instant =
    ptime (dayNumber p.date) (p.hour * 3600000 + p.minute * 60000 + p.second * 1000 + p.millisecond) := by
  unfold instant Parts.time ptime
  generalize epoch = first
  generalize dayNumber p.date = day
  push_cast
  ring

theorem instant_lt_iff (p q : Parts) : p.instant < q.instant ↔ p.time < q.time :=
  (sub_lt_sub_iff_right _).trans Nat.cast_lt

theorem Valid.gregorianDate_eq (h : p.Valid) :
    gregorianDate p.date.year p.date.month p.date.day = some (dayNumber p.date) :=
  if_pos ⟨h.date, h.year_ge, h.year_le⟩

theorem Valid.stringToTime_take (h : p.Valid) {width : Nat} (hwidth : IsTextWidth width) :
    stringToTime gregorian (p.full.take width) = .ok (p.truncate width).instant := by
  have hlength : p.full.length = 17 := by simp [full]
  have hpmonth := h.month_lt
  have hpday := h.day_lt
  have hphour := h.hour
  have hpminute := h.minute
  have hpsecond := h.second
  have hpmillisecond := h.millisecond
  have hpyear := h.year_le
  have hwidth4 : 4 ≤ width := by
    rw [IsTextWidth] at hwidth
    omega
  have hyear := @field_take p.full width 4 0 4 1970 p.date.year (by decide) (fun hle => hle) (by omega) rfl (by omega) (by omega)
  have hmonth := @field_take p.full width 6 4 2 1 p.date.month (by decide) (fun hle => hle) (by omega) rfl (by omega) (by omega)
  have hday := @field_take p.full width 8 6 2 1 p.date.day (by decide) (fun hle => hle) (by omega) rfl (by omega) (by omega)
  have hhour := @field_take p.full width 10 8 2 0 p.hour (by decide) (fun hle => hle) (by omega) rfl (by omega) (by omega)
  have hminute := @field_take p.full width 12 10 2 0 p.minute (by decide) (fun hle => hle) (by omega) rfl (by omega) (by omega)
  have hsecond := @field_take p.full width 14 12 2 0 p.second (by decide) (fun hle => hle) (by omega) rfl (by omega) (by omega)
  have hmillisecond := @field_take p.full width 16 14 3 0 p.millisecond (by decide)
    (fun hle => by rw [IsTextWidth] at hwidth; omega) (by omega) rfl (by omega) (by omega)
  have hdate := (h.truncate width).gregorianDate_eq
  simp only [Parts.truncate] at hdate
  rw [stringToTime, stringToDate, hyear, hmonth, hday, hhour, hminute, hsecond, hmillisecond, if_pos hwidth4]
  dsimp only [gregorian]
  rw [hdate, instant_eq]
  rfl

end Parts

open Parts (IsTextWidth)

def partsOf (time : Int) : Parts :=
  ⟨dateOf time, hours (timeOfDay time), minutes (timeOfDay time), seconds (timeOfDay time), milliseconds (timeOfDay time)⟩

def width : Resolution → Nat
  | .RESOLUTION_NULL => 0
  | .RESOLUTION_YEAR => 4
  | .RESOLUTION_MONTH => 6
  | .RESOLUTION_DAY => 8
  | .RESOLUTION_HOUR => 10
  | .RESOLUTION_MINUTE => 12
  | .RESOLUTION_SECOND => 14
  | .RESOLUTION_MILLISECOND => 17

variable {time : Int} {resolution : Resolution}

theorem isTextWidth_width (h : resolution ≠ .RESOLUTION_NULL) : IsTextWidth (width resolution) := by
  cases resolution <;> simp_all [IsTextWidth, width]

theorem Supported.dayOf_eq (h : Supported time) : (dayOf time : Int) = epoch + time / 86400000 ∧
    dayNumber ⟨1400, 1, 1⟩ ≤ dayOf time ∧ dayOf time ≤ dayNumber ⟨9999, 12, 31⟩ := by
  have hfirst : dayNumber ⟨1400, 1, 1⟩ = 510974 := by decide
  have hlast : dayNumber ⟨9999, 12, 31⟩ = 3652058 := by decide
  have hepoch : epoch = 719162 := by decide
  rw [Supported, ptime, ptime] at h
  rw [dayOf]
  omega

theorem dayNumber_dateOf (time : Int) : dayNumber (dateOf time) = dayOf time := (ofDayNumber_spec _).2

theorem timeOfDay_lt (time : Int) : timeOfDay time < 86400000 := by
  rw [timeOfDay]
  omega

theorem Supported.valid (h : Supported time) : (partsOf time).Valid := by
  obtain ⟨-, hfirst, hlast⟩ := h.dayOf_eq
  have hvalid : (dateOf time).Valid := (ofDayNumber_spec _).1
  have hday := dayNumber_dateOf time
  have htime := timeOfDay_lt time
  refine ⟨hvalid, ?_, ?_, ?_, ?_, ?_, ?_⟩ <;> simp only [partsOf]
  · by_contra hlt
    have hbefore := hvalid.dayNumber_lt (show (Date.mk 1400 1 1).Valid by decide)
      (List.cons_lt_cons_iff.mpr (.inl (Nat.lt_of_not_le hlt)))
    omega
  · by_contra hgt
    have hafter := (show (Date.mk 9999 12 31).Valid by decide).dayNumber_lt hvalid
      (List.cons_lt_cons_iff.mpr (.inl (Nat.lt_of_not_le hgt)))
    omega
  · rw [hours]
    omega
  · exact Nat.mod_lt _ (by decide)
  · exact Nat.mod_lt _ (by decide)
  · exact Nat.mod_lt _ (by decide)

theorem Supported.instant_partsOf (h : Supported time) : (partsOf time).instant = time := by
  obtain ⟨hday, -⟩ := h.dayOf_eq
  have hms : (timeOfDay time : Int) = time % 86400000 := Int.toNat_of_nonneg (Int.emod_nonneg _ (by decide))
  have hparts (ms : Nat) : hours ms * 3600000 + minutes ms * 60000 + seconds ms * 1000 + milliseconds ms = ms := by
    rw [hours, minutes, seconds, milliseconds]
    have hhour : ms / 3600000 = ms / 60000 / 60 := by rw [Nat.div_div_eq_div_mul]
    have hminute : ms / 60000 = ms / 1000 / 60 := by rw [Nat.div_div_eq_div_mul]
    omega
  rw [Parts.instant_eq]
  simp only [partsOf]
  rw [dayNumber_dateOf, hparts, ptime, hday, hms, add_sub_cancel_left]
  exact Int.ediv_mul_add_emod time 86400000

theorem timeToString_eq (time : Int) (h : resolution ≠ .RESOLUTION_NULL) :
    timeToString gregorian time resolution = .ok ((partsOf time).full.take (width resolution)) := by
  cases resolution with
  | RESOLUTION_NULL => exact absurd rfl h
  | RESOLUTION_YEAR => rfl
  | RESOLUTION_MONTH => rfl
  | RESOLUTION_DAY => rfl
  | RESOLUTION_HOUR => rfl
  | RESOLUTION_MINUTE => rfl
  | RESOLUTION_SECOND => rfl
  | RESOLUTION_MILLISECOND =>
      have hfraction : (if (toIsoString time).length > 16 then substr (toIsoString time) 16 3 else List.replicate 3 (ofChar '0')) =
          decimal 3 (milliseconds (timeOfDay time)) := by
        by_cases hzero : milliseconds (timeOfDay time) = 0
        · have hlength : (toIsoString time).length = 15 := by simp [toIsoString, hzero]
          rw [hlength, if_neg (by decide), hzero]
          decide
        · have hlength : (toIsoString time).length = 22 := by simp [toIsoString, hzero]
          have hsub : substr (toIsoString time) 16 3 = (decimal 6 (milliseconds (timeOfDay time) * 1000)).take 3 := by
            rw [toIsoString]
            simp only [hzero, if_false]
            rfl
          have hdiv (n : Nat) : n * 1000 / 10 ^ 3 = n := Nat.mul_div_cancel n (by decide)
          rw [hlength, if_pos (by decide), hsub, decimal, numeral_add 10 3 3, List.map_append, List.take_left' (by simp), hdiv]
          rfl
      exact (congrArg (fun fraction => Except.ok (substr (toIsoString time) 0 8 ++ substr (toIsoString time) 9 6 ++ fraction))
        hfraction).trans rfl

theorem Supported.round_eq (h : Supported time) (hres : resolution ≠ .RESOLUTION_NULL) :
    round gregorian time resolution = some ((partsOf time).truncate (width resolution)).instant := by
  have hgregorian := (h.valid.truncate (width resolution)).gregorianDate_eq
  have hday := dayNumber_dateOf time
  cases resolution with
  | RESOLUTION_NULL => exact absurd rfl hres
  | RESOLUTION_YEAR => simp_all [Parts.instant_eq, Parts.truncate, width, partsOf, round, gregorian]
  | RESOLUTION_MONTH => simp_all [Parts.instant_eq, Parts.truncate, width, partsOf, round, gregorian]
  | RESOLUTION_DAY => simp [Parts.instant_eq, Parts.truncate, width, partsOf, round, hday]
  | RESOLUTION_HOUR => simp [Parts.instant_eq, Parts.truncate, width, partsOf, round, hday]
  | RESOLUTION_MINUTE => simp [Parts.instant_eq, Parts.truncate, width, partsOf, round, hday]
  | RESOLUTION_SECOND => simp [Parts.instant_eq, Parts.truncate, width, partsOf, round, hday]
  | RESOLUTION_MILLISECOND =>
      have hfull : (partsOf time).truncate 17 = partsOf time := by simp [Parts.truncate, partsOf]
      rw [width, hfull, h.instant_partsOf]
      exact congrArg some (Eq.refl time)

/-- The strings of two times are read as the times rounded down, and are in the order of these. -/
def Encodes (boost : Boost) (a b : Int) (resolution : Resolution) : Prop :=
  ∃ s t a' b', timeToString boost a resolution = .ok s ∧ timeToString boost b resolution = .ok t ∧
    round boost a resolution = some a' ∧ round boost b resolution = some b' ∧ stringToTime boost s = .ok a' ∧
    stringToTime boost t = .ok b' ∧ (s < t ↔ a' < b')

theorem Boost.Documented.encodes {boost : Boost} (h : boost.Documented) {a b : Int} (ha : Supported a) (hb : Supported b)
    (resolution : Resolution) : Encodes boost a b resolution ↔ Encodes gregorian a b resolution := by
  have hwrite : ∀ {time}, Supported time → timeToString boost time resolution = timeToString gregorian time resolution := by
    intro time htime
    rw [timeToString.eq_def, h.toIsoString_eq time htime]
    rfl
  have hround : ∀ {time}, Supported time → round boost time resolution = round gregorian time resolution := by
    intro time htime
    rw [round.eq_def, h.dateOf_eq time htime, h.gregorianDate_eq]
    rfl
  have hread : stringToTime boost = stringToTime gregorian := by
    funext s
    rw [stringToTime, stringToDate, h.gregorianDate_eq]
    rfl
  rw [Encodes, hwrite ha, hwrite hb, hround ha, hround hb, hread]
  rfl

theorem encodes_iff {boost : Boost} (h : boost.Documented) {a b : Int} (ha : Supported a) (hb : Supported b)
    (resolution : Resolution) : Encodes boost a b resolution ↔ resolution ≠ .RESOLUTION_NULL := by
  rw [h.encodes ha hb]
  constructor
  · rintro ⟨s, t, a', b', hs, -⟩ rfl
    cases hs
  · intro hres
    have hwidth := isTextWidth_width hres
    have horder : (partsOf a).full.take (width resolution) < (partsOf b).full.take (width resolution) ↔
        ((partsOf a).truncate (width resolution)).instant < ((partsOf b).truncate (width resolution)).instant := by
      rw [Parts.text_lt_iff ha.valid hb.valid hwidth, Parts.instant_lt_iff]
    exact ⟨(partsOf a).full.take (width resolution), (partsOf b).full.take (width resolution),
      ((partsOf a).truncate (width resolution)).instant, ((partsOf b).truncate (width resolution)).instant,
      timeToString_eq a hres, timeToString_eq b hres, ha.round_eq hres, hb.round_eq hres,
      ha.valid.stringToTime_take hwidth, hb.valid.stringToTime_take hwidth, horder⟩

end DateTools

namespace DateField
open StringUtils (TellsDigits)

/-- The strings of `DateField` are right below 36 to the 9th, those of `DateTools` for each resolution. -/
theorem date_strings_iff {isDigit : WChar → Bool} (h : TellsDigits isDigit) {boost : DateTools.Boost}
    (hboost : boost.Documented) {a b : Nat} (hab : a < b) (hb : b < 2 ^ 63)
    {s t : Int} (hs : DateTools.Supported s) (ht : DateTools.Supported t) (resolution : DateTools.Resolution) :
    (Encodes isDigit a b ↔ b < 36 ^ 9) ∧ (DateTools.Encodes boost s t resolution ↔ resolution ≠ .RESOLUTION_NULL) :=
  ⟨encodes_iff h hab hb, DateTools.encodes_iff hboost hs ht resolution⟩

theorem date_strings_iff_first_day :
    (Encodes NumberTools.isAsciiDigit (0 : Nat) (1 : Nat) ↔ 1 < 36 ^ 9) ∧
      (DateTools.Encodes DateTools.gregorian 0 0 .RESOLUTION_DAY ↔ DateTools.Resolution.RESOLUTION_DAY ≠ .RESOLUTION_NULL) :=
  have h : DateTools.Supported 0 := by
    unfold DateTools.Supported
    decide +kernel
  date_strings_iff NumberTools.tellsDigits_ascii ⟨fun _ _ => rfl, rfl, fun _ _ => rfl⟩ (by decide) (by decide) h h .RESOLUTION_DAY

/-- The first time that takes ten digits has the string of the time 0. -/
theorem tenth_digit_is_lost : ¬ Encodes NumberTools.isAsciiDigit 0 101559956668416 := by
  intro h
  have hfirst : timeToString 0 = .ok (List.replicate 9 (WChar.ofChar '0')) := by decide +kernel
  have htenth : timeToString 101559956668416 = .ok (List.replicate 9 (WChar.ofChar '0')) := by decide +kernel
  exact absurd (h _ _ hfirst htenth).2.2.2.2 (lt_irrefl _)

end DateField
end LucenePlusPlus
