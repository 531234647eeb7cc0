import Mathlib.Data.List.Lex
import Mathlib.Data.Nat.Find
import Mathlib.Tactic.IntervalCases

/-!
The Gregorian calendar: dates and the numbers of their days, counted from the first day of year 1. Both are in the same order.
-/

namespace Gregorian

structure Date where
  year : Nat
  month : Nat
  day : Nat
deriving DecidableEq

def isLeapYear (y : Nat) : Bool := y % 4 == 0 && (y % 100 != 0 || y % 400 == 0)

def monthLengths (y : Nat) : List Nat := [31, if isLeapYear y then 29 else 28, 31, 30, 31, 30, 31, 31, 30, 31, 30, 31]

def daysInMonth (y m : Nat) : Nat := (monthLengths y).getD (m - 1) 0

def daysInYear (y : Nat) : Nat := if isLeapYear y then 366 else 365

/-- The days of the years before `y`, from year 1 on. -/
def daysBeforeYear (y : Nat) : Nat := 365 * (y - 1) + (y - 1) / 4 - (y - 1) / 100 + (y - 1) / 400

/-- The days of year `y` before month `m`. -/
def daysBeforeMonth (y m : Nat) : Nat := ((monthLengths y).take (m - 1)).sum

structure Date.Valid (d : Date) : Prop where
  year_pos : 1 ≤ d.year
  month_pos : 1 ≤ d.month
  month_le : d.month ≤ 12
  day_pos : 1 ≤ d.day
  day_le : d.day ≤ daysInMonth d.year d.month

instance (d : Date) : Decidable d.Valid :=
  decidable_of_iff (1 ≤ d.year ∧ 1 ≤ d.month ∧ d.month ≤ 12 ∧ 1 ≤ d.day ∧ d.day ≤ daysInMonth d.year d.month)
    ⟨fun ⟨h1, h2, h3, h4, h5⟩ => ⟨h1, h2, h3, h4, h5⟩, fun ⟨h1, h2, h3, h4, h5⟩ => ⟨h1, h2, h3, h4, h5⟩⟩

def dayNumber (d : Date) : Nat := daysBeforeYear d.year + daysBeforeMonth d.year d.month + (d.day - 1)

/-- The last year, and its last month, that do not begin after the day. -/
def ofDayNumber (n : Nat) : Date :=
  let year := Nat.findGreatest (fun y => daysBeforeYear y ≤ n) (n / 365 + 1)
  let rest := n - daysBeforeYear year
  let month := Nat.findGreatest (fun m => daysBeforeMonth year m ≤ rest) 12
  ⟨year, month, rest - daysBeforeMonth year month + 1⟩

variable {y y' m m' n : Nat} {d e : Date}

theorem isLeapYear_iff : isLeapYear y = true ↔ y % 4 = 0 ∧ (y % 100 ≠ 0 ∨ y % 400 = 0) := by
  simp [isLeapYear]

theorem daysBeforeYear_succ (h : 1 ≤ y) : daysBeforeYear (y + 1) = daysBeforeYear y + daysInYear y := by
  obtain ⟨k, rfl⟩ := Nat.exists_eq_add_of_le' h
  have hle : k / 100 ≤ k / 4 := Nat.div_le_div_left (by decide) (by decide)
  have h400 : (k + 1) % 400 = 0 → (k + 1) % 100 = 0 := by omega
  have h100 : (k + 1) % 100 = 0 → (k + 1) % 4 = 0 := by omega
  simp only [daysBeforeYear, daysInYear, isLeapYear_iff, Nat.add_sub_cancel, Nat.succ_div, Nat.dvd_iff_mod_eq_zero]
  generalize k / 4 = fourths at hle ⊢
  generalize k / 100 = centuries at hle ⊢
  generalize k / 400 = cycles
  by_cases hfour : (k + 1) % 4 = 0
  · by_cases hcentury : (k + 1) % 100 = 0
    · by_cases hcycle : (k + 1) % 400 = 0
      · simp only [hfour, hcentury, hcycle, if_true, ne_eq, not_true_eq_false, or_true, and_self]
        omega
      · simp only [hfour, hcentury, hcycle, if_true, if_false, ne_eq, not_true_eq_false, or_false, and_false]
        omega
    · have hcycle : ¬ (k + 1) % 400 = 0 := fun hcycle => hcentury (h400 hcycle)
      simp only [hfour, hcentury, hcycle, if_true, if_false, ne_eq, not_false_eq_true, true_or, and_self]
      omega
  · have hcentury : ¬ (k + 1) % 100 = 0 := fun hcentury => hfour (h100 hcentury)
    have hcycle : ¬ (k + 1) % 400 = 0 := fun hcycle => hcentury (h400 hcycle)
    simp only [hfour, hcentury, hcycle, if_false, false_and]
    omega

theorem daysBeforeYear_mono (h : 1 ≤ y) (hle : y ≤ y') : daysBeforeYear y ≤ daysBeforeYear y' := by
  induction y', hle using Nat.le_induction with
  | base => exact le_rfl
  | succ y' hle ih =>
      rw [daysBeforeYear_succ (h.trans hle)]
      omega

theorem daysBeforeYear_lt (h : 1 ≤ y) (hlt : y < y') : daysBeforeYear y + daysInYear y ≤ daysBeforeYear y' := by
  rw [← daysBeforeYear_succ h]
  exact daysBeforeYear_mono (by omega) hlt

theorem daysBeforeMonth_succ (hpos : 1 ≤ m) (hle : m ≤ 12) :
    daysBeforeMonth y (m + 1) = daysBeforeMonth y m + daysInMonth y m := by
  cases hleap : isLeapYear y <;> interval_cases m <;> simp [daysBeforeMonth, daysInMonth, monthLengths, hleap]

theorem daysBeforeMonth_end (y : Nat) : daysBeforeMonth y 13 = daysInYear y := by
  rw [daysBeforeMonth, daysInYear, monthLengths]
  split <;> rfl

theorem daysBeforeMonth_mono (hpos : 1 ≤ m) (hle : m ≤ m') (hend : m' ≤ 13) : daysBeforeMonth y m ≤ daysBeforeMonth y m' := by
  induction m', hle using Nat.le_induction with
  | base => exact le_rfl
  | succ m' hle ih =>
      have hprev := ih (by omega)
      rw [daysBeforeMonth_succ (hpos.trans hle) (by omega)]
      omega

theorem daysBeforeMonth_lt (hpos : 1 ≤ m) (hlt : m < m') (hend : m' ≤ 13) :
    daysBeforeMonth y m + daysInMonth y m ≤ daysBeforeMonth y m' := by
  rw [← daysBeforeMonth_succ hpos (by omega)]
  exact daysBeforeMonth_mono (by omega) hlt hend

/-- Year, month and day as a list, for the order of dates. -/
def Date.parts (d : Date) : List Nat := [d.year, d.month, d.day]

theorem Date.Valid.dayOfYear_lt (h : d.Valid) : daysBeforeMonth d.year d.month + (d.day - 1) < daysInYear d.year := by
  have hle := @daysBeforeMonth_lt d.year d.month 13 h.month_pos (by have := h.month_le; omega) le_rfl
  have hpos := h.day_pos
  have hday := h.day_le
  rw [daysBeforeMonth_end] at hle
  omega

theorem Date.Valid.dayNumber_lt (hd : d.Valid) (he : e.Valid) (h : d.parts < e.parts) : dayNumber d < dayNumber e := by
  have hdyear := hd.dayOfYear_lt
  have hdpos := hd.day_pos
  have hdday := hd.day_le
  have hepos := he.day_pos
  simp only [Date.parts, List.cons_lt_cons_iff] at h
  rw [dayNumber, dayNumber]
  rcases h with hlt | ⟨heq, hlt | ⟨hmonth, hlt | ⟨-, h⟩⟩⟩
  · have hle := daysBeforeYear_lt hd.year_pos hlt
    omega
  · have hle := @daysBeforeMonth_lt d.year d.month e.month hd.month_pos hlt (by have := he.month_le; omega)
    rw [← heq]
    omega
  · rw [← heq, ← hmonth]
    omega
  · exact absurd h (lt_irrefl _)

theorem parts_injective (h : d.parts = e.parts) : d = e := by
  obtain ⟨y, m, day⟩ := d
  obtain ⟨y', m', day'⟩ := e
  simpa [Date.parts] using h

theorem Date.Valid.dayNumber_lt_iff (hd : d.Valid) (he : e.Valid) : dayNumber d < dayNumber e ↔ d.parts < e.parts := by
  refine ⟨fun h => ?_, hd.dayNumber_lt he⟩
  rcases lt_trichotomy d.parts e.parts with hlt | heq | hgt
  · exact hlt
  · rw [parts_injective heq] at h
    exact absurd h (lt_irrefl _)
  · exact absurd h (he.dayNumber_lt hd hgt).not_gt

theorem ofDayNumber_spec (n : Nat) : (ofDayNumber n).Valid ∧ dayNumber (ofDayNumber n) = n := by
  have hyear_le : daysBeforeYear (Nat.findGreatest (fun y => daysBeforeYear y ≤ n) (n / 365 + 1)) ≤ n :=
    @Nat.findGreatest_spec _ (fun y => daysBeforeYear y ≤ n) _ _ (show 1 ≤ n / 365 + 1 by omega) (Nat.zero_le n)
  have hyear_pos : 1 ≤ Nat.findGreatest (fun y => daysBeforeYear y ≤ n) (n / 365 + 1) :=
    Nat.le_findGreatest (by omega) (Nat.zero_le n)
  have hyear_lt : n < daysBeforeYear (Nat.findGreatest (fun y => daysBeforeYear y ≤ n) (n / 365 + 1) + 1) := by
    by_contra hge
    have hbound : Nat.findGreatest (fun y => daysBeforeYear y ≤ n) (n / 365 + 1) + 1 ≤ n / 365 + 1 := by
      rw [daysBeforeYear] at hge
      omega
    exact Nat.findGreatest_is_greatest (Nat.lt_succ_self _) hbound (Nat.le_of_not_lt hge)
  rw [ofDayNumber]
  generalize Nat.findGreatest (fun y => daysBeforeYear y ≤ n) (n / 365 + 1) = year at hyear_le hyear_pos hyear_lt
  rw [daysBeforeYear_succ hyear_pos] at hyear_lt
  obtain ⟨rest, hrest⟩ : ∃ rest, n = daysBeforeYear year + rest := ⟨n - daysBeforeYear year, by omega⟩
  subst hrest
  simp only [Nat.add_sub_cancel_left]
  have hmonth_le : daysBeforeMonth year (Nat.findGreatest (fun m => daysBeforeMonth year m ≤ rest) 12) ≤ rest :=
    @Nat.findGreatest_spec _ (fun m => daysBeforeMonth year m ≤ rest) _ _ (show 1 ≤ 12 by decide) (Nat.zero_le rest)
  have hmonth_pos : 1 ≤ Nat.findGreatest (fun m => daysBeforeMonth year m ≤ rest) 12 :=
    Nat.le_findGreatest (by decide) (Nat.zero_le rest)
  have hmonth_end : Nat.findGreatest (fun m => daysBeforeMonth year m ≤ rest) 12 ≤ 12 := Nat.findGreatest_le 12
  have hmonth_lt : rest < daysBeforeMonth year (Nat.findGreatest (fun m => daysBeforeMonth year m ≤ rest) 12 + 1) := by
    rcases hmonth_end.lt_or_eq with hlt | heq
    · by_contra hge
      exact Nat.findGreatest_is_greatest (Nat.lt_succ_self _) hlt (Nat.le_of_not_lt hge)
    · rw [heq, daysBeforeMonth_end]
      omega
  generalize Nat.findGreatest (fun m => daysBeforeMonth year m ≤ rest) 12 = month at hmonth_le hmonth_pos hmonth_end hmonth_lt
  rw [daysBeforeMonth_succ hmonth_pos hmonth_end] at hmonth_lt
  refine ⟨⟨hyear_pos, hmonth_pos, hmonth_end, ?_, ?_⟩, ?_⟩
  · simp only []
    omega
  · simp only []
    omega
  · simp only [dayNumber]
    omega

end Gregorian
