import Mathlib.Data.Int.ConditionallyCompleteOrder
import Mathlib.Data.Nat.Find
import Mathlib.Order.SuccPred.Archimedean
import Mathlib.Tactic.SplitIfs

/-!
# The calendar

Dates of the Gregorian calendar, also before it was introduced, and their numbers: the days since
the first of January of the year 1. Months are counted from 0.

## What is proved

* `daysBeforeYear_succ`, `daysBeforeMonth_twelve` — a year is as long as its months, a leap year a day longer.
* `daysBeforeYear_yearOf`, `daysBeforeMonth_monthOf` — a day lies in the year and in the month that are found
  for it.
* `Date.number_ofNumber`, `Date.ofNumber_number` — dates and their numbers are the same thing.
-/

namespace Calendar

/-- Every fourth year, of the full centuries only every fourth one. -/
def IsLeap (year : ℤ) : Prop := year % 4 = 0 ∧ (year % 100 ≠ 0 ∨ year % 400 = 0)

instance (year : ℤ) : Decidable (IsLeap year) := inferInstanceAs (Decidable (_ ∧ _))

/-- How long a year is. -/
def daysInYear (year : ℤ) : ℤ := if IsLeap year then 366 else 365

/-- How long a month is; February is month 1. -/
def daysInMonth (year : ℤ) (month : ℕ) : ℤ :=
  if month = 1 then if IsLeap year then 29 else 28
  else if month = 3 ∨ month = 5 ∨ month = 8 ∨ month = 10 then 30
  else 31

/-- The days before a year. -/
def daysBeforeYear (year : ℤ) : ℤ := 365 * (year - 1) + (year - 1) / 4 - (year - 1) / 100 + (year - 1) / 400

/-- The days of a year before a month. -/
def daysBeforeMonth (year : ℤ) : ℕ → ℤ
  | 0 => 0
  | month + 1 => daysBeforeMonth year month + daysInMonth year month

/-- The number of a day. The day may lie outside of the month, and is then counted on. -/
def dayNumber (year : ℤ) (month : ℕ) (day : ℤ) : ℤ := daysBeforeYear year + daysBeforeMonth year month + (day - 1)

/-- The year of a day: the mean length of a year gives it, or one of those next to it. -/
def yearOf (number : ℤ) : ℤ :=
  let year := 400 * number / 146097 + 1
  if number < daysBeforeYear year then year - 1
  else if daysBeforeYear (year + 1) ≤ number then year + 1
  else year

/-- The month of a day, which is counted from 0 in its year. -/
def monthOf (year dayOfYear : ℤ) : ℕ := Nat.findGreatest (fun month => daysBeforeMonth year month ≤ dayOfYear) 11

/-! ### Years -/

theorem daysBeforeYear_succ (year : ℤ) : daysBeforeYear (year + 1) = daysBeforeYear year + daysInYear year := by
  rw [daysBeforeYear, daysBeforeYear, daysInYear]
  split_ifs with hleap
  · rw [IsLeap] at hleap
    omega
  · rw [IsLeap] at hleap
    omega

theorem daysBeforeYear_strictMono : StrictMono daysBeforeYear := by
  apply strictMono_int_of_lt_succ
  intro year
  rw [daysBeforeYear_succ, daysInYear]
  split_ifs <;> omega

/-- The mean length of a year is off by less than two days. -/
theorem daysBeforeYear_bounds (year : ℤ) :
    146097 * (year - 1) - 699 ≤ 400 * daysBeforeYear year ∧ 400 * daysBeforeYear year ≤ 146097 * (year - 1) + 396 := by
  rw [daysBeforeYear]
  omega

/-- **The year of a day** begins on it or before, and the next one after it. -/
theorem daysBeforeYear_yearOf (number : ℤ) :
    daysBeforeYear (yearOf number) ≤ number ∧ number < daysBeforeYear (yearOf number + 1) := by
  have hprev := daysBeforeYear_bounds (400 * number / 146097 + 1 - 1)
  have hnext := daysBeforeYear_bounds (400 * number / 146097 + 1 + 1 + 1)
  rw [yearOf]
  split_ifs with hearly hlate
  · rw [sub_add_cancel]
    omega
  · omega
  · omega

/-- There is no other such year. -/
theorem yearOf_eq {number year : ℤ} (hlo : daysBeforeYear year ≤ number) (hhi : number < daysBeforeYear (year + 1)) :
    yearOf number = year := by
  obtain ⟨hlo', hhi'⟩ := daysBeforeYear_yearOf number
  have hle : yearOf number < year + 1 := daysBeforeYear_strictMono.lt_iff_lt.mp (hlo'.trans_lt hhi)
  have hge : year < yearOf number + 1 := daysBeforeYear_strictMono.lt_iff_lt.mp (hlo.trans_lt hhi')
  omega

/-! ### Months -/

variable {year dayOfYear : ℤ} {month : ℕ}

theorem daysInMonth_pos (year : ℤ) (month : ℕ) : 0 < daysInMonth year month := by
  rw [daysInMonth]
  split_ifs <;> omega

/-- No month is longer than 31 days. -/
theorem daysInMonth_le (year : ℤ) (month : ℕ) : daysInMonth year month ≤ 31 := by
  rw [daysInMonth]
  split_ifs <;> omega

theorem daysBeforeMonth_strictMono (year : ℤ) : StrictMono (daysBeforeMonth year) := by
  apply strictMono_nat_of_lt_succ
  intro month
  exact lt_add_of_pos_right _ (daysInMonth_pos year month)

theorem daysBeforeMonth_nonneg (year : ℤ) (month : ℕ) : 0 ≤ daysBeforeMonth year month :=
  (daysBeforeMonth_strictMono year).monotone (Nat.zero_le month)

/-- The twelve months make the year. -/
theorem daysBeforeMonth_twelve (year : ℤ) : daysBeforeMonth year 12 = daysInYear year := by
  by_cases hleap : IsLeap year
  · simp [daysBeforeMonth, daysInMonth, daysInYear, hleap]
  · simp [daysBeforeMonth, daysInMonth, daysInYear, hleap]

theorem monthOf_lt (year dayOfYear : ℤ) : monthOf year dayOfYear < 12 :=
  Nat.lt_succ_of_le (Nat.findGreatest_le 11)

/-- **The month of a day** begins on it or before, and the next one after it. -/
theorem daysBeforeMonth_monthOf (hlo : 0 ≤ dayOfYear) (hhi : dayOfYear < daysInYear year) :
    daysBeforeMonth year (monthOf year dayOfYear) ≤ dayOfYear ∧
      dayOfYear < daysBeforeMonth year (monthOf year dayOfYear + 1) := by
  constructor
  · exact Nat.findGreatest_spec (P := fun month => daysBeforeMonth year month ≤ dayOfYear) (Nat.zero_le 11) hlo
  · by_contra hover
    rcases (Nat.lt_succ_iff.mp (monthOf_lt year dayOfYear)).lt_or_eq with hlt | heq
    · exact Nat.findGreatest_is_greatest (Nat.lt_succ_self _) hlt (not_lt.mp hover)
    · rw [heq, daysBeforeMonth_twelve] at hover
      exact hover hhi

/-- There is no other such month. -/
theorem monthOf_eq (hmonth : month < 12) (hlo : daysBeforeMonth year month ≤ dayOfYear)
    (hhi : dayOfYear < daysBeforeMonth year (month + 1)) : monthOf year dayOfYear = month := by
  have hmono := daysBeforeMonth_strictMono year
  have hyear : dayOfYear < daysInYear year := by
    rw [← daysBeforeMonth_twelve]
    exact hhi.trans_le (hmono.monotone hmonth)
  obtain ⟨hlo', hhi'⟩ := daysBeforeMonth_monthOf ((daysBeforeMonth_nonneg year month).trans hlo) hyear
  have hle : monthOf year dayOfYear < month + 1 := hmono.lt_iff_lt.mp (hlo'.trans_lt hhi)
  have hge : month < monthOf year dayOfYear + 1 := hmono.lt_iff_lt.mp (hlo.trans_lt hhi')
  omega

/-! ### Dates -/

/-- The day is one of a month of a year. -/
structure IsDate (year : ℤ) (month : ℕ) (day : ℤ) : Prop where
  month_lt : month < 12
  day_pos : 1 ≤ day
  day_le : day ≤ daysInMonth year month

/-- A date. -/
@[ext]
structure Date where
  year : ℤ
  month : ℕ
  day : ℤ
  isDate : IsDate year month day

namespace Date

/-- The number of its day. -/
def number (date : Date) : ℤ := dayNumber date.year date.month date.day

/-- The date of a day. -/
def ofNumber (number : ℤ) : Date :=
  let year := yearOf number
  let dayOfYear := number - daysBeforeYear year
  let month := monthOf year dayOfYear
  { year, month
    day := dayOfYear - daysBeforeMonth year month + 1
    isDate := by
      obtain ⟨hlo, hhi⟩ := daysBeforeYear_yearOf number
      rw [daysBeforeYear_succ] at hhi
      obtain ⟨hlo', hhi'⟩ := daysBeforeMonth_monthOf (sub_nonneg.mpr hlo) (sub_lt_iff_lt_add'.mpr hhi)
      refine ⟨monthOf_lt _ _, ?_, ?_⟩
      · exact le_add_of_nonneg_left (sub_nonneg.mpr hlo')
      · rw [daysBeforeMonth] at hhi'
        exact Int.add_one_le_of_lt (sub_lt_iff_lt_add'.mpr hhi') }

theorem number_ofNumber (number : ℤ) : (ofNumber number).number = number := by
  simp only [Date.number, ofNumber, dayNumber]
  omega

/-- **A date** is found again from its number. -/
theorem ofNumber_number (date : Date) : ofNumber date.number = date := by
  obtain ⟨year, month, day, hmonth, hday, hday'⟩ := date
  have hbefore := daysBeforeMonth_nonneg year month
  have hmono := (daysBeforeMonth_strictMono year).monotone (show month + 1 ≤ 12 from hmonth)
  rw [daysBeforeMonth_twelve, daysBeforeMonth] at hmono
  have hyear : yearOf (dayNumber year month day) = year := by
    apply yearOf_eq
    · rw [dayNumber]
      omega
    · rw [daysBeforeYear_succ, dayNumber]
      omega
  have hoff : dayNumber year month day - daysBeforeYear year = daysBeforeMonth year month + (day - 1) := by
    rw [dayNumber]
    omega
  have hfound : monthOf year (daysBeforeMonth year month + (day - 1)) = month := by
    apply monthOf_eq hmonth
    · omega
    · rw [daysBeforeMonth]
      omega
  ext
  · exact hyear
  · simp only [ofNumber, Date.number, hyear, hoff, hfound]
  · simp only [ofNumber, Date.number, hyear, hoff, hfound]
    omega

end Date

end Calendar
