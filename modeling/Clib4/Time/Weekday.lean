import Clib4.Time.LocalTime

/-!
# Weekdays

`__calculate_weekday` adds up a year, a quarter of it, and a number for the month.  It knows which
years are leap years, but every fourth year counts as one for the years behind it.

## Main definitions

* `calculateWeekday` — `__calculate_weekday`.

## Main results

* `calculateWeekday_iff` — **when the weekday is right.**
-/

namespace Clib4.Time

open Gregorian

/-! ### The weekday -/

/-- The table in `__calculate_weekday`. -/
def monthSkew : List ℤ := [0, 3, 3, 6, 1, 4, 6, 2, 5, 0, 3, 5]

/-- Whether a year is a leap year, as a number. -/
def leapYearAdjust (year : ℤ) : ℤ :=
  if year.tmod 4 ≠ 0 then 0
  else if year.tmod 400 = 0 then 1
  else if year.tmod 100 = 0 then 0
  else 1

def calculateWeekday (year month day : ℤ) : Option ℤ := do
  let sum ← asInt (year - 1900)
  let sum ← asInt (sum + sum.tdiv 4)
  let sum ← asInt (if month = 1 ∨ month = 2 then sum - leapYearAdjust year else sum)
  let skew ← monthSkew[(month - 1).toNat]?
  let sum ← asInt (sum + (day + skew))
  return sum.tmod 7

/-- The last sum. -/
def weekdaySum (d : Date) : ℤ :=
  d.year - 1900 + (d.year - 1900) / 4 -
    (if d.month.val < 2 then (decide (IsLeap d.year)).toNat else 0) +
      (d.day + monthSkew.getD d.month 0)

theorem leapYearAdjust_eq {year : ℤ} (h : 0 ≤ year) :
    leapYearAdjust year = (decide (IsLeap year)).toNat := by
  rw [toNat_isLeap]
  unfold leapYearAdjust daysInYear IsLeap
  simp only [Int.tmod_eq_emod_of_nonneg h]
  split_ifs <;> omega

theorem monthSkew_mem (m : Fin 12) :
    monthSkew[m.val]? = some (monthSkew.getD m 0) ∧ 0 ≤ monthSkew.getD m 0 := by
  revert m
  decide

/-- The table has the days of the year before a month, up to weeks. -/
theorem monthStart_emod (leap : Bool) (m : Fin 12) :
    ((monthStart leap m : ℤ) + if m.val < 2 then (leap.toNat : ℤ) else 0) % 7 =
      (monthSkew.getD m 0 + leap.toNat) % 7 := by
  revert leap m
  decide +kernel

/-- The centuries since 1900 that do not begin with a leap year are missing in the sum. -/
theorem weekday_dayNumber (d : Date) :
    weekday d.dayNumber = (weekdaySum d - (d.year / 100 - d.year / 400 - 15)) % 7 := by
  have hstart := yearStart_succ d.year
  have hmonth := monthStart_emod (decide (IsLeap d.year)) d.month
  have hleap := toNat_isLeap d.year
  have hpos := d.day_pos
  obtain ⟨weeks, hweeks⟩ := Int.modEq_iff_dvd.1 hmonth.symm
  have hsum : d.dayNumber + 4 = weekdaySum d - (d.year / 100 - d.year / 400 - 15) +
      7 * (52 * (d.year - 1970) - 12 + weeks) := by
    unfold weekdaySum Date.dayNumber Date.dayOfYear
    unfold yearStart at hstart ⊢
    push_cast [Nat.cast_sub hpos]
    omega
  rw [weekday, hsum, Int.add_mul_emod_self_left]

/-- **When the weekday is right**: if the number of the missing days is divisible by 7, and the sum
does not overflow. -/
theorem calculateWeekday_iff (d : Date) (hyear : 1900 ≤ d.year) :
    calculateWeekday d.year (d.month.val + 1) d.day = some (weekday d.dayNumber) ↔
      (d.year / 100 - d.year / 400) % 7 = 1 ∧ weekdaySum d ≤ intMax := by
  obtain ⟨hskew, hnonneg⟩ := monthSkew_mem d.month
  have hpos := d.day_pos
  have hle := (decide (IsLeap d.year)).toNat_le
  have hmonth : ((d.month.val : ℤ) + 1 = 1 ∨ (d.month.val : ℤ) + 1 = 2) ↔ d.month.val < 2 := by
    omega
  have hindex : ((d.month.val : ℤ) + 1 - 1).toNat = d.month.val := by omega
  rw [weekday_dayNumber]
  simp only [calculateWeekday, leapYearAdjust_eq (show 0 ≤ d.year by omega), hmonth, hindex, hskew,
    Int.tdiv_eq_ediv_of_nonneg (show 0 ≤ d.year - 1900 by omega), asInt_bind_eq_some,
    Option.bind_eq_bind, Option.bind_some, Option.pure_def, Option.some.injEq]
  unfold weekdaySum intMin intMax
  split_ifs
  all_goals
    rw [Int.tmod_eq_emod_of_nonneg (by omega)]
    omega

/-- 1 January 2000, a Saturday. -/
theorem calculateWeekday_2000 : calculateWeekday 2000 1 1 = some (weekday 10957) :=
  (calculateWeekday_iff ⟨2000, 0, 1, le_rfl, by decide⟩ (by decide)).2 (by decide)

/-- 1 January 2100 is a Friday, not a Saturday. -/
theorem calculateWeekday_2100 :
    calculateWeekday 2100 1 1 = some 6 ∧
      weekday (Date.dayNumber ⟨2100, 0, 1, le_rfl, by decide⟩) = 5 := by
  decide +kernel

end Clib4.Time
