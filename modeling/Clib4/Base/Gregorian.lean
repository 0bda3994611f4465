import Mathlib.Tactic

/-!
# The proleptic Gregorian calendar

Days are numbered from 1 January 1970 on, and the rules of the Gregorian calendar are used for every
year, before 1582 as well as after it.

## Main definitions

* `Gregorian.IsLeap`, `Gregorian.daysInYear`, `Gregorian.monthLength` — the rules of the calendar.
* `Gregorian.yearStart`, `Gregorian.monthStart` — where a year, and a month of a year, begin.
* `Gregorian.Date`, `Gregorian.Date.dayNumber` — the dates, and their numbers.
* `Gregorian.ofDayNumber` — the date with a number.
* `Gregorian.Date.marchYear`, `Gregorian.Date.marchDay` — a date in a year that begins in March.
* `Gregorian.weekday` — the day of the week, from Sunday on.

## Main results

* `Gregorian.yearStart_succ` — a year begins where the one before it ends.
* `Gregorian.dayNumber_ofDayNumber` — **every day has a date.**
-/

namespace Gregorian

/-! ### Years -/

/-- Every fourth year is a leap year, but of the years that are divisible by 100 only every
fourth. -/
def IsLeap (year : ℤ) : Prop := year % 4 = 0 ∧ (year % 100 ≠ 0 ∨ year % 400 = 0)

instance : DecidablePred IsLeap := fun year =>
  inferInstanceAs (Decidable (year % 4 = 0 ∧ (year % 100 ≠ 0 ∨ year % 400 = 0)))

/-- The length of a year. -/
def daysInYear (year : ℤ) : ℤ := if IsLeap year then 366 else 365

/-- The number of the first day of a year. -/
def yearStart (year : ℤ) : ℤ :=
  365 * (year - 1970) + (year - 1) / 4 - (year - 1) / 100 + (year - 1) / 400 - 477

theorem yearStart_succ (year : ℤ) : yearStart (year + 1) = yearStart year + daysInYear year := by
  unfold yearStart daysInYear IsLeap
  split_ifs <;> omega

theorem yearStart_le {y z : ℤ} (h : y ≤ z) : yearStart y ≤ yearStart z := by
  unfold yearStart
  omega

/-- The year a day is in: years have 146097 / 400 days on average, which gives the year or one of
its neighbours. -/
def yearOf (n : ℤ) : ℤ :=
  let y := 1970 + 400 * n / 146097
  if n < yearStart y then y - 1 else if yearStart (y + 1) ≤ n then y + 1 else y

theorem yearOf_spec (n : ℤ) : yearStart (yearOf n) ≤ n ∧ n < yearStart (yearOf n + 1) := by
  unfold yearOf
  dsimp only
  split_ifs with hbefore hbehind
  · refine ⟨?_, by simpa using hbefore⟩
    unfold yearStart
    omega
  · refine ⟨hbehind, ?_⟩
    unfold yearStart
    omega
  · exact ⟨not_lt.1 hbefore, not_le.1 hbehind⟩

/-! ### Months -/

/-- The length of a month, from January on. -/
def monthLength (leap : Bool) (m : Fin 12) : ℕ :=
  match m with
  | 0 | 2 | 4 | 6 | 7 | 9 | 11 => 31
  | 3 | 5 | 8 | 10 => 30
  | 1 => if leap then 29 else 28

/-- The days of a year before a month. -/
def monthStart (leap : Bool) (m : Fin 12) : ℕ :=
  ((List.finRange 12).takeWhile (· < m)).map (monthLength leap) |>.sum

/-- The month of the day `r` of a year. -/
def monthOf (leap : Bool) (r : ℕ) : Fin 12 :=
  ((List.finRange 12).takeWhile fun m => monthStart leap m ≤ r).getLastD 0

theorem monthOf_spec (leap : Bool) {r : ℕ} (hr : r < if leap then 366 else 365) :
    monthStart leap (monthOf leap r) ≤ r ∧
      r < monthStart leap (monthOf leap r) + monthLength leap (monthOf leap r) := by
  cases leap with
  | false =>
    have h : ∀ r < 365, monthStart false (monthOf false r) ≤ r ∧
        r < monthStart false (monthOf false r) + monthLength false (monthOf false r) := by
      decide +kernel
    exact h r hr
  | true =>
    have h : ∀ r < 366, monthStart true (monthOf true r) ≤ r ∧
        r < monthStart true (monthOf true r) + monthLength true (monthOf true r) := by
      decide +kernel
    exact h r hr

theorem monthStart_add_monthLength_le (leap : Bool) (m : Fin 12) :
    monthStart leap m + monthLength leap m ≤ if leap then 366 else 365 := by
  revert leap m
  decide +kernel

/-! ### Dates -/

/-- A date: the day of the month is one that the month has. -/
@[ext]
structure Date where
  year : ℤ
  month : Fin 12
  day : ℕ
  day_pos : 1 ≤ day
  day_le : day ≤ monthLength (decide (IsLeap year)) month

namespace Date

/-- The days of the year before a date. -/
def dayOfYear (d : Date) : ℕ := monthStart (decide (IsLeap d.year)) d.month + (d.day - 1)

/-- The number of the day. -/
def dayNumber (d : Date) : ℤ := yearStart d.year + d.dayOfYear

theorem dayOfYear_lt (d : Date) : (d.dayOfYear : ℤ) < daysInYear d.year := by
  have hday := d.day_le
  have hpos := d.day_pos
  have hmonth := monthStart_add_monthLength_le (decide (IsLeap d.year)) d.month
  have hlt : d.dayOfYear < if decide (IsLeap d.year) then 366 else 365 := by
    unfold dayOfYear
    omega
  unfold daysInYear
  by_cases hleap : IsLeap d.year
  · simp only [hleap] at hlt ⊢
    exact_mod_cast hlt
  · simp only [hleap] at hlt ⊢
    exact_mod_cast hlt

end Date

/-- The days of the year before the day with a number. -/
def dayIn (n : ℤ) : ℕ := (n - yearStart (yearOf n)).toNat

theorem yearStart_add_dayIn (n : ℤ) : yearStart (yearOf n) + dayIn n = n := by
  have hge := (yearOf_spec n).1
  unfold dayIn
  omega

theorem dayIn_lt (n : ℤ) : dayIn n < if decide (IsLeap (yearOf n)) then 366 else 365 := by
  have hlt := (yearOf_spec n).2
  have hsum := yearStart_add_dayIn n
  rw [yearStart_succ, daysInYear] at hlt
  simp only [decide_eq_true_eq]
  split_ifs at hlt ⊢ <;> omega

/-- The date with a number. -/
def ofDayNumber (n : ℤ) : Date :=
  let leap := decide (IsLeap (yearOf n))
  { year := yearOf n
    month := monthOf leap (dayIn n)
    day := dayIn n - monthStart leap (monthOf leap (dayIn n)) + 1
    day_pos := Nat.succ_pos _
    day_le := by
      obtain ⟨hge, hlt⟩ := monthOf_spec leap (dayIn_lt n)
      simp only [leap] at hge hlt ⊢
      omega }

/-- **Every day has a date.** -/
@[simp] theorem dayNumber_ofDayNumber (n : ℤ) : (ofDayNumber n).dayNumber = n := by
  have hge := (monthOf_spec _ (dayIn_lt n)).1
  have hday : (ofDayNumber n).dayOfYear = dayIn n := by
    unfold Date.dayOfYear ofDayNumber
    rw [Nat.add_sub_cancel]
    exact Nat.add_sub_of_le hge
  rw [Date.dayNumber, hday]
  exact yearStart_add_dayIn n

/-! ### Years that begin in March

The leap day is the last day of such a year. -/

theorem toNat_isLeap (year : ℤ) :
    ((decide (IsLeap year)).toNat : ℤ) = daysInYear year - 365 := by
  unfold daysInYear
  by_cases h : IsLeap year <;> simp [h]

/-- Where the year from March on begins, counted from that of 2000. -/
def marchStart (years : ℤ) : ℤ := 365 * years + years / 4 - years / 100 + years / 400

theorem marchStart_succ (years : ℤ) :
    marchStart (years + 1) = marchStart years + daysInYear (2001 + years) := by
  unfold marchStart daysInYear IsLeap
  split_ifs <;> omega

theorem marchStart_le {y z : ℤ} (h : y ≤ z) : marchStart y ≤ marchStart z := by
  unfold marchStart
  omega

/-- A day is in one year only. -/
theorem marchStart_unique {y z r k : ℤ} (h : marchStart y + r = marchStart z + k) (hr : 0 ≤ r)
    (hr' : r < daysInYear (2001 + y)) (hk : 0 ≤ k) (hk' : k < daysInYear (2001 + z)) :
    y = z ∧ r = k := by
  have hy := marchStart_succ y
  have hz := marchStart_succ z
  rcases lt_trichotomy y z with hlt | rfl | hgt
  · have := marchStart_le (show y + 1 ≤ z by omega)
    omega
  · exact ⟨rfl, by omega⟩
  · have := marchStart_le (show z + 1 ≤ y by omega)
    omega

/-- March begins behind the 59 or 60 days of January and February. -/
theorem monthStart_march (leap : Bool) (m : Fin 12) :
    if 2 ≤ m.val then 59 + leap.toNat ≤ monthStart leap m
    else monthStart leap m + monthLength leap m ≤ 59 + leap.toNat := by
  revert leap m
  decide +kernel

namespace Date

/-- The year from March on that a date is in, counted from 2000. -/
def marchYear (d : Date) : ℤ := if 2 ≤ d.month.val then d.year - 2000 else d.year - 2001

/-- The days of this year before the date. -/
def marchDay (d : Date) : ℤ :=
  if 2 ≤ d.month.val then d.dayOfYear - 59 - (decide (IsLeap d.year)).toNat else d.dayOfYear + 306

theorem dayNumber_eq (d : Date) : d.dayNumber = 11017 + (marchStart d.marchYear + d.marchDay) := by
  have hstart : yearStart d.year + 59 + daysInYear d.year - 365 =
      11017 + marchStart (d.year - 2000) := by
    unfold yearStart daysInYear marchStart IsLeap
    split_ifs <;> omega
  have hstart' : yearStart d.year = 11017 + marchStart (d.year - 2001) + 306 := by
    unfold yearStart marchStart
    omega
  unfold dayNumber marchYear marchDay
  rw [toNat_isLeap]
  split_ifs <;> omega

theorem marchDay_mem (d : Date) :
    0 ≤ d.marchDay ∧ d.marchDay < daysInYear (2001 + d.marchYear) := by
  have hlt := d.dayOfYear_lt
  have hpos := d.day_pos
  have hday := d.day_le
  have hmarch := monthStart_march (decide (IsLeap d.year)) d.month
  have hleap := toNat_isLeap d.year
  have hlen : 365 ≤ daysInYear (2001 + (d.year - 2000)) := by
    unfold daysInYear
    split_ifs <;> omega
  unfold marchDay marchYear
  split_ifs with hmonth
  · rw [if_pos hmonth] at hmarch
    unfold dayOfYear at hlt ⊢
    omega
  · rw [if_neg hmonth] at hmarch
    rw [show 2001 + (d.year - 2001) = d.year by ring]
    unfold dayOfYear
    omega

end Date

/-- The day of the week, from Sunday on: the first day was a Thursday. -/
def weekday (n : ℤ) : ℤ := (n + 4) % 7

end Gregorian
