import Clib4.Arith
import Clib4.Base.Gregorian
import Clib4.Errno

/-!
# Times and calendar fields

`__secs_to_tm` takes a number of seconds since 1970 apart into the fields of a `struct tm`, and
`__tm_to_secs` puts them together again, with months of any size.  The first counts years from March
2000 on, through cycles of 400, 100, 4 and 1 years; the second has a short way for the years that a
32-bit time reaches, and cycles for all others.

## Main definitions

* `secsToTm`, `tmToSecs` — `__secs_to_tm` and `__tm_to_secs`; an overflow leaves them without a
  value.
* `Tm.Shows` — the fields of a time in the calendar.
* `Tm.exactSecs` — the time of the fields, whatever they are.

## Main results

* `secsToTm_eq` — **the fields are those of the calendar, whenever the year fits.**
* `tmToSecs_eq` — **the time of the fields is exact.**
* `timegm_normalizes` — **`timegm` stores the fields of the time it returns.**
-/

namespace Clib4.Time

open Gregorian

/-- `struct tm`. -/
structure Tm where
  sec : Int32 := 0
  min : Int32 := 0
  hour : Int32 := 0
  mday : Int32 := 0
  mon : Int32 := 0
  year : Int32 := 0
  wday : Int32 := 0
  yday : Int32 := 0
  isdst : Int32 := 0
  deriving DecidableEq

/-! ### From the fields to the time -/

/-- The table in `__month_to_secs`. -/
def secsThroughMonth : List ℤ :=
  [0, 31 * 86400, 59 * 86400, 90 * 86400, 120 * 86400, 151 * 86400, 181 * 86400, 212 * 86400,
    243 * 86400, 273 * 86400, 304 * 86400, 334 * 86400]

def monthToSecs (month : ℤ) (isLeap : Bool) : Option ℤ := do
  if month < 0 then none
  let t ← secsThroughMonth[month.toNat]?
  if isLeap ∧ 2 ≤ month then return t + 86400
  return t

/-- The leap years of the short way.  A shift rounds down, and the mask takes the two low bits. -/
def shortLeaps (y : ℤ) : ℤ × Bool :=
  let leaps := (y - 68) >>> (2 : ℕ)
  if (y - 68) % 4 = 0 then (leaps - 1, true) else (leaps, false)

/-- The centuries in front of a year of a cycle of 400, and the year in its century. -/
def splitCentury (rem : ℤ) : ℤ × ℤ :=
  if 200 ≤ rem then
    if 300 ≤ rem then (3, rem - 300) else (2, rem - 200)
  else
    if 100 ≤ rem then (1, rem - 100) else (0, rem)

/-- For a year of a cycle of 400 the centuries and the leap years since the last one, and whether it
is a leap year. -/
def cycleLeaps (rem : ℤ) : ℤ × ℤ × Bool :=
  if rem = 0 then (0, 0, true)
  else
    let (centuries, rem) := splitCentury rem
    if rem = 0 then (centuries, 0, false) else (centuries, rem / 4, rem % 4 = 0)

/-- `__year_to_secs`.  The comparison for the short way is one of unsigned numbers. -/
def yearToSecs (year : ℤ) : Option (ℤ × Bool) := do
  if (year - 2) % 2 ^ 64 ≤ 136 then
    let y ← asInt year
    let (leaps, isLeap) := shortLeaps y
    let years ← asInt (31536000 * (y - 70))
    let days ← asInt (86400 * leaps)
    return (← asInt (years + days), isLeap)
  else
    let years ← asLongLong (year - 100)
    let (cycles, rem) := floorDiv years 400
    let cycles ← asInt cycles
    let (centuries, leaps, isLeap) := cycleLeaps rem
    let leaps ← asInt (leaps + (97 * cycles + 24 * centuries - if isLeap then 1 else 0))
    return (← asLongLong (years * 31536000 + leaps * 86400 + 946684800 + 86400), isLeap)

/-- The first part of `__tm_to_secs`: a month outside of the year changes the year. -/
def adjustMonth (year month : ℤ) : ℤ × ℤ :=
  if 12 ≤ month ∨ month < 0 then
    let (adj, month) := floorDiv month 12
    (year + adj, month)
  else (year, month)

def tmToSecs (tm : Tm) : Option ℤ := do
  let (year, month) := adjustMonth tm.year.toInt tm.mon.toInt
  let (t, isLeap) ← yearToSecs year
  let t ← asLongLong (t + (← monthToSecs month isLeap))
  let t ← asLongLong (t + 86400 * (← asInt (tm.mday.toInt - 1)))
  let t ← asLongLong (t + 3600 * tm.hour.toInt)
  let t ← asLongLong (t + 60 * tm.min.toInt)
  asLongLong (t + tm.sec.toInt)

theorem toNat_emod_twelve_lt (mon : ℤ) : (mon % 12).toNat < 12 := by omega

/-- A month of any size as one of the twelve. -/
def monthIndex (mon : ℤ) : Fin 12 := ⟨(mon % 12).toNat, toNat_emod_twelve_lt mon⟩

/-- The time of the fields in the calendar: the day count times 86400, and the rest. -/
def Tm.exactSecs (tm : Tm) : ℤ :=
  let year := tm.year.toInt + 1900 + tm.mon.toInt / 12
  let days := yearStart year + monthStart (decide (IsLeap year)) (monthIndex tm.mon.toInt) +
    (tm.mday.toInt - 1)
  86400 * days + 3600 * tm.hour.toInt + 60 * tm.min.toInt + tm.sec.toInt

/-! ### The time is exact -/

theorem shortLeaps_eq {y : ℤ} (h₁ : 2 ≤ y) (h₂ : y ≤ 138) :
    365 * (y - 70) + (shortLeaps y).1 = yearStart (y + 1900) ∧
      (shortLeaps y).2 = decide (IsLeap (y + 1900)) := by
  unfold shortLeaps
  rw [Int.shiftRight_eq_div_pow]
  dsimp only
  split_ifs with hleap
  · refine ⟨?_, (decide_eq_true ?_).symm⟩
    · unfold yearStart
      omega
    · unfold IsLeap
      omega
  · refine ⟨?_, (decide_eq_false ?_).symm⟩
    · unfold yearStart
      omega
    · unfold IsLeap
      omega

variable {rem t : ℤ} {tm : Tm}

theorem splitCentury_eq (h₁ : 0 ≤ rem) (h₂ : rem < 400) :
    splitCentury rem = (rem / 100, rem % 100) := by
  unfold splitCentury
  split_ifs <;> ext <;> dsimp only <;> omega

theorem cycleLeaps_eq (h₁ : 0 ≤ rem) (h₂ : rem < 400) :
    cycleLeaps rem = (rem / 100, rem % 100 / 4, decide (IsLeap (2000 + rem))) := by
  unfold cycleLeaps
  rw [splitCentury_eq h₁ h₂]
  dsimp only
  split_ifs with hzero hcentury
  · subst hzero
    rfl
  · have hleap : ¬ IsLeap (2000 + rem) := by
      unfold IsLeap
      omega
    rw [hcentury, decide_eq_false hleap]
    rfl
  · have hleap : rem % 100 % 4 = 0 ↔ IsLeap (2000 + rem) := by
      unfold IsLeap
      omega
    rw [decide_eq_decide.2 hleap]

/-- The first day of a year by its place in the cycles since 2000. -/
theorem yearStart_cycle (cycles : ℤ) (h₁ : 0 ≤ rem) (h₂ : rem < 400) :
    yearStart (2000 + (400 * cycles + rem)) = 365 * (400 * cycles + rem) + 10958 +
      (rem % 100 / 4 + (97 * cycles + 24 * (rem / 100) -
        if IsLeap (2000 + rem) then 1 else 0)) := by
  unfold yearStart IsLeap
  split_ifs <;> omega

theorem decide_isLeap_cycle (cycles rem : ℤ) :
    decide (IsLeap (2000 + (400 * cycles + rem))) = decide (IsLeap (2000 + rem)) := by
  rw [decide_eq_decide]
  unfold IsLeap
  omega

/-- The short way, where all numbers are `int`s. -/
theorem yearToSecs_of_short {year : ℤ} (h₁ : 2 ≤ year) (h₂ : year ≤ 138) :
    yearToSecs year =
      some (86400 * yearStart (year + 1900), decide (IsLeap (year + 1900))) := by
  have hshort : (year - 2) % 2 ^ 64 ≤ 136 := by omega
  obtain ⟨hstart, hleap⟩ := shortLeaps_eq h₁ h₂
  have hleaps : -18 ≤ (shortLeaps year).1 ∧ (shortLeaps year).1 ≤ 17 := by
    unfold yearStart at hstart
    omega
  simp only [yearToSecs, if_pos hshort, hleap, asInt_bind_eq_some, Option.bind_eq_bind,
    Option.pure_def, Option.some.injEq, Prod.mk.injEq, and_true]
  unfold intMin intMax
  omega

theorem yearToSecs_of_long {year : ℤ} (hlong : ¬ (year - 2) % 2 ^ 64 ≤ 136)
    (h₁ : -3000000000 ≤ year) (h₂ : year ≤ 3000000000) :
    yearToSecs year =
      some (86400 * yearStart (year + 1900), decide (IsLeap (year + 1900))) := by
  obtain ⟨cycles, rem, hyear, hrem₁, hrem₂⟩ : ∃ cycles rem : ℤ,
      year - 100 = 400 * cycles + rem ∧ 0 ≤ rem ∧ rem < 400 :=
    ⟨(year - 100) / 400, (year - 100) % 400, by omega, by omega, by omega⟩
  have hshift : year + 1900 = 2000 + (400 * cycles + rem) := by omega
  have hdiv : floorDiv (year - 100) 400 = (cycles, rem) := by
    rw [floorDiv_eq _ (by decide)]
    ext <;> dsimp only <;> omega
  have hstart := yearStart_cycle cycles hrem₁ hrem₂
  rw [hshift, decide_isLeap_cycle]
  simp only [yearToSecs, if_neg hlong, hdiv, cycleLeaps_eq hrem₁ hrem₂, decide_eq_true_eq,
    asInt_bind_eq_some, asLongLong_bind_eq_some, Option.bind_eq_bind, Option.pure_def,
    Option.some.injEq, Prod.mk.injEq, and_true]
  unfold intMin intMax
  omega

theorem yearToSecs_eq (year : ℤ) (h₁ : -3000000000 ≤ year) (h₂ : year ≤ 3000000000) :
    yearToSecs year =
      some (86400 * yearStart (year + 1900), decide (IsLeap (year + 1900))) := by
  by_cases hshort : (year - 2) % 2 ^ 64 ≤ 136
  · exact yearToSecs_of_short (by omega) (by omega)
  · exact yearToSecs_of_long hshort h₁ h₂

theorem monthToSecs_eq (m : Fin 12) (isLeap : Bool) :
    monthToSecs (m : ℕ) isLeap = some (86400 * (monthStart isLeap m : ℤ)) := by
  revert m isLeap
  decide +kernel

theorem monthIndex_val (mon : ℤ) : (((monthIndex mon : Fin 12) : ℕ) : ℤ) = mon % 12 := by
  show ((mon % 12).toNat : ℤ) = mon % 12
  omega

theorem adjustMonth_eq (year mon : ℤ) :
    adjustMonth year mon = (year + mon / 12, (((monthIndex mon : Fin 12) : ℕ) : ℤ)) := by
  unfold adjustMonth
  rw [floorDiv_eq _ (by decide), monthIndex_val]
  split_ifs with hout
  · rfl
  · ext <;> dsimp only <;> omega

/-- **The time of the fields is exact**, but for the smallest day of all, where `tm_mday - 1` does
not fit. -/
theorem tmToSecs_eq (tm : Tm) :
    tmToSecs tm = if tm.mday.toInt = intMin then none else some tm.exactSecs := by
  obtain ⟨hyear₁, hyear₂⟩ := And.intro tm.year.le_toInt tm.year.toInt_lt
  obtain ⟨hmon₁, hmon₂⟩ := And.intro tm.mon.le_toInt tm.mon.toInt_lt
  obtain ⟨hmday₁, hmday₂⟩ := And.intro tm.mday.le_toInt tm.mday.toInt_lt
  obtain ⟨hhour₁, hhour₂⟩ := And.intro tm.hour.le_toInt tm.hour.toInt_lt
  obtain ⟨hmin₁, hmin₂⟩ := And.intro tm.min.le_toInt tm.min.toInt_lt
  obtain ⟨hsec₁, hsec₂⟩ := And.intro tm.sec.le_toInt tm.sec.toInt_lt
  have hsecs := yearToSecs_eq (tm.year.toInt + tm.mon.toInt / 12) (by omega) (by omega)
  rw [show tm.year.toInt + tm.mon.toInt / 12 + 1900 = tm.year.toInt + 1900 + tm.mon.toInt / 12 by
    ring] at hsecs
  have hstart : |yearStart (tm.year.toInt + 1900 + tm.mon.toInt / 12)| ≤ 10 ^ 12 := by
    unfold yearStart
    rw [abs_le]
    omega
  have hmonth := monthStart_add_monthLength_le
    (decide (IsLeap (tm.year.toInt + 1900 + tm.mon.toInt / 12))) (monthIndex tm.mon.toInt)
  unfold tmToSecs Tm.exactSecs
  simp only [adjustMonth_eq, hsecs, monthToSecs_eq, Option.bind_eq_bind, Option.bind_some]
  generalize monthStart (decide (IsLeap (tm.year.toInt + 1900 + tm.mon.toInt / 12)))
    (monthIndex tm.mon.toInt) = days at hmonth
  have hdays : days ≤ 366 := by
    split_ifs at hmonth <;> omega
  rw [abs_le] at hstart
  refine Option.ext fun t => ?_
  simp only [asLongLong_bind_eq_some, asLongLong_eq_some, asInt_bind_eq_some]
  unfold intMin intMax
  split_ifs with hmday
  · -- `tm_mday - 1` overflows
    simp only [iff_false]
    omega
  · rw [Option.some.injEq]
    omega

/-! ### From the time to the fields -/

/-- `LEAPOCH`: 1 March 2000, behind a 29 February at the end of a cycle of 400 years. -/
def leapoch : ℤ := 946684800 + 86400 * (31 + 29)

def daysPer400Y : ℤ := 365 * 400 + 97

def daysPer100Y : ℤ := 365 * 100 + 24

def daysPer4Y : ℤ := 365 * 4 + 1

/-- The table `days_in_month` in `__secs_to_tm`, from March on. -/
def daysInMonth : List ℤ := [31, 30, 31, 30, 31, 31, 30, 31, 30, 31, 31, 29]

/-- The loop over the months.  There is no value behind the end of the table. -/
def monthLoop : List ℤ → ℤ → ℤ → Option (ℤ × ℤ)
  | [], _, _ => none
  | n :: ns, months, remdays =>
    if n ≤ remdays then monthLoop ns (months + 1) (remdays - n) else some (months, remdays)

/-- How many periods of `d` days there are in front of a day.  The last of `n` may be a day longer,
and the quotient is corrected then. -/
def periods (remdays d n : ℤ) : ℤ :=
  let k := remdays / d
  if k = n then k - 1 else k

/-- A day since the epoch of the cycles as a year, the day in this year, which begins in March, and
whether the year of this March is a leap year. -/
def splitDays (days : ℤ) : Option (ℤ × ℤ × Bool) := do
  let (qc, remdays) := floorDiv days daysPer400Y
  let qcCycles ← asInt qc
  let cCycles := periods remdays daysPer100Y 4
  let remdays := remdays - cCycles * daysPer100Y
  let qCycles := periods remdays daysPer4Y 25
  let remdays := remdays - qCycles * daysPer4Y
  let remyears := periods remdays 365 4
  let remdays := remdays - remyears * 365
  let leap := remyears = 0 ∧ (qCycles ≠ 0 ∨ cCycles = 0)
  let years := remyears + 4 * qCycles + 100 * cCycles + 400 * qcCycles
  return (years, remdays, leap)

/-- The day of the calendar year. -/
def ydayOf (remdays : ℤ) (leap : Bool) : ℤ :=
  let leap : ℤ := leap.toNat
  let yday := remdays + 31 + 28 + leap
  if 365 + leap ≤ yday then yday - (365 + leap) else yday

/-- `__secs_to_tm`: no fields for a year that does not fit. -/
def secsToTm (t : ℤ) (tm : Tm) : Option (Option Tm) := do
  if t < intMin * 31622400 ∨ intMax * 31622400 < t then return none
  let secs ← asLongLong (t - leapoch)
  let (days, remsecs) := floorDiv secs 86400
  let (_, wday) := floorDiv (3 + days) 7
  let (years, remdays, leap) ← splitDays days
  let (months, mday) ← monthLoop daysInMonth 0 remdays
  let (months, years) := if 10 ≤ months then (months - 12, years + 1) else (months, years)
  if intMax < years + 100 ∨ years + 100 < intMin then return none
  return some
    { tm with
      year := .ofInt (years + 100)
      mon := .ofInt (months + 2)
      mday := .ofInt (mday + 1)
      wday := .ofInt wday
      yday := .ofInt (ydayOf remdays leap)
      hour := .ofInt (remsecs / 3600)
      min := .ofInt (remsecs / 60 % 60)
      sec := .ofInt (remsecs % 60) }

/-! ### The fields are those of the calendar -/

theorem marchStart_cycles (qc : ℤ) {c q r : ℤ} (hc : 0 ≤ c ∧ c ≤ 3) (hq : 0 ≤ q ∧ q ≤ 24)
    (hr : 0 ≤ r ∧ r ≤ 3) : marchStart (r + 4 * q + 100 * c + 400 * qc) =
      365 * r + 1461 * q + 36524 * c + 146097 * qc := by
  unfold marchStart
  omega

theorem periods_spec {m d n : ℤ} (hd : 0 < d) (hm : 0 ≤ m) (hmax : m ≤ n * d) (hn : 0 < n) :
    (0 ≤ periods m d n ∧ periods m d n < n) ∧ 0 ≤ m - periods m d n * d ∧
      (m - periods m d n * d < d ∨ periods m d n = n - 1 ∧ m = n * d) := by
  have hdiv := Int.mul_ediv_add_emod m d
  have hrem₁ := Int.emod_nonneg m hd.ne'
  have hrem₂ := Int.emod_lt_of_pos m hd
  unfold periods
  dsimp only
  split_ifs with hlast
  · -- only the day behind the regular periods is corrected
    have heq : m = n * d := by
      nlinarith
    refine ⟨by omega, ?_, .inr ⟨by omega, heq⟩⟩
    linarith
  · have hlt : m / d < n := by
      have hle : m / d ≤ n := Int.ediv_le_of_le_mul hd hmax
      omega
    refine ⟨⟨Int.ediv_nonneg hm hd.le, hlt⟩, ?_, .inl ?_⟩ <;> linarith

theorem splitDays_eq (days : ℤ) (h₁ : -10 ^ 13 ≤ days) (h₂ : days ≤ 10 ^ 13) :
    ∃ years r : ℤ, splitDays days = some (years, r, decide (IsLeap (2000 + years))) ∧
      days = marchStart years + r ∧ 0 ≤ r ∧ r < daysInYear (2001 + years) := by
  have h400 : daysPer400Y = 146097 := rfl
  have h100 : daysPer100Y = 36524 := rfl
  have h4 : daysPer4Y = 1461 := rfl
  -- the cycles of 400 years
  obtain ⟨qc, m, hdiv, hdays, hm⟩ : ∃ qc m : ℤ, floorDiv days 146097 = (qc, m) ∧
      days = 146097 * qc + m ∧ 0 ≤ m ∧ m < 146097 :=
    ⟨_, _, floorDiv_eq _ (by decide), by omega, by omega, by omega⟩
  have hqc : asInt qc = some qc := asInt_of_le (by omega) (by omega)
  -- the centuries, the cycles of 4 years, and the years
  obtain ⟨hc, hm₁, hlast₁⟩ := periods_spec (m := m) (d := 36524) (n := 4) (by decide) hm.1
    (by omega) (by decide)
  generalize hcdef : periods m 36524 4 = c at hc hm₁ hlast₁
  generalize hm₁def : m - c * 36524 = m₁ at hm₁ hlast₁
  obtain ⟨hq, hm₂, hlast₂⟩ := periods_spec (m := m₁) (d := 1461) (n := 25) (by decide) hm₁
    (by omega) (by decide)
  generalize hqdef : periods m₁ 1461 25 = q at hq hm₂ hlast₂
  generalize hm₂def : m₁ - q * 1461 = m₂ at hm₂ hlast₂
  obtain ⟨hr, hm₃, hlast₃⟩ := periods_spec (m := m₂) (d := 365) (n := 4) (by decide) hm₂
    (by omega) (by decide)
  generalize hrdef : periods m₂ 365 4 = r at hr hm₃ hlast₃
  have hstart := marchStart_cycles qc ⟨hc.1, by omega⟩ ⟨hq.1, by omega⟩ ⟨hr.1, by omega⟩
  have hleap : (r = 0 ∧ (q ≠ 0 ∨ c = 0)) ↔ IsLeap (2000 + (r + 4 * q + 100 * c + 400 * qc)) := by
    unfold IsLeap
    omega
  refine ⟨r + 4 * q + 100 * c + 400 * qc, m₂ - r * 365, ?_, by omega, hm₃, ?_⟩
  · simp only [splitDays, h400, h100, h4, hdiv, hqc, hcdef, hm₁def, hqdef, hm₂def, hrdef,
      Option.bind_eq_bind, Option.bind_some, Option.pure_def, decide_eq_decide.2 hleap]
  · unfold daysInYear
    rcases hlast₃ with hlt | ⟨hlast, hm₂⟩
    · split_ifs <;> omega
    · -- the last day of four years, which is not there in every century
      have hfeb : IsLeap (2001 + (r + 4 * q + 100 * c + 400 * qc)) := by
        unfold IsLeap
        omega
      rw [if_pos hfeb]
      omega

theorem splitDays_date (d : Date) (h₁ : -10 ^ 12 ≤ d.dayNumber) (h₂ : d.dayNumber ≤ 10 ^ 12) :
    splitDays (d.dayNumber - 11017) =
      some (d.marchYear, d.marchDay, decide (IsLeap (2000 + d.marchYear))) := by
  obtain ⟨years, r, hsplit, hdays, hr, hr'⟩ := splitDays_eq (d.dayNumber - 11017)
    (by omega) (by omega)
  obtain ⟨hk, hk'⟩ := d.marchDay_mem
  obtain ⟨rfl, rfl⟩ := marchStart_unique (y := years) (z := d.marchYear) (r := r)
    (k := d.marchDay) (by have := d.dayNumber_eq; omega) hr hr' hk hk'
  exact hsplit

theorem monthLoop_march : ∀ (leap : Bool) (m : Fin 12), 2 ≤ m.val → ∀ d < monthLength leap m,
    monthLoop daysInMonth 0 ((monthStart leap m + d - (59 + leap.toNat) : ℕ) : ℤ) =
      some ((m.val : ℤ) - 2, (d : ℤ)) := by
  decide +kernel

theorem monthLoop_january : ∀ (leap : Bool) (m : Fin 12), m.val < 2 → ∀ d < monthLength leap m,
    monthLoop daysInMonth 0 ((monthStart leap m + d + 306 : ℕ) : ℤ) =
      some ((m.val : ℤ) + 10, (d : ℤ)) := by
  decide +kernel

/-- The loop finds the month of a date, counted from March on. -/
theorem monthLoop_date (d : Date) :
    monthLoop daysInMonth 0 d.marchDay =
      some (if 2 ≤ d.month.val then (d.month.val : ℤ) - 2 else d.month.val + 10,
        (d.day : ℤ) - 1) := by
  have hpos := d.day_pos
  have hle := d.day_le
  have hlt : d.day - 1 < monthLength (decide (IsLeap d.year)) d.month := by omega
  have hmarch := monthStart_march (decide (IsLeap d.year)) d.month
  have hday : ((d.day - 1 : ℕ) : ℤ) = (d.day : ℤ) - 1 := by omega
  unfold Date.marchDay Date.dayOfYear
  split_ifs at hmarch ⊢ with hmonth
  · rw [← hday, ← monthLoop_march _ _ hmonth _ hlt]
    congr 1
    omega
  · rw [← hday, ← monthLoop_january _ _ (not_le.1 hmonth) _ hlt]
    rfl

theorem ydayOf_date (d : Date) :
    ydayOf d.marchDay (decide (IsLeap (2000 + d.marchYear))) = d.dayOfYear := by
  have hlt := d.dayOfYear_lt
  unfold ydayOf Date.marchDay Date.marchYear
  dsimp only
  rw [toNat_isLeap, toNat_isLeap]
  by_cases hmonth : 2 ≤ d.month.val
  · rw [if_pos hmonth, if_pos hmonth, show 2000 + (d.year - 2000) = d.year by ring]
    split_ifs <;> omega
  · rw [if_neg hmonth, if_neg hmonth]
    split_ifs <;> omega

/-! ### The whole conversion -/

/-- The fields of a time in the calendar. -/
def Tm.ofTime (t : ℤ) (tm : Tm) : Tm :=
  let date := ofDayNumber (t / 86400)
  { tm with
    year := .ofInt (date.year - 1900)
    mon := .ofInt date.month.val
    mday := .ofInt date.day
    wday := .ofInt (weekday (t / 86400))
    yday := .ofInt date.dayOfYear
    hour := .ofInt (t % 86400 / 3600)
    min := .ofInt (t % 86400 / 60 % 60)
    sec := .ofInt (t % 86400 % 60) }

/-- The year of a time fits into the field. -/
def YearFits (t : ℤ) : Prop :=
  intMin ≤ (ofDayNumber (t / 86400)).year - 1900 ∧ (ofDayNumber (t / 86400)).year - 1900 ≤ intMax

instance : DecidablePred YearFits := fun _ => inferInstanceAs (Decidable (_ ∧ _))

theorem YearFits.mem (h : YearFits t) : intMin * 31622400 ≤ t ∧ t ≤ intMax * 31622400 := by
  obtain ⟨hmin, hmax⟩ := h
  have hyear : (ofDayNumber (t / 86400)).year = yearOf (t / 86400) := rfl
  obtain ⟨hge, hlt⟩ := yearOf_spec (t / 86400)
  have hlow : yearStart (-2147481748) ≤ yearStart (yearOf (t / 86400)) :=
    yearStart_le (by unfold intMin at hmin; omega)
  have hhigh : yearStart (yearOf (t / 86400) + 1) ≤ yearStart 2147485548 :=
    yearStart_le (by unfold intMax at hmax; omega)
  have hlow' : yearStart (-2147481748) = -784352321872 := rfl
  have hhigh' : yearStart 2147485548 = 784352270737 := rfl
  unfold intMin intMax
  omega

theorem secsToTm_of_mem (h₁ : intMin * 31622400 ≤ t) (h₂ : t ≤ intMax * 31622400) (tm : Tm) :
    secsToTm t tm = some (if YearFits t then some (tm.ofTime t) else none) := by
  have hmin : intMin = -2147483648 := rfl
  have hmax : intMax = 2147483647 := rfl
  have hepoch : leapoch = 86400 * 11017 := rfl
  obtain ⟨d, hd⟩ : ∃ d, d = ofDayNumber (t / 86400) := ⟨_, rfl⟩
  have hnum : d.dayNumber = t / 86400 := by rw [hd, dayNumber_ofDayNumber]
  have hsecs := asLongLong_of_le (x := t - leapoch) (by omega) (by omega)
  have hdays : floorDiv (t - leapoch) 86400 = (d.dayNumber - 11017, t % 86400) := by
    rw [floorDiv_eq _ (by decide)]
    ext <;> dsimp only <;> omega
  have hwday : floorDiv (3 + (d.dayNumber - 11017)) 7 =
      ((3 + (d.dayNumber - 11017)) / 7, weekday (t / 86400)) := by
    rw [floorDiv_eq _ (by decide), weekday]
    ext <;> dsimp only
    omega
  have hsplit := splitDays_date d (by omega) (by omega)
  -- January and February are moved into the next year
  have hmonths : (if 10 ≤ (if 2 ≤ d.month.val then (d.month.val : ℤ) - 2 else d.month.val + 10) then
      ((if 2 ≤ d.month.val then (d.month.val : ℤ) - 2 else d.month.val + 10) - 12, d.marchYear + 1)
      else (if 2 ≤ d.month.val then (d.month.val : ℤ) - 2 else d.month.val + 10, d.marchYear)) =
        ((d.month.val : ℤ) - 2, d.year - 2000) := by
    unfold Date.marchYear
    split_ifs <;> ext <;> dsimp only <;> omega
  have hreject : ¬ (t < intMin * 31622400 ∨ intMax * 31622400 < t) := by omega
  simp only [secsToTm, if_neg hreject, hsecs, hdays, hwday, hsplit, monthLoop_date, ydayOf_date,
    hmonths, Option.bind_eq_bind, Option.bind_some, Option.pure_def]
  rw [show d.year - 2000 + 100 = d.year - 1900 by ring]
  by_cases hfits : YearFits t
  · rw [if_pos hfits, if_neg]
    · simp only [Tm.ofTime, ← hd, sub_add_cancel]
    · unfold YearFits at hfits
      rw [← hd] at hfits
      omega
  · rw [if_neg hfits, if_pos]
    unfold YearFits at hfits
    rw [← hd] at hfits
    omega

/-- **The fields are those of the calendar, whenever the year fits.** -/
theorem secsToTm_eq (t : ℤ) (tm : Tm) :
    secsToTm t tm = some (if YearFits t then some (tm.ofTime t) else none) := by
  by_cases hmem : intMin * 31622400 ≤ t ∧ t ≤ intMax * 31622400
  · exact secsToTm_of_mem hmem.1 hmem.2 tm
  · have hreject : t < intMin * 31622400 ∨ intMax * 31622400 < t := by omega
    rw [if_neg fun h : YearFits t => hmem h.mem]
    simp [secsToTm, if_pos hreject]

/-! ### Round trips -/

/-- The fields are in their ranges and agree with the calendar. -/
structure Tm.Shows (tm : Tm) (t : ℤ) : Prop where
  sec : 0 ≤ tm.sec.toInt ∧ tm.sec.toInt ≤ 59
  min : 0 ≤ tm.min.toInt ∧ tm.min.toInt ≤ 59
  hour : 0 ≤ tm.hour.toInt ∧ tm.hour.toInt ≤ 23
  mon : 0 ≤ tm.mon.toInt ∧ tm.mon.toInt ≤ 11
  mday : 1 ≤ tm.mday.toInt ∧ tm.mday.toInt ≤
    monthLength (decide (IsLeap (tm.year.toInt + 1900))) (monthIndex tm.mon.toInt)
  wday : tm.wday.toInt = weekday (t / 86400)
  yday : tm.yday.toInt = t / 86400 - yearStart (tm.year.toInt + 1900)
  days : yearStart (tm.year.toInt + 1900) + monthStart (decide (IsLeap (tm.year.toInt + 1900)))
    (monthIndex tm.mon.toInt) + (tm.mday.toInt - 1) = t / 86400
  clock : 3600 * tm.hour.toInt + 60 * tm.min.toInt + tm.sec.toInt = t % 86400

theorem monthIndex_val_eq (m : Fin 12) : monthIndex (m.val : ℤ) = m := by
  have h := monthIndex_val (m.val : ℤ)
  omega

theorem monthLength_le (leap : Bool) (m : Fin 12) : monthLength leap m ≤ 31 := by
  revert leap m
  decide

theorem Date.day_le_31 (d : Date) : d.day ≤ 31 := d.day_le.trans (monthLength_le _ _)

theorem Date.dayOfYear_le (d : Date) : d.dayOfYear ≤ 365 := by
  have hlt := d.dayOfYear_lt
  unfold daysInYear at hlt
  split_ifs at hlt <;> omega

theorem toInt_ofInt_natCast {n : ℕ} (h : n ≤ 365) : (Int32.ofInt n).toInt = n :=
  Int32.toInt_ofInt_of_le (by omega) (by omega)

theorem Date.shows (d : Date) (hnum : d.dayNumber = t / 86400)
    (hyear : tm.year.toInt = d.year - 1900) (hmon : tm.mon.toInt = d.month.val)
    (hmday : tm.mday.toInt = d.day) (hwday : tm.wday.toInt = weekday (t / 86400))
    (hyday : tm.yday.toInt = d.dayOfYear) (hhour : tm.hour.toInt = t % 86400 / 3600)
    (hmin : tm.min.toInt = t % 86400 / 60 % 60) (hsec : tm.sec.toInt = t % 86400 % 60) :
    tm.Shows t := by
  have hpos := d.day_pos
  have hle := d.day_le
  have hyear' : tm.year.toInt + 1900 = d.year := by omega
  constructor
  case sec => omega
  case min => omega
  case hour => omega
  case mon => omega
  case mday =>
    rw [hyear', hmon, monthIndex_val_eq]
    omega
  case wday => exact hwday
  case yday =>
    rw [hyear', ← hnum, Date.dayNumber]
    omega
  case days =>
    rw [hyear', hmon, monthIndex_val_eq, ← hnum, Date.dayNumber, Date.dayOfYear]
    omega
  case clock => omega

theorem YearFits.shows (h : YearFits t) (tm : Tm) : (tm.ofTime t).Shows t := by
  refine Date.shows (ofDayNumber (t / 86400)) (dayNumber_ofDayNumber _) ?_ ?_ ?_ ?_ ?_ ?_ ?_ ?_
  · exact Int32.toInt_ofInt_of_le h.1 (Int.lt_add_one_of_le h.2)
  · exact toInt_ofInt_natCast (by omega)
  · exact toInt_ofInt_natCast ((Date.day_le_31 _).trans (by decide))
  · exact Int32.toInt_ofInt_of_le (by unfold weekday; omega) (by unfold weekday; omega)
  · exact toInt_ofInt_natCast (Date.dayOfYear_le _)
  · exact Int32.toInt_ofInt_of_le (by omega) (by omega)
  · exact Int32.toInt_ofInt_of_le (by omega) (by omega)
  · exact Int32.toInt_ofInt_of_le (by omega) (by omega)

theorem Tm.Shows.exactSecs (h : tm.Shows t) : tm.exactSecs = t := by
  have hdays := h.days
  have hclock := h.clock
  have hmon := h.mon
  have hyear : tm.year.toInt + 1900 + tm.mon.toInt / 12 = tm.year.toInt + 1900 := by omega
  unfold Tm.exactSecs
  dsimp only
  rw [hyear]
  omega

theorem Tm.Shows.tmToSecs (h : tm.Shows t) : tmToSecs tm = some t := by
  have hmday : tm.mday.toInt ≠ intMin := by
    have := h.mday.1
    unfold intMin
    omega
  rw [tmToSecs_eq, if_neg hmday, h.exactSecs]

/-! ### `timegm` -/

/-- `timegm`; `new` is its local variable before it is set. -/
def timegm (tm new : Tm) : Option (Except Errno ℤ × Tm) := do
  let t ← tmToSecs tm
  match ← secsToTm t new with
  | none => return (.error .EOVERFLOW, tm)
  | some new => return (.ok t, { new with isdst := 0 })

theorem timegm_eq (hmday : tm.mday.toInt ≠ intMin) (new : Tm) :
    timegm tm new = some (if YearFits tm.exactSecs then
      (.ok tm.exactSecs, { new.ofTime tm.exactSecs with isdst := 0 })
    else (.error .EOVERFLOW, tm)) := by
  simp only [timegm, tmToSecs_eq, if_neg hmday, secsToTm_eq, Option.bind_eq_bind, Option.bind_some]
  by_cases hfits : YearFits tm.exactSecs
  · simp only [if_pos hfits]
    rfl
  · simp only [if_neg hfits]
    rfl

/-- **`timegm` normalizes**: the fields it stores are those of the time it returns, and it leaves
them as they are when it is called again. -/
theorem timegm_normalizes {tm₁ new : Tm} (h : timegm tm new = some (.ok t, tm₁)) (new' : Tm) :
    t = tm.exactSecs ∧ tm₁.Shows t ∧ timegm tm₁ new' = some (.ok t, tm₁) := by
  have hmday : tm.mday.toInt ≠ intMin := by
    intro hmin
    simp [timegm, tmToSecs_eq, hmin] at h
  rw [timegm_eq hmday] at h
  split_ifs at h with hfits
  · cases h
    have hshows : (new.ofTime tm.exactSecs).Shows tm.exactSecs := hfits.shows new
    have hshows' : ({ new.ofTime tm.exactSecs with isdst := 0 } : Tm).Shows tm.exactSecs :=
      { hshows with }
    refine ⟨rfl, hshows', ?_⟩
    simp only [timegm, hshows'.tmToSecs, secsToTm_eq, if_pos hfits, Option.bind_eq_bind,
      Option.bind_some]
    rfl
  · cases h

/-- The 29th of a February that has 28 days, in the month with the number 13. -/
theorem timegm_normalizes_february :
    ∃ t tm₁, timegm { mday := 29, mon := 13, year := 69 } {} = some (.ok t, tm₁) ∧
      tm₁.Shows t ∧ timegm tm₁ {} = some (.ok t, tm₁) := by
  have h : timegm { mday := 29, mon := 13, year := 69 } {} =
      some (.ok 5097600, { mday := 1, mon := 2, year := 70, wday := 0, yday := 59 }) := by
    decide +kernel
  exact ⟨_, _, h, (timegm_normalizes h {}).2⟩

/-! ### Main result -/

/-- **The calendar.**  The fields of a time that is not rejected are those of the calendar, and lead
back to it; the time of any fields is exact, unless the day is the smallest number of all. -/
theorem calendar_iff (t : ℤ) (tm tm' : Tm) :
    (secsToTm t tm = some (some tm') → tm'.Shows t ∧ tmToSecs tm' = some t) ∧
      (tmToSecs tm = some tm.exactSecs ↔ tm.mday.toInt ≠ intMin) := by
  constructor
  · intro haccepted
    rw [secsToTm_eq] at haccepted
    split_ifs at haccepted with hfits
    · have hshows := hfits.shows tm
      cases haccepted
      exact ⟨hshows, hshows.tmToSecs⟩
    · cases haccepted
  · rw [tmToSecs_eq]
    split_ifs with hmday <;> simp [hmday]

/-- The first second of 1970, a Thursday. -/
theorem calendar_iff_epoch :
    secsToTm 0 {} = some (some { mday := 1, year := 70, wday := 4 }) ∧
      ({ mday := 1, year := 70, wday := 4 } : Tm).Shows 0 := by
  have haccepted : secsToTm 0 {} = some (some { mday := 1, year := 70, wday := 4 }) := by
    decide +kernel
  exact ⟨haccepted, ((calendar_iff 0 {} _).1 haccepted).1⟩

/-- With the smallest day `tm_mday - 1` overflows, where the exact time is a 64-bit number. -/
theorem calendar_mday_overflow :
    tmToSecs { mday := .minValue } = none ∧
      ({ mday := .minValue } : Tm).exactSecs = -185544796262400 := by
  decide +kernel

end Clib4.Time
