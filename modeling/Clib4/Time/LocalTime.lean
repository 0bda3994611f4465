import Clib4.Time.Calendar

/-!
# Local time

`localtime_r` subtracts the offset of the locale from a time, adds an hour if daylight saving time
is on, and lets `Amiga2Date` find the date.  `mktime` goes the other way with `Date2Amiga` and adds
the offset, but takes no hour away.  In between, seconds are 32-bit numbers that count from 1978
on.  `gmtime_r` is `localtime_r` with the offset zero, and adds the hour as well.

## Main definitions

* `UtilityLibrary` — `Amiga2Date` and `Date2Amiga`, which follow the Gregorian calendar.
* `Zone` — the settings that the conversions depend on.
* `localtimeR`, `gmtimeR`, `mktime` — the functions; an overflow leaves them without a value.

## Main results

* `utc_round_trip_iff` — **when `timegm` leads from `gmtime_r` back to the time.**
* `Tm.Shows.mktime` — **what `mktime` makes of such fields.**
* `local_round_trip_iff` — **when `mktime` leads back to the time.**
-/

namespace Clib4.Time

open Gregorian

def unixTimeOffset : ℤ := 252460800

/-- `struct ClockData`. -/
structure ClockData where
  sec : ℕ := 0
  min : ℕ := 0
  hour : ℕ := 0
  mday : ℕ := 0
  month : ℕ := 0
  year : ℕ := 0
  wday : ℕ := 0
  deriving DecidableEq, Repr

/-- The number of 1 January 1978. -/
def amigaEpoch : ℤ := 2922

/-- The date and the time of day, `seconds` after the beginning of 1978. -/
def gregorianClock (seconds : ℤ) : ClockData :=
  let date := ofDayNumber (amigaEpoch + seconds / 86400)
  { sec := (seconds % 60).toNat
    min := (seconds / 60 % 60).toNat
    hour := (seconds / 3600 % 24).toNat
    mday := date.day
    month := date.month.val + 1
    year := date.year.toNat
    wday := (weekday (amigaEpoch + seconds / 86400)).toNat }

/-- The seconds from the beginning of 1978 to a date; the weekday does not matter. -/
def gregorianSeconds (c : ClockData) : ℤ :=
  let days := yearStart c.year + monthStart (decide (IsLeap c.year)) (monthIndex (c.month - 1)) +
    (c.mday - 1) - amigaEpoch
  86400 * days + 3600 * c.hour + 60 * c.min + c.sec

/-- The dates of the Amiga: those of the calendar from 1978 on whose seconds fit into a `ULONG`. -/
def ClockData.Valid (c : ClockData) : Prop :=
  c.sec < 60 ∧ c.min < 60 ∧ c.hour < 24 ∧ 1 ≤ c.month ∧ c.month ≤ 12 ∧ 1 ≤ c.mday ∧
    c.mday ≤ monthLength (decide (IsLeap c.year)) (monthIndex (c.month - 1)) ∧ 1978 ≤ c.year ∧
      gregorianSeconds c < 2 ^ 32

/-- The functions `Amiga2Date` and `Date2Amiga` of utility.library.  All that is taken for granted
is that times are `ULONG`s and that the dates of the Amiga are those of the Gregorian calendar. -/
structure UtilityLibrary where
  amiga2Date : ℤ → ClockData
  date2Amiga : ClockData → ℤ
  date2Amiga_mem : ∀ c, 0 ≤ date2Amiga c ∧ date2Amiga c < 2 ^ 32
  amiga2Date_gregorian : ∀ s, 0 ≤ s → s < 2 ^ 32 → amiga2Date s = gregorianClock s
  date2Amiga_gregorian : ∀ c : ClockData, c.Valid → date2Amiga c = gregorianSeconds c

/-- The offset of the locale in minutes, if there is one; whether timezone.library reports daylight
saving time; and the variable `__daylight`. -/
structure Zone where
  gmtOffset : Option Int32
  isdst : Bool
  daylight : Int32 := 0
  deriving DecidableEq

/-- The offset in seconds. -/
def Zone.offset (z : Zone) : ℤ :=
  match z.gmtOffset with
  | some offset => 60 * offset.toInt
  | none => 0

def calculateDaysPerDate (year month day : ℤ) : ℤ :=
  let month := month + 9
  let year := year - 1 + month.tdiv 12
  let month := month.tmod 12 * 306 + 5
  year * 365 + year.tdiv 4 - year.tdiv 100 + year.tdiv 400 + month.tdiv 10 + day - 1

/-- The same with the checks of an `int`. -/
def intDaysPerDate (year month day : ℤ) : Option ℤ := do
  let month ← asInt (month + 9)
  let year ← asInt ((← asInt (year - 1)) + month.tdiv 12)
  let month ← asInt ((← asInt (month.tmod 12 * 306)) + 5)
  let result ← asInt (year * 365)
  let result ← asInt (result + year.tdiv 4)
  let result ← asInt (result - year.tdiv 100)
  let result ← asInt (result + year.tdiv 400)
  let result ← asInt (result + month.tdiv 10)
  asInt ((← asInt (result + day)) - 1)

/-- The fields that `__convert_time` takes over from a `struct ClockData`. -/
def setFields (z : Zone) (clock : ClockData) (tm : Tm) : Tm :=
  { tm with
    sec := .ofInt clock.sec
    min := .ofInt clock.min
    hour := .ofInt clock.hour
    mday := .ofInt clock.mday
    mon := .ofInt (clock.month - 1)
    year := .ofInt (clock.year - 1900)
    wday := .ofInt clock.wday
    isdst := z.daylight
    yday := .ofInt (calculateDaysPerDate clock.year clock.month clock.mday -
      calculateDaysPerDate clock.year 1 1) }

/-- `__convert_time`; the argument is a `ULONG`, and so are the sums. -/
def convertTime (u : UtilityLibrary) (z : Zone) (seconds gmtOffset : ℤ) (tm : Tm) : Tm :=
  let seconds := if seconds < unixTimeOffset then 0 else seconds - unixTimeOffset
  let seconds := (seconds - gmtOffset) % 2 ^ 32
  let seconds := if z.isdst then (seconds + 60 * 60) % 2 ^ 32 else seconds
  setFields z (u.amiga2Date seconds) tm

/-- `localtime_r`: the time is cut to a `ULONG`. -/
def localtimeR (u : UtilityLibrary) (z : Zone) (t : ℤ) (tm : Tm) : Option Tm := do
  let gmtOffset ← asInt z.offset
  return convertTime u z (t % 2 ^ 32) gmtOffset tm

/-- The first part of `mktime`: the month is brought into the range from 1 to 12. -/
def normalizeMonth (year month : ℤ) : ℤ × ℤ :=
  let (year, month) :=
    if month < 0 ∨ 12 < month then (year + month.tdiv 12, month - month.tdiv 12 * 12)
    else (year, month)
  if month < 1 then (year - 1, month + 12) else (year, month)

/-- The seconds since the first day of the month, a `LONG`. -/
def combinedSeconds (tm : Tm) : Option ℤ := do
  let days ← asInt (24 * (← asInt (tm.mday.toInt - 1)))
  let hours ← asInt (60 * (← asInt (tm.hour.toInt + days)))
  let minutes ← asInt (60 * (← asInt (tm.min.toInt + hours)))
  asInt (tm.sec.toInt + minutes)

/-- `mktime`.  The fields of `struct ClockData` have 16 bits. -/
def mktime (u : UtilityLibrary) (z : Zone) (tm : Tm) : Option (ℤ × Tm) := do
  let year ← asInt (tm.year.toInt + 1900)
  let month ← asInt (tm.mon.toInt + 1)
  let (year, month) := normalizeMonth year month
  let year ← asInt year
  if year < 1978 then return (-1, tm)
  let seconds := u.date2Amiga
    { mday := 1, month := (month % 2 ^ 16).toNat, year := (year % 2 ^ 16).toNat }
  let combined ← combinedSeconds tm
  if combined < 0 ∧ seconds < (← asInt (-combined)) then return (-1, tm)
  let seconds := (seconds + combined) % 2 ^ 32
  let seconds := (seconds + (← asInt z.offset)) % 2 ^ 32
  let result := (seconds + unixTimeOffset) % 2 ^ 32
  let tm ← localtimeR u z result tm
  return (result, tm)

/-! ### Dates of 32-bit times -/

theorem ClockData.Valid.gregorianSeconds_nonneg {c : ClockData} (h : c.Valid) :
    0 ≤ gregorianSeconds c := by
  obtain ⟨-, -, -, -, -, hmday, -, hyear, -⟩ := h
  have hstart : yearStart 1978 ≤ yearStart c.year := yearStart_le (by omega)
  have hfirst : yearStart 1978 = amigaEpoch := rfl
  unfold gregorianSeconds
  dsimp only
  omega

variable {s : ℤ} {tm : Tm} {z : Zone} {u : UtilityLibrary}

/-- The years that a 32-bit time reaches. -/
theorem reached_year {year : ℤ} (h₁ : 0 ≤ s) (h₂ : s < 2 ^ 32)
    (hge : yearStart year ≤ amigaEpoch + s / 86400)
    (hlt : amigaEpoch + s / 86400 < yearStart (year + 1)) : 1978 ≤ year ∧ year ≤ 2114 := by
  have hepoch : amigaEpoch = 2922 := rfl
  have hfirst : yearStart 1978 = 2922 := rfl
  have hlast : yearStart 2115 = 52960 := rfl
  constructor
  · by_contra hbefore
    have hle : yearStart (year + 1) ≤ yearStart 1978 := yearStart_le (by omega)
    omega
  · by_contra hbehind
    have hle : yearStart 2115 ≤ yearStart year := yearStart_le (by omega)
    omega

theorem year_ofDayNumber_mem (h₁ : 0 ≤ s) (h₂ : s < 2 ^ 32) :
    1978 ≤ (ofDayNumber (amigaEpoch + s / 86400)).year ∧
      (ofDayNumber (amigaEpoch + s / 86400)).year ≤ 2114 := by
  obtain ⟨hge, hlt⟩ := yearOf_spec (amigaEpoch + s / 86400)
  exact reached_year h₁ h₂ hge hlt

/-! ### The fields of `localtime_r` -/

theorem monthStart_eq (leap : Bool) (m : Fin 12) :
    monthStart leap m =
      if 2 ≤ m.val then ((m.val + 10) % 12 * 306 + 5) / 10 + 59 + leap.toNat
      else ((m.val + 10) % 12 * 306 + 5) / 10 - 306 := by
  revert leap m
  decide +kernel

/-- The count begins 719468 days before 1970. -/
theorem calculateDaysPerDate_eq (d : Date) (hyear : 1 ≤ d.year) :
    calculateDaysPerDate d.year (d.month.val + 1) d.day = d.dayNumber + 719468 := by
  have hpos := d.day_pos
  have hmonth := monthStart_eq (decide (IsLeap d.year)) d.month
  have hleap := toNat_isLeap d.year
  have hyears : daysInYear d.year = 365 + d.year / 4 - d.year / 100 + d.year / 400 -
      ((d.year - 1) / 4 - (d.year - 1) / 100 + (d.year - 1) / 400) := by
    unfold daysInYear IsLeap
    split_ifs <;> omega
  unfold calculateDaysPerDate Date.dayNumber Date.dayOfYear yearStart
  simp (disch := omega) only [Int.tdiv_eq_ediv_of_nonneg, Int.tmod_eq_emod_of_nonneg]
  by_cases hmarch : 2 ≤ d.month.val
  · rw [if_pos hmarch] at hmonth
    omega
  · rw [if_neg hmarch] at hmonth
    omega

theorem calculateDaysPerDate_first {year : ℤ} (hyear : 1 ≤ year) :
    calculateDaysPerDate year 1 1 = yearStart year + 719468 := by
  unfold calculateDaysPerDate yearStart
  simp (disch := omega) only [Int.tdiv_eq_ediv_of_nonneg, Int.tmod_eq_emod_of_nonneg]
  omega

theorem calculateDaysPerDate_sub (d : Date) (hyear : 1 ≤ d.year) :
    calculateDaysPerDate d.year (d.month.val + 1) d.day - calculateDaysPerDate d.year 1 1 =
      d.dayOfYear := by
  rw [calculateDaysPerDate_eq d hyear, calculateDaysPerDate_first hyear, Date.dayNumber]
  omega

theorem intDaysPerDate_eq {year : ℤ} (month day : ℤ) (hyear : 1 ≤ year ∧ year ≤ 5000000)
    (hmonth : 1 ≤ month ∧ month ≤ 12) (hday : 1 ≤ day ∧ day ≤ 31) :
    intDaysPerDate year month day = some (calculateDaysPerDate year month day) ∧
      0 ≤ calculateDaysPerDate year month day ∧
      calculateDaysPerDate year month day ≤ intMax := by
  simp only [intDaysPerDate, calculateDaysPerDate, asInt_bind_eq_some, asInt_eq_some,
    Option.bind_eq_bind, and_true]
  simp (disch := omega) only [Int.tdiv_eq_ediv_of_nonneg, Int.tmod_eq_emod_of_nonneg]
  unfold intMin intMax
  omega

/-- **The fields are those of the calendar.** -/
theorem setFields_shows (u : UtilityLibrary) (z : Zone) (h₁ : 0 ≤ s) (h₂ : s < 2 ^ 32) (tm : Tm) :
    (setFields z (u.amiga2Date s) tm).Shows (unixTimeOffset + s) := by
  obtain ⟨hyear₁, hyear₂⟩ := year_ofDayNumber_mem h₁ h₂
  have hnum := dayNumber_ofDayNumber (amigaEpoch + s / 86400)
  have hepoch : amigaEpoch = 2922 := rfl
  have hoff : unixTimeOffset = 86400 * 2922 := rfl
  have hdays : (unixTimeOffset + s) / 86400 = amigaEpoch + s / 86400 := by omega
  rw [u.amiga2Date_gregorian s h₁ h₂]
  unfold setFields gregorianClock
  dsimp only
  generalize ofDayNumber (amigaEpoch + s / 86400) = d at hyear₁ hyear₂ hnum
  have hday := Date.day_le_31 d
  have hwday : 0 ≤ weekday (amigaEpoch + s / 86400) ∧ weekday (amigaEpoch + s / 86400) < 7 := by
    unfold weekday
    omega
  have hyear : ((d.year.toNat : ℕ) : ℤ) = d.year := Int.toNat_of_nonneg (by omega)
  have hmon : ((d.month.val + 1 : ℕ) : ℤ) - 1 = d.month.val := by omega
  have hyday := calculateDaysPerDate_sub d (by omega)
  rw [hyear, hmon, Nat.cast_add, Nat.cast_one, hyday]
  refine Date.shows d (by rw [hnum, hdays]) ?_ ?_ ?_ ?_ ?_ ?_ ?_ ?_
  · exact Int32.toInt_ofInt_of_le (by omega) (by omega)
  · exact toInt_ofInt_natCast (by omega)
  · exact toInt_ofInt_natCast (by omega)
  · rw [toInt_ofInt_natCast (by omega), hdays]
    omega
  · exact toInt_ofInt_natCast (Date.dayOfYear_le d)
  · rw [toInt_ofInt_natCast (by omega)]
    omega
  · rw [toInt_ofInt_natCast (by omega)]
    omega
  · rw [toInt_ofInt_natCast (by omega)]
    omega

/-- **Days are counted exactly.**  The counts of two dates of the years 1 to 5000000 do not overflow
and differ by the number of days between the dates, so `tm_yday` is the day of the year. -/
theorem daysPerDate_exact (d₁ d₂ : Date) (h₁ : 1 ≤ d₁.year ∧ d₁.year ≤ 5000000)
    (h₂ : 1 ≤ d₂.year ∧ d₂.year ≤ 5000000) :
    (do asInt ((← intDaysPerDate d₂.year (d₂.month.val + 1) d₂.day) -
        (← intDaysPerDate d₁.year (d₁.month.val + 1) d₁.day))) =
      some (d₂.dayNumber - d₁.dayNumber) ∧
    (do asInt ((← intDaysPerDate d₁.year (d₁.month.val + 1) d₁.day) -
        (← intDaysPerDate d₁.year 1 1))) = some (d₁.dayOfYear : ℤ) ∧
    ∀ u z seconds gmtOffset tm', let tm := convertTime u z seconds gmtOffset tm'
      tm.yday.toInt = monthStart (decide (IsLeap (tm.year.toInt + 1900)))
        (monthIndex tm.mon.toInt) + (tm.mday.toInt - 1) := by
  have hcount : ∀ d : Date, 1 ≤ d.year ∧ d.year ≤ 5000000 →
      intDaysPerDate d.year (d.month.val + 1) d.day = some (d.dayNumber + 719468) ∧
        0 ≤ d.dayNumber + 719468 ∧ d.dayNumber + 719468 ≤ intMax := by
    intro d h
    have hday := Date.day_le_31 d
    have hpos := d.day_pos
    rw [← calculateDaysPerDate_eq d h.1]
    exact intDaysPerDate_eq _ _ h (by omega) (by omega)
  obtain ⟨hn₁, hlow₁, hhigh₁⟩ := hcount d₁ h₁
  obtain ⟨hn₂, hlow₂, hhigh₂⟩ := hcount d₂ h₂
  obtain ⟨hfirst, hlow, hhigh⟩ := intDaysPerDate_eq 1 1 h₁ (by decide) (by decide)
  rw [calculateDaysPerDate_first h₁.1] at hfirst hlow hhigh
  have hnum : d₁.dayNumber = yearStart d₁.year + d₁.dayOfYear := rfl
  have hmin : intMin = -intMax - 1 := rfl
  refine ⟨?_, ?_, ?_⟩
  · simp only [hn₁, hn₂, Option.bind_eq_bind, Option.bind_some, asInt_eq_some]
    omega
  · simp only [hn₁, hfirst, Option.bind_eq_bind, Option.bind_some, asInt_eq_some]
    omega
  · intro u z seconds gmtOffset tm'
    have hshows : ∃ t, (convertTime u z seconds gmtOffset tm').Shows t :=
      ⟨_, setFields_shows u z (by split_ifs <;> omega) (by split_ifs <;> omega) tm'⟩
    obtain ⟨t, h⟩ := hshows
    have hyday := h.yday
    have hdays := h.days
    omega

/-- From the last day of a leap year to the last day that is covered. -/
theorem daysPerDate_exact_last :
    (do asInt ((← intDaysPerDate 5000000 12 31) - (← intDaysPerDate 2000 12 31))) =
      some 1825482015 := by
  have h := (daysPerDate_exact ⟨2000, 11, 31, by decide, by decide⟩
    ⟨5000000, 11, 31, by decide, by decide⟩ (by decide) (by decide)).1
  exact h.trans (by decide +kernel)

/-! ### `gmtime_r` -/

/-- `gmtime_r`: the time is cut to a `ULONG`. -/
def gmtimeR (u : UtilityLibrary) (z : Zone) (t : ℤ) (tm : Tm) : Tm :=
  convertTime u z (t % 2 ^ 32) 0 tm

/-- The Amiga's time of the fields that `gmtime_r` sets. -/
def utcSeconds (z : Zone) (t : ℤ) : ℤ :=
  max unixTimeOffset (t % 2 ^ 32) - unixTimeOffset + if z.isdst then 3600 else 0

theorem utcSeconds_mem (z : Zone) (t : ℤ) : 0 ≤ utcSeconds z t ∧ utcSeconds z t < 2 ^ 32 := by
  unfold utcSeconds unixTimeOffset
  split_ifs <;> omega

/-- There is no carry behind the 32 bits. -/
theorem gmtimeR_eq (u : UtilityLibrary) (z : Zone) (t : ℤ) (tm : Tm) :
    gmtimeR u z t tm = setFields z (u.amiga2Date (utcSeconds z t)) tm := by
  unfold gmtimeR convertTime utcSeconds unixTimeOffset
  dsimp only
  congr 2
  split_ifs <;> omega

theorem timegm_gmtimeR (u : UtilityLibrary) (z : Zone) (t : ℤ) (tm new : Tm) :
    ∃ tm', timegm (gmtimeR u z t tm) new = some (.ok (unixTimeOffset + utcSeconds z t), tm') := by
  obtain ⟨h₁, h₂⟩ := utcSeconds_mem z t
  have hshows := setFields_shows u z h₁ h₂ tm
  rw [← gmtimeR_eq] at hshows
  have hfits : YearFits (unixTimeOffset + utcSeconds z t) := by
    have hdays : (unixTimeOffset + utcSeconds z t) / 86400 =
        amigaEpoch + utcSeconds z t / 86400 := by
      unfold unixTimeOffset amigaEpoch
      omega
    obtain ⟨hyear₁, hyear₂⟩ := year_ofDayNumber_mem h₁ h₂
    unfold YearFits intMin intMax
    rw [hdays]
    omega
  simp only [timegm, hshows.tmToSecs, secsToTm_eq, if_pos hfits, Option.bind_eq_bind,
    Option.bind_some]
  exact ⟨_, rfl⟩

/-- **When `timegm` leads back to the time**: for the times since 1978 that a `ULONG` holds, and
without daylight saving time. -/
theorem utc_round_trip_iff (u : UtilityLibrary) (z : Zone) (t : ℤ) (tm new : Tm) :
    (∃ tm', timegm (gmtimeR u z t tm) new = some (.ok t, tm')) ↔
      z.isdst = false ∧ unixTimeOffset ≤ t ∧ t < 2 ^ 32 := by
  obtain ⟨tm', hback⟩ := timegm_gmtimeR u z t tm new
  have hsame : (∃ tm', timegm (gmtimeR u z t tm) new = some (.ok t, tm')) ↔
      unixTimeOffset + utcSeconds z t = t := by
    simp [hback]
  rw [hsame]
  unfold utcSeconds unixTimeOffset
  cases z.isdst with
  | false | true => simp; omega

/-- A library that goes on in the same way for all other numbers. -/
def gregorianLibrary : UtilityLibrary where
  amiga2Date := gregorianClock
  date2Amiga c := gregorianSeconds c % 2 ^ 32
  date2Amiga_mem c := ⟨Int.emod_nonneg _ (by decide), Int.emod_lt_of_pos _ (by decide)⟩
  amiga2Date_gregorian _ _ _ := rfl
  date2Amiga_gregorian c hc := Int.emod_eq_of_lt hc.gregorianSeconds_nonneg hc.2.2.2.2.2.2.2.2

/-- While daylight saving time is on, an hour is added. -/
theorem utc_round_trip_dst :
    ¬ ∃ tm', timegm (gmtimeR gregorianLibrary
        { gmtOffset := some (-60), isdst := true } 1000000000 {}) {} =
      some (.ok 1000000000, tm') := by
  rintro ⟨tm', h⟩
  cases h

/-! ### `mktime` of such fields -/

theorem normalizeMonth_of_mem (year month : ℤ) (h₁ : 1 ≤ month) (h₂ : month ≤ 12) :
    normalizeMonth year month = (year, month) := by
  unfold normalizeMonth
  rw [if_neg (by omega)]
  exact if_neg (by omega)

theorem combinedSeconds_eq (hsec : 0 ≤ tm.sec.toInt ∧ tm.sec.toInt ≤ 59)
    (hmin : 0 ≤ tm.min.toInt ∧ tm.min.toInt ≤ 59) (hhour : 0 ≤ tm.hour.toInt ∧ tm.hour.toInt ≤ 23)
    (hmday : 1 ≤ tm.mday.toInt ∧ tm.mday.toInt ≤ 31) :
    combinedSeconds tm = some (tm.sec.toInt +
      60 * (tm.min.toInt + 60 * (tm.hour.toInt + 24 * (tm.mday.toInt - 1)))) := by
  simp only [combinedSeconds, Option.bind_eq_bind, asInt_bind_eq_some, asInt_eq_some,
    and_true]
  unfold intMin intMax
  omega

theorem Tm.Shows.year_mem (h : tm.Shows (unixTimeOffset + s)) (h₁ : 0 ≤ s) (h₂ : s < 2 ^ 32) :
    1978 ≤ tm.year.toInt + 1900 ∧ tm.year.toInt + 1900 ≤ 2114 := by
  have hoff : unixTimeOffset = 86400 * 2922 := rfl
  have hdays := h.days
  have hmday := h.mday
  have hmonth := monthStart_add_monthLength_le (decide (IsLeap (tm.year.toInt + 1900)))
    (monthIndex tm.mon.toInt)
  have hlen : monthStart (decide (IsLeap (tm.year.toInt + 1900))) (monthIndex tm.mon.toInt) +
      tm.mday.toInt ≤ daysInYear (tm.year.toInt + 1900) := by
    unfold daysInYear
    simp only [decide_eq_true_eq] at hmonth
    split_ifs at hmonth ⊢ <;> omega
  have hsucc := yearStart_succ (tm.year.toInt + 1900)
  have hepoch : amigaEpoch = 2922 := rfl
  exact reached_year h₁ h₂ (by omega) (by omega)

/-- **What `mktime` makes of the fields of a local time.** -/
theorem Tm.Shows.mktime (h : tm.Shows (unixTimeOffset + s)) (h₁ : 0 ≤ s) (h₂ : s < 2 ^ 32)
    (hz : asInt z.offset = some z.offset) :
    ∃ tm', mktime u z tm = some ((s + z.offset + unixTimeOffset) % 2 ^ 32, tm') := by
  have hoff : unixTimeOffset = 86400 * 2922 := rfl
  have hepoch : amigaEpoch = 2922 := rfl
  obtain ⟨hyear₁, hyear₂⟩ := h.year_mem h₁ h₂
  have hmon := h.mon
  have hmday := h.mday
  have hlen := monthLength_le (decide (IsLeap (tm.year.toInt + 1900)))
    (monthIndex tm.mon.toInt)
  have hyear := asInt_of_le (x := tm.year.toInt + 1900) (by omega) (by omega)
  have hmonth := asInt_of_le (x := tm.mon.toInt + 1) (by omega) (by omega)
  have hnormal := normalizeMonth_of_mem (tm.year.toInt + 1900) (tm.mon.toInt + 1)
    (by omega) (by omega)
  have hcombined := combinedSeconds_eq h.sec h.min h.hour ⟨hmday.1, by omega⟩
  -- the first day of the month
  have hfirst : u.date2Amiga { mday := 1, month := ((tm.mon.toInt + 1) % 2 ^ 16).toNat, year :=
      ((tm.year.toInt + 1900) % 2 ^ 16).toNat } =
        86400 * ((unixTimeOffset + s) / 86400 - (tm.mday.toInt - 1) - 2922) := by
    have hstart : yearStart 1978 ≤ yearStart (tm.year.toInt + 1900) := yearStart_le hyear₁
    have hstart' : yearStart 1978 = 2922 := rfl
    have hyear' : ((((tm.year.toInt + 1900) % 2 ^ 16).toNat : ℕ) : ℤ) = tm.year.toInt + 1900 := by
      omega
    have hmonth' : ((((tm.mon.toInt + 1) % 2 ^ 16).toNat : ℕ) : ℤ) - 1 = tm.mon.toInt := by omega
    have hdays := h.days
    -- the first day of the month is a date of the Amiga
    obtain ⟨c, hc⟩ : ∃ c : ClockData, c =
        { mday := 1, month := ((tm.mon.toInt + 1) % 2 ^ 16).toNat,
          year := ((tm.year.toInt + 1900) % 2 ^ 16).toNat } := ⟨_, rfl⟩
    have hseconds : gregorianSeconds c =
        86400 * ((unixTimeOffset + s) / 86400 - (tm.mday.toInt - 1) - 2922) := by
      unfold gregorianSeconds
      rw [hc]
      dsimp only
      rw [hyear', hmonth']
      omega
    have hvalid : c.Valid := by
      unfold ClockData.Valid
      rw [hseconds, hc]
      dsimp only
      rw [hyear', hmonth']
      omega
    rw [← hc, u.date2Amiga_gregorian c hvalid, hseconds]
  have hclock := h.clock
  have hneg := asInt_of_le (x := -(tm.sec.toInt +
      60 * (tm.min.toInt + 60 * (tm.hour.toInt + 24 * (tm.mday.toInt - 1))))) (by omega) (by omega)
  simp only [Time.mktime, hyear, hmonth, hnormal, hfirst, hcombined, hneg, hz, localtimeR,
    Option.bind_eq_bind, Option.bind_some]
  rw [if_neg (by omega), if_neg (by omega)]
  have hseconds : 86400 * ((unixTimeOffset + s) / 86400 - (tm.mday.toInt - 1) - 2922) +
      (tm.sec.toInt + 60 * (tm.min.toInt + 60 * (tm.hour.toInt + 24 * (tm.mday.toInt - 1)))) =
        s := by omega
  rw [hseconds]
  refine ⟨_, congrArg some (Prod.ext ?_ rfl)⟩
  simp only [Int.emod_add_emod]

/-! ### There and back -/

/-- `localtime_r`, and `mktime` of its result. -/
def roundTrip (u : UtilityLibrary) (z : Zone) (t : ℤ) (tm : Tm) : Option ℤ := do
  let tm ← localtimeR u z t tm
  let (result, _) ← mktime u z tm
  return result

/-- `mktime` returns no time behind the reach of a `ULONG`. -/
theorem mktime_lt {t : ℤ} {tm' : Tm} (h : mktime u z tm = some (t, tm')) : t < 2 ^ 32 := by
  simp only [mktime, Option.bind_eq_bind, Option.bind_eq_some_iff] at h
  obtain ⟨year, -, month, -, year', -, h⟩ := h
  split_ifs at h
  · cases h
    decide
  · simp only [Option.bind_eq_some_iff] at h
    obtain ⟨combined, -, negated, -, h⟩ := h
    split_ifs at h
    · cases h
      decide
    · simp only [Option.bind_eq_some_iff] at h
      obtain ⟨offset, -, tm₁, -, h⟩ := h
      cases h
      exact Int.emod_lt_of_pos _ (by decide)

theorem roundTrip_eq (u : UtilityLibrary) (hz : asInt z.offset = some z.offset) {t : ℤ}
    (h₁ : unixTimeOffset ≤ t) (h₂ : t < 2 ^ 32) (tm : Tm) :
    roundTrip u z t tm = some ((t + if z.isdst then 3600 else 0) % 2 ^ 32) := by
  have hoff : unixTimeOffset = 86400 * 2922 := rfl
  obtain ⟨s, hs₁, hs₂, hs, hfields⟩ : ∃ s : ℤ, 0 ≤ s ∧ s < 2 ^ 32 ∧
      s = (t - unixTimeOffset - z.offset + if z.isdst then 3600 else 0) % 2 ^ 32 ∧
      localtimeR u z t tm = some (setFields z (u.amiga2Date s) tm) := by
    refine ⟨_, Int.emod_nonneg _ (by decide), Int.emod_lt_of_pos _ (by decide), rfl, ?_⟩
    have hlong : t % 2 ^ 32 = t := Int.emod_eq_of_lt (by omega) h₂
    simp only [localtimeR, convertTime, hz, hlong, if_neg (not_lt.2 h₁), Option.bind_eq_bind,
      Option.bind_some, Option.pure_def]
    split_ifs
    · rw [Int.emod_add_emod]
      rfl
    · rw [add_zero]
  obtain ⟨tm', hback⟩ := (setFields_shows u z hs₁ hs₂ tm).mktime (u := u) hs₁ hs₂ hz
  simp only [roundTrip, hfields, hback, Option.bind_eq_bind, Option.bind_some, Option.pure_def]
  congr 1
  rw [hs, Int.add_assoc, Int.emod_add_emod]
  congr 1
  ring

/-- **When `mktime` leads back to the time**: without daylight saving time, for a time that a
`ULONG` holds, and if the offset in seconds does not overflow. -/
theorem local_round_trip_iff (u : UtilityLibrary) (z : Zone) {t : ℤ} (ht : unixTimeOffset ≤ t)
    (tm : Tm) : roundTrip u z t tm = some t ↔
      z.isdst = false ∧ t < 2 ^ 32 ∧ intMin ≤ z.offset ∧ z.offset ≤ intMax := by
  constructor
  · intro h
    obtain ⟨tm₁, hlocal, hback⟩ : ∃ tm₁, localtimeR u z t tm = some tm₁ ∧
        ∃ tm₂, mktime u z tm₁ = some (t, tm₂) := by
      simp only [roundTrip, Option.bind_eq_bind, Option.bind_eq_some_iff] at h
      obtain ⟨tm₁, hlocal, ⟨result, tm₂⟩, hback, heq⟩ := h
      cases heq
      exact ⟨tm₁, hlocal, tm₂, hback⟩
    obtain ⟨tm₂, hback⟩ := hback
    have hlt := mktime_lt hback
    -- the offset fits, since `localtime_r` has a result
    have hfits : intMin ≤ z.offset ∧ z.offset ≤ intMax := by
      by_contra hfits
      simp [localtimeR, asInt, hfits] at hlocal
    refine ⟨?_, hlt, hfits⟩
    rw [roundTrip_eq u (if_pos hfits) ht hlt, Option.some.injEq] at h
    by_contra hdst
    rw [if_pos (by simpa using hdst)] at h
    omega
  · rintro ⟨hdst, hlt, hfits⟩
    rw [roundTrip_eq u (if_pos hfits) ht hlt, hdst]
    unfold unixTimeOffset at ht
    rw [Option.some.injEq]
    simp only [Bool.false_eq_true, if_false, add_zero]
    exact Int.emod_eq_of_lt (by omega) hlt

/-- An hour east of Greenwich, in September 2001. -/
theorem local_round_trip_iff_2001 :
    unixTimeOffset ≤ 1000000000 ∧
      roundTrip gregorianLibrary { gmtOffset := some (-60), isdst := false } 1000000000 {} =
        some 1000000000 := by
  have ht : unixTimeOffset ≤ 1000000000 := by decide
  exact ⟨ht, (local_round_trip_iff _ _ ht _).2 (by decide)⟩

/-- The same time while daylight saving time is on: the result is an hour later. -/
theorem local_round_trip_dst :
    roundTrip gregorianLibrary { gmtOffset := some (-60), isdst := true } 1000000000 {} =
      some 1000003600 := by
  decide +kernel

end Clib4.Time
