import Clib4.Base.Loop

/-!
# Date stamps

A `struct DateStamp` counts days, the minutes of the day and the ticks of the minute.  A stamp that
the system gives has both counts below their limits; sums are brought back to such stamps by
`fix_datestamp`.

## Main definitions

* `DateStamp`, `ClockReading` — a stamp, and one within the limits.

## Main results

* `toTicks_addDates_timeval` — **a time that is added counts in whole ticks.**
-/

namespace Clib4.Time

/-- `struct DateStamp`. -/
structure DateStamp where
  days : ℕ
  minute : ℕ
  tick : ℕ
  deriving DecidableEq, Repr

def ticksPerSecond : ℕ := 50

def ticksPerMinute : ℕ := 60 * ticksPerSecond

def minutesPerDay : ℕ := 24 * 60

namespace DateStamp

/-- The time in ticks. -/
def toTicks (ds : DateStamp) : ℕ := (ds.days * minutesPerDay + ds.minute) * ticksPerMinute + ds.tick

/-- Both counts are below their limits. -/
def Normal (ds : DateStamp) : Prop := ds.minute < minutesPerDay ∧ ds.tick < ticksPerMinute

/-- A day is taken out of the minutes. -/
def carryDay (ds : DateStamp) : DateStamp :=
  if minutesPerDay ≤ ds.minute then
    { ds with days := ds.days + 1, minute := ds.minute - minutesPerDay }
  else ds

/-- A minute is taken out of the ticks. -/
def carryMinute (ds : DateStamp) : DateStamp :=
  if ticksPerMinute ≤ ds.tick then
    { ds with minute := ds.minute + 1, tick := ds.tick - ticksPerMinute }
  else ds

end DateStamp

open DateStamp

/-- One round of the loop of `fix_datestamp`. -/
def fixBody (ds : DateStamp) : DateStamp ⊕ DateStamp :=
  if minutesPerDay ≤ ds.minute ∨ ticksPerMinute ≤ ds.tick then .inl ds.carryDay.carryMinute
  else .inr ds

def fixDatestamp (ds : DateStamp) : DateStamp :=
  (Loop.run fixBody (ds.minute + ds.tick + 1) ds).getD ds

theorem toTicks_carryDay (ds : DateStamp) : ds.carryDay.toTicks = ds.toTicks := by
  unfold carryDay
  split
  · simp only [toTicks, minutesPerDay, ticksPerMinute, ticksPerSecond] at *
    omega
  · rfl

theorem toTicks_carryMinute (ds : DateStamp) : ds.carryMinute.toTicks = ds.toTicks := by
  unfold carryMinute
  split
  · simp only [toTicks, ticksPerMinute, ticksPerSecond] at *
    omega
  · rfl

theorem carry_lt {ds : DateStamp} (h : minutesPerDay ≤ ds.minute ∨ ticksPerMinute ≤ ds.tick) :
    ds.carryDay.carryMinute.minute + ds.carryDay.carryMinute.tick < ds.minute + ds.tick := by
  have hday : ds.carryDay.tick = ds.tick ∧
      ((minutesPerDay ≤ ds.minute ∧ ds.carryDay.minute = ds.minute - minutesPerDay) ∨
        (ds.minute < minutesPerDay ∧ ds.carryDay.minute = ds.minute)) := by
    unfold carryDay
    split
    · next hm => exact ⟨rfl, .inl ⟨hm, rfl⟩⟩
    · next hm => exact ⟨rfl, .inr ⟨Nat.not_le.1 hm, rfl⟩⟩
  have hlimits : minutesPerDay = 1440 ∧ ticksPerMinute = 3000 := ⟨rfl, rfl⟩
  unfold carryMinute
  by_cases ht : ticksPerMinute ≤ ds.carryDay.tick
  · rw [if_pos ht]
    show ds.carryDay.minute + 1 + (ds.carryDay.tick - ticksPerMinute) < _
    omega
  · rw [if_neg ht]
    omega

theorem fixDatestamp_spec (ds : DateStamp) :
    (fixDatestamp ds).Normal ∧ (fixDatestamp ds).toTicks = ds.toTicks := by
  refine Loop.getD_run_spec (fun a => a.toTicks = ds.toTicks) (fun a => a.minute + a.tick)
    (fun b => b.Normal ∧ b.toTicks = ds.toTicks) ?_ _ ds ds rfl (Nat.lt_succ_self _)
  intro a ha
  by_cases h : minutesPerDay ≤ a.minute ∨ ticksPerMinute ≤ a.tick
  · refine .inl ⟨a.carryDay.carryMinute, if_pos h, ?_, carry_lt h⟩
    dsimp only
    rw [toTicks_carryMinute, toTicks_carryDay, ha]
  · rw [not_or, Nat.not_le, Nat.not_le] at h
    exact .inr ⟨a, if_neg (by omega), h, ha⟩

/-- What the clock of the system shows. -/
structure ClockReading extends DateStamp where
  minute_lt : minute < minutesPerDay
  tick_lt : tick < ticksPerMinute

/-- A `struct timeval` with less than a second of microseconds. -/
structure Timeval where
  sec : ℕ
  usec : ℕ
  usec_lt : usec < 1000000

/-- The time in microseconds. -/
def Timeval.toMicros (tv : Timeval) : ℕ := tv.sec * 1000000 + tv.usec

def timevalToDatestamp (tv : Timeval) : DateStamp :=
  fixDatestamp {
    days := tv.sec / (24 * 60 * 60)
    minute := tv.sec % (24 * 60 * 60) / 60
    tick := tv.sec % 60 * ticksPerSecond + ticksPerSecond * tv.usec / 1000000 }

def addDates (ds other : DateStamp) : DateStamp :=
  fixDatestamp {
    days := ds.days + other.days
    minute := ds.minute + other.minute
    tick := ds.tick + other.tick }

/-- `CompareDates` of dos.library: negative if the first stamp is the later one. -/
def compareDates (a b : DateStamp) : ℤ :=
  if a.days ≠ b.days then (b.days : ℤ) - a.days
  else if a.minute ≠ b.minute then (b.minute : ℤ) - a.minute
  else (b.tick : ℤ) - a.tick

/-- **A time that is added counts in whole ticks.** -/
theorem toTicks_addDates_timeval (ds : DateStamp) (tv : Timeval) :
    (addDates ds (timevalToDatestamp tv)).toTicks =
      ds.toTicks + (ticksPerSecond * tv.sec + ticksPerSecond * tv.usec / 1000000) := by
  have htv : (timevalToDatestamp tv).toTicks =
      ticksPerSecond * tv.sec + ticksPerSecond * tv.usec / 1000000 := by
    rw [timevalToDatestamp, (fixDatestamp_spec _).2]
    simp only [toTicks, minutesPerDay, ticksPerMinute, ticksPerSecond]
    omega
  rw [← htv, addDates, (fixDatestamp_spec _).2]
  simp only [toTicks]
  ring

theorem compareDates_le_zero_iff {a b : DateStamp} (ha : a.Normal) (hb : b.Normal) :
    compareDates a b ≤ 0 ↔ b.toTicks ≤ a.toTicks := by
  obtain ⟨ham, hat⟩ := ha
  obtain ⟨hbm, hbt⟩ := hb
  unfold compareDates toTicks
  simp only [minutesPerDay, ticksPerMinute, ticksPerSecond] at *
  split
  · omega
  · split <;> omega

end Clib4.Time
