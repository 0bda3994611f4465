import Clib4.Time.DateStamp
import Clib4.Time.LocalTime

/-!
# Times and date stamps

`__convert_time_to_datestamp` takes a time apart into a local date stamp with 64-bit numbers, and
`__convert_datestamp_to_time` puts it together with 32-bit ones.

## Main definitions

* `convertTimeToDatestamp`, `convertDatestampToTime` — the functions; an overflow leaves them
  without a value.

## Main results

* `stamp_round_trip_iff` — **when the stamp leads back to the time.**
-/

namespace Clib4.Time

/-- The fields of a `struct DateStamp`, as the conversions use them. -/
structure StampFields where
  days : Int32
  minute : Int32
  tick : Int32
  deriving DecidableEq

def convertTimeToDatestamp (z : Zone) (t : ℤ) : Option StampFields := do
  let t ← asLongLong (t - unixTimeOffset)
  let t ← asLongLong (t - (← asInt z.offset))
  return ⟨.ofInt (t.tdiv 86400), .ofInt ((t.tmod 86400).tdiv 60),
    .ofInt (t.tmod 60 * ticksPerSecond)⟩

/-- `__convert_datestamp_to_time`: the sum up to the offset is an `int`. -/
def convertDatestampToTime (z : Zone) (ds : StampFields) : Option ℤ := do
  let result ← asInt (unixTimeOffset + (← asInt (ds.days.toInt * 86400)))
  let result ← asInt (result + (← asInt (ds.minute.toInt * 60)))
  let result ← asInt (result + ds.tick.toInt.tdiv ticksPerSecond)
  asLongLong (result + (← asInt z.offset))

/-- The stamp is within its limits, and leads back to the time. -/
def StampRoundTrip (z : Zone) (t : ℤ) : Prop :=
  ∃ ds, convertTimeToDatestamp z t = some ds ∧
    (0 ≤ ds.minute.toInt ∧ ds.minute.toInt < minutesPerDay) ∧
    (0 ≤ ds.tick.toInt ∧ ds.tick.toInt < ticksPerMinute) ∧ convertDatestampToTime z ds = some t

/-- **When the stamp leads back to the time**: if the local time is an `int`, and the offset in
seconds as well. -/
theorem stamp_round_trip_iff (z : Zone) {t : ℤ} (hlocal : unixTimeOffset ≤ t - z.offset)
    (hdays : (t - z.offset - unixTimeOffset) / 86400 ≤ intMax) :
    StampRoundTrip z t ↔ t - z.offset ≤ intMax ∧ intMin ≤ z.offset ∧ z.offset ≤ intMax := by
  obtain ⟨s, hs⟩ : ∃ s, s = t - unixTimeOffset - z.offset := ⟨_, rfl⟩
  have hunix : unixTimeOffset = 252460800 := rfl
  have hticks : (ticksPerSecond : ℤ) = 50 := rfl
  have hlimits : (minutesPerDay : ℤ) = 1440 ∧ (ticksPerMinute : ℤ) = 3000 := ⟨rfl, rfl⟩
  unfold intMax at hdays
  have hday : (Int32.ofInt (s / 86400)).toInt = s / 86400 :=
    Int32.toInt_ofInt_of_le (by omega) (by omega)
  have hminute : (Int32.ofInt (s % 86400 / 60)).toInt = s % 86400 / 60 :=
    Int32.toInt_ofInt_of_le (by omega) (by omega)
  have htick : (Int32.ofInt (s % 60 * 50)).toInt = s % 60 * 50 :=
    Int32.toInt_ofInt_of_le (by omega) (by omega)
  simp only [StampRoundTrip, convertTimeToDatestamp, convertDatestampToTime, ← hs,
    Option.bind_eq_bind, asLongLong_bind_eq_some, asInt_bind_eq_some, asLongLong_eq_some,
    Option.pure_def, Option.some.injEq, hticks]
  rw [Int.tdiv_eq_ediv_of_nonneg (by omega), Int.tmod_eq_emod_of_nonneg (by omega),
    Int.tmod_eq_emod_of_nonneg (by omega), Int.tdiv_eq_ediv_of_nonneg (by omega)]
  unfold intMin intMax
  constructor
  · rintro ⟨ds, ⟨-, hoffset, -, rfl⟩, -, -, hback⟩
    rw [hday, hminute, htick, Int.tdiv_eq_ediv_of_nonneg (by omega)] at hback
    omega
  · rintro ⟨hint, hoffset⟩
    refine ⟨_, ⟨by omega, hoffset, by omega, rfl⟩, ?_⟩
    rw [hday, hminute, htick, Int.tdiv_eq_ediv_of_nonneg (by omega)]
    omega

/-- An hour east of Greenwich, in September 2001. -/
theorem stamp_round_trip_2001 : StampRoundTrip ⟨some (-60), false, 0⟩ 1000000000 :=
  (stamp_round_trip_iff _ (by decide) (by decide)).2 (by decide)

/-- The first second behind the reach of an `int`, in January 2038. -/
theorem stamp_round_trip_2038 :
    convertTimeToDatestamp ⟨none, false, 0⟩ 2147483648 = some ⟨21933, 194, 400⟩ ∧
      convertDatestampToTime ⟨none, false, 0⟩ ⟨21933, 194, 400⟩ = none := by
  decide +kernel

end Clib4.Time
