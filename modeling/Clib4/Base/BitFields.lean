import Mathlib.Tactic

/-!
# Bit fields of numbers

A field of a number is cut out by a mask and a shift, and put in place by a shift and a disjunction.
These are quotients and remainders, and sums, by powers of two.

## Main results

* `BitFields.and_shiftRight` — a field that is cut out.
* `BitFields.or_of_lt`, `BitFields.shiftLeft_or` — fields that are put together.
* `BitFields.and_of_dvd` — the low field of such a number.
-/

namespace BitFields

/-- A mask of `k` bits from the bit `i` on, and the shift that brings them to the end. -/
theorem and_shiftRight (w i k : ℕ) :
    (w &&& ((2 ^ k - 1) <<< i)) >>> i = w / 2 ^ i % 2 ^ k := by
  rw [Nat.shiftRight_and_distrib, Nat.shiftLeft_shiftRight, Nat.and_two_pow_sub_one_eq_mod,
    Nat.shiftRight_eq_div_pow]

/-- A field below the bits of a tag. -/
theorem or_of_lt {k x : ℕ} (tag : ℕ) (hx : x < 2 ^ k) : (2 ^ k * tag) ||| x = 2 ^ k * tag + x :=
  (Nat.two_pow_add_eq_or_of_lt hx tag).symm

/-- Two fields side by side. -/
theorem shiftLeft_or {k x : ℕ} (a : ℕ) (hx : x < 2 ^ k) : (a <<< k) ||| x = 2 ^ k * a + x := by
  rw [Nat.shiftLeft_eq, Nat.mul_comm, or_of_lt a hx]

/-- The low field of a number with a tag. -/
theorem and_of_dvd {k x : ℕ} (tag : ℕ) (hx : x < 2 ^ k) :
    (2 ^ k * tag + x) &&& (2 ^ k - 1) = x := by
  rw [Nat.and_two_pow_sub_one_eq_mod, Nat.mul_add_mod, Nat.mod_eq_of_lt hx]

end BitFields
