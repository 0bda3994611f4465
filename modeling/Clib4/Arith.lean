import Clib4.Dos

/-!
# Arithmetic in the types of C

The result of an operation on `int` or `long long` is undefined if it does not fit.  Where this
matters, the operations are followed by a check that has no value then.

## Main definitions

* `asInt`, `asLongLong` — a value, if it fits into the type.
-/

namespace Clib4

def intMin : ℤ := -2147483648

def intMax : ℤ := 2147483647

/-- A value that an `int` has to hold. -/
def asInt (x : ℤ) : Option ℤ := if intMin ≤ x ∧ x ≤ intMax then some x else none

/-- A value that a `long long` has to hold. -/
def asLongLong (x : ℤ) : Option ℤ :=
  if -9223372036854775808 ≤ x ∧ x ≤ 9223372036854775807 then some x else none

theorem asInt_of_le {x : ℤ} (h₁ : -2147483648 ≤ x) (h₂ : x ≤ 2147483647) : asInt x = some x :=
  if_pos ⟨h₁, h₂⟩

theorem asInt_eq_some {x y : ℤ} : asInt x = some y ↔ (intMin ≤ x ∧ x ≤ intMax) ∧ x = y := by
  unfold asInt
  split_ifs with hfits <;> simp [hfits]

theorem asInt_bind_eq_some {β : Type} {x : ℤ} {f : ℤ → Option β} {r : β} :
    (asInt x).bind f = some r ↔ (intMin ≤ x ∧ x ≤ intMax) ∧ f x = some r := by
  unfold asInt
  split_ifs with hfits <;> simp [hfits]

theorem asLongLong_of_le {x : ℤ} (h₁ : -9223372036854775808 ≤ x)
    (h₂ : x ≤ 9223372036854775807) : asLongLong x = some x :=
  if_pos ⟨h₁, h₂⟩

theorem asLongLong_bind_eq_some {β : Type} {x : ℤ} {f : ℤ → Option β} {r : β} :
    (asLongLong x).bind f = some r ↔
      (-9223372036854775808 ≤ x ∧ x ≤ 9223372036854775807) ∧ f x = some r := by
  unfold asLongLong
  split_ifs with hfits <;> simp [hfits]

theorem asLongLong_eq_some {x y : ℤ} : asLongLong x = some y ↔
    (-9223372036854775808 ≤ x ∧ x ≤ 9223372036854775807) ∧ x = y := by
  unfold asLongLong
  split_ifs with hfits <;> simp [hfits]

/-- The division of C rounds towards zero.  Where a remainder must not be negative, the source
corrects both results. -/
def floorDiv (a b : ℤ) : ℤ × ℤ :=
  let q := a.tdiv b
  let r := a.tmod b
  if r < 0 then (q - 1, r + b) else (q, r)

theorem floorDiv_eq (a : ℤ) {b : ℤ} (hb : 0 < b) : floorDiv a b = (a / b, a % b) := by
  have hdiv := Int.mul_tdiv_add_tmod a b
  have hlt : a.tmod b < b := Int.tmod_lt_of_pos a hb
  have hgt : -b < a.tmod b := Int.lt_tmod_of_pos a hb
  unfold floorDiv
  dsimp only
  split_ifs with hneg
  · obtain ⟨hq, hr⟩ := (Int.ediv_emod_unique hb (r := a.tmod b + b) (q := a.tdiv b - 1)).2
      ⟨by linarith, by omega, by omega⟩
    rw [hq, hr]
  · obtain ⟨hq, hr⟩ := (Int.ediv_emod_unique hb (r := a.tmod b) (q := a.tdiv b)).2
      ⟨by linarith, by omega, hlt⟩
    rw [hq, hr]

end Clib4
