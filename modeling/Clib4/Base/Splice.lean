import Mathlib.Tactic

/-!
# Overwriting part of a sequence

`writeAt l p bs` is the sequence `l` with `bs` stored from position `p` on; it grows
when `bs` reaches past the end.  `window l p k` is the part of at most `k` elements
that starts at `p`.  A file and a memory buffer are both such sequences.

## Main results

* `writeAt_writeAt` — two writes in a row are one write of the concatenation.
* `writeAt_length_self` — a write at the end appends.
* `take_writeAt` — what a write leaves in front of its own end.
-/

namespace Splice

open List

variable {α : Type*}

/-- The sequence `l` with `bs` stored from position `p` on. -/
def writeAt (l : List α) (p : ℕ) (bs : List α) : List α :=
  l.take p ++ bs ++ l.drop (p + bs.length)

/-- At most `k` elements of `l`, from position `p` on. -/
def window (l : List α) (p k : ℕ) : List α := (l.drop p).take k

@[simp] theorem writeAt_nil (l : List α) (p : ℕ) : writeAt l p [] = l := by
  simp [writeAt]

variable {l : List α} {p : ℕ}

theorem length_writeAt (hp : p ≤ l.length) (bs : List α) :
    (writeAt l p bs).length = max l.length (p + bs.length) := by
  simp only [writeAt, length_append, length_take, length_drop]
  omega

/-- A write that stays inside the sequence does not change its length. -/
theorem length_writeAt_of_le {bs : List α} (h : p + bs.length ≤ l.length) :
    (writeAt l p bs).length = l.length := by
  rw [length_writeAt (by omega)]
  omega

theorem le_length_writeAt (hp : p ≤ l.length) (bs : List α) :
    p + bs.length ≤ (writeAt l p bs).length := by
  rw [length_writeAt hp]
  omega

/-- A write at the end of the sequence appends. -/
theorem writeAt_length_self (l bs : List α) : writeAt l l.length bs = l ++ bs := by
  simp [writeAt]

/-- In front of the end of a write stand the untouched elements and what was written. -/
theorem take_writeAt (hp : p ≤ l.length) (bs : List α) :
    (writeAt l p bs).take (p + bs.length) = l.take p ++ bs := by
  have hlen : (l.take p ++ bs).length = p + bs.length := by
    simp [Nat.min_eq_left hp]
  rw [writeAt, ← hlen, take_left]

theorem drop_writeAt (hp : p ≤ l.length) (bs : List α) :
    (writeAt l p bs).drop (p + bs.length) = l.drop (p + bs.length) := by
  have hlen : (l.take p ++ bs).length = p + bs.length := by
    simp [Nat.min_eq_left hp]
  conv_lhs => rw [writeAt, ← hlen, drop_left]
  rw [hlen]

/-- From the beginning of a write on stand what was written and the untouched elements. -/
theorem drop_writeAt_self (hp : p ≤ l.length) (bs : List α) :
    (writeAt l p bs).drop p = bs ++ l.drop (p + bs.length) := by
  have hlen : (l.take p).length = p := by simp [Nat.min_eq_left hp]
  rw [writeAt, append_assoc, drop_left' hlen]

/-- **Two writes in a row are one write of the concatenation.** -/
theorem writeAt_writeAt (hp : p ≤ l.length) (as bs : List α) :
    writeAt (writeAt l p as) (p + as.length) bs = writeAt l p (as ++ bs) := by
  have hdrop : (writeAt l p as).drop (p + as.length + bs.length)
      = l.drop (p + as.length + bs.length) := by
    rw [← drop_drop, drop_writeAt hp, drop_drop]
  rw [writeAt, take_writeAt hp, hdrop, writeAt, length_append, Nat.add_assoc,
    append_assoc, append_assoc, append_assoc, append_assoc]

theorem length_window (l : List α) (p k : ℕ) :
    (window l p k).length = min k (l.length - p) := by
  simp [window]

/-- A window that is cut off at the end is also the window of its own length. -/
theorem window_length_self (l : List α) (p k : ℕ) :
    window l p (window l p k).length = window l p k := by
  rw [window, window, length_take, ← take_take, take_length]

/-- A window of a window. -/
theorem window_window {k q j : ℕ} (h : q + j ≤ k) :
    window (window l p k) q j = window l (p + q) j := by
  simp only [window, drop_take, take_take, drop_drop]
  rw [Nat.min_eq_left (by omega)]

theorem window_take {n k : ℕ} (h : p + k ≤ n) : window (l.take n) p k = window l p k := by
  simp only [window, drop_take, take_take]
  rw [Nat.min_eq_left (by omega)]

end Splice
