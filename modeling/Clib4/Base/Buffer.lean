import Clib4.Base.Splice

/-!
# Buffers of a fixed size

A buffer is a sequence whose length is part of its type.  A write is refused when it would
touch a position outside; one that is carried out is a `Splice.writeAt`.  The lemmas say what a
buffer begins with, and what a write at its front leaves of the rest: that is all that is needed
of a program that rewrites a buffer in place from the left to the right.

## Main definitions

* `Buffer α size` — the buffer.
* `Buffer.write`, `Buffer.move` — a copy to a position, if it stays inside.

## Main results

* `Buffer.exists_write` — a write that stays inside is carried out.
* `Buffer.append_prefix_of_write` — a write behind a known beginning extends it.
* `Buffer.drop_of_write` — what stands behind a write is left alone.
-/

open Splice

/-- A sequence of a fixed length. -/
structure Buffer (α : Type*) (size : ℕ) where
  cells : List α
  length_cells : cells.length = size
  deriving DecidableEq

namespace Buffer

open List

variable {α : Type*} {size : ℕ} {b b' : Buffer α size} {p : ℕ} {xs out : List α}

/-- Copy `xs` to position `p`; refused when a position outside of the buffer would be written. -/
def write (b : Buffer α size) (p : ℕ) (xs : List α) : Option (Buffer α size) :=
  if h : p + xs.length ≤ size then
    some ⟨writeAt b.cells p xs, by
      rw [length_writeAt_of_le (b.length_cells.symm ▸ h), length_cells]⟩
  else none

/-- Copy `n` elements from position `q` to position `p`; the two parts may overlap. -/
def move (b : Buffer α size) (p q n : ℕ) : Option (Buffer α size) :=
  if q + n ≤ size then b.write p (window b.cells q n) else none

/-- **A write that stays inside is carried out.** -/
theorem exists_write (b : Buffer α size) (h : p + xs.length ≤ size) :
    ∃ b', b.write p xs = some b' ∧ b'.cells = writeAt b.cells p xs :=
  ⟨⟨writeAt b.cells p xs, _⟩, dif_pos h, rfl⟩

/-- A write that is carried out stays inside. -/
theorem le_of_write (h : b.write p xs = some b') : p + xs.length ≤ size := by
  by_contra hout
  rw [write, dif_neg hout] at h
  cases h

/-- A write behind a known beginning extends it. -/
theorem append_prefix_of_write (hout : out <+: b.cells)
    (hcells : b'.cells = writeAt b.cells out.length xs) : out ++ xs <+: b'.cells := by
  obtain ⟨rest, hrest⟩ := hout
  rw [hcells, writeAt, ← hrest, take_left]
  exact prefix_append _ _

/-- A write to the front is what the buffer begins with. -/
theorem begins_of_write (hcells : b'.cells = writeAt b.cells 0 xs) : xs <+: b'.cells :=
  append_prefix_of_write nil_prefix hcells

/-- What stands behind a write is left alone. -/
theorem drop_of_write {k : ℕ} (hp : p + xs.length ≤ size) (hk : p + xs.length ≤ k)
    (hcells : b'.cells = writeAt b.cells p xs) : b'.cells.drop k = b.cells.drop k := by
  have hlen := b.length_cells
  obtain ⟨d, rfl⟩ := Nat.exists_eq_add_of_le hk
  rw [hcells, ← drop_drop, drop_writeAt (by omega), drop_drop]

/-- A write in front of a known part leaves that part where it is. -/
theorem append_prefix_of_write_front {ys : List α} (hxs : xs <+: b.cells.drop ys.length)
    (hcells : b'.cells = writeAt b.cells 0 ys) : ys ++ xs <+: b'.cells := by
  rw [hcells, writeAt, Nat.zero_add]
  exact (prefix_append_right_inj ys).2 hxs

end Buffer
