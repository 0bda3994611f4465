import Clib4.Base.Splice

/-!
# A sequence with one position

The plainest model of a file: its elements and one position, at which everything is read
and written.  A position never lies behind the end.

## Main definitions

* `Tape` — the elements and the position.
* `Tape.write`, `Tape.read`, `Tape.seek`, `Tape.padTo` — the operations.
* `Tape.line` — the elements up to and including a separator, but at most `n` of them.

## Main results

* `Tape.write_write` — two writes are one write of the concatenation.
* `Tape.lineLength_of_notMem`, `Tape.lineLength_of_mem` — where a line goes on, and where it ends.
-/

open Splice

variable {α : Type*}

/-- A sequence with one position. -/
structure Tape (α : Type*) where
  cells : List α
  head : ℕ
  head_le : head ≤ cells.length

namespace Tape

open List

@[ext] theorem ext {t u : Tape α} (hc : t.cells = u.cells) (hh : t.head = u.head) : t = u := by
  cases t
  simp_all

/-- Store `bs` at the position, and move behind it. -/
def write (t : Tape α) (bs : List α) : Tape α where
  cells := writeAt t.cells t.head bs
  head := t.head + bs.length
  head_le := le_length_writeAt t.head_le bs

/-- The elements from the position on. -/
def rest (t : Tape α) : List α := t.cells.drop t.head

/-- Move forward by `n`, but not past the end. -/
def advance (t : Tape α) (n : ℕ) : Tape α where
  cells := t.cells
  head := min (t.head + n) t.cells.length
  head_le := Nat.min_le_right _ _

/-- The next `n` elements, fewer at the end. -/
def read (t : Tape α) (n : ℕ) : Tape α × List α := (t.advance n, t.rest.take n)

/-- Move to a position of the sequence. -/
def seek (t : Tape α) (p : ℕ) (h : p ≤ t.cells.length) : Tape α where
  cells := t.cells
  head := p
  head_le := h

/-- Move to a position behind the end, and fill up with `a` to get there. -/
def padTo (t : Tape α) (a : α) (p : ℕ) : Tape α where
  cells := t.cells ++ List.replicate (p - t.cells.length) a
  head := min p (t.cells ++ List.replicate (p - t.cells.length) a).length
  head_le := Nat.min_le_right _ _

@[simp] theorem cells_write (t : Tape α) (bs : List α) :
    (t.write bs).cells = writeAt t.cells t.head bs := rfl

@[simp] theorem head_write (t : Tape α) (bs : List α) :
    (t.write bs).head = t.head + bs.length := rfl

@[simp] theorem cells_advance (t : Tape α) (n : ℕ) : (t.advance n).cells = t.cells := rfl

@[simp] theorem head_advance (t : Tape α) (n : ℕ) :
    (t.advance n).head = min (t.head + n) t.cells.length := rfl

@[simp] theorem cells_seek (t : Tape α) (p : ℕ) (h : p ≤ t.cells.length) :
    (t.seek p h).cells = t.cells := rfl

@[simp] theorem head_seek (t : Tape α) (p : ℕ) (h : p ≤ t.cells.length) :
    (t.seek p h).head = p := rfl

theorem head_padTo {t : Tape α} (a : α) {p : ℕ} : (t.padTo a p).head = p := by
  simp only [padTo, length_append, length_replicate]
  omega

theorem length_rest (t : Tape α) : t.rest.length = t.cells.length - t.head := by
  simp [rest]

@[simp] theorem write_nil (t : Tape α) : t.write [] = t :=
  Tape.ext (writeAt_nil _ _) rfl

/-- Two writes are one write of the concatenation. -/
theorem write_write (t : Tape α) (as bs : List α) :
    (t.write as).write bs = t.write (as ++ bs) :=
  Tape.ext (writeAt_writeAt t.head_le as bs) (by simp [Nat.add_assoc])

@[simp] theorem advance_zero (t : Tape α) : t.advance 0 = t :=
  Tape.ext rfl (by simp [t.head_le])

theorem advance_advance (t : Tape α) (m n : ℕ) :
    (t.advance m).advance n = t.advance (m + n) :=
  Tape.ext rfl (by simp only [head_advance, cells_advance]; omega)

theorem rest_advance (t : Tape α) (n : ℕ) : (t.advance n).rest = t.rest.drop n := by
  simp only [rest, cells_advance, head_advance, drop_drop]
  rcases Nat.le_total (t.head + n) t.cells.length with h | h
  · rw [Nat.min_eq_left h]
  · rw [Nat.min_eq_right h, drop_of_length_le h, drop_length]

/-- Past the end there is nothing to advance over. -/
theorem advance_min (t : Tape α) (n : ℕ) : t.advance (min n t.rest.length) = t.advance n :=
  Tape.ext rfl (by simp only [head_advance, length_rest]; omega)

/-! ### Lines -/

/-- How many of the elements of `l` belong to the next line: up to and including the first
`sep`, but at most `n`. -/
def lineLength [DecidableEq α] (sep : α) : List α → ℕ → ℕ
  | _, 0 => 0
  | [], _ + 1 => 0
  | a :: l, n + 1 => if a = sep then 1 else lineLength sep l n + 1

variable [DecidableEq α] {sep : α}

@[simp] theorem lineLength_zero (l : List α) : lineLength sep l 0 = 0 := by
  cases l <;> rfl

@[simp] theorem lineLength_nil (n : ℕ) : lineLength sep ([] : List α) n = 0 := by
  cases n <;> rfl

theorem lineLength_cons_self (l : List α) (n : ℕ) : lineLength sep (sep :: l) (n + 1) = 1 := by
  simp [lineLength]

theorem lineLength_cons_of_ne {a : α} (h : a ≠ sep) (l : List α) (n : ℕ) :
    lineLength sep (a :: l) (n + 1) = lineLength sep l n + 1 := by
  simp [lineLength, h]

/-- In front of the separator a line goes on. -/
theorem lineLength_of_notMem {l : List α} {k n : ℕ} (hk : k ≤ n) (hl : k ≤ l.length)
    (h : sep ∉ l.take k) : lineLength sep l n = k + lineLength sep (l.drop k) (n - k) := by
  induction l generalizing k n with
  | nil =>
    have : k = 0 := by simpa using hl
    subst this
    simp
  | cons a l ih =>
    cases k with
    | zero => simp
    | succ k =>
      obtain ⟨n, rfl⟩ : ∃ m, n = m + 1 := ⟨n - 1, by omega⟩
      simp only [take_succ_cons, mem_cons, not_or] at h
      rw [lineLength_cons_of_ne (Ne.symm h.1), ih (by omega) (by simpa using hl) h.2,
        drop_succ_cons]
      have : n + 1 - (k + 1) = n - k := by omega
      rw [this]
      omega

/-- A line ends at its separator. -/
theorem lineLength_of_mem {l : List α} {k n : ℕ} (hk : k < n) (h : sep ∉ l.take k)
    (hsep : l[k]? = some sep) : lineLength sep l n = k + 1 := by
  have hl : k < l.length := by
    by_contra hge
    rw [getElem?_eq_none (by omega)] at hsep
    cases hsep
  rw [lineLength_of_notMem (by omega) (by omega) h]
  obtain ⟨m, hm⟩ : ∃ m, n - k = m + 1 := ⟨n - k - 1, by omega⟩
  have hdrop : l.drop k = sep :: l.drop (k + 1) := by
    rw [drop_eq_getElem_cons hl]
    rw [getElem?_eq_getElem hl, Option.some.injEq] at hsep
    rw [hsep]
  rw [hdrop, hm, lineLength_cons_self]

/-- The next line of the tape, of at most `n` elements. -/
def line (sep : α) (t : Tape α) (n : ℕ) : Tape α × List α := t.read (lineLength sep t.rest n)

end Tape
