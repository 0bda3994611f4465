import Clib4.Base.Splice
import Clib4.Errno

/-!
# Files as dos.library presents them

A file handle of dos.library, on an ordinary seekable file: the file's bytes and the
position of the handle.  A request to the system may fail or be served in part (the
disk is full, the medium is bad, there is no memory); which of the coming requests do
is part of the state, as the list `answers`, so that every behaviour of the system is
one value of that list.  An exhausted list stands for a system that serves every
request in full.

## Main definitions

* `DosFile`, `DosAnswer` — a handle, and what a request to the system meets.
* `DosFile.changeFilePosition` — `ChangeFilePosition`, which fails outside the file.
-/

namespace Clib4

open Splice

/-- Conversion to a signed 32-bit type (`int`, `long`, `LONG` of the target). -/
def toInt32 (z : ℤ) : ℤ := z.bmod (2 ^ 32)

/-- Conversion to a signed 64-bit type (`int64_t`, `_off64_t`). -/
def toInt64 (z : ℤ) : ℤ := z.bmod (2 ^ 64)

/-- `LONG_MAX` of `limits.h`; also the largest size an object of the target can have. -/
def longMax : ℕ := 2147483647

theorem toInt32_of_le {z : ℤ} (h₁ : -(2 ^ 31) ≤ z) (h₂ : z ≤ longMax) : toInt32 z = z := by
  unfold toInt32
  unfold longMax at h₂
  rw [Int.bmod_def]
  split <;> omega

theorem toInt64_of_le {z : ℤ} (h₁ : -(2 ^ 63) ≤ z) (h₂ : z < 2 ^ 63) : toInt64 z = z := by
  unfold toInt64
  rw [Int.bmod_def]
  split <;> omega

/-- What one request to the system meets. -/
inductive DosAnswer
  /-- The request is served in full. -/
  | full
  /-- At most `k` bytes are transferred. -/
  | short (k : ℕ)
  /-- The request fails, and `IoErr()` tells why. -/
  | fail (ioErr : IoErr)
  deriving DecidableEq, Repr

/-- A dos.library file handle. -/
structure DosFile where
  /-- The bytes of the file. -/
  contents : List UInt8
  /-- `GetFilePosition`. -/
  position : ℕ
  /-- What the coming requests to the system meet. -/
  answers : List DosAnswer := []
  deriving DecidableEq, Repr

namespace DosFile

/-- The answer to the next request. -/
def answer (f : DosFile) : DosAnswer := f.answers.headD .full

/-- The handle once the next request has been answered. -/
def answered (f : DosFile) : DosFile := { f with answers := f.answers.tail }

/-- `GetFileSize`. -/
def size (f : DosFile) : ℕ := f.contents.length

/-- The number of bytes that an answer lets through, out of `n`. -/
def transferred (n : ℕ) : DosAnswer → Except IoErr ℕ
  | .full => .ok n
  | .short k => .ok (min k n)
  | .fail ioErr => .error ioErr

/-- `Read`: the bytes read, from the position of the handle on. -/
def read (f : DosFile) (n : ℕ) : DosFile × Except IoErr (List UInt8) :=
  match transferred n f.answer with
  | .ok k =>
    let data := window f.contents f.position k
    ({ f.answered with position := f.position + data.length }, .ok data)
  | .error ioErr => (f.answered, .error ioErr)

/-- `Write`: the number of bytes written, at the position of the handle. -/
def write (f : DosFile) (data : List UInt8) : DosFile × Except IoErr ℕ :=
  match transferred data.length f.answer with
  | .ok k =>
    ({ f.answered with
        contents := writeAt f.contents f.position (data.take k)
        position := f.position + (data.take k).length }, .ok (data.take k).length)
  | .error ioErr => (f.answered, .error ioErr)

/-- The `OFFSET_...` modes of `ChangeFilePosition`, named as the `SEEK_...` modes of
`stdio.h` that they translate. -/
inductive SeekMode
  | set | cur | «end»
  deriving DecidableEq, Repr

/-- The position that an offset in the given mode denotes. -/
def target (f : DosFile) (offset : ℤ) : SeekMode → ℤ
  | .set => offset
  | .cur => f.position + offset
  | .end => f.size + offset

/-- `ChangeFilePosition`: `none` for a position outside the file, where the handle
stays where it is. -/
def changeFilePosition (f : DosFile) (offset : ℤ) (mode : SeekMode) : Option DosFile :=
  if 0 ≤ f.target offset mode ∧ f.target offset mode ≤ f.size then
    some { f with position := (f.target offset mode).toNat }
  else
    none

/-! ### Requests that are served in full -/

variable {f : DosFile}

@[simp] theorem answer_of_answers_nil (h : f.answers = []) : f.answer = .full := by
  simp [answer, h]

@[simp] theorem answered_of_answers_nil (h : f.answers = []) : f.answered = f := by
  cases f
  simp_all [answered]

theorem read_of_answers_nil (h : f.answers = []) (n : ℕ) :
    f.read n = ({ f with position := f.position + (window f.contents f.position n).length },
      .ok (window f.contents f.position n)) := by
  simp [read, answer_of_answers_nil h, answered_of_answers_nil h, transferred]

theorem write_of_answers_nil (h : f.answers = []) (data : List UInt8) :
    f.write data = ({ f with contents := writeAt f.contents f.position data
                             position := f.position + data.length }, .ok data.length) := by
  simp [write, answer_of_answers_nil h, answered_of_answers_nil h, transferred]

theorem changeFilePosition_of_mem {offset : ℤ} {mode : SeekMode} {p : ℕ}
    (ht : f.target offset mode = p) (hp : p ≤ f.size) :
    f.changeFilePosition offset mode = some { f with position := p } := by
  rw [changeFilePosition, ht, if_pos ⟨by omega, by omega⟩]
  simp

end DosFile

end Clib4
