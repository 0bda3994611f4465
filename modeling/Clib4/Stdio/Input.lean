import Clib4.Stdio.Iob

/-!
# Reading from a stream

`fgetc`, `fgets` and `fread`.  The two bulk functions copy what the buffer holds and then ask
for one more character, which fills the buffer again; `fread` goes past an empty buffer when
it is to read at least as much as the buffer holds.

## Main definitions

* `fgetc`, `fgets`, `fread` — the functions of `stdio.h`.
-/

namespace Clib4

open Splice

variable {σ : Type} (dev : Device σ)

def fgetc (f : Iob σ) : Iob σ × ℤ :=
  match fgetcCheck dev f with
  | (f, .error) => (f, EOF)
  | (f, .ok) => getc dev f

/-! ### `fgets` -/

/-- The variables of the loop of `fgets`: the stream, the characters stored so far and the
number of characters that still fit. -/
abbrev FgetsState (σ : Type) := Iob σ × List UInt8 × ℕ

/-- How the loop is left: with the string, or with `NULL`. -/
abbrev FgetsExit (σ : Type) := Iob σ × Option (List UInt8)

/-- The tail of an iteration: read one character. -/
def fgetsChar : FgetsState σ → FgetsState σ ⊕ FgetsExit σ
  | (f, s, n) =>
    let (f, c) := getc dev f
    if c = EOF then
      if f.error then .inr (f, none)
      else .inr (f, if s = [] then none else some s)
    else if c = 10 then .inr (f, some (s ++ [toByte c]))
    else .inl (f, s ++ [toByte c], n - 1)

/-- An iteration of the loop of `fgets`. -/
def fgetsBody : FgetsState σ → FgetsState σ ⊕ FgetsExit σ
  | (f, s, n) =>
    if n = 0 then .inr (f, some s)
    else if f.bufferPosition < f.bufferReadBytes then
      let k := min (f.bufferReadBytes - f.bufferPosition) n
      let chunk := window f.buffer f.bufferPosition k
      match chunk.findIdx? (· == 10) with
      | some i =>
        -- a line feed in the buffer concludes the line
        .inr ({ f with bufferPosition := f.bufferPosition + (i + 1) },
          some (s ++ chunk.take (i + 1)))
      | none =>
        let f := { f with bufferPosition := f.bufferPosition + k }
        if n - k = 0 then .inr (f, some (s ++ chunk))
        else fgetsChar dev (f, s ++ chunk, n - k)
    else fgetsChar dev (f, s, n)

/-- `fgets`, into a buffer of `n` characters: the string without its terminating zero, or
`none` for `NULL`. -/
def fgets (f : Iob σ) (n : ℤ) : Iob σ × Option (List UInt8) :=
  if n ≤ 0 then (f, none)
  else
    match fgetcCheck dev f with
    | (f, .error) => (f, none)
    | (f, .ok) =>
      let room := (n - 1).toNat
      (Loop.run (fgetsBody dev) (room + 1) (f.clearerr, [], room)).getD (f, none)

/-! ### `fread` -/

/-- The variables of the loop of `fread`: the stream, the bytes stored so far and
`total_size`. -/
abbrev FreadState (σ : Type) := Iob σ × List UInt8 × ℕ

/-- How the loop is left: `none` for a jump to the exit, where the result is still zero. -/
abbrev FreadExit (σ : Type) := Iob σ × Option (List UInt8)

/-- Read `total` bytes past the buffer. -/
def freadThrough : FreadState σ → FreadExit σ
  | (f, data, total) =>
    let (d, n, bytes) := dev.read f.device total
    if n = -1 then ({ f with device := d, error := true }, none)
    else ({ f with device := d, eofReached := f.eofReached || n == 0 }, some (data ++ bytes))

/-- The tail of an iteration: read one character. -/
def freadChar : FreadState σ → FreadState σ ⊕ FreadExit σ
  | (f, data, total) =>
    let (f, c) := getc dev f
    if c = EOF then .inr (f, some data) else .inl (f, data ++ [toByte c], total - 1)

/-- An iteration of the loop of `fread`. -/
def freadBody : FreadState σ → FreadState σ ⊕ FreadExit σ
  | (f, data, total) =>
    if total = 0 then .inr (f, some data)
    else if f.bufferReadBytes = 0 ∧ f.bufferSize ≤ total then
      .inr (freadThrough dev (f, data, total))
    else if f.bufferPosition < f.bufferReadBytes then
      let k := min (f.bufferReadBytes - f.bufferPosition) total
      let data := data ++ window f.buffer f.bufferPosition k
      let f := { f with bufferPosition := f.bufferPosition + k }
      if total - k = 0 then .inr (f, some data) else freadChar dev (f, data, total - k)
    else freadChar dev (f, data, total)

/-- What `fread` does to read `total` bytes. -/
def freadBytes (f : Iob σ) (total : ℕ) : FreadExit σ :=
  if f.bufferMode = .none then freadThrough dev (f, [], total)
  else (Loop.run (freadBody dev) (total + 1) (f, [], total)).getD (f, none)

/-- `fread`: the number of elements read, and the bytes stored in the caller's array. -/
def fread (f : Iob σ) (elementSize count : ℕ) : Iob σ × ℕ × List UInt8 :=
  if !f.inUse || !f.canRead then (f.failed (some .EBADF), 0, [])
  else
    let f := f.clearerr
    if 0 < elementSize ∧ 0 < count then
      match fgetcCheck dev f with
      | (f, .error) => (f, 0, [])
      | (f, .ok) =>
        if sizeMax < elementSize * count then (f, 0, [])
        else
          match freadBytes dev f (elementSize * count) with
          | (f, none) => (f, 0, [])
          | (f, some data) => (f, data.length / elementSize, data)
    else (f, 0, [])

end Clib4
