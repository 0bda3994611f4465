import Clib4.Stdio.Iob

/-!
# Writing to a stream

`fputc`, `fputs`, `fwrite` and `fflush`.  The two bulk functions share their shape: as long
as the buffer has room a chunk is copied into it, an empty buffer is bypassed when the data
would fill it anyway, and a single character goes through the `putc` macros otherwise.  The
caller's array is the list of the bytes from the current position of the pointer to the
array's end; touching a byte beyond it is the fault `Fault.overread`.

## Main definitions

* `fputc`, `fputs`, `fwrite`, `fflush` — the functions of `stdio.h`.
-/

namespace Clib4

open Splice

variable {σ : Type} (dev : Device σ)

/-- The mode in which the bulk functions write: an unbuffered interactive stream is line
buffered, which makes its output more readable. -/
def outputMode (f : Iob σ) : BufferMode :=
  if f.bufferMode = .none ∧ dev.isInteractive f.device then .line else f.bufferMode

def fputc (f : Iob σ) (c : ℤ) : Iob σ × ℤ :=
  match fputcCheck dev f with
  | (f, .error) => (f, EOF)
  | (f, .ok) => fputcRaw dev f c f.bufferMode

/-- `fflush`, for one stream. -/
def fflush (f : Iob σ) : Iob σ × ℤ :=
  if f.writeBufferIsValid then
    match flushIobWriteBuffer dev f with
    | (f, .error) => (f, EOF)
    | (f, .ok) => (f, 0)
  else (f, 0)

/-! ### Copying into the write buffer -/

/-- The number of bytes of the next chunk: what fits, what is there, and in line mode no
more than up to the first line feed. -/
def chunkLength (f : Iob σ) (s : List UInt8) (total : ℕ) (line : Bool) : ℕ :=
  let n := min total (f.bufferSize - f.bufferWriteBytes)
  if line then ((s.take n).findIdx? (· == 10)).elim n (· + 1) else n

/-- Copy the next chunk of `s` into the write buffer; flush the buffer once it is full, or
in line mode once a line feed was stored. -/
def storeChunk (f : Iob σ) (s : List UInt8) (total : ℕ) (line : Bool) :
    Except Fault (Iob σ × ℕ × Status) :=
  let k := chunkLength f s total line
  if s.length < k then .error .overread
  else
    let g := f.store (s.take k)
    if (line && (s.take k).contains 10) || g.writeBufferIsFull then
      let (g, status) := flushIobWriteBuffer dev g
      .ok (g, k, status)
    else .ok (g, k, .ok)

/-! ### `fputs` -/

/-- The variables of the loops of `fputs`: the stream, the rest of the string and the number
of characters still to be written. -/
abbrev FputsState (σ : Type) := Iob σ × List UInt8 × ℕ

/-- The tail of an iteration: write one character. -/
def fputsByte (line : Bool) : FputsState σ → FputsState σ ⊕ Except Fault (Iob σ × Status)
  | (_, [], _) => .inr (.error .overread)
  | (f, c :: s, total) =>
    let (f, r) := if line then putcLineBuffered dev f c else putcFullyBuffered dev f c
    if r = EOF then .inr (.ok (f, .error)) else .inl (f, s, total - 1)

/-- An iteration that goes through the buffer. -/
def fputsStore (line : Bool) : FputsState σ → FputsState σ ⊕ Except Fault (Iob σ × Status)
  | (f, s, total) =>
    if f.bufferWriteBytes < f.bufferSize then
      match storeChunk dev f s total line with
      | .error e => .inr (.error e)
      | .ok (f, _, .error) => .inr (.ok (f, .error))
      | .ok (f, k, .ok) =>
        if total - k = 0 then .inr (.ok (f, .ok))
        else if f.bufferWriteBytes < f.bufferSize then .inl (f, s.drop k, total - k)
        else fputsByte dev line (f, s.drop k, total - k)
    else fputsByte dev line (f, s, total)

/-- An iteration of the line buffered loop. -/
def fputsLineBody : FputsState σ → FputsState σ ⊕ Except Fault (Iob σ × Status)
  | (f, s, total) => if total = 0 then .inr (.ok (f, .ok)) else fputsStore dev true (f, s, total)

/-- An iteration of the fully buffered loop. -/
def fputsFullBody : FputsState σ → FputsState σ ⊕ Except Fault (Iob σ × Status)
  | (f, s, total) =>
    if total = 0 then .inr (.ok (f, .ok))
    else if f.bufferWriteBytes = 0 ∧ f.bufferSize ≤ total then
      -- an empty buffer is bypassed when there is more data than it will hold
      if s.length < total then .inr (.error .overread)
      else
        let (d, n) := dev.write f.device (s.take total)
        if n = -1 then .inr (.ok ({ f with device := d, error := true }, .error))
        else .inr (.ok ({ f with device := d }, .ok))
    else fputsStore dev false (f, s, total)

/-- What `fputs` does with a string that is not empty, in the given mode. -/
def fputsInMode (f : Iob σ) (s : List UInt8) : BufferMode → Except Fault (Iob σ × Status)
  | .line =>
    (Loop.run (fputsLineBody dev) (s.length + 1) (f, s, s.length)).getD (.error .timeout)
  | .none =>
    let (d, n) := dev.write f.device s
    if n = -1 then .ok ({ f with device := d, error := true }, .error)
    else .ok ({ f with device := d }, .ok)
  | .full =>
    (Loop.run (fputsFullBody dev) (s.length + 1) (f, s, s.length)).getD (.error .timeout)

/-- The exit of `fputs`: an unbuffered stream may still have data around, which is written now. -/
def fputsExit : Iob σ × Status → Iob σ × ℤ
  | (f, .error) => (f, EOF)
  | (f, .ok) =>
    if f.bufferMode = .none ∧ f.writeBufferIsValid then
      match flushIobWriteBuffer dev f with
      | (f, .error) => (f, EOF)
      | (f, .ok) => (f, 0)
    else (f, 0)

/-- `fputs`, for the characters of a string without its terminating zero. -/
def fputs (f : Iob σ) (s : List UInt8) : Except Fault (Iob σ × ℤ) :=
  match fputcCheck dev f with
  | (f, .error) => .ok (f, EOF)
  | (f, .ok) =>
    (if s = [] then .ok (f, .ok) else fputsInMode dev f s (outputMode dev f)).map (fputsExit dev)

/-! ### `fwrite` -/

/-- The variables of the loops of `fwrite`: the stream, the rest of the caller's array,
`total_size` and `total_bytes_written`. -/
abbrev FwriteState (σ : Type) := Iob σ × List UInt8 × ℕ × ℕ

/-- How a loop of `fwrite` is left: `some n` when `n` bytes are to be counted, `none` for a
jump to the exit, where the result is still zero. -/
abbrev FwriteExit (σ : Type) := Except Fault (Iob σ × Option ℕ)

/-- The tail of an iteration of the line buffered loop: write one character. -/
def fwriteLineByte : FwriteState σ → FwriteState σ ⊕ FwriteExit σ
  | (_, [], _, _) => .inr (.error .overread)
  | (f, c :: s, total, written) =>
    let (f, r) := putcLineBuffered dev f c
    if r = EOF then .inr (.ok (f, some written)) else .inl (f, s, total - 1, written + 1)

/-- The tail of an iteration of the fully buffered loop: write one character.  Unlike its
three siblings it leaves `total_size` as it is. -/
def fwriteFullByte : FwriteState σ → FwriteState σ ⊕ FwriteExit σ
  | (_, [], _, _) => .inr (.error .overread)
  | (f, c :: s, total, written) =>
    let (f, r) := putcFullyBuffered dev f c
    if r = EOF then .inr (.ok (f, none)) else .inl (f, s, total, written + 1)

/-- An iteration that goes through the buffer, with the tail `byte`. -/
def fwriteStore (line : Bool) (byte : FwriteState σ → FwriteState σ ⊕ FwriteExit σ) :
    FwriteState σ → FwriteState σ ⊕ FwriteExit σ
  | (f, s, total, written) =>
    if f.bufferWriteBytes < f.bufferSize then
      match storeChunk dev f s total line with
      | .error e => .inr (.error e)
      | .ok (f, _, .error) => .inr (.ok (f, some written))
      | .ok (f, k, .ok) =>
        if total - k = 0 then .inr (.ok (f, some (written + k)))
        else if f.bufferWriteBytes < f.bufferSize then
          .inl (f, s.drop k, total - k, written + k)
        else byte (f, s.drop k, total - k, written + k)
    else byte (f, s, total, written)

/-- An iteration of the line buffered loop. -/
def fwriteLineBody : FwriteState σ → FwriteState σ ⊕ FwriteExit σ
  | (f, s, total, written) =>
    if total = 0 then .inr (.ok (f, some written))
    else fwriteStore dev true (fwriteLineByte dev) (f, s, total, written)

/-- An iteration of the fully buffered loop. -/
def fwriteFullBody : FwriteState σ → FwriteState σ ⊕ FwriteExit σ
  | (f, s, total, written) =>
    if total = 0 then .inr (.ok (f, some written))
    else if f.bufferWriteBytes = 0 ∧ f.bufferSize ≤ total then
      if s.length < total then .inr (.error .overread)
      else
        let (d, n) := dev.write f.device (s.take total)
        if n = -1 then .inr (.ok ({ f with device := d, error := true }, none))
        else .inr (.ok ({ f with device := d }, some (written + n.toNat)))
    else fwriteStore dev false (fwriteFullByte dev) (f, s, total, written)

/-- What `fwrite` does with `total` bytes, in the given mode. -/
def fwriteInMode (f : Iob σ) (s : List UInt8) (total : ℕ) : BufferMode → FwriteExit σ
  | .line =>
    (Loop.run (fwriteLineBody dev) (s.length + 2) (f, s, total, 0)).getD (.error .timeout)
  | .none =>
    if s.length < total then .error .overread
    else
      let (d, n) := dev.write f.device (s.take total)
      if n = -1 then .ok ({ f with device := d, error := true }, none)
      else
        let f := { f with device := d }
        let f := if f.writeBufferIsValid then (flushIobWriteBuffer dev f).1 else f
        .ok (f, some n.toNat)
  | .full =>
    (Loop.run (fwriteFullBody dev) (s.length + 2) (f, s, total, 0)).getD (.error .timeout)

/-- `fwrite`, for the caller's array `s`. -/
def fwrite (f : Iob σ) (s : List UInt8) (elementSize count : ℕ) : Except Fault (Iob σ × ℕ) :=
  if !f.inUse || !f.canWrite then .ok (f.failed (some .EBADF), 0)
  else if 0 < elementSize ∧ 0 < count then
    if sizeMax < elementSize * count then .ok (f, 0)
    else
      (fwriteInMode dev f s (elementSize * count) (outputMode dev f)).map fun
        | (f, none) => (f, 0)
        | (f, some written) => (f, written / elementSize)
  else .ok (f, 0)

end Clib4
