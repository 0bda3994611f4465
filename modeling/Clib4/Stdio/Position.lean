import Clib4.Stdio.Iob

/-!
# The position of a stream

`ftell` and `fseek`.  `ftell` asks the device for its position and corrects it by what the
buffer holds; `fseek` turns an absolute position into a relative one while there is a read
buffer, and stays inside the buffer when it can.  Both work with `long`, which has 32 bits.

## Main definitions

* `ftell`, `fseek` — the functions of `stdio.h`.
-/

namespace Clib4

open DosFile (SeekMode)

variable {σ : Type} (dev : Device σ)

def ftell (f : Iob σ) : Iob σ × ℤ :=
  if !f.inUse then (f.failed (some .EBADF), -1)
  else
    let (d, reply) := dev.action f.device (.seek 0 .cur)
    let f := { f with device := d }
    if reply.result = -1 ∧ reply.error.isSome then (f.failed reply.error, -1)
    else
      let f := { f with errno := if reply.result < 0 then none else f.errno }
      if f.readBufferIsValid then (f, toInt32 (reply.result - f.numUnreadBytes))
      else if f.writeBufferIsValid then (f, toInt32 (reply.result + f.bufferWriteBytes))
      else (f, toInt32 reply.result)

/-- The values of a `long`. -/
abbrev Long := { z : ℤ // -2147483648 ≤ z ∧ z ≤ longMax }

/-- The difference of two values of type `long`. -/
def subLong (x y : ℤ) : Except Fault ℤ :=
  if -2147483648 ≤ x - y ∧ x - y ≤ longMax then .ok (x - y) else .error .overflow

/-- `fseek` turns an absolute position into a relative one while there is a read buffer.  The
position zero, which is also the value of `CHANGE_FILE_ERROR`, is left as it is. -/
def relativeSeek (f : Iob σ) (offset : ℤ) (mode : SeekMode) :
    Except Fault (Iob σ × ℤ × SeekMode) :=
  if mode = .set ∧ f.readBufferIsValid then
    let (f, current) := ftell dev f
    if current ≠ 0 then (subLong offset current).map fun z => (f, z, .cur)
    else .ok (f, offset, mode)
  else .ok (f, offset, mode)

/-- Whether the offset stays inside the read buffer. -/
def seeksInBuffer (f : Iob σ) (offset : ℤ) : Bool :=
  offset < 0 && -offset ≤ f.bufferPosition || 0 < offset && offset ≤ f.numUnreadBytes

/-- Give up the contents of the buffer, and move the file position. -/
def seekDevice (f : Iob σ) (offset : ℤ) (mode : SeekMode) : Iob σ × ℤ :=
  let (f, status) := if f.writeBufferIsValid then flushIobWriteBuffer dev f else (f, .ok)
  match status with
  | .error => (f, -1)
  | .ok =>
    let (f, status) := if f.readBufferIsValid then dropIobReadBuffer dev f else (f, .ok)
    match status with
    | .error => (f, -1)
    | .ok =>
      let (d, reply) := dev.action f.device (.seek offset mode)
      let f := { f with device := d }
      match reply.error with
      | some e => (f.failed (some e), -1)
      | none => ({ f with errno := if toInt32 reply.result < 0 then none else f.errno }, 0)

/-- The part of `fseek` that moves, for the offset and mode that are left. -/
def seekAway (f : Iob σ) (offset : ℤ) (mode : SeekMode) : Except Fault (Iob σ × ℤ) :=
  if mode = .cur ∧ f.readBufferIsValid then
    -- the smallest `long` has no negative
    (subLong 0 offset).map fun _ =>
      if seeksInBuffer f offset then
        ({ f with bufferPosition := (f.bufferPosition + offset).toNat }, 0)
      else seekDevice dev f offset mode
  else .ok (seekDevice dev f offset mode)

/-- `fseek`, for one of the three modes that it accepts. -/
def fseek (f : Iob σ) (offset : ℤ) (mode : SeekMode) : Except Fault (Iob σ × ℤ) :=
  if !f.inUse then .ok (f.failed (some .EBADF), -1)
  else
    (relativeSeek dev f offset mode).bind fun (f, offset, mode) =>
      let f := { f with eofReached := false }
      if mode = .cur ∧ offset = 0 then .ok (f, 0) else seekAway dev f offset mode

end Clib4
