import Clib4.Fd

/-!
# Buffered files

A stream (`struct iob`) keeps one buffer for both directions: bytes that were read ahead,
of which `bufferPosition` have been handed out, or bytes that wait to be written.  It
reaches its data through an action function; besides, the bulk functions of `stdio` go
past the buffer straight to the descriptor.  Both together are a `Device`, so that one
model of the stream serves a file and the string that `sscanf` reads.

## Main definitions

* `Device` — what lies below a stream; `fdDevice` is the one of an open file.
* `flushIobWriteBuffer`, `dropIobReadBuffer`, `fillIobReadBuffer` — moving the buffer's
  contents to and from the device.
* `getc`, `ungetc`, `fputcRaw`, `putcFullyBuffered`, `putcLineBuffered` — one character.
-/

namespace Clib4

open DosFile (SeekMode)
open Splice

/-! ### What lies below a stream -/

/-- The messages that a stream sends to its action function. -/
inductive FileActionMessage
  | read (size : ℕ)
  | write (data : List UInt8)
  | seek (offset : ℤ) (mode : SeekMode)

/-- The operations of what lies below a stream whose state is a `σ`. -/
structure Device (σ : Type) where
  /-- `iob_Action`. -/
  action : σ → FileActionMessage → σ × FileActionReply
  /-- `__write_r` on `iob_Descriptor`. -/
  write : σ → List UInt8 → σ × ℤ
  /-- `read` on `iob_Descriptor`. -/
  read : σ → ℕ → σ × ℤ × List UInt8
  /-- `FDF_IS_INTERACTIVE` of the descriptor. -/
  isInteractive : σ → Bool

/-- `__iob_hook_entry`, for a stream whose descriptor is in use. -/
def iobHookEntry (d : FdFile) : FileActionMessage → FdFile × FileActionReply
  | .read size => fdHookRead d size
  | .write data => fdHookWrite d data
  | .seek offset mode => fdHookSeek d offset mode

/-- The device below the stream of an open file. -/
def fdDevice : Device FdFile where
  action := iobHookEntry
  write := FdFile.write
  read := FdFile.read
  isInteractive d := d.fd.flags.isInteractive

/-! ### Streams -/

/-- The file buffering modes, `IOBF_BUFFER_MODE_...`. -/
inductive BufferMode
  | full | line | none
  deriving DecidableEq, Repr

/-- `struct iob`, with the state of its device and the caller's `errno`. -/
structure Iob (σ : Type) where
  bufferMode : BufferMode := .full
  /-- `IOBF_EOF_REACHED`. -/
  eofReached : Bool := false
  /-- `IOBF_READ`. -/
  canRead : Bool := false
  /-- `IOBF_WRITE`. -/
  canWrite : Bool := false
  /-- `IOBF_IN_USE`. -/
  inUse : Bool := true
  /-- `IOBF_ERROR`. -/
  error : Bool := false
  buffer : List UInt8
  bufferSize : ℕ
  bufferPosition : ℕ := 0
  bufferReadBytes : ℕ := 0
  bufferWriteBytes : ℕ := 0
  device : σ
  /-- `errno`; `none` is zero. -/
  errno : Option Errno := .none
  deriving DecidableEq, Repr

def EOF : ℤ := -1

/-- The range of `size_t`. -/
def sizeMax : ℕ := 4294967295

theorem not_sizeMax_lt {n : ℕ} (h : n ≤ longMax) : ¬ sizeMax < n := by
  unfold longMax at h
  unfold sizeMax
  omega

/-- Conversion of an `int` to `unsigned char`. -/
def toByte (c : ℤ) : UInt8 := UInt8.ofNat (c % 256).toNat

/-- An `unsigned char` that is converted to `int` and back. -/
@[simp] theorem toByte_toNat (b : UInt8) : toByte b.toNat = b := by
  have h := b.toNat_lt
  have hmod : ((b.toNat : ℤ) % 256).toNat = b.toNat := by omega
  rw [toByte, hmod, UInt8.ofNat_toNat]

variable {σ : Type}

namespace Iob

/-- `__iob_write_buffer_is_full`. -/
def writeBufferIsFull (f : Iob σ) : Bool :=
  0 < f.bufferSize && f.bufferWriteBytes == f.bufferSize

/-- `__iob_write_buffer_is_valid`. -/
def writeBufferIsValid (f : Iob σ) : Bool := 0 < f.bufferWriteBytes

/-- `__iob_read_buffer_is_empty`. -/
def readBufferIsEmpty (f : Iob σ) : Bool :=
  f.bufferReadBytes == 0 || f.bufferPosition == f.bufferReadBytes

/-- `__iob_read_buffer_is_valid`. -/
def readBufferIsValid (f : Iob σ) : Bool := 0 < f.bufferReadBytes

theorem writeBufferIsValid_iff {f : Iob σ} :
    f.writeBufferIsValid = true ↔ f.bufferWriteBytes ≠ 0 := by
  simp [writeBufferIsValid, Nat.pos_iff_ne_zero]

theorem readBufferIsValid_iff {f : Iob σ} :
    f.readBufferIsValid = true ↔ f.bufferReadBytes ≠ 0 := by
  simp [readBufferIsValid, Nat.pos_iff_ne_zero]

/-- `__iob_num_unread_bytes`. -/
def numUnreadBytes (f : Iob σ) : ℕ := f.bufferReadBytes - f.bufferPosition

/-- The bytes that wait to be written. -/
def pending (f : Iob σ) : List UInt8 := f.buffer.take f.bufferWriteBytes

/-- Store bytes in the write buffer, behind those that wait there. -/
def store (f : Iob σ) (bs : List UInt8) : Iob σ :=
  { f with buffer := writeAt f.buffer f.bufferWriteBytes bs
           bufferWriteBytes := f.bufferWriteBytes + bs.length }

/-- Note that an operation of the device failed. -/
def failed (f : Iob σ) (e : Option Errno) : Iob σ := { f with error := true, errno := e }

/-- `__clearerr_r`. -/
def clearerr (f : Iob σ) : Iob σ := { f with error := false, eofReached := false }

end Iob

/-! ### Moving the buffer's contents -/

section Stream

variable (dev : Device σ)

def flushIobWriteBuffer (f : Iob σ) : Iob σ × Status :=
  if f.inUse && 0 < f.bufferWriteBytes then
    let (d, reply) := dev.action f.device (.write f.pending)
    if reply.result = EOF then ({ f with device := d }.failed reply.error, .error)
    else ({ f with device := d, bufferWriteBytes := 0 }, .ok)
  else (f, .ok)

/-- `__drop_iob_read_buffer`: what was read ahead is given back by moving the file position
in front of it. -/
def dropIobReadBuffer (f : Iob σ) : Iob σ × Status :=
  if f.inUse then
    let f := { f with eofReached := false }
    if f.readBufferIsValid then
      let numUnread : ℤ := toInt32 f.numUnreadBytes
      if 0 < numUnread then
        let (d, reply) := dev.action f.device (.seek (-numUnread) .cur)
        match reply.error with
        | some e => ({ f with device := d }.failed (some e), .error)
        | none =>
          ({ f with device := d, bufferReadBytes := 0, bufferPosition := 0
                    errno := if reply.result < 0 then none else f.errno }, .ok)
      else ({ f with bufferReadBytes := 0, bufferPosition := 0 }, .ok)
    else (f, .ok)
  else (f, .ok)

/-- `__flush_all_files`, as far as it concerns the stream itself: the other streams of the
program have devices of their own. -/
def flushAllFiles (f : Iob σ) (mode : BufferMode) : Iob σ × Status :=
  if f.inUse && f.canWrite && f.bufferMode == mode && f.writeBufferIsValid then
    flushIobWriteBuffer dev f
  else (f, .ok)

def fillIobReadBuffer (f : Iob σ) : Iob σ × Status :=
  let (f, status) := if f.bufferMode = .line then flushAllFiles dev f .line else (f, .ok)
  match status with
  | .error => (f, .error)
  | .ok =>
    let (d, reply) := dev.action f.device (.read f.bufferSize)
    let numBytesRead := toInt32 reply.result
    if numBytesRead = EOF then ({ f with device := d }.failed reply.error, .error)
    else
      ({ f with device := d, buffer := writeAt f.buffer 0 reply.data
                bufferReadBytes := numBytesRead.toNat, bufferPosition := 0 }, .ok)

/-! ### One character of input -/

/-- Hand out the next byte of the read buffer. -/
def Iob.take (f : Iob σ) : Iob σ × ℤ :=
  ({ f with bufferPosition := f.bufferPosition + 1 },
    ((f.buffer.getD f.bufferPosition 0).toNat : ℤ))

/-- `__fgetc`. -/
def fgetcRaw (f : Iob σ) : Iob σ × ℤ :=
  if f.readBufferIsEmpty then
    match fillIobReadBuffer dev f with
    | (f, .error) => (f, EOF)
    | (f, .ok) =>
      if f.readBufferIsEmpty then ({ f with eofReached := true }, EOF) else f.take
  else f.take

/-- The macro `__getc`. -/
def getc (f : Iob σ) : Iob σ × ℤ :=
  if f.bufferPosition < f.bufferReadBytes then f.take else fgetcRaw dev f

def fgetcCheck (f : Iob σ) : Iob σ × Status :=
  if !f.inUse then (f.failed (some .EBADF), .error)
  else if !f.canRead then (f.failed (some .EBADF), .error)
  else if f.writeBufferIsValid then flushIobWriteBuffer dev f
  else (f, .ok)

/-- `__ungetc_r`: a character can be pushed back only over one that was read before. -/
def ungetc (f : Iob σ) (c : ℤ) : Iob σ × ℤ :=
  if !f.inUse then (f.failed (some .EBADF), EOF)
  else if !f.canRead then (f.failed (some .EACCES), EOF)
  else if c = EOF then (f.failed (some .EINVAL), EOF)
  else
    let (f, status) := if f.writeBufferIsValid then flushIobWriteBuffer dev f else (f, .ok)
    match status with
    | .error => (f, EOF)
    | .ok =>
      if f.bufferPosition = 0 then (f.failed (some .ENOBUFS), EOF)
      else
        ({ f with eofReached := false, bufferPosition := f.bufferPosition - 1
                  buffer := writeAt f.buffer (f.bufferPosition - 1) [toByte c] },
          (toByte c).toNat)

/-! ### One character of output -/

/-- `__fputc_check`: a stream that is about to be written to gives up what it read ahead. -/
def fputcCheck (f : Iob σ) : Iob σ × Status :=
  if !f.inUse then (f.failed (some .EBADF), .error)
  else if !f.canWrite then (f.failed (some .EBADF), .error)
  else if f.readBufferIsValid then dropIobReadBuffer dev f
  else (f, .ok)

/-- `__fputc`. -/
def fputcRaw (f : Iob σ) (c : ℤ) (mode : BufferMode) : Iob σ × ℤ :=
  let (f, status) := if f.writeBufferIsFull then flushIobWriteBuffer dev f else (f, .ok)
  match status with
  | .error => (f, EOF)
  | .ok =>
    let f := f.store [toByte c]
    if mode = .none ∨ mode = .line ∧ c = 10 then
      match flushIobWriteBuffer dev f with
      | (f, .error) =>
        -- pretend that the last character was not written
        ({ f with bufferWriteBytes := f.bufferWriteBytes - 1 }, EOF)
      | (f, .ok) => (f, (toByte c).toNat)
    else (f, (toByte c).toNat)

/-- `__flush_r`: flush a buffer that a line feed was just stored in. -/
def flushLine (f : Iob σ) : Iob σ × ℤ :=
  let last : ℤ := (f.buffer.getD (f.bufferWriteBytes - 1) 0).toNat
  match flushIobWriteBuffer dev f with
  | (f, .error) => ({ f with bufferWriteBytes := f.bufferWriteBytes - 1 }, EOF)
  | (f, .ok) => (f, last)

/-- The macro `__putc_fully_buffered`. -/
def putcFullyBuffered (f : Iob σ) (c : UInt8) : Iob σ × ℤ :=
  if f.bufferWriteBytes < f.bufferSize then (f.store [c], c.toNat)
  else fputcRaw dev f c.toNat .full

/-- The macro `__putc_line_buffered`. -/
def putcLineBuffered (f : Iob σ) (c : UInt8) : Iob σ × ℤ :=
  if f.bufferWriteBytes < f.bufferSize then
    if c = 10 then flushLine dev (f.store [c]) else (f.store [c], c.toNat)
  else fputcRaw dev f c.toNat .line

end Stream

end Clib4
