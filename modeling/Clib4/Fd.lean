import Clib4.Base.Loop
import Clib4.Dos

/-!
# File descriptors and their action function

A descriptor entry (`struct fd`) keeps flags, the handle of the file and, for a file on
a file system, a copy of the handle's position.  All input and output goes through the
entry's action function, `__fd_hook_entry`; here its read, write and seek actions, and
the calls `read`, `write` and `lseek` made of them.  Closing, which works on the table
of all entries, is in `Clib4.FdTable`.

## Main definitions

* `FdFile` — an entry together with the file handle that it refers to.
* `fdHookRead`, `fdHookWrite`, `fdHookSeek` — the actions of `__fd_hook_entry`.
-/

namespace Clib4

open DosFile (SeekMode)

/-! ### Descriptor entries -/

/-- The `FDF_...` flags that the modelled functions test. -/
structure FdFlags where
  read : Bool := false
  write : Bool := false
  append : Bool := false
  noClose : Bool := false
  nonBlocking : Bool := false
  isSocket : Bool := false
  isLocked : Bool := false
  inUse : Bool := false
  cachePosition : Bool := false
  isInteractive : Bool := false
  stdio : Bool := false
  isDirectory : Bool := false
  pathOnly : Bool := false
  stdinAsSocket : Bool := false
  stdinReadMark : Bool := false
  pipe : Bool := false
  deriving DecidableEq, Repr

/-- `struct fd`.  A file handle is a number, zero for none; a pointer to an entry is the
slot number of that entry, since entries are allocated once for each slot and stay there.
The default value is what `memset` leaves. -/
structure Fd where
  flags : FdFlags := {}
  /-- `fd_File`. -/
  file : ℕ := 0
  /-- `fd_Position`, the cached file position. -/
  position : ℤ := 0
  /-- `fd_Original`. -/
  original : Option ℕ := none
  /-- `fd_NextAlias`. -/
  nextAlias : Option ℕ := none
  /-- Whether `fd_Cleanup` is `cleanup_locked_records`. -/
  cleanup : Bool := false
  deriving DecidableEq, Repr

/-- A descriptor entry and the file handle it refers to. -/
structure FdFile where
  fd : Fd
  dos : DosFile
  /-- `__unix_path_semantics`. -/
  unixPathSemantics : Bool := true
  /-- `id_BytesPerBlock` of the file system, or zero when it does not tell. -/
  bytesPerBlock : ℕ := 512
  deriving DecidableEq, Repr

/-- Why a call does not return: it touches memory beyond an array, signed arithmetic overflows,
or a loop was given too little fuel. -/
inductive Fault
  | overread | overflow | timeout
  deriving DecidableEq, Repr

/-- What an action function leaves in the message: its result, the bytes it stored, and
the error it set, if any.  With a fault it does not return. -/
structure FileActionReply where
  result : ℤ
  data : List UInt8 := []
  error : Option Errno := none
  fault : Option Fault := none
  deriving DecidableEq, Repr

/-- `OK` or `ERROR`, the results of functions that only succeed or fail. -/
inductive Status
  | ok | error
  deriving DecidableEq, Repr

/-- Whether the descriptor stands for a file whose data can be used at all. -/
def Fd.isPlain (fd : Fd) : Bool := !fd.flags.isDirectory && !fd.flags.pathOnly

/-! ### The actions -/

/-- The error of a failed `Read`.  The second test of the source masks the flags with the
value of a logical conjunction, which is bit zero, that is `FDF_READ`. -/
def readErrno (fd : Fd) (ioErr : IoErr) : Errno :=
  if !fd.flags.pipe || !fd.flags.read then translateIoErrorToErrno ioErr else .EAGAIN

/-- Whether a read from a stdin that is used as a socket ended a line. -/
def endsLine (data : List UInt8) : Bool :=
  data.getLast? == some 13 || data.getLast? == some 10

/-- `file_action_read` of `__fd_hook_entry`. -/
def fdHookRead (d : FdFile) (size : ℕ) : FdFile × FileActionReply :=
  if d.fd.file = 0 then (d, { result := -1, error := some .EBADF })
  else if d.fd.isPlain then
    if d.fd.flags.stdinReadMark then
      ({ d with fd := { d.fd with flags := { d.fd.flags with stdinReadMark := false } } },
        { result := -1, error := some .EAGAIN })
    else
      match d.dos.read size with
      | (dos, .error ioErr) =>
        ({ d with dos := dos }, { result := -1, error := some (readErrno d.fd ioErr) })
      | (dos, .ok data) =>
        let mark := d.fd.flags.stdinAsSocket && endsLine data
        let flags := { d.fd.flags with stdinReadMark := mark }
        ({ d with dos := dos
                  fd := { d.fd with position := d.fd.position + data.length, flags := flags } },
          { result := data.length, data := data })
  else (d, { result := -1, error := some .EBADF })

/-- The descriptor with its handle at the end of the file, where an appending descriptor
writes; `none` when the handle does not move. -/
def FdFile.atEnd (d : FdFile) : Option FdFile :=
  (d.dos.changeFilePosition 0 .end).map fun dos =>
    { d with dos := dos
             fd := { d.fd with
               position := if d.fd.flags.cachePosition then dos.position else d.fd.position } }

/-- `Write`, at the position of the handle. -/
def FdFile.writeHere (d : FdFile) (data : List UInt8) : FdFile × FileActionReply :=
  match d.dos.write data with
  | (dos, .error ioErr) =>
    ({ d with dos := dos }, { result := -1, error := some (translateIoErrorToErrno ioErr) })
  | (dos, .ok n) =>
    ({ d with dos := dos, fd := { d.fd with position := d.fd.position + n } }, { result := n })

/-- `file_action_write` of `__fd_hook_entry`. -/
def fdHookWrite (d : FdFile) (data : List UInt8) : FdFile × FileActionReply :=
  if d.fd.file = 0 then (d, { result := -1, error := some .EBADF })
  else if d.fd.isPlain then
    if d.fd.flags.append then
      match d.atEnd with
      | none => (d, { result := -1, error := some (translateIoErrorToErrno .seekError) })
      | some d => d.writeHere data
    else d.writeHere data
  else (d, { result := -1, error := some .EBADF })

/-- One iteration of the filling loop of `__grow_file_size`: the handle, the number of
bytes still to be written and `alignment_skip`. -/
def growBody (bufferSize : ℕ) :
    DosFile × ℕ × ℕ → (DosFile × ℕ × ℕ) ⊕ (DosFile × Except IoErr Unit)
  | (dos, numBytes, skip) =>
    if numBytes = 0 then .inr (dos, .ok ())
    else
      let size := min bufferSize numBytes
      let size := if 0 < skip ∧ skip < size then skip else size
      match dos.write (List.replicate size 0) with
      | (dos, .ok n) =>
        if n = size then .inl (dos, numBytes - size, 0) else .inr (dos, .error .diskFull)
      | (dos, .error ioErr) => .inr (dos, .error ioErr)

/-- `__grow_file_size`, with the code it leaves in `IoErr()`.  The memory for the zeros is
the first request to the system.  A negative number of bytes is a large `size_t` for `memset`, but
with what the alignment to a cache line of 32 bytes takes it can wrap to a small one for
`malloc`. -/
def growFileSize (d : FdFile) (numBytes : ℤ) : Except Fault (FdFile × Except IoErr Unit) :=
  let blockSize := max d.bytesPerBlock 512
  let answer := d.dos.answer
  let dos := d.dos.answered
  let cleared := (min (8 * blockSize : ℤ) numBytes % 2 ^ 32).toNat
  let allocated := (cleared + 31) % 2 ^ 32
  match answer with
  | .fail _ => .ok ({ d with dos := dos }, .error .noFreeStore)
  | _ =>
    if allocated < cleared then .error .overread
    else
      match dos.changeFilePosition 0 .end with
      | none => .ok ({ d with dos := dos }, .error .seekError)
      | some dos =>
        let n := numBytes.toNat
        let bufferSize := min (8 * blockSize) n
        let skip := if blockSize < n ∧ dos.position % blockSize ≠ 0
          then blockSize - dos.position % blockSize else 0
        let (dos, status) :=
          (Loop.run (growBody bufferSize) (n + 1) (dos, n, skip)).getD (dos, .error .diskFull)
        .ok ({ d with dos := dos }, status)

/-- The position that a seek action starts from: the copy, where there is one. -/
def FdFile.currentPosition (d : FdFile) : ℤ :=
  if d.fd.flags.cachePosition then d.fd.position else d.dos.position

/-- The position that a seek action asks for. -/
def FdFile.newPosition (d : FdFile) (offset : ℤ) : SeekMode → ℤ
  | .cur => toInt64 (d.currentPosition + offset)
  | .set => offset
  | .end => toInt64 (d.dos.size + offset)

/-- Make the file long enough for the position `new`, which lies behind its end. -/
def FdFile.growTo (d : FdFile) (new : ℤ) : FdFile × FileActionReply :=
  match growFileSize d (toInt32 (new - d.dos.size)) with
  | .error fault => (d, { result := -1, fault := some fault })
  | .ok (d', .error ioErr) =>
    (d', { result := -1, error := some (translateIoErrorToErrno ioErr) })
  | .ok (d', .ok ()) => ({ d' with fd := { d'.fd with position := new } }, { result := new })

/-- The handle could not be moved to `new`: with Unix path semantics a file that can be written
to is made longer. -/
def FdFile.seekFailed (d : FdFile) (new : ℤ) : FdFile × FileActionReply :=
  if d.unixPathSemantics && d.dos.size < new then
    if d.fd.flags.write then d.growTo new else (d, { result := -1, error := some .EPERM })
  else (d, { result := -1, error := some (translateIoErrorToErrno .seekError) })

/-- `file_action_seek` of `__fd_hook_entry`. -/
def fdHookSeek (d : FdFile) (offset : ℤ) (mode : SeekMode) : FdFile × FileActionReply :=
  if d.fd.file = 0 then (d, { result := -1, error := some .EBADF })
  else if d.fd.isPlain then
    if d.newPosition offset mode < 0 then
      -- a position in front of the file is forced to zero
      ({ d with dos := { d.dos with position := 0 }, fd := { d.fd with position := 0 } },
        { result := 0 })
    else if d.newPosition offset mode = d.currentPosition then
      (d, { result := d.newPosition offset mode })
    else
      match d.dos.changeFilePosition offset mode with
      | some dos =>
        ({ d with dos := dos, fd := { d.fd with position := dos.position } },
          { result := dos.position })
      | none => d.seekFailed (d.newPosition offset mode)
  else (d, { result := -1, error := some .EBADF })

/-! ### The calls -/

namespace FdFile

/-- `read`: the result and the bytes stored in the caller's buffer. -/
def read (d : FdFile) (numBytes : ℕ) : FdFile × ℤ × List UInt8 :=
  if !d.fd.flags.read then (d, -1, [])
  else if numBytes = 0 then (d, 0, [])
  else
    let (d, reply) := fdHookRead d numBytes
    (d, reply.result, reply.data)

/-- `__write_r`. -/
def write (d : FdFile) (data : List UInt8) : FdFile × ℤ :=
  if !d.fd.flags.write then (d, -1)
  else if data = [] then (d, 0)
  else
    let (d, reply) := fdHookWrite d data
    (d, reply.result)

/-- `lseek`, for one of the three modes that it accepts. -/
def lseek (d : FdFile) (offset : ℤ) (mode : SeekMode) : FdFile × ℤ :=
  let (d, reply) := fdHookSeek d offset mode
  (d, reply.result)

end FdFile

end Clib4
