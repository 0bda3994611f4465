import Mathlib.Tactic

/-!
# Error numbers

dos.library reports a failure as a secondary error code, the C library as a value of
`errno`; `translateIoErrorToErrno` maps the one to the other.

## Main definitions

* `IoErr`, `Errno` — the codes of both sides that the library knows by name.
-/

namespace Clib4

/-- The dos.library error codes that the library refers to by name. -/
inductive IoErr
  | noFreeStore | taskTableFull | badTemplate | badNumber | requiredArgMissing | keyNeedsArg
  | tooManyArgs | unmatchedQuotes | lineTooLong | fileNotObject | objectInUse | objectExists
  | dirNotFound | objectNotFound | badStreamName | objectTooLarge | actionNotKnown
  | invalidComponentName | invalidLock | objectWrongType | diskNotValidated
  | diskWriteProtected | renameAcrossDevices | directoryNotEmpty | tooManyLevels
  | deviceNotMounted | seekError | commentTooBig | diskFull | deleteProtected
  | writeProtected | readProtected | notADosDisk | noDisk | isSoftLink | badHunk
  | notImplemented | lockCollision | break | notExecutable | wouldBlock
  deriving DecidableEq, Repr, Inhabited

/-- The values of `errno` that the modelled functions store; `EIO` and `ENXIO` are spelled out. -/
inductive Errno
  | EPERM | ENOENT | EINTR | EInputOutput | ENoDevice | ENOEXEC | EBADF | ENOMEM | EACCES
  | EFAULT | EBUSY | EEXIST | EXDEV | EINVAL | EFBIG | ENOSPC | EROFS | EAGAIN | ENOBUFS
  | ENAMETOOLONG | ENOTEMPTY | ENOSYS | EFTYPE | ENOTDIR | EIDRM | E2BIG | ENOMSG | EOVERFLOW
  | ESRCH | EDEADLK | ERANGE | EILSEQ
  deriving DecidableEq, Repr, Inhabited

/-- `__translate_io_error_to_errno`; a code that the table does not hold becomes `EIO`. -/
def translateIoErrorToErrno : IoErr → Errno
  | .noFreeStore | .taskTableFull => .ENOMEM
  | .badTemplate | .badNumber | .requiredArgMissing | .keyNeedsArg | .tooManyArgs
  | .unmatchedQuotes => .EINVAL
  | .lineTooLong => .ENAMETOOLONG
  | .fileNotObject => .ENOEXEC
  | .objectInUse => .EBUSY
  | .objectExists => .EEXIST
  | .dirNotFound | .objectNotFound => .ENOENT
  | .badStreamName => .EINVAL
  | .objectTooLarge => .EFBIG
  | .actionNotKnown => .ENOSYS
  | .invalidComponentName => .EINVAL
  | .invalidLock => .EBADF
  | .objectWrongType => .EFTYPE
  | .diskNotValidated | .diskWriteProtected => .EROFS
  | .renameAcrossDevices => .EXDEV
  | .directoryNotEmpty => .ENOTEMPTY
  | .tooManyLevels => .ENAMETOOLONG
  | .deviceNotMounted => .ENoDevice
  | .commentTooBig => .ENAMETOOLONG
  | .diskFull => .ENOSPC
  | .deleteProtected | .writeProtected | .readProtected => .EACCES
  | .notADosDisk => .EFTYPE
  | .noDisk => .EACCES
  | .isSoftLink => .EFTYPE
  | .badHunk => .ENOEXEC
  | .notImplemented => .ENOSYS
  | .lockCollision => .EACCES
  | .break => .EINTR
  | .notExecutable => .ENOEXEC
  | .wouldBlock => .EAGAIN
  | .seekError => .EInputOutput

/-- `__translate_access_io_error_to_errno`, for names that ought to lead to a file. -/
def translateAccessIoErrorToErrno (ioErr : IoErr) : Errno :=
  if ioErr = .objectWrongType then .ENOTDIR else translateIoErrorToErrno ioErr

end Clib4
