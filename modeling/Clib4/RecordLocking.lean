import Clib4.FdTable

/-!
# Record locking

Advisory locks on regions of files.  One table for the whole system, guarded by a semaphore,
has a node for every file that has regions locked; a node keeps the list of the regions.
`fcntl` adds a region if it collides with none of another process; `F_SETLKW` tries this again
and again until it succeeds or the user breaks; the regions of a process on a file go when it
closes the file.

A world is what all processes share together with the descriptor table of each.  A step of
the world is what happens under the semaphore: a call, or one attempt of a waiting process.

## Main definitions

* `findCollidingRegion`, `LockTable.add`, `LockTable.removeRegions` — looking and changing.
* `LockWorld`, `handleRecordLocking`, `cleanupLockedRecords` — the functions of the source.
-/

namespace Clib4

open Function

/-! ### The lock table -/

/-- `struct LockedRegionNode`. -/
structure LockedRegion where
  start : ℤ
  stop : ℤ
  /-- The length that was asked for. -/
  length : ℤ
  owner : ℕ
  shared : Bool
  deriving DecidableEq, Repr

/-- How the table identifies a file: a directory, and the name in it. -/
structure FileId where
  parentDir : ℕ
  fileName : List UInt8
  deriving DecidableEq, Repr

/-- Upper case, as `Stricmp` of utility.library takes it: ASCII and the Latin 1 letters. -/
def toUpper (c : UInt8) : UInt8 :=
  if (97 ≤ c ∧ c ≤ 122) ∨ (224 ≤ c ∧ c ≤ 254 ∧ c ≠ 247) then c - 32 else c

/-- The same directory, and the same name for `Stricmp`. -/
def FileId.same (f g : FileId) : Bool :=
  f.parentDir == g.parentDir && f.fileName.map toUpper == g.fileName.map toUpper

/-- `struct FileLockNode`. -/
structure FileLockNode where
  file : FileId
  regions : List LockedRegion
  deriving DecidableEq, Repr

/-- `fls_LockList`. -/
abbrev LockTable := List FileLockNode

/-- Two regions have a byte in common. -/
def LockedRegion.overlaps (r : LockedRegion) (start stop : ℤ) : Bool :=
  r.start ≤ stop && start ≤ r.stop

/-- `find_colliding_region`: the first region of another process that would collide. -/
def findCollidingRegion (regions : List LockedRegion) (thisTask : ℕ) (start stop : ℤ)
    (shared : Bool) : Option LockedRegion :=
  regions.find? fun lrn =>
    lrn.overlaps start stop && (!shared || !lrn.shared) && lrn.owner != thisTask

namespace LockTable

/-- `find_file_lock_node_by_drawer_and_name`. -/
def findNode (t : LockTable) (file : FileId) : Option FileLockNode :=
  t.find? fun fln => fln.file.same file

/-- Replace the node that `findNode` finds by the nodes `f` makes of it. -/
def replaceNode (file : FileId) (f : FileLockNode → LockTable) : LockTable → LockTable
  | [] => []
  | fln :: t => if fln.file.same file then f fln ++ t else fln :: replaceNode file f t

/-- Both `AddTail`s: the region goes to the end of its file's list, in a new node if the file
has none. -/
def add (t : LockTable) (file : FileId) (lrn : LockedRegion) : LockTable :=
  match t.findNode file with
  | some _ => replaceNode file (fun fln => [{ fln with regions := fln.regions ++ [lrn] }]) t
  | none => t ++ [{ file := file, regions := [lrn] }]

/-- Take the regions with `p` off the list of a file; the node goes when none are left. -/
def removeRegions (t : LockTable) (file : FileId) (p : LockedRegion → Bool) : LockTable :=
  replaceNode file (fun fln =>
    let regions := fln.regions.filter fun lrn => !p lrn
    if regions.isEmpty then [] else [{ fln with regions := regions }]) t

end LockTable

/-! ### Requests -/

/-- `F_GETLK`, `F_SETLK` and `F_SETLKW`. -/
inductive LockCmd
  | getlk | setlk | setlkw
  deriving DecidableEq, Repr

/-- `struct flock`. -/
structure Flock where
  type : ℤ
  whence : ℤ
  start : ℤ
  len : ℤ
  pid : ℕ := 0
  deriving DecidableEq, Repr

def fRdlck : ℤ := 1
def fUnlck : ℤ := 2
def fWrlck : ℤ := 3

/-- What the system knows about a file that is open. -/
structure FileInfo where
  id : FileId
  size : ℤ
  position : ℤ
  deriving DecidableEq, Repr

/-- What the requests to the system are answered with, in a call that is about locks. -/
structure LockAnswers where
  createNode : Except IoErr Unit := .ok ()
  createRegion : Except IoErr Unit := .ok ()
  /-- `GetFilePosition` or `ExamineObjectTags`, for the range. -/
  range : Except IoErr Unit := .ok ()
  /-- `ExamineObjectTags` and `ParentOfFH`, for the node. -/
  find : Except IoErr Unit := .ok ()
  /-- Whether the semaphore could be obtained. -/
  semaphore : Bool := true

/-- The reply of a call about locks, with the `struct flock` as the call leaves it. -/
structure LockReply where
  reply : CallReply
  flock : Flock
  deriving DecidableEq, Repr

/-- The first byte of a request, before a negative length is taken into account. -/
def requestStart (l : Flock) (info : FileInfo) : ℤ :=
  if l.whence = 1 then toInt64 (info.position + l.start)
  else if l.whence = 2 then toInt64 (info.size + l.start)
  else l.start

/-- The first and the last byte of a request; `none` for a request in front of the file. -/
def lockRange (l : Flock) (info : FileInfo) : Option (ℤ × ℤ) :=
  let start := requestStart l info
  let len : ℤ := if l.len = 0 then longMax else l.len
  if start < 0 then none
  else if len < 0 then
    let start := toInt64 (start + len)
    if start < 0 then none
    else
      let stop := toInt64 (start - len - 1)
      some (start, if stop < start then longMax else stop)
  else
    let stop := toInt64 (start - 1 + len)
    some (start, if stop < start - 1 then longMax else stop)

/-- The part of `__handle_record_locking` that all requests go through: the reply of a call that
ends there, or the range.  Whatever is not a request for a lock ends there, without an error. -/
def lockRequest (os : LockAnswers) (cmd : LockCmd) (l : Flock) (info : FileInfo) :
    Except CallReply (ℤ × ℤ) :=
  if cmd ≠ .getlk ∧ l.type ≠ fUnlck then
    match os.createNode, os.createRegion with
    | .error ioErr, _ => .error (.failed (translateIoErrorToErrno ioErr))
    | .ok (), .error ioErr => .error (.failed (translateIoErrorToErrno ioErr))
    | .ok (), .ok () =>
      match if l.whence = 0 then .ok () else os.range with
      | .error ioErr => .error (.failed (translateIoErrorToErrno ioErr))
      | .ok () =>
        match lockRange l info with
        | none => .error (.failed .EINVAL)
        | some range => .ok range
  else .error { result := -1 }

/-- Shared locks require readable files, exclusive locks require writable files. -/
def mayLock (fd : Fd) (shared : Bool) : Bool := if shared then fd.flags.read else fd.flags.write

/-! ### The world -/

/-- A process in the polling loop of `F_SETLKW`: the entry it locks through, the file, and what
it wants. -/
structure PendingLock where
  slot : ℕ
  file : FileId
  start : ℤ
  stop : ℤ
  length : ℤ
  shared : Bool
  deriving DecidableEq, Repr

/-- The lock table, the descriptors of every process, the files behind the handles, and the
processes that wait for a lock. -/
structure LockWorld where
  locks : LockTable
  process : ℕ → FdSystem
  files : ℕ → FileInfo
  pending : ℕ → Option PendingLock

/-- The loops that set or clear `FDF_IS_LOCKED` on an original and its aliases. -/
def FdTable.markBody (locked : Bool) : ℕ × FdTable → (ℕ × FdTable) ⊕ FdTable
  | (i, t) =>
    let fd := t.entry i
    let t := t.set i { fd with flags := { fd.flags with isLocked := locked } }
    match fd.nextAlias with
    | none => .inr t
    | some j => .inl (j, t)

/-- Set or clear `FDF_IS_LOCKED` for the group of an entry; `none` when its list does not end. -/
def FdTable.mark (t : FdTable) (locked : Bool) (slot : ℕ) : Option FdTable :=
  Loop.run (markBody locked) (t.numFd + 1) ((t.entry slot).original.getD slot, t)

namespace LockWorld

/-- The entry of a slot of a process. -/
def entry (w : LockWorld) (pid slot : ℕ) : Fd := (w.process pid).table.entry slot

/-- The file behind an entry. -/
def info (w : LockWorld) (pid slot : ℕ) : FileInfo := w.files (w.entry pid slot).file

/-- A process with another descriptor table. -/
def setTable (w : LockWorld) (pid : ℕ) (t : FdTable) : LockWorld :=
  { w with process := update w.process pid { w.process pid with table := t } }

/-- Mark the group of an entry. -/
def mark (w : LockWorld) (locked : Bool) (pid slot : ℕ) : Except Fault LockWorld :=
  match (w.process pid).table.mark locked slot with
  | none => .error .timeout
  | some t => .ok (w.setTable pid t)

/-- `find_file_lock_node_by_file_handle`.  The failure of a request to the system may be
`ERROR_OBJECT_NOT_FOUND` too, which the callers take for a file without a node. -/
def findByHandle (w : LockWorld) (os : LockAnswers) (pid slot : ℕ) :
    Except IoErr FileLockNode :=
  match os.find with
  | .error ioErr => .error ioErr
  | .ok () =>
    match w.locks.findNode (w.info pid slot).id with
    | some fln => .ok fln
    | none => .error .objectNotFound

def removeLockedRegionNode (w : LockWorld) (os : LockAnswers) (pid slot : ℕ)
    (start originalLength : ℤ) : Except Fault LockWorld :=
  if (w.entry pid slot).flags.isLocked then
    match w.findByHandle os pid slot with
    | .error _ => .ok w
    | .ok fln =>
      let isIt (lrn : LockedRegion) : Bool :=
        lrn.owner == pid && lrn.start == start && lrn.length == originalLength
      let w := { w with locks := w.locks.removeRegions (w.info pid slot).id isIt }
      -- no more regions are locked
      if fln.regions.all isIt then w.mark false pid slot else .ok w
  else .ok w

/-- The file now has a lock set: the region is on its list, and the descriptors know. -/
def grant (w : LockWorld) (pid slot : ℕ) (locks : LockTable) : Except Fault LockWorld :=
  { w with locks := locks }.mark true pid slot

/-- The `F_SETLK` branch of `__handle_record_locking`. -/
def setlk (w : LockWorld) (os : LockAnswers) (pid slot : ℕ) (l : Flock) (start stop : ℤ) :
    Except Fault (LockWorld × CallReply) :=
  let shared := l.type == fRdlck
  let lrn : LockedRegion := ⟨start, stop, l.len, pid, shared⟩
  if !mayLock (w.entry pid slot) shared then .ok (w, .failed .EBADF)
  else if !os.semaphore then .ok (w, .failed .EBADF)
  else
    match w.findByHandle os pid slot with
    | .ok fln =>
      if (findCollidingRegion fln.regions pid start stop shared).isSome then
        .ok (w, .failed .EACCES)
      else
        (w.grant pid slot (w.locks.add (w.info pid slot).id lrn)).map fun w =>
          (w, { result := 0 })
    | .error ioErr =>
      if ioErr ≠ .objectNotFound then .ok (w, .failed (translateIoErrorToErrno ioErr))
      else
        -- nobody has any locks on this file: a node of its own
        (w.grant pid slot (w.locks ++ [{ file := (w.info pid slot).id, regions := [lrn] }])).map
          fun w => (w, { result := 0 })

/-- The `F_GETLK` branch of `__handle_record_locking`. -/
def getlk (w : LockWorld) (os : LockAnswers) (pid slot : ℕ) (l : Flock) (start stop : ℤ) :
    LockReply :=
  let shared := l.type == fRdlck
  if !os.semaphore then ⟨.failed .EBADF, l⟩
  else
    match w.findByHandle os pid slot with
    | .ok fln =>
      match findCollidingRegion fln.regions pid start stop shared with
      | some lrn =>
        ⟨{ result := 0 },
          ⟨if lrn.shared then fRdlck else fWrlck, 0, lrn.start, lrn.length, lrn.owner⟩⟩
      | none => ⟨{ result := 0 }, { l with type := fUnlck }⟩
    | .error ioErr =>
      if ioErr ≠ .objectNotFound then ⟨.failed (translateIoErrorToErrno ioErr), l⟩
      else ⟨{ result := 0 }, { l with type := fUnlck }⟩

/-- The `F_UNLCK` branch of `__handle_record_locking`. -/
def unlock (w : LockWorld) (os : LockAnswers) (pid slot : ℕ) (l : Flock) (start : ℤ) :
    Except Fault (LockWorld × CallReply) :=
  if !os.semaphore then .ok (w, .failed .EBADF)
  else (w.removeLockedRegionNode os pid slot start l.len).map fun w => (w, { result := 0 })

/-- Remember to unlock any records before closing the file. -/
def setCleanup (w : LockWorld) (pid slot : ℕ) : LockWorld :=
  w.setTable pid ((w.process pid).table.set slot { w.entry pid slot with cleanup := true })

/-- `__handle_record_locking`, with `F_SETLK` and `F_GETLK`. -/
def handleRecordLocking (w : LockWorld) (os : LockAnswers) (cmd : LockCmd) (pid slot : ℕ)
    (l : Flock) : Except Fault (LockWorld × LockReply) :=
  let w := w.setCleanup pid slot
  match lockRequest os cmd l (w.info pid slot) with
  | .error reply => .ok (w, ⟨reply, l⟩)
  | .ok (start, stop) =>
    if l.type = fUnlck then
      (w.unlock os pid slot l start).map fun (w, reply) => (w, ⟨reply, l⟩)
    else if cmd = .setlk then
      (w.setlk os pid slot l start stop).map fun (w, reply) => (w, ⟨reply, l⟩)
    else .ok (w, w.getlk os pid slot l start stop)

/-- The checks of `fcntl` for a request about locks: the slot of the original, or the reply of a
call that ends there. -/
def fcntlChecks (w : LockWorld) (pid : ℕ) (fileDescriptor : ℤ) (l : Flock) :
    Except Fault (ℕ ⊕ CallReply) :=
  let t := (w.process pid).table
  -- the entry is looked at before the number is checked
  if fileDescriptor < 0 ∨ (t.numFd : ℤ) ≤ fileDescriptor then .error .overread
  else if !t.inUse fileDescriptor.toNat then .ok (.inr (.failed .EINVAL))
  else
    match t.getFileDescriptor fileDescriptor with
    | none => .ok (.inr (.failed .EBADF))
    | some slot =>
      if (t.entry slot).flags.isSocket then .ok (.inr (.failed .EINVAL))
      else if (t.entry slot).file = 0 then .ok (.inr (.failed .EBADF))
      else if l.type < fRdlck ∨ fWrlck < l.type then .ok (.inr (.failed .EINVAL))
      else if l.whence < 0 ∨ 2 < l.whence then .ok (.inr (.failed .EINVAL))
      else .ok (.inl slot)

/-- `fcntl` with `F_SETLK` or `F_GETLK`. -/
def fcntlLock (w : LockWorld) (os : LockAnswers) (cmd : LockCmd) (pid : ℕ) (fileDescriptor : ℤ)
    (l : Flock) : Except Fault (LockWorld × LockReply) :=
  match w.fcntlChecks pid fileDescriptor l with
  | .error fault => .error fault
  | .ok (.inr reply) => .ok (w, ⟨reply, l⟩)
  | .ok (.inl slot) => w.handleRecordLocking os cmd pid slot l

/-- `fcntl` with `F_SETLKW`, up to its polling loop: the reply of a call that ends before, or a
process that waits. -/
def fcntlSetlkw (w : LockWorld) (os : LockAnswers) (pid : ℕ) (fileDescriptor : ℤ) (l : Flock) :
    Except Fault (LockWorld × Option CallReply) :=
  match w.fcntlChecks pid fileDescriptor l with
  | .error fault => .error fault
  | .ok (.inr reply) => .ok (w, some reply)
  | .ok (.inl slot) =>
    let w := w.setCleanup pid slot
    match lockRequest os .setlkw l (w.info pid slot) with
    | .error reply => .ok (w, some reply)
    | .ok (start, stop) =>
      match os.find with
      | .error ioErr => .ok (w, some (.failed (translateIoErrorToErrno ioErr)))
      | .ok () =>
        let shared := l.type == fRdlck
        if !mayLock (w.entry pid slot) shared then .ok (w, some (.failed .EBADF))
        else
          let p : PendingLock := ⟨slot, (w.info pid slot).id, start, stop, l.len, shared⟩
          .ok ({ w with pending := update w.pending pid (some p) }, none)

/-- One attempt of a process in the polling loop of `F_SETLKW`. -/
def poll (w : LockWorld) (semaphore : Bool) (pid : ℕ) :
    Except Fault (LockWorld × Option CallReply) :=
  match w.pending pid with
  | none => .ok (w, none)
  | some p =>
    let done := { w with pending := update w.pending pid none }
    if !semaphore then .ok (done, some (.failed .EBADF))
    else
      let lrn : LockedRegion := ⟨p.start, p.stop, p.length, pid, p.shared⟩
      match w.locks.findNode p.file with
      | some fln =>
        if (findCollidingRegion fln.regions pid p.start p.stop p.shared).isSome then
          .ok (w, none)
        else
          (done.grant pid p.slot (w.locks.add p.file lrn)).map fun w => (w, some { result := 0 })
      | none =>
        (done.grant pid p.slot (w.locks.add p.file lrn)).map fun w => (w, some { result := 0 })

/-- The user breaks the polling loop. -/
def abort (w : LockWorld) (pid : ℕ) : LockWorld × Option CallReply :=
  match w.pending pid with
  | none => (w, none)
  | some _ =>
    ({ w with pending := update w.pending pid none }, some (.failed .EINTR))

def cleanupLockedRecords (w : LockWorld) (os : LockAnswers) (pid slot : ℕ) :
    Except Fault LockWorld :=
  if (w.entry pid slot).flags.isLocked && os.semaphore then
    match w.findByHandle os pid slot with
    | .ok _ =>
      let locks := w.locks.removeRegions (w.info pid slot).id fun lrn => lrn.owner == pid
      { w with locks := locks }.mark false pid slot
    | .error ioErr => if ioErr = .objectNotFound then w.mark false pid slot else .ok w
  else .ok w

/-- Closing an entry: a file that is closed gives up its locks first. -/
def cleanup (w : LockWorld) (os : LockAnswers) (pid slot : ℕ) : Except Fault LockWorld :=
  let fd := w.entry pid slot
  if (w.process pid).resolveFdFile fd ≠ 0 && fd.closesFile && fd.cleanup then
    w.cleanupLockedRecords os pid slot
  else .ok w

def close (w : LockWorld) (fdOs : FdAnswers) (os : LockAnswers) (pid : ℕ) (fileDescriptor : ℤ) :
    Except Fault (LockWorld × CallReply) :=
  match (w.process pid).table.getFileDescriptorDontResolve fileDescriptor with
  | none => .ok (w, .failed .EBADF)
  | some n =>
    match w.cleanup os pid n with
    | .error fault => .error fault
    | .ok w =>
      ((w.process pid).closeAction fdOs n).map fun (s, reply) =>
        ({ w with process := update w.process pid s }, reply)

/-- For a process that has marked no entry, closing is what it is to the table of descriptors. -/
theorem close_process {w : LockWorld} {pid : ℕ}
    (h : ∀ slot, (w.entry pid slot).flags.isLocked = false) (fdOs : FdAnswers) (os : LockAnswers)
    (fileDescriptor : ℤ) :
    (w.close fdOs os pid fileDescriptor).map (fun t => (t.1.process pid, t.2)) =
      (w.process pid).close fdOs fileDescriptor := by
  have hclean : ∀ slot, w.cleanup os pid slot = .ok w := by
    intro slot
    simp [cleanup, cleanupLockedRecords, h slot]
  unfold close FdSystem.close
  cases (w.process pid).table.getFileDescriptorDontResolve fileDescriptor with
  | none => rfl
  | some n =>
    simp only [hclean]
    cases (w.process pid).closeAction fdOs n with
    | error fault => rfl
    | ok v => simp [Except.map]

end LockWorld

/-- What can happen in the world: the calls about locks, the attempts of waiting processes,
closing, and anything else that the processes and the system do with descriptors and files. -/
inductive LockStep
  | setlk (os : LockAnswers) (pid : ℕ) (fileDescriptor : ℤ) (l : Flock)
  | getlk (os : LockAnswers) (pid : ℕ) (fileDescriptor : ℤ) (l : Flock)
  | setlkw (os : LockAnswers) (pid : ℕ) (fileDescriptor : ℤ) (l : Flock)
  | poll (semaphore : Bool) (pid : ℕ)
  | abort (pid : ℕ)
  | close (fdOs : FdAnswers) (os : LockAnswers) (pid : ℕ) (fileDescriptor : ℤ)
  | other (process : ℕ → FdSystem) (files : ℕ → FileInfo)

/-- One step; a process that waits has no reply yet. -/
def LockStep.step (w : LockWorld) : LockStep → Except Fault (LockWorld × Option CallReply)
  | .setlk os pid fd l => (w.fcntlLock os .setlk pid fd l).map fun (w, r) => (w, some r.reply)
  | .getlk os pid fd l => (w.fcntlLock os .getlk pid fd l).map fun (w, r) => (w, some r.reply)
  | .setlkw os pid fd l => w.fcntlSetlkw os pid fd l
  | .poll semaphore pid => w.poll semaphore pid
  | .abort pid => .ok (w.abort pid)
  | .close fdOs os pid fd => (w.close fdOs os pid fd).map fun (w, r) => (w, some r)
  | .other process files => .ok ({ w with process := process, files := files }, none)

end Clib4
