import Clib4.Base.Loop
import Clib4.FdPosition

/-!
# The descriptor table

The process keeps its descriptor entries in a table that grows on demand.  Duplicating a
descriptor makes an *alias*: an entry of its own that points to the *original* and is linked
into the list of aliases which starts there.  Closing an alias takes it off that list; closing
an original hands its state over to the first alias, which becomes the original of the others;
only an entry without aliases has its file closed.

## Main definitions

* `FdTable` — the table; `growFdTable`, `findVacantFdEntry` and `vacantFrom` look for a slot.
* `duplicateFd`, `removeFdAlias` — the two functions that change the alias lists.
* `FdSystem` — the table, the files that are open, and the standard streams.
-/

namespace Clib4

/-! ### Slots -/

/-- `__fd` and `__num_fd`.  The entries of the slots from `numFd` on are not there yet. -/
structure FdTable where
  numFd : ℕ
  entry : ℕ → Fd

namespace FdTable

/-- Store an entry. -/
def set (t : FdTable) (n : ℕ) (fd : Fd) : FdTable :=
  { t with entry := Function.update t.entry n fd }

/-- Whether slot `n` has `FDF_IN_USE` set. -/
def inUse (t : FdTable) (n : ℕ) : Bool := (t.entry n).flags.inUse

@[simp] theorem set_entry_self (t : FdTable) (n : ℕ) (fd : Fd) : (t.set n fd).entry n = fd :=
  Function.update_self ..

theorem set_entry_of_ne (t : FdTable) {n m : ℕ} (h : m ≠ n) (fd : Fd) :
    (t.set n fd).entry m = t.entry m :=
  Function.update_of_ne h ..

/-- `get_file_descriptor` without resolution: the slot of a descriptor that is in use. -/
def getFileDescriptorDontResolve (t : FdTable) (fileDescriptor : ℤ) : Option ℕ :=
  if fileDescriptor < 0 ∨ (t.numFd : ℤ) ≤ fileDescriptor then none
  else if t.inUse fileDescriptor.toNat then some fileDescriptor.toNat
  else none

/-- `__get_file_descriptor`: the same, moved up to the original if this is an alias. -/
def getFileDescriptor (t : FdTable) (fileDescriptor : ℤ) : Option ℕ :=
  (t.getFileDescriptorDontResolve fileDescriptor).map fun n => (t.entry n).original.getD n

/-- The first slot from `base` on that is not in use. -/
def vacantFrom (t : FdTable) (base : ℕ) : Option ℕ :=
  (List.range' base (t.numFd - base)).find? fun i => !t.inUse i

def findVacantFdEntry (t : FdTable) : Option ℕ := t.vacantFrom 0

/-- `__grow_fd_table`; `none` when there is no memory.  The slots that are added are cleared. -/
def growFdTable (t : FdTable) (maxFd : ℤ) (memory : Bool) : Option FdTable :=
  let newNumFd : ℤ := if maxFd = 0 then t.numFd + 10 else maxFd
  if (t.numFd : ℤ) < newNumFd then
    if memory then
      some { numFd := newNumFd.toNat
             entry := fun i => if t.numFd ≤ i ∧ i < newNumFd.toNat then {} else t.entry i }
    else none
  else some t

/-- How `open` and `dup` get a slot: the first vacant one, of a longer table if need be. -/
def vacantSlot (t : FdTable) (memory : Bool) : Option (FdTable × ℕ) :=
  match t.findVacantFdEntry with
  | some n => some (t, n)
  | none =>
    (t.growFdTable 0 memory).bind fun t => t.findVacantFdEntry.map fun n => (t, n)

/-- The search loop of `F_DUPFD`, which looks at the slots from `base` on only. -/
def dupFdBody (base : ℕ) (memory : Bool) (t : FdTable) : FdTable ⊕ Option (FdTable × ℕ) :=
  match t.vacantFrom base with
  | some n => .inr (some (t, n))
  | none =>
    match t.growFdTable 0 memory with
    | none => .inr none
    | some t => .inl t

/-! ### Aliases -/

def initializeFd (file : ℕ) (flags : FdFlags) : Fd := { file := file, flags := flags }

/-- `__duplicate_fd`, with every field read when the source reads it: the two entries may be
the same one. -/
def duplicateFd (t : FdTable) (duplicate original : ℕ) : FdTable :=
  let t := t.set duplicate (initializeFd (t.entry original).file (t.entry original).flags)
  let first := (t.entry original).original.getD original
  let t := t.set duplicate { t.entry duplicate with original := some first }
  -- the duplicate goes to the beginning of the list
  let t := t.set duplicate { t.entry duplicate with nextAlias := (t.entry first).nextAlias }
  t.set first { t.entry first with nextAlias := some duplicate }

/-- The loop of `__remove_fd_alias` that takes alias `n` off its list. -/
def unlinkBody (t : FdTable) (n : ℕ) : Option ℕ → Option ℕ ⊕ FdTable
  | none => .inr t
  | some i =>
    if (t.entry i).nextAlias = some n then
      .inr (t.set i { t.entry i with nextAlias := (t.entry n).nextAlias })
    else .inl (t.entry i).nextAlias

/-- The loop of `__remove_fd_alias` that gives the remaining aliases their new original. -/
def retargetBody (first : ℕ) : Option ℕ × FdTable → (Option ℕ × FdTable) ⊕ FdTable
  | (none, t) => .inr t
  | (some i, t) =>
    let t := t.set i { t.entry i with original := some first }
    .inl ((t.entry i).nextAlias, t)

/-- `__remove_fd_alias`; `none` when a list does not end. -/
def removeFdAlias (t : FdTable) (n : ℕ) : Option FdTable :=
  let fd := t.entry n
  match fd.original, fd.nextAlias with
  | some original, _ => Loop.run (unlinkBody t n) (t.numFd + 1) (some original)
  | none, some first =>
    -- the first link now becomes the original resource
    let next := (t.entry first).nextAlias
    let t := t.set first { fd with nextAlias := next, original := none }
    Loop.run (retargetBody first) (t.numFd + 1) (next, t)
  | none, none => some t

end FdTable

/-- `__fd_is_aliased`. -/
def Fd.isAliased (fd : Fd) : Bool := fd.original.isSome || fd.nextAlias.isSome

/-- Whether closing the entry closes its file: it has no aliases, is not one of the standard
streams, and its file may be closed. -/
def Fd.closesFile (fd : Fd) : Bool :=
  fd.isPlain && !fd.isAliased && !fd.flags.stdio && (!fd.flags.noClose || fd.flags.pipe)

/-! ### The calls -/

/-- The descriptors of a process, the handles that are open in the system, and the handles of
its standard input, output and error stream. -/
structure FdSystem where
  table : FdTable
  opened : Finset ℕ
  standard : ℕ → ℕ

/-- What the requests of one call to the system are answered with. -/
structure FdAnswers where
  /-- Whether there is memory for a longer table. -/
  memory : Bool := true
  parentOfFH : Except IoErr Unit := .ok ()
  close : Except IoErr Unit := .ok ()

/-- The result of a call, and the value that it stores in `errno`, if any. -/
structure CallReply where
  result : ℤ
  errno : Option Errno := none
  deriving DecidableEq, Repr

/-- What `open` is asked for and meets: the file of that name, if there is one, the system
around it, and the answer of `Open`. -/
structure OpenRequest where
  flags : OpenFlags
  existing : Option (List UInt8)
  env : OpenEnv := {}
  handle : Except IoErr ℕ

/-- The reply of a call that fails with the error `e`. -/
def CallReply.failed (e : Errno) : CallReply := { result := -1, errno := some e }

/-- The entry that `open` makes for a regular file, or the error that it sets. -/
def OpenRequest.entry (r : OpenRequest) : Except Errno (ℕ × Fd) :=
  match r.handle with
  | .error ioErr =>
    if r.flags.excl && r.existing.isSome then .error .EEXIST
    else .error (translateAccessIoErrorToErrno ioErr)
  | .ok handle =>
    match openFile r.env r.existing r.flags handle with
    | some d => .ok (handle, d.fd)
    | none => .error (if r.flags.excl && r.existing.isSome then .EEXIST else .ENOENT)

namespace FdSystem

def resolveFdFile (s : FdSystem) (fd : Fd) : ℕ :=
  if fd.flags.stdio then s.standard fd.file else fd.file

/-- `open`, of a regular file. -/
def openCall (s : FdSystem) (os : FdAnswers) (r : OpenRequest) : FdSystem × CallReply :=
  match s.table.vacantSlot os.memory with
  | none => (s, .failed .ENOMEM)
  | some (t, n) =>
    match r.entry with
    | .error e => ({ s with table := t }, .failed e)
    | .ok (handle, fd) =>
      ({ s with table := t.set n fd, opened := insert handle s.opened }, { result := n })

/-- `file_action_close` of `__fd_hook_entry`, for the entry of slot `n`. -/
def closeAction (s : FdSystem) (os : FdAnswers) (n : ℕ) : Except Fault (FdSystem × CallReply) :=
  let fd := s.table.entry n
  if s.resolveFdFile fd = 0 then .ok (s, .failed .EBADF)
  else if fd.isPlain && fd.isAliased then
    match s.table.removeFdAlias n with
    | none => .error .timeout
    | some t => .ok ({ s with table := t.set n {} }, { result := 0 })
  else if fd.closesFile then
    match if fd.flags.pipe then .ok () else os.parentOfFH with
    -- the entry is left as it is, and the result is still `OK`
    | .error ioErr => .ok (s, { result := 0, errno := some (translateIoErrorToErrno ioErr) })
    | .ok () =>
      match os.close with
      | .error ioErr =>
        .ok ({ s with table := s.table.set n {} }, .failed (translateIoErrorToErrno ioErr))
      | .ok () =>
        .ok ({ s with table := s.table.set n {}, opened := s.opened.erase fd.file },
          { result := 0 })
  else .ok ({ s with table := s.table.set n {} }, { result := 0 })

def close (s : FdSystem) (os : FdAnswers) (fileDescriptor : ℤ) :
    Except Fault (FdSystem × CallReply) :=
  match s.table.getFileDescriptorDontResolve fileDescriptor with
  | none => .ok (s, .failed .EBADF)
  | some n => s.closeAction os n

def dup (s : FdSystem) (os : FdAnswers) (fileDescriptor : ℤ) : FdSystem × CallReply :=
  match s.table.getFileDescriptor fileDescriptor with
  | none => (s, .failed .EBADF)
  | some fd1 =>
    match s.table.vacantSlot os.memory with
    | none => (s, .failed .ENOMEM)
    | some (t, n) => ({ s with table := t.duplicateFd n fd1 }, { result := n })

def openMax : ℤ := 64

/-- `dup2`.  The first descriptor is resolved before the second one is closed. -/
def dup2 (s : FdSystem) (os : FdAnswers) (fileDescriptor1 fileDescriptor2 : ℤ) :
    Except Fault (FdSystem × CallReply) :=
  match s.table.getFileDescriptor fileDescriptor1 with
  | none => .ok (s, .failed .EBADF)
  | some fd1 =>
    if fileDescriptor2 < 0 ∨ openMax < fileDescriptor2 then .ok (s, .failed .EBADF)
    else if fileDescriptor1 = fileDescriptor2 then .ok (s, { result := fileDescriptor2 })
    else
      match s.table.growFdTable (fileDescriptor2 + 1) os.memory with
      | none => .ok (s, .failed .ENOMEM)
      | some t =>
        let s := { s with table := t }
        let fd2 := fileDescriptor2.toNat
        if s.table.inUse fd2 then
          match s.close os fileDescriptor2 with
          | .error e => .error e
          | .ok (s, reply) =>
            if reply.result < 0 then .ok (s, { reply with result := -1 })
            else .ok ({ s with table := s.table.duplicateFd fd2 fd1 },
              { reply with result := fileDescriptor2 })
        else .ok ({ s with table := s.table.duplicateFd fd2 fd1 }, { result := fileDescriptor2 })

/-- `fcntl` with `F_DUPFD`.  The entry is looked at before the number is checked, so a number
that the table does not hold reads beyond it. -/
def fcntlDupFd (s : FdSystem) (os : FdAnswers) (fileDescriptor base : ℤ) :
    Except Fault (FdSystem × CallReply) :=
  if fileDescriptor < 0 ∨ (s.table.numFd : ℤ) ≤ fileDescriptor then .error .overread
  else if !s.table.inUse fileDescriptor.toNat then .ok (s, .failed .EINVAL)
  else
    match s.table.getFileDescriptor fileDescriptor with
    | none => .ok (s, .failed .EBADF)
    | some fd =>
      if base < 0 then .ok (s, .failed .EINVAL)
      else
        match s.table.growFdTable (toInt32 (base + 1)) os.memory with
        | none => .ok (s, .failed .ENOMEM)
        | some t =>
          match Loop.run (FdTable.dupFdBody base.toNat os.memory) (base.toNat + 2) t with
          | none => .error .timeout
          | some none => .ok ({ s with table := t }, .failed .ENOMEM)
          | some (some (t, n)) => .ok ({ s with table := t.duplicateFd n fd }, { result := n })

end FdSystem

/-- The calls that change the descriptor table. -/
inductive TableCall
  | open (os : FdAnswers) (request : OpenRequest)
  | dup (os : FdAnswers) (fileDescriptor : ℤ)
  | fcntlDupFd (os : FdAnswers) (fileDescriptor base : ℤ)
  | dup2 (os : FdAnswers) (fileDescriptor1 fileDescriptor2 : ℤ)
  | close (os : FdAnswers) (fileDescriptor : ℤ)

/-- One call. -/
def TableCall.step (s : FdSystem) : TableCall → Except Fault (FdSystem × CallReply)
  | .open os request => .ok (s.openCall os request)
  | .dup os fd => .ok (s.dup os fd)
  | .fcntlDupFd os fd base => s.fcntlDupFd os fd base
  | .dup2 os fd1 fd2 => s.dup2 os fd1 fd2
  | .close os fd => s.close os fd

/-- The descriptors of a program that starts: the three standard streams. -/
def FdSystem.started (standard : ℕ → ℕ) : FdSystem where
  table :=
    { numFd := 3
      entry := fun n =>
        if n < 3 then
          FdTable.initializeFd n
            { read := n = 0, write := n ≠ 0, noClose := true, isInteractive := true, stdio := true
              inUse := true }
        else {} }
  opened := ∅
  standard := standard

end Clib4
