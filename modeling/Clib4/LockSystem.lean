import Clib4.Descriptors
import Clib4.FdMarks
import Clib4.LockExclusion

/-!
# Processes that lock and close files

All processes of the system together: each opens files, duplicates and closes descriptors, and
asks for locks on what it has open.  dos.library gives every file that is opened a handle of its
own, which stays with that file.  A process in the polling loop of `F_SETLKW` calls nothing else
until the loop is left.

The state also records through which handles a process has been granted locks.  The invariant
says that what is recorded shows in the descriptor tables: the entries for such a handle are
marked, and their original has the cleanup function, however the descriptors were duplicated and
closed in between.

## Main definitions

* `LockSystem`, `ProcessCall`, `LockSystemCall.step` — the system, and what happens in it.

## Main results

* `LockSystem.inv_of_exec` — **the invariant holds in every state that a run reaches.**
-/

namespace Clib4

open List Function

/-! ### The system -/

/-- The world, the handle that the next file to be opened gets, and the handles through which a
process has been granted a lock since they were opened, or last to be closed. -/
structure LockSystem where
  world : LockWorld
  nextHandle : ℕ
  through : ℕ → Finset ℕ

/-- What a process can call.  `open` is told which file it opens, or why it does not. -/
inductive ProcessCall
  | open (os : FdAnswers) (flags : OpenFlags) (existing : Option (List UInt8)) (env : OpenEnv)
      (file : Except IoErr FileInfo)
  | dup (os : FdAnswers) (fileDescriptor : ℤ)
  | fcntlDupFd (os : FdAnswers) (fileDescriptor base : ℤ)
  | dup2 (fdOs : FdAnswers) (os : LockAnswers) (fileDescriptor1 fileDescriptor2 : ℤ)
  | close (fdOs : FdAnswers) (os : LockAnswers) (fileDescriptor : ℤ)
  | setlk (os : LockAnswers) (fileDescriptor : ℤ) (l : Flock)
  | getlk (os : LockAnswers) (fileDescriptor : ℤ) (l : Flock)
  | setlkw (os : LockAnswers) (fileDescriptor : ℤ) (l : Flock)

namespace LockSystem

/-- The descriptor table of a process. -/
def table (s : LockSystem) (pid : ℕ) : FdTable := (s.world.process pid).table

/-- A process with other descriptors. -/
def setProcess (s : LockSystem) (pid : ℕ) (p : FdSystem) : LockSystem :=
  { s with world := { s.world with process := update s.world.process pid p } }

/-- The record once a lock has been granted through an entry. -/
def granted (s : LockSystem) (pid slot : ℕ) : ℕ → Finset ℕ :=
  update s.through pid (insert ((s.table pid).entry slot).file (s.through pid))

/-- The record once a process has been told to close a descriptor: the handle is forgotten if
the descriptor was the last one for it. -/
def forget (s : LockSystem) (pid : ℕ) (fileDescriptor : ℤ) : ℕ → Finset ℕ :=
  match (s.table pid).getFileDescriptorDontResolve fileDescriptor with
  | none => s.through
  | some n =>
    if ((s.table pid).entry n).closesFile then
      update s.through pid ((s.through pid).erase ((s.table pid).entry n).file)
    else s.through

/-- `open`, of a regular file. -/
def openCall (s : LockSystem) (pid : ℕ) (os : FdAnswers) (flags : OpenFlags)
    (existing : Option (List UInt8)) (env : OpenEnv) (file : Except IoErr FileInfo) :
    LockSystem × CallReply :=
  let request : OpenRequest := ⟨flags, existing, env, file.map fun _ => s.nextHandle⟩
  let (p, reply) := (s.world.process pid).openCall os request
  let files :=
    match file with
    | .error _ => s.world.files
    | .ok info => update s.world.files s.nextHandle info
  ({ s with world := { s.world with process := update s.world.process pid p
                                    files := files }
            nextHandle := s.nextHandle + 1 }, reply)

def close (s : LockSystem) (fdOs : FdAnswers) (os : LockAnswers) (pid : ℕ)
    (fileDescriptor : ℤ) : Except Fault (LockSystem × CallReply) :=
  (s.world.close fdOs os pid fileDescriptor).map fun (w, reply) =>
    ({ s with world := w, through := s.forget pid fileDescriptor }, reply)

/-- The last part of `dup2`: the entry of the second descriptor becomes a duplicate. -/
def duplicate (s : LockSystem) (pid fd2 fd1 : ℕ) : LockSystem :=
  { s with world := s.world.setTable pid ((s.table pid).duplicateFd fd2 fd1) }

/-- `dup2`, of a process that has locks: what it closes gives them up. -/
def dup2 (s : LockSystem) (fdOs : FdAnswers) (os : LockAnswers) (pid : ℕ)
    (fileDescriptor1 fileDescriptor2 : ℤ) : Except Fault (LockSystem × CallReply) :=
  match (s.table pid).getFileDescriptor fileDescriptor1 with
  | none => .ok (s, .failed .EBADF)
  | some fd1 =>
    if fileDescriptor2 < 0 ∨ FdSystem.openMax < fileDescriptor2 then .ok (s, .failed .EBADF)
    else if fileDescriptor1 = fileDescriptor2 then .ok (s, { result := fileDescriptor2 })
    else
      match (s.table pid).growFdTable (fileDescriptor2 + 1) fdOs.memory with
      | none => .ok (s, .failed .ENOMEM)
      | some t =>
        let s : LockSystem := { s with world := s.world.setTable pid t }
        let fd2 := fileDescriptor2.toNat
        if t.inUse fd2 then
          match s.close fdOs os pid fileDescriptor2 with
          | .error e => .error e
          | .ok (s, reply) =>
            if reply.result < 0 then .ok (s, { reply with result := -1 })
            else .ok (s.duplicate pid fd2 fd1, { reply with result := fileDescriptor2 })
        else .ok (s.duplicate pid fd2 fd1, { result := fileDescriptor2 })

/-- For a process that has marked no entry, `dup2` is what it is to the table of descriptors. -/
theorem dup2_process {s : LockSystem} {pid : ℕ}
    (h : ∀ slot, ((s.table pid).entry slot).flags.isLocked = false) (fdOs : FdAnswers)
    (os : LockAnswers) (fileDescriptor1 fileDescriptor2 : ℤ) :
    (s.dup2 fdOs os pid fileDescriptor1 fileDescriptor2).map
        (fun t => (t.1.world.process pid, t.2)) =
      (s.world.process pid).dup2 fdOs fileDescriptor1 fileDescriptor2 := by
  unfold dup2 FdSystem.dup2 LockSystem.table
  cases (s.world.process pid).table.getFileDescriptor fileDescriptor1 with
  | none => rfl
  | some fd1 =>
    dsimp only
    split_ifs with hrange hsame
    · rfl
    · rfl
    cases hgrow : (s.world.process pid).table.growFdTable (fileDescriptor2 + 1) fdOs.memory with
    | none => rfl
    | some t =>
      dsimp only
      have hprocess : (s.world.setTable pid t).process pid =
          { s.world.process pid with table := t } := update_self ..
      -- the new entries are not marked either
      have hunmarked : ∀ slot,
          ((s.world.setTable pid t).entry pid slot).flags.isLocked = false := by
        intro slot
        rw [LockWorld.entry, hprocess]
        unfold FdTable.growFdTable at hgrow
        dsimp only at hgrow
        generalize ite (fileDescriptor2 + 1 = 0) _ _ = newNumFd at hgrow
        split_ifs at hgrow
        · cases hgrow
          dsimp only
          split_ifs
          · rfl
          · exact h slot
        · cases hgrow
          exact h slot
      have hclose := LockWorld.close_process hunmarked fdOs os fileDescriptor2
      rw [hprocess] at hclose
      split_ifs with huse
      · rw [← hclose, close]
        cases (s.world.setTable pid t).close fdOs os pid fileDescriptor2 with
        | error fault => rfl
        | ok v =>
          dsimp only [Except.map]
          split_ifs
          · rfl
          · simp [duplicate, LockSystem.table, LockWorld.setTable]
      · simp [Except.map, duplicate, LockSystem.table, LockWorld.setTable]

/-- Whether a request about locks gets past the assertion of `__handle_record_locking` that the
file is not one of the standard streams, whose entries hold no handle to ask the system about. -/
def assertsHold (s : LockSystem) (pid : ℕ) (fileDescriptor : ℤ) (l : Flock) : Bool :=
  match s.world.fcntlChecks pid fileDescriptor l with
  | .ok (.inl slot) => !((s.table pid).entry slot).flags.stdio
  | _ => true

/-- `fcntl` with `F_SETLK` or `F_GETLK`. -/
def fcntlLock (s : LockSystem) (os : LockAnswers) (cmd : LockCmd) (pid : ℕ) (fileDescriptor : ℤ)
    (l : Flock) : Except Fault (LockSystem × CallReply) :=
  if s.assertsHold pid fileDescriptor l then
    (s.world.fcntlLock os cmd pid fileDescriptor l).map fun (w, r) =>
      ({ s with world := w
                through := if r.reply.result = 0 then s.granted pid fileDescriptor.toNat
                           else s.through }, r.reply)
  else .error .overread

/-- `fcntl` with `F_SETLKW`, up to its polling loop. -/
def fcntlSetlkw (s : LockSystem) (os : LockAnswers) (pid : ℕ) (fileDescriptor : ℤ) (l : Flock) :
    Except Fault (LockSystem × Option CallReply) :=
  if s.assertsHold pid fileDescriptor l then
    (s.world.fcntlSetlkw os pid fileDescriptor l).map fun (w, r) => ({ s with world := w }, r)
  else .error .overread

/-- The record after an attempt of a process that waits. -/
def afterPoll (s : LockSystem) (pid : ℕ) (reply : Option CallReply) : ℕ → Finset ℕ :=
  match s.world.pending pid with
  | none => s.through
  | some p => if reply = some { result := 0 } then s.granted pid p.slot else s.through

/-- One attempt of a process in the polling loop of `F_SETLKW`. -/
def poll (s : LockSystem) (semaphore : Bool) (pid : ℕ) :
    Except Fault (LockSystem × Option CallReply) :=
  (s.world.poll semaphore pid).map fun (w, reply) =>
    ({ s with world := w, through := s.afterPoll pid reply }, reply)

end LockSystem

/-- A call of a process. -/
def ProcessCall.step (s : LockSystem) (pid : ℕ) :
    ProcessCall → Except Fault (LockSystem × Option CallReply)
  | .open os flags existing env file =>
    let (s, reply) := s.openCall pid os flags existing env file
    .ok (s, some reply)
  | .dup os fd =>
    let (p, reply) := (s.world.process pid).dup os fd
    .ok (s.setProcess pid p, some reply)
  | .fcntlDupFd os fd base =>
    ((s.world.process pid).fcntlDupFd os fd base).map fun (p, reply) =>
      (s.setProcess pid p, some reply)
  | .dup2 fdOs os fd1 fd2 => (s.dup2 fdOs os pid fd1 fd2).map fun (s, reply) => (s, some reply)
  | .close fdOs os fd => (s.close fdOs os pid fd).map fun (s, reply) => (s, some reply)
  | .setlk os fd l => (s.fcntlLock os .setlk pid fd l).map fun (s, reply) => (s, some reply)
  | .getlk os fd l => (s.fcntlLock os .getlk pid fd l).map fun (s, reply) => (s, some reply)
  | .setlkw os fd l => s.fcntlSetlkw os pid fd l

/-- What can happen in the system: a process that does not wait calls something, one that waits
makes an attempt or is broken off, or files and the positions in them change. -/
inductive LockSystemCall
  | call (pid : ℕ) (call : ProcessCall)
  | poll (semaphore : Bool) (pid : ℕ)
  | abort (pid : ℕ)
  | change (size position : ℕ → ℤ)

/-- One step; there is no reply where nobody waits for one. -/
def LockSystemCall.step (s : LockSystem) :
    LockSystemCall → Except Fault (LockSystem × Option CallReply)
  | .call pid c => if (s.world.pending pid).isSome then .ok (s, none) else c.step s pid
  | .poll semaphore pid => s.poll semaphore pid
  | .abort pid =>
    let (w, reply) := s.world.abort pid
    .ok ({ s with world := w }, reply)
  | .change size position =>
    let files := fun h => { s.world.files h with size := size h, position := position h }
    .ok ({ s with world := { s.world with files := files } }, none)

/-- The system when the processes start: each has its standard streams, and nothing is locked. -/
def LockSystem.started (standard : ℕ → ℕ → ℕ) (files : ℕ → FileInfo) : LockSystem where
  world := LockWorld.initial (fun pid => FdSystem.started (standard pid)) files
  nextHandle := 1
  through := fun _ => ∅

/-- The system does not claim that a file which is open does not exist. -/
def LockSystemCall.Served : LockSystemCall → Prop
  | .call _ (.setlk os _ _) => os.find ≠ .error .objectNotFound
  | _ => True

/-! ### Closing -/

/-- What closing slot `n` without a failure leaves: the slot is clear, or it is in use still and
alone in its group; the other originals stay. -/
structure FdTable.AfterClose (t t' : FdTable) (n : ℕ) : Prop where
  numFd : t'.numFd = t.numFd
  self : t'.entry n = {} ∨
    (t.entry n).isAliased = false ∧ t'.inUse n = true ∧ (t'.entry n).isAliased = false
  other : ∀ o, o ≠ n → t.inUse o = true → t.original o = none →
    t'.inUse o = true ∧ t'.original o = none

open FdTable

namespace FdTable

variable {t t' : FdTable} {n : ℕ}

theorem afterClose_set (t : FdTable) (n : ℕ) : t.AfterClose (t.set n {}) n where
  numFd := rfl
  self := .inl (set_entry_self ..)
  other o hon hu ho := by
    rw [inUse, original, set_entry_of_ne t hon]
    exact ⟨hu, ho⟩

theorem afterClose_self (hn : t.inUse n = true) (hlone : (t.entry n).isAliased = false) :
    t.AfterClose t n where
  numFd := rfl
  self := .inr ⟨hlone, hn, hlone⟩
  other _ _ hu ho := ⟨hu, ho⟩

theorem afterClose_removeFdAlias (h : t.tidy.Aliases) (hn : t.inUse n = true)
    (halias : (t.entry n).isAliased = true) (hremove : t.removeFdAlias n = some t') :
    t.AfterClose (t'.set n {}) n := by
  obtain ⟨t₁, ht₁, htidy⟩ := tidy_removeFdAlias h hn halias
  obtain rfl : t₁ = t' := Option.some.inj (ht₁.symm.trans hremove)
  obtain ⟨u, hu, -, hw⟩ := h.removeFdAlias (n := n) (by rw [tidy_inUse, hn])
    (by rwa [tidy_entry_of_inUse hn])
  obtain rfl : u = t₁.tidy := Option.some.inj (hu.symm.trans htidy)
  rw [← tidy_clear] at hw
  refine ⟨hw.numFd, .inl (set_entry_self ..), ?_⟩
  intro o hon hou ho
  have hinUse : (t₁.set n {}).inUse o = true := by
    rw [← tidy_inUse, inUse, hw.flags o hon, tidy_entry_of_inUse hou]
    exact hou
  refine ⟨hinUse, ?_⟩
  rw [← tidy_original hinUse]
  exact hw.original o hon ((tidy_original hou).trans ho)

/-- The same for a table whose groups have been marked in between. -/
theorem AfterClose.of_modify {l : List ℕ} {b : Bool}
    (h : (t.modify l (setLocked b)).AfterClose t' n) : t.AfterClose t' n := by
  have halias : ((t.modify l (setLocked b)).entry n).isAliased = (t.entry n).isAliased := by
    rw [modify_entry]
    split <;> rfl
  refine ⟨h.numFd, halias ▸ h.self, ?_⟩
  intro o hon hu ho
  refine h.other o hon ?_ ?_
  · rw [modify_setLocked_inUse, hu]
  · rw [modify_setLocked_original, ho]

end FdTable

namespace FdSystem

variable {p p' : FdSystem} {n next : ℕ} {through : Finset ℕ} {os : FdAnswers} {reply : CallReply}

theorem closeAction_spec (ht : p.table.tidy.Marked next through) (hn : p.table.inUse n = true)
    (h : p.closeAction os n = .ok (p', reply)) :
    p'.table.tidy.Marked next through ∧
      (0 ≤ reply.result → p.table.AfterClose p'.table n) := by
  have hn' : p.table.tidy.inUse n = true := by rw [tidy_inUse, hn]
  have hentry := tidy_entry_of_inUse hn
  have hplain := ht.plain n hn'
  rw [hentry] at hplain
  -- an entry that has no aliases is cleared
  have hclear : (p.table.entry n).isAliased = false →
      (p.table.set n {}).tidy.Marked next through := by
    intro hlone
    rw [tidy_clear]
    exact ht.clear hn' (hentry ▸ hlone)
  unfold closeAction at h
  dsimp only at h
  split at h
  · cases h
    exact ⟨ht, fun hres => absurd hres (by decide)⟩
  cases halias : (p.table.entry n).isAliased with
  | true =>
    obtain ⟨t, hremove, htidy⟩ := FdTable.tidy_removeFdAlias ht.aliases hn halias
    rw [hplain, halias, Bool.and_self, if_pos rfl, hremove] at h
    cases h
    refine ⟨?_, fun _ => FdTable.afterClose_removeFdAlias ht.aliases hn halias hremove⟩
    show (t.set n {}).tidy.Marked next through
    rw [tidy_clear]
    exact ht.removeFdAlias hn' (hentry ▸ halias) htidy
  | false =>
    rw [halias, if_neg (by simp)] at h
    split at h
    · split at h
      · cases h
        exact ⟨ht, fun _ => FdTable.afterClose_self hn halias⟩
      · split at h <;> cases h <;>
          exact ⟨hclear halias, fun _ => afterClose_set _ _⟩
    · cases h
      exact ⟨hclear halias, fun _ => afterClose_set _ _⟩

theorem eq_of_getFileDescriptorDontResolve {t : FdTable} {fd : ℤ}
    (h : t.getFileDescriptorDontResolve fd = some n) : fd = n ∧ t.inUse n = true := by
  unfold FdTable.getFileDescriptorDontResolve at h
  split at h
  · cases h
  split at h
  case isTrue hrange hu =>
    cases h
    exact ⟨by omega, hu⟩
  case isFalse => cases h

theorem exists_of_getFileDescriptor {t : FdTable} {fd : ℤ} {slot : ℕ}
    (h : t.getFileDescriptor fd = some slot) :
    ∃ m : ℕ, fd = m ∧ t.inUse m = true ∧ slot = t.root m := by
  obtain ⟨m, hm, rfl⟩ := Option.map_eq_some_iff.1 h
  obtain ⟨hfd, hu⟩ := eq_of_getFileDescriptorDontResolve hm
  exact ⟨m, hfd, hu, rfl⟩

theorem openCall_marked (ht : p.table.tidy.Marked next through) (hpos : 0 < next)
    (os : FdAnswers) {request : OpenRequest}
    (hhandle : ∀ h, request.handle = .ok h → h = next) :
    (p.openCall os request).1.table.tidy.Marked (next + 1) through := by
  unfold openCall
  split
  case h_1 => exact ht.mono (Nat.le_succ next) subset_rfl
  case h_2 t n hslot =>
    have hfound := tidy_found_of_vacantSlot ht.aliases hslot
    have ht' := ht.of_entry_eq hfound.entry hfound.numFd
    split
    case h_1 => exact ht'.mono (Nat.le_succ next) subset_rfl
    case h_2 handle fd hentry =>
      obtain ⟨hfile, hu, ho, hnext, hplain, -, hcloses⟩ := entry_spec hentry
      have hnew : handle = next := by
        refine hhandle handle ?_
        unfold OpenRequest.entry at hentry
        split at hentry
        · split at hentry <;> cases hentry
        · split at hentry <;> cases hentry
          assumption
      have hvacant := hfound.vacant
      rw [← Aliases.inUse_congr hfound.entry] at hvacant
      show (t.set n fd).tidy.Marked (next + 1) through
      rw [FdTable.tidy_set_of_inUse t n hu]
      exact ht'.adjoin hvacant hfound.bound hpos (hfile.trans hnew) hu ho hnext hplain hcloses

theorem dup_marked (ht : p.table.tidy.Marked next through) (os : FdAnswers) (fd : ℤ) :
    (p.dup os fd).1.table.tidy.Marked next through := by
  unfold dup
  split
  case h_1 => exact ht
  case h_2 fd1 hget =>
    obtain ⟨m, -, hm, rfl⟩ := exists_of_getFileDescriptor hget
    split
    case h_1 => exact ht
    case h_2 t n hslot =>
      exact ht.duplicate_of_found hm (tidy_found_of_vacantSlot ht.aliases hslot)

theorem fcntlDupFd_marked (ht : p.table.tidy.Marked next through) {fd base : ℤ}
    (h : p.fcntlDupFd os fd base = .ok (p', reply)) : p'.table.tidy.Marked next through := by
  unfold fcntlDupFd at h
  split at h
  · cases h
  split at h
  · cases h
    exact ht
  split at h
  · cases h
    exact ht
  case h_2 fd1 hget =>
    obtain ⟨m, -, hm, rfl⟩ := exists_of_getFileDescriptor hget
    split at h
    · cases h
      exact ht
    split at h
    · cases h
      exact ht
    case h_2 t hgrow =>
      obtain ⟨hentry, hnum, -⟩ := tidy_growFdTable ht.aliases hgrow
      have ht' := ht.of_entry_eq hentry hnum
      split at h
      · cases h
      · cases h
        exact ht'
      case h_3 t' n hrun =>
        cases h
        have hfound := FdTable.tidy_found_of_run_dupFdBody ht'.aliases hrun
        exact ht.duplicate_of_found hm (hfound.of_entry_eq hentry hnum)

end FdSystem

/-! ### Asking for locks -/

/-- A process waits for a lock through a slot: an original that is for a handle, and has the
cleanup function. -/
structure FdTable.Ready (t : FdTable) (slot : ℕ) : Prop where
  original : t.original slot = none
  cleanup : (t.entry slot).cleanup = true
  refers : t.RefersTo slot (t.entry slot).file

namespace FdTable

variable {t t' : FdTable} {n next : ℕ} {through : Finset ℕ}

theorem Ready.grant (hready : t.Ready n) (ht : t.tidy.Marked next through)
    (hmark : t.mark true n = some t') :
    t'.tidy.Marked next (insert (t.entry n).file through) := by
  have hu := hready.refers.1
  obtain ⟨l, hl, hl', htidy⟩ := exists_mark ht.aliases hu true
  obtain rfl : t.modify l (setLocked true) = t' := Option.some.inj (hl'.symm.trans hmark)
  rw [htidy]
  refine ht.grant (refersTo_tidy.2 hready.refers) ?_ ?_ ?_
  · rw [tidy_original hu, hready.original]
  · rw [tidy_entry_of_inUse hu, hready.cleanup]
  · simpa only [tidy_inUse] using hl

/-- A request through a descriptor that is no standard stream makes its original ready. -/
theorem ready_setCleanup (ht : t.tidy.Aliases) (hn : t.inUse n = true)
    (hstdio : (t.entry (t.root n)).flags.stdio = false) :
    (t.setCleanup (t.root n)).Ready (t.root n) ∧
      ((t.setCleanup (t.root n)).entry (t.root n)).file = (t.entry n).file := by
  obtain ⟨hu, ho, hfile⟩ := ht.of_tidy_root hn
  have hself : (t.setCleanup (t.root n)).entry (t.root n)
      = { t.entry (t.root n) with cleanup := true } := set_entry_self ..
  refine ⟨⟨?_, ?_, ?_, ?_, ?_⟩, ?_⟩
  · rw [original, hself]
    exact ho
  · rw [hself]
  · rw [inUse, hself]
    exact hu
  · rw [hself]
    exact hstdio
  · rfl
  · rw [hself]
    exact hfile.symm

end FdTable

namespace LockWorld

variable {w w' : LockWorld} {os : LockAnswers} {pid slot : ℕ} {fd : ℤ} {l : Flock}

/-- What a request through an original can do to the world: the entry has the cleanup function,
and if the request is granted, which only `F_SETLK` can be, the group is marked. -/
inductive Asked (w : LockWorld) (cmd : LockCmd) (pid slot : ℕ) (reply : CallReply) :
    LockWorld → Prop
  | failed (hreply : reply.result ≠ 0) : Asked w cmd pid slot reply (w.setCleanup pid slot)
  | granted (t : FdTable) (locks : LockTable) (hcmd : cmd = .setlk)
      (hmark : ((w.process pid).table.setCleanup slot).mark true slot = some t) :
      Asked w cmd pid slot reply (LockWorld.setTable { w with locks := locks } pid t)

/-- `fcntl` with `F_SETLK` or `F_GETLK` ends in its checks, or asks. -/
theorem fcntlLock_asked {cmd : LockCmd} {r : LockReply} (hcmd : cmd ≠ .setlkw)
    (h : w.fcntlLock os cmd pid fd l = .ok (w', r)) :
    (w' = w ∧ r.reply.result ≠ 0) ∨
      ∃ slot, w.fcntlChecks pid fd l = .ok (.inl slot) ∧ Asked w cmd pid slot r.reply w' := by
  have hfailed : ∀ {reply : CallReply}, reply.result = -1 → reply.result ≠ 0 := by
    intro reply hreply
    rw [hreply]
    decide
  rcases fcntlLock_cases hcmd h with
    ⟨hres, -, rfl | ⟨slot, hchecks, rfl⟩⟩ | ⟨hset, -, slot, start, stop, hchecks, -, hsetlk⟩
  · exact .inl ⟨rfl, hfailed hres⟩
  · exact .inr ⟨slot, hchecks, .failed (hfailed hres)⟩
  · refine .inr ⟨slot, hchecks, ?_⟩
    rcases setlk_cases hsetlk with ⟨rfl, hres⟩ | ⟨locks, hgrant, -⟩
    · exact .failed (hfailed hres)
    · obtain ⟨t, ht, rfl⟩ := mark_eq_ok hgrant
      have hworld : LockWorld.setTable { w.setCleanup pid slot with locks := locks } pid t
          = LockWorld.setTable { w with locks := locks } pid t := by
        simp [setTable, setCleanup]
      rw [hworld]
      refine .granted t locks hset ?_
      simpa [setCleanup, setTable, entry, FdTable.setCleanup] using ht

/-- Closing a descriptor keeps the marks of the handles that other descriptors are for. -/
theorem close_spec {next : ℕ} {through : Finset ℕ} {fdOs : FdAnswers} {reply : CallReply}
    (ht : (w.process pid).table.tidy.Marked next through)
    (hforget : ∀ n, (w.process pid).table.getFileDescriptorDontResolve fd = some n →
      (w.entry pid n).closesFile = true → (w.entry pid n).file ∉ through)
    (h : w.close fdOs os pid fd = .ok (w', reply)) :
    w'.pending = w.pending ∧ (∀ q, q ≠ pid → w'.process q = w.process q) ∧
      (w'.process pid).table.tidy.Marked next through ∧
      (0 ≤ reply.result → ∀ n : ℕ, fd = n →
        (w.process pid).table.AfterClose (w'.process pid).table n) := by
  unfold close at h
  split at h
  · cases h
    exact ⟨rfl, fun _ _ => rfl, ht, fun hres => absurd hres (by decide)⟩
  case h_2 n hget =>
    obtain ⟨hfd, hn⟩ := FdSystem.eq_of_getFileDescriptorDontResolve hget
    split at h
    · cases h
    case h_2 w₁ hcleanup =>
      obtain ⟨⟨p, reply'⟩, hclose, heq⟩ := map_eq_ok h
      cases heq
      have hself : (update w₁.process pid p pid).table = p.table := by
        rw [update_self]
      obtain ⟨locks, -, rfl | ⟨hcloses, t, hmark, rfl⟩⟩ := cleanup_cases True hcleanup
      · obtain ⟨hmarked, hafter⟩ := FdSystem.closeAction_spec ht hn hclose
        refine ⟨rfl, fun q hq => update_of_ne hq .., ?_, ?_⟩
        · rw [hself]
          exact hmarked
        · intro hres m hm
          obtain rfl : n = m := Int.ofNat.inj (hfd.symm.trans hm)
          rw [hself]
          exact hafter hres
      · -- the marks of the group are taken off first
        obtain ⟨l, hl, hl', htidy⟩ := FdTable.exists_mark ht.aliases hn false
        obtain rfl := Option.some.inj (hl'.symm.trans hmark)
        have htable : ((LockWorld.setTable { w with locks := locks } pid
            ((w.process pid).table.modify l (setLocked false))).process pid).table
              = (w.process pid).table.modify l (setLocked false) := by
          simp [setTable]
        have ht' : ((w.process pid).table.modify l (setLocked false)).tidy.Marked
            next through := by
          rw [htidy]
          refine ht.setLocked (n := n) (by rw [tidy_inUse, hn])
            (by simpa only [tidy_inUse] using hl) fun _ => ?_
          rw [tidy_entry_of_inUse hn]
          exact hforget n hget hcloses
        have hn' : ((w.process pid).table.modify l (setLocked false)).inUse n = true := by
          rw [modify_setLocked_inUse, hn]
        rw [← htable] at ht' hn'
        obtain ⟨hmarked, hafter⟩ := FdSystem.closeAction_spec ht' hn' hclose
        refine ⟨rfl, ?_, ?_, ?_⟩
        · intro q hq
          simp [setTable, hq]
        · rw [hself]
          exact hmarked
        · intro hres m hm
          obtain rfl : n = m := Int.ofNat.inj (hfd.symm.trans hm)
          rw [hself]
          rw [htable] at hafter
          exact (hafter hres).of_modify

end LockWorld

/-! ### The lock table -/

/-- A file has one node at most, and a node has regions. -/
structure LockTable.Sound (t : LockTable) : Prop where
  oneNode : t.OneNodePerFile
  nonempty : ∀ fln ∈ t, fln.regions ≠ []

theorem LockTable.Changed.sound {served : Prop} {t t' : LockTable} (h : Changed served t t')
    (hserved : served) (ht : t.Sound) : t'.Sound :=
  ⟨h.oneNodePerFile hserved ht.oneNode,
    h.forall_mem ht.nonempty (by simp) (by simp) fun _ _ _ hne => hne⟩

/-! ### The invariant -/

namespace LockSystem

variable {s s' : LockSystem} {pid : ℕ} {fdOs : FdAnswers} {os : LockAnswers} {fd : ℤ}
  {reply : CallReply}

/-- What every step keeps. -/
structure Inv (s : LockSystem) : Prop where
  pos : 0 < s.nextHandle
  marked : ∀ pid, (s.table pid).tidy.Marked s.nextHandle (s.through pid)
  waiting : ∀ pid p, s.world.pending pid = some p → (s.table pid).Ready p.slot
  locks : s.world.locks.Sound

/-- What the system looks like to the other processes. -/
structure Others (s s' : LockSystem) (pid : ℕ) : Prop where
  table : ∀ q, q ≠ pid → s'.table q = s.table q
  through : ∀ q, q ≠ pid → s'.through q = s.through q
  pending : ∀ q, q ≠ pid → s'.world.pending q = s.world.pending q
  nextHandle : s.nextHandle ≤ s'.nextHandle

theorem Inv.of_others (h : s.Inv) (pid : ℕ) (hothers : s.Others s' pid)
    (hmarked : (s'.table pid).tidy.Marked s'.nextHandle (s'.through pid))
    (hwaiting : ∀ p, s'.world.pending pid = some p → (s'.table pid).Ready p.slot)
    (hlocks : s'.world.locks.Sound) : s'.Inv := by
  refine ⟨Nat.lt_of_lt_of_le h.pos hothers.nextHandle, ?_, ?_, hlocks⟩
  · intro q
    by_cases hq : q = pid
    · rw [hq]
      exact hmarked
    · rw [hothers.table q hq, hothers.through q hq]
      exact (h.marked q).mono hothers.nextHandle subset_rfl
  · intro q p hp
    by_cases hq : q = pid
    · rw [hq] at hp ⊢
      exact hwaiting p hp
    · rw [hothers.pending q hq] at hp
      rw [hothers.table q hq]
      exact h.waiting q p hp

theorem Inv.of_others_idle (h : s.Inv) (hothers : s.Others s' pid)
    (hmarked : (s'.table pid).tidy.Marked s'.nextHandle (s'.through pid))
    (hidle : s'.world.pending pid = none) (hlocks : s'.world.locks.Sound) : s'.Inv := by
  refine h.of_others pid hothers hmarked ?_ hlocks
  intro p hp
  rw [hidle] at hp
  cases hp

theorem setProcess_self (s : LockSystem) (pid : ℕ) (p : FdSystem) :
    (s.setProcess pid p).table pid = p.table :=
  congrArg FdSystem.table (update_self ..)

theorem setProcess_of_ne (s : LockSystem) (p : FdSystem) {q : ℕ} (hq : q ≠ pid) :
    (s.setProcess pid p).table q = s.table q :=
  congrArg FdSystem.table (update_of_ne hq ..)

section Idle

variable (h : s.Inv) (hidle : s.world.pending pid = none)

include h hidle

theorem Inv.setProcess {p : FdSystem}
    (hp : p.table.tidy.Marked s.nextHandle (s.through pid)) : (s.setProcess pid p).Inv := by
  refine h.of_others_idle
    ⟨fun _ => s.setProcess_of_ne p, fun _ _ => rfl, fun _ _ => rfl, Nat.le_refl _⟩ ?_ hidle h.locks
  rw [setProcess_self]
  exact hp

theorem Inv.setTable {t : FdTable} (ht : t.tidy.Marked s.nextHandle (s.through pid)) :
    Inv { s with world := s.world.setTable pid t } :=
  h.setProcess hidle (p := { s.world.process pid with table := t }) ht

theorem Inv.openCall (os : FdAnswers) (flags : OpenFlags) (existing : Option (List UInt8))
    (env : OpenEnv) (file : Except IoErr FileInfo) :
    (s.openCall pid os flags existing env file).1.Inv := by
  have hhandle : ∀ k, (file.map fun _ => s.nextHandle) = .ok k → k = s.nextHandle := by
    intro k hk
    cases file with
    | error e => cases hk
    | ok info =>
      cases hk
      rfl
  have hmarked : ((s.world.process pid).openCall os
      ⟨flags, existing, env, file.map fun _ => s.nextHandle⟩).1.table.tidy.Marked
        (s.nextHandle + 1) (s.through pid) :=
    FdSystem.openCall_marked (h.marked pid) h.pos os hhandle
  refine h.of_others_idle
    ⟨fun _ => s.setProcess_of_ne _, fun _ _ => rfl, fun _ _ => rfl, Nat.le_succ _⟩ ?_ hidle h.locks
  show Marked _ _ (((s.setProcess pid _).table pid).tidy)
  rw [setProcess_self]
  exact hmarked

/-! ### Closing, and duplicating to a given descriptor -/

omit h hidle in
/-- The record of a process that closes a descriptor loses the handle of the file that is
closed, and nothing else. -/
theorem forget_spec (s : LockSystem) (pid : ℕ) (fd : ℤ) :
    (∀ q, q ≠ pid → s.forget pid fd q = s.through q) ∧
      s.forget pid fd pid ⊆ s.through pid ∧
      ∀ n, (s.table pid).getFileDescriptorDontResolve fd = some n →
        ((s.table pid).entry n).closesFile = true →
          ((s.table pid).entry n).file ∉ s.forget pid fd pid := by
  cases hget : (s.table pid).getFileDescriptorDontResolve fd with
  | none =>
    simp only [forget, hget]
    exact ⟨fun _ _ => trivial, subset_rfl, fun n hn => by cases hn⟩
  | some n =>
    cases hcloses : ((s.table pid).entry n).closesFile with
    | false =>
      simp only [forget, hget, hcloses]
      refine ⟨fun _ _ => rfl, subset_rfl, ?_⟩
      intro m hm hm'
      cases hm
      rw [hcloses] at hm'
      cases hm'
    | true =>
      simp only [forget, hget, hcloses, if_true, update_self]
      refine ⟨fun q hq => update_of_ne hq .., Finset.erase_subset _ _, ?_⟩
      intro m hm _
      cases hm
      exact Finset.notMem_erase _ _

theorem Inv.close (hclose : s.close fdOs os pid fd = .ok (s', reply)) :
    s'.Inv ∧ s'.world.pending pid = none ∧
      (0 ≤ reply.result → ∀ n : ℕ, fd = n → (s.table pid).AfterClose (s'.table pid) n) := by
  obtain ⟨⟨w, r⟩, hw, heq⟩ := LockWorld.map_eq_ok hclose
  cases heq
  obtain ⟨hothers, hsub, hforget⟩ := s.forget_spec pid fd
  obtain ⟨hpend, hprocess, hmarked, hafter⟩ :=
    LockWorld.close_spec ((h.marked pid).mono (Nat.le_refl _) hsub) hforget hw
  have hidle' : w.pending pid = none := by rw [hpend, hidle]
  refine ⟨h.of_others_idle ⟨?_, hothers, ?_, Nat.le_refl _⟩ hmarked hidle' ?_, hidle', hafter⟩
  · intro q hq
    exact congrArg FdSystem.table (hprocess q hq)
  · intro q _
    exact congrFun hpend q
  · exact (LockWorld.close_changed True hw).sound trivial h.locks

theorem Inv.duplicate {n o : ℕ}
    (ht : ((s.table pid).duplicateFd n o).tidy.Marked s.nextHandle (s.through pid)) :
    (s.duplicate pid n o).Inv :=
  h.setTable hidle ht

omit h hidle in
/-- The last part of `dup2`, after its target has been closed. -/
theorem marked_duplicate_of_afterClose {t t' : FdTable} {next n m : ℕ} {through : Finset ℕ}
    (ht : t.tidy.Aliases) (hm : t.inUse m = true) (hmn : m ≠ n) (hn : t.inUse n = true)
    (ht' : t'.tidy.Marked next through) (hafter : t.AfterClose t' n) :
    (t'.duplicateFd n (t.root m)).tidy.Marked next through := by
  obtain ⟨hu, ho, -⟩ := ht.of_tidy_root hm
  have hbound : n < t'.numFd := by
    rw [hafter.numFd]
    exact ht.bound n (by rw [tidy_inUse, hn])
  by_cases hroot : t.root m = n
  · -- the target was the original of the source, so it has been taken off its list
    have hself : t'.entry n = {} := by
      refine hafter.self.resolve_right ?_
      rintro ⟨hlone, -⟩
      refine hmn (ht.eq_of_root_eq (n := n) (by rw [tidy_inUse, hn]) ?_ ?_)
      · rw [tidy_entry_of_inUse hn, hlone]
      · rw [tidy_root hm, tidy_root hn, hroot, Aliases.root_of_none (hroot ▸ ho)]
    rw [hroot, FdTable.tidy_duplicateFd_self hself]
    exact ht'
  · obtain ⟨hu', ho'⟩ := hafter.other _ hroot hu ho
    have hno : n ≠ t.root m := Ne.symm hroot
    -- the slot of the target can be taken to be clear
    have hclear : (t'.set n {}).tidy.Marked next through := by
      rcases hafter.self with hself | ⟨-, hself, hlone⟩
      · have heq : t'.set n {} = t' := by
          rw [FdTable.set, update_eq_self_iff.2 hself.symm]
        rw [heq]
        exact ht'
      · rw [tidy_clear]
        refine ht'.clear (by rw [tidy_inUse, hself]) ?_
        rw [tidy_entry_of_inUse hself, hlone]
    have hn' : (t'.set n {}).inUse n = false := by simp [inUse]
    have hu'' : (t'.set n {}).inUse (t.root m) = true := by
      rw [inUse, set_entry_of_ne _ hroot]
      exact hu'
    have ho'' : (t'.set n {}).original (t.root m) = none := by
      rw [original, set_entry_of_ne _ hroot]
      exact ho'
    rw [← FdTable.duplicateFd_set_self hno ho' {}, FdTable.tidy_duplicateFd hno hu'' ho'']
    refine hclear.duplicate ?_ hbound ?_ ?_
    · rw [tidy_inUse, hn']
    · rw [tidy_inUse, hu'']
    · rw [tidy_original hu'', ho'']

theorem Inv.dup2 {fd1 fd2 : ℤ}
    (hdup2 : s.dup2 fdOs os pid fd1 fd2 = .ok (s', reply)) : s'.Inv := by
  unfold LockSystem.dup2 at hdup2
  split at hdup2
  · cases hdup2
    exact h
  case h_2 slot hget =>
    obtain ⟨m, rfl, hm, rfl⟩ := FdSystem.exists_of_getFileDescriptor hget
    split at hdup2
    · cases hdup2
      exact h
    case isFalse hrange =>
      obtain ⟨n, rfl⟩ : ∃ n : ℕ, fd2 = n := ⟨fd2.toNat, by omega⟩
      split at hdup2
      · cases hdup2
        exact h
      case isFalse hne =>
        have hmn : m ≠ n := fun heq => hne (by rw [heq])
        split at hdup2
        · cases hdup2
          exact h
        case h_2 t hgrow =>
          obtain ⟨hentry, hnum, hmax⟩ := tidy_growFdTable (h.marked pid).aliases hgrow
          have ht := (h.marked pid).of_entry_eq hentry hnum
          have h₁ := h.setTable hidle ht
          have hm' : t.inUse m = true := by
            rw [← tidy_inUse, inUse, hentry, tidy_entry_of_inUse hm]
            exact hm
          have hroot : t.root m = (s.table pid).root m := by
            rw [← tidy_root hm', ← tidy_root hm, Aliases.root_congr hentry]
          have htable : LockSystem.table { s with world := s.world.setTable pid t } pid = t := by
            simp [LockSystem.table, LockWorld.setTable]
          rw [← hroot] at hdup2
          dsimp only at hdup2
          split at hdup2
          case isTrue hn =>
            split at hdup2
            · cases hdup2
            case h_2 s₂ reply₂ hclose =>
              obtain ⟨h₂, hidle₂, hafter⟩ := h₁.close hidle hclose
              split at hdup2
              · cases hdup2
                exact h₂
              case isFalse hres =>
                cases hdup2
                rw [htable] at hafter
                exact h₂.duplicate hidle₂ (marked_duplicate_of_afterClose ht.aliases hm' hmn hn
                  (h₂.marked pid) (hafter (Int.not_lt.1 hres) n rfl))
          case isFalse hn =>
            cases hdup2
            refine h₁.duplicate hidle ?_
            rw [htable]
            have hbound : n < t.tidy.numFd := by omega
            have hfound : t.tidy.Found t.tidy n n := ⟨rfl, Nat.le_refl _, Nat.le_refl _, hbound,
              by simpa using hn, fun i hi hin => absurd hin (Nat.not_lt.2 hi)⟩
            exact ht.duplicate_of_found hm' hfound

/-! ### Asking for locks -/

omit hidle in
/-- The entry that a request is about is ready once the request has been made. -/
theorem Inv.ready {l : Flock} {slot : ℕ} (hassert : s.assertsHold pid fd l = true)
    (hchecks : s.world.fcntlChecks pid fd l = .ok (.inl slot)) :
    ((s.table pid).setCleanup slot).Ready slot ∧
      (((s.table pid).setCleanup slot).entry slot).file = ((s.table pid).entry fd.toNat).file ∧
      ((s.table pid).setCleanup slot).tidy.Marked s.nextHandle (s.through pid) := by
  obtain ⟨m, rfl, hm, hslot⟩ :=
    FdSystem.exists_of_getFileDescriptor (LockWorld.fcntlChecks_spec hchecks)
  change (s.table pid).inUse m = true at hm
  obtain rfl : slot = (s.table pid).root m := hslot
  have hstdio : ((s.table pid).entry ((s.table pid).root m)).flags.stdio = false := by
    simpa only [assertsHold, hchecks, Bool.not_eq_true'] using hassert
  obtain ⟨hready, hfile⟩ := FdTable.ready_setCleanup (h.marked pid).aliases hm hstdio
  refine ⟨hready, hfile, ?_⟩
  obtain ⟨hu, -⟩ := (h.marked pid).aliases.of_tidy_root hm
  rw [FdTable.tidy_setCleanup hu]
  exact (h.marked pid).setCleanup (by rw [tidy_inUse, hu])

theorem Inv.fcntlLock {cmd : LockCmd} {l : Flock} (hcmd : cmd ≠ .setlkw)
    (hserved : cmd = .setlk → os.find ≠ .error .objectNotFound)
    (hlock : s.fcntlLock os cmd pid fd l = .ok (s', reply)) : s'.Inv := by
  unfold LockSystem.fcntlLock at hlock
  split at hlock
  case isFalse => cases hlock
  case isTrue hassert =>
    obtain ⟨⟨w, r⟩, hw, heq⟩ := LockWorld.map_eq_ok hlock
    cases heq
    rcases LockWorld.fcntlLock_asked hcmd hw with ⟨rfl, hres⟩ | ⟨slot, hchecks, hasked⟩
    · rw [if_neg hres]
      exact h
    · obtain ⟨hready, hfile, hmarked⟩ := h.ready hassert hchecks
      cases hasked with
      | failed hreply =>
        rw [if_neg hreply]
        exact h.setTable hidle hmarked
      | granted t locks hset hmark =>
        have hgrant := hready.grant hmarked hmark
        rw [hfile] at hgrant
        refine h.of_others_idle
          ⟨fun _ => s.setProcess_of_ne _, ?_, fun _ _ => rfl, Nat.le_refl _⟩ ?_ hidle ?_
        · intro q hq
          split
          · exact update_of_ne hq ..
          · rfl
        · show Marked _ _
            ((s.setProcess pid { s.world.process pid with table := t }).table pid).tidy
          rw [setProcess_self]
          refine hgrant.mono (Nat.le_refl _) ?_
          dsimp only
          split
          · rw [granted, update_self]
          · exact Finset.subset_insert _ _
        · exact (LockWorld.fcntlLock_changed hcmd hw).sound (hserved hset) h.locks

theorem Inv.fcntlSetlkw {l : Flock} {reply : Option CallReply}
    (hlock : s.fcntlSetlkw os pid fd l = .ok (s', reply)) : s'.Inv := by
  unfold LockSystem.fcntlSetlkw at hlock
  split at hlock
  case isFalse => cases hlock
  case isTrue hassert =>
    obtain ⟨⟨w, r⟩, hw, heq⟩ := LockWorld.map_eq_ok hlock
    cases heq
    rcases LockWorld.fcntlSetlkw_cases hw with
      ⟨-, rfl | ⟨slot, hchecks, rfl⟩⟩ | ⟨slot, start, stop, hchecks, -, rfl⟩
    · exact h
    · exact h.setTable hidle (h.ready hassert hchecks).2.2
    · generalize hp : (⟨slot, (s.world.info pid slot).id, start, stop, l.len,
        l.type == fRdlck⟩ : PendingLock) = p
      have hslot : p.slot = slot := by rw [← hp]
      obtain ⟨hready, -, hmarked⟩ := h.ready hassert hchecks
      have htable : LockSystem.table { s with world := { s.world.setCleanup pid slot with
            pending := update s.world.pending pid (some p) } } pid
          = (s.table pid).setCleanup slot := setProcess_self ..
      refine h.of_others pid ⟨fun _ => s.setProcess_of_ne _, fun _ _ => rfl,
        fun q hq => update_of_ne hq .., Nat.le_refl _⟩ ?_ ?_ h.locks
      · rw [htable]
        exact hmarked
      · intro p' hp'
        have hp'' : update s.world.pending pid (some p) pid = some p' := hp'
        rw [update_self] at hp''
        cases hp''
        rw [htable, hslot]
        exact hready

end Idle

theorem afterPoll_of_ne {reply : Option CallReply} (hreply : reply ≠ some { result := 0 }) :
    s.afterPoll pid reply = s.through := by
  unfold afterPoll
  split
  · rfl
  · exact if_neg hreply

theorem Inv.stop (h : s.Inv) (pid : ℕ) :
    Inv { s with world :=
            { s.world with pending := update s.world.pending pid none } } := by
  exact h.of_others_idle
    ⟨fun _ _ => rfl, fun _ _ => rfl, fun q hq => update_of_ne hq .., Nat.le_refl _⟩
    (h.marked pid) (update_self ..) h.locks

theorem Inv.poll (h : s.Inv) {semaphore : Bool} {reply : Option CallReply}
    (hpoll : s.poll semaphore pid = .ok (s', reply)) : s'.Inv := by
  obtain ⟨⟨w, r⟩, hw, heq⟩ := LockWorld.map_eq_ok hpoll
  cases heq
  have hlocks := (LockWorld.poll_changed True hw).sound trivial h.locks
  rcases LockWorld.poll_cases hw with
    ⟨rfl, rfl⟩ | ⟨p, hp, ⟨rfl, r, rfl, hres⟩ | ⟨t, hmark, rfl, rfl, -⟩⟩
  · rw [afterPoll_of_ne (by simp)]
    exact h
  · have hne : some r ≠ some { result := 0 } := by
      intro heq
      cases heq
      cases hres
    rw [afterPoll_of_ne hne]
    exact h.stop pid
  · have hready := h.waiting pid p hp
    have hthrough : s.afterPoll pid (some { result := 0 }) = s.granted pid p.slot := by
      simp [afterPoll, hp]
    have h₁ := h.stop pid
    refine h₁.of_others_idle ⟨fun _ => s.setProcess_of_ne _, ?_, fun _ _ => rfl, Nat.le_refl _⟩ ?_
      (update_self ..) hlocks
    · intro q hq
      rw [hthrough]
      exact update_of_ne hq ..
    · show Marked _ _
        ((s.setProcess pid { s.world.process pid with table := t }).table pid).tidy
      rw [setProcess_self, hthrough]
      show Marked _ (s.granted pid p.slot pid) t.tidy
      rw [granted, update_self]
      exact hready.grant (h.marked pid) hmark

/-! ### Runs -/

theorem Inv.call (h : s.Inv) (hidle : s.world.pending pid = none) {call : ProcessCall}
    {reply : Option CallReply} (hserved : (LockSystemCall.call pid call).Served)
    (hcall : call.step s pid = .ok (s', reply)) : s'.Inv := by
  cases call with
  | «open» os flags existing env file =>
    cases hcall
    exact h.openCall hidle os flags existing env file
  | dup os fd =>
    cases hcall
    exact h.setProcess hidle (FdSystem.dup_marked (h.marked pid) os fd)
  | fcntlDupFd os fd base =>
    obtain ⟨⟨p, r⟩, hp, heq⟩ := LockWorld.map_eq_ok hcall
    cases heq
    exact h.setProcess hidle (FdSystem.fcntlDupFd_marked (h.marked pid) hp)
  | dup2 fdOs os fd1 fd2 =>
    obtain ⟨⟨s₁, r⟩, hs, heq⟩ := LockWorld.map_eq_ok hcall
    cases heq
    exact h.dup2 hidle hs
  | close fdOs os fd =>
    obtain ⟨⟨s₁, r⟩, hs, heq⟩ := LockWorld.map_eq_ok hcall
    cases heq
    exact (h.close hidle hs).1
  | setlk os fd l =>
    obtain ⟨⟨s₁, r⟩, hs, heq⟩ := LockWorld.map_eq_ok hcall
    cases heq
    exact h.fcntlLock hidle (by decide) (fun _ => hserved) hs
  | getlk os fd l =>
    obtain ⟨⟨s₁, r⟩, hs, heq⟩ := LockWorld.map_eq_ok hcall
    cases heq
    exact h.fcntlLock hidle (by decide) (fun hset => by cases hset) hs
  | setlkw os fd l => exact h.fcntlSetlkw hidle hcall

/-- **Every step keeps the invariant.** -/
theorem Inv.step (h : s.Inv) {call : LockSystemCall} {reply : Option CallReply}
    (hserved : call.Served) (hstep : call.step s = .ok (s', reply)) : s'.Inv := by
  cases call with
  | call pid c =>
    simp only [LockSystemCall.step] at hstep
    cases hpend : s.world.pending pid with
    | some p =>
      rw [hpend, if_pos (by rfl)] at hstep
      cases hstep
      exact h
    | none =>
      rw [hpend, if_neg (by decide)] at hstep
      exact h.call hpend hserved hstep
  | poll semaphore pid => exact h.poll hstep
  | abort pid =>
    simp only [LockSystemCall.step, LockWorld.abort] at hstep
    split at hstep <;> cases hstep
    · exact h
    · exact h.stop pid
  | change size position =>
    cases hstep
    exact ⟨h.pos, h.marked, h.waiting, h.locks⟩

end LockSystem

end Clib4
