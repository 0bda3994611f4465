import Clib4.Base.Interleaving
import Clib4.SysV.Semop

/-!
# SysV semaphores: two locks

The calls on one set, taken apart into the steps between which other processes may run.  A call
of `semop` obtains the lock of the key map, looks the set up, obtains the lock of the set and
gives the key map back; what it does with the set is protected by the lock of the set alone.
`semctl` does everything under the lock of the key map, and does not obtain that of the set:
neither to change values, nor to remove the set.

A process that has to wait puts itself on a list of a semaphore, releases the lock of the set,
suspends its own task and, once restarted, begins anew.  `WakeList` takes the processes off a
list one by one; before it restarts a task it waits for that task to be suspended.

## Main definitions

* `SemSystem` — the locks, the set and the processes.
* `advance`, `protocolStep` — the next step of a process.
* `Move` — what that step can be, case by case.

## Main results

* `locks_move` — **at most one process has the key map, and at most one is in its section.**
-/

namespace Clib4.SysV

open Interleaving Function

/-! ### The processes -/

/-- A call of `semop`. -/
structure SemopCall where
  ops : List Sembuf
  l : Locals := {}
  deriving DecidableEq, Repr

/-- The commands of `semctl` that change a set. -/
inductive Command
  | setval (n : ℕ) (v : ℤ)
  | setall (semnum : ℕ) (array : ℕ → UInt16)
  | rmid

/-- Who calls `WakeList`: `semop`, with the operations that are left to apply, or
`sem_destroy`. -/
inductive Waker
  | semop (c : SemopCall) (rest : List Sembuf)
  | destroy
  deriving DecidableEq, Repr

/-- How a section ends. -/
inductive Ending
  | done
  | failed (e : Errno)
  | sleeps (o : Sembuf)
  deriving DecidableEq, Repr

/-- Where a process is: what it does next. -/
inductive Pc
  | idle
  /-- `IPCLock` in `semop` -/
  | lockMap (c : SemopCall)
  /-- `GetIPCById` -/
  | lookup (c : SemopCall)
  /-- `ObtainSemaphore(si->Lock)` -/
  | obtain (c : SemopCall)
  /-- `IPCUnlock` -/
  | unlockMap (c : SemopCall) (found : Bool)
  /-- The counters of a call that has slept. -/
  | recount (c : SemopCall)
  /-- The first loop. -/
  | scan (c : SemopCall) (rest : List Sembuf)
  /-- `RequestWakeup` -/
  | enqueue (c : SemopCall) (o : Sembuf)
  /-- The second loop. -/
  | apply (c : SemopCall) (rest : List Sembuf)
  /-- `RemHead` in `WakeList` -/
  | wake (w : Waker) (n : ℕ) (zero : Bool)
  /-- `RestartTask` in `WakeList` -/
  | restart (w : Waker) (n : ℕ) (zero : Bool) (q : Pid)
  /-- `ReleaseSemaphore(si->Lock)` -/
  | release (c : SemopCall) (e : Ending)
  /-- `SuspendTask` in `WaitList` -/
  | suspend (c : SemopCall) (o : Sembuf)
  | suspended (c : SemopCall) (o : Sembuf)
  /-- `IPCLock` in `semctl` -/
  | ctlLock (cmd : Command)
  | ctlLookup (cmd : Command)
  | setval (n : ℕ) (v : ℤ)
  | setall (semnum : ℕ) (array : ℕ → UInt16) (i : ℕ)
  /-- `FreeSysObject` for a list of a semaphore, in `sem_destroy` -/
  | freeList (i : ℕ) (zero : Bool)
  | freeLock
  | freeBase
  | freeSet
  /-- `objv[id] = 0` in `IPCRmId` -/
  | clearEntry
  /-- `IPCUnlock` in `semctl` -/
  | ctlUnlock

/-- The parts of a set that are freed one by one. -/
inductive Part
  | list (i : ℕ) (zero : Bool)
  | lock
  | base
  | set
  deriving DecidableEq, Repr

/-- A call of `semop` that has returned: its result, and whether freeing the set had begun by
then. -/
structure Returned where
  pid : Pid
  result : Except Errno Unit
  removed : Bool

/-- The locks, with their holders; the set, with its entry in the key map; the processes.  Freed
memory keeps its contents here; `freed` says which parts may not be touched any more. -/
structure SemSystem where
  keymap : Option Pid := none
  lock : Option Pid := none
  entry : Bool := true
  sems : List Sem
  freed : List Part := []
  undo : Pid → List UndoInfo := fun _ => []
  pc : Pid → Pc := fun _ => .idle
  returned : List Returned := []

/-- The list of a semaphore; an empty one outside of the set. -/
def queueOf (sems : List Sem) (n : ℕ) (zero : Bool) : List Pid :=
  ((sems[n]?).map (Sem.waiters zero)).getD []

namespace SemSystem

/-- A process goes on somewhere else. -/
def goto (s : SemSystem) (p : Pid) (x : Pc) : SemSystem :=
  { s with pc := update s.pc p x }

/-- A process returns from `semop`. -/
def reply (s : SemSystem) (p : Pid) (result : Except Errno Unit) : SemSystem :=
  { s with
    pc := update s.pc p .idle
    returned := ⟨p, result, !s.freed.isEmpty⟩ :: s.returned }

/-- A part of the set is freed. -/
def free (s : SemSystem) (part : Part) : SemSystem := { s with freed := part :: s.freed }

@[simp] theorem goto_pc_self (s : SemSystem) (p : Pid) (x : Pc) : (s.goto p x).pc p = x :=
  update_self ..

theorem goto_pc_of_ne (s : SemSystem) {p q : Pid} (h : q ≠ p) (x : Pc) :
    (s.goto p x).pc q = s.pc q :=
  update_of_ne h ..

/-- The list of a semaphore of the set. -/
def queue (s : SemSystem) (n : ℕ) (zero : Bool) : List Pid := queueOf s.sems n zero

end SemSystem

/-! ### The steps -/

/-- The variables of a call whose operation has to wait. -/
def SemopCall.waitFor (c : SemopCall) (o : Sembuf) (ui : Bool) : SemopCall :=
  { c with l := { n := o.num, zW := decide (o.op = 0), nW := decide (o.op < 0), ui := ui } }

/-- The variables of a call that has counted itself off, or looked up the adjustments. -/
def SemopCall.onward (c : SemopCall) (ui : Bool) : SemopCall :=
  { c with l := { c.l with zW := false, nW := false, ui := ui } }

/-- Where `sem_destroy` goes on with the semaphore `i`. -/
def destroyFrom (nsems i : ℕ) : Pc := if i < nsems then .wake .destroy i true else .freeLock

/-- Where `WakeList` returns to. -/
def Waker.next (w : Waker) (n : ℕ) (zero : Bool) : Pc :=
  match w with
  | .semop c rest => .apply c rest
  | .destroy => if zero then .wake .destroy n false else .freeList n true

/-- Where `semctl` goes on when it has found the set. -/
def Command.start (nsems : ℕ) : Command → Pc
  | .setval n v => .setval n v
  | .setall semnum array => .setall semnum array 0
  | .rmid => destroyFrom nsems 0

/-- The new value of a semaphore, written by `semctl`, which clears an adjustment of its
caller. -/
def SemSystem.write (s : SemSystem) (p : Pid) (n : ℕ) (v : ℤ) (semnum : ℕ) : SemSystem :=
  { s with
    sems := s.sems.modify n fun sem => { sem with semval := v }
    undo := update s.undo p
      ((s.undo p).modifyHead fun u => { u with adj := u.adj.set semnum 0 }) }

/-- One operation of the second loop, up to the call of `WakeList`. -/
def SemSystem.applyNext (s : SemSystem) (p : Pid) (c : SemopCall) (o : Sembuf)
    (rest : List Sembuf) (sem : Sem) : SemSystem :=
  let x : Pc :=
    match wakes o (toInt32 (sem.semval + o.op)) with
    | none => .apply c rest
    | some zero => .wake (.semop c rest) o.num zero
  { s with
    sems := s.sems.set o.num (sem.apply toInt32 p o)
    undo := update s.undo p (adjust o (s.undo p)) }.goto p x

/-- The next step of a process, if it can take one. -/
def advance (semid : ℕ) (s : SemSystem) (p : Pid) : Option SemSystem :=
  match s.pc p with
  | .idle => none
  | .lockMap c =>
    if s.keymap = none then some ({ s with keymap := some p }.goto p (.lookup c)) else none
  | .lookup c => some (s.goto p (if s.entry then .obtain c else .unlockMap c false))
  | .obtain c =>
    if s.lock = none then some ({ s with lock := some p }.goto p (.unlockMap c true)) else none
  | .unlockMap c true => some ({ s with keymap := none }.goto p (.recount c))
  | .unlockMap _ false => some ({ s with keymap := none }.reply p (.error .EIDRM))
  | .recount c =>
    (recount c.l s.sems).map fun sems =>
      { s with sems := sems }.goto p (.scan (c.onward c.l.ui) c.ops)
  | .scan c [] => some (s.goto p (.apply c c.ops))
  | .scan c (o :: rest) =>
    match scanOp semid (values s.sems) o c.l.ui (s.undo p) with
    | (.passes, ui, undo) =>
      some ({ s with undo := update s.undo p undo }.goto p (.scan (c.onward ui) rest))
    | (.failed e, _, undo) =>
      some ({ s with undo := update s.undo p undo }.goto p (.release c (.failed e)))
    | (.blocks, ui, undo) =>
      some
        ({ s with
            sems := s.sems.modify o.num (Sem.count (decide (o.op = 0)) (· + 1))
            undo := update s.undo p undo }.goto p (.enqueue (c.waitFor o ui) o))
    | (.stray, _, _) => none
    | (.spins, _, _) => none
  | .enqueue c o =>
    some
      ({ s with
          sems := s.sems.modify o.num fun sem =>
            sem.setWaiters (decide (o.op = 0)) (sem.waiters (decide (o.op = 0)) ++ [p]) }.goto p
        (.release c (.sleeps o)))
  | .apply c [] => some (s.goto p (.release c .done))
  | .apply c (o :: rest) => (s.sems[o.num]?).map (s.applyNext p c o rest)
  | .wake w n zero =>
    match s.queue n zero with
    | [] => some (s.goto p (w.next n zero))
    | q :: qs =>
      some ({ s with sems := s.sems.modify n (Sem.setWaiters zero qs) }.goto p
        (.restart w n zero q))
  | .restart w n zero q =>
    -- wait for the task to be suspended
    match s.pc q with
    | .suspended c _ => some ((s.goto q (.lockMap c)).goto p (.wake w n zero))
    | _ => none
  | .release _ .done => some ({ s with lock := none }.reply p (.ok ()))
  | .release _ (.failed e) => some ({ s with lock := none }.reply p (.error e))
  | .release c (.sleeps o) => some ({ s with lock := none }.goto p (.suspend c o))
  | .suspend c o => some (s.goto p (.suspended c o))
  | .suspended _ _ => none
  | .ctlLock cmd =>
    if s.keymap = none then some ({ s with keymap := some p }.goto p (.ctlLookup cmd)) else none
  | .ctlLookup cmd =>
    if s.entry then
      (getUndo (s.undo p) semid s.sems.length false).map fun _ =>
        s.goto p (cmd.start s.sems.length)
    else some (s.goto p .ctlUnlock)
  | .setval n v =>
    some ((if n < s.sems.length then s.write p n v n else s).goto p .ctlUnlock)
  | .setall semnum array i =>
    if i < s.sems.length then
      some ((s.write p i (array i).toNat semnum).goto p (.setall semnum array (i + 1)))
    else some (s.goto p .ctlUnlock)
  | .freeList i true => some ((s.free (.list i true)).goto p (.freeList i false))
  | .freeList i false =>
    some ((s.free (.list i false)).goto p (destroyFrom s.sems.length (i + 1)))
  | .freeLock => some ((s.free .lock).goto p .freeBase)
  | .freeBase => some ((s.free .base).goto p .freeSet)
  | .freeSet => some ((s.free .set).goto p .clearEntry)
  | .clearEntry => some ({ s with entry := false }.goto p .ctlUnlock)
  | .ctlUnlock => some ({ s with keymap := none }.goto p .idle)

/-- What may happen next. -/
inductive Act
  | semop (p : Pid) (ops : List Sembuf)
  | semctl (p : Pid) (cmd : Command)
  | step (p : Pid)

/-- A process starts a call while it is in no other, or takes its next step. -/
def protocolStep (semid : ℕ) (s : SemSystem) : Act → Option SemSystem
  | .semop p ops =>
    match s.pc p with
    | .idle => some (s.goto p (.lockMap { ops := ops }))
    | _ => none
  | .semctl p cmd =>
    match s.pc p with
    | .idle => some (s.goto p (.ctlLock cmd))
    | _ => none
  | .step p => advance semid s p

/-- A set that has just been created, and processes that are in no call. -/
structure SemSystem.Fresh (nsems : ℕ) (s : SemSystem) : Prop where
  keymap : s.keymap = none
  lock : s.lock = none
  entry : s.entry = true
  sems : s.sems = List.replicate nsems semSetup
  freed : s.freed = []
  returned : s.returned = []
  idle : ∀ p, s.pc p = .idle

/-! ### What a step can be -/

/-- The result with which a section ends the call. -/
def Ending.result : Ending → Option (Except Errno Unit)
  | .done => some (.ok ())
  | .failed e => some (.error e)
  | .sleeps _ => none

/-- The steps that touch neither a lock nor the set. -/
inductive Goes (s : SemSystem) : Pc → Pc → Prop
  | semop (ops : List Sembuf) : Goes s .idle (.lockMap { ops := ops })
  | semctl (cmd : Command) : Goes s .idle (.ctlLock cmd)
  | found {c : SemopCall} (hentry : s.entry = true) : Goes s (.lookup c) (.obtain c)
  | missing {c : SemopCall} (hentry : s.entry = false) :
      Goes s (.lookup c) (.unlockMap c false)
  | passed {c : SemopCall} : Goes s (.scan c []) (.apply c c.ops)
  | passes {c : SemopCall} {o : Sembuf} {rest : List Sembuf} (ui : Bool) :
      Goes s (.scan c (o :: rest)) (.scan (c.onward ui) rest)
  | fails {c : SemopCall} {o : Sembuf} {rest : List Sembuf} (e : Errno) :
      Goes s (.scan c (o :: rest)) (.release c (.failed e))
  | applied {c : SemopCall} : Goes s (.apply c []) (.release c .done)
  | woken {w : Waker} {n : ℕ} {zero : Bool} (hempty : s.queue n zero = []) :
      Goes s (.wake w n zero) (w.next n zero)
  | suspend {c : SemopCall} {o : Sembuf} : Goes s (.suspend c o) (.suspended c o)
  | ctlFound {cmd : Command} (hentry : s.entry = true) :
      Goes s (.ctlLookup cmd) (cmd.start s.sems.length)
  | ctlMissing {cmd : Command} : Goes s (.ctlLookup cmd) .ctlUnlock
  | setvalOff {n : ℕ} {v : ℤ} : Goes s (.setval n v) .ctlUnlock
  | setallEnd {semnum : ℕ} {array : ℕ → UInt16} {i : ℕ} :
      Goes s (.setall semnum array i) .ctlUnlock

/-- The steps by which `semctl` writes a value. -/
inductive Writes : Pc → ℕ → ℤ → Pc → Prop
  | setval {n : ℕ} {v : ℤ} : Writes (.setval n v) n v .ctlUnlock
  | setall {semnum : ℕ} {array : ℕ → UInt16} {i : ℕ} :
      Writes (.setall semnum array i) i (array i).toNat (.setall semnum array (i + 1))

/-- The steps by which `sem_destroy` frees a part of a set of `nsems` semaphores. -/
inductive Frees (nsems : ℕ) : Pc → Part → Pc → Prop
  | zList {i : ℕ} : Frees nsems (.freeList i true) (.list i true) (.freeList i false)
  | nList {i : ℕ} : Frees nsems (.freeList i false) (.list i false) (destroyFrom nsems (i + 1))
  | lock : Frees nsems .freeLock .lock .freeBase
  | base : Frees nsems .freeBase .base .freeSet
  | set : Frees nsems .freeSet .set .clearEntry

/-- The steps of a process, with what they depend on. -/
inductive Move (semid : ℕ) (s : SemSystem) (p : Pid) : SemSystem → Prop
  | go {x y : Pc} (undo : Pid → List UndoInfo) (hpc : s.pc p = x) (hgo : Goes s x y) :
      Move semid s p ({ s with undo := undo }.goto p y)
  | lockMap {c : SemopCall} (hpc : s.pc p = .lockMap c) (hfree : s.keymap = none) :
      Move semid s p ({ s with keymap := some p }.goto p (.lookup c))
  | ctlLock {cmd : Command} (hpc : s.pc p = .ctlLock cmd) (hfree : s.keymap = none) :
      Move semid s p ({ s with keymap := some p }.goto p (.ctlLookup cmd))
  | obtain {c : SemopCall} (hpc : s.pc p = .obtain c) (hfree : s.lock = none) :
      Move semid s p ({ s with lock := some p }.goto p (.unlockMap c true))
  | enter {c : SemopCall} (hpc : s.pc p = .unlockMap c true) :
      Move semid s p ({ s with keymap := none }.goto p (.recount c))
  | gone {c : SemopCall} (hpc : s.pc p = .unlockMap c false) :
      Move semid s p ({ s with keymap := none }.reply p (.error .EIDRM))
  | recount {c : SemopCall} {sems : List Sem} (hpc : s.pc p = .recount c)
      (hsems : recount c.l s.sems = some sems) :
      Move semid s p ({ s with sems := sems }.goto p (.scan (c.onward c.l.ui) c.ops))
  | blocks {c : SemopCall} {o : Sembuf} {rest : List Sembuf} (ui : Bool)
      (undo : Pid → List UndoInfo) (hpc : s.pc p = .scan c (o :: rest))
      (htest : testOp (values s.sems) o = .blocks) :
      Move semid s p
        ({ s with
            sems := s.sems.modify o.num (Sem.count (decide (o.op = 0)) (· + 1))
            undo := undo }.goto p (.enqueue (c.waitFor o ui) o))
  | enqueue {c : SemopCall} {o : Sembuf} (hpc : s.pc p = .enqueue c o) :
      Move semid s p
        ({ s with
            sems := s.sems.modify o.num fun sem =>
              sem.setWaiters (decide (o.op = 0)) (sem.waiters (decide (o.op = 0)) ++ [p]) }.goto p
          (.release c (.sleeps o)))
  | apply {c : SemopCall} {o : Sembuf} {rest : List Sembuf} {sem : Sem}
      (hpc : s.pc p = .apply c (o :: rest)) (hsem : s.sems[o.num]? = some sem) :
      Move semid s p (s.applyNext p c o rest sem)
  | take {w : Waker} {n : ℕ} {zero : Bool} {q : Pid} {qs : List Pid}
      (hpc : s.pc p = .wake w n zero) (hqueue : s.queue n zero = q :: qs) :
      Move semid s p
        ({ s with sems := s.sems.modify n (Sem.setWaiters zero qs) }.goto p (.restart w n zero q))
  | restart {w : Waker} {n : ℕ} {zero : Bool} {q : Pid} {c : SemopCall} {o : Sembuf}
      (hpc : s.pc p = .restart w n zero q) (hq : s.pc q = .suspended c o) :
      Move semid s p ((s.goto q (.lockMap c)).goto p (.wake w n zero))
  | returns {c : SemopCall} {e : Ending} {r : Except Errno Unit} (hpc : s.pc p = .release c e)
      (hresult : e.result = some r) : Move semid s p ({ s with lock := none }.reply p r)
  | sleeps {c : SemopCall} {o : Sembuf} (hpc : s.pc p = .release c (.sleeps o)) :
      Move semid s p ({ s with lock := none }.goto p (.suspend c o))
  | write {x y : Pc} {n : ℕ} {v : ℤ} (semnum : ℕ) (hpc : s.pc p = x) (hwrites : Writes x n v y)
      (hn : n < s.sems.length) : Move semid s p ((s.write p n v semnum).goto p y)
  | free {x y : Pc} {part : Part} (hpc : s.pc p = x) (hfrees : Frees s.sems.length x part y) :
      Move semid s p ((s.free part).goto p y)
  | clearEntry (hpc : s.pc p = .clearEntry) :
      Move semid s p ({ s with entry := false }.goto p .ctlUnlock)
  | ctlUnlock (hpc : s.pc p = .ctlUnlock) :
      Move semid s p ({ s with keymap := none }.goto p .idle)

/-- The process that takes a step. -/
def Act.pid : Act → Pid
  | .semop p _ => p
  | .semctl p _ => p
  | .step p => p

variable {semid : ℕ} {s s' : SemSystem} {p : Pid} {x y : Pc}

theorem testOp_of_scanOp {values : List ℤ} {o : Sembuf} {ui ui' : Bool}
    {undo undo' : List UndoInfo} (h : scanOp semid values o ui undo = (.blocks, ui', undo')) :
    testOp values o = .blocks := by
  by_cases hnum : values.length < o.num
  · rw [scanOp_of_lt hnum] at h
    cases h
  · have hle : o.num ≤ values.length := Nat.le_of_not_lt hnum
    by_cases hstuck : o.undo = true ∧ stuck semid ui undo = true
    · rw [scanOp_of_stuck hle hstuck.1 hstuck.2] at h
      cases h
    · obtain ⟨ui₁, undo₁, hscan, -⟩ := scanOp_of_searches hle hstuck
      rw [hscan] at h
      exact congrArg Prod.fst h

theorem ne_of_suspended {w : Waker} {n : ℕ} {zero : Bool} {q : Pid} {c : SemopCall} {o : Sembuf}
    (hpc : s.pc p = .restart w n zero q) (hq : s.pc q = .suspended c o) : p ≠ q := by
  intro hpq
  rw [← hpq, hpc] at hq
  cases hq

theorem advance_move (h : advance semid s p = some s') : Move semid s p s' := by
  unfold advance at h
  cases hpc : s.pc p <;> simp only [hpc] at h
  case idle | suspended => cases h
  case lockMap c =>
    split_ifs at h with hfree
    cases h
    exact .lockMap hpc hfree
  case lookup c =>
    cases h
    cases hentry : s.entry with
    | true => exact .go s.undo hpc (.found hentry)
    | false => exact .go s.undo hpc (.missing hentry)
  case obtain c =>
    split_ifs at h with hfree
    cases h
    exact .obtain hpc hfree
  case unlockMap c found =>
    cases found with
    | true => cases h; exact .enter hpc
    | false => cases h; exact .gone hpc
  case recount c =>
    obtain ⟨sems, hsems, rfl⟩ := Option.map_eq_some_iff.1 h
    exact .recount hpc hsems
  case scan c rest =>
    cases rest with
    | nil => cases h; exact .go s.undo hpc .passed
    | cons o rest =>
      dsimp only at h
      cases hscan : scanOp semid (values s.sems) o c.l.ui (s.undo p) with
      | mk v known =>
        obtain ⟨ui, undo⟩ := known
        rw [hscan] at h
        cases v with
        | passes => cases h; exact .go _ hpc (.passes ui)
        | failed e => cases h; exact .go _ hpc (.fails e)
        | blocks => cases h; exact .blocks ui _ hpc (testOp_of_scanOp hscan)
        | stray | spins => cases h
  case enqueue c o => cases h; exact .enqueue hpc
  case apply c rest =>
    cases rest with
    | nil => cases h; exact .go s.undo hpc .applied
    | cons o rest =>
      obtain ⟨sem, hsem, rfl⟩ := Option.map_eq_some_iff.1 h
      exact .apply hpc hsem
  case wake w n zero =>
    cases hqueue : s.queue n zero with
    | nil => rw [hqueue] at h; cases h; exact .go s.undo hpc (.woken hqueue)
    | cons q qs => rw [hqueue] at h; cases h; exact .take hpc hqueue
  case restart w n zero q =>
    cases hq : s.pc q with
    | suspended c o => rw [hq] at h; cases h; exact .restart hpc hq
    | _ => rw [hq] at h; cases h
  case release c e =>
    cases e with
    | done | failed e => cases h; exact .returns hpc rfl
    | sleeps o => cases h; exact .sleeps hpc
  case suspend c o => cases h; exact .go s.undo hpc .suspend
  case ctlLock cmd =>
    split_ifs at h with hfree
    cases h
    exact .ctlLock hpc hfree
  case ctlLookup cmd =>
    split_ifs at h with hentry
    · obtain ⟨undo, -, rfl⟩ := Option.map_eq_some_iff.1 h
      exact .go s.undo hpc (.ctlFound hentry)
    · cases h
      exact .go s.undo hpc .ctlMissing
  case setval n v =>
    cases h
    split_ifs with hn
    · exact .write n hpc .setval hn
    · exact .go s.undo hpc .setvalOff
  case setall semnum array i =>
    split_ifs at h with hi
    · cases h
      exact .write semnum hpc .setall hi
    · cases h
      exact .go s.undo hpc .setallEnd
  case freeList i zero =>
    cases zero with
    | true => cases h; exact .free hpc .zList
    | false => cases h; exact .free hpc .nList
  case freeLock => cases h; exact .free hpc .lock
  case freeBase => cases h; exact .free hpc .base
  case freeSet => cases h; exact .free hpc .set
  case clearEntry => cases h; exact .clearEntry hpc
  case ctlUnlock => cases h; exact .ctlUnlock hpc

theorem protocolStep_move {a : Act} (h : protocolStep semid s a = some s') :
    Move semid s a.pid s' := by
  cases a with
  | semop p ops =>
    rw [protocolStep] at h
    cases hpc : s.pc p with
    | idle => rw [hpc] at h; cases h; exact .go s.undo hpc (.semop ops)
    | _ => rw [hpc] at h; cases h
  | semctl p cmd =>
    rw [protocolStep] at h
    cases hpc : s.pc p with
    | idle => rw [hpc] at h; cases h; exact .go s.undo hpc (.semctl cmd)
    | _ => rw [hpc] at h; cases h
  | step p => exact advance_move h

/-! ### The locks -/

/-- The process has the lock of the key map. -/
def Pc.hasMap : Pc → Bool
  | .lookup _ | .obtain _ | .unlockMap _ _ | .wake .destroy _ _ | .restart .destroy _ _ _
  | .ctlLookup _ | .setval _ _ | .setall _ _ _ | .freeList _ _ | .freeLock | .freeBase | .freeSet
  | .clearEntry | .ctlUnlock => true
  | _ => false

/-- The process is in its section: it has the lock of the set. -/
def Pc.inSection : Pc → Bool
  | .unlockMap _ true | .recount _ | .scan _ _ | .enqueue _ _ | .apply _ _
  | .wake (.semop _ _) _ _ | .restart (.semop _ _) _ _ _ | .release _ _ => true
  | _ => false

/-- The locks are held by those who are in the places for that. -/
structure SemSystem.Locks (s : SemSystem) : Prop where
  map : Held Pc.hasMap s.pc s.keymap
  set : Held Pc.inSection s.pc s.lock

/-- Both places hold the same locks. -/
def Pc.SameLocks (x y : Pc) : Prop := x.hasMap = y.hasMap ∧ x.inSection = y.inSection

theorem sameLocks_destroyFrom (nsems i : ℕ) : (destroyFrom nsems i).SameLocks .freeLock := by
  unfold destroyFrom
  split_ifs <;> exact ⟨rfl, rfl⟩

theorem Goes.sameLocks (h : Goes s x y) : y.SameLocks x := by
  cases h with
  | woken hempty =>
    rename_i w n zero
    cases w <;> cases zero <;> exact ⟨rfl, rfl⟩
  | ctlFound hentry =>
    rename_i cmd
    cases cmd with
    | setval n v | setall semnum array => exact ⟨rfl, rfl⟩
    | rmid => exact sameLocks_destroyFrom _ 0
  | _ => exact ⟨rfl, rfl⟩

theorem Writes.sameLocks {n : ℕ} {v : ℤ} (h : Writes x n v y) : y.SameLocks x := by
  cases h <;> exact ⟨rfl, rfl⟩

theorem Frees.sameLocks {nsems : ℕ} {part : Part} (h : Frees nsems x part y) : y.SameLocks x := by
  cases h with
  | nList => exact sameLocks_destroyFrom nsems _
  | _ => exact ⟨rfl, rfl⟩

theorem SemSystem.Locks.keep (h : s.Locks) (hpc : s.pc p = x)
    (hpc' : s'.pc = update s.pc p y) (hkeymap : s'.keymap = s.keymap)
    (hlock : s'.lock = s.lock) (hsame : y.SameLocks x) :
    s'.Locks := by
  subst hpc
  constructor
  · rw [hpc', hkeymap]
    exact h.map.keep rfl hsame.1
  · rw [hpc', hlock]
    exact h.set.keep rfl hsame.2

theorem locks_move (h : s.Locks) (hmove : Move semid s p s') : s'.Locks := by
  cases hmove with
  | go undo hpc hgo => exact h.keep hpc rfl rfl rfl hgo.sameLocks
  | lockMap hpc hfree | ctlLock hpc hfree =>
    exact ⟨(hfree ▸ h.map).take rfl, h.set.keep hpc rfl⟩
  | obtain hpc hfree => exact ⟨h.map.keep hpc rfl, (hfree ▸ h.set).take rfl⟩
  | enter hpc | gone hpc | ctlUnlock hpc =>
    exact ⟨h.map.give (by rw [hpc]; rfl) rfl, h.set.keep hpc rfl⟩
  | recount hpc hsems | blocks ui undo hpc htest | enqueue hpc | clearEntry hpc =>
    exact h.keep hpc rfl rfl rfl ⟨rfl, rfl⟩
  | apply hpc hsem =>
    refine h.keep hpc rfl rfl rfl ?_
    split <;> exact ⟨rfl, rfl⟩
  | take hpc hqueue =>
    rename_i w n zero q qs
    refine h.keep hpc rfl rfl rfl ?_
    cases w <;> exact ⟨rfl, rfl⟩
  | restart hpc hq =>
    rename_i w n zero q c o
    have hne := ne_of_suspended hpc hq
    have hwoken : (s.goto q (.lockMap c)).Locks := h.keep hq rfl rfl rfl ⟨rfl, rfl⟩
    refine hwoken.keep ((update_of_ne hne _ _).trans hpc) rfl rfl rfl ?_
    cases w <;> exact ⟨rfl, rfl⟩
  | returns hpc hres | sleeps hpc =>
    exact ⟨h.map.keep hpc rfl, h.set.give (by rw [hpc]; rfl) rfl⟩
  | write semnum hpc hwrites hn => exact h.keep hpc rfl rfl rfl hwrites.sameLocks
  | free hpc hfrees => exact h.keep hpc rfl rfl rfl hfrees.sameLocks

end Clib4.SysV
