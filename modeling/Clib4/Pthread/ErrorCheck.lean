import Clib4.Pthread.Once

/-!
# Error-checking mutexes

`pthread_mutex_lock` tries a mutex of the kind `PTHREAD_MUTEX_ERRORCHECK`, to find out whether the
caller holds it already.  `_pthread_mutex_init` makes such a mutex one that does not nest, so the
attempt fails if the caller has the mutex; but it fails if another thread has it, too.

## Main definitions

* `MutexKind.isRecursive`, `ExecMutex.attempt` — the kinds, and which attempts succeed.
* `CheckedStep.step` — the steps of the threads; a call leaves a `LockReply`.

## Main results

* `lockReply_right_iff` — **which calls are answered as they should be.**
-/

namespace Clib4.Pthread

open Interleaving Function

/-! ### The threads -/

/-- The kinds of mutexes, `PTHREAD_MUTEX_...`. -/
inductive MutexKind
  | normal
  | recursive
  | errorCheck
  deriving DecidableEq, Repr

/-- The tag `ASOMUTEX_Recursive`, as `_pthread_mutex_init` sets it. -/
def MutexKind.isRecursive (kind : MutexKind) : Bool := kind = .recursive

/-- The thread that has the mutex, and how often it obtained it. -/
structure ExecMutex where
  owner : Option Thread := none
  nesting : ℕ := 0
  deriving DecidableEq, Repr

/-- `MutexAttempt`; `MutexObtain` waits until this succeeds. -/
def ExecMutex.attempt (kind : MutexKind) (m : ExecMutex) (p : Thread) : Option ExecMutex :=
  if m.owner = none ∨ kind.isRecursive ∧ m.owner = some p then some ⟨some p, m.nesting + 1⟩
  else none

/-- `MutexRelease`; `stray` is what it does for a thread that does not have the mutex. -/
def ExecMutex.release (stray : ExecMutex → Thread → ExecMutex) (m : ExecMutex) (p : Thread) :
    ExecMutex :=
  if m.owner = some p then if m.nesting ≤ 1 then {} else { m with nesting := m.nesting - 1 }
  else stray m p

/-- Where a thread is in `pthread_mutex_lock`, and who had the mutex at its attempt. -/
inductive CheckedPc
  | idle
  | release (found : Option Thread)
  | obtain (found : Option Thread)
  deriving DecidableEq, Repr

/-- A call that has returned: who had the mutex at its attempt, the result (an error, or nothing for
0), and who has the mutex then. -/
structure LockReply where
  thread : Thread
  found : Option Thread
  result : Option Errno
  holder : Option Thread
  deriving DecidableEq, Repr

/-- The mutex and the threads. -/
structure CheckedMutex where
  mutex : ExecMutex := {}
  pc : Thread → CheckedPc := fun _ => .idle
  replies : List LockReply := []

/-- A thread calls `pthread_mutex_lock`, goes on in it, or calls `pthread_mutex_unlock`. -/
inductive CheckedStep
  | lock (p : Thread)
  | advance (p : Thread)
  | unlock (p : Thread)

/-- One step, if it can be taken. -/
def CheckedStep.step (stray : ExecMutex → Thread → ExecMutex) (s : CheckedMutex) :
    CheckedStep → Option CheckedMutex
  | .lock p =>
    if s.pc p = .idle then
      match s.mutex.attempt .errorCheck p with
      | none =>
        let reply : LockReply := ⟨p, s.mutex.owner, some .EDEADLK, s.mutex.owner⟩
        some { s with replies := s.replies ++ [reply] }
      | some m => some { s with mutex := m, pc := update s.pc p (.release s.mutex.owner) }
    else none
  | .advance p =>
    match s.pc p with
    | .idle => none
    | .release found =>
      some { s with mutex := s.mutex.release stray p, pc := update s.pc p (.obtain found) }
    | .obtain found =>
      (s.mutex.attempt .errorCheck p).map fun m =>
        { mutex := m, pc := update s.pc p .idle
          replies := s.replies ++ [⟨p, found, none, m.owner⟩] }
  | .unlock p =>
    if s.pc p = .idle then some { s with mutex := s.mutex.release stray p } else none

/-! ### What the calls return -/

/-- The call fails with `EDEADLK` exactly if the caller has the mutex; otherwise it returns 0, and
the caller has the mutex then. -/
def LockReply.Right (r : LockReply) : Prop :=
  (r.result = some .EDEADLK ↔ r.found = some r.thread) ∧
    (r.found ≠ some r.thread → r.result = none ∧ r.holder = some r.thread)

/-- No other thread has the mutex at the attempt. -/
def LockReply.FindsNoOther (r : LockReply) : Prop := r.found = none ∨ r.found = some r.thread

/-- A thread behind its attempt has found the mutex free. -/
structure CheckedMutex.Inv (s : CheckedMutex) : Prop where
  found : ∀ p x, s.pc p = .release x ∨ s.pc p = .obtain x → x = none
  replies : ∀ r ∈ s.replies, r.Right ↔ r.FindsNoOther

variable {stray : ExecMutex → Thread → ExecMutex} {s s' : CheckedMutex} {p : Thread} {m : ExecMutex}

theorem ExecMutex.attempt_eq_some (h : s.mutex.attempt .errorCheck p = some m) :
    s.mutex.owner = none ∧ m.owner = some p := by
  unfold attempt at h
  split_ifs at h with howner
  cases h
  exact ⟨howner.resolve_right fun hmine => absurd hmine.1 (by decide), rfl⟩

theorem ExecMutex.attempt_eq_none (h : s.mutex.attempt .errorCheck p = none) :
    s.mutex.owner ≠ none := by
  unfold attempt at h
  split_ifs at h with howner
  exact (not_or.1 howner).1

theorem CheckedMutex.Inv.found_update (h : s.Inv) {y : CheckedPc}
    (hy : ∀ x, y = .release x ∨ y = .obtain x → x = none) (q : Thread) (x : Option Thread)
    (hq : update s.pc p y q = .release x ∨ update s.pc p y q = .obtain x) : x = none := by
  rw [update_apply] at hq
  split_ifs at hq with hqp
  · exact hy x hq
  · exact h.found q x hq

theorem CheckedMutex.Inv.replies_append (h : s.Inv) {reply : LockReply}
    (hreply : reply.Right ↔ reply.FindsNoOther) (r : LockReply)
    (hr : r ∈ s.replies ++ [reply]) : r.Right ↔ r.FindsNoOther := by
  rcases List.mem_append.1 hr with hr | hr
  · exact h.replies r hr
  · rw [List.mem_singleton.1 hr]
    exact hreply

theorem CheckedMutex.Inv.step (h : s.Inv) {c : CheckedStep} (hstep : c.step stray s = some s') :
    s'.Inv := by
  cases c with
  | lock p =>
    simp only [CheckedStep.step] at hstep
    split_ifs at hstep
    split at hstep
    case h_1 hattempt =>
      cases hstep
      have hfree := ExecMutex.attempt_eq_none hattempt
      refine ⟨h.found, h.replies_append ?_⟩
      -- the answer is right if the caller has the mutex, and wrong if another thread has it
      by_cases hmine : s.mutex.owner = some p
      · simp [LockReply.Right, LockReply.FindsNoOther, hmine]
      · simp [LockReply.Right, LockReply.FindsNoOther, hfree, hmine]
    case h_2 m hattempt =>
      cases hstep
      refine ⟨h.found_update fun x hx => ?_, h.replies⟩
      rcases hx with hx | hx <;> cases hx
      exact (ExecMutex.attempt_eq_some hattempt).1
  | advance p =>
    simp only [CheckedStep.step] at hstep
    split at hstep
    case h_1 => cases hstep
    case h_2 found hpc =>
      cases hstep
      refine ⟨h.found_update fun x hx => ?_, h.replies⟩
      rcases hx with hx | hx <;> cases hx
      exact h.found p found (.inl hpc)
    case h_3 found hpc =>
      obtain ⟨m, hattempt, rfl⟩ := Option.map_eq_some_iff.1 hstep
      refine ⟨h.found_update (by simp), h.replies_append ?_⟩
      have howner := (ExecMutex.attempt_eq_some hattempt).2
      obtain rfl := h.found p found (.inr hpc)
      simp [LockReply.Right, LockReply.FindsNoOther, howner]
  | unlock p =>
    simp only [CheckedStep.step] at hstep
    split_ifs at hstep
    cases hstep
    exact ⟨h.found, h.replies⟩

/-- **Which calls are answered as they should be**: those at whose attempt no other thread has the
mutex. -/
theorem lockReply_right_iff (stray : ExecMutex → Thread → ExecMutex) (cs : List CheckedStep)
    (s : CheckedMutex) (hrun : run (CheckedStep.step stray) {} cs = some s) (r : LockReply)
    (hr : r ∈ s.replies) : r.Right ↔ r.FindsNoOther := by
  have hinit : CheckedMutex.Inv {} := ⟨by simp, by simp⟩
  have hinv : s.Inv :=
    Interleaving.invariant (P := fun _ _ => True) (fun _ _ _ h _ hstep => h.step hstep) hinit
      (along_of_forall fun _ _ _ => trivial) hrun
  exact hinv.replies r hr

/-- A thread that locks the mutex twice is told so. -/
theorem lockReply_right_twice :
    LockReply.Right ⟨1, some 1, some .EDEADLK, some 1⟩ :=
  (lockReply_right_iff (fun m _ => m) [.lock 1, .advance 1, .advance 1, .lock 1] _ rfl _
    (.tail _ (.head _))).2 (.inr rfl)

/-- While one thread has the mutex, another one is told `EDEADLK` and does not wait. -/
theorem lockReply_not_owner :
    ∃ s, run (CheckedStep.step fun m _ => m) {}
          [.lock 1, .advance 1, .advance 1, .lock 2] = some s ∧
      s.replies = [⟨1, none, none, some 1⟩, ⟨2, some 1, some .EDEADLK, some 1⟩] ∧
      ¬ LockReply.Right ⟨2, some 1, some .EDEADLK, some 1⟩ := by
  refine ⟨_, rfl, rfl, ?_⟩
  simp [LockReply.Right]

end Clib4.Pthread
