import Clib4.Pthread.Once

/-!
# Condition variables

A thread that waits for a condition puts a node on the condition's list, unlocks the mutex and
waits for the signal bit of the node.  It takes the node off the list itself, after it has been
woken and has locked the mutex again.  Until then the node is still the first one of the list, and
`pthread_cond_signal` sends the signal to the first one: a second call before that has no effect.

The list is only used under the condition's semaphore, and each such section is one step.

## Main definitions

* `WaitPc`, `CondState.timedwait` — `_pthread_cond_timedwait`, step by step.
* `CondSystem`, `condStep` — threads that use one condition and its mutex.

## Main results

* `signalTargets_eq` — **all signals until then go to the same waiter.**
-/

namespace Clib4.Pthread

open Interleaving List Function

/-! ### Waiting and signalling -/

/-- A mutex by its holder, `pthread_cond_t` by its list of waiters, and the bits of the tasks: that
of the thread's node, and the others it waits for (Ctrl-C and the timer).  `sent` tells whether a
signal has been sent to the node since it was put on the list. -/
structure CondState where
  mutex : Option Thread := none
  waiters : List Thread := []
  signals : Thread → Bool := fun _ => false
  breaks : Thread → Bool := fun _ => false
  sent : Thread → Bool := fun _ => false

/-- Where a thread is in `_pthread_cond_timedwait`: about to put its node on the list, to unlock
the mutex, in `Wait`, about to lock the mutex, to take its node off, or outside. -/
inductive WaitPc
  | add
  | unlock
  | wait
  | lock
  | remove
  | outside
  deriving DecidableEq, Repr

namespace CondState

/-- `AllocSignal`, or the fallback with `SetSignal`: the bit of a new node is clear. -/
def prepare (c : CondState) (p : Thread) : CondState :=
  { c with signals := update c.signals p false }

/-- A step of `_pthread_cond_timedwait`; there is none while the thread waits in vain. -/
def timedwait (c : CondState) (p : Thread) : WaitPc → Option (CondState × WaitPc)
  | .add =>
    some ({ c with waiters := c.waiters ++ [p], sent := update c.sent p false }, .unlock)
  | .unlock => if c.mutex = some p then some ({ c with mutex := none }, .wait) else none
  | .wait =>
    if c.signals p || c.breaks p then
      some ({ c with
        signals := update c.signals p false
        breaks := update c.breaks p false }, .lock)
    else none
  | .lock => if c.mutex = none then some ({ c with mutex := some p }, .remove) else none
  | .remove => some ({ c with waiters := c.waiters.erase p }, .outside)
  | .outside => none

/-- What a step of a wait does, by the place of the thread. -/
inductive WaitMove (c : CondState) (p : Thread) : WaitPc → CondState → WaitPc → Prop
  | add : WaitMove c p .add
      { c with waiters := c.waiters ++ [p], sent := update c.sent p false } .unlock
  | unlock (hmine : c.mutex = some p) : WaitMove c p .unlock { c with mutex := none } .wait
  | wait (hwoken : (c.signals p || c.breaks p) = true) : WaitMove c p .wait
      { c with signals := update c.signals p false, breaks := update c.breaks p false } .lock
  | lock (hfree : c.mutex = none) : WaitMove c p .lock { c with mutex := some p } .remove
  | remove : WaitMove c p .remove { c with waiters := c.waiters.erase p } .outside

theorem timedwait_move {c c' : CondState} {p : Thread} {x y : WaitPc}
    (h : c.timedwait p x = some (c', y)) : WaitMove c p x c' y := by
  cases x <;> simp only [timedwait] at h <;> try split_ifs at h with hif
  all_goals cases h
  · exact .add
  · exact .unlock hif
  · exact .wait hif
  · exact .lock hif
  · exact .remove

end CondState

/-- The loop of `_pthread_cond_broadcast`: the tasks that are sent their signal. -/
def reached (onlyfirst : Bool) : List Thread → List Thread
  | [] => []
  | w :: ws => w :: if onlyfirst then [] else reached onlyfirst ws

@[simp] theorem reached_true (ws : List Thread) : reached true ws = ws.head?.toList := by
  cases ws <;> rfl

/-- `_pthread_cond_broadcast`; a bit that is set stays set. -/
def CondState.broadcast (c : CondState) (onlyfirst : Bool) : CondState :=
  { c with
    signals := fun q => c.signals q || decide (q ∈ reached onlyfirst c.waiters)
    sent := fun q => c.sent q || decide (q ∈ reached onlyfirst c.waiters) }

/-- Ctrl-C, or the end of the time. -/
def CondState.interrupt (c : CondState) (p : Thread) : CondState :=
  { c with breaks := update c.breaks p true }

/-! ### Threads that use a condition -/

/-- A condition with its mutex, and the threads. -/
structure CondSystem where
  cond : CondState := {}
  pc : Thread → WaitPc := fun _ => .outside

/-- A thread locks or unlocks the mutex, begins to wait, goes on with that, or calls
`pthread_cond_signal` or `pthread_cond_broadcast`; or it is interrupted. -/
inductive CondAct
  | lock (p : Thread)
  | unlock (p : Thread)
  | wait (p : Thread)
  | go (p : Thread)
  | signal (p : Thread)
  | broadcast (p : Thread)
  | interrupt (p : Thread)
  deriving DecidableEq, Repr

/-- The steps of the threads. -/
def condStep (s : CondSystem) : CondAct → Option CondSystem
  | .lock p =>
    if s.pc p = .outside ∧ s.cond.mutex = none then some { s with cond.mutex := some p } else none
  | .unlock p =>
    if s.pc p = .outside ∧ s.cond.mutex = some p then some { s with cond.mutex := none } else none
  | .wait p =>
    if s.pc p = .outside ∧ s.cond.mutex = some p then
      some { cond := s.cond.prepare p, pc := update s.pc p .add }
    else none
  | .go p =>
    (s.cond.timedwait p (s.pc p)).map fun (c, x) => { cond := c, pc := update s.pc p x }
  | .signal p => if s.pc p = .outside then some { s with cond := s.cond.broadcast true } else none
  | .broadcast p =>
    if s.pc p = .outside then some { s with cond := s.cond.broadcast false } else none
  | .interrupt p => some { s with cond := s.cond.interrupt p }

/-! ### The targets of the signals -/

/-- No waiter takes its node off the list. -/
def KeepsWaiters (s : CondSystem) (a : CondAct) : Prop :=
  ∀ p, a = .go p → s.pc p ≠ .remove

instance (s : CondSystem) (a : CondAct) : Decidable (KeepsWaiters s a) :=
  match a with
  | .go p =>
    decidable_of_iff (s.pc p ≠ .remove) ⟨fun h _ hq => by cases hq; exact h, fun h => h p rfl⟩
  | .lock _ | .unlock _ | .wait _ | .signal _ | .broadcast _ | .interrupt _ =>
    .isTrue fun _ hq => by cases hq

/-- The step is a call of `pthread_cond_signal`. -/
def CondAct.isSignal : CondAct → Bool
  | .signal _ => true
  | _ => false

/-- The number of calls of `pthread_cond_signal`. -/
def signalCalls (acts : List CondAct) : ℕ := acts.countP CondAct.isSignal

/-- The waiters that these calls have sent their signal, in order. -/
def signalTargets : CondSystem → List CondAct → List Thread
  | _, [] => []
  | s, a :: acts =>
    (if a.isSignal then reached true s.cond.waiters else []) ++
      match condStep s a with
      | none => []
      | some s₁ => signalTargets s₁ acts

/-- The list only grows at its end, unless a waiter takes its node off. -/
theorem condStep_waiters {s s' : CondSystem} {a : CondAct} (hstep : condStep s a = some s')
    (hkeeps : KeepsWaiters s a) : s.cond.waiters <+: s'.cond.waiters := by
  cases a with
  | go p =>
    obtain ⟨⟨c, x⟩, htimed, rfl⟩ := Option.map_eq_some_iff.1 hstep
    generalize hpc : s.pc p = y at htimed
    cases CondState.timedwait_move htimed with
    | add => exact prefix_append ..
    | remove => exact absurd hpc (hkeeps p rfl)
    | _ => exact prefix_rfl
  | interrupt p =>
    cases hstep
    exact prefix_rfl
  | _ =>
    simp only [condStep] at hstep
    split_ifs at hstep
    cases hstep
    exact prefix_rfl

/-- **All signals until a waiter takes its node off go to the first waiter.** -/
theorem signalTargets_eq {s s' : CondSystem} {acts : List CondAct} {w : Thread}
    (hhead : s.cond.waiters.head? = some w) (hrun : run condStep s acts = some s')
    (hkeeps : Along condStep KeepsWaiters s acts) :
    signalTargets s acts = List.replicate (signalCalls acts) w := by
  induction acts generalizing s with
  | nil => rfl
  | cons a acts ih =>
    obtain ⟨s₁, hs₁, hrest⟩ := run_cons_eq_some.1 hrun
    obtain ⟨hkeep, hkeeps'⟩ := hkeeps s₁ hs₁
    have hhead' : s₁.cond.waiters.head? = some w := by
      obtain ⟨l, hl⟩ := condStep_waiters hs₁ hkeep
      rw [← hl, head?_append, hhead]
      rfl
    have htargets := ih hhead' hrest hkeeps'
    rw [signalTargets, hs₁, signalCalls, countP_cons]
    change _ ++ signalTargets s₁ acts = _
    rw [htargets]
    cases a.isSignal with
    | true =>
      simp only [reached_true, hhead]
      rfl
    | false => rfl

theorem signalTargets_distinct {s s' : CondSystem} {acts : List CondAct}
    (hrun : run condStep s acts = some s') (hkeeps : Along condStep KeepsWaiters s acts)
    (hblocked : signalCalls acts ≤ s.cond.waiters.length) :
    signalCalls acts ≤ (signalTargets s acts).dedup.length ↔ signalCalls acts ≤ 1 := by
  cases hwaiters : s.cond.waiters with
  | nil =>
    rw [hwaiters] at hblocked
    simp only [length_nil, Nat.le_zero] at hblocked
    simp [hblocked]
  | cons w ws =>
    rw [signalTargets_eq (w := w) (by rw [hwaiters]; rfl) hrun hkeeps]
    cases hk : signalCalls acts with
    | zero => simp
    | succ k => simp [replicate_dedup]

end Clib4.Pthread
