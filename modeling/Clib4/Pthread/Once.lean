import Clib4.Base.Interleaving
import Clib4.Errno

/-!
# `pthread_once`

Any number of threads call `pthread_once` on one control block.  `PTHREAD_ONCE_INIT` sets
`started` to -1, so the exchange at the start of a call never takes place and its result is never
false: every call obtains the spin lock, and the flag `done` decides who runs the routine.

A thread may also be cancelled in the routine.  Its clean-up handler then releases the lock, and the
next call starts the routine anew.

## Main definitions

* `OnceControl`, `onceInit` — the control block and its initial contents.
* `OncePc`, `OnceSystem`, `onceStep` — the threads and their steps.
* `OnceSystem.cancel` — a thread is cancelled in the routine.

## Main results

* `once_runs_once` — **a call that returns 0 finds the routine completed, and run once.**
* `once_completed_once` — **with cancellations, it is completed once.**
-/

namespace Clib4.Pthread

open Interleaving Function

/-- A thread, as its task. -/
abbrev Thread := ℕ

/-! ### The threads -/

/-- `pthread_once_t`. -/
structure OnceControl where
  done : ℤ
  started : ℤ
  lock : ℤ
  deriving DecidableEq, Repr

/-- `PTHREAD_ONCE_INIT`. -/
def onceInit : OnceControl := ⟨0, -1, 0⟩

/-- Where a thread is: outside, at the exchange, in `pthread_spin_lock`, at the test of `done`, in
the routine, behind it, at `pthread_spin_unlock`, at the end of the call, or cancelled. -/
inductive OncePc
  | idle
  | exchange
  | spin
  | test
  | routine
  | setDone
  | unlock
  | leave
  | gone
  deriving DecidableEq, Repr

/-- The control block and the threads, with what the calls have returned (an error, or nothing for
0) and how often the routine has been started, has been completed and has been abandoned. -/
structure OnceSystem where
  control : OnceControl := onceInit
  pc : Thread → OncePc := fun _ => .idle
  replies : List (Thread × Option Errno) := []
  starts : ℕ := 0
  completions : ℕ := 0
  abandonments : ℕ := 0

/-- A thread goes on elsewhere. -/
def OnceSystem.goto (s : OnceSystem) (p : Thread) (x : OncePc) : OnceSystem :=
  { s with pc := update s.pc p x }

/-- A call returns. -/
def OnceSystem.reply (s : OnceSystem) (p : Thread) (result : Option Errno) : OnceSystem :=
  { s.goto p .idle with replies := s.replies ++ [(p, result)] }

/-- The next step of a thread in `pthread_once`. -/
def OnceSystem.advance (s : OnceSystem) (p : Thread) : Option OnceSystem :=
  match s.pc p with
  | .idle => none
  | .exchange =>
    -- the exchange returns the old value, whether it has taken place or not
    let old := s.control.started
    let s := { s with control.started := if old = 0 then 1 else old }
    some (s.goto p (if old ≠ 0 then .spin else .leave))
  | .spin =>
    let s' := { s with control.lock := 1 }
    some (s'.goto p (if s.control.lock ≠ 0 then .spin else .test))
  | .test =>
    if s.control.done = 0 then some { s.goto p .routine with starts := s.starts + 1 }
    else some (s.goto p .unlock)
  | .routine => some { s.goto p .setDone with completions := s.completions + 1 }
  | .setDone => some { s.goto p .unlock with control.done := 1 }
  | .unlock => some { s.goto p .leave with control.lock := 0 }
  | .leave => some (s.reply p none)
  | .gone => none

/-- A thread begins a call, with arguments that may be null pointers, or goes on with it. -/
inductive OnceAct
  | call (p : Thread) (nullControl nullRoutine : Bool)
  | go (p : Thread)
  deriving DecidableEq, Repr

/-- The steps of the threads. -/
def onceStep (s : OnceSystem) : OnceAct → Option OnceSystem
  | .call p nullControl nullRoutine =>
    if s.pc p = .idle then
      if nullControl || nullRoutine then some (s.reply p (some .EINVAL))
      else some (s.goto p .exchange)
    else none
  | .go p => s.advance p

/-- A thread is cancelled in the routine, and `OnceCleanup` releases the lock. -/
def OnceSystem.cancel (s : OnceSystem) (p : Thread) : Option OnceSystem :=
  if s.pc p = .routine then
    some { s.goto p .gone with
      control.lock := 0
      abandonments := s.abandonments + 1 }
  else none

/-- The steps of the threads, and cancellations. -/
def onceStepOrCancel (s : OnceSystem) : OnceAct ⊕ Thread → Option OnceSystem
  | .inl a => onceStep s a
  | .inr p => s.cancel p

/-! ### The invariant -/

/-- The places between `pthread_spin_lock` and `pthread_spin_unlock`. -/
def OncePc.inSection : OncePc → Bool
  | .test | .routine | .setDone | .unlock => true
  | _ => false

/-- How often the routine has run, by the place of the thread that holds the lock. -/
def OnceSystem.Accounts (s : OnceSystem) : Option OncePc → Prop
  | some .routine =>
    s.control.done = 0 ∧ s.starts = 1 + s.abandonments ∧ s.completions = 0
  | some .setDone =>
    s.control.done = 0 ∧ s.starts = 1 + s.abandonments ∧ s.completions = 1
  | some .unlock =>
    s.control.done ≠ 0 ∧ s.starts = 1 + s.abandonments ∧ s.completions = 1
  | _ =>
    s.control.done = 0 ∧ s.starts = s.abandonments ∧ s.completions = 0 ∨
      s.control.done ≠ 0 ∧ s.starts = 1 + s.abandonments ∧ s.completions = 1

/-- The lock has one holder, the counts are right, and the calls that end or have ended with 0
have seen the flag set. -/
structure OnceSystem.Once (s : OnceSystem) (holder : Option Thread) : Prop where
  started : s.control.started ≠ 0
  held : Held OncePc.inSection s.pc holder
  locked : s.control.lock = 0 ↔ holder = none
  accounts : s.Accounts (holder.map s.pc)
  leaving : ∀ q, s.pc q = .leave → s.control.done ≠ 0
  replied : ∀ q, (q, none) ∈ s.replies → s.control.done ≠ 0

namespace OnceSystem

variable {s s' : OnceSystem} {holder holder' : Option Thread} {p : Thread} {x : OncePc}

section

variable (h : s.Once holder)

include h

/-- A step of one thread: the lock and the counts are looked at each time, the rest follows. -/
theorem Once.move (hpc : s'.pc = update s.pc p x)
    (hheld : Held OncePc.inSection (update s.pc p x) holder')
    (hstarted : s'.control.started = s.control.started)
    (hlocked : s'.control.lock = 0 ↔ holder' = none)
    (hacc : s'.Accounts (holder'.map (update s.pc p x)))
    (hdone : s.control.done ≠ 0 → s'.control.done ≠ 0)
    (hleave : x = .leave → s'.control.done ≠ 0)
    (hreplied : ∀ q, (q, none) ∈ s'.replies → (q, none) ∈ s.replies ∨ s'.control.done ≠ 0) :
    s'.Once holder' where
  started := hstarted ▸ h.started
  held := hpc ▸ hheld
  locked := hlocked
  accounts := hpc ▸ hacc
  leaving := by
    intro q hq
    rw [hpc, update_apply] at hq
    split_ifs at hq
    · exact hleave hq
    · exact hdone (h.leaving q hq)
  replied := by
    intro q hq
    rcases hreplied q hq with hold | hnew
    · exact hdone (h.replied q hold)
    · exact hnew

/-- What is counted depends on the thread in the section only. -/
theorem Once.accounts_update (hp : (s.pc p).inSection = false) :
    s.Accounts (holder.map (update s.pc p x)) := by
  have hmap : holder.map (update s.pc p x) = holder.map s.pc := by
    cases holder with
    | none => rfl
    | some q =>
      have hq : q ≠ p := by
        rintro rfl
        rw [(h.held q).2 rfl] at hp
        cases hp
      simp [hq]
  rw [hmap]
  exact h.accounts

theorem Once.outside (hp : (s.pc p).inSection = false)
    (hx : x.inSection = false) (hleave : x ≠ .leave) : (s.goto p x).Once holder :=
  h.move rfl (h.held.keep rfl (hx.trans hp.symm)) rfl h.locked (h.accounts_update hp) id
    (fun heq => absurd heq hleave) fun _ => .inl

theorem Once.reply (hp : (s.pc p).inSection = false) {result : Option Errno}
    (hres : result = none → s.control.done ≠ 0) : (s.reply p result).Once holder := by
  have hheld : Held OncePc.inSection (update s.pc p .idle) holder :=
    h.held.keep rfl hp.symm
  refine h.move rfl hheld rfl h.locked (h.accounts_update hp) id (by simp) ?_
  intro q hq
  rcases List.mem_append.1 hq with hold | hnew
  · exact .inl hold
  · cases List.mem_singleton.1 hnew
    exact .inr (hres rfl)

theorem Once.accounts_of_mem (hpc : s.pc p = x) (hx : x.inSection = true) :
    holder = some p ∧ s.Accounts (some x) := by
  subst hpc
  have hholder := (h.held p).1 hx
  subst hholder
  exact ⟨rfl, h.accounts⟩

theorem Once.advance (hstep : s.advance p = some s') : ∃ holder', s'.Once holder' := by
  unfold OnceSystem.advance at hstep
  cases hpc : s.pc p <;> simp only [hpc] at hstep
  case idle | gone => cases hstep
  case exchange =>
    rw [if_pos h.started, if_neg h.started] at hstep
    cases hstep
    exact ⟨holder, h.outside (by rw [hpc]; rfl) rfl (by simp)⟩
  case spin =>
    cases hstep
    have hp : (s.pc p).inSection = false := by rw [hpc]; rfl
    by_cases hlock : s.control.lock = 0
    · have hnone := h.locked.1 hlock
      subst hnone
      refine ⟨some p, h.move rfl (h.held.take ?_) rfl (by simp [goto]) ?_ id ?_ fun _ => .inl⟩
      · simp [hlock, OncePc.inSection]
      · simpa [hlock, Accounts, goto] using h.accounts
      · simp [hlock]
    · have hsome : holder ≠ none := fun hnone => hlock (h.locked.2 hnone)
      refine ⟨holder, h.move rfl (h.held.keep rfl ?_) rfl ?_ (h.accounts_update hp) id ?_
        fun _ => .inl⟩
      · simp [hlock, hpc]
      · simpa [goto] using hsome
      · simp [hlock]
  case test =>
    obtain ⟨rfl, hacc⟩ := h.accounts_of_mem hpc rfl
    have hlocked : s.control.lock = 0 ↔ some p = none := h.locked
    by_cases hdone : s.control.done = 0
    · rw [if_pos hdone] at hstep
      cases hstep
      refine ⟨some p, h.move rfl (h.held.keep hpc rfl) rfl hlocked ?_ id (by simp)
        fun _ => .inl⟩
      have hcounts : s.starts = s.abandonments ∧ s.completions = 0 := by
        simpa [Accounts, hdone] using hacc
      simp [Accounts, goto, hdone, hcounts, Nat.add_comm]
    · rw [if_neg hdone] at hstep
      cases hstep
      refine ⟨some p, h.move rfl (h.held.keep hpc rfl) rfl hlocked ?_ id (by simp)
        fun _ => .inl⟩
      simpa [Accounts, goto, hdone] using hacc
  case routine =>
    obtain ⟨rfl, hacc⟩ := h.accounts_of_mem hpc rfl
    cases hstep
    refine ⟨some p, h.move rfl (h.held.keep hpc rfl) rfl h.locked ?_ id (by simp)
      fun _ => .inl⟩
    simpa [Accounts, goto] using hacc
  case setDone =>
    obtain ⟨rfl, hacc⟩ := h.accounts_of_mem hpc rfl
    cases hstep
    refine ⟨some p, h.move rfl (h.held.keep hpc rfl) rfl h.locked ?_ (by simp)
      (by simp) fun _ => .inl⟩
    simpa [Accounts, goto] using hacc.2
  case unlock =>
    obtain ⟨rfl, hacc⟩ := h.accounts_of_mem hpc rfl
    cases hstep
    refine ⟨none, h.move rfl (h.held.give (by rw [hpc]; rfl) rfl) rfl (by simp) (.inr hacc) id
      (fun _ => hacc.1) fun _ => .inl⟩
  case leave =>
    cases hstep
    exact ⟨holder, h.reply (by rw [hpc]; rfl) fun _ => h.leaving p hpc⟩

theorem Once.step {a : OnceAct} (hstep : onceStep s a = some s') : ∃ holder', s'.Once holder' := by
  cases a with
  | call p nullControl nullRoutine =>
    simp only [onceStep] at hstep
    split_ifs at hstep with hpc hnull
    · cases hstep
      exact ⟨holder, h.reply (by rw [hpc]; rfl) (by simp)⟩
    · cases hstep
      exact ⟨holder, h.outside (by rw [hpc]; rfl) rfl (by simp)⟩
  | go p => exact h.advance hstep

/-- A cancellation: the counts are those from before the routine was started, with one attempt
more. -/
theorem Once.cancel (hstep : s.cancel p = some s') : ∃ holder', s'.Once holder' := by
  simp only [OnceSystem.cancel] at hstep
  split_ifs at hstep with hpc
  cases hstep
  obtain ⟨rfl, hacc⟩ := h.accounts_of_mem hpc rfl
  refine ⟨none, h.move rfl (h.held.give (by rw [hpc]; rfl) rfl) rfl (by simp) (.inl ?_) id
    (by simp) fun _ => .inl⟩
  exact ⟨hacc.1, hacc.2.1.trans (Nat.add_comm ..), hacc.2.2⟩

end

theorem once_init : OnceSystem.Once {} none where
  started := by decide
  held := fun _ => by simp [OncePc.inSection]
  locked := by decide
  accounts := .inl ⟨rfl, rfl, rfl⟩
  leaving := by simp
  replied := by simp

/-- Once a call has returned 0, the flag is set and the counts are final. -/
theorem Once.counts (h : s.Once holder) (hret : (p, none) ∈ s.replies) :
    s.completions = 1 ∧ s.starts = 1 + s.abandonments := by
  have hdone := h.replied p hret
  have hacc := h.accounts
  unfold OnceSystem.Accounts at hacc
  split at hacc <;> simp_all

end OnceSystem

theorem onceStep_abandonments {s s' : OnceSystem} {a : OnceAct} (hstep : onceStep s a = some s') :
    s'.abandonments = s.abandonments := by
  cases a with
  | call p nullControl nullRoutine =>
    simp only [onceStep] at hstep
    split_ifs at hstep <;> cases hstep <;> rfl
  | go p =>
    simp only [onceStep, OnceSystem.advance] at hstep
    split at hstep
    case h_4 => split_ifs at hstep <;> cases hstep <;> rfl
    all_goals cases hstep
    all_goals rfl

/-- **With cancellations.**  Once a call has returned 0 the routine has been completed, and just
once.  It has been started as often as that and as it was abandoned. -/
theorem once_completed_once {acts : List (OnceAct ⊕ Thread)} {s : OnceSystem} {p : Thread}
    (hrun : run onceStepOrCancel {} acts = some s) (hret : (p, none) ∈ s.replies) :
    s.completions = 1 ∧ s.starts = 1 + s.abandonments := by
  have hinv : ∃ holder, s.Once holder := by
    refine invariant (I := fun s : OnceSystem => ∃ holder, s.Once holder) (P := fun _ _ => True) ?_
      ⟨none, OnceSystem.once_init⟩ (along_of_forall fun _ _ _ => trivial) hrun
    rintro s₁ (a | q) s₂ ⟨holder, h⟩ - hstep
    · exact h.step hstep
    · exact h.cancel hstep
  obtain ⟨holder, h⟩ := hinv
  exact h.counts hret

/-- One thread is cancelled in the routine, and another one completes it. -/
def cancelledOnce : List (OnceAct ⊕ Thread) :=
  .inl (.call 0 false false) :: .replicate 3 (.inl (.go 0)) ++ .inr 0 ::
    .inl (.call 1 false false) :: .replicate 7 (.inl (.go 1))

theorem once_completed_once_cancelled :
    ∃ s, run onceStepOrCancel {} cancelledOnce = some s ∧ s.abandonments = 1 ∧
      s.completions = 1 ∧ s.starts = 1 + s.abandonments :=
  ⟨_, rfl, rfl, @once_completed_once cancelledOnce _ 1 rfl (by decide)⟩

/-- **The routine is run once.**  After any steps of any number of threads, once a call has
returned 0 the routine has been started exactly once, and has been completed. -/
theorem once_runs_once {acts : List OnceAct} {s : OnceSystem} {p : Thread}
    (hrun : run onceStep {} acts = some s) (hreturned : (p, none) ∈ s.replies) :
    s.starts = 1 ∧ s.completions = 1 := by
  have hinv : (∃ holder, s.Once holder) ∧ s.abandonments = 0 := by
    refine invariant (I := fun s : OnceSystem => (∃ holder, s.Once holder) ∧ s.abandonments = 0)
      (P := fun _ _ => True) ?_ ⟨⟨none, OnceSystem.once_init⟩, rfl⟩
      (along_of_forall fun _ _ _ => trivial) hrun
    rintro s₁ a s₂ ⟨⟨holder, h⟩, hnone⟩ - hstep
    exact ⟨h.step hstep, (onceStep_abandonments hstep).trans hnone⟩
  obtain ⟨⟨holder, h⟩, hnone⟩ := hinv
  obtain ⟨hcompletions, hstarts⟩ := h.counts hreturned
  rw [hnone] at hstarts
  exact ⟨hstarts, hcompletions⟩

/-- Two threads call it at the same time; the second one obtains the lock first. -/
def twoCallers : List OnceAct :=
  [.call 0 false false, .call 1 false false, .go 0, .go 1, .go 1, .go 0, .go 1, .go 1, .go 0,
    .go 1, .go 1, .go 1]

/-- It has run the routine while the other one waits. -/
theorem once_runs_once_twoCallers :
    ∃ s, run onceStep {} twoCallers = some s ∧ s.replies = [(1, none)] ∧ s.pc 0 = .spin ∧
      s.starts = 1 ∧ s.completions = 1 := by
  refine ⟨_, rfl, rfl, rfl, ?_⟩
  exact @once_runs_once twoCallers _ 1 rfl (by decide)

/-- In a control block of zeros the exchange takes place, and the call returns without a run of the
routine. -/
example : (run onceStep { control := ⟨0, 0, 0⟩ } [.call 0 false false, .go 0, .go 0]).map
    (fun s => (s.replies, s.starts)) = some ([(0, none)], 0) := by
  decide

end Clib4.Pthread
