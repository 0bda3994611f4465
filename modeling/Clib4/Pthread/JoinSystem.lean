import Clib4.Base.Interleaving
import Clib4.Pthread.Cleanup

/-!
# A thread and one that joins it

`pthread_join` tests the status in the entry of the thread and waits for `SIGF_PARENT` until it
finds `THREAD_STATE_DESTRUCT`; then it clears the entry.  The thread sets this status at the end of
`StarterFunc`, where it also sends the signal to the task that created it.  But `pthread_exit` sets
it as well, when the cleanup handler and the destructors have not been run.

The start routine, the handler and the destructors do what they like: at any time they may call
`pthread_exit`, and the functions that change the entry.

## Main definitions

* `JoinInfo`, `TargetPc`, `JoinerPc`, `JoinSystem` — the entry, the thread and the one that joins
  it.

## Main results

* `JoinSystem.Sound.step` — **what a step can do, and what all steps keep.**
-/

namespace Clib4.Pthread

open Interleaving

/-! ### The system -/

/-- `PTHREAD_DESTRUCTOR_ITERATIONS`. -/
def destructorIterations : ℕ := 4

/-- `PTHREAD_KEYS_MAX`. -/
def keysMax : ℕ := 64

/-- `ThreadInfo` with the fields that matter for the end of a thread. -/
structure JoinInfo extends ThreadInfo where
  canceled : Bool := false
  cancelEnabled : Bool := false
  cleanup : List CleanupHandler := []
  tlsvalues : ℕ → Option ℕ := fun _ => none

/-- The code that is not the library's: the start routine, a cleanup handler, or the destructor of
the key `i` in the iteration `j`. -/
inductive UserCode
  | routine
  | handler
  | destructor (j i : ℕ)
  deriving DecidableEq, Repr

/-- Where the thread is: before it sets its status, in the code that is not the library's, in
`pthread_exit` before `longjmp`, behind `setjmp` before `pthread_cleanup_pop`, in the loops over the
keys, before the last section of `StarterFunc`, or at its end. -/
inductive TargetPc
  | born
  | user (u : UserCode)
  | jumping
  | unwinding
  | keys (j i : ℕ)
  | ending
  | ended
  deriving DecidableEq, Repr

/-- Where the other thread is: before `pthread_join`, before the test of the loop, in `Wait`, behind
the loop, or back with a result. -/
inductive JoinerPc
  | outside
  | test
  | waiting
  | passed
  | returned (result : Option Errno)
  deriving DecidableEq, Repr

/-- The tasks of the thread, of its creator, and of another thread that joins it. -/
structure Parties where
  self : Thread
  creator : Thread
  joiner : Thread
  other : joiner ≠ self

/-- The entry of the thread, the list of handlers of the main thread, and the keys that are used and
have a destructor; the variable `keyFound`; where the two threads are, and whether `SIGF_PARENT`
is pending at the one that joins.  The last three fields record that the creator has stored the
task, that the entry has been cleared, and that the thread has used it after that. -/
structure JoinSystem where
  info : JoinInfo
  main : List CleanupHandler := []
  keys : ℕ → Bool := fun _ => false
  keyFound : Bool := true
  target : TargetPc := .born
  joiner : JoinerPc := .outside
  signalled : Bool := false
  stored : Bool := false
  cleared : Bool := false
  late : Bool := false

/-- The state behind `CreateNewProcTags`. -/
def joinInit (p : Parties) : JoinSystem :=
  { info := { parent := some p.creator, cancelEnabled := true } }

namespace JoinSystem

/-- The thread uses its entry. -/
def touch (s : JoinSystem) : JoinSystem := { s with late := s.late || s.cleared }

/-- `pthread_self` finds the entry of the thread. -/
def isKnown (s : JoinSystem) (p : Parties) : Bool := s.info.task == some p.self

/-! ### The thread -/

/-- `pthread_exit`.  It returns to its caller if the entry is not found, or has another status. -/
def exit (s : JoinSystem) (p : Parties) : JoinSystem :=
  if s.isKnown p then
    if s.info.status = .running then
      { s.touch with info.status := .destruct, target := .jumping }
    else s.touch
  else s

/-- `pthread_testcancel`. -/
def testcancel (s : JoinSystem) (p : Parties) : JoinSystem :=
  if s.isKnown p && s.info.canceled && s.info.cancelEnabled then s.exit p else s

/-- `pthread_cleanup_pop(1)` in `StarterFunc`. -/
def unwind (s : JoinSystem) (p : Parties) : JoinSystem :=
  let list := if s.isKnown p then s.info.cleanup else s.main
  let (cleanup, handler) := cleanupPop list true
  let s := if s.isKnown p then { s.touch with info.cleanup := cleanup }
    else { s with main := cleanup }
  { s with target := if handler.isSome then .user .handler else .keys 0 0 }

/-- One turn of the loops over the keys. -/
def nextKey (s : JoinSystem) (j i : ℕ) : JoinSystem :=
  if i = 0 ∧ ¬ (s.keyFound = true ∧ j < destructorIterations) then { s with target := .ending }
  else
    let s := if i = 0 then { s with keyFound := false } else s
    if i = keysMax then { s with target := .keys (j + 1) 0 }
    else if s.keys i then
      if (s.info.tlsvalues i).isSome then
        { s.touch with
          info.tlsvalues := Function.update s.info.tlsvalues i none
          target := .user (.destructor j i) }
      else { s.touch with target := .keys j (i + 1) }
    else { s with target := .keys j (i + 1) }

/-- The last section, under `Forbid`: a thread that is not detached sets its status and sends the
signal. -/
def finish (s : JoinSystem) (p : Parties) : JoinSystem :=
  if s.info.detached then { s.touch with info := {}, target := .ended }
  else
    { s.touch with
      info.status := .destruct
      target := .ended
      signalled := s.signalled || s.info.parent == some p.joiner }

/-- The thread goes on: the code that is not the library's returns, or the library's code takes its
next step. -/
def advance (s : JoinSystem) (p : Parties) : Option JoinSystem :=
  match s.target with
  | .born => some { s.touch with info.status := .running, target := .user .routine }
  | .user .routine => some { s.touch with target := .unwinding }
  | .user .handler => some { s with target := .keys 0 0 }
  | .user (.destructor j i) => some { s with keyFound := true, target := .keys j (i + 1) }
  | .jumping => some { s.touch with target := .unwinding }
  | .unwinding => some (s.unwind p)
  | .keys j i => some (s.nextKey j i)
  | .ending => some (s.finish p)
  | .ended => none

end JoinSystem

/-- What the code that is not the library's may call. -/
inductive UserCall
  | exit
  | testcancel
  | push (routine : Option ℕ) (arg : ℕ) (allocated : Bool)
  | pop (execute : Bool)
  | setspecific (i : ℕ) (value : Option ℕ)
  | setcancelstate (enabled : Bool)
  deriving DecidableEq, Repr

namespace JoinSystem

/-- A change of the entry that `pthread_self` finds; the main thread's is not of interest. -/
def change (s : JoinSystem) (p : Parties) (f : JoinInfo → JoinInfo) : JoinSystem :=
  if s.isKnown p then { s.touch with info := f s.info } else s

/-- A call of the code that is not the library's. -/
def call (s : JoinSystem) (p : Parties) : UserCall → JoinSystem
  | .exit => s.exit p
  | .testcancel => s.testcancel p
  | .push routine arg allocated =>
    if s.isKnown p then
      s.change p fun e => { e with cleanup := cleanupPush e.cleanup routine arg allocated }
    else { s with main := cleanupPush s.main routine arg allocated }
  | .pop execute =>
    if s.isKnown p then
      s.change p fun e => { e with cleanup := (cleanupPop e.cleanup execute).1 }
    else { s with main := (cleanupPop s.main execute).1 }
  | .setspecific i value =>
    s.change p fun e => { e with tlsvalues := Function.update e.tlsvalues i value }
  | .setcancelstate enabled => s.change p fun e => { e with cancelEnabled := enabled }

/-- Code that is not the library's can call something when it runs. -/
def userStep (s : JoinSystem) (p : Parties) (c : UserCall) : Option JoinSystem :=
  match s.target with
  | .user _ => some (s.call p c)
  | _ => none

/-! ### The thread that joins -/

/-- The tests at the start of `pthread_join`. -/
def joinCall (s : JoinSystem) (p : Parties) : JoinSystem :=
  if s.info.parent = none then { s with joiner := .returned (some .ESRCH) }
  else if s.info.detached then { s with joiner := .returned (some .EINVAL) }
  else if s.info.task = some p.joiner then { s with joiner := .returned (some .EDEADLK) }
  else { s with joiner := .test }

/-- The next step of the thread that joins; it can call `pthread_join` when `pthread_create` has
returned, and behind `Wait` only once there is a signal. -/
def joinerStep (s : JoinSystem) (p : Parties) : Option JoinSystem :=
  match s.joiner with
  | .outside => if s.stored then some (s.joinCall p) else none
  | .test =>
    if s.info.status = .destruct then some { s with joiner := .passed }
    else some { s with joiner := .waiting }
  | .waiting => if s.signalled then some { s with signalled := false, joiner := .test } else none
  | .passed => some { s with info := {}, cleared := true, joiner := .returned none }
  | .returned _ => none

end JoinSystem

/-- A step of the thread or a call it makes, or a step of the one that joins; the creator stores the
task and `pthread_create` returns; another thread cancels the thread; a signal reaches the one that
joins from elsewhere, or is taken by it elsewhere; a key or the list of the main thread changes. -/
inductive JoinAct
  | go
  | call (c : UserCall)
  | join
  | store
  | cancel
  | signal
  | take
  | key (i : ℕ) (b : Bool)
  | main (cleanup : List CleanupHandler)
  deriving DecidableEq, Repr

/-- The steps. -/
def joinStep (p : Parties) (s : JoinSystem) : JoinAct → Option JoinSystem
  | .go => s.advance p
  | .call c => s.userStep p c
  | .join => s.joinerStep p
  | .store =>
    if s.stored then none
    else some { s with info.task := some p.self, stored := true }
  | .cancel =>
    if s.info.parent = none ∨ s.info.canceled = true then some s
    else some { s with info.canceled := true }
  | .signal => some { s with signalled := true }
  | .take => if s.joiner = .outside then some { s with signalled := false } else none
  | .key i b => some { s with keys := Function.update s.keys i b }
  | .main cleanup => some { s with main := cleanup }

/-- The step is a call of `pthread_exit`, or of `pthread_testcancel` in a thread that has been
cancelled, and it sets the status. -/
def Exits (p : Parties) (s : JoinSystem) (a : JoinAct) : Prop :=
  (a = .call .exit ∨ a = .call .testcancel ∧ s.info.canceled = true ∧ s.info.cancelEnabled = true) ∧
    (∃ u, s.target = .user u) ∧ s.isKnown p = true ∧ s.info.status = .running

/-! ### What the steps of the thread leave alone -/

/-- The thread does not change these. -/
structure Framed (s s' : JoinSystem) : Prop where
  parent : s'.info.parent = s.info.parent
  task : s'.info.task = s.info.task
  detached : s'.info.detached = s.info.detached
  joiner : s'.joiner = s.joiner
  stored : s'.stored = s.stored
  cleared : s'.cleared = s.cleared

/-- A step of the thread that is not its last one, and not in `pthread_exit`: the status stays what
it is, or becomes that of a thread that runs; and the entry is used at most now. -/
structure Ordinary (s s' : JoinSystem) : Prop extends Framed s s' where
  status : s'.info.status = s.info.status ∨ s'.info.status = .running
  signalled : s'.signalled = s.signalled
  late : s'.late = true → s.late = true ∨ s.cleared = true
  live : s.target ≠ .ended
  target : s'.target ≠ .ended

namespace JoinSystem

variable {p : Parties} {s s' : JoinSystem}

theorem late_touch (h : s.touch.late = true) : s.late = true ∨ s.cleared = true := by
  simpa [touch] using h

theorem ordinary_goto {x : TargetPc} (hlive : s.target ≠ .ended) (hx : x ≠ .ended) :
    Ordinary s { s with target := x } where
  parent := rfl
  task := rfl
  detached := rfl
  joiner := rfl
  stored := rfl
  cleared := rfl
  status := .inl rfl
  signalled := rfl
  late := .inl
  live := hlive
  target := hx

theorem ordinary_touch {x : TargetPc} (hlive : s.target ≠ .ended) (hx : x ≠ .ended) :
    Ordinary s { s.touch with target := x } :=
  { @ordinary_goto s x hlive hx with late := late_touch }

theorem ordinary_unwind (hlive : s.target ≠ .ended) : Ordinary s (s.unwind p) := by
  have hplace : ∀ handler : Option CleanupHandler,
      (if handler.isSome = true then TargetPc.user .handler else .keys 0 0) ≠ .ended := by
    rintro (_ | handler) <;> simp
  unfold unwind
  by_cases hknown : s.isKnown p = true
  · simp only [hknown]
    exact { @ordinary_touch s _ hlive (hplace _) with }
  · simp only [hknown]
    exact { @ordinary_goto s _ hlive (hplace _) with }

theorem ordinary_nextKey (hlive : s.target ≠ .ended) (j i : ℕ) :
    Ordinary s (s.nextKey j i) := by
  unfold nextKey
  by_cases hstop : i = 0 ∧ ¬ (s.keyFound = true ∧ j < destructorIterations)
  · rw [if_pos hstop]
    exact ordinary_goto hlive (by simp)
  · rw [if_neg hstop]
    -- the variable `keyFound` is reset where an iteration begins
    obtain ⟨b, hb⟩ : ∃ b, (if i = 0 then { s with keyFound := false } else s) =
        { s with keyFound := b } := by
      by_cases hi : i = 0
      · exact ⟨false, by rw [if_pos hi]⟩
      · exact ⟨s.keyFound, by rw [if_neg hi]⟩
    rw [hb]
    dsimp only
    split_ifs
    · exact { @ordinary_goto s (.keys (j + 1) 0) hlive (by simp) with }
    · exact { @ordinary_touch s (.user (.destructor j i)) hlive (by simp) with }
    · exact { @ordinary_touch s (.keys j (i + 1)) hlive (by simp) with }
    · exact { @ordinary_goto s (.keys j (i + 1)) hlive (by simp) with }

/-- A step of the library's code is ordinary, or the last one. -/
theorem advance_cases (h : s.advance p = some s') :
    Ordinary s s' ∨ s.target = .ending ∧ s' = s.finish p := by
  have hlive : s.target ≠ .ended := by
    intro hended
    simp [advance, hended] at h
  unfold advance at h
  cases htarget : s.target with
  | born =>
    rw [htarget] at h
    cases h
    exact .inl { @ordinary_touch s (.user .routine) hlive (by simp) with status := .inr rfl }
  | user u =>
    rw [htarget] at h
    cases u with
    | routine =>
      cases h
      exact .inl (ordinary_touch hlive (by simp))
    | handler =>
      cases h
      exact .inl (ordinary_goto hlive (by simp))
    | destructor j i =>
      cases h
      exact .inl { @ordinary_goto s (.keys j (i + 1)) hlive (by simp) with }
  | jumping =>
    rw [htarget] at h
    cases h
    exact .inl (ordinary_touch hlive (by simp))
  | unwinding =>
    rw [htarget] at h
    cases h
    exact .inl (ordinary_unwind hlive)
  | keys j i =>
    rw [htarget] at h
    cases h
    exact .inl (ordinary_nextKey hlive j i)
  | ending =>
    rw [htarget] at h
    cases h
    exact .inr ⟨rfl, rfl⟩
  | ended => exact absurd htarget hlive

theorem ordinary_refl {u : UserCode} (htarget : s.target = .user u) : Ordinary s s := by
  have hlive : s.target ≠ .ended := by simp [htarget]
  exact { @ordinary_goto s (.user u) hlive (by simp) with target := hlive }

/-- What the code that is not the library's does to the entry. -/
theorem ordinary_change {u : UserCode} {f : JoinInfo → JoinInfo} (htarget : s.target = .user u)
    (hthread : ∀ e, (f e).toThreadInfo = e.toThreadInfo) : Ordinary s (s.change p f) := by
  unfold change
  by_cases hknown : s.isKnown p = true
  · rw [if_pos hknown]
    exact { ordinary_refl htarget with
      parent := congrArg ThreadInfo.parent (hthread s.info)
      task := congrArg ThreadInfo.task (hthread s.info)
      detached := congrArg ThreadInfo.detached (hthread s.info)
      status := .inl (congrArg ThreadInfo.status (hthread s.info))
      late := late_touch }
  · rw [if_neg hknown]
    exact ordinary_refl htarget

/-- `pthread_exit` sets the status, or does nothing of interest. -/
theorem exit_cases {u : UserCode} (htarget : s.target = .user u) :
    Ordinary s (s.exit p) ∨
      (s.isKnown p = true ∧ s.info.status = .running) ∧
        s.exit p = { s.touch with info.status := .destruct, target := .jumping } := by
  unfold exit
  by_cases hknown : s.isKnown p = true
  · rw [if_pos hknown]
    by_cases hrunning : s.info.status = .running
    · rw [if_pos hrunning]
      exact .inr ⟨⟨hknown, hrunning⟩, rfl⟩
    · rw [if_neg hrunning]
      exact .inl { ordinary_refl htarget with late := late_touch }
  · rw [if_neg hknown]
    exact .inl (ordinary_refl htarget)

/-- A call of the code that is not the library's is ordinary, or sets the status. -/
theorem userStep_cases {c : UserCall} (h : s.userStep p c = some s') :
    Ordinary s s' ∨ Exits p s (.call c) ∧
      s' = { s.touch with info.status := .destruct, target := .jumping } := by
  unfold userStep at h
  split at h
  case h_2 => cases h
  case h_1 u htarget =>
    cases h
    have hsame := ordinary_refl htarget
    cases c with
    | exit =>
      rcases exit_cases htarget (p := p) with hord | ⟨hset, heq⟩
      · exact .inl hord
      · exact .inr ⟨⟨.inl rfl, ⟨u, htarget⟩, hset⟩, heq⟩
    | testcancel =>
      simp only [call, testcancel]
      by_cases hcancel : (s.isKnown p && s.info.canceled && s.info.cancelEnabled) = true
      · rw [if_pos hcancel]
        simp only [Bool.and_eq_true] at hcancel
        rcases exit_cases htarget (p := p) with hord | ⟨hset, heq⟩
        · exact .inl hord
        · exact .inr ⟨⟨.inr ⟨rfl, hcancel.1.2, hcancel.2⟩, ⟨u, htarget⟩, hset⟩, heq⟩
      · rw [if_neg hcancel]
        exact .inl hsame
    | push routine arg allocated | pop execute =>
      simp only [call]
      split_ifs
      · exact .inl (ordinary_change htarget fun _ => rfl)
      · exact .inl { hsame with }
    | setspecific i value | setcancelstate enabled =>
      simp only [call]
      exact .inl (ordinary_change htarget fun _ => rfl)

end JoinSystem

/-! ### What all steps keep -/

/-- The entry belongs to the thread until it is cleared, which is when the call returns. -/
structure JoinSystem.Sound (s : JoinSystem) (p : Parties) : Prop where
  cleared_iff : s.cleared = true ↔ s.joiner = .returned none
  noError : ∀ e, s.joiner ≠ .returned (some e)
  parent : s.cleared = false → s.info.parent = some p.creator
  task : s.cleared = false → s.info.task = if s.stored then some p.self else none
  stored : s.joiner ≠ .outside → s.stored = true
  detached : s.info.detached = false

namespace JoinSystem

variable {p : Parties} {s s' : JoinSystem} {a : JoinAct}

section

variable (h : s.Sound p)

include h

theorem Sound.frame (hframe : Framed s s') : s'.Sound p where
  cleared_iff := by rw [hframe.cleared, hframe.joiner]; exact h.cleared_iff
  noError := by rw [hframe.joiner]; exact h.noError
  parent := by rw [hframe.cleared, hframe.parent]; exact h.parent
  task := by rw [hframe.cleared, hframe.task, hframe.stored]; exact h.task
  stored := by rw [hframe.joiner, hframe.stored]; exact h.stored
  detached := by rw [hframe.detached]; exact h.detached

theorem framed_finish : Framed s (s.finish p) := by
  unfold finish
  rw [if_neg (by simp [h.detached])]
  exact ⟨rfl, rfl, rfl, rfl, rfl, rfl⟩

omit h in
/-- The steps of `pthread_join`. -/
inductive JoinerMove (s : JoinSystem) : JoinSystem → Prop
  | call (hjoiner : s.joiner = .outside) (hstored : s.stored = true) :
      JoinerMove s { s with joiner := .test }
  | pass (hjoiner : s.joiner = .test) (hstatus : s.info.status = .destruct) :
      JoinerMove s { s with joiner := .passed }
  | sleep (hjoiner : s.joiner = .test) (hstatus : s.info.status ≠ .destruct) :
      JoinerMove s { s with joiner := .waiting }
  | wake (hjoiner : s.joiner = .waiting) :
      JoinerMove s { s with signalled := false, joiner := .test }
  | clear (hjoiner : s.joiner = .passed) :
      JoinerMove s { s with info := {}, cleared := true, joiner := .returned none }

theorem Sound.not_cleared (hjoiner : s.joiner ≠ .returned none) : s.cleared = false := by
  rw [Bool.eq_false_iff, ne_eq, h.cleared_iff]
  exact hjoiner

theorem Sound.joinCall_eq (hjoiner : s.joiner = .outside) (hstored : s.stored = true) :
    s.joinCall p = { s with joiner := .test } := by
  have hcleared : s.cleared = false := h.not_cleared (by simp [hjoiner])
  have htask : s.info.task ≠ some p.joiner := by
    rw [h.task hcleared, if_pos hstored]
    exact fun heq => p.other (Option.some.inj heq).symm
  unfold joinCall
  rw [if_neg (by simp [h.parent hcleared]), if_neg (by simp [h.detached]), if_neg htask]

theorem Sound.joinerMove (hstep : s.joinerStep p = some s') : JoinerMove s s' := by
  unfold joinerStep at hstep
  cases hjoiner : s.joiner with
  | outside =>
    rw [hjoiner] at hstep
    dsimp only at hstep
    split_ifs at hstep with hstored
    rw [h.joinCall_eq hjoiner hstored] at hstep
    cases hstep
    exact .call hjoiner hstored
  | test =>
    rw [hjoiner] at hstep
    dsimp only at hstep
    split_ifs at hstep with hstatus
    · cases hstep
      exact .pass hjoiner hstatus
    · cases hstep
      exact .sleep hjoiner hstatus
  | waiting =>
    rw [hjoiner] at hstep
    dsimp only at hstep
    split_ifs at hstep
    cases hstep
    exact .wake hjoiner
  | passed =>
    rw [hjoiner] at hstep
    cases hstep
    exact .clear hjoiner
  | returned result =>
    rw [hjoiner] at hstep
    cases hstep

/-- The thread that joins goes on, and has not come to the end of its call. -/
theorem Sound.goto {x : JoinerPc} {b : Bool} (hjoiner : s.joiner ≠ .returned none)
    (hstored : s.stored = true) (hx : ∀ result, x ≠ .returned result) :
    ({ s with joiner := x, signalled := b } : JoinSystem).Sound p where
  cleared_iff := by
    rw [← not_iff_not]
    exact ⟨fun _ => hx none, fun _ => mt h.cleared_iff.1 hjoiner⟩
  noError := fun e => hx (some e)
  parent := h.parent
  task := h.task
  stored := fun _ => hstored
  detached := h.detached

theorem Sound.join (hmove : JoinerMove s s') : s'.Sound p := by
  cases hmove with
  | call hjoiner hstored =>
    exact h.goto (b := s.signalled) (by simp [hjoiner]) hstored (by simp)
  | pass hjoiner | sleep hjoiner =>
    exact h.goto (b := s.signalled) (by simp [hjoiner]) (h.stored (by simp [hjoiner])) (by simp)
  | wake hjoiner =>
    exact h.goto (b := false) (by simp [hjoiner]) (h.stored (by simp [hjoiner])) (by simp)
  | clear hjoiner =>
    constructor
    case cleared_iff => simp
    case noError => simp
    case parent => simp
    case task => simp
    case stored => exact fun _ => h.stored (by simp [hjoiner])
    case detached => rfl

end

/-- A step of others: it leaves both threads where they are, and of the entry it changes the task,
or that the thread is cancelled. -/
structure Aside (s s' : JoinSystem) : Prop where
  target : s'.target = s.target
  joiner : s'.joiner = s.joiner
  status : s'.info.status = s.info.status
  late : s'.late = s.late
  cleared : s'.cleared = s.cleared
  signalled : s'.signalled = s.signalled ∨ s'.signalled = true ∨ s.joiner = .outside

end JoinSystem

/-- The step is one of others. -/
def JoinAct.ofOthers : JoinAct → Bool
  | .go | .call _ | .join => false
  | _ => true

namespace JoinSystem

variable {p : Parties} {s s' : JoinSystem} {a : JoinAct}

theorem Sound.aside (h : s.Sound p) (ha : a.ofOthers = true)
    (hstep : joinStep p s a = some s') : s'.Sound p ∧ Aside s s' := by
  cases a with
  | go | call c | join => cases ha
  | store =>
    simp only [joinStep] at hstep
    split_ifs at hstep with hstored
    cases hstep
    exact ⟨{ h with
      task := by simp
      stored := fun _ => rfl }, ⟨rfl, rfl, rfl, rfl, rfl, .inl rfl⟩⟩
  | cancel =>
    simp only [joinStep] at hstep
    split_ifs at hstep
    · cases hstep
      exact ⟨h, ⟨rfl, rfl, rfl, rfl, rfl, .inl rfl⟩⟩
    · cases hstep
      exact ⟨{ h with }, ⟨rfl, rfl, rfl, rfl, rfl, .inl rfl⟩⟩
  | signal =>
    cases hstep
    exact ⟨{ h with }, ⟨rfl, rfl, rfl, rfl, rfl, .inr (.inl rfl)⟩⟩
  | take =>
    simp only [joinStep] at hstep
    split_ifs at hstep with hjoiner
    cases hstep
    exact ⟨{ h with }, ⟨rfl, rfl, rfl, rfl, rfl, .inr (.inr hjoiner)⟩⟩
  | key i b | main cleanup =>
    cases hstep
    exact ⟨{ h with }, ⟨rfl, rfl, rfl, rfl, rfl, .inl rfl⟩⟩

/-- **What a step can do.** -/
inductive SystemMove (p : Parties) (s : JoinSystem) (a : JoinAct) : JoinSystem → Prop
  | ordinary {s' : JoinSystem} (h : Ordinary s s') : SystemMove p s a s'
  | exits (h : Exits p s a) :
      SystemMove p s a { s.touch with info.status := .destruct, target := .jumping }
  | finishes (ha : a = .go) (h : s.target = .ending) : SystemMove p s a (s.finish p)
  | joins {s' : JoinSystem} (h : JoinerMove s s') : SystemMove p s a s'
  | aside {s' : JoinSystem} (h : Aside s s') : SystemMove p s a s'

theorem Sound.step (h : s.Sound p) (hstep : joinStep p s a = some s') :
    s'.Sound p ∧ SystemMove p s a s' := by
  cases a with
  | go =>
    rcases advance_cases hstep with hord | ⟨hending, rfl⟩
    · exact ⟨h.frame hord.toFramed, .ordinary hord⟩
    · exact ⟨h.frame (framed_finish h), .finishes rfl hending⟩
  | call c =>
    rcases userStep_cases hstep with hord | ⟨hexits, rfl⟩
    · exact ⟨h.frame hord.toFramed, .ordinary hord⟩
    · exact ⟨h.frame ⟨rfl, rfl, rfl, rfl, rfl, rfl⟩, .exits hexits⟩
  | join =>
    have hmove := h.joinerMove hstep
    exact ⟨h.join hmove, .joins hmove⟩
  | _ =>
    obtain ⟨hsound, haside⟩ := h.aside rfl hstep
    exact ⟨hsound, .aside haside⟩

theorem sound_init (p : Parties) : (joinInit p).Sound p where
  cleared_iff := by simp [joinInit]
  noError := by simp [joinInit]
  parent := fun _ => rfl
  task := fun _ => rfl
  stored := by simp [joinInit]
  detached := rfl

end JoinSystem

end Clib4.Pthread
