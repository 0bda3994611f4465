import Clib4.Base.Loop
import Clib4.Errno

/-!
# Exit handlers

`atexit` puts a handler at the head of a list and `exit` takes them from there, one at a time.  A
handler is unlinked before it is called, so a handler that calls `exit` has the rest of the list
processed; that call does not return.

## Main definitions

* `Handler` — what a handler does, as far as `atexit` and `exit` are concerned.
* `exitStep` — a step of `__exit_trap_trigger` and of the handlers it calls.

## Main results

* `exit_starts_handlers` — **every handler is started once, the last one first.**
-/

namespace Clib4.Stdlib

/-- The calls of a handler: it returns, calls `exit`, or calls `atexit` (with a function or `NULL`,
and memory or none) and goes on according to the result. -/
inductive Handler (F : Type)
  | ret
  | exit
  | atexit (function : Option F) (memory : Bool) (next : Bool → Handler F)

/-- The part of `struct _clib4` that concerns the handlers.  The list is `NULL` at first. -/
structure ExitState (F : Type) where
  exitTrapList : Option (List F)
  numExitNodesUsed : ℕ
  atexitBlocked : Bool

variable {F : Type}

/-- The length of `exit_node_table`. -/
def exitNodeTableLength : ℕ := 32

/-- `atexit`: the state and the error, if any. -/
def atexit (s : ExitState F) (function : Option F) (memory : Bool) : ExitState F × Option Errno :=
  match function with
  | none => (s, some .EFAULT)
  | some f =>
    let added := some (f :: s.exitTrapList.getD [])
    if s.atexitBlocked then
      (s, some .EACCES)
    else if s.numExitNodesUsed < exitNodeTableLength then
      ({ s with exitTrapList := added, numExitNodesUsed := s.numExitNodesUsed + 1 }, none)
    else if memory then
      ({ s with exitTrapList := added }, none)
    else
      (s, some .ENOMEM)

/-- Before the first call. -/
def ExitState.init : ExitState F := ⟨none, 0, false⟩

/-- Calls of `atexit`: the state, and the handlers whose registration succeeded, the last first. -/
def atexitAll (calls : List (Option F × Bool)) : ExitState F × List F :=
  calls.foldl
    (fun r call =>
      let next := atexit r.1 call.1 call.2
      (next.1, (if next.2 = none then call.1.toList else []) ++ r.2))
    (.init, [])

/-- Where `exit` is: at `RemHead`, or in a handler. -/
inductive ExitPc (F : Type)
  | remHead
  | handler (h : Handler F)

/-- A run of `exit`, with the handlers started so far and the results of their calls of
`atexit`. -/
structure ExitRun (F : Type) where
  state : ExitState F
  pc : ExitPc F
  started : List F
  attempts : List (Option Errno)

/-- `__exit_trap_trigger` has been entered. -/
def ExitState.exit (s : ExitState F) : ExitRun F :=
  ⟨{ s with atexitBlocked := true }, .remHead, [], []⟩

/-- A step.  What a handler does may depend on all that has been started.  As `exit` does not
return, a handler that calls it is not kept. -/
def exitStep (behave : List F → Handler F) (r : ExitRun F) : ExitRun F ⊕ ExitRun F :=
  match r.pc with
  | .remHead =>
    match r.state.exitTrapList with
    | none | some [] => .inr r
    | some (f :: rest) =>
      .inl { r with
        state := { r.state with exitTrapList := some rest }
        pc := .handler (behave (r.started ++ [f]))
        started := r.started ++ [f] }
  | .handler .ret => .inl { r with pc := .remHead }
  | .handler .exit =>
    .inl { r with state := { r.state with atexitBlocked := true }, pc := .remHead }
  | .handler (.atexit function memory next) =>
    let (state, error) := atexit r.state function memory
    .inl { r with
      state
      pc := .handler (next error.isNone)
      attempts := r.attempts ++ [error] }

/-- The list holds the handlers that are registered and not started; no call of `atexit` has
succeeded. -/
structure ExitRun.Inv (registered : List F) (r : ExitRun F) : Prop where
  blocked : r.state.atexitBlocked = true
  list_eq : registered = r.started ++ r.state.exitTrapList.getD []
  attempts_ne : none ∉ r.attempts

/-- The calls of a handler, whichever way it goes. -/
def Handler.size : Handler F → ℕ
  | .ret | .exit => 1
  | .atexit _ _ next => (next true).size + (next false).size + 1

/-- The calls of the handlers to come. -/
def remaining (behave : List F → Handler F) (started : List F) : List F → ℕ
  | [] => 0
  | f :: rest =>
    (behave (started ++ [f])).size + 1 + remaining behave (started ++ [f]) rest

/-- The steps left. -/
def ExitRun.left (behave : List F → Handler F) (r : ExitRun F) : ℕ :=
  (match r.pc with
    | .remHead => 0
    | .handler h => h.size) + remaining behave r.started (r.state.exitTrapList.getD [])

variable {behave : List F → Handler F} {registered : List F} {r : ExitRun F}

/-- Once `exit` has been entered `atexit` only fails. -/
theorem atexit_blocked {s : ExitState F} (h : s.atexitBlocked = true) (function : Option F)
    (memory : Bool) : ∃ e, atexit s function memory = (s, some e) := by
  cases function with
  | none => exact ⟨_, rfl⟩
  | some f => exact ⟨_, by rw [atexit, h]; rfl⟩

/-- **A step keeps the invariant and leaves fewer steps, or `exit` is through with the list.** -/
theorem exitStep_spec (h : r.Inv registered) :
    (∃ r', exitStep behave r = .inl r' ∧ r'.Inv registered ∧ r'.left behave < r.left behave) ∨
      exitStep behave r = .inr r ∧ r.started = registered := by
  obtain ⟨⟨list, num, blocked⟩, pc, started, attempts⟩ := r
  obtain ⟨hblocked, hlist, hattempts⟩ := h
  cases pc with
  | remHead =>
    match list, hlist with
    | none, hlist => exact .inr ⟨rfl, by simpa using hlist.symm⟩
    | some [], hlist => exact .inr ⟨rfl, by simpa using hlist.symm⟩
    | some (f :: rest), hlist =>
      refine .inl ⟨_, rfl, ⟨hblocked, by simpa using hlist, hattempts⟩, ?_⟩
      simp only [ExitRun.left, remaining, Option.getD_some]
      omega
  | handler h =>
    refine .inl ?_
    cases h with
    | ret =>
      refine ⟨_, rfl, ⟨hblocked, hlist, hattempts⟩, ?_⟩
      simp [ExitRun.left, Handler.size]
    | exit =>
      refine ⟨_, rfl, ⟨rfl, hlist, hattempts⟩, ?_⟩
      simp [ExitRun.left, Handler.size]
    | atexit function memory next =>
      obtain ⟨e, he⟩ := atexit_blocked hblocked function memory
      refine ⟨⟨⟨list, num, blocked⟩, .handler (next false), started, attempts ++ [some e]⟩,
        by simp only [exitStep, he]; rfl, ⟨hblocked, hlist, by simpa using hattempts⟩, ?_⟩
      simp only [ExitRun.left, Handler.size]
      omega

theorem atexitAll_spec (calls : List (Option F × Bool)) :
    (atexitAll calls).1.exitTrapList.getD [] = (atexitAll calls).2 := by
  refine List.foldlRecOn (motive := fun r : ExitState F × List F =>
    r.1.exitTrapList.getD [] = r.2) calls _ rfl ?_
  rintro ⟨s, l⟩ hl ⟨function, memory⟩ -
  cases function with
  | none => exact hl
  | some f =>
    dsimp only [atexit] at hl ⊢
    split_ifs <;> simp_all

/-- **Whatever has been registered and whatever the handlers do, `exit` comes to the end of the
list, having started every handler once, the last one first; up to then it has started the last
ones, and every call of `atexit` in a handler has failed.** -/
theorem exit_starts_handlers (calls : List (Option F × Bool)) (behave : List F → Handler F) :
    let entered := (atexitAll calls).1.exit
    (∃ n r, Loop.run (exitStep behave) n entered = some r ∧ r.started = (atexitAll calls).2) ∧
      ∀ r, Loop.Reaches (exitStep behave) entered r →
        r.started <+: (atexitAll calls).2 ∧ none ∉ r.attempts := by
  intro entered
  have hentered : entered.Inv (atexitAll calls).2 :=
    ⟨rfl, (atexitAll_spec calls).symm, List.not_mem_nil⟩
  constructor
  · refine ⟨_, Loop.run_spec (ExitRun.Inv (atexitAll calls).2) (ExitRun.left behave)
      (fun r : ExitRun F => r.started = (atexitAll calls).2) (fun r hr => ?_) _ entered hentered
      (Nat.lt_succ_self _)⟩
    rcases exitStep_spec hr with h | ⟨hdone, hall⟩
    · exact .inl h
    · exact .inr ⟨r, hdone, hall⟩
  · intro r hr
    have hinv : r.Inv (atexitAll calls).2 := by
      induction hr with
      | refl => exact hentered
      | tail _ hstep ih =>
        rcases exitStep_spec ih with ⟨r', hr', hinv, -⟩ | ⟨hdone, -⟩
        · cases hr'.symm.trans hstep
          exact hinv
        · cases hdone.symm.trans hstep
    exact ⟨⟨_, hinv.list_eq.symm⟩, hinv.attempts_ne⟩

end Clib4.Stdlib
