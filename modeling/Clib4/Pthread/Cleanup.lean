import Clib4.Pthread.Create

/-!
# Cleanup handlers

`pthread_cleanup_push` appends a handler to a list in the entry of the thread that calls it, and
`pthread_cleanup_pop` takes the last one off.  When a thread ends by `pthread_exit`, `StarterFunc`
calls `pthread_cleanup_pop` once.

The entry is the one that `pthread_self` finds, and that is the main thread's as long as the creator
has not stored the task.

## Main definitions

* `CleanupHandler`, `cleanupPush`, `cleanupPop` — a list of handlers and the two calls.
* `CleanupThread`, `cleanupStep`, `exitThread` — the calls of one thread, and its end.
* `pendingStep`, `due` — the handlers that have been pushed and not yet popped.

## Main results

* `within_run` — **the list of a thread is a part of what is pending.**
* `cleanup_run_iff` — **when the handlers are run.**
-/

namespace Clib4.Pthread

open Interleaving List

/-! ### The calls -/

/-- `CleanupHandler`: the routine and its argument. -/
structure CleanupHandler where
  routine : ℕ
  arg : ℕ
  deriving DecidableEq, Repr

/-- `pthread_cleanup_push`, with a routine that may be a null pointer, when the memory for the
handler can be allocated or not. -/
def cleanupPush (cleanup : List CleanupHandler) (routine : Option ℕ) (arg : ℕ) (allocated : Bool) :
    List CleanupHandler :=
  match routine with
  | none => cleanup
  | some r => if allocated then cleanup ++ [⟨r, arg⟩] else cleanup

/-- `pthread_cleanup_pop`: the list, and the handler that is run. -/
def cleanupPop (cleanup : List CleanupHandler) (execute : Bool) :
    List CleanupHandler × Option CleanupHandler :=
  (cleanup.dropLast, if execute then cleanup.getLast? else none)

/-- A thread: the list in its entry and the one in the entry of the main thread; whether the creator
has stored the task; and the handlers that calls of `pthread_cleanup_pop` have run. -/
structure CleanupThread where
  own : List CleanupHandler := []
  main : List CleanupHandler := []
  stored : Bool := false
  ran : List CleanupHandler := []
  deriving DecidableEq, Repr

/-- The list in the entry that `pthread_self` finds. -/
def CleanupThread.list (s : CleanupThread) : List CleanupHandler :=
  if s.stored then s.own else s.main

/-- This list changes. -/
def CleanupThread.setList (s : CleanupThread) (cleanup : List CleanupHandler) : CleanupThread :=
  if s.stored then { s with own := cleanup } else { s with main := cleanup }

/-- The thread pushes or pops a handler, its creator stores the task, or others change the list of
the main thread. -/
inductive CleanupAct
  | push (routine : Option ℕ) (arg : ℕ) (allocated : Bool)
  | pop (execute : Bool)
  | store
  | others (main : List CleanupHandler)
  deriving DecidableEq, Repr

/-- The steps. -/
def cleanupStep (s : CleanupThread) : CleanupAct → CleanupThread
  | .push routine arg allocated => s.setList (cleanupPush s.list routine arg allocated)
  | .pop execute =>
    let (cleanup, handler) := cleanupPop s.list execute
    { s.setList cleanup with ran := s.ran ++ handler.toList }
  | .store => { s with stored := true }
  | .others main => { s with main := main }

/-- The thread after a list of steps. -/
def cleanupRun (acts : List CleanupAct) : CleanupThread := acts.foldl cleanupStep {}

/-- `pthread_exit`, also as the end of a thread that is cancelled: the handlers that are run at the
end.  It returns to its caller if it takes the thread for the main one. -/
def exitThread (s : CleanupThread) : Option (List CleanupHandler) :=
  if s.stored then some (cleanupPop s.own true).2.toList else none

/-! ### What should be run -/

/-- The pushes that have not been popped yet, whether they have succeeded or not. -/
def pendingStep (pending : List (Option ℕ × ℕ)) : CleanupAct → List (Option ℕ × ℕ)
  | .push routine arg _ => pending ++ [(routine, arg)]
  | .pop _ => pending.dropLast
  | .store => pending
  | .others _ => pending

/-- The same after a list of steps. -/
def pending (acts : List CleanupAct) : List (Option ℕ × ℕ) := acts.foldl pendingStep []

/-- The handler of a push; a null pointer is none. -/
def handlerOf : Option ℕ × ℕ → Option CleanupHandler
  | (routine, arg) => routine.map fun r => ⟨r, arg⟩

/-- The handlers that are to be run at the end, in the order in which they are to be run. -/
def due (acts : List CleanupAct) : List CleanupHandler :=
  ((pending acts).filterMap handlerOf).reverse

/-! ### The list holds what is pending, or less -/

theorem dropLast_sublist_dropLast {α : Type*} {l m : List α} (h : l.Sublist m) :
    l.dropLast.Sublist m.dropLast := by
  rw [← reverse_sublist, ← tail_reverse, ← tail_reverse]
  exact (reverse_sublist.2 h).tail

/-- The list is a part of what is pending, and it is empty until the task is stored. -/
structure Within (s : CleanupThread) (pending : List (Option ℕ × ℕ)) : Prop where
  sublist : s.own.Sublist (pending.filterMap handlerOf)
  empty : s.stored = false → s.own = []

variable {s : CleanupThread}

theorem Within.push {pending : List (Option ℕ × ℕ)} (h : Within s pending) (routine : Option ℕ)
    (arg : ℕ) (allocated : Bool) :
    Within (cleanupStep s (.push routine arg allocated)) (pending ++ [(routine, arg)]) := by
  have hmore : s.own.Sublist ((pending ++ [(routine, arg)]).filterMap handlerOf) := by
    rw [filterMap_append]
    exact h.sublist.trans (sublist_append_left ..)
  cases hstored : s.stored with
  | false =>
    simp only [cleanupStep, CleanupThread.setList, hstored]
    exact ⟨hmore, fun _ => h.empty hstored⟩
  | true =>
    simp only [cleanupStep, CleanupThread.setList, CleanupThread.list, hstored]
    refine ⟨?_, by simp⟩
    cases routine with
    | none => exact hmore
    | some r =>
      cases allocated with
      | false => exact hmore
      | true =>
        rw [filterMap_append]
        exact h.sublist.append (List.Sublist.refl _)

/-- Taking off the last push takes off the last handler, or none. -/
theorem dropLast_filterMap_sublist (pending : List (Option ℕ × ℕ)) :
    (pending.filterMap handlerOf).dropLast.Sublist (pending.dropLast.filterMap handlerOf) := by
  rcases eq_nil_or_concat pending with rfl | ⟨l, p, rfl⟩
  · exact List.Sublist.refl _
  · cases hp : handlerOf p with
    | none => simpa [hp] using dropLast_sublist _
    | some handler => simp [hp]

theorem Within.pop {pending : List (Option ℕ × ℕ)} (h : Within s pending) (execute : Bool) :
    Within (cleanupStep s (.pop execute)) pending.dropLast := by
  have hfewer : s.own.dropLast.Sublist (pending.dropLast.filterMap handlerOf) :=
    (dropLast_sublist_dropLast h.sublist).trans (dropLast_filterMap_sublist pending)
  cases hstored : s.stored with
  | false =>
    simp only [cleanupStep, CleanupThread.setList, hstored]
    refine ⟨?_, fun _ => h.empty hstored⟩
    rw [h.empty hstored]
    exact nil_sublist _
  | true =>
    simp only [cleanupStep, CleanupThread.setList, CleanupThread.list, hstored]
    exact ⟨hfewer, by simp⟩

theorem Within.step {pending : List (Option ℕ × ℕ)} (h : Within s pending) (a : CleanupAct) :
    Within (cleanupStep s a) (pendingStep pending a) := by
  cases a with
  | push routine arg allocated => exact h.push routine arg allocated
  | pop execute => exact h.pop execute
  | store => exact ⟨h.sublist, by simp [cleanupStep]⟩
  | others main => exact ⟨h.sublist, h.empty⟩

/-- **The list of a thread is a part of what is pending.** -/
theorem within_run (acts : List CleanupAct) : Within (cleanupRun acts) (pending acts) := by
  -- by induction over the steps from the last one on
  induction acts using List.reverseRecOn with
  | nil => exact ⟨List.Sublist.refl _, fun _ => rfl⟩
  | append_singleton acts a ih =>
    rw [cleanupRun, pending, foldl_concat, foldl_concat]
    exact ih.step a

/-! ### The end of a thread -/

theorem exitThread_eq_some {ran : List CleanupHandler} (h : exitThread s = some ran) :
    ran = s.own.getLast?.toList := by
  unfold exitThread at h
  split_ifs at h
  exact (Option.some.inj h).symm

/-- **When the handlers are run.**  The handlers that a thread runs at its end are those that it has
pushed and not popped, each once and in reverse order, exactly if there is at most one of these
and its list holds it. -/
theorem cleanup_run_iff {acts : List CleanupAct} {ran : List CleanupHandler}
    (hexit : exitThread (cleanupRun acts) = some ran) :
    ran = due acts ↔ (due acts).length ≤ 1 ∧ (cleanupRun acts).own = due acts := by
  have hran := exitThread_eq_some hexit
  have hlength : (cleanupRun acts).own.length ≤ (due acts).length := by
    rw [due, length_reverse]
    exact (within_run acts).sublist.length_le
  generalize (cleanupRun acts).own = own at hran hlength ⊢
  constructor
  · intro heq
    have hone : (due acts).length ≤ 1 := by
      rw [← heq, hran]
      cases own.getLast? <;> simp
    refine ⟨hone, ?_⟩
    match own, hran, hlength with
    | [], hran, _ => rw [← heq, hran]; rfl
    | [handler], hran, _ => rw [← heq, hran]; rfl
    | _ :: _ :: _, _, hlength =>
      simp only [length_cons] at hlength
      omega
  · rintro ⟨hone, heq⟩
    rw [hran, heq]
    match due acts, hone with
    | [], _ => rfl
    | [handler], _ => rfl
    | _ :: _ :: _, hone =>
      simp only [length_cons] at hone
      omega

/-- One handler that has not been popped is run. -/
theorem cleanup_run_iff_one :
    exitThread (cleanupRun [.store, .push (some 7) 1 true, .push (some 8) 2 true, .pop false]) =
        some [⟨7, 1⟩] ∧
      [⟨7, 1⟩] = due [.store, .push (some 7) 1 true, .push (some 8) 2 true, .pop false] := by
  have hexit : exitThread (cleanupRun [.store, .push (some 7) 1 true, .push (some 8) 2 true,
      .pop false]) = some [⟨7, 1⟩] := by decide
  exact ⟨hexit, (cleanup_run_iff hexit).2 (by decide)⟩

/-- Of two handlers only the last one is run. -/
theorem cleanup_skips_first :
    exitThread (cleanupRun [.store, .push (some 7) 1 true, .push (some 8) 2 true]) =
        some [⟨8, 2⟩] ∧
      due [.store, .push (some 7) 1 true, .push (some 8) 2 true] = [⟨8, 2⟩, ⟨7, 1⟩] := by
  decide

end Clib4.Pthread
