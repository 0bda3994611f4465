import Clib4.Pthread.Once

/-!
# The table of threads

`pthread_create` looks for an entry of the table without a task, under a semaphore.  It releases the
semaphore, fills in the entry and starts the new process, and only then stores the task.  Until
then another call finds the same entry.

An entry is given back by the thread itself at its end if it is detached, and by `pthread_join` once
its status says that it has ended.  `pthread_exit` sets this status when the thread is still about
to use the entry.

## Main definitions

* `CreatePc`, `ChildPc`, `Creation` — a call of `pthread_create` and the thread it creates.
* `CreateSystem`, `createStep` — any number of them, with `pthread_join` and `pthread_detach`.
* `LooksApart` — a search does not end at an entry that is used though it has no task.

## Main results

* `entries_unique_iff` — **when the entries are unique.**
-/

namespace Clib4.Pthread

open Interleaving Function

/-! ### The table -/

/-- `enum threadState`, as far as it is used here. -/
inductive ThreadState
  | idle
  | running
  | destruct
  deriving DecidableEq, Repr

/-- `ThreadInfo`: the process, the task that created it, whether it is detached, and its state. -/
structure ThreadInfo where
  task : Option ℕ := none
  parent : Option Thread := none
  detached : Bool := false
  status : ThreadState := .idle
  deriving DecidableEq, Repr

/-- `PTHREAD_THREADS_MAX`. -/
def threadsMax : ℕ := 2019

/-- `PTHREAD_FIRST_THREAD_ID`. -/
def firstThreadId : ℕ := 1

/-- The loop of `GetThreadId`, with the number of entries that are left. -/
def searchThread (threads : ℕ → ThreadInfo) (task : Option ℕ) : ℕ → ℕ → ℕ
  | 0, i => i
  | k + 1, i => if (threads i).task = task then i else searchThread threads task k (i + 1)

def getThreadId (threads : ℕ → ThreadInfo) (task : Option ℕ) : ℕ :=
  searchThread threads task (threadsMax - firstThreadId) firstThreadId

theorem searchThread_task {threads : ℕ → ThreadInfo} {task : Option ℕ} {k i : ℕ}
    (h : searchThread threads task k i < i + k) :
    (threads (searchThread threads task k i)).task = task := by
  induction k generalizing i with
  | zero => exact absurd h (Nat.lt_irrefl i)
  | succ k ih =>
    rw [searchThread] at h ⊢
    split_ifs at h ⊢ with hi
    · exact hi
    · exact ih (by omega)

theorem searchThread_le (threads : ℕ → ThreadInfo) (task : Option ℕ) (k i : ℕ) :
    searchThread threads task k i ≤ i + k := by
  induction k generalizing i with
  | zero => exact le_rfl
  | succ k ih =>
    rw [searchThread]
    split_ifs
    · omega
    · exact (ih (i + 1)).trans (by omega)

theorem getThreadId_task {threads : ℕ → ThreadInfo} {task : Option ℕ}
    (h : getThreadId threads task ≠ threadsMax) :
    (threads (getThreadId threads task)).task = task := by
  apply searchThread_task
  have hle := searchThread_le threads task (threadsMax - firstThreadId) firstThreadId
  exact lt_of_le_of_ne hle h

/-! ### The calls -/

/-- Where a call of `pthread_create` is with the entry that it has found: before
`_pthread_clear_threadinfo`, before the parent is stored, before the flag for detached threads is,
before `CreateNewProcTags`, behind it when the process exists or not; or it has returned 0, or
`EAGAIN`. -/
inductive CreatePc
  | idle
  | found (i : ℕ)
  | cleared (i : ℕ)
  | parented (i : ℕ)
  | filled (i : ℕ)
  | spawned (i : ℕ)
  | unspawned (i : ℕ)
  | returned (i : ℕ)
  | refused
  deriving DecidableEq, Repr

/-- Where the new thread is: it does not exist, is about to set its status, runs, is in
`pthread_exit`, has been joined when it was there, has ended and waits to be joined, or is gone. -/
inductive ChildPc
  | none
  | born
  | running
  | exiting
  | joined
  | exited
  | gone
  deriving DecidableEq, Repr

/-- A call of `pthread_create`, by its caller and the attribute for detached threads, and the
thread. -/
structure Creation where
  caller : Thread := 0
  detached : Bool := false
  pc : CreatePc := .idle
  child : ChildPc := .none
  deriving DecidableEq, Repr

open Creation

/-- The thread exists. -/
def ChildPc.alive : ChildPc → Bool
  | .none | .gone => false
  | _ => true

/-- The entry that a creation uses while it is in progress or its thread is alive. -/
def Creation.uses (c : Creation) : Option ℕ :=
  match c.pc with
  | .idle | .refused => none
  | .found i | .cleared i | .parented i | .filled i | .spawned i | .unspawned i => some i
  | .returned i => if c.child.alive then some i else none

/-- The table, and the creations by number; number `k` starts the process `k + 1`, and the process 0
is the main one. -/
structure CreateSystem where
  threads : ℕ → ThreadInfo :=
    update (fun _ => {}) 0 { task := some 0, status := .running }
  creations : ℕ → Creation := fun _ => {}

/-- A creation goes on, and may write to an entry. -/
def CreateSystem.put (s : CreateSystem) (k : ℕ) (c : Creation) (i : ℕ) (e : ThreadInfo) :
    CreateSystem where
  threads := update s.threads i e
  creations := update s.creations k c

/-- The place behind the search. -/
def CreatePc.ofSearch (i : ℕ) : CreatePc := if i = threadsMax then .refused else .found i

/-- The search of `pthread_create`. -/
def CreateSystem.call (s : CreateSystem) (k : ℕ) (caller : Thread) (detached : Bool) :
    Option CreateSystem :=
  if (s.creations k).pc = .idle then
    let c : Creation := { caller, detached, pc := .ofSearch (getThreadId s.threads none) }
    some { s with creations := update s.creations k c }
  else none

/-- The next step of `pthread_create` behind the search. -/
def CreateSystem.advance (s : CreateSystem) (k : ℕ) : Option CreateSystem :=
  let c := s.creations k
  match c.pc with
  | .found i => some (s.put k { c with pc := .cleared i } i {})
  | .cleared i =>
    some (s.put k { c with pc := .parented i } i { s.threads i with parent := some c.caller })
  | .parented i =>
    some (s.put k { c with pc := .filled i } i { s.threads i with detached := c.detached })
  | .spawned i =>
    some (s.put k { c with pc := .returned i } i { s.threads i with task := some (k + 1) })
  | .unspawned i => some (s.put k { c with pc := .refused } i { s.threads i with parent := none })
  | .idle | .filled _ | .returned _ | .refused => none

/-- `CreateNewProcTags`; if it fails, the null pointer is stored. -/
def CreateSystem.spawn (s : CreateSystem) (k : ℕ) (ok : Bool) : Option CreateSystem :=
  let c := s.creations k
  match c.pc with
  | .filled i =>
    if ok then some (s.put k { c with pc := .spawned i, child := .born } i (s.threads i))
    else some (s.put k { c with pc := .unspawned i } i { s.threads i with task := none })
  | _ => none

/-- `StarterFunc` sets the status. -/
def CreateSystem.start (s : CreateSystem) (k : ℕ) : Option CreateSystem :=
  let c := s.creations k
  match c.uses with
  | none => none
  | some i =>
    if c.child = .born then
      some (s.put k { c with child := .running } i { s.threads i with status := .running })
    else none

/-- `pthread_exit` of a thread that runs. -/
def CreateSystem.exit (s : CreateSystem) (k : ℕ) : Option CreateSystem :=
  let c := s.creations k
  match c.uses with
  | none => none
  | some i =>
    if c.child = .running ∧ (s.threads i).status = .running then
      some (s.put k { c with child := .exiting } i { s.threads i with status := .destruct })
    else none

/-- The thread is at the end of `StarterFunc`. -/
def ChildPc.ends : ChildPc → Bool
  | .running | .exiting | .joined => true
  | _ => false

/-- The end of `StarterFunc`: a detached thread gives its entry back, another one sets its
status. -/
def CreateSystem.finish (s : CreateSystem) (k : ℕ) : Option CreateSystem :=
  let c := s.creations k
  match c.uses with
  | none => none
  | some i =>
    if c.child.ends then
      if (s.threads i).detached then some (s.put k { c with child := .gone } i {})
      else
        some (s.put k { c with child := if c.child = .joined then .gone else .exited } i
          { s.threads i with status := .destruct })
    else none

/-- What has ended is gone once it has been joined. -/
def ChildPc.join : ChildPc → ChildPc
  | .exiting => .joined
  | .exited => .gone
  | x => x

/-- A creation whose entry has been joined. -/
def Creation.joinAt (c : Creation) (i : ℕ) : Creation :=
  if c.uses = some i then { c with child := c.child.join } else c

/-- `pthread_join`, from the moment on when the status says that the thread has ended. -/
def CreateSystem.join (s : CreateSystem) (i : ℕ) : Option CreateSystem :=
  let e := s.threads i
  if i < threadsMax ∧ e.parent ≠ none ∧ e.detached = false ∧ e.status = .destruct then
    some {
      threads := update s.threads i {}
      creations := fun k => (s.creations k).joinAt i }
  else none

/-- `pthread_detach`. -/
def CreateSystem.detach (s : CreateSystem) (i : ℕ) : CreateSystem :=
  let e := s.threads i
  if i < threadsMax ∧ e.task ≠ none ∧ e.detached = false then
    { s with threads := update s.threads i { e with detached := true } }
  else s

/-- A call of `pthread_create` begins with the search, goes on, or creates the process; the new
thread starts, calls `pthread_exit`, or ends; and any thread joins or detaches one by its
number. -/
inductive CreateAct
  | call (k : ℕ) (caller : Thread) (detached : Bool)
  | go (k : ℕ)
  | spawn (k : ℕ) (ok : Bool)
  | start (k : ℕ)
  | exit (k : ℕ)
  | finish (k : ℕ)
  | join (i : ℕ)
  | detach (i : ℕ)
  deriving DecidableEq, Repr

/-- The steps. -/
def createStep (s : CreateSystem) : CreateAct → Option CreateSystem
  | .call k caller detached => s.call k caller detached
  | .go k => s.advance k
  | .spawn k ok => s.spawn k ok
  | .start k => s.start k
  | .exit k => s.exit k
  | .finish k => s.finish k
  | .join i => s.join i
  | .detach i => some (s.detach i)

/-! ### What should hold -/

/-- No two creations use one entry; the number of the entry is the `pthread_t` that is handed
out. -/
def UniqueEntries (s : CreateSystem) : Prop :=
  ∀ j k i, (s.creations j).uses = some i → (s.creations k).uses = some i → j = k

/-- The entry is used, but its task does not show it: the creation has not stored the task yet, or
the thread has been joined in the middle of `pthread_exit`. -/
def Creation.Hides (c : Creation) (i : ℕ) : Prop :=
  c.uses = some i ∧ ∀ i', c.pc = .returned i' → c.child = .joined

/-- A search does not end at such an entry. -/
def LooksApart (s : CreateSystem) (a : CreateAct) : Prop :=
  ∀ k caller detached, a = .call k caller detached → getThreadId s.threads none ≠ threadsMax →
    ∀ j, ¬ (s.creations j).Hides (getThreadId s.threads none)

/-! ### The invariant -/

/-- The thread has not got to its end. -/
def ChildPc.runs : ChildPc → Bool
  | .born | .running => true
  | _ => false

/-- The entry of a creation: the status does not say that the thread has ended before it has, and
the task is there as long as the thread has not been joined. -/
def Creation.Fits (c : Creation) (e : ThreadInfo) : Prop :=
  match c.pc with
  | .idle | .refused => True
  | .found _ | .unspawned _ => c.child = .none
  | .cleared _ | .parented _ | .filled _ => c.child = .none ∧ e.status ≠ .destruct
  | .spawned _ => c.child.runs = true → e.status ≠ .destruct
  | .returned _ =>
    (c.child.runs = true → e.status ≠ .destruct) ∧ (c.child ≠ .joined → e.task ≠ none)

/-- Every creation has an entry of its own, and that is as it should be. -/
structure CreateSystem.Apart (s : CreateSystem) : Prop where
  unique : UniqueEntries s
  fits : ∀ k i, (s.creations k).uses = some i → (s.creations k).Fits (s.threads i)

namespace CreateSystem

variable {s s' : CreateSystem} {k i : ℕ} {c : Creation} {e : ThreadInfo}

theorem Apart.put (h : s.Apart) (hk : (s.creations k).uses = some i)
    (huses : c.uses = some i ∨ c.uses = none) (hfits : c.uses = some i → c.Fits e) :
    (s.put k c i e).Apart := by
  have hbefore : ∀ j i', (update s.creations k c j).uses = some i' →
      (s.creations j).uses = some i' := by
    intro j i' hj
    by_cases hjk : j = k
    · subst hjk
      rw [update_self] at hj
      rcases huses with hsome | hnone
      · rw [← hj, hsome, hk]
      · rw [hnone] at hj
        cases hj
    · rwa [update_of_ne hjk] at hj
  constructor
  · intro j j' i' hj hj'
    exact h.unique j j' i' (hbefore j i' hj) (hbefore j' i' hj')
  · intro j i' hj
    have hold := hbefore j i' hj
    change (update s.creations k c j).Fits (update s.threads i e i')
    by_cases hjk : j = k
    · subst hjk
      obtain rfl : i = i' := Option.some.inj (hk.symm.trans hold)
      rw [update_self, update_self]
      exact hfits (by simpa [CreateSystem.put] using hj)
    · -- another creation has another entry
      have hne : i' ≠ i := by
        rintro rfl
        exact hjk (h.unique j k i' hold hk)
      rw [update_of_ne hjk, update_of_ne hne]
      exact h.fits j i' hold

theorem Apart.advance (h : s.Apart) (hstep : s.advance k = some s') : s'.Apart := by
  unfold CreateSystem.advance at hstep
  cases hpc : (s.creations k).pc <;> simp only [hpc] at hstep <;> cases hstep
  case found i =>
    have hk : (s.creations k).uses = some i := by simp [uses, hpc]
    have hfits := h.fits k i hk
    simp only [Fits, hpc] at hfits
    exact h.put hk (.inl rfl) fun _ => ⟨hfits, by simp⟩
  case cleared i | parented i =>
    have hk : (s.creations k).uses = some i := by simp [uses, hpc]
    have hfits := h.fits k i hk
    simp only [Fits, hpc] at hfits
    exact h.put hk (.inl rfl) fun _ => hfits
  case spawned i =>
    have hk : (s.creations k).uses = some i := by simp [uses, hpc]
    have hfits := h.fits k i hk
    simp only [Fits, hpc] at hfits
    refine h.put hk ?_ fun _ => ⟨hfits, by simp⟩
    simp only [uses]
    split_ifs
    · exact .inl rfl
    · exact .inr rfl
  case unspawned i =>
    have hk : (s.creations k).uses = some i := by simp [uses, hpc]
    exact h.put hk (.inr rfl) fun _ => trivial

theorem Apart.spawn {ok : Bool} (h : s.Apart) (hstep : s.spawn k ok = some s') : s'.Apart := by
  cases hpc : (s.creations k).pc with
  | filled i =>
    simp only [CreateSystem.spawn, hpc] at hstep
    have hk : (s.creations k).uses = some i := by simp [uses, hpc]
    have hfits := h.fits k i hk
    simp only [Fits, hpc] at hfits
    split_ifs at hstep
    · cases hstep
      exact h.put hk (.inl rfl) fun _ _ => hfits.2
    · cases hstep
      exact h.put hk (.inl rfl) fun _ => hfits.1
  | _ => simp [CreateSystem.spawn, hpc] at hstep

/-- A creation whose thread exists is behind `CreateNewProcTags`. -/
theorem Apart.pc_of_child (h : s.Apart) (hk : (s.creations k).uses = some i)
    (hchild : (s.creations k).child ≠ .none) :
    (s.creations k).pc = .spawned i ∨ (s.creations k).pc = .returned i := by
  have hfits := h.fits k i hk
  unfold uses at hk
  unfold Fits at hfits
  split at hk <;> simp_all

theorem Apart.child (h : s.Apart) (hk : (s.creations k).uses = some i)
    (hchild : (s.creations k).child ≠ .none) {x : ChildPc}
    (hruns : x.runs = true → e.status ≠ .destruct)
    (htask : (s.creations k).pc = .returned i → x.alive = true → x ≠ .joined → e.task ≠ none) :
    (s.put k { s.creations k with child := x } i e).Apart := by
  rcases h.pc_of_child hk hchild with hpc | hpc
  · refine h.put hk (.inl ?_) fun _ => ?_
    · simp [uses, hpc]
    · simpa [Fits, hpc] using hruns
  · refine h.put hk ?_ ?_
    · simp only [uses, hpc]
      split_ifs
      · exact .inl rfl
      · exact .inr rfl
    · intro huses
      have halive : x.alive = true := by simpa [uses, hpc] using huses
      simpa [hpc] using ⟨hruns, htask hpc halive⟩

/-- A thread that has not been joined has its task in the table. -/
theorem Apart.task_ne_none (h : s.Apart) (hk : (s.creations k).uses = some i)
    (hpc : (s.creations k).pc = .returned i) (hjoined : (s.creations k).child ≠ .joined) :
    (s.threads i).task ≠ none := by
  have hfits := h.fits k i hk
  simp only [Fits, hpc] at hfits
  exact hfits.2 hjoined

theorem Apart.start (h : s.Apart) (hstep : s.start k = some s') : s'.Apart := by
  cases hk : (s.creations k).uses with
  | none => simp [CreateSystem.start, hk] at hstep
  | some i =>
    simp only [CreateSystem.start, hk] at hstep
    split_ifs at hstep with hborn
    cases hstep
    refine h.child hk (by simp [hborn]) (by simp) fun hpc _ _ => ?_
    exact h.task_ne_none hk hpc (by simp [hborn])

theorem Apart.exit (h : s.Apart) (hstep : s.exit k = some s') : s'.Apart := by
  cases hk : (s.creations k).uses with
  | none => simp [CreateSystem.exit, hk] at hstep
  | some i =>
    simp only [CreateSystem.exit, hk] at hstep
    split_ifs at hstep with hrunning
    cases hstep
    refine h.child hk (by simp [hrunning.1]) (by simp [ChildPc.runs]) fun hpc _ _ => ?_
    exact h.task_ne_none hk hpc (by simp [hrunning.1])

theorem Apart.finish (h : s.Apart) (hstep : s.finish k = some s') : s'.Apart := by
  cases hk : (s.creations k).uses with
  | none => simp [CreateSystem.finish, hk] at hstep
  | some i =>
    simp only [CreateSystem.finish, hk] at hstep
    by_cases hends : (s.creations k).child.ends = true
    · have hchild : (s.creations k).child ≠ .none := by
        intro hnone
        rw [hnone] at hends
        cases hends
      rw [if_pos hends] at hstep
      by_cases hdetached : (s.threads i).detached = true
      · rw [if_pos hdetached] at hstep
        cases hstep
        exact h.child hk hchild (by simp) (by simp [ChildPc.alive])
      · rw [if_neg hdetached] at hstep
        cases hstep
        by_cases hjoined : (s.creations k).child = .joined
        · simp only [hjoined]
          exact h.child hk hchild (by simp [ChildPc.runs]) (by simp [ChildPc.alive])
        · simp only [hjoined]
          exact h.child hk hchild (by simp [ChildPc.runs]) fun hpc _ _ =>
            h.task_ne_none hk hpc hjoined
    · rw [if_neg hends] at hstep
      cases hstep

theorem uses_of_joinAt {j : ℕ} (h : (c.joinAt i).uses = some j) : c.uses = some j := by
  unfold joinAt at h
  split_ifs at h with hi
  · unfold uses at h ⊢
    cases hpc : c.pc with
    | returned i' => cases hchild : c.child <;> simp_all [ChildPc.join, ChildPc.alive]
    | _ => simpa only [hpc] using h
  · exact h

/-- If the status says that the thread has ended, the entry may be cleared. -/
theorem fits_joinAt (hfits : c.Fits e) (hended : e.status = .destruct) (hi : c.uses = some i)
    (huses : (c.joinAt i).uses = some i) : (c.joinAt i).Fits {} := by
  unfold joinAt at huses ⊢
  rw [if_pos hi] at huses ⊢
  unfold uses at huses
  unfold Fits at hfits ⊢
  cases hpc : c.pc <;> simp only [hpc] at hfits huses ⊢
  case found => simp [hfits, ChildPc.join]
  case unspawned => simp [hfits, ChildPc.join]
  case cleared => exact absurd hended hfits.2
  case parented => exact absurd hended hfits.2
  case filled => exact absurd hended hfits.2
  case spawned => simp
  case returned =>
    -- the thread does not run, so that it has been joined in `pthread_exit`, or is gone
    cases hchild : c.child <;> simp_all [ChildPc.join, ChildPc.alive, ChildPc.runs]

theorem Apart.join (h : s.Apart) (hstep : s.join i = some s') : s'.Apart := by
  simp only [CreateSystem.join] at hstep
  split_ifs at hstep with hended
  cases hstep
  constructor
  · intro j j' i' hj hj'
    exact h.unique j j' i' (uses_of_joinAt hj) (uses_of_joinAt hj')
  · intro j i' hj
    have hold := uses_of_joinAt hj
    have hfits := h.fits j i' hold
    change ((s.creations j).joinAt i).Fits (update s.threads i {} i')
    by_cases hi : i' = i
    · subst hi
      rw [update_self]
      exact fits_joinAt hfits hended.2.2.2 hold hj
    · have hsame : (s.creations j).joinAt i = s.creations j := by
        unfold joinAt
        rw [if_neg]
        rw [hold]
        simpa using hi
      rw [update_of_ne hi, hsame]
      exact hfits

theorem Apart.detach (h : s.Apart) (i : ℕ) : (s.detach i).Apart := by
  unfold CreateSystem.detach
  dsimp only
  split_ifs with hfree
  · refine ⟨h.unique, ?_⟩
    intro k i' hk
    have hfits := h.fits k i' hk
    change (s.creations k).Fits (update s.threads i _ i')
    rw [update_apply]
    split_ifs with hi
    · subst hi
      exact hfits
    · exact hfits
  · exact h

theorem Apart.enter (h : s.Apart) (hnew : ∀ i j, c.uses = some i → (s.creations j).uses ≠ some i)
    (hfits : ∀ i, c.uses = some i → c.Fits (s.threads i)) :
    { s with creations := update s.creations k c }.Apart := by
  constructor
  · intro j j' i hj hj'
    by_cases hjk : j = k <;> by_cases hjk' : j' = k
    · rw [hjk, hjk']
    · subst hjk
      simp only [update_self, update_of_ne hjk'] at hj hj'
      exact absurd hj' (hnew i j' hj)
    · subst hjk'
      simp only [update_self, update_of_ne hjk] at hj hj'
      exact absurd hj (hnew i j hj')
    · simp only [update_of_ne hjk, update_of_ne hjk'] at hj hj'
      exact h.unique j j' i hj hj'
  · intro j i hj
    by_cases hjk : j = k
    · subst hjk
      simp only [update_self] at hj ⊢
      exact hfits i hj
    · simp only [update_of_ne hjk] at hj ⊢
      exact h.fits j i hj

/-- An entry that is used has a task, or the creation hides it. -/
theorem Apart.hides (h : s.Apart) (hk : (s.creations k).uses = some i)
    (htask : (s.threads i).task = none) : (s.creations k).Hides i := by
  refine ⟨hk, ?_⟩
  intro i' hpc
  by_contra hjoined
  have hi : i' = i := by
    simp only [uses, hpc] at hk
    split_ifs at hk
    exact Option.some.inj hk
  exact h.task_ne_none hk (hi ▸ hpc) hjoined htask

variable {caller : Thread} {detached : Bool}

theorem uses_ofSearch {g : ℕ} : ({ caller, detached, pc := .ofSearch g } : Creation).uses = some i ↔
      g ≠ threadsMax ∧ g = i := by
  unfold CreatePc.ofSearch uses
  by_cases hg : g = threadsMax <;> simp [hg]

theorem Apart.call (h : s.Apart) (hapart : LooksApart s (.call k caller detached))
    (hstep : s.call k caller detached = some s') : s'.Apart := by
  unfold CreateSystem.call at hstep
  split_ifs at hstep with hidle
  cases hstep
  apply h.enter
  · intro i j huses hj
    obtain ⟨hroom, rfl⟩ := uses_ofSearch.1 huses
    exact hapart k caller detached rfl hroom j (h.hides hj (getThreadId_task hroom))
  · intro i huses
    obtain ⟨hroom, -⟩ := uses_ofSearch.1 huses
    simp [Fits, CreatePc.ofSearch, hroom]

theorem not_unique_of_call (hapart : ¬ LooksApart s (.call k caller detached))
    (hstep : s.call k caller detached = some s') : ¬ UniqueEntries s' := by
  unfold CreateSystem.call at hstep
  split_ifs at hstep with hidle
  cases hstep
  unfold LooksApart at hapart
  push Not at hapart
  obtain ⟨k', caller', detached', heq, hroom, j, hj⟩ := hapart
  have hjk : j ≠ k := by
    rintro rfl
    have huses := hj.1
    simp [uses, hidle] at huses
  intro hunique
  apply hjk
  refine hunique j k (getThreadId s.threads none) ?_ ?_
  · simp only [update_of_ne hjk]
    exact hj.1
  · simp only [update_self]
    exact uses_ofSearch.2 ⟨hroom, rfl⟩

theorem Apart.step {a : CreateAct} (h : s.Apart) (hapart : LooksApart s a)
    (hstep : createStep s a = some s') : s'.Apart := by
  cases a with
  | call k caller detached => exact h.call hapart hstep
  | go k => exact h.advance hstep
  | spawn k ok => exact h.spawn hstep
  | start k => exact h.start hstep
  | exit k => exact h.exit hstep
  | finish k => exact h.finish hstep
  | join i => exact h.join hstep
  | detach i =>
    cases hstep
    exact h.detach i

theorem apart_init : CreateSystem.Apart {} where
  unique := by simp [UniqueEntries, uses]
  fits := by simp [uses]

end CreateSystem

/-- **When the entries are unique.**  In every state of a run no two creations that are in progress
or whose threads are alive use one entry, and so no two threads that are alive have the same
number, exactly if no search ends at an entry that another creation has found and not yet stored
its task in, or whose thread has been joined in the middle of `pthread_exit`. -/
theorem entries_unique_iff (acts : List CreateAct) :
    Throughout createStep UniqueEntries {} acts ↔ Along createStep LooksApart {} acts := by
  apply throughout_iff_along (I := CreateSystem.Apart)
  · exact fun s h => h.unique
  · exact fun s a s' h hapart hstep => h.step hapart hstep
  · intro s a s' _ hnot hstep
    cases a with
    | call k caller detached => exact CreateSystem.not_unique_of_call hnot hstep
    | _ => exact absurd (by simp [LooksApart]) hnot
  · exact CreateSystem.apart_init

/-- The steps of a creation from the search on. -/
def createSteps (k : ℕ) : List CreateAct := [.go k, .go k, .go k, .spawn k true, .go k, .start k]

/-- Two threads call `pthread_create` one after the other, before the first one has gone on: both
new threads run and have the number 1. -/
theorem creations_share_entry :
    ∃ s, run createStep {} ([.call 0 0 false, .call 1 7 false] ++ createSteps 0 ++ createSteps 1) =
        some s ∧
      (s.creations 0).pc = .returned 1 ∧ (s.creations 0).child = .running ∧
      (s.creations 1).pc = .returned 1 ∧ (s.creations 1).child = .running ∧
      ¬ UniqueEntries s := by
  refine ⟨_, rfl, rfl, rfl, rfl, rfl, ?_⟩
  intro hunique
  exact absurd (hunique 0 1 1 rfl rfl) (by decide)

end Clib4.Pthread
