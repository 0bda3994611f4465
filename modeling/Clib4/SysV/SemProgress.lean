import Clib4.SysV.SemWakeups

/-!
# SysV semaphores: exclusion and progress

A process in `semop` obtains the key map and then the lock of the set, and the one that wakes the
others waits for each of them to be suspended before it restarts it.  No two processes are in their
sections at once, and the processes never all wait for each other.

## Main definitions

* `Blocked` — what can hold a process up.

## Main results

* `sections_exclusive` — **a section has one process in it.**
* `never_deadlocked` — **somebody can always go on.**
-/

namespace Clib4.SysV

open Interleaving List Function

variable {semid nsems : ℕ} {s₀ s : SemSystem} {acts : List Act} {p q : Pid}

/-- **Sections exclude each other**, and so do those who have the key map, whatever the processes
do, and whenever a set is removed. -/
theorem sections_exclusive (hfresh : s₀.Fresh nsems)
    (hrun : run (protocolStep semid) s₀ acts = some s) :
    ((s.pc p).inSection = true → (s.pc q).inSection = true → p = q) ∧
      ((s.pc p).hasMap = true → (s.pc q).hasMap = true → p = q) := by
  have hlocks : s.Locks :=
    Interleaving.invariant (P := fun _ _ => True)
      (fun _ _ _ hs _ hstep => locks_move hs (protocolStep_move hstep)) hfresh.locks
      (along_of_forall fun _ _ _ => trivial) hrun
  exact ⟨hlocks.set.unique, hlocks.map.unique⟩

/-- One process has the lock of the set, another one waits for it, and a third one for the key
map. -/
def threeProcesses : List Act :=
  [.semop 0 [⟨0, 1, false, false⟩], .semop 1 [], .semop 2 []] ++ replicate 4 (.step 0) ++
    replicate 2 (.step 1)

theorem sections_exclusive_three :
    ∃ s, run (protocolStep 0) oneSemaphore threeProcesses = some s ∧ (s.pc 0).inSection = true ∧
      ∀ q, (s.pc q).inSection = true → 0 = q := by
  refine ⟨_, rfl, rfl, fun q => ?_⟩
  exact (@sections_exclusive 0 1 _ _ threeProcesses 0 q fresh_oneSemaphore rfl).1 rfl

/-- The process cannot go on, although it waits for nobody: an operation is outside of the set, or
the search for a record does not end. -/
def Fails (semid : ℕ) (s : SemSystem) (p : Pid) : Prop :=
  advance semid s p = none ∧
    match s.pc p with
    | .recount _ | .scan _ _ | .apply _ _ | .ctlLookup _ => True
    | _ => False

/-- What can hold a process up. -/
inductive Blocked (s : SemSystem) : Pc → Prop
  | rests {x : Pc} (h : x.resting = true) : Blocked s x
  | lockMap {c : SemopCall} (h : s.keymap ≠ none) : Blocked s (.lockMap c)
  | ctlLock {cmd : Command} (h : s.keymap ≠ none) : Blocked s (.ctlLock cmd)
  | obtain {c : SemopCall} (h : s.lock ≠ none) : Blocked s (.obtain c)
  | restart {w : Waker} {n : ℕ} {zero : Bool} {q : Pid} (h : ∀ c o, s.pc q ≠ .suspended c o) :
      Blocked s (.restart w n zero q)

theorem blocked_of_advance (h : advance semid s p = none) (hf : ¬ Fails semid s p) :
    Blocked s (s.pc p) := by
  have hplace := not_and.1 hf h
  unfold advance at h
  cases hpc : s.pc p <;> simp only [hpc] at h hplace
  case idle | suspended => exact .rests rfl
  case lockMap c => exact .lockMap fun hfree => by simp [hfree] at h
  case ctlLock cmd => exact .ctlLock fun hfree => by simp [hfree] at h
  case obtain c => exact .obtain fun hfree => by simp [hfree] at h
  case restart w n zero q => exact .restart fun c o hq => by simp [hq] at h
  case recount | scan | apply | ctlLookup => exact absurd trivial hplace
  case unlockMap c found => cases found <;> cases h
  case wake w n zero => split at h <;> cases h
  case release c e => cases e <;> cases h
  case setall semnum array i => split at h <;> cases h
  case freeList i zero => cases zero <;> cases h
  all_goals cases h

/-- A process that is to be restarted gets as far as it has to. -/
theorem SemSystem.Orderly.not_restart (h : s.Orderly) (hall : ∀ q, Blocked s (s.pc q))
    {w : Waker} {n : ℕ} {zero : Bool} : s.pc p ≠ .restart w n zero q := by
  intro hp
  obtain ⟨o, hwaits, -⟩ := (h.queues.waits_iff q n zero).2 (.inr ⟨p, by rw [hp]; rfl⟩)
  cases hp ▸ hall p with
  | rests hrests => cases hrests
  | restart hno =>
    have hq := hall q
    generalize s.pc q = x at hq hwaits hno
    cases hq with
    | rests hrests =>
      cases x with
      | suspended c o => exact hno c o rfl
      | idle => cases hwaits
      | _ => cases hrests
    | _ => cases hwaits

theorem SemSystem.Orderly.not_blocked (h : s.Orderly) (hp : (s.pc p).resting = false) :
    ∃ q, ¬ Blocked s (s.pc q) := by
  by_contra hall
  simp only [not_exists, not_not] at hall
  -- who holds a lock waits for the other one
  have hobtain : ∀ q, (s.pc q).hasMap = true ∨ (s.pc q).inSection = true →
      (s.pc q).inSection = false ∧ s.lock ≠ none := by
    intro q hq
    have hblocked := hall q
    generalize hx : s.pc q = x at hq hblocked
    cases hblocked with
    | rests hrests => cases x <;> simp_all [Pc.resting, Pc.hasMap, Pc.inSection]
    | lockMap _ | ctlLock _ => simp [Pc.hasMap, Pc.inSection] at hq
    | obtain hlock => exact ⟨rfl, hlock⟩
    | restart _ => exact (h.not_restart hall hx).elim
  have hlock : s.lock = none := by
    by_contra hlock
    obtain ⟨q, hq⟩ := Option.ne_none_iff_exists'.1 hlock
    have hsection := (h.locks.set q).2 hq
    rw [(hobtain q (.inr hsection)).1] at hsection
    cases hsection
  have hmap : s.keymap = none := by
    by_contra hmap
    obtain ⟨q, hq⟩ := Option.ne_none_iff_exists'.1 hmap
    exact (hobtain q (.inl ((h.locks.map q).2 hq))).2 hlock
  have hblocked := hall p
  generalize hx : s.pc p = x at hp hblocked
  cases hblocked with
  | rests hrests => rw [hp] at hrests; cases hrests
  | lockMap hne | ctlLock hne => exact hne hmap
  | obtain hne => exact hne hlock
  | restart _ => exact h.not_restart hall hx

/-- **There is no deadlock.**  If no removal begins while a call is in its section, then at any
time, unless everybody rests, somebody can go on, or somebody fails by itself. -/
theorem never_deadlocked (hfresh : s₀.Fresh nsems)
    (halone : Along (protocolStep semid) (fun s a => RemovesAlone s a.pid) s₀ acts)
    (hrun : run (protocolStep semid) s₀ acts = some s) (hp : (s.pc p).resting = false) :
    ∃ q, (advance semid s q).isSome = true ∨ Fails semid s q := by
  have h : s.Orderly :=
    Interleaving.invariant (fun _ _ _ hs ha hstep => orderly_step hs ha hstep) hfresh.orderly
      halone hrun
  obtain ⟨q, hq⟩ := h.not_blocked hp
  refine ⟨q, ?_⟩
  by_contra hstuck
  rw [not_or, Option.not_isSome_iff_eq_none] at hstuck
  exact hq (blocked_of_advance hstuck.1 hstuck.2)

theorem never_deadlocked_three :
    ∃ s, run (protocolStep 0) oneSemaphore threeProcesses = some s ∧ advance 0 s 1 = none ∧
      advance 0 s 2 = none ∧ ∃ q, (advance 0 s q).isSome = true ∨ Fails 0 s q := by
  refine ⟨_, rfl, rfl, rfl, ?_⟩
  exact @never_deadlocked 0 1 oneSemaphore _ threeProcesses 1 fresh_oneSemaphore
    (by decide +kernel) rfl rfl

end Clib4.SysV
