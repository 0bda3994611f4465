import Clib4.Base.Loop
import Clib4.SysV.Semop

/-!
# The records of `SEM_UNDO`

A process has one record of adjustments for every set that it uses with `SEM_UNDO`.  `GetUndo`
looks for the record of a set, but its loop never goes on to the next record, so it ends only at
an empty list or if the first record is the right one.

## Main definitions

* `undoBody`, `getUndoRun` — the loop of `GetUndo` and what follows it.

## Main results

* `getUndo_finds_iff` — **when `GetUndo` returns the record.**
-/

namespace Clib4.SysV

open List

/-- A turn of the loop of `GetUndo`: `ui` stays where it is. -/
def undoBody (semid : ℕ) : List UndoInfo → List UndoInfo ⊕ List UndoInfo
  | [] => .inr []
  | u :: us => if u.id = semid then .inr (u :: us) else .inl (u :: us)

/-- A record for a set of `nsems` semaphores, as it is allocated. -/
def newUndo (semid nsems : ℕ) : UndoInfo := ⟨semid, List.replicate nsems 0⟩

/-- `GetUndo` with at most `n` turns of its loop: the record that it returns, and the records of
the process afterwards.  There is memory for a new one. -/
def getUndoRun (n : ℕ) (undo : List UndoInfo) (semid nsems : ℕ) (create : Bool) :
    Option (Option UndoInfo × List UndoInfo) :=
  (Loop.run (undoBody semid) n undo).map fun ui =>
    match ui with
    | u :: _ => (some u, undo)
    | [] =>
      if create then (some (newUndo semid nsems), newUndo semid nsems :: undo) else (none, undo)

/-- What should be returned: the record of the set, or a new one. -/
def undoRecord (undo : List UndoInfo) (semid nsems : ℕ) (create : Bool) :
    Option UndoInfo × List UndoInfo :=
  match undo.find? fun u => u.id = semid with
  | some u => (some u, undo)
  | none =>
    if create then (some (newUndo semid nsems), newUndo semid nsems :: undo) else (none, undo)

/-- `GetUndo` ends with the record of the set, and no set has two records then. -/
def FindsUndo (undo : List UndoInfo) (semid nsems : ℕ) (create : Bool) : Prop :=
  ∃ n r, getUndoRun n undo semid nsems create = some r ∧
    r = undoRecord undo semid nsems create ∧
    ((undo.map UndoInfo.id).Nodup → (r.2.map UndoInfo.id).Nodup)

variable {undo : List UndoInfo} {semid : ℕ}

/-- The model of `semop` and `semctl` has the same records. -/
theorem getUndo_eq (undo : List UndoInfo) (semid nsems : ℕ) (create : Bool) :
    getUndo undo semid nsems create = (getUndoRun 1 undo semid nsems create).map Prod.snd := by
  cases undo with
  | nil => cases create <;> rfl
  | cons u us =>
    by_cases h : u.id = semid
    · simp [getUndo, getUndoRun, Loop.run, undoBody, h]
    · simp [getUndo, getUndoRun, Loop.run, undoBody, h]

theorem nodup_undoRecord (h : (undo.map UndoInfo.id).Nodup) (nsems : ℕ) (create : Bool) :
    ((undoRecord undo semid nsems create).2.map UndoInfo.id).Nodup := by
  unfold undoRecord
  split
  · exact h
  · next hnone =>
    rw [find?_eq_none] at hnone
    split
    · refine nodup_cons.2 ⟨?_, h⟩
      rintro hmem
      obtain ⟨u, hu, hid⟩ := mem_map.1 hmem
      exact hnone u hu (decide_eq_true hid)
    · exact h

/-- The loop does not leave a first record that is not the right one. -/
theorem run_undoBody_eq_none {u : UndoInfo} (us : List UndoInfo) (h : u.id ≠ semid) (n : ℕ) :
    Loop.run (undoBody semid) n (u :: us) = none := by
  induction n with
  | zero => rfl
  | succ n ih =>
    rw [Loop.run_succ_of_inl (by rw [undoBody, if_neg h])]
    exact ih

/-- **When `GetUndo` returns the record**: if there are none, or the first is that of the set. -/
theorem getUndo_finds_iff (undo : List UndoInfo) (semid nsems : ℕ) (create : Bool) :
    FindsUndo undo semid nsems create ↔ ∀ u ∈ undo.head?, u.id = semid := by
  constructor
  · rintro ⟨n, r, hrun, -, -⟩ u hu
    by_contra hne
    obtain ⟨us, rfl⟩ : ∃ us, undo = u :: us := ⟨undo.tail, eq_cons_of_mem_head? hu⟩
    rw [getUndoRun, run_undoBody_eq_none us hne] at hrun
    cases hrun
  · intro hhead
    refine ⟨1, undoRecord undo semid nsems create, ?_, rfl, fun h => nodup_undoRecord h _ _⟩
    cases undo with
    | nil => cases create <;> rfl
    | cons u us =>
      have hid : u.id = semid := hhead u rfl
      simp [getUndoRun, Loop.run, undoBody, undoRecord, hid]

/-- The record of the second set is never found. -/
theorem getUndo_spins : ¬ FindsUndo [⟨1, [0]⟩, ⟨2, [0]⟩] 2 1 true := by
  rintro ⟨n, r, hrun, -, -⟩
  rw [getUndoRun, run_undoBody_eq_none _ (by decide)] at hrun
  cases hrun

end Clib4.SysV
