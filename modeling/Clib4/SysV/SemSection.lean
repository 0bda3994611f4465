import Clib4.SysV.SemProtocol
import Clib4.SysV.SemValues

/-!
# SysV semaphores: the steps of a section make up the section

What a call does while it has its lock is one step of `semStep`, and many of `protocolStep`.  What
is left of the call comes to the same result from each place in it on, if nobody else steps: so
the steps from the counters to the release of the lock compose to `semopSection`, and those of
`SETVAL` and `SETALL` to `SetState.setval` and `SetState.setall`.

## Main definitions

* `SemSystem.outlook` — what the rest of a section comes to.

## Main results

* `outlook_advance` — a step of the section does not change what it comes to.
* `section_composes`, `semctl_composes` — **the steps of a section compose to the section.**
-/

namespace Clib4.SysV

open List Function

/-- The outcome of a section, but for the processes that are woken. -/
def Outcome.settle : Outcome → Outcome
  | .done sems undo _ => .done sems undo []
  | out => out

/-- What the second loop comes to. -/
def applied (p : Pid) (rest : List Sembuf) (sems : List Sem) (undo : List UndoInfo) : Outcome :=
  match applyAll toInt32 p rest sems undo with
  | none => .stray
  | some (sems, undo, _) => .done sems undo []

/-- What the first loop comes to, with what follows it. -/
def scanned (semid : ℕ) (p : Pid) (ops rest : List Sembuf) (ui : Bool) (sems : List Sem)
    (undo : List UndoInfo) : Outcome :=
  match scan semid (values sems) rest ui undo with
  | (.passed, _, undo) => applied p ops sems undo
  | (.failed e, _, undo) => .failed e sems undo
  | (.blocked o, ui, undo) =>
    .sleeps (sems.modify o.num (Sem.enqueue p (decide (o.op = 0)))) undo
      { n := o.num, zW := decide (o.op = 0), nW := decide (o.op < 0), ui := ui }
  | (.stray, _, _) => .stray
  | (.spins, _, _) => .spins

/-- What a section has come to at its end. -/
def Ending.outcome (sems : List Sem) (undo : List UndoInfo) (l : Locals) : Ending → Outcome
  | .done => .done sems undo []
  | .failed e => .failed e sems undo
  | .sleeps _ => .sleeps sems undo l

/-- The values of the set from the semaphore `i` on are replaced. -/
def setFrom (array : ℕ → UInt16) (i : ℕ) (sems : List Sem) : List Sem :=
  sems.mapIdx fun j sem => if i ≤ j then { sem with semval := (array j).toNat } else sem

/-- What the rest of a section comes to, from the place where the process is. -/
def SemSystem.outlook (semid : ℕ) (p : Pid) (s : SemSystem) : Outcome :=
  match s.pc p with
  | .recount c => (semopSection toInt32 semid p s.sems (s.undo p) c.l c.ops).settle
  | .scan c rest => scanned semid p c.ops rest c.l.ui s.sems (s.undo p)
  | .enqueue c o =>
    .sleeps (s.sems.modify o.num fun sem =>
      sem.setWaiters (decide (o.op = 0)) (sem.waiters (decide (o.op = 0)) ++ [p])) (s.undo p) c.l
  | .apply _ rest => applied p rest s.sems (s.undo p)
  | .wake (.semop _ rest) n zero | .restart (.semop _ rest) n zero _ =>
    applied p rest (s.sems.modify n (Sem.setWaiters zero [])) (s.undo p)
  | .release c e => e.outcome s.sems (s.undo p) c.l
  | .setval n v =>
    if n < s.sems.length then
      .done (s.sems.modify n fun sem => { sem with semval := v }) (clearAdj n (s.undo p)) []
    else .done s.sems (s.undo p) []
  | .setall semnum array i =>
    .done (setFrom array i s.sems)
      (if i < s.sems.length then clearAdj semnum (s.undo p) else s.undo p) []
  | .ctlUnlock => .done s.sems (s.undo p) []
  | _ => .stray

/-- The places of a section before its end. -/
def Pc.inside : Pc → Bool
  | .recount _ | .scan _ _ | .enqueue _ _ | .apply _ _ | .wake (.semop _ _) _ _
  | .restart (.semop _ _) _ _ _ | .setval _ _ | .setall _ _ _ => true
  | _ => false

variable {semid : ℕ} {p : Pid} {s s' : SemSystem} {c : SemopCall}

/-! ### One step -/

theorem applied_cons {o : Sembuf} {rest : List Sembuf} {sems : List Sem} {sem : Sem}
    (hsem : sems[o.num]? = some sem) (undo : List UndoInfo) :
    applied p (o :: rest) sems undo =
      match wakes o (toInt32 (sem.semval + o.op)) with
      | none => applied p rest (sems.set o.num (sem.apply toInt32 p o)) (adjust o undo)
      | some zero => applied p rest
          ((sems.set o.num (sem.apply toInt32 p o)).modify o.num (Sem.setWaiters zero []))
          (adjust o undo) := by
  have hset : ∀ f : Sem → Sem, (sems.set o.num (sem.apply toInt32 p o)).modify o.num f =
      sems.set o.num (f (sem.apply toInt32 p o)) := by
    intro f
    apply List.ext_getElem?
    intro i
    rw [getElem?_modify, getElem?_set, getElem?_set]
    by_cases hi : o.num = i <;> simp [hi]
  have hval : (sem.apply toInt32 p o).semval = toInt32 (sem.semval + o.op) := rfl
  simp only [applied, applyAll, applyOp, hsem, hval, hset]
  cases wakes o (toInt32 (sem.semval + o.op)) with
  | none | some zero =>
    dsimp only [Option.bind_eq_bind, Option.bind_some]
    cases applyAll toInt32 p rest _ (adjust o undo) <;> rfl

theorem settle_semopSection (p : Pid) (sems : List Sem) (undo : List UndoInfo) (l : Locals)
    (ops : List Sembuf) :
    (semopSection toInt32 semid p sems undo l ops).settle =
      match recount l sems with
      | none => .stray
      | some sems => scanned semid p ops ops l.ui sems undo := by
  rw [semopSection]
  cases recount l sems with
  | none => rfl
  | some sems =>
    dsimp only [scanned]
    obtain ⟨verdict, ui, undo⟩ := scan semid (values sems) ops l.ui undo
    cases verdict with
    | passed =>
      dsimp only [applied]
      cases applyAll toInt32 p ops sems undo <;> rfl
    | _ => rfl

theorem setFrom_succ (array : ℕ → UInt16) (i : ℕ) (sems : List Sem) :
    setFrom array (i + 1) (sems.modify i fun sem => { sem with semval := (array i).toNat }) =
      setFrom array i sems := by
  apply List.ext_getElem?
  intro j
  simp only [setFrom, getElem?_mapIdx, getElem?_modify]
  cases sems[j]? with
  | none => rfl
  | some sem =>
    rcases lt_trichotomy i j with hij | rfl | hji
    · simp [hij.ne, hij.le, Nat.succ_le_of_lt hij]
    · simp
    · simp [hji.ne', Nat.not_le_of_lt hji, Nat.not_le_of_lt (hji.trans (Nat.lt_succ_self i))]

theorem setFrom_length {array : ℕ → UInt16} {i : ℕ} {sems : List Sem} (h : sems.length ≤ i) :
    setFrom array i sems = sems := by
  apply List.ext_getElem?
  intro j
  rw [setFrom, getElem?_mapIdx]
  by_cases hj : j < sems.length
  · rw [getElem?_eq_getElem hj, Option.map_some, if_neg (by omega)]
  · rw [getElem?_eq_none (by omega), Option.map_none]

theorem clearAdj_clearAdj (semnum : ℕ) (undo : List UndoInfo) :
    clearAdj semnum (clearAdj semnum undo) = clearAdj semnum undo := by
  cases undo with
  | nil => rfl
  | cons u us => simp [clearAdj]

theorem modify_setWaiters_nil {n : ℕ} {zero : Bool} (h : s.queue n zero = []) :
    s.sems.modify n (Sem.setWaiters zero []) = s.sems := by
  apply List.ext_getElem?
  intro i
  rw [getElem?_modify]
  by_cases hi : n = i
  · subst hi
    rw [SemSystem.queue, queueOf] at h
    cases hsem : s.sems[n]? with
    | none => rfl
    | some sem =>
      rw [hsem] at h
      cases zero <;> cases sem <;> simp_all [Sem.setWaiters, Sem.waiters]
  · simp [hi]

/-- **A step of the section** does not change what it comes to. -/
theorem outlook_advance (hpc : (s.pc p).inside = true) (h : advance semid s p = some s') :
    s'.outlook semid p = s.outlook semid p := by
  unfold advance at h
  cases hp : s.pc p with
  | recount c =>
    simp only [hp] at h
    obtain ⟨sems, hsems, rfl⟩ := Option.map_eq_some_iff.1 h
    simp only [SemSystem.outlook, hp, SemSystem.goto_pc_self, settle_semopSection, hsems]
    rfl
  | scan c rest =>
    cases rest with
    | nil =>
      simp only [hp] at h
      cases h
      simp only [SemSystem.outlook, hp, SemSystem.goto_pc_self]
      rfl
    | cons o rest =>
      simp only [hp] at h
      simp only [SemSystem.outlook, hp, scanned, scan]
      generalize scanOp semid (values s.sems) o c.l.ui (s.undo p) = result at h ⊢
      obtain ⟨verdict, ui, undo⟩ := result
      cases verdict with
      | passes =>
        cases h
        simp only [SemSystem.goto_pc_self]
        simp [SemSystem.goto, SemopCall.onward]
      | failed e =>
        cases h
        simp [SemSystem.goto, Ending.outcome]
      | blocks =>
        cases h
        simp only [SemSystem.goto_pc_self]
        simp only [SemSystem.goto, SemopCall.waitFor, update_self, modify_modify_eq]
        congr 2
        funext sem
        cases decide (o.op = 0) <;> rfl
      | stray | spins => cases h
  | enqueue c o =>
    simp only [hp] at h
    cases h
    simp only [SemSystem.outlook, hp, SemSystem.goto_pc_self, Ending.outcome]
    rfl
  | apply c rest =>
    cases rest with
    | nil =>
      simp only [hp] at h
      cases h
      simp only [SemSystem.outlook, hp, SemSystem.goto_pc_self, Ending.outcome]
      rfl
    | cons o rest =>
      simp only [hp] at h
      obtain ⟨sem, hsem, rfl⟩ := Option.map_eq_some_iff.1 h
      simp only [SemSystem.outlook, hp, applied_cons hsem, SemSystem.applyNext,
        SemSystem.goto_pc_self]
      cases wakes o (toInt32 (sem.semval + o.op)) <;> simp [SemSystem.goto]
  | wake w n zero =>
    cases w with
    | destroy =>
      rw [hp] at hpc
      cases hpc
    | semop c rest =>
      simp only [hp] at h
      simp only [SemSystem.outlook, hp]
      split at h
      · next hqueue =>
        cases h
        rw [modify_setWaiters_nil hqueue]
        simp [SemSystem.goto, Waker.next]
      · cases h
        simp only [SemSystem.goto_pc_self]
        simp only [SemSystem.goto, modify_modify_eq]
        congr 2
        funext sem
        cases zero <;> rfl
  | restart w n zero q =>
    simp only [hp] at h
    split at h
    · next c o hq =>
      cases h
      cases w with
      | destroy =>
        rw [hp] at hpc
        cases hpc
      | semop c rest =>
        simp only [SemSystem.outlook, hp, SemSystem.goto_pc_self]
        rfl
    · cases h
  | setval n v =>
    simp only [hp] at h
    cases h
    simp only [SemSystem.outlook, hp, SemSystem.goto_pc_self]
    split_ifs <;> simp [SemSystem.goto, SemSystem.write, clearAdj]
  | setall semnum array i =>
    simp only [hp] at h
    split_ifs at h with hi
    · cases h
      simp only [SemSystem.outlook, hp, SemSystem.goto_pc_self, if_pos hi]
      simp only [SemSystem.goto, SemSystem.write, setFrom_succ, update_self, length_modify]
      split_ifs
      · exact congrArg (Outcome.done _ · []) (clearAdj_clearAdj semnum (s.undo p))
      · rfl
    · cases h
      simp only [SemSystem.outlook, hp, SemSystem.goto_pc_self, if_neg hi,
        setFrom_length (Nat.le_of_not_lt hi)]
      rfl
  | _ =>
    rw [hp] at hpc
    cases hpc

/-! ### The section -/

/-- Steps of the process inside of a section lead from the one state to the other. -/
def StepsInside (semid : ℕ) (p : Pid) : SemSystem → SemSystem → Prop :=
  Relation.ReflTransGen fun s s' =>
    (s.pc p).inside = true ∧ protocolStep semid s (.step p) = some s'

theorem StepsInside.outlook_eq (h : StepsInside semid p s s') :
    s'.outlook semid p = s.outlook semid p := by
  induction h with
  | refl => rfl
  | tail _ hstep ih => exact (outlook_advance hstep.1 hstep.2).trans ih

/-- **The steps of a section compose to the section.** -/
theorem section_composes {c' : SemopCall} {e : Ending} (hpc : s.pc p = .recount c)
    (h : StepsInside semid p s s') (hend : s'.pc p = .release c' e) :
    (semopSection toInt32 semid p s.sems (s.undo p) c.l c.ops).settle =
      e.outcome s'.sems (s'.undo p) c'.l := by
  have heq := h.outlook_eq
  simp only [SemSystem.outlook, hpc, hend] at heq
  exact heq.symm

/-- What the calls one at a time see of the state. -/
def SemSystem.toSetState (s : SemSystem) : SetState where
  sems := s.sems
  undo := s.undo
  status := fun _ => .idle

/-- **The steps of `SETVAL` and `SETALL` compose to the calls.** -/
theorem semctl_composes (hend : s'.pc p = .ctlUnlock) (h : StepsInside semid p s s')
    (hundo : getUndo (s.undo p) semid s.sems.length false = some (s.undo p)) :
    (∀ n v, s.pc p = .setval n v → ∃ t, s.toSetState.setval semid p n v = some t ∧
      s'.sems = t.sems ∧ s'.undo p = t.undo p) ∧
    ∀ semnum array, s.pc p = .setall semnum array 0 →
      ∃ t, s.toSetState.setall semid p semnum array = some t ∧
        s'.sems = t.sems ∧ s'.undo p = t.undo p := by
  have heq := h.outlook_eq
  constructor
  · intro n v hpc
    refine ⟨_, by rw [SetState.setval, show s.toSetState.undo = s.undo from rfl,
      show s.toSetState.sems = s.sems from rfl, hundo]; rfl, ?_⟩
    simp only [SemSystem.outlook, hpc, hend] at heq
    split_ifs at heq with hn <;> simp_all [SemSystem.toSetState, Nat.not_lt_of_le]
  · intro semnum array hpc
    refine ⟨_, by rw [SetState.setall, show s.toSetState.undo = s.undo from rfl,
      show s.toSetState.sems = s.sems from rfl, hundo]; rfl, ?_⟩
    simp only [SemSystem.outlook, hpc, hend, setFrom, Nat.zero_le, if_true] at heq
    injection heq with hsems hundo'
    refine ⟨hsems, hundo'.trans ?_⟩
    by_cases hnil : s.sems = [] <;> simp [hnil, length_pos_iff]

end Clib4.SysV
