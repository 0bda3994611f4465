import Clib4.SysV.SemQueues

/-!
# SysV semaphores: removing a set

`semctl` with `IPC_RMID` wakes all processes on the lists of a set, frees the set part by part and
clears its entry in the key map, all under the lock of the key map.  A call of `semop` that is in
its section has given that lock back, and goes on with memory that has been freed.  If no removal
begins while a call is in its section, nothing of the kind happens: those who sleep are woken
and find the entry cleared.

## Main definitions

* `Pc.touches` — the parts of a set that the next step of a process reads or writes.
* `SemSystem.SafelyRemoved` — nobody touches what is freed, and all calls fail with `EIDRM`.

## Main results

* `removal_safe` — **a removal that begins while no call is in its section is safe.**
-/

namespace Clib4.SysV

open Interleaving List

/-- The parts of the set that the next step of a process reads, writes or frees; `semctl` reads
the set only if it has found its entry. -/
def Pc.touches (entry : Bool) : Pc → List Part
  | .obtain _ => [.set, .lock]
  | .recount _ => [.set, .base]
  | .scan _ (_ :: _) => [.set, .base]
  | .enqueue _ o => [.base, .list o.num (decide (o.op = 0))]
  | .apply _ (_ :: _) => [.base]
  | .wake _ n zero => [.base, .list n zero]
  | .release _ _ => [.set, .lock]
  | .ctlLookup _ => if entry then [.set] else []
  | .setval _ _ => [.set, .base]
  | .setall _ _ _ => [.set, .base]
  | .freeList i zero => [.set, .base, .list i zero]
  | .freeLock => [.set, .lock]
  | .freeBase => [.set, .base]
  | .freeSet => [.set]
  | _ => []

/-- Nobody is about to touch what is freed; a call that returned while or after the set was freed
has failed with `EIDRM`; and once it is freed nobody sleeps any more. -/
structure SemSystem.SafelyRemoved (s : SemSystem) : Prop where
  untouched : ∀ p, ∀ part ∈ (s.pc p).touches s.entry, part ∉ s.freed
  refused : ∀ r ∈ s.returned, r.removed = true → r.result = .error .EIDRM
  awake : .set ∈ s.freed → ∀ p, (s.pc p).waits = none

/-! ### Nobody touches what is freed -/

variable {x : Pc} {s s' : SemSystem} {p : Pid} {semid n : ℕ} {z : Bool}

theorem Pc.needsSet_of_touches {entry : Bool} {part : Part} (h : part ∈ x.touches entry) :
    x.needsSet = true ∨ x.hasMap = true ∧ entry = true := by
  unfold Pc.touches at h
  split at h <;> try exact .inl rfl
  · rename_i w n zero
    cases w <;> exact .inl rfl
  · split_ifs at h with hentry
    · exact .inr ⟨rfl, hentry⟩
    · cases h
  · cases h

/-- A removal frees nothing twice, and does not touch what it has freed. -/
theorem Pc.not_hasFreed_of_touches {entry : Bool} {part : Part} (h : part ∈ x.touches entry) :
    ¬ x.hasFreed part := by
  intro hfreed
  cases x with
  | wake w n zero =>
    cases w with
    | semop c rest => exact hfreed.elim
    | destroy =>
      rcases mem_pair.1 h with rfl | rfl
      · exact hfreed
      · exact lt_irrefl n hfreed
  | freeList i zero =>
    simp only [Pc.touches, mem_cons, not_mem_nil, or_false] at h
    rcases h with rfl | rfl | rfl
    · exact hfreed
    · exact hfreed
    · rcases hfreed with hlt | ⟨-, htrue, hfalse⟩
      · exact lt_irrefl i hlt
      · rw [htrue] at hfalse
        cases hfalse
  | freeLock | freeBase =>
    rcases mem_pair.1 h with rfl | rfl
    · exact hfreed
    · exact hfreed
  | freeSet =>
    rw [mem_singleton.1 h] at hfreed
    exact hfreed
  | restart w n zero q | clearEntry => cases h
  | _ => exact hfreed.elim

theorem untouched_of_alive (hs : s.Orderly) (p : Pid) :
    ∀ part ∈ (s.pc p).touches s.entry, part ∉ s.freed := by
  obtain ⟨hlocks, h, -⟩ := hs
  intro part htouch hpart
  have hneeds := Pc.needsSet_of_touches htouch
  rcases h.freed part hpart with hgone | ⟨q, hq⟩
  · -- the entry is cleared: who touches the set has found it
    rcases hneeds with hneeds | ⟨-, hentry⟩
    · rw [h.entry p hneeds] at hgone
      cases hgone
    · rw [hentry] at hgone
      cases hgone
  · -- a removal is going on: it is the process itself
    have hdestroys := Pc.destroys_of_hasFreed hq
    have hpq : p = q := by
      rcases hneeds with hneeds | ⟨hmap, -⟩
      · exact h.eq_of_needsSet hlocks hdestroys hneeds
      · exact hlocks.map.unique hmap (Pc.hasMap_of_destroys hdestroys)
    rw [← hpq] at hq
    exact Pc.not_hasFreed_of_touches htouch hq

theorem freed_eq_nil_of_inSection (hs : s.Orderly) (hp : (s.pc p).inSection = true) :
    s.freed = [] := by
  obtain ⟨hlocks, h, -⟩ := hs
  rw [eq_nil_iff_forall_not_mem]
  intro part hpart
  rcases h.freed part hpart with hgone | ⟨q, hq⟩
  · rw [h.entry p (Pc.needsSet_of_inSection hp)] at hgone
    cases hgone
  · have hlock := (hlocks.set p).1 hp
    rw [h.alone q (Pc.destroys_of_hasFreed hq)] at hlock
    cases hlock

/-- A step that returns from `semop` while the set is being freed, or later, returns `EIDRM`. -/
theorem refused_move (hs : s.Orderly)
    (h : ∀ r ∈ s.returned, r.removed = true → r.result = .error .EIDRM)
    (hmove : Move semid s p s') :
    ∀ r ∈ s'.returned, r.removed = true → r.result = .error .EIDRM := by
  cases hmove with
  | gone hpc =>
    intro r hr hremoved
    rcases mem_cons.1 hr with rfl | hold
    · rfl
    · exact h r hold hremoved
  | returns hpc hres =>
    intro r hr hremoved
    rcases mem_cons.1 hr with rfl | hold
    · have hnil := freed_eq_nil_of_inSection hs (p := p) (by rw [hpc]; rfl)
      simp [hnil] at hremoved
    · exact h r hold hremoved
  | _ => exact h

/-! ### Nobody sleeps on -/

/-- The lists that a removal has emptied when it has come this far. -/
def Pc.hasEmptied : Pc → ℕ → Bool → Prop
  | .wake .destroy i zero, n, z => n < i ∨ n = i ∧ z = true ∧ zero = false
  | .restart .destroy i zero _, n, z => n < i ∨ n = i ∧ z = true ∧ zero = false
  | .freeList i _, n, _ => n ≤ i
  | .freeLock, _, _ => True
  | .freeBase, _, _ => True
  | .freeSet, _, _ => True
  | .clearEntry, _, _ => True
  | _, _, _ => False

/-- The lists that a removal has woken are empty, and all of them once it is done. -/
structure SemSystem.Emptied (s : SemSystem) : Prop where
  emptied : ∀ p n z, (s.pc p).hasEmptied n z → s.queue n z = []
  gone : s.entry = false → ∀ n z, s.queue n z = []

theorem Pc.destroys_of_hasEmptied (h : x.hasEmptied n z) : x.destroys = true := by
  unfold Pc.hasEmptied at h
  split at h <;> first | rfl | exact h.elim

/-- Where `sem_destroy` goes on, all lists before are empty. -/
theorem queue_of_destroyFrom {i : ℕ} (h : (destroyFrom s.sems.length i).hasEmptied n z)
    (hbefore : n < i → s.queue n z = []) :
    s.queue n z = [] := by
  unfold destroyFrom at h
  split_ifs at h with hi
  · rcases h with hlt | ⟨-, -, hfalse⟩
    · exact hbefore hlt
    · cases hfalse
  · by_cases hlt : n < i
    · exact hbefore hlt
    · exact queueOf_eq_nil (by omega) z

theorem SemSystem.Emptied.keep {y : Pc} (h : s.Emptied) (hpc : s.pc p = x)
    (hpc' : s'.pc = Function.update s.pc p y) (hentry : s'.entry = s.entry)
    (hqueue : ∀ n z, s.queue n z = [] → s'.queue n z = [])
    (hy : ∀ n z, y.hasEmptied n z → x.hasEmptied n z ∨ s.queue n z = []) : s'.Emptied := by
  subst hpc
  constructor
  · intro q n z hq
    apply hqueue
    rw [hpc', Function.update_apply] at hq
    split_ifs at hq with hqp
    · subst hqp
      rcases hy n z hq with hold | hnow
      · exact h.emptied q n z hold
      · exact hnow
    · exact h.emptied q n z hq
  · intro hgone n z
    rw [hentry] at hgone
    exact hqueue n z (h.gone hgone n z)

theorem Goes.hasEmptied {y : Pc} (h : Goes s x y) (hy : y.hasEmptied n z) :
    x.hasEmptied n z ∨ s.queue n z = [] := by
  cases h with
  | woken hempty =>
    rename_i w m zero
    cases w with
    | semop c rest => exact hy.elim
    | destroy =>
      cases zero with
      | true =>
        rcases hy with hlt | ⟨rfl, rfl, -⟩
        · exact .inl (.inl hlt)
        · exact .inr hempty
      | false =>
        rcases Nat.lt_or_eq_of_le (show n ≤ m from hy) with hlt | rfl
        · exact .inl (.inl hlt)
        · cases z with
          | true => exact .inl (.inr ⟨rfl, rfl, rfl⟩)
          | false => exact .inr hempty
  | ctlFound hentry =>
    rename_i cmd
    cases cmd with
    | setval m v | setall semnum array => exact hy.elim
    | rmid => exact .inr (queue_of_destroyFrom hy fun hlt => absurd hlt (Nat.not_lt_zero n))
  | _ => exact hy.elim

theorem emptied_move (hs : s.Orderly) (h : s.Emptied) (hmove : Move semid s p s') : s'.Emptied := by
  obtain ⟨hlocks, halive, -⟩ := hs
  have hsame : ∀ n z, s.queue n z = [] → s.queue n z = [] := fun _ _ => id
  cases hmove with
  | go undo hpc hgo => exact h.keep hpc rfl rfl hsame fun _ _ => hgo.hasEmptied
  | lockMap hpc hfree | ctlLock hpc hfree | obtain hpc hfree | enter hpc | gone hpc
  | returns hpc hres | sleeps hpc | ctlUnlock hpc =>
    exact h.keep hpc rfl rfl hsame fun _ _ hy => hy.elim
  | recount hpc hsems =>
    refine h.keep hpc rfl rfl ?_ fun _ _ hy => hy.elim
    intro n z hnil
    exact ((recount_same hsems).2 n z).trans hnil
  | blocks ui undo hpc htest =>
    refine h.keep hpc rfl rfl ?_ fun _ _ hy => hy.elim
    intro n z hnil
    exact (queueOf_modify (fun zero sem => waiters_count _ zero _ sem) _ _ n z).trans hnil
  | enqueue hpc =>
    -- a call is in its section: there is no removal, and the entry is there
    rename_i c o
    have hsection : (s.pc p).inSection = true := by rw [hpc]; rfl
    have hlock := (hlocks.set p).1 hsection
    constructor
    · intro q n z hq
      by_cases hqp : q = p
      · subst hqp
        rw [SemSystem.goto_pc_self] at hq
        exact hq.elim
      · rw [SemSystem.goto_pc_of_ne _ hqp] at hq
        rw [halive.alone q (Pc.destroys_of_hasEmptied hq)] at hlock
        cases hlock
    · intro hgone
      have hentry := halive.entry p (Pc.needsSet_of_inSection hsection)
      exact absurd (hentry.symm.trans hgone) Bool.noConfusion
  | apply hpc hsem =>
    refine h.keep hpc rfl rfl ?_ ?_
    · intro n z hnil
      refine (queueOf_set hsem ?_ n z).trans hnil
      intro zero
      cases zero <;> rfl
    · intro n z hy
      split at hy <;> exact hy.elim
  | take hpc hqueue =>
    rename_i w m zero q qs
    refine h.keep hpc rfl rfl ?_ ?_
    · intro n z hnil
      have hlt := lt_of_queue_eq_cons hqueue
      refine (queueOf_modify_waiters hlt zero (fun _ => qs) n z).trans ?_
      split_ifs with hhere
      · rw [hhere.1, hhere.2, hqueue] at hnil
        cases hnil
      · exact hnil
    · intro n z hy
      cases w with
      | semop c rest => exact hy.elim
      | destroy => exact .inl hy
  | restart hpc hq =>
    rename_i w m zero q c o
    have hne := ne_of_suspended hpc hq
    have hwoken : (s.goto q (.lockMap c)).Emptied :=
      h.keep hq rfl rfl hsame fun _ _ hy => hy.elim
    refine hwoken.keep ((Function.update_of_ne hne _ _).trans hpc) rfl rfl hsame ?_
    intro n z hy
    cases w with
    | semop c rest => exact hy.elim
    | destroy => exact .inl hy
  | write semnum hpc hwrites hn =>
    refine h.keep hpc rfl rfl ?_ ?_
    · intro n z hnil
      exact (queue_write s p _ _ semnum n z).trans hnil
    · intro n z hy
      cases hwrites <;> exact hy.elim
  | free hpc hfrees =>
    refine h.keep hpc rfl rfl hsame ?_
    intro n z hy
    cases hfrees with
    | zList => exact .inl hy
    | nList =>
      refine .inr (queue_of_destroyFrom hy ?_)
      intro hlt
      exact h.emptied p n z (by rw [hpc]; exact Nat.le_of_lt_succ hlt)
    | lock | base | set => exact .inl trivial
  | clearEntry hpc =>
    have hall : ∀ n z, s.queue n z = [] := fun n z => h.emptied p n z (by rw [hpc]; trivial)
    exact ⟨fun _ n z _ => hall n z, fun _ n z => hall n z⟩

theorem Pc.eq_clearEntry_of_hasFreed_set (h : x.hasFreed .set) : x = .clearEntry := by
  cases x with
  | clearEntry => rfl
  | wake w n zero | restart w n zero q => cases w <;> exact h.elim
  | _ => exact h.elim

theorem awake_of_emptied (hs : s.Orderly) (h : s.Emptied) (hfreed : .set ∈ s.freed) (q : Pid) :
    (s.pc q).waits = none := by
  obtain ⟨hlocks, halive, hqueues⟩ := hs
  cases hwaits : (s.pc q).waits with
  | none => rfl
  | some o =>
    -- but all lists are empty, and nobody wakes one
    rcases (hqueues.waits_iff q _ _).1 ⟨o, hwaits, rfl, rfl⟩ with hmem | ⟨p, hp⟩
    · rcases halive.freed .set hfreed with hgone | ⟨r, hr⟩
      · rw [h.gone hgone] at hmem
        cases hmem
      · rw [h.emptied r _ _ (by rw [Pc.eq_clearEntry_of_hasFreed_set hr]; trivial)] at hmem
        cases hmem
    · have hneeds := Pc.needsSet_of_wakesList (Pc.wakesList_of_restarts hp)
      rcases halive.freed .set hfreed with hgone | ⟨r, hr⟩
      · rw [halive.entry p hneeds] at hgone
        cases hgone
      · rw [halive.eq_of_needsSet hlocks (Pc.destroys_of_hasFreed hr) hneeds,
          Pc.eq_clearEntry_of_hasFreed_set hr] at hp
        cases hp

/-! ### Runs -/

/-- Everything that the proof carries along a run. -/
structure SemSystem.RemovalInvariant (s : SemSystem) : Prop where
  orderly : s.Orderly
  emptied : s.Emptied
  refused : ∀ r ∈ s.returned, r.removed = true → r.result = .error .EIDRM

theorem SemSystem.Fresh.removalInvariant {nsems : ℕ} (h : s.Fresh nsems) : s.RemovalInvariant := by
  refine ⟨h.orderly, ⟨fun _ n z _ => h.queue n z, fun _ n z => h.queue n z⟩, ?_⟩
  intro r hr
  rw [h.returned] at hr
  cases hr

theorem removalInvariant_step {a : Act} (h : s.RemovalInvariant) (halone : RemovesAlone s a.pid)
    (hstep : protocolStep semid s a = some s') :
    s'.RemovalInvariant := by
  have hmove := protocolStep_move hstep
  exact
    { orderly := orderly_step h.orderly halone hstep
      emptied := emptied_move h.orderly h.emptied hmove
      refused := refused_move h.orderly h.refused hmove }

/-- **A removal is safe as long as none begins while a call is in its section**: nobody touches
what is freed, every call that returns from then on fails with `EIDRM`, and nobody sleeps on. -/
theorem removal_safe (semid nsems : ℕ) (s₀ s : SemSystem) (acts : List Act)
    (hfresh : s₀.Fresh nsems)
    (halone : Along (protocolStep semid) (fun s a => RemovesAlone s a.pid) s₀ acts)
    (hrun : run (protocolStep semid) s₀ acts = some s) : s.SafelyRemoved := by
  have h : s.RemovalInvariant := by
    refine Interleaving.invariant ?_ hfresh.removalInvariant halone hrun
    intro s a s₁ hs ha hstep
    exact removalInvariant_step hs ha hstep
  exact
    { untouched := fun p => untouched_of_alive h.orderly p
      refused := h.refused
      awake := fun hfreed q => awake_of_emptied h.orderly h.emptied hfreed q }

/-- A process sleeps on the set, another one removes it. -/
def sleepThenRemove : List Act :=
  .semop 0 [⟨0, -2, false, false⟩] :: List.replicate 9 (.step 0) ++
    .semctl 1 .rmid :: List.replicate 13 (.step 1) ++ List.replicate 3 (.step 0)

theorem removal_safe_sleeper :
    ∃ s, run (protocolStep 0) oneSemaphore sleepThenRemove = some s ∧ s.SafelyRemoved ∧
      s.returned.map Returned.pid = [0] := by
  refine ⟨_, rfl, ?_, rfl⟩
  exact removal_safe 0 1 _ _ sleepThenRemove fresh_oneSemaphore (by decide +kernel) rfl

/-- A process is in its section when another one removes the set; its next step reads the array
that has been freed. -/
theorem removal_during_section :
    ∃ s, run (protocolStep 0) oneSemaphore
        (.semop 0 [⟨0, 1, false, false⟩] :: List.replicate 4 (.step 0) ++
          .semctl 1 .rmid :: List.replicate 11 (.step 1)) = some s ∧
      .base ∈ (s.pc 0).touches s.entry ∧ .base ∈ s.freed :=
  ⟨_, rfl, by decide +kernel⟩

end Clib4.SysV
