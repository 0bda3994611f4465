import Clib4.SysV.SemQueues

/-!
# SysV semaphores: no wake-up is lost

A process that sleeps on a semaphore is woken when the value becomes what it waits for.  In
`semop` an operation that leaves the value zero wakes those who wait for zero, and any other one
that adds to it wakes those who wait for more; either list is emptied.  `SETVAL` and `SETALL`
write new values and wake nobody.  And an operation that takes from the value so often that it
falls below 32 bits makes it large.  If neither of them happens, no wake-up is lost.

## Main definitions

* `Satisfied` — the condition that a process sleeps on.
* `WritesUnawaited` — a step does not write a value that somebody waits for.
* `TakesWithin` — a step does not take so much from a value that it falls below 32 bits.
* `SemSystem.NoneForgotten` — where no call is in progress, nobody sleeps on a condition that holds.

## Main results

* `wakeups_kept` — **without such steps, no wake-up is lost.**
-/

namespace Clib4.SysV

open Interleaving List Function

/-- The condition that a process sleeps on: the value is large enough, or it is zero. -/
def Satisfied (semval : ℤ) (o : Sembuf) : Prop :=
  if o.op = 0 then semval = 0 else |o.op| ≤ semval

instance (semval : ℤ) (o : Sembuf) : Decidable (Satisfied semval o) :=
  inferInstanceAs (Decidable (if o.op = 0 then semval = 0 else |o.op| ≤ semval))

/-- The process is in no call, or its task is suspended. -/
def Pc.resting : Pc → Bool
  | .idle | .suspended _ _ => true
  | _ => false

/-- The process is on the list of the semaphore that its operation waits for. -/
def SemSystem.Queued (s : SemSystem) (q : Pid) (o : Sembuf) : Prop :=
  q ∈ s.queue o.num (decide (o.op = 0)) ∧ (s.pc q).waits = some o

/-- If no call is in progress, then a process on a list is suspended in a call that waits for that
list, a suspended process is on its list, and its condition does not hold. -/
def SemSystem.NoneForgotten (s : SemSystem) : Prop :=
  (∀ p, (s.pc p).resting = true) →
    (∀ n zero, ∀ q ∈ s.queue n zero, ∃ c o, s.pc q = .suspended c o ∧ o.num = n ∧
      decide (o.op = 0) = zero) ∧
    ∀ q c o, s.pc q = .suspended c o → q ∈ s.queue o.num (decide (o.op = 0)) ∧
      ∀ v, (values s.sems)[o.num]? = some v → ¬ Satisfied v o

/-- The value that the next step of a process writes. -/
def Pc.writes : Pc → Option (ℕ × ℤ)
  | .setval n v => some (n, v)
  | .setall _ array i => some (i, (array i).toNat)
  | _ => none

/-- The next step of the process does not write a value that a process waits for, which is on a
list or about to be put there. -/
def WritesUnawaited (s : SemSystem) (p : Pid) : Prop :=
  ∀ n v, (s.pc p).writes = some (n, v) → n < s.sems.length → ∀ q o, o.num = n →
    s.Queued q o ∨ (∃ c, s.pc q = .enqueue c o) → ¬ Satisfied v o

/-- The operation that the next step of a process applies. -/
def Pc.applies : Pc → Option Sembuf
  | .apply _ (o :: _) => some o
  | _ => none

/-- The next step of the process does not take so much from a value that it falls below the least
one of 32 bits. -/
def TakesWithin (s : SemSystem) (p : Pid) : Prop :=
  ∀ o, (s.pc p).applies = some o → o.op ≤ 0 → ∀ v, (values s.sems)[o.num]? = some v →
    -2147483648 ≤ v + o.op

/-! ### Pending wake-ups -/

/-- The list that a process is waking. -/
def Pc.wakesOn : Pc → Option (ℕ × Bool)
  | .wake _ n zero => some (n, zero)
  | .restart _ n zero _ => some (n, zero)
  | _ => none

/-- Whoever is on a list waits for a condition that does not hold, unless the list is being woken;
and whoever is about to be put on one does so for a condition that does not hold. -/
structure SemSystem.Pending (s : SemSystem) : Prop where
  queued : ∀ q o, s.Queued q o → (∀ v, (values s.sems)[o.num]? = some v → ¬ Satisfied v o) ∨
    ∃ p, (s.pc p).wakesOn = some (o.num, decide (o.op = 0))
  about : ∀ q c o, s.pc q = .enqueue c o → ∀ v, (values s.sems)[o.num]? = some v → ¬ Satisfied v o

variable {o : Sembuf} {x y : Pc} {s s' : SemSystem} {p : Pid} {n : ℕ} {sem : Sem} {c : SemopCall}
  {v : ℤ}

theorem not_satisfied_of_blocks {values : List ℤ} (h : testOp values o = .blocks) :
    ∀ v, values[o.num]? = some v → ¬ Satisfied v o := by
  intro v hv hsat
  unfold testOp at h
  rw [hv] at h
  dsimp only at h
  unfold Satisfied at hsat
  by_cases hpos : 0 < o.op
  · rw [if_pos hpos] at h
    cases h
  · rw [if_neg hpos] at h
    by_cases hzero : o.op = 0
    · rw [if_pos hzero] at hsat
      subst hsat
      simp [hzero] at h
    · rw [if_neg hzero] at hsat
      have hneg : o.op < 0 := by omega
      rw [abs_of_neg hneg] at hsat
      rw [if_neg (by rw [if_pos hneg]; omega)] at h
      cases h

theorem Pc.wakesList_of_wakesOn {k : ℕ × Bool} (h : x.wakesOn = some k) : x.wakesList = true := by
  unfold Pc.wakesOn at h
  split at h
  · rfl
  · rfl
  · cases h

/-- A process goes on elsewhere, no value changes and no list grows. -/
theorem SemSystem.Pending.keep (h : s.Pending) (hpc : s.pc p = x)
    (hpc' : s'.pc = update s.pc p y) (hvalues : values s'.sems = values s.sems)
    (hqueue : ∀ n zero, ∀ q ∈ s'.queue n zero, q ∈ s.queue n zero)
    (hwaits : ∀ o, y.waits = some o → x.waits = some o)
    (hwakes : ∀ n zero, x.wakesOn = some (n, zero) → y.wakesOn = some (n, zero) ∨
      s.queue n zero = [])
    (habout : ∀ c o, y = .enqueue c o → ∀ v, (values s.sems)[o.num]? = some v → ¬ Satisfied v o) :
    s'.Pending := by
  subst hpc
  constructor
  · intro q o hq
    obtain ⟨hmem', hwait⟩ := hq
    have hmem := hqueue _ _ q hmem'
    have hold : s.Queued q o := by
      refine ⟨hmem, ?_⟩
      rw [hpc', update_apply] at hwait
      split_ifs at hwait with hqp
      · subst hqp
        exact hwaits o hwait
      · exact hwait
    rw [hvalues]
    rcases h.queued q o hold with hunsat | ⟨r, hr⟩
    · exact .inl hunsat
    · refine .inr ⟨r, ?_⟩
      rw [hpc', update_apply]
      split_ifs with hrp
      · subst hrp
        rcases hwakes _ _ hr with hgo | hnil
        · exact hgo
        · rw [hnil] at hmem
          cases hmem
      · exact hr
  · intro q c o hq v hv
    rw [hvalues] at hv
    rw [hpc', update_apply] at hq
    split_ifs at hq
    · exact habout c o hq v hv
    · exact h.about q c o hq v hv

theorem Goes.wakesOn (h : Goes s x y) {zero : Bool} (hx : x.wakesOn = some (n, zero)) :
    y.wakesOn = some (n, zero) ∨ s.queue n zero = [] := by
  cases h with
  | woken hempty =>
    cases hx
    exact .inr hempty
  | _ => cases hx

/-- What an operation of the second loop does: it adds to the value of its semaphore. -/
theorem values_applyNext (hsem : s.sems[o.num]? = some sem) (p : Pid) (c : SemopCall)
    (rest : List Sembuf) (n : ℕ) :
    (values (s.applyNext p c o rest sem).sems)[n]? =
      if n = o.num then some (toInt32 (sem.semval + o.op)) else (values s.sems)[n]? := by
  obtain ⟨hlt, -⟩ := List.getElem?_eq_some_iff.1 hsem
  change (values (s.sems.set o.num (sem.apply toInt32 p o)))[n]? = _
  rw [values_set]
  split_ifs with hn
  · subst hn
    rw [getElem?_set_self (by simpa using hlt)]
    rfl
  · rw [getElem?_set_ne (Ne.symm hn)]

theorem queue_applyNext (hsem : s.sems[o.num]? = some sem) (p : Pid) (c : SemopCall)
    (rest : List Sembuf) (n : ℕ) (zero : Bool) :
    (s.applyNext p c o rest sem).queue n zero = s.queue n zero := by
  refine queueOf_set hsem ?_ n zero
  intro zero
  cases zero <;> rfl

/-- The process goes on with the next operation, or wakes a list first: it does not wait. -/
theorem pc_applyNext_self (s : SemSystem) (p : Pid) (c : SemopCall) (o : Sembuf)
    (rest : List Sembuf) (sem : Sem) :
    ((s.applyNext p c o rest sem).pc p).waits = none ∧
      ∀ c' o', (s.applyNext p c o rest sem).pc p ≠ .enqueue c' o' := by
  unfold SemSystem.applyNext
  rw [SemSystem.goto_pc_self]
  split <;> exact ⟨rfl, fun _ _ => Pc.noConfusion⟩

theorem wakesOn_applyNext {rest : List Sembuf} {zero : Bool}
    (h : wakes o (toInt32 (sem.semval + o.op)) = some zero) :
    ((s.applyNext p c o rest sem).pc p).wakesOn = some (o.num, zero) := by
  unfold SemSystem.applyNext
  rw [SemSystem.goto_pc_self, h]
  rfl

theorem toInt32_le {z : ℤ} (h : -2147483648 ≤ z) : toInt32 z ≤ z := by
  by_cases hz : z ≤ longMax
  · exact le_of_eq (toInt32_of_le h hz)
  · have hlt := Int.bmod_lt (x := z) (m := 2 ^ 32) (by decide)
    unfold longMax at hz
    unfold toInt32
    omega

/-- An operation either wakes a list, or leaves conditions that do not hold as they are, if it
does not make the value larger without adding to it. -/
theorem not_satisfied_or_wakes {o' : Sembuf} {w : ℤ} (hw : o.op ≤ 0 → w ≤ v)
    (h : ¬ Satisfied v o') :
    ¬ Satisfied w o' ∨ wakes o w = some (decide (o'.op = 0)) := by
  unfold Satisfied at *
  unfold wakes
  by_cases hzero : w = 0
  · rw [if_pos hzero]
    by_cases ho' : o'.op = 0
    · right
      simp [ho']
    · left
      rw [if_neg ho', hzero]
      have := abs_pos.2 ho'
      omega
  · rw [if_neg hzero]
    by_cases ho' : o'.op = 0
    · left
      rw [if_pos ho']
      exact hzero
    · rw [if_neg ho'] at h ⊢
      by_cases hpos : 0 < o.op
      · right
        simp [hpos, ho']
      · left
        have := hw (by omega)
        omega

/-- While a call applies its operations nobody else wakes a list, or is about to be put on one. -/
theorem others_of_inSection (hs : s.Orderly) (hp : (s.pc p).inSection = true) {q : Pid}
    (hq : q ≠ p) :
    (s.pc q).wakesOn = none ∧ ∀ c o, s.pc q ≠ .enqueue c o := by
  constructor
  · cases hwakes : (s.pc q).wakesOn with
    | none => rfl
    | some k =>
      rcases Pc.destroys_or_inSection_of_wakesList (Pc.wakesList_of_wakesOn hwakes) with hd | hsec
      · have hqp := hs.alive.eq_of_needsSet hs.locks hd (Pc.needsSet_of_inSection hp)
        exact absurd hqp.symm hq
      · exact absurd (hs.locks.set.unique hsec hp) hq
  · intro c o hpc
    exact hq (hs.locks.set.unique (by rw [hpc]; rfl) hp)

theorem pending_apply {rest : List Sembuf} (hs : s.Orderly) (h : s.Pending)
    (htakes : TakesWithin s p) (hpc : s.pc p = .apply c (o :: rest))
    (hsem : s.sems[o.num]? = some sem) :
    (s.applyNext p c o rest sem).Pending := by
  have hsection : (s.pc p).inSection = true := by rw [hpc]; rfl
  have hval : (values s.sems)[o.num]? = some sem.semval := by simp [values, hsem]
  have hless : o.op ≤ 0 → toInt32 (sem.semval + o.op) ≤ sem.semval := by
    intro hop
    have := toInt32_le (htakes o (by rw [hpc]; rfl) hop _ hval)
    omega
  constructor
  · intro q o' hq
    obtain ⟨hmem, hwait⟩ := hq
    rw [queue_applyNext hsem] at hmem
    have hqp : q ≠ p := by
      rintro rfl
      rw [(pc_applyNext_self s q c o rest sem).1] at hwait
      cases hwait
    rw [SemSystem.applyNext, SemSystem.goto_pc_of_ne _ hqp] at hwait
    -- so far the condition did not hold
    have hunsat : ∀ v, (values s.sems)[o'.num]? = some v → ¬ Satisfied v o' := by
      rcases h.queued q o' ⟨hmem, hwait⟩ with hunsat | ⟨r, hr⟩
      · exact hunsat
      · exfalso
        by_cases hrp : r = p
        · rw [hrp, hpc] at hr
          cases hr
        · rw [(others_of_inSection hs hsection hrp).1] at hr
          cases hr
    by_cases hnum : o'.num = o.num
    · rw [hnum] at hunsat ⊢
      rcases not_satisfied_or_wakes hless (hunsat _ hval) with hstill | hwakes
      · left
        intro v hv
        rw [values_applyNext hsem, if_pos rfl] at hv
        cases hv
        exact hstill
      · exact .inr ⟨p, wakesOn_applyNext hwakes⟩
    · left
      intro v hv
      rw [values_applyNext hsem, if_neg hnum] at hv
      exact hunsat v hv
  · intro q c' o' hq
    exfalso
    by_cases hqp : q = p
    · subst hqp
      exact (pc_applyNext_self s q c o rest sem).2 c' o' hq
    · rw [SemSystem.applyNext, SemSystem.goto_pc_of_ne _ hqp] at hq
      exact (others_of_inSection hs hsection hqp).2 c' o' hq

/-- A process that puts itself on a list does so for a condition that does not hold. -/
theorem pending_enqueue (h : s.Pending) (hpc : s.pc p = .enqueue c o)
    (hpc' : s'.pc = update s.pc p (.release c (.sleeps o)))
    (hvalues : values s'.sems = values s.sems)
    (hqueue : ∀ n zero, s'.queue n zero =
      if n = o.num ∧ zero = decide (o.op = 0) then s.queue o.num (decide (o.op = 0)) ++ [p]
      else s.queue n zero) : s'.Pending := by
  constructor
  · intro q o' hq
    obtain ⟨hmem, hwait⟩ := hq
    rw [hvalues]
    rw [hpc', update_apply] at hwait
    split_ifs at hwait with hqp
    · subst hqp
      cases hwait
      exact .inl (h.about q c o hpc)
    · have hold : q ∈ s.queue o'.num (decide (o'.op = 0)) := by
        rw [hqueue] at hmem
        split_ifs at hmem with hhere
        · rw [hhere.1, hhere.2]
          rcases mem_append.1 hmem with hmem | hmem
          · exact hmem
          · exact absurd (mem_singleton.1 hmem) hqp
        · exact hmem
      rcases h.queued q o' ⟨hold, hwait⟩ with hunsat | ⟨r, hr⟩
      · exact .inl hunsat
      · refine .inr ⟨r, ?_⟩
        have hrp : r ≠ p := by
          rintro rfl
          rw [hpc] at hr
          cases hr
        rw [hpc', update_of_ne hrp]
        exact hr
  · intro q c' o' hq v hv
    rw [hvalues] at hv
    by_cases hqp : q = p
    · subst hqp
      rw [hpc', update_self] at hq
      cases hq
    · rw [hpc', update_of_ne hqp] at hq
      exact h.about q c' o' hq v hv

theorem pending_write (h : s.Pending) (hunawaited : WritesUnawaited s p)
    (hwrites : (s.pc p).writes = some (n, v)) (hn : n < s.sems.length) (semnum : ℕ) :
    (s.write p n v semnum).Pending := by
  have hval : ∀ m, (values (s.write p n v semnum).sems)[m]? =
      if m = n then some v else (values s.sems)[m]? := by
    intro m
    simp only [SemSystem.write, values, getElem?_map, getElem?_modify]
    by_cases hmn : m = n
    · subst hmn
      simp [hn]
    · simp [hmn, Ne.symm hmn]
  constructor
  · intro q o hq
    have hold : s.Queued q o := ⟨queue_write s p n v semnum o.num _ ▸ hq.1, hq.2⟩
    by_cases hnum : o.num = n
    · left
      intro w hw
      rw [hval, if_pos hnum] at hw
      cases hw
      exact hunawaited n v hwrites hn q o hnum (.inl hold)
    · rcases h.queued q o hold with hunsat | hwaker
      · left
        intro w hw
        rw [hval, if_neg hnum] at hw
        exact hunsat w hw
      · exact .inr hwaker
  · intro q c o hq w hw
    rw [hval] at hw
    split_ifs at hw with hnum
    · cases hw
      exact hunawaited n v hwrites hn q o hnum (.inr ⟨c, hq⟩)
    · exact h.about q c o hq w hw

theorem Writes.writes (h : Writes x n v y) : x.writes = some (n, v) := by
  cases h <;> rfl

/-- A process goes on between places where it neither waits nor wakes. -/
theorem SemSystem.Pending.keepQuiet (h : s.Pending) (hpc : s.pc p = x)
    (hpc' : s'.pc = update s.pc p y) (hvalues : values s'.sems = values s.sems)
    (hqueue : ∀ n zero, ∀ q ∈ s'.queue n zero, q ∈ s.queue n zero) (hwaits : y.waits = none)
    (hwakes : x.wakesOn = none) (habout : ∀ c o, y ≠ .enqueue c o) : s'.Pending := by
  refine h.keep hpc hpc' hvalues hqueue ?_ ?_ fun c o hy => absurd hy (habout c o)
  · intro o ho
    rw [hwaits] at ho
    cases ho
  · intro n zero hx
    rw [hwakes] at hx
    cases hx

theorem pending_move {semid : ℕ} (hs : s.Orderly) (h : s.Pending)
    (hunawaited : WritesUnawaited s p) (htakes : TakesWithin s p)
    (hmove : Move semid s p s') : s'.Pending := by
  have hsame : ∀ n zero, ∀ q ∈ s.queue n zero, q ∈ s.queue n zero := fun _ _ _ => id
  cases hmove with
  | go undo hpc hgo =>
    obtain ⟨hwaits, -, -, hno⟩ := hgo.waits
    exact h.keep hpc rfl rfl hsame (fun o ho => hwaits ▸ ho) (fun _ _ => hgo.wakesOn)
      fun c o hy => absurd hy (hno c o)
  | lockMap hpc hfree | ctlLock hpc hfree | obtain hpc hfree | enter hpc | gone hpc
  | returns hpc hres | clearEntry hpc | ctlUnlock hpc =>
    exact h.keepQuiet hpc rfl rfl hsame rfl rfl (by simp)
  | recount hpc hsems =>
    refine h.keepQuiet hpc rfl (values_recount hsems) ?_ rfl rfl (by simp)
    intro n zero q hq
    rw [SemSystem.queue, ← (recount_same hsems).2]
    exact hq
  | blocks ui undo hpc htest =>
    refine h.keep hpc rfl (values_modify (semval_count _ _) _ _) ?_ (by simp [Pc.waits])
      (by simp [Pc.wakesOn]) ?_
    · intro n zero q hq
      rw [SemSystem.queue, ← queueOf_modify (fun zero sem => waiters_count _ zero _ sem)]
      exact hq
    · intro c' o' heq
      cases heq
      exact not_satisfied_of_blocks htest
  | enqueue hpc =>
    have hlt := hs.queues.inside p _ _ hpc
    refine pending_enqueue h hpc rfl ?_ (queueOf_modify_waiters hlt _ (· ++ [p]))
    exact values_modify (fun sem => semval_setWaiters _ _ sem) _ _
  | apply hpc hsem => exact pending_apply hs h htakes hpc hsem
  | take hpc hqueue =>
    rename_i w m zero r rs
    have hlt := lt_of_queue_eq_cons hqueue
    refine h.keep hpc rfl (values_modify (fun sem => semval_setWaiters _ _ sem) _ _) ?_
      (by simp [Pc.waits]) (fun _ _ hx => .inl hx) (by simp)
    intro n z q hq
    change q ∈ queueOf (s.sems.modify m fun sem => sem.setWaiters zero rs) n z at hq
    rw [queueOf_modify_waiters hlt zero fun _ => rs] at hq
    split_ifs at hq with hhere
    · rw [hhere.1, hhere.2, hqueue]
      exact mem_cons_of_mem r hq
    · exact hq
  | restart hpc hq =>
    rename_i w n zero q c o
    have hne := ne_of_suspended hpc hq
    have hwoken : (s.goto q (.lockMap c)).Pending :=
      h.keepQuiet hq rfl rfl hsame rfl rfl (by simp)
    exact hwoken.keep ((s.goto_pc_of_ne hne _).trans hpc) rfl rfl hsame (by simp [Pc.waits])
      (fun _ _ hx => .inl hx) (by simp)
  | sleeps hpc => exact h.keep hpc rfl rfl hsame (fun _ ho => ho) (by simp [Pc.wakesOn]) (by simp)
  | write semnum hpc hwrites hn =>
    have hw := pending_write h hunawaited (by rw [hpc]; exact hwrites.writes) hn semnum
    cases hwrites with
    | setval | setall => exact hw.keepQuiet hpc rfl rfl (fun _ _ _ => id) rfl rfl (by simp)
  | free hpc hfrees =>
    cases hfrees with
    | nList =>
      refine h.keepQuiet hpc rfl rfl hsame ?_ rfl ?_ <;> unfold destroyFrom
      · split_ifs <;> rfl
      · split_ifs <;> simp
    | zList | lock | base | set => exact h.keepQuiet hpc rfl rfl hsame rfl rfl (by simp)

/-! ### Runs -/

theorem SemSystem.Fresh.pending {nsems : ℕ} (h : s.Fresh nsems) : s.Pending := by
  constructor
  · intro q o hq
    rw [SemSystem.Queued, h.queue] at hq
    cases hq.1
  · intro q c o hq
    rw [h.idle] at hq
    cases hq

theorem Pc.none_of_resting (h : x.resting = true) : x.wakesOn = none ∧ x.restarts = none := by
  cases x with
  | idle | suspended c o => exact ⟨rfl, rfl⟩
  | _ => cases h

/-- Where nobody wakes a list, a process on it waits for a condition that does not hold. -/
theorem noneForgotten_of_pending (hs : s.Orderly) (h : s.Pending) : s.NoneForgotten := by
  intro hrest
  constructor
  · intro n zero q hq
    obtain ⟨o, hwaits, hnum, hzero⟩ := (hs.queues.waits_iff q n zero).2 (.inl hq)
    have hq' := hrest q
    cases hpc : s.pc q with
    | suspended c o' =>
      rw [hpc] at hwaits
      cases hwaits
      exact ⟨c, o, rfl, hnum, hzero⟩
    | idle => rw [hpc] at hwaits; cases hwaits
    | _ => rw [hpc] at hq'; cases hq'
  · intro q c o hpc
    have hwaits : (s.pc q).waits = some o := by rw [hpc]; rfl
    have hmem : q ∈ s.queue o.num (decide (o.op = 0)) := by
      rcases (hs.queues.waits_iff q _ _).1 ⟨o, hwaits, rfl, rfl⟩ with hmem | ⟨p, hp⟩
      · exact hmem
      · rw [(Pc.none_of_resting (hrest p)).2] at hp
        cases hp
    refine ⟨hmem, ?_⟩
    rcases h.queued q o ⟨hmem, hwaits⟩ with hunsat | ⟨p, hp⟩
    · exact hunsat
    · rw [(Pc.none_of_resting (hrest p)).1] at hp
      cases hp

/-- **No wake-up is lost in a run in which no value is written that somebody waits for, none falls
below 32 bits, and no removal begins while a call is in its section.** -/
theorem wakeups_kept (semid nsems : ℕ) (s₀ s : SemSystem) (acts : List Act)
    (hfresh : s₀.Fresh nsems)
    (hacts : Along (protocolStep semid)
      (fun s a => RemovesAlone s a.pid ∧ WritesUnawaited s a.pid ∧ TakesWithin s a.pid) s₀ acts)
    (hrun : run (protocolStep semid) s₀ acts = some s) : s.NoneForgotten := by
  have h : s.Orderly ∧ s.Pending := by
    refine Interleaving.invariant (I := fun s => s.Orderly ∧ s.Pending) ?_
      ⟨hfresh.orderly, hfresh.pending⟩ hacts hrun
    intro s a s₁ hs ha hstep
    obtain ⟨hremoves, hwrites, htakes⟩ := ha
    exact ⟨orderly_step hs.1 hremoves hstep,
      pending_move hs.1 hs.2 hwrites htakes (protocolStep_move hstep)⟩
  exact noneForgotten_of_pending h.1 h.2

/-- A process wants to take 3, another one adds 1, and the first one sleeps again. -/
def sleepAddSleep : List Act :=
  .semop 0 [⟨0, -3, false, false⟩] :: List.replicate 9 (.step 0) ++
    .semop 1 [⟨0, 1, false, false⟩] :: List.replicate 13 (.step 1) ++ List.replicate 9 (.step 0)

theorem wakeups_kept_sleepAddSleep :
    ∃ s, run (protocolStep 0) oneSemaphore sleepAddSleep = some s ∧ s.NoneForgotten ∧
      s.queue 0 false = [0] := by
  refine ⟨_, rfl, ?_, rfl⟩
  refine wakeups_kept 0 1 oneSemaphore _ sleepAddSleep fresh_oneSemaphore ?_ rfl
  -- nothing is removed, nothing is written and nothing is taken
  have hquiet : Along (protocolStep 0)
      (fun s a => (s.pc a.pid).beginsRemoval = false ∧ (s.pc a.pid).writes = none ∧
        ∀ o ∈ (s.pc a.pid).applies, 0 < o.op)
      oneSemaphore sleepAddSleep := by decide +kernel
  refine hquiet.mono ?_
  intro s a ha
  obtain ⟨hremoves, hwrites, hadds⟩ := ha
  refine ⟨?_, ?_, ?_⟩
  · intro hbegins
    rw [hremoves] at hbegins
    cases hbegins
  · intro n v hnv
    rw [hwrites] at hnv
    cases hnv
  · intro o ho hop
    exact absurd (hadds o ho) (by omega)

/-- A process waits for the value 2, and `SETVAL` makes it 5. -/
theorem setval_forgets_sleeper :
    ∃ s, run (protocolStep 0) oneSemaphore
        (.semop 0 [⟨0, -2, false, false⟩] :: List.replicate 9 (.step 0) ++
          .semctl 1 (.setval 0 5) :: List.replicate 4 (.step 1)) = some s ∧
      ¬ s.NoneForgotten := by
  refine ⟨_, rfl, ?_⟩
  intro hnone
  have hrest := hnone ?_
  · exact (hrest.2 0 _ ⟨0, -2, false, false⟩ rfl).2 5 rfl (by decide)
  · intro p
    match p with
    | 0 => rfl
    | 1 => rfl
    | p + 2 => rfl

end Clib4.SysV
