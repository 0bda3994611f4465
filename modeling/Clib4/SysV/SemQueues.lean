import Clib4.SysV.SemProtocol

/-!
# SysV semaphores: the life of a set, and its queues

What holds of the protocol as long as no removal begins while a call of `semop` is in its section.
A process that uses the set finds it there; and a process that sleeps, or is about to, is on the
list of the semaphore it waits for, or has been taken off it to be restarted.

## Main definitions

* `RemovesAlone` — a step does not begin a removal while the lock of the set is held.

## Main results

* `orderly_step` — **every step that does not begin a removal at the wrong time keeps these.**
* `waker_unique` — **at most one process is waking others.**
-/

namespace Clib4.SysV

open Interleaving List Function

/-! ### The life of a set -/

/-- The process is removing the set. -/
def Pc.destroys : Pc → Bool
  | .wake .destroy _ _ | .restart .destroy _ _ _ | .freeList _ _ | .freeLock | .freeBase | .freeSet
  | .clearEntry => true
  | _ => false

/-- The process relies on the set: it has looked it up, and is not done with it. -/
def Pc.needsSet : Pc → Bool
  | .obtain _ | .setval _ _ | .setall _ _ _ => true
  | x => x.inSection || x.destroys

/-- The parts that a removal has freed when it has come this far. -/
def Pc.hasFreed : Pc → Part → Prop
  | .wake .destroy i _, .list j _ => j < i
  | .restart .destroy i _ _, .list j _ => j < i
  | .freeList i zero, .list j z => j < i ∨ j = i ∧ z = true ∧ zero = false
  | .freeLock, .list _ _ => True
  | .freeBase, .list _ _ => True
  | .freeBase, .lock => True
  | .freeSet, .list _ _ => True
  | .freeSet, .lock => True
  | .freeSet, .base => True
  | .clearEntry, _ => True
  | _, _ => False

/-- Those who use the set find it in the key map, a removal has it alone, and what is freed has
been freed by a removal. -/
structure SemSystem.Alive (s : SemSystem) : Prop where
  entry : ∀ q, (s.pc q).needsSet = true → s.entry = true
  alone : ∀ q, (s.pc q).destroys = true → s.lock = none
  freed : ∀ part ∈ s.freed, s.entry = false ∨ ∃ q, (s.pc q).hasFreed part

/-- The process is about to look up a set that it is to remove. -/
def Pc.beginsRemoval : Pc → Bool
  | .ctlLookup .rmid => true
  | _ => false

/-- The process does not begin a removal while the lock of the set is held. -/
def RemovesAlone (s : SemSystem) (p : Pid) : Prop :=
  (s.pc p).beginsRemoval = true → s.entry = true → s.lock = none

instance (s : SemSystem) (p : Pid) : Decidable (RemovesAlone s p) :=
  inferInstanceAs (Decidable ((s.pc p).beginsRemoval = true → s.entry = true → s.lock = none))

variable {x y : Pc} {part : Part} {s s' : SemSystem} {p q : Pid} {nsems i semid n : ℕ}
  {sems : List Sem} {o : Sembuf}

theorem Pc.hasMap_of_destroys (h : x.destroys = true) : x.hasMap = true := by
  unfold Pc.destroys at h
  split at h <;> first | rfl | cases h

theorem Pc.needsSet_of_destroys (h : x.destroys = true) : x.needsSet = true := by
  unfold Pc.destroys at h
  split at h <;> first | rfl | cases h

theorem Pc.needsSet_of_inSection (h : x.inSection = true) : x.needsSet = true := by
  unfold Pc.inSection at h
  split at h <;> first | rfl | cases h

theorem Pc.destroys_of_hasFreed (h : x.hasFreed part) : x.destroys = true := by
  unfold Pc.hasFreed at h
  split at h <;> first | rfl | exact h.elim

theorem Pc.hasMap_or_inSection_of_needsSet (h : x.needsSet = true) :
    x.hasMap = true ∨ x.inSection = true := by
  unfold Pc.needsSet at h
  split at h
  · exact .inl rfl
  · exact .inl rfl
  · exact .inl rfl
  · rw [Bool.or_eq_true] at h
    rcases h with h | h
    · exact .inr h
    · exact .inl (Pc.hasMap_of_destroys h)

theorem SemSystem.Alive.eq_of_needsSet (hlocks : s.Locks) (h : s.Alive)
    (hp : (s.pc p).destroys = true) (hq : (s.pc q).needsSet = true) : q = p := by
  rcases Pc.hasMap_or_inSection_of_needsSet hq with hmap | hsection
  · exact hlocks.map.unique hmap (Pc.hasMap_of_destroys hp)
  · have hlock := (hlocks.set q).1 hsection
    rw [h.alone p hp] at hlock
    cases hlock

/-- A process goes on elsewhere, and nothing happens to the set. -/
theorem SemSystem.Alive.keep (h : s.Alive) (hpc : s.pc p = x)
    (hpc' : s'.pc = update s.pc p y) (hentry : s'.entry = s.entry)
    (hfreed : s'.freed = s.freed) (hlock : ∀ q, (s.pc q).destroys = true → s'.lock = none)
    (hneeds : y.needsSet = false ∨ x.needsSet = true ∨ s.entry = true)
    (hdestroys : y.destroys = false ∨ x.destroys = true ∨ s'.lock = none)
    (hhas : ∀ part, x.hasFreed part → y.hasFreed part) : s'.Alive := by
  subst hpc
  constructor
  · intro q hq
    rw [hentry]
    rw [hpc', update_apply] at hq
    split_ifs at hq
    · rcases hneeds with hno | hold | hnow
      · rw [hno] at hq
        cases hq
      · exact h.entry p hold
      · exact hnow
    · exact h.entry q hq
  · intro q hq
    rw [hpc', update_apply] at hq
    split_ifs at hq
    · rcases hdestroys with hno | hold | hnow
      · rw [hno] at hq
        cases hq
      · exact hlock p hold
      · exact hnow
    · exact hlock q hq
  · intro part hpart
    rw [hfreed] at hpart
    rw [hentry, hpc']
    rcases h.freed part hpart with hgone | ⟨q, hq⟩
    · exact .inl hgone
    · refine .inr ⟨q, ?_⟩
      rw [update_apply]
      split_ifs with hqp
      · exact hhas part (hqp ▸ hq)
      · exact hq

theorem Goes.needsSet (h : Goes s x y) :
    y.needsSet = false ∨ x.needsSet = true ∨ s.entry = true := by
  cases h with
  | found hentry | ctlFound hentry => exact .inr (.inr hentry)
  | woken hempty =>
    rename_i w n zero
    cases w <;> exact .inr (.inl rfl)
  | passed | passes ui | fails e | applied => exact .inr (.inl rfl)
  | _ => exact .inl rfl

theorem Goes.destroys (h : Goes s x y) :
    y.destroys = false ∨ x.destroys = true ∨ x.beginsRemoval = true ∧ s.entry = true := by
  cases h with
  | woken hempty =>
    rename_i w n zero
    cases w with
    | semop c rest => exact .inl rfl
    | destroy => exact .inr (.inl rfl)
  | ctlFound hentry =>
    rename_i cmd
    cases cmd with
    | setval n v | setall semnum array => exact .inl rfl
    | rmid => exact .inr (.inr ⟨rfl, hentry⟩)
  | _ => exact .inl rfl

theorem Goes.hasFreed (h : Goes s x y) (hx : x.hasFreed part) : y.hasFreed part := by
  cases h with
  | woken hempty =>
    rename_i w n zero
    cases w with
    | semop c rest => exact hx.elim
    | destroy =>
      cases part with
      | list j z =>
        cases zero with
        | true => exact hx
        | false => exact .inl hx
      | lock | base | set => exact hx.elim
  | _ => exact hx.elim

theorem hasFreed_destroyFrom {j : ℕ} (hj : j < i) (z : Bool) :
    (destroyFrom nsems i).hasFreed (.list j z) := by
  unfold destroyFrom
  split_ifs
  · exact hj
  · trivial

theorem Frees.hasFreed (h : Frees nsems x part y) :
    y.hasFreed part ∧ ∀ part', x.hasFreed part' → y.hasFreed part' := by
  cases h with
  | zList =>
    refine ⟨.inr ⟨rfl, rfl, rfl⟩, ?_⟩
    intro part' h'
    cases part' with
    | list j z =>
      rcases h' with hlt | ⟨-, -, hfalse⟩
      · exact .inl hlt
      · cases hfalse
    | lock | base | set => exact h'.elim
  | nList =>
    refine ⟨hasFreed_destroyFrom (Nat.lt_succ_self _) _, ?_⟩
    intro part' h'
    cases part' with
    | list j z =>
      apply hasFreed_destroyFrom
      rcases h' with hlt | ⟨heq, -, -⟩ <;> omega
    | lock | base | set => exact h'.elim
  | lock =>
    refine ⟨trivial, ?_⟩
    intro part' h'
    cases part' with
    | list j z => trivial
    | lock | base | set => exact h'.elim
  | base =>
    refine ⟨trivial, ?_⟩
    intro part' h'
    cases part' with
    | list j z | lock => trivial
    | base | set => exact h'.elim
  | set => exact ⟨trivial, fun _ _ => trivial⟩

theorem Frees.destroys (h : Frees nsems x part y) : x.destroys = true := by
  cases h <;> rfl

theorem SemSystem.Alive.free (h : s.Alive) (hq : (s.pc q).hasFreed part) : (s.free part).Alive := by
  refine ⟨h.entry, h.alone, ?_⟩
  exact forall_mem_cons.2 ⟨.inr ⟨q, hq⟩, h.freed⟩

theorem SemSystem.Alive.clear (hlocks : s.Locks) (h : s.Alive) (hpc : s.pc p = .clearEntry)
    (hpc' : s'.pc = update s.pc p .ctlUnlock) (hentry : s'.entry = false) : s'.Alive := by
  have hdestroys : (s.pc p).destroys = true := by rw [hpc]; rfl
  -- nobody else relies on the set
  have hnone : ∀ q, (s'.pc q).needsSet = false := by
    intro q
    rw [hpc', update_apply]
    split_ifs with hqp
    · rfl
    · by_contra hq
      exact hqp (h.eq_of_needsSet hlocks hdestroys (by simpa using hq))
  constructor
  · intro q hq
    rw [hnone q] at hq
    cases hq
  · intro q hq
    have := hnone q
    rw [Pc.needsSet_of_destroys hq] at this
    cases this
  · exact fun _ _ => .inl hentry

theorem alive_move (hlocks : s.Locks) (h : s.Alive) (halone : RemovesAlone s p)
    (hmove : Move semid s p s') : s'.Alive := by
  cases hmove with
  | go undo hpc hgo =>
    refine h.keep hpc rfl rfl rfl h.alone hgo.needsSet ?_ fun _ => hgo.hasFreed
    rcases hgo.destroys with hno | hold | ⟨hbegins, hentry⟩
    · exact .inl hno
    · exact .inr (.inl hold)
    · exact .inr (.inr (halone (by rw [hpc]; exact hbegins) hentry))
  | lockMap hpc hfree | ctlLock hpc hfree | gone hpc | ctlUnlock hpc =>
    exact h.keep hpc rfl rfl rfl h.alone (.inl rfl) (.inl rfl) fun _ hx => hx.elim
  | obtain hpc hfree =>
    refine h.keep hpc rfl rfl rfl ?_ (.inr (.inl rfl)) (.inl rfl) fun _ hx => hx.elim
    -- who removes the set has the key map, and so has the process that obtains the lock
    intro q hq
    have hqp : q = p := hlocks.map.unique (Pc.hasMap_of_destroys hq) (by rw [hpc]; rfl)
    rw [hqp, hpc] at hq
    cases hq
  | enter hpc | recount hpc hsems | blocks ui undo hpc htest | enqueue hpc =>
    exact h.keep hpc rfl rfl rfl h.alone (.inr (.inl rfl)) (.inl rfl) fun _ hx => hx.elim
  | apply hpc hsem =>
    refine h.keep hpc rfl rfl rfl h.alone (.inr (.inl rfl)) (.inl ?_) fun _ hx => hx.elim
    split <;> rfl
  | take hpc hqueue =>
    rename_i w n zero q qs
    cases w with
    | semop c rest =>
      exact h.keep hpc rfl rfl rfl h.alone (.inr (.inl rfl)) (.inl rfl) fun _ hx => hx.elim
    | destroy =>
      refine h.keep hpc rfl rfl rfl h.alone (.inr (.inl rfl)) (.inr (.inl rfl)) ?_
      intro part hx
      cases part <;> exact hx
  | restart hpc hq =>
    rename_i w n zero q c o
    have hne := ne_of_suspended hpc hq
    have hwoken : (s.goto q (.lockMap c)).Alive :=
      h.keep hq rfl rfl rfl h.alone (.inl rfl) (.inl rfl) fun _ hx => hx.elim
    have hpc₁ : (s.goto q (.lockMap c)).pc p = .restart w n zero q :=
      (update_of_ne hne _ _).trans hpc
    cases w with
    | semop c' rest =>
      exact hwoken.keep hpc₁ rfl rfl rfl hwoken.alone (.inr (.inl rfl)) (.inl rfl)
        fun _ hx => hx.elim
    | destroy =>
      refine hwoken.keep hpc₁ rfl rfl rfl hwoken.alone (.inr (.inl rfl)) (.inr (.inl rfl)) ?_
      intro part hx
      cases part <;> exact hx
  | returns hpc hres | sleeps hpc =>
    exact h.keep hpc rfl rfl rfl (fun _ _ => rfl) (.inl rfl) (.inl rfl) fun _ hx => hx.elim
  | write semnum hpc hwrites hn =>
    cases hwrites with
    | setval => exact h.keep hpc rfl rfl rfl h.alone (.inl rfl) (.inl rfl) fun _ hx => hx.elim
    | setall =>
      exact h.keep hpc rfl rfl rfl h.alone (.inr (.inl rfl)) (.inl rfl) fun _ hx => hx.elim
  | free hpc hfrees =>
    rename_i x y part
    have hdone := hfrees.hasFreed
    have hgo : (s.goto p y).Alive :=
      h.keep hpc rfl rfl rfl h.alone (.inr (.inl (Pc.needsSet_of_destroys hfrees.destroys)))
        (.inr (.inl hfrees.destroys)) hdone.2
    refine SemSystem.Alive.free hgo (q := p) ?_
    rw [show (s.goto p y).pc p = y from update_self ..]
    exact hdone.1
  | clearEntry hpc => exact h.clear hlocks hpc rfl rfl

/-! ### The lists of a set -/

theorem waiters_setWaiters (zero z : Bool) (ps : List Pid) (sem : Sem) :
    (sem.setWaiters zero ps).waiters z = if z = zero then ps else sem.waiters z := by
  cases zero <;> cases z <;> rfl

theorem waiters_count (zero z : Bool) (f : UInt16 → UInt16) (sem : Sem) :
    (sem.count zero f).waiters z = sem.waiters z := by
  cases zero <;> cases z <;> rfl

theorem queueOf_eq_nil (hn : sems.length ≤ n) (zero : Bool) : queueOf sems n zero = [] := by
  simp [queueOf, getElem?_eq_none hn]

theorem lt_of_queue_eq_cons {zero : Bool} {qs : List Pid} (h : s.queue n zero = q :: qs) :
    n < s.sems.length := by
  by_contra hge
  rw [SemSystem.queue, queueOf_eq_nil (Nat.le_of_not_lt hge)] at h
  cases h

theorem queueOf_modify {f : Sem → Sem} (hf : ∀ zero sem, (f sem).waiters zero = sem.waiters zero)
    (i : ℕ) (sems : List Sem) (n : ℕ) (zero : Bool) :
    queueOf (sems.modify i f) n zero = queueOf sems n zero := by
  unfold queueOf
  rw [getElem?_modify]
  cases sems[n]? with
  | none => rfl
  | some sem =>
    split_ifs
    · exact hf zero sem
    · rfl

theorem queueOf_set {sem sem' : Sem} (hsem : sems[i]? = some sem)
    (hsame : ∀ zero, sem'.waiters zero = sem.waiters zero) (n : ℕ) (zero : Bool) :
    queueOf (sems.set i sem') n zero = queueOf sems n zero := by
  unfold queueOf
  by_cases hn : i = n
  · subst hn
    obtain ⟨hlt, -⟩ := List.getElem?_eq_some_iff.1 hsem
    rw [getElem?_set_self hlt, hsem]
    exact hsame zero
  · rw [getElem?_set_ne hn]

theorem queue_write (s : SemSystem) (p : Pid) (n : ℕ) (v : ℤ) (semnum m : ℕ) (z : Bool) :
    (s.write p n v semnum).queue m z = s.queue m z :=
  queueOf_modify (fun zero sem => by cases zero <;> rfl) n s.sems m z

theorem queueOf_modify_waiters (hi : i < sems.length) (z : Bool) (g : List Pid → List Pid) (n : ℕ)
    (zero : Bool) :
    queueOf (sems.modify i fun sem => sem.setWaiters z (g (sem.waiters z))) n zero =
      if n = i ∧ zero = z then g (queueOf sems i z) else queueOf sems n zero := by
  unfold queueOf
  rw [getElem?_modify]
  by_cases hn : n = i
  · subst hn
    rw [getElem?_eq_getElem hi]
    simp only [Option.map_eq_map, Option.map_some, Option.getD_some, if_true, waiters_setWaiters,
      true_and]
  · have hne : ¬ i = n := fun h => hn h.symm
    simp only [hn, false_and, if_false, hne, Option.map_eq_map, Option.map_id_fun', id_eq]

theorem recount_same {l : Locals} {sems' : List Sem} (h : recount l sems = some sems') :
    sems'.length = sems.length ∧ ∀ n zero, queueOf sems' n zero = queueOf sems n zero := by
  refine recount_preserves (I := fun ss => ss.length = sems.length ∧
    ∀ n zero, queueOf ss n zero = queueOf sems n zero) ?_ h ⟨rfl, fun _ _ => rfl⟩
  intro z i f ss hss
  refine ⟨(length_modify ..).trans hss.1, ?_⟩
  intro n zero
  rw [queueOf_modify (fun zero sem => waiters_count z zero f sem), hss.2]

/-! ### The queues -/

/-- The operation for which a process sleeps, or is about to. -/
def Pc.waits : Pc → Option Sembuf
  | .release _ (.sleeps o) => some o
  | .suspend _ o => some o
  | .suspended _ o => some o
  | _ => none

/-- The process has taken another one off a list, and is about to restart it. -/
def Pc.restarts : Pc → Option (ℕ × Bool × Pid)
  | .restart _ n zero q => some (n, zero, q)
  | _ => none

/-- The process waits for this list of the semaphore. -/
def Pc.WaitsOn (x : Pc) (n : ℕ) (zero : Bool) : Prop :=
  ∃ o, x.waits = some o ∧ o.num = n ∧ decide (o.op = 0) = zero

/-- A process that waits for a list is on it, or has been taken off and is about to be restarted,
and nobody else is. -/
structure SemSystem.Queues (s : SemSystem) : Prop where
  waits_iff : ∀ q n zero, (s.pc q).WaitsOn n zero ↔
    q ∈ s.queue n zero ∨ ∃ p, (s.pc p).restarts = some (n, zero, q)
  nodup : ∀ n zero, (s.queue n zero).Nodup
  apart : ∀ p n zero q, (s.pc p).restarts = some (n, zero, q) → q ∉ s.queue n zero
  inside : ∀ q c o, s.pc q = .enqueue c o → o.num < s.sems.length

/-- A process goes on elsewhere, and waits as before; the lists are the same. -/
theorem SemSystem.Queues.keep (h : s.Queues) (hpc : s.pc p = x)
    (hpc' : s'.pc = update s.pc p y)
    (hqueue : ∀ n zero, s'.queue n zero = s.queue n zero)
    (hlen : s'.sems.length = s.sems.length) (hwaits : y.waits = x.waits)
    (hx : x.restarts = none) (hy : y.restarts = none)
    (hin : ∀ c o, y = .enqueue c o → o.num < s.sems.length) : s'.Queues := by
  subst hpc
  have hwaits' : ∀ q, (s'.pc q).waits = (s.pc q).waits := hpc' ▸ apply_update hwaits
  have hrestart : ∀ q, (s'.pc q).restarts = (s.pc q).restarts :=
    hpc' ▸ apply_update (hy.trans hx.symm)
  constructor
  · intro q n zero
    rw [hqueue, Pc.WaitsOn, hwaits']
    simp only [hrestart]
    exact h.waits_iff q n zero
  · intro n zero
    rw [hqueue]
    exact h.nodup n zero
  · intro r n zero q hr
    rw [hrestart] at hr
    rw [hqueue]
    exact h.apart r n zero q hr
  · intro q c o hq
    rw [hlen]
    rw [hpc', update_apply] at hq
    split_ifs at hq
    · exact hin c o hq
    · exact h.inside q c o hq

/-- The process calls `WakeList`. -/
def Pc.wakesList : Pc → Bool
  | .wake _ _ _ | .restart _ _ _ _ => true
  | _ => false

theorem Pc.destroys_or_inSection_of_wakesList (h : x.wakesList = true) :
    x.destroys = true ∨ x.inSection = true := by
  cases x with
  | wake w n zero | restart w n zero q =>
    cases w with
    | semop c rest => exact .inr rfl
    | destroy => exact .inl rfl
  | _ => cases h

theorem Pc.needsSet_of_wakesList (h : x.wakesList = true) : x.needsSet = true := by
  rcases Pc.destroys_or_inSection_of_wakesList h with hdestroys | hsection
  · exact Pc.needsSet_of_destroys hdestroys
  · exact Pc.needsSet_of_inSection hsection

theorem Pc.wakesList_of_restarts {zero : Bool} (h : x.restarts = some (n, zero, q)) :
    x.wakesList = true := by
  unfold Pc.restarts at h
  split at h
  · rfl
  · cases h

/-- **At most one process is waking others.** -/
theorem waker_unique (hlocks : s.Locks) (halive : s.Alive) (hp : (s.pc p).wakesList = true)
    (hq : (s.pc q).wakesList = true) : p = q := by
  rcases Pc.destroys_or_inSection_of_wakesList hp with hp' | hp' <;>
    rcases Pc.destroys_or_inSection_of_wakesList hq with hq' | hq'
  · exact hlocks.map.unique (Pc.hasMap_of_destroys hp') (Pc.hasMap_of_destroys hq')
  · exact (halive.eq_of_needsSet hlocks hp' (Pc.needsSet_of_inSection hq')).symm
  · exact halive.eq_of_needsSet hlocks hq' (Pc.needsSet_of_inSection hp')
  · exact hlocks.set.unique hp' hq'

/-- While a process is waking others, nobody else is about to restart one. -/
theorem restarts_eq_none_of_ne (hlocks : s.Locks) (halive : s.Alive) {r : Pid}
    (hp : (s.pc p).wakesList = true) (hrp : r ≠ p) : (s.pc r).restarts = none := by
  cases hr : (s.pc r).restarts with
  | none => rfl
  | some k => exact absurd (waker_unique hlocks halive (Pc.wakesList_of_restarts hr) hp) hrp

theorem Goes.waits (h : Goes s x y) :
    y.waits = x.waits ∧ x.restarts = none ∧ y.restarts = none ∧ ∀ c o, y ≠ .enqueue c o := by
  cases h with
  | woken hempty =>
    rename_i w n zero
    cases w <;> cases zero <;> exact ⟨rfl, rfl, rfl, fun _ _ => Pc.noConfusion⟩
  | ctlFound hentry =>
    rename_i cmd
    cases cmd with
    | setval n v | setall semnum array => exact ⟨rfl, rfl, rfl, fun _ _ => Pc.noConfusion⟩
    | rmid =>
      dsimp only [Command.start]
      unfold destroyFrom
      split_ifs <;> exact ⟨rfl, rfl, rfl, fun _ _ => Pc.noConfusion⟩
  | _ => exact ⟨rfl, rfl, rfl, fun _ _ => Pc.noConfusion⟩

theorem num_lt_of_blocks {values : List ℤ} (h : testOp values o = .blocks) :
    o.num < values.length := by
  unfold testOp at h
  grind

theorem SemSystem.Queues.enqueue {c : SemopCall} (h : s.Queues) (hpc : s.pc p = .enqueue c o)
    (hpc' : s'.pc = update s.pc p (.release c (.sleeps o)))
    (hqueue : ∀ n zero, s'.queue n zero =
      if n = o.num ∧ zero = decide (o.op = 0) then s.queue o.num (decide (o.op = 0)) ++ [p]
      else s.queue n zero) (hlen : s'.sems.length = s.sems.length) : s'.Queues := by
  have hrestart : ∀ r, (s'.pc r).restarts = (s.pc r).restarts :=
    hpc' ▸ apply_update (by rw [hpc]; rfl)
  -- so far the process did not wait, and so it is on no list
  have hno : ∀ n zero, ¬ (p ∈ s.queue n zero ∨ ∃ r, (s.pc r).restarts = some (n, zero, p)) := by
    intro n zero hmem
    obtain ⟨o', ho', -⟩ := (h.waits_iff p n zero).2 hmem
    rw [hpc] at ho'
    cases ho'
  have hmem : ∀ n zero q, q ∈ s'.queue n zero ↔
      q ∈ s.queue n zero ∨ q = p ∧ n = o.num ∧ zero = decide (o.op = 0) := by
    intro n zero q
    rw [hqueue]
    split_ifs with hhere
    · simp [hhere]
    · simp [hhere]
  constructor
  · intro q n zero
    simp only [hrestart, hmem]
    by_cases hqp : q = p
    · subst hqp
      rw [hpc', update_self, or_right_comm, or_iff_right (hno n zero), and_iff_right rfl]
      constructor
      · rintro ⟨_, ⟨⟩, rfl, rfl⟩
        exact ⟨rfl, rfl⟩
      · rintro ⟨rfl, rfl⟩
        exact ⟨o, rfl, rfl, rfl⟩
    · rw [hpc', update_of_ne hqp, h.waits_iff]
      simp only [hqp, false_and, or_false]
  · intro n zero
    rw [hqueue]
    split_ifs
    · rw [← concat_eq_append, nodup_concat]
      exact ⟨fun hold => hno _ _ (.inl hold), h.nodup _ _⟩
    · exact h.nodup n zero
  · intro r n zero q hr
    rw [hrestart] at hr
    rw [hmem]
    rintro (hold | ⟨rfl, -⟩)
    · exact h.apart r n zero q hr hold
    · exact hno n zero (.inr ⟨r, hr⟩)
  · intro q c' o' hq
    rw [hlen]
    rw [hpc', update_apply] at hq
    split_ifs at hq
    exact h.inside q c' o' hq

theorem SemSystem.Queues.take {w : Waker} {zero : Bool} {qs : List Pid} (hlocks : s.Locks)
    (halive : s.Alive) (h : s.Queues) (hpc : s.pc p = .wake w n zero)
    (hpc' : s'.pc = update s.pc p (.restart w n zero q))
    (hold : s.queue n zero = q :: qs)
    (hqueue : ∀ m z, s'.queue m z = if m = n ∧ z = zero then qs else s.queue m z)
    (hlen : s'.sems.length = s.sems.length) : s'.Queues := by
  have hwaits : ∀ r, (s'.pc r).waits = (s.pc r).waits := hpc' ▸ apply_update (by rw [hpc]; rfl)
  -- nobody was about to restart a process
  have hnone : ∀ r, (s.pc r).restarts = none := by
    intro r
    by_cases hrp : r = p
    · rw [hrp, hpc]
      rfl
    · exact restarts_eq_none_of_ne hlocks halive (by rw [hpc]; rfl) hrp
  have hrestart : ∀ r m z q', (s'.pc r).restarts = some (m, z, q') ↔
      r = p ∧ n = m ∧ zero = z ∧ q = q' := by
    intro r m z q'
    rw [hpc', update_apply]
    split_ifs with hrp
    · simp [hrp, Pc.restarts]
    · simp [hrp, hnone r]
  have hnodup := h.nodup n zero
  rw [hold, nodup_cons] at hnodup
  constructor
  · intro r m z
    rw [Pc.WaitsOn, hwaits, ← Pc.WaitsOn, h.waits_iff, hqueue]
    simp only [hnone, hrestart, exists_eq_left, reduceCtorEq, exists_false, or_false]
    split_ifs with hhere
    · rw [hhere.1, hhere.2, hold, mem_cons, or_comm]
      simp only [true_and, eq_comm]
    · rw [or_iff_left]
      rintro ⟨rfl, rfl, -⟩
      exact hhere ⟨rfl, rfl⟩
  · intro m z
    rw [hqueue]
    split_ifs
    · exact hnodup.2
    · exact h.nodup m z
  · intro r m z q' hr
    obtain ⟨-, rfl, rfl, rfl⟩ := (hrestart r m z q').1 hr
    rw [hqueue, if_pos ⟨rfl, rfl⟩]
    exact hnodup.1
  · intro r c o hr
    rw [hlen]
    rw [hpc', update_apply] at hr
    split_ifs at hr
    exact h.inside r c o hr

theorem SemSystem.Queues.restart {w : Waker} {zero : Bool} {c : SemopCall} (hlocks : s.Locks)
    (halive : s.Alive) (h : s.Queues) (hpc : s.pc p = .restart w n zero q)
    (hq : s.pc q = .suspended c o)
    (hpc' : s'.pc = update (update s.pc q (.lockMap c)) p (.wake w n zero))
    (hqueue : ∀ m z, s'.queue m z = s.queue m z) (hlen : s'.sems.length = s.sems.length) :
    s'.Queues := by
  have hne := (ne_of_suspended hpc hq).symm
  have hp : s'.pc p = .wake w n zero := by rw [hpc', update_self]
  have hq' : s'.pc q = .lockMap c := by
    rw [hpc', update_of_ne hne, update_self]
  have hother : ∀ r, r ≠ p → r ≠ q → s'.pc r = s.pc r := by
    intro r hrp hrq
    rw [hpc', update_of_ne hrp, update_of_ne hrq]
  have hwaits : ∀ r, r ≠ q → (s'.pc r).waits = (s.pc r).waits := by
    intro r hrq
    by_cases hrp : r = p
    · rw [hrp, hp, hpc]
      rfl
    · rw [hother r hrp hrq]
  -- the process was on no list any more
  have htaken : (s.pc p).restarts = some (n, zero, q) := by rw [hpc]; rfl
  have hoff : ∀ m z, q ∉ s.queue m z := by
    intro m z hmem
    obtain ⟨o₁, ho₁, hn₁, hz₁⟩ := (h.waits_iff q n zero).2 (.inr ⟨p, htaken⟩)
    obtain ⟨o₂, ho₂, hn₂, hz₂⟩ := (h.waits_iff q m z).2 (.inl hmem)
    rw [ho₁] at ho₂
    cases ho₂
    rw [← hn₂, ← hz₂, hn₁, hz₁] at hmem
    exact h.apart p n zero q htaken hmem
  have hnone : ∀ r, (s'.pc r).restarts = none := by
    intro r
    by_cases hrp : r = p
    · rw [hrp, hp]
      rfl
    · by_cases hrq : r = q
      · rw [hrq, hq']
        rfl
      · rw [hother r hrp hrq]
        exact restarts_eq_none_of_ne hlocks halive (by rw [hpc]; rfl) hrp
  constructor
  · intro r m z
    simp only [hnone, hqueue, reduceCtorEq, exists_false, or_false]
    by_cases hrq : r = q
    · subst hrq
      refine iff_of_false ?_ (hoff m z)
      rintro ⟨o', ho', -⟩
      rw [hq'] at ho'
      cases ho'
    · rw [Pc.WaitsOn, hwaits r hrq, ← Pc.WaitsOn, h.waits_iff, or_iff_left]
      -- only the process that was taken off was about to be restarted
      rintro ⟨r', hr'⟩
      have hrp : r' = p :=
        waker_unique hlocks halive (Pc.wakesList_of_restarts hr') (by rw [hpc]; rfl)
      rw [hrp, hpc] at hr'
      cases hr'
      exact hrq rfl
  · intro m z
    rw [hqueue]
    exact h.nodup m z
  · intro r m z q' hr
    rw [hnone r] at hr
    cases hr
  · intro r c' o' hr
    rw [hlen]
    rw [hpc', update_apply, update_apply] at hr
    split_ifs at hr
    exact h.inside r c' o' hr

theorem queues_move (hlocks : s.Locks) (halive : s.Alive) (h : s.Queues)
    (hmove : Move semid s p s') : s'.Queues := by
  cases hmove with
  | go undo hpc hgo =>
    obtain ⟨hwaits, hx, hy, hno⟩ := hgo.waits
    exact h.keep hpc rfl (fun _ _ => rfl) rfl hwaits hx hy fun c o hy => absurd hy (hno c o)
  | lockMap hpc hfree | ctlLock hpc hfree | obtain hpc hfree | enter hpc | gone hpc | sleeps hpc
  | clearEntry hpc | ctlUnlock hpc =>
    exact h.keep hpc rfl (fun _ _ => rfl) rfl rfl rfl rfl (by simp)
  | recount hpc hsems =>
    obtain ⟨hlen, hqueue⟩ := recount_same hsems
    exact h.keep hpc rfl hqueue hlen rfl rfl rfl (by simp)
  | blocks ui undo hpc htest =>
    refine h.keep hpc rfl (queueOf_modify (fun zero sem => waiters_count _ zero _ sem) _ _) ?_
      rfl rfl rfl ?_
    · exact length_modify ..
    · intro c' o' heq
      cases heq
      simpa using num_lt_of_blocks htest
  | enqueue hpc =>
    have hlt := h.inside p _ _ hpc
    exact h.enqueue hpc rfl (queueOf_modify_waiters hlt _ (· ++ [p])) (length_modify ..)
  | apply hpc hsem =>
    refine h.keep hpc rfl (queueOf_set hsem ?_) (length_set ..) ?_ rfl ?_ ?_
    · intro zero
      cases zero <;> rfl
    · split <;> rfl
    · split <;> rfl
    · intro c' o' heq
      split at heq <;> cases heq
  | take hpc hqueue =>
    rename_i w n zero q qs
    have hlt := lt_of_queue_eq_cons hqueue
    exact h.take hlocks halive hpc rfl hqueue (queueOf_modify_waiters hlt zero fun _ => qs)
      (length_modify ..)
  | restart hpc hq => exact h.restart hlocks halive hpc hq rfl (fun _ _ => rfl) rfl
  | returns hpc hres =>
    rename_i c e r
    refine h.keep hpc rfl (fun _ _ => rfl) rfl ?_ rfl rfl (by simp)
    cases e with
    | done | failed e => rfl
    | sleeps o => cases hres
  | write semnum hpc hwrites hn =>
    cases hwrites with
    | setval | setall =>
      exact h.keep hpc rfl (queue_write s p _ _ semnum) (length_modify ..) rfl rfl rfl (by simp)
  | free hpc hfrees =>
    cases hfrees with
    | nList =>
      refine h.keep hpc rfl (fun _ _ => rfl) rfl ?_ rfl ?_ ?_ <;> unfold destroyFrom
      · split_ifs <;> rfl
      · split_ifs <;> rfl
      · split_ifs <;> simp
    | zList | lock | base | set => exact h.keep hpc rfl (fun _ _ => rfl) rfl rfl rfl rfl (by simp)

/-! ### Runs -/

/-- The locks, the set and its lists are as they should be. -/
structure SemSystem.Orderly (s : SemSystem) : Prop where
  locks : s.Locks
  alive : s.Alive
  queues : s.Queues

theorem SemSystem.Fresh.queue (h : s.Fresh nsems) (n : ℕ) (z : Bool) : s.queue n z = [] := by
  rw [SemSystem.queue, queueOf, h.sems, getElem?_replicate]
  split_ifs
  · cases z <;> rfl
  · rfl

theorem SemSystem.Fresh.locks (h : s.Fresh nsems) : s.Locks := by
  constructor
  · intro q
    rw [h.idle, h.keymap]
    exact iff_of_false Bool.noConfusion (by simp)
  · intro q
    rw [h.idle, h.lock]
    exact iff_of_false Bool.noConfusion (by simp)

theorem SemSystem.Fresh.alive (h : s.Fresh nsems) : s.Alive := by
  constructor
  · exact fun _ _ => h.entry
  · exact fun _ _ => h.lock
  · intro part hpart
    rw [h.freed] at hpart
    cases hpart

theorem SemSystem.Fresh.queues (h : s.Fresh nsems) : s.Queues := by
  constructor
  · intro q n z
    simp [h.idle, h.queue, Pc.WaitsOn, Pc.waits, Pc.restarts]
  · intro n z
    rw [h.queue]
    exact nodup_nil
  · intro p n z q hp
    rw [h.idle] at hp
    cases hp
  · intro q c o hq
    rw [h.idle] at hq
    cases hq

theorem SemSystem.Fresh.orderly (h : s.Fresh nsems) : s.Orderly :=
  ⟨h.locks, h.alive, h.queues⟩

theorem orderly_step {a : Act} (h : s.Orderly) (halone : RemovesAlone s a.pid)
    (hstep : protocolStep semid s a = some s') : s'.Orderly := by
  have hmove := protocolStep_move hstep
  exact
    { locks := locks_move h.locks hmove
      alive := alive_move h.locks h.alive halone hmove
      queues := queues_move h.locks h.alive h.queues hmove }

/-- A new set of one semaphore. -/
def oneSemaphore : SemSystem := { sems := [semSetup] }

theorem fresh_oneSemaphore : oneSemaphore.Fresh 1 := ⟨rfl, rfl, rfl, rfl, rfl, rfl, fun _ => rfl⟩

end Clib4.SysV
