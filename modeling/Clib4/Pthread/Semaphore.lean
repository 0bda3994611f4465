import Clib4.Pthread.Cond

/-!
# Semaphores

`sem_wait` waits on a condition until the value is positive, and `sem_post` increments it and
signals the condition if someone waits.  If two calls of `sem_post` signal the same waiter, the
value stays positive while another waiter sleeps on.

## Main definitions

* `SemOp`, `SemPc`, `Semaphore`, `semaphoreStep` — the calls and their steps.
* `Fresh` — a signal is not sent to a waiter that has been sent one already.
* `Semaphore.Quiescent` — no thread can do anything by itself.

## Main results

* `Semaphore.users_run` — **a semaphore uses its condition like any other program.**
* `signals_reach_waiters` — **how many waiters are reached, and when no unit is left over.**
-/

namespace Clib4.Pthread

open Interleaving List Function

/-! ### The calls -/

/-- `sem_wait`, `sem_post` and `sem_trywait`. -/
inductive SemOp
  | wait
  | post
  | trywait
  deriving DecidableEq, Repr

/-- Where a thread is: outside, about to lock the mutex, in the body of a call with the mutex
locked, in `pthread_cond_wait`, about to signal the condition, or about to unlock the mutex and
return. -/
inductive SemPc
  | idle
  | lock (op : SemOp)
  | body (op : SemOp)
  | cond (x : WaitPc)
  | signal
  | unlock (result : Option Errno)
  deriving DecidableEq, Repr

def semValueMax : ℕ := 2 ^ 31 - 1

/-- `sem_t`, the threads, and what the calls have returned: an error, or nothing. -/
structure Semaphore where
  cond : CondState := {}
  value : ℕ
  waitersCount : ℕ := 0
  pc : Thread → SemPc := fun _ => .idle
  replies : List (Thread × Option Errno) := []

namespace Semaphore

/-- A thread goes on elsewhere. -/
def goto (s : Semaphore) (p : Thread) (x : SemPc) : Semaphore :=
  { s with pc := update s.pc p x }

/-- The place behind a step of `pthread_cond_wait`: the test of the loop once it has returned. -/
def afterWait : WaitPc → SemPc
  | .outside => .body .wait
  | x => .cond x

/-- The next step of a thread. -/
def advance (s : Semaphore) (p : Thread) : Option Semaphore :=
  match s.pc p with
  | .idle => none
  | .lock op =>
    if s.cond.mutex = none then
      some { s.goto p (.body op) with
        cond.mutex := some p
        waitersCount := if op = .wait then s.waitersCount + 1 else s.waitersCount }
    else none
  | .body .wait =>
    if s.value = 0 then some { s.goto p (.cond .add) with cond := s.cond.prepare p }
    else
      some { s.goto p (.unlock none) with
        waitersCount := s.waitersCount - 1
        value := s.value - 1 }
  | .body .post =>
    if semValueMax ≤ s.value then some (s.goto p (.unlock (some .EOVERFLOW)))
    else
      some { s.goto p (if 0 < s.waitersCount then .signal else .unlock none) with
        value := s.value + 1 }
  | .body .trywait =>
    if 0 < s.value then some { s.goto p (.unlock none) with value := s.value - 1 }
    else some (s.goto p (.unlock (some .EAGAIN)))
  | .cond x =>
    (s.cond.timedwait p x).map fun (c, y) => { s.goto p (afterWait y) with cond := c }
  | .signal => some { s.goto p (.unlock none) with cond := s.cond.broadcast true }
  | .unlock result =>
    some { s.goto p .idle with
      cond.mutex := none
      replies := s.replies ++ [(p, result)] }

end Semaphore

/-- A thread begins a call, or goes on with it, or is interrupted. -/
inductive SemaphoreAct
  | call (p : Thread) (op : SemOp)
  | go (p : Thread)
  | interrupt (p : Thread)
  deriving DecidableEq, Repr

/-- The steps of the threads. -/
def semaphoreStep (s : Semaphore) : SemaphoreAct → Option Semaphore
  | .call p op => if s.pc p = .idle then some (s.goto p (.lock op)) else none
  | .go p => s.advance p
  | .interrupt p => some { s with cond := s.cond.interrupt p }

/-! ### What should hold -/

/-- If some waiter has not been sent its signal, a signal goes to such a waiter. -/
def Fresh (s : Semaphore) (a : SemaphoreAct) : Prop :=
  ∀ p, a = .go p → s.pc p = .signal → (∃ q ∈ s.cond.waiters, s.cond.sent q = false) →
    ∃ h ∈ s.cond.waiters.head?, s.cond.sent h = false

instance (s : Semaphore) (a : SemaphoreAct) : Decidable (Fresh s a) :=
  match a with
  | .go p =>
    decidable_of_iff (s.pc p = .signal → (∃ q ∈ s.cond.waiters, s.cond.sent q = false) →
        ∃ h ∈ s.cond.waiters.head?, s.cond.sent h = false)
      ⟨fun h _ hq => by cases hq; exact h, fun h => h p rfl⟩
  | .call _ _ | .interrupt _ => .isTrue fun _ hq => by cases hq

/-- Every thread is outside, or waits and no signal is pending for it. -/
def Semaphore.Quiescent (s : Semaphore) : Prop :=
  ∀ q, s.pc q = .idle ∨ s.pc q = .cond .wait ∧ s.cond.signals q = false ∧ s.cond.breaks q = false

/-- There is a unit, and a thread that waits and has not been signalled. -/
def Semaphore.Stranded (s : Semaphore) : Prop :=
  0 < s.value ∧ ∃ p, s.pc p = .cond .wait ∧ s.cond.signals p = false

/-! ### The steps -/

/-- What a step of a thread can be. -/
inductive SemaphoreMove (s : Semaphore) (p : Thread) : Semaphore → Prop
  | call (op : SemOp) (hpc : s.pc p = .idle) : SemaphoreMove s p (s.goto p (.lock op))
  | lock (op : SemOp) (hpc : s.pc p = .lock op) (hfree : s.cond.mutex = none) :
    SemaphoreMove s p { s.goto p (.body op) with
      cond.mutex := some p
      waitersCount := if op = .wait then s.waitersCount + 1 else s.waitersCount }
  | sleep (hpc : s.pc p = .body .wait) (hzero : s.value = 0) :
    SemaphoreMove s p { s.goto p (.cond .add) with cond := s.cond.prepare p }
  | take (hpc : s.pc p = .body .wait) (hpos : 0 < s.value) :
    SemaphoreMove s p { s.goto p (.unlock none) with
      waitersCount := s.waitersCount - 1
      value := s.value - 1 }
  | post (hpc : s.pc p = .body .post) :
    SemaphoreMove s p { s.goto p (if 0 < s.waitersCount then .signal else .unlock none) with
      value := s.value + 1 }
  | trytake (hpc : s.pc p = .body .trywait) :
    SemaphoreMove s p { s.goto p (.unlock none) with value := s.value - 1 }
  | refuse (e : Errno) (hpc : s.pc p = .body .post ∨ s.pc p = .body .trywait) :
    SemaphoreMove s p (s.goto p (.unlock (some e)))
  | cond (x y : WaitPc) (c : CondState) (hpc : s.pc p = .cond x)
      (htimed : s.cond.timedwait p x = some (c, y)) :
    SemaphoreMove s p { s.goto p (Semaphore.afterWait y) with cond := c }
  | signal (hpc : s.pc p = .signal) :
    SemaphoreMove s p { s.goto p (.unlock none) with cond := s.cond.broadcast true }
  | leave (result : Option Errno) (hpc : s.pc p = .unlock result) :
    SemaphoreMove s p { s.goto p .idle with
      cond.mutex := none
      replies := s.replies ++ [(p, result)] }

theorem Semaphore.advance_move {s s' : Semaphore} {p : Thread} (h : s.advance p = some s') :
    SemaphoreMove s p s' := by
  unfold advance at h
  cases hpc : s.pc p <;> simp only [hpc] at h
  case idle => cases h
  case lock op =>
    split at h
    case isFalse => cases h
    case isTrue hfree =>
      cases h
      exact .lock op hpc hfree
  case body op =>
    cases op with
    | wait =>
      dsimp only at h
      split_ifs at h with hzero
      · cases h
        exact .sleep hpc hzero
      · cases h
        exact .take hpc (Nat.pos_of_ne_zero hzero)
    | post =>
      dsimp only at h
      split at h
      · cases h
        exact .refuse _ (.inl hpc)
      · cases h
        exact .post hpc
    | trywait =>
      dsimp only at h
      split_ifs at h with hpos
      · cases h
        exact .trytake hpc
      · cases h
        exact .refuse _ (.inr hpc)
  case cond x =>
    obtain ⟨⟨c, y⟩, htimed, rfl⟩ := Option.map_eq_some_iff.1 h
    exact .cond x y c hpc htimed
  case signal =>
    cases h
    exact .signal hpc
  case unlock result =>
    cases h
    exact .leave result hpc

/-! ### The places of the threads -/

namespace SemPc

/-- The places where a thread has the mutex. -/
def holds : SemPc → Bool
  | .body _ | .signal | .unlock _ | .cond .add | .cond .unlock | .cond .remove => true
  | _ => false

/-- The places where the node of a thread is on the list. -/
def onList : SemPc → Bool
  | .cond .unlock | .cond .wait | .cond .lock | .cond .remove => true
  | _ => false

/-- The places between the two changes of `waiters_count`. -/
def counted : SemPc → Bool
  | .body .wait | .cond _ => true
  | _ => false

end SemPc

/-- The mutex, the list and the count agree with the places of the threads. -/
structure SemPlaces (pc : Thread → SemPc) (mutex : Option Thread) (waiters : List Thread)
    (count : ℕ) : Prop where
  held : Held SemPc.holds pc mutex
  listed : Listed SemPc.onList pc waiters
  counted : Counted SemPc.counted pc count

namespace Semaphore

variable {s s' : Semaphore} {p q : Thread} {x : SemPc}

/-- The mutex, the list and the count are right. -/
def Placed (s : Semaphore) : Prop :=
  SemPlaces s.pc s.cond.mutex s.cond.waiters s.waitersCount

theorem Placed.move (h : s.Placed) (hmove : SemaphoreMove s p s') : s'.Placed := by
  obtain ⟨held, listed, counted⟩ := h
  cases hmove with
  | call op hpc | sleep hpc hzero | trytake hpc | signal hpc =>
    exact ⟨held.keep hpc rfl, listed.keep hpc rfl, counted.keep hpc rfl⟩
  | lock op hpc hfree =>
    rw [hfree] at held
    refine ⟨held.take rfl, listed.keep hpc rfl, ?_⟩
    cases op with
    | wait => exact counted.enter (by rw [hpc]; rfl) rfl
    | post | trywait => exact counted.keep hpc rfl
  | take hpc hpos =>
    exact ⟨held.keep hpc rfl, listed.keep hpc rfl,
      counted.exit (by rw [hpc]; rfl) rfl⟩
  | post hpc =>
    refine ⟨held.keep hpc ?_, listed.keep hpc ?_, counted.keep hpc ?_⟩ <;> split_ifs <;> rfl
  | refuse e hpc =>
    rcases hpc with hpc | hpc
    all_goals exact ⟨held.keep hpc rfl, listed.keep hpc rfl, counted.keep hpc rfl⟩
  | cond x y c hpc htimed =>
    cases CondState.timedwait_move htimed with
    | add =>
      exact ⟨held.keep hpc rfl, listed.enter (by rw [hpc]; rfl) rfl, counted.keep hpc rfl⟩
    | unlock hmine =>
      exact ⟨held.give (by rw [hpc]; rfl) rfl, listed.keep hpc rfl, counted.keep hpc rfl⟩
    | wait hwoken =>
      exact ⟨held.keep hpc rfl, listed.keep hpc rfl, counted.keep hpc rfl⟩
    | lock hfree =>
      rw [hfree] at held
      exact ⟨held.take rfl, listed.keep hpc rfl, counted.keep hpc rfl⟩
    | remove =>
      exact ⟨held.keep hpc rfl, listed.exit rfl, counted.keep hpc rfl⟩
  | leave result hpc =>
    exact ⟨held.give (by rw [hpc]; rfl) rfl, listed.keep hpc rfl, counted.keep hpc rfl⟩

/-! ### The semaphore as a user of its condition -/

/-- Where a thread is in `_pthread_cond_timedwait`. -/
def waitPc : SemPc → WaitPc
  | .cond x => x
  | _ => .outside

theorem waitPc_afterWait (y : WaitPc) : waitPc (afterWait y) = y := by
  cases y <;> rfl

/-- The condition, its mutex, and the threads at it. -/
def users (s : Semaphore) : CondSystem := { cond := s.cond, pc := fun q => waitPc (s.pc q) }

theorem users_pc_goto (s : Semaphore) (p : Thread) (x : SemPc) :
    (fun q => waitPc ((s.goto p x).pc q)) = update s.users.pc p (waitPc x) := by
  funext q
  by_cases hq : q = p
  · subst hq
    simp [goto]
  · simp [goto, users, hq]

theorem users_pc_goto_of_outside (hp : waitPc (s.pc p) = .outside) (hx : waitPc x = .outside) :
    (fun q => waitPc ((s.goto p x).pc q)) = s.users.pc := by
  rw [users_pc_goto, hx]
  exact update_eq_self_iff.2 hp.symm

/-- A step of the semaphore is one of the users of the condition, or none of them. -/
theorem Placed.users_move (h : s.Placed) (hmove : SemaphoreMove s p s') :
    s'.users = s.users ∨ ∃ a, condStep s.users a = some s'.users := by
  have hmine : (s.pc p).holds = true → s.cond.mutex = some p := (h.held p).1
  have hsame : ∀ {s' : Semaphore} {x : SemPc}, s'.cond = s.cond → s'.pc = (s.goto p x).pc →
      waitPc (s.pc p) = .outside → waitPc x = .outside → s'.users = s.users := by
    intro s' x hcond hpc hp hx
    unfold users
    rw [hcond, hpc, users_pc_goto_of_outside hp hx]
    rfl
  cases hmove with
  | call op hpc | take hpc hpos | trytake hpc => exact .inl (hsame rfl rfl (by rw [hpc]; rfl) rfl)
  | post hpc => exact .inl (hsame rfl rfl (by rw [hpc]; rfl) (by split_ifs <;> rfl))
  | refuse e hpc =>
    have hp : waitPc (s.pc p) = .outside := by rcases hpc with hpc | hpc <;> rw [hpc] <;> rfl
    exact .inl (hsame rfl rfl hp rfl)
  | lock op hpc hfree =>
    have hp : waitPc (s.pc p) = .outside := by rw [hpc]; rfl
    refine .inr ⟨.lock p, ?_⟩
    simp only [condStep, users, hp, hfree, and_self, if_true]
    rw [users_pc_goto_of_outside hp rfl]
    rfl
  | sleep hpc hzero =>
    have hp : waitPc (s.pc p) = .outside := by rw [hpc]; rfl
    refine .inr ⟨.wait p, ?_⟩
    simp only [condStep, users, hp, hmine (by rw [hpc]; rfl), and_self, if_true]
    rw [users_pc_goto]
    rfl
  | cond x y c hpc htimed =>
    have hp : waitPc (s.pc p) = x := by rw [hpc]; rfl
    refine .inr ⟨.go p, ?_⟩
    simp only [condStep, users, hp, htimed, Option.map_some]
    rw [users_pc_goto, waitPc_afterWait]
    rfl
  | signal hpc =>
    have hp : waitPc (s.pc p) = .outside := by rw [hpc]; rfl
    refine .inr ⟨.signal p, ?_⟩
    simp only [condStep, users, hp, if_true]
    rw [users_pc_goto_of_outside hp rfl]
    rfl
  | leave result hpc =>
    have hp : waitPc (s.pc p) = .outside := by rw [hpc]; rfl
    refine .inr ⟨.unlock p, ?_⟩
    simp only [condStep, users, hp, hmine (by rw [hpc]; rfl), and_self, if_true]
    rw [users_pc_goto_of_outside hp rfl]
    rfl

/-! ### The signals -/

/-- A waiter that has been sent its signal has it pending until it is woken. -/
def Pending (s : Semaphore) : Prop :=
  ∀ q, s.pc q = .cond .unlock ∨ s.pc q = .cond .wait → s.cond.sent q = true →
    s.cond.signals q = true

theorem Pending.keep (h : s.Pending) (hpc : s'.pc = update s.pc p x)
    (hother : ∀ q, q ≠ p → s'.cond.sent q = s.cond.sent q ∧ s'.cond.signals q = s.cond.signals q)
    (hself : x = .cond .unlock ∨ x = .cond .wait → s'.cond.sent p = true →
      s'.cond.signals p = true) : s'.Pending := by
  intro q hq
  rw [hpc, update_apply] at hq
  split_ifs at hq with hqp
  · subst hqp
    exact hself hq
  · rw [(hother q hqp).1, (hother q hqp).2]
    exact h q hq

theorem Pending.move (h : s.Pending) (hmove : SemaphoreMove s p s') : s'.Pending := by
  cases hmove with
  | call op hpc | lock op hpc hfree | take hpc hpos | trytake hpc | refuse e hpc
  | leave result hpc => exact h.keep rfl (fun _ _ => ⟨rfl, rfl⟩) (by simp)
  | sleep hpc hzero =>
    refine h.keep rfl ?_ (by simp)
    intro q hq
    exact ⟨rfl, update_of_ne hq ..⟩
  | post hpc => exact h.keep rfl (fun _ _ => ⟨rfl, rfl⟩) (by split_ifs <;> simp)
  | cond x y c hpc htimed =>
    cases CondState.timedwait_move htimed with
    | add =>
      refine h.keep rfl ?_ ?_
      · intro q hq
        exact ⟨update_of_ne hq .., rfl⟩
      · intro _ hsent
        simp at hsent
    | unlock hmine => exact h.keep rfl (fun _ _ => ⟨rfl, rfl⟩) fun _ => h p (.inl hpc)
    | wait hwoken =>
      refine h.keep rfl ?_ (by simp [afterWait])
      intro q hq
      exact ⟨rfl, update_of_ne hq ..⟩
    | lock hfree | remove => exact h.keep rfl (fun _ _ => ⟨rfl, rfl⟩) (by simp [afterWait])
  | signal hpc =>
    intro q hq hsent
    have hne : q ≠ p := by
      rintro rfl
      simp [goto] at hq
    have hq' : s.pc q = .cond .unlock ∨ s.pc q = .cond .wait := by
      simpa [goto, hne] using hq
    simp only [CondState.broadcast, Bool.or_eq_true] at hsent ⊢
    exact hsent.imp_left (h q hq')

/-! ### The value -/

/-- A thread that is about to sleep has seen the value zero. -/
def SleepsAtZero (s : Semaphore) : Prop := ∀ q, s.pc q = .cond .add → s.value = 0

theorem SleepsAtZero.keep (h : s.SleepsAtZero) (hpc : s'.pc = update s.pc p x)
    (hval : s'.value = s.value) (hx : x ≠ .cond .add) : s'.SleepsAtZero := by
  intro q hq
  rw [hval]
  rw [hpc, update_apply] at hq
  split_ifs at hq
  · exact absurd hq hx
  · exact h q hq

/-- While a thread changes the value, no other one is about to sleep: both have the mutex. -/
theorem Placed.sleepsAtZero (h : s.Placed) (hpc : s'.pc = update s.pc p x)
    (hp : (s.pc p).holds = true) (hx : x ≠ .cond .add) : s'.SleepsAtZero := by
  intro q hq
  exfalso
  rw [hpc, update_apply] at hq
  split_ifs at hq with hqp
  · exact hx hq
  · exact hqp (h.held.unique (by rw [hq]; rfl) hp)

theorem SleepsAtZero.move (h : s.SleepsAtZero) (hplaced : s.Placed)
    (hmove : SemaphoreMove s p s') : s'.SleepsAtZero := by
  cases hmove with
  | call op hpc | lock op hpc hfree | refuse e hpc | signal hpc | leave result hpc =>
    exact h.keep rfl rfl (by simp)
  | sleep hpc hzero => exact fun _ _ => hzero
  | take hpc hpos | trytake hpc => exact hplaced.sleepsAtZero rfl (by rw [hpc]; rfl) (by simp)
  | post hpc => exact hplaced.sleepsAtZero rfl (by rw [hpc]; rfl) (by split_ifs <;> simp)
  | cond x y c hpc htimed =>
    refine h.keep rfl rfl ?_
    cases CondState.timedwait_move htimed <;> simp [afterWait]

/-- A thread that will take a unit, or make another one take it, without another signal: it has
been sent its signal, is about to test the value, or about to send a signal. -/
def Credited (s : Semaphore) (q : Thread) : Prop :=
  (s.pc q).onList = true ∧ s.cond.sent q = true ∨ s.pc q = .body .wait ∨ s.pc q = .signal

/-- Some waiter has not been sent its signal. -/
def Unsent (s : Semaphore) : Prop := ∃ q ∈ s.cond.waiters, s.cond.sent q = false

/-- While some waiter has not been sent its signal, there is such a thread for every unit. -/
def Credits (s : Semaphore) : Prop :=
  s.Unsent → ∃ l : List Thread, l.Nodup ∧ (∀ q ∈ l, s.Credited q) ∧ s.value ≤ l.length

theorem Credits.of_zero (hval : s.value = 0) : s.Credits :=
  fun _ => ⟨[], nodup_nil, by simp, by simp [hval]⟩

theorem Credited.of_ne (h : s.Credited q) (hpc : s'.pc = update s.pc p x) (hq : q ≠ p)
    (hsent : s.cond.sent q = true → s'.cond.sent q = true) : s'.Credited q := by
  have hpc' : s'.pc q = s.pc q := by rw [hpc, update_of_ne hq]
  unfold Credited
  rw [hpc']
  exact h.imp_left fun hor => ⟨hor.1, hsent hor.2⟩

theorem Credits.keep (h : s.Credits) (hunsent : s'.Unsent → s.Unsent)
    (hpc : s'.pc = update s.pc p x)
    (hsent : ∀ q, q ≠ p → s.cond.sent q = true → s'.cond.sent q = true)
    (hself : s.Credited p → s'.Credited p) (hval : s'.value ≤ s.value) : s'.Credits := by
  intro hs'
  obtain ⟨l, hnodup, hcred, hle⟩ := h (hunsent hs')
  refine ⟨l, hnodup, ?_, hval.trans hle⟩
  intro q hq
  by_cases hqp : q = p
  · subst hqp
    exact hself (hcred q hq)
  · exact (hcred q hq).of_ne hpc hqp (hsent q hqp)

theorem not_credited (hpc : s.pc p = x) (hlist : x.onList = false) (htest : x ≠ .body .wait)
    (hsignal : x ≠ .signal) : ¬ s.Credited p := by
  subst hpc
  rintro (⟨hon, -⟩ | heq | heq)
  · rw [hlist] at hon
    cases hon
  · exact htest heq
  · exact hsignal heq

/-- A signal goes to a waiter that has not been sent one: it takes over the credit of the thread
that signals. -/
theorem Credits.signal (h : s.Credits) (hplaced : s.Placed) (hpc : s.pc p = .signal)
    (hfresh : s.Unsent → ∃ w ∈ s.cond.waiters.head?, s.cond.sent w = false) :
    { s.goto p (.unlock none) with cond := s.cond.broadcast true }.Credits := by
  rintro ⟨q, hq, hqsent⟩
  have hunsent : s.Unsent := by
    refine ⟨q, hq, ?_⟩
    simp only [CondState.broadcast, Bool.or_eq_false_iff] at hqsent
    exact hqsent.1
  obtain ⟨l, hnodup, hcred, hle⟩ := h hunsent
  obtain ⟨w, hw, hwsent⟩ := hfresh hunsent
  have hlist : (s.pc w).onList = true := (hplaced.listed.2 w).1 (mem_of_mem_head? hw)
  have hwp : w ≠ p := by
    rintro rfl
    rw [hpc] at hlist
    cases hlist
  have hnot : w ∉ l := by
    intro hmem
    rcases hcred w hmem with ⟨-, hsent⟩ | heq | heq
    · rw [hwsent] at hsent
      cases hsent
    · rw [heq] at hlist
      cases hlist
    · rw [heq] at hlist
      cases hlist
  refine ⟨w :: l.erase p, ?_, ?_, ?_⟩
  · exact nodup_cons.2 ⟨fun hmem => hnot (mem_of_mem_erase hmem), hnodup.erase p⟩
  · intro r hr
    rcases mem_cons.1 hr with rfl | hmem
    · left
      refine ⟨by simpa [goto, hwp] using hlist, ?_⟩
      rw [Option.mem_def] at hw
      simp [CondState.broadcast, hw]
    · have hrp : r ≠ p := fun heq => by
        rw [heq, hnodup.mem_erase_iff] at hmem
        exact hmem.1 rfl
      refine (hcred r (mem_of_mem_erase hmem)).of_ne rfl hrp ?_
      intro hsent
      simp [CondState.broadcast, hsent]
  · change s.value ≤ _
    have herase : l.length - 1 ≤ (l.erase p).length := le_length_erase
    simp only [length_cons]
    omega

theorem Credits.move (h : s.Credits) (hplaced : s.Placed) (hzero : s.SleepsAtZero)
    (hfresh : s.pc p = .signal → s.Unsent → ∃ w ∈ s.cond.waiters.head?, s.cond.sent w = false)
    (hmove : SemaphoreMove s p s') : s'.Credits := by
  -- a step from a place without credit that leaves the list and the bits alone
  have hplain : ∀ {s' : Semaphore} {x : SemPc}, s'.pc = update s.pc p x →
      s'.cond.waiters = s.cond.waiters → s'.cond.sent = s.cond.sent → s'.value ≤ s.value →
      ¬ s.Credited p → s'.Credits := by
    intro s' x hpc hwaiters hsent hval hnot
    refine h.keep ?_ hpc ?_ (fun hc => absurd hc hnot) hval
    · unfold Unsent
      rw [hwaiters, hsent]
      exact id
    · intro q _
      rw [hsent]
      exact id
  cases hmove with
  | call op hpc | lock op hpc hfree | leave result hpc =>
    exact hplain rfl rfl rfl le_rfl (not_credited hpc rfl nofun nofun)
  | sleep hpc hval => exact Credits.of_zero hval
  | take hpc hpos =>
    intro hunsent
    obtain ⟨l, hnodup, hcred, hle⟩ := h hunsent
    refine ⟨l.erase p, hnodup.erase p, ?_, ?_⟩
    · intro q hq
      rw [hnodup.mem_erase_iff] at hq
      exact (hcred q hq.2).of_ne rfl hq.1 id
    · change s.value - 1 ≤ _
      have herase : l.length - 1 ≤ (l.erase p).length := le_length_erase
      omega
  | post hpc =>
    intro hunsent
    obtain ⟨q, hq, -⟩ := id hunsent
    -- someone is counted, so that the thread goes on to signal
    have hcount : 0 < s.waitersCount := by
      apply hplaced.counted.pos (p := q)
      have hlist := (hplaced.listed.2 q).1 hq
      cases hpcq : s.pc q <;> rw [hpcq] at hlist <;> first | rfl | cases hlist
    obtain ⟨l, hnodup, hcred, hle⟩ := h hunsent
    have hnot : p ∉ l := fun hmem =>
      not_credited hpc rfl nofun nofun (hcred p hmem)
    refine ⟨p :: l, nodup_cons.2 ⟨hnot, hnodup⟩, ?_, Nat.succ_le_succ hle⟩
    intro r hr
    rcases mem_cons.1 hr with rfl | hmem
    · right
      right
      simp [goto, hcount]
    · exact (hcred r hmem).of_ne rfl (fun heq => hnot (heq ▸ hmem)) id
  | trytake hpc =>
    exact hplain rfl rfl rfl (Nat.sub_le ..) (not_credited hpc rfl nofun nofun)
  | refuse e hpc =>
    refine hplain rfl rfl rfl le_rfl ?_
    rcases hpc with hpc | hpc
    all_goals exact not_credited hpc rfl nofun nofun
  | cond x y c hpc htimed =>
    cases CondState.timedwait_move htimed with
    | add => exact Credits.of_zero (hzero p hpc)
    | remove =>
      refine h.keep ?_ rfl (fun _ _ => id) (fun _ => .inr (.inl ?_)) le_rfl
      · rintro ⟨q, hq, hsent⟩
        exact ⟨q, mem_of_mem_erase hq, hsent⟩
      · simp [goto, afterWait]
    | unlock hmine | wait hwoken | lock hfree =>
      refine h.keep id rfl (fun _ _ => id) ?_ le_rfl
      simp [Credited, goto, afterWait, hpc, SemPc.onList]
  | signal hpc => exact h.signal hplaced hpc (hfresh hpc)

/-! ### Whole runs -/

/-- All of this. -/
structure Sound (s : Semaphore) : Prop where
  placed : s.Placed
  pending : s.Pending
  zero : s.SleepsAtZero
  credits : s.Credits

theorem sound_init (value : ℕ) : Sound { value := value } where
  placed := ⟨fun _ => by simp [SemPc.holds], ⟨nodup_nil, fun _ => by simp [SemPc.onList]⟩,
    [], ⟨nodup_nil, fun _ => by simp [SemPc.counted]⟩, rfl⟩
  pending := by simp [Pending]
  zero := by simp [SleepsAtZero]
  credits := by simp [Credits, Unsent]

theorem Sound.move (h : s.Sound)
    (hfresh : s.pc p = .signal → s.Unsent → ∃ w ∈ s.cond.waiters.head?, s.cond.sent w = false)
    (hmove : SemaphoreMove s p s') : s'.Sound where
  placed := h.placed.move hmove
  pending := h.pending.move hmove
  zero := h.zero.move h.placed hmove
  credits := h.credits.move h.placed h.zero hfresh hmove

theorem Sound.step {a : SemaphoreAct} (h : s.Sound) (hfresh : Fresh s a)
    (hstep : semaphoreStep s a = some s') : s'.Sound := by
  cases a with
  | call p op =>
    simp only [semaphoreStep] at hstep
    split_ifs at hstep with hpc
    cases hstep
    exact h.move (fun heq => by rw [hpc] at heq; cases heq) (.call op hpc)
  | go p => exact h.move (hfresh p rfl) (advance_move hstep)
  | interrupt p =>
    cases hstep
    exact ⟨h.placed, h.pending, h.zero, h.credits⟩

/-- **A semaphore uses its condition.**  Whatever the threads do with a semaphore, its condition
and its mutex go through a run of threads that use them. -/
theorem users_run {value : ℕ} {acts : List SemaphoreAct}
    (hrun : run semaphoreStep { value := value } acts = some s) :
    ∃ as, run condStep {} as = some s.users := by
  suffices h : s.Placed ∧ ∃ as, run condStep {} as = some s.users from h.2
  refine invariant (I := fun s : Semaphore => s.Placed ∧ ∃ as, run condStep {} as = some s.users)
    (P := fun _ _ => True) ?_ ⟨(sound_init value).placed, [], rfl⟩
    (along_of_forall fun _ _ _ => trivial) hrun
  rintro s₁ a s₂ ⟨hplaced, as, has⟩ - hstep
  have hnext : s₂.Placed ∧
      (s₂.users = s₁.users ∨ ∃ b, condStep s₁.users b = some s₂.users) := by
    cases a with
    | call p op =>
      simp only [semaphoreStep] at hstep
      split_ifs at hstep with hpc
      cases hstep
      exact ⟨hplaced.move (.call op hpc), hplaced.users_move (.call op hpc)⟩
    | go p => exact ⟨hplaced.move (advance_move hstep), hplaced.users_move (advance_move hstep)⟩
    | interrupt p =>
      cases hstep
      exact ⟨hplaced, .inr ⟨.interrupt p, rfl⟩⟩
  refine ⟨hnext.1, ?_⟩
  rcases hnext.2 with hsame | ⟨b, hb⟩
  · exact ⟨as, by rw [hsame]; exact has⟩
  · exact ⟨as ++ [b], run_append.2 ⟨_, has, by rw [run_cons_of_some hb]; rfl⟩⟩

/-- In a quiescent state nobody is on its way, so that there is no unit if someone waits. -/
theorem Sound.not_stranded (h : s.Sound) (hquiet : s.Quiescent) : ¬ s.Stranded := by
  rintro ⟨hpos, p, hpc, hsignal⟩
  have hunsent : s.Unsent := by
    refine ⟨p, (h.placed.listed.2 p).2 (by rw [hpc]; rfl), ?_⟩
    by_contra hsent
    rw [h.pending p (.inr hpc) (by simpa using hsent)] at hsignal
    cases hsignal
  obtain ⟨l, -, hcred, hle⟩ := h.credits hunsent
  obtain ⟨q, hq⟩ := exists_mem_of_length_pos (hpos.trans_le hle)
  rcases hquiet q with hidle | ⟨hwait, hnone, -⟩
  · exact not_credited hidle rfl nofun nofun (hcred q hq)
  · rcases hcred q hq with ⟨-, hsent⟩ | heq | heq
    · rw [h.pending q (.inr hwait) hsent] at hnone
      cases hnone
    · rw [hwait] at heq
      cases heq
    · rw [hwait] at heq
      cases heq

end Semaphore

/-- **How many waiters are reached, and when no unit is left over.**  If a condition is signalled
`k` times while it has at least `k` waiters and none of them takes its node off, then `k` distinct
ones have been sent their signal exactly if `k` is one at most.  A semaphore that is quiescent has
no unit left while a thread waits for one, if no signal on the way went to a waiter that had been
sent one already while there was another one. -/
theorem signals_reach_waiters (s s' : CondSystem) (acts : List CondAct) (value : ℕ)
    (calls : List SemaphoreAct) (t : Semaphore) :
    (run condStep s acts = some s' → Along condStep KeepsWaiters s acts →
      signalCalls acts ≤ s.cond.waiters.length →
      (signalCalls acts ≤ (signalTargets s acts).dedup.length ↔ signalCalls acts ≤ 1)) ∧
    (run semaphoreStep { value := value } calls = some t →
      Along semaphoreStep Fresh { value := value } calls → t.Quiescent → ¬ t.Stranded) := by
  constructor
  · intro hrun hkeeps hblocked
    exact signalTargets_distinct hrun hkeeps hblocked
  · intro hrun hfresh hquiet
    have hsound : t.Sound := invariant (fun _ _ _ h hf hs => h.step hf hs)
      (Semaphore.sound_init value) hfresh hrun
    exact hsound.not_stranded hquiet

/-- The steps of a thread that goes to sleep in `sem_wait`. -/
def sleepSteps (p : Thread) : List SemaphoreAct := [.call p .wait, .go p, .go p, .go p, .go p]

theorem users_run_sleeper :
    ∃ s, run semaphoreStep { value := 0 } (sleepSteps 0) = some s ∧ s.cond.waiters ≠ [] ∧
      ∃ as, run condStep {} as = some s.users :=
  ⟨_, rfl, by decide, @Semaphore.users_run _ 0 (sleepSteps 0) rfl⟩

/-- The steps of `sem_post` while someone waits. -/
def postSteps (p : Thread) : List SemaphoreAct := [.call p .post, .go p, .go p, .go p, .go p]

/-- The steps of a thread that has been signalled, until `sem_wait` returns. -/
def wakeSteps (p : Thread) : List SemaphoreAct := [.go p, .go p, .go p, .go p, .go p]

/-- Two threads that wait for a condition. -/
def twoWaiters : CondSystem where
  cond := { waiters := [0, 1] }
  pc := update (update (fun _ => .outside) 0 .wait) 1 .wait

/-- One unit for two threads that sleep. -/
def oneUnit : List SemaphoreAct := sleepSteps 0 ++ sleepSteps 1 ++ postSteps 2 ++ wakeSteps 0

/-- One signal for two waiters, and one unit for two threads. -/
theorem signals_reach_waiters_one :
    (signalCalls [.signal 2] ≤ (signalTargets twoWaiters [.signal 2]).dedup.length ↔
      signalCalls [.signal 2] ≤ 1) ∧
    ∃ t, run semaphoreStep { value := 0 } oneUnit = some t ∧ t.pc 1 = .cond .wait ∧
      ¬ t.Stranded := by
  have h := signals_reach_waiters twoWaiters
    { twoWaiters with cond := twoWaiters.cond.broadcast true } [.signal 2] 0 oneUnit
  refine ⟨(h { value := 0 }).1 rfl (by decide) (by decide), _, rfl, rfl,
    (h _).2 rfl (by decide +kernel) ?_⟩
  intro q
  rcases q with _ | _ | _ | q
  · exact .inl rfl
  · exact .inr ⟨rfl, rfl, rfl⟩
  · exact .inl rfl
  · exact .inl rfl

/-- Two signals for two waiters go to the first one, and two units for two threads that sleep in
`sem_wait` leave the second one asleep, with a unit left. -/
theorem second_signal_wasted :
    (signalCalls [.signal 2, .signal 2] = 2 ∧ twoWaiters.cond.waiters = [0, 1] ∧
      signalTargets twoWaiters [.signal 2, .signal 2] = [0, 0]) ∧
    ∃ s, run semaphoreStep { value := 0 }
        (sleepSteps 0 ++ sleepSteps 1 ++ postSteps 2 ++ postSteps 2 ++ wakeSteps 0) = some s ∧
      s.replies = [(2, none), (2, none), (0, none)] ∧ s.Quiescent ∧ s.Stranded := by
  refine ⟨⟨rfl, rfl, rfl⟩, _, rfl, rfl, ?_, by decide, 1, rfl, rfl⟩
  intro q
  rcases q with _ | _ | _ | q
  · exact .inl rfl
  · exact .inr ⟨rfl, rfl, rfl⟩
  · exact .inl rfl
  · exact .inl rfl

end Clib4.Pthread
