import Clib4.Pthread.Once

/-!
# Barriers

One counter serves a round of a barrier while it fills and while it drains.  It is the number of
threads inside while there are fewer than the barrier's count, and once the last one has come it is
`PTHREAD_BARRIER_FLAG` and the number of threads that are still inside.  A thread that comes in the
meantime waits at the gate until all have left.

The mutex makes each part of a call up to a wait, or to the end, one step.  A thread that waits may
wake up at any time, so that the broadcasts play no role here.

## Main definitions

* `BarrierEvent`, `Barrier`, `barrierInit`, `barrierStep` — barriers and the calls.
* `RoundsKept` — the rounds are as they should be.

## Main results

* `barrier_rounds` — **the rounds are kept**, for a count up to `PTHREAD_BARRIER_FLAG`.
* `barrier_overfull` — above that they are not.
-/

namespace Clib4.Pthread

open Interleaving List Function

/-! ### The calls -/

/-- `PTHREAD_BARRIER_FLAG`. -/
def barrierFlag : UInt32 := 2147483648

/-- `PTHREAD_BARRIER_SERIAL_THREAD`. -/
def barrierSerialThread : ℤ := 1

/-- A thread is counted for a round, or returns from it. -/
inductive BarrierEvent
  | entered (p : Thread) (round : ℕ)
  | returned (p : Thread) (round : ℕ) (result : ℤ)
  deriving DecidableEq, Repr

/-- Where a thread is: outside, before the mutex, in the first loop, or in the second one of a
call that is counted for a round. -/
inductive BarrierPc
  | idle
  | called
  | gate
  | inside (round : ℕ)
  deriving DecidableEq, Repr

open BarrierPc

/-- `pthread_barrier_t` and the threads, with the number of rounds that have been filled and what
has happened. -/
structure Barrier where
  currHeight : UInt32
  totalHeight : UInt32
  pc : Thread → BarrierPc := fun _ => .idle
  round : ℕ := 0
  events : List BarrierEvent := []

/-- `pthread_barrier_init`. -/
def barrierInit (count : UInt32) : Except Errno Barrier :=
  if count = 0 then .error .EINVAL
  else .ok { currHeight := count, totalHeight := barrierFlag }

namespace Barrier

/-- A thread goes on elsewhere. -/
def goto (s : Barrier) (p : Thread) (x : BarrierPc) : Barrier :=
  { s with pc := Function.update s.pc p x }

/-- The second loop, and what follows. -/
def secondLoop (s : Barrier) (p : Thread) (r : ℕ) : Barrier :=
  if s.totalHeight < barrierFlag then s.goto p (.inside r)
  else
    { s.goto p .idle with
      totalHeight := s.totalHeight - 1
      events := s.events ++ [.returned p r 0] }

/-- The counter with one thread more; the flag is taken off by the first one. -/
def nextHeight (s : Barrier) : UInt32 :=
  (if s.totalHeight = barrierFlag then 0 else s.totalHeight) + 1

/-- A thread is counted. -/
def countIn (s : Barrier) (p : Thread) : Barrier :=
  { s with
    totalHeight := s.nextHeight
    events := s.events ++ [.entered p s.round] }

/-- The last thread of a round sets the flag and returns. -/
def complete (s : Barrier) (p : Thread) : Barrier :=
  { s.goto p .idle with
    totalHeight := s.totalHeight + (barrierFlag - 1)
    round := s.round + 1
    events := s.events ++ [.returned p s.round barrierSerialThread] }

/-- The first loop, and what follows. -/
def firstLoop (s : Barrier) (p : Thread) : Barrier :=
  if barrierFlag < s.totalHeight then s.goto p .gate
  else if (s.countIn p).totalHeight = s.currHeight then (s.countIn p).complete p
  else (s.countIn p).secondLoop p s.round

end Barrier

/-- A thread calls `pthread_barrier_wait`, or obtains the mutex at the start or after it has been
woken. -/
inductive BarrierAct
  | call (p : Thread)
  | go (p : Thread)
  deriving DecidableEq, Repr

/-- The steps of the threads. -/
def barrierStep (s : Barrier) : BarrierAct → Option Barrier
  | .call p => if s.pc p = .idle then some (s.goto p .called) else none
  | .go p =>
    match s.pc p with
    | .idle => none
    | .called => some (s.firstLoop p)
    | .gate => some (s.firstLoop p)
    | .inside r => some (s.secondLoop p r)

/-! ### What should hold -/

namespace BarrierEvent

/-- A thread is counted for the round. -/
def enters (r : ℕ) : BarrierEvent → Bool
  | .entered _ r' => r' == r
  | .returned _ _ _ => false

/-- A call that was counted for the round returns. -/
def returns (r : ℕ) : BarrierEvent → Bool
  | .entered _ _ => false
  | .returned _ r' _ => r' == r

/-- It returns `PTHREAD_BARRIER_SERIAL_THREAD`. -/
def serial (r : ℕ) : BarrierEvent → Bool
  | .entered _ _ => false
  | .returned _ r' result => r' == r && result == barrierSerialThread

end BarrierEvent

/-- How many threads have been counted for a round. -/
def enteredIn (events : List BarrierEvent) (r : ℕ) : ℕ := events.countP (BarrierEvent.enters r)

/-- How many calls have returned from it. -/
def returnedFrom (events : List BarrierEvent) (r : ℕ) : ℕ :=
  events.countP (BarrierEvent.returns r)

/-- How many of them with `PTHREAD_BARRIER_SERIAL_THREAD`. -/
def serialFrom (events : List BarrierEvent) (r : ℕ) : ℕ := events.countP (BarrierEvent.serial r)

section

variable (events : List BarrierEvent) (p : Thread) (k r : ℕ) (result : ℤ)

@[simp] theorem enteredIn_entered : enteredIn (events ++ [.entered p k]) r =
    enteredIn events r + if k = r then 1 else 0 := by
  simp [enteredIn, BarrierEvent.enters]

@[simp] theorem enteredIn_returned : enteredIn (events ++ [.returned p k result]) r =
    enteredIn events r := by
  simp [enteredIn, BarrierEvent.enters]

@[simp] theorem returnedFrom_entered : returnedFrom (events ++ [.entered p k]) r =
    returnedFrom events r := by
  simp [returnedFrom, BarrierEvent.returns]

@[simp] theorem returnedFrom_returned : returnedFrom (events ++ [.returned p k result]) r =
    returnedFrom events r + if k = r then 1 else 0 := by
  simp [returnedFrom, BarrierEvent.returns]

@[simp] theorem serialFrom_entered : serialFrom (events ++ [.entered p k]) r =
    serialFrom events r := by
  simp [serialFrom, BarrierEvent.serial]

@[simp] theorem serialFrom_returned : serialFrom (events ++ [.returned p k result]) r =
    serialFrom events r + if k = r ∧ result = barrierSerialThread then 1 else 0 := by
  simp [serialFrom, BarrierEvent.serial]

end

/-- The rounds of a barrier with the count `c` are kept. -/
structure RoundsKept (c : ℕ) (events : List BarrierEvent) : Prop where
  /-- When a thread returns from a round, `c` threads have been counted for it, and everyone who
  is counted later is counted for a later round. -/
  full : ∀ before p r result later, events = before ++ .returned p r result :: later →
    enteredIn before r = c ∧ ∀ q r', .entered q r' ∈ later → r < r'
  /-- When a thread is counted for a round, all rounds before are full. -/
  inTurn : ∀ before p r later, events = before ++ .entered p r :: later →
    ∀ k < r, enteredIn before k = c
  /-- A thread is counted once for a round. -/
  once : ∀ p r, events.count (.entered p r) ≤ 1
  /-- Not more than the `c` calls return from a round. -/
  atMost : ∀ r, returnedFrom events r ≤ c
  /-- As soon as a call has returned, exactly one has returned `PTHREAD_BARRIER_SERIAL_THREAD`. -/
  serial : ∀ r, 0 < returnedFrom events r → serialFrom events r = 1
  /-- All others return 0. -/
  results : ∀ p r result, .returned p r result ∈ events → result = barrierSerialThread ∨ result = 0

/-! ### What has happened -/

theorem split_concat {α : Type*} {l before later : List α} {x e : α}
    (h : l ++ [e] = before ++ x :: later) :
    before = l ∧ x = e ∧ later = [] ∨
      ∃ later', later = later' ++ [e] ∧ l = before ++ x :: later' := by
  rcases eq_nil_or_concat later with rfl | ⟨later', e', rfl⟩
  · left
    obtain ⟨hl, hx⟩ := append_inj' h rfl
    exact ⟨hl.symm, (List.cons.inj hx).1.symm, rfl⟩
  · right
    have h' : l ++ [e] = (before ++ x :: later') ++ [e'] := by
      rw [h]
      simp
    obtain ⟨hl, he⟩ := append_inj' h' rfl
    exact ⟨later', by rw [(List.cons.inj he).1]; simp, hl⟩

/-- The events up to now: `round` rounds are full, `n` threads have been counted for the next one,
and `m` have not yet returned from the last one. -/
structure Logged (c round n m : ℕ) (events : List BarrierEvent) : Prop where
  entered : ∀ r, enteredIn events r = if r < round then c else if r = round then n else 0
  returned : ∀ r, returnedFrom events r + (if r + 1 = round then m else 0) =
    if r < round then c else 0
  serial : ∀ r, serialFrom events r = if r < round then 1 else 0
  results : ∀ p r result, .returned p r result ∈ events → result = barrierSerialThread ∨ result = 0
  full : ∀ before p r result later, events = before ++ .returned p r result :: later →
    enteredIn before r = c ∧ ∀ q r', .entered q r' ∈ later → r < r'
  inTurn : ∀ before p r later, events = before ++ .entered p r :: later →
    ∀ k < r, enteredIn before k = c

namespace Logged

variable {c round n m : ℕ} {events : List BarrierEvent} {p : Thread}

theorem nil : Logged c 0 0 0 [] where
  entered := by simp [enteredIn]
  returned := by simp [returnedFrom]
  serial := by simp [serialFrom]
  results := by simp
  full := by simp
  inTurn := by simp

section

variable (h : Logged c round n m events)

include h

/-- Whoever has returned has returned from a round that is full. -/
theorem lt_of_returned {r : ℕ} {result : ℤ} (hmem : .returned p r result ∈ events) : r < round := by
  by_contra hr
  have hpos : 0 < returnedFrom events r :=
    countP_pos_iff.2 ⟨_, hmem, by simp [BarrierEvent.returns]⟩
  have hcount := h.returned r
  rw [if_neg hr] at hcount
  omega

theorem enter : Logged c round (n + 1) m (events ++ [.entered p round]) where
  entered := by
    intro r
    rw [enteredIn_entered, h.entered r]
    grind
  returned := by
    intro r
    rw [returnedFrom_entered, h.returned r]
  serial := by
    intro r
    rw [serialFrom_entered, h.serial r]
  results := by
    intro q r result hmem
    exact h.results q r result (by simpa using hmem)
  full := by
    intro before q r result later heq
    rcases split_concat heq with ⟨-, hnot, -⟩ | ⟨later', rfl, hold⟩
    · cases hnot
    · obtain ⟨hcount, hlater⟩ := h.full before q r result later' hold
      refine ⟨hcount, ?_⟩
      intro q' r' hmem
      rcases mem_append.1 hmem with hmem | hmem
      · exact hlater q' r' hmem
      · cases mem_singleton.1 hmem
        have hret : .returned q r result ∈ events := by rw [hold]; simp
        exact h.lt_of_returned hret
  inTurn := by
    intro before q r later heq k hk
    rcases split_concat heq with ⟨rfl, heq', -⟩ | ⟨later', rfl, hold⟩
    · cases heq'
      rw [h.entered k, if_pos hk]
    · exact h.inTurn before q r later' hold k hk

theorem full_return {r : ℕ} {result : ℤ} (hcount : enteredIn events r = c) :
    ∀ before q k result' later,
      events ++ [.returned p r result] = before ++ .returned q k result' :: later →
      enteredIn before k = c ∧ ∀ q' r', .entered q' r' ∈ later → k < r' := by
  intro before q k result' later heq
  rcases split_concat heq with ⟨rfl, heq', rfl⟩ | ⟨later', rfl, hold⟩
  · cases heq'
    exact ⟨hcount, by simp⟩
  · obtain ⟨hcount', hlater⟩ := h.full before q k result' later' hold
    exact ⟨hcount', fun q' r' hmem => hlater q' r' (by simpa using hmem)⟩

theorem inTurn_return {r : ℕ} {result : ℤ} :
    ∀ before q k later, events ++ [.returned p r result] = before ++ .entered q k :: later →
      ∀ j < k, enteredIn before j = c := by
  intro before q k later heq
  rcases split_concat heq with ⟨-, heq', -⟩ | ⟨later', rfl, hold⟩
  · cases heq'
  · exact h.inTurn before q k later' hold

end

/-- The last thread of a round returns at once; all others are still inside. -/
theorem serial_return (h : Logged c round c 0 events) (hc : 0 < c) :
    Logged c (round + 1) 0 (c - 1) (events ++ [.returned p round barrierSerialThread]) where
  entered := by
    intro r
    rw [enteredIn_returned, h.entered r]
    grind
  returned := by
    intro r
    have hold := h.returned r
    rw [returnedFrom_returned]
    grind
  serial := by
    intro r
    rw [serialFrom_returned, h.serial r]
    grind
  results := by
    intro q r result hmem
    rcases mem_append.1 hmem with hmem | hmem
    · exact h.results q r result hmem
    · cases mem_singleton.1 hmem
      exact .inl rfl
  full := h.full_return (by rw [h.entered]; simp)
  inTurn := h.inTurn_return

theorem zero_return {r : ℕ} (h : Logged c (r + 1) n (m + 1) events) :
    Logged c (r + 1) n m (events ++ [.returned p r 0]) where
  entered := by
    intro k
    rw [enteredIn_returned, h.entered k]
  returned := by
    intro k
    have hold := h.returned k
    rw [returnedFrom_returned]
    grind
  serial := by
    intro k
    rw [serialFrom_returned, h.serial k]
    simp [barrierSerialThread]
  results := by
    intro q k result hmem
    rcases mem_append.1 hmem with hmem | hmem
    · exact h.results q k result hmem
    · cases mem_singleton.1 hmem
      exact .inr rfl
  full := h.full_return (by rw [h.entered, if_pos (Nat.lt_succ_self r)])
  inTurn := h.inTurn_return

end Logged

/-! ### The counter -/

/-- The thread is in the second loop of a call that is counted for the round. -/
def BarrierPc.isInside (r : ℕ) : BarrierPc → Bool
  | .inside r' => r' == r
  | _ => false

/-- The counter while `n` threads have been counted for a round that fills, and while `m` threads
have not yet left one that drains. -/
inductive Level (height round : ℕ) (pc : Thread → BarrierPc) (c : ℕ) : ℕ → ℕ → Prop
  | filling (n : ℕ) (hn : n < c) (hheight : height = if n = 0 then 2 ^ 31 else n)
      (hinside : Counted (isInside round) pc n)
      (hround : ∀ q k, pc q = .inside k → k = round) : Level height round pc c n 0
  | draining (r m : ℕ) (hm : m + 1 < c) (hlast : round = r + 1)
      (hheight : height = 2 ^ 31 + (m + 1))
      (hinside : Counted (isInside r) pc (m + 1))
      (hround : ∀ q k, pc q = .inside k → k = r) : Level height round pc c 0 (m + 1)

/-- Who has been counted for the round that fills is inside, and nobody has been counted twice. -/
structure CountedOnce (round : ℕ) (pc : Thread → BarrierPc) (events : List BarrierEvent) :
    Prop where
  placed : ∀ p r, .entered p r ∈ events → r < round ∨ pc p = .inside r
  once : ∀ p r, events.count (.entered p r) ≤ 1

/-- The state of a barrier with the count `c`. -/
structure Barrier.Kept (s : Barrier) (c n m : ℕ) : Prop where
  count : s.currHeight.toNat = c
  level : Level s.totalHeight.toNat s.round s.pc c n m
  logged : Logged c s.round n m s.events
  counted : CountedOnce s.round s.pc s.events

theorem barrierFlag_toNat : barrierFlag.toNat = 2 ^ 31 := rfl

theorem none_inside {pc : Thread → BarrierPc} {r : ℕ} (hzero : Counted (isInside r) pc 0)
    (hround : ∀ q k, pc q = .inside k → k = r) (q : Thread) (k : ℕ) : pc q ≠ .inside k := by
  intro hq
  have hfalse := hzero.zero q
  rw [hq, hround q k hq] at hfalse
  simp [isInside] at hfalse

theorem counted_zero {pc : Thread → BarrierPc} (h : ∀ q k, pc q ≠ .inside k) (r : ℕ) :
    Counted (isInside r) pc 0 := by
  refine ⟨[], ⟨nodup_nil, ?_⟩, rfl⟩
  intro q
  cases hq : pc q with
  | inside k => exact absurd hq (h q k)
  | _ => simp [isInside]

theorem isInside_eq_false {x : BarrierPc} (hx : ∀ k, x ≠ .inside k) (r : ℕ) :
    x.isInside r = false := by
  cases x with
  | inside k => exact absurd rfl (hx k)
  | _ => rfl

theorem inside_update {pc : Thread → BarrierPc} {p : Thread} {x : BarrierPc} {r : ℕ}
    (hround : ∀ q k, pc q = .inside k → k = r) (hx : ∀ k, x = .inside k → k = r) :
    ∀ q k, Function.update pc p x q = .inside k → k = r := by
  intro q k hq
  rw [update_apply] at hq
  split_ifs at hq
  · exact hx k hq
  · exact hround q k hq

namespace Level

variable {height round c n m : ℕ} {pc : Thread → BarrierPc} {p : Thread} {x : BarrierPc}

theorem outside (h : Level height round pc c n m) (hp : ∀ k, pc p ≠ .inside k)
    (hx : ∀ k, x ≠ .inside k) : Level height round (Function.update pc p x) c n m := by
  have hsame : ∀ r, x.isInside r = (pc p).isInside r := by
    intro r
    rw [isInside_eq_false hx, isInside_eq_false hp]
  cases h with
  | filling n hn hheight hin hround =>
    exact .filling n hn hheight (hin.keep rfl (hsame _))
      (inside_update hround fun k hk => absurd hk (hx k))
  | draining r m hm hlast hheight hin hround =>
    exact .draining r m hm hlast hheight (hin.keep rfl (hsame _))
      (inside_update hround fun k hk => absurd hk (hx k))

theorem enter (hmore : n + 1 < c) (hp : ∀ k, pc p ≠ .inside k)
    (hin : Counted (isInside round) pc n)
    (hround : ∀ q k, pc q = .inside k → k = round) :
    Level (n + 1) round (Function.update pc p (.inside round)) c (n + 1) 0 := by
  refine .filling (n + 1) hmore ?_ ?_ (inside_update hround ?_)
  · rw [if_neg (Nat.succ_ne_zero n)]
  · exact hin.enter (isInside_eq_false hp _) (by simp [isInside])
  · intro k hk
    exact (inside.inj hk).symm

/-- A round that is full, as long as somebody has to leave it. -/
theorem of_full {r : ℕ} (hm : m < c) (hin : Counted (isInside r) pc m)
    (hround : ∀ q k, pc q = .inside k → k = r) : Level (2 ^ 31 + m) (r + 1) pc c 0 m := by
  cases m with
  | zero =>
    have hnone := none_inside hin hround
    exact .filling 0 hm (by simp) (counted_zero hnone _) fun q k hq => absurd hq (hnone q k)
  | succ m => exact .draining r m hm rfl rfl hin hround

theorem complete (hp : ∀ k, pc p ≠ .inside k)
    (hin : Counted (isInside round) pc n)
    (hround : ∀ q k, pc q = .inside k → k = round) :
    Level (2 ^ 31 + n) (round + 1) (Function.update pc p .idle) (n + 1) 0 n :=
  .of_full (Nat.lt_succ_self n) (hin.keep rfl (isInside_eq_false hp _).symm)
    (inside_update hround (by simp))

theorem leave {r : ℕ} (hm : m + 1 < c) (hpc : pc p = .inside r)
    (hin : Counted (isInside r) pc (m + 1))
    (hround : ∀ q k, pc q = .inside k → k = r) :
    Level (2 ^ 31 + m) (r + 1) (Function.update pc p .idle) c 0 m :=
  .of_full (Nat.lt_of_succ_lt hm) (hin.exit (by rw [hpc]; simp [isInside]) rfl)
    (inside_update hround (by simp))

end Level

namespace CountedOnce

variable {round : ℕ} {pc : Thread → BarrierPc} {events : List BarrierEvent} {p : Thread}
  {x : BarrierPc}

section

variable (h : CountedOnce round pc events)

include h

theorem update (hself : ∀ r, pc p = .inside r → r < round) :
    CountedOnce round (Function.update pc p x) events where
  placed := by
    intro q r hmem
    rcases h.placed q r hmem with hlt | hin
    · exact .inl hlt
    · by_cases hqp : q = p
      · subst hqp
        exact .inl (hself r hin)
      · exact .inr (by rw [update_of_ne hqp]; exact hin)
  once := h.once

theorem returned (p : Thread) (r : ℕ) (result : ℤ) :
    CountedOnce round pc (events ++ [.returned p r result]) where
  placed := by
    intro q k hmem
    exact h.placed q k (by simpa using hmem)
  once := by
    intro q k
    simpa using h.once q k

theorem enter (hp : ∀ k, pc p ≠ .inside k) :
    CountedOnce round (Function.update pc p (.inside round)) (events ++ [.entered p round]) where
  placed := by
    intro q r hmem
    rcases mem_append.1 hmem with hold | hnew
    · exact (h.update fun k hk => absurd hk (hp k)).placed q r hold
    · cases mem_singleton.1 hnew
      exact .inr (update_self ..)
  once := by
    intro q r
    rw [count_append, count_singleton]
    by_cases heq : BarrierEvent.entered p round = .entered q r
    · cases heq
      have hnot : .entered p round ∉ events := by
        intro hmem
        rcases h.placed p round hmem with hlt | hin
        · exact Nat.lt_irrefl _ hlt
        · exact hp _ hin
      rw [count_eq_zero_of_not_mem hnot]
      simp
    · have hfalse : (BarrierEvent.entered p round == .entered q r) = false := by simpa using heq
      simpa [hfalse] using h.once q r

theorem next (hround : ∀ q k, pc q = .inside k → k = round) :
    CountedOnce (round + 1) pc events where
  placed := by
    intro q r hmem
    rcases h.placed q r hmem with hlt | hin
    · exact .inl (Nat.lt_succ_of_lt hlt)
    · exact .inl (Nat.lt_succ_of_le (hround q r hin).le)
  once := h.once

end

end CountedOnce

/-! ### The calls keep the rounds -/

namespace Barrier

variable {s s' : Barrier} {c n m : ℕ} {p : Thread} {x : BarrierPc}

theorem Kept.outside (h : s.Kept c n m) (hp : ∀ k, s.pc p ≠ .inside k) (hx : ∀ k, x ≠ .inside k) :
    (s.goto p x).Kept c n m where
  count := h.count
  level := h.level.outside hp hx
  logged := h.logged
  counted := h.counted.update fun k hk => absurd hk (hp k)

theorem nextHeight_of_filling (hn : n < 2 ^ 31)
    (hheight : s.totalHeight.toNat = if n = 0 then 2 ^ 31 else n) :
    s.nextHeight.toNat = n + 1 := by
  have hflag : s.totalHeight = barrierFlag ↔ n = 0 := by
    rw [← UInt32.toNat_inj, hheight, barrierFlag_toNat]
    split_ifs with h0 <;> omega
  unfold nextHeight
  by_cases h0 : n = 0
  · rw [if_pos (hflag.2 h0), h0]
    rfl
  · rw [if_neg (mt hflag.1 h0), UInt32.toNat_add, hheight, if_neg h0]
    change (n + 1) % 2 ^ 32 = n + 1
    omega

theorem complete_currHeight (s : Barrier) (p : Thread) :
    (s.complete p).currHeight = s.currHeight := by
  unfold Barrier.complete
  rfl

theorem Kept.complete (h : s.Kept (n + 1) n 0) (hc : n + 1 ≤ 2 ^ 31)
    (hp : ∀ k, s.pc p ≠ .inside k) (hnext : s.nextHeight.toNat = n + 1)
    (hin : Counted (isInside s.round) s.pc n)
    (hround : ∀ q k, s.pc q = .inside k → k = s.round) :
    ((s.countIn p).complete p).Kept (n + 1) 0 n := by
  have hheight : (s.nextHeight + (barrierFlag - 1)).toNat = 2 ^ 31 + n := by
    have hone : (1 : UInt32) ≤ barrierFlag := by
      rw [UInt32.le_iff_toNat_le, barrierFlag_toNat, UInt32.toNat_one]
      omega
    rw [UInt32.toNat_add, UInt32.toNat_sub_of_le _ _ hone, barrierFlag_toNat,
      UInt32.toNat_one]
    omega
  have hround' : ∀ q k, Function.update s.pc p (.inside s.round) q = .inside k → k = s.round :=
    inside_update hround fun k hk => (inside.inj hk).symm
  have hself : ∀ r, Function.update s.pc p (.inside s.round) p = .inside r → r < s.round + 1 :=
    fun r hr => Nat.lt_succ_of_le (hround' p r hr).le
  have hcounted := (((h.counted.enter hp).next hround').update (x := .idle) hself).returned
    p s.round barrierSerialThread
  rw [update_idem] at hcounted
  constructor
  · rw [complete_currHeight]
    exact h.count
  · simp only [Barrier.complete, countIn]
    rw [hheight]
    exact Level.complete hp hin hround
  · exact h.logged.enter.serial_return (Nat.succ_pos n)
  · simpa only [Barrier.complete, countIn, goto] using hcounted

theorem Kept.stay (h : s.Kept c n 0) (hp : ∀ k, s.pc p ≠ .inside k)
    (hnext : s.nextHeight.toNat = n + 1) (hmore : n + 1 < c)
    (hin : Counted (isInside s.round) s.pc n)
    (hround : ∀ q k, s.pc q = .inside k → k = s.round) :
    ((s.countIn p).goto p (.inside s.round)).Kept c (n + 1) 0 := by
  constructor
  · exact h.count
  · change Level s.nextHeight.toNat s.round (Function.update s.pc p (.inside s.round)) c (n + 1) 0
    rw [hnext]
    exact Level.enter hmore hp hin hround
  · exact h.logged.enter
  · exact h.counted.enter hp

theorem firstLoop_of_filling (hn : n < 2 ^ 31)
    (hheight : s.totalHeight.toNat = if n = 0 then 2 ^ 31 else n) :
    s.firstLoop p = if n + 1 = s.currHeight.toNat then (s.countIn p).complete p
      else (s.countIn p).secondLoop p s.round := by
  have hgate : ¬ barrierFlag < s.totalHeight := by
    rw [UInt32.lt_iff_toNat_lt, hheight, barrierFlag_toNat]
    split_ifs <;> omega
  have htot : (s.countIn p).totalHeight.toNat = n + 1 := nextHeight_of_filling hn hheight
  unfold Barrier.firstLoop
  rw [if_neg hgate, ← htot]
  simp only [UInt32.toNat_inj]

theorem secondLoop_of_lt {r : ℕ} (hheight : s.totalHeight.toNat < 2 ^ 31) :
    s.secondLoop p r = s.goto p (.inside r) := by
  unfold Barrier.secondLoop
  rw [if_pos]
  exact hheight

theorem secondLoop_of_le {r : ℕ} (hheight : 2 ^ 31 ≤ s.totalHeight.toNat) :
    s.secondLoop p r = { s.goto p .idle with
      totalHeight := s.totalHeight - 1
      events := s.events ++ [.returned p r 0] } := by
  unfold Barrier.secondLoop
  rw [if_neg]
  exact Nat.not_lt.2 hheight

theorem Kept.firstLoop (h : s.Kept c n m) (hc : c ≤ 2 ^ 31) (hp : ∀ k, s.pc p ≠ .inside k) :
    ∃ n' m', (s.firstLoop p).Kept c n' m' := by
  cases hlevel : h.level with
  | filling n hn hheight hin hround =>
    have hnext := nextHeight_of_filling (s := s) (hn.trans_le hc) hheight
    rw [firstLoop_of_filling (hn.trans_le hc) hheight, h.count]
    by_cases hfull : n + 1 = c
    · subst hfull
      rw [if_pos rfl]
      exact ⟨0, n, h.complete hc hp hnext hin hround⟩
    · have hmore : n + 1 < c := lt_of_le_of_ne hn hfull
      have hwait : (s.countIn p).totalHeight.toNat < 2 ^ 31 := by
        change s.nextHeight.toNat < 2 ^ 31
        omega
      rw [if_neg hfull, secondLoop_of_lt hwait]
      exact ⟨n + 1, 0, h.stay hp hnext hmore hin hround⟩
  | draining r m hm hlast hheight hin hround =>
    have hgate : barrierFlag < s.totalHeight := by
      rw [UInt32.lt_iff_toNat_lt, barrierFlag_toNat]
      omega
    unfold Barrier.firstLoop
    rw [if_pos hgate]
    exact ⟨0, m + 1, h.outside hp (by simp)⟩

theorem Kept.secondLoop (h : s.Kept c n m) (hc : c ≤ 2 ^ 31) {r : ℕ} (hpc : s.pc p = .inside r) :
    ∃ n' m', (s.secondLoop p r).Kept c n' m' := by
  cases hlevel : h.level with
  | filling n hn hheight hin hround =>
    -- the thread is one of those that are counted, so that the flag is off
    have hpos : 0 < n := by
      apply hin.pos (p := p)
      rw [hpc, hround p r hpc]
      simp [isInside]
    have hwait : s.totalHeight.toNat < 2 ^ 31 := by
      rw [hheight, if_neg (by omega)]
      omega
    have hsame : s.goto p (.inside r) = s := by
      unfold goto
      rw [← hpc, update_eq_self]
    rw [secondLoop_of_lt hwait, hsame]
    exact ⟨n, 0, h⟩
  | draining r' m hm hlast hheight hin hround =>
    obtain rfl := hround p r hpc
    have hleave : 2 ^ 31 ≤ s.totalHeight.toNat := by
      omega
    have hheight' : (s.totalHeight - 1).toNat = 2 ^ 31 + m := by
      rw [UInt32.toNat_sub_of_le, UInt32.toNat_one]
      · omega
      · rw [UInt32.le_iff_toNat_le, UInt32.toNat_one]
        omega
    have hself : ∀ k, s.pc p = .inside k → k < s.round := by
      intro k hk
      rw [hround p k hk, hlast]
      exact Nat.lt_succ_self r
    have hlogged := h.logged
    rw [secondLoop_of_le hleave]
    refine ⟨0, m, ?_, ?_, ?_, ?_⟩
    · exact h.count
    · simp only [goto]
      rw [hheight', hlast]
      exact Level.leave hm hpc hin hround
    · simp only [goto]
      rw [hlast] at hlogged ⊢
      exact hlogged.zero_return
    · exact (h.counted.update hself).returned p r 0

theorem Kept.step {a : BarrierAct} (h : s.Kept c n m) (hc : c ≤ 2 ^ 31)
    (hstep : barrierStep s a = some s') : ∃ n' m', s'.Kept c n' m' := by
  cases a with
  | call p =>
    simp only [barrierStep] at hstep
    split_ifs at hstep with hpc
    cases hstep
    exact ⟨n, m, h.outside (by simp [hpc]) (by simp)⟩
  | go p =>
    cases hpc : s.pc p with
    | idle => simp [barrierStep, hpc] at hstep
    | called | gate =>
      simp only [barrierStep, hpc, Option.some.injEq] at hstep
      subst hstep
      exact h.firstLoop hc (by simp [hpc])
    | inside r =>
      simp only [barrierStep, hpc, Option.some.injEq] at hstep
      subst hstep
      exact h.secondLoop hc hpc

theorem Kept.roundsKept (h : s.Kept c n m) : RoundsKept c s.events where
  full := h.logged.full
  inTurn := h.logged.inTurn
  once := h.counted.once
  atMost := by
    intro r
    have hcount := h.logged.returned r
    split_ifs at hcount <;> omega
  serial := by
    intro r hpos
    have hcount := h.logged.returned r
    rw [h.logged.serial r]
    split_ifs at hcount ⊢ <;> omega
  results := h.logged.results

end Barrier

theorem barrierInit_kept {count : UInt32} {s : Barrier} (h : barrierInit count = .ok s) :
    s.Kept count.toNat 0 0 := by
  unfold barrierInit at h
  split_ifs at h with hzero
  cases h
  have hpos : 0 < count.toNat := by
    rw [Nat.pos_iff_ne_zero]
    intro h0
    exact hzero (UInt32.toNat_inj.1 h0)
  refine ⟨rfl, .filling 0 hpos ?_ (counted_zero (by simp) 0) (by simp), .nil, by simp, by simp⟩
  rw [if_pos rfl, barrierFlag_toNat]

/-- **The rounds are kept.**  For a count up to `PTHREAD_BARRIER_FLAG`, any number of threads and
any interleaving, no thread returns from a round before as many threads as the count have been
counted for it; one of them returns `PTHREAD_BARRIER_SERIAL_THREAD` and the others 0; and a thread
that calls again is counted for a later round, and only once the rounds before that are full. -/
theorem barrier_rounds {count : UInt32} {s₀ s : Barrier} {acts : List BarrierAct}
    (hinit : barrierInit count = .ok s₀) (hcount : count.toNat ≤ 2 ^ 31)
    (hrun : run barrierStep s₀ acts = some s) : RoundsKept count.toNat s.events := by
  have hkept : ∃ n m, s.Kept count.toNat n m := by
    refine invariant (I := fun s : Barrier => ∃ n m, s.Kept count.toNat n m)
      (P := fun _ _ => True) ?_ ⟨0, 0, barrierInit_kept hinit⟩
      (along_of_forall fun _ _ _ => trivial) hrun
    rintro s₁ a s₂ ⟨n, m, h⟩ - hstep
    exact h.step hcount hstep
  obtain ⟨n, m, h⟩ := hkept
  exact h.roundsKept

/-- Two threads meet at a barrier for two. -/
theorem barrier_rounds_two :
    ∃ s₀ s, barrierInit 2 = .ok s₀ ∧
      run barrierStep s₀ [.call 0, .go 0, .call 1, .go 0, .go 1, .go 0] = some s ∧
      s.events = [.entered 0 0, .entered 1 0, .returned 1 0 1, .returned 0 0 0] ∧
      RoundsKept 2 s.events := by
  have hevents : (run barrierStep { currHeight := 2, totalHeight := barrierFlag }
      [.call 0, .go 0, .call 1, .go 0, .go 1, .go 0]).map Barrier.events =
      some [.entered 0 0, .entered 1 0, .returned 1 0 1, .returned 0 0 0] := by
    decide +kernel
  obtain ⟨s, hrun, hs⟩ := Option.map_eq_some_iff.1 hevents
  exact ⟨_, s, rfl, hrun, hs, @barrier_rounds 2 _ s _ rfl (by decide) hrun⟩

/-! ### Counts above the flag -/

/-- The steps of `n` threads that come one after the other. -/
def comeSteps : ℕ → List BarrierAct
  | 0 => []
  | n + 1 => comeSteps n ++ [.call n, .go n]

/-- The state after `n` threads have come to a barrier for more than that. -/
structure Barrier.Come (s : Barrier) (count : UInt32) (n : ℕ) : Prop where
  curr : s.currHeight = count
  height : s.totalHeight.toNat = if n = 0 then 2 ^ 31 else n
  round : s.round = 0
  idle : ∀ q, n ≤ q → s.pc q = .idle
  entered : enteredIn s.events 0 = n

theorem Barrier.Come.next {s : Barrier} {count : UInt32} {n : ℕ} (h : s.Come count n)
    (hn : n < 2 ^ 31) (hcount : n + 1 < count.toNat) :
    run barrierStep s [.call n, .go n] =
      some (((s.goto n .called).countIn n).secondLoop n 0) := by
  have hcall : barrierStep s (.call n) = some (s.goto n .called) := by
    simp [barrierStep, h.idle n le_rfl]
  have hgo : barrierStep (s.goto n .called) (.go n) = some ((s.goto n .called).firstLoop n) := by
    simp [barrierStep, goto]
  have hheight : (s.goto n .called).totalHeight.toNat = if n = 0 then 2 ^ 31 else n := h.height
  have hcurr : (s.goto n .called).currHeight = count := h.curr
  have hround : (s.goto n .called).round = 0 := h.round
  rw [run_cons_of_some hcall, run_cons_of_some hgo, run_nil, firstLoop_of_filling hn hheight,
    hcurr, if_neg (Nat.ne_of_lt hcount), hround]

theorem Barrier.Come.run {count : UInt32} (hcount : 2 ^ 31 < count.toNat) :
    ∀ n, n < 2 ^ 31 → ∃ s, Interleaving.run barrierStep
      { currHeight := count, totalHeight := barrierFlag } (comeSteps n) = some s ∧
        s.Come count n := by
  intro n
  induction n with
  | zero =>
    intro _
    refine ⟨{ currHeight := count, totalHeight := barrierFlag }, rfl, ?_⟩
    exact { curr := rfl, height := barrierFlag_toNat, round := rfl, idle := fun _ _ => rfl,
            entered := rfl }
  | succ n ih =>
    intro hn
    obtain ⟨s, hrun, hcome⟩ := ih (Nat.lt_of_succ_lt hn)
    have hstep := hcome.next (Nat.lt_of_succ_lt hn) (hn.trans hcount)
    have hnext : ((s.goto n .called).countIn n).totalHeight.toNat = n + 1 :=
      nextHeight_of_filling (s := s.goto n .called) (Nat.lt_of_succ_lt hn) hcome.height
    rw [secondLoop_of_lt (by rw [hnext]; exact hn)] at hstep
    refine ⟨_, run_append.2 ⟨s, hrun, hstep⟩, hcome.curr, ?_, hcome.round, ?_, ?_⟩
    · rw [if_neg (Nat.succ_ne_zero n)]
      exact hnext
    · intro q hq
      have hqn : q ≠ n := by omega
      simp only [goto, countIn, update_of_ne hqn]
      exact hcome.idle q (by omega)
    · change enteredIn (s.events ++ [.entered n s.round]) 0 = n + 1
      rw [enteredIn_entered, hcome.entered, hcome.round, if_pos rfl]

/-- **A count above the flag.**  There the counter reaches the flag while the round still fills:
the thread that makes it do so returns at once, although threads are missing. -/
theorem barrier_overfull {count : UInt32} (hcount : 2 ^ 31 < count.toNat) :
    ∃ p s, run barrierStep { currHeight := count, totalHeight := barrierFlag }
        (comeSteps (2 ^ 31)) = some s ∧
      .returned p 0 0 ∈ s.events ∧ enteredIn s.events 0 < count.toNat := by
  obtain ⟨n, hn⟩ : ∃ n, 2 ^ 31 = n + 1 := Nat.exists_eq_succ_of_ne_zero (by norm_num)
  have hlt : n < 2 ^ 31 := by omega
  obtain ⟨s, hrun, hcome⟩ := Barrier.Come.run hcount n hlt
  have hstep := hcome.next hlt (by omega)
  have hnext : ((s.goto n .called).countIn n).totalHeight.toNat = n + 1 :=
    Barrier.nextHeight_of_filling (s := s.goto n .called) hlt hcome.height
  have hevents : (((s.goto n .called).countIn n).secondLoop n 0).events =
      s.events ++ [.entered n 0] ++ [.returned n 0 0] := by
    rw [Barrier.secondLoop_of_le (by rw [hnext, hn]), ← hcome.round]
    rfl
  have hall : run barrierStep { currHeight := count, totalHeight := barrierFlag }
      (comeSteps (n + 1)) = some _ := run_append.2 ⟨s, hrun, hstep⟩
  rw [← hn] at hall
  refine ⟨n, _, hall, ?_, ?_⟩
  · rw [hevents]
    exact mem_append_right _ (mem_singleton_self _)
  · rw [hevents, enteredIn_returned, enteredIn_entered, hcome.entered, if_pos rfl, ← hn]
    exact hcount

/-! ### What the counter does not give -/

/-- Thread 1 completes a round and comes again, while thread 0 is still inside. -/
def comeAgain : List BarrierAct := [.call 0, .go 0, .call 1, .go 1, .call 1, .go 1]

/-- Thread 0 leaves, and two others have a round before thread 1 wakes up. -/
def overtake : List BarrierAct := [.go 0, .call 2, .go 2, .call 3, .go 3, .go 2, .go 1]

/-- A thread that comes again before the round has drained waits at the gate.  While it does, two
others have a round of their own: it is counted for the round after that.  And at a barrier for one
thread more than the flag, a thread returns from a round that is not full. -/
theorem barrier_overtaken :
    (∃ s s', run barrierStep { currHeight := 2, totalHeight := barrierFlag } comeAgain = some s ∧
      s.pc 1 = .gate ∧ s.pc 0 = .inside 0 ∧
      s.events = [.entered 0 0, .entered 1 0, .returned 1 0 1] ∧
      run barrierStep s overtake = some s' ∧
      s'.events = s.events ++ [.returned 0 0 0, .entered 2 1, .entered 3 1, .returned 3 1 1,
        .returned 2 1 0, .entered 1 2]) ∧
    ∃ p s, run barrierStep { currHeight := 2147483649, totalHeight := barrierFlag }
        (comeSteps (2 ^ 31)) = some s ∧
      .returned p 0 0 ∈ s.events ∧ enteredIn s.events 0 < (2147483649 : UInt32).toNat := by
  constructor
  · refine ⟨_, _, rfl, ?_, ?_, ?_, rfl, ?_⟩ <;> decide +kernel
  · exact @barrier_overfull 2147483649 (by decide)

end Clib4.Pthread
