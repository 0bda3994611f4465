import Clib4.Socket.SelectExact

/-!
# The timeout of `__select`

If nothing becomes ready, `__select` returns at a pass that ends when the timeout is over.  The date
at which it stops is the date of the start plus the timeout, in whole ticks, so it does not come
later than the timeout asks for.

A timeout of zero asks for one pass.  With sockets that pass is a call of `WaitSelect`; with files
alone the clock is only looked at if the timeout is not zero, and the passes go on for ever.

## Main definitions

* `Honours` — the call returns zero in time.

## Main results

* `honours_iff` — **the call returns in time if and only if the timeout is positive or a socket is
  watched.**
-/

namespace Clib4.Socket

open Clib4.Time

/-- Nothing that the caller asks for is ready, and no signal has arrived. -/
structure Quiet (c : Call) (p : Pass) : Prop where
  signals : p.signals = 0
  sockets : ∃ answer, p.waitSelect = .ready answer ∧ ∀ k s, c.Asked k s → ¬ s ∈ answer k
  files : ∀ k i, ¬ c.TestedReady p k i

/-- The clock has come to the start plus the timeout, in microseconds; a tick has 20000 of them. -/
def TimeIsUp (c : Call) (tv : Timeval) (p : Pass) : Prop :=
  20000 * c.start.toTicks + tv.toMicros ≤ 20000 * p.now.toTicks

/-- The call returns zero after finitely many passes: with a timeout of zero after at most one, and
otherwise not after the first one that ends when the time is up. -/
def Honours (c : Call) (tv : Timeval) (answers : ℕ → Pass) : Prop :=
  ∃ n o, c.select ((List.range n).map answers) = some o ∧ o.result = 0 ∧
    (tv.toMicros = 0 → n ≤ 1) ∧ (0 < tv.toMicros → ∀ k, TimeIsUp c tv (answers k) → n ≤ k + 1)

/-- The pass ends the call. -/
def Ends (c : Call) (p : Pass) : Prop :=
  ∃ e, c.pass c.mapping (c.mapping.sockets, c.mapping.files) p = .inr e

section Pass

variable {c : Call} {p : Pass} {tv : Timeval}

theorem Quiet.not_reports (h : Quiet c p) {k : Kind} {s : ℕ} (hasked : c.Asked k s) :
    ¬ p.Reports k s := by
  rintro ⟨answer, hanswer, hs⟩
  obtain ⟨answer', hanswer', hnot⟩ := h.sockets
  rw [hanswer] at hanswer'
  cases hanswer'
  exact hnot k s hasked hs

theorem Quiet.result_eq_zero (h : Quiet c p) {e : Ending}
    (he : c.pass c.mapping (c.mapping.sockets, c.mapping.files) p = .inr e) : e.result = 0 := by
  have hcount : (∀ k s, s ∈ e.sockets k ↔ s ∈ c.mapping.sockets k ∧ p.Reports k s) →
      bitCount e.sockets = 0 := by
    intro hmem
    refine bitCount_eq_zero_iff.2 fun k s hs => ?_
    obtain ⟨hs, hreports⟩ := (hmem k s).1 hs
    exact h.not_reports (Call.mem_sockets.1 hs) hreports
  obtain ⟨e', he', hcases⟩ | ⟨hinl, -⟩ := pass_cases c p
  · rw [he] at he'
    obtain rfl := Sum.inr.inj he'
    obtain ⟨-, herror⟩ | hpolled | hunpolled := hcases
    · obtain ⟨answer, hanswer, -⟩ := h.sockets
      rw [herror] at hanswer
      cases hanswer
    · have hempty : ∀ k, (e.files k).bits = ∅ := fun k =>
        Finset.eq_empty_iff_forall_notMem.2 fun i hi => h.files k i ((hpolled.files k i).1 hi)
      rw [hpolled.result, hcount hpolled.sockets, hempty, hempty]
      rfl
    · rw [hunpolled.result, hcount hunpolled.sockets]
      rfl
  · rw [he] at hinl
    cases hinl

section

variable (htimeout : c.timeout = some tv)

include htimeout

theorem hasTime_iff : c.hasTime = true ↔ 0 < tv.toMicros := by
  rw [Call.hasTime, htimeout, decide_eq_true_iff, Timeval.toMicros]
  omega

/-- **A pass that ends when the time is up is the last one.** -/
theorem isOver_of_le (h : TimeIsUp c tv p) : c.isOver p = true := by
  have hstop : c.stopWhen = addDates c.start.toDateStamp (timevalToDatestamp tv) := by
    rw [Call.stopWhen, htimeout]
  have hnormal : c.stopWhen.Normal := by
    rw [hstop]
    exact (fixDatestamp_spec _).1
  rw [Call.isOver, decide_eq_true_iff,
    compareDates_le_zero_iff ⟨p.now.minute_lt, p.now.tick_lt⟩ hnormal, hstop,
    toTicks_addDates_timeval]
  -- the part of a tick is dropped
  simp only [TimeIsUp, Timeval.toMicros, ticksPerSecond] at h ⊢
  omega

/-- The loops end when the clock has come to the date at which they stop. -/
theorem ends_of_isOver (htime : c.hasTime = true) (hover : c.isOver p = true) : Ends c p := by
  have hsome : c.timeout.isSome = true := by rw [htimeout]; rfl
  unfold Ends Call.pass
  split
  · split
    · unfold Call.passBoth
      rw [if_neg (by simp)]
      simp only
      split
      · exact ⟨_, rfl⟩
      split
      · exact ⟨_, rfl⟩
      split
      · exact ⟨_, rfl⟩
      split
      · exact ⟨_, rfl⟩
      rw [if_pos ⟨hsome, hover⟩]
      exact ⟨_, rfl⟩
    · exact ⟨_, rfl⟩
  · unfold Call.passFiles
    simp only
    split
    · exact ⟨_, rfl⟩
    split
    · exact ⟨_, rfl⟩
    rw [if_pos ⟨htime, hover⟩]
    exact ⟨_, rfl⟩

theorem ends_of_sockets (htime : c.hasTime ≠ true) (hsockets : c.WatchesSockets) : Ends c p := by
  unfold Ends Call.pass
  rw [if_pos (Call.totalSocket_pos.2 hsockets), if_neg]
  · exact ⟨_, rfl⟩
  · rintro ⟨-, hnone | h⟩
    · rw [htimeout] at hnone
      cases hnone
    · exact htime h

end

/-- Without time and without sockets, a quiet pass is not the last one. -/
theorem Quiet.inl_of_files (h : Quiet c p) (htime : c.hasTime ≠ true)
    (hsockets : ¬ c.WatchesSockets) :
    c.pass c.mapping (c.mapping.sockets, c.mapping.files) p =
      .inl (c.mapping.sockets, c.mapping.files) := by
  obtain ⟨e, he, -⟩ | ⟨hinl, -⟩ := pass_cases c p
  · have hzero := h.result_eq_zero he
    rw [Call.pass, if_neg fun h => hsockets (Call.totalSocket_pos.1 h)] at he
    unfold Call.passFiles at he
    simp only [h.signals] at he
    rw [if_neg (by simp)] at he
    split at he
    · next hpos =>
      obtain rfl := Sum.inr.inj he
      change ((_ : ℕ) : ℤ) = 0 at hzero
      omega
    · rw [if_neg fun h => htime h.1] at he
      cases he
  · exact hinl

theorem Quiet.not_ends (h : Quiet c p) (htime : c.hasTime ≠ true)
    (hsockets : ¬ c.WatchesSockets) : ¬ Ends c p := by
  rintro ⟨e, he⟩
  rw [h.inl_of_files htime hsockets] at he
  cases he

/-- A pass that does not end the call goes on with the sets restored. -/
theorem inl_of_not_ends (h : ¬ Ends c p) :
    c.pass c.mapping (c.mapping.sockets, c.mapping.files) p =
      .inl (c.mapping.sockets, c.mapping.files) := by
  obtain ⟨e, he, -⟩ | ⟨hinl, -⟩ := pass_cases c p
  · exact absurd ⟨e, he⟩ h
  · exact hinl

end Pass

/-! ### The passes -/

section Passes

variable {c : Call} {answers : ℕ → Pass}

theorem select_of_ends (hquiet : ∀ n, Quiet c (answers n)) (hends : ∃ k, Ends c (answers k)) :
    ∃ n o, c.select ((List.range n).map answers) = some o ∧ o.result = 0 ∧
      ∀ k, Ends c (answers k) → n ≤ k + 1 := by
  classical
  obtain ⟨e, he⟩ := Nat.find_spec hends
  have hearlier : ∀ j < Nat.find hends, c.pass c.mapping (c.mapping.sockets, c.mapping.files)
      (answers j) = .inl (c.mapping.sockets, c.mapping.files) :=
    fun j hj => inl_of_not_ends (Nat.find_min hends hj)
  have hrun := (Polling.run_range_eq_some (steady_pass c) answers (Nat.find hends + 1)).2
    ⟨Nat.find hends, rfl, hearlier, he⟩
  refine ⟨Nat.find hends + 1, c.finish c.mapping e, ?_, (hquiet _).result_eq_zero he, ?_⟩
  · rw [Call.select, hrun]
    rfl
  · exact fun k hk => Nat.succ_le_succ (Nat.find_min' hends hk)

theorem select_eq_none (hends : ∀ k, ¬ Ends c (answers k)) (n : ℕ) :
    c.select ((List.range n).map answers) = none := by
  rw [Option.eq_none_iff_forall_ne_some]
  intro o hselect
  obtain ⟨e, hrun, -⟩ := Option.map_eq_some_iff.1 hselect
  obtain ⟨k, -, -, hlast⟩ := (Polling.run_range_eq_some (steady_pass c) answers n).1 hrun
  exact hends k ⟨e, hlast⟩

end Passes

/-- **The call returns in time if and only if the timeout is positive or a socket is watched.** -/
theorem honours_iff (c : Call) (tv : Timeval) (htimeout : c.timeout = some tv)
    (answers : ℕ → Pass) (hquiet : ∀ n, Quiet c (answers n))
    (hunbounded : ∀ t, ∃ n, t ≤ (answers n).now.toTicks) :
    Honours c tv answers ↔ 0 < tv.toMicros ∨ c.WatchesSockets := by
  have htime := hasTime_iff htimeout
  constructor
  · rintro ⟨n, o, hselect, -, -, -⟩
    by_contra hnot
    rw [not_or, ← htime] at hnot
    rw [select_eq_none fun k => (hquiet k).not_ends hnot.1 hnot.2] at hselect
    cases hselect
  · intro h
    by_cases hpos : 0 < tv.toMicros
    · have hup : ∀ k, TimeIsUp c tv (answers k) → Ends c (answers k) :=
        fun k hk => ends_of_isOver htimeout (htime.2 hpos) (isOver_of_le htimeout hk)
      obtain ⟨k, hk⟩ := hunbounded (c.start.toTicks + tv.toMicros)
      obtain ⟨n, o, hselect, hzero, hfirst⟩ :=
        select_of_ends hquiet ⟨k, hup k (by unfold TimeIsUp; omega)⟩
      exact ⟨n, o, hselect, hzero, fun h => absurd h hpos.ne', fun _ j hj => hfirst j (hup j hj)⟩
    · have hends : Ends c (answers 0) :=
        ends_of_sockets htimeout (fun h => hpos (htime.1 h)) (h.resolve_left hpos)
      obtain ⟨n, o, hselect, hzero, hfirst⟩ := select_of_ends hquiet ⟨0, hends⟩
      exact ⟨n, o, hselect, hzero, fun _ => hfirst 0 hends, fun h => absurd h hpos⟩

/-- The caller asks whether there is something to read from a console. -/
def consoleCall (tv : Timeval) : Call where
  numFds := 1
  table i := if i < 1 then some { read := true, isInteractive := true, file := 1 } else none
  request k := if k = .read then FdSet.empty.set 0 else .empty
  timeout := some tv
  signalMask := none
  examined _ _ := none
  start := ⟨⟨0, 0, 0⟩, show 0 < minutesPerDay by decide, show 0 < ticksPerMinute by decide⟩
  checkAbortEnabled := false
  breakSignalMask := 0

/-- There is not, on any day. -/
def quietPass (day : ℕ) : Pass where
  signals := 0
  waitSelect := .ready fun _ => .empty
  waitForChar _ _ := false
  examine _ := none
  now := ⟨⟨day, 0, 0⟩, show 0 < minutesPerDay by decide, show 0 < ticksPerMinute by decide⟩

theorem quiet_quietPass (tv : Timeval) (day : ℕ) : Quiet (consoleCall tv) (quietPass day) where
  signals := rfl
  sockets := ⟨_, rfl, fun _ s _ => FdSet.not_mem_empty s⟩
  files k i := by
    have hfiles : ∀ k, k ≠ .read → (consoleCall tv).mapping.files k = .empty := by
      intro k hk
      cases k
      · exact absurd rfl hk
      · rfl
      · rfl
    intro hready
    have hmem := mem_of_ready hready
    by_cases hk : k = .read
    · subst hk
      obtain ⟨hlt, -⟩ := ((consoleCall tv).mapped.files _ i).1 hmem
      obtain rfl : i = 0 := Nat.lt_one_iff.1 hlt
      cases hready
    · rw [hfiles k hk] at hmem
      exact FdSet.not_mem_empty i hmem

theorem unbounded_quietPass (t : ℕ) : ∃ n, t ≤ (quietPass n).now.toTicks := by
  refine ⟨t, ?_⟩
  show t ≤ (t * minutesPerDay + 0) * ticksPerMinute + 0
  simp only [minutesPerDay, ticksPerMinute, ticksPerSecond]
  omega

/-- With a timeout of one second the call returns. -/
theorem honours_console :
    Honours (consoleCall ⟨1, 0, by decide⟩) ⟨1, 0, by decide⟩ quietPass :=
  (honours_iff _ _ rfl quietPass (quiet_quietPass _) unbounded_quietPass).2 (.inl (by decide))

/-- With a timeout of zero it does not. -/
theorem not_honours_console :
    (∀ n, Quiet (consoleCall ⟨0, 0, by decide⟩) (quietPass n)) ∧
      (∀ n, (consoleCall ⟨0, 0, by decide⟩).select ((List.range n).map quietPass) = none) ∧
      ¬ Honours (consoleCall ⟨0, 0, by decide⟩) ⟨0, 0, by decide⟩ quietPass := by
  have hquiet := quiet_quietPass ⟨0, 0, by decide⟩
  have hsockets : ¬ (consoleCall ⟨0, 0, by decide⟩).WatchesSockets :=
    fun h => absurd (Call.totalSocket_pos.2 h) (by decide)
  have hnone := select_eq_none fun k => (hquiet k).not_ends (by decide) hsockets
  refine ⟨hquiet, hnone, ?_⟩
  rintro ⟨n, o, hselect, -⟩
  rw [hnone] at hselect
  cases hselect

end Clib4.Socket
