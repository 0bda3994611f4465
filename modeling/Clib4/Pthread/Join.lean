import Clib4.Pthread.JoinSystem

/-!
# Joining a thread

A call of `pthread_join` should return only when the thread has ended, and it should return once the
thread has ended.  The first fails if the thread leaves through `pthread_exit`, the second if the
call is not made by the thread's creator, who alone gets the signal.

## Main definitions

* `JoinsSafely` — whoever joins from now on does not return too early.
* `ReturnsAlone` — a call of `pthread_join` returns when only its thread goes on.

## Main results

* `join_waits_iff` — **when `pthread_join` waits for the whole thread.**
* `joiner_woken_iff` — **when a thread that waits is woken.**
-/

namespace Clib4.Pthread

open Interleaving

/-! ### What should hold -/

/-- If the call has returned 0, the thread is at its end; and the thread has not used its entry
after that was cleared. -/
def JoinSystem.Safe (s : JoinSystem) : Prop :=
  (s.joiner = .returned none → s.target = .ended) ∧ s.late = false

/-- Whatever the other thread does next, and whatever signals reach it, it does not return too
early. -/
def JoinsSafely (p : Parties) (s : JoinSystem) : Prop :=
  ∀ acts, (∀ a ∈ acts, a = .join ∨ a = .signal) →
    ∀ s', run (joinStep p) s acts = some s' → s'.Safe

/-- The thread is in `pthread_join`. -/
def JoinerPc.inCall : JoinerPc → Bool
  | .test | .waiting | .passed => true
  | _ => false

/-- The call returns 0 when only its thread goes on. -/
def ReturnsAlone (p : Parties) (s : JoinSystem) : Prop :=
  ∃ n s', run (joinStep p) s (List.replicate n .join) = some s' ∧ s'.joiner = .returned none ∧
    s'.target = s.target

/-- Once the thread has ended, a call of `pthread_join` returns. -/
def Woken (p : Parties) (s : JoinSystem) : Prop :=
  s.target = .ended → s.joiner.inCall = true → ReturnsAlone p s

/-- If the step is the last one of the thread while the other one waits and has no signal, that is
the creator. -/
def SignalsJoiner (p : Parties) (s : JoinSystem) (a : JoinAct) : Prop :=
  a = .go → s.target = .ending → s.joiner = .waiting → s.signalled = false → p.joiner = p.creator

/-! ### Calls that return -/

section Returning

variable {p : Parties} {s s' : JoinSystem}

theorem ReturnsAlone.cons (hstep : joinStep p s .join = some s') (htarget : s'.target = s.target)
    (h : ReturnsAlone p s') : ReturnsAlone p s := by
  obtain ⟨n, s₁, hrun, hjoiner, htarget'⟩ := h
  refine ⟨n + 1, s₁, ?_, hjoiner, htarget'.trans htarget⟩
  rw [List.replicate_succ, run_cons_of_some hstep]
  exact hrun

theorem returnsAlone_of_passed (h : s.joiner = .passed) : ReturnsAlone p s := by
  have hstep : joinStep p s .join =
      some { s with info := {}, cleared := true, joiner := .returned none } := by
    simp [joinStep, JoinSystem.joinerStep, h]
  exact .cons hstep rfl ⟨0, _, rfl, rfl, rfl⟩

theorem returnsAlone_of_test (h : s.joiner = .test) (hstatus : s.info.status = .destruct) :
    ReturnsAlone p s := by
  have hstep : joinStep p s .join = some { s with joiner := .passed } := by
    simp [joinStep, JoinSystem.joinerStep, h, hstatus]
  exact .cons hstep rfl (returnsAlone_of_passed rfl)

theorem returnsAlone_of_waiting (h : s.joiner = .waiting) (hsig : s.signalled = true)
    (hstatus : s.info.status = .destruct) : ReturnsAlone p s := by
  have hstep : joinStep p s .join = some { s with signalled := false, joiner := .test } := by
    simp [joinStep, JoinSystem.joinerStep, h, hsig]
  exact .cons hstep rfl (returnsAlone_of_test rfl hstatus)

theorem not_returnsAlone_of_waiting (h : s.joiner = .waiting) (hsig : s.signalled = false) :
    ¬ ReturnsAlone p s := by
  rintro ⟨n, s', hrun, hjoiner, -⟩
  cases n with
  | zero =>
    cases hrun
    rw [h] at hjoiner
    cases hjoiner
  | succ n =>
    rw [List.replicate_succ, run_cons_eq_some] at hrun
    obtain ⟨s₁, hstep, -⟩ := hrun
    simp [joinStep, JoinSystem.joinerStep, h, hsig] at hstep

/-- Once the status is that of a thread at its end and there is a signal, a call returns from
wherever it is. -/
theorem JoinSystem.Sound.returnsAlone (h : s.Sound p) (hstored : s.stored = true)
    (hstatus : s.info.status = .destruct) (hsig : s.signalled = true)
    (hjoiner : s.joiner ≠ .returned none) : ReturnsAlone p s := by
  cases hplace : s.joiner with
  | outside =>
    have hstep : joinStep p s .join = some { s with joiner := .test } := by
      simp only [joinStep, JoinSystem.joinerStep, hplace]
      rw [if_pos hstored, h.joinCall_eq hplace hstored]
    exact .cons hstep rfl (returnsAlone_of_test rfl hstatus)
  | test => exact returnsAlone_of_test hplace hstatus
  | waiting => exact returnsAlone_of_waiting hplace hsig hstatus
  | passed => exact returnsAlone_of_passed hplace
  | returned result =>
    cases result with
    | none => exact absurd hplace hjoiner
    | some e => exact absurd hplace (h.noError e)

end Returning

/-! ### Joining waits for the whole thread -/

/-- Until the thread has ended, its status does not say so, and a call of `pthread_join` is not
behind its loop. -/
structure JoinSystem.Waits (s : JoinSystem) : Prop where
  late : s.late = false
  status : s.target ≠ .ended → s.info.status ≠ .destruct
  passed : s.target ≠ .ended → s.joiner ≠ .passed
  returned : s.target ≠ .ended → s.joiner ≠ .returned none

namespace JoinSystem

variable {p : Parties} {s s' : JoinSystem} {a : JoinAct}

theorem Waits.not_cleared (hsound : s.Sound p) (h : s.Waits) (hlive : s.target ≠ .ended) :
    s.cleared = false :=
  hsound.not_cleared (h.returned hlive)

theorem Waits.ordinary (hsound : s.Sound p) (h : s.Waits) (hstep : Ordinary s s') : s'.Waits where
  late := by
    rw [Bool.eq_false_iff]
    intro hlate
    rcases hstep.late hlate with hlate | hcleared
    · simp [h.late] at hlate
    · simp [h.not_cleared hsound hstep.live] at hcleared
  status := by
    intro _ hdestruct
    rcases hstep.status with hsame | hrunning
    · exact h.status hstep.live (hsame ▸ hdestruct)
    · rw [hrunning] at hdestruct
      cases hdestruct
  passed := fun _ => by rw [hstep.joiner]; exact h.passed hstep.live
  returned := fun _ => by rw [hstep.joiner]; exact h.returned hstep.live

theorem Waits.finish (hsound : s.Sound p) (h : s.Waits) (hending : s.target = .ending) :
    (s.finish p).Waits := by
  have hcleared := h.not_cleared hsound (by simp [hending])
  have hended : (s.finish p).target = .ended := by
    unfold JoinSystem.finish
    split_ifs <;> rfl
  have hlate : (s.finish p).late = (s.late || s.cleared) := by
    unfold JoinSystem.finish
    split_ifs <;> rfl
  exact
    { late := by rw [hlate, h.late, hcleared]; rfl
      status := fun hlive => absurd hended hlive
      passed := fun hlive => absurd hended hlive
      returned := fun hlive => absurd hended hlive }

theorem Waits.join (h : s.Waits) (hmove : JoinerMove s s') : s'.Waits := by
  cases hmove with
  | call | sleep | wake => exact ⟨h.late, h.status, by simp, by simp⟩
  | pass hjoiner hstatus =>
    exact ⟨h.late, h.status, fun hlive => absurd hstatus (h.status hlive), by simp⟩
  | clear hjoiner =>
    exact ⟨h.late, by simp, by simp, fun hlive => absurd hjoiner (h.passed hlive)⟩

theorem Waits.aside (h : s.Waits) (hstep : Aside s s') : s'.Waits where
  late := hstep.late.trans h.late
  status := by rw [hstep.target, hstep.status]; exact h.status
  passed := by rw [hstep.target, hstep.joiner]; exact h.passed
  returned := by rw [hstep.target, hstep.joiner]; exact h.returned

theorem Waits.step (hsound : s.Sound p) (h : s.Waits) (hexits : ¬ Exits p s a)
    (hstep : joinStep p s a = some s') : s'.Sound p ∧ s'.Waits := by
  obtain ⟨hsound', hmove⟩ := hsound.step hstep
  refine ⟨hsound', ?_⟩
  cases hmove with
  | ordinary hord => exact h.ordinary hsound hord
  | exits h => exact absurd h hexits
  | finishes _ hending => exact h.finish hsound hending
  | joins hmove => exact h.join hmove
  | aside haside => exact h.aside haside

/-- As long as nothing has gone wrong, nothing the other thread can do goes wrong. -/
theorem Waits.joinsSafely (hsound : s.Sound p) (h : s.Waits) : JoinsSafely p s := by
  intro acts hacts s' hrun
  have halong : Along (joinStep p) (fun _ a => a = .join ∨ a = .signal) s acts :=
    along_of_forall fun a ha _ => hacts a ha
  have hkeep : ∀ s a s₁, s.Sound p ∧ s.Waits → a = .join ∨ a = .signal →
      joinStep p s a = some s₁ → s₁.Sound p ∧ s₁.Waits := by
    rintro s a s₁ ⟨hsound, h⟩ ha hstep
    apply h.step hsound _ hstep
    rintro ⟨hcall, -⟩
    rcases ha with rfl | rfl <;> simp at hcall
  obtain ⟨-, hwaits⟩ := invariant hkeep ⟨hsound, h⟩ halong hrun
  refine ⟨?_, hwaits.late⟩
  intro hret
  by_contra hlive
  exact hwaits.returned hlive hret

theorem exits_step (hexits : Exits p s a) (hstep : joinStep p s a = some s') :
    s' = { s.touch with info.status := .destruct, target := .jumping } := by
  obtain ⟨hcall, ⟨u, htarget⟩, hknown, hrunning⟩ := hexits
  have hexit : s.exit p = { s.touch with info.status := .destruct, target := .jumping } := by
    simp [exit, hknown, hrunning]
  rcases hcall with rfl | ⟨rfl, hcanceled, henabled⟩
  · simp only [joinStep, userStep, htarget, call, Option.some.injEq] at hstep
    rw [← hstep, hexit]
  · simp only [joinStep, userStep, htarget, call, testcancel, hknown, hcanceled, henabled,
      Bool.and_true, if_true, Option.some.injEq] at hstep
    rw [← hstep, hexit]

/-- Behind `pthread_exit` the other thread can return at once. -/
theorem Waits.not_joinsSafely (hsound : s.Sound p) (h : s.Waits) (hexits : Exits p s a)
    (hstep : joinStep p s a = some s') : ¬ JoinsSafely p s' := by
  have hlive : s.target ≠ .ended := by
    obtain ⟨-, ⟨u, htarget⟩, -⟩ := hexits
    simp [htarget]
  have hstored : s.stored = true := by
    have hknown : s.info.task = some p.self := by simpa [isKnown] using hexits.2.2.1
    rw [hsound.task (h.not_cleared hsound hlive)] at hknown
    by_contra hstored
    simp [hstored] at hknown
  obtain ⟨hsound', -⟩ := hsound.step hstep
  have hs' := exits_step hexits hstep
  intro hsafe
  -- a signal reaches the other thread, and it returns
  have hsig : ({ s' with signalled := true } : JoinSystem).Sound p := { hsound' with }
  obtain ⟨n, s₁, hrun, hjoiner, htarget⟩ := hsig.returnsAlone
    (by rw [hs']; exact hstored) (by rw [hs']) rfl (by rw [hs']; exact h.returned hlive)
  have hended := hsafe (.signal :: List.replicate n .join)
    (by simp +contextual [List.mem_replicate]) s₁ (by rw [run_cons_of_some rfl]; exact hrun)
  have hnot : s₁.target = .jumping := by rw [htarget, hs']
  rw [hended.1 hjoiner] at hnot
  cases hnot

theorem waits_init (p : Parties) : (joinInit p).Waits :=
  ⟨rfl, by simp [joinInit], by simp [joinInit], by simp [joinInit]⟩

/-! ### A thread that waits is woken -/

/-- When the thread has ended, its status says so until the entry is cleared, and a thread that
waits has got its signal. -/
structure Wakes (s : JoinSystem) : Prop where
  status : s.target = .ended → s.cleared = false → s.info.status = .destruct
  signalled : s.target = .ended → s.joiner = .waiting → s.signalled = true

theorem wakes_of_live (hlive : s.target ≠ .ended) : s.Wakes :=
  ⟨fun hended => absurd hended hlive, fun hended => absurd hended hlive⟩

theorem Wakes.woken (hsound : s.Sound p) (h : s.Wakes) : Woken p s := by
  intro hended hcall
  cases hplace : s.joiner with
  | outside | returned result => simp [hplace, JoinerPc.inCall] at hcall
  | test =>
    have hcleared := hsound.not_cleared (by simp [hplace])
    exact returnsAlone_of_test hplace (h.status hended hcleared)
  | waiting =>
    have hcleared := hsound.not_cleared (by simp [hplace])
    exact returnsAlone_of_waiting hplace (h.signalled hended hplace) (h.status hended hcleared)
  | passed => exact returnsAlone_of_passed hplace

theorem finish_eq (hsound : s.Sound p) :
    s.finish p = { s.touch with
      info.status := .destruct
      target := .ended
      signalled := s.signalled || s.info.parent == some p.joiner } := by
  unfold finish
  rw [if_neg (by simp [hsound.detached])]

theorem wakes_finish (hsound : s.Sound p) (hsignals : SignalsJoiner p s .go)
    (hending : s.target = .ending) : (s.finish p).Wakes := by
  rw [finish_eq hsound]
  refine ⟨fun _ _ => rfl, ?_⟩
  intro _ hwaiting
  have hcleared := hsound.not_cleared (by rw [show s.joiner = .waiting from hwaiting]; simp)
  cases hsig : s.signalled with
  | true => simp
  | false =>
    have hcreator := hsignals rfl hending hwaiting hsig
    simp [hsound.parent hcleared, hcreator]

theorem Wakes.join (hsound : s.Sound p) (h : s.Wakes) (hmove : JoinerMove s s') : s'.Wakes := by
  cases hmove with
  | call | pass | wake => exact ⟨h.status, by simp⟩
  | sleep hjoiner hstatus =>
    refine ⟨h.status, ?_⟩
    intro hended _
    have hcleared := hsound.not_cleared (by simp [hjoiner])
    exact absurd (h.status hended hcleared) hstatus
  | clear => exact ⟨by simp, by simp⟩

theorem Wakes.aside (h : s.Wakes) (hstep : Aside s s') : s'.Wakes where
  status := by rw [hstep.target, hstep.cleared, hstep.status]; exact h.status
  signalled := by
    rw [hstep.target, hstep.joiner]
    intro hended hwaiting
    rcases hstep.signalled with hsame | htrue | houtside
    · rw [hsame]
      exact h.signalled hended hwaiting
    · exact htrue
    · rw [houtside] at hwaiting
      cases hwaiting

theorem Wakes.step (hsound : s.Sound p) (h : s.Wakes) (hsignals : SignalsJoiner p s a)
    (hstep : joinStep p s a = some s') : s'.Sound p ∧ s'.Wakes := by
  obtain ⟨hsound', hmove⟩ := hsound.step hstep
  refine ⟨hsound', ?_⟩
  cases hmove with
  | ordinary hord => exact wakes_of_live hord.target
  | exits => exact wakes_of_live (by simp)
  | finishes ha hending =>
    subst ha
    exact wakes_finish hsound hsignals hending
  | joins hmove => exact h.join hsound hmove
  | aside haside => exact h.aside haside

theorem not_woken (hsound : s.Sound p) (hsignals : ¬ SignalsJoiner p s a)
    (hstep : joinStep p s a = some s') : ¬ Woken p s' := by
  simp only [SignalsJoiner, not_forall] at hsignals
  obtain ⟨rfl, hending, hwaiting, hsig, hcreator⟩ := hsignals
  have hs' : s' = s.finish p := by
    simp only [joinStep, advance, hending, Option.some.injEq] at hstep
    exact hstep.symm
  have hcleared := hsound.not_cleared (by simp [hwaiting])
  have hnosignal : s'.signalled = false := by
    have hparent : p.creator ≠ p.joiner := fun heq => hcreator heq.symm
    rw [hs', finish_eq hsound]
    simp [hsig, hsound.parent hcleared, hparent]
  have hplace : s'.joiner = .waiting := by
    rw [hs', finish_eq hsound]
    exact hwaiting
  intro hwoken
  have hended : s'.target = .ended := by rw [hs', finish_eq hsound]
  have hcall : s'.joiner.inCall = true := by rw [hplace]; rfl
  exact not_returnsAlone_of_waiting hplace hnosignal (hwoken hended hcall)

theorem wakes_init (p : Parties) : (joinInit p).Wakes := wakes_of_live (by simp [joinInit])

end JoinSystem

/-! ### Main results -/

/-- **When `pthread_join` waits for the whole thread.**  In every run, and whatever the other thread
does next, `pthread_join` returns 0 only when the thread has ended and the thread uses its entry
only before it is cleared, exactly as long as the thread does not leave through `pthread_exit`,
which sets the status before the cleanup handler and the destructors run. -/
theorem join_waits_iff (p : Parties) (acts : List JoinAct) :
    Throughout (joinStep p) (JoinsSafely p) (joinInit p) acts ↔
      Along (joinStep p) (fun s a => ¬ Exits p s a) (joinInit p) acts := by
  apply throughout_iff_along (I := fun s => s.Sound p ∧ s.Waits)
  · rintro s ⟨hsound, h⟩
    exact h.joinsSafely hsound
  · rintro s a s' ⟨hsound, h⟩ hexits hstep
    exact h.step hsound hexits hstep
  · rintro s a s' ⟨hsound, h⟩ hexits hstep
    exact h.not_joinsSafely hsound (not_not.1 hexits) hstep
  · exact ⟨JoinSystem.sound_init p, JoinSystem.waits_init p⟩

/-- A thread calls `pthread_exit` while it has a cleanup handler, and the call of its creator
returns before the handler has been run; behind that the thread uses the entry that has been
cleared. -/
theorem join_returns_early :
    let p : Parties := ⟨1, 2, 2, by decide⟩
    let acts : List JoinAct :=
      [.store, .go, .call (.push (some 7) 0 true), .call .exit, .join, .join, .join]
    (∃ s, run (joinStep p) (joinInit p) acts = some s ∧ s.joiner = .returned none ∧
      s.target = .jumping) ∧
    ∃ s, run (joinStep p) (joinInit p) (acts ++ [.go]) = some s ∧ s.late = true := by
  exact ⟨⟨_, rfl, rfl, rfl⟩, ⟨_, rfl, rfl⟩⟩

/-- **When a thread that waits is woken.**  In every run, once the thread has ended the call of
`pthread_join` returns by itself, exactly if the thread does not end while one waits without a
signal that is not its creator. -/
theorem joiner_woken_iff (p : Parties) (acts : List JoinAct) :
    Throughout (joinStep p) (Woken p) (joinInit p) acts ↔
      Along (joinStep p) (SignalsJoiner p) (joinInit p) acts := by
  apply throughout_iff_along (I := fun s => s.Sound p ∧ s.Wakes)
  · rintro s ⟨hsound, h⟩
    exact h.woken hsound
  · rintro s a s' ⟨hsound, h⟩ hsignals hstep
    exact h.step hsound hsignals hstep
  · rintro s a s' ⟨hsound, h⟩ hsignals hstep
    exact JoinSystem.not_woken hsound hsignals hstep
  · exact ⟨JoinSystem.sound_init p, JoinSystem.wakes_init p⟩

/-- A thread that did not create the other one waits for it; the signal goes to the creator when the
thread ends, and the call never returns. -/
theorem joiner_not_woken :
    let p : Parties := ⟨1, 2, 3, by decide⟩
    ∃ s, run (joinStep p) (joinInit p)
        ([.store, .go, .join, .join, .go, .go] ++ List.replicate (keysMax + 1) .go ++ [.go, .go]) =
          some s ∧ s.target = .ended ∧ s.joiner = .waiting ∧ s.signalled = false ∧
      joinStep p s .join = none := by
  exact ⟨_, rfl, rfl, rfl, rfl, rfl⟩

end Clib4.Pthread
