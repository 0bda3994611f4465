import Mathlib.Tactic

/-!
# Functions in stages

A function that takes its state through a sequence of stages, each of which may fail.  A
statement about all states that it comes through, together with one about its result, is proved
stage by stage.

## Main definitions

* `Pipeline.run` — the stages, one after the other.
* `Pipeline.Passes good post stages s` — from `s` on, every state is `good`, and the result
  satisfies `post`.

## Main results

* `Pipeline.Passes.good_of_run`, `Pipeline.Passes.post_run` — what this says about `run`.
-/

namespace Pipeline

variable {σ ε : Type*} {good : σ → Prop} {post : Except ε σ → Prop}
  {stages : List (σ → Except ε σ)} {stage : σ → Except ε σ} {s s' : σ}

/-- Carry out the stages one after the other. -/
def run (s : σ) : List (σ → Except ε σ) → Except ε σ
  | [] => .ok s
  | stage :: stages => stage s >>= fun s => run s stages

/-- From `s` on, every state that the stages come through is `good`, and their result satisfies
`post`. -/
def Passes (good : σ → Prop) (post : Except ε σ → Prop) : List (σ → Except ε σ) → σ → Prop
  | [], s => good s ∧ post (.ok s)
  | stage :: stages, s =>
    good s ∧
      match stage s with
      | .ok s' => Passes good post stages s'
      | .error e => post (.error e)

theorem passes_cons_of_ok (hgood : good s) (h : stage s = .ok s')
    (hrest : Passes good post stages s') : Passes good post (stage :: stages) s := by
  refine ⟨hgood, ?_⟩
  rw [h]
  exact hrest

theorem passes_cons_of_error {e : ε} (hgood : good s) (h : stage s = .error e)
    (hpost : post (.error e)) : Passes good post (stage :: stages) s := by
  refine ⟨hgood, ?_⟩
  rw [h]
  exact hpost

/-- **Every state on the way is good.** -/
theorem Passes.good_of_run (h : Passes good post stages s) {k : ℕ}
    (hrun : run s (stages.take k) = .ok s') : good s' := by
  induction stages generalizing s k with
  | nil =>
    rw [List.take_nil] at hrun
    cases hrun
    exact h.1
  | cons stage stages ih =>
    cases k with
    | zero =>
      cases hrun
      exact h.1
    | succ k =>
      obtain ⟨-, hrest⟩ := h
      rw [List.take_succ_cons, run] at hrun
      cases hstage : stage s with
      | error e =>
        rw [hstage] at hrun
        cases hrun
      | ok s₁ =>
        rw [hstage] at hrun hrest
        exact ih hrest hrun

/-- **The result is as stated.** -/
theorem Passes.post_run (h : Passes good post stages s) : post (run s stages) := by
  induction stages generalizing s with
  | nil => exact h.2
  | cons stage stages ih =>
    obtain ⟨-, hrest⟩ := h
    rw [run]
    cases hstage : stage s with
    | error e =>
      rw [hstage] at hrest
      exact hrest
    | ok s₁ =>
      rw [hstage] at hrest
      exact ih hrest

end Pipeline
