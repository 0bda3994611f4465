import Mathlib.Tactic

/-!
# Loops with an early exit

A loop of an imperative program is a function `body` on the loop's variables: it
either yields the variables of the next iteration (`Sum.inl`) or leaves the loop
with a result (`Sum.inr`).  `Loop.run` iterates it on fuel, so that a loop can be
evaluated on a concrete input; `Loop.run_spec` is the rule of total correctness,
with an invariant and a variant, under which the fuel is never felt.

## Main definitions

* `Loop.run body n a` — at most `n` iterations of `body` from `a`.
* `Loop.Reaches body a b` — the iterations from `a` come to `b`.

## Main results

* `Loop.run_spec` — an invariant that every iteration keeps and a variant that
  every iteration decreases give a result.
* `Loop.getD_run_invariant` — an invariant without a variant.
* `Loop.run_rel` — a relation between two loops that every iteration keeps.
-/

namespace Loop

variable {α β : Type*} {body : α → α ⊕ β}

/-- At most `n` iterations of `body` from `a`; `none` when they do not suffice. -/
def run (body : α → α ⊕ β) : ℕ → α → Option β
  | 0, _ => none
  | n + 1, a =>
    match body a with
    | .inl a' => run body n a'
    | .inr b => some b

variable {n : ℕ} {a : α}

theorem run_succ_of_inl {a' : α} (h : body a = .inl a') : run body (n + 1) a = run body n a' := by
  simp [run, h]

theorem run_succ_of_inr {b : β} (h : body a = .inr b) : run body (n + 1) a = some b := by
  simp [run, h]

/-- The iteration from `a` either goes on, keeping `I` and decreasing the variant `μ`, or leaves
the loop with a result that satisfies `Q`. -/
def Progress (body : α → α ⊕ β) (I : α → Prop) (μ : α → ℕ) (Q : β → Prop) (a : α) : Prop :=
  (∃ a', body a = .inl a' ∧ I a' ∧ μ a' < μ a) ∨ ∃ b, body a = .inr b ∧ Q b

/-- **Total correctness of a loop.**  If `I` holds on entry, and every iteration under `I` makes
progress, then the loop is left with a result that satisfies `Q`. -/
theorem run_spec (I : α → Prop) (μ : α → ℕ) (Q : β → Prop)
    (hbody : ∀ a, I a → Progress body I μ Q a) :
    ∀ (n : ℕ) (a : α), I a → μ a < n → ∃ b, run body n a = some b ∧ Q b := by
  intro n
  induction n with
  | zero => intro a _ h; omega
  | succ n ih =>
    intro a ha hμ
    rcases hbody a ha with ⟨a', hb, ha', hlt⟩ | ⟨b, hb, hQ⟩
    · obtain ⟨b, hrun, hQ⟩ := ih a' ha' (by omega)
      exact ⟨b, by rw [run_succ_of_inl hb, hrun], hQ⟩
    · exact ⟨b, run_succ_of_inr hb, hQ⟩

/-- `run_spec` for a loop whose missing result is replaced by a default. -/
theorem getD_run_spec (I : α → Prop) (μ : α → ℕ) (Q : β → Prop)
    (hbody : ∀ a, I a → Progress body I μ Q a) (n : ℕ) (a : α) (d : β) (ha : I a) (hn : μ a < n) :
    Q ((run body n a).getD d) := by
  obtain ⟨b, hrun, hQ⟩ := run_spec I μ Q hbody n a ha hn
  rw [hrun]
  exact hQ

/-- **Partial correctness of a loop.**  What every iteration keeps holds of the result, whatever
the fuel. -/
theorem getD_run_invariant (I : α → Prop) (Q : β → Prop)
    (hbody : ∀ a, I a → Sum.elim I Q (body a)) {d : β} (hd : Q d) (n : ℕ) (ha : I a) :
    Q ((run body n a).getD d) := by
  induction n generalizing a with
  | zero => exact hd
  | succ n ih =>
    have h := hbody a ha
    cases hb : body a with
    | inl a' =>
      rw [hb] at h
      rw [run_succ_of_inl hb]
      exact ih h
    | inr r =>
      rw [hb] at h
      rw [run_succ_of_inr hb]
      exact h

/-- Two loops whose iterations stay related end alike, with related results. -/
theorem run_rel {α' β' : Type*} {body' : α' → α' ⊕ β'} (R : α → α' → Prop) (S : β → β' → Prop)
    (hbody : ∀ a a', R a a' → Sum.LiftRel R S (body a) (body' a')) (n : ℕ) {a' : α'}
    (ha : R a a') :
    run body n a = none ∧ run body' n a' = none ∨
      ∃ r r', run body n a = some r ∧ run body' n a' = some r' ∧ S r r' := by
  induction n generalizing a a' with
  | zero => exact .inl ⟨rfl, rfl⟩
  | succ n ih =>
    have h := hbody a a' ha
    cases hb : body a with
    | inl b =>
      cases hb' : body' a' with
      | inl b' =>
        rw [hb, hb', Sum.liftRel_inl_inl] at h
        rw [run_succ_of_inl hb, run_succ_of_inl hb']
        exact ih h
      | inr r' =>
        rw [hb, hb'] at h
        cases h
    | inr r =>
      cases hb' : body' a' with
      | inl b' =>
        rw [hb, hb'] at h
        cases h
      | inr r' =>
        rw [hb, hb', Sum.liftRel_inr_inr] at h
        exact .inr ⟨r, r', run_succ_of_inr hb, run_succ_of_inr hb', h⟩

/-! ### The states that a loop goes through -/

/-- The loop comes from the one state to the other. -/
def Reaches (body : α → α ⊕ β) : α → α → Prop :=
  Relation.ReflTransGen fun a a' => body a = .inl a'

/-- What holds of all states: of the first one, and of all from the next one on. -/
theorem forall_reaches_of_inl {a' : α} (h : body a = .inl a') (P : α → Prop) :
    (∀ b, Reaches body a b → P b) ↔ P a ∧ ∀ b, Reaches body a' b → P b := by
  constructor
  · exact fun hall => ⟨hall a .refl, fun b hb => hall b (.head h hb)⟩
  · rintro ⟨ha, hrest⟩ b hb
    rcases Relation.ReflTransGen.cases_head hb with rfl | ⟨c, hc, hcb⟩
    · exact ha
    · obtain rfl : a' = c := Sum.inl.inj (h.symm.trans hc)
      exact hrest b hcb

/-- A state in which the loop is left has no other behind it. -/
theorem forall_reaches_of_inr {r : β} (h : body a = .inr r) (P : α → Prop) :
    (∀ b, Reaches body a b → P b) ↔ P a := by
  refine ⟨fun hall => hall a .refl, ?_⟩
  intro ha b hb
  rcases Relation.ReflTransGen.cases_head hb with rfl | ⟨c, hc, -⟩
  · exact ha
  · rw [h] at hc
    cases hc

end Loop
