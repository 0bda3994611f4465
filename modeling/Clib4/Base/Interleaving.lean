import Mathlib.Tactic

/-!
# Interleavings

A system of processes is a partial step function on a common state: `step s c` is the state
after the step `c`, or nothing if that step cannot be taken in `s`.  An interleaving is a list
of steps.

## Main definitions

* `Interleaving.run` — the state after a list of steps.
* `Interleaving.Along` — every step that is taken meets a condition in the state it starts from.
* `Interleaving.Throughout` — every state on the way has a property.
* `Interleaving.Held` — a lock is held by the one process that is in a place for it.
* `Interleaving.Listed`, `Interleaving.Counted` — the processes that are in some places.

## Main results

* `Interleaving.invariant` — **what holds at first and is kept by every step holds always.**
* `Interleaving.throughout_iff_along` — **a condition on the steps that is exact.**
* `Held.keep`, `Held.take`, `Held.give` — how the steps of one process leave a lock.
* `Listed.keep`, `Listed.enter`, `Listed.exit` — how they leave a list of processes.
-/

namespace Interleaving

open List Function

variable {σ ι : Type*} (step : σ → ι → Option σ)

/-- The state after a list of steps, if each of them can be taken. -/
def run : σ → List ι → Option σ
  | s, [] => some s
  | s, c :: cs => (step s c).bind fun s₁ => run s₁ cs

/-- Every step that is taken satisfies `P` in the state it starts from. -/
def Along (P : σ → ι → Prop) : σ → List ι → Prop
  | _, [] => True
  | s, c :: cs => ∀ s₁ ∈ step s c, P s c ∧ Along P s₁ cs

/-- Every state that is reached satisfies `J`. -/
def Throughout (J : σ → Prop) : σ → List ι → Prop
  | s, [] => J s
  | s, c :: cs => J s ∧ ∀ s₁ ∈ step s c, Throughout J s₁ cs

variable {step}

@[simp] theorem run_nil (s : σ) : run step s [] = some s := rfl

variable {s : σ} {c : ι} {cs : List ι}

theorem run_cons_of_some {s₁ : σ} (h : step s c = some s₁) (cs : List ι) :
    run step s (c :: cs) = run step s₁ cs := by
  simp [run, h]

theorem run_cons_eq_some {s' : σ} :
    run step s (c :: cs) = some s' ↔ ∃ s₁, step s c = some s₁ ∧ run step s₁ cs = some s' := by
  simp [run, Option.bind_eq_some_iff]

theorem along_cons_of_some {P : σ → ι → Prop} {s₁ : σ} (h : step s c = some s₁) (cs : List ι) :
    Along step P s (c :: cs) ↔ P s c ∧ Along step P s₁ cs := by
  simp [Along, h]

/-- Whether a condition holds along a list of steps can be computed. -/
instance decidableAlong (P : σ → ι → Prop) [∀ s c, Decidable (P s c)] :
    ∀ (s : σ) (cs : List ι), Decidable (Along step P s cs)
  | _, [] => .isTrue trivial
  | s, c :: cs =>
    match h : step s c with
    | none => .isTrue fun s₁ hs₁ => by rw [h] at hs₁; cases hs₁
    | some s₁ =>
      have := decidableAlong P s₁ cs
      decidable_of_iff (P s c ∧ Along step P s₁ cs) (along_cons_of_some h cs).symm

theorem run_append {s' : σ} {ds : List ι} : run step s (cs ++ ds) = some s' ↔
      ∃ s₁, run step s cs = some s₁ ∧ run step s₁ ds = some s' := by
  induction cs generalizing s with
  | nil => simp
  | cons c cs ih =>
    simp only [cons_append, run_cons_eq_some, ih]
    tauto

theorem Along.mono {P Q : σ → ι → Prop} (hPQ : ∀ s c, P s c → Q s c) (h : Along step P s cs) :
    Along step Q s cs := by
  induction cs generalizing s with
  | nil => trivial
  | cons c cs ih =>
    intro s₁ hs₁
    obtain ⟨hP, hrest⟩ := h s₁ hs₁
    exact ⟨hPQ s c hP, ih hrest⟩

/-- A condition on the steps alone holds along every list of such steps. -/
theorem along_of_forall {P : σ → ι → Prop} (h : ∀ c ∈ cs, ∀ s, P s c) : Along step P s cs := by
  induction cs generalizing s with
  | nil => trivial
  | cons c cs ih =>
    intro s₁ _
    refine ⟨h c mem_cons_self s, ih ?_⟩
    intro d hd
    exact h d (mem_cons_of_mem _ hd)

/-- **What holds at first and is kept by every step that meets the condition holds in every
state that is reached.** -/
theorem invariant {I : σ → Prop} {P : σ → ι → Prop}
    (hstep : ∀ s c s₁, I s → P s c → step s c = some s₁ → I s₁) :
    ∀ {s s' : σ} {cs : List ι}, I s → Along step P s cs → run step s cs = some s' → I s' := by
  intro s s' cs
  induction cs generalizing s with
  | nil =>
    intro hs _ hrun
    cases hrun
    exact hs
  | cons c cs ih =>
    intro hs halong hrun
    obtain ⟨s₁, hs₁, hrest⟩ := run_cons_eq_some.1 hrun
    obtain ⟨hP, halong'⟩ := halong s₁ hs₁
    exact ih (hstep s c s₁ hs hP hs₁) halong' hrest

/-- With an invariant that its steps keep, one condition on the steps gives another one. -/
theorem Along.of_invariant {I : σ → Prop} {P Q : σ → ι → Prop} (hQ : ∀ s c, I s → P s c → Q s c)
    (hstep : ∀ s c s₁, I s → P s c → step s c = some s₁ → I s₁) (hs : I s)
    (h : Along step P s cs) : Along step Q s cs := by
  induction cs generalizing s with
  | nil => trivial
  | cons c cs ih =>
    intro s₁ hs₁
    obtain ⟨hP, hrest⟩ := h s₁ hs₁
    exact ⟨hQ s c hs hP, ih (hstep s c s₁ hs hP hs₁) hrest⟩

/-- **A condition that is exact.**  Let `P` be what makes a step keep the invariant `I`, and let
a step outside `P` lead to a state without the property `J`.  Then `J` holds throughout exactly
when every step meets `P`. -/
theorem throughout_iff_along {I J : σ → Prop} {P : σ → ι → Prop} (hIJ : ∀ s, I s → J s)
    (hstep : ∀ s c s₁, I s → P s c → step s c = some s₁ → I s₁)
    (hbreak : ∀ s c s₁, I s → ¬ P s c → step s c = some s₁ → ¬ J s₁) :
    ∀ {s : σ} {cs : List ι}, I s → (Throughout step J s cs ↔ Along step P s cs) := by
  intro s cs
  induction cs generalizing s with
  | nil =>
    intro hs
    exact ⟨fun _ => trivial, fun _ => hIJ s hs⟩
  | cons c cs ih =>
    intro hs
    constructor
    · intro hall s₁ hs₁
      have hrest := hall.2 s₁ hs₁
      have hP : P s c := by
        by_contra hP
        apply hbreak s c s₁ hs hP hs₁
        cases cs with
        | nil => exact hrest
        | cons _ _ => exact hrest.1
      exact ⟨hP, (ih (hstep s c s₁ hs hP hs₁)).1 hrest⟩
    · intro halong
      refine ⟨hIJ s hs, ?_⟩
      intro s₁ hs₁
      obtain ⟨hP, hrest⟩ := halong s₁ hs₁
      exact (ih (hstep s c s₁ hs hP hs₁)).2 hrest

/-! ### Locks

Processes `P` are in places `X`; in some of these places a process holds a lock.  The state has
the holder of the lock beside the places. -/

/-- A process that goes on elsewhere, where it is in the same way. -/
theorem apply_update {P X Y : Type*} [DecidableEq P] {pc : P → X} {p : P} {x : X} {f : X → Y}
    (hx : f x = f (pc p)) (q : P) : f (update pc p x q) = f (pc q) := by
  rw [update_apply]
  split_ifs with hq
  · rw [hx, hq]
  · rfl

section Locks

variable {P X : Type*} {holds : X → Bool} {pc : P → X} {holder : Option P}

/-- The holder of the lock is the one process that is in a place where it is held. -/
def Held (holds : X → Bool) (pc : P → X) (holder : Option P) : Prop :=
  ∀ q, holds (pc q) = true ↔ holder = some q

theorem Held.unique (h : Held holds pc holder) {p q : P} (hp : holds (pc p) = true)
    (hq : holds (pc q) = true) : p = q := by
  rw [h p] at hp
  rw [h q, hp] at hq
  exact Option.some.inj hq

variable [DecidableEq P] {p : P} {x y : X}

/-- A process that goes on elsewhere and keeps what it has. -/
theorem Held.keep (h : Held holds pc holder) (hpc : pc p = y) (hx : holds x = holds y) :
    Held holds (update pc p x) holder := by
  subst hpc
  intro q
  rw [← h q, apply_update hx]

/-- A process that obtains the lock while it is free. -/
theorem Held.take (h : Held holds pc none) (hx : holds x = true) :
    Held holds (update pc p x) (some p) := by
  intro q
  by_cases hq : q = p
  · subst hq
    simp [hx]
  · rw [update_of_ne hq, h q]
    simp [Ne.symm hq]

/-- A process that releases the lock. -/
theorem Held.give (h : Held holds pc holder) (hp : holds (pc p) = true) (hx : holds x = false) :
    Held holds (update pc p x) none := by
  intro q
  by_cases hq : q = p
  · subst hq
    simp [hx]
  · rw [update_of_ne hq, h q, (h p).1 hp]
    simp [Ne.symm hq]

end Locks

/-! ### Lists and counters

A list has the processes that are in some places, each of them once; a counter has their number. -/

section Lists

variable {P X : Type*} {inside : X → Bool} {pc : P → X} {l : List P} {n : ℕ}

/-- The list has the processes that are inside. -/
def Listed (inside : X → Bool) (pc : P → X) (l : List P) : Prop :=
  l.Nodup ∧ ∀ q, q ∈ l ↔ inside (pc q) = true

/-- There are `n` processes inside. -/
def Counted (inside : X → Bool) (pc : P → X) (n : ℕ) : Prop :=
  ∃ l, Listed inside pc l ∧ l.length = n

theorem Counted.pos (h : Counted inside pc n) {p : P} (hp : inside (pc p) = true) : 0 < n := by
  obtain ⟨l, hl, rfl⟩ := h
  exact length_pos_of_mem ((hl.2 p).2 hp)

theorem Counted.zero (h : Counted inside pc 0) (p : P) : inside (pc p) = false := by
  by_contra hp
  exact Nat.lt_irrefl 0 (h.pos (by simpa using hp))

variable [DecidableEq P] {p : P} {x y : X}

/-- A process that stays inside or outside. -/
theorem Listed.keep (h : Listed inside pc l) (hpc : pc p = y) (hx : inside x = inside y) :
    Listed inside (update pc p x) l := by
  subst hpc
  refine ⟨h.1, ?_⟩
  intro q
  rw [h.2 q, apply_update hx]

/-- A process that goes inside, at the end of the list. -/
theorem Listed.enter (h : Listed inside pc l) (hp : inside (pc p) = false) (hx : inside x = true) :
    Listed inside (update pc p x) (l ++ [p]) := by
  have hnot : p ∉ l := by
    rw [h.2 p, hp]
    exact Bool.false_ne_true
  refine ⟨nodup_append.2 ⟨h.1, nodup_singleton p, ?_⟩, ?_⟩
  · intro a ha b hb hab
    rw [mem_singleton.1 hb] at hab
    exact hnot (hab ▸ ha)
  · intro q
    by_cases hq : q = p
    · subst hq
      simp [hx]
    · simp [hq, h.2 q]

/-- A process that goes outside. -/
theorem Listed.exit (h : Listed inside pc l) (hx : inside x = false) :
    Listed inside (update pc p x) (l.erase p) := by
  refine ⟨h.1.erase p, ?_⟩
  intro q
  by_cases hq : q = p
  · subst hq
    simp [hx, h.1.mem_erase_iff]
  · simp [hq, h.2 q]

theorem Counted.keep (h : Counted inside pc n) (hpc : pc p = y) (hx : inside x = inside y) :
    Counted inside (update pc p x) n := by
  obtain ⟨l, hl, hn⟩ := h
  exact ⟨l, hl.keep hpc hx, hn⟩

theorem Counted.enter (h : Counted inside pc n) (hp : inside (pc p) = false)
    (hx : inside x = true) : Counted inside (update pc p x) (n + 1) := by
  obtain ⟨l, hl, rfl⟩ := h
  exact ⟨l ++ [p], hl.enter hp hx, by simp⟩

theorem Counted.exit (h : Counted inside pc n) (hp : inside (pc p) = true)
    (hx : inside x = false) : Counted inside (update pc p x) (n - 1) := by
  obtain ⟨l, hl, rfl⟩ := h
  exact ⟨l.erase p, hl.exit hx, length_erase_of_mem ((hl.2 p).2 hp)⟩

end Lists

end Interleaving
