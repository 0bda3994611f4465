import Mathlib.Tactic

/-!
# Loops that ask their surroundings

Each iteration of such a loop gets an answer from outside: what a clock shows, or which devices are
ready.  As in `Loop`, the body yields the variables of the next iteration (`Sum.inl`) or leaves the
loop with a result (`Sum.inr`).  `Polling.run` has the answers as a list, and a result only if the
loop is left in the iteration that gets the last one; so the list says what happened in a run.

A loop is steady if an iteration that goes on restores the variables.

## Main results

* `Polling.run_eq_some_iff` — the runs of a steady loop.
* `Polling.run_range_eq_some` — a steady loop on the answers of a stream.
-/

namespace Polling

open List

variable {α β ι : Type*} {body : α → ι → α ⊕ β}

/-- The iterations of `body` from `a` with the answers of the list. -/
def run (body : α → ι → α ⊕ β) : α → List ι → Option β
  | _, [] => none
  | a, x :: xs =>
    match body a x with
    | .inl a' => run body a' xs
    | .inr b => if xs.isEmpty then some b else none

theorem run_cons_of_inl {a a' : α} {x : ι} (h : body a x = .inl a') (xs : List ι) :
    run body a (x :: xs) = run body a' xs := by
  simp only [run, h]

theorem run_cons_of_inr {a : α} {x : ι} {b : β} (h : body a x = .inr b) (xs : List ι) :
    run body a (x :: xs) = if xs.isEmpty then some b else none := by
  simp only [run, h]

/-- The iterations that go on come back to the variables `a`. -/
def Steady (body : α → ι → α ⊕ β) (a : α) : Prop := ∀ x a', body a x = .inl a' → a' = a

/-- A run of a steady loop: all iterations but the last one go on. -/
theorem run_eq_some_iff {a : α} (hsteady : Steady body a) {xs : List ι} {b : β} :
    run body a xs = some b ↔
      ∃ ys x, xs = ys ++ [x] ∧ (∀ y ∈ ys, body a y = .inl a) ∧ body a x = .inr b := by
  induction xs with
  | nil => simp [run]
  | cons x xs ih =>
    cases hbody : body a x with
    | inl a' =>
      obtain rfl := hsteady x a' hbody
      rw [run_cons_of_inl hbody, ih]
      constructor
      · rintro ⟨ys, z, rfl, hys, hz⟩
        refine ⟨x :: ys, z, rfl, ?_, hz⟩
        exact forall_mem_cons.2 ⟨hbody, hys⟩
      · rintro ⟨ys, z, hsplit, hys, hz⟩
        cases ys with
        | nil =>
          -- the first iteration would be the last
          rw [nil_append, List.cons.injEq] at hsplit
          rw [← hsplit.1, hbody] at hz
          cases hz
        | cons y ys =>
          rw [cons_append, List.cons.injEq] at hsplit
          exact ⟨ys, z, hsplit.2, fun y hy => hys y (mem_cons_of_mem _ hy), hz⟩
    | inr b' =>
      rw [run_cons_of_inr hbody]
      constructor
      · intro h
        obtain ⟨hempty, hb⟩ : xs.isEmpty ∧ b' = b := by
          split at h
          · next he => exact ⟨he, Option.some.inj h⟩
          · cases h
        obtain rfl := List.isEmpty_iff.1 hempty
        exact ⟨[], x, rfl, by simp, by rw [hbody, hb]⟩
      · rintro ⟨ys, z, hsplit, hys, hz⟩
        cases ys with
        | nil =>
          obtain ⟨rfl, rfl⟩ := hsplit
          rw [hbody] at hz
          rw [Sum.inr.inj hz]
          rfl
        | cons y ys =>
          -- an iteration that goes on does not leave the loop
          rw [cons_append, List.cons.injEq] at hsplit
          have hgo := hys y mem_cons_self
          rw [← hsplit.1, hbody] at hgo
          cases hgo

/-- A steady loop that gets its answers from a stream is left in the first iteration that leaves
it. -/
theorem run_range_eq_some {a : α} (hsteady : Steady body a) (answers : ℕ → ι) (n : ℕ) {b : β} :
    run body a ((List.range n).map answers) = some b ↔
      ∃ k, n = k + 1 ∧ (∀ j < k, body a (answers j) = .inl a) ∧ body a (answers k) = .inr b := by
  rw [run_eq_some_iff hsteady]
  constructor
  · rintro ⟨ys, x, hsplit, hys, hx⟩
    cases n with
    | zero => simp at hsplit
    | succ k =>
      rw [range_succ, map_append] at hsplit
      obtain ⟨rfl, hlast⟩ := append_inj' hsplit rfl
      obtain rfl := singleton_inj.1 hlast
      exact ⟨k, rfl, fun j hj => hys _ (mem_map_of_mem (mem_range.2 hj)), hx⟩
  · rintro ⟨k, rfl, hgo, hlast⟩
    refine ⟨(List.range k).map answers, answers k, ?_, ?_, hlast⟩
    · rw [range_succ, map_append, map_singleton]
    · intro y hy
      obtain ⟨j, hj, rfl⟩ := mem_map.1 hy
      exact hgo j (mem_range.1 hj)

end Polling
