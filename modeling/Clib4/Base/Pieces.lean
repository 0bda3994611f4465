import Mathlib.Tactic

/-!
# Strings as pieces between separators

A string over an alphabet with a separator `x` is a first piece, followed by further pieces
that each have a separator in front: `p ++ glue x ps`.  The pieces are those of `List.splitOn`,
and functions that scan a string from left to right are understood piece by piece.

## Main definitions

* `Pieces.glue x ps` — the pieces `ps`, each with a separator in front.

## Main results

* `Pieces.splitOn_glue`, `Pieces.exists_glue` — every string is glued together from its pieces,
  which are unique.
-/

namespace Pieces

open List

variable {α : Type*}

/-- The pieces, each with a separator in front. -/
def glue (x : α) (ps : List (List α)) : List α := ps.flatMap (x :: ·)

@[simp] theorem glue_nil (x : α) : glue x [] = [] := rfl

@[simp] theorem glue_cons (x : α) (p : List α) (ps : List (List α)) :
    glue x (p :: ps) = x :: (p ++ glue x ps) := by
  simp [glue]

@[simp] theorem glue_append (x : α) (ps qs : List (List α)) :
    glue x (ps ++ qs) = glue x ps ++ glue x qs := by
  simp [glue]

/-- What is glued together is empty only if there is nothing to glue. -/
@[simp] theorem glue_eq_nil {x : α} {ps : List (List α)} : glue x ps = [] ↔ ps = [] := by
  cases ps <;> simp

theorem intercalate_cons (x : α) (p : List α) (ps : List (List α)) :
    [x].intercalate (p :: ps) = p ++ glue x ps := by
  induction ps generalizing p with
  | nil => simp
  | cons q ps ih => simp [ih]

/-- What stands behind the last separator is unique. -/
theorem eq_of_append_cons_eq {x : α} {a b q r : List α} (hq : x ∉ q) (hr : x ∉ r)
    (h : a ++ x :: q = b ++ x :: r) : q = r := by
  rcases append_eq_append_iff.1 h with ⟨c, -, hc⟩ | ⟨c, -, hc⟩
  · cases c with
    | nil => exact (List.cons.inj hc).2
    | cons d c =>
      -- the second separator would stand in `q`
      rw [(List.cons.inj hc).2] at hq
      exact absurd (by simp) hq
  · cases c with
    | nil => exact (List.cons.inj hc).2.symm
    | cons d c =>
      rw [(List.cons.inj hc).2] at hr
      exact absurd (by simp) hr

variable [BEq α] [LawfulBEq α]

/-- The pieces can be read off again. -/
theorem splitOn_glue {x : α} {p : List α} {ps : List (List α)} (hp : x ∉ p)
    (hps : ∀ q ∈ ps, x ∉ q) : (p ++ glue x ps).splitOn x = p :: ps := by
  rw [← intercalate_cons]
  refine splitOn_intercalate x ?_ (cons_ne_nil _ _)
  exact forall_mem_cons.2 ⟨hp, hps⟩

/-- No piece contains the separator. -/
theorem not_mem_of_mem_splitOn {x : α} {s q : List α} (h : q ∈ s.splitOn x) : x ∉ q := by
  induction s generalizing q with
  | nil =>
    simp only [splitOn_nil, mem_singleton] at h
    simp [h]
  | cons c s ih =>
    rw [splitOn_cons_eq_if_modifyHead] at h
    split at h
    · rcases mem_cons.1 h with rfl | h
      · simp
      · exact ih h
    case isFalse hc =>
      obtain ⟨p, ps, hsplit⟩ := exists_cons_of_ne_nil (splitOn_ne_nil x s)
      rw [hsplit] at h ih
      rcases mem_cons.1 h with rfl | h
      · have hp := ih mem_cons_self
        simp only [beq_iff_eq] at hc
        simp [hp, Ne.symm hc]
      · exact ih (mem_cons_of_mem _ h)

/-- Every string is glued together from its pieces. -/
theorem exists_glue (x : α) (s : List α) :
    ∃ p ps, s = p ++ glue x ps ∧ s.splitOn x = p :: ps ∧ x ∉ p ∧ ∀ q ∈ ps, x ∉ q := by
  obtain ⟨p, ps, hsplit⟩ := exists_cons_of_ne_nil (splitOn_ne_nil x s)
  refine ⟨p, ps, ?_, hsplit, ?_, ?_⟩
  · rw [← intercalate_cons, ← hsplit, intercalate_splitOn]
  · exact not_mem_of_mem_splitOn (by rw [hsplit]; exact mem_cons_self)
  · intro q hq
    exact not_mem_of_mem_splitOn (by rw [hsplit]; exact mem_cons_of_mem _ hq)

end Pieces
