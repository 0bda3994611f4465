import Mathlib.Tactic

/-!
# Linked lists in a store

The nodes of a linked list are the keys of a store, and `next` is the link that the store
keeps for each of them.  `Linked next p l` says that following the links from the pointer `p`
visits the nodes `l`, in this order, and then ends.

## Main results

* `Linked.unique`, `Linked.nodup` — a pointer represents one list at most, and a list that
  ends meets no node twice.
* `Linked.congr` — only the links of the nodes on the list matter.
* `Linked.unlink` — what taking a node out does.
* `Linked.concat` — what linking a node to the last one does.
-/

variable {α : Type*}

/-- Following `next` from `p` visits the nodes `l` and ends there. -/
def Linked (next : α → Option α) : Option α → List α → Prop
  | p, [] => p = none
  | p, a :: l => p = some a ∧ Linked next (next a) l

namespace Linked

open List

variable {next next' : α → Option α} {p : Option α} {a b : α} {l l₁ l₂ : List α}

@[simp] theorem nil_iff : Linked next p [] ↔ p = none := Iff.rfl

@[simp] theorem cons_iff : Linked next p (a :: l) ↔ p = some a ∧ Linked next (next a) l := Iff.rfl

/-- A null pointer is the empty list. -/
theorem eq_nil_of_none (h : Linked next none l) : l = [] := by
  cases l with
  | nil => rfl
  | cons a l => cases h.1

/-- The list at a node starts with the node. -/
theorem eq_cons_of_some (h : Linked next (some a) l) :
    ∃ l', l = a :: l' ∧ Linked next (next a) l' := by
  cases l with
  | nil => cases h
  | cons b l =>
    obtain ⟨hb, hl⟩ := h
    cases hb
    exact ⟨l, rfl, hl⟩

theorem unique (h₁ : Linked next p l₁) (h₂ : Linked next p l₂) : l₁ = l₂ := by
  induction l₁ generalizing p l₂ with
  | nil =>
    cases h₁
    exact (eq_nil_of_none h₂).symm
  | cons a l₁ ih =>
    obtain ⟨rfl, hl₁⟩ := h₁
    obtain ⟨l', rfl, hl'⟩ := eq_cons_of_some h₂
    rw [ih hl₁ hl']

/-- The list at a node that the list visits is the rest of the list from there. -/
theorem of_append (h : Linked next p (l₁ ++ a :: l₂)) : Linked next (some a) (a :: l₂) := by
  induction l₁ generalizing p with
  | nil => exact ⟨rfl, h.2⟩
  | cons b l₁ ih => exact ih h.2

/-- **A list that ends meets no node twice.**  Otherwise the rest of the list from the first
meeting would be the rest from the second, which is shorter. -/
theorem nodup (h : Linked next p l) : l.Nodup := by
  induction l generalizing p with
  | nil => exact nodup_nil
  | cons a l ih =>
    obtain ⟨rfl, hl⟩ := h
    refine nodup_cons.2 ⟨?_, ih hl⟩
    intro hmem
    obtain ⟨l₁, l₂, rfl⟩ := append_of_mem hmem
    have hrest : l₁ ++ a :: l₂ = l₂ := unique hl (of_append hl).2
    have hlen := congrArg List.length hrest
    simp only [length_append, length_cons] at hlen
    omega

/-- Only the links of the nodes on the list matter. -/
theorem congr (h : Linked next p l) (heq : ∀ a ∈ l, next' a = next a) : Linked next' p l := by
  induction l generalizing p with
  | nil => exact h
  | cons a l ih =>
    refine ⟨h.1, ?_⟩
    rw [heq a mem_cons_self]
    exact ih h.2 fun b hb => heq b (mem_cons_of_mem _ hb)

/-- The node whose link leads to `b` is the one in front of `b`. -/
theorem exists_pred (h : Linked next (some a) (a :: l)) (hb : b ∈ l) :
    ∃ l₁ c l₂, a :: l = l₁ ++ c :: b :: l₂ ∧ next c = some b := by
  induction l generalizing a with
  | nil => cases hb
  | cons d l ih =>
    by_cases hbd : b = d
    · subst hbd
      exact ⟨[], a, l, rfl, h.2.1⟩
    · have hmem : b ∈ l := (mem_cons.1 hb).resolve_left hbd
      obtain ⟨l₁, c, l₂, hl, hc⟩ := ih ⟨rfl, h.2.2⟩ hmem
      exact ⟨a :: l₁, c, l₂, by rw [hl]; rfl, hc⟩

/-- Taking out the node `b` behind `c`: the link of `c` skips it. -/
theorem unlink (h : Linked next p (l₁ ++ a :: b :: l₂)) (hskip : next' a = next b)
    (heq : ∀ c, c ≠ a → next' c = next c) : Linked next' p (l₁ ++ a :: l₂) := by
  have hnodup := h.nodup
  induction l₁ generalizing p with
  | nil =>
    obtain ⟨hp, -, hrest⟩ := h
    refine ⟨hp, ?_⟩
    rw [hskip]
    refine hrest.congr fun c hc => heq c ?_
    rintro rfl
    simp only [nil_append, nodup_cons, mem_cons, not_or] at hnodup
    exact hnodup.1.2 hc
  | cons d l₁ ih =>
    rw [cons_append, nodup_cons] at hnodup
    refine ⟨h.1, ?_⟩
    have hda : d ≠ a := by
      rintro rfl
      exact hnodup.1 (by simp)
    rw [heq d hda]
    exact ih h.2 hnodup.2

/-- Linking the node `b` to the last one, `a`. -/
theorem concat (h : Linked next p (l ++ [a])) (hlink : next' a = some b) (hend : next' b = none)
    (heq : ∀ c, c ≠ a → c ≠ b → next' c = next c) (hb : b ∉ l) :
    Linked next' p (l ++ [a, b]) := by
  have hnodup := h.nodup
  induction l generalizing p with
  | nil => exact ⟨h.1, hlink, hend⟩
  | cons c l ih =>
    rw [cons_append, nodup_cons] at hnodup
    have hca : c ≠ a := by
      rintro rfl
      exact hnodup.1 (by simp)
    have hcb : c ≠ b := by
      rintro rfl
      exact hb mem_cons_self
    refine ⟨h.1, ?_⟩
    rw [heq c hca hcb]
    exact ih h.2 (fun hmem => hb (mem_cons_of_mem c hmem)) hnodup.2

end Linked
