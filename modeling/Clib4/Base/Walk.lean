import Mathlib.Tactic

/-!
# Walks in a tree

A walk in a tree of directories goes to the parent or enters a child, step by step.  Where it
ends, seen from where it starts, is so many levels up and then down along a list of names.

## Main definitions

* `Place` — levels up and names down, the deepest name first.
* `Place.Move`, `Place.walk` — the steps, and a sequence of them.
* `Place.walkRooted` — a walk in a tree whose root is its own parent.
* `Place.StaysBelow` — a walk that does not go up beyond a given level.
* `Place.depth` — how much deeper than the start.

## Main results

* `Place.walk_append` — walks compose.
* `Place.walkRooted_eq_walk_of_up` — the root is not felt by a walk that does not go above it.
* `Place.depth_walk` — the depth counts the steps down and the steps up.
-/

/-- Where a walk has come to: `up` levels up from its start, then down. -/
structure Place (α : Type*) where
  up : ℕ := 0
  down : List α := []
  deriving DecidableEq, Repr

namespace Place

variable {α : Type*}

/-- The parent. -/
def parent (p : Place α) : Place α :=
  match p.down with
  | [] => { p with up := p.up + 1 }
  | _ :: down => { p with down := down }

/-- The child with the given name. -/
def enter (a : α) (p : Place α) : Place α := { p with down := a :: p.down }

@[simp] theorem parent_enter (a : α) (p : Place α) : (p.enter a).parent = p := rfl

/-- One step of a walk. -/
inductive Move (α : Type*)
  | stay
  | parent
  | enter (a : α)
  deriving DecidableEq, Repr

/-- Make a step. -/
def move (p : Place α) : Move α → Place α
  | .stay => p
  | .parent => p.parent
  | .enter a => p.enter a

/-- Make the steps of a walk. -/
def walk (p : Place α) (ms : List (Move α)) : Place α := ms.foldl move p

@[simp] theorem walk_nil (p : Place α) : p.walk [] = p := rfl

@[simp] theorem walk_cons (p : Place α) (m : Move α) (ms : List (Move α)) :
    p.walk (m :: ms) = (p.move m).walk ms := rfl

theorem walk_append (p : Place α) (ms ns : List (Move α)) :
    p.walk (ms ++ ns) = (p.walk ms).walk ns :=
  List.foldl_append ..

/-- A walk from a root, which is its own parent. -/
def walkRooted (p : Place α) (ms : List (Move α)) : Place α :=
  ms.foldl (fun p m => { p.move m with up := 0 }) p

/-- A walk that starts `d` levels deep and goes to the parent from levels below `k` only. -/
def StaysBelow (k : ℕ) : ℕ → List (Move α) → Prop
  | _, [] => True
  | d, .stay :: ms => StaysBelow k d ms
  | d, .parent :: ms => k < d ∧ StaysBelow k (d - 1) ms
  | d, .enter _ :: ms => StaysBelow k (d + 1) ms

/-- A walk never comes back below a level that it has left upwards. -/
theorem up_le_walk (p : Place α) (ms : List (Move α)) : p.up ≤ (p.walk ms).up := by
  induction ms generalizing p with
  | nil => exact Nat.le_refl _
  | cons m ms ih =>
    refine Nat.le_trans ?_ (ih (p.move m))
    cases m with
    | stay | enter a => exact Nat.le_refl _
    | parent =>
      obtain ⟨up, down⟩ := p
      cases down with
      | nil => exact Nat.le_succ up
      | cons a down => exact Nat.le_refl _

variable {p : Place α} {ms : List (Move α)}

/-- The root is not felt by a walk that does not go above it. -/
theorem walkRooted_eq_walk_of_up (h : (p.walk ms).up = 0) : p.walkRooted ms = p.walk ms := by
  induction ms generalizing p with
  | nil => rfl
  | cons m ms ih =>
    have hup : (p.move m).up = 0 := Nat.le_zero.1 (h ▸ up_le_walk (p.move m) ms)
    have hmove : ({ p.move m with up := 0 } : Place α) = p.move m := by rw [← hup]
    show ({ p.move m with up := 0 } : Place α).walkRooted ms = (p.move m).walk ms
    rw [hmove]
    exact ih h

/-- A walk that stays below a level does not go above its start. -/
theorem up_walk_of_staysBelow {k : ℕ} (hup : p.up = 0) (h : StaysBelow k p.down.length ms) :
    (p.walk ms).up = 0 := by
  induction ms generalizing p with
  | nil => exact hup
  | cons m ms ih =>
    cases m with
    | stay | enter a => exact ih hup h
    | parent =>
      obtain ⟨up, down⟩ := p
      obtain ⟨hlt, h⟩ := h
      cases down with
      | nil => cases hlt
      | cons a down => exact ih hup h

/-- How much deeper than its start a walk is. -/
def depth (p : Place α) : ℤ := p.down.length - p.up

/-- How much deeper a step goes. -/
def Move.descent : Move α → ℤ
  | .stay => 0
  | .parent => -1
  | .enter _ => 1

theorem depth_move (p : Place α) (m : Move α) : (p.move m).depth = p.depth + m.descent := by
  cases m with
  | stay => simp [move, Move.descent]
  | parent =>
    obtain ⟨up, down⟩ := p
    cases down with
    | nil | cons a down => simp [move, parent, depth, Move.descent]; omega
  | enter a => simp [move, enter, depth, Move.descent]; omega

/-- The depth counts the steps down and the steps up. -/
theorem depth_walk (p : Place α) (ms : List (Move α)) :
    (p.walk ms).depth = p.depth + (ms.map Move.descent).sum := by
  induction ms generalizing p with
  | nil => simp
  | cons m ms ih =>
    rw [walk_cons, ih, depth_move, List.map_cons, List.sum_cons]
    omega

end Place
