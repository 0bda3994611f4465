import Clib4.Base.Buffer
import Clib4.Base.Loop
import Clib4.Path.Meaning
import Mathlib.Data.List.GetD

/-!
# Removing double slashes

`__strip_double_slash` takes the redundant parts out of an AmigaDOS path name: a component that
is followed by two slashes is entered and left again.  It scans the name from its end, and
starts over each time it has removed something.

## Main definitions

* `Reduced` — no component is followed by two slashes.

## Main results

* `stripDoubleSlash_spec` — **the name leads to the same place, and is reduced.**
-/

namespace Clib4

open Splice List

/-- What ends a component. -/
def isSeparator (c : UInt8) : Bool := c == colon || c == slash

/-- The loop that looks for the start of a component: back to a separator, or to the first
character. -/
def backUp (name : List UInt8) : ℕ → ℕ
  | 0 => 0
  | position + 1 =>
    if isSeparator (name.getD (position + 1) 0) then position + 1 else backUp name position

/-- Where the component with the given position starts. -/
def componentStart (name : List UInt8) (position : ℕ) : ℕ :=
  let position := backUp name position
  -- don't move too far
  if isSeparator (name.getD position 0) then position + 1 else position

/-- A `//` ends at the position, and stands alone behind a component. -/
def removable (name : List UInt8) (position : ℕ) : Bool :=
  1 < position && name.getD position 0 == slash && name.getD (position - 1) 0 == slash &&
    !isSeparator (name.getD (position - 2) 0)

/-- One iteration of the loop of `__strip_double_slash`, with the name and `position`. -/
def stripBody : List UInt8 × ℕ → (List UInt8 × ℕ) ⊕ List UInt8
  | (name, position) =>
    if name.length ≤ 1 then .inr name
    else
      let position := position - 1
      -- stop when we hit the volume name or the first character of the name
      if position = 0 ∨ name.getD position 0 = colon ∨ name.getD (position - 1) 0 = colon then
        .inr name
      else if removable name position then
        let start := componentStart name (position - 2)
        let shorter := name.take start ++ name.drop (position + 1)
        .inl (shorter, shorter.length)
      else .inl (name, position)

def stripDoubleSlash (name : List UInt8) : List UInt8 :=
  (Loop.run stripBody (name.length * name.length + name.length + 1) (name, name.length)).getD name

/-- The same in memory, with `file_name`, `len` and `position`. -/
def stripIn {size : ℕ} : Buffer UInt8 size × ℕ × ℕ →
    (Buffer UInt8 size × ℕ × ℕ) ⊕ Option (Buffer UInt8 size × ℕ)
  | (fileName, len, position) =>
    if len ≤ 1 then .inr (some (fileName, len))
    else
      let position := position - 1
      if position = 0 ∨ fileName.cells.getD position 0 = colon ∨
          fileName.cells.getD (position - 1) 0 = colon then .inr (some (fileName, len))
      else if removable fileName.cells position then
        let start := componentStart fileName.cells (position - 2)
        let delta := position - start + 1
        let len := len - delta
        -- one more byte than necessary, for the terminator
        match fileName.move start (start + delta) (len - start + 1) with
        | some fileName => .inl (fileName, len, len)
        | none => .inr none
      else .inl (fileName, len, position)

/-- The same without a value if a byte outside is read: what is read stands at `position - 1`, or in
front of it. -/
def stripChecked {size : ℕ} (s : Buffer UInt8 size × ℕ × ℕ) :
    (Buffer UInt8 size × ℕ × ℕ) ⊕ Option (Buffer UInt8 size × ℕ) :=
  if 1 < s.2.1 ∧ (s.2.2 = 0 ∨ size < s.2.2) then .inr none else stripIn s

/-- No component is followed by two slashes. -/
def Reduced (name : List UInt8) : Prop := ∀ j < name.length, removable name j = false

/-! ### The start of a component -/

variable {name : List UInt8} {p i : ℕ}

theorem componentStart_spec (hp : isSeparator (name.getD p 0) = false) : componentStart name p ≤ p ∧
      (∀ i, componentStart name p ≤ i → i ≤ p → isSeparator (name.getD i 0) = false) ∧
      (componentStart name p = 0 ∨
        isSeparator (name.getD (componentStart name p - 1) 0) = true) := by
  induction p with
  | zero =>
    have hzero : componentStart name 0 = 0 := by simp only [componentStart, backUp, hp]; rfl
    rw [hzero]
    refine ⟨Nat.le_refl _, ?_, .inl rfl⟩
    intro i _ hi
    rw [Nat.le_zero.1 hi]
    exact hp
  | succ p ih =>
    have hback : backUp name (p + 1) = backUp name p := by rw [backUp, hp]; rfl
    have hstart : componentStart name (p + 1) = componentStart name p := by
      simp only [componentStart, hback]
    rw [hstart]
    cases hsep : isSeparator (name.getD p 0) with
    | true =>
      -- the component starts right behind the separator at `p`
      have hp' : backUp name p = p := by
        cases p with
        | zero => rfl
        | succ p => rw [backUp, hsep]; rfl
      have hnext : componentStart name p = p + 1 := by
        simp only [componentStart, hp', hsep, if_true]
      rw [hnext]
      refine ⟨Nat.le_refl _, ?_, .inr hsep⟩
      intro i hi hi'
      rw [Nat.le_antisymm hi' hi]
      exact hp
    | false =>
      obtain ⟨hle, hall, hbefore⟩ := ih hsep
      refine ⟨by omega, ?_, hbefore⟩
      intro i hi hi'
      by_cases hip : i = p + 1
      · rw [hip]
        exact hp
      · exact hall i hi (by omega)

/-! ### One removal -/

theorem removable_iff :
    removable name p = true ↔ 1 < p ∧ name.getD p 0 = slash ∧ name.getD (p - 1) 0 = slash ∧
      isSeparator (name.getD (p - 2) 0) = false := by
  simp [removable, and_assoc]

/-- The three parts of a name around a component that is left again. -/
theorem exists_removable (hp : p < name.length) (h : removable name p = true) :
    ∃ a x b, name = a ++ (x ++ slash :: slash :: b) ∧ EndsComponent a ∧ x ≠ [] ∧ slash ∉ x ∧
      colon ∉ x ∧ name.take (componentStart name (p - 2)) ++ name.drop (p + 1) = a ++ b := by
  obtain ⟨hone, hslash, hslash', hsep⟩ := removable_iff.1 h
  obtain ⟨hle, hall, hbefore⟩ := componentStart_spec hsep
  generalize componentStart name (p - 2) = q at hle hall hbefore ⊢
  -- the component lies between `q` and `p - 1`
  have hsplit : name = name.take q ++ ((name.drop q).take (p - 1 - q) ++ name.drop (p - 1)) := by
    have hdrop : name.drop (p - 1) = (name.drop q).drop (p - 1 - q) := by
      rw [drop_drop]
      congr 1
      omega
    rw [hdrop, take_append_drop, take_append_drop]
  have hslashes : name.drop (p - 1) = slash :: slash :: name.drop (p + 1) := by
    rw [drop_eq_getElem_cons (by omega : p - 1 < name.length)]
    have hpred : p - 1 + 1 = p := by omega
    rw [hpred, drop_eq_getElem_cons hp, ← getD_eq_getElem _ 0, ← getD_eq_getElem _ 0, hslash,
      hslash']
  have hin : ∀ c ∈ (name.drop q).take (p - 1 - q), isSeparator c = false := by
    intro c hc
    obtain ⟨i, hi, rfl⟩ := mem_iff_getElem.1 hc
    simp only [length_take] at hi
    rw [getElem_take, getElem_drop, ← getD_eq_getElem _ 0]
    exact hall _ (by omega) (by omega)
  refine ⟨name.take q, (name.drop q).take (p - 1 - q), name.drop (p + 1), ?_, ?_, ?_, ?_, ?_, rfl⟩
  · rw [← hslashes]
    exact hsplit
  · rcases hbefore with rfl | hbefore
    · exact .inl rfl
    · -- the text in front ends with the separator before `q`
      cases hq : q with
      | zero => exact .inl rfl
      | succ q =>
        rw [hq, Nat.add_sub_cancel, getD_eq_getElem _ _ (by omega)] at hbefore
        refine .inr ⟨name.take q, ?_⟩
        rw [take_add_one, getElem?_eq_getElem (by omega)]
        simp only [isSeparator, Bool.or_eq_true, beq_iff_eq] at hbefore
        rcases hbefore with hbefore | hbefore
        · right; simp [hbefore]
        · left; simp [hbefore]
  · intro hnil
    have hlen := congrArg List.length hnil
    simp only [length_take, length_drop, length_nil] at hlen
    omega
  · intro hmem
    have := hin _ hmem
    simp [isSeparator] at this
  · intro hmem
    have := hin _ hmem
    simp [isSeparator] at this

theorem VolumeOk.getD_ne_slash (h : VolumeOk name) {j : ℕ} (hi : name.getD i 0 = colon)
    (hji : j < i) : name.getD j 0 ≠ slash := by
  have hlt : i < name.length := by
    by_contra hge
    rw [getD_eq_getElem?_getD, getElem?_eq_none (by omega)] at hi
    cases hi
  rw [getD_eq_getElem _ _ hlt] at hi
  rw [getD_eq_getElem _ _ (by omega)]
  rcases h with hno | ⟨volume, rest, rfl, hvol, hslash, hrest⟩
  · exact absurd (hi ▸ getElem_mem hlt) hno
  · have hvi : i ≤ volume.length := by
      by_contra hgt
      rw [getElem_append_right (by omega)] at hi
      obtain ⟨k, hk⟩ : ∃ k, i - volume.length = k + 1 := ⟨i - volume.length - 1, by omega⟩
      simp only [hk] at hi
      exact hrest (hi ▸ getElem_mem _)
    rw [getElem_append_left (by omega)]
    intro hj
    exact hslash (hj ▸ getElem_mem _)

/-! ### The loop -/

/-- One removal: a component that two slashes follow, with the slashes. -/
def Removes (name shorter : List UInt8) : Prop :=
  ∃ a x b, name = a ++ (x ++ slash :: slash :: b) ∧ EndsComponent a ∧ x ≠ [] ∧ slash ∉ x ∧
    colon ∉ x ∧ shorter = a ++ b

/-- What the loop keeps: the name leads where the original led, and nothing can be removed from
the position on. -/
structure Stripping (original : List UInt8) (s : List UInt8 × ℕ) : Prop where
  removed : Relation.ReflTransGen Removes original s.1
  ok : VolumeOk s.1
  meaning : amigaMeaning s.1 = amigaMeaning original
  shorter : s.1.length ≤ original.length
  bound : s.2 ≤ s.1.length
  positive : 1 < s.1.length → 0 < s.2
  done : ∀ j, s.2 ≤ j → j < s.1.length → removable s.1 j = false

/-- What the loop is left with. -/
structure Stripped (original name : List UInt8) : Prop where
  removed : Relation.ReflTransGen Removes original name
  ok : VolumeOk name
  meaning : amigaMeaning name = amigaMeaning original
  shorter : name.length ≤ original.length
  reduced : Reduced name

theorem not_removable_of_le (hp : p ≤ 1) : removable name p = false := by
  rw [Bool.eq_false_iff]
  intro h
  have := (removable_iff.1 h).1
  omega

theorem not_removable_of_colon (h : VolumeOk name) {j : ℕ} (hi : name.getD i 0 = colon)
    (hj : j ≤ i + 1) : removable name j = false := by
  rw [Bool.eq_false_iff]
  intro hr
  obtain ⟨hone, hslash, hslash', -⟩ := removable_iff.1 hr
  rcases Nat.lt_trichotomy j i with hlt | rfl | hgt
  · exact h.getD_ne_slash hi hlt hslash
  · rw [hi] at hslash
    cases hslash
  · have hji : j - 1 = i := by omega
    rw [hji, hi] at hslash'
    cases hslash'

theorem stripBody_spec {original : List UInt8} (s : List UInt8 × ℕ) (h : Stripping original s) :
    Loop.Progress stripBody (Stripping original) (fun s => s.1.length * s.1.length + s.2)
      (Stripped original) s := by
  obtain ⟨name, position⟩ := s
  obtain ⟨hremoved, hok, hmean, hshorter, hbound, hpositive, hdone⟩ := h
  dsimp only at *
  rw [Loop.Progress, stripBody]
  by_cases hlen : name.length ≤ 1
  · rw [if_pos hlen]
    refine .inr ⟨name, rfl, hremoved, hok, hmean, hshorter, ?_⟩
    intro j hj
    exact not_removable_of_le (by omega)
  rw [if_neg hlen]
  dsimp only
  split
  case isTrue hstop =>
    refine .inr ⟨name, rfl, hremoved, hok, hmean, hshorter, ?_⟩
    intro j hj
    -- the positions that have not been looked at belong to the volume
    by_cases hjp : position ≤ j
    · exact hdone j hjp hj
    rcases hstop with hzero | hcol | hcol
    · exact not_removable_of_le (by omega)
    · exact not_removable_of_colon hok hcol (by omega)
    · exact not_removable_of_colon hok hcol (by omega)
  case isFalse hgo =>
    split
    case isTrue hremove =>
      obtain ⟨a, x, b, hname, ha, hx, hslash, hcol, hnew⟩ :=
        exists_removable (by omega) hremove
      rw [hnew]
      subst hname
      obtain ⟨hok', hmean'⟩ := amigaMeaning_remove hok ha hx hslash hcol
      have hxpos : 0 < x.length := length_pos_iff.2 hx
      have hless : (a ++ b).length + 3 ≤ (a ++ (x ++ slash :: slash :: b)).length := by
        simp only [length_append, length_cons]
        omega
      have hremoves : Removes (a ++ (x ++ slash :: slash :: b)) (a ++ b) :=
        ⟨a, x, b, rfl, ha, hx, hslash, hcol, rfl⟩
      left
      refine ⟨(a ++ b, (a ++ b).length), rfl,
        ⟨hremoved.tail hremoves, hok', hmean'.trans hmean, ?_, ?_, ?_, ?_⟩, ?_⟩
      · dsimp only; omega
      · exact Nat.le_refl _
      · intro hlong; dsimp only at *; omega
      · intro j hj hj'
        dsimp only at hj hj'
        omega
      · -- the square of the length outweighs the position
        nlinarith
    case isFalse hkeep =>
      refine .inl ⟨(name, position - 1), rfl, ⟨hremoved, hok, hmean, hshorter, ?_, ?_, ?_⟩, ?_⟩
      · dsimp only; omega
      · intro _; dsimp only; omega
      · intro j hj hj'
        by_cases hjp : j = position - 1
        · rw [hjp]
          exact Bool.eq_false_iff.2 hkeep
        · exact hdone j (by omega) hj'
      · dsimp only; omega

theorem Stripping.start (h : VolumeOk name) : Stripping name (name, name.length) := by
  refine ⟨.refl, h, rfl, Nat.le_refl _, Nat.le_refl _, ?_, ?_⟩
  · dsimp only at *
    omega
  · intro j hj hj'
    dsimp only at hj hj'
    omega

/-- **The name leads to the same place, and no component is followed by two slashes.** -/
theorem stripDoubleSlash_spec (h : VolumeOk name) : Stripped name (stripDoubleSlash name) := by
  refine Loop.getD_run_spec (Stripping name) (fun s => s.1.length * s.1.length + s.2)
    (Stripped name) stripBody_spec _ (name, name.length) name (.start h) (Nat.lt_succ_self _)

example : stripDoubleSlash [97, 58, 98, 47, 99, 47, 47, 47, 100] = [97, 58, 100] := by decide

/-! ### The name in memory -/

/-- The search for the start of a component reads no further than where it starts. -/
theorem componentStart_congr {l l' : List UInt8} (h : ∀ q ≤ p, l.getD q 0 = l'.getD q 0) :
    componentStart l p = componentStart l' p := by
  have hback : backUp l p = backUp l' p ∧ backUp l p ≤ p := by
    induction p with
    | zero => exact ⟨rfl, Nat.le_refl 0⟩
    | succ p ih =>
      obtain ⟨heq, hle⟩ := ih fun q hq => h q (by omega)
      rw [backUp, backUp, h (p + 1) (Nat.le_refl _)]
      split
      · exact ⟨rfl, Nat.le_refl _⟩
      · exact ⟨heq, by omega⟩
  rw [componentStart, componentStart, ← hback.1, h _ hback.2]

variable {size : ℕ} {fileName : Buffer UInt8 size}

/-- A name stands in memory, with the zero that ends it. -/
def Stands (fileName : Buffer UInt8 size) (name : List UInt8) : Prop :=
  name ++ [0] <+: fileName.cells

theorem Stands.getD_eq (h : Stands fileName name) (hp : p < name.length) :
    fileName.cells.getD p 0 = name.getD p 0 := by
  obtain ⟨rest, hrest⟩ := h
  rw [← hrest, append_assoc, getD_eq_getElem?_getD, getElem?_append_left hp,
    getD_eq_getElem?_getD]

/-- A component and the slashes behind it are taken out of the buffer. -/
theorem Stands.move {q : ℕ} (h : Stands fileName name) (hpq : p ≤ q) (hq : q ≤ name.length) :
    ∃ b, fileName.move p q (name.length - q + 1) = some b ∧
      Stands b (name.take p ++ name.drop q) := by
  have hsize : name.length + 1 ≤ size := by
    have := h.length_le
    rwa [length_append, fileName.length_cells] at this
  have hwindow : window fileName.cells q (name.length - q + 1) = name.drop q ++ [0] := by
    obtain ⟨rest, hrest⟩ := h
    rw [window, ← hrest, append_assoc, drop_append_of_le_length hq, ← append_assoc]
    exact take_left' (by simp)
  obtain ⟨b, hb, hcells⟩ := fileName.exists_write
    (show p + (name.drop q ++ [0]).length ≤ size by
      rw [length_append, length_drop, length_singleton]; omega)
  refine ⟨b, by rw [Buffer.move, if_pos (by omega), hwindow, hb], ?_⟩
  have hpre : name.take p <+: fileName.cells :=
    ((List.take_prefix p name).trans (prefix_append name [0])).trans h
  have hlen : (name.take p).length = p := by rw [length_take]; omega
  rw [← hlen] at hcells
  rw [Stands, append_assoc]
  exact Buffer.append_prefix_of_write hpre hcells

/-- The variables of the loop in memory, and those of the loop on the name. -/
def InMemory (a : Buffer UInt8 size × ℕ × ℕ) (a' : List UInt8 × ℕ) : Prop :=
  Stands a.1 a'.1 ∧ a.2.1 = a'.1.length ∧ a.2.2 = a'.2 ∧ a'.2 ≤ a'.1.length

theorem stripIn_rel {a : Buffer UInt8 size × ℕ × ℕ} {a' : List UInt8 × ℕ} (hin : InMemory a a') :
    Sum.LiftRel InMemory (fun r name => ∃ b, r = some (b, name.length) ∧ Stands b name)
      (stripIn a) (stripBody a') := by
  obtain ⟨fileName, len, position⟩ := a
  obtain ⟨name, position'⟩ := a'
  obtain ⟨h, hlen, hpos, hposition⟩ := hin
  dsimp only at h hlen hpos hposition
  subst hlen hpos
  rw [stripIn, stripBody]
  split
  · exact .inr ⟨fileName, rfl, h⟩
  dsimp only
  by_cases hzero : position - 1 = 0
  · rw [if_pos (.inl hzero), if_pos (.inl hzero)]
    exact .inr ⟨fileName, rfl, h⟩
  have hget : ∀ p < position, fileName.cells.getD p 0 = name.getD p 0 :=
    fun p hp => h.getD_eq (by omega)
  have hremovable : removable fileName.cells (position - 1) = removable name (position - 1) := by
    simp only [removable, hget (position - 1) (by omega), hget (position - 1 - 1) (by omega),
      hget (position - 1 - 2) (by omega)]
  rw [hget (position - 1) (by omega), hget (position - 1 - 1) (by omega), hremovable]
  split
  · exact .inr ⟨fileName, rfl, h⟩
  split
  case isFalse =>
    exact .inl ⟨h, rfl, rfl, (Nat.sub_le position 1).trans hposition⟩
  case isTrue hyes =>
    obtain ⟨hone, -, -, hseparator⟩ := removable_iff.1 hyes
    obtain ⟨hle, -, -⟩ := componentStart_spec hseparator
    rw [componentStart_congr fun q hq => hget q (by omega)]
    generalize componentStart name (position - 1 - 2) = start at hle ⊢
    obtain ⟨b, hb, hstands⟩ := h.move (p := start) (q := position) (by omega) hposition
    have hq : start + (position - 1 - start + 1) = position := by omega
    have hn : name.length - (position - 1 - start + 1) - start + 1
        = name.length - position + 1 := by
      omega
    have hdrop : position - 1 + 1 = position := by omega
    have hlength : name.length - (position - 1 - start + 1)
        = (name.take start ++ name.drop position).length := by
      simp only [length_append, length_take, length_drop]
      omega
    rw [hq, hn, hb, hdrop]
    exact .inl ⟨hstands, hlength, hlength, Nat.le_refl _⟩

theorem stripChecked_rel {original : List UInt8} {a : Buffer UInt8 size × ℕ × ℕ}
    {a' : List UInt8 × ℕ} (hin : InMemory a a') (h : Stripping original a') :
    Sum.LiftRel (fun a a' => InMemory a a' ∧ Stripping original a')
      (fun r name => ∃ b, r = some (b, name.length) ∧ Stands b name) (stripChecked a)
      (stripBody a') := by
  have hrel := stripIn_rel hin
  have hinside : ¬ (1 < a.2.1 ∧ (a.2.2 = 0 ∨ size < a.2.2)) := by
    obtain ⟨hstands, hlen, hpos, hle⟩ := hin
    have hsize := hstands.length_le
    rw [length_append, a.1.length_cells] at hsize
    have hpositive := h.positive
    omega
  rw [stripChecked, if_neg hinside]
  generalize stripIn a = next at hrel
  rcases stripBody_spec a' h with ⟨a₁, hbody, h₁, -⟩ | ⟨name, hbody, -⟩
  · rw [hbody] at hrel ⊢
    cases hrel with
    | inl hnext => exact .inl ⟨hnext, h₁⟩
  · rw [hbody] at hrel ⊢
    cases hrel with
    | inr hnext => exact .inr hnext

/-- A name from which something can be removed is not reduced. -/
theorem Removes.not_reduced {shorter : List UInt8} (h : Removes name shorter) :
    ¬ Reduced name := by
  intro hreduced
  obtain ⟨a, x, b, rfl, -, hx, hslash, hcol, -⟩ := h
  rcases eq_nil_or_concat' x with rfl | ⟨x, c, rfl⟩
  · exact hx rfl
  have hc : isSeparator c = false := by
    simp only [mem_append, mem_singleton, not_or] at hslash hcol
    simp [isSeparator, Ne.symm hslash.2, Ne.symm hcol.2]
  have hget : ∀ k, (a ++ (x ++ [c] ++ slash :: slash :: b)).getD ((a ++ x).length + k) 0
      = (c :: slash :: slash :: b).getD k 0 := by
    intro k
    simp only [append_assoc, singleton_append, getD_eq_getElem?_getD]
    rw [← append_assoc, getElem?_append_right (Nat.le_add_right _ _), Nat.add_sub_cancel_left]
  have hfalse := hreduced ((a ++ x).length + 2) (by simp; omega)
  have hsep := (congrArg isSeparator (hget 0)).trans hc
  rw [removable_iff.2 ⟨by omega, hget 2, hget 1, hsep⟩] at hfalse
  cases hfalse

/-- **The function reduces the name.** -/
theorem stripDoubleSlash_reduces (h : VolumeOk name) :
    (∃ n b, Loop.run stripChecked n
        ((⟨name ++ [0], rfl⟩ : Buffer UInt8 (name ++ [0]).length), name.length, name.length) =
          some (some (b, (stripDoubleSlash name).length)) ∧ Stands b (stripDoubleSlash name)) ∧
      amigaMeaning (stripDoubleSlash name) = amigaMeaning name ∧
      Reduced (stripDoubleSlash name) ∧
      stripDoubleSlash (stripDoubleSlash name) = stripDoubleSlash name := by
  have hstripped := stripDoubleSlash_spec h
  refine ⟨?_, hstripped.meaning, hstripped.reduced, ?_⟩
  · obtain ⟨result, hres, -⟩ := Loop.run_spec _ _ _ stripBody_spec
      (name.length * name.length + name.length + 1) (name, name.length) (.start h)
      (Nat.lt_succ_self _)
    have hin : InMemory ((⟨name ++ [0], rfl⟩ : Buffer UInt8 (name ++ [0]).length), name.length,
        name.length) (name, name.length) := ⟨prefix_refl _, rfl, rfl, Nat.le_refl _⟩
    rcases Loop.run_rel _ _ (fun _ _ h => stripChecked_rel h.1 h.2) _
        (And.intro hin (Stripping.start h))
      with ⟨-, hnone⟩ | ⟨r, result', hrun, hrun', b, rfl, hb⟩
    · rw [hres] at hnone
      cases hnone
    · have hname : stripDoubleSlash name = result' := congrArg (·.getD name) hrun'
      rw [hname]
      exact ⟨_, b, hrun, hb⟩
  · rcases Relation.ReflTransGen.cases_head (stripDoubleSlash_spec hstripped.ok).removed with
      heq | ⟨shorter, hremoves, -⟩
    · exact heq.symm
    · exact absurd hstripped.reduced hremoves.not_reduced

/-- The name `a/b//` becomes `a/`. -/
theorem stripDoubleSlash_reduces_last : Reduced (stripDoubleSlash [97, 47, 98, 47, 47]) :=
  (stripDoubleSlash_reduces (.inl (by decide))).2.2.1

end Clib4
