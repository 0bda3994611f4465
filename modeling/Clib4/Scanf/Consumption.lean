import Clib4.Scanf.StreamScan

/-!
# What the branches of vfscanf consume

Every branch of `vfscanf` pushes back only the character it has read last, but for the conversions
of floating point numbers: they return the letters of a keyword that fails.  Up to there and from
there on, what a branch does depends on the text that is left alone, and `total_num_chars_read`
counts what it consumes.

## Main definitions

* `Counting` — a branch counts what it consumes.

## Main results

* `dispatchScanner_counting` — **all other conversions count what they consume.**
-/

namespace Clib4

open PushBack PushBack.Prog Yields

/-! ### The branches that count -/

/-- The branch counts what it consumes. -/
def Counting (branch : Scanner Outcome) (read : ℕ) : Prop :=
  branch.Yields fun n o => o.read = read + n

theorem skipBlanks_yields (read : ℕ) :
    (skipBlanks read).Yields fun n v => v.1 = read + n := by
  refine bind
    (readLoop_count (fun t : ℕ × Option UInt8 => t.1) ?_) ?_
  · intro t c
    by_cases hc : isSpace c = true <;> simp [hc]
  · intro n v hv
    exact .done hv

/-- White space: the count, the next character and what is left. -/
theorem run_skipBlanks (read : ℕ) (text : List UInt8) :
    (skipBlanks read).run (unlimited UInt8) text =
      (some (read + (text.takeWhile isSpace).length, (skipSpace text).head?), skipSpace text) := by
  have hloop : ∀ t : ℕ × Option UInt8, ∃ v e,
      (Prog.readLoop (fun _ => true) (fun t c => if isSpace c then .take (t.1 + 1, some c)
        else .back (t.1, some c)) t).run (unlimited UInt8) text = (some (v, e), skipSpace text) ∧
      v.1 = t.1 + (text.takeWhile isSpace).length ∧
      (if e = .ended then none else v.2) = (skipSpace text).head? := by
    induction text with
    | nil =>
      intro t
      exact ⟨_, _, run_readLoop_nil _ rfl, rfl, rfl⟩
    | cons c text ih =>
      intro t
      rw [run_readLoop_cons _ rfl]
      cases hc : isSpace c with
      | true =>
        obtain ⟨v, e, hrun, hcount, hnext⟩ := ih (t.1 + 1, some c)
        rw [skipSpace, List.dropWhile_cons_of_pos hc, List.takeWhile_cons_of_pos hc,
          List.length_cons]
        exact ⟨v, e, hrun, hcount.trans (by dsimp only; omega), hnext⟩
      | false =>
        rw [skipSpace, List.dropWhile_cons_of_neg (by simp [hc]),
          List.takeWhile_cons_of_neg (by simp [hc])]
        exact ⟨_, _, rfl, rfl, rfl⟩
  obtain ⟨v, e, hrun, hcount, hnext⟩ := hloop (read, none)
  rw [skipBlanks, bind_eq, run_bind_of_some hrun, ← hnext]
  dsimp only at hcount ⊢
  rw [hcount]
  rfl

theorem blanksBefore_yields (letter : UInt8) (read : ℕ) :
    (blanksBefore letter read).Yields fun n v => v.1 = read + n := by
  exact ite (fun _ => .done rfl) fun _ => skipBlanks_yields read

theorem spaceScanner_counting (conversions read : ℕ) :
    Counting (spaceScanner conversions read) read := by
  refine bind (skipBlanks_yields read) ?_
  intro n v hv
  exact .done hv

theorem matchScanner_counting (c : UInt8) (conversions read : ℕ) :
    Counting (matchScanner c conversions read) read := by
  refine bind (accept _) ?_
  rintro n attempt rfl
  cases attempt <;> exact .done rfl

theorem charScanner_counting (spec : Spec) (conversions read : ℕ) :
    Counting (charScanner spec conversions read) read := by
  refine bind (readLoop_count List.length ?_) ?_
  · simp
  · intro n v hv
    have hread : read + v.1.length = read + n := by
      rw [hv]
      simp
    dsimp only
    split <;> exact .done hread

theorem takeScanner_yields (p : UInt8 → Bool) (width : Option ℕ) :
    (takeScanner p width).Yields fun n v => v.1.length = n := by
  refine bind
    (readLoop_count (fun t : List UInt8 × Option ℕ => t.1.length) ?_) ?_
  · intro t c
    by_cases hc : p c = true <;> simp [hc]
  · intro n v hv
    exact .done (by simpa using hv)

theorem stringScanner_counting (spec : Spec) (conversions read : ℕ) :
    Counting (stringScanner spec conversions read) read := by
  refine bind (takeScanner_yields _ _) ?_
  rintro n v rfl
  dsimp only
  split
  case isTrue h => exact .done (by simp [h.2.1])
  case isFalse => exact .done rfl

theorem setScanner_counting (set : UInt8 → Bool) (spec : Spec) (conversions read : ℕ) :
    Counting (setScanner set spec conversions read) read := by
  refine bind (takeScanner_yields _ _) ?_
  rintro n v rfl
  dsimp only
  split
  case isTrue h => exact .done (by simp [h])
  case isFalse => exact .done rfl

theorem zeroScanner_yields (kind : IntKind) (width : Option ℕ) (read : ℕ) :
    (zeroScanner kind width read).Yields fun n v => v.read = read + n := by
  refine bind (accept _) ?_
  rintro n attempt rfl
  cases attempt with
  | ended | taken c => exact .done rfl
  | refused c =>
    dsimp only
    split <;> exact .done rfl

theorem signScanner_yields (kind : IntKind) (width : Option ℕ) (read : ℕ) :
    (signScanner kind width read).Yields fun n v => v.read = read + n := by
  refine ite (fun _ => .done rfl) fun _ => bind (accept _) ?_
  rintro n attempt rfl
  cases attempt with
  | ended | refused c => exact .done rfl
  | taken c =>
    refine ite (fun _ => .done rfl) fun _ => ite (fun _ => .done rfl) fun _ => ?_
    refine ite (fun _ => (zeroScanner_yields _ _ _).mono ?_) fun _ => .done rfl
    intro m v hv
    rw [hv]
    exact Nat.add_assoc read 1 m

theorem intScanner_counting (kind : IntKind) (spec : Spec) (conversions read : ℕ) :
    Counting (intScanner kind spec conversions read) read := by
  refine bind (signScanner_yields kind spec.width read) ?_
  intro n start hstart
  refine bind (readLoop_count (fun t : Digits => t.read) ?_) ?_
  · intro t c
    unfold digitBody
    dsimp only
    split_ifs <;> rfl
  · intro m v hv
    have hread : v.1.read = read + (n + m) := by
      rw [hv, hstart]
      exact Nat.add_assoc read n m
    dsimp only
    split <;> exact .done hread

/-! ### The number -/

section Float

variable {L D : Type} (arith : Arith L D)

theorem hexScanner_yields (t : FloatState L) :
    (hexScanner t).Yields fun n v => v.2.read = t.read + n := by
  refine ite (fun _ => .done rfl) fun _ => bind (accept _) ?_
  rintro n attempt rfl
  cases attempt with
  | ended | refused c => exact .done rfl
  | taken c =>
    refine ite (fun _ => .done rfl) fun _ => bind (accept _) ?_
    rintro m attempt rfl
    cases attempt <;> exact .done rfl

theorem pointScanner_yields (radix : ℕ) (t : FloatState L) :
    (pointScanner arith radix t).Yields fun n v => v.1.read = t.read + n := by
  refine ite (fun _ => .done rfl) fun _ => bind (accept _) ?_
  rintro n attempt rfl
  cases attempt with
  | ended | refused c => exact .done rfl
  | taken c =>
    refine ite (fun _ => bind (readLoop_count
      (fun u : FloatState L × D × Bool => u.1.read) ?_) ?_) fun _ => .done rfl
    · intro u d
      unfold fractionBody
      dsimp only
      split_ifs <;> rfl
    · intro m v hv
      refine .done ?_
      rw [hv]
      exact Nat.add_assoc t.read 1 m

theorem exponentDigits_yields (radix : ℕ) (negative : Bool) (t : FloatState L) :
    (exponentDigits arith radix negative t).Yields fun n v => v.read = t.read + n := by
  refine bind
    (readLoop_count (fun u : FloatState L × ℤ => u.1.read) ?_) ?_
  · intro u c
    unfold exponentBody
    dsimp only
    split_ifs <;> rfl
  · intro n v hv
    exact .done hv

theorem exponentScanner_yields (radix : ℕ) (t : FloatState L) :
    (exponentScanner arith radix t).Yields fun n v => v.read = t.read + n := by
  refine ite (fun _ => .done rfl) fun _ => bind (accept _) ?_
  rintro n attempt rfl
  cases attempt with
  | ended => exact .done rfl
  | taken c =>
    refine (exponentDigits_yields arith radix _ _).mono ?_
    intro m v hv
    rw [hv]
    exact Nat.add_assoc t.read 1 m
  | refused c =>
    refine (exponentDigits_yields arith radix _ _).mono ?_
    intro m v hv
    rw [hv]
    exact congrArg (t.read + ·) (Nat.zero_add m).symm

theorem numberScanner_yields (conversions : ℕ) (t : FloatState L) :
    (numberScanner arith conversions t).Yields fun n v => ∀ u ∈ v, u.read = t.read + n := by
  refine bind (hexScanner_yields t) ?_
  intro n₁ v₁ h₁
  dsimp only
  split
  · exact .done fun u hu => by rw [← Option.some.inj hu]; exact h₁
  · refine bind (readLoop_count (fun u : FloatState L => u.read) ?_) ?_
    · intro u c
      unfold wholeBody
      dsimp only
      split_ifs <;> rfl
    · intro n₂ v₂ h₂
      split
      · exact .done (by simp)
      · refine bind (pointScanner_yields arith _ _) ?_
        intro n₃ v₃ h₃
        split
        · refine bind (exponentScanner_yields arith _ _) ?_
          intro n₄ v₄ h₄
          refine .done fun u hu => ?_
          rw [← Option.some.inj hu]
          omega
        · refine .done fun u hu => ?_
          rw [← Option.some.inj hu]
          omega

theorem floatFinish_read (spec : Spec) (negative : Bool) (t : FloatState L) :
    (floatFinish arith spec negative t).read = t.read := by
  rw [floatFinish]
  split <;> rfl

/-- **The rest of a conversion** counts the digits; but for a keyword the count is set anew. -/
theorem floatRest_yields (spec : Spec) (conversions : ℕ) (negative : Bool) (read : ℕ)
    (k : Keyword) :
    (floatRest arith spec conversions negative read k).Yields fun n o =>
      if 3 ≤ k.infinity then n = 0 ∧ o.read = k.infinity
      else if 3 ≤ k.nan then n = 0 ∧ o.read = k.nan
      else o.exit = .next → o.read = read + n := by
  rw [floatRest]
  split
  case isTrue h => exact .done ⟨rfl, floatFinish_read arith spec negative _⟩
  case isFalse h =>
    split
    case isTrue h' => exact .done ⟨rfl, floatFinish_read arith spec negative _⟩
    case isFalse h' =>
      refine bind (numberScanner_yields arith conversions _) ?_
      intro n v hv
      cases v with
      | none => exact .done fun hexit => by cases hexit
      | some t =>
        refine .done fun _ => ?_
        rw [floatFinish_read]
        exact hv t rfl

/-! ### The other conversions -/

theorem dispatchScanner_counting {spec : Spec} (h : spec.letter ≠ 102) (format : List UInt8)
    (conversions read : ℕ) :
    Counting (dispatchScanner arith spec format conversions read) read := by
  refine bind (blanksBefore_yields spec.letter read) ?_
  intro n v hv
  dsimp only
  rw [if_neg h]
  -- each branch goes on counting from where the white space ends
  have hfrom : ∀ {branch : Scanner Outcome}, Counting branch v.1 →
      branch.Yields fun m o => o.read = read + (n + m) := by
    intro branch hbr
    refine hbr.mono ?_
    intro m o ho
    rw [ho, hv]
    exact Nat.add_assoc read n m
  split
  · exact hfrom (charScanner_counting _ _ _)
  · cases intKind spec.letter with
    | some kind => exact hfrom (intScanner_counting _ _ _ _)
    | none =>
      dsimp only
      split
      · exact hfrom (stringScanner_counting _ _ _)
      · split
        · exact hfrom (.done rfl)
        · split
          · exact hfrom (matchScanner_counting _ _ _)
          · split
            · exact hfrom (setScanner_counting _ _ _ _)
            · exact hfrom (.done rfl)

end Float

end Clib4
