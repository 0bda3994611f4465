import Clib4.Scanf.Steps

/-!
# The readers of vfscanf

The loops that read a field take a part of the input from its front.

## Main results

* `readWhile_eq` — the loop of `%s` and `%[` takes the longest text of the field that matches.
* `readInteger_spec` — what the integer reader leaves, and when it has met the end of the input.
-/

namespace Clib4

open List

/-! ### Text taken from the front -/

variable {input : List UInt8} {width left : Option ℕ} {k : ℕ}

/-- The text between an input and what is left of it. -/
def consumedText (input rest : List UInt8) : List UInt8 := input.take (input.length - rest.length)

theorem consumedText_append {rest : List UInt8} (h : rest <:+ input) :
    consumedText input rest ++ rest = input := by
  obtain ⟨front, rfl⟩ := h
  simp [consumedText]

theorem consumedText_inj {rest rest' : List UInt8} (h : rest <:+ input) (h' : rest' <:+ input) :
    consumedText input rest = consumedText input rest' ↔ rest = rest' := by
  constructor
  · intro heq
    have hrest := consumedText_append h
    rw [heq] at hrest
    exact append_cancel_left (hrest.trans (consumedText_append h').symm)
  · rintro rfl
    rfl

theorem take_of_drop {l front : List UInt8} (h : front <+: l) :
    l.take (l.length - (l.drop front.length).length) = front := by
  have hle := h.length_le
  rw [length_drop, Nat.sub_sub_self hle]
  exact (prefix_iff_eq_take.1 h).symm

/-! ### Strings -/

/-- The text that a field width admits. -/
def limit (width : Option ℕ) (input : List UInt8) : List UInt8 :=
  match width with
  | none => input
  | some n => input.take n

theorem limit_narrow (width : Option ℕ) (h : width ≠ some 0) (c : UInt8) (input : List UInt8) :
    limit width (c :: input) = c :: limit (narrow width) input := by
  cases width with
  | none => rfl
  | some n =>
    obtain ⟨m, rfl⟩ : ∃ m, n = m + 1 := ⟨n - 1, by
      have hn : n ≠ 0 := fun hn => h (by rw [hn])
      omega⟩
    rfl

theorem prefix_limit (width : Option ℕ) (input : List UInt8) : limit width input <+: input := by
  cases width with
  | none => exact prefix_rfl
  | some n => exact take_prefix n input

/-- **The loop takes the longest text of the field that matches.** -/
theorem readWhile_eq (p : UInt8 → Bool) (width : Option ℕ) (input : List UInt8) :
    (readWhile p width input).1 = (limit width input).takeWhile p ∧
    (readWhile p width input).2.1 = input.drop ((limit width input).takeWhile p).length := by
  fun_induction readWhile p width input with
  | case1 input => simp [limit]
  | case2 width => cases width <;> simp [limit]
  | case3 width c input hwidth hp taken rest ended heq ih =>
    rw [heq] at ih
    rw [limit_narrow width hwidth, takeWhile_cons_of_pos hp]
    exact ⟨congrArg (c :: ·) ih.1, ih.2⟩
  | case4 width c input hwidth hp =>
    rw [limit_narrow width hwidth, takeWhile_cons_of_neg hp]
    exact ⟨rfl, rfl⟩

/-! ### Integers -/

/-- A field width from which some characters have been used. -/
def Uses (width : Option ℕ) (k : ℕ) (left : Option ℕ) : Prop :=
  left = width.map (· - k) ∧ ∀ n ∈ width, k ≤ n

theorem Uses.ne_zero_iff (h : Uses width k left) : left ≠ some 0 ↔ width ≠ some k := by
  obtain ⟨rfl, hle⟩ := h
  cases width with
  | none => simp
  | some n =>
    have hk : k ≤ n := hle n rfl
    simp only [Option.map_some, ne_eq, Option.some.injEq]
    omega

theorem uses_zero (width : Option ℕ) : Uses width 0 width := by
  cases width <;> exact ⟨rfl, by simp⟩

theorem Uses.narrow (h : Uses width k left) (hne : left ≠ some 0) :
    Uses width (k + 1) (narrow left) := by
  have hk := h.ne_zero_iff.1 hne
  obtain ⟨rfl, hle⟩ := h
  cases width with
  | none => exact ⟨rfl, by simp⟩
  | some n =>
    have hkn : k ≤ n := hle n rfl
    have hne' : n ≠ k := by simpa using hk
    refine ⟨?_, ?_⟩
    · simp only [Clib4.narrow, Option.map_some, Option.some.injEq]
      omega
    · intro m hm
      obtain rfl := Option.some.inj hm
      omega

/-- In front of the digits some characters have been used, and as much of the width. -/
theorem zeroPart_spec (kind : IntKind) (h : Uses width k left) (hne : left ≠ some 0)
    (input : List UInt8) :
    ∃ j ≤ input.length, (zeroPart kind left input).input = input.drop j ∧
      Uses width (k + j) (zeroPart kind left input).width := by
  cases input with
  | nil => exact ⟨0, Nat.le_refl _, rfl, h⟩
  | cons c input =>
    rw [zeroPart]
    split
    · exact ⟨1, by simp, rfl, h.narrow hne⟩
    · split
      · exact ⟨0, Nat.zero_le _, rfl, h⟩
      · exact ⟨0, Nat.zero_le _, rfl, h⟩

theorem signPart_spec (kind : IntKind) (width : Option ℕ) (input : List UInt8) :
    ∃ k ≤ input.length, (signPart kind width input).input = input.drop k ∧
      Uses width k (signPart kind width input).width := by
  have hstart := uses_zero width
  rw [signPart.eq_def]
  split
  · exact ⟨0, Nat.zero_le _, rfl, hstart⟩
  case isFalse hzero =>
    have hone : Uses width 1 (narrow width) := hstart.narrow hzero
    cases input with
    | nil => exact ⟨0, Nat.zero_le _, rfl, hstart⟩
    | cons c rest =>
      dsimp only
      split
      · exact ⟨1, by simp, rfl, hone⟩
      · split
        · exact ⟨1, by simp, rfl, hone⟩
        · split
          · split
            case isTrue hopen =>
              obtain ⟨j, hj, hinput, huses⟩ := zeroPart_spec kind hone hopen.2 rest
              refine ⟨1 + j, by rw [length_cons]; omega, ?_, huses⟩
              rw [hinput, Nat.add_comm, drop_succ_cons]
            · exact ⟨1, by simp, rfl, hone⟩
          · exact ⟨0, Nat.zero_le _, rfl, hstart⟩

theorem digitLoop_cons (size : Size) (radix : ℕ) (hzero : width ≠ some 0) (sum : UInt64)
    (processed : ℕ) (c : UInt8) (input : List UInt8) :
    digitLoop size radix width sum processed (c :: input) =
      if radix ≤ digitValue radix c then (sum, processed, c :: input, false)
      else if wrapped size (UInt64.ofNat radix * sum + UInt64.ofNat (digitValue radix c)) sum
      then (sum, processed, c :: input, false)
      else digitLoop size radix (narrow width)
        (UInt64.ofNat radix * sum + UInt64.ofNat (digitValue radix c)) (processed + 1) input := by
  cases width with
  | none => rfl
  | some n =>
    cases n with
    | zero => exact absurd rfl hzero
    | succ n => rfl

/-- The loop over the digits takes from the front; if it takes nothing, it has met the end of
the input just if there was none. -/
theorem digitLoop_spec (size : Size) (radix : ℕ) (width : Option ℕ) (sum : UInt64) (processed : ℕ)
    (input : List UInt8) :
    (digitLoop size radix width sum processed input).2.2.1 <:+ input ∧
    processed ≤ (digitLoop size radix width sum processed input).2.1 ∧
    ((digitLoop size radix width sum processed input).2.1 = processed →
      (digitLoop size radix width sum processed input).2.2.1 = input ∧
      (digitLoop size radix width sum processed input).2.2.2
        = decide (input = [] ∧ width ≠ some 0)) := by
  fun_induction digitLoop size radix width sum processed input with
  | case1 | case3 | case4 => simp
  | case2 width sum processed hwidth => simpa using hwidth
  | case5 width sum processed c input _ _ _ _ _ ih =>
    obtain ⟨hsuf, hle, -⟩ := ih
    exact ⟨hsuf.trans (suffix_cons c input), by omega, fun h => by omega⟩

/-- **What the integer reader leaves**: a part of the input; and if it has read no number, it has
met the end of the input just if there is nothing left and the field is not used up. -/
theorem readInteger_spec (kind : IntKind) (size : Size) (width : Option ℕ) (input : List UInt8) :
    (readInteger kind size width input).1 <:+ input ∧
    ((readInteger kind size width input).2.1 = none →
      ∃ k ≤ input.length, (readInteger kind size width input).1 = input.drop k ∧
        (readInteger kind size width input).2.2 = decide (k = input.length ∧ width ≠ some k)) := by
  obtain ⟨k, hk, hinput, huses⟩ := signPart_spec kind width input
  have hdig := digitLoop_spec size (pickRadix kind (signPart kind width input).radix)
    (signPart kind width input).width 0 (signPart kind width input).processed
    (signPart kind width input).input
  rw [readInteger]
  dsimp only
  generalize digitLoop size (pickRadix kind (signPart kind width input).radix)
    (signPart kind width input).width 0 (signPart kind width input).processed
    (signPart kind width input).input = loop at hdig ⊢
  obtain ⟨sum, processed, rest, ended⟩ := loop
  obtain ⟨hsuf, hle, hnone⟩ := hdig
  dsimp only at hsuf hle hnone ⊢
  rw [hinput] at hsuf hnone
  refine ⟨hsuf.trans (drop_suffix k input), ?_⟩
  intro hval
  have hzero : processed = 0 := by
    by_contra hpos
    rw [if_pos (Nat.pos_of_ne_zero hpos)] at hval
    cases hval
  obtain ⟨hrest, hended⟩ := hnone (by omega)
  refine ⟨k, hk, hrest, ?_⟩
  rw [hended, decide_eq_decide, drop_eq_nil_iff, huses.ne_zero_iff]
  constructor
  · exact fun h => ⟨by omega, h.2⟩
  · exact fun h => ⟨by omega, h.2⟩

end Clib4
