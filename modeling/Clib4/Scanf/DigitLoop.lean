import Clib4.Scanf.Readers
import Clib4.Stdlib.StrToInt

/-!
# The digits of an integer in vfscanf

The loop of `vfscanf` over the digits of an integer stops at a character that is no digit, and at
a sum that is smaller than the one before it, as a number of 32 or 64 bits.  The digits are those
of `strtol`, and so is the value that they have.

## Main definitions

* `readNumber` — what the reader leaves, and the bits of the object.

## Main results

* `digitLoop_iff` — what the loop leaves, and the sum it ends with.
* `readNumber_covers` — a width that covers the field makes no difference.
-/

namespace Clib4

open List

open Stdlib (IsDigit valueOf digitOf)

/-! ### The loop over the digits -/

variable {radix : ℕ} {size : Size} {text : List UInt8}

theorem digitValue_lt_iff (h : radix ≤ 16) (c : UInt8) :
    digitValue radix c < radix ↔ IsDigit radix c := by
  unfold digitValue IsDigit digitOf
  simp only [UInt8.le_iff_toNat_le, UInt8.reduceToNat, Option.mem_def]
  constructor
  · intro hlt
    refine ⟨digitValue radix c, ?_, hlt⟩
    unfold digitValue
    simp only [UInt8.le_iff_toNat_le, UInt8.reduceToNat]
    split_ifs at hlt ⊢ <;> grind
  · rintro ⟨d, hd, hlt⟩
    split_ifs at hd ⊢ <;> simp only [Option.some.injEq] at hd <;> omega

variable {c : UInt8} {width : Option ℕ}

theorem digitOf_eq (h : radix ≤ 16) (hc : IsDigit radix c) :
    digitOf c = some (digitValue radix c) := by
  obtain ⟨d, hd, hlt⟩ := hc
  have hd' : digitOf c = some d := hd
  rw [hd', Option.some.injEq]
  unfold digitOf at hd
  unfold digitValue
  simp only [UInt8.le_iff_toNat_le, UInt8.reduceToNat, Option.mem_def] at hd ⊢
  split_ifs at hd ⊢ <;> simp only [Option.some.injEq] at hd <;> omega

/-- The number of bits in which two sums are compared. -/
def Size.sumBits (size : Size) : ℕ := if size = .longLong ∨ size = .intmax then 64 else 32

theorem Size.bits_le_sumBits (size : Size) : size.bits ≤ size.sumBits := by
  cases size <;> decide

theorem Size.sumBits_le (size : Size) : size.sumBits ≤ 64 := by
  cases size <;> decide

/-- The sum becomes smaller with one more digit. -/
def Drops (size : Size) (radix : ℕ) (digits : List UInt8) (c : UInt8) : Prop :=
  valueOf radix (digits ++ [c]) % 2 ^ size.sumBits < valueOf radix digits % 2 ^ size.sumBits

instance (size : Size) (radix : ℕ) (digits : List UInt8) (c : UInt8) :
    Decidable (Drops size radix digits c) :=
  inferInstanceAs (Decidable (_ < _))

theorem wrapped_iff (size : Size) (a b : ℕ) :
    wrapped size (UInt64.ofNat a) (UInt64.ofNat b) = true ↔
      a % 2 ^ size.sumBits < b % 2 ^ size.sumBits := by
  unfold wrapped Size.sumBits
  split
  · simp [UInt64.lt_iff_toNat_lt]
  · simp [UInt32.lt_iff_toNat_lt]

theorem sum_step (h : radix ≤ 16) (digits : List UInt8) (hc : IsDigit radix c) :
    UInt64.ofNat radix * UInt64.ofNat (valueOf radix digits) + UInt64.ofNat (digitValue radix c)
      = UInt64.ofNat (valueOf radix (digits ++ [c])) := by
  rw [Stdlib.valueOf_append_singleton radix digits (digitOf_eq h hc), UInt64.ofNat_add,
    UInt64.ofNat_mul]

/-- **What the loop takes**, behind the digits `p`: digits with which the sum does not drop, up
to a character that is no digit, or with which it does. -/
structure StopsAfter (size : Size) (radix : ℕ) (p taken rest : List UInt8) : Prop where
  digits : ∀ c ∈ taken, IsDigit radix c
  grows : ∀ q c, q ++ [c] <+: taken → ¬ Drops size radix (p ++ q) c
  ends : ∀ c ∈ rest.head?, IsDigit radix c → Drops size radix (p ++ taken) c

theorem StopsAfter.unique {p u rest u' rest' : List UInt8} (h : StopsAfter size radix p u rest)
    (h' : StopsAfter size radix p u' rest') (heq : u ++ rest = u' ++ rest') : u = u' := by
  -- a place before another one would be passed
  have hpass : ∀ {v r v' r' : List UInt8}, StopsAfter size radix p v r →
      StopsAfter size radix p v' r' → v ++ r = v' ++ r' → v <+: v' → v = v' := by
    rintro v r v' r' hv hv' heq ⟨w, rfl⟩
    cases w with
    | nil => exact (append_nil v).symm
    | cons c w =>
      have hr : r = c :: (w ++ r') := by
        rw [append_assoc] at heq
        exact append_cancel_left heq
      have hc : IsDigit radix c := hv'.digits c (by simp)
      have hdrops := hv.ends c (by rw [hr]; rfl) hc
      exact absurd hdrops (hv'.grows v c ⟨w, by simp⟩)
  rcases prefix_or_prefix_of_prefix (prefix_append u rest)
    (heq ▸ prefix_append u' rest') with hle | hle
  · exact hpass h h' heq hle
  · exact (hpass h' h heq.symm hle).symm

theorem StopsAfter.cons {p u rest : List UInt8} (hc : IsDigit radix c)
    (hgrows : ¬ Drops size radix p c) (h : StopsAfter size radix (p ++ [c]) u rest) :
    StopsAfter size radix p (c :: u) rest := by
  refine ⟨?_, ?_, ?_⟩
  · exact forall_mem_cons.2 ⟨hc, h.digits⟩
  · intro q d hq
    cases q with
    | nil =>
      obtain rfl : d = c := by simpa using hq
      rwa [append_nil]
    | cons e q =>
      rw [cons_append, cons_prefix_cons] at hq
      obtain ⟨rfl, hq⟩ := hq
      have hstep := h.grows q d hq
      rwa [append_assoc] at hstep
  · intro d hd hdigit
    have hstep := h.ends d hd hdigit
    rwa [append_assoc] at hstep

/-- The loop stops there, with the sum of the digits that it has taken. -/
theorem digitLoop_stops (size : Size) (hradix : radix ≤ 16) (p : List UInt8) (processed : ℕ)
    (text : List UInt8) :
    ∃ taken rest, text = taken ++ rest ∧ StopsAfter size radix p taken rest ∧
      (digitLoop size radix none (UInt64.ofNat (valueOf radix p)) processed text).1
        = UInt64.ofNat (valueOf radix (p ++ taken)) ∧
      (digitLoop size radix none (UInt64.ofNat (valueOf radix p)) processed text).2.1
        = processed + taken.length ∧
      (digitLoop size radix none (UInt64.ofNat (valueOf radix p)) processed text).2.2.1 = rest := by
  induction text generalizing p processed with
  | nil => exact ⟨[], [], rfl, ⟨by simp, by simp, by simp⟩, by simp [digitLoop]⟩
  | cons c text ih =>
    rw [digitLoop_cons size radix (by simp)]
    by_cases hc : IsDigit radix c
    · rw [if_neg (by rw [Nat.not_le]; exact (digitValue_lt_iff hradix c).2 hc),
        sum_step hradix p hc]
      by_cases hdrops : Drops size radix p c
      · rw [if_pos ((wrapped_iff size _ _).2 hdrops)]
        refine ⟨[], c :: text, rfl, ⟨by simp, by simp, ?_⟩, by simp⟩
        intro d hd _
        obtain rfl : c = d := by simpa using hd
        rwa [append_nil]
      · rw [if_neg (fun h => hdrops ((wrapped_iff size _ _).1 h))]
        obtain ⟨taken, rest, rfl, hstops, hsum, hcount, hrest⟩ := ih (p ++ [c]) (processed + 1)
        refine ⟨c :: taken, rest, rfl, hstops.cons hc hdrops, ?_, ?_, hrest⟩
        · rw [append_assoc, singleton_append] at hsum
          exact hsum
        · rw [length_cons]
          exact hcount.trans (by omega)
    · rw [if_pos (by rw [← Nat.not_lt, digitValue_lt_iff hradix]; exact hc)]
      refine ⟨[], c :: text, rfl, ⟨by simp, by simp, ?_⟩, by simp⟩
      intro d hd hdigit
      obtain rfl : c = d := by simpa using hd
      exact absurd hdigit hc

theorem stopsAfter_run (hradix : 1 ≤ radix)
    (h : valueOf radix (text.takeWhile (IsDigit radix ·)) < 2 ^ size.sumBits) :
    StopsAfter size radix [] (text.takeWhile (IsDigit radix ·))
      (text.dropWhile (IsDigit radix ·)) := by
  refine ⟨?_, ?_, ?_⟩
  · intro c hc
    simpa using all_eq_true.1 all_takeWhile c hc
  · rintro q c ⟨w, hw⟩
    have hle := Stdlib.valueOf_le_append hradix q [c]
    have hle' := Stdlib.valueOf_le_append hradix (q ++ [c]) w
    rw [hw] at hle'
    rw [nil_append, Drops, Nat.mod_eq_of_lt (by omega), Nat.mod_eq_of_lt (by omega)]
    omega
  · intro c hc hdigit
    have hhead := head?_dropWhile_not (fun c => decide (IsDigit radix c)) text
    rw [Option.mem_def.1 hc] at hhead
    simp [hdigit] at hhead

/-- The bits of a number with a sign. -/
def signedBits (size : Size) (negative : Bool) (n : ℕ) : ℕ :=
  ((if negative then -(n : ℤ) else n) % 2 ^ size.bits).toNat

theorem toNat_neg_if (negative : Bool) (n : ℕ) :
    (if negative then -(UInt64.ofNat n) else UInt64.ofNat n).toNat
      = ((if negative then -(n : ℤ) else n) % 2 ^ 64).toNat := by
  cases negative with
  | false =>
    simp only [Bool.false_eq_true, if_false, UInt64.toNat_ofNat']
    omega
  | true =>
    simp only [if_true, UInt64.toNat_neg, UInt64.toNat_ofNat', UInt64.size]
    omega

theorem toNat_signed (size : Size) (negative : Bool) (n : ℕ) :
    (if negative then -(UInt64.ofNat n) else UInt64.ofNat n).toNat % 2 ^ size.bits
      = signedBits size negative n := by
  have hdvd : ((2 : ℤ) ^ size.bits) ∣ 2 ^ 64 :=
    pow_dvd_pow 2 (size.bits_le_sumBits.trans size.sumBits_le)
  have hpos : (0 : ℤ) < 2 ^ size.bits := by positivity
  rw [toNat_neg_if, signedBits]
  apply Int.natCast_inj.1
  rw [Int.natCast_emod, Int.toNat_of_nonneg (Int.emod_nonneg _ (by decide)),
    Int.toNat_of_nonneg (Int.emod_nonneg _ hpos.ne'), Nat.cast_pow, Nat.cast_ofNat,
    Int.emod_emod_of_dvd _ hdvd]

theorem signedBits_inj {negative : Bool} {a b : ℕ} :
    signedBits size negative a = signedBits size negative b ↔ a ≡ b [MOD 2 ^ size.bits] := by
  have hbits : ∀ x y : ℤ, (x % 2 ^ size.bits).toNat = (y % 2 ^ size.bits).toNat ↔
      x ≡ y [ZMOD 2 ^ size.bits] := by
    unfold Int.ModEq
    omega
  have hcast : (a : ℤ) ≡ b [ZMOD 2 ^ size.bits] ↔ a ≡ b [MOD 2 ^ size.bits] := by
    exact_mod_cast Int.natCast_modEq_iff (a := a) (b := b) (n := 2 ^ size.bits)
  unfold signedBits
  rw [hbits, ← hcast]
  cases negative with
  | false | true => simp

/-- What the reader makes of the end of the loop: what is left, and the bits of the object if
there were digits. -/
def loopOutcome (size : Size) (negative : Bool) (loop : UInt64 × ℕ × List UInt8 × Bool) :
    List UInt8 × Option ℕ :=
  (loop.2.2.1,
    if 0 < loop.2.1 then some ((if negative then -loop.1 else loop.1).toNat % 2 ^ size.bits)
    else none)

/-- **What the loop leaves, and the sum it ends with.** -/
theorem digitLoop_iff (size : Size) (hradix : radix ≤ 16) (negative : Bool)
    (taken rest : List UInt8) (value : ℕ) :
    loopOutcome size negative (digitLoop size radix none 0 0 (taken ++ rest))
        = (rest, some (signedBits size negative value)) ↔
      StopsAfter size radix [] taken rest ∧ taken ≠ [] ∧
        valueOf radix taken ≡ value [MOD 2 ^ size.bits] := by
  obtain ⟨taken', rest', heq, hstops, hsum, hcount, hrest⟩ :=
    digitLoop_stops size hradix [] 0 (taken ++ rest)
  have hzero : UInt64.ofNat (valueOf radix []) = 0 := rfl
  rw [hzero] at hsum hcount hrest
  rw [loopOutcome, hsum, hcount, hrest, nil_append, Nat.zero_add, toNat_signed,
    Prod.mk.injEq]
  constructor
  · rintro ⟨rfl, hval⟩
    obtain rfl : taken = taken' := append_cancel_right heq
    by_cases hne : taken = []
    · rw [if_neg (by simp [hne])] at hval
      cases hval
    · rw [if_pos (length_pos_iff.2 hne), Option.some.injEq, signedBits_inj] at hval
      exact ⟨hstops, hne, hval⟩
  · rintro ⟨hstops', hne, hval⟩
    obtain rfl := hstops.unique hstops' heq.symm
    refine ⟨(append_cancel_left heq).symm, ?_⟩
    rw [if_pos (length_pos_iff.2 hne), Option.some.injEq, signedBits_inj]
    exact hval

/-! ### Fields that the width covers -/

/-- The width is at least the length of the text, if there is one. -/
def Covers (width : Option ℕ) (text : List UInt8) : Prop := ∀ n ∈ width, text.length ≤ n

theorem Covers.narrow (h : Covers width (c :: text)) :
    width ≠ some 0 ∧ Covers (narrow width) text := by
  constructor
  · rintro rfl
    have hle := h 0 rfl
    simp at hle
  · intro n hn
    cases width with
    | none => cases hn
    | some m =>
      have hle := h m rfl
      simp only [Clib4.narrow, Option.map_some, Option.mem_def, Option.some.injEq,
        length_cons] at hn hle
      omega

theorem covers_none (text : List UInt8) : Covers none text := by
  intro n hn
  cases hn

theorem digitLoop_covers (h : Covers width text) (negative : Bool) (sum : UInt64) (processed : ℕ) :
    loopOutcome size negative (digitLoop size radix width sum processed text)
      = loopOutcome size negative (digitLoop size radix none sum processed text) := by
  induction text generalizing width sum processed with
  | nil =>
    cases width with
    | none => rfl
    | some n => cases n <;> rfl
  | cons c text ih =>
    obtain ⟨hne, hnarrow⟩ := h.narrow
    rw [digitLoop_cons size radix hne, digitLoop_cons size radix (by simp)]
    split
    · rfl
    · split
      · rfl
      · exact ih hnarrow _ _

/-- What stands in front of the digits, but for the width. -/
def Prefixed.sameBut (a b : Prefixed) : Prop :=
  a.negative = b.negative ∧ a.radix = b.radix ∧ a.processed = b.processed ∧ a.input = b.input

/-- The width makes no difference in front of the digits either. -/
theorem signPart_covers (kind : IntKind) (h : Covers width text) :
    (signPart kind width text).sameBut (signPart kind none text) ∧
      Covers (signPart kind width text).width (signPart kind width text).input := by
  cases text with
  | nil =>
    cases width with
    | none => exact ⟨⟨rfl, rfl, rfl, rfl⟩, covers_none _⟩
    | some n =>
      cases n with
      | zero | succ n => exact ⟨⟨rfl, rfl, rfl, rfl⟩, h⟩
  | cons c text =>
    obtain ⟨hne, hnarrow⟩ := h.narrow
    simp only [signPart, if_neg hne]
    split
    · exact ⟨⟨rfl, rfl, rfl, rfl⟩, hnarrow⟩
    split
    · exact ⟨⟨rfl, rfl, rfl, rfl⟩, hnarrow⟩
    split
    · by_cases hradix : kind.radix = 0
      · -- behind the last zero that the width allows, there is nothing
        cases text with
        | nil =>
          by_cases hzero : narrow width = some 0
          · simp only [hradix, hzero, ne_eq, not_true, and_false, if_false]
            exact ⟨⟨rfl, rfl, rfl, rfl⟩, by rw [← hzero]; exact hnarrow⟩
          · simp only [hradix, hzero, ne_eq, not_false_iff, and_self, if_true]
            exact ⟨⟨rfl, rfl, rfl, rfl⟩, hnarrow⟩
        | cons d text =>
          obtain ⟨hne', hnarrow'⟩ := hnarrow.narrow
          simp only [hradix, hne', ne_eq, not_false_iff, and_self, if_true]
          simp only [zeroPart]
          split
          · exact ⟨⟨rfl, rfl, rfl, rfl⟩, hnarrow'⟩
          split
          · exact ⟨⟨rfl, rfl, rfl, rfl⟩, hnarrow⟩
          · exact ⟨⟨rfl, rfl, rfl, rfl⟩, hnarrow⟩
      · simp only [hradix, false_and, if_false]
        exact ⟨⟨rfl, rfl, rfl, rfl⟩, hnarrow⟩
    · exact ⟨⟨rfl, rfl, rfl, rfl⟩, h⟩

/-- What the reader leaves and reads. -/
def readNumber (kind : IntKind) (size : Size) (width : Option ℕ) (text : List UInt8) :
    List UInt8 × Option ℕ :=
  ((readInteger kind size width text).1, (readInteger kind size width text).2.1)

theorem readNumber_eq (kind : IntKind) (size : Size) (width : Option ℕ) (text : List UInt8) :
    readNumber kind size width text = loopOutcome size (signPart kind width text).negative
      (digitLoop size (pickRadix kind (signPart kind width text).radix)
        (signPart kind width text).width 0 (signPart kind width text).processed
        (signPart kind width text).input) := rfl

/-- **A width that covers the field makes no difference.** -/
theorem readNumber_covers (kind : IntKind) (size : Size) (h : Covers width text) :
    readNumber kind size width text = readNumber kind size none text := by
  obtain ⟨⟨hneg, hradix, hprocessed, hinput⟩, hwidth⟩ := signPart_covers kind h
  have hnone := (signPart_covers kind (covers_none text)).2
  rw [readNumber_eq, readNumber_eq, digitLoop_covers hwidth, digitLoop_covers hnone, hneg,
    hradix, hprocessed, hinput]

end Clib4
