import Mathlib.Data.List.TakeWhile
import Clib4.Scanf.DigitLoop

/-!
# Integers in vfscanf and in strtol

The integer conversions of `vfscanf` have a reader of their own.  Like `strtol` it takes a sign,
a prefix and digits, but the sign and the prefix are branches of one test: behind a sign no
prefix is looked for.  So both functions end up with a base and a text of digits for it, which
they read in the same way, and the question is whether base and text are the same.

If they are not, the loop of `vfscanf` may still stop at the same place with the same bits in its
sum.  This happens with octal numbers that are read as decimal ones.

## Main definitions

* `IntegerText` — an optional sign, an optional prefix, and digits.
* `IntegerText.Scans` — a conversion does what `strtol` or `strtoull` does.

## Main results

* `scans_iff_alike` — **a conversion does what `strtol` or `strtoull` does just if the text is
  read alike.**
-/

namespace Clib4

open List Stdlib

open Stdlib (IsDigit valueOf digitOf LongestSubject strtol strtoull)

/-! ### Texts -/

/-- An optional sign, which may be a minus; an optional prefix, given by its letter; and
digits. -/
structure IntegerText where
  sign : Option Bool
  hexLetter : Option UInt8
  digits : List UInt8
  letter : ∀ x ∈ hexLetter, x = 120 ∨ x = 88
  nonempty : digits ≠ []
  hexDigits : ∀ c ∈ digits, IsDigit 16 c

namespace IntegerText

/-- What stands behind the sign. -/
def number (t : IntegerText) : List UInt8 :=
  match t.hexLetter with
  | some x => 48 :: x :: t.digits
  | none => t.digits

/-- The text of a sign. -/
def signText : Option Bool → List UInt8
  | none => []
  | some true => [minus]
  | some false => [43]

/-- The text. -/
def bytes (t : IntegerText) : List UInt8 := signText t.sign ++ t.number

/-- The sign is a minus. -/
def negative (t : IntegerText) : Bool := t.sign == some true

end IntegerText

/-- The base that stands for a conversion in a call of `strtol`. -/
def IntKind.base : IntKind → ℕ
  | .d => 10
  | .i => 0
  | .o => 8
  | .u => 10
  | .x => 16

theorem IntKind.validBase (kind : IntKind) : ValidBase kind.base := by
  cases kind <;> simp [ValidBase, IntKind.base]

/-- The conversion stores a signed number. -/
def IntKind.signed : IntKind → Bool
  | .d => true
  | .i => true
  | _ => false

/-- The value fits the object. -/
def Fits (kind : IntKind) (size : Size) (negative : Bool) (value : ℕ) : Prop :=
  if kind.signed then value + (if negative then 0 else 1) ≤ 2 ^ (size.bits - 1)
  else value < 2 ^ size.bits

instance (kind : IntKind) (size : Size) (negative : Bool) (value : ℕ) :
    Decidable (Fits kind size negative value) :=
  inferInstanceAs (Decidable (ite _ _ _))

/-- The function that a conversion is compared with: `strtol` for a signed number that a `long`
can hold, and `strtoull` for any other. -/
def reference (kind : IntKind) (size : Size) (text : List UInt8) : Stdlib.Outcome :=
  if kind.signed = true ∧ size.bits ≤ 32 then strtol text kind.base else strtoull text kind.base

/-! ### What the two functions read -/

namespace IntegerText

variable (t : IntegerText)

/-- The base and the digits that `vfscanf` ends up with.  Behind a sign no prefix is looked for,
and the zero in front of an octal number is no digit. -/
def codeReading : IntKind → ℕ × List UInt8
  | .x => (16, if t.sign = none then t.digits else t.number)
  | .i =>
    if t.sign = none then
      if t.hexLetter.isSome then (16, t.digits)
      else
        match t.digits with
        | 48 :: c :: rest => if isDigit c then (8, c :: rest) else (10, 48 :: c :: rest)
        | digits => (10, digits)
    else (10, t.number)
  | kind => (kind.base, t.number)

/-- The base and the digits that `strtol` ends up with. -/
def referenceReading : IntKind → ℕ × List UInt8
  | .x => (16, t.digits)
  | .i => if t.hexLetter.isSome then (16, t.digits) else (baseOf 0 t.digits, t.digits)
  | kind => (kind.base, t.number)

theorem bytes_none (h : t.sign = none) : t.bytes = t.number := by
  rw [bytes, h]
  rfl

theorem number_none (h : t.hexLetter = none) : t.number = t.digits := by
  rw [number, h]

variable {x c : UInt8} {kind : IntKind} {value : ℕ}

theorem number_some (h : t.hexLetter = some x) : t.number = 48 :: x :: t.digits := by
  rw [number, h]

theorem number_cons : ∃ c rest, t.number = c :: rest ∧ IsDigit 16 c := by
  cases hhex : t.hexLetter with
  | some x => exact ⟨48, x :: t.digits, t.number_some hhex, by decide⟩
  | none =>
    obtain ⟨c, rest, hdig⟩ := exists_cons_of_ne_nil t.nonempty
    refine ⟨c, rest, by rw [t.number_none hhex, hdig], t.hexDigits c ?_⟩
    rw [hdig]
    exact mem_cons_self

variable {radix : ℕ} {negative : Bool} {size : Size}

theorem digitLoop_zero (size : Size) (hradix : 1 ≤ radix) (rest : List UInt8) :
    digitLoop size radix none 0 0 (48 :: rest) = digitLoop size radix none 0 1 rest := by
  have hval : digitValue radix 48 = 0 := rfl
  have hzero : UInt64.ofNat radix * 0 + UInt64.ofNat 0 = 0 := by simp
  have hwrapped : wrapped size 0 0 = false := by cases size <;> decide
  rw [digitLoop_cons size radix (by simp), hval, if_neg (by omega), hzero, hwrapped]
  rfl

theorem readNumber_signed {b : Bool} (h : t.sign = some b) (kind : IntKind) (size : Size) :
    readNumber kind size none t.bytes = loopOutcome size t.negative
      (digitLoop size (pickRadix kind kind.radix) none 0 0 t.number) := by
  have hneg : t.negative = b := by
    rw [negative, h]
    cases b <;> rfl
  rw [bytes, h, hneg]
  cases b <;> rfl

/-- A text that begins with a zero and has no sign, when the prefix is looked for. -/
theorem readNumber_zero (hkind : kind.radix = 0) (size : Size) (rest : List UInt8) :
    readNumber kind size none (48 :: rest) = loopOutcome size (zeroPart kind none rest).negative
      (digitLoop size (pickRadix kind (zeroPart kind none rest).radix)
        (zeroPart kind none rest).width 0 (zeroPart kind none rest).processed
        (zeroPart kind none rest).input) := by
  have hpart : signPart kind none (48 :: rest) = zeroPart kind none rest := by
    simp [signPart, minus, hkind, narrow]
  rw [readNumber_eq, hpart]

theorem readNumber_unsigned {rest : List UInt8} (hc : IsDigit 16 c) (h : c ≠ 48 ∨ kind.radix ≠ 0)
    (size : Size) :
    readNumber kind size none (c :: rest) = loopOutcome size false
      (digitLoop size (pickRadix kind kind.radix) none 0 0 (c :: rest)) := by
  obtain ⟨hminus, hplus⟩ := hc.ne_sign
  have hradix : 1 ≤ pickRadix kind kind.radix := by cases kind <;> decide
  have hminus' : c ≠ minus := hminus
  by_cases hzero : c = 48
  · subst hzero
    have hkind : kind.radix ≠ 0 := h.resolve_left (fun hne => hne rfl)
    have hpart : signPart kind none (48 :: rest)
        = { radix := kind.radix, processed := 1, width := none, input := rest } := by
      simp [signPart, minus, hkind, narrow]
    rw [readNumber_eq, hpart, digitLoop_zero size hradix]
  · have hpart : signPart kind none (c :: rest)
        = { radix := kind.radix, width := none, input := c :: rest } := by
      simp [signPart, hminus', hplus, hzero]
    rw [readNumber_eq, hpart]

/-- Behind a leading zero that is no prefix, the number goes on in the base of the conversion. -/
theorem zeroPart_plain {rest : List UInt8} (hletter : ∀ c ∈ rest.head?, c ≠ 120 ∧ c ≠ 88)
    (hdigit : kind = .i → ∀ c ∈ rest.head?, isDigit c = false) :
    zeroPart kind none rest = { radix := 0, processed := 1, width := none, input := rest } := by
  cases rest with
  | nil => rfl
  | cons c rest =>
    obtain ⟨hx, hX⟩ := hletter c rfl
    rw [zeroPart, if_neg (by simp [hx, hX]), if_neg]
    rintro ⟨hc, rfl⟩
    have hfalse := hdigit rfl c rfl
    rw [hfalse] at hc
    cases hc

theorem not_letter_of_isDigit (hc : IsDigit 16 c) : c ≠ 120 ∧ c ≠ 88 :=
  ⟨fun hx => not_isDigit_of_letter (Nat.le_refl 16) (.inl hx) hc,
    fun hx => not_isDigit_of_letter (Nat.le_refl 16) (.inr hx) hc⟩

theorem readNumber_zero_plain (hkind : kind.radix = 0) (size : Size) {rest : List UInt8}
    (hrest : ∀ c ∈ rest.head?, IsDigit 16 c)
    (hdigit : kind = .i → ∀ c ∈ rest.head?, isDigit c = false) :
    readNumber kind size none (48 :: rest) = loopOutcome size false
      (digitLoop size (pickRadix kind 0) none 0 0 (48 :: rest)) := by
  have hradix : 1 ≤ pickRadix kind 0 := by cases kind <;> decide
  have hletter : ∀ c ∈ rest.head?, c ≠ 120 ∧ c ≠ 88 :=
    fun c hc => not_letter_of_isDigit (hrest c hc)
  have hpart := zeroPart_plain hletter hdigit
  rw [readNumber_zero hkind, hpart, digitLoop_zero size hradix]

theorem readNumber_zero_hex (hkind : kind.radix = 0) (size : Size) (hx : x = 120 ∨ x = 88)
    (rest : List UInt8) :
    readNumber kind size none (48 :: x :: rest) = loopOutcome size false
      (digitLoop size 16 none 0 0 rest) := by
  have hpart : zeroPart kind none (x :: rest) = { radix := 16, width := none, input := rest } := by
    rw [zeroPart, if_pos]
    · rfl
    · cases kind <;> simp_all [IntKind.radix]
  have hradix : pickRadix kind 16 = 16 := rfl
  rw [readNumber_zero hkind, hpart, hradix]

theorem readNumber_octal (size : Size) (hc : IsDigit 16 c) (hdigit : isDigit c = true)
    (rest : List UInt8) :
    readNumber .i size none (48 :: c :: rest) = loopOutcome size false
      (digitLoop size 8 none 0 0 (c :: rest)) := by
  obtain ⟨hx, hX⟩ := not_letter_of_isDigit hc
  have hpart : zeroPart .i none (c :: rest)
      = { radix := 8, width := none, input := c :: rest } := by
    rw [zeroPart, if_neg (by simp [hx, hX]), if_pos ⟨hdigit, rfl⟩]
  have hradix : pickRadix .i 8 = 8 := rfl
  rw [readNumber_zero rfl, hpart, hradix]

/-- **What `vfscanf` reads.** -/
theorem readNumber_codeReading (kind : IntKind) (size : Size) :
    readNumber kind size none t.bytes = loopOutcome size t.negative
      (digitLoop size (t.codeReading kind).1 none 0 0 (t.codeReading kind).2) := by
  cases hsign : t.sign with
  | some b =>
    rw [t.readNumber_signed hsign]
    cases kind <;> simp [codeReading, hsign, pickRadix, IntKind.radix, IntKind.base]
  | none =>
    have hneg : t.negative = false := by
      rw [negative, hsign]
      rfl
    rw [t.bytes_none hsign, hneg]
    obtain ⟨c, rest, hnum, hc⟩ := t.number_cons
    -- the conversions that look for a prefix
    have hpre : kind.radix = 0 → readNumber kind size none t.number
        = loopOutcome size false
          (digitLoop size (t.codeReading kind).1 none 0 0 (t.codeReading kind).2) := by
      intro hkind
      cases hhex : t.hexLetter with
      | some x =>
        have hread : t.codeReading kind = (16, t.digits) := by
          cases kind <;> simp_all [codeReading, IntKind.radix]
        rw [t.number_some hhex, readNumber_zero_hex hkind size (t.letter x hhex), hread]
      | none =>
        rw [t.number_none hhex] at hnum ⊢
        by_cases hzero : c = 48
        · subst hzero
          have hrest : ∀ d ∈ rest.head?, IsDigit 16 d := by
            intro d hd
            apply t.hexDigits
            rw [hnum]
            exact mem_cons_of_mem _ (mem_of_mem_head? hd)
          by_cases hplain : kind = .i → ∀ d ∈ rest.head?, isDigit d = false
          · have hread : t.codeReading kind = (pickRadix kind 0, 48 :: rest) := by
              cases kind with
              | d | o | u => cases hkind
              | x => simp [codeReading, hsign, hnum, pickRadix]
              | i =>
                simp only [codeReading, hsign, hhex, hnum]
                cases rest with
                | nil => rfl
                | cons d rest => simp [hplain rfl d rfl, pickRadix]
            rw [hnum, readNumber_zero_plain hkind size hrest hplain, hread]
          · push Not at hplain
            obtain ⟨rfl, d, hd, hdigit⟩ := hplain
            obtain ⟨rest', rfl⟩ : ∃ rest', rest = d :: rest' := by
              cases rest with
              | nil => cases hd
              | cons e rest => exact ⟨rest, by rw [Option.some.inj hd]⟩
            have hdigit' : isDigit d = true := by simpa using hdigit
            rw [hnum, readNumber_octal size (hrest d rfl) hdigit']
            simp [codeReading, hsign, hhex, hnum, hdigit']
        · rw [hnum, readNumber_unsigned hc (.inl hzero)]
          have hread : t.codeReading kind = (pickRadix kind kind.radix, c :: rest) := by
            cases kind with
            | d | o | u => cases hkind
            | x => simp [codeReading, hsign, hnum, pickRadix, IntKind.radix]
            | i => simp [codeReading, hsign, hhex, hnum, hzero, pickRadix, IntKind.radix]
          rw [hread]
    by_cases hkind : kind.radix = 0
    · exact hpre hkind
    · have hread : t.codeReading kind = (pickRadix kind kind.radix, t.number) := by
        cases kind <;> simp_all [codeReading, IntKind.radix, IntKind.base, pickRadix]
      rw [hread, hnum, readNumber_unsigned hc (.inr hkind)]

/-! ### What the reference reads -/

theorem splitSign_bytes :
    Stdlib.splitSign (t.bytes.dropWhile isSpace) = (t.negative, t.number) := by
  obtain ⟨c, rest, hnum, hc⟩ := t.number_cons
  have hspace := hc.not_isSpace
  cases hsign : t.sign with
  | none =>
    have hneg : t.negative = false := by rw [negative, hsign]; rfl
    rw [t.bytes_none hsign, hnum, dropWhile_cons_of_neg (by simp [hspace]), hneg]
    exact Stdlib.splitSign_append .none hc rest
  | some b =>
    rw [bytes, negative, hsign]
    cases b <;> rfl

theorem afterSign_bytes : afterSign t.bytes = t.number := by
  rw [afterSign, t.splitSign_bytes]

theorem not_hexPrefix_digits (base : ℕ) : ¬ HasHexPrefix base t.digits := by
  rintro ⟨-, x, rest, hdig, hx⟩
  refine not_isDigit_of_letter (Nat.le_refl 16) hx (t.hexDigits x ?_)
  rw [hdig]
  simp

/-- The reference either finds the prefix, or takes the number as digits of its base. -/
theorem referenceReading_cases (kind : IntKind) :
    (∃ x, (x = 120 ∨ x = 88) ∧ (kind.base = 0 ∨ kind.base = 16) ∧
      t.number = 48 :: x :: t.digits ∧ t.referenceReading kind = (16, t.digits)) ∨
    (¬ HasHexPrefix kind.base t.number ∧
      t.referenceReading kind = (baseOf kind.base t.number, t.number)) := by
  by_cases hbase : kind.base = 0 ∨ kind.base = 16
  · cases hhex : t.hexLetter with
    | some x =>
      refine .inl ⟨x, t.letter x hhex, hbase, t.number_some hhex, ?_⟩
      cases kind <;> simp_all [referenceReading, IntKind.base]
    | none =>
      refine .inr ?_
      rw [t.number_none hhex]
      refine ⟨t.not_hexPrefix_digits _, ?_⟩
      cases kind <;> simp_all [referenceReading, IntKind.base, baseOf]
  · refine .inr ⟨fun h => hbase h.1, ?_⟩
    cases kind <;> simp_all [referenceReading, IntKind.base, baseOf]

/-- What `strtol` and `strtoull` do with the text. -/
theorem strToInt_reading (ty : IntType) (kind : IntKind) :
    strToInt ty t.bytes kind.base = Stdlib.outcome ty t.bytes t.negative
      (Stdlib.digitLoop ty (t.referenceReading kind).1 (t.referenceReading kind).2 0 0) := by
  have hafter := t.afterSign_bytes
  rcases t.referenceReading_cases kind with ⟨x, hx, hbase, hnum, hread⟩ | ⟨hhex, hread⟩
  · rw [hnum] at hafter
    rw [Stdlib.strToInt_of_hex ty hbase hx hafter, t.splitSign_bytes, hread]
  · rw [← hafter] at hhex hread
    rw [Stdlib.strToInt_of_not_hex ty (IntKind.validBase kind) t.bytes hhex, t.splitSign_bytes,
      hread]

theorem takeWhile_digits : t.digits.takeWhile (IsDigit 16 ·) = t.digits :=
  takeWhile_eq_self_iff.2 fun c hc => decide_eq_true (t.hexDigits c hc)

/-- The digits that the reference takes. -/
def run (kind : IntKind) : List UInt8 :=
  (t.referenceReading kind).2.takeWhile (IsDigit (t.referenceReading kind).1 ·)

/-- What the reference leaves. -/
def rest (kind : IntKind) : List UInt8 :=
  (t.referenceReading kind).2.dropWhile (IsDigit (t.referenceReading kind).1 ·)

/-- Their value. -/
def amount (kind : IntKind) : ℕ := valueOf (t.referenceReading kind).1 (t.run kind)

/-- The value of a text is that of the digits that the reference takes. -/
theorem run_spec {text : List UInt8} (h : LongestSubject kind.base t.bytes text negative value) :
    negative = t.negative ∧ t.run kind ≠ [] ∧ value = t.amount kind := by
  obtain ⟨hsign, number, hnum, -⟩ := h.exists_number
  rw [t.splitSign_bytes] at hsign
  rw [t.afterSign_bytes] at hnum
  refine ⟨hsign, ?_⟩
  unfold amount run
  rcases t.referenceReading_cases kind with ⟨x, hx, hbase, heq, hread⟩ | ⟨hhex, hread⟩
  · rw [heq] at hnum
    rw [hread]
    have hne : t.digits.takeWhile (IsDigit 16 ·) ≠ [] := by
      rw [t.takeWhile_digits]
      exact t.nonempty
    exact ⟨hne, (hnum.eq_hex hbase hx hne).2⟩
  · obtain ⟨hrun, hval⟩ := hnum.eq_digits hhex
    obtain ⟨b, c, rest, hcons, -⟩ := hnum.numeral.exists_cons
    rw [hread]
    rw [← hrun]
    exact ⟨by rw [hcons]; exact cons_ne_nil _ _, hval⟩

theorem referenceReading_base (kind : IntKind) :
    1 ≤ (t.referenceReading kind).1 ∧ (t.referenceReading kind).1 ≤ 16 := by
  cases kind with
  | i =>
    have hbase : baseOf 0 t.digits = 8 ∨ baseOf 0 t.digits = 10 := by
      unfold baseOf
      rw [if_pos rfl]
      split
      · exact .inl rfl
      · exact .inr rfl
    have hread : (t.referenceReading .i).1
        = if t.hexLetter.isSome then 16 else baseOf 0 t.digits := by
      simp only [referenceReading]
      split <;> rfl
    rw [hread]
    split
    · simp
    · omega
  | d | u | o => simp [referenceReading, IntKind.base]
  | x => simp [referenceReading]

/-- The smallest `long`: `strtol` returns it, but leaves its text unread. -/
def IsMinimum (kind : IntKind) (size : Size) (negative : Bool) (value : ℕ) : Prop :=
  kind.signed = true ∧ size.bits = 32 ∧ negative = true ∧ value = 2 ^ 31

theorem rest_suffix (kind : IntKind) : t.rest kind <:+ t.bytes := by
  have hnum : t.number <:+ t.bytes := suffix_append _ _
  have hdig : t.digits <:+ t.number := by
    unfold number
    split
    · exact ((suffix_cons _ _).trans (suffix_cons _ _))
    · exact suffix_rfl
  have hread : (t.referenceReading kind).2 <:+ t.number := by
    cases kind with
    | i =>
      simp only [referenceReading]
      split <;> exact hdig
    | x => exact hdig
    | d | u | o => exact suffix_rfl
  exact ((dropWhile_suffix _).trans hread).trans hnum

variable {t} in
/-- A value that fits the object is one that the reader can hold. -/
theorem fits_lt (h : Fits kind size negative value) : value < 2 ^ size.sumBits := by
  have hbits : 2 ^ size.bits ≤ 2 ^ size.sumBits := Nat.pow_le_pow_right (by decide)
    size.bits_le_sumBits
  have hhalf : 2 ^ (size.bits - 1) < 2 ^ size.bits :=
    Nat.pow_lt_pow_right (by decide) (by cases size <;> decide)
  unfold Fits at h
  split at h
  · omega
  · omega

/-- The type of the function that a conversion is compared with. -/
def referenceType (kind : IntKind) (size : Size) : IntType :=
  if kind.signed = true ∧ size.bits ≤ 32 then long else unsignedLongLong

theorem reference_eq (kind : IntKind) (size : Size) (text : List UInt8) :
    reference kind size text = strToInt (referenceType kind size) text kind.base := by
  unfold reference referenceType
  split <;> rfl

theorem referenceType_bits (kind : IntKind) (size : Size) :
    1 ≤ (referenceType kind size).bits ∧ size.bits ≤ (referenceType kind size).bits := by
  unfold referenceType
  split
  case isTrue h => exact ⟨by decide, h.2⟩
  case isFalse =>
    exact ⟨by decide, size.bits_le_sumBits.trans size.sumBits_le⟩

/-- A value that fits is one that the function can hold, but for the smallest `long`. -/
theorem le_referenceType_max (h : Fits kind size negative value)
    (hmin : ¬ IsMinimum kind size negative value) :
    value ≤ (referenceType kind size).max := by
  have hlong : long.max = 2147483647 := rfl
  have hull : unsignedLongLong.max = 18446744073709551615 := rfl
  unfold referenceType
  split
  case isTrue hcase =>
    obtain ⟨hsigned, hle⟩ := hcase
    rw [Fits, if_pos hsigned] at h
    by_cases h32 : size.bits = 32
    · rw [h32] at h
      by_cases hneg : negative = true
      · have hne : value ≠ 2 ^ 31 := fun hv => hmin ⟨hsigned, h32, hneg, hv⟩
        rw [if_pos hneg] at h
        omega
      · rw [if_neg hneg] at h
        omega
    · have hpow : 2 ^ (size.bits - 1) ≤ 2 ^ 30 := Nat.pow_le_pow_right (by decide) (by omega)
      omega
  case isFalse =>
    have hlt := fits_lt h
    have hpow : 2 ^ size.sumBits ≤ 2 ^ 64 := Nat.pow_le_pow_right (by decide) size.sumBits_le
    omega

theorem wrap_emod {ty : IntType} (h : size.bits ≤ ty.bits) (x : ℤ) :
    ty.wrap x % 2 ^ size.bits = x % 2 ^ size.bits := by
  have hdvd : ((2 : ℤ) ^ size.bits) ∣ 2 ^ ty.bits := pow_dvd_pow 2 h
  unfold IntType.wrap
  split
  · obtain ⟨k, hk⟩ := hdvd
    have hbmod := Int.bmod_add_bdiv x (2 ^ ty.bits)
    push_cast at hbmod
    conv_rhs => rw [← hbmod, hk, mul_assoc, Int.add_mul_emod_self_left]
  · exact Int.emod_emod_of_dvd x hdvd

/-- **What the reference does with a value that it can hold.** -/
theorem reference_of_le (hne : t.run kind ≠ [])
    (hmax : t.amount kind ≤ (referenceType kind size).max) :
    (reference kind size t.bytes).rest = t.rest kind ∧
      ((reference kind size t.bytes).value % 2 ^ size.bits).toNat
        = signedBits size t.negative (t.amount kind) := by
  obtain ⟨hbase, hbase'⟩ := t.referenceReading_base kind
  obtain ⟨hbits, hle⟩ := referenceType_bits kind size
  rw [reference_eq, t.strToInt_reading,
    Stdlib.outcome_digitLoop hbits hbase (by omega) _ _ _ hne hmax]
  refine ⟨rfl, ?_⟩
  rw [wrap_emod hle]
  rfl

/-- `strtol` leaves the text of the smallest `long` unread. -/
theorem reference_of_minimum (h : IsMinimum kind size t.negative (t.amount kind)) :
    (reference kind size t.bytes).rest = t.bytes := by
  obtain ⟨hsigned, h32, -, hval⟩ := h
  have hbase := (t.referenceReading_base kind).1
  have htype : referenceType kind size = long := if_pos ⟨hsigned, by omega⟩
  have hloop := Stdlib.digitLoop_long_overflow hbase (t.referenceReading kind).2 [] 0
    (Nat.zero_le _) (by rw [nil_append]; exact hval)
  have hzero : ((valueOf (t.referenceReading kind).1 [] : ℕ) : ℤ) = 0 := rfl
  rw [hzero] at hloop
  rw [reference_eq, htype, t.strToInt_reading, hloop]
  rfl

/-! ### Where the readings agree -/

/-- The octal digits at the start are all that a decimal reader takes, and as a decimal number
they have the same bits. -/
def DecimalAlike (size : Size) (digits : List UInt8) : Prop :=
  StopsAfter size 10 [] (digits.takeWhile (IsDigit 8 ·)) (digits.dropWhile (IsDigit 8 ·)) ∧
    valueOf 10 (digits.takeWhile (IsDigit 8 ·)) ≡ valueOf 8 (digits.takeWhile (IsDigit 8 ·))
      [MOD 2 ^ size.bits]

/-- **The texts that are read alike.**  Behind a sign there is no prefix, and for `%i` no zero
that makes a difference; and the zero of an octal number has an octal digit behind it. -/
def Alike (kind : IntKind) (size : Size) : Prop :=
  match kind with
  | .x => t.sign = none ∨ t.hexLetter = none
  | .i =>
    if t.sign = none then
      t.hexLetter = none → ∀ c rest, t.digits = 48 :: c :: rest → c ≠ 56 ∧ c ≠ 57
    else t.hexLetter = none ∧ (t.digits.head? = some 48 → DecimalAlike size t.digits)
  | _ => True

/-- What `vfscanf` has to read. -/
def ReadsLike (kind : IntKind) (size : Size) : Prop :=
  loopOutcome size t.negative
      (digitLoop size (t.codeReading kind).1 none 0 0 (t.codeReading kind).2)
    = (t.rest kind, some (signedBits size t.negative (t.amount kind)))

theorem run_append_rest (kind : IntKind) :
    t.run kind ++ t.rest kind = (t.referenceReading kind).2 :=
  takeWhile_append_dropWhile

variable {t}

theorem readsLike_iff_stops {taken : List UInt8} (hradix : radix ≤ 16)
    (h : t.codeReading kind = (radix, taken ++ t.rest kind)) :
    t.ReadsLike kind size ↔ StopsAfter size radix [] taken (t.rest kind) ∧ taken ≠ [] ∧
      valueOf radix taken ≡ t.amount kind [MOD 2 ^ size.bits] := by
  rw [ReadsLike, h]
  exact digitLoop_iff size hradix t.negative taken (t.rest kind) _

theorem readsLike_of_eq (hne : t.run kind ≠ [])
    (hlt : t.amount kind < 2 ^ size.sumBits)
    (h : t.codeReading kind = t.referenceReading kind) : t.ReadsLike kind size := by
  obtain ⟨hbase, hbase'⟩ := t.referenceReading_base kind
  have hcode : t.codeReading kind
      = ((t.referenceReading kind).1, t.run kind ++ t.rest kind) := by
    rw [h, t.run_append_rest]
  rw [readsLike_iff_stops hbase' hcode]
  exact ⟨stopsAfter_run hbase hlt, hne, Nat.ModEq.rfl⟩

theorem not_readsLike_of_hex (hradix : radix ≤ 16) (hx : x = 120 ∨ x = 88)
    (hrest : t.rest kind = []) (h : t.codeReading kind = (radix, 48 :: x :: t.digits)) :
    ¬ t.ReadsLike kind size := by
  have hcode : t.codeReading kind = (radix, (48 :: x :: t.digits) ++ t.rest kind) := by
    rw [h, hrest, append_nil]
  rw [readsLike_iff_stops hradix hcode]
  rintro ⟨hstops, -, -⟩
  exact not_isDigit_of_letter hradix hx (hstops.digits x (by simp))

theorem dropWhile_digits (t : IntegerText) : t.digits.dropWhile (IsDigit 16 ·) = [] :=
  dropWhile_eq_nil_iff.2 fun c hc => decide_eq_true (t.hexDigits c hc)

theorem isDigit_iff : isDigit c = true ↔ IsDigit 10 c := by
  simp only [isDigit, IsDigit, digitOf, Bool.and_eq_true, decide_eq_true_eq, Option.mem_def,
    UInt8.le_iff_toNat_le, UInt8.reduceToNat]
  constructor
  · rintro ⟨hlow, hhigh⟩
    exact ⟨c.toNat - 48, if_pos ⟨hlow, hhigh⟩, by omega⟩
  · rintro ⟨d, hd, hlt⟩
    split_ifs at hd <;> simp only [Option.some.injEq] at hd <;> omega

theorem octal_or (h : IsDigit 10 c) : IsDigit 8 c ↔ c ≠ 56 ∧ c ≠ 57 := by
  obtain ⟨d, hd, hlt⟩ := h
  simp only [IsDigit, digitOf, Option.mem_def, ne_eq, ← UInt8.toNat_inj,
    UInt8.le_iff_toNat_le, UInt8.reduceToNat] at hd ⊢
  constructor
  · rintro ⟨e, he, hlt'⟩
    split_ifs at hd he <;> simp only [Option.some.injEq] at hd he <;> omega
  · rintro ⟨h8, h9⟩
    refine ⟨d, ?_, ?_⟩
    · split_ifs at hd ⊢ <;> simp only [Option.some.injEq] at hd ⊢ <;> omega
    · split_ifs at hd <;> simp only [Option.some.injEq] at hd <;> omega

theorem valueOf_zero_cons (base : ℕ) (digits : List UInt8) :
    valueOf base (48 :: digits) = valueOf base digits := by
  have hzero : digitOf 48 = some 0 := rfl
  simp [valueOf, hzero]

theorem stopsAfter_zero {rest : List UInt8} (h : ∀ c ∈ rest.head?, ¬ IsDigit 10 c) :
    StopsAfter size 10 [] [48] rest := by
  refine ⟨by simpa using (by decide : IsDigit 10 48), ?_, ?_⟩
  · rintro q c ⟨w, hw⟩
    obtain ⟨rfl, rfl⟩ : q = [] ∧ c = 48 := by
      cases q with
      | nil => exact ⟨rfl, (List.cons.inj hw).1⟩
      | cons d q => simp at hw
    exact lt_irrefl _
  · exact fun c hc hdigit => absurd hdigit (h c hc)

theorem isDigit_of_octal (h : IsDigit 8 c) : IsDigit 10 c := by
  obtain ⟨d, hd, hlt⟩ := h
  exact ⟨d, hd, by omega⟩

/-- `%i` without sign and prefix, behind a zero. -/
theorem readsLike_zero (hsign : t.sign = none) (hhex : t.hexLetter = none) {more : List UInt8}
    (hdig : t.digits = 48 :: more) (hlt : t.amount .i < 2 ^ size.sumBits) :
    t.ReadsLike .i size ↔ ∀ c ∈ more.head?, c ≠ 56 ∧ c ≠ 57 := by
  have hread : t.referenceReading .i = (8, 48 :: more) := by
    simp [referenceReading, hhex, hdig, baseOf]
  have hzero : IsDigit 8 48 := by decide
  have hrun : t.run .i = 48 :: more.takeWhile (IsDigit 8 ·) := by
    rw [run, hread]
    exact takeWhile_cons_of_pos (by simpa using hzero)
  have hrest : t.rest .i = more.dropWhile (IsDigit 8 ·) := by
    rw [IntegerText.rest, hread]
    exact dropWhile_cons_of_pos (by simpa using hzero)
  have hval : t.amount .i = valueOf 8 (more.takeWhile (IsDigit 8 ·)) := by
    rw [amount, hread, hrun, valueOf_zero_cons]
  rw [hval] at hlt
  by_cases hdigit : ∃ c ∈ more.head?, isDigit c = true
  · -- an octal number, unless the digit is none
    obtain ⟨c, hc, hdigit⟩ := hdigit
    obtain ⟨more', rfl⟩ : ∃ more', more = c :: more' := by
      cases more with
      | nil => cases hc
      | cons d more => exact ⟨more, by rw [Option.some.inj hc]⟩
    have hcode : t.codeReading .i
        = (8, (c :: more').takeWhile (IsDigit 8 ·) ++ t.rest .i) := by
      rw [hrest]
      simp [codeReading, hsign, hhex, hdig, hdigit]
    have hhead : (∀ d ∈ (c :: more').head?, d ≠ 56 ∧ d ≠ 57) ↔ c ≠ 56 ∧ c ≠ 57 := by simp
    rw [readsLike_iff_stops (by decide) hcode, hval, hrest, hhead,
      ← octal_or (isDigit_iff.1 hdigit)]
    constructor
    · rintro ⟨-, hne, -⟩
      by_contra hnot
      rw [takeWhile_cons_of_neg (by simpa using hnot)] at hne
      exact hne rfl
    · intro hoctal
      refine ⟨stopsAfter_run (by decide) hlt, ?_, Nat.ModEq.rfl⟩
      rw [takeWhile_cons_of_pos (by simpa using hoctal)]
      exact cons_ne_nil _ _
  · -- just a zero
    push Not at hdigit
    have hdecimal : ∀ c ∈ more.head?, ¬ IsDigit 10 c := fun c hc hdec =>
      hdigit c hc (isDigit_iff.2 hdec)
    have hnone : more.takeWhile (IsDigit 8 ·) = [] ∧ more.dropWhile (IsDigit 8 ·) = more := by
      cases more with
      | nil => exact ⟨rfl, rfl⟩
      | cons c more =>
        have hoctal : ¬ IsDigit 8 c := fun h => hdecimal c rfl (isDigit_of_octal h)
        exact ⟨takeWhile_cons_of_neg (by simpa using hoctal),
          dropWhile_cons_of_neg (by simpa using hoctal)⟩
    rw [hnone.1] at hval
    rw [hnone.2] at hrest
    have hcode : t.codeReading .i = (10, [48] ++ t.rest .i) := by
      rw [hrest]
      cases more with
      | nil => simp [codeReading, hsign, hhex, hdig]
      | cons c more =>
        have hc := hdigit c rfl
        simp [codeReading, hsign, hhex, hdig, hc]
    rw [readsLike_iff_stops (by decide) hcode, hval, hrest]
    refine iff_of_true ⟨stopsAfter_zero hdecimal, by simp, rfl⟩ ?_
    intro c hc
    constructor
    · rintro rfl
      exact hdecimal _ hc (by decide)
    · rintro rfl
      exact hdecimal _ hc (by decide)

/-- `%i` behind a sign and without prefix. -/
theorem readsLike_signed {b : Bool} (hsign : t.sign = some b) (hhex : t.hexLetter = none)
    (hne : t.run .i ≠ []) (hlt : t.amount .i < 2 ^ size.sumBits) :
    t.ReadsLike .i size ↔ (t.digits.head? = some 48 → DecimalAlike size t.digits) := by
  have hcode : t.codeReading .i = (10, t.digits) := by
    simp [codeReading, hsign, t.number_none hhex]
  by_cases hhead : t.digits.head? = some 48
  · have hread : t.referenceReading .i = (8, t.digits) := by
      simp [referenceReading, hhex, baseOf, hhead]
    have happend := t.run_append_rest .i
    rw [hread] at happend
    have hcode' : t.codeReading .i = (10, t.run .i ++ t.rest .i) := by rw [hcode, happend]
    rw [readsLike_iff_stops (by decide) hcode']
    simp only [hne, hhead, ne_eq, not_false_iff, true_and, forall_const]
    simp only [amount, run, IntegerText.rest, hread, DecimalAlike]
  · refine iff_of_true (readsLike_of_eq hne hlt ?_) (fun h => absurd h hhead)
    rw [hcode]
    simp [referenceReading, hhex, baseOf, hhead]

/-- **The readings agree just if the text is read alike.** -/
theorem readsLike_iff (hne : t.run kind ≠ [])
    (hlt : t.amount kind < 2 ^ size.sumBits) :
    t.ReadsLike kind size ↔ t.Alike kind size := by
  cases kind with
  | d | u | o => exact iff_of_true (readsLike_of_eq hne hlt rfl) trivial
  | x =>
    cases hsign : t.sign with
    | none =>
      refine iff_of_true (readsLike_of_eq hne hlt ?_) (.inl hsign)
      simp [codeReading, referenceReading, hsign]
    | some b =>
      cases hhex : t.hexLetter with
      | none =>
        refine iff_of_true (readsLike_of_eq hne hlt ?_) (.inr hhex)
        simp [codeReading, referenceReading, t.number_none hhex]
      | some x =>
        refine iff_of_false ?_ (by simp [Alike, hsign, hhex])
        refine not_readsLike_of_hex (Nat.le_refl 16) (t.letter x hhex) ?_ ?_
        · exact t.dropWhile_digits
        · simp [codeReading, hsign, t.number_some hhex]
  | i =>
    cases hhex : t.hexLetter with
    | some x =>
      cases hsign : t.sign with
      | none =>
        refine iff_of_true (readsLike_of_eq hne hlt ?_) (by simp [Alike, hsign, hhex])
        simp [codeReading, referenceReading, hsign, hhex]
      | some b =>
        refine iff_of_false ?_ (by simp [Alike, hsign, hhex])
        have hradix : 10 ≤ 16 := by decide
        refine not_readsLike_of_hex hradix (t.letter x hhex) ?_ ?_
        · have hread : t.referenceReading .i = (16, t.digits) := by
            simp [referenceReading, hhex]
          rw [IntegerText.rest, hread]
          exact t.dropWhile_digits
        · simp [codeReading, hsign, t.number_some hhex]
    | none =>
      cases hsign : t.sign with
      | some b =>
        rw [readsLike_signed hsign hhex hne hlt]
        simp [Alike, hsign, hhex]
      | none =>
        obtain ⟨c, rest, hdig⟩ := exists_cons_of_ne_nil t.nonempty
        simp only [Alike, hsign, hhex, forall_const]
        by_cases hzero : c = 48
        · subst hzero
          rw [readsLike_zero hsign hhex hdig hlt, hdig]
          cases rest with
          | nil | cons d rest => simp
        · refine iff_of_true (readsLike_of_eq hne hlt ?_) ?_
          · simp [codeReading, referenceReading, hsign, hdig, hzero, baseOf]
          · intro d rest' heq
            rw [hdig] at heq
            exact absurd (List.cons.inj heq).1 hzero

end IntegerText

/-! ### The conversions -/

section Conversions

variable (float : Spec → ℕ → List UInt8 → Turn)

/-- **A conversion does what the reference does with a text**: in every state of the loop in which
the format goes on with the conversion and the input is the text, and for every width that covers
the text, it stores the bits of the value that the reference returns, and takes the characters
that the reference takes. -/
def IntegerText.Scans (t : IntegerText) (kind : IntKind) (size : Size) : Prop :=
  ∀ (v : Conversion) (s : Scan) (format : List UInt8), v.kind = .integer kind → v.size = size →
    v.Readable → Covers v.fieldWidth t.bytes →
    s.format = (Directive.conversion v).text ++ format → s.input = t.bytes →
    ∃ effect, effectsAfter float s = s.effects ++ [effect] ∧ effect.converted = true ∧
      effect.stored = v.spec.store
        (.integer size ((reference kind size t.bytes).value % 2 ^ size.bits).toNat) ∧
      effect.consumed = consumedText t.bytes (reference kind size t.bytes).rest

theorem intBranch_readNumber (kind : IntKind) (spec : Spec) (conversions : ℕ)
    (input : List UInt8) :
    (intBranch kind spec conversions input).input = (readNumber kind spec.size spec.width input).1 ∧
    (intBranch kind spec conversions input).converted
      = (readNumber kind spec.size spec.width input).2.isSome ∧
    (intBranch kind spec conversions input).stored = spec.store (.integer spec.size
      ((readNumber kind spec.size spec.width input).2.getD 0)) := by
  unfold intBranch readNumber
  generalize readInteger kind spec.size spec.width input = outcome
  obtain ⟨rest, bits, ended⟩ := outcome
  cases bits <;> exact ⟨rfl, rfl, rfl⟩

theorem IntegerText.skipSpace_bytes (t : IntegerText) : skipSpace t.bytes = t.bytes := by
  obtain ⟨c, rest, hnum, hc⟩ := t.number_cons
  have hspace := hc.not_isSpace
  rw [IntegerText.bytes, hnum]
  cases t.sign with
  | none => simp [IntegerText.signText, skipSpace, hspace]
  | some b => cases b <;> rfl

theorem effectsAfter_integer {t : IntegerText} {kind : IntKind} {v : Conversion} {s : Scan}
    {format : List UInt8} (hkind : v.kind = .integer kind) (hv : v.Readable)
    (hcovers : Covers v.fieldWidth t.bytes)
    (hs : s.format = (Directive.conversion v).text ++ format) (hinput : s.input = t.bytes) :
    ∃ effect, effectsAfter float s = s.effects ++ [effect] ∧
      effect.converted = (readNumber kind v.size none t.bytes).2.isSome ∧
      effect.stored = v.spec.store
        (.integer v.size ((readNumber kind v.size none t.bytes).2.getD 0)) ∧
      effect.consumed = consumedText t.bytes (readNumber kind v.size none t.bytes).1 := by
  have hread := readNumber_covers kind v.size hcovers
  obtain ⟨hrest, hconv, hstored⟩ := intBranch_readNumber kind v.spec s.conversions t.bytes
  rw [show v.spec.size = v.size from rfl, show v.spec.width = v.fieldWidth from rfl, hread]
    at hrest hconv hstored
  have hturn := codeTurn_integer float format s.conversions s.read s.input hkind
  rw [hinput, t.skipSpace_bytes] at hturn
  refine ⟨(intBranch kind v.spec s.conversions t.bytes).effect t.bytes, ?_, hconv, hstored, ?_⟩
  · rw [effectsAfter, scanBody_conversion float hv s hs, finish_effects, hinput, hturn]
  · rw [← hrest]
    rfl

theorem scans_iff_readNumber (t : IntegerText) (kind : IntKind) (size : Size)
    (hrest : (reference kind size t.bytes).rest <:+ t.bytes) :
    t.Scans float kind size ↔ readNumber kind size none t.bytes
      = ((reference kind size t.bytes).rest,
        some ((reference kind size t.bytes).value % 2 ^ size.bits).toNat) := by
  constructor
  · intro h
    let v : Conversion := { size, kind := .integer kind }
    have hv : v.Readable := ⟨by simp [v], by simp [v, Conversion.fieldWidth]⟩
    have hcovers : Covers v.fieldWidth t.bytes := covers_none _
    let s : Scan := { format := (Directive.conversion v).text ++ [], input := t.bytes }
    obtain ⟨effect, heff, hconv, hstored, hcons⟩ :=
      h v s [] rfl rfl hv hcovers rfl rfl
    obtain ⟨effect', heff', hconv', hstored', hcons'⟩ :=
      effectsAfter_integer float (show v.kind = .integer kind from rfl) hv hcovers
        (show s.format = (Directive.conversion v).text ++ [] from rfl)
        (show s.input = t.bytes from rfl)
    obtain rfl : effect = effect' := by
      rw [heff] at heff'
      simpa using heff'
    rw [hconv'] at hconv
    obtain ⟨bits, hbits⟩ := Option.isSome_iff_exists.1 hconv
    rw [hstored', hbits] at hstored
    rw [hcons'] at hcons
    have hsuf := (readInteger_spec kind size none t.bytes).1
    refine Prod.ext ((consumedText_inj hsuf hrest).1 hcons) ?_
    have hval : bits = ((reference kind size t.bytes).value % 2 ^ size.bits).toNat := by
      simpa [Spec.store, Conversion.spec, v] using hstored
    exact hbits.trans (by rw [hval])
  · intro h v s format hkind hsize hv hcovers hs hinput
    obtain ⟨effect, heff, hconv, hstored, hcons⟩ :=
      effectsAfter_integer float hkind hv hcovers hs hinput
    rw [hsize, h] at hconv hstored hcons
    exact ⟨effect, heff, hconv, hstored, hcons⟩

/-- **A conversion does what `strtol` or `strtoull` does with a text whose value fits the object,
just if the text is read alike and is not that of the smallest `long`.** -/
theorem scans_iff_alike (t : IntegerText) {kind : IntKind} {size : Size} {text : List UInt8}
    {negative : Bool} {value : ℕ} (h : LongestSubject kind.base t.bytes text negative value)
    (hfits : Fits kind size negative value) :
    t.Scans float kind size ↔
      ¬ IntegerText.IsMinimum kind size negative value ∧ t.Alike kind size := by
  obtain ⟨rfl, hne, rfl⟩ := t.run_spec h
  by_cases hmin : IntegerText.IsMinimum kind size t.negative (t.amount kind)
  · -- `vfscanf` takes the sign at least
    have hreference := t.reference_of_minimum hmin
    rw [scans_iff_readNumber float t kind size (by rw [hreference])]
    refine iff_of_false ?_ (fun hcon => hcon.1 hmin)
    intro hread
    obtain ⟨b, hsign⟩ : ∃ b, t.sign = some b := by
      have hnegative := hmin.2.2.1
      rw [IntegerText.negative, beq_iff_eq] at hnegative
      exact ⟨true, hnegative⟩
    rw [hreference, t.readNumber_signed hsign] at hread
    have hsuffix := (digitLoop_spec size (pickRadix kind kind.radix) none 0 0 t.number).1
    have hleft : (digitLoop size (pickRadix kind kind.radix) none 0 0 t.number).2.2.1
        = t.bytes := congrArg Prod.fst hread
    rw [hleft, IntegerText.bytes, hsign] at hsuffix
    have hlength := hsuffix.length_le
    cases b <;> simp [IntegerText.signText] at hlength
  · have hmax := IntegerText.le_referenceType_max hfits hmin
    obtain ⟨hrest, hvalue⟩ := t.reference_of_le hne hmax
    rw [scans_iff_readNumber float t kind size (by rw [hrest]; exact t.rest_suffix kind),
      hrest, hvalue, t.readNumber_codeReading,
      ← IntegerText.readsLike_iff hne (IntegerText.fits_lt hfits)]
    simp only [hmin, not_false_iff, true_and]
    rfl

/-- The text `42`. -/
def fortyTwo : IntegerText where
  sign := none
  hexLetter := none
  digits := [52, 50]
  letter := by simp
  nonempty := by simp
  hexDigits := (digits_of_all (by simp) rfl).2

theorem fortyTwo_scans : fortyTwo.Scans (fun _ _ input => { input }) .d .default := by
  have hsubject : Stdlib.Subject 10 [52, 50] false 42 :=
    ⟨[], [], [52, 50], rfl, by simp, .none,
      .digits (by decide) (digits_of_all (by decide) (by decide))⟩
  have hlongest : LongestSubject IntKind.d.base fortyTwo.bytes [52, 50] false 42 :=
    ⟨hsubject, prefix_rfl, fun _ _ _ _ hprefix => hprefix.length_le⟩
  refine (scans_iff_alike _ fortyTwo hlongest (by decide)).2 ⟨?_, trivial⟩
  rintro ⟨-, -, hnegative, -⟩
  cases hnegative

/-- The text `+0x1A`. -/
def signedHex : IntegerText where
  sign := some false
  hexLetter := some 120
  digits := [49, 65]
  letter := by simp
  nonempty := by simp
  hexDigits := (digits_of_all (by simp) rfl).2

/-- `strtoull` reads 26 from `+0x1A`; `%x` takes the sign and the zero, and stores 0. -/
theorem signedHex_not_scanned :
    signedHex.bytes = [43, 48, 120, 49, 65] ∧
    reference .x .default signedHex.bytes = { value := 26, rest := [] } ∧
    Fits .x .default false 26 ∧
    vsscanf (fun _ _ input => { input }) [percent, 120] signedHex.bytes =
      ⟨1, [⟨[43, 48], some (.integer .default 0), true, true⟩]⟩ := by
  decide

end Conversions

end Clib4
