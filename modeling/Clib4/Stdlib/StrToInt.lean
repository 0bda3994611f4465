import Clib4.Dos
import Clib4.Errno
import Clib4.Scanf.Format

/-!
# Reading integers

`strtol`, `strtoul`, `strtoll` and `strtoull` have one body in four types.  Behind white space and a
sign it looks for the prefix `0x`, and then takes digits as long as there are any.  An overflow is
found by a sum that is smaller than the one before it.

A text is what stands before its final zero.

## Main definitions

* `IntType`, `strToInt` — what the four functions differ in, and their common body.
* `Subject`, `LongestSubject` — the texts that denote an integer, and the longest of them at the
  start of a text.

## Main results

* `strToInt_in_range_iff` — **when an integer that the type can hold is read.**
* `strToInt_out_of_range` — **an integer that is too large is never reported as it should be.**
-/

namespace Clib4.Stdlib

open List

/-! ### The functions -/

/-- What the functions differ in: the type they compute in, and the results that they return for an
overflow, with a minus and without. -/
structure IntType where
  bits : ℕ
  signed : Bool
  overflow : Bool → ℤ

/-- The value that is returned, the text that `*ptr` points to, and `errno`, if it has been set. -/
structure Outcome where
  value : ℤ
  rest : List UInt8
  errno : Option Errno := none
  deriving DecidableEq

/-- A value in the type. -/
def IntType.wrap (ty : IntType) (x : ℤ) : ℤ :=
  if ty.signed then x.bmod (2 ^ ty.bits) else x % 2 ^ ty.bits

/-- The value of a digit.  Characters behind `z` and between `Z` and `a` have one as well, but from
36 on. -/
def charValue (c : UInt8) : Option ℤ :=
  if 48 ≤ c ∧ c ≤ 57 then some (c.toNat - 48)
  else if 97 ≤ c then some (c.toNat - 97 + 10)
  else if 65 ≤ c then some (c.toNat - 65 + 10)
  else none

/-- The loop over the digits: the sum, the number of digits and the rest, or nothing for an
overflow. -/
def digitLoop (ty : IntType) (base : ℤ) : List UInt8 → ℤ → ℕ → Option (ℤ × ℕ × List UInt8)
  | [], sum, count => some (sum, count, [])
  | c :: str, sum, count =>
    match charValue c with
    | none => some (sum, count, c :: str)
    | some d =>
      if base ≤ d then some (sum, count, c :: str)
      else
        let newSum := ty.wrap (base * sum + d)
        if newSum < sum then none else digitLoop ty base str newSum (count + 1)

/-- The sign: whether it is a minus, and what follows. -/
def splitSign : List UInt8 → Bool × List UInt8
  | 45 :: str => (true, str)
  | 43 :: str => (false, str)
  | str => (false, str)

/-- The prefix `0x`, for the bases 0 and 16, and the base that it leads to. -/
def splitPrefix (base : ℤ) (str : List UInt8) : ℤ × List UInt8 :=
  match str with
  | 48 :: x :: rest =>
    if (base = 0 ∨ base = 16) ∧ (x = 120 ∨ x = 88) then (16, rest) else (base, str)
  | _ => (base, str)

/-- The base, if it is not known yet. -/
def chooseBase (base : ℤ) (str : List UInt8) : ℤ :=
  if base = 0 then if str.head? = some 48 then 8 else 10 else base

/-- The end of the functions, with what the loop leaves. -/
def outcome (ty : IntType) (text : List UInt8) (negative : Bool) :
    Option (ℤ × ℕ × List UInt8) → Outcome
  | none => { value := ty.overflow negative, rest := text, errno := some .ERANGE }
  | some (sum, count, rest) =>
    if count = 0 then { value := 0, rest := text }
    else { value := ty.wrap (if negative then -sum else sum), rest }

/-- The body of the four functions. -/
def strToInt (ty : IntType) (text : List UInt8) (base : ℤ) : Outcome :=
  if base < 0 then { value := 0, rest := text, errno := some .ERANGE }
  else
    let (negative, str) := splitSign (text.dropWhile isSpace)
    let (base, str) := splitPrefix base str
    let base := chooseBase base str
    if 1 ≤ base ∧ base ≤ 36 then outcome ty text negative (digitLoop ty base str 0 0)
    else { value := 0, rest := text }

def longMin : ℤ := -2147483648

def ulongMax : ℤ := 4294967295

/-- The type of `strtol`. -/
def long : IntType := ⟨32, true, fun negative => if negative then longMin else longMax⟩

/-- The type of `strtoul`. -/
def unsignedLong : IntType := ⟨32, false, fun _ => ulongMax⟩

/-- The type of `strtoll`; the limits are still those of a `long`. -/
def longLong : IntType := ⟨64, true, fun negative => if negative then longMin else longMax⟩

/-- The type of `strtoull`; the limit is still that of an `unsigned long`. -/
def unsignedLongLong : IntType := ⟨64, false, fun _ => ulongMax⟩

def strtol : List UInt8 → ℤ → Outcome := strToInt long

def strtoul : List UInt8 → ℤ → Outcome := strToInt unsignedLong

def strtoll : List UInt8 → ℤ → Outcome := strToInt longLong

def strtoull : List UInt8 → ℤ → Outcome := strToInt unsignedLongLong

/-- The four functions with their types. -/
def intFunctions : List (IntType × (List UInt8 → ℤ → Outcome)) :=
  [(long, strtol), (unsignedLong, strtoul), (longLong, strtoll), (unsignedLongLong, strtoull)]

/-! ### The integers at the start of a text -/

/-- The value of a digit or letter. -/
def digitOf (c : UInt8) : Option ℕ :=
  if 48 ≤ c ∧ c ≤ 57 then some (c.toNat - 48)
  else if 97 ≤ c ∧ c ≤ 122 then some (c.toNat - 87)
  else if 65 ≤ c ∧ c ≤ 90 then some (c.toNat - 55)
  else none

/-- The character is a digit in this base. -/
def IsDigit (base : ℕ) (c : UInt8) : Prop := ∃ d ∈ digitOf c, d < base

instance (base : ℕ) (c : UInt8) : Decidable (IsDigit base c) :=
  inferInstanceAs (Decidable (∃ d ∈ digitOf c, d < base))

/-- The number that digits stand for. -/
def valueOf (base : ℕ) (digits : List UInt8) : ℕ :=
  Nat.ofDigits base (digits.filterMap digitOf).reverse

/-- One digit or more in this base. -/
def Digits (base : ℕ) (text : List UInt8) : Prop := text ≠ [] ∧ ∀ c ∈ text, IsDigit base c

variable {base : ℕ} {text number rest : List UInt8} {negative : Bool}

theorem digits_of_all (hne : text ≠ []) (h : text.all (fun c => decide (IsDigit base c)) = true) :
    Digits base text :=
  ⟨hne, fun c hc => of_decide_eq_true (all_eq_true.1 h c hc)⟩

/-- A text that stands for a number: digits in the base, also behind `0x` if it is 16; and for base
0 a hexadecimal, octal or decimal constant. -/
inductive Numeral : ℕ → List UInt8 → ℕ → Prop
  | digits {base : ℕ} {text : List UInt8} (hbase : base ≠ 0) (h : Digits base text) :
      Numeral base text (valueOf base text)
  | hex {base : ℕ} {x : UInt8} {text : List UInt8} (hbase : base = 0 ∨ base = 16)
      (hx : x = 120 ∨ x = 88) (h : Digits 16 text) :
      Numeral base (48 :: x :: text) (valueOf 16 text)
  | octal {text : List UInt8} (hzero : text.head? = some 48) (h : Digits 8 text) :
      Numeral 0 text (valueOf 8 text)
  | decimal {text : List UInt8} (hzero : text.head? ≠ some 48) (h : Digits 10 text) :
      Numeral 0 text (valueOf 10 text)

/-- The texts for a sign, and whether it is a minus. -/
inductive Sign : List UInt8 → Bool → Prop
  | none : Sign [] false
  | plus : Sign [43] false
  | minus : Sign [45] true

/-- A subject sequence: white space, a sign, and a number. -/
def Subject (base : ℕ) (text : List UInt8) (negative : Bool) (value : ℕ) : Prop :=
  ∃ blanks sign number, text = blanks ++ (sign ++ number) ∧ (∀ c ∈ blanks, isSpace c = true) ∧
    Sign sign negative ∧ Numeral base number value

/-- The longest subject sequence at the start of a text. -/
structure LongestSubject (base : ℕ) (str text : List UInt8) (negative : Bool) (value : ℕ) :
    Prop where
  subject : Subject base text negative value
  isPrefix : text <+: str
  longest : ∀ text' negative' value', Subject base text' negative' value' → text' <+: str →
    text'.length ≤ text.length

/-- The largest value of the type. -/
def IntType.max (ty : IntType) : ℕ :=
  if ty.signed then 2 ^ (ty.bits - 1) - 1 else 2 ^ ty.bits - 1

/-- What stands behind white space and sign. -/
def afterSign (str : List UInt8) : List UInt8 := (splitSign (str.dropWhile isSpace)).2

/-- The prefix `0x`, in a base that has it. -/
def HasHexPrefix (base : ℕ) (str : List UInt8) : Prop :=
  (base = 0 ∨ base = 16) ∧ ∃ x rest, str = 48 :: x :: rest ∧ (x = 120 ∨ x = 88)

/-- Behind white space and sign there is the prefix `0x`, and no digit behind it. -/
def BarePrefix (base : ℕ) (str : List UInt8) : Prop :=
  HasHexPrefix base (afterSign str) ∧ ∀ c ∈ ((afterSign str).drop 2).head?, ¬ IsDigit 16 c

/-! ### Digits -/

variable {c x : UInt8} {ty : IntType} {value : ℕ} {str : List UInt8}

theorem charValue_of_isDigit (h : IsDigit base c) :
    ∃ d : ℕ, digitOf c = some d ∧ charValue c = some (d : ℤ) ∧ d < base := by
  obtain ⟨d, hd, hlt⟩ := h
  refine ⟨d, hd, ?_, hlt⟩
  unfold digitOf at hd
  unfold charValue
  simp only [UInt8.le_iff_toNat_le, UInt8.reduceToNat, Option.mem_def] at hd ⊢
  split_ifs at hd ⊢ <;> simp only [Option.some.injEq] at hd ⊢ <;> omega

theorem charValue_of_not_isDigit (hbase : base ≤ 36) (h : ¬ IsDigit base c) :
    ∀ d ∈ charValue c, (base : ℤ) ≤ d := by
  intro d hd
  unfold charValue at hd
  simp only [UInt8.le_iff_toNat_le, UInt8.reduceToNat, Option.mem_def] at hd
  have hnonneg : 0 ≤ d := by
    split_ifs at hd <;> simp only [Option.some.injEq] at hd <;> omega
  by_contra hlt
  apply h
  unfold IsDigit digitOf
  simp only [UInt8.le_iff_toNat_le, UInt8.reduceToNat, Option.mem_def]
  refine ⟨d.toNat, ?_, by omega⟩
  split_ifs at hd ⊢ <;> simp only [Option.some.injEq] at hd ⊢ <;> omega

theorem IsDigit.not_isSpace (h : IsDigit base c) : isSpace c = false := by
  obtain ⟨d, hd, -⟩ := h
  rw [Bool.eq_false_iff]
  intro hspace
  unfold digitOf at hd
  unfold isSpace at hspace
  simp only [Bool.or_eq_true, Bool.and_eq_true, decide_eq_true_eq, beq_iff_eq,
    UInt8.le_iff_toNat_le, ← UInt8.toNat_inj, UInt8.reduceToNat, Option.mem_def] at hd hspace
  split_ifs at hd <;> omega

theorem valueOf_append_singleton (base : ℕ) (digits : List UInt8) {d : ℕ}
    (hd : digitOf c = some d) :
    valueOf base (digits ++ [c]) = base * valueOf base digits + d := by
  simp [valueOf, hd, Nat.ofDigits_cons, Nat.add_comm]

/-- The sum after some digits is at most the sum after all of them. -/
theorem valueOf_le_append (hbase : 1 ≤ base) (digits more : List UInt8) :
    valueOf base digits ≤ valueOf base (digits ++ more) := by
  unfold valueOf
  rw [filterMap_append, reverse_append, Nat.ofDigits_append]
  have hpow : 1 ≤ base ^ (more.filterMap digitOf).reverse.length := Nat.one_le_pow _ _ hbase
  calc Nat.ofDigits base (digits.filterMap digitOf).reverse
      = 1 * Nat.ofDigits base (digits.filterMap digitOf).reverse := (Nat.one_mul _).symm
    _ ≤ base ^ (more.filterMap digitOf).reverse.length *
          Nat.ofDigits base (digits.filterMap digitOf).reverse := Nat.mul_le_mul_right _ hpow
    _ ≤ _ := Nat.le_add_left _ _

/-! ### The loop -/

/-- The functions compute in a type of 32 or 64 bits. -/
theorem IntType.wrap_of_le (hbits : 1 ≤ ty.bits) {n : ℕ} (h : n ≤ ty.max) : ty.wrap n = n := by
  unfold IntType.max at h
  unfold IntType.wrap
  have hpow : 2 ^ ty.bits = 2 * 2 ^ (ty.bits - 1) := by
    rw [← pow_succ', Nat.sub_add_cancel hbits]
  have hpos : 0 < 2 ^ (ty.bits - 1) := Nat.two_pow_pos _
  by_cases hsigned : ty.signed = true
  · rw [if_pos hsigned] at h ⊢
    apply Int.bmod_eq_of_le <;> omega
  · rw [if_neg hsigned] at h ⊢
    have hlt : n < 2 ^ ty.bits := by omega
    exact Int.emod_eq_of_lt (by omega) (by exact_mod_cast hlt)

theorem digitLoop_stop (hbase : base ≤ 36) (hc : ¬ IsDigit base c) (sum : ℤ) (count : ℕ) :
    digitLoop ty base (c :: str) sum count = some (sum, count, c :: str) := by
  have hstop := charValue_of_not_isDigit hbase hc
  unfold digitLoop
  cases hval : charValue c with
  | none => rfl
  | some d => exact if_pos (hstop d hval)

theorem digitLoop_eq (hbits : 1 ≤ ty.bits) (hbase : 1 ≤ base) (hbase' : base ≤ 36)
    (str digits : List UInt8) (count : ℕ)
    (h : valueOf base (digits ++ str.takeWhile (IsDigit base ·)) ≤ ty.max) :
    digitLoop ty base str (valueOf base digits) count =
      some ((valueOf base (digits ++ str.takeWhile (IsDigit base ·)) : ℤ),
        count + (str.takeWhile (IsDigit base ·)).length, str.dropWhile (IsDigit base ·)) := by
  induction str generalizing digits count with
  | nil => simp [digitLoop]
  | cons c str ih =>
    by_cases hc : IsDigit base c
    · obtain ⟨d, hd, hval, hlt⟩ := charValue_of_isDigit hc
      rw [takeWhile_cons_of_pos (by simpa using hc), append_cons] at h ⊢
      rw [dropWhile_cons_of_pos (by simpa using hc)]
      have hsum : (base : ℤ) * valueOf base digits + d = (valueOf base (digits ++ [c]) : ℕ) := by
        rw [valueOf_append_singleton base digits hd]
        push_cast
        ring
      have hfits : valueOf base (digits ++ [c]) ≤ ty.max :=
        (valueOf_le_append hbase _ _).trans h
      have hgrows : valueOf base digits ≤ valueOf base (digits ++ [c]) :=
        valueOf_le_append hbase _ _
      simp only [digitLoop, hval]
      rw [if_neg (by omega), hsum, IntType.wrap_of_le hbits hfits, if_neg (by omega),
        ih (digits ++ [c]) (count + 1) h]
      simp only [length_cons]
      congr 3
      omega
    · rw [takeWhile_cons_of_neg (by simpa using hc), append_nil,
        dropWhile_cons_of_neg (by simpa using hc)]
      exact digitLoop_stop hbase' hc _ _

/-- The digits of the number behind the largest `long` lead to an overflow, at the last one that
counts. -/
theorem digitLoop_long_overflow (hbase : 1 ≤ base) (str digits : List UInt8) (count : ℕ)
    (hdig : valueOf base digits ≤ long.max)
    (h : valueOf base (digits ++ str.takeWhile (IsDigit base ·)) = long.max + 1) :
    digitLoop long base str (valueOf base digits) count = none := by
  have hmax : long.max = 2147483647 := rfl
  induction str generalizing digits count with
  | nil =>
    simp only [takeWhile_nil, append_nil] at h
    omega
  | cons c str ih =>
    by_cases hc : IsDigit base c
    · obtain ⟨d, hd, hval, hlt⟩ := charValue_of_isDigit hc
      rw [takeWhile_cons_of_pos (by simpa using hc), append_cons] at h
      have hsum : (base : ℤ) * valueOf base digits + d = (valueOf base (digits ++ [c]) : ℕ) := by
        rw [valueOf_append_singleton base digits hd]
        push_cast
        ring
      have hle : valueOf base (digits ++ [c]) ≤ long.max + 1 :=
        (valueOf_le_append hbase _ _).trans h.le
      have hgrows : valueOf base digits ≤ valueOf base (digits ++ [c]) :=
        valueOf_le_append hbase _ _
      simp only [digitLoop, hval]
      rw [if_neg (by omega), hsum]
      rcases Nat.lt_or_ge long.max (valueOf base (digits ++ [c])) with hlast | hmore
      · have hwrap : long.wrap (valueOf base (digits ++ [c]) : ℕ) = -2147483648 := by
          rw [show valueOf base (digits ++ [c]) = 2147483648 by omega]
          rfl
        rw [if_pos (by omega)]
      · rw [IntType.wrap_of_le (by decide) hmore, if_neg (by omega)]
        exact ih (digits ++ [c]) (count + 1) hmore h
    · rw [takeWhile_cons_of_neg (by simpa using hc), append_nil] at h
      omega

/-! ### White space and sign -/

theorem IsDigit.ne_sign (h : IsDigit base c) : c ≠ 45 ∧ c ≠ 43 := by
  obtain ⟨d, hd, -⟩ := h
  constructor
  · rintro rfl
    cases hd
  · rintro rfl
    cases hd

theorem Numeral.exists_cons (h : Numeral base number value) :
    ∃ b c rest, number = c :: rest ∧ IsDigit b c := by
  have hdig : ∀ {b : ℕ} {text : List UInt8}, Digits b text →
      ∃ b c rest, text = c :: rest ∧ IsDigit b c := by
    rintro b (_ | ⟨c, rest⟩) ⟨hne, hall⟩
    · exact absurd rfl hne
    · exact ⟨b, c, rest, rfl, hall c mem_cons_self⟩
  cases h with
  | digits _ h | octal _ h | decimal _ h => exact hdig h
  | hex _ _ h => exact ⟨16, 48, _, rfl, by decide⟩

theorem splitSign_append {sign : List UInt8} (h : Sign sign negative) {b : ℕ} (hc : IsDigit b c)
    (rest : List UInt8) :
    splitSign (sign ++ c :: rest) = (negative, c :: rest) := by
  obtain ⟨hminus, hplus⟩ := hc.ne_sign
  cases h with
  | none =>
    unfold splitSign
    split
    · exact absurd (List.cons.inj ‹_›).1 hminus
    · exact absurd (List.cons.inj ‹_›).1 hplus
    · rfl
  | plus | minus => rfl

theorem splitSign_spec (str : List UInt8) :
    ∃ sign, Sign sign (splitSign str).1 ∧ str = sign ++ (splitSign str).2 := by
  unfold splitSign
  split
  · exact ⟨[45], .minus, rfl⟩
  · exact ⟨[43], .plus, rfl⟩
  · exact ⟨[], .none, rfl⟩

/-- The number of a subject sequence stands behind white space and sign. -/
theorem Subject.exists_number (h : Subject base text negative value) (hstr : text <+: str) :
    negative = (splitSign (str.dropWhile isSpace)).1 ∧
      ∃ number, Numeral base number value ∧ number <+: afterSign str ∧
        str.drop text.length = (afterSign str).drop number.length ∧
        text.length + (afterSign str).length = number.length + str.length := by
  obtain ⟨blanks, sign, number, rfl, hblanks, hsign, hnum⟩ := h
  obtain ⟨t, rfl⟩ := hstr
  obtain ⟨b, c, rest, rfl, hc⟩ := hnum.exists_cons
  have hdrop : (blanks ++ (sign ++ c :: rest) ++ t).dropWhile isSpace =
      sign ++ c :: (rest ++ t) := by
    rw [append_assoc, dropWhile_append_of_pos hblanks]
    cases hsign with
    | none => exact dropWhile_cons_of_neg (by simp [hc.not_isSpace])
    | plus | minus => rfl
  have hsplit := splitSign_append hsign hc (rest ++ t)
  have hafter : afterSign (blanks ++ (sign ++ c :: rest) ++ t) = c :: rest ++ t := by
    rw [afterSign, hdrop, hsplit]
    rfl
  rw [hdrop, hsplit, hafter]
  refine ⟨rfl, c :: rest, hnum, prefix_append _ _, ?_, ?_⟩
  · rw [drop_left, drop_left]
  · simp only [length_append]
    omega

/-- A number behind white space and sign makes a subject sequence. -/
theorem Numeral.subject (h : Numeral base number value) (hstr : number <+: afterSign str) :
    ∃ text, Subject base text (splitSign (str.dropWhile isSpace)).1 value ∧ text <+: str ∧
      text.length + (afterSign str).length = number.length + str.length := by
  obtain ⟨sign, hsign, heq⟩ := splitSign_spec (str.dropWhile isSpace)
  obtain ⟨t, ht⟩ := hstr
  have hstr : str = str.takeWhile isSpace ++ (sign ++ (number ++ t)) := by
    rw [ht, afterSign, ← heq, takeWhile_append_dropWhile]
  refine ⟨str.takeWhile isSpace ++ (sign ++ number), ?_, ⟨t, ?_⟩, ?_⟩
  · exact ⟨_, _, _, rfl, all_eq_true.1 all_takeWhile, hsign, h⟩
  · conv_rhs => rw [hstr]
    simp only [append_assoc]
  · have hlen := congrArg List.length hstr
    have hlen' := congrArg List.length ht
    simp only [length_append] at hlen hlen' ⊢
    omega

/-- A number that is the longest one at the start of a text. -/
structure LongestNumeral (base : ℕ) (str number : List UInt8) (value : ℕ) : Prop where
  numeral : Numeral base number value
  isPrefix : number <+: str
  longest : ∀ number' value', Numeral base number' value' → number' <+: str →
    number'.length ≤ number.length

/-- **The longest subject sequence ends with the longest number.** -/
theorem LongestSubject.exists_number (h : LongestSubject base str text negative value) :
    negative = (splitSign (str.dropWhile isSpace)).1 ∧
      ∃ number, LongestNumeral base (afterSign str) number value ∧
        str.drop text.length = (afterSign str).drop number.length := by
  obtain ⟨hsign, number, hnumeral, hpre, hdrop, hlen⟩ := h.subject.exists_number h.isPrefix
  refine ⟨hsign, number, ⟨hnumeral, hpre, ?_⟩, hdrop⟩
  intro number' value' hnumeral' hpre'
  obtain ⟨text', hsubject', htext', hlen'⟩ := hnumeral'.subject hpre'
  have hle := h.longest text' _ value' hsubject' htext'
  omega

/-! ### Numbers -/

/-- Digits at the start of a text are among all the digits there. -/
theorem Digits.prefix_takeWhile (h : Digits base text) (hstr : text <+: str) :
    text <+: str.takeWhile (IsDigit base ·) := by
  obtain ⟨t, rfl⟩ := hstr
  rw [takeWhile_append_of_pos (by simpa using h.2)]
  exact prefix_append _ _

theorem digits_takeWhile (h : str.takeWhile (IsDigit base ·) ≠ []) :
    Digits base (str.takeWhile (IsDigit base ·)) := by
  refine ⟨h, fun c hc => ?_⟩
  simpa using all_eq_true.1 all_takeWhile c hc

/-- The base of a number without prefix. -/
def baseOf (base : ℕ) (str : List UInt8) : ℕ :=
  if base = 0 then if str.head? = some 48 then 8 else 10 else base

theorem head?_eq (hstr : text <+: str) (hne : text ≠ []) : text.head? = str.head? := by
  obtain ⟨t, rfl⟩ := hstr
  rw [head?_append_of_ne_nil _ hne]

theorem Digits.numeral (h : Digits (baseOf base str) text) (hstr : text <+: str) :
    Numeral base text (valueOf (baseOf base str) text) := by
  have hhead := head?_eq hstr h.1
  unfold baseOf at h ⊢
  split_ifs at h ⊢ with hbase hzero
  · subst hbase
    exact .octal (hhead.trans hzero) h
  · subst hbase
    exact .decimal (by rw [hhead]; exact hzero) h
  · exact .digits hbase h

/-- Without the prefix, a number consists of digits in the base. -/
theorem Numeral.digits_of_not_hex (h : Numeral base number value) (hstr : number <+: str)
    (hhex : ¬ HasHexPrefix base str) :
    Digits (baseOf base str) number ∧ value = valueOf (baseOf base str) number := by
  unfold baseOf
  cases h with
  | digits hbase h =>
    rw [if_neg hbase]
    exact ⟨h, rfl⟩
  | hex hbase hx h =>
    obtain ⟨t, rfl⟩ := hstr
    exact absurd ⟨hbase, _, _, rfl, hx⟩ hhex
  | octal hzero h =>
    rw [if_pos rfl, if_pos ((head?_eq hstr h.1).symm.trans hzero)]
    exact ⟨h, rfl⟩
  | decimal hzero h =>
    rw [if_pos rfl, if_neg (by rw [← head?_eq hstr h.1]; exact hzero)]
    exact ⟨h, rfl⟩

/-- Without the prefix, all the digits in the base are the number. -/
theorem LongestNumeral.eq_digits (h : LongestNumeral base str number value)
    (hhex : ¬ HasHexPrefix base str) :
    number = str.takeWhile (IsDigit (baseOf base str) ·) ∧
      value = valueOf (baseOf base str) number := by
  obtain ⟨hdig, hval⟩ := h.numeral.digits_of_not_hex h.isPrefix hhex
  refine ⟨?_, hval⟩
  have hpre := hdig.prefix_takeWhile h.isPrefix
  have hall : Digits (baseOf base str) (str.takeWhile (IsDigit (baseOf base str) ·)) :=
    digits_takeWhile fun hnil => hdig.1 (prefix_nil.1 (hnil ▸ hpre))
  have hle := h.longest _ _ (hall.numeral (List.takeWhile_prefix _)) (List.takeWhile_prefix _)
  exact hpre.eq_of_length (le_antisymm hpre.length_le hle)

theorem not_isDigit_of_letter (hbase : base ≤ 16) (hx : x = 120 ∨ x = 88) : ¬ IsDigit base x := by
  rintro ⟨d, hd, hlt⟩
  rcases hx with rfl | rfl
  · rw [show digitOf 120 = some 33 by decide] at hd
    cases hd
    omega
  · rw [show digitOf 88 = some 33 by decide] at hd
    cases hd
    omega

theorem Digits.length_le_one (h : Digits base text) (hbase : base ≤ 16) (hx : x = 120 ∨ x = 88)
    {rest : List UInt8} (hstr : text <+: 48 :: x :: rest) : text.length ≤ 1 := by
  obtain ⟨t, ht⟩ := hstr
  match text, h, ht with
  | [], _, _ | [_], _, _ => simp
  | c :: y :: more, h, ht =>
    have hy : y = x := by
      simp only [cons_append, List.cons.injEq] at ht
      exact ht.2.1
    exact absurd (hy ▸ h.2 y (by simp)) (not_isDigit_of_letter hbase hx)

/-- With the prefix and a digit behind it, the hexadecimal digits are the number. -/
theorem LongestNumeral.eq_hex (h : LongestNumeral base (48 :: x :: rest) number value)
    (hbase : base = 0 ∨ base = 16) (hx : x = 120 ∨ x = 88)
    (hdigit : rest.takeWhile (IsDigit 16 ·) ≠ []) :
    number = 48 :: x :: rest.takeWhile (IsDigit 16 ·) ∧
      value = valueOf 16 (rest.takeWhile (IsDigit 16 ·)) := by
  have hpre : 48 :: x :: rest.takeWhile (IsDigit 16 ·) <+: 48 :: x :: rest := by
    simpa using takeWhile_prefix _
  have hle := h.longest _ _ (.hex hbase hx (digits_takeWhile hdigit)) hpre
  -- a number that is that long goes over the letter
  have hletter : ∀ {b : ℕ}, b ≤ 16 → Digits b number → False := by
    intro b hb hdig
    have hshort := hdig.length_le_one hb hx h.isPrefix
    simp only [length_cons] at hle
    omega
  obtain ⟨hnumeral, hstr, -⟩ := h
  cases hnumeral with
  | digits hne hdig => exact absurd hdig (hletter (by omega))
  | octal _ hdig | decimal _ hdig => exact absurd hdig (hletter (by decide))
  | @hex _ y text _ _ hdig =>
    obtain ⟨t, ht⟩ := hstr
    simp only [cons_append] at ht
    obtain ⟨rfl, rfl⟩ := ht
    have htext := hdig.prefix_takeWhile (prefix_append text t)
    simp only [length_cons] at hle
    have heq := htext.eq_of_length (le_antisymm htext.length_le (by omega))
    rw [← heq]
    exact ⟨rfl, rfl⟩

/-! ### The functions on such texts -/

theorem chooseBase_eq (base : ℕ) (str : List UInt8) : chooseBase base str = baseOf base str := by
  unfold chooseBase baseOf
  simp only [Int.natCast_eq_zero]
  split_ifs <;> rfl

/-- The bases that the functions accept, other than 1. -/
def ValidBase (base : ℕ) : Prop := base = 0 ∨ 2 ≤ base ∧ base ≤ 36

theorem ValidBase.baseOf_mem (h : ValidBase base) (str : List UInt8) :
    1 ≤ baseOf base str ∧ baseOf base str ≤ 36 := by
  unfold ValidBase at h
  unfold baseOf
  split_ifs <;> omega

theorem strToInt_natCast (ty : IntType) (base : ℕ) (str : List UInt8) {b : ℤ}
    (hsplit : splitPrefix base (afterSign str) = (b, rest)) (h₁ : 1 ≤ chooseBase b rest)
    (h₂ : chooseBase b rest ≤ 36) :
    strToInt ty str base = outcome ty str (splitSign (str.dropWhile isSpace)).1
      (digitLoop ty (chooseBase b rest) rest 0 0) := by
  have hbase : ¬ (base : ℤ) < 0 := by omega
  have hbody : strToInt ty str base =
      (fun p : ℤ × List UInt8 =>
        if 1 ≤ chooseBase p.1 p.2 ∧ chooseBase p.1 p.2 ≤ 36 then
          outcome ty str (splitSign (str.dropWhile isSpace)).1
            (digitLoop ty (chooseBase p.1 p.2) p.2 0 0)
        else { value := 0, rest := str }) (splitPrefix base (afterSign str)) := if_neg hbase
  rw [hbody, hsplit]
  exact if_pos ⟨h₁, h₂⟩

theorem strToInt_of_not_hex (ty : IntType) (hbase : ValidBase base) (str : List UInt8)
    (hhex : ¬ HasHexPrefix base (afterSign str)) :
    strToInt ty str base = outcome ty str (splitSign (str.dropWhile isSpace)).1
      (digitLoop ty (baseOf base (afterSign str)) (afterSign str) 0 0) := by
  have hmem := hbase.baseOf_mem (afterSign str)
  have hsplit : splitPrefix base (afterSign str) = ((base : ℤ), afterSign str) := by
    unfold splitPrefix
    split
    · rename_i x rest heq
      rw [if_neg]
      rintro ⟨hbase', hx⟩
      exact hhex ⟨by omega, x, rest, heq, hx⟩
    · rfl
  have hchoose := chooseBase_eq base (afterSign str)
  rw [strToInt_natCast ty base str hsplit (by omega) (by omega), hchoose]

theorem strToInt_of_hex (ty : IntType) (hbase : base = 0 ∨ base = 16) (hx : x = 120 ∨ x = 88)
    (hstr : afterSign str = 48 :: x :: rest) :
    strToInt ty str base = outcome ty str (splitSign (str.dropWhile isSpace)).1
      (digitLoop ty (16 : ℕ) rest 0 0) := by
  have hsplit : splitPrefix base (afterSign str) = (16, rest) := by
    rw [hstr]
    exact if_pos ⟨by omega, hx⟩
  have hchoose : chooseBase 16 rest = (16 : ℕ) := rfl
  rw [strToInt_natCast ty base str hsplit (by omega) (by omega), hchoose]

theorem outcome_digitLoop (hbits : 1 ≤ ty.bits) (hbase : 1 ≤ base) (hbase' : base ≤ 36)
    (text str : List UInt8) (negative : Bool) (hne : str.takeWhile (IsDigit base ·) ≠ [])
    (hmax : valueOf base (str.takeWhile (IsDigit base ·)) ≤ ty.max) :
    outcome ty text negative (digitLoop ty base str 0 0) =
      { value := ty.wrap (if negative then -(valueOf base (str.takeWhile (IsDigit base ·)) : ℤ)
          else valueOf base (str.takeWhile (IsDigit base ·)))
        rest := str.dropWhile (IsDigit base ·) } := by
  have hloop := digitLoop_eq hbits hbase hbase' str [] 0 (by simpa using hmax)
  have hzero : valueOf base [] = 0 := rfl
  rw [hzero] at hloop
  rw [show (0 : ℤ) = ((0 : ℕ) : ℤ) from rfl, hloop]
  simp [outcome, hne]

theorem outcome_no_digits (hbase : base ≤ 36) (text : List UInt8) (negative : Bool)
    (h : ∀ c ∈ str.head?, ¬ IsDigit base c) :
    outcome ty text negative (digitLoop ty base str 0 0) = { value := 0, rest := text } := by
  cases str with
  | nil => rfl
  | cons c str =>
    rw [digitLoop_stop hbase (h c rfl)]
    rfl

/-- The outcome that an integer in the range of the type should have. -/
def expected (ty : IntType) (str text : List UInt8) (negative : Bool) (value : ℕ) : Outcome :=
  { value := ty.wrap (if negative then -(value : ℤ) else value), rest := str.drop text.length }

theorem LongestSubject.drop_ne (h : LongestSubject base str text negative value) :
    str.drop text.length ≠ str := by
  obtain ⟨blanks, sign, number, rfl, -, -, hnum⟩ := h.subject
  obtain ⟨b, c, rest, rfl, -⟩ := hnum.exists_cons
  intro heq
  have hlen := congrArg List.length heq
  have hle := h.isPrefix.length_le
  simp only [length_drop, length_append, length_cons] at hlen hle
  omega

theorem drop_length_takeWhile (p : UInt8 → Bool) (str : List UInt8) :
    str.drop (str.takeWhile p).length = str.dropWhile p := by
  have hsplit := takeWhile_append_dropWhile (p := p) (l := str)
  exact (congrArg (List.drop _) hsplit.symm).trans drop_left

theorem strToInt_digits (hbits : 1 ≤ ty.bits) (hbase : ValidBase base)
    (h : LongestNumeral base (afterSign str) number value) (hmax : value ≤ ty.max)
    (hhex : ¬ HasHexPrefix base (afterSign str)) :
    strToInt ty str base =
      { value := ty.wrap (if (splitSign (str.dropWhile isSpace)).1 then -(value : ℤ) else value)
        rest := (afterSign str).drop number.length } := by
  have hmem := hbase.baseOf_mem (afterSign str)
  obtain ⟨b, c, rest, hcons, -⟩ := h.numeral.exists_cons
  obtain ⟨hnum, hval⟩ := h.eq_digits hhex
  rw [hnum] at hval
  rw [strToInt_of_not_hex ty hbase str hhex, outcome_digitLoop hbits hmem.1 hmem.2, ← hval,
    hnum, drop_length_takeWhile]
  · rw [← hnum, hcons]
    exact cons_ne_nil _ _
  · rw [← hval]
    exact hmax

theorem strToInt_hex (hbits : 1 ≤ ty.bits) (hbase : base = 0 ∨ base = 16)
    (h : LongestNumeral base (afterSign str) number value) (hmax : value ≤ ty.max)
    (hx : x = 120 ∨ x = 88) (hstr : afterSign str = 48 :: x :: rest)
    (hdigit : rest.takeWhile (IsDigit 16 ·) ≠ []) :
    strToInt ty str base =
      { value := ty.wrap (if (splitSign (str.dropWhile isSpace)).1 then -(value : ℤ) else value)
        rest := (afterSign str).drop number.length } := by
  rw [strToInt_of_hex ty hbase hx hstr]
  rw [hstr] at h ⊢
  obtain ⟨hnum, hval⟩ := h.eq_hex hbase hx hdigit
  rw [outcome_digitLoop hbits (by decide) (by decide) _ _ _ hdigit (hval ▸ hmax), ← hval,
    hnum, length_cons, length_cons, drop_succ_cons, drop_succ_cons,
    drop_length_takeWhile]

/-- Without a digit behind the prefix, only the zero is a number. -/
theorem Numeral.length_le_of_bare (h : Numeral base number value)
    (hstr : number <+: 48 :: x :: rest) (hx : x = 120 ∨ x = 88)
    (hbare : base ≤ 16 ∧ ∀ c ∈ rest.head?, ¬ IsDigit 16 c) : number.length ≤ 1 := by
  cases h with
  | digits _ hdig => exact hdig.length_le_one hbare.1 hx hstr
  | octal _ hdig | decimal _ hdig => exact hdig.length_le_one (by decide) hx hstr
  | @hex _ y text _ _ hdig =>
    simp only [cons_prefix_cons] at hstr
    have hhead := head?_eq hstr.2.2 hdig.1
    cases text with
    | nil => exact absurd rfl hdig.1
    | cons c text => exact absurd (hdig.2 c (by simp)) (hbare.2 c hhead.symm)

/-- Characters that are digits at the start of a text are taken. -/
theorem takeWhile_ne_nil (h : ¬ ∀ c ∈ str.head?, ¬ IsDigit base c) :
    str.takeWhile (IsDigit base ·) ≠ [] := by
  cases str with
  | nil => exact absurd (by simp) h
  | cons c str =>
    have hc : IsDigit base c := by simpa using h
    rw [takeWhile_cons_of_pos (by simpa using hc)]
    exact cons_ne_nil _ _

theorem strToInt_eq_expected_iff (hbits : 1 ≤ ty.bits) (hbase : ValidBase base)
    (h : LongestSubject base str text negative value) (hmax : value ≤ ty.max) :
    strToInt ty str base = expected ty str text negative value ↔ ¬ BarePrefix base str := by
  have hdrop_ne := h.drop_ne
  obtain ⟨rfl, number, hnum, hdrop⟩ := h.exists_number
  unfold expected BarePrefix
  rw [hdrop] at hdrop_ne ⊢
  by_cases hhex : HasHexPrefix base (afterSign str)
  · obtain ⟨hbase', x, rest, hstr, hx⟩ := hhex
    by_cases hbare : ∀ c ∈ rest.head?, ¬ IsDigit 16 c
    · -- nothing is read, although the zero should be
      have hnone : strToInt ty str base = { value := 0, rest := str } := by
        rw [strToInt_of_hex ty hbase' hx hstr, outcome_no_digits (by decide) _ _ hbare]
      rw [hnone]
      constructor
      · intro heq
        exact absurd (congrArg Outcome.rest heq).symm hdrop_ne
      · intro hnot
        refine absurd ⟨⟨hbase', x, rest, hstr, hx⟩, ?_⟩ hnot
        rw [hstr]
        exact hbare
    · rw [strToInt_hex hbits hbase' hnum hmax hx hstr (takeWhile_ne_nil hbare)]
      refine iff_of_true rfl ?_
      rintro ⟨-, hnot⟩
      rw [hstr] at hnot
      exact hbare hnot
  · rw [strToInt_digits hbits hbase hnum hmax hhex]
    exact iff_of_true rfl fun hnot => hhex hnot.1

/-! ### Main results -/

theorem intFunctions_eq {f : List UInt8 → ℤ → Outcome} (hf : (ty, f) ∈ intFunctions) :
    f = strToInt ty ∧ 1 ≤ ty.bits := by
  simp only [intFunctions, mem_cons, not_mem_nil, or_false] at hf
  rcases hf with ⟨rfl, rfl⟩ | ⟨rfl, rfl⟩ | ⟨rfl, rfl⟩ | ⟨rfl, rfl⟩ <;> exact ⟨rfl, by decide⟩

/-- **When an integer that the type can hold is read.**  Each of the functions returns the value of
the longest subject sequence, sets `*ptr` to what follows it and leaves `errno` alone, exactly if
there is no prefix `0x` without a digit behind it. -/
theorem strToInt_in_range_iff {ty : IntType} {f : List UInt8 → ℤ → Outcome}
    (hf : (ty, f) ∈ intFunctions) {base : ℕ} (hbase : ValidBase base) {str text : List UInt8}
    {negative : Bool} {value : ℕ} (h : LongestSubject base str text negative value)
    (hmax : value ≤ ty.max) :
    f str base = expected ty str text negative value ↔ ¬ BarePrefix base str := by
  obtain ⟨rfl, hbits⟩ := intFunctions_eq hf
  exact strToInt_eq_expected_iff hbits hbase h hmax

/-- The number `-42` behind a blank, in `strtol`. -/
theorem strToInt_in_range_iff_42 :
    strtol [32, 45, 52, 50] 10 = { value := -42, rest := [] } := by
  have hsubject : Subject 10 [32, 45, 52, 50] true 42 :=
    ⟨[32], [45], [52, 50], rfl, all_eq_true.1 rfl, .minus,
      .digits (by decide) (digits_of_all (by decide) (by decide))⟩
  have hlongest : LongestSubject 10 [32, 45, 52, 50] [32, 45, 52, 50] true 42 :=
    ⟨hsubject, prefix_refl _, fun _ _ _ _ hprefix => hprefix.length_le⟩
  refine (strToInt_in_range_iff (f := strtol) mem_cons_self (.inr ⟨by decide, by decide⟩)
    hlongest (by decide)).2 ?_
  rintro ⟨⟨hbase, -⟩, -⟩
  simp at hbase

/-- In `0xg` the zero is a number in base 16, but nothing is read. -/
theorem strToInt_bare_prefix :
    LongestSubject 16 [48, 120, 103] [48] false 0 ∧
      expected long [48, 120, 103] [48] false 0 = { value := 0, rest := [120, 103] } ∧
      strtol [48, 120, 103] 16 = { value := 0, rest := [48, 120, 103] } := by
  refine ⟨⟨?_, by decide, ?_⟩, by decide, by decide⟩
  · exact ⟨[], [], [48], rfl, all_eq_true.1 rfl, .none,
      .digits (by decide) (digits_of_all (by decide) (by decide))⟩
  · intro text negative value hsubject hprefix
    obtain ⟨-, number, hnumber, hprefix', -, hlength⟩ := hsubject.exists_number hprefix
    have hbare : ∀ c ∈ ((afterSign [48, 120, 103]).drop 2).head?, ¬ IsDigit 16 c := by
      intro c hc
      obtain rfl : 103 = c := Option.some.inj hc
      decide
    have hle := hnumber.length_le_of_bare hprefix' (.inl rfl) ⟨by decide, hbare⟩
    have hafter : (afterSign [48, 120, 103]).length = 3 := by decide
    simp only [length_cons] at hlength ⊢
    omega

/-- The value does not fit into the type. -/
def IntType.Exceeds (ty : IntType) (negative : Bool) (value : ℕ) : Prop :=
  (if ty.signed ∧ negative then ty.max + 1 else ty.max) < value

instance (ty : IntType) (negative : Bool) (value : ℕ) : Decidable (ty.Exceeds negative value) :=
  inferInstanceAs (Decidable (_ < _))

/-- The outcome for a value that does not fit. -/
def saturated (ty : IntType) (str text : List UInt8) (negative : Bool) : Outcome :=
  { value := if ty.signed ∧ negative then -ty.max - 1 else ty.max
    rest := str.drop text.length
    errno := some .ERANGE }

theorem rest_of_errno_outcome {loop : Option (ℤ × ℕ × List UInt8)} {e : Errno}
    (h : (outcome ty str negative loop).errno = some e) :
    (outcome ty str negative loop).rest = str := by
  match loop, h with
  | none, _ => rfl
  | some (sum, count, rest), h =>
    simp only [outcome] at h ⊢
    split_ifs at h

/-- With an error number, `*ptr` is the start of the text. -/
theorem rest_of_errno {base : ℤ} {e : Errno} (h : (strToInt ty str base).errno = some e) :
    (strToInt ty str base).rest = str := by
  unfold strToInt at h ⊢
  by_cases hbase : base < 0
  · rw [if_pos hbase]
  · rw [if_neg hbase] at h ⊢
    dsimp only at h ⊢
    split_ifs at h ⊢
    exact rest_of_errno_outcome h

/-- **An integer that is too large is never reported as it should be.**  Where an overflow is found,
`*ptr` is set to the start of the text. -/
theorem strToInt_out_of_range {ty : IntType} {f : List UInt8 → ℤ → Outcome}
    (hf : (ty, f) ∈ intFunctions) {base : ℕ} {str text : List UInt8} {negative : Bool} {value : ℕ}
    (h : LongestSubject base str text negative value) :
    ty.Exceeds negative value → f str base ≠ saturated ty str text negative := by
  obtain ⟨rfl, -⟩ := intFunctions_eq hf
  intro _ heq
  have hrest := rest_of_errno (congrArg Outcome.errno heq)
  rw [heq] at hrest
  exact h.drop_ne hrest

/-- The number 2147483648 in `strtol`. -/
theorem strToInt_out_of_range_long :
    strtol [50, 49, 52, 55, 52, 56, 51, 54, 52, 56] 10 ≠
      saturated long [50, 49, 52, 55, 52, 56, 51, 54, 52, 56]
        [50, 49, 52, 55, 52, 56, 51, 54, 52, 56] false := by
  have hsubject : Subject 10 [50, 49, 52, 55, 52, 56, 51, 54, 52, 56] false 2147483648 :=
    ⟨[], [], _, rfl, all_eq_true.1 rfl, .none,
      .digits (by decide) (digits_of_all (by decide) (by decide))⟩
  have hlongest : LongestSubject 10 [50, 49, 52, 55, 52, 56, 51, 54, 52, 56]
      [50, 49, 52, 55, 52, 56, 51, 54, 52, 56] false 2147483648 :=
    ⟨hsubject, prefix_refl _, fun _ _ _ _ hprefix => hprefix.length_le⟩
  exact strToInt_out_of_range (f := strtol) mem_cons_self hlongest (by decide)

/-- An overflow that is found, where `*ptr` is not moved; one that is not found, for 5000000000 in
`strtoul`; and a limit of the wrong type, for 18446744073709551616 in `strtoull`. -/
theorem strToInt_overflows :
    strtol [50, 49, 52, 55, 52, 56, 51, 54, 52, 56] 10 =
        { value := 2147483647, rest := [50, 49, 52, 55, 52, 56, 51, 54, 52, 56],
          errno := some .ERANGE } ∧
      strtoul [53, 48, 48, 48, 48, 48, 48, 48, 48, 48] 10 = { value := 705032704, rest := [] } ∧
      (strtoull [49, 56, 52, 52, 54, 55, 52, 52, 48, 55, 51, 55, 48, 57, 53, 53, 49, 54, 49, 54]
        10).value = 4294967295 := by
  decide +kernel

end Clib4.Stdlib
