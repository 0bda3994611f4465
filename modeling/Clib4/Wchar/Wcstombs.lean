import Clib4.Wchar.Restart

/-!
# Wide strings as bytes

`_wcstombs_r` encodes one wide character after the other, and copies of each as many bytes as there
is room for.

## Main definitions

* `wholeChars` — the characters whose bytes fit.

## Main results

* `stores_whole_iff` — **when only whole characters are stored.**
-/

namespace Clib4.Wchar

open List

/-- `_wctomb_r` in the locale C-UTF-8, which has the same branches as `wcrtomb`. -/
def wctombR (wchar : ℤ) : Option (List UInt8) := wcrtomb wchar

/-- The loop of `_wcstombs_r`: what is stored in all, and the result.  There is none for a character
that cannot be encoded, or behind the end of the string. -/
def wcstombsR (max : ℕ) : List ℤ → ℕ → List UInt8 → Option (List UInt8 × ℕ)
  | _, 0, out => some (out, max)
  | [], _ + 1, _ => none
  | w :: pwcs, n + 1, out => do
    let buff ← wctombR w
    let out := out ++ buff.take (n + 1)
    if w = 0 then return (out, out.length - if buff.length ≤ n + 1 then 1 else 0)
    wcstombsR max pwcs (n + 1 - min buff.length (n + 1)) out

/-- `wcstombs` for a string of characters. -/
def wcstombs (cps : List CodePoint) (n : ℕ) : Option (List UInt8 × ℕ) :=
  wcstombsR n (cps.map (fun p => (p.val : ℤ)) ++ [0]) n []

/-- The longest part of a text, from its first character on, whose bytes fit. -/
def wholeChars : ℕ → List CodePoint → List CodePoint
  | _, [] => []
  | n, p :: cps =>
    if p.encode.length ≤ n then p :: wholeChars (n - p.encode.length) cps else []

/-- The bytes of the characters that fit are stored, and a zero if the text ends and it fits. -/
def StoresWhole (cps : List CodePoint) (n : ℕ) : Prop :=
  wcstombs cps n = some (bytes (wholeChars n cps) ++ (if (bytes cps).length < n then [0] else []),
    (bytes (wholeChars n cps)).length)

theorem wctombR_codePoint (p : CodePoint) : wctombR p.val = some p.encode := by
  have hpos := p.encode_length_pos
  unfold CodePoint.encode at hpos ⊢
  unfold wctombR
  cases hsome : wcrtomb p.val with
  | none =>
    rw [hsome] at hpos
    cases hpos
  | some e => rfl

theorem wcstombsR_eq (cps : List CodePoint) (n : ℕ) (out : List UInt8) :
    wcstombsR (out.length + n) (cps.map (fun p => (p.val : ℤ)) ++ [0]) n out =
      some (out ++ (bytes cps ++ [0]).take n, out.length + min n (bytes cps).length) := by
  induction cps generalizing n out with
  | nil =>
    cases n with
    | zero => simp [wcstombsR]
    | succ n =>
      have hzero : wctombR 0 = some [0] := rfl
      simp [wcstombsR, hzero, bytes]
  | cons p cps ih =>
    cases n with
    | zero => simp [wcstombsR]
    | succ n =>
      have hne : (p.val : ℤ) ≠ 0 := by
        have := p.pos
        omega
      have hroom : n + 1 - min p.encode.length (n + 1) = n + 1 - p.encode.length := by omega
      have hmax : out.length + (n + 1) =
          (out ++ p.encode.take (n + 1)).length + (n + 1 - p.encode.length) := by
        rw [length_append, length_take]
        omega
      have htake : (bytes (p :: cps) ++ [0]).take (n + 1) =
          p.encode.take (n + 1) ++ (bytes cps ++ [0]).take (n + 1 - p.encode.length) := by
        rw [bytes_cons, append_assoc, take_append]
      rw [map_cons, cons_append, wcstombsR, wctombR_codePoint]
      show (if (p.val : ℤ) = 0 then _ else wcstombsR _ _ _ _) = _
      rw [if_neg hne, hroom, hmax, ih, htake, append_assoc, bytes_cons]
      refine congrArg some (Prod.ext rfl ?_)
      simp only [length_append, length_take]
      omega

/-- The bytes of the characters that fit begin the text, and fill the room unless it ends in the
inside of a character. -/
theorem bytes_wholeChars (n : ℕ) (cps : List CodePoint) :
    bytes (wholeChars n cps) <+: bytes cps ∧
      ((bytes (wholeChars n cps)).length = min n (bytes cps).length ↔ ¬ InsideAt cps n) := by
  induction cps generalizing n with
  | nil => simp [wholeChars, bytes, InsideAt]
  | cons p cps ih =>
    unfold wholeChars InsideAt
    split_ifs with hfits
    · obtain ⟨hbegin, hlen⟩ := ih (n - p.encode.length)
      rw [bytes_cons, bytes_cons, length_append, length_append]
      refine ⟨(prefix_append_right_inj _).2 hbegin, ?_⟩
      rw [or_iff_right (by omega), and_iff_right hfits, ← hlen]
      omega
    · refine ⟨⟨bytes (p :: cps), rfl⟩, ?_⟩
      rw [bytes_cons, length_append]
      show 0 = _ ↔ _
      omega

/-- **When only whole characters are stored**: if the room does not end in the inside of one. -/
theorem stores_whole_iff (cps : List CodePoint) (n : ℕ) :
    StoresWhole cps n ↔ ¬ InsideAt cps n := by
  obtain ⟨hbegin, hlength⟩ := bytes_wholeChars n cps
  have heq := wcstombsR_eq cps n []
  rw [length_nil, Nat.zero_add, Nat.zero_add, nil_append] at heq
  rw [StoresWhole, wcstombs, heq, Option.some.injEq, Prod.mk.injEq, ← hlength,
    eq_comm (b := min ..)]
  refine and_iff_right_of_imp fun hmin => ?_
  obtain ⟨rest, hrest⟩ := hbegin
  split_ifs with hroom
  · have hnil : rest = [] := by
      rw [← length_eq_zero_iff]
      have := congrArg length hrest
      rw [length_append] at this
      omega
    rw [take_of_length_le (by simp; omega), ← hrest, hnil, append_nil]
  · rw [take_append_of_le_length (by omega), append_nil, ← hrest,
      take_append_of_le_length (by omega), take_of_length_le (by omega)]

/-- The Euro sign has three bytes, and two of them are stored. -/
theorem stores_whole_euro :
    wcstombs [euro] 2 = some ([0xe2, 0x82], 2) ∧ ¬ StoresWhole [euro] 2 := by
  refine ⟨by decide +kernel, ?_⟩
  unfold StoresWhole
  decide +kernel

end Clib4.Wchar
