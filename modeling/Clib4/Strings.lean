import Mathlib.Tactic

/-!
# Searching and comparing strings

`strnstr` looks for a string in the first bytes of another one; `strxfrm` copies a string, so that
`strcmp` compares the copies as `strcoll` compares the strings.

## Main definitions

* `strnstr`, `strxfrm`, `strcmp`, `strcoll` — the functions.
* `FirstOccurrence`, `StrnstrRight`, `StrxfrmRight` — what they should do.

## Main results

* `strnstr_right_iff` — **when `strnstr` stays inside its limit and finds what it should.**
* `strxfrm_right_iff` — **when `strxfrm` stays inside its buffer.**
-/

namespace Clib4

open List

/-- The characters of a string, in front of its terminator. -/
structure Chars where
  bytes : List UInt8
  nonzero : 0 ∉ bytes

/-! ### `strnstr` -/

/-- What `strnstr` may read: the string with its terminator, up to the limit. -/
def readable (src : Chars) (len : ℕ) : List UInt8 := (src.bytes ++ [0]).take len

/-- The inner loop, with what may be read from `src[i]` on; it has no value behind the end. -/
def matchLoop : List UInt8 → List UInt8 → Option Bool
  | [], _ => some true
  | _ :: _, [] => none
  | c :: sub, d :: src => if c ≠ d then some false else matchLoop sub src

/-- The outer loop, with the number of places that are left. -/
def searchLoop (src sub : List UInt8) : ℕ → ℕ → Option (Option ℕ)
  | 0, _ => some none
  | n + 1, p => do
    if ← matchLoop sub (src.drop p) then return some p
    searchLoop src sub n (p + 1)

/-- `strnstr`, for a string at the address `addr`: the place in it, or `none` for `NULL`.  The end
of the search is an address of 32 bits. -/
def strnstr (addr : UInt32) (src sub : Chars) (len : UInt32) : Option (Option ℕ) := do
  let max := addr + len
  let c ← (readable src len.toNat).head?
  if c = 0 then return if sub.bytes = [] then some 0 else none
  searchLoop (readable src len.toNat) sub.bytes (max.toNat - addr.toNat) 0

/-- The first place at which `sub` stands in `text`, if there is one. -/
def FirstOccurrence (text sub : List UInt8) : Option ℕ → Prop
  | some p => sub <+: text.drop p ∧ ∀ q < p, ¬ sub <+: text.drop q
  | none => ∀ q, ¬ sub <+: text.drop q

/-- Nothing is read that may not be read, and the first occurrence inside the limit is found. -/
def StrnstrRight (addr : UInt32) (src sub : Chars) (len : UInt32) : Prop :=
  ∃ r, strnstr addr src sub len = some r ∧ FirstOccurrence (src.bytes.take len.toNat) sub.bytes r

theorem matchLoop_eq (sub src : List UInt8) :
    matchLoop sub src =
      if sub <+: src then some true else if src <+: sub then none else some false := by
  fun_induction matchLoop sub src with
  | case1 | case2 => simp
  | case3 c sub d src hne => simp [hne, hne.symm]
  | case4 c sub d src heq ih => simpa [not_not.1 heq] using ih

/-- The search is right, unless it comes to a place from which on the text goes on like `sub` to
its end. -/
theorem searchLoop_right_iff {src sub : List UInt8} (n p : ℕ)
    (hfront : ∀ q < p, ¬ sub <+: src.drop q) (hback : ∀ q, p + n ≤ q → ¬ sub <+: src.drop q) :
    (∃ r, searchLoop src sub n p = some r ∧ FirstOccurrence src sub r) ↔
      ∀ q < p + n, p ≤ q → src.drop q <+: sub → ∃ k ≤ q, sub <+: src.drop k := by
  induction n generalizing p with
  | zero =>
    refine iff_of_true ⟨none, rfl, fun q => ?_⟩ fun q hq hle => by omega
    exact (Nat.lt_or_ge q p).elim (hfront q) (hback q)
  | succ n ih =>
    rw [searchLoop, matchLoop_eq]
    split_ifs with hsub hend
    · exact iff_of_true ⟨some p, rfl, hsub, hfront⟩ fun q _ hle _ => ⟨p, hle, hsub⟩
    all_goals
      have hfront' : ∀ q ≤ p, ¬ sub <+: src.drop q := fun q hq =>
        hq.lt_or_eq.elim (hfront q) fun heq => heq ▸ hsub
    · -- the search leaves what may be read
      refine iff_of_false (by simp) fun hall => ?_
      obtain ⟨k, hk, hsub'⟩ := hall p (by omega) le_rfl hend
      exact hfront' k hk hsub'
    · refine (ih (p + 1) (fun q hq => hfront' q (by omega)) fun q hq => hback q (by omega)).trans ?_
      refine forall_congr' fun q => ?_
      constructor
      · intro hall hq hle hend'
        rcases hle.lt_or_eq with hlt | rfl
        · exact hall (by omega) hlt hend'
        · exact absurd hend' hend
      · intro hall hq hle hend'
        exact hall (by omega) (by omega) hend'

/-- A string does not reach into the terminator of another one. -/
theorem prefix_drop_readable_iff (src sub : Chars) (len q : ℕ) :
    sub.bytes <+: (readable src len).drop q ↔ sub.bytes <+: (src.bytes.take len).drop q := by
  rw [readable, take_append, drop_append]
  have hback : ∀ m n, ([(0 : UInt8)].take m).drop n = [] ∨ ([(0 : UInt8)].take m).drop n = [0] :=
    fun m n => sublist_singleton.1 ((drop_sublist n _).trans (take_sublist m _))
  rcases hback (len - src.bytes.length) (q - (src.bytes.take len).length) with hnil | hzero
  · rw [hnil, append_nil]
  · rw [hzero, prefix_concat_iff, or_iff_right]
    intro heq
    exact sub.nonzero (heq ▸ mem_append_right _ (mem_singleton_self 0))

/-- The number of places that are looked at: all of them, or none if the end lies beyond the
addresses. -/
theorem toNat_add_sub_self (addr len : UInt32) : (addr + len).toNat - addr.toNat =
    if addr.toNat + len.toNat < 2 ^ 32 then len.toNat else 0 := by
  have := len.toNat_lt
  have := addr.toNat_lt
  rw [UInt32.toNat_add]
  split_ifs <;> omega

/-- **When `strnstr` is right**: there is something it may read, and no place in front of the first
occurrence from which on the readable part goes on like `sub` to its end; or the limit lies beyond
the addresses, and `sub` does not occur. -/
theorem strnstr_right_iff (addr : UInt32) (src sub : Chars) (len : UInt32) :
    StrnstrRight addr src sub len ↔ 0 < len.toNat ∧ (src.bytes = [] ∨
      if addr.toNat + len.toNat < 2 ^ 32 then
        ∀ p < len.toNat, (readable src len.toNat).drop p <+: sub.bytes →
          ∃ q ≤ p, sub.bytes <+: (readable src len.toNat).drop q
      else ∀ q, ¬ sub.bytes <+: (readable src len.toNat).drop q) := by
  have hsame : ∀ r, FirstOccurrence (src.bytes.take len.toNat) sub.bytes r ↔
      FirstOccurrence (readable src len.toNat) sub.bytes r := by
    intro r
    cases r <;> simp only [FirstOccurrence, prefix_drop_readable_iff]
  simp only [StrnstrRight, strnstr, toNat_add_sub_self, hsame]
  generalize len.toNat = n
  cases n with
  | zero => simp [readable]
  | succ n =>
    rw [and_iff_right (Nat.succ_pos n)]
    cases hsrc : src.bytes with
    | nil =>
      refine iff_of_true ⟨if sub.bytes = [] then some 0 else none, ?_, ?_⟩ (.inl rfl)
      · simp [readable, hsrc]
      · split_ifs with hsub <;> simp [FirstOccurrence, prefix_drop_readable_iff, hsrc, hsub]
    | cons c rest =>
      have hc : c ≠ 0 := fun h0 => src.nonzero (by simp [hsrc, h0])
      have hhead : (readable src (n + 1)).head? = some c := by simp [readable, hsrc]
      rw [or_iff_right (cons_ne_nil c rest), hhead]
      simp only [Option.bind_eq_bind, Option.bind_some, if_neg hc]
      split_ifs
      · by_cases hsub : sub.bytes = []
        · refine iff_of_true ⟨some 0, ?_, ?_⟩ fun p _ _ => ⟨0, Nat.zero_le p, ?_⟩
          · simp [searchLoop, hsub, matchLoop]
          · simp [FirstOccurrence, hsub]
          · simp [hsub]
        · have hback : ∀ q, 0 + (n + 1) ≤ q → ¬ sub.bytes <+: (readable src (n + 1)).drop q := by
            intro q hq
            rw [drop_eq_nil_of_le (by rw [readable, length_take]; omega), prefix_nil]
            exact hsub
          rw [searchLoop_right_iff (n + 1) 0 (by simp) hback]
          simp
      · simp [searchLoop, FirstOccurrence]

/-- Inside the limit of two bytes `abc` has no `bc`, but the search goes on to the third one. -/
theorem strnstr_behind_limit :
    ¬ StrnstrRight 4096 ⟨[97, 98, 99], by decide⟩ ⟨[98, 99], by decide⟩ 2 := by
  rintro ⟨r, hr, -⟩
  have hnone : strnstr 4096 ⟨[97, 98, 99], by decide⟩ ⟨[98, 99], by decide⟩ 2 = none := by decide
  rw [hnone] at hr
  cases hr

/-! ### `strxfrm` -/

/-- `strcmp`; behind the last character stands the terminator. -/
def strcmp : List UInt8 → List UInt8 → ℤ
  | [], [] => 0
  | [], d :: _ => 0 - d.toNat
  | c :: _, [] => c.toNat - 0
  | c :: s1, d :: s2 => if c = d then strcmp s1 s2 else c.toNat - d.toNat

/-- `strcoll`, without a locale. -/
def strcoll (s1 s2 : List UInt8) : ℤ := strcmp s1 s2

/-- The loop of `strxfrm`, with what has been stored. -/
def strxfrmLoop : List UInt8 → ℕ → List UInt8 → ℕ → List UInt8 × ℕ
  | [], _, dest, result => (dest ++ [0], result)
  | c :: src, len, dest, result =>
    if 0 < len then strxfrmLoop src (len - 1) (dest ++ [c]) (result + 1)
    else strxfrmLoop src len dest (result + 1)

/-- `strxfrm`, without a locale: the bytes that are stored, and the result. -/
def strxfrm (src : Chars) (len : ℕ) : List UInt8 × ℕ :=
  if 0 < len then strxfrmLoop src.bytes len [] 0 else ([], src.bytes.length)

/-- The string that has been stored. -/
def stored (src : Chars) (len : ℕ) : List UInt8 := (strxfrm src len).1.takeWhile (· ≠ 0)

/-- Not more than `len` bytes are stored, the result is the length, and transforms that fit compare
as the strings do. -/
def StrxfrmRight (src : Chars) (len : ℕ) : Prop :=
  (strxfrm src len).1.length ≤ len ∧ (strxfrm src len).2 = src.bytes.length ∧
    ∀ src' len', (strxfrm src len).2 < len → (strxfrm src' len').2 < len' →
      (strcmp (stored src len) (stored src' len')).sign = (strcoll src.bytes src'.bytes).sign

theorem strxfrmLoop_eq (src : List UInt8) (len : ℕ) (dest : List UInt8) (result : ℕ) :
    strxfrmLoop src len dest result = (dest ++ src.take len ++ [0], result + src.length) := by
  fun_induction strxfrmLoop src len dest result with
  | case1 => simp
  | case2 c src len dest result hlen ih =>
    obtain ⟨len, rfl⟩ := Nat.exists_eq_succ_of_ne_zero hlen.ne'
    simpa [Nat.add_comm, Nat.add_left_comm] using ih
  | case3 c src len dest result hlen ih =>
    obtain rfl : len = 0 := by omega
    simpa [Nat.add_comm, Nat.add_left_comm] using ih

theorem stored_eq {src : Chars} {len : ℕ} (h : (strxfrm src len).2 < len) :
    stored src len = src.bytes := by
  have hlen : 0 < len := by omega
  rw [strxfrm, if_pos hlen, strxfrmLoop_eq] at h
  rw [stored, strxfrm, if_pos hlen, strxfrmLoop_eq, take_of_length_le (by omega)]
  rw [nil_append, takeWhile_append_of_pos]
  · simp
  · intro c hc
    exact decide_eq_true fun hzero => src.nonzero (hzero ▸ hc)

/-- **When `strxfrm` is right**: if the string with its terminator fits. -/
theorem strxfrm_right_iff (src : Chars) (len : ℕ) (hlen : 0 < len) :
    StrxfrmRight src len ↔ src.bytes.length < len := by
  have heq : strxfrm src len = (src.bytes.take len ++ [0], src.bytes.length) := by
    rw [strxfrm, if_pos hlen, strxfrmLoop_eq, nil_append, Nat.zero_add]
  rw [StrxfrmRight, heq, length_append, length_take, length_singleton]
  refine ⟨fun h => by omega, fun h => ⟨by omega, rfl, ?_⟩⟩
  intro src' len' hfits hfits'
  rw [stored_eq (by rwa [heq]), stored_eq hfits', strcoll]

/-- With room for seven bytes the transform is right. -/
theorem strxfrm_right_short : StrxfrmRight ⟨[97, 98], by decide⟩ 7 :=
  (strxfrm_right_iff ⟨[97, 98], by decide⟩ 7 (by decide)).2 (by decide)

/-- Three bytes are stored where there is room for two. -/
theorem strxfrm_behind_end : strxfrm ⟨[97, 98, 99], by decide⟩ 2 = ([97, 98, 0], 3) ∧
    ¬ StrxfrmRight ⟨[97, 98, 99], by decide⟩ 2 := by
  exact ⟨by decide, fun h => absurd h.1 (by decide)⟩

end Clib4
