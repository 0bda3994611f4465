import Clib4.Errno

/-!
# Temporary names

`mktemp` replaces the `X` characters at the end of a template by letters, and counts these letters
up until the name does not exist yet.

## Main definitions

* `mktemp` — the function, with the number of names that it may check.

## Main results

* `mktemp_finds` — **a free name is found**, after at most `26 ^ k` checks.
-/

namespace Clib4

open List

/-- How many `X` characters the template ends with. -/
def templateLen (name : List UInt8) : ℕ := (name.reverse.takeWhile (· == 88)).length

/-- The letters made of a pseudo-random number.  The clock is read when the number is used up. -/
def fillTemplate (now : ℕ → ℕ) : ℕ → ℕ → List UInt8
  | 0, _ => []
  | n + 1, random =>
    .ofNat (65 + random % 26) ::
      fillTemplate now n (if random / 26 = 0 then now n else random / 26)

/-- Change one letter; if that overflows, start over with `A` and move on to the next one. -/
def nextLetters : List UInt8 → List UInt8
  | [] => []
  | c :: letters => if c + 1 ≤ 90 then (c + 1) :: letters else 65 :: nextLetters letters

/-- The loop that looks for a name that does not exist, with the number of checks. -/
def checkNames (taken : List UInt8 → Bool) (front : List UInt8) :
    ℕ → List UInt8 → Option (List UInt8)
  | 0, _ => none
  | n + 1, letters =>
    if taken (front ++ letters) then checkNames taken front n (nextLetters letters)
    else some (front ++ letters)

/-- `mktemp`: the changed template.  `taken` says whether there is a file of the name, and there is
no result if more than `checks` names would be checked. -/
def mktemp (taken : List UInt8 → Bool) (now : ℕ → ℕ) (random checks : ℕ) (name : List UInt8) :
    Option (Except Errno (List UInt8)) :=
  let len := templateLen name
  if len = 0 then some (.error .EINVAL)
  else (checkNames taken (name.take (name.length - len)) checks (fillTemplate now len random)).map
    .ok

/-- Upper-case letters only. -/
def IsLetters (letters : List UInt8) : Prop := ∀ c ∈ letters, 65 ≤ c.toNat ∧ c.toNat ≤ 90

/-- The name is the template with upper-case letters in the place of its last `X` characters. -/
def IsCandidate (template name : List UInt8) : Prop :=
  ∃ letters, name = template.take (template.length - templateLen template) ++ letters ∧
    letters.length = templateLen template ∧ IsLetters letters

/-! ### Counting with letters -/

/-- The letters as a number, the first one as its last digit. -/
def letterValue (letters : List UInt8) : ℕ := Nat.ofDigits 26 (letters.map fun c => c.toNat - 65)

theorem letterValue_cons (c : UInt8) (letters : List UInt8) :
    letterValue (c :: letters) = (c.toNat - 65) + 26 * letterValue letters := by
  simp [letterValue, Nat.ofDigits_cons]

variable {letters : List UInt8}

theorem letterValue_lt (h : IsLetters letters) :
    letterValue letters < 26 ^ letters.length := by
  have hlt := Nat.ofDigits_lt_base_pow_length (b := 26) (l := letters.map fun c => c.toNat - 65)
    (by decide) ?_
  · rwa [length_map] at hlt
  · intro d hd
    obtain ⟨c, hc, rfl⟩ := mem_map.1 hd
    have := h c hc
    omega

theorem length_nextLetters (letters : List UInt8) :
    (nextLetters letters).length = letters.length := by
  fun_induction nextLetters letters <;> simp_all

theorem toNat_add_one {c : UInt8} (h : c.toNat ≤ 90) : (c + 1).toNat = c.toNat + 1 := by
  exact Nat.mod_eq_of_lt (by simp; omega)

theorem IsLetters.nextLetters (h : IsLetters letters) :
    IsLetters (nextLetters letters) ∧
      letterValue (nextLetters letters) = (letterValue letters + 1) % 26 ^ letters.length := by
  induction letters with
  | nil => exact ⟨by simp [Clib4.nextLetters, IsLetters], by simp [Clib4.nextLetters, letterValue]⟩
  | cons c letters ih =>
    obtain ⟨hc, hletters⟩ := forall_mem_cons.1 h
    have hlt := letterValue_lt hletters
    rw [Clib4.nextLetters, letterValue_cons, length_cons, pow_succ']
    split_ifs with hnext
    · have hle : c.toNat + 1 ≤ 90 := by
        rw [← toNat_add_one hc.2]
        exact hnext
      rw [letterValue_cons, toNat_add_one hc.2, Nat.mod_eq_of_lt (by omega)]
      exact ⟨forall_mem_cons.2 ⟨by rw [toNat_add_one hc.2]; omega, hletters⟩, by omega⟩
    · have hz : c.toNat = 90 := by
        have : ¬ c.toNat + 1 ≤ 90 := by
          rw [← toNat_add_one hc.2]
          exact hnext
        omega
      obtain ⟨hnext', hval⟩ := ih hletters
      refine ⟨forall_mem_cons.2 ⟨by decide, hnext'⟩, ?_⟩
      rw [letterValue_cons, hval, hz,
        show 90 - 65 + 26 * letterValue letters + 1 = 26 * (letterValue letters + 1) by omega,
        Nat.mul_mod_mul_left]
      simp

theorem IsLetters.iterate (h : IsLetters letters) (j : ℕ) :
    IsLetters (Clib4.nextLetters^[j] letters) ∧
      (Clib4.nextLetters^[j] letters).length = letters.length ∧
      letterValue (Clib4.nextLetters^[j] letters) =
        (letterValue letters + j) % 26 ^ letters.length := by
  induction j with
  | zero => exact ⟨h, rfl, (Nat.mod_eq_of_lt (letterValue_lt h)).symm⟩
  | succ j ih =>
    obtain ⟨hletters, hlen, hval⟩ := ih
    obtain ⟨hnext, hsucc⟩ := hletters.nextLetters
    rw [Function.iterate_succ_apply']
    refine ⟨hnext, by rw [length_nextLetters, hlen], ?_⟩
    rw [hsucc, hlen, hval, Nat.mod_add_mod, Nat.add_assoc]

theorem letterValue_inj {a b : List UInt8} (ha : IsLetters a) (hb : IsLetters b)
    (hlen : a.length = b.length) (h : letterValue a = letterValue b) : a = b := by
  induction a generalizing b with
  | nil => exact (length_eq_zero_iff.1 hlen.symm).symm
  | cons c a ih =>
    cases b with
    | nil => cases hlen
    | cons d b =>
      obtain ⟨hc, ha⟩ := forall_mem_cons.1 ha
      obtain ⟨hd, hb⟩ := forall_mem_cons.1 hb
      rw [letterValue_cons, letterValue_cons] at h
      have hcd : c.toNat = d.toNat := by omega
      rw [ih ha hb (Nat.succ.inj hlen) (by omega), UInt8.toNat_inj.1 hcd]

/-- Every word of letters is come to within as many steps as there are words. -/
theorem IsLetters.exists_iterate {word : List UInt8} (h : IsLetters letters)
    (hword : IsLetters word) (hlength : word.length = letters.length) :
    ∃ j < 26 ^ letters.length, Clib4.nextLetters^[j] letters = word := by
  have hlt := letterValue_lt h
  have hlt' := letterValue_lt hword
  rw [hlength] at hlt'
  obtain ⟨j, hj, hmod⟩ : ∃ j < 26 ^ letters.length,
      (letterValue letters + j) % 26 ^ letters.length = letterValue word := by
    rcases Nat.lt_or_ge (letterValue word) (letterValue letters) with hless | hle
    · -- the counter wraps around
      refine ⟨letterValue word + 26 ^ letters.length - letterValue letters, by omega, ?_⟩
      rw [Nat.add_sub_cancel' (by omega), Nat.add_mod_right, Nat.mod_eq_of_lt hlt']
    · refine ⟨letterValue word - letterValue letters, by omega, ?_⟩
      rw [Nat.add_sub_cancel' hle, Nat.mod_eq_of_lt hlt']
  obtain ⟨hletters, hlen, hval⟩ := h.iterate j
  exact ⟨j, hj, letterValue_inj hletters hword (hlen.trans hlength.symm) (hval.trans hmod)⟩

/-! ### The search -/

theorem checkNames_finds {taken : List UInt8 → Bool} {front : List UInt8} {n j : ℕ}
    (hj : j < n) (hfree : taken (front ++ nextLetters^[j] letters) = false) :
    ∃ i, checkNames taken front n letters = some (front ++ nextLetters^[i] letters) ∧
      taken (front ++ nextLetters^[i] letters) = false := by
  induction n generalizing letters j with
  | zero => omega
  | succ n ih =>
    rw [checkNames]
    split_ifs with htaken
    · cases j with
      | zero => exact absurd htaken (by simpa using hfree)
      | succ j =>
        obtain ⟨i, hi⟩ := ih (Nat.lt_of_succ_lt_succ hj) hfree
        exact ⟨i + 1, hi⟩
    · exact ⟨0, rfl, by simpa using htaken⟩

theorem isLetters_fillTemplate (now : ℕ → ℕ) (n random : ℕ) :
    IsLetters (fillTemplate now n random) ∧ (fillTemplate now n random).length = n := by
  induction n generalizing random with
  | zero => simp [fillTemplate, IsLetters]
  | succ n ih =>
    obtain ⟨hletters, hlen⟩ := ih (if random / 26 = 0 then now n else random / 26)
    refine ⟨forall_mem_cons.2 ⟨?_, hletters⟩, by rw [fillTemplate, length_cons, hlen]⟩
    rw [UInt8.toNat_ofNat']
    omega

/-- **`mktemp` finds a free name**, if one of the names that it can make is free, after at most as
many checks as there are names, and changes nothing but the `X` characters. -/
theorem mktemp_finds (taken : List UInt8 → Bool) (now : ℕ → ℕ) (random : ℕ)
    (template : List UInt8) (hlen : 1 ≤ templateLen template)
    (hfree : ∃ name, IsCandidate template name ∧ taken name = false) :
    ∃ name, mktemp taken now random (26 ^ templateLen template) template = some (.ok name) ∧
      IsCandidate template name ∧ taken name = false := by
  obtain ⟨_, ⟨word, rfl, hlength, hword⟩, hfree⟩ := hfree
  obtain ⟨hletters, hfill⟩ := isLetters_fillTemplate now (templateLen template) random
  obtain ⟨j, hj, rfl⟩ := hletters.exists_iterate hword (hlength.trans hfill.symm)
  rw [hfill] at hj
  obtain ⟨i, hfound, hfree⟩ := checkNames_finds hj hfree
  obtain ⟨hletters', hlength', -⟩ := hletters.iterate i
  refine ⟨_, ?_, ⟨_, rfl, hlength'.trans hfill, hletters'⟩, hfree⟩
  rw [mktemp, if_neg (by omega), hfound]
  rfl

/-- The names `tA` to `tY` are taken, and the search starts with `tB`. -/
theorem mktemp_finds_last : ∃ name,
    mktemp (· != [116, 90]) (fun _ => 0) 1 (26 ^ templateLen [116, 88]) [116, 88] =
      some (.ok name) ∧ IsCandidate [116, 88] name ∧ (name != [116, 90]) = false :=
  mktemp_finds _ _ _ _ (by decide)
    ⟨[116, 90], ⟨[90], by decide, by decide, by simp [IsLetters]⟩, by decide⟩

end Clib4
