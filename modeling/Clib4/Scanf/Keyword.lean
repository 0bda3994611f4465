import Clib4.Scanf.Consumption

/-!
# Keywords in front of a floating point number

Before the digits of a floating point number `vfscanf` looks for `inf`, `infinity` and `nan`.  It
keeps the letters, and when one fits no keyword it returns them all.  What is found is told by the
text: `findKeyword` says how many letters are read and what they are.

## Main definitions

* `findKeyword` — the keyword that a text begins with.
* `floatField` — white space and a sign, and the field behind them.

## Main results

* `run_floatFront_unlimited` — **what a conversion finds, told by the text.**
* `floatFront_back` — when a keyword fails, a character has just been pushed back.
-/

namespace Clib4

open PushBack PushBack.Prog List

/-! ### Keywords in a text -/

/-- What a text begins with: `inf` or more letters of `infinity`, `nan`, letters with a character
behind them that fits no keyword, or letters at its end that make up no keyword. -/
inductive Finding
  | infinity (length : ℕ)
  | nan
  | misfit
  | part

/-- The number of letters, and what they are.  A letter of the one word begins the other one anew;
`infinity` and `nan` tell how much of them has been read. -/
def findKeyword (infinity nan : ℕ) : List UInt8 → ℕ × Finding
  | [] => (0, if 3 ≤ infinity then .infinity infinity else .part)
  | c :: text =>
    if infinityString[infinity]? = some (lower c) then
      if infinity + 1 = infinityString.length then (1, .infinity (infinity + 1))
      else ((findKeyword (infinity + 1) 0 text).1 + 1, (findKeyword (infinity + 1) 0 text).2)
    else if infinity = 3 then (0, .infinity 3)
    else if infinityNan[nan]? = some (lower c) then
      if nan + 1 = infinityNan.length then (1, .nan)
      else ((findKeyword 0 (nan + 1) text).1 + 1, (findKeyword 0 (nan + 1) text).2)
    else (0, .misfit)

theorem findKeyword_le (infinity nan : ℕ) (text : List UInt8) :
    (findKeyword infinity nan text).1 ≤ text.length := by
  fun_induction findKeyword infinity nan text with
  | case1 | case4 | case7 => exact Nat.zero_le _
  | case2 | case5 => exact Nat.succ_le_succ (Nat.zero_le _)
  | case3 infinity nan c text _ _ ih | case6 infinity nan c text _ _ _ _ ih =>
    exact Nat.succ_le_succ ih

theorem length_findKeyword (infinity nan : ℕ) (text : List UInt8) :
    match (findKeyword infinity nan text).2 with
    | .infinity length => length ≤ infinity + (findKeyword infinity nan text).1
    | .nan => 3 ≤ nan + (findKeyword infinity nan text).1
    | _ => True := by
  fun_induction findKeyword infinity nan text with
  | case1 infinity nan =>
    split_ifs
    · exact Nat.le_refl _
    · trivial
  | case2 | case4 => exact Nat.le_refl _
  | case3 infinity nan c text _ _ ih | case6 infinity nan c text _ _ _ _ ih =>
    dsimp only
    split at ih
    · omega
    · omega
    · trivial
  | case5 infinity nan c text _ _ _ hlast => exact hlast.ge
  | case7 => trivial

/-- The letter is the first one of a keyword. -/
def StartsKeyword (c : UInt8) : Prop := lower c = 105 ∨ lower c = 110

theorem StartsKeyword.cases {c : UInt8} (h : StartsKeyword c) :
    c = 105 ∨ c = 73 ∨ c = 110 ∨ c = 78 := by
  unfold StartsKeyword lower at h
  grind

theorem startsKeyword_of_findKeyword {c : UInt8} {text : List UInt8}
    (h : 0 < (findKeyword 0 0 (c :: text)).1) : StartsKeyword c := by
  by_contra hc
  rw [StartsKeyword, not_or] at hc
  have hinf : ¬ infinityString[0]? = some (lower c) := fun heq => hc.1 (Option.some.inj heq).symm
  have hnan : ¬ infinityNan[0]? = some (lower c) := fun heq => hc.2 (Option.some.inj heq).symm
  rw [findKeyword, if_neg hinf, if_neg (by decide), if_neg hnan] at h
  exact absurd h (Nat.lt_irrefl 0)

/-! ### The search -/

/-- The search has found what is there, and `n` characters behind a `nan`. -/
def Keyword.Shows (k : Keyword) (n : ℕ) : Finding → Prop
  | .infinity length => k.infinity = length ∧ 3 ≤ length ∧ k.nan < 3 ∧ k.failed = false ∧ n = 0
  | .nan => k.infinity = 0 ∧ k.nan = 3 + n ∧ k.failed = false
  | .misfit => k.infinity = 0 ∧ k.nan = 0 ∧ k.failed = true ∧ n = 0
  | .part => k.infinity < 3 ∧ k.nan < 3 ∧ k.failed = false ∧ n = 0

theorem Keyword.Shows.of_failed {k : Keyword} {n : ℕ} {finding : Finding} (h : k.Shows n finding)
    (hk : k.failed = true) : k.infinity = 0 ∧ k.nan = 0 ∧ finding = .misfit := by
  cases finding <;> simp_all [Keyword.Shows]

/-- How many letters there is still room for. -/
def Keyword.left (k : Keyword) : ℕ :=
  if k.width < 0 then 80 - k.letters.length else min k.width.toNat (80 - k.letters.length)

variable {k : Keyword}

theorem Keyword.goesOn_eq (k : Keyword) : k.goesOn = decide (k.left ≠ 0) := by
  unfold Keyword.goesOn Keyword.left
  congr 1
  split_ifs <;> grind

theorem Keyword.left_keep (k : Keyword) (c : UInt8) (infinity nan : ℕ) :
    (k.keep c infinity nan).left = k.left - 1 := by
  unfold Keyword.left Keyword.keep lessWidth
  simp only [length_append, length_singleton]
  split_ifs <;> omega

/-- What a search from `k` on comes to in a text with the given finding. -/
def Keyword.Finds (k : Keyword) (text : List UInt8) (found : ℕ × Finding)
    (out : Option (Keyword × Ending) × List UInt8) : Prop :=
  ∃ k' e, out = (some (k', e), text.drop found.1) ∧
    k'.letters = k.letters ++ text.take found.1 ∧ k'.Shows 0 found.2 ∧
    (k'.failed = true → e = .back)

theorem Keyword.finds_end (hnan : k.nan < 3) (hk : k.failed = false) {text : List UInt8}
    {out : Option (Keyword × Ending) × List UInt8} {e : Ending} (hout : out = (some (k, e), text)) :
    k.Finds text (findKeyword k.infinity k.nan []) out := by
  refine ⟨k, e, hout, (append_nil _).symm, ?_, ?_⟩
  · rw [findKeyword]
    split
    case isTrue hthree => exact ⟨rfl, hthree, hnan, hk, rfl⟩
    case isFalse hthree => exact ⟨by omega, hnan, hk, rfl⟩
  · intro hfailed
    rw [hk] at hfailed
    cases hfailed

/-- **The search finds the keyword in the text.** -/
theorem run_keywordLoop (hnan : k.nan < 3) (hk : k.failed = false) (text : List UInt8) :
    k.Finds text (findKeyword k.infinity k.nan (text.take k.left))
      ((Prog.readLoop Keyword.goesOn keywordBody k).run (unlimited UInt8) text) := by
  induction text generalizing k with
  | nil =>
    rw [take_nil]
    cases hgoes : k.goesOn with
    | true => exact Keyword.finds_end hnan hk (run_readLoop_nil _ hgoes)
    | false => exact Keyword.finds_end hnan hk (run_readLoop_stop _ hgoes _)
  | cons c text ih =>
    have hgoes := k.goesOn_eq
    by_cases hleft : k.left = 0
    · rw [hleft] at hgoes
      rw [hleft, take_zero]
      exact Keyword.finds_end hnan hk (run_readLoop_stop _ hgoes _)
    obtain ⟨l, hl⟩ := Nat.exists_eq_succ_of_ne_zero hleft
    rw [run_readLoop_cons _ (hgoes.trans (decide_eq_true hleft)), hl, take_succ_cons,
      findKeyword, keywordBody]
    -- one letter more
    have hkeep : ∀ i j, j < 3 → k.Finds (c :: text)
        ((findKeyword i j (text.take l)).1 + 1, (findKeyword i j (text.take l)).2)
        ((Prog.readLoop Keyword.goesOn keywordBody (k.keep c i j)).run (unlimited UInt8) text) := by
      intro i j hj
      have hnext := ih (k := k.keep c i j) hj hk
      rw [Keyword.left_keep, hl, Nat.succ_sub_one] at hnext
      obtain ⟨k', e, hrun, hletters, hrest⟩ := hnext
      refine ⟨k', e, hrun, hletters.trans ?_, hrest⟩
      simp [Keyword.keep]
    have hlast : ∀ i j finding, (k.keep c i j).Shows 0 finding →
        k.Finds (c :: text) (1, finding) (some (k.keep c i j, .last), text) := by
      intro i j finding hshows
      refine ⟨_, _, rfl, rfl, hshows, fun hfailed => ?_⟩
      rw [Keyword.keep, hk] at hfailed
      cases hfailed
    split_ifs with hinf height hthree hmatch hend
    · exact hlast _ _ _ ⟨rfl, (by decide : 3 ≤ 8).trans height.ge, Nat.zero_lt_succ 2, hk, rfl⟩
    · exact hkeep _ _ (by decide)
    · exact ⟨_, _, rfl, (append_nil _).symm,
        ⟨hthree, Nat.le_refl 3, Nat.zero_lt_succ 2, hk, rfl⟩, fun _ => rfl⟩
    · exact hlast _ _ _ ⟨rfl, hend, hk⟩
    · have hshort : infinityNan.length = 3 := rfl
      exact hkeep _ _ (by omega)
    · exact ⟨_, _, rfl, (append_nil _).symm, ⟨rfl, rfl, rfl, rfl⟩, fun _ => rfl⟩

/-- Text in parentheses changes the length of a `nan` only. -/
theorem nanScanner_yields (k : Keyword) :
    (nanScanner k).Yields fun n k' => ∃ width, k' = { k with nan := k.nan + n, width } := by
  refine .ite (fun _ => .bind (.accept _) ?_) fun _ => .done ⟨_, rfl⟩
  rintro n attempt rfl
  cases attempt with
  | ended | refused c => exact .done ⟨_, rfl⟩
  | taken c =>
    refine .bind (P := fun n v => ∃ width, v.1 = { k with nan := k.nan + (1 + n), width })
      (.readLoop (fun n k' => ∃ width, k' = { k with nan := k.nan + (1 + n), width })
        (fun _ _ hk => hk) (fun _ _ hk => hk) ?_ ⟨_, rfl⟩) fun _ _ hk => .done hk
    rintro n k' c ⟨width, rfl⟩
    unfold parenBody
    split_ifs <;> exact ⟨_, rfl⟩

/-- The keyword is the one that the field begins with, and `n` characters behind a `nan`. -/
structure Keyword.FoundIn (k : Keyword) (field : List UInt8) (n : ℕ) : Prop where
  letters : k.letters = field.take (findKeyword 0 0 field).1
  shows : k.Shows n (findKeyword 0 0 field).2

theorem Keyword.FoundIn.length {field : List UInt8} {n : ℕ} (h : k.FoundIn field n) :
    k.letters.length = (findKeyword 0 0 field).1 := by
  rw [h.letters, length_take, Nat.min_eq_left (findKeyword_le 0 0 field)]

theorem Keyword.FoundIn.starts {field : List UInt8} {n : ℕ} (h : k.FoundIn field n) {c : UInt8}
    {cs : List UInt8} (hc : k.letters = c :: cs) : StartsKeyword c := by
  have hpos : 0 < (findKeyword 0 0 field).1 := by
    rw [← h.length, hc]
    exact Nat.succ_pos _
  cases field with
  | nil => cases hpos
  | cons d field =>
    have hstarts := startsKeyword_of_findKeyword hpos
    obtain ⟨m, hm⟩ := Nat.exists_eq_succ_of_ne_zero hpos.ne'
    rw [h.letters, hm, take_succ_cons] at hc
    cases hc
    exact hstarts

theorem run_lookAhead (width : ℤ) (text : List UInt8) :
    ∃ k n rest, (lookAhead width).run (unlimited UInt8) text = (some k, rest) ∧
      text.length = k.letters.length + n + rest.length ∧
      k.FoundIn (text.take (Keyword.left { width })) n := by
  by_cases hwidth : width = 0
  · subst hwidth
    refine ⟨_, 0, text, rfl, by simp, rfl, ?_⟩
    exact ⟨Nat.zero_lt_succ 2, Nat.zero_lt_succ 2, rfl, rfl⟩
  obtain ⟨k, e, hrun, hletters, hshows, -⟩ :=
    run_keywordLoop (k := { width }) (Nat.zero_lt_succ 2) rfl text
  have hfound : k.FoundIn (text.take (Keyword.left { width })) 0 := by
    have hle := findKeyword_le 0 0 (text.take (Keyword.left { width }))
    rw [length_take] at hle
    refine ⟨?_, hshows⟩
    rw [take_take, Nat.min_eq_left (by omega)]
    exact hletters
  have hlen : text.length = k.letters.length + (text.drop k.letters.length).length := by
    rw [length_drop, hletters, nil_append, length_take]
    omega
  rw [lookAhead, if_neg hwidth, bind_eq, run_bind_of_some hrun]
  dsimp only
  rw [← hfound.length]
  split
  case isFalse => exact ⟨k, 0, _, rfl, hlen, hfound⟩
  case isTrue hnan =>
    obtain ⟨n, k', rest, hrun', hn, width', rfl⟩ :=
      (nanScanner_yields k).returns (unlimited UInt8) (text.drop k.letters.length)
    refine ⟨_, n, rest, hrun', ?_, hfound.letters, ?_⟩
    · change (text.drop k.letters.length).length = n + rest.length at hn
      dsimp only
      omega
    have hthree : k.nan = 3 := hnan
    generalize (findKeyword _ _ _).2 = finding at hshows ⊢
    cases finding with
    | infinity length => exact absurd hthree hshows.2.2.1.ne
    | nan => exact ⟨hshows.1, congrArg (· + n) hthree, hshows.2.2⟩
    | misfit => exact absurd (hthree.symm.trans hshows.2.1) (by decide)
    | part => exact absurd hthree hshows.2.1.ne

/-! ### White space and a sign -/

/-- A text as far as the field width reaches; a negative one is no limit. -/
def fieldText (width : ℤ) (text : List UInt8) : List UInt8 :=
  if width < 0 then text else text.take width.toNat

theorem fieldText_cons {width : ℤ} (h : width ≠ 0) (c : UInt8) (text : List UInt8) :
    fieldText width (c :: text) = c :: fieldText (lessWidth width) text := by
  by_cases hneg : width < 0
  · have hless : lessWidth width = width := if_neg (by omega)
    rw [fieldText, fieldText, hless, if_pos hneg, if_pos hneg]
  · obtain ⟨n, rfl⟩ : ∃ n : ℕ, width = n + 1 := ⟨(width - 1).toNat, by omega⟩
    have hless : lessWidth (n + 1) = n := (if_pos (by omega)).trans (add_sub_cancel_right _ _)
    rw [fieldText, fieldText, hless, if_neg hneg, if_neg (by omega)]
    rfl

theorem take_fieldText (width : ℤ) (text : List UInt8) :
    (fieldText width text).take 80 = text.take (Keyword.left { width }) := by
  unfold fieldText Keyword.left
  split_ifs
  · rfl
  · rw [take_take, min_comm]
    rfl

/-- A sign in front of a text: how many characters it has, and the text behind it. -/
def dropSign : List UInt8 → ℕ × List UInt8
  | [] => (0, [])
  | c :: text => if c = minus ∨ c = 43 then (1, text) else (0, c :: text)

theorem run_floatSign (width : ℤ) (read : ℕ) (text : List UInt8) :
    let sign := dropSign (fieldText width text)
    ∃ negative width' text', (floatSign width read).run (unlimited UInt8) text =
        (some (negative, width', read + sign.1), text') ∧
      text.length = sign.1 + text'.length ∧
      sign.2.take 80 = text'.take (Keyword.left { width := width' }) := by
  rw [floatSign]
  split
  case isTrue hwidth =>
    subst hwidth
    exact ⟨_, _, _, rfl, (Nat.zero_add _).symm, rfl⟩
  case isFalse hwidth =>
    cases text with
    | nil =>
      have hnil : fieldText width [] = [] := by simp [fieldText]
      rw [hnil]
      exact ⟨_, _, [], rfl, rfl, by simp [dropSign]⟩
    | cons c text =>
      rw [bind_eq, run_bind, run_accept_cons, fieldText_cons hwidth]
      by_cases hsign : c = minus ∨ c = 43
      · simp only [wanted, if_pos hsign, dropSign]
        exact ⟨_, _, _, rfl, Nat.add_comm _ _, take_fieldText _ _⟩
      · simp only [wanted, if_neg hsign, dropSign]
        refine ⟨_, _, _, rfl, (Nat.zero_add _).symm, ?_⟩
        rw [← fieldText_cons hwidth]
        exact take_fieldText _ _

/-- What a conversion reads before it returns the letters of a keyword: white space, a sign, and
the keyword. -/
def floatFront (spec : Spec) (read : ℕ) : Scanner (Bool × ℕ × Keyword) :=
  (blanksBefore spec.letter read).bind fun t => floatStart spec t.1

/-- The number of characters in front of a number, white space and a sign, and the field behind
them, as far as keywords are looked for. -/
def floatField (spec : Spec) (text : List UInt8) : ℕ × List UInt8 :=
  let (sign, field) := dropSign (fieldText spec.fieldWidth (skipSpace text))
  ((text.takeWhile isSpace).length + sign, field.take 80)

/-- **What a conversion finds, told by the text.** -/
theorem run_floatFront_unlimited {spec : Spec} (h : spec.letter = 102) (read : ℕ)
    (text : List UInt8) :
    ∃ negative k n rest, (floatFront spec read).run (unlimited UInt8) text =
        (some (negative, read + (floatField spec text).1, k), rest) ∧
      text.length = (floatField spec text).1 + (k.letters.length + n + rest.length) ∧
      k.FoundIn (floatField spec text).2 n := by
  have hblanks : blanksBefore spec.letter read = skipBlanks read := by
    rw [blanksBefore, h]
    rfl
  have hlen : text.length = (text.takeWhile isSpace).length + (skipSpace text).length := by
    rw [skipSpace, ← length_append, takeWhile_append_dropWhile]
  rw [floatFront, hblanks, run_bind_of_some (run_skipBlanks read text)]
  unfold floatStart floatField
  dsimp only
  obtain ⟨negative, width', text', hsign, hlen', hfield⟩ :=
    run_floatSign spec.fieldWidth (read + (text.takeWhile isSpace).length) (skipSpace text)
  obtain ⟨k, n, rest, hrun, hleft, hk⟩ := run_lookAhead width' text'
  rw [bind_eq, run_bind_of_some hsign]
  dsimp only
  rw [bind_eq, run_bind_of_some hrun, hfield, Nat.add_assoc]
  exact ⟨negative, k, n, rest, rfl, by omega, hk⟩

/-! ### Any stream -/

theorem lookAhead_yields (width : ℤ) : (lookAhead width).Yields fun _ _ => True := by
  refine .ite (fun _ => .done trivial) fun _ => .bind .readLoop_true ?_
  intro n v _
  exact .ite (fun _ => (nanScanner_yields v.1).mono fun _ _ _ => trivial) fun _ => .done trivial

/-- **The beginning of a conversion** pushes back only the character read last. -/
theorem floatFront_yields (spec : Spec) (read : ℕ) :
    (floatFront spec read).Yields fun _ _ => True := by
  have hsign : ∀ width read, (floatSign width read).Yields fun _ _ => True := by
    intro width read
    refine .ite (fun _ => .done trivial) fun _ => .bind (.accept _) ?_
    intro n attempt _
    cases attempt <;> exact .done trivial
  refine .bind (blanksBefore_yields _ _) fun _ v _ => .bind (hsign _ _) fun _ v _ => ?_
  exact .bind (lookAhead_yields v.2.1) fun _ _ _ => .done trivial

variable {σ : Type} {io : Source UInt8 σ} {s s' : σ}

/-- **A keyword that fails**: a character has just been pushed back. -/
theorem lookAhead_back {width : ℤ} (h : (lookAhead width).run io s = (some k, s'))
    (hk : k.failed = true) :
    ∃ s₀ c, (io.rest s₀).head? = some c ∧ s' = (io.ungetc c (io.getc s₀).2).2 := by
  rw [lookAhead] at h
  split at h
  case isTrue =>
    cases h
    cases hk
  case isFalse =>
    obtain ⟨⟨k', ending⟩, t, hloop, h⟩ := run_bind_eq_some h
    obtain ⟨k₁, e, hrun, -, hshows, hback⟩ :=
      run_keywordLoop (k := { width }) (Nat.zero_lt_succ 2) rfl (io.rest s)
    cases (Yields.readLoop_true.of_text hloop hrun).1
    dsimp only at h
    split at h
    case isTrue hnan =>
      -- a complete `nan` does not fail
      obtain ⟨n, -, width', rfl⟩ := (nanScanner_yields k').of_run h
      exact absurd (hnan.symm.trans (hshows.of_failed hk).2.1) (by decide)
    case isFalse =>
      cases h
      obtain rfl := hback hk
      exact run_loop_back hloop

theorem floatFront_back {spec : Spec} {read : ℕ} {t : Bool × ℕ × Keyword}
    (h : (floatFront spec read).run io s = (some t, s')) (hk : t.2.2.failed = true) :
    ∃ s₀ c, (io.rest s₀).head? = some c ∧ s' = (io.ungetc c (io.getc s₀).2).2 := by
  obtain ⟨t₁, s₁, -, h⟩ := run_bind_eq_some h
  obtain ⟨t₂, s₂, -, h⟩ := run_bind_eq_some h
  obtain ⟨k, s₃, hlook, h⟩ := run_bind_eq_some h
  cases h
  exact lookAhead_back hlook hk

end Clib4
