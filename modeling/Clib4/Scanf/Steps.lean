import Clib4.Scanf.Scan

/-!
# One iteration for each directive

On the text of a format the loop of `vfscanf` executes one directive in each iteration, and goes
on with the text of the others.

## Main definitions

* `codeTurn` — what an iteration does for a directive.
* `setOf` — the set that a scanset denotes.

## Main results

* `parseSpec_text`, `parseSet_text` — the text of a conversion is read as the conversion.
* `scanBody_conversion` — an iteration on the text of a conversion.
-/

namespace Clib4

open List

/-! ### Reading a specification -/

/-- The conversion letter of a kind. -/
def Kind.letter : Kind → UInt8
  | .char => 99
  | .integer kind => kind.letter
  | .upperX => 88
  | .string => 115
  | .set _ _ => openBracket

/-- The text of a kind behind its letter. -/
def Kind.behind : Kind → List UInt8
  | .set negated members => (if negated then [caret] else []) ++ (members ++ [closeBracket])
  | _ => []

theorem Kind.text_eq (kind : Kind) : kind.text = kind.letter :: kind.behind := by
  cases kind <;> rfl

/-- The specification that the text of a conversion is read as. -/
def Conversion.spec (v : Conversion) : Spec :=
  ⟨v.suppressed, v.fieldWidth, v.size, v.kind.letter⟩

/-- The letter of a kind is a conversion type, and neither a digit nor an asterisk. -/
theorem Kind.letter_spec (kind : Kind) :
    conversionType kind.letter = some kind.letter ∧ isDigit kind.letter = false ∧
      kind.letter ≠ asterisk := by
  cases kind with
  | integer kind => cases kind <;> decide
  | _ => exact ⟨rfl, rfl, fun h => by cases h⟩

theorem parseSize_text (size : Size) (kind : Kind) (format : List UInt8) :
    parseSize (size.text ++ kind.letter :: format) = (size, kind.letter :: format) := by
  cases kind with
  | integer kind => cases kind <;> cases size <;> rfl
  | _ => cases size <;> rfl

/-- The number that digits denote, when some have been read before. -/
theorem le_foldl_decimal (digits : List UInt8) (n : ℕ) :
    n ≤ digits.foldl (fun n c => 10 * n + (c.toNat - 48)) n := by
  induction digits generalizing n with
  | nil => exact Nat.le_refl n
  | cons c digits ih =>
    refine Nat.le_trans ?_ (ih (10 * n + (c.toNat - 48)))
    omega

theorem isDigit_toNat {c : UInt8} (h : isDigit c = true) : 48 ≤ c.toNat ∧ c.toNat ≤ 57 := by
  simp only [isDigit, Bool.and_eq_true, decide_eq_true_eq] at h
  exact h

/-- The loop reads a width that fits an `int`. -/
theorem widthLoop_digits {digits : List UInt8} (hdig : ∀ c ∈ digits, isDigit c = true) (n : ℕ)
    {format : List UInt8} (hfmt : ∀ c ∈ format.head?, isDigit c = false)
    (hfits : digits.foldl (fun n c => 10 * n + (c.toNat - 48)) n < 2 ^ 31) :
    widthLoop n (digits ++ format)
      = (((digits.foldl (fun n c => 10 * n + (c.toNat - 48)) n : ℕ) : ℤ), format) := by
  induction digits generalizing n with
  | nil =>
    cases format with
    | nil => rfl
    | cons c format =>
      have hc : isDigit c = false := hfmt c rfl
      simp [widthLoop, hc]
  | cons c digits ih =>
    have hc := hdig c mem_cons_self
    obtain ⟨hlow, hhigh⟩ := isDigit_toNat hc
    rw [foldl_cons] at hfits ⊢
    have hle := le_foldl_decimal digits (10 * n + (c.toNat - 48))
    -- no overflow: the sum is at most the whole number
    have hnext : (10 * (n : ℤ) + c.toNat - 48).bmod (2 ^ 32)
        = ((10 * n + (c.toNat - 48) : ℕ) : ℤ) := by
      rw [Int.bmod_eq_of_le] <;> omega
    rw [cons_append, widthLoop, if_pos hc]
    rw [hnext, if_neg (by omega)]
    exact ih (fun d hd => hdig d (mem_cons_of_mem _ hd)) _ hfits

/-- The width of a conversion is written in digits, and fits an `int`. -/
def Conversion.Readable (v : Conversion) : Prop :=
  (∀ c ∈ v.width, isDigit c = true) ∧ ∀ n ∈ v.fieldWidth, n < 2 ^ 31

variable {v : Conversion}

theorem parseWidth_text (h : v.Readable) {format : List UInt8}
    (hfmt : ∀ c ∈ format.head?, isDigit c = false) :
    parseWidth (v.width ++ format) = (v.fieldWidth, format) := by
  obtain ⟨hdig, hwidth⟩ := h
  rw [Conversion.fieldWidth] at hwidth ⊢
  cases hw : v.width with
  | nil =>
    rw [if_pos rfl]
    cases format with
    | nil => rfl
    | cons c format =>
      have hc : isDigit c = false := hfmt c rfl
      simp [parseWidth, hc]
  | cons c digits =>
    rw [hw] at hdig hwidth
    rw [if_neg (cons_ne_nil c digits)] at hwidth ⊢
    have hfits := hwidth _ rfl
    have hloop := widthLoop_digits hdig 0 hfmt hfits
    rw [cons_append] at hloop ⊢
    rw [parseWidth, if_pos (hdig c mem_cons_self)]
    rw [Nat.cast_zero] at hloop
    rw [hloop]
    rfl

/-- **The text of a conversion is read as the conversion.** -/
theorem parseSpec_text (h : v.Readable) (format : List UInt8) :
    parseSpec (v.text ++ format) = .spec v.spec (v.kind.behind ++ format) := by
  -- neither a size nor a letter is a digit or an asterisk
  have hhead : ∀ c ∈ (v.size.text ++ v.kind.letter :: (v.kind.behind ++ format)).head?,
      isDigit c = false ∧ c ≠ asterisk := by
    intro c hc
    cases hsize : v.size <;> rw [hsize] at hc <;> cases hc <;>
      first
        | exact v.kind.letter_spec.2
        | exact ⟨by decide, by decide⟩
  have hrest : (v.width ++ (v.size.text ++ v.kind.text)) ++ format
      = v.width ++ (v.size.text ++ v.kind.letter :: (v.kind.behind ++ format)) := by
    rw [v.kind.text_eq]
    simp
  have hstar : (v.width ++ (v.size.text ++ v.kind.letter :: (v.kind.behind ++ format))).head?
      ≠ some asterisk := by
    intro hc
    cases hw : v.width with
    | nil =>
      rw [hw] at hc
      exact (hhead _ hc).2 rfl
    | cons d digits =>
      rw [hw] at hc
      have hd := h.1 d (by rw [hw]; exact mem_cons_self)
      rw [Option.some.inj hc] at hd
      exact absurd hd (by decide)
  have hsupp : ((v.text ++ format).head? == some asterisk) = v.suppressed ∧
      (if v.suppressed then (v.text ++ format).drop 1 else v.text ++ format)
        = v.width ++ (v.size.text ++ v.kind.letter :: (v.kind.behind ++ format)) := by
    rw [Conversion.text]
    cases v.suppressed with
    | true =>
      rw [← hrest]
      exact ⟨by simp, by simp⟩
    | false =>
      simp only [Bool.false_eq_true, if_false, nil_append]
      rw [hrest]
      exact ⟨by simpa using hstar, rfl⟩
  rw [parseSpec]
  simp only [hsupp.1, hsupp.2, parseWidth_text h fun c hc => (hhead c hc).1,
    parseSize_text, v.kind.letter_spec.1, Conversion.spec]

/-! ### An iteration -/

section Iterations

variable (float : Spec → ℕ → List UInt8 → Turn)

/-- The specification of `%%`. -/
def percentSpec : Spec := ⟨false, none, .default, percent⟩

/-- What an iteration does for a directive, with the format behind it: the outcome, and the
format it goes on with. -/
def codeTurn (d : Directive) (format : List UInt8) (conversions read : ℕ) (input : List UInt8) :
    Turn × List UInt8 :=
  match d with
  | .space _ => (spaceBranch conversions input, format)
  | .literal c => (literalBranch conversions c input, format)
  | .percent => dispatch float percentSpec format conversions read input
  | .conversion v => dispatch float v.spec (v.kind.behind ++ format) conversions read input

variable {v : Conversion} {format : List UInt8} {s s' : Scan}

theorem scanBody_conversion (h : v.Readable) (s : Scan)
    (hs : s.format = (Directive.conversion v).text ++ format) :
    scanBody float s
      = s.finish (codeTurn float (.conversion v) format s.conversions s.read s.input).1
        (codeTurn float (.conversion v) format s.conversions s.read s.input).2 := by
  have hpercent : isSpace percent = false := by decide
  have hparse := parseSpec_text h format
  rw [scanBody, hs]
  simp [Directive.text, codeTurn, hpercent, hparse]

/-- The effects of all iterations, after one more. -/
def effectsAfter (s : Scan) : List Effect :=
  (scanBody float s).elim Scan.effects ScanResult.effects

theorem finish_effects (s : Scan) (turn : Turn) (format : List UInt8) :
    (s.finish turn format).elim Scan.effects ScanResult.effects
      = s.effects ++ [turn.effect s.input] := by
  rw [Scan.finish]
  split <;> rfl

theorem finish_next {turn : Turn} (h : s.finish turn format = .inl s') :
    s'.input = turn.input ∧ s'.format = format := by
  rw [Scan.finish] at h
  split at h
  · cases h
    exact ⟨rfl, rfl⟩
  · cases h
  · cases h

/-- The set of a scanset. -/
def setOf (negated : Bool) (members : List UInt8) (c : UInt8) : Bool :=
  let bracket := members.head? == some closeBracket
  xor negated ((bracket && c == closeBracket) ||
    listed none (if bracket then members.drop 1 else members) c)

theorem parseSet_text {negated : Bool} {members : List UInt8} (h : ValidSet negated members)
    (format : List UInt8) :
    parseSet ((Kind.set negated members).behind ++ format) = (setOf negated members, format) := by
  obtain ⟨hne, hclose, hcaret⟩ := h
  obtain ⟨m, ms, rfl⟩ := exists_cons_of_ne_nil hne
  rw [tail_cons] at hclose
  have htake : ∀ {l : List UInt8}, closeBracket ∉ l →
      (l ++ closeBracket :: format).takeWhile (· ≠ closeBracket) = l := by
    intro l hl
    rw [takeWhile_append_of_pos]
    · simp
    · intro c hc
      simp only [decide_eq_true_eq]
      rintro rfl
      exact hl hc
  have hdrop : ∀ l : List UInt8, (l ++ closeBracket :: format).drop (l.length + 1) = format := by
    intro l
    have hassoc : l ++ closeBracket :: format = (l ++ [closeBracket]) ++ format := by simp
    rw [hassoc, drop_left' (by simp)]
  -- behind the caret, if there is one, comes the first member
  have hnegated : (((Kind.set negated (m :: ms)).behind ++ format).head? == some caret) = negated ∧
      (if negated then ((Kind.set negated (m :: ms)).behind ++ format).drop 1
        else (Kind.set negated (m :: ms)).behind ++ format) =
        m :: (ms ++ closeBracket :: format) := by
    cases negated with
    | true => simp [Kind.behind]
    | false =>
      have hm : m ≠ caret := by simpa using hcaret rfl
      simp [Kind.behind, hm]
  rw [parseSet]
  simp only [hnegated.1, hnegated.2]
  by_cases hm : m = closeBracket
  · simp only [hm, head?_cons, beq_self_eq_true, if_true, drop_succ_cons, drop_zero,
      htake hclose, hdrop]
    refine Prod.ext ?_ rfl
    funext c
    simp [setOf]
  · have hbracket : (some m == some closeBracket) = false := by simpa using hm
    have hmem : closeBracket ∉ m :: ms := by
      simp only [mem_cons, not_or]
      exact ⟨Ne.symm hm, hclose⟩
    have htake' := htake hmem
    have hdrop' := hdrop (m :: ms)
    rw [cons_append] at htake' hdrop'
    simp only [head?_cons, hbracket, Bool.false_eq_true, if_false, htake', hdrop']
    refine Prod.ext ?_ rfl
    funext c
    simp [setOf, hbracket]

/-! ### The iterations for each kind -/

section

variable (format : List UInt8) (conversions read : ℕ) (input : List UInt8)

theorem codeTurn_integer {kind : IntKind} (hkind : v.kind = .integer kind) :
    codeTurn float (.conversion v) format conversions read input
      = (intBranch kind v.spec conversions (skipSpace input), format) := by
  cases kind <;>
    simp [codeTurn, dispatch, Conversion.spec, hkind, Kind.letter, Kind.behind, IntKind.letter,
      intKind, openBracket]

theorem codeTurn_set {negated : Bool} {members : List UInt8}
    (hkind : v.kind = .set negated members) (hset : ValidSet negated members) :
    codeTurn float (.conversion v) format conversions read input
      = (setBranch (setOf negated members) v.spec conversions input, format) := by
  have hparse := parseSet_text hset format
  have hdispatch : codeTurn float (.conversion v) format conversions read input
      = (setBranch (parseSet (v.kind.behind ++ format)).1 v.spec conversions input,
        (parseSet (v.kind.behind ++ format)).2) := by
    simp [codeTurn, dispatch, Conversion.spec, hkind, Kind.letter, intKind, openBracket, percent]
  rw [hdispatch, hkind, hparse]

end

/-! ### What is left of a format -/

theorem length_widthLoop (sum : ℤ) (format : List UInt8) :
    (widthLoop sum format).2.length ≤ format.length := by
  fun_induction widthLoop sum format with
  | case3 _ _ _ _ _ _ ih => exact ih.trans (Nat.le_succ _)
  | _ => exact Nat.le_refl _

theorem length_parseWidth (format : List UInt8) :
    (parseWidth format).2.length ≤ format.length := by
  cases format with
  | nil => exact Nat.le_refl _
  | cons c format =>
    rw [parseWidth]
    split
    · exact length_widthLoop 0 (c :: format)
    · exact Nat.le_refl _

theorem length_parseSize (format : List UInt8) :
    (parseSize format).2.length ≤ format.length := by
  unfold parseSize
  split <;> simp <;> omega

theorem length_skipIf (b : Bool) (l : List UInt8) :
    (if b = true then l.drop 1 else l).length ≤ l.length := by
  cases b with
  | true =>
    rw [if_pos rfl, length_drop]
    omega
  | false => exact Nat.le_refl _

theorem length_parseSet (format : List UInt8) :
    (parseSet format).2.length ≤ format.length := by
  rw [parseSet]
  rw [length_drop]
  refine (Nat.sub_le _ _).trans ?_
  exact (length_skipIf _ _).trans (length_skipIf _ _)

theorem length_parseSpec (format : List UInt8) :
    match parseSpec format with
    | .ended => True
    | .unknown rest => rest.length ≤ format.length
    | .spec _ rest => rest.length ≤ format.length := by
  have hle := ((length_parseSize _).trans (length_parseWidth _)).trans
    (length_skipIf (format.head? == some asterisk) format)
  rw [parseSpec]
  dsimp only
  cases hrest : (parseSize (parseWidth
      (if (format.head? == some asterisk) = true then format.drop 1 else format)).2).2 with
  | nil => trivial
  | cons c rest =>
    rw [hrest] at hle
    dsimp only
    cases conversionType c with
    | none => exact hle
    | some letter => exact Nat.le_of_succ_le hle

end Iterations

end Clib4
