import Clib4.Scanf.Readers

/-!
# What a scanset denotes

The text between the brackets of `%[` lists characters and ranges: a minus sign that is neither
the first nor the last character of the text makes a range of the characters on its two sides.
The end of a range may begin another one, and the bounds of a range stand for nothing else.

`vfscanf` builds the set while it walks over the text, and departs from this in two ways.  It
has put the first character of a range into the set before it meets the minus sign, which shows
if the range is empty.  And it skips a closing bracket that introduces the text, so that a minus
sign right behind it counts as the first character.

## Main definitions

* `denoted`, `Scanset.denotes` — the characters that a text stands for.
* `strays` — the first characters of empty ranges.
* `Scanset.Scans` — `%[` reads the longest text of the field whose characters are denoted.
* `Scanset.Plain` — the texts that the code understands.

## Main results

* `listed_eq` — the characters that the code lists are those denoted, and the strays.
* `scans_iff_plain` — `%[` is right for a text just if the text is plain.
-/

namespace Clib4

/-- The text of a scanset: it may be negated, and a closing bracket can only be its first
character. -/
structure Scanset where
  negated : Bool
  members : List UInt8
  valid : ValidSet negated members
  noNul : 0 ∉ members

/-! ### The denotation -/

/-- The character in front of the rest of a text: there is none, it may still turn out to be the
first one of a range, or it was the last one of a range. -/
inductive Pending
  | nothing
  | loose (c : UInt8)
  | bound (c : UInt8)
  deriving DecidableEq, Repr

/-- The character in front, as the first one of a range. -/
def Pending.first : Pending → Option UInt8
  | .nothing => none
  | .loose c => some c
  | .bound c => some c

/-- What the character in front stands for if no range follows. -/
def Pending.own : Pending → UInt8 → Bool
  | .loose p, c => c == p
  | _, _ => false

/-- The characters that the rest of a text stands for, together with the one in front. -/
def denoted : Pending → List UInt8 → UInt8 → Bool
  | p, [], c => p.own c
  | p, [m], c => p.own c || c == m
  | p, m :: n :: rest, c =>
    match p.first with
    | some first =>
      if m = minus then (first ≤ c && c ≤ n) || denoted (.bound n) rest c
      else p.own c || denoted (.loose m) (n :: rest) c
    | none => denoted (.loose m) (n :: rest) c

/-- The characters that belong to the set. -/
def Scanset.denotes (t : Scanset) (c : UInt8) : Bool :=
  xor t.negated (denoted .nothing t.members c)

/-- The first characters of the ranges that are empty, unless they end a range before. -/
def strays : Pending → List UInt8 → List UInt8
  | _, [] => []
  | _, [_] => []
  | .nothing, m :: n :: rest => strays (.loose m) (n :: rest)
  | .loose first, m :: n :: rest =>
    if m = minus then (if n < first then [first] else []) ++ strays (.bound n) rest
    else strays (.loose m) (n :: rest)
  | .bound _, m :: n :: rest =>
    if m = minus then strays (.bound n) rest else strays (.loose m) (n :: rest)

/-! ### The characters that the code lists -/

theorem first_or_range (first n c : UInt8) :
    (c == first || (decide (first ≤ c) && decide (c ≤ n)))
      = ((decide (first ≤ c) && decide (c ≤ n)) ||
          decide (c ∈ if n < first then [first] else [])) := by
  by_cases hlt : n < first
  · rw [if_pos hlt, Bool.or_comm, beq_eq_decide]
    simp
  · rw [if_neg hlt]
    have hle : first ≤ n := UInt8.not_lt.1 hlt
    by_cases hc : c = first
    · subst hc
      simp [hle]
    · simp [hc]

/-- **The characters that the code lists** are those denoted, and the strays. -/
theorem listed_eq (p : Pending) (text : List UInt8) (c : UInt8) :
    (p.own c || listed p.first text c)
      = (denoted p text c || decide (c ∈ strays p text)) := by
  -- the code and the denotation look two characters ahead; so does the induction
  induction text using List.twoStepInduction generalizing p with
  | nil | singleton m => simp [listed, denoted, strays]
  | cons_cons m n rest ihrest ihtail =>
    have htail := ihtail n (.loose m)
    simp only [Pending.own, Pending.first] at htail
    have hbound := ihrest (.bound n)
    simp only [Pending.own, Pending.first, Bool.false_or] at hbound
    cases p with
    | nothing =>
      exact htail
    | loose first =>
      simp only [Pending.own, Pending.first, listed, denoted, strays]
      by_cases hm : m = minus
      · simp only [if_pos hm, List.mem_append, Bool.decide_or, hbound]
        rw [← Bool.or_assoc, first_or_range]
        generalize (decide (first ≤ c) && decide (c ≤ n)) = inside
        generalize decide (c ∈ if n < first then [first] else []) = stray
        cases inside <;> cases stray <;> simp
      · simp only [if_neg hm, htail, Bool.or_assoc]
    | bound first =>
      simp only [Pending.own, Pending.first, listed, denoted, strays, Bool.false_or]
      by_cases hm : m = minus
      · simp only [if_pos hm, hbound, Bool.or_assoc]
      · simp only [if_neg hm, htail]

theorem listed_none_eq (text : List UInt8) (c : UInt8) :
    listed none text c = (denoted .nothing text c || decide (c ∈ strays .nothing text)) := by
  simpa [Pending.own, Pending.first] using listed_eq .nothing text c

/-! ### The texts that are understood -/

/-- The text begins with a closing bracket as the first character of a range. -/
def Scanset.opensRange (t : Scanset) : Bool :=
  match t.members with
  | b :: m :: _ :: _ => b == closeBracket && m == minus
  | _ => false

/-- The texts that the code understands: the first characters of empty ranges are denoted
anyway.  If a closing bracket begins a range, the bracket, the minus sign and the rest must
denote the same set when they are taken one by one. -/
def Scanset.Plain (t : Scanset) : Prop :=
  if t.opensRange then
    ∀ c, (c = closeBracket ∨ denoted .nothing t.members.tail c = true ∨
        c ∈ strays .nothing t.members.tail) ↔ denoted .nothing t.members c = true
  else ∀ c ∈ strays .nothing t.members, denoted .nothing t.members c = true

/-- A character in front of which no range begins stands for itself. -/
theorem denoted_loose {b : UInt8} {text : List UInt8} (h : ∀ n rest, text ≠ minus :: n :: rest)
    (c : UInt8) : denoted (.loose b) text c = (c == b || denoted .nothing text c) := by
  match text, h with
  | [], _ => simp [denoted, Pending.own]
  | [m], _ => simp [denoted, Pending.own]
  | m :: n :: rest, h =>
    have hm : m ≠ minus := fun hm => h n rest (by rw [hm])
    simp [denoted, Pending.own, Pending.first, hm]

theorem strays_loose {b : UInt8} {text : List UInt8} (h : ∀ n rest, text ≠ minus :: n :: rest) :
    strays (.loose b) text = strays .nothing text := by
  match text, h with
  | [], _ => rfl
  | [m], _ => rfl
  | m :: n :: rest, h =>
    have hm : m ≠ minus := fun hm => h n rest (by rw [hm])
    simp [strays, hm]

theorem opensRange_iff (t : Scanset) :
    t.opensRange = true ↔ ∃ n rest, t.members = closeBracket :: minus :: n :: rest := by
  rw [Scanset.opensRange]
  constructor
  · intro h
    split at h
    case h_1 b m n rest heq =>
      simp only [Bool.and_eq_true, beq_iff_eq] at h
      exact ⟨n, rest, by rw [heq, h.1, h.2]⟩
    case h_2 => cases h
  · rintro ⟨n, rest, heq⟩
    rw [heq]
    rfl

/-- The set of the code, for a text with a closing bracket in front. -/
theorem setOf_bracket (negated : Bool) (text : List UInt8) (c : UInt8) :
    setOf negated (closeBracket :: text) c = xor negated
      (c == closeBracket || (denoted .nothing text c || decide (c ∈ strays .nothing text))) := by
  simp [setOf, listed_none_eq]

theorem setOf_of_ne {m : UInt8} (hm : m ≠ closeBracket) (negated : Bool) (text : List UInt8)
    (c : UInt8) : setOf negated (m :: text) c = xor negated
      (denoted .nothing (m :: text) c || decide (c ∈ strays .nothing (m :: text))) := by
  simp [setOf, listed_none_eq, hm]

/-- If no bracket begins a range, the code adds the strays to the set and nothing else. -/
theorem setOf_eq (t : Scanset) (h : t.opensRange = false) (c : UInt8) :
    setOf t.negated t.members c = xor t.negated
      (denoted .nothing t.members c || decide (c ∈ strays .nothing t.members)) := by
  obtain ⟨m, text, hmembers⟩ := List.exists_cons_of_ne_nil t.valid.1
  rw [hmembers]
  by_cases hm : m = closeBracket
  · rw [hm, setOf_bracket]
    have hplain : ∀ n rest, text ≠ minus :: n :: rest := by
      rintro n rest rfl
      have hopens := (opensRange_iff t).2 ⟨n, rest, by rw [hmembers, hm]⟩
      rw [hopens] at h
      cases h
    rw [← Bool.or_assoc, ← denoted_loose hplain]
    cases text with
    | nil => simp [denoted, strays, Pending.own]
    | cons k text =>
      rw [← strays_loose (b := closeBracket) hplain]
      rfl
  · exact setOf_of_ne hm t.negated text c

theorem xor_left_inj (b x y : Bool) : xor b x = xor b y ↔ x = y := by
  cases b <;> simp

/-- **The code's set is the one denoted just if the text is plain.** -/
theorem setOf_eq_denotes_iff (t : Scanset) :
    (∀ c, setOf t.negated t.members c = t.denotes c) ↔ t.Plain := by
  rw [Scanset.Plain]
  split
  case isTrue h =>
    obtain ⟨n, rest, hmembers⟩ := (opensRange_iff t).1 h
    refine forall_congr' fun c => ?_
    rw [Scanset.denotes, hmembers, setOf_bracket, xor_left_inj, List.tail_cons, Bool.eq_iff_iff]
    simp only [Bool.or_eq_true, beq_iff_eq, decide_eq_true_eq]
  case isFalse h =>
    refine forall_congr' fun c => ?_
    rw [setOf_eq t (by simpa using h), Scanset.denotes, xor_left_inj]
    cases denoted .nothing t.members c <;> simp

/-! ### Scanning -/

section Scanning

variable (float : Spec → ℕ → List UInt8 → Turn)

/-- The text that `%[` should take from the input. -/
def Scanset.field (t : Scanset) (v : Conversion) (input : List UInt8) : List UInt8 :=
  (limit v.fieldWidth input).takeWhile t.denotes

/-- **`%[` is right for a text**: in every state of the loop in which the format goes on with
the conversion, whatever its width, the longest text of the field whose characters are denoted
is stored and taken from the input, and nothing else. -/
def Scanset.Scans (t : Scanset) : Prop :=
  ∀ (v : Conversion) (s : Scan) (format : List UInt8), v.kind = .set t.negated t.members →
    v.Readable → s.format = (Directive.conversion v).text ++ format →
    (∃ effect, effectsAfter float s = s.effects ++ [effect] ∧
      effect.stored = v.spec.store (.string (t.field v s.input)) ∧
      effect.consumed = t.field v s.input) ∧
    ∀ s', scanBody float s = .inl s' →
      s'.input = s.input.drop (t.field v s.input).length ∧ s'.format = format

theorem setBranch_spec (set : UInt8 → Bool) (spec : Spec) (conversions : ℕ) (input : List UInt8) :
    (setBranch set spec conversions input).input
      = input.drop ((limit spec.width input).takeWhile set).length ∧
    (setBranch set spec conversions input).stored
      = spec.store (.string ((limit spec.width input).takeWhile set)) := by
  obtain ⟨htaken, hrest⟩ := readWhile_eq set spec.width input
  rw [setBranch]
  dsimp only
  split
  case isTrue hnil =>
    rw [hrest, ← htaken, hnil]
    exact ⟨rfl, rfl⟩
  case isFalse => exact ⟨hrest, by rw [htaken]⟩

theorem scanBody_set {t : Scanset} {v : Conversion} (hkind : v.kind = .set t.negated t.members)
    (hv : v.Readable) {s : Scan} {format : List UInt8}
    (hs : s.format = (Directive.conversion v).text ++ format) :
    scanBody float s
      = s.finish (setBranch (setOf t.negated t.members) v.spec s.conversions s.input) format := by
  rw [scanBody_conversion float hv s hs, codeTurn_set float _ _ _ _ hkind t.valid]

/-- The conversion with a scanset alone, for which a single character shows whether it is in the
set. -/
theorem setOf_of_scans {t : Scanset} (h : t.Scans float) (c : UInt8) :
    setOf t.negated t.members c = t.denotes c := by
  let v : Conversion := { kind := .set t.negated t.members }
  have hreadable : v.Readable := by
    refine ⟨?_, ?_⟩
    · intro d hd
      cases hd
    · intro n hn
      cases hn
  let s : Scan := { format := (Directive.conversion v).text ++ [], input := [c] }
  obtain ⟨⟨effect, heff, hstored, -⟩, -⟩ := h v s [] rfl hreadable rfl
  rw [effectsAfter, scanBody_set float rfl hreadable rfl, finish_effects] at heff
  obtain rfl : (setBranch (setOf t.negated t.members) v.spec 0 [c]).effect [c] = effect := by
    simpa using heff
  have hspec := (setBranch_spec (setOf t.negated t.members) v.spec 0 [c]).2
  rw [Turn.effect, hspec] at hstored
  have htaken : [c].takeWhile (setOf t.negated t.members) = [c].takeWhile t.denotes := by
    simpa [Spec.store, Conversion.spec, v, Scanset.field, limit, Conversion.fieldWidth]
      using hstored
  cases hcode : setOf t.negated t.members c <;> cases htext : t.denotes c <;>
    simp [hcode, htext] at htaken ⊢

/-- **`%[` reads the longest text of the field whose characters the scanset denotes just if the
scanset is plain**: no empty range has a first character that the text does not denote
otherwise, and no range begins at a closing bracket that introduces the text, unless the set is
the same without it. -/
theorem scans_iff_plain (t : Scanset) : t.Scans float ↔ t.Plain := by
  rw [← setOf_eq_denotes_iff]
  constructor
  · exact fun h => setOf_of_scans float h
  · intro hset v s format hkind hv hs
    have hbody := scanBody_set float hkind hv hs
    obtain ⟨hinput, hstored⟩ :=
      setBranch_spec (setOf t.negated t.members) v.spec s.conversions s.input
    have hfield : (limit v.spec.width s.input).takeWhile (setOf t.negated t.members)
        = t.field v s.input := by
      rw [funext hset]
      rfl
    rw [hfield] at hinput hstored
    have hprefix : t.field v s.input <+: s.input :=
      (List.takeWhile_prefix _).trans (prefix_limit _ _)
    refine ⟨⟨_, by rw [effectsAfter, hbody, finish_effects], hstored, ?_⟩, ?_⟩
    · rw [Turn.effect, hinput]
      exact take_of_drop hprefix
    · intro s' hs'
      rw [hbody] at hs'
      obtain ⟨hnext, hformat⟩ := finish_next hs'
      exact ⟨hnext.trans hinput, hformat⟩

/-- The text of `%[]-a]`: the characters from the bracket to the letter. -/
def bracketToLetter : Scanset where
  negated := false
  members := [closeBracket, minus, 97]
  valid := ⟨by decide, by decide, by decide⟩
  noNul := by decide

/-- An underscore is denoted by `%[]-a]`, and is not read. -/
theorem bracketToLetter_not_scanned :
    bracketToLetter.field { kind := .set false [closeBracket, minus, 97] } [95] = [95] ∧
    vsscanf (fun _ _ input => { input }) [percent, openBracket, closeBracket, minus, 97,
      closeBracket] [95] = ⟨0, [{ stored := some (.string []) }]⟩ := by
  decide

end Scanning

end Clib4
