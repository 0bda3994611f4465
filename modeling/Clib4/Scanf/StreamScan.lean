import Clib4.Base.PushBack
import Clib4.Scanf.Scan

/-!
# vfscanf over a stream

The function with each of its calls of `__getc` and `__ungetc_r`, over any stream, and with the
conversions of floating point numbers.  What these compute is left to an `Arith`: the arithmetic
of `double` and `long double` takes part in the control flow only through its comparisons.

Almost every character that is pushed back has just been read.  The exception is the search for
a keyword (`inf`, `infinity`, `nan`): `lookAhead` may have to return all the letters it has read.

## Main definitions

* `spaceScanner`, `matchScanner`, `charScanner`, `stringScanner`, `intScanner`, `setScanner`,
  `floatScanner` — the branches of the loop.
-/

namespace Clib4

open PushBack PushBack.Prog

/-- A program that reads characters. -/
abbrev Scanner := Prog UInt8

/-- What a branch has done besides reading: `read` is `total_num_chars_read`, and `setTaken`
tells that the text of a set was skipped in the format. -/
structure Outcome where
  read : ℕ
  stored : Option Output := none
  converted : Bool := false
  assigned : Bool := false
  exit : Exit := .next
  setTaken : Bool := false
  deriving DecidableEq, Repr

/-- The character, if it satisfies the test. -/
def wanted (p : UInt8 → Prop) [DecidablePred p] (c : UInt8) : Option UInt8 :=
  if p c then some c else none

/-! ### White space, literals, characters -/

/-- Skip white space, and count it; the last character read is returned too. -/
def skipBlanks (read : ℕ) : Scanner (ℕ × Option UInt8) := do
  let (t, ending) ← Prog.readLoop (fun _ => true)
    (fun t c => if isSpace c then .take (t.1 + 1, some c) else .back (t.1, some c))
    ((read, none) : ℕ × Option UInt8)
  return (t.1, if ending = .ended then none else t.2)

/-- White space in the format. -/
def spaceScanner (conversions read : ℕ) : Scanner Outcome := do
  let (read, c) ← skipBlanks read
  return { read, exit := if c = none then atEnd conversions else .next }

/-- A character that must match exactly. -/
def matchScanner (c : UInt8) (conversions read : ℕ) : Scanner Outcome := do
  match ← Prog.accept (wanted (c = ·)) with
  | .ended => return { read, exit := atEnd conversions }
  | .taken _ => return { read := read + 1 }
  | .refused _ => return { read, exit := .leave }

/-- `%c`. -/
def charScanner (spec : Spec) (conversions read : ℕ) : Scanner Outcome := do
  let width := spec.width.getD 1
  let (taken, ending) ← Prog.readLoop (fun taken => decide (taken.length < width))
    (fun taken c => .take (taken ++ [c])) ([] : List UInt8)
  let read := read + taken.length
  if ending = .ended then
    return { read
             stored := if taken = [] then none else spec.store (.chars taken)
             exit := atEnd conversions }
  else
    return { read
             stored := spec.store (.chars taken)
             converted := true
             assigned := !spec.suppressed }

/-- The loops that read characters into a string. -/
def takeScanner (p : UInt8 → Bool) (width : Option ℕ) : Scanner (List UInt8 × Ending) := do
  let (t, ending) ← Prog.readLoop (fun t => decide (t.2 ≠ some 0))
    (fun t c => if p c then .take (t.1 ++ [c], narrow t.2) else .back t)
    (([], width) : List UInt8 × Option ℕ)
  return (t.1, ending)

/-- `%s`: counted even if nothing was read. -/
def stringScanner (spec : Spec) (conversions read : ℕ) : Scanner Outcome := do
  let (taken, ending) ← takeScanner (fun c => !isSpace c) spec.width
  if ending = .ended ∧ taken = [] ∧ conversions = 0 then
    return { read, stored := spec.store (.string []), exit := .out }
  else
    return { read := read + taken.length
             stored := spec.store (.string taken)
             converted := true
             assigned := !spec.suppressed }

/-- `%[`, once the set is known. -/
def setScanner (set : UInt8 → Bool) (spec : Spec) (conversions read : ℕ) : Scanner Outcome := do
  let (taken, ending) ← takeScanner set spec.width
  if taken = [] then
    return { read
             stored := spec.store (.string [])
             exit := if ending = .ended ∧ conversions = 0 then .out else .next
             setTaken := true }
  else
    return { read := read + taken.length
             stored := spec.store (.string taken)
             converted := true
             assigned := !spec.suppressed
             setTaken := true }

/-! ### Integers -/

/-- The state in front of the digits of an integer. -/
structure IntStart where
  negative : Bool := false
  radix : ℕ
  processed : ℕ := 0
  width : Option ℕ
  read : ℕ
  deriving DecidableEq, Repr

/-- Behind a leading zero, when the radix is open. -/
def zeroScanner (kind : IntKind) (width : Option ℕ) (read : ℕ) : Scanner IntStart := do
  match ← Prog.accept (wanted fun c => (c = 120 ∨ c = 88) ∧ (kind = .x ∨ kind = .i)) with
  | .ended => return { radix := 0, processed := 1, width, read }
  | .taken _ => return { radix := 16, width := narrow width, read := read + 1 }
  | .refused c =>
    if isDigit c ∧ kind = .i then return { radix := 8, width, read }
    else return { radix := 0, processed := 1, width, read }

/-- A sign, or a leading zero with what it may announce. -/
def signScanner (kind : IntKind) (width : Option ℕ) (read : ℕ) : Scanner IntStart := do
  if width = some 0 then return { radix := kind.radix, width, read }
  else
    match ← Prog.accept (wanted fun c => c = minus ∨ c = 43 ∨ c = 48) with
    | .taken c =>
      if c = minus then
        return { negative := true, radix := kind.radix, width := narrow width, read := read + 1 }
      else if c = 43 then
        return { radix := kind.radix, width := narrow width, read := read + 1 }
      else if kind.radix = 0 ∧ narrow width ≠ some 0 then
        zeroScanner kind (narrow width) (read + 1)
      else
        return { radix := kind.radix, processed := 1, width := narrow width, read := read + 1 }
    | _ => return { radix := kind.radix, width, read }

/-- The variables of the loop over the digits. -/
structure Digits where
  sum : UInt64 := 0
  processed : ℕ
  width : Option ℕ
  read : ℕ
  deriving DecidableEq, Repr

/-- One character of the digits. -/
def digitBody (size : Size) (radix : ℕ) (t : Digits) (c : UInt8) : Choice Digits :=
  let digit := digitValue radix c
  if radix ≤ digit then .back t
  else
    let next := UInt64.ofNat radix * t.sum + UInt64.ofNat digit
    if wrapped size next t.sum then .back t
    else .take ⟨next, t.processed + 1, narrow t.width, t.read + 1⟩

/-- `%d`, `%i`, `%o`, `%u` and `%x`. -/
def intScanner (kind : IntKind) (spec : Spec) (conversions read : ℕ) : Scanner Outcome := do
  let start ← signScanner kind spec.width read
  let (t, ending) ← Prog.readLoop (fun t => decide (t.width ≠ some 0))
    (digitBody spec.size (pickRadix kind start.radix))
    { processed := start.processed, width := start.width, read := start.read }
  if 0 < t.processed then
    let sum := if start.negative then -t.sum else t.sum
    return { read := t.read
             stored := spec.store (.integer spec.size (sum.toNat % 2 ^ spec.size.bits))
             converted := true
             assigned := !spec.suppressed }
  else
    return { read := t.read
             stored := spec.store (.integer spec.size 0)
             exit := if ending = .ended ∧ conversions = 0 then .out else .next }

/-! ### Floating point numbers -/

/-- The arithmetic of `long double` (`L`) and `double` (`D`), as far as it is used: the constants,
`radix * sum + digit`, `sum + digit * multiplier`, `1.0 / radix`, `multiplier / radix`, the power
of a radix, the scaling by it, and the bytes of a result in an object of the given size. -/
structure Arith (L D : Type) where
  zero : L
  infinity : L
  nan : L
  huge : L
  push : ℕ → L → ℕ → L
  less : L → L → Bool
  atLeast : L → L → Bool
  inverse : ℕ → D
  isZero : D → Bool
  addScaled : L → ℕ → D → L
  shrink : D → ℕ → D
  power : ℕ → ℤ → D
  divide : L → D → L
  times : L → D → L
  negate : L → L
  bytes : Size → L → List UInt8

/-- One character less of `maximum_field_width`, which is negative if there is no limit. -/
def lessWidth (width : ℤ) : ℤ := if 0 < width then width - 1 else width

/-- `tolower()` in the C locale. -/
def lower (c : UInt8) : UInt8 := if 65 ≤ c ∧ c ≤ 90 then c + 32 else c

/-- The sign of a floating point number: whether it is negative, the width and the count. -/
def floatSign (width : ℤ) (read : ℕ) : Scanner (Bool × ℤ × ℕ) := do
  if width = 0 then return (false, width, read)
  else
    match ← Prog.accept (wanted fun c => c = minus ∨ c = 43) with
    | .taken c => return (c == minus, lessWidth width, read + 1)
    | _ => return (false, width, read)

/-- The word `infinity`. -/
def infinityString : List UInt8 := [105, 110, 102, 105, 110, 105, 116, 121]

/-- The word `nan`. -/
def infinityNan : List UInt8 := [110, 97, 110]

/-- The search for a keyword: how much of each word was found, and `chars_read_so_far`; `failed`
tells that a character fits neither. -/
structure Keyword where
  width : ℤ
  infinity : ℕ := 0
  nan : ℕ := 0
  letters : List UInt8 := []
  failed : Bool := false
  deriving DecidableEq, Repr

/-- There is room in `chars_read_so_far`, and the field width is not used up. -/
def Keyword.goesOn (k : Keyword) : Bool := decide (k.width ≠ 0 ∧ k.letters.length < 80)

/-- Keep a letter. -/
def Keyword.keep (k : Keyword) (c : UInt8) (infinity nan : ℕ) : Keyword :=
  { k with infinity, nan, letters := k.letters ++ [c], width := lessWidth k.width }

/-- One character of the search. -/
def keywordBody (k : Keyword) (c : UInt8) : Choice Keyword :=
  if infinityString[k.infinity]? = some (lower c) then
    if k.infinity + 1 = infinityString.length then .last (k.keep c (k.infinity + 1) 0)
    else .take (k.keep c (k.infinity + 1) 0)
  else if k.infinity = 3 then .back { k with nan := 0 }
  else if infinityNan[k.nan]? = some (lower c) then
    if k.nan + 1 = infinityNan.length then .last (k.keep c 0 (k.nan + 1))
    else .take (k.keep c 0 (k.nan + 1))
  else .back { k with infinity := 0, nan := 0, failed := true }

/-- One character of the text in parentheses. -/
def parenBody (k : Keyword) (c : UInt8) : Choice Keyword :=
  let k' := { k with nan := k.nan + 1, width := lessWidth k.width }
  if c = 41 then .last k' else .take k'

/-- What may follow a `nan`: text in parentheses. -/
def nanScanner (k : Keyword) : Scanner Keyword := do
  if k.goesOn then
    match ← Prog.accept (wanted (· = 40)) with
    | .taken _ =>
      let (k, _) ← Prog.readLoop (fun k => decide (k.width ≠ 0)) parenBody
        { k with nan := k.nan + 1, width := lessWidth k.width }
      return k
    | _ => return k
  else return k

/-- Pick up a keyword if it is present.  If it fails, the letters are still to be returned. -/
def lookAhead (width : ℤ) : Scanner Keyword := do
  if width = 0 then return { width }
  else
    let (k, _) ← Prog.readLoop Keyword.goesOn keywordBody { width }
    if k.nan = infinityNan.length then nanScanner k else return k

/-- `maximum_field_width`, which is -1 if there is no limit. -/
def Spec.fieldWidth (spec : Spec) : ℤ :=
  match spec.width with
  | none => -1
  | some n => n

/-- The beginning of a conversion, up to the keyword. -/
def floatStart (spec : Spec) (read : ℕ) : Scanner (Bool × ℕ × Keyword) := do
  let (negative, width, read) ← floatSign spec.fieldWidth read
  let k ← lookAhead width
  return (negative, read, k)

/-- The variables of the conversion behind the keyword. -/
structure FloatState (L : Type) where
  width : ℤ
  read : ℕ
  processed : ℕ
  sum : L

/-- A character has been processed. -/
def FloatState.step {L : Type} (t : FloatState L) : FloatState L :=
  { t with width := lessWidth t.width, read := t.read + 1, processed := t.processed + 1 }

section Float

variable {L D : Type} (arith : Arith L D)

/-- A leading zero, and the prefix of a hexadecimal number: the radix. -/
def hexScanner (t : FloatState L) : Scanner (ℕ × FloatState L) := do
  if t.width = 0 then return (10, t)
  else
    match ← Prog.accept (wanted (· = 48)) with
    | .taken _ =>
      if t.step.width = 0 then return (10, t.step)
      else
        match ← Prog.accept (wanted (lower · = 120)) with
        | .taken _ => return (16, t.step.step)
        | _ => return (10, t.step)
    | _ => return (10, t)

/-- A digit in front of the decimal point. -/
def wholeBody (radix : ℕ) (t : FloatState L) (c : UInt8) : Choice (FloatState L) :=
  let digit := digitValue radix c
  if digit < radix then
    let next := arith.push radix t.sum digit
    if arith.less next t.sum then .back t else .take { t.step with sum := next }
  else .back t

/-- The character introduces an exponent. -/
def isExponent (radix : ℕ) (c : UInt8) : Bool :=
  decide ((radix = 10 ∧ (c = 101 ∨ c = 69)) ∨ (radix = 16 ∧ (c = 112 ∨ c = 80)))

/-- A digit behind the decimal point, or an exponent. -/
def fractionBody (radix : ℕ) (t : FloatState L × D × Bool) (c : UInt8) :
    Choice (FloatState L × D × Bool) :=
  let (t, multiplier, exponent) := t
  let digit := digitValue radix c
  if digit < radix then
    if arith.isZero multiplier then .take (t.step, multiplier, exponent)
    else
      let next := arith.addScaled t.sum digit multiplier
      if arith.less next t.sum then .back (t, multiplier, exponent)
      else .take ({ t.step with sum := next }, arith.shrink multiplier radix, exponent)
  else if isExponent radix c then .last (t.step, multiplier, true)
  else .back (t, multiplier, exponent)

/-- The decimal point with the digits behind it; and whether there is an exponent. -/
def pointScanner (radix : ℕ) (t : FloatState L) : Scanner (FloatState L × Bool) := do
  if t.width = 0 then return (t, false)
  else
    match ← Prog.accept (wanted fun c => c = 46 ∨ isExponent radix c = true) with
    | .taken c =>
      if c = 46 then
        let (t, _) ← Prog.readLoop (fun t => decide (t.1.width ≠ 0)) (fractionBody arith radix)
          ((t.step, arith.inverse radix, false) : FloatState L × D × Bool)
        return (t.1, t.2.2)
      else return ({ t.step with processed := t.processed }, true)
    | _ => return (t, false)

/-- A digit of the exponent, an `int`. -/
def exponentBody (radix : ℕ) (t : FloatState L × ℤ) (c : UInt8) :
    Choice (FloatState L × ℤ) :=
  let digit := if isDigit c then c.toNat - 48 else radix
  if digit < radix then
    let next := (radix * t.2 + digit).bmod (2 ^ 32)
    if next < t.2 then .back t else .take (t.1.step, next)
  else .back t

/-- Scale the number. -/
def Arith.scale (radix : ℕ) (negative : Bool) (exponent : ℤ) (sum : L) : L :=
  if exponent = 0 then sum
  else
    let power := arith.power radix exponent
    if negative then if arith.isZero power then sum else arith.divide sum power
    else
      let next := arith.times sum power
      if arith.atLeast next sum then next else arith.huge

/-- The digits of the exponent. -/
def exponentDigits (radix : ℕ) (negative : Bool) (t : FloatState L) : Scanner (FloatState L) := do
  let (t, _) ← Prog.readLoop (fun t => decide (t.1.width ≠ 0))
    (exponentBody (if radix = 16 then 2 else 10)) ((t, 0) : FloatState L × ℤ)
  return { t.1 with sum := arith.scale radix negative t.2 t.1.sum }

/-- The exponent. -/
def exponentScanner (radix : ℕ) (t : FloatState L) : Scanner (FloatState L) := do
  if t.width = 0 then return t
  else
    match ← Prog.accept (wanted fun c => c = minus ∨ c = 43) with
    | .ended => return t
    | .taken c => exponentDigits arith radix (c == minus) t.step
    | .refused _ => exponentDigits arith radix false t

/-- The digits of a number; nothing if the input has ended before the first conversion. -/
def numberScanner (conversions : ℕ) (t : FloatState L) : Scanner (Option (FloatState L)) := do
  let (radix, t) ← hexScanner t
  if t.width = 0 then return some t
  else
    let (t, ending) ← Prog.readLoop (fun t => decide (t.width ≠ 0)) (wholeBody arith radix) t
    if ending = .ended ∧ t.processed = 0 ∧ conversions = 0 then return none
    else
      let (t, exponent) ← pointScanner arith radix t
      if exponent then
        let t ← exponentScanner arith radix t
        return some t
      else return some t

/-- Store the number, if there is one. -/
def floatFinish (spec : Spec) (negative : Bool) (t : FloatState L) : Outcome :=
  if 0 < t.processed then
    { read := t.read
      stored := spec.store (.chars (arith.bytes spec.size
        (if negative then arith.negate t.sum else t.sum)))
      converted := true
      assigned := !spec.suppressed }
  else { read := t.read, stored := spec.store (.chars (arith.bytes spec.size arith.zero)) }

/-- The conversion behind the keyword: the count is set to the length of the keyword. -/
def floatRest (spec : Spec) (conversions : ℕ) (negative : Bool) (read : ℕ) (k : Keyword) :
    Scanner Outcome := do
  if 3 ≤ k.infinity then
    return floatFinish arith spec negative ⟨k.width, k.infinity, k.infinity, arith.infinity⟩
  else if 3 ≤ k.nan then
    return floatFinish arith spec negative ⟨k.width, k.nan, k.nan, arith.nan⟩
  else
    match ← numberScanner arith conversions ⟨k.width, read, 0, arith.zero⟩ with
    | none =>
      return {
        read, stored := spec.store (.chars (arith.bytes spec.size arith.zero)), exit := .out }
    | some t => return floatFinish arith spec negative t

/-- The letters of a keyword that has failed, to be returned to the stream one by one. -/
def Keyword.debt (k : Keyword) : List UInt8 := if k.failed then k.letters.reverse else []

/-- The field width is restored with them. -/
def Keyword.restored (k : Keyword) : Keyword :=
  if k.failed then { k with width := k.width + k.letters.length } else k

/-- `%f` and its relatives. -/
def floatScanner (spec : Spec) (conversions read : ℕ) : Scanner Outcome := do
  let (negative, read, k) ← floatStart spec read
  Prog.putBackAll k.debt (floatRest arith spec conversions negative read k.restored)

/-! ### The loop -/

/-- Skip white space, except for `%c`, `%n` and `%[`.  The variable `c` holds the conversion type,
or the next character of the input if white space has been skipped. -/
def blanksBefore (letter : UInt8) (read : ℕ) : Scanner (ℕ × Option UInt8) :=
  if letter = 99 ∨ letter = 110 ∨ letter = openBracket then pure (read, some letter)
  else skipBlanks read

/-- Execute a specification; `%%` and `%[` are told by the variable `c`. -/
def dispatchScanner (spec : Spec) (format : List UInt8) (conversions read : ℕ) :
    Scanner Outcome := do
  let (read, c) ← blanksBefore spec.letter read
  if spec.letter = 99 then charScanner spec conversions read
  else if spec.letter = 102 then floatScanner arith spec conversions read
  else
    match intKind spec.letter with
    | some kind => intScanner kind spec conversions read
    | none =>
      if spec.letter = 115 then stringScanner spec conversions read
      else if spec.letter = 110 then
        return { read, stored := spec.store (.integer spec.size (countBits spec.size read)) }
      else if c = some percent then matchScanner percent conversions read
      else if c = some openBracket then setScanner (parseSet format).1 spec conversions read
      else return { read }

/-- The variables of the loop, with the stream. -/
structure StreamState (σ : Type) where
  format : List UInt8
  stream : σ
  read : ℕ := 0
  conversions : ℕ := 0
  assignments : ℕ := 0
  effects : List Effect := []

variable {σ : Type} (io : Source UInt8 σ)

/-- The text that is no longer to be read. -/
def consumedBetween (before after : σ) : List UInt8 :=
  (io.rest before).take ((io.rest before).length - (io.rest after).length)

/-- Run a branch and end the iteration; `format` is the rest of the format. -/
def StreamState.runBranch (s : StreamState σ) (branch : Scanner Outcome) (format : List UInt8) :
    StreamState σ ⊕ ScanResult :=
  let (outcome, stream) := branch.run io s.stream
  let consumed := consumedBetween io s.stream stream
  match outcome with
  | none => .inr ⟨-1, s.effects ++ [{ consumed }]⟩
  | some o =>
    let effects := s.effects ++ [⟨consumed, o.stored, o.converted, o.assigned⟩]
    let assignments := s.assignments + if o.assigned then 1 else 0
    match o.exit with
    | .next =>
      .inl
        { format := if o.setTaken then (parseSet format).2 else format
          stream
          read := o.read
          conversions := s.conversions + if o.converted then 1 else 0
          assignments
          effects }
    | .leave => .inr ⟨assignments, effects⟩
    | .out => .inr ⟨-1, effects⟩

/-- What an iteration does: the branch that is run, and the format behind it. -/
inductive Move
  | stop
  | skip (format : List UInt8)
  | run (branch : Scanner Outcome) (format : List UInt8)

/-- The choice of an iteration. -/
def nextMove (s : StreamState σ) : Move :=
  match s.format with
  | [] => .stop
  | c :: format =>
    if isSpace c then .run (spaceScanner s.conversions s.read) format
    else if c ≠ percent then .run (matchScanner c s.conversions s.read) format
    else
      match parseSpec format with
      | .ended => .stop
      | .unknown format => .skip format
      | .spec spec format => .run (dispatchScanner arith spec format s.conversions s.read) format

/-- One iteration of the loop. -/
def streamBody (s : StreamState σ) : StreamState σ ⊕ ScanResult :=
  match nextMove arith s with
  | .stop => .inr ⟨s.assignments, s.effects⟩
  | .skip format => .inl { s with format, effects := s.effects ++ [{}] }
  | .run branch format => s.runBranch io branch format

/-- `vfscanf` over a stream: every iteration shortens the format. -/
def streamScan (format : List UInt8) (stream : σ) : Option ScanResult :=
  Loop.run (streamBody arith io) (format.length + 1) { format, stream }

end Float

end Clib4
