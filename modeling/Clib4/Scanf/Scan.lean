import Clib4.Base.Loop
import Clib4.Scanf.Format

/-!
# The loop of vfscanf

`vfscanf` reads the format character by character and executes each directive at once.  The
stream is the text that is left to read: a character that is pushed back has always just been
read.  Each iteration of the loop leaves an `Effect`: the text it took, what it stored in its
object, and whether it was counted.

The conversions of floating point numbers are a parameter, `float`: they are a part of the
function that shares nothing with the others but the counters.

## Main definitions

* `parseSpec` — the part of the loop that reads a conversion specification.
* `charBranch`, `intBranch`, `stringBranch`, `setBranch`, `percentBranch` — the conversions.
-/

namespace Clib4

/-- What an object holds after a conversion: the bits of an integer, characters, a string that
ends with a NUL, or wide characters. -/
inductive Output
  | integer (size : Size) (bits : ℕ)
  | chars (cs : List UInt8)
  | string (cs : List UInt8)
  | wide (cs : List UInt8)
  deriving DecidableEq, Repr

/-- What one iteration has done. -/
structure Effect where
  consumed : List UInt8 := []
  stored : Option Output := none
  converted : Bool := false
  assigned : Bool := false
  deriving DecidableEq, Repr

/-- How an iteration ends: the loop goes on, `break`, or `goto out`. -/
inductive Exit
  | next
  | leave
  | out
  deriving DecidableEq, Repr

/-- The outcome of a branch of the loop. -/
structure Turn where
  input : List UInt8
  stored : Option Output := none
  converted : Bool := false
  assigned : Bool := false
  exit : Exit := .next
  deriving DecidableEq, Repr

/-- The end of the input: an error before the first conversion, or the end of the loop. -/
def atEnd (conversions : ℕ) : Exit := if conversions = 0 then .out else .leave

/-! ### White space and literals -/

/-- Skip all blank spaces in the stream. -/
def skipSpace (input : List UInt8) : List UInt8 := input.dropWhile isSpace

/-- White space in the format. -/
def spaceBranch (conversions : ℕ) (input : List UInt8) : Turn :=
  let input := skipSpace input
  { input, exit := if input = [] then atEnd conversions else .next }

/-- A character that must match exactly. -/
def literalBranch (conversions : ℕ) (c : UInt8) : List UInt8 → Turn
  | [] => { input := [], exit := atEnd conversions }
  | d :: input => if c = d then { input } else { input := d :: input, exit := .leave }

/-! ### Conversion specifications -/

/-- A conversion specification as read from the format; `width` is `maximum_field_width`, and
`letter` the conversion type. -/
structure Spec where
  suppressed : Bool
  width : Option ℕ
  size : Size
  letter : UInt8
  deriving DecidableEq, Repr

/-- What follows a percent sign: the end of the format, an unknown letter, which is left to the
next iteration, or a specification. -/
inductive Parsed
  | ended
  | unknown (format : List UInt8)
  | spec (spec : Spec) (format : List UInt8)
  deriving DecidableEq, Repr

/-- The loop that reads the field width, with `int` arithmetic and its test for overflow. -/
def widthLoop : ℤ → List UInt8 → ℤ × List UInt8
  | sum, [] => (sum, [])
  | sum, c :: format =>
    if isDigit c then
      let next := (10 * sum + c.toNat - 48).bmod (2 ^ 32)
      if next < sum then (sum, c :: format) else widthLoop next format
    else (sum, c :: format)

/-- The field width, if there is one. -/
def parseWidth (format : List UInt8) : Option ℕ × List UInt8 :=
  match format with
  | [] => (none, [])
  | c :: _ =>
    if isDigit c then ((some (widthLoop 0 format).1.toNat), (widthLoop 0 format).2)
    else (none, format)

/-- The size: one letter, or two for `ll` and `hh`. -/
def parseSize : List UInt8 → Size × List UInt8
  | 104 :: 104 :: format => (.byte, format)
  | 104 :: format => (.short, format)
  | 106 :: format => (.intmax, format)
  | 108 :: 108 :: format => (.longLong, format)
  | 108 :: format => (.long, format)
  | 76 :: format => (.longDouble, format)
  | 116 :: format => (.ptrdiff, format)
  | 122 :: format => (.sizeT, format)
  | format => (.default, format)

/-- The letters of the conversions that have a type of their own. -/
def plainLetters : List UInt8 := [99, 100, 105, 110, 111, 115, 117, 120, 88, percent, openBracket]

/-- The letters of floating point conversions. -/
def floatLetters : List UInt8 := [97, 65, 101, 69, 102, 103, 71]

/-- The conversion type for a letter: a pointer is read like `%x`. -/
def conversionType (c : UInt8) : Option UInt8 :=
  if c = 112 then some 120
  else if c ∈ floatLetters then some 102
  else if c ∈ plainLetters then some c
  else none

/-- Read a specification, behind the percent sign. -/
def parseSpec (format : List UInt8) : Parsed :=
  let suppressed := format.head? == some asterisk
  let format := if suppressed then format.drop 1 else format
  let (width, format) := parseWidth format
  let (size, format) := parseSize format
  match format with
  | [] => .ended
  | c :: rest =>
    match conversionType c with
    | none => .unknown (c :: rest)
    | some letter => .spec ⟨suppressed, width, size, letter⟩ rest

/-! ### The conversions -/

/-- The object that is written to, unless the assignment is suppressed. -/
def Spec.store (spec : Spec) (output : Output) : Option Output :=
  if spec.suppressed then none else some output

/-- `%c`: exactly as many characters as the width says. -/
def charBranch (spec : Spec) (conversions : ℕ) (input : List UInt8) : Turn :=
  let width := spec.width.getD 1
  if width ≤ input.length then
    { input := input.drop width
      stored := spec.store (.chars (input.take width))
      converted := true
      assigned := !spec.suppressed }
  else
    { input := []
      stored := if input = [] then none else spec.store (.chars input)
      exit := atEnd conversions }

/-- The loops that read characters into a string: the characters, what is left, and whether the
end of the input was met. -/
def readWhile (p : UInt8 → Bool) : Option ℕ → List UInt8 → List UInt8 × List UInt8 × Bool
  | some 0, input => ([], input, false)
  | _, [] => ([], [], true)
  | width, c :: input =>
    if p c then
      let (taken, rest, ended) := readWhile p (width.map (· - 1)) input
      (c :: taken, rest, ended)
    else ([], c :: input, false)

/-- `%s`. -/
def stringBranch (spec : Spec) (conversions : ℕ) (input : List UInt8) : Turn :=
  let (taken, rest, ended) := readWhile (fun c => !isSpace c) spec.width input
  if ended ∧ taken = [] ∧ conversions = 0 then
    { input := rest, stored := spec.store (.string []), exit := .out }
  else
    -- counted even if nothing was read
    { input := rest
      stored := spec.store (.string taken)
      converted := true
      assigned := !spec.suppressed }

/-! ### Integers -/

/-- The letter is that of an integer conversion with a branch of its own. -/
def intKind (letter : UInt8) : Option IntKind :=
  if letter = 100 then some .d
  else if letter = 105 then some .i
  else if letter = 111 then some .o
  else if letter = 117 then some .u
  else if letter = 120 then some .x
  else none

/-- The value of a character as a digit; anything else counts as the radix. -/
def digitValue (radix : ℕ) (c : UInt8) : ℕ :=
  if 48 ≤ c ∧ c ≤ 57 then c.toNat - 48
  else if 97 ≤ c ∧ c ≤ 102 then c.toNat - 97 + 10
  else if 65 ≤ c ∧ c ≤ 70 then c.toNat - 65 + 10
  else radix

/-- One character less of the field width, if there is one. -/
def narrow (width : Option ℕ) : Option ℕ := width.map (· - 1)

/-- The state in front of the digits: whether a minus sign was read, the radix (zero if it is
still open), `num_chars_processed`, the width that is left and the input. -/
structure Prefixed where
  negative : Bool := false
  radix : ℕ
  processed : ℕ := 0
  width : Option ℕ
  input : List UInt8
  deriving DecidableEq, Repr

/-- The radix that a conversion starts with. -/
def IntKind.radix : IntKind → ℕ
  | .d => 10
  | .u => 10
  | .o => 8
  | .i => 0
  | .x => 0

/-- Behind a leading zero, when the radix is open: the prefix of a hexadecimal or of an octal
number. -/
def zeroPart (kind : IntKind) (width : Option ℕ) : List UInt8 → Prefixed
  | [] => { radix := 0, processed := 1, width, input := [] }
  | c :: input =>
    if (c = 120 ∨ c = 88) ∧ (kind = .x ∨ kind = .i) then
      { radix := 16, width := narrow width, input }
    else if isDigit c ∧ kind = .i then { radix := 8, width, input := c :: input }
    else { radix := 0, processed := 1, width, input := c :: input }

/-- A sign, or a leading zero with what it may announce. -/
def signPart (kind : IntKind) (width : Option ℕ) (input : List UInt8) : Prefixed :=
  if width = some 0 then { radix := kind.radix, width, input }
  else
    match input with
    | [] => { radix := kind.radix, width, input }
    | c :: rest =>
      if c = minus then
        { negative := true, radix := kind.radix, width := narrow width, input := rest }
      else if c = 43 then { radix := kind.radix, width := narrow width, input := rest }
      else if c = 48 then
        if kind.radix = 0 ∧ narrow width ≠ some 0 then zeroPart kind (narrow width) rest
        else { radix := kind.radix, processed := 1, width := narrow width, input := rest }
      else { radix := kind.radix, width, input }

/-- Pick a base if none has been chosen yet. -/
def pickRadix (kind : IntKind) (radix : ℕ) : ℕ :=
  if radix = 0 then if kind = .x then 16 else 10 else radix

/-- The test for overflow: the sum has become smaller, as an unsigned number of the object's
width, or of 32 bits if that is less. -/
def wrapped (size : Size) (next sum : UInt64) : Bool :=
  if size = .longLong ∨ size = .intmax then next < sum else next.toUInt32 < sum.toUInt32

/-- The loop over the digits: the sum, how many were processed, what is left, and whether the
end of the input was met. -/
def digitLoop (size : Size) (radix : ℕ) :
    Option ℕ → UInt64 → ℕ → List UInt8 → UInt64 × ℕ × List UInt8 × Bool
  | some 0, sum, processed, input => (sum, processed, input, false)
  | _, sum, processed, [] => (sum, processed, [], true)
  | width, sum, processed, c :: input =>
    let digit := digitValue radix c
    if radix ≤ digit then (sum, processed, c :: input, false)
    else
      let next := UInt64.ofNat radix * sum + UInt64.ofNat digit
      if wrapped size next sum then (sum, processed, c :: input, false)
      else digitLoop size radix (narrow width) next (processed + 1) input

/-- Read an integer: what is left, the bits of the object if there were digits, and whether the
end of the input was met. -/
def readInteger (kind : IntKind) (size : Size) (width : Option ℕ) (input : List UInt8) :
    List UInt8 × Option ℕ × Bool :=
  let start := signPart kind width input
  let (sum, processed, rest, ended) :=
    digitLoop size (pickRadix kind start.radix) start.width 0 start.processed start.input
  let sum := if start.negative then -sum else sum
  (rest, if 0 < processed then some (sum.toNat % 2 ^ size.bits) else none, ended)

/-- `%d`, `%i`, `%o`, `%u` and `%x`: the object is set to zero first. -/
def intBranch (kind : IntKind) (spec : Spec) (conversions : ℕ) (input : List UInt8) : Turn :=
  match readInteger kind spec.size spec.width input with
  | (rest, some bits, _) =>
    { input := rest
      stored := spec.store (.integer spec.size bits)
      converted := true
      assigned := !spec.suppressed }
  | (rest, none, ended) =>
    { input := rest
      stored := spec.store (.integer spec.size 0)
      exit := if ended ∧ conversions = 0 then .out else .next }

/-! ### Sets -/

/-- The characters that a scanset lists.  A minus sign between two characters is a range;
`previous` is the character in front. -/
def listed : Option UInt8 → List UInt8 → UInt8 → Bool
  | _, [], _ => false
  | _, [m], c => c == m
  | previous, m :: n :: rest, c =>
    match previous with
    | some first =>
      if m = minus then (first ≤ c && c ≤ n) || listed (some n) rest c
      else c == m || listed (some m) (n :: rest) c
    | none => c == m || listed (some m) (n :: rest) c

/-- The set that the text behind a bracket describes, and the format behind it. -/
def parseSet (format : List UInt8) : (UInt8 → Bool) × List UInt8 :=
  let negated := format.head? == some caret
  let format := if negated then format.drop 1 else format
  -- a bracket that introduces the range does not end it
  let bracket := format.head? == some closeBracket
  let format := if bracket then format.drop 1 else format
  let scanset := format.takeWhile (· ≠ closeBracket)
  let set c := (bracket && c == closeBracket) || listed none scanset c
  (fun c => xor negated (set c), format.drop (scanset.length + 1))

/-- `%[`, once the set is known. -/
def setBranch (set : UInt8 → Bool) (spec : Spec) (conversions : ℕ) (input : List UInt8) : Turn :=
  let (taken, rest, ended) := readWhile set spec.width input
  if taken = [] then
    { input := rest
      stored := spec.store (.string [])
      exit := if ended ∧ conversions = 0 then .out else .next }
  else
    { input := rest
      stored := spec.store (.string taken)
      converted := true
      assigned := !spec.suppressed }

/-! ### The choice -/

/-- The branch for the next character `c` being a percent sign: `c` is read again. -/
def percentBranch (conversions : ℕ) : List UInt8 → Turn
  | [] => { input := [], exit := atEnd conversions }
  | d :: input => if percent = d then { input } else { input := d :: input, exit := .leave }

/-- The bits that `%n` stores: `total_num_chars_read` is an `int`, which is extended with its sign
or cut to the size of the object. -/
def countBits (size : Size) (read : ℕ) : ℕ :=
  ((read : ℤ).bmod (2 ^ 32) % 2 ^ size.bits).toNat

/-- Execute a specification: the outcome, and the format behind it.  The last two branches are
chosen by the variable `c`.  For `%[` it still holds the bracket of the format; for `%%` and
`%X`, which come here too, it holds the next character of the input. -/
def dispatch (float : Spec → ℕ → List UInt8 → Turn) (spec : Spec) (format : List UInt8)
    (conversions read : ℕ) (input : List UInt8) : Turn × List UInt8 :=
  let keepsSpace := spec.letter = 99 ∨ spec.letter = 110 ∨ spec.letter = openBracket
  let input := if keepsSpace then input else skipSpace input
  if spec.letter = 99 then (charBranch spec conversions input, format)
  else if spec.letter = 102 then (float spec conversions input, format)
  else
    match intKind spec.letter with
    | some kind => (intBranch kind spec conversions input, format)
    | none =>
      if spec.letter = 115 then (stringBranch spec conversions input, format)
      else if spec.letter = 110 then
        ({ input, stored := spec.store (.integer spec.size (countBits spec.size read)) }, format)
      else
        let c := if spec.letter = openBracket then some openBracket else input.head?
        if c = some percent then (percentBranch conversions input, format)
        else if c = some openBracket then
          (setBranch (parseSet format).1 spec conversions input, (parseSet format).2)
        else ({ input }, format)

/-! ### The loop -/

/-- The variables of the loop, with the effects of the iterations so far. -/
structure Scan where
  format : List UInt8
  input : List UInt8
  read : ℕ := 0
  conversions : ℕ := 0
  assignments : ℕ := 0
  effects : List Effect := []
  deriving DecidableEq, Repr

/-- What the call returns, and the effects of all iterations. -/
structure ScanResult where
  result : ℤ
  effects : List Effect
  deriving DecidableEq, Repr

/-- The effect of a turn on the input that it started from. -/
def Turn.effect (turn : Turn) (input : List UInt8) : Effect :=
  { consumed := input.take (input.length - turn.input.length)
    stored := turn.stored
    converted := turn.converted
    assigned := turn.assigned }

/-- End an iteration. -/
def Scan.finish (s : Scan) (turn : Turn) (format : List UInt8) : Scan ⊕ ScanResult :=
  let effect := turn.effect s.input
  let effects := s.effects ++ [effect]
  let assignments := s.assignments + if turn.assigned then 1 else 0
  match turn.exit with
  | .next =>
    .inl
      { format
        input := turn.input
        read := s.read + effect.consumed.length
        conversions := s.conversions + if turn.converted then 1 else 0
        assignments
        effects }
  | .leave => .inr ⟨assignments, effects⟩
  | .out => .inr ⟨-1, effects⟩

/-- One iteration of the loop of `vfscanf`. -/
def scanBody (float : Spec → ℕ → List UInt8 → Turn) (s : Scan) : Scan ⊕ ScanResult :=
  match s.format with
  | [] => .inr ⟨s.assignments, s.effects⟩
  | c :: format =>
    if isSpace c then s.finish (spaceBranch s.conversions s.input) format
    else if c ≠ percent then s.finish (literalBranch s.conversions c s.input) format
    else
      match parseSpec format with
      | .ended => .inr ⟨s.assignments, s.effects⟩
      | .unknown format => s.finish { input := s.input } format
      | .spec spec format =>
        let (turn, format) := dispatch float spec format s.conversions s.read s.input
        s.finish turn format

/-- `vfscanf` from a given state of its loop: every iteration shortens the format. -/
def scanFrom (float : Spec → ℕ → List UInt8 → Turn) (s : Scan) : ScanResult :=
  (Loop.run (scanBody float) (s.format.length + 1) s).getD ⟨s.assignments, s.effects⟩

/-- `vfscanf` on the text of a string, as `vsscanf` calls it. -/
def vsscanf (float : Spec → ℕ → List UInt8 → Turn) (format input : List UInt8) : ScanResult :=
  scanFrom float { format, input }

end Clib4
