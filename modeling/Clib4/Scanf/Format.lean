import Mathlib.Tactic

/-!
# Formats of the scanf family

A format is a list of directives: white space, a literal character, `%%`, or a conversion with
an optional asterisk, field width and size.

## Main definitions

* `Size`, `Kind`, `Conversion`, `Directive` — the parts of a format.
* `ValidSet` — the text of a set is well formed.
-/

namespace Clib4

/-- `isspace()` in the C locale: tab, newline, vertical tab, form feed, carriage return, blank. -/
def isSpace (c : UInt8) : Bool := (9 ≤ c && c ≤ 13) || c == 32

/-- The character is a decimal digit. -/
def isDigit (c : UInt8) : Bool := 48 ≤ c && c ≤ 57

/-- The character `%`. -/
def percent : UInt8 := 37
/-- The character `[`. -/
def openBracket : UInt8 := 91
/-- The character `]`. -/
def closeBracket : UInt8 := 93
/-- The character `^`. -/
def caret : UInt8 := 94
/-- The character `*`. -/
def asterisk : UInt8 := 42
/-- The character `-`. -/
def minus : UInt8 := 45

/-- `parameter_size_t`. -/
inductive Size
  | byte
  | short
  | default
  | long
  | longLong
  | longDouble
  | intmax
  | sizeT
  | ptrdiff
  deriving DecidableEq, Repr

namespace Size

/-- The letters of a size. -/
def text : Size → List UInt8
  | .byte => [104, 104]
  | .short => [104]
  | .default => []
  | .long => [108]
  | .longLong => [108, 108]
  | .longDouble => [76]
  | .intmax => [106]
  | .sizeT => [122]
  | .ptrdiff => [116]

/-- The number of bits of an integer object of the size; a `long` has 32. -/
def bits : Size → ℕ
  | .byte => 8
  | .short => 16
  | .longLong => 64
  | .intmax => 64
  | _ => 32

end Size

/-- The integer conversions. -/
inductive IntKind
  | d
  | i
  | o
  | u
  | x
  deriving DecidableEq, Repr

/-- The letter of an integer conversion. -/
def IntKind.letter : IntKind → UInt8
  | .d => 100
  | .i => 105
  | .o => 111
  | .u => 117
  | .x => 120

/-- The kinds of conversions; a set is given by the text between its brackets, without the
caret. -/
inductive Kind
  | char
  | integer (kind : IntKind)
  | upperX
  | string
  | set (negated : Bool) (members : List UInt8)
  deriving DecidableEq, Repr

/-- The text of a kind. -/
def Kind.text : Kind → List UInt8
  | .char => [99]
  | .integer kind => [kind.letter]
  | .upperX => [88]
  | .string => [115]
  | .set negated members =>
    openBracket :: ((if negated then [caret] else []) ++ (members ++ [closeBracket]))

/-- A conversion specification; `width` holds the digits of the field width. -/
structure Conversion where
  suppressed : Bool := false
  width : List UInt8 := []
  size : Size := .default
  kind : Kind
  deriving DecidableEq, Repr

/-- The number that a list of digits denotes. -/
def decimal (digits : List UInt8) : ℕ := digits.foldl (fun n c => 10 * n + (c.toNat - 48)) 0

/-- The field width, if there is one. -/
def Conversion.fieldWidth (v : Conversion) : Option ℕ :=
  if v.width = [] then none else some (decimal v.width)

/-- The text of a conversion specification, behind the percent sign. -/
def Conversion.text (v : Conversion) : List UInt8 :=
  (if v.suppressed then [asterisk] else []) ++ (v.width ++ (v.size.text ++ v.kind.text))

/-- A directive of a format. -/
inductive Directive
  | space (c : UInt8)
  | literal (c : UInt8)
  | percent
  | conversion (v : Conversion)
  deriving DecidableEq, Repr

/-- The text of a directive. -/
def Directive.text : Directive → List UInt8
  | .space c => [c]
  | .literal c => [c]
  | .percent => [Clib4.percent, Clib4.percent]
  | .conversion v => Clib4.percent :: v.text

/-- The text of a set is well formed: it is not empty, a closing bracket is its first character
if anything, and it does not look negated unless it is. -/
def ValidSet (negated : Bool) (members : List UInt8) : Prop :=
  members ≠ [] ∧ closeBracket ∉ members.tail ∧ (negated = false → members.head? ≠ some caret)

end Clib4
