import Clib4.Base.Buffer
import Clib4.Base.Pipeline
import Clib4.Path.UnixToAmiga

/-!
# Translating Unix path names, in the buffer

The function of `UnixToAmiga` once more, now with the memory it works in: the string of the
caller, the buffer `nti->substitute` that the rewritten name is put into, the buffer
`volume_name`, and the pointer `name`, which starts in the string of the caller and moves into
the buffer with the first rewrite.  Lengths are of type `size_t`, so that a subtraction may wrap,
and a write outside of the buffers ends the run.

## Main definitions

* `NameState` — the variables of the function.
* `NameState.stages` — what it does to the name, in the order of the source.
-/

namespace Clib4

/-- A subtraction of numbers of type `size_t`. -/
def sizeSub (a b : ℕ) : ℕ := (a + 2 ^ 32 - b) % 2 ^ 32

theorem sizeSub_of_le {a b : ℕ} (h : b ≤ a) (ha : a < 2 ^ 32) : sizeSub a b = a - b := by
  rw [sizeSub, show a + 2 ^ 32 - b = a - b + 2 ^ 32 by omega, Nat.add_mod_right]
  exact Nat.mod_eq_of_lt (by omega)

/-- Memory from the first character of a string on: the string, its terminator and whatever
follows. -/
structure CString where
  memory : List UInt8
  terminated : 0 ∈ memory

/-- The characters of the string. -/
def CString.text (string : CString) : List UInt8 := string.memory.takeWhile (· ≠ 0)

/-- What `name` points at: a position in the string of the caller, or one in `nti->substitute`. -/
inductive NamePointer
  | source (offset : ℕ)
  | substitute (offset : ℕ)
  deriving DecidableEq

/-- `name + k`. -/
def NamePointer.add : NamePointer → ℕ → NamePointer
  | .source offset, k => .source (offset + k)
  | .substitute offset, k => .substitute (offset + k)

/-- Why the function does not go on: a write outside of the buffers, or `goto out` with an error
number. -/
inductive Halt
  | outOfBounds
  | failed (error : Errno)
  deriving DecidableEq

/-- The variables of `__translate_unix_to_amiga_path_name`. -/
structure NameState where
  source : List UInt8
  substitute : Buffer UInt8 substituteSize
  volumeName : Buffer UInt8 substituteSize
  volumeNameLen : ℕ
  name : NamePointer
  len : ℕ
  isRoot : Bool

namespace NameState

/-! ### Memory -/

def replace : NamePointer := .substitute 0

/-- The memory from the character on that `name` points at. -/
def ahead (m : NameState) : List UInt8 :=
  match m.name with
  | .source offset => m.source.drop offset
  | .substitute offset => m.substitute.cells.drop offset

/-- The string that `name` points at. -/
def text (m : NameState) : List UInt8 := m.ahead.takeWhile (· ≠ 0)

/-- `name[i]`. -/
def char (m : NameState) (i : ℕ) : UInt8 := m.ahead.getD i 0

/-- The characters `name[i]`, `name[i + 1]` and so on are those of the pattern. -/
def matchesAt (m : NameState) (pattern : List UInt8) (i : ℕ) : Bool :=
  pattern.isPrefixOf (m.ahead.drop i)

/-- The loops that look for a pattern, and stop one character short of the end for each of its
characters but one. -/
def occurs (m : NameState) (pattern : List UInt8) : Bool :=
  (List.range (sizeSub m.len (pattern.length - 1))).any (m.matchesAt pattern)

/-- Copy characters to `&replace[i]`. -/
def write (m : NameState) (i : ℕ) (characters : List UInt8) : Except Halt NameState :=
  match m.substitute.write i characters with
  | some substitute => .ok { m with substitute := substitute }
  | none => .error .outOfBounds

/-- The `n` characters from `name[k]` on. -/
def read (m : NameState) (k n : ℕ) : Except Halt (List UInt8) :=
  if k + n ≤ m.ahead.length then .ok (Splice.window m.ahead k n) else .error .outOfBounds

/-- `memmove(&replace[i], &name[k], n)`. -/
def memmove (m : NameState) (i k n : ℕ) : Except Halt NameState := do
  let characters ← m.read k n
  m.write i characters

/-- `name = replace`, `len` the new length, and `name[len] = '\0'`. -/
def finish (m : NameState) (len : ℕ) : Except Halt NameState :=
  ({ m with name := replace, len := len } : NameState).write len [0]

/-- `strcpy(replace, text)`, with `name = replace` and the new `len`. -/
def strcpy (m : NameState) (text : List UInt8) : Except Halt NameState := do
  let m ← m.write 0 (text ++ [0])
  return { m with name := replace, len := text.length }

/-- Move `n` characters to the buffer, unless the name starts there. -/
def toReplace (m : NameState) (n : ℕ) : Except Halt NameState :=
  if m.name = replace then .ok m
  else do
    let m ← m.memmove 0 0 n
    return { m with name := replace }

/-! ### Canonical names -/

/-- The loop that strips all but one of neighbouring slashes. -/
def squeezeLoop : ℕ → NameState → ℕ → ℕ → Bool → Except Halt (NameState × ℕ)
  | 0, m, _, j, _ => .ok (m, j)
  | n + 1, m, i, j, haveSlash =>
    if i < m.len then
      let c := m.char i
      if c = slash then
        if haveSlash then squeezeLoop n m (i + 1) j true
        else do
          let m ← m.write j [c]
          squeezeLoop n m (i + 1) (j + 1) true
      else do
        let m ← m.write j [c]
        squeezeLoop n m (i + 1) (j + 1) false
    else .ok (m, j)

/-- If there are neighbouring slashes, strip all but one. -/
def squeezeSlashes (m : NameState) : Except Halt NameState :=
  if 2 < m.len ∧ m.occurs [slash, slash] then do
    let (m, j) ← squeezeLoop m.len m 0 0 false
    m.finish j
  else .ok m

/-- The loop that counts the trailing slashes. -/
def trailingSlashes (m : NameState) : ℕ → ℕ → ℕ
  | 0, num => num
  | n + 1, num =>
    if num < sizeSub m.len 1 ∧ m.char (sizeSub m.len (num + 1)) = slash then
      m.trailingSlashes n (num + 1)
    else num

/-- Strip the trailing slashes, but not the first character. -/
def stripTrailingSlashes (m : NameState) : Except Halt NameState :=
  let num := m.trailingSlashes m.len 0
  if 1 < m.len ∧ 0 < num then do
    let len := sizeSub m.len num
    let m ← m.toReplace len
    m.finish len
  else .ok m

/-- The loop that ditches all leading `./`. -/
def leadingLoop : ℕ → NameState → NameState
  | 0, m => m
  | n + 1, m =>
    if 2 < m.len ∧ m.matchesAt [dot, slash] 0 then
      leadingLoop n { m with name := m.name.add 2, len := sizeSub m.len 2 }
    else m

/-- Ditch all leading `./`. -/
def dropLeadingDots (m : NameState) : Except Halt NameState := .ok (leadingLoop m.len m)

/-- The inner loop that skips `/.` in front of a slash. -/
def skipDots (m : NameState) : ℕ → ℕ → ℕ
  | 0, i => i
  | n + 1, i =>
    if i < sizeSub m.len 2 ∧ m.matchesAt [slash, dot, slash] i then m.skipDots n (i + 2) else i

/-- The loop that ditches all embedded `/./`. -/
def dropDotsLoop : ℕ → NameState → ℕ → ℕ → Except Halt (NameState × ℕ)
  | 0, m, _, j => .ok (m, j)
  | n + 1, m, i, j =>
    if i < m.len then
      let i := m.skipDots m.len i
      if i < m.len then do
        let m ← m.write j [m.char i]
        dropDotsLoop n m (i + 1) (j + 1)
      else dropDotsLoop n m (i + 1) j
    else .ok (m, j)

/-- Ditch all embedded `/./`. -/
def dropEmbeddedDots (m : NameState) : Except Halt NameState :=
  if 2 < m.len ∧ m.occurs [slash, dot, slash] then do
    let (m, j) ← dropDotsLoop m.len m 0 0
    m.finish j
  else .ok m

/-- A name that ends with `/.` is about the directory itself. -/
def dropTrailingDot (m : NameState) : Except Halt NameState :=
  if 2 ≤ m.len ∧ m.matchesAt [slash, dot] (sizeSub m.len 2) then
    if m.len = 2 then do
      let m ← m.strcpy [slash]
      m.finish 1
    else do
      let len := sizeSub m.len 2
      let m ← m.toReplace len
      m.finish len
  else .ok m

/-! ### Volumes -/

/-- The name starts with `text`, and a slash or nothing follows. -/
def startsWith (m : NameState) (text : List UInt8) : Bool :=
  m.matchesAt text 0 && (m.char text.length == slash || m.len == text.length)

/-- The first component becomes the volume: `volume_name_len` and `path_name_start` are where the
first component ends, and where the one behind it starts. -/
def componentToVolume (m : NameState) : Except Halt NameState := do
  let bounds := ((List.range' 1 m.len).find? fun i => i == m.len || m.char i == slash).elim (0, 0)
    fun i => (sizeSub i 1, if i < m.len then i + 1 else 0)
  let volumeNameLen := bounds.1
  let pathNameStart := bounds.2
  let m ← m.memmove 0 1 volumeNameLen
  let m ← m.write volumeNameLen [colon]
  if 0 < pathNameStart then do
    let m ← m.memmove (volumeNameLen + 1) pathNameStart (sizeSub m.len pathNameStart)
    m.finish (sizeSub m.len 1)
  else m.finish m.len

/-- `/tmp`, `/dev/null`, `/dev/random` and `/dev/urandom` are special; of any other absolute name
the first component becomes the volume. -/
def toVolume (m : NameState) : Except Halt NameState :=
  if m.startsWith slashTmp then
    if m.char 4 = slash then do
      let m ← m.memmove 2 5 (sizeSub m.len 5)
      let m ← m.write 0 tColon
      m.finish (sizeSub m.len 3)
    else do
      let m ← m.strcpy tColon
      m.finish 2
  else if m.startsWith slashDevNull then do
    let m ← m.strcpy nilColon
    m.finish 4
  else if m.startsWith slashDevRandom || m.startsWith slashDevUrandom then do
    let m ← m.strcpy randomColon
    m.finish 7
  else m.componentToVolume

/-- Check for an absolute name, and for the root directory. -/
def absoluteName (m : NameState) : Except Halt NameState :=
  if m.char 0 = slash then ({ m with isRoot := m.isRoot || m.len == 1 } : NameState).toVolume
  else .ok m

/-- Extract and remove the volume name, which has no slashes. -/
def extractVolume (m : NameState) : Except Halt NameState :=
  match (List.range m.len).find? (m.char · == colon) with
  | none => .ok { m with volumeNameLen := 0 }
  | some i =>
    if (List.range i).any (m.char · == slash) then .error (.failed .EINVAL)
    else do
      let volumeNameLen := i + 1
      let characters ← m.read 0 volumeNameLen
      match m.volumeName.write 0 characters with
      | none => .error .outOfBounds
      | some volumeName =>
        .ok { m with volumeName := volumeName, volumeNameLen := volumeNameLen,
                     name := m.name.add volumeNameLen, len := sizeSub m.len volumeNameLen }

/-- Look for extra colon characters. -/
def checkColons (m : NameState) : Except Halt NameState :=
  if (List.range m.len).any (m.char · == colon) then .error (.failed .EINVAL) else .ok m

/-! ### Double dots -/

/-- The loop that replaces embedded `/../` by `//`. -/
def dotDotsLoop : ℕ → NameState → ℕ → ℕ → Except Halt (NameState × ℕ)
  | 0, m, _, j => .ok (m, j)
  | n + 1, m, i, j =>
    if i < m.len then
      if i < sizeSub m.len 3 ∧ m.matchesAt [slash, dot, dot, slash] i then do
        let m ← m.write j [slash]
        let m ← m.write (j + 1) [m.char (i + 3)]
        dotDotsLoop n m (i + 4) (j + 2)
      else do
        let m ← m.write j [m.char i]
        dotDotsLoop n m (i + 1) (j + 1)
    else .ok (m, j)

/-- Replace all embedded `..`. -/
def replaceEmbeddedDotDots (m : NameState) : Except Halt NameState :=
  if 3 < m.len ∧ m.occurs [slash, dot, dot, slash] then do
    let (m, j) ← dotDotsLoop m.len m 0 0
    m.finish j
  else .ok m

/-- Translate a trailing `/..` to `//`. -/
def replaceTrailingDotDot (m : NameState) : Except Halt NameState :=
  if 3 ≤ m.len ∧ m.matchesAt (slash :: dotDot) (sizeSub m.len 3) then do
    let len := sizeSub m.len 2
    let m ← m.toReplace len
    let m ← m.write len [slash]
    m.finish (len + 1)
  else .ok m

/-- Translate a leading `../`. -/
def replaceLeadingDotDot (m : NameState) : Except Halt NameState :=
  if 3 ≤ m.len ∧ m.matchesAt (dotDot ++ [slash]) 0 then do
    let len := sizeSub m.len 2
    let m ← m.memmove 0 2 len
    m.finish len
  else .ok m

/-- Translate `..`. -/
def replaceDotDot (m : NameState) : Except Halt NameState :=
  if m.len = 2 ∧ m.matchesAt dotDot 0 then m.strcpy [slash] else .ok m

/-- Translate `.`. -/
def replaceDot (m : NameState) : Except Halt NameState :=
  if m.len = 1 ∧ m.char 0 = dot then m.strcpy [] else .ok m

/-! ### The end of the function -/

/-- Put the volume name in front of the name again. -/
def rejoin (m : NameState) : Except Halt NameState :=
  if 0 < m.volumeNameLen then do
    let m ← m.memmove m.volumeNameLen 0 m.len
    let m ← m.write 0 (m.volumeName.cells.take m.volumeNameLen)
    m.finish (m.len + m.volumeNameLen)
  else .ok m

/-- Reduce any `//` embedded in the name. -/
def reduceName (m : NameState) : Except Halt NameState :=
  if 1 < m.len ∧ m.occurs [slash, slash] then do
    let m ← m.toReplace m.len
    match (Loop.run stripIn (m.len * m.len + m.len + 1) (m.substitute, m.len, m.len)).getD
        (some (m.substitute, m.len)) with
    | some (fileName, len) => .ok { m with substitute := fileName, len := len }
    | none => .error .outOfBounds
  else .ok m

/-- What comes out as a name that ends with `:/` is the root directory. -/
def markRoot (m : NameState) : Except Halt NameState :=
  if 2 ≤ m.len ∧ m.matchesAt [colon, slash] (sizeSub m.len 2) then .ok { m with isRoot := true }
  else .ok m

/-- Check if the name would become too long to handle. -/
def checkLength (m : NameState) : Except Halt NameState :=
  if substituteSize ≤ m.len then .error (.failed .ENAMETOOLONG) else .ok m

/-- What is done to a name, in the order of the source. -/
def stages : List (NameState → Except Halt NameState) :=
  [checkLength, squeezeSlashes, stripTrailingSlashes, dropLeadingDots, dropEmbeddedDots,
    dropTrailingDot, absoluteName, extractVolume, checkColons, replaceEmbeddedDotDots,
    replaceTrailingDotDot, replaceLeadingDotDot, replaceDotDot, replaceDot, rejoin, reduceName,
    markRoot]

/-- The variables in the beginning. -/
def start (path : CString) (substitute volumeName : Buffer UInt8 substituteSize) : NameState where
  source := path.memory
  substitute := substitute
  volumeName := volumeName
  volumeNameLen := 0
  name := .source 0
  len := path.text.length
  isRoot := false

/-- A name with a colon is accepted as it is. -/
def stagesFor (path : CString) : List (NameState → Except Halt NameState) :=
  if colon ∈ path.text then [] else stages

end NameState

open NameState in
/-- `__translate_unix_to_amiga_path_name`; the buffers hold whatever they held before. -/
def translateInPlace (path : CString) (substitute volumeName : Buffer UInt8 substituteSize) :
    Except Halt NameState :=
  Pipeline.run (start path substitute volumeName) (stagesFor path)

end Clib4
