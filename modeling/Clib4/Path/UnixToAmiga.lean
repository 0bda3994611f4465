import Clib4.Errno
import Clib4.Path.StripDoubleSlash

/-!
# Translating Unix path names

`__translate_unix_to_amiga_path_name` is a sequence of rewrites of a string: double slashes,
slashes at the end, single dots in three places, the first component of an absolute name, which
becomes the volume, double dots in three places, and at last what has become redundant.  Each
rewrite is a function here; a rewrite that reads and writes one buffer from left to right is a
recursion over the characters.

## Main definitions

* `squeezeSlashes`, `stripTrailingSlashes`, `dropLeadingDots`, `dropEmbeddedDots`,
  `dropTrailingDot` — the rewrites that make the name canonical.
* `volumeName` — the name with a volume for its first component, or a device for a special name.
* `replaceEmbeddedDotDots`, `replaceTrailingDotDot`, `replaceLeadingDotDot` — the rewrites of
  double dots.
-/

namespace Clib4

/-- `sizeof(nti->substitute)`. -/
def substituteSize : ℕ := 1024

/-- What is left in `*name_ptr` and in `nti->is_root`. -/
structure TranslatedName where
  name : List UInt8
  isRoot : Bool
  deriving DecidableEq, Repr

/-! ### Canonical names -/

/-- The loop that strips all but one of neighbouring slashes, with `have_slash`. -/
def squeezeLoop : Bool → List UInt8 → List UInt8
  | _, [] => []
  | haveSlash, c :: name =>
    if c = slash then
      if haveSlash then squeezeLoop true name else c :: squeezeLoop true name
    else c :: squeezeLoop false name

/-- If there are neighbouring slashes, strip all but one. -/
def squeezeSlashes (name : List UInt8) : List UInt8 :=
  if 2 < name.length ∧ [slash, slash] <:+: name then squeezeLoop false name else name

/-- Strip the trailing slashes, but not the first character. -/
def stripTrailingSlashes (name : List UInt8) : List UInt8 :=
  let trailing := (name.reverse.takeWhile (· == slash)).length
  name.take (name.length - min trailing (name.length - 1))

/-- Ditch all leading `./`. -/
def dropLeadingDots : List UInt8 → List UInt8
  | [] => []
  | [c] => [c]
  | c :: d :: rest =>
    if c = dot ∧ d = slash ∧ rest ≠ [] then dropLeadingDots rest else c :: d :: rest

/-- The loop that ditches all embedded `/./`. -/
def dropDotsLoop : List UInt8 → List UInt8
  | [] => []
  | [c] => [c]
  | c :: d :: rest =>
    -- the second slash of a match may start another one
    if c = slash ∧ d = dot ∧ rest.head? = some slash then dropDotsLoop rest
    else c :: dropDotsLoop (d :: rest)

/-- Ditch all embedded `/./`. -/
def dropEmbeddedDots (name : List UInt8) : List UInt8 :=
  if 2 < name.length ∧ [slash, dot, slash] <:+: name then dropDotsLoop name else name

/-- A name that ends with `/.` is about the directory itself. -/
def dropTrailingDot (name : List UInt8) : List UInt8 :=
  if [slash, dot] <:+ name then
    if name.length = 2 then [slash] else name.take (name.length - 2)
  else name

/-- The rewrites up to here. -/
def canonicalName (name : List UInt8) : List UInt8 :=
  dropTrailingDot (dropEmbeddedDots (dropLeadingDots (stripTrailingSlashes (squeezeSlashes name))))

/-! ### Volumes -/

/-- The name starts with `text`, and what follows is a component of its own. -/
def startsWith (name text : List UInt8) : Bool :=
  text <+: name && (name.length == text.length || name[text.length]? == some slash)

/-- `/tmp`. -/
def slashTmp : List UInt8 := [47, 116, 109, 112]
/-- `/dev/null`. -/
def slashDevNull : List UInt8 := [47, 100, 101, 118, 47, 110, 117, 108, 108]
/-- `/dev/random`. -/
def slashDevRandom : List UInt8 := [47, 100, 101, 118, 47, 114, 97, 110, 100, 111, 109]
/-- `/dev/urandom`. -/
def slashDevUrandom : List UInt8 := [47, 100, 101, 118, 47, 117, 114, 97, 110, 100, 111, 109]
/-- `T:`. -/
def tColon : List UInt8 := [84, 58]
/-- `NIL:`. -/
def nilColon : List UInt8 := [78, 73, 76, 58]
/-- `RANDOM:`. -/
def randomColon : List UInt8 := [82, 65, 78, 68, 79, 77, 58]

/-- An absolute name, which starts with a slash: a few special names, or the first component
becomes the volume. -/
def volumeName (name : List UInt8) : List UInt8 :=
  if startsWith name slashTmp then tColon ++ name.drop 5
  else if startsWith name slashDevNull then nilColon
  else if startsWith name slashDevRandom || startsWith name slashDevUrandom then randomColon
  else
    let rest := name.drop 1
    let volume := rest.takeWhile (· ≠ slash)
    volume ++ colon :: rest.drop (volume.length + 1)

/-! ### Double dots -/

/-- The loop that replaces embedded `/../` by `//`. -/
def dotDotsLoop : List UInt8 → List UInt8
  | [] => []
  | c :: d :: e :: f :: rest =>
    if c = slash ∧ d = dot ∧ e = dot ∧ f = slash then slash :: slash :: dotDotsLoop rest
    else c :: dotDotsLoop (d :: e :: f :: rest)
  | c :: name => c :: dotDotsLoop name

/-- Replace all embedded `..`. -/
def replaceEmbeddedDotDots (name : List UInt8) : List UInt8 :=
  if 3 < name.length ∧ [slash, dot, dot, slash] <:+: name then dotDotsLoop name else name

/-- Translate a trailing `/..` to `//`. -/
def replaceTrailingDotDot (name : List UInt8) : List UInt8 :=
  if slash :: dotDot <:+ name then name.take (name.length - 2) ++ [slash] else name

/-- Translate a leading `../`. -/
def replaceLeadingDotDot (name : List UInt8) : List UInt8 :=
  if dotDot ++ [slash] <+: name then name.drop 2 else name

/-- Translate `..` and `.`. -/
def replaceDots (name : List UInt8) : List UInt8 :=
  let name := if name = dotDot then [slash] else name
  if name = [dot] then [] else name

/-- All rewrites of dots behind the volume. -/
def translateDots (name : List UInt8) : List UInt8 :=
  replaceDots (replaceLeadingDotDot (replaceTrailingDotDot (replaceEmbeddedDotDots name)))

/-- Reduce any `//` embedded in the name. -/
def reduceName (name : List UInt8) : List UInt8 :=
  if 1 < name.length ∧ [slash, slash] <:+: name then stripDoubleSlash name else name

/-! ### The function -/

def translateUnixToAmigaPathName (name : List UInt8) : Except Errno TranslatedName :=
  if colon ∈ name then .ok ⟨name, false⟩
  else if substituteSize ≤ name.length then .error .ENAMETOOLONG
  else
    let canonical := canonicalName name
    let absolute := canonical.head? = some slash
    let isRoot := canonical = [slash]
    let name := if absolute then volumeName canonical else canonical
    -- extract the volume name; extra colons don't belong here
    let volume := if colon ∈ name then name.takeWhile (· ≠ colon) ++ [colon] else []
    let rest := name.drop volume.length
    if slash ∈ volume ∨ colon ∈ rest then .error .EINVAL
    else
      let result := reduceName (volume ++ translateDots rest)
      .ok ⟨result, isRoot ∨ [colon, slash] <:+ result⟩

end Clib4
