import Clib4.Path.UnixToAmiga

/-!
# Translating AmigaDOS path names

`__translate_amiga_to_unix_path_name` reduces the name, sets the volume aside, writes `../` for
each slash in front and copies the rest, and at last puts the volume in front as the first
component of an absolute name.  Each of its loops checks that the result stays within the
buffer.  The assertions of the source are not part of the model: the library is built without
them unless `DEBUG` is set.

## Main definitions

* `translateAmigaToUnixPathName` — the function, with what it leaves in `*name_ptr`.
-/

namespace Clib4

def maxUnixLen : ℕ := substituteSize - 1

/-- Append to the replacement buffer, if the text fits. -/
def appendText (replace text : List UInt8) : Except Errno (List UInt8) :=
  if maxUnixLen < replace.length + text.length then .error .ENAMETOOLONG else .ok (replace ++ text)

/-- The loop over the slashes in front of the name: the buffer, and what is left of the name. -/
def leadingLoop : List UInt8 → List UInt8 → Except Errno (List UInt8 × List UInt8)
  | replace, [] => .ok (replace, [])
  | replace, c :: name =>
    if c = slash then
      match appendText replace (dotDot ++ [slash]) with
      | .error e => .error e
      -- strip the trailing slash when the name is used up
      | .ok replace => leadingLoop (if name = [] then replace.dropLast else replace) name
    else .ok (replace, c :: name)

/-- The loop that copies the name; a slash that another one follows is more than a separator. -/
def copyLoop : List UInt8 → List UInt8 → Except Errno (List UInt8)
  | replace, [] => .ok replace
  | replace, c :: name =>
    match appendText replace
        (if c = slash ∧ name.head? = some slash then slash :: dotDot else [c]) with
    | .error e => .error e
    | .ok replace => copyLoop replace name

/-- A first component in front of a path. -/
def inFront (volume replace : List UInt8) : List UInt8 :=
  if replace = [] then slash :: volume else slash :: (volume ++ slash :: replace)

/-- Add the volume name.  An empty one stands for the device of the current directory:
`deviceName` is what `DevNameFromLock` stores, with its colon, unless it fails. -/
def addVolume (deviceName : Option (List UInt8)) (volume replace : List UInt8) :
    Except Errno (List UInt8) :=
  if maxUnixLen < 1 + volume.length + 1 + replace.length then .error .ENAMETOOLONG
  else if volume ≠ [] then .ok (inFront volume replace)
  else
    let device := (deviceName.getD []).dropLast
    if device ≠ [] then
      if maxUnixLen < 1 + device.length + 1 + replace.length then .error .ENAMETOOLONG
      else .ok (inFront device replace)
    else .ok (slash :: replace)

/-- The replacement for the part of a name behind the volume. -/
def replacement (name : List UInt8) : Except Errno (List UInt8) :=
  match leadingLoop [] name with
  | .error e => .error e
  | .ok (replace, name) => copyLoop replace name

/-- The replacement for a reduced name. -/
def unixName (deviceName : Option (List UInt8)) (name : List UInt8) : Except Errno (List UInt8) :=
  if name = [] then .ok [dot]
  else if colon ∈ name then
    let volume := name.takeWhile (· ≠ colon)
    match replacement (name.drop (volume.length + 1)) with
    | .error e => .error e
    | .ok replace => addVolume deviceName volume replace
  else replacement name

/-- `__translate_amiga_to_unix_path_name`: what is left in `*name_ptr`, and the result. -/
def translateAmigaToUnixPathName (deviceName : Option (List UInt8)) (name : List UInt8) :
    List UInt8 × Except Errno Unit :=
  if substituteSize ≤ name.length then (name, .error .ENAMETOOLONG)
  else if [slash, slash] <:+: name ∧ maxUnixLen < name.length then (name, .error .ENAMETOOLONG)
  else
    match unixName deviceName (reduceName name) with
    | .error e => (name, .error e)
    | .ok replace => (replace, .ok ())

end Clib4
