import Clib4.Args.ArgInit
import Clib4.Base.Buffer

/-!
# Arguments that are passed to a program

`execve` joins the arguments of a program to one string, and the startup code of the program cuts
the string into its words again.  An argument in which there is blank space or a quote is put in
quotes.  But an empty argument is left out, and carriage returns and vertical tabs and form feeds
are blank space to the startup code and not to `execve`.  The length of the string is computed in
32 bits, and nobody looks whether it has more.

## Main definitions

* `buildArgString`, `getArgStringLength` — the string, and the length that is reserved for it.
* `execveArgString` — the string that the program gets.
* `argsSize` — how many characters the arguments take in a string.
* `Inside` — no byte is stored outside of the blocks.

## Main results

* `argStrings_inside_iff` — **when the string fits** the memory that is reserved for it.
* `args_survive_iff` — **which arguments survive.**
-/

namespace Clib4

open Splice List

/-! ### The code -/

def stringNeedsQuoting (s : List UInt8) : Bool :=
  s.any fun c => c == 32 || c == 160 || c == 9 || c == 10 || c == quote

def countExtraEscapeChars (s : List UInt8) : ℕ :=
  s.countP fun c => c == quote || c == star || c == 10

/-- The loop of `get_arg_string_length` over the arguments behind the first; its sums are of type
`size_t`. -/
def argStringLengthFrom : ℕ → List (List UInt8) → ℕ
  | result, [] => result
  | result, s :: argv =>
    if 0 < s.length then
      let len :=
        if s.head? ≠ some quote ∧ stringNeedsQuoting s = true then
          s.length + (1 + countExtraEscapeChars s + 1)
        else s.length
      argStringLengthFrom ((if result = 0 then len else result + 1 + len) % 2 ^ 32) argv
    else argStringLengthFrom result argv

def getArgStringLength (argv : List (List UInt8)) : ℕ := argStringLengthFrom 0 argv.tail

/-- What is stored for a character of an argument in quotes. -/
def quotedChar (c : UInt8) : List UInt8 :=
  if c = quote ∨ c = star then [star, c] else if c = 10 then [star, 78] else [c]

/-- What is stored for an argument. -/
def argItem (s : List UInt8) : List UInt8 :=
  if s.head? ≠ some quote ∧ stringNeedsQuoting s = true then
    quote :: (s.flatMap quotedChar ++ [quote])
  else s

/-- The loop of `build_arg_string` over the arguments behind the first: what it stores. -/
def argStringFrom : Bool → List (List UInt8) → List UInt8
  | _, [] => []
  | firstChar, s :: argv =>
    if 0 < s.length then
      (if firstChar then argItem s else 32 :: argItem s) ++ argStringFrom false argv
    else argStringFrom firstChar argv

def buildArgString (argv : List (List UInt8)) : List UInt8 := argStringFrom true argv.tail

/-- A script: the arguments of its interpreter, if there are any, and its path. -/
structure Script where
  interpreterArgs : Option (List UInt8)
  path : List UInt8

/-- What stands in front of the arguments of a script. -/
def Script.front : Script → List UInt8
  | ⟨some args, path⟩ => args ++ 32 :: (path ++ [32])
  | ⟨none, path⟩ => path ++ [32]

/-- The size of the block that `execve` allocates, of type `size_t`. -/
def execveSize (argv : List (List UInt8)) : Option Script → ℕ
  | some ⟨some args, path⟩ =>
    (args.length + 1 + path.length + 1 + getArgStringLength argv + 1 + 1) % 2 ^ 32
  | some ⟨none, path⟩ => (path.length + 1 + getArgStringLength argv + 1 + 1) % 2 ^ 32
  | none => (getArgStringLength argv + 1 + 1) % 2 ^ 32

/-- The size of the block that `spawnvpe` allocates. -/
def spawnvpeSize (argv : List (List UInt8)) : ℕ := (getArgStringLength argv + 1) % 2 ^ 32

/-- The stores in a block: the arguments, from `len` on, and what ends the string.  There is no
result if a byte outside of the block is stored. -/
def storeArgs {size : ℕ} (argv : List (List UInt8)) (len : ℕ) (ending : List UInt8)
    (block : Buffer UInt8 size) : Option (Buffer UInt8 size) := do
  let n := getArgStringLength argv
  let block ← (if 0 < n then block.write len (buildArgString argv) else some block)
  block.write ((len + n) % 2 ^ 32) ending

def execveStores {size : ℕ} (script : Option Script) (argv : List (List UInt8))
    (block : Buffer UInt8 size) : Option (Buffer UInt8 size) := do
  let front := script.elim [] Script.front
  storeArgs argv front.length [10, 0] (← block.write 0 front)

def spawnvpeStores {size : ℕ} (argv : List (List UInt8)) (block : Buffer UInt8 size) :
    Option (Buffer UInt8 size) :=
  storeArgs argv 0 [0] block

/-- The argument string of `execve`, for a command that is not a script, in the block that `malloc`
returns. -/
def execveArgString {size : ℕ} (argv : List (List UInt8)) (block : Buffer UInt8 size) :
    Option (List UInt8) :=
  (execveStores none argv block).map fun block => stringAt block.cells 0

/-! ### The length -/

theorem length_flatMap_quotedChar (s : List UInt8) :
    (s.flatMap quotedChar).length = s.length + countExtraEscapeChars s := by
  induction s with
  | nil => rfl
  | cons c s ih =>
    have hc : (quotedChar c).length
        = 1 + if (c == quote || c == star || c == 10) = true then 1 else 0 := by
      unfold quotedChar
      by_cases h₁ : c = quote ∨ c = star
      · rcases h₁ with rfl | rfl <;> rfl
      · by_cases h₂ : c = 10
        · subst h₂
          rfl
        · simp [h₁, h₂]
    rw [flatMap_cons, length_append, ih, countExtraEscapeChars,
      countExtraEscapeChars, countP_cons, length_cons]
    omega

/-- How many characters an argument takes in a string. -/
def argSize (s : List UInt8) : ℕ :=
  if s.head? ≠ some quote ∧ stringNeedsQuoting s = true then
    s.length + (1 + countExtraEscapeChars s + 1)
  else s.length

/-- How many characters the arguments that are not empty take in a string, with a blank between
them. -/
def argsSize (args : List (List UInt8)) : ℕ :=
  ((args.filter (0 < ·.length)).map fun s => argSize s + 1).sum - 1

theorem length_argItem (s : List UInt8) : (argItem s).length = argSize s := by
  unfold argItem argSize
  split
  · rw [length_cons, length_append, length_flatMap_quotedChar, length_singleton]
    omega
  · rfl

variable {s : List UInt8} {argv : List (List UInt8)}

theorem argSize_pos (h : 0 < s.length) : 0 < argSize s := by
  unfold argSize
  split <;> omega

theorem length_argStringFrom (firstChar : Bool) (argv : List (List UInt8)) :
    (argStringFrom firstChar argv).length =
      ((argv.filter (0 < ·.length)).map fun s => argSize s + 1).sum - firstChar.toNat := by
  induction argv generalizing firstChar with
  | nil => exact (Nat.zero_sub _).symm
  | cons s argv ih =>
    rw [argStringFrom]
    by_cases hs : 0 < s.length
    · rw [if_pos hs, filter_cons_of_pos (by simpa using hs), map_cons, sum_cons, length_append,
        ih false]
      cases firstChar with
      | true =>
        rw [if_pos rfl, length_argItem]
        simp only [Bool.toNat_true, Bool.toNat_false]
        omega
      | false =>
        rw [if_neg Bool.false_ne_true, length_cons, length_argItem]
        rfl
    · rw [if_neg hs, filter_cons_of_neg (by simpa using hs), ih]

theorem length_buildArgString (argv : List (List UInt8)) :
    (buildArgString argv).length = argsSize argv.tail :=
  length_argStringFrom true argv.tail

theorem argStringLengthFrom_lt {result : ℕ} (h : result < 2 ^ 32) :
    argStringLengthFrom result argv < 2 ^ 32 := by
  fun_induction argStringLengthFrom result argv with
  | case1 => exact h
  | case2 result s argv hs len ih => exact ih (Nat.mod_lt _ (by decide))
  | case3 result s argv hs ih => exact ih h

theorem getArgStringLength_lt (argv : List (List UInt8)) : getArgStringLength argv < 2 ^ 32 :=
  argStringLengthFrom_lt (by decide)

/-- The two loops agree as long as the length has 32 bits; a separator is stored exactly if
something has been counted. -/
theorem argStringLengthFrom_eq {result : ℕ} {firstChar : Bool}
    (h : firstChar = true ↔ result = 0)
    (hfits : result + (argStringFrom firstChar argv).length < 2 ^ 32) :
    argStringLengthFrom result argv = result + (argStringFrom firstChar argv).length := by
  fun_induction argStringFrom firstChar argv generalizing result with
  | case1 => rfl
  | case2 firstChar s argv hs ih =>
    have hpos := argSize_pos hs
    -- what has been counted with this argument
    have hcount : result + (if firstChar = true then argItem s else 32 :: argItem s).length =
        if result = 0 then argSize s else result + 1 + argSize s := by
      simp only [h]
      split
      · rw [length_argItem]
        omega
      · rw [length_cons, length_argItem]
        omega
    rw [length_append, ← Nat.add_assoc, hcount] at hfits ⊢
    simp only [argStringLengthFrom, if_pos hs]
    rw [← argSize]
    rw [Nat.mod_eq_of_lt (by omega)]
    exact ih (iff_of_false Bool.false_ne_true (by split <;> omega)) hfits
  | case3 firstChar s argv hs ih =>
    rw [argStringLengthFrom, if_neg hs]
    exact ih h hfits

/-- The length is right if it has 32 bits. -/
theorem getArgStringLength_eq (argv : List (List UInt8)) (h : argsSize argv.tail < 2 ^ 32) :
    getArgStringLength argv = argsSize argv.tail := by
  rw [← length_buildArgString, buildArgString, ← Nat.zero_add (length _)] at h ⊢
  exact argStringLengthFrom_eq (by simp) h

/-! ### The stores -/

/-- If the length is right, then everything is stored that fits. -/
theorem storeArgs_eq_some {size : ℕ} (front ending : List UInt8) (block : Buffer UInt8 size)
    (hlen : (buildArgString argv).length = getArgStringLength argv)
    (hsize : front.length + getArgStringLength argv + ending.length ≤ size) (hlt : size < 2 ^ 32)
    (hfront : front <+: block.cells) :
    ∃ b, storeArgs argv front.length ending block = some b ∧
      front ++ buildArgString argv ++ ending <+: b.cells := by
  have hbuilt : ∃ b, (if 0 < getArgStringLength argv then
      block.write front.length (buildArgString argv) else some block) = some b ∧
      front ++ buildArgString argv <+: b.cells := by
    split
    · obtain ⟨b, hb, hcells⟩ := block.exists_write
        (show front.length + (buildArgString argv).length ≤ size by omega)
      exact ⟨b, hb, Buffer.append_prefix_of_write hfront hcells⟩
    · next hzero =>
      have hnil : buildArgString argv = [] := length_eq_zero_iff.1 (by omega)
      rw [hnil, append_nil]
      exact ⟨block, rfl, hfront⟩
  obtain ⟨b, hb, hprefix⟩ := hbuilt
  have hat : (front.length + getArgStringLength argv) % 2 ^ 32
      = (front ++ buildArgString argv).length := by
    rw [length_append, hlen, Nat.mod_eq_of_lt (by omega)]
  obtain ⟨b', hb', hcells⟩ := b.exists_write
    (show (front ++ buildArgString argv).length + ending.length ≤ size by
      rw [length_append]; omega)
  refine ⟨b', ?_, Buffer.append_prefix_of_write hprefix hcells⟩
  simp only [storeArgs, hb, hat]
  exact hb'

theorem le_of_storeArgs {size len : ℕ} {ending : List UInt8} {block b : Buffer UInt8 size}
    (h : storeArgs argv len ending block = some b) (hpos : 0 < getArgStringLength argv) :
    len + (buildArgString argv).length ≤ size := by
  simp only [storeArgs, if_pos hpos] at h
  obtain ⟨b', hb', -⟩ := Option.bind_eq_some_iff.1 h
  exact Buffer.le_of_write hb'

/-- The size of the block of `execve`, with what stands in front of the arguments. -/
theorem execveSize_eq (argv : List (List UInt8)) (script : Option Script) :
    execveSize argv script =
      ((script.elim [] Script.front).length + getArgStringLength argv + 2) % 2 ^ 32 := by
  rcases script with - | ⟨- | args, path⟩ <;> simp [execveSize, Script.front]
  congr 1
  omega

theorem execveStores_cases {size : ℕ} {script : Option Script} {block b : Buffer UInt8 size}
    (h : execveStores script argv block = some b) :
    ∃ b', block.write 0 (script.elim [] Script.front) = some b' ∧
      storeArgs argv (script.elim [] Script.front).length [10, 0] b' = some b :=
  Option.bind_eq_some_iff.1 h

theorem execveStores_eq_some (script : Option Script)
    (hlen : (buildArgString argv).length = getArgStringLength argv)
    (hfits : (script.elim [] Script.front).length + getArgStringLength argv + 2 < 2 ^ 32)
    (block : Buffer UInt8 (execveSize argv script)) :
    ∃ b, execveStores script argv block = some b ∧
      script.elim [] Script.front ++ buildArgString argv ++ [10, 0] <+: b.cells := by
  have hsize := execveSize_eq argv script
  rw [Nat.mod_eq_of_lt hfits] at hsize
  obtain ⟨b, hb, hcells⟩ := block.exists_write
    (show 0 + (script.elim [] Script.front).length ≤ execveSize argv script by omega)
  simp only [execveStores, hb]
  exact storeArgs_eq_some _ _ b hlen hsize.ge (by omega) (Buffer.begins_of_write hcells)

/-- **No byte is stored outside** of the blocks that `execve` and `spawnvpe` allocate: what is
built has the length that was computed, and all of it is stored inside. -/
structure Inside (argv : List (List UInt8)) (script : Option Script) : Prop where
  length : (buildArgString argv).length = getArgStringLength argv
  execve : ∀ block : Buffer UInt8 (execveSize argv script),
    (execveStores script argv block).isSome
  spawnvpe : ∀ block : Buffer UInt8 (spawnvpeSize argv), (spawnvpeStores argv block).isSome

/-- The whole string has 32 bits for its length. -/
def StringFits (argv : List (List UInt8)) (script : Option Script) : Prop :=
  (script.elim [] Script.front).length + argsSize argv.tail + 2 < 2 ^ 32

theorem inside_of_stringFits {script : Option Script} (h : StringFits argv script) :
    Inside argv script := by
  unfold StringFits at h
  have hlen := getArgStringLength_eq argv (by omega)
  have hbuilt := (length_buildArgString argv).trans hlen.symm
  refine ⟨hbuilt, fun block => ?_, fun block => ?_⟩
  · obtain ⟨b, hb, -⟩ := execveStores_eq_some script hbuilt (by omega) block
    exact Option.isSome_of_eq_some hb
  · have hsize : spawnvpeSize argv = getArgStringLength argv + 1 := Nat.mod_eq_of_lt (by omega)
    obtain ⟨b, hb, -⟩ := storeArgs_eq_some [] [0] block hbuilt (by simp [hsize]) (by omega)
      nil_prefix
    exact Option.isSome_of_eq_some hb

/-- A block of zeros. -/
def zeroBlock (size : ℕ) : Buffer UInt8 size := ⟨List.replicate size 0, length_replicate⟩

/-- Memory for a length that has lost its upper bits is too small for what is stored first. -/
theorem stringFits_of_inside {script : Option Script} (h : Inside argv script) :
    StringFits argv script := by
  have hlen := h.length
  rw [length_buildArgString] at hlen
  obtain ⟨b, hb⟩ := Option.isSome_iff_exists.1 (h.execve (zeroBlock _))
  obtain ⟨b', hb', hstore⟩ := execveStores_cases hb
  have hfront := Buffer.le_of_write hb'
  have hsize := execveSize_eq argv script
  unfold StringFits
  by_cases hpos : 0 < getArgStringLength argv
  · have hargs := le_of_storeArgs hstore hpos
    rw [length_buildArgString] at hargs
    omega
  · omega

/-- **When the string fits.**  No byte is stored outside of the blocks of `execve` and `spawnvpe`
exactly if the length of the whole string of `execve` has 32 bits. -/
theorem argStrings_inside_iff (argv : List (List UInt8)) (script : Option Script) :
    Inside argv script ↔ StringFits argv script :=
  ⟨stringFits_of_inside, inside_of_stringFits⟩

theorem argsSize_replicate (n k : ℕ) :
    argsSize (List.replicate n (List.replicate (k + 1) 97)) = n * (k + 2) - 1 := by
  have hplain : stringNeedsQuoting (List.replicate (k + 1) 97) = false := by
    simp [stringNeedsQuoting, quote]
  have hsize : argSize (List.replicate (k + 1) 97) = k + 1 := by
    rw [argSize, if_neg (by simp [hplain]), length_replicate]
  rw [argsSize, filter_replicate_of_pos (by simp), map_replicate, hsize, sum_replicate,
    smul_eq_mul]

/-- 65536 times the same string of 65535 characters. -/
def longArgs : List (List UInt8) := List.replicate 65536 (List.replicate 65535 97)

/-- For them `malloc` is asked for a single byte. -/
theorem longArgs_outside :
    execveSize ([] :: longArgs) none = 1 ∧ ¬ Inside ([] :: longArgs) none := by
  have hsize : argsSize longArgs = 65536 * (65534 + 2) - 1 := argsSize_replicate 65536 65534
  constructor
  · rw [execveSize, getArgStringLength_eq _ (by rw [tail_cons, hsize]; decide), tail_cons, hsize]
    decide
  · intro h
    have hfits := stringFits_of_inside h
    rw [StringFits, tail_cons, hsize] at hfits
    exact absurd hfits (by decide)

/-! ### The string -/

theorem zero_notMem_argItem (h : 0 ∉ s) : 0 ∉ argItem s := by
  have hchar : ∀ c ∈ s, 0 ∉ quotedChar c := by
    intro c hc hmem
    have hne : c ≠ 0 := fun heq => h (heq ▸ hc)
    unfold quotedChar at hmem
    split at hmem
    · simp [star, hne.symm] at hmem
    split at hmem
    · simp [star] at hmem
    · simp [hne.symm] at hmem
  unfold argItem
  split
  · simp only [mem_cons, mem_append, mem_flatMap, not_or]
    refine ⟨by decide, ?_, by decide⟩
    rintro ⟨c, hc, hmem⟩
    exact hchar c hc hmem
  · exact h

theorem zero_notMem_argStringFrom (h : ∀ s ∈ argv, 0 ∉ s) (firstChar : Bool) :
    0 ∉ argStringFrom firstChar argv := by
  fun_induction argStringFrom firstChar argv with
  | case1 => exact not_mem_nil
  | case2 firstChar s argv _ ih =>
    have hs := zero_notMem_argItem (h s mem_cons_self)
    rw [mem_append, not_or]
    refine ⟨?_, ih fun t ht => h t (mem_cons_of_mem _ ht)⟩
    split
    · exact hs
    · simp only [mem_cons, not_or]
      exact ⟨by decide, hs⟩
  | case3 firstChar s argv _ ih => exact ih fun t ht => h t (mem_cons_of_mem _ ht)

theorem execveArgString_eq (hargv : ∀ s ∈ argv.tail, 0 ∉ s) (h : StringFits argv none)
    (block : Buffer UInt8 (execveSize argv none)) :
    execveArgString argv block = some (buildArgString argv ++ [10]) := by
  unfold StringFits at h
  have hlen := getArgStringLength_eq argv (by omega)
  obtain ⟨b, hb, rest, hcells⟩ := execveStores_eq_some none
    ((length_buildArgString argv).trans hlen.symm) (by omega) block
  have hbuilt : 0 ∉ buildArgString argv ++ [10] := by
    rw [mem_append, not_or]
    exact ⟨zero_notMem_argStringFrom hargv true, by decide⟩
  have hstring : b.cells = [] ++ ((buildArgString argv ++ [10]) ++ 0 :: rest) := by
    simp [← hcells]
  rw [execveArgString, hb, Option.map_some, hstring]
  exact congrArg some (HasString.of_append hbuilt [] rest).stringAt_eq

/-- If the length has lost its upper bits and all is stored inside, then it has lost everything:
no argument is stored. -/
theorem execveArgString_of_not_fits {l : List UInt8} (h : ¬ StringFits argv none)
    {block : Buffer UInt8 (execveSize argv none)} (hl : execveArgString argv block = some l) :
    l = [10] := by
  obtain ⟨b, hb, rfl⟩ := Option.map_eq_some_iff.1 hl
  obtain ⟨b', hb', hstore⟩ := execveStores_cases hb
  have hsize := execveSize_eq argv none
  change execveSize argv none = (0 + getArgStringLength argv + 2) % 2 ^ 32 at hsize
  have hlt := getArgStringLength_lt argv
  change ¬ 0 + argsSize argv.tail + 2 < 2 ^ 32 at h
  by_cases hpos : 0 < getArgStringLength argv
  · have hargs := le_of_storeArgs hstore hpos
    rw [length_buildArgString] at hargs
    change 0 + argsSize argv.tail ≤ execveSize argv none at hargs
    have hsame := getArgStringLength_eq argv
    omega
  · have hzero : getArgStringLength argv = 0 := by omega
    simp only [storeArgs, hzero, lt_irrefl, if_false] at hstore
    obtain ⟨b'', hb'', hcells⟩ := b'.exists_write
      (show 0 + [10, 0].length ≤ execveSize argv none by rw [hsize, hzero]; decide)
    have heq : b'' = b := Option.some.inj (hb''.symm.trans hstore)
    subst heq
    obtain ⟨rest, hrest⟩ := Buffer.begins_of_write hcells
    rw [← hrest]
    exact (HasString.of_append (w := [10]) (by decide) [] rest).stringAt_eq

/-! ### The words -/

theorem unquote_quotedChar (s : List UInt8) {rest : List UInt8} (h : Breaks rest) :
    unquote star (s.flatMap quotedChar ++ quote :: rest) = (s, rest) := by
  induction s with
  | nil => exact unquote_of_final star ⟨rfl, h⟩
  | cons c s ih =>
    rw [flatMap_cons, append_assoc]
    generalize s.flatMap quotedChar ++ quote :: rest = t at ih
    unfold quotedChar
    by_cases hesc : c = quote ∨ c = star
    · rw [if_pos hesc]
      have hself : escaped c = c := by rcases hesc with rfl | rfl <;> rfl
      change (escaped c :: (unquote star t).1, (unquote star t).2) = _
      rw [ih, hself]
    · rw [if_neg hesc]
      by_cases hlf : c = 10
      · subst hlf
        rw [if_pos rfl]
        change (escaped 78 :: (unquote star t).1, (unquote star t).2) = _
        rw [ih]
        rfl
      · rw [not_or] at hesc
        have hplain : ¬ isEscapeCharacter star c = true := by simp [isEscapeCharacter, hesc.2]
        rw [if_neg hlf, cons_append, unquote_of_plain star (fun hf => hesc.1 hf.1) hplain]
        change (c :: (unquote star t).1, (unquote star t).2) = _
        rw [ih]

theorem exists_spells (h : quote ∉ s) :
    ∃ ws, Spells star s ws ∧ ∀ w ∈ ws, w ≠ [] ∧ ∀ c ∈ w, isArgSpace c = false := by
  induction hn : s.length using Nat.strong_induction_on generalizing s with
  | _ n ih =>
    cases s with
    | nil => exact ⟨[], .nil, nofun⟩
    | cons c l =>
      rw [length_cons] at hn
      by_cases hc : isArgSpace c = true
      · have hl : quote ∉ l := fun hmem => h (mem_cons_of_mem _ hmem)
        obtain ⟨ws, hws, hall⟩ := ih l.length (by omega) hl rfl
        exact ⟨ws, .space hc hws, hall⟩
      · -- a word, and what follows it
        have hsplit := takeWhile_append_dropWhile (p := (!isArgSpace ·)) (l := c :: l)
        have hword : ∀ d ∈ (c :: l).takeWhile (!isArgSpace ·), isArgSpace d = false := by
          intro d hd
          simpa using mem_takeWhile_imp hd
        have hbegin : (c :: l).takeWhile (!isArgSpace ·) = c :: l.takeWhile (!isArgSpace ·) :=
          takeWhile_cons_of_pos (by simpa using hc)
        have hbreaks : Breaks ((c :: l).dropWhile (!isArgSpace ·)) := by
          cases hrest : (c :: l).dropWhile (!isArgSpace ·) with
          | nil => trivial
          | cons d rest => simpa [Breaks] using not_of_dropWhile_eq_cons hrest
        have hshort : ((c :: l).dropWhile (!isArgSpace ·)).length ≤ l.length := by
          rw [dropWhile_cons_of_pos (p := (!isArgSpace ·)) (by simpa using hc)]
          exact (dropWhile_sublist _).length_le
        have hrest : quote ∉ (c :: l).dropWhile (!isArgSpace ·) :=
          fun hmem => h ((dropWhile_sublist _).mem hmem)
        obtain ⟨ws, hws, hall⟩ := ih _ (by omega) hrest rfl
        refine ⟨(c :: l).takeWhile (!isArgSpace ·) :: ws, ?_, ?_⟩
        · have hne : (c :: l).takeWhile (!isArgSpace ·) ≠ [] := by rw [hbegin]; simp
          have hhead : ((c :: l).takeWhile (!isArgSpace ·)).head? ≠ some quote := by
            rw [hbegin]
            rintro ⟨⟩
            exact h mem_cons_self
          have hspells := Spells.plain hne hword hhead hbreaks hws
          rwa [hsplit] at hspells
        · exact forall_mem_cons.2 ⟨⟨by rw [hbegin]; simp, hword⟩, hall⟩

/-- The words that an argument becomes. -/
def pieces (s : List UInt8) : List (List UInt8) :=
  if stringNeedsQuoting s = true then [s] else words star s

theorem quote_notMem (h : ¬ stringNeedsQuoting s = true) : quote ∉ s := by
  intro hmem
  exact h (any_eq_true.2 ⟨quote, hmem, rfl⟩)

/-- What is stored for an argument spells the words that it becomes. -/
theorem spells_argItem (h : s.head? ≠ some quote) : Spells star (argItem s) (pieces s) := by
  unfold argItem pieces
  by_cases hquoting : stringNeedsQuoting s = true
  · rw [if_pos ⟨h, hquoting⟩, if_pos hquoting]
    exact .quoted (fun _ hrest => unquote_quotedChar s hrest) trivial .nil
  · rw [if_neg (fun hboth => hquoting hboth.2), if_neg hquoting]
    obtain ⟨ws, hws, -⟩ := exists_spells (quote_notMem hquoting)
    rw [hws.words_eq]
    exact hws

theorem pieces_nil : pieces [] = [] := words_of_nil rfl

theorem spells_append_argStringFrom (h : ∀ s ∈ argv, s.head? ≠ some quote) {l : List UInt8}
    {ws : List (List UInt8)} (hl : Spells star l ws) :
    Spells star (l ++ (argStringFrom false argv ++ [10])) (ws ++ argv.flatMap pieces) := by
  induction argv generalizing l ws with
  | nil => exact hl.append rfl .nil
  | cons s argv ih =>
    have hrest := fun t ht => h t (mem_cons_of_mem s ht)
    rw [argStringFrom, flatMap_cons]
    split
    · have hitem := hl.append (c := 32) rfl (spells_argItem (h s mem_cons_self))
      have hall := ih hrest hitem
      simpa using hall
    · next hs =>
      obtain rfl : s = [] := length_eq_zero_iff.1 (by omega)
      rw [pieces_nil]
      exact ih hrest hl

/-- The string that is built spells the words that the arguments become. -/
theorem spells_argStringFrom (h : ∀ s ∈ argv, s.head? ≠ some quote) :
    Spells star (argStringFrom true argv ++ [10]) (argv.flatMap pieces) := by
  induction argv with
  | nil => exact .space rfl .nil
  | cons s argv ih =>
    obtain ⟨hs, hrest⟩ := forall_mem_cons.1 h
    rw [argStringFrom, flatMap_cons]
    split
    · rw [if_pos rfl, append_assoc]
      exact spells_append_argStringFrom hrest (spells_argItem hs)
    · next hs =>
      obtain rfl : s = [] := length_eq_zero_iff.1 (by omega)
      rw [pieces_nil]
      exact ih hrest

/-- What `execve` can be asked to pass on: arguments without zeros that do not begin with a
quote. -/
def Passable (args : List (List UInt8)) : Prop :=
  ∀ s ∈ args, 0 ∉ s ∧ s.head? ≠ some quote

/-- **The words that the startup code finds.** -/
theorem argInit_buildArgString {args : List (List UInt8)} (h : Passable args) :
    argInit star (argStringFrom true args ++ [10]) = args.flatMap pieces := by
  have hspells := spells_argStringFrom fun s hs => (h s hs).2
  have hzero : 0 ∉ argStringFrom true args ++ [10] := by
    rw [mem_append, not_or]
    exact ⟨zero_notMem_argStringFrom (fun s hs => (h s hs).1) true, by decide⟩
  rw [argInit_eq hzero]
  exact hspells.dropWhile.rdropWhile.words_eq

/-! ### Which arguments survive -/

/-- The argument is not empty, and it is quoted or has no carriage return, vertical tab or form
feed in it. -/
def Survives (s : List UInt8) : Prop :=
  s ≠ [] ∧ (stringNeedsQuoting s = true ∨ ∀ c ∈ s, c ≠ 13 ∧ c ≠ 11 ∧ c ≠ 12)

/-- Blank space to the startup code is blank space to `execve`, but for three characters. -/
theorem isArgSpace_eq_false_iff (h : ¬ stringNeedsQuoting s = true) :
    (∀ c ∈ s, isArgSpace c = false) ↔ ∀ c ∈ s, c ≠ 13 ∧ c ≠ 11 ∧ c ≠ 12 := by
  refine forall₂_congr fun c hc => ?_
  have hnot : (c == 32 || c == 160 || c == 9 || c == 10 || c == quote) = false := by
    by_contra hyes
    rw [Bool.not_eq_false] at hyes
    exact h (any_eq_true.2 ⟨c, hc, hyes⟩)
  simp only [Bool.or_eq_false_iff, beq_eq_false_iff_ne] at hnot
  simp [isArgSpace]
  tauto

theorem pieces_of_survives (h : Survives s) : pieces s = [s] := by
  unfold pieces
  split
  · rfl
  · next hquoting =>
    have hspace := (isArgSpace_eq_false_iff hquoting).2 (h.2.resolve_left hquoting)
    have hhead : s.head? ≠ some quote := fun hs =>
      quote_notMem hquoting (mem_of_head? hs)
    have hspells : Spells star (s ++ []) [s] := .plain h.1 hspace hhead trivial .nil
    rw [append_nil] at hspells
    exact hspells.words_eq

theorem survives_of_mem_pieces {t : List UInt8} (h : t ∈ pieces s) : Survives t := by
  unfold pieces at h
  split at h
  · next hquoting =>
    obtain rfl := mem_singleton.1 h
    refine ⟨?_, .inl hquoting⟩
    rintro rfl
    cases hquoting
  · next hquoting =>
    obtain ⟨ws, hws, hall⟩ := exists_spells (quote_notMem hquoting)
    rw [hws.words_eq] at h
    obtain ⟨hne, hspace⟩ := hall t h
    refine ⟨hne, .inr ?_⟩
    intro c hc
    have hc := hspace c hc
    refine ⟨?_, ?_, ?_⟩
    all_goals
      rintro rfl
      cases hc

theorem flatMap_pieces_eq_iff (args : List (List UInt8)) :
    args.flatMap pieces = args ↔ ∀ s ∈ args, Survives s := by
  constructor
  · intro heq s hs
    rw [← heq] at hs
    obtain ⟨t, -, hst⟩ := mem_flatMap.1 hs
    exact survives_of_mem_pieces hst
  · intro hall
    have hpieces : args.flatMap pieces = args.flatMap fun s => [s] :=
      flatMap_congr fun s hs => pieces_of_survives (hall s hs)
    rw [hpieces, flatMap_singleton']

/-- **Which arguments survive.**  Arguments without zeros that do not begin with a quote come back
from the startup code of the program, with `*` as its only escape character, as they were passed
to `execve`, exactly if the length of the string has 32 bits, none of them is empty, and none has a
carriage return, vertical tab or form feed in it without having anything in it for which it is
quoted. -/
theorem args_survive_iff (name : List UInt8) {args : List (List UInt8)} (h : Passable args)
    (block : Buffer UInt8 (execveSize (name :: args) none)) :
    (execveArgString (name :: args) block).map (argInit star) = some args ↔
      argsSize args + 2 < 2 ^ 32 ∧ ∀ s ∈ args, Survives s := by
  have hiff : StringFits (name :: args) none ↔ argsSize args + 2 < 2 ^ 32 := by
    simp [StringFits]
  rw [← hiff]
  by_cases hfits : StringFits (name :: args) none
  · have hbuilt : execveArgString (name :: args) block = some (argStringFrom true args ++ [10]) :=
      execveArgString_eq (show ∀ s ∈ (name :: args).tail, 0 ∉ s from fun s hs => (h s hs).1)
        hfits block
    rw [hbuilt, Option.map_some, argInit_buildArgString h, Option.some.injEq,
      flatMap_pieces_eq_iff, and_iff_right hfits]
  · refine iff_of_false ?_ fun hboth => hfits hboth.1
    intro hsome
    obtain ⟨l, hl, hargs⟩ := Option.map_eq_some_iff.1 hsome
    rw [execveArgString_of_not_fits hfits hl] at hargs
    -- no argument comes back, but there are some
    have hnil : args = [] := hargs.symm
    subst hnil
    exact hfits (by simp [StringFits, argsSize])

/-- An argument with a blank and a quote in it, and a plain one. -/
theorem args_survive_quoted :
    Passable [[97, 32, 34], [98]] ∧
      (execveArgString [[], [97, 32, 34], [98]] (zeroBlock 10)).map (argInit star)
        = some [[97, 32, 34], [98]] := by
  have hpassable : Passable [[97, 32, 34], [98]] := by
    unfold Passable
    decide
  refine ⟨hpassable, (args_survive_iff [] hpassable (zeroBlock 10)).2 ⟨by decide, ?_⟩⟩
  simp [Survives]

/-- A carriage return cuts an argument in two. -/
theorem args_cut_at_carriage_return :
    Passable [[97, 13, 98]] ∧
      (execveArgString [[], [97, 13, 98]] (zeroBlock 5)).map (argInit star)
        = some [[97], [98]] :=
  ⟨by unfold Passable; decide, by decide⟩

end Clib4
