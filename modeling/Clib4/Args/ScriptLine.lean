import Clib4.Scanf.Format
import Mathlib.Data.List.DropRight

/-!
# The first line of a script

Before `execve` launches a file, `get_first_script_line` reads its first line into a block that
grows with the line.

## Main definitions

* `firstLine` — the line that it should return.

## Main results

* `getFirstScriptLine_iff` — **when the line is returned.**
-/

namespace Clib4

open List

/-- The characters that end the line. -/
def stopsLine (c : UInt8) : Bool := c == 10 || (c < 32 && c != 9 && c != 13) || (128 ≤ c && c < 160)

/-- The loop over the file: the size of the block, and the characters that have been stored.  It has
no value if one is stored outside of the block. -/
def scriptLoop : List UInt8 → ℕ → List UInt8 → Option (ℕ × List UInt8)
  | [], size, line => some (size, line)
  | c :: file, size, line =>
    let size := if line.length + 2 > size then line.length + 10 else size
    if stopsLine c then some (size, line)
    else if line.length < size then scriptLoop file size (line ++ [c])
    else none

/-- The loop that strips trailing blank space, with the length of the line. -/
def stripLoop (line : List UInt8) : ℕ → ℕ
  | 0 => 0
  | n + 1 => if isSpace (line.getD n 0) then stripLoop line n else n + 1

/-- `get_first_script_line`: what has been stored, up to the terminator. -/
def getFirstScriptLine (file : List UInt8) : Option (List UInt8) := do
  let (size, line) ← scriptLoop file 0 []
  let length := if 0 < size then stripLoop line line.length else line.length
  if length < size then return line.take length ++ [0] else none

/-- An unprintable control character. -/
def isUnprintable (c : UInt8) : Bool :=
  (c < 32 && c != 9 && c != 13) || (127 ≤ c && c < 160)

/-- The first line of a file, up to an unprintable character, without trailing blank space. -/
def firstLine (file : List UInt8) : List UInt8 :=
  (file.takeWhile fun c => c != 10 && !isUnprintable c).rdropWhile isSpace

theorem scriptLoop_eq (file : List UInt8) (size : ℕ) (line : List UInt8)
    (h : line.length < size ∨ size = 0 ∧ line = []) :
    ∃ size', scriptLoop file size line = some (size', line ++ file.takeWhile (! stopsLine ·)) ∧
      (0 < size' ↔ 0 < size ∨ file ≠ []) ∧
      (0 < size' → (line ++ file.takeWhile (! stopsLine ·)).length < size') := by
  induction file generalizing size line with
  | nil =>
    refine ⟨size, by simp [scriptLoop], by simp, fun hpos => ?_⟩
    rw [takeWhile_nil, append_nil]
    omega
  | cons c file ih =>
    have hgrown : line.length + 1 < if line.length + 2 > size then line.length + 10 else size := by
      split_ifs <;> omega
    rw [scriptLoop]
    generalize (if line.length + 2 > size then line.length + 10 else size) = grown at hgrown
    by_cases hc : stopsLine c
    · exact ⟨grown, by simp [hc], by simp; omega, fun _ => by simp [hc]; omega⟩
    · obtain ⟨size', hloop, hpos, hlt⟩ := ih grown (line ++ [c]) (.inl (by simpa using hgrown))
      have htake : (c :: file).takeWhile (! stopsLine ·) = c :: file.takeWhile (! stopsLine ·) := by
        simp [hc]
      rw [append_assoc] at hloop hlt
      rw [htake]
      refine ⟨size', ?_, ?_, hlt⟩
      · simp [hc, (by omega : line.length < grown), hloop]
      · simp
        omega

theorem take_stripLoop {line : List UInt8} {n : ℕ} (hn : n ≤ line.length) :
    line.take (stripLoop line n) = (line.take n).rdropWhile isSpace := by
  induction n with
  | zero => rfl
  | succ n ih =>
    rw [stripLoop, take_succ_eq_append_getElem hn, rdropWhile_concat, getD_eq_getElem?_getD,
      getElem?_eq_getElem hn, Option.getD_some]
    split_ifs
    · exact ih (by omega)
    · exact take_succ_eq_append_getElem hn

theorem stripLoop_le (line : List UInt8) (n : ℕ) : stripLoop line n ≤ n := by
  fun_induction stripLoop line n with
  | case1 | case3 => exact le_rfl
  | case2 n hspace ih => omega

theorem getFirstScriptLine_eq {file : List UInt8} (h : file ≠ []) :
    getFirstScriptLine file =
      some ((file.takeWhile (! stopsLine ·)).rdropWhile isSpace ++ [0]) := by
  obtain ⟨size, hloop, hpos, hlt⟩ := scriptLoop_eq file 0 [] (.inr ⟨rfl, rfl⟩)
  have hsize : 0 < size := hpos.2 (.inr h)
  have hle := stripLoop_le (file.takeWhile (! stopsLine ·)) (file.takeWhile (! stopsLine ·)).length
  have hroom := hle.trans_lt (hlt hsize)
  simp [getFirstScriptLine, hloop, hsize, hroom, take_stripLoop le_rfl]

/-- The line ends in front of a character 127. -/
theorem firstLine_eq (file : List UInt8) :
    firstLine file =
      ((file.takeWhile (! stopsLine ·)).takeWhile (· != 127)).rdropWhile isSpace := by
  rw [firstLine, takeWhile_takeWhile]
  unfold isUnprintable stopsLine
  grind

/-- **When the first line is returned**: if the file is not empty and there is no character 127 in
the line, which is a control character, but does not end it. -/
theorem getFirstScriptLine_iff (file : List UInt8) :
    getFirstScriptLine file = some (firstLine file ++ [0]) ↔
      file ≠ [] ∧ 127 ∉ file.takeWhile (! stopsLine ·) := by
  by_cases h : file = []
  · subst h
    simp [getFirstScriptLine, scriptLoop]
  rw [getFirstScriptLine_eq h, and_iff_right h, Option.some.injEq, append_left_inj, firstLine_eq]
  generalize file.takeWhile (! stopsLine ·) = line
  constructor
  · intro heq hmem
    rw [← rdropWhile_append_rtakeWhile (p := isSpace) (l := line), mem_append, heq] at hmem
    rcases hmem with hmem | hmem
    · simpa using mem_takeWhile_imp ((List.rdropWhile_prefix isSpace _).subset hmem)
    · exact absurd (mem_rtakeWhile_imp hmem) (by decide)
  · intro hmem
    have hall : ∀ c ∈ line, (c != 127) = true := fun c hc => by
      simpa using fun heq : c = 127 => hmem (heq ▸ hc)
    rw [takeWhile_eq_self_iff.2 hall]

/-- For an empty file nothing has been allocated when the terminator is stored. -/
theorem getFirstScriptLine_empty : getFirstScriptLine [] ≠ some (firstLine [] ++ [0]) := by
  decide

end Clib4
