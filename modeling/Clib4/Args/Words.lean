import Mathlib.Data.List.DropRight
import Mathlib.Tactic
import Clib4.Base.Loop

/-!
# The words of a command line

The startup code of a program cuts the command line that it was launched with into words.  A word
ends at a blank space; or it stands in quotes, and then ends at a quote that a blank space or the
end of the line follows, and `*` escapes the character behind it.

Here are the words as lists, which say what the startup code is to find, and the loop that counts
them; `Args.ArgInit` has the loop that cuts them out of the line in place.  A pointer into a line
that is only read is what is left of the line from there.

## Main definitions

* `words` — the words of a line.

## Main results

* `countArguments_eq` — **the arguments are counted right.**
* `Spells.words_eq` — **the words of a text are the words that it spells.**
-/

namespace Clib4

open List

/-- The double quote. -/
def quote : UInt8 := 34

/-- The character `*`. -/
def star : UInt8 := 42

/-- `is_space`: the six characters of ASCII, and the non-breaking space. -/
def isArgSpace (c : UInt8) : Bool :=
  c == 9 || c == 13 || c == 10 || c == 11 || c == 12 || c == 32 || c == 160

/-- The blank space may begin here: the end of the text, or a space. -/
def Breaks : List UInt8 → Prop
  | [] => True
  | c :: _ => isArgSpace c = true

instance : DecidablePred Breaks
  | [] => isTrue trivial
  | c :: _ => inferInstanceAs (Decidable (isArgSpace c = true))

/-- `is_escape_character`; `esc` is `__shell_escape_character`. -/
def isEscapeCharacter (esc c : UInt8) : Bool := c == star || c == esc

/-- The character that an escaped one stands for. -/
def escaped (c : UInt8) : UInt8 :=
  if c = 69 ∨ c = 101 then 27 else if c = 78 ∨ c = 110 then 10 else c

section Words

variable (esc : UInt8)

/-- A quoted word, behind its first quote: the word, and what is left of the line behind the last
quote. -/
def unquote : List UInt8 → List UInt8 × List UInt8
  | [] => ([], [])
  | c :: l =>
    if c = quote ∧ Breaks l then ([], l)
    else if isEscapeCharacter esc c then
      match l with
      | [] => ([], [])
      | d :: l => (escaped d :: (unquote l).1, (unquote l).2)
    else (c :: (unquote l).1, (unquote l).2)

variable {c : UInt8}

theorem unquote_of_final {l : List UInt8} (h : c = quote ∧ Breaks l) :
    unquote esc (c :: l) = ([], l) := by
  unfold unquote
  rw [if_pos h]

theorem unquote_of_escape {d : UInt8} {l : List UInt8} (h : ¬ (c = quote ∧ Breaks (d :: l)))
    (hc : isEscapeCharacter esc c = true) :
    unquote esc (c :: d :: l) = (escaped d :: (unquote esc l).1, (unquote esc l).2) := by
  conv_lhs => unfold unquote
  rw [if_neg h, if_pos hc]

theorem unquote_of_plain {l : List UInt8} (h : ¬ (c = quote ∧ Breaks l))
    (hc : ¬ isEscapeCharacter esc c = true) :
    unquote esc (c :: l) = (c :: (unquote esc l).1, (unquote esc l).2) := by
  conv_lhs => unfold unquote
  rw [if_neg h, if_neg hc]

/-- The word that begins with `c`, and what is left of the line behind it and the character that
ends it. -/
def nextWord (c : UInt8) (l : List UInt8) : List UInt8 × List UInt8 :=
  if c = quote then unquote esc l
  else ((c :: l).takeWhile (!isArgSpace ·), ((c :: l).dropWhile (!isArgSpace ·)).tail)

theorem escaped_ne_zero (h : c ≠ 0) : escaped c ≠ 0 := by
  unfold escaped
  split
  · decide
  split
  · decide
  · exact h

/-- There is no zero in a word of a line without zeros, or behind it. -/
theorem zero_notMem_unquote {l : List UInt8} (h : 0 ∉ l) :
    0 ∉ (unquote esc l).1 ∧ 0 ∉ (unquote esc l).2 := by
  fun_induction unquote esc l with
  | case1 | case3 c _ _ => exact ⟨not_mem_nil, not_mem_nil⟩
  | case2 c l _ => exact ⟨not_mem_nil, fun hmem => h (mem_cons_of_mem _ hmem)⟩
  | case4 c _ d l _ ih =>
    simp only [mem_cons, not_or] at h ih ⊢
    obtain ⟨hword, hrest⟩ := ih h.2.2
    exact ⟨⟨Ne.symm (escaped_ne_zero (Ne.symm h.2.1)), hword⟩, hrest⟩
  | case5 c l _ _ ih =>
    simp only [mem_cons, not_or] at h ih ⊢
    obtain ⟨hword, hrest⟩ := ih h.2
    exact ⟨⟨h.1, hword⟩, hrest⟩

theorem length_unquote_le (l : List UInt8) : (unquote esc l).2.length ≤ l.length := by
  fun_induction unquote esc l with
  | case1 => exact le_rfl
  | case2 c l _ => exact Nat.le_succ _
  | case3 c _ _ => exact Nat.zero_le _
  | case4 c _ d l _ ih => exact ih.trans (by simp only [length_cons]; omega)
  | case5 c l _ _ ih => exact ih.trans (Nat.le_succ _)

theorem length_nextWord_le (c : UInt8) (l : List UInt8) :
    (nextWord esc c l).2.length ≤ l.length := by
  unfold nextWord
  split
  · exact length_unquote_le esc l
  · have := (dropWhile_sublist (!isArgSpace ·) (l := c :: l)).length_le
    simp only [length_tail, length_cons] at this ⊢
    omega

/-- The words of a line. -/
def words (l : List UInt8) : List (List UInt8) :=
  match _h : l.dropWhile isArgSpace with
  | [] => []
  | c :: rest => (nextWord esc c rest).1 :: words (nextWord esc c rest).2
termination_by l.length
decreasing_by
  have hle := (dropWhile_sublist isArgSpace (l := l)).length_le
  have hnext := length_nextWord_le esc c rest
  rw [_h, length_cons] at hle
  omega

variable {esc}

theorem words_of_nil {l : List UInt8} (h : l.dropWhile isArgSpace = []) : words esc l = [] := by
  rw [words]
  split
  · rfl
  · next h' => rw [h] at h'; cases h'

theorem words_of_cons {l rest : List UInt8} (h : l.dropWhile isArgSpace = c :: rest) :
    words esc l = (nextWord esc c rest).1 :: words esc (nextWord esc c rest).2 := by
  rw [words]
  split
  · next h' => rw [h] at h'; cases h'
  · next h' => rw [h] at h'; cases h'; rfl

theorem words_dropWhile (l : List UInt8) : words esc (l.dropWhile isArgSpace) = words esc l := by
  have hidem : (l.dropWhile isArgSpace).dropWhile isArgSpace = l.dropWhile isArgSpace :=
    dropWhile_idempotent _ _
  cases h : l.dropWhile isArgSpace with
  | nil => rw [words_of_nil h, words_of_nil rfl]
  | cons c rest =>
    rw [h] at hidem
    rw [words_of_cons h, words_of_cons hidem]

/-! ### Counting -/

variable (esc) in
/-- Where the loop over a quoted word ends: at its last quote. -/
def skipQuoted : List UInt8 → List UInt8
  | [] => []
  | c :: l =>
    if c = quote ∧ Breaks l then c :: l
    else if isEscapeCharacter esc c then
      match l with
      | [] => []
      | _ :: l => skipQuoted l
    else skipQuoted l

variable (esc) in
/-- An iteration of the loop that counts: the pointer, and `number_of_arguments`. -/
def countBody : List UInt8 × ℕ → (List UInt8 × ℕ) ⊕ ℕ
  | (str, n) =>
    match str.dropWhile isArgSpace with
    | [] => .inr n
    | c :: l =>
      if c = quote then .inl ((skipQuoted esc l).tail, n + 1)
      else
        match (c :: l).dropWhile (!isArgSpace ·) with
        | [] => .inr (n + 1)
        | rest => .inl (rest, n + 1)

variable (esc) in
/-- `number_of_arguments`: the name of the program is one. -/
def countArguments (line : List UInt8) : ℕ :=
  (Loop.run (countBody esc) (line.length + 1) (line, 1)).getD 1

theorem tail_skipQuoted (l : List UInt8) : (skipQuoted esc l).tail = (unquote esc l).2 := by
  fun_induction unquote esc l with
  | case1 => rfl
  | case2 c l h =>
    unfold skipQuoted
    rw [if_pos h, tail_cons]
  | case3 c hesc hnot =>
    unfold skipQuoted
    rw [if_neg hnot, if_pos hesc]
    rfl
  | case4 c hesc d l hnot ih =>
    unfold skipQuoted
    rw [if_neg hnot, if_pos hesc]
    exact ih
  | case5 c l hnot hesc ih =>
    unfold skipQuoted
    rw [if_neg hnot, if_neg hesc]
    exact ih

theorem not_of_dropWhile_eq_cons {p : UInt8 → Bool} {l rest : List UInt8}
    (h : l.dropWhile p = c :: rest) : p c = false := by
  have := head?_dropWhile_not p l
  rw [h] at this
  simpa using this

variable (esc) in
/-- What an iteration of the loop that counts does to the words. -/
theorem countBody_spec (str : List UInt8) (n : ℕ) :
    (∃ str', countBody esc (str, n) = .inl (str', n + 1) ∧ str'.length < str.length ∧
        (words esc str).length = (words esc str').length + 1) ∨
      countBody esc (str, n) = .inr (n + (words esc str).length) := by
  unfold countBody
  dsimp only
  cases h : str.dropWhile isArgSpace with
  | nil =>
    right
    rw [words_of_nil h]
    rfl
  | cons c l =>
    have hlen : l.length + 1 ≤ str.length := by
      have := (dropWhile_sublist isArgSpace (l := str)).length_le
      rwa [h, length_cons] at this
    have hwords : words esc str = _ := words_of_cons h
    have hnext := length_nextWord_le esc c l
    dsimp only
    by_cases hc : c = quote
    · left
      rw [if_pos hc, tail_skipQuoted]
      rw [nextWord, if_pos hc] at hwords hnext
      exact ⟨_, rfl, by omega, by rw [hwords, length_cons]⟩
    · rw [if_neg hc]
      rw [nextWord, if_neg hc] at hwords
      cases hrest : (c :: l).dropWhile (!isArgSpace ·) with
      | nil =>
        right
        rw [hwords, hrest, tail_nil, words_of_nil rfl]
        rfl
      | cons d rest =>
        left
        have hd : isArgSpace d = true := by simpa using not_of_dropWhile_eq_cons hrest
        have hspace : (!isArgSpace c) = true := by simp [not_of_dropWhile_eq_cons h]
        have hlt : (d :: rest).length ≤ l.length := by
          rw [← hrest, dropWhile_cons_of_pos (p := (!isArgSpace ·)) hspace]
          exact (dropWhile_sublist _).length_le
        refine ⟨d :: rest, rfl, by omega, ?_⟩
        rw [hwords, hrest, tail_cons, length_cons, ← words_dropWhile (d :: rest),
          dropWhile_cons_of_pos hd, words_dropWhile]

/-- **The arguments are counted right.** -/
theorem countArguments_eq (line : List UInt8) :
    countArguments esc line = (words esc line).length + 1 := by
  refine Loop.getD_run_spec (fun a => a.2 + (words esc a.1).length = (words esc line).length + 1)
    (fun a => a.1.length) (fun n => n = (words esc line).length + 1) ?_ (line.length + 1) (line, 1)
    1 (Nat.add_comm _ _) (Nat.lt_succ_self _)
  rintro ⟨str, n⟩ hinv
  dsimp only at hinv ⊢
  rcases countBody_spec esc str n with ⟨str', hstep, hlt, hlen⟩ | hstep
  · exact .inl ⟨_, hstep, by dsimp only; omega, hlt⟩
  · exact .inr ⟨_, hstep, hinv⟩

/-! ### The texts of words -/

variable (esc) in
/-- The text spells the words: blank space, words as they are, and words in quotes. -/
inductive Spells : List UInt8 → List (List UInt8) → Prop
  | nil : Spells [] []
  | space {c : UInt8} {l : List UInt8} {ws : List (List UInt8)} (hc : isArgSpace c = true)
      (h : Spells l ws) : Spells (c :: l) ws
  | plain {w l : List UInt8} {ws : List (List UInt8)} (hne : w ≠ [])
      (hw : ∀ c ∈ w, isArgSpace c = false) (hquote : w.head? ≠ some quote) (hl : Breaks l)
      (h : Spells l ws) : Spells (w ++ l) (w :: ws)
  | quoted {t w l : List UInt8} {ws : List (List UInt8)}
      (ht : ∀ rest, Breaks rest → unquote esc (t ++ quote :: rest) = (w, rest)) (hl : Breaks l)
      (h : Spells l ws) : Spells (quote :: (t ++ quote :: l)) (w :: ws)

theorem isArgSpace_quote : isArgSpace quote = false := rfl

theorem words_tail {l : List UInt8} (h : Breaks l) : words esc l.tail = words esc l := by
  cases l with
  | nil => rfl
  | cons c l =>
    rw [tail_cons, ← words_dropWhile (c :: l), dropWhile_cons_of_pos h, words_dropWhile]

namespace Spells

variable {l : List UInt8} {ws : List (List UInt8)}

/-- **The words of a text are the words that it spells.** -/
theorem words_eq (h : Spells esc l ws) : words esc l = ws := by
  induction h with
  | nil => exact words_of_nil rfl
  | @space c l ws hc h ih =>
    rw [← words_dropWhile, dropWhile_cons_of_pos hc, words_dropWhile, ih]
  | @plain w l ws hne hw hquote hl h ih =>
    obtain ⟨c, w, rfl⟩ := exists_cons_of_ne_nil hne
    have hc : isArgSpace c = false := hw c mem_cons_self
    have hcq : c ≠ quote := fun heq => hquote (by rw [heq]; rfl)
    have hstart : (c :: w ++ l).dropWhile isArgSpace = c :: (w ++ l) :=
      dropWhile_cons_of_neg (by simp [hc])
    have hw' : ∀ d ∈ c :: w, (!isArgSpace d) = true := fun d hd => by simp [hw d hd]
    have htake : l.takeWhile (!isArgSpace ·) = [] ∧ l.dropWhile (!isArgSpace ·) = l := by
      cases l with
      | nil => exact ⟨rfl, rfl⟩
      | cons d l =>
        have hd : isArgSpace d = true := hl
        simp [hd]
    rw [words_of_cons hstart, nextWord, if_neg hcq, ← cons_append,
      takeWhile_append_of_pos hw', dropWhile_append_of_pos hw', htake.1, htake.2,
      append_nil, words_tail hl, ih]
  | @quoted t w l ws ht hl h ih =>
    have hstart : (quote :: (t ++ quote :: l)).dropWhile isArgSpace = quote :: (t ++ quote :: l) :=
      dropWhile_cons_of_neg (by rw [isArgSpace_quote]; decide)
    rw [words_of_cons hstart, nextWord, if_pos rfl, ht l hl, ih]

variable {c : UInt8}

/-- **Joining texts**, with blank space between them. -/
theorem append {m : List UInt8} {vs : List (List UInt8)} (hc : isArgSpace c = true)
    (h : Spells esc l ws) (hm : Spells esc m vs) : Spells esc (l ++ c :: m) (ws ++ vs) := by
  have hbreaks : ∀ l : List UInt8, Breaks l → Breaks (l ++ c :: m) := by
    intro l hl
    cases l with
    | nil => exact hc
    | cons d l => exact hl
  induction h with
  | nil => exact .space hc hm
  | space hd _ ih => exact .space hd ih
  | plain hne hw hquote hl _ ih =>
    rw [append_assoc]
    exact .plain hne hw hquote (hbreaks _ hl) ih
  | quoted ht hl _ ih =>
    rw [cons_append, append_assoc]
    exact .quoted ht (hbreaks _ hl) ih

theorem dropWhile (h : Spells esc l ws) : Spells esc (l.dropWhile isArgSpace) ws := by
  induction h with
  | nil => exact .nil
  | space hc _ ih => rwa [dropWhile_cons_of_pos hc]
  | @plain w l ws hne hw hquote hl h _ =>
    obtain ⟨c, w, rfl⟩ := exists_cons_of_ne_nil hne
    have hc : isArgSpace c = false := hw c mem_cons_self
    rw [cons_append, dropWhile_cons_of_neg (by simp [hc])]
    exact .plain hne hw hquote hl h
  | quoted ht hl h _ =>
    exact .quoted ht hl h

/-- What follows a word, without the space at the end of the text. -/
theorem breaks_of_concat {a b : List UInt8} {x : UInt8} (hx : isArgSpace x = false)
    (hc : isArgSpace c = true) (hb : Breaks b) (h : a ++ [x] ++ b = l ++ [c]) :
    ∃ b', b = b' ++ [c] ∧ l = a ++ [x] ++ b' ∧ Breaks b' := by
  rcases eq_nil_or_concat b with rfl | ⟨b', d, rfl⟩
  · rw [append_nil] at h
    obtain rfl : x = c := by simpa using (append_inj' h rfl).2
    rw [hc] at hx
    cases hx
  · rw [concat_eq_append] at h hb ⊢
    rw [← append_assoc] at h
    obtain ⟨rfl, hd⟩ := append_inj' h rfl
    obtain rfl : d = c := by simpa using hd
    refine ⟨b', rfl, rfl, ?_⟩
    cases b' with
    | nil => trivial
    | cons e b' => exact hb

/-- The last character of a text, if it is a space, does not matter. -/
theorem of_concat (hc : isArgSpace c = true) {m : List UInt8} (h : Spells esc m ws) :
    m = l ++ [c] → Spells esc l ws := by
  induction h generalizing l with
  | nil => intro heq; simp at heq
  | @space d m ws hd h ih =>
    intro heq
    cases l with
    | nil =>
      obtain ⟨-, rfl⟩ := List.cons.inj heq
      exact h
    | cons e l =>
      obtain ⟨rfl, rfl⟩ := List.cons.inj heq
      exact .space hd (ih rfl)
  | @plain w m ws hne hw hquote hl h ih =>
    intro heq
    have hlast := hw _ (getLast_mem hne)
    rw [← dropLast_append_getLast hne] at heq
    obtain ⟨b, rfl, rfl, hb⟩ := breaks_of_concat hlast hc hl heq
    rw [dropLast_append_getLast hne]
    exact .plain hne hw hquote hb (ih rfl)
  | @quoted t w m ws ht hl h ih =>
    intro heq
    have hsplit : ∀ b, quote :: (t ++ quote :: b) = (quote :: t) ++ [quote] ++ b := by simp
    rw [hsplit] at heq
    obtain ⟨b, rfl, rfl, hb⟩ := breaks_of_concat isArgSpace_quote hc hl heq
    rw [← hsplit]
    exact .quoted ht hb (ih rfl)

theorem rdropWhile (h : Spells esc l ws) : Spells esc (l.rdropWhile isArgSpace) ws := by
  induction l using List.reverseRecOn with
  | nil => exact h
  | append_singleton l c ih =>
    by_cases hc : isArgSpace c = true
    · rw [rdropWhile_concat_pos _ _ _ hc]
      exact ih (of_concat hc h rfl)
    · rw [rdropWhile_concat_neg _ _ _ hc]
      exact h

end Spells

end Words

end Clib4
