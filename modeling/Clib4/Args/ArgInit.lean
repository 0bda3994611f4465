import Clib4.Args.Words

/-!
# The startup code's argument vector

The startup code makes a copy of the command line and cuts the words out of it in place: a word
is ended by a zero that is stored in the copy, and the escape characters of a quoted word are
squeezed out while it is read, so that its characters move to the left.  Nothing is ever stored
in front of the word or behind the character that was read last, and so the words are those of
the line.

## Main definitions

* `argInit` — the arguments behind the name of the program, as `arg_init` leaves them.

## Main results

* `argInit_eq` — **the arguments are the words of the line**, without the blank space at its ends.
* `argVector_eq_words` — the vector is filled, and **what is to be read is not stored over**.
-/

namespace Clib4

open List

/-! ### The code -/

/-- The character at an address; behind the line there is a zero. -/
def byteAt (buf : List UInt8) (i : ℕ) : UInt8 := buf.getD i 0

/-- The string at an address. -/
def stringAt (buf : List UInt8) (i : ℕ) : List UInt8 := (buf.drop i).takeWhile (· ≠ 0)

def isFinalQuoteCharacter (buf : List UInt8) (str : ℕ) : Bool :=
  byteAt buf str == quote && (byteAt buf (str + 1) == 0 || isArgSpace (byteAt buf (str + 1)))

/-- The variables of the loop over a quoted word: the line, `str` and `arg`. -/
structure QuotedState where
  commandLine : List UInt8
  str : ℕ
  arg : ℕ

/-- The variables of the loop that fills the argument vector. -/
structure ArgState where
  commandLine : List UInt8
  str : ℕ
  /-- The addresses of the arguments behind the first. -/
  argv : List ℕ

section Code

variable (esc : UInt8)

/-- An iteration of the loop over a quoted word. -/
def quotedBody (s : QuotedState) : QuotedState ⊕ QuotedState :=
  let c := byteAt s.commandLine s.str
  if c = 0 ∨ isFinalQuoteCharacter s.commandLine s.str = true then .inr s
  else if isEscapeCharacter esc c then
    let d := byteAt s.commandLine (s.str + 1)
    if d = 0 then .inl { s with str := s.str + 1 }
    else .inl ⟨s.commandLine.set s.arg (escaped d), s.str + 2, s.arg + 1⟩
  else .inl ⟨s.commandLine.set s.arg c, s.str + 1, s.arg + 1⟩

/-- The loop over a quoted word. -/
def quotedLoop (s : QuotedState) : QuotedState :=
  (Loop.run (quotedBody esc) (s.commandLine.length + 1) s).getD s

/-- An iteration of the loop that fills the argument vector. -/
def argBody (s : ArgState) : ArgState ⊕ ArgState :=
  let str := s.str + ((s.commandLine.drop s.str).takeWhile isArgSpace).length
  let c := byteAt s.commandLine str
  if c = 0 then .inr { s with str := str }
  else if c = quote then
    let q := quotedLoop esc ⟨s.commandLine, str + 1, str + 1⟩
    -- skip the last quote, and end the word where it is complete
    let behind := if byteAt q.commandLine q.str ≠ 0 then q.str + 1 else q.str
    .inl ⟨q.commandLine.set q.arg 0, behind, s.argv ++ [str + 1]⟩
  else
    let behind := str + ((s.commandLine.drop str).takeWhile fun c => c ≠ 0 && !isArgSpace c).length
    if byteAt s.commandLine behind = 0 then .inr ⟨s.commandLine, behind, s.argv ++ [str]⟩
    else .inl ⟨s.commandLine.set behind 0, behind + 1, s.argv ++ [str]⟩

/-- The line without the blank space at its ends. -/
def strippedLine (argStr : List UInt8) : List UInt8 :=
  (argStr.dropWhile isArgSpace).rdropWhile isArgSpace

/-- `arg_init`, for a program that was not started from the Workbench and does not expand
wildcards: the arguments behind the name of the program.  `argStr` is what `GetArgStr` returns,
without its terminating zero. -/
def argInit (argStr : List UInt8) : List (List UInt8) :=
  let line := strippedLine argStr
  let start : ArgState := ⟨line ++ [0], 0, []⟩
  let s := (Loop.run (argBody esc) (line.length + 2) start).getD start
  s.argv.map (stringAt s.commandLine)

end Code

/-! ### Strings in a line -/

/-- The line has the word `w`, with a zero behind it, at the address `a`. -/
def HasString (buf : List UInt8) (a : ℕ) (w : List UInt8) : Prop :=
  0 ∉ w ∧ ∃ tail, buf.drop a = w ++ 0 :: tail

namespace HasString

variable {buf w : List UInt8} {a : ℕ}

theorem stringAt_eq (h : HasString buf a w) : stringAt buf a = w := by
  obtain ⟨hw, tail, hbuf⟩ := h
  have hpos : ∀ c ∈ w, decide (c ≠ 0) = true := fun c hc => by
    have hne : c ≠ 0 := fun heq => hw (heq ▸ hc)
    simpa using hne
  rw [stringAt, hbuf, takeWhile_append_of_pos hpos]
  simp

theorem append (h : HasString buf a w) (more : List UInt8) : HasString (buf ++ more) a w := by
  obtain ⟨hw, tail, hbuf⟩ := h
  refine ⟨hw, tail ++ more, ?_⟩
  have hle : a ≤ buf.length := by
    by_contra hgt
    rw [drop_of_length_le (by omega)] at hbuf
    simp at hbuf
  rw [drop_append_of_le_length hle, hbuf, append_assoc, cons_append]

theorem of_append (hw : 0 ∉ w) (pre tail : List UInt8) :
    HasString (pre ++ (w ++ 0 :: tail)) pre.length w :=
  ⟨hw, tail, drop_left⟩

end HasString

theorem byteAt_append (pre : List UInt8) (c : UInt8) (l : List UInt8) :
    byteAt (pre ++ c :: l) pre.length = c := by
  simp [byteAt]

theorem set_append (pre : List UInt8) (c x : UInt8) (l : List UInt8) :
    (pre ++ c :: l).set pre.length x = pre ++ x :: l := by
  simp

/-! ### Quoted words -/

variable {esc : UInt8}

/-- The line while a quoted word is read: `w` is what has been stored of the word, `gap` what has
been read and not stored, and `rest` what has not been read. -/
structure InWord (pre : List UInt8) (s : QuotedState) (w gap rest : List UInt8) : Prop where
  line_eq : s.commandLine = pre ++ w ++ (gap ++ (rest ++ [0]))
  arg_eq : s.arg = (pre ++ w).length
  str_eq : s.str = s.arg + gap.length

namespace InWord

variable {pre w gap rest : List UInt8} {s : QuotedState}

theorem line_eq' (h : InWord pre s w gap rest) :
    s.commandLine = (pre ++ w ++ gap) ++ (rest ++ [0]) := by
  rw [h.line_eq, append_assoc (pre ++ w)]

theorem str_eq' (h : InWord pre s w gap rest) : s.str = (pre ++ w ++ gap).length := by
  rw [h.str_eq, h.arg_eq, ← length_append]

theorem byteAt_of_nil (h : InWord pre s w gap []) : byteAt s.commandLine s.str = 0 := by
  rw [h.line_eq', h.str_eq']
  exact byteAt_append _ 0 []

variable {c : UInt8}

theorem byteAt_of_cons (h : InWord pre s w gap (c :: rest)) : byteAt s.commandLine s.str = c := by
  rw [h.line_eq', h.str_eq']
  exact byteAt_append _ c _

theorem read (h : InWord pre s w gap (c :: rest)) :
    InWord pre { s with str := s.str + 1 } w (gap ++ [c]) rest := by
  refine ⟨?_, h.arg_eq, ?_⟩
  · rw [h.line_eq]
    simp
  · show s.str + 1 = _
    rw [h.str_eq, length_append]
    rfl

theorem store (h : InWord pre s w gap rest) (hgap : gap ≠ []) (x : UInt8) :
    InWord pre ⟨s.commandLine.set s.arg x, s.str, s.arg + 1⟩ (w ++ [x]) gap.tail rest := by
  obtain ⟨y, gap, rfl⟩ := exists_cons_of_ne_nil hgap
  refine ⟨?_, ?_, ?_⟩
  · show s.commandLine.set s.arg x = _
    rw [h.line_eq, h.arg_eq]
    simp
  · show s.arg + 1 = _
    rw [h.arg_eq, length_append, length_append, length_append]
    rfl
  · show s.str = s.arg + 1 + gap.length
    rw [h.str_eq, length_cons]
    omega

theorem isFinalQuoteCharacter_iff (h : InWord pre s w gap (c :: rest)) (hzero : 0 ∉ rest) :
    isFinalQuoteCharacter s.commandLine s.str = true ↔ c = quote ∧ Breaks rest := by
  have hnext : byteAt s.commandLine (s.str + 1) = rest.headD 0 := by
    cases rest with
    | nil => exact h.read.byteAt_of_nil
    | cons d rest => exact h.read.byteAt_of_cons
  rw [isFinalQuoteCharacter, h.byteAt_of_cons, hnext]
  cases rest with
  | nil => simp [Breaks]
  | cons d rest =>
    have hd : d ≠ 0 := fun heq => hzero (heq ▸ mem_cons_self)
    simp [Breaks, hd]

end InWord

/-- What the loop over a quoted word keeps: what has been stored, and what the rest of the line
stands for, are the word. -/
def Reads (esc : UInt8) (pre l : List UInt8) (s : QuotedState) : Prop :=
  ∃ w gap rest, InWord pre s w gap rest ∧ 0 ∉ rest ∧
    unquote esc l = (w ++ (unquote esc rest).1, (unquote esc rest).2)

/-- Where the loop over a quoted word ends: at the last quote, or at the end of the line. -/
def HasRead (esc : UInt8) (pre l : List UInt8) (s : QuotedState) : Prop :=
  ∃ w gap rest, InWord pre s w gap rest ∧
    (rest = [] ∧ unquote esc l = (w, []) ∨ ∃ r, rest = quote :: r ∧ unquote esc l = (w, r))

theorem quotedBody_spec {pre l : List UInt8} {s : QuotedState} (h : Reads esc pre l s) :
    Loop.Progress (quotedBody esc) (Reads esc pre l) (fun s => s.commandLine.length - s.str)
      (HasRead esc pre l) s := by
  obtain ⟨w, gap, rest, hin, hzero, hl⟩ := h
  unfold Loop.Progress quotedBody
  cases rest with
  | nil =>
    right
    rw [hin.byteAt_of_nil]
    refine ⟨s, if_pos (.inl rfl), w, gap, [], hin, .inl ⟨rfl, ?_⟩⟩
    rw [hl]
    simp [unquote]
  | cons c rest =>
    have hc : c ≠ 0 := fun heq => hzero (heq ▸ mem_cons_self)
    have hrest : 0 ∉ rest := fun hmem => hzero (mem_cons_of_mem _ hmem)
    have hlt : s.str < s.commandLine.length := by
      rw [hin.line_eq', hin.str_eq']
      simp
    rw [hin.byteAt_of_cons]
    by_cases hfinal : c = quote ∧ Breaks rest
    · right
      refine ⟨s, if_pos (.inr ((hin.isFinalQuoteCharacter_iff hrest).2 hfinal)), w, gap, _, hin,
        .inr ⟨rest, by rw [hfinal.1], ?_⟩⟩
      rw [hl, unquote_of_final esc hfinal, append_nil]
    · left
      have hstop : ¬ (c = 0 ∨ isFinalQuoteCharacter s.commandLine s.str = true) := by
        rw [hin.isFinalQuoteCharacter_iff hrest]
        exact fun hor => hor.elim hc hfinal
      rw [if_neg hstop]
      have hread := hin.read
      by_cases hesc : isEscapeCharacter esc c = true
      · rw [if_pos hesc]
        cases rest with
        | nil =>
          -- the line ends behind the escape character
          rw [hread.byteAt_of_nil, if_pos rfl]
          refine ⟨_, rfl, ⟨w, _, [], hread, not_mem_nil, ?_⟩, by dsimp only; omega⟩
          rw [hl]
          simp [unquote, hesc]
        | cons d rest =>
          have hd : d ≠ 0 := fun heq => hrest (heq ▸ mem_cons_self)
          rw [hread.byteAt_of_cons, if_neg hd]
          have hstore := hread.read.store (by simp) (escaped d)
          refine ⟨_, rfl, ⟨_, _, rest, hstore, fun hmem => hrest (mem_cons_of_mem _ hmem), ?_⟩,
            ?_⟩
          · rw [hl, unquote_of_escape esc hfinal hesc]
            simp
          · simp only [length_set]
            omega
      · rw [if_neg hesc]
        have hstore := hread.store (by simp) c
        refine ⟨_, rfl, ⟨_, _, rest, hstore, hrest, ?_⟩, ?_⟩
        · rw [hl, unquote_of_plain esc hfinal hesc]
          simp
        · simp only [length_set]
          omega

/-- **A quoted word is cut out in place.** -/
theorem quotedLoop_spec {pre l : List UInt8} (hl : 0 ∉ l) :
    HasRead esc pre l (quotedLoop esc ⟨pre ++ (l ++ [0]), pre.length, pre.length⟩) := by
  refine Loop.getD_run_spec (Reads esc pre l) (fun s => s.commandLine.length - s.str)
    (HasRead esc pre l) (fun _ => quotedBody_spec) _ _ _ ?_ ?_
  · exact ⟨[], [], l, ⟨by simp, by simp, by simp⟩, hl, by simp⟩
  · omega

/-! ### The argument vector -/

/-- What the loop that fills the argument vector keeps: the words that have been cut out, and
those of the rest of the line, are `ws`. -/
def Cutting (esc : UInt8) (ws : List (List UInt8)) (s : ArgState) : Prop :=
  ∃ pre rest done, s.commandLine = pre ++ (rest ++ [0]) ∧ s.str = pre.length ∧ 0 ∉ rest ∧
    List.Forall₂ (HasString pre) s.argv done ∧ done ++ words esc rest = ws

/-- All words have been cut out. -/
def Cut (ws : List (List UInt8)) (s : ArgState) : Prop :=
  s.argv.map (stringAt s.commandLine) = ws

variable {ws : List (List UInt8)}

theorem map_stringAt {buf : List UInt8} {argv : List ℕ} (h : List.Forall₂ (HasString buf) argv ws) :
    argv.map (stringAt buf) = ws := by
  induction h with
  | nil => rfl
  | cons hs _ ih => rw [map_cons, hs.stringAt_eq, ih]

theorem forall₂_append {pre : List UInt8} {argv : List ℕ}
    (h : List.Forall₂ (HasString pre) argv ws) (more : List UInt8) :
    List.Forall₂ (HasString (pre ++ more)) argv ws :=
  h.imp fun _ _ hs => hs.append more

/-- What an iteration that goes on leaves, with fewer than `n` characters to go.  At the end of
the line the last word need not have a zero of its own. -/
def GoesOn (esc : UInt8) (ws : List (List UInt8)) (n : ℕ) (s : ArgState) : Prop :=
  (Cutting esc ws s ∨ Cut ws s ∧ s.commandLine.drop s.str = [0]) ∧
    (s.commandLine.drop s.str).length < n

theorem takeWhile_isArgSpace (rest : List UInt8) :
    (rest ++ [0]).takeWhile isArgSpace = rest.takeWhile isArgSpace := by
  induction rest with
  | nil => rfl
  | cons c rest ih =>
    rw [cons_append, takeWhile_cons, takeWhile_cons, ih]

theorem takeWhile_word {rest : List UInt8} (h : 0 ∉ rest) :
    (rest ++ [0]).takeWhile (fun c => c ≠ 0 && !isArgSpace c)
      = rest.takeWhile (!isArgSpace ·) := by
  induction rest with
  | nil => rfl
  | cons c rest ih =>
    simp only [mem_cons, not_or] at h
    have hc : c ≠ 0 := Ne.symm h.1
    rw [cons_append, takeWhile_cons, takeWhile_cons, ih h.2]
    simp [hc]

section Iteration

variable {pre l : List UInt8} {argv : List ℕ} {done : List (List UInt8)}

theorem goesOn_quoted (hheld : List.Forall₂ (HasString pre) argv done) (hzero : 0 ∉ l)
    {q : QuotedState} (hq : HasRead esc (pre ++ [quote]) l q) :
    GoesOn esc (done ++ (unquote esc l).1 :: words esc (unquote esc l).2) (l.length + 2)
      ⟨q.commandLine.set q.arg 0, if byteAt q.commandLine q.str ≠ 0 then q.str + 1 else q.str,
        argv ++ [(pre ++ [quote]).length]⟩ := by
  obtain ⟨w, gap, rest, hin, hrest⟩ := hq
  have hheld' : 0 ∉ w → ∀ tail, List.Forall₂ (HasString (pre ++ [quote] ++ (w ++ 0 :: tail)))
      (argv ++ [(pre ++ [quote]).length]) (done ++ [w]) := fun hw tail =>
    rel_append (forall₂_append (forall₂_append hheld _) _)
      (.cons (.of_append hw _ tail) .nil)
  obtain ⟨hword, hbehind⟩ := zero_notMem_unquote esc hzero
  have hshort := length_unquote_le esc l
  rcases hrest with ⟨rfl, hl⟩ | ⟨r, rfl, hl⟩
  · -- the line ends before the quotes do
    rw [hl] at hword ⊢
    rw [hin.byteAt_of_nil, if_neg (not_not.2 rfl)]
    have hset : ∃ tail, q.commandLine.set q.arg 0 = pre ++ [quote] ++ (w ++ 0 :: tail) ∧
        (0 :: tail).drop gap.length = [0] := by
      rw [hin.line_eq, hin.arg_eq]
      cases gap with
      | nil => exact ⟨[], by simp, rfl⟩
      | cons y gap => exact ⟨gap ++ [0], by simp, by simp⟩
    obtain ⟨tail, hset, htail⟩ := hset
    have hdrop : (q.commandLine.set q.arg 0).drop q.str = [0] := by
      rw [hset, hin.str_eq, hin.arg_eq, ← append_assoc, ← drop_drop, drop_left,
        htail]
    refine ⟨.inr ⟨?_, hdrop⟩, ?_⟩
    · rw [words_of_nil rfl, hset]
      exact map_stringAt (hheld' hword tail)
    · rw [hdrop]
      simp
  · rw [hl] at hword hbehind hshort ⊢
    dsimp only at hshort
    have hne : byteAt q.commandLine q.str ≠ 0 := by
      rw [hin.byteAt_of_cons]
      decide
    rw [if_pos hne]
    have hstore := hin.read.store (by simp) 0
    refine ⟨.inl ⟨_, r, done ++ [w], hstore.line_eq', hstore.str_eq', hbehind, ?_, by simp⟩, ?_⟩
    · have hall := hheld' hword (gap ++ [quote]).tail
      simpa using hall
    · have hline := hstore.line_eq'
      have hstr := hstore.str_eq'
      dsimp only at hline hstr ⊢
      rw [hline, hstr, drop_left, length_append, length_singleton]
      omega

variable (esc) in
theorem plain_spec {c : UInt8} (hheld : List.Forall₂ (HasString pre) argv done)
    (hzero : 0 ∉ c :: l) (hc : isArgSpace c = false) :
    let w := (c :: l).takeWhile (!isArgSpace ·)
    let rest := (c :: l).dropWhile (!isArgSpace ·)
    byteAt (pre ++ (c :: l ++ [0])) (pre.length + w.length) = rest.headD 0 ∧
    (rest = [] → Cut (done ++ [w]) ⟨pre ++ (c :: l ++ [0]), pre.length + w.length,
        argv ++ [pre.length]⟩) ∧
      (rest ≠ [] → GoesOn esc (done ++ w :: words esc rest.tail) (l.length + 2)
        ⟨(pre ++ (c :: l ++ [0])).set (pre.length + w.length) 0, pre.length + w.length + 1,
          argv ++ [pre.length]⟩) := by
  intro w rest
  have hsplit : c :: l = w ++ rest := (takeWhile_append_dropWhile).symm
  have hw : 0 ∉ w := fun hmem => hzero (hsplit ▸ mem_append_left _ hmem)
  have hrest : 0 ∉ rest := fun hmem => hzero (hsplit ▸ mem_append_right _ hmem)
  have hline : pre ++ (c :: l ++ [0]) = (pre ++ w) ++ (rest ++ [0]) := by
    rw [hsplit]
    simp
  have hwpos : 0 < w.length := by
    show 0 < ((c :: l).takeWhile (!isArgSpace ·)).length
    rw [takeWhile_cons_of_pos (by simp [hc])]
    simp
  have hlen : (c :: l).length = w.length + rest.length := by rw [hsplit, length_append]
  have hheld' : ∀ tail, List.Forall₂ (HasString (pre ++ (w ++ 0 :: tail)))
      (argv ++ [pre.length]) (done ++ [w]) := fun tail =>
    rel_append (forall₂_append hheld _) (.cons (.of_append hw _ tail) .nil)
  rw [hline, ← length_append]
  clear_value rest
  cases rest with
  | nil =>
    refine ⟨byteAt_append _ 0 [], fun _ => ?_, fun h => absurd rfl h⟩
    have hall := hheld' []
    rw [← append_assoc] at hall
    exact map_stringAt hall
  | cons d rest =>
    refine ⟨byteAt_append _ d _, nofun, fun _ => ⟨.inl ⟨pre ++ w ++ [0], rest, done ++ [w],
      ?_, ?_, ?_, ?_, ?_⟩, ?_⟩⟩
    · dsimp only
      rw [cons_append, set_append]
      simp
    · simp only [length_append, length_singleton]
    · exact fun hmem => hrest (mem_cons_of_mem _ hmem)
    · have hall := hheld' []
      rwa [← append_assoc] at hall
    · simp
    · dsimp only
      rw [length_drop, length_set]
      simp only [length_append, length_cons, length_nil] at hlen ⊢
      omega

end Iteration

theorem argBody_spec {s : ArgState} (h : Cutting esc ws s) :
    (∃ s', argBody esc s = .inl s' ∧ GoesOn esc ws (s.commandLine.drop s.str).length s') ∨
      ∃ s', argBody esc s = .inr s' ∧ Cut ws s' := by
  obtain ⟨buf, str, argv⟩ := s
  obtain ⟨pre, rest, done, rfl, rfl, hzero, hheld, rfl⟩ := h
  unfold argBody
  dsimp only
  rw [drop_left, takeWhile_isArgSpace]
  -- the blank space, and what is behind it
  set blank := rest.takeWhile isArgSpace with hblank
  have hrest : rest = blank ++ rest.dropWhile isArgSpace := (takeWhile_append_dropWhile).symm
  have hline : pre ++ (rest ++ [0]) = (pre ++ blank) ++ (rest.dropWhile isArgSpace ++ [0]) := by
    conv_lhs => rw [hrest]
    simp
  have hlen : pre.length + blank.length = (pre ++ blank).length := length_append.symm
  have hlength : (rest ++ [0]).length = blank.length + (rest.dropWhile isArgSpace).length + 1 := by
    conv_lhs => rw [hrest]
    simp only [length_append, length_singleton]
  have hzero' : 0 ∉ rest.dropWhile isArgSpace :=
    fun hmem => hzero ((dropWhile_sublist _).mem hmem)
  have hheld' := forall₂_append hheld blank
  rw [hline, hlen, hlength]
  cases hword : rest.dropWhile isArgSpace with
  | nil =>
    right
    rw [nil_append, byteAt_append, if_pos rfl, words_of_nil hword, append_nil]
    exact ⟨_, rfl, map_stringAt (forall₂_append hheld' [0])⟩
  | cons c l =>
    have hspace := not_of_dropWhile_eq_cons hword
    rw [hword] at hzero'
    have hc : c ≠ 0 := fun heq => hzero' (heq ▸ mem_cons_self)
    have hgoes : ∀ s', GoesOn esc (done ++ words esc rest) (l.length + 2) s' →
        GoesOn esc (done ++ words esc rest) (blank.length + (c :: l).length + 1) s' := by
      rintro s' ⟨hs', hlt⟩
      refine ⟨hs', lt_of_lt_of_le hlt ?_⟩
      rw [length_cons]
      omega
    rw [cons_append, byteAt_append, if_neg hc]
    have hwords : words esc rest = _ := words_of_cons hword
    by_cases hquote : c = quote
    · subst hquote
      left
      have hbegin : pre ++ blank ++ quote :: (l ++ [0])
          = (pre ++ blank ++ [quote]) ++ (l ++ [0]) := by simp
      have hstr : (pre ++ blank).length + 1 = (pre ++ blank ++ [quote]).length := by
        simp only [length_append, length_singleton]
      have hl : 0 ∉ l := fun hmem => hzero' (mem_cons_of_mem _ hmem)
      rw [if_pos rfl, hbegin, hstr]
      refine ⟨_, rfl, hgoes _ ?_⟩
      rw [hwords, nextWord, if_pos rfl]
      exact goesOn_quoted hheld' hl (quotedLoop_spec hl)
    · obtain ⟨hbyte, hcut, hgo⟩ := plain_spec esc hheld' hzero' hspace
      rw [nextWord, if_neg hquote] at hwords
      rw [if_neg hquote, drop_left, ← cons_append, takeWhile_word hzero', hbyte]
      cases hbehind : (c :: l).dropWhile (!isArgSpace ·) with
      | nil =>
        right
        rw [hwords, hbehind, words_of_nil rfl]
        exact ⟨_, if_pos rfl, hcut hbehind⟩
      | cons d behind =>
        left
        have hd : d ≠ 0 := fun heq => hzero' (by
          rw [← takeWhile_append_dropWhile (p := (!isArgSpace ·)) (l := c :: l), hbehind, heq]
          simp)
        refine ⟨_, if_neg hd, hgoes _ ?_⟩
        rw [hwords]
        exact hgo (by rw [hbehind]; simp)

/-- **The arguments are the words of the line**, without the blank space at its ends. -/
theorem argInit_eq {argStr : List UInt8} (h : 0 ∉ argStr) :
    argInit esc argStr = words esc (strippedLine argStr) := by
  have hzero : 0 ∉ strippedLine argStr := by
    intro hmem
    have hdrop : (strippedLine argStr).Sublist argStr :=
      (List.rdropWhile_prefix _ _).sublist.trans (dropWhile_sublist _)
    exact h (hdrop.mem hmem)
  refine Loop.getD_run_spec
    (fun s => Cutting esc (words esc (strippedLine argStr)) s ∨
      Cut (words esc (strippedLine argStr)) s ∧ s.commandLine.drop s.str = [0])
    (fun s => (s.commandLine.drop s.str).length) (Cut (words esc (strippedLine argStr))) ?_
    _ _ _ ?_ ?_
  · rintro s (hs | ⟨hcut, hend⟩)
    · rcases argBody_spec hs with ⟨s', hstep, hs', hlt⟩ | hdone
      · exact .inl ⟨s', hstep, hs', hlt⟩
      · exact .inr hdone
    · -- the next iteration finds the end of the line
      have hbyte : byteAt s.commandLine s.str = 0 := by
        rw [byteAt, ← Nat.add_zero s.str, getD_eq_getElem?_getD, ← getElem?_drop, hend]
        rfl
      have hblank : ((s.commandLine.drop s.str).takeWhile isArgSpace).length = 0 := by
        rw [hend]
        rfl
      refine .inr ⟨s, ?_, hcut⟩
      unfold argBody
      rw [hblank, Nat.add_zero, if_pos hbyte]
  · exact .inl ⟨[], strippedLine argStr, [], rfl, rfl, hzero, .nil, rfl⟩
  · simp

/-- The argument vector, with the name of the program, is as long as was counted. -/
theorem length_argInit {argStr : List UInt8} (h : 0 ∉ argStr) :
    (argInit esc argStr).length + 1 = countArguments esc (strippedLine argStr) := by
  rw [argInit_eq h, countArguments_eq]

/-! ### The characters that are still to be read -/

/-- Nothing has been stored from `str` on, and the next character is stored in front of it or
there. -/
def Unread (line : List UInt8) (s : QuotedState) : Prop :=
  s.arg ≤ s.str ∧ s.commandLine.drop s.str = line.drop s.str

variable {line buf : List UInt8} {str arg : ℕ}

namespace Unread

theorem skip (h : Unread line ⟨buf, str, arg⟩) (n : ℕ) : Unread line ⟨buf, str + n, arg⟩ := by
  refine ⟨h.1.trans (Nat.le_add_right ..), ?_⟩
  show buf.drop (str + n) = line.drop (str + n)
  rw [← drop_drop, h.2, drop_drop]

theorem store (h : Unread line ⟨buf, str, arg⟩) (hlt : arg < str) (x : UInt8) :
    Unread line ⟨buf.set arg x, str, arg + 1⟩ :=
  ⟨hlt, (drop_set_of_lt hlt).trans h.2⟩

theorem drop_set_zero (h : Unread line ⟨buf, str, arg⟩) (hzero : byteAt buf str = 0) :
    (buf.set arg 0).drop str = line.drop str := by
  obtain hlt | rfl := lt_or_eq_of_le (show arg ≤ str from h.1)
  · exact (h.store hlt 0).2
  · have hset : buf.set arg 0 = buf := by
      refine ext_getElem? fun i => ?_
      unfold byteAt at hzero
      grind
    rw [hset]
    exact h.2

end Unread

theorem unread_quotedBody {s s' : QuotedState} (h : Unread line s)
    (hstep : quotedBody esc s = .inl s') : Unread line s' := by
  unfold quotedBody at hstep
  dsimp only at hstep
  have hle := h.1
  split_ifs at hstep <;> cases hstep
  · exact h.skip 1
  · exact (h.skip 2).store (by omega) _
  · exact (h.skip 1).store (by omega) _

/-- The loop over a quoted word, which begins behind the quote. -/
theorem unread_quotedLoop (h : buf.drop str = line.drop str) :
    Unread line (quotedLoop esc ⟨buf, str + 1, str + 1⟩) := by
  have hstart : Unread line ⟨buf, str + 1, str + 1⟩ :=
    ⟨le_rfl, (Unread.skip ⟨Nat.zero_le _, h⟩ 1).2⟩
  refine Loop.getD_run_invariant (Unread line) (Unread line) ?_ hstart _ hstart
  intro q hq
  cases hstep : quotedBody esc q with
  | inl q' => exact unread_quotedBody hq hstep
  | inr q' =>
    unfold quotedBody at hstep
    dsimp only at hstep
    split_ifs at hstep
    cases hstep
    exact hq

theorem unread_argBody {s s' : ArgState} (h : s.commandLine.drop s.str = line.drop s.str)
    (hstep : argBody esc s = .inl s') : s'.commandLine.drop s'.str = line.drop s'.str := by
  unfold argBody at hstep
  dsimp only at hstep
  have hword := (Unread.skip ⟨Nat.zero_le _, h⟩
    ((s.commandLine.drop s.str).takeWhile isArgSpace).length).2
  have hq : Unread line (quotedLoop esc _) := unread_quotedLoop hword
  split_ifs at hstep with _ _ hlast hlast <;> cases hstep
  · -- the zero that ends the word is stored over its last quote
    exact ((hq.skip 1).store (Nat.lt_succ_of_le hq.1) 0).2
  · exact hq.drop_set_zero (not_not.1 hlast)
  · rw [drop_set_of_lt (Nat.lt_succ_self _)]
    exact (Unread.skip ⟨Nat.zero_le _, hword⟩ (_ + 1)).2

/-! ### The whole vector -/

variable (esc) in
/-- `__argv`: the arguments and a null pointer, in as many slots as were counted and one more.
There is no value if they do not fit. -/
def argVector (progname argStr : List UInt8) : Option (List (Option (List UInt8))) :=
  let entries := (progname :: argInit esc argStr).map some ++ [none]
  let slots := countArguments esc (strippedLine argStr) + 1
  if entries.length ≤ slots then some (entries ++ List.replicate (slots - entries.length) none)
  else none

/-- **The argument vector** has the words of the line, in exactly as many slots as were counted, and
nothing is stored where the line has not been read. -/
theorem argVector_eq_words (esc : UInt8) (progname : List UInt8) {argStr : List UInt8}
    (h : 0 ∉ argStr) :
    argVector esc progname argStr =
        some ((progname :: words esc (strippedLine argStr)).map some ++ [none]) ∧
      (argInit esc argStr).length + 1 = countArguments esc (strippedLine argStr) ∧
      ∀ s, Loop.Reaches (argBody esc) ⟨strippedLine argStr ++ [0], 0, []⟩ s →
        s.commandLine.drop s.str = (strippedLine argStr ++ [0]).drop s.str ∧
        ∀ n q, Loop.Reaches (quotedBody esc) ⟨s.commandLine, s.str + n, s.str + n⟩ q →
          q.commandLine.drop q.str = (strippedLine argStr ++ [0]).drop q.str := by
  have hcount : (argInit esc _).length + 1 = _ := length_argInit h
  refine ⟨?_, hcount, ?_⟩
  · unfold argVector
    rw [← hcount, ← argInit_eq h, if_pos (by simp)]
    simp
  · intro s hs
    have hunread : s.commandLine.drop s.str = (strippedLine argStr ++ [0]).drop s.str := by
      induction hs with
      | refl => rfl
      | tail _ hstep ih => exact unread_argBody ih hstep
    refine ⟨hunread, ?_⟩
    intro n q hq
    have hquoted : Unread (strippedLine argStr ++ [0]) q := by
      induction hq with
      | refl => exact ⟨le_rfl, (Unread.skip ⟨Nat.zero_le _, hunread⟩ n).2⟩
      | tail _ hstep ih => exact unread_quotedBody ih hstep
    exact hquoted.2

/-- Two words, the second one with an escaped quote. -/
theorem argVector_eq_words_quoted :
    argVector 42 [99] [97, 32, 34, 42, 34, 34] = some [some [99], some [97], some [34], none] :=
  (argVector_eq_words 42 [99] (by decide)).1.trans (by decide +kernel)

end Clib4
