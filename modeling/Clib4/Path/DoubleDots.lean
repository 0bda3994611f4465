import Clib4.Path.Canonical

/-!
# Double dots

The loop that replaces `/../` by `//` goes on behind the second slash of a match, so that this
slash cannot start the next match: of double dots that follow one another inside a name, only
every other one is replaced.  The others stay as components `..`, which AmigaDOS enters like any
other name.  Double dots at the start and at the end of the name are treated apart, and rightly.

## Main definitions

* `Adjacent` — two double dots in succession that are followed by something.

## Main results

* `walk_resultMoves_iff` — **it means what the name meant just if no two double dots are
  adjacent.**
-/

namespace Clib4

open Pieces List
open Place (Move)

/-! ### The rewrites, piece by piece -/

/-- The loop over the pieces behind the first one.  A double dot with a slash behind it becomes
empty, and the piece behind that slash is copied unseen. -/
def replacePieces : List (List UInt8) → List (List UInt8)
  | [] => []
  | [p] => [p]
  | p :: q :: ps =>
    if p = dotDot then [] :: q :: replacePieces ps else p :: replacePieces (q :: ps)

/-- The rewrite of a double dot at the end. -/
def trailPieces : List (List UInt8) → List (List UInt8)
  | [] => []
  | [p] => if p = dotDot then [[], []] else [p]
  | p :: q :: ps => p :: trailPieces (q :: ps)

theorem slash_not_mem_dotDot : slash ∉ dotDot := by decide

variable {p q : List UInt8} {ps : List (List UInt8)}

theorem prefix_glue_iff {t : List UInt8} (ht : slash ∉ t) (hp : slash ∉ p)
    (hps : ∀ q ∈ ps, slash ∉ q) :
    t ++ [slash] <+: p ++ glue slash ps ↔ p = t ∧ ps ≠ [] := by
  constructor
  · rintro ⟨r, hr⟩
    have hsplit : (t ++ slash :: r).splitOn slash = p :: ps := by
      rw [← splitOn_glue hp hps, ← hr]
      simp
    rw [splitOn_append_cons_self, splitOn_eq_singleton ht] at hsplit
    obtain ⟨rfl, hps⟩ := List.cons.inj hsplit
    refine ⟨rfl, ?_⟩
    rw [← hps]
    exact splitOn_ne_nil slash r
  · rintro ⟨rfl, hne⟩
    obtain ⟨q, qs, rfl⟩ := exists_cons_of_ne_nil hne
    exact ⟨q ++ glue slash qs, by simp⟩

theorem dotDotsLoop_cons {c : UInt8} {s : List UInt8}
    (h : ¬ [slash, dot, dot, slash] <+: c :: s) : dotDotsLoop (c :: s) = c :: dotDotsLoop s := by
  match s with
  | [] => rfl
  | [d] => rfl
  | [d, e] => rfl
  | d :: e :: f :: rest =>
    rw [dotDotsLoop, if_neg]
    rintro ⟨rfl, rfl, rfl, rfl⟩
    exact h ⟨rest, rfl⟩

theorem dotDotsLoop_append (hp : slash ∉ p) (s : List UInt8) :
    dotDotsLoop (p ++ s) = p ++ dotDotsLoop s := by
  induction p with
  | nil => rfl
  | cons c p ih =>
    simp only [mem_cons, not_or] at hp
    rw [cons_append, dotDotsLoop_cons, ih hp.2, cons_append]
    rintro ⟨r, hr⟩
    exact hp.1 (List.cons.inj hr).1

theorem mem_dotDotsLoop {c : UInt8} {s : List UInt8} (h : c ∈ dotDotsLoop s) :
    c ∈ s ∨ c = slash := by
  fun_induction dotDotsLoop s with
  | case1 => exact .inl h
  | case2 | case3 | case4 =>
    simp only [mem_cons] at *
    tauto

theorem dotDotsLoop_glue_dotDot (hq : slash ∉ q) (ps : List (List UInt8)) :
    dotDotsLoop (glue slash (dotDot :: q :: ps))
      = slash :: slash :: (q ++ dotDotsLoop (glue slash ps)) := by
  rw [← dotDotsLoop_append hq]
  show dotDotsLoop (slash :: dot :: dot :: slash :: (q ++ glue slash ps)) = _
  rw [dotDotsLoop, if_pos ⟨rfl, rfl, rfl, rfl⟩]

theorem dotDotsLoop_glue_cons (hq : slash ∉ q) (hps : ∀ r ∈ ps, slash ∉ r)
    (h : q ≠ dotDot ∨ ps = []) :
    dotDotsLoop (glue slash (q :: ps)) = slash :: (q ++ dotDotsLoop (glue slash ps)) := by
  rw [← dotDotsLoop_append hq, glue_cons, dotDotsLoop_cons]
  intro hmatch
  have hpre : dotDot ++ [slash] <+: q ++ glue slash ps := (cons_prefix_cons.1 hmatch).2
  obtain ⟨hdots, hne⟩ := (prefix_glue_iff slash_not_mem_dotDot hq hps).1 hpre
  exact h.elim (fun h => h hdots) hne

theorem dotDotsLoop_glue (hps : ∀ q ∈ ps, slash ∉ q) :
    dotDotsLoop (glue slash ps) = glue slash (replacePieces ps) := by
  fun_induction replacePieces ps with
  | case1 => rfl
  | case2 p =>
    rw [dotDotsLoop_glue_cons (hps p mem_cons_self) (by simp) (.inr rfl)]
    simp [dotDotsLoop]
  | case3 q ps ih =>
    have hq : slash ∉ q := hps q (by simp)
    rw [dotDotsLoop_glue_dotDot hq, ih fun r hr => hps r (by simp [hr])]
    simp
  | case4 p q ps hp ih =>
    have htail : ∀ r ∈ q :: ps, slash ∉ r := fun r hr => hps r (mem_cons_of_mem _ hr)
    rw [dotDotsLoop_glue_cons (hps p mem_cons_self) htail (.inl hp), ih htail,
      glue_cons]

theorem dotDotsLoop_of_no_match {name : List UInt8}
    (h : ¬ [slash, dot, dot, slash] <:+: name) : dotDotsLoop name = name := by
  induction name with
  | nil => rfl
  | cons c name ih =>
    rw [dotDotsLoop_cons fun hin => h hin.isInfix,
      ih fun hin => h (hin.trans (suffix_cons c name).isInfix)]

theorem replaceEmbeddedDotDots_eq (name : List UInt8) :
    replaceEmbeddedDotDots name = dotDotsLoop name := by
  rw [replaceEmbeddedDotDots]
  split
  case isTrue => rfl
  case isFalse h =>
    refine (dotDotsLoop_of_no_match fun hin => h ⟨?_, hin⟩).symm
    exact hin.length_le

theorem trailPieces_cons (p : List UInt8) (hps : ps ≠ []) :
    trailPieces (p :: ps) = p :: trailPieces ps := by
  obtain ⟨q, qs, rfl⟩ := exists_cons_of_ne_nil hps
  rfl

theorem trailPieces_concat_dotDot (ps : List (List UInt8)) :
    trailPieces (ps ++ [dotDot]) = ps ++ [[], []] := by
  induction ps with
  | nil => rfl
  | cons p ps ih => rw [cons_append, trailPieces_cons p (by simp), ih, cons_append]

theorem trailPieces_of_last_ne (h : ¬ ∃ qs, ps = qs ++ [dotDot]) : trailPieces ps = ps := by
  induction ps with
  | nil => rfl
  | cons p ps ih =>
    by_cases hps : ps = []
    · rw [hps] at h ⊢
      rw [trailPieces, if_neg fun hp => h ⟨[], by rw [hp]; rfl⟩]
    · rw [trailPieces_cons p hps, ih]
      rintro ⟨qs, hqs⟩
      exact h ⟨p :: qs, by rw [hqs]; rfl⟩

theorem replaceTrailingDotDot_pieces (hp : slash ∉ p) (hps : ∀ q ∈ ps, slash ∉ q) :
    replaceTrailingDotDot (p ++ glue slash ps) = p ++ glue slash (trailPieces ps) := by
  rw [replaceTrailingDotDot]
  split
  case isTrue h =>
    obtain ⟨qs, rfl⟩ := (suffix_glue_iff slash_not_mem_dotDot hp hps).1 h
    rw [trailPieces_concat_dotDot]
    have htext : p ++ glue slash (qs ++ [dotDot]) = (p ++ glue slash qs ++ [slash]) ++ dotDot := by
      simp
    have hlen : (p ++ glue slash qs ++ [slash]).length
        = ((p ++ glue slash qs ++ [slash]) ++ dotDot).length - 2 := by
      simp only [length_append, dotDot, length_cons, length_nil]
      omega
    rw [htext, take_left' hlen]
    simp
  case isFalse h =>
    rw [trailPieces_of_last_ne]
    exact fun hlast => h ((suffix_glue_iff slash_not_mem_dotDot hp hps).2 hlast)

theorem replacePieces_slash (hps : ∀ q ∈ ps, slash ∉ q) : ∀ q ∈ replacePieces ps, slash ∉ q := by
  fun_induction replacePieces ps with
  | case1 | case2 p => exact hps
  | case3 q ps ih =>
    intro r hr
    simp only [mem_cons] at hr
    rcases hr with rfl | rfl | hr
    · simp
    · exact hps r (by simp)
    · exact ih (fun r hr => hps r (by simp [hr])) r hr
  | case4 p q ps hp ih =>
    intro r hr
    rcases mem_cons.1 hr with rfl | hr
    · exact hps r mem_cons_self
    · exact ih (fun r hr => hps r (mem_cons_of_mem _ hr)) r hr

theorem slash_not_mem_replaced (hps : ∀ q ∈ ps, slash ∉ q) :
    ∀ q ∈ trailPieces (replacePieces ps), slash ∉ q := by
  have hreplace := replacePieces_slash hps
  by_cases hlast : ∃ qs, replacePieces ps = qs ++ [dotDot]
  · obtain ⟨qs, hqs⟩ := hlast
    rw [hqs, trailPieces_concat_dotDot]
    intro r hr
    rcases mem_append.1 hr with hr | hr
    · exact hreplace r (by simp [hqs, hr])
    · simp only [mem_cons, not_mem_nil, or_false, or_self] at hr
      simp [hr]
  · rw [trailPieces_of_last_ne hlast]
    exact hreplace

theorem replaceDots_of_ne {name : List UInt8} (hdots : name ≠ dotDot) (hdot : name ≠ [dot]) :
    replaceDots name = name := by
  simp [replaceDots, hdots, hdot]

theorem replacePieces_ne_nil (h : ps ≠ []) : replacePieces ps ≠ [] := by
  match ps with
  | [p] => simp [replacePieces]
  | p :: q :: ps =>
    rw [replacePieces]
    split <;> simp

theorem trailPieces_ne_nil (h : ps ≠ []) : trailPieces ps ≠ [] := by
  match ps with
  | [p] =>
    rw [trailPieces]
    split <;> simp
  | p :: q :: ps => simp [trailPieces]

/-- All rewrites of dots, piece by piece: the first piece is treated apart. -/
theorem translateDots_pieces (hp : slash ∉ p) (hdot : p ≠ [dot]) (hps : ∀ q ∈ ps, slash ∉ q) :
    translateDots (p ++ glue slash ps) =
      if p = dotDot then
        if ps = [] then [slash] else glue slash (trailPieces (replacePieces ps))
      else p ++ glue slash (trailPieces (replacePieces ps)) := by
  have hreplaced := slash_not_mem_replaced hps
  have hembedded : replaceTrailingDotDot (replaceEmbeddedDotDots (p ++ glue slash ps))
      = p ++ glue slash (trailPieces (replacePieces ps)) := by
    rw [replaceEmbeddedDotDots_eq, dotDotsLoop_append hp, dotDotsLoop_glue hps,
      replaceTrailingDotDot_pieces hp]
    exact fun q hq => replacePieces_slash hps q hq
  rw [translateDots, hembedded, replaceLeadingDotDot]
  split
  case isTrue hlead =>
    obtain ⟨rfl, hne⟩ := (prefix_glue_iff slash_not_mem_dotDot hp hreplaced).1 hlead
    have hps' : ps ≠ [] := by
      rintro rfl
      exact hne rfl
    rw [if_pos rfl, if_neg hps']
    obtain ⟨q, qs, hq⟩ := exists_cons_of_ne_nil hne
    rw [hq, glue_cons]
    show replaceDots (slash :: (q ++ glue slash qs)) = _
    rw [replaceDots_of_ne (fun h => absurd (List.cons.inj h).1 (by decide))
      (fun h => absurd (List.cons.inj h).1 (by decide))]
  case isFalse hlead =>
    by_cases hps' : ps = []
    · subst hps'
      simp only [replacePieces, trailPieces, glue_nil, append_nil]
      by_cases hdots : p = dotDot
      · rw [if_pos hdots, hdots]
        rfl
      · rw [if_neg hdots, replaceDots_of_ne hdots hdot]
    · have hne := trailPieces_ne_nil (replacePieces_ne_nil hps')
      have hdots : p ≠ dotDot := fun h =>
        hlead ((prefix_glue_iff slash_not_mem_dotDot hp hreplaced).2 ⟨h, hne⟩)
      obtain ⟨q, qs, hq⟩ := exists_cons_of_ne_nil hne
      have hmem : slash ∈ p ++ glue slash (trailPieces (replacePieces ps)) := by simp [hq]
      rw [if_neg hdots, replaceDots_of_ne]
      · intro h
        rw [h] at hmem
        exact slash_not_mem_dotDot hmem
      · intro h
        rw [h] at hmem
        exact absurd hmem (by decide)

/-! ### What the rewritten name means -/

/-- The steps that the pieces behind the first one mean after the rewrites: a double dot that
the loop has passed over is entered. -/
def resultMoves : List (List UInt8) → List (Move (List UInt8))
  | [] => []
  | [p] => [posixMove p]
  | [p, q] => if p = dotDot then [.parent, posixMove q] else [.enter p, posixMove q]
  | p :: q :: r :: ps =>
    if p = dotDot then .parent :: .enter q :: resultMoves (r :: ps)
    else .enter p :: resultMoves (q :: r :: ps)

theorem posixMove_dotDot : posixMove dotDot = .parent := by decide

theorem posixMove_proper (hq : q ≠ []) (hdot : q ≠ [dot]) (hdots : q ≠ dotDot) :
    posixMove q = .enter q := by
  simp [posixMove, hq, hdot, hdots]

theorem amigaMoves_cons (p : List UInt8) (hps : ps ≠ []) :
    amigaMoves (p :: ps) = slashMove p :: amigaMoves ps := by
  obtain ⟨q, qs, rfl⟩ := exists_cons_of_ne_nil hps
  rfl

/-- At the end of the name a double dot is the parent, as it should be. -/
theorem walk_trailPieces_singleton (x : Place (List UInt8)) (hp : p ≠ []) (hdot : p ≠ [dot]) :
    x.walk (amigaMoves (trailPieces [p])) = x.walk [posixMove p] := by
  rw [trailPieces]
  split
  case isTrue hdots =>
    rw [hdots]
    rfl
  case isFalse hdots =>
    rw [posixMove_proper hp hdot hdots, amigaMoves, if_neg hp]

/-- The pieces behind the first one lead along `resultMoves`. -/
theorem walk_trailPieces (x : Place (List UInt8)) (hps : ∀ q ∈ ps, q ≠ [] ∧ q ≠ [dot]) :
    x.walk (amigaMoves (trailPieces (replacePieces ps))) = x.walk (resultMoves ps) := by
  fun_induction resultMoves ps generalizing x with
  | case1 => rfl
  | case2 p =>
    obtain ⟨hp, hdot⟩ := hps p (by simp)
    exact walk_trailPieces_singleton x hp hdot
  | case3 q =>
    obtain ⟨hq, hdot⟩ := hps q (by simp)
    rw [replacePieces, if_pos rfl, replacePieces, trailPieces_cons _ (by simp),
      amigaMoves_cons _ (trailPieces_ne_nil (by simp)), Place.walk_cons,
      walk_trailPieces_singleton _ hq hdot]
    rfl
  | case4 p q hp =>
    obtain ⟨hpnil, -⟩ := hps p (by simp)
    obtain ⟨hq, hdot⟩ := hps q (by simp)
    rw [replacePieces, if_neg hp, replacePieces, trailPieces_cons _ (by simp),
      amigaMoves_cons _ (trailPieces_ne_nil (by simp)), Place.walk_cons,
      walk_trailPieces_singleton _ hq hdot, slashMove, if_neg hpnil]
    rfl
  | case5 q r ps ih =>
    -- the piece behind a replaced double dot is entered, whatever it is
    obtain ⟨hq, -⟩ := hps q (by simp)
    have hne := replacePieces_ne_nil (cons_ne_nil r ps)
    rw [replacePieces, if_pos rfl, trailPieces_cons _ (by simp),
      trailPieces_cons _ hne, amigaMoves_cons _ (by simp),
      amigaMoves_cons _ (trailPieces_ne_nil hne), Place.walk_cons, Place.walk_cons,
      ih _ fun s hs => hps s (by simp only [mem_cons] at hs ⊢; tauto)]
    rw [slashMove, slashMove, if_pos rfl, if_neg hq]
    rfl
  | case6 p q r ps hp ih =>
    obtain ⟨hpnil, -⟩ := hps p (by simp)
    have hne := replacePieces_ne_nil (cons_ne_nil q (r :: ps))
    rw [replacePieces, if_neg hp, trailPieces_cons _ hne,
      amigaMoves_cons _ (trailPieces_ne_nil hne), Place.walk_cons,
      ih _ fun s hs => hps s (mem_cons_of_mem _ hs), slashMove, if_neg hpnil]
    rfl

theorem amigaWalk_translateDots (x : Place (List UInt8)) (hp : p ≠ [] ∧ p ≠ [dot] ∧ slash ∉ p)
    (hps : ∀ q ∈ ps, q ≠ [] ∧ q ≠ [dot] ∧ slash ∉ q) :
    amigaWalk x (translateDots (p ++ glue slash ps)) = x.walk (posixMove p :: resultMoves ps) := by
  have hslash : ∀ q ∈ ps, slash ∉ q := fun q hq => (hps q hq).2.2
  have hproper : ∀ q ∈ ps, q ≠ [] ∧ q ≠ [dot] := fun q hq => ⟨(hps q hq).1, (hps q hq).2.1⟩
  have hreplaced := slash_not_mem_replaced hslash
  rw [translateDots_pieces hp.2.2 hp.2.1 hslash, Place.walk_cons, ← walk_trailPieces _ hproper]
  by_cases hempty : ps = []
  · subst hempty
    split
    case isTrue hdots =>
      rw [hdots]
      rfl
    case isFalse hdots =>
      rw [posixMove_proper hp.1 hp.2.1 hdots, amigaWalk, splitOn_glue hp.2.2 hreplaced]
      show x.walk (amigaMoves [p]) = _
      rw [amigaMoves, if_neg hp.1]
      rfl
  · have hne := trailPieces_ne_nil (replacePieces_ne_nil hempty)
    split
    case isTrue hdots =>
      rw [hdots, amigaWalk, ← nil_append (glue slash _),
        splitOn_glue (by simp) hreplaced, amigaMoves_cons _ hne]
      rfl
    case isFalse hdots =>
      rw [posixMove_proper hp.1 hp.2.1 hdots, amigaWalk, splitOn_glue hp.2.2 hreplaced,
        amigaMoves_cons _ hne, slashMove, if_neg hp.1]
      rfl

/-! ### The exact condition -/

/-- Two double dots in succession that are followed by something. -/
def Adjacent (ps : List (List UInt8)) : Prop :=
  ∃ a b, b ≠ [] ∧ ps = a ++ dotDot :: dotDot :: b

theorem adjacent_cons_of_ne (hp : p ≠ dotDot) (ps : List (List UInt8)) :
    Adjacent (p :: ps) ↔ Adjacent ps := by
  constructor
  · rintro ⟨a, b, hb, h⟩
    cases a with
    | nil => exact absurd (List.cons.inj h).1 hp
    | cons c a => exact ⟨a, b, hb, (List.cons.inj h).2⟩
  · rintro ⟨a, b, hb, rfl⟩
    exact ⟨p :: a, b, hb, rfl⟩

theorem adjacent_dotDot_cons_of_ne (hq : q ≠ dotDot) (ps : List (List UInt8)) :
    Adjacent (dotDot :: q :: ps) ↔ Adjacent ps := by
  rw [← adjacent_cons_of_ne hq ps]
  constructor
  · rintro ⟨a, b, hb, h⟩
    cases a with
    | nil => exact absurd (List.cons.inj (List.cons.inj h).2).1 hq
    | cons c a => exact ⟨a, b, hb, (List.cons.inj h).2⟩
  · rintro ⟨a, b, hb, h⟩
    exact ⟨dotDot :: a, b, hb, by rw [h]; rfl⟩

theorem not_adjacent_of_length_le (h : ps.length ≤ 2) : ¬ Adjacent ps := by
  rintro ⟨a, b, hb, rfl⟩
  have hpos := length_pos_iff.2 hb
  simp only [length_append, length_cons] at h
  omega

/-- How much deeper a list of steps goes. -/
def descents (ms : List (Move (List UInt8))) : ℤ := (ms.map Move.descent).sum

@[simp] theorem descents_cons (m : Move (List UInt8)) (ms : List (Move (List UInt8))) :
    descents (m :: ms) = m.descent + descents ms := by
  simp [descents]

/-- Without adjacent double dots each is replaced; with them, each one that is passed over is a
step down in place of a step up. -/
theorem resultMoves_cases (hps : ∀ q ∈ ps, q ≠ [] ∧ q ≠ [dot]) :
    (¬ Adjacent ps ∧ resultMoves ps = ps.map posixMove) ∨
    (Adjacent ps ∧ descents (ps.map posixMove) < descents (resultMoves ps)) := by
  fun_induction resultMoves ps with
  | case1 | case2 | case3 => exact .inl ⟨not_adjacent_of_length_le (by simp), rfl⟩
  | case4 p q hp =>
    obtain ⟨hnil, hdot⟩ := hps p (by simp)
    refine .inl ⟨not_adjacent_of_length_le (by simp), ?_⟩
    rw [map_cons, posixMove_proper hnil hdot hp]
    rfl
  | case5 q r ps ih =>
    have ih := ih fun s hs => hps s (by simp only [mem_cons] at hs ⊢; tauto)
    rw [map_cons, map_cons, posixMove_dotDot]
    by_cases hq : q = dotDot
    · -- the second of the two is entered
      refine .inr ⟨⟨[], r :: ps, by simp, by rw [hq]; rfl⟩, ?_⟩
      have hle : descents ((r :: ps).map posixMove) ≤ descents (resultMoves (r :: ps)) := by
        rcases ih with ⟨-, heq⟩ | ⟨-, hlt⟩
        · rw [heq]
        · exact hlt.le
      rw [hq, posixMove_dotDot]
      simp only [descents_cons, Move.descent]
      omega
    · obtain ⟨hnil, hdot⟩ := hps q (by simp)
      rw [adjacent_dotDot_cons_of_ne hq, posixMove_proper hnil hdot hq]
      rcases ih with ⟨hadj, heq⟩ | ⟨hadj, hlt⟩
      · exact .inl ⟨hadj, by rw [heq]⟩
      · exact .inr ⟨hadj, by simp only [descents_cons]; omega⟩
  | case6 p q r ps hp ih =>
    obtain ⟨hnil, hdot⟩ := hps p (by simp)
    have ih := ih fun s hs => hps s (mem_cons_of_mem _ hs)
    rw [adjacent_cons_of_ne hp, map_cons, posixMove_proper hnil hdot hp]
    rcases ih with ⟨hadj, heq⟩ | ⟨hadj, hlt⟩
    · exact .inl ⟨hadj, by rw [heq]⟩
    · exact .inr ⟨hadj, by simp only [descents_cons]; omega⟩

/-- **The rewritten name leads where the name led just if no two double dots are adjacent**:
the places differ in depth otherwise. -/
theorem walk_resultMoves_iff (x : Place (List UInt8)) (hps : ∀ q ∈ ps, q ≠ [] ∧ q ≠ [dot]) :
    x.walk (resultMoves ps) = x.walk (ps.map posixMove) ↔ ¬ Adjacent ps := by
  rcases resultMoves_cases hps with ⟨hadj, heq⟩ | ⟨hadj, hlt⟩
  · rw [heq]
    exact ⟨fun _ => hadj, fun _ => rfl⟩
  · refine ⟨fun h => ?_, fun h => absurd hadj h⟩
    have hdepth := congrArg Place.depth h
    rw [Place.depth_walk, Place.depth_walk] at hdepth
    simp only [descents] at hlt
    omega

end Clib4
