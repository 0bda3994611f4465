import Clib4.Path.UnixToAmiga

/-!
# Canonical names

The first five rewrites of a Unix path name leave its proper components, the non-empty ones
that are not a dot, with single slashes between them.  Each rewrite is followed piece by piece
along the decomposition of `Pieces`.

## Main definitions

* `properComponents` — the components of a name that mean a step.

## Main results

* `canonicalName_relative`, `canonicalName_absolute` — **the canonical name holds the proper
  components of the name.**
-/

namespace Clib4

open Pieces List

/-- The components that are not empty. -/
def nonemptyPieces (ps : List (List UInt8)) : List (List UInt8) := ps.filter (· ≠ [])

/-- The components that are not a dot. -/
def dotlessPieces (ps : List (List UInt8)) : List (List UInt8) := ps.filter (· ≠ [dot])

/-- The components of a name that mean a step: neither empty nor a dot. -/
def properComponents (name : List UInt8) : List (List UInt8) :=
  dotlessPieces (nonemptyPieces (name.splitOn slash))

/-! ### Slashes -/

variable {p q name s : List UInt8} {ps : List (List UInt8)}

theorem squeezeLoop_append (hp : slash ∉ p) (b : Bool) (s : List UInt8) :
    squeezeLoop b (p ++ s) = p ++ squeezeLoop (if p = [] then b else false) s := by
  induction p generalizing b with
  | nil => rfl
  | cons c p ih =>
    simp only [mem_cons, not_or] at hp
    rw [cons_append, squeezeLoop, if_neg (Ne.symm hp.1), ih hp.2]
    simp

theorem squeezeLoop_glue_cons (hq : slash ∉ q) (b : Bool) (qs : List (List UInt8)) :
    squeezeLoop b (glue slash (q :: qs)) = (if b then [] else [slash]) ++
      (q ++ squeezeLoop (decide (q = [])) (glue slash qs)) := by
  rw [glue_cons, squeezeLoop, if_pos rfl, squeezeLoop_append hq]
  by_cases h : q = [] <;> cases b <;> simp [h]

/-- One slash stays in front of each piece that is not empty, and one at the end. -/
theorem squeezeLoop_glue (hps : ∀ q ∈ ps, slash ∉ q) : (∃ k, squeezeLoop false (glue slash ps)
      = glue slash (nonemptyPieces ps) ++ List.replicate k slash) ∧
    (∃ k, squeezeLoop true (glue slash ps)
      = (glue slash (nonemptyPieces ps)).drop 1 ++ List.replicate k slash ∧
      (nonemptyPieces ps = [] → k = 0)) := by
  induction ps with
  | nil => exact ⟨⟨0, rfl⟩, 0, rfl, fun _ => rfl⟩
  | cons q ps ih =>
    obtain ⟨⟨k, hk⟩, k', hk', hzero⟩ := ih fun r hr => hps r (mem_cons_of_mem _ hr)
    have hq := hps q mem_cons_self
    rw [squeezeLoop_glue_cons hq, squeezeLoop_glue_cons hq]
    by_cases hnil : q = []
    · -- the slash waits for the next piece that is not empty
      have hfilter : nonemptyPieces (q :: ps) = nonemptyPieces ps := by simp [nonemptyPieces, hnil]
      rw [hfilter]
      simp only [hnil, decide_true, hk']
      refine ⟨?_, k', by simp, hzero⟩
      cases hf : nonemptyPieces ps with
      | nil => exact ⟨1, by simp [hzero hf]⟩
      | cons r rs => exact ⟨k', by simp⟩
    · have hfilter : nonemptyPieces (q :: ps) = q :: nonemptyPieces ps := by
        simp [nonemptyPieces, hnil]
      rw [hfilter]
      simp only [hnil, decide_false, hk]
      exact ⟨⟨k, by simp⟩, k, by simp, fun h => absurd h (cons_ne_nil _ _)⟩

theorem squeezeLoop_of_no_match (h : ¬ [slash, slash] <:+: name) (b : Bool)
    (hb : b = true → name.head? ≠ some slash) : squeezeLoop b name = name := by
  have htail : ∀ {c : UInt8} {name}, ¬ [slash, slash] <:+: c :: name → ¬ [slash, slash] <:+: name :=
    fun h hin => h (hin.trans (suffix_cons _ _).isInfix)
  fun_induction squeezeLoop b name with
  | case1 => rfl
  | case2 name _ => exact absurd rfl (hb rfl)
  | case3 b name _ ih =>
    rw [ih (htail h)]
    intro _ hhead
    obtain ⟨rest, rfl⟩ := head?_eq_some_iff.1 hhead
    exact h ⟨[], rest, rfl⟩
  | case4 b c name _ ih => rw [ih (htail h) (by simp)]

theorem getLast?_pieces_ne (hp : slash ∉ p) (hps : ∀ q ∈ ps, slash ∉ q) (hne : ∀ q ∈ ps, q ≠ []) :
    (p ++ glue slash ps).getLast? ≠ some slash := by
  intro hlast
  rcases eq_nil_or_concat' ps with rfl | ⟨qs, q, rfl⟩
  · rw [glue_nil, append_nil] at hlast
    exact hp (mem_of_getLast? hlast)
  · have hq : q ≠ [] := hne q (by simp)
    have hlast' : q.getLast? = some slash := by
      rw [← hlast, glue_append, glue_cons, glue_nil, append_nil, ← append_assoc,
        getLast?_append_of_ne_nil _ (cons_ne_nil _ _), getLast?_cons_of_ne_nil hq]
    exact hps q (by simp) (mem_of_getLast? hlast')

theorem stripTrailingSlashes_append (hs : s ≠ []) (hlast : s.getLast? ≠ some slash) (k : ℕ) :
    stripTrailingSlashes (s ++ List.replicate k slash) = s := by
  have htrailing : ((s ++ List.replicate k slash).reverse.takeWhile (· == slash)).length = k := by
    rw [reverse_append, reverse_replicate, takeWhile_append_of_pos]
    · obtain ⟨c, hc⟩ : ∃ c, s.reverse.head? = some c := by
        rw [head?_reverse]
        exact ⟨_, getLast?_eq_some_getLast hs⟩
      have hne : c ≠ slash := by
        rintro rfl
        rw [head?_reverse] at hc
        exact hlast hc
      obtain ⟨r, hr⟩ : ∃ r, s.reverse = c :: r := by
        cases hrev : s.reverse with
        | nil => rw [hrev] at hc; cases hc
        | cons d r => rw [hrev] at hc; cases hc; exact ⟨r, rfl⟩
      simp [hr, hne]
    · intro c hc
      simp [eq_of_mem_replicate hc]
  have hpos := length_pos_iff.2 hs
  rw [stripTrailingSlashes, htrailing, length_append, length_replicate]
  have hmin : s.length + k - min k (s.length + k - 1) = s.length := by omega
  rw [hmin, take_left']
  rfl

theorem stripTrailingSlashes_replicate {k : ℕ} (hk : 0 < k) :
    stripTrailingSlashes (List.replicate k slash) = [slash] := by
  have htrailing : ((List.replicate k slash).reverse.takeWhile (· == slash)).length = k := by
    simp
  rw [stripTrailingSlashes, htrailing, length_replicate]
  have hmin : k - min k (k - 1) = 1 := by omega
  rw [hmin, take_replicate]
  have hone : min 1 k = 1 := by omega
  rw [hone]
  rfl

theorem stripTrailingSlashes_squeezeSlashes (name : List UInt8) :
    stripTrailingSlashes (squeezeSlashes name) = stripTrailingSlashes (squeezeLoop false name) := by
  rw [squeezeSlashes]
  split
  case isTrue => rfl
  case isFalse h =>
    by_cases hin : [slash, slash] <:+: name
    · -- only `//` itself is too short for the loop
      have hlen : name.length ≤ 2 := by
        by_contra hlt
        exact h ⟨by omega, hin⟩
      have hname : [slash, slash] = name :=
        hin.eq_of_length (Nat.le_antisymm hin.length_le hlen)
      rw [← hname]
      rfl
    · rw [squeezeLoop_of_no_match hin false (by simp)]

/-! ### Dots -/

theorem dropLeadingDots_of_ne_dot (hp : p ≠ []) (hslash : slash ∉ p) (hdot : p ≠ [dot])
    (ps : List (List UInt8)) : dropLeadingDots (p ++ glue slash ps) = p ++ glue slash ps := by
  match p, ps with
  | [c], [] => rfl
  | [c], r :: ps =>
    show dropLeadingDots (c :: slash :: (r ++ glue slash ps)) = _
    rw [dropLeadingDots, if_neg fun h => hdot (by rw [h.1])]
    rfl
  | c :: d :: rest, _ =>
    simp only [mem_cons, not_or] at hslash
    rw [cons_append, cons_append, dropLeadingDots, if_neg fun h => hslash.2.1 h.2.1.symm]

theorem dropLeadingDots_pieces (hp : p ≠ []) (hslash : slash ∉ p)
    (hps : ∀ q ∈ ps, q ≠ [] ∧ slash ∉ q) :
    (dotlessPieces (p :: ps) = [] ∧ dropLeadingDots (p ++ glue slash ps) = [dot]) ∨
    ∃ q qs, q ≠ [dot] ∧ q ≠ [] ∧ slash ∉ q ∧ (∀ r ∈ qs, r ≠ [] ∧ slash ∉ r) ∧
      dotlessPieces (p :: ps) = q :: dotlessPieces qs ∧
      dropLeadingDots (p ++ glue slash ps) = q ++ glue slash qs := by
  induction ps generalizing p with
  | nil =>
    by_cases hdot : p = [dot]
    · left
      rw [hdot]
      exact ⟨rfl, rfl⟩
    · exact .inr ⟨p, [], hdot, hp, hslash, hps, by simp [dotlessPieces, hdot],
        dropLeadingDots_of_ne_dot hp hslash hdot _⟩
  | cons r ps ih =>
    by_cases hdot : p = [dot]
    · -- the dot and its slash go
      obtain ⟨hr, hrslash⟩ := hps r mem_cons_self
      have hstep : dropLeadingDots (p ++ glue slash (r :: ps))
          = dropLeadingDots (r ++ glue slash ps) := by
        rw [hdot]
        show dropLeadingDots (dot :: slash :: (r ++ glue slash ps)) = _
        rw [dropLeadingDots, if_pos ⟨rfl, rfl, by simp [hr]⟩]
      have hfilter : dotlessPieces (p :: r :: ps) = dotlessPieces (r :: ps) := by
        simp [dotlessPieces, hdot]
      rw [hstep, hfilter]
      exact ih hr hrslash fun q hq => hps q (mem_cons_of_mem _ hq)
    · exact .inr ⟨p, r :: ps, hdot, hp, hslash, hps, by simp [dotlessPieces, hdot],
        dropLeadingDots_of_ne_dot hp hslash hdot _⟩

theorem dropDotsLoop_append (hp : slash ∉ p) (s : List UInt8) :
    dropDotsLoop (p ++ s) = p ++ dropDotsLoop s := by
  induction p with
  | nil => rfl
  | cons c p ih =>
    simp only [mem_cons, not_or] at hp
    rw [cons_append, cons_append, ← ih hp.2]
    cases p ++ s with
    | nil => rfl
    | cons d rest => rw [dropDotsLoop, if_neg fun h => hp.1 h.1.symm]

theorem dropDotsLoop_glue_cons (hq : q ≠ []) (hslash : slash ∉ q) (h : q ≠ [dot] ∨ ps = []) :
    dropDotsLoop (glue slash (q :: ps)) = slash :: (q ++ dropDotsLoop (glue slash ps)) := by
  rw [glue_cons, ← dropDotsLoop_append hslash]
  match q, hq, hslash with
  | c :: q, _, hslash =>
    rw [cons_append, dropDotsLoop, if_neg]
    rintro ⟨-, rfl, hhead⟩
    cases q with
    | nil =>
      -- the piece is a dot, so it is the last one and no slash follows
      rw [h.resolve_left (by simp)] at hhead
      cases hhead
    | cons d q =>
      simp only [mem_cons, not_or] at hslash
      exact hslash.2.1 (Option.some.inj hhead).symm

/-- What the loop leaves: the pieces that are no dots, and maybe a dot at the end. -/
theorem dropDotsLoop_glue (hps : ∀ q ∈ ps, q ≠ [] ∧ slash ∉ q) :
    dropDotsLoop (glue slash ps) = glue slash (dotlessPieces ps) ∨
    dropDotsLoop (glue slash ps) = glue slash (dotlessPieces ps ++ [[dot]]) := by
  induction ps with
  | nil => exact .inl rfl
  | cons q ps ih =>
    obtain ⟨hq, hslash⟩ := hps q mem_cons_self
    have ih := ih fun r hr => hps r (mem_cons_of_mem _ hr)
    by_cases hdot : q = [dot]
    · cases ps with
      | nil => exact .inr (by rw [hdot]; rfl)
      | cons r ps =>
        rw [hdot]
        exact ih
    · have hfilter : dotlessPieces (q :: ps) = q :: dotlessPieces ps := by
        simp [dotlessPieces, hdot]
      rw [hfilter, dropDotsLoop_glue_cons hq hslash (.inl hdot)]
      rcases ih with ih | ih
      · exact .inl (by rw [ih, glue_cons])
      · exact .inr (by rw [ih, cons_append, glue_cons])

theorem dropDotsLoop_ne_nil (h : s ≠ []) : dropDotsLoop s ≠ [] := by
  fun_induction dropDotsLoop s with
  | case1 => exact absurd rfl h
  | case2 | case4 => simp
  | case3 c d rest hmatch ih =>
    apply ih
    rintro rfl
    cases hmatch.2.2

theorem dropDotsLoop_of_no_match (h : ¬ [slash, dot, slash] <:+: name) :
    dropDotsLoop name = name := by
  fun_induction dropDotsLoop name with
  | case1 | case2 => rfl
  | case3 c d rest hmatch ih =>
    obtain ⟨rfl, rfl, hhead⟩ := hmatch
    cases rest with
    | nil => cases hhead
    | cons e rest =>
      obtain rfl := Option.some.inj hhead
      exact absurd ⟨[], rest, rfl⟩ h
  | case4 c d rest hmatch ih =>
    rw [ih]
    exact fun hin => h (hin.trans (suffix_cons c _).isInfix)

theorem dropEmbeddedDots_eq (name : List UInt8) : dropEmbeddedDots name = dropDotsLoop name := by
  rw [dropEmbeddedDots]
  split
  case isTrue => rfl
  case isFalse h =>
    refine (dropDotsLoop_of_no_match fun hin => h ⟨?_, hin⟩).symm
    exact hin.length_le

theorem suffix_glue_iff {t : List UInt8} (ht : slash ∉ t) (hp : slash ∉ p)
    (hps : ∀ q ∈ ps, slash ∉ q) :
    slash :: t <:+ p ++ glue slash ps ↔ ∃ qs, ps = qs ++ [t] := by
  constructor
  · rintro ⟨a, ha⟩
    rcases eq_nil_or_concat' ps with rfl | ⟨qs, q, rfl⟩
    · rw [glue_nil, append_nil] at ha
      rw [← ha] at hp
      exact absurd (by simp) hp
    · have hq : slash ∉ q := hps q (by simp)
      have hlast : a ++ slash :: t = (p ++ glue slash qs) ++ slash :: q := by
        rw [ha]
        simp
      exact ⟨qs, by rw [eq_of_append_cons_eq ht hq hlast]⟩
  · rintro ⟨qs, rfl⟩
    exact ⟨p ++ glue slash qs, by simp⟩

/-- A dot at the end goes with its slash, but `/.` is the root. -/
theorem dropTrailingDot_append_dot :
    dropTrailingDot (s ++ [slash, dot]) = if s = [] then [slash] else s := by
  rw [dropTrailingDot, if_pos ⟨s, rfl⟩]
  cases s with
  | nil => rfl
  | cons c s => simp

theorem dropTrailingDot_of_dotless (hp : slash ∉ p) (hps : ∀ q ∈ ps, q ≠ [dot] ∧ slash ∉ q) :
    dropTrailingDot (p ++ glue slash ps) = p ++ glue slash ps := by
  rw [dropTrailingDot, if_neg]
  intro hsuf
  have hdot : slash ∉ [dot] := by decide
  obtain ⟨qs, rfl⟩ := (suffix_glue_iff hdot hp fun q hq => (hps q hq).2).1 hsuf
  exact (hps [dot] (by simp)).1 rfl

theorem dropTrailingDot_dropEmbeddedDots (hp : slash ∉ p) (hps : ∀ q ∈ ps, q ≠ [] ∧ slash ∉ q)
    (hne : p ≠ [] ∨ ps ≠ []) :
    dropTrailingDot (dropEmbeddedDots (p ++ glue slash ps))
      = if p = [] ∧ dotlessPieces ps = [] then [slash] else p ++ glue slash (dotlessPieces ps) := by
  have hdotless : ∀ q ∈ dotlessPieces ps, q ≠ [dot] ∧ slash ∉ q := by
    intro q hq
    obtain ⟨hmem, hdot⟩ := mem_filter.1 hq
    exact ⟨by simpa using hdot, (hps q hmem).2⟩
  rw [dropEmbeddedDots_eq, dropDotsLoop_append hp]
  rcases dropDotsLoop_glue hps with h | h
  · rw [h, dropTrailingDot_of_dotless hp hdotless, if_neg]
    rintro ⟨rfl, hnil⟩
    rw [hnil] at h
    exact dropDotsLoop_ne_nil (by simpa using hne) h
  · rw [h, glue_append, ← append_assoc]
    show dropTrailingDot (p ++ glue slash (dotlessPieces ps) ++ [slash, dot]) = _
    rw [dropTrailingDot_append_dot]
    simp

/-! ### The canonical name -/

theorem stripTrailingSlashes_relative (hp : p ≠ []) (hslash : slash ∉ p)
    (hps : ∀ q ∈ ps, slash ∉ q) :
    stripTrailingSlashes (squeezeSlashes (p ++ glue slash ps))
      = p ++ glue slash (nonemptyPieces ps) := by
  obtain ⟨⟨k, hk⟩, -⟩ := squeezeLoop_glue hps
  rw [stripTrailingSlashes_squeezeSlashes, squeezeLoop_append hslash, if_neg hp, hk,
    ← append_assoc]
  exact stripTrailingSlashes_append (by simp [hp])
    (getLast?_pieces_ne hslash (fun q hq => hps q (mem_of_mem_filter hq))
      (fun q hq => by simpa using (mem_filter.1 hq).2)) k

theorem stripTrailingSlashes_absolute (hne : ps ≠ []) (hps : ∀ q ∈ ps, slash ∉ q) :
    stripTrailingSlashes (squeezeSlashes (glue slash ps))
      = if nonemptyPieces ps = [] then [slash] else glue slash (nonemptyPieces ps) := by
  obtain ⟨⟨k, hk⟩, -⟩ := squeezeLoop_glue hps
  rw [stripTrailingSlashes_squeezeSlashes, hk]
  split
  case isTrue hnil =>
    rw [hnil] at hk ⊢
    refine stripTrailingSlashes_replicate (Nat.pos_of_ne_zero ?_)
    rintro rfl
    -- the first slash is always copied
    obtain ⟨q, qs, rfl⟩ := exists_cons_of_ne_nil hne
    cases hk
  case isFalse hnil =>
    have hlast := getLast?_pieces_ne (p := []) (by simp)
      (fun q hq => hps q (mem_of_mem_filter hq))
      (fun q (hq : q ∈ nonemptyPieces ps) => by simpa using (mem_filter.1 hq).2)
    exact stripTrailingSlashes_append (fun h => hnil (glue_eq_nil.1 h)) hlast k

/-- Proper components are neither empty nor dots, and contain no slash. -/
theorem properComponents_spec (hq : q ∈ properComponents name) :
    q ≠ [] ∧ q ≠ [dot] ∧ slash ∉ q := by
  obtain ⟨hq, hdot⟩ := mem_filter.1 hq
  obtain ⟨hq, hnil⟩ := mem_filter.1 hq
  exact ⟨by simpa using hnil, by simpa using hdot, not_mem_of_mem_splitOn hq⟩

theorem nonemptyPieces_spec {ps : List (List UInt8)} (hps : ∀ q ∈ ps, slash ∉ q) :
    ∀ q ∈ nonemptyPieces ps, q ≠ [] ∧ slash ∉ q := by
  intro q hq
  obtain ⟨hmem, hnil⟩ := mem_filter.1 hq
  exact ⟨by simpa using hnil, hps q hmem⟩

/-- **The canonical name of a relative name holds its proper components.** -/
theorem canonicalName_relative (hne : name ≠ []) (hrel : name.head? ≠ some slash) :
    (properComponents name = [] ∧ canonicalName name = [dot]) ∨
    ∃ d ds, properComponents name = d :: ds ∧ canonicalName name = d ++ glue slash ds := by
  obtain ⟨p, ps, hname, hsplit, hslash, hps⟩ := exists_glue slash name
  have hp : p ≠ [] := by
    rintro rfl
    cases ps with
    | nil => exact hne hname
    | cons q ps => exact hrel (by rw [hname]; rfl)
  have hnonempty := nonemptyPieces_spec hps
  have hproper : properComponents name = dotlessPieces (p :: nonemptyPieces ps) := by
    rw [properComponents, hsplit]
    simp [nonemptyPieces, hp]
  rw [hproper, canonicalName, hname, stripTrailingSlashes_relative hp hslash hps]
  rcases dropLeadingDots_pieces hp hslash hnonempty with
    ⟨hnil, hdrop⟩ | ⟨q, qs, -, hq, hqslash, hqs, hdotless, hdrop⟩
  · left
    rw [hdrop]
    exact ⟨hnil, rfl⟩
  · right
    refine ⟨q, dotlessPieces qs, hdotless, ?_⟩
    rw [hdrop, dropTrailingDot_dropEmbeddedDots hqslash hqs (.inl hq), if_neg fun h => hq h.1]

/-- **The canonical name of an absolute name holds its proper components.** -/
theorem canonicalName_absolute (habs : name.head? = some slash) : canonicalName name
      = if properComponents name = [] then [slash] else glue slash (properComponents name) := by
  obtain ⟨p, ps, hname, hsplit, hslash, hps⟩ := exists_glue slash name
  obtain rfl : p = [] := by
    cases p with
    | nil => rfl
    | cons c p =>
      rw [hname] at habs
      rw [← Option.some.inj habs] at hslash
      exact absurd mem_cons_self hslash
  have hne : ps ≠ [] := by
    rintro rfl
    rw [hname] at habs
    cases habs
  have hnonempty := nonemptyPieces_spec hps
  have hproper : properComponents name = dotlessPieces (nonemptyPieces ps) := by
    rw [properComponents, hsplit]
    simp [nonemptyPieces]
  rw [hproper, canonicalName, hname, nil_append, stripTrailingSlashes_absolute hne hps]
  split
  case isTrue hnil =>
    rw [hnil]
    rfl
  case isFalse hnil =>
    have hdrop : dropLeadingDots (glue slash (nonemptyPieces ps))
        = [] ++ glue slash (nonemptyPieces ps) := by
      obtain ⟨q, qs, hq⟩ := exists_cons_of_ne_nil hnil
      rw [hq, glue_cons, nil_append]
      -- the name starts with a slash, not with a dot
      cases q ++ glue slash qs with
      | nil => rfl
      | cons d rest => rw [dropLeadingDots, if_neg fun h => absurd h.1 (by decide)]
    rw [hdrop, dropTrailingDot_dropEmbeddedDots (by simp) hnonempty (.inr hnil)]
    simp only [true_and, nil_append]

end Clib4
