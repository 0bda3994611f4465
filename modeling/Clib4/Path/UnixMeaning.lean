import Clib4.Path.DoubleDots

/-!
# What translated Unix path names mean

The function takes a Unix path name to an AmigaDOS path name for the same place.  It always
succeeds within its scope; the place is the same unless two double dots follow one another
inside the name.

## Main definitions

* `ClimbsTwice` — two double dots in succession, neither at the start nor at the end.

## Main results

* `translate_meaning_iff` — **the translated name leads to the same place just if the name does
  not climb twice in succession inside.**
-/

namespace Clib4

open Pieces List
open Place (Move StaysBelow)

/-- The special names, by their components. -/
def SpecialName (name : List UInt8) : Prop :=
  ∃ text ∈ [slashTmp, slashDevNull, slashDevRandom, slashDevUrandom],
    properComponents text <+: properComponents name

/-- The names that the translation is about: a relative name, or an absolute one that is not
special and does not climb above its first component. -/
structure UnixScope (name : List UInt8) : Prop where
  nonempty : name ≠ []
  noColon : colon ∉ name
  short : name.length < substituteSize
  notSpecial : name.head? = some slash → ¬ SpecialName name
  staysBelow : name.head? = some slash → StaysBelow 1 0 ((name.splitOn slash).map posixMove)

/-- The components that the volume does not take. -/
def behindVolume (name : List UInt8) : List (List UInt8) :=
  if name.head? = some slash then (properComponents name).tail else properComponents name

/-- Two double dots in succession, with components on both sides. -/
def ClimbsTwice (ds : List (List UInt8)) : Prop :=
  ∃ a b, a ≠ [] ∧ b ≠ [] ∧ ds = a ++ dotDot :: dotDot :: b

theorem climbsTwice_cons (d : List UInt8) (ds : List (List UInt8)) :
    ClimbsTwice (d :: ds) ↔ Adjacent ds := by
  constructor
  · rintro ⟨a, b, ha, hb, h⟩
    obtain ⟨c, a, rfl⟩ := exists_cons_of_ne_nil ha
    exact ⟨a, b, hb, (List.cons.inj h).2⟩
  · rintro ⟨a, b, hb, rfl⟩
    exact ⟨d :: a, b, by simp, hb, rfl⟩

theorem not_climbsTwice_nil : ¬ ClimbsTwice [] := by
  rintro ⟨a, b, ha, -, h⟩
  exact ha (append_eq_nil_iff.1 h.symm).1

/-! ### The POSIX meaning by proper components -/

variable {q name s : List UInt8} {ps ds : List (List UInt8)} {c : UInt8}

theorem posixMove_stay (h : ¬ (q ≠ [] ∧ q ≠ [dot])) : posixMove q = .stay := by
  rw [posixMove, if_pos]
  tauto

theorem dotless_nonempty_cons (q : List UInt8) (ps : List (List UInt8)) :
    dotlessPieces (nonemptyPieces (q :: ps)) =
      if q ≠ [] ∧ q ≠ [dot] then q :: dotlessPieces (nonemptyPieces ps)
      else dotlessPieces (nonemptyPieces ps) := by
  by_cases hnil : q = [] <;> by_cases hdot : q = [dot] <;>
    simp [nonemptyPieces, dotlessPieces, hnil, hdot]

theorem walk_proper (x : Place (List UInt8)) (ps : List (List UInt8)) :
    x.walk (ps.map posixMove) = x.walk ((dotlessPieces (nonemptyPieces ps)).map posixMove) := by
  induction ps generalizing x with
  | nil => rfl
  | cons q ps ih =>
    rw [dotless_nonempty_cons, map_cons, Place.walk_cons, ih]
    split
    case isTrue => rfl
    case isFalse h =>
      rw [posixMove_stay h]
      rfl

theorem staysBelow_proper {k d : ℕ} (h : StaysBelow k d (ps.map posixMove)) :
    StaysBelow k d ((dotlessPieces (nonemptyPieces ps)).map posixMove) := by
  induction ps generalizing d with
  | nil => exact h
  | cons q ps ih =>
    rw [dotless_nonempty_cons]
    rw [map_cons] at h
    split
    case isTrue =>
      rw [map_cons]
      cases hq : posixMove q with
      | stay => rw [hq] at h; exact ih h
      | parent => rw [hq] at h; exact ⟨h.1, ih h.2⟩
      | enter a => rw [hq] at h; exact ih (d := d + 1) h
    case isFalse hq =>
      rw [posixMove_stay hq] at h
      exact ih h

theorem posixMeaning_relative (h : name.head? ≠ some slash) :
    posixMeaning name = ⟨false, Place.walk {} ((properComponents name).map posixMove)⟩ := by
  rw [properComponents, ← walk_proper]
  exact if_neg h

theorem posixMeaning_absolute (h : name.head? = some slash)
    (hbelow : StaysBelow 1 0 ((name.splitOn slash).map posixMove)) :
    posixMeaning name = ⟨true, Place.walk {} ((properComponents name).map posixMove)⟩ := by
  rw [properComponents, ← walk_proper, 
    ← Place.walkRooted_eq_walk_of_up (Place.up_walk_of_staysBelow rfl hbelow)]
  exact if_pos h

/-! ### Colons -/

theorem mem_of_mem_properComponents (hq : q ∈ properComponents name) (hc : c ∈ q) : c ∈ name := by
  obtain ⟨p, ps, hname, hsplit, -, -⟩ := exists_glue slash name
  have hmem : q ∈ p :: ps := by
    rw [← hsplit]
    exact mem_of_mem_filter (mem_of_mem_filter hq)
  rw [hname]
  rcases mem_cons.1 hmem with rfl | hmem
  · exact mem_append_left _ hc
  · refine mem_append_right _ (mem_flatMap.2 ⟨q, hmem, ?_⟩)
    exact mem_cons_of_mem _ hc

theorem colon_not_mem_glue (h : ∀ q ∈ ps, colon ∉ q) : colon ∉ glue slash ps := by
  intro hmem
  obtain ⟨q, hq, hc⟩ := mem_flatMap.1 hmem
  rcases mem_cons.1 hc with hc | hc
  · exact absurd hc (by decide)
  · exact h q hq hc

theorem mem_translateDots (h : c ∈ translateDots s) : c ∈ s ∨ c = slash := by
  have hdots : ∀ {t : List UInt8}, c ∈ replaceDots t → c ∈ t ∨ c = slash := by
    intro t ht
    rw [replaceDots] at ht
    split at ht
    · exact .inr (mem_singleton.1 ht)
    · split at ht
      · cases ht
      · exact .inl ht
  have hleading : ∀ {t : List UInt8}, c ∈ replaceLeadingDotDot t → c ∈ t := by
    intro t ht
    rw [replaceLeadingDotDot] at ht
    split at ht
    · exact mem_of_mem_drop ht
    · exact ht
  have htrailing : ∀ {t : List UInt8}, c ∈ replaceTrailingDotDot t → c ∈ t ∨ c = slash := by
    intro t ht
    rw [replaceTrailingDotDot] at ht
    split at ht
    · rcases mem_append.1 ht with ht | ht
      · exact .inl (mem_of_mem_take ht)
      · exact .inr (mem_singleton.1 ht)
    · exact .inl ht
  rcases hdots h with h | h
  · rcases htrailing (hleading h) with h | h
    · rw [replaceEmbeddedDotDots_eq] at h
      exact mem_dotDotsLoop h
    · exact .inr h
  · exact .inr h

theorem colon_not_mem_translateDots (h : colon ∉ s) : colon ∉ translateDots s := by
  intro hmem
  rcases mem_translateDots hmem with hmem | hmem
  · exact h hmem
  · exact absurd hmem (by decide)

/-! ### What the function returns -/

theorem amigaMeaning_reduceName (h : VolumeOk name) :
    amigaMeaning (reduceName name) = amigaMeaning name := by
  rw [reduceName]
  split
  · exact (stripDoubleSlash_spec h).meaning
  · rfl

theorem translate_relative (hcol : colon ∉ name) (hshort : name.length < substituteSize)
    (hhead : (canonicalName name).head? ≠ some slash) (hcanon : colon ∉ canonicalName name) :
    ∃ r, translateUnixToAmigaPathName name = .ok r ∧
      r.name = reduceName (translateDots (canonicalName name)) := by
  rw [translateUnixToAmigaPathName, if_neg hcol, if_neg (Nat.not_le.2 hshort)]
  dsimp only
  rw [if_neg hhead, if_neg hcanon]
  simp only [length_nil, drop_zero, nil_append]
  have hok : ¬ (slash ∈ ([] : List UInt8) ∨ colon ∈ canonicalName name) := by simp [hcanon]
  rw [if_neg hok]
  refine ⟨_, rfl, ?_⟩
  dsimp only

/-- Of an absolute name the part behind the volume is rewritten. -/
theorem translate_absolute {volume rest : List UInt8} (hcol : colon ∉ name)
    (hshort : name.length < substituteSize) (hhead : (canonicalName name).head? = some slash)
    (hvol : volumeName (canonicalName name) = volume ++ colon :: rest)
    (hslash : slash ∉ volume) (hvcolon : colon ∉ volume) (hrest : colon ∉ rest) :
    ∃ r, translateUnixToAmigaPathName name = .ok r ∧
      r.name = reduceName (volume ++ colon :: translateDots rest) := by
  have hdrop : (volume ++ colon :: rest).drop (volume ++ [colon]).length = rest := by
    have hassoc : volume ++ colon :: rest = (volume ++ [colon]) ++ rest := by simp
    rw [hassoc, drop_left]
  rw [translateUnixToAmigaPathName, if_neg hcol, if_neg (Nat.not_le.2 hshort)]
  dsimp only
  have hmem : colon ∈ volume ++ colon :: rest := by simp
  have hne : slash ≠ colon := by decide
  have hok : ¬ (slash ∈ volume ++ [colon] ∨ colon ∈ rest) := by simp [hslash, hrest, hne]
  rw [if_pos hhead, hvol, if_pos hmem, takeWhile_ne_colon hvcolon, hdrop, if_neg hok]
  refine ⟨_, rfl, ?_⟩
  simp only [append_assoc, singleton_append]

/-! ### Volumes -/

/-- A name that starts with a text starts with its components. -/
theorem prefix_of_startsWith {ts : List (List UInt8)} (hps : ∀ q ∈ ps, slash ∉ q)
    (hts : ∀ q ∈ ts, slash ∉ q) (h : startsWith (glue slash ps) (glue slash ts) = true) :
    ts <+: ps := by
  simp only [startsWith, Bool.and_eq_true, decide_eq_true_eq, Bool.or_eq_true] at h
  obtain ⟨⟨r, hr⟩, hend⟩ := h
  -- what follows the text is itself glued together
  obtain ⟨rs, rfl, hrs⟩ : ∃ rs, r = glue slash rs ∧ ∀ q ∈ rs, slash ∉ q := by
    cases r with
    | nil => exact ⟨[], rfl, by simp⟩
    | cons c r =>
      have hc : c = slash := by
        rcases hend with hend | hend
        · rw [← hr] at hend
          simp at hend
        · rw [← hr] at hend
          simpa using hend
      obtain ⟨q, qs, hglue, -, hq, hqs⟩ := exists_glue slash r
      refine ⟨q :: qs, by rw [hc, hglue, glue_cons], ?_⟩
      exact forall_mem_cons.2 ⟨hq, hqs⟩
  have hall : ∀ q ∈ ts ++ rs, slash ∉ q := by
    intro q hq
    exact (mem_append.1 hq).elim (hts q) (hrs q)
  have hnil : slash ∉ ([] : List UInt8) := by simp
  have hsplit := splitOn_glue hnil hall
  rw [glue_append, hr, splitOn_glue hnil hps] at hsplit
  exact ⟨rs, (List.cons.inj hsplit).2.symm⟩

theorem glue_special {text : List UInt8}
    (h : text ∈ [slashTmp, slashDevNull, slashDevRandom, slashDevUrandom]) :
    glue slash (properComponents text) = text := by
  simp only [mem_cons, not_mem_nil, or_false] at h
  rcases h with rfl | rfl | rfl | rfl <;> decide

/-- The first component of a name that is not special becomes the volume. -/
theorem volumeName_glue {v : List UInt8} (hproper : properComponents name = v :: ds)
    (hspecial : ¬ SpecialName name) :
    volumeName (glue slash (v :: ds)) = v ++ colon :: (glue slash ds).drop 1 := by
  have hslash : ∀ q ∈ v :: ds, slash ∉ q := by
    intro q hq
    rw [← hproper] at hq
    exact (properComponents_spec hq).2.2
  have hstarts : ∀ text ∈ [slashTmp, slashDevNull, slashDevRandom, slashDevUrandom],
      startsWith (glue slash (v :: ds)) text = false := by
    intro text htext
    rw [Bool.eq_false_iff]
    intro h
    rw [← glue_special htext] at h
    refine hspecial ⟨text, htext, ?_⟩
    rw [hproper]
    exact prefix_of_startsWith hslash (fun q hq => (properComponents_spec hq).2.2) h
  have htake : (v ++ glue slash ds).takeWhile (· ≠ slash) = v := by
    rw [takeWhile_append_of_pos]
    · cases ds <;> simp
    · intro c hc
      simp only [decide_eq_true_eq]
      rintro rfl
      exact hslash v mem_cons_self hc
  rw [volumeName, hstarts _ (by simp), hstarts _ (by simp), hstarts _ (by simp),
    hstarts _ (by simp)]
  simp only [glue_cons, drop_succ_cons,
    drop_zero]
  rw [htake]
  simp

/-! ### The main theorem -/

/-- The part behind the volume leads to the same place just if it does not climb twice. -/
theorem amigaWalk_translateDots_iff (x : Place (List UInt8)) {d : List UInt8}
    (hproper : ∀ q ∈ d :: ds, q ≠ [] ∧ q ≠ [dot] ∧ slash ∉ q) :
    amigaWalk x (translateDots (d ++ glue slash ds)) = x.walk ((d :: ds).map posixMove) ↔
      ¬ ClimbsTwice (d :: ds) := by
  have hds : ∀ q ∈ ds, q ≠ [] ∧ q ≠ [dot] ∧ slash ∉ q := fun q hq =>
    hproper q (mem_cons_of_mem _ hq)
  rw [amigaWalk_translateDots x (hproper d mem_cons_self) hds, climbsTwice_cons]
  exact walk_resultMoves_iff _ fun q hq => ⟨(hds q hq).1, (hds q hq).2.1⟩

theorem colon_not_mem_pieces {d : List UInt8} (h : ∀ q ∈ d :: ds, colon ∉ q) :
    colon ∉ d ++ glue slash ds := by
  rw [mem_append, not_or]
  exact ⟨h d mem_cons_self, colon_not_mem_glue fun q hq => h q (mem_cons_of_mem _ hq)⟩

theorem colon_not_mem_properComponents (h : colon ∉ name) (hq : q ∈ properComponents name) :
    colon ∉ q :=
  fun hc => h (mem_of_mem_properComponents hq hc)

theorem translate_relative_iff (h : UnixScope name) (hrel : name.head? ≠ some slash) :
    ∃ r, translateUnixToAmigaPathName name = .ok r ∧
      (amigaMeaning r.name = posixMeaning name ↔ ¬ ClimbsTwice (behindVolume name)) := by
  rw [behindVolume, if_neg hrel, posixMeaning_relative hrel]
  rcases canonicalName_relative h.nonempty hrel with
    ⟨hnil, hcanon⟩ | ⟨d, ds, hproper, hcanon⟩
  · -- nothing but dots and slashes: the current directory
    obtain ⟨r, hr, hname⟩ := translate_relative h.noColon h.short
      (by rw [hcanon]; decide) (by rw [hcanon]; decide)
    refine ⟨r, hr, ?_⟩
    rw [hname, hcanon, hnil]
    exact ⟨fun _ => not_climbsTwice_nil, fun _ => by decide⟩
  · have hspec : ∀ q ∈ d :: ds, q ≠ [] ∧ q ≠ [dot] ∧ slash ∉ q := fun q hq =>
      properComponents_spec (by rw [hproper]; exact hq)
    have hcol : colon ∉ d ++ glue slash ds := colon_not_mem_pieces fun q hq =>
      colon_not_mem_properComponents h.noColon (by rw [hproper]; exact hq)
    have hhead : (d ++ glue slash ds).head? ≠ some slash := by
      have hd := hspec d mem_cons_self
      obtain ⟨c, d', rfl⟩ := exists_cons_of_ne_nil hd.1
      intro hc
      rw [← Option.some.inj hc] at hd
      exact hd.2.2 mem_cons_self
    obtain ⟨r, hr, hname⟩ := translate_relative h.noColon h.short
      (by rw [hcanon]; exact hhead) (by rw [hcanon]; exact hcol)
    have hok := colon_not_mem_translateDots hcol
    refine ⟨r, hr, ?_⟩
    rw [hname, hcanon, amigaMeaning_reduceName (.inl hok), amigaMeaning_relative hok, hproper,
      ← amigaWalk_translateDots_iff {} hspec]
    simp

/-- The meaning of a name whose part behind the volume has been rewritten. -/
theorem amigaMeaning_volume_reduceName {volume rest : List UInt8} (hcol : colon ∉ volume)
    (hslash : slash ∉ volume) (hrest : colon ∉ rest) :
    amigaMeaning (reduceName (volume ++ colon :: translateDots rest))
      = ⟨true, amigaWalk (volumeRoot volume) (translateDots rest)⟩ := by
  rw [amigaMeaning_reduceName, amigaMeaning_volume hcol]
  exact .inr ⟨volume, _, rfl, hcol, hslash, colon_not_mem_translateDots hrest⟩

theorem translate_absolute_iff (h : UnixScope name) (habs : name.head? = some slash) :
    ∃ r, translateUnixToAmigaPathName name = .ok r ∧
      (amigaMeaning r.name = posixMeaning name ↔ ¬ ClimbsTwice (behindVolume name)) := by
  have hbelow := h.staysBelow habs
  have hcanon := canonicalName_absolute habs
  rw [behindVolume, if_pos habs, posixMeaning_absolute habs hbelow]
  cases hproper : properComponents name with
  | nil =>
    -- the root
    rw [hproper, if_pos rfl] at hcanon
    have hvol : volumeName (canonicalName name) = [] ++ colon :: [] := by
      rw [hcanon]
      decide
    obtain ⟨r, hr, hname⟩ := translate_absolute h.noColon h.short
      (by rw [hcanon]; rfl) hvol (by simp) (by simp) (by simp)
    refine ⟨r, hr, ?_⟩
    rw [hname]
    exact ⟨fun _ => not_climbsTwice_nil, fun _ => by decide⟩
  | cons v ds =>
    have hspec : ∀ q ∈ v :: ds, q ≠ [] ∧ q ≠ [dot] ∧ slash ∉ q := fun q hq =>
      properComponents_spec (by rw [hproper]; exact hq)
    have hcolons : ∀ q ∈ v :: ds, colon ∉ q := fun q hq =>
      colon_not_mem_properComponents h.noColon (by rw [hproper]; exact hq)
    have hv := hspec v mem_cons_self
    have hvcolon := hcolons v mem_cons_self
    rw [hproper, if_neg (cons_ne_nil v ds)] at hcanon
    have hproperBelow := staysBelow_proper hbelow
    rw [← properComponents, hproper] at hproperBelow
    have henter : posixMove v = .enter v := by
      refine posixMove_proper hv.1 hv.2.1 ?_
      rintro rfl
      exact absurd hproperBelow.1 (by omega)
    -- entering the first component is starting at the root of the volume
    have hwalk : Place.walk {} ((v :: ds).map posixMove)
        = (volumeRoot v).walk (ds.map posixMove) := by
      rw [map_cons, henter, volumeRoot, if_neg hv.1]
      rfl
    have hvol := volumeName_glue hproper (h.notSpecial habs)
    rw [← hcanon] at hvol
    have hrest : colon ∉ (glue slash ds).drop 1 := fun hc =>
      colon_not_mem_glue (fun q hq => hcolons q (mem_cons_of_mem _ hq))
        (mem_of_mem_drop hc)
    obtain ⟨r, hr, hname⟩ := translate_absolute h.noColon h.short
      (by rw [hcanon]; rfl) hvol hv.2.2 hvcolon hrest
    refine ⟨r, hr, ?_⟩
    rw [hname, amigaMeaning_volume_reduceName hvcolon hv.2.2 hrest, hwalk, tail_cons]
    cases ds with
    | nil => exact ⟨fun _ => not_climbsTwice_nil, fun _ => rfl⟩
    | cons d ds =>
      rw [← amigaWalk_translateDots_iff (volumeRoot v) fun q hq =>
        hspec q (mem_cons_of_mem _ hq)]
      simp

/-- **Translation keeps the meaning just if the name does not climb twice in succession inside.**
Every name in scope is translated; the result leads to the same place unless two double dots
follow one another with components in front of them and behind them. -/
theorem translate_meaning_iff {name : List UInt8} (h : UnixScope name) :
    (∃ r, translateUnixToAmigaPathName name = .ok r) ∧
    ((∃ r, translateUnixToAmigaPathName name = .ok r ∧
      amigaMeaning r.name = posixMeaning name) ↔ ¬ ClimbsTwice (behindVolume name)) := by
  have hcases : ∃ r, translateUnixToAmigaPathName name = .ok r ∧
      (amigaMeaning r.name = posixMeaning name ↔ ¬ ClimbsTwice (behindVolume name)) := by
    by_cases habsolute : name.head? = some slash
    · exact translate_absolute_iff h habsolute
    · exact translate_relative_iff h habsolute
  obtain ⟨r, hr, hiff⟩ := hcases
  refine ⟨⟨r, hr⟩, ?_⟩
  rw [← hiff]
  constructor
  · rintro ⟨r', hr', hmeaning⟩
    rw [hr] at hr'
    obtain rfl := Except.ok.inj hr'
    exact hmeaning
  · intro hmeaning
    exact ⟨r, hr, hmeaning⟩

/-- The name `/work/src/../lib`. -/
def workSrcUpLib : List UInt8 :=
  [47, 119, 111, 114, 107, 47, 115, 114, 99, 47, 46, 46, 47, 108, 105, 98]

/-- It is in scope, does not climb twice, and is translated to a name for the same place. -/
theorem translate_meaning_iff_workSrcUpLib :
    UnixScope workSrcUpLib ∧ ¬ ClimbsTwice (behindVolume workSrcUpLib) ∧
    ∃ r, translateUnixToAmigaPathName workSrcUpLib = .ok r ∧
      amigaMeaning r.name = posixMeaning workSrcUpLib := by
  have hscope : UnixScope workSrcUpLib :=
    { nonempty := by decide
      noColon := by decide
      short := by decide
      notSpecial := fun _ => by
        unfold SpecialName
        decide
      staysBelow := fun _ => ⟨by decide, trivial⟩ }
  have hbehind : behindVolume workSrcUpLib = [[115, 114, 99], dotDot, [108, 105, 98]] := by decide
  have hclimbs : ¬ ClimbsTwice (behindVolume workSrcUpLib) := by
    rw [hbehind, climbsTwice_cons]
    exact not_adjacent_of_length_le (by simp)
  exact ⟨hscope, hclimbs, (translate_meaning_iff hscope).2.2 hclimbs⟩

/-- The name `foo/bar/../../baz`, one of the patterns that the source lists. -/
def fooBarUpUpBaz : List UInt8 :=
  [102, 111, 111, 47, 98, 97, 114, 47, 46, 46, 47, 46, 46, 47, 98, 97, 122]

/-- It becomes `foo/../baz`, which enters a directory `..` of `foo`. -/
theorem fooBarUpUpBaz_mistranslated :
    UnixScope fooBarUpUpBaz ∧ ¬ ∃ r, translateUnixToAmigaPathName fooBarUpUpBaz = .ok r ∧
      amigaMeaning r.name = posixMeaning fooBarUpUpBaz := by
  have hrelative : fooBarUpUpBaz.head? ≠ some slash := by decide
  refine ⟨⟨by decide, by decide, by decide, fun h => absurd h hrelative,
    fun h => absurd h hrelative⟩, ?_⟩
  rintro ⟨r, hr, hmeaning⟩
  obtain rfl := Except.ok.inj hr
  exact absurd hmeaning (by decide)

end Clib4
