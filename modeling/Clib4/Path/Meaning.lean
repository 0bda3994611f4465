import Clib4.Base.Pieces
import Clib4.Base.Walk

/-!
# What path names mean

A path name describes a walk in the tree of directories, and two systems read it differently.
For POSIX the slash separates components; an empty component or a dot stays, two dots go to the
parent.  For AmigaDOS the part in front of a colon names the volume to start from, and a
component that ends with a slash but is empty goes to the parent.

## Main definitions

* `posixMeaning`, `amigaMeaning` — the two readings.

## Main results

* `amigaMeaning_remove` — **a component that is followed by its parent can be left out.**
-/

namespace Clib4

open List

/-- The character `/`. -/
def slash : UInt8 := 47
/-- The character `.`. -/
def dot : UInt8 := 46
/-- The character `:`. -/
def colon : UInt8 := 58

/-- The component `..`. -/
def dotDot : List UInt8 := [dot, dot]

/-- Where a path name leads: from the root, if it is rooted, or else from the current directory,
to a place.  The volumes are the children of the root. -/
structure Location where
  rooted : Bool
  place : Place (List UInt8)
  deriving DecidableEq, Repr

open Place (Move)

/-! ### The two readings -/

/-- A component of a POSIX path name as a step. -/
def posixMove (c : List UInt8) : Move (List UInt8) :=
  if c = [] ∨ c = [dot] then .stay else if c = dotDot then .parent else .enter c

/-- Where a POSIX path name leads. -/
def posixMeaning (name : List UInt8) : Location :=
  let moves := (name.splitOn slash).map posixMove
  if name.head? = some slash then ⟨true, Place.walkRooted {} moves⟩
  else ⟨false, Place.walk {} moves⟩

/-- A component of an AmigaDOS path name that ends with a slash, as a step. -/
def slashMove (c : List UInt8) : Move (List UInt8) := if c = [] then .parent else .enter c

/-- The steps of an AmigaDOS path name; the last component does not end with a slash. -/
def amigaMoves : List (List UInt8) → List (Move (List UInt8))
  | [] => []
  | [c] => [if c = [] then .stay else .enter c]
  | c :: d :: cs => slashMove c :: amigaMoves (d :: cs)

/-- Where the part of an AmigaDOS path name behind the volume leads. -/
def amigaWalk (p : Place (List UInt8)) (name : List UInt8) : Place (List UInt8) :=
  p.walk (amigaMoves (name.splitOn slash))

/-- The root directory of a volume; an empty name stands for the root. -/
def volumeRoot (volume : List UInt8) : Place (List UInt8) :=
  { down := if volume = [] then [] else [volume] }

/-- Where an AmigaDOS path name leads. -/
def amigaMeaning (name : List UInt8) : Location :=
  if colon ∈ name then
    let volume := name.takeWhile (· ≠ colon)
    ⟨true, amigaWalk (volumeRoot volume) (name.drop (volume.length + 1))⟩
  else ⟨false, amigaWalk {} name⟩

variable {volume x a : List UInt8}

theorem takeWhile_ne_colon (h : colon ∉ volume) (name : List UInt8) :
    (volume ++ colon :: name).takeWhile (· ≠ colon) = volume := by
  rw [takeWhile_append_of_pos]
  · simp
  · intro c hc
    simp only [decide_eq_true_eq]
    rintro rfl
    exact h hc

theorem amigaMeaning_volume (h : colon ∉ volume) (name : List UInt8) :
    amigaMeaning (volume ++ colon :: name) = ⟨true, amigaWalk (volumeRoot volume) name⟩ := by
  rw [amigaMeaning, if_pos (by simp)]
  rw [takeWhile_ne_colon h]
  simp

theorem amigaMeaning_relative {name : List UInt8} (h : colon ∉ name) :
    amigaMeaning name = ⟨false, amigaWalk {} name⟩ := by
  rw [amigaMeaning, if_neg h]

/-! ### AmigaDOS walks -/

theorem amigaMoves_append (ps : List (List UInt8)) {qs : List (List UInt8)} (hqs : qs ≠ []) :
    amigaMoves (ps ++ qs) = ps.map slashMove ++ amigaMoves qs := by
  induction ps with
  | nil => rfl
  | cons p ps ih =>
    obtain ⟨q, qs', hq⟩ := exists_cons_of_ne_nil (append_ne_nil_of_right_ne_nil ps hqs)
    rw [cons_append, hq, amigaMoves, ← hq, ih]
    rfl

theorem amigaWalk_append_slash (p : Place (List UInt8)) (s t : List UInt8) :
    amigaWalk p (s ++ slash :: t) = amigaWalk (p.walk ((s.splitOn slash).map slashMove)) t := by
  rw [amigaWalk, splitOn_append_cons_self,
    amigaMoves_append _ (splitOn_ne_nil slash t), Place.walk_append]
  rfl

/-- Entering a directory and going to its parent leads nowhere. -/
theorem amigaWalk_enter_parent (p : Place (List UInt8)) (hx : x ≠ []) (hslash : slash ∉ x)
    (t : List UInt8) :
    amigaWalk p (x ++ slash :: slash :: t) = amigaWalk p t := by
  rw [amigaWalk_append_slash, splitOn_eq_singleton hslash]
  have hparent : slash :: t = [] ++ slash :: t := rfl
  rw [hparent, amigaWalk_append_slash]
  simp [slashMove, hx, Place.move]

/-- The text in front of a component: nothing, or something that ends a component. -/
def EndsComponent (a : List UInt8) : Prop :=
  a = [] ∨ ∃ a', a = a' ++ [slash] ∨ a = a' ++ [colon]

/-- A name has at most one colon, with no slash in front of it. -/
def VolumeOk (name : List UInt8) : Prop :=
  colon ∉ name ∨ ∃ volume rest, name = volume ++ colon :: rest ∧ colon ∉ volume ∧
    slash ∉ volume ∧ colon ∉ rest

/-- Leaving out a component and its parent, behind the volume. -/
theorem amigaWalk_remove (p : Place (List UInt8)) (b : List UInt8)
    (ha : a = [] ∨ ∃ a', a = a' ++ [slash]) (hx : x ≠ []) (hslash : slash ∉ x) :
    amigaWalk p (a ++ (x ++ slash :: slash :: b)) = amigaWalk p (a ++ b) := by
  rcases ha with rfl | ⟨a', rfl⟩
  · exact amigaWalk_enter_parent p hx hslash b
  · simp only [append_assoc, singleton_append]
    rw [amigaWalk_append_slash p a' (x ++ slash :: slash :: b), amigaWalk_append_slash p a' b]
    exact amigaWalk_enter_parent _ hx hslash b

/-- A component that is followed by its parent lies behind the volume. -/
theorem exists_behind_volume {b rest : List UInt8}
    (h : a ++ (x ++ slash :: slash :: b) = volume ++ colon :: rest) (hx : x ≠ [])
    (hcol : colon ∉ x) (hslash : slash ∉ volume) :
    ∃ a', a = volume ++ colon :: a' ∧ rest = a' ++ (x ++ slash :: slash :: b) := by
  rcases append_eq_append_iff.1 h with ⟨v', rfl, hv'⟩ | ⟨a', rfl, ha'⟩
  · -- the component starts in the volume: the slash would be there too, or the colon in `x`
    exfalso
    rcases append_eq_append_iff.1 hv' with ⟨w, rfl, hw⟩ | ⟨y, rfl, hy⟩
    · cases w with
      | nil => cases hw
      | cons c w =>
        obtain ⟨rfl, -⟩ := List.cons.inj hw
        exact hslash (by simp)
    · cases y with
      | nil => cases hy
      | cons c y =>
        obtain ⟨rfl, -⟩ := List.cons.inj hy
        exact hcol (by simp)
  · cases a' with
    | nil =>
      cases x with
      | nil => exact absurd rfl hx
      | cons c x =>
        cases ha'
        exact absurd mem_cons_self hcol
    | cons c a' =>
      cases ha'
      exact ⟨a', rfl, rfl⟩

/-- The text between the colon and a component is empty or ends with a slash. -/
theorem ends_slash_behind_volume (h : EndsComponent (volume ++ colon :: a)) (hcol : colon ∉ a) :
    a = [] ∨ ∃ a', a = a' ++ [slash] := by
  rcases eq_nil_or_concat' a with rfl | ⟨c', c, rfl⟩
  · exact .inl rfl
  have hlast : ∀ {a' : List UInt8} {d : UInt8},
      volume ++ colon :: (c' ++ [c]) = a' ++ [d] → c = d := by
    intro a' d hd
    rw [← cons_append, ← append_assoc] at hd
    exact head_eq_of_cons_eq (append_inj_right' hd rfl)
  rcases h with h | ⟨a', h | h⟩
  · simp at h
  · rw [hlast h]
    exact .inr ⟨c', rfl⟩
  · rw [hlast h] at hcol
    exact absurd (by simp) hcol

/-- **A component that is followed by its parent can be left out.** -/
theorem amigaMeaning_remove {b : List UInt8} (hok : VolumeOk (a ++ (x ++ slash :: slash :: b)))
    (ha : EndsComponent a) (hx : x ≠ []) (hslash : slash ∉ x) (hcol : colon ∉ x) :
    VolumeOk (a ++ b) ∧
      amigaMeaning (a ++ b) = amigaMeaning (a ++ (x ++ slash :: slash :: b)) := by
  rcases hok with hno | ⟨volume, rest, hname, hvol, hvslash, hrest⟩
  · have hno' : colon ∉ a ++ b := by
      intro hmem
      rcases mem_append.1 hmem with hmem | hmem
      · exact hno (by simp [hmem])
      · exact hno (by simp [hmem])
    refine ⟨.inl hno', ?_⟩
    rw [amigaMeaning_relative hno, amigaMeaning_relative hno', amigaWalk_remove _ _ _ hx hslash]
    rcases ha with rfl | ⟨a', rfl | rfl⟩
    · exact .inl rfl
    · exact .inr ⟨a', rfl⟩
    · exact absurd (by simp) hno
  · obtain ⟨a', rfl, rfl⟩ := exists_behind_volume hname hx hcol hvslash
    have hcol' : colon ∉ a' ++ b := by
      intro hmem
      rcases mem_append.1 hmem with hmem | hmem
      · exact hrest (by simp [hmem])
      · exact hrest (by simp [hmem])
    refine ⟨.inr ⟨volume, a' ++ b, by simp, hvol, hvslash, hcol'⟩, ?_⟩
    simp only [append_assoc, cons_append]
    rw [amigaMeaning_volume hvol, amigaMeaning_volume hvol,
      amigaWalk_remove _ _ _ hx hslash]
    exact ends_slash_behind_volume ha fun hmem => hcol' (mem_append_left _ hmem)

end Clib4
