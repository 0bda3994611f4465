import Clib4.Path.AmigaToUnix
import Clib4.Path.UnixMeaning

/-!
# What translated AmigaDOS path names mean

A reduced name is a volume, slashes that go to the parent, and a text without double slashes.
The loops turn the slashes into double dots and copy the text, so the Unix name describes the
same walk.

## Main definitions

* `AmigaScope` — the names that the translation is about.

## Main results

* `amiga_to_unix_meaning` — **the translated name leads to the same place and fits the buffer, or
  the call fails and leaves the name as it was.**
-/

namespace Clib4

open Pieces List
open Place (Move StaysBelow)

/-- No component is a dot or two dots, which AmigaDOS would enter. -/
def Plain (name : List UInt8) : Prop := ∀ q ∈ name.splitOn slash, q ≠ [dot] ∧ q ≠ dotDot

/-- The names that the translation is about.  A volume name counts as a component: it becomes the
first component of the Unix name. -/
inductive AmigaScope : List UInt8 → Prop
  | relative {name : List UInt8} (noColon : colon ∉ name) (plain : Plain name) : AmigaScope name
  | volume {volume rest : List UInt8} (nonempty : volume ≠ [])
      (notDots : volume ≠ [dot] ∧ volume ≠ dotDot) (noColon : colon ∉ volume)
      (noSlash : slash ∉ volume) (restNoColon : colon ∉ rest) (plain : Plain rest)
      (staysBelow : StaysBelow 1 1 (amigaMoves (rest.splitOn slash))) :
      AmigaScope (volume ++ colon :: rest)

/-! ### Removals -/

theorem Plain.remove {a x b : List UInt8} (h : Plain (a ++ (x ++ slash :: slash :: b)))
    (ha : a = [] ∨ ∃ a', a = a' ++ [slash]) : Plain (a ++ b) := by
  have hb : ∀ {t : List UInt8}, Plain (t ++ (x ++ slash :: slash :: b)) → Plain b := by
    intro t ht q hq
    have hassoc : t ++ (x ++ slash :: slash :: b) = (t ++ x ++ [slash]) ++ slash :: b := by simp
    apply ht
    rw [hassoc, splitOn_append_cons_self]
    exact mem_append_right _ hq
  rcases ha with rfl | ⟨a', rfl⟩
  · exact hb h
  · intro q hq
    simp only [append_assoc, singleton_append] at h hq
    rw [splitOn_append_cons_self] at hq
    rcases mem_append.1 hq with hq | hq
    · apply h
      rw [splitOn_append_cons_self]
      exact mem_append_left _ hq
    · have hassoc : a' ++ slash :: (x ++ slash :: slash :: b)
          = (a' ++ [slash]) ++ (x ++ slash :: slash :: b) := by simp
      rw [hassoc] at h
      exact hb h q hq

variable {name volume r : List UInt8} {k : ℕ}

theorem removed_relative {shorter : List UInt8} (h : Relation.ReflTransGen Removes name shorter)
    (hcol : colon ∉ name) (hplain : Plain name) :
    colon ∉ shorter ∧ Plain shorter := by
  induction h with
  | refl => exact ⟨hcol, hplain⟩
  | tail _ hstep ih =>
    obtain ⟨a, x, b, rfl, ha, -, -, -, rfl⟩ := hstep
    obtain ⟨hcol, hplain⟩ := ih
    refine ⟨fun hmem => hcol ?_, hplain.remove ?_⟩
    · rcases mem_append.1 hmem with hmem | hmem
      · simp [hmem]
      · simp [hmem]
    · rcases ha with rfl | ⟨a', rfl | rfl⟩
      · exact .inl rfl
      · exact .inr ⟨a', rfl⟩
      · exact absurd (by simp) hcol

theorem removed_volume {rest shorter : List UInt8}
    (h : Relation.ReflTransGen Removes (volume ++ colon :: rest) shorter)
    (hslash : slash ∉ volume) (hcol : colon ∉ rest) (hplain : Plain rest) :
    ∃ rest', shorter = volume ++ colon :: rest' ∧ colon ∉ rest' ∧ Plain rest' := by
  induction h with
  | refl => exact ⟨rest, rfl, hcol, hplain⟩
  | tail _ hstep ih =>
    obtain ⟨a, x, b, hname, ha, hx, -, hxcolon, rfl⟩ := hstep
    obtain ⟨rest', hrest', hcol', hplain'⟩ := ih
    obtain ⟨a', rfl, rfl⟩ := exists_behind_volume (hname.symm.trans hrest') hx hxcolon hslash
    have hacolon : colon ∉ a' := fun hmem => hcol' (mem_append_left _ hmem)
    refine ⟨a' ++ b, by simp, ?_, hplain'.remove (ends_slash_behind_volume ha hacolon)⟩
    intro hmem
    rcases mem_append.1 hmem with hmem | hmem
    · exact hacolon hmem
    · exact hcol' (by simp [hmem])

/-! ### Reduced names -/

theorem getD_append_add (a l : List UInt8) (i : ℕ) :
    (a ++ l).getD (a.length + i) 0 = l.getD i 0 := by
  rw [getD_eq_getElem?_getD, getElem?_append_right (Nat.le_add_right _ _),
    Nat.add_sub_cancel_left, getD_eq_getElem?_getD]

/-- Behind a text that does not start with a slash, a reduced name has no double slash. -/
theorem not_double_of_reduced {front : List UInt8} (h : Reduced (front ++ r))
    (hhead : r.head? ≠ some slash) (hcol : colon ∉ r) : ¬ [slash, slash] <:+: r := by
  rintro ⟨a, b, hr⟩
  induction a using List.reverseRecOn generalizing b with
  | nil => exact hhead (by rw [← hr]; rfl)
  | append_singleton a c ih =>
    by_cases hc : c = slash
    · -- an earlier pair
      apply ih (slash :: b)
      rw [← hr, hc]
      simp
    · have hcmem : c ∈ r := by rw [← hr]; simp
      have hlen : (front ++ a).length + 2 < (front ++ r).length := by
        rw [← hr]
        simp only [length_append, length_cons]
        omega
      have hkeep := h _ hlen
      have hname : front ++ r = (front ++ a) ++ c :: slash :: slash :: b := by
        rw [← hr]
        simp
      rw [Bool.eq_false_iff] at hkeep
      apply hkeep
      rw [removable_iff, hname]
      have hccolon : c ≠ colon := by
        rintro rfl
        exact hcol hcmem
      refine ⟨by omega, ?_, ?_, ?_⟩
      · rw [getD_append_add]
        rfl
      · have hpred : (front ++ a).length + 2 - 1 = (front ++ a).length + 1 := by omega
        rw [hpred, getD_append_add]
        rfl
      · simp [isSeparator, hc, hccolon]

/-- **The form of a reduced name**: slashes in front, then a text without double slashes. -/
theorem exists_reduced {front : List UInt8} (h : Reduced (front ++ name)) (hcol : colon ∉ name) :
    ∃ k r, name = List.replicate k slash ++ r ∧ r.head? ≠ some slash ∧
      ¬ [slash, slash] <:+: r := by
  have hsplit : ∃ k r, name = List.replicate k slash ++ r ∧ r.head? ≠ some slash := by
    clear h hcol
    induction name with
    | nil => exact ⟨0, [], rfl, by simp⟩
    | cons c name ih =>
      by_cases hc : c = slash
      · obtain ⟨k, r, rfl, hr⟩ := ih
        exact ⟨k + 1, r, by rw [hc]; rfl, hr⟩
      · exact ⟨0, c :: name, rfl, by simpa using hc⟩
  obtain ⟨k, r, rfl, hr⟩ := hsplit
  refine ⟨k, r, rfl, hr, ?_⟩
  rw [← append_assoc] at h
  exact not_double_of_reduced h hr fun hmem => hcol (mem_append_right _ hmem)

/-! ### The loops -/

/-- The double dots for slashes in front. -/
def climb : ℕ → List UInt8
  | 0 => []
  | k + 1 => dotDot ++ slash :: climb k

theorem length_climb (k : ℕ) : (climb k).length = 3 * k := by
  induction k with
  | zero => rfl
  | succ k ih =>
    simp only [climb, dotDot, length_append, length_cons, length_nil]
    omega

/-- What the loops write for `k` slashes and a text behind them. -/
def unixText (k : ℕ) (r : List UInt8) : List UInt8 :=
  if r = [] then (climb k).dropLast else climb k ++ r

theorem unixText_zero (r : List UInt8) : unixText 0 r = r := by
  rw [unixText]
  split
  case isTrue h => rw [h]; rfl
  case isFalse => rfl

theorem unixText_succ (k : ℕ) (r : List UInt8) :
    unixText (k + 1) r = if k = 0 ∧ r = [] then dotDot else dotDot ++ slash :: unixText k r := by
  by_cases hr : r = []
  · cases k with
    | zero | succ k => simp [unixText, hr, climb, dotDot]
  · simp [unixText, hr, climb]

theorem length_unixText_le (k : ℕ) (r : List UInt8) :
    (unixText k r).length ≤ 3 * k + r.length := by
  rw [unixText]
  split
  case isTrue =>
    rw [length_dropLast, length_climb]
    omega
  case isFalse => rw [length_append, length_climb]

/-- What the first loop does: it fails, or it has written the double dots. -/
theorem leadingLoop_spec (replace : List UInt8) (k : ℕ) (hr : r.head? ≠ some slash)
    (hfits : replace.length ≤ maxUnixLen) :
    (leadingLoop replace (List.replicate k slash ++ r)
        = .ok (if r = [] ∧ 0 < k then (replace ++ climb k).dropLast else replace ++ climb k, r) ∧
      replace.length + 3 * k ≤ maxUnixLen) ∨
    (leadingLoop replace (List.replicate k slash ++ r) = .error .ENAMETOOLONG ∧
      maxUnixLen < replace.length + 3 * k) := by
  induction k generalizing replace with
  | zero =>
    left
    refine ⟨?_, by omega⟩
    cases r with
    | nil => simp [leadingLoop, climb]
    | cons c r =>
      have hc : c ≠ slash := by simpa using hr
      simp [leadingLoop, climb, hc]
  | succ k ih =>
    have htext : (dotDot ++ [slash]).length = 3 := rfl
    rw [replicate_succ, cons_append, leadingLoop, if_pos rfl, appendText, htext]
    by_cases hlong : maxUnixLen < replace.length + 3
    · rw [if_pos hlong]
      exact .inr ⟨rfl, by omega⟩
    rw [if_neg hlong]
    by_cases hlast : List.replicate k slash ++ r = []
    · -- the name is used up: the trailing slash goes, and the loop ends
      obtain ⟨hk, rfl⟩ := append_eq_nil_iff.1 hlast
      obtain rfl : k = 0 := by simpa using hk
      left
      refine ⟨?_, by omega⟩
      simp [leadingLoop, climb]
    · have hguard : r = [] → 0 < k := by
        rintro rfl
        refine Nat.pos_of_ne_zero ?_
        rintro rfl
        exact hlast rfl
      have hclimb : replace ++ (dotDot ++ [slash]) ++ climb k = replace ++ climb (k + 1) := by
        simp [climb]
      have hrest := ih (replace ++ (dotDot ++ [slash])) (by rw [length_append]; omega)
      rw [length_append, htext, hclimb, Nat.add_assoc, Nat.add_comm 3] at hrest
      simp only [if_neg hlast, and_iff_left (Nat.succ_pos k)]
      simpa only [and_iff_left_of_imp hguard, Nat.mul_succ] using hrest

/-- What the second loop does with a text without double slashes: it fails, or it copies. -/
theorem copyLoop_spec (replace : List UInt8) (hr : ¬ [slash, slash] <:+: r)
    (hfits : replace.length ≤ maxUnixLen) :
    (copyLoop replace r = .ok (replace ++ r) ∧ replace.length + r.length ≤ maxUnixLen) ∨
    (copyLoop replace r = .error .ENAMETOOLONG ∧ maxUnixLen < replace.length + r.length) := by
  induction r generalizing replace with
  | nil => exact .inl ⟨by simp [copyLoop], by simpa using hfits⟩
  | cons c r ih =>
    have hsingle : ¬ (c = slash ∧ r.head? = some slash) := by
      rintro ⟨rfl, hhead⟩
      obtain ⟨r, rfl⟩ := head?_eq_some_iff.1 hhead
      exact hr ⟨[], r, rfl⟩
    rw [copyLoop, if_neg hsingle, appendText, length_singleton, length_cons]
    by_cases hlong : maxUnixLen < replace.length + 1
    · rw [if_pos hlong]
      exact .inr ⟨rfl, by omega⟩
    · have hrest := ih (replace ++ [c]) (fun hin => hr (hin.trans (suffix_cons c r).isInfix))
        (by rw [length_append, length_singleton]; omega)
      rw [length_append, length_singleton, append_assoc, Nat.add_assoc, Nat.add_comm 1] at hrest
      rw [if_neg hlong]
      exact hrest

theorem replacement_spec (k : ℕ) (hhead : r.head? ≠ some slash)
    (hdouble : ¬ [slash, slash] <:+: r) :
    (replacement (List.replicate k slash ++ r) = .ok (unixText k r) ∧
      (unixText k r).length ≤ maxUnixLen) ∨
    (replacement (List.replicate k slash ++ r) = .error .ENAMETOOLONG ∧
      maxUnixLen < 3 * k + r.length) := by
  rw [replacement]
  rcases leadingLoop_spec [] k hhead (Nat.zero_le _) with ⟨hok, hle⟩ | ⟨herror, hlt⟩
  · rw [hok]
    rw [length_nil, Nat.zero_add] at hle
    simp only [nil_append]
    by_cases hr : r = []
    · -- nothing is left to copy
      left
      have hbound := length_unixText_le k r
      have htext : (if r = [] ∧ 0 < k then (climb k).dropLast else climb k) = unixText k r := by
        cases k with
        | zero => simp [unixText, hr, climb]
        | succ k => simp [unixText, hr]
      rw [htext]
      subst hr
      exact ⟨rfl, by simpa using hbound.trans hle⟩
    · have hnot : ¬ (r = [] ∧ 0 < k) := fun h => hr h.1
      have hclimb : (climb k).length ≤ maxUnixLen := by rw [length_climb]; exact hle
      rw [if_neg hnot, unixText, if_neg hr, length_append, length_climb]
      rcases copyLoop_spec (climb k) hdouble hclimb with ⟨hcopy, hfit⟩ | ⟨hcopy, hlong⟩
      · rw [length_climb] at hfit
        exact .inl ⟨hcopy, hfit⟩
      · rw [length_climb] at hlong
        exact .inr ⟨hcopy, hlong⟩
  · right
    rw [herror]
    rw [length_nil] at hlt
    exact ⟨rfl, by omega⟩

/-! ### The walk -/

/-- The steps of a text are the same for both systems when only its last component may be empty
and none is made of dots. -/
theorem amigaMoves_eq_posix {p : List UInt8} {ps : List (List UInt8)}
    (hplain : ∀ q ∈ p :: ps, q ≠ [dot] ∧ q ≠ dotDot) (hp : p ≠ [] ∨ ps = [])
    (hdouble : ¬ [slash, slash] <:+: p ++ glue slash ps) :
    amigaMoves (p :: ps) = (p :: ps).map posixMove := by
  induction ps generalizing p with
  | nil =>
    obtain ⟨hdot, hdots⟩ := hplain p mem_cons_self
    by_cases hnil : p = []
    · rw [hnil]
      rfl
    · rw [map_cons, posixMove_proper hnil hdot hdots, amigaMoves, if_neg hnil]
      rfl
  | cons q ps ih =>
    obtain ⟨hdot, hdots⟩ := hplain p mem_cons_self
    have hnil : p ≠ [] := hp.resolve_right (cons_ne_nil q ps)
    -- an empty component behind a slash, with a slash behind it, is a double slash
    have hq : q ≠ [] ∨ ps = [] := by
      by_contra hcon
      rw [not_or, not_not] at hcon
      obtain ⟨r, rs, rfl⟩ := exists_cons_of_ne_nil hcon.2
      exact hdouble ⟨p, r ++ glue slash rs, by simp [hcon.1]⟩
    have htail : ¬ [slash, slash] <:+: q ++ glue slash ps := by
      intro hin
      refine hdouble (hin.trans ?_)
      exact ⟨p ++ [slash], [], by simp⟩
    rw [map_cons, posixMove_proper hnil hdot hdots, amigaMoves_cons p (by simp),
      ih (fun r hr => hplain r (mem_cons_of_mem _ hr)) hq htail, slashMove, if_neg hnil]

theorem amigaWalk_plain (x : Place (List UInt8)) (hhead : r.head? ≠ some slash)
    (hdouble : ¬ [slash, slash] <:+: r) (hplain : Plain r) :
    amigaWalk x r = x.walk ((r.splitOn slash).map posixMove) := by
  obtain ⟨p, ps, hr, hsplit, -, -⟩ := exists_glue slash r
  have hp : p ≠ [] ∨ ps = [] := by
    by_contra hcon
    rw [not_or, not_not] at hcon
    obtain ⟨q, qs, hq⟩ := exists_cons_of_ne_nil hcon.2
    exact hhead (by rw [hr, hcon.1, hq]; rfl)
  rw [Plain, hsplit] at hplain
  rw [hr] at hdouble
  rw [amigaWalk, hsplit, amigaMoves_eq_posix hplain hp hdouble]

/-- The text that the loops write describes the walk of the name. -/
theorem amigaWalk_eq_unixText (x : Place (List UInt8)) (k : ℕ) (hhead : r.head? ≠ some slash)
    (hdouble : ¬ [slash, slash] <:+: r) (hplain : Plain r) :
    amigaWalk x (List.replicate k slash ++ r)
      = x.walk (((unixText k r).splitOn slash).map posixMove) := by
  induction k generalizing x with
  | zero =>
    rw [unixText_zero]
    exact amigaWalk_plain x hhead hdouble hplain
  | succ k ih =>
    have hstep : amigaWalk x (List.replicate (k + 1) slash ++ r)
        = amigaWalk x.parent (List.replicate k slash ++ r) :=
      amigaWalk_append_slash x [] (List.replicate k slash ++ r)
    rw [hstep, unixText_succ]
    split
    case isTrue h =>
      obtain ⟨rfl, rfl⟩ := h
      rfl
    case isFalse =>
      rw [ih]
      rfl

/-! ### The main theorem -/

theorem plain_of_replicate (h : Plain (List.replicate k slash ++ r)) : Plain r := by
  induction k with
  | zero => exact h
  | succ k ih =>
    apply ih
    intro q hq
    apply h
    have hcons : List.replicate (k + 1) slash ++ r
        = [] ++ slash :: (List.replicate k slash ++ r) := rfl
    rw [hcons, splitOn_append_cons_self]
    exact mem_append_right _ hq

theorem head?_unixText (hhead : r.head? ≠ some slash) : (unixText k r).head? ≠ some slash := by
  cases k with
  | zero =>
    rw [unixText_zero]
    exact hhead
  | succ k =>
    rw [unixText_succ]
    split <;> exact fun h => absurd (Option.some.inj h) (by decide)

theorem unixText_ne_nil (h : List.replicate k slash ++ r ≠ []) : unixText k r ≠ [] := by
  cases k with
  | zero =>
    rw [unixText_zero]
    exact h
  | succ k =>
    rw [unixText_succ]
    split <;> simp [dotDot]

theorem reduceName_spec (h : VolumeOk name) : Stripped name (reduceName name) := by
  rw [reduceName]
  split
  case isTrue => exact stripDoubleSlash_spec h
  case isFalse hno =>
    refine ⟨.refl, h, rfl, Nat.le_refl _, ?_⟩
    intro j hj
    rw [Bool.eq_false_iff]
    intro hremove
    obtain ⟨a, x, b, hname, -, -, -, -, -⟩ := exists_removable hj hremove
    have hin : [slash, slash] <:+: name := ⟨a ++ x, b, by rw [hname]; simp⟩
    exact hno ⟨hin.length_le, hin⟩

/-- What a translation should give: a name for the same place that fits the buffer, or a refusal
of a name that is too long. -/
def Translates (location : Location) (bound : ℕ) (result : Except Errno (List UInt8)) : Prop :=
  (∃ text, result = .ok text ∧ posixMeaning text = location ∧ text ≠ [] ∧
    text.length ≤ maxUnixLen) ∨
  (result = .error .ENAMETOOLONG ∧ maxUnixLen < bound)

theorem unixName_relative (deviceName : Option (List UInt8)) (hreduced : Reduced name)
    (hcol : colon ∉ name) (hplain : Plain name) :
    Translates (amigaMeaning name) (3 * name.length + 2) (unixName deviceName name) := by
  rw [unixName]
  split
  case isTrue hnil =>
    left
    rw [hnil]
    exact ⟨[dot], rfl, by decide, by simp, by decide⟩
  case isFalse hne =>
    have hfront : Reduced ([] ++ name) := hreduced
    obtain ⟨k, r, rfl, hhead, hdouble⟩ := exists_reduced hfront hcol
    rcases replacement_spec k hhead hdouble with ⟨hok, hle⟩ | ⟨herror, hlt⟩
    · left
      refine ⟨unixText k r, hok, ?_, unixText_ne_nil hne, hle⟩
      rw [amigaMeaning_relative hcol,
        amigaWalk_eq_unixText {} k hhead hdouble (plain_of_replicate hplain)]
      exact if_neg (head?_unixText hhead)
    · right
      refine ⟨herror, ?_⟩
      rw [length_append, length_replicate]
      omega

theorem posixMeaning_inFront {text : List UInt8} (hnil : volume ≠ [])
    (hdots : volume ≠ [dot] ∧ volume ≠ dotDot) (hslash : slash ∉ volume)
    (hup : ((volumeRoot volume).walk ((text.splitOn slash).map posixMove)).up = 0) :
    posixMeaning (inFront volume text)
      = ⟨true, (volumeRoot volume).walk ((text.splitOn slash).map posixMove)⟩ := by
  have henter := posixMove_proper hnil hdots.1 hdots.2
  have hroot : (Place.enter volume {} : Place (List UInt8)) = volumeRoot volume := by
    rw [volumeRoot, if_neg hnil]
    rfl
  rw [posixMeaning, inFront]
  split
  case isTrue htext =>
    have hsplit : (slash :: volume).splitOn slash = [[], volume] := by
      have hcons : slash :: volume = [] ++ slash :: volume := rfl
      rw [hcons, splitOn_append_cons_self, splitOn_eq_singleton hslash]
      rfl
    subst htext
    rw [head?_cons, if_pos rfl, hsplit, map_cons, map_cons, henter]
    show (⟨true, Place.enter volume {}⟩ : Location) = _
    rw [hroot]
    rfl
  case isFalse =>
    have hsplit : (slash :: (volume ++ slash :: text)).splitOn slash
        = [] :: volume :: text.splitOn slash := by
      have hcons : slash :: (volume ++ slash :: text) = [] ++ slash :: (volume ++ slash :: text) :=
        rfl
      rw [hcons, splitOn_append_cons_self, splitOn_append_cons_self,
        splitOn_eq_singleton hslash]
      rfl
    have hwalk : Place.walk {} (([] :: volume :: text.splitOn slash).map posixMove)
        = (volumeRoot volume).walk ((text.splitOn slash).map posixMove) := by
      rw [map_cons, map_cons, henter, ← hroot]
      rfl
    rw [head?_cons, if_pos rfl, hsplit,
      Place.walkRooted_eq_walk_of_up (by rw [hwalk]; exact hup), hwalk]

theorem length_inFront_le (volume text : List UInt8) :
    (inFront volume text).length ≤ 1 + volume.length + 1 + text.length := by
  rw [inFront]
  split
  · rw [length_cons]
    omega
  · simp only [length_cons, length_append]
    omega

/-- Names with a volume, whose walk does not go above the root. -/
theorem unixName_volume (deviceName : Option (List UInt8)) {rest : List UInt8}
    (hreduced : Reduced (volume ++ colon :: rest)) (hnil : volume ≠ [])
    (hdots : volume ≠ [dot] ∧ volume ≠ dotDot) (hvol : colon ∉ volume)
    (hslash : slash ∉ volume) (hrest : colon ∉ rest) (hplain : Plain rest)
    (hup : (amigaWalk (volumeRoot volume) rest).up = 0) :
    Translates (amigaMeaning (volume ++ colon :: rest))
      (3 * (volume ++ colon :: rest).length + 2)
      (unixName deviceName (volume ++ colon :: rest)) := by
  have hassoc : volume ++ colon :: rest = (volume ++ [colon]) ++ rest := by simp
  have hdrop : (volume ++ colon :: rest).drop (volume.length + 1) = rest := by
    rw [hassoc, drop_left' (by simp)]
  have hmem : colon ∈ volume ++ colon :: rest := by simp
  have hne : volume ++ colon :: rest ≠ [] := by simp
  rw [unixName, if_neg hne, if_pos hmem]
  dsimp only
  rw [takeWhile_ne_colon hvol, hdrop, amigaMeaning_volume hvol]
  rw [hassoc] at hreduced
  obtain ⟨k, r, rfl, hhead, hdouble⟩ := exists_reduced hreduced hrest
  have hwalk := amigaWalk_eq_unixText (volumeRoot volume) k hhead hdouble
    (plain_of_replicate hplain)
  have htext := length_unixText_le k r
  have hlen : (volume ++ colon :: (List.replicate k slash ++ r)).length
      = volume.length + 1 + k + r.length := by
    simp only [length_append, length_cons, length_replicate]
    omega
  rcases replacement_spec k hhead hdouble with ⟨hok, -⟩ | ⟨herror, hlt⟩
  · rw [hok]
    dsimp only
    rw [addVolume]
    split
    case isTrue hlong => exact .inr ⟨rfl, by omega⟩
    case isFalse hfits =>
      left
      refine ⟨_, rfl, ?_, ?_, (length_inFront_le volume (unixText k r)).trans (by omega)⟩
      · rw [hwalk] at hup ⊢
        exact posixMeaning_inFront hnil hdots hslash hup
      · rw [inFront]
        split <;> simp
  · right
    rw [herror]
    exact ⟨rfl, by omega⟩

theorem unixName_reduceName (deviceName : Option (List UInt8)) (h : AmigaScope name) :
    Translates (amigaMeaning name) (3 * name.length + 2)
      (unixName deviceName (reduceName name)) := by
  -- a shorter name that is refused gives a larger bound for the name itself
  have hmono : ∀ {location : Location} {result : Except Errno (List UInt8)} {b b' : ℕ},
      b ≤ b' → Translates location b result → Translates location b' result := by
    intro location result b b' hb ht
    rcases ht with ht | ⟨herror, hlt⟩
    · exact .inl ht
    · exact .inr ⟨herror, by omega⟩
  cases h with
  | relative hcol hplain =>
    obtain ⟨hremoved, -, hmean, hshorter, hreduced⟩ := reduceName_spec (.inl hcol)
    obtain ⟨hcol', hplain'⟩ := removed_relative hremoved hcol hplain
    rw [← hmean]
    exact hmono (by omega) (unixName_relative deviceName hreduced hcol' hplain')
  | @volume volume rest hnil hdots hvol hslash hrest hplain hbelow =>
    have hok : VolumeOk (volume ++ colon :: rest) :=
      .inr ⟨volume, rest, rfl, hvol, hslash, hrest⟩
    obtain ⟨hremoved, -, hmean, hshorter, hreduced⟩ := reduceName_spec hok
    obtain ⟨rest', hname, hrest', hplain'⟩ := removed_volume hremoved hslash hrest hplain
    rw [hname] at hmean hshorter hreduced ⊢
    have hplace := congrArg Location.place hmean
    rw [amigaMeaning_volume hvol, amigaMeaning_volume hvol] at hplace
    have hroot : volumeRoot volume = { down := [volume] } := by rw [volumeRoot, if_neg hnil]
    have hup : (amigaWalk (volumeRoot volume) rest').up = 0 := by
      have hsame : amigaWalk (volumeRoot volume) rest' = amigaWalk (volumeRoot volume) rest :=
        hplace
      rw [hsame, hroot]
      exact Place.up_walk_of_staysBelow rfl hbelow
    rw [← hmean]
    exact hmono (by omega)
      (unixName_volume deviceName hreduced hnil hdots hvol hslash hrest' hplain' hup)

/-- **Translation of AmigaDOS names keeps the meaning.**  On success the new name is not empty,
fits the buffer and leads to the same place; otherwise the call fails with `ENAMETOOLONG`, which
happens to long names only, and the name is left as it was. -/
theorem amiga_to_unix_meaning (deviceName : Option (List UInt8)) {name : List UInt8}
    (h : AmigaScope name) :
    (∃ result, translateAmigaToUnixPathName deviceName name = (result, .ok ()) ∧
      posixMeaning result = amigaMeaning name ∧ result ≠ [] ∧ result.length ≤ maxUnixLen) ∨
    (translateAmigaToUnixPathName deviceName name = (name, .error .ENAMETOOLONG) ∧
      maxUnixLen < 3 * name.length + 2) := by
  rw [translateAmigaToUnixPathName]
  split
  case isTrue hlong =>
    refine .inr ⟨rfl, ?_⟩
    simp only [maxUnixLen]
    omega
  case isFalse =>
    split
    case isTrue hlong => exact .inr ⟨rfl, by omega⟩
    case isFalse =>
      rcases unixName_reduceName deviceName h with
        ⟨text, hok, hmeaning, hne, hle⟩ | ⟨herror, hlt⟩
      · rw [hok]
        exact .inl ⟨text, rfl, hmeaning, hne, hle⟩
      · rw [herror]
        exact .inr ⟨rfl, hlt⟩

/-- The name `work:src//lib` becomes `/work/lib`. -/
theorem amiga_to_unix_meaning_workLib :
    ∃ result, translateAmigaToUnixPathName none
        [119, 111, 114, 107, 58, 115, 114, 99, 47, 47, 108, 105, 98] = (result, .ok ()) ∧
      posixMeaning result
        = amigaMeaning [119, 111, 114, 107, 58, 115, 114, 99, 47, 47, 108, 105, 98] ∧
      result ≠ [] ∧ result.length ≤ maxUnixLen := by
  have hscope :
      AmigaScope ([119, 111, 114, 107] ++ colon :: [115, 114, 99, 47, 47, 108, 105, 98]) :=
    .volume (by decide) (by decide) (by decide) (by decide) (by decide)
      (by unfold Plain; decide) ⟨by decide, trivial⟩
  refine (amiga_to_unix_meaning none hscope).resolve_right ?_
  rintro ⟨-, hlong⟩
  exact absurd hlong (by decide)

end Clib4
