import Clib4.Path.Stages

/-!
# The length of a name

No rewrite makes a name longer, and a name that is accepted at all is shorter than the buffer.
So the whole translation stays inside of its buffers, and there it computes what the function on
lists of characters computes.  The only delicate point is the last stage: it moves a name with
double slashes to the front of the buffer without its terminator, if it is not there yet.  It
always is, since double slashes of the path name itself are gone by then, and those that come
from a rewrite stand at the front.

## Main definitions

* `NameState.Agrees` — the result in the buffers is that on lists of characters.

## Main results

* `NameState.passes_stages` — **the run, stage by stage.**
* `NameState.translateInPlace_agrees` — the code in its buffers refines the function on lists of
  characters.
* `translateInPlace_bounded` — **no string is longer than the path name, and no write leaves the
  buffers.**
-/

namespace Clib4

open List

/-! ### No rewrite makes the name longer -/

theorem length_squeezeLoop_le (b : Bool) (name : List UInt8) :
    (squeezeLoop b name).length ≤ name.length := by
  fun_induction squeezeLoop b name with
  | case1 => exact Nat.le_refl 0
  | case2 | case3 | case4 =>
    simp only [length_cons]
    omega

theorem length_squeezeSlashes_le (name : List UInt8) :
    (squeezeSlashes name).length ≤ name.length := by
  rw [squeezeSlashes]
  split
  · exact length_squeezeLoop_le false name
  · exact Nat.le_refl _

theorem length_stripTrailingSlashes_le (name : List UInt8) :
    (stripTrailingSlashes name).length ≤ name.length :=
  (List.take_prefix _ name).length_le

theorem dropLeadingDots_suffix (name : List UInt8) : dropLeadingDots name <:+ name := by
  fun_induction dropLeadingDots name with
  | case3 c d rest _ ih => exact ih.trans ((suffix_cons d rest).trans (suffix_cons c _))
  | _ => exact suffix_refl _

theorem length_dropEmbeddedDots_le (name : List UInt8) :
    (dropEmbeddedDots name).length ≤ name.length := by
  rw [dropEmbeddedDots_eq]
  fun_induction dropDotsLoop name with
  | case1 | case2 => exact Nat.le_refl _
  | case3 c d rest _ ih | case4 c d rest _ ih =>
    simp only [length_cons] at ih ⊢
    omega

theorem length_dropTrailingDot_le (name : List UInt8) :
    (dropTrailingDot name).length ≤ name.length := by
  rw [dropTrailingDot]
  split
  case isTrue hdot =>
    split
    · rw [length_singleton]
      omega
    · exact (List.take_prefix _ name).length_le
  case isFalse => exact Nat.le_refl _

theorem length_volumeName_le {name : List UInt8} (h : name.head? = some slash) :
    (volumeName name).length ≤ name.length := by
  have hstart : ∀ text, startsWith name text = true → text.length ≤ name.length := by
    intro text htext
    rw [startsWith, Bool.and_eq_true, decide_eq_true_eq] at htext
    exact htext.1.length_le
  rw [volumeName]
  split
  case isTrue htmp =>
    have hle : 4 ≤ name.length := hstart slashTmp htmp
    have hcol : tColon.length = 2 := rfl
    rw [length_append, length_drop]
    omega
  split
  case isTrue hnull =>
    exact Nat.le_trans (by decide) (hstart slashDevNull hnull)
  split
  case isTrue hrandom =>
    rcases Bool.or_eq_true_iff.1 hrandom with hdev | hdev
    · exact Nat.le_trans (by decide) (hstart slashDevRandom hdev)
    · exact Nat.le_trans (by decide) (hstart slashDevUrandom hdev)
  obtain ⟨rest, rfl⟩ : ∃ rest, name = slash :: rest := by
    cases name with
    | nil => cases h
    | cons c rest => exact ⟨rest, by rw [Option.some.inj h]⟩
  have htake := (List.takeWhile_prefix (fun c : UInt8 => decide (c ≠ slash)) (l := rest)).length_le
  simp only [drop_one, tail_cons, length_append, length_cons,
    length_drop]
  omega

theorem length_replaceEmbeddedDotDots_le (name : List UInt8) :
    (replaceEmbeddedDotDots name).length ≤ name.length := by
  rw [replaceEmbeddedDotDots_eq]
  fun_induction dotDotsLoop name with
  | case1 => exact Nat.le_refl _
  | case2 | case3 | case4 =>
    simp only [length_cons] at *
    omega

theorem length_replaceTrailingDotDot_le (name : List UInt8) :
    (replaceTrailingDotDot name).length ≤ name.length := by
  rw [replaceTrailingDotDot]
  split
  case isTrue hdots =>
    have hle : 3 ≤ name.length := hdots.length_le
    rw [length_append, length_take, length_singleton]
    omega
  case isFalse => exact Nat.le_refl _

theorem length_replaceLeadingDotDot_le (name : List UInt8) :
    (replaceLeadingDotDot name).length ≤ name.length := by
  rw [replaceLeadingDotDot]
  split
  · exact (drop_suffix 2 name).length_le
  · exact Nat.le_refl _

/-- The loop that takes components out never makes the name longer. -/
theorem length_reduceName_le (name : List UInt8) : (reduceName name).length ≤ name.length := by
  rw [reduceName]
  split
  case isFalse => exact Nat.le_refl _
  refine Loop.getD_run_invariant
    (fun a : List UInt8 × ℕ => a.1.length ≤ name.length)
    (fun r : List UInt8 => r.length ≤ name.length) ?_ (Nat.le_refl _) _ (Nat.le_refl _)
  rintro ⟨l, position⟩ hl
  dsimp only at hl
  rw [stripBody]
  split
  · exact hl
  dsimp only
  split
  · exact hl
  split
  case isFalse => exact hl
  case isTrue hremove =>
    obtain ⟨hone, -, -, hseparator⟩ := removable_iff.1 hremove
    obtain ⟨hle, -, -⟩ := componentStart_spec hseparator
    show (_ ++ _ : List UInt8).length ≤ name.length
    rw [length_append, length_take, length_drop]
    omega

/-! ### Double slashes -/

theorem squeezeLoop_no_double (b : Bool) (name : List UInt8) :
    ¬ [slash, slash] <:+: squeezeLoop b name ∧
      (b = true → (squeezeLoop b name).head? ≠ some slash) := by
  induction name generalizing b with
  | nil => exact ⟨by simp [squeezeLoop], by simp [squeezeLoop]⟩
  | cons c name ih =>
    rw [squeezeLoop]
    split
    case isTrue hc =>
      obtain ⟨hno, hhead⟩ := ih true
      cases b with
      | true => exact ih true
      | false =>
        refine ⟨?_, by simp⟩
        rw [if_neg (by simp), infix_cons_iff]
        rintro (hstart | hin)
        · -- the character behind this slash is no slash
          obtain ⟨rest, hrest⟩ := (cons_prefix_cons.1 hstart).2
          exact hhead rfl (by rw [← hrest]; rfl)
        · exact hno hin
    case isFalse hc =>
      obtain ⟨hno, -⟩ := ih false
      refine ⟨?_, fun _ heq => hc (Option.some.inj heq)⟩
      rw [infix_cons_iff]
      rintro (hstart | hin)
      · exact hc (cons_prefix_cons.1 hstart).1.symm
      · exact hno hin

theorem stripTrailingSlashes_no_double (name : List UInt8) :
    ¬ [slash, slash] <:+: stripTrailingSlashes (squeezeSlashes name) := by
  rw [stripTrailingSlashes_squeezeSlashes]
  intro hin
  exact (squeezeLoop_no_double false name).1 (hin.trans (List.take_prefix _ _).isInfix)

/-! ### The run -/

namespace NameState

open Pipeline (Passes)

variable {m m' : NameState} {s s' : List UInt8} {n : ℕ}

theorem Holds.unique (h : m.Holds s) (h' : m.Holds s') : s = s' := by
  have hlen : s.length = s'.length := by rw [← h.len, h'.len]
  obtain ⟨t, ht⟩ := h.text
  obtain ⟨t', ht'⟩ := h'.text
  rw [← ht', append_assoc, append_assoc] at ht
  exact (append_inj ht hlen).1

/-- The name is `s`; if it has double slashes, it stands at the front of the buffer, or a volume is
going to be put in front of it there. -/
structure Sound (m : NameState) (s : List UInt8) : Prop where
  holds : m.Holds s
  double : [slash, slash] <:+: s → m.name = replace ∨ 0 < m.volumeNameLen

theorem Sound.becomes {result : Except Halt NameState} (h : m.Sound s)
    (hbecomes : m.Becomes s' result) : ∃ m', result = .ok m' ∧ m'.Sound s' ∧ m.Beside m' := by
  obtain ⟨m', hres, hholds, hbeside, hwhere⟩ := hbecomes
  refine ⟨m', hres, ⟨hholds, ?_⟩, hbeside⟩
  rcases hwhere with rfl | hreplace
  · rw [hholds.unique h.holds]
    exact h.double
  · exact fun _ => .inl hreplace

/-- No string is longer than `n`. -/
def Fits (n : ℕ) (m : NameState) : Prop := m.len ≤ n ∧ m.text.length ≤ n

theorem Holds.fits (h : m.Holds s) (hn : s.length ≤ n) : m.Fits n :=
  ⟨h.len ▸ hn, h.length_text_le.trans hn⟩

theorem Beside.trans {m'' : NameState} (h : m.Beside m') (h' : m'.Beside m'') : m.Beside m'' :=
  ⟨h'.volumeName.trans h.volumeName, h'.volumeNameLen.trans h.volumeNameLen,
    h'.isRoot.trans h.isRoot⟩

section

variable {stage : NameState → Except Halt NameState}
  {stages : List (NameState → Except Halt NameState)} {post : Except Halt NameState → Prop}

theorem Sound.passes_cons (h : m.Sound s) (hn : s.length ≤ n) (hstage : m.Becomes s' (stage m))
    (hrest : ∀ m', m'.Sound s' → m.Beside m' → Passes (Fits n) post stages m') :
    Passes (Fits n) post (stage :: stages) m := by
  obtain ⟨m', hok, hsound, hbeside⟩ := h.becomes hstage
  exact Pipeline.passes_cons_of_ok (h.holds.fits hn) hok (hrest m' hsound hbeside)

/-- The stage rewrites the name, and never makes it longer. -/
def Shortens (stage : NameState → Except Halt NameState) (rewrite : List UInt8 → List UInt8) :
    Prop :=
  Rewrites stage rewrite ∧ ∀ s, (rewrite s).length ≤ s.length

theorem Sound.passes_append {rewrites : List ((NameState → Except Halt NameState) ×
    (List UInt8 → List UInt8))} (hr : ∀ r ∈ rewrites, Shortens r.1 r.2) (h : m.Sound s)
    (hn : s.length ≤ n)
    (hrest : ∀ m', m'.Sound (rewrites.foldl (fun s r => r.2 s) s) → m.Beside m' →
      (rewrites.foldl (fun s r => r.2 s) s).length ≤ s.length → Passes (Fits n) post stages m') :
    Passes (Fits n) post (rewrites.map Prod.fst ++ stages) m := by
  induction rewrites generalizing m s with
  | nil => exact hrest m h ⟨rfl, rfl, rfl⟩ (Nat.le_refl _)
  | cons r rewrites ih =>
    obtain ⟨hfirst, hothers⟩ := forall_mem_cons.1 hr
    have hle := hfirst.2 s
    refine h.passes_cons hn (hfirst.1 h.holds) ?_
    intro m₁ h₁ hb₁
    refine ih hothers h₁ (hle.trans hn) ?_
    intro m₂ h₂ hb₂ hle₂
    exact hrest m₂ h₂ (hb₁.trans hb₂) (hle₂.trans hle)

theorem dotDots_shorten : ∀ r ∈ [(replaceEmbeddedDotDots, Clib4.replaceEmbeddedDotDots),
    (replaceTrailingDotDot, Clib4.replaceTrailingDotDot),
    (replaceLeadingDotDot, Clib4.replaceLeadingDotDot),
    (replaceDotDot, fun s => if s = dotDot then [slash] else s),
    (replaceDot, fun s => if s = [dot] then [] else s)], Shortens r.1 r.2 := by
  simp only [forall_mem_cons]
  refine ⟨⟨replaceEmbeddedDotDots_rewrites, length_replaceEmbeddedDotDots_le⟩,
    ⟨replaceTrailingDotDot_rewrites, length_replaceTrailingDotDot_le⟩,
    ⟨replaceLeadingDotDot_rewrites, length_replaceLeadingDotDot_le⟩,
    ⟨replaceDotDot_rewrites, ?_⟩, ⟨replaceDot_rewrites, ?_⟩, by simp⟩
  · intro s
    dsimp only
    split
    case isTrue h =>
      rw [h]
      decide
    case isFalse => exact Nat.le_refl _
  · intro s
    dsimp only
    split
    · exact Nat.zero_le _
    · exact Nat.le_refl _

theorem Sound.passes_end {volume : List UInt8} (h : m.Sound s)
    (hlen : m.volumeNameLen = volume.length) (hcells : volume <+: m.volumeName.cells)
    (hn : volume.length + s.length ≤ n) (hshort : n < substituteSize)
    (hpost : ∀ m', m'.Holds (Clib4.reduceName (volume ++ translateDots s)) →
      m'.isRoot = (m.isRoot ||
        decide ([colon, slash] <:+ Clib4.reduceName (volume ++ translateDots s))) →
      post (.ok m')) :
    Passes (Fits n) post [replaceEmbeddedDotDots, replaceTrailingDotDot, replaceLeadingDotDot,
      replaceDotDot, replaceDot, rejoin, reduceName, markRoot] m := by
  refine h.passes_append dotDots_shorten (by omega) ?_
  intro m₁ h₁ hb₁ hle₁
  change m₁.Sound (translateDots s) at h₁
  change (translateDots s).length ≤ s.length at hle₁
  -- the volume is put in front of the name, at the front of the buffer
  have hrejoin : m₁.Becomes (volume ++ translateDots s) m₁.rejoin :=
    rejoin_spec h₁.holds (hb₁.volumeNameLen.trans hlen) (hb₁.volumeName ▸ hcells) (by omega)
  obtain ⟨m₂, hok₂, h₂, hb₂, hwhere⟩ := hrejoin
  refine Pipeline.passes_cons_of_ok (h₁.holds.fits (by omega)) hok₂ ?_
  have hdouble : [slash, slash] <:+: volume ++ translateDots s → m₂.name = replace := by
    intro hin
    rcases hwhere with rfl | hreplace
    · -- nothing has been put in front, so there is no volume
      have hvol : volume = [] := by
        simpa using congrArg List.length (h₂.unique h₁.holds)
      subst hvol
      refine (h₁.double hin).resolve_right ?_
      rw [hb₁.volumeNameLen, hlen]
      exact Nat.lt_irrefl 0
    · exact hreplace
  have hle₂ := length_reduceName_le (volume ++ translateDots s)
  rw [length_append] at hle₂
  obtain ⟨m₃, hok₃, h₃, hb₃, -⟩ := reduceName_spec h₂ hdouble
  refine Pipeline.passes_cons_of_ok (h₂.fits (by rw [length_append]; omega)) hok₃ ?_
  refine Pipeline.passes_cons_of_ok (h₃.fits (by omega)) (markRoot_spec h₃) ?_
  have hholds : ({ m₃ with isRoot := m₃.isRoot || decide ([colon, slash] <:+
      Clib4.reduceName (volume ++ translateDots s)) } : NameState).Holds
        (Clib4.reduceName (volume ++ translateDots s)) := ⟨h₃.text, h₃.len, h₃.short⟩
  refine ⟨hholds.fits (by omega), hpost _ hholds ?_⟩
  rw [hb₃.isRoot, hb₂.isRoot, hb₁.isRoot]

end

/-- The result in the buffer is the result on the list of characters. -/
def Agrees (expected : Except Errno TranslatedName) (result : Except Halt NameState) : Prop :=
  match expected with
  | .ok translated =>
    ∃ m, result = .ok m ∧ translated.name ++ [0] <+: m.ahead ∧ m.isRoot = translated.isRoot
  | .error e => result = .error (.failed e)

section

variable (path : CString) (substitute volumeName : Buffer UInt8 substituteSize)

theorem start_text : path.text ++ [0] <+: (start path substitute volumeName).ahead := by
  obtain ⟨front, back, hmemory, hfront, htake, hback⟩ := exists_split 0 path.memory
  rcases hback with rfl | ⟨t, rfl⟩
  · have hmem := path.terminated
    rw [hmemory, append_nil] at hmem
    exact absurd hmem hfront
  · have hahead : (start path substitute volumeName).ahead = path.memory := rfl
    rw [hahead, CString.text, htake, hmemory]
    exact ⟨t, by simp⟩

/-- The stages up to the one that checks for an absolute name. -/
theorem passes_start {stages : List (NameState → Except Halt NameState)}
    {post : Except Halt NameState → Prop} (hshort : path.text.length < substituteSize)
    (hrest : ∀ m, m.Sound (canonicalName path.text) →
      (start path substitute volumeName).Beside m →
      (canonicalName path.text).length ≤ path.text.length →
      Passes (Fits path.text.length) post stages m) :
    Passes (Fits path.text.length) post
      (squeezeSlashes :: stripTrailingSlashes :: dropLeadingDots :: dropEmbeddedDots ::
        dropTrailingDot :: stages) (start path substitute volumeName) := by
  have h : (start path substitute volumeName).Holds path.text :=
    ⟨start_text path substitute volumeName, rfl, hshort⟩
  have hle₁ := length_squeezeSlashes_le path.text
  have hle₂ := length_stripTrailingSlashes_le (Clib4.squeezeSlashes path.text)
  have hsuf := dropLeadingDots_suffix
    (Clib4.stripTrailingSlashes (Clib4.squeezeSlashes path.text))
  have hle₃ := hsuf.length_le.trans (hle₂.trans hle₁)
  obtain ⟨m₁, hok₁, h₁, hb₁, -⟩ := squeezeSlashes_rewrites h
  refine Pipeline.passes_cons_of_ok (h.fits (Nat.le_refl _)) hok₁ ?_
  obtain ⟨m₂, hok₂, h₂, hb₂, -⟩ := stripTrailingSlashes_rewrites h₁
  refine Pipeline.passes_cons_of_ok (h₁.fits hle₁) hok₂ ?_
  obtain ⟨h₃, hb₃⟩ := leadingLoop_spec h₂ (n := m₂.len) h₂.len.ge
  have hok₃ : dropLeadingDots m₂ = .ok (leadingLoop m₂.len m₂) := rfl
  refine Pipeline.passes_cons_of_ok (h₂.fits (hle₂.trans hle₁)) hok₃ ?_
  -- from here on, double slashes come from a rewrite
  have hsound : (leadingLoop m₂.len m₂).Sound _ := ⟨h₃, fun hin =>
    absurd (hin.trans hsuf.isInfix) (stripTrailingSlashes_no_double path.text)⟩
  have hshortens : ∀ r ∈ [(dropEmbeddedDots, Clib4.dropEmbeddedDots),
      (dropTrailingDot, Clib4.dropTrailingDot)], Shortens r.1 r.2 := by
    simp only [forall_mem_cons]
    exact ⟨⟨dropEmbeddedDots_rewrites, length_dropEmbeddedDots_le⟩,
      ⟨dropTrailingDot_rewrites, length_dropTrailingDot_le⟩, by simp⟩
  refine hsound.passes_append hshortens hle₃ ?_
  intro m₅ h₅ hb₅ hle₅
  dsimp only [foldl_cons, foldl_nil] at h₅ hle₅
  exact hrest m₅ h₅ (((hb₁.trans hb₂).trans hb₃).trans hb₅) (hle₅.trans hle₃)

theorem start_fits : (start path substitute volumeName).Fits path.text.length :=
  ⟨Nat.le_refl _, Nat.le_refl _⟩

/-- **The run in the buffers never leaves them, comes through no string that is longer than the
path name, and ends with what the function on lists of characters gives.** -/
theorem passes_stages (hcol : colon ∉ path.text) :
    Passes (Fits path.text.length) (Agrees (translateUnixToAmigaPathName path.text)) stages
      (start path substitute volumeName) := by
  rw [translateUnixToAmigaPathName, if_neg hcol]
  by_cases hlong : substituteSize ≤ path.text.length
  · rw [if_pos hlong]
    exact Pipeline.passes_cons_of_error (start_fits path substitute volumeName) (if_pos hlong) rfl
  rw [if_neg hlong]
  have hshort : path.text.length < substituteSize := Nat.not_le.1 hlong
  refine Pipeline.passes_cons_of_ok (start_fits path substitute volumeName) (if_neg hlong) ?_
  refine passes_start path substitute volumeName hshort ?_
  intro m h hb hle
  dsimp only
  generalize canonicalName path.text = canonical at h hle ⊢
  -- the volume, from the first component of an absolute name
  obtain ⟨m₁, hok₁, h₁, hname₁, hlen₁, hroot₁, hwhere₁⟩ := absoluteName_spec h.holds
  refine Pipeline.passes_cons_of_ok (h.holds.fits hle) hok₁ ?_
  have hle₁ : (if canonical.head? = some slash then Clib4.volumeName canonical
      else canonical).length ≤ path.text.length := by
    split
    case isTrue hhead => exact (length_volumeName_le hhead).trans hle
    case isFalse => exact hle
  have hsound₁ : m₁.Sound (if canonical.head? = some slash then Clib4.volumeName canonical
      else canonical) := by
    refine ⟨h₁, ?_⟩
    rcases hwhere₁ with rfl | hreplace
    · rw [h₁.unique h.holds]
      exact h.double
    · exact fun _ => .inl hreplace
  generalize (if canonical.head? = some slash then Clib4.volumeName canonical
    else canonical) = named at hsound₁ hle₁ ⊢
  change Passes _ (Agrees (if slash ∈ volumePart named ∨
    colon ∈ named.drop (volumePart named).length then _ else _)) _ _
  -- the volume is taken off, and there is no colon behind it
  have hfits₁ := hsound₁.holds.fits hle₁
  obtain ⟨hslash, herror⟩ | ⟨hslash, m₂, hok₂, h₂⟩ := extractVolume_spec hsound₁.holds
  · rw [if_pos (.inl hslash)]
    exact Pipeline.passes_cons_of_error hfits₁ herror rfl
  refine Pipeline.passes_cons_of_ok hfits₁ hok₂ ?_
  have hlength : (volumePart named).length + (named.drop (volumePart named).length).length
      = named.length := by
    have hpre := (prefix_volumePart named).length_le
    rw [length_drop]
    omega
  have hcheck := checkColons_eq h₂.holds
  have hfits₂ := h₂.holds.fits (n := path.text.length) (by omega)
  by_cases hextra : colon ∈ named.drop (volumePart named).length
  · rw [if_pos hextra] at hcheck
    rw [if_pos (.inr hextra)]
    exact Pipeline.passes_cons_of_error hfits₂ hcheck rfl
  rw [if_neg hextra] at hcheck
  rw [if_neg (not_or.2 ⟨hslash, hextra⟩)]
  refine Pipeline.passes_cons_of_ok hfits₂ hcheck ?_
  have hsound₂ : m₂.Sound (named.drop (volumePart named).length) := by
    refine ⟨h₂.holds, fun hin => ?_⟩
    rcases eq_nil_or_concat (volumePart named) with hnil | ⟨front, c, hconcat⟩
    · -- without a volume the pointer has not moved
      rw [hnil] at hin
      have hzero : m₁.volumeNameLen = 0 := hlen₁.trans hb.volumeNameLen
      rw [h₂.name hnil]
      exact .inl ((hsound₁.double hin).resolve_right (by omega))
    · rw [h₂.volumeNameLen, hconcat]
      simp
  refine hsound₂.passes_end h₂.volumeNameLen h₂.volume (by omega) hshort ?_
  intro m₃ hholds hroot
  refine ⟨m₃, rfl, hholds.text, ?_⟩
  have hfalse : (start path substitute volumeName).isRoot = false := rfl
  rw [hroot, h₂.isRoot, hroot₁, hb.isRoot, hfalse, Bool.false_or, ← Bool.decide_or]
  rfl

end

/-! ### The function -/

section

variable (path : CString) (substitute volumeName : Buffer UInt8 substituteSize)

theorem passes_stagesFor :
    Passes (Fits path.text.length) (Agrees (translateUnixToAmigaPathName path.text))
      (stagesFor path) (start path substitute volumeName) := by
  rw [stagesFor]
  split
  case isTrue hcol =>
    rw [translateUnixToAmigaPathName, if_pos hcol]
    exact ⟨start_fits path substitute volumeName, _, rfl,
      start_text path substitute volumeName, rfl⟩
  case isFalse hcol => exact passes_stages path substitute volumeName hcol

/-- **The function in its buffers does what the function on lists of characters does.** -/
theorem translateInPlace_agrees :
    Agrees (translateUnixToAmigaPathName path.text)
      (translateInPlace path substitute volumeName) :=
  (passes_stagesFor path substitute volumeName).post_run

end

end NameState

theorem translateUnixToAmigaPathName_tooLong_iff (name : List UInt8) :
    translateUnixToAmigaPathName name = .error .ENAMETOOLONG ↔
      colon ∉ name ∧ substituteSize ≤ name.length := by
  rw [translateUnixToAmigaPathName]
  by_cases hcol : colon ∈ name
  · simp [hcol]
  by_cases hlong : substituteSize ≤ name.length
  · simp [hlong]
  -- behind the check of the length the only error is `EINVAL`
  rw [if_neg hcol, if_neg hlong]
  refine iff_of_false ?_ fun h => hlong h.2
  intro heq
  rcases ite_eq_iff.1 heq with ⟨-, herror⟩ | ⟨-, herror⟩
  · cases herror
  · cases herror

open NameState in
/-- **No string that the function comes through is longer than the path name, no character is
written outside of the buffers, and the path name is refused as too long just if it has no colon
and does not fit the buffer.** -/
theorem translateInPlace_bounded (path : CString)
    (substitute volumeName : Buffer UInt8 substituteSize) :
    (∀ k m, Pipeline.run (start path substitute volumeName) ((stagesFor path).take k) = .ok m →
      m.len ≤ path.text.length ∧ m.text.length ≤ path.text.length) ∧
    translateInPlace path substitute volumeName ≠ .error .outOfBounds ∧
    (translateInPlace path substitute volumeName = .error (.failed .ENAMETOOLONG) ↔
      colon ∉ path.text ∧ substituteSize ≤ path.text.length) := by
  have hagrees := translateInPlace_agrees path substitute volumeName
  rw [← translateUnixToAmigaPathName_tooLong_iff]
  refine ⟨fun k m hrun => (passes_stagesFor path substitute volumeName).good_of_run hrun, ?_⟩
  cases hexpected : translateUnixToAmigaPathName path.text with
  | ok translated =>
    rw [hexpected] at hagrees
    obtain ⟨m, hm, -, -⟩ := hagrees
    rw [hm]
    simp
  | error e =>
    rw [hexpected] at hagrees
    change translateInPlace path substitute volumeName = .error (.failed e) at hagrees
    rw [hagrees]
    simp

end Clib4
