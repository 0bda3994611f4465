import Clib4.Path.DoubleDots
import Clib4.Path.InPlace

/-!
# The stages, one by one

Each stage of `__translate_unix_to_amiga_path_name`, run in the buffers, does to the name what
its namesake of `UnixToAmiga` does to a list of characters.  Loops are compared position by
position, with the output so far generalised.

## Main results

* `squeezeSlashes_rewrites`, `stripTrailingSlashes_rewrites`, `leadingLoop_spec`,
  `dropEmbeddedDots_rewrites`, `dropTrailingDot_rewrites` — the rewrites that make the name
  canonical.
* `absoluteName_spec`, `extractVolume_spec`, `rejoin_spec` — what is done about the volume.
* `replaceEmbeddedDotDots_rewrites` and the four after it — double dots.
* `reduceName_spec` — `__strip_double_slash` in the buffer.
-/

namespace Clib4

open Splice List

namespace NameState

variable {m : NameState} {s out xs p : List UInt8} {i k n : ℕ}

/-! ### Slashes -/

theorem squeezeLoop_leaves (haveSlash : Bool) (h : m.Rewriting s i out) (hn : s.length ≤ i + n) :
    m.Leaves s (out ++ Clib4.squeezeLoop haveSlash (s.drop i))
      (squeezeLoop n m i out.length haveSlash) := by
  have hbound := h.bound
  induction n generalizing m i out haveSlash with
  | zero =>
    obtain rfl : i = s.length := by omega
    rw [drop_length, Clib4.squeezeLoop, append_nil]
    exact h.leaves
  | succ n ih =>
    rw [squeezeLoop, h.len]
    rcases hbound.lt_or_eq with hi | rfl
    case inr =>
      rw [if_neg (Nat.lt_irrefl _), drop_length, Clib4.squeezeLoop, append_nil]
      exact h.leaves
    rw [if_pos hi, h.char (Nat.le_refl i) hbound, drop_eq_getElem_cons hi,
      getD_eq_getElem _ _ hi]
    have hle := h.le
    -- what the loop does after it has written the character
    have hcopy : ∀ flag, m.Leaves s (out ++ s[i] :: Clib4.squeezeLoop flag (s.drop (i + 1)))
        (m.write out.length [s[i]] >>= fun m => squeezeLoop n m (i + 1) (out.length + 1) flag) := by
      intro flag
      obtain ⟨b, hb, hr⟩ := h.write [s[i]] (Nat.le_succ i) hi (by simpa using hle)
      have hrest := ih flag hr (by omega) hi
      rw [length_append, append_assoc] at hrest
      rw [hb]
      exact hrest
    by_cases hc : s[i] = slash
    · cases haveSlash with
      | true =>
        rw [Clib4.squeezeLoop, if_pos hc, if_pos hc]
        exact ih _ (h.skip (Nat.le_succ i) hi) (by omega) hi
      | false =>
        rw [Clib4.squeezeLoop, if_pos hc, if_pos hc]
        exact hcopy true
    · rw [Clib4.squeezeLoop, if_neg hc, if_neg hc]
      exact hcopy false

theorem squeezeSlashes_rewrites : Rewrites squeezeSlashes Clib4.squeezeSlashes :=
  rewrites_of_leaves (by decide) (by decide) (by decide) fun m s h => by
    rw [h.len]
    exact squeezeLoop_leaves _ h.rewriting (by omega)

/-! ### Slashes at the end -/

/-- The loop counts the slashes at the end, but not the first character. -/
theorem trailingSlashes_eq (h : m.Holds s) (hpos : 0 < s.length) (num : ℕ)
    (hn : s.length ≤ num + n) : m.trailingSlashes n num
      = num + min ((s.reverse.drop num).takeWhile (· == slash)).length (s.length - 1 - num) := by
  induction n generalizing num with
  | zero =>
    rw [trailingSlashes, Nat.sub_eq_zero_of_le (by omega : s.length - 1 ≤ num), Nat.min_zero,
      Nat.add_zero]
  | succ n ih =>
    rw [trailingSlashes, h.len, h.sizeSub hpos]
    by_cases hnum : num < s.length - 1
    · have hrev : num < s.reverse.length := by rw [length_reverse]; omega
      have hchar : m.char (Clib4.sizeSub s.length (num + 1)) = s.reverse[num] := by
        rw [h.sizeSub (by omega), h.char (by omega), getD_eq_getElem _ _ (by omega),
          getElem_reverse]
        congr 1
        omega
      rw [hchar, drop_eq_getElem_cons hrev, takeWhile_cons]
      by_cases hslash : s.reverse[num] = slash
      · rw [if_pos ⟨hnum, hslash⟩, ih _ (by omega), hslash, beq_self_eq_true, if_pos rfl,
          length_cons]
        omega
      · rw [if_neg fun hboth => hslash hboth.2, if_neg (by simpa using hslash), length_nil,
          Nat.zero_min, Nat.add_zero]
    · rw [if_neg fun hboth => hnum hboth.1, Nat.sub_eq_zero_of_le (Nat.not_lt.1 hnum),
        Nat.min_zero, Nat.add_zero]

theorem stripTrailingSlashes_rewrites :
    Rewrites stripTrailingSlashes Clib4.stripTrailingSlashes := by
  intro m s h
  have htake : Clib4.stripTrailingSlashes s
      = s.take (s.length - min (s.reverse.takeWhile (· == slash)).length (s.length - 1)) := rfl
  rw [htake, stripTrailingSlashes, h.len]
  by_cases hlong : 1 < s.length
  · have hnum := trailingSlashes_eq h (by omega) 0 (n := s.length) (by omega)
    rw [drop_zero, Nat.zero_add] at hnum
    rw [hnum]
    generalize hmin : min (s.reverse.takeWhile (· == slash)).length (s.length - 1) = num
    by_cases hpos : 0 < num
    · rw [if_pos ⟨hlong, hpos⟩, h.sizeSub (by omega)]
      exact (take_renames h (Nat.sub_le s.length num)).becomes
    · rw [if_neg fun hboth => hpos hboth.2, take_of_length_le (by omega)]
      exact h.becomes
  · rw [if_neg fun hboth => hlong hboth.1, take_of_length_le (by omega)]
    exact h.becomes

/-! ### Single dots -/

/-- The loop that ditches leading dots moves the pointer only. -/
theorem leadingLoop_spec (h : m.Holds s) (hn : s.length ≤ n) :
    (leadingLoop n m).Holds (Clib4.dropLeadingDots s) ∧ m.Beside (leadingLoop n m) := by
  induction s using Clib4.dropLeadingDots.induct generalizing m n with
  | case1 | case2 c =>
    have hstop : leadingLoop n m = m := by cases n <;> simp [leadingLoop, h.len]
    rw [hstop]
    exact ⟨h, rfl, rfl, rfl⟩
  | case3 c d rest hdots ih =>
    obtain ⟨rfl, rfl, hrest⟩ := hdots
    obtain ⟨n, rfl⟩ : ∃ k, n = k + 1 := ⟨n - 1, by simp only [length_cons] at hn; omega⟩
    have hpos := length_pos_of_ne_nil hrest
    have hmatch : m.matchesAt [dot, slash] 0 = true :=
      (h.matchesAt (by decide) (Nat.zero_le _)).2 (prefix_append [dot, slash] rest)
    have hlong : 2 < m.len := by
      rw [h.len, length_cons, length_cons]
      omega
    rw [leadingLoop, if_pos ⟨hlong, hmatch⟩, Clib4.dropLeadingDots, if_pos ⟨rfl, rfl, hrest⟩]
    have hadvance := Holds.advance (show m.Holds ([dot, slash] ++ rest) from h)
    obtain ⟨hholds, hbeside⟩ := ih hadvance (n := n) (by simp only [length_cons] at hn; omega)
    exact ⟨hholds, hbeside.volumeName, hbeside.volumeNameLen, hbeside.isRoot⟩
  | case4 c d rest hdots =>
    have hstop : leadingLoop n m = m := by
      cases n with
      | zero => rfl
      | succ n =>
        rw [leadingLoop, if_neg]
        rintro ⟨hlong, hmatch⟩
        rw [h.matchesAt (by decide) (Nat.zero_le _), drop_zero, cons_prefix_cons,
          cons_prefix_cons] at hmatch
        rw [h.len] at hlong
        refine hdots ⟨hmatch.1.symm, hmatch.2.1.symm, ?_⟩
        rintro rfl
        simp at hlong
    rw [hstop, Clib4.dropLeadingDots, if_neg hdots]
    exact ⟨h, rfl, rfl, rfl⟩

variable {l volume : List UInt8}

/-- Where a dot stands between two slashes, the loop goes on at the second one. -/
theorem dropDotsLoop_of_match (h : [slash, dot, slash] <+: l) :
    Clib4.dropDotsLoop l = Clib4.dropDotsLoop (l.drop 2) := by
  obtain ⟨rest, rfl⟩ := h
  show Clib4.dropDotsLoop (slash :: dot :: slash :: rest) = _
  rw [Clib4.dropDotsLoop, if_pos ⟨rfl, rfl, rfl⟩]
  rfl

theorem dropDotsLoop_cons {c : UInt8} (h : ¬ [slash, dot, slash] <+: c :: l) :
    Clib4.dropDotsLoop (c :: l) = c :: Clib4.dropDotsLoop l := by
  match l with
  | [] => rfl
  | [d] => simp [Clib4.dropDotsLoop]
  | d :: e :: rest =>
    rw [Clib4.dropDotsLoop, if_neg]
    rintro ⟨rfl, rfl, he⟩
    obtain rfl : e = slash := by simpa using he
    exact h ⟨rest, rfl⟩

/-- The inner loop comes to a position where no such dot stands. -/
theorem skipDots_spec (h : m.Rewriting s i out) (hi : i < s.length) (hn : s.length ≤ i + n) :
    i ≤ m.skipDots n i ∧ m.skipDots n i < s.length ∧
      ¬ [slash, dot, slash] <+: s.drop (m.skipDots n i) ∧
      Clib4.dropDotsLoop (s.drop i) = Clib4.dropDotsLoop (s.drop (m.skipDots n i)) := by
  induction n generalizing i with
  | zero => omega
  | succ n ih =>
    have hlen : i + 2 < s.length → i < Clib4.sizeSub m.len 2 := by
      intro hlong
      have hshort : s.length < 1024 := h.short
      rw [h.len, sizeSub_of_le (by omega) (by omega)]
      omega
    by_cases hmatch : [slash, dot, slash] <+: s.drop i
    · have hlong : i + 2 < s.length := by
        have := hmatch.length_le
        simp only [length_cons, length_drop] at this
        omega
      rw [skipDots, if_pos ⟨hlen hlong, (h.matchesAt (by decide) (Nat.le_refl i) h.bound).2 hmatch⟩]
      obtain ⟨hle, hlt, hno, heq⟩ := ih (h.skip (by omega) (by omega)) hlong (by omega)
      refine ⟨by omega, hlt, hno, ?_⟩
      rw [dropDotsLoop_of_match hmatch, drop_drop, heq]
    · rw [skipDots, if_neg]
      · exact ⟨Nat.le_refl i, hi, hmatch, rfl⟩
      · rintro ⟨-, hyes⟩
        exact hmatch ((h.matchesAt (by decide) (Nat.le_refl i) h.bound).1 hyes)

theorem dropDotsLoop_leaves (h : m.Rewriting s i out) (hn : s.length ≤ i + n) :
    m.Leaves s (out ++ Clib4.dropDotsLoop (s.drop i)) (dropDotsLoop n m i out.length) := by
  have hbound := h.bound
  induction n generalizing m i out with
  | zero =>
    obtain rfl : i = s.length := by omega
    rw [drop_length, Clib4.dropDotsLoop, append_nil]
    exact h.leaves
  | succ n ih =>
    rw [dropDotsLoop, h.len]
    rcases hbound.lt_or_eq with hi | rfl
    case inr =>
      rw [if_neg (Nat.lt_irrefl _), drop_length, Clib4.dropDotsLoop, append_nil]
      exact h.leaves
    obtain ⟨hle, hlt, hno, heq⟩ := skipDots_spec h hi (n := s.length) (by omega)
    rw [if_pos hi, heq]
    generalize m.skipDots s.length i = k at hle hlt hno ⊢
    rw [drop_eq_getElem_cons hlt] at hno ⊢
    rw [if_pos hlt, h.char hle hlt.le, getD_eq_getElem _ _ hlt, dropDotsLoop_cons hno]
    have hout := h.le
    obtain ⟨b, hb, hr⟩ := h.write [s[k]] (k := k + 1) (by omega) hlt
      (by rw [length_singleton]; omega)
    have hrest := ih hr (by omega) hlt
    rw [length_append, append_assoc] at hrest
    rw [hb]
    exact hrest

theorem dropEmbeddedDots_rewrites : Rewrites dropEmbeddedDots Clib4.dropEmbeddedDots :=
  rewrites_of_leaves (by decide) (by decide) (by decide) fun m s h => by
    rw [h.len]
    exact dropDotsLoop_leaves h.rewriting (by omega)

theorem dropTrailingDot_rewrites : Rewrites dropTrailingDot Clib4.dropTrailingDot := by
  intro m s h
  have hend := h.matchesAt_end (p := [slash, dot]) (k := 2) (by decide) rfl
  simp only [dropTrailingDot, Clib4.dropTrailingDot, hend]
  split
  case isTrue hdot =>
    rw [h.len]
    split
    · exact (m.strcpy_finish_renames [slash] (by decide)).becomes
    · rw [h.sizeSub (k := 2) hdot.length_le]
      exact (take_renames h (Nat.sub_le s.length 2)).becomes
  case isFalse => exact h.becomes

/-! ### Volumes -/

theorem Holds.startsWith (h : m.Holds s) {text : List UInt8} (htext : 0 ∉ text) :
    m.startsWith text = Clib4.startsWith s text := by
  rw [NameState.startsWith, Clib4.startsWith]
  by_cases hpre : text <+: s
  · have hle := hpre.length_le
    have hmatch : m.matchesAt text 0 = true := (h.matchesAt htext (Nat.zero_le _)).2 hpre
    have hchar : (m.char text.length == slash) = (s[text.length]? == some slash) := by
      rw [h.char hle, getD_eq_getElem?_getD]
      cases s[text.length]? with
      | none | some c => rfl
    rw [hmatch, hchar, h.len, decide_eq_true hpre, Bool.or_comm]
  · have hmatch : m.matchesAt text 0 = false := by
      rw [Bool.eq_false_iff]
      exact fun hyes => hpre ((h.matchesAt htext (Nat.zero_le _)).1 hyes)
    rw [hmatch, decide_eq_false hpre]
    rfl

/-- A list is what stands in front of a character, and what begins with it. -/
theorem exists_split (c : UInt8) (l : List UInt8) : ∃ front back, l = front ++ back ∧
    c ∉ front ∧ l.takeWhile (· ≠ c) = front ∧ (back = [] ∨ ∃ t, back = c :: t) := by
  induction l with
  | nil => exact ⟨[], [], rfl, by simp, rfl, .inl rfl⟩
  | cons d l ih =>
    by_cases hd : d = c
    · subst hd
      exact ⟨[], d :: l, rfl, by simp, by simp, .inr ⟨l, rfl⟩⟩
    · obtain ⟨front, back, rfl, hmem, htake, hback⟩ := ih
      refine ⟨d :: front, back, rfl, ?_, ?_, hback⟩
      · simp [hmem, Ne.symm hd]
      · rw [takeWhile_cons_of_pos (by simpa using hd), htake]

theorem find_component {rest : List UInt8} (h : m.Holds (slash :: volume ++ rest))
    (hvol : slash ∉ volume) (hrest : rest = [] ∨ ∃ t, rest = slash :: t) :
    ((List.range' 1 m.len).find? fun i => i == m.len || m.char i == slash)
      = some (volume.length + 1) := by
  have hlen : m.len = volume.length + 1 + rest.length := by
    rw [h.len]
    simp only [length_append, length_cons]
  have hchar : ∀ i, i ≤ volume.length + rest.length →
      m.char (i + 1) = (volume ++ rest).getD i 0 := by
    intro i hi
    rw [h.char (by simp; omega), cons_append, getD_cons_succ]
  rw [find?_range'_eq_some]
  refine ⟨?_, ?_, ?_⟩
  · rcases hrest with rfl | ⟨t, rfl⟩
    · simp [hlen]
    · rw [hchar _ (by omega)]
      simp
  · rw [mem_range'_1]
    omega
  · intro j hj hlt
    obtain ⟨j, rfl⟩ : ∃ d, j = d + 1 := ⟨j - 1, by omega⟩
    have hj' : j < volume.length := by omega
    have hne : volume[j] ≠ slash := fun heq => hvol (heq ▸ getElem_mem hj')
    rw [hchar j (by omega), getD_eq_getElem?_getD, getElem?_append_left hj',
      getElem?_eq_getElem hj']
    simp only [Bool.not_eq_true', Bool.or_eq_false_iff, beq_eq_false_iff_ne]
    exact ⟨by omega, hne⟩

theorem componentToVolume_renames {rest : List UInt8} (h : m.Holds (slash :: volume ++ rest))
    (hvol : slash ∉ volume) (hrest : rest = [] ∨ ∃ t, rest = slash :: t) :
    m.Renames (volume ++ colon :: rest.drop 1) m.componentToVolume := by
  have hlength : (slash :: volume ++ rest).length = volume.length + 1 + rest.length := by
    simp only [length_append, length_cons]
  have hshort := h.short
  have hsize : substituteSize = 1024 := rfl
  -- the first component moves to the front of the buffer, and the colon is put behind it
  obtain ⟨b, hb, hr⟩ := h.rewriting.memmove (k := 1) (n := volume.length) (x := volume)
    length_nil (by omega) (by omega) (by omega) (by simp [window])
  obtain ⟨b', hb', hr'⟩ := hr.write [colon] (k := volume.length + 1) (by omega) (by omega) (by simp)
  have hsub : sizeSub (volume.length + 1) 1 = volume.length := sizeSub_of_le (by omega) (by omega)
  rw [nil_append] at hb' hr'
  rw [componentToVolume, find_component h hvol hrest]
  simp only [Option.elim_some, hsub]
  rw [hb, ok_bind, hb', ok_bind]
  rcases hrest with rfl | ⟨t, rfl⟩
  · have hlen : (volume ++ [colon]).length = m.len := by
      rw [h.len, hlength, length_append, length_singleton, length_nil]
    have hnot : ¬ volume.length + 1 < m.len := by
      rw [← hlen, length_append]
      exact Nat.lt_irrefl _
    rw [if_neg hnot, if_neg (Nat.lt_irrefl 0)]
    exact hr'.renames hlen
  · -- what follows the first component is moved behind the colon
    have hlen : m.len = volume.length + 2 + t.length := by
      rw [h.len, hlength, length_cons]
      omega
    have hsub' : sizeSub m.len (volume.length + 2) = t.length := by
      rw [hlen, sizeSub_of_le (by omega) (by rw [length_cons] at hlength; omega),
        Nat.add_sub_cancel_left]
    obtain ⟨b'', hb'', hr''⟩ := hr'.memmove (j := volume.length + 1) (k := volume.length + 2)
      (n := t.length) (x := t) (by simp) (by omega) (by rw [hlength, length_cons]; omega)
      (by omega) (by simp [window])
    have hlen' : (volume ++ [colon] ++ t).length = sizeSub m.len 1 := by
      rw [sizeSub_of_le (by omega) (by rw [length_cons] at hlength; omega)]
      simp only [length_append, length_singleton]
      omega
    rw [if_pos (show volume.length + 1 < m.len by omega), if_pos (Nat.succ_pos _), hsub', hb'',
      ok_bind, append_cons]
    exact hr''.renames hlen'

/-- `/tmp`, alone or with something behind it. -/
theorem toVolume_tmp (h : m.Holds s) (hstart : Clib4.startsWith s slashTmp = true) :
    m.Renames (tColon ++ s.drop 5) m.toVolume := by
  rw [toVolume, h.startsWith (by decide), if_pos hstart]
  simp only [Clib4.startsWith, Bool.and_eq_true, decide_eq_true_eq] at hstart
  obtain ⟨⟨t, rfl⟩, hnext⟩ := hstart
  rcases t with - | ⟨c, t⟩
  · -- `/tmp` itself
    have hchar : m.char 4 ≠ slash := by
      rw [h.char (by simp [slashTmp])]
      decide
    rw [if_neg hchar]
    exact m.strcpy_finish_renames tColon (by decide)
  · obtain rfl : c = slash := by simpa [slashTmp] using hnext
    have hlength : (slashTmp ++ slash :: t).length = t.length + 5 := rfl
    have hshort := h.short
    have htcolon : tColon.length = 2 := rfl
    have hchar : m.char 4 = slash := by
      rw [h.char (by omega)]
      rfl
    have hdrop : (slashTmp ++ slash :: t).drop 5 = t := rfl
    have hlen : sizeSub m.len 5 = t.length := by
      rw [h.len, h.sizeSub (by omega), hlength, Nat.add_sub_cancel]
    have hlen' : sizeSub m.len 3 = (tColon ++ t).length := by
      rw [h.len, h.sizeSub (by omega), hlength, length_append]
      omega
    obtain ⟨b, b', hb, hb', hcells⟩ := h.memmove_front tColon (k := 5) (n := t.length)
      (by omega) (by omega)
    rw [hdrop] at hcells ⊢
    have hfinish := finish_renames (m := { m with substitute := b' }) hcells
      (by rw [length_append]; omega)
    rw [← hlen'] at hfinish
    have hmove : m.memmove 2 5 t.length = _ := hb
    rw [if_pos hchar, hlen, hmove, ok_bind, hb', ok_bind]
    exact hfinish

theorem strcpy_volume (m : NameState) {text : List UInt8} (hshort : text.length < substituteSize)
    (hn : text.length = n) : m.Renames text (m.strcpy text >>= fun m => m.finish n) := by
  subst hn
  exact m.strcpy_finish_renames _ hshort

theorem toVolume_renames (h : m.Holds s) (habs : s.head? = some slash) :
    m.Renames (Clib4.volumeName s) m.toVolume := by
  rw [Clib4.volumeName]
  by_cases htmp : Clib4.startsWith s slashTmp = true
  · rw [if_pos htmp]
    exact toVolume_tmp h htmp
  rw [if_neg htmp, toVolume, h.startsWith (by decide), if_neg htmp, h.startsWith (by decide),
    h.startsWith (by decide), h.startsWith (by decide)]
  split
  · exact m.strcpy_volume (by decide) rfl
  split
  · exact m.strcpy_volume (by decide) rfl
  obtain ⟨rest, rfl⟩ := head?_eq_some_iff.1 habs
  obtain ⟨volume, tail, rfl, hvol, htake, htail⟩ := exists_split slash rest
  have hrenames := componentToVolume_renames h hvol htail
  simp only [drop_one, tail_cons, htake]
  have hdrop : (volume ++ tail).drop (volume.length + 1) = tail.drop 1 := by
    rw [← drop_drop, drop_left]
  rw [hdrop]
  exact hrenames

/-- The rewrite of an absolute name, and what it says about the root directory. -/
theorem absoluteName_spec (h : m.Holds s) :
    ∃ m', m.absoluteName = .ok m' ∧
      m'.Holds (if s.head? = some slash then Clib4.volumeName s else s) ∧
      m'.volumeName = m.volumeName ∧ m'.volumeNameLen = m.volumeNameLen ∧
      m'.isRoot = (m.isRoot || decide (s = [slash])) ∧ (m' = m ∨ m'.name = replace) := by
  rw [absoluteName, h.char (Nat.zero_le _)]
  cases s with
  | nil =>
    rw [if_neg (by decide)]
    exact ⟨m, rfl, h, rfl, rfl, by simp, .inl rfl⟩
  | cons c s =>
    by_cases hc : c = slash
    · subst hc
      have h' : ({ m with isRoot := m.isRoot || m.len == 1 } : NameState).Holds (slash :: s) :=
        ⟨h.text, h.len, h.short⟩
      obtain ⟨b, hb, hholds⟩ := toVolume_renames h' rfl
      have hroot : (m.len == 1) = decide (slash :: s = [slash]) := by
        rw [h.len]
        cases s <;> simp
      rw [getD_cons_zero, if_pos rfl, head?_cons, if_pos rfl, hb, ← hroot]
      exact ⟨_, rfl, hholds, rfl, rfl, rfl, .inr rfl⟩
    · have hne : ¬ c :: s = [slash] := fun heq => hc (List.cons.inj heq).1
      rw [getD_cons_zero, if_neg hc, head?_cons,
        if_neg fun heq => hc (Option.some.inj heq)]
      exact ⟨m, rfl, h, rfl, rfl, by simp [hne], .inl rfl⟩

theorem Holds.any_char (h : m.Holds s) (c : UInt8) {u t : List UInt8} (hs : s = u ++ t) :
    (List.range u.length).any (m.char · == c) = decide (c ∈ u) := by
  have hchar : ∀ i, (hi : i < u.length) → m.char i = u[i] := by
    intro i hi
    rw [h.char (by rw [hs, length_append]; omega), hs, getD_eq_getElem?_getD,
      getElem?_append_left hi, getElem?_eq_getElem hi, Option.getD_some]
  rw [Bool.eq_iff_iff, any_eq_true, decide_eq_true_eq, mem_iff_getElem]
  constructor
  · rintro ⟨i, hi, heq⟩
    have hi := mem_range.1 hi
    rw [hchar i hi, beq_iff_eq] at heq
    exact ⟨i, hi, heq⟩
  · rintro ⟨i, hi, heq⟩
    refine ⟨i, mem_range.2 hi, ?_⟩
    rw [hchar i hi, heq, beq_self_eq_true]

/-- The volume that a name begins with. -/
def volumePart (s : List UInt8) : List UInt8 :=
  if colon ∈ s then s.takeWhile (· ≠ colon) ++ [colon] else []

theorem prefix_volumePart (s : List UInt8) : volumePart s <+: s := by
  rw [volumePart]
  split
  case isTrue hmem =>
    obtain ⟨front, back, rfl, hfront, htake, hback⟩ := exists_split colon s
    rcases hback with rfl | ⟨t, rfl⟩
    · simp [hfront] at hmem
    · rw [htake]
      exact ⟨t, by simp⟩
  case isFalse => exact nil_prefix

/-- What the stage that extracts the volume leaves of the name `s`. -/
structure Extracted (m m' : NameState) (s : List UInt8) : Prop where
  holds : m'.Holds (s.drop (volumePart s).length)
  volume : volumePart s <+: m'.volumeName.cells
  volumeNameLen : m'.volumeNameLen = (volumePart s).length
  isRoot : m'.isRoot = m.isRoot
  name : volumePart s = [] → m'.name = m.name

theorem extractVolume_spec (h : m.Holds s) :
    (slash ∈ volumePart s ∧ m.extractVolume = .error (.failed .EINVAL)) ∨
      (slash ∉ volumePart s ∧ ∃ m', m.extractVolume = .ok m' ∧ m.Extracted m' s) := by
  obtain ⟨front, back, rfl, hfront, htake, hback⟩ := exists_split colon s
  rcases hback with rfl | ⟨t, rfl⟩
  · -- no volume
    rw [append_nil] at h htake ⊢
    have hpart : volumePart front = [] := if_neg hfront
    have hnone : (List.range m.len).find? (m.char · == colon) = none := by
      rw [find?_eq_none]
      intro i hi heq
      have hany := h.any_char colon (u := front) (t := []) (append_nil _).symm
      rw [decide_eq_false hfront, ← h.len, any_eq_false] at hany
      exact hany i hi heq
    refine .inr ⟨by simp [hpart], _, by rw [extractVolume, hnone], ?_⟩
    refine ⟨?_, ?_, ?_, rfl, fun _ => rfl⟩
    · rw [hpart]
      exact ⟨h.text, h.len, h.short⟩
    · rw [hpart]
      exact nil_prefix
    · rw [hpart]
      rfl
  · have hmem : colon ∈ front ++ colon :: t := by simp
    have hpart : volumePart (front ++ colon :: t) = front ++ [colon] := by
      rw [volumePart, if_pos hmem, htake]
    have hshort := h.short
    have hlen : (front ++ colon :: t).length = front.length + 1 + t.length := by
      simp only [length_append, length_cons]
      omega
    have hfind : (List.range m.len).find? (m.char · == colon) = some front.length := by
      rw [find?_range_eq_some]
      refine ⟨?_, ?_, ?_⟩
      · rw [h.char (by omega)]
        simp
      · rw [mem_range, h.len]
        omega
      · intro j hj
        have hany := h.any_char colon rfl
        rw [decide_eq_false hfront, any_eq_false] at hany
        rw [Bool.not_eq_true']
        exact Bool.eq_false_iff.2 (hany j (mem_range.2 hj))
    have hany := h.any_char slash (u := front) rfl
    rw [hpart, extractVolume, hfind]
    dsimp only
    rw [hany]
    by_cases hslash : slash ∈ front
    · exact .inl ⟨by simp [hslash], by rw [if_pos (decide_eq_true hslash)]⟩
    · have hread : m.read 0 (front.length + 1) = .ok (front ++ [colon]) := by
        rw [h.read (by omega), append_cons]
        exact congrArg _ (take_left' (by simp))
      obtain ⟨b, hb, hcells⟩ := m.volumeName.exists_write
        (show 0 + (front ++ [colon]).length ≤ substituteSize by
          rw [length_append, length_singleton]; omega)
      have hcol : slash ≠ colon := by decide
      refine .inr ⟨by simp [hslash, hcol], ?_⟩
      rw [if_neg (by simpa using hslash), hread, ok_bind, hb]
      refine ⟨_, rfl, ?_, ?_, ?_, rfl, ?_⟩
      · have hdrop : (front ++ colon :: t).drop (volumePart (front ++ colon :: t)).length = t := by
          rw [hpart, append_cons front colon t, drop_left]
        rw [append_cons] at h
        have hadvance := h.advance
        rw [length_append] at hadvance
        rw [hdrop]
        exact ⟨hadvance.text, hadvance.len, hadvance.short⟩
      · rw [hpart]
        exact Buffer.begins_of_write hcells
      · rw [hpart, length_append, length_singleton]
      · rw [hpart]
        simp

theorem checkColons_eq (h : m.Holds s) :
    m.checkColons = if colon ∈ s then .error (.failed .EINVAL) else .ok m := by
  rw [checkColons, h.len, h.any_char colon (append_nil s).symm]
  simp only [decide_eq_true_eq]

/-! ### Double dots -/

theorem dotDotsLoop_leaves (h : m.Rewriting s i out) (hn : s.length ≤ i + n) :
    m.Leaves s (out ++ Clib4.dotDotsLoop (s.drop i)) (dotDotsLoop n m i out.length) := by
  have hbound := h.bound
  induction n generalizing m i out with
  | zero =>
    obtain rfl : i = s.length := by omega
    rw [drop_length, Clib4.dotDotsLoop, append_nil]
    exact h.leaves
  | succ n ih =>
    rw [dotDotsLoop, h.len]
    rcases hbound.lt_or_eq with hi | rfl
    case inr =>
      rw [if_neg (Nat.lt_irrefl _), drop_length, Clib4.dotDotsLoop, append_nil]
      exact h.leaves
    have hle := h.le
    have hshort : s.length < 1024 := h.short
    have hmatch := h.matchesAt (p := [slash, dot, dot, slash]) (by decide) (Nat.le_refl i)
      hbound
    rw [if_pos hi]
    by_cases hdots : [slash, dot, dot, slash] <+: s.drop i
    · -- two slashes for four characters
      obtain ⟨t, ht⟩ := hdots
      have hlen : (s.drop i).length = 4 + t.length := by
        rw [← ht, length_append]
        rfl
      rw [length_drop] at hlen
      have hchar : s.getD (i + 3) 0 = slash := by
        have hget : (s.drop i).getD 3 0 = slash := by rw [← ht]; rfl
        rwa [getD_eq_getElem?_getD, getElem?_drop] at hget
      have hrest : s.drop (i + 4) = t := by
        rw [← drop_drop, ← ht]
        rfl
      obtain ⟨b, hb, hr⟩ := h.write [slash] (k := i + 1) (by omega) (by omega)
        (by rw [length_singleton]; omega)
      obtain ⟨b', hb', hr'⟩ := hr.write [slash] (k := i + 4) (by omega) (by omega)
        (by rw [length_append, length_singleton]; omega)
      have hchar' := hr.char (k := i + 3) (by omega) (by omega)
      rw [length_append, length_singleton] at hb'
      have hloop := ih hr' (by omega) (by omega)
      have hfour : i < sizeSub s.length 3 := by
        rw [sizeSub_of_le (by omega) (by omega)]
        omega
      rw [if_pos ⟨hfour, hmatch.2 ⟨t, ht⟩⟩, hb, ok_bind, hchar', hchar, hb', ← ht]
      rw [hrest, length_append, length_append, append_assoc, append_assoc]
        at hloop
      exact hloop
    · rw [if_neg fun hboth => hdots (hmatch.1 hboth.2), h.char (Nat.le_refl i) hbound,
        getD_eq_getElem _ _ hi]
      rw [drop_eq_getElem_cons hi] at hdots ⊢
      rw [Clib4.dotDotsLoop_cons hdots]
      obtain ⟨b, hb, hr⟩ := h.write [s[i]] (k := i + 1) (by omega) hi
        (by rw [length_singleton]; omega)
      have hloop := ih hr (by omega) hi
      rw [length_append, append_assoc] at hloop
      rw [hb]
      exact hloop

theorem replaceEmbeddedDotDots_rewrites :
    Rewrites replaceEmbeddedDotDots Clib4.replaceEmbeddedDotDots :=
  rewrites_of_leaves (by decide) (by decide) (by decide) fun m s h => by
    rw [h.len]
    exact dotDotsLoop_leaves h.rewriting (by omega)

theorem replaceTrailingDotDot_rewrites :
    Rewrites replaceTrailingDotDot Clib4.replaceTrailingDotDot := by
  intro m s h
  have hend := h.matchesAt_end (p := slash :: dotDot) (k := 3) (by decide) rfl
  simp only [replaceTrailingDotDot, Clib4.replaceTrailingDotDot, hend]
  split
  case isTrue hdots =>
    have hle : 3 ≤ s.length := hdots.length_le
    have hshort := h.short
    rw [h.len, h.sizeSub (by omega)]
    obtain ⟨b, hb, htake⟩ := exists_toReplace h (Nat.sub_le s.length 2)
    have hlen : (s.take (s.length - 2)).length = s.length - 2 := by
      rw [length_take]
      omega
    -- the slash is written behind the part of the name that stays
    obtain ⟨b', hb', hcells⟩ :=
      ({ m with substitute := b, name := replace } : NameState).exists_write
        (show (s.take (s.length - 2)).length + [slash].length ≤ substituteSize by
          rw [length_singleton]; omega)
    have hpre := Buffer.append_prefix_of_write htake hcells
    have hfinish := finish_renames (m := { m with substitute := b', name := replace }) hpre
      (by rw [length_append, length_singleton]; omega)
    rw [hlen] at hb'
    rw [length_append, hlen] at hfinish
    rw [hb, ok_bind, hb']
    exact Renames.becomes (m := m) hfinish
  case isFalse => exact h.becomes

theorem Holds.matchesAt_start (h : m.Holds s) (hp : 0 ∉ p) (hk : p.length = k) :
    (k ≤ m.len ∧ m.matchesAt p 0 = true) ↔ p <+: s := by
  rw [h.len, h.matchesAt hp (Nat.zero_le _)]
  exact ⟨fun hboth => hboth.2, fun hpre => ⟨hk ▸ hpre.length_le, hpre⟩⟩

theorem replaceLeadingDotDot_rewrites :
    Rewrites replaceLeadingDotDot Clib4.replaceLeadingDotDot := by
  intro m s h
  have hstart := h.matchesAt_start (p := dotDot ++ [slash]) (k := 3) (by decide) rfl
  simp only [replaceLeadingDotDot, Clib4.replaceLeadingDotDot, hstart]
  split
  case isTrue hdots =>
    have hle : 3 ≤ s.length := hdots.length_le
    have hlen : (s.drop 2).length = s.length - 2 := length_drop
    rw [h.len, h.sizeSub (by omega)]
    obtain ⟨b, hb, hr⟩ := h.rewriting.memmove (k := 2) (n := s.length - 2) (x := s.drop 2)
      length_nil (Nat.zero_le _) (by omega) (Nat.zero_le _) (take_of_length_le hlen.le)
    rw [hb]
    exact Renames.becomes (m := m) (hr.renames hlen)
  case isFalse => exact h.becomes

theorem replaceDotDot_rewrites :
    Rewrites replaceDotDot (fun s => if s = dotDot then [slash] else s) := by
  intro m s h
  have hiff : (m.len = 2 ∧ m.matchesAt dotDot 0 = true) ↔ s = dotDot := by
    rw [h.len, h.matchesAt (by decide) (Nat.zero_le _)]
    constructor
    · rintro ⟨hlen, hpre⟩
      exact (hpre.eq_of_length hlen.symm).symm
    · rintro rfl
      exact ⟨rfl, prefix_refl _⟩
  simp only [replaceDotDot, hiff]
  split
  · exact (m.strcpy_renames (by decide)).becomes
  · exact h.becomes

theorem replaceDot_rewrites : Rewrites replaceDot (fun s => if s = [dot] then [] else s) := by
  intro m s h
  have hiff : (m.len = 1 ∧ m.char 0 = dot) ↔ s = [dot] := by
    rw [h.len, h.char (Nat.zero_le _)]
    match s with
    | [] => simp
    | [c] => simp
    | c :: d :: s => simp
  simp only [replaceDot, hiff]
  split
  · exact (m.strcpy_renames (by decide)).becomes
  · exact h.becomes

/-! ### The end of the function -/

theorem rejoin_spec (h : m.Holds s) (hlen : m.volumeNameLen = volume.length)
    (hcells : volume <+: m.volumeName.cells) (hshort : volume.length + s.length < substituteSize) :
    m.Becomes (volume ++ s) m.rejoin := by
  rw [rejoin]
  rcases volume with - | ⟨c, volume⟩
  · rw [if_neg (by rw [hlen]; simp)]
    exact h.becomes
  · obtain ⟨b, b', hb, hb', hpre⟩ := h.memmove_front (c :: volume) (k := 0)
      (Nat.zero_add s.length) hshort
    have htake : m.volumeName.cells.take (c :: volume).length = c :: volume := by
      obtain ⟨rest, hrest⟩ := hcells
      rw [← hrest, take_left]
    have hfinish := finish_renames (m := { m with substitute := b' }) hpre
      (by rw [length_append]; exact hshort)
    rw [drop_zero, length_append, Nat.add_comm, ← hlen, ← h.len] at hfinish
    rw [← hlen, ← h.len] at hb
    rw [← hlen] at htake
    rw [if_pos (by rw [hlen]; simp), hb, ok_bind]
    rw [htake, hb']
    exact Renames.becomes (m := m) hfinish

/-- Reducing double slashes; a name with double slashes stands at the front of the buffer. -/
theorem reduceName_spec (h : m.Holds s) (hname : [slash, slash] <:+: s → m.name = replace) :
    m.Becomes (Clib4.reduceName s) m.reduceName := by
  rw [reduceName, Clib4.reduceName, h.len]
  by_cases hlong : 1 < s.length
  case neg =>
    rw [if_neg fun hboth => hlong hboth.1, if_neg fun hboth => hlong hboth.1]
    exact h.becomes
  simp only [h.occurs (p := [slash, slash]) (by decide) hlong (by simp), hlong, true_and]
  split
  case isFalse => exact h.becomes
  case isTrue hdouble =>
    have hreplace := hname hdouble
    have hstands : Stands m.substitute s := by
      have htext := h.text
      rwa [ahead, hreplace] at htext
    have hloop : ∃ b, (Loop.run stripIn (s.length * s.length + s.length + 1)
          (m.substitute, s.length, s.length)).getD (some (m.substitute, s.length))
          = some (b, (stripDoubleSlash s).length) ∧ Stands b (stripDoubleSlash s) := by
      have hin : InMemory (m.substitute, s.length, s.length) (s, s.length) :=
        ⟨hstands, rfl, rfl, Nat.le_refl _⟩
      rcases Loop.run_rel _ _ (fun _ _ h => stripIn_rel h) _ hin with
        ⟨hrun, hrun'⟩ | ⟨r, name, hrun, hrun', b, rfl, hb⟩
      · rw [stripDoubleSlash, hrun', hrun]
        exact ⟨_, rfl, hstands⟩
      · rw [stripDoubleSlash, hrun', hrun]
        exact ⟨b, rfl, hb⟩
    obtain ⟨b, hb, hstands'⟩ := hloop
    have htoReplace : m.toReplace s.length = .ok m := by rw [toReplace, if_pos hreplace]
    have hlen : (stripDoubleSlash s).length + 1 ≤ substituteSize := by
      have := hstands'.length_le
      rwa [length_append, b.length_cells] at this
    rw [htoReplace, ok_bind, h.len, hb]
    refine ⟨_, rfl, ⟨?_, rfl, hlen⟩, ⟨rfl, rfl, rfl⟩, .inr hreplace⟩
    rw [hreplace]
    exact hstands'

theorem markRoot_spec (h : m.Holds s) :
    m.markRoot = .ok { m with isRoot := m.isRoot || decide ([colon, slash] <:+ s) } := by
  have hend := h.matchesAt_end (p := [colon, slash]) (k := 2) (by decide) rfl
  simp only [markRoot, hend]
  split
  case isTrue hroot => rw [decide_eq_true hroot, Bool.or_true]
  case isFalse hroot => rw [decide_eq_false hroot, Bool.or_false]

end NameState

end Clib4
