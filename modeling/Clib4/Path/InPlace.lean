import Clib4.Path.NameState

/-!
# Rewriting a name in place

A rewrite of `__translate_unix_to_amiga_path_name` reads the name from the left to the right and
writes the new one to the front of the buffer.  The name may stand in that buffer already, and
then the two overlap; but no rewrite writes more than it has read, so that what is written never
covers what is still to be read.

## Main definitions

* `NameState.Holds` — the name is a given list of characters, with the terminator behind it.

## Main results

* `NameState.Rewriting.write` — **a write covers nothing that is still to be read.**
-/

namespace Clib4

open Splice List

namespace NameState

variable {m : NameState} {s out xs p : List UInt8} {i k n : ℕ}

@[simp] theorem ok_bind {α β : Type} (a : α) (f : α → Except Halt β) :
    (Except.ok a >>= f) = f a := rfl

/-- The name is `s`, with its terminator behind it. -/
structure Holds (m : NameState) (s : List UInt8) : Prop where
  text : s ++ [0] <+: m.ahead
  len : m.len = s.length
  short : s.length < substituteSize

theorem prefix_append_terminator_iff {u t : List UInt8} (h : 0 ∉ p) :
    p <+: u ++ 0 :: t ↔ p <+: u := by
  refine ⟨fun hp => ?_, fun hp => hp.trans (prefix_append _ _)⟩
  rcases prefix_or_prefix_of_prefix hp (prefix_append u (0 :: t)) with hle | ⟨rest, rfl⟩
  · exact hle
  · cases rest with
    | nil => simp
    | cons c rest =>
      rw [prefix_append_right_inj, cons_prefix_cons] at hp
      simp [hp.1] at h

/-! ### Rewriting from the left to the right -/

/-- What stands behind a write is left alone, wherever the name points. -/
theorem drop_ahead_of_write {b : Buffer UInt8 substituteSize}
    (hsize : i + xs.length ≤ substituteSize) (hk : i + xs.length ≤ k)
    (hcells : b.cells = writeAt m.substitute.cells i xs) :
    ({ m with substitute := b } : NameState).ahead.drop k = m.ahead.drop k := by
  cases hname : m.name with
  | source offset => simp only [ahead, hname]
  | substitute offset =>
    simp only [ahead, hname, drop_drop]
    exact Buffer.drop_of_write hsize (by omega) hcells

theorem exists_write (m : NameState) (hsize : i + xs.length ≤ substituteSize) :
    ∃ b, m.write i xs = .ok { m with substitute := b } ∧
      b.cells = writeAt m.substitute.cells i xs := by
  obtain ⟨b, hb, hcells⟩ := m.substitute.exists_write hsize
  exact ⟨b, by rw [write, hb], hcells⟩

/-- The name `s` is being rewritten in place: `i` characters have been read, and the buffer begins
with `out`, which has been made of them. -/
structure Rewriting (m : NameState) (s : List UInt8) (i : ℕ) (out : List UInt8) : Prop where
  written : out <+: m.substitute.cells
  unread : s.drop i ++ [0] <+: m.ahead.drop i
  le : out.length ≤ i
  bound : i ≤ s.length
  len : m.len = s.length
  short : s.length < substituteSize

theorem Holds.rewriting (h : m.Holds s) : m.Rewriting s 0 [] :=
  ⟨List.nil_prefix, by simpa using h.text, Nat.le_refl _, Nat.zero_le _, h.len, h.short⟩

namespace Rewriting

section

variable (h : m.Rewriting s i out)

include h

theorem skip (hik : i ≤ k) (hk : k ≤ s.length) :
    m.Rewriting s k out := by
  obtain ⟨d, rfl⟩ := Nat.exists_eq_add_of_le hik
  refine ⟨h.written, ?_, h.le.trans hik, hk, h.len, h.short⟩
  have hdrop := h.unread.drop d
  rw [drop_append_of_le_length (by rw [length_drop]; omega), drop_drop,
    drop_drop] at hdrop
  exact hdrop

/-- **Characters are written behind what has been written, and not over what is still to be
read.** -/
theorem write (xs : List UInt8) (hik : i ≤ k) (hk : k ≤ s.length)
    (hxs : out.length + xs.length ≤ k) :
    ∃ b, m.write out.length xs = .ok { m with substitute := b } ∧
      ({ m with substitute := b } : NameState).Rewriting s k (out ++ xs) := by
  have hshort := h.short
  have hsize : out.length + xs.length ≤ substituteSize := by omega
  obtain ⟨b, hb, hcells⟩ := m.exists_write hsize
  refine ⟨b, hb, Buffer.append_prefix_of_write h.written hcells, ?_, ?_, hk, h.len, h.short⟩
  · rw [drop_ahead_of_write hsize hxs hcells]
    exact (h.skip hik hk).unread
  · rw [length_append]
    exact hxs

theorem char (hik : i ≤ k) (hk : k ≤ s.length) :
    m.char k = s.getD k 0 := by
  obtain ⟨t, ht⟩ := (h.skip hik hk).unread
  have hchar : m.char k = (m.ahead.drop k).getD 0 0 := by
    simp only [NameState.char, getD_eq_getElem?_getD, getElem?_drop, Nat.add_zero]
  rw [hchar, ← ht]
  rcases hk.lt_or_eq with hlt | rfl
  · simp [hlt]
  · simp

theorem matchesAt (hpattern : 0 ∉ p) (hik : i ≤ k)
    (hk : k ≤ s.length) : m.matchesAt p k = true ↔ p <+: s.drop k := by
  obtain ⟨t, ht⟩ := (h.skip hik hk).unread
  rw [NameState.matchesAt, isPrefixOf_iff_prefix, ← ht, append_assoc,
    singleton_append, prefix_append_terminator_iff hpattern]

theorem read (hik : i ≤ k) (hn : k + n ≤ s.length) :
    m.read k n = .ok (window s k n) := by
  obtain ⟨t, ht⟩ := (h.skip hik (by omega)).unread
  have hlen : s.length - k + 1 ≤ m.ahead.length - k := by
    rw [← length_drop, ← length_drop, ← ht, length_append, length_append,
      length_singleton]
    omega
  have hwindow : window m.ahead k n = window s k n := by
    rw [window, ← ht, append_assoc,
      take_append_of_le_length (by rw [length_drop]; omega)]
    rfl
  rw [NameState.read, if_pos (by omega), hwindow]

/-- Characters that are still to be read are moved behind what has been written. -/
theorem memmove {j : ℕ} {x : List UInt8} (hj : out.length = j) (hik : i ≤ k)
    (hn : k + n ≤ s.length) (hjk : j ≤ k) (hx : window s k n = x) :
    ∃ b, m.memmove j k n = .ok { m with substitute := b } ∧
      ({ m with substitute := b } : NameState).Rewriting s (k + n) (out ++ x) := by
  subst hj hx
  rw [NameState.memmove, h.read hik hn]
  exact h.write _ (by omega) hn (by rw [length_window]; omega)

end

end Rewriting

/-! ### What the name reads as -/

namespace Holds

section

variable (h : m.Holds s)

include h

theorem sizeSub (hk : k ≤ s.length) : sizeSub s.length k = s.length - k := by
  have hshort : s.length < 1024 := h.short
  exact sizeSub_of_le hk (by omega)

theorem char (hi : i ≤ s.length) : m.char i = s.getD i 0 :=
  h.rewriting.char (Nat.zero_le i) hi

theorem matchesAt (hpattern : 0 ∉ p) (hi : i ≤ s.length) :
    m.matchesAt p i = true ↔ p <+: s.drop i :=
  h.rewriting.matchesAt hpattern (Nat.zero_le i) hi

theorem read (hn : k + n ≤ s.length) : m.read k n = .ok (window s k n) :=
  h.rewriting.read (Nat.zero_le k) hn

theorem occurs (hpattern : 0 ∉ p) (hlen : p.length ≤ s.length) (hne : p ≠ []) :
    m.occurs p = true ↔ p <:+: s := by
  have hpos := length_pos_of_ne_nil hne
  rw [NameState.occurs, h.len, h.sizeSub (by omega), any_eq_true]
  constructor
  · rintro ⟨i, hi, hmatch⟩
    rw [mem_range] at hi
    rw [h.matchesAt hpattern (by omega)] at hmatch
    exact hmatch.isInfix.trans (drop_suffix i s).isInfix
  · rintro ⟨front, rest, rfl⟩
    refine ⟨front.length, ?_, ?_⟩
    · simp only [length_append, mem_range]
      omega
    · rw [h.matchesAt hpattern (by simp only [length_append]; omega), append_assoc,
        drop_left]
      exact prefix_append _ _

theorem length_text_le : m.text.length ≤ s.length := by
  obtain ⟨t, ht⟩ := h.text
  rw [NameState.text, ← ht, append_assoc, takeWhile_append]
  split
  · simp
  · exact (List.takeWhile_prefix _).length_le

theorem matchesAt_end (hpattern : 0 ∉ p) (hk : p.length = k) :
    (k ≤ m.len ∧ m.matchesAt p (Clib4.sizeSub m.len k) = true) ↔ p <:+ s := by
  subst hk
  rw [h.len]
  constructor
  · rintro ⟨hle, hmatch⟩
    rw [h.sizeSub hle, h.matchesAt hpattern (by omega)] at hmatch
    have heq := hmatch.eq_of_length (by rw [length_drop]; omega)
    rw [heq]
    exact drop_suffix _ s
  · intro hsuf
    have hle := hsuf.length_le
    refine ⟨hle, ?_⟩
    rw [h.sizeSub hle, h.matchesAt hpattern (by omega)]
    obtain ⟨front, rfl⟩ := hsuf
    rw [length_append, Nat.add_sub_cancel, drop_left]

end

end Holds

/-! ### A new name at the front of the buffer -/

/-- The state with `out` for the name, at the front of the buffer. -/
def renamed (m : NameState) (b : Buffer UInt8 substituteSize) (out : List UInt8) : NameState :=
  { m with substitute := b, name := replace, len := out.length }

/-- Part of the function makes `out` the name, and changes nothing else. -/
def Renames (m : NameState) (out : List UInt8) (result : Except Halt NameState) : Prop :=
  ∃ b, result = .ok (m.renamed b out) ∧ (m.renamed b out).Holds out

theorem finish_renames (hout : out <+: m.substitute.cells) (hshort : out.length < substituteSize) :
    m.Renames out (m.finish out.length) := by
  obtain ⟨b, hb, hcells⟩ := ({ m with name := replace, len := out.length } : NameState).exists_write
    (show out.length + [(0 : UInt8)].length ≤ substituteSize from hshort)
  exact ⟨b, hb, Buffer.append_prefix_of_write hout hcells, rfl, hshort⟩

theorem Rewriting.renames (h : m.Rewriting s i out) (hn : out.length = n) :
    m.Renames out (m.finish n) := by
  subst hn
  exact finish_renames h.written (Nat.lt_of_le_of_lt (h.le.trans h.bound) h.short)

theorem strcpy_renames (m : NameState) {text : List UInt8} (hshort : text.length < substituteSize) :
    m.Renames text (m.strcpy text) := by
  obtain ⟨b, hb, hcells⟩ := m.exists_write
    (show 0 + (text ++ [0]).length ≤ substituteSize by simp; omega)
  refine ⟨b, by rw [strcpy, hb]; rfl, ?_, rfl, hshort⟩
  exact Buffer.begins_of_write hcells

theorem strcpy_finish_renames (m : NameState) (text : List UInt8)
    (hshort : text.length < substituteSize) :
    m.Renames text (m.strcpy text >>= fun m => m.finish text.length) := by
  obtain ⟨b, hb, hholds⟩ := m.strcpy_renames hshort
  have hcells : text <+: b.cells := (prefix_append text [0]).trans hholds.text
  rw [hb]
  exact finish_renames (m := m.renamed b text) hcells hshort

/-- A prefix of the name is moved to the buffer, if the name is not there yet. -/
theorem exists_toReplace (h : m.Holds s) (hn : n ≤ s.length) :
    ∃ b, m.toReplace n = .ok { m with substitute := b, name := replace } ∧
      s.take n <+: b.cells := by
  by_cases hname : m.name = replace
  · refine ⟨m.substitute, ?_, ?_⟩
    · rw [toReplace, if_pos hname, ← hname]
    · have hahead : m.ahead = m.substitute.cells := by
        simp only [ahead, hname, replace, drop_zero]
      rw [← hahead]
      exact ((List.take_prefix n s).trans (prefix_append s [0])).trans h.text
  · have hshort := h.short
    have hlen : (window s 0 n).length = n := by rw [length_window]; omega
    obtain ⟨b, hb, hcells⟩ := m.exists_write
      (show 0 + (window s 0 n).length ≤ substituteSize by omega)
    refine ⟨b, ?_, ?_⟩
    · rw [toReplace, if_neg hname, memmove, h.read (by omega)]
      rw [ok_bind, hb]
      rfl
    · exact Buffer.begins_of_write hcells

theorem take_renames (h : m.Holds s) (hn : n ≤ s.length) :
    m.Renames (s.take n) (m.toReplace n >>= fun m => m.finish n) := by
  obtain ⟨b, hb, htake⟩ := exists_toReplace h hn
  have hlen : (s.take n).length = n := by rw [length_take]; omega
  have hfinish := finish_renames (m := { m with substitute := b, name := replace }) htake
    (by have := h.short; omega)
  rw [hlen] at hfinish
  rw [hb]
  exact hfinish

/-- The characters from `name[k]` on are moved, and a text is written in front of them. -/
theorem Holds.memmove_front (h : m.Holds s) (text : List UInt8) (hn : k + n = s.length)
    (hle : text.length + n < substituteSize) :
    ∃ b b', m.memmove text.length k n = .ok { m with substitute := b } ∧
      ({ m with substitute := b } : NameState).write 0 text = .ok { m with substitute := b' } ∧
      text ++ s.drop k <+: b'.cells := by
  have hwindow : window s k n = s.drop k := by
    rw [window, take_of_length_le]
    rw [length_drop]
    omega
  have hlen : (s.drop k).length = n := by rw [length_drop]; omega
  obtain ⟨b, hb, hcells⟩ := m.exists_write
    (show text.length + (s.drop k).length ≤ substituteSize by omega)
  obtain ⟨b', hb', hcells'⟩ := ({ m with substitute := b } : NameState).exists_write
    (show 0 + text.length ≤ substituteSize by omega)
  refine ⟨b, b', ?_, hb', ?_⟩
  · rw [memmove, h.read (by omega), hwindow]
    exact hb
  · refine Buffer.append_prefix_of_write_front (b := b) ?_ hcells'
    rw [hcells, drop_writeAt_self (by rw [m.substitute.length_cells]; omega)]
    exact prefix_append _ _

/-! ### The pointer -/

@[simp] theorem ahead_add (m : NameState) (k l : ℕ) :
    ({ m with name := m.name.add k, len := l } : NameState).ahead = m.ahead.drop k := by
  cases hname : m.name <;> simp [ahead, hname, NamePointer.add]

/-- The pointer moves on over the first characters of the name. -/
theorem Holds.advance {front rest : List UInt8} (h : m.Holds (front ++ rest)) :
    ({ m with name := m.name.add front.length,
              len := Clib4.sizeSub m.len front.length } : NameState).Holds rest := by
  have hshort := h.short
  refine ⟨?_, ?_, ?_⟩
  · have hdrop := h.text.drop front.length
    rw [append_assoc, drop_left] at hdrop
    rwa [ahead_add]
  · show Clib4.sizeSub m.len front.length = rest.length
    rw [h.len, h.sizeSub (by simp), length_append, Nat.add_sub_cancel_left]
  · rw [length_append] at hshort
    omega

/-! ### Stages that rewrite the name -/

/-- Beside the name nothing has changed. -/
structure Beside (m m' : NameState) : Prop where
  volumeName : m'.volumeName = m.volumeName
  volumeNameLen : m'.volumeNameLen = m.volumeNameLen
  isRoot : m'.isRoot = m.isRoot

/-- A stage makes `s` the name.  Unless it does nothing, it puts `s` to the front of the buffer. -/
def Becomes (m : NameState) (s : List UInt8) (result : Except Halt NameState) : Prop :=
  ∃ m', result = .ok m' ∧ m'.Holds s ∧ m.Beside m' ∧ (m' = m ∨ m'.name = replace)

/-- **The stage does to the name what `rewrite` does to a list of characters**, and never leaves
the buffers. -/
def Rewrites (stage : NameState → Except Halt NameState) (rewrite : List UInt8 → List UInt8) :
    Prop :=
  ∀ ⦃m : NameState⦄ ⦃s : List UInt8⦄, m.Holds s → m.Becomes (rewrite s) (stage m)

theorem Holds.becomes (h : m.Holds s) : m.Becomes s (.ok m) :=
  ⟨m, rfl, h, ⟨rfl, rfl, rfl⟩, .inl rfl⟩

theorem Renames.becomes {result : Except Halt NameState} (h : m.Renames s result) :
    m.Becomes s result := by
  obtain ⟨b, hres, hholds⟩ := h
  exact ⟨_, hres, hholds, ⟨rfl, rfl, rfl⟩, .inr rfl⟩

/-- A loop that rewrites the name `s` in place has come to the end of it, and has left `out`. -/
def Leaves (m : NameState) (s out : List UInt8) (result : Except Halt (NameState × ℕ)) : Prop :=
  ∃ b, result = .ok ({ m with substitute := b }, out.length) ∧
    ({ m with substitute := b } : NameState).Rewriting s s.length out

theorem Rewriting.leaves (h : m.Rewriting s s.length out) :
    m.Leaves s out (.ok (m, out.length)) :=
  ⟨m.substitute, rfl, h⟩

theorem Leaves.renames {result : Except Halt (NameState × ℕ)} (h : m.Leaves s out result) :
    m.Renames out (result >>= fun r => r.1.finish r.2) := by
  obtain ⟨b, rfl, hr⟩ := h
  exact hr.renames rfl

/-- The stages that look for a pattern, and run a loop over the name if they find it. -/
theorem rewrites_of_leaves {loop : NameState → Except Halt (NameState × ℕ)}
    {rewrite : List UInt8 → List UInt8} {bound : ℕ} (hzero : 0 ∉ p) (hne : p ≠ [])
    (hbound : p.length ≤ bound + 1)
    (hloop : ∀ (m : NameState) (s : List UInt8), m.Holds s → m.Leaves s (rewrite s) (loop m)) :
    Rewrites
      (fun m => if bound < m.len ∧ m.occurs p then loop m >>= fun r => r.1.finish r.2
        else .ok m)
      (fun s => if bound < s.length ∧ p <:+: s then rewrite s else s) := by
  intro m s h
  dsimp only
  rw [h.len]
  by_cases hlong : bound < s.length
  · simp only [h.occurs hzero (by omega) hne]
    split
    · exact (hloop m s h).renames.becomes
    · exact h.becomes
  · rw [if_neg fun hboth => hlong hboth.1, if_neg fun hboth => hlong hboth.1]
    exact h.becomes

end NameState

end Clib4
