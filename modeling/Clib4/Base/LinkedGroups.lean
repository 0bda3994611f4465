import Clib4.Base.Linked

/-!
# Groups kept as linked lists

The elements in use are partitioned into groups.  One element of each group is its
*representative*; the others point to it (`rep`), and the list that starts at the
representative (`next`) holds exactly them.  The three ways to change such a structure are to
add an element to a group, to take out an element that is not the representative, and to take
out the representative, whose first follower, if there is one, then represents the rest.

## Main definitions

* `LinkedGroups used rep next` — the shape.

## Main results

* `LinkedGroups.adjoin`, `LinkedGroups.insert`, `LinkedGroups.remove`, `LinkedGroups.promote`,
  `LinkedGroups.discard` — **the changes keep the shape.**
-/

variable {α : Type*} {used : α → Prop} {rep next : α → Option α}

/-- Every element that points to a representative is on its list, and nothing else is. -/
structure LinkedGroups (used : α → Prop) (rep next : α → Option α) : Prop where
  used_of_rep : ∀ {n o}, rep n = some o → used n
  rep_used : ∀ {n o}, rep n = some o → used o
  rep_rep : ∀ {n o}, rep n = some o → rep o = none
  list : ∀ {o}, used o → rep o = none →
    ∃ l, Linked next (next o) l ∧ ∀ m, m ∈ l ↔ rep m = some o

namespace LinkedGroups

open List Function

variable {n o f : α}

section

variable (h : LinkedGroups used rep next)

include h

theorem rep_ne_self (n : α) : rep n ≠ some n := by
  intro hself
  have hnone := h.rep_rep hself
  rw [hself] at hnone
  cases hnone

theorem rep_of_not_used (hn : ¬ used n) : rep n = none := by
  cases hrep : rep n with
  | none => rfl
  | some o => exact absurd (h.used_of_rep hrep) hn

/-- A representative with an empty list is alone. -/
theorem rep_ne_of_next_none (hn : used n) (hrep : rep n = none)
    (hnext : next n = none) (m : α) : rep m ≠ some n := by
  intro hm
  obtain ⟨l, hl, hmem⟩ := h.list hn hrep
  rw [hnext] at hl
  have hm' := (hmem m).2 hm
  rw [hl.eq_nil_of_none] at hm'
  cases hm'

/-- The list of a representative starts with one of its followers. -/
theorem rep_of_next (hn : used n) (hrep : rep n = none)
    (hnext : next n = some f) : rep f = some n := by
  obtain ⟨l, hl, hmem⟩ := h.list hn hrep
  rw [hnext] at hl
  obtain ⟨l', rfl, -⟩ := hl.eq_cons_of_some
  exact (hmem f).1 mem_cons_self

/-- The whole group of a follower, in the order of the list, up to the element in front of it
and from it on. -/
theorem exists_pred (hn : rep n = some o) :
    ∃ l₁ c l₂, Linked next (some o) (l₁ ++ c :: n :: l₂) ∧ next c = some n ∧
      ∀ m, m ∈ l₁ ++ c :: n :: l₂ ↔ m = o ∨ rep m = some o := by
  obtain ⟨l, hl, hmem⟩ := h.list (h.rep_used hn) (h.rep_rep hn)
  have hlist : Linked next (some o) (o :: l) := ⟨rfl, hl⟩
  obtain ⟨l₁, c, l₂, hsplit, hc⟩ := hlist.exists_pred ((hmem n).2 hn)
  refine ⟨l₁, c, l₂, hsplit ▸ hlist, hc, ?_⟩
  intro m
  rw [← hsplit, mem_cons, hmem]

/-- The list of a group that a change leaves alone. -/
theorem list_of_eq {rep' next' : α → Option α} (ho : used o)
    (hrep : rep o = none) (hhead : next' o = next o)
    (hnext : ∀ a, rep a = some o → next' a = next a)
    (hmem : ∀ m, rep' m = some o ↔ rep m = some o) :
    ∃ l, Linked next' (next' o) l ∧ ∀ m, m ∈ l ↔ rep' m = some o := by
  obtain ⟨l, hl, hl'⟩ := h.list ho hrep
  refine ⟨l, ?_, ?_⟩
  · rw [hhead]
    exact hl.congr fun a ha => hnext a ((hl' a).1 ha)
  · intro m
    rw [hl', hmem]

/-- A new element, in a group of its own. -/
theorem adjoin (hn : ¬ used n) (hnext : next n = none) :
    LinkedGroups (fun i => i = n ∨ used i) rep next := by
  refine ⟨fun hi => .inr (h.used_of_rep hi), fun hi => .inr (h.rep_used hi), h.rep_rep, ?_⟩
  rintro o (rfl | ho) hrep
  · refine ⟨[], hnext, ?_⟩
    intro m
    constructor
    · intro hm
      cases hm
    · intro hm
      exact absurd (h.rep_used hm) hn
  · exact h.list ho hrep

/-- Taking out a representative that is alone. -/
theorem discard (hn : used n) (hrep : rep n = none)
    (hnext : next n = none) : LinkedGroups (fun i => i ≠ n ∧ used i) rep next := by
  refine ⟨?_, ?_, h.rep_rep, ?_⟩
  · rintro i o hi
    refine ⟨?_, h.used_of_rep hi⟩
    rintro rfl
    rw [hrep] at hi
    cases hi
  · rintro i o hi
    refine ⟨?_, h.rep_used hi⟩
    rintro rfl
    exact h.rep_ne_of_next_none hn hrep hnext i hi
  · rintro o ⟨-, ho⟩ ho'
    exact h.list ho ho'

end

variable [DecidableEq α]

section

variable (h : LinkedGroups used rep next)

include h

/-- **Adding an element** to a group, in front of the other followers. -/
theorem insert (hn : ¬ used n) (ho : used o) (hrep : rep o = none) :
    LinkedGroups (fun i => i = n ∨ used i) (update rep n (some o))
      (update (update next n (next o)) o (some n)) := by
  have hno : n ≠ o := by
    rintro rfl
    exact hn ho
  have hnone := h.rep_of_not_used hn
  -- nothing points to `n`, which was not in use
  have hne : ∀ {i o'}, rep i = some o' → o' ≠ n := by
    rintro i _ hi rfl
    exact hn (h.rep_used hi)
  have hpoints : ∀ {i o'}, update rep n (some o) i = some o' →
      i = n ∧ o' = o ∨ rep i = some o' := by
    intro i o' hi
    rw [update_apply] at hi
    split_ifs at hi with hin
    · subst hin
      exact .inl ⟨rfl, (Option.some.inj hi).symm⟩
    · exact .inr hi
  refine ⟨?_, ?_, ?_, ?_⟩
  · intro i o' hi
    rcases hpoints hi with ⟨hin, -⟩ | hi
    · exact .inl hin
    · exact .inr (h.used_of_rep hi)
  · intro i o' hi
    rcases hpoints hi with ⟨-, rfl⟩ | hi
    · exact .inr ho
    · exact .inr (h.rep_used hi)
  · intro i o' hi
    rcases hpoints hi with ⟨-, rfl⟩ | hi
    · rw [update_of_ne hno.symm]
      exact hrep
    · rw [update_of_ne (hne hi)]
      exact h.rep_rep hi
  · intro o' hu' ho'
    have ho'n : o' ≠ n := by
      rintro rfl
      rw [update_self] at ho'
      cases ho'
    rw [update_of_ne ho'n] at ho'
    -- the links of the followers that were there are unchanged
    have hkeep : ∀ a, rep a = some o' →
        update (update next n (next o)) o (some n) a = next a := by
      intro a ha
      rw [update_of_ne, update_of_ne]
      · rintro rfl
        rw [hnone] at ha
        cases ha
      · rintro rfl
        rw [hrep] at ha
        cases ha
    by_cases ho'o : o' = o
    · subst ho'o
      obtain ⟨l, hl, hmem⟩ := h.list ho hrep
      refine ⟨n :: l, ⟨by rw [update_self], ?_⟩, ?_⟩
      · rw [update_of_ne hno, update_self]
        exact hl.congr fun a ha => hkeep a ((hmem a).1 ha)
      · intro m
        rw [mem_cons, hmem, update_apply]
        split
        case isTrue hmn => simp [hmn]
        case isFalse hmn => simp [hmn]
    · refine h.list_of_eq (hu'.resolve_left ho'n) ho' ?_ hkeep ?_
      · rw [update_of_ne ho'o, update_of_ne ho'n]
      · intro m
        rw [update_apply]
        split
        case isTrue hmn =>
          subst hmn
          rw [hnone]
          simp [Ne.symm ho'o]
        case isFalse => rfl

/-- The list that a follower is taken out of. -/
theorem remove_list {l₁ l₂ : List α} {c : α} (hl : Linked next (some o) (l₁ ++ c :: n :: l₂))
    (hnotMem : n ∉ l₁ ++ c :: l₂) (hmem : ∀ m, m ∈ l₁ ++ c :: n :: l₂ ↔ m = o ∨ rep m = some o) :
    ∃ l, Linked (update (update next c (next n)) n none) (some o) (o :: l) ∧
      ∀ m, m ∈ l ↔ update rep n none m = some o := by
  have hunlink : Linked (update (update next c (next n)) n none) (some o)
      (l₁ ++ c :: l₂) := by
    refine (hl.unlink (update_self ..) fun d hd =>
      update_of_ne hd ..).congr fun a ha => update_of_ne ?_ ..
    rintro rfl
    exact hnotMem ha
  obtain ⟨l, hsplit, -⟩ := hunlink.eq_cons_of_some
  have hol : o ∉ l := (nodup_cons.1 (hsplit ▸ hunlink.nodup)).1
  have hsame : ∀ m, m ∈ o :: l ↔ m ≠ n ∧ (m = o ∨ rep m = some o) := by
    intro m
    rw [← hsplit, ← hmem]
    constructor
    · intro hm
      refine ⟨fun heq => hnotMem (heq ▸ hm), ?_⟩
      simp only [mem_append, mem_cons] at hm ⊢
      tauto
    · rintro ⟨hmn, hm⟩
      simp only [mem_append, mem_cons] at hm ⊢
      tauto
  refine ⟨l, hsplit ▸ hunlink, ?_⟩
  intro m
  constructor
  · intro hm
    obtain ⟨hmn, hm'⟩ := (hsame m).1 (mem_cons_of_mem _ hm)
    rw [update_of_ne hmn]
    refine hm'.resolve_left ?_
    rintro rfl
    exact hol hm
  · intro hm
    have hmn : m ≠ n := by
      rintro rfl
      rw [update_self] at hm
      cases hm
    rw [update_of_ne hmn] at hm
    refine (mem_cons.1 ((hsame m).2 ⟨hmn, .inr hm⟩)).resolve_left ?_
    rintro rfl
    exact h.rep_ne_self _ hm

/-- **Taking out a follower**: the link of the element in front of it skips it. -/
theorem remove (hn : rep n = some o) {l₁ l₂ : List α} {c : α}
    (hl : Linked next (some o) (l₁ ++ c :: n :: l₂)) :
    LinkedGroups (fun i => i ≠ n ∧ used i) (update rep n none)
      (update (update next c (next n)) n none) := by
  obtain ⟨l, hlist, hmem⟩ := h.list (h.rep_used hn) (h.rep_rep hn)
  have hsplit : l₁ ++ c :: n :: l₂ = o :: l := hl.unique ⟨rfl, hlist⟩
  have hmem' : ∀ m, m ∈ l₁ ++ c :: n :: l₂ ↔ m = o ∨ rep m = some o := by
    intro m
    rw [hsplit, mem_cons, hmem]
  have hnotMem : n ∉ l₁ ++ c :: l₂ := by
    have hperm : (l₁ ++ c :: n :: l₂).Perm (n :: (l₁ ++ c :: l₂)) := by
      have hmiddle : ((l₁ ++ [c]) ++ n :: l₂).Perm (n :: ((l₁ ++ [c]) ++ l₂)) := perm_middle
      simpa using hmiddle
    exact (nodup_cons.1 (hperm.nodup_iff.1 hl.nodup)).1
  have hc : c = o ∨ rep c = some o := (hmem' c).1 (by simp)
  have hpoints : ∀ {i o'}, update rep n none i = some o' → i ≠ n ∧ rep i = some o' := by
    intro i o' hi
    by_cases hin : i = n
    · rw [hin, update_self] at hi
      cases hi
    · rw [update_of_ne hin] at hi
      exact ⟨hin, hi⟩
  -- a representative is not `n`, which has one
  have hne : ∀ {o'}, rep o' = none → o' ≠ n := by
    rintro _ ho' rfl
    rw [hn] at ho'
    cases ho'
  refine ⟨?_, ?_, ?_, ?_⟩
  · intro i o' hi
    obtain ⟨hin, hi⟩ := hpoints hi
    exact ⟨hin, h.used_of_rep hi⟩
  · intro i o' hi
    obtain ⟨-, hi⟩ := hpoints hi
    exact ⟨hne (h.rep_rep hi), h.rep_used hi⟩
  · intro i o' hi
    obtain ⟨-, hi⟩ := hpoints hi
    rw [update_of_ne (hne (h.rep_rep hi))]
    exact h.rep_rep hi
  · rintro o' ⟨ho'n, hu'⟩ ho'
    rw [update_of_ne ho'n] at ho'
    by_cases ho'o : o' = o
    · subst ho'o
      obtain ⟨l', hl', hl'mem⟩ := h.remove_list hl hnotMem hmem'
      exact ⟨l', hl'.2, hl'mem⟩
    · refine h.list_of_eq hu' ho' ?_ ?_ ?_
      · rw [update_of_ne ho'n, update_of_ne]
        rintro rfl
        rcases hc with hc | hc
        · exact ho'o hc
        · rw [ho'] at hc
          cases hc
      · intro a ha
        rw [update_of_ne, update_of_ne]
        · rintro rfl
          rcases hc with rfl | hc
          · rw [h.rep_rep hn] at ha
            cases ha
          · rw [hc] at ha
            exact ho'o (Option.some.inj ha).symm
        · rintro rfl
          rw [hn] at ha
          exact ho'o (Option.some.inj ha).symm
      · intro m
        rw [update_apply]
        split
        case isTrue hmn =>
          subst hmn
          rw [hn]
          simp [Ne.symm ho'o]
        case isFalse => rfl

/-- **Taking out a representative**: its first follower represents the rest of the group. -/
theorem promote (hn : used n) (hrep : rep n = none) (hnext : next n = some f) :
    LinkedGroups (fun i => i ≠ n ∧ used i)
      (fun i => if i = f then none else if rep i = some n then some f else rep i)
      (update next n none) := by
  have hf : rep f = some n := h.rep_of_next hn hrep hnext
  have hfn : f ≠ n := by
    rintro rfl
    exact h.rep_ne_self _ hf
  have hpoints : ∀ {i o' : α},
      (if i = f then none else if rep i = some n then some f else rep i) = some o' →
      i ≠ f ∧ (rep i = some n ∧ o' = f ∨ rep i = some o' ∧ o' ≠ n) := by
    intro i o' hi
    split_ifs at hi with hif hin
    · exact ⟨hif, .inl ⟨hin, (Option.some.inj hi).symm⟩⟩
    · refine ⟨hif, .inr ⟨hi, ?_⟩⟩
      rintro rfl
      exact hin hi
  have hne : ∀ {i o'}, rep i = some o' → i ≠ n := by
    rintro _ o' hi rfl
    rw [hrep] at hi
    cases hi
  refine ⟨?_, ?_, ?_, ?_⟩
  · intro i o' hi
    obtain ⟨-, ⟨hi, -⟩ | ⟨hi, -⟩⟩ := hpoints hi
    · exact ⟨hne hi, h.used_of_rep hi⟩
    · exact ⟨hne hi, h.used_of_rep hi⟩
  · intro i o' hi
    obtain ⟨-, ⟨-, rfl⟩ | ⟨hi, ho'n⟩⟩ := hpoints hi
    · exact ⟨hfn, h.used_of_rep hf⟩
    · exact ⟨ho'n, h.rep_used hi⟩
  · intro i o' hi
    obtain ⟨-, ⟨-, rfl⟩ | ⟨hi, -⟩⟩ := hpoints hi
    · exact if_pos rfl
    · simp [h.rep_rep hi]
  · rintro o' ⟨ho'n, hu'⟩ ho'
    by_cases ho'f : o' = f
    · -- the rest of the list behind the first follower
      subst ho'f
      obtain ⟨l, hl, hmem⟩ := h.list hn hrep
      rw [hnext] at hl
      obtain ⟨l', rfl, hl'⟩ := hl.eq_cons_of_some
      refine ⟨l', ?_, ?_⟩
      · rw [update_of_ne hfn]
        refine hl'.congr fun a ha => update_of_ne ?_ ..
        exact hne ((hmem a).1 (mem_cons_of_mem _ ha))
      · intro m
        have hnotMem : o' ∉ l' := (nodup_cons.1 hl.nodup).1
        constructor
        · intro hm
          have hmo' : m ≠ o' := by
            rintro rfl
            exact hnotMem hm
          rw [if_neg hmo', if_pos ((hmem m).1 (mem_cons_of_mem _ hm))]
        · intro hm
          obtain ⟨hmo', ⟨hm, -⟩ | ⟨hm, -⟩⟩ := hpoints hm
          · exact (mem_cons.1 ((hmem m).2 hm)).resolve_left hmo'
          · have hnone := h.rep_rep hm
            rw [hf] at hnone
            cases hnone
    · have ho'none : rep o' = none := by
        split_ifs at ho'
        exact ho'
      refine h.list_of_eq hu' ho'none (update_of_ne ho'n ..) ?_ ?_
      · exact fun a ha => update_of_ne (hne ha) ..
      · intro m
        constructor
        · intro hm
          obtain ⟨-, ⟨-, heq⟩ | ⟨hm, -⟩⟩ := hpoints hm
          · exact absurd heq ho'f
          · exact hm
        · intro hm
          have hmf : m ≠ f := by
            rintro rfl
            rw [hf] at hm
            exact ho'n (Option.some.inj hm).symm
          have hmn : rep m ≠ some n := by
            rw [hm]
            exact fun heq => ho'n (Option.some.inj heq)
          rw [if_neg hmf, if_neg hmn]
          exact hm

end

end LinkedGroups
