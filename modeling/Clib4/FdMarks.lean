import Clib4.FdAliases
import Clib4.RecordLocking

/-!
# Marks of locked descriptors

A lock that is granted sets `FDF_IS_LOCKED` on every entry of the alias group that it was asked
for through, and the original of the group has the cleanup function by then.  Closing a file
releases its locks only if the entry that is closed last has both.  `FdTable.Marked` says that
it has, and the functions of the table keep this: a duplicate gets the flags of its original,
and the alias that takes the place of an original gets the cleanup function too.

An entry that is not in use can hold anything: `dup2` leaves an entry that points to itself when
its target is the original of its source.  Nothing reads such an entry, so all of this is said
about the table with these entries cleared.

## Main definitions

* `FdTable.tidy` — the table with the entries cleared that are not in use.
* `FdTable.RefersTo` — an entry in use that is for a handle.
* `FdTable.Marked` — the groups for certain handles are marked, and have the cleanup function.

## Main results

* `FdTable.Marked.without`, `FdTable.Marked.duplicate`, `FdTable.Marked.adjoin`,
  `FdTable.Marked.grant` — **the calls keep the marks.**
-/

namespace Clib4

open Function

namespace FdTable

variable {t t' : FdTable} {n m o : ℕ} {b : Bool}

/-! ### Entries that are not in use -/

/-- The table with every entry cleared that is not in use. -/
def tidy (t : FdTable) : FdTable :=
  { t with entry := fun n => bif t.inUse n then t.entry n else {} }

@[simp] theorem tidy_numFd (t : FdTable) : t.tidy.numFd = t.numFd := rfl

theorem tidy_entry_of_inUse (hn : t.inUse n = true) : t.tidy.entry n = t.entry n := by
  simp [tidy, hn]

theorem tidy_entry_of_vacant (hn : t.inUse n = false) : t.tidy.entry n = {} := by
  simp [tidy, hn]

@[simp] theorem tidy_inUse (t : FdTable) : t.tidy.inUse = t.inUse := by
  funext n
  cases hn : t.inUse n with
  | true =>
    rw [inUse, tidy_entry_of_inUse hn]
    exact hn
  | false => rw [inUse, tidy_entry_of_vacant hn]

theorem tidy_original (hn : t.inUse n = true) : t.tidy.original n = t.original n := by
  rw [original, tidy_entry_of_inUse hn, original]

theorem tidy_next (hn : t.inUse n = true) : t.tidy.next n = t.next n := by
  rw [next, tidy_entry_of_inUse hn, next]

theorem tidy_root (hn : t.inUse n = true) : t.tidy.root n = t.root n := by
  rw [root, tidy_original hn, root]

/-- Tables agree when they are as long and have the same entries in use. -/
theorem tidy_eq_tidy (hnum : t'.numFd = t.numFd) (hinUse : ∀ i, t'.inUse i = t.inUse i)
    (hentry : ∀ i, t.inUse i = true → t'.entry i = t.entry i) : t'.tidy = t.tidy := by
  unfold tidy
  congr 1
  funext i
  rw [hinUse]
  cases hi : t.inUse i with
  | true => exact hentry i hi
  | false => rfl

theorem tidy_set_of_inUse (t : FdTable) (n : ℕ) {fd : Fd} (hu : fd.flags.inUse = true) :
    (t.set n fd).tidy = t.tidy.set n fd := by
  unfold tidy
  congr 1
  funext i
  by_cases hin : i = n
  · subst hin
    simp [inUse, hu]
  · simp [inUse, set_entry, hin]

theorem tidy_clear (t : FdTable) (n : ℕ) : (t.set n {}).tidy = t.tidy.set n {} := by
  unfold tidy
  congr 1
  funext i
  by_cases hin : i = n
  · subst hin
    simp [inUse]
  · simp [inUse, set_entry, hin]

variable {l : List ℕ} {memory : Bool}

theorem tidy_modify {g : Fd → Fd} (hl : ∀ i ∈ l, t.inUse i = true)
    (hg : ∀ fd, (g fd).flags.inUse = fd.flags.inUse) :
    (t.modify l g).tidy = t.tidy.modify l g := by
  unfold tidy modify
  congr 1
  funext i
  by_cases hi : i ∈ l
  · have hu := hl i hi
    rw [inUse] at hu
    simp [inUse, hi, hg, hu]
  · simp [inUse, hi]

theorem tidy_vacantFrom (t : FdTable) (base : ℕ) : t.tidy.vacantFrom base = t.vacantFrom base := by
  simp only [vacantFrom, tidy_inUse, tidy_numFd]

/-! ### Looking for a slot -/

theorem tidy_growFdTable (h : t.tidy.Aliases) {maxFd : ℤ}
    (hgrow : t.growFdTable maxFd memory = some t') :
    t'.tidy.entry = t.tidy.entry ∧ t.tidy.numFd ≤ t'.tidy.numFd ∧ maxFd ≤ t'.tidy.numFd := by
  unfold growFdTable at hgrow
  dsimp only at hgrow
  generalize hnew : (if maxFd = 0 then (t.numFd : ℤ) + 10 else maxFd) = newNumFd at hgrow
  split at hgrow
  case isFalse =>
    cases hgrow
    exact ⟨rfl, Nat.le_refl _, by rw [tidy_numFd]; omega⟩
  case isTrue hlt =>
    split at hgrow
    case isFalse => cases hgrow
    case isTrue =>
      cases hgrow
      refine ⟨?_, ?_, ?_⟩
      · funext i
        by_cases hi : t.numFd ≤ i ∧ i < newNumFd.toNat
        · have hvacant : t.inUse i = false := by
            refine Bool.eq_false_iff.2 fun hu => ?_
            exact absurd (h.bound i (by rw [tidy_inUse, hu])) (Nat.not_lt.2 hi.1)
          rw [inUse] at hvacant
          simp only [tidy, inUse, if_pos hi, hvacant, cond_false]
        · simp only [tidy, inUse, if_neg hi]
      · show t.numFd ≤ newNumFd.toNat
        omega
      · show maxFd ≤ (newNumFd.toNat : ℤ)
        omega

theorem tidy_found_of_vacantFrom {base : ℕ} (hentry : t'.tidy.entry = t.tidy.entry)
    (hnum : t.tidy.numFd ≤ t'.tidy.numFd) (h : t'.vacantFrom base = some n) :
    t.tidy.Found t'.tidy base n :=
  found_of_vacantFrom hentry hnum ((tidy_vacantFrom t' base).trans h)

theorem tidy_found_of_vacantSlot (h : t.tidy.Aliases) (hslot : t.vacantSlot memory = some (t', n)) :
    t.tidy.Found t'.tidy 0 n := by
  unfold vacantSlot findVacantFdEntry at hslot
  split at hslot
  case h_1 hv =>
    cases hslot
    exact tidy_found_of_vacantFrom rfl (Nat.le_refl _) hv
  case h_2 =>
    obtain ⟨t₁, hgrow, hmap⟩ := Option.bind_eq_some_iff.1 hslot
    obtain ⟨n₁, hv, heq⟩ := Option.map_eq_some_iff.1 hmap
    cases heq
    obtain ⟨hentry, hnum, -⟩ := tidy_growFdTable h hgrow
    exact tidy_found_of_vacantFrom hentry hnum hv

/-- Every round of the search loop of `F_DUPFD` that goes on leaves a longer table. -/
theorem tidy_found_of_run_dupFdBody (h : t.tidy.Aliases) {base k : ℕ}
    (hrun : Loop.run (dupFdBody base memory) k t = some (some (t', n))) :
    t.tidy.Found t'.tidy base n := by
  induction k generalizing t with
  | zero => cases hrun
  | succ k ih =>
    cases hv : t.vacantFrom base with
    | some i =>
      have hbody : dupFdBody base memory t = .inr (some (t, i)) := by simp [dupFdBody, hv]
      rw [Loop.run_succ_of_inr hbody] at hrun
      cases hrun
      exact tidy_found_of_vacantFrom rfl (Nat.le_refl _) hv
    | none =>
      cases hgrow : t.growFdTable 0 memory with
      | none =>
        have hbody : dupFdBody base memory t = .inr none := by simp [dupFdBody, hv, hgrow]
        rw [Loop.run_succ_of_inr hbody] at hrun
        cases hrun
      | some t₁ =>
        have hbody : dupFdBody base memory t = .inl t₁ := by simp [dupFdBody, hv, hgrow]
        rw [Loop.run_succ_of_inl hbody] at hrun
        obtain ⟨hentry, hnum, -⟩ := tidy_growFdTable h hgrow
        exact (ih (h.of_entry_eq hentry hnum) hrun).of_entry_eq hentry hnum

/-! ### Duplicating and removing -/

theorem Aliases.of_tidy_root (h : t.tidy.Aliases) (hn : t.inUse n = true) :
    t.inUse (t.root n) = true ∧ t.original (t.root n) = none ∧
      (t.entry n).file = (t.entry (t.root n)).file := by
  obtain ⟨hu, ho, hfile, -⟩ := h.root_spec (n := n) (by rw [tidy_inUse, hn])
  rw [tidy_root hn, tidy_inUse] at hu
  rw [tidy_root hn, tidy_original hu] at ho
  rw [tidy_root hn, tidy_entry_of_inUse hn, tidy_entry_of_inUse hu] at hfile
  exact ⟨hu, ho, hfile⟩

theorem tidy_duplicateFd (hno : n ≠ o) (hu : t.inUse o = true) (ho : t.original o = none) :
    (t.duplicateFd n o).tidy = t.tidy.duplicateFd n o := by
  have ho' : t.tidy.original o = none := (tidy_original hu).trans ho
  have hentry := Aliases.duplicateFd_entry hno ho
  have hentry' := Aliases.duplicateFd_entry hno ho'
  rw [inUse] at hu
  show FdTable.mk _ _ = FdTable.mk _ _
  congr 1
  funext i
  refine Eq.trans ?_ (hentry' i).symm
  simp only [inUse, hentry, tidy_entry_of_inUse hu, tidy_next hu]
  by_cases hin : i = n
  · simp [hin, hu]
  · by_cases hio : i = o
    · subst hio
      simp [hin, hu]
    · simp [hin, hio, tidy, inUse]

/-- Duplicating a clear entry into itself, which `dup2` does when its target is the original of
its source, leaves it out of use. -/
theorem tidy_duplicateFd_self (hn : t.entry n = {}) : (t.duplicateFd n n).tidy = t.tidy := by
  have hentry : ∀ i, i ≠ n → (t.duplicateFd n n).entry i = t.entry i := by
    intro i hin
    simp [duplicateFd, initializeFd, set_entry, hin]
  have hself : (t.duplicateFd n n).inUse n = false := by
    simp [duplicateFd, initializeFd, hn, inUse]
  have hvacant : t.inUse n = false := by rw [inUse, hn]
  refine tidy_eq_tidy rfl ?_ ?_
  · intro i
    by_cases hin : i = n
    · rw [hin, hself, hvacant]
    · rw [inUse, hentry i hin, inUse]
  · intro i hi
    refine hentry i ?_
    rintro rfl
    rw [hvacant] at hi
    cases hi

theorem duplicateFd_set_self (hno : n ≠ o) (ho : t.original o = none) (fd : Fd) :
    (t.set n fd).duplicateFd n o = t.duplicateFd n o := by
  have ho' : (t.set n fd).original o = none := by
    rw [set_original, update_of_ne hno.symm, ho]
  show FdTable.mk _ _ = FdTable.mk _ _
  congr 1
  funext i
  refine (Aliases.duplicateFd_entry hno ho' i).trans ?_
  refine Eq.trans ?_ (Aliases.duplicateFd_entry hno ho i).symm
  rw [set_entry_of_ne t hno.symm, set_next, update_of_ne hno.symm]
  split_ifs with hin hio
  · rfl
  · rfl
  · rw [set_entry_of_ne t hin]

theorem linked_of_tidy {p : Option ℕ} (hl : Linked t.tidy.next p l)
    (hused : ∀ i ∈ l, t.inUse i = true) : Linked t.next p l :=
  hl.congr fun i hi => (tidy_next (hused i hi)).symm

/-- **Removing an entry that has aliases** does not look at entries out of use. -/
theorem tidy_removeFdAlias (h : t.tidy.Aliases) (hn : t.inUse n = true)
    (halias : (t.entry n).isAliased = true) :
    ∃ t', t.removeFdAlias n = some t' ∧ t.tidy.removeFdAlias n = some t'.tidy := by
  rcases Aliases.alias_or_first halias with ⟨o, ho⟩ | ⟨ho, f, hf⟩
  · have ho' : t.tidy.original n = some o := (tidy_original hn).trans ho
    obtain ⟨l₁, c, l₂, hl, -, hused, hlen⟩ := h.exists_front ho'
    simp only [tidy_inUse] at hused
    have hc : t.inUse c = true := hused c (by simp)
    refine ⟨_, Aliases.removeFdAlias_eq_of_alias ho (linked_of_tidy hl hused) hlen, ?_⟩
    rw [Aliases.removeFdAlias_eq_of_alias ho' hl hlen, tidy_set_of_inUse,
      tidy_entry_of_inUse hc, tidy_next hn]
    exact hc
  · have hn' : t.tidy.inUse n = true := by rw [tidy_inUse, hn]
    have ho' : t.tidy.original n = none := (tidy_original hn).trans ho
    have hf' : t.tidy.next n = some f := (tidy_next hn).trans hf
    have hfu : t.inUse f = true := by
      rw [← tidy_inUse]
      exact h.groups.used_of_rep (h.original_first hn' ho' hf')
    obtain ⟨l, hl, hmem, hlen⟩ := h.exists_rest hn' ho' hf'
    have hused : ∀ i ∈ l, t.inUse i = true := by
      intro i hi
      rw [← tidy_inUse]
      exact h.groups.used_of_rep ((hmem i).1 hi).2
    have hl' : Linked t.next (t.next f) l := tidy_next hfu ▸ linked_of_tidy hl hused
    refine ⟨_, Aliases.removeFdAlias_eq_of_original ho hf hl' hlen, ?_⟩
    rw [Aliases.removeFdAlias_eq_of_original ho' hf' hl hlen, tidy_modify,
      tidy_set_of_inUse, tidy_entry_of_inUse hn, tidy_next hfu]
    · exact hn
    · intro i hi
      rw [inUse, set_entry]
      split
      · exact hn
      · exact hused i hi
    · exact fun _ => rfl

/-- **The cleanup function travels**: the original of an entry that stays has it exactly when
the original that the entry had before did. -/
theorem Aliases.cleanup_removeFdAlias (h : t.Aliases) (hn : t.inUse n = true)
    (halias : (t.entry n).isAliased = true) (hremove : t.removeFdAlias n = some t') {i : ℕ}
    (hin : i ≠ n) :
    ((t'.set n {}).entry ((t'.set n {}).root i)).cleanup = (t.entry (t.root i)).cleanup := by
  rcases alias_or_first halias with ⟨o, ho⟩ | ⟨ho, f, hf⟩
  · obtain ⟨l₁, c, l₂, hl, -, -, hlen⟩ := h.exists_front ho
    rw [removeFdAlias_eq_of_alias ho hl hlen] at hremove
    cases hremove
    have hroot : ((t.set c { t.entry c with nextAlias := t.next n }).set n {}).root i
        = t.root i := by
      rw [root, set_original, set_original, update_of_ne hin]
      congr 1
      exact congrFun (update_eq_self_iff.2 rfl) i
    rw [hroot, set_entry_of_ne _ (h.root_ne ho i), set_entry]
    split
    case isTrue heq => rw [heq]
    case isFalse => rfl
  · obtain ⟨t₁, ht₁, hp⟩ := h.exists_promoted hn ho hf
    obtain rfl : t₁ = t' := Option.some.inj (ht₁.symm.trans hremove)
    rw [hp.root_eq h hn ho hf hin]
    split
    case isTrue heq => rw [hp.entry f (h.first_ne hn ho hf), if_pos rfl, heq]
    case isFalse hne =>
      rw [hp.entry _ hne, if_neg (h.root_ne (h.original_first hn ho hf) i)]
      split <;> rfl

/-! ### Marking -/

/-- Set or clear `FDF_IS_LOCKED`. -/
def setLocked (b : Bool) (fd : Fd) : Fd := { fd with flags := { fd.flags with isLocked := b } }

theorem set_setLocked_next (t : FdTable) (n : ℕ) (b : Bool) :
    (t.set n (setLocked b (t.entry n))).next = t.next := by
  rw [set_next, update_eq_self_iff]
  rfl

theorem run_markBody {a k : ℕ} (hl : Linked t.next (some a) (a :: l)) (hk : l.length < k) :
    Loop.run (markBody b) k (a, t) = some (t.modify (a :: l) (setLocked b)) := by
  induction l generalizing a k t with
  | nil =>
    obtain ⟨k, rfl⟩ : ∃ j, k = j + 1 := ⟨k - 1, by omega⟩
    have hnext : (t.entry a).nextAlias = none := hl.2
    have hstep : markBody b (a, t) = .inr (t.set a (setLocked b (t.entry a))) := by
      simp only [markBody, hnext, setLocked]
    rw [Loop.run_succ_of_inr hstep, modify_cons t (by simp), modify_nil]
  | cons c l ih =>
    obtain ⟨k, rfl⟩ : ∃ j, k = j + 1 := ⟨k - 1, by omega⟩
    have hnodup := hl.nodup
    obtain ⟨-, hrest⟩ := hl
    have hnext : (t.entry a).nextAlias = some c := hrest.1
    have hstep : markBody b (a, t) = .inl (c, t.set a (setLocked b (t.entry a))) := by
      simp only [markBody, hnext, setLocked]
    rw [Loop.run_succ_of_inl hstep, ih, modify_cons t (List.nodup_cons.1 hnodup).1]
    · rw [set_setLocked_next]
      exact ⟨rfl, hrest.2⟩
    · simpa using hk

/-- **Marking reaches the whole group** of an entry in use, and nothing else. -/
theorem exists_mark (h : t.tidy.Aliases) (hn : t.inUse n = true) (b : Bool) :
    ∃ l, (∀ i, i ∈ l ↔ t.inUse i = true ∧ t.tidy.root i = t.tidy.root n) ∧
      t.mark b n = some (t.modify l (setLocked b)) ∧
      (t.modify l (setLocked b)).tidy = t.tidy.modify l (setLocked b) := by
  obtain ⟨hu, ho, -⟩ := h.root_spec (n := n) (by rw [tidy_inUse, hn])
  obtain ⟨l, hl, hmem⟩ := h.groups.list hu ho
  have hgroup : ∀ i, i ∈ t.tidy.root n :: l ↔ t.inUse i = true ∧ t.tidy.root i = t.tidy.root n := by
    intro i
    rw [List.mem_cons, hmem]
    constructor
    · rw [← tidy_inUse]
      rintro (rfl | hi)
      · exact ⟨hu, Aliases.root_of_none ho⟩
      · exact ⟨h.groups.used_of_rep hi, Aliases.root_of_some hi⟩
    · rintro ⟨-, hroot⟩
      rw [← hroot]
      cases hi : t.tidy.original i with
      | none => exact .inl (Aliases.root_of_none hi).symm
      | some j => rw [Aliases.root_of_some hi]; exact .inr rfl
  have hused : ∀ i ∈ t.tidy.root n :: l, t.inUse i = true := fun i hi => ((hgroup i).1 hi).1
  have hlist : Linked t.tidy.next (some (t.tidy.root n)) (t.tidy.root n :: l) := ⟨rfl, hl⟩
  have hlen := h.length_le_numFd hlist (by simpa only [tidy_inUse] using hused)
  refine ⟨t.tidy.root n :: l, hgroup, ?_, tidy_modify hused fun _ => rfl⟩
  have hroot : (t.entry n).original.getD n = t.tidy.root n := (tidy_root hn).symm
  rw [mark, hroot]
  refine run_markBody (linked_of_tidy hlist hused) ?_
  simp only [List.length_cons, tidy_numFd] at hlen
  omega

/-- Remember to unlock any records before closing the file. -/
def setCleanup (t : FdTable) (slot : ℕ) : FdTable :=
  t.set slot { t.entry slot with cleanup := true }

theorem tidy_setCleanup (hn : t.inUse n = true) : (t.setCleanup n).tidy = t.tidy.setCleanup n := by
  rw [setCleanup, tidy_set_of_inUse, setCleanup, tidy_entry_of_inUse hn]
  exact hn

/-- A change that leaves the links alone, and the entries of one group alike. -/
theorem Aliases.of_links (h : t.Aliases) (hnum : t'.numFd = t.numFd)
    (horig : t'.original = t.original) (hnext : t'.next = t.next)
    (hinUse : t'.inUse = t.inUse) (hvacant : ∀ n, t.inUse n = false → t'.entry n = t.entry n)
    (hsame : ∀ n o, t.original n = some o →
      (t'.entry n).file = (t'.entry o).file ∧ (t'.entry n).flags = (t'.entry o).flags) :
    t'.Aliases := by
  constructor
  case vacant =>
    intro n hn
    rw [hinUse] at hn
    rw [hvacant n hn]
    exact h.vacant n hn
  case bound =>
    rw [hinUse, hnum]
    exact h.bound
  case groups =>
    rw [hinUse, horig, hnext]
    exact h.groups
  case same =>
    rw [horig]
    exact hsame

theorem setCleanup_original (t : FdTable) (n : ℕ) : (t.setCleanup n).original = t.original := by
  rw [setCleanup, set_original, update_eq_self_iff]
  rfl

theorem setCleanup_entry (t : FdTable) (n i : ℕ) :
    ((t.setCleanup n).entry i).file = (t.entry i).file ∧
      ((t.setCleanup n).entry i).flags = (t.entry i).flags ∧
      ((t.entry i).cleanup = true → ((t.setCleanup n).entry i).cleanup = true) := by
  rw [setCleanup, set_entry]
  split
  case isTrue heq => rw [heq]; exact ⟨rfl, rfl, fun _ => rfl⟩
  case isFalse => exact ⟨rfl, rfl, id⟩

theorem Aliases.setCleanup (h : t.Aliases) (hn : t.inUse n = true) : (t.setCleanup n).Aliases := by
  have hfile := setCleanup_entry t n
  refine h.of_links rfl (setCleanup_original t n) ?_ ?_ ?_ ?_
  · rw [FdTable.setCleanup, set_next, update_eq_self_iff]
    rfl
  · funext i
    rw [inUse, (hfile i).2.1, inUse]
  · intro i hi
    rw [FdTable.setCleanup, set_entry_of_ne _ (ne_of_inUse hi hn)]
  · intro i o ho
    rw [(hfile i).1, (hfile i).2.1, (hfile o).1, (hfile o).2.1]
    exact h.same i o ho

theorem modify_setLocked_entry (t : FdTable) (l : List ℕ) (b : Bool) (i : ℕ) :
    (t.modify l (setLocked b)).entry i
      = setLocked (if i ∈ l then b else (t.entry i).flags.isLocked) (t.entry i) := by
  rw [modify_entry]
  split <;> rfl

theorem modify_setLocked_inUse (t : FdTable) (l : List ℕ) (b : Bool) :
    (t.modify l (setLocked b)).inUse = t.inUse := by
  funext i
  rw [inUse, modify_setLocked_entry]
  rfl

theorem modify_setLocked_original (t : FdTable) (l : List ℕ) (b : Bool) :
    (t.modify l (setLocked b)).original = t.original := by
  funext i
  rw [original, modify_setLocked_entry]
  rfl

theorem modify_setLocked_root (t : FdTable) (l : List ℕ) (b : Bool) (i : ℕ) :
    (t.modify l (setLocked b)).root i = t.root i := by
  rw [root, modify_setLocked_original, root]

theorem Aliases.setLocked (h : t.Aliases)
    (hl : ∀ i, i ∈ l ↔ t.inUse i = true ∧ t.root i = t.root n) (b : Bool) :
    (t.modify l (FdTable.setLocked b)).Aliases := by
  refine h.of_links rfl (modify_setLocked_original t l b) ?_ (modify_setLocked_inUse t l b) ?_ ?_
  · funext i
    rw [next, modify_setLocked_entry]
    rfl
  · intro i hi
    rw [modify_entry, if_neg]
    rw [hl, hi]
    simp
  · intro i o ho
    obtain ⟨hfile, hflags⟩ := h.same i o ho
    -- an alias is in the group exactly when its original is
    have hroot : t.root i = t.root o :=
      (root_of_some ho).trans (root_of_none (h.groups.rep_rep ho)).symm
    have hmem : i ∈ l ↔ o ∈ l := by
      rw [hl, hl, hroot, h.groups.used_of_rep ho, h.groups.rep_used ho]
    simp only [modify_entry, hmem]
    split
    · simp [FdTable.setLocked, hfile, hflags]
    · exact ⟨hfile, hflags⟩

/-! ### The marks of the groups -/

/-- Slot `n` is in use, and is for the handle `h`. -/
def RefersTo (t : FdTable) (n h : ℕ) : Prop :=
  t.inUse n = true ∧ (t.entry n).flags.stdio = false ∧ (t.entry n).file = h

@[simp] theorem refersTo_tidy {h : ℕ} : t.tidy.RefersTo n h ↔ t.RefersTo n h := by
  rw [RefersTo, tidy_inUse]
  constructor
  · rintro ⟨hn, hrest⟩
    exact ⟨hn, tidy_entry_of_inUse hn ▸ hrest⟩
  · rintro ⟨hn, hrest⟩
    exact ⟨hn, (tidy_entry_of_inUse hn).symm ▸ hrest⟩

/-- What the table of a process keeps that was granted locks through the handles `through`, when
the next file to be opened gets the handle `next`. -/
structure Marked (next : ℕ) (through : Finset ℕ) (t : FdTable) : Prop where
  aliases : t.Aliases
  plain : ∀ n, t.inUse n = true → (t.entry n).isPlain = true
  closes : ∀ n h, t.RefersTo n h → (t.entry n).flags.noClose = false
  handle : ∀ n h, t.RefersTo n h → 0 < h ∧ h < next
  through_lt : ∀ h ∈ through, h < next
  /-- Descriptors for one handle are aliases of one another. -/
  oneGroup : ∀ n m h, t.RefersTo n h → t.RefersTo m h → t.root n = t.root m
  locked : ∀ n h, t.RefersTo n h → h ∈ through → (t.entry n).flags.isLocked = true
  cleanup : ∀ n h, t.RefersTo n h → h ∈ through → (t.entry (t.root n)).cleanup = true

namespace Marked

variable {next h : ℕ} {through : Finset ℕ}

section

variable (ht : t.Marked next through)

include ht

/-- Only what was granted later can be forgotten, and handles be given out. -/
theorem mono {next' : ℕ} {through' : Finset ℕ}
    (hnext : next ≤ next') (hsub : through' ⊆ through) : t.Marked next' through' where
  aliases := ht.aliases
  plain := ht.plain
  closes := ht.closes
  handle n h hn := ⟨(ht.handle n h hn).1, Nat.lt_of_lt_of_le (ht.handle n h hn).2 hnext⟩
  through_lt h hh := Nat.lt_of_lt_of_le (ht.through_lt h (hsub hh)) hnext
  oneGroup := ht.oneGroup
  locked n h hn hh := ht.locked n h hn (hsub hh)
  cleanup n h hn hh := ht.cleanup n h hn (hsub hh)

section

variable (ht' : t'.Aliases) (f : ℕ → ℕ)
  (hroot : ∀ i j, t'.inUse i = true → t'.inUse j = true → t.root (f i) = t.root (f j) →
    t'.root i = t'.root j)
  (hcleanup : ∀ i, t'.inUse i = true →
    (t.entry (t.root (f i))).cleanup = true → (t'.entry (t'.root i)).cleanup = true)

include ht' hroot hcleanup

/-- A table whose entries in use are those of `t`, under other numbers or several times: those
that were in one group still are, and what the marks are about is still there. -/
theorem of_image
    (hinUse : ∀ i, t'.inUse i = true → t.inUse (f i) = true)
    (hplain : ∀ i, t'.inUse i = true → (t'.entry i).isPlain = (t.entry (f i)).isPlain)
    (hcloses : ∀ i, t'.inUse i = true →
      (t'.entry i).flags.noClose = (t.entry (f i)).flags.noClose)
    (hrefers : ∀ i h, t'.RefersTo i h → t.RefersTo (f i) h)
    (hlocked : ∀ i h, t'.RefersTo i h → h ∈ through →
      (t.entry (f i)).flags.isLocked = true → (t'.entry i).flags.isLocked = true) :
    t'.Marked next through where
  aliases := ht'
  plain i hi := (hplain i hi).trans (ht.plain _ (hinUse i hi))
  closes i h hi := (hcloses i hi.1).trans (ht.closes _ h (hrefers i h hi))
  handle i h hi := ht.handle _ h (hrefers i h hi)
  through_lt := ht.through_lt
  oneGroup i j h hi hj :=
    hroot i j hi.1 hj.1 (ht.oneGroup _ _ h (hrefers i h hi) (hrefers j h hj))
  locked i h hi hh := hlocked i h hi hh (ht.locked _ h (hrefers i h hi) hh)
  cleanup i h hi hh := hcleanup i hi.1 (ht.cleanup _ h (hrefers i h hi) hh)

/-- The same, where an entry of the new table has the file and the flags of the old one. -/
theorem of_entries (hentry : ∀ i, t'.inUse i = true →
      (t'.entry i).file = (t.entry (f i)).file ∧ (t'.entry i).flags = (t.entry (f i)).flags) :
    t'.Marked next through := by
  have hinUse : ∀ i, t'.inUse i = true → t.inUse (f i) = true := by
    intro i hi
    rw [inUse, ← (hentry i hi).2]
    exact hi
  refine ht.of_image ht' f hroot hcleanup hinUse ?_ ?_ ?_ ?_
  · intro i hi
    rw [Fd.isPlain, Fd.isPlain, (hentry i hi).2]
  · intro i hi
    rw [(hentry i hi).2]
  · rintro i h ⟨hi, hstdio, hfile⟩
    obtain ⟨hfile', hflags'⟩ := hentry i hi
    exact ⟨hinUse i hi, hflags' ▸ hstdio, hfile'.symm.trans hfile⟩
  · intro i h hi _ hlocked
    rw [(hentry i hi.1).2]
    exact hlocked

end

theorem of_entry_eq (hentry : t'.entry = t.entry)
    (hnum : t.numFd ≤ t'.numFd) : t'.Marked next through := by
  have hroot := Aliases.root_congr hentry
  refine ht.of_entries (ht.aliases.of_entry_eq hentry hnum) id ?_ ?_ ?_
  · intro i j _ _ hij
    rwa [hroot]
  · intro i _ hcleanup
    rwa [hroot, hentry]
  · intro i _
    rw [hentry]
    exact ⟨rfl, rfl⟩

/-- **An entry is closed.** -/
theorem without (ht' : t'.Aliases) (hw : t.Without t' n)
    (hcleanup : ∀ i, i ≠ n → (t'.entry (t'.root i)).cleanup = (t.entry (t.root i)).cleanup) :
    t'.Marked next through := by
  have hne : ∀ i, t'.inUse i = true → i ≠ n := fun i hi =>
    ((Aliases.inUse_of_without hw i).1 hi).1
  refine ht.of_entries ht' id ?_ ?_ ?_
  · exact fun i j hi hj hij => (hw.root_iff i j (hne i hi) (hne j hj)).2 hij
  · exact fun i hi hc => (hcleanup i (hne i hi)).trans hc
  · exact fun i hi => ⟨hw.file i (hne i hi), hw.flags i (hne i hi)⟩

theorem removeFdAlias (hn : t.inUse n = true)
    (halias : (t.entry n).isAliased = true) (hremove : t.removeFdAlias n = some t') :
    (t'.set n {}).Marked next through := by
  obtain ⟨t₁, ht₁, haliases, hw⟩ := ht.aliases.removeFdAlias hn halias
  obtain rfl : t₁ = t' := Option.some.inj (ht₁.symm.trans hremove)
  exact ht.without haliases hw fun i hin =>
    ht.aliases.cleanup_removeFdAlias hn halias hremove hin

theorem clear (hn : t.inUse n = true)
    (hlone : (t.entry n).isAliased = false) : (t.set n {}).Marked next through := by
  obtain ⟨haliases, hw⟩ := ht.aliases.clear hn hlone
  refine ht.without haliases hw fun i hin => ?_
  have hroot : (t.set n {}).root i = t.root i := by
    rw [root, set_original, update_of_ne hin, root]
  have hne : t.root i ≠ n := by
    intro heq
    refine hin (ht.aliases.eq_of_root_eq hn hlone ?_)
    rw [heq, Aliases.root_of_none (Aliases.isAliased_eq_false.1 hlone).1]
  rw [hroot, set_entry_of_ne t hne]

/-- **A descriptor is duplicated**: the duplicate has the flags of its original. -/
theorem duplicate (hn : t.inUse n = false) (hbound : n < t.numFd)
    (hu : t.inUse o = true) (ho : t.original o = none) :
    (t.duplicateFd n o).Marked next through := by
  have hno := Aliases.ne_of_inUse hn hu
  have hroot := Aliases.duplicateFd_root (t := t) hno ho
  have hinUse : ∀ i, (t.duplicateFd n o).inUse i = true →
      t.inUse (if i = n then o else i) = true := by
    intro i hi
    rwa [inUse, (Aliases.duplicateFd_file hno ho i).2] at hi
  refine ht.of_entries (ht.aliases.duplicateFd hn hbound hu ho) (fun i => if i = n then o else i)
    ?_ ?_ fun i _ => Aliases.duplicateFd_file hno ho i
  · intro i j _ _ hij
    rwa [hroot, hroot]
  · intro i hi hcleanup
    have hrootn := (Aliases.ne_of_inUse hn (ht.aliases.root_spec (hinUse i hi)).1).symm
    rw [hroot]
    generalize t.root (if i = n then o else i) = r at hcleanup hrootn
    rw [Aliases.duplicateFd_entry hno ho, if_neg hrootn]
    split
    case isTrue heq => rwa [heq] at hcleanup
    case isFalse => exact hcleanup

end

/-- Duplicating the original of a descriptor into a slot that has been found. -/
theorem duplicate_of_found (ht : t.tidy.Marked next through) (hm : t.inUse m = true) {base : ℕ}
    (hfound : t.tidy.Found t'.tidy base n) :
    (t'.duplicateFd n (t.root m)).tidy.Marked next through := by
  obtain ⟨hu, ho, -⟩ := ht.aliases.root_spec (n := m) (by rw [tidy_inUse, hm])
  rw [tidy_root hm] at hu ho
  have hn' := hfound.vacant
  rw [← Aliases.original_congr hfound.entry] at ho
  rw [← Aliases.inUse_congr hfound.entry] at hu hn'
  have hno := Aliases.ne_of_inUse hn' hu
  have hu' := hu
  rw [tidy_inUse] at hu'
  rw [tidy_duplicateFd hno hu' ((tidy_original hu').symm.trans ho)]
  exact (ht.of_entry_eq hfound.entry hfound.numFd).duplicate hn' hfound.bound hu ho

section

variable (ht : t.Marked next through)

include ht

/-- **A file is opened**: its handle is new. -/
theorem adjoin (hn : t.inUse n = false) (hbound : n < t.numFd)
    (hpos : 0 < next) {fd : Fd} (hfile : fd.file = next) (hu : fd.flags.inUse = true)
    (ho : fd.original = none) (hnext : fd.nextAlias = none) (hplain : fd.isPlain = true)
    (hcloses : fd.flags.noClose = false) : (t.set n fd).Marked (next + 1) through := by
  have hinUse : ∀ {i}, i ≠ n → ((t.set n fd).inUse i = true ↔ t.inUse i = true) := by
    intro i hin
    rw [inUse, set_entry_of_ne t hin, inUse]
  have hroot : ∀ {i}, i ≠ n → (t.set n fd).root i = t.root i := by
    intro i hin
    rw [root, set_original, update_of_ne hin, root]
  -- the new entry is the only one for its handle
  have hcases : ∀ i h, (t.set n fd).RefersTo i h →
      i = n ∧ h = next ∨ i ≠ n ∧ t.RefersTo i h ∧ h < next := by
    rintro i h ⟨hi, hstdio, hh⟩
    by_cases hin : i = n
    · rw [hin, set_entry_self, hfile] at hh
      exact .inl ⟨hin, hh.symm⟩
    · rw [hinUse hin] at hi
      rw [set_entry_of_ne t hin] at hstdio hh
      exact .inr ⟨hin, ⟨hi, hstdio, hh⟩, (ht.handle i h ⟨hi, hstdio, hh⟩).2⟩
  have hnot : next ∉ through := fun hmem => Nat.lt_irrefl _ (ht.through_lt next hmem)
  constructor
  case aliases => exact ht.aliases.adjoin hn hbound hu ho hnext
  case plain =>
    intro i hi
    rw [set_entry]
    split
    case isTrue => exact hplain
    case isFalse hin => exact ht.plain i ((hinUse hin).1 hi)
  case closes =>
    intro i h hi
    rw [set_entry]
    split
    case isTrue => exact hcloses
    case isFalse hin =>
      rcases hcases i h hi with ⟨heq, -⟩ | ⟨-, hi, -⟩
      · exact absurd heq hin
      · exact ht.closes i h hi
  case handle =>
    intro i h hi
    rcases hcases i h hi with ⟨-, rfl⟩ | ⟨-, hi, hlt⟩
    · exact ⟨hpos, Nat.lt_succ_self h⟩
    · exact ⟨(ht.handle i h hi).1, Nat.lt_succ_of_lt hlt⟩
  case through_lt => exact fun h hh => Nat.lt_succ_of_lt (ht.through_lt h hh)
  case oneGroup =>
    intro i j h hi hj
    rcases hcases i h hi with ⟨rfl, rfl⟩ | ⟨hin, hi, hlt⟩ <;>
      rcases hcases j _ hj with ⟨rfl, heq⟩ | ⟨hjn, hj, hlt'⟩
    · rfl
    · exact absurd hlt' (Nat.lt_irrefl _)
    · exact absurd heq (Nat.ne_of_lt hlt)
    · rw [hroot hin, hroot hjn]
      exact ht.oneGroup i j h hi hj
  case locked =>
    intro i h hi hh
    rcases hcases i h hi with ⟨-, rfl⟩ | ⟨hin, hi, -⟩
    · exact absurd hh hnot
    · rw [set_entry_of_ne t hin]
      exact ht.locked i h hi hh
  case cleanup =>
    intro i h hi hh
    rcases hcases i h hi with ⟨-, rfl⟩ | ⟨hin, hi, -⟩
    · exact absurd hh hnot
    · have hne := Aliases.ne_of_inUse hn (ht.aliases.root_spec hi.1).1
      rw [hroot hin, set_entry_of_ne t hne.symm]
      exact ht.cleanup i h hi hh

theorem setCleanup (hn : t.inUse n = true) : (t.setCleanup n).Marked next through := by
  have hentry := setCleanup_entry t n
  have hroot : ∀ i, (t.setCleanup n).root i = t.root i := by
    intro i
    rw [root, root, setCleanup_original]
  refine ht.of_entries (ht.aliases.setCleanup hn) id ?_ ?_ ?_
  · intro i j _ _ hij
    rwa [hroot, hroot]
  · intro i _ hcleanup
    rw [hroot]
    exact (hentry _).2.2 hcleanup
  · exact fun i _ => ⟨(hentry i).1, (hentry i).2.1⟩

/-- Marking a group, or taking the mark off one that no lock is remembered of. -/
theorem setLocked (hn : t.inUse n = true) {l : List ℕ}
    (hl : ∀ i, i ∈ l ↔ t.inUse i = true ∧ t.root i = t.root n)
    (hb : b = false → (t.entry n).file ∉ through) :
    (t.modify l (FdTable.setLocked b)).Marked next through := by
  refine ht.of_image (ht.aliases.setLocked hl b) id ?_ ?_ ?_ ?_ ?_ ?_ ?_
  · intro i j _ _ hij
    rwa [modify_setLocked_root, modify_setLocked_root]
  · intro i _ hcleanup
    rw [modify_setLocked_root, modify_setLocked_entry]
    exact hcleanup
  · rw [modify_setLocked_inUse]
    exact fun _ => id
  · intro i _
    rw [modify_setLocked_entry]
    rfl
  · intro i _
    rw [modify_setLocked_entry]
    rfl
  · intro i h
    rw [RefersTo, modify_setLocked_inUse, modify_setLocked_entry]
    exact id
  · rintro i h ⟨-, -, hfile⟩ hh hlocked
    rw [modify_setLocked_entry] at hfile ⊢
    split
    case isFalse => exact hlocked
    case isTrue hmem =>
      cases hb' : b with
      | true => rfl
      | false =>
        -- the entries of the group are for the file of `n`
        obtain ⟨hi, hroot⟩ := (hl i).1 hmem
        have hgroup : (t.entry i).file = (t.entry n).file := by
          rw [(ht.aliases.root_spec hi).2.2.1, hroot, ← (ht.aliases.root_spec hn).2.2.1]
        exact absurd (hfile ▸ hh) (hgroup ▸ hb hb')

/-- **A lock is granted** through an original that has the cleanup function. -/
theorem grant (hn : t.RefersTo n h) (ho : t.original n = none)
    (hcleanup : (t.entry n).cleanup = true) {l : List ℕ}
    (hl : ∀ i, i ∈ l ↔ t.inUse i = true ∧ t.root i = t.root n) :
    (t.modify l (FdTable.setLocked true)).Marked next (insert h through) := by
  have hmarked := ht.setLocked (b := true) hn.1 hl (by simp)
  have hrootn := Aliases.root_of_none ho
  have hself : n ∈ l := (hl n).2 ⟨hn.1, rfl⟩
  have hn' : (t.modify l (FdTable.setLocked true)).RefersTo n h := by
    rw [RefersTo, modify_setLocked_inUse, modify_setLocked_entry]
    exact hn
  -- the descriptors for this handle are those of the group
  have hgroup : ∀ {i}, (t.modify l (FdTable.setLocked true)).RefersTo i h →
      i ∈ l ∧ (t.modify l (FdTable.setLocked true)).root i = n := by
    intro i hi
    have hroot := hmarked.oneGroup i n h hi hn'
    rw [modify_setLocked_root, modify_setLocked_root] at hroot
    refine ⟨(hl i).2 ⟨modify_setLocked_inUse t l true ▸ hi.1, hroot⟩, ?_⟩
    rw [modify_setLocked_root, hroot, hrootn]
  refine { hmarked with through_lt := ?_, locked := ?_, cleanup := ?_ }
  · intro k hk
    rcases Finset.mem_insert.1 hk with rfl | hk
    · exact (ht.handle n k hn).2
    · exact ht.through_lt k hk
  · intro i k hi hk
    rcases Finset.mem_insert.1 hk with rfl | hk
    · rw [modify_entry, if_pos (hgroup hi).1]
      rfl
    · exact hmarked.locked i k hi hk
  · intro i k hi hk
    rcases Finset.mem_insert.1 hk with rfl | hk
    · rw [(hgroup hi).2, modify_entry, if_pos hself]
      exact hcleanup
    · exact hmarked.cleanup i k hi hk

/-- **The last descriptor for a handle** is alone in its group, and has the marks. -/
theorem last (hn : t.RefersTo n h) (hlast : ∀ m, t.RefersTo m h → m = n) :
    (t.entry n).closesFile = true ∧
      (h ∈ through → (t.entry n).flags.isLocked = true ∧ (t.entry n).cleanup = true) := by
  obtain ⟨hu, hstdio, hfile⟩ := hn
  have hlone : (t.entry n).isAliased = false := by
    refine Bool.eq_false_iff.2 fun halias => ?_
    obtain ⟨m, hmn, hfile', hflags'⟩ := ht.aliases.exists_alias hu halias
    refine absurd (hlast m ⟨?_, ?_, ?_⟩) hmn
    · rw [inUse, hflags']
      exact hu
    · rw [hflags']
      exact hstdio
    · rw [hfile', hfile]
  have hroot := Aliases.root_of_none (Aliases.isAliased_eq_false.1 hlone).1
  refine ⟨?_, ?_⟩
  · simp [Fd.closesFile, ht.plain n hu, hlone, hstdio, ht.closes n h ⟨hu, hstdio, hfile⟩]
  · intro hh
    refine ⟨ht.locked n h ⟨hu, hstdio, hfile⟩ hh, ?_⟩
    have hcleanup := ht.cleanup n h ⟨hu, hstdio, hfile⟩ hh
    rwa [hroot] at hcleanup

end

end Marked

end FdTable

end Clib4
