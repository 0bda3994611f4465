import Clib4.Base.LinkedGroups
import Clib4.FdTable

/-!
# Alias lists

The functions of the descriptor table keep the alias lists in the shape of
`LinkedGroups`: every alias points to an original, and the list that starts at an original
holds its aliases and nothing else.  The effect of each function on the entries is stated
once, for the proofs about whole calls.

## Main definitions

* `FdTable.Aliases` — the shape of the table.

## Main results

* `Aliases.removeFdAlias` — **closing an entry that has aliases takes it out of its group and
  leaves the others together.**
-/

namespace Clib4

open List Function

namespace FdTable

variable {t t' : FdTable} {n m o : ℕ}

/-- The link of an entry. -/
def next (t : FdTable) (n : ℕ) : Option ℕ := (t.entry n).nextAlias

/-- The original of an alias. -/
def original (t : FdTable) (n : ℕ) : Option ℕ := (t.entry n).original

/-- The original of an entry that is an alias, else the entry itself. -/
def root (t : FdTable) (n : ℕ) : ℕ := (t.original n).getD n

@[simp] theorem set_original (t : FdTable) (n : ℕ) (fd : Fd) :
    (t.set n fd).original = update t.original n fd.original :=
  comp_update Fd.original t.entry n fd

@[simp] theorem set_next (t : FdTable) (n : ℕ) (fd : Fd) :
    (t.set n fd).next = update t.next n fd.nextAlias :=
  comp_update Fd.nextAlias t.entry n fd

theorem set_entry (t : FdTable) (n : ℕ) (fd : Fd) (i : ℕ) :
    (t.set n fd).entry i = if i = n then fd else t.entry i :=
  update_apply ..

/-- Change the entries of some slots. -/
def modify (t : FdTable) (l : List ℕ) (g : Fd → Fd) : FdTable :=
  { t with entry := fun i => if i ∈ l then g (t.entry i) else t.entry i }

theorem modify_entry (t : FdTable) (l : List ℕ) (g : Fd → Fd) (i : ℕ) :
    (t.modify l g).entry i = if i ∈ l then g (t.entry i) else t.entry i := rfl

@[simp] theorem modify_nil (t : FdTable) (g : Fd → Fd) : t.modify [] g = t := by simp [modify]

variable {l : List ℕ}

theorem modify_cons (t : FdTable) {a : ℕ} (ha : a ∉ l) (g : Fd → Fd) :
    t.modify (a :: l) g = (t.set a (g (t.entry a))).modify l g := by
  unfold modify
  congr 1
  funext i
  rw [set_entry]
  by_cases hia : i = a
  · subst hia
    simp [ha]
  · simp [hia]

/-- The shape of the table. -/
structure Aliases (t : FdTable) : Prop where
  /-- An entry that is not in use is clear. -/
  vacant : ∀ n, t.inUse n = false → t.entry n = {}
  bound : ∀ n, t.inUse n = true → n < t.numFd
  groups : LinkedGroups (fun n => t.inUse n = true) t.original t.next
  /-- An alias is for the same file. -/
  same : ∀ n o, t.original n = some o →
    (t.entry n).file = (t.entry o).file ∧ (t.entry n).flags = (t.entry o).flags

/-- The table `t'` is the table `t` without the entry of slot `n`: the other entries are for
the files they were for, and those that were aliases of one another still are. -/
structure Without (t t' : FdTable) (n : ℕ) : Prop where
  numFd : t'.numFd = t.numFd
  self : t'.entry n = {}
  file : ∀ i, i ≠ n → (t'.entry i).file = (t.entry i).file
  flags : ∀ i, i ≠ n → (t'.entry i).flags = (t.entry i).flags
  vacant : ∀ i, t.inUse i = false → t'.entry i = {}
  original : ∀ i, i ≠ n → t.original i = none → t'.original i = none
  root_iff : ∀ i j, i ≠ n → j ≠ n → (t'.root i = t'.root j ↔ t.root i = t.root j)

namespace Aliases

theorem ne_of_inUse (hn : t.inUse n = false) (hm : t.inUse m = true) : n ≠ m := by
  rintro rfl
  rw [hn] at hm
  cases hm

theorem root_of_none (ho : t.original n = none) : t.root n = n := by
  rw [root, ho]
  rfl

theorem root_of_some (ho : t.original n = some o) : t.root n = o := by
  rw [root, ho]
  rfl

theorem isAliased_eq_false :
    (t.entry n).isAliased = false ↔ t.original n = none ∧ t.next n = none := by
  simp [Fd.isAliased, original, next]

/-- An entry that has aliases is one itself, or has a first one. -/
theorem alias_or_first (halias : (t.entry n).isAliased = true) :
    (∃ o, t.original n = some o) ∨ t.original n = none ∧ ∃ f, t.next n = some f := by
  rw [← Option.isSome_iff_exists, ← Option.isSome_iff_exists, ← Option.not_isSome_iff_eq_none]
  rw [Fd.isAliased, Bool.or_eq_true] at halias
  tauto

/-- The entry that a descriptor in use is resolved to is an original for the same file. -/
theorem root_spec (h : t.Aliases) (hn : t.inUse n = true) :
    t.inUse (t.root n) = true ∧ t.original (t.root n) = none ∧
      (t.entry n).file = (t.entry (t.root n)).file ∧
      (t.entry n).flags = (t.entry (t.root n)).flags := by
  cases ho : t.original n with
  | none =>
    rw [root_of_none ho]
    exact ⟨hn, ho, rfl, rfl⟩
  | some o =>
    rw [root_of_some ho]
    exact ⟨h.groups.rep_used ho, h.groups.rep_rep ho, h.same n o ho⟩

theorem root_ne (h : t.Aliases) (ho : t.original n = some o) (i : ℕ) : t.root i ≠ n := by
  rintro rfl
  cases hi : t.original i with
  | none =>
    rw [root_of_none hi, hi] at ho
    cases ho
  | some j =>
    rw [root_of_some hi, h.groups.rep_rep hi] at ho
    cases ho

/-- An entry that is alone on its list: no other entry is in its group. -/
theorem eq_of_root_eq (h : t.Aliases) (hn : t.inUse n = true)
    (hlone : (t.entry n).isAliased = false) (hroot : t.root m = t.root n) : m = n := by
  obtain ⟨ho, hnext⟩ := isAliased_eq_false.1 hlone
  rw [root_of_none ho] at hroot
  cases hm : t.original m with
  | none => rwa [root_of_none hm] at hroot
  | some o =>
    rw [root_of_some hm] at hroot
    rw [hroot] at hm
    exact absurd hm (h.groups.rep_ne_of_next_none hn ho hnext m)

theorem exists_alias (h : t.Aliases) (hn : t.inUse n = true)
    (halias : (t.entry n).isAliased = true) :
    ∃ m, m ≠ n ∧ (t.entry m).file = (t.entry n).file ∧
      (t.entry m).flags = (t.entry n).flags := by
  rcases alias_or_first halias with ⟨o, ho⟩ | ⟨ho, f, hf⟩
  · refine ⟨o, ?_, (h.same n o ho).1.symm, (h.same n o ho).2.symm⟩
    rintro rfl
    exact h.groups.rep_ne_self _ ho
  · have hfo := h.groups.rep_of_next hn ho hf
    refine ⟨f, ?_, h.same f n hfo⟩
    rintro rfl
    exact h.groups.rep_ne_self _ hfo

/-! ### Looking for a slot -/

/-- The slots that a table grows by are vacant already, so only its length changes. -/
theorem growFdTable (h : t.Aliases) (maxFd : ℤ) :
    ∃ t', t.growFdTable maxFd true = some t' ∧ t'.entry = t.entry ∧ t.numFd ≤ t'.numFd ∧
      maxFd ≤ t'.numFd ∧ (maxFd = 0 → t'.numFd = t.numFd + 10) := by
  unfold FdTable.growFdTable
  generalize hnew : (if maxFd = 0 then (t.numFd : ℤ) + 10 else maxFd) = newNumFd
  have hzero : maxFd = 0 → newNumFd = t.numFd + 10 := by
    intro hmax
    rw [← hnew, if_pos hmax]
  by_cases hlt : (t.numFd : ℤ) < newNumFd
  · simp only [hlt]
    refine ⟨_, rfl, ?_, ?_, ?_, ?_⟩
    · funext i
      dsimp only
      split
      case isTrue hi =>
        have hvacant : t.inUse i = false := by
          refine Bool.eq_false_iff.2 fun hu => ?_
          exact absurd (h.bound i hu) (by omega)
        exact (h.vacant i hvacant).symm
      case isFalse => rfl
    · show t.numFd ≤ newNumFd.toNat
      omega
    · show maxFd ≤ (newNumFd.toNat : ℤ)
      omega
    · intro hmax
      show newNumFd.toNat = t.numFd + 10
      omega
  · simp only [hlt]
    exact ⟨t, rfl, rfl, Nat.le_refl _, by omega, fun hmax => absurd (hzero hmax) (by omega)⟩

theorem inUse_congr (hentry : t'.entry = t.entry) : t'.inUse = t.inUse := by
  funext i
  rw [inUse, hentry, inUse]

theorem original_congr (hentry : t'.entry = t.entry) : t'.original = t.original := by
  funext i
  rw [original, hentry, original]

theorem root_congr (hentry : t'.entry = t.entry) : t'.root = t.root := by
  funext i
  rw [root, original_congr hentry, root]

theorem of_entry_eq (h : t.Aliases) (hentry : t'.entry = t.entry) (hnum : t.numFd ≤ t'.numFd) :
    t'.Aliases := by
  have hinUse := inUse_congr hentry
  have hnext : t'.next = t.next := by funext i; rw [next, hentry, next]
  have horig := original_congr hentry
  constructor
  case vacant => simpa only [hinUse, hentry] using h.vacant
  case bound =>
    intro n hn
    rw [hinUse] at hn
    exact Nat.lt_of_lt_of_le (h.bound n hn) hnum
  case groups => simpa only [hinUse, hnext, horig] using h.groups
  case same => simpa only [horig, hentry] using h.same

end Aliases

variable {base : ℕ}

theorem vacantFrom_eq_some (h : t.vacantFrom base = some n) :
    base ≤ n ∧ n < t.numFd ∧ t.inUse n = false ∧ ∀ m, base ≤ m → m < n → t.inUse m = true := by
  rw [vacantFrom, find?_range'_eq_some] at h
  obtain ⟨hvacant, hmem, hbefore⟩ := h
  rw [mem_range'_1] at hmem
  refine ⟨hmem.1, by omega, by simpa using hvacant, ?_⟩
  intro m hm hmn
  simpa using hbefore m hm hmn

theorem vacantFrom_eq_none (h : t.vacantFrom base = none) (hm : base ≤ m)
    (hmt : m < t.numFd) : t.inUse m = true := by
  rw [vacantFrom, find?_range'_eq_none] at h
  simpa using h m hm (by omega)

/-- What looking for a slot from `base` on leaves: the entries as they were, and the first
vacant slot. -/
structure Found (t t' : FdTable) (base n : ℕ) : Prop where
  entry : t'.entry = t.entry
  numFd : t.numFd ≤ t'.numFd
  base_le : base ≤ n
  bound : n < t'.numFd
  vacant : t.inUse n = false
  first : ∀ m, base ≤ m → m < n → t.inUse m = true

theorem found_of_vacantFrom (hentry : t'.entry = t.entry) (hnum : t.numFd ≤ t'.numFd)
    (h : t'.vacantFrom base = some n) : t.Found t' base n := by
  obtain ⟨hbase, hbound, hvacant, hfirst⟩ := vacantFrom_eq_some h
  rw [Aliases.inUse_congr hentry] at hvacant hfirst
  exact ⟨hentry, hnum, hbase, hbound, hvacant, hfirst⟩

/-- A slot that is found in a longer table with the same entries. -/
theorem Found.of_entry_eq {t₁ : FdTable} (hfound : t₁.Found t' base n)
    (hentry : t₁.entry = t.entry) (hnum : t.numFd ≤ t₁.numFd) : t.Found t' base n := by
  obtain ⟨hentry', hnum', hbase, hbound, hvacant, hfirst⟩ := hfound
  rw [Aliases.inUse_congr hentry] at hvacant hfirst
  exact ⟨hentry'.trans hentry, hnum.trans hnum', hbase, hbound, hvacant, hfirst⟩

namespace Aliases

theorem vacantFrom_of_grown (h : t.Aliases) (hentry : t'.entry = t.entry)
    (hnum : t'.numFd = t.numFd + 10) (hbase : base ≤ t.numFd) :
    ∃ n, t'.vacantFrom base = some n := by
  cases hv : t'.vacantFrom base with
  | some n => exact ⟨n, rfl⟩
  | none =>
    have hu := vacantFrom_eq_none hv hbase (by omega)
    rw [inUse, hentry] at hu
    exact absurd (h.bound _ hu) (Nat.lt_irrefl _)

theorem vacantSlot (h : t.Aliases) : ∃ t' n, t.vacantSlot true = some (t', n) ∧ t.Found t' 0 n := by
  unfold FdTable.vacantSlot findVacantFdEntry
  cases hv : t.vacantFrom 0 with
  | some n => exact ⟨t, n, rfl, found_of_vacantFrom rfl (Nat.le_refl _) hv⟩
  | none =>
    obtain ⟨t', hgrow, hentry, hnum, -, hten⟩ := h.growFdTable 0
    obtain ⟨n, hn⟩ := h.vacantFrom_of_grown hentry (hten rfl) (Nat.zero_le _)
    refine ⟨t', n, ?_, found_of_vacantFrom hentry hnum hn⟩
    simp [hgrow, hn]

section

variable (hno : n ≠ o) (ho : t.original o = none)

include hno ho

/-- The entries after a vacant slot has become a duplicate of an original. -/
theorem duplicateFd_entry (i : ℕ) : (t.duplicateFd n o).entry i =
      if i = n then { file := (t.entry o).file, flags := (t.entry o).flags
                      original := some o, nextAlias := t.next o }
      else if i = o then { t.entry o with nextAlias := some n }
      else t.entry i := by
  have hon : o ≠ n := hno.symm
  rw [original] at ho
  simp only [FdTable.duplicateFd, FdTable.initializeFd, FdTable.set, next]
  by_cases hio : i = o
  · subst hio
    simp [hon, ho]
  · by_cases hin : i = n
    · subst hin
      simp [hon, hio, ho]
    · simp [hon, hio, hin, ho]

/-- A duplicate is for the file of its original; the other entries are for theirs. -/
theorem duplicateFd_file (i : ℕ) :
    ((t.duplicateFd n o).entry i).file = (t.entry (if i = n then o else i)).file ∧
      ((t.duplicateFd n o).entry i).flags = (t.entry (if i = n then o else i)).flags := by
  rw [duplicateFd_entry hno ho]
  split_ifs with hin hio
  · exact ⟨rfl, rfl⟩
  · rw [hio]
    exact ⟨rfl, rfl⟩
  · exact ⟨rfl, rfl⟩

theorem duplicateFd_original : (t.duplicateFd n o).original = update t.original n (some o) := by
  funext i
  rw [original, duplicateFd_entry hno ho, update_apply]
  split_ifs with hin hio
  · rfl
  · rw [hio]
    rfl
  · rfl

theorem duplicateFd_root (i : ℕ) :
    (t.duplicateFd n o).root i = t.root (if i = n then o else i) := by
  rw [root, duplicateFd_original hno ho, update_apply]
  split
  case isTrue => exact (root_of_none ho).symm
  case isFalse => rfl

theorem duplicateFd_next : (t.duplicateFd n o).next
      = update (update t.next n (t.next o)) o (some n) := by
  funext i
  rw [next, duplicateFd_entry hno ho, update_apply, update_apply]
  split_ifs with hin hio hio
  · exact absurd (hin.symm.trans hio) hno
  · rfl
  · rfl
  · rfl

end

/-- **A duplicate is linked in**, as the first alias of its original. -/
theorem duplicateFd (h : t.Aliases) (hn : t.inUse n = false) (hbound : n < t.numFd)
    (hu : t.inUse o = true) (ho : t.original o = none) : (t.duplicateFd n o).Aliases := by
  have hno := ne_of_inUse hn hu
  have hinUse : ∀ i, (t.duplicateFd n o).inUse i = true ↔ i = n ∨ t.inUse i = true := by
    intro i
    rw [inUse, (duplicateFd_file hno ho i).2]
    split
    case isTrue hin => exact ⟨fun _ => .inl hin, fun _ => hu⟩
    case isFalse hin => simp [hin, inUse]
  constructor
  case vacant =>
    intro i hi
    rw [Bool.eq_false_iff, ne_eq, hinUse, not_or, Bool.not_eq_true] at hi
    rw [duplicateFd_entry hno ho, if_neg hi.1, if_neg (ne_of_inUse hi.2 hu)]
    exact h.vacant i hi.2
  case bound =>
    intro i hi
    rcases (hinUse i).1 hi with rfl | hi
    · exact hbound
    · exact h.bound i hi
  case groups =>
    rw [duplicateFd_original hno ho, duplicateFd_next hno ho]
    simp only [hinUse]
    exact h.groups.insert (Bool.eq_false_iff.1 hn) hu ho
  case same =>
    intro i o' hi
    rw [duplicateFd_original hno ho, update_apply] at hi
    obtain ⟨hfile, hflags⟩ := duplicateFd_file (t := t) hno ho i
    obtain ⟨hfile', hflags'⟩ := duplicateFd_file (t := t) hno ho o'
    rw [hfile, hfile', hflags, hflags']
    split at hi
    case isTrue hin =>
      cases hi
      simp [hin]
    case isFalse hin =>
      rw [if_neg hin, if_neg (ne_of_inUse hn (h.groups.rep_used hi)).symm]
      exact h.same i o' hi

theorem adjoin (h : t.Aliases) (hn : t.inUse n = false) (hbound : n < t.numFd) {fd : Fd}
    (hu : fd.flags.inUse = true) (ho : fd.original = none) (hnext : fd.nextAlias = none) :
    (t.set n fd).Aliases := by
  have hclear := h.vacant n hn
  have horig : (t.set n fd).original = t.original := by
    rw [set_original, update_eq_self_iff, ho, original, hclear]
  have hnext' : (t.set n fd).next = t.next := by
    rw [set_next, update_eq_self_iff, hnext, next, hclear]
  have hinUse : ∀ i, (t.set n fd).inUse i = true ↔ i = n ∨ t.inUse i = true := by
    intro i
    by_cases hin : i = n
    · subst hin
      simp [inUse, hu]
    · simp [inUse, set_entry_of_ne t hin, hin]
  constructor
  case vacant =>
    intro i hi
    rw [Bool.eq_false_iff, ne_eq, hinUse, not_or, Bool.not_eq_true] at hi
    rw [set_entry_of_ne t hi.1]
    exact h.vacant i hi.2
  case bound =>
    intro i hi
    rcases (hinUse i).1 hi with rfl | hi
    · exact hbound
    · exact h.bound i hi
  case groups =>
    rw [horig, hnext']
    simp only [hinUse]
    refine h.groups.adjoin (Bool.eq_false_iff.1 hn) ?_
    rw [next, hclear]
  case same =>
    intro i o' hi
    rw [horig] at hi
    rw [set_entry_of_ne t (ne_of_inUse hn (h.groups.used_of_rep hi)).symm,
      set_entry_of_ne t (ne_of_inUse hn (h.groups.rep_used hi)).symm]
    exact h.same i o' hi

/-! ### Removing an entry -/

variable {p : Option ℕ}

theorem length_le_numFd (h : t.Aliases) (hl : Linked t.next p l)
    (hused : ∀ i ∈ l, t.inUse i = true) : l.length ≤ t.numFd := by
  rw [← toFinset_card_of_nodup hl.nodup, ← Finset.card_range t.numFd]
  refine Finset.card_le_card fun i hi => ?_
  rw [Finset.mem_range]
  exact h.bound i (hused i (mem_toFinset.1 hi))

/-- The first loop of `__remove_fd_alias` stops at the entry in front of the alias. -/
theorem run_unlinkBody {l₁ l₂ : List ℕ} {c k : ℕ}
    (hl : Linked t.next p (l₁ ++ c :: n :: l₂)) (hk : l₁.length < k) :
    Loop.run (unlinkBody t n) k p
      = some (t.set c { t.entry c with nextAlias := t.next n }) := by
  induction l₁ generalizing p k with
  | nil =>
    obtain ⟨k, rfl⟩ : ∃ j, k = j + 1 := ⟨k - 1, by omega⟩
    obtain ⟨rfl, hc, -⟩ := hl
    rw [next] at hc
    rw [Loop.run_succ_of_inr]
    simp [unlinkBody, hc, next]
  | cons d l₁ ih =>
    obtain ⟨k, rfl⟩ : ∃ j, k = j + 1 := ⟨k - 1, by omega⟩
    obtain ⟨rfl, hrest⟩ := hl
    -- `d` does not point to `n`, which comes behind `c`
    have hd : (t.entry d).nextAlias ≠ some n := by
      have hnodup := hrest.nodup
      rw [next] at hrest
      cases l₁ with
      | nil | cons e l₁ => simp_all
    have hstep : unlinkBody t n (some d) = .inl (t.next d) := by simp [unlinkBody, hd, next]
    rw [Loop.run_succ_of_inl hstep]
    exact ih hrest (by simpa using hk)

/-- The second loop of `__remove_fd_alias` gives the entries of a list a new original. -/
theorem run_retargetBody {first k : ℕ} (hl : Linked t.next p l)
    (hk : l.length < k) :
    Loop.run (retargetBody first) k (p, t)
      = some (t.modify l fun fd => { fd with original := some first }) := by
  induction l generalizing p k t with
  | nil =>
    obtain ⟨k, rfl⟩ : ∃ j, k = j + 1 := ⟨k - 1, by omega⟩
    cases hl
    have hstep : retargetBody first (none, t) = .inr t := rfl
    rw [Loop.run_succ_of_inr hstep, modify_nil]
  | cons a l ih =>
    obtain ⟨k, rfl⟩ : ∃ j, k = j + 1 := ⟨k - 1, by omega⟩
    have hnodup := hl.nodup
    obtain ⟨rfl, hrest⟩ := hl
    have hstep : retargetBody first (some a, t)
        = .inl (t.next a, t.set a { t.entry a with original := some first }) := by
      simp [retargetBody, next]
    have hnext : (t.set a { t.entry a with original := some first }).next = t.next := by
      rw [set_next, update_eq_self_iff]
      rfl
    rw [Loop.run_succ_of_inl hstep, ih (hnext ▸ hrest) (by simpa using hk),
      modify_cons t (nodup_cons.1 hnodup).1]

theorem inUse_of_without (hw : t.Without t' n) (i : ℕ) :
    t'.inUse i = true ↔ i ≠ n ∧ t.inUse i = true := by
  by_cases hin : i = n
  · subst hin
    simp [inUse, hw.self]
  · rw [inUse, hw.flags i hin]
    exact ⟨fun hi => ⟨hin, hi⟩, fun hi => hi.2⟩

theorem of_without (h : t.Aliases) (hw : t.Without t' n)
    (hgroups : LinkedGroups (fun i => i ≠ n ∧ t.inUse i = true) t'.original t'.next) :
    t'.Aliases := by
  constructor
  case vacant =>
    intro i hi
    rw [Bool.eq_false_iff, ne_eq, inUse_of_without hw, not_and, Bool.not_eq_true] at hi
    by_cases hin : i = n
    · rw [hin]
      exact hw.self
    · exact hw.vacant i (hi hin)
  case bound =>
    intro i hi
    rw [hw.numFd]
    exact h.bound i ((inUse_of_without hw i).1 hi).2
  case groups => simpa only [inUse_of_without hw] using hgroups
  case same =>
    intro i o' hi
    obtain ⟨hin, hi'⟩ := hgroups.used_of_rep hi
    obtain ⟨hon, ho'⟩ := hgroups.rep_used hi
    have hroot := (hw.root_iff i o' hin hon).1
      ((root_of_some hi).trans (root_of_none (hgroups.rep_rep hi)).symm)
    obtain ⟨-, -, hfile, hflags⟩ := h.root_spec hi'
    obtain ⟨-, -, hfile', hflags'⟩ := h.root_spec ho'
    rw [hw.file i hin, hw.file o' hon, hw.flags i hin, hw.flags o' hon, hfile, hfile', hflags,
      hflags', hroot]
    exact ⟨rfl, rfl⟩

theorem clear (h : t.Aliases) (hn : t.inUse n = true) (hlone : (t.entry n).isAliased = false) :
    (t.set n {}).Aliases ∧ t.Without (t.set n {}) n := by
  obtain ⟨ho, hnext⟩ := isAliased_eq_false.1 hlone
  have horig : (t.set n {}).original = t.original := by
    rw [set_original, update_eq_self_iff]
    exact ho.symm
  have hnext' : (t.set n {}).next = t.next := by
    rw [set_next, update_eq_self_iff]
    exact hnext.symm
  have hw : t.Without (t.set n {}) n := by
    constructor
    case numFd => rfl
    case self => exact set_entry_self ..
    case file | flags => exact fun i hin => by rw [set_entry_of_ne t hin]
    case vacant =>
      intro i hi
      rw [set_entry_of_ne t (ne_of_inUse hi hn)]
      exact h.vacant i hi
    case original => exact fun i _ hi => by rw [horig, hi]
    case root_iff =>
      intro i j _ _
      rw [root, root, root, root, horig]
  refine ⟨h.of_without hw ?_, hw⟩
  rw [horig, hnext']
  exact h.groups.discard hn ho hnext

/-- Taking an alias off its list: the entry in front of it skips it. -/
theorem removeFdAlias_eq_of_alias {l₁ l₂ : List ℕ} {c : ℕ} (ho : t.original n = some o)
    (hl : Linked t.next (some o) (l₁ ++ c :: n :: l₂))
    (hlen : (l₁ ++ c :: n :: l₂).length ≤ t.numFd) :
    t.removeFdAlias n = some (t.set c { t.entry c with nextAlias := t.next n }) := by
  have ho' : (t.entry n).original = some o := ho
  simp only [FdTable.removeFdAlias, ho']
  apply run_unlinkBody hl
  simp only [length_append] at hlen
  omega

theorem exists_front (h : t.Aliases) (ho : t.original n = some o) :
    ∃ l₁ c l₂, Linked t.next (some o) (l₁ ++ c :: n :: l₂) ∧ c ≠ n ∧
      (∀ i ∈ l₁ ++ c :: n :: l₂, t.inUse i = true) ∧
      (l₁ ++ c :: n :: l₂).length ≤ t.numFd := by
  obtain ⟨l₁, c, l₂, hl, -, hmem⟩ := h.groups.exists_pred ho
  have hused : ∀ i ∈ l₁ ++ c :: n :: l₂, t.inUse i = true := by
    intro i hi
    rcases (hmem i).1 hi with rfl | hi
    · exact h.groups.rep_used ho
    · exact h.groups.used_of_rep hi
  refine ⟨l₁, c, l₂, hl, ?_, hused, h.length_le_numFd hl hused⟩
  rintro rfl
  have hnodup := hl.nodup
  simp [nodup_append] at hnodup

theorem removeFdAlias_of_alias (h : t.Aliases) (ho : t.original n = some o) :
    ∃ t', t.removeFdAlias n = some t' ∧ (t'.set n {}).Aliases ∧ t.Without (t'.set n {}) n := by
  obtain ⟨l₁, c, l₂, hl, hcn, hused, hlen⟩ := h.exists_front ho
  have hnu := h.groups.used_of_rep ho
  refine ⟨_, removeFdAlias_eq_of_alias ho hl hlen, ?_⟩
  generalize ht' : (t.set c { t.entry c with nextAlias := t.next n }).set n {} = t'
  have horig : t'.original = update t.original n none := by
    rw [← ht', set_original, set_original]
    congr 1
    rw [update_eq_self_iff]
    rfl
  have hnext : t'.next = update (update t.next c (t.next n)) n none := by
    rw [← ht', set_next, set_next]
  have hentry : ∀ i, i ≠ n → i ≠ c → t'.entry i = t.entry i := by
    intro i hin hic
    rw [← ht', set_entry_of_ne _ hin, set_entry_of_ne _ hic]
  have hentryc : t'.entry c = { t.entry c with nextAlias := t.next n } := by
    rw [← ht', set_entry_of_ne _ hcn, set_entry_self]
  have hw : t.Without t' n := by
    constructor
    case numFd => rw [← ht']; rfl
    case self => rw [← ht', set_entry_self]
    case file | flags =>
      intro i hin
      by_cases hic : i = c
      · rw [hic, hentryc]
      · rw [hentry i hin hic]
    case vacant =>
      intro i hi
      rw [hentry i (ne_of_inUse hi hnu) (ne_of_inUse hi (hused c (by simp)))]
      exact h.vacant i hi
    case original =>
      intro i hin hi
      rw [horig, update_of_ne hin, hi]
    case root_iff =>
      intro i j hin hjn
      rw [root, root, root, root, horig, update_of_ne hin, update_of_ne hjn]
  refine ⟨h.of_without hw ?_, hw⟩
  rw [horig, hnext]
  exact h.groups.remove ho hl

/-- The original `n` has been cleared, and its first alias `f` holds its state and its list. -/
structure Promoted (t t' : FdTable) (n f : ℕ) : Prop where
  numFd : t'.numFd = t.numFd
  self : t'.entry n = {}
  entry : ∀ i, i ≠ n → t'.entry i =
    if i = f then { t.entry n with nextAlias := t.next f, original := none }
    else if t.original i = some n then { t.entry i with original := some f }
    else t.entry i

section Promotion

variable {f : ℕ} (h : t.Aliases) (hn : t.inUse n = true) (ho : t.original n = none)
  (hf : t.next n = some f)

include h hn ho hf

theorem original_first : t.original f = some n := by
  obtain ⟨l, hl, hmem⟩ := h.groups.list hn ho
  rw [hf] at hl
  obtain ⟨l', rfl, -⟩ := hl.eq_cons_of_some
  exact (hmem f).1 mem_cons_self

theorem first_ne : f ≠ n := by
  rintro rfl
  exact h.groups.rep_ne_self _ (h.original_first hn ho hf)

theorem Promoted.original_eq (hp : Promoted t t' n f) :
    t'.original = fun i =>
      if i = f then none else if t.original i = some n then some f else t.original i := by
  funext i
  by_cases hin : i = n
  · subst hin
    rw [original, hp.self, if_neg (h.first_ne hn ho hf).symm, ho]
    simp
  · rw [original, hp.entry i hin]
    split_ifs <;> rfl

omit h hn ho hf in
theorem Promoted.next_eq (hp : Promoted t t' n f) :
    t'.next = update t.next n none := by
  funext i
  by_cases hin : i = n
  · subst hin
    simp [next, hp.self]
  · rw [next, hp.entry i hin, update_of_ne hin]
    split_ifs with hif
    · rw [hif]
    · rfl
    · rfl

/-- The group of `n` has `f` as its root now. -/
theorem Promoted.root_eq (hp : Promoted t t' n f) {i : ℕ} (hin : i ≠ n) :
    t'.root i = if t.root i = n then f else t.root i := by
  have hfo := h.original_first hn ho hf
  rw [root, hp.original_eq h hn ho hf]
  by_cases hif : i = f
  · simp [hif, root, hfo]
  · cases hi : t.original i with
    | none => simp [root, hi, hin]
    | some j => by_cases hjn : j = n <;> simp [root, hi, hif, hjn]

/-- The other entries keep their state and stay in their groups. -/
theorem Promoted.without (hp : Promoted t t' n f) : t.Without t' n := by
  have hfo := h.original_first hn ho hf
  obtain ⟨hfile, hflags⟩ := h.same f n hfo
  constructor
  case numFd => exact hp.numFd
  case self => exact hp.self
  case file | flags =>
    intro i hin
    rw [hp.entry i hin]
    split_ifs with hif
    · rw [hif]
      exact Eq.symm ‹_›
    · rfl
    · rfl
  case vacant =>
    intro i hi
    have hio : t.original i ≠ some n := by
      rw [h.groups.rep_of_not_used (Bool.eq_false_iff.1 hi)]
      simp
    rw [hp.entry i (ne_of_inUse hi hn), if_neg (ne_of_inUse hi (h.groups.used_of_rep hfo)),
      if_neg hio]
    exact h.vacant i hi
  case original =>
    intro i _ hi
    rw [hp.original_eq h hn ho hf]
    simp [hi]
  case root_iff =>
    -- `f` was the root of no group
    have hne := h.root_ne hfo
    intro i j hin hjn
    rw [hp.root_eq h hn ho hf hin, hp.root_eq h hn ho hf hjn]
    split_ifs with hi hj hj
    · simp [hi, hj]
    · simp [hi, Ne.symm hj, (hne j).symm]
    · simp [hj, hi, hne i]
    · rfl

omit h hn in
/-- Taking the original off its list: the code copies its state into the first alias, and the
loop turns the others to it. -/
theorem removeFdAlias_eq_of_original (hl : Linked t.next (t.next f) l)
    (hlen : l.length ≤ t.numFd) :
    t.removeFdAlias n =
      some ((t.set f { t.entry n with nextAlias := t.next f, original := none }).modify l
        fun fd => { fd with original := some f }) := by
  have hnext : (t.set f { t.entry n with nextAlias := t.next f, original := none }).next
      = t.next := by
    rw [set_next, update_eq_self_iff]
  have ho' : (t.entry n).original = none := ho
  have hf' : (t.entry n).nextAlias = some f := hf
  simp only [FdTable.removeFdAlias, ho', hf']
  apply run_retargetBody
  · show Linked (t.set f { t.entry n with nextAlias := t.next f, original := none }).next _ _
    rw [hnext]
    exact hl
  · exact Nat.lt_succ_of_le hlen

theorem exists_rest :
    ∃ l, Linked t.next (t.next f) l ∧ (∀ i, i ∈ l ↔ i ≠ f ∧ t.original i = some n) ∧
      l.length ≤ t.numFd := by
  obtain ⟨l, hl, hmem⟩ := h.groups.list hn ho
  rw [hf] at hl
  obtain ⟨l', rfl, hl'⟩ := hl.eq_cons_of_some
  have hfl : f ∉ l' := (nodup_cons.1 hl.nodup).1
  have hmem' : ∀ i, i ∈ l' ↔ i ≠ f ∧ t.original i = some n := by
    intro i
    rw [← hmem, mem_cons]
    constructor
    · intro hi
      exact ⟨fun heq => hfl (heq ▸ hi), .inr hi⟩
    · rintro ⟨hif, hi⟩
      exact hi.resolve_left hif
  refine ⟨l', hl', hmem', h.length_le_numFd hl' fun i hi => ?_⟩
  exact h.groups.used_of_rep ((hmem' i).1 hi).2

theorem exists_promoted :
    ∃ t', t.removeFdAlias n = some t' ∧ Promoted t (t'.set n {}) n f := by
  obtain ⟨l, hl, hmem, hlen⟩ := h.exists_rest hn ho hf
  refine ⟨_, removeFdAlias_eq_of_original ho hf hl hlen, rfl, set_entry_self .., ?_⟩
  intro i hin
  rw [set_entry_of_ne _ hin, modify_entry, set_entry]
  simp only [hmem]
  split_ifs with h₁ h₂ h₃ h₄
  all_goals first | rfl | (exfalso; tauto)

theorem removeFdAlias_of_original :
    ∃ t', t.removeFdAlias n = some t' ∧ (t'.set n {}).Aliases ∧ t.Without (t'.set n {}) n := by
  obtain ⟨t', ht', hp⟩ := h.exists_promoted hn ho hf
  have hw := hp.without h hn ho hf
  refine ⟨t', ht', h.of_without hw ?_, hw⟩
  rw [hp.original_eq h hn ho hf, hp.next_eq]
  exact h.groups.promote hn ho hf

end Promotion

/-- **Closing an entry that has aliases** takes it out of its group and leaves the others
together. -/
theorem removeFdAlias (h : t.Aliases) (hn : t.inUse n = true)
    (halias : (t.entry n).isAliased = true) :
    ∃ t', t.removeFdAlias n = some t' ∧ (t'.set n {}).Aliases ∧ t.Without (t'.set n {}) n := by
  rcases alias_or_first halias with ⟨o, ho⟩ | ⟨ho, f, hf⟩
  · exact h.removeFdAlias_of_alias ho
  · exact h.removeFdAlias_of_original hn ho hf

end Aliases

end FdTable

end Clib4
