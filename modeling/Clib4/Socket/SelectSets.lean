import Mathlib.Tactic

/-!
# The descriptor sets of `__select`

The caller's sets name descriptors, which may be sockets or files.  `map_descriptor_sets` splits
each of them into a set of sockets, under their numbers in the network stack, and a set of
descriptors of files.  `remap_descriptor_sets` brings the sets that are left back to the caller's
ones: a socket becomes every descriptor that refers to it.

A set that is `NULL` is the empty one here: the code tests for it before every use.  Nor is there
a bound for the bits: `FD_SETSIZE` may be defined by the user, and the macros do not look at it.

## Main definitions

* `FdSet` — a set of descriptors;
* `Descriptor`, `Table` — what `__select` looks at in the table of descriptors.

## Main results

* `mapAll_spec` — **the sets of sockets and of files after the three calls.**
* `mem_remapDescriptorSets` — **the descriptors in the set that the caller gets.**
-/

namespace Clib4.Socket

open List Function

/-! ### Sets of descriptors -/

/-- An `fd_set`. -/
@[ext]
structure FdSet where
  bits : Finset ℕ
  deriving DecidableEq

namespace FdSet

instance : Membership ℕ FdSet := ⟨fun s i => i ∈ s.bits⟩

instance (s : FdSet) (i : ℕ) : Decidable (i ∈ s) := inferInstanceAs (Decidable (i ∈ s.bits))

theorem mem_def {s : FdSet} {i : ℕ} : i ∈ s ↔ i ∈ s.bits := Iff.rfl

theorem ext_mem {s t : FdSet} (h : ∀ i, i ∈ s ↔ i ∈ t) : s = t := FdSet.ext (Finset.ext h)

/-- A set without bits. -/
def empty : FdSet := ⟨∅⟩

@[simp] theorem not_mem_empty (i : ℕ) : ¬ i ∈ empty := Finset.notMem_empty i

/-- `FD_SET`. -/
def set (s : FdSet) (i : ℕ) : FdSet := ⟨insert i s.bits⟩

theorem mem_set {s : FdSet} {i j : ℕ} : j ∈ s.set i ↔ j = i ∨ j ∈ s := Finset.mem_insert

/-- `FD_CLR`. -/
def clr (s : FdSet) (i : ℕ) : FdSet := ⟨s.bits.erase i⟩

theorem mem_clr {s : FdSet} {i j : ℕ} : j ∈ s.clr i ↔ j ≠ i ∧ j ∈ s := Finset.mem_erase

/-- The bits of the words that hold the first `n` bits: `sizeof(unsigned long) * ((n + 31) / 32)`
bytes. -/
def words (n : ℕ) : ℕ := 32 * ((n + 31) / 32)

theorem le_words (n : ℕ) : n ≤ words n := by
  unfold words
  omega

/-- `zero_fd_set`. -/
def zero (s : FdSet) (n : ℕ) : FdSet := ⟨s.bits.filter (words n ≤ ·)⟩

theorem mem_zero {s : FdSet} {n i : ℕ} : i ∈ s.zero n ↔ i ∈ s ∧ words n ≤ i := Finset.mem_filter

/-- `copy_fd_set`: the words of the first `n` bits come from the other set. -/
def copy (dest other : FdSet) (n : ℕ) : FdSet :=
  ⟨other.bits.filter (· < words n) ∪ dest.bits.filter (words n ≤ ·)⟩

/-- If both sets have only the first `n` bits, the copy is the other set. -/
theorem copy_eq {dest other : FdSet} {n : ℕ} (hdest : ∀ i ∈ dest, i < n)
    (hother : ∀ i ∈ other, i < n) : dest.copy other n = other := by
  apply ext_mem
  intro i
  have hle := le_words n
  rw [mem_def, copy, Finset.mem_union, Finset.mem_filter, Finset.mem_filter]
  constructor
  · rintro (h | h)
    · exact h.1
    · exact absurd (hdest i h.1) (by omega)
  · intro h
    exact .inl ⟨h, (hother i h).trans_le hle⟩

/-- The bits that are set in both. -/
def restrict (s t : FdSet) : FdSet := ⟨s.bits.filter (· ∈ t)⟩

theorem mem_restrict {s t : FdSet} {i : ℕ} : i ∈ s.restrict t ↔ i ∈ s ∧ i ∈ t :=
  Finset.mem_filter

/-- The number of bits. -/
def card (s : FdSet) : ℕ := s.bits.card

theorem mem_foldl_set {p : ℕ → Prop} [DecidablePred p] {i : ℕ} (l : List ℕ) (s : FdSet) :
    i ∈ l.foldl (fun s j => if p j then s.set j else s) s ↔ i ∈ s ∨ (i ∈ l ∧ p i) := by
  induction l generalizing s with
  | nil => simp
  | cons j l ih =>
    rw [foldl_cons, ih, mem_cons]
    by_cases hj : p j
    · rw [if_pos hj, mem_set]
      constructor
      · rintro ((rfl | h) | h)
        · exact .inr ⟨.inl rfl, hj⟩
        · exact .inl h
        · exact .inr ⟨.inr h.1, h.2⟩
      · rintro (h | ⟨rfl | h, hp⟩)
        · exact .inl (.inr h)
        · exact .inl (.inl rfl)
        · exact .inr ⟨h, hp⟩
    · rw [if_neg hj]
      constructor
      · rintro (h | h)
        · exact .inl h
        · exact .inr ⟨.inr h.1, h.2⟩
      · rintro (h | ⟨rfl | h, hp⟩)
        · exact .inl h
        · exact absurd hp hj
        · exact .inr ⟨h, hp⟩

end FdSet

/-! ### The table of descriptors -/

/-- The three sets. -/
inductive Kind
  | read
  | write
  | except
  deriving DecidableEq, Repr

instance : Fintype Kind := ⟨{.read, .write, .except}, by rintro (_ | _ | _) <;> decide⟩

/-- The flags and fields of a `struct fd` that `__select` looks at: those of `fd_Flags`,
`fd_Socket`, `fd_File` and `fd_Position`. -/
structure Descriptor where
  read : Bool := false
  write : Bool := false
  nonBlocking : Bool := false
  isSocket : Bool := false
  cachePosition : Bool := false
  isInteractive : Bool := false
  stdio : Bool := false
  termios : Bool := false
  poll : Bool := false
  stdinAsSocket : Bool := false
  socket : ℕ := 0
  file : ℕ := 0
  position : ℤ := 0

/-- The table as `get_file_descriptor` shows it: the descriptors that are in use. -/
abbrev Table := ℕ → Option Descriptor

def stdinFileno : ℕ := 0

namespace Descriptor

/-- The flags that standard input gets. -/
def markStdin (fd : Descriptor) : Descriptor :=
  { fd with nonBlocking := true, stdinAsSocket := true }

/-- An interactive or polled stream, or a file that can be examined and is a pipe unless its
position is cached.  The answer of `ExamineObjectTags` says whether the file is a pipe. -/
def isWatched (fd : Descriptor) (examined : Option Bool) : Bool :=
  fd.isInteractive || fd.poll ||
    match examined with
    | none => false
    | some pipe => fd.cachePosition || pipe

/-- A standard stream that is redirected. -/
def isRedirected (fd : Descriptor) : Bool := fd.stdio && !fd.isInteractive

end Descriptor

/-- The descriptor refers to the socket. -/
def IsSocket (t : Table) (i s : ℕ) : Prop :=
  ∃ fd, t i = some fd ∧ fd.isSocket = true ∧ fd.socket = s

instance (t : Table) (i s : ℕ) : Decidable (IsSocket t i s) :=
  match h : t i with
  | none => isFalse (by rintro ⟨fd, hfd, -⟩; rw [h] at hfd; cases hfd)
  | some fd =>
    if hs : fd.isSocket = true ∧ fd.socket = s then isTrue ⟨fd, h, hs⟩
    else isFalse (by rintro ⟨fd', hfd, hs'⟩; rw [h] at hfd; cases hfd; exact hs hs')

/-- The descriptor refers to a file. -/
def IsFile (t : Table) (i : ℕ) : Prop := ∃ fd, t i = some fd ∧ fd.isSocket = false

theorem IsSocket.not_isFile {t : Table} {i s : ℕ} (h : IsSocket t i s) : ¬ IsFile t i := by
  rintro ⟨fd, hfd, hfile⟩
  obtain ⟨fd', hfd', hsocket, -⟩ := h
  rw [hfd] at hfd'
  cases hfd'
  rw [hfile] at hsocket
  cases hsocket

theorem IsSocket.unique {t : Table} {i s s' : ℕ} (h : IsSocket t i s) (h' : IsSocket t i s') :
    s = s' := by
  obtain ⟨fd, hfd, -, rfl⟩ := h
  obtain ⟨fd', hfd', -, rfl⟩ := h'
  rw [hfd] at hfd'
  cases hfd'
  rfl

/-- A bound is raised above a number. -/
def raise (bound i : ℕ) : ℕ := if bound < i + 1 then i + 1 else bound

theorem le_raise (bound i : ℕ) : bound ≤ raise bound i := by
  unfold raise
  split <;> omega

theorem lt_raise (bound i : ℕ) : i < raise bound i := by
  unfold raise
  split <;> omega

/-- One round of the loop of `get_num_descriptors_used`. -/
def countDescriptor (t : Table) (used : ℕ × ℕ) (i : ℕ) : ℕ × ℕ :=
  match t i with
  | none => used
  | some fd =>
    if fd.isSocket then (raise used.1 fd.socket, used.2) else (used.1, raise used.2 i)

/-- `get_num_descriptors_used`: bounds for the sockets and for the descriptors of files. -/
def getNumDescriptorsUsed (t : Table) (numFds : ℕ) : ℕ × ℕ :=
  (List.range numFds).foldl (countDescriptor t) (0, 0)

theorem le_countDescriptor (t : Table) (used : ℕ × ℕ) (i : ℕ) :
    used.1 ≤ (countDescriptor t used i).1 ∧ used.2 ≤ (countDescriptor t used i).2 := by
  unfold countDescriptor
  split
  · exact ⟨le_rfl, le_rfl⟩
  · split
    · exact ⟨le_raise _ _, le_rfl⟩
    · exact ⟨le_rfl, le_raise _ _⟩

/-- The bounds cover the descriptors below `num_fds`. -/
theorem getNumDescriptorsUsed_spec (t : Table) (numFds : ℕ) :
    (∀ i < numFds, ∀ s, IsSocket t i s → s < (getNumDescriptorsUsed t numFds).1) ∧
      ∀ i < numFds, IsFile t i → i < (getNumDescriptorsUsed t numFds).2 := by
  induction numFds with
  | zero => simp
  | succ n ih =>
    have hstep : getNumDescriptorsUsed t (n + 1) =
        countDescriptor t (getNumDescriptorsUsed t n) n := by
      rw [getNumDescriptorsUsed, range_succ, foldl_append]
      rfl
    obtain ⟨hle₁, hle₂⟩ := le_countDescriptor t (getNumDescriptorsUsed t n) n
    rw [hstep]
    constructor
    · intro i hi s hs
      obtain hlt | rfl := Nat.lt_succ_iff_lt_or_eq.1 hi
      · exact (ih.1 i hlt s hs).trans_le hle₁
      · obtain ⟨fd, hfd, hsocket, rfl⟩ := hs
        simp only [countDescriptor, hfd, hsocket]
        exact lt_raise _ _
    · intro i hi hfile
      obtain hlt | rfl := Nat.lt_succ_iff_lt_or_eq.1 hi
      · exact (ih.2 i hlt hfile).trans_le hle₂
      · obtain ⟨fd, hfd, hfile⟩ := hfile
        simp only [countDescriptor, hfd, hfile]
        exact lt_raise _ _

/-! ### From the caller's sets to sockets and files -/

/-- The variables that `map_descriptor_sets` changes: the flags in the table, the sets, and the
bounds for their bits. -/
structure Mapping where
  table : Table
  sockets : Kind → FdSet := fun _ => .empty
  totalSocket : ℕ := 0
  files : Kind → FdSet := fun _ => .empty
  totalFile : ℕ := 0

namespace Mapping

/-- The socket is watched. -/
def addSocket (m : Mapping) (k : Kind) (s : ℕ) : Mapping :=
  { m with
    sockets := update m.sockets k ((m.sockets k).set s)
    totalSocket := raise m.totalSocket s }

/-- The file is watched. -/
def addFile (m : Mapping) (k : Kind) (i : ℕ) : Mapping :=
  { m with
    files := update m.files k ((m.files k).set i)
    totalFile := raise m.totalFile i }

/-- The flags of a descriptor of standard input. -/
def mark (m : Mapping) (i : ℕ) (fd : Descriptor) : Mapping :=
  if fd.file = stdinFileno then { m with table := update m.table i (some fd.markStdin) }
  else m

end Mapping

/-- One round of the loop of `map_descriptor_sets`. -/
def mapDescriptor (input : FdSet) (examined : ℕ → Option Bool) (k : Kind) (numSocket numFile : ℕ)
    (m : Mapping) (i : ℕ) : Mapping :=
  if i ∉ input then m
  else
    match m.table i with
    | none => m
    | some fd =>
      if fd.isSocket then
        if fd.socket < numSocket then m.addSocket k fd.socket else m
      else if fd.isRedirected then m
      else if fd.isWatched (examined i) ∧ i < numFile then (m.mark i fd).addFile k i
      else m.mark i fd

def mapDescriptorSets (input : FdSet) (numInput : ℕ) (examined : ℕ → Option Bool) (k : Kind)
    (numSocket numFile : ℕ) (m : Mapping) : Mapping :=
  (List.range numInput).foldl (mapDescriptor input examined k numSocket numFile) m

/-- The three calls of `map_descriptor_sets`; there is no set of files for exceptions. -/
def mapAll (t : Table) (numFds : ℕ) (request : Kind → FdSet) (examined : Kind → ℕ → Option Bool) :
    Mapping :=
  let used := getNumDescriptorsUsed t numFds
  let m : Mapping := { table := t }
  let m := mapDescriptorSets (request .read) numFds (examined .read) .read used.1 used.2 m
  let m := mapDescriptorSets (request .write) numFds (examined .write) .write used.1 used.2 m
  mapDescriptorSets (request .except) numFds (examined .except) .except used.1 0 m

section Mapped

variable (t : Table) (request : Kind → FdSet) (examined : Kind → ℕ → Option Bool)

/-- The caller asks for a socket. -/
def Asks (k : Kind) (i s : ℕ) : Prop := i ∈ request k ∧ IsSocket t i s

/-- The caller asks for a file that can be watched. -/
def Watches (k : Kind) (i : ℕ) : Prop :=
  i ∈ request k ∧ k ≠ .except ∧ ∃ fd, t i = some fd ∧ fd.isSocket = false ∧
    fd.isRedirected = false ∧ fd.isWatched (examined k i) = true

/-- The mapping after the descriptors `visited` of the sets. -/
structure Mapped (visited : Kind → ℕ → Prop) (m : Mapping) : Prop where
  table : ∀ i, m.table i = t i ∨ m.table i = (t i).map Descriptor.markStdin
  sockets : ∀ k s, s ∈ m.sockets k ↔ ∃ i, visited k i ∧ Asks t request k i s
  lt_totalSocket : ∀ k s, s ∈ m.sockets k → s < m.totalSocket
  totalSocket : 0 < m.totalSocket ↔ ∃ k i s, visited k i ∧ Asks t request k i s
  files : ∀ k i, i ∈ m.files k ↔ visited k i ∧ Watches t request examined k i
  lt_totalFile : ∀ k i, i ∈ m.files k → i < m.totalFile
  totalFile : 0 < m.totalFile ↔ ∃ k i, i ∈ m.files k

variable {t request examined} {visited : Kind → ℕ → Prop} {m : Mapping} {k : Kind} {i s : ℕ}

/-- The descriptor is visited. -/
def Visit (visited : Kind → ℕ → Prop) (k : Kind) (i : ℕ) : Kind → ℕ → Prop :=
  fun k' j => visited k' j ∨ (k' = k ∧ j = i)

theorem exists_visit {k' : Kind} {P : ℕ → Prop} :
    (∃ j, Visit visited k i k' j ∧ P j) ↔ (∃ j, visited k' j ∧ P j) ∨ (k' = k ∧ P i) := by
  constructor
  · rintro ⟨j, hj | ⟨rfl, rfl⟩, hP⟩
    · exact .inl ⟨j, hj, hP⟩
    · exact .inr ⟨rfl, hP⟩
  · rintro (⟨j, hj, hP⟩ | ⟨rfl, hP⟩)
    · exact ⟨j, .inl hj, hP⟩
    · exact ⟨i, .inr ⟨rfl, rfl⟩, hP⟩

section

variable (h : Mapped t request examined visited m)

include h

theorem Mapped.sockets_visit (hask : ∀ s, ¬ Asks t request k i s) (k' : Kind) (s : ℕ) :
    s ∈ m.sockets k' ↔ ∃ j, Visit visited k i k' j ∧ Asks t request k' j s := by
  rw [h.sockets, exists_visit, or_iff_left]
  rintro ⟨rfl, ha⟩
  exact hask s ha

theorem Mapped.totalSocket_visit (hask : ∀ s, ¬ Asks t request k i s) :
    0 < m.totalSocket ↔ ∃ k' j s, Visit visited k i k' j ∧ Asks t request k' j s := by
  rw [h.totalSocket]
  constructor
  · rintro ⟨k', j, s, hj, ha⟩
    exact ⟨k', j, s, .inl hj, ha⟩
  · rintro ⟨k', j, s, hj | ⟨rfl, rfl⟩, ha⟩
    · exact ⟨k', j, s, hj, ha⟩
    · exact absurd ha (hask s)

theorem Mapped.files_visit (hwatch : ¬ Watches t request examined k i) (k' : Kind) (j : ℕ) :
    j ∈ m.files k' ↔ Visit visited k i k' j ∧ Watches t request examined k' j := by
  rw [h.files]
  constructor
  · rintro ⟨hj, hw⟩
    exact ⟨.inl hj, hw⟩
  · rintro ⟨hj | ⟨rfl, rfl⟩, hw⟩
    · exact ⟨hj, hw⟩
    · exact absurd hw hwatch

theorem Mapped.skip (hask : ∀ s, ¬ Asks t request k i s)
    (hwatch : ¬ Watches t request examined k i) :
    Mapped t request examined (Visit visited k i) m :=
  { h with
    sockets := h.sockets_visit hask
    totalSocket := h.totalSocket_visit hask
    files := h.files_visit hwatch }

end

theorem Asks.not_watches (h : Asks t request k i s) : ¬ Watches t request examined k i := by
  rintro ⟨-, -, fd, hfd, hfile, -⟩
  exact h.2.not_isFile ⟨fd, hfd, hfile⟩

/-- What is set stays below the bound, which is raised for it. -/
theorem lt_raise_of_mem {sets : Kind → FdSet} {bound j : ℕ} {k' : Kind}
    (hlt : ∀ k s, s ∈ sets k → s < bound) (hj : j ∈ update sets k ((sets k).set i) k') :
    j < raise bound i := by
  have hold : j ∈ sets k' → j < raise bound i := fun h => (hlt k' j h).trans_le (le_raise _ _)
  rw [update_apply] at hj
  split_ifs at hj with hk
  · subst hk
    rw [FdSet.mem_set] at hj
    obtain rfl | hj := hj
    · exact lt_raise _ _
    · exact hold hj
  · exact hold hj

section

variable (h : Mapped t request examined visited m)

include h

theorem Mapped.addSocket (ha : Asks t request k i s) :
    Mapped t request examined (Visit visited k i) (m.addSocket k s) where
  table := h.table
  sockets k' s' := by
    show s' ∈ update m.sockets k _ k' ↔ _
    rw [exists_visit, update_apply]
    split_ifs with hk
    · subst hk
      rw [FdSet.mem_set, h.sockets]
      constructor
      · rintro (rfl | hold)
        · exact .inr ⟨rfl, ha⟩
        · exact .inl hold
      · rintro (hold | ⟨-, ha'⟩)
        · exact .inr hold
        · exact .inl (ha'.2.unique ha.2)
    · rw [h.sockets, or_iff_left fun h' => hk h'.1]
  lt_totalSocket _ _ := lt_raise_of_mem h.lt_totalSocket
  totalSocket :=
    ⟨fun _ => ⟨k, i, s, .inr ⟨rfl, rfl⟩, ha⟩, fun _ => Nat.zero_lt_of_lt (lt_raise _ _)⟩
  files := h.files_visit ha.not_watches
  lt_totalFile := h.lt_totalFile
  totalFile := h.totalFile

theorem Mapped.addFile (hw : Watches t request examined k i) :
    Mapped t request examined (Visit visited k i) (m.addFile k i) where
  table := h.table
  sockets := h.sockets_visit fun _ ha => ha.not_watches hw
  lt_totalSocket := h.lt_totalSocket
  totalSocket := h.totalSocket_visit fun _ ha => ha.not_watches hw
  files k' j := by
    show j ∈ update m.files k _ k' ↔ _
    rw [update_apply]
    split_ifs with hk
    · subst hk
      rw [FdSet.mem_set, h.files]
      constructor
      · rintro (rfl | ⟨hj, hw'⟩)
        · exact ⟨.inr ⟨rfl, rfl⟩, hw⟩
        · exact ⟨.inl hj, hw'⟩
      · rintro ⟨hj | ⟨-, rfl⟩, hw'⟩
        · exact .inr ⟨hj, hw'⟩
        · exact .inl rfl
    · rw [h.files, Visit, or_iff_left fun h' => hk h'.1]
  lt_totalFile _ _ := lt_raise_of_mem h.lt_totalFile
  totalFile := by
    refine ⟨fun _ => ⟨k, i, ?_⟩, fun _ => Nat.zero_lt_of_lt (lt_raise _ _)⟩
    show i ∈ update m.files k _ k
    rw [update_self, FdSet.mem_set]
    exact .inl rfl

/-- The flags of standard input do not change what is watched. -/
theorem Mapped.mark {fd : Descriptor}
    (hfd : m.table i = some fd) : Mapped t request examined visited (m.mark i fd) := by
  unfold Mapping.mark
  split
  · refine { h with table := fun j => ?_ }
    show update m.table i _ j = _ ∨ update m.table i _ j = _
    rw [update_apply]
    split_ifs with hj
    · subst hj
      right
      obtain htable | htable := h.table j
      · rw [← htable, hfd]
        rfl
      · -- it is marked already
        rw [hfd] at htable
        obtain ⟨fd', hfd', rfl⟩ := Option.map_eq_some_iff.1 htable.symm
        rw [hfd']
        rfl
    · exact h.table j
  · exact h

/-- What the table shows of a descriptor is not changed by the flags of standard input. -/
theorem Mapped.lookup {fd : Descriptor} (hfd : m.table i = some fd) :
    ∃ fd', t i = some fd' ∧ (fd = fd' ∨ fd = fd'.markStdin) := by
  obtain htable | htable := h.table i
  · exact ⟨fd, by rw [← htable, hfd], .inl rfl⟩
  · rw [hfd] at htable
    obtain ⟨fd', hfd', rfl⟩ := Option.map_eq_some_iff.1 htable.symm
    exact ⟨fd', hfd', .inr rfl⟩

/-- **One round.** -/
theorem Mapped.step {numSocket numFile : ℕ} (hsocket : ∀ s, IsSocket t i s → s < numSocket)
    (hfile : k ≠ .except → IsFile t i → i < numFile) (hexcept : k = .except → numFile = 0) :
    Mapped t request examined (Visit visited k i)
      (mapDescriptor (request k) (examined k) k numSocket numFile m i) := by
  unfold mapDescriptor
  split
  · next hi => exact h.skip (fun s ha => hi ha.1) (fun hw => hi hw.1)
  next hi =>
  rw [not_not] at hi
  split
  · next hnone =>
    have hnone' : t i = none := by
      obtain htable | htable := h.table i
      · rw [← htable, hnone]
      · exact Option.map_eq_none_iff.1 (htable ▸ hnone)
    refine h.skip ?_ ?_
    · rintro s ⟨-, fd, hfd, -⟩
      rw [hnone'] at hfd
      cases hfd
    · rintro ⟨-, -, fd, hfd, -⟩
      rw [hnone'] at hfd
      cases hfd
  next fd hfd =>
  obtain ⟨fd', hfd', hsame⟩ := h.lookup hfd
  have hflags : fd.isSocket = fd'.isSocket ∧ fd.socket = fd'.socket ∧
      fd.isRedirected = fd'.isRedirected ∧
      fd.isWatched (examined k i) = fd'.isWatched (examined k i) := by
    obtain rfl | rfl := hsame <;> exact ⟨rfl, rfl, rfl, rfl⟩
  obtain ⟨hsock, hnum, hred, hwatched⟩ := hflags
  rw [hsock, hnum, hred, hwatched]
  split
  · next his =>
    have hask : Asks t request k i fd'.socket := ⟨hi, fd', hfd', his, rfl⟩
    rw [if_pos (hsocket _ hask.2)]
    exact h.addSocket hask
  next his =>
  rw [Bool.not_eq_true] at his
  have hnotask : ∀ s, ¬ Asks t request k i s := fun s ha => ha.2.not_isFile ⟨fd', hfd', his⟩
  split
  · next hredir =>
    refine h.skip hnotask ?_
    rintro ⟨-, -, fd'', hfd'', -, hnot, -⟩
    rw [hfd'] at hfd''
    cases hfd''
    rw [hredir] at hnot
    cases hnot
  next hredir =>
  rw [Bool.not_eq_true] at hredir
  split
  · next hw =>
    refine (h.mark hfd).addFile ⟨hi, ?_, fd', hfd', his, hredir, hw.1⟩
    rintro rfl
    exact absurd hw.2 (by rw [hexcept rfl]; omega)
  · next hw =>
    refine (h.mark hfd).skip hnotask ?_
    rintro ⟨-, hk, fd'', hfd'', -, -, hwatch⟩
    rw [hfd'] at hfd''
    cases hfd''
    exact hw ⟨hwatch, hfile hk ⟨fd', hfd', his⟩⟩

end

theorem Mapped.congr {visited' : Kind → ℕ → Prop} (h : Mapped t request examined visited m)
    (hiff : ∀ k i, visited k i ↔ visited' k i) : Mapped t request examined visited' m := by
  obtain rfl : visited = visited' := funext fun k => funext fun i => propext (hiff k i)
  exact h

theorem Mapped.foldl {numSocket : ℕ} (numFile : ℕ) (hexcept : k = .except → numFile = 0)
    (l : List ℕ)
    (hsocket : ∀ i ∈ l, ∀ s, IsSocket t i s → s < numSocket)
    (hfile : ∀ i ∈ l, k ≠ .except → IsFile t i → i < numFile)
    (h : Mapped t request examined visited m) :
    Mapped t request examined (fun k' j => visited k' j ∨ (k' = k ∧ j ∈ l))
      (l.foldl (mapDescriptor (request k) (examined k) k numSocket numFile) m) := by
  induction l generalizing m visited with
  | nil => exact h.congr fun k i => by simp
  | cons i l ih =>
    have hstep := h.step (hsocket i mem_cons_self) (hfile i mem_cons_self) hexcept
    refine (ih (fun j hj => hsocket j (mem_cons_of_mem _ hj))
      (fun j hj => hfile j (mem_cons_of_mem _ hj)) hstep).congr fun k' j => ?_
    rw [Visit, mem_cons, or_assoc, ← and_or_left]

/-- **The sets of sockets and of files after the three calls.** -/
theorem mapAll_spec (t : Table) (numFds : ℕ) (request : Kind → FdSet)
    (examined : Kind → ℕ → Option Bool) :
    Mapped t request examined (fun _ i => i < numFds) (mapAll t numFds request examined) := by
  obtain ⟨hsocket, hfile⟩ := getNumDescriptorsUsed_spec t numFds
  have hsocket' : ∀ i ∈ List.range numFds, ∀ s, IsSocket t i s →
      s < (getNumDescriptorsUsed t numFds).1 := fun i hi => hsocket i (mem_range.1 hi)
  have hfile' : ∀ i ∈ List.range numFds, IsFile t i → i < (getNumDescriptorsUsed t numFds).2 :=
    fun i hi => hfile i (mem_range.1 hi)
  have hinit : Mapped t request examined (fun _ _ => False) { table := t } :=
    { table := fun i => .inl rfl
      sockets := fun k s => by simp
      lt_totalSocket := fun k s hs => absurd hs (FdSet.not_mem_empty s)
      totalSocket := by simp
      files := fun k i => by simp
      lt_totalFile := fun k i hi => absurd hi (FdSet.not_mem_empty i)
      totalFile := by simp }
  have hread := hinit.foldl (k := .read) _ (fun h => by cases h) (List.range numFds) hsocket'
    fun i hi _ => hfile' i hi
  have hwrite := hread.foldl (k := .write) _ (fun h => by cases h) (List.range numFds) hsocket'
    fun i hi _ => hfile' i hi
  have hexcept := hwrite.foldl (k := .except) 0 (fun _ => rfl) (List.range numFds)
    hsocket' fun i _ hk => absurd rfl hk
  refine hexcept.congr fun k i => ?_
  cases k <;> simp

end Mapped

/-! ### From sockets and files to the caller's sets -/

/-- The descriptors of a socket are set: the inner loop of `remap_descriptor_sets`. -/
def remapSocket (t : Table) (numOutput : ℕ) (output : FdSet) (s : ℕ) : FdSet :=
  (List.range numOutput).foldl (fun out i => if IsSocket t i s then out.set i else out) output

def remapDescriptorSets (t : Table) (sockets : FdSet) (numSocket : ℕ) (files : FdSet)
    (numFile : ℕ) (output : FdSet) (numOutput : ℕ) : FdSet :=
  if 0 < numOutput then
    let output := output.zero numOutput
    let output := (List.range numSocket).foldl
      (fun out s => if s ∈ sockets then remapSocket t numOutput out s else out) output
    (List.range numFile).foldl (fun out i => if i ∈ files then out.set i else out) output
  else output

theorem mem_foldl_remapSocket {t : Table} {sockets : FdSet} {numOutput i : ℕ} (l : List ℕ)
    (output : FdSet) :
    i ∈ l.foldl (fun out s => if s ∈ sockets then remapSocket t numOutput out s else out) output ↔
      i ∈ output ∨ ∃ s ∈ l, s ∈ sockets ∧ i < numOutput ∧ IsSocket t i s := by
  induction l generalizing output with
  | nil => simp
  | cons s l ih =>
    rw [foldl_cons, ih]
    simp only [mem_cons, exists_eq_or_imp]
    by_cases hs : s ∈ sockets
    · rw [if_pos hs, remapSocket, FdSet.mem_foldl_set, mem_range]
      simp only [hs, true_and, or_assoc]
    · rw [if_neg hs]
      simp only [hs, false_and, false_or]

/-- **The descriptors in the set that the caller gets**: those of the sockets, and the files. -/
theorem mem_remapDescriptorSets {t : Table} {sockets files output : FdSet}
    {numSocket numFile numOutput i : ℕ} (hsockets : ∀ s ∈ sockets, s < numSocket)
    (hfiles : ∀ i ∈ files, i < numFile) (hi : i < numOutput) :
    i ∈ remapDescriptorSets t sockets numSocket files numFile output numOutput ↔
      (∃ s ∈ sockets, IsSocket t i s) ∨ i ∈ files := by
  have hnot : ¬ i ∈ output.zero numOutput := by
    rw [FdSet.mem_zero]
    have := FdSet.le_words numOutput
    omega
  rw [remapDescriptorSets, if_pos (by omega), FdSet.mem_foldl_set, mem_foldl_remapSocket]
  simp only [hnot, false_or, mem_range]
  refine or_congr ⟨?_, ?_⟩ ⟨fun h => h.2, fun h => ⟨hfiles i h, h⟩⟩
  · rintro ⟨s, -, hs, -, hsocket⟩
    exact ⟨s, hs, hsocket⟩
  · rintro ⟨s, hs, hsocket⟩
    exact ⟨s, hsockets s hs, hs, hi, hsocket⟩

theorem mem_of_mem_remapDescriptorSets {t : Table} {sockets files output : FdSet}
    {numSocket numFile numOutput i : ℕ}
    (h : i ∈ remapDescriptorSets t sockets numSocket files numFile output numOutput)
    (hfiles : ∀ i ∈ files, i < numOutput) (hi : numOutput ≤ i) : i ∈ output := by
  unfold remapDescriptorSets at h
  split at h
  · rw [FdSet.mem_foldl_set, mem_foldl_remapSocket, FdSet.mem_zero] at h
    obtain (h | ⟨s, -, -, hlt, -⟩) | ⟨-, hfile⟩ := h
    · exact h.1
    · omega
    · exact absurd (hfiles i hfile) (by omega)
  · exact h

end Clib4.Socket
