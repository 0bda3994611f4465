import Clib4.Socket.Select

/-!
# What `__select` reports

The result sets should have the descriptors of the caller's sets that are ready, and the result
their number.  Four things go wrong.  A socket that is ready is brought back as every descriptor
that refers to it, also if it was not asked for, and counts once.  A file that is ready for reading
and for writing counts once.  Beside sockets the files are not looked at if the timeout is zero, and
their bits are left as they were asked for.  The same happens if the caller has a signal mask and
`WaitSelect` reports nothing.

## Main definitions

* `Exact` — the result sets are what they should be.
* `Call.Clean` — none of this happens in a pass.

## Main results

* `select_exact_iff` — **the result sets are right if and only if every pass is clean.**
-/

namespace Clib4.Socket

/-! ### What the result sets should be -/

/-- The bits that `__select` has looked at are right: they were asked for, a file has been tested
ready in the last pass, a socket has been reported, and the result is their number. -/
structure Exact (c : Call) (o : Outcome) : Prop where
  subset : ∀ k i, i ∈ o.sets k → i ∈ c.request k
  file : ∀ k, ∀ i < c.numFds, i ∈ o.sets k → IsFile c.table i → o.tested k i = true
  socket : ∀ k, ∀ i < c.numFds, i ∈ o.sets k → ∀ s, IsSocket c.table i s → s ∈ o.reported k
  count : o.result = ∑ k, ((o.sets k).bits.filter (· < c.numFds)).card

/-- `WaitSelect` answers that the socket is ready. -/
def Pass.Reports (p : Pass) (k : Kind) (s : ℕ) : Prop :=
  ∃ answer, p.waitSelect = .ready answer ∧ s ∈ answer k

namespace Call

variable (c : Call) (p : Pass)

/-- The caller asks for the socket. -/
def Asked (k : Kind) (s : ℕ) : Prop := ∃ i < c.numFds, Asks c.table c.request k i s

def WatchesSockets : Prop := ∃ k s, c.Asked k s

def WatchesFiles : Prop := ∃ k, ∃ i < c.numFds, Watches c.table c.request c.examined k i

/-- The tests of the files. -/
def test : Descriptor → ℕ → Kind → Bool :=
  if 0 < c.mapping.totalSocket then p.testBoth else p.testFiles

/-- The file is tested ready in the pass. -/
def TestedReady (k : Kind) (i : ℕ) : Prop := ready c.mapping.table (c.test p) c.mapping.files k i

/-- The files are looked at, if there are any: beside sockets there is time for it, and no caller
with a signal mask to whom it is enough that `WaitSelect` reports nothing. -/
def LooksAtFiles : Prop :=
  c.WatchesSockets → c.WatchesFiles →
    (c.timeout.isNone ∨ c.hasTime) ∧
      (c.signalMask.isSome → ∃ k s, c.Asked k s ∧ p.Reports k s)

/-- What a pass must not find: a socket that is reported and has two descriptors, a file that is
ready both ways, or a reason not to look at the files. -/
structure Clean : Prop where
  single : ∀ k s, c.Asked k s → p.Reports k s → ∀ i < c.numFds, ∀ j < c.numFds,
    IsSocket c.table i s → IsSocket c.table j s → i = j
  oneWay : ∀ i, ¬ (c.TestedReady p .read i ∧ c.TestedReady p .write i)
  looks : c.LooksAtFiles p

end Call

/-! ### The end of the passes -/

section Endings

variable {c : Call} {p : Pass} {e : Ending}

theorem Call.mapped (c : Call) :
    Mapped c.table c.request c.examined (fun _ i => i < c.numFds) c.mapping :=
  mapAll_spec c.table c.numFds c.request c.examined

variable {k : Kind} {i : ℕ}

theorem Call.mem_sockets {s : ℕ} :
    s ∈ c.mapping.sockets k ↔ c.Asked k s := c.mapped.sockets k s

theorem Call.totalSocket_pos : 0 < c.mapping.totalSocket ↔ c.WatchesSockets := by
  rw [c.mapped.totalSocket]
  constructor
  · rintro ⟨k, i, s, hi, ha⟩
    exact ⟨k, s, i, hi, ha⟩
  · rintro ⟨k, s, i, hi, ha⟩
    exact ⟨k, i, s, hi, ha⟩

theorem Call.totalFile_pos : 0 < c.mapping.totalFile ↔ c.WatchesFiles := by
  rw [c.mapped.totalFile]
  constructor
  · rintro ⟨k, i, hi⟩
    obtain ⟨hlt, hw⟩ := (c.mapped.files k i).1 hi
    exact ⟨k, i, hlt, hw⟩
  · rintro ⟨k, i, hlt, hw⟩
    exact ⟨k, i, (c.mapped.files k i).2 ⟨hlt, hw⟩⟩

theorem Call.isSocket_mapping (c : Call) (i s : ℕ) :
    IsSocket c.mapping.table i s ↔ IsSocket c.table i s := by
  obtain h | h := c.mapped.table i
  · rw [IsSocket, IsSocket, h]
  · rw [IsSocket, h]
    simp only [Option.map_eq_some_iff]
    constructor
    · rintro ⟨_, ⟨fd, hfd, rfl⟩, hs⟩
      exact ⟨fd, hfd, hs⟩
    · rintro ⟨fd, hfd, hs⟩
      exact ⟨_, ⟨fd, hfd, rfl⟩, hs⟩

theorem Call.not_mem_files_except (c : Call) (i : ℕ) : ¬ i ∈ c.mapping.files .except :=
  fun h => ((c.mapped.files _ i).1 h).2.2.1 rfl

/-- The sets at the end are parts of those that are watched. -/
structure Ending.Below (c : Call) (e : Ending) : Prop where
  sockets : ∀ k s, s ∈ e.sockets k → s ∈ c.mapping.sockets k
  files : ∀ k i, i ∈ e.files k → i ∈ c.mapping.files k

/-- The descriptors that refer to the sockets of the set. -/
def owners (c : Call) (e : Ending) (k : Kind) : Finset ℕ :=
  (Finset.range c.numFds).filter fun i => ∃ s ∈ (e.sockets k).bits, IsSocket c.table i s

/-- The socket of a descriptor. -/
def socketOf (t : Table) (i : ℕ) : ℕ :=
  match t i with
  | none => 0
  | some fd => fd.socket

theorem IsSocket.socketOf_eq {t : Table} {s : ℕ} (h : IsSocket t i s) : socketOf t i = s := by
  obtain ⟨fd, hfd, -, rfl⟩ := h
  rw [socketOf, hfd]

theorem mem_owners : i ∈ owners c e k ↔
      i < c.numFds ∧ ∃ s ∈ e.sockets k, IsSocket c.table i s := by
  rw [owners, Finset.mem_filter, Finset.mem_range]
  rfl

/-- Every socket of the set has a descriptor: the one that was asked for. -/
theorem Ending.Below.image_owners (h : e.Below c) (k : Kind) :
    (owners c e k).image (socketOf c.table) = (e.sockets k).bits := by
  ext s
  rw [Finset.mem_image]
  constructor
  · rintro ⟨i, hi, rfl⟩
    obtain ⟨-, s, hs, hsocket⟩ := mem_owners.1 hi
    rw [hsocket.socketOf_eq]
    exact hs
  · intro hs
    obtain ⟨i, hi, hask⟩ := Call.mem_sockets.1 (h.sockets k s hs)
    exact ⟨i, mem_owners.2 ⟨hi, s, hs, hask.2⟩, hask.2.socketOf_eq⟩

theorem Ending.Below.card_le_owners (h : e.Below c) (k : Kind) :
    (e.sockets k).card ≤ (owners c e k).card := by
  rw [FdSet.card, ← h.image_owners k]
  exact Finset.card_image_le

/-- There are as many descriptors as sockets if and only if no socket has two. -/
theorem Ending.Below.card_eq_owners_iff (h : e.Below c) (k : Kind) :
    (e.sockets k).card = (owners c e k).card ↔
      ∀ s ∈ e.sockets k, ∀ i < c.numFds, ∀ j < c.numFds,
        IsSocket c.table i s → IsSocket c.table j s → i = j := by
  rw [FdSet.card, ← h.image_owners k, Finset.card_image_iff]
  constructor
  · intro hinj s hs i hi j hj hsi hsj
    refine hinj (mem_owners.2 ⟨hi, s, hs, hsi⟩) (mem_owners.2 ⟨hj, s, hs, hsj⟩) ?_
    rw [hsi.socketOf_eq, hsj.socketOf_eq]
  · intro hsingle i hi j hj heq
    obtain ⟨hi, s, hs, hsi⟩ := mem_owners.1 hi
    obtain ⟨hj, s', -, hsj⟩ := mem_owners.1 hj
    rw [hsi.socketOf_eq, hsj.socketOf_eq] at heq
    subst heq
    exact hsingle s hs i hi j hj hsi hsj

section Finished

variable (h : e.Below c) (hresult : 0 ≤ e.result)

include h hresult

theorem mem_finish {k : Kind} {i : ℕ} (hi : i < c.numFds) :
    i ∈ (c.finish c.mapping e).sets k ↔ i ∈ owners c e k ∨ i ∈ e.files k := by
  have hfiles : ∀ i ∈ e.files k, i < if k = .except then 0 else c.mapping.totalFile := by
    intro i hi
    have hmem := h.files k i hi
    split
    · next hk =>
      subst hk
      exact absurd hmem (c.not_mem_files_except i)
    · exact c.mapped.lt_totalFile k i hmem
  show i ∈ (if 0 ≤ e.result then _ else _) ↔ _
  rw [if_pos hresult, mem_remapDescriptorSets
    (fun s hs => c.mapped.lt_totalSocket k s (h.sockets k s hs)) hfiles hi, mem_owners]
  simp only [c.isSocket_mapping, hi, true_and]

theorem mem_request_of_le {k : Kind} {i : ℕ} (hi : c.numFds ≤ i)
    (hmem : i ∈ (c.finish c.mapping e).sets k) : i ∈ c.request k := by
  change i ∈ (if 0 ≤ e.result then _ else _) at hmem
  rw [if_pos hresult] at hmem
  exact mem_of_mem_remapDescriptorSets hmem
    (fun j hj => ((c.mapped.files k j).1 (h.files k j hj)).1) hi

/-- The bits of a result set are those of the sockets and those of the files. -/
theorem card_finish (k : Kind) :
    (((c.finish c.mapping e).sets k).bits.filter (· < c.numFds)).card =
      (owners c e k).card + (e.files k).card := by
  have hdisjoint : Disjoint (owners c e k) (e.files k).bits := by
    rw [Finset.disjoint_left]
    intro i hi hfile
    obtain ⟨-, s, -, hsocket⟩ := mem_owners.1 hi
    obtain ⟨-, -, -, fd, hfd, hnot, -⟩ := (c.mapped.files k i).1 (h.files k i hfile)
    exact hsocket.not_isFile ⟨fd, hfd, hnot⟩
  rw [FdSet.card, ← Finset.card_union_of_disjoint hdisjoint]
  congr 1
  ext i
  rw [Finset.mem_filter, Finset.mem_union]
  constructor
  · rintro ⟨hmem, hi⟩
    exact (mem_finish h hresult hi).1 hmem
  · intro hmem
    have hi : i < c.numFds := by
      obtain hmem | hmem := hmem
      · exact (mem_owners.1 hmem).1
      · exact ((c.mapped.files k i).1 (h.files k i hmem)).1
    exact ⟨(mem_finish h hresult hi).2 hmem, hi⟩

end Finished

theorem sum_kind (f : Kind → ℕ) : ∑ k, f k = f .read + f .write + f .except := by
  show Finset.sum {Kind.read, Kind.write, Kind.except} f = _
  rw [Finset.sum_insert (by decide), Finset.sum_insert (by decide), Finset.sum_singleton,
    Nat.add_assoc]

/-- The pass has looked at the files. -/
structure Polled (c : Call) (p : Pass) (e : Ending) : Prop where
  sockets : ∀ k s, s ∈ e.sockets k ↔ s ∈ c.mapping.sockets k ∧ p.Reports k s
  reported : ∀ k s, s ∈ e.sockets k → s ∈ e.reported k
  files : ∀ k i, i ∈ e.files k ↔ c.TestedReady p k i
  tested : ∀ k i, i ∈ e.files k → e.tested k i = true
  result : e.result = (bitCount e.sockets + ((e.files .read).bits ∪ (e.files .write).bits).card : ℕ)
  looks : c.LooksAtFiles p

/-- The pass has not looked at the files, and there are some. -/
structure Unpolled (c : Call) (p : Pass) (e : Ending) : Prop where
  sockets : ∀ k s, s ∈ e.sockets k ↔ s ∈ c.mapping.sockets k ∧ p.Reports k s
  files : e.files = c.mapping.files
  tested : ∀ k i, e.tested k i = false
  result : e.result = bitCount e.sockets
  watches : c.WatchesFiles
  looks : ¬ c.LooksAtFiles p

section

variable (h : Polled c p e)

include h

theorem Polled.below : e.Below c where
  sockets k s hs := ((h.sockets k s).1 hs).1
  files k i hi := mem_of_ready ((h.files k i).1 hi)

theorem Polled.card_union_eq_iff : ((e.files .read).bits ∪ (e.files .write).bits).card =
        (e.files .read).card + (e.files .write).card ↔
      ∀ i, ¬ (c.TestedReady p .read i ∧ c.TestedReady p .write i) := by
  rw [FdSet.card, FdSet.card, Finset.card_union_eq_card_add_card, Finset.disjoint_left]
  simp only [← h.files, not_and]
  rfl

theorem Polled.card_eq_owners_iff : (∀ k, (e.sockets k).card = (owners c e k).card) ↔
      ∀ k s, c.Asked k s → p.Reports k s → ∀ i < c.numFds, ∀ j < c.numFds,
        IsSocket c.table i s → IsSocket c.table j s → i = j := by
  refine forall_congr' fun k => ?_
  rw [h.below.card_eq_owners_iff]
  refine forall_congr' fun s => ?_
  rw [h.sockets, Call.mem_sockets]
  exact and_imp

theorem Polled.result_nonneg : 0 ≤ e.result := by
  rw [h.result]
  exact Int.natCast_nonneg _

/-- The result is the number of bits if and only if no descriptor is left out of the count. -/
theorem Polled.count_iff :
    e.result = ∑ k, (((c.finish c.mapping e).sets k).bits.filter (· < c.numFds)).card ↔
      (∀ k, (e.sockets k).card = (owners c e k).card) ∧
        ((e.files .read).bits ∪ (e.files .write).bits).card =
          (e.files .read).card + (e.files .write).card := by
  have hexcept : (e.files .except).card = 0 := by
    rw [FdSet.card, Finset.card_eq_zero, Finset.eq_empty_iff_forall_notMem]
    intro i hi
    exact c.not_mem_files_except i (h.below.files _ i hi)
  -- each part of the sum can only be too large
  have hread := h.below.card_le_owners .read
  have hwrite := h.below.card_le_owners .write
  have hexc := h.below.card_le_owners .except
  have hunion := Finset.card_union_le (e.files .read).bits (e.files .write).bits
  change _ ≤ (e.files .read).card + (e.files .write).card at hunion
  simp only [card_finish h.below h.result_nonneg]
  rw [h.result, bitCount, sum_kind, sum_kind]
  constructor
  · intro heq
    refine ⟨?_, by omega⟩
    rintro (_ | _ | _) <;> omega
  · rintro ⟨hall, hfiles⟩
    rw [hall .read, hall .write, hall .except]
    omega

/-- A descriptor that is the only one of its socket is the one that was asked for. -/
theorem Polled.mem_request_of_mem_owners (hclean : c.Clean p)
    (hi : i ∈ owners c e k) : i ∈ c.request k := by
  obtain ⟨hi, s, hs, hsocket⟩ := mem_owners.1 hi
  obtain ⟨hmem, hreports⟩ := (h.sockets k s).1 hs
  obtain ⟨j, hj, hask⟩ := Call.mem_sockets.1 hmem
  obtain rfl := hclean.single k s ⟨j, hj, hask⟩ hreports i hi j hj hsocket hask.2
  exact hask.1

/-- **The result sets after a pass that has looked at the files.** -/
theorem Polled.exact_iff : Exact c (c.finish c.mapping e) ↔ c.Clean p := by
  have hmem := fun {k i} => mem_finish h.below h.result_nonneg (k := k) (i := i)
  have hcount := h.count_iff
  rw [h.card_eq_owners_iff, h.card_union_eq_iff] at hcount
  constructor
  · intro hexact
    obtain ⟨hsingle, honeWay⟩ := hcount.1 hexact.count
    exact ⟨hsingle, honeWay, h.looks⟩
  · intro hclean
    refine ⟨?_, ?_, ?_, hcount.2 ⟨hclean.single, hclean.oneWay⟩⟩
    · intro k i hi
      obtain hlt | hle := Nat.lt_or_ge i c.numFds
      · obtain howner | hfile := (hmem hlt).1 hi
        · exact h.mem_request_of_mem_owners hclean howner
        · exact ((c.mapped.files k i).1 (h.below.files k i hfile)).2.1
      · exact mem_request_of_le h.below h.result_nonneg hle hi
    · intro k i hlt hi hisFile
      obtain howner | hfile := (hmem hlt).1 hi
      · obtain ⟨-, s, -, hsocket⟩ := mem_owners.1 howner
        exact absurd hisFile hsocket.not_isFile
      · exact h.tested k i hfile
    · intro k i hlt hi s hsocket
      obtain howner | hfile := (hmem hlt).1 hi
      · obtain ⟨-, s', hs', hsocket'⟩ := mem_owners.1 howner
        obtain rfl := hsocket.unique hsocket'
        exact h.reported k s hs'
      · obtain ⟨-, -, -, fd, hfd, hnot, -⟩ := (c.mapped.files k i).1 (h.below.files k i hfile)
        exact absurd ⟨fd, hfd, hnot⟩ hsocket.not_isFile

end

/-- A pass that has not looked at the files leaves their bits as they were asked for. -/
theorem Unpolled.not_exact (h : Unpolled c p e) : ¬ Exact c (c.finish c.mapping e) := by
  intro hexact
  have hresult : 0 ≤ e.result := by
    rw [h.result]
    exact Int.natCast_nonneg _
  have hbelow : e.Below c :=
    ⟨fun k s hs => ((h.sockets k s).1 hs).1, fun k i hi => by rwa [h.files] at hi⟩
  obtain ⟨k, i, hlt, hw⟩ := h.watches
  have hfile : i ∈ e.files k := by
    rw [h.files]
    exact (c.mapped.files k i).2 ⟨hlt, hw⟩
  obtain ⟨-, -, fd, hfd, hnot, -⟩ := hw
  have htested := hexact.file k i hlt ((mem_finish hbelow hresult hlt).2 (.inr hfile))
    ⟨fd, hfd, hnot⟩
  change e.tested k i = true at htested
  rw [h.tested] at htested
  cases htested

end Endings

/-! ### A pass -/

section Passes

variable {c : Call} {p : Pass}

variable {sockets : Kind → FdSet}

theorem mem_waitSelect {sockets' : Kind → FdSet}
    (h : waitSelect sockets p.waitSelect = some sockets') (k : Kind) (s : ℕ) :
    s ∈ sockets' k ↔ s ∈ sockets k ∧ p.Reports k s := by
  unfold Pass.Reports
  cases hanswer : p.waitSelect with
  | error =>
    rw [hanswer] at h
    cases h
  | ready answer =>
    rw [hanswer] at h
    obtain rfl := Option.some.inj h
    rw [FdSet.mem_restrict]
    simp

theorem eq_error (h : waitSelect sockets p.waitSelect = none) : p.waitSelect = .error := by
  cases hanswer : p.waitSelect with
  | error => rfl
  | ready answer =>
    rw [hanswer] at h
    cases h

theorem bitCount_eq_zero_iff {sets : Kind → FdSet} :
    bitCount sets = 0 ↔ ∀ k s, ¬ s ∈ sets k := by
  rw [bitCount, Finset.sum_eq_zero_iff]
  refine ⟨fun h k s hs => ?_, fun h k _ => ?_⟩
  · have hempty := Finset.card_eq_zero.1 (h k (Finset.mem_univ k))
    rw [FdSet.mem_def, hempty] at hs
    exact Finset.notMem_empty s hs
  · exact Finset.card_eq_zero.2 (Finset.eq_empty_iff_forall_notMem.2 (h k))

theorem Call.restoreSockets_eq (h : ∀ k s, s ∈ sockets k → s ∈ c.mapping.sockets k) :
    c.restoreSockets c.mapping sockets = c.mapping.sockets := by
  have hused : ∀ k s, s ∈ c.mapping.sockets k → s < c.numSocketUsed := by
    intro k s hs
    obtain ⟨i, hi, hask⟩ := Call.mem_sockets.1 hs
    exact (getNumDescriptorsUsed_spec c.table c.numFds).1 i hi s hask.2
  funext k
  exact FdSet.copy_eq (fun s hs => hused k s (h k s hs)) (hused k)

theorem Call.restoreFiles_eq {files : Kind → FdSet}
    (h : ∀ k i, i ∈ files k → i ∈ c.mapping.files k) :
    c.restoreFiles c.mapping files = c.mapping.files := by
  have hused : ∀ k i, i ∈ c.mapping.files k → i < c.numFileUsed := by
    intro k i hi
    obtain ⟨hlt, -, -, fd, hfd, hnot, -⟩ := (c.mapped.files k i).1 hi
    exact (getNumDescriptorsUsed_spec c.table c.numFds).2 i hlt ⟨fd, hfd, hnot⟩
  funext k
  exact FdSet.copy_eq (fun i hi => hused k i (h k i hi)) (hused k)

theorem Polled.clean_of_result_eq_zero {e : Ending} (h : Polled c p e) (hzero : e.result = 0) :
    c.Clean p := by
  rw [h.result, Int.natCast_eq_zero, Nat.add_eq_zero_iff, bitCount_eq_zero_iff,
    Finset.card_eq_zero, Finset.union_eq_empty] at hzero
  obtain ⟨hsockets, hread, -⟩ := hzero
  refine ⟨?_, ?_, h.looks⟩
  · intro k s hasked hreports
    exact absurd ((h.sockets k s).2 ⟨Call.mem_sockets.2 hasked, hreports⟩) (hsockets k s)
  · rintro i ⟨hi, -⟩
    have hmem := (h.files .read i).2 hi
    rw [FdSet.mem_def, hread] at hmem
    exact Finset.notMem_empty i hmem

/-- What a pass can come to. -/
def Comes (c : Call) (p : Pass) (x : PollSets ⊕ Ending) : Prop :=
  (∃ e, x = .inr e ∧
      ((e.result < 0 ∧ p.waitSelect = .error) ∨ Polled c p e ∨ Unpolled c p e)) ∨
    (x = .inl (c.mapping.sockets, c.mapping.files) ∧ c.Clean p)

/-- Sockets that are reported make up the answer of `WaitSelect`. -/
theorem exists_reports_iff (h : waitSelect c.mapping.sockets p.waitSelect = some sockets) :
    (∃ k s, c.Asked k s ∧ p.Reports k s) ↔ bitCount sockets ≠ 0 := by
  rw [ne_eq, bitCount_eq_zero_iff]
  push Not
  refine exists_congr fun k => exists_congr fun s => ?_
  rw [mem_waitSelect h, Call.mem_sockets]

theorem passBoth_comes (hsockets : c.WatchesSockets) (hfiles : c.WatchesFiles)
    (htime : c.timeout.isNone ∨ c.hasTime) :
    Comes c p (c.passBoth c.mapping (c.mapping.sockets, c.mapping.files) p) := by
  have htest : c.test p = p.testBoth := if_pos (Call.totalSocket_pos.2 hsockets)
  unfold Call.passBoth
  rw [if_neg (by simp)]
  cases hwait : waitSelect c.mapping.sockets p.waitSelect with
  | none => exact .inl ⟨_, rfl, .inl ⟨show (-1 : ℤ) < 0 by norm_num, eq_error hwait⟩⟩
  | some sockets =>
    simp only
    have hmem := mem_waitSelect hwait
    have hreports := exists_reports_iff hwait
    split
    · next hstop =>
      -- the files are not looked at
      refine .inl ⟨_, rfl, .inr (.inr ⟨hmem, rfl, fun _ _ => rfl, ?_, hfiles, fun hlooks => ?_⟩)⟩
      · exact congrArg Nat.cast hstop.1.symm
      · exact hreports.1 ((hlooks hsockets hfiles).2 hstop.2) hstop.1
    next hgo =>
    obtain ⟨hpolled, hcount⟩ := pollFiles_spec c.mapping.table p.testBoth
      c.mapped.lt_totalFile (bitCount sockets)
    generalize pollFiles c.mapping.table p.testBoth c.mapping.files c.mapping.totalFile
      (bitCount sockets) = polled at hpolled hcount ⊢
    have hlooks : c.LooksAtFiles p :=
      fun _ _ => ⟨htime, fun hmask => hreports.2 fun hzero => hgo ⟨hzero, hmask⟩⟩
    have hending : ∀ mask, Polled c p
        { result := polled.2, sockets, files := polled.1, signalMask := mask, reported := sockets,
          tested := ready c.mapping.table p.testBoth c.mapping.files } := by
      intro mask
      refine ⟨hmem, fun k s hs => hs, ?_, fun k i hi => (hpolled k i).1 hi, ?_, hlooks⟩
      · intro k i
        rw [Call.TestedReady, htest]
        exact hpolled k i
      · exact congrArg Nat.cast hcount
    split
    · exact .inl ⟨_, rfl, .inr (.inl (hending _))⟩
    split
    · exact .inl ⟨_, rfl, .inr (.inl (hending _))⟩
    next hpos =>
    split
    · exact .inl ⟨_, rfl, .inr (.inl (hending _))⟩
    -- nothing is ready, and there is time left
    refine .inr ⟨?_, (hending none).clean_of_result_eq_zero ?_⟩
    · rw [Call.restoreSockets_eq fun k s hs => ((hmem k s).1 hs).1,
        Call.restoreFiles_eq fun k i hi => mem_of_ready ((hpolled k i).1 hi)]
    · show (polled.2 : ℤ) = 0
      omega

theorem passSockets_comes (hsockets : c.WatchesSockets)
    (htime : ¬ (c.WatchesFiles ∧ (c.timeout.isNone ∨ c.hasTime))) :
    Comes c p (.inr (c.passSockets (c.mapping.sockets, c.mapping.files) p)) := by
  unfold Call.passSockets
  cases hwait : waitSelect c.mapping.sockets p.waitSelect with
  | none => exact .inl ⟨_, rfl, .inl ⟨show (-1 : ℤ) < 0 by norm_num, eq_error hwait⟩⟩
  | some sockets =>
    have hmem := mem_waitSelect hwait
    by_cases hfiles : c.WatchesFiles
    · refine .inl ⟨_, rfl, .inr (.inr ⟨hmem, rfl, fun _ _ => rfl, rfl, hfiles, fun hlooks => ?_⟩)⟩
      exact htime ⟨hfiles, (hlooks hsockets hfiles).1⟩
    · -- there are no files to look at
      have hnone : ∀ k i, ¬ i ∈ c.mapping.files k := by
        intro k i hi
        obtain ⟨hlt, hw⟩ := (c.mapped.files k i).1 hi
        exact hfiles ⟨k, i, hlt, hw⟩
      refine .inl ⟨_, rfl, .inr (.inl ⟨hmem, fun k s hs => hs, ?_, ?_, ?_, ?_⟩)⟩
      · exact fun k i => ⟨fun hi => absurd hi (hnone k i),
          fun hi => absurd (mem_of_ready hi) (hnone k i)⟩
      · exact fun k i hi => absurd hi (hnone k i)
      · have hread := Finset.eq_empty_iff_forall_notMem.2 (hnone .read)
        have hwrite := Finset.eq_empty_iff_forall_notMem.2 (hnone .write)
        show ((bitCount sockets : ℕ) : ℤ) = (bitCount sockets + _ : ℕ)
        rw [hread, hwrite, Finset.union_empty, Finset.card_empty, Nat.add_zero]
      · exact fun _ h => absurd h hfiles

theorem passFiles_comes (hsockets : ¬ c.WatchesSockets) :
    Comes c p (c.passFiles c.mapping (c.mapping.sockets, c.mapping.files) p) := by
  have htest : c.test p = p.testFiles := if_neg fun h => hsockets (Call.totalSocket_pos.1 h)
  have hnone : ∀ k s, ¬ s ∈ c.mapping.sockets k :=
    fun k s hs => hsockets ⟨k, s, Call.mem_sockets.1 hs⟩
  obtain ⟨hpolled, hcount⟩ := pollFiles_spec c.mapping.table p.testFiles
    c.mapped.lt_totalFile 0
  unfold Call.passFiles
  simp only
  generalize pollFiles c.mapping.table p.testFiles c.mapping.files c.mapping.totalFile 0 = polled
    at hpolled hcount ⊢
  have hending : ∀ mask, Polled c p
      { result := polled.2, sockets := c.mapping.sockets, files := polled.1, signalMask := mask,
        reported := fun _ => .empty,
        tested := ready c.mapping.table p.testFiles c.mapping.files } := by
    intro mask
    refine ⟨?_, fun k s hs => absurd hs (hnone k s), ?_, fun k i hi => (hpolled k i).1 hi, ?_,
      fun h => absurd h hsockets⟩
    · exact fun k s => ⟨fun hs => absurd hs (hnone k s), fun hs => hs.1⟩
    · intro k i
      rw [Call.TestedReady, htest]
      exact hpolled k i
    · show ((polled.2 : ℕ) : ℤ) = (bitCount c.mapping.sockets + _ : ℕ)
      rw [bitCount_eq_zero_iff.2 hnone, hcount]
  split
  · exact .inl ⟨_, rfl, .inr (.inl (hending _))⟩
  split
  · exact .inl ⟨_, rfl, .inr (.inl (hending _))⟩
  next hpos =>
  split
  · exact .inl ⟨_, rfl, .inr (.inl (hending _))⟩
  refine .inr ⟨?_, (hending none).clean_of_result_eq_zero ?_⟩
  · rw [Call.restoreFiles_eq fun k i hi => mem_of_ready ((hpolled k i).1 hi)]
  · show (polled.2 : ℤ) = 0
    omega

/-- **What a pass does.** -/
theorem pass_cases (c : Call) (p : Pass) :
    Comes c p (c.pass c.mapping (c.mapping.sockets, c.mapping.files) p) := by
  unfold Call.pass
  split
  · next hs =>
    have hsockets := Call.totalSocket_pos.1 hs
    split
    · next h => exact passBoth_comes hsockets (Call.totalFile_pos.1 h.1) h.2
    · next h =>
      exact passSockets_comes hsockets fun h' => h ⟨Call.totalFile_pos.2 h'.1, h'.2⟩
  · next hs => exact passFiles_comes fun hsockets => hs (Call.totalSocket_pos.2 hsockets)

end Passes

/-! ### The call -/

theorem steady_pass (c : Call) :
    Polling.Steady (c.pass c.mapping) (c.mapping.sockets, c.mapping.files) := by
  intro p v hv
  obtain ⟨e, he, -⟩ | ⟨hgo, -⟩ := pass_cases c p
  · rw [he] at hv
    cases hv
  · rw [hgo] at hv
    exact (Sum.inl.inj hv).symm

/-- **The result sets are right if and only if every pass is clean.** -/
theorem select_exact_iff (c : Call) (passes : List Pass) (o : Outcome)
    (h : c.select passes = some o) (hresult : 0 ≤ o.result) :
    Exact c o ↔ ∀ p ∈ passes, c.Clean p := by
  obtain ⟨e, hrun, rfl⟩ := Option.map_eq_some_iff.1 h
  obtain ⟨earlier, last, rfl, hgo, hlast⟩ :=
    (Polling.run_eq_some_iff (steady_pass c)).1 hrun
  -- the passes before the last one have found nothing
  have hearlier : ∀ p ∈ earlier, c.Clean p := by
    intro p hp
    obtain ⟨e', he', -⟩ | ⟨-, hclean⟩ := pass_cases c p
    · rw [hgo p hp] at he'
      cases he'
    · exact hclean
  have hall : (∀ p ∈ earlier ++ [last], c.Clean p) ↔ c.Clean last := by
    constructor
    · exact fun hclean => hclean last (by simp)
    · intro hclean p hp
      obtain hp | hp := List.mem_append.1 hp
      · exact hearlier p hp
      · rwa [List.mem_singleton.1 hp]
  rw [hall]
  obtain ⟨e', he', hcases⟩ | ⟨hinl, -⟩ := pass_cases c last
  · rw [hlast] at he'
    obtain rfl := Sum.inr.inj he'
    obtain hneg | hpolled | hunpolled := hcases
    · exact absurd hresult (Int.not_le.2 hneg.1)
    · exact hpolled.exact_iff
    · exact ⟨fun hexact => absurd hexact hunpolled.not_exact,
        fun hclean => absurd hclean.looks hunpolled.looks⟩
  · rw [hlast] at hinl
    cases hinl

/-- The caller asks whether there is something to read from the first of `n` descriptors of one
socket. -/
def socketCall (n : ℕ) : Call where
  numFds := n
  table i := if i < n then some { isSocket := true, socket := 0 } else none
  request k := if k = .read then FdSet.empty.set 0 else .empty
  timeout := none
  signalMask := none
  examined _ _ := none
  start := ⟨⟨0, 0, 0⟩, by decide, by decide⟩
  checkAbortEnabled := false
  breakSignalMask := 0

/-- There is. -/
def readyPass : Pass where
  signals := 0
  waitSelect := .ready fun k => if k = .read then FdSet.empty.set 0 else .empty
  waitForChar _ _ := false
  examine _ := none
  now := ⟨⟨0, 0, 0⟩, by decide, by decide⟩

/-- A socket with one descriptor. -/
theorem select_exact_socket :
    ∃ o, (socketCall 1).select [readyPass] = some o ∧ 0 ≤ o.result ∧ Exact (socketCall 1) o := by
  refine ⟨_, rfl, by decide, (select_exact_iff (socketCall 1) [readyPass] _ rfl (by decide)).2 ?_⟩
  intro p _
  refine ⟨?_, ?_, ?_⟩
  · have hone : (socketCall 1).numFds = 1 := rfl
    omega
  · rintro i ⟨hi, -⟩
    have hnone : (socketCall 1).mapping.files .read = .empty := by decide
    exact absurd (mem_of_ready hi) (by rw [hnone]; exact FdSet.not_mem_empty i)
  · intro _ hfiles
    exact absurd (Call.totalFile_pos.2 hfiles) (by decide)

/-- A second descriptor of the socket is reported as well. -/
theorem select_reports_alias :
    ∃ o, (socketCall 2).select [readyPass] = some o ∧ o.result = 1 ∧ 1 ∈ o.sets .read ∧
      ¬ 1 ∈ (socketCall 2).request .read ∧ ¬ Exact (socketCall 2) o := by
  refine ⟨_, rfl, by decide, by decide, by decide, fun hexact => ?_⟩
  exact absurd (hexact.subset .read 1 (by decide)) (by decide)

end Clib4.Socket
