import Clib4.SysV.Shm

/-!
# The accounts of shared memory

The accounts of the shared memory are right as long as no call removes a segment that is not
attached, whose size then stays in the total; detaches one that is not attached; attaches one for
the 2³¹-th time; or creates one whose size carries the total over 2³².  The first call that does
one of these makes them wrong.

## Main definitions

* `Entered` — what must hold of a segment after an event of its own.

## Main results

* `accounts_iff` — **the accounts are right throughout exactly if every call is sound.**
-/

namespace Clib4

open List

variable {s s' : ShmState} {log : List ShmEvent}

/-! ### The log -/

theorem attachCount_attached (log : List ShmEvent) (q : ℕ) :
    attachCount (log ++ [.attached q]) q = attachCount log q + 1 := by
  simp [attachCount]
  omega

theorem attachCount_detached (log : List ShmEvent) (q : ℕ) :
    attachCount (log ++ [.detached q]) q = attachCount log q - 1 := by
  simp [attachCount]
  omega

theorem attachCount_marked (log : List ShmEvent) (p q : ℕ) :
    attachCount (log ++ [.marked p]) q = attachCount log q := by
  simp [attachCount]

theorem attachCount_created (log : List ShmEvent) (p q : ℕ) :
    attachCount (log ++ [.created p]) q = attachCount log q := by
  simp [attachCount]

theorem attachCount_of_ne {e : ShmEvent} {q : ℕ} (h : e.seq ≠ q) :
    attachCount (log ++ [e]) q = attachCount log q := by
  have ha : e ≠ .attached q := by rintro rfl; exact h rfl
  have hd : e ≠ .detached q := by rintro rfl; exact h rfl
  simp [attachCount, ha, hd]

theorem attachCount_of_fresh {q : ℕ} (h : ∀ e ∈ log, e.seq ≠ q) : attachCount log q = 0 := by
  have ha : .attached q ∉ log := fun hmem => h _ hmem rfl
  have hd : .detached q ∉ log := fun hmem => h _ hmem rfl
  rw [attachCount, count_eq_zero.2 ha, count_eq_zero.2 hd, sub_self]

theorem mem_log_of_ne {e x : ShmEvent} (h : e.seq ≠ x.seq) : x ∈ log ++ [e] ↔ x ∈ log := by
  have hne : x ≠ e := by rintro rfl; exact h rfl
  simp [hne]

/-! ### The invariant -/

/-- The log tells about a segment what its record does. -/
structure Recorded (log : List ShmEvent) (si : ShmidDs) : Prop where
  attached : si.nattach = attachCount log si.perm.seq ∧ 0 ≤ si.nattach
  le : si.nattach ≤ longMax
  mark : si.deleteMe = true ↔ .marked si.perm.seq ∈ log
  created : .created si.perm.seq ∈ log
  amp_ne : si.amp ≠ 0

/-- The accounts are right, and what the calls rely on. -/
structure Kept (s : ShmState) : Prop where
  each : ∀ si ∈ s.live, Recorded s.log si
  total : s.cx.totshm.toNat = (s.live.map fun si => si.segsz.toNat).sum
  destroyed : ∀ q, .created q ∈ s.log →
    ((∀ si ∈ s.live, si.perm.seq ≠ q) ↔ .marked q ∈ s.log ∧ attachCount s.log q = 0)
  amps : (s.live.map ShmidDs.amp).Nodup
  seqs : (s.live.map fun si => si.perm.seq).Nodup
  log_lt : ∀ e ∈ s.log, e.seq < s.idx

theorem Kept.start : Kept .start := ⟨nofun, rfl, nofun, nodup_nil, nodup_nil, nofun⟩

variable {si si' : ShmidDs} {rest : List ShmidDs} {e : ShmEvent}

theorem Recorded.append (h : Recorded log si) (hne : e.seq ≠ si.perm.seq) :
    Recorded (log ++ [e]) si where
  attached := by rw [attachCount_of_ne hne]; exact h.attached
  le := h.le
  mark := by rw [mem_log_of_ne (x := .marked _) hne]; exact h.mark
  created := mem_append_left _ h.created
  amp_ne := h.amp_ne

namespace Kept

theorem accounts (h : Kept s) : Accounts s :=
  ⟨fun si hsi => (h.each si hsi).attached, h.total, h.destroyed⟩

theorem addressed (h : Kept s) : Addressed s := ⟨fun si hsi => (h.each si hsi).amp_ne, h.amps⟩

/-- The segments other than one of them have other sequence numbers. -/
theorem seq_ne (h : Kept s) (hlive : s.live.Perm (si :: rest)) :
    ∀ other ∈ rest, other.perm.seq ≠ si.perm.seq := by
  have hnodup := (hlive.map fun si => si.perm.seq).nodup_iff.1 h.seqs
  rw [map_cons, nodup_cons] at hnodup
  intro other hother heq
  exact hnodup.1 (mem_map.2 ⟨other, hother, heq⟩)

/-- The segments other than one of them are at other addresses. -/
theorem amp_notMem (h : Kept s) (hlive : s.live.Perm (si :: rest)) :
    si.amp ∉ rest.map ShmidDs.amp := by
  have hnodup := (hlive.map ShmidDs.amp).nodup_iff.1 h.amps
  rw [map_cons, nodup_cons] at hnodup
  exact hnodup.1

theorem mem_self (hlive : s.live.Perm (si :: rest)) : si ∈ s.live :=
  hlive.mem_iff.2 mem_cons_self

/-- What must hold of a segment after an event of its own; `rest` are the other segments. -/
structure Entered (s' : ShmState) (rest : List ShmidDs) (q : ℕ) (si : ShmidDs) : Prop where
  seq_eq : si.perm.seq = q
  recorded : Recorded s'.log si
  amp_notMem : si.amp ∉ rest.map ShmidDs.amp

section

variable (h : Kept s)

include h

/-- **An event of one segment** keeps what holds of the others: `old` is the segment before the
event, `new` the segment after it. -/
theorem event (old new : Option ShmidDs)
    (hlive : s.live.Perm (old.toList ++ rest)) (hlive' : s'.live.Perm (new.toList ++ rest))
    (hlog : s'.log = s.log ++ [e]) (hidx : s.idx ≤ s'.idx) (hlt : e.seq < s'.idx)
    (hold : ∀ x ∈ old, x.perm.seq = e.seq) (hnew : ∀ x ∈ new, Entered s' rest e.seq x)
    (hrest : ∀ x ∈ rest, x.perm.seq ≠ e.seq)
    (htot : s'.cx.totshm.toNat
      = (new.toList.map fun si => si.segsz.toNat).sum + (rest.map fun si => si.segsz.toNat).sum)
    (hgone : new = none ↔ .marked e.seq ∈ s'.log ∧ attachCount s'.log e.seq = 0) : Kept s' := by
  have hmem : ∀ x, x ∈ s.live ↔ x ∈ old ∨ x ∈ rest := fun x => by
    rw [hlive.mem_iff, mem_append, Option.mem_toList]
    exact Iff.rfl
  have hmem' : ∀ x, x ∈ s'.live ↔ x ∈ new ∨ x ∈ rest := fun x => by
    rw [hlive'.mem_iff, mem_append, Option.mem_toList]
    exact Iff.rfl
  refine ⟨?_, ?_, ?_, ?_, ?_, ?_⟩
  · intro x hx
    rcases (hmem' x).1 hx with hx | hx
    · exact (hnew x hx).recorded
    · rw [hlog]
      exact (h.each x ((hmem x).2 (.inr hx))).append (hrest x hx).symm
  · rw [htot, (hlive'.map _).sum_eq, map_append, sum_append]
  · intro q hq
    by_cases hself : q = e.seq
    · subst hself
      rw [← hgone]
      constructor
      · intro hall
        rw [Option.eq_none_iff_forall_not_mem]
        exact fun x hx => hall x ((hmem' x).2 (.inl hx)) (hnew x hx).seq_eq
      · rintro rfl x hx
        exact hrest x (((hmem' x).1 hx).resolve_left (Option.not_mem_none x))
    · -- an event of a segment with another number is an old one
      have hother : ∀ x : ShmEvent, x.seq = q → (x ∈ s'.log ↔ x ∈ s.log) := fun x hx => by
        rw [hlog, mem_log_of_ne (hx ▸ Ne.symm hself)]
      rw [hother (.marked q) rfl, hlog, attachCount_of_ne (Ne.symm hself),
        ← h.destroyed q ((hother (.created q) rfl).1 hq)]
      constructor
      · intro hall x hx
        rcases (hmem x).1 hx with hx | hx
        · rw [hold x hx]
          exact Ne.symm hself
        · exact hall x ((hmem' x).2 (.inr hx))
      · intro hall x hx
        rcases (hmem' x).1 hx with hx | hx
        · rw [(hnew x hx).seq_eq]
          exact Ne.symm hself
        · exact hall x ((hmem x).2 (.inr hx))
  · have hnodup := (hlive.map ShmidDs.amp).nodup_iff.1 h.amps
    rw [map_append, nodup_append] at hnodup
    rw [(hlive'.map ShmidDs.amp).nodup_iff]
    cases new with
    | none => exact hnodup.2.1
    | some x => exact nodup_cons.2 ⟨(hnew x rfl).amp_notMem, hnodup.2.1⟩
  · have hnodup := (hlive.map fun si => si.perm.seq).nodup_iff.1 h.seqs
    rw [map_append, nodup_append] at hnodup
    rw [(hlive'.map fun si => si.perm.seq).nodup_iff]
    cases new with
    | none => exact hnodup.2.1
    | some x =>
      refine nodup_cons.2 ⟨?_, hnodup.2.1⟩
      intro hin
      obtain ⟨y, hy, heq⟩ := mem_map.1 hin
      exact hrest y hy (heq.trans (hnew x rfl).seq_eq)
  · intro x hx
    rw [hlog, mem_append, mem_singleton] at hx
    rcases hx with hx | rfl
    · exact lt_of_lt_of_le (h.log_lt x hx) hidx
    · exact hlt

theorem total_cons (hlive : s.live.Perm (si :: rest)) :
    s.cx.totshm.toNat = si.segsz.toNat + (rest.map fun si => si.segsz.toNat).sum := by
  rw [h.total, (hlive.map _).sum_eq, map_cons, sum_cons]

theorem seq_lt (hsi : si ∈ s.live) : si.perm.seq < s.idx :=
  h.log_lt _ (h.each si hsi).created

theorem change (hlive : s.live.Perm (si :: rest)) (hlive' : s'.live.Perm (si' :: rest))
    (hsame : si'.perm.seq = si.perm.seq ∧ si'.segsz = si.segsz ∧ si'.amp = si.amp)
    (hidx : s'.idx = s.idx) (htot : s'.cx.totshm = s.cx.totshm)
    (hlog : s'.log = s.log ++ [e]) (he : e.seq = si.perm.seq)
    (hcount : si'.nattach = attachCount s'.log si'.perm.seq)
    (hrange : 0 ≤ si'.nattach ∧ si'.nattach ≤ longMax)
    (hmark : si'.deleteMe = true ↔ .marked si'.perm.seq ∈ s'.log)
    (hkept : ¬ (si'.deleteMe = true ∧ si'.nattach = 0)) : Kept s' := by
  obtain ⟨hseq, hsegsz, hamp⟩ := hsame
  have hold := h.each si (mem_self hlive)
  refine h.event (some si) (some si') hlive hlive' hlog hidx.ge ?_ ?_ ?_ ?_ ?_ ?_
  · rw [he, hidx]
    exact h.seq_lt (mem_self hlive)
  · rintro x ⟨⟩
    exact he.symm
  · rintro x ⟨⟩
    refine ⟨hseq.trans he.symm, ⟨⟨hcount, hrange.1⟩, hrange.2, hmark, ?_, ?_⟩, ?_⟩
    · rw [hlog, hseq]
      exact mem_append_left _ hold.created
    · rw [hamp]
      exact hold.amp_ne
    · rw [hamp]
      exact h.amp_notMem hlive
  · rw [he]
    exact h.seq_ne hlive
  · rw [htot, h.total_cons hlive, Option.toList_some, map_singleton, sum_singleton,
      hsegsz]
  · rw [he, ← hseq]
    refine iff_of_false (Option.some_ne_none _) ?_
    rintro ⟨hmarked, hzero⟩
    exact hkept ⟨hmark.2 hmarked, hcount.trans hzero⟩

theorem destroy (hlive : s.live.Perm (si :: rest)) (hlive' : s'.live.Perm rest)
    (hidx : s'.idx = s.idx)
    (htot : s'.cx.totshm.toNat = (rest.map fun si => si.segsz.toNat).sum)
    (hlog : s'.log = s.log ++ [e]) (he : e.seq = si.perm.seq) (hmarked : .marked e.seq ∈ s'.log)
    (hcount : attachCount s'.log e.seq = 0) : Kept s' := by
  refine h.event (some si) none hlive hlive' hlog hidx.ge ?_ ?_ nofun ?_ ?_ ?_
  · rw [he, hidx]
    exact h.seq_lt (mem_self hlive)
  · rintro x ⟨⟩
    exact he.symm
  · rw [he]
    exact h.seq_ne hlive
  · rw [htot, Option.toList_none, map_nil, sum_nil, Nat.zero_add]
  · exact iff_of_true rfl ⟨hmarked, hcount⟩

theorem create (hlive' : s'.live.Perm (si :: s.live)) (hseq : si.perm.seq = s.idx)
    (hidx : s'.idx = s.idx + 1) (hnew : si.nattach = 0 ∧ si.deleteMe = false)
    (hamp : si.amp ≠ 0 ∧ si.amp ∉ s.live.map ShmidDs.amp)
    (htot : s'.cx.totshm.toNat = si.segsz.toNat + s.cx.totshm.toNat)
    (hlog : s'.log = s.log ++ [.created si.perm.seq]) : Kept s' := by
  have hfresh : ∀ e ∈ s.log, e.seq ≠ si.perm.seq := fun e he => by
    rw [hseq]
    exact Nat.ne_of_lt (h.log_lt e he)
  have hmarked : .marked si.perm.seq ∉ s'.log := by
    rw [hlog]
    simp only [mem_append, mem_singleton, reduceCtorEq, or_false]
    exact fun hmem => hfresh _ hmem rfl
  have hcount : attachCount s'.log si.perm.seq = 0 := by
    rw [hlog, attachCount_created]
    exact attachCount_of_fresh hfresh
  have hnone : s.live.Perm ((none : Option ShmidDs).toList ++ s.live) := .refl _
  refine h.event none (some si) hnone hlive' hlog (by omega) ?_ nofun ?_ ?_ ?_ ?_
  · show si.perm.seq < s'.idx
    omega
  · rintro x ⟨⟩
    refine ⟨rfl, ⟨⟨hnew.1.trans hcount.symm, hnew.1.ge⟩, by rw [hnew.1]; decide, ?_, ?_, hamp.1⟩,
      hamp.2⟩
    · exact iff_of_false (by simp [hnew.2]) hmarked
    · rw [hlog]
      exact mem_append_right _ (mem_singleton.2 rfl)
  · intro x hx
    exact hfresh _ (h.each x hx).created
  · rw [htot, h.total, Option.toList_some, map_singleton, sum_singleton]
  · exact iff_of_false (Option.some_ne_none _) fun hboth => hmarked hboth.1

theorem idle (hlive : s'.live.Perm s.live) (hidx : s.idx ≤ s'.idx)
    (htot : s'.cx.totshm = s.cx.totshm) (hlog : s'.log = s.log) : Kept s' := by
  refine ⟨?_, ?_, ?_, ?_, ?_, ?_⟩
  · simpa only [hlive.mem_iff, hlog] using h.each
  · rw [htot, h.total, (hlive.map _).sum_eq]
  · simpa only [hlive.mem_iff, hlog] using h.destroyed
  · rw [(hlive.map ShmidDs.amp).nodup_iff]
    exact h.amps
  · rw [(hlive.map fun si => si.perm.seq).nodup_iff]
    exact h.seqs
  · rw [hlog]
    exact fun e he => lt_of_lt_of_le (h.log_lt e he) hidx

/-- **A sound call keeps the accounts right.** -/
theorem step (call : ShmCall) (hsound : call.Sound s) : Kept (call.step s).1 := by
  have hcases := ShmCall.step_cases h.addressed call
  cases hcases with
  | idle hlive hidx htot hlog _ => exact h.idle hlive hidx htot hlog
  | create si hlive hseq hidx hnew hamp htot hlog hiff =>
    have hlt := hiff.1 hsound
    refine h.create hlive hseq hidx hnew hamp ?_ hlog
    rw [htot, UInt32.toNat_add, Nat.mod_eq_of_lt hlt, Nat.add_comm]
  | attach si rest mode hlive hlive' hidx htot hlog hiff =>
    have hmax := hiff.1 hsound
    obtain ⟨⟨hcount, hnonneg⟩, hle, hmark, -, -⟩ := h.each si (mem_self hlive)
    have hint : toInt32 (si.nattach + 1) = si.nattach + 1 := toInt32_of_le (by omega) (by omega)
    rw [hint] at hlive'
    refine h.change hlive hlive' ⟨rfl, rfl, rfl⟩ hidx htot hlog rfl ?_ ⟨?_, ?_⟩ ?_ ?_
    · rw [hlog, attachCount_attached, ← hcount]
    · dsimp only; omega
    · dsimp only; omega
    · rw [hlog, hmark]
      simp
    · rintro ⟨-, hzero⟩
      dsimp only at hzero
      omega
  | detach si rest hlive hlive' hkept hidx htot hlog hiff =>
    have hne := hiff.1 hsound
    obtain ⟨⟨hcount, hnonneg⟩, hle, hmark, -, -⟩ := h.each si (mem_self hlive)
    have hint : toInt32 (si.nattach - 1) = si.nattach - 1 := toInt32_of_le (by omega) (by omega)
    rw [hint] at hlive' hkept
    refine h.change hlive hlive' ⟨rfl, rfl, rfl⟩ hidx htot hlog rfl ?_ ⟨?_, ?_⟩ ?_ ?_
    · rw [hlog, attachCount_detached, ← hcount]
    · dsimp only; omega
    · dsimp only; omega
    · rw [hlog, hmark]
      simp
    · exact fun hboth => hkept ⟨hboth.2, hboth.1⟩
  | detachLast si rest hlive hlive' hlast hidx htot hlog hiff =>
    obtain ⟨⟨hcount, hnonneg⟩, hle, hmark, -, -⟩ := h.each si (mem_self hlive)
    have hint : toInt32 (si.nattach - 1) = si.nattach - 1 := toInt32_of_le (by omega) (by omega)
    obtain ⟨hzero, hdelete⟩ := hlast
    rw [hint] at hzero
    refine h.destroy hlive hlive' hidx ?_ hlog rfl ?_ ?_
    · have hsum := h.total_cons hlive
      have hsub : si.segsz ≤ s.cx.totshm := by
        rw [UInt32.le_iff_toNat_le]
        omega
      rw [htot, UInt32.toNat_sub_of_le _ _ hsub]
      omega
    · rw [hlog]
      exact mem_append_left _ (hmark.1 hdelete)
    · rw [hlog, ShmEvent.seq, attachCount_detached, ← hcount, hzero]
  | mark si rest mode hlive hlive' hkept hidx htot hlog _ =>
    obtain ⟨⟨hcount, hnonneg⟩, hle, -, -, -⟩ := h.each si (mem_self hlive)
    refine h.change hlive hlive' ⟨rfl, rfl, rfl⟩ hidx htot hlog rfl ?_ ⟨hnonneg, hle⟩ ?_
      fun hboth => hkept hboth.2
    · rw [hlog, attachCount_marked]
      exact hcount
    · rw [hlog]
      exact iff_of_true rfl (mem_append_right _ (mem_singleton.2 rfl))
  | remove si rest hlive hlive' hlast hidx htot hlog hiff =>
    have hsize := hiff.1 hsound
    refine h.destroy hlive hlive' hidx ?_ hlog rfl ?_ ?_
    · rw [htot, h.total_cons hlive, hsize, UInt32.toNat_zero, Nat.zero_add]
    · rw [hlog]
      exact mem_append_right _ (mem_singleton.2 rfl)
    · rw [hlog, attachCount_marked]
      exact (h.each si (mem_self hlive)).attached.1.symm.trans hlast

/-- **A call that is not sound makes the accounts wrong.** -/
theorem not_accounts (call : ShmCall) (hsound : ¬ call.Sound s) : ¬ Accounts (call.step s).1 := by
  intro hacc
  have hcases := ShmCall.step_cases h.addressed call
  cases hcases with
  | idle _ _ _ _ hyes | mark _ _ _ _ _ _ _ _ _ hyes => exact hsound hyes
  | create si hlive hseq hidx hnew hamp htot hlog hiff =>
    -- the total has wrapped around
    have hover := hiff.not.1 hsound
    have htot' := hacc.total
    rw [(hlive.map _).sum_eq, map_cons, sum_cons, ← h.total, htot,
      UInt32.toNat_add] at htot'
    omega
  | attach si rest mode hlive hlive' hidx htot hlog hiff =>
    -- the count has wrapped around
    have hmax : si.nattach = longMax := not_not.1 (hiff.not.1 hsound)
    have hnonneg := (hacc.attached _ (mem_self hlive')).2
    dsimp only at hnonneg
    rw [hmax] at hnonneg
    revert hnonneg
    decide
  | detach si rest hlive hlive' hkept hidx htot hlog hiff =>
    have hzero : si.nattach = 0 := not_not.1 (hiff.not.1 hsound)
    have hnonneg := (hacc.attached _ (mem_self hlive')).2
    dsimp only at hnonneg
    rw [hzero] at hnonneg
    revert hnonneg
    decide
  | detachLast si rest hlive hlive' hlast hidx htot hlog hiff =>
    have hzero : si.nattach = 0 := not_not.1 (hiff.not.1 hsound)
    have hminus := hlast.1
    rw [hzero] at hminus
    revert hminus
    decide
  | remove si rest hlive hlive' hlast hidx htot hlog hiff =>
    -- the size stays in the total
    have hsize : si.segsz ≠ 0 := hiff.not.1 hsound
    have hpos : si.segsz.toNat ≠ 0 := by
      intro hzero
      exact hsize (UInt32.toNat_inj.1 hzero)
    have htot' := hacc.total
    rw [(hlive'.map _).sum_eq, htot, h.total_cons hlive] at htot'
    omega

end

end Kept

/-- **The accounts of shared memory.**  Whatever calls are made, by whatever processes and
whatever the system answers, the accounts are right in every state exactly if every call is
sound: none removes a segment that is not attached and not empty, none detaches a segment that is
not attached, none attaches a segment for the 2³¹-th time, and none creates a segment whose size
carries the total over 2³². -/
theorem accounts_iff (calls : List ShmCall) :
    (∀ done, done <+: calls → Accounts (Machine.trace ShmCall.step .start done).1) ↔
      Machine.Throughout ShmCall.step (fun s call => call.Sound s) .start calls :=
  Machine.throughout_iff (R := Kept) (fun _ h => h.accounts)
    (fun _ call h hsound => h.step call hsound)
    (fun _ call h hsound => h.not_accounts call hsound) calls .start

/-- Memory behind all the blocks that are in use. -/
def memoryBehind : Allocation where
  pick used := some (used.sum + 1)
  pick_spec {used a} h := by
    obtain rfl := Option.some.inj h
    refine ⟨Nat.succ_ne_zero _, fun hmem => ?_⟩
    exact absurd (le_sum_of_mem hmem) (Nat.not_succ_le_self _)

/-- A segment of sixteen bytes is created, and removed again. -/
def createAndRemove : List ShmCall :=
  [.shmget 7 16 ipcCreat { memory := memoryBehind }, .shmctl 0 .rmid]

/-- Its size stays in the total. -/
theorem createAndRemove_not_accounts :
    (Machine.trace ShmCall.step .start createAndRemove).1.cx.totshm = 16 ∧
      (Machine.trace ShmCall.step .start createAndRemove).1.live = [] ∧
      ¬ Accounts (Machine.trace ShmCall.step .start createAndRemove).1 := by
  have htotshm : (Machine.trace ShmCall.step .start createAndRemove).1.cx.totshm = 16 := by
    decide
  have hlive : (Machine.trace ShmCall.step .start createAndRemove).1.live = [] := by decide
  refine ⟨htotshm, hlive, fun h => ?_⟩
  have htotal := h.total
  cases htotal

end Clib4
