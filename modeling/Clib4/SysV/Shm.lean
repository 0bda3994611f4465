import Clib4.Base.Machine
import Clib4.Dos
import Clib4.SysV.KeyMap

/-!
# System V shared memory

The segments of shared memory of all processes are kept in one key map.  Each call holds the lock
of the map while it runs, so a history of calls, whoever makes them, is a sequence.

The accounts that the calls keep are the number of times each segment is attached and the total
of the sizes of the segments.  They are compared with a log of what happened to each segment.

## Main definitions

* `ShmState`, `ShmCall.step` — the segments with the log, and what a call does to them.
* `Accounts` — the accounts are right.
* `ShmCall.Sound` — the calls that keep them so.

## Main results

* `ShmCall.step_cases` — **everything that a call can do.**
-/

namespace Clib4

open List

/-! ### The calls -/

/-- `struct shmid_ds`, without the times. -/
structure ShmidDs where
  perm : IpcPerm
  segsz : UInt32 := 0
  /-- The address of the memory, `0` for `NULL`. -/
  amp : ℕ := 0
  /-- An `int`. -/
  nattach : ℤ := 0
  /-- `SHMFLG_DeleteMe`, the only flag. -/
  deleteMe : Bool := false
  deriving DecidableEq, Repr

instance : IpcGeneric ShmidDs where
  perm si := si.perm
  setSeq si seq := { si with perm := { si.perm with seq := seq } }

def shmClear : UInt32 := 0o1000

def defShmmax : UInt32 := 8388608

/-- The part of the library's resource that concerns shared memory, `shmcx`. -/
structure ShmContext where
  keymap : IpcIdKeyMap ShmidDs
  totshm : UInt32
  shmmax : UInt32

/-- What `AllocVecTags` answers when blocks at the addresses `used` are in use: the address of
another block, or no address. -/
structure Allocation where
  pick : List ℕ → Option ℕ
  pick_spec : ∀ {used : List ℕ} {a : ℕ}, pick used = some a → a ≠ 0 ∧ a ∉ used

/-- What the system answers to `shmget`: whether there is memory for the segment's record and for
more slots, and where there is memory for the segment. -/
structure ShmAnswers where
  record : Bool := true
  slots : Bool := true
  memory : Allocation

def shmConstruct (record : Bool) (key : IpcKey) (flags : UInt32) : Option ShmidDs :=
  if record then some { perm := { mode := (flags &&& 0o777) ||| shmClear, key := key } } else none

/-- `_shmget`: the identifier of the segment. -/
def shmget (cx : ShmContext) (key : IpcKey) (size flags : UInt32) (sys : ShmAnswers) :
    ShmContext × Except Errno ℕ :=
  if size + cx.totshm < cx.shmmax then
    match getIpcKeyId cx.keymap key flags (shmConstruct sys.record) sys.slots with
    | (m, .error e) => ({ cx with keymap := m }, .error e)
    | (m, .ok id) =>
      match getIpcById m id with
      | none => ({ cx with keymap := m }, .ok id)
      | some si =>
        if si.amp = 0 then
          match sys.memory.pick (cx.keymap.live.map ShmidDs.amp) with
          | some a =>
            ({ cx with keymap := m.update id { si with amp := a, segsz := size }
                       totshm := cx.totshm + size }, .ok id)
          | none => ({ cx with keymap := ipcRmId m id }, .error .ENOMEM)
        else ({ cx with keymap := m }, .ok id)
  else (cx, .error .ENOMEM)

/-- `_shmat`: the address of the segment. -/
def shmat (cx : ShmContext) (shmid : ℤ) (prefadds : ℕ) : ShmContext × Except Errno ℕ :=
  match getIpcById cx.keymap shmid with
  | some si =>
    if prefadds = 0 ∨ prefadds = si.amp then
      -- the memory is cleared when it is attached for the first time
      let si' := { si with nattach := toInt32 (si.nattach + 1)
                           perm := { si.perm with mode := si.perm.mode &&& ~~~ shmClear } }
      ({ cx with keymap := cx.keymap.update shmid.toNat si' }, .ok si.amp)
    else (cx, .error .EINVAL)
  | none => (cx, .error .EIDRM)

def shmdt (cx : ShmContext) (shmaddr : ℕ) : ShmContext × Except Errno Unit :=
  match getIpcByP cx.keymap (fun si => si.amp == shmaddr) with
  | some (id, si) =>
    let si' := { si with nattach := toInt32 (si.nattach - 1) }
    if si'.nattach = 0 ∧ si'.deleteMe then
      ({ cx with keymap := ipcRmId (cx.keymap.update id si') id
                 totshm := cx.totshm - si.segsz }, .ok ())
    else ({ cx with keymap := cx.keymap.update id si' }, .ok ())
  | none => (cx, .error .EIDRM)

/-- The commands of `shmctl`. -/
inductive ShmCmd
  /-- `IPC_STAT`, and whether there is a buffer for it. -/
  | stat (cbuf : Bool)
  | set
  | rmid
  /-- `SHM_LOCK`, and whether the system locks the memory. -/
  | lock (locked : Bool)
  | unlock
  | other

/-- `_shmctl`: for `IPC_STAT`, what is copied to the buffer. -/
def shmctl (cx : ShmContext) (shmid : ℤ) (cmd : ShmCmd) :
    ShmContext × Except Errno (Option ShmidDs) :=
  match getIpcById cx.keymap shmid with
  | some si =>
    match cmd with
    | .stat cbuf => if cbuf then (cx, .ok (some si)) else (cx, .error .EFAULT)
    | .set => (cx, .ok none)
    | .rmid =>
      let si' := { si with deleteMe := true
                           perm := { si.perm with mode := si.perm.mode ||| ipcDelete } }
      let m := cx.keymap.update shmid.toNat si'
      if si.nattach = 0 then ({ cx with keymap := ipcRmId m shmid.toNat }, .ok none)
      else ({ cx with keymap := m }, .ok none)
    | .lock locked => if locked then (cx, .ok none) else (cx, .error .EACCES)
    | .unlock => (cx, .ok none)
    | .other => (cx, .error .EINVAL)
  | none => (cx, .error .EIDRM)

/-! ### The log -/

/-- What happens to a segment; a segment is known by its sequence number. -/
inductive ShmEvent
  | created (seq : ℕ)
  | attached (seq : ℕ)
  | detached (seq : ℕ)
  /-- `IPC_RMID` has been asked for. -/
  | marked (seq : ℕ)
  deriving DecidableEq, Repr

/-- The segment that an event concerns. -/
def ShmEvent.seq : ShmEvent → ℕ
  | created q | attached q | detached q | marked q => q

/-- The number of times that a segment has been attached, less the number of times that it has
been detached. -/
def attachCount (log : List ShmEvent) (seq : ℕ) : ℤ :=
  log.count (.attached seq) - log.count (.detached seq)

/-- The segments and the log. -/
structure ShmState where
  cx : ShmContext
  log : List ShmEvent

namespace ShmState

/-- The segments. -/
def live (s : ShmState) : List ShmidDs := s.cx.keymap.live

/-- The sequence number of the next segment. -/
def idx (s : ShmState) : ℕ := s.cx.keymap.idx

/-- The state before the first call. -/
def start : ShmState where
  cx := { keymap := .empty, totshm := 0, shmmax := defShmmax }
  log := []

end ShmState

/-- A call, by any process. -/
inductive ShmCall
  | shmget (key : IpcKey) (size flags : UInt32) (sys : ShmAnswers)
  | shmat (shmid : ℤ) (prefadds : ℕ)
  | shmdt (shmaddr : ℕ)
  | shmctl (shmid : ℤ) (cmd : ShmCmd)

/-- The segment that `shmget` has created: it was not there before. -/
def createdEvents (before after : ShmContext) : Except Errno ℕ → List ShmEvent
  | .ok id =>
    match getIpcById before.keymap id, getIpcById after.keymap id with
    | none, some si => [.created si.perm.seq]
    | _, _ => []
  | .error _ => []

/-- The events of a call on the segments that it was made for, if it succeeds. -/
def succeeded {β : Type} (event : ℕ → ShmEvent) (segments : List ShmidDs) :
    Except Errno β → List ShmEvent
  | .ok _ => segments.map fun si => event si.perm.seq
  | .error _ => []

namespace ShmCall

/-- The events of a command of `shmctl`. -/
def commandEvents (segments : List ShmidDs) (r : Except Errno (Option ShmidDs)) :
    ShmCmd → List ShmEvent
  | .rmid => succeeded .marked segments r
  | _ => []

/-- One call: the call itself, and its entry in the log.  The reply is the number that the call
returns. -/
def step (s : ShmState) : ShmCall → ShmState × Except Errno ℕ
  | shmget key size flags sys =>
    let (cx, r) := Clib4.shmget s.cx key size flags sys
    (⟨cx, s.log ++ createdEvents s.cx cx r⟩, r)
  | shmat shmid prefadds =>
    let (cx, r) := Clib4.shmat s.cx shmid prefadds
    (⟨cx, s.log ++ succeeded .attached (getIpcById s.cx.keymap shmid).toList r⟩, r)
  | shmdt shmaddr =>
    let (cx, r) := Clib4.shmdt s.cx shmaddr
    (⟨cx, s.log ++ succeeded .detached (s.live.filter (·.amp == shmaddr)) r⟩, r.map fun _ => 0)
  | shmctl shmid cmd =>
    let (cx, r) := Clib4.shmctl s.cx shmid cmd
    (⟨cx, s.log ++ commandEvents (getIpcById s.cx.keymap shmid).toList r cmd⟩, r.map fun _ => 0)

end ShmCall

/-! ### The accounts -/

/-- **The accounts are right**: the attach count of every segment is the number of its attaches
less that of its detaches, and not negative; the total is the sum of the sizes; and a segment has
been destroyed exactly if it is marked for removal and its attach count is zero. -/
structure Accounts (s : ShmState) : Prop where
  attached : ∀ si ∈ s.live, si.nattach = attachCount s.log si.perm.seq ∧ 0 ≤ si.nattach
  total : s.cx.totshm.toNat = (s.live.map fun si => si.segsz.toNat).sum
  destroyed : ∀ q, .created q ∈ s.log →
    ((∀ si ∈ s.live, si.perm.seq ≠ q) ↔ .marked q ∈ s.log ∧ attachCount s.log q = 0)

/-- `shmget` is asked for a new segment, and there is memory for it; the test of the total is that
of the source, in 32 bits. -/
def ShmState.Creates (s : ShmState) (key : IpcKey) (size flags : UInt32) (sys : ShmAnswers) :
    Prop :=
  size + s.cx.totshm < s.cx.shmmax ∧ sys.record = true ∧
    s.cx.keymap.Makes key flags sys.slots ∧ (sys.memory.pick (s.live.map ShmidDs.amp)).isSome

/-- The calls that keep the accounts right. -/
def ShmCall.Sound (s : ShmState) : ShmCall → Prop
  -- the total of the sizes stays below 2³²
  | shmget key size flags sys =>
    s.Creates key size flags sys → s.cx.totshm.toNat + size.toNat < 2 ^ 32
  -- the attach count stays an `int`
  | shmat shmid prefadds =>
    ∀ si, getIpcById s.cx.keymap shmid = some si → prefadds = 0 ∨ prefadds = si.amp →
      si.nattach ≠ longMax
  -- the segment is attached
  | shmdt shmaddr => ∀ si ∈ s.live, si.amp = shmaddr → si.nattach ≠ 0
  -- a segment that is not attached is empty
  | shmctl shmid .rmid =>
    ∀ si, getIpcById s.cx.keymap shmid = some si → si.nattach = 0 → si.segsz = 0
  | shmctl _ _ => True

/-! ### What a call can do -/

/-- Everything that a call can do to the segments and the log, each with the condition under which
the call is sound. -/
inductive ShmMove (s : ShmState) (call : ShmCall) (s' : ShmState) : Prop
  | idle (hlive : s'.live.Perm s.live) (hidx : s.idx ≤ s'.idx)
      (htotal : s'.cx.totshm = s.cx.totshm) (hlog : s'.log = s.log) (hsound : call.Sound s)
  | create (si : ShmidDs) (hlive : s'.live.Perm (si :: s.live)) (hseq : si.perm.seq = s.idx)
      (hidx : s'.idx = s.idx + 1) (hnew : si.nattach = 0 ∧ si.deleteMe = false)
      (hamp : si.amp ≠ 0 ∧ si.amp ∉ s.live.map ShmidDs.amp)
      (htotal : s'.cx.totshm = s.cx.totshm + si.segsz)
      (hlog : s'.log = s.log ++ [.created si.perm.seq])
      (hsound : call.Sound s ↔ s.cx.totshm.toNat + si.segsz.toNat < 2 ^ 32)
  | attach (si : ShmidDs) (rest : List ShmidDs) (mode : UInt32) (hlive : s.live.Perm (si :: rest))
      (hlive' : s'.live.Perm ({ si with nattach := toInt32 (si.nattach + 1)
                                        perm := { si.perm with mode := mode } } :: rest))
      (hidx : s'.idx = s.idx) (htotal : s'.cx.totshm = s.cx.totshm)
      (hlog : s'.log = s.log ++ [.attached si.perm.seq])
      (hsound : call.Sound s ↔ si.nattach ≠ longMax)
  | detach (si : ShmidDs) (rest : List ShmidDs) (hlive : s.live.Perm (si :: rest))
      (hlive' : s'.live.Perm ({ si with nattach := toInt32 (si.nattach - 1) } :: rest))
      (hkept : ¬ (toInt32 (si.nattach - 1) = 0 ∧ si.deleteMe = true))
      (hidx : s'.idx = s.idx) (htotal : s'.cx.totshm = s.cx.totshm)
      (hlog : s'.log = s.log ++ [.detached si.perm.seq])
      (hsound : call.Sound s ↔ si.nattach ≠ 0)
  | detachLast (si : ShmidDs) (rest : List ShmidDs) (hlive : s.live.Perm (si :: rest))
      (hlive' : s'.live.Perm rest)
      (hlast : toInt32 (si.nattach - 1) = 0 ∧ si.deleteMe = true)
      (hidx : s'.idx = s.idx) (htotal : s'.cx.totshm = s.cx.totshm - si.segsz)
      (hlog : s'.log = s.log ++ [.detached si.perm.seq])
      (hsound : call.Sound s ↔ si.nattach ≠ 0)
  | mark (si : ShmidDs) (rest : List ShmidDs) (mode : UInt32) (hlive : s.live.Perm (si :: rest))
      (hlive' : s'.live.Perm ({ si with deleteMe := true
                                        perm := { si.perm with mode := mode } } :: rest))
      (hkept : si.nattach ≠ 0) (hidx : s'.idx = s.idx) (htotal : s'.cx.totshm = s.cx.totshm)
      (hlog : s'.log = s.log ++ [.marked si.perm.seq]) (hsound : call.Sound s)
  | remove (si : ShmidDs) (rest : List ShmidDs) (hlive : s.live.Perm (si :: rest))
      (hlive' : s'.live.Perm rest) (hlast : si.nattach = 0) (hidx : s'.idx = s.idx)
      (htotal : s'.cx.totshm = s.cx.totshm) (hlog : s'.log = s.log ++ [.marked si.perm.seq])
      (hsound : call.Sound s ↔ si.segsz = 0)

/-- What the addresses of the segments need for a call to find its segment. -/
structure Addressed (s : ShmState) : Prop where
  ne_zero : ∀ si ∈ s.live, si.amp ≠ 0
  nodup : (s.live.map ShmidDs.amp).Nodup

namespace ShmMove

variable {s : ShmState}

theorem of_shmat (shmid : ℤ) (prefadds : ℕ) :
    ShmMove s (.shmat shmid prefadds) ((ShmCall.shmat shmid prefadds).step s).1 := by
  dsimp only [ShmCall.step]
  unfold Clib4.shmat
  cases hget : getIpcById s.cx.keymap shmid with
  | none =>
    refine .idle (.refl _) le_rfl rfl (append_nil _) ?_
    intro si hsi
    rw [hget] at hsi
    cases hsi
  | some si =>
    have hsound : (ShmCall.shmat shmid prefadds).Sound s ↔
        (prefadds = 0 ∨ prefadds = si.amp → si.nattach ≠ longMax) := by
      simp only [ShmCall.Sound, hget, Option.some.injEq, forall_eq']
    dsimp only
    split
    · next hpref =>
      obtain ⟨i, rfl, hi⟩ := getIpcById_eq_some hget
      obtain ⟨rest, hlive, hupdate⟩ := perm_live_update hi
      exact .attach si rest _ hlive (hupdate _).1 rfl rfl rfl (hsound.trans (by simp [hpref]))
    · next hpref =>
      exact .idle (.refl _) le_rfl rfl (append_nil _) (hsound.2 fun h => absurd h hpref)

theorem filter_amp {si : ShmidDs} {rest : List ShmidDs} (h : Addressed s)
    (hlive : s.live.Perm (si :: rest)) : s.live.filter (·.amp == si.amp) = [si] := by
  have hnodup := (hlive.map ShmidDs.amp).nodup_iff.1 h.nodup
  rw [map_cons, nodup_cons] at hnodup
  have hrest : rest.filter (·.amp == si.amp) = [] := by
    rw [filter_eq_nil_iff]
    intro other hother heq
    exact hnodup.1 (mem_map.2 ⟨other, hother, by simpa using heq⟩)
  have hfilter := hlive.filter (·.amp == si.amp)
  rw [filter_cons_of_pos (by simp), hrest] at hfilter
  exact perm_singleton.1 hfilter

theorem of_shmdt (h : Addressed s) (shmaddr : ℕ) :
    ShmMove s (.shmdt shmaddr) ((ShmCall.shmdt shmaddr).step s).1 := by
  dsimp only [ShmCall.step]
  unfold Clib4.shmdt
  cases hget : getIpcByP s.cx.keymap (fun si => si.amp == shmaddr) with
  | none =>
    refine .idle (.refl _) le_rfl rfl (append_nil _) ?_
    intro si hsi hamp
    have hne := findObject_eq_none hget si hsi
    simp [hamp] at hne
  | some p =>
    obtain ⟨id, si⟩ := p
    obtain ⟨hid, hamp⟩ := getIpcByP_eq_some hget
    obtain rfl : si.amp = shmaddr := by simpa using hamp
    obtain ⟨rest, hlive, hupdate⟩ := perm_live_update hid
    have hfilter : s.live.filter (·.amp == si.amp) = [si] := filter_amp h hlive
    have hsound : (ShmCall.shmdt si.amp).Sound s ↔ si.nattach ≠ 0 := by
      constructor
      · intro hall
        exact hall si (mem_live hid) rfl
      · intro hne other hother hsame
        have hmem : other ∈ s.live.filter (·.amp == si.amp) :=
          mem_filter.2 ⟨hother, by simpa using hsame⟩
        rw [hfilter, mem_singleton] at hmem
        rwa [hmem]
    dsimp only
    split
    · next hlast =>
      refine .detachLast si rest hlive (hupdate _).2 hlast ?_ rfl ?_ hsound
      · exact idx_ipcRmId _ _
      · rw [hfilter]
        rfl
    · next hkept =>
      refine .detach si rest hlive (hupdate _).1 hkept rfl rfl ?_ hsound
      rw [hfilter]
      rfl

theorem of_shmctl (shmid : ℤ) (cmd : ShmCmd) :
    ShmMove s (.shmctl shmid cmd) ((ShmCall.shmctl shmid cmd).step s).1 := by
  dsimp only [ShmCall.step]
  unfold Clib4.shmctl
  cases hget : getIpcById s.cx.keymap shmid with
  | none =>
    cases cmd <;> refine .idle (.refl _) le_rfl rfl (append_nil _) ?_
    all_goals first
      | trivial
      | simp [ShmCall.Sound, hget]
  | some si =>
    cases cmd with
    | rmid =>
      have hsound : (ShmCall.shmctl shmid .rmid).Sound s ↔ (si.nattach = 0 → si.segsz = 0) := by
        simp only [ShmCall.Sound, hget, Option.some.injEq, forall_eq']
      obtain ⟨i, rfl, hi⟩ := getIpcById_eq_some hget
      obtain ⟨rest, hlive, hupdate⟩ := perm_live_update hi
      dsimp only
      split
      · next hlast =>
        refine .remove si rest hlive (hupdate _).2 hlast ?_ rfl rfl (hsound.trans (by simp [hlast]))
        exact idx_ipcRmId _ _
      · next hkept =>
        exact .mark si rest _ hlive (hupdate _).1 hkept rfl rfl rfl
          (hsound.2 fun h => absurd h hkept)
    | stat cbuf =>
      cases cbuf
      · exact .idle (.refl _) le_rfl rfl (append_nil _) trivial
      · exact .idle (.refl _) le_rfl rfl (append_nil _) trivial
    | lock locked =>
      cases locked
      · exact .idle (.refl _) le_rfl rfl (append_nil _) trivial
      · exact .idle (.refl _) le_rfl rfl (append_nil _) trivial
    | set | unlock | other => exact .idle (.refl _) le_rfl rfl (append_nil _) trivial

theorem of_shmget (h : Addressed s) (key : IpcKey) (size flags : UInt32) (sys : ShmAnswers) :
    ShmMove s (.shmget key size flags sys) ((ShmCall.shmget key size flags sys).step s).1 := by
  -- a call that creates nothing is sound
  have hidle : ∀ s', ¬ s.Creates key size flags sys → s'.live.Perm s.live → s.idx ≤ s'.idx →
      s'.cx.totshm = s.cx.totshm → s'.log = s.log →
      ShmMove s (.shmget key size flags sys) s' :=
    fun s' hno hlive hidx htot hlog => .idle hlive hidx htot hlog fun hcreates =>
      absurd hcreates hno
  have hmade : sys.record = true → ∀ flags, (shmConstruct sys.record key flags).isSome := by
    intro hrecord flags
    rw [shmConstruct, if_pos hrecord]
    rfl
  generalize hs' : ((ShmCall.shmget key size flags sys).step s).1 = s'
  dsimp only [ShmCall.step] at hs'
  unfold Clib4.shmget at hs'
  split at hs'
  case isFalse hsize =>
    subst hs'
    exact hidle _ (fun hcreates => hsize hcreates.1) (.refl _) le_rfl rfl (append_nil _)
  case isTrue hsize =>
    have houtcome := getIpcKeyId_spec s.cx.keymap key flags (shmConstruct sys.record) sys.slots
    have hiff := fun hrecord =>
      getIpcKeyId_creates_iff s.cx.keymap flags sys.slots (hmade hrecord)
    generalize getIpcKeyId s.cx.keymap key flags (shmConstruct sys.record) sys.slots = r
      at houtcome hiff hs'
    cases houtcome with
    | refused e hlive hidx =>
      subst hs'
      refine hidle _ (fun hcreates => ?_) (List.Perm.of_eq hlive) hidx rfl (append_nil _)
      obtain ⟨m', i, heq, -⟩ := (hiff hcreates.2.1).2 hcreates.2.2.1
      cases heq
    | found i si hi =>
      have hget := getIpcById_natCast hi
      have hne := h.ne_zero si (mem_live hi)
      simp only [hget, if_neg hne, createdEvents] at hs'
      subst hs'
      refine hidle _ (fun hcreates => ?_) (.refl _) le_rfl rfl (append_nil _)
      obtain ⟨m', i, heq, hidx⟩ := (hiff hcreates.2.1).2 hcreates.2.2.1
      cases heq
      omega
    | @created m' i flags' o hnew hfree hstored hlive hidx =>
      have hget := getIpcById_natCast hstored
      obtain ⟨rest, hrest, hupdate⟩ := perm_live_update hstored
      have hsame : rest.Perm s.live := (hrest.symm.trans hlive).cons_inv
      obtain ⟨hrecord, hamp, hnattach, hdelete⟩ :
          sys.record = true ∧ o.amp = 0 ∧ o.nattach = 0 ∧ o.deleteMe = false := by
        unfold shmConstruct at hnew
        split at hnew
        · next hrecord =>
          cases hnew
          exact ⟨hrecord, rfl, rfl, rfl⟩
        · cases hnew
      have hzero : (IpcGeneric.setSeq o s.cx.keymap.idx : ShmidDs).amp = 0 := hamp
      simp only [hget, if_pos hzero] at hs'
      cases hpick : sys.memory.pick (s.cx.keymap.live.map ShmidDs.amp) with
      | none =>
        -- without memory the record is removed again
        rw [hpick] at hs'
        subst hs'
        have hlive' := (perm_live_ipcRmId hstored).symm.trans hlive
        refine hidle _ (fun hcreates => ?_) hlive'.cons_inv ?_ rfl (append_nil _)
        · have hsome := hcreates.2.2.2
          rw [ShmState.live, hpick] at hsome
          cases hsome
        show s.cx.keymap.idx ≤ (ipcRmId m' i).idx
        rw [idx_ipcRmId, hidx]
        exact Nat.le_succ _
      | some a =>
        rw [hpick] at hs'
        subst hs'
        set si : ShmidDs :=
          { (IpcGeneric.setSeq o s.cx.keymap.idx : ShmidDs) with amp := a, segsz := size } with hsi
        have hlive' : (m'.update i si).live.Perm (si :: s.live) :=
          (hupdate si).1.trans (hsame.cons si)
        have hthere : getIpcById (m'.update i si) i = some si :=
          getIpcById_natCast (getElem?_update hstored si)
        have hevents : createdEvents s.cx
            { s.cx with keymap := m'.update i si, totshm := s.cx.totshm + size } (.ok i)
              = [.created si.perm.seq] := by
          simp only [createdEvents, hfree, hthere]
        refine .create si hlive' rfl hidx ⟨hnattach, hdelete⟩ (sys.memory.pick_spec hpick) rfl
          (congrArg (s.log ++ ·) hevents) ?_
        have hcreates : s.Creates key size flags sys :=
          ⟨hsize, hrecord, (hiff hrecord).1 ⟨m', i, rfl, hidx⟩, Option.isSome_of_eq_some hpick⟩
        exact ⟨fun himp => himp hcreates, fun hlt _ => hlt⟩

end ShmMove

/-- **Everything that a call can do.** -/
theorem ShmCall.step_cases {s : ShmState} (h : Addressed s) (call : ShmCall) :
    ShmMove s call (call.step s).1 := by
  cases call with
  | shmget key size flags sys => exact .of_shmget h key size flags sys
  | shmat shmid prefadds => exact .of_shmat shmid prefadds
  | shmdt shmaddr => exact .of_shmdt h shmaddr
  | shmctl shmid cmd => exact .of_shmctl shmid cmd

end Clib4
