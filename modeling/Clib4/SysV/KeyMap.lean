import Mathlib.Data.List.ReduceOption
import Mathlib.Tactic
import Clib4.Errno

/-!
# The key map of the System V objects

Message queues, semaphores and segments of shared memory are kept in a vector of slots.  An
object is found by its key, by its index, which is the identifier that programs see, or by a
property of its own.  All three kinds of objects share this code; what it needs of an object is
the header that they have in common.

## Main definitions

* `IpcIdKeyMap` — the map; `IpcIdKeyMap.live` is the list of its objects.
* `getIpcKeyId`, `getIpcById`, `getIpcByP`, `ipcRmId` — the functions of the source.

## Main results

* `getIpcKeyId_spec` — **what a request for a key can do.**
-/

namespace Clib4

open List

/-- `key_t`. -/
abbrev IpcKey := UInt32

/-- `struct ipc_perm`, without the owner and the creator.  The sequence number counts the objects
ever created; nothing reads it. -/
structure IpcPerm where
  mode : UInt32
  seq : ℕ := 0
  key : IpcKey
  deriving DecidableEq, Repr

/-- `struct IPCGeneric`: an object that begins with the common header. -/
class IpcGeneric (α : Type) where
  perm : α → IpcPerm
  setSeq : α → ℕ → α

def ipcCreat : UInt32 := 0o1000

def ipcExcl : UInt32 := 0o2000

def ipcDelete : UInt32 := 0o2000

def ipcPrivate : IpcKey := 0x80000000

/-- `VEXTEND`, the number of slots that are added to a full vector. -/
def vExtend : ℕ := 32

/-- `struct IPCIdKeyMap`.  Of the `vlen` slots of the vector only the first `nobj` are ever read:
`objv` is those. -/
structure IpcIdKeyMap (α : Type) where
  objv : List (Option α)
  vlen : ℕ
  idx : ℕ
  nused : ℤ
  nobj_le : objv.length ≤ vlen

namespace IpcIdKeyMap

variable {α : Type}

/-- The map as `IPCMapInit` leaves it. -/
def empty : IpcIdKeyMap α := { objv := [], vlen := 0, idx := 0, nused := 0, nobj_le := le_rfl }

def nobj (m : IpcIdKeyMap α) : ℕ := m.objv.length

/-- There is room behind the slots of a vector that was extended. -/
theorem nobj_lt_extended (m : IpcIdKeyMap α) : m.nobj < m.vlen + vExtend :=
  Nat.lt_of_le_of_lt m.nobj_le (Nat.lt_add_of_pos_right (by decide))

/-- The objects of the map. -/
def live (m : IpcIdKeyMap α) : List α := m.objv.reduceOption

/-- The map with another object in a slot that is in use. -/
def update (m : IpcIdKeyMap α) (id : ℕ) (o : α) : IpcIdKeyMap α :=
  { m with objv := m.objv.set id (some o), nobj_le := by simpa using m.nobj_le }

end IpcIdKeyMap

open IpcIdKeyMap

variable {α : Type} [IpcGeneric α]

/-! ### The functions -/

/-- The loop of `GetIPCKeyId` from the slot `i` on: where the object with the key is, and
`newidx`, the first free slot in front of it. -/
def findKey (key : IpcKey) (nobj : ℕ) : List (Option α) → ℕ → ℕ → Option ℕ × ℕ
  | [], _, newidx => (none, newidx)
  | some o :: rest, i, newidx =>
    if (IpcGeneric.perm o).key = key then (some i, newidx)
    else findKey key nobj rest (i + 1) newidx
  | none :: rest, i, newidx =>
    findKey key nobj rest (i + 1) (if newidx = nobj then i else newidx)

/-- Store an object in a slot: a free one, or the one behind the last. -/
def IpcIdKeyMap.store (m : IpcIdKeyMap α) (newidx : ℕ) (o : α) (h : m.nobj < m.vlen) :
    IpcIdKeyMap α :=
  { m with
    objv := if newidx < m.nobj then m.objv.set newidx (some o) else m.objv ++ [some o]
    nused := m.nused + 1
    nobj_le := by
      unfold nobj at h
      split
      · simpa using m.nobj_le
      · simpa using h }

/-- `GetIPCKeyId`: the index of the object with the key, or an error number.  `extend` tells
whether a full vector can be extended. -/
def getIpcKeyId (m : IpcIdKeyMap α) (key : IpcKey) (flags : UInt32)
    (construct : IpcKey → UInt32 → Option α) (extend : Bool) : IpcIdKeyMap α × Except Errno ℕ :=
  let (id, newidx) :=
    if key ≠ ipcPrivate then findKey key m.nobj m.objv 0 m.nobj else (none, m.nobj)
  let flags := if key ≠ ipcPrivate then flags else flags ||| ipcCreat
  if flags &&& ipcCreat ≠ 0 then
    match id with
    | some i => if flags &&& ipcExcl ≠ 0 then (m, .error .EEXIST) else (m, .ok i)
    | none =>
      match construct key flags with
      -- the result is then -1, which the callers read as an error number
      | none => (m, .error .EPERM)
      | some o =>
        let o := IpcGeneric.setSeq o m.idx
        let m := { m with idx := m.idx + 1 }
        if h : m.nobj = m.vlen then
          if extend then
            let larger : IpcIdKeyMap α :=
              { m with vlen := m.vlen + vExtend
                       nobj_le := le_trans m.nobj_le (Nat.le_add_right _ _) }
            (larger.store newidx o m.nobj_lt_extended, .ok newidx)
          else (m, .error .ENOMEM)
        else (m.store newidx o (lt_of_le_of_ne m.nobj_le h), .ok newidx)
  else
    match id with
    | some i => (m, .ok i)
    | none => (m, .error .ENOENT)

def getIpcById {α : Type} (m : IpcIdKeyMap α) (id : ℤ) : Option α :=
  if 0 ≤ id ∧ id < m.nobj then (m.objv[id.toNat]?).join else none

/-- The loop of `GetIPCByP` from the slot `i` on. -/
def findObject {α : Type} (eq : α → Bool) : List (Option α) → ℕ → Option (ℕ × α)
  | [], _ => none
  | some o :: rest, i => if eq o then some (i, o) else findObject eq rest (i + 1)
  | none :: rest, i => findObject eq rest (i + 1)

def getIpcByP {α : Type} (m : IpcIdKeyMap α) (eq : α → Bool) : Option (ℕ × α) :=
  findObject eq m.objv 0

def ipcRmId {α : Type} (m : IpcIdKeyMap α) (id : ℕ) : IpcIdKeyMap α :=
  match getIpcById m id with
  | some _ =>
    { m with objv := m.objv.set id none, nused := m.nused - 1
             nobj_le := by simpa using m.nobj_le }
  | none => m

/-! ### The objects of the map -/

section Live

variable {α : Type}

variable {l : List (Option α)} {i : ℕ} {m : IpcIdKeyMap α} {o : α} {eq : α → Bool}

theorem reduceOption_set {x : Option α} (h : l[i]? = some x) :
    ∃ l₁ l₂, l.reduceOption = l₁ ++ x.toList ++ l₂ ∧
      ∀ y : Option α, (l.set i y).reduceOption = l₁ ++ y.toList ++ l₂ := by
  induction l generalizing i with
  | nil => simp at h
  | cons z l ih =>
    cases i with
    | zero =>
      obtain rfl : z = x := by simpa using h
      refine ⟨[], l.reduceOption, ?_, fun y => ?_⟩
      · cases z <;> simp
      · cases y <;> simp
    | succ i =>
      obtain ⟨l₁, l₂, hl, hset⟩ := ih (by simpa using h)
      refine ⟨z.toList ++ l₁, l₂, ?_, fun y => ?_⟩
      · cases z <;> simp [hl]
      · cases z <;> simp [hset]

theorem getIpcById_eq_some {id : ℤ} (h : getIpcById m id = some o) :
    ∃ i : ℕ, id = i ∧ m.objv[i]? = some (some o) := by
  unfold getIpcById at h
  split at h
  · next hid =>
    refine ⟨id.toNat, by omega, ?_⟩
    rwa [Option.join_eq_some_iff] at h
  · cases h

section

variable (h : m.objv[i]? = some (some o))

include h

theorem getIpcById_natCast : getIpcById m i = some o := by
  have hlt : i < m.objv.length := by
    by_contra hge
    rw [getElem?_eq_none (by omega)] at h
    cases h
  unfold getIpcById IpcIdKeyMap.nobj
  rw [if_pos ⟨Int.natCast_nonneg i, by exact_mod_cast hlt⟩, Int.toNat_natCast, h]
  rfl

theorem mem_live : o ∈ m.live := by
  rw [IpcIdKeyMap.live, reduceOption_mem_iff]
  exact mem_of_getElem? h

/-- **Removing an object.** -/
theorem perm_live_ipcRmId : m.live.Perm (o :: (ipcRmId m i).live) := by
  obtain ⟨l₁, l₂, hl, hset⟩ := reduceOption_set h
  have hrm : (ipcRmId m i).live = l₁ ++ l₂ := by
    simp only [ipcRmId, getIpcById_natCast h, IpcIdKeyMap.live]
    simpa using hset none
  rw [hrm, IpcIdKeyMap.live, hl]
  simp

theorem getElem?_update (o' : α) : (m.update i o').objv[i]? = some (some o') := by
  refine getElem?_set_self ?_
  by_contra hge
  rw [getElem?_eq_none (by omega)] at h
  cases h

/-- **Changing an object**, and removing it then. -/
theorem perm_live_update :
    ∃ rest, m.live.Perm (o :: rest) ∧ ∀ o', (m.update i o').live.Perm (o' :: rest) ∧
      (ipcRmId (m.update i o') i).live.Perm rest := by
  obtain ⟨l₁, l₂, hl, hset⟩ := reduceOption_set h
  have hupdate : ∀ o', (m.update i o').live.Perm (o' :: (l₁ ++ l₂)) := by
    intro o'
    rw [IpcIdKeyMap.live, IpcIdKeyMap.update, hset]
    simp
  refine ⟨l₁ ++ l₂, ?_, fun o' => ⟨hupdate o', ?_⟩⟩
  · rw [IpcIdKeyMap.live, hl]
    simp
  · have hremove := perm_live_ipcRmId (getElem?_update h o')
    exact (hremove.symm.trans (hupdate o')).cons_inv

end

theorem idx_ipcRmId (m : IpcIdKeyMap α) (i : ℕ) : (ipcRmId m i).idx = m.idx := by
  unfold ipcRmId
  split <;> rfl

theorem findObject_eq_some {j : ℕ} (h : findObject eq l i = some (j, o)) :
    ∃ k, j = i + k ∧ l[k]? = some (some o) ∧ eq o = true := by
  fun_induction findObject eq l i with
  | case1 => cases h
  | case2 a l i ha =>
    cases h
    exact ⟨0, rfl, rfl, ha⟩
  | case3 _ _ _ _ ih | case4 _ _ ih =>
    obtain ⟨k, rfl, hk, heq⟩ := ih h
    exact ⟨k + 1, by omega, by simpa using hk, heq⟩

theorem getIpcByP_eq_some (h : getIpcByP m eq = some (i, o)) :
    m.objv[i]? = some (some o) ∧ eq o = true := by
  obtain ⟨k, rfl, hk, heq⟩ := findObject_eq_some h
  exact ⟨by simpa using hk, heq⟩

theorem findObject_eq_none (h : findObject eq l i = none) : ∀ o ∈ l.reduceOption, eq o = false := by
  fun_induction findObject eq l i with
  | case1 => simp
  | case2 => cases h
  | case3 a l i ha ih => exact forall_mem_cons.2 ⟨by simpa using ha, ih h⟩
  | case4 l i ih => exact ih h

end Live

/-! ### Requests for a key -/

variable {i : ℕ}

theorem findKey_fst {key : IpcKey} {nobj : ℕ} {l : List (Option α)} {newidx j : ℕ}
    (h : (findKey key nobj l i newidx).1 = some j) :
    ∃ k o, j = i + k ∧ l[k]? = some (some o) := by
  fun_induction findKey key nobj l i newidx with
  | case1 => cases h
  | case2 a l i newidx =>
    cases h
    exact ⟨0, a, rfl, rfl⟩
  | case3 _ _ _ _ _ ih | case4 _ _ _ ih =>
    obtain ⟨k, o, rfl, hk⟩ := ih h
    exact ⟨k + 1, o, by omega, by simpa using hk⟩

theorem findKey_eq_none (key : IpcKey) (nobj : ℕ) (l : List (Option α)) (i newidx : ℕ) :
    (findKey key nobj l i newidx).1 = none ↔
      ∀ o ∈ l.reduceOption, (IpcGeneric.perm o).key ≠ key := by
  fun_induction findKey key nobj l i newidx <;> simp_all

/-- The slot that the loop chooses for a new object is free, unless it is the one it began
with. -/
theorem findKey_snd (key : IpcKey) (nobj : ℕ) (l : List (Option α)) (i newidx : ℕ) :
    (findKey key nobj l i newidx).2 = newidx ∨
      ∃ k, (findKey key nobj l i newidx).2 = i + k ∧ l[k]? = some none := by
  fun_induction findKey key nobj l i newidx with
  | case1 | case2 => exact .inl rfl
  | case3 i newidx a l _ ih =>
    exact ih.imp_right fun ⟨k, h, hk⟩ => ⟨k + 1, by omega, by simpa using hk⟩
  | case4 i newidx l ih =>
    rcases ih with h | ⟨k, h, hk⟩
    · rw [h]
      split
      · exact .inr ⟨0, rfl, rfl⟩
      · exact .inl rfl
    · exact .inr ⟨k + 1, by omega, by simpa using hk⟩

/-- A slot for a new object. -/
def IpcIdKeyMap.Free {α : Type} (m : IpcIdKeyMap α) (i : ℕ) : Prop :=
  i = m.nobj ∨ m.objv[i]? = some none

theorem getIpcById_of_free {α : Type} {m : IpcIdKeyMap α} (h : m.Free i) :
    getIpcById m i = none := by
  unfold getIpcById
  split
  · next hi =>
    rcases h with rfl | h
    · omega
    · rw [Int.toNat_natCast, h]
      rfl
  · rfl

omit [IpcGeneric α] in
/-- **Storing an object.** -/
theorem store_spec {m : IpcIdKeyMap α} (h : m.Free i) (o : α) (hlt : m.nobj < m.vlen) :
    (m.store i o hlt).objv[i]? = some (some o) ∧ (m.store i o hlt).live.Perm (o :: m.live) := by
  unfold IpcIdKeyMap.store IpcIdKeyMap.live
  rcases h with rfl | h
  · have hnot : ¬ m.nobj < m.nobj := lt_irrefl _
    simp only [if_neg hnot]
    refine ⟨?_, ?_⟩
    · simp [IpcIdKeyMap.nobj]
    · rw [reduceOption_append]
      exact perm_append_singleton o _
  · have hi : i < m.nobj := by
      by_contra hge
      rw [getElem?_eq_none (by unfold IpcIdKeyMap.nobj at hge; omega)] at h
      cases h
    obtain ⟨l₁, l₂, hl, hset⟩ := reduceOption_set h
    simp only [if_pos hi]
    refine ⟨?_, ?_⟩
    · rw [getElem?_set_self hi]
    · rw [hset, hl]
      simp

/-- What a request for a key can do. -/
inductive KeyIdOutcome (m : IpcIdKeyMap α) (key : IpcKey)
    (construct : IpcKey → UInt32 → Option α) : IpcIdKeyMap α × Except Errno ℕ → Prop
  /-- Nothing is found or created.  An object may have been counted that could not be stored. -/
  | refused {m' : IpcIdKeyMap α} (e : Errno) (hlive : m'.live = m.live) (hidx : m.idx ≤ m'.idx) :
    KeyIdOutcome m key construct (m', .error e)
  | found (i : ℕ) (o : α) (h : m.objv[i]? = some (some o)) :
    KeyIdOutcome m key construct (m, .ok i)
  | created {m' : IpcIdKeyMap α} (i : ℕ) (flags : UInt32) (o : α)
      (hnew : construct key flags = some o) (hfree : getIpcById m i = none)
      (hstored : m'.objv[i]? = some (some (IpcGeneric.setSeq o m.idx)))
      (hlive : m'.live.Perm (IpcGeneric.setSeq o m.idx :: m.live)) (hidx : m'.idx = m.idx + 1) :
    KeyIdOutcome m key construct (m', .ok i)

/-- **What a request for a key can do.** -/
theorem getIpcKeyId_spec (m : IpcIdKeyMap α) (key : IpcKey) (flags : UInt32)
    (construct : IpcKey → UInt32 → Option α) (extend : Bool) :
    KeyIdOutcome m key construct (getIpcKeyId m key flags construct extend) := by
  unfold getIpcKeyId
  rcases hfind : (if key ≠ ipcPrivate then findKey key m.nobj m.objv 0 m.nobj
    else (none, m.nobj)) with ⟨id, newidx⟩
  have hid : ∀ i, id = some i → ∃ o, m.objv[i]? = some (some o) := by
    rintro i rfl
    split at hfind
    · obtain ⟨k, o, hk, ho⟩ := findKey_fst (congrArg Prod.fst hfind)
      rw [Nat.zero_add] at hk
      exact ⟨o, hk ▸ ho⟩
    · cases hfind
  have hfree : m.Free newidx := by
    split at hfind
    · have hsnd : (findKey key m.nobj m.objv 0 m.nobj).2 = newidx := congrArg Prod.snd hfind
      rcases findKey_snd key m.nobj m.objv 0 m.nobj with h | ⟨k, h, hk⟩
      · exact .inl (hsnd.symm.trans h)
      · obtain rfl : newidx = k := by omega
        exact .inr hk
    · cases hfind
      exact .inl rfl
  dsimp only
  generalize (if key ≠ ipcPrivate then flags else flags ||| ipcCreat) = flags
  split
  · cases id with
    | some i =>
      obtain ⟨o, ho⟩ := hid i rfl
      dsimp only
      split
      · exact .refused _ rfl le_rfl
      · exact .found i o ho
    | none =>
      cases hnew : construct key flags with
      | none => exact .refused _ rfl le_rfl
      | some o =>
        have hgone := getIpcById_of_free hfree
        dsimp only
        split
        · split
          · -- a full vector is extended first
            refine .created newidx flags o hnew hgone ?_ ?_ rfl
            · exact (store_spec (m := { m with
                idx := m.idx + 1, vlen := m.vlen + vExtend
                nobj_le := le_trans m.nobj_le (Nat.le_add_right _ _) }) hfree _ _).1
            · exact (store_spec (m := { m with
                idx := m.idx + 1, vlen := m.vlen + vExtend
                nobj_le := le_trans m.nobj_le (Nat.le_add_right _ _) }) hfree _ _).2
          · exact .refused _ rfl (Nat.le_succ _)
        · refine .created newidx flags o hnew hgone ?_ ?_ rfl
          · exact (store_spec (m := { m with idx := m.idx + 1 }) hfree _ _).1
          · exact (store_spec (m := { m with idx := m.idx + 1 }) hfree _ _).2
  · cases id with
    | some i =>
      obtain ⟨o, ho⟩ := hid i rfl
      exact .found i o ho
    | none => exact .refused _ rfl le_rfl

/-- A request asks for a new object, and there is room for it: `IPC_CREAT` is among the flags, which
`IPC_PRIVATE` brings along, no object has the key, and a full vector can be extended. -/
def IpcIdKeyMap.Makes (m : IpcIdKeyMap α) (key : IpcKey) (flags : UInt32) (extend : Bool) : Prop :=
  (if key ≠ ipcPrivate then flags else flags ||| ipcCreat) &&& ipcCreat ≠ 0 ∧
    (key ≠ ipcPrivate → ∀ o ∈ m.live, (IpcGeneric.perm o).key ≠ key) ∧
    (m.nobj = m.vlen → extend = true)

/-- **When a request creates an object.** -/
theorem getIpcKeyId_creates_iff (m : IpcIdKeyMap α) {key : IpcKey} (flags : UInt32) (extend : Bool)
    {construct : IpcKey → UInt32 → Option α} (hnew : ∀ flags, (construct key flags).isSome) :
    (∃ m' i, getIpcKeyId m key flags construct extend = (m', .ok i) ∧ m'.idx = m.idx + 1) ↔
      m.Makes key flags extend := by
  have hnone : (if key ≠ ipcPrivate then findKey key m.nobj m.objv 0 m.nobj
      else (none, m.nobj)).1 = none ↔
        (key ≠ ipcPrivate → ∀ o ∈ m.live, (IpcGeneric.perm o).key ≠ key) := by
    split_ifs with hkey
    · rw [findKey_eq_none, forall_prop_of_true hkey]
      rfl
    · simp [hkey]
  unfold getIpcKeyId IpcIdKeyMap.Makes
  rw [← hnone]
  generalize (if key ≠ ipcPrivate then findKey key m.nobj m.objv 0 m.nobj
    else (none, m.nobj)) = found
  generalize (if key ≠ ipcPrivate then flags else flags ||| ipcCreat) = flags
  obtain ⟨o, ho⟩ := Option.isSome_iff_exists.1 (hnew flags)
  obtain ⟨id, newidx⟩ := found
  dsimp only
  cases id with
  | some i =>
    refine iff_of_false ?_ (by simp)
    rintro ⟨m', j, heq, hidx⟩
    split_ifs at heq <;> cases heq <;> omega
  | none =>
    rw [ho]
    dsimp only
    split_ifs with hcreat hfull hextend
    · exact iff_of_true ⟨_, _, rfl, rfl⟩ ⟨hcreat, rfl, fun _ => hextend⟩
    · exact iff_of_false (by simp) fun h => hextend (h.2.2 hfull)
    · exact iff_of_true ⟨_, _, rfl, rfl⟩ ⟨hcreat, rfl, fun h => absurd h hfull⟩
    · exact iff_of_false (by simp) fun h => hcreat h.1

end Clib4
