import Clib4.SysV.MsgDelivery

/-!
# The limit of a SysV message queue

`msgsnd` is to append a message only if the queue has room for it; the room is an unsigned
difference, which is large once `IPC_SET` has lowered the limit below what is queued.

## Main definitions

* `QueueAct`, `queueStep` — the steps of the processes, with `IPC_SET`.
* `Appends`, `AppendsWithin` — a step appends a message, and only where there is room for it.
* `SetsAbove` — `IPC_SET` sets no limit below what is queued.
* `MsgSystem.Charged` — the invariant: `cbytes` is the size of all nodes, and within the limit.

## Main results

* `capacity_kept` — **when the limit of a queue is kept.**
-/

namespace Clib4.SysV

open Interleaving List

/-- A step of a process, or `msgctl` with `IPC_SET`. -/
inductive QueueAct
  | act (a : MsgAct)
  | ipcSet (qbytes : UInt32)

/-- A step. -/
def queueStep (s : MsgSystem) : QueueAct → Option MsgSystem
  | .act a => msgStep s a
  | .ipcSet qbytes => some (if 0 < qbytes then { s with qbytes := qbytes } else s)

/-- A step appends a message with the given text. -/
def Appends (s : MsgSystem) (a : QueueAct) (text : List UInt8) : Prop :=
  ∃ m p type nowait noerror addr s', a = .act m ∧
    m.pending s = some (p, .send type text nowait noerror, some addr) ∧
    msgStep s m = some s' ∧ s'.nodes = addr :: s.nodes

/-- A message is appended only if there is room for it. -/
def AppendsWithin (s : MsgSystem) (a : QueueAct) : Prop :=
  ∀ text, Appends s a text → s.cbytes.toNat + text.length ≤ s.qbytes.toNat

/-- `IPC_SET` does not set a limit below what is queued. -/
def SetsAbove (s : MsgSystem) : QueueAct → Prop
  | .act _ => True
  | .ipcSet qbytes => 0 < qbytes → s.cbytes ≤ qbytes

instance (s : MsgSystem) : (a : QueueAct) → Decidable (SetsAbove s a)
  | .act _ => .isTrue trivial
  | .ipcSet qbytes => inferInstanceAs (Decidable (0 < qbytes → s.cbytes ≤ qbytes))

/-- What is appended is not longer than the unsigned difference. -/
theorem Appends.length_le {s : MsgSystem} {a : QueueAct} {text : List UInt8}
    (h : Appends s a text) : text.length ≤ (s.qbytes - s.cbytes).toNat := by
  obtain ⟨m, p, type, nowait, noerror, addr, s', rfl, hpend, hstep, hnodes⟩ := h
  obtain ⟨⟨s₀, out⟩, hreply, heq⟩ := Option.map_eq_some_iff.1 hstep
  obtain rfl : s₀ = s' := heq
  obtain ⟨p', c', alloc', s₁, hpend', henter, rfl⟩ := msgReply_eq_some hreply
  cases hpend.symm.trans hpend'
  by_contra hlong
  simp only [MsgSystem.enter, MsgSystem.msgsnd, if_neg hlong] at henter
  -- without room the list of the nodes stays as it is
  split_ifs at henter
  all_goals
    cases henter
    exact absurd hnodes (cons_ne_self _ _).symm

/-! ### The invariant -/

/-- The size of the message of a node. -/
def MsgSystem.sizeAt (s : MsgSystem) (a : Addr) : ℕ := (s.body a).elim 0 Message.size

/-- `cbytes` is the sum over all nodes in use, those included that a failed `msgrcv` has left behind
outside of the list, and it is within the limit. -/
structure MsgSystem.Charged (s : MsgSystem) : Prop where
  nodup : s.nodes.Nodup
  used : ∀ a, a ∈ s.nodes ↔ s.body a ≠ none
  cbytes : s.cbytes.toNat = (s.nodes.map s.sizeAt).sum
  room : s.cbytes ≤ s.qbytes

namespace MsgSystem

variable {s : MsgSystem} {a : Addr} {m : Message}

theorem append_body (s : MsgSystem) (a : Addr) (m : Message) :
    (s.append a m).body = Function.update s.body a (some m) := by
  funext c
  unfold body append
  cases s.last with
  | none => by_cases hc : c = a <;> simp [hc]
  | some lm =>
    by_cases hlm : c = lm <;> by_cases hc : c = a <;> simp_all [Function.comp_def]

theorem Charged.append (h : s.Charged) (ha : s.heap a = none)
    (hroom : m.size ≤ (s.qbytes - s.cbytes).toNat) : (s.append a m).Charged := by
  have hle := UInt32.le_iff_toNat_le.1 h.room
  rw [UInt32.toNat_sub_of_le _ _ h.room] at hroom
  have hnot : a ∉ s.nodes := by simp [h.used, body, ha]
  have hbytes : (s.cbytes + UInt32.ofNat m.size).toNat = s.cbytes.toNat + m.size := by
    have := s.qbytes.toNat_lt
    rw [UInt32.toNat_add, UInt32.toNat_ofNat', Nat.mod_eq_of_lt (show m.size < _ by omega)]
    exact Nat.mod_eq_of_lt (by omega)
  refine ⟨nodup_cons.2 ⟨hnot, h.nodup⟩, fun c => ?_, ?_, ?_⟩
  · rw [append_body]
    by_cases hc : c = a
    · simp [MsgSystem.append, hc]
    · simp [MsgSystem.append, hc, h.used]
  · have hrest : s.nodes.map (s.append a m).sizeAt = s.nodes.map s.sizeAt := by
      apply map_congr_left
      intro c hc
      rw [sizeAt, append_body, Function.update_of_ne (ne_of_mem_of_not_mem hc hnot), sizeAt]
    have hnew : (s.append a m).sizeAt a = m.size := by simp [sizeAt, append_body]
    change (s.cbytes + UInt32.ofNat m.size).toNat = ((a :: s.nodes).map _).sum
    rw [hbytes, map_cons, hrest, hnew, sum_cons, h.cbytes, Nat.add_comm]
  · change s.cbytes + UInt32.ofNat m.size ≤ s.qbytes
    rw [UInt32.le_iff_toNat_le, hbytes]
    omega

theorem Charged.unlink (h : s.Charged) (prev : Option Addr) (a : Addr) :
    (s.unlink prev a).Charged := by
  refine ⟨h.nodup, fun c => ?_, ?_, h.room⟩
  · rw [unlink_body]
    exact h.used c
  · have hsize : (s.unlink prev a).sizeAt = s.sizeAt := by
      funext c
      rw [sizeAt, unlink_body, sizeAt]
    rw [hsize]
    exact h.cbytes

theorem Charged.deliver (h : s.Charged) (ha : s.body a = some m) (p : Pid) (mlen : ℕ) :
    (s.deliver p a m mlen).Charged := by
  have hmem : a ∈ s.nodes := (h.used a).2 (by simp [ha])
  have hsize : s.sizeAt a = m.size := by simp [sizeAt, ha]
  have hsum : s.cbytes.toNat = m.size + ((s.nodes.erase a).map s.sizeAt).sum := by
    rw [h.cbytes, ((perm_cons_erase hmem).map s.sizeAt).sum_eq, map_cons, sum_cons, hsize]
  have hlt := s.cbytes.toNat_lt
  have hofNat : (UInt32.ofNat m.size).toNat = m.size :=
    UInt32.toNat_ofNat_of_lt' (show m.size < 2 ^ 32 by omega)
  have hbytes : (s.cbytes - UInt32.ofNat m.size).toNat = s.cbytes.toNat - m.size := by
    rw [UInt32.toNat_sub_of_le _ _ (by rw [UInt32.le_iff_toNat_le]; omega), hofNat]
  have hbody : (s.deliver p a m mlen).body = Function.update s.body a none := by
    funext c
    by_cases hc : c = a <;> simp [body, MsgSystem.deliver, hc]
  refine ⟨h.nodup.erase a, fun c => ?_, ?_, ?_⟩
  · rw [hbody]
    by_cases hc : c = a
    · simp [MsgSystem.deliver, hc, h.nodup.not_mem_erase]
    · simp [MsgSystem.deliver, hc, mem_erase_of_ne hc, h.used]
  · have hrest : (s.nodes.erase a).map (s.deliver p a m mlen).sizeAt =
        (s.nodes.erase a).map s.sizeAt := by
      apply map_congr_left
      intro c hc
      have hne : c ≠ a := ne_of_mem_of_not_mem hc h.nodup.not_mem_erase
      rw [sizeAt, hbody, Function.update_of_ne hne, sizeAt]
    change (s.cbytes - UInt32.ofNat m.size).toNat = ((s.nodes.erase a).map _).sum
    rw [hbytes, hrest, hsum, Nat.add_sub_cancel_left]
  · have hroom := UInt32.le_iff_toNat_le.1 h.room
    change s.cbytes - UInt32.ofNat m.size ≤ s.qbytes
    rw [UInt32.le_iff_toNat_le, hbytes]
    omega

/-- The critical sections keep the invariant, also where they fail. -/
theorem Charged.enter {s' : MsgSystem} {p : Pid} {c : MsgCall} {alloc : Option Addr}
    {out : MsgOutcome} (h : s.Charged) (henter : s.enter p c alloc = some (s', out)) :
    s'.Charged := by
  cases c with
  | send type text nowait noerror =>
    simp only [MsgSystem.enter, msgsnd] at henter
    split_ifs at henter with hroom
    · split at henter
      · cases henter
        exact { h with }
      · split_ifs at henter with hfree
        cases henter
        exact { h.append (m := ⟨s.sent.length, type, text⟩) hfree.2 hroom with }
    all_goals
      cases henter
      exact { h with }
  | receive mlen mtype nowait noerror =>
    simp only [MsgSystem.enter, msgrcv] at henter
    split at henter
    · cases henter
    · split_ifs at henter <;> cases henter <;> exact { h with }
    · next prev b _ =>
      split at henter
      · cases henter
      · next x hx =>
        have hunlink := h.unlink prev b
        split_ifs at henter <;> cases henter
        · refine hunlink.deliver ?_ p mlen
          rw [unlink_body, body, hx]
          rfl
        · exact hunlink

theorem Charged.step {s' : MsgSystem} {q : QueueAct} (h : s.Charged) (hq : SetsAbove s q)
    (hstep : queueStep s q = some s') : s'.Charged := by
  cases q with
  | act b =>
    obtain ⟨⟨s₀, out⟩, hreply, heq⟩ := Option.map_eq_some_iff.1 hstep
    obtain rfl : s₀ = s' := heq
    obtain ⟨p, c, alloc, s₁, -, henter, rfl⟩ := msgReply_eq_some hreply
    exact { h.enter henter with }
  | ipcSet qbytes =>
    obtain rfl := Option.some.inj hstep
    split_ifs with hpos
    · exact { h with room := hq hpos }
    · exact h

end MsgSystem

/-- Within the limit the unsigned difference is the room that there is. -/
theorem MsgSystem.Charged.appendsWithin {s : MsgSystem} (h : s.Charged) (a : QueueAct) :
    AppendsWithin s a := by
  intro text happends
  have hle := happends.length_le
  rw [UInt32.toNat_sub_of_le _ _ h.room] at hle
  have hroom := UInt32.le_iff_toNat_le.1 h.room
  omega

/-- **When the limit of a queue is kept**: in every run in which `IPC_SET` sets no limit below what
is queued. -/
theorem capacity_kept (qbytes : UInt32) (acts : List QueueAct)
    (h : Along queueStep SetsAbove (MsgSystem.created qbytes) acts) :
    Along queueStep AppendsWithin (MsgSystem.created qbytes) acts := by
  refine h.of_invariant (I := MsgSystem.Charged) ?_ ?_ ?_
  · exact fun s a hs _ => hs.appendsWithin a
  · exact fun s a s₁ hs ha hstep => hs.step ha hstep
  · exact ⟨nodup_nil, by simp [MsgSystem.created, MsgSystem.body], rfl, UInt32.zero_le⟩

/-- Three bytes are sent, the limit is lowered to three, and a byte more is refused. -/
theorem capacity_kept_lowered :
    Along queueStep AppendsWithin (MsgSystem.created 4)
      [.act (.call 0 (.send 1 [7, 7, 7] true false) (some 1)), .ipcSet 3,
        .act (.call 0 (.send 1 [7] true false) (some 2))] :=
  capacity_kept 4 _ (by decide)

/-- Three bytes are sent, the limit is lowered to two, and a byte is sent again. -/
theorem capacity_after_ipcSet :
    ¬ Along queueStep AppendsWithin (MsgSystem.created 3)
      [.act (.call 0 (.send 1 [7, 7, 7] true false) (some 1)), .ipcSet 2,
        .act (.call 0 (.send 1 [7] true false) (some 2))] := by
  intro h
  obtain ⟨-, h⟩ := h _ rfl
  obtain ⟨-, h⟩ := h _ rfl
  obtain ⟨hwithin, -⟩ := h _ rfl
  have hroom := hwithin [7] ⟨_, 0, 1, true, false, 2, _, rfl, rfl, rfl, rfl⟩
  exact absurd hroom (by decide)

end Clib4.SysV
