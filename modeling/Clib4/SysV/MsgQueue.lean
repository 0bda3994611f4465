import Clib4.Base.Interleaving
import Clib4.Base.Linked
import Clib4.Errno
import Clib4.SysV.Semop

/-!
# SysV message queues

The messages of a queue are nodes of a linked list, with pointers to the first and the last one,
a count and a sum of their sizes.  `msgsnd` appends a node if there is room, and `msgrcv` takes
out the first one of a type; both wake those who wait for that, and sleep if they have to.

`msgrcv` takes the node out before it looks at its size.  If the message does not fit, it fails
with `E2BIG`, and the message is gone, while the counters still have it.  And `msgsnd` with
`MSG_NOERROR` reports a message as sent that is larger than the whole queue.

## Main definitions

* `Message`, `Msg`, `MsgSystem` — messages, their nodes, and a queue with its processes.
* `MsgSystem.msgsnd`, `MsgSystem.msgrcv` — the critical sections of the two calls.

## Main results

* `search_spec` — the loops find the first message that is accepted, and the node before it.
* `Lists.append`, `Lists.unlink` — putting a node in and taking it out.
-/

namespace Clib4.SysV

open List Function

/-! ### The queue -/

/-- The address of a node; zero is the null pointer. -/
abbrev Addr := UInt32

/-- A message; the serial number, its place among the messages that were reported as sent, tells
messages with the same contents apart. -/
structure Message where
  serial : ℕ
  type : ℤ
  text : List UInt8
  deriving DecidableEq, Repr

/-- The size of a message. -/
def Message.size (m : Message) : ℕ := m.text.length

/-- `struct Msg`. -/
structure Msg where
  next : Option Addr
  body : Message
  deriving DecidableEq, Repr

/-- A call of `msgsnd` or `msgrcv`. -/
inductive MsgCall
  | send (type : ℤ) (text : List UInt8) (nowait noerror : Bool)
  | receive (mlen : ℕ) (mtype : ℤ) (nowait noerror : Bool)
  deriving DecidableEq, Repr

/-- What a process does. -/
inductive MsgStatus
  | idle
  | asleep (c : MsgCall)
  | woken (c : MsgCall)
  deriving DecidableEq, Repr

/-- What a successful `msgrcv` has copied. -/
structure Delivery where
  message : Message
  copied : List UInt8
  deriving DecidableEq, Repr

/-- `struct msqid_ds`, with the memory of the nodes and the processes.  `nodes` are the addresses
that are in use, and `sent` and `received` what has been reported. -/
structure MsgSystem where
  first : Option Addr := none
  last : Option Addr := none
  cbytes : UInt32 := 0
  qnum : UInt32 := 0
  qbytes : UInt32
  lspid : Pid := 0
  lrpid : Pid := 0
  sendWait : Bool := false
  recvWait : Bool := false
  wList : List Pid := []
  rList : List Pid := []
  heap : Addr → Option Msg := fun _ => none
  nodes : List Addr := []
  status : Pid → MsgStatus := fun _ => .idle
  sent : List Message := []
  received : List Delivery := []

open MsgSystem

/-- The link of a node. -/
def MsgSystem.next (s : MsgSystem) (a : Addr) : Option Addr := (s.heap a).bind Msg.next

/-- The message of a node. -/
def MsgSystem.body (s : MsgSystem) (a : Addr) : Option Message := (s.heap a).map Msg.body

/-- What becomes of a call: its result, or it sleeps. -/
inductive MsgOutcome
  | ok
  | failed (e : Errno)
  | sleeps (c : MsgCall)
  deriving DecidableEq, Repr

/-! ### Sending -/

/-- `WakeList`: the processes of a list are restarted. -/
def restartAll (ps : List Pid) (status : Pid → MsgStatus) (q : Pid) : MsgStatus :=
  match status q with
  | .asleep c => if q ∈ ps then .woken c else .asleep c
  | st => st

/-- A node is appended, and those who wait for messages are woken. -/
def MsgSystem.append (s : MsgSystem) (a : Addr) (m : Message) : MsgSystem :=
  let heap := update s.heap a (some ⟨none, m⟩)
  { s with
    heap :=
      match s.last with
      | some lm => update heap lm ((heap lm).map fun x => { x with next := some a })
      | none => heap
    first :=
      match s.last with
      | some _ => s.first
      | none => some a
    last := some a
    qnum := s.qnum + 1
    cbytes := s.cbytes + UInt32.ofNat m.size
    nodes := a :: s.nodes
    sent := s.sent ++ [m]
    rList := []
    recvWait := false
    status := restartAll s.rList s.status }

/-- The critical section of `msgsnd`.  The allocation gives an address that is not in use, or
fails; there is no step with another address. -/
def MsgSystem.msgsnd (s : MsgSystem) (p : Pid) (type : ℤ) (text : List UInt8)
    (nowait noerror : Bool) (alloc : Option Addr) : Option (MsgSystem × MsgOutcome) :=
  let m : Message := ⟨s.sent.length, type, text⟩
  let bleft := s.qbytes - s.cbytes
  if text.length ≤ bleft.toNat then
    match alloc with
    | none => some ({ s with lspid := p }, .failed .ENOMEM)
    | some a =>
      if a ≠ 0 ∧ s.heap a = none then some ({ s.append a m with lspid := p }, .ok) else none
  else if s.qbytes.toNat < text.length then
    if noerror then some ({ s with lspid := p, sent := s.sent ++ [m] }, .ok)
    else some ({ s with lspid := p }, .failed .EINVAL)
  else if !nowait then
    some ({ s with wList := s.wList ++ [p], sendWait := true },
      .sleeps (.send type text nowait noerror))
  else some ({ s with lspid := p }, .failed .EAGAIN)

/-! ### Receiving -/

/-- The types that a call of `msgrcv` accepts. -/
def accepts (mtype type : ℤ) : Bool :=
  if 0 < mtype then type == mtype
  else if mtype < 0 then decide (type ≤ -mtype)
  else true

/-- The loops of `msgrcv`: the node before the one that is found, and that one.  There is no
result if a pointer leads to no node, or if the loop goes on for longer than there are nodes. -/
def search (heap : Addr → Option Msg) (mtype : ℤ) :
    ℕ → Option Addr → Option Addr → Option (Option Addr × Option Addr)
  | 0, _, _ => none
  | _ + 1, prev, none => some (prev, none)
  | k + 1, prev, some a =>
    match heap a with
    | none => none
    | some m =>
      if accepts mtype m.body.type then some (prev, some a) else search heap mtype k (some a) m.next

/-- The node `a` is taken out of the list. -/
def MsgSystem.unlink (s : MsgSystem) (prev : Option Addr) (a : Addr) : MsgSystem :=
  { s with
    heap :=
      match prev with
      | some b => update s.heap b ((s.heap b).map fun x => { x with next := s.next a })
      | none => s.heap
    first :=
      match prev with
      | some _ => s.first
      | none => s.next a
    last := if s.last = some a then prev else s.last }

/-- The message of a node that has been taken out is copied and its node freed, and those who wait
for room are woken. -/
def MsgSystem.deliver (s : MsgSystem) (p : Pid) (a : Addr) (m : Message) (mlen : ℕ) : MsgSystem :=
  { s with
    cbytes := s.cbytes - UInt32.ofNat m.size
    qnum := s.qnum - 1
    lrpid := p
    heap := update s.heap a none
    nodes := s.nodes.erase a
    received := s.received ++ [⟨m, m.text.take (if m.size ≤ mlen then m.size else mlen)⟩]
    wList := []
    sendWait := false
    status := restartAll s.wList s.status }

/-- The critical section of `msgrcv`.  A call that sleeps has lost the sign of its type. -/
def MsgSystem.msgrcv (s : MsgSystem) (p : Pid) (mlen : ℕ) (mtype : ℤ) (nowait noerror : Bool) :
    Option (MsgSystem × MsgOutcome) :=
  match search s.heap mtype (s.nodes.length + 1) none s.first with
  | none => none
  | some (_, none) =>
    if !nowait then
      some ({ s with rList := s.rList ++ [p], recvWait := true },
        .sleeps (.receive mlen (if mtype < 0 then -mtype else mtype) nowait noerror))
    else some (s, .failed .ENOMSG)
  | some (prev, some a) =>
    match s.heap a with
    | none => none
    | some x =>
      let s := s.unlink prev a
      if x.body.size ≤ mlen ∨ noerror = true then some (s.deliver p a x.body mlen, .ok)
      else some (s, .failed .E2BIG)

/-! ### The list of a queue -/

/-- The nodes of the list and their messages. -/
structure MsgSystem.Lists (s : MsgSystem) (addrs : List Addr) (msgs : List Message) : Prop where
  linked : Linked s.next s.first addrs
  last : s.last = addrs.getLast?
  bodies : addrs.map s.body = msgs.map some

/-- The same, with counters that are right. -/
structure MsgSystem.Holds (s : MsgSystem) (addrs : List Addr) (msgs : List Message) : Prop
    extends s.Lists addrs msgs where
  qnum : s.qnum.toNat = msgs.length
  cbytes : s.cbytes.toNat = (msgs.map Message.size).sum

/-- The loops find the first message that is accepted, and the node before it. -/
theorem search_spec {s : MsgSystem} (mtype : ℤ) :
    ∀ {addrs : List Addr} {msgs : List Message} {p prev : Option Addr} {fuel : ℕ},
      Linked s.next p addrs → addrs.map s.body = msgs.map some → addrs.length < fuel →
      (search s.heap mtype fuel prev p = some (addrs.getLast?.or prev, none) ∧
          ∀ m ∈ msgs, accepts mtype m.type = false) ∨
        ∃ as a bs ms m ns, addrs = as ++ a :: bs ∧ msgs = ms ++ m :: ns ∧ as.length = ms.length ∧
          search s.heap mtype fuel prev p = some (as.getLast?.or prev, some a) ∧
          s.body a = some m ∧ accepts mtype m.type = true ∧
          ∀ m' ∈ ms, accepts mtype m'.type = false := by
  intro addrs
  induction addrs with
  | nil =>
    intro msgs p prev fuel hlinked hbodies hfuel
    obtain rfl : msgs = [] := by simpa using hbodies.symm
    obtain ⟨k, rfl⟩ := Nat.exists_eq_succ_of_ne_zero (Nat.ne_of_gt hfuel)
    cases hlinked
    exact .inl ⟨rfl, by simp⟩
  | cons a addrs ih =>
    intro msgs p prev fuel hlinked hbodies hfuel
    obtain ⟨rfl, hrest⟩ := hlinked
    obtain ⟨k, rfl⟩ := Nat.exists_eq_succ_of_ne_zero (Nat.ne_of_gt (Nat.zero_lt_of_lt hfuel))
    cases msgs with
    | nil => simp at hbodies
    | cons m msgs =>
      obtain ⟨hbody, hbodies⟩ := List.cons.inj hbodies
      obtain ⟨x, hx, hxm⟩ := Option.map_eq_some_iff.1 hbody
      have hnext : s.next a = x.next := by simp [MsgSystem.next, hx]
      have hsearch : search s.heap mtype (k + 1) prev (some a) =
          if accepts mtype m.type then some (prev, some a)
          else search s.heap mtype k (some a) x.next := by
        rw [search, hx, ← hxm]
      cases haccepts : accepts mtype m.type with
      | true =>
        right
        refine ⟨[], a, addrs, [], m, msgs, rfl, rfl, rfl, ?_, hbody, haccepts, by simp⟩
        rw [hsearch, if_pos haccepts]
        rfl
      | false =>
        rw [haccepts, if_neg Bool.false_ne_true] at hsearch
        rw [hnext] at hrest
        have hlast : ∀ as : List Addr, (a :: as).getLast?.or prev = as.getLast?.or (some a) := by
          intro as
          cases as with
          | nil => rfl
          | cons b bs =>
            rfl
        rcases @ih msgs x.next (some a) k hrest hbodies (Nat.lt_of_succ_lt_succ hfuel) with
          ⟨hnone, hall⟩ | ⟨as, b, bs, ms, m', ns, rfl, rfl, hlen, hfound, hb, hm', hall⟩
        · left
          rw [hsearch, hnone, hlast]
          refine ⟨rfl, ?_⟩
          exact forall_mem_cons.2 ⟨haccepts, hall⟩
        · right
          refine ⟨a :: as, b, bs, m :: ms, m', ns, rfl, rfl, by simpa using hlen, ?_, hb, hm', ?_⟩
          · rw [hsearch, hfound, hlast]
          · exact forall_mem_cons.2 ⟨haccepts, hall⟩

namespace MsgSystem

variable {s : MsgSystem} {addrs : List Addr} {msgs : List Message} {a : Addr} {m : Message}

theorem Lists.heap_ne_none (h : s.Lists addrs msgs) (ha : a ∈ addrs) : s.heap a ≠ none := by
  intro hnone
  have hmem : s.body a ∈ msgs.map some := h.bodies ▸ mem_map_of_mem ha
  obtain ⟨m, -, hm⟩ := mem_map.1 hmem
  rw [body, hnone] at hm
  cases hm

theorem Lists.length_eq (h : s.Lists addrs msgs) : addrs.length = msgs.length := by
  simpa using congrArg List.length h.bodies

theorem Lists.append (h : s.Lists addrs msgs) (ha : s.heap a = none) :
    (s.append a m).Lists (addrs ++ [a]) (msgs ++ [m]) := by
  have hnot : a ∉ addrs := fun hmem => h.heap_ne_none hmem ha
  cases hlast : s.last with
  | none =>
    have hnil : addrs = [] := by
      rw [h.last, getLast?_eq_none_iff] at hlast
      exact hlast
    subst hnil
    obtain rfl : msgs = [] := by simpa using h.bodies.symm
    constructor
    · simp [append, MsgSystem.next, hlast]
    · simp [append]
    · simp [append, body, hlast]
  | some lm =>
    obtain ⟨l, rfl⟩ : ∃ l, addrs = l ++ [lm] := by
      rw [h.last] at hlast
      obtain ⟨l, hl⟩ := getLast?_eq_some_iff.1 hlast
      exact ⟨l, hl⟩
    have hne : lm ≠ a := by
      rintro rfl
      exact hnot (by simp)
    obtain ⟨x, hx⟩ : ∃ x, s.heap lm = some x :=
      Option.ne_none_iff_exists'.1 (h.heap_ne_none (by simp))
    have hheap : (s.append a m).heap =
        update (update s.heap a (some ⟨none, m⟩)) lm
          (some { x with next := some a }) := by
      simp [append, hlast, update_of_ne hne, hx]
    have hbody : ∀ c, c ≠ a → (s.append a m).body c = s.body c := by
      intro c hc
      by_cases hcl : c = lm
      · subst hcl
        simp [body, hheap, hx]
      · simp [body, hheap, hcl, hc]
    constructor
    · rw [append_assoc]
      have hfirst : (s.append a m).first = s.first := by simp [append, hlast]
      rw [hfirst]
      refine h.linked.concat ?_ ?_ ?_ fun hmem => hnot (mem_append_left _ hmem)
      · simp [MsgSystem.next, hheap]
      · simp [MsgSystem.next, hheap, hne.symm]
      · intro c hcl hca
        simp [MsgSystem.next, hheap, hcl, hca]
    · simp [append]
    · have hold : (l ++ [lm]).map (s.append a m).body = msgs.map some := by
        rw [← h.bodies]
        apply map_congr_left
        intro c hc
        exact hbody c fun hca => hnot (hca ▸ hc)
      have hnew : (s.append a m).body a = some m := by
        simp [body, hheap, hne.symm]
      calc (l ++ [lm] ++ [a]).map (s.append a m).body
          = (l ++ [lm]).map (s.append a m).body ++ [(s.append a m).body a] := map_append
        _ = (msgs ++ [m]).map some := by rw [hold, hnew, map_append]; rfl

theorem unlink_body (s : MsgSystem) (prev : Option Addr) (a : Addr) :
    (s.unlink prev a).body = s.body := by
  funext c
  unfold body MsgSystem.unlink
  cases prev with
  | none => rfl
  | some b =>
    by_cases hcb : c = b
    · subst hcb
      simp only [update_self, Option.map_map]
      rfl
    · simp only [update_of_ne hcb]

/-- Taking out a node: the one before it, or the head of the list, skips it. -/
theorem Lists.unlink {as bs : List Addr} {ms ns : List Message}
    (h : s.Lists (as ++ a :: bs) (ms ++ m :: ns)) (hlen : as.length = ms.length) :
    (s.unlink as.getLast? a).Lists (as ++ bs) (ms ++ ns) := by
  have hnodup := h.linked.nodup
  constructor
  · cases hlast : as.getLast? with
    | none =>
      rw [getLast?_eq_none_iff] at hlast
      subst hlast
      exact h.linked.2
    | some b =>
      obtain ⟨l, rfl⟩ := getLast?_eq_some_iff.1 hlast
      have hlinked := h.linked
      rw [append_assoc] at hlinked ⊢
      have hb : s.heap b ≠ none := h.heap_ne_none (by simp)
      obtain ⟨x, hx⟩ := Option.ne_none_iff_exists'.1 hb
      refine hlinked.unlink ?_ ?_
      · simp [MsgSystem.next, MsgSystem.unlink, hx]
      · intro c hc
        simp [MsgSystem.next, MsgSystem.unlink, hc]
  · change (if s.last = some a then as.getLast? else s.last) = _
    rw [h.last]
    cases bs with
    | nil => simp
    | cons b bs =>
      have hne : (as ++ a :: b :: bs).getLast? ≠ some a := by
        intro heq
        rw [getLast?_append_cons, getLast?_cons_cons] at heq
        have hmem := mem_of_getLast? heq
        rw [nodup_append] at hnodup
        exact (nodup_cons.1 hnodup.2.1).1 hmem
      rw [if_neg hne, getLast?_append_cons, getLast?_append_cons,
        getLast?_cons_cons]
  · rw [unlink_body]
    have hbodies := h.bodies
    simp only [map_append] at hbodies ⊢
    obtain ⟨hleft, hright⟩ := append_inj hbodies (by simpa using hlen)
    rw [hleft, (List.cons.inj hright).2]

end MsgSystem

end Clib4.SysV
