import Clib4.SysV.MsgQueue

/-!
# SysV message queues: nothing is lost

Any number of processes send to a queue and receive from it; each critical section is one step, and
a process that sleeps tries again once it has been woken.  The messages that were received, in
the order of that, and then those in the queue are, type by type, the messages that were sent.
This holds exactly as long as no call of `msgrcv` finds a message that it has no room for, and no
call of `msgsnd` with `MSG_NOERROR` is given one that is larger than the queue.

## Main definitions

* `MsgAct`, `msgReply`, `msgStep` — the steps of the processes.

## Main results

* `messages_kept_iff` — **when nothing is lost.**
-/

namespace Clib4.SysV

open Interleaving List

/-! ### The processes -/

/-- A process makes a call, or tries again after it has been woken; an allocation of memory gives
an address or fails. -/
inductive MsgAct
  | call (p : Pid) (c : MsgCall) (alloc : Option Addr)
  | retry (p : Pid) (alloc : Option Addr)
  deriving DecidableEq, Repr

/-- The call that enters its critical section. -/
def MsgAct.pending (s : MsgSystem) : MsgAct → Option (Pid × MsgCall × Option Addr)
  | .call p c alloc => if s.status p = .idle then some (p, c, alloc) else none
  | .retry p alloc =>
    match s.status p with
    | .woken c => some (p, c, alloc)
    | _ => none

/-- The critical section of a call. -/
def MsgSystem.enter (s : MsgSystem) (p : Pid) (c : MsgCall) (alloc : Option Addr) :
    Option (MsgSystem × MsgOutcome) :=
  match c with
  | .send type text nowait noerror => s.msgsnd p type text nowait noerror alloc
  | .receive mlen mtype nowait noerror => s.msgrcv p mlen mtype nowait noerror

/-- The process afterwards. -/
def MsgOutcome.status : MsgOutcome → MsgStatus
  | .sleeps c => .asleep c
  | _ => .idle

/-- A step, with what becomes of the call. -/
def msgReply (s : MsgSystem) (a : MsgAct) : Option (MsgSystem × MsgOutcome) :=
  match a.pending s with
  | none => none
  | some (p, c, alloc) =>
    (s.enter p c alloc).map fun (s', out) =>
      ({ s' with status := Function.update s'.status p out.status }, out)

/-- A step. -/
def msgStep (s : MsgSystem) (a : MsgAct) : Option MsgSystem := (msgReply s a).map Prod.fst

/-- A new queue. -/
def MsgSystem.created (qbytes : UInt32) : MsgSystem := { qbytes := qbytes }

/-! ### What should hold -/

/-- The messages that have been received, in order, and then those in the queue. -/
def MsgSystem.accounted (s : MsgSystem) (msgs : List Message) : List Message :=
  s.received.map Delivery.message ++ msgs

/-- The list and the counters of the queue are right; every message that was reported as sent has
been received once or is in the queue once, and within a type the order is kept. -/
def MsgSystem.Intact (s : MsgSystem) : Prop :=
  ∃ addrs msgs, s.Holds addrs msgs ∧ s.sent.Nodup ∧ (s.accounted msgs).Perm s.sent ∧
    (∀ t, (s.accounted msgs).filter (·.type = t) = s.sent.filter (·.type = t)) ∧
    ∀ d ∈ s.received, d.copied <+: d.message.text

/-- A call that fails with `E2BIG` leaves the queue as it is. -/
def KeepsQueue (s : MsgSystem) (a : MsgAct) : Prop :=
  ∀ s', msgReply s a = some (s', .failed .E2BIG) →
    ∀ addrs msgs, s.Holds addrs msgs → s'.Holds addrs msgs

/-- The message that a call of `msgrcv` finds, if any, is not larger than what it has room for,
or may be cut off. -/
def MsgSystem.Fits (s : MsgSystem) (mlen : ℕ) (mtype : ℤ) (noerror : Bool) : Prop :=
  ∀ prev b x, search s.heap mtype (s.nodes.length + 1) none s.first = some (prev, some b) →
    s.heap b = some x → x.body.size ≤ mlen ∨ noerror = true

/-- A call does not find what it has no room for, and does not send with `MSG_NOERROR` what is
larger than the queue. -/
def Harmless (s : MsgSystem) (a : MsgAct) : Prop :=
  ∀ p c alloc, a.pending s = some (p, c, alloc) →
    match c with
    | .send _ text _ noerror => ¬ (noerror = true ∧ s.qbytes.toNat < text.length)
    | .receive mlen mtype _ noerror => s.Fits mlen mtype noerror

/-! ### The invariant -/

/-- The list of the queue, with what makes the counters work: the nodes are in use, and their sizes
fit into the queue. -/
structure MsgSystem.Sound (s : MsgSystem) (addrs : List Addr) (msgs : List Message) : Prop
    extends s.Holds addrs msgs where
  used : addrs ⊆ s.nodes
  nonzero : (0 : Addr) ∉ addrs
  room : s.cbytes.toNat ≤ s.qbytes.toNat
  order : ∀ t, (s.accounted msgs).filter (·.type = t) = s.sent.filter (·.type = t)
  serials : ∀ (i : ℕ) (m : Message), s.sent[i]? = some m → m.serial = i
  copies : ∀ d ∈ s.received, d.copied <+: d.message.text

theorem perm_of_filter_eq {α β : Type*} [DecidableEq α] [DecidableEq β] {f : α → β}
    {l₁ l₂ : List α} (h : ∀ t, l₁.filter (f · = t) = l₂.filter (f · = t)) : l₁.Perm l₂ := by
  rw [perm_iff_count]
  intro a
  have hcount : ∀ l : List α, (l.filter (f · = f a)).count a = l.count a := by
    intro l
    exact count_filter (by simp)
  rw [← hcount l₁, ← hcount l₂, h]

theorem nodup_of_serials {sent : List Message}
    (h : ∀ (i : ℕ) (m : Message), sent[i]? = some m → m.serial = i) : sent.Nodup := by
  rw [nodup_iff_getElem?_ne_getElem?]
  intro i j hij hj heq
  rw [getElem?_eq_getElem hj] at heq
  have hi := h i _ heq
  have hj' := h j _ (getElem?_eq_getElem hj)
  omega

theorem MsgSystem.Sound.intact {s : MsgSystem} {addrs : List Addr} {msgs : List Message}
    (h : s.Sound addrs msgs) : s.Intact :=
  ⟨addrs, msgs, h.toHolds, nodup_of_serials h.serials, perm_of_filter_eq h.order, h.order,
    h.copies⟩

theorem length_lt_of_nonzero {addrs : List Addr} (hnodup : addrs.Nodup)
    (hzero : (0 : Addr) ∉ addrs) : addrs.length < 2 ^ 32 := by
  have hsub : addrs.map UInt32.toNat ⊆ List.range' 1 (2 ^ 32 - 1) := by
    intro n hn
    obtain ⟨a, ha, rfl⟩ := mem_map.1 hn
    have hlt := a.toNat_lt
    have hpos : a.toNat ≠ 0 := by
      intro h0
      apply hzero
      have : a = 0 := UInt32.toNat_inj.1 h0
      exact this ▸ ha
    rw [mem_range'_1]
    omega
  have hmap : (addrs.map UInt32.toNat).Nodup := hnodup.map fun _ _ => UInt32.toNat_inj.1
  have hle := (hmap.subperm hsub).length_le
  rw [length_map, length_range'] at hle
  omega

namespace MsgSystem

variable {s : MsgSystem} {addrs : List Addr} {msgs : List Message}

theorem Sound.append (h : s.Sound addrs msgs) {a : Addr} {type : ℤ} {text : List UInt8}
    (hzero : a ≠ 0) (ha : s.heap a = none)
    (hroom : text.length ≤ (s.qbytes - s.cbytes).toNat) :
    (s.append a ⟨s.sent.length, type, text⟩).Sound (addrs ++ [a])
      (msgs ++ [⟨s.sent.length, type, text⟩]) := by
  have hlists := h.toLists.append ha (m := ⟨s.sent.length, type, text⟩)
  have hnonzero : (0 : Addr) ∉ addrs ++ [a] := by
    rw [mem_append, mem_singleton]
    exact fun hor => hor.elim h.nonzero fun heq => hzero heq.symm
  have hnodes := length_lt_of_nonzero hlists.linked.nodup hnonzero
  have hlen := hlists.length_eq
  rw [UInt32.toNat_sub_of_le _ _ (UInt32.le_iff_toNat_le.2 h.room)] at hroom
  have hbytes : (s.cbytes + UInt32.ofNat text.length).toNat = s.cbytes.toNat + text.length := by
    have := s.qbytes.toNat_lt
    have := h.room
    rw [UInt32.toNat_add, UInt32.toNat_ofNat', Nat.mod_eq_of_lt (a := text.length) (by omega),
      Nat.mod_eq_of_lt (by omega)]
  refine { hlists with
    qnum := ?_, cbytes := ?_, used := ?_, nonzero := hnonzero, room := ?_, order := ?_,
    serials := ?_, copies := h.copies }
  · change (s.qnum + 1).toNat = _
    rw [UInt32.toNat_add, h.qnum]
    simp only [length_append] at hlen hnodes ⊢
    exact Nat.mod_eq_of_lt (by rw [hlen] at hnodes; exact hnodes)
  · change (s.cbytes + UInt32.ofNat text.length).toNat = _
    rw [hbytes, h.cbytes]
    simp [Message.size]
  · intro b hb
    rcases mem_append.1 hb with hold | hnew
    · exact mem_cons_of_mem a (h.used hold)
    · rw [mem_singleton.1 hnew]
      exact mem_cons_self
  · change (s.cbytes + UInt32.ofNat text.length).toNat ≤ s.qbytes.toNat
    have := h.room
    omega
  · intro t
    have horder := h.order t
    change (s.received.map Delivery.message ++ (msgs ++ [_])).filter _ = (s.sent ++ [_]).filter _
    rw [← append_assoc, filter_append, @filter_append _ _ s.sent, ← horder]
    rfl
  · intro i m hm
    change (s.sent ++ [_])[i]? = some m at hm
    rw [getElem?_append] at hm
    split_ifs at hm with hi
    · exact h.serials i m hm
    · have hi' : i - s.sent.length = 0 := by
        by_contra hne
        rw [getElem?_eq_none (by simp; omega)] at hm
        cases hm
      rw [hi'] at hm
      cases hm
      change s.sent.length = i
      omega

theorem Sound.deliver {as bs : List Addr} {ms ns : List Message} {a : Addr} {m : Message}
    (h : s.Sound (as ++ a :: bs) (ms ++ m :: ns)) (hlen : as.length = ms.length)
    (hms : ∀ m' ∈ ms, m'.type ≠ m.type) (p : Pid) (mlen : ℕ) :
    ((s.unlink as.getLast? a).deliver p a m mlen).Sound (as ++ bs) (ms ++ ns) := by
  have hlists := h.toLists.unlink hlen
  have hnodup := h.linked.nodup
  have hnot : a ∉ as ++ bs := by
    rw [nodup_append] at hnodup
    intro hmem
    rcases mem_append.1 hmem with hl | hr
    · exact hnodup.2.2 a hl a mem_cons_self rfl
    · exact (nodup_cons.1 hnodup.2.1).1 hr
  have hsub : as ++ bs ⊆ as ++ a :: bs := ((sublist_cons_self a bs).append_left as).subset
  have hsize : m.size ≤ s.cbytes.toNat := by
    rw [h.cbytes]
    simp
    omega
  have hbytes : (s.cbytes - UInt32.ofNat m.size).toNat = s.cbytes.toNat - m.size := by
    have := s.cbytes.toNat_lt
    have hm : (UInt32.ofNat m.size).toNat = m.size := by
      rw [UInt32.toNat_ofNat', Nat.mod_eq_of_lt (by omega)]
    rw [UInt32.toNat_sub_of_le _ _ (UInt32.le_iff_toNat_le.2 (by omega)), hm]
  have hheap : ∀ c ∈ as ++ bs, ((s.unlink as.getLast? a).deliver p a m mlen).heap c =
      (s.unlink as.getLast? a).heap c := by
    intro c hc
    have hne : c ≠ a := fun heq => hnot (heq ▸ hc)
    exact Function.update_of_ne hne ..
  constructor
  · constructor
    · constructor
      · refine hlists.linked.congr ?_
        intro c hc
        rw [MsgSystem.next, hheap c hc]
        rfl
      · exact hlists.last
      · rw [← hlists.bodies]
        apply map_congr_left
        intro c hc
        rw [MsgSystem.body, hheap c hc]
        rfl
    · change (s.qnum - 1).toNat = _
      have hq := h.qnum
      simp only [length_append, length_cons] at hq ⊢
      rw [UInt32.toNat_sub_of_le _ _ (UInt32.le_iff_toNat_le.2 (by simp; omega))]
      simp
      omega
    · change (s.cbytes - UInt32.ofNat m.size).toNat = _
      rw [hbytes, h.cbytes]
      simp
      omega
  · intro c hc
    have hne : c ≠ a := fun heq => hnot (heq ▸ hc)
    change c ∈ s.nodes.erase a
    rw [mem_erase_of_ne hne]
    exact h.used (hsub hc)
  · exact fun hmem => h.nonzero (hsub hmem)
  · change (s.cbytes - UInt32.ofNat m.size).toNat ≤ s.qbytes.toNat
    have := h.room
    omega
  · intro t
    rw [show ((s.unlink as.getLast? a).deliver p a m mlen).sent = s.sent from rfl, ← h.order t]
    unfold accounted
    change ((s.received ++ [_]).map Delivery.message ++ (ms ++ ns)).filter _ = _
    simp only [filter_append]
    -- no message before has the type of the one that was taken out
    by_cases ht : m.type = t
    · have hnone : ms.filter (·.type = t) = [] := by
        rw [filter_eq_nil_iff]
        intro m' hm'
        simpa [← ht] using hms m' hm'
      rw [hnone]
      simp [ht]
    · simp [ht]
  · exact h.serials
  · intro d hd
    rcases mem_append.1 hd with hold | hnew
    · exact h.copies d hold
    · rw [mem_singleton.1 hnew]
      exact take_prefix ..

theorem Sound.setStatus (h : s.Sound addrs msgs) (status : Pid → MsgStatus) :
    { s with status := status }.Sound addrs msgs := { h with }

theorem Sound.length_le (h : s.Sound addrs msgs) : addrs.length ≤ s.nodes.length :=
  (h.linked.nodup.subperm h.used).length_le

/-! ### The calls -/

/-- `msgsnd` keeps the queue in order, unless it reports as sent what it has not put in. -/
theorem Sound.msgsnd (h : s.Sound addrs msgs) {p : Pid} {type : ℤ} {text : List UInt8}
    {nowait noerror : Bool} {alloc : Option Addr} {s' : MsgSystem} {out : MsgOutcome}
    (hr : s.msgsnd p type text nowait noerror alloc = some (s', out)) :
    (∃ addrs' msgs', s'.Sound addrs' msgs') ∧ ¬ (noerror = true ∧ s.qbytes.toNat < text.length) ∨
      (noerror = true ∧ s.qbytes.toNat < text.length) ∧
        s' = { s with lspid := p, sent := s.sent ++ [⟨s.sent.length, type, text⟩] } := by
  have hleft := UInt32.toNat_sub_of_le s.qbytes s.cbytes (UInt32.le_iff_toNat_le.2 h.room)
  unfold MsgSystem.msgsnd at hr
  dsimp only at hr
  split_ifs at hr with hroom hlarge hnoerror hwait
  · have hsmall : ¬ (noerror = true ∧ s.qbytes.toNat < text.length) := by omega
    cases alloc with
    | none =>
      cases hr
      exact .inl ⟨⟨addrs, msgs, { h with }⟩, hsmall⟩
    | some a =>
      dsimp only at hr
      split_ifs at hr with ha
      cases hr
      exact .inl ⟨⟨_, _, { h.append ha.1 ha.2 hroom with }⟩, hsmall⟩
  · cases hr
    exact .inr ⟨⟨hnoerror, hlarge⟩, rfl⟩
  · cases hr
    exact .inl ⟨⟨addrs, msgs, { h with }⟩, fun hand => hnoerror hand.1⟩
  · cases hr
    exact .inl ⟨⟨addrs, msgs, { h with }⟩, fun hand => hlarge hand.2⟩
  · cases hr
    exact .inl ⟨⟨addrs, msgs, { h with }⟩, fun hand => hlarge hand.2⟩

/-- `msgrcv` keeps the queue in order, unless it has no room for what it finds; then a message is
missing, but not in the counter. -/
theorem Sound.msgrcv (h : s.Sound addrs msgs) {p : Pid} {mlen : ℕ} {mtype : ℤ}
    {nowait noerror : Bool} {s' : MsgSystem} {out : MsgOutcome}
    (hr : s.msgrcv p mlen mtype nowait noerror = some (s', out)) :
    (∃ addrs' msgs', s'.Sound addrs' msgs') ∧ s.Fits mlen mtype noerror ∨
      ¬ s.Fits mlen mtype noerror ∧ s'.qnum = s.qnum ∧
        ∃ addrs' msgs', s'.Lists addrs' msgs' ∧ msgs'.length + 1 = msgs.length := by
  unfold MsgSystem.msgrcv at hr
  have hsearch := @search_spec s mtype addrs msgs s.first none (s.nodes.length + 1) h.linked
    h.bodies (Nat.lt_succ_of_le h.length_le)
  rcases hsearch with
    ⟨hnone, -⟩ | ⟨as, a, bs, ms, m, ns, rfl, rfl, hlen, hfound, hbody, haccepted, hbefore⟩
  · have hfits : s.Fits mlen mtype noerror := by
      intro prev b x hfound
      rw [hnone] at hfound
      cases hfound
    rw [hnone] at hr
    by_cases hwait : (!nowait) = true
    · rw [if_pos hwait] at hr
      cases hr
      exact .inl ⟨⟨addrs, msgs, { h with }⟩, hfits⟩
    · rw [if_neg hwait] at hr
      cases hr
      exact .inl ⟨⟨addrs, msgs, h⟩, hfits⟩
  · obtain ⟨x, hx, rfl⟩ := Option.map_eq_some_iff.1 hbody
    have hiff : s.Fits mlen mtype noerror ↔ x.body.size ≤ mlen ∨ noerror = true := by
      constructor
      · intro hall
        exact hall _ a x hfound hx
      · intro hor prev b y hfound' hy
        cases hfound.symm.trans hfound'
        cases hx.symm.trans hy
        exact hor
    rw [hfound, Option.or_none] at hr
    simp only [hx] at hr
    split_ifs at hr with hfits
    · cases hr
      have hms : ∀ m' ∈ ms, m'.type ≠ x.body.type := by
        intro m' hm' heq
        rw [← heq, hbefore m' hm'] at haccepted
        cases haccepted
      exact .inl ⟨⟨as ++ bs, ms ++ ns, h.deliver hlen hms p mlen⟩, hiff.2 hfits⟩
    · cases hr
      refine .inr ⟨mt hiff.1 hfits, rfl, as ++ bs, ms ++ ns, h.toLists.unlink hlen, ?_⟩
      simp only [length_append, length_cons]
      omega

/-- A message that is reported but not queued is one too many. -/
theorem Sound.not_intact_of_reported (h : s.Sound addrs msgs) (p : Pid) (m : Message)
    (status : Pid → MsgStatus) :
    ¬ { s with lspid := p, sent := s.sent ++ [m], status := status }.Intact := by
  rintro ⟨addrs', msgs', hholds, -, hperm, -⟩
  have hlen := hperm.length_eq
  have hlen' := (perm_of_filter_eq h.order).length_eq
  have hqnum : s.qnum.toNat = msgs'.length := hholds.qnum
  have hqnum' := h.qnum
  simp only [accounted, length_append, length_singleton]
    at hlen hlen'
  omega

end MsgSystem

/-- A message that is neither in the queue nor taken off the counter. -/
theorem MsgSystem.Lists.not_intact {s : MsgSystem} {addrs : List Addr} {msgs : List Message}
    (h : s.Lists addrs msgs) (hqnum : s.qnum.toNat = msgs.length + 1) : ¬ s.Intact := by
  rintro ⟨addrs', msgs', hholds, -⟩
  have haddrs := h.linked.unique hholds.linked
  have hlen := h.length_eq
  have hlen' := hholds.length_eq
  have hqnum' := hholds.qnum
  rw [← haddrs] at hlen'
  omega

/-! ### The steps -/

theorem msgReply_eq_some {s s' : MsgSystem} {a : MsgAct} {out : MsgOutcome}
    (h : msgReply s a = some (s', out)) :
    ∃ p c alloc s₁, a.pending s = some (p, c, alloc) ∧ s.enter p c alloc = some (s₁, out) ∧
      s' = { s₁ with status := Function.update s₁.status p out.status } := by
  unfold msgReply at h
  split at h
  · cases h
  · next p c alloc hpend =>
    obtain ⟨⟨s₁, out₁⟩, henter, heq⟩ := Option.map_eq_some_iff.1 h
    cases heq
    exact ⟨p, c, alloc, s₁, hpend, henter, rfl⟩

/-- A harmless step keeps the invariant; any other one leaves a queue that is not intact. -/
theorem MsgSystem.Sound.step {s s' : MsgSystem} {addrs : List Addr} {msgs : List Message}
    (h : s.Sound addrs msgs) {a : MsgAct} (hstep : msgStep s a = some s') :
    Harmless s a ∧ (∃ addrs' msgs', s'.Sound addrs' msgs') ∨ ¬ Harmless s a ∧ ¬ s'.Intact := by
  obtain ⟨⟨s₀, out⟩, hreply, heq⟩ := Option.map_eq_some_iff.1 hstep
  obtain rfl : s₀ = s' := heq
  obtain ⟨p, c, alloc, s₁, hpend, henter, rfl⟩ := msgReply_eq_some hreply
  cases c with
  | send type text nowait noerror =>
    have hharmless : Harmless s a ↔ ¬ (noerror = true ∧ s.qbytes.toNat < text.length) := by
      constructor
      · intro hh
        exact hh p _ alloc hpend
      · intro hh p' c' alloc' hpend'
        cases hpend.symm.trans hpend'
        exact hh
    rcases h.msgsnd henter with ⟨⟨addrs', msgs', hsound⟩, hsmall⟩ | ⟨hlarge, rfl⟩
    · exact .inl ⟨hharmless.2 hsmall, addrs', msgs', hsound.setStatus _⟩
    · exact .inr ⟨fun hh => hharmless.1 hh hlarge, h.not_intact_of_reported p _ _⟩
  | receive mlen mtype nowait noerror =>
    have hharmless : Harmless s a ↔ s.Fits mlen mtype noerror := by
      constructor
      · intro hh
        exact hh p _ alloc hpend
      · intro hh p' c' alloc' hpend'
        cases hpend.symm.trans hpend'
        exact hh
    rcases h.msgrcv henter with
      ⟨⟨addrs', msgs', hsound⟩, hfits⟩ | ⟨hfits, hqnum, addrs', msgs', hlists, hlen⟩
    · exact .inl ⟨hharmless.2 hfits, addrs', msgs', hsound.setStatus _⟩
    · refine .inr ⟨mt hharmless.1 hfits, ?_⟩
      have hlists' : { s₁ with status := Function.update s₁.status p out.status }.Lists
          addrs' msgs' := { hlists with }
      apply hlists'.not_intact
      rw [hqnum, h.qnum, hlen]

/-- Where there is room, `msgrcv` does not fail with `E2BIG`. -/
theorem MsgSystem.Fits.ne_e2big {s s' : MsgSystem} {p : Pid} {mlen : ℕ} {mtype : ℤ}
    {nowait noerror : Bool} (h : s.Fits mlen mtype noerror) :
    s.msgrcv p mlen mtype nowait noerror ≠ some (s', .failed .E2BIG) := by
  intro hr
  unfold MsgSystem.msgrcv at hr
  split at hr
  · cases hr
  · split_ifs at hr
    all_goals cases hr
  · next prev a hfound =>
    split at hr
    · cases hr
    · next x hx =>
      rw [if_pos (h prev a x hfound hx)] at hr
      cases hr

theorem Harmless.keepsQueue {s : MsgSystem} {a : MsgAct} (h : Harmless s a) : KeepsQueue s a := by
  intro s' hreply
  obtain ⟨p, c, alloc, s₁, hpend, henter, -⟩ := msgReply_eq_some hreply
  cases c with
  | send type text nowait noerror =>
    -- sending has no such failure
    simp only [MsgSystem.enter, MsgSystem.msgsnd] at henter
    grind
  | receive mlen mtype nowait noerror =>
    have hfits : s.Fits mlen mtype noerror := h p _ alloc hpend
    exact absurd henter hfits.ne_e2big

theorem MsgSystem.sound_created (qbytes : UInt32) : (created qbytes).Sound [] [] := by
  refine ⟨⟨⟨rfl, rfl, rfl⟩, rfl, rfl⟩, ?_, ?_, ?_, ?_, ?_, ?_⟩ <;> simp [created, accounted]

/-- **When nothing is lost.**  In every state of a run every message that was reported as sent has
been received once or is queued, within a type in the order of sending, and the counters and the
end of the list are right, and no failure with `E2BIG` changes the queue, exactly if no call of
`msgrcv` finds a message that it has no room for and none of `msgsnd` with `MSG_NOERROR` has one
that is larger than the queue. -/
theorem messages_kept_iff (qbytes : UInt32) (acts : List MsgAct) :
    (Throughout msgStep MsgSystem.Intact (MsgSystem.created qbytes) acts ∧
        Along msgStep KeepsQueue (MsgSystem.created qbytes) acts) ↔
      Along msgStep Harmless (MsgSystem.created qbytes) acts := by
  have hiff : Throughout msgStep MsgSystem.Intact (MsgSystem.created qbytes) acts ↔
      Along msgStep Harmless (MsgSystem.created qbytes) acts := by
    apply throughout_iff_along (I := fun s => ∃ addrs msgs, s.Sound addrs msgs)
    · rintro s ⟨addrs, msgs, h⟩
      exact h.intact
    · rintro s a s' ⟨addrs, msgs, h⟩ hharmless hstep
      rcases h.step hstep with ⟨-, hsound⟩ | ⟨hnot, -⟩
      · exact hsound
      · exact absurd hharmless hnot
    · rintro s a s' ⟨addrs, msgs, h⟩ hnot hstep
      rcases h.step hstep with ⟨hharmless, -⟩ | ⟨-, hlost⟩
      · exact absurd hharmless hnot
      · exact hlost
    · exact ⟨[], [], MsgSystem.sound_created qbytes⟩
  constructor
  · intro h
    exact hiff.1 h.1
  · intro h
    exact ⟨hiff.2 h, h.mono fun s a => Harmless.keepsQueue⟩

/-- A message of three bytes is sent, and a receiver with room for two fails with `E2BIG`: the
message is gone, and the counters still have it. -/
theorem msgrcv_drops_large :
    ∃ s s', msgStep (.created 4096) (.call 0 (.send 1 [97, 98, 99] false false) (some 8)) = some s ∧
      msgReply s (.call 1 (.receive 2 0 true false) none) = some (s', .failed .E2BIG) ∧
      s.first = some 8 ∧ s'.first = none ∧ s'.last = none ∧ s'.qnum = 1 ∧ s'.cbytes = 3 ∧
      s'.sent.length = 1 ∧ s'.received = [] ∧ ¬ s'.Intact := by
  refine ⟨_, _, rfl, rfl, rfl, rfl, rfl, rfl, rfl, rfl, rfl, ?_⟩
  exact @MsgSystem.Lists.not_intact _ [] [] ⟨rfl, rfl, rfl⟩ rfl

end Clib4.SysV
