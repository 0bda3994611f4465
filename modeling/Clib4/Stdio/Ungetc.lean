import Clib4.Stdio.StreamCalls

/-!
# Pushing a character back

`ungetc` stores the character in the buffer, over the one that was read last.  A stream whose
buffer was written over no longer agrees with its file, but it cannot be told from a stream on a
file that holds those characters: reading never looks behind the position of the handle.  So what
was proved about streams that are read from holds after every history of reading and pushing back.

What `ungetc` needs is a byte of the buffer in front of the position.  There is none when the last
byte was read past the buffer, when reaching the end of the file has emptied it, and when as many
characters were pushed back as were read from it.  And on an unbuffered stream `fread` goes past
the buffer, and so past the character.

## Main definitions

* `Iob.unread` — what is still to be read: the rest of the buffer and the rest of the file.
* `PushesBack` — whatever is pushed back is read first, and the rest behind it.
* `ReadFrom` — what every history of these calls keeps.

## Main results

* `ReadFrom.step_eq` — **a buffered stream is read like the list of what is still to be read.**
* `ReadFrom.replays` — **a history of calls is one on that list.**
* `pushesBack_iff` — **when a character can be pushed back.**
-/

namespace Clib4

open Splice

/-! ### The calls -/

/-- A call that reads. -/
inductive ReadCall
  | fgetc
  | fgets (n : ℤ)
  | fread (request : ElementRequest)

namespace ReadCall

/-- One call. -/
def step (f : Iob FdFile) : ReadCall → Iob FdFile × StreamReply
  | fgetc => let (f, c) := Clib4.fgetc fdDevice f; (f, .int c)
  | fgets n => let (f, s) := Clib4.fgets fdDevice f n; (f, .string s)
  | fread r =>
    let (f, n, bytes) := Clib4.fread fdDevice f r.elementSize r.count
    (f, .data n bytes)

/-- The same call on a list of bytes. -/
def reference (l : List UInt8) : ReadCall → List UInt8 × StreamReply
  | fgetc =>
    match l with
    | [] => ([], .int EOF)
    | b :: l => (l, .int b.toNat)
  | fgets n =>
    if n ≤ 0 then (l, .string none)
    else
      let k := Tape.lineLength 10 l (n - 1).toNat
      (l.drop k, .string (Reading.fgetsReply (l.take k) (n - 1).toNat))
  | fread r =>
    if 0 < r.elementSize ∧ 0 < r.count then
      (l.drop (r.elementSize * r.count),
        StreamCall.freadReply r (l.take (r.elementSize * r.count)))
    else (l, .data 0 [])

/-- The call as one of the calls on a stream. -/
def toStreamCall : ReadCall → StreamCall
  | fgetc => .fgetc
  | fgets n => .fgets n
  | fread r => .fread r

theorem step_toStreamCall (f : Iob FdFile) (call : ReadCall) :
    StreamCall.step f call.toStreamCall = .ok (call.step f) := by
  cases call <;> rfl

theorem reference_toStreamCall (grows : Bool) (t : Tape UInt8) (call : ReadCall) :
    (call.reference t.rest)
      = (((call.toStreamCall).reference grows t).1.rest,
          ((call.toStreamCall).reference grows t).2) := by
  cases call with
  | fgetc =>
    dsimp only [reference, toStreamCall, StreamCall.reference]
    cases h : t.rest with
    | nil => dsimp only; rw [h]
    | cons b l => dsimp only; rw [Tape.rest_advance, h]; rfl
  | fgets n =>
    dsimp only [reference, toStreamCall, StreamCall.reference]
    split
    · rfl
    · dsimp only [Tape.line, Tape.read]
      rw [Tape.rest_advance]
  | fread r =>
    dsimp only [reference, toStreamCall, StreamCall.reference]
    split
    · dsimp only [Tape.read]
      rw [Tape.rest_advance]
    · rfl

end ReadCall

/-- A call of a history: one that reads, or `ungetc`. -/
inductive InputCall
  | read (call : ReadCall)
  | ungetc (ch : ℤ)

/-- One call. -/
def InputCall.step (f : Iob FdFile) : InputCall → Iob FdFile × StreamReply
  | .read call => call.step f
  | .ungetc ch => let (f, z) := Clib4.ungetc fdDevice f ch; (f, .int z)

/-- The stream after a history. -/
def afterHistory (f : Iob FdFile) (history : List InputCall) : Iob FdFile :=
  (Machine.trace InputCall.step f history).1

/-- What is still to be read: the rest of the buffer, and the file from the position of the
handle on. -/
def Iob.unread (f : Iob FdFile) : List UInt8 :=
  window f.buffer f.bufferPosition f.numUnreadBytes
    ++ f.device.dos.contents.drop f.device.dos.position

/-- **Pushing back**: whatever character is pushed back, `ungetc` returns it and clears the
end-of-file condition, and the calls that read return it first and behind it what was still to be
read. -/
def PushesBack (f : Iob FdFile) : Prop :=
  ∀ ch : ℤ, ch ≠ EOF →
    (ungetc fdDevice f ch).2 = (toByte ch).toNat ∧
      (ungetc fdDevice f ch).1.eofReached = false ∧
        ∀ calls : List ReadCall,
          (Machine.trace ReadCall.step (ungetc fdDevice f ch).1 calls).2
            = (Machine.trace ReadCall.reference (toByte ch :: f.unread) calls).2

/-! ### What a history keeps -/

/-- What every history of reading and pushing back keeps.  The bytes of the buffer need not be
those of the file. -/
structure ReadFrom (c : Session) (f : Iob FdFile) : Prop where
  serves : c.Serves f
  canRead : c.canRead = true
  reads : c.fd.flags.read = true
  write_zero : f.bufferWriteBytes = 0
  position_le : f.bufferPosition ≤ f.bufferReadBytes
  read_le : f.bufferReadBytes ≤ c.bufferSize
  ahead : f.bufferReadBytes ≤ f.device.dos.position

variable {c : Session} {file : List UInt8} {f : Iob FdFile} {t : Tape UInt8}

theorem ReadingFrom.readFrom (h : ReadingFrom c file f t) : ReadFrom c f := { h with }

theorem ReadingFrom.rest_eq (h : ReadingFrom c file f t) : t.rest = f.unread := by
  have hhead := h.head
  have hwindow := h.window_buffer le_rfl
  rw [Iob.unread, hwindow]
  conv_lhs => rw [← List.take_append_drop f.numUnreadBytes t.rest]
  rw [Tape.rest, List.drop_drop, hhead, h.drop_eq, h.cells]

namespace ReadFrom

section

variable (h : ReadFrom c f)

include h

theorem length_take_buffer :
    (f.buffer.take f.bufferReadBytes).length = f.bufferReadBytes := by
  have := h.read_le
  rw [List.length_take, h.serves.buffer_eq, Nat.min_eq_left this]

/-- The part that is written over ends at the position of the handle. -/
theorem overwritten :
    f.device.dos.position - f.bufferReadBytes + (f.buffer.take f.bufferReadBytes).length
      = f.device.dos.position := by
  have := h.ahead
  rw [h.length_take_buffer]
  omega

theorem start_le :
    f.device.dos.position - f.bufferReadBytes ≤ f.device.dos.contents.length :=
  le_trans (Nat.sub_le _ _) h.serves.steady.position_le

/-- The tape that it seems to read from: in front of the position stands what the buffer holds. -/
def tape (h : ReadFrom c f) : Tape UInt8 where
  cells := writeAt f.device.dos.contents (f.device.dos.position - f.bufferReadBytes)
    (f.buffer.take f.bufferReadBytes)
  head := f.device.dos.position - f.numUnreadBytes
  head_le := (Nat.sub_le _ _).trans
    (h.overwritten.symm.le.trans (le_length_writeAt h.start_le _))

/-- **A stream with characters pushed back is read from like any other.** -/
theorem reading : ReadingFrom c f.device.dos.contents f h.tape :=
  { h with
    buffer_eq := by
      rw [window, tape, drop_writeAt_self h.start_le]
      exact (List.take_left' h.length_take_buffer).symm
    cells := rfl
    length_eq := by
      refine length_writeAt_of_le ?_
      rw [h.overwritten]
      exact h.serves.steady.position_le
    drop_eq := by
      have hdrop := drop_writeAt h.start_le (f.buffer.take f.bufferReadBytes)
      rw [h.overwritten] at hdrop
      exact hdrop
    head := by
      have := h.ahead
      show f.device.dos.position - f.numUnreadBytes + f.numUnreadBytes = f.device.dos.position
      unfold Iob.numUnreadBytes
      omega }

end

end ReadFrom

/-! ### Reading -/

namespace ReadFrom

section

variable (h : ReadFrom c f)

include h

/-- What a call does to the tape, it does to what is still to be read. -/
theorem of_reading (call : ReadCall) (hstep : ∃ g, StreamCall.step f call.toStreamCall
        = .ok (g, (call.toStreamCall.reference false h.tape).2) ∧
      ReadingFrom c f.device.dos.contents g (call.toStreamCall.reference false h.tape).1) :
    ReadFrom c (call.step f).1 ∧
      ((call.step f).1.unread, (call.step f).2) = call.reference f.unread := by
  obtain ⟨g, hstep, hg⟩ := hstep
  rw [ReadCall.step_toStreamCall, Except.ok.injEq] at hstep
  rw [hstep, ← hg.rest_eq, ← h.reading.rest_eq]
  exact ⟨hg.readFrom, (ReadCall.reference_toStreamCall false h.tape call).symm⟩

/-- **A buffered stream is read like the list of what is still to be read.** -/
theorem step_eq (hmode : c.mode ≠ .none) (call : ReadCall) : ReadFrom c (call.step f).1 ∧
      ((call.step f).1.unread, (call.step f).2) = call.reference f.unread := by
  refine h.of_reading call ?_
  cases call with
  | fgetc => exact h.reading.fgetc false
  | fgets n => exact h.reading.fgets_step false n
  | fread r => exact h.reading.fread_step false r (fun hm => absurd hm hmode)

theorem trace_eq (hmode : c.mode ≠ .none) (calls : List ReadCall) :
    (Machine.trace ReadCall.step f calls).2
      = (Machine.trace ReadCall.reference f.unread calls).2 := by
  induction calls generalizing f with
  | nil => rfl
  | cons call calls ih =>
    obtain ⟨hnext, heq⟩ := h.step_eq hmode call
    rw [Machine.trace_cons, Machine.trace_cons, ← heq, ih hnext]

/-- On an unbuffered stream `fread` takes its bytes from the file, whatever the buffer holds. -/
theorem fread_of_none (hmode : c.mode = .none) (r : ElementRequest)
    (hpos : 0 < r.elementSize ∧ 0 < r.count) :
    ∃ f', (ReadCall.fread r).step f
        = (f', StreamCall.freadReply r
            (window f.device.dos.contents f.device.dos.position (r.elementSize * r.count))) ∧
      ReadFrom c f' := by
  have hread := h.reading.clearerr
  obtain ⟨d', e, hthrough, hsteady, hunix, -, hposition, -, haligned⟩ :=
    hread.freadThrough_eq (Nat.mul_pos hpos.1 hpos.2) []
  have hbytes : window h.tape.cells f.clearerr.device.dos.position (r.elementSize * r.count)
      = window f.device.dos.contents f.device.dos.position (r.elementSize * r.count) :=
    congrArg (List.take _) h.reading.drop_eq
  have hcan : f.canRead = true := h.serves.canRead_eq.trans h.canRead
  have hnone : f.clearerr.bufferMode = .none := h.serves.mode_eq.trans hmode
  dsimp only [ReadCall.step]
  unfold Clib4.fread
  rw [if_neg (by simp [h.serves.inUse, hcan]), if_pos hpos, hread.fgetcCheck]
  dsimp only
  rw [if_neg (not_sizeMax_lt r.size_le), Clib4.freadBytes, if_pos hnone, hthrough, hbytes]
  refine ⟨_, rfl, { h with serves := ?_, ahead := ?_ }⟩
  · exact { h.serves with unix_eq := hunix, steady := hsteady, aligned := haligned }
  · exact h.ahead.trans (hposition.symm ▸ Nat.le_add_right _ _)

/-- **Every call that reads** leaves a stream that is read from. -/
theorem step (call : ReadCall) : ReadFrom c (call.step f).1 := by
  by_cases hmode : c.mode = .none
  · cases call with
    | fgetc => exact (h.of_reading .fgetc (h.reading.fgetc false)).1
    | fgets n => exact (h.of_reading (.fgets n) (h.reading.fgets_step false n)).1
    | fread r =>
      by_cases hpos : 0 < r.elementSize ∧ 0 < r.count
      · obtain ⟨f', hstep, hf'⟩ := h.fread_of_none hmode r hpos
        rw [hstep]
        exact hf'
      · have hnot : ¬ 0 < r.elementSize * r.count := fun hlt =>
          hpos ⟨Nat.pos_of_mul_pos_right hlt, Nat.pos_of_mul_pos_left hlt⟩
        exact (h.of_reading (.fread r) (h.reading.fread_step false r
          (fun _ hlt => absurd hlt hnot))).1
  · exact (h.step_eq hmode call).1

/-! ### Pushing back -/

/-- The stream with `ch` in front of what is still to be read. -/
theorem ungetc_of_pos {ch : ℤ} (hch : ch ≠ EOF) (hpos : f.bufferPosition ≠ 0) : ungetc fdDevice f ch
      = ({ f with eofReached := false, bufferPosition := f.bufferPosition - 1
                  buffer := writeAt f.buffer (f.bufferPosition - 1) [toByte ch] },
          ((toByte ch).toNat : ℤ)) := by
  have hcan : f.canRead = true := h.serves.canRead_eq.trans h.canRead
  simp [Clib4.ungetc, h.serves.inUse, hcan, hch, Iob.writeBufferIsValid, h.write_zero, hpos]

theorem ungetc_of_zero {ch : ℤ} (hch : ch ≠ EOF) (hpos : f.bufferPosition = 0) :
    ungetc fdDevice f ch = (f.failed (some .ENOBUFS), EOF) := by
  have hcan : f.canRead = true := h.serves.canRead_eq.trans h.canRead
  simp [Clib4.ungetc, h.serves.inUse, hcan, hch, Iob.writeBufferIsValid, h.write_zero, hpos]

theorem ungetc_of_eof : ungetc fdDevice f EOF = (f.failed (some .EINVAL), EOF) := by
  have hcan : f.canRead = true := h.serves.canRead_eq.trans h.canRead
  simp [Clib4.ungetc, h.serves.inUse, hcan]

theorem failed (e : Option Errno) : ReadFrom c (f.failed e) :=
  { h with serves := { h.serves with } }

theorem position_lt (hpos : f.bufferPosition ≠ 0) : f.bufferPosition - 1 + 1 ≤ f.buffer.length := by
  have := h.position_le
  have := h.read_le
  rw [h.serves.buffer_eq]
  omega

/-- `ungetc` leaves a stream that is read from. -/
theorem ungetc (ch : ℤ) : ReadFrom c (ungetc fdDevice f ch).1 := by
  by_cases hch : ch = EOF
  · subst hch
    rw [h.ungetc_of_eof]
    exact h.failed _
  by_cases hpos : f.bufferPosition = 0
  · rw [h.ungetc_of_zero hch hpos]
    exact h.failed _
  · rw [h.ungetc_of_pos hch hpos]
    exact
      { h with
        serves := { h.serves with
                    buffer_eq := (length_writeAt_of_le (h.position_lt hpos)).trans
                      h.serves.buffer_eq }
        position_le := le_trans (Nat.sub_le _ _) h.position_le }

/-- **What is still to be read** after a character has been pushed back. -/
theorem unread_ungetc {ch : ℤ} (hch : ch ≠ EOF) (hpos : f.bufferPosition ≠ 0) :
    (Clib4.ungetc fdDevice f ch).1.unread = toByte ch :: f.unread := by
  have hlt := h.position_lt hpos
  have hle := h.position_le
  rw [h.ungetc_of_pos hch hpos]
  have hcount : f.bufferReadBytes - (f.bufferPosition - 1)
      = f.bufferReadBytes - f.bufferPosition + 1 := by omega
  have hback : f.bufferPosition - 1 + 1 = f.bufferPosition := by omega
  simp only [Iob.unread, Iob.numUnreadBytes, window]
  rw [drop_writeAt_self (by omega), hcount, List.length_singleton, hback]
  rfl

/-- **A history of reading and pushing back** leaves a stream that is read from. -/
theorem afterHistory (history : List InputCall) : ReadFrom c (afterHistory f history) := by
  induction history generalizing f with
  | nil => exact h
  | cons call history ih =>
    show ReadFrom c (Clib4.afterHistory (call.step f).1 history)
    cases call with
    | read call => exact ih (h.step call)
    | ungetc ch => exact ih (h.ungetc ch)

theorem pushesBack (hmode : c.mode ≠ .none) (hpos : f.bufferPosition ≠ 0) : PushesBack f := by
  intro ch hch
  refine ⟨?_, ?_, ?_⟩
  · rw [h.ungetc_of_pos hch hpos]
  · rw [h.ungetc_of_pos hch hpos]
  · intro calls
    rw [(h.ungetc ch).trace_eq hmode, h.unread_ungetc hch hpos]

theorem not_pushesBack_of_zero (hpos : f.bufferPosition = 0) : ¬ PushesBack f := by
  intro hpush
  have hfails := (hpush 0 (by decide)).1
  rw [h.ungetc_of_zero (by decide) hpos] at hfails
  cases hfails

/-- On an unbuffered stream `fread` misses a character that is not the next one of the file. -/
theorem not_pushesBack_of_none (hmode : c.mode = .none) : ¬ PushesBack f := by
  intro hpush
  by_cases hpos : f.bufferPosition = 0
  · exact h.not_pushesBack_of_zero hpos hpush
  -- a byte that the file does not go on with
  obtain ⟨b, hb⟩ : ∃ b : UInt8,
      window f.device.dos.contents f.device.dos.position 1 ≠ [b] := by
    by_contra hall
    push Not at hall
    have h01 := (hall 0).symm.trans (hall 1)
    simp at h01
  have hne : (b.toNat : ℤ) ≠ EOF := by unfold EOF; omega
  have hreply := (hpush b.toNat hne).2.2 [.fread ⟨1, 1, by decide⟩]
  obtain ⟨f', hstep, -⟩ := (h.ungetc b.toNat).fread_of_none hmode ⟨1, 1, by decide⟩
    ⟨Nat.one_pos, Nat.one_pos⟩
  have hdevice : (Clib4.ungetc fdDevice f b.toNat).1.device = f.device := by
    rw [h.ungetc_of_pos hne hpos]
  rw [hdevice] at hstep
  rw [Machine.trace_cons, hstep, toByte_toNat] at hreply
  injection (List.cons.inj hreply).1 with _ hbytes
  exact hb hbytes

end

end ReadFrom

/-! ### Streams that are opened for reading -/

/-- A stream that has just been opened on a regular file, in any buffering mode, and can be read
from. -/
structure OpenForInput (f : Iob FdFile) : Prop where
  opened : Opened f
  canRead : f.canRead = true
  reads : f.device.fd.flags.read = true

theorem OpenForInput.readFrom (h : OpenForInput f) : ReadFrom (h.opened.session false) f :=
  { serves := h.opened.serves nofun, canRead := h.canRead, reads := h.reads
    write_zero := h.opened.write_zero
    position_le := by rw [h.opened.position_zero]; exact Nat.zero_le _
    read_le := by rw [h.opened.read_zero]; exact Nat.zero_le _
    ahead := by rw [h.opened.read_zero]; exact Nat.zero_le _ }

/-- The replies to a history, on a list of bytes: a call that reads gets what it would get from the
list, and a character goes to the front of the list, or is refused. -/
def Replays (l : List UInt8) : List InputCall → List StreamReply → Prop
  | [], [] => True
  | .read call :: history, r :: replies =>
    r = (call.reference l).2 ∧ Replays (call.reference l).1 history replies
  | .ungetc ch :: history, r :: replies =>
    r = .int (toByte ch).toNat ∧ Replays (toByte ch :: l) history replies ∨
      r = .int EOF ∧ Replays l history replies
  | _, _ => False

/-- **A history of reading and pushing back**, on a buffered stream, is one on the list of the bytes
that are to be read. -/
theorem ReadFrom.replays (h : ReadFrom c f) (hmode : c.mode ≠ .none)
    (history : List InputCall) :
    Replays f.unread history (Machine.trace InputCall.step f history).2 := by
  induction history generalizing f with
  | nil => trivial
  | cons call history ih =>
    rw [Machine.trace_cons]
    cases call with
    | read call =>
      obtain ⟨hnext, heq⟩ := h.step_eq hmode call
      rw [Replays, ← heq]
      exact ⟨rfl, ih hnext⟩
    | ungetc ch =>
      rw [Replays, InputCall.step]
      by_cases hch : ch = EOF
      · rw [hch, h.ungetc_of_eof]
        exact .inr ⟨rfl, ih (h.failed _)⟩
      by_cases hpos : f.bufferPosition = 0
      · rw [h.ungetc_of_zero hch hpos]
        exact .inr ⟨rfl, ih (h.failed _)⟩
      · refine .inl ⟨?_, ?_⟩
        · rw [h.ungetc_of_pos hch hpos]
        · rw [← h.unread_ungetc hch hpos]
          exact ih (h.ungetc ch)

/-- A byte is pushed back in the place of the first one, and another one is refused. -/
theorem replays_two :
    Replays [97, 98] [.read .fgetc, .ungetc 99, .ungetc 99, .read .fgetc]
      [.int 97, .int 99, .int EOF, .int 99] := by
  have hopen : OpenForInput (readOnlyStream [97, 98] [0, 0]) :=
    ⟨(readOnlyStream_open _ _ (by decide) (by decide) (by decide)).opened, rfl, rfl⟩
  exact hopen.readFrom.replays nofun _

/-- **When a character can be pushed back.**  After every history of reading and pushing back,
pushing back works exactly if the stream is buffered and its buffer has a byte in front of the
position. -/
theorem pushesBack_iff (h : OpenForInput f) (history : List InputCall) :
    PushesBack (afterHistory f history) ↔
      f.bufferMode ≠ .none ∧ (afterHistory f history).bufferPosition ≠ 0 := by
  have hafter := h.readFrom.afterHistory history
  constructor
  · intro hpush
    exact ⟨fun hmode => hafter.not_pushesBack_of_none hmode hpush,
      fun hpos => hafter.not_pushesBack_of_zero hpos hpush⟩
  · rintro ⟨hmode, hpos⟩
    exact hafter.pushesBack hmode hpos

/-- After the first character of a file any character can be pushed back. -/
theorem pushesBack_after_fgetc :
    PushesBack (afterHistory (readOnlyStream [97, 98] [0, 0]) [.read .fgetc]) :=
  (pushesBack_iff
    ⟨(readOnlyStream_open [97, 98] [0, 0] (by decide) (by decide) (by decide)).opened, rfl, rfl⟩
    [.read .fgetc]).2 ⟨nofun, by decide⟩

/-- At the end of the file the buffer is empty: the character that was read cannot be pushed
back. -/
theorem not_pushesBack_at_end :
    OpenForInput (readOnlyStream [97] [0, 0]) ∧
      (Machine.trace InputCall.step (readOnlyStream [97] [0, 0]) [.read .fgetc, .read .fgetc]).2
        = [.int 97, .int EOF] ∧
      (ungetc fdDevice (afterHistory (readOnlyStream [97] [0, 0])
        [.read .fgetc, .read .fgetc]) 97).2 = EOF ∧
      ¬ PushesBack (afterHistory (readOnlyStream [97] [0, 0]) [.read .fgetc, .read .fgetc]) := by
  have hopen : OpenForInput (readOnlyStream [97] [0, 0]) :=
    ⟨(readOnlyStream_open _ _ (by decide) (by decide) (by decide)).opened, rfl, rfl⟩
  refine ⟨hopen, by decide, by decide, ?_⟩
  exact (hopen.readFrom.afterHistory _).not_pushesBack_of_zero (by decide)

end Clib4
