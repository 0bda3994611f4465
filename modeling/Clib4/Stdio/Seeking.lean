import Clib4.Stdio.Reading
import Clib4.Stdio.Writing

/-!
# Moving in a stream

`ftell` and `fseek` on a stream that stands for a tape: `ftell` tells the position of the tape,
as far as a `long` can, and `fseek` moves it, whether it stays inside the read buffer, gives it
up, or has to write out what waits in the buffer first.

## Main definitions

* `seekTarget`, `seekTo` — the reference: the position that is asked for, and what moving there
  does.  In front of the file it is the start; behind its end a file that is written to grows.
* `SeekSafe` — what `fseek` computes with a `long` is right.

## Main results

* `Reading.ftell`, `Writing.ftell` — **the position told is the one of the tape.**
* `Reading.fseek`, `Writing.fseek` — **seeking moves the tape.**
-/

namespace Clib4

open DosFile (SeekMode)
open Splice

/-! ### The reference -/

/-- The position that an offset denotes on the tape. -/
def seekTarget (t : Tape UInt8) (offset : ℤ) : SeekMode → ℤ
  | .set => offset
  | .cur => t.head + offset
  | .end => t.cells.length + offset

/-- Move to a position: in front of the tape to its start, and behind its end, if the file may
grow, over zeros.  The second component is the result of `fseek`. -/
def seekTo (grows : Bool) (t : Tape UInt8) (p : ℤ) : Tape UInt8 × ℤ :=
  if h : p.toNat ≤ t.cells.length then (t.seek p.toNat h, 0)
  else if grows then (t.padTo 0 p.toNat, 0)
  else (t, -1)

theorem seekTo_of_le (grows : Bool) (t : Tape UInt8) {p : ℕ} (h : p ≤ t.cells.length) :
    seekTo grows t p = (t.seek p h, 0) := by
  rw [seekTo, dif_pos (by simpa using h)]
  simp

theorem seekTo_head (grows : Bool) (t : Tape UInt8) : seekTo grows t t.head = (t, 0) := by
  rw [seekTo_of_le grows t t.head_le]
  rfl

/-- Whether a file grows when one moves behind its end. -/
def Session.grows (c : Session) : Bool := c.unixPathSemantics && c.fd.flags.write

/-! ### The device -/

/-- The handle of a file stands where a tape does. -/
structure Session.At (c : Session) (d : FdFile) (t : Tape UInt8) : Prop where
  steady : Steady c.fd d
  aligned : Aligned d
  unix_eq : d.unixPathSemantics = c.unixPathSemantics
  cells : t.cells = d.dos.contents
  head : t.head = d.dos.position

/-- The answer of the seek action, for the result of `fseek`. -/
def SeekAnswer (reply : FileActionReply) (result : ℤ) : Prop :=
  reply.error = none ∧ result = 0 ∨ reply.error ≠ none ∧ result = -1

/-- A handle has been moved to a position, or refused to move. -/
def Session.Moved (c : Session) (t : Tape UInt8) (p : ℤ) (r : FdFile × FileActionReply) : Prop :=
  c.At r.1 (seekTo c.grows t p).1 ∧ SeekAnswer r.2 (seekTo c.grows t p).2

namespace Session.At

variable {c : Session} {d : FdFile} {t : Tape UInt8} {offset : ℤ} {mode : SeekMode}

section

variable (h : c.At d t)

include h

theorem size_eq : d.dos.size = t.cells.length := by
  rw [h.cells]
  rfl

theorem target_eq : d.dos.target offset mode = seekTarget t offset mode := by
  cases mode <;> simp [DosFile.target, seekTarget, h.head, h.size_eq]

theorem newPosition_eq (hoffset : -2147483648 ≤ offset)
    (hsize : seekTarget t offset mode < 2 ^ 63) :
    d.newPosition offset mode = seekTarget t offset mode := by
  cases mode with
  | set => rfl
  | cur =>
    rw [FdFile.newPosition, h.aligned, ← h.head]
    exact toInt64_of_le (by omega) hsize
  | «end» =>
    rw [FdFile.newPosition, h.size_eq]
    exact toInt64_of_le (by omega) hsize

theorem seek_inFront {p : ℤ} (hnew : d.newPosition offset mode = p) (hp : p < 0) :
    c.Moved t p (fdHookSeek d offset mode) := by
  have hto : seekTo c.grows t p = (t.seek 0 (Nat.zero_le _), 0) := by
    have hzero : p.toNat = 0 := by omega
    rw [seekTo, dif_pos (by omega)]
    simp [hzero]
  have hseek : fdHookSeek d offset mode =
      ({ d with dos := { d.dos with position := 0 }, fd := { d.fd with position := 0 } },
        { result := 0 }) := by
    rw [fdHookSeek, if_neg h.steady.here.file_ne, if_pos h.steady.here.plain, hnew, if_pos hp]
  rw [Session.Moved, hseek, hto]
  refine ⟨⟨h.steady.set (Nat.zero_le _) _, ?_, h.unix_eq, ?_, ?_⟩, .inl ⟨rfl, rfl⟩⟩
  · simp [Aligned, FdFile.currentPosition]
  · exact h.cells
  · rfl

theorem seek_inside {p : ℕ} (hnew : d.newPosition offset mode = p)
    (htarget : d.dos.target offset mode = p) (hp : p ≤ t.cells.length) :
    c.Moved t p (fdHookSeek d offset mode) := by
  obtain ⟨d', hseek, hsteady, hunix, hcont, hpos, haligned⟩ :=
    fdHookSeek_of_steady h.steady h.aligned hnew htarget (by rw [h.size_eq]; exact hp)
  rw [Session.Moved, hseek, seekTo_of_le c.grows t hp]
  exact ⟨⟨hsteady, haligned, hunix.trans h.unix_eq, h.cells.trans hcont.symm,
    hpos.symm⟩, .inl ⟨rfl, rfl⟩⟩

theorem grow {p : ℕ} (hp : t.cells.length < p) (hlong : p ≤ t.cells.length + longMax) :
    c.At (d.growTo p).1 (t.padTo 0 p) ∧ SeekAnswer (d.growTo p).2 0 := by
  obtain ⟨n, rfl⟩ : ∃ n, p = d.dos.size + n := ⟨p - d.dos.size, by rw [h.size_eq]; omega⟩
  have hsize := h.size_eq
  have hserved : GrowthServed d n := by simp [GrowthServed, h.steady.answers_nil]
  obtain ⟨dos', hgrow, hpos, hcont, hanswers⟩ := growTo_of_served (by omega) hserved
  rw [Nat.cast_add, hgrow]
  refine ⟨⟨⟨h.steady.regular, h.steady.same, hanswers h.steady.answers_nil, ?_⟩,
    ?_, h.unix_eq, ?_, ?_⟩, .inl ⟨rfl, rfl⟩⟩
  · simp only [DosFile.size, hcont, List.length_append, List.length_replicate]
    rw [hpos, DosFile.size]
  · simp [Aligned, FdFile.currentPosition, hpos]
  · simp only [Tape.padTo]
    rw [hcont, ← hsize, Nat.add_sub_cancel_left, h.cells]
  · rw [hpos]
    exact Tape.head_padTo 0

theorem seek_behind {p : ℕ} (hnew : d.newPosition offset mode = p)
    (htarget : d.dos.target offset mode = p) (hp : t.cells.length < p)
    (hlong : p ≤ t.cells.length + longMax) : c.Moved t p (fdHookSeek d offset mode) := by
  have hsize := h.size_eq
  have hnone : d.dos.changeFilePosition offset mode = none := by
    rw [DosFile.changeFilePosition, htarget, if_neg (by omega)]
  have hcurrent : ¬ (p : ℤ) = d.currentPosition := by
    have hle := h.steady.position_le
    rw [h.aligned]
    omega
  have hfailed : fdHookSeek d offset mode = d.seekFailed p := by
    rw [fdHookSeek, if_neg h.steady.here.file_ne, if_pos h.steady.here.plain, hnew,
      if_neg (by omega), if_neg hcurrent, hnone]
  have hlt : (d.dos.size : ℤ) < p := by omega
  have hwrite : d.fd.flags.write = c.fd.flags.write := by rw [h.steady.same.1]
  rw [Session.Moved, hfailed, FdFile.seekFailed, h.unix_eq, hwrite, seekTo,
    dif_neg (by simpa using hp), Session.grows]
  cases hu : c.unixPathSemantics with
  | false =>
    rw [if_neg (by simp), if_neg (by simp)]
    exact ⟨h, .inr ⟨by simp, rfl⟩⟩
  | true =>
    rw [Bool.true_and, Bool.true_and, if_pos (by simpa using hlt)]
    cases hw : c.fd.flags.write with
    | false =>
      rw [if_neg (by simp), if_neg (by simp)]
      exact ⟨h, .inr ⟨by simp, rfl⟩⟩
    | true =>
      rw [if_pos rfl, if_pos rfl]
      exact h.grow hp hlong

/-- **The seek action moves the tape.** -/
theorem seek (hoffset : -2147483648 ≤ offset ∧ offset ≤ longMax)
    (hsize : seekTarget t offset mode < 2 ^ 63) :
    c.Moved t (seekTarget t offset mode) (fdHookSeek d offset mode) := by
  have hnew := h.newPosition_eq hoffset.1 hsize
  have htarget := @target_eq c d t offset mode h
  have hbehind : seekTarget t offset mode ≤ t.cells.length + longMax := by
    have hle := t.head_le
    cases mode <;> simp only [seekTarget] <;> omega
  generalize seekTarget t offset mode = p at *
  by_cases hneg : p < 0
  · exact h.seek_inFront hnew hneg
  obtain ⟨p, rfl⟩ : ∃ q : ℕ, p = q := ⟨p.toNat, by omega⟩
  by_cases hin : p ≤ t.cells.length
  · exact h.seek_inside hnew htarget hin
  · exact h.seek_behind hnew htarget (by omega) (by omega)

end

end Session.At

/-! ### Telling the position -/

/-- `ftell` leaves the stream alone, and corrects the position of the device by what the buffer
holds. -/
theorem ftell_of_serves {c : Session} {f : Iob FdFile} (h : c.Serves f) (hc : c.aligned = true)
    (hsize : f.device.dos.size < 2 ^ 63) :
    ftell fdDevice f = (f, toInt32 (if f.readBufferIsValid then
        (f.device.dos.position : ℤ) - f.numUnreadBytes
      else f.device.dos.position + f.bufferWriteBytes)) := by
  have hpos := h.steady.position_le
  have hnew : f.device.newPosition 0 .cur = f.device.currentPosition := by
    rw [FdFile.newPosition, h.aligned hc]
    rw [toInt64_of_le] <;> omega
  have haction : fdDevice.action f.device (.seek 0 .cur)
      = (f.device, { result := f.device.dos.position }) := by
    show fdHookSeek f.device 0 .cur = _
    rw [fdHookSeek, if_neg h.steady.here.file_ne, if_pos h.steady.here.plain, hnew, if_pos rfl,
      h.aligned hc, if_neg (by omega)]
  have hnn : ¬ ((f.device.dos.position : ℤ) < 0) := by omega
  unfold ftell
  rw [if_neg (by simp [h.inUse]), haction]
  simp only [if_neg hnn]
  cases hread : f.readBufferIsValid with
  | true => rfl
  | false =>
    show (if f.writeBufferIsValid then (f, toInt32 (f.device.dos.position + f.bufferWriteBytes))
      else (f, toInt32 f.device.dos.position))
      = (f, toInt32 (f.device.dos.position + f.bufferWriteBytes))
    split
    · rfl
    · next hwrite =>
      have hzero : f.bufferWriteBytes = 0 := by simpa [Iob.writeBufferIsValid] using hwrite
      rw [hzero, Nat.cast_zero, add_zero]

/-- The condition under which what `fseek` computes with a `long` is right: the position and the
differences fit, or the position is cut down to zero and not used. -/
def SeekSafe (f : Iob FdFile) (head offset : ℤ) (mode : SeekMode) : Prop :=
  f.bufferReadBytes ≠ 0 →
    (mode = .set → toInt32 head = 0 ∨ head ≤ longMax ∧ -2147483648 < offset - head) ∧
    (mode = .cur → -2147483648 < offset)

/-- A stream has been moved to a position and is read from; with the result of `fseek`. -/
def Session.Sought (c : Session) (t : Tape UInt8) (p : ℤ) (r : Iob FdFile × ℤ) : Prop :=
  Reading c r.1 (seekTo c.grows t p).1 ∧ r.2 = (seekTo c.grows t p).2

namespace Reading

variable {c : Session} {f : Iob FdFile} {t : Tape UInt8}

section

variable (h : Reading c f t)

include h

/-- **The position told is the one of the tape.** -/
theorem ftell (hc : c.aligned = true) (hsize : t.cells.length < 2 ^ 63) :
    ftell fdDevice f = (f, toInt32 t.head) := by
  have hhead := h.head
  rw [ftell_of_serves h.serves hc (by rw [DosFile.size, ← h.cells]; exact hsize)]
  congr 2
  split
  · omega
  · next hvalid =>
    have hzero : f.bufferReadBytes = 0 := by simpa [Iob.readBufferIsValid] using hvalid
    rw [Iob.numUnreadBytes] at hhead
    rw [h.write_zero]
    omega

/-- **Giving up what was read ahead** moves the handle back to the position of the tape. -/
theorem drop (hc : c.aligned = true) (hsize : t.cells.length < 2 ^ 63) :
    ∃ f', dropIobReadBuffer fdDevice f = (f', .ok) ∧ Reading c f' t ∧ f'.bufferReadBytes = 0 := by
  have hhead := h.head
  have hlen := h.position_le_length
  have hle := h.read_le
  have hmax := c.size_le
  have hunread : f.numUnreadBytes ≤ f.bufferReadBytes := Nat.sub_le _ _
  have hint : toInt32 (f.numUnreadBytes : ℤ) = f.numUnreadBytes :=
    toInt32_of_le (by omega) (by omega)
  -- the stream with an empty buffer, once the handle is where the tape is
  have hreset : ∀ (d : FdFile) (e : Option Errno), Steady c.fd d → (Aligned d) →
      d.unixPathSemantics = c.unixPathSemantics → d.dos.contents = f.device.dos.contents →
      d.dos.position = t.head →
      Reading c { f with eofReached := false, device := d, bufferReadBytes := 0
                         bufferPosition := 0, errno := e } t := by
    intro d e hsteady haligned hunix hcont hposition
    exact
      { h with
        serves := { h.serves with
          unix_eq := hunix
          steady := hsteady
          aligned := fun _ => haligned }
        position_le := le_rfl
        read_le := Nat.zero_le _
        ahead := Nat.zero_le _
        buffer_eq := by simp [window]
        cells := h.cells.trans hcont.symm
        drop_eq := rfl
        head := by simp [Iob.numUnreadBytes, hposition] }
  have hnumUnread : ({ f with eofReached := false } : Iob FdFile).numUnreadBytes
      = f.numUnreadBytes := rfl
  unfold dropIobReadBuffer
  rw [if_pos h.serves.inUse]
  by_cases hvalid : f.bufferReadBytes = 0
  · rw [if_neg (by simp [Iob.readBufferIsValid, hvalid])]
    exact ⟨_, rfl, { h with serves := { h.serves with } }, hvalid⟩
  rw [if_pos (by simp [Iob.readBufferIsValid]; omega)]
  by_cases hzero : f.numUnreadBytes = 0
  · have hnone : ¬ 0 < toInt32 (f.numUnreadBytes : ℤ) := by rw [hint]; omega
    simp only [hnumUnread, if_neg hnone]
    exact ⟨_, rfl, hreset f.device f.errno h.serves.steady (h.serves.aligned hc) h.serves.unix_eq
      rfl (by omega), rfl⟩
  · have hpos : (0 : ℤ) < f.numUnreadBytes := by omega
    have hnew : f.device.newPosition (-f.numUnreadBytes) .cur = t.head := by
      rw [FdFile.newPosition, h.serves.aligned hc, toInt64_of_le] <;> omega
    have htarget : f.device.dos.target (-f.numUnreadBytes) .cur = t.head := by
      rw [DosFile.target]
      omega
    obtain ⟨d', hseek, hsteady, hunix, hcont, hposition, haligned⟩ :=
      fdHookSeek_of_steady h.serves.steady (h.serves.aligned hc) hnew htarget
        (by rw [DosFile.size, ← h.cells]; exact t.head_le)
    have haction : fdDevice.action f.device (.seek (-(f.numUnreadBytes : ℤ)) .cur)
        = (d', { result := t.head }) := hseek
    simp only [hnumUnread, hint, if_pos hpos, haction]
    exact ⟨_, rfl, hreset d' _ hsteady haligned (hunix.trans h.serves.unix_eq) hcont hposition,
      rfl⟩

theorem seekInBuffer {offset : ℤ} (hin : seeksInBuffer f offset = true) :
    Reading c { f with bufferPosition := (f.bufferPosition + offset).toNat }
        (seekTo c.grows t (seekTarget t offset .cur)).1 ∧
      (seekTo c.grows t (seekTarget t offset .cur)).2 = 0 := by
  have hhead := h.head
  have hle := h.position_le
  have hahead := h.ahead
  have hlen := h.position_le_length
  unfold Iob.numUnreadBytes at hhead
  have hmove : 0 ≤ f.bufferPosition + offset ∧ f.bufferPosition + offset ≤ f.bufferReadBytes := by
    simp only [seeksInBuffer, Bool.or_eq_true, Bool.and_eq_true, decide_eq_true_eq] at hin
    unfold Iob.numUnreadBytes at hin
    omega
  obtain ⟨p, hp⟩ : ∃ p : ℕ, seekTarget t offset .cur = p :=
    ⟨(t.head + offset).toNat, by simp only [seekTarget]; omega⟩
  have hple : p ≤ t.cells.length := by simp only [seekTarget] at hp; omega
  rw [hp, seekTo_of_le c.grows t hple]
  refine ⟨?_, rfl⟩
  simp only [seekTarget] at hp
  exact
    { h with
      serves := { h.serves with }
      position_le := by dsimp only; omega
      cells := h.cells
      head := by simp only [Iob.numUnreadBytes, Tape.head_seek]; omega }

section

variable (hc : c.aligned = true) {offset : ℤ} {mode : SeekMode}
  (hoffset : -2147483648 ≤ offset ∧ offset ≤ longMax) (hsize : seekTarget t offset mode < 2 ^ 63)

include hc hoffset hsize

theorem seekDevice_of_empty (hempty : f.bufferReadBytes = 0) :
    c.Sought t (seekTarget t offset mode) (seekDevice fdDevice f offset mode) := by
  have hhead : t.head = f.device.dos.position := by
    have := h.head
    rw [Iob.numUnreadBytes] at this
    omega
  have hat : c.At f.device t :=
    ⟨h.serves.steady, h.serves.aligned hc, h.serves.unix_eq, h.cells, hhead⟩
  obtain ⟨hat', hreply⟩ := hat.seek hoffset hsize
  have haction : fdDevice.action f.device (.seek offset mode)
      = fdHookSeek f.device offset mode := rfl
  generalize fdHookSeek f.device offset mode = r at hat' hreply haction
  have hread : ∀ (er : Bool) (e : Option Errno),
      Reading c { f with device := r.1, error := er, errno := e }
        (seekTo c.grows t (seekTarget t offset mode)).1 := by
    intro er e
    exact
      { h with
        serves := { h.serves with
          unix_eq := hat'.unix_eq
          steady := hat'.steady
          aligned := fun _ => hat'.aligned }
        ahead := by rw [hempty]; exact Nat.zero_le _
        buffer_eq := by simp [hempty, window]
        cells := hat'.cells
        length_eq := rfl
        drop_eq := rfl
        head := by simp [Iob.numUnreadBytes, hempty, hat'.head] }
  unfold Session.Sought seekDevice
  rw [if_neg (by simp [Iob.writeBufferIsValid, h.write_zero])]
  simp only [if_neg fun hvalid => Iob.readBufferIsValid_iff.1 hvalid hempty, haction]
  rcases hreply with ⟨hnone, hres⟩ | ⟨hsome, hres⟩
  · rw [hnone, hres]
    exact ⟨hread f.error _, rfl⟩
  · obtain ⟨e, he⟩ := Option.ne_none_iff_exists'.1 hsome
    rw [he, hres]
    exact ⟨hread true _, rfl⟩

variable (hcells : t.cells.length < 2 ^ 63)

include hcells

theorem seekDevice :
    c.Sought t (seekTarget t offset mode) (seekDevice fdDevice f offset mode) := by
  by_cases hempty : f.bufferReadBytes = 0
  · exact h.seekDevice_of_empty hc hoffset hsize hempty
  · obtain ⟨f₁, hdrop, hf₁, hempty₁⟩ := h.drop hc hcells
    have hsame : Clib4.seekDevice fdDevice f offset mode
        = Clib4.seekDevice fdDevice f₁ offset mode := by
      simp [Clib4.seekDevice, Iob.writeBufferIsValid_iff, h.write_zero, hf₁.write_zero,
        Iob.readBufferIsValid_iff, hempty, hdrop, hempty₁]
    rw [hsame]
    exact hf₁.seekDevice_of_empty hc hoffset hsize hempty₁

/-- The part of `fseek` behind the conversion to a relative offset. -/
theorem seekAway (hsafe : f.bufferReadBytes ≠ 0 → mode = .cur → -2147483648 < offset) :
    ∃ r, (if mode = .cur ∧ offset = 0 then .ok (f, 0) else seekAway fdDevice f offset mode)
        = .ok r ∧ c.Sought t (seekTarget t offset mode) r := by
  by_cases hstay : mode = .cur ∧ offset = 0
  · obtain ⟨rfl, rfl⟩ := hstay
    refine ⟨(f, 0), if_pos ⟨rfl, rfl⟩, ?_⟩
    rw [Session.Sought, seekTarget, add_zero, seekTo_head]
    exact ⟨h, rfl⟩
  rw [if_neg hstay]
  unfold Clib4.seekAway
  by_cases hrel : mode = .cur ∧ f.readBufferIsValid = true
  · obtain ⟨rfl, hvalid⟩ := hrel
    have hne := Iob.readBufferIsValid_iff.1 hvalid
    have hlt := hsafe hne rfl
    have hlong : longMax = 2147483647 := rfl
    have hsub : subLong 0 offset = .ok (0 - offset) := by
      rw [subLong, if_pos (by omega)]
    rw [if_pos ⟨rfl, hvalid⟩, hsub]
    split
    · next hin =>
      obtain ⟨hf', hres⟩ := h.seekInBuffer hin
      exact ⟨_, rfl, hf', hres.symm⟩
    · exact ⟨_, rfl, h.seekDevice hc hoffset hsize hcells⟩
  · rw [if_neg hrel]
    exact ⟨_, rfl, h.seekDevice hc hoffset hsize hcells⟩

omit hoffset hsize in
/-- With a read buffer an absolute position is taken relative to the one that `ftell` tells. -/
theorem fseek_set (hvalid : f.readBufferIsValid = true) (hzero : toInt32 t.head ≠ 0)
    (hlow : -2147483648 < offset - toInt32 t.head) (hhigh : offset - toInt32 t.head ≤ longMax)
    (hsize : t.head + (offset - toInt32 t.head) < 2 ^ 63) :
    ∃ r, Clib4.fseek fdDevice f offset .set = .ok r ∧
      c.Sought t (t.head + (offset - toInt32 t.head)) r := by
  have hclear : Reading c { f with eofReached := false } t :=
    { h with serves := { h.serves with } }
  have hsub : subLong offset (toInt32 t.head) = .ok (offset - toInt32 t.head) := by
    rw [subLong, if_pos ⟨hlow.le, hhigh⟩]
  unfold Clib4.fseek relativeSeek
  rw [if_neg (by simp [h.serves.inUse]), if_pos ⟨rfl, hvalid⟩, h.ftell hc hcells]
  dsimp only
  rw [if_pos hzero, hsub]
  have hplace : seekTarget t (offset - toInt32 t.head) .cur < 2 ^ 63 := hsize
  exact hclear.seekAway hc ⟨hlow.le, hhigh⟩ hplace hcells (fun _ _ => hlow)

/-- **Seeking moves the tape**, for a stream that is being read from. -/
theorem fseek (hsafe : SeekSafe f t.head offset mode) :
    ∃ r, fseek fdDevice f offset mode = .ok r ∧ c.Sought t (seekTarget t offset mode) r := by
  have hclear : Reading c { f with eofReached := false } t :=
    { h with serves := { h.serves with } }
  by_cases habs : mode = .set ∧ f.readBufferIsValid = true
  · obtain ⟨rfl, hvalid⟩ := habs
    by_cases hzero : toInt32 (t.head : ℤ) = 0
    · -- the position zero is taken for an error of `ftell`
      unfold Clib4.fseek relativeSeek
      rw [if_neg (by simp [h.serves.inUse]), if_pos ⟨rfl, hvalid⟩, h.ftell hc hcells]
      dsimp only
      rw [if_neg (by simpa using hzero)]
      exact hclear.seekAway hc hoffset hsize hcells nofun
    · obtain ⟨hmax, hdiff⟩ :=
        ((hsafe (Iob.readBufferIsValid_iff.1 hvalid)).1 rfl).resolve_left hzero
      have hlong : toInt32 (t.head : ℤ) = t.head := toInt32_of_le (by omega) hmax
      have htarget : seekTarget t offset .set = t.head + (offset - toInt32 t.head) := by
        rw [hlong, seekTarget]
        omega
      rw [htarget] at hsize ⊢
      exact h.fseek_set hc hcells hvalid hzero (by omega) (by omega) hsize
  · unfold Clib4.fseek relativeSeek
    rw [if_neg (by simp [h.serves.inUse]), if_neg habs]
    exact hclear.seekAway hc hoffset hsize hcells (fun hne hmode => (hsafe hne).2 hmode)

end

end

end Reading

/-! ### Between reading and writing -/

/-- What the session of a stream has that is open for both directions and does not append. -/
structure Session.Update (c : Session) : Prop where
  aligned : c.aligned = true
  canRead : c.canRead = true
  canWrite : c.canWrite = true
  reads : c.fd.flags.read = true
  writes : c.fd.flags.write = true
  notAppend : c.fd.flags.append = false

theorem writePosition_of_notAppend {c : Session} {f : Iob FdFile} (h : c.Serves f)
    (hc : c.fd.flags.append = false) : f.device.writePosition = f.device.dos.position := by
  have happend : f.device.fd.flags.append = false := by rw [h.steady.same.1]; exact hc
  simp [FdFile.writePosition, happend]

theorem Reading.toWriting {c : Session} {f : Iob FdFile} {t : Tape UInt8} (h : Reading c f t)
    (hc : c.Update) (hempty : f.bufferReadBytes = 0) : Writing c f t := by
  have hhead := h.head
  have hpos := h.position_le
  rw [Iob.numUnreadBytes] at hhead
  have hwrite := writePosition_of_notAppend h.serves hc.notAppend
  exact
    { serves := h.serves, canWrite := hc.canWrite, writes := hc.writes
      write_le := by rw [h.write_zero]; exact Nat.zero_le _
      read_zero := hempty, position_zero := by omega
      cells := by rw [Iob.pending, h.write_zero, List.take_zero, writeAt_nil, h.cells]
      head := by rw [h.write_zero]; omega }

/-- With nothing left to be written a stream can be read from. -/
theorem Writing.toReading {c : Session} {f : Iob FdFile} {t : Tape UInt8} (h : Writing c f t)
    (hc : c.Update) (hempty : f.bufferWriteBytes = 0) : Reading c f t := by
  have hwrite := writePosition_of_notAppend h.serves hc.notAppend
  exact
    { serves := h.serves, canRead := hc.canRead, reads := hc.reads
      write_zero := hempty
      position_le := by rw [h.position_zero]; exact Nat.zero_le _
      read_le := by rw [h.read_zero]; exact Nat.zero_le _
      ahead := by rw [h.read_zero]; exact Nat.zero_le _
      buffer_eq := by simp [h.read_zero, window]
      cells := h.cells_of_empty hempty
      length_eq := rfl
      drop_eq := rfl
      head := by
        have := h.head
        simp only [Iob.numUnreadBytes, h.read_zero]
        omega }

namespace Writing

variable {c : Session} {f : Iob FdFile} {t : Tape UInt8} (h : Writing c f t) (hc : c.Update)

include h hc

/-- **The position told is the one of the tape.** -/
theorem ftell (hsize : t.cells.length < 2 ^ 63) :
    ftell fdDevice f = (f, toInt32 t.head) := by
  have hle : f.device.dos.size ≤ t.cells.length := by
    rw [h.cells, length_writeAt h.serves.steady.writePosition_le]
    exact Nat.le_max_left _ _
  rw [ftell_of_serves h.serves hc.aligned (by omega),
    if_neg (by simp [Iob.readBufferIsValid, h.read_zero]), h.head,
    writePosition_of_notAppend h.serves hc.notAppend, Nat.cast_add]

variable {offset : ℤ} {mode : SeekMode} (hoffset : -2147483648 ≤ offset ∧ offset ≤ longMax)
  (hsize : seekTarget t offset mode < 2 ^ 63)

include hoffset hsize

theorem seekDevice :
    c.Sought t (seekTarget t offset mode) (seekDevice fdDevice f offset mode) := by
  by_cases hzero : f.bufferWriteBytes = 0
  · exact (h.toReading hc hzero).seekDevice_of_empty hc.aligned hoffset hsize h.read_zero
  · obtain ⟨f₁, hflush, hf₁, hzero₁⟩ := h.flush
    have hsame : Clib4.seekDevice fdDevice f offset mode
        = Clib4.seekDevice fdDevice f₁ offset mode := by
      simp [Clib4.seekDevice, Iob.writeBufferIsValid_iff, hzero, hflush, hzero₁]
    rw [hsame]
    exact (hf₁.toReading hc hzero₁).seekDevice_of_empty hc.aligned hoffset hsize hf₁.read_zero

/-- The part of `fseek` behind the conversion, which leaves the offset alone. -/
theorem seekAway :
    ∃ f', (if mode = .cur ∧ offset = 0 then .ok (f, 0) else seekAway fdDevice f offset mode)
        = .ok (f', (seekTo c.grows t (seekTarget t offset mode)).2) ∧
      (Writing c f' (seekTo c.grows t (seekTarget t offset mode)).1 ∧
          f'.bufferWriteBytes = f.bufferWriteBytes ∨
        Reading c f' (seekTo c.grows t (seekTarget t offset mode)).1) := by
  have hrel : ¬ (mode = .cur ∧ f.readBufferIsValid = true) := by
    simp [Iob.readBufferIsValid, h.read_zero]
  by_cases hstay : mode = .cur ∧ offset = 0
  · obtain ⟨rfl, rfl⟩ := hstay
    rw [if_pos ⟨rfl, rfl⟩, seekTarget, add_zero, seekTo_head]
    exact ⟨_, rfl, .inl ⟨h, rfl⟩⟩
  · obtain ⟨hf', hres⟩ := h.seekDevice hc hoffset hsize
    rw [if_neg hstay, Clib4.seekAway, if_neg hrel, ← hres]
    exact ⟨_, rfl, .inr hf'⟩

/-- **Seeking moves the tape**, for a stream that is being written to. -/
theorem fseek :
    ∃ f', fseek fdDevice f offset mode = .ok (f', (seekTo c.grows t (seekTarget t offset mode)).2) ∧
      (Writing c f' (seekTo c.grows t (seekTarget t offset mode)).1 ∧
          f'.bufferWriteBytes = f.bufferWriteBytes ∨
        Reading c f' (seekTo c.grows t (seekTarget t offset mode)).1) := by
  have hclear : Writing c { f with eofReached := false } t :=
    { h with serves := { h.serves with } }
  have habs : ¬ (mode = .set ∧ f.readBufferIsValid = true) := by
    simp [Iob.readBufferIsValid, h.read_zero]
  unfold Clib4.fseek relativeSeek
  rw [if_neg (by simp [h.serves.inUse]), if_neg habs]
  exact hclear.seekAway hc hoffset hsize

end Writing

end Clib4
