import Clib4.Base.Tape
import Clib4.Stdio.Input
import Clib4.Stdio.Position
import Clib4.Stdio.Session

/-!
# A stream that is read from

The file that a stream stands for while it is read from: the bytes of the file, and the
position of the handle moved back over what was read ahead and has not been handed out.  Every
function that reads has one lemma, which says that it reads from that file.

## Main definitions

* `ReadingFrom c file f t` — the stream `f` is being read from and stands for the tape `t`,
  which agrees with the file from the position on; `Reading c f t` — it is the file.

## Main results

* `ReadingFrom.getc`, `ReadingFrom.fgets`, `ReadingFrom.freadBytes` — **a character, a line and a
  number of bytes are read from the tape.**
-/

namespace Clib4

open List

open DosFile (SeekMode)
open Splice

/-- The stream stands for the tape `t`, which agrees with the file from the position of the handle
on; the buffer, if not empty, holds the bytes of the tape in front of that position. -/
structure ReadingFrom (c : Session) (file : List UInt8) (f : Iob FdFile) (t : Tape UInt8) :
    Prop where
  serves : c.Serves f
  canRead : c.canRead = true
  reads : c.fd.flags.read = true
  write_zero : f.bufferWriteBytes = 0
  position_le : f.bufferPosition ≤ f.bufferReadBytes
  read_le : f.bufferReadBytes ≤ c.bufferSize
  ahead : f.bufferReadBytes ≤ f.device.dos.position
  buffer_eq : f.buffer.take f.bufferReadBytes
    = window t.cells (f.device.dos.position - f.bufferReadBytes) f.bufferReadBytes
  cells : file = f.device.dos.contents
  length_eq : t.cells.length = file.length
  drop_eq : t.cells.drop f.device.dos.position = file.drop f.device.dos.position
  head : t.head + f.numUnreadBytes = f.device.dos.position

/-- The stream stands for the tape `t`, which is its file. -/
abbrev Reading (c : Session) (f : Iob FdFile) (t : Tape UInt8) : Prop := ReadingFrom c t.cells f t

/-- What `fgets` returns for the line `s` that it read, where `room` characters fit. -/
def Reading.fgetsReply (s : List UInt8) (room : ℕ) : Option (List UInt8) :=
  if s = [] ∧ room ≠ 0 then none else some s

namespace ReadingFrom

open Reading

variable {c : Session} {file : List UInt8} {f : Iob FdFile} {t : Tape UInt8}

section

variable (h : ReadingFrom c file f t)

include h

/-- The bytes that were read ahead are the next ones of the tape. -/
theorem window_buffer {k : ℕ} (hk : k ≤ f.numUnreadBytes) :
    window f.buffer f.bufferPosition k = t.rest.take k := by
  have hle := h.position_le
  have hahead := h.ahead
  have hhead := h.head
  unfold Iob.numUnreadBytes at hk hhead
  have hstart : f.device.dos.position - f.bufferReadBytes + f.bufferPosition = t.head := by omega
  have hbuf : window f.buffer f.bufferPosition k
      = window (f.buffer.take f.bufferReadBytes) f.bufferPosition k :=
    (window_take (by omega)).symm
  rw [hbuf, h.buffer_eq, window_window (by omega), hstart]
  rfl

theorem position_le_length : f.device.dos.position ≤ t.cells.length := by
  rw [h.length_eq, h.cells]
  exact h.serves.steady.position_le

/-- The read action reads from the tape, behind what was read ahead. -/
theorem hookRead (n : ℕ) :
    ∃ d', fdHookRead f.device n
        = (d', { result := (window t.cells f.device.dos.position n).length
                 data := window t.cells f.device.dos.position n }) ∧
      Steady c.fd d' ∧ d'.unixPathSemantics = c.unixPathSemantics ∧ file = d'.dos.contents ∧
      d'.dos.position = f.device.dos.position + (window t.cells f.device.dos.position n).length ∧
      t.cells.drop d'.dos.position = file.drop d'.dos.position ∧
      (c.aligned = true → Aligned d') := by
  have hwindow : window f.device.dos.contents f.device.dos.position n
      = window t.cells f.device.dos.position n := by
    rw [window, window, ← h.cells, h.drop_eq]
  obtain ⟨d', hread, hsteady, hunix, hcont, hpos, haligned⟩ :=
    fdHookRead_of_steady h.serves.steady n
  rw [hwindow] at hread hpos
  refine ⟨d', hread, hsteady, hunix.trans h.serves.unix_eq, h.cells.trans hcont.symm,
    hpos, ?_, fun hc => haligned (h.serves.aligned hc)⟩
  rw [hpos, ← drop_drop, h.drop_eq, drop_drop]

theorem numUnreadBytes_le : f.numUnreadBytes ≤ t.rest.length := by
  have hhead := h.head
  have hlen := h.position_le_length
  rw [Tape.length_rest]
  omega

theorem handOut {k : ℕ} (hk : k ≤ f.numUnreadBytes) :
    ReadingFrom c file { f with bufferPosition := f.bufferPosition + k } (t.advance k) := by
  have hle := h.position_le
  have hlen := h.position_le_length
  have hhead := h.head
  unfold Iob.numUnreadBytes at hk hhead
  refine { h with serves := { h.serves with }, position_le := ?_, head := ?_ }
  · show f.bufferPosition + k ≤ f.bufferReadBytes
    omega
  · show min (t.head + k) t.cells.length + (f.bufferReadBytes - (f.bufferPosition + k))
      = f.device.dos.position
    omega

theorem freadThrough_eq {n : ℕ} (hn : 0 < n) (data : List UInt8) :
    ∃ d' e, freadThrough fdDevice (f, data, n) = ({ f with device := d', eofReached := e },
        some (data ++ window t.cells f.device.dos.position n)) ∧
      Steady c.fd d' ∧ d'.unixPathSemantics = c.unixPathSemantics ∧ file = d'.dos.contents ∧
      d'.dos.position = f.device.dos.position + (window t.cells f.device.dos.position n).length ∧
      t.cells.drop d'.dos.position = file.drop d'.dos.position ∧
      (c.aligned = true → Aligned d') := by
  obtain ⟨d', hread, hfacts⟩ := h.hookRead n
  have hflag : f.device.fd.flags.read = true := by
    rw [h.serves.steady.same.1]
    exact h.reads
  generalize window t.cells f.device.dos.position n = bytes at *
  have hdev : fdDevice.read f.device n = (d', (bytes.length : ℤ), bytes) := by
    show f.device.read n = _
    rw [FdFile.read, if_neg (by simp [hflag]), if_neg (by omega), hread]
  have hok : ¬ ((bytes.length : ℤ) = -1) := by omega
  refine ⟨d', f.eofReached || (bytes.length : ℤ) == 0, ?_, hfacts⟩
  simp only [freadThrough, hdev, if_neg hok]

/-- **Filling** an empty buffer. -/
theorem fill (hempty : f.bufferPosition = f.bufferReadBytes) :
    ∃ f', fillIobReadBuffer fdDevice f = (f', .ok) ∧ ReadingFrom c file f' t ∧
      f'.error = f.error ∧ f'.bufferPosition = 0 ∧
      f'.bufferReadBytes = min c.bufferSize t.rest.length := by
  obtain ⟨d', hread, hsteady, hunix, hcells, hpos, hdrop, haligned⟩ := h.hookRead c.bufferSize
  have hhead : t.head = f.device.dos.position := by
    have := h.head
    unfold Iob.numUnreadBytes at this
    omega
  set data := window t.cells f.device.dos.position c.bufferSize with hdata
  have hlen : data.length = min c.bufferSize t.rest.length := by
    rw [length_window, Tape.length_rest, hhead]
  have hsize := c.size_le
  have hflush : (if f.bufferMode = .line then flushAllFiles fdDevice f .line else (f, .ok))
      = (f, .ok) := by
    simp [flushAllFiles, Iob.writeBufferIsValid, h.write_zero]
  have haction : fdDevice.action f.device (.read f.bufferSize)
      = (d', { result := data.length, data := data }) := by
    rw [h.serves.size_eq]
    exact hread
  have hint : toInt32 (data.length : ℤ) = data.length := toInt32_of_le (by omega) (by omega)
  have hne : ¬ ((data.length : ℤ) = EOF) := by unfold EOF; omega
  unfold fillIobReadBuffer
  simp only [hflush, haction, hint, if_neg hne, Int.toNat_natCast]
  refine ⟨_, rfl, ?_, rfl, rfl, hlen⟩
  have hfit : 0 + data.length ≤ f.buffer.length := by
    rw [h.serves.buffer_eq]
    omega
  exact
    { h with
      serves := { h.serves with
                  buffer_eq := (length_writeAt_of_le hfit).trans h.serves.buffer_eq
                  unix_eq := hunix
                  steady := hsteady
                  aligned := haligned }
      position_le := Nat.zero_le _
      read_le := by dsimp only; omega
      ahead := by dsimp only; omega
      buffer_eq := by
        have htake : (writeAt f.buffer 0 data).take (0 + data.length) = data := by
          rw [take_writeAt (Nat.zero_le _), take_zero, nil_append]
        have hstart : d'.dos.position - data.length = f.device.dos.position := by omega
        rw [Nat.zero_add] at htake
        rw [htake, hstart, window_length_self]
      cells := hcells
      drop_eq := hdrop
      head := by simp only [Iob.numUnreadBytes]; omega }

/-! ### One character -/

theorem take (hlt : f.bufferPosition < f.bufferReadBytes) :
    ∃ b r f', t.rest = b :: r ∧ f.take = (f', (b.toNat : ℤ)) ∧
      ReadingFrom c file f' (t.advance 1) ∧ f'.error = f.error := by
  have hunread : 1 ≤ f.numUnreadBytes := by unfold Iob.numUnreadBytes; omega
  have hwindow := h.window_buffer hunread
  have hplace : f.bufferPosition < f.buffer.length := by
    have := h.read_le
    rw [h.serves.buffer_eq]
    omega
  rw [window, drop_eq_getElem_cons hplace, take_succ_cons] at hwindow
  cases hrest : t.rest with
  | nil => simp [hrest] at hwindow
  | cons b r =>
    rw [hrest, take_succ_cons, List.cons.injEq] at hwindow
    refine ⟨b, r, _, rfl, ?_, h.handOut hunread, rfl⟩
    simp [Iob.take, hplace, hwindow.1]

/-- **One character** is read from the tape, if there is one. -/
theorem getc :
    (t.rest = [] ∧ ∃ f', getc fdDevice f = (f', EOF) ∧ ReadingFrom c file f' t ∧
        f'.error = f.error) ∨
      ∃ b r f', t.rest = b :: r ∧ getc fdDevice f = (f', (b.toNat : ℤ)) ∧
        ReadingFrom c file f' (t.advance 1) ∧ f'.error = f.error := by
  unfold Clib4.getc
  by_cases hlt : f.bufferPosition < f.bufferReadBytes
  · rw [if_pos hlt]
    exact .inr (h.take hlt)
  · have hempty : f.bufferPosition = f.bufferReadBytes := by
      have := h.position_le
      omega
    obtain ⟨f', hfill, hf', herror, hzero, hbytes⟩ := h.fill hempty
    have hisEmpty : f.readBufferIsEmpty = true := by simp [Iob.readBufferIsEmpty, hempty]
    rw [if_neg hlt, fgetcRaw, if_pos hisEmpty, hfill]
    dsimp only
    cases hrest : t.rest with
    | nil =>
      have hnone : f'.bufferReadBytes = 0 := by rw [hbytes, hrest]; simp
      rw [if_pos (by simp [Iob.readBufferIsEmpty, hnone])]
      exact .inl ⟨rfl, _, rfl, { hf' with serves := { hf'.serves with } }, herror⟩
    | cons b r =>
      have hpos := c.size_pos
      have hsome : 0 < f'.bufferReadBytes := by rw [hbytes, hrest, length_cons]; omega
      obtain ⟨b', r', f'', hrest', htake, hf'', herror''⟩ := hf'.take (by omega)
      rw [hrest] at hrest'
      cases hrest'
      rw [if_neg (by simp [Iob.readBufferIsEmpty]; omega)]
      exact .inr ⟨b, r, f'', rfl, htake, hf'', herror''.trans herror⟩

theorem fgetcCheck : fgetcCheck fdDevice f = (f, .ok) := by
  have hcan : f.canRead = true := h.serves.canRead_eq.trans h.canRead
  simp [Clib4.fgetcCheck, h.serves.inUse, hcan, Iob.writeBufferIsValid, h.write_zero]

theorem clearerr : ReadingFrom c file f.clearerr t :=
  { h with serves := { h.serves with } }

end

/-! ### Loops -/

/-- What the loop of `fread` has read: `data`, with `n` bytes to go. -/
structure FreadRead (c : Session) (file : List UInt8) (t : Tape UInt8) (total : ℕ)
    (f : Iob FdFile) (data : List UInt8) (n : ℕ) : Prop where
  reading : ReadingFrom c file f (t.advance data.length)
  start : t.rest.take data.length = data
  total_eq : data.length + n = total

namespace FreadRead

variable {total : ℕ} {data : List UInt8} {n : ℕ} (h : FreadRead c file t total f data n)

include h

theorem window_buffer {k : ℕ} (hk : k ≤ f.numUnreadBytes) :
    window f.buffer f.bufferPosition k = (t.rest.drop data.length).take k ∧
      k ≤ (t.rest.drop data.length).length := by
  rw [← Tape.rest_advance]
  exact ⟨h.reading.window_buffer hk, hk.trans h.reading.numUnreadBytes_le⟩

theorem append {f' : Iob FdFile} {k : ℕ} (hk : k ≤ n)
    (hlen : k ≤ (t.rest.drop data.length).length)
    (hf' : ReadingFrom c file f' ((t.advance data.length).advance k)) :
    FreadRead c file t total f' (data ++ (t.rest.drop data.length).take k) (n - k) := by
  have htot := h.total_eq
  have hlength : (data ++ (t.rest.drop data.length).take k).length = data.length + k := by
    rw [length_append, length_take, Nat.min_eq_left hlen]
  refine ⟨?_, ?_, by omega⟩
  · rw [hlength, ← Tape.advance_advance]
    exact hf'
  · rw [hlength, take_add, h.start]

end FreadRead

/-! ### Lines -/

/-- The part of the line that the loop of `fgets` has read: `s`, with `n` characters to go. -/
structure FgetsRead (c : Session) (file : List UInt8) (t : Tape UInt8) (room : ℕ)
    (f : Iob FdFile) (s : List UInt8) (n : ℕ) : Prop extends FreadRead c file t room f s n where
  error_false : f.error = false
  notMem : (10 : UInt8) ∉ s

namespace FgetsRead

variable {room : ℕ} {s : List UInt8} {n : ℕ} (h : FgetsRead c file t room f s n)

include h

theorem length_le : s.length ≤ t.rest.length := by
  have := congrArg List.length h.start
  rw [length_take] at this
  omega

theorem lineLength_eq :
    Tape.lineLength 10 t.rest room = s.length + Tape.lineLength 10 (t.rest.drop s.length) n := by
  have hroom := h.total_eq
  rw [Tape.lineLength_of_notMem (by omega) h.length_le (by rw [h.start]; exact h.notMem)]
  congr 2
  omega

theorem append {f' : Iob FdFile} {k : ℕ} (hk : k ≤ n) (hlen : k ≤ (t.rest.drop s.length).length)
    (hf' : ReadingFrom c file f' ((t.advance s.length).advance k)) (herror : f'.error = f.error)
    (hnot : (10 : UInt8) ∉ (t.rest.drop s.length).take k) :
    FgetsRead c file t room f' (s ++ (t.rest.drop s.length).take k) (n - k) := by
  refine ⟨h.toFreadRead.append hk hlen hf', herror.trans h.error_false, ?_⟩
  simp only [mem_append, not_or]
  exact ⟨h.notMem, hnot⟩

theorem done {f' : Iob FdFile} {k : ℕ}
    (hline : Tape.lineLength 10 (t.rest.drop s.length) n = k)
    (hf' : ReadingFrom c file f' ((t.advance s.length).advance k)) :
    ReadingFrom c file f' (t.line 10 room).1 ∧
      (t.line 10 room).2 = s ++ (t.rest.drop s.length).take k := by
  have hl := h.lineLength_eq
  rw [hline] at hl
  rw [Tape.line, hl]
  constructor
  · rw [Tape.advance_advance] at hf'
    exact hf'
  · show t.rest.take (s.length + k) = _
    rw [take_add, h.start]

end FgetsRead

/-- The exit of the loop of `fgets`: the line is read. -/
def FgetsDone (c : Session) (file : List UInt8) (t : Tape UInt8) (room : ℕ)
    (r : FgetsExit FdFile) : Prop :=
  ∃ f', r = (f', fgetsReply (t.line 10 room).2 room) ∧ ReadingFrom c file f' (t.line 10 room).1

theorem fgetsReply_of_length_pos {s : List UInt8} (hs : 0 < s.length) (room : ℕ) :
    fgetsReply s room = some s :=
  if_neg fun h => (length_pos_iff.1 hs) h.1

section Fgets

variable {room : ℕ} {s : List UInt8} {n : ℕ} (h : FgetsRead c file t room f s n)

include h

theorem fgetsChar (hn : 0 < n) :
    Loop.Progress (Clib4.fgetsChar fdDevice) (fun a => FgetsRead c file t room a.1 a.2.1 a.2.2)
      (·.2.2) (FgetsDone c file t room) (f, s, n) := by
  have hroom := h.total_eq
  have hrest := Tape.rest_advance t s.length
  unfold Loop.Progress Clib4.fgetsChar
  dsimp only
  rcases h.reading.getc with ⟨hnil, f', hget, hf', herror⟩ | ⟨b, r, f', hcons, hget, hf', herror⟩
  · -- the end of the file
    right
    rw [hget]
    rw [if_pos rfl, herror, h.error_false, if_neg (by simp)]
    obtain ⟨hread, hs⟩ := h.done (k := 0) (by rw [← hrest, hnil]; simp) (by simpa using hf')
    refine ⟨_, rfl, f', ?_, hread⟩
    rw [hs]
    unfold fgetsReply
    by_cases hs : s = []
    · simp [hs]; omega
    · simp [hs]
  · rw [hget]
    dsimp only
    have hne : ¬ ((b.toNat : ℤ) = EOF) := by unfold EOF; omega
    rw [hrest] at hcons
    rw [if_neg hne, toByte_toNat]
    by_cases hlf : b = 10
    · -- the line ends here
      right
      subst hlf
      have hline : Tape.lineLength 10 (t.rest.drop s.length) n = 1 := by
        obtain ⟨m, rfl⟩ : ∃ m, n = m + 1 := ⟨n - 1, by omega⟩
        rw [hcons, Tape.lineLength_cons_self]
      obtain ⟨hread, hs⟩ := h.done hline hf'
      rw [if_pos (by decide)]
      refine ⟨_, rfl, f', ?_, hread⟩
      rw [hs, hcons, fgetsReply_of_length_pos (by simp)]
      rfl
    · left
      have hne10 : ¬ ((b.toNat : ℤ) = 10) := by
        intro h10
        apply hlf
        rw [← UInt8.toNat_inj]
        exact_mod_cast h10
      rw [if_neg hne10]
      have happend := h.append (k := 1) (by omega) (by rw [hcons]; simp) hf' herror
        (by rw [hcons]; simpa using Ne.symm hlf)
      rw [hcons] at happend
      exact ⟨_, rfl, happend, by dsimp only; omega⟩

omit h in
theorem findIdx?_lineFeed {l : List UInt8} {i : ℕ} (h : l.findIdx? (· == 10) = some i) :
    i < l.length ∧ (10 : UInt8) ∉ l.take i ∧ l[i]? = some 10 := by
  obtain ⟨hi, hten, hbefore⟩ := findIdx?_eq_some_iff_getElem.1 h
  refine ⟨hi, ?_, by rw [getElem?_eq_getElem hi, beq_iff_eq.1 hten]⟩
  intro hmem
  obtain ⟨j, hj, hget⟩ := mem_take_iff_getElem.1 hmem
  exact hbefore j (by omega) (by rw [hget]; rfl)

theorem fgetsBody :
    Loop.Progress (Clib4.fgetsBody fdDevice) (fun a => FgetsRead c file t room a.1 a.2.1 a.2.2)
      (·.2.2) (FgetsDone c file t room) (f, s, n) := by
  have hroom := h.total_eq
  unfold Loop.Progress Clib4.fgetsBody
  dsimp only
  by_cases hn : n = 0
  · -- there is no room left
    subst hn
    obtain ⟨hreading, hs⟩ := h.done (Tape.lineLength_zero _) (by simpa using h.reading)
    rw [if_pos rfl]
    refine .inr ⟨_, rfl, f, ?_, hreading⟩
    rw [hs, take_zero, append_nil, fgetsReply, if_neg]
    rintro ⟨rfl, hne⟩
    exact hne (by simpa using hroom.symm)
  rw [if_neg hn]
  by_cases hlt : f.bufferPosition < f.bufferReadBytes
  · -- a chunk of the buffer
    rw [if_pos hlt]
    set k := min (f.bufferReadBytes - f.bufferPosition) n with hk
    have hkle : k ≤ f.numUnreadBytes := Nat.min_le_left _ _
    have hkn : k ≤ n := Nat.min_le_right _ _
    obtain ⟨hwindow, hunread⟩ := h.window_buffer hkle
    have hlen : ((t.rest.drop s.length).take k).length = k := by
      rw [length_take, Nat.min_eq_left hunread]
    rw [hwindow]
    cases hidx : ((t.rest.drop s.length).take k).findIdx? (· == 10) with
    | some i =>
      obtain ⟨hi, hnot, hten⟩ := findIdx?_lineFeed hidx
      rw [hlen] at hi
      rw [take_take, Nat.min_eq_left (by omega)] at hnot
      rw [getElem?_take_of_lt hi] at hten
      have hline := Tape.lineLength_of_mem (by omega : i < n) hnot hten
      obtain ⟨hreading, hs⟩ := h.done hline (h.reading.handOut (by omega))
      refine .inr ⟨_, rfl, _, ?_, hreading⟩
      rw [hs, take_take, Nat.min_eq_left (by omega), fgetsReply_of_length_pos]
      simp only [length_append, length_take]
      omega
    | none =>
      have hnot : (10 : UInt8) ∉ (t.rest.drop s.length).take k := by
        intro hmem
        have := findIdx?_eq_none_iff.1 hidx 10 hmem
        simp at this
      have happend := h.append hkn (by omega) (h.reading.handOut hkle) rfl hnot
      by_cases hall : n - k = 0
      · rw [if_pos hall]
        have hline : Tape.lineLength 10 (t.rest.drop s.length) n = k := by
          rw [Tape.lineLength_of_notMem hkn (by omega) hnot, hall, Tape.lineLength_zero]
          rfl
        obtain ⟨hreading, hs⟩ := h.done hline (h.reading.handOut hkle)
        refine .inr ⟨_, rfl, _, ?_, hreading⟩
        rw [hs, fgetsReply_of_length_pos]
        simp only [length_append]
        omega
      · rw [if_neg hall]
        exact (fgetsChar happend (by omega)).imp_left fun ⟨a, hstep, hread, hlt⟩ =>
          ⟨a, hstep, hread, hlt.trans_le (Nat.sub_le _ _)⟩
  · rw [if_neg hlt]
    exact fgetsChar h (by omega)

end Fgets

/-- **`fgets` reads a line** from the tape. -/
theorem fgets (h : ReadingFrom c file f t) {n : ℤ} (hn : 0 < n) :
    FgetsDone c file t (n - 1).toNat (fgets fdDevice f n) := by
  unfold Clib4.fgets
  rw [if_neg (by omega), h.fgetcCheck]
  refine Loop.getD_run_spec
    (fun a : FgetsState FdFile => FgetsRead c file t (n - 1).toNat a.1 a.2.1 a.2.2)
    (fun a => a.2.2) (FgetsDone c file t (n - 1).toNat) ?_ ((n - 1).toNat + 1)
    (f.clearerr, [], (n - 1).toNat) _ ?_ (Nat.lt_succ_self _)
  · exact fun _ => fgetsBody
  · exact ⟨⟨by simpa using h.clearerr, rfl, by simp⟩, rfl, by simp⟩

/-! ### A number of bytes -/

/-- The exit of the loop of `fread`: the bytes are read. -/
def FreadDone (c : Session) (file : List UInt8) (t : Tape UInt8) (total : ℕ)
    (r : FreadExit FdFile) : Prop :=
  ∃ f', r = (f', some (t.read total).2) ∧ ReadingFrom c file f' (t.read total).1

section Fread

variable {total : ℕ} {data : List UInt8} {n : ℕ} (h : FreadRead c file t total f data n)

include h

/-- All the bytes that are still to be read, or all that there are. -/
theorem FreadRead.done {f' : Iob FdFile}
    (hf' : ReadingFrom c file f' ((t.advance data.length).advance n)) :
    FreadDone c file t total (f', some (data ++ (t.rest.drop data.length).take n)) := by
  refine ⟨f', ?_, ?_⟩
  · rw [Tape.read, ← h.total_eq, take_add, h.start]
  · rw [Tape.read, ← h.total_eq, ← Tape.advance_advance]
    exact hf'

/-- **Going past the buffer**, when it is empty, reads. -/
theorem freadThrough (hempty : f.bufferReadBytes = 0) (hn : 0 < n) :
    FreadDone c file t total (freadThrough fdDevice (f, data, n)) := by
  have hread := h.reading
  have hhead : (t.advance data.length).head = f.device.dos.position := by
    have := hread.head
    rw [Iob.numUnreadBytes] at this
    omega
  obtain ⟨d', e, hthrough, hsteady, hunix, hcells, hpos, hdrop, haligned⟩ :=
    hread.freadThrough_eq hn data
  have hbytes : window (t.advance data.length).cells f.device.dos.position n
      = (t.rest.drop data.length).take n := by
    rw [← Tape.rest_advance, Tape.rest, hhead]
    rfl
  rw [hbytes] at hthrough hpos
  rw [hthrough]
  refine h.done ?_
  have hlen : ((t.rest.drop data.length).take n).length
      = min n ((t.advance data.length).cells.length - (t.advance data.length).head) := by
    rw [← Tape.rest_advance, length_take, Tape.length_rest]
  have hle := (t.advance data.length).head_le
  exact
    { hread with
      serves := { hread.serves with
                  unix_eq := hunix
                  steady := hsteady
                  aligned := haligned }
      ahead := by rw [hempty]; exact Nat.zero_le _
      buffer_eq := by simp [hempty, window]
      cells := hcells
      drop_eq := hdrop
      head := by
        show min ((t.advance data.length).head + n) (t.advance data.length).cells.length
          + (f.bufferReadBytes - f.bufferPosition) = d'.dos.position
        omega }

theorem freadChar (hn : 0 < n) :
    Loop.Progress (Clib4.freadChar fdDevice) (fun a => FreadRead c file t total a.1 a.2.1 a.2.2)
      (·.2.2) (FreadDone c file t total) (f, data, n) := by
  have hrest := Tape.rest_advance t data.length
  unfold Loop.Progress Clib4.freadChar
  dsimp only
  rcases h.reading.getc with ⟨hnil, f', hget, hf', -⟩ | ⟨b, r, f', hcons, hget, hf', -⟩
  · -- the end of the file
    right
    rw [hget]
    rw [if_pos rfl]
    have hstay : (t.advance data.length).advance n = t.advance data.length := by
      rw [← Tape.advance_min, hnil]
      simp
    have hdone := h.done (hstay.symm ▸ hf')
    rw [← hrest, hnil, take_nil, append_nil] at hdone
    exact ⟨_, rfl, hdone⟩
  · left
    have hne : ¬ ((b.toNat : ℤ) = EOF) := by unfold EOF; omega
    rw [hget]
    rw [if_neg hne, toByte_toNat]
    rw [hrest] at hcons
    have happend := h.append (k := 1) (by omega) (by rw [hcons]; simp) hf'
    rw [hcons] at happend
    exact ⟨_, rfl, happend, by dsimp only; omega⟩

theorem freadBody :
    Loop.Progress (Clib4.freadBody fdDevice) (fun a => FreadRead c file t total a.1 a.2.1 a.2.2)
      (·.2.2) (FreadDone c file t total) (f, data, n) := by
  unfold Loop.Progress Clib4.freadBody
  dsimp only
  by_cases hn : n = 0
  · subst hn
    rw [if_pos rfl]
    have hdone := h.done (by simpa using h.reading)
    rw [take_zero, append_nil] at hdone
    exact .inr ⟨_, rfl, hdone⟩
  rw [if_neg hn]
  by_cases hbypass : f.bufferReadBytes = 0 ∧ f.bufferSize ≤ n
  · rw [if_pos hbypass]
    exact .inr ⟨_, rfl, freadThrough h hbypass.1 (by omega)⟩
  rw [if_neg hbypass]
  by_cases hlt : f.bufferPosition < f.bufferReadBytes
  · rw [if_pos hlt]
    set k := min (f.bufferReadBytes - f.bufferPosition) n with hk
    have hkle : k ≤ f.numUnreadBytes := Nat.min_le_left _ _
    have hkn : k ≤ n := Nat.min_le_right _ _
    obtain ⟨hwindow, hunread⟩ := h.window_buffer hkle
    rw [hwindow]
    by_cases hall : n - k = 0
    · have hnk : k = n := by omega
      rw [if_pos hall]
      have hdone := h.done (h.reading.handOut (k := n) (by omega))
      rw [← hnk] at hdone
      exact .inr ⟨_, rfl, hdone⟩
    · rw [if_neg hall]
      have happend := h.append hkn (by omega) (h.reading.handOut hkle)
      exact (freadChar happend (by omega)).imp_left fun ⟨a, hstep, hread, hlt⟩ =>
        ⟨a, hstep, hread, hlt.trans_le (Nat.sub_le _ _)⟩
  · rw [if_neg hlt]
    exact freadChar h (by omega)

end Fread

/-- **`fread` reads its bytes** from the tape; in the unbuffered mode, if nothing was read
ahead. -/
theorem freadBytes (h : ReadingFrom c file f t) {total : ℕ} (htot : 0 < total)
    (hnone : c.mode = .none → f.bufferReadBytes = 0) :
    FreadDone c file t total (freadBytes fdDevice f total) := by
  have hstart : FreadRead c file t total f [] total :=
    ⟨by simpa using h, rfl, by simp⟩
  unfold Clib4.freadBytes
  by_cases hmode : f.bufferMode = .none
  · rw [if_pos hmode]
    exact freadThrough hstart (hnone (h.serves.mode_eq.symm.trans hmode)) htot
  · rw [if_neg hmode]
    exact Loop.getD_run_spec
      (fun a : FreadState FdFile => FreadRead c file t total a.1 a.2.1 a.2.2) (fun a => a.2.2)
      (FreadDone c file t total) (fun _ => freadBody) (total + 1) (f, [], total) _ hstart
      (Nat.lt_succ_self _)

end ReadingFrom

end Clib4
