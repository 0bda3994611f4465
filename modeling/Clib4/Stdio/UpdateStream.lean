import Clib4.Stdio.StreamCalls

/-!
# Streams for reading and writing

A stream that is open for both directions shares one buffer between them.  `fputc` and `fputs`
give up what was read ahead before they write, and the reading functions write out what waits in
the buffer; `fwrite` does neither.  So a run behaves like one on a file without buffers as long as
no `fwrite` starts while there is a read buffer; the remaining conditions keep the run away from a
full buffer, from reading past the read buffer of an unbuffered stream, and from positions that
`long` and `off_t` do not hold.

## Main definitions

* `StreamCall.Alternates` — reads and writes are separated as the standard demands.
* `Updating c f t` — the stream `f` stands for the tape `t`.

## Main results

* `update_stream_refines` — **an update stream behaves like a file without buffers.**
-/

namespace Clib4

open DosFile (SeekMode)
open Splice StreamCall

namespace StreamCall

/-- The number of bytes by which a call can make the file longer. -/
def growth : StreamCall → ℕ
  | fputc _ => 1
  | fputs s => s.length
  | fwrite a => a.bytes.length
  | fseek _ _ => longMax
  | _ => 0

/-- The condition that is particular to a call. -/
def Keeps (f : Iob FdFile) : StreamCall → Prop
  | fread r => f.bufferMode = .none → 0 < r.elementSize * r.count → f.bufferReadBytes = 0
  | fwrite a =>
    a.bytes ≠ [] →
      f.bufferReadBytes = 0 ∧ (f.bufferMode = .full → f.bufferWriteBytes ≠ f.bufferSize)
  | fseek offset mode => SeekSafe f f.logicalPosition offset mode
  | ftell => f.logicalPosition ≤ longMax
  | _ => True

/-- The condition on a call: no `fwrite` while there is a read buffer, or while the write buffer
of a fully buffered stream is full; no `fread` past the read buffer of an unbuffered stream; and
positions that fit. -/
def KeepsStream (f : Iob FdFile) (call : StreamCall) : Prop :=
  call.Keeps f ∧ f.device.dos.size + f.bufferWriteBytes + call.growth < 2 ^ 63

/-- What was done since the position was last set. -/
inductive Phase
  | neutral | reading | writing
  deriving DecidableEq

/-- A read is not followed by a write without an `fseek` between them, nor a write by a read
without an `fseek` or `fflush`. -/
def Alternates : Phase → List StreamCall → Prop
  | _, [] => True
  | phase, fgetc :: calls | phase, fgets _ :: calls | phase, fread _ :: calls =>
    phase ≠ .writing ∧ Alternates .reading calls
  | phase, fputc _ :: calls | phase, fputs _ :: calls | phase, fwrite _ :: calls =>
    phase ≠ .reading ∧ Alternates .writing calls
  | _, fseek _ _ :: calls => Alternates .neutral calls
  | phase, ftell :: calls => Alternates phase calls
  | phase, fflush :: calls => Alternates (if phase = .writing then .neutral else phase) calls

end StreamCall

/-- The stream stands for the tape, whichever way its buffer is used. -/
structure Updating (c : Session) (f : Iob FdFile) (t : Tape UInt8) : Prop where
  state : Reading c f t ∨ Writing c f t
  unbuffered : c.mode = .none → f.bufferWriteBytes = 0
  size_lt : t.cells.length < 2 ^ 63

namespace Updating

variable {c : Session} {f : Iob FdFile} {t : Tape UInt8}

theorem serves (h : Updating c f t) : c.Serves f := by
  rcases h.state with hf | hf
  · exact hf.serves
  · exact hf.serves

theorem ofReading (hf : Reading c f t) (hsize : t.cells.length < 2 ^ 63) : Updating c f t :=
  ⟨.inl hf, fun _ => hf.write_zero, hsize⟩

theorem ofReadingFrom {t' : Tape UInt8} (hf : ReadingFrom c t.cells f t')
    (hcells : t'.cells = t.cells) (hsize : t.cells.length < 2 ^ 63) : Updating c f t' := by
  rw [← hcells] at hf hsize
  exact ofReading hf hsize

section

variable (h : Updating c f t)

include h

theorem logicalPosition_eq (hc : c.Update) : f.logicalPosition = t.head := by
  unfold Iob.logicalPosition
  rcases h.state with hf | hf
  · have := hf.head
    rw [hf.write_zero]
    omega
  · have := hf.head
    rw [writePosition_of_notAppend hf.serves hc.notAppend] at this
    rw [Iob.numUnreadBytes, hf.read_zero]
    omega

/-- The tape is no longer than the file and the bytes that wait to be written. -/
theorem length_cells_le :
    t.cells.length ≤ f.device.dos.size + f.bufferWriteBytes := by
  rcases h.state with hf | hf
  · rw [hf.cells, hf.write_zero]
    exact le_rfl
  · have hle := hf.serves.steady.writePosition_le
    rw [hf.cells, length_writeAt hle, hf.length_pending]
    unfold DosFile.size at *
    omega

theorem read_zero_or_write_zero :
    f.bufferReadBytes = 0 ∨ f.bufferWriteBytes = 0 := by
  rcases h.state with hf | hf
  · exact .inr hf.write_zero
  · exact .inl hf.read_zero

/-! ### Turning around -/

theorem fgetcCheck (hc : c.Update) :
    ∃ f', fgetcCheck fdDevice f = (f', .ok) ∧ Reading c f' t ∧
      (f.bufferReadBytes = 0 → f'.bufferReadBytes = 0) := by
  rcases h.state with hf | hf
  · exact ⟨f, hf.fgetcCheck, hf, id⟩
  · have hcan : f.canRead = true := hf.serves.canRead_eq.trans hc.canRead
    unfold Clib4.fgetcCheck
    rw [if_neg (by simp [hf.serves.inUse]), if_neg (by simp [hcan])]
    by_cases hzero : f.bufferWriteBytes = 0
    · rw [if_neg (by simp [Iob.writeBufferIsValid, hzero])]
      exact ⟨f, rfl, hf.toReading hc hzero, id⟩
    · obtain ⟨f', hflush, hf', hzero'⟩ := hf.flush
      rw [if_pos (by simp [Iob.writeBufferIsValid]; omega), hflush]
      exact ⟨f', rfl, hf'.toReading hc hzero', fun _ => hf'.read_zero⟩

/-- Before `fputc` and `fputs` write, what was read ahead is given up. -/
theorem fputcCheck (hc : c.Update) :
    ∃ f', fputcCheck fdDevice f = (f', .ok) ∧ Writing c f' t ∧
      (c.mode = .none → f'.bufferWriteBytes = 0) := by
  rcases h.state with hf | hf
  · have hcan : f.canWrite = true := hf.serves.canWrite_eq.trans hc.canWrite
    unfold Clib4.fputcCheck
    rw [if_neg (by simp [hf.serves.inUse]), if_neg (by simp [hcan])]
    by_cases hzero : f.bufferReadBytes = 0
    · rw [if_neg (by simp [Iob.readBufferIsValid, hzero])]
      exact ⟨f, rfl, hf.toWriting hc hzero, fun _ => hf.write_zero⟩
    · obtain ⟨f', hdrop, hf', hzero'⟩ := hf.drop hc.aligned h.size_lt
      rw [if_pos (by simp [Iob.readBufferIsValid]; omega), hdrop]
      exact ⟨f', rfl, hf'.toWriting hc hzero', fun _ => hf'.write_zero⟩
  · exact ⟨f, hf.fputcCheck, hf, h.unbuffered⟩

/-! ### One call -/

/-- What a call achieves: it does to the tape what the reference does. -/
def Refines (c : Session) (f : Iob FdFile) (t : Tape UInt8) (call : StreamCall) : Prop :=
  ∃ f', step f call = .ok (f', (call.reference c.grows t).2) ∧
    Updating c f' (call.reference c.grows t).1

theorem fgetc (hc : c.Update) : Refines c f t .fgetc := by
  obtain ⟨f₁, hcheck, hf₁, -⟩ := h.fgetcCheck hc
  obtain ⟨f', hstep, hf'⟩ := hf₁.fgetc c.grows
  have hsame : Clib4.fgetc fdDevice f = Clib4.fgetc fdDevice f₁ := by
    unfold Clib4.fgetc
    rw [hcheck, hf₁.fgetcCheck]
  refine ⟨f', ?_, ofReadingFrom hf' ?_ h.size_lt⟩
  · rw [← hstep, step, hsame]
    rfl
  · dsimp only [reference]
    split <;> rfl

theorem fgets (hc : c.Update) (n : ℤ) : Refines c f t (.fgets n) := by
  by_cases hn : n ≤ 0
  · refine ⟨f, ?_, ?_⟩
    · simp [step, Clib4.fgets, reference, hn]
    · simpa [reference, hn] using h
  · obtain ⟨f₁, hcheck, hf₁, -⟩ := h.fgetcCheck hc
    obtain ⟨f', hstep, hf'⟩ := hf₁.fgets_step c.grows n
    have hsame : Clib4.fgets fdDevice f n = Clib4.fgets fdDevice f₁ n := by
      unfold Clib4.fgets
      rw [if_neg hn, if_neg hn, hcheck, hf₁.fgetcCheck]
    refine ⟨f', ?_, ofReadingFrom hf' ?_ h.size_lt⟩
    · rw [← hstep, step, hsame]
      rfl
    · dsimp only [reference]
      split <;> rfl

theorem clearerr : Updating c f.clearerr t := by
  refine ⟨?_, h.unbuffered, h.size_lt⟩
  rcases h.state with hf | hf
  · exact .inl hf.clearerr
  · exact .inr { hf with serves := { hf.serves with } }

theorem fread (hc : c.Update) (r : ElementRequest)
    (hkeeps : Keeps f (.fread r)) : Refines c f t (.fread r) := by
  have hcan : f.canRead = true := h.serves.canRead_eq.trans hc.canRead
  have hsize := h.size_lt
  unfold Refines
  dsimp only [step, reference]
  unfold Clib4.fread
  rw [if_neg (by simp [h.serves.inUse, hcan])]
  by_cases hpos : 0 < r.elementSize ∧ 0 < r.count
  · have htot : 0 < r.elementSize * r.count := Nat.mul_pos hpos.1 hpos.2
    obtain ⟨f₁, hcheck, hf₁, hread⟩ := h.clearerr.fgetcCheck hc
    have hnone : c.mode = .none → f₁.bufferReadBytes = 0 :=
      fun hm => hread (hkeeps (h.serves.mode_eq.trans hm) htot)
    obtain ⟨f', hbytes, hf'⟩ := hf₁.freadBytes htot hnone
    rw [if_pos hpos, if_pos hpos, hcheck]
    dsimp only
    rw [if_neg (not_sizeMax_lt r.size_le), hbytes]
    exact ⟨f', rfl, ofReading hf' hsize⟩
  · rw [if_neg hpos, if_neg hpos]
    exact ⟨_, rfl, h.clearerr⟩

theorem ofWriting {bs : List UInt8} {f' : Iob FdFile}
    (hf' : Writing c f' (t.write bs)) (hnone : c.mode = .none → f'.bufferWriteBytes = 0)
    (hsize : f.device.dos.size + f.bufferWriteBytes + bs.length < 2 ^ 63) :
    Updating c f' (t.write bs) := by
  have hle := h.length_cells_le
  have hhead := t.head_le
  refine ⟨.inr hf', hnone, ?_⟩
  rw [Tape.cells_write, length_writeAt t.head_le]
  omega

end

section

variable (h : Updating c f t)

include h

theorem fputc (hc : c.Update) (ch : ℤ)
    (hsize : f.device.dos.size + f.bufferWriteBytes + 1 < 2 ^ 63) :
    Refines c f t (.fputc ch) := by
  obtain ⟨f₁, hcheck, hf₁, -⟩ := h.fputcCheck hc
  obtain ⟨f', hput, hf', hnone⟩ := hf₁.fputc ch
  have hsame : Clib4.fputc fdDevice f ch = Clib4.fputc fdDevice f₁ ch := by
    unfold Clib4.fputc
    rw [hcheck, hf₁.fputcCheck]
  refine ⟨f', ?_, h.ofWriting hf' hnone hsize⟩
  rw [step, hsame, hput]
  rfl

theorem fputs (hc : c.Update) (s : List UInt8)
    (hsize : f.device.dos.size + f.bufferWriteBytes + s.length < 2 ^ 63) :
    Refines c f t (.fputs s) := by
  obtain ⟨f₁, hcheck, hf₁, hnone₁⟩ := h.fputcCheck hc
  obtain ⟨f', hput, hf', hnone⟩ := hf₁.fputs hnone₁ s
  have hsame : Clib4.fputs fdDevice f s = Clib4.fputs fdDevice f₁ s := by
    unfold Clib4.fputs
    rw [hcheck, hf₁.fputcCheck]
  refine ⟨f', ?_, h.ofWriting hf' hnone hsize⟩
  rw [step, hsame, hput]
  rfl

theorem fwrite_of_empty (hc : c.Update) {a : ElementArray} (hnil : a.bytes = []) :
    Clib4.fwrite fdDevice f a.bytes a.elementSize a.count = .ok (f, a.written) := by
  have hcan : f.canWrite = true := h.serves.canWrite_eq.trans hc.canWrite
  have hlen := a.length_eq
  rw [hnil] at hlen
  have hzero : a.elementSize = 0 ∨ a.count = 0 := Nat.mul_eq_zero.1 hlen.symm
  have hwritten : a.written = 0 := by
    unfold ElementArray.written
    split <;> omega
  rw [Clib4.fwrite, if_neg (by simp [h.serves.inUse, hcan]), if_neg (by omega), hwritten]

theorem fwrite (hc : c.Update) (a : ElementArray) (hkeeps : Keeps f (.fwrite a))
    (hsize : f.device.dos.size + f.bufferWriteBytes + a.bytes.length < 2 ^ 63) :
    Refines c f t (.fwrite a) := by
  unfold Refines
  dsimp only [step, reference]
  by_cases hnil : a.bytes = []
  · rw [h.fwrite_of_empty hc hnil, hnil, Tape.write_nil]
    exact ⟨f, rfl, h⟩
  · obtain ⟨hread, hfull⟩ := hkeeps hnil
    have hwriting : Writing c f t := by
      rcases h.state with hf | hf
      · exact hf.toWriting hc hread
      · exact hf
    have hroom : c.mode = .full → a.bytes ≠ [] → Writing.HasRoom c f := by
      intro hm _
      have hne := hfull (h.serves.mode_eq.trans hm)
      have hle := hwriting.write_le
      rw [h.serves.size_eq] at hne
      unfold Writing.HasRoom
      omega
    obtain ⟨f', hwrite, hf', hnone⟩ := hwriting.fwrite a hroom h.unbuffered
    rw [hwrite]
    exact ⟨f', rfl, h.ofWriting hf' hnone hsize⟩

theorem fseek (hc : c.Update) (offset : Long) (mode : SeekMode)
    (hkeeps : Keeps f (.fseek offset mode))
    (hsize : f.device.dos.size + f.bufferWriteBytes + longMax < 2 ^ 63) :
    Refines c f t (.fseek offset mode) := by
  have hle := h.length_cells_le
  have hhead := t.head_le
  have hoff := offset.2
  have htarget : seekTarget t offset mode ≤ t.cells.length + longMax := by
    cases mode <;> simp only [seekTarget] <;> omega
  have hlen : (seekTo c.grows t (seekTarget t offset mode)).1.cells.length < 2 ^ 63 := by
    have hlt := h.size_lt
    unfold seekTo
    split
    · exact hlt
    split
    · simp only [Tape.padTo, List.length_append, List.length_replicate]
      omega
    · exact hlt
  rcases h.state with hf | hf
  · have hsafe : SeekSafe f t.head offset mode := by
      rw [← h.logicalPosition_eq hc]
      exact hkeeps
    obtain ⟨f', hstep, hf'⟩ := hf.fseek_step hc.aligned _ _ h.size_lt (by omega) hsafe
    exact ⟨f', hstep, ofReading hf' hlen⟩
  · obtain ⟨f', hseek, hf'⟩ := hf.fseek hc hoff (by omega : seekTarget t offset mode < 2 ^ 63)
    refine ⟨f', ?_, ?_⟩
    · dsimp only [step]
      rw [hseek]
      rfl
    · rcases hf' with ⟨hwriting, hbytes⟩ | hread
      · exact ⟨.inr hwriting, fun hm => by rw [hbytes]; exact h.unbuffered hm, hlen⟩
      · exact ofReading hread hlen

theorem ftell_eq (hc : c.Update) : Clib4.ftell fdDevice f = (f, toInt32 t.head) := by
  rcases h.state with hf | hf
  · exact hf.ftell hc.aligned h.size_lt
  · exact hf.ftell hc h.size_lt

theorem ftell (hc : c.Update) (hkeeps : Keeps f .ftell) : Refines c f t .ftell := by
  have hhead : (t.head : ℤ) ≤ longMax := by
    rw [← h.logicalPosition_eq hc]
    exact hkeeps
  refine ⟨f, ?_, h⟩
  rw [step, h.ftell_eq hc, toInt32_of_le (by omega) hhead]
  rfl

theorem fflush_eq : ∃ f', Clib4.fflush fdDevice f = (f', 0) ∧ Updating c f' t ∧
      t.cells = f'.device.dos.contents := by
  rcases h.state with hf | hf
  · have hvalid : ¬ f.writeBufferIsValid = true := by simp [Iob.writeBufferIsValid, hf.write_zero]
    exact ⟨f, by rw [Clib4.fflush, if_neg hvalid], h, hf.cells⟩
  · obtain ⟨f', hflush, hf', hzero⟩ := hf.fflush
    exact ⟨f', hflush, ⟨.inr hf', fun _ => hzero, h.size_lt⟩, hf'.cells_of_empty hzero⟩

theorem fflush : Refines c f t .fflush := by
  obtain ⟨f', hflush, hf', -⟩ := h.fflush_eq
  refine ⟨f', ?_, hf'⟩
  rw [step, hflush]
  rfl

end

/-- **One call** does to the tape what the reference does. -/
theorem step (hc : c.Update) (f : Iob FdFile) (t : Tape UInt8) (call : StreamCall)
    (h : Updating c f t) (hcall : call.KeepsStream f) : Refines c f t call := by
  obtain ⟨hkeeps, hsize⟩ := hcall
  cases call with
  | fgetc => exact h.fgetc hc
  | fgets n => exact h.fgets hc n
  | fread r => exact h.fread hc r hkeeps
  | fputc ch => exact h.fputc hc ch hsize
  | fputs s => exact h.fputs hc s hsize
  | fwrite a => exact h.fwrite hc a hkeeps hsize
  | fseek offset mode => exact h.fseek hc offset mode hkeeps hsize
  | ftell => exact h.ftell hc hkeeps
  | fflush => exact h.fflush

end Updating

/-! ### Runs -/

/-- A stream that has just been opened for reading and writing, in any mode and not to append. -/
structure OpenForUpdate (f : Iob FdFile) : Prop where
  opened : Opened f
  canRead : f.canRead = true
  canWrite : f.canWrite = true
  reads : f.device.fd.flags.read = true
  writes : f.device.fd.flags.write = true
  notAppend : f.device.fd.flags.append = false
  aligned : Aligned f.device
  size_lt : f.device.dos.size < 2 ^ 63

/-- Whether the file of a stream grows when one moves behind its end. -/
def Iob.fileGrows (f : Iob FdFile) : Bool :=
  f.device.unixPathSemantics && f.device.fd.flags.write

/-- **An update stream behaves like a file without buffers**, in every run whose calls meet the
condition: each call returns what it returns on that file, `ftell` tells its position, `fflush`
leaves its bytes in the file, and the buffer never holds bytes of both kinds. -/
theorem update_stream_refines {f : Iob FdFile} (h : OpenForUpdate f) (calls : List StreamCall)
    (hcalls : Machine.Along step KeepsStream f calls) :
    ∀ done, done <+: calls →
      ∃ f', Machine.exec step f done
          = .ok (f', (Machine.trace (reference f.fileGrows) h.opened.tape done).2) ∧
        (f'.bufferReadBytes = 0 ∨ f'.bufferWriteBytes = 0) ∧
        (ftell fdDevice f').2
          = toInt32 (Machine.trace (reference f.fileGrows) h.opened.tape done).1.head ∧
        (fflush fdDevice f').1.device.dos.contents
          = (Machine.trace (reference f.fileGrows) h.opened.tape done).1.cells := by
  rintro done ⟨rest, rfl⟩
  have hc : (h.opened.session true).Update :=
    ⟨rfl, h.canRead, h.canWrite, h.reads, h.writes, h.notAppend⟩
  have hstart : Updating (h.opened.session true) f h.opened.tape :=
    .ofReading (h.opened.reading h.canRead h.reads h.aligned) h.size_lt
  have hstep := Updating.step hc
  have hgrows : (h.opened.session true).grows = f.fileGrows := rfl
  unfold Updating.Refines at hstep
  rw [hgrows] at hstep
  obtain ⟨f', hexec, hf'⟩ := Machine.exec_simulates hstep done hstart
    (Machine.along_of_append hcalls)
  obtain ⟨f'', hflush, -, hcells⟩ := hf'.fflush_eq
  refine ⟨f', hexec, hf'.read_zero_or_write_zero, ?_, ?_⟩
  · rw [hf'.ftell_eq hc]
  · rw [hflush]
    exact hcells.symm

/-- A stream with a buffer of four bytes that has just been opened for reading and writing, on a
file that has the bytes `abcd`. -/
def updateStream : Iob FdFile where
  canRead := true
  canWrite := true
  buffer := [0, 0, 0, 0]
  bufferSize := 4
  device :=
    { fd := { file := 1, flags := { read := true, write := true, inUse := true
                                    cachePosition := true } }
      dos := { contents := [97, 98, 99, 100], position := 0 } }

theorem updateStream_open : OpenForUpdate updateStream :=
  { opened :=
      { inUse := rfl, size_pos := by decide, size_le := by decide, buffer_eq := rfl
        position_zero := rfl, read_zero := rfl, write_zero := rfl
        regular := ⟨by decide, rfl, rfl, rfl, rfl⟩, answers_nil := rfl
        position_le := Nat.zero_le _ }
    canRead := rfl, canWrite := rfl, reads := rfl, writes := rfl, notAppend := rfl
    aligned := rfl, size_lt := by simp [updateStream, DosFile.size] }

/-- A character is read, `fputc` overwrites the next one, and the one behind it is read. -/
theorem update_stream_refines_fputc :
    ∃ f', Machine.exec step updateStream
        [.fgetc, .fseek ⟨0, by decide⟩ .cur, .fputc 88, .fflush, .fgetc]
      = .ok (f', [.int 97, .int 0, .int 88, .int 0, .int 99]) ∧
        (fflush fdDevice f').1.device.dos.contents = [97, 88, 99, 100] := by
  obtain ⟨f', hexec, -, -, hcontents⟩ := update_stream_refines updateStream_open
    [.fgetc, .fseek ⟨0, by decide⟩ .cur, .fputc 88, .fflush, .fgetc]
    ⟨⟨trivial, by decide +kernel⟩, ⟨fun _ => ⟨nofun, fun _ => by decide⟩, by decide +kernel⟩,
      ⟨trivial, by decide +kernel⟩, ⟨trivial, by decide +kernel⟩, ⟨trivial, by decide +kernel⟩,
      trivial⟩ _ (List.prefix_refl _)
  exact ⟨f', hexec, hcontents⟩

/-- A character is read, an `fseek` that goes nowhere separates it from the write as the standard
demands, and `fwrite` stores its byte.  It belongs at position 1; it is stored behind what was
read ahead, at position 4. -/
theorem updateStream_fwrite :
    Alternates .neutral
        [.fgetc, .fseek ⟨0, by decide⟩ .cur, .fwrite ⟨[88], 1, 1, rfl, by decide⟩, .fflush] ∧
      (∃ f', Machine.exec step updateStream
          [.fgetc, .fseek ⟨0, by decide⟩ .cur, .fwrite ⟨[88], 1, 1, rfl, by decide⟩, .fflush]
          = .ok (f', [.int 97, .int 0, .int 1, .int 0]) ∧
        f'.device.dos.contents = [97, 98, 99, 100, 88]) ∧
      (Machine.trace (reference updateStream.fileGrows) updateStream_open.opened.tape
          [.fgetc, .fseek ⟨0, by decide⟩ .cur, .fwrite ⟨[88], 1, 1, rfl, by decide⟩,
            .fflush]).1.cells = [97, 88, 99, 100] :=
  ⟨⟨nofun, nofun, trivial⟩, ⟨_, rfl, rfl⟩, rfl⟩

end Clib4
