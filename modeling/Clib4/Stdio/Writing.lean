import Clib4.Base.Tape
import Clib4.Stdio.Output
import Clib4.Stdio.Session

/-!
# A stream that is written to

The file that a stream stands for while it is written to: the bytes of the file, with those
that wait in the buffer laid over them, and the position behind these.  Every function that
writes has one lemma, which says that it writes to that file, whatever the fill level of the
buffer and whichever way past or through the buffer it takes.

## Main definitions

* `Writing c f t` — the stream `f` is being written to and stands for the tape `t`.

## Main results

* `Writing.fputcRaw`, `Writing.fputsInMode`, `Writing.fwriteInMode` — **one character, a string
  and an array are written to the tape.**
-/

namespace Clib4

open Splice List

/-- The stream stands for the tape `t`, and its buffer, if not empty, holds bytes that wait to
be written. -/
structure Writing (c : Session) (f : Iob FdFile) (t : Tape UInt8) : Prop where
  serves : c.Serves f
  canWrite : c.canWrite = true
  writes : c.fd.flags.write = true
  write_le : f.bufferWriteBytes ≤ c.bufferSize
  read_zero : f.bufferReadBytes = 0
  position_zero : f.bufferPosition = 0
  cells : t.cells = writeAt f.device.dos.contents f.device.writePosition f.pending
  head : t.head = f.device.writePosition + f.bufferWriteBytes

namespace Writing

variable {c : Session} {f : Iob FdFile} {t : Tape UInt8}

section

variable (h : Writing c f t)

include h

theorem length_pending : f.pending.length = f.bufferWriteBytes := by
  rw [Iob.pending, length_take, h.serves.buffer_eq, Nat.min_eq_left h.write_le]

theorem cells_of_empty (hw : f.bufferWriteBytes = 0) : t.cells = f.device.dos.contents := by
  rw [h.cells, Iob.pending, hw, take_zero, writeAt_nil]

/-- **Flushing** changes where the bytes are, not what the stream stands for. -/
theorem flush : ∃ f', flushIobWriteBuffer fdDevice f = (f', .ok) ∧ Writing c f' t ∧
      f'.bufferWriteBytes = 0 := by
  rcases Nat.eq_zero_or_pos f.bufferWriteBytes with hw | hw
  · refine ⟨f, ?_, h, hw⟩
    rw [flushIobWriteBuffer, if_neg (by simp [hw])]
  · obtain ⟨d', hwrite, hsteady, hunix, hcont, hpos, haligned⟩ :=
      fdHookWrite_of_steady h.serves.steady f.pending
    rw [flush_of_result h.serves.inUse hw hwrite]
    refine ⟨_, rfl, ?_, rfl⟩
    exact
      { h with
        serves := { h.serves with
                    unix_eq := hunix.trans h.serves.unix_eq
                    steady := hsteady
                    aligned := fun hc => haligned (h.serves.aligned hc) }
        write_le := Nat.zero_le _
        cells := by rw [h.cells]; simp [Iob.pending, hcont]
        head := by rw [h.head, hpos, h.length_pending]; rfl }

/-- **Storing** bytes that fit into the buffer writes them. -/
theorem store {bs : List UInt8} (hfit : f.bufferWriteBytes + bs.length ≤ c.bufferSize) :
    Writing c (f.store bs) (t.write bs) := by
  have hlen := h.length_pending
  have hbuffer := h.serves.buffer_eq
  refine { h with
           serves := { h.serves with buffer_eq := ?_ }
           write_le := hfit
           cells := ?_
           head := ?_ }
  · exact (length_writeAt_of_le (by omega)).trans hbuffer
  · have hpend : (f.store bs).pending = f.pending ++ bs := take_writeAt (by omega) bs
    rw [hpend, Tape.cells_write, h.cells, h.head, ← hlen]
    exact writeAt_writeAt h.serves.steady.writePosition_le _ _
  · rw [Tape.head_write, h.head, Nat.add_assoc]
    rfl

/-- **Going past the buffer**, when it is empty, writes. -/
theorem writeThrough (hw : f.bufferWriteBytes = 0) (data : List UInt8) :
    ∃ d', fdDevice.write f.device data = (d', (data.length : ℤ)) ∧
      Writing c { f with device := d' } (t.write data) := by
  have hflag : f.device.fd.flags.write = true := by rw [h.serves.steady.same.1]; exact h.writes
  have hwrite : fdDevice.write f.device data = f.device.write data := rfl
  rw [hwrite, FdFile.write, if_neg (by simp [hflag])]
  by_cases hnil : data = []
  · subst hnil
    exact ⟨f.device, rfl, by simpa using h⟩
  · obtain ⟨d', hhook, hsteady, hunix, hcont, hpos, haligned⟩ :=
      fdHookWrite_of_steady h.serves.steady data
    rw [if_neg hnil, hhook]
    refine ⟨d', rfl, ?_⟩
    have hhead : t.head = f.device.writePosition := by rw [h.head, hw, Nat.add_zero]
    exact
      { h with
        serves := { h.serves with
                    unix_eq := hunix.trans h.serves.unix_eq
                    steady := hsteady
                    aligned := fun hc => haligned (h.serves.aligned hc) }
        cells := by
          rw [Tape.cells_write, h.cells_of_empty hw, hhead]
          simp [Iob.pending, hw, hcont]
        head := by rw [Tape.head_write, hhead, hpos, hw, Nat.add_zero] }

/-! ### One character -/

theorem flushFull :
    ∃ f', (if f.writeBufferIsFull then flushIobWriteBuffer fdDevice f else (f, .ok)) = (f', .ok) ∧
      Writing c f' t ∧ f'.bufferWriteBytes < c.bufferSize := by
  have hpos := c.size_pos
  split
  · obtain ⟨f', hflush, hf', hw⟩ := h.flush
    exact ⟨f', hflush, hf', by omega⟩
  · next hfull =>
    refine ⟨f, rfl, h, ?_⟩
    simp only [Iob.writeBufferIsFull, h.serves.size_eq, Bool.and_eq_true, decide_eq_true_eq,
      beq_iff_eq] at hfull
    have := h.write_le
    omega

/-- `__fputc` writes a character, in every mode. -/
theorem fputcRaw (ch : ℤ) (mode : BufferMode) :
    ∃ f', fputcRaw fdDevice f ch mode = (f', ((toByte ch).toNat : ℤ)) ∧
      Writing c f' (t.write [toByte ch]) ∧ (mode = .none → f'.bufferWriteBytes = 0) := by
  obtain ⟨f₁, hfull, hf₁, hroom⟩ := h.flushFull
  have hstored : Writing c (f₁.store [toByte ch]) (t.write [toByte ch]) := hf₁.store hroom
  unfold Clib4.fputcRaw
  rw [hfull]
  dsimp only
  split
  · obtain ⟨f₂, hflush, hf₂, hw⟩ := hstored.flush
    rw [hflush]
    exact ⟨f₂, rfl, hf₂, fun _ => hw⟩
  · next hmode => exact ⟨_, rfl, hstored, fun hnone => absurd (.inl hnone) hmode⟩

theorem putcFullyBuffered (b : UInt8) :
    ∃ (f' : Iob FdFile) (n : ℕ), putcFullyBuffered fdDevice f b = (f', (n : ℤ)) ∧
      Writing c f' (t.write [b]) := by
  unfold Clib4.putcFullyBuffered
  rw [h.serves.size_eq]
  split
  · next hroom => exact ⟨_, _, rfl, h.store hroom⟩
  · obtain ⟨f', hraw, hf', -⟩ := h.fputcRaw b.toNat .full
    rw [toByte_toNat] at hf' hraw
    exact ⟨f', _, hraw, hf'⟩

theorem putcLineBuffered (b : UInt8) :
    ∃ (f' : Iob FdFile) (n : ℕ), putcLineBuffered fdDevice f b = (f', (n : ℤ)) ∧
      Writing c f' (t.write [b]) := by
  unfold Clib4.putcLineBuffered
  rw [h.serves.size_eq]
  split
  · next hroom =>
    have hstored : Writing c (f.store [b]) (t.write [b]) := h.store hroom
    split
    · obtain ⟨f', hflush, hf', -⟩ := hstored.flush
      unfold flushLine
      rw [hflush]
      exact ⟨f', _, rfl, hf'⟩
    · exact ⟨_, _, rfl, hstored⟩
  · obtain ⟨f', hraw, hf', -⟩ := h.fputcRaw b.toNat .line
    rw [toByte_toNat] at hf' hraw
    exact ⟨f', _, hraw, hf'⟩

/-! ### Chunks -/

/-- A chunk is not empty, and no longer than what is asked for and what fits. -/
theorem chunkLength_bounds (s : List UInt8) {total : ℕ} (line : Bool)
    (htot : 0 < total) (hroom : f.bufferWriteBytes < c.bufferSize) :
    0 < chunkLength f s total line ∧ chunkLength f s total line ≤ total ∧
      f.bufferWriteBytes + chunkLength f s total line ≤ c.bufferSize := by
  unfold chunkLength
  rw [h.serves.size_eq]
  cases line with
  | false => simp; omega
  | true =>
    cases hidx : (s.take (min total (c.bufferSize - f.bufferWriteBytes))).findIdx? (· == 10) with
    | none => simp [hidx]; omega
    | some i =>
      have hi := (findIdx?_eq_some_iff_findIdx_eq.1 hidx).1
      rw [length_take] at hi
      simp [hidx]
      omega

end

variable {s : List UInt8}

section

variable (h : Writing c f t)

include h

/-- **Copying a chunk** writes it, and leaves room in the buffer. -/
theorem storeChunk {total : ℕ} {line : Bool} (htot : 0 < total)
    (hroom : f.bufferWriteBytes < c.bufferSize) (hlen : chunkLength f s total line ≤ s.length) :
    ∃ f', storeChunk fdDevice f s total line = .ok (f', chunkLength f s total line, .ok) ∧
      Writing c f' (t.write (s.take (chunkLength f s total line))) ∧
      f'.bufferWriteBytes < c.bufferSize := by
  obtain ⟨hpos, -, hfit⟩ := h.chunkLength_bounds s line htot hroom
  have hstored : Writing c (f.store (s.take (chunkLength f s total line)))
      (t.write (s.take (chunkLength f s total line))) :=
    h.store (by rw [length_take]; omega)
  unfold Clib4.storeChunk
  rw [if_neg (by omega)]
  dsimp only
  split
  · obtain ⟨f', hflush, hf', hw⟩ := hstored.flush
    rw [hflush]
    exact ⟨f', rfl, hf', by omega⟩
  · next hfull =>
    refine ⟨_, rfl, hstored, ?_⟩
    simp only [Bool.or_eq_true, not_or, Iob.writeBufferIsFull, Bool.and_eq_true, decide_eq_true_eq,
      beq_iff_eq, not_and] at hfull
    have hne := hfull.2 (by rw [hstored.serves.size_eq]; exact c.size_pos)
    have hle := hstored.write_le
    rw [hstored.serves.size_eq] at hne
    omega

/-! ### Strings -/

/-- Inside a loop of `fputs`: the rest of the string leads to the tape `t`. -/
structure FputsLeft (c : Session) (t : Tape UInt8) (a : FputsState FdFile) : Prop where
  total : a.2.2 = a.2.1.length
  tape : ∃ t', Writing c a.1 t' ∧ t'.write a.2.1 = t

/-- What one iteration of a loop of `fputs` achieves: it writes the beginning of what is left of
the string, or all of it. -/
def FputsWrites (c : Session)
    (body : FputsState FdFile → FputsState FdFile ⊕ Except Fault (Iob FdFile × Status))
    (f : Iob FdFile) (t : Tape UInt8) (s : List UInt8) : Prop :=
  Loop.Progress body (FputsLeft c (t.write s)) (fun a => a.2.1.length)
    (fun r => ∃ f', r = .ok (f', .ok) ∧ Writing c f' (t.write s)) (f, s, s.length)

/-- A loop whose iterations write the string in parts writes the string. -/
theorem run_fputs
    {body : FputsState FdFile → FputsState FdFile ⊕ Except Fault (Iob FdFile × Status)}
    (hbody : ∀ f t s, Writing c f t → FputsWrites c body f t s)
    (s : List UInt8) :
    ∃ f', (Loop.run body (s.length + 1) (f, s, s.length)).getD (.error .timeout) = .ok (f', .ok) ∧
      Writing c f' (t.write s) := by
  refine Loop.getD_run_spec (FputsLeft c (t.write s)) (fun a => a.2.1.length)
    (fun r : Except Fault (Iob FdFile × Status) => ∃ f', r = .ok (f', .ok) ∧
      Writing c f' (t.write s)) ?_ _ (f, s, s.length) _ ⟨rfl, t, h, rfl⟩ (Nat.lt_succ_self _)
  rintro ⟨f₁, s₁, total⟩ ⟨htot, t₁, hf₁, hsame⟩
  dsimp only at htot hsame
  subst htot
  rw [← hsame]
  exact hbody f₁ t₁ s₁ hf₁

theorem fputsByte (line : Bool) (b : UInt8) (s : List UInt8) (total : ℕ) :
    ∃ f', fputsByte fdDevice line (f, b :: s, total) = .inl (f', s, total - 1) ∧
      Writing c f' (t.write [b]) := by
  have hput : ∃ (f' : Iob FdFile) (n : ℕ), (if line then Clib4.putcLineBuffered fdDevice f b
        else Clib4.putcFullyBuffered fdDevice f b) = (f', (n : ℤ)) ∧
      Writing c f' (t.write [b]) := by
    cases line with
    | false => exact h.putcFullyBuffered b
    | true => exact h.putcLineBuffered b
  obtain ⟨f', n, hput, hf'⟩ := hput
  have hne : ¬ ((n : ℤ) = EOF) := by unfold EOF; omega
  refine ⟨f', ?_, hf'⟩
  unfold Clib4.fputsByte
  dsimp only
  rw [hput]
  rw [if_neg hne]

theorem fputsStore (line : Bool) (hs : s ≠ []) :
    FputsWrites c (fputsStore fdDevice line) f t s := by
  have htot : 0 < s.length := length_pos_iff.2 hs
  unfold FputsWrites Loop.Progress Clib4.fputsStore
  dsimp only
  rw [h.serves.size_eq]
  by_cases hroom : f.bufferWriteBytes < c.bufferSize
  · -- a chunk goes into the buffer
    obtain ⟨hpos, hle, -⟩ := h.chunkLength_bounds s line htot hroom
    obtain ⟨f', hchunk, hf', hroom'⟩ := h.storeChunk htot hroom hle
    rw [if_pos hroom, hchunk]
    dsimp only
    generalize chunkLength f s s.length line = k at hpos hle hf'
    by_cases hall : s.length - k = 0
    · rw [if_pos hall]
      rw [take_of_length_le (by omega)] at hf'
      exact .inr ⟨_, rfl, f', rfl, hf'⟩
    · rw [if_neg hall, hf'.serves.size_eq, if_pos hroom']
      refine .inl ⟨_, rfl, ⟨length_drop.symm, _, hf', ?_⟩, ?_⟩
      · rw [Tape.write_write, take_append_drop]
      · rw [length_drop]
        omega
  · -- the buffer is full, and a single character is written
    rw [if_neg hroom]
    obtain ⟨b, s, rfl⟩ := exists_cons_of_ne_nil hs
    obtain ⟨f', hbyte, hf'⟩ := h.fputsByte line b s (b :: s).length
    exact .inl ⟨_, hbyte, ⟨rfl, _, hf', Tape.write_write _ _ _⟩, by simp⟩

theorem fputsLineBody (s : List UInt8) :
    FputsWrites c (fputsLineBody fdDevice) f t s := by
  by_cases hs : s = []
  · subst hs
    exact .inr ⟨_, rfl, f, rfl, by simpa using h⟩
  · have hbody : Clib4.fputsLineBody fdDevice (f, s, s.length)
        = Clib4.fputsStore fdDevice true (f, s, s.length) := by simp [Clib4.fputsLineBody, hs]
    unfold FputsWrites Loop.Progress
    rw [hbody]
    exact h.fputsStore true hs

theorem fputsFullBody (s : List UInt8) :
    FputsWrites c (fputsFullBody fdDevice) f t s := by
  by_cases hs : s = []
  · subst hs
    exact .inr ⟨_, rfl, f, rfl, by simpa using h⟩
  have hne : ¬ s.length = 0 := fun h0 => hs (length_eq_zero_iff.1 h0)
  by_cases hbypass : f.bufferWriteBytes = 0 ∧ f.bufferSize ≤ s.length
  · obtain ⟨d', hwrite, hf'⟩ := h.writeThrough hbypass.1 s
    refine .inr ⟨_, ?_, _, rfl, hf'⟩
    simp [Clib4.fputsFullBody, hs, hbypass, hwrite]
  · have hbody : Clib4.fputsFullBody fdDevice (f, s, s.length)
        = Clib4.fputsStore fdDevice false (f, s, s.length) := by
      simp only [Clib4.fputsFullBody, if_neg hne, if_neg hbypass]
    unfold FputsWrites Loop.Progress
    rw [hbody]
    exact h.fputsStore false hs

/-- **`fputs` writes its string** in every mode. -/
theorem fputsInMode (s : List UInt8) {mode : BufferMode}
    (hmode : mode = .none → f.bufferWriteBytes = 0) :
    ∃ f', fputsInMode fdDevice f s mode = .ok (f', .ok) ∧ Writing c f' (t.write s) ∧
      (mode = .none → f'.bufferWriteBytes = 0) := by
  cases mode with
  | none =>
    obtain ⟨d', hwrite, hf'⟩ := h.writeThrough (hmode rfl) s
    refine ⟨{ f with device := d' }, ?_, hf', hmode⟩
    simp [Clib4.fputsInMode, hwrite]
  | line =>
    obtain ⟨f', hrun, hf'⟩ := h.run_fputs (fun f t s hf => hf.fputsLineBody s) s
    exact ⟨f', hrun, hf', nofun⟩
  | full =>
    obtain ⟨f', hrun, hf'⟩ := h.run_fputs (fun f t s hf => hf.fputsFullBody s) s
    exact ⟨f', hrun, hf', nofun⟩

/-! ### Arrays -/

/-- There is room in the write buffer. -/
def HasRoom (c : Session) (f : Iob FdFile) : Prop := f.bufferWriteBytes < c.bufferSize

/-- Inside a loop of `fwrite` that is to count `n` bytes: the rest of the array leads to the
tape `t`. -/
structure FwriteLeft (c : Session) (P : Iob FdFile → Prop) (t : Tape UInt8) (n : ℕ)
    (a : FwriteState FdFile) : Prop where
  total : a.2.2.1 = a.2.1.length
  count : a.2.2.2 + a.2.1.length = n
  stream : P a.1
  tape : ∃ t', Writing c a.1 t' ∧ t'.write a.2.1 = t

/-- What one iteration of a loop of `fwrite` achieves on a stream with the property `P`: it
writes the beginning of what is left of the array and counts it, or all of it. -/
def FwriteWrites (c : Session) (P : Iob FdFile → Prop)
    (body : FwriteState FdFile → FwriteState FdFile ⊕ FwriteExit FdFile)
    (f : Iob FdFile) (t : Tape UInt8) (s : List UInt8) (written : ℕ) : Prop :=
  Loop.Progress body (FwriteLeft c P (t.write s) (written + s.length)) (fun a => a.2.1.length)
    (fun r => ∃ f', r = .ok (f', some (written + s.length)) ∧ Writing c f' (t.write s))
    (f, s, s.length, written)

/-- A loop whose iterations write the array in parts writes the array. -/
theorem run_fwrite {P : Iob FdFile → Prop}
    {body : FwriteState FdFile → FwriteState FdFile ⊕ FwriteExit FdFile}
    (hbody : ∀ f t s written, Writing c f t → P f → FwriteWrites c P body f t s written)
    (hP : P f) (s : List UInt8) :
    ∃ f', (Loop.run body (s.length + 2) (f, s, s.length, 0)).getD (.error .timeout)
        = .ok (f', some s.length) ∧
      Writing c f' (t.write s) := by
  refine Loop.getD_run_spec (FwriteLeft c P (t.write s) s.length) (fun a => a.2.1.length)
    (fun r : FwriteExit FdFile => ∃ f', r = .ok (f', some s.length) ∧ Writing c f' (t.write s))
    ?_ _ (f, s, s.length, 0) _ ⟨rfl, Nat.zero_add _, hP, t, h, rfl⟩
    (Nat.lt_add_of_pos_right Nat.two_pos)
  rintro ⟨f₁, s₁, total, written⟩ ⟨htot, hwritten, hP₁, t₁, hf₁, hsame⟩
  dsimp only at htot hwritten hsame
  subst htot
  rw [← hsame, ← hwritten]
  exact hbody f₁ t₁ s₁ written hf₁ hP₁

/-- An iteration that goes through the buffer, when there is room: the tail of the iteration is
not reached, and there is room again. -/
theorem fwriteStore_of_hasRoom (hroom : HasRoom c f) (line : Bool)
    (byte : FwriteState FdFile → FwriteState FdFile ⊕ FwriteExit FdFile) (hs : s ≠ [])
    (written : ℕ) :
    FwriteWrites c (HasRoom c) (fwriteStore fdDevice line byte) f t s written := by
  have htot : 0 < s.length := length_pos_iff.2 hs
  unfold HasRoom at hroom
  obtain ⟨hpos, hle, -⟩ := h.chunkLength_bounds s line htot hroom
  obtain ⟨f', hchunk, hf', hroom'⟩ := h.storeChunk htot hroom hle
  unfold FwriteWrites Loop.Progress fwriteStore
  dsimp only
  rw [h.serves.size_eq, if_pos hroom, hchunk]
  dsimp only
  generalize chunkLength f s s.length line = k at hpos hle hf'
  by_cases hall : s.length - k = 0
  · rw [if_pos hall]
    rw [take_of_length_le (by omega)] at hf'
    have hk : k = s.length := by omega
    exact .inr ⟨_, rfl, f', by rw [hk], hf'⟩
  · rw [if_neg hall, hf'.serves.size_eq, if_pos hroom']
    refine .inl ⟨_, rfl, ⟨length_drop.symm, ?_, hroom', _, hf', ?_⟩, ?_⟩
    · dsimp only
      rw [length_drop]
      omega
    · rw [Tape.write_write, take_append_drop]
    · rw [length_drop]
      omega

theorem fwriteLineBody (s : List UInt8) (written : ℕ) :
    FwriteWrites c (fun _ => True) (fwriteLineBody fdDevice) f t s written := by
  by_cases hs : s = []
  · subst hs
    exact .inr ⟨_, rfl, f, rfl, by simpa using h⟩
  have hbody : Clib4.fwriteLineBody fdDevice (f, s, s.length, written)
      = fwriteStore fdDevice true (fwriteLineByte fdDevice) (f, s, s.length, written) := by
    simp [Clib4.fwriteLineBody, hs]
  unfold FwriteWrites Loop.Progress
  rw [hbody]
  by_cases hroom : HasRoom c f
  · rcases h.fwriteStore_of_hasRoom hroom true (fwriteLineByte fdDevice) hs written with
      ⟨a', hstep, ⟨htot, hwritten, -, hleft⟩, hlt⟩ | hdone
    · exact .inl ⟨a', hstep, ⟨htot, hwritten, trivial, hleft⟩, hlt⟩
    · exact .inr hdone
  · -- the buffer is full, and a single character is written
    obtain ⟨b, s, rfl⟩ := exists_cons_of_ne_nil hs
    obtain ⟨f', n, hput, hf'⟩ := h.putcLineBuffered b
    have hok : ¬ ((n : ℤ) = EOF) := by unfold EOF; omega
    have hfull : ¬ f.bufferWriteBytes < f.bufferSize := by rw [h.serves.size_eq]; exact hroom
    refine .inl ⟨(f', s, s.length, written + 1), ?_,
      ⟨rfl, ?_, trivial, _, hf', Tape.write_write _ _ _⟩, by simp⟩
    · simp [fwriteStore, hfull, fwriteLineByte, hput, hok]
    · simp only [length_cons]
      omega

theorem fwriteFullBody (hroom : HasRoom c f) (s : List UInt8)
    (written : ℕ) : FwriteWrites c (HasRoom c) (fwriteFullBody fdDevice) f t s written := by
  by_cases hs : s = []
  · subst hs
    exact .inr ⟨_, rfl, f, rfl, by simpa using h⟩
  have hne : ¬ s.length = 0 := fun h0 => hs (length_eq_zero_iff.1 h0)
  by_cases hbypass : f.bufferWriteBytes = 0 ∧ f.bufferSize ≤ s.length
  · obtain ⟨d', hwrite, hf'⟩ := h.writeThrough hbypass.1 s
    refine .inr ⟨_, ?_, _, rfl, hf'⟩
    simp [Clib4.fwriteFullBody, hs, hbypass, hwrite]
  · have hbody : Clib4.fwriteFullBody fdDevice (f, s, s.length, written)
        = fwriteStore fdDevice false (fwriteFullByte fdDevice) (f, s, s.length, written) := by
      simp only [Clib4.fwriteFullBody, if_neg hne, if_neg hbypass]
    unfold FwriteWrites Loop.Progress
    rw [hbody]
    exact h.fwriteStore_of_hasRoom hroom false _ hs written

/-- **`fwrite` writes its array** in every mode, unless the mode is the fully buffered one and
the buffer is full. -/
theorem fwriteInMode (s : List UInt8) {mode : BufferMode}
    (hfull : mode = .full → HasRoom c f) (hnone : mode = .none → f.bufferWriteBytes = 0) :
    ∃ f', fwriteInMode fdDevice f s s.length mode = .ok (f', some s.length) ∧
      Writing c f' (t.write s) ∧ (mode = .none → f'.bufferWriteBytes = 0) := by
  cases mode with
  | none =>
    obtain ⟨d', hwrite, hf'⟩ := h.writeThrough (hnone rfl) s
    have hempty : f.writeBufferIsValid = false := by
      simp [Iob.writeBufferIsValid, hnone rfl]
    refine ⟨{ f with device := d' }, ?_, hf', hnone⟩
    have hsame : ({ f with device := d' } : Iob FdFile).writeBufferIsValid = false := hempty
    simp [Clib4.fwriteInMode, hwrite, hsame]
  | line =>
    obtain ⟨f', hrun, hf'⟩ :=
      h.run_fwrite (fun f t s written hf _ => hf.fwriteLineBody s written) trivial s
    exact ⟨f', hrun, hf', fun hm => by cases hm⟩
  | full =>
    obtain ⟨f', hrun, hf'⟩ :=
      h.run_fwrite (fun f t s written hf hroom => hf.fwriteFullBody hroom s written) (hfull rfl) s
    exact ⟨f', hrun, hf', fun hm => by cases hm⟩

/-! ### Past the end of the array -/

/-- An iteration of the fully buffered loop of `fwrite`, once fewer bytes of the array are left
than the count says: the loop goes on in this way, or leaves the array. -/
theorem fwriteFullBody_of_length_lt {total : ℕ} (hlt : s.length < total)
    (written : ℕ) :
    (∃ f' t' s' total' written', Clib4.fwriteFullBody fdDevice (f, s, total, written)
        = .inl (f', s', total', written') ∧ Writing c f' t' ∧ s'.length < total' ∧
        s'.length < s.length) ∨
      Clib4.fwriteFullBody fdDevice (f, s, total, written) = .inr (.error .overread) := by
  have hsize := h.serves.size_eq
  unfold Clib4.fwriteFullBody
  dsimp only
  rw [if_neg (by omega)]
  by_cases hbypass : f.bufferWriteBytes = 0 ∧ f.bufferSize ≤ total
  · rw [if_pos hbypass, if_pos hlt]
    exact .inr rfl
  rw [if_neg hbypass]
  unfold fwriteStore
  dsimp only
  by_cases hroom : f.bufferWriteBytes < c.bufferSize
  · rw [hsize, if_pos hroom]
    obtain ⟨hpos, -, -⟩ := h.chunkLength_bounds s false (by omega : 0 < total) hroom
    by_cases hlen : chunkLength f s total false ≤ s.length
    · obtain ⟨f', hchunk, hf', hroom'⟩ := h.storeChunk (by omega) hroom hlen
      rw [hchunk]
      dsimp only
      rw [if_neg (by omega), hf'.serves.size_eq, if_pos hroom']
      refine .inl ⟨f', _, _, _, _, rfl, hf', ?_, ?_⟩ <;> rw [length_drop] <;> omega
    · have hover : Clib4.storeChunk fdDevice f s total false = .error .overread := by
        unfold Clib4.storeChunk
        rw [if_pos (by omega)]
      rw [hover]
      exact .inr rfl
  · rw [hsize, if_neg hroom]
    cases s with
    | nil => exact .inr rfl
    | cons b s =>
      obtain ⟨f', n, hput, hf'⟩ := h.putcFullyBuffered b
      have hok : ¬ ((n : ℤ) = EOF) := by unfold EOF; omega
      simp only [length_cons] at hlt
      refine .inl ⟨f', _, s, total, written + 1, ?_, hf', by omega, by simp⟩
      simp [fwriteFullByte, hput, hok]

/-- **A full buffer makes `fwrite` run past its array.**  The character that is written to make
room is not taken off `total_size`, and from there on the count is larger than what is left. -/
theorem fwriteInMode_overread (hfull : ¬ HasRoom c f) (hs : s ≠ []) :
    Clib4.fwriteInMode fdDevice f s s.length .full = .error .overread := by
  obtain ⟨b, s, rfl⟩ := exists_cons_of_ne_nil hs
  have hpos := c.size_pos
  unfold HasRoom at hfull
  -- the first iteration writes one character
  obtain ⟨f₁, n, hput, hf₁⟩ := h.putcFullyBuffered b
  have hok : ¬ ((n : ℤ) = EOF) := by unfold EOF; omega
  have hfirst : Clib4.fwriteFullBody fdDevice (f, b :: s, (b :: s).length, 0)
      = .inl (f₁, s, (b :: s).length, 1) := by
    have hbypass : ¬ (f.bufferWriteBytes = 0 ∧ f.bufferSize ≤ (b :: s).length) := by omega
    unfold Clib4.fwriteFullBody
    dsimp only
    rw [if_neg (by simp), if_neg hbypass]
    unfold fwriteStore
    dsimp only
    rw [h.serves.size_eq, if_neg hfull]
    simp [fwriteFullByte, hput, hok]
  unfold Clib4.fwriteInMode
  rw [Loop.run_succ_of_inl hfirst]
  refine Loop.getD_run_spec
    (fun a : FwriteState FdFile => a.2.1.length < a.2.2.1 ∧ ∃ t', Writing c a.1 t')
    (fun a => a.2.1.length) (fun r : FwriteExit FdFile => r = .error .overread) ?_
    ((b :: s).length + 1) (f₁, s, (b :: s).length, 1) _ ⟨by simp, _, hf₁⟩
    (by simp only [length_cons]; omega)
  rintro ⟨f₂, s₂, total, written⟩ ⟨hlt, t₂, hf₂⟩
  rcases hf₂.fwriteFullBody_of_length_lt hlt written with
    ⟨f₃, t₃, s₃, total₃, written₃, hstep, hf₃, hlt₃, hdec⟩ | hover
  · exact .inl ⟨_, hstep, ⟨hlt₃, t₃, hf₃⟩, hdec⟩
  · exact .inr ⟨_, hover, rfl⟩

end

end Writing

end Clib4
