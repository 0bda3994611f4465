import Clib4.Base.Machine
import Clib4.Stdio.Writing

/-!
# Fully buffered output

A run of `fputc`, `fputs` and `fwrite` calls on a fully buffered stream, followed by `fflush`.
The bytes of the calls reach the file one after the other, whatever the size of the buffer,
except in one case: an `fwrite` that starts with the buffer completely full reads past the end
of its array.  Only `fputc` leaves the buffer in that state.

## Main definitions

* `WritesExactly` — the file receives the bytes of the calls and each `fwrite` tells so.

## Main results

* `writesExactly_iff` — **exactly the runs that avoid a full buffer write what they should.**
-/

namespace Clib4

open Splice List

/-! ### The calls -/

/-- An array of `count` elements of `elementSize` bytes each.  `fwrite` asserts that both are not
negative as an `int`, and `Write` of dos.library takes the number of bytes as a `LONG`. -/
structure ElementArray where
  bytes : List UInt8
  elementSize : ℕ
  count : ℕ
  length_eq : bytes.length = elementSize * count
  length_le : bytes.length ≤ longMax

/-- What `fwrite` returns when the whole array is written: no elements are counted when they
have no size. -/
def ElementArray.written (a : ElementArray) : ℕ := if a.elementSize = 0 then 0 else a.count

namespace Writing

variable {c : Session} {f : Iob FdFile} {t : Tape UInt8}

section

variable (h : Writing c f t)

include h

theorem outputMode : outputMode fdDevice f = c.mode := by
  have hinteractive : fdDevice.isInteractive f.device = false :=
    h.serves.steady.here.notInteractive
  rw [Clib4.outputMode, hinteractive, if_neg (by simp), h.serves.mode_eq]

theorem fputcCheck : fputcCheck fdDevice f = (f, .ok) := by
  have hcan : f.canWrite = true := h.serves.canWrite_eq.trans h.canWrite
  simp [Clib4.fputcCheck, h.serves.inUse, hcan, Iob.readBufferIsValid, h.read_zero]

theorem fputc (ch : ℤ) :
    ∃ f', fputc fdDevice f ch = (f', ((toByte ch).toNat : ℤ)) ∧
      Writing c f' (t.write [toByte ch]) ∧ (c.mode = .none → f'.bufferWriteBytes = 0) := by
  unfold Clib4.fputc
  rw [h.fputcCheck]
  dsimp only
  rw [h.serves.mode_eq]
  exact h.fputcRaw ch c.mode

theorem fputs (hnone : c.mode = .none → f.bufferWriteBytes = 0) (s : List UInt8) :
    ∃ f', fputs fdDevice f s = .ok (f', 0) ∧ Writing c f' (t.write s) ∧
      (c.mode = .none → f'.bufferWriteBytes = 0) := by
  have hbody : ∃ f', (if s = [] then .ok (f, .ok)
        else Clib4.fputsInMode fdDevice f s (Clib4.outputMode fdDevice f)) = .ok (f', .ok) ∧
      Writing c f' (t.write s) ∧ (c.mode = .none → f'.bufferWriteBytes = 0) := by
    by_cases hs : s = []
    · subst hs
      exact ⟨f, rfl, by simpa using h, hnone⟩
    · rw [if_neg hs, h.outputMode]
      exact h.fputsInMode s hnone
  obtain ⟨f', hrun, hf', hnone'⟩ := hbody
  refine ⟨f', ?_, hf', hnone'⟩
  unfold Clib4.fputs
  rw [h.fputcCheck]
  dsimp only
  rw [hrun]
  -- in the unbuffered mode nothing is left in the buffer that could be flushed
  have hflush : ¬ (f'.bufferMode = .none ∧ f'.writeBufferIsValid = true) := by
    rintro ⟨hmode, hvalid⟩
    rw [hf'.serves.mode_eq] at hmode
    simp [Iob.writeBufferIsValid, hnone' hmode] at hvalid
  simp only [Except.map, fputsExit, if_neg hflush]

theorem fwrite (a : ElementArray) (hfull : c.mode = .full → a.bytes ≠ [] → HasRoom c f)
    (hnone : c.mode = .none → f.bufferWriteBytes = 0) :
    ∃ f', fwrite fdDevice f a.bytes a.elementSize a.count = .ok (f', a.written) ∧
      Writing c f' (t.write a.bytes) ∧ (c.mode = .none → f'.bufferWriteBytes = 0) := by
  have hcan : f.canWrite = true := h.serves.canWrite_eq.trans h.canWrite
  have hlen := a.length_eq
  have hle := a.length_le
  unfold Clib4.fwrite
  rw [if_neg (by simp [h.serves.inUse, hcan])]
  by_cases hpos : 0 < a.elementSize ∧ 0 < a.count
  · have hne : a.bytes ≠ [] := by
      intro hnil
      rw [hnil, length_nil] at hlen
      exact absurd hlen.symm (Nat.mul_pos hpos.1 hpos.2).ne'
    obtain ⟨f', hrun, hf', hnone'⟩ := h.fwriteInMode a.bytes (fun hm => hfull hm hne) hnone
    have hover := not_sizeMax_lt (hlen ▸ hle)
    rw [if_pos hpos, if_neg hover, h.outputMode, ← hlen, hrun]
    refine ⟨f', ?_, hf', hnone'⟩
    rw [ElementArray.written, if_neg (by omega), hlen]
    simp [Except.map, Nat.mul_div_cancel_left _ hpos.1]
  · have hnil : a.bytes = [] := by
      have hzero : a.elementSize = 0 ∨ a.count = 0 := by omega
      rw [← length_eq_zero_iff, hlen]
      rcases hzero with h0 | h0 <;> simp [h0]
    have hwritten : a.written = 0 := by
      unfold ElementArray.written
      split <;> omega
    rw [if_neg hpos, hnil, hwritten]
    exact ⟨f, rfl, by simpa using h, hnone⟩

theorem fflush : ∃ f', fflush fdDevice f = (f', 0) ∧ Writing c f' t ∧ f'.bufferWriteBytes = 0 := by
  unfold Clib4.fflush
  split
  · obtain ⟨f', hflush, hf', hw⟩ := h.flush
    rw [hflush]
    exact ⟨f', rfl, hf', hw⟩
  · next hvalid =>
    refine ⟨f, rfl, h, ?_⟩
    simpa [Iob.writeBufferIsValid] using hvalid

end

end Writing

/-- A call that writes. -/
inductive WriteCall
  | fputc (ch : ℤ)
  /-- The characters of a string, without its terminating zero. -/
  | fputs (s : List UInt8)
  | fwrite (array : ElementArray)

open WriteCall

namespace WriteCall

/-- One call, with its result. -/
def step (f : Iob FdFile) : WriteCall → Except Fault (Iob FdFile × ℤ)
  | fputc ch => .ok (Clib4.fputc fdDevice f ch)
  | fputs s => Clib4.fputs fdDevice f s
  | fwrite a =>
    (Clib4.fwrite fdDevice f a.bytes a.elementSize a.count).map fun (f, n) => (f, (n : ℤ))

/-- The bytes that are passed to a call. -/
def bytes : WriteCall → List UInt8
  | fputc ch => [toByte ch]
  | fputs s => s
  | fwrite a => a.bytes

/-- The result of a call that writes all it is given. -/
def reply : WriteCall → ℤ
  | fputc ch => (toByte ch).toNat
  | fputs _ => 0
  | fwrite a => a.written

/-- The condition on a call: an `fwrite` of some bytes does not start with a full buffer. -/
def AvoidsFullBuffer (f : Iob FdFile) : WriteCall → Prop
  | fwrite a => a.bytes ≠ [] → f.bufferWriteBytes ≠ f.bufferSize
  | _ => True

/-- An `fwrite` returns its count argument. -/
def ReturnsCount : WriteCall → ℤ → Prop
  | fwrite a, result => result = a.count
  | _, _ => True

variable {c : Session} {f : Iob FdFile} {t : Tape UInt8}

theorem step_writes (hmode : c.mode = .full) (h : Writing c f t) (call : WriteCall)
    (hcall : call.AvoidsFullBuffer f) :
    ∃ f', step f call = .ok (f', call.reply) ∧ Writing c f' (t.write call.bytes) := by
  have hnone : c.mode = .none → f.bufferWriteBytes = 0 := by simp [hmode]
  cases call with
  | fputc ch =>
    obtain ⟨f', hput, hf', -⟩ := h.fputc ch
    exact ⟨f', by rw [step, hput]; rfl, hf'⟩
  | fputs s =>
    obtain ⟨f', hput, hf', -⟩ := h.fputs hnone s
    exact ⟨f', hput, hf'⟩
  | fwrite a =>
    obtain ⟨f', hwrite, hf', -⟩ := h.fwrite a (fun _ hne => by
      have := hcall hne
      have := h.write_le
      rw [h.serves.size_eq] at *
      unfold Writing.HasRoom
      omega) hnone
    exact ⟨f', by rw [step, hwrite]; rfl, hf'⟩

theorem step_overread (hmode : c.mode = .full) (h : Writing c f t) (call : WriteCall)
    (hcall : ¬ call.AvoidsFullBuffer f) : step f call = .error .overread := by
  cases call with
  | fputc ch | fputs s => exact absurd trivial hcall
  | fwrite a =>
    obtain ⟨hne, hw⟩ : a.bytes ≠ [] ∧ f.bufferWriteBytes = f.bufferSize := by
      simpa [AvoidsFullBuffer] using hcall
    have hcan : f.canWrite = true := h.serves.canWrite_eq.trans h.canWrite
    have hlen := a.length_eq
    have hle := a.length_le
    have hlpos : 0 < a.bytes.length := length_pos_iff.2 hne
    have hpos : 0 < a.elementSize ∧ 0 < a.count := by
      rw [hlen] at hlpos
      exact ⟨Nat.pos_of_mul_pos_right hlpos, Nat.pos_of_mul_pos_left hlpos⟩
    have hover := not_sizeMax_lt (hlen ▸ hle)
    have hroom : ¬ Writing.HasRoom c f := by
      unfold Writing.HasRoom
      rw [hw, h.serves.size_eq]
      omega
    have hmodeEq := h.outputMode
    rw [hmode] at hmodeEq
    unfold step Clib4.fwrite
    dsimp only
    rw [if_neg (by simp [h.serves.inUse, hcan]), if_pos hpos, if_neg hover, hmodeEq, ← hlen,
      h.fwriteInMode_overread hroom hne]
    rfl

/-- The reference: the bytes of each call are written to the tape. -/
def reference (t : Tape UInt8) (call : WriteCall) : Tape UInt8 × ℤ :=
  (t.write call.bytes, call.reply)

theorem trace_reference (t : Tape UInt8) (calls : List WriteCall) :
    Machine.trace reference t calls = (t.write (calls.flatMap bytes), calls.map reply) := by
  induction calls generalizing t with
  | nil => simp
  | cons call calls ih =>
    rw [Machine.trace_cons, ih]
    simp [reference, Tape.write_write]

end WriteCall

/-! ### Runs -/

/-- A fully buffered stream that has just been opened for writing. -/
structure OpenForWriting (f : Iob FdFile) : Prop where
  opened : Opened f
  mode : f.bufferMode = .full
  canWrite : f.canWrite = true
  writes : f.device.fd.flags.write = true

/-- Nothing waits in the buffer of a stream that has just been opened. -/
theorem OpenForWriting.writing {f : Iob FdFile} (h : OpenForWriting f) :
    ∃ c t, Writing c f t ∧ c.mode = .full ∧ t.cells = f.device.dos.contents ∧
      t.head = f.device.writePosition := by
  have hzero := h.opened.write_zero
  refine ⟨h.opened.session false,
    ⟨f.device.dos.contents, f.device.writePosition, h.opened.steady.writePosition_le⟩,
    ?_, h.mode, rfl, rfl⟩
  exact
    { serves := h.opened.serves nofun, canWrite := h.canWrite, writes := h.writes
      write_le := by rw [hzero]; exact Nat.zero_le _
      read_zero := h.opened.read_zero, position_zero := h.opened.position_zero
      cells := by rw [Iob.pending, hzero, take_zero, writeAt_nil]
      head := by rw [hzero]; rfl }

/-- The calls, followed by `fflush`, write to the file exactly the bytes that they are given, one
after the other, from where the first write goes, which appends them when that is the end of the
file; and each `fwrite` returns its count argument. -/
def WritesExactly (f : Iob FdFile) (calls : List WriteCall) : Prop :=
  ∃ f' replies, Machine.exec step f calls = .ok (f', replies) ∧
    List.Forall₂ ReturnsCount calls replies ∧
    (fflush fdDevice f').1.device.dos.contents
      = writeAt f.device.dos.contents f.device.writePosition (calls.flatMap bytes) ∧
    (f.device.writePosition = f.device.dos.size →
      (fflush fdDevice f').1.device.dos.contents
        = f.device.dos.contents ++ calls.flatMap bytes)

theorem forall₂_returnsCount_iff (calls : List WriteCall) :
    List.Forall₂ ReturnsCount calls (calls.map reply) ↔
      ∀ a, .fwrite a ∈ calls → a.elementSize = 0 → a.count = 0 := by
  rw [forall₂_map_right_iff, forall₂_same]
  constructor
  · intro h a ha hzero
    have hcount := h _ ha
    simp only [ReturnsCount, reply, ElementArray.written, if_pos hzero]
      at hcount
    omega
  · intro h call hcall
    cases call with
    | fputc ch | fputs s => trivial
    | fwrite a =>
      have hcount := h a hcall
      simp only [ReturnsCount, reply, ElementArray.written]
      split
      · next hzero => rw [hcount hzero]
      · rfl

/-- **Fully buffered output.**  For every buffer size and every sequence of calls, the calls
write exactly what they are given if and only if no `fwrite` of some bytes starts with a full
buffer, and none has elements without a size. -/
theorem writesExactly_iff {f : Iob FdFile} (h : OpenForWriting f) (calls : List WriteCall) :
    WritesExactly f calls ↔
      Machine.Along step AvoidsFullBuffer f calls ∧
        ∀ a, .fwrite a ∈ calls → a.elementSize = 0 → a.count = 0 := by
  obtain ⟨c, t, hwriting, hmode, hcells, hhead⟩ := h.writing
  have hstep : ∀ f t call, Writing c f t → AvoidsFullBuffer f call →
      ∃ f', step f call = .ok (f', (reference t call).2) ∧
        Writing c f' (reference t call).1 :=
    fun f t call hf hcall => step_writes hmode hf call hcall
  constructor
  · rintro ⟨f', replies, hexec, hreplies, -⟩
    have halong := Machine.along_of_exec hstep
      (fun f t call hf hcall => ⟨_, step_overread hmode hf call hcall⟩) calls hwriting
      hexec
    refine ⟨halong, ?_⟩
    obtain ⟨f₁, hexec₁, -⟩ := Machine.exec_simulates hstep calls hwriting halong
    rw [hexec₁, trace_reference] at hexec
    cases hexec
    exact (forall₂_returnsCount_iff calls).1 hreplies
  · rintro ⟨halong, hsizes⟩
    obtain ⟨f', hexec, hf'⟩ := Machine.exec_simulates hstep calls hwriting halong
    rw [trace_reference] at hexec hf'
    obtain ⟨f'', hflush, hf'', hw⟩ := hf'.fflush
    have hcontents : f''.device.dos.contents
        = writeAt f.device.dos.contents f.device.writePosition (calls.flatMap bytes) := by
      rw [← hf''.cells_of_empty hw, Tape.cells_write, hcells, hhead]
    refine ⟨f', _, hexec, (forall₂_returnsCount_iff calls).2 hsizes, ?_, ?_⟩
    · rw [hflush]
      exact hcontents
    · intro hend
      rw [hflush, ← writeAt_length_self]
      rw [hend] at hcontents
      exact hcontents

/-- A stream with a buffer of two bytes, on an empty file. -/
def smallStream : Iob FdFile where
  canWrite := true
  buffer := [0, 0]
  bufferSize := 2
  device :=
    { fd := { file := 1, flags := { write := true, inUse := true } }
      dos := { contents := [], position := 0 } }

/-- Two characters, each followed by an array that does not find the buffer full. -/
theorem writesExactly_iff_smallStream :
    WritesExactly smallStream
      [.fputc 97, .fwrite ⟨[98, 99], 1, 2, rfl, by decide⟩, .fputc 100, .fputs [101, 102]] := by
  refine (writesExactly_iff ?_ _).2 ⟨⟨trivial, ?_, trivial, trivial, trivial⟩, ?_⟩
  · exact ⟨⟨rfl, by decide, by decide, rfl, rfl, rfl, rfl, ⟨by decide, rfl, rfl, rfl, rfl⟩, rfl,
      le_rfl⟩, rfl, rfl, rfl⟩
  · intro _
    decide
  · intro a ha
    simp only [mem_cons, fwrite.injEq, reduceCtorEq, false_or, not_mem_nil,
      or_false] at ha
    subst ha
    decide

/-- Two characters fill the buffer, and the `fwrite` of one byte reads past the end of it. -/
theorem smallStream_not_writesExactly :
    ¬ WritesExactly smallStream [.fputc 97, .fputc 98, .fwrite ⟨[99], 1, 1, rfl, by decide⟩] := by
  rintro ⟨f', replies, hexec, -⟩
  have hover : Machine.exec step smallStream
      [.fputc 97, .fputc 98, .fwrite ⟨[99], 1, 1, rfl, by decide⟩] = .error .overread := rfl
  rw [hover] at hexec
  cases hexec

end Clib4
