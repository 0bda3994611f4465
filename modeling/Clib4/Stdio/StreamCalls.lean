import Clib4.Stdio.Seeking
import Clib4.Stdio.WriteCalls

/-!
# Runs of calls on a stream, and buffered reading

The calls of `stdio.h` on one stream, and the reference they are compared with: a file without
buffers, which is its bytes and one position.  A stream that is only read from behaves like the
reference as long as the positions that `ftell` and `fseek` compute with fit a `long`.

## Main definitions

* `StreamCall.step` — a call on a stream.
* `StreamCall.reference` — what it does to the file without buffers.
* `StreamCall.PositionFits` — what a `long` has to hold in a call is held by it.

## Main results

* `read_stream_refines` — **buffered reading** returns what the reference returns.
* `fseek_of_huge_file` — `fseek` goes astray behind the positions of a `long`.
-/

namespace Clib4

open DosFile (SeekMode)
open Splice

/-! ### The calls -/

/-- What `fread` is asked for: `count` elements of `elementSize` bytes each, into an object of
the target.  No object is larger than `LONG_MAX`: dos.library takes sizes as `LONG`, and the source
asserts that `(int) size` is not negative. -/
structure ElementRequest where
  elementSize : ℕ
  count : ℕ
  size_le : elementSize * count ≤ longMax

/-- A call on a stream. -/
inductive StreamCall
  | fgetc
  | fgets (n : ℤ)
  | fread (request : ElementRequest)
  | fputc (ch : ℤ)
  /-- The characters of a string, without its terminating zero. -/
  | fputs (s : List UInt8)
  | fwrite (array : ElementArray)
  | fseek (offset : Long) (mode : SeekMode)
  | ftell
  | fflush

open StreamCall

/-- What a call returns: a number, a string or `NULL`, or a number of elements with their
bytes. -/
inductive StreamReply
  | int (z : ℤ)
  | string (s : Option (List UInt8))
  | data (n : ℕ) (bytes : List UInt8)
  deriving DecidableEq, Repr

namespace StreamCall

/-- One call. -/
def step (f : Iob FdFile) : StreamCall → Except Fault (Iob FdFile × StreamReply)
  | fgetc => let (f, c) := Clib4.fgetc fdDevice f; .ok (f, .int c)
  | fgets n => let (f, s) := Clib4.fgets fdDevice f n; .ok (f, .string s)
  | fread r =>
    let (f, n, bytes) := Clib4.fread fdDevice f r.elementSize r.count
    .ok (f, .data n bytes)
  | fputc ch => let (f, c) := Clib4.fputc fdDevice f ch; .ok (f, .int c)
  | fputs s => (Clib4.fputs fdDevice f s).map fun (f, z) => (f, .int z)
  | fwrite a =>
    (Clib4.fwrite fdDevice f a.bytes a.elementSize a.count).map fun (f, n) => (f, .int n)
  | fseek offset mode => (Clib4.fseek fdDevice f offset mode).map fun (f, z) => (f, .int z)
  | ftell => let (f, z) := Clib4.ftell fdDevice f; .ok (f, .int z)
  | fflush => let (f, z) := Clib4.fflush fdDevice f; .ok (f, .int z)

/-- What `fread` returns for the bytes it read. -/
def freadReply (r : ElementRequest) (bytes : List UInt8) : StreamReply :=
  .data (bytes.length / r.elementSize) bytes

/-- The same call on a file without buffers. -/
def reference (grows : Bool) (t : Tape UInt8) : StreamCall → Tape UInt8 × StreamReply
  | fgetc =>
    match t.rest with
    | [] => (t, .int EOF)
    | b :: _ => (t.advance 1, .int b.toNat)
  | fgets n =>
    if n ≤ 0 then (t, .string none)
    else
      let (t, s) := t.line 10 (n - 1).toNat
      (t, .string (Reading.fgetsReply s (n - 1).toNat))
  | fread r =>
    if 0 < r.elementSize ∧ 0 < r.count then
      let (t, bytes) := t.read (r.elementSize * r.count)
      (t, freadReply r bytes)
    else (t, .data 0 [])
  | fputc ch => (t.write [toByte ch], .int (toByte ch).toNat)
  | fputs s => (t.write s, .int 0)
  | fwrite a => (t.write a.bytes, .int a.written)
  | fseek offset mode =>
    let (t, z) := seekTo grows t (seekTarget t offset mode)
    (t, .int z)
  | ftell => (t, .int t.head)
  | fflush => (t, .int 0)

end StreamCall

/-! ### Reading -/

section

variable {c : Session} {file : List UInt8} {f : Iob FdFile} {t : Tape UInt8}

namespace ReadingFrom

variable (h : ReadingFrom c file f t) (grows : Bool)

include h

theorem fgetc :
    ∃ f', step f .fgetc = .ok (f', (reference grows t .fgetc).2) ∧
      ReadingFrom c file f' (reference grows t .fgetc).1 := by
  unfold step Clib4.fgetc
  rw [h.fgetcCheck]
  dsimp only [reference]
  rcases h.getc with ⟨hnil, f', hget, hf', -⟩ | ⟨b, r, f', hcons, hget, hf', -⟩
  · rw [hget, hnil]
    exact ⟨f', rfl, hf'⟩
  · rw [hget, hcons]
    exact ⟨f', rfl, hf'⟩

theorem fgets_step (n : ℤ) :
    ∃ f', step f (.fgets n) = .ok (f', (reference grows t (.fgets n)).2) ∧
      ReadingFrom c file f' (reference grows t (.fgets n)).1 := by
  dsimp only [step, reference]
  by_cases hn : n ≤ 0
  · rw [if_pos hn, Clib4.fgets, if_pos hn]
    exact ⟨f, rfl, h⟩
  · obtain ⟨f', hget, hf'⟩ := h.fgets (by omega : 0 < n)
    rw [if_neg hn, hget]
    exact ⟨f', rfl, hf'⟩

theorem fread_step (r : ElementRequest)
    (hnone : c.mode = .none → 0 < r.elementSize * r.count → f.bufferReadBytes = 0) :
    ∃ f', step f (.fread r) = .ok (f', (reference grows t (.fread r)).2) ∧
      ReadingFrom c file f' (reference grows t (.fread r)).1 := by
  have hcan : f.canRead = true := h.serves.canRead_eq.trans h.canRead
  dsimp only [step, reference]
  unfold Clib4.fread
  rw [if_neg (by simp [h.serves.inUse, hcan])]
  by_cases hpos : 0 < r.elementSize ∧ 0 < r.count
  · have htot : 0 < r.elementSize * r.count := Nat.mul_pos hpos.1 hpos.2
    obtain ⟨f', hread, hf'⟩ := h.clearerr.freadBytes htot (fun hm => hnone hm htot)
    rw [if_pos hpos, if_pos hpos, h.clearerr.fgetcCheck]
    dsimp only
    rw [if_neg (not_sizeMax_lt r.size_le), hread]
    exact ⟨f', rfl, hf'⟩
  · rw [if_neg hpos, if_neg hpos]
    exact ⟨_, rfl, h.clearerr⟩

end ReadingFrom

namespace Reading

theorem ftell_step (h : Reading c f t) (hc : c.aligned = true) (hsize : t.cells.length < 2 ^ 63)
    (hhead : t.head ≤ longMax) (grows : Bool) :
    ∃ f', step f .ftell = .ok (f', (reference grows t .ftell).2) ∧
      Reading c f' (reference grows t .ftell).1 := by
  dsimp only [step]
  rw [h.ftell hc hsize, toInt32_of_le (by omega) (by exact_mod_cast hhead)]
  exact ⟨f, rfl, h⟩

theorem fseek_step (h : Reading c f t) (hc : c.aligned = true) (offset : Long) (mode : SeekMode)
    (hcells : t.cells.length < 2 ^ 63) (hsize : seekTarget t offset mode < 2 ^ 63)
    (hsafe : SeekSafe f t.head offset mode) :
    ∃ f', step f (.fseek offset mode)
        = .ok (f', (reference c.grows t (.fseek offset mode)).2) ∧
      Reading c f' (reference c.grows t (.fseek offset mode)).1 := by
  obtain ⟨⟨f', result⟩, hseek, hf', rfl⟩ := h.fseek hc offset.2 hsize hcells hsafe
  dsimp only [step]
  rw [hseek]
  exact ⟨f', rfl, hf'⟩

end Reading

end

/-- The calls of a stream that is only read from: every `fseek` goes to a position inside the
file. -/
def StreamCall.ReadsInFile (t : Tape UInt8) : StreamCall → Prop
  | .fgetc | .fgets _ | .fread _ | .ftell => True
  | .fseek offset mode => 0 ≤ seekTarget t offset mode ∧ seekTarget t offset mode ≤ t.cells.length
  | _ => False

/-- The position of the file as the program sees it. -/
def Iob.logicalPosition (f : Iob FdFile) : ℤ :=
  f.device.dos.position - f.numUnreadBytes + f.bufferWriteBytes

/-- What a `long` has to hold in a call is held by it. -/
def StreamCall.PositionFits (f : Iob FdFile) : StreamCall → Prop
  | .fseek offset mode => SeekSafe f f.logicalPosition offset mode
  | .ftell => f.logicalPosition ≤ longMax
  | _ => True

/-- A buffered stream that has just been opened for reading only, with its position right. -/
structure OpenForReading (f : Iob FdFile) : Prop where
  opened : Opened f
  mode : f.bufferMode ≠ .none
  canRead : f.canRead = true
  reads : f.device.fd.flags.read = true
  readOnly : f.canWrite = false ∧ f.device.fd.flags.write = false
  aligned : Aligned f.device
  size_lt : f.device.dos.size < 2 ^ 63

/-- The file without buffers that a stream begins with. -/
def Opened.tape {f : Iob FdFile} (h : Opened f) : Tape UInt8 :=
  ⟨f.device.dos.contents, f.device.dos.position, h.position_le⟩

theorem Opened.reading {f : Iob FdFile} (h : Opened f) (hcan : f.canRead = true)
    (hreads : f.device.fd.flags.read = true) (haligned : Aligned f.device) :
    Reading (h.session true) f h.tape :=
  { serves := h.serves fun _ => haligned, canRead := hcan, reads := hreads
    write_zero := h.write_zero
    position_le := by rw [h.position_zero]; exact Nat.zero_le _
    read_le := by rw [h.read_zero]; exact Nat.zero_le _
    ahead := by rw [h.read_zero]; exact Nat.zero_le _
    buffer_eq := by simp [h.read_zero, window]
    cells := rfl
    length_eq := rfl
    drop_eq := rfl
    head := by simp [Iob.numUnreadBytes, h.read_zero, Opened.tape] }

/-- What a run of reading calls keeps. -/
def ReadsOnly (c : Session) (f : Iob FdFile) (t : Tape UInt8) : Prop :=
  Reading c f t ∧ t.cells.length < 2 ^ 63

theorem Reading.logicalPosition_eq {c : Session} {f : Iob FdFile} {t : Tape UInt8}
    (h : Reading c f t) : f.logicalPosition = t.head := by
  have hhead := h.head
  rw [Iob.logicalPosition, h.write_zero]
  omega

theorem ReadsOnly.step {c : Session} (hc : c.aligned = true) (hmode : c.mode ≠ .none)
    (f : Iob FdFile) (t : Tape UInt8) (call : StreamCall) (h : ReadsOnly c f t)
    (hfits : call.PositionFits f) (hcall : call.ReadsInFile t) :
    ∃ f', step f call = .ok (f', (call.reference c.grows t).2) ∧
      ReadsOnly c f' (call.reference c.grows t).1 := by
  obtain ⟨hf, hsize⟩ := h
  have hkeep : ∀ t', t'.cells = t.cells → ∀ f', ReadingFrom c t.cells f' t' →
      ReadsOnly c f' t' := by
    intro t' ht' f' hf'
    rw [ReadsOnly, Reading, ht']
    exact ⟨hf', hsize⟩
  cases call with
  | fgetc =>
    obtain ⟨f', hstep, hf'⟩ := hf.fgetc c.grows
    refine ⟨f', hstep, hkeep _ ?_ _ hf'⟩
    dsimp only [reference]
    split <;> rfl
  | fgets n =>
    obtain ⟨f', hstep, hf'⟩ := hf.fgets_step c.grows n
    refine ⟨f', hstep, hkeep _ ?_ _ hf'⟩
    dsimp only [reference]
    split <;> rfl
  | fread r =>
    obtain ⟨f', hstep, hf'⟩ := hf.fread_step c.grows r (fun hm => absurd hm hmode)
    refine ⟨f', hstep, hkeep _ ?_ _ hf'⟩
    dsimp only [reference]
    split <;> rfl
  | ftell =>
    rw [PositionFits, hf.logicalPosition_eq] at hfits
    obtain ⟨f', hstep, hf'⟩ := hf.ftell_step hc hsize (by exact_mod_cast hfits) c.grows
    exact ⟨f', hstep, hkeep _ rfl _ hf'⟩
  | fseek offset mode =>
    obtain ⟨hlow, hhigh⟩ := hcall
    rw [PositionFits, hf.logicalPosition_eq] at hfits
    obtain ⟨f', hstep, hf'⟩ := hf.fseek_step hc _ _ hsize (by omega) hfits
    refine ⟨f', hstep, hf', ?_⟩
    obtain ⟨p, hp⟩ : ∃ p : ℕ, seekTarget t offset mode = p := ⟨_, (Int.toNat_of_nonneg hlow).symm⟩
    dsimp only [reference]
    rw [hp, seekTo_of_le c.grows t (by omega)]
    exact hsize
  | fputc ch | fputs s | fwrite a | fflush => exact hcall.elim

/-- **Buffered reading.**  For every buffer size, in a run whose positions fit a `long` where they
have to, each call returns what it returns on the file without buffers; and throughout the run the
buffer's counters are in order and the position of the handle, less what has not been handed out,
is the position of that file. -/
theorem read_stream_refines {f : Iob FdFile} (h : OpenForReading f) (calls : List StreamCall)
    (hcalls : Machine.Throughout (reference false) ReadsInFile h.opened.tape calls)
    (hfits : Machine.Along step PositionFits f calls) :
    ∀ done, done <+: calls →
      ∃ f', Machine.exec step f done
          = .ok (f', (Machine.trace (reference false) h.opened.tape done).2) ∧
        f'.bufferPosition ≤ f'.bufferReadBytes ∧ f'.bufferReadBytes ≤ f'.bufferSize ∧
        (f'.device.dos.position : ℤ) - (f'.bufferReadBytes - f'.bufferPosition)
          = (Machine.trace (reference false) h.opened.tape done).1.head := by
  rintro done ⟨rest, rfl⟩
  have hgrows : (h.opened.session true).grows = false := by
    simp [Session.grows, Opened.session, h.readOnly.2]
  have hstart : ReadsOnly (h.opened.session true) f h.opened.tape :=
    ⟨h.opened.reading h.canRead h.reads h.aligned, h.size_lt⟩
  have hstep := ReadsOnly.step (c := h.opened.session true) rfl h.mode
  rw [hgrows] at hstep
  obtain ⟨f', hexec, hf', -⟩ := Machine.exec_simulates_throughout hstep done hstart
    (Machine.along_of_append hfits) (Machine.throughout_of_append hcalls)
  have hle := hf'.position_le
  have hhead := hf'.head
  rw [Iob.numUnreadBytes] at hhead
  refine ⟨f', hexec, hle, ?_, by omega⟩
  rw [hf'.serves.size_eq]
  exact hf'.read_le

/-- A stream that has just been opened for reading only. -/
def readOnlyStream (contents buffer : List UInt8) : Iob FdFile where
  canRead := true
  buffer := buffer
  bufferSize := buffer.length
  device :=
    { fd := { file := 1, flags := { read := true, inUse := true } }
      dos := { contents := contents, position := 0 } }

theorem readOnlyStream_open (contents buffer : List UInt8) (hpos : 0 < buffer.length)
    (hle : buffer.length ≤ longMax) (hlt : contents.length < 2 ^ 63) :
    OpenForReading (readOnlyStream contents buffer) :=
  { opened :=
      { inUse := rfl, size_pos := hpos, size_le := hle, buffer_eq := rfl, position_zero := rfl
        read_zero := rfl, write_zero := rfl, regular := ⟨Nat.one_ne_zero, rfl, rfl, rfl, rfl⟩
        answers_nil := rfl, position_le := Nat.zero_le _ }
    mode := nofun, canRead := rfl, reads := rfl, readOnly := ⟨rfl, rfl⟩, aligned := rfl
    size_lt := hlt }

/-- A character, a move inside the buffer of two bytes, and a line. -/
theorem read_stream_refines_small :
    ∃ f', Machine.exec step (readOnlyStream [97, 10, 98] [0, 0])
        [.fgetc, .fseek ⟨1, by decide⟩ .cur, .fgets 9]
      = .ok (f', [.int 97, .int 0, .string (some [98])]) := by
  obtain ⟨f', hexec, -⟩ := read_stream_refines
    (readOnlyStream_open [97, 10, 98] [0, 0] (by decide) (by decide) (by decide))
    [.fgetc, .fseek ⟨1, by decide⟩ .cur, .fgets 9]
    ⟨trivial, ⟨by decide, by decide⟩, trivial, trivial⟩
    ⟨trivial, fun _ => ⟨nofun, fun _ => by decide⟩, Machine.along_singleton.2 trivial⟩ _
    (List.prefix_refl _)
  exact ⟨f', hexec⟩

/-- Behind a character that has been read there is a read buffer. -/
theorem readBufferIsValid_of_getc {f f' : Iob FdFile} {z : ℤ} (h : getc fdDevice f = (f', z))
    (hz : z ≠ EOF) : f'.readBufferIsValid = true := by
  have htake : ∀ g : Iob FdFile, g.take = (f', z) → 0 < g.bufferReadBytes →
      f'.readBufferIsValid = true := by
    intro g hg hpos
    cases hg
    simpa [Iob.readBufferIsValid] using hpos
  have hfull : ∀ g : Iob FdFile, ¬ g.readBufferIsEmpty = true → 0 < g.bufferReadBytes := by
    intro g hg
    simp only [Iob.readBufferIsEmpty, Bool.or_eq_true, beq_iff_eq, not_or] at hg
    exact Nat.pos_of_ne_zero hg.1
  unfold getc fgetcRaw at h
  split_ifs at h with hlt hempty
  · exact htake f h (Nat.zero_lt_of_lt hlt)
  · split at h
    · exact absurd (congrArg Prod.snd h).symm hz
    · split_ifs at h with hfilled
      · exact absurd (congrArg Prod.snd h).symm hz
      · exact htake _ h (hfull _ hfilled)
  · exact htake f h (hfull f hempty)

/-- `fgetc` where there is a character. -/
theorem Reading.fgetc_cons {c : Session} {f : Iob FdFile} {t : Tape UInt8} {b : UInt8}
    {r : List UInt8} (h : Reading c f t) (hrest : t.rest = b :: r) :
    ∃ f', step f .fgetc = .ok (f', .int b.toNat) ∧ Reading c f' (t.advance 1) ∧
      f'.readBufferIsValid = true := by
  rcases h.getc with ⟨hnil, -⟩ | ⟨b', r', f', hcons, hget, hf', -⟩
  · rw [hrest] at hnil
    cases hnil
  · rw [hrest] at hcons
    cases hcons
    refine ⟨f', ?_, hf', readBufferIsValid_of_getc hget ?_⟩
    · simp only [step, Clib4.fgetc, h.fgetcCheck, hget]
    · simp only [EOF]
      omega

theorem reference_fgetc (grows : Bool) {t : Tape UInt8} {b : UInt8} {r : List UInt8}
    (hrest : t.rest = b :: r) : reference grows t .fgetc = (t.advance 1, .int b.toNat) := by
  simp only [reference, hrest]

theorem reference_fseek (grows : Bool) {t : Tape UInt8} (offset : Long) (mode : SeekMode) {p : ℕ}
    (hp : seekTarget t offset mode = p) (hle : p ≤ t.cells.length) :
    reference grows t (.fseek offset mode) = (t.seek p hle, .int 0) := by
  simp only [reference, hp, seekTo_of_le grows t hle]

/-- A file of `2 ^ 32` zeros and a hundred ones. -/
def hugeFile : List UInt8 := List.replicate 4294967296 0 ++ List.replicate 100 1

theorem length_hugeFile : hugeFile.length = 4294967396 := by
  simp only [hugeFile, List.length_append, List.length_replicate]

theorem drop_hugeFile_front : hugeFile.drop 10 = 0 :: hugeFile.drop 11 := by
  have hlt : 10 < hugeFile.length := by rw [length_hugeFile]; decide
  rw [List.drop_eq_getElem_cons hlt]
  rfl

theorem drop_hugeFile_back {n : ℕ} (hle : 4294967296 ≤ n) (hlt : n < 4294967396) :
    hugeFile.drop n = 1 :: hugeFile.drop (n + 1) := by
  have hlt' : n < hugeFile.length := by rw [length_hugeFile]; exact hlt
  rw [List.drop_eq_getElem_cons hlt']
  congr 1
  simp only [hugeFile, List.getElem_append, List.length_replicate, List.getElem_replicate,
    Nat.not_lt.2 hle, dite_false]

/-- Fifty bytes in front of its end a byte is read, and `fseek` is to go to the eleventh byte.  It
returns zero, but the next byte that is read is one of the hundred. -/
theorem fseek_of_huge_file :
    ∃ h : OpenForReading (readOnlyStream hugeFile [0]),
      Machine.Throughout (reference false) ReadsInFile h.opened.tape
          [.fseek ⟨-50, by decide⟩ .end, .fgetc, .fseek ⟨10, by decide⟩ .set, .fgetc] ∧
        (∃ f', Machine.exec step (readOnlyStream hugeFile [0])
            [.fseek ⟨-50, by decide⟩ .end, .fgetc, .fseek ⟨10, by decide⟩ .set, .fgetc]
          = .ok (f', [.int 0, .int 1, .int 0, .int 1])) ∧
        (Machine.trace (reference false) h.opened.tape
            [.fseek ⟨-50, by decide⟩ .end, .fgetc, .fseek ⟨10, by decide⟩ .set, .fgetc]).2
          = [.int 0, .int 1, .int 0, .int 0] := by
  have hsize := length_hugeFile
  have h := readOnlyStream_open hugeFile [0] (by decide) (by decide) (by omega)
  have hread := h.opened.reading h.canRead h.reads h.aligned
  have hcells : h.opened.tape.cells = hugeFile := rfl
  have hgrows : (h.opened.session true).grows = false := rfl
  have hc : (h.opened.session true).aligned = true := rfl
  refine ⟨h, ?_⟩
  generalize h.opened.tape = t at hread hcells ⊢
  generalize h.opened.session true = c at hread hgrows hc
  have hlen : t.cells.length = 4294967396 := by rw [hcells, hsize]
  -- to the end of the file
  have hle₁ : 4294967346 ≤ t.cells.length := by omega
  have htarget₁ : seekTarget t (-50) .end = (4294967346 : ℕ) := by
    rw [seekTarget, hlen]
    rfl
  have href₁ := reference_fseek false ⟨-50, by decide⟩ .end htarget₁ hle₁
  obtain ⟨f₁, hstep₁, hf₁⟩ := hread.fseek_step hc ⟨-50, by decide⟩ .end (by omega)
    (by rw [htarget₁]; decide) (by simp [SeekSafe])
  rw [hgrows, href₁] at hstep₁ hf₁
  -- a byte there
  have hrest₁ : (t.seek 4294967346 hle₁).rest = 1 :: hugeFile.drop 4294967347 := by
    rw [Tape.rest, Tape.cells_seek, hcells]
    exact drop_hugeFile_back (n := 4294967346) (by decide) (by decide)
  obtain ⟨f₂, hstep₂, hf₂, hvalid⟩ := hf₁.fgetc_cons hrest₁
  have href₂ := reference_fgetc false hrest₁
  have hcells₂ : ((t.seek 4294967346 hle₁).advance 1).cells = hugeFile := hcells
  have hhead₂ : ((t.seek 4294967346 hle₁).advance 1).head = 4294967347 := by
    rw [Tape.head_advance, Tape.head_seek, Tape.cells_seek, hlen]
    rfl
  generalize (t.seek 4294967346 hle₁).advance 1 = t₂ at hf₂ href₂ hcells₂ hhead₂
  have hlen₂ : t₂.cells.length = 4294967396 := by rw [hcells₂, hsize]
  -- `ftell` tells 51, and so the stream goes back by 41
  have htell : toInt32 t₂.head = 51 := by
    rw [hhead₂]
    decide
  have hlow : -2147483648 < 10 - toInt32 t₂.head := by rw [htell]; decide
  have hhigh : 10 - toInt32 t₂.head ≤ longMax := by rw [htell]; decide
  obtain ⟨⟨f₃, z⟩, hseek, hf₃, hz⟩ := hf₂.fseek_set hc (by omega) hvalid (by rw [htell]; decide)
    hlow hhigh (by rw [htell, hhead₂]; decide)
  have hle₃ : 4294967306 ≤ t₂.cells.length := by omega
  have hplace : (t₂.head : ℤ) + (10 - toInt32 t₂.head) = (4294967306 : ℕ) := by
    rw [htell, hhead₂]
    rfl
  rw [hplace, seekTo_of_le c.grows t₂ hle₃] at hf₃ hz
  obtain ⟨f₄, hstep₄, -⟩ := hf₃.fgetc_cons (b := 1) (r := hugeFile.drop 4294967307) (by
    rw [Tape.rest, Tape.cells_seek, hcells₂]
    exact drop_hugeFile_back (n := 4294967306) (by decide) (by decide))
  have hle₄ : 10 ≤ t₂.cells.length := by omega
  have href₃ := reference_fseek false ⟨10, by decide⟩ .set (p := 10) rfl hle₄
  have href₄ := reference_fgetc false (t := t₂.seek 10 hle₄) (b := 0) (r := hugeFile.drop 11) (by
    rw [Tape.rest, Tape.cells_seek, hcells₂]
    exact drop_hugeFile_front)
  refine ⟨?_, ⟨f₄, ?_⟩, ?_⟩
  · simp only [Machine.Throughout, href₁, href₂, ReadsInFile, htarget₁, true_and, and_true]
    refine ⟨⟨by decide, by exact_mod_cast hle₁⟩, ?_, ?_⟩
    · rw [seekTarget]
      decide
    · rw [seekTarget]
      exact_mod_cast hle₄
  · have hstep₃ : step f₂ (.fseek ⟨10, by decide⟩ .set) = .ok (f₃, .int 0) := by
      obtain rfl : z = 0 := hz
      simp only [step, hseek]
      rfl
    rw [Machine.exec_cons_of_ok hstep₁, Machine.exec_cons_of_ok hstep₂,
      Machine.exec_cons_of_ok hstep₃, Machine.exec_cons_of_ok hstep₄]
    rfl
  · rw [Machine.trace_cons, href₁, Machine.trace_cons, href₂, Machine.trace_cons, href₃,
      Machine.trace_cons, href₄]
    rfl

end Clib4
