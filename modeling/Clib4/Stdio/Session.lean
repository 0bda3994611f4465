import Clib4.FdPosition
import Clib4.Stdio.Iob

/-!
# Streams on ordinary files

What stays the same while a stream is used on a regular file whose requests are all served:
its mode, its buffer's size and the handle of its descriptor.  These are a `Session`; the
relations between a stream and the file it stands for, in `Clib4.Stdio.Writing` and
`Clib4.Stdio.Reading`, are all relative to one.

## Main definitions

* `Steady` — a descriptor of a regular file that no request fails on.
* `Opened` — a stream that has just been opened, and begins a session.

## Main results

* `fdHookWrite_of_steady`, `fdHookRead_of_steady`, `fdHookSeek_of_steady` — what the actions do
  when every request is served.
-/

namespace Clib4

open DosFile (SeekMode)
open Splice

/-! ### Ordinary files -/

/-- The copy of the position, where there is one, is right. -/
def Aligned (d : FdFile) : Prop := d.currentPosition = d.dos.position

theorem aligned_iff {d : FdFile} :
    Aligned d ↔ (d.fd.flags.cachePosition = true → Synced d) := by
  unfold Aligned FdFile.currentPosition Synced
  split <;> simp_all

/-- A descriptor of a regular file whose requests are all served; `fd` is its entry but for the
copy of the position. -/
structure Steady (fd : Fd) (d : FdFile) : Prop where
  regular : fd.Regular
  same : fd.Same d.fd
  answers_nil : d.dos.answers = []
  position_le : d.dos.position ≤ d.dos.size

namespace Steady

variable {fd : Fd} {d : FdFile}

theorem here (h : Steady fd d) : d.fd.Regular := h.regular.of_same h.same

/-- Moving the handle and the copy, and changing the file, leave the descriptor as it is. -/
theorem set (h : Steady fd d) {contents : List UInt8} {p : ℕ} (hp : p ≤ contents.length)
    (q : ℤ) :
    Steady fd { d with dos := { d.dos with contents := contents, position := p }
                       fd := { d.fd with position := q } } :=
  ⟨h.regular, h.same, h.answers_nil, hp⟩

end Steady

theorem Steady.writePosition_le {fd : Fd} {d : FdFile} (h : Steady fd d) :
    d.writePosition ≤ d.dos.size := by
  unfold FdFile.writePosition
  split
  · exact le_rfl
  · exact h.position_le

theorem aligned_of_synced {d d' : FdFile} (h : Aligned d) (hsame : d.fd.Same d'.fd)
    (hsynced : Synced d → Synced d') : Aligned d' := by
  rw [aligned_iff] at h ⊢
  intro hcache
  rw [hsame.1] at hcache
  exact hsynced (h hcache)

/-- **The write action, served**: the bytes are stored where the next write goes. -/
theorem fdHookWrite_of_steady {fd : Fd} {d : FdFile} (h : Steady fd d) (data : List UInt8) :
    ∃ d', fdHookWrite d data = (d', { result := data.length }) ∧ Steady fd d' ∧
      d'.unixPathSemantics = d.unixPathSemantics ∧
      d'.dos.contents = writeAt d.dos.contents d.writePosition data ∧
      d'.writePosition = d.writePosition + data.length ∧ (Aligned d → Aligned d') := by
  have hsame := fdHookWrite_same d data
  have haligned : Aligned d → Aligned (fdHookWrite d data).1 :=
    fun ha => aligned_of_synced ha hsame fun hs => fdHookWrite_synced hs data
  obtain ⟨hnot, -⟩ | ⟨-, p, -, heq⟩ := fdHookWrite_cases d data
  · exact absurd ⟨h.here.file_ne, h.here.plain⟩ hnot
  have hmoved : Steady fd { d with dos := { d.dos with position := d.writePosition }
                                   fd := { d.fd with position := p } } :=
    h.set h.writePosition_le p
  rw [heq, FdFile.writeHere, DosFile.write_of_answers_nil hmoved.answers_nil] at haligned ⊢
  refine ⟨_, rfl, hmoved.set (le_length_writeAt h.writePosition_le data) _, rfl, rfl, ?_, haligned⟩
  cases happend : d.fd.flags.append with
  | false => simp [FdFile.writePosition, happend]
  | true => simp [FdFile.writePosition, happend, DosFile.size, writeAt_length_self]

/-- **The read action, served**: the bytes at the position of the handle. -/
theorem fdHookRead_of_steady {fd : Fd} {d : FdFile} (h : Steady fd d) (n : ℕ) :
    ∃ d', fdHookRead d n = (d', { result := (window d.dos.contents d.dos.position n).length
                                  data := window d.dos.contents d.dos.position n }) ∧
      Steady fd d' ∧ d'.unixPathSemantics = d.unixPathSemantics ∧
      d'.dos.contents = d.dos.contents ∧
      d'.dos.position = d.dos.position + (window d.dos.contents d.dos.position n).length ∧
      (Aligned d → Aligned d') := by
  have hsame := fdHookRead_same h.here n
  have haligned : Aligned d → Aligned (fdHookRead d n).1 :=
    fun ha => aligned_of_synced ha hsame fun hs => fdHookRead_synced hs n
  have hpos := h.position_le
  rw [DosFile.size] at hpos
  unfold fdHookRead at hsame haligned ⊢
  rw [if_neg h.here.file_ne, if_pos h.here.plain, if_neg (by simp [h.here.notMarked]),
    DosFile.read_of_answers_nil h.answers_nil] at hsame haligned ⊢
  refine ⟨_, rfl, ⟨h.regular, h.same.trans hsame, h.answers_nil, ?_⟩, rfl, rfl, rfl, haligned⟩
  simp only [DosFile.size, length_window]
  omega

/-- **The seek action, to a position inside the file.** -/
theorem fdHookSeek_of_steady {fd : Fd} {d : FdFile} (h : Steady fd d) (haligned : Aligned d)
    {offset : ℤ} {mode : SeekMode} {p : ℕ} (hnew : d.newPosition offset mode = p)
    (htarget : d.dos.target offset mode = p) (hp : p ≤ d.dos.size) :
    ∃ d', fdHookSeek d offset mode = (d', { result := p }) ∧ Steady fd d' ∧
      d'.unixPathSemantics = d.unixPathSemantics ∧ d'.dos.contents = d.dos.contents ∧
      d'.dos.position = p ∧ Aligned d' := by
  have hmove := DosFile.changeFilePosition_of_mem htarget hp
  unfold fdHookSeek
  rw [if_neg h.here.file_ne, if_pos h.here.plain, hnew, if_neg (by omega : ¬ (p : ℤ) < 0)]
  by_cases heq : (p : ℤ) = d.currentPosition
  · rw [if_pos heq]
    rw [haligned] at heq
    exact ⟨d, rfl, h, rfl, rfl, by omega, haligned⟩
  · rw [if_neg heq, hmove]
    refine ⟨_, rfl, h.set hp _, rfl, rfl, rfl, ?_⟩
    simp [Aligned, FdFile.currentPosition]

/-! ### Sessions -/

/-- What stays the same while a stream is used. -/
structure Session where
  mode : BufferMode
  bufferSize : ℕ
  canRead : Bool
  canWrite : Bool
  /-- The descriptor's entry, but for the copy of the position. -/
  fd : Fd
  unixPathSemantics : Bool
  /-- Whether the copy of the position is right. -/
  aligned : Bool
  size_pos : 0 < bufferSize
  /-- The largest size that `setvbuf` accepts. -/
  size_le : bufferSize ≤ longMax

/-- The stream belongs to the session. -/
structure Session.Serves (c : Session) (f : Iob FdFile) : Prop where
  mode_eq : f.bufferMode = c.mode
  size_eq : f.bufferSize = c.bufferSize
  buffer_eq : f.buffer.length = c.bufferSize
  canRead_eq : f.canRead = c.canRead
  canWrite_eq : f.canWrite = c.canWrite
  inUse : f.inUse = true
  unix_eq : f.device.unixPathSemantics = c.unixPathSemantics
  steady : Steady c.fd f.device
  aligned : c.aligned = true → Aligned f.device

/-! ### Flushing -/

section

variable {σ : Type} {dev : Device σ} {f : Iob σ}

theorem flush_of_result {d : σ} {n : ℕ} (hin : f.inUse = true) (hpos : 0 < f.bufferWriteBytes)
    (haction : dev.action f.device (.write f.pending) = (d, { result := n })) :
    flushIobWriteBuffer dev f = ({ f with device := d, bufferWriteBytes := 0 }, .ok) := by
  have hne : ¬ ((n : ℤ) = EOF) := by
    unfold EOF
    omega
  rw [flushIobWriteBuffer, if_pos (by simp [hin, hpos]), haction]
  exact if_neg hne

end

/-! ### Opening a session -/

/-- A stream that has just been opened on a regular file whose requests are all served. -/
structure Opened (f : Iob FdFile) : Prop where
  inUse : f.inUse = true
  size_pos : 0 < f.bufferSize
  /-- The largest size that `setvbuf` accepts. -/
  size_le : f.bufferSize ≤ longMax
  buffer_eq : f.buffer.length = f.bufferSize
  position_zero : f.bufferPosition = 0
  read_zero : f.bufferReadBytes = 0
  write_zero : f.bufferWriteBytes = 0
  regular : f.device.fd.Regular
  answers_nil : f.device.dos.answers = []
  position_le : f.device.dos.position ≤ f.device.dos.size

namespace Opened

variable {f : Iob FdFile}

theorem steady (h : Opened f) : Steady f.device.fd f.device :=
  ⟨h.regular, .refl _, h.answers_nil, h.position_le⟩

/-- The session that the stream begins. -/
def session (h : Opened f) (aligned : Bool) : Session :=
  { mode := f.bufferMode, bufferSize := f.bufferSize, canRead := f.canRead
    canWrite := f.canWrite, fd := f.device.fd, unixPathSemantics := f.device.unixPathSemantics
    aligned := aligned, size_pos := h.size_pos, size_le := h.size_le }

theorem serves (h : Opened f) {aligned : Bool} (haligned : aligned = true → Aligned f.device) :
    (h.session aligned).Serves f :=
  { mode_eq := rfl, size_eq := rfl, buffer_eq := h.buffer_eq, canRead_eq := rfl
    canWrite_eq := rfl, inUse := h.inUse, unix_eq := rfl, steady := h.steady
    aligned := haligned }

end Opened

end Clib4
