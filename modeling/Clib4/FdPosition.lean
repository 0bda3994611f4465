import Clib4.Base.Machine
import Clib4.Fd

/-!
# The cached file position

A descriptor for a file on a file system keeps a copy of the position of its handle, and a
seek to the position that the copy names is not carried out at all.  So the copy has to
follow the handle through every call.  Reading and writing always keep the two together,
whatever the system answers; the seek action does unless it has to make the file longer and
cannot; `open` does not when it moves the handle of an appending descriptor to the end.

## Main definitions

* `openFile` — `open`, on a regular file.
* `Synced` — the copy is the position of the handle.
* `FdCall` — the calls on one descriptor, interleaved with changes of the file by others.
* `FdCall.KeepsPosition` — the condition on a call: a seek that lengthens the file does so by
  less than `2 ^ 31` bytes and has its requests served, or gets no memory.

## Main results

* `fd_position_eq_along` — **the copy is right after every call of a run.**
-/

namespace Clib4

open List

open DosFile (SeekMode)
open Splice

/-! ### Opening a file -/

/-- `O_RDONLY`, `O_WRONLY`, `O_RDWR`. -/
inductive AccessMode
  | rdonly | wronly | rdwr
  deriving DecidableEq, Repr

/-- The flags of `open` that matter for a regular file. -/
structure OpenFlags where
  accessMode : AccessMode
  append : Bool := false
  creat : Bool := false
  excl : Bool := false
  trunc : Bool := false
  deriving DecidableEq, Repr

/-- The bytes of the file once it is open, if it opens: `existing` are those of the file that
has the name already. -/
def openContents (existing : Option (List UInt8)) (flags : OpenFlags) : Option (List UInt8) :=
  if flags.creat || flags.accessMode ≠ .rdonly then
    if flags.excl && existing.isSome then none
    else if flags.trunc then some []
    else some (existing.getD [])
  else existing

/-- What `open` meets: the file system of the name, and what the requests to it will meet. -/
structure OpenEnv where
  /-- `IsFileSystem`, for the volume of the name. -/
  isFileSystem : Bool := true
  unixPathSemantics : Bool := true
  bytesPerBlock : ℕ := 512
  answers : List DosAnswer := []
  deriving DecidableEq, Repr

/-- `open`, on a regular file: the new descriptor with the handle that `Open` returned. -/
def openFile (env : OpenEnv) (existing : Option (List UInt8)) (flags : OpenFlags) (handle : ℕ) :
    Option FdFile :=
  (openContents existing flags).map fun contents =>
    { fd :=
        { file := handle
          flags :=
            { read := flags.accessMode ≠ .wronly
              write := flags.accessMode ≠ .rdonly
              append := flags.append
              cachePosition := env.isFileSystem
              inUse := true } }
      dos :=
        { contents := contents
          -- the handle of an appending descriptor is moved to the end; `fd_Position` is not
          position := if flags.append then contents.length else 0
          answers := env.answers }
      unixPathSemantics := env.unixPathSemantics
      bytesPerBlock := env.bytesPerBlock }

/-- The cached position is in use, and is the position of the handle. -/
def Synced (d : FdFile) : Prop :=
  d.fd.flags.cachePosition = true ∧ d.fd.position = d.dos.position

/-! ### Growing a file -/

/-- The number of `Write` requests of the filling loop of `__grow_file_size`. -/
def growWrites (bufferSize numBytes skip : ℕ) : ℕ :=
  if 0 < skip ∧ skip < min bufferSize numBytes then
    1 + (numBytes - skip + bufferSize - 1) / bufferSize
  else (numBytes + bufferSize - 1) / bufferSize

/-- The block size that `__grow_file_size` works with. -/
def growBlockSize (d : FdFile) : ℕ := max d.bytesPerBlock 512

/-- The number of requests to the system that lengthening the file by `n` bytes takes: one for
memory, and the writes. -/
def growRequests (d : FdFile) (n : ℕ) : ℕ :=
  let blockSize := growBlockSize d
  let skip := if blockSize < n ∧ d.dos.size % blockSize ≠ 0
    then blockSize - d.dos.size % blockSize else 0
  1 + growWrites (min (8 * blockSize) n) n skip

theorem growWrites_step {bufferSize numBytes : ℕ} (hb : 0 < bufferSize) (hn : 0 < numBytes)
    (skip : ℕ) :
    let size := if 0 < skip ∧ skip < min bufferSize numBytes then skip
      else min bufferSize numBytes
    growWrites bufferSize numBytes skip = 1 + growWrites bufferSize (numBytes - size) 0 := by
  simp only [growWrites, Nat.lt_irrefl, false_and, if_false]
  split
  · rfl
  · rcases Nat.le_total bufferSize numBytes with h | h
    · rw [Nat.min_eq_left h]
      have : numBytes + bufferSize - 1 = (numBytes - bufferSize + bufferSize - 1) + bufferSize := by
        omega
      rw [this, Nat.add_div_right _ hb, Nat.add_comm]
    · have hlast : numBytes + bufferSize - 1 = (numBytes - 1) + bufferSize := by omega
      have hzero : (numBytes - 1) / bufferSize = 0 := Nat.div_eq_of_lt (by omega)
      have hnone : (bufferSize - 1) / bufferSize = 0 := Nat.div_eq_of_lt (by omega)
      rw [Nat.min_eq_right h, Nat.sub_self, Nat.zero_add, hlast, Nat.add_div_right _ hb, hzero,
        hnone]

theorem answer_of_served {dos : DosFile} {k : ℕ}
    (h : ∀ a ∈ dos.answers.take (1 + k), a = .full) :
    dos.answer = .full ∧ ∀ a ∈ dos.answers.tail.take k, a = .full := by
  unfold DosFile.answer
  cases hl : dos.answers with
  | nil => simp
  | cons a l =>
    rw [hl, Nat.add_comm, take_succ_cons, forall_mem_cons] at h
    exact h

/-- A handle at the end of its file whose next `k` requests are served in full. -/
def AtEndServed (dos : DosFile) (k : ℕ) : Prop :=
  dos.position = dos.size ∧ ∀ a ∈ dos.answers.take k, a = .full

theorem write_of_atEndServed {dos : DosFile} {k : ℕ} (h : AtEndServed dos (1 + k))
    (data : List UInt8) :
    ∃ dos', dos.write data = (dos', .ok data.length) ∧ AtEndServed dos' k ∧
      dos'.contents = dos.contents ++ data ∧ dos'.answers = dos.answers.tail := by
  obtain ⟨hpos, hans⟩ := h
  obtain ⟨hfull, htail⟩ := answer_of_served hans
  have hcont : writeAt dos.contents dos.position data = dos.contents ++ data := by
    rw [hpos]
    exact writeAt_length_self _ _
  refine ⟨{ dos.answered with contents := dos.contents ++ data
                              position := dos.position + data.length }, ?_, ⟨?_, htail⟩, rfl, rfl⟩
  · simp [DosFile.write, hfull, DosFile.transferred, hcont]
  · simp [DosFile.size, hpos]

/-- The filling loop appends the zeros when its writes are served. -/
theorem run_growBody (bufferSize n : ℕ) (dos : DosFile) (skip : ℕ) (hb : 0 < n → 0 < bufferSize)
    (h : AtEndServed dos (growWrites bufferSize n skip)) (d : DosFile × Except IoErr Unit) :
    ∃ dos', (Loop.run (growBody bufferSize) (n + 1) (dos, n, skip)).getD d = (dos', .ok ()) ∧
      dos'.position = dos'.size ∧ dos'.contents = dos.contents ++ List.replicate n 0 ∧
      (dos.answers = [] → dos'.answers = []) := by
  refine Loop.getD_run_spec
    (fun s : DosFile × ℕ × ℕ => (0 < s.2.1 → 0 < bufferSize) ∧
      AtEndServed s.1 (growWrites bufferSize s.2.1 s.2.2) ∧
      s.1.contents ++ List.replicate s.2.1 0 = dos.contents ++ List.replicate n 0 ∧
      (dos.answers = [] → s.1.answers = []))
    (fun s => s.2.1)
    (fun r => ∃ dos', r = (dos', .ok ()) ∧ dos'.position = dos'.size ∧
      dos'.contents = dos.contents ++ List.replicate n 0 ∧ (dos.answers = [] → dos'.answers = []))
    ?_ (n + 1) (dos, n, skip) d ⟨hb, h, rfl, id⟩ (by simp)
  rintro ⟨dos₁, m, skip₁⟩ ⟨hb₁, hserved, hzeros, hnil⟩
  dsimp only at hb₁ hserved hzeros hnil
  rcases Nat.eq_zero_or_pos m with rfl | hm
  · right
    exact ⟨(dos₁, .ok ()), by simp [growBody], dos₁, rfl, hserved.1, by simpa using hzeros, hnil⟩
  · left
    have hstep := growWrites_step (hb₁ hm) hm skip₁
    set size := if 0 < skip₁ ∧ skip₁ < min bufferSize m then skip₁ else min bufferSize m with hsize
    have hpos : 0 < size ∧ size ≤ m := by
      rw [hsize]
      split <;> omega
    rw [hstep] at hserved
    obtain ⟨dos₂, hw, hserved₂, hc₂, ha₂⟩ := write_of_atEndServed hserved (List.replicate size 0)
    refine ⟨(dos₂, m - size, 0), ?_, ⟨fun _ => hb₁ hm, hserved₂, ?_, ?_⟩, by dsimp only; omega⟩
    · simp only [growBody, if_neg (by omega : ¬ m = 0), ← hsize, hw, length_replicate, if_true]
    · have hsum : size + (m - size) = m := by omega
      rw [hc₂, append_assoc, replicate_append_replicate, hsum, hzeros]
    · intro h0
      rw [ha₂, hnil h0, tail_nil]

/-- Every request that lengthening the file by `n` bytes makes is served in full. -/
def GrowthServed (d : FdFile) (n : ℕ) : Prop :=
  ∀ a ∈ d.dos.answers.take (growRequests d n), a = .full

variable {d : FdFile} {n : ℕ}

/-- **A growth whose requests are served** appends zeros and leaves the handle at the end. -/
theorem growFileSize_of_served (hmax : n ≤ longMax) (h : GrowthServed d n) :
    ∃ dos', growFileSize d n = .ok ({ d with dos := dos' }, .ok ()) ∧ dos'.position = dos'.size ∧
      dos'.contents = d.dos.contents ++ List.replicate n 0 ∧
      (d.dos.answers = [] → dos'.answers = []) := by
  obtain ⟨hfull, htail⟩ := answer_of_served h
  have hend : d.dos.answered.changeFilePosition 0 .end
      = some { d.dos.answered with position := d.dos.size } :=
    DosFile.changeFilePosition_of_mem (by simp [DosFile.target, DosFile.size, DosFile.answered])
      (by simp [DosFile.size, DosFile.answered])
  obtain ⟨dos', hrun, hpos, hc, hnil⟩ := run_growBody (min (8 * growBlockSize d) n) n
    { d.dos.answered with position := d.dos.size }
    (if growBlockSize d < n ∧ d.dos.size % growBlockSize d ≠ 0
      then growBlockSize d - d.dos.size % growBlockSize d else 0)
    (by unfold growBlockSize; omega)
    ⟨rfl, htail⟩ ({ d.dos.answered with position := d.dos.size }, .error .diskFull)
  refine ⟨dos', ?_, hpos, hc, fun h0 => hnil (by simp [h0])⟩
  have hfits : ¬ ((min (8 * (max d.bytesPerBlock 512 : ℕ) : ℤ) n % 2 ^ 32).toNat + 31) % 2 ^ 32 <
      (min (8 * (max d.bytesPerBlock 512 : ℕ) : ℤ) n % 2 ^ 32).toNat := by
    unfold longMax at hmax
    omega
  simp only [growFileSize, hfull, if_neg hfits, hend, Int.toNat_natCast]
  rw [growBlockSize] at hrun
  rw [hrun]

/-! ### The actions keep the copy -/

/-- Whatever the system answers, the read action keeps the copy. -/
theorem fdHookRead_synced (h : Synced d) (n : ℕ) : Synced (fdHookRead d n).1 := by
  obtain ⟨hcache, hpos⟩ := h
  unfold fdHookRead
  split
  · exact ⟨hcache, hpos⟩
  split
  · split
    · exact ⟨hcache, hpos⟩
    · unfold DosFile.read
      cases DosFile.transferred n d.dos.answer with
      | error e => exact ⟨hcache, hpos⟩
      | ok k => exact ⟨hcache, by simp [hpos]⟩
  · exact ⟨hcache, hpos⟩

/-- Whatever the system answers, writing at the position of the handle keeps the copy. -/
theorem writeHere_synced (h : Synced d) (data : List UInt8) : Synced (d.writeHere data).1 := by
  obtain ⟨hcache, hpos⟩ := h
  unfold FdFile.writeHere DosFile.write
  cases DosFile.transferred data.length d.dos.answer with
  | error e => exact ⟨hcache, hpos⟩
  | ok k => exact ⟨hcache, by simp [hpos]⟩

/-- The position of the next write: the end of the file for an appending descriptor. -/
def FdFile.writePosition (d : FdFile) : ℕ :=
  if d.fd.flags.append then d.dos.size else d.dos.position

/-- What the write action can do: fail for want of a file, or write where the next write goes. -/
theorem fdHookWrite_cases (d : FdFile) (data : List UInt8) :
    ¬ (d.fd.file ≠ 0 ∧ d.fd.isPlain = true) ∧ (fdHookWrite d data).1 = d ∧
        (fdHookWrite d data).2.result = -1 ∨
      (d.fd.file ≠ 0 ∧ d.fd.isPlain = true) ∧ ∃ p : ℤ, (Synced d → p = d.writePosition) ∧
        fdHookWrite d data = FdFile.writeHere
          { d with dos := { d.dos with position := d.writePosition }
                   fd := { d.fd with position := p } } data := by
  unfold fdHookWrite
  split
  case isTrue hfile => exact .inl ⟨fun h => h.1 hfile, rfl, rfl⟩
  split
  case isFalse hplain => exact .inl ⟨fun h => hplain h.2, rfl, rfl⟩
  case isFalse.isTrue hfile hplain =>
    refine .inr ⟨⟨hfile, hplain⟩, ?_⟩
    rw [FdFile.writePosition]
    cases d.fd.flags.append with
    | false => exact ⟨d.fd.position, fun h => h.2, rfl⟩
    | true =>
      have hmove : d.dos.changeFilePosition 0 .end = some { d.dos with position := d.dos.size } :=
        DosFile.changeFilePosition_of_mem (by simp [DosFile.target]) le_rfl
      rw [FdFile.atEnd, hmove]
      exact ⟨_, fun h => if_pos h.1, rfl⟩

/-- Whatever the system answers, the write action keeps the copy. -/
theorem fdHookWrite_synced (h : Synced d) (data : List UInt8) : Synced (fdHookWrite d data).1 := by
  rcases fdHookWrite_cases d data with ⟨-, hsame, -⟩ | ⟨-, p, hp, heq⟩
  · rw [hsame]
    exact h
  · rw [heq]
    refine writeHere_synced ?_ data
    exact ⟨h.1, hp h⟩

/-- The condition under which growing the file to a position behind its end keeps the copy:
there is no memory to start with, or the number of bytes fits an `int` and every request is
served. -/
def GrowthKeeps (d : FdFile) (new : ℤ) : Prop :=
  (∃ ioErr, d.dos.answer = .fail ioErr) ∨
    new - d.dos.size ≤ longMax ∧ GrowthServed d (new - d.dos.size).toNat

/-- A growth that is served leaves the handle and the copy at the position asked for. -/
theorem growTo_of_served (hmax : n ≤ longMax) (h : GrowthServed d n) :
    ∃ dos', d.growTo (d.dos.size + n) =
        ({ d with dos := dos', fd := { d.fd with position := (d.dos.size + n : ℕ) } },
          { result := (d.dos.size + n : ℕ) }) ∧
      dos'.position = d.dos.size + n ∧ dos'.contents = d.dos.contents ++ List.replicate n 0 ∧
      (d.dos.answers = [] → dos'.answers = []) := by
  obtain ⟨dos', hgrow, hpos, hc, hnil⟩ := growFileSize_of_served hmax h
  refine ⟨dos', ?_, ?_, hc, hnil⟩
  · have hn : toInt32 ((d.dos.size : ℤ) + n - d.dos.size) = n := by
      rw [toInt32_of_le (by omega) (by omega)]
      omega
    simp only [FdFile.growTo, hn, hgrow]
    simp
  · rw [hpos, DosFile.size, hc]
    simp [DosFile.size]

theorem growTo_of_noFreeStore {new : ℤ} {ioErr : IoErr} (h : d.dos.answer = .fail ioErr) :
    d.growTo new = ({ d with dos := d.dos.answered },
      { result := -1, error := some (translateIoErrorToErrno .noFreeStore) }) := by
  simp only [FdFile.growTo, growFileSize, h]

/-- Growing to a position behind the end returns and keeps the copy, under the condition. -/
theorem growTo_synced (h : Synced d) {new : ℤ} (hsize : d.dos.size < new)
    (hkeeps : GrowthKeeps d new) : Synced (d.growTo new).1 ∧ (d.growTo new).2.fault = none := by
  rcases hkeeps with ⟨ioErr, hnone⟩ | ⟨hmax, hserved⟩
  · rw [growTo_of_noFreeStore hnone]
    exact ⟨h, rfl⟩
  · obtain ⟨n, rfl⟩ : ∃ n : ℕ, new = d.dos.size + n := ⟨(new - d.dos.size).toNat, by omega⟩
    have hn : ((d.dos.size : ℤ) + n - d.dos.size).toNat = n := by omega
    rw [hn] at hserved
    obtain ⟨dos', hgrow, hpos, -⟩ := growTo_of_served (by omega) hserved
    rw [hgrow]
    exact ⟨⟨h.1, by simp [hpos]⟩, rfl⟩

/-- What the seek action can do: nothing, move the handle and the copy, or make the file longer. -/
theorem fdHookSeek_rec (P : FdFile → Option Fault → Prop) {offset : ℤ} {mode : SeekMode}
    (h : P d none)
    (hmoves : ∀ dos : DosFile,
      P { d with dos := dos, fd := { d.fd with position := dos.position } } none)
    (hgrows : d.fd.flags.write = true → d.unixPathSemantics = true →
      (d.dos.size : ℤ) < d.newPosition offset mode →
        P (d.growTo (d.newPosition offset mode)).1
          (d.growTo (d.newPosition offset mode)).2.fault) :
    P (fdHookSeek d offset mode).1 (fdHookSeek d offset mode).2.fault := by
  unfold fdHookSeek
  split
  · exact h
  split
  · split
    · exact hmoves { d.dos with position := 0 }
    split
    · exact h
    · cases hmove : d.dos.changeFilePosition offset mode with
      | some dos => exact hmoves dos
      | none =>
        dsimp only [FdFile.seekFailed]
        split
        · next hbehind =>
          rw [Bool.and_eq_true, decide_eq_true_eq] at hbehind
          split
          · next hwrite => exact hgrows hwrite hbehind.1 hbehind.2
          · exact h
        · exact h
  · exact h

/-- **The seek action keeps the copy**, unless it has to make the file longer and cannot. -/
theorem fdHookSeek_synced (h : Synced d) (offset : ℤ) (mode : SeekMode)
    (hkeeps : d.fd.flags.write = true → d.unixPathSemantics = true →
      (d.dos.size : ℤ) < d.newPosition offset mode → GrowthKeeps d (d.newPosition offset mode)) :
    Synced (fdHookSeek d offset mode).1 ∧ (fdHookSeek d offset mode).2.fault = none := by
  refine fdHookSeek_rec (fun d fault => Synced d ∧ fault = none) ⟨h, rfl⟩
    (fun _ => ⟨⟨h.1, rfl⟩, rfl⟩) ?_
  intro hwrite hunix hbehind
  exact growTo_synced h hbehind (hkeeps hwrite hunix hbehind)

/-! ### What the actions leave alone -/

/-- The entry of an open regular file. -/
structure Fd.Regular (fd : Fd) : Prop where
  file_ne : fd.file ≠ 0
  plain : fd.isPlain = true
  notMarked : fd.flags.stdinReadMark = false
  notSocket : fd.flags.stdinAsSocket = false
  notInteractive : fd.flags.isInteractive = false

/-- Two states of an entry that refer to one handle and have the same flags. -/
def Fd.Same (fd fd' : Fd) : Prop := fd'.flags = fd.flags ∧ fd'.file = fd.file

theorem Fd.Same.refl (fd : Fd) : fd.Same fd := ⟨rfl, rfl⟩

theorem Fd.Same.trans {fd₁ fd₂ fd₃ : Fd} (h : fd₁.Same fd₂) (h' : fd₂.Same fd₃) :
    fd₁.Same fd₃ := ⟨h'.1.trans h.1, h'.2.trans h.2⟩

theorem Fd.Regular.of_same {fd fd' : Fd} (h : fd.Regular) (hsame : fd.Same fd') : fd'.Regular := by
  obtain ⟨hflags, hfile⟩ := hsame
  refine ⟨?_, ?_, ?_, ?_, ?_⟩
  · rw [hfile]; exact h.file_ne
  · rw [Fd.isPlain, hflags]; exact h.plain
  · rw [hflags]; exact h.notMarked
  · rw [hflags]; exact h.notSocket
  · rw [hflags]; exact h.notInteractive

/-- On a regular file the read action leaves the entry alone but for the copy. -/
theorem fdHookRead_same (h : d.fd.Regular) (n : ℕ) : d.fd.Same (fdHookRead d n).1.fd := by
  unfold fdHookRead
  rw [if_neg h.file_ne, if_pos h.plain, if_neg (by simp [h.notMarked])]
  rcases d.dos.read n with ⟨dos, ioErr | data⟩
  · exact .refl _
  · refine ⟨?_, rfl⟩
    have hmark : (d.fd.flags.stdinAsSocket && endsLine data) = d.fd.flags.stdinReadMark := by
      rw [h.notSocket, h.notMarked, Bool.false_and]
    dsimp only
    rw [hmark]

theorem writeHere_same (d : FdFile) (data : List UInt8) : d.fd.Same (d.writeHere data).1.fd := by
  unfold FdFile.writeHere
  rcases d.dos.write data with ⟨dos, ioErr | n⟩ <;> exact .refl _

theorem fdHookWrite_same (d : FdFile) (data : List UInt8) :
    d.fd.Same (fdHookWrite d data).1.fd := by
  rcases fdHookWrite_cases d data with ⟨-, hsame, -⟩ | ⟨-, p, -, heq⟩
  · rw [hsame]
    exact .refl _
  · rw [heq]
    exact writeHere_same _ data

theorem growFileSize_fd {d d' : FdFile} {n : ℤ} {status : Except IoErr Unit}
    (h : growFileSize d n = .ok (d', status)) : d'.fd = d.fd := by
  unfold growFileSize at h
  dsimp only at h
  split at h
  · cases h
    rfl
  split at h
  · cases h
  split at h <;> cases h <;> rfl

theorem growTo_same (d : FdFile) (new : ℤ) : d.fd.Same (d.growTo new).1.fd := by
  unfold FdFile.growTo
  split
  · exact .refl _
  all_goals
    next heq =>
    have hfd := growFileSize_fd heq
    exact ⟨by rw [← hfd], by rw [← hfd]⟩

theorem fdHookSeek_same (d : FdFile) (offset : ℤ) (mode : SeekMode) :
    d.fd.Same (fdHookSeek d offset mode).1.fd :=
  fdHookSeek_rec (fun d' _ => d.fd.Same d'.fd) (.refl _) (fun _ => ⟨rfl, rfl⟩)
    fun _ _ _ => growTo_same d _

/-! ### Runs -/

/-- A call on one descriptor; `outside` is a change of the file by somebody else, through
another descriptor or in another program. -/
inductive FdCall
  | read (numBytes : ℕ)
  | write (data : List UInt8)
  | lseek (offset : ℤ) (mode : SeekMode)
  | outside (contents : List UInt8)

/-- The result of a call, and the bytes that it stored for the caller. -/
abbrev FdReply := ℤ × List UInt8

namespace FdCall

/-- One call. -/
def step (d : FdFile) : FdCall → Except Fault (FdFile × FdReply)
  | read n =>
    let (d, result, data) := d.read n
    .ok (d, result, data)
  | write data =>
    let (d, result) := d.write data
    .ok (d, result, [])
  | lseek offset mode =>
    let (d, reply) := fdHookSeek d offset mode
    match reply.fault with
    | some fault => .error fault
    | none => .ok (d, reply.result, [])
  | outside contents => .ok ({ d with dos := { d.dos with contents := contents } }, 0, [])

/-- The condition on a call: a seek that makes the file longer does so by less than `2 ^ 31`
bytes and has its requests served, or finds no memory at all. -/
def KeepsPosition (d : FdFile) : FdCall → Prop
  | lseek offset mode =>
    d.fd.flags.write = true → d.unixPathSemantics = true →
      (d.dos.size : ℤ) < d.newPosition offset mode → GrowthKeeps d (d.newPosition offset mode)
  | _ => True

/-- What a run keeps: the entry refers to the same handle, and the copy is right. -/
def Kept (fd : Fd) (d : FdFile) : Prop := Synced d ∧ fd.Same d.fd

variable {fd : Fd}

theorem read_kept (hfd : fd.Regular) {d : FdFile} (h : Kept fd d) (n : ℕ) :
    Kept fd (d.read n).1 := by
  unfold FdFile.read
  split
  · exact h
  split
  · exact h
  · exact ⟨fdHookRead_synced h.1 n, h.2.trans (fdHookRead_same (hfd.of_same h.2) n)⟩

theorem write_kept {d : FdFile} (h : Kept fd d) (data : List UInt8) : Kept fd (d.write data).1 := by
  unfold FdFile.write
  split
  · exact h
  split
  · exact h
  · exact ⟨fdHookWrite_synced h.1 data, h.2.trans (fdHookWrite_same d data)⟩

theorem step_kept (hfd : fd.Regular) (d : FdFile) (call : FdCall) (h : Kept fd d)
    (hcall : call.KeepsPosition d) :
    ∃ d' reply, step d call = .ok (d', reply) ∧ Kept fd d' := by
  cases call with
  | read n => exact ⟨_, _, rfl, read_kept hfd h n⟩
  | write data => exact ⟨_, _, rfl, write_kept h data⟩
  | lseek offset mode =>
    obtain ⟨hsynced, hfault⟩ := fdHookSeek_synced h.1 offset mode hcall
    refine ⟨_, ((fdHookSeek d offset mode).2.result, []), ?_, hsynced,
      h.2.trans (fdHookSeek_same d offset mode)⟩
    simp only [step, hfault]
  | outside contents => exact ⟨_, _, rfl, h⟩

end FdCall

/-! ### The copy through a run -/

/-- A seek to a position of the file goes there when the copy is right. -/
theorem lseek_set_of_synced (h : Synced d) (hfd : d.fd.Regular) {p : ℕ} (hp : p ≤ d.dos.size) :
    ∃ fd', d.lseek p .set = ({ d with fd := fd', dos := { d.dos with position := p } }, (p : ℤ)) ∧
      d.fd.Same fd' := by
  have hmove : d.dos.changeFilePosition p .set = some { d.dos with position := p } :=
    DosFile.changeFilePosition_of_mem rfl hp
  have hnew : d.newPosition p .set = p := rfl
  unfold FdFile.lseek fdHookSeek
  rw [if_neg hfd.file_ne, if_pos hfd.plain, hnew, if_neg (by omega : ¬ (p : ℤ) < 0)]
  by_cases heq : (p : ℤ) = d.currentPosition
  · -- the seek is optimised away: the handle is at `p` already
    have hpos : d.dos.position = p := by
      rw [FdFile.currentPosition, if_pos h.1, h.2] at heq
      omega
    rw [if_pos heq, ← hpos]
    exact ⟨d.fd, rfl, .refl _⟩
  · rw [if_neg heq, hmove]
    exact ⟨{ d.fd with position := p }, rfl, rfl, rfl⟩

/-- What `read` returns on a regular file: the bytes at the position of the handle. -/
theorem read_of_regular (hfd : d.fd.Regular) (hread : d.fd.flags.read = true) (hn : 0 < n) :
    (d.read n).2 = match DosFile.transferred n d.dos.answer with
      | .ok k => ((window d.dos.contents d.dos.position k).length,
          window d.dos.contents d.dos.position k)
      | .error _ => (-1, []) := by
  unfold FdFile.read fdHookRead
  rw [if_neg (by simp [hread]), if_neg (by omega), if_neg hfd.file_ne, if_pos hfd.plain,
    if_neg (by simp [hfd.notMarked])]
  unfold DosFile.read
  cases DosFile.transferred n d.dos.answer <;> rfl

theorem openFile_regular {env : OpenEnv} {existing : Option (List UInt8)} {flags : OpenFlags}
    {handle : ℕ} (h : openFile env existing flags handle = some d) (hhandle : handle ≠ 0) :
    d.fd.Regular := by
  obtain ⟨contents, -, rfl⟩ := Option.map_eq_some_iff.1 h
  exact ⟨hhandle, rfl, rfl, rfl, rfl⟩

/-- `open` leaves the copy right exactly when it does not move the handle. -/
theorem openFile_synced_iff {env : OpenEnv} {existing : Option (List UInt8)} {flags : OpenFlags}
    {handle : ℕ} (h : openFile env existing flags handle = some d)
    (hcache : d.fd.flags.cachePosition = true) :
    Synced d ↔ (flags.append = true → d.dos.contents = []) := by
  obtain ⟨contents, -, rfl⟩ := Option.map_eq_some_iff.1 h
  dsimp only at hcache ⊢
  unfold Synced
  cases flags.append with
  | false => simp [hcache]
  | true => simp [hcache, eq_comm]

/-- **The copy is right after every call of a run**, and a seek followed by a read returns the
bytes at the position that the seek named, when the file was not opened to append to contents
it already had and every seek of the run meets the condition. -/
theorem fd_position_eq_along {env : OpenEnv} {existing : Option (List UInt8)} {flags : OpenFlags}
    {handle : ℕ} {d : FdFile} (hopen : openFile env existing flags handle = some d)
    (hhandle : handle ≠ 0) (hcache : d.fd.flags.cachePosition = true)
    (hend : flags.append = true → d.dos.contents = []) (calls : List FdCall)
    (halong : Machine.Along FdCall.step FdCall.KeepsPosition d calls) :
    ∀ done, done <+: calls →
      ∃ d' replies, Machine.exec FdCall.step d done = .ok (d', replies) ∧
        d'.fd.position = d'.dos.position ∧
        (d'.fd.flags.read = true → ∀ p ≤ d'.dos.size, ∀ n, 0 < n →
          ((d'.lseek p .set).1.read n).2 =
            match DosFile.transferred n d'.dos.answer with
            | .ok k => ((window d'.dos.contents p k).length, window d'.dos.contents p k)
            | .error _ => (-1, [])) := by
  rintro done ⟨rest, rfl⟩
  have hfd := openFile_regular hopen hhandle
  have hkept : FdCall.Kept d.fd d := ⟨(openFile_synced_iff hopen hcache).2 hend, .refl _⟩
  obtain ⟨d', replies, hexec, hsynced, hsame⟩ := Machine.exec_invariant (FdCall.step_kept hfd)
    done hkept (Machine.along_of_append halong)
  refine ⟨d', replies, hexec, hsynced.2, ?_⟩
  intro hread p hp n hn
  have hfd' := hfd.of_same hsame
  obtain ⟨fd', hseek, hsame'⟩ := lseek_set_of_synced hsynced hfd' hp
  rw [hseek]
  exact read_of_regular (hfd'.of_same hsame') (by rw [← hread]; exact congrArg _ hsame'.1) hn

/-- An empty file that is opened to append, written to, and made longer by a seek. -/
theorem fd_position_eq_along_append :
    ∃ d d' replies,
      openFile {} none { accessMode := .rdwr, append := true, creat := true } 1 = some d ∧
      Machine.exec FdCall.step d [.write [97, 98], .lseek 5 .set] = .ok (d', replies) ∧
      d'.fd.position = d'.dos.position := by
  have hopen : openFile {} none { accessMode := .rdwr, append := true, creat := true } 1
      = some _ := rfl
  obtain ⟨d', replies, hexec, hpos, -⟩ := fd_position_eq_along hopen (by decide) rfl
    (fun _ => rfl) [.write [97, 98], .lseek 5 .set]
    ⟨trivial, fun _ _ _ => .inr ⟨by decide, by intro a ha; cases ha⟩, trivial⟩ _
    (prefix_refl _)
  exact ⟨_, d', replies, hopen, hexec, hpos⟩

/-- `open` of a file that has the bytes `abc`, to append to it and to read: the copy is 0 and
the handle is at 3.  So a seek to the start does nothing, and the read after it returns no
byte. -/
theorem open_append_position :
    ∃ d, openFile {} (some [97, 98, 99]) { accessMode := .rdwr, append := true } 1 = some d ∧
      d.fd.flags.cachePosition = true ∧ d.fd.position = 0 ∧ d.dos.position = 3 ∧
      ((d.lseek 0 .set).1.read 3).2 = (0, []) :=
  ⟨_, rfl, rfl, rfl, rfl, by decide⟩

end Clib4
