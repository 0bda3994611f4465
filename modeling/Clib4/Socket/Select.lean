import Clib4.Base.Polling
import Clib4.Socket.SelectSets
import Clib4.Time.DateStamp

/-!
# `__select`

`__select` waits for sockets with `WaitSelect` and for files by looking at them again and again.  If
both are watched, it does so in turn, with `WaitSelect` as a mere question; between two passes the
sets are restored from copies.  What a pass is told by the system is a `Pass`, and a run has the
list of its passes.  The answer of `WaitSelect` keeps its contract: it leaves a part of each set and
returns the number of bits that are left, or fails.

## Main definitions

* `Call`, `Pass` — what the call is given, and what the system answers in a pass.
* `pass`, `select` — a pass of `__select`, and the call.

## Main results

* `pollFiles_spec` — **a look at the files leaves those that are ready.**
-/

namespace Clib4.Socket

open Clib4.Time

/-! ### The call and its surroundings -/

/-- What is asked for a character: standard input or a file handle. -/
inductive Handle
  | input
  | file (fh : ℕ)
  deriving DecidableEq, Repr

/-- An answer of `WaitSelect`: it fails, or these sockets are ready. -/
inductive WaitAnswer
  | error
  | ready (sockets : Kind → FdSet)

/-- The answers of the system in a pass: the signals that have arrived, `WaitSelect`, and for each
descriptor `WaitForChar` and the size that `ExamineObjectTags` gives; and the clock at the end. -/
structure Pass where
  signals : UInt32
  waitSelect : WaitAnswer
  waitForChar : ℕ → Handle → Bool
  examine : ℕ → Option ℕ
  now : ClockReading

/-- The arguments of `__select`, the descriptors, the answers of `ExamineObjectTags` before the
first pass, the clock at that time, and what the library knows of the break signal. -/
structure Call where
  numFds : ℕ
  table : Table
  request : Kind → FdSet
  timeout : Option Timeval
  signalMask : Option UInt32
  examined : Kind → ℕ → Option Bool
  start : ClockReading
  checkAbortEnabled : Bool
  breakSignalMask : UInt32

namespace Call

variable (c : Call)

/-- The sets of sockets and files. -/
def mapping : Mapping := mapAll c.table c.numFds c.request c.examined

def numSocketUsed : ℕ := (getNumDescriptorsUsed c.table c.numFds).1

def numFileUsed : ℕ := (getNumDescriptorsUsed c.table c.numFds).2

/-- The timeout is given and not zero. -/
def hasTime : Bool :=
  match c.timeout with
  | none => false
  | some tv => decide (0 < tv.sec ∨ 0 < tv.usec)

/-- `signal_mask`. -/
def mask : UInt32 := c.signalMask.getD 0

/-- The signals that `WaitSelect` waits for. -/
def breakMask : UInt32 := c.mask ||| if c.checkAbortEnabled then c.breakSignalMask else 0

def stopWhen : DateStamp :=
  match c.timeout with
  | none => ⟨0, 0, 0⟩
  | some tv => addDates c.start.toDateStamp (timevalToDatestamp tv)

/-- The clock has come to `stop_when`. -/
def isOver (p : Pass) : Bool := decide (compareDates p.now.toDateStamp c.stopWhen ≤ 0)

end Call

/-! ### The files -/

namespace Pass

variable (p : Pass)

/-- There is something to read in a file or a pipe. -/
def hasData (fd : Descriptor) (i : ℕ) : Bool :=
  match p.examine i with
  | none => false
  | some size => if fd.cachePosition then decide (fd.position < (size % 2 ^ 32 : ℕ)) else size != 0

/-- The test for input beside sockets. -/
def hasInputBoth (fd : Descriptor) (i : ℕ) : Bool :=
  fd.read &&
    if fd.poll then p.waitForChar i .input
    else if fd.isInteractive then
      if i = stdinFileno then p.waitForChar i .input else p.waitForChar i (.file fd.file)
    else p.hasData fd i

/-- The test for input if there are only files. -/
def hasInputFiles (fd : Descriptor) (i : ℕ) : Bool :=
  let readFile := if i = stdinFileno then .input else .file fd.file
  fd.read &&
    if fd.poll then true
    else if fd.termios then p.waitForChar i readFile
    else if fd.nonBlocking then true
    else if fd.isInteractive then p.waitForChar i readFile
    else p.hasData fd i

/-- The tests beside sockets. -/
def testBoth (fd : Descriptor) (i : ℕ) : Kind → Bool
  | .read => p.hasInputBoth fd i
  | .write => fd.write || fd.poll
  | .except => false

/-- The tests if there are only files. -/
def testFiles (fd : Descriptor) (i : ℕ) : Kind → Bool
  | .read => p.hasInputFiles fd i
  | .write => fd.write
  | .except => false

end Pass

section Files

variable (t : Table) (test : Descriptor → ℕ → Kind → Bool)

/-- `got_input` and `got_output`. -/
def ready (files : Kind → FdSet) (k : Kind) (i : ℕ) : Bool :=
  match t i with
  | none => false
  | some fd => decide (i ∈ files k) && test fd i k

/-- One round of the loop over the files: the sets, and the number of descriptors that are ready. -/
def pollFile (v : (Kind → FdSet) × ℕ) (i : ℕ) : (Kind → FdSet) × ℕ :=
  (fun k => if ready t test v.1 k i then v.1 k else (v.1 k).clr i,
    if ready t test v.1 .read i || ready t test v.1 .write i then v.2 + 1 else v.2)

/-- A look at all files. -/
def pollFiles (files : Kind → FdSet) (total result : ℕ) : (Kind → FdSet) × ℕ :=
  (List.range total).foldl (pollFile t test) (files, result)

variable {t test} {files : Kind → FdSet}

theorem mem_of_ready {k : Kind} {i : ℕ} (h : ready t test files k i = true) : i ∈ files k := by
  unfold ready at h
  split at h
  · cases h
  · exact of_decide_eq_true (Bool.and_eq_true_iff.1 h).1

theorem ready_congr {files' : Kind → FdSet} {i : ℕ} (h : ∀ k, i ∈ files' k ↔ i ∈ files k)
    (k : Kind) : ready t test files' k i = ready t test files k i := by
  unfold ready
  split
  · rfl
  · rw [decide_eq_decide.2 (h k)]

/-- After some rounds: the descriptors that have been looked at are left if they are ready. -/
theorem pollFiles_rounds (t : Table) (test : Descriptor → ℕ → Kind → Bool) (files : Kind → FdSet)
    (result n : ℕ) :
    (∀ k i, i ∈ (pollFiles t test files n result).1 k ↔
        i ∈ files k ∧ (i < n → ready t test files k i = true)) ∧
      (pollFiles t test files n result).2 = result + ((Finset.range n).filter fun i =>
        ready t test files .read i = true ∨ ready t test files .write i = true).card := by
  induction n with
  | zero => simp [pollFiles]
  | succ n ih =>
    obtain ⟨hmem, hcount⟩ := ih
    have hstep : pollFiles t test files (n + 1) result =
        pollFile t test (pollFiles t test files n result) n := by
      rw [pollFiles, List.range_succ, List.foldl_append]
      rfl
    have hready : ∀ k, ready t test (pollFiles t test files n result).1 k n =
        ready t test files k n := ready_congr fun k => by simp [hmem]
    rw [hstep, pollFile, Finset.range_add_one, Finset.filter_insert]
    simp only [hready]
    constructor
    · intro k i
      by_cases hk : ready t test files k n = true
      · rw [if_pos hk, hmem]
        refine and_congr_right fun _ => ⟨fun h hi => ?_, fun h hi => h (by omega)⟩
        obtain hlt | rfl := Nat.lt_succ_iff_lt_or_eq.1 hi
        · exact h hlt
        · exact hk
      · rw [if_neg hk, FdSet.mem_clr, hmem]
        constructor
        · rintro ⟨hne, hi, h⟩
          exact ⟨hi, fun hlt => h (by omega)⟩
        · rintro ⟨hi, h⟩
          refine ⟨?_, hi, fun hlt => h (by omega)⟩
          rintro rfl
          exact hk (h (Nat.lt_succ_self i))
    · by_cases hn : ready t test files .read n = true ∨ ready t test files .write n = true
      · rw [if_pos hn, if_pos (Bool.or_eq_true_iff.2 hn), Finset.card_insert_of_notMem (by simp),
          hcount, Nat.add_assoc]
      · rw [if_neg hn, if_neg (fun h => hn (Bool.or_eq_true_iff.1 h)), hcount]

/-- **A look at the files leaves those that are ready**, and counts a descriptor once. -/
theorem pollFiles_spec (t : Table) (test : Descriptor → ℕ → Kind → Bool) {total : ℕ}
    (hlt : ∀ k, ∀ i ∈ files k, i < total) (result : ℕ) :
    (∀ k i, i ∈ (pollFiles t test files total result).1 k ↔ ready t test files k i = true) ∧
      (pollFiles t test files total result).2 = result +
        (((pollFiles t test files total result).1 .read).bits ∪
          ((pollFiles t test files total result).1 .write).bits).card := by
  obtain ⟨hmem, hcount⟩ := pollFiles_rounds t test files result total
  have hmem' : ∀ k i, i ∈ (pollFiles t test files total result).1 k ↔
      ready t test files k i = true := by
    intro k i
    rw [hmem]
    exact ⟨fun h => h.2 (hlt k i h.1), fun h => ⟨mem_of_ready h, fun _ => h⟩⟩
  refine ⟨hmem', ?_⟩
  rw [hcount]
  congr 2
  ext i
  rw [Finset.mem_filter, Finset.mem_range, Finset.mem_union, ← FdSet.mem_def, ← FdSet.mem_def,
    hmem', hmem', and_iff_right_iff_imp]
  rintro (h | h)
  · exact hlt _ i (mem_of_ready h)
  · exact hlt _ i (mem_of_ready h)

end Files

/-! ### A pass -/

/-- The sets between two passes: sockets and files. -/
abbrev PollSets := (Kind → FdSet) × (Kind → FdSet)

/-- The end of the passes: the result, the sets, the caller's signals.  For the statements about it
also what `WaitSelect` reported, and what the tests of the files in this pass have said. -/
structure Ending where
  result : ℤ
  sockets : Kind → FdSet
  files : Kind → FdSet
  signalMask : Option UInt32
  reported : Kind → FdSet
  tested : Kind → ℕ → Bool

/-- `WaitSelect`: the sets that it leaves, or nothing if it fails. -/
def waitSelect (sockets : Kind → FdSet) : WaitAnswer → Option (Kind → FdSet)
  | .error => none
  | .ready answer => some fun k => (sockets k).restrict (answer k)

/-- The return value of `WaitSelect`. -/
def bitCount (sets : Kind → FdSet) : ℕ := ∑ k, (sets k).card

namespace Call

variable (c : Call)

/-- `*signal_mask_ptr`, which is cleared at the start, gets the signals that have arrived. -/
def maskAfter (received : UInt32) : Option UInt32 :=
  c.signalMask.map fun mask => if received &&& mask ≠ 0 then mask &&& received else 0

/-- The sets of sockets are restored. -/
def restoreSockets (m : Mapping) (sockets : Kind → FdSet) : Kind → FdSet :=
  fun k => (sockets k).copy (m.sockets k) c.numSocketUsed

/-- The sets of files are restored. -/
def restoreFiles (m : Mapping) (files : Kind → FdSet) : Kind → FdSet :=
  fun k => (files k).copy (m.files k) c.numFileUsed

/-- A pass over sockets and files. -/
def passBoth (m : Mapping) (v : PollSets) (p : Pass) : PollSets ⊕ Ending :=
  let ending : Ending :=
    { result := 0, sockets := v.1, files := v.2, signalMask := c.signalMask.map fun _ => 0,
      reported := fun _ => .empty, tested := fun _ _ => false }
  -- `CheckSignal(*signal_mask_ptr)`, with the mask that has been cleared
  if c.signalMask.isSome ∧ p.signals &&& 0 ≠ 0 then .inr ending
  else
    let received := p.signals &&& c.breakMask
    match waitSelect v.1 p.waitSelect with
    | none => .inr { ending with result := -1, signalMask := c.maskAfter received }
    | some sockets =>
      if bitCount sockets = 0 ∧ c.signalMask.isSome then
        .inr { ending with
          sockets, reported := sockets
          signalMask := some (received &&& ~~~ c.breakSignalMask) }
      else
        let polled := pollFiles m.table p.testBoth v.2 m.totalFile (bitCount sockets)
        let ending : Ending :=
          { result := polled.2, sockets, files := polled.1, signalMask := c.maskAfter received,
            reported := sockets, tested := ready m.table p.testBoth v.2 }
        if c.signalMask.isSome ∧ received &&& c.mask ≠ 0 then .inr ending
        else if 0 < polled.2 then .inr ending
        else if c.timeout.isSome ∧ c.isOver p then .inr ending
        else .inl (c.restoreSockets m sockets, c.restoreFiles m polled.1)

/-- The only pass if there are no files, or if there is no time: `WaitSelect` with the caller's
timeout. -/
def passSockets (v : PollSets) (p : Pass) : Ending :=
  let received := p.signals &&& c.breakMask
  let ending : Ending :=
    { result := -1, sockets := v.1, files := v.2, signalMask := c.maskAfter received,
      reported := fun _ => .empty, tested := fun _ _ => false }
  match waitSelect v.1 p.waitSelect with
  | none => ending
  | some sockets => { ending with result := bitCount sockets, sockets, reported := sockets }

/-- A pass over files. -/
def passFiles (m : Mapping) (v : PollSets) (p : Pass) : PollSets ⊕ Ending :=
  let polled := pollFiles m.table p.testFiles v.2 m.totalFile 0
  let ending : Ending :=
    { result := polled.2, sockets := v.1, files := polled.1, signalMask := c.maskAfter p.signals,
      reported := fun _ => .empty, tested := ready m.table p.testFiles v.2 }
  if c.mask ≠ 0 ∧ p.signals &&& c.mask ≠ 0 then .inr ending
  else if 0 < polled.2 then .inr ending
  else if c.hasTime ∧ c.isOver p then .inr ending
  else .inl (v.1, c.restoreFiles m polled.1)

/-- A pass of `__select`. -/
def pass (m : Mapping) (v : PollSets) (p : Pass) : PollSets ⊕ Ending :=
  if 0 < m.totalSocket then
    if 0 < m.totalFile ∧ (c.timeout.isNone ∨ c.hasTime) then c.passBoth m v p
    else .inr (c.passSockets v p)
  else c.passFiles m v p

end Call

/-- What `__select` returns: the result, the caller's sets and signals; and what is known of the
last pass. -/
structure Outcome where
  result : ℤ
  sets : Kind → FdSet
  signalMask : Option UInt32
  reported : Kind → FdSet
  tested : Kind → ℕ → Bool

namespace Call

variable (c : Call)

/-- The caller's sets are written if there is no error. -/
def finish (m : Mapping) (e : Ending) : Outcome where
  result := e.result
  sets k :=
    if 0 ≤ e.result then
      remapDescriptorSets m.table (e.sockets k) m.totalSocket (e.files k)
        (if k = .except then 0 else m.totalFile) (c.request k) c.numFds
    else c.request k
  signalMask := e.signalMask
  reported := e.reported
  tested := e.tested

/-- `__select`, if it returns in the last of the passes. -/
def select (passes : List Pass) : Option Outcome :=
  let m := c.mapping
  (Polling.run (c.pass m) (m.sockets, m.files) passes).map (c.finish m)

end Call

end Clib4.Socket
