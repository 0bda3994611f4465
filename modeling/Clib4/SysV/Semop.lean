import Clib4.Dos

/-!
# SysV semaphores: the critical section of semop

A set is an array of semaphores, each with its value and two lists of sleeping processes: those
that wait for the value to grow, and those that wait for it to become zero.  `semop` goes over
its operations twice.  The first loop tests each of them against the values as they are; the
second one, if all pass, adds them up.

The first loop admits the number `sem_nsems`, one beyond the array.  And `GetUndo`, which looks
for the caller's adjustments of the set, does not advance in its list: it ends only if the first
one is that of the set, or if there is none at all.  Nor does the second loop test that a sum has
32 bits.

## Main definitions

* `semopSection` — the section, with what is stored of a sum as a parameter;
* `AllOrNothing` — the call has done all or nothing, inside the array;
* `Regular` — the operations reach a number beyond the set, or they stay inside of it, the search
  for the adjustments ends and the sums have 32 bits.

## Main results

* `semop_allOrNothing_iff` — **when the section does all or nothing.**
-/

namespace Clib4.SysV

open List

/-! ### The data -/

/-- A process. -/
abbrev Pid := ℕ

/-- `struct sem`; a list holds the processes whose nodes are in it. -/
structure Sem where
  semval : ℤ
  sempid : Pid
  semncnt : UInt16
  semzcnt : UInt16
  zList : List Pid
  nList : List Pid
  deriving DecidableEq, Repr

def semSetup : Sem where
  semval := 1
  sempid := 0
  semncnt := 0
  semzcnt := 0
  zList := []
  nList := []

/-- `struct sembuf`, with the two flags that are looked at. -/
structure Sembuf where
  num : ℕ
  op : ℤ
  nowait : Bool := false
  undo : Bool := false
  deriving DecidableEq, Repr

/-- `struct UndoInfo`, without the link. -/
structure UndoInfo where
  id : ℕ
  adj : List ℤ
  deriving DecidableEq, Repr

/-- The local variables of `semop` that live on while it sleeps; of `ui` only whether it has
been looked up. -/
structure Locals where
  n : ℕ := 0
  zW : Bool := false
  nW : Bool := false
  ui : Bool := false
  deriving DecidableEq, Repr

/-- The values of a set. -/
def values (sems : List Sem) : List ℤ := sems.map Sem.semval

@[simp] theorem length_values (sems : List Sem) : (values sems).length = sems.length := by
  simp [values]

/-- Change a semaphore of a set; nothing if there is none of that number. -/
def modifySem (n : ℕ) (f : Sem → Sem) (sems : List Sem) : Option (List Sem) :=
  if n < sems.length then some (sems.modify n f) else none

/-- One of the two lists of a semaphore: `zList` or `nList`. -/
def Sem.waiters (zero : Bool) (sem : Sem) : List Pid := if zero then sem.zList else sem.nList

/-- Replace one of the two lists. -/
def Sem.setWaiters (zero : Bool) (ps : List Pid) (sem : Sem) : Sem :=
  if zero then { sem with zList := ps } else { sem with nList := ps }

/-- Change the number of those who wait. -/
def Sem.count (zero : Bool) (f : UInt16 → UInt16) (sem : Sem) : Sem :=
  if zero then { sem with semzcnt := f sem.semzcnt } else { sem with semncnt := f sem.semncnt }

/-! ### The first loop -/

/-- `GetUndo`: the adjustments of the caller afterwards, with those of the set in front if there
are any.  There is no result if the first ones are those of another set: the search stays
there. -/
def getUndo (undo : List UndoInfo) (semid nsems : ℕ) (create : Bool) : Option (List UndoInfo) :=
  match undo with
  | [] => some (if create then [⟨semid, List.replicate nsems 0⟩] else [])
  | u :: us => if u.id = semid then some (u :: us) else none

/-- The outcome of the test of one operation. -/
inductive OpVerdict
  | passes
  | failed (e : Errno)
  | blocks
  /-- An element outside of the array is read. -/
  | stray
  /-- The search for the adjustments does not end. -/
  | spins
  deriving DecidableEq, Repr

/-- The test of an operation whose number has been admitted. -/
def testOp (values : List ℤ) (o : Sembuf) : OpVerdict :=
  -- incrementing always succeeds, and does not look at the semaphore
  if 0 < o.op then .passes
  else
    match values[o.num]? with
    | none => .stray
    | some semval =>
      if (if o.op < 0 then semval < -o.op else 0 < semval) then
        if o.nowait then .failed .EAGAIN else .blocks
      else .passes

/-- One turn of the first loop: the verdict, and what is known of the adjustments. -/
def scanOp (semid : ℕ) (values : List ℤ) (o : Sembuf) (ui : Bool) (undo : List UndoInfo) :
    OpVerdict × Bool × List UndoInfo :=
  if values.length < o.num then (.failed .EFBIG, ui, undo)
  else if o.undo && !ui then
    match getUndo undo semid values.length true with
    | none => (.spins, ui, undo)
    | some undo => (testOp values o, true, undo)
  else (testOp values o, ui, undo)

/-- The outcome of the first loop. -/
inductive Verdict
  | passed
  | failed (e : Errno)
  | blocked (o : Sembuf)
  | stray
  | spins
  deriving DecidableEq, Repr

/-- The first loop. -/
def scan (semid : ℕ) (values : List ℤ) :
    List Sembuf → Bool → List UndoInfo → Verdict × Bool × List UndoInfo
  | [], ui, undo => (.passed, ui, undo)
  | o :: ops, ui, undo =>
    match scanOp semid values o ui undo with
    | (.passes, ui, undo) => scan semid values ops ui undo
    | (.failed e, ui, undo) => (.failed e, ui, undo)
    | (.blocks, ui, undo) => (.blocked o, ui, undo)
    | (.stray, ui, undo) => (.stray, ui, undo)
    | (.spins, ui, undo) => (.spins, ui, undo)

/-! ### The second loop -/

/-- `ui->Adj[n] -= t`, where `ui` is the first of the caller's adjustments. -/
def adjust (o : Sembuf) (undo : List UndoInfo) : List UndoInfo :=
  if o.undo then undo.modifyHead fun u => { u with adj := u.adj.modify o.num (· - o.op) }
  else undo

/-- The list that is woken after an operation. -/
def wakes (o : Sembuf) (semval : ℤ) : Option Bool :=
  if semval = 0 then some true else if 0 < o.op then some false else none

/-- The change that an operation makes to its semaphore.  `wrap` says what is stored of a sum: in
the code, where values have 32 bits, it is `toInt32`; with the identity values do not overflow. -/
def Sem.apply (wrap : ℤ → ℤ) (pid : Pid) (o : Sembuf) (sem : Sem) : Sem :=
  { sem with semval := wrap (sem.semval + o.op), sempid := pid }

/-- One turn of the second loop, with `WakeList`: the set and the processes that are woken.
There is no result if an element outside of the array is changed. -/
def applyOp (wrap : ℤ → ℤ) (pid : Pid) (o : Sembuf) (sems : List Sem) :
    Option (List Sem × List Pid) :=
  match sems[o.num]? with
  | none => none
  | some sem =>
    let sem := sem.apply wrap pid o
    match wakes o sem.semval with
    | none => some (sems.set o.num sem, [])
    | some zero => some (sems.set o.num (sem.setWaiters zero []), sem.waiters zero)

/-- The second loop. -/
def applyAll (wrap : ℤ → ℤ) (pid : Pid) :
    List Sembuf → List Sem → List UndoInfo → Option (List Sem × List UndoInfo × List Pid)
  | [], sems, undo => some (sems, undo, [])
  | o :: ops, sems, undo => do
    let (sems, woken) ← applyOp wrap pid o sems
    let (sems, undo, woken') ← applyAll wrap pid ops sems (adjust o undo)
    some (sems, undo, woken ++ woken')

/-! ### The section -/

/-- Take back the count of one who waited, if the call did. -/
def uncount (waited zero : Bool) (n : ℕ) (sems : List Sem) : Option (List Sem) :=
  if waited then modifySem n (Sem.count zero (· - 1)) sems else some sems

/-- The counters that the call has raised before it slept. -/
def recount (l : Locals) (sems : List Sem) : Option (List Sem) :=
  (uncount l.zW true l.n sems).bind (uncount l.nW false l.n)

/-- `RequestWakeup`: the caller is put at the end of the list, and counted. -/
def Sem.enqueue (pid : Pid) (zero : Bool) (sem : Sem) : Sem :=
  (sem.count zero (· + 1)).setWaiters zero (sem.waiters zero ++ [pid])

/-- The outcome of the section. -/
inductive Outcome
  | done (sems : List Sem) (undo : List UndoInfo) (woken : List Pid)
  | failed (e : Errno) (sems : List Sem) (undo : List UndoInfo)
  | sleeps (sems : List Sem) (undo : List UndoInfo) (l : Locals)
  /-- An element outside of the array is read or changed. -/
  | stray
  /-- The section does not end. -/
  | spins
  deriving DecidableEq, Repr

/-- What `semop` does between `ObtainSemaphore(si->Lock)` and `ReleaseSemaphore(si->Lock)`. -/
def semopSection (wrap : ℤ → ℤ) (semid : ℕ) (pid : Pid) (sems : List Sem) (undo : List UndoInfo)
    (l : Locals) (ops : List Sembuf) : Outcome :=
  match recount l sems with
  | none => .stray
  | some sems =>
    match scan semid (values sems) ops l.ui undo with
    | (.passed, _, undo) =>
      match applyAll wrap pid ops sems undo with
      | none => .stray
      | some (sems, undo, woken) => .done sems undo woken
    | (.failed e, _, undo) => .failed e sems undo
    | (.blocked o, ui, undo) =>
      .sleeps (sems.modify o.num (Sem.enqueue pid (decide (o.op = 0)))) undo
        { n := o.num, zW := decide (o.op = 0), nW := decide (o.op < 0), ui := ui }
    | (.stray, _, _) => .stray
    | (.spins, _, _) => .spins

/-! ### The first loop, without its bookkeeping -/

/-- The search for the adjustments would not end. -/
def stuck (semid : ℕ) (ui : Bool) (undo : List UndoInfo) : Bool :=
  !ui && undo.head?.any fun u => u.id != semid

variable {undo : List UndoInfo} {semid : ℕ} {o : Sembuf} {ops : List Sembuf} {sems sems' : List Sem}
  {woken : List Pid} {l : Locals} {wrap : ℤ → ℤ} {n : ℕ}

theorem getUndo_eq_none {nsems : ℕ} {create : Bool} :
    getUndo undo semid nsems create = none ↔ stuck semid false undo = true := by
  cases undo <;> simp [getUndo, stuck]

theorem scanOp_of_lt {values : List ℤ} (h : values.length < o.num) (semid : ℕ) (ui : Bool)
    (undo : List UndoInfo) :
    scanOp semid values o ui undo = (.failed .EFBIG, ui, undo) := by
  simp [scanOp, h]

theorem scanOp_of_stuck {values : List ℤ} {ui : Bool} (h : o.num ≤ values.length)
    (hundo : o.undo = true) (hstuck : stuck semid ui undo = true) :
    scanOp semid values o ui undo = (.spins, ui, undo) := by
  cases ui with
  | true => cases hstuck
  | false =>
    rw [scanOp, if_neg (by omega), if_pos (by simp [hundo]), getUndo_eq_none.2 hstuck]

/-- Otherwise the operation is tested, and whether the search is stuck does not change. -/
theorem scanOp_of_searches {values : List ℤ} {ui : Bool} (h : o.num ≤ values.length)
    (hstuck : ¬ (o.undo = true ∧ stuck semid ui undo = true)) :
    ∃ ui' undo', scanOp semid values o ui undo = (testOp values o, ui', undo') ∧
      stuck semid ui' undo' = stuck semid ui undo := by
  rw [scanOp, if_neg (by omega)]
  cases hundo : o.undo with
  | false => exact ⟨ui, undo, by simp, rfl⟩
  | true =>
    cases ui with
    | true => exact ⟨true, undo, by simp, rfl⟩
    | false =>
      have hno : stuck semid false undo = false := by simpa [hundo] using hstuck
      cases hget : getUndo undo semid values.length true with
      | none => rw [getUndo_eq_none.1 hget] at hno; cases hno
      | some undo' => exact ⟨true, undo', by simp, hno.symm⟩

/-- The outcome of the first loop as a function of whether the search is stuck. -/
def verdict (values : List ℤ) (stuck : Bool) : List Sembuf → Verdict
  | [] => .passed
  | o :: ops =>
    if values.length < o.num then .failed .EFBIG
    else if o.undo = true ∧ stuck = true then .spins
    else
      match testOp values o with
      | .passes => verdict values stuck ops
      | .failed e => .failed e
      | .blocks => .blocked o
      | .stray => .stray
      | .spins => .spins

theorem scan_fst (semid : ℕ) (values : List ℤ) (ops : List Sembuf) (ui : Bool)
    (undo : List UndoInfo) :
    (scan semid values ops ui undo).1 = verdict values (stuck semid ui undo) ops := by
  induction ops generalizing ui undo with
  | nil => rfl
  | cons o ops ih =>
    rw [scan, verdict]
    by_cases hnum : values.length < o.num
    · rw [scanOp_of_lt hnum, if_pos hnum]
    · have hle : o.num ≤ values.length := Nat.le_of_not_lt hnum
      rw [if_neg hnum]
      by_cases hstuck : o.undo = true ∧ stuck semid ui undo = true
      · rw [scanOp_of_stuck hle hstuck.1 hstuck.2, if_pos hstuck]
      · obtain ⟨ui', undo', hscan, hsame⟩ := scanOp_of_searches hle hstuck
        rw [hscan, if_neg hstuck]
        cases testOp values o with
        | passes => rw [← hsame]; exact ih ui' undo'
        | failed e | blocks | stray | spins => rfl

/-! ### What the two loops do -/

/-- The sum of the operations on a semaphore. -/
def total (ops : List Sembuf) (n : ℕ) : ℤ :=
  match ops with
  | [] => 0
  | o :: ops => (if o.num = n then o.op else 0) + total ops n

@[simp] theorem total_nil (n : ℕ) : total [] n = 0 := rfl

@[simp] theorem total_cons (o : Sembuf) (ops : List Sembuf) (n : ℕ) :
    total (o :: ops) n = (if o.num = n then o.op else 0) + total ops n := rfl

theorem testOp_ne_spins (values : List ℤ) (o : Sembuf) : testOp values o ≠ .spins := by
  unfold testOp
  grind

theorem testOp_ne_efbig (values : List ℤ) (o : Sembuf) : testOp values o ≠ .failed .EFBIG := by
  unfold testOp
  grind

theorem testOp_ne_stray {values : List ℤ} (h : o.num < values.length) :
    testOp values o ≠ .stray := by
  unfold testOp
  grind

theorem verdict_eq_passed {values : List ℤ} {stuck : Bool} : verdict values stuck ops = .passed ↔
      ∀ o ∈ ops, o.num ≤ values.length ∧ ¬ (o.undo = true ∧ stuck = true) ∧
        testOp values o = .passes := by
  fun_induction verdict values stuck ops with
  | case1 => simp
  | case2 o ops hnum => simp [hnum]
  | case3 o ops hnum hstuck => simp [hstuck]
  | case4 o ops hnum hstuck htest ih =>
    rw [ih, forall_mem_cons]
    simp [Nat.le_of_not_lt hnum, hstuck, htest]
  | _ => simp [*]

@[simp] theorem values_set (sems : List Sem) (n : ℕ) (sem : Sem) :
    values (sems.set n sem) = (values sems).set n sem.semval := by
  simp [values]

@[simp] theorem semval_setWaiters (zero : Bool) (ps : List Pid) (sem : Sem) :
    (sem.setWaiters zero ps).semval = sem.semval := by
  cases zero <;> rfl

@[simp] theorem semval_count (zero : Bool) (f : UInt16 → UInt16) (sem : Sem) :
    (sem.count zero f).semval = sem.semval := by
  cases zero <;> rfl

theorem values_applyOp {pid : Pid} (h : applyOp wrap pid o sems = some (sems', woken)) :
    ∃ sem, sems[o.num]? = some sem ∧
      values sems' = (values sems).set o.num (wrap (sem.semval + o.op)) := by
  unfold applyOp at h
  cases hsem : sems[o.num]? with
  | none => rw [hsem] at h; cases h
  | some sem =>
    rw [hsem] at h
    refine ⟨sem, rfl, ?_⟩
    dsimp only at h
    cases hwakes : wakes o (sem.apply wrap pid o).semval with
    | none => rw [hwakes] at h; cases h; rw [values_set]; rfl
    | some zero =>
      rw [hwakes] at h
      cases h
      rw [values_set, semval_setWaiters]
      rfl

theorem getElem?_values_applyOp {pid : Pid}
    (h : applyOp wrap pid o sems = some (sems', woken)) (n : ℕ) :
    (values sems')[n]? =
      (values sems)[n]?.map fun v => if o.num = n then wrap (v + o.op) else v := by
  obtain ⟨sem, hsem, hvalues⟩ := values_applyOp h
  have hval : (values sems)[o.num]? = some sem.semval := by simp [values, hsem]
  rw [hvalues]
  by_cases hn : o.num = n
  · subst hn
    obtain ⟨hlt, -⟩ := List.getElem?_eq_some_iff.1 hval
    rw [getElem?_set_self hlt, hval]
    simp
  · simp [hn]

theorem length_applyOp {pid : Pid} (h : applyOp wrap pid o sems = some (sems', woken)) :
    sems'.length = sems.length := by
  obtain ⟨sem, -, hvalues⟩ := values_applyOp h
  rw [← length_values, hvalues, length_set, length_values]

theorem applyOp_isSome {pid : Pid} : (applyOp wrap pid o sems).isSome ↔ o.num < sems.length := by
  unfold applyOp
  cases hsem : sems[o.num]? with
  | none => simpa using hsem
  | some sem =>
    obtain ⟨hlt, -⟩ := List.getElem?_eq_some_iff.1 hsem
    dsimp only
    cases wakes o (sem.apply wrap pid o).semval <;> simp [hlt]

/-- The second loop stays in the array exactly if all numbers do. -/
theorem applyAll_isSome {pid : Pid} :
    (applyAll wrap pid ops sems undo).isSome ↔ ∀ o ∈ ops, o.num < sems.length := by
  induction ops generalizing sems undo with
  | nil => simp [applyAll]
  | cons o ops ih =>
    rw [applyAll, forall_mem_cons, ← applyOp_isSome]
    cases hop : applyOp wrap pid o sems with
    | none => simp
    | some p =>
      obtain ⟨sems', woken⟩ := p
      have hrest : (applyAll wrap pid ops sems' (adjust o undo)).isSome ↔ _ := ih
      rw [length_applyOp hop] at hrest
      rw [← hrest]
      cases hall : applyAll wrap pid ops sems' (adjust o undo) <;> simp [hall]

theorem total_eq_zero (h : ¬ ∃ o ∈ ops, o.num = n) : total ops n = 0 := by
  induction ops with
  | nil => rfl
  | cons o ops ih =>
    rw [exists_mem_cons_iff, not_or] at h
    rw [total_cons, if_neg h.1, ih h.2, add_zero]

/-- What becomes of a value: the sum of the operations on it, if there are any, is added. -/
def settled (wrap : ℤ → ℤ) (ops : List Sembuf) (n : ℕ) (v : ℤ) : ℤ :=
  if ∃ o ∈ ops, o.num = n then wrap (v + total ops n) else v

theorem settled_nil (wrap : ℤ → ℤ) (n : ℕ) : settled wrap [] n = id := by
  funext v
  simp [settled]

theorem settled_id (ops : List Sembuf) (n : ℕ) : settled id ops n = (· + total ops n) := by
  funext v
  unfold settled
  split_ifs with hany
  · rfl
  · rw [total_eq_zero hany, add_zero]

theorem settled_cons (hwrap : ∀ a b, wrap (wrap a + b) = wrap (a + b)) (o : Sembuf)
    (ops : List Sembuf) (n : ℕ) (v : ℤ) :
    settled wrap ops n (if o.num = n then wrap (v + o.op) else v) =
      settled wrap (o :: ops) n v := by
  unfold settled
  simp only [exists_mem_cons_iff, total_cons]
  by_cases ho : o.num = n
  · by_cases hany : ∃ o ∈ ops, o.num = n
    · simp only [ho, hany, if_true, or_self, hwrap, add_assoc]
    · simp only [ho, hany, if_true, if_false, true_or, total_eq_zero hany, add_zero]
  · simp only [ho, if_false, false_or, zero_add]

/-- The second loop adds to each value the sum of the operations on it. -/
theorem values_applyAll {pid : Pid} {undo' : List UndoInfo}
    (hwrap : ∀ a b, wrap (wrap a + b) = wrap (a + b))
    (h : applyAll wrap pid ops sems undo = some (sems', undo', woken)) (n : ℕ) :
    (values sems')[n]? = (values sems)[n]?.map (settled wrap ops n) := by
  induction ops generalizing sems undo woken with
  | nil =>
    cases h
    rw [settled_nil, Option.map_id, id]
  | cons o ops ih =>
    rw [applyAll] at h
    cases hop : applyOp wrap pid o sems with
    | none => rw [hop] at h; cases h
    | some p =>
      obtain ⟨sems₁, woken₁⟩ := p
      rw [hop] at h
      cases hrest : applyAll wrap pid ops sems₁ (adjust o undo) with
      | none => simp [hrest] at h
      | some q =>
        simp only [Option.bind_eq_bind, Option.bind_some, hrest] at h
        obtain ⟨rfl, rfl, rfl⟩ := h
        rw [ih hrest, getElem?_values_applyOp hop, Option.map_map]
        congr 1
        funext v
        exact settled_cons hwrap o ops n v

/-! ### All or nothing -/

/-- The semaphore that a call has slept on exists. -/
def Locals.Fits (l : Locals) (nsems : ℕ) : Prop := l.zW = true ∨ l.nW = true → l.n < nsems

/-- The call has applied every operation, or it has left all values alone, and in the latter
case an operation outside of the set makes it fail with `EFBIG`. -/
def AllOrNothing (sems : List Sem) (ops : List Sembuf) : Outcome → Prop
  | .done sems' _ _ =>
    (∀ o ∈ ops, o.num < sems.length) ∧
      ∀ n : ℕ, (values sems')[n]? = (values sems)[n]?.map (· + total ops n)
  | .failed e sems' _ =>
    values sems' = values sems ∧ ((∃ o ∈ ops, sems.length ≤ o.num) → e = .EFBIG)
  | .sleeps sems' _ _ => values sems' = values sems ∧ ∀ o ∈ ops, o.num < sems.length
  | .stray => False
  | .spins => False

/-- The first loop gets to a number above `sem_nsems`. -/
def ReachesBeyond (values : List ℤ) (stuck : Bool) : List Sembuf → Prop
  | [] => False
  | o :: ops =>
    values.length < o.num ∨
      ¬ (o.undo = true ∧ stuck = true) ∧ testOp values o = .passes ∧
        ReachesBeyond values stuck ops

/-- The first loop never gets to a search that does not end. -/
def Searches (values : List ℤ) (stuck : Bool) : List Sembuf → Prop
  | [] => True
  | o :: ops =>
    ¬ (o.undo = true ∧ stuck = true) ∧ (testOp values o = .passes → Searches values stuck ops)

/-- If all operations pass their tests, then the values with the sums of the operations on them
have 32 bits. -/
def SumsFit (values : List ℤ) (ops : List Sembuf) : Prop :=
  (∀ o ∈ ops, testOp values o = .passes) → ∀ o ∈ ops, ∀ v, values[o.num]? = some v →
    -2147483648 ≤ v + total ops o.num ∧ v + total ops o.num ≤ longMax

/-- The arrays of operations that are treated as they should: either the first loop gets to a
number above `sem_nsems`, or all numbers are below it, every search ends and the sums fit. -/
def Regular (values : List ℤ) (stuck : Bool) (ops : List Sembuf) : Prop :=
  ReachesBeyond values stuck ops ∨
    (∀ o ∈ ops, o.num < values.length) ∧ Searches values stuck ops ∧ SumsFit values ops

theorem verdict_eq_efbig {values : List ℤ} {stuck : Bool} :
    verdict values stuck ops = .failed .EFBIG ↔ ReachesBeyond values stuck ops := by
  fun_induction verdict values stuck ops with
  | case1 => simp [ReachesBeyond]
  | case2 o ops hnum => simp [ReachesBeyond, hnum]
  | case3 o ops hnum hstuck => simp [ReachesBeyond, hnum, hstuck]
  | case4 o ops hnum hstuck htest ih => simp [ReachesBeyond, hnum, hstuck, htest, ih]
  | case5 o ops hnum hstuck e htest =>
    have hbig := testOp_ne_efbig values o
    simpa [ReachesBeyond, hnum, htest] using hbig
  | _ => simp [ReachesBeyond, *]

theorem verdict_ne_stray {values : List ℤ} {stuck : Bool} (h : ∀ o ∈ ops, o.num < values.length) :
    verdict values stuck ops ≠ .stray := by
  fun_induction verdict values stuck ops with
  | case4 o ops hnum hstuck htest ih => exact ih (forall_mem_cons.1 h).2
  | case7 o ops hnum hstuck htest => exact absurd htest (testOp_ne_stray (h o mem_cons_self))
  | _ => simp

theorem verdict_eq_spins {values : List ℤ} {stuck : Bool} (h : ∀ o ∈ ops, o.num < values.length) :
    verdict values stuck ops = .spins ↔ ¬ Searches values stuck ops := by
  fun_induction verdict values stuck ops with
  | case1 => simp [Searches]
  | case2 o ops hnum => exact absurd (h o mem_cons_self) hnum.not_gt
  | case3 o ops hnum hstuck => simp [Searches, hstuck]
  | case4 o ops hnum hstuck htest ih =>
    simpa [Searches, hstuck, htest] using ih (forall_mem_cons.1 h).2
  | case8 o ops hnum hstuck htest => exact absurd htest (testOp_ne_spins values o)
  | _ => simp [Searches, *]

theorem values_modify {f : Sem → Sem} (hf : ∀ sem, (f sem).semval = sem.semval) (n : ℕ)
    (sems : List Sem) : values (sems.modify n f) = values sems := by
  apply ext_getElem?
  intro i
  simp only [values, getElem?_map, getElem?_modify]
  cases sems[i]? with
  | none => rfl
  | some sem =>
    split_ifs <;> simp [hf]

/-- What counting keeps is kept by a call that goes on after a sleep. -/
theorem recount_preserves {I : List Sem → Prop}
    (hcount : ∀ zero n f sems, I sems → I (sems.modify n (Sem.count zero f)))
    (h : recount l sems = some sems') (hI : I sems) : I sems' := by
  have huncount : ∀ {waited zero : Bool} {n : ℕ} {ss ss' : List Sem},
      uncount waited zero n ss = some ss' → I ss → I ss' := by
    intro waited zero n ss ss' hss hI
    unfold uncount modifySem at hss
    split_ifs at hss
    · cases hss
      exact hcount zero n _ ss hI
    · cases hss
      exact hI
  obtain ⟨sems₁, h₁, h₂⟩ := Option.bind_eq_some_iff.1 h
  exact huncount h₂ (huncount h₁ hI)

theorem values_recount (h : recount l sems = some sems') : values sems' = values sems := by
  refine recount_preserves (I := fun ss => values ss = values sems) ?_ h rfl
  intro zero n f ss hss
  rw [values_modify (semval_count zero f), hss]

theorem exists_recount (h : l.Fits sems.length) : ∃ sems', recount l sems = some sems' := by
  rw [← Option.isSome_iff_exists]
  unfold recount uncount modifySem
  cases hz : l.zW with
  | false =>
    cases hn : l.nW with
    | false => rfl
    | true => simp [h (.inr hn)]
  | true =>
    cases hn : l.nW with
    | false | true => simp [h (.inl hz)]

@[simp] theorem semval_enqueue (pid : Pid) (zero : Bool) (sem : Sem) :
    (sem.enqueue pid zero).semval = sem.semval := by
  rw [Sem.enqueue, semval_setWaiters, semval_count]

theorem num_lt_of_blocked {values : List ℤ} {stuck : Bool}
    (h : verdict values stuck ops = .blocked o) : o.num < values.length := by
  fun_induction verdict values stuck ops with
  | case4 o' ops hnum hstuck htest ih => exact ih h
  | case6 o' ops hnum hstuck htest =>
    unfold testOp at htest
    grind
  | _ => cases h

/-- What the outcome of a section tells of the first loop, and what it leaves behind. -/
def Outcome.Sound (wrap : ℤ → ℤ) (sems : List Sem) (stuck : Bool) (ops : List Sembuf) :
    Outcome → Prop
  | .done sems' _ _ =>
    verdict (values sems) stuck ops = .passed ∧ (∀ o ∈ ops, o.num < sems.length) ∧
      ∀ n : ℕ, (values sems')[n]? = (values sems)[n]?.map (settled wrap ops n)
  | .failed e sems' _ =>
    verdict (values sems) stuck ops = .failed e ∧ values sems' = values sems
  | .sleeps sems' _ l =>
    (∃ o, verdict (values sems) stuck ops = .blocked o) ∧ values sems' = values sems ∧
      l.Fits sems.length
  | .stray =>
    verdict (values sems) stuck ops = .stray ∨
      verdict (values sems) stuck ops = .passed ∧ ¬ ∀ o ∈ ops, o.num < sems.length
  | .spins => verdict (values sems) stuck ops = .spins

theorem semopSection_sound (hwrap : ∀ a b, wrap (wrap a + b) = wrap (a + b)) (semid : ℕ)
    (pid : Pid) (undo : List UndoInfo) (ops : List Sembuf) (hl : l.Fits sems.length) :
    (semopSection wrap semid pid sems undo l ops).Sound wrap sems (stuck semid l.ui undo) ops := by
  obtain ⟨sems₁, hsems₁⟩ := exists_recount hl
  have hvalues := values_recount hsems₁
  have hlen : sems₁.length = sems.length := by
    rw [← length_values, hvalues, length_values]
  have hverdict := scan_fst semid (values sems₁) ops l.ui undo
  rw [semopSection, hsems₁]
  dsimp only
  rw [hvalues] at hverdict ⊢
  cases hscan : scan semid (values sems) ops l.ui undo with
  | mk v known =>
    obtain ⟨ui', undo'⟩ := known
    rw [hscan] at hverdict
    cases v with
    | passed =>
      dsimp only
      have hsome := @applyAll_isSome undo' ops sems₁ wrap pid
      rw [hlen] at hsome
      cases happly : applyAll wrap pid ops sems₁ undo' with
      | none =>
        rw [happly] at hsome
        exact .inr ⟨hverdict.symm, by simpa using hsome⟩
      | some p =>
        rw [happly] at hsome
        refine ⟨hverdict.symm, hsome.1 rfl, ?_⟩
        intro n
        rw [values_applyAll hwrap happly n, hvalues]
    | failed e => exact ⟨hverdict.symm, hvalues⟩
    | blocked o =>
      refine ⟨⟨o, hverdict.symm⟩, ?_, ?_⟩
      · rw [values_modify (semval_enqueue pid _), hvalues]
      · intro _
        simpa using num_lt_of_blocked hverdict.symm
    | stray => exact .inl hverdict.symm
    | spins => exact hverdict.symm

/-- If the first loop neither fails for a number nor hangs, then the array is regular exactly if
it stays inside of the set and its sums fit. -/
theorem regular_iff_inside {values : List ℤ} {stuck : Bool}
    (hbig : verdict values stuck ops ≠ .failed .EFBIG)
    (hspins : verdict values stuck ops ≠ .spins) :
    Regular values stuck ops ↔ (∀ o ∈ ops, o.num < values.length) ∧ SumsFit values ops := by
  rw [Regular, ← verdict_eq_efbig, or_iff_right hbig]
  refine and_congr_right fun hinside => and_iff_right ?_
  by_contra hno
  exact hspins ((verdict_eq_spins hinside).2 hno)

/-- If the first loop ends early, then not all operations pass. -/
theorem sumsFit_of_verdict {values : List ℤ} (stuck : Bool)
    (hpassed : verdict values stuck ops ≠ .passed)
    (hbig : verdict values stuck ops ≠ .failed .EFBIG)
    (hspins : verdict values stuck ops ≠ .spins) : SumsFit values ops := by
  intro hpass
  exfalso
  fun_induction verdict values stuck ops with
  | case1 => exact hpassed rfl
  | case2 o ops hnum => exact hbig rfl
  | case3 o ops hnum hstuck => exact hspins rfl
  | case4 o ops hnum hstuck htest ih =>
    exact ih hpassed hbig hspins (forall_mem_cons.1 hpass).2
  | _ => simp_all

theorem toInt32_toInt32_add (a b : ℤ) : toInt32 (toInt32 a + b) = toInt32 (a + b) :=
  Int.bmod_add_bmod

theorem toInt32_eq_self_iff {z : ℤ} : toInt32 z = z ↔ -2147483648 ≤ z ∧ z ≤ longMax := by
  constructor
  · intro h
    have hlow := Int.le_bmod (x := z) (m := 2 ^ 32) (by decide)
    have hhigh := Int.bmod_lt (x := z) (m := 2 ^ 32) (by decide)
    rw [toInt32] at h
    rw [h] at hlow hhigh
    unfold longMax
    omega
  · intro h
    exact toInt32_of_le (by omega) h.2

theorem settled_iff_sumsFit {values : List ℤ} (hpass : ∀ o ∈ ops, testOp values o = .passes) :
    (∀ n : ℕ, values[n]?.map (settled toInt32 ops n) = values[n]?.map (· + total ops n)) ↔
      SumsFit values ops := by
  rw [SumsFit, forall_prop_of_true hpass]
  constructor
  · intro h o ho v hv
    have heq := h o.num
    rw [hv, Option.map_some, Option.map_some, Option.some.injEq, settled,
      if_pos ⟨o, ho, rfl⟩] at heq
    exact toInt32_eq_self_iff.1 heq
  · intro h n
    cases hv : values[n]? with
    | none => rfl
    | some v =>
      rw [Option.map_some, Option.map_some, settled]
      split_ifs with hany
      · obtain ⟨o, ho, rfl⟩ := hany
        rw [toInt32_eq_self_iff.2 (h o ho v hv)]
      · rw [total_eq_zero hany, add_zero]

/-- **The section does all or nothing, inside of the array, exactly if the operations are
regular.** -/
theorem semop_allOrNothing_iff (semid : ℕ) (pid : Pid) (sems : List Sem) (undo : List UndoInfo)
    (l : Locals) (ops : List Sembuf) (hl : l.Fits sems.length) :
    AllOrNothing sems ops (semopSection toInt32 semid pid sems undo l ops) ↔
      Regular (values sems) (stuck semid l.ui undo) ops := by
  have hsound := semopSection_sound toInt32_toInt32_add semid pid undo ops hl
  generalize semopSection toInt32 semid pid sems undo l ops = out at hsound ⊢
  cases out with
  | done sems' undo' woken =>
    obtain ⟨hverdict, hinside, hsum⟩ := hsound
    have hpass : ∀ o ∈ ops, testOp (values sems) o = .passes := fun o ho =>
      (verdict_eq_passed.1 hverdict o ho).2.2
    rw [regular_iff_inside (by simp [hverdict]) (by simp [hverdict]), length_values,
      ← settled_iff_sumsFit hpass]
    simp only [AllOrNothing, hsum]
  | failed e sems' undo' =>
    obtain ⟨hverdict, hsame⟩ := hsound
    by_cases he : e = .EFBIG
    · subst he
      exact iff_of_true ⟨hsame, fun _ => rfl⟩ (.inl (verdict_eq_efbig.1 hverdict))
    · have hfit : SumsFit (values sems) ops :=
        sumsFit_of_verdict (stuck semid l.ui undo) (by simp [hverdict])
          (by simp [hverdict, he]) (by simp [hverdict])
      rw [regular_iff_inside (by simp [hverdict, he]) (by simp [hverdict])]
      simp [AllOrNothing, hsame, he, hfit]
  | sleeps sems' undo' l' =>
    obtain ⟨⟨o, hverdict⟩, hsame, -⟩ := hsound
    have hfit : SumsFit (values sems) ops :=
      sumsFit_of_verdict (stuck semid l.ui undo) (by simp [hverdict])
        (by simp [hverdict]) (by simp [hverdict])
    rw [regular_iff_inside (by simp [hverdict]) (by simp [hverdict]), length_values]
    exact ⟨fun h => ⟨h.2, hfit⟩, fun h => ⟨hsame, h.1⟩⟩
  | stray =>
    refine iff_of_false id ?_
    rcases hsound with hverdict | ⟨hverdict, houtside⟩
    · rw [regular_iff_inside (by simp [hverdict]) (by simp [hverdict])]
      intro hregular
      exact verdict_ne_stray hregular.1 hverdict
    · rw [regular_iff_inside (by simp [hverdict]) (by simp [hverdict]), length_values]
      exact fun hregular => houtside hregular.1
  | spins =>
    refine iff_of_false id ?_
    intro hregular
    rcases hregular with hreach | ⟨hinside, hsearch, -⟩
    · rw [← verdict_eq_efbig, hsound] at hreach
      cases hreach
    · exact (verdict_eq_spins hinside).1 hsound hsearch

/-- A call with two operations on a set of two semaphores. -/
theorem semop_allOrNothing_iff_twoOps :
    ({} : Locals).Fits 2 ∧
      (AllOrNothing [semSetup, semSetup] [⟨0, -1, false, false⟩, ⟨1, 2, false, true⟩]
          (semopSection toInt32 0 7 [semSetup, semSetup] [] {}
            [⟨0, -1, false, false⟩, ⟨1, 2, false, true⟩]) ↔
        Regular [1, 1] false [⟨0, -1, false, false⟩, ⟨1, 2, false, true⟩]) := by
  have hfits : ({} : Locals).Fits 2 := by simp [Locals.Fits]
  exact ⟨hfits, semop_allOrNothing_iff 0 7 [semSetup, semSetup] [] {} _ hfits⟩

/-- The number `sem_nsems` is admitted: an element beyond the array is changed. -/
theorem semop_beyond_array :
    semopSection toInt32 0 7 [semSetup] [] {} [⟨1, 1, false, false⟩] = .stray ∧
      ¬ AllOrNothing [semSetup] [⟨1, 1, false, false⟩]
        (semopSection toInt32 0 7 [semSetup] [] {} [⟨1, 1, false, false⟩]) := by
  have hstray : semopSection toInt32 0 7 [semSetup] [] {} [⟨1, 1, false, false⟩] = .stray := by
    decide
  refine ⟨hstray, ?_⟩
  exact id

end Clib4.SysV
