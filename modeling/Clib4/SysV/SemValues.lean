import Clib4.Base.Interleaving
import Clib4.SysV.Semop

/-!
# SysV semaphores: the values of a set

Any number of processes work on one set.  A process that sleeps is woken by the section of
another one, and then enters the section again with the same operations.  `SETVAL` and `SETALL`
replace values from outside.

Since the first loop of `semop` tests every operation against the values as they are, two
operations on one semaphore are each tested as if the other one were not there: on the value 1,
two operations that take 1 pass, and the value becomes -1.  `Safe` is what an array of
operations has to be like so that this cannot happen.

## Main definitions

* `SetState`, `SemCall`, `semStep` — the processes and the set.
* `required`, `Safe` — how large a value the first loop makes sure of, and whether that is enough.

## Main results

* `semvals_nonneg_iff` — **the values stay non-negative exactly if all arrays are safe.**
-/

namespace Clib4.SysV

open List Function

/-! ### The processes -/

/-- What a process does. -/
inductive Status
  | idle
  | asleep (ops : List Sembuf) (l : Locals)
  /-- Its task has been restarted; it will try again. -/
  | woken (ops : List Sembuf) (l : Locals)
  deriving DecidableEq, Repr

/-- The call that a process is in. -/
def Status.call : Status → Option (List Sembuf × Locals)
  | .idle => none
  | .asleep ops l => some (ops, l)
  | .woken ops l => some (ops, l)

/-- A set and the processes. -/
structure SetState where
  sems : List Sem
  undo : Pid → List UndoInfo
  status : Pid → Status

/-- The processes in a list that has been woken are restarted. -/
def restart (ps : List Pid) (status : Pid → Status) (q : Pid) : Status :=
  match status q with
  | .asleep ops l => if q ∈ ps then .woken ops l else .asleep ops l
  | st => st

@[simp] theorem call_restart (ps : List Pid) (status : Pid → Status) (q : Pid) :
    (restart ps status q).call = (status q).call := by
  unfold restart
  cases status q with
  | idle | woken ops l => rfl
  | asleep ops l => dsimp only; split_ifs <;> rfl

/-- A process enters its section; nothing comes of it if the section strays or does not end.
Values are integers here: sums that need more than 32 bits are left out. -/
def SetState.enter (semid : ℕ) (s : SetState) (p : Pid) (ops : List Sembuf) (l : Locals) :
    Option SetState :=
  match semopSection id semid p s.sems (s.undo p) l ops with
  | .done sems undo woken =>
    some
      { sems := sems
        undo := update s.undo p undo
        status := restart woken (update s.status p .idle) }
  | .failed _ sems undo =>
    some
      { sems := sems
        undo := update s.undo p undo
        status := update s.status p .idle }
  | .sleeps sems undo l =>
    some
      { sems := sems
        undo := update s.undo p undo
        status := update s.status p (.asleep ops l) }
  | .stray => none
  | .spins => none

/-- The calls of the processes. -/
inductive SemCall
  | semop (p : Pid) (ops : List Sembuf)
  | retry (p : Pid)
  | setval (p : Pid) (n : ℕ) (v : ℤ)
  /-- `semnum` plays no role for the values. -/
  | setall (p : Pid) (semnum : ℕ) (array : ℕ → UInt16)

/-- `ui->Adj[semnum] = 0`, if there are adjustments. -/
def clearAdj (semnum : ℕ) (undo : List UndoInfo) : List UndoInfo :=
  undo.modifyHead fun u => { u with adj := u.adj.set semnum 0 }

/-- `semctl` with `SETVAL`; a number outside of the set is refused. -/
def SetState.setval (semid : ℕ) (s : SetState) (p : Pid) (n : ℕ) (v : ℤ) : Option SetState :=
  (getUndo (s.undo p) semid s.sems.length false).map fun undo =>
    if n < s.sems.length then
      { s with
        sems := s.sems.modify n fun sem => { sem with semval := v }
        undo := update s.undo p (clearAdj n undo) }
    else s

/-- `semctl` with `SETALL`, which clears the adjustment of `semnum` in every turn. -/
def SetState.setall (semid : ℕ) (s : SetState) (p : Pid) (semnum : ℕ) (array : ℕ → UInt16) :
    Option SetState :=
  (getUndo (s.undo p) semid s.sems.length false).map fun undo =>
    { s with
      sems := s.sems.mapIdx fun i sem => { sem with semval := (array i).toNat }
      undo := if s.sems = [] then s.undo else update s.undo p (clearAdj semnum undo) }

/-- One step of a process; a call starts while the process is in no other. -/
def semStep (semid : ℕ) (s : SetState) : SemCall → Option SetState
  | .semop p ops => if s.status p = .idle then s.enter semid p ops {} else none
  | .retry p =>
    match s.status p with
    | .woken ops l => s.enter semid p ops l
    | _ => none
  | .setval p n v => if s.status p = .idle then s.setval semid p n v else none
  | .setall p semnum array =>
    if s.status p = .idle then s.setall semid p semnum array else none

/-- A set that has just been created; nobody uses it yet. -/
def SetState.Fresh (nsems : ℕ) (s : SetState) : Prop :=
  s.sems = List.replicate nsems semSetup ∧ ∀ p, s.status p = .idle

/-! ### Safe arrays -/

/-- The least value of a semaphore that the first loop makes sure of. -/
def required : List Sembuf → ℕ → ℤ
  | [], _ => 0
  | o :: ops, n => max (if o.num = n then -o.op else 0) (required ops n)

/-- The operations never pass, since one semaphore would have to be zero and positive, or what
the first loop makes sure of is enough for the second one. -/
def Safe (ops : List Sembuf) : Prop :=
  (∃ z ∈ ops, ∃ t ∈ ops, z.num = t.num ∧ z.op = 0 ∧ t.op < 0) ∨
    ∀ n, 0 ≤ required ops n + total ops n

theorem required_nonneg (ops : List Sembuf) (n : ℕ) : 0 ≤ required ops n := by
  induction ops with
  | nil => exact le_refl 0
  | cons o ops ih => exact le_trans ih (le_max_right _ _)

variable {ops : List Sembuf} {o : Sembuf} {n semid nsems : ℕ} {v : ℤ} {s s' : SetState} {p : Pid}
  {allowed : List Sembuf → Prop} {c : SemCall}

theorem neg_op_le_required (h : o ∈ ops) : -o.op ≤ required ops o.num := by
  induction ops with
  | nil => cases h
  | cons o' ops ih =>
    rw [required]
    rcases mem_cons.1 h with rfl | h
    · rw [if_pos rfl]
      exact le_max_left _ _
    · exact le_trans (ih h) (le_max_right _ _)

theorem required_le (hv : 0 ≤ v) (h : ∀ o ∈ ops, o.num = n → -o.op ≤ v) : required ops n ≤ v := by
  induction ops with
  | nil => exact hv
  | cons o ops ih =>
    rw [forall_mem_cons] at h
    refine max_le ?_ (ih h.2)
    split_ifs with hn
    · exact h.1 hn
    · exact hv

/-- What it means for the test that an operation on the set passes. -/
theorem testOp_eq_passes {values : List ℤ} (hv : values[o.num]? = some v) :
    testOp values o = .passes ↔ (o.op < 0 → -o.op ≤ v) ∧ (o.op = 0 → v ≤ 0) := by
  unfold testOp
  grind

/-- **The second loop after the first one, on a safe array.** -/
theorem nonneg_of_safe {values : List ℤ} (hsafe : Safe ops)
    (hnum : ∀ o ∈ ops, o.num < values.length) (hpass : ∀ o ∈ ops, testOp values o = .passes)
    (hvalues : ∀ v ∈ values, 0 ≤ v) (hv : values[n]? = some v) : 0 ≤ v + total ops n := by
  have hget : ∀ o ∈ ops, ∃ w, values[o.num]? = some w := by
    intro o ho
    exact ⟨_, getElem?_eq_getElem (hnum o ho)⟩
  rcases hsafe with ⟨z, hz, t, ht, hzt, hz0, htneg⟩ | hsum
  · -- a semaphore that is zero and positive at once
    obtain ⟨w, hw⟩ := hget t ht
    have ht' := ((testOp_eq_passes hw).1 (hpass t ht)).1 htneg
    rw [← hzt] at hw
    have hz' := ((testOp_eq_passes hw).1 (hpass z hz)).2 hz0
    omega
  · have hle : required ops n ≤ v := by
      apply required_le (hvalues v (mem_of_getElem? hv))
      intro o ho hn
      have hv₀ := hvalues v (mem_of_getElem? hv)
      subst hn
      by_cases hneg : o.op < 0
      · exact ((testOp_eq_passes hv).1 (hpass o ho)).1 hneg
      · omega
    have := hsum n
    omega

/-! ### What a step does -/

theorem length_eq_of_getElem?_map {α : Type*} {f : ℕ → α → α} {xs ys : List α}
    (h : ∀ n : ℕ, ys[n]? = xs[n]?.map (f n)) : ys.length = xs.length := by
  have hle : ∀ n, ys.length ≤ n ↔ xs.length ≤ n := by
    intro n
    rw [← List.getElem?_eq_none_iff, h n, Option.map_eq_none_iff, List.getElem?_eq_none_iff]
  exact le_antisymm ((hle _).2 le_rfl) ((hle _).1 le_rfl)

theorem id_add (a b : ℤ) : id (id a + b) = id (a + b) := rfl

/-- The second loop was run on these operations. -/
def Applied (ops : List Sembuf) (sems sems' : List Sem) : Prop :=
  (∀ o ∈ ops, o.num < sems.length ∧ testOp (values sems) o = .passes) ∧
    ∀ n : ℕ, (values sems')[n]? = (values sems)[n]?.map (· + total ops n)

/-- A section: the calls of the others are left alone, that of the caller ends or goes on with
variables that fit, and the values are unchanged unless the operations were applied. -/
theorem enter_cases {l : Locals} (hl : l.Fits s.sems.length) (h : s.enter semid p ops l = some s') :
    s'.sems.length = s.sems.length ∧
      (∀ q ops' l', (s'.status q).call = some (ops', l') →
        (s.status q).call = some (ops', l') ∨ ops' = ops ∧ l'.Fits s.sems.length) ∧
      (values s'.sems = values s.sems ∨ Applied ops s.sems s'.sems) := by
  have hsound := semopSection_sound id_add semid p (s.undo p) ops hl
  have hkept : ∀ sems' : List Sem, values sems' = values s.sems →
      sems'.length = s.sems.length := by
    intro sems' hsame
    rw [← length_values, hsame, length_values]
  have hidle : ∀ {q call}, (update s.status p .idle q).call = some call →
      (s.status q).call = some call := by
    intro q call hcall
    rw [update_apply] at hcall
    split_ifs at hcall
    · cases hcall
    · exact hcall
  unfold SetState.enter at h
  generalize semopSection id semid p s.sems (s.undo p) l ops = out at h hsound
  cases out with
  | done sems undo woken =>
    cases h
    obtain ⟨hverdict, hin, hsum⟩ := hsound
    simp only [settled_id] at hsum
    refine ⟨?_, ?_, .inr ⟨?_, hsum⟩⟩
    · have hlen := length_eq_of_getElem?_map hsum
      simpa using hlen
    · intro q ops' l' hcall
      rw [call_restart] at hcall
      exact .inl (hidle hcall)
    · intro o ho
      exact ⟨hin o ho, (verdict_eq_passed.1 hverdict o ho).2.2⟩
  | failed e sems undo =>
    cases h
    exact ⟨hkept _ hsound.2, fun _ _ _ hcall => .inl (hidle hcall), .inl hsound.2⟩
  | sleeps sems undo l₁ =>
    cases h
    obtain ⟨-, hsame, hfits⟩ := hsound
    refine ⟨hkept _ hsame, ?_, .inl hsame⟩
    intro q ops' l' hcall
    by_cases hq : q = p
    · subst hq
      simp only [update_self] at hcall
      obtain ⟨rfl, rfl⟩ := hcall
      exact .inr ⟨rfl, hfits⟩
    · dsimp only at hcall
      rw [update_of_ne hq] at hcall
      exact .inl hcall
  | stray | spins => cases h

/-- `SETVAL` and `SETALL` put new values in, and touch no call. -/
theorem setval_cases (h : s.setval semid p n v = some s') :
    s'.sems.length = s.sems.length ∧ s'.status = s.status ∧
      ∀ w ∈ values s'.sems, w = v ∨ w ∈ values s.sems := by
  obtain ⟨undo, -, rfl⟩ := Option.map_eq_some_iff.1 h
  split_ifs with hn
  · refine ⟨by simp, rfl, ?_⟩
    intro w hw
    simp only [values, mem_map] at hw ⊢
    obtain ⟨sem, hsem, rfl⟩ := hw
    rw [mem_iff_getElem?] at hsem
    obtain ⟨i, hi⟩ := hsem
    rw [getElem?_modify] at hi
    obtain ⟨sem₀, hsem₀, rfl⟩ := Option.map_eq_some_iff.1 hi
    by_cases hin : n = i
    · left
      rw [if_pos hin]
    · right
      rw [if_neg hin]
      exact ⟨sem₀, mem_of_getElem? hsem₀, rfl⟩
  · exact ⟨rfl, rfl, fun w hw => .inr hw⟩

theorem setall_cases {semnum : ℕ} {array : ℕ → UInt16}
    (h : s.setall semid p semnum array = some s') :
    s'.sems.length = s.sems.length ∧ s'.status = s.status ∧ ∀ w ∈ values s'.sems, 0 ≤ w := by
  obtain ⟨undo, -, rfl⟩ := Option.map_eq_some_iff.1 h
  refine ⟨by simp, rfl, ?_⟩
  intro w hw
  simp only [values, mem_map, mem_mapIdx] at hw
  obtain ⟨_, ⟨i, hi, rfl⟩, rfl⟩ := hw
  exact Int.natCast_nonneg _

/-! ### Runs -/

/-- The set has `nsems` semaphores, and every call in progress fits it and is an allowed one. -/
structure SetState.Ordered (allowed : List Sembuf → Prop) (nsems : ℕ) (s : SetState) : Prop where
  length : s.sems.length = nsems
  calls : ∀ p ops l, (s.status p).call = some (ops, l) → allowed ops ∧ l.Fits nsems

/-- The calls with allowed arrays and non-negative values. -/
def SemCall.Within (allowed : List Sembuf → Prop) : SemCall → Prop
  | .semop _ ops => allowed ops
  | .setval _ _ v => 0 ≤ v
  | _ => True

theorem ordered_enter {l : Locals} (hs : s.Ordered allowed nsems) (hops : allowed ops)
    (hl : l.Fits s.sems.length) (h : s.enter semid p ops l = some s') :
    s'.Ordered allowed nsems := by
  obtain ⟨hlen, hcalls, -⟩ := enter_cases hl h
  refine ⟨hlen.trans hs.length, ?_⟩
  intro q ops' l' hcall
  rcases hcalls q ops' l' hcall with hold | ⟨rfl, hfits⟩
  · exact hs.calls q ops' l' hold
  · exact ⟨hops, hs.length ▸ hfits⟩

/-- **What a step does**: it is a section of an allowed call, with variables that fit, or it puts
in non-negative values. -/
theorem semStep_cases (hs : s.Ordered allowed nsems) (hc : c.Within allowed)
    (h : semStep semid s c = some s') :
    (∃ p ops l, allowed ops ∧ l.Fits s.sems.length ∧ s.enter semid p ops l = some s') ∨
      s'.sems.length = s.sems.length ∧ s'.status = s.status ∧
        ∀ w ∈ values s'.sems, 0 ≤ w ∨ w ∈ values s.sems := by
  cases c with
  | semop p ops =>
    rw [semStep] at h
    split_ifs at h
    exact .inl ⟨p, ops, {}, hc, by simp [Locals.Fits], h⟩
  | retry p =>
    rw [semStep] at h
    cases hstatus : s.status p with
    | woken ops l =>
      rw [hstatus] at h
      obtain ⟨hops, hfits⟩ := hs.calls p ops l (by rw [hstatus]; rfl)
      exact .inl ⟨p, ops, l, hops, hs.length ▸ hfits, h⟩
    | idle | asleep ops l => rw [hstatus] at h; cases h
  | setval p n v =>
    rw [semStep] at h
    split_ifs at h
    obtain ⟨hlen, hstatus, hvalues⟩ := setval_cases h
    refine .inr ⟨hlen, hstatus, ?_⟩
    intro w hw
    rcases hvalues w hw with rfl | hold
    · exact .inl hc
    · exact .inr hold
  | setall p semnum array =>
    rw [semStep] at h
    split_ifs at h
    obtain ⟨hlen, hstatus, hvalues⟩ := setall_cases h
    exact .inr ⟨hlen, hstatus, fun w hw => .inl (hvalues w hw)⟩

theorem ordered_step (hs : s.Ordered allowed nsems) (hc : c.Within allowed)
    (h : semStep semid s c = some s') : s'.Ordered allowed nsems := by
  rcases semStep_cases hs hc h with ⟨p, ops, l, hops, hl, henter⟩ | ⟨hlen, hstatus, -⟩
  · exact ordered_enter hs hops hl henter
  · refine ⟨hlen.trans hs.length, ?_⟩
    rw [hstatus]
    exact hs.calls

theorem nonneg_step (hsafe : ∀ ops, allowed ops → (∀ o ∈ ops, o.num < nsems) → Safe ops)
    (hs : s.Ordered allowed nsems) (hvalues : ∀ v ∈ values s.sems, 0 ≤ v) (hc : c.Within allowed)
    (h : semStep semid s c = some s') : ∀ v ∈ values s'.sems, 0 ≤ v := by
  intro v hv
  rcases semStep_cases hs hc h with ⟨p, ops, l, hops, hl, henter⟩ | ⟨-, -, hnew⟩
  · obtain ⟨-, -, hsame | ⟨hpass, hsum⟩⟩ := enter_cases hl henter
    · rw [hsame] at hv
      exact hvalues v hv
    · obtain ⟨n, hn⟩ := mem_iff_getElem?.1 hv
      rw [hsum n] at hn
      obtain ⟨w, hw, rfl⟩ := Option.map_eq_some_iff.1 hn
      have hin : ∀ o ∈ ops, o.num < nsems := fun o ho => hs.length ▸ (hpass o ho).1
      refine nonneg_of_safe (hsafe ops hops hin) ?_ (fun o ho => (hpass o ho).2) hvalues hw
      intro o ho
      rw [length_values]
      exact (hpass o ho).1
  · rcases hnew v hv with hnonneg | hold
    · exact hnonneg
    · exact hvalues v hold

theorem SetState.Fresh.ordered (h : s.Fresh nsems) : s.Ordered allowed nsems := by
  refine ⟨by simp [h.1], ?_⟩
  intro p ops l hcall
  rw [h.2 p] at hcall
  cases hcall

/-! ### Arrays that are not safe -/

/-- Setting the values of some semaphores, one after the other. -/
theorem run_setvals (semid : ℕ) (f : ℕ → ℤ) (ns : List ℕ) (s : SetState)
    (hidle : s.status 0 = .idle) (hundo : s.undo 0 = []) (hns : ∀ n ∈ ns, n < s.sems.length) :
    ∃ s', Interleaving.run (semStep semid) s (ns.map fun n => .setval 0 n (f n)) = some s' ∧
      s'.status 0 = .idle ∧ s'.undo 0 = [] ∧ s'.sems.length = s.sems.length ∧
      ∀ i < s.sems.length,
        (values s'.sems)[i]? = if i ∈ ns then some (f i) else (values s.sems)[i]? := by
  induction ns generalizing s with
  | nil => exact ⟨s, rfl, hidle, hundo, rfl, by simp⟩
  | cons n ns ih =>
    rw [forall_mem_cons] at hns
    let s₁ : SetState :=
      { s with
        sems := s.sems.modify n fun sem => { sem with semval := f n }
        undo := update s.undo 0 [] }
    have hstep : semStep semid s (.setval 0 n (f n)) = some s₁ := by
      simp [semStep, hidle, SetState.setval, hundo, getUndo, hns.1, clearAdj, s₁]
    obtain ⟨s', hrun, hidle', hundo', hlen, hvalues⟩ :=
      ih s₁ hidle (by simp [s₁]) (by simpa [s₁] using hns.2)
    refine ⟨s', ?_, hidle', hundo', by simpa [s₁] using hlen, ?_⟩
    · rw [map_cons, Interleaving.run_cons_of_some hstep, hrun]
    · intro i hi
      rw [hvalues i (by simpa [s₁] using hi)]
      by_cases hmem : i ∈ ns
      · simp [hmem]
      · rw [if_neg hmem]
        simp only [s₁, values, mem_cons, hmem]
        by_cases hin : i = n
        · subst hin
          simp [hi]
        · simp [hin, Ne.symm hin]

/-- A section whose operations all pass, inside of the set, applies them. -/
theorem enter_of_passes (semid : ℕ) (hundo : s.undo p = [])
    (hin : ∀ o ∈ ops, o.num < s.sems.length)
    (hpass : ∀ o ∈ ops, testOp (values s.sems) o = .passes) :
    ∃ s', s.enter semid p ops {} = some s' ∧
      ∀ n : ℕ, (values s'.sems)[n]? = (values s.sems)[n]?.map (· + total ops n) := by
  have hverdict : verdict (values s.sems) (stuck semid false (s.undo p)) ops = .passed := by
    rw [verdict_eq_passed]
    intro o ho
    refine ⟨?_, by simp [hundo, stuck], hpass o ho⟩
    rw [length_values]
    exact le_of_lt (hin o ho)
  have hfits : ({} : Locals).Fits s.sems.length := by simp [Locals.Fits]
  have hsound := semopSection_sound id_add semid p (s.undo p) ops hfits
  unfold SetState.enter
  generalize semopSection id semid p s.sems (s.undo p) {} ops = out at hsound ⊢
  cases out with
  | done sems undo woken =>
    obtain ⟨-, -, hsum⟩ := hsound
    simp only [settled_id] at hsum
    exact ⟨_, rfl, hsum⟩
  | failed e sems undo =>
    cases hverdict.symm.trans hsound.1
  | sleeps sems undo l =>
    obtain ⟨⟨o, hblocked⟩, -⟩ := hsound
    cases hverdict.symm.trans hblocked
  | stray =>
    rcases hsound with hstray | ⟨-, houtside⟩
    · cases hverdict.symm.trans hstray
    · exact absurd hin houtside
  | spins =>
    cases hverdict.symm.trans hsound

/-- On the values that the first loop asks for, it passes if no semaphore has to be zero and
positive at once. -/
theorem passes_of_required {values : List ℤ}
    (hno : ¬ ∃ z ∈ ops, ∃ t ∈ ops, z.num = t.num ∧ z.op = 0 ∧ t.op < 0) (ho : o ∈ ops)
    (hv : values[o.num]? = some (required ops o.num)) : testOp values o = .passes := by
  rw [testOp_eq_passes hv]
  refine ⟨fun _ => neg_op_le_required ho, ?_⟩
  intro hzero
  apply required_le (le_refl 0)
  intro t ht hnum
  by_contra hneg
  exact hno ⟨o, ho, t, ht, hnum.symm, hzero, by omega⟩

/-- A set that has just been created, with processes that have no adjustments. -/
def SetState.created (nsems : ℕ) : SetState where
  sems := List.replicate nsems semSetup
  undo := fun _ => []
  status := fun _ => .idle

/-- **An array that is not safe makes a value negative**: set the values that the first loop asks
for, and then use the array. -/
theorem exists_negative (semid : ℕ) (hin : ∀ o ∈ ops, o.num < nsems) (hbad : ¬ Safe ops) :
    ∃ cs s, (∀ c ∈ cs, c.Within (· = ops)) ∧
      Interleaving.run (semStep semid) (SetState.created nsems) cs = some s ∧
      ∃ v ∈ values s.sems, v < 0 := by
  unfold Safe at hbad
  push Not at hbad
  obtain ⟨hclash, n, hn⟩ := hbad
  -- the number of the value that becomes negative is one of the set
  have hnsems : n < nsems := by
    by_contra hge
    have hoff : ¬ ∃ o ∈ ops, o.num = n := fun ⟨o, ho, h⟩ => hge (h ▸ hin o ho)
    have := total_eq_zero hoff
    have := required_nonneg ops n
    omega
  have hlen : (SetState.created nsems).sems.length = nsems := by simp [SetState.created]
  obtain ⟨s₁, hrun₁, hidle, hundo, hlen₁, hvalues₁⟩ :=
    run_setvals semid (required ops) (List.range nsems) (SetState.created nsems) rfl rfl
      (by simp [hlen])
  rw [hlen] at hlen₁
  have hset : ∀ i < nsems, (values s₁.sems)[i]? = some (required ops i) := by
    intro i hi
    rw [hvalues₁ i (by rw [hlen]; exact hi), if_pos (mem_range.2 hi)]
  have hpass : ∀ o ∈ ops, testOp (values s₁.sems) o = .passes := by
    intro o ho
    refine passes_of_required ?_ ho (hset o.num (hin o ho))
    push Not
    exact hclash
  obtain ⟨s₂, henter, hsum⟩ :=
    enter_of_passes semid hundo (by rw [hlen₁]; exact hin) hpass
  have hstep : semStep semid s₁ (.semop 0 ops) = some s₂ := by
    rw [semStep, if_pos hidle, henter]
  refine ⟨(List.range nsems).map (fun n => .setval 0 n (required ops n)) ++ [.semop 0 ops], s₂,
    ?_, ?_, required ops n + total ops n, ?_, hn⟩
  · intro c hc
    rcases mem_append.1 hc with hc | hc
    · obtain ⟨i, -, rfl⟩ := mem_map.1 hc
      exact required_nonneg ops i
    · rw [mem_singleton] at hc
      subst hc
      rfl
  · rw [Interleaving.run_append]
    refine ⟨s₁, hrun₁, ?_⟩
    rw [Interleaving.run_cons_of_some hstep, Interleaving.run_nil]
  · apply mem_of_getElem? (i := n)
    rw [hsum n, hset n hnsems]
    rfl

/-- **The values of a set stay non-negative, whatever any number of processes do with arrays of
a given kind, exactly if all arrays of the kind on the set are safe.** -/
theorem semvals_nonneg_iff (semid nsems : ℕ) (allowed : List Sembuf → Prop) :
    (∀ s₀ cs s, SetState.Fresh nsems s₀ → (∀ c ∈ cs, SemCall.Within allowed c) →
        Interleaving.run (semStep semid) s₀ cs = some s → ∀ v ∈ values s.sems, 0 ≤ v) ↔
      ∀ ops, allowed ops → (∀ o ∈ ops, o.num < nsems) → Safe ops := by
  constructor
  · intro hall ops hops hinside
    by_contra hbad
    obtain ⟨cs, s, hcs, hrun, v, hv, hneg⟩ := exists_negative semid hinside hbad
    have hwithin : ∀ c ∈ cs, c.Within allowed := by
      intro c hc
      have hc' := hcs c hc
      cases c with
      | semop p ops' => exact (show ops' = ops from hc') ▸ hops
      | retry p => trivial
      | setval p n v => exact hc'
      | setall p semnum array => trivial
    have := hall (SetState.created nsems) cs s ⟨rfl, fun _ => rfl⟩ hwithin hrun v hv
    omega
  · intro hsafe s₀ cs s hfresh hcs hrun
    have hfirst : ∀ v ∈ values s₀.sems, 0 ≤ v := by
      intro v hv
      rw [hfresh.1] at hv
      simp only [values, map_replicate, mem_replicate] at hv
      rw [hv.2]
      decide
    have hinv : s.Ordered allowed nsems ∧ ∀ v ∈ values s.sems, 0 ≤ v := by
      refine Interleaving.invariant (P := fun _ c => c.Within allowed)
        (I := fun s => s.Ordered allowed nsems ∧ ∀ v ∈ values s.sems, 0 ≤ v) ?_
        ⟨hfresh.ordered, hfirst⟩ (Interleaving.along_of_forall fun c hc _ => hcs c hc) hrun
      intro s c s₁ hs hc hstep
      exact ⟨ordered_step hs.1 hc hstep, nonneg_step hsafe hs.1 hs.2 hc hstep⟩
    exact hinv.2

/-- Two operations that take 1 from a new semaphore. -/
theorem semvals_takeTwice :
    ∃ s, Interleaving.run (semStep 0) (SetState.created 1)
        [.semop 0 [⟨0, -1, false, false⟩, ⟨0, -1, false, false⟩]] = some s ∧
      values s.sems = [-1] :=
  ⟨_, rfl, by decide⟩

end Clib4.SysV
