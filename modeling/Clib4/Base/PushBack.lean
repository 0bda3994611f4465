import Mathlib.Tactic

/-!
# Programs that read a stream and push characters back

A program that reads a stream is a tree of requests: read a character, or push one back.
`Prog.run` interprets it over any stream.  A stream need not take back more than the character
that was read last; a program that asks for no more cannot tell two streams apart that have the same
text left, and consumes a part of that text.

## Main definitions

* `Prog` — programs, with `accept`, `readLoop` and `putBackAll` to build them from.
* `Source` — streams, with what they promise; `unlimited` takes back everything.
* `Prog.run` — the interpreter.
* `Prog.Yields` — how much of the text a program consumes, and what it returns.
* `Source.Windowed` — streams that take back what lies in a window.

## Main results

* `Prog.Yields.bind`, `Prog.Yields.readLoop` — the rules for what a program consumes.
* `Prog.Yields.alike` — **such a program behaves alike on streams with the same rest.**
-/

namespace PushBack

open List

/-- A program that reads a stream.  `left` asks for a bound on what is left to read. -/
inductive Prog (α β : Type)
  | done (value : β)
  | abort
  | getc (next : Option α → Prog α β)
  | ungetc (c : α) (next : Bool → Prog α β)
  | left (next : ℕ → Prog α β)

open Prog

namespace Prog

variable {α β γ τ : Type}

/-- One program after another. -/
def bind : Prog α β → (β → Prog α γ) → Prog α γ
  | done b, f => f b
  | abort, _ => abort
  | getc next, f => getc fun c => (next c).bind f
  | ungetc c next, f => ungetc c fun ok => (next ok).bind f
  | left next, f => left fun n => (next n).bind f

instance : Monad (Prog α) where
  pure := done
  bind := bind

@[simp] theorem pure_eq (b : β) : (pure b : Prog α β) = done b := rfl

@[simp] theorem bind_eq (p : Prog α β) (f : β → Prog α γ) : p >>= f = p.bind f := rfl

@[simp] theorem done_bind (b : β) (f : β → Prog α γ) : (done b : Prog α β).bind f = f b := rfl

theorem bind_assoc {δ : Type} (p : Prog α β) (f : β → Prog α γ) (g : γ → Prog α δ) :
    (p.bind f).bind g = p.bind fun b => (f b).bind g := by
  induction p with
  | done b | abort => rfl
  | getc next ih => exact congrArg getc (funext ih)
  | ungetc c next ih => exact congrArg (ungetc c) (funext ih)
  | left next ih => exact congrArg left (funext ih)

/-! ### Building programs -/

/-- Push a character back, and give up if that is refused. -/
def putBack (c : α) (p : Prog α β) : Prog α β := ungetc c fun ok => if ok then p else abort

/-- Push characters back as far as possible. -/
def putBackAll : List α → Prog α β → Prog α β
  | [], p => p
  | c :: cs, p => ungetc c fun _ => putBackAll cs p

/-- What came of an attempt to read a character. -/
inductive Attempt (α τ : Type)
  | ended
  | taken (t : τ)
  | refused (c : α)

/-- Read a character, and push it back unless it is wanted. -/
def accept (wanted : α → Option τ) : Prog α (Attempt α τ) :=
  getc fun
    | none => done .ended
    | some c =>
      match wanted c with
      | some t => done (.taken t)
      | none => putBack c (done (.refused c))

/-- What the body of a loop makes of a character: take it and go on, take it and leave the loop,
or push it back and leave the loop. -/
inductive Choice (τ : Type)
  | take (t : τ)
  | last (t : τ)
  | back (t : τ)

/-- How a loop has ended. -/
inductive Ending
  | guard
  | ended
  | last
  | back
  deriving DecidableEq, Repr

/-- A loop that reads a character in each iteration, with a bound on their number. -/
def loop (guard : τ → Bool) (body : τ → α → Choice τ) : ℕ → τ → Prog α (τ × Ending)
  | 0, _ => abort
  | n + 1, t =>
    if guard t then
      getc fun
        | none => done (t, .ended)
        | some c =>
          match body t c with
          | .take t' => loop guard body n t'
          | .last t' => done (t', .last)
          | .back t' => putBack c (done (t', .back))
    else done (t, .guard)

/-- `while (guard && (c = getc()) != EOF) body`. -/
def readLoop (guard : τ → Bool) (body : τ → α → Choice τ) (t : τ) : Prog α (τ × Ending) :=
  left fun n => loop guard body (n + 1) t

end Prog

/-! ### Streams -/

/-- A stream: what is left to read determines what is read, and the character that was read last
can be pushed back. -/
structure Source (α σ : Type) where
  getc : σ → Option α × σ
  ungetc : α → σ → Bool × σ
  rest : σ → List α
  getc_fst : ∀ s, (getc s).1 = (rest s).head?
  rest_getc : ∀ s, rest (getc s).2 = (rest s).tail
  ungetc_fst : ∀ s c, (rest s).head? = some c → (ungetc c (getc s).2).1 = true
  rest_ungetc : ∀ s c, (rest s).head? = some c → rest (ungetc c (getc s).2).2 = rest s

/-- A stream with unlimited push-back is the text that is left. -/
def unlimited (α : Type) : Source α (List α) where
  getc s := (s.head?, s.tail)
  ungetc c s := (true, c :: s)
  rest s := s
  getc_fst _ := rfl
  rest_getc _ := rfl
  ungetc_fst _ _ _ := rfl
  rest_ungetc s c h := by
    cases s with
    | nil => cases h
    | cons d s =>
      obtain rfl : d = c := Option.some.inj h
      rfl

section Run

variable {α β γ σ ρ τ : Type}

/-- Run a program: its value, unless it gives up, and the stream it leaves. -/
def Prog.run (io : Source α σ) : Prog α β → σ → Option β × σ
  | .done b, s => (some b, s)
  | .abort, s => (none, s)
  | .getc next, s => (next (io.getc s).1).run io (io.getc s).2
  | .ungetc c next, s => (next (io.ungetc c s).1).run io (io.ungetc c s).2
  | .left next, s => (next (io.rest s).length).run io s

/-- A program after another runs from where that one ends. -/
theorem Prog.run_bind (io : Source α σ) (p : Prog α β) (f : β → Prog α γ) (s : σ) :
    (p.bind f).run io s =
      match (p.run io s).1 with
      | some b => (f b).run io (p.run io s).2
      | none => (none, (p.run io s).2) := by
  induction p generalizing s with
  | done b | abort => rfl
  | getc next ih | ungetc c next ih | left next ih => exact ih _ _

/-- What reading and pushing back leave as it is, a program leaves as it is. -/
theorem Prog.run_invariant {io : Source α σ} {δ : Type} (f : σ → δ)
    (hgetc : ∀ s, f (io.getc s).2 = f s) (hungetc : ∀ c s, f (io.ungetc c s).2 = f s)
    (p : Prog α β) (s : σ) : f (p.run io s).2 = f s := by
  induction p generalizing s with
  | done b | abort => rfl
  | getc next ih => exact (ih _ _).trans (hgetc s)
  | ungetc c next ih => exact (ih _ _).trans (hungetc c s)
  | left next ih => exact ih _ _

variable {io : Source α σ} {p : Prog α β} {s s' : σ}

/-- The value and the stream that a pair of programs leaves, if the first one returns. -/
theorem Prog.run_bind_of_some {b : β} (h : p.run io s = (some b, s')) (f : β → Prog α γ) :
    (p.bind f).run io s = (f b).run io s' := by
  rw [run_bind, h]

/-- A pair of programs that returns: so do both of them. -/
theorem Prog.run_bind_eq_some {f : β → Prog α γ} {c : γ} (h : (p.bind f).run io s = (some c, s')) :
    ∃ b t, p.run io s = (some b, t) ∧ (f b).run io t = (some c, s') := by
  rw [run_bind] at h
  generalize p.run io s = outcome at h ⊢
  obtain ⟨value, t⟩ := outcome
  cases value with
  | none => cases h
  | some b => exact ⟨b, t, rfl, h⟩

/-- A stream with unlimited push-back takes everything back. -/
theorem Prog.run_putBackAll (cs : List α) (p : Prog α β) (s : List α) :
    (putBackAll cs p).run (unlimited α) s = p.run (unlimited α) (cs.reverse ++ s) := by
  induction cs generalizing s with
  | nil => rfl
  | cons c cs ih =>
    rw [putBackAll, run, ih, reverse_cons, append_assoc]
    rfl

/-! ### Running over a text -/

@[simp] theorem Prog.run_accept_cons (wanted : α → Option τ) (c : α) (cs : List α) :
    (Prog.accept wanted).run (unlimited α) (c :: cs) =
      match wanted c with
      | some t => (some (.taken t), cs)
      | none => (some (.refused c), c :: cs) := by
  simp only [Prog.accept, run, unlimited, head?_cons, tail_cons]
  cases wanted c <;> rfl

section Loop

variable {guard : τ → Bool} (body : τ → α → Choice τ) {t : τ}

theorem Prog.run_readLoop_stop (h : guard t = false) (text : List α) :
    (Prog.readLoop guard body t).run (unlimited α) text = (some (t, .guard), text) := by
  simp [Prog.readLoop, Prog.loop, run, h]

theorem Prog.run_readLoop_nil (h : guard t = true) :
    (Prog.readLoop guard body t).run (unlimited α) [] = (some (t, .ended), []) := by
  simp [Prog.readLoop, Prog.loop, run, unlimited, h]

theorem Prog.run_readLoop_cons (h : guard t = true) (c : α) (cs : List α) :
    (Prog.readLoop guard body t).run (unlimited α) (c :: cs) =
      match body t c with
      | .take t' => (Prog.readLoop guard body t').run (unlimited α) cs
      | .last t' => (some (t', .last), cs)
      | .back t' => (some (t', .back), c :: cs) := by
  rw [Prog.readLoop, run, Prog.loop, if_pos h]
  simp only [run, unlimited, head?_cons, tail_cons]
  cases body t c <;> rfl

end Loop

/-! ### What programs consume -/

theorem rest_getc_eq {text : List α} (hs : io.rest s = text) :
    io.rest (io.getc s).2 = text.tail := by
  rw [io.rest_getc, hs]

/-- What is left to read determines how many characters the program consumes and what it returns,
and these satisfy `P`. -/
def Prog.Yields (p : Prog α β) (P : ℕ → β → Prop) : Prop :=
  ∀ text, ∃ n b, n ≤ text.length ∧ P n b ∧
    ∀ (σ : Type) (io : Source α σ) (s : σ), io.rest s = text →
      ∃ s', p.run io s = (some b, s') ∧ io.rest s' = text.drop n

/-- The number of characters that an attempt has taken. -/
def Prog.Attempt.size : Prog.Attempt α τ → ℕ
  | .taken _ => 1
  | _ => 0

namespace Prog.Yields

variable {P : ℕ → β → Prop}

/-- The program returns. -/
theorem returns (h : p.Yields P) (io : Source α σ) (s : σ) :
    ∃ n b s', p.run io s = (some b, s') ∧ (io.rest s).length = n + (io.rest s').length ∧
      P n b := by
  obtain ⟨n, b, hn, hP, hall⟩ := h (io.rest s)
  obtain ⟨s', hrun, hrest⟩ := hall σ io s rfl
  refine ⟨n, b, s', hrun, ?_, hP⟩
  rw [hrest, length_drop]
  omega

theorem of_run (h : p.Yields P) {b : β} (hrun : p.run io s = (some b, s')) :
    ∃ n, (io.rest s).length = n + (io.rest s').length ∧ P n b := by
  obtain ⟨n, b', t, ht, hn, hP⟩ := h.returns io s
  cases hrun.symm.trans ht
  exact ⟨n, hn, hP⟩

/-- **The program behaves alike on two streams with the same rest.** -/
theorem alike (h : p.Yields P) (io : Source α σ) (io' : Source α ρ) {s' : ρ}
    (hrest : io.rest s = io'.rest s') :
    (p.run io s).1 = (p.run io' s').1 ∧
      io.rest (p.run io s).2 = io'.rest (p.run io' s').2 := by
  obtain ⟨n, b, -, -, hall⟩ := h (io.rest s)
  obtain ⟨t, ht, hleft⟩ := hall σ io s rfl
  obtain ⟨t', ht', hleft'⟩ := hall ρ io' s' hrest.symm
  rw [ht, ht']
  exact ⟨rfl, hleft.trans hleft'.symm⟩

/-- The text tells what a program returns, and what it leaves. -/
theorem of_text (h : p.Yields P) {b b' : β} {rest : List α} (hrun : p.run io s = (some b, s'))
    (htext : p.run (unlimited α) (io.rest s) = (some b', rest)) : b = b' ∧ io.rest s' = rest := by
  have hrest : io.rest s = (unlimited α).rest (io.rest s) := rfl
  have hsame := h.alike io (unlimited α) hrest
  rw [hrun, htext] at hsame
  exact ⟨Option.some.inj hsame.1, hsame.2⟩

theorem done {b : β} (h : P 0 b) : (Prog.done b : Prog α β).Yields P :=
  fun _ => ⟨0, b, Nat.zero_le _, h, fun _ _ s hs => ⟨s, rfl, hs⟩⟩

theorem mono {Q : ℕ → β → Prop} (h : p.Yields P) (hPQ : ∀ n b, P n b → Q n b) : p.Yields Q := by
  intro text
  obtain ⟨n, b, hn, hP, hall⟩ := h text
  exact ⟨n, b, hn, hPQ n b hP, hall⟩

theorem ite {c : Prop} [Decidable c] {q : Prog α β} (hp : c → p.Yields P)
    (hq : ¬ c → q.Yields P) : (if c then p else q).Yields P := by
  split
  case isTrue h => exact hp h
  case isFalse h => exact hq h

/-- One program after another consumes what the two consume. -/
theorem bind {f : β → Prog α γ} {Q : ℕ → γ → Prop} (hp : p.Yields P)
    (hf : ∀ n b, P n b → (f b).Yields fun m c => Q (n + m) c) : (p.bind f).Yields Q := by
  intro text
  obtain ⟨n, b, hn, hP, hall⟩ := hp text
  obtain ⟨m, c, hm, hQ, hall'⟩ := hf n b hP (text.drop n)
  rw [length_drop] at hm
  refine ⟨n + m, c, by omega, hQ, ?_⟩
  intro σ io s hs
  obtain ⟨t, hrun, hrest⟩ := hall σ io s hs
  obtain ⟨t', hrun', hrest'⟩ := hall' σ io t hrest
  rw [drop_drop] at hrest'
  exact ⟨t', (run_bind_of_some hrun f).trans hrun', hrest'⟩

/-- An attempt takes the character or leaves it. -/
theorem accept (wanted : α → Option τ) :
    (Prog.accept wanted).Yields fun n attempt => n = attempt.size := by
  intro text
  cases text with
  | nil =>
    refine ⟨0, .ended, Nat.zero_le _, rfl, fun σ io s hs => ⟨_, ?_, rest_getc_eq hs⟩⟩
    simp [Prog.accept, run, io.getc_fst, hs]
  | cons c text =>
    cases hw : wanted c with
    | some t =>
      refine ⟨1, .taken t, by simp, rfl, fun σ io s hs => ⟨_, ?_, rest_getc_eq hs⟩⟩
      simp [Prog.accept, run, io.getc_fst, hs, hw]
    | none =>
      refine ⟨0, .refused c, Nat.zero_le _, rfl, ?_⟩
      intro σ io s hs
      have hc : (io.rest s).head? = some c := by rw [hs]; rfl
      refine ⟨(io.ungetc c (io.getc s).2).2, ?_, (io.rest_ungetc s c hc).trans hs⟩
      simp [Prog.accept, run, putBack, io.getc_fst, hc, hw, io.ungetc_fst s c hc]

section Loop

variable {guard : τ → Bool} {body : τ → α → Choice τ} {t : τ} {P : ℕ → τ × Ending → Prop}
  (I : ℕ → τ → Prop) (hguard : ∀ n t, I n t → P n (t, .guard))
  (hended : ∀ n t, I n t → P n (t, .ended))
  (hbody : ∀ n t c, I n t →
    match body t c with
    | .take t' => I (n + 1) t'
    | .last t' => P (n + 1) (t', .last)
    | .back t' => P n (t', .back))

include hguard hended hbody

/-- The rule for loops, with an invariant of the number of characters taken so far, and enough fuel
for what is left. -/
theorem loop {k n : ℕ} {text : List α} (hk : text.length < k) (hI : I n t) :
    ∃ m v, m ≤ text.length ∧ P (n + m) v ∧
      ∀ (σ : Type) (io : Source α σ) (s : σ), io.rest s = text →
        ∃ s', (Prog.loop guard body k t).run io s = (some v, s') ∧ io.rest s' = text.drop m := by
  induction k generalizing n t text with
  | zero => omega
  | succ k ih =>
    cases hg : guard t with
    | false =>
      refine ⟨0, (t, .guard), Nat.zero_le _, hguard n t hI, fun σ io s hs => ⟨s, ?_, hs⟩⟩
      simp [Prog.loop, hg, run]
    | true =>
      cases text with
      | nil =>
        refine ⟨0, (t, .ended), Nat.zero_le _, hended n t hI, ?_⟩
        refine fun σ io s hs => ⟨_, ?_, rest_getc_eq hs⟩
        simp [Prog.loop, hg, run, io.getc_fst, hs]
      | cons c text =>
        have hstep := hbody n t c hI
        cases hb : body t c with
        | take t' =>
          rw [hb] at hstep
          obtain ⟨m, v, hm, hP, hall⟩ := ih (Nat.lt_of_succ_lt_succ hk) hstep
          refine ⟨m + 1, v, Nat.succ_le_succ hm, ?_, ?_⟩
          · rw [Nat.add_comm m, ← Nat.add_assoc]
            exact hP
          · intro σ io s hs
            obtain ⟨s', hrun, hrest⟩ := hall σ io _ (rest_getc_eq hs)
            refine ⟨s', ?_, hrest⟩
            rw [← hrun]
            simp [Prog.loop, hg, run, io.getc_fst, hs, hb]
        | last t' =>
          rw [hb] at hstep
          refine ⟨1, (t', .last), by simp, hstep, fun σ io s hs => ⟨_, ?_, rest_getc_eq hs⟩⟩
          simp [Prog.loop, hg, run, io.getc_fst, hs, hb]
        | back t' =>
          rw [hb] at hstep
          refine ⟨0, (t', .back), Nat.zero_le _, hstep, ?_⟩
          intro σ io s hs
          have hc : (io.rest s).head? = some c := by rw [hs]; rfl
          refine ⟨(io.ungetc c (io.getc s).2).2, ?_, (io.rest_ungetc s c hc).trans hs⟩
          simp [Prog.loop, hg, run, putBack, io.getc_fst, hc, hb, io.ungetc_fst s c hc]

/-- The rule for `readLoop`, whose fuel is what is left. -/
theorem readLoop (hstart : I 0 t) : (Prog.readLoop guard body t).Yields P := by
  intro text
  obtain ⟨m, v, hm, hP, hall⟩ := loop I hguard hended hbody (Nat.lt_succ_self text.length) hstart
  rw [Nat.zero_add] at hP
  refine ⟨m, v, hm, hP, fun σ io s hs => ?_⟩
  obtain ⟨s', hrun, hrest⟩ := hall σ io s hs
  rw [← hs] at hrun
  exact ⟨s', hrun, hrest⟩

end Loop

/-- Every loop. -/
theorem readLoop_true {guard : τ → Bool} {body : τ → α → Choice τ} {t : τ} :
    (Prog.readLoop guard body t).Yields fun _ _ => True :=
  readLoop (fun _ _ => True) (fun _ _ h => h) (fun _ _ h => h)
    (fun _ t c _ => by cases body t c <;> trivial) trivial

/-- The rule for loops that count what they take. -/
theorem readLoop_count {guard : τ → Bool} {body : τ → α → Choice τ} {t : τ} (count : τ → ℕ)
    (hbody : ∀ t c,
      match body t c with
      | .take t' => count t' = count t + 1
      | .last t' => count t' = count t + 1
      | .back t' => count t' = count t) :
    (Prog.readLoop guard body t).Yields fun n v => count v.1 = count t + n := by
  refine readLoop (fun n u => count u = count t + n) (fun n u h => h) (fun n u h => h) ?_ rfl
  intro n u c hu
  have hstep := hbody u c
  cases hb : body u c with
  | take u' | last u' =>
    rw [hb] at hstep
    exact hstep.trans (by omega)
  | back u' =>
    rw [hb] at hstep
    exact hstep.trans hu

end Prog.Yields

/-- A loop that ends with a character pushed back has just read it. -/
theorem Prog.run_loop_back {guard : τ → Bool} {body : τ → α → Choice τ} {n : ℕ} {t t' : τ}
    (h : (Prog.loop guard body n t).run io s = (some (t', .back), s')) :
    ∃ s₀ c, (io.rest s₀).head? = some c ∧ s' = (io.ungetc c (io.getc s₀).2).2 := by
  induction n generalizing t s with
  | zero => cases h
  | succ n ih =>
    rw [Prog.loop] at h
    split at h
    case isFalse => cases h
    case isTrue =>
      rw [run, io.getc_fst] at h
      cases hc : (io.rest s).head? with
      | none =>
        rw [hc] at h
        cases h
      | some c =>
        rw [hc] at h
        dsimp only at h
        cases hb : body t c with
        | take t₁ =>
          rw [hb] at h
          exact ih h
        | last t₁ =>
          rw [hb] at h
          cases h
        | back t₁ =>
          rw [hb] at h
          dsimp only [putBack, run] at h
          rw [io.ungetc_fst s c hc] at h
          cases h
          exact ⟨s, c, hc, rfl⟩

/-! ### Pushing back several characters -/

/-- Push characters back as far as possible. -/
def Source.ungetAll (io : Source α σ) : List α → σ → σ
  | [], s => s
  | c :: cs, s => io.ungetAll cs (io.ungetc c s).2

theorem Prog.run_putBackAll_eq (io : Source α σ) (cs : List α) (p : Prog α β) (s : σ) :
    (putBackAll cs p).run io s = p.run io (io.ungetAll cs s) := by
  induction cs generalizing s with
  | nil => rfl
  | cons c cs ih => exact ih _

/-- A stream that takes back the characters in a window: when `n` characters are left to read and
the first of them has just been pushed back, then `window s n` more come back. -/
structure Source.Windowed (io : Source α σ) (window : σ → ℕ → ℕ) : Prop where
  getc : ∀ s, window (io.getc s).2 = window s
  ungetc : ∀ c s, window (io.ungetc c s).2 = window s
  length_back : ∀ s c cs, (io.rest s).head? = some c →
    (io.rest (io.ungetAll cs (io.ungetc c (io.getc s).2).2)).length =
      (io.rest s).length + min cs.length (window s (io.rest s).length)

/-- A program does not move the window. -/
theorem Source.Windowed.run {window : σ → ℕ → ℕ} (h : io.Windowed window) (p : Prog α β) (s : σ) :
    window (p.run io s).2 = window s :=
  Prog.run_invariant window h.getc h.ungetc p s

end Run

end PushBack
