import Clib4.Scanf.Refill

/-!
# The count of characters in vfscanf

`%n` stores `total_num_chars_read`, which every branch of the loop keeps by hand.  All branches
count exactly what they consume, but for the conversions of floating point numbers: when they have
found a keyword, the count is set to the length of the keyword, and the letters of a keyword that
has been given up are not counted even if they do not return to the stream.

So the count and what is left to read make up the whole input, until the first conversion that
loses something; and from there on they never do again, since what is lost is never found.

## Main definitions

* `StreamState.Counted` — the text in front of a conversion is one that it counts.
* `StreamState.total` — the count, and the characters that are left.

## Main results

* `percentN_iff` — **`%n` stores the number of characters consumed just if every conversion before
  it was counted, and the number fits into an `int` and into the object.**
-/

namespace Clib4

open PushBack PushBack.Prog

/-- No letter of a field is lost, with `before` characters in front of it.  A keyword has to be the
first thing that is read, with no other letters before it; letters that fit no keyword have to be in
the room that the stream has for them; and there must be none if the field ends before. -/
def FieldCounted (before : ℕ) (field : List UInt8) (room : ℕ → ℕ) : Prop :=
  match findKeyword 0 0 field with
  | (letters, .infinity length) => before = 0 ∧ letters = length
  | (letters, .nan) => before = 0 ∧ letters = 3
  | (letters, .misfit) => letters ≤ room letters
  | (letters, .part) => letters = 0

section Float

variable {L D : Type} {arith : Arith L D} {σ : Type} {io : Source UInt8 σ}

/-! ### One iteration -/

/-- A conversion counts what it consumes of the text in front of it. -/
def FloatCounted (io : Source UInt8 σ) (window : σ → ℕ → ℕ) (spec : Spec) (read : ℕ) (stream : σ) :
    Prop :=
  let text := io.rest stream
  let (before, field) := floatField spec text
  FieldCounted (read + before) field fun letters =>
    window stream (text.length - (before + letters))

/-- If the next directive converts a floating point number, then it is counted. -/
def StreamState.Counted (io : Source UInt8 σ) (window : σ → ℕ → ℕ) (s : StreamState σ) : Prop :=
  ∀ t, nextFloat s.format = some t → FloatCounted io window t.1 s.read s.stream

/-- The count, and the characters that are left. -/
def StreamState.total (io : Source UInt8 σ) (s : StreamState σ) : ℕ :=
  s.read + (io.rest s.stream).length

theorem Keyword.restored_infinity (k : Keyword) : k.restored.infinity = k.infinity := by
  rw [Keyword.restored]
  split <;> rfl

theorem Keyword.restored_nan (k : Keyword) : k.restored.nan = k.nan := by
  rw [Keyword.restored]
  split <;> rfl

variable {window : σ → ℕ → ℕ}

/-- **A conversion of a floating point number**: the total shrinks unless it is counted. -/
theorem float_total (hio : io.Windowed window) {spec : Spec} (hletter : spec.letter = 102)
    {conversions read : ℕ} {front : Bool × ℕ × Keyword} {s₀ s₁ s₂ : σ} {o : Outcome}
    (hfront : (floatFront spec read).run io s₀ = (some front, s₁))
    (hrest : (Prog.putBackAll front.2.2.debt (floatRest arith spec conversions front.1 front.2.1
      front.2.2.restored)).run io s₁ = (some o, s₂)) (hexit : o.exit = .next) :
    o.read + (io.rest s₂).length ≤ read + (io.rest s₀).length ∧
    (o.read + (io.rest s₂).length = read + (io.rest s₀).length ↔
      FloatCounted io window spec read s₀) := by
  obtain ⟨negative, k, m, rest, htext, hlen, hfound⟩ :=
    run_floatFront_unlimited hletter read (io.rest s₀)
  -- the stream does not matter for what is found
  obtain ⟨rfl, rfl⟩ := (floatFront_yields spec read).of_text hfront htext
  rw [run_putBackAll_eq] at hrest
  obtain ⟨n, hn, ho⟩ :=
    (floatRest_yields arith spec conversions negative _ k.restored).of_run hrest
  rw [k.restored_infinity, k.restored_nan] at ho
  -- letters that are not returned
  have hkept : k.failed = false → (io.rest (io.ungetAll k.debt s₁)).length
      = (io.rest s₁).length := by
    intro hfailed
    rw [Keyword.debt, hfailed]
    rfl
  have hletters := hfound.length
  have hshows := hfound.shows
  have hlong := length_findKeyword 0 0 (floatField spec (io.rest s₀)).2
  unfold FloatCounted
  dsimp only at hn ho ⊢
  unfold FieldCounted
  generalize findKeyword 0 0 (floatField spec (io.rest s₀)).2 = found at hletters hshows hlong ⊢
  obtain ⟨letters, finding⟩ := found
  obtain rfl : k.letters.length = letters := hletters
  cases finding with
  | infinity length =>
    obtain ⟨rfl, hthree, -, hfailed, rfl⟩ := hshows
    have hback := hkept hfailed
    rw [if_pos hthree] at ho
    dsimp only at hlong ⊢
    omega
  | nan =>
    obtain ⟨hi, hj, hfailed⟩ := hshows
    have hback := hkept hfailed
    rw [if_neg (by omega), if_pos (by omega)] at ho
    dsimp only at hlong ⊢
    omega
  | misfit =>
    obtain ⟨hi, hj, hfailed, rfl⟩ := hshows
    have hdebt : k.debt.length = k.letters.length := by
      rw [Keyword.debt, if_pos hfailed, List.length_reverse]
    obtain ⟨s, c, hc, rfl⟩ := floatFront_back hfront hfailed
    have hback := hio.length_back s c k.debt hc
    have hwindow : window s = window s₀ := by
      have hrun := hio.run (floatFront spec read) s₀
      rw [hfront] at hrun
      rw [← hrun]
      exact ((hio.ungetc c _).trans (hio.getc s)).symm
    rw [io.rest_ungetc s c hc] at hlen
    have hplace : (io.rest s₀).length - ((floatField spec (io.rest s₀)).1 + k.letters.length)
        = (io.rest s).length := by omega
    rw [if_neg (by omega), if_neg (by omega)] at ho
    have hread := ho hexit
    dsimp only
    rw [hplace, ← hwindow]
    rw [hdebt] at hback
    omega
  | part =>
    obtain ⟨hi, hj, hfailed, rfl⟩ := hshows
    have hback := hkept hfailed
    rw [if_neg (by omega), if_neg (by omega)] at ho
    have hread := ho hexit
    dsimp only
    omega

variable {s s' : StreamState σ}

/-- **One iteration**: the total shrinks unless the conversion is counted. -/
theorem total_streamBody (hio : io.Windowed window) (h : streamBody arith io s = .inl s') :
    s'.total io ≤ s.total io ∧ (s'.total io = s.total io ↔ s.Counted io window) := by
  have hkind := nextMove_isMove arith s
  -- nothing is lost where no number is converted
  have hkeeps : nextFloat s.format = none → s'.total io = s.total io →
      s'.total io ≤ s.total io ∧ (s'.total io = s.total io ↔ s.Counted io window) := by
    intro hnone heq
    refine ⟨heq.le, iff_of_true heq fun t ht => ?_⟩
    cases hnone.symm.trans ht
  rcases streamBody_inl h with
    ⟨hmove, hstream, hread⟩ | ⟨branch, format, o, hmove, hrun, hexit, hread, -⟩
  all_goals rw [hmove] at hkind
  · cases hkind with
    | skip hnone =>
      exact hkeeps hnone (by rw [StreamState.total, StreamState.total, hstream, hread])
  · cases hkind with
    | plain hnone _ hcount =>
      obtain ⟨n, hn, ho⟩ := hcount.of_run hrun
      exact hkeeps hnone (by rw [StreamState.total, StreamState.total]; omega)
    | @float spec _ hsome _ hletter =>
      rw [dispatchScanner_float arith hletter] at hrun
      obtain ⟨front, stream, hfront, hrest⟩ := run_bind_eq_some hrun
      obtain ⟨hle, hiff⟩ := float_total hio hletter hfront hrest hexit
      rw [StreamState.total, StreamState.total, hread]
      rw [hiff]
      refine ⟨hle, ?_, fun hcounted => hcounted (spec, format) hsome⟩
      intro hcounted t ht
      obtain rfl : (spec, format) = t := Option.some.inj (hsome.symm.trans ht)
      exact hcounted

/-! ### A whole run -/

/-- The loop comes from the one state to the other, in one iteration or more. -/
def Precedes (arith : Arith L D) (io : Source UInt8 σ) : StreamState σ → StreamState σ → Prop :=
  Relation.TransGen fun a a' => streamBody arith io a = .inl a'

theorem Precedes.length_lt (h : Precedes arith io s s') : s'.format.length < s.format.length := by
  induction h with
  | single hstep => exact streamBody_shortens hstep
  | tail _ hstep ih => exact (streamBody_shortens hstep).trans ih

theorem length_le_of_reaches (h : Loop.Reaches (streamBody arith io) s s') :
    s'.format.length ≤ s.format.length := by
  rcases Relation.reflTransGen_iff_eq_or_transGen.1 h with rfl | htrans
  · exact Nat.le_refl _
  · exact (Precedes.length_lt htrans).le

/-- **A whole run**: the total is still the same just if every conversion before was counted. -/
theorem total_iff (hio : io.Windowed window) {s₀ : StreamState σ}
    (h : Loop.Reaches (streamBody arith io) s₀ s) :
    s.total io ≤ s₀.total io ∧
    (s.total io = s₀.total io ↔ ∀ t, Loop.Reaches (streamBody arith io) s₀ t →
      Precedes arith io t s → t.Counted io window) := by
  -- by the first iteration
  induction h using Relation.ReflTransGen.head_induction_on with
  | refl =>
    refine ⟨Nat.le_refl _, iff_of_true rfl ?_⟩
    intro t hreaches hprecedes
    have hlt := hprecedes.length_lt
    have hle := length_le_of_reaches hreaches
    omega
  | head hstep hreaches ih =>
    obtain ⟨hle, hiff⟩ := ih
    obtain ⟨hle', hiff'⟩ := total_streamBody hio hstep
    rw [Loop.forall_reaches_of_inl hstep, ← hiff]
    have hfirst : ∀ {P : Prop}, (Precedes arith io _ s → P) ↔ P :=
      ⟨fun hP => hP (.head' hstep hreaches), fun hP _ => hP⟩
    rw [hfirst, ← hiff']
    omega

/-- The number of characters that have been consumed since the call. -/
def position (io : Source UInt8 σ) (stream : σ) (s : StreamState σ) : ℕ :=
  (io.rest stream).length - (io.rest s.stream).length

/-- The format goes on with a `%n` whose assignment is not suppressed. -/
def StreamState.AtCount (s : StreamState σ) (spec : Spec) : Prop :=
  (∃ f format, s.format = percent :: f ∧ parseSpec f = .spec spec format) ∧ spec.letter = 110 ∧
    spec.suppressed = false

/-- The next iteration stores the output. -/
def StreamState.Stores (arith : Arith L D) (io : Source UInt8 σ) (s : StreamState σ)
    (output : Output) : Prop :=
  ∃ e : Effect, effectsOf (streamBody arith io s) = s.effects ++ [e] ∧ e.stored = some output

theorem stores_count {spec : Spec} (h : s.AtCount spec) (output : Output) :
    s.Stores arith io output ↔
      output = .integer spec.size (countBits spec.size s.read) := by
  obtain ⟨⟨f, format, hfmt, hparse⟩, hletter, hstore⟩ := h
  have hspace : isSpace percent = false := by decide
  have hmove : nextMove arith s
      = .run (dispatchScanner arith spec format s.conversions s.read) format := by
    rw [nextMove, hfmt]
    simp [hspace, hparse]
  have hrun : (dispatchScanner arith spec format s.conversions s.read).run io s.stream
      = (some { read := s.read
                stored := some (.integer spec.size (countBits spec.size s.read)) },
        s.stream) := by
    simp [dispatchScanner, blanksBefore, hletter, intKind, Spec.store, hstore, Prog.run]
  have hbody : effectsOf (streamBody arith io s) = s.effects ++
      [⟨consumedBetween io s.stream s.stream,
        some (.integer spec.size (countBits spec.size s.read)), false, false⟩] := by
    rw [streamBody, hmove]
    dsimp only
    rw [StreamState.runBranch, hrun]
    rfl
  rw [StreamState.Stores, hbody]
  constructor
  · rintro ⟨e, he, hstored⟩
    obtain rfl := List.singleton_inj.1 (List.append_cancel_left he)
    exact (Option.some.inj hstored).symm
  · rintro rfl
    exact ⟨_, rfl, rfl⟩

theorem bmod_countBits_iff (size : Size) {n p : ℕ} (h : n ≤ p) :
    (countBits size n : ℤ).bmod (2 ^ size.bits) = p ↔ n = p ∧ p < 2 ^ (min size.bits 32 - 1) := by
  have hbits : size.bits = 8 ∧ 2 ^ (min size.bits 32 - 1) = 128 ∨
      size.bits = 16 ∧ 2 ^ (min size.bits 32 - 1) = 32768 ∨
      size.bits = 32 ∧ 2 ^ (min size.bits 32 - 1) = 2147483648 ∨
      size.bits = 64 ∧ 2 ^ (min size.bits 32 - 1) = 2147483648 := by
    cases size <;> decide
  unfold countBits
  rcases hbits with ⟨hb, hhalf⟩ | ⟨hb, hhalf⟩ | ⟨hb, hhalf⟩ | ⟨hb, hhalf⟩
  all_goals
    rw [hhalf, hb]
    simp only [Int.bmod_def]
    split_ifs <;> omega

/-- **`%n` stores the number of characters consumed**, as a number that the object holds, just if
every conversion before it was counted, and the number fits into an `int` and into the object. -/
theorem percentN_iff (hio : io.Windowed window) {format : List UInt8} {stream : σ}
    {s : StreamState σ} (hs : Loop.Reaches (streamBody arith io) { format, stream } s) {spec : Spec}
    (hspec : s.AtCount spec) :
    (∃ bits : ℕ, s.Stores arith io (.integer spec.size bits) ∧
      (bits : ℤ).bmod (2 ^ spec.size.bits) = position io stream s) ↔
    (∀ t, Loop.Reaches (streamBody arith io) { format, stream } t → Precedes arith io t s →
      t.Counted io window) ∧ position io stream s < 2 ^ (min spec.size.bits 32 - 1) := by
  obtain ⟨hle, hiff⟩ := total_iff hio hs
  simp only [StreamState.total, Nat.zero_add] at hle hiff
  rw [← hiff]
  have hread : s.read ≤ position io stream s := by
    unfold position
    omega
  have hexact : s.read = position io stream s ↔
      s.read + (io.rest s.stream).length = (io.rest stream).length := by
    unfold position
    omega
  rw [← hexact, ← bmod_countBits_iff spec.size hread]
  constructor
  · rintro ⟨bits, hstores, hvalue⟩
    obtain ⟨-, hbits⟩ := Output.integer.inj ((stores_count hspec _).1 hstores)
    rwa [hbits] at hvalue
  · intro hvalue
    exact ⟨_, (stores_count hspec _).2 rfl, hvalue⟩

end Float

/-- The window of the stream of `vsscanf`: what it has of the last 32 characters. -/
def refillWindow (s : StringIob) (left : ℕ) : ℕ := (s.string.length - left) % localBufferSize

theorem stringIob_windowed : stringIob.Windowed refillWindow where
  getc s := by
    unfold refillWindow
    rw [show (stringIob.getc s).2.string = s.string from s.string_getc]
  ungetc c s := by
    unfold refillWindow
    rw [show (stringIob.ungetc c s).2.string = s.string from s.string_ungetc c]
  length_back s c cs h := by
    have hmod := StringIob.index_mod (StringIob.position_lt_of_ungetc_getc h)
    have hrest : (s.getc.2.ungetc c).2.rest = s.rest := (s.ungetc_getc c h).2
    rw [StringIob.index, StringIob.string_ungetc, StringIob.string_getc, hrest] at hmod
    refine (StringIob.length_rest_ungetAll cs (s.getc.2.ungetc c).2).trans ?_
    rw [hrest, ← hmod]
    rfl

/-- The state of `vsscanf` behind the literal of `a%n`, on the string `ab`. -/
def behindLiteral : StreamState StringIob where
  format := [37, 110]
  stream := (stringIob.getc (StringIob.start [97, 98])).2
  read := 1
  effects := [{ consumed := [97] }]

theorem percentN_of_literal :
    ∃ bits : ℕ, behindLiteral.Stores noArith stringIob (.integer .default bits) ∧
      (bits : ℤ).bmod (2 ^ 32) = 1 := by
  have hstep : streamBody noArith stringIob
      { format := [97, 37, 110], stream := StringIob.start [97, 98] } = .inl behindLiteral := rfl
  have hcount : behindLiteral.AtCount ⟨false, none, .default, 110⟩ :=
    ⟨⟨[110], [], rfl, rfl⟩, rfl, rfl⟩
  refine (percentN_iff stringIob_windowed (.single hstep) hcount).2 ⟨?_, by decide⟩
  -- the literal is the only directive before
  have hnone : nextFloat [97, 37, 110] = none := by decide
  refine (Loop.forall_reaches_of_inl hstep _).2 ⟨fun _ t ht => ?_, ?_⟩
  · cases hnone.symm.trans ht
  intro t hreaches hprecedes
  have hlt := hprecedes.length_lt
  have hle := length_le_of_reaches hreaches
  omega

/-- `%f%n` on ` inf`: four characters are consumed, and 3 is stored. -/
theorem percentN_behind_infinity :
    vsscanfBuffered noArith [37, 102, 37, 110] [32, 105, 110, 102] =
      some ⟨1, [⟨[32, 105, 110, 102], some (.chars []), true, true⟩,
        ⟨[], some (.integer .default 3), false, false⟩]⟩ := by
  decide +kernel

end Clib4
