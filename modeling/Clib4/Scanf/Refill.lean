import Clib4.Scanf.Keyword
import Clib4.Scanf.Steps
import Clib4.Scanf.StringIob

/-!
# Scanning and the refills of the buffer

Every branch of `vfscanf` pushes back only the character it has read last, so it cannot tell the
stream of `vsscanf` from one with unlimited push-back.  The one exception is a keyword that
fails: its letters come back only as far as the buffer reaches.

## Main definitions

* `HasRoom` — if the next directive converts a floating point number, the letters of a keyword
  that fails lie in the same part of the string as the character that fails.

## Main results

* `vsscanf_refill_iff` — **the refills make no difference just if there is room whenever a
  keyword fails.**
-/

namespace Clib4

open PushBack PushBack.Prog List

section Float

variable {L D : Type} (arith : Arith L D)

/-- A conversion of a floating point number, cut where the letters of a keyword are returned. -/
theorem dispatchScanner_float {spec : Spec} (h : spec.letter = 102) (format : List UInt8)
    (conversions read : ℕ) :
    dispatchScanner arith spec format conversions read =
      (floatFront spec read).bind fun t =>
        Prog.putBackAll t.2.2.debt (floatRest arith spec conversions t.1 t.2.1 t.2.2.restored) := by
  have hbr : dispatchScanner arith spec format conversions read =
      (blanksBefore spec.letter read).bind fun t => floatScanner arith spec conversions t.1 := by
    rw [dispatchScanner, h]
    rfl
  rw [hbr, floatFront, Prog.bind_assoc]
  rfl

/-- A number does not begin with the first letter of a keyword. -/
theorem run_numberScanner_letter (conversions : ℕ) (t : FloatState L) {c : UInt8}
    (hc : StartsKeyword c) (cs : List UInt8) :
    ((numberScanner arith conversions t).run (unlimited UInt8) (c :: cs)).2 = c :: cs := by
  have hzero : c ≠ 48 := by
    rcases hc.cases with rfl | rfl | rfl | rfl <;> decide
  have hdigit : digitValue 10 c = 10 := by
    rcases hc.cases with rfl | rfl | rfl | rfl <;> decide
  have hpoint : ¬ (c = 46 ∨ isExponent 10 c = true) := by
    rcases hc.cases with rfl | rfl | rfl | rfl <;> decide
  have hhex : (hexScanner t).run (unlimited UInt8) (c :: cs) = (some (10, t), c :: cs) := by
    rw [hexScanner]
    split
    · rfl
    · simp [Prog.accept, Prog.run, Prog.bind, Prog.putBack, wanted, hzero, unlimited]
  have hwhole : ¬ t.width = 0 →
      (Prog.readLoop (fun t => decide (t.width ≠ 0)) (wholeBody arith 10) t).run
        (unlimited UInt8) (c :: cs) = (some (t, .back), c :: cs) := by
    intro hwidth
    simp [Prog.readLoop, Prog.loop, Prog.run, Prog.putBack, wholeBody, hdigit, unlimited, hwidth]
  have hrest : ¬ t.width = 0 → (pointScanner arith 10 t).run (unlimited UInt8) (c :: cs)
      = (some (t, false), c :: cs) := by
    intro hwidth
    rw [pointScanner, if_neg hwidth]
    simp [Prog.accept, Prog.run, Prog.bind, Prog.putBack, wanted, hpoint, unlimited]
  rw [numberScanner, Prog.bind_eq, run_bind_of_some hhex]
  dsimp only
  split
  case isTrue => rfl
  case isFalse hwidth =>
    rw [Prog.bind_eq, run_bind_of_some (hwhole hwidth)]
    rw [if_neg (by simp), Prog.bind_eq, run_bind_of_some (hrest hwidth)]
    rfl

theorem run_floatRest_letter (spec : Spec) (conversions : ℕ) (negative : Bool) (read : ℕ)
    {k : Keyword} (hk : k.infinity = 0 ∧ k.nan = 0) {c : UInt8} (hc : StartsKeyword c)
    (cs : List UInt8) :
    ((floatRest arith spec conversions negative read k).run (unlimited UInt8) (c :: cs)).2
      = c :: cs := by
  have hnum := run_numberScanner_letter arith conversions ⟨k.width, read, 0, arith.zero⟩ hc cs
  rw [floatRest, if_neg (by omega), if_neg (by omega), Prog.bind_eq, run_bind]
  generalize (numberScanner arith conversions ⟨k.width, read, 0, arith.zero⟩).run
    (unlimited UInt8) (c :: cs) = outcome at hnum ⊢
  obtain ⟨value, rest⟩ := outcome
  cases value with
  | none => exact hnum
  | some t =>
    cases t with
    | none | some t => exact hnum

/-! ### One conversion on the two streams -/

/-- The letters that a conversion returns lie in the buffer: the position of the string where
the rest begins is no multiple of the buffer's size plus less than their number. -/
def FloatRoom (spec : Spec) (read : ℕ) (string input : List UInt8) : Prop :=
  ∀ t rest, (floatFront spec read).run (unlimited UInt8) input = (some t, rest) →
    t.2.2.debt.length ≤ (string.length - rest.length) % localBufferSize

variable {arith}

variable {b : StreamState StringIob} {input : List UInt8} {r : StreamState (List UInt8)}

/-- The beginning of a conversion is the same on both streams; and the letters to be returned
lie in the buffer if there is room. -/
theorem run_floatFront (spec : Spec) (read : ℕ) {b : StringIob} (hrest : b.rest = input) :
    ∃ v b' input', (floatFront spec read).run stringIob b = (v, b') ∧
      (floatFront spec read).run (unlimited UInt8) input = (v, input') ∧ b'.rest = input' ∧
      ∀ t, v = some t → (t.2.2.debt.length ≤ b'.position ↔
        t.2.2.debt.length ≤ (b.string.length - input'.length) % localBufferSize) := by
  have hsame := (floatFront_yields spec read).alike stringIob (unlimited UInt8) hrest
  have hstring := StringIob.string_run (floatFront spec read) b
  cases hb : (floatFront spec read).run stringIob b with
  | mk v b' =>
    cases hinput : (floatFront spec read).run (unlimited UInt8) input with
    | mk v' input' =>
      rw [hb, hinput] at hsame
      rw [hb] at hstring
      obtain ⟨rfl, hrest'⟩ := hsame
      refine ⟨v, b', input', rfl, rfl, hrest', ?_⟩
      rintro t rfl
      cases hfailed : t.2.2.failed with
      | false => simp [Keyword.debt, hfailed]
      | true =>
        obtain ⟨s₀, c, hc, rfl⟩ := floatFront_back hb hfailed
        have hmod := StringIob.index_mod (StringIob.position_lt_of_ungetc_getc hc)
        have hlen := congrArg List.length hrest'
        have hindex : (s₀.getc.2.ungetc c).2.index = b.string.length - input'.length := by
          exact congrArg₂ (· - ·) (congrArg List.length hstring) hlen
        rw [← hindex, hmod]
        rfl

theorem run_float_of_room {spec : Spec} (h : spec.letter = 102) {read : ℕ} {b : StringIob}
    (hrest : b.rest = input) (hroom : FloatRoom spec read b.string input) (format : List UInt8)
    (conversions : ℕ) :
    ((dispatchScanner arith spec format conversions read).run stringIob b).1
        = ((dispatchScanner arith spec format conversions read).run (unlimited UInt8) input).1 ∧
      ((dispatchScanner arith spec format conversions read).run stringIob b).2.rest
        = ((dispatchScanner arith spec format conversions read).run (unlimited UInt8) input).2 := by
  obtain ⟨v, b', input', hb, hinput, hrest', hpos⟩ :=
    run_floatFront spec read hrest
  rw [dispatchScanner_float arith h, run_bind, run_bind, hb, hinput]
  cases v with
  | none => exact ⟨rfl, hrest'⟩
  | some t =>
    have hle := (hpos t rfl).2 (hroom t input' hinput)
    dsimp only
    rw [run_putBackAll_eq, run_putBackAll]
    apply (floatRest_yields arith spec conversions t.1 t.2.1 t.2.2.restored).alike stringIob
      (unlimited UInt8)
    show (stringIob.ungetAll t.2.2.debt b').rest = t.2.2.debt.reverse ++ input'
    rw [StringIob.rest_ungetAll hle, hrest']

variable (arith) in
/-- Without room, a conversion leaves less on the stream of `vsscanf`. -/
theorem run_float_of_not_room {spec : Spec} (h : spec.letter = 102) {read : ℕ} {b : StringIob}
    (hrest : b.rest = input) (hroom : ¬ FloatRoom spec read b.string input) (format : List UInt8)
    (conversions : ℕ) :
    ((dispatchScanner arith spec format conversions read).run stringIob b).2.rest.length
        < ((dispatchScanner arith spec format conversions read).run (unlimited UInt8)
            input).2.length ∧
      ((dispatchScanner arith spec format conversions read).run (unlimited UInt8)
        input).2.length ≤ input.length := by
  obtain ⟨v, b', input', hb, hinput, hrest', hpos⟩ :=
    run_floatFront spec read hrest
  rw [FloatRoom] at hroom
  push Not at hroom
  obtain ⟨t, rest, hrun, hlt⟩ := hroom
  obtain ⟨rfl, rfl⟩ : v = some t ∧ input' = rest := by
    have heq := hinput.symm.trans hrun
    exact ⟨congrArg Prod.fst heq, congrArg Prod.snd heq⟩
  obtain ⟨negative, k, n, rest, htext, hn, hfound⟩ := run_floatFront_unlimited h read input
  cases hinput.symm.trans htext
  have hgt : b'.position < k.debt.length := by
    by_contra hle
    exact absurd ((hpos _ rfl).1 (Nat.le_of_not_lt hle)) (Nat.not_le.2 hlt)
  -- only a keyword that fails has letters to return
  have hfailed : k.failed = true := by
    by_contra hfailed
    rw [Keyword.debt, if_neg hfailed] at hgt
    exact absurd hgt (Nat.not_lt_zero _)
  have hdebt : k.debt = k.letters.reverse := if_pos hfailed
  have hlen : k.letters.length + input'.length ≤ input.length := by omega
  rw [dispatchScanner_float arith h, run_bind, run_bind, hb, hinput]
  dsimp only
  rw [run_putBackAll_eq, run_putBackAll, hdebt, reverse_reverse]
  rw [hdebt, length_reverse] at hgt
  cases hletters : k.letters with
  | nil =>
    rw [hletters] at hgt
    exact absurd hgt (Nat.not_lt_zero _)
  | cons c cs =>
    rw [← hletters]
    obtain ⟨hinf, hnan, -⟩ := hfound.shows.of_failed hfailed
    have hrestored : k.restored.infinity = 0 ∧ k.restored.nan = 0 := by
      rw [Keyword.restored, if_pos hfailed]
      exact ⟨hinf, hnan⟩
    have hnothing := run_floatRest_letter arith spec conversions negative
      (read + (floatField spec input).1) hrestored (hfound.starts hletters) (cs ++ input')
    rw [← cons_append, ← hletters] at hnothing
    have hback : (stringIob.ungetAll k.letters.reverse b').rest.length
        = b'.rest.length + b'.position := by
      rw [StringIob.length_rest_ungetAll, length_reverse, Nat.min_eq_right hgt.le]
    rw [hnothing, length_append]
    obtain ⟨n', v, b'', hrun, hleft, -⟩ := (floatRest_yields arith spec conversions negative
      (read + (floatField spec input).1) k.restored).returns stringIob
        (stringIob.ungetAll k.letters.reverse b')
    change (stringIob.ungetAll k.letters.reverse b').rest.length = n' + b''.rest.length at hleft
    rw [hback, hrest'] at hleft
    refine ⟨?_, hlen⟩
    rw [hrun]
    dsimp only
    omega

/-! ### One iteration on the two streams -/

/-- The specification of a floating point number that the format begins with, and the format
behind it. -/
def nextFloat (format : List UInt8) : Option (Spec × List UInt8) :=
  match format with
  | [] => none
  | c :: format =>
    if isSpace c = false ∧ c = percent then
      match parseSpec format with
      | .spec spec format => if spec.letter = 102 then some (spec, format) else none
      | _ => none
    else none

/-- If the next directive converts a floating point number, then there is room. -/
def HasRoom (string : List UInt8) (s : StreamState (List UInt8)) : Prop :=
  ∀ t, nextFloat s.format = some t → FloatRoom t.1 s.read string s.stream

variable (arith) in
/-- What an iteration can be about: nothing, a directive that is skipped, one that counts what it
consumes, or a floating point number. -/
inductive IsMove {σ : Type} (s : StreamState σ) : Move → Prop
  | stop (h : nextFloat s.format = none) : IsMove s .stop
  | skip {format : List UInt8} (h : nextFloat s.format = none)
    (hlen : format.length < s.format.length) : IsMove s (.skip format)
  | plain {branch : Scanner Outcome} {format : List UInt8} (h : nextFloat s.format = none)
    (hlen : format.length < s.format.length) (hcount : Counting branch s.read) :
    IsMove s (.run branch format)
  | float {spec : Spec} {format : List UInt8} (h : nextFloat s.format = some (spec, format))
    (hlen : format.length < s.format.length) (hletter : spec.letter = 102) :
    IsMove s (.run (dispatchScanner arith spec format s.conversions s.read) format)

variable (arith) in
theorem nextMove_isMove {σ : Type} (s : StreamState σ) :
    IsMove arith s (nextMove arith s) := by
  unfold nextMove
  cases hfmt : s.format with
  | nil => exact .stop (by rw [hfmt]; rfl)
  | cons c rest =>
    have hlt : rest.length < s.format.length := by rw [hfmt]; exact Nat.lt_succ_self _
    have hlen := length_parseSpec rest
    have hnext : nextFloat s.format = nextFloat (c :: rest) := by rw [hfmt]
    rw [nextFloat] at hnext
    dsimp only
    split_ifs with hspace hpercent
    · rw [if_neg (by simp [hspace])] at hnext
      exact .plain hnext hlt (spaceScanner_counting _ _)
    · rw [if_neg (by simp [hpercent])] at hnext
      exact .plain hnext hlt (matchScanner_counting _ _ _)
    · rw [if_pos ⟨by simpa using hspace, not_not.1 hpercent⟩] at hnext
      cases hspec : parseSpec rest with
      | ended => exact .stop (by rw [hnext, hspec])
      | unknown format =>
        rw [hspec] at hlen hnext
        exact .skip hnext (hlen.trans_lt hlt)
      | spec spec format =>
        rw [hspec] at hlen hnext
        by_cases hletter : spec.letter = 102
        · exact .float (hnext.trans (if_pos hletter)) (hlen.trans_lt hlt) hletter
        · exact .plain (hnext.trans (if_neg hletter)) (hlen.trans_lt hlt)
            (dispatchScanner_counting arith hletter _ _ _)

/-- Two states of the loop over the two streams that differ in the stream only. -/
structure Related (b : StreamState StringIob) (r : StreamState (List UInt8)) : Prop where
  format : b.format = r.format
  read : b.read = r.read
  conversions : b.conversions = r.conversions
  assignments : b.assignments = r.assignments
  effects : b.effects = r.effects
  rest : b.stream.rest = r.stream

variable (arith) in
theorem Related.nextMove_eq (h : Related b r) : nextMove arith b = nextMove arith r := by
  rw [nextMove, nextMove, h.format, h.conversions, h.read]

/-- A branch that does the same on both streams leads to states that are related again. -/
theorem Related.runBranch (h : Related b r) {branch : Scanner Outcome}
    (hval : (branch.run stringIob b.stream).1 = (branch.run (unlimited UInt8) r.stream).1)
    (hrest : (branch.run stringIob b.stream).2.rest = (branch.run (unlimited UInt8) r.stream).2)
    (format : List UInt8) :
    Sum.LiftRel Related Eq (b.runBranch stringIob branch format)
      (r.runBranch (unlimited UInt8) branch format) := by
  have hcons : consumedBetween stringIob b.stream (branch.run stringIob b.stream).2
      = consumedBetween (unlimited UInt8) r.stream (branch.run (unlimited UInt8) r.stream).2 := by
    show List.take (b.stream.rest.length - (branch.run stringIob b.stream).2.rest.length) _ = _
    rw [hrest, h.rest]
    exact congrArg _ h.rest
  cases hb : branch.run stringIob b.stream with
  | mk v b' =>
    cases hr : branch.run (unlimited UInt8) r.stream with
    | mk v' input =>
      rw [hb, hr] at hval hrest hcons
      obtain rfl : v = v' := hval
      rw [StreamState.runBranch, StreamState.runBranch, hb, hr, h.effects, h.assignments,
        h.conversions]
      dsimp only
      rw [hcons]
      cases v with
      | none => exact .inr rfl
      | some o =>
        dsimp only
        cases o.exit with
        | next => exact .inl ⟨rfl, rfl, rfl, rfl, rfl, hrest⟩
        | leave | out => exact .inr rfl

variable (arith) in
/-- **With room, an iteration leads to related states or to the same result.** -/
theorem Related.streamBody (h : Related b r) (hroom : HasRoom b.stream.string r) :
    Sum.LiftRel Related Eq (streamBody arith stringIob b)
      (streamBody arith (unlimited UInt8) r) := by
  rw [Clib4.streamBody, Clib4.streamBody, h.nextMove_eq arith]
  have hkind := nextMove_isMove arith r
  generalize nextMove arith r = move at hkind ⊢
  cases hkind with
  | stop =>
    rw [h.assignments, h.effects]
    exact .inr rfl
  | skip =>
    rw [h.effects]
    exact .inl ⟨rfl, h.read, h.conversions, h.assignments, rfl, h.rest⟩
  | plain _ _ hcount =>
    obtain ⟨hval, hrest⟩ := hcount.alike stringIob (unlimited UInt8) h.rest
    exact h.runBranch hval hrest _
  | float hfloat _ hletter =>
    obtain ⟨hval, hrest⟩ := run_float_of_room hletter h.rest (hroom _ hfloat) _ r.conversions
    exact h.runBranch hval hrest _

/-! ### The effects of an iteration -/

section Effects

variable {σ : Type} {io : Source UInt8 σ}

/-- The effects so far, after an iteration. -/
def effectsOf : StreamState σ ⊕ ScanResult → List Effect
  | .inl s => s.effects
  | .inr result => result.effects

variable (io) in
theorem effectsOf_runBranch (s : StreamState σ) (branch : Scanner Outcome) (format : List UInt8) :
    ∃ e : Effect, effectsOf (s.runBranch io branch format) = s.effects ++ [e] ∧
      e.consumed = consumedBetween io s.stream (branch.run io s.stream).2 := by
  cases hrun : branch.run io s.stream with
  | mk v s' =>
    rw [StreamState.runBranch, hrun]
    cases v with
    | none => exact ⟨_, rfl, rfl⟩
    | some o =>
      dsimp only
      cases o.exit with
      | next | leave | out => exact ⟨_, rfl, rfl⟩

theorem effects_prefix_streamBody (s : StreamState σ) :
    s.effects <+: effectsOf (streamBody arith io s) := by
  rw [streamBody]
  cases nextMove arith s with
  | stop => exact prefix_rfl
  | skip format => exact prefix_append _ _
  | run branch format =>
    obtain ⟨e, he, -⟩ := effectsOf_runBranch io s branch format
    rw [he]
    exact prefix_append _ _

theorem effects_prefix_run {n : ℕ} {s : StreamState σ} {result : ScanResult}
    (h : Loop.run (streamBody arith io) (n + 1) s = some result) :
    effectsOf (streamBody arith io s) <+: result.effects := by
  cases hbody : streamBody arith io s with
  | inl s' =>
    rw [Loop.run_succ_of_inl hbody] at h
    cases n with
    | zero => cases h
    | succ n => exact (effects_prefix_streamBody s').trans (effects_prefix_run h)
  | inr result' =>
    rw [Loop.run_succ_of_inr hbody] at h
    cases h
    exact prefix_rfl

/-- An iteration after which the loop goes on: a directive is skipped, or a branch has been run. -/
theorem streamBody_inl {s s' : StreamState σ} (h : streamBody arith io s = .inl s') :
    (nextMove arith s = .skip s'.format ∧ s'.stream = s.stream ∧ s'.read = s.read) ∨
      ∃ branch format o, nextMove arith s = .run branch format ∧
        branch.run io s.stream = (some o, s'.stream) ∧ o.exit = .next ∧ s'.read = o.read ∧
        s'.format.length ≤ format.length := by
  rw [streamBody] at h
  cases hmove : nextMove arith s with
  | stop =>
    rw [hmove] at h
    cases h
  | skip format =>
    rw [hmove] at h
    cases h
    exact .inl ⟨rfl, rfl, rfl⟩
  | run branch format =>
    rw [hmove] at h
    dsimp only at h
    rw [StreamState.runBranch] at h
    cases hrun : branch.run io s.stream with
    | mk v stream =>
      rw [hrun] at h
      cases v with
      | none => cases h
      | some o =>
        dsimp only at h
        cases hexit : o.exit with
        | next =>
          rw [hexit] at h
          cases h
          refine .inr ⟨branch, format, o, rfl, hrun, hexit, rfl, ?_⟩
          split
          · exact length_parseSet format
          · exact Nat.le_refl _
        | leave | out =>
          rw [hexit] at h
          cases h

theorem streamBody_shortens {s s' : StreamState σ} (h : streamBody arith io s = .inl s') :
    s'.format.length < s.format.length := by
  have hkind := nextMove_isMove arith s
  rcases streamBody_inl h with ⟨hmove, -⟩ | ⟨branch, format, o, hmove, -, -, -, hle⟩
  all_goals rw [hmove] at hkind
  · cases hkind
    assumption
  · cases hkind <;> exact hle.trans_lt ‹_›

variable (arith) (io) in
/-- **The loop ends**: the length of the format bounds its iterations. -/
theorem run_streamBody_isSome {s : StreamState σ} {n : ℕ} (hn : s.format.length < n) :
    ∃ result, Loop.run (streamBody arith io) n s = some result := by
  have hbody : ∀ a : StreamState σ, True → Loop.Progress (streamBody arith io) (fun _ => True)
      (·.format.length) (fun _ => True) a := by
    intro a _
    cases ha : streamBody arith io a with
    | inl a' => exact .inl ⟨a', ha, trivial, streamBody_shortens ha⟩
    | inr b => exact .inr ⟨b, ha, trivial⟩
  obtain ⟨result, hrun, -⟩ := Loop.run_spec (fun _ => True)
    (fun a : StreamState σ => a.format.length) (fun _ => True) hbody n s trivial hn
  exact ⟨result, hrun⟩

end Effects

theorem string_streamBody {b' : StreamState StringIob}
    (h : streamBody arith stringIob b = .inl b') : b'.stream.string = b.stream.string := by
  rcases streamBody_inl h with ⟨-, hstream, -⟩ | ⟨branch, format, o, -, hrun, -⟩
  · rw [hstream]
  · have hstring := StringIob.string_run branch b.stream
    rw [hrun] at hstring
    exact hstring

variable (arith) in
/-- **Without room, an iteration has another effect on the stream of `vsscanf`.** -/
theorem Related.effects_ne (h : Related b r) (hroom : ¬ HasRoom b.stream.string r) :
    ∃ e e' : Effect, e ≠ e' ∧
      effectsOf (Clib4.streamBody arith stringIob b) = r.effects ++ [e] ∧
      effectsOf (Clib4.streamBody arith (unlimited UInt8) r) = r.effects ++ [e'] := by
  rw [HasRoom] at hroom
  push Not at hroom
  obtain ⟨t, hfloat, hroom⟩ := hroom
  have hkind := nextMove_isMove arith r
  generalize hmove : nextMove arith r = move at hkind
  cases hkind with
  | stop hnone | skip hnone | plain hnone => cases hfloat.symm.trans hnone
  | @float spec format hsome _ hletter =>
    cases hfloat.symm.trans hsome
    obtain ⟨hlt, hle⟩ := run_float_of_not_room arith hletter h.rest hroom format r.conversions
    generalize dispatchScanner arith spec format r.conversions r.read = branch at hmove hlt hle
    obtain ⟨e, he, hcons⟩ := effectsOf_runBranch stringIob b branch format
    obtain ⟨e', he', hcons'⟩ := effectsOf_runBranch (unlimited UInt8) r branch format
    refine ⟨e, e', ?_, ?_, ?_⟩
    · -- more of the string is gone
      intro heq
      have hlen := congrArg (fun e : Effect => e.consumed.length) heq
      rw [hcons, hcons', consumedBetween, consumedBetween, length_take, length_take] at hlen
      change min (b.stream.rest.length - (branch.run stringIob b.stream).2.rest.length)
        b.stream.rest.length = min (r.stream.length -
          (branch.run (unlimited UInt8) r.stream).2.length) r.stream.length at hlen
      rw [h.rest] at hlen
      omega
    · rw [Clib4.streamBody, h.nextMove_eq arith, hmove, ← h.effects]
      exact he
    · rw [Clib4.streamBody, hmove]
      exact he'

/-! ### Whole calls -/

/-- **From related states on, the two loops give the same just if there is room in every state
that the loop over the unlimited stream comes to.** -/
theorem run_eq_iff_room {n : ℕ} (h : Related b r) (hn : r.format.length < n) :
    Loop.run (streamBody arith stringIob) n b
        = Loop.run (streamBody arith (unlimited UInt8)) n r ↔
      ∀ t, Loop.Reaches (streamBody arith (unlimited UInt8)) r t →
        HasRoom b.stream.string t := by
  induction n generalizing b r with
  | zero => omega
  | succ n ih =>
    by_cases hroom : HasRoom b.stream.string r
    · have hstep := h.streamBody arith hroom
      cases hb : streamBody arith stringIob b with
      | inl b' =>
        cases hr : streamBody arith (unlimited UInt8) r with
        | inr result =>
          rw [hb, hr] at hstep
          cases hstep
        | inl r' =>
          rw [hb, hr] at hstep
          obtain hrelated : Related b' r' := by
            cases hstep with
            | inl hrelated => exact hrelated
          have hshort := streamBody_shortens hr
          rw [Loop.run_succ_of_inl hb, Loop.run_succ_of_inl hr, ih hrelated (by omega),
            Loop.forall_reaches_of_inl hr, string_streamBody hb]
          exact ⟨fun hall => ⟨hroom, hall⟩, fun hall => hall.2⟩
      | inr result =>
        cases hr : streamBody arith (unlimited UInt8) r with
        | inl r' =>
          rw [hb, hr] at hstep
          cases hstep
        | inr result' =>
          rw [hb, hr] at hstep
          obtain rfl : result = result' := by
            cases hstep with
            | inr heq => exact heq
          rw [Loop.run_succ_of_inr hb, Loop.run_succ_of_inr hr, Loop.forall_reaches_of_inr hr]
          exact ⟨fun _ => hroom, fun _ => rfl⟩
    · constructor
      · -- the effects differ from here on
        intro heq
        obtain ⟨e, e', hne, hb, hr⟩ := h.effects_ne arith hroom
        obtain ⟨result, hres⟩ := run_streamBody_isSome arith (unlimited UInt8) hn
        have hpre' := effects_prefix_run hres
        rw [← heq] at hres
        have hpre := effects_prefix_run hres
        rw [hb] at hpre
        rw [hr] at hpre'
        have heff := prefix_of_prefix_length_le hpre hpre' (by simp)
        have hsame := heff.eq_of_length (by simp)
        exact absurd (singleton_inj.1 (append_cancel_left hsame)) hne
      · exact fun hall => absurd (hall r .refl) hroom

/-- `vsscanf()`, through its buffer. -/
def vsscanfBuffered (arith : Arith L D) (format string : List UInt8) : Option ScanResult :=
  streamScan arith stringIob format (StringIob.start string)

/-- `vsscanf()`, if the string were read through a stream with unlimited push-back. -/
def vsscanfUnlimited (arith : Arith L D) (format string : List UInt8) : Option ScanResult :=
  streamScan arith (unlimited UInt8) format string

/-- **The refills make no difference just if there is room whenever a keyword fails**, for every
format, every string and every arithmetic. -/
theorem vsscanf_refill_iff (arith : Arith L D) (format string : List UInt8) :
    vsscanfBuffered arith format string = vsscanfUnlimited arith format string ↔
      ∀ t, Loop.Reaches (streamBody arith (unlimited UInt8)) { format, stream := string } t →
        HasRoom string t := by
  have hrelated : Related { format, stream := StringIob.start string }
      { format, stream := string } := ⟨rfl, rfl, rfl, rfl, rfl, rfl⟩
  exact run_eq_iff_room hrelated (Nat.lt_succ_self _)

end Float

/-- An arithmetic for texts that hold no number. -/
def noArith : Arith Unit Unit where
  zero := ()
  infinity := ()
  nan := ()
  huge := ()
  push _ _ _ := ()
  less _ _ := false
  atLeast _ _ := true
  inverse _ := ()
  isZero _ := false
  addScaled _ _ _ := ()
  shrink _ _ := ()
  power _ _ := ()
  divide _ _ := ()
  times _ _ := ()
  negate _ := ()
  bytes _ _ := []

/-- `%f%c` on 31 blanks and `ix`: the `i` is the last byte of the first buffer, and is lost. -/
theorem vsscanf_loses_letter :
    vsscanfBuffered noArith [37, 102, 37, 99] (List.replicate 31 32 ++ [105, 120])
      ≠ vsscanfUnlimited noArith [37, 102, 37, 99] (List.replicate 31 32 ++ [105, 120]) := by
  decide

end Clib4
