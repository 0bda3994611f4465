import Clib4.Scanf.DigitLoop
import Clib4.Scanf.Refill

/-!
# The two models of vfscanf

`vsscanf` takes the text that is left as a list, and `streamScan` reads it character by character.
As long as no floating point number is converted, they are the same function.

## Main results

* `vsscanfUnlimited_eq` — **the two models agree.**
-/

namespace Clib4

open PushBack PushBack.Prog List

/-! ### The branches -/

/-- The branch does on a text what the turn says. -/
def Takes (branch : Scanner Outcome) (set : Bool) (input : List UInt8) (turn : Turn) : Prop :=
  ∃ o, branch.run (unlimited UInt8) input = (some o, turn.input) ∧ o.setTaken = set ∧
    (⟨turn.input, o.stored, o.converted, o.assigned, o.exit⟩ : Turn) = turn

section Branches

variable (kind : IntKind) (spec : Spec) (set : UInt8 → Bool) (width : Option ℕ)
  (conversions read : ℕ) (input : List UInt8)

theorem takes_space :
    Takes (spaceScanner conversions read) false input (spaceBranch conversions input) := by
  refine ⟨_, run_bind_of_some (run_skipBlanks read input) _, rfl, ?_⟩
  simp [spaceBranch]

theorem takes_match (c : UInt8) :
    Takes (matchScanner c conversions read) false input (literalBranch conversions c input) := by
  unfold matchScanner
  cases input with
  | nil => exact ⟨_, rfl, rfl, rfl⟩
  | cons d input =>
    rw [Takes, bind_eq, run_bind, run_accept_cons, literalBranch]
    by_cases h : c = d
    · simp only [wanted, if_pos h]
      exact ⟨_, rfl, rfl, rfl⟩
    · simp only [wanted, if_neg h]
      exact ⟨_, rfl, rfl, rfl⟩

theorem run_charLoop {n width : ℕ} (taken : List UInt8) (h : taken.length + n = width) :
    (Prog.readLoop (fun taken => decide (taken.length < width))
        (fun taken c => .take (taken ++ [c])) taken).run (unlimited UInt8) input =
      (some (taken ++ input.take n, if n ≤ input.length then .guard else .ended),
        input.drop n) := by
  induction n generalizing taken input with
  | zero =>
    rw [run_readLoop_stop _ (by simp [← h])]
    simp
  | succ n ih =>
    cases input with
    | nil =>
      rw [run_readLoop_nil _ (by simp [← h])]
      simp
    | cons c input =>
      rw [run_readLoop_cons _ (by simp [← h])]
      refine (ih input (taken ++ [c]) (by simp [← h]; omega)).trans ?_
      simp

theorem takes_char :
    Takes (charScanner spec conversions read) false input (charBranch spec conversions input) := by
  have hloop := run_charLoop input [] (Nat.zero_add (spec.width.getD 1))
  rw [Takes, charScanner, bind_eq, run_bind_of_some hloop, charBranch, nil_append]
  dsimp only
  by_cases hle : spec.width.getD 1 ≤ input.length
  · simp only [if_pos hle]
    exact ⟨_, rfl, rfl, rfl⟩
  · simp only [if_neg hle]
    rw [take_of_length_le (by omega), drop_eq_nil_of_le (by omega)]
    exact ⟨_, rfl, rfl, rfl⟩

theorem run_takeScanner :
    ∃ e, (takeScanner set width).run (unlimited UInt8) input =
        (some ((readWhile set width input).1, e), (readWhile set width input).2.1) ∧
      (e = .ended ↔ (readWhile set width input).2.2 = true) := by
  have hloop : ∀ taken, ∃ t e, (Prog.readLoop (fun t => decide (t.2 ≠ some 0))
      (fun t c => if set c then .take (t.1 ++ [c], narrow t.2) else .back t)
      ((taken, width) : List UInt8 × Option ℕ)).run (unlimited UInt8) input =
        (some (t, e), (readWhile set width input).2.1) ∧
      t.1 = taken ++ (readWhile set width input).1 ∧
      (e = .ended ↔ (readWhile set width input).2.2 = true) := by
    fun_induction readWhile set width input with
    | case1 input =>
      intro taken
      exact ⟨_, _, run_readLoop_stop _ rfl _, by simp, by simp⟩
    | case2 width hwidth =>
      intro taken
      exact ⟨_, _, run_readLoop_nil _ (decide_eq_true hwidth), by simp, by simp⟩
    | case3 width c input hwidth hset taken' rest ended heq ih =>
      intro taken
      obtain ⟨t, e, hrun, ht, he⟩ := ih (taken ++ [c])
      rw [heq] at hrun ht he
      rw [run_readLoop_cons _ (by simpa using hwidth), if_pos hset]
      exact ⟨t, e, hrun, by simpa using ht, he⟩
    | case4 width c input hwidth hset =>
      intro taken
      rw [run_readLoop_cons _ (by simpa using hwidth), if_neg hset]
      exact ⟨_, _, rfl, by simp, by simp⟩
  obtain ⟨t, e, hrun, ht, he⟩ := hloop []
  refine ⟨e, ?_, he⟩
  rw [takeScanner, bind_eq, run_bind_of_some hrun]
  dsimp only
  rw [ht]
  rfl

theorem takes_string :
    Takes (stringScanner spec conversions read) false input
      (stringBranch spec conversions input) := by
  obtain ⟨e, hrun, he⟩ := run_takeScanner (fun c => !isSpace c) spec.width input
  rw [Takes, stringScanner, bind_eq, run_bind_of_some hrun, stringBranch]
  simp only [he]
  split_ifs <;> exact ⟨_, rfl, rfl, rfl⟩

theorem takes_set :
    Takes (setScanner set spec conversions read) true input
      (setBranch set spec conversions input) := by
  obtain ⟨e, hrun, he⟩ := run_takeScanner set spec.width input
  rw [Takes, setScanner, bind_eq, run_bind_of_some hrun, setBranch]
  simp only [he]
  split_ifs <;> exact ⟨_, rfl, rfl, rfl⟩

/-- The state in front of the digits, without the count. -/
def IntStart.prefixed (s : IntStart) (input : List UInt8) : Prefixed :=
  ⟨s.negative, s.radix, s.processed, s.width, input⟩

theorem run_zeroScanner :
    ∃ s rest, (zeroScanner kind width read).run (unlimited UInt8) input = (some s, rest) ∧
      s.prefixed rest = zeroPart kind width input := by
  unfold zeroScanner
  cases input with
  | nil => exact ⟨_, _, rfl, rfl⟩
  | cons c input =>
    rw [bind_eq, run_bind, run_accept_cons, zeroPart]
    by_cases hx : (c = 120 ∨ c = 88) ∧ (kind = .x ∨ kind = .i)
    · simp only [wanted, if_pos hx]
      exact ⟨_, _, rfl, rfl⟩
    · simp only [wanted, if_neg hx]
      split_ifs <;> exact ⟨_, _, rfl, rfl⟩

theorem run_signScanner :
    ∃ s rest, (signScanner kind width read).run (unlimited UInt8) input = (some s, rest) ∧
      s.prefixed rest = signPart kind width input := by
  unfold signScanner signPart
  split
  case isTrue => exact ⟨_, _, rfl, rfl⟩
  case isFalse =>
    cases input with
    | nil => exact ⟨_, _, rfl, rfl⟩
    | cons c input =>
      by_cases hminus : c = minus
      · subst hminus
        exact ⟨_, _, rfl, rfl⟩
      by_cases hplus : c = 43
      · subst hplus
        exact ⟨_, _, rfl, rfl⟩
      by_cases hzero : c = 48
      · subst hzero
        by_cases hopen : kind.radix = 0 ∧ narrow width ≠ some 0
        · have hzero := run_zeroScanner kind (narrow width) (read + 1) input
          simpa [run_bind, wanted, minus, hopen] using hzero
        · exact ⟨_, _, by simp [run_bind, wanted, minus, hopen]; rfl, by simp [minus, hopen]; rfl⟩
      · simp only [bind_eq, run_bind, run_accept_cons, wanted, hminus, hplus, hzero, or_self,
          if_false]
        exact ⟨_, _, rfl, rfl⟩

theorem run_digits (size : Size) (radix : ℕ) (sum : UInt64) (processed : ℕ) :
    let r := digitLoop size radix width sum processed input
    ∃ width' read' e,
      (Prog.readLoop (fun t => decide (t.width ≠ some 0)) (digitBody size radix)
        ⟨sum, processed, width, read⟩).run (unlimited UInt8) input =
          (some (⟨r.1, r.2.1, width', read'⟩, e), r.2.2.1) ∧ (e = .ended ↔ r.2.2.2 = true) := by
  dsimp only
  fun_induction digitLoop size radix width sum processed input generalizing read with
  | case1 sum processed input => exact ⟨_, _, _, run_readLoop_stop _ rfl _, by simp⟩
  | case2 width sum processed hwidth =>
    exact ⟨_, _, _, run_readLoop_nil _ (decide_eq_true hwidth), by simp⟩
  | case3 width sum processed c input hwidth digit hdigit =>
    rw [run_readLoop_cons _ (by simpa using hwidth), digitBody, if_pos hdigit]
    exact ⟨_, _, _, rfl, by simp⟩
  | case4 width sum processed c input hwidth digit hdigit next hwrapped =>
    rw [run_readLoop_cons _ (by simpa using hwidth), digitBody, if_neg hdigit, if_pos hwrapped]
    exact ⟨_, _, _, rfl, by simp⟩
  | case5 width sum processed c input hwidth digit hdigit next hwrapped ih =>
    rw [run_readLoop_cons _ (by simpa using hwidth), digitBody, if_neg hdigit, if_neg hwrapped]
    exact ih (read + 1)

theorem takes_int :
    Takes (intScanner kind spec conversions read) false input
      (intBranch kind spec conversions input) := by
  obtain ⟨s, rest, hsign, hstart⟩ := run_signScanner kind spec.width read input
  rw [Takes, intScanner, bind_eq, run_bind_of_some hsign, intBranch, readInteger, ← hstart]
  obtain ⟨width, read, e, hrun, he⟩ := run_digits s.width s.read rest spec.size
    (pickRadix kind s.radix) 0 s.processed
  dsimp only [IntStart.prefixed] at hrun he ⊢
  rw [bind_eq, run_bind_of_some hrun]
  generalize digitLoop spec.size _ s.width 0 s.processed rest = r at he ⊢
  by_cases hpos : 0 < r.2.1
  · simp only [if_pos hpos]
    exact ⟨_, rfl, rfl, rfl⟩
  · simp only [if_neg hpos, he]
    exact ⟨_, rfl, rfl, rfl⟩

end Branches

theorem Takes.bind {p : Scanner (ℕ × Option UInt8)} {f : ℕ × Option UInt8 → Scanner Outcome}
    {v : ℕ × Option UInt8} {set : Bool} {input rest : List UInt8} {turn : Turn}
    (h : Takes (f v) set rest turn) (hp : p.run (unlimited UInt8) input = (some v, rest)) :
    Takes (p.bind f) set input turn := by
  rw [Takes, run_bind_of_some hp]
  exact h

theorem takes_dispatch {L D : Type} (arith : Arith L D) (float : Spec → ℕ → List UInt8 → Turn)
    {spec : Spec} (h : spec.letter ≠ 102) (format : List UInt8) (conversions read : ℕ)
    (input : List UInt8) :
    ∃ set, Takes (dispatchScanner arith spec format conversions read) set input
        (dispatch float spec format conversions read input).1 ∧
      (dispatch float spec format conversions read input).2 =
        if set then (parseSet format).2 else format := by
  obtain ⟨suppressed, width, size, letter⟩ := spec
  by_cases hkeeps : letter = 99 ∨ letter = 110 ∨ letter = openBracket
  · rcases hkeeps with rfl | rfl | rfl
    · exact ⟨false, takes_char .., rfl⟩
    · exact ⟨false, ⟨_, rfl, rfl, rfl⟩, rfl⟩
    · exact ⟨true, takes_set .., rfl⟩
  · have hblanks := run_skipBlanks read input
    simp only [dispatch, dispatchScanner, blanksBefore, if_neg hkeeps]
    rw [not_or, not_or] at hkeeps
    simp only [if_neg hkeeps.1, if_neg h, if_neg hkeeps.2.1, if_neg hkeeps.2.2]
    cases intKind letter with
    | some kind => exact ⟨false, Takes.bind (takes_int ..) hblanks, rfl⟩
    | none =>
      dsimp only
      split_ifs with hs hp hb
      · exact ⟨false, Takes.bind (takes_string ..) hblanks, rfl⟩
      · refine ⟨false, Takes.bind ?_ hblanks, rfl⟩
        rw [if_pos hp]
        have hsame : percentBranch conversions (skipSpace input) =
            literalBranch conversions percent (skipSpace input) := by
          cases skipSpace input <;> rfl
        rw [hsame]
        exact takes_match ..
      · refine ⟨true, Takes.bind ?_ hblanks, rfl⟩
        rw [if_neg hp, if_pos hb]
        exact takes_set ..
      · refine ⟨false, Takes.bind ?_ hblanks, rfl⟩
        rw [if_neg hp, if_neg hb]
        exact ⟨_, rfl, rfl, rfl⟩

/-! ### The loop -/

/-- The state of the loop over the text as a stream. -/
def Scan.onText (s : Scan) : StreamState (List UInt8) :=
  ⟨s.format, s.input, s.read, s.conversions, s.assignments, s.effects⟩

theorem runBranch_onText (s : Scan) {branch : Scanner Outcome} {set : Bool} {turn : Turn}
    (h : Takes branch set s.input turn) (hcount : Counting branch s.read)
    (format : List UInt8) :
    s.onText.runBranch (unlimited UInt8) branch format =
      (s.finish turn (if set then (parseSet format).2 else format)).map Scan.onText id := by
  obtain ⟨o, hrun, rfl, hturn⟩ := h
  obtain ⟨n, hn, hread⟩ := hcount.of_run hrun
  change s.input.length = n + turn.input.length at hn
  have hconsumed : (turn.effect s.input).consumed.length = n := by
    rw [Turn.effect, length_take]
    omega
  rw [← hconsumed] at hread
  obtain ⟨input, stored, converted, assigned, exit⟩ := turn
  cases hturn
  rw [StreamState.runBranch, show s.onText.stream = s.input from rfl, hrun, Scan.finish]
  dsimp only
  cases o.exit with
  | next =>
    rw [hread]
    rfl
  | leave | out => rfl

variable {L D : Type} (arith : Arith L D) (float : Spec → ℕ → List UInt8 → Turn)

/-- **One iteration.** -/
theorem streamBody_onText {s : Scan} (h : nextFloat s.format = none) :
    streamBody arith (unlimited UInt8) s.onText = (scanBody float s).map Scan.onText id := by
  obtain ⟨format, input, read, conversions, assignments, effects⟩ := s
  cases format with
  | nil => rfl
  | cons c format =>
    unfold streamBody nextMove scanBody
    dsimp only [Scan.onText]
    by_cases hspace : isSpace c = true
    · rw [if_pos hspace, if_pos hspace]
      exact runBranch_onText ⟨c :: format, input, read, conversions, assignments, effects⟩
        (takes_space ..) (spaceScanner_counting _ _) format
    by_cases hpercent : c = percent
    · rw [if_neg hspace, if_neg hspace, if_neg (not_not.2 hpercent), if_neg (not_not.2 hpercent)]
      rw [nextFloat, if_pos ⟨by simpa using hspace, hpercent⟩] at h
      cases hspec : parseSpec format with
      | ended => rfl
      | unknown rest =>
        have heffect : Turn.effect { input } input = {} := by simp [Turn.effect]
        simp [Scan.finish, heffect, Scan.onText]
      | spec spec rest =>
        have hletter : spec.letter ≠ 102 := by
          intro hletter
          rw [hspec] at h
          simp [hletter] at h
        obtain ⟨set, htakes, hformat⟩ :=
          takes_dispatch arith float hletter rest conversions read input
        have hcount := dispatchScanner_counting arith hletter rest conversions read
        refine (runBranch_onText ⟨c :: format, input, read, conversions, assignments, effects⟩
          htakes hcount rest).trans ?_
        rw [← hformat]
    · rw [if_neg hspace, if_neg hspace, if_pos hpercent, if_pos hpercent]
      exact runBranch_onText ⟨c :: format, input, read, conversions, assignments, effects⟩
        (takes_match ..) (matchScanner_counting _ _ _) format

/-- The two loops are at the same place, and no floating point number comes from there on. -/
def AtSamePlace (a : StreamState (List UInt8)) (s : Scan) : Prop :=
  a = s.onText ∧ ∀ t, Loop.Reaches (scanBody float) s t → nextFloat t.format = none

theorem AtSamePlace.step {a : StreamState (List UInt8)} {s : Scan} (h : AtSamePlace float a s) :
    Sum.LiftRel (AtSamePlace float) Eq (streamBody arith (unlimited UInt8) a)
      (scanBody float s) := by
  obtain ⟨rfl, hs⟩ := h
  rw [streamBody_onText arith float (hs s .refl)]
  cases hbody : scanBody float s with
  | inl s' => exact .inl ⟨rfl, ((Loop.forall_reaches_of_inl hbody _).1 hs).2⟩
  | inr result => exact .inr rfl

/-- **The two models agree** while no floating point number is converted. -/
theorem vsscanfUnlimited_eq {format string : List UInt8}
    (h : ∀ s, Loop.Reaches (scanBody float) { format, input := string } s →
      nextFloat s.format = none) :
    vsscanfUnlimited arith format string = some (vsscanf float format string) := by
  obtain ⟨hnone, -⟩ | ⟨result, _, hrun, hrun', rfl⟩ := Loop.run_rel (AtSamePlace float) Eq
    (fun _ _ => AtSamePlace.step arith float) (format.length + 1) ⟨rfl, h⟩
  · obtain ⟨result, hsome⟩ := run_streamBody_isSome arith (unlimited UInt8)
      (s := Scan.onText { format, input := string }) (Nat.lt_succ_self format.length)
    cases hnone.symm.trans hsome
  · rw [vsscanf, scanFrom, hrun']
    exact hrun

end Clib4
