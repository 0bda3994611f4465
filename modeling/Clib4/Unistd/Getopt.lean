import Clib4.Strings

/-!
# Options of a command line

`getopt` returns one option with each call, and keeps where it is in a group of options from one
call to the next.

## Main definitions

* `Finishes` — its calls from a state on, until there is no option left.
* `posixParse` — the options of a command line.

## Main results

* `getopt_right_iff` — **when the calls return the options of the command line.**
-/

namespace Clib4

open List

/-- What a call returns: no option, an option with its argument, `?` for an unknown option or for a
missing argument, and `:`, which POSIX has for the latter. -/
inductive GetoptReply
  | eof
  | option (c : UInt8) (optarg : Option (List UInt8))
  | bad (c : UInt8)
  | missing (c : UInt8)
  deriving DecidableEq

/-- What is kept between two calls. -/
structure GetoptState where
  optind : ℕ
  sp : ℕ

/-- The options as they were before the first call. -/
def GetoptState.started : GetoptState := ⟨1, 1⟩

/-- `argv[i][j]`, if there is such a character. -/
def argChar (argv : List Chars) (i j : ℕ) : Option UInt8 :=
  argv[i]?.bind fun arg => (arg.bytes ++ [0])[j]?

/-- What follows an option in the option string, if it is there: `strchr`, and one further. -/
def behindOption (opts : Chars) (c : UInt8) : Option (List UInt8) :=
  if c = 58 then none else (opts.bytes.dropWhile (· ≠ c)).tail?

/-- The next character of a group of options, or the next argument. -/
def GetoptState.advance (argv : List Chars) (s : GetoptState) : Option GetoptState := do
  let next ← argChar argv s.optind (s.sp + 1)
  return if next = 0 then ⟨s.optind + 1, 1⟩ else ⟨s.optind, s.sp + 1⟩

/-- `getopt` behind the checks at the beginning of an argument. -/
def takeOption (argv : List Chars) (opts : Chars) (s : GetoptState) :
    Option (GetoptReply × GetoptState) := do
  let c ← argChar argv s.optind s.sp
  match behindOption opts c with
  | none => return (.bad c, ← s.advance argv)
  | some rest =>
    if rest.head? = some 58 then
      let next ← argChar argv s.optind (s.sp + 1)
      if next ≠ 0 then
        let arg ← argv[s.optind]?
        return (.option c (arg.bytes.drop (s.sp + 1)), ⟨s.optind + 1, 1⟩)
      else if s.optind + 1 ≥ argv.length then return (.bad c, ⟨s.optind + 1, 1⟩)
      else
        let arg ← argv[s.optind + 1]?
        return (.option c arg.bytes, ⟨s.optind + 2, 1⟩)
    else return (.option c none, ← s.advance argv)

/-- `getopt`; there is no value if a character is read that is not there. -/
def getopt (argv : List Chars) (opts : Chars) (s : GetoptState) :
    Option (GetoptReply × GetoptState) := do
  if s.sp = 1 then
    if s.optind ≥ argv.length then return (.eof, s)
    if (← argChar argv s.optind 0) ≠ 45 then return (.eof, s)
    if (← argChar argv s.optind 1) = 0 then return (.eof, s)
    if argv[s.optind]?.map Chars.bytes = some [45, 45] then
      return (.eof, { s with optind := s.optind + 1 })
  takeOption argv opts s

/-- The calls from a state on come to an end with these options, read nothing that is not there, and
let `optind` grow to at most `argc`. -/
inductive Finishes (argv : List Chars) (opts : Chars) : GetoptState → List GetoptReply → Prop
  | stop {s t} (h : getopt argv opts s = some (.eof, t)) (hle : s.optind ≤ t.optind)
      (hend : t.optind ≤ argv.length) : Finishes argv opts s []
  | more {s t r out} (h : getopt argv opts s = some (r, t)) (hr : r ≠ .eof)
      (hle : s.optind ≤ t.optind) (hrest : Finishes argv opts t out) :
      Finishes argv opts s (r :: out)

/-- The options of a command line, with what is left of a group of options. -/
def posixParse (opts : Chars) : List UInt8 → List Chars → List GetoptReply
  | [], [] => []
  | [], arg :: args =>
    if arg.bytes = [45, 45] then []
    else
      match arg.bytes with
      | 45 :: c :: group => posixParse opts (c :: group) args
      | _ => []
  | c :: group, args =>
    match behindOption opts c with
    | none => .bad c :: posixParse opts group args
    | some rest =>
      if rest.head? = some 58 then
        if group = [] then
          match args with
          | [] => [if opts.bytes.head? = some 58 then .missing c else .bad c]
          | arg :: args => .option c arg.bytes :: posixParse opts [] args
        else .option c group :: posixParse opts [] args
      else .option c none :: posixParse opts group args
termination_by group args => (args.length, group.length)

/-- The calls return the options of the command line. -/
def GetoptRight (argv : List Chars) (opts : Chars) : Prop :=
  Finishes argv opts .started (posixParse opts [] argv.tail)

/-! ### One call -/

section

variable {argv : List Chars} {opts : Chars} {s : GetoptState} {c : UInt8} {group : List UInt8}
  {args : List Chars} {arg : Chars}

/-- Where the calls are: in front of an argument, or at a character of a group of options. -/
def GetoptState.At (argv : List Chars) (opts : Chars) (s : GetoptState) (group : List UInt8)
    (args : List Chars) : Prop :=
  (group = [] ∧ s.sp = 1 ∧ s.optind ≤ argv.length ∧ argv.drop s.optind = args) ∨
    ∃ arg, argv[s.optind]? = some arg ∧ arg.bytes.drop s.sp = group ∧ group ≠ [] ∧ 1 ≤ s.sp ∧
      argv.drop (s.optind + 1) = args ∧ getopt argv opts s = takeOption argv opts s

theorem argChar_of_drop {i j : ℕ} (harg : argv[i]? = some arg) (hdrop : arg.bytes.drop j = group)
    (hj : j ≤ arg.bytes.length) : argChar argv i j = some (group.head?.getD 0) := by
  rw [argChar, harg, Option.bind_some, ← head?_drop, drop_append_of_le_length hj, hdrop]
  cases group <;> rfl

/-- At a character of a group: it is read, and the one behind it, which is the terminator only at
the end of the group. -/
theorem GetoptState.At.character (h : s.At argv opts (c :: group) args) :
    ∃ arg, argv[s.optind]? = some arg ∧ arg.bytes.drop (s.sp + 1) = group ∧ 1 ≤ s.sp ∧
      argv.drop (s.optind + 1) = args ∧ getopt argv opts s = takeOption argv opts s ∧
      argChar argv s.optind s.sp = some c ∧
      argChar argv s.optind (s.sp + 1) = some (group.head?.getD 0) ∧
      (group.head?.getD 0 = 0 ↔ group = []) := by
  obtain ⟨hnil, -⟩ | ⟨arg, harg, hdrop, -, hsp, hargs, hopt⟩ := h
  · cases hnil
  have hlt : s.sp < arg.bytes.length := by
    by_contra hge
    rw [drop_eq_nil_of_le (by omega)] at hdrop
    cases hdrop
  have hnext : arg.bytes.drop (s.sp + 1) = group := by rw [← tail_drop, hdrop, tail_cons]
  refine ⟨arg, harg, hnext, hsp, hargs, hopt, argChar_of_drop harg hdrop hlt.le,
    argChar_of_drop harg hnext hlt, ?_⟩
  cases group with
  | nil => simp
  | cons d group =>
    refine iff_of_false (fun hzero => arg.nonzero ?_) (cons_ne_nil d group)
    have hmem : d ∈ arg.bytes.drop (s.sp + 1) := by simp [hnext]
    exact (show d = 0 from hzero) ▸ mem_of_mem_drop hmem

theorem at_argument (opts : Chars) (harg : argv[s.optind]? = some arg) :
    GetoptState.At argv opts ⟨s.optind + 1, 1⟩ [] (argv.drop (s.optind + 1)) :=
  .inl ⟨rfl, rfl, (List.getElem?_eq_some_iff.1 harg).1, rfl⟩

theorem GetoptState.At.advance (h : s.At argv opts (c :: group) args) :
    ∃ s', s.advance argv = some s' ∧ s.optind ≤ s'.optind ∧ s'.At argv opts group args := by
  obtain ⟨arg, harg, hnext, hsp, rfl, -, -, hchar, hzero⟩ := h.character
  rw [GetoptState.advance, hchar]
  by_cases hgroup : group = []
  · subst hgroup
    exact ⟨⟨s.optind + 1, 1⟩, rfl, Nat.le_succ _, at_argument opts harg⟩
  · refine ⟨⟨s.optind, s.sp + 1⟩, ?_, le_rfl, .inr ⟨arg, harg, hnext, hgroup, by simp, rfl, ?_⟩⟩
    · show some _ = _
      rw [if_neg fun h => hgroup (hzero.1 h)]
    · rw [getopt, if_neg (show s.sp + 1 ≠ 1 by omega)]

theorem GetoptState.At.argument (h : s.At argv opts [] (arg :: args)) :
    s.sp = 1 ∧ s.optind < argv.length ∧ argv[s.optind]? = some arg ∧
      argv.drop (s.optind + 1) = args := by
  obtain ⟨-, hsp, -, hdrop⟩ | ⟨_, -, -, hne, -⟩ := h
  · have harg : argv[s.optind]? = some arg := by rw [← head?_drop, hdrop, head?_cons]
    exact ⟨hsp, (List.getElem?_eq_some_iff.1 harg).1, harg, by rw [← tail_drop, hdrop, tail_cons]⟩
  · exact absurd rfl hne

theorem getopt_argument (hsp : s.sp = 1) (hlt : s.optind < argv.length)
    (harg : argv[s.optind]? = some arg) :
    getopt argv opts s =
      if arg.bytes = [45, 45] then some (.eof, ⟨s.optind + 1, s.sp⟩)
      else
        match arg.bytes with
        | 45 :: _ :: _ => takeOption argv opts s
        | _ => some (.eof, s) := by
  obtain ⟨bytes, hzero⟩ := arg
  rw [getopt, if_pos hsp, if_neg (Nat.not_le.2 hlt)]
  simp only [argChar, harg]
  match bytes with
  | [] => rfl
  | [c] => by_cases hc : c = 45 <;> simp [hc]
  | c :: d :: group =>
    have hd : d ≠ 0 := fun h0 => hzero (by simp [h0])
    by_cases hc : c = 45 <;> simp [hc, hd]

/-! ### All calls -/

/-- What a reply looks like: there is only `?`. -/
def GetoptReply.shown : GetoptReply → GetoptReply
  | .missing c => .bad c
  | r => r

/-- **What the calls return.** -/
theorem finishes_posixParse (h : s.At argv opts group args) :
    Finishes argv opts s ((posixParse opts group args).map GetoptReply.shown) := by
  fun_induction posixParse opts group args generalizing s with
  | case1 =>
    obtain ⟨-, hsp, hle, hdrop⟩ | ⟨_, -, -, hne, -⟩ := h
    · refine .stop (t := s) ?_ le_rfl hle
      rw [getopt, if_pos hsp, if_pos (drop_eq_nil_iff.1 hdrop)]
      rfl
    · exact absurd rfl hne
  | case2 arg args hdashes =>
    obtain ⟨hsp, hlt, harg, -⟩ := h.argument
    refine .stop (t := ⟨s.optind + 1, s.sp⟩) ?_ (Nat.le_succ _) hlt
    rw [getopt_argument hsp hlt harg, if_pos hdashes]
  | case3 arg args hne c group heq ih =>
    -- an argument with options, and the same call
    obtain ⟨hsp, hlt, harg, hrest⟩ := h.argument
    refine ih (.inr ⟨arg, harg, by rw [hsp, heq]; rfl, cons_ne_nil c group, hsp.ge, hrest, ?_⟩)
    rw [getopt_argument hsp hlt harg, if_neg hne]
    simp only [heq]
  | case4 arg args hne hno =>
    obtain ⟨hsp, hlt, harg, -⟩ := h.argument
    refine .stop (t := s) ?_ le_rfl hlt.le
    rw [getopt_argument hsp hlt harg, if_neg hne]
    split
    · exact absurd ‹_› (hno _ _)
    · rfl
  | case5 c group args hknown ih =>
    obtain ⟨arg, -, -, -, -, hopt, hc, -⟩ := h.character
    obtain ⟨s', hadvance, hle, hat⟩ := h.advance
    refine .more (t := s') ?_ (by simp [GetoptReply.shown]) hle (ih hat)
    simp [hopt, takeOption, hc, hknown, hadvance, GetoptReply.shown]
  | case6 c rest hknown htakes =>
    obtain ⟨arg, harg, -, -, hend, hopt, hc, hnext, -⟩ := h.character
    have hlast : argv.length ≤ s.optind + 1 := drop_eq_nil_iff.1 hend
    have hshown : [if opts.bytes.head? = some 58 then GetoptReply.missing c else .bad c].map
        GetoptReply.shown = [.bad c] := by
      split_ifs <;> rfl
    rw [hshown]
    refine .more (t := ⟨s.optind + 1, 1⟩) ?_ (by simp) (Nat.le_succ _)
      (.stop (t := ⟨s.optind + 1, 1⟩) ?_ le_rfl (List.getElem?_eq_some_iff.1 harg).1)
    · simp [hopt, takeOption, hc, hknown, htakes, hnext, hlast]
    · simp [getopt, hlast]
  | case7 c rest hknown htakes arg' args ih =>
    obtain ⟨arg, harg, -, -, hend, hopt, hc, hnext, -⟩ := h.character
    obtain ⟨-, hlt, harg', rfl⟩ := (hend ▸ at_argument opts harg).argument
    have hnot : ¬ argv.length ≤ s.optind + 1 := Nat.not_le.2 hlt
    refine .more (t := ⟨s.optind + 2, 1⟩) ?_ (by simp [GetoptReply.shown]) (by simp)
      (ih (at_argument opts harg'))
    simp [hopt, takeOption, hc, hknown, htakes, hnext, hnot, harg', GetoptReply.shown]
  | case8 c group args rest hknown htakes hgroup ih =>
    obtain ⟨arg, harg, hnext, -, rfl, hopt, hc, hchar, hzero⟩ := h.character
    have hne : ¬ group.head?.getD 0 = 0 := fun h0 => hgroup (hzero.1 h0)
    refine .more (t := ⟨s.optind + 1, 1⟩) ?_ (by simp [GetoptReply.shown]) (Nat.le_succ _)
      (ih (at_argument opts harg))
    simp [hopt, takeOption, hc, hchar, hknown, htakes, hne, harg, hnext, GetoptReply.shown]
  | case9 c group args rest hknown htakes ih =>
    obtain ⟨arg, -, -, -, -, hopt, hc, -⟩ := h.character
    obtain ⟨s', hadvance, hle, hat⟩ := h.advance
    refine .more (t := s') ?_ (by simp [GetoptReply.shown]) hle (ih hat)
    simp [hopt, takeOption, hc, hknown, htakes, hadvance, GetoptReply.shown]

theorem Finishes.unique {out out' : List GetoptReply} (h : Finishes argv opts s out)
    (h' : Finishes argv opts s out') : out = out' := by
  induction h generalizing out' with
  | stop h =>
    cases h' with
    | stop => rfl
    | more h₂ hr => exact absurd (congrArg Prod.fst (Option.some.inj (h₂.symm.trans h))) hr
  | more h hr _ _ ih =>
    cases h' with
    | stop h₂ => exact absurd (congrArg Prod.fst (Option.some.inj (h.symm.trans h₂))) hr
    | more h₂ _ _ hrest =>
      obtain ⟨rfl, rfl⟩ := Prod.mk.inj (Option.some.inj (h.symm.trans h₂))
      rw [ih hrest]

end

/-- **When the calls return the options of the command line**: if there is a program name, and no
argument is missing for which POSIX has a reply of its own. -/
theorem getopt_right_iff (argv : List Chars) (opts : Chars) :
    GetoptRight argv opts ↔ argv ≠ [] ∧ ∀ c, .missing c ∉ posixParse opts [] argv.tail := by
  cases argv with
  | nil =>
    -- `optind` is 1 from the beginning
    have hcall : getopt [] opts .started = some (.eof, .started) := rfl
    refine iff_of_false (fun h => ?_) fun h => h.1 rfl
    rw [GetoptRight, tail_nil, posixParse] at h
    cases h with
    | stop h hle hend =>
      obtain rfl : GetoptState.started = _ := (Prod.mk.inj (Option.some.inj (hcall.symm.trans h))).2
      cases hend
  | cons name args =>
    have h : Finishes (name :: args) opts .started
        ((posixParse opts [] args).map GetoptReply.shown) :=
      finishes_posixParse (.inl ⟨rfl, rfl, by simp [GetoptState.started], rfl⟩)
    rw [and_iff_right (cons_ne_nil name args)]
    constructor
    · intro hright c hmem
      rw [← h.unique hright, mem_map] at hmem
      obtain ⟨r, -, hr⟩ := hmem
      cases r <;> cases hr
    · intro hno
      rwa [map_congr_left (g := id) fun r hr => ?_, map_id] at h
      cases r with
      | missing c => exact absurd hr (hno c)
      | _ => rfl

/-- For the option string `:a:` a missing argument is reported as `?`, and not as `:`. -/
theorem getopt_right_missing :
    ¬ GetoptRight [⟨[112], by decide⟩, ⟨[45, 97], by decide⟩] ⟨[58, 97, 58], by decide⟩ := by
  intro h
  rw [GetoptRight, show posixParse _ _ _ = [.missing 97] by simp [posixParse, behindOption]] at h
  cases h with
  | more h =>
    have hcall : getopt [⟨[112], by decide⟩, ⟨[45, 97], by decide⟩] ⟨[58, 97, 58], by decide⟩
        .started = some (.bad 97, ⟨2, 1⟩) := rfl
    rw [hcall] at h
    cases h

end Clib4
