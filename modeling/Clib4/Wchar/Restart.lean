import Clib4.Wchar.Utf8

/-!
# A text that is decoded in pieces

The bytes of a text are handed to `mbrtowc` in chunks.  A chunk is passed again behind the bytes
that a call has used, until it is used up or a call returns `(size_t)-2`; then comes the next chunk,
with the same state.  `fgetwc` passes one byte at a time.

A call that begins a character keeps what it is given of it.  A call that goes on with a character
counts the bytes of the state as well, and finds enough of them one byte too early: it needs to be
given the rest of the character.

## Main definitions

* `feedChunk`, `feed` — what the calls return for a chunk, and for the chunks of a text.
* `Decodes` — the calls yield the characters of the text.
* `fgetwc` — the loop that reads one wide character from a stream.

## Main results

* `decodes_iff` — **the text is decoded if and only if no chunk is in the inside of a character.**
* `fgetwcs_text` — **what `fgetwc` can read, which gets one byte at a time.**
-/

namespace Clib4.Wchar

open List

/-! ### The calls -/

/-- What the caller gets from a call: a wide character, an error, or nothing yet. -/
def MbResult.yield : MbResult → Option (Option ℕ)
  | .invalid => some none
  | .incomplete => none
  | .nul => some (some 0)
  | .char wc _ => some (some wc)

/-- The bytes behind which the caller goes on, if it does so in the same chunk. -/
def MbResult.used : MbResult → Option ℕ
  | .invalid => none
  | .incomplete => none
  | .nul => some 1
  | .char _ consumed => some consumed

/-- The calls for a chunk, at most `fuel` of them, and what they return. -/
def feedChunk : ℕ → List UInt8 → MbState → Except Fault (List MbResult × MbState)
  | 0, _, state => .ok ([], state)
  | fuel + 1, s, state =>
    if s = [] then .ok ([], state)
    else do
      let (result, state) ← mbrtowc s state
      match result.used with
      | none => return ([result], state)
      | some k =>
        let (results, state) ← feedChunk fuel (s.drop k) state
        return (result :: results, state)

/-- The calls for the chunks of a text. -/
def feed : List (List UInt8) → MbState → Except Fault (List (List MbResult))
  | [], _ => .ok []
  | s :: chunks, state => do
    let (results, state) ← feedChunk s.length s state
    let out ← feed chunks state
    return results :: out

/-! ### Positions -/

/-- The bytes of a text. -/
def bytes (cps : List CodePoint) : List UInt8 := cps.flatMap CodePoint.encode

/-- The position is behind the first byte of a character and not behind its last. -/
def InsideAt : List CodePoint → ℕ → Prop
  | [], _ => False
  | p :: cps, n =>
    (0 < n ∧ n < p.encode.length) ∨ (p.encode.length ≤ n ∧ InsideAt cps (n - p.encode.length))

/-- Both positions are in the inside of one character. -/
def Within : List CodePoint → ℕ → ℕ → Prop
  | [], _, _ => False
  | p :: cps, a, b =>
    (0 < a ∧ b < p.encode.length) ∨
      (p.encode.length ≤ a ∧ Within cps (a - p.encode.length) (b - p.encode.length))

instance decidableWithin : ∀ (cps : List CodePoint) (a b : ℕ), Decidable (Within cps a b)
  | [], _, _ => inferInstanceAs (Decidable False)
  | p :: cps, a, b =>
    have := decidableWithin cps (a - p.encode.length) (b - p.encode.length)
    inferInstanceAs (Decidable ((0 < a ∧ b < p.encode.length) ∨
      (p.encode.length ≤ a ∧ Within cps (a - p.encode.length) (b - p.encode.length))))

/-- Where the chunks begin and end, if the first one begins at `a`. -/
def spans : ℕ → List (List UInt8) → List (ℕ × ℕ)
  | _, [] => []
  | a, s :: chunks => (a, a + s.length) :: spans (a + s.length) chunks

/-- The calls stay in their chunks and yield the characters, and a chunk gets the return value
`(size_t)-2` exactly if it ends in the inside of a character. -/
def Decodes (cps : List CodePoint) (chunks : List (List UInt8)) : Prop :=
  ∃ out, feed chunks {} = .ok out ∧
    out.flatten.filterMap MbResult.yield = cps.map (fun p => some p.val) ∧
    List.Forall₂ (fun span results => .incomplete ∈ results ↔ InsideAt cps span.2)
      (spans 0 chunks) out

theorem CodePoint.encode_length_pos (p : CodePoint) : 0 < p.encode.length := by
  obtain h | h | h | h : p.val < 0x80 ∨ (0x80 ≤ p.val ∧ p.val < 0x800) ∨
    (0x800 ≤ p.val ∧ p.val < 0x10000) ∨ 0x10000 ≤ p.val := by omega
  · rw [(CodePoint.encode_one h).1]
    norm_num
  · rw [(CodePoint.encode_two h.1 h.2).1]
    norm_num
  · rw [(CodePoint.encode_three h.1 h.2).1]
    norm_num
  · rw [(CodePoint.encode_four h).1]
    norm_num

theorem bytes_cons (p : CodePoint) (cps : List CodePoint) :
    bytes (p :: cps) = p.encode ++ bytes cps := flatMap_cons

theorem bytes_append (cps cps' : List CodePoint) : bytes (cps ++ cps') = bytes cps ++ bytes cps' :=
  flatMap_append

theorem insideAt_append (d rest : List CodePoint) (n : ℕ) :
    InsideAt (d ++ rest) ((bytes d).length + n) ↔ InsideAt rest n := by
  induction d with
  | nil => simp [bytes]
  | cons p d ih =>
    rw [bytes_cons, length_append, cons_append, InsideAt, Nat.add_assoc,
      Nat.add_sub_cancel_left, ih]
    exact ⟨fun h => h.elim (fun h => absurd h.2 (by omega)) And.right,
      fun h => .inr ⟨Nat.le_add_right _ _, h⟩⟩

theorem within_append (d rest : List CodePoint) (a b : ℕ) :
    Within (d ++ rest) ((bytes d).length + a) ((bytes d).length + b) ↔ Within rest a b := by
  induction d with
  | nil => simp [bytes]
  | cons p d ih =>
    rw [bytes_cons, length_append, cons_append, Within, Nat.add_assoc, Nat.add_assoc,
      Nat.add_sub_cancel_left, Nat.add_sub_cancel_left, ih]
    exact ⟨fun h => h.elim (fun h => absurd h.2 (by omega)) And.right,
      fun h => .inr ⟨Nat.le_add_right _ _, h⟩⟩

/-- A chunk that begins with a character is not in the inside of one. -/
theorem not_within_zero (cps : List CodePoint) (b : ℕ) : ¬ Within cps 0 b := by
  cases cps with
  | nil => exact id
  | cons p cps =>
    rintro (h | h)
    · exact absurd h.1 (by omega)
    · exact absurd h.1 (by have := p.encode_length_pos; omega)

theorem spans_add (a n : ℕ) (chunks : List (List UInt8)) :
    spans (a + n) chunks = (spans n chunks).map fun x => (a + x.1, a + x.2) := by
  induction chunks generalizing n with
  | nil => rfl
  | cons s chunks ih => rw [spans, spans, map_cons, Nat.add_assoc, ih]

/-! ### One chunk -/

theorem mbrtowc_of_ok {s : List UInt8} {state state' : MbState} {result : MbResult}
    (h : mbtowcR s state = .ok (result, state')) (hres : result ≠ .invalid) :
    mbrtowc s state = .ok (result, state') := by
  simp only [mbrtowc, h]
  exact if_neg hres

theorem mbrtowc_of_error {s : List UInt8} {state : MbState} {f : Fault}
    (h : mbtowcR s state = .error f) : mbrtowc s state = .error f := by
  rw [mbrtowc, h]
  rfl

/-- The state between two chunks: `c` bytes of the first character are kept. -/
def Pending : List CodePoint → ℕ → MbState → Prop
  | [], c, state => c = 0 ∧ state.count = 0
  | p :: _, c, state => c < p.encode.length ∧ Kept p.encode c state

theorem pending_zero (cps : List CodePoint) {state : MbState} (h : state.count = 0) :
    Pending cps 0 state := by
  cases cps with
  | nil => exact ⟨rfl, h⟩
  | cons p cps => exact ⟨p.encode_length_pos, h, fun j hj => absurd hj (Nat.not_lt_zero j)⟩

theorem Pending.insideAt_iff {cps : List CodePoint} {c : ℕ} {state : MbState}
    (h : Pending cps c state) : InsideAt cps c ↔ 0 < c := by
  cases cps with
  | nil =>
    obtain ⟨rfl, -⟩ := h
    exact ⟨False.elim, fun h => absurd h (lt_irrefl 0)⟩
  | cons p cps =>
    exact ⟨fun h' => h'.elim And.left fun h' => absurd h'.1 (Nat.not_le.2 h.1),
      fun h' => .inl ⟨h', h.1⟩⟩

/-- The calls have come to a position in the text: the characters `d` have been yielded, and `c`
bytes of those behind them are kept. -/
structure Reached (cps : List CodePoint) (pos : ℕ) (results : List MbResult) (state : MbState)
    (d rest : List CodePoint) (c : ℕ) : Prop where
  split : cps = d ++ rest
  pos : pos = (bytes d).length + c
  pending : Pending rest c state
  yields : results.filterMap MbResult.yield = d.map (fun p => some p.val)
  incomplete : .incomplete ∈ results ↔ 0 < c

theorem Reached.cons {cps d rest : List CodePoint} {pos c k : ℕ} {results : List MbResult}
    {state : MbState} (h : Reached cps pos results state d rest c) (p : CodePoint) :
    Reached (p :: cps) (p.encode.length + pos) (.char p.val k :: results) state
      (p :: d) rest c where
  split := by rw [h.split, cons_append]
  pos := by rw [h.pos, bytes_cons, length_append, Nat.add_assoc]
  pending := h.pending
  yields := by rw [filterMap_cons_some (f := MbResult.yield) rfl, h.yields, map_cons]
  incomplete := by rw [← h.incomplete]; simp

theorem continues_of_append {e s t r : List UInt8} {c : ℕ} (h : s ++ t = e.drop c ++ r) :
    Continues e c s := by
  intro i hi hlt
  have hleft : (s ++ t)[i]? = s[i]? := getElem?_append_left hi
  rw [← hleft, h, getElem?_append_left (by rw [length_drop]; omega), getElem?_drop]

theorem feedChunk_nil (fuel : ℕ) (state : MbState) : feedChunk fuel [] state = .ok ([], state) := by
  cases fuel <;> rfl

/-- The calls for a chunk that is not in the inside of a character. -/
theorem feedChunk_of_not_within (rest : List CodePoint) :
    ∀ (fuel : ℕ) {c : ℕ} {s t : List UInt8} {state : MbState}, Pending rest c state →
      s ++ t = (bytes rest).drop c → (s = [] → c = 0) → s.length ≤ fuel →
      ¬ Within rest c (c + s.length) →
      ∃ results state' d rest' c', feedChunk fuel s state = .ok (results, state') ∧
        Reached rest (c + s.length) results state' d rest' c' := by
  induction rest with
  | nil =>
    intro fuel c s t state hpend hs _ _ _
    obtain ⟨rfl, hcount⟩ := hpend
    obtain rfl : s = [] := (append_eq_nil_iff.1 (hs.trans (drop_nil))).1
    exact ⟨[], state, [], [], 0, feedChunk_nil _ _, rfl, rfl, ⟨rfl, hcount⟩, rfl, by simp⟩
  | cons p rest ih =>
    intro fuel c s t state hpend hs hempty hfuel hwithin
    obtain rfl | hne := eq_or_ne s []
    · obtain rfl := hempty rfl
      exact ⟨[], state, [], p :: rest, 0, feedChunk_nil _ _, rfl, rfl, hpend, rfl, by simp⟩
    obtain ⟨hc, hkept⟩ := hpend
    have hpos := length_pos_iff.2 hne
    rw [bytes_cons, drop_append_of_le_length hc.le] at hs
    have hcont := continues_of_append hs
    obtain ⟨fuel, rfl⟩ : ∃ n, fuel = n + 1 := ⟨fuel - 1, by omega⟩
    by_cases hrest : p.encode.length ≤ c + s.length
    · -- the character is decoded, and the rest of the chunk begins with the next one
      obtain ⟨state', hcall, hcount⟩ := mbtowcR_complete hkept hcont hne hc hrest
      have hcall := mbrtowc_of_ok hcall (by simp)
      have htail : s.drop (p.encode.length - c) ++ t = (bytes rest).drop 0 := by
        have hdrop := congrArg (List.drop (p.encode.length - c)) hs
        rw [drop_append_of_le_length (by omega), drop_left' (by simp)] at hdrop
        exact hdrop
      obtain ⟨results, state'', d, rest', c', hfeed, hreach⟩ :=
        ih fuel (pending_zero rest hcount) htail (fun _ => rfl)
          (by rw [length_drop]; omega) (not_within_zero _ _)
      refine ⟨.char p.val (p.encode.length - c) :: results, state'', p :: d, rest', c', ?_, ?_⟩
      · rw [feedChunk, if_neg hne, hcall]
        show (feedChunk fuel _ state' >>= _) = _
        rw [hfeed]
        rfl
      · rw [show c + s.length = p.encode.length + (0 + (s.drop (p.encode.length - c)).length) by
          rw [length_drop]; omega]
        exact hreach.cons p
    · -- the chunk ends in the character, so it begins it
      obtain rfl : c = 0 := by
        by_contra hzero
        exact hwithin (.inl ⟨by omega, by omega⟩)
      obtain ⟨state', hcall, hkept'⟩ := mbtowcR_cut hkept hcont hne (by omega)
      have hcall := mbrtowc_of_ok hcall (by simp)
      refine ⟨[.incomplete], state', [], p :: rest, s.length, ?_, rfl, rfl, ⟨by omega, hkept'⟩, rfl,
        by simp [hpos]⟩
      rw [feedChunk, if_neg hne, hcall]
      rfl

/-- The first call for a chunk that is in the inside of a character. -/
theorem feedChunk_of_within {rest : List CodePoint} {c : ℕ} {s t : List UInt8} {state : MbState}
    (hpend : Pending rest c state) (hs : s ++ t = (bytes rest).drop c) (hne : s ≠ [])
    (hwithin : Within rest c (c + s.length)) :
    feedChunk s.length s state = .error .overread := by
  cases rest with
  | nil => exact hwithin.elim
  | cons p rest =>
    obtain ⟨hc, hkept⟩ := hpend
    obtain ⟨hpos, hless⟩ := hwithin.resolve_right fun h => absurd h.1 (Nat.not_le.2 hc)
    rw [bytes_cons, drop_append_of_le_length hc.le] at hs
    have hcall := mbrtowc_of_error (mbtowcR_inside hkept (continues_of_append hs) hne hpos hless)
    obtain ⟨fuel, hfuel⟩ : ∃ n, s.length = n + 1 :=
      ⟨s.length - 1, by have := length_pos_iff.2 hne; omega⟩
    rw [hfuel, feedChunk, if_neg hne, hcall]
    rfl

/-! ### The chunks of a text -/

section Text

variable {rest : List CodePoint} {c : ℕ} {state : MbState}

theorem Reached.flatten_eq {s r : List UInt8} {results : List MbResult} {state' : MbState}
    {d rest' : List CodePoint} {c' : ℕ}
    (h : Reached rest (c + s.length) results state' d rest' c')
    (hs : s ++ r = (bytes rest).drop c) : r = (bytes rest').drop c' := by
  have hdrop := congrArg (List.drop s.length) hs
  rw [drop_left, drop_drop, h.pos, h.split, bytes_append, drop_append] at hdrop
  rw [hdrop, drop_eq_nil_of_le (by omega), nil_append]
  congr 1
  omega

theorem Reached.spans_eq {pos : ℕ} {results : List MbResult} {state' : MbState}
    {d rest' : List CodePoint} {c' : ℕ} (h : Reached rest pos results state' d rest' c')
    (chunks : List (List UInt8)) :
    spans pos chunks =
      (spans c' chunks).map fun x => ((bytes d).length + x.1, (bytes d).length + x.2) := by
  rw [h.pos, spans_add]

theorem feed_of_not_within (chunks : List (List UInt8)) :
    ∀ {rest : List CodePoint} {c : ℕ} {state : MbState}, Pending rest c state →
      (∀ s ∈ chunks, s ≠ []) → chunks.flatten = (bytes rest).drop c →
      (∀ x ∈ spans c chunks, ¬ Within rest x.1 x.2) →
      ∃ out, feed chunks state = .ok out ∧
        out.flatten.filterMap MbResult.yield = rest.map (fun p => some p.val) ∧
        List.Forall₂ (fun span results => .incomplete ∈ results ↔ InsideAt rest span.2)
          (spans c chunks) out := by
  induction chunks with
  | nil =>
    intro rest c state hpend _ hflatten _
    cases rest with
    | nil => exact ⟨[], rfl, rfl, .nil⟩
    | cons p rest =>
      -- the bytes end in front of a character that has not been decoded
      have hle := drop_eq_nil_iff.1 hflatten.symm
      rw [bytes_cons, length_append] at hle
      exact absurd hpend.1 (by omega)
  | cons s chunks ih =>
    intro rest c state hpend hne hflatten hwithin
    obtain ⟨results, state', d, rest', c', hfeed, hreach⟩ :=
      feedChunk_of_not_within rest s.length hpend hflatten
        (fun h => absurd h (hne s mem_cons_self)) le_rfl (hwithin _ mem_cons_self)
    have hspans := hreach.spans_eq chunks
    have hwithin' : ∀ x ∈ spans c' chunks, ¬ Within rest' x.1 x.2 := by
      intro x hx
      have hnot := hwithin _ (mem_cons_of_mem _ (hspans ▸ mem_map_of_mem hx))
      rwa [hreach.split, within_append] at hnot
    obtain ⟨out, hout, hyields, hends⟩ := ih hreach.pending
      (fun s hs => hne s (mem_cons_of_mem _ hs)) (hreach.flatten_eq hflatten) hwithin'
    refine ⟨results :: out, ?_, ?_, .cons ?_ ?_⟩
    · rw [feed, hfeed]
      show (feed chunks state' >>= _) = _
      rw [hout]
      rfl
    · rw [flatten_cons, filterMap_append, hreach.yields, hyields, ← map_append,
        ← hreach.split]
    · rw [hreach.incomplete, ← hreach.pending.insideAt_iff]
      show _ ↔ InsideAt rest (c + s.length)
      rw [hreach.pos, hreach.split, insideAt_append]
    · rw [hspans, forall₂_map_left_iff, hreach.split]
      simpa only [insideAt_append] using hends

theorem feed_of_within (chunks : List (List UInt8)) :
    ∀ {rest : List CodePoint} {c : ℕ} {state : MbState}, Pending rest c state →
      (∀ s ∈ chunks, s ≠ []) → chunks.flatten = (bytes rest).drop c →
      (∃ x ∈ spans c chunks, Within rest x.1 x.2) → feed chunks state = .error .overread := by
  induction chunks with
  | nil =>
    rintro rest c state - - - ⟨x, hx, -⟩
    exact absurd hx not_mem_nil
  | cons s chunks ih =>
    intro rest c state hpend hne hflatten hwithin
    have hs := hne s mem_cons_self
    by_cases hfirst : Within rest c (c + s.length)
    · rw [feed, feedChunk_of_within hpend hflatten hs hfirst]
      rfl
    · obtain ⟨results, state', d, rest', c', hfeed, hreach⟩ :=
        feedChunk_of_not_within rest s.length hpend hflatten
          (fun h => absurd h hs) le_rfl hfirst
      have hlater : ∃ x ∈ spans c' chunks, Within rest' x.1 x.2 := by
        obtain ⟨x, hx, hw⟩ := hwithin
        obtain rfl | hx := mem_cons.1 hx
        · exact absurd hw hfirst
        rw [hreach.spans_eq, mem_map] at hx
        obtain ⟨y, hy, rfl⟩ := hx
        rw [hreach.split, within_append] at hw
        exact ⟨y, hy, hw⟩
      have herror := ih hreach.pending (fun s hs => hne s (mem_cons_of_mem _ hs))
        (hreach.flatten_eq hflatten) hlater
      rw [feed, hfeed]
      show (feed chunks state' >>= _) = _
      rw [herror]
      rfl

end Text

/-- **The text is decoded if and only if no chunk is in the inside of a character**, that is, begins
behind its first byte and ends in front of its last one.  Such a chunk is read beyond its end. -/
theorem decodes_iff (cps : List CodePoint) (chunks : List (List UInt8))
    (hne : ∀ s ∈ chunks, s ≠ []) (hflatten : chunks.flatten = bytes cps) :
    Decodes cps chunks ↔ ∀ x ∈ spans 0 chunks, ¬ Within cps x.1 x.2 := by
  have hpending : Pending cps 0 {} := pending_zero cps rfl
  constructor
  · rintro ⟨out, hout, -, -⟩ x hx hwithin
    rw [feed_of_within chunks hpending hne hflatten ⟨x, hx, hwithin⟩] at hout
    cases hout
  · intro hwithin
    exact feed_of_not_within chunks hpending hne hflatten hwithin

/-- The Euro sign, which has three bytes. -/
def euro : CodePoint := ⟨0x20ac, by decide, by decide, by decide⟩

/-- Its last byte may come later, together with a letter. -/
theorem decodes_iff_euro :
    [[0xe2, 0x82], [0xac, 0x41]].flatten = bytes [euro, ⟨0x41, by decide, by decide, by decide⟩] ∧
      Decodes [euro, ⟨0x41, by decide, by decide, by decide⟩] [[0xe2, 0x82], [0xac, 0x41]] :=
  ⟨by decide, (decodes_iff _ _ (by decide) (by decide)).2 (by decide)⟩

/-- The Euro sign byte by byte, as `fgetwc` reads it: the second call reads two bytes. -/
theorem not_decodes_euro_bytewise :
    (∀ s ∈ [[0xe2], [0x82], [0xac]], s ≠ ([] : List UInt8)) ∧
      [[0xe2], [0x82], [0xac]].flatten = bytes [euro] ∧
      feed [[0xe2], [0x82], [0xac]] {} = .error .overread ∧
      ¬ Decodes [euro] [[0xe2], [0x82], [0xac]] := by
  have hfeed : feed [[0xe2], [0x82], [0xac]] {} = .error .overread := rfl
  refine ⟨by decide, by decide, hfeed, ?_⟩
  rintro ⟨out, hout, -, -⟩
  cases hout

/-! ### One byte at a time -/

/-- `__fgetwc_unlocked_internal` on the bytes of a stream: the wide character or `WEOF`, whether
`__SERR` is set, and what is left.  The byte of an invalid sequence is pushed back unless it is the
first one. -/
def fgetwc (first : Bool) :
    List UInt8 → MbState → Except Fault ((Option ℕ × Bool) × List UInt8 × MbState)
  | [], state => .ok ((none, !first), [], state)
  | b :: s, state => do
    let (result, state) ← mbrtowc [b] state
    match result with
    | .invalid => return ((none, !first), if first then s else b :: s, state)
    | .incomplete => fgetwc false s state
    | .nul => return ((some 0, false), s, state)
    | .char wc _ => return ((some wc, false), s, state)

section Bytewise

variable {p : CodePoint} {b : UInt8} {c : ℕ} {first : Bool} {s r t : List UInt8} {state : MbState}

theorem fgetwc_last (hkept : Kept p.encode c state) (hb : [b] ++ t = p.encode.drop c ++ r)
    (hc : c + 1 = p.encode.length) :
    ∃ state', fgetwc first (b :: s) state = .ok ((some p.val, false), s, state') ∧
      state'.count = 0 := by
  obtain ⟨state', hcall, hcount⟩ := mbtowcR_complete hkept (continues_of_append hb)
    (cons_ne_nil _ _) (by omega) (show _ ≤ c + 1 by omega)
  refine ⟨state', ?_, hcount⟩
  rw [fgetwc, mbrtowc_of_ok hcall (by simp)]
  rfl

theorem fgetwc_first (first : Bool) (hkept : Kept p.encode 0 state)
    (hb : [b] ++ t = p.encode.drop 0 ++ r) (hlen : 1 < p.encode.length) :
    ∃ state', fgetwc first (b :: s) state = fgetwc false s state' ∧ Kept p.encode 1 state' := by
  obtain ⟨state', hcall, hkept'⟩ := mbtowcR_cut hkept (continues_of_append hb)
    (cons_ne_nil _ _) hlen
  refine ⟨state', ?_, hkept'⟩
  rw [fgetwc, mbrtowc_of_ok hcall (by simp)]
  rfl

theorem CodePoint.encode_eq_cons (h : 1 < p.encode.length) :
    ∃ b₀ b₁ e, p.encode = b₀ :: b₁ :: e :=
  match p.encode, h with
  | b₀ :: b₁ :: e, _ => ⟨b₀, b₁, e, rfl⟩

theorem fgetwc_of_lt (hval : p.val < 0x800) (hcount : state.count = 0) (s : List UInt8) :
    ∃ state', fgetwc true (p.encode ++ s) state = .ok ((some p.val, false), s, state') ∧
      state'.count = 0 := by
  obtain ⟨-, hkept⟩ := pending_zero [p] hcount
  obtain h | h := Nat.lt_or_ge p.val 0x80
  · obtain ⟨hlen, -⟩ := CodePoint.encode_one h
    obtain ⟨b, he⟩ := length_eq_one_iff.1 hlen
    rw [he]
    exact fgetwc_last (t := []) (r := []) hkept (by rw [he]; rfl) hlen.symm
  · obtain ⟨hlen, -⟩ := CodePoint.encode_two h hval
    obtain ⟨b₀, b₁, he⟩ := length_eq_two.1 hlen
    obtain ⟨state₁, hfirst, hkept₁⟩ := fgetwc_first true (s := b₁ :: s) (t := [b₁])
      (r := []) hkept (by rw [he]; rfl) (by omega)
    rw [he]
    show ∃ state', fgetwc true (b₀ :: b₁ :: s) state = _ ∧ _
    rw [hfirst]
    exact fgetwc_last (t := []) (r := []) hkept₁ (by rw [he]; rfl) hlen.symm

theorem fgetwc_of_le (hval : 0x800 ≤ p.val) (hcount : state.count = 0) (s : List UInt8) :
    fgetwc true (p.encode ++ s) state = .error .overread := by
  have hlen : 2 < p.encode.length := by
    obtain h | h := Nat.lt_or_ge p.val 0x10000
    · rw [(CodePoint.encode_three hval h).1]
      norm_num
    · rw [(CodePoint.encode_four h).1]
      norm_num
  obtain ⟨-, hkept⟩ := pending_zero [p] hcount
  obtain ⟨b₀, b₁, e, he⟩ := CodePoint.encode_eq_cons (p := p) (by omega)
  obtain ⟨state₁, hfirst, hkept₁⟩ := fgetwc_first true (b := b₀)
    (s := b₁ :: (e ++ s)) (t := b₁ :: e) (r := []) hkept (by rw [he]; simp) (by omega)
  have hin := mbtowcR_inside (s := [b₁]) hkept₁
    (continues_of_append (t := e) (r := []) (by rw [he]; simp)) (cons_ne_nil _ _) one_pos hlen
  rw [he]
  show fgetwc true (b₀ :: b₁ :: (e ++ s)) state = _
  rw [hfirst, fgetwc, mbrtowc_of_error hin]
  rfl

end Bytewise

/-- The results of so many calls, and what is left. -/
def fgetwcs :
    ℕ → List UInt8 → MbState → Except Fault (List (Option ℕ × Bool) × List UInt8 × MbState)
  | 0, s, state => .ok ([], s, state)
  | n + 1, s, state => do
    let (wc, s, state) ← fgetwc true s state
    let (wcs, s, state) ← fgetwcs n s state
    return (wc :: wcs, s, state)

/-- **What `fgetwc` can read.**  A text is read character by character if all of them have one or
two bytes; otherwise a call reads beyond its byte. -/
theorem fgetwcs_text (cps : List CodePoint) (s : List UInt8) :
    if ∀ p ∈ cps, p.val < 0x800 then
      ∃ state', fgetwcs cps.length (bytes cps ++ s) {} =
        .ok (cps.map fun p => (some p.val, false), s, state') ∧ state'.count = 0
    else fgetwcs cps.length (bytes cps ++ s) {} = .error .overread := by
  generalize hstate : ({} : MbState) = state
  replace hstate : state.count = 0 := by rw [← hstate]
  induction cps generalizing state with
  | nil =>
    rw [if_pos (by simp)]
    exact ⟨state, rfl, hstate⟩
  | cons p cps ih =>
    have hbytes : bytes (p :: cps) ++ s = p.encode ++ (bytes cps ++ s) := append_assoc ..
    rw [hbytes, length_cons, fgetwcs]
    obtain hval | hval := Nat.lt_or_ge p.val 0x800
    · obtain ⟨state₁, hcall, hcount⟩ := fgetwc_of_lt hval hstate (bytes cps ++ s)
      have ih := ih state₁ hcount
      rw [hcall]
      simp only [forall_mem_cons, hval, true_and]
      split_ifs at ih ⊢
      · obtain ⟨state', hcalls, hcount'⟩ := ih
        refine ⟨state', ?_, hcount'⟩
        change fgetwcs _ _ state₁ >>= _ = _
        rw [hcalls]
        rfl
      · change fgetwcs _ _ state₁ >>= _ = _
        rw [ih]
        rfl
    · rw [fgetwc_of_le hval hstate, if_neg fun h => (h p (by simp)).not_ge hval]
      rfl

end Clib4.Wchar
