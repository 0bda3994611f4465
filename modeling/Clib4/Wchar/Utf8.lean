import Clib4.Base.BitFields
import Clib4.Fd
import Mathlib.Data.List.GetD

/-!
# Multibyte characters in the locale C-UTF-8

`wcrtomb` encodes a wide character, and `_mbtowc_r` decodes one from the bytes it is given.  If
there are not enough of them, it keeps those it has in an `mbstate_t` and goes on with the next
call.  The count `n` of the bytes is raised then, in several places, by the bytes that are kept.

A byte behind the end of the bytes that were passed is an over-read.

## Main definitions

* `MbState`, `mbtowcR`, `mbrtowc` — the decoder.

## Main results

* `mbtowcR_complete` — **a call that is given the rest of a character decodes it.**
* `mbtowcR_cut` — **a call that is given less keeps it, if it begins the character.**
* `mbtowcR_inside` — **a call that is given a part of the inside of a character reads too far.**
-/

namespace Clib4.Wchar

open List Function

/-! ### The encoder -/

/-- A byte from the bits of a wide character: a tag, and the `k` bits from the bit `i` on. -/
def field (tag w k i : ℕ) : UInt8 := .ofNat (tag ||| ((w &&& ((2 ^ k - 1) <<< i)) >>> i))

/-- `wcrtomb` in the locale C-UTF-8: the bytes, or nothing where it returns -1. -/
def wcrtomb (wchar : ℤ) : Option (List UInt8) :=
  let w := wchar.toNat
  if wchar ≤ 0x7f then some [.ofNat (wchar % 256).toNat]
  else if wchar ≤ 0x7ff then some [field 0xc0 w 5 6, field 0x80 w 6 0]
  else if wchar ≤ 0xffff then
    if 0xd800 ≤ wchar ∧ wchar ≤ 0xdfff then none
    else some [field 0xe0 w 4 12, field 0x80 w 6 6, field 0x80 w 6 0]
  else if wchar ≤ 0x1fffff then
    some [field 0xf0 w 3 18, field 0x80 w 6 12, field 0x80 w 6 6, field 0x80 w 6 0]
  else if wchar ≤ 0x3ffffff then
    some [field 0xf8 w 2 24, field 0x80 w 6 18, field 0x80 w 6 12, field 0x80 w 6 6,
      field 0x80 w 6 0]
  else if wchar ≤ 0x7fffffff then
    some [field 0xfc w 1 30, field 0x80 w 6 24, field 0x80 w 6 18, field 0x80 w 6 12,
      field 0x80 w 6 6, field 0x80 w 6 0]
  else none

/-! ### The decoder -/

/-- `mbstate_t`: how many bytes are kept, and the bytes. -/
structure MbState where
  count : ℕ := 0
  wchb : ℕ → ℕ := fun _ => 0

/-- The return values: -1, -2, 0, or a wide character and the number of bytes. -/
inductive MbResult
  | invalid
  | incomplete
  | nul
  | char (wc consumed : ℕ)
  deriving DecidableEq, Repr

/-- The end of a call: a fault, or a return. -/
inductive Stop
  | fault (f : Fault)
  | exit (result : MbResult) (state : MbState)

/-- The variables of `_mbtowc_r`: the bytes `t`, the count `n`, the index `i` and the state. -/
structure Locals where
  t : List UInt8
  n : ℕ
  i : ℕ
  state : MbState

namespace Locals

/-- `t[i++]`. -/
def next (v : Locals) : Except Stop (ℕ × Locals) :=
  match v.t[v.i]? with
  | some b => .ok (b.toNat, { v with i := v.i + 1 })
  | none => .error (.fault .overread)

/-- A return. -/
def exit {α : Type} (v : Locals) (result : MbResult) : Except Stop α :=
  .error (.exit result v.state)

/-- The byte is stored in the state. -/
def store (v : Locals) (k ch : ℕ) : Locals :=
  { v with state.wchb := update v.state.wchb k ch }

/-- In front of the byte `k`: a byte that is kept is counted in `n`, another one in the state. -/
def advance (v : Locals) (k : ℕ) : Locals :=
  if v.state.count = k - 1 then { v with state.count := k } else { v with n := v.n + 1 }

/-- The byte `k`, from the bytes passed or from the state. -/
def fetch (v : Locals) (k : ℕ) : Except Stop (ℕ × Locals) :=
  if v.state.count = k then v.next else .ok (v.state.wchb k, v)

/-- The byte `k` of a sequence that has more bytes behind it.  A second byte below `low` is overlong
behind the first byte `lead`. -/
def middleByte (v : Locals) (k lead low : ℕ) : Except Stop Locals := do
  let v := v.advance k
  if v.n < k + 1 then v.exit .incomplete
  let (ch, v) ← v.fetch k
  if k = 1 ∧ v.state.wchb 0 = lead ∧ ch < low then v.exit .invalid
  if ch < 0x80 ∨ 0xbf < ch then v.exit .invalid
  return v.store k ch

/-- The last byte of a sequence of `length` bytes. -/
def lastByte (v : Locals) (length : ℕ) : Except Stop (ℕ × Locals) := do
  let v := { v with state.count := length - 1 }
  if v.n < length then v.exit .incomplete
  v.next

/-- A byte that continues a sequence is in its range. -/
def checkRange (v : Locals) (ch : ℕ) : Except Stop Unit :=
  if ch < 0x80 ∨ 0xbf < ch then v.exit .invalid else pure ()

/-- The end of a sequence. -/
def done (v : Locals) (wc : ℕ) : Except Stop (MbResult × MbState) :=
  .ok (.char wc v.i, { v.state with count := 0 })

/-- A sequence of two bytes. -/
def twoBytes (v : Locals) (ch : ℕ) : Except Stop (MbResult × MbState) := do
  let v := v.store 0 ch
  let (ch, v) ← v.lastByte 2
  v.checkRange ch
  if v.state.wchb 0 < 0xc2 then v.exit .invalid
  v.done (((v.state.wchb 0 &&& 0x1f) <<< 6) ||| (ch &&& 0x3f))

/-- A sequence of three bytes; the result must not be a surrogate. -/
def threeBytes (v : Locals) (ch : ℕ) : Except Stop (MbResult × MbState) := do
  let v := v.store 0 ch
  let v ← v.middleByte 1 0xe0 0xa0
  let (ch, v) ← v.lastByte 3
  v.checkRange ch
  let v := { v with state.count := 0 }
  let tmp := ((v.state.wchb 0 &&& 0x0f) <<< 12) ||| ((v.state.wchb 1 &&& 0x3f) <<< 6) |||
    (ch &&& 0x3f)
  if 0xd800 ≤ tmp ∧ tmp ≤ 0xdfff then v.exit .invalid
  v.done tmp

/-- A sequence of four bytes. -/
def fourBytes (v : Locals) (ch : ℕ) : Except Stop (MbResult × MbState) := do
  let v := v.store 0 ch
  let v ← v.middleByte 1 0xf0 0x90
  let v ← v.middleByte 2 0xf0 0x90
  let (ch, v) ← v.lastByte 4
  v.checkRange ch
  v.done (((v.state.wchb 0 &&& 0x07) <<< 18) ||| ((v.state.wchb 1 &&& 0x3f) <<< 12) |||
    ((v.state.wchb 2 &&& 0x3f) <<< 6) ||| (ch &&& 0x3f))

/-- A sequence of five bytes; its last one is not checked. -/
def fiveBytes (v : Locals) (ch : ℕ) : Except Stop (MbResult × MbState) := do
  let v := v.store 0 ch
  let v ← v.middleByte 1 0xf8 0x88
  let v ← v.middleByte 2 0xf8 0x88
  let v ← v.middleByte 3 0xf8 0x88
  let (ch, v) ← v.lastByte 5
  v.done (((v.state.wchb 0 &&& 0x03) <<< 24) ||| ((v.state.wchb 1 &&& 0x3f) <<< 18) |||
    ((v.state.wchb 2 &&& 0x3f) <<< 12) ||| ((v.state.wchb 3 &&& 0x3f) <<< 6) ||| (ch &&& 0x3f))

/-- A sequence of six bytes; the state has no room for the fifth. -/
def sixBytes (v : Locals) (ch : ℕ) : Except Stop (MbResult × MbState) := do
  let v := v.store 0 ch
  let v ← v.middleByte 1 0xfc 0x84
  let v ← v.middleByte 2 0xfc 0x84
  let v ← v.middleByte 3 0xfc 0x84
  let v := v.advance 4
  if v.n < 5 then v.exit .incomplete
  if v.n = 5 then v.exit .invalid
  let (ch, v) ← v.next
  v.checkRange ch
  let (ch2, v) ← v.next
  v.done (((v.state.wchb 0 &&& 0x01) <<< 30) ||| ((v.state.wchb 1 &&& 0x3f) <<< 24) |||
    ((v.state.wchb 2 &&& 0x3f) <<< 18) ||| ((v.state.wchb 3 &&& 0x3f) <<< 12) |||
    ((ch &&& 0x3f) <<< 6) ||| (ch2 &&& 0x3f))

/-- The first byte, from the bytes passed or from the state. -/
def firstByte (v : Locals) : Except Stop (ℕ × Locals) :=
  if v.state.count = 0 then v.next else .ok (v.state.wchb 0, { v with n := v.n + 1 })

/-- The branch for the first byte. -/
def sequence (v : Locals) (ch : ℕ) : Except Stop (MbResult × MbState) :=
  if ch = 0 then .ok (.nul, { v.state with count := 0 })
  else if ch ≤ 0x7f then .ok (.char ch 1, { v.state with count := 0 })
  else if 0xc0 ≤ ch ∧ ch ≤ 0xdf then v.twoBytes ch
  else if 0xe0 ≤ ch ∧ ch ≤ 0xef then v.threeBytes ch
  else if 0xf0 ≤ ch ∧ ch ≤ 0xf7 then v.fourBytes ch
  else if 0xf8 ≤ ch ∧ ch ≤ 0xfb then v.fiveBytes ch
  else if 0xfc ≤ ch ∧ ch ≤ 0xfd then v.sixBytes ch
  else v.exit .invalid

/-- The body of `_mbtowc_r`. -/
def decode (v : Locals) : Except Stop (MbResult × MbState) := do
  let (ch, v) ← v.firstByte
  v.sequence ch

end Locals

/-- `_mbtowc_r` in the locale C-UTF-8. -/
def mbtowcR (s : List UInt8) (state : MbState) : Except Fault (MbResult × MbState) :=
  if s.length = 0 then .ok (.incomplete, state)
  else
    match Locals.decode { t := s, n := s.length, i := 0, state } with
    | .ok result => .ok result
    | .error (.exit result state) => .ok (result, state)
    | .error (.fault f) => .error f

/-- `mbrtowc`: after an invalid sequence the state is the initial one. -/
def mbrtowc (s : List UInt8) (state : MbState) : Except Fault (MbResult × MbState) := do
  let (result, state) ← mbtowcR s state
  if result = .invalid then return (result, { state with count := 0 })
  return (result, state)

/-! ### The place in a character

The bytes `e` of a character are handed over in pieces: `c` of them are kept in the state, and the
bytes `s` are passed. -/

/-- The byte `j` of a character. -/
def byte (e : List UInt8) (j : ℕ) : ℕ := (e.getD j 0).toNat

/-- The state keeps the first `c` bytes. -/
structure Kept (e : List UInt8) (c : ℕ) (state : MbState) : Prop where
  count : state.count = c
  wchb : ∀ j < c, state.wchb j = byte e j

/-- The bytes `s` go on with the character from its byte `c` on, and may go beyond it. -/
def Continues (e : List UInt8) (c : ℕ) (s : List UInt8) : Prop :=
  ∀ i < s.length, c + i < e.length → s[i]? = e[c + i]?

/-- A call that is not given the rest of the character: one that begins it keeps what it was given,
and one that goes on with it reads too far. -/
def Short {α : Type} (e : List UInt8) (c m : ℕ) (x : Except Stop α) : Prop :=
  if c = 0 then ∃ state, x = .error (.exit .incomplete state) ∧ Kept e m state
  else x = .error (.fault .overread)

theorem ok_bind {α β : Type} (a : α) (f : α → Except Stop β) : (Except.ok a >>= f) = f a := rfl

theorem Short.bind {α β : Type} {e : List UInt8} {c m : ℕ} {x : Except Stop α}
    (h : Short e c m x) (f : α → Except Stop β) : Short e c m (x >>= f) := by
  unfold Short at h ⊢
  split at h
  · next hc =>
    obtain ⟨state, rfl, hkept⟩ := h
    rw [if_pos hc]
    exact ⟨state, rfl, hkept⟩
  · next hc =>
    subst h
    rw [if_neg hc]
    rfl

namespace Locals

/-- The bytes up to the byte `k` are known: those in front of the byte `c` from the state. -/
structure At (e : List UInt8) (c : ℕ) (s : List UInt8) (k : ℕ) (v : Locals) : Prop where
  t : v.t = s
  n : v.n = s.length + if c = 0 then 0 else 1 + min k c
  i : v.i = k + 1 - c
  count : v.state.count = max k c
  wchb : ∀ j < max (k + 1) c, v.state.wchb j = byte e j

section Steps

variable {e s : List UInt8} {c k lead low : ℕ} {v : Locals}

/-- Only the count of the bytes passed knows where a character was left: the other fields are those
of the next byte. -/
theorem At.advance (hv : At e c s k v) :
    (v.advance (k + 1)).t = s ∧
      (v.advance (k + 1)).n = s.length + (if c = 0 then 0 else 1 + min (k + 1) c) ∧
      (v.advance (k + 1)).i = k + 1 - c ∧ (v.advance (k + 1)).state.count = max (k + 1) c ∧
      (v.advance (k + 1)).state.wchb = v.state.wchb := by
  have hn := hv.n
  have hcount := hv.count
  unfold Locals.advance
  split
  · next h =>
    refine ⟨hv.t, ?_, hv.i, ?_, rfl⟩
    · show v.n = _
      rw [hn]
      split <;> omega
    · show k + 1 = _
      omega
  · next h =>
    refine ⟨hv.t, ?_, hv.i, ?_, rfl⟩
    · show v.n + 1 = _
      rw [hn]
      split <;> omega
    · show v.state.count = _
      omega

theorem next_eq (ht : v.t = s) (hs : Continues e c s) (hi : v.i < s.length)
    (hk : c + v.i < e.length) : v.next = .ok (byte e (c + v.i), { v with i := v.i + 1 }) := by
  have hget := hs v.i hi hk
  rw [getElem?_eq_getElem hk] at hget
  have hbyte : byte e (c + v.i) = (e[c + v.i]).toNat := by
    rw [byte, List.getD_eq_getElem _ _ hk]
  rw [next, ht, hget, hbyte]

theorem next_eq_overread (ht : v.t = s) (hi : s.length ≤ v.i) :
    v.next = .error (.fault .overread) := by
  rw [next, ht, getElem?_eq_none hi]

theorem At.middleByte_of_lt (hv : At e c s k v) (hs : Continues e c s)
    (hlt : k + 1 < c + s.length) (hk : k + 1 < e.length)
    (hlow : k = 0 → byte e 0 = lead → low ≤ byte e 1)
    (hrange : 0x80 ≤ byte e (k + 1) ∧ byte e (k + 1) ≤ 0xbf) :
    ∃ v', v.middleByte (k + 1) lead low = .ok v' ∧ At e c s (k + 1) v' := by
  obtain ⟨ht, hn, hi, hcount, hwchb⟩ := hv.advance
  have henough : ¬ (v.advance (k + 1)).n < k + 1 + 1 := by
    rw [hn]
    split <;> omega
  -- the byte comes from the bytes passed if the state does not have it
  have hfetch : ∃ v', (v.advance (k + 1)).fetch (k + 1) = .ok (byte e (k + 1), v') ∧
      v'.t = s ∧ v'.n = (v.advance (k + 1)).n ∧ v'.i = k + 2 - c ∧
      v'.state = (v.advance (k + 1)).state := by
    unfold fetch
    by_cases hc : c ≤ k + 1
    · rw [if_pos (by omega), next_eq ht hs (by omega) (by omega)]
      refine ⟨{ v.advance (k + 1) with i := (v.advance (k + 1)).i + 1 }, ?_, ht, rfl, ?_, rfl⟩
      · rw [show c + (v.advance (k + 1)).i = k + 1 by omega]
      · show (v.advance (k + 1)).i + 1 = _
        omega
    · rw [if_neg (by omega), hwchb, hv.wchb (k + 1) (by omega)]
      exact ⟨_, rfl, ht, rfl, by omega, rfl⟩
  obtain ⟨v', hfetch, ht', hn', hi', hstate'⟩ := hfetch
  have hzero : v'.state.wchb 0 = byte e 0 := by rw [hstate', hwchb, hv.wchb 0 (by omega)]
  have hfirst : ¬ (k + 1 = 1 ∧ v'.state.wchb 0 = lead ∧ byte e (k + 1) < low) := by
    rintro ⟨hk1, hlead, hless⟩
    obtain rfl : k = 0 := by omega
    exact absurd (hlow rfl (hzero ▸ hlead)) (Nat.not_le.2 hless)
  refine ⟨v'.store (k + 1) (byte e (k + 1)), ?_, ht', ?_, ?_, ?_, ?_⟩
  · simp only [middleByte, if_neg henough, hfetch, ok_bind, if_neg hfirst,
      if_neg (show ¬ (byte e (k + 1) < 0x80 ∨ 0xbf < byte e (k + 1)) by omega)]
    rfl
  · exact hn'.trans hn
  · show v'.i = _
    omega
  · show v'.state.count = _
    rw [hstate', hcount]
  · intro j hj
    show update v'.state.wchb (k + 1) (byte e (k + 1)) j = _
    by_cases hj' : j = k + 1
    · rw [hj', update_self]
    · rw [update_of_ne hj', hstate', hwchb, hv.wchb j (by omega)]

/-- A byte in the middle, if the bytes passed end in front of it. -/
theorem At.middleByte_of_eq (hv : At e c s k v) (heq : k + 1 = c + s.length) :
    Short e c s.length (v.middleByte (k + 1) lead low) := by
  obtain ⟨ht, hn, hi, hcount, hwchb⟩ := hv.advance
  unfold Short
  split
  · next hc =>
    subst hc
    have hless : (v.advance (k + 1)).n < k + 1 + 1 := by
      rw [hn, if_pos rfl]
      omega
    refine ⟨(v.advance (k + 1)).state, ?_, ?_, ?_⟩
    · simp only [middleByte, if_pos hless]
      rfl
    · omega
    · intro j hj
      rw [hwchb, hv.wchb j (by omega)]
  · next hc =>
    -- the bytes of the state have been counted, and the count is not below the needed one
    have henough : ¬ (v.advance (k + 1)).n < k + 1 + 1 := by
      rw [hn, if_neg hc]
      omega
    simp only [middleByte, if_neg henough, fetch, if_pos (show
      (v.advance (k + 1)).state.count = k + 1 by omega), next_eq_overread ht (by omega)]
    rfl

theorem At.lastByte_of_lt (hv : At e c s k v) (hs : Continues e c s)
    (hlt : k + 1 < c + s.length) (hk : k + 2 = e.length) (hc : c < e.length) :
    ∃ v', v.lastByte (k + 2) = .ok (byte e (k + 1), v') ∧ v'.i = e.length - c ∧
      ∀ j < k + 1, v'.state.wchb j = byte e j := by
  have ht := hv.t
  have hi := hv.i
  have hn := hv.n
  let w : Locals := { v with state.count := k + 2 - 1 }
  have henough : ¬ w.n < k + 2 := by
    show ¬ v.n < k + 2
    rw [hn]
    split <;> omega
  have hnext : w.next = .ok (byte e (c + w.i), { w with i := w.i + 1 }) :=
    next_eq (v := w) ht hs (show v.i < _ by omega) (show c + v.i < _ by omega)
  have hplace : c + w.i = k + 1 := by
    show c + v.i = k + 1
    omega
  refine ⟨{ w with i := w.i + 1 }, ?_, ?_, ?_⟩
  · rw [hplace] at hnext
    simp only [lastByte, w, if_neg henough] at hnext ⊢
    exact hnext
  · show v.i + 1 = _
    omega
  · intro j hj
    exact hv.wchb j (by omega)

theorem At.lastByte_of_eq (hv : At e c s k v) (hne : s ≠ []) (heq : k + 1 = c + s.length) :
    Short e c s.length (v.lastByte (k + 2)) := by
  have hpos := length_pos_iff.2 hne
  have ht := hv.t
  have hi := hv.i
  have hn := hv.n
  unfold Short
  split
  · next hc =>
    subst hc
    have hless : v.n < k + 2 := by
      rw [hn, if_pos rfl]
      omega
    refine ⟨{ v.state with count := k + 2 - 1 }, ?_, ?_, ?_⟩
    · simp only [lastByte, if_pos hless]
      rfl
    · show k + 2 - 1 = _
      omega
    · intro j hj
      exact hv.wchb j (by omega)
  · next hc =>
    have henough : ¬ v.n < k + 2 := by
      rw [hn, if_neg hc]
      omega
    have hover := next_eq_overread (v := { v with state.count := k + 2 - 1 }) ht
      (show s.length ≤ v.i by omega)
    simp only [lastByte, if_neg henough]
    exact hover

/-- What a call does with a character: it decodes it if it is given the rest of it. -/
def Meets (e : List UInt8) (c m wc : ℕ) (x : Except Stop (MbResult × MbState)) : Prop :=
  (e.length ≤ c + m → ∃ state, x = .ok (.char wc (e.length - c), state) ∧ state.count = 0) ∧
    (c + m < e.length → Short e c m x)

theorem At.middleByte_bind {f : Locals → Except Stop (MbResult × MbState)} {wc : ℕ}
    (hv : At e c s k v) (hs : Continues e c s) (hle : k + 1 ≤ c + s.length)
    (hk : k + 1 < e.length) (hlow : k = 0 → byte e 0 = lead → low ≤ byte e 1)
    (hrange : 0x80 ≤ byte e (k + 1) ∧ byte e (k + 1) ≤ 0xbf)
    (hf : ∀ v', k + 2 ≤ c + s.length → At e c s (k + 1) v' → Meets e c s.length wc (f v')) :
    Meets e c s.length wc (v.middleByte (k + 1) lead low >>= f) := by
  obtain hlt | heq := Nat.lt_or_eq_of_le hle
  · obtain ⟨v', hv', hat⟩ := hv.middleByte_of_lt hs hlt hk hlow hrange
    rw [hv']
    exact hf v' hlt hat
  · exact ⟨fun h => absurd h (by omega), fun _ => (hv.middleByte_of_eq heq).bind f⟩

theorem At.lastByte_bind {f : ℕ × Locals → Except Stop (MbResult × MbState)} {wc : ℕ}
    (hv : At e c s k v) (hs : Continues e c s) (hne : s ≠ []) (hle : k + 1 ≤ c + s.length)
    (hk : k + 2 = e.length) (hc : c < e.length)
    (hf : ∀ v', v'.i = e.length - c → (∀ j < k + 1, v'.state.wchb j = byte e j) →
      ∃ state, f (byte e (k + 1), v') = .ok (.char wc (e.length - c), state) ∧ state.count = 0) :
    Meets e c s.length wc (v.lastByte (k + 2) >>= f) := by
  obtain hlt | heq := Nat.lt_or_eq_of_le hle
  · obtain ⟨v', hv', hi, hwchb⟩ := hv.lastByte_of_lt hs hlt hk hc
    rw [hv']
    exact ⟨fun _ => hf v' hi hwchb, fun h => absurd h (by omega)⟩
  · exact ⟨fun h => absurd h (by omega), fun _ => (hv.lastByte_of_eq hne heq).bind f⟩

end Steps

/-! ### The branches -/

section Branches

open BitFields

variable {e s : List UInt8} {c x₀ x₁ x₂ x₃ : ℕ} {v : Locals}

theorem checkRange_of_lt {x : ℕ} (v : Locals) (hx : x < 64) :
    v.checkRange (0x80 + x) = .ok () := by
  rw [checkRange, if_neg (by omega)]
  rfl

theorem and_tail {x : ℕ} (hx : x < 64) : (0x80 + x) &&& 0x3f = x :=
  and_of_dvd (k := 6) 2 hx

section

variable (hv : At e c s 0 (v.store 0 (byte e 0))) (hs : Continues e c s) (hne : s ≠ [])
  (hc : c < e.length)

include hv hs hne hc

theorem twoBytes_meets (hlen : e.length = 2) (h₀ : byte e 0 = 0xc0 + x₀)
    (hlow : 2 ≤ x₀) (hx₀ : x₀ < 32) (h₁ : byte e 1 = 0x80 + x₁) (hx₁ : x₁ < 64) :
    Meets e c s.length (2 ^ 6 * x₀ + x₁) (v.twoBytes (byte e 0)) := by
  have hpos := length_pos_iff.2 hne
  refine hv.lastByte_bind hs hne (by omega) hlen.symm hc fun v' hi hwchb => ?_
  have hlead : v'.state.wchb 0 = 0xc0 + x₀ := (hwchb 0 (by omega)).trans h₀
  have hfield : (0xc0 + x₀) &&& 0x1f = x₀ := and_of_dvd (k := 5) 6 hx₀
  refine ⟨{ v'.state with count := 0 }, ?_, rfl⟩
  simp only [h₁, checkRange_of_lt v' hx₁, ok_bind, hlead, if_neg (show ¬ 0xc0 + x₀ < 0xc2 by omega),
    done, hfield, and_tail hx₁, shiftLeft_or (k := 6) x₀ hx₁, hi]

theorem threeBytes_meets (hlen : e.length = 3) (h₀ : byte e 0 = 0xe0 + x₀)
    (hx₀ : x₀ < 16) (h₁ : byte e 1 = 0x80 + x₁) (hx₁ : x₁ < 64) (hlow : x₀ = 0 → 32 ≤ x₁)
    (h₂ : byte e 2 = 0x80 + x₂) (hx₂ : x₂ < 64) {wc : ℕ}
    (hwc : 2 ^ 12 * x₀ + (2 ^ 6 * x₁ + x₂) = wc) (hsurrogate : wc < 0xd800 ∨ 0xdfff < wc) :
    Meets e c s.length wc (v.threeBytes (byte e 0)) := by
  have hpos := length_pos_iff.2 hne
  have hrange₁ : 0x80 ≤ byte e 1 ∧ byte e 1 ≤ 0xbf := by omega
  refine hv.middleByte_bind hs (by omega) (by omega) (fun _ _ => by omega) hrange₁ ?_
  intro v₁ hle₁ hv₁
  refine hv₁.lastByte_bind hs hne hle₁ hlen.symm hc fun v' hi hwchb => ?_
  have hlead : v'.state.wchb 0 = 0xe0 + x₀ := (hwchb 0 (by omega)).trans h₀
  have hsecond : v'.state.wchb 1 = 0x80 + x₁ := (hwchb 1 (by omega)).trans h₁
  have hfield : (0xe0 + x₀) &&& 0x0f = x₀ := and_of_dvd (k := 4) 14 hx₀
  have hval : (x₀ <<< 12) ||| (x₁ <<< 6) ||| x₂ = wc := by
    rw [Nat.or_assoc, shiftLeft_or (k := 6) x₁ hx₂, shiftLeft_or x₀ (by omega), hwc]
  refine ⟨{ v'.state with count := 0 }, ?_, rfl⟩
  simp only [h₂, checkRange_of_lt v' hx₂, ok_bind, hlead, hsecond, hfield, and_tail hx₁,
    and_tail hx₂, hval, if_neg (show ¬ (0xd800 ≤ wc ∧ wc ≤ 0xdfff) by omega), done, hi]

theorem fourBytes_meets (hlen : e.length = 4) (h₀ : byte e 0 = 0xf0 + x₀)
    (hx₀ : x₀ < 8) (h₁ : byte e 1 = 0x80 + x₁) (hx₁ : x₁ < 64) (hlow : x₀ = 0 → 16 ≤ x₁)
    (h₂ : byte e 2 = 0x80 + x₂) (hx₂ : x₂ < 64) (h₃ : byte e 3 = 0x80 + x₃) (hx₃ : x₃ < 64) :
    Meets e c s.length (2 ^ 18 * x₀ + (2 ^ 12 * x₁ + (2 ^ 6 * x₂ + x₃)))
      (v.fourBytes (byte e 0)) := by
  have hpos := length_pos_iff.2 hne
  have hrange₁ : 0x80 ≤ byte e 1 ∧ byte e 1 ≤ 0xbf := by omega
  refine hv.middleByte_bind hs (by omega) (by omega) (fun _ _ => by omega) hrange₁ ?_
  intro v₁ hle₁ hv₁
  have hrange₂ : 0x80 ≤ byte e 2 ∧ byte e 2 ≤ 0xbf := by omega
  refine hv₁.middleByte_bind hs hle₁ (by omega) (fun h => absurd h (by omega)) hrange₂ ?_
  intro v₂ hle₂ hv₂
  refine hv₂.lastByte_bind hs hne hle₂ hlen.symm hc fun v' hi hwchb => ?_
  have hlead : v'.state.wchb 0 = 0xf0 + x₀ := (hwchb 0 (by omega)).trans h₀
  have hsecond : v'.state.wchb 1 = 0x80 + x₁ := (hwchb 1 (by omega)).trans h₁
  have hthird : v'.state.wchb 2 = 0x80 + x₂ := (hwchb 2 (by omega)).trans h₂
  have hfield : (0xf0 + x₀) &&& 0x07 = x₀ := and_of_dvd (k := 3) 30 hx₀
  have hval : (x₀ <<< 18) ||| (x₁ <<< 12) ||| (x₂ <<< 6) ||| x₃ =
      2 ^ 18 * x₀ + (2 ^ 12 * x₁ + (2 ^ 6 * x₂ + x₃)) := by
    rw [Nat.or_assoc, Nat.or_assoc, shiftLeft_or (k := 6) x₂ hx₃, shiftLeft_or x₁ (by omega),
      shiftLeft_or x₀ (by omega)]
  refine ⟨{ v'.state with count := 0 }, ?_, rfl⟩
  simp only [h₃, checkRange_of_lt v' hx₃, ok_bind, hlead, hsecond, hthird, hfield, and_tail hx₁,
    and_tail hx₂, and_tail hx₃, hval, done, hi]

end

end Branches

/-- A call begins with the first byte of the character, in front of the branch. -/
theorem firstByte_eq {e s : List UInt8} {c : ℕ} {state : MbState} (hkept : Kept e c state)
    (hs : Continues e c s) (hne : s ≠ []) (he : 0 < e.length) :
    ∃ v, firstByte { t := s, n := s.length, i := 0, state } = .ok (byte e 0, v) ∧
      At e c s 0 (v.store 0 (byte e 0)) := by
  have hpos := length_pos_iff.2 hne
  have hstored : ∀ j < max 1 c, update state.wchb 0 (byte e 0) j = byte e j := by
    intro j hj
    by_cases hzero : j = 0
    · rw [hzero, update_self]
    · rw [update_of_ne hzero, hkept.wchb j (by omega)]
  unfold firstByte
  by_cases hc : c = 0
  · subst hc
    rw [if_pos hkept.count, next_eq (v := ⟨s, s.length, 0, state⟩) rfl hs hpos he]
    exact ⟨⟨s, s.length, 1, state⟩, rfl, rfl, rfl, rfl, hkept.count, hstored⟩
  · rw [if_neg (by rw [hkept.count]; exact hc), hkept.wchb 0 (by omega)]
    refine ⟨⟨s, s.length + 1, 0, state⟩, rfl, rfl, ?_, ?_, ?_, hstored⟩
    · show s.length + 1 = _
      rw [if_neg hc]
      omega
    · show 0 = 0 + 1 - c
      omega
    · show state.count = max 0 c
      rw [hkept.count]
      omega

end Locals

/-! ### The characters -/

/-- A code point that is neither zero nor a surrogate. -/
structure CodePoint where
  val : ℕ
  pos : 1 ≤ val
  le : val ≤ 0x10ffff
  not_surrogate : val < 0xd800 ∨ 0xdfff < val

theorem field_toNat {k : ℕ} (tag w i : ℕ) (htag : 2 ^ k * tag + 2 ^ k ≤ 256) :
    (field (2 ^ k * tag) w k i).toNat = 2 ^ k * tag + w / 2 ^ i % 2 ^ k := by
  have hlt : w / 2 ^ i % 2 ^ k < 2 ^ k := Nat.mod_lt _ (Nat.two_pow_pos k)
  rw [field, BitFields.and_shiftRight, BitFields.or_of_lt tag hlt]
  exact Nat.mod_eq_of_lt (by omega)

namespace CodePoint

/-- The bytes that `wcrtomb` stores. -/
def encode (p : CodePoint) : List UInt8 := (wcrtomb p.val).getD []

variable {p : CodePoint}

theorem encode_one (h : p.val < 0x80) : p.encode.length = 1 ∧ byte p.encode 0 = p.val := by
  have hencode : p.encode = [.ofNat p.val] := by
    simp only [encode, wcrtomb, if_pos (show (p.val : ℤ) ≤ 0x7f by omega), Option.getD_some]
    congr 2
    omega
  rw [hencode]
  refine ⟨rfl, ?_⟩
  show (UInt8.ofNat p.val).toNat = p.val
  rw [UInt8.toNat_ofNat']
  omega

theorem encode_two (h : 0x80 ≤ p.val) (h' : p.val < 0x800) :
    p.encode.length = 2 ∧ byte p.encode 0 = 0xc0 + p.val / 2 ^ 6 % 2 ^ 5 ∧
      byte p.encode 1 = 0x80 + p.val / 2 ^ 0 % 2 ^ 6 := by
  have hencode : p.encode = [field 0xc0 p.val 5 6, field 0x80 p.val 6 0] := by
    simp only [encode, wcrtomb, if_neg (show ¬ (p.val : ℤ) ≤ 0x7f by omega),
      if_pos (show (p.val : ℤ) ≤ 0x7ff by omega), Option.getD_some, Int.toNat_natCast]
  rw [hencode]
  exact ⟨rfl, field_toNat (k := 5) 6 _ _ (by norm_num), field_toNat (k := 6) 2 _ _ (by norm_num)⟩

theorem encode_three (h : 0x800 ≤ p.val) (h' : p.val < 0x10000) :
    p.encode.length = 3 ∧ byte p.encode 0 = 0xe0 + p.val / 2 ^ 12 % 2 ^ 4 ∧
      byte p.encode 1 = 0x80 + p.val / 2 ^ 6 % 2 ^ 6 ∧
      byte p.encode 2 = 0x80 + p.val / 2 ^ 0 % 2 ^ 6 := by
  have hsurrogate := p.not_surrogate
  have hencode : p.encode =
      [field 0xe0 p.val 4 12, field 0x80 p.val 6 6, field 0x80 p.val 6 0] := by
    simp only [encode, wcrtomb, if_neg (show ¬ (p.val : ℤ) ≤ 0x7f by omega),
      if_neg (show ¬ (p.val : ℤ) ≤ 0x7ff by omega), if_pos (show (p.val : ℤ) ≤ 0xffff by omega),
      if_neg (show ¬ (0xd800 ≤ (p.val : ℤ) ∧ (p.val : ℤ) ≤ 0xdfff) by omega), Option.getD_some,
      Int.toNat_natCast]
  rw [hencode]
  exact ⟨rfl, field_toNat (k := 4) 14 _ _ (by norm_num), field_toNat (k := 6) 2 _ _ (by norm_num),
    field_toNat (k := 6) 2 _ _ (by norm_num)⟩

theorem encode_four (h : 0x10000 ≤ p.val) :
    p.encode.length = 4 ∧ byte p.encode 0 = 0xf0 + p.val / 2 ^ 18 % 2 ^ 3 ∧
      byte p.encode 1 = 0x80 + p.val / 2 ^ 12 % 2 ^ 6 ∧
      byte p.encode 2 = 0x80 + p.val / 2 ^ 6 % 2 ^ 6 ∧
      byte p.encode 3 = 0x80 + p.val / 2 ^ 0 % 2 ^ 6 := by
  have hle := p.le
  have hencode : p.encode = [field 0xf0 p.val 3 18, field 0x80 p.val 6 12, field 0x80 p.val 6 6,
      field 0x80 p.val 6 0] := by
    simp only [encode, wcrtomb, if_neg (show ¬ (p.val : ℤ) ≤ 0x7f by omega),
      if_neg (show ¬ (p.val : ℤ) ≤ 0x7ff by omega), if_neg (show ¬ (p.val : ℤ) ≤ 0xffff by omega),
      if_pos (show (p.val : ℤ) ≤ 0x1fffff by omega), Option.getD_some, Int.toNat_natCast]
  rw [hencode]
  exact ⟨rfl, field_toNat (k := 3) 30 _ _ (by norm_num), field_toNat (k := 6) 2 _ _ (by norm_num),
    field_toNat (k := 6) 2 _ _ (by norm_num), field_toNat (k := 6) 2 _ _ (by norm_num)⟩

end CodePoint

/-! ### A call -/

section Call

variable {p : CodePoint} {s : List UInt8} {c : ℕ} {state : MbState}

theorem Locals.sequence_meets {v : Locals} (hv : At p.encode c s 0 (v.store 0 (byte p.encode 0)))
    (hs : Continues p.encode c s) (hne : s ≠ []) (hc : c < p.encode.length) :
    Meets p.encode c s.length p.val (v.sequence (byte p.encode 0)) := by
  have hpos := length_pos_iff.2 hne
  have hval := p.pos
  have hle := p.le
  obtain h | h | h | h : p.val < 0x80 ∨ (0x80 ≤ p.val ∧ p.val < 0x800) ∨
    (0x800 ≤ p.val ∧ p.val < 0x10000) ∨ 0x10000 ≤ p.val := by omega
  · obtain ⟨hlen, h₀⟩ := CodePoint.encode_one h
    rw [sequence, if_neg (by omega), if_pos (by omega), h₀]
    refine ⟨fun _ => ⟨{ v.state with count := 0 }, ?_, rfl⟩, fun hshort => absurd hshort (by omega)⟩
    rw [show p.encode.length - c = 1 by omega]
  · obtain ⟨hlen, h₀, h₁⟩ := CodePoint.encode_two h.1 h.2
    have hmeets := twoBytes_meets hv hs hne hc hlen h₀ (by omega) (by omega) h₁ (by omega)
    rw [show 2 ^ 6 * (p.val / 2 ^ 6 % 2 ^ 5) + p.val / 2 ^ 0 % 2 ^ 6 = p.val by omega] at hmeets
    rwa [sequence, if_neg (by omega), if_neg (by omega), if_pos (by omega)]
  · obtain ⟨hlen, h₀, h₁, h₂⟩ := CodePoint.encode_three h.1 h.2
    have hmeets := threeBytes_meets hv hs hne hc hlen h₀ (by omega) h₁ (by omega) (by omega) h₂
      (by omega) (show _ = p.val by omega) p.not_surrogate
    rwa [sequence, if_neg (by omega), if_neg (by omega), if_neg (by omega), if_pos (by omega)]
  · obtain ⟨hlen, h₀, h₁, h₂, h₃⟩ := CodePoint.encode_four h
    have hmeets := fourBytes_meets hv hs hne hc hlen h₀ (by omega) h₁ (by omega) (by omega) h₂
      (by omega) h₃ (by omega)
    rw [show 2 ^ 18 * (p.val / 2 ^ 18 % 2 ^ 3) + (2 ^ 12 * (p.val / 2 ^ 12 % 2 ^ 6) +
      (2 ^ 6 * (p.val / 2 ^ 6 % 2 ^ 6) + p.val / 2 ^ 0 % 2 ^ 6)) = p.val by omega] at hmeets
    rwa [sequence, if_neg (by omega), if_neg (by omega), if_neg (by omega), if_neg (by omega),
      if_pos (by omega)]

section

variable (hkept : Kept p.encode c state) (hs : Continues p.encode c s) (hne : s ≠ [])
  (hc : c < p.encode.length)

include hkept hs hne hc

theorem Locals.decode_meets :
    Meets p.encode c s.length p.val (decode { t := s, n := s.length, i := 0, state }) := by
  obtain ⟨v, hfirst, hv⟩ := firstByte_eq hkept hs hne (Nat.zero_lt_of_lt hc)
  rw [decode, hfirst]
  exact sequence_meets hv hs hne hc

/-- **A call that is given the rest of a character decodes it.** -/
theorem mbtowcR_complete (hrest : p.encode.length ≤ c + s.length) :
    ∃ state', mbtowcR s state = .ok (.char p.val (p.encode.length - c), state') ∧
      state'.count = 0 := by
  obtain ⟨state', hdecode, hcount⟩ := (Locals.decode_meets hkept hs hne hc).1 hrest
  refine ⟨state', ?_, hcount⟩
  rw [mbtowcR, if_neg (by simpa using hne), hdecode]

end

/-- **A call that is given less keeps it, if it begins the character.** -/
theorem mbtowcR_cut (hkept : Kept p.encode 0 state) (hs : Continues p.encode 0 s) (hne : s ≠ [])
    (hless : s.length < p.encode.length) :
    ∃ state', mbtowcR s state = .ok (.incomplete, state') ∧ Kept p.encode s.length state' := by
  have hshort := (Locals.decode_meets hkept hs hne (by omega)).2 (by omega)
  rw [Short, if_pos rfl] at hshort
  obtain ⟨state', hdecode, hkept'⟩ := hshort
  refine ⟨state', ?_, hkept'⟩
  rw [mbtowcR, if_neg (by simpa using hne), hdecode]

/-- **A call that is given a part of the inside of a character reads too far.** -/
theorem mbtowcR_inside (hkept : Kept p.encode c state) (hs : Continues p.encode c s) (hne : s ≠ [])
    (hpos : 0 < c) (hless : c + s.length < p.encode.length) :
    mbtowcR s state = .error .overread := by
  have hshort := (Locals.decode_meets hkept hs hne (by omega)).2 hless
  rw [Short, if_neg (by omega)] at hshort
  rw [mbtowcR, if_neg (by simpa using hne), hshort]

end Call

end Clib4.Wchar
