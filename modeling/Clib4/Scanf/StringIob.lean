import Clib4.Base.PushBack

/-!
# The stream of vsscanf

`vsscanf` reads its string through a stream with a buffer of 32 bytes on the stack.  The buffer
is filled from the string whenever it is used up, and a character is pushed back by stepping back
in it: there is no way back behind the last refill.

## Main definitions

* `StringIob` — the stream, with what its fields satisfy.

## Main results

* `rest_ungetAll` — **what was read comes back whole if it lies in the buffer.**
-/

namespace Clib4

open List

/-- The size of `local_buffer`. -/
def localBufferSize : ℕ := 32

/-- The stream: `buffer` holds the `iob_BufferReadBytes` bytes of the last refill, which began at
a multiple of the buffer's size. -/
structure StringIob where
  string : List UInt8
  stringPosition : ℕ
  buffer : List UInt8
  position : ℕ
  position_le : position ≤ buffer.length
  length_le : buffer.length ≤ localBufferSize
  buffer_le : buffer.length ≤ stringPosition
  stringPosition_le : stringPosition ≤ string.length
  whole : stringPosition < string.length → localBufferSize ∣ stringPosition
  aligned : buffer ≠ [] → localBufferSize ∣ stringPosition - buffer.length

namespace StringIob

/-- The stream that `vsscanf` sets up. -/
def start (string : List UInt8) : StringIob where
  string
  stringPosition := 0
  buffer := []
  position := 0
  position_le := le_rfl
  length_le := Nat.zero_le _
  buffer_le := le_rfl
  stringPosition_le := Nat.zero_le _
  whole _ := Nat.dvd_zero _
  aligned h := absurd rfl h

/-- What is left to read. -/
def rest (s : StringIob) : List UInt8 :=
  s.buffer.drop s.position ++ s.string.drop s.stringPosition

/-- The bytes that `__sscanf_hook_entry` copies. -/
def chunk (s : StringIob) : List UInt8 := (s.string.drop s.stringPosition).take localBufferSize

theorem length_chunk (s : StringIob) :
    s.chunk.length = min localBufferSize (s.string.length - s.stringPosition) := by
  rw [chunk, length_take, length_drop]

/-- `__fill_iob_read_buffer`. -/
def fill (s : StringIob) : StringIob where
  string := s.string
  stringPosition := s.stringPosition + s.chunk.length
  buffer := s.chunk
  position := 0
  position_le := Nat.zero_le _
  length_le := length_take_le _ _
  buffer_le := Nat.le_add_left _ _
  stringPosition_le := by
    have hle := s.stringPosition_le
    rw [length_chunk]
    omega
  whole h := by
    -- only a full buffer leaves something of the string
    have hle := s.stringPosition_le
    rw [length_chunk] at h ⊢
    have hfull : min localBufferSize (s.string.length - s.stringPosition) = localBufferSize := by
      omega
    rw [hfull]
    exact (s.whole (by omega)).add (dvd_refl _)
  aligned h := by
    have hlt : s.stringPosition < s.string.length := by
      by_contra hge
      apply h
      rw [chunk, drop_eq_nil_of_le (Nat.le_of_not_lt hge), take_nil]
    rw [Nat.add_sub_cancel]
    exact s.whole hlt

/-- Take the next character of the buffer. -/
def advance (s : StringIob) (h : s.position < s.buffer.length) : StringIob :=
  { s with position := s.position + 1, position_le := h }

def getc (s : StringIob) : Option UInt8 × StringIob :=
  if h : s.position < s.buffer.length then (some s.buffer[s.position], s.advance h)
  else if h' : s.fill.position < s.fill.buffer.length then
    (some s.fill.buffer[s.fill.position], s.fill.advance h')
  else (none, s.fill)

/-- `__ungetc_r`: one of the characters in the buffer is replaced. -/
def ungetc (c : UInt8) (s : StringIob) : Bool × StringIob :=
  if s.position = 0 then (false, s)
  else
    (true,
      { s with
        buffer := s.buffer.set (s.position - 1) c
        position := s.position - 1
        position_le := by
          have hle := s.position_le
          rw [length_set]
          omega
        length_le := by
          rw [length_set]
          exact s.length_le
        buffer_le := by
          rw [length_set]
          exact s.buffer_le
        aligned := by
          intro h
          rw [length_set]
          apply s.aligned
          intro hnil
          rw [hnil, set_nil] at h
          exact h rfl })

/-! ### What is left to read -/

variable {s : StringIob}

theorem rest_of_lt (h : s.position < s.buffer.length) :
    s.rest = s.buffer[s.position] :: (s.advance h).rest := by
  rw [rest, drop_eq_getElem_cons h]
  rfl

theorem rest_of_not_lt (h : ¬ s.position < s.buffer.length) : s.rest = s.fill.rest := by
  have hdrop : s.fill.buffer.drop s.fill.position = s.chunk := drop_zero
  have hstring : s.fill.string.drop s.fill.stringPosition
      = (s.string.drop s.stringPosition).drop s.chunk.length := by
    rw [drop_drop]
    rfl
  have hchunk : s.chunk ++ (s.string.drop s.stringPosition).drop s.chunk.length
      = s.string.drop s.stringPosition :=
    prefix_iff_eq_append.1 (List.take_prefix _ _)
  rw [rest, drop_eq_nil_of_le (Nat.le_of_not_lt h), nil_append]
  rw [rest, hdrop, hstring, hchunk]

theorem rest_fill_of_not_lt (h : ¬ s.fill.position < s.fill.buffer.length) : s.fill.rest = [] := by
  have hlen : s.chunk.length = 0 := Nat.le_zero.1 (Nat.le_of_not_lt h)
  rw [length_chunk] at hlen
  have hend : s.string.length ≤ s.fill.stringPosition := by
    show s.string.length ≤ s.stringPosition + s.chunk.length
    have hsize : 0 < localBufferSize := by decide
    omega
  rw [rest, drop_eq_nil_of_le (Nat.le_of_not_lt h)]
  exact drop_eq_nil_of_le hend

theorem ungetc_of_pos (h : s.position ≠ 0) (c : UInt8) :
    (s.ungetc c).1 = true ∧ (s.ungetc c).2.rest = c :: s.rest ∧
      (s.ungetc c).2.position = s.position - 1 := by
  have hle := s.position_le
  have hlt : s.position - 1 < (s.buffer.set (s.position - 1) c).length := by
    rw [length_set]
    omega
  have hdrop : (s.buffer.set (s.position - 1) c).drop (s.position - 1)
      = c :: s.buffer.drop s.position := by
    rw [drop_eq_getElem_cons hlt, getElem_set_self, drop_set_of_lt (by omega)]
    congr 2
    omega
  rw [ungetc, if_neg h]
  refine ⟨rfl, ?_, rfl⟩
  rw [rest, rest]
  rw [hdrop, cons_append]

theorem ungetc_of_zero (h : s.position = 0) (c : UInt8) : s.ungetc c = (false, s) := if_pos h

theorem getc_spec (s : StringIob) :
    s.getc.1 = s.rest.head? ∧ s.getc.2.rest = s.rest.tail ∧
      (s.rest ≠ [] → s.getc.2.position ≠ 0) := by
  rw [getc]
  split
  case isTrue h =>
    rw [rest_of_lt h]
    exact ⟨rfl, rfl, fun _ => Nat.succ_ne_zero _⟩
  case isFalse h =>
    rw [rest_of_not_lt h]
    split
    case isTrue h' =>
      rw [rest_of_lt h']
      exact ⟨rfl, rfl, fun _ => Nat.succ_ne_zero _⟩
    case isFalse h' =>
      rw [rest_fill_of_not_lt h']
      exact ⟨rfl, rfl, fun hne => absurd rfl hne⟩

/-- The position is never behind the last refill, so a character that has just been read can
be pushed back. -/
theorem ungetc_getc (s : StringIob) (c : UInt8) (h : s.rest.head? = some c) :
    (s.getc.2.ungetc c).1 = true ∧ (s.getc.2.ungetc c).2.rest = s.rest := by
  obtain ⟨-, htail, hpos⟩ := s.getc_spec
  have hne : s.rest ≠ [] := by
    intro hnil
    rw [hnil] at h
    cases h
  obtain ⟨hok, hrest, -⟩ := ungetc_of_pos (hpos hne) c
  refine ⟨hok, ?_⟩
  rw [hrest, htail]
  exact cons_head?_tail h

end StringIob

open PushBack

/-- The operations of the stream. -/
def stringIob : Source UInt8 StringIob where
  getc := StringIob.getc
  ungetc := StringIob.ungetc
  rest := StringIob.rest
  getc_fst s := s.getc_spec.1
  rest_getc s := s.getc_spec.2.1
  ungetc_fst s c h := (s.ungetc_getc c h).1
  rest_ungetc s c h := (s.ungetc_getc c h).2

/-! ### Pushing several characters back -/

namespace StringIob

/-- No more characters come back than there are in front of the position. -/
theorem length_rest_ungetAll (cs : List UInt8) (s : StringIob) :
    (stringIob.ungetAll cs s).rest.length = s.rest.length + min cs.length s.position := by
  induction cs generalizing s with
  | nil => simp [Source.ungetAll]
  | cons c cs ih =>
    show (stringIob.ungetAll cs (s.ungetc c).2).rest.length = _
    rw [ih]
    by_cases hpos : s.position = 0
    · rw [ungetc_of_zero hpos, hpos]
      simp
    · obtain ⟨-, hrest, hposition⟩ := ungetc_of_pos hpos c
      rw [hrest, length_cons, length_cons]
      omega

variable {s : StringIob}

theorem rest_ungetAll {cs : List UInt8} (h : cs.length ≤ s.position) :
    (stringIob.ungetAll cs s).rest = cs.reverse ++ s.rest := by
  induction cs generalizing s with
  | nil => rfl
  | cons c cs ih =>
    rw [length_cons] at h
    have hpos : s.position ≠ 0 := by omega
    obtain ⟨-, hrest, hposition⟩ := ungetc_of_pos hpos c
    show (stringIob.ungetAll cs (s.ungetc c).2).rest = _
    rw [ih (by omega), hrest, reverse_cons, append_assoc]
    rfl

theorem string_getc (s : StringIob) : s.getc.2.string = s.string := by
  rw [getc]
  split
  · rfl
  · split <;> rfl

theorem string_ungetc (s : StringIob) (c : UInt8) : (s.ungetc c).2.string = s.string := by
  rw [ungetc]
  split <;> rfl

theorem string_run {β : Type} (p : Prog UInt8 β) (s : StringIob) :
    (p.run stringIob s).2.string = s.string :=
  Prog.run_invariant StringIob.string string_getc (fun c s => s.string_ungetc c) p s

/-- A character that was read and pushed back lies in the buffer. -/
theorem position_lt_of_ungetc_getc {c : UInt8} (h : s.rest.head? = some c) :
    (s.getc.2.ungetc c).2.position < (s.getc.2.ungetc c).2.buffer.length := by
  have hne : s.rest ≠ [] := by
    intro hnil
    rw [hnil] at h
    cases h
  have hpos := s.getc_spec.2.2 hne
  have hle := s.getc.2.position_le
  rw [ungetc, if_neg hpos]
  dsimp only
  rw [length_set]
  omega

/-- The number of characters of the string that have been read and not pushed back. -/
def index (s : StringIob) : ℕ := s.string.length - s.rest.length

/-- Inside the buffer, the position is the index modulo the size of the buffer. -/
theorem index_mod (h : s.position < s.buffer.length) : s.index % localBufferSize = s.position := by
  have hlen := s.length_le
  have hbuffer := s.buffer_le
  have hstring := s.stringPosition_le
  obtain ⟨k, hk⟩ := s.aligned (ne_nil_of_length_pos (by omega))
  have hindex : s.index = localBufferSize * k + s.position := by
    rw [index, rest, length_append, length_drop, length_drop]
    omega
  rw [hindex, Nat.mul_add_mod]
  exact Nat.mod_eq_of_lt (by omega)

end StringIob

end Clib4
