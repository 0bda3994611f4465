import Clib4.Args.ArgInit

/-!
# The marks of quoted parameters

`arg_init` marks the parameters that were quoted in a vector of bits, and `__wildcard_expand_init`
reads the bit of every argument.  The vector grows by eight bytes whenever a mark does not fit,
however far behind its end that mark is.

## Main definitions

* `wildcardQuoteParameter`, `isQuoted` — the mark, and the test.
* `MarksQuoted` — every access is inside, and the bits are the marks.
* `Supplied` — some marks are enough for a number of blocks of 64 bits.

## Main results

* `marks_quoted_iff` — **when the marks are right.**
-/

namespace Clib4

open List

/-- The bit of a parameter in its byte. -/
def quoteBit (parameter : ℕ) : UInt8 := .ofNat (1 <<< (7 - parameter % 8))

/-- `__wildcard_quote_parameter`, where the memory is there.  The empty vector is the null pointer,
and there is no value for a mark behind the end. -/
def wildcardQuoteParameter (quoteVector : List UInt8) (parameter : ℕ) : Option (List UInt8) :=
  let numBytes := (parameter + 7) % 2 ^ 32 / 8
  let vector := if quoteVector.length ≤ numBytes then quoteVector ++ replicate 8 0 else quoteVector
  vector[parameter / 8]?.map fun byte => vector.set (parameter / 8) (byte ||| quoteBit parameter)

/-- The test of `__wildcard_expand_init` for an argument that is not the first. -/
def isQuoted (quoteVector : List UInt8) (i : ℕ) : Option Bool :=
  if quoteVector = [] then some false
  else quoteVector[i / 8]?.map fun byte => byte &&& quoteBit i ≠ 0

/-- The parameters of `Q` are marked in increasing order, and then every argument is tested. -/
def MarksQuoted (argc : ℕ) (Q : Finset ℕ) : Prop :=
  ∃ vector, Q.sort.foldlM wildcardQuoteParameter [] = some vector ∧
    ∀ i, 0 < i → i < argc → isQuoted vector i = some (decide (i ∈ Q))

/-- So many blocks of 64 bits come with the marks of `Q`: every mark brings one at most, and none
more than one behind its own. -/
def Supplied (Q : Finset ℕ) (blocks : ℕ) : Prop :=
  blocks ≤ Q.card ∧ ∀ p ∈ Q, blocks ≤ (p + 7) / 64 + 1 + (Q.filter (p < ·)).card

instance (Q : Finset ℕ) (blocks : ℕ) : Decidable (Supplied Q blocks) :=
  inferInstanceAs (Decidable (_ ∧ _))

/-- The marks in front of every one come with the blocks in front of its own, and if there are
marks, all of them come with the blocks of the arguments. -/
def Spread (argc : ℕ) (Q : Finset ℕ) : Prop :=
  (∀ q ∈ Q, Supplied (Q.filter (· < q)) (q / 64)) ∧ (Q.Nonempty → Supplied Q ((argc + 63) / 64))

/-! ### One mark -/

/-- Whether a parameter is marked; behind the end it is not. -/
def isMarked (quoteVector : List UInt8) (i : ℕ) : Bool :=
  quoteVector.getD (i / 8) 0 &&& quoteBit i ≠ 0

theorem and_quoteBit (q i : ℕ) : quoteBit q &&& quoteBit i ≠ 0 ↔ q % 8 = i % 8 := by
  have hall : ∀ a < 8, ∀ b < 8,
      UInt8.ofNat (1 <<< (7 - a)) &&& .ofNat (1 <<< (7 - b)) ≠ 0 ↔ a = b := by decide
  exact hall _ (Nat.mod_lt _ (by decide)) _ (Nat.mod_lt _ (by decide))

theorem or_quoteBit (byte : UInt8) (q i : ℕ) :
    (byte ||| quoteBit q) &&& quoteBit i ≠ 0 ↔ byte &&& quoteBit i ≠ 0 ∨ q % 8 = i % 8 := by
  rw [← and_quoteBit]
  simp only [ne_eq, ← UInt8.toNat_inj, UInt8.toNat_and, UInt8.toNat_or, UInt8.toNat_zero,
    Nat.and_or_distrib_right, Nat.or_eq_zero_iff]
  tauto

/-- The blocks of 64 bits after a mark. -/
def grown (k q : ℕ) : ℕ := if k ≤ (q + 7) / 64 then k + 1 else k

/-- A mark that fits is there afterwards, with those that were there; another has no value. -/
theorem wildcardQuoteParameter_spec {v : List UInt8} {k q : ℕ} (hk : v.length = 8 * k)
    (hq : q < 2 ^ 31) :
    if q / 64 ≤ k then
      ∃ v', wildcardQuoteParameter v q = some v' ∧ v'.length = 8 * grown k q ∧
        ∀ i, isMarked v' i = (isMarked v i || decide (i = q))
    else wildcardQuoteParameter v q = none := by
  unfold wildcardQuoteParameter
  extract_lets numBytes vector
  have hbytes : numBytes = (q + 7) / 8 := by
    unfold numBytes
    rw [Nat.mod_eq_of_lt (by omega)]
  have hlen : vector.length = 8 * grown k q := by
    unfold vector grown
    rw [hbytes, hk]
    split_ifs <;> simp [hk] <;> omega
  have hin : q / 8 < vector.length ↔ q / 64 ≤ k := by
    rw [hlen, grown]
    split_ifs <;> omega
  have hsame : ∀ n, vector.getD n 0 = v.getD n 0 := by
    intro n
    unfold vector
    split_ifs
    · grind
    · rfl
  split_ifs with hle
  · have hin := hin.2 hle
    rw [getElem?_eq_getElem hin]
    refine ⟨_, rfl, by rw [length_set, hlen], ?_⟩
    intro i
    rw [Bool.eq_iff_iff]
    simp only [isMarked, ← hsame, Bool.or_eq_true, decide_eq_true_eq]
    by_cases hi : q / 8 = i / 8
    · rw [← hi, getD_eq_getElem?_getD, getElem?_set_self hin, Option.getD_some, or_quoteBit,
        getD_eq_getElem?_getD, getElem?_eq_getElem hin]
      exact or_congr_right (by omega)
    · rw [getD_eq_getElem?_getD, getElem?_set_ne hi]
      exact (or_iff_left (by omega)).symm
  · rw [getElem?_eq_none (not_lt.1 (hin.not.2 hle))]
    rfl

/-! ### All marks -/

variable {argc q k : ℕ} {Q : Finset ℕ}

theorem sort_insert_max (h : ∀ p ∈ Q, p < q) : (insert q Q).sort = Q.sort ++ [q] := by
  have hq : q ∉ Q := fun hmem => lt_irrefl q (h q hmem)
  have hset : (Q.sort ++ [q]).toFinset = insert q Q := by simp
  rw [← hset, toFinset_sort]
  · simpa [pairwise_append] using fun p hp => (h p hp).le
  · simpa [nodup_append] using fun p hp => (h p hp).ne

theorem supplied_insert_iff (h : ∀ p ∈ Q, p < q) :
    Supplied (insert q Q) k ↔ Supplied Q (k - 1) ∧ k ≤ (q + 7) / 64 + 1 := by
  have hq : q ∉ Q := fun hmem => lt_irrefl q (h q hmem)
  have hlast : (insert q Q).filter (q < ·) = ∅ := by
    simpa [Finset.filter_eq_empty_iff] using fun p hp => (h p hp).le
  have hcard : ∀ p ∈ Q, ((insert q Q).filter (p < ·)).card = (Q.filter (p < ·)).card + 1 := by
    intro p hp
    rw [Finset.filter_insert, if_pos (h p hp), Finset.card_insert_of_notMem (by simp [hq])]
  unfold Supplied
  rw [Finset.card_insert_of_notMem hq, Finset.forall_mem_insert, hlast, Finset.card_empty]
  constructor
  · rintro ⟨hall, hown, hearlier⟩
    refine ⟨⟨by omega, fun p hp => ?_⟩, hown⟩
    have := hearlier p hp
    rw [hcard p hp] at this
    omega
  · rintro ⟨⟨hall, hearlier⟩, hown⟩
    refine ⟨by omega, hown, fun p hp => ?_⟩
    have := hearlier p hp
    rw [hcard p hp]
    omega

/-- The marks in front of `q` bring no block further than one behind its own. -/
theorem le_of_supplied (h : ∀ p ∈ Q, p < q) (hk : Supplied Q k) : k ≤ (q + 7) / 64 + 1 := by
  rcases Q.eq_empty_or_nonempty with rfl | hne
  · exact hk.1.trans (by simp)
  · have hmax := Q.max'_mem hne
    have hown := hk.2 _ hmax
    have hlast : Q.filter (Q.max' hne < ·) = ∅ :=
      Finset.filter_eq_empty_iff.2 fun p hp => (Q.le_max' p hp).not_gt
    have := h _ hmax
    rw [hlast, Finset.card_empty] at hown
    omega

/-- In front of a new mark stand all others; in front of the others nothing changes. -/
theorem forall_supplied_insert_iff (h : ∀ p ∈ Q, p < q) :
    (∀ p ∈ insert q Q, Supplied ((insert q Q).filter (· < p)) (p / 64)) ↔
      Supplied Q (q / 64) ∧ ∀ p ∈ Q, Supplied (Q.filter (· < p)) (p / 64) := by
  have hfront : (insert q Q).filter (· < q) = Q := by
    rw [Finset.filter_insert, if_neg (lt_irrefl q), Finset.filter_true_of_mem h]
  rw [Finset.forall_mem_insert, hfront]
  refine and_congr_right fun _ => forall₂_congr fun p hp => ?_
  rw [Finset.filter_insert, if_neg (h p hp).not_gt]

/-- What comes of marking the parameters: the vector has the blocks that come with the marks. -/
theorem foldlM_marks (hQ : ∀ q ∈ Q, q < 2 ^ 31) :
    if ∀ q ∈ Q, Supplied (Q.filter (· < q)) (q / 64) then
      ∃ v k, Q.sort.foldlM wildcardQuoteParameter [] = some v ∧ v.length = 8 * k ∧
        (∀ m, m ≤ k ↔ Supplied Q m) ∧ ∀ i, isMarked v i = decide (i ∈ Q)
    else Q.sort.foldlM wildcardQuoteParameter [] = none := by
  induction Q using Finset.induction_on_max with
  | empty =>
    rw [if_pos (by simp)]
    exact ⟨[], 0, by simp, rfl, by simp [Supplied], by simp [isMarked]⟩
  | insert q Q hlast ih =>
    have ih := ih fun p hp => hQ p (Finset.mem_insert_of_mem hp)
    have hq := hQ q (Finset.mem_insert_self q Q)
    simp only [forall_supplied_insert_iff hlast, sort_insert_max hlast, foldlM_append]
    by_cases hfront : ∀ p ∈ Q, Supplied (Q.filter (· < p)) (p / 64)
    · rw [if_pos hfront] at ih
      obtain ⟨v, k, hv, hlen, hblocks, hmarks⟩ := ih
      have hspec := wildcardQuoteParameter_spec hlen hq
      simp only [hv, Option.bind_eq_bind, Option.bind_some, foldlM_cons, foldlM_nil, ← hblocks]
      by_cases hle : q / 64 ≤ k
      · rw [if_pos hle] at hspec
        obtain ⟨v', hv', hlen', hmarks'⟩ := hspec
        rw [if_pos ⟨hle, hfront⟩]
        refine ⟨v', grown k q, by rw [hv']; rfl, hlen', fun m => ?_, fun i => ?_⟩
        · rw [supplied_insert_iff hlast, ← hblocks, grown]
          have hk := le_of_supplied hlast ((hblocks k).1 le_rfl)
          split_ifs <;> omega
        · rw [hmarks', hmarks, Bool.eq_iff_iff]
          simp [or_comm]
      · rw [if_neg hle] at hspec
        rw [if_neg fun h => hle h.1, hspec]
        rfl
    · rw [if_neg hfront] at ih
      rw [if_neg fun h => hfront h.2, ih]
      rfl

/-- **When the marks are right**: if every mark, and every argument, is in a block of the vector
that the marks in front of it have brought. -/
theorem marks_quoted_iff (argc : ℕ) (Q : Finset ℕ) (hargc : argc < 2 ^ 31)
    (hQ : ∀ q ∈ Q, q < argc) : MarksQuoted argc Q ↔ Spread argc Q := by
  have hmarks := foldlM_marks fun q hq => (hQ q hq).trans hargc
  unfold MarksQuoted Spread
  split_ifs at hmarks with hfront
  · obtain ⟨v, k, hv, hlen, hblocks, hmarked⟩ := hmarks
    simp only [hv, Option.some.injEq, exists_eq_left', and_iff_right hfront, ← hblocks]
    constructor
    · intro hall hne
      by_contra! hout
      have hk : 1 ≤ k := (hblocks 1).2 ⟨hne.card_pos, fun p _ => by omega⟩
      -- the first bit behind the vector is read
      have hread := hall (64 * k) (by omega) (by omega)
      rw [isQuoted, if_neg (by rintro rfl; simp at hlen; omega),
        getElem?_eq_none (by omega)] at hread
      cases hread
    · intro hroom i _ hi
      rw [← hmarked, isMarked, isQuoted]
      split_ifs with hnil
      · simp [hnil]
      · have hk : 0 < Q.card := by
          have := length_pos_iff.2 hnil
          have := ((hblocks k).1 le_rfl).1
          omega
        have := hroom (Finset.card_pos.1 hk)
        simp [show i / 8 < v.length by omega]
  · simp [hmarks, hfront]

/-- Two parameters of sixty-five are marked, the second in the last block. -/
theorem marks_quoted_near : MarksQuoted 65 {60, 64} :=
  (marks_quoted_iff 65 {60, 64} (by decide) (by decide)).2 (by unfold Spread; decide)

/-- The first mark is the parameter 64: eight bytes are there, and the ninth one is written. -/
theorem marks_quoted_far : wildcardQuoteParameter [] 64 = none ∧ ¬ MarksQuoted 65 {64} := by
  have hnone : wildcardQuoteParameter [] 64 = none := by decide
  refine ⟨hnone, ?_⟩
  rintro ⟨v, hv, -⟩
  rw [Finset.sort_singleton, foldlM_cons, hnone] at hv
  cases hv

end Clib4
