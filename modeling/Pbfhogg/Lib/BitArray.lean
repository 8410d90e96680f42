import Mathlib.Data.List.Sort
import Mathlib.Data.Nat.Bitwise
import Mathlib.Algebra.BigOperators.Group.List.Basic

/-!
# Bit arrays in 64-bit words

A bit array as a family of words, read bit by bit. Counting ones, listing the set bits of a word and
masking the words at the two ends of a range are said in terms of single bits. The facts about
numbers cut into blocks carry the statements from one word to many.
-/

namespace BitArray

open List

variable {p : Nat → Bool} {n k i x : Nat}

lemma range_mul_succ (n k : Nat) :
    range ((n + 1) * k) = range (n * k) ++ (range k).map (n * k + ·) := by
  rw [Nat.succ_mul, range_add]

lemma filter_range_mul (p : Nat → Bool) (n k : Nat) :
    (range (n * k)).filter p = (range n).flatMap fun b =>
      ((range k).filter fun i => p (b * k + i)).map (b * k + ·) := by
  induction n with
  | zero => simp
  | succ n ih =>
    rw [range_mul_succ, filter_append, ih, range_succ, flatMap_append,
      flatMap_singleton, filter_map]
    rfl

lemma countP_range_mul (p : Nat → Bool) (n k : Nat) : (range (n * k)).countP p =
      ((range n).map fun b => (range k).countP fun i => p (b * k + i)).sum := by
  rw [countP_eq_length_filter, filter_range_mul, length_flatMap]
  simp only [length_map, ← countP_eq_length_filter]

lemma countP_range_add (p : Nat → Bool) (n k : Nat) : (range (n + k)).countP p =
      (range n).countP p + (range k).countP fun i => p (n + i) := by
  rw [range_add, countP_append, countP_map]
  rfl

lemma countP_range_below (p : Nat → Bool) {m n : Nat} (h : m ≤ n) :
    ((range n).countP fun x => decide (x < m) && p x) = (range m).countP p := by
  obtain ⟨d, rfl⟩ := Nat.exists_eq_add_of_le h
  have hhigh : ((range d).countP fun i => decide (m + i < m) && p (m + i)) = 0 := by
    rw [countP_eq_zero]
    intro i _
    simp
  rw [countP_range_add, hhigh, Nat.add_zero]
  apply countP_congr
  intro x hx
  simp [mem_range.mp hx]

lemma pairwise_filter_range (p : Nat → Bool) (n : Nat) :
    ((range n).filter p).Pairwise (· < ·) :=
  List.Pairwise.filter p pairwise_lt_range

/-- A strictly ascending list is the numbers that are in it. -/
theorem eq_filter_range {l : List Nat} (hsorted : l.Pairwise (· < ·))
    (hmem : ∀ x, x ∈ l ↔ x < n ∧ p x = true) : l = (range n).filter p := by
  apply hsorted.eq_of_mem_iff (pairwise_filter_range p n)
  intro x
  rw [hmem, mem_filter, mem_range]

variable (w : BitVec 64)

/-- The test of one bit through its mask. -/
theorem and_one_shiftLeft (hi : i < 64) : (w &&& (1#64 <<< i) != 0) = w.getLsbD i := by
  rw [← BitVec.twoPow_eq, BitVec.and_twoPow]
  cases hbit : w.getLsbD i with
  | false => simp
  | true =>
    have hne : BitVec.twoPow 64 i ≠ 0 := by
      intro h
      have := congrArg (fun v => v.getLsbD i) h
      simp [hi] at this
    simpa using hne

lemma getLsbD_one_shiftLeft (hi : i < 64) (j : Nat) : (1#64 <<< i).getLsbD j = decide (i = j) := by
  rw [← BitVec.twoPow_eq, BitVec.getLsbD_twoPow]
  simp [hi]

lemma getLsbD_allOnes_shiftLeft (k : Nat) (hi : i < 64) :
    (BitVec.allOnes 64 <<< k).getLsbD i = decide (k ≤ i) := by
  rw [BitVec.getLsbD_shiftLeft, BitVec.getLsbD_allOnes]
  have : i - k < 64 := by omega
  simp only [hi, this, decide_true, Bool.true_and, Bool.and_true]
  by_cases hk : k ≤ i
  · simp [hk]
  · have hlt : i < k := by omega
    simp [hlt]

/-- The mask of the bits below `k`. -/
theorem getLsbD_low_mask (hk : k < 64) (i : Nat) :
    ((1#64 <<< k) - 1#64).getLsbD i = decide (i < k) := by
  have hpow : 2 ^ k < 2 ^ 64 := Nat.pow_lt_pow_right (by omega) hk
  have hpos : 0 < 2 ^ k := Nat.two_pow_pos k
  have hval : ((1#64 <<< k) - 1#64).toNat = 2 ^ k - 1 := by
    rw [← BitVec.twoPow_eq, BitVec.toNat_sub, BitVec.toNat_twoPow, Nat.mod_eq_of_lt hpow]
    simp only [BitVec.toNat_ofNat]
    omega
  rw [BitVec.getLsbD, hval, Nat.testBit_two_pow_sub_one]

/-- The ones of a word. -/
def countOnes : Nat := w.cpop.toNat

lemma cpopNatRec_eq_countP (n acc : Nat) :
    w.cpopNatRec n acc = acc + (range n).countP w.getLsbD := by
  induction n generalizing acc with
  | zero => rfl
  | succ n ih =>
    rw [BitVec.cpopNatRec_succ, ih, range_succ, countP_append, countP_singleton]
    cases w.getLsbD n
    · simp
    · simp
      omega

lemma countOnes_eq : countOnes w = (range 64).countP w.getLsbD := by
  rw [countOnes, BitVec.toNat_cpop, cpopNatRec_eq_countP, Nat.zero_add]

/-- Clearing the lowest set bit. -/
theorem getLsbD_clear_lowest (hne : w ≠ 0) (i : Nat) :
    (w &&& (w - 1)).getLsbD i = (w.getLsbD i && decide (i ≠ w.ctz.toNat)) := by
  have hlow := BitVec.getLsbD_true_ctz_of_ne_zero hne
  have hzero : ∀ j, j < w.ctz.toNat → w.toNat.testBit j = false :=
    fun j hj => BitVec.getLsbD_false_of_lt_ctz hj
  generalize w.ctz.toNat = t at hlow hzero
  -- The word is an odd number times a power of two.
  have hmod : w.toNat % 2 ^ t = 0 := by
    apply Nat.eq_of_testBit_eq
    intro j
    rw [Nat.testBit_mod_two_pow, Nat.zero_testBit]
    by_cases hj : j < t
    · simp [hzero j hj]
    · simp [hj]
  have hodd : w.toNat / 2 ^ t % 2 = 1 := by
    have : (w.toNat / 2 ^ t).testBit 0 = true := by
      rw [Nat.testBit_div_two_pow, Nat.zero_add]
      exact hlow
    simpa using this
  obtain ⟨m, hm⟩ : ∃ m, w.toNat / 2 ^ t = 2 * m + 1 := ⟨w.toNat / 2 ^ t / 2, by omega⟩
  have hw : w.toNat = 2 ^ t * (2 * m + 1) := by
    have := Nat.div_add_mod w.toNat (2 ^ t)
    rw [hm] at this
    omega
  have hpos : 0 < 2 ^ t := Nat.two_pow_pos t
  have hpred : (w - 1).toNat = 2 ^ t * (2 * m) + (2 ^ t - 1) := by
    have hge : 1 ≤ w.toNat := by
      rw [hw, Nat.mul_succ]
      omega
    have hsub : (w - 1).toNat = w.toNat - 1 := by
      have := w.isLt
      rw [BitVec.toNat_sub]
      simp only [BitVec.ofNat_eq_ofNat, BitVec.toNat_ofNat]
      omega
    rw [hsub, hw, Nat.mul_succ]
    omega
  rw [BitVec.getLsbD_and]
  simp only [BitVec.getLsbD]
  rw [hpred, hw, Nat.testBit_two_pow_mul_add _ (by omega), Nat.testBit_two_pow_mul]
  by_cases hit : i < t
  · have hge : ¬ i ≥ t := by omega
    simp [hit, hge]
  · have hge : i ≥ t := by omega
    by_cases heq : i = t
    · subst heq
      simp
    · obtain ⟨d, hd⟩ : ∃ d, i - t = d + 1 := ⟨i - t - 1, by omega⟩
      have hsame : (2 * m + 1).testBit (d + 1) = (2 * m).testBit (d + 1) := by
        rw [Nat.testBit_succ, Nat.testBit_succ]
        congr 1
        omega
      simp [hit, hge, heq, hd, hsame]

lemma clear_lowest_lt (hne : w ≠ 0) : (w &&& (w - 1)).toNat < w.toNat := by
  have hpos : 0 < w.toNat := by
    rcases Nat.eq_zero_or_pos w.toNat with h | h
    · exact absurd (BitVec.eq_of_toNat_eq h) hne
    · exact h
  have hle : (w &&& (w - 1)).toNat ≤ (w - 1).toNat := by
    rw [BitVec.toNat_and]
    exact Nat.and_le_right
  have hsub : (w - 1).toNat = w.toNat - 1 := by
    have := w.isLt
    rw [BitVec.toNat_sub]
    simp only [BitVec.ofNat_eq_ofNat, BitVec.toNat_ofNat]
    omega
  omega

/-- The set bits from the lowest up, each cleared once it is listed. -/
def wordOffsets (base : Nat) (cur : BitVec 64) : List Nat :=
  if h : cur = 0 then []
  else (base + cur.ctz.toNat) :: wordOffsets base (cur &&& (cur - 1))
termination_by cur.toNat
decreasing_by exact clear_lowest_lt cur h

lemma filter_cons_lowest (hne : w ≠ 0) : (range 64).filter w.getLsbD =
      w.ctz.toNat :: (range 64).filter (w &&& (w - 1)).getLsbD := by
  have hlow := BitVec.getLsbD_true_ctz_of_ne_zero hne
  have hlt : w.ctz.toNat < 64 := BitVec.lt_of_getLsbD hlow
  apply (pairwise_filter_range _ _).eq_of_mem_iff
  · rw [pairwise_cons]
    constructor
    · intro x hx
      obtain ⟨-, hbit⟩ := mem_filter.mp hx
      rw [getLsbD_clear_lowest w hne, Bool.and_eq_true, decide_eq_true_eq] at hbit
      by_contra hle
      have : x < w.ctz.toNat := by omega
      rw [BitVec.getLsbD_false_of_lt_ctz this] at hbit
      exact Bool.false_ne_true hbit.1
    · exact pairwise_filter_range _ _
  · intro x
    rw [mem_cons, mem_filter, mem_filter, mem_range,
      getLsbD_clear_lowest w hne, Bool.and_eq_true, decide_eq_true_eq]
    constructor
    · rintro ⟨hx, hbit⟩
      by_cases heq : x = w.ctz.toNat
      · exact .inl heq
      · exact .inr ⟨hx, hbit, heq⟩
    · rintro (rfl | ⟨hx, hbit, -⟩)
      · exact ⟨hlt, hlow⟩
      · exact ⟨hx, hbit⟩

lemma wordOffsets_eq (base : Nat) (w : BitVec 64) :
    wordOffsets base w = ((range 64).filter w.getLsbD).map (base + ·) := by
  induction w using wordOffsets.induct with
  | case1 => simp [wordOffsets]
  | case2 w hne ih =>
    rw [wordOffsets, dif_neg hne, ih, filter_cons_lowest w hne, map_cons]

def bit (words : Nat → BitVec 64) (x : Nat) : Bool := (words (x / 64)).getLsbD (x % 64)

variable {words : Nat → BitVec 64}

lemma bit_block (words : Nat → BitVec 64) (b : Nat) (hi : i < 64) :
    bit words (b * 64 + i) = (words b).getLsbD i := by
  have hdiv : (b * 64 + i) / 64 = b := by omega
  have hmod : (b * 64 + i) % 64 = i := by omega
  rw [bit, hdiv, hmod]

lemma countP_word (words : Nat → BitVec 64) (b : Nat) :
    ((range 64).countP fun i => bit words (b * 64 + i)) = countOnes (words b) := by
  rw [countOnes_eq]
  apply countP_congr
  intro i hi
  rw [bit_block words b (mem_range.mp hi)]

/-- The ones of the first `n` words. -/
theorem sum_countOnes (words : Nat → BitVec 64) (n : Nat) :
    ((range n).map fun b => countOnes (words b)).sum = (range (n * 64)).countP (bit words) := by
  rw [countP_range_mul]
  simp only [countP_word]

lemma flatMap_wordOffsets (words : Nat → BitVec 64) (n : Nat) :
    ((range n).flatMap fun b => wordOffsets (b * 64) (words b)) =
      (range (n * 64)).filter (bit words) := by
  rw [filter_range_mul]
  congr 1
  funext b
  rw [wordOffsets_eq]
  congr 1
  apply filter_congr
  intro i hi
  rw [bit_block words b (mem_range.mp hi)]

/-- The ones below `x`: whole words, and the low bits of the word `x` is in. -/
theorem countP_below (words : Nat → BitVec 64) (x : Nat) : (range x).countP (bit words) =
      ((range (x / 64)).map fun b => countOnes (words b)).sum +
        countOnes (words (x / 64) &&& ((1#64 <<< (x % 64)) - 1#64)) := by
  have hsplit : x = x / 64 * 64 + x % 64 := by omega
  have hlt : x % 64 < 64 := Nat.mod_lt _ (by omega)
  have hrest : range 64 = range (x % 64 + (64 - x % 64)) := by
    congr 1
    omega
  rw [sum_countOnes]
  conv_lhs => rw [hsplit, countP_range_add]
  congr 1
  rw [countOnes_eq, hrest, countP_range_add]
  have hhigh : ((range (64 - x % 64)).countP fun i =>
      (words (x / 64) &&& ((1#64 <<< (x % 64)) - 1#64)).getLsbD (x % 64 + i)) = 0 := by
    rw [countP_eq_zero]
    intro i hi
    rw [BitVec.getLsbD_and, getLsbD_low_mask hlt]
    simp
  rw [hhigh, Nat.add_zero]
  apply countP_congr
  intro i hi
  have hi' := mem_range.mp hi
  rw [bit_block words _ (by omega), BitVec.getLsbD_and, getLsbD_low_mask hlt]
  simp [hi']

end BitArray
