import Mathlib.Data.Nat.Digits.Defs
import Mathlib.Data.Rat.Floor
import Mathlib.Algebra.Order.Field.Power
import Mathlib.Tactic.Positivity

/-!
# Decimal numerals

A list of decimal digits, the most significant first, as a number, and the number scaled by a power
of ten and rounded half up: what the digits in front of the cut and the one behind it say of it.
-/

namespace Numeral

open List

def numeral (ds : List Nat) : Nat := Nat.ofDigits 10 ds.reverse

variable {a b ds : List Nat} {d j n : Nat} {k l : Int}

@[simp] lemma numeral_nil : numeral [] = 0 := rfl

lemma numeral_append (a b : List Nat) : numeral (a ++ b) = numeral a * 10 ^ b.length + numeral b := by
  rw [numeral, reverse_append, Nat.ofDigits_append, length_reverse, add_comm, mul_comm]
  rfl

@[simp] lemma numeral_singleton (d : Nat) : numeral [d] = d := by simp [numeral]

lemma numeral_cons (d : Nat) (ds : List Nat) :
    numeral (d :: ds) = d * 10 ^ ds.length + numeral ds := by
  simpa using numeral_append [d] ds

lemma numeral_lt (h : ∀ d ∈ ds, d < 10) : numeral ds < 10 ^ ds.length := by
  have hlt := @Nat.ofDigits_lt_base_pow_length 10 ds.reverse (by omega)
    fun d hd => h d (mem_reverse.mp hd)
  rwa [length_reverse] at hlt

/-- A first digit other than zero counts in full. -/
lemma le_numeral (hlead : ds.head? ≠ some 0) (hne : ds ≠ []) :
    10 ^ (ds.length - 1) ≤ numeral ds := by
  cases ds with
  | nil => exact absurd rfl hne
  | cons d ds =>
    have hd : 1 ≤ d := Nat.one_le_iff_ne_zero.mpr fun h => hlead (by simp [h])
    rw [numeral_cons, length_cons, Nat.add_sub_cancel]
    calc 10 ^ ds.length = 1 * 10 ^ ds.length := (one_mul _).symm
      _ ≤ d * 10 ^ ds.length := Nat.mul_le_mul_right _ hd
      _ ≤ d * 10 ^ ds.length + numeral ds := Nat.le_add_right _ _

/-- Zeros in front of a numeral do not count. -/
lemma numeral_dropWhile_zero (ds : List Nat) : numeral (ds.dropWhile (· == 0)) = numeral ds := by
  induction ds with
  | nil => rfl
  | cons d ds ih =>
    by_cases hd : d = 0
    · simp [hd, ih, numeral_cons]
    · simp [hd]

lemma head_dropWhile_zero (ds : List Nat) : (ds.dropWhile (· == 0)).head? ≠ some 0 := by
  intro h
  have hfirst := head?_dropWhile_not (· == 0) ds
  rw [h] at hfirst
  simp at hfirst

/-- The nearest integer, a half upwards. -/
def rounded (n : Nat) (k : Int) : Int := ⌊(n : ℚ) * 10 ^ k + 1 / 2⌋

lemma rounded_nonneg (n : Nat) (k : Int) : 0 ≤ rounded n k :=
  Int.floor_nonneg.mpr (by positivity)

@[simp] lemma rounded_zero (k : Int) : rounded 0 k = 0 := by
  rw [rounded, Int.floor_eq_iff]
  norm_num

/-- A scale that is not negative leaves nothing to round. -/
lemma rounded_ofNat (n j : Nat) : rounded n j = (n * 10 ^ j : Nat) := by
  rw [rounded, Int.floor_eq_iff]
  constructor <;> push_cast <;> norm_num

/-- What a negative scale cuts off counts from one half on. -/
lemma rounded_split (hb : ∀ d ∈ b, d < 10) :
    rounded (numeral (a ++ b)) (-b.length) =
      (numeral a + if 10 ^ b.length ≤ 2 * numeral b then 1 else 0 : Nat) := by
  have hlt := numeral_lt hb
  have hpos : (0 : ℚ) < 10 ^ b.length := by positivity
  have hvalue : ((numeral (a ++ b) : Nat) : ℚ) * 10 ^ (-(b.length : Int)) =
      numeral a + numeral b / 10 ^ b.length := by
    rw [numeral_append, zpow_neg, zpow_natCast]
    push_cast
    field_simp
  rw [rounded, hvalue, Int.floor_eq_iff]
  have hb1 : (numeral b : ℚ) / 10 ^ b.length < 1 := by
    rw [div_lt_one hpos]
    exact_mod_cast hlt
  have hb0 : 0 ≤ (numeral b : ℚ) / 10 ^ b.length := by positivity
  split
  next hhalf =>
    have : (1 : ℚ) / 2 ≤ (numeral b : ℚ) / 10 ^ b.length := by
      rw [le_div_iff₀ hpos]
      have : ((10 ^ b.length : Nat) : ℚ) ≤ (2 * numeral b : Nat) := Nat.cast_le.mpr hhalf
      push_cast at this
      linarith
    constructor <;> push_cast <;> linarith
  next hhalf =>
    have : (numeral b : ℚ) / 10 ^ b.length < 1 / 2 := by
      rw [div_lt_iff₀ hpos]
      have : ((2 * numeral b : Nat) : ℚ) < (10 ^ b.length : Nat) :=
        Nat.cast_lt.mpr (Nat.lt_of_not_le hhalf)
      push_cast at this
      linarith
    constructor <;> push_cast <;> linarith

/-- One digit decides which half a numeral lies in. -/
lemma half_le_iff (h : ∀ x ∈ d :: ds, x < 10) :
    10 ^ (d :: ds).length ≤ 2 * numeral (d :: ds) ↔ 5 ≤ d := by
  have hlt := @numeral_lt ds fun x hx => h x (mem_cons_of_mem _ hx)
  rw [numeral_cons, length_cons, pow_succ]
  constructor
  · intro hle
    by_contra hd
    have : d * 10 ^ ds.length ≤ 4 * 10 ^ ds.length := Nat.mul_le_mul_right _ (by omega)
    omega
  · intro hd
    have : 5 * 10 ^ ds.length ≤ d * 10 ^ ds.length := Nat.mul_le_mul_right _ hd
    omega

/-- A numeral scaled under one tenth rounds to zero. -/
lemma rounded_eq_zero (hds : ∀ d ∈ ds, d < 10) (hk : ds.length + k < 0) :
    rounded (numeral ds) k = 0 := by
  have hlt : ((numeral ds : Nat) : ℚ) < 10 ^ (ds.length : Int) := by
    rw [zpow_natCast]
    exact_mod_cast numeral_lt hds
  have hscale : (0 : ℚ) < 10 ^ k := by positivity
  have hsmall : ((numeral ds : Nat) : ℚ) * 10 ^ k < 10 ^ (-1 : Int) :=
    calc ((numeral ds : Nat) : ℚ) * 10 ^ k < 10 ^ (ds.length : Int) * 10 ^ k :=
          mul_lt_mul_of_pos_right hlt hscale
      _ = 10 ^ ((ds.length : Int) + k) := (zpow_add₀ (by norm_num) _ _).symm
      _ ≤ 10 ^ (-1 : Int) := zpow_le_zpow_right₀ (by norm_num) (by omega)
  have hnonneg : 0 ≤ ((numeral ds : Nat) : ℚ) * 10 ^ k := by positivity
  rw [rounded, Int.floor_eq_iff]
  norm_num at hsmall ⊢
  constructor <;> linarith

/-- A numeral of more than `j` places in front of the point is at least `10 ^ j`. -/
lemma le_rounded (hlead : ds.head? ≠ some 0) (hne : ds ≠ []) (hk : (j : Int) < ds.length + k) :
    (10 : Int) ^ j ≤ rounded (numeral ds) k := by
  have hpos := length_pos_iff.mpr hne
  have hle : (10 : ℚ) ^ ((ds.length - 1 : Nat) : Int) ≤ (numeral ds : Nat) := by
    rw [zpow_natCast]
    exact_mod_cast le_numeral hlead hne
  have hscale : (0 : ℚ) < 10 ^ k := by positivity
  have hlarge : (10 : ℚ) ^ (j : Int) ≤ ((numeral ds : Nat) : ℚ) * 10 ^ k :=
    calc (10 : ℚ) ^ (j : Int) ≤ 10 ^ (((ds.length - 1 : Nat) : Int) + k) :=
          zpow_le_zpow_right₀ (by norm_num) (by omega)
      _ = 10 ^ ((ds.length - 1 : Nat) : Int) * 10 ^ k := zpow_add₀ (by norm_num) _ _
      _ ≤ ((numeral ds : Nat) : ℚ) * 10 ^ k := mul_le_mul_of_nonneg_right hle hscale.le
  rw [rounded, Int.le_floor]
  push_cast
  rw [zpow_natCast] at hlarge
  linarith

end Numeral
