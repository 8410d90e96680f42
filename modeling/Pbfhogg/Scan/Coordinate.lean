import Pbfhogg.Read.Elements

/-!
# Exact scaling of coordinates

`scale_to_decimicro` computes `(offset + granularity * raw) / 100` without overflow and refuses a
result outside `i32`. The accessors of an element compute it by wrapping arithmetic.
-/

namespace Coordinate

open Elements

def InI64 (x : Int) : Prop := -2 ^ 63 ≤ x ∧ x < 2 ^ 63

def InI32 (x : Int) : Prop := -2 ^ 31 ≤ x ∧ x < 2 ^ 31

instance (x : Int) : Decidable (InI64 x) := inferInstanceAs (Decidable (_ ∧ _))

instance (x : Int) : Decidable (InI32 x) := inferInstanceAs (Decidable (_ ∧ _))

def toI64 (x : Int) : Option Int64 := if InI64 x then some (Int64.ofInt x) else none

def checkedMul (a b : Int64) : Option Int64 := toI64 (a.toInt * b.toInt)

def checkedAdd (a b : Int64) : Option Int64 := toI64 (a.toInt + b.toInt)

/-- `i32::try_from`, of an `i64` or an `i128`. -/
def tryI32 (x : Int) : Option Int32 := if InI32 x then some (Int32.ofInt x) else none

variable (offset granularity raw : Int64)

/-- The fallback in `i128`, where the three operands cannot overflow. -/
def scaleToDecimicroWide : Option Int32 :=
  tryI32 ((offset.toInt + granularity.toInt * raw.toInt).tdiv 100)

def scaleToDecimicro : Option Int32 :=
  match (checkedMul granularity raw).bind fun scaled => checkedAdd offset scaled with
  | some nano => tryI32 (nano / 100).toInt
  | none => scaleToDecimicroWide offset granularity raw

/-- The exact scaled coordinate. -/
def exact : Int :=
  (offset.toInt + granularity.toInt * raw.toInt).tdiv 100

lemma toInt_ofInt {x : Int} (h : InI64 x) : (Int64.ofInt x).toInt = x :=
  Int64.toInt_ofInt_of_le h.1 h.2

lemma toI64_eq_some {x : Int} {y : Int64} (h : toI64 x = some y) : y.toInt = x := by
  unfold toI64 at h
  split at h
  · next hin =>
    cases h
    exact toInt_ofInt hin
  · cases h

/-- Truncating division in terms of the division `omega` knows. -/
theorem tdiv_hundred (x : Int) :
    (0 ≤ x ∧ x.tdiv 100 = x / 100) ∨ (x < 0 ∧ x.tdiv 100 = -(-x / 100)) := by
  rcases Int.lt_or_le x 0 with hneg | hpos
  · refine .inr ⟨hneg, ?_⟩
    rw [← Int.tdiv_eq_ediv_of_nonneg (by omega), Int.neg_tdiv, Int.neg_neg]
  · exact .inl ⟨hpos, Int.tdiv_eq_ediv_of_nonneg hpos⟩

lemma toInt_div_hundred (x : Int64) : (x / 100).toInt = x.toInt.tdiv 100 := by
  have hlo := x.le_toInt
  have hhi := x.toInt_lt
  have hhundred : (100 : Int64).toInt = 100 := rfl
  have hdiv := tdiv_hundred x.toInt
  rw [Int64.toInt_div, hhundred, Int.bmod_eq_of_le (by omega) (by omega)]

lemma scaleToDecimicro_eq :
    scaleToDecimicro offset granularity raw = tryI32 (exact offset granularity raw) := by
  unfold scaleToDecimicro
  split
  · next nano hnano =>
    obtain ⟨scaled, hscaled, hsum⟩ := Option.bind_eq_some_iff.mp hnano
    rw [toInt_div_hundred, toI64_eq_some hsum, toI64_eq_some hscaled, exact]
  · rfl

variable {offset granularity raw : Int64}

lemma toInt_nano (h : InI64 (offset.toInt + granularity.toInt * raw.toInt)) :
    (nano offset granularity raw).toInt = offset.toInt + granularity.toInt * raw.toInt := by
  rw [nano, Int64.toInt_add, Int64.toInt_mul, Int.add_bmod_bmod]
  exact Int.bmod_eq_of_le (by have := h.1; omega) (by have := h.2; omega)

/-- Where the exact scaled coordinate fits, the wrapping accessors compute it. -/
theorem toDecimicro_nano (h : InI32 (exact offset granularity raw)) :
    toDecimicro (nano offset granularity raw) = Int32.ofInt (exact offset granularity raw) := by
  have hin : InI64 (offset.toInt + granularity.toInt * raw.toInt) := by
    have hdiv := tdiv_hundred (offset.toInt + granularity.toInt * raw.toInt)
    unfold exact InI32 at h
    unfold InI64
    omega
  have hexact : (nano offset granularity raw / 100).toInt = exact offset granularity raw := by
    rw [toInt_div_hundred, toInt_nano hin, exact]
  apply Int32.toInt_inj.mp
  rw [toDecimicro, Int64.toInt_toInt32, hexact, Int32.toInt_ofInt_of_le h.1 h.2]
  exact Int.bmod_eq_of_le (by have := h.1; omega) (by have := h.2; omega)

/-- The scanner's scaling succeeds exactly on what fits, and gives what the accessors give. -/
theorem scaleToDecimicro_eq_some {x : Int32} : scaleToDecimicro offset granularity raw = some x ↔
      InI32 (exact offset granularity raw) ∧ x = toDecimicro (nano offset granularity raw) := by
  rw [scaleToDecimicro_eq, tryI32]
  split
  · next hin =>
    rw [toDecimicro_nano hin, Option.some.injEq]
    exact ⟨fun h => ⟨hin, h.symm⟩, fun h => h.2.symm⟩
  · next hout =>
    constructor
    · nofun
    · exact fun h => absurd h.1 hout

lemma scaleToDecimicro_eq_none : scaleToDecimicro offset granularity raw = none ↔
      ¬InI32 (exact offset granularity raw) := by
  rw [scaleToDecimicro_eq, tryI32]
  split <;> simp [*]

end Coordinate
