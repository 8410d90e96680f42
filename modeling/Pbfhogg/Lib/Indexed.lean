import Mathlib.Algebra.BigOperators.Group.Finset.Piecewise
import Mathlib.Algebra.Order.BigOperators.Group.Finset

/-!
# Families over an index, changed at one place

Facts about a function on the numbers that is updated at one of them, and about sums over the
numbers below a bound of which one term changes.
-/

namespace Indexed

open Function

lemma update_keeps {α β : Type} {f : Nat → α} {i : Nat} {a : α} {p : α → β}
    (h : p a = p (f i)) (j : Nat) : p (update f i a j) = p (f j) := by
  by_cases hj : j = i
  · subst hj
    rw [update_self]
    exact h
  · rw [update_of_ne hj]

/-- What holds at every place still does when it holds at the changed one. -/
theorem forall_update {α : Type} {f : Nat → α} {i : Nat} {a : α} {P : Nat → α → Prop}
    (h : ∀ j, P j (f j)) (ha : P i a) (j : Nat) : P j (update f i a j) := by
  by_cases hj : j = i
  · subst hj
    rw [update_self]
    exact ha
  · rw [update_of_ne hj]
    exact h j

/-- One term of a sum changes. -/
theorem sum_range_update {f g : Nat → Nat} {n i : Nat} (hi : i < n)
    (hsame : ∀ j, j ≠ i → g j = f j) :
    (∑ j ∈ Finset.range n, g j) + f i = (∑ j ∈ Finset.range n, f j) + g i := by
  have hmem : i ∈ Finset.range n := Finset.mem_range.mpr hi
  have herase : ∑ j ∈ (Finset.range n).erase i, g j = ∑ j ∈ (Finset.range n).erase i, f j :=
    Finset.sum_congr rfl fun j hj => hsame j (Finset.ne_of_mem_erase hj)
  rw [← Finset.add_sum_erase _ _ hmem, ← Finset.add_sum_erase (Finset.range n) f hmem, herase]
  omega

lemma sum_range_congr {f g : Nat → Nat} {n : Nat} (hsame : ∀ j, g j = f j) :
    (∑ j ∈ Finset.range n, g j) = ∑ j ∈ Finset.range n, f j :=
  Finset.sum_congr rfl fun j _ => hsame j

/-- The numbers below `m`, counted among those below `n`. -/
theorem sum_range_lt {m n : Nat} (h : m ≤ n) :
    (∑ j ∈ Finset.range n, if j < m then 1 else 0) = m := by
  rw [← Finset.sum_filter, ← Finset.card_eq_sum_ones]
  have : (Finset.range n).filter (fun j => j < m) = Finset.range m := by
    ext j
    simp only [Finset.mem_filter, Finset.mem_range]
    omega
  rw [this, Finset.card_range]

end Indexed
