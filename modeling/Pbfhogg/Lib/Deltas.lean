import Mathlib.Data.List.Basic

/-!
# Wrapping deltas

A list of 64-bit values as the differences of neighbours, and the running sums that give it back.
Both wrap, so each is the other's inverse on every list.
-/

namespace Deltas

/-- The deltas of a list, wrapping. -/
def deltasFrom (last : Int64) : List Int64 → List Int64
  | [] => []
  | x :: xs => (x - last) :: deltasFrom x xs

/-- The running sums of a list, wrapping. -/
def sumsFrom (last : Int64) : List Int64 → List Int64
  | [] => []
  | d :: ds => (last + d) :: sumsFrom (last + d) ds

lemma sub_add_self (a b : Int64) : b + (a - b) = a := by
  rw [Int64.add_comm, Int64.sub_add_cancel]

@[simp] lemma sumsFrom_deltasFrom (last : Int64) (xs : List Int64) :
    sumsFrom last (deltasFrom last xs) = xs := by
  induction xs generalizing last with
  | nil => rfl
  | cons x xs ih => rw [deltasFrom, sumsFrom, sub_add_self, ih]

@[simp] lemma length_deltasFrom (last : Int64) (xs : List Int64) :
    (deltasFrom last xs).length = xs.length := by
  induction xs generalizing last with
  | nil => rfl
  | cons x xs ih => rw [deltasFrom, List.length_cons, List.length_cons, ih]

@[simp] lemma length_sumsFrom (last : Int64) (ds : List Int64) :
    (sumsFrom last ds).length = ds.length := by
  induction ds generalizing last with
  | nil => rfl
  | cons d ds ih => rw [sumsFrom, List.length_cons, List.length_cons, ih]

end Deltas
