import Mathlib.Data.List.Induction

/-!
# Rows by counting

Entries of many rows laid out one row after the other: each row is counted, the counts are added up
to where the rows start, and every entry goes to the next free place of its row.
-/

namespace Csr

open List

variable {α : Type}

/-- One more in the slot of a row. -/
def bump (xs : List Nat) (i : Nat) : List Nat := xs.modify i (· + 1)

/-- Each row counted in the slot behind its own. -/
def counts (n : Nat) (rows : List Nat) : List Nat :=
  rows.foldl (fun xs r => bump xs (r + 1)) (replicate (n + 1) 0)

/-- Every slot with the sum of those up to it. -/
def sums (n : Nat) (xs : List Nat) : List Nat :=
  (range n).foldl (fun xs i => xs.modify (i + 1) (· + xs.getD i 0)) xs

/-- The next free places and the entries laid out so far. -/
abbrev Layout (α : Type) := List Nat × List α

def place (s : Layout α) (e : Nat × α) : Layout α :=
  (bump s.1 e.1, s.2.set (s.1.getD e.1 0) e.2)

variable (es : List (Nat × α)) (r : Nat)

/-- The entries of a row, in order. -/
def row : List α :=
  (es.filter fun e => e.1 == r).map Prod.snd

/-- The number of entries of the rows before `r`. -/
def below : Nat := es.countP fun e => decide (e.1 < r)

lemma row_append (es fs : List (Nat × α)) (r : Nat) : row (es ++ fs) r = row es r ++ row fs r := by
  simp [row]

lemma below_succ : below es (r + 1) = below es r + (row es r).length := by
  induction es with
  | nil => rfl
  | cons e es ih =>
    simp only [below, row, countP_cons, filter_cons] at ih ⊢
    by_cases hlt : e.1 < r
    · simp only [Nat.lt_succ_of_lt hlt, hlt, Nat.ne_of_lt hlt, decide_true, beq_iff_eq, if_true,
        if_false]
      omega
    · by_cases heq : e.1 = r
      · have hself : decide (e.1 < r + 1) = true := decide_eq_true (by omega)
        rw [hself, decide_eq_false hlt, beq_iff_eq.mpr heq, if_pos rfl, if_neg Bool.false_ne_true,
          if_pos rfl, map_cons, length_cons]
        omega
      · have hgt : ¬e.1 < r + 1 := by omega
        simp only [hgt, hlt, heq, beq_iff_eq, decide_false, if_false, Bool.false_eq_true]
        exact ih

lemma below_mono {r s : Nat} (h : r ≤ s) : below es r ≤ below es s := by
  refine countP_mono_left fun e _ he => ?_
  simp only [decide_eq_true_eq] at he ⊢
  omega

lemma below_le_length : below es r ≤ es.length :=
  countP_le_length

lemma length_row_le {es fs : List (Nat × α)} : (row es r).length ≤ (row (es ++ fs) r).length := by
  rw [row_append, length_append]
  omega

lemma getElem?_counts (n : Nat) (es : List (Nat × α)) {i : Nat} (hi : i ≤ n) :
    (counts n (es.map Prod.fst))[i]? = some (if i = 0 then 0 else (row es (i - 1)).length) := by
  induction es using reverseRecOn with
  | nil =>
    have hlt : i < n + 1 := by omega
    simp [counts, row, hlt]
  | append_singleton es e ih =>
    have hstep : counts n ((es ++ [e]).map Prod.fst) =
        bump (counts n (es.map Prod.fst)) (e.1 + 1) := by
      simp [counts, foldl_append]
    rw [hstep, bump, getElem?_modify, ih, row_append, length_append]
    by_cases he : e.1 + 1 = i
    · have hpred : i - 1 = e.1 := by omega
      have hpos : i ≠ 0 := by omega
      simp [he, hpos, row, hpred]
    · by_cases hzero : i = 0
      · simp [hzero]
      · have hother : ¬e.1 = i - 1 := by omega
        simp [he, hzero, row, hother]

/-- Summed up, the slot of a row is where it starts. -/
theorem getElem?_sums (n : Nat) (es : List (Nat × α)) {i : Nat} (hi : i ≤ n) :
    (sums n (counts n (es.map Prod.fst)))[i]? = some (below es i) := by
  have hstep : ∀ k, k ≤ n → ∀ i ≤ n,
      ((range k).foldl (fun xs i => xs.modify (i + 1) (· + xs.getD i 0))
        (counts n (es.map Prod.fst)))[i]? =
        some (if i ≤ k then below es i else (row es (i - 1)).length) := by
    intro k
    induction k with
    | zero =>
      intro _ i hi
      rw [range_zero, foldl_nil, getElem?_counts n es hi]
      by_cases hzero : i = 0
      · simp [hzero, below]
      · have hgt : ¬i ≤ 0 := by omega
        rw [if_neg hzero, if_neg hgt]
    | succ k ih =>
      intro hk i hi
      have hprev := ih (by omega) k (by omega)
      rw [if_pos (Nat.le_refl k)] at hprev
      have hget : ∀ xs : List Nat, xs[k]? = some (below es k) → xs.getD k 0 = below es k := by
        intro xs hxs
        rw [getD_eq_getElem?_getD, hxs]
        rfl
      rw [range_succ, foldl_append, foldl_cons, foldl_nil,
        getElem?_modify, ih (by omega) i hi, hget _ hprev]
      by_cases hlast : k + 1 = i
      · subst hlast
        have hgt : ¬k + 1 ≤ k := by omega
        rw [if_neg hgt, if_pos (Nat.le_refl _), Nat.add_sub_cancel, below_succ]
        simp [Nat.add_comm]
      · have hiff : i ≤ k ↔ i ≤ k + 1 := by omega
        simp [hlast, hiff]
  have hlast := hstep n (Nat.le_refl n) i hi
  rwa [if_pos hi] at hlast

/-- Part of the entries laid out among the places of all. -/
structure Placed (n : Nat) (all done : List (Nat × α)) (s : Layout α) : Prop where
  cursor : ∀ r < n, s.1[r]? = some (below all r + (row done r).length)
  length : s.2.length = all.length
  entries : ∀ r < n, ∀ k < (row done r).length, s.2[below all r + k]? = (row done r)[k]?

lemma Placed.step {n : Nat} {done rest : List (Nat × α)} {e : Nat × α} {s : Layout α}
    (h : Placed n (done ++ e :: rest) done s) (he : e.1 < n) :
    Placed n (done ++ e :: rest) (done ++ [e]) (place s e) := by
  have hself : row [e] e.1 = [e.2] := by simp [row]
  have hother : ∀ r, e.1 ≠ r → row [e] r = [] := by
    intro r hne
    simp [row, hne]
  have hfree : s.1.getD e.1 0 = below (done ++ e :: rest) e.1 + (row done e.1).length := by
    rw [getD_eq_getElem?_getD, h.cursor e.1 he]
    rfl
  have hroom : ∀ r, (row (done ++ [e]) r).length ≤ (row (done ++ e :: rest) r).length := by
    intro r
    have hsplit : done ++ e :: rest = (done ++ [e]) ++ rest := by simp
    rw [hsplit]
    exact length_row_le r
  constructor
  · intro r hr
    rw [place, bump, getElem?_modify, h.cursor r hr, row_append, length_append]
    by_cases heq : e.1 = r
    · subst heq
      simp [hself, Nat.add_assoc]
    · simp [heq, hother r heq]
  · rw [place, length_set]
    exact h.length
  · intro r hr k hk
    rw [place, hfree]
    have hnext := below_succ (done ++ e :: rest) e.1
    have hnext' := below_succ (done ++ e :: rest) r
    have hin := hroom e.1
    rw [row_append, hself, length_append, length_singleton] at hin
    by_cases heq : e.1 = r
    · subst heq
      rw [row_append, hself] at hk ⊢
      rw [length_append, length_singleton] at hk
      by_cases hlast : k = (row done e.1).length
      · have hplace : below (done ++ e :: rest) e.1 + k < s.2.length := by
          rw [h.length]
          have := below_le_length (done ++ e :: rest) (e.1 + 1)
          omega
        rw [hlast] at hplace ⊢
        rw [getElem?_set_self hplace]
        simp
      · rw [getElem?_set_ne (by omega), h.entries e.1 hr k (by omega),
          getElem?_append_left (by omega)]
    · have hr' := hroom r
      have hkept : row (done ++ [e]) r = row done r := by
        rw [row_append, hother r heq, append_nil]
      rw [hkept] at hk hr' ⊢
      have happart : below (done ++ e :: rest) e.1 + (row done e.1).length ≠
          below (done ++ e :: rest) r + k := by
        rcases Nat.lt_or_ge e.1 r with hlt | hge
        · have hmono := below_mono (done ++ e :: rest) (show e.1 + 1 ≤ r from hlt)
          omega
        · have hmono := below_mono (done ++ e :: rest) (show r + 1 ≤ e.1 by omega)
          omega
      rw [getElem?_set_ne happart]
      exact h.entries r hr k hk

lemma placed_foldl {n : Nat} {all : List (Nat × α)} (hall : ∀ e ∈ all, e.1 < n) {s : Layout α}
    (h : Placed n all [] s) : Placed n all all (all.foldl place s) := by
  suffices hrun : ∀ rest done t, all = done ++ rest → Placed n all done t →
      Placed n all all (rest.foldl place t) from hrun all [] s rfl h
  intro rest
  induction rest with
  | nil =>
    intro done t hsplit ht
    rw [append_nil] at hsplit
    subst hsplit
    exact ht
  | cons e rest ih =>
    intro done t hsplit ht
    refine ih (done ++ [e]) (place t e) (by simp [hsplit]) ?_
    have he := hall e (by simp [hsplit])
    subst hsplit
    exact ht.step he

/-- The slice of a row of the finished layout. -/
def slice (starts : List Nat) (entries : List α) (r : Nat) : List α :=
  (entries.drop (starts.getD r 0)).take (starts.getD (r + 1) 0 - starts.getD r 0)

lemma slice_eq_row {n : Nat} {all : List (Nat × α)} (hall : ∀ e ∈ all, e.1 < n) (zero : α)
    {r : Nat} (hr : r < n) :
    let starts := sums n (counts n (all.map Prod.fst))
    slice starts (all.foldl place (starts, replicate all.length zero)).2 r = row all r := by
  intro starts
  have hstart : ∀ i ≤ n, starts.getD i 0 = below all i := by
    intro i hi
    rw [getD_eq_getElem?_getD, getElem?_sums n all hi]
    rfl
  have hinit : Placed n all [] (starts, replicate all.length zero) := by
    constructor
    · intro r hr
      exact getElem?_sums n all (Nat.le_of_lt hr)
    · rw [length_replicate]
    · intro r _ k hk
      simp [row] at hk
  have hplaced := placed_foldl hall hinit
  have hnext := below_succ all r
  rw [slice, hstart r (Nat.le_of_lt hr), hstart (r + 1) hr]
  apply ext_getElem?
  intro k
  rw [getElem?_take]
  split
  · next hk =>
    rw [getElem?_drop]
    exact hplaced.entries r hr k (by omega)
  · next hk =>
    rw [getElem?_eq_none]
    omega

end Csr
