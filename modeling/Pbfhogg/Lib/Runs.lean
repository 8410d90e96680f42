import Mathlib.Data.List.SplitBy
import Mathlib.Order.Lattice

/-!
# Runs of equal keys in a sorted list

A list sorted by a key, cut into maximal runs of equal key, gives for each key
that occurs the sublist of its elements, with the keys of the runs ascending.
-/

namespace Runs

open List

universe u v
variable {α : Type u} {β : Type v} [LinearOrder β] (f : α → β)

/-- The maximal runs of equal key. -/
def runs (l : List α) : List (List α) := l.splitBy fun a b => decide (f a = f b)

/-- Every key of the first run is below every key of the second. -/
def Below (m n : List α) : Prop := m ≠ [] ∧ n ≠ [] ∧ ∀ a ∈ m, ∀ b ∈ n, f a < f b

variable {m l : List α}

lemma Below.trans {n o : List α} (h : Below f m n) (h' : Below f n o) : Below f m o := by
  refine ⟨h.1, h'.2.1, fun a ha c hc => ?_⟩
  obtain ⟨b, hb⟩ := exists_mem_of_ne_nil n h.2.1
  exact lt_trans (h.2.2 a ha b hb) (h'.2.2 b hb c hc)

lemma flatten_runs (l : List α) : (runs f l).flatten = l := flatten_splitBy _ _

lemma ne_nil_of_mem_runs (h : m ∈ runs f l) : m ≠ [] := by
  rintro rfl
  exact nil_notMem_splitBy _ _ h

/-- A run has one key. -/
lemma eq_of_mem_run (h : m ∈ runs f l) {a b : α} (ha : a ∈ m) (hb : b ∈ m) : f a = f b := by
  have hchain : m.IsChain (fun x y => f x = f y) :=
    (isChain_of_mem_splitBy h).imp fun _ _ hxy => of_decide_eq_true hxy
  have hpair : m.Pairwise (fun x y => f x = f y) := by
    have : IsTrans α (fun x y => f x = f y) := ⟨fun _ _ _ => Eq.trans⟩
    exact isChain_iff_pairwise.mp hchain
  by_cases hab : a = b
  · rw [hab]
  · have : Std.Symm (fun x y : α => f x = f y) := ⟨fun _ _ => Eq.symm⟩
    exact hpair.forall ha hb hab

lemma runs_pairwise (hs : l.Pairwise fun a b => f a ≤ f b) : (runs f l).Pairwise (Below f) := by
  have htrans : IsTrans (List α) (Below f) := ⟨fun _ _ _ => Below.trans f⟩
  have hends := isChain_iff_forall_rel_of_append_cons_cons.mp
    (isChain_getLast_head_splitBy (fun a b => decide (f a = f b)) l)
  have hsorted := hs
  rw [← flatten_runs f l, pairwise_flatten] at hsorted
  apply isChain_iff_pairwise.mp
  rw [isChain_iff_forall_rel_of_append_cons_cons]
  intro m n l₁ l₂ hsplit
  obtain ⟨hm, hn, hne⟩ := hends hsplit
  have hle : ∀ x ∈ m, ∀ y ∈ n, f x ≤ f y := by
    have hpair := hsorted.2
    rw [hsplit, pairwise_append] at hpair
    exact (pairwise_cons.mp hpair.2.1).1 n mem_cons_self
  have hmem : m ∈ runs f l := by rw [hsplit]; simp
  have hmem' : n ∈ runs f l := by rw [hsplit]; simp
  refine ⟨hm, hn, fun a ha b hb => lt_of_le_of_ne (hle a ha b hb) ?_⟩
  rw [eq_of_mem_run f hmem ha (getLast_mem hm), eq_of_mem_run f hmem' hb (head_mem hn)]
  exact of_decide_eq_false hne

/-- The run of a key is the sublist of its elements. -/
lemma run_eq_filter (hs : l.Pairwise fun a b => f a ≤ f b) (h : m ∈ runs f l) {a : α} (ha : a ∈ m) :
    m = l.filter fun b => decide (f b = f a) := by
  obtain ⟨l₁, l₂, hsplit⟩ := append_of_mem h
  have hpair := runs_pairwise f hs
  rw [hsplit, pairwise_append, pairwise_cons] at hpair
  have hl : l = l₁.flatten ++ (m ++ l₂.flatten) := by
    rw [← flatten_runs f l, hsplit]
    simp
  have hbefore : l₁.flatten.filter (fun b => decide (f b = f a)) = [] := by
    rw [filter_eq_nil_iff]
    intro b hb
    obtain ⟨n, hn, hbn⟩ := mem_flatten.mp hb
    have hlt := (hpair.2.2 n hn m mem_cons_self).2.2 b hbn a ha
    simpa using ne_of_lt hlt
  have hafter : l₂.flatten.filter (fun b => decide (f b = f a)) = [] := by
    rw [filter_eq_nil_iff]
    intro b hb
    obtain ⟨n, hn, hbn⟩ := mem_flatten.mp hb
    have hlt := (hpair.2.1.1 n hn).2.2 a ha b hbn
    simpa using ne_of_gt hlt
  have hself : m.filter (fun b => decide (f b = f a)) = m := by
    rw [filter_eq_self]
    intro b hb
    simpa using eq_of_mem_run f h hb ha
  rw [hl, filter_append, filter_append, hbefore, hafter, hself]
  simp

lemma exists_run_of_mem {a : α} (ha : a ∈ l) : ∃ m ∈ runs f l, a ∈ m := by
  rw [← flatten_runs f l] at ha
  exact mem_flatten.mp ha

end Runs
