import Mathlib.Data.List.Pairwise
import Mathlib.Data.List.Sort

/-!
# Two-pointer merge of two keyed lists

`zipMerge` walks two lists in key order and pairs the heads whose keys agree. For its laws it only
matters that everything in the first part of a cut lies below the other side's second part.
-/

namespace ZipMerge

open List

universe u v
variable {E : Type u} {K : Type v} [LinearOrder K]

inductive Merged (E : Type u) where
  | left (a : E)
  | right (b : E)
  | both (a b : E)

/-- The walk with `a` at the head of the left list; `tail` merges what is behind it. -/
def mergeHead (key : E → K) (a : E) (l : List E) (tail : List E → List (Merged E)) :
    List E → List (Merged E)
  | [] => .left a :: l.map .left
  | b :: r =>
    if key a < key b then .left a :: tail (b :: r)
    else if key b < key a then .right b :: mergeHead key a l tail r
    else .both a b :: tail r

def zipMerge (key : E → K) : List E → List E → List (Merged E)
  | [] => fun r => r.map .right
  | a :: l => mergeHead key a l (zipMerge key l)

variable (key : E → K)

@[simp] lemma zipMerge_nil_left (r : List E) : zipMerge key [] r = r.map .right := rfl

@[simp] lemma zipMerge_nil_right (l : List E) : zipMerge key l [] = l.map .left := by
  cases l <;> rfl

lemma zipMerge_cons_cons (a b : E) (l r : List E) :
    zipMerge key (a :: l) (b :: r) =
      if key a < key b then .left a :: zipMerge key l (b :: r)
      else if key b < key a then .right b :: zipMerge key (a :: l) r
      else .both a b :: zipMerge key l r := rfl

lemma zipMerge_left {a : E} {l r : List E} (h : ∀ b ∈ r, key a < key b) :
    zipMerge key (a :: l) r = .left a :: zipMerge key l r := by
  cases r with
  | nil => simp
  | cons b r => rw [zipMerge_cons_cons, if_pos (h b mem_cons_self)]

lemma zipMerge_right {b : E} {l r : List E} (h : ∀ a ∈ l, key b < key a) :
    zipMerge key l (b :: r) = .right b :: zipMerge key l r := by
  cases l with
  | nil => simp
  | cons a l =>
    have hlt := h a mem_cons_self
    rw [zipMerge_cons_cons, if_neg (not_lt_of_gt hlt), if_pos hlt]

/-- Cutting both lists where each first part lies below the other's second part
cuts the merge. -/
theorem zipMerge_append {l₁ l₂ r₁ r₂ : List E} (h : ∀ a ∈ l₁, ∀ b ∈ r₂, key a < key b)
    (h' : ∀ b ∈ r₁, ∀ a ∈ l₂, key b < key a) :
    zipMerge key (l₁ ++ l₂) (r₁ ++ r₂) = zipMerge key l₁ r₁ ++ zipMerge key l₂ r₂ := by
  induction l₁ generalizing r₁ with
  | nil =>
    induction r₁ with
    | nil => rfl
    | cons b r₁ ih =>
      have htail := ih fun c hc => h' c (mem_cons_of_mem _ hc)
      simp only [nil_append, zipMerge_nil_left, cons_append, map_cons] at htail ⊢
      rw [zipMerge_right key (h' b mem_cons_self), htail]
  | cons a l₁ ih =>
    have hl : ∀ c ∈ l₁, ∀ b ∈ r₂, key c < key b := fun c hc => h c (mem_cons_of_mem _ hc)
    induction r₁ with
    | nil =>
      have htail := ih hl h'
      simp only [nil_append, zipMerge_nil_right, cons_append, map_cons] at htail ⊢
      rw [zipMerge_left key (h a mem_cons_self), htail]
    | cons b r₁ ihr =>
      have hr : ∀ c ∈ r₁, ∀ x ∈ l₂, key c < key x := fun c hc => h' c (mem_cons_of_mem _ hc)
      simp only [cons_append, zipMerge_cons_cons]
      split_ifs
      · have hrec := ih hl h'
        simp only [cons_append] at hrec
        rw [hrec, cons_append]
      · have hrec := ihr hr
        simp only [cons_append] at hrec
        rw [hrec, cons_append]
      · rw [ih hl hr, cons_append]

lemma zipMerge_self (l : List E) : zipMerge key l l = l.map fun a => .both a a := by
  induction l with
  | nil => rfl
  | cons a l ih => simp [zipMerge_cons_cons, ih]

/-- A list sorted by key is its part below a bound followed by the rest. -/
lemma filter_lt_append_filter_ge {l : List E} (hs : l.Pairwise fun a b => key a < key b) (k : K) :
    l.filter (fun a => decide (key a < k)) ++ l.filter (fun a => decide (k ≤ key a)) = l := by
  induction l with
  | nil => rfl
  | cons a l ih =>
    obtain ⟨hhead, htail⟩ := pairwise_cons.mp hs
    by_cases ha : key a < k
    · rw [filter_cons_of_pos (by simpa using ha), filter_cons_of_neg (by simpa using ha),
        cons_append, ih htail]
    · have hge : k ≤ key a := le_of_not_gt ha
      have hnone : l.filter (fun a => decide (key a < k)) = [] := by
        rw [filter_eq_nil_iff]
        intro b hb
        simpa using le_of_lt (lt_of_le_of_lt hge (hhead b hb))
      have hall : l.filter (fun a => decide (k ≤ key a)) = l := by
        rw [filter_eq_self]
        intro b hb
        simpa using le_of_lt (lt_of_le_of_lt hge (hhead b hb))
      rw [filter_cons_of_neg (by simpa using hge), filter_cons_of_pos (by simpa using hge),
        hnone, hall, nil_append]

/-- The merge of two sorted lists is the merge of their parts below a bound
followed by the merge of the rest. -/
theorem zipMerge_cut {l r : List E} (hl : l.Pairwise fun a b => key a < key b)
    (hr : r.Pairwise fun a b => key a < key b) (k : K) : zipMerge key l r =
      zipMerge key (l.filter fun a => decide (key a < k)) (r.filter fun a => decide (key a < k)) ++
      zipMerge key (l.filter fun a => decide (k ≤ key a))
        (r.filter fun a => decide (k ≤ key a)) := by
  have hcut : ∀ (l r : List E), ∀ a ∈ l.filter (fun a => decide (key a < k)),
      ∀ b ∈ r.filter (fun a => decide (k ≤ key a)), key a < key b := by
    intro l r a ha b hb
    have ha' : key a < k := by simpa using (mem_filter.mp ha).2
    have hb' : k ≤ key b := by simpa using (mem_filter.mp hb).2
    exact lt_of_lt_of_le ha' hb'
  have happ := zipMerge_append key (hcut l r) (hcut r l)
  rw [filter_lt_append_filter_ge key hl k, filter_lt_append_filter_ge key hr k] at happ
  exact happ

end ZipMerge
