import Mathlib.Data.List.Sort

/-!
# Merging two lists in pieces

A stable merge of two lists splits wherever both are cut so that the first parts come before the
second parts. The left list wins a tie, so the cut may separate equal elements only when the left
one comes first.
-/

namespace OrderedMerge

open List

variable {α : Type*} {le : α → α → Bool}

lemma merge_append {l₁ l₂ r₁ r₂ : List α}
    (hlr : ∀ x ∈ l₁, ∀ y ∈ r₂, le x y) (hrl : ∀ y ∈ r₁, ∀ x ∈ l₂, le x y = false) :
    (l₁ ++ l₂).merge (r₁ ++ r₂) le = l₁.merge r₁ le ++ l₂.merge r₂ le := by
  induction l₁ generalizing r₁ with
  | nil =>
    induction r₁ with
    | nil => simp
    | cons y ys ih =>
      have htail := ih fun z hz => hrl z (mem_cons_of_mem _ hz)
      cases l₂ with
      | nil => simp
      | cons x xs =>
        have hxy := hrl y mem_cons_self x mem_cons_self
        simp only [nil_append, nil_merge, cons_append] at htail ⊢
        simp [hxy, htail]
  | cons x xs ihx =>
    have hxs : ∀ z ∈ xs, ∀ y ∈ r₂, le z y := fun z hz => hlr z (mem_cons_of_mem _ hz)
    induction r₁ with
    | nil =>
      have htail := @ihx [] hxs (by simp)
      cases r₂ with
      | nil => simp
      | cons y ys =>
        have hxy := hlr x mem_cons_self y mem_cons_self
        simp only [nil_append, merge_right, cons_append] at htail ⊢
        simp [hxy, htail]
    | cons y ys ihy =>
      have hys : ∀ z ∈ ys, ∀ w ∈ l₂, le w z = false :=
        fun z hz => hrl z (mem_cons_of_mem _ hz)
      simp only [cons_append, cons_merge_cons]
      by_cases hxy : le x y
      · simpa [hxy] using @ihx (y :: ys) hxs hrl
      · simpa [hxy] using ihy hys

variable {l : List α}

/-- A run of the right list that comes before the whole left list goes out first. -/
theorem merge_append_right {r₁ r₂ : List α} (h : ∀ y ∈ r₁, ∀ x ∈ l, le x y = false) :
    l.merge (r₁ ++ r₂) le = r₁ ++ l.merge r₂ le := by
  simpa using @merge_append α le [] l r₁ r₂ (by simp) h

lemma takeWhile_eq_filter {p : α → Bool} (h : l.Pairwise fun a b => p b → p a) :
    l.takeWhile p = l.filter p := by
  induction l with
  | nil => rfl
  | cons a as ih =>
    rw [pairwise_cons] at h
    by_cases ha : p a
    · simp [ha, ih h.2]
    · have hnone : as.filter p = [] := by
        apply filter_eq_nil_iff.mpr
        intro b hb hpb
        exact ha (h.1 b hb hpb)
      simp [ha, hnone]

lemma dropWhile_eq_filter {p : α → Bool} (h : l.Pairwise fun a b => p b → p a) :
    l.dropWhile p = l.filter fun x => !p x := by
  induction l with
  | nil => rfl
  | cons a as ih =>
    rw [pairwise_cons] at h
    by_cases ha : p a
    · simp [ha, ih h.2]
    · have hall : (as.filter fun x => !p x) = as := by
        apply filter_eq_self.mpr
        intro b hb
        by_cases hpb : p b
        · exact absurd (h.1 b hb hpb) ha
        · simpa using hpb
      simp [ha, hall]

lemma filter_split (p : α → Bool) {q : α → Bool} (h : l.Pairwise fun a b => q b → q a) :
    l.filter p = (l.filter fun x => p x && q x) ++ l.filter fun x => p x && !q x := by
  have hcut := h.sublist (filter_sublist (p := p))
  have hparts := takeWhile_append_dropWhile (p := q) (l := l.filter p)
  rw [takeWhile_eq_filter hcut, dropWhile_eq_filter hcut, filter_filter, filter_filter] at hparts
  rw [← hparts]
  congr 1 <;> apply filter_congr <;> intro x _ <;> rw [Bool.and_comm]

end OrderedMerge
