import Mathlib.Data.List.Basic

/-!
# Search by halves

The search in a sorted slice that halves a base and a size, as the standard library's
`binary_search_by` and `partition_point` do. On a list that a comparison cuts into a lower, an equal
and an upper part, it finds an equal entry if there is one and else the place of the cut.
-/

namespace Bisect

open List

variable {α : Type}

/-- The loop: `upper` says which positions lie past what is searched. -/
def narrow (upper : Nat → Bool) (base size : Nat) : Nat :=
  if h : size ≤ 1 then base
  else narrow upper (if upper (base + size / 2) then base else base + size / 2) (size - size / 2)
termination_by size

def upperAt (cmp : α → Ordering) (l : List α) (i : Nat) : Bool :=
  match l[i]? with
  | some x => cmp x == .gt
  | none => true

/-- The position of an equal entry, or the one where it could stand. -/
def binarySearchBy (cmp : α → Ordering) (l : List α) : Except Nat Nat :=
  let base := narrow (upperAt cmp l) 0 l.length
  match l[base]? with
  | none => .error 0
  | some x =>
    match cmp x with
    | .eq => .ok base
    | .lt => .error (base + 1)
    | .gt => .error base

def partitionPoint (p : α → Bool) (l : List α) : Nat :=
  match binarySearchBy (fun x => if p x then .lt else .gt) l with
  | .ok i => i
  | .error i => i

/-- It ends at the last position that is not past the search, or at the base. -/
theorem narrow_spec {upper : Nat → Bool} (base size : Nat)
    (hmono : ∀ i j, i ≤ j → upper i = true → upper j = true)
    (hend : ∀ j, base + size ≤ j → upper j = true) (hsize : size ≠ 0) :
    base ≤ narrow upper base size ∧ narrow upper base size < base + size ∧
      (∀ j, narrow upper base size < j → upper j = true) ∧
      (upper (narrow upper base size) = true → narrow upper base size = base) := by
  induction size using Nat.strongRecOn generalizing base with
  | ind size ih =>
    rw [narrow]
    split
    · rename_i hle
      refine ⟨Nat.le_refl _, by omega, fun j hj => hend j (by omega), fun _ => rfl⟩
    · rename_i hgt
      cases hmid : upper (base + size / 2) with
      | true =>
        have hrec := ih (size - size / 2) (by omega) base
          (fun j hj => hmono _ j (by omega) hmid) (by omega)
        obtain ⟨hlow, hhigh, hpast, hself⟩ := hrec
        simp only [if_true]
        exact ⟨hlow, by omega, hpast, hself⟩
      | false =>
        have hrec := ih (size - size / 2) (by omega) (base + size / 2)
          (fun j hj => hend j (by omega)) (by omega)
        obtain ⟨hlow, hhigh, hpast, hself⟩ := hrec
        simp only [Bool.false_eq_true, if_false]
        refine ⟨by omega, by omega, hpast, fun hup => ?_⟩
        rw [hself hup, hmid] at hup
        cases hup

variable {cmp : α → Ordering} {l : List α}

lemma upperAt_mono (h : l.Pairwise fun x y => cmp x = .gt → cmp y = .gt) (i j : Nat) (hij : i ≤ j)
    (hi : upperAt cmp l i = true) : upperAt cmp l j = true := by
  unfold upperAt at hi ⊢
  rcases Nat.eq_or_lt_of_le hij with rfl | hlt
  · exact hi
  · cases hj : l[j]? with
    | none => rfl
    | some y =>
      obtain ⟨hjlen, hjval⟩ := List.getElem?_eq_some_iff.mp hj
      have hilen : i < l.length := by omega
      rw [getElem?_eq_getElem hilen] at hi
      have hgt := pairwise_iff_getElem.mp h i j hilen hjlen hlt (by simpa using hi)
      rw [hjval] at hgt
      simp [hgt]

/-- What the search ends at: the last entry that is not above, or the first when all are. -/
theorem base_spec (h : l.Pairwise fun x y => cmp x = .gt → cmp y = .gt) (hne : l ≠ []) :
    ∃ x, l[narrow (upperAt cmp l) 0 l.length]? = some x ∧
      (∀ y ∈ l.drop (narrow (upperAt cmp l) 0 l.length + 1), cmp y = .gt) ∧
      (cmp x = .gt → narrow (upperAt cmp l) 0 l.length = 0) := by
  have hlen : l.length ≠ 0 := fun hzero => hne (length_eq_zero_iff.mp hzero)
  obtain ⟨-, hlt, hpast, hself⟩ := narrow_spec 0 l.length (upperAt_mono h)
    (fun j hj => by
      have hnone : l[j]? = none := getElem?_eq_none (by omega)
      rw [upperAt, hnone]) hlen
  rw [Nat.zero_add] at hlt
  refine ⟨l[narrow (upperAt cmp l) 0 l.length], getElem?_eq_getElem hlt, ?_, ?_⟩
  · intro y hy
    obtain ⟨k, hk⟩ := mem_iff_getElem?.mp hy
    rw [getElem?_drop] at hk
    have hup := hpast (narrow (upperAt cmp l) 0 l.length + 1 + k) (by omega)
    rw [upperAt, hk] at hup
    simpa using hup
  · intro hgt
    refine hself ?_
    rw [upperAt, getElem?_eq_getElem hlt]
    simp [hgt]

lemma before_of_lt (h : l.Pairwise fun x y => cmp y = .lt → cmp x = .lt) {i : Nat} {x : α}
    (hx : l[i]? = some x) (hlt : cmp x = .lt) : ∀ y ∈ l.take (i + 1), cmp y = .lt := by
  intro y hy
  obtain ⟨hi, hval⟩ := List.getElem?_eq_some_iff.mp hx
  obtain ⟨k, hk, hky⟩ := List.mem_take_iff_getElem.mp hy
  rcases Nat.eq_or_lt_of_le (Nat.le_of_lt_succ (Nat.lt_of_lt_of_le hk (Nat.min_le_left _ _)))
    with rfl | hki
  · rw [← hky, hval]
    exact hlt
  · rw [← hky]
    refine pairwise_iff_getElem.mp h k i _ hi hki ?_
    rw [hval]
    exact hlt

/-- The search finds an equal entry exactly when there is one. -/
theorem binarySearchBy_ok_iff (hup : l.Pairwise fun x y => cmp x = .gt → cmp y = .gt)
    (hlow : l.Pairwise fun x y => cmp y = .lt → cmp x = .lt) :
    (∃ i, binarySearchBy cmp l = .ok i) ↔ ∃ x ∈ l, cmp x = .eq := by
  by_cases hne : l = []
  · subst hne
    simp [binarySearchBy]
  obtain ⟨x, hx, hpast, hfirst⟩ := base_spec hup hne
  unfold binarySearchBy
  simp only [hx]
  have hsplit := take_append_drop (narrow (upperAt cmp l) 0 l.length + 1) l
  cases hcmp : cmp x with
  | eq => exact ⟨fun _ => ⟨x, mem_of_getElem? hx, hcmp⟩, fun _ => ⟨_, rfl⟩⟩
  | lt =>
    refine ⟨nofun, ?_⟩
    rintro ⟨y, hy, heq⟩
    rw [← hsplit] at hy
    rcases mem_append.mp hy with hy | hy
    · rw [before_of_lt hlow hx hcmp y hy] at heq
      cases heq
    · rw [hpast y hy] at heq
      cases heq
  | gt =>
    refine ⟨nofun, ?_⟩
    rintro ⟨y, hy, heq⟩
    have hzero := hfirst hcmp
    rw [hzero] at hpast hx
    obtain ⟨z, zs, rfl⟩ := exists_cons_of_ne_nil hne
    cases hx
    rcases mem_cons.mp hy with rfl | hy
    · rw [hcmp] at heq
      cases heq
    · rw [hpast y hy] at heq
      cases heq

lemma binarySearchBy_eq_ok {i : Nat} (h : binarySearchBy cmp l = .ok i) :
    ∃ x, l[i]? = some x ∧ cmp x = .eq := by
  unfold binarySearchBy at h
  cases hx : l[narrow (upperAt cmp l) 0 l.length]? with
  | none => simp [hx] at h
  | some x =>
    simp only [hx] at h
    cases hcmp : cmp x with
    | eq =>
      rw [hcmp] at h
      cases h
      exact ⟨x, hx, hcmp⟩
    | lt => simp [hcmp] at h
    | gt => simp [hcmp] at h

/-- On a list whose entries with the property come first, the cut is their number. -/
theorem partitionPoint_eq {p : α → Bool} (h : l.Pairwise fun x y => p y = true → p x = true) :
    partitionPoint p l = (l.takeWhile p).length := by
  let cmp : α → Ordering := fun x => if p x then .lt else .gt
  have hgt : ∀ x, cmp x = .gt ↔ p x = false := by
    intro x
    cases hp : p x <;> simp [cmp, hp]
  have hlt : ∀ x, cmp x = .lt ↔ p x = true := by
    intro x
    cases hp : p x <;> simp [cmp, hp]
  have hup : l.Pairwise fun x y => cmp x = .gt → cmp y = .gt := by
    refine h.imp fun {x y} hxy hx => ?_
    rw [hgt] at hx ⊢
    cases hy : p y with
    | false => rfl
    | true =>
      rw [hxy hy] at hx
      cases hx
  have hlow : l.Pairwise fun x y => cmp y = .lt → cmp x = .lt := by
    refine h.imp fun {x y} hxy hy => ?_
    rw [hlt] at hy ⊢
    exact hxy hy
  change (match binarySearchBy cmp l with
    | .ok i => i
    | .error i => i) = _
  by_cases hne : l = []
  · subst hne
    simp [binarySearchBy]
  obtain ⟨x, hx, hpast, hfirst⟩ := base_spec hup hne
  unfold binarySearchBy
  simp only [hx]
  cases hp : p x with
  | true =>
    rw [(hlt x).mpr hp]
    have hbefore := before_of_lt hlow hx ((hlt x).mpr hp)
    generalize narrow (upperAt cmp l) 0 l.length = base at hx hpast hbefore ⊢
    obtain ⟨hlen, -⟩ := List.getElem?_eq_some_iff.mp hx
    have hcut : l.takeWhile p = l.take (base + 1) := by
      conv_lhs => rw [← take_append_drop (base + 1) l]
      rw [takeWhile_append_of_pos fun y hy => (hlt y).mp (hbefore y hy)]
      cases hdrop : l.drop (base + 1) with
      | nil => simp
      | cons y ys =>
        have hy := (hgt y).mp (hpast y (by rw [hdrop]; exact mem_cons_self))
        simp [hy]
    rw [hcut, length_take, Nat.min_eq_left hlen]
  | false =>
    rw [(hgt x).mpr hp]
    have hzero := hfirst ((hgt x).mpr hp)
    rw [hzero] at hx ⊢
    obtain ⟨z, zs, rfl⟩ := exists_cons_of_ne_nil hne
    cases hx
    simp [hp]

lemma getElem?_partitionPoint {p : α → Bool} (h : l.Pairwise fun x y => p y = true → p x = true) :
    l[partitionPoint p l]? = (l.dropWhile p).head? := by
  rw [partitionPoint_eq h]
  clear h
  induction l with
  | nil => rfl
  | cons x l ih =>
    cases hx : p x with
    | true => simpa [hx] using ih
    | false => simp [hx]

end Bisect
