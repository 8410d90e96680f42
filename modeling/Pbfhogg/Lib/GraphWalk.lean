import Mathlib.Data.List.Basic

/-!
# Walking a stored graph

The edges of a vertex in a store sorted by them, and the walk that takes vertices off a stack,
enters each at most once and puts its children on the stack.
-/

namespace GraphWalk

open List

/-- Where the entries below a key stand before those at it, and these before all others, the run
behind the first are the second. -/
theorem takeWhile_dropWhile_eq_filter {α : Type} {below at_ : α → Bool} {l : List α}
    (hdisjoint : ∀ a, below a = true → at_ a = false) (h : l.Pairwise fun a b =>
      (below b = true → below a = true) ∧ (at_ b = true → below a = true ∨ at_ a = true)) :
    (l.dropWhile below).takeWhile at_ = l.filter at_ := by
  induction l with
  | nil => rfl
  | cons a l ih =>
    obtain ⟨hfirst, hrest⟩ := pairwise_cons.mp h
    have ih := ih hrest
    by_cases hbelow : below a = true
    · have hat : ¬ at_ a = true := by
        rw [hdisjoint a hbelow]
        exact Bool.false_ne_true
      rw [dropWhile_cons_of_pos hbelow, ih, filter_cons_of_neg hat]
    · -- Nothing that follows is below the key.
      have hkeep : l.dropWhile below = l := by
        cases l with
        | nil => rfl
        | cons b l =>
          exact dropWhile_cons_of_neg fun hb =>
            hbelow ((hfirst b mem_cons_self).1 hb)
      rw [hkeep] at ih
      rw [dropWhile_cons_of_neg hbelow]
      by_cases hat : at_ a = true
      · rw [takeWhile_cons_of_pos hat, filter_cons_of_pos hat, ih]
      · rw [takeWhile_cons_of_neg hat, filter_eq_nil_iff.mpr]
        intro b hb hatb
        rcases mem_cons.mp hb with rfl | hb
        · exact hat hatb
        · rcases (hfirst b hb).2 hatb with h1 | h1
          · exact hbelow h1
          · exact hat h1

section

variable {α σ : Type}

/-- Takes vertices off the stack. `enter` says whether a vertex is new, and marks it. -/
def walk (enter : σ → α → Option σ) (children : α → List α) : Nat → List α → σ → Option σ
  | 0, _, _ => none
  | _ + 1, [], s => some s
  | fuel + 1, x :: stack, s =>
    match enter s x with
    | none => walk enter children fuel stack s
    | some s' => walk enter children fuel ((children x).reverse ++ stack) s'

/-- What is reached from the seeds over admissible vertices. -/
inductive Reach (ok : α → Prop) (children : α → List α) (seeds : α → Prop) : α → Prop where
  | seed {x : α} (hx : seeds x) (hok : ok x) : Reach ok children seeds x
  | child {p x : α} (hp : Reach ok children seeds p) (hx : x ∈ children p) (hok : ok x) :
      Reach ok children seeds x

/-- `enter` takes the admissible vertices that are not marked, and marks them. -/
structure Enters (enter : σ → α → Option σ) (ok : α → Prop) (mem : σ → α → Bool)
    (I : σ → Prop) : Prop where
  skips : ∀ s x, I s → (enter s x = none ↔ ¬ ok x ∨ mem s x = true)
  keeps : ∀ s x s', I s → enter s x = some s' → I s'
  marks : ∀ s x s', I s → enter s x = some s' → ∀ y, mem s' y = true ↔ mem s y = true ∨ y = x

variable {enter : σ → α → Option σ} {children : α → List α} {ok : α → Prop}
  {mem : σ → α → Bool} {I : σ → Prop} {seeds : α → Prop}

/-- Halfway: what is marked or waits is reached, and what is reached in one step is marked or
waits. -/
structure Halfway (ok : α → Prop) (children : α → List α) (seeds : α → Prop) (mem : σ → α → Bool)
    (stack : List α) (s : σ) : Prop where
  marked : ∀ x, mem s x = true → Reach ok children seeds x
  waiting : ∀ x ∈ stack, ok x → Reach ok children seeds x
  seeded : ∀ x, seeds x → ok x → mem s x = true ∨ x ∈ stack
  followed : ∀ p x, mem s p = true → x ∈ children p → ok x → mem s x = true ∨ x ∈ stack

variable {stack : List α}

lemma Halfway.skip {x : α} {s : σ} (h : Halfway ok children seeds mem (x :: stack) s)
    (hskip : ¬ ok x ∨ mem s x = true) : Halfway ok children seeds mem stack s := by
  have hdrop : ∀ y, ok y → mem s y = true ∨ y ∈ x :: stack → mem s y = true ∨ y ∈ stack := by
    intro y hok hy
    rcases hy with hy | hy
    · exact .inl hy
    · rcases mem_cons.mp hy with rfl | hy
      · exact .inl (hskip.resolve_left (not_not_intro hok))
      · exact .inr hy
  exact ⟨h.marked, fun y hy => h.waiting y (mem_cons_of_mem x hy),
    fun y hy hok => hdrop y hok (h.seeded y hy hok),
    fun p y hp hy hok => hdrop y hok (h.followed p y hp hy hok)⟩

lemma Halfway.entered {x : α} {s s' : σ} (h : Halfway ok children seeds mem (x :: stack) s)
    (hok : ok x) (hmarks : ∀ y, mem s' y = true ↔ mem s y = true ∨ y = x) :
    Halfway ok children seeds mem ((children x).reverse ++ stack) s' := by
  have hx : Reach ok children seeds x := h.waiting x mem_cons_self hok
  have hmove : ∀ y, mem s y = true ∨ y ∈ x :: stack →
      mem s' y = true ∨ y ∈ (children x).reverse ++ stack := by
    intro y hy
    rcases hy with hy | hy
    · exact .inl ((hmarks y).mpr (.inl hy))
    · rcases mem_cons.mp hy with rfl | hy
      · exact .inl ((hmarks y).mpr (.inr rfl))
      · exact .inr (mem_append_right _ hy)
  refine ⟨fun y hy => ?_, fun y hy hoky => ?_, fun y hy hoky => hmove y (h.seeded y hy hoky),
    fun p y hp hy hoky => ?_⟩
  · rcases (hmarks y).mp hy with hy | rfl
    · exact h.marked y hy
    · exact hx
  · rcases mem_append.mp hy with hy | hy
    · exact .child hx (mem_reverse.mp hy) hoky
    · exact h.waiting y (mem_cons_of_mem x hy) hoky
  · rcases (hmarks p).mp hp with hp | rfl
    · exact hmove y (h.followed p y hp hy hoky)
    · exact .inr (mem_append_left _ (mem_reverse.mpr hy))

/-- With nothing left on the stack exactly what is reached is marked. -/
theorem Halfway.done {s : σ} (h : Halfway ok children seeds mem [] s) (x : α) :
    mem s x = true ↔ Reach ok children seeds x := by
  constructor
  · exact h.marked x
  · intro hx
    induction hx with
    | seed hx hok => exact (h.seeded _ hx hok).resolve_right not_mem_nil
    | child hp hx hok ih => exact (h.followed _ _ ih hx hok).resolve_right not_mem_nil

/-- The edges whose parent is not marked. -/
def ahead (mem : σ → α → Bool) (parents : List α) (s : σ) : Nat :=
  parents.countP fun p => !mem s p

lemma ahead_le (mem : σ → α → Bool) (parents : List α) (s : σ) : ahead mem parents s ≤ parents.length :=
  countP_le_length

lemma ahead_enter [DecidableEq α] (parents : List α) {x : α} {s s' : σ}
    (hnew : mem s x = false) (hmarks : ∀ y, mem s' y = true ↔ mem s y = true ∨ y = x) :
    ahead mem parents s' + parents.count x = ahead mem parents s := by
  unfold ahead count
  induction parents with
  | nil => rfl
  | cons p parents ih =>
    simp only [countP_cons]
    by_cases hp : p = x
    · subst hp
      have h1 : mem s' p = true := (hmarks p).mpr (.inr rfl)
      simp only [h1, hnew, Bool.not_true, Bool.not_false, beq_self_eq_true, if_true,
        Bool.false_eq_true, if_false]
      omega
    · have h2 : mem s' p = mem s p := by
        rw [Bool.eq_iff_iff, hmarks]
        simp [hp]
      have h3 : (p == x) = false := beq_eq_false_iff_ne.mpr hp
      simp only [h2, h3, Bool.false_eq_true, if_false]
      omega

/-- A walk with enough fuel ends. Every turn takes a vertex off the stack, and those it puts on it
stand for edges that were ahead. -/
theorem walk_ends [DecidableEq α] (henter : Enters enter ok mem I) {parents : List α}
    (hparents : ∀ x, (children x).length ≤ parents.count x) :
    ∀ (fuel : Nat) (stack : List α) (s : σ), I s → stack.length + ahead mem parents s < fuel →
      ∃ s', walk enter children fuel stack s = some s' := by
  intro fuel
  induction fuel with
  | zero =>
    intro stack s _ hfuel
    omega
  | succ fuel ih =>
    intro stack s hs hfuel
    cases stack with
    | nil => exact ⟨s, rfl⟩
    | cons x stack =>
      rw [length_cons] at hfuel
      unfold walk
      cases hx : enter s x with
      | none => exact ih stack s hs (by omega)
      | some s' =>
        have hnew : mem s x = false := by
          rw [Bool.eq_false_iff]
          intro hmem
          rw [(henter.skips s x hs).mpr (.inr hmem)] at hx
          cases hx
        have hahead := ahead_enter parents hnew (henter.marks s x s' hs hx)
        have hlen := hparents x
        refine ih _ s' (henter.keeps s x s' hs hx) ?_
        rw [length_append, length_reverse]
        omega

/-- Where a walk ends it has marked what is reached. -/
theorem walk_halfway (henter : Enters enter ok mem I) :
    ∀ (fuel : Nat) (stack : List α) (s s' : σ), I s → Halfway ok children seeds mem stack s →
      walk enter children fuel stack s = some s' →
        I s' ∧ ∀ x, mem s' x = true ↔ Reach ok children seeds x := by
  intro fuel
  induction fuel with
  | zero =>
    intro stack s s' _ _ h
    cases h
  | succ fuel ih =>
    intro stack s s' hs hhalf h
    cases stack with
    | nil =>
      cases h
      exact ⟨hs, hhalf.done⟩
    | cons x stack =>
      unfold walk at h
      cases hx : enter s x with
      | none =>
        rw [hx] at h
        exact ih stack s s' hs (hhalf.skip ((henter.skips s x hs).mp hx)) h
      | some t =>
        rw [hx] at h
        have hok : ok x := by
          by_contra hok
          rw [(henter.skips s x hs).mpr (.inl hok)] at hx
          cases hx
        exact ih _ t s' (henter.keeps s x t hs hx) (hhalf.entered hok (henter.marks s x t hs hx)) h

lemma halfway_start {s : σ} (hempty : ∀ x, mem s x = false) :
    Halfway ok children (· ∈ stack) mem stack s := by
  have hnone : ∀ x, ¬ mem s x = true := fun x => by
    rw [hempty]
    exact Bool.false_ne_true
  exact ⟨fun x hx => absurd hx (hnone x), fun x hx hok => .seed hx hok, fun x hx _ => .inr hx,
    fun p x hp => absurd hp (hnone p)⟩

end

end GraphWalk
