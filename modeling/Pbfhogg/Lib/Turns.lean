import Mathlib.Data.List.Basic

/-!
# Loops of turns

A loop whose body either goes on with a new state or leaves with a result, and a measure that every
turn that goes on brings down. What a turn keeps holds in every state the loop passes through.
-/

namespace Turns

universe u v
variable {σ : Type u} {ρ : Type v}

inductive Turn (σ : Type u) (ρ : Type v)
  | next (s : σ)
  | done (r : ρ)

/-- The loop. -/
def run (turn : σ → Turn σ ρ) (measure : σ → Nat)
    (decreases : ∀ s s', turn s = .next s' → measure s' < measure s) (s : σ) : ρ :=
  match _h : turn s with
  | .next s' => run turn measure decreases s'
  | .done r => r
termination_by measure s
decreasing_by exact decreases _ _ _h

/-- The states after `n` turns. -/
inductive Reaches (turn : σ → Turn σ ρ) (s : σ) : Nat → σ → Prop
  | start : Reaches turn s 0 s
  | step {n : Nat} {t t' : σ} : Reaches turn s n t → turn t = .next t' → Reaches turn s (n + 1) t'

variable {turn : σ → Turn σ ρ} {measure : σ → Nat}
  {decreases : ∀ s s', turn s = .next s' → measure s' < measure s}

lemma run_of_next {s s' : σ} (h : turn s = .next s') :
    run turn measure decreases s = run turn measure decreases s' := by
  rw [run]
  split
  · next t ht =>
    rw [h, Turn.next.injEq] at ht
    rw [ht]
  · next r hr =>
    rw [h] at hr
    cases hr

lemma run_of_done {s : σ} {r : ρ} (h : turn s = .done r) : run turn measure decreases s = r := by
  rw [run]
  split
  · next t ht =>
    rw [h] at ht
    cases ht
  · next r' hr =>
    rw [h, Turn.done.injEq] at hr
    exact hr.symm

/-- No run has more turns than the measure allows. -/
lemma Reaches.le (decreases : ∀ s s', turn s = .next s' → measure s' < measure s) {s t : σ}
    {n : Nat} (h : Reaches turn s n t) : measure t + n ≤ measure s := by
  induction h with
  | start => exact Nat.le_refl _
  | step _ hstep ih =>
    have hdown := decreases _ _ hstep
    omega

/-- A turn goes on with what it found kept, or leaves with what is wanted. -/
def Leads (turn : σ → Turn σ ρ) (Inv : σ → Prop) (Out : ρ → Prop) : Prop :=
  ∀ s, Inv s → (∃ s', turn s = .next s' ∧ Inv s') ∨ ∃ r, turn s = .done r ∧ Out r

/-- What every turn keeps holds in every state reached. -/
lemma Leads.reached {Inv : σ → Prop} {Out : ρ → Prop} (hleads : Leads turn Inv Out) {s t : σ}
    {n : Nat} (h : Reaches turn s n t) (hstart : Inv s) : Inv t := by
  induction h with
  | start => exact hstart
  | step _ hstep ih =>
    rcases hleads _ ih with ⟨s', hs', hkept⟩ | ⟨r, hr, -⟩
    · rw [hstep, Turn.next.injEq] at hs'
      rw [hs']
      exact hkept
    · rw [hstep] at hr
      cases hr

/-- The result of a loop follows from what every turn keeps. -/
lemma Leads.run {Inv : σ → Prop} {Out : ρ → Prop} (hleads : Leads turn Inv Out) {s : σ}
    (hstart : Inv s) : Out (run turn measure decreases s) := by
  induction hn : measure s using Nat.strongRecOn generalizing s with
  | _ n ih =>
    rcases hleads _ hstart with ⟨s', hs', hkept⟩ | ⟨r, hr, hout⟩
    · rw [run_of_next hs']
      have hdown := decreases _ _ hs'
      exact ih (measure s') (by omega) hkept rfl
    · rw [run_of_done hr]
      exact hout

end Turns
