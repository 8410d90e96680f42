import Mathlib.Data.List.Basic

/-!
# What a fold gathers

A fold whose steps each add the same to what a state holds.
-/

namespace Gather

variable {σ β ι : Type}

variable {f : σ → β → σ}

/-- What is held in the end was held at the start or came with one of the items. -/
theorem foldl_iff {P : σ → ι → Prop} {Q : β → ι → Prop}
    (hstep : ∀ s b x, P (f s b) x ↔ P s x ∨ Q b x) :
    ∀ (l : List β) (s : σ) (x : ι), P (l.foldl f s) x ↔ P s x ∨ ∃ b ∈ l, Q b x := by
  intro l
  induction l with
  | nil => simp
  | cons b l ih =>
    intro s x
    rw [List.foldl_cons, ih, hstep, List.exists_mem_cons_iff, or_assoc]

/-- What no step touches stays. -/
theorem foldl_keeps {γ : Type} {g : σ → γ} (hstep : ∀ s b, g (f s b) = g s) :
    ∀ (l : List β) (s : σ), g (l.foldl f s) = g s := by
  intro l
  induction l with
  | nil => exact fun _ => rfl
  | cons b l ih => exact fun s => (ih (f s b)).trans (hstep s b)

/-- What every step keeps holds in the end. -/
theorem foldl_invariant {I : σ → Prop} (hstep : ∀ s b, I s → I (f s b)) :
    ∀ (l : List β) (s : σ), I s → I (l.foldl f s) := by
  intro l
  induction l with
  | nil => exact fun _ h => h
  | cons b l ih => exact fun s h => ih (f s b) (hstep s b h)

end Gather
