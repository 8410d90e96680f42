import Mathlib.Tactic.Common

/-!
# The outcomes of a program whose steps may end in several ways

A program is the set of what it can end with: values or errors. `Always` says that it ends, only
with values, and only with those that have a property.
-/

def Outcomes (E α : Type) := Except E α → Prop

namespace Outcomes

variable {E α β : Type}

variable {post : α → Prop} {x : Outcomes E α}

protected def pure (a : α) : Outcomes E α := fun r => r = .ok a

protected def bind (x : Outcomes E α) (f : α → Outcomes E β) : Outcomes E β := fun r =>
  (∃ e, x (.error e) ∧ r = .error e) ∨ ∃ a, x (.ok a) ∧ f a r

instance : Monad (Outcomes E) where
  pure := Outcomes.pure
  bind := Outcomes.bind

/-- A step that ends in one way. -/
def ofExcept (x : Except E α) : Outcomes E α := fun r => r = x

/-- The program ends, and always with a value that has the property. -/
def Always (x : Outcomes E α) (post : α → Prop) : Prop :=
  (∃ r, x r) ∧ ∀ r, x r → ∃ a, r = .ok a ∧ post a

lemma always_pure {a : α} (h : post a) : Always (pure a : Outcomes E α) post :=
  ⟨⟨_, rfl⟩, fun _ hr => ⟨a, hr, h⟩⟩

lemma always_ofExcept {x : Except E α} {a : α} (hx : x = .ok a) (h : post a) :
    Always (ofExcept x) post :=
  ⟨⟨_, rfl⟩, fun _ hr => ⟨a, hr.trans hx, h⟩⟩

lemma always_bind {f : α → Outcomes E β} {mid : α → Prop} {post : β → Prop} (hx : Always x mid)
    (hf : ∀ a, mid a → Always (f a) post) : Always (x >>= f) post := by
  obtain ⟨⟨r, hr⟩, hall⟩ := hx
  constructor
  · obtain ⟨a, rfl, ha⟩ := hall r hr
    obtain ⟨r', hr'⟩ := (hf a ha).1
    exact ⟨r', .inr ⟨a, hr, hr'⟩⟩
  · rintro r' (⟨e, he, rfl⟩ | ⟨a, ha, hr'⟩)
    · obtain ⟨a, ha, -⟩ := hall _ he
      cases ha
    · obtain ⟨a', heq, hmid⟩ := hall _ ha
      cases heq
      exact (hf a hmid).2 r' hr'

lemma Always.imp {post' : α → Prop} (h : Always x post) (himp : ∀ a, post a → post' a) :
    Always x post' := by
  refine ⟨h.1, fun r hr => ?_⟩
  obtain ⟨a, ha, hpost⟩ := h.2 r hr
  exact ⟨a, ha, himp a hpost⟩

/-- Every value the program can end with has the property. -/
def Returns (x : Outcomes E α) (post : α → Prop) : Prop := ∀ a, x (.ok a) → post a

lemma returns_pure {a : α} (h : post a) : Returns (pure a : Outcomes E α) post := by
  intro b hb
  cases hb
  exact h

lemma returns_ofExcept {x : Except E α} (h : ∀ a, x = .ok a → post a) :
    Returns (ofExcept x) post := fun a ha => h a (Eq.symm ha)

lemma returns_bind {f : α → Outcomes E β} {mid : α → Prop} {post : β → Prop}
    (hx : Returns x mid) (hf : ∀ a, mid a → Returns (f a) post) : Returns (x >>= f) post := by
  rintro b (⟨e, -, hb⟩ | ⟨a, ha, hb⟩)
  · cases hb
  · exact hf a (hx a ha) b hb

/-- A loop over a list, for a judgement that pure programs and sequencing keep: `inv` of the items
done and of the value. -/
theorem judged_foldlM {γ : Type} {judge : Outcomes E β → (β → Prop) → Prop}
    {f : β → γ → Outcomes E β} {inv : List γ → β → Prop} {cs : List γ} {init : β}
    (hpure : ∀ {b : β} {post : β → Prop}, post b → judge (pure b) post)
    (hbind : ∀ {x : Outcomes E β} {g : β → Outcomes E β} {mid post : β → Prop}, judge x mid →
      (∀ b, mid b → judge (g b) post) → judge (x >>= g) post) (hinit : inv [] init)
    (hstep : ∀ (done rest : List γ) (c : γ), cs = done ++ c :: rest → ∀ acc, inv done acc →
      judge (f acc c) (inv (done ++ [c]))) : judge (cs.foldlM f init) (inv cs) := by
  have hgen : ∀ (rest done : List γ) acc, cs = done ++ rest → inv done acc →
      judge (rest.foldlM f acc) (inv cs) := by
    intro rest
    induction rest with
    | nil =>
      intro done acc hcs hinv
      rw [hcs, List.append_nil]
      exact hpure hinv
    | cons c rest ih =>
      intro done acc hcs hinv
      rw [List.foldlM_cons]
      refine hbind (hstep done rest c hcs acc hinv) fun acc' hinv' => ?_
      exact ih (done ++ [c]) acc' (by simpa using hcs) hinv'
  exact hgen cs [] init rfl hinit

lemma returns_foldlM {γ : Type} {f : β → γ → Outcomes E β} {inv : List γ → β → Prop}
    {cs : List γ} {init : β} (hinit : inv [] init)
    (hstep : ∀ (done rest : List γ) (c : γ), cs = done ++ c :: rest → ∀ acc, inv done acc →
      Returns (f acc c) (inv (done ++ [c]))) : Returns (cs.foldlM f init) (inv cs) :=
  judged_foldlM returns_pure returns_bind hinit hstep

lemma Always.returns (h : Always x post) : Returns x post := by
  intro a ha
  obtain ⟨b, hb, hpost⟩ := h.2 _ ha
  cases hb
  exact hpost

lemma always_foldlM {γ : Type} {f : β → γ → Outcomes E β} {inv : List γ → β → Prop}
    {cs : List γ} {init : β} (hinit : inv [] init)
    (hstep : ∀ (done rest : List γ) (c : γ), cs = done ++ c :: rest → ∀ acc, inv done acc →
      Always (f acc c) (inv (done ++ [c]))) : Always (cs.foldlM f init) (inv cs) :=
  judged_foldlM always_pure always_bind hinit hstep

end Outcomes
