import Mathlib.Data.List.Range

/-!
# Fallible computations

Reading the steps of a computation in `Except` back out of its success.
-/

namespace Fallible

open List

universe u v
variable {ε : Type u} {α β : Type v}

variable {γ : Type v} {x : Except ε α} {f : α → Except ε β} {xs : List α}

/-- A sequence succeeds exactly when its first step does and the rest does on
what that step gave. -/
lemma bind_eq_ok {b : β} : (x >>= f) = .ok b ↔ ∃ a, x = .ok a ∧ f a = .ok b := by
  cases x with
  | error | ok => simp [bind, Except.bind]

lemma bind_eq_error {e : ε} :
    (x >>= f) = .error e ↔ x = .error e ∨ ∃ a, x = .ok a ∧ f a = .error e := by
  cases x with
  | error | ok => simp [bind, Except.bind]

@[simp] lemma ok_bind (a : α) (f : α → Except ε β) : ((.ok a : Except ε α) >>= f) = f a := rfl

@[simp] lemma error_bind (e : ε) (f : α → Except ε β) :
    ((.error e : Except ε α) >>= f) = .error e := rfl

lemma ok_of_toOption {a : α} (h : x.toOption = some a) : x = .ok a := by
  cases x with
  | error e => cases h
  | ok b =>
    cases h
    rfl

lemma map_eq_ok {f : α → β} {b : β} : x.map f = .ok b ↔ ∃ a, x = .ok a ∧ b = f a := by
  cases x with
  | error e => simp [Except.map]
  | ok a => simp [Except.map, eq_comm]

lemma map_map (x : Except ε α) (f : α → β) (g : β → γ) :
    (x.map f).map g = x.map fun a => g (f a) := by
  cases x <;> rfl

/-- A sequence seen through what it gives, step by step. -/
lemma map_bind {δ : Type v} {y : Except ε β} {p : α → β} {f : α → Except ε γ} {g : β → Except ε δ}
    {q : γ → δ} (hx : x.map p = y) (hf : ∀ a, (f a).map q = g (p a)) :
    (x >>= f).map q = y >>= g := by
  subst hx
  cases x with
  | error e => rfl
  | ok a => exact hf a

lemma map_bind_same {δ : Type v} {f : α → Except ε γ} {g : α → Except ε δ} {q : γ → δ}
    (hf : ∀ a, (f a).map q = g a) : (x >>= f).map q = x >>= g := by
  cases x with
  | error e => rfl
  | ok a => exact hf a

lemma mapError_eq_ok {ε' : Type u} {f : ε → ε'} {a : α} : x.mapError f = .ok a ↔ x = .ok a := by
  cases x with
  | error e => simp [Except.mapError]
  | ok b => simp [Except.mapError]

lemma mapM_cons_ok {x : α} {ys : List β} :
    (x :: xs).mapM f = .ok ys ↔ ∃ y zs, f x = .ok y ∧ xs.mapM f = .ok zs ∧ ys = y :: zs := by
  rw [mapM_cons, bind_eq_ok]
  constructor
  · rintro ⟨y, hy, h⟩
    obtain ⟨zs, hzs, h⟩ := bind_eq_ok.mp h
    cases h
    exact ⟨y, zs, hy, hzs, rfl⟩
  · rintro ⟨y, zs, hy, hzs, rfl⟩
    exact ⟨y, hy, bind_eq_ok.mpr ⟨zs, hzs, rfl⟩⟩

lemma mapM_eq_ok {ys : List β} : xs.mapM f = .ok ys ↔ xs.map f = ys.map .ok := by
  induction xs generalizing ys with
  | nil => cases ys <;> simp [pure, Except.pure]
  | cons x xs ih =>
    rw [mapM_cons_ok]
    constructor
    · rintro ⟨y, zs, hy, hzs, rfl⟩
      rw [map_cons, map_cons, hy, ih.mp hzs]
    · intro h
      cases ys with
      | nil => simp at h
      | cons y zs =>
        rw [map_cons, map_cons] at h
        obtain ⟨hy, hzs⟩ := cons.inj h
        exact ⟨y, zs, hy, ih.mpr hzs, rfl⟩

lemma mapM_of_mem_ok (h : ∀ x ∈ xs, ∃ y, f x = .ok y) : ∃ ys, xs.mapM f = .ok ys := by
  induction xs with
  | nil => exact ⟨[], rfl⟩
  | cons x xs ih =>
    obtain ⟨y, hy⟩ := h x mem_cons_self
    obtain ⟨zs, hzs⟩ := ih fun z hz => h z (mem_cons_of_mem _ hz)
    exact ⟨y :: zs, mapM_cons_ok.mpr ⟨y, zs, hy, hzs, rfl⟩⟩

lemma mapM_eq_map {g : α → β} (h : ∀ x ∈ xs, f x = .ok (g x)) : xs.mapM f = .ok (xs.map g) := by
  rw [mapM_eq_ok, List.map_map]
  exact List.map_congr_left h

lemma mapM_congr {g : α → Except ε β} (h : ∀ x ∈ xs, f x = g x) : xs.mapM f = xs.mapM g := by
  induction xs with
  | nil => rfl
  | cons x xs ih =>
    rw [mapM_cons, mapM_cons, h x mem_cons_self,
      ih fun y hy => h y (mem_cons_of_mem x hy)]

/-- A list of lists worked through list by list. -/
lemma mapM_flatMap {ι : Type v} {g : ι → List α} (xs : List ι) :
    (do return (← xs.mapM fun x => (g x).mapM f).flatten) = (xs.flatMap g).mapM f := by
  induction xs with
  | nil => rfl
  | cons x xs ih =>
    rw [flatMap_cons, mapM_append, ← ih, mapM_cons]
    cases (g x).mapM f with
    | error e => rfl
    | ok us =>
      cases xs.mapM fun x => (g x).mapM f with
      | error e => rfl
      | ok vs => rfl

/-- Steps that all succeed, and a second computation that is known on each. -/
lemma map_eq_ok_of {parse : α → Except ε β} {out : List β} (h : xs.map parse = out.map .ok)
    {run : α → Except ε γ} {f : β → γ} (hrun : ∀ x ∈ xs, ∀ b, parse x = .ok b → run x = .ok (f b)) :
    xs.map run = (out.map f).map .ok := by
  induction xs generalizing out with
  | nil =>
    cases out with
    | nil => rfl
    | cons _ _ => simp at h
  | cons x xs ih =>
    cases out with
    | nil => simp at h
    | cons b out =>
      obtain ⟨hb, hrest⟩ := cons.inj h
      rw [forall_mem_cons] at hrun
      rw [map_cons, hrun.1 b hb, ih hrest hrun.2]
      rfl

lemma mem_of_map_eq_ok {parse : α → Except ε β} {out : List β} (h : xs.map parse = out.map .ok)
    {b : β} (hb : b ∈ out) : ∃ x ∈ xs, parse x = .ok b := by
  have hmem : Except.ok b ∈ xs.map parse := by
    rw [h]
    exact mem_map_of_mem hb
  exact mem_map.mp hmem

/-- A fold whose steps check their item and go on from the state alone. -/
lemma foldlM_eq_ok {f : α → β → Except ε α} {g : α → β → α} {P : β → Prop} {xs : List β}
    (hf : ∀ x ∈ xs, ∀ a r, f a x = .ok r ↔ P x ∧ r = g a x) (a r : α) :
    xs.foldlM f a = .ok r ↔ (∀ x ∈ xs, P x) ∧ r = xs.foldl g a := by
  induction xs generalizing a with
  | nil => simp [pure, Except.pure, eq_comm]
  | cons x xs ih =>
    have ih := ih fun y hy => hf y (mem_cons_of_mem x hy)
    rw [foldlM_cons, bind_eq_ok, forall_mem_cons, foldl_cons]
    constructor
    · rintro ⟨b, hb, hrest⟩
      obtain ⟨hx, rfl⟩ := (hf x mem_cons_self a b).mp hb
      obtain ⟨hall, rfl⟩ := (ih _).mp hrest
      exact ⟨⟨hx, hall⟩, rfl⟩
    · rintro ⟨⟨hx, hall⟩, rfl⟩
      exact ⟨g a x, (hf x mem_cons_self a _).mpr ⟨hx, rfl⟩, (ih _).mpr ⟨hall, rfl⟩⟩

/-- A fold over lists, list by list. -/
lemma foldlM_flatten {f : α → β → Except ε α} (xss : List (List β)) (a : α) :
    xss.flatten.foldlM f a = xss.foldlM (fun a xs => xs.foldlM f a) a := by
  induction xss generalizing a with
  | nil => rfl
  | cons xs xss ih =>
    rw [flatten_cons, foldlM_append, foldlM_cons]
    exact bind_congr fun b => ih b

/-- The first failure among numbered steps. -/
lemma findSome_range_eq {n k : Nat} {g : Nat → Option ε} {e : ε} (hk : k < n)
    (hlow : ∀ j, j < k → g j = none) (hg : g k = some e) : (range n).findSome? g = some e := by
  have hsplit : range n = range k ++ (k :: (range' (k + 1) (n - (k + 1)))) := by
    have hn : n = k + ((n - (k + 1)) + 1) := by omega
    conv_lhs => rw [hn]
    rw [range_add, range'_eq_map_range, range_succ_eq_map, map_cons, List.map_map, Nat.add_zero]
    congr 2
    apply map_congr_left
    intro j _
    simp only [Function.comp_apply]
    omega
  have hnone : (range k).findSome? g = none := by
    rw [findSome?_eq_none_iff]
    intro j hj
    exact hlow j (mem_range.mp hj)
  rw [hsplit, findSome?_append, hnone, findSome?_cons, hg]
  rfl

end Fallible
