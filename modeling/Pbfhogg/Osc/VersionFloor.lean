import Mathlib.Data.Int.ConditionallyCompleteOrder
import Mathlib.Order.ConditionallyCompleteLattice.Basic
import Pbfhogg.Osc.Compact
import Mathlib.Data.List.Induction

/-!
# The version-precedence rule

`osc/version_floor.rs`: a change that claims a version is admitted unless the claim is lower than
the floor; one that claims none is always admitted and leaves the floor. Folding claims into a floor
is a maximum in the order of `claimRank`.
-/

namespace VersionFloor

open List

structure Floor where
  highest : Option Int32

def Floor.default : Floor := ⟨none⟩

def maxI32 (a b : Int32) : Int32 := if a ≤ b then b else a

variable (f : Floor) (claim : Option Int32)

/-- Refusal returns the floor the claim fell below. -/
def Floor.admits : Except Int32 Unit :=
  match claim, f.highest with
  | some claim, some floor => if claim < floor then .error floor else .ok ()
  | _, _ => .ok ()

def Floor.raise (f : Floor) (claim : Option Int32) : Floor :=
  match claim with
  | none => f
  | some claim =>
    match f.highest with
    | none => ⟨some claim⟩
    | some floor => ⟨some (maxI32 floor claim)⟩

/-- The higher of two claims, an absent one being no claim. -/
def claimMax : Option Int32 → Option Int32 → Option Int32
  | some a, some b => some (maxI32 a b)
  | some a, none => some a
  | none, b => b

def claimRank : Option Int32 → WithBot Int
  | none => ⊥
  | some v => (v.toInt : WithBot Int)

lemma claimRank_injective : Function.Injective claimRank := by
  intro a b h
  cases a with
  | none =>
    cases b with
    | none => rfl
    | some b => cases h
  | some a =>
    cases b with
    | none => cases h
    | some b => exact congrArg some (Int32.toInt_inj.mp (WithBot.coe_injective h))

@[simp] lemma claimRank_claimMax (a b : Option Int32) :
    claimRank (claimMax a b) = max (claimRank a) (claimRank b) := by
  cases a with
  | none => simp [claimMax, claimRank]
  | some a =>
    cases b with
    | none => simp [claimMax, claimRank]
    | some b =>
      simp only [claimMax, claimRank, maxI32]
      split_ifs with h <;> rw [Int32.le_iff_toInt_le] at h
      · exact (max_eq_right (WithBot.coe_le_coe.mpr h)).symm
      · exact (max_eq_left (WithBot.coe_le_coe.mpr (le_of_not_ge h))).symm

lemma claimMax_assoc (a b c : Option Int32) :
    claimMax (claimMax a b) c = claimMax a (claimMax b c) :=
  claimRank_injective (by simp [max_assoc])

lemma claimMax_comm (a b : Option Int32) : claimMax a b = claimMax b a :=
  claimRank_injective (by simp [max_comm])

variable (a : Option Int32)

@[simp] lemma claimMax_self : claimMax a a = a :=
  claimRank_injective (by simp)

@[simp] lemma claimMax_none : claimMax a none = a := by
  cases a <;> rfl

@[simp] lemma none_claimMax : claimMax none a = a := rfl

lemma claimMax_eq_right {a b : Option Int32} (h : claimRank a ≤ claimRank b) : claimMax a b = b :=
  claimRank_injective (by simp [h])

lemma raise_eq : f.raise claim = ⟨claimMax f.highest claim⟩ := by
  rcases f with ⟨_ | floor⟩ <;> cases claim <;> rfl

/-- The gate refuses exactly a claim below the floor, and names the floor. -/
lemma admits_eq_error_iff (held : Int32) : f.admits claim = .error held ↔
      f.highest = some held ∧ ∃ v, claim = some v ∧ v < held := by
  rcases f with ⟨_ | floor⟩
  · cases claim <;> simp [Floor.admits]
  · cases claim with
    | none => simp [Floor.admits]
    | some v =>
      simp only [Floor.admits, Option.some.injEq]
      split_ifs with h
      · constructor
        · intro he
          cases he
          exact ⟨rfl, v, rfl, h⟩
        · rintro ⟨rfl, _⟩
          rfl
      · constructor
        · intro he
          cases he
        · rintro ⟨rfl, w, rfl, hw⟩
          exact absurd hw h

lemma admits_eq_ok_iff : f.admits claim = .ok () ↔
      ∀ v held, claim = some v → f.highest = some held → ¬ v < held := by
  rcases f with ⟨_ | floor⟩ <;> cases claim <;> simp [Floor.admits]

/-- An admitted claim is the new maximum. -/
lemma claimMax_of_admits {f : Floor} {v : Int32} (h : f.admits (some v) = .ok ()) :
    claimMax f.highest (some v) = some v := by
  apply claimMax_eq_right
  cases hf : f.highest with
  | none => exact bot_le
  | some held =>
    have hle := (admits_eq_ok_iff f (some v)).mp h v held rfl hf
    rw [Int32.lt_iff_toInt_lt] at hle
    exact WithBot.coe_le_coe.mpr (le_of_not_gt hle)

/-! ## The first regression of a history

A history is a list of items, each about an object and with an optional claim.
An item regresses when its claim is below the highest claim of the earlier items
about its object. -/

section History

universe u v
variable {α : Type u} {β : Type v} [DecidableEq β] (object : α → β) (claim : α → Option Int32)

def highest (history : List α) (x : β) : Option Int32 :=
  history.foldl (fun h a => if object a = x then claimMax h (claim a) else h) none

/-- The first item that regresses behind `seen`, its claim and the version held. -/
def firstRegression : List α → List α → Option (α × Int32 × Int32)
  | _, [] => none
  | seen, a :: rest =>
    match claim a, (Floor.mk (highest object claim seen (object a))).admits (claim a) with
    | some v, .error held => some (a, v, held)
    | _, _ => firstRegression (seen ++ [a]) rest

def Regresses (seen : List α) (a : α) (v held : Int32) : Prop :=
  claim a = some v ∧ highest object claim seen (object a) = some held ∧ v < held

variable (seen l : List α)

/-- No item of the list regresses behind `seen` and the items before it. -/
def Clean : Prop :=
  ∀ pre a post v held, l = pre ++ a :: post → ¬ Regresses object claim (seen ++ pre) a v held

lemma highest_append (l : List α) (a : α) (x : β) :
    highest object claim (l ++ [a]) x =
      if object a = x then claimMax (highest object claim l x) (claim a)
      else highest object claim l x := by
  simp [highest, foldl_append]

/-- Only the items about the object count. -/
lemma highest_filter (l : List α) (x : β) :
    highest object claim (l.filter (object · = x)) x = highest object claim l x := by
  induction l using reverseRecOn with
  | nil => rfl
  | append_singleton l a ih =>
    rw [filter_append, highest_append]
    by_cases h : object a = x
    · rw [filter_singleton, decide_eq_true h, if_pos h]
      simp only [cond_true]
      rw [highest_append, if_pos h, ih]
    · rw [filter_singleton, decide_eq_false h, if_neg h]
      simpa using ih

lemma regresses_filter (seen : List α) (a : α) (v held : Int32) :
    Regresses object claim (seen.filter (object · = object a)) a v held ↔
      Regresses object claim seen a v held := by
  rw [Regresses, Regresses, highest_filter]

lemma firstRegression_cons (seen : List α) (a : α) (rest : List α) :
    (∃ v held, Regresses object claim seen a v held ∧
      firstRegression object claim seen (a :: rest) = some (a, v, held)) ∨
    ((∀ v held, ¬ Regresses object claim seen a v held) ∧
      firstRegression object claim seen (a :: rest) =
        firstRegression object claim (seen ++ [a]) rest) := by
  cases hadmits : (Floor.mk (highest object claim seen (object a))).admits (claim a) with
  | error held =>
    obtain ⟨hheld, v, hv, hlt⟩ := (admits_eq_error_iff _ _ _).mp hadmits
    refine Or.inl ⟨v, held, ⟨hv, hheld, hlt⟩, ?_⟩
    rw [firstRegression, hadmits, hv]
  | ok u =>
    refine Or.inr ⟨fun v held h => ?_, ?_⟩
    · exact (admits_eq_ok_iff _ _).mp hadmits v held h.1 h.2.1 h.2.2
    · rw [firstRegression, hadmits]
      cases claim a <;> rfl

lemma clean_cons {seen : List α} {a : α} {rest : List α} : Clean object claim seen (a :: rest) ↔
      (∀ v held, ¬ Regresses object claim seen a v held) ∧
        Clean object claim (seen ++ [a]) rest := by
  constructor
  · intro h
    refine ⟨fun v held hr => h [] a rest v held rfl (by simpa using hr), ?_⟩
    intro pre b post v held hsplit hr
    exact h (a :: pre) b post v held (by rw [hsplit]; rfl) (by simpa using hr)
  · rintro ⟨hhead, htail⟩ pre b post v held hsplit hr
    cases pre with
    | nil =>
      obtain ⟨rfl, rfl⟩ := cons.inj hsplit
      exact hhead v held (by simpa using hr)
    | cons p pre =>
      obtain ⟨rfl, hrest⟩ := cons.inj hsplit
      exact htail pre b post v held hrest (by simpa using hr)

lemma firstRegression_eq_none_iff :
    firstRegression object claim seen l = none ↔ Clean object claim seen l := by
  induction l generalizing seen with
  | nil =>
    refine iff_of_true rfl ?_
    intro pre a post v held hsplit
    simp at hsplit
  | cons a rest ih =>
    rw [clean_cons]
    rcases firstRegression_cons object claim seen a rest with ⟨v, held, hr, heq⟩ | ⟨hnot, heq⟩
    · rw [heq]
      refine iff_of_false (by simp) ?_
      exact fun h => h.1 v held hr
    · rw [heq, ih]
      exact ⟨fun h => ⟨hnot, h⟩, fun h => h.2⟩

lemma firstRegression_eq_some_iff (a : α) (v held : Int32) :
    firstRegression object claim seen l = some (a, v, held) ↔
      ∃ pre post, l = pre ++ a :: post ∧ Regresses object claim (seen ++ pre) a v held ∧
        Clean object claim seen pre := by
  induction l generalizing seen with
  | nil =>
    refine iff_of_false (by simp [firstRegression]) ?_
    rintro ⟨pre, post, hsplit, _⟩
    simp at hsplit
  | cons b rest ih =>
    rcases firstRegression_cons object claim seen b rest with ⟨w, h', hr, heq⟩ | ⟨hnot, heq⟩
    · rw [heq]
      constructor
      · intro h
        obtain ⟨rfl, rfl, rfl⟩ : b = a ∧ w = v ∧ h' = held := by simpa using h
        exact ⟨[], rest, rfl, by simpa using hr, by
          intro pre c post v held hsplit; simp at hsplit⟩
      · rintro ⟨pre, post, hsplit, hra, hclean⟩
        cases pre with
        | nil =>
          obtain ⟨rfl, rfl⟩ := cons.inj hsplit
          rw [append_nil] at hra
          have hv : w = v := Option.some.inj (hr.1.symm.trans hra.1)
          have hh : h' = held := Option.some.inj (hr.2.1.symm.trans hra.2.1)
          rw [hv, hh]
        | cons p pre =>
          obtain ⟨rfl, _⟩ := cons.inj hsplit
          exact absurd hr ((clean_cons object claim).mp hclean |>.1 w h')
    · rw [heq, ih]
      constructor
      · rintro ⟨pre, post, rfl, hra, hclean⟩
        exact ⟨b :: pre, post, rfl, by simpa using hra,
          (clean_cons object claim).mpr ⟨hnot, hclean⟩⟩
      · rintro ⟨pre, post, hsplit, hra, hclean⟩
        cases pre with
        | nil =>
          obtain ⟨rfl, rfl⟩ := cons.inj hsplit
          exact absurd (by simpa using hra) (hnot v held)
        | cons p pre =>
          obtain ⟨rfl, rfl⟩ := cons.inj hsplit
          exact ⟨pre, post, rfl, by simpa using hra, ((clean_cons object claim).mp hclean).2⟩

lemma split_of_filter_split {p : α → Bool} {l pre post : List α} {a : α}
    (h : l.filter p = pre ++ a :: post) :
    ∃ pre' post', l = pre' ++ a :: post' ∧ pre'.filter p = pre := by
  obtain ⟨l₁, l₂, rfl, h₁, h₂⟩ := filter_eq_append_iff.mp h
  obtain ⟨m₁, m₂, rfl, hm₁, _, _⟩ := filter_eq_cons_iff.mp h₂
  refine ⟨l₁ ++ m₁, m₂, by simp, ?_⟩
  rw [filter_append, h₁, filter_eq_nil_iff.mpr hm₁, append_nil]

/-- A regression of the whole history shows in the history of its object, whose
first regression is then that one or an earlier one. -/
lemma grouped_first_le {pre : List α} (post : List α) {b : α} {w held : Int32}
    (hr : Regresses object claim pre b w held) :
    ∃ c v h, firstRegression object claim []
        ((pre ++ b :: post).filter (object · = object b)) = some (c, v, h) ∧
      (c = b ∨ c ∈ pre) := by
  have hgroup : (pre ++ b :: post).filter (object · = object b) =
      pre.filter (object · = object b) ++ b :: post.filter (object · = object b) := by
    simp [filter_append]
  have hr' := (regresses_filter object claim pre b w held).mpr hr
  rw [hgroup]
  cases hf : firstRegression object claim []
      (pre.filter (object · = object b) ++ b :: post.filter (object · = object b)) with
  | none =>
    exact absurd (by simpa using hr')
      ((firstRegression_eq_none_iff object claim _ _).mp hf _ _ _ w held rfl)
  | some r =>
    obtain ⟨c, v, h⟩ := r
    refine ⟨c, v, h, rfl, ?_⟩
    obtain ⟨q, q', hsplit, _, hclean⟩ := (firstRegression_eq_some_iff object claim _ _ _ _ _).mp hf
    rcases append_eq_append_iff.mp hsplit with ⟨t, ht, ht'⟩ | ⟨t, ht, ht'⟩
    · cases t with
      | nil =>
        exact Or.inl (cons.inj (by simpa using ht')).1.symm
      | cons d t =>
        obtain ⟨rfl, _⟩ := cons.inj ht'
        exact absurd (by simpa using hr') (hclean _ b t w held ht)
    · cases t with
      | nil =>
        exact Or.inl (cons.inj (by simpa using ht')).1
      | cons d t =>
        obtain ⟨rfl, _⟩ := cons.inj ht'
        have hc : c ∈ pre.filter (object · = object b) := by rw [ht]; simp
        exact Or.inr (mem_filter.mp hc).1

lemma firstRegression_of_grouped {γ : Type*} [LinearOrder γ] (place : α → γ) {l : List α}
    (hplace : l.Pairwise fun a b => place a < place b) {a : α} {v held : Int32}
    (hfirst : firstRegression object claim [] (l.filter (object · = object a)) =
      some (a, v, held))
    (hmin : ∀ b ∈ l, ∀ c w h, firstRegression object claim []
      (l.filter (object · = object b)) = some (c, w, h) → place a ≤ place c) :
    firstRegression object claim [] l = some (a, v, held) := by
  obtain ⟨q, q', hsplit, hr, _⟩ := (firstRegression_eq_some_iff object claim _ _ _ _ _).mp hfirst
  obtain ⟨pre, post, rfl, rfl⟩ := split_of_filter_split hsplit
  refine (firstRegression_eq_some_iff object claim _ _ _ _ _).mpr ⟨pre, post, rfl, ?_, ?_⟩
  · rw [nil_append] at hr ⊢
    exact (regresses_filter object claim pre a v held).mp hr
  · rintro p₁ b p₂ w h rfl hb
    rw [nil_append] at hb
    obtain ⟨c, v', h', hgroup, hc⟩ := grouped_first_le object claim (p₂ ++ a :: post) hb
    have hlist : p₁ ++ b :: (p₂ ++ a :: post) = p₁ ++ b :: p₂ ++ a :: post := by simp
    rw [hlist] at hgroup
    have hle := hmin b (by simp) c v' h' hgroup
    have hlt : place c < place a := by
      refine (pairwise_append.mp hplace).2.2 c ?_ a mem_cons_self
      rcases hc with rfl | hc
      · simp
      · simp [hc]
    exact absurd hlt (not_lt_of_ge hle)

lemma firstRegression_none_of_grouped {l : List α}
    (h : ∀ b ∈ l, firstRegression object claim [] (l.filter (object · = object b)) = none) :
    firstRegression object claim [] l = none := by
  refine (firstRegression_eq_none_iff object claim _ _).mpr ?_
  rintro pre b post w held rfl hr
  obtain ⟨c, v, h', hgroup, _⟩ := grouped_first_le object claim post (by simpa using hr)
  rw [h b (by simp)] at hgroup
  cases hgroup

end History

section Map

universe u v w
variable {α : Type u} {γ : Type w} {β : Type v} [DecidableEq β]

/-- A history read through a map that keeps objects and claims. -/
lemma highest_map (g : α → γ) (object : α → β) (claim : α → Option Int32) (object' : γ → β)
    (claim' : γ → Option Int32) {l : List α} (ho : ∀ a ∈ l, object' (g a) = object a)
    (hc : ∀ a ∈ l, claim' (g a) = claim a) (x : β) :
    highest object' claim' (l.map g) x = highest object claim l x := by
  induction l using reverseRecOn with
  | nil => rfl
  | append_singleton l a ih =>
    rw [map_append, map_singleton, highest_append, highest_append,
      ho a (by simp), hc a (by simp),
      ih (fun b hb => ho b (by simp [hb])) (fun b hb => hc b (by simp [hb]))]

lemma firstRegression_map (g : α → γ) (object : α → β) (claim : α → Option Int32)
    (object' : γ → β) (claim' : γ → Option Int32) (seen l : List α)
    (ho : ∀ a ∈ seen ++ l, object' (g a) = object a)
    (hc : ∀ a ∈ seen ++ l, claim' (g a) = claim a) :
    firstRegression object' claim' (seen.map g) (l.map g) =
      (firstRegression object claim seen l).map fun r => (g r.1, r.2) := by
  induction l generalizing seen with
  | nil => rfl
  | cons a rest ih =>
    have hseen := highest_map g object claim object' claim' (l := seen)
      (fun b hb => ho b (by simp [hb])) (fun b hb => hc b (by simp [hb])) (object a)
    have htail := ih (seen ++ [a]) (fun b hb => ho b (by simpa using hb))
      (fun b hb => hc b (by simpa using hb))
    rw [map_append, map_singleton] at htail
    rw [map_cons, firstRegression, firstRegression, ho a (by simp), hc a (by simp), hseen,
      htail]
    cases claim a with
    | none => rfl
    | some v =>
      cases (Floor.mk (highest object claim seen (object a))).admits (some v) <;> rfl

end Map

end VersionFloor
