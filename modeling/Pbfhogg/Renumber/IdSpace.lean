import Mathlib.Data.List.Dedup
import Pbfhogg.Wire.Protohoggr

/-!
# The id sets of renumber and the numbers they give

`idset.rs` as a set of ids with ranks, without its chunks: an id is a member or not, and its rank is
how many members lie below it. `IdSpace` is one kind's map from old ids to new ones.
-/

namespace IdSpace

open List

/-- The kinds of error a rewrite ends with. -/
inductive RewriteError where
  | wire (e : Protohoggr.Error)
  | invalidData (msg : String)
  | unsorted (msg : String)
  | internal (msg : String)
  | context (ctx : String) (e : RewriteError)

abbrev Result (α : Type) := Except RewriteError α

def showId (x : Int64) : String := toString x.toInt

lemma nil_nonneg : ∀ id ∈ ([] : List Int64), 0 ≤ id.toInt := nofun

/-- The members of a set, and the largest id its pre-allocation covers. -/
structure IdSet where
  ids : List Int64 := []
  preAllocated : Option Int64 := none
  nodup : ids.Nodup := by first | exact List.nodup_nil | simp
  nonneg : ∀ id ∈ ids, 0 ≤ id.toInt := by first | exact nil_nonneg | simp

namespace IdSet

def idShift : Nat := 25

variable (s : IdSet) (id : Int64)

/-- Negative ids are left out. -/
def set : IdSet :=
  if h : 0 ≤ id.toInt ∧ id ∉ s.ids then
    { ids := id :: s.ids
      preAllocated := s.preAllocated
      nodup := nodup_cons.mpr ⟨h.2, s.nodup⟩
      nonneg := by
        intro x hx
        rcases mem_cons.mp hx with rfl | hx
        · exact h.1
        · exact s.nonneg x hx }
  else s

def preAllocate (maxId : Int64) : IdSet :=
  if maxId.toInt < 0 then s else { s with preAllocated := some maxId }

/-- The id lies in a chunk that was allocated before the pass. -/
def covers : Bool :=
  match s.preAllocated with
  | none => false
  | some m => decide (0 ≤ id.toInt ∧ id.toInt / 2 ^ idShift ≤ m.toInt / 2 ^ idShift)

/-- Whether the id could be recorded, and the set then. -/
def setAtomicChecked : Bool × IdSet :=
  if s.covers id then (true, s.set id) else (false, s)

/-- How many members lie below `id`, when it is one. -/
def rankIfSet : Option Nat :=
  if id ∈ s.ids then some (s.ids.countP fun x => decide (x.toInt < id.toInt)) else none

def totalCount : Nat := s.ids.length

def get : Bool := decide (id ∈ s.ids)

def len : Nat := s.ids.length

/-- The members of both sets. -/
def merge (s other : IdSet) : IdSet := other.ids.foldl set s

lemma mem_set {s : IdSet} {id x : Int64} :
    x ∈ (s.set id).ids ↔ x ∈ s.ids ∨ (x = id ∧ 0 ≤ id.toInt) := by
  unfold set
  split
  · next h =>
    rw [mem_cons]
    constructor
    · rintro (rfl | hx)
      · exact .inr ⟨rfl, h.1⟩
      · exact .inl hx
    · rintro (hx | ⟨rfl, -⟩)
      · exact .inr hx
      · exact .inl rfl
  · next h =>
    constructor
    · exact .inl
    · rintro (hx | ⟨rfl, hpos⟩)
      · exact hx
      · exact Decidable.not_not.mp fun hmem => h ⟨hpos, hmem⟩

lemma mem_foldl_set {ids : List Int64} {s : IdSet} {x : Int64} :
    x ∈ (ids.foldl set s).ids ↔ x ∈ s.ids ∨ (x ∈ ids ∧ 0 ≤ x.toInt) := by
  induction ids generalizing s with
  | nil => simp
  | cons id ids ih =>
    rw [foldl_cons, ih, mem_set, mem_cons, or_and_right, or_assoc]
    refine or_congr_right (or_congr_left (and_congr_right ?_))
    rintro rfl
    rfl

lemma mem_merge {s other : IdSet} {x : Int64} :
    x ∈ (s.merge other).ids ↔ x ∈ s.ids ∨ x ∈ other.ids := by
  rw [merge, mem_foldl_set]
  constructor
  · rintro (h | ⟨h, -⟩)
    · exact .inl h
    · exact .inr h
  · rintro (h | h)
    · exact .inl h
    · exact .inr ⟨h, other.nonneg x h⟩

@[simp] lemma preAllocated_set :
    (s.set id).preAllocated = s.preAllocated := by
  unfold set
  split <;> rfl

/-- Two sets with the same members have the same size. -/
theorem len_eq {s : IdSet} {ids : List Int64} (h : ∀ x, x ∈ s.ids ↔ x ∈ ids) :
    s.len = ids.dedup.length := by
  have hperm : s.ids.Perm ids.dedup := by
    rw [perm_ext_iff_of_nodup s.nodup (nodup_dedup ids)]
    intro x
    rw [h, mem_dedup]
  exact hperm.length_eq

end IdSet

/-- The value as an `i64`, when it is one. -/
def toI64 (x : Int) : Option Int64 :=
  if -2 ^ 63 ≤ x ∧ x < 2 ^ 63 then some (Int64.ofInt x) else none

lemma toI64_eq_some {x : Int} {y : Int64} : toI64 x = some y ↔ y.toInt = x := by
  unfold toI64
  constructor
  · intro h
    split at h
    · next hr =>
      cases h
      exact Int64.toInt_ofInt_of_le hr.1 hr.2
    · cases h
  · intro h
    have hlo := y.le_toInt
    have hhi := y.toInt_lt
    rw [if_pos (by omega), ← h, Int64.ofInt_toInt]

lemma toI64_isSome {x : Int} (hlo : -2 ^ 63 ≤ x) (hhi : x < 2 ^ 63) :
    ∃ y, toI64 x = some y ∧ y.toInt = x :=
  ⟨Int64.ofInt x, if_pos ⟨hlo, hhi⟩, Int64.toInt_ofInt_of_le hlo hhi⟩

/-- `start + rank` as an output id. -/
def offsetId (start : Int64) (rank : Nat) : Result Int64 :=
  match toI64 (start.toInt + rank) with
  | some id => .ok id
  | none =>
    .error (.invalidData ("renumber: new id " ++ showId start ++ " + " ++ toString rank ++
      " overflows a 64-bit id"))

lemma offsetId_ok {start id : Int64} {rank : Nat} :
    offsetId start rank = .ok id ↔ id.toInt = start.toInt + rank := by
  rw [← toI64_eq_some, offsetId]
  cases toI64 (start.toInt + rank) <;> simp

def inc (n : Nat) : Result Nat :=
  if n + 1 < 2 ^ 64 then .ok (n + 1)
  else .error (.invalidData "renumber: element count overflow")

lemma inc_ok {n m : Nat} : inc n = .ok m ↔ m = n + 1 ∧ n + 1 < 2 ^ 64 := by
  unfold inc
  split
  · next h =>
    constructor
    · intro hm
      cases hm
      exact ⟨rfl, h⟩
    · rintro ⟨rfl, -⟩
      rfl
  · next h =>
    constructor
    · intro hm
      cases hm
    · intro hm
      exact absurd hm.2 h

/-- One kind's map from old ids to new ones. -/
structure Space where
  kind : String
  set : IdSet
  start : Int64

namespace Space

/-- The first id past the renumbered range. -/
def orphanBase (s : Space) : Int := s.start.toInt + s.set.totalCount

/-- The new id of a member of the set. -/
def live (s : Space) (oldId : Int64) : Result (Option Int64) :=
  match s.set.rankIfSet oldId with
  | none => .ok none
  | some rank => (offsetId s.start rank).map some

def orphanMsg (s : Space) (oldId : Int64) (shifted : Int) : String :=
  "renumber: orphan " ++ s.kind ++ " ref " ++ showId oldId ++ " (the " ++ s.kind ++
    " is not in the input) would become " ++ toString shifted ++
    ", the first id past the renumbered " ++ s.kind ++ "s (" ++ toString s.orphanBase ++
    ") plus its old id, which overflows a 64-bit id"

/-- The new id of a reference, and whether it is an orphan. -/
def resolve (s : Space) (oldId : Int64) : Result (Int64 × Bool) :=
  match s.live oldId with
  | .error e => .error e
  | .ok (some newId) => .ok (newId, false)
  | .ok none =>
    match toI64 (s.orphanBase + oldId.toInt) with
    | some id => .ok (id, true)
    | none => .error (.invalidData (s.orphanMsg oldId (s.orphanBase + oldId.toInt)))

variable {s : Space} {oldId : Int64}

lemma live_ok_some {newId : Int64} :
    s.live oldId = .ok (some newId) ↔
      ∃ rank, s.set.rankIfSet oldId = some rank ∧ newId.toInt = s.start.toInt + rank := by
  unfold live
  cases hr : s.set.rankIfSet oldId with
  | none => simp
  | some rank =>
    simp only [Option.some.injEq, exists_eq_left']
    rw [← offsetId_ok]
    cases offsetId s.start rank <;> simp [Except.map]

lemma live_ok_none : s.live oldId = .ok none ↔ s.set.rankIfSet oldId = none := by
  unfold live
  cases hr : s.set.rankIfSet oldId with
  | none => simp
  | some rank => cases ho : offsetId s.start rank <;> simp [Except.map, ho]

/-- A reference gets the id its rank gives, or the shifted one of an orphan. -/
theorem resolve_ok {newId : Int64} {orphan : Bool} :
    s.resolve oldId = .ok (newId, orphan) ↔
      (∃ rank, s.set.rankIfSet oldId = some rank ∧ newId.toInt = s.start.toInt + rank ∧
        orphan = false) ∨
      (s.set.rankIfSet oldId = none ∧ newId.toInt = s.orphanBase + oldId.toInt ∧
        orphan = true) := by
  unfold resolve
  cases hl : s.live oldId with
  | error e =>
    simp only [reduceCtorEq, false_iff, not_or, not_exists, not_and]
    constructor
    · intro rank hr hnew
      have := live_ok_some.mpr ⟨rank, hr, hnew⟩
      rw [hl] at this
      cases this
    · intro hr
      rw [live_ok_none.mpr hr] at hl
      cases hl
  | ok o =>
    cases o with
    | some id =>
      obtain ⟨rank, hr, hid⟩ := live_ok_some.mp hl
      simp only [hr, Except.ok.injEq, Prod.mk.injEq, Option.some.injEq, exists_eq_left', reduceCtorEq,
        false_and, or_false]
      rw [← hid, Int64.toInt_inj]
      constructor
      · rintro ⟨rfl, rfl⟩
        exact ⟨rfl, rfl⟩
      · rintro ⟨rfl, rfl⟩
        exact ⟨rfl, rfl⟩
    | none =>
      have hr := live_ok_none.mp hl
      simp only [hr, reduceCtorEq, false_and, exists_false, false_or, true_and]
      rw [← toI64_eq_some]
      cases toI64 (s.orphanBase + oldId.toInt) with
      | none => simp
      | some id =>
        simp only [Except.ok.injEq, Prod.mk.injEq, Option.some.injEq]
        constructor
        · rintro ⟨rfl, rfl⟩
          exact ⟨rfl, rfl⟩
        · rintro ⟨rfl, rfl⟩
          exact ⟨rfl, rfl⟩

/-- The number a reference gets, before it is known to be an id. -/
def number (s : Space) (oldId : Int64) : Int :=
  match s.set.rankIfSet oldId with
  | some rank => s.start.toInt + rank
  | none => s.orphanBase + oldId.toInt

/-- The number a reference gets is a 64-bit id. -/
def Fits (s : Space) (oldId : Int64) : Prop := -2 ^ 63 ≤ s.number oldId ∧ s.number oldId < 2 ^ 63

instance (s : Space) (oldId : Int64) : Decidable (s.Fits oldId) :=
  inferInstanceAs (Decidable (_ ∧ _))

lemma toInt_resolve {newId : Int64} {orphan : Bool} (h : s.resolve oldId = .ok (newId, orphan)) :
    newId.toInt = s.number oldId := by
  unfold number
  rcases resolve_ok.mp h with ⟨rank, hr, hnew, -⟩ | ⟨hr, hnew, -⟩
  · rw [hr]
    exact hnew
  · rw [hr]
    exact hnew

/-- A reference resolves exactly when its number is an id. -/
theorem fits_iff_resolve :
    s.Fits oldId ↔ ∃ newId orphan, s.resolve oldId = .ok (newId, orphan) := by
  constructor
  · intro h
    obtain ⟨newId, -, hnew⟩ := toI64_isSome h.1 h.2
    cases hr : s.set.rankIfSet oldId with
    | some rank =>
      refine ⟨newId, false, resolve_ok.mpr (.inl ⟨rank, hr, ?_, rfl⟩)⟩
      rw [hnew, number, hr]
    | none =>
      refine ⟨newId, true, resolve_ok.mpr (.inr ⟨hr, ?_, rfl⟩)⟩
      rw [hnew, number, hr]
  · rintro ⟨newId, orphan, h⟩
    have hnew := toInt_resolve h
    have hlo := newId.le_toInt
    have hhi := newId.toInt_lt
    unfold Fits
    omega

lemma number_nonneg (hstart : 0 ≤ s.start.toInt) (hold : 0 ≤ oldId.toInt) :
    0 ≤ s.number oldId := by
  unfold number orphanBase
  split <;> omega

lemma live_of_fits (hmem : oldId ∈ s.set.ids) (h : s.Fits oldId) :
    ∃ newId, s.live oldId = .ok (some newId) := by
  obtain ⟨newId, -, hnew⟩ := toI64_isSome h.1 h.2
  have hr : s.set.rankIfSet oldId =
      some (s.set.ids.countP fun x => decide (x.toInt < oldId.toInt)) := if_pos hmem
  refine ⟨newId, live_ok_some.mpr ⟨_, hr, ?_⟩⟩
  rw [hnew, number, hr]

end Space

end IdSpace
