import Pbfhogg.OsmId
import Pbfhogg.Lib.Fallible

/-!
# Claims about a blob

The index a blob carries (`blob_meta/mod.rs`), the walk that checks a decoded blob against it
(`blob_meta/tally.rs`), the refusal of a foreign kind (`element_kind.rs`) and the guard over the
order of a run's output (`osm_id.rs`). An error is its kind and its text.
-/

namespace BlobMeta

open OsmId List

variable {x : BlobIndex} {ids : List Int64}

inductive PbfError where
  | blob (message : String)
  | kindContradiction (claimed found : ElementKind)
  | indexdataMismatch (message : String)
  | unsorted (message : String)
  | invalidData (message : String)
  | internal (message : String)
  | outOfFuel
  deriving DecidableEq

/-- A bounding box in decimicrodegrees. -/
structure BlobBbox where
  minLat : Int32
  maxLat : Int32
  minLon : Int32
  maxLon : Int32
  deriving DecidableEq

structure BlobIndex where
  kind : ElementKind
  minId : Int64
  maxId : Int64
  count : Nat
  bbox : Option BlobBbox

namespace BlobIndex

def firstKey (x : BlobIndex) : OsmIdKey := blobOsmFirstKey x.minId x.maxId

def lastKey (x : BlobIndex) : OsmIdKey := blobOsmLastKey x.minId x.maxId

/-- The last id the index claims, in id order. -/
def blobLast (x : BlobIndex) : Int64 := blobOsmLastId x.minId x.maxId

end BlobIndex

/-- The kind that contradicts a claim, by the fixed node, way, relation priority. -/
def foreignTo (kinds : List ElementKind) (claimed : ElementKind) : Option ElementKind :=
  [ElementKind.node, .way, .relation].find? fun k => k ≠ claimed ∧ k ∈ kinds

def refuseForeignKind (kinds : List ElementKind) (claimed : ElementKind) : Except PbfError Unit :=
  match foreignTo kinds claimed with
  | some found => .error (.kindContradiction claimed found)
  | none => .ok ()

lemma refuseForeignKind_ok {kinds : List ElementKind} {claimed : ElementKind}
    (h : ∀ k ∈ kinds, k = claimed) : refuseForeignKind kinds claimed = .ok () := by
  have hnone : foreignTo kinds claimed = none := by
    rw [foreignTo, find?_eq_none]
    intro x _ hx
    obtain ⟨hne, hmem⟩ := of_decide_eq_true hx
    exact hne (h x hmem)
  simp [refuseForeignKind, hnone]

structure IdTally where
  count : Nat
  min : Int64
  max : Int64

namespace IdTally

def default : IdTally := ⟨0, Int64.maxValue, Int64.minValue⟩

variable (t : IdTally)

def add (id : Int64) : IdTally :=
  ⟨t.count + 1, Min.min t.min id, Max.max t.max id⟩

variable (claim : BlobIndex)

def escapes : Bool :=
  decide (t.count ≠ 0) && (decide (t.min < claim.minId) || decide (claim.maxId < t.max))

def found : String :=
  if t.count = 0 then "no element"
  else toString t.count ++ " " ++ claim.kind.asStr ++ " elements with ids " ++ toString t.min ++
    "..=" ++ toString t.max

def mismatch (complete : Bool) : PbfError :=
  .indexdataMismatch ("blob indexdata claims " ++ toString claim.count ++ " " ++
    claim.kind.asStr ++ " elements with ids " ++ toString claim.minId ++ "..=" ++
    toString claim.maxId ++ " but " ++
    (if complete then "the decoded blob holds" else "the decoded blob's first elements include") ++
    " " ++ t.found claim ++ ", and this run places and counts the blob by its claim")

def exact : Bool :=
  decide (t.count ≠ 0) && decide (t.count = claim.count) && decide (t.min = claim.minId) &&
    decide (t.max = claim.maxId)

def refuseInexact : Except PbfError Unit :=
  if t.exact claim then .ok () else .error (t.mismatch claim true)

end IdTally

/-- The walk of an indexed blob under required order; `context` opens the refusal
of one out of order. -/
structure ClaimWalk where
  claim : BlobIndex
  context : String
  tally : IdTally
  first : Int64
  previous : OsmIdKey

namespace ClaimWalk

def new (claim : BlobIndex) (context : String) : ClaimWalk :=
  ⟨claim, context, .default, 0, osmIdKey 0⟩

variable (w : ClaimWalk)

def disorder (id : Int64) : PbfError :=
  if (w.tally.add id).escapes w.claim then (w.tally.add id).mismatch w.claim false
  else .unsorted (w.context ++ " - a blob holds id " ++ toString id ++ " after id " ++
    toString (osmIdFromKey w.previous) ++ ", out of the order its header declares")

def observe (id : Int64) : Except PbfError ClaimWalk :=
  if osmIdKey id < w.previous then .error (w.disorder id)
  else .ok { w with
    previous := osmIdKey id
    first := if w.tally.count = 0 then id else w.first
    tally := w.tally.add id }

def firstId : Option Int64 := if w.tally.count = 0 then none else some w.first

def finish : Except PbfError (Option Int64) := do
  w.tally.refuseInexact w.claim
  .ok w.firstId

end ClaimWalk

/-- The index says exactly which ids a blob holds. -/
structure ClaimsExactly (x : BlobIndex) (ids : List Int64) : Prop where
  count : x.count = ids.length
  lower : ∀ id ∈ ids, x.minId ≤ id
  upper : ∀ id ∈ ids, id ≤ x.maxId
  min_mem : x.minId ∈ ids
  max_mem : x.maxId ∈ ids

lemma claimsExactly_iff : ClaimsExactly x ids ↔ x.count = ids.length ∧
      ids.all (fun id => decide (x.minId ≤ id ∧ id ≤ x.maxId)) = true ∧
      x.minId ∈ ids ∧ x.maxId ∈ ids := by
  simp only [all_eq_true, decide_eq_true_iff]
  constructor
  · intro h
    exact ⟨h.count, fun id hid => ⟨h.lower id hid, h.upper id hid⟩, h.min_mem, h.max_mem⟩
  · rintro ⟨hcount, hrange, hmin, hmax⟩
    exact ⟨hcount, fun id hid => (hrange id hid).1, fun id hid => (hrange id hid).2, hmin, hmax⟩

instance (x : BlobIndex) (ids : List Int64) : Decidable (ClaimsExactly x ids) :=
  decidable_of_iff _ claimsExactly_iff.symm

lemma ClaimsExactly.firstKey_le (h : ClaimsExactly x ids) {id : Int64} (hid : id ∈ ids) :
    x.firstKey ≤ osmIdKey id :=
  blobOsmFirstKey_le (h.lower id hid) (h.upper id hid)

lemma ClaimsExactly.le_lastKey (h : ClaimsExactly x ids) {id : Int64} (hid : id ∈ ids) :
    osmIdKey id ≤ x.lastKey :=
  le_blobOsmLastKey (h.lower id hid) (h.upper id hid)

lemma ClaimsExactly.lastKey_mem (h : ClaimsExactly x ids) :
    ∃ id ∈ ids, osmIdKey id = x.lastKey := by
  rcases blobOsmLastKey_mem x.minId x.maxId with hmin | hmax
  · exact ⟨x.minId, h.min_mem, hmin.symm⟩
  · exact ⟨x.maxId, h.max_mem, hmax.symm⟩

/-- The key the order guard falls back on belongs to an element. -/
lemma ClaimsExactly.presentFirstKey_mem (h : ClaimsExactly x ids) :
    ∃ id ∈ ids, osmIdKey id = blobOsmPresentFirstKey x.minId x.maxId := by
  unfold blobOsmPresentFirstKey blobOsmFirstKey
  split_ifs with h1 h2 h3
  · exact ⟨x.minId, h.min_mem, rfl⟩
  · exact ⟨x.minId, h.min_mem, rfl⟩
  · exact ⟨x.maxId, h.max_mem, rfl⟩
  · simp only [Int64.lt_iff_toInt_lt, Int64.le_iff_toInt_le, Int64.toInt_zero] at h1 h2 h3
    omega

lemma foldl_bound {f : Int64 → Int64 → Int64} {P : Int64 → Prop} {m a : Int64}
    (hkeep : ∀ a b, P a → P b → P (f a b)) (hleft : ∀ b, P b → f m b = m)
    (hright : ∀ a, P a → f a m = m) (hall : ∀ id ∈ ids, P id) (ha : P a)
    (hmem : m ∈ ids ∨ m = a) : ids.foldl f a = m := by
  induction ids generalizing a with
  | nil =>
    rcases hmem with hmem | hmem
    · cases hmem
    · exact hmem.symm
  | cons id ids ih =>
    have hid := hall id mem_cons_self
    apply ih (fun x hx => hall x (mem_cons_of_mem _ hx)) (hkeep a id ha hid)
    rcases hmem with hmem | rfl
    · rcases mem_cons.mp hmem with rfl | hmem
      · exact .inr (hright a ha).symm
      · exact .inl hmem
    · exact .inr (hleft id hid).symm

lemma foldl_min_eq {m a : Int64} (hle : ∀ id ∈ ids, m ≤ id) (ha : m ≤ a) (hmem : m ∈ ids ∨ m = a) :
    ids.foldl Min.min a = m := by
  refine foldl_bound (P := (m ≤ ·)) (fun a b ha hb => ?_) (fun _ h => if_pos h) (fun a ha => ?_) hle
    ha hmem
  · change m ≤ if a ≤ b then a else b
    split_ifs <;> assumption
  · change (if a ≤ m then a else m) = m
    split_ifs with h
    · exact Int64.le_antisymm h ha
    · rfl

lemma foldl_max_eq {m a : Int64} (hle : ∀ id ∈ ids, id ≤ m) (ha : a ≤ m) (hmem : m ∈ ids ∨ m = a) :
    ids.foldl Max.max a = m := by
  refine foldl_bound (P := (· ≤ m)) (fun a b ha hb => ?_) (fun b hb => ?_) (fun _ h => if_pos h) hle
    ha hmem
  · change (if a ≤ b then b else a) ≤ m
    split_ifs <;> assumption
  · change (if m ≤ b then b else m) = m
    split_ifs with h
    · exact Int64.le_antisymm hb h
    · rfl

namespace IdTally

def addAll (t : IdTally) (ids : List Int64) : IdTally := ids.foldl add t

lemma addAll_eq (t : IdTally) (ids : List Int64) :
    t.addAll ids = ⟨t.count + ids.length, ids.foldl Min.min t.min, ids.foldl Max.max t.max⟩ := by
  induction ids generalizing t with
  | nil => rfl
  | cons id ids ih =>
    rw [addAll, foldl_cons, ← addAll, ih]
    simp [add]
    omega

lemma exact_of_claimsExactly (h : ClaimsExactly x ids) : (default.addAll ids).exact x = true := by
  have hmin : ids.foldl Min.min Int64.maxValue = x.minId := by
    apply foldl_min_eq h.lower _ (.inl h.min_mem)
    rw [Int64.le_iff_toInt_le]
    have := x.minId.toInt_lt
    simp only [Int64.toInt_maxValue]
    omega
  have hmax : ids.foldl Max.max Int64.minValue = x.maxId := by
    apply foldl_max_eq h.upper _ (.inl h.max_mem)
    rw [Int64.le_iff_toInt_le]
    have := x.maxId.le_toInt
    simp only [Int64.toInt_minValue]
    omega
  have hne : ids.length ≠ 0 := by
    intro hzero
    have hnil := length_eq_zero_iff.mp hzero
    have hmem := h.min_mem
    rw [hnil] at hmem
    cases hmem
  simp [exact, addAll_eq, default, h.count, hmin, hmax, hne]

end IdTally

namespace ClaimWalk

/-- The walk once it has seen these ids. -/
def after (claim : BlobIndex) (context : String) (ids : List Int64) : ClaimWalk where
  claim := claim
  context := context
  tally := .addAll .default ids
  first := ids.head?.getD 0
  previous := osmIdKey (ids.getLast?.getD 0)

lemma after_nil (claim : BlobIndex) (context : String) :
    after claim context [] = new claim context := rfl

lemma osmIdKey_zero_le (id : Int64) : osmIdKey 0 ≤ osmIdKey id := by
  rw [osmIdKey_le_iff, Int64.toInt_zero]
  omega

lemma observe_after {claim : BlobIndex} {context : String} {id : Int64}
    (h : ∀ x ∈ ids, OsmLe x id) :
    (after claim context ids).observe id = .ok (after claim context (ids ++ [id])) := by
  have hprev : ¬ osmIdKey id < (after claim context ids).previous := by
    rw [not_lt, after]
    cases hlast : ids.getLast? with
    | none => exact osmIdKey_zero_le id
    | some x => exact h x (mem_of_getLast? hlast)
  rw [observe, if_neg hprev]
  cases ids with
  | nil => simp [after, IdTally.addAll, IdTally.default, IdTally.add]
  | cons x xs =>
    have hcount : (IdTally.addAll .default (x :: xs)).count ≠ 0 := by
      simp [IdTally.addAll_eq, IdTally.default]
    have htally : IdTally.addAll .default (x :: xs ++ [id]) =
        (IdTally.addAll .default (x :: xs)).add id := by
      simp [IdTally.addAll]
    have hlast : (x :: xs ++ [id]).getLast? = some id := getLast?_concat
    simp only [after, hcount, htally, hlast, if_false]
    rfl

lemma firstId_after (claim : BlobIndex) (context : String) (ids : List Int64) :
    (after claim context ids).firstId = ids.head? := by
  cases ids with
  | nil => rfl
  | cons x xs => simp [firstId, after, IdTally.addAll_eq, IdTally.default]

/-- The walk of a blob that keeps its claim ends without a refusal. -/
theorem finish_after {claim : BlobIndex} (h : ClaimsExactly claim ids) (context : String) :
    (after claim context ids).finish = .ok ids.head? := by
  have hexact : (after claim context ids).tally.exact claim = true :=
    IdTally.exact_of_claimsExactly h
  have hclaim : (after claim context ids).claim = claim := rfl
  simp [finish, IdTally.refuseInexact, hclaim, hexact, firstId_after]

end ClaimWalk

structure OrderViolation where
  previousKind : Nat
  previousId : Int64
  firstId : Int64

structure OrderWatermark where
  last : Option (Nat × OsmIdKey)

def OrderWatermark.observeKeys (m : OrderWatermark) (kind : Nat) (first last : OsmIdKey) :
    Except OrderViolation OrderWatermark :=
  match m.last with
  | none => .ok ⟨some (kind, max last first)⟩
  | some (previousKind, previousLast) =>
    if kind < previousKind ∨ kind = previousKind ∧ first < previousLast then
      .error ⟨previousKind, osmIdFromKey previousLast, osmIdFromKey first⟩
    else if kind = previousKind then .ok ⟨some (kind, max (max last first) previousLast)⟩
    else .ok ⟨some (kind, max last first)⟩

end BlobMeta
