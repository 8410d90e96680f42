import Mathlib.Data.Prod.Lex
import Mathlib.Data.List.Sort

/-!
# Element kinds and the canonical order of element ids

`ElementKind` and the id order of a sorted file: id 0, the negative ids by ascending magnitude, the
positive ids. The key is the pair `(class, magnitude)` of the source. For a blob of both signs the
first key is only a bound, since its range does not say whether 0 is present.
-/

namespace OsmId

inductive ElementKind where
  | node
  | way
  | relation
  deriving DecidableEq

namespace ElementKind

def ordinal : ElementKind → Nat
  | node => 0
  | way => 1
  | relation => 2

def asStr : ElementKind → String
  | node => "node"
  | way => "way"
  | relation => "relation"

lemma ordinal_injective : Function.Injective ordinal := by
  intro a b h
  cases a <;> cases b <;> first | rfl | cases h

lemma ordinal_lt (k : ElementKind) : k.ordinal < 3 := by
  cases k <;> decide

end ElementKind

abbrev OsmIdKey := Nat ×ₗ Nat

def osmIdKey (id : Int64) : OsmIdKey :=
  if 0 < id then toLex (2, id.toInt.natAbs)
  else if id = 0 then toLex (0, 0)
  else toLex (1, id.toInt.natAbs)

/-- The id a key was derived from; magnitude 2^63 maps back to `i64::MIN`. -/
def osmIdFromKey (k : OsmIdKey) : Int64 :=
  match (ofLex k).1 with
  | 0 => 0
  | 1 => -Int64.ofNat (ofLex k).2
  | _ => Int64.ofNat (ofLex k).2

/-- The strict order `osm_id_cmp(a, b) == Less`. -/
def OsmLt (a b : Int64) : Prop := osmIdKey a < osmIdKey b

/-- The order `osm_id_cmp(a, b) != Greater`. -/
def OsmLe (a b : Int64) : Prop := osmIdKey a ≤ osmIdKey b

instance : DecidableRel OsmLt := fun a b => inferInstanceAs (Decidable (osmIdKey a < osmIdKey b))

instance : DecidableRel OsmLe := fun a b => inferInstanceAs (Decidable (osmIdKey a ≤ osmIdKey b))

lemma pos_iff_toInt {a : Int64} : 0 < a ↔ 0 < a.toInt := by
  rw [Int64.lt_iff_toInt_lt, Int64.toInt_zero]

lemma eq_zero_iff_toInt {a : Int64} : a = 0 ↔ a.toInt = 0 := by
  rw [← Int64.toInt_inj, Int64.toInt_zero]

/-- The key read on the mathematical value of the id. -/
lemma osmIdKey_eq (a : Int64) :
    osmIdKey a = toLex (if 0 < a.toInt then 2 else if a.toInt = 0 then 0 else 1,
      a.toInt.natAbs) := by
  unfold osmIdKey
  by_cases hp : 0 < a.toInt
  · simp [pos_iff_toInt.mpr hp, hp]
  · by_cases hz : a.toInt = 0
    · simp [eq_zero_iff_toInt.mpr hz]
    · simp [mt pos_iff_toInt.mp hp, mt eq_zero_iff_toInt.mp hz, hp, hz]

lemma osmIdKey_lt_iff (a b : Int64) : osmIdKey a < osmIdKey b ↔
      (a.toInt ≤ 0 ∧ 0 < b.toInt) ∨ (0 < a.toInt ∧ a.toInt < b.toInt) ∨
      (b.toInt < a.toInt ∧ a.toInt ≤ 0) := by
  rw [osmIdKey_eq, osmIdKey_eq, Prod.Lex.toLex_lt_toLex]
  dsimp only
  split_ifs <;> omega

lemma osmIdKey_le_iff (a b : Int64) : osmIdKey a ≤ osmIdKey b ↔
      (a.toInt ≤ 0 ∧ 0 < b.toInt) ∨ (0 < a.toInt ∧ a.toInt ≤ b.toInt) ∨
      (b.toInt ≤ a.toInt ∧ a.toInt ≤ 0) := by
  rw [← not_lt, osmIdKey_lt_iff]
  omega

/-- Distinct ids have distinct keys, `i64::MIN` included. -/
theorem osmIdKey_injective : Function.Injective osmIdKey := by
  intro a b h
  have hab := (osmIdKey_le_iff a b).mp (le_of_eq h)
  have hba := (osmIdKey_le_iff b a).mp (le_of_eq h.symm)
  rw [← Int64.toInt_inj]
  omega

@[simp] lemma osmIdKey_inj {a b : Int64} : osmIdKey a = osmIdKey b ↔ a = b :=
  osmIdKey_injective.eq_iff

variable (minId maxId : Int64)

def blobOsmFirstId : Int64 :=
  if 0 ≤ minId then minId else if maxId ≤ 0 then maxId else 0

def blobOsmLastId : Int64 :=
  if maxId ≤ 0 ∧ minId < 0 then minId else maxId

def blobOsmFirstKey : OsmIdKey :=
  if 0 ≤ minId then osmIdKey minId
  else if maxId ≤ 0 then osmIdKey maxId
  else osmIdKey 0

def blobOsmLastKey : OsmIdKey :=
  if 0 ≤ minId then osmIdKey maxId
  else if maxId ≤ 0 then osmIdKey minId
  else osmIdKey maxId

def blobOsmPresentFirstKey : OsmIdKey :=
  if minId < 0 ∧ 0 < maxId then osmIdKey minId else blobOsmFirstKey minId maxId

lemma blobOsmFirstKey_eq : blobOsmFirstKey minId maxId = osmIdKey (blobOsmFirstId minId maxId) := by
  unfold blobOsmFirstKey blobOsmFirstId
  split_ifs <;> rfl

lemma blobOsmFirstKey_le {minId maxId id : Int64} (hmin : minId ≤ id) (hmax : id ≤ maxId) :
    blobOsmFirstKey minId maxId ≤ osmIdKey id := by
  rw [Int64.le_iff_toInt_le] at hmin hmax
  unfold blobOsmFirstKey
  split_ifs with h1 h2 <;> rw [osmIdKey_le_iff] <;>
    simp only [Int64.le_iff_toInt_le, Int64.toInt_zero] at * <;> omega

lemma le_blobOsmLastKey {minId maxId id : Int64} (hmin : minId ≤ id) (hmax : id ≤ maxId) :
    osmIdKey id ≤ blobOsmLastKey minId maxId := by
  rw [Int64.le_iff_toInt_le] at hmin hmax
  unfold blobOsmLastKey
  split_ifs with h1 h2 <;> rw [osmIdKey_le_iff] <;>
    simp only [Int64.le_iff_toInt_le, Int64.toInt_zero] at * <;> omega

/-- The last key of a range belongs to one of its two end points. -/
lemma blobOsmLastKey_mem :
    blobOsmLastKey minId maxId = osmIdKey minId ∨ blobOsmLastKey minId maxId = osmIdKey maxId := by
  unfold blobOsmLastKey
  split_ifs <;> simp

end OsmId
