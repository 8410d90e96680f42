import Pbfhogg.Altw.SlotLayout

/-!
# Id buckets

`BucketLayout` of `commands/altw/external/mod.rs`, the id range stage 2 works on and `slot_bucket`:
node ids are cut into buckets of one width, the slots of the way refs into buckets of their own.
-/

namespace IdBuckets

open SlotLayout (slotBucketBounds)

def numBuckets : Nat := 256

def maxBucketWidth : Nat := 2 ^ 30

def localIdMask : Nat := 0x7fffffff

inductive Error where
  | internal (message : String)
  | invalidData (message : String)

/-- `div_ceil`, at least one. -/
def bucketWidth (maxNodeId numBuckets : Nat) : Nat :=
  max ((maxNodeId + numBuckets - 1) / numBuckets) 1

/-- On `u64`. -/
def saturatingMul (a b : Nat) : Nat := min (a * b) (2 ^ 64 - 1)

def unencodable (maxNodeId numBuckets : Nat) : Error :=
  .invalidData <|
    s!"add-locations-to-ways, external index: the input's node indexdata advertises max_id " ++
    s!"{maxNodeId}, above the {saturatingMul numBuckets maxBucketWidth} this backend can encode " ++
    s!"({numBuckets} buckets of at most {maxBucketWidth} ids). If the input really has node ids " ++
    "that large, the sparse index has no such limit; if it does not, the indexdata is wrong, " ++
    "and checking the file's blob metadata reports which blobs disagree with their contents."

/-- `num_buckets` is a `NonZeroUsize`. -/
structure BucketLayout where
  maxNodeId : Nat
  bucketWidth : Nat
  numBuckets : Nat
  numBuckets_pos : 0 < numBuckets

namespace BucketLayout

def new (maxNodeId numBuckets : Nat) : Except Error BucketLayout :=
  if hpos : 0 < numBuckets then
    let bw := IdBuckets.bucketWidth maxNodeId numBuckets
    let lastLo := saturatingMul (numBuckets - 1) bw
    let maxLocal := max (bw - 1) (maxNodeId - lastLo)
    if maxBucketWidth < bw ∨ localIdMask < maxLocal then .error (unencodable maxNodeId numBuckets)
    else .ok ⟨maxNodeId, bw, numBuckets, hpos⟩
  else .error (.internal "external join bucket layout with no buckets")

/-- The bucket of an id and its number in the bucket, when that fits `u32`. -/
def locate (layout : BucketLayout) (nodeId : Nat) : Option (Nat × Nat) :=
  if layout.maxNodeId < nodeId then none
  else
    let bucketIdx := min (nodeId / layout.bucketWidth) (layout.numBuckets - 1)
    let offset := nodeId - bucketIdx * layout.bucketWidth
    if offset < 2 ^ 32 then some (bucketIdx, offset) else none

/-- `bucket_lo` and `bucket_hi` of stage 2, on `u64`. The last bucket is the last of the program's
`NUM_BUCKETS`, whatever the layout says. -/
def idRange (layout : BucketLayout) (bucketIdx : Nat) : Nat × Nat :=
  (bucketIdx * layout.bucketWidth % 2 ^ 64,
    if bucketIdx = IdBuckets.numBuckets - 1 then (layout.maxNodeId + 1) % 2 ^ 64
    else (bucketIdx + 1) * layout.bucketWidth % 2 ^ 64)

end BucketLayout

/-- The bucket a resolved entry is written to. -/
def slotBucket (slotPos totalSlots slotBucketCount : Nat) : Nat :=
  let rangeSize := totalSlots / slotBucketCount
  if rangeSize = 0 then 0 else min (slotPos / rangeSize) (slotBucketCount - 1)

/-- A half-open range holds the number. -/
def Holds (range : Nat × Nat) (x : Nat) : Prop := range.1 ≤ x ∧ x < range.2

namespace BucketLayout

variable {maxNodeId numBuckets id : Nat} {layout : BucketLayout}

/-- What `new` has established. -/
structure Encodable (layout : BucketLayout) : Prop where
  width_pos : 0 < layout.bucketWidth
  width_le : layout.bucketWidth - 1 ≤ localIdMask
  last_le : layout.maxNodeId - (layout.numBuckets - 1) * layout.bucketWidth ≤ localIdMask

lemma new_ok (hmax : maxNodeId < 2 ^ 64) (h : new maxNodeId numBuckets = .ok layout) :
    layout.maxNodeId = maxNodeId ∧ layout.numBuckets = numBuckets ∧ layout.Encodable := by
  unfold new at h
  split at h
  · dsimp only at h
    split at h
    · cases h
    · next hfits =>
      simp only [not_or, Nat.not_lt, Nat.max_le, saturatingMul] at hfits
      cases h
      refine ⟨rfl, rfl, ?_, hfits.2.1, ?_⟩
      · exact Nat.le_max_right _ _
      · have := hfits.2.2
        dsimp only
        omega
  · cases h

/-- The offset in the bucket leaves the top bit of a `u32` free. -/
theorem offset_le (h : layout.Encodable) (hid : id ≤ layout.maxNodeId) :
    id - min (id / layout.bucketWidth) (layout.numBuckets - 1) * layout.bucketWidth ≤
      localIdMask := by
  by_cases hlast : id / layout.bucketWidth ≤ layout.numBuckets - 1
  · rw [Nat.min_eq_left hlast]
    have hmod := Nat.mod_lt id h.width_pos
    have hdiv := Nat.div_add_mod' id layout.bucketWidth
    have := h.width_le
    omega
  · rw [Nat.min_eq_right (by omega)]
    have := h.last_le
    omega

lemma locate_eq (h : layout.Encodable) (hid : id ≤ layout.maxNodeId) :
    layout.locate id = some (min (id / layout.bucketWidth) (layout.numBuckets - 1),
      id - min (id / layout.bucketWidth) (layout.numBuckets - 1) * layout.bucketWidth) := by
  have hle := offset_le h hid
  have hfits : localIdMask < 2 ^ 32 := by decide
  rw [locate, if_neg (by omega)]
  exact if_pos (by omega)

lemma locate_eq_none (h : layout.Encodable) : layout.locate id = none ↔ layout.maxNodeId < id := by
  constructor
  · intro hnone
    by_contra hid
    rw [locate_eq h (by omega)] at hnone
    cases hnone
  · exact fun hid => if_pos hid

/-- A layout of as many buckets as stage 2 counts. -/
structure Staged (layout : BucketLayout) : Prop extends layout.Encodable where
  count : layout.numBuckets = IdBuckets.numBuckets

/-- None of the bounds wraps. -/
lemma Staged.idRange_eq (h : layout.Staged) {i : Nat} (hi : i < layout.numBuckets) :
    layout.idRange i = (i * layout.bucketWidth,
      if i = layout.numBuckets - 1 then layout.maxNodeId + 1 else (i + 1) * layout.bucketWidth) := by
  have hcount : layout.numBuckets = 256 := h.count
  have hwidth : layout.bucketWidth ≤ 0x80000000 := Nat.sub_le_iff_le_add.mp h.width_le
  have hlast : layout.maxNodeId - 255 * layout.bucketWidth ≤ 0x7fffffff := by
    have := h.last_le
    rwa [hcount] at this
  have hlo : i * layout.bucketWidth ≤ 256 * layout.bucketWidth := Nat.mul_le_mul_right _ (by omega)
  have hhi : (i + 1) * layout.bucketWidth ≤ 256 * layout.bucketWidth :=
    Nat.mul_le_mul_right _ (by omega)
  rw [idRange, ← h.count, Nat.mod_eq_of_lt (by omega), Nat.mod_eq_of_lt (by omega),
    Nat.mod_eq_of_lt (by omega)]

lemma locate_eq_some {bucket local' : Nat} (h : layout.Encodable)
    (hloc : layout.locate id = some (bucket, local')) :
    bucket < layout.numBuckets ∧ local' ≤ localIdMask ∧
      id = bucket * layout.bucketWidth + local' ∧
        (layout.Staged → Holds (layout.idRange bucket) id) := by
  have hid : id ≤ layout.maxNodeId := by
    by_contra hid
    rw [(locate_eq_none h).mpr (by omega)] at hloc
    cases hloc
  have hle := offset_le h hid
  have hdiv : min (id / layout.bucketWidth) (layout.numBuckets - 1) * layout.bucketWidth ≤ id :=
    (Nat.mul_le_mul_right _ (Nat.min_le_left _ _)).trans (Nat.div_mul_le_self _ _)
  have hpos := layout.numBuckets_pos
  rw [locate_eq h hid] at hloc
  cases hloc
  refine ⟨by omega, hle, by omega, fun hstaged => ?_⟩
  rw [hstaged.idRange_eq (by omega)]
  refine ⟨hdiv, ?_⟩
  dsimp only
  split
  · omega
  · next hlast =>
    rw [Nat.min_eq_left (by omega), Nat.mul_comm]
    exact Nat.lt_mul_div_succ id h.width_pos

/-- The ranges follow one another. -/
theorem idRange_succ (h : layout.Staged) (hnext : i + 1 < layout.numBuckets) :
    (layout.idRange i).2 = (layout.idRange (i + 1)).1 := by
  rw [h.idRange_eq hnext, h.idRange_eq (by omega)]
  exact if_neg (by omega)

lemma idRange_disjoint {i j : Nat} (h : layout.Staged) (hij : i < j) (hj : j < layout.numBuckets) :
    (layout.idRange i).2 ≤ (layout.idRange j).1 := by
  rw [idRange_succ h (by omega), h.idRange_eq hj, h.idRange_eq (by omega)]
  exact Nat.mul_le_mul_right _ hij

end BucketLayout

/-- A slot is in the bucket it is sent to when every bucket has a slot. -/
theorem slotBucket_holds {slot total count : Nat} (hcount : 0 < count) (hwide : count ≤ total)
    (hslot : slot < total) : slotBucket slot total count < count ∧
      Holds (slotBucketBounds total count (slotBucket slot total count)) slot := by
  have hrange : 0 < total / count := Nat.div_pos hwide hcount
  have hdiv : min (slot / (total / count)) (count - 1) * (total / count) ≤ slot :=
    (Nat.mul_le_mul_right _ (Nat.min_le_left _ _)).trans (Nat.div_mul_le_self _ _)
  rw [slotBucket, if_neg (by omega)]
  refine ⟨by omega, hdiv, ?_⟩
  simp only [slotBucketBounds]
  split
  · exact hslot
  · next hlast =>
    rw [Nat.min_eq_left (b := count - 1) (by omega), Nat.mul_comm, Nat.lt_min]
    exact ⟨Nat.lt_mul_div_succ slot hrange, hslot⟩

/-- Ids and slots are cut into the buckets without a gap or an overlap. Stage 2 works on these
buckets when there are as many as it counts. -/
theorem buckets_partition {maxNodeId numBuckets : Nat} {layout : BucketLayout}
    (hmax : maxNodeId < 2 ^ 64) (h : BucketLayout.new maxNodeId numBuckets = .ok layout) :
    (∀ id, layout.locate id = none ↔ maxNodeId < id) ∧
      (∀ id bucket k, layout.locate id = some (bucket, k) →
        bucket < numBuckets ∧ k ≤ localIdMask ∧ id = bucket * layout.bucketWidth + k) ∧
      (∀ id id' p, layout.locate id = some p → layout.locate id' = some p → id = id') ∧
      (numBuckets = IdBuckets.numBuckets →
        (∀ id bucket k, layout.locate id = some (bucket, k) → Holds (layout.idRange bucket) id) ∧
          (∀ i, i + 1 < numBuckets → (layout.idRange i).2 = (layout.idRange (i + 1)).1) ∧
            ∀ i j, i < j → j < numBuckets → (layout.idRange i).2 ≤ (layout.idRange j).1) ∧
      ∀ slot total count, 0 < count → count ≤ total → slot < total →
        slotBucket slot total count < count ∧
          Holds (slotBucketBounds total count (slotBucket slot total count)) slot := by
  obtain ⟨rfl, rfl, hfits⟩ := BucketLayout.new_ok hmax h
  refine ⟨fun id => BucketLayout.locate_eq_none hfits, ?_, ?_, fun hcount => ?_,
    fun slot total count => slotBucket_holds⟩
  · intro id bucket k hid
    obtain ⟨hlt, hle, heq, -⟩ := BucketLayout.locate_eq_some hfits hid
    exact ⟨hlt, hle, heq⟩
  · intro id id' p hid hid'
    have := BucketLayout.locate_eq_some hfits hid
    have := BucketLayout.locate_eq_some hfits hid'
    omega
  · have hstaged : layout.Staged := ⟨hfits, hcount⟩
    refine ⟨fun id bucket k hid => ?_, fun i => BucketLayout.idRange_succ hstaged,
      fun i j => BucketLayout.idRange_disjoint hstaged⟩
    exact (BucketLayout.locate_eq_some hfits hid).2.2.2 hstaged

/-- The layout the program builds for a thousand ids. -/
theorem buckets_partition_thousand : ∃ layout, BucketLayout.new 1000 numBuckets = .ok layout ∧
    layout.locate 1000 = some (250, 0) ∧ Holds (layout.idRange 250) 1000 :=
  ⟨⟨1000, 4, 256, by decide⟩, rfl, rfl,
    ((@buckets_partition 1000 numBuckets _ (by decide) rfl).2.2.2.1 rfl).1 1000 250 0 rfl⟩

/-- With fewer slots than buckets the first slot is sent to an empty bucket, and with more buckets
than stage 2 counts its last range overlaps the next. -/
theorem slot_outside_bucket :
    (¬∀ slot total count, 0 < count → slot < total →
      Holds (slotBucketBounds total count (slotBucket slot total count)) slot) ∧
      ¬∀ maxNodeId numBuckets layout, BucketLayout.new maxNodeId numBuckets = .ok layout →
        ∀ i j, i < j → j < numBuckets → (layout.idRange i).2 ≤ (layout.idRange j).1 := by
  constructor
  · intro h
    exact absurd (h 0 1 2 (by decide) (by decide)).2 (by decide)
  · intro h
    exact absurd (h 2999 300 ⟨2999, 10, 300, by decide⟩ rfl 255 256 (by decide) (by decide))
      (by decide)

end IdBuckets
