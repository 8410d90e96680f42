import Mathlib.Algebra.Group.Nat.Defs
import Mathlib.Data.List.Nodup
import Mathlib.Data.List.Range

/-!
# Slot buckets and way blobs

`slot_bucket_bounds` and `validate_slot_layout` of `commands/altw/external/mod.rs` and
`classify_blobs_in_bucket` of `blob_bucket_index.rs`: each bucket lists the way blobs whose slots it
meets.
-/

namespace SlotLayout

open List

def coordSlotSize : Nat := 8

def resolvedEntrySize : Nat := 12

def slotBucketBounds (totalSlots slotBucketCount bucketIdx : Nat) : Nat × Nat :=
  let rangeSize := totalSlots / slotBucketCount
  (bucketIdx * rangeSize,
    if bucketIdx = slotBucketCount - 1 then totalSlots
    else min ((bucketIdx + 1) * rangeSize) totalSlots)

inductive LayoutError where
  | invalidLayout
  | tooWide (total buckets widest : Nat)
  | tooLarge (total buckets widest : Nat)
  | notMonotonic
  | blobTooWide (blobIdx length width : Nat)
  | slotsWithoutBlobs
  deriving DecidableEq

/-- The loop of `validate_slot_layout` over the blobs from the `i`-th on. -/
def checkBlobs (total width : Nat) : Nat → List Nat → Except LayoutError Unit
  | _, [] => .ok ()
  | i, start :: rest =>
    let blobEnd := rest.headD total
    if blobEnd < start then .error .notMonotonic
    else if total < blobEnd ∨ width < blobEnd - start then
      .error (.blobTooWide i (blobEnd - start) width)
    else checkBlobs total width (i + 1) rest

/-- `isizeMax` is that of the target. -/
def validateSlotLayout (isizeMax : Nat) (starts : List Nat) (total buckets : Nat) :
    Except LayoutError Unit :=
  if buckets = 0 ∨ starts.headD 0 ≠ 0 then .error .invalidLayout
  else
    let (lastStart, lastEnd) := slotBucketBounds total buckets (buckets - 1)
    let widest := lastEnd - lastStart
    if 2 ^ 32 < widest then .error (.tooWide total buckets widest)
    else if isizeMax < widest * coordSlotSize ∨ isizeMax < widest * resolvedEntrySize then
      .error (.tooLarge total buckets widest)
    else
      match checkBlobs total (total / buckets) 0 starts with
      | .error e => .error e
      | .ok () => if starts = [] ∧ total ≠ 0 then .error .slotsWithoutBlobs else .ok ()

inductive BlobBucketIntersection where
  | fullyContained (blobIdx : Nat)
  | rightHalf (blobIdx : Nat)
  | leftHalf (blobIdx : Nat)
  deriving DecidableEq

def BlobBucketIntersection.blobIdx : BlobBucketIntersection → Nat
  | .fullyContained i => i
  | .rightHalf i => i
  | .leftHalf i => i

/-- A blob wider than its bucket: an assumption of the caller is violated. -/
structure ClassifyError where
  blobIdx : Nat
  blobSize : Nat
  bucketSize : Nat

/-- The loop of `classify_blobs_in_bucket` over the blobs from the `i`-th on. -/
def classifyFrom (bucketStart bucketEnd total : Nat) :
    Nat → List Nat → Except ClassifyError (List BlobBucketIntersection)
  | _, [] => .ok []
  | i, start :: rest =>
    let blobEnd := rest.headD total
    if bucketEnd ≤ start then .ok []
    else if blobEnd = start then classifyFrom bucketStart bucketEnd total (i + 1) rest
    else if bucketEnd - bucketStart < blobEnd - start then
      .error ⟨i, blobEnd - start, bucketEnd - bucketStart⟩
    else if blobEnd ≤ bucketStart then classifyFrom bucketStart bucketEnd total (i + 1) rest
    else
      let intersection : BlobBucketIntersection :=
        if bucketStart ≤ start ∧ blobEnd ≤ bucketEnd then .fullyContained i
        else if start < bucketStart then .rightHalf i
        else .leftHalf i
      (classifyFrom bucketStart bucketEnd total (i + 1) rest).map (intersection :: ·)

/-- `partition_point` of a slice whose elements with `p` come first. -/
def partitionPoint (p : Nat → Bool) (l : List Nat) : Nat := (l.takeWhile p).length

def classifyBlobsInBucket (bucketStart bucketEnd : Nat) (starts : List Nat) (total : Nat) :
    Except ClassifyError (List BlobBucketIntersection) :=
  let j := partitionPoint (· ≤ bucketStart) starts
  let first := if 0 < j then j - 1 else 0
  classifyFrom bucketStart bucketEnd total first (starts.drop first)

def blobStart (starts : List Nat) (i : Nat) : Nat := starts.getD i 0

def blobEnd (starts : List Nat) (total i : Nat) : Nat := starts.getD (i + 1) total

/-- What `validate_slot_layout` has established. -/
structure Valid (starts : List Nat) (total buckets : Nat) : Prop where
  buckets_pos : 0 < buckets
  start_le : ∀ i < starts.length, blobStart starts i ≤ blobEnd starts total i
  end_le : ∀ i < starts.length, blobEnd starts total i ≤ total
  length_le : ∀ i < starts.length,
    blobEnd starts total i - blobStart starts i ≤ total / buckets

lemma headD_drop (l : List Nat) (d i : Nat) : (l.drop i).headD d = l.getD i d := by
  rw [headD_eq_head?_getD, head?_drop, getD_eq_getElem?_getD]

variable {starts : List Nat}

lemma checkBlobs_ok {total width : Nat} :
    ∀ (l : List Nat) (i : Nat), l = starts.drop i → checkBlobs total width i l = .ok () →
      ∀ j, i ≤ j → j < starts.length → blobStart starts j ≤ blobEnd starts total j ∧
        blobEnd starts total j ≤ total ∧ blobEnd starts total j - blobStart starts j ≤ width := by
  intro l
  induction l with
  | nil =>
    intro i hl _ j hij hj
    have := drop_eq_nil_iff.mp hl.symm
    omega
  | cons start rest ih =>
    intro i hl hok j hij hj
    have hi : i < starts.length := by omega
    have hcons := drop_eq_getElem_cons hi
    rw [← hl, cons.injEq] at hcons
    obtain ⟨hstart, hrest⟩ := hcons
    have hend : rest.headD total = blobEnd starts total i := by
      rw [hrest, headD_drop]
      rfl
    have hstart' : start = blobStart starts i := by
      rw [hstart, blobStart, getD_eq_getElem?_getD, getElem?_eq_getElem hi]
      rfl
    rw [checkBlobs] at hok
    simp only [hend, hstart'] at hok
    split at hok
    · cases hok
    · split at hok
      · cases hok
      · next hmono hwidth =>
        by_cases hji : j = i
        · subst hji
          omega
        · exact ih (i + 1) hrest hok j (by omega) hj

lemma valid_of_validate {isizeMax : Nat} {total buckets : Nat}
    (h : validateSlotLayout isizeMax starts total buckets = .ok ()) :
    Valid starts total buckets := by
  unfold validateSlotLayout at h
  split at h
  · cases h
  · next hbuckets =>
    simp only [] at h
    split at h
    · cases h
    · split at h
      · cases h
      · split at h
        · cases h
        · next hcheck =>
          have hall := checkBlobs_ok starts 0 rfl hcheck
          refine ⟨by omega, fun i hi => ?_, fun i hi => ?_, fun i hi => ?_⟩
          · exact (hall i (Nat.zero_le i) hi).1
          · exact (hall i (Nat.zero_le i) hi).2.1
          · exact (hall i (Nat.zero_le i) hi).2.2

/-- A blob ends where the next begins. -/
theorem blobEnd_eq {total i : Nat} (hi : i + 1 < starts.length) :
    blobEnd starts total i = blobStart starts (i + 1) := by
  simp [blobEnd, blobStart, getD_eq_getElem?_getD, getElem?_eq_getElem hi]

section Blobs

variable {starts : List Nat} {total buckets : Nat} (h : Valid starts total buckets)

include h

/-- The blobs come in the order of their slots. -/
theorem Valid.end_le_start {i j : Nat} (hij : i < j) (hj : j < starts.length) :
    blobEnd starts total i ≤ blobStart starts j := by
  induction j with
  | zero => omega
  | succ j ih =>
    by_cases heq : i = j
    · rw [heq, blobEnd_eq hj]
    · have hstep := @blobEnd_eq starts total j hj
      have hle := h.start_le j (by omega)
      have := ih (by omega) (by omega)
      omega

end Blobs

/-- How the `i`-th blob meets the bucket. -/
def pieceIn (starts : List Nat) (total bucketStart bucketEnd i : Nat) :
    Option BlobBucketIntersection :=
  let a := blobStart starts i
  let b := blobEnd starts total i
  if bucketEnd ≤ a ∨ b = a ∨ b ≤ bucketStart then none
  else some (if bucketStart ≤ a ∧ b ≤ bucketEnd then .fullyContained i
    else if a < bucketStart then .rightHalf i else .leftHalf i)

lemma pieceIn_blobIdx {total bucketStart bucketEnd i : Nat} {x : BlobBucketIntersection}
    (h : pieceIn starts total bucketStart bucketEnd i = some x) :
    x.blobIdx = i := by
  simp only [pieceIn] at h
  split at h
  · cases h
  · cases h
    split
    · rfl
    · split <;> rfl

/-- The element before the partition point. -/
theorem partitionPoint_last {p : Nat → Bool} {l : List Nat} (h : 0 < partitionPoint p l) :
    p (l.getD (partitionPoint p l - 1) 0) = true := by
  induction l with
  | nil => exact absurd h (Nat.lt_irrefl 0)
  | cons x rest ih =>
    by_cases hx : p x = true
    · have hlen : partitionPoint p (x :: rest) = partitionPoint p rest + 1 := by
        simp [partitionPoint, hx]
      rw [hlen, Nat.add_sub_cancel]
      cases hrest : partitionPoint p rest with
      | zero => exact hx
      | succ m =>
        have hlast := ih (by omega)
        rw [hrest, Nat.add_sub_cancel] at hlast
        exact hlast
    · have hzero : partitionPoint p (x :: rest) = 0 := by simp [partitionPoint, hx]
      omega

section Classify

variable {starts : List Nat} {total buckets bucketStart bucketEnd : Nat}
  (h : Valid starts total buckets) (hwide : total / buckets ≤ bucketEnd - bucketStart)

include h hwide

lemma classifyFrom_eq : ∀ (l : List Nat) (i : Nat), l = starts.drop i →
    classifyFrom bucketStart bucketEnd total i l =
      .ok ((range' i l.length).filterMap (pieceIn starts total bucketStart bucketEnd)) := by
  intro l
  induction l with
  | nil =>
    intro i _
    rfl
  | cons start rest ih =>
    intro i hl
    have hi : i < starts.length := by
      by_contra hge
      rw [drop_eq_nil_of_le (by omega)] at hl
      cases hl
    have hcons := drop_eq_getElem_cons hi
    rw [← hl, cons.injEq] at hcons
    obtain ⟨hstart, hrest⟩ := hcons
    have hend : rest.headD total = blobEnd starts total i := by
      rw [hrest, headD_drop]
      rfl
    have hstart' : start = blobStart starts i := by
      rw [hstart, blobStart, getD_eq_getElem?_getD, getElem?_eq_getElem hi]
      rfl
    have hlen : rest.length + (i + 1) = starts.length := by
      rw [hrest, length_drop]
      omega
    have hwidth := h.length_le i hi
    have hmono := h.start_le i hi
    rw [classifyFrom, length_cons, range'_succ, filterMap_cons]
    simp only [hend, hstart', ih (i + 1) hrest]
    by_cases hbreak : bucketEnd ≤ blobStart starts i
    · -- The blobs that follow begin behind the bucket too.
      have hnone : (range' (i + 1) rest.length).filterMap
          (pieceIn starts total bucketStart bucketEnd) = [] := by
        refine filterMap_eq_nil_iff.mpr fun j hj => ?_
        obtain ⟨hlo, hhi⟩ := mem_range'_1.mp hj
        have := h.end_le_start (by omega : i < j) (by omega)
        simp only [pieceIn]
        rw [if_pos (.inl (by omega))]
      simp [pieceIn, hbreak, hnone]
    · by_cases hempty : blobEnd starts total i = blobStart starts i
      · simp [pieceIn, hbreak, hempty]
      · by_cases hbefore : blobEnd starts total i ≤ bucketStart
        · rw [if_neg hbreak, if_neg hempty, if_neg (by omega), if_pos hbefore]
          simp [pieceIn, hbefore]
        · rw [if_neg hbreak, if_neg hempty, if_neg (by omega), if_neg hbefore]
          simp [pieceIn, hbreak, hempty, hbefore, Except.map]

/-- The search starts at the last blob that begins at or before the bucket; what comes before it
ends there. -/
theorem classifyBlobsInBucket_eq : classifyBlobsInBucket bucketStart bucketEnd starts total =
      .ok ((range starts.length).filterMap (pieceIn starts total bucketStart bucketEnd)) := by
  have hdef : ∀ first, (∀ i < first, pieceIn starts total bucketStart bucketEnd i = none) →
      first ≤ starts.length →
        classifyFrom bucketStart bucketEnd total first (starts.drop first) =
          .ok ((range starts.length).filterMap
            (pieceIn starts total bucketStart bucketEnd)) := by
    intro first hnone hle
    rw [classifyFrom_eq h hwide _ first rfl, length_drop]
    have hsplit : range starts.length =
        range first ++ range' first (starts.length - first) := by
      have happend := @range'_append_1 0 first (starts.length - first)
      rw [Nat.zero_add, Nat.add_sub_of_le hle] at happend
      rw [range_eq_range', range_eq_range', happend]
    rw [hsplit, filterMap_append]
    have hnil : (range first).filterMap (pieceIn starts total bucketStart bucketEnd) = [] :=
      filterMap_eq_nil_iff.mpr fun i hi => hnone i (mem_range.mp hi)
    rw [hnil, nil_append]
  unfold classifyBlobsInBucket
  simp only []
  have hjle : partitionPoint (· ≤ bucketStart) starts ≤ starts.length :=
    List.IsPrefix.length_le ( takeWhile_prefix _)
  split
  · next hpos =>
    have hbegin := partitionPoint_last hpos
    rw [decide_eq_true_eq] at hbegin
    refine hdef _ (fun i hi => ?_) (by omega)
    have := h.end_le_start hi (by omega)
    simp only [pieceIn]
    rw [if_pos (.inr (.inr (Nat.le_trans this hbegin)))]
  · exact hdef 0 (fun i hi => absurd hi (Nat.not_lt_zero i)) (Nat.zero_le _)

end Classify

def bucketStart (total buckets k : Nat) : Nat := (slotBucketBounds total buckets k).1

def bucketEnd (total buckets k : Nat) : Nat := (slotBucketBounds total buckets k).2

lemma bucketStart_eq (total buckets k : Nat) :
    bucketStart total buckets k = k * (total / buckets) := rfl

variable {total buckets k : Nat}

lemma bucketEnd_last (h : k + 1 = buckets) :
    bucketEnd total buckets k = total := by
  simp only [bucketEnd, slotBucketBounds]
  rw [if_pos (by omega)]

/-- Every bucket but the last ends where the next begins. -/
theorem bucketEnd_eq (h : k + 1 < buckets) :
    bucketEnd total buckets k = bucketStart total buckets (k + 1) := by
  have hle : (k + 1) * (total / buckets) ≤ total := by
    calc (k + 1) * (total / buckets) ≤ buckets * (total / buckets) :=
          Nat.mul_le_mul_right _ (by omega)
      _ ≤ total := Nat.mul_div_le total buckets
  simp only [bucketEnd, bucketStart, slotBucketBounds]
  rw [if_neg (by omega), Nat.min_eq_left hle]

lemma bucketStart_succ (total buckets k : Nat) :
    bucketStart total buckets (k + 1) = bucketStart total buckets k + total / buckets := by
  simp only [bucketStart_eq, Nat.add_mul, Nat.one_mul]

lemma bucketStart_mono {total buckets k m : Nat} (h : k ≤ m) :
    bucketStart total buckets k ≤ bucketStart total buckets m :=
  Nat.mul_le_mul_right _ h

/-- No bucket is narrower than the others: the last takes the remainder. -/
theorem bucket_wide (hk : k < buckets) :
    bucketStart total buckets k + total / buckets ≤ bucketEnd total buckets k := by
  by_cases hlast : k + 1 = buckets
  · rw [bucketEnd_last hlast, ← bucketStart_succ, bucketStart_eq, hlast]
    exact Nat.mul_div_le total buckets
  · rw [bucketEnd_eq (by omega), bucketStart_succ]

/-- What bucket `k` lists of the `i`-th blob. -/
def pieceAt (starts : List Nat) (total buckets k i : Nat) : Option BlobBucketIntersection :=
  pieceIn starts total (bucketStart total buckets k) (bucketEnd total buckets k) i

/-- The listing of bucket `k`. -/
def listing (starts : List Nat) (total buckets k : Nat) : List BlobBucketIntersection :=
  (range starts.length).filterMap (pieceAt starts total buckets k)

lemma classify_listing (h : Valid starts total buckets) (hk : k < buckets) :
    classifyBlobsInBucket (bucketStart total buckets k) (bucketEnd total buckets k) starts total =
      .ok (listing starts total buckets k) := by
  have hwide := @bucket_wide total buckets k hk
  exact classifyBlobsInBucket_eq h (by omega)

lemma pieceAt_empty {total buckets k i : Nat} (h : blobEnd starts total i = blobStart starts i) :
    pieceAt starts total buckets k i = none := by
  simp [pieceAt, pieceIn, h]

section Pieces

variable {starts : List Nat} {total buckets i : Nat} (h : Valid starts total buckets)
  (hi : i < starts.length) (hne : blobStart starts i < blobEnd starts total i)

include h hi hne

lemma exists_home : ∃ k < buckets, bucketStart total buckets k ≤ blobStart starts i ∧
    blobStart starts i < bucketEnd total buckets k := by
  have hpos := h.buckets_pos
  have hle := h.end_le i hi
  have hwidth := h.length_le i hi
  have hw : 0 < total / buckets := by omega
  by_cases hlast : blobStart starts i / (total / buckets) < buckets - 1
  · refine ⟨blobStart starts i / (total / buckets), by omega, ?_, ?_⟩
    · exact Nat.div_mul_le_self _ _
    · rw [bucketEnd_eq (by omega)]
      exact Nat.lt_mul_of_div_lt (Nat.lt_succ_self _) hw
  · refine ⟨buckets - 1, by omega, ?_, ?_⟩
    · rw [bucketStart_eq]
      exact (Nat.le_div_iff_mul_le hw).mp (by omega)
    · rw [bucketEnd_last (by omega)]
      omega

/-- A blob is listed by the bucket it begins in, as a whole or as a left half, and as a right half
by the next if it goes on there; no other bucket lists it. -/
theorem pieceAt_cases : ∃ k < buckets,
    bucketStart total buckets k ≤ blobStart starts i ∧
      blobStart starts i < bucketEnd total buckets k ∧
      ((blobEnd starts total i ≤ bucketEnd total buckets k ∧
        ∀ m < buckets, pieceAt starts total buckets m i =
          if m = k then some (.fullyContained i) else none) ∨
      (k + 1 < buckets ∧ bucketEnd total buckets k < blobEnd starts total i ∧
        bucketEnd total buckets k = bucketStart total buckets (k + 1) ∧
        blobEnd starts total i ≤ bucketEnd total buckets (k + 1) ∧
        ∀ m < buckets, pieceAt starts total buckets m i =
          if m = k then some (.leftHalf i)
          else if m = k + 1 then some (.rightHalf i) else none)) := by
  obtain ⟨k, hk, hlo, hhi⟩ := exists_home h hi hne
  have hle := h.end_le i hi
  have hwidth := h.length_le i hi
  -- A bucket in front of it ends before the blob.
  have hbefore : ∀ m, m < k → pieceAt starts total buckets m i = none := by
    intro m hm
    have hend := @bucketEnd_eq total buckets m (by omega)
    have := @bucketStart_mono total buckets (m + 1) k hm
    simp only [pieceAt, pieceIn]
    rw [if_pos (.inl (by omega))]
  have hbehind : ∀ m, blobEnd starts total i ≤ bucketStart total buckets m →
      pieceAt starts total buckets m i = none := by
    intro m hm
    simp only [pieceAt, pieceIn]
    rw [if_pos (.inr (.inr hm))]
  refine ⟨k, hk, hlo, hhi, ?_⟩
  by_cases hfits : blobEnd starts total i ≤ bucketEnd total buckets k
  · refine .inl ⟨hfits, fun m hm => ?_⟩
    by_cases hmk : m = k
    · subst hmk
      simp only [pieceAt, pieceIn]
      rw [if_neg (by omega), if_pos ⟨hlo, hfits⟩, if_pos trivial]
    · rw [if_neg hmk]
      rcases Nat.lt_or_gt_of_ne hmk with hlt | hgt
      · exact hbefore m hlt
      · have hend := @bucketEnd_eq total buckets k (by omega)
        have := @bucketStart_mono total buckets (k + 1) m hgt
        exact hbehind m (by omega)
  · have hnext : k + 1 < buckets := by
      by_contra hge
      rw [bucketEnd_last (by omega)] at hfits
      exact hfits hle
    have hend := @bucketEnd_eq total buckets k hnext
    have hwide := @bucket_wide total buckets (k + 1) hnext
    have hfits' : blobEnd starts total i ≤ bucketEnd total buckets (k + 1) := by omega
    refine .inr ⟨hnext, by omega, hend, hfits', fun m hm => ?_⟩
    by_cases hmk : m = k
    · subst hmk
      simp only [pieceAt, pieceIn]
      rw [if_neg (by omega), if_neg (fun hc => hfits hc.2), if_neg (by omega), if_pos trivial]
    · by_cases hmk' : m = k + 1
      · subst hmk'
        simp only [pieceAt, pieceIn]
        rw [if_neg (by omega), if_neg (by omega), if_pos (by omega), if_neg hmk, if_pos trivial]
      · rw [if_neg hmk, if_neg hmk']
        rcases Nat.lt_or_gt_of_ne hmk with hlt | hgt
        · exact hbefore m hlt
        · have hsucc := bucketStart_succ total buckets (k + 1)
          have := @bucketStart_mono total buckets (k + 1 + 1) m (by omega)
          exact hbehind m (by omega)

end Pieces

lemma mem_listing {x : BlobBucketIntersection} :
    x ∈ listing starts total buckets k ↔
      x.blobIdx < starts.length ∧ pieceAt starts total buckets k x.blobIdx = some x := by
  simp only [listing, mem_filterMap, mem_range]
  constructor
  · rintro ⟨i, hi, hx⟩
    rw [pieceIn_blobIdx hx]
    exact ⟨hi, hx⟩
  · exact fun hx => ⟨x.blobIdx, hx⟩

lemma listing_nodup (starts : List Nat) (total buckets k : Nat) :
    (listing starts total buckets k).Nodup := by
  refine List.Nodup.filterMap (fun i j x hi hj => ?_) nodup_range
  rw [← pieceIn_blobIdx hi, ← pieceIn_blobIdx hj]

lemma listing_filter {total buckets k i : Nat} (hi : i < starts.length) :
    (listing starts total buckets k).filter (fun x => x.blobIdx = i) =
      (pieceAt starts total buckets k i).toList := by
  have hone : ∀ j, Option.filter (fun x : BlobBucketIntersection => decide (x.blobIdx = i))
      (pieceAt starts total buckets k j) =
        if j = i then pieceAt starts total buckets k i else none := by
    intro j
    cases hx : pieceAt starts total buckets k j with
    | none =>
      by_cases hji : j = i
      · subst hji
        simp [hx]
      · simp [hji]
    | some x =>
      have hj := pieceIn_blobIdx hx
      by_cases hji : j = i
      · subst hji
        simp [Option.filter, hj, hx]
      · simp [Option.filter, hj, hji]
  have hrange : ∀ n, i < n → (range n).filterMap
      (fun j => if j = i then pieceAt starts total buckets k i else none) =
        (pieceAt starts total buckets k i).toList := by
    intro n hn
    induction n with
    | zero => omega
    | succ n ih =>
      rw [range_succ, filterMap_append]
      by_cases hin : i = n
      · subst hin
        have hnil : (range i).filterMap
            (fun j => if j = i then pieceAt starts total buckets k i else none) = [] := by
          refine filterMap_eq_nil_iff.mpr fun j hj => ?_
          rw [if_neg (Nat.ne_of_lt (mem_range.mp hj))]
        rw [hnil]
        cases pieceAt starts total buckets k i <;> simp
      · rw [ih (by omega)]
        simp [Ne.symm hin]
  rw [listing, filter_filterMap]
  simp only [hone]
  exact hrange starts.length hi

end SlotLayout
