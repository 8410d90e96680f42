import Pbfhogg.Altw.Router
import Pbfhogg.Lib.Indexed

/-!
# Invariants of the payload router

Each piece of a blob is in one place at most: unclaimed, in a worker's hands, staged as a half or
published. From that follow what is published and that no publication is refused.
-/

namespace PayloadRouter

open SlotLayout Indexed List Function

variable {α : Type} {c : Inputs α} {s t : State α}

variable {k i : Nat} {partials : Nat → Option (StraddlerPartial α)}
  {p : Option (StraddlerPartial α)} {slots : Nat → Option BlobLocation}
  {rest : List BlobBucketIntersection}

def Inputs.listing (c : Inputs α) (k : Nat) : List BlobBucketIntersection :=
  SlotLayout.listing c.starts c.total c.buckets k

/-- The slots of a blob. -/
def Inputs.whole (c : Inputs α) (i : Nat) : List α := c.slotsOf (c.blobStart i) (c.blobEnd i)

lemma Inputs.valid (c : Inputs α) : Valid c.starts c.total c.buckets :=
  valid_of_validate c.accepted

lemma classify_eq (hk : k < c.buckets) : c.classify k = .ok (c.listing k) :=
  classify_listing c.valid hk

/-- How often a piece is listed. -/
def Inputs.listed (c : Inputs α) (x : BlobBucketIntersection) : Nat :=
  ∑ k ∈ Finset.range c.buckets, (c.listing k).count x

lemma count_listing (k : Nat) (x : BlobBucketIntersection) :
    (c.listing k).count x = if x ∈ c.listing k then 1 else 0 := by
  split
  · next h => exact count_eq_one_of_mem (listing_nodup _ _ _ _) h
  · next h => exact count_eq_zero_of_not_mem h

variable {x : BlobBucketIntersection} {w : Nat}

lemma mem_listing_iff : x ∈ c.listing k ↔ x.blobIdx < c.starts.length ∧
      pieceAt c.starts c.total c.buckets k x.blobIdx = some x :=
  mem_listing

/-- The blob has slots. -/
def Inputs.Nonempty (c : Inputs α) (i : Nat) : Prop :=
  i < c.starts.length ∧ c.blobStart i < c.blobEnd i

lemma nonempty_of_mem (h : x ∈ c.listing k) : c.Nonempty x.blobIdx := by
  obtain ⟨hlt, hx⟩ := mem_listing_iff.mp h
  refine ⟨hlt, ?_⟩
  have hle := c.valid.start_le x.blobIdx hlt
  by_contra hge
  have heq : SlotLayout.blobEnd c.starts c.total x.blobIdx = SlotLayout.blobStart c.starts x.blobIdx := by
    simp only [Inputs.blobStart, Inputs.blobEnd] at hge
    omega
  rw [pieceAt_empty heq] at hx
  cases hx

lemma nonzeroRefs_iff (hi : i < c.starts.length) :
    c.blobHasNonzeroRefs i = true ↔ c.blobStart i < c.blobEnd i := by
  have hsum := c.agrees i hi
  have hle := c.valid.start_le i hi
  have hany : c.blobHasNonzeroRefs i = true ↔ (c.perWayRcs.getD i []).sum ≠ 0 := by
    simp only [Inputs.blobHasNonzeroRefs, any_eq_true, decide_eq_true_eq]
    rw [Ne, sum_eq_zero_iff]
    push Not
    rfl
  rw [hany, hsum]
  simp only [Inputs.blobStart, Inputs.blobEnd]
  omega

/-- A sum in which only one bucket counts. -/
theorem sum_single {n : Nat} (hk : k < n) (b : Nat) :
    (∑ m ∈ Finset.range n, if m = k then b else 0) = b := by
  rw [Finset.sum_ite_eq', if_pos (Finset.mem_range.mpr hk)]

/-- A blob is listed whole by one bucket, or in two halves by two that follow each other. -/
theorem blob_pieces (h : c.Nonempty i) :
    (∃ k < c.buckets, c.bucketStart k ≤ c.blobStart i ∧ c.blobEnd i ≤ c.bucketEnd k ∧
      ∀ m < c.buckets, ∀ x : BlobBucketIntersection, x.blobIdx = i →
        (x ∈ c.listing m ↔ m = k ∧ x = .fullyContained i)) ∨
    (∃ k, k + 1 < c.buckets ∧ c.bucketStart k ≤ c.blobStart i ∧ c.blobStart i < c.bucketEnd k ∧
      c.bucketEnd k = c.bucketStart (k + 1) ∧ c.bucketEnd k < c.blobEnd i ∧
      c.blobEnd i ≤ c.bucketEnd (k + 1) ∧
      ∀ m < c.buckets, ∀ x : BlobBucketIntersection, x.blobIdx = i →
        (x ∈ c.listing m ↔ (m = k ∧ x = .leftHalf i) ∨ (m = k + 1 ∧ x = .rightHalf i))) := by
  obtain ⟨k, hk, hlo, hhi, hcases⟩ := pieceAt_cases c.valid h.1 h.2
  rcases hcases with ⟨hend, hpiece⟩ | ⟨hnext, hover, hmeet, hend, hpiece⟩
  · refine .inl ⟨k, hk, hlo, hend, fun m hm x hx => ?_⟩
    rw [mem_listing_iff, hx, hpiece m hm]
    by_cases hmk : m = k
    · simp [hmk, h.1, eq_comm]
    · simp [hmk]
  · refine .inr ⟨k, hnext, hlo, hhi, hmeet, hover, hend, fun m hm x hx => ?_⟩
    rw [mem_listing_iff, hx, hpiece m hm]
    by_cases hmk : m = k
    · simp [hmk, h.1, eq_comm]
    · by_cases hmk' : m = k + 1
      · simp [hmk', h.1, eq_comm]
      · simp [hmk, hmk']

/-- How often the pieces of a blob with slots are listed. -/
theorem listed_cases (h : c.Nonempty i) :
    (c.listed (.fullyContained i) = 1 ∧ c.listed (.leftHalf i) = 0 ∧ c.listed (.rightHalf i) = 0) ∨
      (c.listed (.fullyContained i) = 0 ∧ c.listed (.leftHalf i) = 1 ∧
        c.listed (.rightHalf i) = 1) := by
  have hsum : ∀ (x : BlobBucketIntersection) (f : Nat → Nat),
      (∀ m < c.buckets, (if x ∈ c.listing m then 1 else 0) = f m) →
        c.listed x = ∑ m ∈ Finset.range c.buckets, f m := by
    intro x f hf
    refine Finset.sum_congr rfl fun m hm => ?_
    rw [count_listing]
    exact hf m (Finset.mem_range.mp hm)
  rcases blob_pieces h with ⟨k, hk, -, -, hmem⟩ | ⟨k, hk, -, -, -, -, -, hmem⟩
  · refine .inl ⟨?_, ?_, ?_⟩
    · rw [hsum (.fullyContained i) (fun m => if m = k then 1 else 0)
        fun m hm => by simp [hmem m hm (.fullyContained i) rfl], sum_single hk]
    · rw [hsum (.leftHalf i) (fun _ => 0) fun m hm => by simp [hmem m hm (.leftHalf i) rfl],
        Finset.sum_const_zero]
    · rw [hsum (.rightHalf i) (fun _ => 0) fun m hm => by simp [hmem m hm (.rightHalf i) rfl],
        Finset.sum_const_zero]
  · refine .inr ⟨?_, ?_, ?_⟩
    · rw [hsum (.fullyContained i) (fun _ => 0)
        fun m hm => by simp [hmem m hm (.fullyContained i) rfl], Finset.sum_const_zero]
    · rw [hsum (.leftHalf i) (fun m => if m = k then 1 else 0)
        fun m hm => by simp [hmem m hm (.leftHalf i) rfl], sum_single (by omega)]
    · rw [hsum (.rightHalf i) (fun m => if m = k + 1 then 1 else 0)
        fun m hm => by simp [hmem m hm (.rightHalf i) rfl], sum_single hk]

lemma listed_eq_zero (h : ¬ c.Nonempty x.blobIdx) : c.listed x = 0 := by
  refine Finset.sum_eq_zero fun k _ => ?_
  rw [count_listing, if_neg fun hmem => h (nonempty_of_mem hmem)]

lemma listed_le_one (x : BlobBucketIntersection) : c.listed x ≤ 1 := by
  by_cases h : c.Nonempty x.blobIdx
  · have hcases := listed_cases h
    cases x with
    | fullyContained | rightHalf | leftHalf =>
      simp only [BlobBucketIntersection.blobIdx] at hcases; omega
  · rw [listed_eq_zero h]
    exact Nat.zero_le _

lemma slotsOf_append {a b d : Nat} (hab : a ≤ b) (hbd : b ≤ d) :
    c.slotsOf a b ++ c.slotsOf b d = c.slotsOf a d := by
  have happend := @range'_append_1 a (b - a) (d - b)
  rw [Nat.add_sub_of_le hab, show b - a + (d - b) = d - a by omega] at happend
  rw [Inputs.slotsOf, Inputs.slotsOf, Inputs.slotsOf, ← map_append, happend]

lemma length_slotsOf (a b : Nat) : (c.slotsOf a b).length = b - a := by
  simp [Inputs.slotsOf]

/-- Slots from within a stretch. -/
theorem drop_slotsOf {a b d : Nat} (hab : a ≤ b) (hbd : b ≤ d) :
    (c.slotsOf a d).drop (b - a) = c.slotsOf b d := by
  rw [← slotsOf_append hab hbd]
  exact drop_left' (length_slotsOf a b)

lemma take_slotsOf {a b d : Nat} (hab : a ≤ b) (hbd : b ≤ d) :
    (c.slotsOf a d).take (b - a) = c.slotsOf a b := by
  rw [← slotsOf_append hab hbd]
  exact take_left' (length_slotsOf a b)

lemma slice_full (hk : k < c.buckets) (h : .fullyContained i ∈ c.listing k) :
    c.slice k (.fullyContained i) = c.whole i := by
  have hne : c.Nonempty i := nonempty_of_mem h
  rcases blob_pieces hne with ⟨m, hm, hlo, hhi, hmem⟩ | ⟨m, hm, -, -, -, -, -, hmem⟩
  · obtain ⟨rfl, -⟩ := (hmem k hk _ rfl).mp h
    have hle := Nat.le_of_lt hne.2
    rw [Inputs.slice, Inputs.scatterBuf, take_slotsOf (Nat.le_trans hlo hle) hhi,
      drop_slotsOf hlo hle]
    rfl
  · rcases (hmem k hk _ rfl).mp h with ⟨-, hx⟩ | ⟨-, hx⟩ <;> cases hx

/-- The two halves make up the blob. -/
theorem slice_halves {m : Nat} (hk : k < c.buckets) (hm : m < c.buckets)
    (hleft : .leftHalf i ∈ c.listing k) (hright : .rightHalf i ∈ c.listing m) :
    c.slice k (.leftHalf i) ++ c.slice m (.rightHalf i) = c.whole i := by
  have hne : c.Nonempty i := nonempty_of_mem hleft
  rcases blob_pieces hne with ⟨j, hj, -, -, hmem⟩ | ⟨j, hj, hlo, hhi, hmeet, hover, hend, hmem⟩
  · obtain ⟨-, hx⟩ := (hmem k hk _ rfl).mp hleft
    cases hx
  · have hkj : k = j := by
      rcases (hmem k hk _ rfl).mp hleft with ⟨hkj, -⟩ | ⟨-, hx⟩
      · exact hkj
      · cases hx
    have hmj : m = j + 1 := by
      rcases (hmem m hm _ rfl).mp hright with ⟨-, hx⟩ | ⟨hmj, -⟩
      · cases hx
      · exact hmj
    subst hkj hmj
    rw [Inputs.slice, Inputs.slice, Inputs.scatterBuf, Inputs.scatterBuf,
      drop_slotsOf hlo (Nat.le_of_lt hhi), take_slotsOf (hmeet ▸ Nat.le_of_lt hover) hend, ← hmeet]
    exact slotsOf_append (Nat.le_of_lt hhi) (Nat.le_of_lt hover)

/-- The pieces a worker still has to deal with. -/
def Phase.pieces : Phase α → List BlobBucketIntersection
  | .emitting _ rest => rest
  | .publishing _ i _ _ rest => .fullyContained i :: rest
  | .joined _ i _ _ rest => .leftHalf i :: .rightHalf i :: rest
  | .notifying _ rest => rest
  | _ => []

def unclaimed (c : Inputs α) (next : Nat) (x : BlobBucketIntersection) : Nat :=
  ∑ k ∈ Finset.range c.buckets, if next ≤ k then (c.listing k).count x else 0

def held (c : Inputs α) (workers : Nat → Worker α) (x : BlobBucketIntersection) : Nat :=
  ∑ w ∈ Finset.range c.workers, (workers w).phase.pieces.count x

/-- The piece is staged. -/
def staged : Option (StraddlerPartial α) → BlobBucketIntersection → Nat
  | some (.left _), .leftHalf _ => 1
  | some (.right _), .rightHalf _ => 1
  | _, _ => 0

/-- The piece is published. -/
def stored : Option BlobLocation → BlobBucketIntersection → Nat
  | some (.worker _ _ _), .fullyContained _ => 1
  | some (.straddler _), .leftHalf _ => 1
  | some (.straddler _), .rightHalf _ => 1
  | _, _ => 0

/-- In how many places a piece is. -/
def load (c : Inputs α) (s : State α) (x : BlobBucketIntersection) : Nat :=
  unclaimed c s.next x + held c s.workers x + staged (s.partials x.blobIdx) x +
    stored (s.slots x.blobIdx) x

lemma held_update {workers : Nat → Worker α} {w : Nat} (hw : w < c.workers) (z : Worker α)
    (x : BlobBucketIntersection) :
    held c (update workers w z) x + (workers w).phase.pieces.count x =
      held c workers x + z.phase.pieces.count x := by
  have hsum := @sum_range_update (fun v => (workers v).phase.pieces.count x)
    (fun v => (update workers w z v).phase.pieces.count x) c.workers w hw
    fun v hv => by simp only [update_of_ne hv]
  simp only [update_self] at hsum
  exact hsum

lemma count_le_held (s : State α) (hw : w < c.workers) (x : BlobBucketIntersection) :
    (s.workers w).phase.pieces.count x ≤ held c s.workers x :=
  Finset.single_le_sum_of_canonicallyOrdered
    (f := fun w => (s.workers w).phase.pieces.count x) (Finset.mem_range.mpr hw)

lemma unclaimed_succ (hk : k < c.buckets) (x : BlobBucketIntersection) :
    unclaimed c k x = unclaimed c (k + 1) x + (c.listing k).count x := by
  have hsum := @sum_range_update (fun m => if k + 1 ≤ m then (c.listing m).count x else 0)
    (fun m => if k ≤ m then (c.listing m).count x else 0) c.buckets k hk fun m hm => by
      by_cases h : k ≤ m
      · rw [if_pos h, if_pos (by omega)]
      · rw [if_neg h, if_neg (by omega)]
  rw [if_neg (by omega), if_pos (Nat.le_refl k)] at hsum
  exact hsum

lemma unclaimed_past (hk : c.buckets ≤ k) (x : BlobBucketIntersection) : unclaimed c k x = 0 := by
  refine Finset.sum_eq_zero fun m hm => if_neg ?_
  have := Finset.mem_range.mp hm
  omega

/-- A worker takes a bucket, or finds none. -/
theorem load_claimed {z : Worker α} (hw : w < c.workers)
    (hworkers : t.workers = update s.workers w z) (hpartials : t.partials = s.partials)
    (hslots : t.slots = s.slots) (hnone : (s.workers w).phase.pieces = [])
    (hclaimed : unclaimed c t.next x + z.phase.pieces.count x = unclaimed c s.next x) :
    load c t x = load c s x := by
  have hheld := @held_update _ _ s.workers _ hw z x
  rw [hnone, count_nil] at hheld
  simp only [load, hworkers, hpartials, hslots]
  omega

lemma load_passed {z : Worker α} (hw : w < c.workers) (hnext : t.next = s.next)
    (hworkers : t.workers = update s.workers w z)
    (hpieces : z.phase.pieces.count x + staged (t.partials x.blobIdx) x +
        stored (t.slots x.blobIdx) x =
      (s.workers w).phase.pieces.count x + staged (s.partials x.blobIdx) x +
        stored (s.slots x.blobIdx) x) : load c t x = load c s x := by
  have hheld := @held_update _ _ s.workers _ hw z x
  simp only [load, hnext, hworkers]
  omega

/-- A worker that fails drops its pieces. -/
theorem load_dropped {z : Worker α} (x : BlobBucketIntersection) (hw : w < c.workers)
    (hnext : t.next = s.next) (hworkers : t.workers = update s.workers w z)
    (hempty : z.phase.pieces = []) (hpartials : t.partials = s.partials)
    (hslots : t.slots = s.slots) : load c t x ≤ load c s x := by
  have hheld := @held_update _ _ s.workers _ hw z x
  rw [hempty, count_nil] at hheld
  simp only [load, hnext, hworkers, hpartials, hslots]
  omega

lemma staged_other (h : x.blobIdx ≠ i) :
    staged (update partials i p x.blobIdx) x = staged (partials x.blobIdx) x := by
  rw [update_of_ne h]

lemma stored_other {p : Option BlobLocation} (h : x.blobIdx ≠ i) :
    stored (update slots i p x.blobIdx) x = stored (slots x.blobIdx) x := by
  rw [update_of_ne h]

/-- A piece of another blob is not counted among those of blob `i`. -/
theorem count_others (h : x.blobIdx ≠ i) :
    (∀ l : List BlobBucketIntersection, (.fullyContained i :: l).count x = l.count x) ∧
      (∀ l : List BlobBucketIntersection, (.leftHalf i :: l).count x = l.count x) ∧
        ∀ l : List BlobBucketIntersection, (.rightHalf i :: l).count x = l.count x := by
  refine ⟨fun l => ?_, fun l => ?_, fun l => ?_⟩
  all_goals
    refine count_cons_of_ne fun heq => h ?_
    rw [← heq]
    rfl

/-- A step that goes well loses no piece, and none makes one. -/
theorem load_worker (hw : w < c.workers) (h : WorkerStep c w s t) (hfaults : t.faults = s.faults)
    (x : BlobBucketIntersection) :
    load c t x ≤ load c s x ∧ (t.broken = false → load c t x = load c s x) := by
  have hkeep : load c t x = load c s x →
      load c t x ≤ load c s x ∧ (t.broken = false → load c t x = load c s x) :=
    fun heq => ⟨Nat.le_of_eq heq, fun _ => heq⟩
  cases h with
  | stop hphase _ | goOn hphase _ | bucketDone _ hphase | flag hphase | notifyAbort hphase _
  | notify _ _ hphase _ | writePayload _ _ _ _ hphase _ =>
    refine hkeep (load_passed hw rfl rfl ?_)
    simp only [hphase, Phase.pieces, State.setPhase]
  | noMore hphase hge =>
    refine hkeep (load_claimed hw rfl rfl rfl (by rw [hphase]; rfl) ?_)
    exact (unclaimed_past (Nat.le_succ_of_le hge) x).trans (unclaimed_past hge x).symm
  | claim l hphase hlt hlist =>
    rw [classify_eq hlt] at hlist
    cases hlist
    exact hkeep (load_claimed hw rfl rfl rfl (by rw [hphase]; rfl) (unclaimed_succ hlt x).symm)
  | fail | unwind | encodeFails =>
    exact ⟨load_dropped x hw rfl rfl rfl rfl rfl, fun hbroken => by cases hbroken⟩
  | claimFault | publishWorkerFault | leftFault | rightFault | publishStraddlerFault =>
    simp [State.fault, State.setPartial, State.failWorker, State.setPhase] at hfaults
  | publishWorker k i offset length rest hphase hfree
  | publishStraddler k i _ _ rest _ hphase _ hfree =>
    refine hkeep (load_passed hw rfl rfl ?_)
    simp only [hphase, Phase.pieces, State.publish, State.setPhase]
    by_cases hx : x.blobIdx = i
    · subst hx
      rw [hfree, update_self]
      cases x <;> simp [BlobBucketIntersection.blobIdx, stored] <;> omega
    · obtain ⟨hfull, hleft, hright⟩ := count_others hx
      simp only [stored_other hx, hfull, hleft, hright]
  | leftFirst k i rest hphase hhalf | rightFirst k i rest hphase hhalf
  | leftSecond k i rest _ hphase hhalf | rightSecond k i rest _ hphase hhalf =>
    refine hkeep (load_passed hw rfl rfl ?_)
    simp only [hphase, Phase.pieces, State.setPartial, State.setPhase]
    by_cases hx : x.blobIdx = i
    · subst hx
      rw [hhalf, update_self]
      cases x <;> simp [BlobBucketIntersection.blobIdx, staged]
    · obtain ⟨-, hleft, hright⟩ := count_others hx
      simp only [staged_other hx, hleft, hright]

/-- No piece is in two places, and none is lost as long as no worker fails. -/
structure Kept (c : Inputs α) (s : State α) : Prop where
  le : ∀ x, load c s x ≤ c.listed x
  eq : s.broken = false → ∀ x, load c s x = c.listed x

def OfBucket (c : Inputs α) (k : Nat) (rest : List BlobBucketIntersection) : Prop :=
  k < c.buckets ∧ ∀ x ∈ rest, x ∈ c.listing k

def Phase.Fine (c : Inputs α) (file : Bytes) : Phase α → Prop
  | .emitting k rest => OfBucket c k rest
  | .publishing k i offset length rest =>
    OfBucket c k rest ∧ offset + length = file.length ∧
      c.encode i (c.whole i) = some (file.drop offset)
  | .joined k i left right rest => OfBucket c k rest ∧ left ++ right = c.whole i
  | .notifying k rest => OfBucket c k rest
  | _ => True

def HalfFine (c : Inputs α) (i : Nat) : Option (StraddlerPartial α) → Prop
  | none => True
  | some (.left raw) => ∃ k < c.buckets, .leftHalf i ∈ c.listing k ∧ raw = c.slice k (.leftHalf i)
  | some (.right raw) =>
    ∃ k < c.buckets, .rightHalf i ∈ c.listing k ∧ raw = c.slice k (.rightHalf i)

/-- The location leads to the payload of the whole blob. -/
def LocationFine (c : Inputs α) (files : Nat → Bytes) (i : Nat) : BlobLocation → Prop
  | .worker v offset length =>
    v < c.workers ∧ offset + length ≤ (files v).length ∧
      c.encode i (c.whole i) = some (((files v).drop offset).take length)
  | .straddler bytes => c.encode i (c.whole i) = some bytes
  | .empty => ¬ c.Nonempty i

def State.files (s : State α) (v : Nat) : Bytes := (s.workers v).file

structure Contents (c : Inputs α) (s : State α) : Prop where
  phases : ∀ w, (s.workers w).phase.Fine c (s.files w)
  partials : ∀ i, HalfFine c i (s.partials i)
  slots : ∀ i location, s.slots i = some location → LocationFine c s.files i location

lemma OfBucket.tail {k : Nat} {x : BlobBucketIntersection} {rest : List BlobBucketIntersection}
    (h : OfBucket c k (x :: rest)) : OfBucket c k rest :=
  ⟨h.1, fun y hy => h.2 y (mem_cons_of_mem x hy)⟩

lemma OfBucket.head (h : OfBucket c k (x :: rest)) : x ∈ c.listing k :=
  h.2 x mem_cons_self

lemma files_turn {phase : Phase α}
    (hworkers : t.workers = update s.workers w { s.workers w with phase := phase }) :
    t.files = s.files := by
  funext v
  have hkept : Worker.file { s.workers w with phase := phase } = (s.workers w).file := rfl
  simp only [State.files, hworkers]
  exact update_keeps hkept v

/-- A worker goes on without a write. -/
theorem Contents.turn {phase : Phase α} (h : Contents c s)
    (hworkers : t.workers = update s.workers w { s.workers w with phase := phase })
    (hphase : phase.Fine c (s.files w)) (hpartials : ∀ i, HalfFine c i (t.partials i))
    (hslots : ∀ i location, t.slots i = some location → LocationFine c s.files i location) :
    Contents c t := by
  have hfiles := files_turn hworkers
  refine ⟨fun v => ?_, hpartials, fun i location hi => hfiles ▸ hslots i location hi⟩
  rw [hfiles, hworkers]
  exact forall_update (P := fun v (z : Worker α) => z.phase.Fine c (s.files v)) h.phases hphase v

lemma half_update (h : ∀ j, HalfFine c j (partials j)) (hp : HalfFine c i p) (j : Nat) :
    HalfFine c j (update partials i p j) :=
  forall_update (P := fun j p => HalfFine c j p) h hp j

lemma location_update {files : Nat → Bytes} {new : BlobLocation}
    (h : ∀ j location, slots j = some location → LocationFine c files j location)
    (hnew : LocationFine c files i new) (j : Nat) (location : BlobLocation)
    (hj : update slots i (some new) j = some location) : LocationFine c files j location := by
  refine forall_update (P := fun j p => ∀ l, p = some l → LocationFine c files j l) h ?_ j _ hj
  intro l hl
  cases hl
  exact hnew

/-- A longer file leads to the same payloads. -/
theorem LocationFine.grow {files files' : Nat → Bytes} {location : BlobLocation}
    (h : LocationFine c files i location) (hgrow : ∀ v, ∃ more, files' v = files v ++ more) :
    LocationFine c files' i location := by
  cases location with
  | worker v offset length =>
    obtain ⟨hv, hle, hencode⟩ := h
    obtain ⟨more, hmore⟩ := hgrow v
    refine ⟨hv, ?_, ?_⟩
    · rw [hmore, length_append]
      omega
    · rw [hmore, drop_append_of_le_length (by omega), take_append_of_le_length
        (by rw [length_drop]; omega)]
      exact hencode
  | straddler bytes => exact h
  | empty => exact h

/-- The payload is written behind what the file holds. -/
theorem Contents.write {bytes : Bytes} (h : Contents c s)
    (hphase : (s.workers w).phase = .emitting k (.fullyContained i :: rest))
    (hencode : c.encode i (c.slice k (.fullyContained i)) = some bytes)
    (hworkers : t.workers = update s.workers w
      ⟨.publishing k i (s.files w).length bytes.length rest, s.files w ++ bytes⟩)
    (hpartials : t.partials = s.partials) (hslots : t.slots = s.slots) : Contents c t := by
  have hbucket : OfBucket c k (.fullyContained i :: rest) := by
    have hfine := h.phases w
    rw [hphase] at hfine
    exact hfine
  have hgrow : ∀ v, ∃ more, t.files v = s.files v ++ more := by
    intro v
    simp only [State.files, hworkers]
    by_cases hv : v = w
    · subst hv
      rw [update_self]
      exact ⟨bytes, rfl⟩
    · rw [update_of_ne hv]
      exact ⟨[], (append_nil _).symm⟩
  refine ⟨fun v => ?_, fun j => hpartials ▸ h.partials j, fun j location hj => ?_⟩
  · simp only [State.files, hworkers]
    refine forall_update (P := fun v (z : Worker α) => z.phase.Fine c z.file) h.phases ?_ v
    refine ⟨hbucket.tail, length_append.symm, ?_⟩
    rw [drop_left, ← slice_full hbucket.1 hbucket.head]
    exact hencode
  · rw [hslots] at hj
    exact (h.slots j location hj).grow hgrow

lemma contents_worker (h : Contents c s) (hw : w < c.workers) (hstep : WorkerStep c w s t)
    (hfaults : t.faults = s.faults) : Contents c t := by
  have hfine := h.phases w
  cases hstep with
  | stop | goOn | noMore | bucketDone | fail | unwind | flag | notifyAbort | encodeFails =>
    exact h.turn rfl trivial h.partials h.slots
  | claim l hphase hlt hlist =>
    rw [classify_eq hlt] at hlist
    cases hlist
    exact h.turn rfl ⟨hlt, fun _ hx => hx⟩ h.partials h.slots
  | claimFault | publishWorkerFault | leftFault | rightFault | publishStraddlerFault =>
    simp [State.fault, State.setPartial, State.failWorker, State.setPhase] at hfaults
  | writePayload k i rest bytes hphase hencode => exact h.write hphase hencode rfl rfl rfl
  | publishWorker k i offset length rest hphase hfree =>
    rw [hphase] at hfine
    obtain ⟨hbucket, hlength, hencode⟩ := hfine
    refine h.turn rfl hbucket h.partials (location_update h.slots ⟨hw, Nat.le_of_eq hlength, ?_⟩)
    rw [take_of_length_le (by rw [length_drop]; omega)]
    exact hencode
  | leftFirst k _ _ hphase | rightFirst k _ _ hphase =>
    rw [hphase] at hfine
    exact h.turn rfl hfine.tail
      (half_update h.partials ⟨k, hfine.1, hfine.head, rfl⟩) h.slots
  | leftSecond k i rest right hphase hright =>
    rw [hphase] at hfine
    have hhalf := h.partials i
    rw [hright] at hhalf
    obtain ⟨m, hm, hmem, rfl⟩ := hhalf
    exact h.turn rfl ⟨hfine.tail, slice_halves hfine.1 hm hfine.head hmem⟩
      (half_update h.partials trivial) h.slots
  | rightSecond k i rest left hphase hleft =>
    rw [hphase] at hfine
    have hhalf := h.partials i
    rw [hleft] at hhalf
    obtain ⟨m, hm, hmem, rfl⟩ := hhalf
    exact h.turn rfl ⟨hfine.tail, slice_halves hm hfine.1 hmem hfine.head⟩
      (half_update h.partials trivial) h.slots
  | publishStraddler k i left right rest bytes hphase hencode hfree =>
    rw [hphase] at hfine
    obtain ⟨hbucket, hwhole⟩ := hfine
    rw [hwhole] at hencode
    exact h.turn rfl hbucket h.partials (location_update h.slots hencode)
  | notify k rest hphase hgate =>
    rw [hphase] at hfine
    exact h.turn rfl hfine h.partials h.slots

/-- A piece in a worker's hands is listed, once, and is nowhere else. -/
theorem held_alone (h : Kept c s) (hw : w < c.workers)
    (hx : 1 ≤ (s.workers w).phase.pieces.count x) :
    c.Nonempty x.blobIdx ∧ c.listed x = 1 ∧ staged (s.partials x.blobIdx) x = 0 ∧
      stored (s.slots x.blobIdx) x = 0 := by
  have hle := h.le x
  have hone := listed_le_one (c := c) x
  have hheld := count_le_held s hw x
  unfold load at hle
  refine ⟨?_, by omega, by omega, by omega⟩
  by_contra hempty
  have := listed_eq_zero hempty
  omega

/-- A blob with a piece in a worker's hands is not yet published. -/
theorem slot_free (hkept : Kept c s) (h : Contents c s) (hw : w < c.workers)
    (hx : 1 ≤ (s.workers w).phase.pieces.count x) : s.slots x.blobIdx = none := by
  obtain ⟨hne, hlisted, -, hstored⟩ := held_alone hkept hw hx
  have hcases := listed_cases hne
  have hplace : ∀ y : BlobBucketIntersection, stored (s.slots y.blobIdx) y ≤ c.listed y := by
    intro y
    have hle := hkept.le y
    unfold load at hle
    omega
  have hfull : stored (s.slots x.blobIdx) (.fullyContained x.blobIdx) ≤ _ :=
    hplace (.fullyContained x.blobIdx)
  have hleft : stored (s.slots x.blobIdx) (.leftHalf x.blobIdx) ≤ _ :=
    hplace (.leftHalf x.blobIdx)
  cases hslot : s.slots x.blobIdx with
  | none => rfl
  | some location =>
    exfalso
    rw [hslot] at hfull hleft hstored
    cases location with
    | worker v offset length =>
      have hone : 1 ≤ c.listed (.fullyContained x.blobIdx) := hfull
      cases x with
      | fullyContained i => cases hstored
      | leftHalf | rightHalf => simp only [BlobBucketIntersection.blobIdx] at *; omega
    | straddler bytes =>
      have hone : 1 ≤ c.listed (.leftHalf x.blobIdx) := hleft
      cases x with
      | fullyContained i => simp only [BlobBucketIntersection.blobIdx] at *; omega
      | leftHalf i => cases hstored
      | rightHalf i => cases hstored
    | empty => exact h.slots _ _ hslot hne

lemma no_fault (hkept : Kept c s) (h : Contents c s) (hw : w < c.workers)
    (hstep : WorkerStep c w s t) : t.faults = s.faults := by
  cases hstep with
  | claimFault e hphase hlt hlist =>
    rw [classify_eq hlt] at hlist
    cases hlist
  | publishWorkerFault k i offset length rest location hphase htaken =>
    have hfree : s.slots i = none :=
      slot_free (x := .fullyContained i) hkept h hw (by simp [hphase, Phase.pieces])
    rw [hfree] at htaken
    cases htaken
  | publishStraddlerFault k i left right rest location hphase htaken =>
    have hfree : s.slots i = none :=
      slot_free (x := .leftHalf i) hkept h hw (by simp [hphase, Phase.pieces])
    rw [hfree] at htaken
    cases htaken
  | leftFault k i rest left hphase hleft =>
    have halone := held_alone (x := .leftHalf i) hkept hw (by simp [hphase, Phase.pieces])
    simp [BlobBucketIntersection.blobIdx, hleft, staged] at halone
  | rightFault k i rest right hphase hright =>
    have halone := held_alone (x := .rightHalf i) hkept hw (by simp [hphase, Phase.pieces])
    simp [BlobBucketIntersection.blobIdx, hright, staged] at halone
  | _ => rfl

end PayloadRouter
