import Mathlib.Order.MinMax
import Pbfhogg.BlobMeta

/-!
# The order watermark over blob ranges

`OrderWatermark::observe` of `osm_id.rs`. A range proves only that its two ends are present, so a
blob is refused exactly for an end that sorts before an element accepted.
-/

namespace Watermark

open OsmId BlobMeta List

/-- The result of one call and the watermark after it: `last` is written behind the refusal. -/
def observe (m : OrderWatermark) (kind : Nat) (minId maxId : Int64) :
    Except OrderViolation Unit × OrderWatermark :=
  match m.observeKeys kind (blobOsmPresentFirstKey minId maxId) (blobOsmLastKey minId maxId) with
  | .ok m' => (.ok (), m')
  | .error e => (.error e, m)

/-- The ids of one kind in a blob, with their exact range. -/
structure Blob where
  kind : ElementKind
  ids : List Int64
  minId : Int64
  maxId : Int64
  lower : ∀ id ∈ ids, minId ≤ id
  upper : ∀ id ∈ ids, id ≤ maxId
  min_mem : minId ∈ ids
  max_mem : maxId ∈ ids

abbrev Place := ElementKind × Int64

def Blob.elements (b : Blob) : List Place := b.ids.map fun id => (b.kind, id)

/-- The canonical order of elements: by kind, then by id. -/
def Before (x y : Place) : Prop :=
  x.1.ordinal < y.1.ordinal ∨ x.1 = y.1 ∧ OsmLt x.2 y.2

variable (blobs : List Blob)

def Canonical : Prop :=
  (blobs.flatMap Blob.elements).Pairwise fun x y => ¬ Before y x

def observeBlob (m : OrderWatermark) (b : Blob) : Except OrderViolation Unit × OrderWatermark :=
  observe m b.kind.ordinal b.minId b.maxId

structure Run where
  watermark : OrderWatermark := ⟨none⟩
  accepted : List Blob := []

def Run.next (r : Run) (b : Blob) : Run :=
  match observeBlob r.watermark b with
  | (.ok (), m) => ⟨m, r.accepted ++ [b]⟩
  | (.error _, m) => ⟨m, r.accepted⟩

def run : Run := blobs.foldl Run.next {}

lemma osmIdFromKey_osmIdKey (id : Int64) : osmIdFromKey (osmIdKey id) = id := by
  have hle := id.le_toInt
  have hlt := id.toInt_lt
  have hback : ∀ n : Nat, (Int64.ofNat n).toInt = (n : Int).bmod (2 ^ 64) := by
    intro n
    exact Int64.toInt_ofNat'
  rw [osmIdKey_eq, ← Int64.toInt_inj]
  unfold osmIdFromKey
  by_cases hpos : 0 < id.toInt
  · simp only [if_pos hpos, ofLex_toLex, hback]
    rw [Int.bmod_def]
    omega
  · by_cases hzero : id.toInt = 0
    · simp [hzero]
    · simp only [if_neg hpos, if_neg hzero, ofLex_toLex, Int64.toInt_neg, hback]
      rw [Int.bmod_def, Int.bmod_def]
      omega

variable {b : Blob}

lemma presentFirstKey_end (b : Blob) : ∃ id, (id = b.minId ∨ id = b.maxId) ∧
      osmIdKey id = blobOsmPresentFirstKey b.minId b.maxId := by
  unfold blobOsmPresentFirstKey blobOsmFirstKey
  split_ifs with h1 h2 h3
  · exact ⟨b.minId, .inl rfl, rfl⟩
  · exact ⟨b.minId, .inl rfl, rfl⟩
  · exact ⟨b.maxId, .inr rfl, rfl⟩
  · simp only [Int64.lt_iff_toInt_lt, Int64.le_iff_toInt_le, Int64.toInt_zero] at h1 h2 h3
    omega

lemma end_mem {id : Int64} (h : id = b.minId ∨ id = b.maxId) : id ∈ b.ids := by
  rcases h with rfl | rfl
  · exact b.min_mem
  · exact b.max_mem

lemma lastKey_mem (b : Blob) : ∃ id ∈ b.ids, osmIdKey id = blobOsmLastKey b.minId b.maxId := by
  rcases blobOsmLastKey_mem b.minId b.maxId with h | h
  · exact ⟨b.minId, b.min_mem, h.symm⟩
  · exact ⟨b.maxId, b.max_mem, h.symm⟩

/-- What the watermark holds is the kind and the key of an element of an accepted blob. -/
def Held (r : Run) : Prop :=
  ∀ kind key, r.watermark.last = some (kind, key) →
    ∃ a ∈ r.accepted, a.kind.ordinal = kind ∧ ∃ id ∈ a.ids, osmIdKey id = key

/-- A key that an accepted blob contributes is the key of one of its elements. -/
theorem max_key_mem (b : Blob) : ∃ id ∈ b.ids, osmIdKey id =
      max (blobOsmLastKey b.minId b.maxId) (blobOsmPresentFirstKey b.minId b.maxId) := by
  rcases max_choice (blobOsmLastKey b.minId b.maxId)
    (blobOsmPresentFirstKey b.minId b.maxId) with h | h
  · rw [h]
    exact lastKey_mem b
  · rw [h]
    obtain ⟨id, hend, hkey⟩ := presentFirstKey_end b
    exact ⟨id, end_mem hend, hkey⟩

/-- A refusal names an end of the blob and an element of an accepted blob that sorts after it. -/
structure Names (r : Run) (b : Blob) (e : OrderViolation) : Prop where
  first : e.firstId = b.minId ∨ e.firstId = b.maxId
  previous : ∃ a ∈ r.accepted, a.kind.ordinal = e.previousKind ∧ e.previousId ∈ a.ids ∧
    Before (b.kind, e.firstId) (a.kind, e.previousId)

lemma observeBlob_cases (r : Run) (b : Blob) (hheld : Held r) :
    (∃ m, observeBlob r.watermark b = (.ok (), m) ∧ Held ⟨m, r.accepted ++ [b]⟩) ∨
      ∃ e, observeBlob r.watermark b = (.error e, r.watermark) ∧ Names r b e := by
  have hself : b ∈ r.accepted ++ [b] := mem_append_right _ mem_cons_self
  -- The key the blob leaves behind when nothing before it is larger.
  have hown : Held ⟨⟨some (b.kind.ordinal, max (blobOsmLastKey b.minId b.maxId)
      (blobOsmPresentFirstKey b.minId b.maxId))⟩, r.accepted ++ [b]⟩ := by
    rintro kind key ⟨⟩
    exact ⟨b, hself, rfl, max_key_mem b⟩
  unfold observeBlob observe OrderWatermark.observeKeys
  cases hlast : r.watermark.last with
  | none => exact .inl ⟨_, rfl, hown⟩
  | some last =>
    obtain ⟨previousKind, previousLast⟩ := last
    obtain ⟨a, ha, hkind, id, hid, hkey⟩ := hheld _ _ hlast
    by_cases hbad : b.kind.ordinal < previousKind ∨ b.kind.ordinal = previousKind ∧
        blobOsmPresentFirstKey b.minId b.maxId < previousLast
    · obtain ⟨first, hend, hfirst⟩ := presentFirstKey_end b
      simp only [if_pos hbad]
      have hprev : osmIdFromKey previousLast = id := by rw [← hkey, osmIdFromKey_osmIdKey]
      have hown : osmIdFromKey (blobOsmPresentFirstKey b.minId b.maxId) = first := by
        rw [← hfirst, osmIdFromKey_osmIdKey]
      refine .inr ⟨_, rfl, ⟨?_, a, ha, hkind, ?_, ?_⟩⟩
      · rw [hown]
        exact hend
      · rw [hprev]
        exact hid
      · rw [hprev, hown]
        rcases hbad with hlt | ⟨heq, hlt⟩
        · exact .inl (by rw [hkind]; exact hlt)
        · refine .inr ⟨ElementKind.ordinal_injective (heq.trans hkind.symm), ?_⟩
          change osmIdKey first < osmIdKey id
          rw [hfirst, hkey]
          exact hlt
    · simp only [if_neg hbad]
      by_cases heq : b.kind.ordinal = previousKind
      · simp only [if_pos heq]
        refine .inl ⟨_, rfl, ?_⟩
        rintro kind key ⟨⟩
        rcases max_choice (max (blobOsmLastKey b.minId b.maxId)
          (blobOsmPresentFirstKey b.minId b.maxId)) previousLast with h | h
        · rw [h]
          exact ⟨b, hself, rfl, max_key_mem b⟩
        · rw [h]
          exact ⟨a, mem_append_left _ ha, hkind.trans heq.symm, id, hid, hkey⟩
      · simp only [if_neg heq]
        exact .inl ⟨_, rfl, hown⟩

lemma Run.next_held {r : Run} (h : Held r) (b : Blob) : Held (r.next b) := by
  unfold Run.next
  rcases observeBlob_cases r b h with ⟨m, hm, hheld⟩ | ⟨e, he, -⟩
  · rw [hm]
    exact hheld
  · rw [he]
    exact h

lemma run_held : Held (run blobs) := by
  have hstep : ∀ (r : Run), Held r → Held (blobs.foldl Run.next r) := by
    induction blobs with
    | nil => exact fun r h => h
    | cons b blobs ih => exact fun r h => ih (r.next b) (Run.next_held h b)
  exact hstep {} nofun

lemma accepted_next (r : Run) (b : Blob) : ∀ a ∈ (r.next b).accepted, a ∈ r.accepted ∨ a = b := by
  intro a ha
  unfold Run.next at ha
  split at ha
  · rcases mem_append.mp ha with ha | ha
    · exact .inl ha
    · exact .inr (mem_singleton.mp ha)
  · exact .inl ha

lemma accepted_run : ∀ a ∈ (run blobs).accepted, a ∈ blobs := by
  induction blobs using reverseRecOn with
  | nil => nofun
  | append_singleton blobs b ih =>
    intro a ha
    rw [run, foldl_append] at ha
    rcases accepted_next _ b a ha with ha | rfl
    · exact mem_append_left _ (ih a ha)
    · exact mem_append_right _ mem_cons_self

/-- In a canonical sequence no element of a blob sorts before an element of an earlier one. -/
theorem Canonical.not_before {pre post : List Blob} (h : Canonical (pre ++ b :: post)) {a : Blob}
    (ha : a ∈ pre) {x y : Int64} (hx : x ∈ b.ids) (hy : y ∈ a.ids) :
    ¬ Before (b.kind, x) (a.kind, y) := by
  rw [Canonical, flatMap_append, flatMap_cons, pairwise_append] at h
  refine h.2.2 (a.kind, y) ?_ (b.kind, x) ?_
  · exact mem_flatMap.mpr ⟨a, ha, mem_map.mpr ⟨y, hy, rfl⟩⟩
  · exact mem_append_left _ (mem_map.mpr ⟨x, hx, rfl⟩)

/-- Whatever was observed before, a blob of a canonical sequence is accepted, and a refusal names
a pair out of order and changes nothing. -/
theorem watermark_refuses_proven_disorder (pre : List Blob) (b : Blob) (post : List Blob) :
    (Canonical (pre ++ b :: post) → (observeBlob (run pre).watermark b).1 = .ok ()) ∧
      ∀ e, (observeBlob (run pre).watermark b).1 = .error e →
        Names (run pre) b e ∧ (observeBlob (run pre).watermark b).2 = (run pre).watermark := by
  rcases observeBlob_cases (run pre) b (run_held pre) with ⟨m, hm, -⟩ | ⟨e, he, hnames⟩
  · rw [hm]
    exact ⟨fun _ => rfl, nofun⟩
  · rw [he]
    constructor
    · intro hcanonical
      obtain ⟨a, ha, -, hprev, hbefore⟩ := hnames.previous
      exact absurd hbefore
        (hcanonical.not_before (accepted_run pre a ha) (end_mem hnames.first) hprev)
    · rintro e' ⟨⟩
      exact ⟨hnames, rfl⟩

/-- Nodes on both sides of 0, more nodes, and one that comes too late. -/
def mixed : Blob := ⟨.node, [-1, 2], -1, 2, by simp, by simp, by simp, by simp⟩

def ascending : Blob := ⟨.node, [3, 5], 3, 5, by simp, by simp, by simp, by simp⟩

def late : Blob := ⟨.node, [4], 4, 4, by simp, by simp, by simp, by simp⟩

theorem watermark_refuses_proven_disorder_late :
    (observeBlob (run [mixed]).watermark ascending).1 = .ok () ∧
      ∃ e, (observeBlob (run [mixed, ascending]).watermark late).1 = .error e ∧
        Names (run [mixed, ascending]) late e := by
  have hcanonical : Canonical ([mixed] ++ ascending :: []) := by
    simp only [Canonical, Before, OsmLt]
    decide
  exact ⟨(watermark_refuses_proven_disorder [mixed] ascending []).1 hcanonical, _, rfl,
    ((watermark_refuses_proven_disorder [mixed, ascending] late []).2 _ rfl).1⟩

end Watermark
