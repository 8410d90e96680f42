import Pbfhogg.Osc.Sorted
import Pbfhogg.Lib.OrderedMerge

/-!
# Finding ids in a sorted diff

The readers of `osc/sorted.rs`: the range test of the scanner, the index range of the upserts inside
a blob, and the forward cursor `Seek`. `partition_point` is modelled by what it returns on a
partitioned slice, the length of the first part.
-/

namespace OscLookup

open OsmId OscSorted OrderedMerge List

variable {t : KindTable} {ids : List Int64} {diff : SortedDiff} {minId maxId id : Int64}

def partitionPoint {α : Type} (p : α → Bool) (l : List α) : Nat := (l.takeWhile p).length

/-- The upserts in id order, each with its record. -/
def entries (t : KindTable) : List (Int64 × Bytes) :=
  t.ids.zipIdx.map fun p => (p.1, t.record p.2)

def hitIn (ids : List Int64) (first last : OsmIdKey) : Bool :=
  match ids[partitionPoint (fun id => decide (osmIdKey id < first)) ids]? with
  | some id => decide (osmIdKey id ≤ last)
  | none => false

def anyIn (t : KindTable) (first last : OsmIdKey) : Bool :=
  hitIn t.ids first last || hitIn t.deleted first last

def rangeOverlaps (diff : SortedDiff) (kind : ElementKind) (minId maxId : Int64) : Bool :=
  anyIn (diff.kind kind) (blobOsmFirstKey minId maxId) (blobOsmLastKey minId maxId)

/-- The bounds of the upserts whose key lies from that of `first` to `last`. -/
def upsertRange (diff : SortedDiff) (kind : ElementKind) (first : Int64) (last : OsmIdKey) :
    Nat × Nat :=
  let ids := (diff.kind kind).ids
  let start := partitionPoint (fun id => decide (osmIdKey id < osmIdKey first)) ids
  (start, partitionPoint (fun id => decide (osmIdKey id ≤ last)) (ids.drop start) + start)

/-- The entries of an index range. -/
def slice (t : KindTable) (range : Nat × Nat) : List (Int64 × Bytes) :=
  ((entries t).drop range.1).take (range.2 - range.1)

/-- The position a cursor stands at, once it was asked for an id. -/
abbrev Seek := Option Nat

def Seek.find (s : Seek) (ids : List Int64) (id : Int64) : Option Nat × Seek :=
  let seeded := s.getD (partitionPoint (fun x => decide (OsmLt x id)) ids)
  let pos := seeded + partitionPoint (fun x => decide (OsmLt x id)) (ids.drop seeded)
  (if ids[pos]? = some id then some pos else none, some pos)

/-- Both lists ascend and share no id, as a finished parse leaves them. -/
structure TableSorted (t : KindTable) : Prop where
  ids : t.ids.Pairwise OsmLt
  deleted : t.deleted.Pairwise OsmLt
  disjoint : ∀ id ∈ t.ids, id ∉ t.deleted

lemma tableSorted_iff : TableSorted t ↔ t.ids.Pairwise OsmLt ∧ t.deleted.Pairwise OsmLt ∧
      t.ids.all (fun id => decide (id ∉ t.deleted)) = true := by
  simp only [all_eq_true, decide_eq_true_iff]
  constructor
  · exact fun h => ⟨h.ids, h.deleted, h.disjoint⟩
  · exact fun h => ⟨h.1, h.2.1, h.2.2⟩

instance (t : KindTable) : Decidable (TableSorted t) := decidable_of_iff _ tableSorted_iff.symm

def DiffSorted (diff : SortedDiff) : Prop := ∀ k, TableSorted (diff.kind k)

section Cuts

variable {α : Type} {key : α → OsmIdKey} {l : List α}

lemma pairwise_lt_cut (h : l.Pairwise fun a b => key a < key b) (m : OsmIdKey) :
    l.Pairwise fun a b => decide (key b < m) → decide (key a < m) := by
  apply h.imp
  intro a b hab hb
  have hbm : key b < m := by simpa using hb
  simpa using hab.trans hbm

lemma pairwise_le_cut (h : l.Pairwise fun a b => key a < key b) (m : OsmIdKey) :
    l.Pairwise fun a b => decide (key b ≤ m) → decide (key a ≤ m) := by
  apply h.imp
  intro a b hab hb
  have hbm : key b ≤ m := by simpa using hb
  simpa using hab.le.trans hbm

variable (p : α → Bool)

lemma take_partitionPoint (l : List α) : l.take (partitionPoint p l) = l.takeWhile p :=
  (prefix_iff_eq_take.mp ( takeWhile_prefix p)).symm

lemma drop_partitionPoint (l : List α) : l.drop (partitionPoint p l) = l.dropWhile p := by
  have h := take_append_drop (partitionPoint p l) l
  rw [take_partitionPoint] at h
  exact append_cancel_left (h.trans takeWhile_append_dropWhile.symm)

lemma getElem?_partitionPoint (l : List α) : l[partitionPoint p l]? = (l.dropWhile p).head? := by
  rw [← drop_partitionPoint, head?_drop]

lemma partitionPoint_map {β : Type} (f : α → β) (p : β → Bool) :
    partitionPoint p (l.map f) = partitionPoint (p ∘ f) l := by
  simp [partitionPoint, takeWhile_map]

end Cuts

lemma osmLt_keys {l : List Int64} (h : l.Pairwise OsmLt) :
    l.Pairwise fun a b => osmIdKey a < osmIdKey b := h

lemma entries_ids (t : KindTable) : (entries t).map Prod.fst = t.ids := by
  rw [entries, map_map, show Prod.fst ∘ (fun p : Int64 × Nat => (p.1, t.record p.2)) =
    Prod.fst from rfl, zipIdx_map_fst]

lemma entries_sorted (h : TableSorted t) :
    (entries t).Pairwise fun a b => osmIdKey a.1 < osmIdKey b.1 := by
  have hids := h.ids
  rw [← entries_ids, pairwise_map] at hids
  exact hids

lemma mem_ids_of_mem_entries {x : Int64 × Bytes} (h : x ∈ entries t) : x.1 ∈ t.ids := by
  rw [← entries_ids]
  exact mem_map_of_mem h

lemma hitIn_iff (h : ids.Pairwise OsmLt) (first last : OsmIdKey) :
    hitIn ids first last ↔ ∃ id ∈ ids, first ≤ osmIdKey id ∧ osmIdKey id ≤ last := by
  have hcut := dropWhile_eq_filter (pairwise_lt_cut (osmLt_keys h) first)
  rw [hitIn, getElem?_partitionPoint, hcut]
  constructor
  · intro hhit
    cases hhead : (ids.filter fun x => !decide (osmIdKey x < first)).head? with
    | none => simp [hhead] at hhit
    | some id =>
      rw [hhead] at hhit
      have hmem := mem_filter.mp (mem_of_head? hhead)
      refine ⟨id, hmem.1, ?_, by simpa using hhit⟩
      simpa using hmem.2
  · rintro ⟨id, hid, hge, hle⟩
    have hin : id ∈ ids.filter fun x => !decide (osmIdKey x < first) := by
      rw [mem_filter]
      exact ⟨hid, by simpa using hge⟩
    have hsorted := h.sublist (filter_sublist (p := fun x => !decide (osmIdKey x < first)))
    cases hlist : ids.filter fun x => !decide (osmIdKey x < first) with
    | nil => simp [hlist] at hin
    | cons y ys =>
      rw [hlist] at hin hsorted
      have hyid : osmIdKey y ≤ osmIdKey id := by
        rcases mem_cons.mp hin with rfl | hys
        · exact le_refl _
        · exact le_of_lt ((pairwise_cons.mp hsorted).1 id hys)
      simpa using hyid.trans hle

lemma rangeOverlaps_eq_false (h : DiffSorted diff) {kind : ElementKind}
    (hmiss : rangeOverlaps diff kind minId maxId = false)
    (hid : id ∈ (diff.kind kind).ids ∨ id ∈ (diff.kind kind).deleted)
    (hge : blobOsmFirstKey minId maxId ≤ osmIdKey id) :
    blobOsmLastKey minId maxId < osmIdKey id := by
  by_contra hle
  rw [rangeOverlaps, anyIn, Bool.or_eq_false_iff] at hmiss
  rcases hid with hid | hid
  · have hhit := (hitIn_iff (h kind).ids _ _).mpr ⟨id, hid, hge, not_lt.mp hle⟩
    rw [hmiss.1] at hhit
    cases hhit
  · have hhit := (hitIn_iff (h kind).deleted _ _).mpr ⟨id, hid, hge, not_lt.mp hle⟩
    rw [hmiss.2] at hhit
    cases hhit

lemma slice_upsertRange (h : DiffSorted diff) (kind : ElementKind) (first : Int64)
    (last : OsmIdKey) : slice (diff.kind kind) (upsertRange diff kind first last) =
      (entries (diff.kind kind)).filter
        fun x => decide (osmIdKey first ≤ osmIdKey x.1) && decide (osmIdKey x.1 ≤ last) := by
  have hsorted := entries_sorted (h kind)
  have hstart := pairwise_lt_cut hsorted (osmIdKey first)
  have hrest := hsorted.sublist (filter_sublist
    (p := fun x : Int64 × Bytes => !decide (osmIdKey x.1 < osmIdKey first)))
  simp only [slice, upsertRange, Nat.add_sub_cancel]
  rw [← entries_ids, ← map_drop, partitionPoint_map, partitionPoint_map]
  simp only [Function.comp_def]
  rw [drop_partitionPoint, take_partitionPoint, dropWhile_eq_filter hstart,
    takeWhile_eq_filter (pairwise_le_cut hrest last), filter_filter]
  apply filter_congr
  intro x _
  rw [Bool.and_comm, ← decide_not]
  simp only [not_lt]

/-- Where an id stands, or would stand, in a list. -/
def place (ids : List Int64) (id : Int64) : Nat :=
  partitionPoint (fun x => decide (OsmLt x id)) ids

/-- The cursor has not passed the id. -/
def Behind (s : Seek) (ids : List Int64) (id : Int64) : Prop :=
  ∀ p, s = some p → p ≤ place ids id

lemma place_mono {a b : Int64} (h : OsmLe a b) : place ids a ≤ place ids b := by
  induction ids with
  | nil => simp [place, partitionPoint]
  | cons x xs ih =>
    simp only [place, partitionPoint] at ih ⊢
    by_cases hx : OsmLt x a
    · have hxb : OsmLt x b := lt_of_lt_of_le (show osmIdKey x < osmIdKey a from hx) h
      simpa [hx, hxb] using ih
    · simp [hx]

lemma Behind.mono {s : Seek} {a b : Int64} (h : Behind s ids a) (hab : OsmLe a b) :
    Behind s ids b :=
  fun p hp => (h p hp).trans (place_mono hab)

lemma add_partitionPoint_drop {n : Nat} (h : n ≤ place ids id) :
    n + partitionPoint (fun x => decide (OsmLt x id)) (ids.drop n) = place ids id := by
  induction n generalizing ids with
  | zero => simp [place]
  | succ n ih =>
    cases ids with
    | nil => simp [place, partitionPoint] at h
    | cons x xs =>
      by_cases hx : OsmLt x id
      · have hplace : place (x :: xs) id = place xs id + 1 := by
          simp [place, partitionPoint, hx]
        rw [hplace] at h ⊢
        have := @ih xs (by omega)
        simp only [drop_succ_cons]
        omega
      · simp [place, partitionPoint, hx] at h

lemma getElem?_place (h : ids.Pairwise OsmLt) (id : Int64) :
    ids[place ids id]? = some id ↔ id ∈ ids := by
  constructor
  · exact fun hget => mem_of_getElem? hget
  · intro hmem
    obtain ⟨pre, post, rfl⟩ := append_of_mem hmem
    have hpre : ∀ x ∈ pre, decide (OsmLt x id) = true := by
      intro x hx
      simpa using (pairwise_append.mp h).2.2 x hx id mem_cons_self
    have hself : ¬ OsmLt id id := lt_irrefl _
    have hplace : place (pre ++ id :: post) id = pre.length := by
      rw [place, partitionPoint, takeWhile_append_of_pos hpre]
      simp [hself]
    simp [hplace]

lemma getElem?_entries (t : KindTable) (i : Nat) :
    (entries t)[i]? = t.ids[i]?.map fun id => (id, t.record i) := by
  rw [entries, getElem?_map, getElem?_zipIdx, Option.map_map]
  simp [Function.comp_def]

lemma lookup_of_entry (h : TableSorted t) {x : Int64 × Bytes} (hx : x ∈ entries t) :
    (entries t).lookup x.1 = some x.2 := by
  obtain ⟨pre, post, hsplit⟩ := append_of_mem hx
  have hsorted := entries_sorted h
  rw [hsplit, pairwise_append] at hsorted
  rw [lookup_eq_some_iff]
  refine ⟨pre, post, hsplit, ?_⟩
  intro y hy
  have hlt := hsorted.2.2 y hy _ mem_cons_self
  rw [bne_iff_ne]
  intro heq
  rw [heq] at hlt
  exact lt_irrefl _ hlt

/-- The record at the place of an upserted id is the one filed under it. -/
lemma entries_place (h : TableSorted t) (hid : id ∈ t.ids) :
    ∃ record, (entries t)[place t.ids id]? = some (id, record) ∧
      (entries t).lookup id = some record := by
  have hget : (entries t)[place t.ids id]? = some (id, t.record (place t.ids id)) := by
    rw [getElem?_entries, (getElem?_place h.ids id).mpr hid, Option.map_some]
  exact ⟨_, hget, lookup_of_entry h (mem_of_getElem? hget)⟩

lemma Seek.find_eq {s : Seek} (hsorted : ids.Pairwise OsmLt) (h : Behind s ids id) :
    s.find ids id =
      (if id ∈ ids then some (place ids id) else none, some (place ids id)) := by
  have hpos : s.getD (place ids id) +
      partitionPoint (fun x => decide (OsmLt x id)) (ids.drop (s.getD (place ids id))) =
        place ids id := by
    apply add_partitionPoint_drop
    cases s with
    | none => simp
    | some p => simpa using h p rfl
  simp only [Seek.find]
  rw [← place, hpos]
  simp only [getElem?_place hsorted]

/-- The answers of one cursor to a list of queries. -/
def answers (ids : List Int64) : Seek → List Int64 → List (Option Nat)
  | _, [] => []
  | s, id :: rest => (s.find ids id).1 :: answers ids (s.find ids id).2 rest

lemma answers_eq (hsorted : ids.Pairwise OsmLt) {queries : List Int64}
    (hqueries : queries.Pairwise OsmLe) {s : Seek} (h : ∀ id ∈ queries, Behind s ids id) :
    answers ids s queries =
      queries.map fun id => if id ∈ ids then some (place ids id) else none := by
  induction queries generalizing s with
  | nil => rfl
  | cons id rest ih =>
    obtain ⟨hfirst, hrest⟩ := pairwise_cons.mp hqueries
    have hfind := Seek.find_eq hsorted (h id mem_cons_self)
    rw [answers, hfind, map_cons]
    refine congrArg _ (ih hrest fun x hx => ?_)
    -- The cursor stands at the place of the id it was asked for.
    rintro p ⟨⟩
    exact place_mono (hfirst x hx)

/-- The keys of a range on one side of zero are those of its ids. -/
lemma between_keys_iff (hrange : minId ≤ maxId) (hsign : 0 < minId ∨ maxId ≤ 0) :
    (osmIdKey (blobOsmFirstId minId maxId) ≤ osmIdKey id ∧
      osmIdKey id ≤ blobOsmLastKey minId maxId) ↔ minId ≤ id ∧ id ≤ maxId := by
  unfold blobOsmFirstId blobOsmLastKey
  split_ifs <;> simp only [osmIdKey_le_iff, Int64.le_iff_toInt_le, Int64.lt_iff_toInt_lt,
    Int64.toInt_zero] at * <;> omega

/-- The keys from zero or below to a positive id are those of every id up to it. -/
lemma between_keys_straddling (hmin : minId ≤ 0) (hmax : 0 < maxId) :
    (osmIdKey (blobOsmFirstId minId maxId) ≤ osmIdKey id ∧
      osmIdKey id ≤ blobOsmLastKey minId maxId) ↔ id ≤ maxId := by
  unfold blobOsmFirstId blobOsmLastKey
  split_ifs <;> simp only [osmIdKey_le_iff, Int64.le_iff_toInt_le, Int64.lt_iff_toInt_lt,
    Int64.toInt_zero] at * <;> omega

/-- The upserts from the first id of a range to its last key. -/
def upsertsIn (diff : SortedDiff) (kind : ElementKind) (minId maxId : Int64) :
    List (Int64 × Bytes) :=
  slice (diff.kind kind)
    (upsertRange diff kind (blobOsmFirstId minId maxId) (blobOsmLastKey minId maxId))

lemma upsertsIn_eq (h : DiffSorted diff) {kind : ElementKind} {p : Int64 → Prop} [DecidablePred p]
    (hp : ∀ id, (osmIdKey (blobOsmFirstId minId maxId) ≤ osmIdKey id ∧
      osmIdKey id ≤ blobOsmLastKey minId maxId) ↔ p id) : upsertsIn diff kind minId maxId =
      (entries (diff.kind kind)).filter fun x => decide (p x.1) := by
  rw [upsertsIn, slice_upsertRange h]
  refine filter_congr fun x _ => ?_
  rw [← Bool.decide_and]
  exact decide_eq_decide.mpr (hp x.1)

/-- The range test misses nothing in the range, an index range holds the upserts between its keys,
and a cursor finds what is there. -/
theorem sorted_diff_lookups {diff : SortedDiff} (h : DiffSorted diff) (kind : ElementKind) :
    (∀ minId maxId, rangeOverlaps diff kind minId maxId = false →
        ∀ id, id ∈ (diff.kind kind).ids ∨ id ∈ (diff.kind kind).deleted →
          ¬ (minId ≤ id ∧ id ≤ maxId)) ∧
      (∀ first last, slice (diff.kind kind) (upsertRange diff kind first last) =
        (entries (diff.kind kind)).filter fun x =>
          decide (osmIdKey first ≤ osmIdKey x.1) && decide (osmIdKey x.1 ≤ last)) ∧
      (∀ minId maxId, minId ≤ maxId → (0 < minId ∨ maxId ≤ 0) → upsertsIn diff kind minId maxId =
          (entries (diff.kind kind)).filter fun x => decide (minId ≤ x.1 ∧ x.1 ≤ maxId)) ∧
      (∀ minId maxId, minId ≤ 0 → 0 < maxId → upsertsIn diff kind minId maxId =
        (entries (diff.kind kind)).filter fun x => decide (x.1 ≤ maxId)) ∧
      ∀ queries : List Int64, queries.Pairwise OsmLe →
        (answers (diff.kind kind).ids none queries).length = queries.length ∧
          ∀ (j : Nat) (id : Int64), queries[j]? = some id →
            ∃ a, (answers (diff.kind kind).ids none queries)[j]? = some a ∧
              (a.isSome ↔ id ∈ (diff.kind kind).ids) ∧ ∀ i, a = some i →
                (entries (diff.kind kind))[i]? = some (id, (diff.kind kind).record i) := by
  refine ⟨?_, fun first last => slice_upsertRange h kind first last, ?_, ?_, ?_⟩
  · rintro minId maxId hmiss id hid ⟨hmin, hmax⟩
    have hlt := rangeOverlaps_eq_false h hmiss hid (blobOsmFirstKey_le hmin hmax)
    exact absurd (le_blobOsmLastKey hmin hmax) (not_le.mpr hlt)
  · exact fun minId maxId hrange hsign => upsertsIn_eq h fun id => between_keys_iff hrange hsign
  · exact fun minId maxId hmin hmax => upsertsIn_eq h fun id => between_keys_straddling hmin hmax
  · intro queries hqueries
    have hstart : ∀ id ∈ queries, Behind none (diff.kind kind).ids id := by
      rintro id - p ⟨⟩
    rw [answers_eq (h kind).ids hqueries hstart]
    refine ⟨length_map _, fun j id hj => ?_⟩
    refine ⟨if id ∈ (diff.kind kind).ids then some (place (diff.kind kind).ids id) else none,
      by rw [getElem?_map, hj]; rfl, ?_, ?_⟩
    · by_cases hid : id ∈ (diff.kind kind).ids <;> simp [hid]
    · intro i hi
      by_cases hid : id ∈ (diff.kind kind).ids
      · rw [if_pos hid] at hi
        cases hi
        rw [getElem?_entries, (getElem?_place (h kind).ids id).mpr hid, Option.map_some]
      · rw [if_neg hid] at hi
        cases hi

/-- A diff of nodes that upserts -100 and 3 and deletes 7. -/
def smallDiff : SortedDiff where
  kind
    | .node => { arena := [], ids := [-100, 3], offsets := [0, 0], deleted := [7] }
    | _ => { arena := [], ids := [], offsets := [], deleted := [] }

lemma smallDiff_sorted : DiffSorted smallDiff := by
  intro k
  cases k <;> decide

theorem sorted_diff_lookups_smallDiff : upsertsIn smallDiff .node 1 5 = [(3, [])] ∧
      ∀ id, id ∈ (smallDiff.kind .node).ids ∨ id ∈ (smallDiff.kind .node).deleted →
        ¬ (8 ≤ id ∧ id ≤ 9) := by
  have hspec := sorted_diff_lookups smallDiff_sorted .node
  refine ⟨?_, hspec.1 8 9 (by decide)⟩
  rw [hspec.2.2.1 1 5 (by decide) (.inl (by decide))]
  decide

/-- From -5 to 5 the index range holds -100 too. -/
theorem straddling_range_selects_more : upsertsIn smallDiff .node (-5) 5 ≠
      (entries (smallDiff.kind .node)).filter fun x => decide ((-5) ≤ x.1 ∧ x.1 ≤ 5) := by
  decide

end OscLookup
