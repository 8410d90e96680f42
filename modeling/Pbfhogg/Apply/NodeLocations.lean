import Pbfhogg.Osc.Lookup

/-!
# The nodes a diff's ways refer to

`apply_changes/node_locations.rs` and the coordinate filter of a worker: which node coordinates the
ways of a diff need, which the diff gives itself and which are taken from the base. A referenced
node the diff deletes is in neither, yet counts as referenced.
-/

namespace NodeLocations

open OsmId OscCompact OscSorted OscLookup List Option

/-- Latitude and longitude in decimicrodegrees. -/
abbrev Coord := Int32 × Int32

abbrev LocMap := AList fun _ : Int64 => Coord

structure NodeLocationIndex where
  locations : LocMap
  neededSet : Finset Int64
  totalReferenced : Nat

def wayRefs (record : Bytes) : List Int64 :=
  match (view .way record).body with
  | .way refs => refs
  | _ => []

def nodeCoord (record : Bytes) : Coord :=
  match (view .node record).body with
  | .node lat lon => (lat, lon)
  | _ => (0, 0)

/-- `Vec::dedup`: of equal neighbours the first stays. -/
def dedup : List Int64 → List Int64
  | [] => []
  | [a] => [a]
  | a :: b :: l => if a = b then dedup (b :: l) else a :: dedup (b :: l)

variable (diff : SortedDiff)

/-- The node ids the surviving ways of the diff refer to, in id order, each once. -/
def allNeeded : List Int64 :=
  dedup (((range (diff.kind .way).ids.length).flatMap
    fun i => wayRefs ((diff.kind .way).record i)).insertionSort OsmLe)

structure IndexState where
  inUpserts : Seek
  inDeleted : Seek
  locations : LocMap
  stillNeeded : Finset Int64

def indexNode (s : IndexState) (id : Int64) : IndexState :=
  let up := s.inUpserts.find (diff.kind .node).ids id
  match up.1 with
  | some i =>
    { s with
      inUpserts := up.2
      locations := s.locations.insert id (nodeCoord ((diff.kind .node).record i)) }
  | none =>
    let del := s.inDeleted.find (diff.kind .node).deleted id
    match del.1 with
    | none => { s with
        inUpserts := up.2
        inDeleted := del.2
        stillNeeded := insert id s.stillNeeded }
    | some _ => { s with inUpserts := up.2, inDeleted := del.2 }

def buildFromDiff : NodeLocationIndex :=
  let s := (allNeeded diff).foldl (indexNode diff) ⟨none, none, ∅, ∅⟩
  ⟨s.locations, s.stillNeeded, (allNeeded diff).length⟩

def latBias : Int := 900000000

def lonLimit : Int := 1800000000

def inDomain (c : Coord) : Bool :=
  decide (-latBias ≤ c.1.toInt ∧ c.1.toInt ≤ latBias) &&
    decide (-lonLimit ≤ c.2.toInt ∧ c.2.toInt ≤ lonLimit)

/-- The kept coordinates of a block and its first kept node outside the domain. -/
def keepNode (needed : Finset Int64) (s : LocMap × Option (Int64 × Coord)) (n : Int64 × Coord) :
    LocMap × Option (Int64 × Coord) :=
  if n.1 ∉ needed then s
  else if inDomain n.2 = false then (s.1, s.2.or (some n))
  else (s.1.insert n.1 n.2, s.2)

/-- The coordinates of a block's nodes that are needed; none if one of those is out
of the domain, which fails the run. -/
def extractNeeded (needed : Finset Int64) (nodes : List (Int64 × Coord)) : Option LocMap :=
  match nodes.foldl (keepNode needed) (∅, none) with
  | (coords, none) => some coords
  | (_, some _) => none

lemma mem_dedup {l : List Int64} {x : Int64} : x ∈ dedup l ↔ x ∈ l := by
  fun_induction dedup l with
  | case1 => rfl
  | case2 a => rfl
  | case3 b l ih =>
    rw [ih]
    simp
  | case4 a b l hne ih =>
    rw [mem_cons, ih, mem_cons (a := x) (b := a)]

lemma dedup_sorted {l : List Int64} (h : l.Pairwise OsmLe) : (dedup l).Pairwise OsmLt := by
  fun_induction dedup l with
  | case1 => exact .nil
  | case2 a => simp
  | case3 b l ih => exact ih (pairwise_cons.mp h).2
  | case4 a b l hne ih =>
    rw [pairwise_cons] at h
    rw [pairwise_cons]
    refine ⟨?_, ih h.2⟩
    intro x hx
    have hx' := mem_dedup.mp hx
    have hab := osmLt_of_le_ne (h.1 b mem_cons_self) hne
    rcases mem_cons.mp hx' with rfl | hx'
    · exact hab
    · exact lt_of_lt_of_le (show osmIdKey a < osmIdKey b from hab)
        ((pairwise_cons.mp h.2).1 x hx')

variable {diff : SortedDiff}

lemma allNeeded_sorted (diff : SortedDiff) : (allNeeded diff).Pairwise OsmLt :=
  dedup_sorted (pairwise_insertionSort _ _)

lemma allNeeded_nodup (diff : SortedDiff) : (allNeeded diff).Nodup := by
  apply (allNeeded_sorted diff).imp
  rintro a b hab rfl
  exact lt_irrefl _ (show osmIdKey a < osmIdKey a from hab)

/-- The coordinates the diff gives for a node it upserts. -/
def oscCoord (diff : SortedDiff) (id : Int64) : Option Coord :=
  ((entries (diff.kind .node)).lookup id).map nodeCoord

lemma oscCoord_of_mem (hdiff : DiffSorted diff) {id : Int64} (h : id ∈ (diff.kind .node).ids) :
    oscCoord diff id = some (nodeCoord ((diff.kind .node).record (place (diff.kind .node).ids id))) := by
  obtain ⟨record, hget, hlook⟩ := entries_place (hdiff .node) h
  rw [getElem?_entries, (getElem?_place (hdiff .node).ids id).mpr h] at hget
  have hrec : (diff.kind .node).record (place (diff.kind .node).ids id) = record := by
    simpa using hget
  rw [oscCoord, hlook, map_some, hrec]

lemma oscCoord_eq_none {id : Int64} (h : id ∉ (diff.kind .node).ids) : oscCoord diff id = none := by
  rw [oscCoord, map_eq_none_iff, lookup_eq_none_iff]
  intro x hx
  rw [bne_iff_ne]
  rintro rfl
  exact h (mem_ids_of_mem_entries hx)

/-- Neither cursor has passed the id. -/
def IndexState.BehindAt (s : IndexState) (diff : SortedDiff) (id : Int64) : Prop :=
  Behind s.inUpserts (diff.kind .node).ids id ∧ Behind s.inDeleted (diff.kind .node).deleted id

lemma behind_place (ids : List Int64) (id : Int64) : Behind (some (place ids id)) ids id := by
  intro p hp
  cases hp
  exact le_refl _

lemma behindAt_start (id : Int64) : IndexState.BehindAt ⟨none, none, ∅, ∅⟩ diff id := by
  constructor <;> intro p hp <;> cases hp

/-- One referenced node: its coordinates come from the diff, or it is still needed,
or it is deleted and in neither. -/
lemma indexNode_spec (hdiff : DiffSorted diff) {s : IndexState} {id : Int64}
    (h : s.BehindAt diff id) :
    (indexNode diff s id).BehindAt diff id ∧
      (∀ x, (indexNode diff s id).locations.lookup x =
        if x = id ∧ id ∈ (diff.kind .node).ids then oscCoord diff x else s.locations.lookup x) ∧
      ∀ x, x ∈ (indexNode diff s id).stillNeeded ↔
        x ∈ s.stillNeeded ∨ x = id ∧ id ∉ (diff.kind .node).ids ∧ id ∉ (diff.kind .node).deleted := by
  have hup := Seek.find_eq (hdiff .node).ids h.1
  have hdel := Seek.find_eq (hdiff .node).deleted h.2
  by_cases hin : id ∈ (diff.kind .node).ids
  · simp only [indexNode, hup, hin, if_true]
    refine ⟨⟨behind_place _ _, h.2⟩, ?_, ?_⟩
    · intro x
      by_cases hx : x = id
      · subst hx
        simp [oscCoord_of_mem hdiff hin]
      · simp [hx, AList.lookup_insert_ne hx]
    · intro x
      simp
  · by_cases hdeleted : id ∈ (diff.kind .node).deleted
    · simp only [indexNode, hup, hin, if_false, hdel, hdeleted, if_true]
      refine ⟨⟨behind_place _ _, behind_place _ _⟩, ?_, ?_⟩
      · intro x
        simp
      · intro x
        simp
    · simp only [indexNode, hup, hin, if_false, hdel, hdeleted]
      refine ⟨⟨behind_place _ _, behind_place _ _⟩, ?_, ?_⟩
      · intro x
        simp
      · intro x
        rw [Finset.mem_insert]
        constructor
        · rintro (rfl | hx)
          · exact .inr ⟨rfl, fun hc => hc, fun hc => hc⟩
          · exact .inl hx
        · rintro (hx | ⟨rfl, _⟩)
          · exact .inr hx
          · exact .inl rfl

lemma foldl_indexNode_spec (hdiff : DiffSorted diff) {l : List Int64} (hl : l.Pairwise OsmLt)
    {s : IndexState} (h : ∀ id ∈ l, s.BehindAt diff id) :
    (∀ x, (l.foldl (indexNode diff) s).locations.lookup x =
        if x ∈ l ∧ x ∈ (diff.kind .node).ids then oscCoord diff x else s.locations.lookup x) ∧
      ∀ x, x ∈ (l.foldl (indexNode diff) s).stillNeeded ↔
        x ∈ s.stillNeeded ∨ x ∈ l ∧ x ∉ (diff.kind .node).ids ∧ x ∉ (diff.kind .node).deleted := by
  induction l generalizing s with
  | nil => simp
  | cons id l ih =>
    rw [pairwise_cons] at hl
    obtain ⟨hbehind, hloc, hneed⟩ := indexNode_spec hdiff (h id mem_cons_self)
    have hnext : ∀ x ∈ l, (indexNode diff s id).BehindAt diff x := by
      intro x hx
      have hle : OsmLe id x := le_of_lt (hl.1 x hx)
      exact ⟨hbehind.1.mono hle, hbehind.2.mono hle⟩
    obtain ⟨ihloc, ihneed⟩ := ih hl.2 hnext
    rw [foldl_cons]
    constructor
    · intro x
      rw [ihloc, hloc]
      by_cases hxl : x ∈ l
      · by_cases hxin : x ∈ (diff.kind .node).ids
        · simp [hxl, hxin]
        · have hne : ¬ (x = id ∧ id ∈ (diff.kind .node).ids) := by
            rintro ⟨rfl, hid⟩
            exact hxin hid
          simp [hxin, hne]
      · by_cases hx : x = id
        · subst hx
          simp [hxl]
        · simp [hxl, hx]
    · intro x
      rw [ihneed, hneed, mem_cons]
      constructor
      · rintro ((hx | ⟨rfl, hx⟩) | ⟨hxl, hx⟩)
        · exact .inl hx
        · exact .inr ⟨.inl rfl, hx⟩
        · exact .inr ⟨.inr hxl, hx⟩
      · rintro (hx | ⟨rfl | hxl, hx⟩)
        · exact .inl (.inl hx)
        · exact .inl (.inr ⟨rfl, hx⟩)
        · exact .inr ⟨hxl, hx⟩

lemma buildFromDiff_locations (hdiff : DiffSorted diff) (id : Int64) :
    (buildFromDiff diff).locations.lookup id =
      if id ∈ allNeeded diff then oscCoord diff id else none := by
  have hfold := (@foldl_indexNode_spec diff hdiff _ (allNeeded_sorted diff) ⟨none, none, ∅, ∅⟩
    (fun id _ => behindAt_start id)).1 id
  refine hfold.trans ?_
  by_cases hid : id ∈ allNeeded diff
  · by_cases hin : id ∈ (diff.kind .node).ids
    · simp [hid, hin]
    · simp [hid, hin, oscCoord_eq_none hin]
  · simp [hid]

lemma mem_neededSet (hdiff : DiffSorted diff) (id : Int64) : id ∈ (buildFromDiff diff).neededSet ↔
      id ∈ allNeeded diff ∧ id ∉ (diff.kind .node).ids ∧ id ∉ (diff.kind .node).deleted := by
  have hfold := (@foldl_indexNode_spec diff hdiff _ (allNeeded_sorted diff) ⟨none, none, ∅, ∅⟩
    (fun id _ => behindAt_start id)).2 id
  refine hfold.trans ?_
  simp

variable {needed : Finset Int64} {nodes : List (Int64 × Coord)} {coords : LocMap}

lemma foldl_keepNode_some {m : LocMap} {bad : Int64 × Coord} {out : Option (Int64 × Coord)}
    (h : nodes.foldl (keepNode needed) (m, some bad) = (coords, out)) : out ≠ none := by
  induction nodes generalizing m with
  | nil =>
    rw [foldl_nil] at h
    rw [← (Prod.mk.inj h).2]
    simp
  | cons n nodes ih =>
    rw [foldl_cons] at h
    by_cases hn : n.1 ∉ needed
    · rw [keepNode, if_pos hn] at h
      exact ih h
    · by_cases hd : inDomain n.2 = false
      · rw [keepNode, if_neg hn, if_pos hd, some_or] at h
        exact ih h
      · rw [keepNode, if_neg hn, if_neg hd] at h
        exact ih h

lemma foldl_keepNode_spec {m : LocMap} (hnodup : (nodes.map Prod.fst).Nodup)
    (h : nodes.foldl (keepNode needed) (m, none) = (coords, none)) (id : Int64) (c : Coord) :
    coords.lookup id = some c ↔ id ∈ needed ∧ (id, c) ∈ nodes ∨
        ¬ (id ∈ needed ∧ id ∈ nodes.map Prod.fst) ∧ m.lookup id = some c := by
  induction nodes generalizing m with
  | nil =>
    rw [foldl_nil] at h
    rw [← (Prod.mk.inj h).1]
    simp
  | cons n nodes ih =>
    rw [map_cons, nodup_cons] at hnodup
    rw [foldl_cons] at h
    by_cases hn : n.1 ∉ needed
    · rw [keepNode, if_pos hn] at h
      rw [ih hnodup.2 h]
      by_cases hid : id ∈ needed
      · have hne : id ≠ n.1 := fun heq => hn (heq ▸ hid)
        have hne' : (id, c) ≠ n := fun heq => hne (by rw [← heq])
        simp [hid, hne, hne']
      · simp [hid]
    · by_cases hd : inDomain n.2 = false
      · rw [keepNode, if_neg hn, if_pos hd, none_or] at h
        exact absurd rfl (foldl_keepNode_some h)
      · rw [keepNode, if_neg hn, if_neg hd] at h
        have hmem : n.1 ∈ needed := not_not.mp hn
        rw [ih hnodup.2 h]
        by_cases hid : id = n.1
        · subst hid
          have hout : (n.1, c) ∉ nodes := by
            intro hin
            exact hnodup.1 (mem_map.mpr ⟨_, hin, rfl⟩)
          have hpair : (n.1, c) = n ↔ n.2 = c := by
            constructor
            · intro heq
              rw [← heq]
            · rintro rfl
              rfl
          simp [hout, hnodup.1, hmem, hpair]
        · have hne : (id, c) ≠ n := fun heq => hid (by rw [← heq])
          simp [AList.lookup_insert_ne hid, hid, hne]

lemma extractNeeded_spec (hnodup : (nodes.map Prod.fst).Nodup)
    (h : extractNeeded needed nodes = some coords) (id : Int64) (c : Coord) :
    coords.lookup id = some c ↔ id ∈ needed ∧ (id, c) ∈ nodes := by
  unfold extractNeeded at h
  split at h
  · next kept hfold =>
    cases h
    rw [foldl_keepNode_spec hnodup hfold]
    simp
  · cases h

end NodeLocations
