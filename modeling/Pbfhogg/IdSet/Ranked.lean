import Mathlib.Data.List.Induction
import Pbfhogg.IdSet.Queries

/-!
# Rank queries

`RankedIdSet` of `idset.rs`: the running totals over the chunks and over the blocks of each bit
array add up to the rank, which is how many members lie below.
-/

namespace IdSets

open BitArray IdSet List Option

structure RankIndex where
  /-- The members in the direct chunks before each one, and the direct total. -/
  chunkPrefix : List Nat
  blockPrefix : List (Option (List Nat))
  ovKeys : List Nat
  /-- The direct total with the members of the overflow chunks before each one. -/
  ovPrefix : List Nat
  ovBlock : List (Option (List Nat))

def RankIndex.total (idx : RankIndex) : Nat := idx.ovPrefix.getLast?.getD 0

structure RankedIdSet where
  set : IdSet
  index : RankIndex

/-- The blocks and the count of a chunk that may be absent. -/
def slotRank : Option Chunk → Option (List Nat) × Nat
  | some c => c.rankBlocks
  | none => (none, 0)

variable (cumulative : Nat) (slots : List (Option Chunk))

/-- The loop over the chunks of one directory, from the total before it. -/
def indexLoop :
    List Nat × List (Option (List Nat)) × Nat :=
  slots.foldl
    (fun acc slot =>
      (acc.1 ++ [acc.2.2], acc.2.1 ++ [(slotRank slot).1], acc.2.2 + (slotRank slot).2))
    ([], [], cumulative)

def IdSet.intoRanked (s : IdSet) : RankedIdSet :=
  let direct := indexLoop 0 s.chunks
  let above := indexLoop direct.2.2 (s.overflow.toList.map fun e => some e.2)
  { set := s
    index :=
      { chunkPrefix := direct.1 ++ [direct.2.2]
        blockPrefix := direct.2.1
        ovKeys := s.overflow.toList.map (·.1)
        ovPrefix := above.1 ++ [above.2.2]
        ovBlock := above.2.1 } }

/-- The entry of a table that has one. -/
def blockAt (table : List (Option (List Nat))) (i : Nat) : Option (List Nat) := (table[i]?).join

def rankInChunk (idx : RankIndex) (slot : Slot) (cid : Nat) (c : Chunk) (off : Nat) : Nat :=
  match slot with
  | .direct i => idx.chunkPrefix.getD i 0 + c.rankWithin off (blockAt idx.blockPrefix i)
  | .overflow =>
    let i := partitionPoint idx.ovKeys (· < cid)
    idx.ovPrefix.getD i 0 + c.rankWithin off (blockAt idx.ovBlock i)

def RankedIdSet.rank (r : RankedIdSet) (id : Int64) : Nat :=
  if id.toInt ≤ 0 then 0
  else
    match split id with
    | none => 0
    | some (cid, off) =>
      if cid < directChunks then
        if r.set.chunks.length ≤ cid then
          -- Every overflow id is larger.
          r.index.chunkPrefix.getD r.set.chunks.length 0
        else
          match r.set.chunks[cid]?.join with
          | some c => rankInChunk r.index (.direct cid) cid c off
          | none => r.index.chunkPrefix.getD cid 0
      else
        let i := partitionPoint r.index.ovKeys (· < cid)
        let start := r.index.ovPrefix.getD i 0
        if r.index.ovKeys[i]? = some cid then
          match r.set.overflow[cid]? with
          | some c => start + c.rankWithin off (blockAt r.index.ovBlock i)
          | none => start
        else start

def RankedIdSet.rankIfSet (r : RankedIdSet) (id : Int64) : Option Nat :=
  match split id with
  | none => none
  | some (cid, off) =>
    match r.set.chunk cid with
    | none => none
    | some (slot, c) => if c.contains off then some (rankInChunk r.index slot cid c off) else none

def RankedIdSet.totalCount (r : RankedIdSet) : Nat := r.index.total

def RankedIdSet.iterFrom (r : RankedIdSet) (start : Int64) : List Int64 := r.set.iterFrom start

variable {s : IdSet} {cid off n : Nat} {id : Int64}

def slotCount : Option Chunk → Nat
  | some c => c.count
  | none => 0

lemma slotRank_count (slot : Option Chunk) : (slotRank slot).2 = slotCount slot := by
  cases slot with
  | none => rfl
  | some c => exact rankBlocks_count c

lemma indexLoop_append (slot : Option Chunk) :
    indexLoop cumulative (slots ++ [slot]) =
      ((indexLoop cumulative slots).1 ++ [(indexLoop cumulative slots).2.2],
        (indexLoop cumulative slots).2.1 ++ [(slotRank slot).1],
        (indexLoop cumulative slots).2.2 + (slotRank slot).2) := by
  unfold indexLoop
  rw [foldl_append, foldl_cons, foldl_nil]

lemma indexLoop_eq :
    indexLoop cumulative slots =
      ((range slots.length).map fun i => cumulative + ((slots.take i).map slotCount).sum,
        slots.map fun slot => (slotRank slot).1,
        cumulative + (slots.map slotCount).sum) := by
  induction slots using reverseRecOn with
  | nil => rfl
  | append_singleton slots slot ih =>
    rw [indexLoop_append, ih, slotRank_count]
    refine Prod.ext ?_ (Prod.ext ?_ ?_)
    · simp only [length_append, length_singleton, range_succ, map_append,
        map_cons, map_nil]
      congr 1
      · apply map_congr_left
        intro i hi
        rw [take_append_of_le_length (by
          have := mem_range.mp hi
          omega)]
      · rw [take_left]
    · simp
    · simp only [map_append, sum_append, map_cons, map_nil, sum_singleton]
      omega

variable {i : Nat}

/-- The total before an entry, or after the last one. -/
theorem getD_indexLoop (hi : i ≤ slots.length) :
    ((indexLoop cumulative slots).1 ++ [(indexLoop cumulative slots).2.2]).getD i 0 =
      cumulative + ((slots.take i).map slotCount).sum := by
  rw [indexLoop_eq]
  rw [getD_eq_getElem?_getD]
  by_cases hlt : i < slots.length
  · rw [getElem?_append_left (by simpa using hlt)]
    simp [hlt]
  · have heq : i = slots.length := by omega
    rw [getElem?_append_right (by simp [heq])]
    simp [heq]

/-- The members of the chunks before `cid`. -/
def below (s : IdSet) (cid : Nat) : Nat := ((range cid).map fun k => slotCount (s.find k)).sum

lemma below_succ (s : IdSet) (cid : Nat) :
    below s (cid + 1) = below s cid + slotCount (s.find cid) := by
  simp [below, range_succ]

lemma below_add (s : IdSet) (a b : Nat) :
    below s (a + b) = below s a +
      ((List.range b).map fun i => slotCount (s.find (a + i))).sum := by
  rw [below, List.range_add, List.map_append, List.sum_append, List.map_map]
  rfl

lemma slotCount_eq (hs : s.Valid) (cid : Nat) :
    slotCount (s.find cid) =
      (range (2 ^ idShift)).countP fun i => s.has (cid * 2 ^ idShift + i) := by
  cases hfind : s.find cid with
  | none =>
    rw [countP_eq_length_filter, has_absent hfind]
    rfl
  | some c =>
    rw [slotCount, count_eq (hs.chunk cid c hfind)]
    apply countP_congr
    intro i hi
    rw [has_block s cid (mem_range.mp hi), hfind]
    rfl

lemma below_eq (hs : s.Valid) (cid : Nat) :
    below s cid = (range (cid * 2 ^ idShift)).countP s.has := by
  rw [countP_range_mul, below]
  simp only [slotCount_eq hs]

/-- The members below a number: those of the chunks before its own, and those below its offset. -/
theorem countP_split (hs : s.Valid) (n : Nat) :
    (range n).countP s.has = below s (n / 2 ^ idShift) +
      (range (n % 2 ^ idShift)).countP fun i => chunkHas (s.find (n / 2 ^ idShift)) i := by
  have hn := Nat.div_add_mod' n (2 ^ idShift)
  conv_lhs => rw [← hn, countP_range_add, ← below_eq hs]
  congr 1
  apply countP_congr
  intro i hi
  rw [has_block s _ (Nat.lt_trans (mem_range.mp hi) (off_lt n))]

lemma find_direct (hs : s.Valid) (hi : i < s.chunks.length) :
    s.find i = s.chunks[i]?.join := if_pos (Nat.lt_of_lt_of_le hi hs.direct)

lemma take_direct (hs : s.Valid) (hi : i ≤ s.chunks.length) :
    ((s.chunks.take i).map slotCount).sum = below s i := by
  induction i with
  | zero => rfl
  | succ i ih =>
    have hlt : i < s.chunks.length := by omega
    rw [below_succ, ← ih (by omega), take_succ_eq_append_getElem hlt, map_append,
      sum_append, find_direct hs hlt, getElem?_eq_getElem hlt]
    simp

lemma below_past (hi : s.chunks.length ≤ i) (hdir : i ≤ directChunks) :
    below s i = below s s.chunks.length := by
  induction i, hi using Nat.le_induction with
  | base => rfl
  | succ i hi ih =>
    have hnone : s.find i = none := by
      rw [IdSet.find, if_pos (by omega), getElem?_eq_none hi]
      rfl
    rw [below_succ, ih (by omega), hnone]
    rfl

lemma direct_total (hs : s.Valid) : (indexLoop 0 s.chunks).2.2 = below s directChunks := by
  rw [indexLoop_eq, below_past hs.direct (Nat.le_refl _), ← take_direct hs (Nat.le_refl _),
    take_length]
  exact Nat.zero_add _

lemma sum_filterMap_find (s : IdSet) (cids : List Nat) :
    ((cids.filterMap fun cid => (s.find cid).map fun c => (cid, c)).map
      fun e => e.2.count).sum = (cids.map fun cid => slotCount (s.find cid)).sum := by
  induction cids with
  | nil => rfl
  | cons cid cids ih =>
    rw [map_cons, sum_cons, ← ih]
    cases hfind : s.find cid with
    | none =>
      rw [filterMap_cons_none (by rw [hfind]; rfl)]
      exact (Nat.zero_add _).symm
    | some c =>
      rw [filterMap_cons_some (b := (cid, c)) (by rw [hfind]; rfl)]
      rfl

/-- The overflow entries before a chunk id. -/
theorem overflow_below (hs : s.Valid) (hge : directChunks ≤ cid) :
    s.overflow.toList.filter (fun e => decide (e.1 < cid)) =
      (range (cid - directChunks)).filterMap fun i =>
        (s.find (directChunks + i)).map fun c => (directChunks + i, c) := by
  apply ((pairwise_overflow s).filter _).eq_of_mem_iff
  · refine List.Pairwise.filterMap _ ?_ pairwise_lt_range
    intro a b hab x hx y hy
    obtain ⟨c, -, rfl⟩ := map_eq_some_iff.mp hx
    obtain ⟨c', -, rfl⟩ := map_eq_some_iff.mp hy
    exact Nat.add_lt_add_left hab _
  · rintro ⟨k, c⟩
    rw [mem_filter, mem_overflow hs, decide_eq_true_eq, mem_filterMap]
    constructor
    · rintro ⟨⟨hk, hfind⟩, hlt⟩
      have hback : directChunks + (k - directChunks) = k := Nat.add_sub_cancel' hk
      refine ⟨k - directChunks, mem_range.mpr (by omega), ?_⟩
      rw [hback, hfind]
      rfl
    · rintro ⟨i, hi, hmap⟩
      obtain ⟨c', hfind, hpair⟩ := map_eq_some_iff.mp hmap
      obtain ⟨rfl, rfl⟩ := Prod.mk.inj hpair
      have := mem_range.mp hi
      exact ⟨⟨Nat.le_add_right _ _, hfind⟩, by omega⟩

lemma pairwise_keys (s : IdSet) : (s.overflow.toList.map (·.1)).Pairwise (· < ·) :=
  pairwise_map.mpr (pairwise_overflow s)

lemma take_partitionPoint {l : List (Nat × Chunk)} (hl : l.Pairwise Before) (cid : Nat) :
    l.take (partitionPoint (l.map (·.1)) (· < cid)) = l.filter fun e => decide (e.1 < cid) := by
  unfold partitionPoint
  induction l with
  | nil => rfl
  | cons e l ih =>
    obtain ⟨hfirst, hrest⟩ := pairwise_cons.mp hl
    by_cases hlt : e.1 < cid
    · simp [hlt, ih hrest]
    · have hnone : l.filter (fun e => decide (e.1 < cid)) = [] := by
        rw [filter_eq_nil_iff]
        intro e' he'
        have : e.1 < e'.1 := hfirst e' he'
        simp only [decide_eq_true_eq]
        omega
      simp [hlt, hnone]

lemma partitionPoint_le (xs : List Nat) (x : Nat) : partitionPoint xs (· < x) ≤ xs.length :=
  (takeWhile_sublist _).length_le

/-- The overflow total before a chunk id is what lies below it. -/
theorem ovPrefix_eq (hs : s.Valid) (hge : directChunks ≤ cid) :
    s.intoRanked.index.ovPrefix.getD (partitionPoint s.intoRanked.index.ovKeys (· < cid)) 0 =
      below s cid := by
  change ((indexLoop (indexLoop 0 s.chunks).2.2
    (s.overflow.toList.map fun e : Nat × Chunk => some e.2)).1 ++ [_]).getD
    (partitionPoint (s.overflow.toList.map fun e : Nat × Chunk => e.1) (· < cid)) 0 = _
  have hle := partitionPoint_le (s.overflow.toList.map (·.1)) cid
  rw [getD_indexLoop _ _ (by simpa using hle), direct_total hs, ← List.map_take,
    take_partitionPoint (pairwise_overflow s), overflow_below hs hge, List.map_map]
  obtain ⟨d, rfl⟩ := Nat.exists_eq_add_of_le hge
  have hsum := sum_filterMap_find s ((List.range d).map (directChunks + ·))
  rw [List.filterMap_map, List.map_map] at hsum
  rw [Nat.add_sub_cancel_left, below_add]
  exact congrArg _ hsum

lemma ovKeys_iff (hs : s.Valid) (hge : directChunks ≤ cid) :
    s.intoRanked.index.ovKeys[partitionPoint s.intoRanked.index.ovKeys (· < cid)]? = some cid ↔
      ∃ c, s.find cid = some c := by
  change (s.overflow.toList.map (·.1))[partitionPoint (s.overflow.toList.map (·.1)) (· < cid)]? =
    some cid ↔ _
  rw [binarySearch_mem (pairwise_keys s), List.mem_map]
  constructor
  · rintro ⟨e, he, rfl⟩
    exact ⟨e.2, ((mem_overflow hs).mp he).2⟩
  · rintro ⟨c, hfind⟩
    exact ⟨(cid, c), (mem_overflow hs).mpr ⟨hge, hfind⟩, rfl⟩

lemma ovBlock_eq (hs : s.Valid) (hge : directChunks ≤ cid) {c : Chunk}
    (hfind : s.find cid = some c) :
    blockAt s.intoRanked.index.ovBlock (partitionPoint s.intoRanked.index.ovKeys (· < cid)) =
      c.rankBlocks.1 := by
  have hkey := (ovKeys_iff hs hge).mpr ⟨c, hfind⟩
  change (s.overflow.toList.map (·.1))[partitionPoint (s.overflow.toList.map (·.1)) (· < cid)]? =
    some cid at hkey
  change (((indexLoop _ (s.overflow.toList.map fun e => some e.2)).2.1)[partitionPoint
    (s.overflow.toList.map (·.1)) (· < cid)]?).join = _
  generalize partitionPoint (s.overflow.toList.map (·.1)) (· < cid) = i at hkey
  rw [getElem?_map] at hkey
  obtain ⟨⟨k, c'⟩, hget, hk⟩ := map_eq_some_iff.mp hkey
  dsimp only at hk
  subst hk
  have hsame : c' = c := by
    have := ((mem_overflow hs).mp (mem_of_getElem? hget)).2
    exact some.inj (this.symm.trans hfind)
  subst hsame
  rw [indexLoop_eq]
  simp only [List.map_map, List.getElem?_map, hget]
  rfl

lemma blockPrefix_eq {c : Chunk} (hget : s.chunks[i]?.join = some c) :
    blockAt s.intoRanked.index.blockPrefix i = c.rankBlocks.1 := by
  change ((indexLoop 0 s.chunks).2.1[i]?).join = _
  obtain ⟨slot, hslot, rfl⟩ : ∃ slot, s.chunks[i]? = some slot ∧ slot = some c := by
    cases hslot : s.chunks[i]? with
    | none => simp [hslot] at hget
    | some slot => exact ⟨slot, rfl, by simpa [hslot] using hget⟩
  rw [indexLoop_eq]
  simp only [getElem?_map, hslot]
  rfl

lemma chunkPrefix_eq (hs : s.Valid) (hi : i ≤ s.chunks.length) :
    s.intoRanked.index.chunkPrefix.getD i 0 = below s i := by
  change ((indexLoop 0 s.chunks).1 ++ [_]).getD i 0 = _
  rw [getD_indexLoop _ _ hi, Nat.zero_add, take_direct hs hi]

lemma rankInChunk_eq (hs : s.Valid) {slot : Slot} {c : Chunk} (hoff : off < 2 ^ idShift)
    (hchunk : s.chunk cid = some (slot, c)) :
    rankInChunk s.intoRanked.index slot cid c off =
      below s cid + (range off).countP c.contains := by
  have hfind : s.find cid = some c := by
    rw [← chunk_eq, hchunk]
    rfl
  have hvalid := hs.chunk cid c hfind
  unfold IdSet.chunk at hchunk
  split at hchunk
  · next hdir =>
    obtain ⟨c', hget, hpair⟩ := map_eq_some_iff.mp hchunk
    obtain ⟨rfl, rfl⟩ := Prod.mk.inj hpair
    have hlt : cid < s.chunks.length := by
      by_contra hge
      rw [getElem?_eq_none (by omega)] at hget
      cases hget
    rw [rankInChunk, chunkPrefix_eq hs (by omega), blockPrefix_eq hget, rankWithin_eq hvalid hoff]
  · next hdir =>
    have hge : directChunks ≤ cid := by omega
    obtain ⟨c', hget, hpair⟩ := map_eq_some_iff.mp hchunk
    obtain ⟨rfl, rfl⟩ := Prod.mk.inj hpair
    simp only [rankInChunk]
    rw [ovPrefix_eq hs hge, ovBlock_eq hs hge hfind, rankWithin_eq hvalid hoff]

lemma rank_eq (hs : s.Valid) (id : Int64) :
    s.intoRanked.rank id = (range id.toInt.toNat).countP s.has := by
  by_cases hpos : id.toInt ≤ 0
  · have hzero : id.toInt.toNat = 0 := by omega
    rw [RankedIdSet.rank, if_pos hpos, hzero]
    rfl
  rw [countP_split hs, RankedIdSet.rank, if_neg hpos, split_some (by omega)]
  have hoff := off_lt id.toInt.toNat
  generalize id.toInt.toNat / 2 ^ idShift = cid
  generalize id.toInt.toNat % 2 ^ idShift = off at hoff
  have habsent : s.find cid = none →
      ((range off).countP fun i => chunkHas (s.find cid) i) = 0 := by
    intro h
    rw [h, countP_eq_zero]
    intro i _
    exact Bool.false_ne_true
  dsimp only
  split
  · next hdir =>
    have hsame : s.find cid = s.chunks[cid]?.join := if_pos hdir
    split
    · next hlen =>
      change s.chunks.length ≤ cid at hlen
      have hnone : s.find cid = none := by
        rw [hsame, getElem?_eq_none hlen]
        rfl
      rw [habsent hnone, Nat.add_zero, below_past hlen (by omega)]
      exact chunkPrefix_eq hs (Nat.le_refl _)
    · next hlen =>
      change ¬ s.chunks.length ≤ cid at hlen
      split
      · next c hget =>
        have hchunk : s.chunk cid = some (.direct cid, c) := by
          rw [IdSet.chunk, if_pos hdir]
          exact congrArg (Option.map _) hget
        rw [rankInChunk_eq hs hoff hchunk, hsame.trans hget]
        rfl
      · next hget =>
        rw [habsent (hsame.trans hget), Nat.add_zero]
        exact chunkPrefix_eq hs (by omega)
  · next hdir =>
    have hge : directChunks ≤ cid := by omega
    have hsame : s.find cid = s.overflow[cid]? := if_neg hdir
    rw [ovPrefix_eq hs hge]
    split
    · next hkey =>
      obtain ⟨c, hfind⟩ := (ovKeys_iff hs hge).mp hkey
      split
      · next c' hget =>
        have hc : c' = c := some.inj (hget.symm.trans (hsame.symm.trans hfind))
        subst hc
        rw [ovBlock_eq hs hge hfind, rankWithin_eq (hs.chunk cid c' hfind) hoff, hfind]
        rfl
      · next hget =>
        rw [habsent (hsame.trans hget), Nat.add_zero]
    · next hkey =>
      have hnone : s.find cid = none := by
        cases hfind : s.find cid with
        | none => rfl
        | some c => exact absurd ((ovKeys_iff hs hge).mpr ⟨c, hfind⟩) hkey
      rw [habsent hnone, Nat.add_zero]

lemma rankIfSet_eq (hs : s.Valid) (id : Int64) :
    s.intoRanked.rankIfSet id = if s.get id then some (s.intoRanked.rank id) else none := by
  by_cases hneg : id.toInt < 0
  · rw [RankedIdSet.rankIfSet, split_none hneg, get_negative s hneg]
    rfl
  have hnn : 0 ≤ id.toInt := by omega
  rw [rank_eq hs, countP_split hs, get_eq s hnn, RankedIdSet.rankIfSet, split_some hnn]
  change (match s.chunk (id.toInt.toNat / 2 ^ idShift) with
    | none => none
    | some (slot, c) =>
      if c.contains (id.toInt.toNat % 2 ^ idShift) then
        some (rankInChunk s.intoRanked.index slot _ c _) else none) = _
  have hfind := chunk_eq s (id.toInt.toNat / 2 ^ idShift)
  unfold IdSet.has
  cases hchunk : s.chunk (id.toInt.toNat / 2 ^ idShift) with
  | none =>
    rw [hchunk] at hfind
    rw [← hfind]
    rfl
  | some e =>
    obtain ⟨slot, c⟩ := e
    rw [hchunk] at hfind
    rw [← hfind]
    dsimp only
    rw [rankInChunk_eq hs (off_lt _) hchunk]
    rfl

lemma totalCount_eq (s : IdSet) : s.intoRanked.totalCount = s.len := by
  have hlast : s.intoRanked.totalCount = (indexLoop (indexLoop 0 s.chunks).2.2
      (s.overflow.toList.map fun e => some e.2)).2.2 := by
    simp [RankedIdSet.totalCount, RankIndex.total, IdSet.intoRanked]
  have hflat : ∀ chunks : List (Option Chunk),
      (chunks.map slotCount).sum = ((chunks.filterMap id).map Chunk.count).sum := by
    intro chunks
    induction chunks with
    | nil => rfl
    | cons slot chunks ih =>
      cases slot with
      | none | some => simpa [slotCount] using ih
  rw [hlast, indexLoop_eq, indexLoop_eq, IdSet.len, List.map_append, List.sum_append, ← hflat]
  simp only [List.map_map, Nat.zero_add]
  rfl

end IdSets
