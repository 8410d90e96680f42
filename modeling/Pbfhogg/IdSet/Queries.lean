import Pbfhogg.IdSet.Directory

/-!
# What an id set answers

The listing of a valid set is the numbers it has, ascending; membership, the range query and the
count follow from that.
-/

namespace IdSets

open BitArray IdSet List Option

variable {s : IdSet} {cid off n : Nat} {id : Int64}

lemma get_eq (s : IdSet) (h : 0 ≤ id.toInt) : s.get id = s.has id.toInt.toNat := by
  rw [IdSet.get, split_some h, IdSet.has, ← chunk_eq]
  dsimp only
  cases s.chunk (id.toInt.toNat / 2 ^ idShift) <;> rfl

lemma get_negative (s : IdSet) (h : id.toInt < 0) : s.get id = false := by
  rw [IdSet.get, split_none h]

lemma hasAny_of_has (h : s.has n = true) : s.hasAny = true := by
  unfold IdSet.has chunkHas at h
  cases hfind : s.find (n / 2 ^ idShift) with
  | none =>
    rw [hfind] at h
    cases h
  | some c =>
    unfold IdSet.find at hfind
    rw [IdSet.hasAny, Bool.or_eq_true]
    split at hfind
    · left
      rw [List.any_eq_true]
      exact ⟨some c, List.mem_of_getElem? (Option.join_eq_some_iff.mp hfind), rfl⟩
    · right
      have hmem : n / 2 ^ idShift ∈ s.overflow := Std.TreeMap.mem_iff_isSome_getElem?.mpr (by
        rw [hfind]
        rfl)
      rw [Std.TreeMap.isEmpty_eq_false_iff_exists_mem.mpr ⟨_, hmem⟩]
      rfl

/-- Entries are ordered by their chunk id. -/
def Before (a b : Nat × Chunk) : Prop := a.1 < b.1

instance : Std.Irrefl Before := ⟨fun _ h => Nat.lt_irrefl _ h⟩

instance : Std.Antisymm Before := ⟨fun _ _ h h' => absurd h (Nat.lt_asymm h')⟩

lemma pairwise_overflow (s : IdSet) : s.overflow.toList.Pairwise Before :=
  List.Pairwise.imp (fun h => Nat.compare_eq_lt.mp h) Std.TreeMap.ordered_keys_toList

lemma pairwise_zipIdx (chunks : List (Option Chunk)) :
    chunks.zipIdx.Pairwise fun a b => a.2 < b.2 := by
  rw [pairwise_iff_getElem]
  intro i j hi hj hij
  simpa [getElem_zipIdx] using hij

lemma pairwise_directEntries (s : IdSet) (skip : Nat) : (s.directEntries skip).Pairwise Before := by
  refine List.Pairwise.filterMap _ ?_ ((pairwise_zipIdx s.chunks).drop)
  intro a b hab x hx y hy
  obtain ⟨c, -, rfl⟩ := map_eq_some_iff.mp hx
  obtain ⟨c', -, rfl⟩ := map_eq_some_iff.mp hy
  exact hab

variable {e : Nat × Chunk}

lemma mem_directEntries {skip : Nat} :
    e ∈ s.directEntries skip ↔ skip ≤ e.1 ∧ s.chunks[e.1]?.join = some e.2 := by
  obtain ⟨cid, c⟩ := e
  unfold IdSet.directEntries
  rw [mem_filterMap]
  constructor
  · rintro ⟨⟨slot, i⟩, hmem, hmap⟩
    obtain ⟨c', hslot, hpair⟩ := map_eq_some_iff.mp hmap
    obtain ⟨rfl, rfl⟩ := Prod.mk.inj hpair
    dsimp only at hslot
    subst hslot
    obtain ⟨k, hk, hget⟩ := mem_drop_iff_getElem.mp hmem
    rw [getElem_zipIdx] at hget
    obtain ⟨hchunk, hi⟩ := Prod.mk.inj hget
    have hi' : i = skip + k := by omega
    subst hi'
    have hlt : skip + k < s.chunks.length := by
      rw [length_zipIdx] at hk
      omega
    refine ⟨Nat.le_add_right _ _, ?_⟩
    rw [getElem?_eq_getElem hlt, hchunk]
    rfl
  · rintro ⟨hskip, hget⟩
    obtain ⟨slot, hslot, rfl⟩ : ∃ slot, s.chunks[cid]? = some slot ∧ slot = some c := by
      cases hslot : s.chunks[cid]? with
      | none => simp [hslot] at hget
      | some slot => exact ⟨slot, rfl, by simpa [hslot] using hget⟩
    obtain ⟨hlt, hval⟩ := List.getElem?_eq_some_iff.mp hslot
    refine ⟨(some c, cid), ?_, rfl⟩
    rw [mem_drop_iff_getElem]
    have hk : skip + (cid - skip) = cid := by omega
    refine ⟨cid - skip, by rw [length_zipIdx]; omega, ?_⟩
    rw [getElem_zipIdx]
    simp only [hk, Nat.zero_add]
    rw [hval]

lemma mem_overflow (hs : s.Valid) :
    e ∈ s.overflow.toList ↔ directChunks ≤ e.1 ∧ s.find e.1 = some e.2 := by
  obtain ⟨cid, c⟩ := e
  rw [Std.TreeMap.mem_toList_iff_getElem?_eq_some]
  constructor
  · intro hget
    have hge := (hs.overflow cid c hget).1
    refine ⟨hge, ?_⟩
    rw [IdSet.find, if_neg (by omega)]
    exact hget
  · rintro ⟨hge, hfind⟩
    rw [IdSet.find, if_neg (by omega)] at hfind
    exact hfind

lemma mem_direct (hs : s.Valid) {skip : Nat} :
    e ∈ s.directEntries skip ↔ skip ≤ e.1 ∧ e.1 < directChunks ∧ s.find e.1 = some e.2 := by
  rw [mem_directEntries]
  constructor
  · rintro ⟨hskip, hget⟩
    have hlt : e.1 < directChunks := by
      by_contra hge
      have := hs.direct
      rw [getElem?_eq_none (by omega)] at hget
      cases hget
    refine ⟨hskip, hlt, ?_⟩
    rw [IdSet.find, if_pos hlt]
    exact hget
  · rintro ⟨hskip, hlt, hfind⟩
    rw [IdSet.find, if_pos hlt] at hfind
    exact ⟨hskip, hfind⟩

/-- All entries, by their chunk id. -/
def entries (s : IdSet) : List (Nat × Chunk) := s.directEntries 0 ++ s.overflow.toList

lemma mem_entries (hs : s.Valid) : e ∈ entries s ↔ s.find e.1 = some e.2 := by
  unfold entries
  rw [mem_append, mem_direct hs, mem_overflow hs]
  constructor
  · rintro (⟨-, -, h⟩ | ⟨-, h⟩)
    · exact h
    · exact h
  · intro h
    by_cases hlt : e.1 < directChunks
    · exact .inl ⟨Nat.zero_le _, hlt, h⟩
    · exact .inr ⟨by omega, h⟩

lemma pairwise_entries (hs : s.Valid) : (entries s).Pairwise Before := by
  unfold entries
  rw [pairwise_append]
  refine ⟨pairwise_directEntries s 0, pairwise_overflow s, ?_⟩
  intro a ha b hb
  have h1 := ((mem_direct hs).mp ha).2.1
  have h2 := ((mem_overflow hs).mp hb).1
  exact Nat.lt_of_lt_of_le h1 h2

lemma find_lt (hs : s.Valid) {c : Chunk} (h : s.find cid = some c) : cid < 2 ^ 38 := by
  unfold IdSet.find at h
  split at h
  · next hlt => exact Nat.lt_trans hlt (by decide)
  · exact (hs.overflow cid c h).2

/-- The entries are the chunk ids in order that have a chunk. -/
theorem entries_eq (hs : s.Valid) :
    entries s = (range (2 ^ 38)).filterMap fun cid => (s.find cid).map fun c => (cid, c) := by
  apply (pairwise_entries hs).eq_of_mem_iff
  · refine List.Pairwise.filterMap _ ?_ pairwise_lt_range
    intro a b hab x hx y hy
    obtain ⟨c, -, rfl⟩ := map_eq_some_iff.mp hx
    obtain ⟨c', -, rfl⟩ := map_eq_some_iff.mp hy
    exact hab
  · rintro ⟨cid, c⟩
    rw [mem_entries hs, mem_filterMap]
    constructor
    · intro h
      exact ⟨cid, mem_range.mpr (find_lt hs h), by rw [h]; rfl⟩
    · rintro ⟨k, -, hk⟩
      obtain ⟨c', hfind, hpair⟩ := map_eq_some_iff.mp hk
      cases hpair
      exact hfind

lemma has_block (s : IdSet) (cid : Nat) {i : Nat} (hi : i < 2 ^ idShift) :
    s.has (cid * 2 ^ idShift + i) = chunkHas (s.find cid) i := by
  have hpos : 0 < 2 ^ idShift := by decide
  have hdiv : (cid * 2 ^ idShift + i) / 2 ^ idShift = cid := by
    rw [Nat.mul_comm, Nat.mul_add_div hpos, Nat.div_eq_of_lt hi, Nat.add_zero]
  have hmod : (cid * 2 ^ idShift + i) % 2 ^ idShift = i := by
    rw [Nat.mul_comm, Nat.mul_add_mod, Nat.mod_eq_of_lt hi]
  rw [IdSet.has, hdiv, hmod]

lemma ids_eq (hs : s.Valid) {c : Chunk} (h : s.find cid = some c) :
    idsOf (cid, c) = (((List.range (2 ^ idShift)).filter fun i =>
      s.has (cid * 2 ^ idShift + i)).map (cid * 2 ^ idShift + ·)).map Int64.ofNat := by
  unfold IdSet.idsOf
  rw [offsets_eq (hs.chunk cid c h), List.map_map, Nat.shiftLeft_eq]
  have hfilter : (List.range (2 ^ idShift)).filter c.contains =
      (List.range (2 ^ idShift)).filter fun i => s.has (cid * 2 ^ idShift + i) := by
    apply List.filter_congr
    intro i hi
    rw [has_block s cid (List.mem_range.mp hi), h]
    rfl
  rw [hfilter]
  rfl

lemma has_absent (h : s.find cid = none) :
    ((range (2 ^ idShift)).filter fun i => s.has (cid * 2 ^ idShift + i)) = [] := by
  rw [filter_eq_nil_iff]
  intro i hi
  rw [has_block s cid (mem_range.mp hi), h]
  exact Bool.false_ne_true

lemma flatMap_filterMap {α β γ : Type} (g : α → Option β) (f : β → List γ) (l : List α) :
    (l.filterMap g).flatMap f = l.flatMap fun a => ((g a).map f).getD [] := by
  induction l with
  | nil => rfl
  | cons a l ih =>
    rw [flatMap_cons, ← ih]
    cases h : g a with
    | none => rw [filterMap_cons_none h, map_none, getD_none, nil_append]
    | some b =>
      rw [filterMap_cons_some h, flatMap_cons, map_some, getD_some]

lemma chunks_bits : 2 ^ 38 * 2 ^ idShift = 2 ^ 63 := by decide

lemma iter_eq (hs : s.Valid) : s.iter = ((range (2 ^ 63)).filter s.has).map Int64.ofNat := by
  change (entries s).flatMap idsOf = _
  rw [entries_eq hs, ← chunks_bits, filter_range_mul, map_flatMap, flatMap_filterMap]
  apply flatMap_congr
  intro cid _
  cases hfind : s.find cid with
  | none =>
    rw [has_absent hfind]
    rfl
  | some c => exact ids_eq hs hfind

lemma iter_ids (hs : s.Valid) : id ∈ s.iter ↔ 0 ≤ id.toInt ∧ s.has id.toInt.toNat = true := by
  rw [iter_eq hs, List.mem_map]
  constructor
  · rintro ⟨n, hn, rfl⟩
    obtain ⟨hlt, hhas⟩ := mem_filter.mp hn
    rw [toInt_ofNat (mem_range.mp hlt)]
    exact ⟨by omega, by simpa using hhas⟩
  · rintro ⟨hnn, hhas⟩
    refine ⟨id.toInt.toNat, ?_, ofNat_toNat hnn⟩
    rw [mem_filter, mem_range]
    exact ⟨toNat_lt id, hhas⟩

lemma iter_ascending (hs : s.Valid) : s.iter.Pairwise fun a b => a.toInt < b.toInt := by
  rw [iter_eq hs, pairwise_map]
  refine List.Pairwise.imp_of_mem ?_ (pairwise_filter_range s.has (2 ^ 63))
  intro a b ha hb hab
  rw [toInt_ofNat (mem_range.mp (mem_filter.mp ha).1),
    toInt_ofNat (mem_range.mp (mem_filter.mp hb).1)]
  omega

lemma len_iter (s : IdSet) : s.len = s.iter.length := by
  have hdirect : s.chunks.filterMap id = (s.directEntries 0).map (·.2) := by
    unfold IdSet.directEntries
    rw [List.drop_zero, List.map_filterMap]
    have hfst : s.chunks = s.chunks.zipIdx.map (·.1) := by
      rw [List.zipIdx_map_fst]
    conv_lhs => rw [hfst, List.filterMap_map]
    congr 1
    funext e
    obtain ⟨slot, i⟩ := e
    cases slot <;> rfl
  have hids : ∀ e : Nat × Chunk, (idsOf e).length = e.2.count := by
    intro e
    rw [IdSet.idsOf, List.length_map, length_offsets]
  rw [IdSet.len, IdSet.iter, hdirect, ← List.map_append, List.map_map, List.length_flatMap]
  congr 1
  apply List.map_congr_left
  intro e _
  exact (hids e).symm

/-- Chunks wholly below the start hold no id at or above it. -/
theorem ids_below (hs : s.Valid) (he : s.find e.1 = some e.2) {start : Int64}
    (hlt : e.1 < start.toInt.toNat / 2 ^ idShift) :
    ((idsOf e).filter fun id => decide (start.toInt ≤ id.toInt)) = [] := by
  rw [List.filter_eq_nil_iff]
  intro id hid
  rw [ids_eq hs he, List.mem_map] at hid
  obtain ⟨n, hn, rfl⟩ := hid
  obtain ⟨i, hi, rfl⟩ := List.mem_map.mp hn
  have hi' := List.mem_range.mp (List.mem_filter.mp hi).1
  have hstart := toNat_lt start
  have hbound : e.1 * 2 ^ idShift + i < start.toInt.toNat := by
    have h1 : (e.1 + 1) * 2 ^ idShift ≤ start.toInt.toNat / 2 ^ idShift * 2 ^ idShift :=
      Nat.mul_le_mul_right _ hlt
    have h2 : start.toInt.toNat / 2 ^ idShift * 2 ^ idShift ≤ start.toInt.toNat :=
      Nat.div_mul_le_self _ _
    rw [Nat.succ_mul] at h1
    omega
  rw [toInt_ofNat (by omega)]
  simp only [decide_eq_true_eq]
  omega

lemma filter_flatMap_skip {l : List (Nat × Chunk)} (hs : s.Valid)
    (hl : ∀ e ∈ l, s.find e.1 = some e.2) (start : Int64) :
    (l.flatMap idsOf).filter (fun id => decide (start.toInt ≤ id.toInt)) =
      ((l.filter fun e => decide (start.toInt.toNat / 2 ^ idShift ≤ e.1)).flatMap idsOf).filter
        (fun id => decide (start.toInt ≤ id.toInt)) := by
  induction l with
  | nil => rfl
  | cons e l ih =>
    have ih' := ih fun e' he' => hl e' (mem_cons_of_mem _ he')
    rw [flatMap_cons, filter_append, ih']
    by_cases hle : start.toInt.toNat / 2 ^ idShift ≤ e.1
    · rw [filter_cons_of_pos (by simpa using hle), flatMap_cons, filter_append]
    · rw [filter_cons_of_neg (by simpa using hle), ids_below hs (hl e (by simp)) (by omega),
        nil_append]

lemma iterFrom_eq (hs : s.Valid) (start : Int64) :
    s.iterFrom start = s.iter.filter fun id => decide (start.toInt ≤ id.toInt) := by
  have hmem : ∀ e ∈ entries s, s.find e.1 = some e.2 := fun e he => (mem_entries hs).mp he
  have hskip : s.directEntries (start.toInt.toNat >>> idShift) ++
      (s.overflow.toList.filter fun e =>
        decide (max (start.toInt.toNat >>> idShift) directChunks ≤ e.1)) =
      (entries s).filter fun e => decide (start.toInt.toNat / 2 ^ idShift ≤ e.1) := by
    rw [Nat.shiftRight_eq_div_pow]
    apply List.Pairwise.eq_of_mem_iff (r := Before)
    · rw [pairwise_append]
      refine ⟨pairwise_directEntries s _, (pairwise_overflow s).filter _, ?_⟩
      intro a ha b hb
      have h1 := ((mem_direct hs).mp ha).2.1
      have h2 := ((mem_overflow hs).mp (mem_filter.mp hb).1).1
      exact Nat.lt_of_lt_of_le h1 h2
    · exact (pairwise_entries hs).filter _
    · intro e
      rw [mem_append, mem_filter, mem_filter, mem_direct hs, mem_overflow hs,
        mem_entries hs, decide_eq_true_eq, decide_eq_true_eq]
      constructor
      · rintro (⟨hskip, -, h⟩ | ⟨⟨-, h⟩, hmax⟩)
        · exact ⟨h, hskip⟩
        · exact ⟨h, by omega⟩
      · rintro ⟨h, hskip⟩
        by_cases hlt : e.1 < directChunks
        · exact .inl ⟨hskip, hlt, h⟩
        · exact .inr ⟨⟨by omega, h⟩, by omega⟩
  rw [IdSet.iterFrom, hskip]
  exact (filter_flatMap_skip hs hmem start).symm

lemma anyClipped_iff {minCid minOff maxCid maxOff : Nat} {c : Chunk} (hc : c.Valid)
    (hmax : maxOff < 2 ^ idShift) (hmin : minOff < 2 ^ idShift)
    (hle : minCid * 2 ^ idShift + minOff ≤ maxCid * 2 ^ idShift + maxOff)
    (hlo : minCid ≤ cid) (hhi : cid ≤ maxCid) :
    anyClipped minCid minOff maxCid maxOff cid c = true ↔
      ∃ off, off < 2 ^ idShift ∧ minCid * 2 ^ idShift + minOff ≤ cid * 2 ^ idShift + off ∧
        cid * 2 ^ idShift + off ≤ maxCid * 2 ^ idShift + maxOff ∧ c.contains off = true := by
  have hK : offsetMask + 1 = 2 ^ idShift := by decide
  -- The clipped bounds are the query's where the chunk is at its ends.
  have hcross : ∀ a b : Nat, a < b → a * 2 ^ idShift + 2 ^ idShift ≤ b * 2 ^ idShift := by
    intro a b hab
    have := Nat.mul_le_mul_right (2 ^ idShift) hab
    rw [Nat.succ_mul] at this
    exact this
  unfold IdSet.anyClipped IdSet.clip
  dsimp only
  generalize hk : 2 ^ idShift = K at *
  have hclip : (if cid = minCid then minOff else 0) ≤ (if cid = maxCid then maxOff else offsetMask) := by
    split <;> split <;> (try omega)
    next h1 h2 =>
      subst h1 h2
      omega
  rw [anyIn_iff hc hclip]
  constructor
  · rintro ⟨x, h1, h2, h3⟩
    refine ⟨x, ?_, ?_, ?_, h3⟩
    · split at h2 <;> omega
    · split at h1
      · next h => rw [← h]; omega
      · next h =>
        have := hcross minCid cid (by omega)
        omega
    · split at h2
      · next h => rw [← h]; omega
      · next h =>
        have := hcross cid maxCid (by omega)
        omega
  · rintro ⟨x, hx, h1, h2, h3⟩
    refine ⟨x, ?_, ?_, h3⟩
    · split
      · next h => rw [h] at h1; omega
      · exact Nat.zero_le _
    · split
      · next h => rw [h] at h2; omega
      · omega

/-- The loop over the directory's chunks. -/
theorem anyDirect_iff (hs : s.Valid) {minCid maxCid : Nat} (p : Nat → Chunk → Bool) :
    (if minCid < directChunks ∧ s.chunks ≠ [] then
      (range (min maxCid (s.chunks.length - 1) + 1 - minCid)).any fun i =>
        match s.chunks[minCid + i]?.join with
        | some c => p (minCid + i) c
        | none => false
      else false) = true ↔
    ∃ cid c, minCid ≤ cid ∧ cid ≤ maxCid ∧ cid < directChunks ∧ s.find cid = some c ∧
      p cid c = true := by
  constructor
  · intro h
    split at h
    · rw [List.any_eq_true] at h
      obtain ⟨i, hi, hp⟩ := h
      rw [mem_range] at hi
      cases hget : s.chunks[minCid + i]?.join with
      | none => simp [hget] at hp
      | some c =>
        rw [hget] at hp
        have hmem : (minCid + i, c) ∈ s.directEntries 0 :=
          mem_directEntries.mpr ⟨Nat.zero_le _, hget⟩
        obtain ⟨-, hlt, hfind⟩ := (mem_direct hs).mp hmem
        exact ⟨minCid + i, c, Nat.le_add_right _ _, by omega, hlt, hfind, hp⟩
    · cases h
  · rintro ⟨cid, c, hlo, hhi, hlt, hfind, hp⟩
    rw [IdSet.find, if_pos hlt] at hfind
    have hin : cid < s.chunks.length := by
      by_contra hge
      rw [getElem?_eq_none (by omega)] at hfind
      cases hfind
    have hne : s.chunks ≠ [] := ne_nil_of_length_pos (by omega)
    rw [if_pos ⟨by omega, hne⟩, List.any_eq_true]
    have hback : minCid + (cid - minCid) = cid := by omega
    refine ⟨cid - minCid, ?_, ?_⟩
    · rw [mem_range]
      omega
    · rw [hback, hfind]
      exact hp

lemma anyOverflow_iff (hs : s.Valid) {minCid maxCid : Nat} (p : Nat → Chunk → Bool) :
    (if directChunks ≤ maxCid then
      (s.overflow.toList.filter fun e => max minCid directChunks ≤ e.1 ∧ e.1 ≤ maxCid).any
        fun e => p e.1 e.2
      else false) = true ↔
    ∃ cid c, minCid ≤ cid ∧ cid ≤ maxCid ∧ directChunks ≤ cid ∧ s.find cid = some c ∧
      p cid c = true := by
  constructor
  · intro h
    split at h
    · rw [List.any_eq_true] at h
      obtain ⟨⟨cid, c⟩, hmem, hp⟩ := h
      rw [mem_filter, mem_overflow hs, decide_eq_true_eq] at hmem
      obtain ⟨⟨hge, hfind⟩, hlo, hhi⟩ := hmem
      exact ⟨cid, c, by omega, hhi, hge, hfind, hp⟩
    · cases h
  · rintro ⟨cid, c, hlo, hhi, hge, hfind, hp⟩
    rw [if_pos (by omega), List.any_eq_true]
    refine ⟨(cid, c), ?_, hp⟩
    rw [mem_filter, mem_overflow hs, decide_eq_true_eq]
    exact ⟨⟨hge, hfind⟩, by omega, hhi⟩

lemma anyInRange_iff (hs : s.Valid) (a b : Int64) :
    s.anyInRange a b = true ↔ ∃ n : Nat, s.has n = true ∧ a.toInt ≤ n ∧ (n : Int) ≤ b.toInt := by
  unfold IdSet.anyInRange
  by_cases hguard : b.toInt < a.toInt ∨ b.toInt < 0
  · rw [if_pos hguard]
    constructor
    · intro h
      cases h
    · rintro ⟨n, -, h1, h2⟩
      omega
  rw [if_neg hguard]
  have hb : 0 ≤ b.toInt := by omega
  -- A negative lower bound is the same as zero.
  obtain ⟨lo, hlo, hlow, hsplit⟩ : ∃ lo : Nat, lo ≤ b.toInt.toNat ∧
      (∀ n : Nat, a.toInt ≤ n ↔ lo ≤ n) ∧
      split (if a.toInt < 0 then 0 else a) = some (lo / 2 ^ idShift, lo % 2 ^ idShift) := by
    by_cases ha : a.toInt < 0
    · refine ⟨0, Nat.zero_le _, ?_, ?_⟩
      · intro n
        omega
      · rw [if_pos ha]
        decide
    · refine ⟨a.toInt.toNat, by omega, ?_, ?_⟩
      · intro n
        omega
      · rw [if_neg ha, split_some (by omega)]
  rw [hsplit, split_some hb]
  dsimp only
  rw [Bool.or_eq_true]
  refine (or_congr (anyDirect_iff hs (anyClipped _ _ _ _)) (anyOverflow_iff hs
    (anyClipped _ _ _ _))).trans ?_
  have hclip : ∀ cid c, s.find cid = some c → lo / 2 ^ idShift ≤ cid →
      cid ≤ b.toInt.toNat / 2 ^ idShift →
      (anyClipped (lo / 2 ^ idShift) (lo % 2 ^ idShift) (b.toInt.toNat / 2 ^ idShift)
        (b.toInt.toNat % 2 ^ idShift) cid c = true ↔
      ∃ off, off < 2 ^ idShift ∧ lo ≤ cid * 2 ^ idShift + off ∧
        cid * 2 ^ idShift + off ≤ b.toInt.toNat ∧ c.contains off = true) := by
    intro cid c hfind h1 h2
    have hlo' := Nat.div_add_mod' lo (2 ^ idShift)
    have hhi' := Nat.div_add_mod' b.toInt.toNat (2 ^ idShift)
    rw [anyClipped_iff (hs.chunk cid c hfind) (off_lt _) (off_lt _) (by rw [hlo', hhi']; exact hlo)
      h1 h2, hlo', hhi']
  constructor
  · intro h
    obtain ⟨cid, c, h1, h2, hfind, hp⟩ : ∃ cid c, lo / 2 ^ idShift ≤ cid ∧
        cid ≤ b.toInt.toNat / 2 ^ idShift ∧ s.find cid = some c ∧
        anyClipped (lo / 2 ^ idShift) (lo % 2 ^ idShift) (b.toInt.toNat / 2 ^ idShift)
          (b.toInt.toNat % 2 ^ idShift) cid c = true := by
      rcases h with ⟨cid, c, h1, h2, -, hfind, hp⟩ | ⟨cid, c, h1, h2, -, hfind, hp⟩
      · exact ⟨cid, c, h1, h2, hfind, hp⟩
      · exact ⟨cid, c, h1, h2, hfind, hp⟩
    obtain ⟨off, hoff, hge, hle, hc⟩ := (hclip cid c hfind h1 h2).mp hp
    refine ⟨cid * 2 ^ idShift + off, ?_, (hlow _).mpr hge, by omega⟩
    rw [has_block s cid hoff, hfind]
    exact hc
  · rintro ⟨n, hhas, h1, h2⟩
    have hge := (hlow n).mp h1
    have hle : n ≤ b.toInt.toNat := by omega
    cases hfind : s.find (n / 2 ^ idShift) with
    | none =>
      rw [IdSet.has, hfind] at hhas
      cases hhas
    | some c =>
      have hn := Nat.div_add_mod' n (2 ^ idShift)
      have hcid1 : lo / 2 ^ idShift ≤ n / 2 ^ idShift := Nat.div_le_div_right hge
      have hcid2 : n / 2 ^ idShift ≤ b.toInt.toNat / 2 ^ idShift := Nat.div_le_div_right hle
      have hp := (hclip _ c hfind hcid1 hcid2).mpr
        ⟨n % 2 ^ idShift, off_lt n, by omega, by omega, by
          rw [IdSet.has, hfind] at hhas
          exact hhas⟩
      by_cases hdir : n / 2 ^ idShift < directChunks
      · exact .inl ⟨_, c, hcid1, hcid2, hdir, hfind, hp⟩
      · exact .inr ⟨_, c, hcid1, hcid2, by omega, hfind, hp⟩

end IdSets
