import Std.Data.TreeMap.Lemmas
import Pbfhogg.IdSet.Chunk

/-!
# The id set over its two directories

`IdSet` of `idset.rs`: the chunks below `directChunks` in a vector indexed by chunk id, all others
in an ordered map. `find` is the chunk of a chunk id wherever it lives and `has` whether a number is
a member; all else is brought to these two.
-/

namespace IdSets

open List Option

structure IdSet where
  chunks : List (Option Chunk) := []
  overflow : Std.TreeMap Nat Chunk := {}

/-- Where a present chunk lives. -/
inductive Slot where
  | direct (i : Nat)
  | overflow

namespace IdSet

variable (s : IdSet)

def chunk (cid : Nat) : Option (Slot × Chunk) :=
  if cid < directChunks then s.chunks[cid]?.join.map fun c => (.direct cid, c)
  else s.overflow[cid]?.map fun c => (.overflow, c)

/-- The directory grown to `n` entries; it never shrinks. -/
def resize (chunks : List (Option Chunk)) (n : Nat) : List (Option Chunk) :=
  chunks ++ replicate (n - chunks.length) none

/-- The chunk of `cid` changed, in the directory it belongs to. -/
def alterChunk (cid : Nat) (f : Option Chunk → Chunk) : IdSet :=
  if cid < directChunks then
    let chunks := resize s.chunks (cid + 1)
    { s with chunks := chunks.set cid (some (f chunks[cid]?.join)) }
  else { s with overflow := s.overflow.alter cid fun c => some (f c) }

/-- `chunk_entry`: a chunk that is not there starts as an empty array. -/
def entry (c : Option Chunk) : Chunk := c.getD Chunk.newSparse

def setIfNew (id : Int64) : Bool × IdSet :=
  match split id with
  | none => (false, s)
  | some (cid, off) =>
    ((entry ((s.chunk cid).map (·.2))).insert off |>.1,
      s.alterChunk cid fun c => ((entry c).insert off).2)

def set (s : IdSet) (id : Int64) : IdSet :=
  match split id with
  | none => s
  | some (cid, off) =>
    match s.chunks[cid]? with
    | some (some (.dense words)) =>
      -- An existing bit array of the directory: a plain OR.
      let word := words (off >>> 6) ||| 1#64 <<< (off &&& 63)
      { s with chunks := s.chunks.set cid (some (.dense (Function.update words (off >>> 6) word))) }
    | _ => s.alterChunk cid fun c => ((entry c).insert off).2

/-- A pre-allocated chunk is a bit array, with what it held before. -/
def allocate : Option Chunk → Chunk
  | some c => c.promote
  | none => .dense newDense

def preAllocate (maxId : Int64) : IdSet :=
  match split maxId with
  | none => s
  | some (maxCid, _) =>
    let directEnd := min maxCid (directChunks - 1)
    let chunks := resize s.chunks (directEnd + 1)
    { chunks := chunks.mapIdx fun i slot => if i ≤ directEnd then some (allocate slot) else slot
      overflow := (range (maxCid + 1 - directChunks)).foldl
        (fun overflow i => overflow.alter (directChunks + i) fun c => some (allocate c)) s.overflow }

variable (union : Chunk → Chunk → Chunk)

/-- The union with a chunk that may be absent: the source is taken whole. -/
def unite (src : Chunk) : Option Chunk → Chunk
  | some dst => union dst src
  | none => src

def mergeSlots (chunks src : List (Option Chunk)) :
    List (Option Chunk) :=
  (resize chunks src.length).mapIdx fun i slot =>
    match src[i]?.join with
    | some c => some (unite union c slot)
    | none => slot

def mergeBy (s other : IdSet) : IdSet where
  chunks := mergeSlots union s.chunks other.chunks
  overflow := other.overflow.toList.foldl
    (fun overflow e => overflow.alter e.1 fun c => some (unite union e.2 c)) s.overflow

def mergeFrom (s other : IdSet) : IdSet := mergeBy Chunk.unionRef s other

def merge (s other : IdSet) : IdSet := mergeBy Chunk.unionOwned s other

def get (id : Int64) : Bool :=
  match split id with
  | none => false
  | some (cid, off) =>
    match s.chunk cid with
    | some (_, c) => c.contains off
    | none => false

variable (minCid minOff maxCid maxOff cid : Nat)

/-- The query clipped to the offsets of one chunk. -/
def clip : Nat × Nat :=
  (if cid = minCid then minOff else 0, if cid = maxCid then maxOff else offsetMask)

def anyClipped (c : Chunk) : Bool :=
  c.anyIn (clip minCid minOff maxCid maxOff cid).1 (clip minCid minOff maxCid maxOff cid).2

def anyInRange (minId maxId : Int64) : Bool :=
  if maxId.toInt < minId.toInt ∨ maxId.toInt < 0 then false
  else
    match split (if minId.toInt < 0 then 0 else minId), split maxId with
    | some (minCid, minOff), some (maxCid, maxOff) =>
      let direct :=
        if minCid < directChunks ∧ s.chunks ≠ [] then
          let last := min maxCid (s.chunks.length - 1)
          (range (last + 1 - minCid)).any fun i =>
            match s.chunks[minCid + i]?.join with
            | some c => anyClipped minCid minOff maxCid maxOff (minCid + i) c
            | none => false
        else false
      let above :=
        if directChunks ≤ maxCid then
          (s.overflow.toList.filter fun e => max minCid directChunks ≤ e.1 ∧ e.1 ≤ maxCid).any
            fun e => anyClipped minCid minOff maxCid maxOff e.1 e.2
        else false
      direct || above
    | _, _ => false

def hasAny : Bool := s.chunks.any isSome || !s.overflow.isEmpty

/-- The directory's entries from `skip` on. -/
def directEntries (skip : Nat) : List (Nat × Chunk) :=
  (s.chunks.zipIdx.drop skip).filterMap fun e => e.1.map fun c => (e.2, c)

def idsOf (e : Nat × Chunk) : List Int64 :=
  e.2.offsets.map fun off => Int64.ofNat (e.1 <<< idShift + off)

def iter : List Int64 :=
  (s.directEntries 0 ++ s.overflow.toList).flatMap idsOf

def iterFrom (start : Int64) : List Int64 :=
  let firstCid := start.toInt.toNat >>> idShift
  let overflow := s.overflow.toList.filter fun e => max firstCid directChunks ≤ e.1
  ((s.directEntries firstCid ++ overflow).flatMap idsOf).filter fun id => start.toInt ≤ id.toInt

def len : Nat :=
  ((s.chunks.filterMap id ++ s.overflow.toList.map (·.2)).map Chunk.count).sum

/-- The chunk of a chunk id. -/
def find (cid : Nat) : Option Chunk :=
  if cid < directChunks then s.chunks[cid]?.join else s.overflow[cid]?

def chunkHas (c : Option Chunk) (off : Nat) : Bool :=
  match c with
  | some c => c.contains off
  | none => false

/-- Whether a number is a member. -/
def has (n : Nat) : Bool := chunkHas (s.find (n / 2 ^ idShift)) (n % 2 ^ idShift)

/-- Every chunk is valid and in its directory, and stands for ids an `i64` can hold. -/
structure Valid (s : IdSet) : Prop where
  direct : s.chunks.length ≤ directChunks
  overflow : ∀ cid c, s.overflow[cid]? = some c → directChunks ≤ cid ∧ cid < 2 ^ 38
  chunk : ∀ cid c, s.find cid = some c → c.Valid

end IdSet

open IdSet

variable {s other : IdSet} {cid off n : Nat} {id : Int64}

lemma split_none (h : id.toInt < 0) : split id = none := if_pos h

lemma split_some (h : 0 ≤ id.toInt) :
    split id = some (id.toInt.toNat / 2 ^ idShift, id.toInt.toNat % 2 ^ idShift) := by
  rw [split, if_neg (by omega), Nat.shiftRight_eq_div_pow, offsetMask,
    Nat.and_two_pow_sub_one_eq_mod]

lemma toNat_lt (id : Int64) : id.toInt.toNat < 2 ^ 63 := by
  have := Int64.toInt_lt id
  omega

lemma toInt_ofNat (h : n < 2 ^ 63) : (Int64.ofNat n).toInt = n := Int64.toInt_ofNat_of_lt h

lemma ofNat_toNat (h : 0 ≤ id.toInt) : Int64.ofNat id.toInt.toNat = id := by
  apply Int64.toInt.inj
  rw [toInt_ofNat (toNat_lt id)]
  omega

lemma cid_lt (h : n < 2 ^ 63) : n / 2 ^ idShift < 2 ^ 38 := by
  change n / 33554432 < 274877906944
  change n < 9223372036854775808 at h
  omega

lemma off_lt (n : Nat) : n % 2 ^ idShift < 2 ^ idShift := Nat.mod_lt _ (by decide)

lemma chunk_eq (s : IdSet) (cid : Nat) : (s.chunk cid).map (·.2) = s.find cid := by
  unfold IdSet.chunk IdSet.find
  split
  · rw [Option.map_map]
    exact Option.map_id'
  · rw [Option.map_map]
    exact Option.map_id'

lemma length_resize (chunks : List (Option Chunk)) (n : Nat) :
    (resize chunks n).length = max chunks.length n := by
  rw [resize, length_append, length_replicate]
  omega

lemma getElem_resize (chunks : List (Option Chunk)) (n i : Nat) :
    (resize chunks n)[i]?.join = chunks[i]?.join := by
  unfold resize
  by_cases hi : i < chunks.length
  · rw [getElem?_append_left hi]
  · rw [getElem?_append_right (by omega), getElem?_eq_none (by omega : chunks.length ≤ i)]
    rw [getElem?_replicate]
    split <;> rfl

lemma find_alterChunk (s : IdSet) (cid : Nat) (f : Option Chunk → Chunk) (k : Nat) :
    (s.alterChunk cid f).find k = if k = cid then some (f (s.find cid)) else s.find k := by
  unfold IdSet.alterChunk
  by_cases hdir : cid < directChunks
  · rw [if_pos hdir]
    simp only [IdSet.find, getElem_resize]
    by_cases hk : k = cid
    · subst hk
      rw [if_pos hdir, if_pos rfl, if_pos hdir, getElem?_set_self (by
        rw [length_resize]
        omega)]
      rfl
    · rw [if_neg hk, getElem?_set_ne (Ne.symm hk), getElem_resize]
  · rw [if_neg hdir]
    simp only [IdSet.find]
    by_cases hk : k = cid
    · subst hk
      rw [if_neg hdir, if_pos rfl, if_neg hdir, Std.TreeMap.getElem?_alter_self]
    · have hne : ¬ compare cid k = .eq := by
        rw [Nat.compare_eq_eq]
        exact fun h => hk h.symm
      rw [if_neg hk, Std.TreeMap.getElem?_alter, if_neg hne]

lemma valid_alterChunk {f : Option Chunk → Chunk} (hs : s.Valid) (hcid : cid < 2 ^ 38)
    (hf : (f (s.find cid)).Valid) : (s.alterChunk cid f).Valid := by
  refine ⟨?_, ?_, ?_⟩
  · unfold IdSet.alterChunk
    split
    · rw [length_set, length_resize]
      have := hs.direct
      omega
    · exact hs.direct
  · intro k c hget
    unfold IdSet.alterChunk at hget
    split at hget
    · exact hs.overflow k c hget
    · next hdir =>
      rw [Std.TreeMap.getElem?_alter] at hget
      split at hget
      · next heq =>
        rw [Nat.compare_eq_eq] at heq
        omega
      · exact hs.overflow k c hget
  · intro k c hget
    rw [find_alterChunk] at hget
    split at hget
    · cases hget
      exact hf
    · exact hs.chunk k c hget

/-- A member of the changed set lies in the changed chunk or in the old set. -/
theorem has_alterChunk (s : IdSet) (cid : Nat) (f : Option Chunk → Chunk) (n : Nat) :
    (s.alterChunk cid f).has n =
      if n / 2 ^ idShift = cid then (f (s.find cid)).contains (n % 2 ^ idShift) else s.has n := by
  unfold IdSet.has
  rw [find_alterChunk]
  split <;> rfl

lemma chunkHas_entry (c : Option Chunk) (off : Nat) : (entry c).contains off = chunkHas c off := by
  cases c with
  | none => exact contains_newSparse off
  | some c => rfl

lemma valid_entry (hs : s.Valid) (cid : Nat) : (entry (s.find cid)).Valid := by
  cases hfind : s.find cid with
  | none => exact valid_newSparse
  | some c => exact hs.chunk cid c hfind

lemma setIfNew_negative (s : IdSet) (h : id.toInt < 0) : s.setIfNew id = (false, s) := by
  rw [IdSet.setIfNew, split_none h]

lemma setIfNew_spec (hs : s.Valid) (h : 0 ≤ id.toInt) : (s.setIfNew id).1 = !s.has id.toInt.toNat ∧
      (∀ n, (s.setIfNew id).2.has n = (s.has n || decide (n = id.toInt.toNat))) ∧
      (s.setIfNew id).2.Valid := by
  have hins := insert_spec (valid_entry hs (id.toInt.toNat / 2 ^ idShift))
    (off_lt id.toInt.toNat)
  rw [IdSet.setIfNew, split_some h]
  refine ⟨?_, ?_, ?_⟩
  · change ((entry _).insert _).1 = _
    rw [chunk_eq, hins.1, chunkHas_entry]
    rfl
  · intro n
    change (IdSet.alterChunk s _ _).has n = _
    rw [has_alterChunk]
    by_cases hcid : n / 2 ^ idShift = id.toInt.toNat / 2 ^ idShift
    · rw [if_pos hcid, hins.2.1, chunkHas_entry, IdSet.has, hcid]
      congr 1
      rw [decide_eq_decide]
      constructor
      · intro hoff
        rw [← Nat.div_add_mod n (2 ^ idShift), hcid, hoff, Nat.div_add_mod]
      · intro hn
        rw [hn]
    · have hne : n ≠ id.toInt.toNat := fun hn => hcid (by rw [hn])
      rw [if_neg hcid, decide_eq_false hne, Bool.or_false]
  · exact valid_alterChunk hs (cid_lt (toNat_lt id)) hins.2.2

/-- The fast path of `set` does what the insertion does. -/
theorem set_eq (hs : s.Valid) (id : Int64) : s.set id = (s.setIfNew id).2 := by
  unfold IdSet.set IdSet.setIfNew
  cases hsplit : split id with
  | none => rfl
  | some e =>
    obtain ⟨cid, off⟩ := e
    dsimp only
    split
    · next words hget =>
      obtain ⟨hlt, -⟩ := List.getElem?_eq_some_iff.mp hget
      have hdir : cid < directChunks := Nat.lt_of_lt_of_le hlt hs.direct
      have hzero : cid + 1 - s.chunks.length = 0 := by omega
      have hresize : resize s.chunks (cid + 1) = s.chunks := by
        rw [resize, hzero, replicate_zero, append_nil]
      rw [IdSet.alterChunk, if_pos hdir, hresize]
      dsimp only
      rw [hget]
      rfl
    · rfl

section Alter

variable {ι : Type} {key : ι → Nat} {f : ι → Option Chunk → Chunk} {l : List ι} {k : Nat}

lemma getElem_foldl_alter_ne (t : Std.TreeMap Nat Chunk) (hne : ∀ e ∈ l, key e ≠ k) :
    (l.foldl (fun t e => t.alter (key e) fun c => some (f e c)) t)[k]? = t[k]? := by
  induction l generalizing t with
  | nil => rfl
  | cons e l ih =>
    have hcmp : ¬ compare (key e) k = .eq := by
      rw [Nat.compare_eq_eq]
      exact hne e (by simp)
    rw [foldl_cons, ih _ fun e' he' => hne e' (mem_cons_of_mem _ he'),
      Std.TreeMap.getElem?_alter, if_neg hcmp]

/-- A key of the result is one of the changed ones or an old one. -/
theorem foldl_alter_cases {t : Std.TreeMap Nat Chunk} {c : Chunk}
    (h : (l.foldl (fun t e => t.alter (key e) fun c => some (f e c)) t)[k]? = some c) :
    (∃ e ∈ l, key e = k) ∨ t[k]? = some c := by
  by_cases hkey : ∃ e ∈ l, key e = k
  · exact .inl hkey
  · rw [getElem_foldl_alter_ne t fun e he heq => hkey ⟨e, he, heq⟩] at h
    exact .inr h

lemma getElem_foldl_alter (t : Std.TreeMap Nat Chunk)
    (hdistinct : l.Pairwise fun a b => key a ≠ key b) {e : ι} (he : e ∈ l) :
    (l.foldl (fun t e => t.alter (key e) fun c => some (f e c)) t)[key e]? =
      some (f e t[key e]?) := by
  induction l generalizing t with
  | nil => cases he
  | cons e' l ih =>
    obtain ⟨hfirst, hrest⟩ := pairwise_cons.mp hdistinct
    rw [foldl_cons]
    rcases mem_cons.mp he with rfl | he
    · rw [getElem_foldl_alter_ne _ fun e' he' => (hfirst e' he').symm,
        Std.TreeMap.getElem?_alter_self]
    · have hcmp : ¬ compare (key e') (key e) = .eq := by
        rw [Nat.compare_eq_eq]
        exact hfirst e he
      rw [ih _ hrest he, Std.TreeMap.getElem?_alter, if_neg hcmp]

end Alter

lemma chunkHas_allocate {c : Option Chunk} (hc : ∀ c', c = some c' → c'.Valid) (off : Nat) :
    (allocate c).contains off = chunkHas c off := by
  cases c with
  | none => exact contains_newDense off
  | some c => exact contains_promote (hc c rfl) off

lemma valid_allocate (c : Option Chunk) : (allocate c).Valid := by
  cases c with
  | none => trivial
  | some c => exact valid_promote c

lemma length_preAllocate_le (hs : s.Valid) (m : Nat) :
    (resize s.chunks (min m (directChunks - 1) + 1)).length ≤ directChunks := by
  have hpos : 0 < directChunks := by decide
  have := hs.direct
  rw [length_resize]
  omega

/-- Pre-allocation turns chunks into bit arrays and keeps every member. -/
theorem find_preAllocate (s : IdSet) {maxId : Int64} (h : 0 ≤ maxId.toInt) (cid : Nat) :
    (s.preAllocate maxId).find cid =
      if cid ≤ maxId.toInt.toNat / 2 ^ idShift then some (allocate (s.find cid))
      else s.find cid := by
  rw [IdSet.preAllocate, split_some h]
  generalize maxId.toInt.toNat / 2 ^ idShift = m
  have hpos : 0 < directChunks := by decide
  simp only [IdSet.find]
  by_cases hdir : cid < directChunks
  · rw [if_pos hdir, if_pos hdir, getElem?_mapIdx]
    have hlen := length_resize s.chunks (min m (directChunks - 1) + 1)
    have hjoin := getElem_resize s.chunks (min m (directChunks - 1) + 1) cid
    by_cases hcid : cid ≤ m
    · have hend : cid ≤ min m (directChunks - 1) := by omega
      obtain ⟨slot, hslot⟩ : ∃ slot,
          (resize s.chunks (min m (directChunks - 1) + 1))[cid]? = some slot :=
        ⟨_, getElem?_eq_getElem (by omega)⟩
      rw [hslot] at hjoin ⊢
      rw [if_pos hcid, ← hjoin]
      simp [hend]
    · have hend : ¬ cid ≤ min m (directChunks - 1) := by omega
      rw [if_neg hcid, ← hjoin]
      simp [hend]
  · rw [if_neg hdir, if_neg hdir]
    by_cases hcid : cid ≤ m
    · have hmem : cid - directChunks ∈ range (m + 1 - directChunks) := by
        rw [mem_range]
        omega
      have hkey : directChunks + (cid - directChunks) = cid := by omega
      have hfold := @getElem_foldl_alter Nat (directChunks + ·) (fun _ => allocate)
        (range (m + 1 - directChunks)) s.overflow
        (List.Pairwise.imp (fun h => by omega) pairwise_lt_range) _ hmem
      rw [hkey] at hfold
      rw [if_pos hcid]
      exact hfold
    · rw [if_neg hcid]
      apply getElem_foldl_alter_ne
      intro i hi
      rw [mem_range] at hi
      omega

lemma preAllocate_negative (s : IdSet) {maxId : Int64} (h : maxId.toInt < 0) :
    s.preAllocate maxId = s := by
  rw [IdSet.preAllocate, split_none h]

lemma has_preAllocate (hs : s.Valid) (maxId : Int64) (n : Nat) :
    (s.preAllocate maxId).has n = s.has n := by
  by_cases h : maxId.toInt < 0
  · rw [preAllocate_negative s h]
  · unfold IdSet.has
    rw [find_preAllocate s (by omega)]
    split
    · exact chunkHas_allocate (fun c hc => hs.chunk _ c hc) _
    · rfl

lemma valid_preAllocate (hs : s.Valid) (maxId : Int64) : (s.preAllocate maxId).Valid := by
  by_cases h : maxId.toInt < 0
  · rw [preAllocate_negative s h]
    exact hs
  · have hnn : 0 ≤ maxId.toInt := by omega
    have hm : maxId.toInt.toNat / 2 ^ idShift < 2 ^ 38 := cid_lt (toNat_lt maxId)
    refine ⟨?_, ?_, ?_⟩
    · rw [IdSet.preAllocate, split_some hnn]
      simp only [length_mapIdx]
      exact length_preAllocate_le hs _
    · intro cid c hget
      rw [IdSet.preAllocate, split_some hnn] at hget
      dsimp only at hget
      rcases foldl_alter_cases (f := fun _ => allocate) hget with ⟨i, hi, rfl⟩ | hold
      · rw [mem_range] at hi
        omega
      · exact hs.overflow cid c hold
    · intro cid c hget
      rw [find_preAllocate s hnn] at hget
      split at hget
      · cases hget
        exact valid_allocate _
      · exact hs.chunk cid c hget

/-- A union of chunks that keeps the members of both. -/
def UnionSpec (union : Chunk → Chunk → Chunk) : Prop :=
  ∀ dst src : Chunk, dst.Valid → src.Valid → United dst src (union dst src)

lemma find_mergeBy (union : Chunk → Chunk → Chunk) (s other : IdSet) (cid : Nat) :
    (s.mergeBy union other).find cid =
      match other.find cid with
      | some c => some (unite union c (s.find cid))
      | none => s.find cid := by
  simp only [IdSet.find, IdSet.mergeBy]
  by_cases hdir : cid < directChunks
  · simp only [if_pos hdir, mergeSlots, getElem?_mapIdx]
    have hlen := length_resize s.chunks other.chunks.length
    have hjoin := getElem_resize s.chunks other.chunks.length cid
    cases hslot : (resize s.chunks other.chunks.length)[cid]? with
    | none =>
      have hge := getElem?_eq_none_iff.mp hslot
      have hother : other.chunks[cid]? = none := getElem?_eq_none (by omega)
      rw [hslot] at hjoin
      simp [hother, ← hjoin]
    | some slot =>
      rw [hslot] at hjoin
      rw [← hjoin]
      cases other.chunks[cid]?.join <;> simp
  · simp only [if_neg hdir]
    cases hget : other.overflow[cid]? with
    | some c =>
      have hmem : (cid, c) ∈ other.overflow.toList :=
        Std.TreeMap.mem_toList_iff_getElem?_eq_some.mpr hget
      have hdistinct : other.overflow.toList.Pairwise fun a b => a.1 ≠ b.1 := by
        refine List.Pairwise.imp ?_ Std.TreeMap.ordered_keys_toList
        intro a b h heq
        have := Nat.compare_eq_lt.mp h
        omega
      exact getElem_foldl_alter (f := fun e => unite union e.2) s.overflow hdistinct hmem
    | none =>
      apply getElem_foldl_alter_ne
      rintro ⟨k, c⟩ hmem rfl
      rw [Std.TreeMap.mem_toList_iff_getElem?_eq_some, hget] at hmem
      cases hmem

variable {union : Chunk → Chunk → Chunk}

lemma unite_spec (hunion : UnionSpec union) {src : Chunk} (hsrc : src.Valid)
    {dst : Option Chunk} (hdst : ∀ c, dst = some c → c.Valid) :
    (∀ off, (unite union src dst).contains off = (chunkHas dst off || src.contains off)) ∧
      (unite union src dst).Valid := by
  cases dst with
  | none =>
    refine ⟨?_, hsrc⟩
    intro off
    exact (Bool.false_or _).symm
  | some c => exact hunion c src (hdst c rfl) hsrc

lemma has_mergeBy (hunion : UnionSpec union) (hs : s.Valid) (hother : other.Valid) (n : Nat) :
    (s.mergeBy union other).has n = (s.has n || other.has n) := by
  unfold IdSet.has
  rw [find_mergeBy]
  cases hget : other.find (n / 2 ^ idShift) with
  | none => exact (Bool.or_false _).symm
  | some c =>
    exact (unite_spec hunion (hother.chunk _ c hget) fun c' hc' => hs.chunk _ c' hc').1 _

lemma valid_mergeBy (hunion : UnionSpec union) (hs : s.Valid) (hother : other.Valid) :
    (s.mergeBy union other).Valid := by
  refine ⟨?_, ?_, ?_⟩
  · have h1 := hs.direct
    have h2 := hother.direct
    simp only [IdSet.mergeBy, mergeSlots, length_mapIdx, length_resize]
    omega
  · intro cid c hget
    rcases @foldl_alter_cases (Nat × Chunk) (·.1) (fun e => unite union e.2) _ _ _ _ hget with
      ⟨⟨k, c'⟩, hmem, rfl⟩ | hold
    · exact hother.overflow k c' (Std.TreeMap.mem_toList_iff_getElem?_eq_some.mp hmem)
    · exact hs.overflow cid c hold
  · intro cid c hget
    rw [find_mergeBy] at hget
    split at hget
    · next c' hother' =>
      cases hget
      exact (unite_spec hunion (hother.chunk _ c' hother') fun c' hc' => hs.chunk _ c' hc').2
    · exact hs.chunk cid c hget

lemma unionRef_unionSpec : UnionSpec Chunk.unionRef := fun _ _ h h' => unionRef_spec h h'

lemma unionOwned_unionSpec : UnionSpec Chunk.unionOwned := fun _ _ h h' => unionOwned_spec h h'

end IdSets
