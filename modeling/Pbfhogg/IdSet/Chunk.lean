import Pbfhogg.Lib.BitArray

/-!
# Chunks of an id set

The two forms of a chunk in `idset.rs`: a sorted array of offsets and a bit array of words.
Everything a chunk answers is said in terms of `contains`. The words are a family over their index,
of which a chunk uses the first `wordsPerChunk`.
-/

namespace IdSets

open BitArray List Function

def chunkBytes : Nat := 2 ^ 22

def wordsPerChunk : Nat := chunkBytes / 8

def idShift : Nat := 25

def offsetMask : Nat := 2 ^ idShift - 1

def directChunks : Nat := 2 ^ 18

def sparseMax : Nat := 1024

def wordsPerBlock : Nat := 8

def bitsPerBlock : Nat := 512

def blocksPerChunk : Nat := wordsPerChunk / wordsPerBlock

/-- The chunk of an id and its offset there; `none` for a negative id. -/
def split (id : Int64) : Option (Nat × Nat) :=
  if id.toInt < 0 then none
  else some (id.toInt.toNat >>> idShift, id.toInt.toNat &&& offsetMask)

def newDense : Nat → BitVec 64 := fun _ => 0

/-- Whether the bit was new, and the words with it. -/
def denseInsert (words : Nat → BitVec 64) (off : Nat) : Bool × (Nat → BitVec 64) :=
  let bit := 1#64 <<< (off &&& 63)
  let word := words (off >>> 6)
  let wasSet := word &&& bit != 0
  (!wasSet, update words (off >>> 6) (word ||| bit))

def insertAll (words : Nat → BitVec 64) (offsets : List Nat) : Nat → BitVec 64 :=
  offsets.foldl (fun words off => (denseInsert words off).2) words

def denseFromOffsets (offsets : List Nat) : Nat → BitVec 64 := insertAll newDense offsets

def unionSorted : List Nat → List Nat → List Nat
  | [], b => b
  | a, [] => a
  | x :: a, y :: b =>
    match compare x y with
    | .lt => x :: unionSorted a (y :: b)
    | .gt => y :: unionSorted (x :: a) b
    | .eq => x :: unionSorted a b

/-- `slice::partition_point`: the length of the part where `p` holds, which comes first. -/
def partitionPoint (xs : List Nat) (p : Nat → Bool) : Nat := (xs.takeWhile p).length

/-- `slice::binary_search` on a sorted slice: where the value is, or where it would be. -/
def binarySearch (xs : List Nat) (x : Nat) : Except Nat Nat :=
  let i := partitionPoint xs (· < x)
  if xs[i]? = some x then .ok i else .error i

inductive Chunk where
  | dense (words : Nat → BitVec 64)
  | sparse (offsets : List Nat)

namespace Chunk

def newSparse : Chunk := .sparse []

def contains : Chunk → Nat → Bool
  | .dense words, off => words (off >>> 6) &&& (1#64 <<< (off &&& 63)) != 0
  | .sparse offsets, off =>
    match binarySearch offsets off with
    | .ok _ => true
    | .error _ => false

/-- A new member beyond the threshold. -/
def insertPromoted (offsets : List Nat) (off : Nat) : Bool × Chunk :=
  (true, .dense (denseInsert (denseFromOffsets offsets) off).2)

/-- Whether the offset was new, and the chunk with it. -/
def insert : Chunk → Nat → Bool × Chunk
  | .dense words, off => ((denseInsert words off).1, .dense (denseInsert words off).2)
  | .sparse offsets, off =>
    if offsets.getLast?.all (· < off) then
      -- Ascending population never searches.
      if offsets.length < sparseMax then (true, .sparse (offsets ++ [off]))
      else insertPromoted offsets off
    else
      match binarySearch offsets off with
      | .ok _ => (false, .sparse offsets)
      | .error pos =>
        if offsets.length < sparseMax then (true, .sparse (offsets.insertIdx pos off))
        else insertPromoted offsets off

def promote : Chunk → Chunk
  | .dense words => .dense words
  | .sparse offsets => .dense (denseFromOffsets offsets)

def orWords (dst src : Nat → BitVec 64) : Nat → BitVec 64 := fun i => dst i ||| src i

def isDense : Chunk → Bool
  | .dense _ => true
  | .sparse _ => false

def unionRef (self src : Chunk) : Chunk :=
  let self := if src.isDense then self.promote else self
  match self, src with
  | .dense dst, .dense s => .dense (orWords dst s)
  | .dense dst, .sparse s => .dense (insertAll dst s)
  | .sparse dst, .sparse s =>
    let merged := unionSorted dst s
    if sparseMax < merged.length then .dense (denseFromOffsets merged) else .sparse merged
  | .sparse dst, .dense _ => .sparse dst

/-- An array destination takes a bit-array source's words whole. -/
def unionOwned (self src : Chunk) : Chunk :=
  match src, self with
  | .dense s, .sparse dst => .dense (insertAll s dst)
  | src, self => self.unionRef src

def count : Chunk → Nat
  | .dense words => ((range wordsPerChunk).map fun i => countOnes (words i)).sum
  | .sparse offsets => offsets.length

/-- The members of one block of words. -/
def blockOnes (words : Nat → BitVec 64) (b : Nat) : Nat :=
  ((range wordsPerBlock).map fun i => countOnes (words (b * wordsPerBlock + i))).sum

def rankBlocksLoop (words : Nat → BitVec 64) (blocks : Nat) : List Nat × Nat :=
  (range blocks).foldl
    (fun acc b => (acc.1 ++ [acc.2], acc.2 + blockOnes words b)) ([], 0)

/-- The members before each block of a bit array, and all members. -/
def rankBlocks : Chunk → Option (List Nat) × Nat
  | .dense words =>
    let loop := rankBlocksLoop words blocksPerChunk
    (some loop.1, loop.2)
  | .sparse offsets => (none, offsets.length)

/-- The members below `off`. -/
def rankWithin (c : Chunk) (off : Nat) (blocks : Option (List Nat)) : Nat :=
  match c with
  | .dense words =>
    let blockIdx := off / bitsPerBlock
    let start := match blocks with
      | some sums => sums.getD blockIdx 0
      | none => 0
    let targetWord := off >>> 6
    let whole := ((range (targetWord - blockIdx * wordsPerBlock)).map fun i =>
      countOnes (words (blockIdx * wordsPerBlock + i))).sum
    let bit := off &&& 63
    let part :=
      if 0 < bit then countOnes (words targetWord &&& ((1#64 <<< bit) - 1#64)) else 0
    start + whole + part
  | .sparse offsets => partitionPoint offsets (· < off)

/-- A word of the range from `lo` to `hi`, without the bits outside it. -/
def maskedWord (words : Nat → BitVec 64) (lo hi idx : Nat) : BitVec 64 :=
  let value := words idx
  let value :=
    if idx = lo >>> 6 then value &&& (BitVec.allOnes 64 <<< (lo &&& 63)) else value
  if idx = hi >>> 6 ∧ hi &&& 63 ≠ 63 then value &&& ((1#64 <<< ((hi &&& 63) + 1)) - 1#64)
  else value

/-- Whether a member lies from `lo` to `hi`. -/
def anyIn : Chunk → Nat → Nat → Bool
  | .dense words, lo, hi =>
    (range (hi >>> 6 + 1 - lo >>> 6)).any fun i =>
      maskedWord words lo hi (lo >>> 6 + i) != 0
  | .sparse offsets, lo, hi =>
    match offsets[partitionPoint offsets (· < lo)]? with
    | some off => decide (off ≤ hi)
    | none => false

/-- What `ChunkOffsets` yields. -/
def offsets : Chunk → List Nat
  | .dense words => (range wordsPerChunk).flatMap fun i => wordOffsets (i * 64) (words i)
  | .sparse offsets => offsets

/-- An array is strictly ascending, not above the threshold, and of this chunk's offsets. -/
def Valid : Chunk → Prop
  | .dense _ => True
  | .sparse offsets =>
    offsets.Pairwise (· < ·) ∧ offsets.length ≤ sparseMax ∧ ∀ off ∈ offsets, off < 2 ^ idShift

end Chunk

variable {xs ys : List Nat} {x y off lo hi : Nat}

lemma binarySearch_mem (hsorted : xs.Pairwise (· < ·)) :
    xs[partitionPoint xs (· < x)]? = some x ↔ x ∈ xs := by
  induction xs with
  | nil => simp [partitionPoint]
  | cons y ys ih =>
    obtain ⟨hy, hys⟩ := pairwise_cons.mp hsorted
    unfold partitionPoint at ih ⊢
    by_cases hlt : y < x
    · have htake : (y :: ys).takeWhile (fun z => decide (z < x)) =
          y :: ys.takeWhile (fun z => decide (z < x)) := by simp [hlt]
      rw [htake, length_cons, getElem?_cons_succ, ih hys, mem_cons]
      constructor
      · exact .inr
      · rintro (rfl | h)
        · omega
        · exact h
    · have htake : (y :: ys).takeWhile (fun z => decide (z < x)) = [] := by simp [hlt]
      rw [htake, length_nil, getElem?_cons_zero, Option.some.injEq, mem_cons]
      constructor
      · intro h
        exact .inl h.symm
      · rintro (rfl | h)
        · rfl
        · exact absurd (hy x h) (by omega)

lemma binarySearch_ok {i : Nat} (hsorted : xs.Pairwise (· < ·))
    (h : binarySearch xs x = .ok i) : x ∈ xs := by
  unfold binarySearch at h
  by_cases hget : xs[partitionPoint xs (· < x)]? = some x
  · exact (binarySearch_mem hsorted).mp hget
  · simp [hget] at h

lemma binarySearch_error {i : Nat} (hsorted : xs.Pairwise (· < ·))
    (h : binarySearch xs x = .error i) : x ∉ xs ∧ i = partitionPoint xs (· < x) := by
  unfold binarySearch at h
  by_cases hget : xs[partitionPoint xs (· < x)]? = some x
  · simp [hget] at h
  · refine ⟨fun hmem => hget ((binarySearch_mem hsorted).mpr hmem), ?_⟩
    simpa [hget] using h.symm

/-- The part below a value is what `partition_point` counts. -/
theorem partitionPoint_countP (hsorted : xs.Pairwise (· < ·)) :
    partitionPoint xs (· < x) = xs.countP (· < x) := by
  induction xs with
  | nil => rfl
  | cons y ys ih =>
    obtain ⟨hy, hys⟩ := pairwise_cons.mp hsorted
    unfold partitionPoint at ih ⊢
    by_cases hlt : y < x
    · simp [hlt, ih hys]
    · have hnone : ys.countP (fun z => decide (z < x)) = 0 := by
        rw [countP_eq_zero]
        intro z hz
        have := hy z hz
        simp only [decide_eq_true_eq]
        omega
      simp only [takeWhile_cons, hlt, decide_false, Bool.false_eq_true, if_false,
        length_nil, countP_cons, hnone]

lemma insertIdx_partitionPoint :
    xs.insertIdx (partitionPoint xs (· < x)) x =
      xs.takeWhile (· < x) ++ x :: xs.dropWhile (· < x) := by
  unfold partitionPoint
  induction xs with
  | nil => rfl
  | cons y ys ih =>
    by_cases hlt : y < x
    · simp [hlt, ih]
    · simp [hlt]

lemma mem_insertIdx_partitionPoint :
    y ∈ xs.insertIdx (partitionPoint xs (· < x)) x ↔ y ∈ xs ∨ y = x := by
  rw [insertIdx_partitionPoint, mem_append, mem_cons]
  conv_rhs => rw [← takeWhile_append_dropWhile (p := (fun z => decide (z < x))) (l := xs)]
  rw [mem_append]
  tauto

/-- Inserting an absent value where the search says keeps the order. -/
theorem pairwise_insertIdx (hsorted : xs.Pairwise (· < ·)) (hx : x ∉ xs) :
    (xs.insertIdx (partitionPoint xs (· < x)) x).Pairwise (· < ·) := by
  unfold partitionPoint
  induction xs with
  | nil => simp
  | cons y ys ih =>
    obtain ⟨hy, hys⟩ := pairwise_cons.mp hsorted
    rw [mem_cons, not_or] at hx
    by_cases hlt : y < x
    · simp only [takeWhile_cons, hlt, decide_true, if_true, length_cons,
        insertIdx_succ_cons, pairwise_cons]
      refine ⟨?_, ih hys hx.2⟩
      intro z hz
      rcases mem_insertIdx_partitionPoint.mp hz with h | rfl
      · exact hy z h
      · exact hlt
    · have hxy : x < y := by omega
      simp only [takeWhile_cons, hlt, decide_false, Bool.false_eq_true, if_false,
        length_nil, insertIdx_zero, pairwise_cons, mem_cons]
      refine ⟨?_, hy, hys⟩
      rintro z (rfl | hz)
      · exact hxy
      · exact Nat.lt_trans hxy (hy z hz)

lemma mem_unionSorted : x ∈ unionSorted xs ys ↔ x ∈ xs ∨ x ∈ ys := by
  induction xs, ys using unionSorted.induct with
  | case1 b => simp [unionSorted]
  | case2 a ha => cases a with
    | nil => exact absurd rfl ha
    | cons y a => simp [unionSorted]
  | case3 _ _ _ _ h ih | case4 _ _ _ _ h ih =>
    rw [unionSorted, h]
    simp only [mem_cons, ih]
    tauto
  | case5 x' a y' b h ih =>
    have heq : x' = y' := Nat.compare_eq_eq.mp h
    rw [unionSorted, h]
    simp only [mem_cons, ih, heq]
    tauto

lemma pairwise_unionSorted (hx : xs.Pairwise (· < ·)) (hy : ys.Pairwise (· < ·)) :
    (unionSorted xs ys).Pairwise (· < ·) := by
  induction xs, ys using unionSorted.induct with
  | case1 b => simpa [unionSorted] using hy
  | case2 a ha => cases a with
    | nil => exact absurd rfl ha
    | cons y a => simpa [unionSorted] using hx
  | case3 x' a y' b h ih =>
    have hlt : x' < y' := Nat.compare_eq_lt.mp h
    rw [unionSorted, h]
    refine pairwise_cons.mpr ⟨?_, ih (pairwise_cons.mp hx).2 hy⟩
    intro z hz
    rcases mem_unionSorted.mp hz with hz | hz
    · exact (pairwise_cons.mp hx).1 z hz
    · rcases mem_cons.mp hz with rfl | hz
      · exact hlt
      · exact Nat.lt_trans hlt ((pairwise_cons.mp hy).1 z hz)
  | case4 x' a y' b h ih =>
    have hgt : y' < x' := Nat.compare_eq_gt.mp h
    rw [unionSorted, h]
    refine pairwise_cons.mpr ⟨?_, ih hx (pairwise_cons.mp hy).2⟩
    intro z hz
    rcases mem_unionSorted.mp hz with hz | hz
    · rcases mem_cons.mp hz with rfl | hz
      · exact hgt
      · exact Nat.lt_trans hgt ((pairwise_cons.mp hx).1 z hz)
    · exact (pairwise_cons.mp hy).1 z hz
  | case5 x' a y' b h ih =>
    have heq : x' = y' := Nat.compare_eq_eq.mp h
    rw [unionSorted, h]
    refine pairwise_cons.mpr ⟨?_, ih (pairwise_cons.mp hx).2 (pairwise_cons.mp hy).2⟩
    intro z hz
    rcases mem_unionSorted.mp hz with hz | hz
    · exact (pairwise_cons.mp hx).1 z hz
    · rw [heq]
      exact (pairwise_cons.mp hy).1 z hz

lemma shiftRight_six (off : Nat) : off >>> 6 = off / 64 := by
  rw [Nat.shiftRight_eq_div_pow]

lemma and_sixtyThree (off : Nat) : off &&& 63 = off % 64 := by
  rw [show 63 = 2 ^ 6 - 1 by rfl, Nat.and_two_pow_sub_one_eq_mod]

lemma contains_dense (words : Nat → BitVec 64) (off : Nat) :
    (Chunk.dense words).contains off = bit words off := by
  change (words (off >>> 6) &&& (1#64 <<< (off &&& 63)) != 0) = _
  rw [shiftRight_six, and_sixtyThree, and_one_shiftLeft _ (Nat.mod_lt _ (by omega)), bit]

lemma denseInsert_new (words : Nat → BitVec 64) (off : Nat) :
    (denseInsert words off).1 = !bit words off := by
  rw [← contains_dense]
  rfl

lemma bit_denseInsert (words : Nat → BitVec 64) (off x : Nat) :
    bit (denseInsert words off).2 x = (bit words x || decide (x = off)) := by
  have hlt : off % 64 < 64 := Nat.mod_lt _ (by omega)
  change bit (update words (off >>> 6) (words (off >>> 6) ||| 1#64 <<< (off &&& 63))) x = _
  rw [shiftRight_six, and_sixtyThree, bit, bit]
  by_cases hword : x / 64 = off / 64
  · rw [hword, update_self, BitVec.getLsbD_or, getLsbD_one_shiftLeft hlt]
    congr 1
    rw [decide_eq_decide]
    omega
  · have hne : x ≠ off := fun h => hword (by rw [h])
    rw [update_of_ne hword]
    simp [hne]

lemma bit_insertAll (words : Nat → BitVec 64) (offsets : List Nat) (x : Nat) :
    bit (insertAll words offsets) x = (bit words x || decide (x ∈ offsets)) := by
  induction offsets generalizing words with
  | nil => simp [insertAll]
  | cons off offsets ih =>
    change bit (insertAll (denseInsert words off).2 offsets) x = _
    rw [ih, bit_denseInsert, Bool.or_assoc]
    congr 1
    simp only [mem_cons, Bool.decide_or]

lemma bit_denseFromOffsets (offsets : List Nat) (x : Nat) :
    bit (denseFromOffsets offsets) x = decide (x ∈ offsets) := by
  rw [denseFromOffsets, bit_insertAll]
  simp [bit, newDense]

lemma bit_orWords (dst src : Nat → BitVec 64) (x : Nat) :
    bit (Chunk.orWords dst src) x = (bit dst x || bit src x) := by
  simp [bit, Chunk.orWords]

variable {offsets : List Nat}

lemma contains_sparse (hsorted : offsets.Pairwise (· < ·)) (off : Nat) :
    (Chunk.sparse offsets).contains off = decide (off ∈ offsets) := by
  simp only [Chunk.contains]
  cases hsearch : binarySearch offsets off with
  | ok i => simp [binarySearch_ok hsorted hsearch]
  | error i => simp [(binarySearch_error hsorted hsearch).1]

variable {c src : Chunk}

lemma valid_newSparse : Chunk.newSparse.Valid := by
  simp [Chunk.newSparse, Chunk.Valid]

lemma contains_newSparse (off : Nat) : Chunk.newSparse.contains off = false := by
  rw [Chunk.newSparse, contains_sparse List.Pairwise.nil]
  simp

lemma contains_newDense (off : Nat) : (Chunk.dense newDense).contains off = false := by
  rw [contains_dense]
  simp [bit, newDense]

/-- What an insertion promises. -/
def Inserted (c : Chunk) (off : Nat) (r : Bool × Chunk) : Prop :=
  r.1 = !c.contains off ∧ (∀ x, r.2.contains x = (c.contains x || decide (x = off))) ∧ r.2.Valid

lemma inserted_promoted (hsorted : offsets.Pairwise (· < ·)) (hnew : off ∉ offsets) :
    Inserted (.sparse offsets) off (Chunk.insertPromoted offsets off) := by
  refine ⟨?_, ?_, trivial⟩
  · rw [contains_sparse hsorted]
    simp [Chunk.insertPromoted, hnew]
  · intro x
    rw [Chunk.insertPromoted, contains_dense, bit_denseInsert, bit_denseFromOffsets,
      contains_sparse hsorted]

lemma inserted_array {grown : List Nat} (hc : (Chunk.sparse offsets).Valid)
    (hoff : off < 2 ^ idShift) (hnew : off ∉ offsets) (hsorted : grown.Pairwise (· < ·))
    (hlen : grown.length ≤ sparseMax) (hmem : ∀ x, x ∈ grown ↔ x ∈ offsets ∨ x = off) :
    Inserted (.sparse offsets) off (true, .sparse grown) := by
  refine ⟨?_, ?_, hsorted, hlen, ?_⟩
  · rw [contains_sparse hc.1]
    simp [hnew]
  · intro x
    rw [contains_sparse hc.1, contains_sparse hsorted, ← Bool.decide_or]
    exact decide_eq_decide.mpr (hmem x)
  · intro x hx
    rcases (hmem x).mp hx with h | rfl
    · exact hc.2.2 x h
    · exact hoff

/-- The last offset of a sorted array bounds it. -/
theorem lt_of_getLast_all (hsorted : offsets.Pairwise (· < ·))
    (hlast : offsets.getLast?.all (· < off) = true) : ∀ x ∈ offsets, x < off := by
  intro x hx
  cases hget : offsets.getLast? with
  | none =>
    rw [getLast?_eq_none_iff] at hget
    rw [hget] at hx
    cases hx
  | some last =>
    rw [hget] at hlast
    have hlt : last < off := by simpa using hlast
    obtain ⟨init, rfl⟩ := getLast?_eq_some_iff.mp hget
    rw [mem_append, mem_singleton] at hx
    rcases hx with hx | rfl
    · exact Nat.lt_trans ((pairwise_append.mp hsorted).2.2 x hx last (by simp)) hlt
    · exact hlt

lemma insert_spec (hc : c.Valid) (hoff : off < 2 ^ idShift) : Inserted c off (c.insert off) := by
  cases c with
  | dense words =>
    refine ⟨?_, ?_, trivial⟩
    · rw [contains_dense]
      exact denseInsert_new words off
    · intro x
      rw [contains_dense]
      exact (contains_dense _ x).trans (bit_denseInsert words off x)
  | sparse offsets =>
    obtain ⟨hsorted, hlen, hbound⟩ := hc
    simp only [Chunk.insert]
    by_cases hlast : offsets.getLast?.all (· < off) = true
    · have hbelow := lt_of_getLast_all hsorted hlast
      have hnew : off ∉ offsets := fun hmem => Nat.lt_irrefl off (hbelow off hmem)
      rw [if_pos hlast]
      by_cases hroom : offsets.length < sparseMax
      · rw [if_pos hroom]
        apply inserted_array ⟨hsorted, hlen, hbound⟩ hoff hnew
        · rw [pairwise_append]
          refine ⟨hsorted, pairwise_singleton _ _, ?_⟩
          intro x hx y hy
          rw [mem_singleton.mp hy]
          exact hbelow x hx
        · rw [length_append, length_singleton]
          omega
        · simp
      · rw [if_neg hroom]
        exact inserted_promoted hsorted hnew
    · rw [if_neg hlast]
      cases hsearch : binarySearch offsets off with
      | ok i =>
        have hmem := binarySearch_ok hsorted hsearch
        refine ⟨?_, ?_, hsorted, hlen, hbound⟩
        · rw [contains_sparse hsorted]
          simp [hmem]
        · intro x
          rw [contains_sparse hsorted, ← Bool.decide_or]
          apply decide_eq_decide.mpr
          constructor
          · exact .inl
          · rintro (h | rfl)
            · exact h
            · exact hmem
      | error pos =>
        obtain ⟨hnew, rfl⟩ := binarySearch_error hsorted hsearch
        by_cases hroom : offsets.length < sparseMax
        · simp only [if_pos hroom]
          apply inserted_array ⟨hsorted, hlen, hbound⟩ hoff hnew
          · exact pairwise_insertIdx hsorted hnew
          · exact Nat.le_trans length_insertIdx_le_succ hroom
          · intro x
            exact mem_insertIdx_partitionPoint
        · simp only [if_neg hroom]
          exact inserted_promoted hsorted hnew

lemma contains_promote (hc : c.Valid) (x : Nat) : c.promote.contains x = c.contains x := by
  cases c with
  | dense words => rfl
  | sparse offsets =>
    rw [contains_sparse hc.1, Chunk.promote, contains_dense, bit_denseFromOffsets]

lemma valid_promote (c : Chunk) : c.promote.Valid := by
  cases c <;> trivial

/-- What a union promises. -/
def United (c src : Chunk) (r : Chunk) : Prop :=
  (∀ x, r.contains x = (c.contains x || src.contains x)) ∧ r.Valid

lemma united_dense (words : Nat → BitVec 64) (hsrc : src.Valid) :
    United (.dense words) src ((Chunk.dense words).unionRef src) := by
  cases src with
  | dense s =>
    refine ⟨?_, trivial⟩
    intro x
    rw [contains_dense, contains_dense, ← bit_orWords]
    exact contains_dense _ x
  | sparse s =>
    refine ⟨?_, trivial⟩
    intro x
    rw [contains_dense, contains_sparse hsrc.1, ← bit_insertAll]
    exact contains_dense _ x

lemma united_arrays {dst s : List Nat} (hdst : (Chunk.sparse dst).Valid)
    (hs : (Chunk.sparse s).Valid) :
    United (.sparse dst) (.sparse s) ((Chunk.sparse dst).unionRef (.sparse s)) := by
  have hsorted := pairwise_unionSorted hdst.1 hs.1
  have hor : ∀ x, decide (x ∈ unionSorted dst s) =
      ((Chunk.sparse dst).contains x || (Chunk.sparse s).contains x) := by
    intro x
    rw [contains_sparse hdst.1, contains_sparse hs.1, ← Bool.decide_or]
    exact decide_eq_decide.mpr mem_unionSorted
  change United _ _ (if sparseMax < (unionSorted dst s).length then
    .dense (denseFromOffsets (unionSorted dst s)) else .sparse (unionSorted dst s))
  by_cases hlong : sparseMax < (unionSorted dst s).length
  · rw [if_pos hlong]
    refine ⟨?_, trivial⟩
    intro x
    rw [contains_dense, bit_denseFromOffsets, hor]
  · rw [if_neg hlong]
    refine ⟨?_, hsorted, Nat.le_of_not_lt hlong, ?_⟩
    · intro x
      rw [contains_sparse hsorted, hor]
    · intro x hx
      rcases mem_unionSorted.mp hx with h | h
      · exact hdst.2.2 x h
      · exact hs.2.2 x h

lemma unionRef_spec (hc : c.Valid) (hsrc : src.Valid) : United c src (c.unionRef src) := by
  cases c with
  | dense words => exact united_dense words hsrc
  | sparse dst =>
    cases src with
    | dense s =>
      -- The destination is promoted first.
      have h := @united_dense (.dense s) (denseFromOffsets dst) trivial
      refine ⟨?_, trivial⟩
      intro x
      rw [← contains_promote hc x]
      exact h.1 x
    | sparse s => exact united_arrays hc hsrc

lemma unionOwned_spec (hc : c.Valid) (hsrc : src.Valid) : United c src (c.unionOwned src) := by
  cases c with
  | dense words =>
    cases src with
    | dense | sparse => exact unionRef_spec hc hsrc
  | sparse dst =>
    cases src with
    | dense s =>
      refine ⟨?_, trivial⟩
      intro x
      rw [contains_sparse hc.1, contains_dense, Bool.or_comm, ← bit_insertAll]
      exact contains_dense _ x
    | sparse s => exact unionRef_spec hc hsrc

lemma wordsPerChunk_bits : wordsPerChunk * 64 = 2 ^ idShift := by decide

/-- The offsets a chunk lists are its members, ascending. -/
theorem offsets_eq (hc : c.Valid) : c.offsets = (range (2 ^ idShift)).filter c.contains := by
  cases c with
  | dense words =>
    rw [Chunk.offsets, flatMap_wordOffsets, wordsPerChunk_bits]
    apply filter_congr
    intro x _
    rw [contains_dense]
  | sparse offsets =>
    apply eq_filter_range hc.1
    intro x
    rw [contains_sparse hc.1, decide_eq_true_eq]
    constructor
    · intro hx
      exact ⟨hc.2.2 x hx, hx⟩
    · rintro ⟨-, hx⟩
      exact hx

lemma length_offsets (c : Chunk) : c.offsets.length = c.count := by
  cases c with
  | dense words =>
    rw [Chunk.offsets, flatMap_wordOffsets, ← countP_eq_length_filter, ← sum_countOnes]
    rfl
  | sparse offsets => rfl

lemma count_eq (hc : c.Valid) : c.count = (range (2 ^ idShift)).countP c.contains := by
  rw [← length_offsets, offsets_eq hc, countP_eq_length_filter]

lemma blockOnes_eq (words : Nat → BitVec 64) (b : Nat) : Chunk.blockOnes words b =
      (range bitsPerBlock).countP fun i => bit words (b * bitsPerBlock + i) := by
  have hbits : bitsPerBlock = wordsPerBlock * 64 := rfl
  rw [hbits, countP_range_mul, Chunk.blockOnes]
  congr 1
  apply map_congr_left
  intro w hw
  have hshift : ∀ i, b * (wordsPerBlock * 64) + (w * 64 + i) = (b * wordsPerBlock + w) * 64 + i := by
    intro i
    change b * (8 * 64) + (w * 64 + i) = (b * 8 + w) * 64 + i
    omega
  simp only [hshift, countP_word]

lemma rankBlocksLoop_eq (words : Nat → BitVec 64) (n : Nat) : Chunk.rankBlocksLoop words n =
      ((range n).map fun b => (range (b * bitsPerBlock)).countP (bit words),
        (range (n * bitsPerBlock)).countP (bit words)) := by
  unfold Chunk.rankBlocksLoop
  induction n with
  | zero => simp
  | succ n ih =>
    rw [range_succ, foldl_append, ih]
    simp only [foldl_cons, foldl_nil, map_append, map_cons, map_nil, blockOnes_eq]
    rw [Nat.succ_mul, countP_range_add]

lemma rankBlocks_count (c : Chunk) : c.rankBlocks.2 = c.count := by
  cases c with
  | dense words =>
    have hbits : blocksPerChunk * bitsPerBlock = wordsPerChunk * 64 := by decide
    simp only [Chunk.rankBlocks, rankBlocksLoop_eq, Chunk.count, sum_countOnes, hbits]
  | sparse offsets => rfl

/-- The rank within a chunk: the members below the offset. -/
theorem rankWithin_eq (hc : c.Valid) (hoff : off < 2 ^ idShift) :
    c.rankWithin off c.rankBlocks.1 = (range off).countP c.contains := by
  cases c with
  | dense words =>
    have hblock : off / bitsPerBlock < blocksPerChunk := by
      change off / 512 < 65536
      change off < 33554432 at hoff
      omega
    have hstart : (Chunk.rankBlocksLoop words blocksPerChunk).1.getD (off / bitsPerBlock) 0 =
        ((range (off / bitsPerBlock * wordsPerBlock)).map fun b =>
          countOnes (words b)).sum := by
      have hbits : off / bitsPerBlock * bitsPerBlock = off / bitsPerBlock * wordsPerBlock * 64 := by
        change off / 512 * 512 = off / 512 * 8 * 64
        omega
      rw [rankBlocksLoop_eq, sum_countOnes, ← hbits]
      simp [getD_eq_getElem?_getD, hblock]
    have hsplit : off / 64 =
        off / bitsPerBlock * wordsPerBlock + (off / 64 - off / bitsPerBlock * wordsPerBlock) := by
      change off / 64 = off / 512 * 8 + (off / 64 - off / 512 * 8)
      omega
    have hwhole : ((range (off / 64)).map fun b => countOnes (words b)).sum =
        ((range (off / bitsPerBlock * wordsPerBlock)).map fun b => countOnes (words b)).sum +
        ((range (off / 64 - off / bitsPerBlock * wordsPerBlock)).map fun i =>
          countOnes (words (off / bitsPerBlock * wordsPerBlock + i))).sum := by
      conv_lhs => rw [hsplit, range_add, map_append, sum_append, map_map]
      rfl
    have hpart : (if 0 < off % 64 then
        countOnes (words (off / 64) &&& ((1#64 <<< (off % 64)) - 1#64)) else 0) =
        countOnes (words (off / 64) &&& ((1#64 <<< (off % 64)) - 1#64)) := by
      by_cases hpos : 0 < off % 64
      · rw [if_pos hpos]
      · have hzero : off % 64 = 0 := by omega
        rw [if_neg hpos, hzero]
        simp [countOnes]
    have hcontains : (Chunk.dense words).contains = bit words := by
      funext x
      exact contains_dense words x
    rw [hcontains, countP_below, hwhole, ← hstart, ← hpart]
    simp only [Chunk.rankWithin, Chunk.rankBlocks, shiftRight_six, and_sixtyThree]
  | sparse offsets =>
    have hlist : offsets = (range (2 ^ idShift)).filter (Chunk.sparse offsets).contains :=
      offsets_eq hc
    change partitionPoint offsets (· < off) = _
    rw [partitionPoint_countP hc.1]
    conv_lhs => rw [hlist, countP_filter]
    exact countP_range_below _ (Nat.le_of_lt hoff)

lemma getLsbD_maskedWord (words : Nat → BitVec 64) (lo hi idx : Nat) {j : Nat} (hj : j < 64)
    (hlo : lo / 64 ≤ idx) (hhi : idx ≤ hi / 64) : (Chunk.maskedWord words lo hi idx).getLsbD j =
      ((words idx).getLsbD j && decide (lo ≤ idx * 64 + j ∧ idx * 64 + j ≤ hi)) := by
  unfold Chunk.maskedWord
  simp only [shiftRight_six, and_sixtyThree]
  have hlow : (if idx = lo / 64 then words idx &&& (BitVec.allOnes 64 <<< (lo % 64))
      else words idx).getLsbD j = ((words idx).getLsbD j && decide (lo ≤ idx * 64 + j)) := by
    by_cases hfirst : idx = lo / 64
    · rw [if_pos hfirst, BitVec.getLsbD_and, getLsbD_allOnes_shiftLeft _ hj]
      congr 1
      rw [decide_eq_decide]
      omega
    · have : lo ≤ idx * 64 + j := by omega
      rw [if_neg hfirst]
      simp [this]
  rw [Bool.decide_and, ← Bool.and_assoc, ← hlow]
  by_cases hlast : idx = hi / 64 ∧ hi % 64 ≠ 63
  · rw [if_pos hlast, BitVec.getLsbD_and, getLsbD_low_mask (by omega)]
    congr 1
    rw [decide_eq_decide]
    omega
  · have : idx * 64 + j ≤ hi := by omega
    rw [if_neg hlast]
    simp [this]

lemma ne_zero_iff_bit (w : BitVec 64) : w ≠ 0 ↔ ∃ j, j < 64 ∧ w.getLsbD j = true := by
  constructor
  · intro hne
    have hlow := BitVec.getLsbD_true_ctz_of_ne_zero hne
    exact ⟨w.ctz.toNat, BitVec.lt_of_getLsbD hlow, hlow⟩
  · rintro ⟨j, -, hbit⟩ rfl
    simp at hbit

/-- The range query of a chunk. -/
theorem anyIn_iff (hc : c.Valid) (hle : lo ≤ hi) :
    c.anyIn lo hi = true ↔ ∃ x, lo ≤ x ∧ x ≤ hi ∧ c.contains x = true := by
  cases c with
  | dense words =>
    simp only [Chunk.anyIn, any_eq_true, mem_range, bne_iff_ne, shiftRight_six]
    constructor
    · rintro ⟨i, hi', hne⟩
      obtain ⟨j, hj, hbit⟩ := (ne_zero_iff_bit _).mp hne
      rw [getLsbD_maskedWord words lo hi _ hj (by omega) (by omega), Bool.and_eq_true,
        decide_eq_true_eq] at hbit
      refine ⟨(lo / 64 + i) * 64 + j, hbit.2.1, hbit.2.2, ?_⟩
      rw [contains_dense, bit_block words _ hj]
      exact hbit.1
    · rintro ⟨x, hlo, hhi, hx⟩
      have hj : x % 64 < 64 := Nat.mod_lt _ (by omega)
      have hword : lo / 64 + (x / 64 - lo / 64) = x / 64 := by omega
      have hback : x / 64 * 64 + x % 64 = x := by omega
      refine ⟨x / 64 - lo / 64, by omega, (ne_zero_iff_bit _).mpr ⟨x % 64, hj, ?_⟩⟩
      rw [hword, getLsbD_maskedWord words lo hi _ hj (by omega) (by omega), hback,
        Bool.and_eq_true, decide_eq_true_eq]
      rw [contains_dense] at hx
      exact ⟨hx, hlo, hhi⟩
  | sparse offsets =>
    obtain ⟨hsorted, -, -⟩ := hc
    simp only [contains_sparse hsorted, decide_eq_true_eq]
    change (match offsets[partitionPoint offsets (· < lo)]? with
      | some off => decide (off ≤ hi)
      | none => false) = true ↔ _
    clear hle
    unfold partitionPoint
    induction offsets with
    | nil => simp
    | cons y ys ih =>
      obtain ⟨hy, hys⟩ := pairwise_cons.mp hsorted
      by_cases hlt : y < lo
      · simp only [takeWhile_cons, hlt, decide_true, if_true, length_cons,
          getElem?_cons_succ, ih hys, mem_cons]
        constructor
        · rintro ⟨x, h1, h2, h3⟩
          exact ⟨x, h1, h2, .inr h3⟩
        · rintro ⟨x, h1, h2, rfl | h3⟩
          · omega
          · exact ⟨x, h1, h2, h3⟩
      · simp only [takeWhile_cons, hlt, decide_false, Bool.false_eq_true, if_false,
          length_nil, getElem?_cons_zero, decide_eq_true_eq, mem_cons]
        constructor
        · intro hyhi
          exact ⟨y, by omega, hyhi, .inl rfl⟩
        · rintro ⟨x, h1, h2, rfl | h3⟩
          · exact h2
          · have := hy x h3
            omega

end IdSets
