import Pbfhogg.Apply.NodeLocations
import Pbfhogg.Lib.Bisect

/-!
# What a diff says about a node

The probe of `apply_changes/refresh.rs`: a blocked Bloom filter over the node ids of a sorted diff,
and behind it a binary search of the upserts and then of the deletes.
-/

namespace StaleProbe

open OsmId OscSorted OscLookup NodeLocations List

/-- What the diff says about one node. -/
inductive ProbeEntry
  | upserted (coord : Coord)
  | deleted
deriving DecidableEq

def filterBitsPerKey : Nat := 16

def probeHash (id : Int64) : UInt64 := id.toUInt64 * 0x9E3779B97F4A7C15

/-- `osm_id_cmp`. -/
def osmIdCmp (a b : Int64) : Ordering := compare (osmIdKey a) (osmIdKey b)

/-- `Ord` of the integers. -/
def int64Cmp (a b : Int64) : Ordering := compare a.toInt b.toInt

/-- `find`: the position of an id in a list sorted by `osm_id_cmp` whose positive ids begin at
`positive`. -/
def find (ids : List Int64) (positive : Nat) (id : Int64) : Option Nat :=
  if 0 < id then
    (Bisect.binarySearchBy (fun x => int64Cmp x id) (ids.drop positive)).toOption.map (· + positive)
  else (Bisect.binarySearchBy (fun x => osmIdCmp x id) (ids.take positive)).toOption

def positiveFrom (ids : List Int64) : Nat := Bisect.partitionPoint (fun id => decide (id ≤ 0)) ids

/-- The zeros below the lowest set bit of a word. -/
def trailingZeros (n : Nat) : Nat :=
  if h : n = 0 then 64 else if n % 2 = 1 then 0 else trailingZeros (n / 2) + 1
termination_by n

def wordsLen (keys : Nat) : Nat := max (Nat.nextPowerOfTwo (keys * filterBitsPerKey)) 128 / 64

/-- The word of an id, by the top bits of its hash. -/
def slotWord (shift : Nat) (id : Int64) : Nat := (probeHash id).toNat >>> shift

/-- The four bits of an id. -/
def slotMask (id : Int64) : UInt64 :=
  let h := probeHash id
  ((1 : UInt64) <<< ((h >>> 8) &&& 63)) ||| ((1 : UInt64) <<< ((h >>> 14) &&& 63)) |||
    ((1 : UInt64) <<< ((h >>> 20) &&& 63)) ||| ((1 : UInt64) <<< ((h >>> 26) &&& 63))

def setBits (shift : Nat) (words : List UInt64) (id : Int64) : List UInt64 :=
  words.modify (slotWord shift id) (· ||| slotMask id)

structure ProbeNodes where
  diff : SortedDiff
  words : List UInt64
  shift : Nat
  upsertsPositive : Nat
  deletedPositive : Nat

namespace ProbeNodes

def new (diff : SortedDiff) : ProbeNodes :=
  let upserts := (diff.kind .node).ids
  let deleted := (diff.kind .node).deleted
  let len := wordsLen (upserts.length + deleted.length)
  let shift := 64 - trailingZeros len
  { diff := diff
    words := (upserts ++ deleted).foldl (setBits shift) (replicate len 0)
    shift := shift
    upsertsPositive := positiveFrom upserts
    deletedPositive := positiveFrom deleted }

def admits (n : ProbeNodes) (id : Int64) : Bool :=
  n.words.getD (slotWord n.shift id) 0 &&& slotMask id == slotMask id

/-- The exact answer for an id the filter admitted. -/
def lookup (n : ProbeNodes) (id : Int64) : Option ProbeEntry :=
  match find (n.diff.kind .node).ids n.upsertsPositive id with
  | some i => some (.upserted (nodeCoord ((n.diff.kind .node).record i)))
  | none => (find (n.diff.kind .node).deleted n.deletedPositive id).map fun _ => .deleted

end ProbeNodes

/-- `StaleProbe`. -/
structure Probe where
  nodes : Option ProbeNodes

namespace Probe

def fromDiff (diff : SortedDiff) : Probe :=
  { nodes :=
      if (diff.kind .node).ids ≠ [] ∨ (diff.kind .node).deleted ≠ [] then some (.new diff)
      else none }

def isEmpty (p : Probe) : Bool := p.nodes.isNone

def get (p : Probe) (id : Int64) : Option ProbeEntry :=
  p.nodes.bind fun n => if n.admits id then n.lookup id else none

end Probe

section Search

variable {ids : List Int64}

/-- A search of a list that a comparison cuts in order, by position and by membership. -/
theorem search_spec {cmp : Int64 → Ordering} {l : List Int64} {id : Int64}
    (hup : l.Pairwise fun x y => cmp x = .gt → cmp y = .gt)
    (hlow : l.Pairwise fun x y => cmp y = .lt → cmp x = .lt)
    (heq : ∀ x, cmp x = .eq ↔ x = id) :
    (∀ i, (Bisect.binarySearchBy cmp l).toOption = some i → l[i]? = some id) ∧
      ((Bisect.binarySearchBy cmp l).toOption = none → id ∉ l) := by
  have hiff := Bisect.binarySearchBy_ok_iff hup hlow
  cases hrun : Bisect.binarySearchBy cmp l with
  | ok i =>
    obtain ⟨x, hx, hcmp⟩ := Bisect.binarySearchBy_eq_ok hrun
    rw [heq] at hcmp
    subst hcmp
    exact ⟨fun j hj => by cases hj; exact hx, nofun⟩
  | error i =>
    refine ⟨nofun, fun _ hmem => ?_⟩
    obtain ⟨j, hj⟩ := hiff.mpr ⟨id, hmem, (heq id).mpr rfl⟩
    rw [hrun] at hj
    cases hj

/-- In a sorted list the ids from zero down come first. -/
theorem pairwise_nonpos (h : ids.Pairwise OsmLt) :
    ids.Pairwise fun x y => decide (y ≤ 0) = true → decide (x ≤ 0) = true := by
  refine h.imp fun {x y} hxy hy => ?_
  simp only [decide_eq_true_eq, Int64.le_iff_toInt_le, Int64.toInt_zero] at hy ⊢
  have hlt := (osmIdKey_lt_iff x y).mp hxy
  omega

lemma take_positiveFrom (h : ids.Pairwise OsmLt) :
    ids.take (positiveFrom ids) = ids.filter fun id => decide (id ≤ 0) := by
  rw [positiveFrom, Bisect.partitionPoint_eq (pairwise_nonpos h)]
  exact (take_partitionPoint _ _).trans (OrderedMerge.takeWhile_eq_filter (pairwise_nonpos h))

lemma drop_positiveFrom (h : ids.Pairwise OsmLt) :
    ids.drop (positiveFrom ids) = ids.filter fun id => !decide (id ≤ 0) := by
  rw [positiveFrom, Bisect.partitionPoint_eq (pairwise_nonpos h)]
  exact (drop_partitionPoint _ _).trans (OrderedMerge.dropWhile_eq_filter (pairwise_nonpos h))

/-- The positive part is searched by number, the rest in the order of the list. -/
theorem find_spec (h : ids.Pairwise OsmLt) (id : Int64) :
    (∀ i, find ids (positiveFrom ids) id = some i → ids[i]? = some id) ∧
      (find ids (positiveFrom ids) id = none → id ∉ ids) := by
  unfold find
  split
  · next hpos =>
    have hsorted : (ids.drop (positiveFrom ids)).Pairwise fun x y => x.toInt < y.toInt := by
      rw [drop_positiveFrom h]
      refine (h.sublist filter_sublist).imp_of_mem fun {x y} hx hy hxy => ?_
      have hxpos := (mem_filter.mp hx).2
      have hypos := (mem_filter.mp hy).2
      simp only [Bool.not_eq_true', decide_eq_false_iff_not, Int64.le_iff_toInt_le,
        Int64.toInt_zero] at hxpos hypos
      have hlt := (osmIdKey_lt_iff x y).mp hxy
      omega
    have hup : (ids.drop (positiveFrom ids)).Pairwise fun x y =>
        int64Cmp x id = .gt → int64Cmp y id = .gt := by
      refine hsorted.imp fun {x y} hxy hx => ?_
      rw [int64Cmp, compare_gt_iff_gt] at hx ⊢
      omega
    have hlow : (ids.drop (positiveFrom ids)).Pairwise fun x y =>
        int64Cmp y id = .lt → int64Cmp x id = .lt := by
      refine hsorted.imp fun {x y} hxy hy => ?_
      rw [int64Cmp, compare_lt_iff_lt] at hy ⊢
      omega
    have heq : ∀ x, int64Cmp x id = .eq ↔ x = id := by
      intro x
      rw [int64Cmp, compare_eq_iff_eq, Int64.toInt_inj]
    obtain ⟨hfound, hmiss⟩ := search_spec hup hlow heq
    constructor
    · intro i hi
      obtain ⟨j, hj, rfl⟩ := Option.map_eq_some_iff.mp hi
      have hget := hfound j hj
      rw [getElem?_drop] at hget
      rw [Nat.add_comm, hget]
    · intro hnone hmem
      refine hmiss (Option.map_eq_none_iff.mp hnone) ?_
      rw [drop_positiveFrom h, mem_filter]
      refine ⟨hmem, ?_⟩
      simp only [Bool.not_eq_true', decide_eq_false_iff_not, Int64.not_le]
      exact hpos
  · next hneg =>
    have hsorted : (ids.take (positiveFrom ids)).Pairwise OsmLt :=
      h.sublist (take_sublist _ _)
    have hup : (ids.take (positiveFrom ids)).Pairwise fun x y =>
        osmIdCmp x id = .gt → osmIdCmp y id = .gt := by
      refine hsorted.imp fun {x y} hxy hx => ?_
      rw [osmIdCmp, compare_gt_iff_gt] at hx ⊢
      exact lt_trans hx hxy
    have hlow : (ids.take (positiveFrom ids)).Pairwise fun x y =>
        osmIdCmp y id = .lt → osmIdCmp x id = .lt := by
      refine hsorted.imp fun {x y} hxy hy => ?_
      rw [osmIdCmp, compare_lt_iff_lt] at hy ⊢
      exact lt_trans hxy hy
    have heq : ∀ x, osmIdCmp x id = .eq ↔ x = id := by
      intro x
      rw [osmIdCmp, compare_eq_iff_eq, osmIdKey_inj]
    obtain ⟨hfound, hmiss⟩ := search_spec hup hlow heq
    constructor
    · intro i hi
      have hget := hfound i hi
      rw [getElem?_take] at hget
      split at hget
      · exact hget
      · cases hget
    · intro hnone hmem
      refine hmiss hnone ?_
      rw [take_positiveFrom h, mem_filter]
      exact ⟨hmem, by simpa using Int64.not_lt.mp hneg⟩

end Search

section Filter

lemma trailingZeros_two_pow (k : Nat) : trailingZeros (2 ^ k) = k := by
  induction k with
  | zero => simp [trailingZeros]
  | succ k ih =>
    have heven : 2 ^ (k + 1) % 2 = 0 := by
      rw [Nat.pow_succ]
      exact Nat.mul_mod_left _ _
    have hhalf : 2 ^ (k + 1) / 2 = 2 ^ k := by
      rw [Nat.pow_succ]
      exact Nat.mul_div_cancel _ (by decide)
    have hne : 2 ^ (k + 1) ≠ 0 := (Nat.two_pow_pos _).ne'
    rw [trailingZeros, dif_neg hne, if_neg (by omega), hhalf, ih]

/-- The filter has a power of two of words. -/
theorem wordsLen_eq (keys : Nat) : ∃ k, wordsLen keys = 2 ^ k := by
  obtain ⟨j, hj⟩ := Nat.isPowerOfTwo_nextPowerOfTwo (keys * filterBitsPerKey)
  unfold wordsLen
  rw [hj]
  have hbits : (128 : Nat) = 2 ^ 7 := by decide
  rcases Nat.le_total j 7 with hle | hge
  · refine ⟨1, ?_⟩
    have hsmall : 2 ^ j ≤ 2 ^ 7 := Nat.pow_le_pow_right (by decide) hle
    rw [hbits, Nat.max_eq_right hsmall]
    decide
  · refine ⟨j - 6, ?_⟩
    have hlarge : 2 ^ 7 ≤ 2 ^ j := Nat.pow_le_pow_right (by decide) hge
    have hword : (64 : Nat) = 2 ^ 6 := by decide
    rw [hbits, Nat.max_eq_left hlarge, hword, Nat.pow_div (by omega) (by decide)]

/-- The top bits of a hash name a word of the filter. -/
theorem slotWord_lt (keys : Nat) (id : Int64) :
    slotWord (64 - trailingZeros (wordsLen keys)) id < wordsLen keys := by
  obtain ⟨k, hk⟩ := wordsLen_eq keys
  have hhash := (probeHash id).toNat_lt
  rw [slotWord, hk, trailingZeros_two_pow, Nat.shiftRight_eq_div_pow,
    Nat.div_lt_iff_lt_mul (Nat.two_pow_pos _), ← Nat.pow_add]
  exact hhash.trans_le (Nat.pow_le_pow_right (by decide) (by omega))

/-- A word of the filter has the bits of an id. -/
def Covers (shift : Nat) (words : List UInt64) (id : Int64) : Prop :=
  ∃ word, words[slotWord shift id]? = some word ∧ word &&& slotMask id = slotMask id

lemma or_and_self (word mask : UInt64) : (word ||| mask) &&& mask = mask := by
  apply UInt64.toBitVec_inj.mp
  ext i hi
  simp only [UInt64.toBitVec_and, UInt64.toBitVec_or, BitVec.getElem_and, BitVec.getElem_or]
  cases word.toBitVec[i] <;> cases mask.toBitVec[i] <;> rfl

lemma and_of_or {word more mask : UInt64} (h : word &&& mask = mask) :
    (word ||| more) &&& mask = mask := by
  rw [← h]
  apply UInt64.toBitVec_inj.mp
  ext i hi
  simp only [UInt64.toBitVec_and, UInt64.toBitVec_or, BitVec.getElem_and, BitVec.getElem_or]
  cases word.toBitVec[i] <;> cases mask.toBitVec[i] <;> simp

lemma covers_setBits {shift : Nat} {words : List UInt64} {id : Int64} (other : Int64)
    (h : Covers shift words id) : Covers shift (setBits shift words other) id := by
  obtain ⟨word, hword, hbits⟩ := h
  unfold Covers setBits
  rw [getElem?_modify, hword]
  by_cases hsame : slotWord shift other = slotWord shift id
  · exact ⟨word ||| slotMask other, by simp [hsame], and_of_or hbits⟩
  · exact ⟨word, by simp [hsame], hbits⟩

lemma covers_foldl {shift : Nat} (ids : List Int64) {words : List UInt64}
    (hroom : ∀ id ∈ ids, slotWord shift id < words.length) :
    ∀ id, id ∈ ids ∨ Covers shift words id → Covers shift (ids.foldl (setBits shift) words) id := by
  induction ids generalizing words with
  | nil =>
    rintro id (hmem | hcovers)
    · cases hmem
    · exact hcovers
  | cons x ids ih =>
    intro id hid
    rw [forall_mem_cons] at hroom
    have hlen : (setBits shift words x).length = words.length := length_modify _ _ _
    refine ih (by rw [hlen]; exact hroom.2) id ?_
    rcases hid with hmem | hcovers
    · rcases mem_cons.mp hmem with rfl | hmem
      · obtain ⟨word, hget⟩ : ∃ word, words[slotWord shift id]? = some word :=
          ⟨_, getElem?_eq_getElem hroom.1⟩
        refine .inr ⟨word ||| slotMask id, ?_, or_and_self _ _⟩
        rw [setBits, getElem?_modify, hget]
        simp
      · exact .inl hmem
    · exact .inr (covers_setBits x hcovers)

lemma admits_new {diff : SortedDiff} {id : Int64}
    (h : id ∈ (diff.kind .node).ids ∨ id ∈ (diff.kind .node).deleted) :
    (ProbeNodes.new diff).admits id = true := by
  let keys := (diff.kind .node).ids ++ (diff.kind .node).deleted
  let len := wordsLen ((diff.kind .node).ids.length + (diff.kind .node).deleted.length)
  have hroom : ∀ x ∈ keys, slotWord (64 - trailingZeros len) x <
      (replicate len (0 : UInt64)).length := by
    intro x _
    rw [length_replicate]
    exact slotWord_lt _ x
  obtain ⟨word, hword, hbits⟩ := covers_foldl keys hroom id (.inl (mem_append.mpr h))
  have hget : (ProbeNodes.new diff).words[slotWord (ProbeNodes.new diff).shift id]? = some word :=
    hword
  rw [ProbeNodes.admits, beq_iff_eq, getD_eq_getElem?_getD, hget]
  exact hbits

end Filter

/-- An upserted id gives its coordinate, a deleted one says so, any other is missed. -/
structure Answers (diff : SortedDiff) (get : Int64 → Option ProbeEntry) : Prop where
  upserted : ∀ i id, (diff.kind .node).ids[i]? = some id →
    get id = some (.upserted (nodeCoord ((diff.kind .node).record i)))
  deleted : ∀ id ∈ (diff.kind .node).deleted, get id = some .deleted
  missed : ∀ id, id ∉ (diff.kind .node).ids → id ∉ (diff.kind .node).deleted → get id = none

lemma lookup_new {diff : SortedDiff} (h : TableSorted (diff.kind .node)) :
    Answers diff (ProbeNodes.new diff).lookup := by
  have hmiss : ∀ id, id ∉ (diff.kind .node).ids →
      find (diff.kind .node).ids (positiveFrom (diff.kind .node).ids) id = none := by
    intro id hid
    cases hfind : find (diff.kind .node).ids (positiveFrom (diff.kind .node).ids) id with
    | none => rfl
    | some i => exact absurd (mem_of_getElem? ((find_spec h.ids id).1 i hfind)) hid
  constructor
  · intro i id hi
    have hmem := mem_of_getElem? hi
    cases hfind : find (diff.kind .node).ids (positiveFrom (diff.kind .node).ids) id with
    | none => exact absurd hmem ((find_spec h.ids id).2 hfind)
    | some j =>
      have hj := (find_spec h.ids id).1 j hfind
      have hnodup : (diff.kind .node).ids.Nodup := by
        refine h.ids.imp fun hlt => ?_
        rintro rfl
        exact lt_irrefl _ hlt
      have hlen := (List.getElem?_eq_some_iff.mp hi).1
      have hsame : i = j := (List.getElem?_inj hlen hnodup).mp (hi.trans hj.symm)
      subst hsame
      simp [ProbeNodes.lookup, ProbeNodes.new, hfind]
  · intro id hid
    have hnot : id ∉ (diff.kind .node).ids := fun hmem => h.disjoint id hmem hid
    cases hfind : find (diff.kind .node).deleted (positiveFrom (diff.kind .node).deleted) id with
    | none => exact absurd hid ((find_spec h.deleted id).2 hfind)
    | some j => simp [ProbeNodes.lookup, ProbeNodes.new, hmiss id hnot, hfind]
  · intro id hid hdel
    cases hfind : find (diff.kind .node).deleted (positiveFrom (diff.kind .node).deleted) id with
    | none => simp [ProbeNodes.lookup, ProbeNodes.new, hmiss id hid, hfind]
    | some j => exact absurd (mem_of_getElem? ((find_spec h.deleted id).1 j hfind)) hdel

lemma get_fromDiff {diff : SortedDiff} (h : TableSorted (diff.kind .node)) :
    Answers diff (Probe.fromDiff diff).get := by
  have hlookup := lookup_new h
  by_cases hany : (diff.kind .node).ids ≠ [] ∨ (diff.kind .node).deleted ≠ []
  · have hget : ∀ id, (Probe.fromDiff diff).get id =
        if (ProbeNodes.new diff).admits id then (ProbeNodes.new diff).lookup id else none := by
      intro id
      simp [Probe.fromDiff, Probe.get, hany]
    constructor
    · intro i id hi
      rw [hget, admits_new (.inl (mem_of_getElem? hi)), if_pos rfl, hlookup.upserted i id hi]
    · intro id hid
      rw [hget, admits_new (.inr hid), if_pos rfl, hlookup.deleted id hid]
    · intro id hid hdel
      rw [hget, hlookup.missed id hid hdel, ite_self]
  · rw [not_or, not_not, not_not] at hany
    constructor
    · intro i id hi
      rw [hany.1] at hi
      cases hi
    · intro id hid
      rw [hany.2] at hid
      cases hid
    · intro id _ _
      simp [Probe.fromDiff, Probe.get, hany.1, hany.2]

end StaleProbe
