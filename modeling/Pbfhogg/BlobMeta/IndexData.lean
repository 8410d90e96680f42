import Pbfhogg.BlobMeta
import Pbfhogg.Lib.LeBytes

/-!
# The indexdata of a blob header

`BlobIndex::serialize`, `BlobIndex::deserialize` and `classify_wire_indexdata` of
`blob_meta/mod.rs`. Readers hold the field in a carrier of 42 bytes, where a field of 26 bytes is
followed by zeros.
-/

namespace IndexData

open OsmId BlobMeta LeBytes List Option

def indexVersionV1 : UInt8 := 0x01
def indexVersionV2 : UInt8 := 0x02
def indexVersion : UInt8 := 0x03

def indexSizeV1 : Nat := 26
def indexSize : Nat := 42

variable (version : UInt8)

def versionSize : Option Nat :=
  if version = indexVersionV1 then some indexSizeV1
  else if version = indexVersionV2 ∨ version = indexVersion then some indexSize
  else none

def fromOrdinal (ordinal : UInt8) : Option ElementKind :=
  if ordinal = 0 then some .node
  else if ordinal = 1 then some .way
  else if ordinal = 2 then some .relation
  else none

/-- The box an index without one writes: the empty box. -/
def bboxAbsent : BlobBbox := ⟨Int32.maxValue, Int32.minValue, Int32.maxValue, Int32.minValue⟩

inductive WireIndexdata where
  | carrier (bytes : Bytes)
  | unrecognisedLength (len : Nat)
  | versionLengthMismatch

def classifyWireIndexdata (bytes : Bytes) : WireIndexdata :=
  let len := bytes.length
  if len ≠ indexSizeV1 ∧ len ≠ indexSize then .unrecognisedLength len
  else
    match bytes.head?.bind versionSize with
    | some declared =>
      if declared ≠ len then .versionLengthMismatch
      else .carrier (bytes ++ replicate (indexSize - len) 0)
    | none => .carrier (bytes ++ replicate (indexSize - len) 0)

def serialize (x : BlobIndex) : Bytes :=
  let bbox := x.bbox.getD bboxAbsent
  indexVersion :: UInt8.ofNat x.kind.ordinal ::
    (i64Le x.minId ++ (i64Le x.maxId ++ (leBytes 8 x.count ++
      (i32Le bbox.minLat ++ (i32Le bbox.maxLat ++ (i32Le bbox.minLon ++ i32Le bbox.maxLon))))))

def asI64 (n : Nat) : Int64 := Int64.ofBitVec (BitVec.ofNat 64 n)

def asI32 (n : Nat) : Int32 := Int32.ofBitVec (BitVec.ofNat 32 n)

def bboxWords (data : Bytes) : Option BlobBbox := do
  return ⟨asI32 (← leAt 4 data 26), asI32 (← leAt 4 data 30), asI32 (← leAt 4 data 34),
    asI32 (← leAt 4 data 38)⟩

/-- Version 2 spells absence with zeros, and an inverted box is absence in every version. -/
def absent (b : BlobBbox) : Bool :=
  (decide (version = indexVersionV2) && decide (b = ⟨0, 0, 0, 0⟩)) ||
    decide (b.maxLat < b.minLat) || decide (b.maxLon < b.minLon)

def readBbox (declared : Nat) (kind : ElementKind) (data : Bytes) :
    Option (Option BlobBbox) :=
  if declared = indexSize ∧ kind = .node then do
    let b ← bboxWords data
    return if absent version b then none else some b
  else some none

def deserialize (data : Bytes) : Option BlobIndex := do
  let version ← data.head?
  let declared ← versionSize version
  if data.length ≠ declared ∧ data.length ≠ indexSize then none
  else do
    let kind ← fromOrdinal (← data[1]?)
    let minId := asI64 (← leAt 8 data 2)
    let maxId := asI64 (← leAt 8 data 10)
    let count ← leAt 8 data 18
    if maxId < minId then none
    else do
      let bbox ← readBbox version declared kind data
      return ⟨kind, minId, maxId, count, bbox⟩

def WellFormed (b : BlobBbox) : Prop := b.minLat ≤ b.maxLat ∧ b.minLon ≤ b.maxLon

/-- No box, or a well-formed one on an index of nodes. -/
def BoxFits (x : BlobIndex) : Prop := ∀ b, x.bbox = some b → x.kind = .node ∧ WellFormed b

lemma asI64_toNat (x : Int64) : asI64 x.toBitVec.toNat = x := by simp [asI64]

lemma asI32_toNat (x : Int32) : asI32 x.toBitVec.toNat = x := by simp [asI32]

lemma fromOrdinal_ordinal (kind : ElementKind) :
    fromOrdinal (UInt8.ofNat kind.ordinal) = some kind := by
  cases kind <;> rfl

lemma length_serialize (x : BlobIndex) : (serialize x).length = indexSize := by
  simp [serialize, indexSize]

/-- The fields of a serialized index, each at its offset. -/
structure Laid (x : BlobIndex) (box : BlobBbox) (data : Bytes) : Prop where
  minId : leAt 8 data 2 = some x.minId.toBitVec.toNat
  maxId : leAt 8 data 10 = some x.maxId.toBitVec.toNat
  count : leAt 8 data 18 = some x.count
  words : bboxWords data = some box

variable {x : BlobIndex} {b : BlobBbox} {data : Bytes}

lemma laid_serialize (hcount : x.count < 2 ^ 64) :
    Laid x (x.bbox.getD bboxAbsent) (serialize x) := by
  have h64 : ∀ y : Int64, y.toBitVec.toNat < 256 ^ 8 := fun y => y.toBitVec.isLt
  have h32 : ∀ y : Int32, y.toBitVec.toNat < 256 ^ 4 := fun y => y.toBitVec.isLt
  -- Every field stands behind the two bytes and the fields before it.
  let head := [indexVersion, UInt8.ofNat x.kind.ordinal]
  let ids := head ++ i64Le x.minId ++ i64Le x.maxId
  let fixed := ids ++ leBytes 8 x.count
  let box := x.bbox.getD bboxAbsent
  have hmin : leAt 8 (serialize x) 2 = some x.minId.toBitVec.toNat :=
    leAt_append 8 _ (h64 x.minId) head _ 2 rfl
  have hmax : leAt 8 (serialize x) 10 = some x.maxId.toBitVec.toNat := by
    have h := leAt_append 8 _ (h64 x.maxId) (head ++ i64Le x.minId)
      (leBytes 8 x.count ++ (i32Le box.minLat ++ (i32Le box.maxLat ++
        (i32Le box.minLon ++ i32Le box.maxLon)))) 10 (by simp [head])
    simpa [serialize, head, i64Le] using h
  have hcnt : leAt 8 (serialize x) 18 = some x.count := by
    have h := leAt_append 8 x.count hcount ids (i32Le box.minLat ++ (i32Le box.maxLat ++
      (i32Le box.minLon ++ i32Le box.maxLon))) 18 (by simp [ids, head])
    simpa [serialize, ids, head] using h
  refine ⟨hmin, hmax, hcnt, ?_⟩
  have hw0 : leAt 4 (serialize x) 26 = some box.minLat.toBitVec.toNat := by
    have h := leAt_append 4 _ (h32 box.minLat) fixed (i32Le box.maxLat ++
      (i32Le box.minLon ++ i32Le box.maxLon)) 26 (by simp [fixed, ids, head])
    simpa [serialize, fixed, ids, head, i32Le] using h
  have hw1 : leAt 4 (serialize x) 30 = some box.maxLat.toBitVec.toNat := by
    have h := leAt_append 4 _ (h32 box.maxLat) (fixed ++ i32Le box.minLat)
      (i32Le box.minLon ++ i32Le box.maxLon) 30 (by simp [fixed, ids, head])
    simpa [serialize, fixed, ids, head, i32Le] using h
  have hw2 : leAt 4 (serialize x) 34 = some box.minLon.toBitVec.toNat := by
    have h := leAt_append 4 _ (h32 box.minLon) (fixed ++ i32Le box.minLat ++ i32Le box.maxLat)
      (i32Le box.maxLon) 34 (by simp [fixed, ids, head])
    simpa [serialize, fixed, ids, head, i32Le] using h
  have hw3 : leAt 4 (serialize x) 38 = some box.maxLon.toBitVec.toNat := by
    have h := leAt_append 4 _ (h32 box.maxLon)
      (fixed ++ i32Le box.minLat ++ i32Le box.maxLat ++ i32Le box.minLon) [] 38
      (by simp [fixed, ids, head])
    simpa [serialize, fixed, ids, head, i32Le] using h
  simp only [bboxWords, hw0, hw1, hw2, hw3, Option.pure_def, Option.bind_eq_bind,
    Option.bind_some, asI32_toNat]
  rfl

lemma not_absent_of_wellFormed (h : WellFormed b) : absent indexVersion b = false := by
  have hlat : ¬ b.maxLat < b.minLat := by
    rw [Int32.lt_iff_toInt_lt, not_lt]
    exact Int32.le_iff_toInt_le.mp h.1
  have hlon : ¬ b.maxLon < b.minLon := by
    rw [Int32.lt_iff_toInt_lt, not_lt]
    exact Int32.le_iff_toInt_le.mp h.2
  have hver : indexVersion ≠ indexVersionV2 := by decide
  simp [absent, hlat, hlon, hver]

lemma readBbox_serialize (hcount : x.count < 2 ^ 64) (hfits : BoxFits x) :
    readBbox indexVersion indexSize x.kind (serialize x) = some x.bbox := by
  have hwords := (laid_serialize hcount).words
  unfold readBbox
  cases hbox : x.bbox with
  | none =>
    rw [hbox, getD_none] at hwords
    split
    · have habsent : absent indexVersion bboxAbsent = true := by decide
      rw [hwords, Option.pure_def, Option.bind_eq_bind, Option.bind_some, habsent]
      rfl
    · rfl
  | some b =>
    obtain ⟨hkind, hwell⟩ := hfits b hbox
    rw [hbox, getD_some] at hwords
    rw [if_pos ⟨rfl, hkind⟩, hwords, Option.pure_def, Option.bind_eq_bind, Option.bind_some,
      not_absent_of_wellFormed hwell]
    rfl

lemma deserialize_serialize (hrange : x.minId ≤ x.maxId) (hcount : x.count < 2 ^ 64)
    (hfits : BoxFits x) : deserialize (serialize x) = some x := by
  have hlaid := laid_serialize hcount
  have hhead : (serialize x).head? = some indexVersion := rfl
  have hone : (serialize x)[1]? = some (UInt8.ofNat x.kind.ordinal) := rfl
  have hsize : versionSize indexVersion = some indexSize := by decide
  have hnot : ¬ x.maxId < x.minId := by
    rw [Int64.lt_iff_toInt_lt, not_lt]
    exact Int64.le_iff_toInt_le.mp hrange
  simp only [deserialize, hhead, hone, hsize, length_serialize, fromOrdinal_ordinal, hlaid.minId,
    hlaid.maxId, hlaid.count, readBbox_serialize hcount hfits, asI64_toNat, bind_eq_bind,
    bind_some, ne_eq, not_true_eq_false, and_self, if_false, if_neg hnot]
  rfl

/-- The box is the four words that the bytes hold behind the count. -/
structure ReadFrom (data : Bytes) (b : BlobBbox) : Prop where
  long : indexSize ≤ data.length
  minLat : b.minLat = readI32Le data 26
  maxLat : b.maxLat = readI32Le data 30
  minLon : b.minLon = readI32Le data 34
  maxLon : b.maxLon = readI32Le data 38

lemma bboxWords_eq_some (h : bboxWords data = some b) : ReadFrom data b := by
  have hlong : indexSize ≤ data.length := by
    by_contra hshort
    have hnone : leAt 4 data 38 = none := if_neg (by rw [indexSize] at hshort; omega)
    simp only [bboxWords, hnone, Option.pure_def, Option.bind_eq_bind, Option.bind_none,
      Option.bind_eq_some_iff] at h
    obtain ⟨_, _, _, _, _, _, hbad⟩ := h
    cases hbad
  have hword : ∀ n, n ≤ 38 → leAt 4 data n = some (readLe 4 data n) := by
    intro n hn
    rw [indexSize] at hlong
    exact leAt_eq (by omega)
  rw [bboxWords, hword 26 (by omega), hword 30 (by omega), hword 34 (by omega),
    hword 38 (by omega)] at h
  cases h
  exact ⟨hlong, rfl, rfl, rfl, rfl⟩

lemma readBbox_eq_some {version : UInt8} {declared : Nat} {kind : ElementKind}
    (h : readBbox version declared kind data = some (some b)) :
    declared = indexSize ∧ ReadFrom data b ∧ absent version b = false := by
  unfold readBbox at h
  split at h
  · rename_i hnode
    obtain ⟨b', hb', h⟩ := bind_eq_some_iff.mp h
    cases habsent : absent version b' with
    | true =>
      rw [habsent] at h
      cases h
    | false =>
      rw [habsent] at h
      cases h
      exact ⟨hnode.1, bboxWords_eq_some hb', habsent⟩
  · cases h

lemma deserialize_eq_some (h : deserialize data = some x) :
    ∃ version declared, data.head? = some version ∧ versionSize version = some declared ∧
      (data.length = declared ∨ data.length = indexSize) ∧ ¬ x.maxId < x.minId ∧
      readBbox version declared x.kind data = some x.bbox := by
  unfold deserialize at h
  obtain ⟨version, hversion, h⟩ := bind_eq_some_iff.mp h
  obtain ⟨declared, hdeclared, h⟩ := bind_eq_some_iff.mp h
  split at h
  · cases h
  rename_i hlen
  obtain ⟨ordinal, -, h⟩ := bind_eq_some_iff.mp h
  obtain ⟨kind, -, h⟩ := bind_eq_some_iff.mp h
  obtain ⟨low, -, h⟩ := bind_eq_some_iff.mp h
  obtain ⟨high, -, h⟩ := bind_eq_some_iff.mp h
  obtain ⟨count, -, h⟩ := bind_eq_some_iff.mp h
  split at h
  · cases h
  rename_i hrange
  obtain ⟨bbox, hbbox, h⟩ := bind_eq_some_iff.mp h
  cases h
  refine ⟨version, declared, hversion, hdeclared, ?_, hrange, hbbox⟩
  by_contra hnot
  push Not at hnot
  exact hlen hnot

lemma wellFormed_of_not_absent {version : UInt8} (h : absent version b = false) :
    WellFormed b := by
  simp only [absent, Bool.or_eq_false_iff, decide_eq_false_iff_not] at h
  rw [Int32.lt_iff_toInt_lt, Int32.lt_iff_toInt_lt, not_lt, not_lt] at h
  exact ⟨Int32.le_iff_toInt_le.mpr h.1.2, Int32.le_iff_toInt_le.mpr h.2⟩

/-- A carrier is the field, padded only where the version declares the short length or is none
that is read. -/
theorem carrier_cases {field carrier : Bytes}
    (h : classifyWireIndexdata field = .carrier carrier) :
    (field.length = indexSize ∧ carrier = field) ∨
      (field.length = indexSizeV1 ∧ carrier = field ++ replicate 16 0 ∧
        ∀ version, field.head? = some version → versionSize version = none ∨
          versionSize version = some indexSizeV1) := by
  unfold classifyWireIndexdata at h
  simp only [] at h
  split at h
  · cases h
  rename_i hlen
  have hlen : field.length = indexSizeV1 ∨ field.length = indexSize := by
    by_contra hnot
    push Not at hnot
    exact hlen hnot
  have hcarrier : carrier = field ++ replicate (indexSize - field.length) 0 ∧
      ∀ declared, field.head?.bind versionSize = some declared → declared = field.length := by
    split at h
    · rename_i declared hdeclared
      split at h
      · cases h
      · rename_i hsame
        cases h
        refine ⟨rfl, fun d hd => ?_⟩
        rw [hdeclared] at hd
        cases hd
        exact not_not.mp hsame
    · rename_i hnone
      cases h
      refine ⟨rfl, fun d hd => ?_⟩
      rw [hnone] at hd
      cases hd
  obtain ⟨rfl, hdeclared⟩ := hcarrier
  rcases hlen with hlen | hlen
  · refine .inr ⟨hlen, by rw [hlen]; rfl, fun version hversion => ?_⟩
    cases hsize : versionSize version with
    | none => exact .inl rfl
    | some declared =>
      have := hdeclared declared (by rw [hversion]; exact hsize)
      exact .inr (by rw [this, hlen])
  · exact .inl ⟨hlen, by rw [hlen]; simp⟩

/-- The short field reads alike with the padding behind it. -/
theorem deserialize_padded {field : Bytes} (hlen : field.length = indexSizeV1)
    (hversion : ∀ version, field.head? = some version → versionSize version = none ∨
      versionSize version = some indexSizeV1) (post : Bytes)
    (hpost : (field ++ post).length = indexSize) :
    deserialize (field ++ post) = deserialize field := by
  obtain ⟨version, rest, rfl⟩ : ∃ version rest, field = version :: rest := by
    cases field with
    | nil => cases hlen
    | cons version rest => exact ⟨version, rest, rfl⟩
  have hread : ∀ n, n + 8 ≤ indexSizeV1 →
      leAt 8 (version :: rest ++ post) n = leAt 8 (version :: rest) n := by
    intro n hn
    exact leAt_inside 8 (by omega) post
  have hone : (version :: rest ++ post)[1]? = (version :: rest)[1]? := by
    rw [getElem?_append_left]
    rw [hlen, indexSizeV1]
    omega
  unfold deserialize
  rw [hread 2 (by decide), hread 10 (by decide), hread 18 (by decide), hone, hpost, hlen]
  change (versionSize version).bind _ = (versionSize version).bind _
  rcases hversion version rfl with hsize | hsize
  · rw [hsize]
    rfl
  · rw [hsize, bind_some, bind_some, if_neg (by simp), if_neg (by simp)]
    -- Only the short version is left, and it reads no box.
    have hbox : ∀ kind data, readBbox version indexSizeV1 kind data = some none := by
      intro kind data
      exact if_neg (by simp [indexSizeV1, indexSize])
    simp only [hbox]

/-- An index survives the write, a carrier reads as its field does and takes no box from the
padding, and nothing inverted is ever read. -/
theorem indexdata_carrier_lossless :
    (∀ x : BlobIndex, x.minId ≤ x.maxId → x.count < 2 ^ 64 → BoxFits x →
        deserialize (serialize x) = some x) ∧
      (∀ field carrier, classifyWireIndexdata field = .carrier carrier →
        deserialize carrier = deserialize field ∧
          ∀ x b, deserialize carrier = some x → x.bbox = some b → ReadFrom field b) ∧
      ∀ data x, deserialize data = some x →
        x.minId ≤ x.maxId ∧ ∀ b, x.bbox = some b → WellFormed b := by
  refine ⟨fun x => deserialize_serialize, ?_, ?_⟩
  · intro field carrier h
    have hsame : deserialize carrier = deserialize field := by
      rcases carrier_cases h with ⟨-, rfl⟩ | ⟨hlen, rfl, hversion⟩
      · rfl
      · refine deserialize_padded hlen hversion _ ?_
        rw [length_append, hlen, length_replicate]
        rfl
    refine ⟨hsame, fun x b hx hb => ?_⟩
    rw [hsame] at hx
    obtain ⟨version, declared, -, -, -, -, hbox⟩ := deserialize_eq_some hx
    rw [hb] at hbox
    exact (readBbox_eq_some hbox).2.1
  · intro data x h
    obtain ⟨version, declared, -, -, -, hrange, hbox⟩ := deserialize_eq_some h
    constructor
    · rw [Int64.lt_iff_toInt_lt, not_lt] at hrange
      exact Int64.le_iff_toInt_le.mpr hrange
    · intro b hb
      rw [hb] at hbox
      exact wellFormed_of_not_absent (readBbox_eq_some hbox).2.2

end IndexData
