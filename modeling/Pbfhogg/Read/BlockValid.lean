import Pbfhogg.OsmId
import Pbfhogg.Read.BlockScan
import Pbfhogg.Read.PackedCount

/-!
# The validation of a block

`validate_groups` and the checks below it: the framing of every group, a parse of every element and
its metadata, the packed arrays, and the lengths of arrays read in step. What it accepts every later
walk gets through.
-/

namespace BlockValid

open OsmId Protohoggr FieldWalk WireMessages PackedCount BlockScan Fallible Varint List

variable {data element bytes : Bytes} {kinds : KindSet} {block : PrimitiveBlock}

/-- The element kinds a block holds. -/
structure KindSet where
  node : Bool := false
  way : Bool := false
  relation : Bool := false

namespace KindSet

def add (s : KindSet) : ElementKind → KindSet
  | .node => { s with node := true }
  | .way => { s with way := true }
  | .relation => { s with relation := true }

def union (s t : KindSet) : KindSet :=
  ⟨s.node || t.node, s.way || t.way, s.relation || t.relation⟩

def has (s : KindSet) : ElementKind → Bool
  | .node => s.node
  | .way => s.way
  | .relation => s.relation

@[simp] lemma has_default (k : ElementKind) : has {} k = false := by
  cases k <;> rfl

@[simp] lemma has_union (s t : KindSet) (k : ElementKind) :
    (s.union t).has k = (s.has k || t.has k) := by
  cases k <;> rfl

end KindSet

def refuseIf (P : Prop) [Decidable P] (msg : String) : Except Error Unit :=
  if P then .error (newWireError msg) else .ok ()

lemma refuseIf_eq_ok {P : Prop} [Decidable P] {msg : String} {u : Unit} :
    refuseIf P msg = .ok u ↔ ¬P := by
  unfold refuseIf
  split <;> simp [*]

section Checks

variable (ph : Crate)

def validateInfo (infoData : Option Bytes) : Except Error (Option WireInfo) :=
  match infoData with
  | none => .ok none
  | some data => (WireInfo.parse ph data).map some

def validateTagArrays (keysData valsData : Bytes) (mismatch : String) : Except Error Unit := do
  let keys ← packedUint32Count keysData
  let vals ← packedUint32Count valsData
  refuseIf (keys ≠ vals) mismatch

def validateWayGeometryArrays (way : WireWay) : Except Error Unit := do
  let refs ← packedVarintCount way.refsData
  let lats ← packedVarintCount way.latData
  let lons ← packedVarintCount way.lonData
  if lats = 0 ∧ lons = 0 then .ok ()
  else do
    refuseIf (lats ≠ lons) "way has mismatched lat/lon node-location array lengths"
    refuseIf (lats ≠ refs)
      "way has a node-location count that disagrees with its node-reference count"

def validateRelationMemberArrays (relation : WireRelation) : Except Error Unit := do
  let roles ← packedVarintCount relation.rolesSidData
  let memids ← packedVarintCount relation.memidsData
  let types ← packedVarintCount relation.typesData
  refuseIf (roles ≠ memids ∨ roles ≠ types)
    "relation has mismatched roles_sid/memids/types member array lengths"

/-- The walk over the tag runs; each turn consumes at least one byte. -/
def keysValsFuel : Nat → Nat → Bool → Bytes → Except Error (Nat × Bool)
  | 0, runs, inRun, _ => .ok (runs, inRun)
  | _ + 1, runs, inRun, [] => .ok (runs, inRun)
  | fuel + 1, runs, _, b :: bs =>
    match ph.readVarint (b :: bs) with
    | .error e => .error e
    | .ok (key, cur) =>
      if 0x7fffffff < key then .error (newWireError "dense tag string index exceeds int32")
      else if key = 0 then keysValsFuel fuel (runs + 1) false cur
      else if cur = [] then
        .error (newWireError "dense keys_vals ends with a key that has no value")
      else
        match ph.readVarint cur with
        | .error e => .error e
        | .ok (val, rest) =>
          if 0x7fffffff < val then .error (newWireError "dense tag string index exceeds int32")
          else keysValsFuel fuel runs true rest

def validateDenseKeysVals (keysValsData : Bytes) (nodeCount : Nat) : Except Error Unit :=
  if keysValsData = [] then .ok ()
  else do
    let (runs, inRun) ← keysValsFuel ph keysValsData.length 0 false keysValsData
    refuseIf ((if inRun then runs + 1 else runs) ≠ nodeCount)
      "dense keys_vals describes a different number of nodes than the id array"

/-- One of the five core arrays: whether it is present, at full length. -/
def coreArray (nodeCount : Nat) (data : Bytes) : Except Error Nat := do
  let count ← packedVarintCount data
  if count = 0 then .ok 0
  else do
    refuseIf (count ≠ nodeCount) "dense denseinfo array length does not match the id array"
    return 1

def denseInfoCore (info : WireDenseInfo) : List Bytes :=
  [info.versionData, info.timestampData, info.changesetData, info.uidData, info.userSidData]

def validateDenseInfoArrays (infoData : Bytes) (nodeCount : Nat) :
    Except Error (Option WireDenseInfo) := do
  let info ← WireDenseInfo.parse ph infoData
  let present := (← (denseInfoCore info).mapM (coreArray nodeCount)).sum
  let visible ← packedVarintCount info.visibleData
  refuseIf (visible ≠ 0 ∧ visible ≠ nodeCount)
    "dense denseinfo visible array length does not match the id array"
  refuseIf (present ≠ 0 ∧ present ≠ (denseInfoCore info).length)
    "dense denseinfo has some but not all of its parallel arrays"
  refuseIf (present = 0 ∧ visible ≠ 0)
    "dense denseinfo has a visible array but no metadata arrays"
  return if present = (denseInfoCore info).length then some info else none

/-- The dense metadata, if there is any. -/
def validateDenseInfo (infoData : Option Bytes) (nodeCount : Nat) :
    Except Error (Option WireDenseInfo) :=
  match infoData with
  | some data => validateDenseInfoArrays ph data nodeCount
  | none => .ok none

def validateNode (element : Bytes) : Except Error Unit := do
  let node ← WireNode.parse ph element
  let _ ← validateInfo ph node.infoData
  validateTagArrays node.keysData node.valsData "node has mismatched keys/vals tag array lengths"

def validateWay (element : Bytes) : Except Error Unit := do
  let way ← WireWay.parse ph element
  let _ ← validateInfo ph way.infoData
  validateTagArrays way.keysData way.valsData "way has mismatched keys/vals tag array lengths"
  validateWayGeometryArrays way

def validateRelation (element : Bytes) : Except Error Unit := do
  let relation ← WireRelation.parse ph element
  let _ ← validateInfo ph relation.infoData
  validateTagArrays relation.keysData relation.valsData
    "relation has mismatched keys/vals tag array lengths"
  validateRelationMemberArrays relation

/-- The dense message of a group: how many ids it holds. -/
def validateDense (denseData : Bytes) : Except Error Nat := do
  let dense ← WireDenseNodes.parse ph denseData
  let ids ← packedVarintCount dense.idData
  let lats ← packedVarintCount dense.latData
  let lons ← packedVarintCount dense.lonData
  refuseIf (ids ≠ lats ∨ ids ≠ lons) "dense group has mismatched id/lat/lon array lengths"
  validateDenseKeysVals ph dense.keysValsData ids
  let _ ← validateDenseInfo ph dense.infoData ids
  return ids

/-- One group: the kinds and the number of its elements. -/
def validateGroup (data : Bytes) : Except Error (KindSet × Nat) := do
  framing ph data
  let nodes := messages ph 1 data
  let ways := messages ph 3 data
  let relations := messages ph 4 data
  nodes.forM (validateNode ph)
  ways.forM (validateWay ph)
  relations.forM (validateRelation ph)
  let dense ← groupDense ph data
  let ids ← dense.elim (.ok 0) (validateDense ph)
  let kinds : KindSet :=
    { node := !nodes.isEmpty || decide (0 < ids)
      way := !ways.isEmpty
      relation := !relations.isEmpty }
  return (kinds, nodes.length + ways.length + relations.length + ids)

def validateGroups (groups : List Bytes) : Except Error (KindSet × Nat) :=
  groups.foldlM (fun acc data => do
    let (kinds, count) ← validateGroup ph data
    return (acc.1.union kinds, acc.2 + count)) ({}, 0)

end Checks

/-- `std::str::from_utf8` accepts the bytes. -/
def isUtf8 (raw : Bytes) : Bool := ByteArray.validateUTF8 ⟨raw.toArray⟩

/-- The first entry that is not UTF-8 is refused, by index. -/
def validateStringtableUtf8 (entries : List Bytes) : Except Error Unit :=
  match entries.findIdx? fun raw => !isUtf8 raw with
  | some index => .error (.stringtableUtf8 index)
  | none => .ok ()

/-- `PrimitiveBlock`. -/
structure PrimitiveBlock where
  block : WireBlock
  kinds : KindSet
  elementCount : Nat

/-- `PrimitiveBlock::from_vec`. Validation slices the bytes by the recorded positions, whose
words never reach past the bytes they were taken from. -/
def fromVec (ph : Crate) (buffer : Bytes) : Except Error PrimitiveBlock := do
  let scan ← scanBlockFields ph buffer
  let slice : Position → Bytes := fun p => sliceAt buffer p.1.toNat p.2.toNat
  let (kinds, count) ← validateGroups ph (scan.groupEntries.map slice)
  validateStringtableUtf8 (scan.stEntries.map slice)
  return ⟨inlineTables buffer scan.stEntries scan.groupEntries scan.fields, kinds, count⟩

section Accepted

variable {ph : Crate}

/-- Reading the runs of a `keys_vals` array to its end meets no malformed varint and no key
without a value. -/
inductive Runs (ph : Crate) : Bytes → Prop
  | nil : Runs ph []
  | stop {data rest : Bytes} : ph.readVarint data = .ok (0, rest) → Runs ph rest → Runs ph data
  | pair {data cur rest : Bytes} {key val : Nat} : ph.readVarint data = .ok (key, cur) →
      key ≠ 0 → ph.readVarint cur = .ok (val, rest) → Runs ph rest → Runs ph data

lemma readVarint_shrinks {rest : Bytes} {v : Nat} (h : ph.readVarint data = .ok (v, rest)) :
    rest.length < data.length :=
  decode_length_lt (ph.readVarint_ok.mp h)

lemma runs_of_keysValsFuel {fuel runs : Nat} {inRun : Bool} {out : Nat × Bool}
    (hfuel : data.length ≤ fuel) (h : keysValsFuel ph fuel runs inRun data = .ok out) :
    Runs ph data := by
  induction fuel generalizing runs inRun data with
  | zero =>
    have hnil : data = [] := length_eq_zero_iff.mp (by omega)
    rw [hnil]
    exact .nil
  | succ fuel ih =>
    cases data with
    | nil => exact .nil
    | cons b bs =>
      rw [keysValsFuel] at h
      split at h
      · cases h
      · next key cur hkey =>
        have hcur := readVarint_shrinks hkey
        split at h
        · cases h
        · split at h
          · next hzero =>
            subst hzero
            exact .stop hkey (ih (by omega) h)
          · next hne =>
            split at h
            · cases h
            · split at h
              · cases h
              · next val rest hval =>
                have hrest := readVarint_shrinks hval
                split at h
                · cases h
                · exact .pair hkey hne hval (ih (by omega) h)

lemma runs_of_validateDenseKeysVals {n : Nat} (h : validateDenseKeysVals ph data n = .ok ()) :
    Runs ph data := by
  unfold validateDenseKeysVals at h
  split at h
  · next hnil =>
    rw [hnil]
    exact .nil
  · obtain ⟨out, hout, -⟩ := bind_eq_ok.mp h
    exact runs_of_keysValsFuel (Nat.le_refl _) hout

/-- A dense message that every walk over it gets through. -/
structure DenseOk (ph : Crate) (dense : WireDenseNodes) (ids lats lons : List Nat) : Prop where
  idValues : Values dense.idData ids
  latValues : Values dense.latData lats
  lonValues : Values dense.lonData lons
  lat_length : lats.length = ids.length
  lon_length : lons.length = ids.length
  runs : Runs ph dense.keysValsData
  info : ∀ data ∈ dense.infoData, ∃ info, WireDenseInfo.parse ph data = .ok info

lemma validateDense_ok {denseData : Bytes} {n : Nat}
    (h : validateDense ph denseData = .ok n) :
    ∃ dense ids lats lons, WireDenseNodes.parse ph denseData = .ok dense ∧
      DenseOk ph dense ids lats lons ∧ ids.length = n ∧
      validateDenseKeysVals ph dense.keysValsData n = .ok () ∧
      ∃ info, validateDenseInfo ph dense.infoData n = .ok info := by
  unfold validateDense at h
  obtain ⟨dense, hparse, h⟩ := bind_eq_ok.mp h
  obtain ⟨_, hids, h⟩ := bind_eq_ok.mp h
  obtain ⟨_, hlats, h⟩ := bind_eq_ok.mp h
  obtain ⟨_, hlons, h⟩ := bind_eq_ok.mp h
  obtain ⟨_, hlength, h⟩ := bind_eq_ok.mp h
  obtain ⟨_, hruns, h⟩ := bind_eq_ok.mp h
  obtain ⟨info, hinfo, h⟩ := bind_eq_ok.mp h
  cases h
  obtain ⟨ids, hidv, rfl⟩ := packedVarintCount_ok_iff.mp hids
  obtain ⟨lats, hlatv, rfl⟩ := packedVarintCount_ok_iff.mp hlats
  obtain ⟨lons, hlonv, rfl⟩ := packedVarintCount_ok_iff.mp hlons
  have hsame := refuseIf_eq_ok.mp hlength
  refine ⟨dense, ids, lats, lons, hparse, ⟨hidv, hlatv, hlonv, by omega, by omega,
    runs_of_validateDenseKeysVals hruns, ?_⟩, rfl, hruns, info, hinfo⟩
  intro data hdata
  rw [Option.mem_def] at hdata
  rw [hdata] at hinfo
  obtain ⟨info, hparse, -⟩ := bind_eq_ok.mp hinfo
  exact ⟨info, hparse⟩

/-- Tag arrays that end together, of indices that fit `u32`. -/
structure TagsOk (keysData valsData : Bytes) (keys vals : List Nat) : Prop where
  keyValues : Values keysData keys
  valValues : Values valsData vals
  length : keys.length = vals.length
  keys_lt : ∀ k ∈ keys, k < 2 ^ 32
  vals_lt : ∀ v ∈ vals, v < 2 ^ 32

lemma validateTagArrays_ok {keysData valsData : Bytes} {msg : String}
    (h : validateTagArrays keysData valsData msg = .ok ()) :
    ∃ keys vals, TagsOk keysData valsData keys vals := by
  obtain ⟨_, hkeys, h⟩ := bind_eq_ok.mp h
  obtain ⟨_, hvals, h⟩ := bind_eq_ok.mp h
  obtain ⟨keys, hkeyv, rfl, hk⟩ := packedUint32Count_ok hkeys
  obtain ⟨vals, hvalv, rfl, hv⟩ := packedUint32Count_ok hvals
  exact ⟨keys, vals, hkeyv, hvalv, Decidable.not_not.mp (refuseIf_eq_ok.mp h), hk, hv⟩

lemma validateNode_ok (h : validateNode ph element = .ok ()) :
    ∃ node, WireNode.parse ph element = .ok node := by
  obtain ⟨node, hnode, -⟩ := bind_eq_ok.mp h
  exact ⟨node, hnode⟩

/-- A way whose references and locations every walk gets through. -/
structure WayOk (way : WireWay) (refs lats lons : List Nat) : Prop where
  refValues : Values way.refsData refs
  latValues : Values way.latData lats
  lonValues : Values way.lonData lons
  lat_length : lats.length = lons.length
  ref_length : lats ≠ [] → lats.length = refs.length

lemma validateWayGeometryArrays_ok {way : WireWay}
    (h : validateWayGeometryArrays way = .ok ()) : ∃ refs lats lons, WayOk way refs lats lons := by
  obtain ⟨_, hrefs, h⟩ := bind_eq_ok.mp h
  obtain ⟨_, hlats, h⟩ := bind_eq_ok.mp h
  obtain ⟨_, hlons, h⟩ := bind_eq_ok.mp h
  obtain ⟨refs, hrefv, rfl⟩ := packedVarintCount_ok_iff.mp hrefs
  obtain ⟨lats, hlatv, rfl⟩ := packedVarintCount_ok_iff.mp hlats
  obtain ⟨lons, hlonv, rfl⟩ := packedVarintCount_ok_iff.mp hlons
  refine ⟨refs, lats, lons, ?_⟩
  split at h
  · next hnone =>
    refine ⟨hrefv, hlatv, hlonv, by omega, ?_⟩
    intro hne
    exact absurd (length_eq_zero_iff.mp hnone.1) hne
  · obtain ⟨_, hlatlon, hlatref⟩ := bind_eq_ok.mp h
    have hpair := refuseIf_eq_ok.mp hlatlon
    have hrun := refuseIf_eq_ok.mp hlatref
    exact ⟨hrefv, hlatv, hlonv, by omega, fun _ => by omega⟩

lemma validateWay_ok (h : validateWay ph element = .ok ()) :
    ∃ way, WireWay.parse ph element = .ok way ∧
      (∃ keys vals, TagsOk way.keysData way.valsData keys vals) ∧
      ∃ refs lats lons, WayOk way refs lats lons := by
  obtain ⟨way, hway, h⟩ := bind_eq_ok.mp h
  obtain ⟨_, -, h⟩ := bind_eq_ok.mp h
  obtain ⟨_, htags, h⟩ := bind_eq_ok.mp h
  exact ⟨way, hway, validateTagArrays_ok htags, validateWayGeometryArrays_ok h⟩

lemma validateRelation_ok (h : validateRelation ph element = .ok ()) :
    ∃ relation, WireRelation.parse ph element = .ok relation := by
  obtain ⟨relation, hrelation, -⟩ := bind_eq_ok.mp h
  exact ⟨relation, hrelation⟩

lemma forM_ok {α : Type} {f : α → Except Error Unit} {xs : List α}
    (h : xs.forM f = .ok ()) : ∀ x ∈ xs, f x = .ok () := by
  induction xs with
  | nil => nofun
  | cons x xs ih =>
    obtain ⟨_, hx, hxs⟩ := bind_eq_ok.mp h
    rw [forall_mem_cons]
    exact ⟨hx, ih hxs⟩

/-- The dense message of a validated group. -/
inductive DenseMessage (ph : Crate) : Option Bytes → Nat → Prop
  | none : DenseMessage ph none 0
  | some {denseData : Bytes} {dense : WireDenseNodes} {ids lats lons : List Nat} :
      WireDenseNodes.parse ph denseData = .ok dense → DenseOk ph dense ids lats lons →
      DenseMessage ph (some denseData) ids.length

/-- A group that every walk over it gets through. -/
structure GroupOk (ph : Crate) (data : Bytes) (kinds : KindSet) (count : Nat) : Prop where
  framed : ∃ fs, Fields ph.reader data fs
  nodes : ∀ d ∈ messages ph 1 data, ∃ node, WireNode.parse ph d = .ok node
  ways : ∀ d ∈ messages ph 3 data, ∃ way, WireWay.parse ph d = .ok way ∧
    (∃ keys vals, TagsOk way.keysData way.valsData keys vals) ∧
      ∃ refs lats lons, WayOk way refs lats lons
  relations : ∀ d ∈ messages ph 4 data, ∃ relation, WireRelation.parse ph d = .ok relation
  dense : ∃ dense ids, groupDense ph data = .ok dense ∧ DenseMessage ph dense ids ∧
    count = (messages ph 1 data).length + (messages ph 3 data).length +
      (messages ph 4 data).length + ids ∧
    (kinds.has .node = true ↔ messages ph 1 data ≠ [] ∨ 0 < ids)
  way_kind : kinds.has .way = true ↔ messages ph 3 data ≠ []
  relation_kind : kinds.has .relation = true ↔ messages ph 4 data ≠ []

lemma validateGroup_ok {count : Nat} (h : validateGroup ph data = .ok (kinds, count)) :
    GroupOk ph data kinds count := by
  obtain ⟨_, hframing, h⟩ := bind_eq_ok.mp h
  obtain ⟨_, hnodes, h⟩ := bind_eq_ok.mp h
  obtain ⟨_, hways, h⟩ := bind_eq_ok.mp h
  obtain ⟨_, hrelations, h⟩ := bind_eq_ok.mp h
  obtain ⟨dense, hdense, h⟩ := bind_eq_ok.mp h
  obtain ⟨ids, hids, h⟩ := bind_eq_ok.mp h
  cases h
  have hmessage : DenseMessage ph dense ids := by
    cases dense with
    | none =>
      cases hids
      exact .none
    | some denseData =>
      obtain ⟨dense, ids, lats, lons, hparse, hok, rfl, -⟩ := validateDense_ok hids
      exact .some hparse hok
  refine
    { framed := framing_ok_iff.mp hframing
      nodes := fun d hd => validateNode_ok (forM_ok hnodes d hd)
      ways := fun d hd => validateWay_ok (forM_ok hways d hd)
      relations := fun d hd => validateRelation_ok (forM_ok hrelations d hd)
      dense := ⟨dense, ids, hdense, hmessage, rfl, ?_⟩
      way_kind := ?_
      relation_kind := ?_ }
  · simp [KindSet.has]
  · simp [KindSet.has]
  · simp [KindSet.has]

lemma validateGroups_ok {groups : List Bytes} {count : Nat}
    (h : validateGroups ph groups = .ok (kinds, count)) :
    (∀ data ∈ groups, ∃ k n, validateGroup ph data = .ok (k, n)) ∧
      ∀ kind, kinds.has kind = true ↔
        ∃ data ∈ groups, ∃ k n, validateGroup ph data = .ok (k, n) ∧ k.has kind = true := by
  suffices hacc : ∀ acc : KindSet × Nat, groups.foldlM (fun acc data => do
      let (kinds, count) ← validateGroup ph data
      return (acc.1.union kinds, acc.2 + count)) acc = .ok (kinds, count) →
      (∀ data ∈ groups, ∃ k n, validateGroup ph data = .ok (k, n)) ∧
        ∀ kind, kinds.has kind = true ↔ acc.1.has kind = true ∨
          ∃ data ∈ groups, ∃ k n, validateGroup ph data = .ok (k, n) ∧ k.has kind = true by
    simpa using hacc ({}, 0) h
  clear h
  induction groups with
  | nil =>
    intro acc h
    cases h
    simp
  | cons data groups ih =>
    intro acc h
    obtain ⟨acc', hstep, h⟩ := bind_eq_ok.mp h
    obtain ⟨⟨k, n⟩, hgroup, hstep⟩ := bind_eq_ok.mp hstep
    cases hstep
    obtain ⟨hall, hkinds⟩ := ih _ h
    constructor
    · rw [forall_mem_cons]
      exact ⟨⟨k, n, hgroup⟩, hall⟩
    · intro kind
      rw [hkinds, KindSet.has_union, Bool.or_eq_true, or_assoc, exists_mem_cons_iff]
      simp [hgroup]

/-- The counts of the groups add up. -/
theorem validateGroups_count {groups : List Bytes} {count : Nat}
    (h : validateGroups ph groups = .ok (kinds, count)) :
    ∃ outs : List (KindSet × Nat), groups.map (validateGroup ph) = outs.map .ok ∧
      count = (outs.map Prod.snd).sum := by
  suffices hacc : ∀ acc : KindSet × Nat, groups.foldlM (fun acc data => do
      let (kinds, count) ← validateGroup ph data
      return (acc.1.union kinds, acc.2 + count)) acc = .ok (kinds, count) →
      ∃ outs : List (KindSet × Nat), groups.map (validateGroup ph) = outs.map .ok ∧
        count = acc.2 + (outs.map Prod.snd).sum by
    obtain ⟨outs, houts, hcount⟩ := hacc ({}, 0) h
    exact ⟨outs, houts, hcount.trans (Nat.zero_add _)⟩
  clear h
  induction groups with
  | nil =>
    intro acc h
    cases h
    exact ⟨[], rfl, rfl⟩
  | cons data groups ih =>
    intro acc h
    obtain ⟨acc', hstep, h⟩ := bind_eq_ok.mp h
    obtain ⟨out, hgroup, hstep⟩ := bind_eq_ok.mp hstep
    cases hstep
    obtain ⟨outs, houts, hcount⟩ := ih _ h
    refine ⟨out :: outs, ?_, ?_⟩
    · rw [map_cons, hgroup, houts, map_cons]
    · rw [hcount, map_cons, sum_cons, Nat.add_assoc]

lemma isUtf8_of_validate {entries : List Bytes}
    (h : validateStringtableUtf8 entries = .ok ()) : ∀ raw ∈ entries, isUtf8 raw = true := by
  unfold validateStringtableUtf8 at h
  split at h
  · cases h
  · next hnone =>
    intro raw hraw
    simpa using findIdx?_eq_none_iff.mp hnone raw hraw

/-- A constructed block: what its bytes hold, and what its readers get of them. -/
structure Opened (ph : Crate) (bytes : Bytes) (block : PrimitiveBlock) (top : Top)
    (table : List Bytes) : Prop where
  walked : walk ph.reader (topField ph) {} bytes = .ok top
  listed : walk ph.reader (tableField ph) [] top.table = .ok table
  fields : block.block.fields = top.fields
  groups : block.block.groups = .ok top.groups
  strings : ∀ i, block.block.stringGet i = .ok table[i]?
  utf8 : ∀ raw ∈ table, isUtf8 raw = true
  valid : ∀ data ∈ top.groups, ∃ k n, validateGroup ph data = .ok (k, n)
  kinds : ∀ kind, block.kinds.has kind = true ↔
    ∃ data ∈ top.groups, ∃ k n, validateGroup ph data = .ok (k, n) ∧ k.has kind = true

lemma map_slice_placed (hsmall : bytes.length < 2 ^ 32) {ps : List Position}
    {ds : List Bytes} (h : List.Forall₂ (Placed bytes) ps ds) :
    ps.map (fun p => sliceAt bytes p.1.toNat p.2.toNat) = ds := by
  induction h with
  | nil => rfl
  | cons hp _ ih => rw [map_cons, (hp.slice hsmall).2, ih]

/-- The bytes and the string positions behind them end before 4 GiB. -/
def Fits (bytes : Bytes) (block : PrimitiveBlock) : Prop :=
  bytes.length + 8 * block.block.stringTableLen < 2 ^ 32

lemma fromVec_validated (h : fromVec ph bytes = .ok block) (hfits : Fits bytes block) :
    ∃ top table, Opened ph bytes block top table ∧
      validateGroups ph top.groups = .ok (block.kinds, block.elementCount) := by
  obtain ⟨scan, hscan, h⟩ := bind_eq_ok.mp h
  obtain ⟨⟨kinds, count⟩, hvalid, h⟩ := bind_eq_ok.mp h
  obtain ⟨_, hutf8, h⟩ := bind_eq_ok.mp h
  cases h
  obtain ⟨top, table, hseen⟩ := scanBlockFields_seen hscan
  have hbytes : bytes.length < 2 ^ 32 := by
    unfold Fits at hfits
    omega
  have hentries := stEntries_length hseen
  have hsmall : bytes.length + 8 * scan.stEntries.length < 2 ^ 32 := by
    have hcount : (UInt32.ofNat scan.stEntries.length).toNat = scan.stEntries.length :=
      toNat_ofNat_small (by omega)
    have hlen : (inlineTables bytes scan.stEntries scan.groupEntries scan.fields).stringTableLen =
        scan.stEntries.length := hcount
    rwa [Fits, hlen] at hfits
  obtain ⟨hgroups, hstrings⟩ := inlineTables_reads hseen hsmall
  rw [map_slice_placed hbytes hseen.groups] at hvalid
  rw [map_slice_placed hbytes hseen.strings] at hutf8
  obtain ⟨hall, hkinds⟩ := validateGroups_ok hvalid
  exact ⟨top, table, ⟨hseen.walked, hseen.listed, hseen.fields, hgroups, hstrings,
    isUtf8_of_validate hutf8, hall, hkinds⟩, hvalid⟩

lemma fromVec_opened (h : fromVec ph bytes = .ok block) (hfits : Fits bytes block) :
    ∃ top table, Opened ph bytes block top table := by
  obtain ⟨top, table, hopen, -⟩ := fromVec_validated h hfits
  exact ⟨top, table, hopen⟩

/-- A string of the table takes at least one byte, so a block of a ninth of 4 GiB fits. -/
theorem fits_of_small (h : fromVec ph bytes = .ok block) (hsmall : 9 * bytes.length < 2 ^ 32) :
    Fits bytes block := by
  obtain ⟨scan, hscan, h⟩ := bind_eq_ok.mp h
  obtain ⟨⟨kinds, count⟩, -, h⟩ := bind_eq_ok.mp h
  obtain ⟨_, -, h⟩ := bind_eq_ok.mp h
  cases h
  obtain ⟨top, table, hseen⟩ := scanBlockFields_seen hscan
  have hentries := stEntries_length hseen
  have hlen : (inlineTables bytes scan.stEntries scan.groupEntries scan.fields).stringTableLen =
      scan.stEntries.length := toNat_ofNat_small (by omega)
  rw [Fits, hlen]
  omega

end Accepted

end BlockValid
