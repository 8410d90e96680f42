import Pbfhogg.Lib.Deltas
import Pbfhogg.Read.BlockValid

/-!
# The elements of a block

`BlockElementsIter` and what it yields: for each group its dense nodes, its plain nodes, its ways
and its relations. Every parse repeats one that validation made, and a failure of it panics.
Coordinates are scaled by wrapping 64-bit arithmetic.
-/

namespace Elements

open Protohoggr FieldWalk WireMessages BlockScan BlockValid Fallible Deltas List

variable {group : Bytes}

/-- `validated`. -/
def validated {α : Type} (what : String) (r : Except Error α) : Except Panic α :=
  r.mapError fun _ => .constructionInvariantBroken what

/-- Nanodegrees of a raw coordinate, modulo `2^64`. -/
def nano (offset granularity raw : Int64) : Int64 := offset + granularity * raw

/-- `decimicro_lat` and `decimicro_lon` of a nanodegree value. -/
def toDecimicro (x : Int64) : Int32 := (x / 100).toInt32

structure Node where
  fields : BlockFields
  node : WireNode

structure DenseNodeInfo where
  version : Int32
  timestamp : Int64
  changeset : Int64
  uid : Int32
  userSid : Int32
  visible : Bool
  dateGranularity : Int64

structure DenseNode where
  fields : BlockFields
  id : Int64
  lat : Int64
  lon : Int64
  tagBytes : Bytes
  info : Option DenseNodeInfo

structure Way where
  fields : BlockFields
  way : WireWay

structure Relation where
  relation : WireRelation

inductive Element
  | node (n : Node)
  | denseNode (n : DenseNode)
  | way (w : Way)
  | relation (r : Relation)

namespace Node

def id (n : Node) : Int64 := n.node.id

def nanoLat (n : Node) : Int64 := nano n.fields.latOffset n.fields.granularity.toInt64 n.node.lat

def nanoLon (n : Node) : Int64 := nano n.fields.lonOffset n.fields.granularity.toInt64 n.node.lon

def decimicroLat (n : Node) : Int32 := toDecimicro n.nanoLat

def decimicroLon (n : Node) : Int32 := toDecimicro n.nanoLon

end Node

namespace DenseNode

variable (n : DenseNode)

def nanoLat : Int64 := nano n.fields.latOffset n.fields.granularity.toInt64 n.lat

def nanoLon : Int64 := nano n.fields.lonOffset n.fields.granularity.toInt64 n.lon

def decimicroLat : Int32 := toDecimicro n.nanoLat

def decimicroLon : Int32 := toDecimicro n.nanoLon

end DenseNode

section Iterators

variable (ph : Crate)

/-- The running sums of `DenseNodeInfoIter`. -/
structure InfoSums where
  timestamp : Int64 := 0
  changeset : Int64 := 0
  uid : Int32 := 0
  userSid : Int32 := 0

/-- `DenseNodeInfoIter`: it ends with the first of the five core arrays. -/
def infosFrom (dateGranularity : Int64) (s : InfoSums) : List Int32 → List Int64 → List Int64 →
    List Int32 → List Int32 → List Bool → List DenseNodeInfo
  | version :: versions, dt :: dts, dc :: dcs, du :: dus, ds :: dss, visible =>
    let s' : InfoSums := ⟨s.timestamp + dt, s.changeset + dc, s.uid + du, s.userSid + ds⟩
    ⟨version, s'.timestamp, s'.changeset, s'.uid, s'.userSid, visible.headD true,
      dateGranularity⟩ :: infosFrom dateGranularity s' versions dts dcs dus dss visible.tail
  | _, _, _, _, _, _ => []

variable (fields : BlockFields)

def denseNodeInfos (info : WireDenseInfo) : List DenseNodeInfo :=
  infosFrom fields.dateGranularity.toInt64 {} (ph.packedInt32 info.versionData)
    (ph.packedSint64 info.timestampData) (ph.packedSint64 info.changesetData)
    (ph.packedSint32 info.uidData) (ph.packedSint32 info.userSidData)
    (ph.packedBool info.visibleData)

/-- The tags of one dense node: the bytes of its complete pairs, and the array behind the run. -/
def tagRunFuel : Nat → Bytes → Except Panic (Bytes × Bytes)
  | 0, kv => .ok ([], kv)
  | _ + 1, [] => .ok ([], [])
  | fuel + 1, b :: bs => do
    let (key, cur) ← validated "DenseNodes keys_vals key" (ph.readVarint (b :: bs))
    if key = 0 then .ok ([], cur)
    else do
      let (_, rest) ← validated "DenseNodes keys_vals value" (ph.readVarint cur)
      let (tags, after) ← tagRunFuel fuel rest
      return ((b :: bs).take ((b :: bs).length - rest.length) ++ tags, after)

def tagRun (kv : Bytes) : Except Panic (Bytes × Bytes) := tagRunFuel ph kv.length kv

/-- The running sums of `DenseNodeIter`. -/
structure DenseSums where
  id : Int64 := 0
  lat : Int64 := 0
  lon : Int64 := 0

/-- `DenseNodeIter`. -/
def denseNodesFrom (fields : BlockFields) : DenseSums → List Int64 → List Int64 → List Int64 →
    List DenseNodeInfo → Bytes → Except Panic (List DenseNode)
  | s, did :: dids, dlat :: dlats, dlon :: dlons, infos, kv => do
    let s' : DenseSums := ⟨s.id + did, s.lat + dlat, s.lon + dlon⟩
    let (tags, kv') ← tagRun ph kv
    let rest ← denseNodesFrom fields s' dids dlats dlons infos.tail kv'
    return ⟨fields, s'.id, s'.lat, s'.lon, tags, infos.head?⟩ :: rest
  | _, [], [], [], _, _ => .ok []
  | _, _, _, _, _, _ => .error (.parallelArraysDiffer "dense id/lat/lon")

/-- The metadata a dense iterator starts with. -/
def startInfos (infoData : Option Bytes) :
    Except Panic (List DenseNodeInfo) :=
  match infoData with
  | none => .ok []
  | some data =>
    (validated "DenseInfo" (WireDenseInfo.parse ph data)).map (denseNodeInfos ph fields)

def denseNodes (dense : WireDenseNodes) : Except Panic (List DenseNode) := do
  let infos ← startInfos ph fields dense.infoData
  denseNodesFrom ph fields {} (ph.packedSint64 dense.idData) (ph.packedSint64 dense.latData)
    (ph.packedSint64 dense.lonData) infos dense.keysValsData

/-- `validated_dense`. -/
def validatedDense (group : Bytes) : Except Panic (Option WireDenseNodes) := do
  let dense ← validated "PrimitiveGroup.dense" (groupDense ph group)
  match dense with
  | none => .ok none
  | some data => (validated "DenseNodes" (WireDenseNodes.parse ph data)).map some

/-- The messages of a group, each parsed again. -/
def reparsed {α : Type} (what : String) (parse : Bytes → Except Error α) (target : Nat)
    (group : Bytes) : Except Panic (List α) :=
  (messages ph target group).mapM fun data => validated what (parse data)

/-- `WayNodeLocationsIter`, latitude and longitude in nanodegrees. -/
def locationsFrom (fields : BlockFields) :
    Int64 → Int64 → List Int64 → List Int64 → Except Panic (List (Int64 × Int64))
  | clat, clon, dlat :: dlats, dlon :: dlons => do
    let rest ← locationsFrom fields (clat + dlat) (clon + dlon) dlats dlons
    return (nano fields.latOffset fields.granularity.toInt64 (clat + dlat),
      nano fields.lonOffset fields.granularity.toInt64 (clon + dlon)) :: rest
  | _, _, [], [] => .ok []
  | _, _, _, _ => .error (.parallelArraysDiffer "way lat/lon")

def nodeLocations (w : Way) : Except Panic (List (Int64 × Int64)) :=
  locationsFrom w.fields 0 0 (ph.packedSint64 w.way.latData) (ph.packedSint64 w.way.lonData)

/-- One group in the order of the iterator's states. -/
def groupElements (group : Bytes) : Except Panic (List Element) := do
  let message ← validatedDense ph group
  let dense ← message.elim (.ok []) (denseNodes ph fields)
  let nodes ← reparsed ph "Node" (WireNode.parse ph) 1 group
  let ways ← reparsed ph "Way" (WireWay.parse ph) 3 group
  let relations ← reparsed ph "Relation" (WireRelation.parse ph) 4 group
  return dense.map .denseNode ++ nodes.map (fun n => .node ⟨fields, n⟩) ++
    ways.map (fun w => .way ⟨fields, w⟩) ++ relations.map (fun r => .relation ⟨r⟩)

/-- `PrimitiveBlock::elements`. -/
def elements (block : PrimitiveBlock) : Except Panic (List Element) := do
  let groups ← block.block.groups
  let parts ← groups.mapM (groupElements ph block.block.fields)
  return parts.flatten

/-- `DenseNodeIter::new_skip_metadata`: the metadata is not decoded. -/
def denseNodesSkipMetadata (dense : WireDenseNodes) :
    Except Panic (List DenseNode) :=
  denseNodesFrom ph fields {} (ph.packedSint64 dense.idData) (ph.packedSint64 dense.latData)
    (ph.packedSint64 dense.lonData) [] dense.keysValsData

def groupElementsSkipMetadata (group : Bytes) :
    Except Panic (List Element) := do
  let message ← validatedDense ph group
  let dense ← message.elim (.ok []) (denseNodesSkipMetadata ph fields)
  let nodes ← reparsed ph "Node" (WireNode.parse ph) 1 group
  let ways ← reparsed ph "Way" (WireWay.parse ph) 3 group
  let relations ← reparsed ph "Relation" (WireRelation.parse ph) 4 group
  return dense.map .denseNode ++ nodes.map (fun n => .node ⟨fields, n⟩) ++
    ways.map (fun w => .way ⟨fields, w⟩) ++ relations.map (fun r => .relation ⟨r⟩)

/-- `PrimitiveBlock::elements_skip_metadata`. -/
def elementsSkipMetadata (block : PrimitiveBlock) : Except Panic (List Element) := do
  let groups ← block.block.groups
  let parts ← groups.mapM (groupElementsSkipMetadata ph block.block.fields)
  return parts.flatten

end Iterators

section Spec

variable {ph : Crate} {fields : BlockFields} {nodes : List DenseNode}

lemma denseNodesFrom_cons {s : DenseSums} {did : Int64} {dids dlats dlons : List Int64}
    {infos : List DenseNodeInfo} {kv : Bytes}
    (h : denseNodesFrom ph fields s (did :: dids) dlats dlons infos kv = .ok nodes) :
    ∃ dlat lats dlon lons tags kv' rest, dlats = dlat :: lats ∧ dlons = dlon :: lons ∧
      tagRun ph kv = .ok (tags, kv') ∧
      denseNodesFrom ph fields ⟨s.id + did, s.lat + dlat, s.lon + dlon⟩ dids lats lons infos.tail
        kv' = .ok rest ∧
      nodes = ⟨fields, s.id + did, s.lat + dlat, s.lon + dlon, tags, infos.head?⟩ :: rest := by
  cases dlats with
  | nil => cases h
  | cons dlat dlats =>
    cases dlons with
    | nil => cases h
    | cons dlon dlons =>
      rw [denseNodesFrom] at h
      obtain ⟨⟨tags, kv'⟩, htags, h⟩ := bind_eq_ok.mp h
      obtain ⟨rest, hrest, h⟩ := bind_eq_ok.mp h
      cases h
      exact ⟨dlat, dlats, dlon, dlons, tags, kv', rest, rfl, rfl, htags, hrest, rfl⟩

/-- The ids and raw coordinates of a run of the dense iterator that does not panic. -/
theorem denseNodesFrom_sums {s : DenseSums} {dids dlats dlons : List Int64}
    {infos : List DenseNodeInfo} {kv : Bytes}
    (h : denseNodesFrom ph fields s dids dlats dlons infos kv = .ok nodes) :
    nodes.map DenseNode.id = sumsFrom s.id dids ∧ nodes.map DenseNode.lat = sumsFrom s.lat dlats ∧
      nodes.map DenseNode.lon = sumsFrom s.lon dlons ∧ ∀ n ∈ nodes, n.fields = fields := by
  induction dids generalizing s dlats dlons infos kv nodes with
  | nil =>
    cases dlats with
    | nil =>
      cases dlons with
      | nil =>
        cases h
        simp [sumsFrom]
      | cons _ _ => cases h
    | cons _ _ => cases h
  | cons did dids ih =>
    obtain ⟨_, _, _, _, tags, kv', rest, rfl, rfl, -, hrest, rfl⟩ := denseNodesFrom_cons h
    obtain ⟨hids, hlats, hlons, hfields⟩ := ih hrest
    simp only [map_cons, sumsFrom, hids, hlats, hlons, forall_mem_cons, true_and]
    exact hfields

lemma validated_ok {α : Type} {what : String} {r : Except Error α} {a : α} (h : r = .ok a) :
    validated what r = .ok a := by
  rw [validated, h]
  rfl

lemma validated_eq_ok {α : Type} {what : String} {r : Except Error α} {a : α} :
    validated what r = .ok a ↔ r = .ok a := mapError_eq_ok

/-- A run of tags of a validated array is read, and leaves a validated array. -/
theorem tagRunFuel_ok {fuel : Nat} {kv : Bytes} (h : Runs ph kv) (hfuel : kv.length ≤ fuel) :
    ∃ tags rest, tagRunFuel ph fuel kv = .ok (tags, rest) ∧ Runs ph rest := by
  induction h generalizing fuel with
  | nil =>
    cases fuel with
    | zero | succ => exact ⟨[], [], rfl, .nil⟩
  | @stop data rest hkey hrest _ =>
    have hlt := readVarint_shrinks hkey
    cases fuel with
    | zero => omega
    | succ fuel =>
      cases data with
      | nil => simp at hlt
      | cons b bs =>
        refine ⟨[], rest, ?_, hrest⟩
        rw [tagRunFuel, validated_ok hkey]
        rfl
  | @pair data cur rest key val hkey hne hval _ ih =>
    have hlt := readVarint_shrinks hkey
    have hlt' := readVarint_shrinks hval
    cases fuel with
    | zero => omega
    | succ fuel =>
      cases data with
      | nil => simp at hlt
      | cons b bs =>
        obtain ⟨tags, after, htags, hafter⟩ := @ih fuel (by omega)
        refine ⟨(b :: bs).take ((b :: bs).length - rest.length) ++ tags, after, ?_, hafter⟩
        simp only [tagRunFuel, validated_ok hkey, validated_ok hval, ok_bind, hne, if_false, htags]
        rfl

lemma denseNodesFrom_ok {s : DenseSums} {dids dlats dlons : List Int64}
    {infos : List DenseNodeInfo} {kv : Bytes} (hlat : dlats.length = dids.length)
    (hlon : dlons.length = dids.length) (hkv : Runs ph kv) :
    ∃ nodes, denseNodesFrom ph fields s dids dlats dlons infos kv = .ok nodes := by
  induction dids generalizing s dlats dlons infos kv with
  | nil =>
    rw [length_nil, length_eq_zero_iff] at hlat hlon
    subst hlat hlon
    exact ⟨[], rfl⟩
  | cons did dids ih =>
    obtain ⟨dlat, dlats, rfl⟩ := exists_cons_of_length_eq_add_one hlat
    obtain ⟨dlon, dlons, rfl⟩ := exists_cons_of_length_eq_add_one hlon
    obtain ⟨tags, kv', htags, hkv'⟩ := tagRunFuel_ok hkv (Nat.le_refl _)
    have hlat' : dlats.length = dids.length := by simpa using hlat
    have hlon' : dlons.length = dids.length := by simpa using hlon
    obtain ⟨rest, hrest⟩ :=
      @ih ⟨s.id + did, s.lat + dlat, s.lon + dlon⟩ _ _ infos.tail _ hlat' hlon' hkv'
    refine ⟨⟨fields, s.id + did, s.lat + dlat, s.lon + dlon, tags, infos.head?⟩ :: rest, ?_⟩
    rw [denseNodesFrom, tagRun, htags, ok_bind]
    simp only [hrest, ok_bind]
    rfl

lemma denseNodes_sums {dense : WireDenseNodes} (h : denseNodes ph fields dense = .ok nodes) :
    nodes.map DenseNode.id = sumsFrom 0 (ph.packedSint64 dense.idData) ∧
      nodes.map DenseNode.lat = sumsFrom 0 (ph.packedSint64 dense.latData) ∧
      nodes.map DenseNode.lon = sumsFrom 0 (ph.packedSint64 dense.lonData) ∧
      ∀ n ∈ nodes, n.fields = fields := by
  obtain ⟨infos, -, h⟩ := bind_eq_ok.mp h
  exact denseNodesFrom_sums h

lemma denseNodes_ok {dense : WireDenseNodes} {ids lats lons : List Nat}
    (h : DenseOk ph dense ids lats lons) : ∃ nodes, denseNodes ph fields dense = .ok nodes := by
  have hinfos : ∃ infos, startInfos ph fields dense.infoData = .ok infos := by
    cases hdata : dense.infoData with
    | none => exact ⟨[], rfl⟩
    | some data =>
      obtain ⟨info, hinfo⟩ := h.info data hdata
      exact ⟨denseNodeInfos ph fields info, map_eq_ok.mpr ⟨info, validated_ok hinfo, rfl⟩⟩
  obtain ⟨infos, hinfos⟩ := hinfos
  have hid := ph.packedSint64_eq h.idValues
  have hlat := ph.packedSint64_eq h.latValues
  have hlon := ph.packedSint64_eq h.lonValues
  have hlats : (ph.packedSint64 dense.latData).length = (ph.packedSint64 dense.idData).length := by
    rw [hid, hlat, length_map, length_map, h.lat_length]
  have hlons : (ph.packedSint64 dense.lonData).length = (ph.packedSint64 dense.idData).length := by
    rw [hid, hlon, length_map, length_map, h.lon_length]
  have hnodes : ∃ nodes, denseNodesFrom ph fields {} (ph.packedSint64 dense.idData)
      (ph.packedSint64 dense.latData) (ph.packedSint64 dense.lonData) infos dense.keysValsData =
        .ok nodes :=
    denseNodesFrom_ok hlats hlons h.runs
  obtain ⟨nodes, hnodes⟩ := hnodes
  exact ⟨nodes, bind_eq_ok.mpr ⟨infos, hinfos, hnodes⟩⟩

lemma validatedDense_eq_ok {out : Option WireDenseNodes} : validatedDense ph group = .ok out ↔
      (groupDense ph group = .ok none ∧ out = none) ∨
        ∃ data dense, groupDense ph group = .ok (some data) ∧
          WireDenseNodes.parse ph data = .ok dense ∧ out = some dense := by
  constructor
  · intro h
    obtain ⟨message, hmessage, h⟩ := bind_eq_ok.mp h
    have hmessage := validated_eq_ok.mp hmessage
    cases message with
    | none =>
      cases h
      exact .inl ⟨hmessage, rfl⟩
    | some data =>
      obtain ⟨dense, hdense, rfl⟩ := map_eq_ok.mp h
      exact .inr ⟨data, dense, hmessage, validated_eq_ok.mp hdense, rfl⟩
  · rintro (⟨hmessage, rfl⟩ | ⟨data, dense, hmessage, hdense, rfl⟩)
    · exact bind_eq_ok.mpr ⟨none, validated_ok hmessage, rfl⟩
    · exact bind_eq_ok.mpr ⟨some data, validated_ok hmessage,
        map_eq_ok.mpr ⟨dense, validated_ok hdense, rfl⟩⟩

/-- The parts of a group that its iterator gets through. -/
structure GroupParts (ph : Crate) (fields : BlockFields) (group : Bytes)
    (message : Option WireDenseNodes) (dense : List DenseNode) (nodes : List WireNode)
    (ways : List WireWay) (relations : List WireRelation) : Prop where
  parsed : validatedDense ph group = .ok message
  dense : message.elim (.ok []) (denseNodes ph fields) = .ok dense
  nodes : (messages ph 1 group).map (WireNode.parse ph) = nodes.map .ok
  ways : (messages ph 3 group).map (WireWay.parse ph) = ways.map .ok
  relations : (messages ph 4 group).map (WireRelation.parse ph) = relations.map .ok

lemma reparsed_eq_ok {α : Type} {what : String} {parse : Bytes → Except Error α}
    {target : Nat} {out : List α} : reparsed ph what parse target group = .ok out ↔
      (messages ph target group).map parse = out.map .ok := by
  rw [reparsed, mapM_eq_ok]
  induction messages ph target group generalizing out with
  | nil => cases out <;> simp
  | cons data rest ih =>
    cases out with
    | nil => simp
    | cons a out => simp only [map_cons, cons.injEq, validated_eq_ok, ih]

/-- What the iterator yields of a group. -/
def groupList (fields : BlockFields) (dense : List DenseNode) (nodes : List WireNode)
    (ways : List WireWay) (relations : List WireRelation) : List Element :=
  dense.map .denseNode ++ nodes.map (fun n => .node ⟨fields, n⟩) ++
    ways.map (fun w => .way ⟨fields, w⟩) ++ relations.map (fun r => .relation ⟨r⟩)

lemma groupElements_eq_ok {es : List Element} :
    groupElements ph fields group = .ok es ↔ ∃ message dense nodes ways relations,
        GroupParts ph fields group message dense nodes ways relations ∧
          es = groupList fields dense nodes ways relations := by
  constructor
  · intro h
    obtain ⟨message, hmessage, h⟩ := bind_eq_ok.mp h
    obtain ⟨dense, hdense, h⟩ := bind_eq_ok.mp h
    obtain ⟨nodes, hnodes, h⟩ := bind_eq_ok.mp h
    obtain ⟨ways, hways, h⟩ := bind_eq_ok.mp h
    obtain ⟨relations, hrelations, h⟩ := bind_eq_ok.mp h
    cases h
    exact ⟨message, dense, nodes, ways, relations, ⟨hmessage, hdense, reparsed_eq_ok.mp hnodes,
      reparsed_eq_ok.mp hways, reparsed_eq_ok.mp hrelations⟩, rfl⟩
  · rintro ⟨message, dense, nodes, ways, relations, hparts, rfl⟩
    exact bind_eq_ok.mpr ⟨message, hparts.parsed, bind_eq_ok.mpr ⟨dense, hparts.dense,
      bind_eq_ok.mpr ⟨nodes, reparsed_eq_ok.mpr hparts.nodes, bind_eq_ok.mpr ⟨ways,
        reparsed_eq_ok.mpr hparts.ways, bind_eq_ok.mpr ⟨relations,
          reparsed_eq_ok.mpr hparts.relations, rfl⟩⟩⟩⟩⟩

/-- The iterator gets through a validated group. -/
theorem groupElements_ok {kinds : KindSet} {count : Nat} (h : GroupOk ph group kinds count) :
    ∃ es, groupElements ph fields group = .ok es := by
  have hparsed : ∀ {α : Type} {parse : Bytes → Except Error α} {target : Nat},
      (∀ d ∈ messages ph target group, ∃ a, parse d = .ok a) →
        ∃ out : List α, (messages ph target group).map parse = out.map .ok := by
    intro α parse target hall
    obtain ⟨out, hout⟩ := mapM_of_mem_ok hall
    exact ⟨out, mapM_eq_ok.mp hout⟩
  obtain ⟨nodes, hnodes⟩ := hparsed h.nodes
  obtain ⟨ways, hways⟩ := hparsed fun d hd => (h.ways d hd).imp fun _ hw => hw.1
  obtain ⟨relations, hrelations⟩ := hparsed h.relations
  obtain ⟨message, ids, hgroup, hmessage, -⟩ := h.dense
  cases hmessage with
  | none =>
    exact ⟨_, groupElements_eq_ok.mpr ⟨none, [], nodes, ways, relations,
      ⟨validatedDense_eq_ok.mpr (.inl ⟨hgroup, rfl⟩), rfl, hnodes, hways, hrelations⟩, rfl⟩⟩
  | @some data dense _ _ _ hparse hok =>
    have hdenses : ∃ denses, denseNodes ph fields dense = .ok denses := denseNodes_ok hok
    obtain ⟨denses, hdenses⟩ := hdenses
    exact ⟨_, groupElements_eq_ok.mpr ⟨some dense, denses, nodes, ways, relations,
      ⟨validatedDense_eq_ok.mpr (.inr ⟨data, dense, hgroup, hparse, rfl⟩), hdenses, hnodes, hways,
        hrelations⟩, rfl⟩⟩

lemma elements_eq_ok {block : PrimitiveBlock} {es : List Element} : elements ph block = .ok es ↔
      ∃ groups, ∃ parts : List (List Element), block.block.groups = .ok groups ∧
      groups.map (groupElements ph block.block.fields) = parts.map .ok ∧ es = parts.flatten := by
  constructor
  · intro h
    obtain ⟨groups, hgroups, h⟩ := bind_eq_ok.mp h
    obtain ⟨parts, hparts, h⟩ := bind_eq_ok.mp h
    cases h
    exact ⟨groups, parts, hgroups, mapM_eq_ok.mp hparts, rfl⟩
  · rintro ⟨groups, parts, hgroups, hparts, rfl⟩
    exact bind_eq_ok.mpr ⟨groups, hgroups, bind_eq_ok.mpr ⟨parts, mapM_eq_ok.mpr hparts, rfl⟩⟩

/-- `elements` of a constructed block does not panic. -/
theorem elements_ok {bytes : Bytes} {block : PrimitiveBlock}
    (h : fromVec ph bytes = .ok block) (hfits : Fits bytes block) :
    ∃ es, elements ph block = .ok es := by
  obtain ⟨top, table, hopen⟩ := fromVec_opened h hfits
  have hgroup : ∀ data ∈ top.groups,
      ∃ part, groupElements ph block.block.fields data = .ok part := by
    intro data hdata
    obtain ⟨k, n, hvalid⟩ := hopen.valid data hdata
    exact groupElements_ok (validateGroup_ok hvalid)
  obtain ⟨parts, hparts⟩ := mapM_of_mem_ok hgroup
  exact ⟨parts.flatten, elements_eq_ok.mpr
    ⟨top.groups, parts, hopen.groups, mapM_eq_ok.mp hparts, rfl⟩⟩

end Spec

end Elements
