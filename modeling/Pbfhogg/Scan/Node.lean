import Pbfhogg.Scan.Coordinate

/-!
# The node scanner

`scan/node.rs` reads ids and coordinates off a block's bytes without constructing the block. Its
sink is called node by node, so an error leaves behind what had been sunk.
-/

namespace NodeScan

open OsmId Protohoggr FieldWalk WireMessages LeBytes BlockScan BlockValid Elements Coordinate
  Fallible Varint
open List hiding map_map take

variable {fields : BlockFields} {d : Option Bytes} {group padding : Bytes}
  {part : List Element} {parts : List (List Element)}

/-- Id, latitude and longitude, as the sink takes them. -/
abbrev NodeTuple := Int64 × Int32 × Int32

/-- A scan that failed, with what its sink had been given. -/
structure Stopped where
  error : Error
  sunk : List NodeTuple

/-- A node as it lies on the wire: id and raw coordinates, the deltas summed. -/
abbrev RawNode := Int64 × Int64 × Int64

def decimicroErr : Error := newWireError
  ("node coordinate does not fit in an i32 decimicrodegree; the blob's granularity, offset, " ++
    "or deltas are corrupt")

def denseIdErr : Error :=
  newWireError "dense group id array holds a truncated or overlong varint"

def denseCoordErr : Error := newWireError
  "dense group lat/lon array is shorter than its id array or holds a truncated or overlong varint"

def denseMismatchErr : Error :=
  newWireError "dense group has mismatched id/lat/lon array lengths"

def orStop {α : Type} (sunk : List NodeTuple) (r : Except Error α) : Except Stopped α :=
  r.mapError fun e => ⟨e, sunk⟩

/-- `scale_to_decimicro` with this scanner's refusal. -/
def decimicro (offset granularity raw : Int64) : Except Error Int32 :=
  match scaleToDecimicro offset granularity raw with
  | some x => .ok x
  | none => .error decimicroErr

/-- The block scalars the scanner reads. -/
structure Scalars where
  granularity : Int64 := 100
  latOffset : Int64 := 0
  lonOffset : Int64 := 0

/-- One call of the sink. -/
def sinkNode (c : Scalars) (sunk : List NodeTuple) (n : RawNode) :
    Except Stopped (List NodeTuple) := do
  let lat ← orStop sunk (decimicro c.latOffset c.granularity n.2.1)
  let lon ← orStop sunk (decimicro c.lonOffset c.granularity n.2.2)
  return sunk ++ [(n.1, lat, lon)]

section Scan

variable (ph : Crate)

/-- The lockstep loop; each turn consumes at least one byte of the ids. -/
def scanDenseFuel (c : Scalars) : Nat → DenseSums → Bytes → Bytes → Bytes →
    List NodeTuple → Except Stopped (List NodeTuple)
  | 0, _, _, _, _, sunk => .ok sunk
  | fuel + 1, s, ids, lats, lons, sunk =>
    if ids = [] then
      if lats ≠ [] ∨ lons ≠ [] then .error ⟨denseMismatchErr, sunk⟩ else .ok sunk
    else do
      let (did, ids) ← orStop sunk ((ph.readVarint ids).mapError fun _ => denseIdErr)
      let (dlat, lats) ← orStop sunk ((ph.readVarint lats).mapError fun _ => denseCoordErr)
      let (dlon, lons) ← orStop sunk ((ph.readVarint lons).mapError fun _ => denseCoordErr)
      let s' : DenseSums := ⟨s.id + asSint64 did, s.lat + asSint64 dlat, s.lon + asSint64 dlon⟩
      let sunk' ← sinkNode c sunk (s'.id, s'.lat, s'.lon)
      scanDenseFuel c fuel s' ids lats lons sunk'

def scanDenseCoords (c : Scalars) (dense : WireDenseNodes) (sunk : List NodeTuple) :
    Except Stopped (List NodeTuple) :=
  scanDenseFuel ph c (dense.idData.length + 1) {} dense.idData dense.latData dense.lonData sunk

structure ScanTop where
  scalars : Scalars := {}
  groups : List Bytes := []

/-- The walk over the top level. -/
def scanField : Handler Error ScanTop := fun s field wire =>
  match field, wire with
  | 2, wireLen => fun cur =>
    take (ph.readLenDelimited cur) fun d => .ok { s with groups := s.groups ++ [d] }
  | 17, wireVarint => fun cur =>
    take (readInt32 ph "PrimitiveBlock.granularity exceeds int32" cur) fun g =>
      .ok { s with scalars := { s.scalars with granularity := g.toInt64 } }
  | 19, wireVarint => fun cur =>
    take (ph.readVarintI64 cur) fun x =>
      .ok { s with scalars := { s.scalars with latOffset := x } }
  | 20, wireVarint => fun cur =>
    take (ph.readVarintI64 cur) fun x =>
      .ok { s with scalars := { s.scalars with lonOffset := x } }
  | _, _ => skip ph.reader s wire

structure ScanGroup where
  kinds : KindSet
  denseData : Option Bytes := none
  hasPlain : Bool := false

/-- The walk over one group. -/
def scanGroupField : Handler Error ScanGroup := fun s field wire =>
  match field, wire with
  | 1, wireLen => skip ph.reader { s with hasPlain := true, kinds := s.kinds.add .node } wireLen
  | 3, wireLen => skip ph.reader { s with kinds := s.kinds.add .way } wireLen
  | 4, wireLen => skip ph.reader { s with kinds := s.kinds.add .relation } wireLen
  | 2, wireLen =>
    match s.denseData with
    | some _ => fun _ => .error (newWireError dupGroupDense)
    | none => fun cur => take (ph.readLenDelimited cur) fun d => .ok { s with denseData := some d }
  | _, _ => skip ph.reader s wire

/-- The dense message of a group, if there is one. -/
def extractDense (c : Scalars) (kinds : KindSet) (sunk : List NodeTuple)
    (denseData : Option Bytes) : Except Stopped (KindSet × List NodeTuple) :=
  match denseData with
  | none => .ok (kinds, sunk)
  | some data => do
    let dense ← orStop sunk (WireDenseNodes.parse ph data)
    let kinds := if dense.idData = [] then kinds else kinds.add .node
    let sunk ← scanDenseCoords ph c dense sunk
    return (kinds, sunk)

/-- The plain nodes of a group, in a walk of their own. -/
def extractPlain (c : Scalars) (group : Bytes) (sunk : List NodeTuple) :
    Except Stopped (List NodeTuple) :=
  (messages ph 1 group).foldlM (fun sunk data => do
    let node ← orStop sunk (WireNode.parse ph data)
    sinkNode c sunk (node.id, node.lat, node.lon)) sunk

def extractGroup (c : Scalars) (acc : KindSet × List NodeTuple) (group : Bytes) :
    Except Stopped (KindSet × List NodeTuple) := do
  let s ← orStop acc.2 (walk ph.reader (scanGroupField ph) { kinds := acc.1 } group)
  let (kinds, sunk) ← extractDense ph c s.kinds acc.2 s.denseData
  let sunk ← if s.hasPlain then extractPlain ph c group sunk else .ok sunk
  return (kinds, sunk)

/-- `extract_node_coords`: the kinds the block holds and the calls of the sink. -/
def extractNodeCoords (decompressed : Bytes) : Except Stopped (KindSet × List NodeTuple) := do
  let top ← orStop [] (walk ph.reader (scanField ph) {} decompressed)
  top.groups.foldlM (extractGroup ph top.scalars) ({}, [])

end Scan

/-- A node element's id and raw coordinates. -/
def rawNode? : Element → Option RawNode
  | .node n => some (n.node.id, n.node.lat, n.node.lon)
  | .denseNode n => some (n.id, n.lat, n.lon)
  | _ => none

/-- A node element's id and coordinates, by its accessors. -/
def nodeTuple? : Element → Option NodeTuple
  | .node n => some (n.id, n.decimicroLat, n.decimicroLon)
  | .denseNode n => some (n.id, n.decimicroLat, n.decimicroLon)
  | _ => none

def elementKind : Element → ElementKind
  | .node _ => .node
  | .denseNode _ => .node
  | .way _ => .way
  | .relation _ => .relation

def scalarsOf (fields : BlockFields) : Scalars :=
  ⟨fields.granularity.toInt64, fields.latOffset, fields.lonOffset⟩

/-- The accessors' arithmetic on a raw node. -/
def decoded (c : Scalars) (n : RawNode) : NodeTuple :=
  (n.1, toDecimicro (nano c.latOffset c.granularity n.2.1),
    toDecimicro (nano c.lonOffset c.granularity n.2.2))

/-- Both exactly scaled coordinates of a node fit `i32`. -/
def Representable (c : Scalars) (n : RawNode) : Prop :=
  InI32 (exact c.latOffset c.granularity n.2.1) ∧ InI32 (exact c.lonOffset c.granularity n.2.2)

lemma sinkNode_eq (c : Scalars) (sunk : List NodeTuple) (n : RawNode) :
    (Representable c n ∧ sinkNode c sunk n = .ok (sunk ++ [decoded c n])) ∨
      (¬Representable c n ∧ sinkNode c sunk n = .error ⟨decimicroErr, sunk⟩) := by
  unfold Representable sinkNode decimicro
  cases hlat : scaleToDecimicro c.latOffset c.granularity n.2.1 with
  | none =>
    have hout := scaleToDecimicro_eq_none.mp hlat
    exact .inr ⟨fun h => hout h.1, rfl⟩
  | some lat =>
    obtain ⟨hin, rfl⟩ := scaleToDecimicro_eq_some.mp hlat
    cases hlon : scaleToDecimicro c.lonOffset c.granularity n.2.2 with
    | none =>
      have hout := scaleToDecimicro_eq_none.mp hlon
      exact .inr ⟨fun h => hout h.2, rfl⟩
    | some lon =>
      obtain ⟨hin', rfl⟩ := scaleToDecimicro_eq_some.mp hlon
      exact .inl ⟨⟨hin, hin'⟩, rfl⟩

lemma foldlM_sinkNode (c : Scalars) (nodes : List RawNode) (sunk : List NodeTuple) :
    ((∀ n ∈ nodes, Representable c n) ∧
        nodes.foldlM (sinkNode c) sunk = .ok (sunk ++ nodes.map (decoded c))) ∨
      ∃ before n after, nodes = before ++ n :: after ∧ ¬Representable c n ∧
        nodes.foldlM (sinkNode c) sunk = .error ⟨decimicroErr, sunk ++ before.map (decoded c)⟩ := by
  induction nodes generalizing sunk with
  | nil => exact .inl ⟨nofun, by simp [pure, Except.pure]⟩
  | cons n nodes ih =>
    rcases sinkNode_eq c sunk n with ⟨hn, hstep⟩ | ⟨hn, hstep⟩
    · rw [foldlM_cons, hstep, ok_bind]
      rcases ih (sunk ++ [decoded c n]) with ⟨hall, hrun⟩ | ⟨before, m, after, rfl, hm, hrun⟩
      · refine .inl ⟨?_, ?_⟩
        · rw [forall_mem_cons]
          exact ⟨hn, hall⟩
        · rw [hrun]
          simp
      · refine .inr ⟨n :: before, m, after, rfl, hm, ?_⟩
        rw [hrun]
        simp
    · refine .inr ⟨[], n, nodes, rfl, hn, ?_⟩
      rw [foldlM_cons, hstep]
      simp

/-- The running sums of three delta lists, node by node. -/
def sumsInStep : DenseSums → List Int64 → List Int64 → List Int64 → List RawNode
  | s, did :: dids, dlat :: dlats, dlon :: dlons =>
    (s.id + did, s.lat + dlat, s.lon + dlon) ::
      sumsInStep ⟨s.id + did, s.lat + dlat, s.lon + dlon⟩ dids dlats dlons
  | _, _, _, _ => []

variable {ph : Crate}

lemma rawNodes_denseNodesFrom {s : DenseSums} {dids dlats dlons : List Int64}
    {infos : List DenseNodeInfo} {kv : Bytes} {nodes : List DenseNode}
    (h : denseNodesFrom ph fields s dids dlats dlons infos kv = .ok nodes) :
    nodes.map (fun n => (n.id, n.lat, n.lon)) = sumsInStep s dids dlats dlons := by
  induction dids generalizing s dlats dlons infos kv nodes with
  | nil =>
    cases dlats with
    | nil =>
      cases dlons with
      | nil =>
        cases h
        rfl
      | cons _ _ => cases h
    | cons _ _ => cases h
  | cons did dids ih =>
    obtain ⟨_, _, _, _, tags, kv', rest, rfl, rfl, -, hrest, rfl⟩ := denseNodesFrom_cons h
    rw [map_cons, sumsInStep, ih hrest]

lemma scanDenseFuel_eq {c : Scalars} {fuel : Nat} {s : DenseSums} {ids lats lons : Bytes}
    {vids vlats vlons : List Nat} (hids : Values ids vids) (hlats : Values lats vlats)
    (hlons : Values lons vlons) (hlat : vlats.length = vids.length)
    (hlon : vlons.length = vids.length) (hfuel : ids.length < fuel) (sunk : List NodeTuple) :
    scanDenseFuel ph c fuel s ids lats lons sunk =
      (sumsInStep s (vids.map asSint64) (vlats.map asSint64) (vlons.map asSint64)).foldlM
        (sinkNode c) sunk := by
  induction hids generalizing fuel s lats lons vlats vlons sunk with
  | nil =>
    rw [length_nil, length_eq_zero_iff] at hlat hlon
    subst hlat hlon
    have hlats := hlats.eq_nil_iff.mp rfl
    have hlons := hlons.eq_nil_iff.mp rfl
    subst hlats hlons
    cases fuel with
    | zero => omega
    | succ fuel => rfl
  | @cons ids ids' vid vids hid _ ih =>
    cases hlats with
    | nil => simp at hlat
    | @cons _ lats' vlat vlats hlatd hlats =>
      cases hlons with
      | nil => simp at hlon
      | @cons _ lons' vlon vlons hlond hlons =>
        have hshrink := decode_length_lt hid
        have hne : ids ≠ [] := by
          rintro rfl
          simp at hshrink
        cases fuel with
        | zero => omega
        | succ fuel =>
          have hreadId := ph.readVarint_ok.mpr hid
          have hreadLat := ph.readVarint_ok.mpr hlatd
          have hreadLon := ph.readVarint_ok.mpr hlond
          rw [scanDenseFuel, if_neg hne, hreadId, hreadLat, hreadLon]
          simp only [orStop, Except.mapError, ok_bind, map_cons, sumsInStep, foldlM_cons]
          congr 1
          funext sunk'
          exact ih hlats hlons (by simpa using hlat) (by simpa using hlon) (by omega) sunk'

/-- A dense message's nodes, as the iterator yields them and as the scanner sinks them. -/
theorem scanDenseCoords_eq {c : Scalars} {dense : WireDenseNodes} {ids lats lons : List Nat}
    {nodes : List DenseNode} (hok : DenseOk ph dense ids lats lons)
    (hnodes : denseNodes ph fields dense = .ok nodes) (sunk : List NodeTuple) :
    scanDenseCoords ph c dense sunk =
      (nodes.map fun n => (n.id, n.lat, n.lon)).foldlM (sinkNode c) sunk := by
  obtain ⟨infos, -, hfrom⟩ := bind_eq_ok.mp hnodes
  rw [rawNodes_denseNodesFrom hfrom, ph.packedSint64_eq hok.idValues,
    ph.packedSint64_eq hok.latValues, ph.packedSint64_eq hok.lonValues]
  exact scanDenseFuel_eq hok.idValues hok.latValues hok.lonValues hok.lat_length hok.lon_length
    (Nat.lt_succ_self _) sunk

lemma local_scanField : Local ph.reader (scanField ph) := by
  intro s field wire
  unfold scanField
  split
  · exact readsField_take Crate.readsField_len _
  · exact readsField_take (readsField_readInt32 _) _
  · exact readsField_take Crate.readsField_varintI64 _
  · exact readsField_take Crate.readsField_varintI64 _
  · exact readsField_skip s _

/-- The scanner's walk beside the decoder's. -/
def SameTop (s : Top) (t : ScanTop) : Prop :=
  t.scalars = scalarsOf s.fields ∧ t.groups = s.groups

lemma skip_of_reads {α σ : Type} {R : Reader Error} {w : Nat}
    {read : Bytes → Except Error (α × Bytes)} (hr : ReadsField R w read)
    {cur rest : Bytes} {a : α} (h : read cur = .ok (a, rest)) (s : σ) :
    skip R s w cur = .ok (s, rest) := by
  rw [skip, (hr h).1]
  rfl

lemma SameTop.step {s s' : Top} {t : ScanTop} {field wire : Nat} {cur rest : Bytes}
    (hsame : SameTop s t) (h : topField ph s field wire cur = .ok (s', rest)) :
    ∃ t', scanField ph t field wire cur = .ok (t', rest) ∧ SameTop s' t' := by
  obtain ⟨hscalars, hgroups⟩ := hsame
  unfold topField at h
  split at h
  · obtain ⟨d, hd, hs⟩ := take_eq_ok.mp h
    cases hs
    exact ⟨t, skip_of_reads Crate.readsField_len hd t, hscalars, hgroups⟩
  · obtain ⟨d, hd, hs⟩ := take_eq_ok.mp h
    cases hs
    refine ⟨{ t with groups := t.groups ++ [d] }, ?_, hscalars, congrArg (· ++ [d]) hgroups⟩
    simp [scanField, take, hd, Except.bind, Except.map]
  · next hone htwo =>
    obtain ⟨f, hf, hs⟩ := take_eq_ok.mp h
    cases hs
    unfold scalarField at hf
    split at hf
    · obtain ⟨g, hg, hs⟩ := take_eq_ok.mp hf
      cases hs
      refine ⟨{ t with scalars := { t.scalars with granularity := g.toInt64 } }, ?_, ?_, hgroups⟩
      · simp [scanField, take, hg, Except.bind, Except.map]
      · simp [hscalars, scalarsOf]
    · obtain ⟨x, hx, hs⟩ := take_eq_ok.mp hf
      cases hs
      refine ⟨{ t with scalars := { t.scalars with latOffset := x } }, ?_, ?_, hgroups⟩
      · simp [scanField, take, hx, Except.bind, Except.map]
      · simp [hscalars, scalarsOf]
    · obtain ⟨x, hx, hs⟩ := take_eq_ok.mp hf
      cases hs
      refine ⟨{ t with scalars := { t.scalars with lonOffset := x } }, ?_, ?_, hgroups⟩
      · simp [scanField, take, hx, Except.bind, Except.map]
      · simp [hscalars, scalarsOf]
    · obtain ⟨g, hg, hs⟩ := take_eq_ok.mp hf
      cases hs
      exact ⟨t, skip_of_reads (readsField_readInt32 _) hg t, hscalars, hgroups⟩
    · next hgran hlat hlon _ =>
      obtain ⟨r, hr, hs⟩ := map_eq_ok.mp hf
      cases hs
      refine ⟨t, ?_, hscalars, hgroups⟩
      unfold scanField
      split
      · exact absurd rfl (htwo rfl)
      · exact absurd rfl (hgran rfl)
      · exact absurd rfl (hlat rfl)
      · exact absurd rfl (hlon rfl)
      · rw [skip, hr]
        rfl

variable {bytes : Bytes}

/-- The scanner's walk gets through the top level of a constructed block. -/
theorem walk_scanField {top : Top} (h : walk ph.reader (topField ph) {} bytes = .ok top) :
    walk ph.reader (scanField ph) {} bytes = .ok ⟨scalarsOf top.fields, top.groups⟩ := by
  have hstart : SameTop {} {} := ⟨rfl, rfl⟩
  obtain ⟨t, ht, hscalars, hgroups⟩ := walk_sim local_topField.steps local_scanField.steps
    (fun _ hsame hstep => SameTop.step hsame hstep) (suffix_refl bytes) hstart h
  rw [ht, ← hscalars, ← hgroups]

lemma local_scanGroupField : Local ph.reader (scanGroupField ph) := by
  intro s field wire
  unfold scanGroupField
  split
  · exact readsField_skip _ _
  · exact readsField_skip _ _
  · exact readsField_skip _ _
  · split
    · intro cur v rest h
      cases h
    · exact readsField_take Crate.readsField_len _
  · exact readsField_skip s _

/-- The kinds a message of a group shows by its field number alone. -/
def fieldKinds (ph : Crate) (fld : Field) : KindSet :=
  ⟨(messageOf ph 1 fld).isSome, (messageOf ph 3 fld).isSome, (messageOf ph 4 fld).isSome⟩

lemma isSome_messageOf {n : Nat} {fld : Field} (hskip : ph.skipField fld.wire fld.raw = .ok []) :
    (messageOf ph n fld).isSome = decide (fld.number = n ∧ fld.wire = wireLen) := by
  unfold messageOf
  split
  · next h =>
    rw [h.2] at hskip
    obtain ⟨body, hbody⟩ := ph.skipField_len.mp hskip
    simp [hbody, h]
  · next h => simp [h]

lemma absorb_scanGroup {s : ScanGroup} {fld : Field}
    (hskip : ph.skipField fld.wire fld.raw = .ok [])
    (h : absorb (groupDenseField ph) s.denseData fld = .ok d) : absorb (scanGroupField ph) s fld =
      .ok ⟨s.kinds.union (fieldKinds ph fld), d, s.hasPlain || (messageOf ph 1 fld).isSome⟩ := by
  simp only [fieldKinds, isSome_messageOf hskip]
  obtain ⟨kinds, dense, plain⟩ := s
  obtain ⟨field, wire, raw⟩ := fld
  have hskipped : ∀ {σ : Type} (t : σ), skip ph.reader t wire raw = .ok (t, []) := by
    intro σ t
    rw [skip, show ph.reader.skipField wire raw = .ok [] from hskip]
    rfl
  obtain ⟨⟨d', rest⟩, hd, rfl⟩ := map_eq_ok.mp h
  simp only [groupDenseField] at hd
  split at hd
  · split at hd
    · cases hd
    · obtain ⟨body, hbody, hs⟩ := take_eq_ok.mp hd
      cases hs
      simp [absorb, scanGroupField, take, hbody, Except.bind, Except.map, KindSet.union]
  · next hother =>
    rw [hskipped] at hd
    cases hd
    simp only [absorb, scanGroupField]
    split
    · simp [hskipped, Except.map, KindSet.union, KindSet.add]
    · simp [hskipped, Except.map, KindSet.union, KindSet.add]
    · simp [hskipped, Except.map, KindSet.union, KindSet.add]
    · exact absurd rfl (hother rfl)
    · next hone hthree hfour _ =>
      have h1 : ¬(field = 1 ∧ wire = wireLen) := fun h => hone h.1 h.2
      have h3 : ¬(field = 3 ∧ wire = wireLen) := fun h => hthree h.1 h.2
      have h4 : ¬(field = 4 ∧ wire = wireLen) := fun h => hfour h.1 h.2
      simp [hskipped, Except.map, KindSet.union, h1, h3, h4]

/-- The group walk over a framed group whose dense message is its only one. -/
theorem walk_scanGroupField {kinds : KindSet} {fs : List Field} (hfs : Fields ph.reader group fs)
    (hd : groupDense ph group = .ok d) :
    walk ph.reader (scanGroupField ph) { kinds := kinds } group =
      .ok ⟨kinds.union ⟨!(bodies ph 1 fs).isEmpty, !(bodies ph 3 fs).isEmpty,
        !(bodies ph 4 fs).isEmpty⟩, d, !(bodies ph 1 fs).isEmpty⟩ := by
  obtain ⟨gs, hgs, hfold⟩ := (walk_ok_iff local_groupDenseField).mp hd
  rw [hgs.unique hfs] at hfold
  refine (walk_ok_iff local_scanGroupField).mpr ⟨fs, hfs, ?_⟩
  clear hd hgs gs
  suffices hacc : ∀ s : ScanGroup, fs.foldlM (absorb (groupDenseField ph)) s.denseData = .ok d →
      fs.foldlM (absorb (scanGroupField ph)) s =
        .ok ⟨s.kinds.union ⟨!(bodies ph 1 fs).isEmpty, !(bodies ph 3 fs).isEmpty,
          !(bodies ph 4 fs).isEmpty⟩, d, s.hasPlain || !(bodies ph 1 fs).isEmpty⟩ by
    simpa using hacc { kinds := kinds } hfold
  clear hfold
  induction hfs with
  | nil =>
    intro s hfold
    cases hfold
    simp [bodies, KindSet.union, pure, Except.pure]
  | @cons _ raw rest f w fs _ hskip _ ih =>
    intro s hfold
    rw [foldlM_cons] at hfold
    obtain ⟨d', hd', hfold⟩ := bind_eq_ok.mp hfold
    have hraw := skipField_value hskip
    rw [foldlM_cons, absorb_scanGroup hraw hd', ok_bind, ih _ hfold]
    have hmore : ∀ n, (!(bodies ph n (⟨f, w, raw⟩ :: fs)).isEmpty) =
        ((messageOf ph n ⟨f, w, raw⟩).isSome || !(bodies ph n fs).isEmpty) := by
      intro n
      rw [bodies_cons]
      cases messageOf ph n ⟨f, w, raw⟩ <;> rfl
    simp [hmore, fieldKinds, KindSet.union, Bool.or_assoc]

lemma rawNodes_groupList (fields : BlockFields) (dense : List DenseNode)
    (nodes : List WireNode) (ways : List WireWay) (relations : List WireRelation) :
    (groupList fields dense nodes ways relations).filterMap rawNode? =
      dense.map (fun n => (n.id, n.lat, n.lon)) ++ nodes.map (fun n => (n.id, n.lat, n.lon)) := by
  simp [groupList, filterMap_append, filterMap_map, Function.comp_def, rawNode?]

lemma extractPlain_eq {c : Scalars} {nodes : List WireNode}
    (h : (messages ph 1 group).map (WireNode.parse ph) = nodes.map .ok) (sunk : List NodeTuple) :
    extractPlain ph c group sunk =
      (nodes.map fun n => (n.id, n.lat, n.lon)).foldlM (sinkNode c) sunk := by
  unfold extractPlain
  generalize messages ph 1 group = datas at h
  induction datas generalizing nodes sunk with
  | nil =>
    cases nodes with
    | nil => rfl
    | cons _ _ => simp at h
  | cons data rest ih =>
    cases nodes with
    | nil => simp at h
    | cons node nodes =>
      obtain ⟨hnode, hrest⟩ := cons.inj h
      rw [foldlM_cons, map_cons, foldlM_cons, hnode]
      simp only [orStop, Except.mapError, ok_bind]
      congr 1
      funext sunk'
      exact ih sunk' hrest

lemma exists_kind_map {α : Type} {xs : List α} {f : α → Element} {k kind : ElementKind}
    (hf : ∀ x, elementKind (f x) = k) :
    (∃ e ∈ xs.map f, elementKind e = kind) ↔ xs.isEmpty = false ∧ kind = k := by
  cases xs with
  | nil => simp
  | cons x xs => simp [hf, eq_comm]

lemma exists_mem_append {α : Type} {P : α → Prop} {xs ys : List α} :
    (∃ x ∈ xs ++ ys, P x) ↔ (∃ x ∈ xs, P x) ∨ ∃ x ∈ ys, P x := by
  simp only [mem_append, or_and_right, exists_or]

lemma exists_kind_groupList {dense : List DenseNode} {nodes : List WireNode}
    {ways : List WireWay} {relations : List WireRelation} (kind : ElementKind) :
    (∃ e ∈ groupList fields dense nodes ways relations, elementKind e = kind) ↔
      (⟨!dense.isEmpty || !nodes.isEmpty, !ways.isEmpty, !relations.isEmpty⟩ : KindSet).has kind =
        true := by
  rw [groupList, exists_mem_append, exists_mem_append, exists_mem_append,
    exists_kind_map (k := .node) fun _ => rfl, exists_kind_map (k := .node) fun _ => rfl,
    exists_kind_map (k := .way) fun _ => rfl, exists_kind_map (k := .relation) fun _ => rfl]
  cases kind <;> simp [KindSet.has]

lemma exists_mem_flatten_cons {kind : ElementKind} :
    (∃ e ∈ (part :: parts).flatten, elementKind e = kind) ↔
      (∃ e ∈ part, elementKind e = kind) ∨ ∃ e ∈ parts.flatten, elementKind e = kind := by
  rw [flatten_cons, exists_mem_append]

lemma extractDense_eq {ids : Nat} {message : Option WireDenseNodes} {dense : List DenseNode}
    (hgroup : groupDense ph group = .ok d) (hmessage : DenseMessage ph d ids)
    (hparsed : validatedDense ph group = .ok message)
    (hdense : message.elim (.ok []) (denseNodes ph fields) = .ok dense) (kinds : KindSet)
    (sunk : List NodeTuple) :
    extractDense ph (scalarsOf fields) kinds sunk d =
      ((dense.map fun n => (n.id, n.lat, n.lon)).foldlM (sinkNode (scalarsOf fields)) sunk).map
        fun out => (if dense = [] then kinds else kinds.add .node, out) := by
  rcases validatedDense_eq_ok.mp hparsed with ⟨hnone, rfl⟩ | ⟨data, w, hsome, hparse, rfl⟩
  · rw [hgroup, Except.ok.injEq] at hnone
    subst hnone
    cases hdense
    rfl
  · rw [hgroup, Except.ok.injEq] at hsome
    subst hsome
    cases hmessage with
    | @some _ w' ids lats lons hparse' hok =>
      rw [hparse, Except.ok.injEq] at hparse'
      subst hparse'
      have hempty : w.idData = [] ↔ dense = [] := by
        have hlen := congrArg length (denseNodes_sums hdense).1
        rw [Deltas.length_sumsFrom, ph.packedSint64_eq hok.idValues, length_map, length_map] at hlen
        rw [← hok.idValues.eq_nil_iff, ← length_eq_zero_iff, ← length_eq_zero_iff, hlen]
      have hscan := scanDenseCoords_eq (c := scalarsOf fields) hok hdense sunk
      simp only [extractDense, hparse, orStop, Except.mapError, ok_bind, hscan, hempty]
      cases ((dense.map fun n => (n.id, n.lat, n.lon)).foldlM (sinkNode (scalarsOf fields)) sunk)
        <;> rfl

lemma extractGroup_eq {k : KindSet} {n : Nat} (hvalid : GroupOk ph group k n)
    (hpart : groupElements ph fields group = .ok part) (acc : KindSet) (sunk : List NodeTuple) :
    ∃ kinds, (∀ kind, kinds.has kind = true ↔
        acc.has kind = true ∨ ∃ e ∈ part, elementKind e = kind) ∧
      extractGroup ph (scalarsOf fields) (acc, sunk) group =
        ((part.filterMap rawNode?).foldlM (sinkNode (scalarsOf fields)) sunk).map
          fun out => (kinds, out) := by
  obtain ⟨message, dense, nodes, ways, relations, hparts, rfl⟩ := groupElements_eq_ok.mp hpart
  obtain ⟨fs, hfs⟩ := hvalid.framed
  obtain ⟨d, ids, hgroup, hmessage, -⟩ := hvalid.dense
  have hmessages : ∀ target, messages ph target group = bodies ph target fs :=
    fun _ => (messages_of_fields hfs).2
  have hlength : ∀ {α : Type} {parse : Bytes → Except Error α} {target : Nat} {out : List α},
      (messages ph target group).map parse = out.map .ok →
        (bodies ph target fs).isEmpty = out.isEmpty := by
    intro α parse target out hout
    have hlen := congrArg length hout
    rw [hmessages, length_map, length_map] at hlen
    rw [Bool.eq_iff_iff, isEmpty_iff_length_eq_zero, isEmpty_iff_length_eq_zero, hlen]
  have hnodes := hlength hparts.nodes
  have hways := hlength hparts.ways
  have hrelations := hlength hparts.relations
  let walked := acc.union ⟨!nodes.isEmpty, !ways.isEmpty, !relations.isEmpty⟩
  refine ⟨if dense = [] then walked else walked.add .node, ?_, ?_⟩
  · intro kind
    rw [exists_kind_groupList]
    cases dense <;> cases kind <;> simp [walked, KindSet.has, KindSet.union, KindSet.add]
  · rw [extractGroup, walk_scanGroupField hfs hgroup, hnodes, hways, hrelations,
      rawNodes_groupList, foldlM_append]
    have hdense := extractDense_eq hgroup hmessage hparts.parsed hparts.dense walked sunk
    have hplain := fun out => extractPlain_eq (c := scalarsOf fields) hparts.nodes out
    simp only [orStop, Except.mapError, ok_bind]
    rw [hdense]
    cases hrun : (dense.map fun n => (n.id, n.lat, n.lon)).foldlM (sinkNode (scalarsOf fields)) sunk
    with
    | error e => rfl
    | ok out =>
      simp only [Except.map, ok_bind]
      cases nodes with
      | nil => rfl
      | cons node nodes =>
        simp only [isEmpty_cons, Bool.not_false, if_true, hplain]
        rfl

lemma extractGroups_eq {groups : List Bytes}
    (hparts : groups.map (groupElements ph fields) = parts.map .ok)
    (hvalid : ∀ data ∈ groups, ∃ k n, validateGroup ph data = .ok (k, n)) (acc : KindSet)
    (sunk : List NodeTuple) : ∃ kinds, (∀ kind, kinds.has kind = true ↔
        acc.has kind = true ∨ ∃ e ∈ parts.flatten, elementKind e = kind) ∧
      groups.foldlM (extractGroup ph (scalarsOf fields)) (acc, sunk) =
        ((parts.flatten.filterMap rawNode?).foldlM (sinkNode (scalarsOf fields)) sunk).map
          fun out => (kinds, out) := by
  induction groups generalizing parts acc sunk with
  | nil =>
    cases parts with
    | nil => exact ⟨acc, by simp, rfl⟩
    | cons _ _ => simp at hparts
  | cons group groups ih =>
    cases parts with
    | nil => simp at hparts
    | cons part parts =>
      obtain ⟨hpart, hrest⟩ := cons.inj hparts
      rw [forall_mem_cons] at hvalid
      obtain ⟨⟨k, n, hgroup⟩, hvalid⟩ := hvalid
      obtain ⟨mid, hmid, hstep⟩ := extractGroup_eq (validateGroup_ok hgroup) hpart acc sunk
      rw [foldlM_cons, hstep, flatten_cons, filterMap_append, foldlM_append]
      cases hrun : (part.filterMap rawNode?).foldlM (sinkNode (scalarsOf fields)) sunk with
      | error e =>
        obtain ⟨kinds, hkinds, -⟩ := ih hrest hvalid mid []
        refine ⟨kinds, ?_, rfl⟩
        intro kind
        rw [hkinds, hmid, exists_mem_append, or_assoc]
      | ok out =>
        obtain ⟨kinds, hkinds, hgo⟩ := ih hrest hvalid mid out
        refine ⟨kinds, ?_, ?_⟩
        · intro kind
          rw [hkinds, hmid, exists_mem_append, or_assoc]
        · simp only [Except.map, ok_bind]
          exact hgo

variable {table : List Bytes} {block : PrimitiveBlock}

lemma elements_parts {top : Top} {es : List Element} (hopen : Opened ph bytes block top table)
    (hes : elements ph block = .ok es) :
    ∃ parts : List (List Element),
      top.groups.map (groupElements ph top.fields) = parts.map .ok ∧ es = parts.flatten := by
  obtain ⟨groups, parts, hgroups, hparts, rfl⟩ := elements_eq_ok.mp hes
  rw [hopen.groups, Except.ok.injEq] at hgroups
  rw [← hgroups, hopen.fields] at hparts
  exact ⟨parts, hparts, rfl⟩

lemma fields_of_groupElements (h : groupElements ph fields group = .ok part) :
    part.filterMap nodeTuple? = (part.filterMap rawNode?).map (decoded (scalarsOf fields)) := by
  obtain ⟨message, dense, nodes, ways, relations, hparts, rfl⟩ := groupElements_eq_ok.mp h
  have hdense : ∀ n ∈ dense, n.fields = fields := by
    have hrun := hparts.dense
    cases message with
    | none =>
      cases hrun
      simp
    | some w => exact (denseNodes_sums hrun).2.2.2
  have htuples : dense.filterMap (fun n => nodeTuple? (.denseNode n)) =
      (dense.map fun n => (n.id, n.lat, n.lon)).map (decoded (scalarsOf fields)) := by
    rw [List.map_map, ← filterMap_eq_map]
    refine filterMap_congr fun n hn => ?_
    have hfields := hdense n hn
    subst hfields
    rfl
  have hplain : nodes.filterMap (fun n => nodeTuple? (.node ⟨fields, n⟩)) =
      (nodes.map fun n => (n.id, n.lat, n.lon)).map (decoded (scalarsOf fields)) := by
    rw [List.map_map, ← filterMap_eq_map]
    rfl
  rw [rawNodes_groupList, map_append, ← htuples, ← hplain]
  simp [groupList, filterMap_append, filterMap_map, Function.comp_def, nodeTuple?]

lemma nodeTuples_eq {groups : List Bytes}
    (h : groups.map (groupElements ph fields) = parts.map .ok) :
    parts.flatten.filterMap nodeTuple? =
      (parts.flatten.filterMap rawNode?).map (decoded (scalarsOf fields)) := by
  induction groups generalizing parts with
  | nil =>
    cases parts with
    | nil => rfl
    | cons _ _ => simp at h
  | cons group groups ih =>
    cases parts with
    | nil => simp at h
    | cons part parts =>
      obtain ⟨hpart, hrest⟩ := cons.inj h
      rw [flatten_cons, filterMap_append, filterMap_append, map_append,
        fields_of_groupElements hpart, ih hrest]

lemma extractNodeCoords_run {top : Top} {es : List Element}
    (hopen : Opened ph bytes block top table) (hes : elements ph block = .ok es) :
    ∃ kinds, (∀ kind, kinds.has kind = true ↔ ∃ e ∈ es, elementKind e = kind) ∧
      extractNodeCoords ph bytes =
        ((es.filterMap rawNode?).foldlM (sinkNode (scalarsOf top.fields)) []).map
          (fun out => (kinds, out)) ∧
      es.filterMap nodeTuple? = (es.filterMap rawNode?).map (decoded (scalarsOf top.fields)) := by
  obtain ⟨parts, hparts, rfl⟩ := elements_parts hopen hes
  obtain ⟨kinds, hkinds, hrun⟩ := extractGroups_eq hparts hopen.valid {} []
  refine ⟨kinds, fun kind => ?_, ?_, nodeTuples_eq hparts⟩
  · rw [hkinds]
    simp
  · rw [extractNodeCoords, walk_scanField hopen.walked]
    exact hrun

lemma extractNodeCoords_tuples {top : Top} {es : List Element} {kinds : KindSet}
    {out : List NodeTuple} (hopen : Opened ph bytes block top table)
    (hes : elements ph block = .ok es) (h : extractNodeCoords ph bytes = .ok (kinds, out)) :
    out = es.filterMap nodeTuple? := by
  obtain ⟨_, -, hrun, htuples⟩ := extractNodeCoords_run hopen hes
  rw [h] at hrun
  rw [htuples]
  rcases foldlM_sinkNode (scalarsOf top.fields) (es.filterMap rawNode?) [] with
    ⟨-, hsunk⟩ | ⟨_, _, _, -, -, hsunk⟩
  · rw [hsunk] at hrun
    cases hrun
    rfl
  · rw [hsunk] at hrun
    cases hrun

/-- On a constructed block the scanner sinks the accessors' ids and coordinates and collects the
kinds. It stops early only at a coordinate outside `i32`. -/
theorem extractNodeCoords_eq_elements {bytes : Bytes} {block : PrimitiveBlock}
    (h : fromVec ph bytes = .ok block) (hfits : Fits bytes block) :
    ∃ es, elements ph block = .ok es ∧
      (∀ kinds out, extractNodeCoords ph bytes = .ok (kinds, out) → out = es.filterMap nodeTuple? ∧
          ∀ kind, kinds.has kind = true ↔ ∃ e ∈ es, elementKind e = kind) ∧
      ∀ stopped, extractNodeCoords ph bytes = .error stopped →
        stopped.error = decimicroErr ∧ stopped.sunk <+: es.filterMap nodeTuple? ∧
          ∃ n ∈ es.filterMap rawNode?, ¬Representable (scalarsOf block.block.fields) n := by
  obtain ⟨es, hes⟩ := elements_ok h hfits
  obtain ⟨top, table, hopen⟩ := fromVec_opened h hfits
  refine ⟨es, hes, ?_⟩
  obtain ⟨kinds, hkinds, hrun, htuples⟩ := extractNodeCoords_run hopen hes
  rw [hrun, hopen.fields, htuples]
  rcases foldlM_sinkNode (scalarsOf top.fields) (es.filterMap rawNode?) [] with
    ⟨-, hsunk⟩ | ⟨before, n, after, hsplit, hn, hsunk⟩
  · rw [hsunk]
    constructor
    · intro kinds' out hout
      cases hout
      exact ⟨rfl, hkinds⟩
    · intro stopped hstopped
      cases hstopped
  · rw [hsunk]
    constructor
    · intro kinds' out hout
      cases hout
    · intro stopped hstopped
      cases hstopped
      refine ⟨rfl, ?_, n, ?_, hn⟩
      · rw [hsplit, map_append, nil_append]
        exact prefix_append _ _
      · rw [hsplit]
        simp

/-- A node on the last latitude `i32` holds under the default granularity, and one past it. -/
def edgeBlock : Bytes :=
  lenField 2 (lenField 1 (varintField 1 2 ++ varintField 8 (zigzagEncode (2 ^ 31 - 1))) ++
    lenField 1 (varintField 1 4 ++ varintField 8 (zigzagEncode (2 ^ 31))))

theorem extractNodeCoords_eq_elements_edge :
    ∃ block, fromVec Reference.crate edgeBlock = .ok block ∧
      ∃ es, elements Reference.crate block = .ok es ∧
        (∀ kinds out, extractNodeCoords Reference.crate edgeBlock = .ok (kinds, out) →
          out = es.filterMap nodeTuple? ∧
            ∀ kind, kinds.has kind = true ↔ ∃ e ∈ es, elementKind e = kind) ∧
        ∀ stopped, extractNodeCoords Reference.crate edgeBlock = .error stopped →
          stopped.error = decimicroErr ∧ stopped.sunk <+: es.filterMap nodeTuple? ∧
            ∃ n ∈ es.filterMap rawNode?, ¬Representable (scalarsOf block.block.fields) n := by
  have haccepted : ∃ block, fromVec Reference.crate edgeBlock = .ok block ∧
      edgeBlock.length + 8 * block.block.stringTableLen < 2 ^ 32 := ⟨_, rfl, by decide⟩
  obtain ⟨block, hblock, hfits⟩ := haccepted
  exact ⟨block, hblock, extractNodeCoords_eq_elements hblock hfits⟩

/-- A group of one plain node. -/
def nodeGroup : Bytes := lenField 1 (varintField 1 2)

/-- The group, and a field no reader knows behind it. -/
def paddedBlock (padding : Bytes) : Bytes := lenField 2 nodeGroup ++ lenField 15 padding

lemma skipField_lenValue (hlen : padding.length < 2 ^ 64) :
    ph.reader.skipField wireLen (lenValue padding ++ []) = .ok [] :=
  ph.skipField_len.mpr ⟨padding, Crate.readLenDelimited_lenValue hlen []⟩

lemma walk_padded {σ : Type} {handler : Handler Error σ} (hshrinks : Shrinks handler) {s s' : σ}
    (hgroup : handler s 2 wireLen (lenValue nodeGroup ++ (lenField 15 padding ++ [])) =
      .ok (s', lenField 15 padding ++ []))
    (hpadding : handler s' 15 wireLen (lenValue padding ++ []) = .ok (s', [])) :
    walk ph.reader handler s (paddedBlock padding) = .ok s' := by
  have hsplit : paddedBlock padding = lenField 2 nodeGroup ++ (lenField 15 padding ++ []) := by
    rw [paddedBlock, append_nil]
  rw [hsplit, Crate.walk_lenField hshrinks (by decide) (by decide) hgroup,
    Crate.walk_lenField hshrinks (by decide) (by decide) hpadding, walk_nil]

lemma readLenDelimited_nodeGroup (rest : Bytes) :
    ph.readLenDelimited (lenValue nodeGroup ++ rest) = .ok (nodeGroup, rest) :=
  Crate.readLenDelimited_lenValue (by decide) rest

lemma scanBlockFields_padded (hlen : padding.length < 2 ^ 64) :
    scanBlockFields ph (paddedBlock padding) = .ok ⟨{}, [], [position 2 4]⟩ := by
  have hwalk : walk ph.reader (blockField ph (paddedBlock padding).length) {}
      (paddedBlock padding) = .ok { groups := [position 2 4] } := by
    have hstart : startOf (paddedBlock padding).length nodeGroup (lenField 15 padding ++ []) =
        2 := by
      have hfront : (lenField 2 nodeGroup).length = 6 := by decide
      have hbody : nodeGroup.length = 4 := by decide
      rw [startOf, paddedBlock, append_nil, length_append, hfront, hbody]
      omega
    refine walk_padded (steps_blockField _).shrinks ?_ ?_
    · simp only [blockField, readLenDelimited_nodeGroup, Except.map, hstart]
      rfl
    · simp only [blockField, scalarField, skip, skipField_lenValue hlen, Except.map]
  rw [scanBlockFields, hwalk]
  rfl

/-- The scanner reads the node. -/
theorem extractNodeCoords_padded (hlen : padding.length < 2 ^ 64) :
    extractNodeCoords Reference.crate (paddedBlock padding) =
      .ok (⟨true, false, false⟩, [(1, 0, 0)]) := by
  have hwalk : walk Reference.crate.reader (scanField Reference.crate) {} (paddedBlock padding) =
      .ok { groups := [nodeGroup] } := by
    refine walk_padded local_scanField.steps.shrinks ?_ ?_
    · simp only [scanField, take, readLenDelimited_nodeGroup, Except.map, Except.bind]
      rfl
    · simp only [scanField, skip, skipField_lenValue hlen, Except.map]
  rw [extractNodeCoords, hwalk]
  rfl

/-- The construction validates the node group, and its groups are read from a table whose start
is narrowed to 32 bits. -/
theorem fromVec_padded (hlen : padding.length < 2 ^ 64) :
    fromVec Reference.crate (paddedBlock padding) =
      .ok ⟨inlineTables (paddedBlock padding) [] [position 2 4] {}, ⟨true, false, false⟩, 1⟩ := by
  have hslice : sliceAt (paddedBlock padding) (position 2 4).1.toNat (position 2 4).2.toNat =
      nodeGroup := by
    have hfront : 2 + 4 ≤ (lenField 2 nodeGroup).length := by decide
    exact sliceAt_inside hfront (lenField 15 padding)
  have hvalid : validateGroups Reference.crate [nodeGroup] = .ok (⟨true, false, false⟩, 1) := rfl
  rw [fromVec, scanBlockFields_padded hlen]
  simp only [ok_bind, map_cons, map_nil, hslice, hvalid]
  rfl

/-- Zeros where the table of the groups is looked for: the one group reads as empty. -/
theorem groups_padded {more : Bytes} (hlen : 8 + more.length = 2 ^ 32) :
    (inlineTables (paddedBlock (leBytes 4 0 ++ (leBytes 4 0 ++ more))) [] [position 2 4]
      {}).groups = .ok [[]] := by
  let front := lenField 2 nodeGroup ++ Varint.encode (8 * 15 + wireLen) ++ Varint.encode (2 ^ 32)
  have hfront : front.length = 12 := by decide
  have hbody : (leBytes 4 0 ++ (leBytes 4 0 ++ more)).length = 2 ^ 32 := by
    rw [length_append, length_append, length_leBytes]
    omega
  have hbytes : paddedBlock (leBytes 4 0 ++ (leBytes 4 0 ++ more)) =
      front ++ (leBytes 4 0 ++ (leBytes 4 0 ++ more)) := by
    have hfield : lenField 15 (leBytes 4 0 ++ (leBytes 4 0 ++ more)) =
        Varint.encode (8 * 15 + wireLen) ++ (Varint.encode (2 ^ 32) ++
          (leBytes 4 0 ++ (leBytes 4 0 ++ more))) := by
      rw [lenField, lenValue, hbody]
    rw [paddedBlock, hfield]
    simp only [front, append_assoc]
  have hsize : (paddedBlock (leBytes 4 0 ++ (leBytes 4 0 ++ more))).length = 2 ^ 32 + 12 := by
    rw [hbytes, length_append, hbody, hfront, Nat.add_comm]
  generalize paddedBlock (leBytes 4 0 ++ (leBytes 4 0 ++ more)) = bytes at hbytes hsize
  have hbase : (inlineTables bytes [] [position 2 4] {}).grInlineOffset.toNat = 12 := by
    simp [inlineTables, hsize]
  have hgroup : (inlineTables bytes [] [position 2 4] {}).group 0 = .ok [] := by
    have hoff := leAt_append 4 0 (by decide) front
      (leBytes 4 0 ++ (more ++ entryBytes (position 2 4))) 12 hfront.symm
    have hlength := leAt_append 4 0 (by decide) (front ++ leBytes 4 0)
      (more ++ entryBytes (position 2 4)) (12 + 4) (by simp [hfront])
    have hbuffer : (inlineTables bytes [] [position 2 4] {}).buffer =
        front ++ (leBytes 4 0 ++ (leBytes 4 0 ++ (more ++ entryBytes (position 2 4)))) := by
      simp [inlineTables, hbytes]
    rw [append_assoc] at hlength
    rw [WireBlock.group, hbase, hbuffer, entrySlice, Nat.zero_mul, Nat.add_zero, hoff, hlength]
    rfl
  have hcount : (inlineTables bytes [] [position 2 4] {}).groupCount = 1 := rfl
  rw [WireBlock.groups, hcount]
  simp [range_succ, hgroup, pure, Except.pure]

lemma groups_zeros :
    (inlineTables (paddedBlock (replicate (2 ^ 32) 0)) [] [position 2 4] {}).groups = .ok [[]] := by
  have hzeros : replicate (2 ^ 32) (0 : UInt8) =
      leBytes 4 0 ++ (leBytes 4 0 ++ replicate (2 ^ 32 - 8) 0) := by
    have hfour : leBytes 4 0 = replicate 4 0 := by decide
    have hsize : 2 ^ 32 = 4 + (4 + (2 ^ 32 - 8)) := by decide
    rw [hfour, replicate_append_replicate, replicate_append_replicate, ← hsize]
  have hrest : 8 + (replicate (2 ^ 32 - 8) (0 : UInt8)).length = 2 ^ 32 := by
    rw [length_replicate]
    decide
  rw [hzeros]
  exact groups_padded hrest

/-- 4 GiB of padding: the elements of the block lose the node the scanner reads. -/
theorem extractNodeCoords_past_u32 :
    ∃ block, fromVec Reference.crate (paddedBlock (replicate (2 ^ 32) 0)) = .ok block ∧
      elements Reference.crate block = .ok [] ∧
      extractNodeCoords Reference.crate (paddedBlock (replicate (2 ^ 32) 0)) =
        .ok (⟨true, false, false⟩, [(1, 0, 0)]) := by
  have hlen : (replicate (2 ^ 32) (0 : UInt8)).length < 2 ^ 64 := by
    rw [length_replicate]
    decide
  refine ⟨_, fromVec_padded hlen, ?_, extractNodeCoords_padded hlen⟩
  rw [elements, groups_zeros]
  rfl

end NodeScan
