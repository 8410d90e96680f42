import Mathlib.Data.Set.List
import Pbfhogg.Read.BlobWire
import Pbfhogg.Read.Projection
import Pbfhogg.Read.RegionGrid
import Pbfhogg.Scan.Node

/-!
# Node blobs copied raw

The structural walk of `commands/extract/common.rs` and the two node passes that run it, over one
region with the wire scanner and over several with the dense columns. A blob they verify is copied,
so its payload must hold the counted nodes and nothing else.
-/

namespace RawCopy

open OsmId Protohoggr FieldWalk WireMessages BlockScan BlockValid Elements Projection Columnar RegionGrid
  NodeScan Fallible BlobWire List Function Option

variable {ph : Crate} {data group body : Bytes} {fields : BlockFields} {seen seen' : Bool}
  {fs : List Field} {fld : Field}

/-- How the structural walk ends before the last field. -/
inductive Exit
  | framing (e : Error)
  | ineligible

def answer {α : Type} : Except Exit α → Except Error Bool
  | .ok _ => .ok true
  | .error .ineligible => .ok false
  | .error (.framing e) => .error e

/-- A nested check: its error, or `Ok(false)` where it declines. -/
def demand : Except Error Bool → Except Exit Unit
  | .ok true => .ok ()
  | .ok false => .error .ineligible
  | .error e => .error (.framing e)

/-- `Passthrough`, of a blob of the schedule. -/
inductive Passthrough
  | no
  | candidate
  | verified (nodes : Nat)
deriving DecidableEq

/-- How a worker of a node pass ends without an answer. -/
inductive Failure
  | refused (e : ProjectError)
  | panic

/-- One arm of `settle_passthrough_candidates`. -/
def settle : Passthrough → Option Nat → Passthrough
  | .candidate, some nodes => .verified nodes
  | .candidate, none => .no
  | other, _ => other

section Source

variable (ph)

def cursor : Reader Exit := ph.reader.mapError .framing

def readBody (cur : Bytes) : Except Exit (Bytes × Bytes) :=
  (ph.readLenDelimited cur).mapError .framing

def singleDenseInfoField : Handler Exit Bool := fun seen field wire =>
  if field = 5 then
    if seen then fun _ => .error .ineligible else skip (cursor ph) true wire
  else skip (cursor ph) seen wire

def singleDenseInfo (dense : Bytes) : Except Error Bool :=
  answer (walk (cursor ph) (singleDenseInfoField ph) false dense)

def denseOnlyGroupField : Handler Exit Bool := fun seen field wire =>
  if field = 2 ∧ wire = wireLen ∧ seen = false then fun cur =>
    take (readBody ph cur) fun dense => (demand (singleDenseInfo ph dense)).map fun _ => true
  else fun _ => .error .ineligible

def denseOnlyGroup (group : Bytes) : Except Error Bool :=
  answer (walk (cursor ph) (denseOnlyGroupField ph) false group)

def denseOnlyPayloadField : Handler Exit Unit := fun s field wire =>
  if field = 2 ∧ wire = wireLen then fun cur =>
    take (readBody ph cur) fun group => demand (denseOnlyGroup ph group)
  else skip (cursor ph) s wire

def denseOnlyPayload (decompressed : Bytes) : Except Error Bool :=
  answer (walk (cursor ph) (denseOnlyPayloadField ph) () decompressed)

variable (claim : Option ElementKind)

/-- A payload validated under its claim, and the block `into_block` makes of it. -/
def validated (bytes : Bytes) :
    Except ProjectError PrimitiveBlock := do
  let block ← (fromVec ph bytes).mapError .malformed
  refuseUnder block.kinds claim
  return block

/-- `verify_candidate`. -/
def verifyCandidate (decompressed : Bytes) (scanned matching : Nat) :
    Except ProjectError (Option Nat) := do
  if matching ≠ scanned then return none
  let eligible ← (denseOnlyPayload ph decompressed).mapError .malformed
  if eligible = false then return none
  let _ ← validated ph none decompressed
  return some scanned

/-- The worker of the single-region node pass; `contains` is the region's test. -/
def classifyNodes (passthrough : Passthrough)
    (contains : Int32 → Int32 → Bool) (decompressed : Bytes) :
    Except ProjectError (List Int64 × Option Nat) := do
  let (kinds, tuples) ←
    (extractNodeCoords ph decompressed).mapError fun stopped => .malformed stopped.error
  refuseUnder kinds claim
  let matching := (tuples.filter fun t => contains t.2.1 t.2.2).map Prod.fst
  let verified ← if passthrough = .candidate then
      verifyCandidate ph decompressed tuples.length matching.length
    else .ok none
  return (matching, verified)

def collectMatching (grid : Option Grid) (c : DenseNodeColumns) (bboxes : List BBox)
    (out : List (List Int64)) : Option (List (List Int64)) :=
  match grid with
  | some grid => collectMatchingIdsMultiBboxGrid c bboxes grid out
  | none => collectMatchingIdsMultiBbox c bboxes out

/-- A plain node, tested against every region. -/
def pushNode (bboxes : List BBox) (out : List (List Int64)) (n : Node) :
    Option (List (List Int64)) :=
  bboxes.zipIdx.foldlM
    (fun out p => pushHit p.1 p.2 (n.id, n.decimicroLat, n.decimicroLon) out) out

/-- `classify_columns`: the ids of each region and the length of the columns, or a panic. -/
def classifyColumns (bboxes : List BBox) (grid : Option Grid) (block : PrimitiveBlock) :
    Option (List (List Int64) × Nat) := do
  let (columns, observed) ← (decodeDenseColumns ph block).toOption
  let out ← collectMatching grid columns bboxes (replicate bboxes.length [])
  let groups ← block.block.groups.toOption
  let out ← groups.foldlM (fun out group => do
    let nodes ← (reparsed ph "Node" (WireNode.parse ph) 1 group).toOption
    nodes.foldlM (fun out n => pushNode bboxes out ⟨block.block.fields, n⟩) out) out
  return (out, observed)

/-- The worker of the multi-region node pass. -/
def classifyRegions (passthrough : Passthrough) (bboxes : List BBox)
    (grid : Option Grid) (bytes : Bytes) :
    Except Failure (List (List Int64) × Option Nat) := do
  let block ← (validated ph claim bytes).mapError .refused
  let eligible ← if passthrough = .candidate then
      (denseOnlyPayload ph bytes).mapError fun e => .refused (.malformed e)
    else .ok false
  let (regionIds, observed) ← (classifyColumns ph bboxes grid block).elim (.error .panic) .ok
  return (regionIds,
    if eligible = true ∧ ∀ ids ∈ regionIds, ids.length = observed then some observed else none)

/-- A group of nothing, or of one dense message with at most one metadata message. -/
def DenseGroup (group : Bytes) : Prop :=
  ∃ fs, Fields ph.reader group fs ∧ (fs = [] ∨ ∃ fld body inner, fs = [fld] ∧
    messageOf ph 2 fld = some body ∧ Fields ph.reader body inner ∧
      inner.countP (fun fld => fld.number = 5) ≤ 1)

def DenseOnly (data : Bytes) : Prop :=
  ∃ fs, Fields ph.reader data fs ∧ ∀ group ∈ bodies ph 2 fs, DenseGroup ph group

/-- The payload decodes to `n` dense nodes inside the region, and its groups carry no more. -/
def Whole (data : Bytes) (n : Nat) (inside : Int32 → Int32 → Prop) : Prop :=
  DenseOnly ph data ∧ ∃ block, ∃ nodes : List DenseNode, fromVec ph data = .ok block ∧
    elements ph block = .ok (nodes.map .denseNode) ∧ nodes.length = n ∧
      ∀ node ∈ nodes, inside node.decimicroLat node.decimicroLon

end Source

lemma answer_eq_true {α : Type} {r : Except Exit α} : answer r = .ok true ↔ ∃ a, r = .ok a := by
  rcases r with (e | -) | a <;> simp [answer]

lemma demand_eq_ok {r : Except Error Bool} {u : Unit} : demand r = .ok u ↔ r = .ok true := by
  rcases r with e | (- | -) <;> simp [demand]

lemma readsField_refused {α : Type} {w : Nat} :
    ReadsField (cursor ph) w fun _ => (.error .ineligible : Except Exit (α × Bytes)) := nofun

lemma local_singleDenseInfoField : Local (cursor ph) (singleDenseInfoField ph) := by
  intro seen field wire
  unfold singleDenseInfoField
  split
  · split
    · exact readsField_refused
    · exact readsField_skip _ _
  · exact readsField_skip _ _

lemma local_denseOnlyGroupField : Local (cursor ph) (denseOnlyGroupField ph) := by
  intro seen field wire
  unfold denseOnlyGroupField
  split
  · next h =>
    obtain ⟨-, rfl, -⟩ := h
    exact readsField_take (ReadsField.mapError Crate.readsField_len) _
  · exact readsField_refused

lemma local_denseOnlyPayloadField : Local (cursor ph) (denseOnlyPayloadField ph) := by
  intro s field wire
  unfold denseOnlyPayloadField
  split
  · next h =>
    obtain ⟨-, rfl⟩ := h
    exact readsField_take (ReadsField.mapError Crate.readsField_len) _
  · exact readsField_skip _ _

/-- A walk that accepts, as a fold over the fields of the message. -/
lemma fold_of_answer {σ : Type} {h : Handler Exit σ} {s : σ} (hl : Local (cursor ph) h)
    (ha : answer (walk (cursor ph) h s data) = .ok true) :
    ∃ fs t, Fields ph.reader data fs ∧ fs.foldlM (absorb h) s = .ok t := by
  obtain ⟨t, hwalk⟩ := answer_eq_true.mp ha
  obtain ⟨fs, hfs, hfold⟩ := (walk_ok_iff hl).mp hwalk
  exact ⟨fs, t, hfs.of_mapError, hfold⟩

lemma absorb_info (h : absorb (singleDenseInfoField ph) seen fld = .ok seen') :
    if fld.number = 5 then seen = false ∧ seen' = true else seen' = seen := by
  unfold absorb singleDenseInfoField at h
  split at h
  · next hfive =>
    rw [if_pos hfive]
    cases seen with
    | true => cases h
    | false =>
      obtain ⟨p, hskip, rfl⟩ := map_eq_ok.mp h
      obtain ⟨rest, -, rfl⟩ := map_eq_ok.mp hskip
      exact ⟨rfl, rfl⟩
  · next hfive =>
    rw [if_neg hfive]
    obtain ⟨p, hskip, rfl⟩ := map_eq_ok.mp h
    obtain ⟨rest, -, rfl⟩ := map_eq_ok.mp hskip
    rfl

lemma count_info {t : Bool} (h : fs.foldlM (absorb (singleDenseInfoField ph)) seen = .ok t) :
    fs.countP (fun fld => fld.number = 5) + seen.toNat ≤ 1 := by
  induction fs generalizing seen with
  | nil => cases seen <;> decide
  | cons fld fs ih =>
    rw [foldlM_cons] at h
    obtain ⟨seen', hstep, h⟩ := bind_eq_ok.mp h
    have hone := absorb_info hstep
    have hrest := ih h
    rw [countP_cons]
    split at hone
    · next hfive =>
      obtain ⟨rfl, rfl⟩ := hone
      simpa [hfive] using hrest
    · next hfive =>
      subst hone
      simpa [hfive] using hrest

/-- The bytes a nested check is handed are those of the message. -/
lemma messageOf_of_readBody {rest : Bytes} {target : Nat} (hnumber : fld.number = target)
    (hwire : fld.wire = wireLen) (h : readBody ph fld.raw = .ok (body, rest)) :
    messageOf ph target fld = some body := by
  simp [messageOf, hnumber, hwire, mapError_eq_ok.mp h]

lemma absorb_group (h : absorb (denseOnlyGroupField ph) seen fld = .ok seen') :
    seen = false ∧ seen' = true ∧
      ∃ body, messageOf ph 2 fld = some body ∧ singleDenseInfo ph body = .ok true := by
  by_cases hfield : fld.number = 2 ∧ fld.wire = wireLen ∧ seen = false
  · have hhandler : denseOnlyGroupField ph seen fld.number fld.wire = fun cur =>
        take (readBody ph cur) fun dense =>
          (demand (singleDenseInfo ph dense)).map fun _ => true := if_pos hfield
    obtain ⟨body, rest, hread, hcheck⟩ := (absorb_take_eq_ok hhandler).mp h
    obtain ⟨u, hdemand, rfl⟩ := map_eq_ok.mp hcheck
    exact ⟨hfield.2.2, rfl, body, messageOf_of_readBody hfield.1 hfield.2.1 hread,
      demand_eq_ok.mp hdemand⟩
  · rw [absorb, denseOnlyGroupField, if_neg hfield] at h
    cases h

lemma denseGroup_of_accepted (h : denseOnlyGroup ph group = .ok true) : DenseGroup ph group := by
  obtain ⟨fs, t, hfs, hfold⟩ := fold_of_answer local_denseOnlyGroupField h
  refine ⟨fs, hfs, ?_⟩
  cases fs with
  | nil => exact .inl rfl
  | cons fld fs =>
    rw [foldlM_cons] at hfold
    obtain ⟨seen, hstep, hfold⟩ := bind_eq_ok.mp hfold
    obtain ⟨-, rfl, body, hbody, hinfo⟩ := absorb_group hstep
    obtain ⟨inner, t, hinner, hcount⟩ := fold_of_answer local_singleDenseInfoField hinfo
    cases fs with
    | nil => exact .inr ⟨fld, body, inner, rfl, hbody, hinner, by simpa using count_info hcount⟩
    | cons fld' fs =>
      -- A second field finds the first one seen.
      rw [foldlM_cons] at hfold
      obtain ⟨_, hstep, -⟩ := bind_eq_ok.mp hfold
      cases (absorb_group hstep).1

lemma absorb_payload {u : Unit} (h : absorb (denseOnlyPayloadField ph) () fld = .ok u)
    (hbody : messageOf ph 2 fld = some body) : denseOnlyGroup ph body = .ok true := by
  have hfield : fld.number = 2 ∧ fld.wire = wireLen := by
    by_contra hne
    rw [messageOf, if_neg hne] at hbody
    cases hbody
  have hhandler : denseOnlyPayloadField ph () fld.number fld.wire = fun cur =>
      take (readBody ph cur) fun group => demand (denseOnlyGroup ph group) := if_pos hfield
  obtain ⟨body', rest, hread, hcheck⟩ := (absorb_take_eq_ok hhandler).mp h
  rw [messageOf_of_readBody hfield.1 hfield.2 hread, some.injEq] at hbody
  exact hbody ▸ demand_eq_ok.mp hcheck

lemma denseOnly_of_accepted (h : denseOnlyPayload ph data = .ok true) : DenseOnly ph data := by
  obtain ⟨fs, t, hfs, hfold⟩ := fold_of_answer local_denseOnlyPayloadField h
  refine ⟨fs, hfs, fun group hgroup => denseGroup_of_accepted ?_⟩
  obtain ⟨fld, hfld, hbody⟩ := mem_filterMap.mp hgroup
  clear hfs h hgroup
  induction fs with
  | nil => cases hfld
  | cons head fs ih =>
    rw [foldlM_cons] at hfold
    obtain ⟨_, hstep, hfold⟩ := bind_eq_ok.mp hfold
    rcases mem_cons.mp hfld with rfl | hfld
    · exact absorb_payload hstep hbody
    · exact ih hfold hfld

lemma messages_denseGroup {target : Nat} (h : DenseGroup ph group) (htarget : target ≠ 2) :
    messages ph target group = [] := by
  obtain ⟨fs, hfs, hshape⟩ := h
  rw [(messages_of_fields hfs).2]
  rcases hshape with rfl | ⟨fld, body, -, rfl, hbody, -⟩
  · rfl
  · have hnumber : fld.number = 2 := by
      by_contra hne
      rw [messageOf, if_neg fun hf => hne hf.1] at hbody
      cases hbody
    simp [bodies, messageOf, hnumber, htarget.symm]

lemma dense_part {part : List Element} (h : DenseGroup ph group)
    (hpart : groupElements ph fields group = .ok part) : ∀ e ∈ part, ∃ n, .denseNode n = e := by
  obtain ⟨message, dense, nodes, ways, relations, hparts, rfl⟩ := groupElements_eq_ok.mp hpart
  have hnodes := hparts.nodes
  have hways := hparts.ways
  have hrelations := hparts.relations
  rw [messages_denseGroup h (by decide), List.map_nil, eq_comm, List.map_eq_nil_iff]
    at hnodes hways hrelations
  intro e he
  simp only [groupList, hnodes, hways, hrelations, List.map_nil, List.append_nil, List.mem_map] at he
  obtain ⟨n, -, rfl⟩ := he
  exact ⟨n, rfl⟩

section Block

variable {block : PrimitiveBlock} {top : Top} {table : List Bytes} {es : List Element}

lemma DenseOnly.groups (h : DenseOnly ph data) (hopen : Opened ph data block top table) :
    ∀ group ∈ top.groups, DenseGroup ph group := by
  obtain ⟨fs, hfs, hgroups⟩ := h
  obtain ⟨fs', hfs', heq⟩ := groups_eq_bodies hopen.walked
  rw [heq, hfs'.unique hfs]
  exact hgroups

lemma DenseOnly.nodes (h : DenseOnly ph data) (hopen : Opened ph data block top table)
    (hes : elements ph block = .ok es) : ∃ nodes : List DenseNode, nodes.map .denseNode = es := by
  obtain ⟨parts, hparts, rfl⟩ := elements_parts hopen hes
  refine (Set.range_list_map Element.denseNode).ge ?_
  intro e he
  obtain ⟨part, hpart, he⟩ := mem_flatten.mp he
  have hmem : Except.ok part ∈ top.groups.map (groupElements ph top.fields) :=
    hparts ▸ mem_map_of_mem hpart
  obtain ⟨group, hgroup, hread⟩ := mem_map.mp hmem
  exact dense_part (h.groups hopen group hgroup) hread e he

end Block

/-- How many ids a region has. -/
def size (out : List (List Int64)) (region : Nat) : Option Nat := out[region]?.map length

section Regions

variable {bboxes : List BBox} {grid : Option Grid} {c : DenseNodeColumns}
  {out out' : List (List Int64)} {n : Int64 × Int32 × Int32} {region : Nat}

lemma size_pushHit {b : BBox} {at_ : Nat} (h : pushHit b at_ n out = some out') :
    size out' region = (size out region).map
      (· + if at_ = region ∧ b.hit n.2.1 n.2.2 = true then 1 else 0) := by
  unfold pushHit push at h
  split at h
  · next hhit =>
    split at h
    · cases h
      by_cases hregion : at_ = region
      · simp [size, hregion, hhit, comp_def]
      · simp [size, hregion, comp_def]
    · cases h
  · next hhit =>
    cases h
    simp [size, hhit, comp_def]

/-- The regions a node lands in. -/
lemma size_boxes {ps : List (BBox × Nat)}
    (h : ps.foldlM (fun out p => pushHit p.1 p.2 n out) out = some out') :
    size out' region = (size out region).map
      (· + ps.countP fun p => p.2 = region ∧ p.1.hit n.2.1 n.2.2 = true) := by
  induction ps generalizing out with
  | nil =>
    cases h
    simp
  | cons p ps ih =>
    rw [foldlM_cons] at h
    obtain ⟨mid, hstep, h⟩ := bind_eq_some_iff.mp h
    rw [ih h, size_pushHit hstep, List.countP_cons, Option.map_map]
    congr 1
    funext m
    simp only [comp_apply, decide_eq_true_eq]
    omega

lemma countP_boxes_le (bboxes : List BBox) (P : BBox → Prop) [DecidablePred P] (region : Nat) :
    bboxes.zipIdx.countP (fun p => p.2 = region ∧ P p.1) ≤ 1 := by
  have hle : bboxes.zipIdx.countP (fun p => p.2 = region ∧ P p.1) ≤
      (bboxes.zipIdx.map Prod.snd).count region := by
    rw [count, countP_map]
    refine countP_mono_left fun p _ hp => ?_
    simp only [decide_eq_true_eq] at hp
    simp [hp.1]
  refine hle.trans (nodup_iff_count_le_one.mp ?_ region)
  rw [zipIdx_map_snd]
  exact nodup_range'

/-- No region gets more ids than there are rows, and one that gets as many holds them all. -/
theorem size_collected {is : List Nat} {m : Nat}
    (h : is.foldlM (fun out i => do
      let n ← node c i
      bboxes.zipIdx.foldlM (fun out p => pushHit p.1 p.2 n out) out) out = some out')
    (hm : size out region = some m) :
    ∃ k ≤ is.length, size out' region = some (m + k) ∧ (k = is.length → ∀ i ∈ is, ∃ n b,
      node c i = some n ∧ bboxes[region]? = some b ∧ b.hit n.2.1 n.2.2 = true) := by
  induction is generalizing out m with
  | nil =>
    cases h
    exact ⟨0, le_rfl, hm, fun _ => nofun⟩
  | cons i is ih =>
    rw [foldlM_cons] at h
    obtain ⟨mid, hstep, h⟩ := bind_eq_some_iff.mp h
    obtain ⟨n, hn, hboxes⟩ := bind_eq_some_iff.mp hstep
    have hone := countP_boxes_le bboxes (fun b => b.hit n.2.1 n.2.2 = true) region
    have hmid : size mid region = _ := size_boxes hboxes
    rw [hm, map_some] at hmid
    obtain ⟨k, hk, hsize, hall⟩ := ih h hmid
    refine ⟨_, ?_, by rw [hsize, Nat.add_assoc], ?_⟩
    · rw [length_cons]
      omega
    · intro hfull
      rw [length_cons] at hfull
      rw [forall_mem_cons]
      refine ⟨?_, hall (by omega)⟩
      obtain ⟨p, hp, hhit⟩ := countP_pos_iff.mp (by omega :
        0 < bboxes.zipIdx.countP fun p => p.2 = region ∧ p.1.hit n.2.1 n.2.2 = true)
      obtain ⟨rfl, hin⟩ := of_decide_eq_true hhit
      exact ⟨n, p.1, hn, mem_zipIdx_iff_getElem?.mp hp, hin⟩

lemma collectMatching_eq (hgrid : ∀ g, grid = some g → build bboxes = some g) :
    collectMatching grid c bboxes out = collectMatchingIdsMultiBbox c bboxes out := by
  cases grid with
  | none => rfl
  | some g =>
    simp only [collectMatching, collectMatchingIdsMultiBboxGrid, candidates_foldlM (hgrid g rfl)]
    rfl

lemma classifyColumns_full {block : PrimitiveBlock} {top : Top} {table : List Bytes}
    {nodes : List DenseNode} {regionIds : List (List Int64)} {observed : Nat}
    (hgrid : ∀ g, grid = some g → build bboxes = some g) (hdense : DenseOnly ph data)
    (hopen : Opened ph data block top table) (hes : elements ph block = .ok (nodes.map .denseNode))
    (h : classifyColumns ph bboxes grid block = some (regionIds, observed))
    (hfull : ∀ ids ∈ regionIds, ids.length = observed) : observed = nodes.length ∧
      ∀ n ∈ nodes, ∀ b ∈ bboxes, b.hit n.decimicroLat n.decimicroLon = true := by
  have hnodes : (nodes.map Element.denseNode).filterMap denseNode? = nodes := by
    simp [filterMap_map, comp_def, denseNode?]
  obtain ⟨⟨columns, rows⟩, hcolumns, h⟩ := bind_eq_some_iff.mp h
  rw [decodeDenseColumns_eq hes, hnodes] at hcolumns
  cases hcolumns
  obtain ⟨out, hout, h⟩ := bind_eq_some_iff.mp h
  obtain ⟨groups, hgroups, h⟩ := bind_eq_some_iff.mp h
  rw [hopen.groups] at hgroups
  cases hgroups
  obtain ⟨out', hloop, h⟩ := bind_eq_some_iff.mp h
  cases h
  -- No group has a plain node, so the columns gave every id.
  have hplain : ∀ groups : List Bytes, (∀ group ∈ groups, DenseGroup ph group) →
      groups.foldlM (fun out group => do
        let nodes ← (reparsed ph "Node" (WireNode.parse ph) 1 group).toOption
        nodes.foldlM (fun out n => pushNode bboxes out ⟨block.block.fields, n⟩) out) out =
          some out := by
    intro groups hgroups
    induction groups with
    | nil => rfl
    | cons group groups ih =>
      rw [forall_mem_cons] at hgroups
      rw [foldlM_cons, reparsed, messages_denseGroup hgroups.1 (by decide)]
      exact ih hgroups.2
  rw [hplain _ (hdense.groups hopen)] at hloop
  cases hloop
  refine ⟨rfl, fun n hn b hb => ?_⟩
  obtain ⟨region, hregion⟩ := mem_iff_getElem?.mp hb
  have hstart : size (replicate bboxes.length []) region = some 0 := by
    have hlt := (List.getElem?_eq_some_iff.mp hregion).1
    simp [size, hlt]
  rw [collectMatching_eq hgrid, collectMatchingIdsMultiBbox] at hout
  obtain ⟨k, -, hsize, hall⟩ := size_collected hout hstart
  obtain ⟨ids, hids, hlen⟩ := map_eq_some_iff.mp hsize
  have hk : k = nodes.length := by
    rw [← hfull ids (mem_of_getElem? hids), hlen, Nat.zero_add]
  obtain ⟨i, hi⟩ := mem_iff_getElem?.mp hn
  have hrow : node (columnsOf nodes) i = some (n.id, n.decimicroLat, n.decimicroLon) := by
    simp [node, columnsOf, hi]
  rw [len_columnsOf] at hall
  have hrange : i ∈ range nodes.length := mem_range.mpr (List.getElem?_eq_some_iff.mp hi).1
  obtain ⟨row, b', hrow', hb', hhit⟩ := hall (by rwa [length_range]) i hrange
  rw [hrow, some.injEq] at hrow'
  rw [hregion, some.injEq] at hb'
  subst hrow' hb'
  exact hhit

end Regions

lemma settle_eq_verified {p : Passthrough} {verified : Option Nat} {n : Nat}
    (hp : ∀ m, p ≠ .verified m) (h : settle p verified = .verified n) :
    p = .candidate ∧ verified = some n := by
  cases p with
  | no => cases verified <;> cases h
  | candidate =>
    cases verified with
    | none => cases h
    | some m =>
      cases h
      exact ⟨rfl, rfl⟩
  | verified m => exact absurd rfl (hp m)

variable {block : PrimitiveBlock}

lemma validated_eq_ok {claim : Option ElementKind} (h : validated ph claim data = .ok block) :
    fromVec ph data = .ok block := by
  obtain ⟨block', hblock, h⟩ := bind_eq_ok.mp h
  obtain ⟨_, -, h⟩ := bind_eq_ok.mp h
  cases h
  exact mapError_eq_ok.mp hblock

/-- A constructed block of a dense-only payload. -/
lemma opened_dense (hlen : data.length ≤ maxBlobMessageSize) (hdense : DenseOnly ph data)
    (h : fromVec ph data = .ok block) :
    ∃ top table, ∃ nodes : List DenseNode, Opened ph data block top table ∧
      elements ph block = .ok (nodes.map .denseNode) := by
  have hfits : Fits data block := fits_of_small h (by unfold maxBlobMessageSize at hlen; omega)
  obtain ⟨es, hes⟩ := elements_ok h hfits
  obtain ⟨top, table, hopen⟩ := fromVec_opened h hfits
  obtain ⟨nodes, rfl⟩ := hdense.nodes hopen hes
  exact ⟨top, table, nodes, hopen, hes⟩

/-- The wire scanner beside the decoder. -/
theorem whole_of_scanned {kinds : KindSet} {tuples : List NodeTuple}
    {inside : Int32 → Int32 → Bool} (hlen : data.length ≤ maxBlobMessageSize)
    (haccept : denseOnlyPayload ph data = .ok true) (hblock : fromVec ph data = .ok block)
    (hscan : extractNodeCoords ph data = .ok (kinds, tuples))
    (hall : (tuples.filter fun t => inside t.2.1 t.2.2).length = tuples.length) :
    Whole ph data tuples.length fun lat lon => inside lat lon = true := by
  have hdense := denseOnly_of_accepted haccept
  obtain ⟨top, table, nodes, hopen, hes⟩ := opened_dense hlen hdense hblock
  have htuples : tuples = nodes.map fun n => (n.id, n.decimicroLat, n.decimicroLon) := by
    rw [extractNodeCoords_tuples hopen hes hscan]
    simp [filterMap_map, comp_def, nodeTuple?]
  refine ⟨hdense, block, nodes, hblock, hes, by rw [htuples, length_map], fun n hn => ?_⟩
  exact length_filter_eq_length_iff.mp hall _ (htuples ▸ mem_map_of_mem hn)

lemma verifyCandidate_eq_some {scanned matching n : Nat}
    (h : verifyCandidate ph data scanned matching = .ok (some n)) :
    matching = scanned ∧ denseOnlyPayload ph data = .ok true ∧
      (∃ block, fromVec ph data = .ok block) ∧ n = scanned := by
  unfold verifyCandidate at h
  split at h
  · cases h
  · next hcount =>
    obtain ⟨eligible, haccept, h⟩ := bind_eq_ok.mp h
    split at h
    · cases h
    · next heligible =>
      obtain ⟨block, hblock, h⟩ := bind_eq_ok.mp h
      cases h
      rw [Bool.not_eq_false] at heligible
      exact ⟨not_not.mp hcount, heligible ▸ mapError_eq_ok.mp haccept,
        ⟨block, validated_eq_ok hblock⟩, rfl⟩

/-- A payload is copied raw only when decoding it would select all of it, and the count recorded is
the number of its elements. -/
theorem verified_copies_whole (hlen : data.length ≤ maxBlobMessageSize) :
    (∀ (inside : Int32 → Int32 → Bool) block kinds tuples, denseOnlyPayload ph data = .ok true →
      fromVec ph data = .ok block → extractNodeCoords ph data = .ok (kinds, tuples) →
      (tuples.filter fun t => inside t.2.1 t.2.2).length = tuples.length →
        Whole ph data tuples.length fun lat lon => inside lat lon = true) ∧
    (∀ claim p inside ids verified n, (∀ m, p ≠ Passthrough.verified m) →
      classifyNodes ph claim p inside data = .ok (ids, verified) → settle p verified = .verified n →
        Whole ph data n fun lat lon => inside lat lon = true) ∧
    ∀ claim p bboxes grid ids verified n, (∀ m, p ≠ Passthrough.verified m) →
      (∀ g, grid = some g → build bboxes = some g) →
      classifyRegions ph claim p bboxes grid data = .ok (ids, verified) →
      settle p verified = .verified n →
        Whole ph data n fun lat lon => ∀ b ∈ bboxes, b.hit lat lon = true := by
  refine ⟨fun inside block kinds tuples => whole_of_scanned hlen, ?_, ?_⟩
  · intro claim p inside ids verified n hp h hsettle
    obtain ⟨rfl, rfl⟩ := settle_eq_verified hp hsettle
    obtain ⟨⟨kinds, tuples⟩, hscan, h⟩ := bind_eq_ok.mp h
    obtain ⟨_, -, h⟩ := bind_eq_ok.mp h
    obtain ⟨verified, hverify, h⟩ := bind_eq_ok.mp h
    cases h
    obtain ⟨hall, haccept, ⟨block, hblock⟩, rfl⟩ := verifyCandidate_eq_some hverify
    rw [length_map] at hall
    exact whole_of_scanned hlen haccept hblock (mapError_eq_ok.mp hscan) hall
  · intro claim p bboxes grid ids verified n hp hgrid h hsettle
    obtain ⟨rfl, rfl⟩ := settle_eq_verified hp hsettle
    obtain ⟨block, hblock, h⟩ := bind_eq_ok.mp h
    obtain ⟨eligible, haccept, h⟩ := bind_eq_ok.mp h
    obtain ⟨⟨regionIds, observed⟩, hcolumns, h⟩ := bind_eq_ok.mp h
    have hverified := congrArg Prod.snd (Except.ok.inj h)
    simp only [ite_none_right_eq_some, some.injEq] at hverified
    obtain ⟨⟨rfl, hfull⟩, rfl⟩ := hverified
    have hdense := denseOnly_of_accepted (mapError_eq_ok.mp haccept)
    have hfrom := validated_eq_ok (mapError_eq_ok.mp hblock)
    obtain ⟨top, table, nodes, hopen, hes⟩ := opened_dense hlen hdense hfrom
    have hclassify : classifyColumns ph bboxes grid block = some (regionIds, observed) := by
      cases hclass : classifyColumns ph bboxes grid block with
      | none => rw [hclass] at hcolumns; cases hcolumns
      | some r => rw [hclass] at hcolumns; cases hcolumns; rfl
    obtain ⟨hobserved, hinside⟩ := classifyColumns_full hgrid hdense hopen hes hclassify hfull
    exact ⟨hdense, block, nodes, hfrom, hes, hobserved.symm, hinside⟩

/-- A group of two dense nodes on the diagonal, with their tags and metadata. -/
def densePair (delta : Nat) : Bytes :=
  lenField 2 (lenField 2 (packedField 1 [delta, 2] ++
    lenField 5 (packedField 1 [1, 1] ++ packedField 2 [2, 2] ++ packedField 3 [2, 2] ++
      packedField 4 [2, 2] ++ packedField 5 [6, 0]) ++
    packedField 8 [delta, 2] ++ packedField 9 [delta, 2] ++ packedField 10 [1, 2, 0, 0]))

/-- A payload of two groups, verified by both passes. -/
def densePayload : Bytes :=
  lenField 1 (lenField 1 [] ++ lenField 1 [0x6b] ++ lenField 1 [0x76] ++ lenField 1 [0x75]) ++
    densePair 2 ++ densePair 6

theorem verified_copies_whole_groups :
    Whole Reference.crate densePayload 4 (fun lat lon => (lat == lon) = true) ∧
      Whole Reference.crate densePayload 4 fun lat lon =>
        ∀ b ∈ [BBox.mk 0 9 0 9, BBox.mk 1 4 1 4], b.hit lat lon = true := by
  have hwhole := @verified_copies_whole Reference.crate densePayload (by decide)
  have hscan : ((classifyNodes Reference.crate (some .node) .candidate
      (fun lat lon => lat == lon) densePayload).map fun r =>
        settle .candidate r.2).toOption = some (.verified 4) := by decide +kernel
  have hregions : ((classifyRegions Reference.crate (some .node) .candidate
      [⟨0, 9, 0, 9⟩, ⟨1, 4, 1, 4⟩] none densePayload).map fun r =>
        settle .candidate r.2).toOption = some (.verified 4) := by decide +kernel
  obtain ⟨⟨ids, verified⟩, hnodes, hsettle⟩ := map_eq_ok.mp (ok_of_toOption hscan)
  obtain ⟨⟨ids', verified'⟩, hboxes, hsettle'⟩ := map_eq_ok.mp (ok_of_toOption hregions)
  have hcandidate : ∀ m, Passthrough.candidate ≠ .verified m := nofun
  exact ⟨hwhole.2.1 _ _ _ _ _ _ hcandidate hnodes hsettle.symm,
    hwhole.2.2 _ _ _ _ _ _ _ hcandidate (by simp) hboxes hsettle'.symm⟩

end RawCopy
