import Pbfhogg.Lib.Slices
import Pbfhogg.Read.Elements

/-!
# Projections over a validated block

`BlockBuffer::project` runs the validation of a block and hands each validated piece to the hooks of
a projection, with the addresses of the arrays that stay unread. A projection changes nothing of the
verdict.
-/

namespace Projection

open OsmId Protohoggr FieldWalk WireMessages PackedCount BlockScan BlockValid Elements Fallible
  Slices Deltas
open List hiding map_map

variable {element : Slice}

/-- How a projection is refused. -/
inductive ProjectError
  | malformed (e : Error)
  | kindContradiction (claimed found : ElementKind)

/-- `KindSet::foreign_to`. -/
def foreignTo (kinds : KindSet) (claimed : ElementKind) : Option ElementKind :=
  [ElementKind.node, .way, .relation].find? fun kind => kind ≠ claimed ∧ kinds.has kind

/-- `KindSet::refuse_under`. -/
def refuseUnder (kinds : KindSet) (claim : Option ElementKind) : Except ProjectError Unit :=
  match claim with
  | none => .ok ()
  | some claimed =>
    match foreignTo kinds claimed with
    | none => .ok ()
    | some found => .error (.kindContradiction claimed found)

/-- A way, and the address of its references. -/
structure WayAt where
  way : WireWay
  refsAt : Nat

def WayAt.refs (w : WayAt) : Slice := ⟨w.refsAt, w.way.refsData⟩

/-- A relation, and the addresses of its member ids and their types. -/
structure RelationAt where
  relation : WireRelation
  memidsAt : Nat
  typesAt : Nat

def RelationAt.memids (r : RelationAt) : Slice := ⟨r.memidsAt, r.relation.memidsData⟩

def RelationAt.types (r : RelationAt) : Slice := ⟨r.typesAt, r.relation.typesData⟩

/-- A dense message, and the address of its ids. -/
structure DenseAt where
  dense : WireDenseNodes
  idsAt : Nat

def DenseAt.ids (d : DenseAt) : Slice := ⟨d.idsAt, d.dense.idData⟩

/-- `GroupProjection`: what a projection does with each validated piece of a group. -/
structure GroupProjection (σ : Type) where
  groupBegin : σ → σ := id
  node : σ → WireNode → Option WireInfo → σ := fun s _ _ => s
  way : σ → WayAt → Option WireInfo → σ := fun s _ _ => s
  relation : σ → RelationAt → Option WireInfo → σ := fun s _ _ => s
  dense : σ → DenseAt → Nat → Option WireDenseInfo → σ := fun s _ _ _ => s
  groupEnd : σ → KindSet → σ := fun s _ => s

/-- `BlockScan`. -/
structure BlockVerdict where
  fields : BlockFields
  kinds : KindSet
  elementCount : Nat

section Source

variable (ph : Crate)

def WayAt.parse (element : Slice) : Except Error WayAt :=
  (walk ph.reader (noted element WireWay.refsData (wayField ph)) ({}, 0) element.bytes).map
    fun p => ⟨p.1, p.2⟩

def RelationAt.parse (element : Slice) : Except Error RelationAt :=
  (walk ph.reader (noted element (fun s => s.1.typesData)
    (noted element WireRelation.memidsData (relationField ph))) (({}, 0), 0) element.bytes).map
    fun p => ⟨p.1.1, p.1.2, p.2⟩

def DenseAt.parse (element : Slice) : Except Error DenseAt :=
  (walk ph.reader (noted element WireDenseNodes.idData (denseNodesField ph)) ({}, 0)
    element.bytes).map fun p => ⟨p.1, p.2⟩

/-- The messages a `WireMessageIter` yields, as slices. -/
def messagesAtFuel (target : Nat) (group : Slice) : Nat → Bytes → List Slice
  | 0, _ => []
  | fuel + 1, cur =>
    match nextMessage ph target cur with
    | .ok (some (body, rest)) =>
      ⟨endingAt group body rest, body⟩ :: messagesAtFuel target group fuel rest
    | _ => []

def messagesAt (target : Nat) (group : Slice) : List Slice :=
  messagesAtFuel ph target group group.bytes.length group.bytes

/-- `WireGroup::dense`, as a slice. -/
def groupDenseAt (group : Slice) : Except Error (Option Slice) :=
  (walk ph.reader (noted group (fun dense => dense.getD []) (groupDenseField ph)) (none, 0)
    group.bytes).map fun p => p.1.map fun bytes => ⟨p.2, bytes⟩

variable {σ : Type} (P : GroupProjection σ) (s : σ)

def projectNode (element : Bytes) : Except Error σ := do
  let node ← WireNode.parse ph element
  let info ← validateInfo ph node.infoData
  validateTagArrays node.keysData node.valsData "node has mismatched keys/vals tag array lengths"
  return P.node s node info

def projectWay (element : Slice) : Except Error σ := do
  let way ← WayAt.parse ph element
  let info ← validateInfo ph way.way.infoData
  validateTagArrays way.way.keysData way.way.valsData
    "way has mismatched keys/vals tag array lengths"
  validateWayGeometryArrays way.way
  return P.way s way info

def projectRelation (element : Slice) : Except Error σ := do
  let relation ← RelationAt.parse ph element
  let info ← validateInfo ph relation.relation.infoData
  validateTagArrays relation.relation.keysData relation.relation.valsData
    "relation has mismatched keys/vals tag array lengths"
  validateRelationMemberArrays relation.relation
  return P.relation s relation info

/-- The dense message of a group: the projection behind it, and how many ids it holds. -/
def projectDense (element : Slice) : Except Error (σ × Nat) := do
  let dense ← DenseAt.parse ph element
  let ids ← packedVarintCount dense.dense.idData
  let lats ← packedVarintCount dense.dense.latData
  let lons ← packedVarintCount dense.dense.lonData
  refuseIf (ids ≠ lats ∨ ids ≠ lons) "dense group has mismatched id/lat/lon array lengths"
  validateDenseKeysVals ph dense.dense.keysValsData ids
  let info ← validateDenseInfo ph dense.dense.infoData ids
  return (P.dense s dense ids info, ids)

/-- One turn of the loop of `validate_groups`. -/
def projectGroup (group : Slice) : Except Error (σ × KindSet × Nat) := do
  framing ph group.bytes
  let nodes := messages ph 1 group.bytes
  let ways := messagesAt ph 3 group
  let relations := messagesAt ph 4 group
  let s ← nodes.foldlM (projectNode ph P) (P.groupBegin s)
  let s ← ways.foldlM (projectWay ph P) s
  let s ← relations.foldlM (projectRelation ph P) s
  let dense ← groupDenseAt ph group
  let (s, ids) ← dense.elim (.ok (s, 0)) (projectDense ph P s)
  let kinds : KindSet :=
    { node := !nodes.isEmpty || decide (0 < ids)
      way := !ways.isEmpty
      relation := !relations.isEmpty }
  return (P.groupEnd s kinds, kinds, nodes.length + ways.length + relations.length + ids)

/-- `validate_groups`. -/
def projectGroups (groups : List Slice) : Except Error (σ × KindSet × Nat) :=
  groups.foldlM (fun acc group => do
    let (s, kinds, count) ← projectGroup ph P acc.1 group
    return (s, acc.2.1.union kinds, acc.2.2 + count)) (s, {}, 0)

/-- The slice of the buffer a recorded position names. -/
def sliceOf (buffer : Slice) (p : Position) : Slice :=
  ⟨buffer.addr + p.1.toNat, sliceAt buffer.bytes p.1.toNat p.2.toNat⟩

variable (make : BlockFields → List Position → σ)

/-- `validate_block`. -/
def validateBlock (buffer : Slice) :
    Except Error (σ × BlockVerdict) := do
  let scan ← scanBlockFields ph buffer.bytes
  let (s, kinds, count) ←
    projectGroups ph P (make scan.fields scan.stEntries) (scan.groupEntries.map (sliceOf buffer))
  validateStringtableUtf8 (scan.stEntries.map fun p => (sliceOf buffer p).bytes)
  return (s, ⟨scan.fields, kinds, count⟩)

/-- `BlockBuffer::project`. -/
def project (claim : Option ElementKind)
    (buffer : Slice) : Except ProjectError (σ × BlockVerdict) := do
  let out ← (validateBlock ph P make buffer).mapError .malformed
  refuseUnder out.2.kinds claim
  return out

end Source

section Positions

variable {ph : Crate}

variable {cur rest : Bytes}

lemma cuts_of_take {α σ : Type} {slot : σ → Bytes} {s : σ} {s' : σ}
    {read : Bytes → Except Error (α × Bytes)} {k : α → σ}
    (h : take (read cur) (fun a => .ok (k a)) = .ok (s', rest)) (hslot : ∀ a, slot (k a) = slot s) :
    slot s' = slot s := by
  obtain ⟨a, -, hk⟩ := take_eq_ok.mp h
  cases hk
  exact hslot a

/-- A packed field that is taken lies in front of the cursor behind it. -/
theorem takePacked_cuts {wire : Nat} {slot d : Bytes} {msg : String}
    (hwire : wire = wireLen ∨ wire = wireVarint)
    (h : takePacked ph wire slot msg cur = .ok (d, rest)) :
    d = slot ∨ ∃ before, cur = before ++ (d ++ rest) := by
  obtain ⟨bytes, hread, hk⟩ := take_eq_ok.mp h
  split at hk
  · cases hk
    exact .inl rfl
  · split at hk
    · cases hk
    · cases hk
      right
      rcases hwire with rfl | rfl
      · exact readLenDelimited_split hread
      · exact ⟨[], (ph.readRawField_varint.mp hread).1⟩

/-- A handler of which one packed field is noted: the others leave its slot alone. -/
theorem cuts_take {σ : Type} {slot : σ → Bytes} {s s' : σ} {d : Bytes → σ} {wire : Nat}
    {old : Bytes} {msg : String} (hwire : wire = wireLen ∨ wire = wireVarint)
    (hold : slot s = old) (hnew : ∀ x, slot (d x) = x)
    (h : take (takePacked ph wire old msg cur) (fun x => .ok (d x)) = .ok (s', rest)) :
    slot s' = slot s ∨ ∃ before, cur = before ++ (slot s' ++ rest) := by
  obtain ⟨x, hx, hk⟩ := take_eq_ok.mp h
  cases hk
  rw [hnew, hold]
  exact takePacked_cuts hwire hx

lemma kept_skip {σ : Type} {s s' : σ} {wire : Nat}
    (h : skip ph.reader s wire cur = .ok (s', rest)) : s' = s := by
  obtain ⟨r, -, heq⟩ := map_eq_ok.mp h
  cases heq
  rfl

lemma cuts_wayField : Cuts WireWay.refsData (wayField ph) := by
  intro s f w cur s' rest h
  unfold wayField at h
  split at h
  case h_7 => exact cuts_take (.inl rfl) rfl (fun _ => rfl) h
  case h_8 => exact cuts_take (.inr rfl) rfl (fun _ => rfl) h
  case h_14 => exact .inl (congrArg _ (kept_skip h))
  all_goals exact .inl (cuts_of_take h fun _ => rfl)

lemma cuts_memids : Cuts WireRelation.memidsData (relationField ph) := by
  intro s f w cur s' rest h
  unfold relationField at h
  split at h
  case h_9 => exact cuts_take (.inl rfl) rfl (fun _ => rfl) h
  case h_10 => exact cuts_take (.inr rfl) rfl (fun _ => rfl) h
  case h_13 => exact .inl (congrArg _ (kept_skip h))
  all_goals exact .inl (cuts_of_take h fun _ => rfl)

lemma cuts_types : Cuts WireRelation.typesData (relationField ph) := by
  intro s f w cur s' rest h
  unfold relationField at h
  split at h
  case h_11 => exact cuts_take (.inl rfl) rfl (fun _ => rfl) h
  case h_12 => exact cuts_take (.inr rfl) rfl (fun _ => rfl) h
  case h_13 => exact .inl (congrArg _ (kept_skip h))
  all_goals exact .inl (cuts_of_take h fun _ => rfl)

lemma cuts_denseNodesField : Cuts WireDenseNodes.idData (denseNodesField ph) := by
  intro s f w cur s' rest h
  unfold denseNodesField at h
  split at h
  case h_1 => exact cuts_take (.inl rfl) rfl (fun _ => rfl) h
  case h_2 => exact cuts_take (.inr rfl) rfl (fun _ => rfl) h
  case h_10 => exact .inl (congrArg _ (kept_skip h))
  all_goals exact .inl (cuts_of_take h fun _ => rfl)

lemma cuts_groupDenseField :
    Cuts (fun dense : Option Bytes => dense.getD []) (groupDenseField ph) := by
  intro s f w cur s' rest h
  unfold groupDenseField at h
  split at h
  · split at h
    · cases h
    · obtain ⟨body, hread, hk⟩ := take_eq_ok.mp h
      cases hk
      exact .inr (readLenDelimited_split hread)
  · rw [kept_skip h]
    exact .inl rfl

/-- Every array that starts empty is held wherever its note starts. -/
theorem held_nil (s : Slice) (at_ : Nat) : s.Held ⟨at_, []⟩ := .inl rfl

/-- A parse that also notes addresses has the verdict of the parse. -/
theorem WayAt.parse_verdict (element : Slice) :
    (WayAt.parse ph element).map WayAt.way = WireWay.parse ph element.bytes := by
  have hwalk : (walk ph.reader (noted element WireWay.refsData (wayField ph)) ({}, 0)
      element.bytes).map Prod.fst = WireWay.parse ph element.bytes := walk_noted _ _
  rw [← hwalk, WayAt.parse, map_map]

lemma RelationAt.parse_verdict (element : Slice) :
    (RelationAt.parse ph element).map RelationAt.relation =
      WireRelation.parse ph element.bytes := by
  have hwalk : ((walk ph.reader (noted element (fun s => s.1.typesData)
      (noted element WireRelation.memidsData (relationField ph))) (({}, 0), 0)
      element.bytes).map Prod.fst).map Prod.fst = WireRelation.parse ph element.bytes := by
    rw [walk_noted]
    exact walk_noted _ _
  rw [← hwalk, RelationAt.parse, map_map, map_map]

lemma DenseAt.parse_verdict (element : Slice) :
    (DenseAt.parse ph element).map DenseAt.dense = WireDenseNodes.parse ph element.bytes := by
  have hwalk : (walk ph.reader (noted element WireDenseNodes.idData (denseNodesField ph)) ({}, 0)
      element.bytes).map Prod.fst = WireDenseNodes.parse ph element.bytes := walk_noted _ _
  rw [← hwalk, DenseAt.parse, map_map]

lemma groupDenseAt_verdict (group : Slice) :
    (groupDenseAt ph group).map (Option.map Slice.bytes) = groupDense ph group.bytes := by
  have hwalk : (walk ph.reader (noted group (fun dense => dense.getD []) (groupDenseField ph))
      (none, 0) group.bytes).map Prod.fst = groupDense ph group.bytes := walk_noted _ _
  rw [← hwalk, groupDenseAt, map_map]
  congr 1
  funext p
  cases p.1 <;> rfl

lemma WayAt.held_of_parse {w : WayAt} (h : WayAt.parse ph element = .ok w) :
    element.Held w.refs := by
  obtain ⟨p, hp, rfl⟩ := map_eq_ok.mp h
  exact held_of_walk local_wayField.steps cuts_wayField (suffix_refl _) (held_nil element 0) hp

lemma RelationAt.held_of_parse {r : RelationAt} (h : RelationAt.parse ph element = .ok r) :
    element.Held r.memids ∧ element.Held r.types := by
  obtain ⟨p, hp, rfl⟩ := map_eq_ok.mp h
  have hinner : (walk ph.reader (noted element (fun s => s.1.typesData)
      (noted element WireRelation.memidsData (relationField ph))) (({}, 0), 0)
      element.bytes).map Prod.fst = walk ph.reader (noted element WireRelation.memidsData
        (relationField ph)) ({}, 0) element.bytes := walk_noted _ _
  rw [hp] at hinner
  constructor
  · exact held_of_walk local_relationField.steps cuts_memids (suffix_refl _)
      (held_nil element 0) hinner.symm
  · exact held_of_walk (steps_noted local_relationField.steps) (cuts_noted cuts_types)
      (suffix_refl _) (held_nil element 0) hp

lemma DenseAt.held_of_parse {d : DenseAt} (h : DenseAt.parse ph element = .ok d) :
    element.Held d.ids := by
  obtain ⟨p, hp, rfl⟩ := map_eq_ok.mp h
  exact held_of_walk local_denseNodesField.steps cuts_denseNodesField (suffix_refl _)
    (held_nil element 0) hp

lemma held_groupDenseAt {group : Slice} {dense : Option Slice}
    (h : groupDenseAt ph group = .ok dense) : ∀ d ∈ dense, group.Held d := by
  obtain ⟨⟨found, at_⟩, hp, rfl⟩ := map_eq_ok.mp h
  have hheld := held_of_walk local_groupDenseField.steps cuts_groupDenseField
    (suffix_refl _) (held_nil group 0) hp
  cases found with
  | none => simp
  | some bytes =>
    rintro d ⟨⟩
    exact hheld

lemma messagesAt_bytes (target : Nat) (group : Slice) :
    (messagesAt ph target group).map Slice.bytes = messages ph target group.bytes := by
  suffices hfuel : ∀ fuel cur, (messagesAtFuel ph target group fuel cur).map Slice.bytes =
      messagesFuel ph target fuel cur from hfuel _ _
  intro fuel
  induction fuel with
  | zero => exact fun _ => rfl
  | succ fuel ih =>
    intro cur
    rw [messagesAtFuel, messagesFuel]
    cases nextMessage ph target cur with
    | error e => rfl
    | ok message =>
      cases message with
      | none => rfl
      | some p => exact congrArg (p.1 :: ·) (ih p.2)

lemma nextMessage_cuts {target : Nat} {body : Bytes}
    (h : nextMessage ph target cur = .ok (some (body, rest))) :
    ∃ before, cur = before ++ (body ++ rest) := by
  suffices hfuel : ∀ fuel cur, nextMessageFuel ph target fuel cur = .ok (some (body, rest)) →
      ∃ before, cur = before ++ (body ++ rest) from hfuel _ _ h
  clear h
  intro fuel
  induction fuel with
  | zero => nofun
  | succ fuel ih =>
    intro cur h
    rw [nextMessageFuel] at h
    split at h
    · cases h
    · cases h
    · next field wire cur' htag =>
      obtain ⟨tag, htagged, -⟩ := ph.readTag_split htag
      have hbehind : ∃ before, cur' = before ++ (body ++ rest) := by
        split at h
        · obtain ⟨p, hp, heq⟩ := map_eq_ok.mp h
          cases heq
          exact readLenDelimited_split hp
        · split at h
          · cases h
          · next cur'' hskip =>
            obtain ⟨raw, hraw, -⟩ := ph.skipField_split hskip
            obtain ⟨before, hbefore⟩ := ih _ h
            exact ⟨raw ++ before, by rw [hraw, hbefore, append_assoc]⟩
      obtain ⟨before, hbefore⟩ := hbehind
      exact ⟨tag ++ before, by rw [htagged, hbefore, append_assoc]⟩

lemma held_messagesAt {target : Nat} {group : Slice} :
    ∀ s ∈ messagesAt ph target group, group.Held s := by
  suffices hfuel : ∀ fuel cur, cur <:+ group.bytes →
      ∀ s ∈ messagesAtFuel ph target group fuel cur, group.Held s from
    hfuel _ _ (suffix_refl _)
  intro fuel
  induction fuel with
  | zero => exact fun _ _ => by simp [messagesAtFuel]
  | succ fuel ih =>
    intro cur hsuffix
    rw [messagesAtFuel]
    split
    · next body rest hnext =>
      obtain ⟨before, hbefore⟩ := nextMessage_cuts hnext
      rw [forall_mem_cons]
      constructor
      · exact .inr (within_endingAt hsuffix hbefore)
      · refine ih rest (List.IsSuffix.trans ⟨before ++ body, ?_⟩ hsuffix)
        rw [hbefore, append_assoc]
    · simp

lemma within_sliceOf {buffer : Slice} {p : Position} {d : Bytes}
    (h : Placed buffer.bytes p d) : buffer.Within (sliceOf buffer p) := by
  obtain ⟨offset, rfl, hin, -⟩ := h
  have hoffset : (position offset d.length).1.toNat ≤ offset := by
    rw [position, UInt32.toNat_ofNat']
    exact Nat.mod_le _ _
  have hlength : (position offset d.length).2.toNat ≤ d.length := by
    rw [position, UInt32.toNat_ofNat']
    exact Nat.mod_le _ _
  refine ⟨buffer.bytes.take (position offset d.length).1.toNat,
    (buffer.bytes.drop (position offset d.length).1.toNat).drop
      (position offset d.length).2.toNat, ?_, ?_⟩
  · rw [sliceOf, sliceAt, take_append_drop, take_append_drop]
  · rw [length_take, Nat.min_eq_left (by omega)]
    rfl

end Positions

section Verdict

variable {ph : Crate} {σ : Type} {P : GroupProjection σ}

lemma foldlM_forM {α β : Type} {f : σ → α → Except Error σ} {g : β → Except Error Unit}
    {p : α → β} (h : ∀ s x, (f s x).map (fun _ => ()) = g (p x)) (xs : List α) (s : σ) :
    (xs.foldlM f s).map (fun _ => ()) = (xs.map p).forM g := by
  induction xs generalizing s with
  | nil => rfl
  | cons x xs ih =>
    rw [foldlM_cons]
    exact map_bind (h s x) fun s => ih s

lemma projectNode_verdict (s : σ) (element : Bytes) :
    (projectNode ph P s element).map (fun _ => ()) = validateNode ph element := by
  rw [projectNode, validateNode]
  refine map_bind_same fun node => map_bind_same fun info => ?_
  cases validateTagArrays node.keysData node.valsData
    "node has mismatched keys/vals tag array lengths" <;> rfl

lemma projectWay_verdict (s : σ) (element : Slice) :
    (projectWay ph P s element).map (fun _ => ()) = validateWay ph element.bytes := by
  rw [projectWay, validateWay]
  refine map_bind (WayAt.parse_verdict element) fun way => map_bind_same fun info =>
    map_bind_same fun _ => ?_
  cases validateWayGeometryArrays way.way <;> rfl

lemma projectRelation_verdict (s : σ) (element : Slice) :
    (projectRelation ph P s element).map (fun _ => ()) = validateRelation ph element.bytes := by
  rw [projectRelation, validateRelation]
  refine map_bind (RelationAt.parse_verdict element) fun relation => map_bind_same fun info =>
    map_bind_same fun _ => ?_
  cases validateRelationMemberArrays relation.relation <;> rfl

lemma projectDense_verdict (s : σ) (element : Slice) :
    (projectDense ph P s element).map Prod.snd = validateDense ph element.bytes := by
  rw [projectDense, validateDense]
  refine map_bind (DenseAt.parse_verdict element) fun dense => map_bind_same fun ids =>
    map_bind_same fun lats => map_bind_same fun lons => map_bind_same fun _ =>
      map_bind_same fun _ => map_bind_same fun info => rfl

lemma projectGroup_verdict (s : σ) (group : Slice) :
    (projectGroup ph P s group).map Prod.snd = validateGroup ph group.bytes := by
  have hways := @messagesAt_bytes ph 3 group
  have hrelations := @messagesAt_bytes ph 4 group
  rw [projectGroup, validateGroup, ← hways, ← hrelations]
  refine map_bind_same fun _ => ?_
  have hnodes : ∀ s, ((messages ph 1 group.bytes).foldlM (projectNode ph P) s).map (fun _ => ()) =
      (messages ph 1 group.bytes).forM (validateNode ph) := by
    intro s
    have hfold := foldlM_forM (p := id) (@projectNode_verdict ph σ P) (messages ph 1 group.bytes) s
    rwa [map_id] at hfold
  refine map_bind (hnodes _) fun s => map_bind (foldlM_forM projectWay_verdict _ s) fun s =>
    map_bind (foldlM_forM projectRelation_verdict _ s) fun s =>
      map_bind (groupDenseAt_verdict group) fun dense => ?_
  have hdense : (dense.elim (.ok (s, 0)) (projectDense ph P s)).map Prod.snd =
      (dense.map Slice.bytes).elim (.ok 0) (validateDense ph) := by
    cases dense with
    | none => rfl
    | some d => exact projectDense_verdict s d
  refine map_bind hdense fun out => ?_
  simp only [pure, Except.pure, Except.map, length_map, isEmpty_map]

lemma foldlM_projectGroup_verdict (groups : List Slice) (acc : σ × KindSet × Nat) :
    (groups.foldlM (fun (acc : σ × KindSet × Nat) group => do
        let (s, kinds, count) ← projectGroup ph P acc.1 group
        return (s, acc.2.1.union kinds, acc.2.2 + count)) acc).map Prod.snd =
      (groups.map Slice.bytes).foldlM (fun acc data => do
        let (kinds, count) ← validateGroup ph data
        return (acc.1.union kinds, acc.2 + count)) acc.2 := by
  induction groups generalizing acc with
  | nil => rfl
  | cons group groups ih =>
    rw [foldlM_cons, map_cons, foldlM_cons]
    refine map_bind ?_ fun acc => ih acc
    exact map_bind (projectGroup_verdict acc.1 group) fun _ => rfl

lemma projectGroups_verdict (s : σ) (groups : List Slice) :
    (projectGroups ph P s groups).map Prod.snd =
      validateGroups ph (groups.map Slice.bytes) :=
  foldlM_projectGroup_verdict groups (s, ({} : KindSet), 0)

/-- A projection accepts what construction accepts, with the same kinds and the same count, and
refuses the rest with the same error. -/
theorem validateBlock_verdict (make : BlockFields → List Position → σ) (buffer : Slice) :
    (validateBlock ph P make buffer).map (fun p => (p.2.kinds, p.2.elementCount)) =
      (fromVec ph buffer.bytes).map fun b => (b.kinds, b.elementCount) := by
  rw [validateBlock, fromVec]
  cases scanBlockFields ph buffer.bytes with
  | error e => rfl
  | ok scan =>
    have hgroups := @projectGroups_verdict ph σ P (make scan.fields scan.stEntries)
      (scan.groupEntries.map (sliceOf buffer))
    rw [List.map_map] at hgroups
    have hslices : Slice.bytes ∘ sliceOf buffer =
        fun p => sliceAt buffer.bytes p.1.toNat p.2.toNat := rfl
    rw [hslices] at hgroups
    have hstrings : scan.stEntries.map (fun p => (sliceOf buffer p).bytes) =
        scan.stEntries.map fun p => sliceAt buffer.bytes p.1.toNat p.2.toNat := rfl
    simp only [ok_bind]
    rw [← hgroups, hstrings]
    cases projectGroups ph P (make scan.fields scan.stEntries)
      (scan.groupEntries.map (sliceOf buffer)) with
    | error e => rfl
    | ok out =>
      simp only [ok_bind, Except.map]
      cases validateStringtableUtf8
        (scan.stEntries.map fun p => sliceAt buffer.bytes p.1.toNat p.2.toNat) <;> rfl

end Verdict

section Handed

variable {ph : Crate} {σ : Type} {P : GroupProjection σ}

/-- The messages of a group as they are handed over, each array held by the group. -/
structure Handed (ph : Crate) (group : Slice) (nodes : List (WireNode × Option WireInfo))
    (ways : List (WayAt × Option WireInfo)) (relations : List (RelationAt × Option WireInfo))
    (dense : Option (DenseAt × Nat × Option WireDenseInfo)) : Prop where
  node_messages : (messages ph 1 group.bytes).map (WireNode.parse ph) =
    (nodes.map Prod.fst).map .ok
  way_messages : (messages ph 3 group.bytes).map (WireWay.parse ph) = (ways.map (·.1.way)).map .ok
  relation_messages : (messages ph 4 group.bytes).map (WireRelation.parse ph) =
    (relations.map (·.1.relation)).map .ok
  dense_message : validatedDense ph group.bytes = .ok (dense.map (·.1.dense))
  refs : ∀ w ∈ ways, group.Held w.1.refs
  members : ∀ r ∈ relations, group.Held r.1.memids ∧ group.Held r.1.types
  ids : ∀ d ∈ dense, group.Held d.1.ids

/-- What a projection makes of the messages of a group. -/
def handOver (P : GroupProjection σ) (s : σ) (nodes : List (WireNode × Option WireInfo))
    (ways : List (WayAt × Option WireInfo)) (relations : List (RelationAt × Option WireInfo))
    (dense : Option (DenseAt × Nat × Option WireDenseInfo)) (kinds : KindSet) : σ :=
  let s := nodes.foldl (fun s n => P.node s n.1 n.2) (P.groupBegin s)
  let s := ways.foldl (fun s w => P.way s w.1 w.2) s
  let s := relations.foldl (fun s r => P.relation s r.1 r.2) s
  let s := dense.elim s fun d => P.dense s d.1 d.2.1 d.2.2
  P.groupEnd s kinds

lemma foldlM_handed {α β : Type} {f : σ → α → Except Error σ} {g : σ → β → σ}
    {Q : α → β → Prop} (hf : ∀ s x s', f s x = .ok s' → ∃ b, Q x b ∧ s' = g s b) {xs : List α}
    {s s' : σ} (h : xs.foldlM f s = .ok s') :
    ∃ bs, List.Forall₂ Q xs bs ∧ s' = bs.foldl g s := by
  induction xs generalizing s with
  | nil =>
    cases h
    exact ⟨[], .nil, rfl⟩
  | cons x xs ih =>
    rw [foldlM_cons] at h
    obtain ⟨t, ht, h⟩ := bind_eq_ok.mp h
    obtain ⟨b, hb, rfl⟩ := hf _ _ _ ht
    obtain ⟨bs, hbs, rfl⟩ := ih h
    exact ⟨b :: bs, .cons hb hbs, rfl⟩

lemma projectNode_handed (s : σ) (element : Bytes) (s' : σ)
    (h : projectNode ph P s element = .ok s') :
    ∃ n : WireNode × Option WireInfo, WireNode.parse ph element = .ok n.1 ∧
      s' = P.node s n.1 n.2 := by
  obtain ⟨node, hnode, h⟩ := bind_eq_ok.mp h
  obtain ⟨info, -, h⟩ := bind_eq_ok.mp h
  obtain ⟨_, -, h⟩ := bind_eq_ok.mp h
  cases h
  exact ⟨(node, info), hnode, rfl⟩

lemma projectWay_handed (s : σ) (element : Slice) (s' : σ)
    (h : projectWay ph P s element = .ok s') :
    ∃ w : WayAt × Option WireInfo, (WireWay.parse ph element.bytes = .ok w.1.way ∧
      element.Held w.1.refs) ∧ s' = P.way s w.1 w.2 := by
  obtain ⟨way, hway, h⟩ := bind_eq_ok.mp h
  obtain ⟨info, -, h⟩ := bind_eq_ok.mp h
  obtain ⟨_, -, h⟩ := bind_eq_ok.mp h
  obtain ⟨_, -, h⟩ := bind_eq_ok.mp h
  cases h
  refine ⟨(way, info), ⟨?_, WayAt.held_of_parse hway⟩, rfl⟩
  rw [← WayAt.parse_verdict, hway]
  rfl

lemma projectRelation_handed (s : σ) (element : Slice) (s' : σ)
    (h : projectRelation ph P s element = .ok s') :
    ∃ r : RelationAt × Option WireInfo, (WireRelation.parse ph element.bytes = .ok r.1.relation ∧
      element.Held r.1.memids ∧ element.Held r.1.types) ∧ s' = P.relation s r.1 r.2 := by
  obtain ⟨relation, hrelation, h⟩ := bind_eq_ok.mp h
  obtain ⟨info, -, h⟩ := bind_eq_ok.mp h
  obtain ⟨_, -, h⟩ := bind_eq_ok.mp h
  obtain ⟨_, -, h⟩ := bind_eq_ok.mp h
  cases h
  refine ⟨(relation, info), ⟨?_, RelationAt.held_of_parse hrelation⟩, rfl⟩
  rw [← RelationAt.parse_verdict, hrelation]
  rfl

lemma projectDense_handed {s s' : σ} {n : Nat} (h : projectDense ph P s element = .ok (s', n)) :
    ∃ d : DenseAt × Nat × Option WireDenseInfo,
      (WireDenseNodes.parse ph element.bytes = .ok d.1.dense ∧ element.Held d.1.ids) ∧
        s' = P.dense s d.1 d.2.1 d.2.2 := by
  obtain ⟨dense, hdense, h⟩ := bind_eq_ok.mp h
  obtain ⟨ids, -, h⟩ := bind_eq_ok.mp h
  obtain ⟨_, -, h⟩ := bind_eq_ok.mp h
  obtain ⟨_, -, h⟩ := bind_eq_ok.mp h
  obtain ⟨_, -, h⟩ := bind_eq_ok.mp h
  obtain ⟨_, -, h⟩ := bind_eq_ok.mp h
  obtain ⟨info, -, h⟩ := bind_eq_ok.mp h
  cases h
  refine ⟨(dense, n, info), ⟨?_, DenseAt.held_of_parse hdense⟩, rfl⟩
  rw [← DenseAt.parse_verdict, hdense]
  rfl

lemma map_parse_of_forall₂ {α β γ : Type} {parse : α → Except Error γ} {f : β → γ} {xs : List α}
    {bs : List β} (h : List.Forall₂ (fun x b => parse x = .ok (f b)) xs bs) :
    xs.map parse = (bs.map f).map .ok := by
  induction h with
  | nil => rfl
  | cons hb _ ih => rw [map_cons, map_cons, map_cons, hb, ih]

lemma handed_of_slices {α γ : Type} {group : Slice} {target : Nat}
    {parse : Bytes → Except Error γ} {value : α → γ} {bs : List α}
    (held : Slice → α → Prop) (hheld : ∀ x b, group.Held x → held x b → held group b)
    (h : List.Forall₂ (fun x b => parse x.bytes = .ok (value b) ∧ held x b)
      (messagesAt ph target group) bs) :
    (messages ph target group.bytes).map parse = (bs.map value).map .ok ∧
      ∀ b ∈ bs, held group b := by
  constructor
  · rw [← messagesAt_bytes, List.map_map]
    exact map_parse_of_forall₂ (h.imp fun _ _ hxb => hxb.1)
  · intro b hb
    obtain ⟨i, hi, rfl⟩ := mem_iff_getElem.mp hb
    have hi' : i < (messagesAt ph target group).length := h.length_eq ▸ hi
    exact hheld _ _ (held_messagesAt _ (getElem_mem hi')) (h.get hi' hi).2

lemma projectGroup_handed {s s' : σ} {group : Slice} {kinds : KindSet} {count : Nat}
    (h : projectGroup ph P s group = .ok (s', kinds, count)) :
    ∃ nodes ways relations dense, Handed ph group nodes ways relations dense ∧
      s' = handOver P s nodes ways relations dense kinds := by
  obtain ⟨_, -, h⟩ := bind_eq_ok.mp h
  obtain ⟨s₁, hnodes, h⟩ := bind_eq_ok.mp h
  obtain ⟨s₂, hways, h⟩ := bind_eq_ok.mp h
  obtain ⟨s₃, hrelations, h⟩ := bind_eq_ok.mp h
  obtain ⟨found, hfound, h⟩ := bind_eq_ok.mp h
  obtain ⟨⟨s₄, ids⟩, hdense, h⟩ := bind_eq_ok.mp h
  cases h
  obtain ⟨nodes, hnodeall, rfl⟩ := foldlM_handed projectNode_handed hnodes
  obtain ⟨ways, hwayall, rfl⟩ := foldlM_handed projectWay_handed hways
  obtain ⟨relations, hrelationall, rfl⟩ := foldlM_handed projectRelation_handed hrelations
  obtain ⟨hwayparse, hwayheld⟩ := handed_of_slices
    (fun g (w : WayAt × Option WireInfo) => g.Held w.1.refs)
    (fun _ _ hx hb => hx.trans hb) hwayall
  obtain ⟨hrelparse, hrelheld⟩ := handed_of_slices
    (fun g (r : RelationAt × Option WireInfo) => g.Held r.1.memids ∧ g.Held r.1.types)
    (fun _ _ hx hb => ⟨hx.trans hb.1, hx.trans hb.2⟩) hrelationall
  have hverdict := @groupDenseAt_verdict ph group
  rw [hfound] at hverdict
  cases found with
  | none =>
    cases hdense
    exact ⟨nodes, ways, relations, none,
      ⟨map_parse_of_forall₂ hnodeall, hwayparse, hrelparse,
        validatedDense_eq_ok.mpr (.inl ⟨hverdict.symm, rfl⟩), hwayheld, hrelheld, nofun⟩, rfl⟩
  | some element =>
    obtain ⟨d, ⟨hparse, hheld⟩, rfl⟩ := projectDense_handed hdense
    refine ⟨nodes, ways, relations, some d,
      ⟨map_parse_of_forall₂ hnodeall, hwayparse, hrelparse,
        validatedDense_eq_ok.mpr (.inr ⟨element.bytes, d.1.dense, hverdict.symm, hparse, rfl⟩),
        hwayheld, hrelheld, ?_⟩, rfl⟩
    rintro d' ⟨⟩
    exact (held_groupDenseAt hfound element rfl).trans hheld

/-- What is handed over of a group in a buffer, beside the dense nodes its walk yields. -/
structure HandedIn (ph : Crate) (buffer : Slice) (ways : List (WayAt × Option WireInfo))
    (relations : List (RelationAt × Option WireInfo))
    (dense : Option (DenseAt × Nat × Option WireDenseInfo)) (walked : List DenseNode) : Prop where
  refs : ∀ w ∈ ways, buffer.Held w.1.refs
  members : ∀ r ∈ relations, buffer.Held r.1.memids ∧ buffer.Held r.1.types
  ids : ∀ d ∈ dense, buffer.Held d.1.ids
  dense_ids : walked.map DenseNode.id =
    dense.elim [] fun d => sumsFrom 0 (ph.packedSint64 d.1.ids.bytes)

lemma map_ok_inj {α : Type} {xs ys : List α}
    (h : xs.map (Except.ok (ε := Error)) = ys.map .ok) : xs = ys :=
  map_injective_iff.mpr (fun _ _ heq => Except.ok.inj heq) h

/-- The messages handed over are those the element walk parses again. -/
theorem walk_of_handed {buffer group : Slice} {fields : BlockFields} {part : List Element}
    {nodes : List (WireNode × Option WireInfo)} {ways : List (WayAt × Option WireInfo)}
    {relations : List (RelationAt × Option WireInfo)}
    {dense : Option (DenseAt × Nat × Option WireDenseInfo)} (hgroup : buffer.Held group)
    (hhanded : Handed ph group nodes ways relations dense)
    (hpart : groupElements ph fields group.bytes = .ok part) :
    ∃ walked, HandedIn ph buffer ways relations dense walked ∧
      part = groupList fields walked (nodes.map Prod.fst) (ways.map (·.1.way))
        (relations.map (·.1.relation)) := by
  obtain ⟨message, walked, nodes', ways', relations', hparts, rfl⟩ := groupElements_eq_ok.mp hpart
  have hnodes := map_ok_inj (hhanded.node_messages.symm.trans hparts.nodes)
  have hways := map_ok_inj (hhanded.way_messages.symm.trans hparts.ways)
  have hrelations := map_ok_inj (hhanded.relation_messages.symm.trans hparts.relations)
  have hmessage := Except.ok.inj (hhanded.dense_message.symm.trans hparts.parsed)
  have hdense := hparts.dense
  rw [hnodes, hways, hrelations]
  refine ⟨walked, ⟨fun w hw => hgroup.trans (hhanded.refs w hw), fun r hr =>
    ⟨hgroup.trans (hhanded.members r hr).1, hgroup.trans (hhanded.members r hr).2⟩,
    fun d hd => hgroup.trans (hhanded.ids d hd), ?_⟩, rfl⟩
  rw [← hmessage] at hdense
  cases dense with
  | none =>
    cases hdense
    rfl
  | some d => exact (denseNodes_sums hdense).1

variable {Rel : List Element → σ → Prop}

/-- A relation between the elements walked and the state of a projection that every group keeps
holds behind the last group. -/
theorem projectGroups_walk {buffer : Slice} {fields : BlockFields} {groups : List Slice}
    {parts : List (List Element)} {s s' : σ} {kinds : KindSet} {count : Nat}
    (hrun : projectGroups ph P s groups = .ok (s', kinds, count))
    (hin : ∀ group ∈ groups, buffer.Held group)
    (hparts : groups.map (fun group => groupElements ph fields group.bytes) = parts.map .ok)
    (hstart : Rel [] s) (hstep : ∀ es t nodes ways relations dense walked kinds, Rel es t →
      HandedIn ph buffer ways relations dense walked →
      Rel (es ++ groupList fields walked (nodes.map Prod.fst) (ways.map (·.1.way))
        (relations.map (·.1.relation))) (handOver P t nodes ways relations dense kinds)) :
    Rel parts.flatten s' := by
  suffices hacc : ∀ (groups : List Slice) (parts : List (List Element)) (es : List Element)
      (acc : σ × KindSet × Nat), (∀ group ∈ groups, buffer.Held group) →
      groups.map (fun group => groupElements ph fields group.bytes) = parts.map .ok →
      Rel es acc.1 →
      groups.foldlM (fun (acc : σ × KindSet × Nat) group => do
        let (s, kinds, count) ← projectGroup ph P acc.1 group
        return (s, acc.2.1.union kinds, acc.2.2 + count)) acc = .ok (s', kinds, count) →
      Rel (es ++ parts.flatten) s' by
    exact hacc groups parts [] _ hin hparts hstart hrun
  clear hrun hin hparts hstart groups parts
  intro groups
  induction groups with
  | nil =>
    intro parts es acc _ hparts hrel hrun
    cases parts with
    | nil =>
      cases hrun
      rwa [flatten_nil, append_nil]
    | cons _ _ => simp at hparts
  | cons group groups ih =>
    intro parts es acc hin hparts hrel hrun
    cases parts with
    | nil => simp at hparts
    | cons part parts =>
      obtain ⟨hpart, hbehind⟩ := cons.inj hparts
      rw [forall_mem_cons] at hin
      rw [foldlM_cons] at hrun
      obtain ⟨acc', hturn, hrun⟩ := bind_eq_ok.mp hrun
      obtain ⟨⟨t, k, n⟩, hgroup, hturn⟩ := bind_eq_ok.mp hturn
      cases hturn
      obtain ⟨nodes, ways, relations, dense, hhanded, ht⟩ := projectGroup_handed hgroup
      obtain ⟨walked, hhandedIn, rfl⟩ := walk_of_handed hin.1 hhanded hpart
      have hrel' := hstep es acc.1 nodes ways relations dense walked k hrel hhandedIn
      rw [← ht] at hrel'
      have hrest := ih parts _ _ hin.2 hbehind hrel' hrun
      rwa [append_assoc] at hrest

lemma validateBlock_walk {buffer : Slice} {block : PrimitiveBlock} {es : List Element}
    {make : BlockFields → List Position → σ} {out : σ × BlockVerdict}
    (hblock : fromVec ph buffer.bytes = .ok block) (hfits : Fits buffer.bytes block)
    (hes : elements ph block = .ok es) (hrun : validateBlock ph P make buffer = .ok out)
    (hstart : ∀ fields st, Rel [] (make fields st))
    (hstep : ∀ fields es t nodes ways relations dense walked kinds, Rel es t →
      HandedIn ph buffer ways relations dense walked →
      Rel (es ++ groupList fields walked (nodes.map Prod.fst) (ways.map (·.1.way))
        (relations.map (·.1.relation))) (handOver P t nodes ways relations dense kinds)) :
    Rel es out.1 := by
  obtain ⟨scan, hscan, hrun⟩ := bind_eq_ok.mp hrun
  obtain ⟨⟨s, kinds, count⟩, hgroups, hrun⟩ := bind_eq_ok.mp hrun
  obtain ⟨_, -, hrun⟩ := bind_eq_ok.mp hrun
  cases hrun
  obtain ⟨top, table, hopen⟩ := fromVec_opened hblock hfits
  obtain ⟨groups, parts, hlisted, hparts, rfl⟩ := elements_eq_ok.mp hes
  rw [hopen.groups, Except.ok.injEq] at hlisted
  obtain ⟨top', table', hseen⟩ := scanBlockFields_seen hscan
  have hsame : top' = top := Except.ok.inj (hseen.walked.symm.trans hopen.walked)
  subst hsame
  have hbytes : buffer.bytes.length < 2 ^ 32 := by
    unfold Fits at hfits
    omega
  have hslices := map_slice_placed hbytes hseen.groups
  refine projectGroups_walk hgroups ?_ ?_ (hstart _ _) (hstep block.block.fields)
  · intro group hgroup
    obtain ⟨p, hp, rfl⟩ := mem_map.mp hgroup
    obtain ⟨i, hi, rfl⟩ := mem_iff_getElem.mp hp
    exact .inr (within_sliceOf (hseen.groups.get hi (hseen.groups.length_eq ▸ hi)))
  · rw [← hparts, ← hlisted, ← hslices, List.map_map, List.map_map]
    rfl

end Handed

end Projection
