import Pbfhogg.Wire.Protohoggr

/-!
# The messages of a block

The parsers of `read/wire.rs`: each is a walk over the fields of one message that keeps the slices
of its packed arrays unread. A second occurrence is refused when both carry data.
-/

namespace WireMessages

open Protohoggr FieldWalk
open List hiding take

/-- Refusal of a packed field split across segments. -/
def dupPacked (name : String) : String :=
  name ++ " appears twice with data; packed field split across segments"

/-- Refusal of a repeated embedded message. -/
def dupMessage (name : String) : String :=
  name ++ " appears twice with data; message merge is unsupported"

def dupGroupDense : String := "PrimitiveGroup.dense appears twice"

section Parsers

variable (ph : Crate)

/-- An `int32` varint, refused outside `i32` instead of narrowed. -/
def readInt32 (overflowMsg : String) (cur : Bytes) : Except Error (Int32 × Bytes) :=
  take (ph.readVarintI64 cur) fun x =>
    if -2 ^ 31 ≤ x.toInt ∧ x.toInt < 2 ^ 31 then .ok x.toInt32
    else .error (newWireError overflowMsg)

/-- One occurrence of a packed field, packed or as a single tagged value. -/
def takePacked (wire : Nat) (slot : Bytes) (dupMsg : String) (cur : Bytes) :
    Except Error (Bytes × Bytes) :=
  take (if wire = wireLen then ph.readLenDelimited cur else ph.readRawField wireVarint cur)
    fun bytes =>
      if bytes = [] then .ok slot
      else if slot ≠ [] then .error (newWireError dupMsg)
      else .ok bytes

/-- One occurrence of an embedded message. -/
def takeMessage (slot : Option Bytes) (dupMsg : String) (cur : Bytes) :
    Except Error (Option Bytes × Bytes) :=
  take (ph.readLenDelimited cur) fun bytes =>
    match slot with
    | some (b :: bs) => if bytes = [] then .ok (some (b :: bs)) else .error (newWireError dupMsg)
    | _ => .ok (some bytes)

structure WireNode where
  id : Int64 := 0
  lat : Int64 := 0
  lon : Int64 := 0
  keysData : Bytes := []
  valsData : Bytes := []
  infoData : Option Bytes := none

def nodeField : Handler Error WireNode := fun s field wire =>
  match field, wire with
  | 1, wireVarint => fun cur => take (ph.readSint64 cur) fun id => .ok { s with id := id }
  | 2, wireLen | 2, wireVarint => fun cur =>
    take (takePacked ph wire s.keysData (dupPacked "Node.keys") cur) fun d =>
      .ok { s with keysData := d }
  | 3, wireLen | 3, wireVarint => fun cur =>
    take (takePacked ph wire s.valsData (dupPacked "Node.vals") cur) fun d =>
      .ok { s with valsData := d }
  | 4, wireLen => fun cur =>
    take (takeMessage ph s.infoData (dupMessage "Node.info") cur) fun d =>
      .ok { s with infoData := d }
  | 8, wireVarint => fun cur => take (ph.readSint64 cur) fun lat => .ok { s with lat := lat }
  | 9, wireVarint => fun cur => take (ph.readSint64 cur) fun lon => .ok { s with lon := lon }
  | _, _ => skip ph.reader s wire

def WireNode.parse (data : Bytes) : Except Error WireNode :=
  walk ph.reader (nodeField ph) {} data

structure WireWay where
  id : Int64 := 0
  keysData : Bytes := []
  valsData : Bytes := []
  refsData : Bytes := []
  latData : Bytes := []
  lonData : Bytes := []
  infoData : Option Bytes := none
  pinsData : Option Bytes := none

def wayField : Handler Error WireWay := fun s field wire =>
  match field, wire with
  | 1, wireVarint => fun cur => take (ph.readVarintI64 cur) fun id => .ok { s with id := id }
  | 2, wireLen | 2, wireVarint => fun cur =>
    take (takePacked ph wire s.keysData (dupPacked "Way.keys") cur) fun d =>
      .ok { s with keysData := d }
  | 3, wireLen | 3, wireVarint => fun cur =>
    take (takePacked ph wire s.valsData (dupPacked "Way.vals") cur) fun d =>
      .ok { s with valsData := d }
  | 4, wireLen => fun cur =>
    take (takeMessage ph s.infoData (dupMessage "Way.info") cur) fun d =>
      .ok { s with infoData := d }
  | 8, wireLen | 8, wireVarint => fun cur =>
    take (takePacked ph wire s.refsData (dupPacked "Way.refs") cur) fun d =>
      .ok { s with refsData := d }
  | 9, wireLen | 9, wireVarint => fun cur =>
    take (takePacked ph wire s.latData (dupPacked "Way.lat") cur) fun d =>
      .ok { s with latData := d }
  | 10, wireLen | 10, wireVarint => fun cur =>
    take (takePacked ph wire s.lonData (dupPacked "Way.lon") cur) fun d =>
      .ok { s with lonData := d }
  | 20, wireLen => fun cur =>
    take (ph.readLenDelimited cur) fun d => .ok { s with pinsData := some d }
  | _, _ => skip ph.reader s wire

def WireWay.parse (data : Bytes) : Except Error WireWay :=
  walk ph.reader (wayField ph) {} data

structure WireRelation where
  id : Int64 := 0
  keysData : Bytes := []
  valsData : Bytes := []
  rolesSidData : Bytes := []
  memidsData : Bytes := []
  typesData : Bytes := []
  infoData : Option Bytes := none

def relationField : Handler Error WireRelation := fun s field wire =>
  match field, wire with
  | 1, wireVarint => fun cur => take (ph.readVarintI64 cur) fun id => .ok { s with id := id }
  | 2, wireLen | 2, wireVarint => fun cur =>
    take (takePacked ph wire s.keysData (dupPacked "Relation.keys") cur) fun d =>
      .ok { s with keysData := d }
  | 3, wireLen | 3, wireVarint => fun cur =>
    take (takePacked ph wire s.valsData (dupPacked "Relation.vals") cur) fun d =>
      .ok { s with valsData := d }
  | 4, wireLen => fun cur =>
    take (takeMessage ph s.infoData (dupMessage "Relation.info") cur) fun d =>
      .ok { s with infoData := d }
  | 8, wireLen | 8, wireVarint => fun cur =>
    take (takePacked ph wire s.rolesSidData (dupPacked "Relation.roles_sid") cur) fun d =>
      .ok { s with rolesSidData := d }
  | 9, wireLen | 9, wireVarint => fun cur =>
    take (takePacked ph wire s.memidsData (dupPacked "Relation.memids") cur) fun d =>
      .ok { s with memidsData := d }
  | 10, wireLen | 10, wireVarint => fun cur =>
    take (takePacked ph wire s.typesData (dupPacked "Relation.types") cur) fun d =>
      .ok { s with typesData := d }
  | _, _ => skip ph.reader s wire

def WireRelation.parse (data : Bytes) : Except Error WireRelation :=
  walk ph.reader (relationField ph) {} data

structure WireDenseNodes where
  idData : Bytes := []
  latData : Bytes := []
  lonData : Bytes := []
  keysValsData : Bytes := []
  infoData : Option Bytes := none

def denseNodesField : Handler Error WireDenseNodes := fun s field wire =>
  match field, wire with
  | 1, wireLen | 1, wireVarint => fun cur =>
    take (takePacked ph wire s.idData (dupPacked "DenseNodes.id") cur) fun d =>
      .ok { s with idData := d }
  | 5, wireLen => fun cur =>
    take (takeMessage ph s.infoData (dupMessage "DenseNodes.denseinfo") cur) fun d =>
      .ok { s with infoData := d }
  | 8, wireLen | 8, wireVarint => fun cur =>
    take (takePacked ph wire s.latData (dupPacked "DenseNodes.lat") cur) fun d =>
      .ok { s with latData := d }
  | 9, wireLen | 9, wireVarint => fun cur =>
    take (takePacked ph wire s.lonData (dupPacked "DenseNodes.lon") cur) fun d =>
      .ok { s with lonData := d }
  | 10, wireLen | 10, wireVarint => fun cur =>
    take (takePacked ph wire s.keysValsData (dupPacked "DenseNodes.keys_vals") cur) fun d =>
      .ok { s with keysValsData := d }
  | _, _ => skip ph.reader s wire

def WireDenseNodes.parse (data : Bytes) : Except Error WireDenseNodes :=
  walk ph.reader (denseNodesField ph) {} data

structure WireDenseInfo where
  versionData : Bytes := []
  timestampData : Bytes := []
  changesetData : Bytes := []
  uidData : Bytes := []
  userSidData : Bytes := []
  visibleData : Bytes := []

def denseInfoField : Handler Error WireDenseInfo := fun s field wire =>
  match field, wire with
  | 1, wireLen | 1, wireVarint => fun cur =>
    take (takePacked ph wire s.versionData (dupPacked "DenseInfo.version") cur) fun d =>
      .ok { s with versionData := d }
  | 2, wireLen | 2, wireVarint => fun cur =>
    take (takePacked ph wire s.timestampData (dupPacked "DenseInfo.timestamp") cur) fun d =>
      .ok { s with timestampData := d }
  | 3, wireLen | 3, wireVarint => fun cur =>
    take (takePacked ph wire s.changesetData (dupPacked "DenseInfo.changeset") cur) fun d =>
      .ok { s with changesetData := d }
  | 4, wireLen | 4, wireVarint => fun cur =>
    take (takePacked ph wire s.uidData (dupPacked "DenseInfo.uid") cur) fun d =>
      .ok { s with uidData := d }
  | 5, wireLen | 5, wireVarint => fun cur =>
    take (takePacked ph wire s.userSidData (dupPacked "DenseInfo.user_sid") cur) fun d =>
      .ok { s with userSidData := d }
  | 6, wireLen | 6, wireVarint => fun cur =>
    take (takePacked ph wire s.visibleData (dupPacked "DenseInfo.visible") cur) fun d =>
      .ok { s with visibleData := d }
  | _, _ => skip ph.reader s wire

def WireDenseInfo.parse (data : Bytes) : Except Error WireDenseInfo :=
  walk ph.reader (denseInfoField ph) {} data

structure WireInfo where
  version : Option Int32 := none
  timestamp : Option Int64 := none
  changeset : Option Int64 := none
  uid : Option Int32 := none
  userSid : Option Int32 := none
  visible : Option Bool := none

def infoField : Handler Error WireInfo := fun s field wire =>
  match field, wire with
  | 1, wireVarint => fun cur =>
    take (ph.readVarint cur) fun v => .ok { s with version := some (asInt32 v) }
  | 2, wireVarint => fun cur =>
    take (ph.readVarintI64 cur) fun x => .ok { s with timestamp := some x }
  | 3, wireVarint => fun cur =>
    take (ph.readVarintI64 cur) fun x => .ok { s with changeset := some x }
  | 4, wireVarint => fun cur =>
    take (ph.readVarint cur) fun v => .ok { s with uid := some (asInt32 v) }
  | 5, wireVarint => fun cur =>
    take (ph.readVarint cur) fun v => .ok { s with userSid := some (asInt32 v) }
  | 6, wireVarint => fun cur =>
    take (ph.readVarint cur) fun v => .ok { s with visible := some (asBool v) }
  | _, _ => skip ph.reader s wire

/-- The Osmosis sentinel for absent metadata. -/
def WireInfo.dropSentinels (info : WireInfo) : WireInfo :=
  { info with
    version := if info.version = some (-1) then none else info.version
    changeset := if info.changeset = some (-1) then none else info.changeset }

def WireInfo.parse (data : Bytes) : Except Error WireInfo :=
  (walk ph.reader (infoField ph) {} data).map WireInfo.dropSentinels

/-- The framing walk: every field skipped. -/
def framing (data : Bytes) : Except Error Unit :=
  walk ph.reader (fun s _ wire => skip ph.reader s wire) () data

def groupDenseField : Handler Error (Option Bytes) := fun dense field wire =>
  match field, wire with
  | 2, wireLen =>
    match dense with
    | some _ => fun _ => .error (newWireError dupGroupDense)
    | none => fun cur => take (ph.readLenDelimited cur) fun data => .ok (some data)
  | _, _ => skip ph.reader dense wire

/-- `WireGroup::dense`. -/
def groupDense (data : Bytes) : Except Error (Option Bytes) :=
  walk ph.reader (groupDenseField ph) none data

/-- `WireMessageIter::next` with its error arms kept: the source ends the stream there. -/
def nextMessageFuel (target : Nat) : Nat → Bytes →
    Except Error (Option (Bytes × Bytes))
  | 0, _ => .ok none
  | fuel + 1, cur =>
    match ph.readTag cur with
    | .error e => .error e
    | .ok none => .ok none
    | .ok (some (field, wire, cur)) =>
      if field = target ∧ wire = wireLen then (ph.readLenDelimited cur).map some
      else
        match ph.skipField wire cur with
        | .error e => .error e
        | .ok cur => nextMessageFuel target fuel cur

def nextMessage (target : Nat) (cur : Bytes) :
    Except Error (Option (Bytes × Bytes)) :=
  nextMessageFuel ph target cur.length cur

/-- The messages a `WireMessageIter` yields. -/
def messagesFuel (target : Nat) : Nat → Bytes → List Bytes
  | 0, _ => []
  | fuel + 1, cur =>
    match nextMessage ph target cur with
    | .ok (some (body, rest)) => body :: messagesFuel target fuel rest
    | _ => []

def messages (target : Nat) (data : Bytes) : List Bytes :=
  messagesFuel ph target data.length data

/-- `WireMessageIter` runs to the end of the data through no error arm, yielding `bodies`. -/
inductive Messages (target : Nat) : Bytes → List Bytes → Prop
  | done {cur : Bytes} : nextMessage ph target cur = .ok none → Messages target cur []
  | next {cur rest body : Bytes} {bodies : List Bytes} :
      nextMessage ph target cur = .ok (some (body, rest)) → Messages target rest bodies →
      Messages target cur (body :: bodies)

end Parsers

section Local

variable {ph : Crate}

lemma readsField_readInt32 (msg : String) : ReadsField ph.reader wireVarint (readInt32 ph msg) :=
  readsField_take Crate.readsField_varintI64 _

lemma readsField_takePacked_len (slot : Bytes) (msg : String) :
    ReadsField ph.reader wireLen (takePacked ph wireLen slot msg) :=
  readsField_take Crate.readsField_len _

lemma readsField_takePacked_varint (slot : Bytes) (msg : String) :
    ReadsField ph.reader wireVarint (takePacked ph wireVarint slot msg) :=
  readsField_take (Crate.readsField_raw _) _

lemma readsField_takeMessage (slot : Option Bytes) (msg : String) :
    ReadsField ph.reader wireLen (takeMessage ph slot msg) :=
  readsField_take Crate.readsField_len _

lemma local_wayField : Local ph.reader (wayField ph) := by
  intro s field wire
  unfold wayField
  split
  case h_1 => exact readsField_take Crate.readsField_varintI64 _
  case h_6 => exact readsField_take (readsField_takeMessage _ _) _
  case h_13 => exact readsField_take Crate.readsField_len _
  case h_14 => exact readsField_skip s wire
  all_goals first
    | exact readsField_take (readsField_takePacked_len _ _) _
    | exact readsField_take (readsField_takePacked_varint _ _) _

lemma local_relationField : Local ph.reader (relationField ph) := by
  intro s field wire
  unfold relationField
  split
  case h_1 => exact readsField_take Crate.readsField_varintI64 _
  case h_6 => exact readsField_take (readsField_takeMessage _ _) _
  case h_13 => exact readsField_skip s wire
  all_goals first
    | exact readsField_take (readsField_takePacked_len _ _) _
    | exact readsField_take (readsField_takePacked_varint _ _) _

lemma local_denseNodesField : Local ph.reader (denseNodesField ph) := by
  intro s field wire
  unfold denseNodesField
  split
  case h_3 => exact readsField_take (readsField_takeMessage _ _) _
  case h_10 => exact readsField_skip s wire
  all_goals first
    | exact readsField_take (readsField_takePacked_len _ _) _
    | exact readsField_take (readsField_takePacked_varint _ _) _

lemma local_infoField : Local ph.reader (infoField ph) := by
  intro s field wire
  unfold infoField
  split
  · exact readsField_take Crate.readsField_varint _
  · exact readsField_take Crate.readsField_varintI64 _
  · exact readsField_take Crate.readsField_varintI64 _
  · exact readsField_take Crate.readsField_varint _
  · exact readsField_take Crate.readsField_varint _
  · exact readsField_take Crate.readsField_varint _
  · exact readsField_skip s wire

lemma local_framing : Local ph.reader (fun (s : Unit) _ wire => skip ph.reader s wire) :=
  fun s _ wire => readsField_skip s wire

lemma local_groupDenseField : Local ph.reader (groupDenseField ph) := by
  intro dense field wire
  unfold groupDenseField
  split
  · split
    · intro cur v rest h
      cases h
    · exact readsField_take Crate.readsField_len _
  · exact readsField_skip dense wire

lemma framing_ok_iff {data : Bytes} :
    framing ph data = .ok () ↔ ∃ fs, Fields ph.reader data fs := by
  rw [framing, walk_ok_iff local_framing]
  constructor
  · rintro ⟨fs, hfs, -⟩
    exact ⟨fs, hfs⟩
  · rintro ⟨fs, hfs⟩
    refine ⟨fs, hfs, ?_⟩
    induction hfs with
    | nil => rfl
    | cons _ hskip _ ih =>
      have hraw := skipField_value hskip
      rw [foldlM_cons, absorb, skip, hraw]
      exact ih

end Local

section Framed

variable (ph : Crate)

/-- The bytes of a length-delimited field with the wanted number. -/
def messageOf (target : Nat) (fld : Field) : Option Bytes :=
  if fld.number = target ∧ fld.wire = wireLen then
    match ph.readLenDelimited fld.raw with
    | .ok (body, _) => some body
    | .error _ => none
  else none

def bodies (target : Nat) (fs : List Field) : List Bytes :=
  fs.filterMap (messageOf ph target)

variable {ph}

lemma readLenDelimited_of_skip {raw rest : Bytes}
    (h : ph.skipField wireLen (raw ++ rest) = .ok rest) :
    ∃ body, ph.readLenDelimited (raw ++ rest) = .ok (body, rest) ∧
      ph.readLenDelimited raw = .ok (body, []) := by
  obtain ⟨body, hb⟩ := ph.skipField_len.mp h
  refine ⟨body, hb, ?_⟩
  have := (Crate.readsField_len hb).2 raw rfl []
  rwa [append_nil] at this

lemma nextMessageFuel_of_fields {target fuel : Nat} {data : Bytes} {fs : List Field}
    (h : Fields ph.reader data fs) (hfuel : data.length ≤ fuel) :
    (bodies ph target fs = [] ∧ nextMessageFuel ph target fuel data = .ok none) ∨
      ∃ body rest gs, nextMessageFuel ph target fuel data = .ok (some (body, rest)) ∧
        Fields ph.reader rest gs ∧ rest.length < data.length ∧
        bodies ph target fs = body :: bodies ph target gs := by
  induction h generalizing fuel with
  | nil =>
    refine .inl ⟨rfl, ?_⟩
    cases fuel with
    | zero => rfl
    | succ fuel => simp [nextMessageFuel, ph.readTag_eq_none.mpr rfl]
  | @cons data raw rest f w fs htag hskip hfs ih =>
    have htag' : ph.readTag data = .ok (some (f, w, raw ++ rest)) := htag
    have hshrink := ph.reader.readTag_shrinks htag
    rw [length_append] at hshrink
    obtain ⟨fuel, rfl⟩ : ∃ k, fuel = k + 1 := ⟨fuel - 1, by omega⟩
    by_cases hm : f = target ∧ w = wireLen
    · right
      obtain ⟨rfl, rfl⟩ := hm
      obtain ⟨body, hb, hraw⟩ := readLenDelimited_of_skip hskip
      refine ⟨body, rest, fs, ?_, hfs, by omega, ?_⟩
      · simp [nextMessageFuel, htag', hb, Except.map]
      · simp [bodies, messageOf, hraw]
    · have hnext : nextMessageFuel ph target (fuel + 1) data =
          nextMessageFuel ph target fuel rest := by
        have hskip' : ph.skipField w (raw ++ rest) = .ok rest := hskip
        rw [nextMessageFuel, htag']
        simp only [if_neg hm, hskip']
      have hbodies : bodies ph target (⟨f, w, raw⟩ :: fs) = bodies ph target fs := by
        simp [bodies, messageOf, hm]
      rw [hnext, hbodies]
      rcases ih (show rest.length ≤ fuel by omega) with h | ⟨body, rest', gs, h1, h2, h3, h4⟩
      · exact .inl h
      · exact .inr ⟨body, rest', gs, h1, h2, by omega, h4⟩

variable {target : Nat}

lemma messages_of_fields {data : Bytes} {fs : List Field} (h : Fields ph.reader data fs) :
    Messages ph target data (bodies ph target fs) ∧
      messages ph target data = bodies ph target fs := by
  have key : ∀ fuel data fs, Fields ph.reader data fs → data.length ≤ fuel →
      Messages ph target data (bodies ph target fs) ∧
        messagesFuel ph target fuel data = bodies ph target fs := by
    intro fuel
    induction fuel with
    | zero =>
      intro data fs h hlen
      have hnil : data = [] := length_eq_zero_iff.mp (by omega)
      subst hnil
      have : fs = [] := h.unique .nil
      subst this
      exact ⟨.done rfl, rfl⟩
    | succ fuel ih =>
      intro data fs h hlen
      rcases @nextMessageFuel_of_fields ph target _ _ _ h (Nat.le_refl _) with
        ⟨hnil, hnext⟩ | ⟨body, rest, gs, hnext, hgs, hlt, hbodies⟩
      · rw [hnil]
        refine ⟨.done hnext, ?_⟩
        simp [messagesFuel, nextMessage, hnext]
      · obtain ⟨hmsgs, hlist⟩ := ih rest gs hgs (by omega)
        rw [hbodies]
        refine ⟨.next hnext hmsgs, ?_⟩
        simp [messagesFuel, nextMessage, hnext, hlist]
  exact key data.length data fs h (Nat.le_refl _)

lemma absorb_groupDense_eq {dense : Option Bytes} {fld : Field} {d : Option Bytes}
    {rest : Bytes} (hskip : ph.skipField fld.wire (fld.raw ++ rest) = .ok rest)
    (h : absorb (groupDenseField ph) dense fld = .ok d) :
    d.toList = dense.toList ++ (messageOf ph 2 fld).toList := by
  obtain ⟨f, w, raw⟩ := fld
  by_cases hm : f = 2 ∧ w = wireLen
  · obtain ⟨rfl, rfl⟩ := hm
    obtain ⟨body, -, hraw⟩ := readLenDelimited_of_skip hskip
    cases dense with
    | some _ => simp [absorb, groupDenseField, Except.map] at h
    | none =>
      simp only [absorb, groupDenseField, take, hraw, Except.bind, Except.map, Except.ok.injEq] at h
      subst h
      simp [messageOf, hraw]
  · have hother : groupDenseField ph dense f w = skip ph.reader dense w := by
      unfold groupDenseField
      split
      · exact absurd ⟨rfl, rfl⟩ hm
      · rfl
    have hraw' : ph.reader.skipField w raw = .ok [] := skipField_value hskip
    simp only [absorb, hother, skip, hraw', Except.map, Except.ok.injEq] at h
    subst h
    simp [messageOf, hm]

/-- The dense message of a group is its only one. -/
theorem groupDense_eq {data : Bytes} {fs : List Field} {d : Option Bytes}
    (hfs : Fields ph.reader data fs) (h : groupDense ph data = .ok d) :
    bodies ph 2 fs = d.toList := by
  obtain ⟨gs, hgs, hfold⟩ := (walk_ok_iff local_groupDenseField).mp h
  rw [hfs.unique hgs]
  clear hfs h
  suffices hacc : ∀ acc, gs.foldlM (absorb (groupDenseField ph)) acc = .ok d →
      acc.toList ++ bodies ph 2 gs = d.toList by
    simpa using hacc none hfold
  clear hfold fs
  intro acc hfold
  induction hgs generalizing acc with
  | nil =>
    cases hfold
    simp [bodies]
  | @cons _ raw rest f w gs _ hskip _ ih =>
    rw [foldlM_cons] at hfold
    cases ha : absorb (groupDenseField ph) acc ⟨f, w, raw⟩ with
    | error e =>
      rw [ha] at hfold
      cases hfold
    | ok acc' =>
      rw [ha] at hfold
      rw [← ih acc' hfold, absorb_groupDense_eq hskip ha, append_assoc]
      simp [bodies, filterMap_cons]
      cases messageOf ph 2 ⟨f, w, raw⟩ <;> rfl

lemma bodies_cons {fld : Field} {fs : List Field} :
    bodies ph target (fld :: fs) = (messageOf ph target fld).toList ++ bodies ph target fs := by
  cases hm : messageOf ph target fld <;> simp [bodies, hm]

/-- A loop that collects the messages of one field number, whatever else it keeps. -/
theorem foldlM_collects {σ : Type} {h : Handler Error σ} {collected : σ → List Bytes}
    (hstep : ∀ s s' fld, absorb h s fld = .ok s' →
      collected s' = collected s ++ (messageOf ph target fld).toList)
    {fs : List Field} {s t : σ} (hfold : fs.foldlM (absorb h) s = .ok t) :
    collected t = collected s ++ bodies ph target fs := by
  induction fs generalizing s with
  | nil =>
    cases hfold
    simp [bodies]
  | cons fld fs ih =>
    rw [foldlM_cons] at hfold
    obtain ⟨s', hs, hfold⟩ := Fallible.bind_eq_ok.mp hfold
    rw [ih hfold, hstep s s' fld hs, append_assoc, bodies_cons]

lemma foldl_bodies (fs : List Field) (out : List Bytes) :
    fs.foldl (fun out fld => out ++ (messageOf ph target fld).toList) out =
      out ++ bodies ph target fs := by
  induction fs generalizing out with
  | nil => simp [bodies]
  | cons fld fs ih => rw [foldl_cons, ih, bodies_cons, append_assoc]

/-- A fold over the fields that acts on the messages of one field number. -/
theorem foldl_messageOf {σ : Type} {f : σ → Bytes → σ} (fs : List Field) (s : σ) :
    fs.foldl (fun s fld => (messageOf ph target fld).toList.foldl f s) s =
      (bodies ph target fs).foldl f s := by
  induction fs generalizing s with
  | nil => rfl
  | cons fld fs ih => rw [foldl_cons, ih, bodies_cons, foldl_append]

lemma length_bodies_le {data : Bytes} {fs : List Field} (h : Fields ph.reader data fs) :
    (bodies ph target fs).length ≤ data.length := by
  refine (length_filterMap_le _ _).trans ?_
  induction h with
  | nil => exact Nat.zero_le _
  | cons htag _ _ ih =>
    have := ph.reader.readTag_shrinks htag
    simp only [length_append, length_cons] at this ⊢
    omega

end Framed

end WireMessages
