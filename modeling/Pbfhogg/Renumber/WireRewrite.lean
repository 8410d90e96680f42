import Pbfhogg.Lib.Chunks
import Pbfhogg.Renumber.IdSpace

/-!
# The wire rewriters of renumber

`renumber/wire_rewrite.rs`: a block is walked once for its string table and its other fields and
once for its groups, ids are read and replaced, and everything else is copied. Positions are byte
offsets into the message that is spliced.
-/

namespace WireRewrite

open Protohoggr FieldWalk Chunks IdSpace

def unpackedFieldError (message field : String) : RewriteError :=
  .invalidData ("renumber: " ++ message ++ "." ++ field ++ " is written in the unpacked wire form " ++
    "(individually tagged varints). That encoding is spec-legal but the renumber wire-splice " ++
    "rewriter can only patch the length-delimited packed form. Re-encoding the input through a " ++
    "full decode writes the packed form when the field holds a single value.")

def repeatedFieldError (message field : String) : RewriteError :=
  .invalidData ("renumber: " ++ message ++ "." ++ field ++ " appears twice with data; packed field " ++
    "split across segments. Protobuf concatenates such segments, which a byte-level splice cannot " ++
    "express as one contiguous range - the earlier segment would be copied through unrenumbered.")

def repeatedMessageFieldError (message field : String) : RewriteError :=
  .invalidData ("renumber: " ++ message ++ " carries " ++ field ++ " more than once. Protobuf " ++
    "merges or overrides repeated occurrences, which the wire-splice rewriter does not reproduce.")

def foreignKindError (rewriting : String) (field : Nat) : RewriteError :=
  let found :=
    if field = 1 then "plain Node"
    else if field = 2 then "DenseNodes"
    else if field = 3 then "Way"
    else "Relation"
  .invalidData ("renumber: a " ++ rewriting ++ " blob's PrimitiveGroup also carries " ++ found ++
    " elements. A group must hold one element kind; renumber cannot rewrite a mixed group without " ++
    "dropping or mis-numbering part of it.")

/-- Sorting cures a descent and not a repeated id. -/
def orderError (kind : String) (prev id : Int64) : RewriteError :=
  let what := if id = prev then "appears twice" else "comes after a larger id"
  let text := "renumber requires " ++ kind ++ " ids to strictly increase in file order, but " ++
    kind ++ " " ++ showId id ++ " " ++ what ++ " (" ++ kind ++ " " ++ showId prev ++
    " precedes it). New ids are assigned by position and references resolved by rank, which agree " ++
    "only on sorted, duplicate-free input; a Sort.Type_then_ID header claim is not checked."
  if id = prev then .invalidData (text ++ " Remove the duplicate ids before renumbering.")
  else .unsorted text

def deltaOverflowError (field : String) : RewriteError :=
  .invalidData ("renumber: " ++ field ++ " delta sum overflows a 64-bit id; the input's delta " ++
    "encoding is corrupt.")

def negativeIdError (kind : String) (id : Int64) : RewriteError :=
  .invalidData ("renumber requires non-negative input ids. Input contains " ++ kind ++ " id " ++
    showId id ++ ". Negative ids are JOSM editor-local staging identifiers that should be resolved " ++
    "before processing.")

def negativeRefError (id : Int64) : RewriteError :=
  .invalidData ("renumber requires non-negative input ids. Way references negative node id " ++
    showId id ++ ". Negative ids are JOSM editor-local staging identifiers that should be resolved " ++
    "before processing.")

def negativeMemberError (relId memberId : Int64) : RewriteError :=
  .invalidData ("renumber requires non-negative input ids. Input contains relation " ++
    showId relId ++ " with member ref " ++ showId memberId ++ ". Resolve JOSM-style negative " ++
    "staging IDs before renumbering.")

def memberCountError (relId : Int64) (memids types : Nat) : RewriteError :=
  .invalidData ("reframe_relations: relation " ++ showId relId ++ " has " ++ toString memids ++
    " memids but " ++ toString types ++ " types")

def wireErr {α : Type} (x : Except Protohoggr.Error α) : Result α := x.mapError .wire

def withContext {α : Type} (ctx : String) (x : Result α) : Result α := x.mapError (.context ctx)

/-- First and last input id seen. -/
structure Span where
  first : Option Int64 := none
  last : Option Int64 := none

namespace Span

/-- An id must exceed the one before it. -/
def push (s : Span) (kind : String) (id : Int64) : Result Span :=
  match s.last with
  | some prev =>
    if id.toInt ≤ prev.toInt then .error (orderError kind prev id)
    else .ok { first := s.first.or (some id), last := some id }
  | none => .ok { first := s.first.or (some id), last := some id }

def get (s : Span) : Option (Int64 × Int64) :=
  match s.first, s.last with
  | some first, some last => some (first, last)
  | _, _ => none

end Span

/-- What a rewrite saw in one block. -/
structure Outcome where
  count : Nat
  orphans : Nat
  span : Option (Int64 × Int64)
  newRange : Option (Int64 × Int64)

def checkedAdd (a b : Int64) : Option Int64 := toI64 (a.toInt + b.toInt)

def checkedSub (a b : Int64) : Option Int64 := toI64 (a.toInt - b.toInt)

def orElse {α : Type} (x : Option α) (e : RewriteError) : Result α :=
  match x with
  | some a => .ok a
  | none => .error e

section Rewriters

variable (ph : Crate)

/-- The cursor, with its errors as the rewriters report them. -/
def cursor : Reader RewriteError := ph.reader.mapError .wire

/-- The loop over a packed `sint64` array. -/
def foldSint64Fuel {σ : Type} (step : σ → Int64 → Result σ) : Nat → σ → Bytes → Result σ
  | 0, s, _ => .ok s
  | fuel + 1, s, data =>
    if data = [] then .ok s
    else
      match wireErr (ph.readSint64 data) with
      | .error e => .error e
      | .ok (delta, rest) =>
        match step s delta with
        | .error e => .error e
        | .ok s' => foldSint64Fuel step fuel s' rest

def foldSint64 {σ : Type} (step : σ → Int64 → Result σ) (s : σ) (data : Bytes) : Result σ :=
  foldSint64Fuel ph step data.length s data

def countVarintsFuel : Nat → Nat → Bytes → Result Nat
  | 0, count, _ => .ok count
  | fuel + 1, count, data =>
    if data = [] then .ok count
    else
      match wireErr (ph.readVarint data) with
      | .error e => .error e
      | .ok (_, rest) =>
        if count + 1 < 2 ^ 64 then countVarintsFuel fuel (count + 1) rest
        else .error (.invalidData "renumber: varint count overflow")

def countVarintsStrict (data : Bytes) : Result Nat := countVarintsFuel ph data.length 0 data

/-- A field copied with its tag written anew. -/
def copyField (field wire : Nat) (cur : Bytes) : Result (Bytes × Bytes) :=
  (wireErr (ph.readRawField wire cur)).map fun p => (ph.encodeTag field wire ++ p.1, p.2)

structure BlockSplit where
  stringtable : Option Bytes := none
  scalars : Bytes := []

def splitField (keepAll : Bool) : Handler RewriteError BlockSplit := fun s field wire =>
  match field, wire with
  | 1, wireLen => fun cur =>
    take (wireErr (ph.readLenDelimited cur)) fun data =>
      if s.stringtable.isSome then
        .error (repeatedMessageFieldError "PrimitiveBlock" "StringTable")
      else .ok { s with stringtable := some data }
  | 2, wireLen => skip (cursor ph) s wire
  | _, _ =>
    if (17 ≤ field ∧ field ≤ 20 ∧ wire = wireVarint) ∨ keepAll then fun cur =>
      take (copyField ph field wire cur) fun bytes => .ok { s with scalars := s.scalars ++ bytes }
    else skip (cursor ph) s wire

/-- The string table of a block and the fields to keep. -/
def splitBlock (keepAll : Bool) (who : String) (block : Bytes) :
    Result (Bytes × Bytes) :=
  (walk (cursor ph) (splitField ph keepAll) {} block).bind fun s =>
    (orElse s.stringtable (.invalidData (who ++ ": no StringTable in PrimitiveBlock"))).map
      fun table => (table, s.scalars)

def groupField {σ : Type} (f : σ → Bytes → Result σ) : Handler RewriteError (σ × Nat) :=
  fun s field wire =>
    if field = 2 ∧ wire = wireLen then fun cur =>
      take (wireErr (ph.readLenDelimited cur)) fun group =>
        (f s.1 group).bind fun acc => (inc s.2).map fun groups => (acc, groups)
    else skip (cursor ph) s wire

/-- `f` on every group in order, and how many there were. -/
def forEachGroup {σ : Type} (f : σ → Bytes → Result σ) (s : σ) (block : Bytes) :
    Result (σ × Nat) :=
  walk (cursor ph) (groupField ph f) (s, 0) block

def singleDenseField : Handler RewriteError (Option Bytes) := fun dense field wire =>
  match field, wire with
  | 2, wireLen => fun cur =>
    take (wireErr (ph.readLenDelimited cur)) fun data =>
      if dense.isSome then .error (repeatedMessageFieldError "PrimitiveGroup" "DenseNodes")
      else .ok (some data)
  | 1, _ | 3, _ | 4, _ => fun _ => .error (foreignKindError "node" field)
  | _, _ => skip (cursor ph) dense wire

/-- The one dense message of a node group. -/
def singleDense (group : Bytes) : Result Bytes :=
  (walk (cursor ph) (singleDenseField ph) none group).bind fun dense =>
    orElse dense (.invalidData "reframe: no DenseNodes in PrimitiveGroup")

/-- `idField` is an occurrence that carries data, `sawIdField` that there was one at all. -/
structure DenseScan where
  idField : Option Bytes := none
  sawIdField : Bool := false
  otherFields : Bytes := []

def denseField : Handler RewriteError DenseScan := fun s field wire =>
  match field, wire with
  | 1, wireVarint => fun _ => .error (unpackedFieldError "DenseNodes" "id")
  | 1, wireLen => fun cur =>
    take (wireErr (ph.readLenDelimited cur)) fun seg =>
      if seg = [] then .ok { s with sawIdField := true }
      else if s.idField.isSome then .error (repeatedFieldError "DenseNodes" "id")
      else .ok { s with sawIdField := true, idField := some seg }
  | _, _ => fun cur =>
    take (copyField ph field wire cur) fun bytes =>
      .ok { s with otherFields := s.otherFields ++ bytes }

/-- What the loop over a group's node ids carries along. -/
structure NodeIds where
  span : Span
  idSet : IdSet
  overflow : List Int64
  oldId : Int64
  groupCount : Nat

def nodeIdStep (s : NodeIds) (delta : Int64) : Result NodeIds :=
  (orElse (checkedAdd s.oldId delta) (deltaOverflowError "DenseNodes.id")).bind fun oldId =>
    if oldId.toInt < 0 then .error (negativeIdError "node" oldId)
    else
      (s.span.push "node" oldId).bind fun span =>
        let recorded := s.idSet.setAtomicChecked oldId
        (inc s.groupCount).map fun groupCount =>
          { span, idSet := recorded.2, oldId, groupCount
            overflow := if recorded.1 then s.overflow else s.overflow ++ [oldId] }

/-- Consecutive ids from `base + assigned` on; no id for a group of no nodes. -/
def packedNodeIds (base : Int64) (assigned groupCount : Nat) : Result Bytes :=
  if 0 < groupCount then
    (offsetId base assigned).map fun firstNew =>
      ph.encodeVarint (ph.zigzagEncode64 firstNew) ++ List.replicate (groupCount - 1) 2
  else .ok []

structure DenseState where
  assigned : Nat := 0
  span : Span := {}
  idSet : IdSet
  overflow : List Int64
  output : Bytes

def reframeDenseGroup (base : Int64) (s : DenseState) (group : Bytes) : Result DenseState :=
  (singleDense ph group).bind fun dense =>
    (walk (cursor ph) (denseField ph) {} dense).bind fun scan =>
      if !scan.sawIdField then .error (.invalidData "reframe: no packed ID field in DenseNodes")
      else
        (foldSint64 ph nodeIdStep ⟨s.span, s.idSet, s.overflow, 0, 0⟩ (scan.idField.getD [])).bind
          fun ids =>
            (packedNodeIds ph base s.assigned ids.groupCount).bind fun packed =>
              if s.assigned + ids.groupCount < 2 ^ 64 then
                .ok
                  { assigned := s.assigned + ids.groupCount
                    span := ids.span
                    idSet := ids.idSet
                    overflow := ids.overflow
                    output := s.output ++ ph.encodeBytesField 2 (ph.encodeBytesField 2
                      (ph.encodeBytesFieldAlways 1 packed ++ scan.otherFields)) }
              else .error (.invalidData "renumber: node count overflow")

/-- The block with its nodes numbered from `base` on, and what was recorded. -/
structure DenseResult where
  output : Bytes
  outcome : Outcome
  idSet : IdSet
  overflow : List Int64

def reframeDenseWithNewIds (decompressed : Bytes) (base : Int64) (idSet : IdSet)
    (overflow : List Int64) : Result DenseResult :=
  (splitBlock ph false "reframe" decompressed).bind fun p =>
    (forEachGroup ph (reframeDenseGroup ph base)
      { idSet, overflow, output := ph.encodeBytesFieldAlways 1 p.1 } decompressed).bind fun q =>
        if q.2 = 0 then .error (.invalidData "reframe: no PrimitiveGroup in PrimitiveBlock")
        else
          .ok
            { output := q.1.output ++ p.2
              outcome := ⟨q.1.assigned, 0, q.1.span.get, none⟩
              idSet := q.1.idSet
              overflow := q.1.overflow }

/-- Emit `bytes` with two ranges replaced, in whichever order they occur. -/
def spliceTwo (bytes : Bytes) (a : Nat × Nat) (emitA : Bytes) (b : Nat × Nat)
    (emitB : Bytes) : Bytes :=
  if a.1 < b.1 then
    bytes.take a.1 ++ (emitA ++ ((bytes.take b.1).drop a.2 ++ (emitB ++ bytes.drop b.2)))
  else bytes.take b.1 ++ (emitB ++ ((bytes.take a.1).drop b.2 ++ (emitA ++ bytes.drop a.2)))

inductive WayPart where
  | id (v : Int64)
  | refs (seg : Bytes)
  | other

def readWayPart (field wire : Nat) : Bytes → Result (WayPart × Bytes) :=
  match field, wire with
  | 1, wireVarint => fun cur => take (wireErr (ph.readVarintI64 cur)) fun v => .ok (.id v)
  | 8, wireVarint => fun _ => .error (unpackedFieldError "Way" "refs")
  | 8, wireLen => fun cur => take (wireErr (ph.readLenDelimited cur)) fun seg => .ok (.refs seg)
  | _, _ => fun cur => take (wireErr (ph.readRawField wire cur)) fun _ => .ok .other

/-- The fields to replace, each with the range from its tag to the end of its value. -/
structure WayScan where
  id : Option (Int64 × Nat × Nat) := none
  refsRange : Option (Nat × Nat) := none
  oldRefsData : Bytes := []

/-- An empty first occurrence of the refs is kept; a later one with data takes over. -/
def placeWayPart (s : WayScan) (part : WayPart) (start stop : Nat) : Result WayScan :=
  match part with
  | .id v =>
    if s.id.isSome then .error (repeatedMessageFieldError "Way" "id")
    else .ok { s with id := some (v, start, stop) }
  | .refs seg =>
    if seg ≠ [] ∧ s.oldRefsData ≠ [] then .error (repeatedFieldError "Way" "refs")
    else if s.refsRange.isNone ∨ seg ≠ [] then
      .ok { s with oldRefsData := seg, refsRange := some (start, stop) }
    else .ok s
  | .other => .ok s

def scanWay (wayBytes : Bytes) : Result WayScan :=
  spanWalk (cursor ph) (readWayPart ph) placeWayPart {} wayBytes

/-- What the loop over references carries along. -/
structure RefIds where
  prevOld : Int64 := 0
  prevNew : Int64 := 0
  orphans : Nat := 0
  out : Bytes := []

/-- One reference replaced by `new`, behind the ones before it. -/
def pushRef (outField : String) (s : RefIds) (old new : Int64) (orphan : Bool) : Result RefIds :=
  (if orphan then inc s.orphans else .ok s.orphans).bind fun orphans =>
    (orElse (checkedSub new s.prevNew) (deltaOverflowError outField)).map fun newDelta =>
      { prevOld := old
        prevNew := new
        orphans
        out := s.out ++ ph.encodeVarint (ph.zigzagEncode64 newDelta) }

def refStep (nodes : Space) (oldWayId : Int64) (s : RefIds) (delta : Int64) : Result RefIds :=
  (orElse (checkedAdd s.prevOld delta) (deltaOverflowError "Way.refs")).bind fun old =>
    if old.toInt < 0 then .error (negativeRefError old)
    else
      (withContext ("in way " ++ showId oldWayId) (nodes.resolve old)).bind fun r =>
        pushRef ph "Way.refs (output)" s old r.1 r.2

structure WayState where
  total : Nat := 0
  orphans : Nat := 0
  span : Span := {}
  wayIdSet : IdSet

/-- One way with its id and refs replaced. -/
def reframeWay (wayBytes : Bytes) (newWayId : Int64) (nodes : Space) (wayIdSet : IdSet)
    (span : Span) : Result (Span × IdSet × Nat × Bytes) :=
  (scanWay ph wayBytes).bind fun scan =>
    (orElse scan.id (.invalidData "reframe_ways: no id field")).bind fun id =>
      if id.1.toInt < 0 then .error (negativeIdError "way" id.1)
      else
        (span.push "way" id.1).bind fun span =>
          (foldSint64 ph (refStep ph nodes id.1) {} scan.oldRefsData).bind fun refs =>
            (orElse scan.refsRange (.invalidData "reframe_ways: no refs field")).map fun refsR =>
              (span, wayIdSet.set id.1, refs.orphans,
                spliceTwo wayBytes id.2 (ph.encodeInt64Field 1 newWayId) refsR
                  (ph.encodeBytesField 8 refs.out))

def addOrphans (n m : Nat) : Result Nat :=
  if n + m < 2 ^ 64 then .ok (n + m)
  else .error (.invalidData "renumber: orphan count overflow")

def wayGroupField (base : Int64) (nodes : Space) :
    Handler RewriteError (WayState × Bytes) := fun s field wire =>
  match field, wire with
  | 3, wireLen => fun cur =>
    take (wireErr (ph.readLenDelimited cur)) fun wayBytes =>
      (offsetId base s.1.total).bind fun newWayId =>
        (reframeWay ph wayBytes newWayId nodes s.1.wayIdSet s.1.span).bind fun r =>
          (addOrphans s.1.orphans r.2.2.1).bind fun orphans =>
            (inc s.1.total).map fun total =>
              ({ total, orphans, span := r.1, wayIdSet := r.2.1 },
                s.2 ++ ph.encodeBytesField 3 r.2.2.2)
  | 1, _ | 2, _ | 4, _ => fun _ => .error (foreignKindError "way" field)
  | _, _ => fun cur =>
    take (copyField ph field wire cur) fun bytes => .ok (s.1, s.2 ++ bytes)

def reframeWayGroup (base : Int64) (nodes : Space) (s : WayState × Bytes)
    (group : Bytes) : Result (WayState × Bytes) :=
  (walk (cursor ph) (wayGroupField ph base nodes) (s.1, []) group).map fun t =>
    (t.1, s.2 ++ ph.encodeBytesField 2 t.2)

structure WayResult where
  output : Bytes
  outcome : Outcome
  wayIdSet : IdSet

def reframeWaysWithNewIds (decompressed : Bytes) (base : Int64) (nodes : Space)
    (wayIdSet : IdSet) : Result WayResult :=
  (splitBlock ph true "reframe_ways" decompressed).bind fun p =>
    (forEachGroup ph (reframeWayGroup ph base nodes)
      ({ wayIdSet }, ph.encodeBytesFieldAlways 1 p.1) decompressed).map fun q =>
        { output := q.1.2 ++ p.2
          outcome := ⟨q.1.1.total, q.1.1.orphans, q.1.1.span.get, none⟩
          wayIdSet := q.1.1.wayIdSet }

structure RelationIdSpaces where
  relations : Space
  nodes : Space
  ways : Space

inductive RelationPart where
  | id (v : Int64)
  | memids (seg : Bytes)
  | types (seg : Bytes)
  | other

def readRelationPart (field wire : Nat) : Bytes → Result (RelationPart × Bytes) :=
  match field, wire with
  | 1, wireVarint => fun cur => take (wireErr (ph.readVarintI64 cur)) fun v => .ok (.id v)
  | 9, wireLen => fun cur => take (wireErr (ph.readLenDelimited cur)) fun seg => .ok (.memids seg)
  | 10, wireLen => fun cur => take (wireErr (ph.readLenDelimited cur)) fun seg => .ok (.types seg)
  | 9, wireVarint => fun _ => .error (unpackedFieldError "Relation" "memids")
  | 10, wireVarint => fun _ => .error (unpackedFieldError "Relation" "types")
  | _, _ => fun cur => take (wireErr (ph.readRawField wire cur)) fun _ => .ok .other

structure RelationScan where
  id : Option (Int64 × Nat × Nat) := none
  memidsRange : Option (Nat × Nat) := none
  oldMemidsData : Bytes := []
  typesData : Bytes := []

def placeRelationPart (s : RelationScan) (part : RelationPart) (start stop : Nat) :
    Result RelationScan :=
  match part with
  | .id v =>
    if s.id.isSome then .error (repeatedMessageFieldError "Relation" "id")
    else .ok { s with id := some (v, start, stop) }
  | .memids seg =>
    if seg ≠ [] ∧ s.oldMemidsData ≠ [] then .error (repeatedFieldError "Relation" "memids")
    else if s.memidsRange.isNone ∨ seg ≠ [] then
      .ok { s with oldMemidsData := seg, memidsRange := some (start, stop) }
    else .ok s
  | .types seg =>
    if seg = [] then .ok s
    else if s.typesData ≠ [] then .error (repeatedFieldError "Relation" "types")
    else .ok { s with typesData := seg }
  | .other => .ok s

def scanRelation (relBytes : Bytes) : Result RelationScan :=
  spanWalk (cursor ph) (readRelationPart ph) placeRelationPart {} relBytes

/-- The space a member type names; the type is truncated to 32 bits. -/
def memberSpace (ids : RelationIdSpaces) (memberType : Nat) : Option Space :=
  match memberType % 2 ^ 32 with
  | 0 => some ids.nodes
  | 1 => some ids.ways
  | 2 => some ids.relations
  | _ => none

/-- A type that names no space keeps its id. -/
def resolveMember (ids : RelationIdSpaces) (oldRelId : Int64) (memberType : Nat) (old : Int64) :
    Result (Int64 × Bool) :=
  match memberSpace ids memberType with
  | some space => withContext ("in relation " ++ showId oldRelId) (space.resolve old)
  | none => .ok (old, false)

def memberStep (ids : RelationIdSpaces) (oldRelId : Int64) (s : RefIds) (memberType : Nat)
    (delta : Int64) : Result RefIds :=
  (orElse (checkedAdd s.prevOld delta) (deltaOverflowError "Relation.memids")).bind fun old =>
    if old.toInt < 0 then .error (negativeMemberError oldRelId old)
    else
      (resolveMember ids oldRelId memberType old).bind fun r =>
        pushRef ph "Relation.memids (output)" s old r.1 r.2

/-- The loop over members, one type and one delta a turn. -/
def foldMembers (ids : RelationIdSpaces) (oldRelId : Int64) :
    Nat → RefIds → Bytes → Bytes → Result RefIds
  | 0, s, _, _ => .ok s
  | n + 1, s, types, memids =>
    match withContext "types varint" (wireErr (ph.readVarint types)) with
    | .error e => .error e
    | .ok (memberType, types) =>
      match withContext "memids varint" (wireErr (ph.readSint64 memids)) with
      | .error e => .error e
      | .ok (delta, memids) =>
        match memberStep ph ids oldRelId s memberType delta with
        | .error e => .error e
        | .ok s' => foldMembers ids oldRelId n s' types memids

/-- The members of a relation; both arrays must hold as many values. -/
def reframeMembers (ids : RelationIdSpaces) (oldRelId : Int64) (memids types : Bytes) :
    Result RefIds :=
  if memids ≠ [] ∨ types ≠ [] then
    (withContext ("reframe_relations: relation " ++ showId oldRelId ++ " memids")
      (countVarintsStrict ph memids)).bind fun memidsCount =>
        (withContext ("reframe_relations: relation " ++ showId oldRelId ++ " types")
          (countVarintsStrict ph types)).bind fun typesCount =>
            if memidsCount ≠ typesCount then
              .error (memberCountError oldRelId memidsCount typesCount)
            else foldMembers ph ids oldRelId memidsCount {} types memids
  else .ok {}

def uncollectedError (id : Int64) : RewriteError :=
  .internal ("renumber: relation " ++ showId id ++ " was not collected by the R1 pass")

/-- One relation with its id and members replaced. -/
def reframeRelation (relBytes : Bytes) (ids : RelationIdSpaces) (span : Span) :
    Result (Span × Int64 × Nat × Bytes) :=
  (scanRelation ph relBytes).bind fun scan =>
    (orElse scan.id (.invalidData "reframe_relations: relation without an id field")).bind fun id =>
      if id.1.toInt < 0 then .error (negativeIdError "relation" id.1)
      else
        (span.push "relation" id.1).bind fun span =>
          (ids.relations.live id.1).bind fun live =>
            (orElse live (uncollectedError id.1)).bind fun newRelId =>
              (reframeMembers ph ids id.1 scan.oldMemidsData scan.typesData).map fun members =>
                (span, newRelId, members.orphans,
                  match scan.memidsRange with
                  | some memidsR =>
                    spliceTwo relBytes id.2 (ph.encodeInt64Field 1 newRelId) memidsR
                      (ph.encodeBytesField 9 members.out)
                  | none =>
                    relBytes.take id.2.1 ++ (ph.encodeInt64Field 1 newRelId ++
                      relBytes.drop id.2.2))

structure RelationState where
  total : Nat := 0
  orphans : Nat := 0
  span : Span := {}
  newRange : Option (Int64 × Int64) := none

def widen (range : Option (Int64 × Int64)) (id : Int64) : Int64 × Int64 :=
  match range with
  | none => (id, id)
  | some (lo, hi) =>
    (if id.toInt < lo.toInt then id else lo, if hi.toInt < id.toInt then id else hi)

def relationGroupField (ids : RelationIdSpaces) :
    Handler RewriteError (RelationState × Bytes) := fun s field wire =>
  match field, wire with
  | 4, wireLen => fun cur =>
    take (wireErr (ph.readLenDelimited cur)) fun relBytes =>
      (reframeRelation ph relBytes ids s.1.span).bind fun r =>
        (addOrphans s.1.orphans r.2.2.1).bind fun orphans =>
          (inc s.1.total).map fun total =>
            ({ total, orphans, span := r.1, newRange := some (widen s.1.newRange r.2.1) },
              s.2 ++ ph.encodeBytesField 4 r.2.2.2)
  | 1, _ | 2, _ | 3, _ => fun _ => .error (foreignKindError "relation" field)
  | _, _ => skip (cursor ph) s wire

def reframeRelationGroup (ids : RelationIdSpaces) (s : RelationState × Bytes)
    (group : Bytes) : Result (RelationState × Bytes) :=
  (walk (cursor ph) (relationGroupField ph ids) (s.1, []) group).map fun t =>
    (t.1, s.2 ++ ph.encodeBytesField 2 t.2)

structure RelationResult where
  output : Bytes
  outcome : Outcome

def reframeRelationsWithNewIds (decompressed : Bytes) (ids : RelationIdSpaces) :
    Result RelationResult :=
  (splitBlock ph true "reframe_relations" decompressed).bind fun p =>
    (forEachGroup ph (reframeRelationGroup ph ids) ({}, ph.encodeBytesFieldAlways 1 p.1)
      decompressed).map fun q =>
        { output := q.1.2 ++ p.2
          outcome := ⟨q.1.1.total, q.1.1.orphans, q.1.1.span.get, q.1.1.newRange⟩ }

end Rewriters

end WireRewrite
