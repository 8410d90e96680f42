import Pbfhogg.Diff.MergeJoin
import Pbfhogg.Lib.Deltas
import Pbfhogg.Read.BlobWire

/-!
# The block builder

`write/block_builder.rs`, `write/encode.rs` and `write/string_table.rs`: elements of one kind are
added to a block, and taking it encodes it and starts the next one. The tag index of a block and the
adds of raw string indices are left out.
-/

namespace BlockBuilder

open Protohoggr BlobMeta BlobWire MergeJoin Deltas List

inductive BuildError where
  | invalidData (msg : String)
  | internal (msg : String)

/-- The slots of a block's string table, slot zero included. -/
structure StringTable where
  slots : List Bytes := [[]]

namespace StringTable

/-- Slot zero is never looked up: it ends a dense node's tags. -/
def add (t : StringTable) (s : String) : UInt32 × StringTable :=
  match t.slots.tail.findIdx? fun slot => decide (slot = utf8Bytes s) with
  | some i => (UInt32.ofNat (i + 1), t)
  | none => (UInt32.ofNat t.slots.length, ⟨t.slots ++ [utf8Bytes s]⟩)

end StringTable

/-- The string table with the slots that tag keys took. -/
structure Interned where
  table : StringTable := {}
  tagKeys : List UInt32 := []

namespace Interned

def add (s : Interned) (str : String) : UInt32 × Interned :=
  ((s.table.add str).1, { s with table := (s.table.add str).2 })

def addKey (s : Interned) (key : String) : UInt32 × Interned :=
  let p := s.add key
  (p.1, { p.2 with tagKeys := if p.1 ∈ s.tagKeys then s.tagKeys else p.1 :: s.tagKeys })

/-- The indices of a list of tags, key and value by turns. -/
def addTags (s : Interned) : List (String × String) → List (UInt32 × UInt32) × Interned
  | [] => ([], s)
  | (key, val) :: tags =>
    let k := s.addKey key
    let v := k.2.add val
    let rest := addTags v.2 tags
    ((k.1, v.1) :: rest.1, rest.2)

def addAll (s : Interned) : List String → List UInt32 × Interned
  | [] => ([], s)
  | str :: strs =>
    let p := s.add str
    let rest := addAll p.2 strs
    (p.1 :: rest.1, rest.2)

end Interned

/-- The bytes a varint takes. -/
def varintLen (value : Nat) : Nat := (Nat.log2 (value ||| 1) + 1 + 6) / 7

/-- The bytes a length-delimited field with a one-byte tag takes. -/
def lenFieldSize (bodyLen : Nat) : Option Nat :=
  if 1 + varintLen bodyLen + bodyLen < 2 ^ 64 then some (1 + varintLen bodyLen + bodyLen) else none

structure Metadata where
  version : Int32
  timestamp : Int64
  changeset : Int64
  uid : Int32
  user : String
  visible : Bool

structure MemberData where
  id : MemberId
  role : String

def memberIdOf : MemberId → Int64
  | .node id | .way id | .relation id | .unknown _ id => id

/-- No unknown type gets this far. -/
def memberTypeValue : MemberId → Int32
  | .node _ => 0
  | .way _ => 1
  | .relation _ => 2
  | .unknown .. => 0

section Encode

variable (ph : Crate)

def encodeOptionalInt32 (field : Nat) (value : Int32) : Bytes :=
  UInt8.ofNat (8 * field) :: ph.encodeVarint (signExtend value.toInt)

def encodeOptionalInt64 (field : Nat) (value : Int64) : Bytes :=
  UInt8.ofNat (8 * field) :: ph.encodeVarint (signExtend value.toInt)

def encodeOptionalUint32 (field : Nat) (value : UInt32) : Bytes :=
  UInt8.ofNat (8 * field) :: ph.encodeVarint value.toNat

variable (s : Interned)

/-- Every field of the metadata, and `visible` only when it is false. -/
def encodeInfoTo (m : Metadata) : Bytes × Interned :=
  let user := s.add m.user
  (encodeOptionalInt32 ph 1 m.version ++ (encodeOptionalInt64 ph 2 m.timestamp ++
    (encodeOptionalInt64 ph 3 m.changeset ++ (encodeOptionalInt32 ph 4 m.uid ++
      (encodeOptionalUint32 ph 5 user.1 ++ (if m.visible then [] else [6 * 8, 0]))))), user.2)

def packSint64 (xs : List Int64) : Bytes :=
  xs.flatMap fun x => ph.encodeVarint (ph.zigzagEncode64 x)

/-- Keys and values, when there are any. -/
def encodeTags (tags : List (String × String)) : Bytes × Interned :=
  let p := s.addTags tags
  let keysBuf := p.1.flatMap fun kv => ph.encodeVarint kv.1.toNat
  let valsBuf := p.1.flatMap fun kv => ph.encodeVarint kv.2.toNat
  (if keysBuf ≠ [] then ph.encodeBytesField 2 keysBuf ++ ph.encodeBytesField 3 valsBuf else [],
    p.2)

def encodeInfo (metadata : Option Metadata) : Bytes × Interned :=
  match metadata with
  | some m => (ph.encodeBytesField 4 (encodeInfoTo ph s m).1, (encodeInfoTo ph s m).2)
  | none => ([], s)

/-- The fields every way and relation begins with. -/
def encodeHead (id : Int64) (tags : List (String × String))
    (metadata : Option Metadata) : Bytes × Interned :=
  let t := encodeTags ph s tags
  let i := encodeInfo ph t.2 metadata
  (ph.encodeInt64Field 1 id ++ (t.1 ++ i.1), i.2)

def encodeWay (id : Int64) (tags : List (String × String)) (refs : List Int64)
    (metadata : Option Metadata) : Bytes × Interned :=
  let head := encodeHead ph s id tags metadata
  let refsField :=
    if refs ≠ [] then ph.encodeBytesField 8 (packSint64 ph (deltasFrom 0 refs)) else []
  (ph.encodeBytesField 3 (head.1 ++ refsField), head.2)

/-- Refs and locations are walked together, so the shorter list decides. -/
def encodeWayWithLocations (id : Int64) (tags : List (String × String))
    (refs : List Int64) (locations : List (Int32 × Int32)) (metadata : Option Metadata) :
    Bytes × Interned :=
  let head := encodeHead ph s id tags metadata
  let pairs := refs.zip locations
  let fields :=
    if refs ≠ [] then
      ph.encodeBytesField 8 (packSint64 ph (deltasFrom 0 (pairs.map fun p => p.1))) ++
        (ph.encodeBytesField 9 (packSint64 ph (deltasFrom 0 (pairs.map fun p => p.2.1.toInt64))) ++
          ph.encodeBytesField 10
            (packSint64 ph (deltasFrom 0 (pairs.map fun p => p.2.2.toInt64))))
    else []
  (ph.encodeBytesField 3 (head.1 ++ fields), head.2)

def packInt32 (xs : List Int32) : Bytes :=
  xs.flatMap fun x => ph.encodeVarint (signExtend x.toInt)

def encodeRelation (id : Int64) (tags : List (String × String))
    (members : List MemberData) (metadata : Option Metadata) : Bytes × Interned :=
  let head := encodeHead ph s id tags metadata
  let roles := head.2.addAll (members.map fun m => m.role)
  let fields :=
    if members ≠ [] then
      ph.encodeBytesField 8 (packInt32 ph (roles.1.map fun r => r.toInt32)) ++
        (ph.encodeBytesField 9
            (packSint64 ph (deltasFrom 0 (members.map fun m => memberIdOf m.id))) ++
          ph.encodeBytesField 10 (packInt32 ph (members.map fun m => memberTypeValue m.id)))
    else []
  (ph.encodeBytesField 4 (head.1 ++ fields), roles.2)

end Encode

inductive BlockType where
  | denseNodes
  | ways
  | relations
  deriving DecidableEq

/-- The dense node arrays and their delta state. -/
structure Dense where
  ids : List Int64 := []
  lats : List Int64 := []
  lons : List Int64 := []
  keysVals : List Int32 := []
  versions : List Int32 := []
  timestamps : List Int64 := []
  changesets : List Int64 := []
  uids : List Int32 := []
  userSids : List Int32 := []
  visibles : List Bool := []
  hasMetadata : Bool := false
  lastId : Int64 := 0
  lastLat : Int64 := 0
  lastLon : Int64 := 0
  lastTimestamp : Int64 := 0
  lastChangeset : Int64 := 0
  lastUid : Int32 := 0
  lastUserSid : Int32 := 0

structure Builder where
  strings : Interned := {}
  blockType : Option BlockType := none
  count : Nat := 0
  cap : Nat
  minId : Int64 := Int64.maxValue
  maxId : Int64 := Int64.minValue
  minLat : Int32 := Int32.maxValue
  maxLat : Int32 := Int32.minValue
  minLon : Int32 := Int32.maxValue
  maxLon : Int32 := Int32.minValue
  dense : Dense := {}
  groupBuf : Bytes := []
  poison : Option String := none
  cap_pos : 0 < cap

namespace Builder

/-- A new, empty builder. -/
def withElementCap (cap : Nat) (h : 0 < cap) : Builder := { cap, cap_pos := h }

def shouldFlush (b : Builder) : Bool := decide (b.cap ≤ b.count)

/-- The block holds no other kind and is not full. -/
def canAdd (b : Builder) (kind : BlockType) : Bool :=
  match b.blockType with
  | none => true
  | some held => decide (held = kind) && !b.shouldFlush

/-- The first reason wins. -/
def setPoison (b : Builder) (reason : String) : Builder :=
  { b with poison := b.poison.or (some reason) }

def refusal (b : Builder) (attempted : BlockType) (id : Int64) : String :=
  let what := match attempted with
    | .denseNodes => "node"
    | .ways => "way"
    | .relations => "relation"
  let full := what ++ " " ++ toString id.toInt ++ " added to a full block (" ++ toString b.cap ++
    " element cap); take the block when can_add returns false"
  match b.blockType with
  | some held =>
    if held ≠ attempted then
      what ++ " " ++ toString id.toInt ++ " added to a block holding " ++
        (match held with
          | .denseNodes => "nodes"
          | .ways => "ways"
          | .relations => "relations") ++
        "; a block holds one element kind, so take the block before adding another kind"
    else full
  | none => full

def refuse (b : Builder) (attempted : BlockType) (id : Int64) : Builder :=
  b.setPoison (b.refusal attempted id)

def trackId (b : Builder) (id : Int64) : Builder :=
  { b with
    minId := if id.toInt < b.minId.toInt then id else b.minId
    maxId := if b.maxId.toInt < id.toInt then id else b.maxId }

def trackCoords (b : Builder) (lat lon : Int32) : Builder :=
  { b with
    minLat := if lat.toInt < b.minLat.toInt then lat else b.minLat
    maxLat := if b.maxLat.toInt < lat.toInt then lat else b.maxLat
    minLon := if lon.toInt < b.minLon.toInt then lon else b.minLon
    maxLon := if b.maxLon.toInt < lon.toInt then lon else b.maxLon }

end Builder

namespace Dense

variable (d : Dense)

def addMetadata (m : Metadata) (userSid : Int32) : Dense :=
  { d with
    hasMetadata := true
    versions := d.versions ++ [m.version]
    timestamps := d.timestamps ++ [m.timestamp - d.lastTimestamp]
    lastTimestamp := m.timestamp
    changesets := d.changesets ++ [m.changeset - d.lastChangeset]
    lastChangeset := m.changeset
    uids := d.uids ++ [m.uid - d.lastUid]
    lastUid := m.uid
    userSids := d.userSids ++ [userSid - d.lastUserSid]
    lastUserSid := userSid
    visibles := d.visibles ++ [m.visible] }

/-- Zeroed metadata for `count` nodes already added without any. -/
def backfillDefaultMetadata (count : Nat) : Dense :=
  { d with
    hasMetadata := true
    versions := d.versions ++ replicate count 0
    timestamps := d.timestamps ++ replicate count 0
    changesets := d.changesets ++ replicate count 0
    uids := d.uids ++ replicate count 0
    userSids := d.userSids ++ replicate count 0
    visibles := d.visibles ++ replicate count true }

/-- The deltas back to zero. -/
def pushDefaultMetadata : Dense :=
  { d with
    versions := d.versions ++ [0]
    timestamps := d.timestamps ++ [-d.lastTimestamp]
    lastTimestamp := 0
    changesets := d.changesets ++ [-d.lastChangeset]
    lastChangeset := 0
    uids := d.uids ++ [-d.lastUid]
    lastUid := 0
    userSids := d.userSids ++ [-d.lastUserSid]
    lastUserSid := 0
    visibles := d.visibles ++ [true] }

def pushNode (id : Int64) (lat lon : Int32) (tags : List (UInt32 × UInt32)) : Dense :=
  { d with
    ids := d.ids ++ [id - d.lastId]
    lats := d.lats ++ [lat.toInt64 - d.lastLat]
    lons := d.lons ++ [lon.toInt64 - d.lastLon]
    lastId := id
    lastLat := lat.toInt64
    lastLon := lon.toInt64
    keysVals := d.keysVals ++ (tags.flatMap (fun kv => [kv.1.toInt32, kv.2.toInt32]) ++ [0]) }

end Dense

namespace Builder

section Adds

variable (ph : Crate) (b : Builder) (id : Int64)

def addNode (lat lon : Int32) (tags : List (String × String))
    (metadata : Option Metadata) : Builder :=
  if !b.canAdd .denseNodes then b.refuse .denseNodes id
  else
    let t := b.strings.addTags tags
    let dense := b.dense.pushNode id lat lon t.1
    let b : Builder := { b.trackCoords lat lon with blockType := some .denseNodes }
    match metadata with
    | some m =>
      let dense : Dense :=
        if dense.hasMetadata = false ∧ 0 < b.count then dense.backfillDefaultMetadata b.count else dense
      let user := t.2.add m.user
      { b.trackId id with
        strings := user.2
        dense := dense.addMetadata m user.1.toInt32
        count := b.count + 1 }
    | none =>
      { b.trackId id with
        strings := t.2
        dense := if dense.hasMetadata then dense.pushDefaultMetadata else dense
        count := b.count + 1 }

variable (kind : BlockType)

/-- The element's bytes go behind the ones before it. -/
def push (id : Int64) (element : Bytes × Interned) :
    Builder :=
  { b.trackId id with
    blockType := some kind
    strings := element.2
    groupBuf := b.groupBuf ++ element.1
    count := b.count + 1 }

variable (tags : List (String × String))

def addWay (refs : List Int64)
    (metadata : Option Metadata) : Builder :=
  if !b.canAdd .ways then b.refuse .ways id
  else b.push .ways id (encodeWay ph b.strings id tags refs metadata)

def locationCountMsg (refs locations : Nat) : String :=
  "way " ++ toString id.toInt ++ ": " ++ toString refs ++ " node ref(s) but " ++
    toString locations ++ " location(s); encoding it would silently drop refs"

/-- As many locations as refs, or the builder is poisoned. -/
def addWayWithLocations
    (refs : List Int64) (locations : List (Int32 × Int32)) (metadata : Option Metadata) :
    Builder :=
  if refs.length ≠ locations.length then
    b.setPoison (locationCountMsg id refs.length locations.length)
  else if !b.canAdd .ways then b.refuse .ways id
  else b.push .ways id (encodeWayWithLocations ph b.strings id tags refs locations metadata)

def unknownTypeMsg (raw : Int32) : String :=
  "relation " ++ toString id.toInt ++ ": member type " ++ toString raw.toInt ++
    " has no Relation.MemberType enum value; encoding it would rewrite the member as a node"

def unknownType (members : List MemberData) : Option Int32 :=
  members.findSome? fun m =>
    match m.id with
    | .unknown raw _ => some raw
    | _ => none

/-- No member of unknown type, or the builder is poisoned. -/
def addRelation
    (members : List MemberData) (metadata : Option Metadata) : Builder :=
  match unknownType members with
  | some raw => b.setPoison (unknownTypeMsg id raw)
  | none =>
    if !b.canAdd .relations then b.refuse .relations id
    else b.push .relations id (encodeRelation ph b.strings id tags members metadata)

/-- The string table as field 1 of the block, its length written before it. -/
def encodeStringTable (t : StringTable) : Except BuildError Bytes :=
  let overflow := BuildError.internal "string table length overflows usize"
  let bodyLen := t.slots.foldl (fun acc slot =>
    match acc, lenFieldSize slot.length with
    | some n, some m => if n + m < 2 ^ 64 then some (n + m) else none
    | _, _ => none) (some 0)
  match bodyLen with
  | none => .error overflow
  | some n =>
    match lenFieldSize n with
    | none => .error overflow
    | some _ =>
      let body := t.slots.flatMap fun slot => ph.encodeBytesFieldAlways 1 slot
      if body.length ≠ n then
        .error (.internal ("string table body is " ++ toString body.length ++
          " bytes but its length prefix says " ++ toString n))
      else .ok (ph.encodeTag 1 wireLen ++ (ph.encodeVarint n ++ body))

def encodeDenseInfo (d : Dense) : Bytes :=
  ph.encodePackedInt32 1 d.versions ++ (ph.encodePackedSint64 2 d.timestamps ++
    (ph.encodePackedSint64 3 d.changesets ++ (ph.encodePackedSint32 4 d.uids ++
      (ph.encodePackedSint32 5 d.userSids ++ ph.encodePackedBool 6 d.visibles))))

def encodeDenseBody (d : Dense) : Bytes :=
  ph.encodePackedSint64 1 d.ids ++
    ((if d.hasMetadata then ph.encodeBytesField 5 (encodeDenseInfo ph d) else []) ++
      (ph.encodePackedSint64 8 d.lats ++ (ph.encodePackedSint64 9 d.lons ++
        ph.encodePackedInt32 10 d.keysVals)))

/-- The group behind the two lengths that follow from the body's. -/
def encodeDenseNodesGroup (d : Dense) : Except BuildError Bytes :=
  let overflow := BuildError.internal "dense node group length overflows usize"
  let body := encodeDenseBody ph d
  match lenFieldSize body.length with
  | none => .error overflow
  | some groupLen =>
    match lenFieldSize groupLen with
    | none => .error overflow
    | some _ =>
      .ok (ph.encodeTag 2 wireLen ++ (ph.encodeVarint groupLen ++ (ph.encodeTag 2 wireLen ++
        (ph.encodeVarint body.length ++ body))))

def encodeGroup : Except BuildError Bytes :=
  match kind with
  | .denseNodes => encodeDenseNodesGroup ph b.dense
  | .ways | .relations => .ok (ph.encodeBytesField 2 b.groupBuf)

def index : BlobIndex where
  kind := match kind with
    | .denseNodes => .node
    | .ways => .way
    | .relations => .relation
  minId := b.minId
  maxId := b.maxId
  count := b.count
  bbox :=
    if kind = .denseNodes ∧ b.minLat.toInt ≤ b.maxLat.toInt then
      some ⟨b.minLat, b.maxLat, b.minLon, b.maxLon⟩
    else none

/-- Everything but the cap and the poison starts over. -/
def reset : Builder := { cap := b.cap, poison := b.poison, cap_pos := b.cap_pos }

/-- The bytes and the index of the block, and the builder for the next one. -/
def encodeBlock : Except BuildError (Option (Bytes × BlobIndex) × Builder) :=
  match b.poison with
  | some reason =>
    .error (.invalidData ("BlockBuilder refused to encode a block: " ++ reason))
  | none =>
    match b.blockType with
    | none => .ok (none, b.reset)
    | some kind =>
      (encodeStringTable ph b.strings.table).bind fun table =>
        (encodeGroup ph b kind).map fun group => (some (table ++ group, b.index kind), b.reset)

def take : Except BuildError (Option Bytes × Builder) :=
  (b.encodeBlock ph).map fun p => (p.1.map Prod.fst, p.2)

end Adds

end Builder

end BlockBuilder
