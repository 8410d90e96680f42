import Pbfhogg.Write.BuilderContents

/-!
# The two paths of time-filter

`commands/time_filter/mod.rs`. The history path reads the elements in order and holds the object
whose versions it is in the middle of; the snapshot path filters each block on its own and compares
the ends of consecutive blocks. The input is the decoded elements of each block.
-/

namespace TimeFilter

open OsmId Content Owned BuilderContents BlockBuilder

inductive Error where
  | unsorted (msg : String)
  | invalidData (msg : String)
  | read (e : ReadError)
  | build (e : BuildError)

/-- `TimeFilterStats`. -/
structure Stats where
  versionsSeen : Nat := 0
  versionsBeforeCutoff : Nat := 0
  elementsWritten : Nat := 0
  droppedDeleted : Nat := 0
  droppedNoSnapshotVersion : Nat := 0

abbrev OrderKey := Nat ×ₗ OsmIdKey

variable (kind : ElementKind) (id : Int64)

def orderKey : OrderKey := toLex (kind.ordinal, osmIdKey id)

def key (e : Element) : OrderKey := orderKey e.contentKind e.id

/-- `ElementKind::from_ordinal`. -/
def kindOf : Nat → Option ElementKind
  | 0 => some .node
  | 1 => some .way
  | 2 => some .relation
  | _ => none

def keyIdentity (k : OrderKey) : ElementKind × Int64 :=
  ((kindOf (ofLex k).1).getD .node, osmIdFromKey (ofLex k).2)

def denseTimestamp (info : Option DenseNodeInfo) : Option Int64 :=
  info.map fun i => i.milliTimestamp / 1000

/-- `node_timestamp`, `way_timestamp` and `relation_timestamp`. -/
def infoTimestamp (info : Info) : Option Int64 := info.milliTimestamp.map fun t => t / 1000

def denseVisible (info : Option DenseNodeInfo) : Bool := info.all DenseNodeInfo.visible

def timestamp : Element → Option Int64
  | .denseNode _ _ _ _ info => denseTimestamp info
  | .node _ _ _ _ info | .way _ _ _ _ _ info | .relation _ _ _ info => infoTimestamp info

/-- `dense_visible`, `node_visible`, `way_visible` and `relation_visible`. -/
def visible : Element → Bool
  | .denseNode _ _ _ _ info => denseVisible info
  | .node _ _ _ _ info | .way _ _ _ _ _ info | .relation _ _ _ info => infoVisible info

/-- The version an element claims. -/
def version : Element → Option Int32
  | .denseNode _ _ _ _ info => info.bind denseClaimedVersion
  | .node _ _ _ _ info | .way _ _ _ _ _ info | .relation _ _ _ info => claimedVersion info

def cloneOwnedElement : Element → Except ReadError OwnedElement
  | .denseNode id lat lon tags info => (readDenseNode id lat lon tags info).map .node
  | .node id lat lon tags info => (readNode id lat lon tags info).map .node
  | .way id tags refs _ _ info => (readWay id tags refs info).map .way
  | .relation id tags members info => (readRelation id tags members info).map .relation

def blockType : Element → BlockType
  | .denseNode .. | .node .. => .denseNodes
  | .way .. => .ways
  | .relation .. => .relations

def orderViolation (previous : OrderKey) : Error :=
  .unsorted ("time-filter: " ++ kind.asStr ++ " " ++ toString id.toInt ++ " follows " ++
    ((kindOf (ofLex previous).1).elim "unknown" ElementKind.asStr) ++ " " ++
    toString (osmIdFromKey (ofLex previous).2).toInt ++
    ", out of the Sort.Type_then_ID order the input's header declares; time-filter groups each " ++
    "object's versions by that order")

def snapshotDuplicate : Error :=
  .invalidData ("time-filter: " ++ kind.asStr ++ " " ++ toString id.toInt ++
    " appears more than once in an input whose header does not declare HistoricalInformation; " ++
    "the snapshot path writes every occurrence, so it cannot pick the version at the cutoff. " ++
    "A history file must declare the feature.")

def showVersion (v : Option Int32) : String :=
  v.elim "no version" fun v => "version " ++ toString v.toInt

def versionViolation (previous next : Option Int32) : Error :=
  .invalidData ("time-filter: " ++ kind.asStr ++ " " ++ toString id.toInt ++ " has " ++
    showVersion next ++ " after " ++ showVersion previous ++
    " in a history input; its versions must be strictly ascending for the version at the cutoff " ++
    "to be the last one at or before it")

def requireTimestamp (ts : Option Int64) (kind : ElementKind) (id : Int64) :
    Except Error Int64 :=
  match ts with
  | some t => .ok t
  | none =>
    .error (.invalidData ("time-filter: " ++ kind.asStr ++ " " ++ toString id.toInt ++
      " carries no timestamp. Filtering by time needs one, and treating an absent timestamp as " ++
      "the Unix epoch would place every such element at or below any cutoff - so the command " ++
      "would keep the entire input, write it out unchanged, and report success having filtered " ++
      "nothing. The input has had its metadata stripped (osmium --drop-metadata and several " ++
      "pbfhogg write paths do this); re-run time-filter against an input that still carries " ++
      "element metadata."))

structure PendingGroup where
  kind : ElementKind
  id : Int64
  lastVersion : Option Int32
  latest : Option OwnedElement

structure HistoryState where
  out : Output := {}
  stats : Stats := {}
  pending : Option PendingGroup := none

def elementIdentityAndTimestamp (e : Element) :
    Except Error (ElementKind × Int64 × Int64 × Option Int32) :=
  (requireTimestamp (timestamp e) e.contentKind e.id).map fun t =>
    (e.contentKind, e.id, t, version e)

/-- What a closed group does to the counts. -/
def Stats.close (stats : Stats) (latest : Option OwnedElement) : Stats :=
  match latest with
  | none => { stats with droppedNoSnapshotVersion := stats.droppedNoSnapshotVersion + 1 }
  | some owned =>
    if !owned.visible then { stats with droppedDeleted := stats.droppedDeleted + 1 }
    else { stats with elementsWritten := stats.elementsWritten + 1 }

/-- `flush_group`; `write_owned_element` is `Output.write`. -/
def flushGroup (latest : Option OwnedElement) (out : Output) (stats : Stats) :
    Except Error (Output × Stats) :=
  match latest with
  | none => .ok (out, stats.close none)
  | some owned =>
    if !owned.visible then .ok (out, stats.close (some owned))
    else ((out.write owned).mapError .build).map fun out => (out, stats.close (some owned))

/-- Whether a version may come after another of the same object. -/
def ascends : Option Int32 → Option Int32 → Bool
  | some previous, some next => decide (previous < next)
  | _, _ => false

/-- The group an element belongs to becomes the pending one; the group before it is closed. -/
def enterGroup (version : Option Int32) (s : HistoryState) :
    Except Error HistoryState :=
  match s.pending with
  | none => .ok { s with pending := some ⟨kind, id, version, none⟩ }
  | some g =>
    if orderKey kind id < orderKey g.kind g.id then
      .error (orderViolation kind id (orderKey g.kind g.id))
    else if orderKey kind id = orderKey g.kind g.id then
      if ascends g.lastVersion version then
        .ok { s with pending := some { g with lastVersion := version } }
      else .error (versionViolation kind id g.lastVersion version)
    else
      (flushGroup g.latest s.out s.stats).map fun p => ⟨p.1, p.2, some ⟨kind, id, version, none⟩⟩

/-- An element at or before the cutoff replaces the one its group kept. -/
def keepLatest (cutoff t : Int64) (e : Element) (s : HistoryState) : Except Error HistoryState :=
  if t ≤ cutoff then
    ((cloneOwnedElement e).mapError .read).map fun owned =>
      { s with
        stats := { s.stats with versionsBeforeCutoff := s.stats.versionsBeforeCutoff + 1 }
        pending := s.pending.map fun g => { g with latest := some owned } }
  else .ok s

variable (cutoff : Int64)

/-- One call of the element callback. Once it has failed, it ignores every later element. -/
def historyStep (s : HistoryState) (e : Element) : Except Error HistoryState := do
  let (kind, id, t, version) ← elementIdentityAndTimestamp e
  let stats := { s.stats with versionsSeen := s.stats.versionsSeen + 1 }
  let s ← enterGroup kind id version { s with stats }
  keepLatest cutoff t e s

/-- The blocks written and the counts. -/
abbrev Report := List (List OwnedElement) × Stats

/-- The end of the input closes the last group and takes the last block. -/
def finishHistory (s : HistoryState) : Except Error Report := do
  let (out, stats) ← match s.pending with
    | none => Except.ok (s.out, s.stats)
    | some g => flushGroup g.latest s.out s.stats
  let out ← out.flush.mapError .build
  return (out.blocks, stats)

def timeFilterHistory (blocks : List (List Element)) : Except Error Report := do
  let s ← blocks.foldlM (fun s block => block.foldlM (historyStep cutoff) s) {}
  finishHistory s

/-- Whether the element survives, and the counts. -/
def snapshotGate (e : Element) (cutoff : Int64) (stats : Stats) : Except Error (Bool × Stats) :=
  (requireTimestamp (timestamp e) e.contentKind e.id).map fun t =>
    if cutoff < t then
      (false, { stats with droppedNoSnapshotVersion := stats.droppedNoSnapshotVersion + 1 })
    else
      let stats := { stats with versionsBeforeCutoff := stats.versionsBeforeCutoff + 1 }
      if !visible e then (false, { stats with droppedDeleted := stats.droppedDeleted + 1 })
      else (true, stats)

/-- The first and the last key of a block; none for a block without elements. -/
abbrev Bounds := Option (OrderKey × OrderKey)

structure BlockPass where
  out : Output := {}
  bounds : Bounds := none
  stats : Stats := {}

/-- Every element of the input extends the bounds, before the gate drops any. -/
def extendBounds (bounds : Bounds) (e : Element) : Except Error Bounds :=
  match bounds with
  | none => .ok (some (key e, key e))
  | some (first, last) =>
    if key e < last then .error (orderViolation e.contentKind e.id last)
    else if key e = last then .error (snapshotDuplicate e.contentKind e.id)
    else .ok (some (first, key e))

/-- The arms of the loop: each makes room, resolves what it re-encodes, and adds it. -/
def reencode (out : Output) (e : Element) : Except Error Output := do
  let out ← (out.ensureCapacity (blockType e)).mapError .build
  let owned ← (cloneOwnedElement e).mapError .read
  return { out with bb := out.bb.add owned }

def snapshotStep (s : BlockPass) (e : Element) : Except Error BlockPass := do
  let stats := { s.stats with versionsSeen := s.stats.versionsSeen + 1 }
  let bounds ← extendBounds s.bounds e
  let (kept, stats) ← snapshotGate e cutoff stats
  if kept then
    let out ← reencode s.out e
    return ⟨out, bounds, { stats with elementsWritten := stats.elementsWritten + 1 }⟩
  else return ⟨s.out, bounds, stats⟩

/-- `filter_block_snapshot` and the flush behind it: what a worker hands over for a block. -/
def filterBlockSnapshot (block : List Element) :
    Except Error (List (List OwnedElement) × Stats × Bounds) := do
  let s ← block.foldlM (snapshotStep cutoff) {}
  let out ← s.out.flush.mapError .build
  return (out.blocks, s.stats, s.bounds)

structure DrainState where
  previousLast : Option OrderKey := none
  stats : Stats := {}
  written : List (List OwnedElement) := []

def Stats.add (a b : Stats) : Stats where
  versionsSeen := a.versionsSeen + b.versionsSeen
  versionsBeforeCutoff := a.versionsBeforeCutoff + b.versionsBeforeCutoff
  elementsWritten := a.elementsWritten + b.elementsWritten
  droppedDeleted := a.droppedDeleted + b.droppedDeleted
  droppedNoSnapshotVersion := a.droppedNoSnapshotVersion + b.droppedNoSnapshotVersion

/-- The first key of a block against the last one before it. -/
def checkSeam (previousLast : Option OrderKey) (first : OrderKey) : Except Error Unit :=
  match previousLast with
  | none => .ok ()
  | some previous =>
    if first < previous then
      .error (orderViolation (keyIdentity first).1 (keyIdentity first).2 previous)
    else if first = previous then
      .error (snapshotDuplicate (keyIdentity first).1 (keyIdentity first).2)
    else .ok ()

/-- The last key after a block; a block without elements leaves it. -/
def passSeam (previousLast : Option OrderKey) (bounds : Bounds) :
    Except Error (Option OrderKey) :=
  match bounds with
  | none => .ok previousLast
  | some (first, last) => (checkSeam previousLast first).map fun _ => some last

/-- The drain, called with the result of each block in schedule order. -/
def drain (s : DrainState) (result : List (List OwnedElement) × Stats × Bounds) :
    Except Error DrainState :=
  (passSeam s.previousLast result.2.2).map fun previousLast =>
    ⟨previousLast, s.stats.add result.2.1, s.written ++ result.1⟩

/-- The first block that fails, in its worker or in the drain, ends the run. -/
def timeFilterSnapshot (blocks : List (List Element)) : Except Error Report := do
  let s ← blocks.foldlM (fun s block => do
    let result ← filterBlockSnapshot cutoff block
    drain s result) {}
  return (s.written, s.stats)

end TimeFilter
