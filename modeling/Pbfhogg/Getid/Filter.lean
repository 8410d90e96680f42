import Pbfhogg.IdSet.Reference
import Pbfhogg.TagsFilter.TwoPass

/-!
# Elements by their ids

The single pass of getid and removeid (`commands/getid/mod.rs`). What is written is the list of the
frames that are copied and of the elements that are encoded again; how these are cut into blocks is
left out. What the encoder is handed of an element beside its id, tags, refs and members is read by
the parameter `read`, which may fail.
-/

namespace Getid

open OsmId BlobMeta BlobFilter
open TagsFilter (Element Blob Error Result refusePartialIndex decodeBlock requireIndexdata)
open IdSets (IdSet)

variable {ρ : Type}

structure ElementIds where
  nodeIds : IdSet := {}
  wayIds : IdSet := {}
  relationIds : IdSet := {}

namespace ElementIds

variable (s : ElementIds)

def isEmpty : Bool :=
  !s.nodeIds.hasAny && !s.wayIds.hasAny && !s.relationIds.hasAny

def insert (kind : ElementKind) (id : Int64) : ElementIds :=
  match kind with
  | .node => { s with nodeIds := s.nodeIds.set id }
  | .way => { s with wayIds := s.wayIds.set id }
  | .relation => { s with relationIds := s.relationIds.set id }

def of : ElementKind → IdSet
  | .node => s.nodeIds
  | .way => s.wayIds
  | .relation => s.relationIds

/-- The filter by the kinds of which anything is listed. -/
def blobFilter : Filter where
  wantNodes := s.nodeIds.hasAny
  wantWays := s.wayIds.hasAny
  wantRelations := s.relationIds.hasAny

end ElementIds

def selected (ids : ElementIds) (pulled : Option ElementIds) (kind : ElementKind) (id : Int64) :
    Bool :=
  (ids.of kind).get id || pulled.any fun p => (p.of kind).get id

def elementKey (e : Element ρ) : ElementKind × Int64 := (e.kind, e.id)

def isDominated (ids : ElementIds) (pulled : Option ElementIds) (e : Element ρ) : Bool :=
  let (kind, id) := elementKey e
  selected ids pulled kind id

def recordFound (found : List (ElementKind × Int64)) (ids : ElementIds) (e : Element ρ) :
    List (ElementKind × Int64) :=
  let (kind, id) := elementKey e
  if (ids.of kind).get id then found ++ [(kind, id)] else found

structure SelectProbe where
  ids : ElementIds
  pulled : Option ElementIds
  anyNodes : Bool
  hit : Bool

namespace SelectProbe

def new (ids : ElementIds) (pulled : Option ElementIds) : SelectProbe where
  ids := ids
  pulled := pulled
  anyNodes := ids.nodeIds.hasAny || pulled.any fun p => p.nodeIds.hasAny
  hit := false

/-- One element of the validated block. -/
def see (p : SelectProbe) (e : Element ρ) : SelectProbe :=
  match e.kind with
  | .node => { p with hit := p.hit || (p.anyNodes && selected p.ids p.pulled .node e.id) }
  | .way => { p with hit := p.hit || selected p.ids p.pulled .way e.id }
  | .relation => { p with hit := p.hit || selected p.ids p.pulled .relation e.id }

end SelectProbe

/-- The block, when it holds an element that include mode emits. -/
def includedBlock (b : Blob ρ) (ids : ElementIds) (pulled : Option ElementIds) :
    Result (Option (List (Element ρ))) := do
  let elements ← decodeBlock false b
  let probe := elements.foldl SelectProbe.see (SelectProbe.new ids pulled)
  return if probe.hit then some elements else none

structure BlockOutcome where
  nodes : Nat := 0
  ways : Nat := 0
  relations : Nat := 0
  found : List (ElementKind × Int64) := []

def BlockOutcome.count (o : BlockOutcome) : ElementKind → BlockOutcome
  | .node => { o with nodes := o.nodes + 1 }
  | .way => { o with ways := o.ways + 1 }
  | .relation => { o with relations := o.relations + 1 }

/-- What `process_block` is called with, and how it reads the rest of an element. -/
structure Mode (ρ : Type) where
  ids : ElementIds
  included : Bool
  pulled : Option ElementIds
  stripTags : Bool
  reportFound : Bool
  read : Element ρ → Except PbfError ρ

def Mode.emits (m : Mode ρ) (e : Element ρ) : Bool :=
  if m.included then isDominated m.ids m.pulled e else !isDominated m.ids m.pulled e

/-- The element as it is encoded: an object that was not asked for may lose its tags. -/
def Mode.written (m : Mode ρ) (e : Element ρ) : Element ρ :=
  e.stripped m.stripTags ((m.ids.of e.kind).get e.id)

def processElement (m : Mode ρ) (acc : List (Element ρ) × BlockOutcome) (e : Element ρ) :
    Except PbfError (List (Element ρ) × BlockOutcome) :=
  if !m.emits e then .ok acc
  else do
    let found :=
      if m.reportFound && m.included then recordFound acc.2.found m.ids e else acc.2.found
    let rest ← m.read e
    return (acc.1 ++ [m.written { e with rest := rest }], { acc.2.count e.kind with found := found })

def processBlock (m : Mode ρ) (elements : List (Element ρ)) :
    Except PbfError (List (Element ρ) × BlockOutcome) :=
  elements.foldlM (processElement m) ([], {})

/-- A piece of the output: a frame that is copied, or the blocks made of a decoded one. -/
inductive Piece (ρ : Type) where
  | copied (b : Blob ρ)
  | encoded (elements : List (Element ρ))

def Piece.elements : Piece ρ → List (Element ρ)
  | .copied b => b.elements
  | .encoded elements => elements

structure GetidStats where
  nodesWritten : Nat := 0
  waysWritten : Nat := 0
  relationsWritten : Nat := 0
  passthroughClaimed : Nat := 0
  found : Option ElementIds

/-- The output so far, and what is reported of it. -/
structure Output (ρ : Type) where
  pieces : List (Piece ρ) := []
  stats : GetidStats

def Output.content (out : Output ρ) : List (Element ρ) := out.pieces.flatMap Piece.elements

def Output.start (reportFound : Bool) : Output ρ where
  stats := { found := if reportFound then some {} else none }

def GetidStats.addOutcome (stats : GetidStats) (o : BlockOutcome) : GetidStats where
  nodesWritten := stats.nodesWritten + o.nodes
  waysWritten := stats.waysWritten + o.ways
  relationsWritten := stats.relationsWritten + o.relations
  passthroughClaimed := stats.passthroughClaimed
  found := stats.found.map fun found => o.found.foldl (fun s key => s.insert key.1 key.2) found

def Output.addBlock (out : Output ρ) (r : List (Element ρ) × BlockOutcome) : Output ρ where
  pieces := out.pieces ++ [.encoded r.1]
  stats := out.stats.addOutcome r.2

def Output.copy (out : Output ρ) (b : Blob ρ) (idx : BlobIndex) : Output ρ where
  pieces := out.pieces ++ [.copied b]
  stats := { out.stats with passthroughClaimed := out.stats.passthroughClaimed + idx.count }

/-- Whether the claimed id range holds a requested id of the claimed kind. -/
def hasMatch (ids : ElementIds) (idx : BlobIndex) : Bool :=
  (ids.of idx.kind).anyInRange idx.minId idx.maxId

/-- What a header declares about its ways. -/
structure Declared where
  locationsOnWays : Bool := false
  wayMembers : Bool := false
  sharedNodePins : Bool := false

namespace Declared

def wayEnrichment (d : Declared) : Bool := d.locationsOnWays || d.wayMembers || d.sharedNodePins

def brokenByUnindexedWayBlob (d : Declared) (what : String) : PbfError :=
  let features :=
    [(d.locationsOnWays, "LocationsOnWays"), (d.wayMembers, "pbfhogg.WayMembers-v1"),
      (d.sharedNodePins, "pbfhogg.SharedNodePins-v1")].filter (·.1)
  .invalidData ("a way blob without indexdata follows an indexed first blob, and " ++ what ++
    " would drop " ++ ", ".intercalate (features.map (·.2)) ++
    " from it after the output header already declared them. Give every blob of the input " ++
    "indexdata, or none, or strip the enrichment from it, and rerun")

end Declared

def walkDecoded (m : Mode ρ) (declared : Declared) (b : Blob ρ) (out : Output ρ) :
    Result (Output ρ) := do
  let block ← if m.included then includedBlock b m.ids none else some <$> decodeBlock false b
  match block with
  | none => return out
  | some elements =>
    let r ← (processBlock m elements).mapError Error.pbf
    if b.index.isNone && declared.wayEnrichment && r.1.any fun e => e.kind = .way then
      .error (.pbf (declared.brokenByUnindexedWayBlob "re-encoding it"))
    else return out.addBlock r

def walkBlob (m : Mode ρ) (declared : Declared) (out : Output ρ) (b : Blob ρ) : Result (Output ρ) :=
  match b.index with
  | some idx =>
    if m.included then
      if !m.ids.blobFilter.wantsIndex idx || !hasMatch m.ids idx then .ok out
      else walkDecoded m declared b out
    else if !hasMatch m.ids idx then .ok (out.copy b idx)
    else walkDecoded m declared b out
  | none => walkDecoded m declared b out

section

variable (read : Element ρ → Except PbfError ρ)

/-- `filter_by_id_walker`. The walk refuses a file that is indexed in part. -/
def filterByIdWalker (ids : ElementIds) (included : Bool) (declared : Declared)
    (reportFound : Bool) (input : List (Blob ρ)) : Result (Output ρ) := do
  refusePartialIndex input
  input.foldlM (walkBlob ⟨ids, included, none, false, reportFound, read⟩ declared)
    (.start reportFound)

def streamBlob (m : Mode ρ) (out : Output ρ) (b : Blob ρ) : Result (Output ρ) :=
  if b.index.any fun idx => !m.ids.blobFilter.wantsIndex idx || !hasMatch m.ids idx then .ok out
  else do
    match ← includedBlock b m.ids none with
    | none => return out
    | some elements => return out.addBlock (← (processBlock m elements).mapError Error.pbf)

def filterByIdStreaming (ids : ElementIds) (reportFound : Bool) (input : List (Blob ρ)) :
    Result (Output ρ) := do
  refusePartialIndex input
  input.foldlM (streamBlob ⟨ids, true, none, false, reportFound, read⟩) (.start reportFound)

inductive ScanArm where
  | walker
  | fullScan

/-- getid without the objects that are referenced. The arm is picked by the number of blobs. -/
def getid (arm : ScanArm) (force : Bool) (ids : ElementIds) (reportFound : Bool)
    (input : List (Blob ρ)) : Result (Output ρ) := do
  requireIndexdata force input
  match arm with
  | .walker => filterByIdWalker read ids true {} reportFound input
  | .fullScan => filterByIdStreaming read ids reportFound input

/-- What the input header declares about ways is declared again when every way blob is copied. -/
def removeid (header : Declared) (force : Bool) (ids : ElementIds) (input : List (Blob ρ)) :
    Result (Output ρ) := do
  requireIndexdata force input
  let indexed := input.head?.all (·.index.isSome)
  let declared := if indexed && !ids.wayIds.hasAny then header else {}
  filterByIdWalker read ids false declared false input

end

end Getid
