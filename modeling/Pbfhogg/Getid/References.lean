import Pbfhogg.Check.RefsJobs
import Pbfhogg.Getid.Filter
import Pbfhogg.Lib.GraphWalk
import Pbfhogg.Lib.LeBytes

/-!
# getid with the objects that are referenced

`getid_with_refs` and its phases (`commands/getid/mod.rs`): the requested relations are closed over
their members in at most two reads, the nodes of the ways are added, and a last pass writes. A phase
hands on the results of its blobs in any order, given by `Orders`. The edge store is the list of its
records.
-/

namespace Getid

open BlobMeta BlobFilter LeBytes
open TagsFilter (Element Blob Error Result Orders refusePartialIndex decodeBlock kindSchedule)
open MergeJoin (MemberId)
open IdSets (IdSet)
open CheckRefs (sortDedup)

variable {ρ : Type}

/-- Each record is 16 bytes, the parent and the child, highest byte first. -/
structure EdgeStore where
  records : List Bytes := []

namespace EdgeStore

def extend (s : EdgeStore) (edges : List (Int64 × Int64)) : EdgeStore :=
  ⟨s.records ++ edges.map fun e => i64Be e.1 ++ i64Be e.2⟩

/-- The records as byte arrays, ascending. -/
def sorted (s : EdgeStore) : EdgeStore := ⟨s.records.mergeSort fun a b => decide (a ≤ b)⟩

def children (s : EdgeStore) (parent : Int64) : List Int64 :=
  let key := i64Be parent
  let run := (s.records.dropWhile fun r => decide (r.take 8 < key)).takeWhile fun r =>
    decide (r.take 8 = key)
  run.map fun r => ofI64Be (r.drop 8)

end EdgeStore

structure RelationRefs where
  nodes : List Int64 := []
  ways : List Int64 := []
  relations : List Int64 := []
  edges : List (Int64 × Int64) := []

def addMember (collected seedEdges : Bool) (relation : Int64) (refs : RelationRefs) :
    MemberId → RelationRefs
  | .node id => if collected then { refs with nodes := refs.nodes ++ [id] } else refs
  | .way id => if collected then { refs with ways := refs.ways ++ [id] } else refs
  | .relation id =>
    if seedEdges then
      if collected then { refs with relations := refs.relations ++ [id] }
      else if 0 ≤ relation.toInt ∧ 0 ≤ id.toInt then
        { refs with edges := refs.edges ++ [(relation, id)] }
      else refs
    else refs
  | .unknown _ _ => refs

def addRelation (collect : IdSet) (seedEdges : Bool) (refs : RelationRefs) (e : Element ρ) :
    RelationRefs :=
  match e.body with
  | .relation members =>
    let collected := collect.get e.id
    if !collected && !seedEdges then refs
    else members.foldl (addMember collected seedEdges e.id) refs
  | _ => refs

def relationRefs (collect : IdSet) (seedEdges : Bool) (elements : List (Element ρ)) :
    RelationRefs :=
  elements.foldl (addRelation collect seedEdges) {}

/-- The blobs come in the order they complete in. -/
def relationPhase (order : List (Blob ρ)) (collect : IdSet) (seedEdges : Bool) :
    Result (List RelationRefs) :=
  order.mapM fun b => do return relationRefs collect seedEdges (← decodeBlock false b)

def pullMembers (pulled : ElementIds) (refs : RelationRefs) : ElementIds :=
  { pulled with
    nodeIds := refs.nodes.foldl IdSet.set pulled.nodeIds
    wayIds := refs.ways.foldl IdSet.set pulled.wayIds }

structure FirstRead where
  pulled : ElementIds
  seeds : List Int64 := []
  edges : EdgeStore := {}

def FirstRead.merge (s : FirstRead) (refs : RelationRefs) : FirstRead where
  pulled := pullMembers s.pulled refs
  seeds := s.seeds ++ refs.relations
  edges := s.edges.extend refs.edges

/-- A relation taken off the worklist: nothing when it is passed over, else the set with it. The
flag is `added`. -/
def enterRelation (ids : ElementIds) (s : ElementIds × Bool) (id : Int64) :
    Option (ElementIds × Bool) :=
  if id.toInt < 0 || ids.relationIds.get id then none
  else
    let (new, set) := s.1.relationIds.setIfNew id
    if !new then none else some ({ s.1 with relationIds := set }, true)

/-- The second read takes the members of the relations that were added. -/
def secondRead (order : List (Blob ρ)) (s : ElementIds × Bool) : Result ElementIds :=
  if s.2 then do
    let refs ← relationPhase order s.1.relationIds false
    return refs.foldl pullMembers s.1
  else .ok s.1

def closeRelations (orders : Orders ρ) (fuel : Nat) (schedule : List (Blob ρ)) (ids : ElementIds)
    (pulled : ElementIds) : Result ElementIds := do
  let refs ← relationPhase (orders.shuffle 0 schedule) ids.relationIds true
  let first := refs.foldl FirstRead.merge { pulled := pulled }
  let edges := first.edges.sorted
  -- A `Vec` used as a stack: the last seed is taken first.
  match GraphWalk.walk (enterRelation ids) edges.children fuel first.seeds.reverse
      (first.pulled, false) with
  | none => .error (.pbf .outOfFuel)
  | some s => secondRead (orders.shuffle 1 schedule) s

def wayRefs (wayIds : IdSet) (elements : List (Element ρ)) : List Int64 :=
  sortDedup ((elements.filter fun e => decide (e.kind = .way) && wayIds.get e.id).flatMap
    Element.refs)

def collectWayNodes (orders : Orders ρ) (schedule : List (Blob ρ)) (pulled : ElementIds) :
    Result ElementIds := do
  let refs ← (orders.shuffle 2 schedule).mapM fun b => do
    return wayRefs pulled.wayIds (← decodeBlock false b)
  return { pulled with nodeIds := refs.foldl (fun s ids => ids.foldl IdSet.set s) pulled.nodeIds }

def closeRequested (orders : Orders ρ) (fuel : Nat) (schedule : List (Blob ρ))
    (ids : ElementIds) : Result ElementIds :=
  if ids.relationIds.hasAny then closeRelations orders fuel schedule ids {} else .ok {}

/-- The requested ways join those that were pulled in. -/
def collectRequested (orders : Orders ρ) (schedule : List (Blob ρ)) (ids : ElementIds)
    (pulled : ElementIds) : Result ElementIds :=
  let pulled := { pulled with wayIds := pulled.wayIds.mergeFrom ids.wayIds }
  if pulled.wayIds.hasAny then collectWayNodes orders schedule pulled else .ok pulled

def followReferences (orders : Orders ρ) (fuel : Nat) (ids : ElementIds) (input : List (Blob ρ)) :
    Result ElementIds :=
  if ids.wayIds.hasAny || ids.relationIds.hasAny then do
    let ways ← kindSchedule .way false input
    let relations ← kindSchedule .relation false input
    collectRequested orders ways ids (← closeRequested orders fuel relations ids)
  else .ok {}

def unionFilter (ids pulled : ElementIds) : Filter where
  wantNodes := ids.nodeIds.hasAny || pulled.nodeIds.hasAny
  wantWays := ids.wayIds.hasAny || pulled.wayIds.hasAny
  wantRelations := ids.relationIds.hasAny || pulled.relationIds.hasAny

def writeBlob (m : Mode ρ) (out : Output ρ) (b : Blob ρ) : Result (Output ρ) := do
  match ← includedBlock b m.ids m.pulled with
  | none => return out
  | some elements => return out.addBlock (← (processBlock m elements).mapError Error.pbf)

section

variable (read : Element ρ → Except PbfError ρ)

def writeSelected (ids pulled : ElementIds) (removeTags reportFound : Bool)
    (input : List (Blob ρ)) : Result (Output ρ) := do
  refusePartialIndex input
  let filter := unionFilter ids pulled
  let schedule := input.filter fun b => !blobFilterCheck b.index b.tagdata (some filter)
  let pulledRef := if pulled.isEmpty then none else some pulled
  schedule.foldlM (writeBlob ⟨ids, true, pulledRef, removeTags, reportFound, read⟩)
    (.start reportFound)

def getidWithRefs (orders : Orders ρ) (fuel : Nat) (ids : ElementIds)
    (removeTags reportFound : Bool) (input : List (Blob ρ)) : Result (Output ρ) := do
  let pulled ← followReferences orders fuel ids input
  writeSelected read ids pulled removeTags reportFound input

end

end Getid
