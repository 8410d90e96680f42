import Pbfhogg.Diff.MergeJoin
import Pbfhogg.Lib.Outcomes
import Pbfhogg.Lib.SharedPool
import Pbfhogg.Renumber.IdSpace

/-!
# The reference check

`check/refs.rs`: the phases of `check --refs`. A blob is its decoded elements and the kind its
indexdata claims. Each blob is a job of a worker pool, whose questions to the shared id sets
interleave with those of the others; the results are merged in the order they arrive.
-/

namespace CheckRefs

open OsmId BlobMeta SharedPool IdSpace
open MergeJoin (MemberId)

inductive Element where
  | node (id : Int64)
  | way (id : Int64) (refs : List Int64)
  | relation (id : Int64) (members : List MemberId)

def Element.kind : Element → ElementKind
  | .node _ => .node
  | .way _ _ => .way
  | .relation _ _ => .relation

structure Blob where
  claim : Option ElementKind
  elements : List Element

structure WaySpan where
  id : Int64
  refs : List Int64

structure RelationSpan where
  id : Int64
  members : List MemberId

namespace Blob

/-! The projections of a blob, each in element-walk order. -/

def nodeIds (b : Blob) : List Int64 :=
  b.elements.filterMap fun
    | .node id => some id
    | _ => none

def waySpans (b : Blob) : List WaySpan :=
  b.elements.filterMap fun
    | .way id refs => some ⟨id, refs⟩
    | _ => none

def relationSpans (b : Blob) : List RelationSpan :=
  b.elements.filterMap fun
    | .relation id members => some ⟨id, members⟩
    | _ => none

/-- The refusal of a blob that holds elements its claim denies. -/
def accept (b : Blob) : Except PbfError Unit :=
  match b.claim with
  | none => .ok ()
  | some claimed => refuseForeignKind (b.elements.map Element.kind) claimed

end Blob

def negativeIdError (kind : String) (id : Int64) : PbfError :=
  .invalidData (kind ++ " " ++ showId id ++ " has a negative ID; the reference check does not " ++
    "check negative IDs, which no production PBF carries")

def negativeRefError (fromType : Char) (fromId : Int64) (toType : Char) (toId : Int64) : PbfError :=
  .invalidData (fromType.toString ++ showId fromId ++ " references negative ID " ++
    toType.toString ++ showId toId ++ "; the reference check does not check negative IDs, which " ++
    "no production PBF carries")

def unknownMemberError (rid : Int64) (rawType : Int32) (id : Int64) : PbfError :=
  .invalidData ("r" ++ showId rid ++ " has member " ++ showId id ++ " of unsupported member type " ++
    toString rawType.toInt ++ "; the reference check resolves only node, way and relation members")

structure MissingRef where
  missingType : Char
  missingId : Int64
  referencingType : Char
  referencingId : Int64

structure RefCheckResult where
  nodeCount : Nat := 0
  wayCount : Nat := 0
  relationCount : Nat := 0
  missingNodeRefs : Nat := 0
  missingWayRefs : Nat := 0
  missingNodeMembers : Nat := 0
  missingRelationMembers : Nat := 0
  missingRelationMemberOccurrences : Nat := 0
  missingRefs : List MissingRef := []

structure ShowIds where
  maxErrors : Nat

/-- The options of a run, and what judging a blob needs besides the sets. -/
structure Judge where
  checkRelations : Bool
  showIds : Option ShowIds

def shouldStoreMissingRef (currentLen maxErrors : Nat) : Bool :=
  maxErrors = 0 ∨ currentLen < maxErrors

variable (judge : Judge)

def Judge.keepsDetail (retained : Nat) : Bool :=
  match judge.showIds with
  | some showIds => shouldStoreMissingRef retained showIds.maxErrors
  | none => false

def appendCappedMissingRefs (target entries : List MissingRef) (maxErrors : Nat) :
    List MissingRef :=
  if maxErrors = 0 then target ++ entries else target ++ entries.take (maxErrors - target.length)

structure Sets where
  nodes : IdSet := {}
  ways : IdSet := {}
  relations : IdSet := {}

def Sets.of (s : Sets) : ElementKind → IdSet
  | .node => s.nodes
  | .way => s.ways
  | .relation => s.relations

def Sets.update (s : Sets) (k : ElementKind) (x : IdSet) : Sets :=
  match k with
  | .node => { s with nodes := x }
  | .way => { s with ways := x }
  | .relation => { s with relations := x }

inductive SetOp where
  | setAtomicChecked (k : ElementKind) (id : Int64)
  | get (k : ElementKind) (id : Int64)

/-- One operation on the sets, in a phase that began with `before`. A load races the stores of the
other workers: it may miss an insertion of the running phase, never one made before the phase. -/
inductive SetStep (before : Sets) : Sets → SetOp → Bool → Sets → Prop where
  | set (s : Sets) (k : ElementKind) (id : Int64) :
      SetStep before s (.setAtomicChecked k id) ((s.of k).setAtomicChecked id).1
        (s.update k ((s.of k).setAtomicChecked id).2)
  | hit {s : Sets} {k : ElementKind} {id : Int64} (h : (s.of k).get id = true) :
      SetStep before s (.get k id) true s
  | miss {s : Sets} {k : ElementKind} {id : Int64}
      (h : (s.of k).get id = true → (before.of k).get id = false) :
      SetStep before s (.get k id) false s

lemma setStep_total (before s : Sets) (o : SetOp) : ∃ b s', SetStep before s o b s' := by
  cases o with
  | setAtomicChecked k id => exact ⟨_, _, .set s k id⟩
  | get k id =>
    cases hget : (s.of k).get id with
    | true => exact ⟨true, s, .hit hget⟩
    | false => exact ⟨false, s, .miss fun h => by simp [hget] at h⟩

def sharedSets (before : Sets) : Shared Sets SetOp where
  step := SetStep before
  total := setStep_total before

/-- The work on one blob. -/
abbrev BlobJob := Job SetOp PbfError

def setAtomicChecked (k : ElementKind) (id : Int64) : BlobJob Bool :=
  Job.query (.setAtomicChecked k id)

def get (k : ElementKind) (id : Int64) : BlobJob Bool := Job.query (.get k id)

variable (b : Blob)

def accepted : BlobJob Unit :=
  match b.accept with
  | .ok () => .ret ()
  | .error e => .fail e

variable (ids : List Int64)

def sortIds : List Int64 := ids.mergeSort fun a b => decide (a ≤ b)

/-- Of equal neighbours only one is kept. -/
def dedup : List Int64 → List Int64
  | [] => []
  | [x] => [x]
  | x :: y :: rest => if x = y then dedup (y :: rest) else x :: dedup (y :: rest)

def sortDedup : List Int64 := dedup (sortIds ids)

def replayNode (r : Nat × List Int64) (id : Int64) : BlobJob (Nat × List Int64) := do
  if ← setAtomicChecked .node id then
    pure (r.1 + 1, r.2)
  else if id.toInt < 0 then
    .fail (negativeIdError "node" id)
  else
    pure (r.1 + 1, r.2 ++ [id])

/-- How many nodes the blob has, and those above the pre-allocation. -/
def replayNodes : BlobJob (Nat × List Int64) := ids.foldlM replayNode (0, [])

structure WayBlobResult where
  wayCount : Nat := 0
  overflowIds : List Int64 := []
  wayRefsChecked : Nat := 0
  missingNodeRefOccurrences : Nat := 0
  missingNodeRefs : List Int64 := []
  missingRefs : List MissingRef := []

def judgeRef (wid : Int64) (r : WayBlobResult) (nref : Int64) :
    BlobJob WayBlobResult := do
  let r := { r with wayRefsChecked := r.wayRefsChecked + 1 }
  if ← get .node nref then
    pure r
  else if nref.toInt < 0 then
    .fail (negativeRefError 'w' wid 'n' nref)
  else
    pure
      { r with
        missingNodeRefs := r.missingNodeRefs ++ [nref]
        missingRefs :=
          if judge.keepsDetail r.missingRefs.length then
            r.missingRefs ++ [⟨'n', nref, 'w', wid⟩]
          else r.missingRefs }

/-- The way's id, which only the relation phase compares. -/
def insertWayId (r : WayBlobResult) (wid : Int64) : BlobJob WayBlobResult :=
  if judge.checkRelations then do
    if ← setAtomicChecked .way wid then
      pure r
    else if wid.toInt < 0 then
      .fail (negativeIdError "way" wid)
    else
      pure { r with overflowIds := r.overflowIds ++ [wid] }
  else pure r

def judgeWay (r : WayBlobResult) (way : WaySpan) : BlobJob WayBlobResult := do
  let r ← insertWayId judge r way.id
  way.refs.foldlM (judgeRef judge way.id) { r with wayCount := r.wayCount + 1 }

def judgeWays (ways : List WaySpan) : BlobJob WayBlobResult := do
  let r ← ways.foldlM (judgeWay judge) {}
  pure
    { r with
      missingNodeRefOccurrences := r.missingNodeRefs.length
      missingNodeRefs := sortDedup r.missingNodeRefs }

structure RelBlobResult where
  relationCount : Nat := 0
  overflowIds : List Int64 := []
  relNodeMembersChecked : Nat := 0
  relWayMembersChecked : Nat := 0
  relRelMembersDeferred : Nat := 0
  missingNodeMemberOccurrences : Nat := 0
  missingWayRefOccurrences : Nat := 0
  missingNodeMembers : List Int64 := []
  missingWayRefs : List Int64 := []
  deferredRelationRefs : List Int64 := []
  deferredRelationRefSources : List Int64 := []
  missingRefs : List MissingRef := []

def judgeMember (rid : Int64) (r : RelBlobResult) :
    MemberId → BlobJob RelBlobResult
  | .node id => do
    let r := { r with relNodeMembersChecked := r.relNodeMembersChecked + 1 }
    if ← get .node id then
      pure r
    else if id.toInt < 0 then
      .fail (negativeRefError 'r' rid 'n' id)
    else
      pure
        { r with
          missingNodeMembers := r.missingNodeMembers ++ [id]
          missingRefs :=
            if judge.keepsDetail r.missingRefs.length then
              r.missingRefs ++ [⟨'n', id, 'r', rid⟩]
            else r.missingRefs }
  | .way id => do
    let r := { r with relWayMembersChecked := r.relWayMembersChecked + 1 }
    if ← get .way id then
      pure r
    else if id.toInt < 0 then
      .fail (negativeRefError 'r' rid 'w' id)
    else
      pure
        { r with
          missingWayRefs := r.missingWayRefs ++ [id]
          missingRefs :=
            if judge.keepsDetail r.missingRefs.length then
              r.missingRefs ++ [⟨'w', id, 'r', rid⟩]
            else r.missingRefs }
  | .relation id =>
    if id.toInt < 0 then
      .fail (negativeRefError 'r' rid 'r' id)
    else
      -- Which of these are missing is known only after the relation phase.
      pure
        { r with
          relRelMembersDeferred := r.relRelMembersDeferred + 1
          deferredRelationRefs := r.deferredRelationRefs ++ [id]
          deferredRelationRefSources :=
            if judge.showIds.isSome then r.deferredRelationRefSources ++ [rid]
            else r.deferredRelationRefSources }
  | .unknown rawType id => .fail (unknownMemberError rid rawType id)

def insertRelationId (r : RelBlobResult) (rid : Int64) : BlobJob RelBlobResult := do
  if ← setAtomicChecked .relation rid then
    pure r
  else if rid.toInt < 0 then
    .fail (negativeIdError "relation" rid)
  else
    pure { r with overflowIds := r.overflowIds ++ [rid] }

def judgeRelation (r : RelBlobResult) (rel : RelationSpan) :
    BlobJob RelBlobResult := do
  let r ← insertRelationId r rel.id
  rel.members.foldlM (judgeMember judge rel.id) { r with relationCount := r.relationCount + 1 }

def judgeRelations (relations : List RelationSpan) : BlobJob RelBlobResult := do
  let r ← relations.foldlM (judgeRelation judge) {}
  pure
    { r with
      missingNodeMemberOccurrences := r.missingNodeMembers.length
      missingWayRefOccurrences := r.missingWayRefs.length
      missingNodeMembers := sortDedup r.missingNodeMembers
      missingWayRefs := sortDedup r.missingWayRefs }

/-- What the merges accumulate; a kind's ids above its pre-allocation wait in a side set until its
phase ends. -/
structure Tally where
  nodeCount : Nat := 0
  wayCount : Nat := 0
  relationCount : Nat := 0
  missingNodesInWays : IdSet := {}
  missingWaysInRelations : IdSet := {}
  missingNodesInRelations : IdSet := {}
  missingNodeRefsOccurrences : Nat := 0
  missingWayRefsOccurrences : Nat := 0
  missingNodeMembersOccurrences : Nat := 0
  deferredRelationRefs : List Int64 := []
  deferredRelationRefSources : List Int64 := []
  missingRefs : List MissingRef := []
  wayRefsChecked : Nat := 0
  relNodeMembersChecked : Nat := 0
  relWayMembersChecked : Nat := 0
  relRelMembersDeferred : Nat := 0
  nodeOverflow : IdSet := {}
  wayOverflow : IdSet := {}
  relationOverflow : IdSet := {}

def insertOverflowIds (overflow : IdSet) (ids : List Int64) : IdSet := ids.foldl IdSet.set overflow

namespace Tally

variable (t : Tally)

def mergeNodes (count : Nat) (overflowIds : List Int64) : Tally :=
  { t with
    nodeOverflow := insertOverflowIds t.nodeOverflow overflowIds
    nodeCount := t.nodeCount + count }

/-- The details of one more blob. -/
def mergeDetails (judge : Judge) (entries : List MissingRef) : List MissingRef :=
  match judge.showIds with
  | some showIds => appendCappedMissingRefs t.missingRefs entries showIds.maxErrors
  | none => t.missingRefs

def mergeWays (judge : Judge) (r : WayBlobResult) : Tally :=
  { t with
    wayOverflow := insertOverflowIds t.wayOverflow r.overflowIds
    wayCount := t.wayCount + r.wayCount
    wayRefsChecked := t.wayRefsChecked + r.wayRefsChecked
    missingNodeRefsOccurrences := t.missingNodeRefsOccurrences + r.missingNodeRefOccurrences
    missingNodesInWays := r.missingNodeRefs.foldl IdSet.set t.missingNodesInWays
    missingRefs := t.mergeDetails judge r.missingRefs }

def mergeRelations (judge : Judge) (r : RelBlobResult) : Tally :=
  { t with
    relationOverflow := insertOverflowIds t.relationOverflow r.overflowIds
    relationCount := t.relationCount + r.relationCount
    relNodeMembersChecked := t.relNodeMembersChecked + r.relNodeMembersChecked
    relWayMembersChecked := t.relWayMembersChecked + r.relWayMembersChecked
    relRelMembersDeferred := t.relRelMembersDeferred + r.relRelMembersDeferred
    missingNodeMembersOccurrences :=
      t.missingNodeMembersOccurrences + r.missingNodeMemberOccurrences
    missingWayRefsOccurrences := t.missingWayRefsOccurrences + r.missingWayRefOccurrences
    missingNodesInRelations := r.missingNodeMembers.foldl IdSet.set t.missingNodesInRelations
    missingWaysInRelations := r.missingWayRefs.foldl IdSet.set t.missingWaysInRelations
    deferredRelationRefs := t.deferredRelationRefs ++ r.deferredRelationRefs
    deferredRelationRefSources :=
      if judge.showIds.isSome then t.deferredRelationRefSources ++ r.deferredRelationRefSources
      else t.deferredRelationRefSources
    missingRefs := t.mergeDetails judge r.missingRefs }

end Tally

variable (workers : Nat)

/-- A phase of the pool, from the sets as they stand. -/
def parallelProjectPhase {R A : Type} (schedule : List Blob)
    (project : Blob → BlobJob R) (merge : A → Nat × R → A) (sets : Sets) (acc : A) :
    Outcomes PbfError (Sets × A) :=
  Phase.Outcome (sharedSets sets) workers merge sets acc (schedule.map project)

def projectNodes : BlobJob (Nat × List Int64) := do
  accepted b
  replayNodes b.nodeIds

def projectWays : BlobJob WayBlobResult := do
  accepted b
  judgeWays judge b.waySpans

def projectRelations : BlobJob RelBlobResult := do
  accepted b
  judgeRelations judge b.relationSpans

def nodePhase (schedule : List Blob) (sets : Sets) (tally : Tally) :
    Outcomes PbfError (Sets × Tally) :=
  parallelProjectPhase workers schedule projectNodes (fun t x => t.mergeNodes x.2.1 x.2.2) sets
    tally

def wayPhase (judge : Judge) (schedule : List Blob) (sets : Sets) (tally : Tally) :
    Outcomes PbfError (Sets × Tally) :=
  parallelProjectPhase workers schedule (projectWays judge) (fun t x => t.mergeWays judge x.2) sets
    tally

def relationPhase (judge : Judge) (schedule : List Blob) (sets : Sets)
    (tally : Tally) : Outcomes PbfError (Sets × Tally) :=
  parallelProjectPhase workers schedule (projectRelations judge)
    (fun t x => t.mergeRelations judge x.2) sets tally

/-- One kind's judgement of an unindexed blob in the combined phase. -/
inductive Judged (R : Type) where
  /-- The blob holds none of the kind, or the run does not judge it. -/
  | absent
  /-- Every reference resolved. -/
  | final (r : R)
  /-- A reference missed while its target may not have been in its set yet. -/
  | again

structure UnindexedBlobResult where
  nodeCount : Nat
  nodeOverflow : List Int64
  ways : Judged WayBlobResult
  relations : Judged RelBlobResult

def combinedWays (ways : List WaySpan) : BlobJob (Judged WayBlobResult) :=
  if ways.isEmpty then pure .absent
  else do
    let r ← judgeWays judge ways
    pure (if r.missingNodeRefOccurrences > 0 then .again else .final r)

def combinedRelations (relations : List RelationSpan) :
    BlobJob (Judged RelBlobResult) :=
  if relations.isEmpty then pure .absent
  else do
    let r ← judgeRelations judge relations
    pure (if r.missingNodeMemberOccurrences + r.missingWayRefOccurrences > 0 then .again
      else .final r)

def projectUnindexed : BlobJob UnindexedBlobResult := do
  accepted b
  let nodes ← replayNodes b.nodeIds
  let ways ← combinedWays judge b.waySpans
  let relations ← combinedRelations judge (if judge.checkRelations then b.relationSpans else [])
  pure ⟨nodes.1, nodes.2, ways, relations⟩

/-- The tally of the combined phase and the positions to be read again. -/
structure Combined where
  tally : Tally
  waysAgain : List Nat := []
  relationsAgain : List Nat := []

namespace Combined

def mergeWays (judge : Judge) (c : Combined) (seq : Nat) : Judged WayBlobResult → Combined
  | .absent => c
  | .final w => { c with tally := c.tally.mergeWays judge w }
  | .again => { c with waysAgain := c.waysAgain ++ [seq] }

def mergeRelations (judge : Judge) (c : Combined) (seq : Nat) : Judged RelBlobResult → Combined
  | .absent => c
  | .final rel => { c with tally := c.tally.mergeRelations judge rel }
  | .again => { c with relationsAgain := c.relationsAgain ++ [seq] }

def merge (c : Combined) (x : Nat × UnindexedBlobResult) : Combined :=
  let c := { c with tally := c.tally.mergeNodes x.2.nodeCount x.2.nodeOverflow }
  (c.mergeWays judge x.1 x.2.ways).mergeRelations judge x.1 x.2.relations

end Combined

variable (blobs : List Blob)

/-- The blobs at the given positions, in file order. -/
def again (positions : List Nat) : List Blob :=
  (positions.mergeSort fun a b => decide (a ≤ b)).filterMap fun p => blobs[p]?

def unindexedPhase (judge : Judge) (blobs : List Blob) (sets : Sets)
    (tally : Tally) : Outcomes PbfError (Sets × Tally × List Blob × List Blob) := do
  let (sets, c) ← parallelProjectPhase workers blobs (projectUnindexed judge)
    (Combined.merge judge) sets { tally := tally }
  pure (sets, c.tally, again blobs c.waysAgain, again blobs c.relationsAgain)

inductive KindSchedules where
  | indexed (nodes ways relations : List Blob)
  | unindexed (blobs : List Blob)

def claiming (k : ElementKind) : List Blob :=
  blobs.filter fun b => b.claim = some k

def buildClassifySchedulesSplit : Except PbfError KindSchedules :=
  let unindexed := blobs.filter fun b => b.claim = none
  let nodes := claiming blobs .node
  let ways := claiming blobs .way
  let relations := claiming blobs .relation
  if unindexed.isEmpty then .ok (.indexed nodes ways relations)
  else if nodes.isEmpty && ways.isEmpty && relations.isEmpty then .ok (.unindexed unindexed)
  else .error (.internal "schedule walk: a partially indexed file passed the walk's refusal")

/-- One deferred reference from a relation to a relation, with its place in the list. -/
def resolveDeferred (sets : Sets) (sources : List Int64)
    (acc : IdSet × Nat × List MissingRef) (x : Int64 × Nat) : IdSet × Nat × List MissingRef :=
  if sets.relations.get x.1 then acc
  else
    (acc.1.set x.1, acc.2.1 + 1,
      if judge.keepsDetail acc.2.2.length then
        acc.2.2 ++ [⟨'r', x.1, 'r', sources.getD x.2 0⟩]
      else acc.2.2)

/-- The missing relation members, their occurrences, and the details kept in the end. -/
def resolveAllDeferred (sets : Sets) (tally : Tally) :
    IdSet × Nat × List MissingRef :=
  tally.deferredRelationRefs.zipIdx.foldl
    (resolveDeferred judge sets tally.deferredRelationRefSources) ({}, 0, tally.missingRefs)

/-- The report from the sets and the tally of the finished phases. -/
def report (sets : Sets) (tally : Tally) : RefCheckResult :=
  let result : RefCheckResult :=
    { nodeCount := tally.nodeCount
      wayCount := tally.wayCount
      relationCount := tally.relationCount
      missingNodeRefs := tally.missingNodesInWays.len
      missingWayRefs := tally.missingWaysInRelations.len
      missingNodeMembers := tally.missingNodesInRelations.len
      missingRefs := tally.missingRefs }
  if judge.checkRelations then
    let resolved := resolveAllDeferred judge sets tally
    { result with
      missingRelationMembers := resolved.1.len
      missingRelationMemberOccurrences := resolved.2.1
      missingRefs := resolved.2.2 }
  else result

/-- The id sets of a run, pre-allocated up to the bound of each kind. -/
def preAllocated (bound : ElementKind → Int64) : Sets where
  nodes := IdSet.preAllocate {} (bound .node)
  ways := if judge.checkRelations then IdSet.preAllocate {} (bound .way) else {}
  relations := if judge.checkRelations then IdSet.preAllocate {} (bound .relation) else {}

/-- Phase 1, after which the node set is complete, with the blobs left for the next two. -/
def firstPhase (judge : Judge) (schedules : KindSchedules) (sets : Sets) :
    Outcomes PbfError (Sets × Tally × List Blob × List Blob) :=
  match schedules with
  | .indexed nodes ways relations => do
    let (sets, tally) ← nodePhase workers nodes sets {}
    pure ({ sets with nodes := sets.nodes.merge tally.nodeOverflow }, { tally with nodeOverflow := {} },
      ways, relations)
  | .unindexed blobs => do
    let (sets, tally, ways, relations) ← unindexedPhase workers judge blobs sets {}
    pure ({ sets with nodes := sets.nodes.merge tally.nodeOverflow }, { tally with nodeOverflow := {} },
      ways, relations)

def checkRefsInner (judge : Judge) (bound : ElementKind → Int64)
    (blobs : List Blob) : Outcomes PbfError RefCheckResult := do
  let schedules ← Outcomes.ofExcept (buildClassifySchedulesSplit blobs)
  let (sets, tally, waySchedule, relSchedule) ←
    firstPhase workers judge schedules (preAllocated judge bound)
  let (sets, tally) ← wayPhase workers judge waySchedule sets tally
  let sets := { sets with ways := sets.ways.merge tally.wayOverflow }
  let tally := { tally with wayOverflow := {} }
  if judge.checkRelations then
    let (sets, tally) ← relationPhase workers judge relSchedule sets tally
    let sets := { sets with relations := sets.relations.merge tally.relationOverflow }
    pure (report judge sets { tally with relationOverflow := {} })
  else
    pure (report judge sets tally)

end CheckRefs
