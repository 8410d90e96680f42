import Pbfhogg.Diff.MergeJoin
import Pbfhogg.Renumber.IdSpace
import Pbfhogg.TagsFilter.BlobFilter

/-!
# The passes of tags-filter

`commands/tags_filter/mod.rs`. The input is the list of its data blobs, each with its sidecars and
its elements. An unordered pool hands on the results of the blobs in any order, and an accumulating
one any partition of them; `Orders` says which. What the block builder is given of an element is the
parameter `write`.
-/

namespace TagsFilter

open OsmId BlobMeta IdSpace TagExpr BlobFilter
open MergeJoin (MemberId)

inductive Body where
  | node
  | way (refs : List Int64)
  | relation (members : List MemberId)
  deriving DecidableEq

/-- `rest` is what is copied: coordinates, roles, metadata. -/
structure Element (ρ : Type) where
  id : Int64
  tags : List (Str × Str)
  body : Body
  rest : ρ
  deriving DecidableEq

namespace Element

variable {ρ : Type}

def kind (e : Element ρ) : ElementKind :=
  match e.body with
  | .node => .node
  | .way _ => .way
  | .relation _ => .relation

def refs (e : Element ρ) : List Int64 :=
  match e.body with
  | .way refs => refs
  | _ => []

def members (e : Element ρ) : List MemberId :=
  match e.body with
  | .relation members => members
  | _ => []

end Element

structure Blob (ρ : Type) where
  index : Option BlobIndex
  tagdata : Option Bytes
  elements : List (Element ρ)

inductive Error where
  | expression (e : ParseError)
  | missingIndexdata
  | partialIndexdata
  | pbf (e : PbfError)

abbrev Result (α : Type) := Except Error α

/-- The mode with references carries `remove_tags`. -/
structure Options where
  expressionStrs : List Str
  addReferenced : Option Bool
  invert : Bool
  distrustMetadata : Bool
  force : Bool

variable {ρ ω : Type}

/-- The order in which the pools hand on results, phase by phase. -/
structure Orders (ρ : Type) where
  shuffle : Nat → List (Blob ρ) → List (Blob ρ)
  shuffle_perm : ∀ n l, (shuffle n l).Perm l
  partition : Nat → List (Blob ρ) → List (List (Blob ρ))
  partition_perm : ∀ n l, (partition n l).flatten.Perm l

lemma inPlace_perm (_ : Nat) (l : List (Blob ρ)) : l.Perm l := .refl l

/-- A walk over the headers refuses a file that is indexed in part. -/
def refusePartialIndex (input : List (Blob ρ)) : Result Unit :=
  if input.any (·.index.isSome) && input.any (·.index.isNone) then .error .partialIndexdata
  else .ok ()

variable (distrustMetadata : Bool)

/-- A block that holds a kind its blob does not claim is refused, unless the claims are distrusted. -/
def decodeBlock (b : Blob ρ) : Result (List (Element ρ)) :=
  match distrustMetadata, b.index with
  | false, some idx =>
    match refuseForeignKind (b.elements.map Element.kind) idx.kind with
    | .error e => .error (.pbf e)
    | .ok () => .ok b.elements
  | _, _ => .ok b.elements

/-- `build_classify_schedule` for one kind, or for all blobs when the claims are distrusted. -/
def kindSchedule (kind : ElementKind) (distrustMetadata : Bool) (input : List (Blob ρ)) :
    Result (List (Blob ρ)) := do
  refusePartialIndex input
  return input.filter fun b => distrustMetadata || b.index.all fun idx => idx.kind = kind

def direct (expressions : List Expression) (invert : Bool) (e : Element ρ) : Bool :=
  elementMatches expressions e.tags e.kind != invert

structure ClassifyResult where
  matchedNodes : List Int64
  matchedWays : List (Int64 × List Int64)
  matchedRelations : List Int64

def idsOf (kind : ElementKind) (elements : List (Element ρ)) : List Int64 :=
  (elements.filter fun e => e.kind = kind).map Element.id

def classifyBlock (expressions : List Expression) (invert : Bool) (elements : List (Element ρ)) :
    ClassifyResult :=
  let found := elements.filter (direct expressions invert)
  { matchedNodes := idsOf .node found
    matchedWays := (found.filter fun e => e.kind = .way).map fun e => (e.id, e.refs)
    matchedRelations := idsOf .relation found }

/-- The set, and whether an id was new to it. -/
def setIfNew (s : IdSet) (id : Int64) : IdSet × Bool :=
  (s.set id, decide (0 ≤ id.toInt) && !s.get id)

/-- A set with the flag that is raised when an id is new to it. -/
structure Flagged where
  set : IdSet
  flag : Bool

def Flagged.add (x : Flagged) (id : Int64) : Flagged :=
  let (set, new) := setIfNew x.set id
  ⟨set, x.flag || new⟩

structure Sets where
  matchedNode : IdSet := {}
  directWay : IdSet := {}
  includedWay : Flagged := ⟨{}, false⟩
  directRelation : IdSet := {}
  includedRelation : Flagged := ⟨{}, false⟩
  wayDepNode : IdSet := {}
  relationDepNode : IdSet := {}

def mergeWay (s : Sets) (w : Int64 × List Int64) : Sets :=
  { s with
    directWay := s.directWay.set w.1
    includedWay := s.includedWay.add w.1
    wayDepNode := w.2.foldl IdSet.set s.wayDepNode }

def mergeRelation (s : Sets) (id : Int64) : Sets :=
  { s with
    directRelation := s.directRelation.set id
    includedRelation := s.includedRelation.add id }

def mergeClassified (s : Sets) (cr : ClassifyResult) : Sets :=
  let s := { s with matchedNode := cr.matchedNodes.foldl IdSet.set s.matchedNode }
  let s := cr.matchedWays.foldl mergeWay s
  cr.matchedRelations.foldl mergeRelation s

def pass1 (expressions : List Expression) (invert distrustMetadata : Bool) (orders : Orders ρ)
    (input : List (Blob ρ)) : Result Sets := do
  refusePartialIndex input
  let filter := trustedBlobFilter expressions invert distrustMetadata
  let schedule := input.filter fun b => !blobFilterCheck b.index b.tagdata filter
  let blocks ← (orders.shuffle 0 schedule).mapM (decodeBlock distrustMetadata)
  return (blocks.map (classifyBlock expressions invert)).foldl mergeClassified {}

structure ClosureResult where
  nodeIds : List Int64
  wayIds : List Int64
  relationIds : List Int64

def nodeMember : MemberId → Option Int64
  | .node id => some id
  | _ => none

def wayMember : MemberId → Option Int64
  | .way id => some id
  | _ => none

def relationMember : MemberId → Option Int64
  | .relation id => some id
  | _ => none

/-- The members of the included relations among the elements of a worker's blocks. -/
def scanRelations (included : IdSet) (elements : List (Element ρ)) : ClosureResult :=
  let members :=
    (elements.filter fun e => decide (e.kind = .relation) && included.get e.id).flatMap
      Element.members
  ⟨members.filterMap nodeMember, members.filterMap wayMember, members.filterMap relationMember⟩

structure ClosureState where
  includedRelation : IdSet
  includedWay : Flagged
  relationDepNode : IdSet

/-- Adds a relation, and counts it when it is new. -/
def addRelation (x : IdSet × Nat) (id : Int64) : IdSet × Nat :=
  let (set, new) := setIfNew x.1 id
  (set, if new then x.2 + 1 else x.2)

def mergeClosure (x : ClosureState × Nat) (cr : ClosureResult) : ClosureState × Nat :=
  let (st, added) := x
  let (includedRelation, added) := cr.relationIds.foldl addRelation (st.includedRelation, added)
  ({ includedRelation := includedRelation
     includedWay := cr.wayIds.foldl Flagged.add st.includedWay
     relationDepNode := cr.nodeIds.foldl IdSet.set st.relationDepNode }, added)

def closureRound (st : ClosureState) (groups : List (List (Element ρ))) : ClosureState × Nat :=
  (groups.map (scanRelations st.includedRelation)).foldl mergeClosure (st, 0)

/-- The rounds of `collect_relation_member_closure`, at most `fuel`. -/
def closureLoop (distrustMetadata : Bool) (orders : Orders ρ) (schedule : List (Blob ρ)) :
    Nat → Nat → ClosureState → Result ClosureState
  | 0, _, _ => .error (.pbf .outOfFuel)
  | fuel + 1, round, st => do
    let groups ← (orders.partition round schedule).mapM fun group => do
      return (← group.mapM (decodeBlock distrustMetadata)).flatten
    let (st, added) := closureRound st groups
    if added = 0 then return st
    else closureLoop distrustMetadata orders schedule fuel (round + 1) st

variable (orders : Orders ρ)

def collectRelationMemberClosure (fuel : Nat)
    (input : List (Blob ρ)) (s : Sets) : Result Sets := do
  let schedule ← kindSchedule .relation distrustMetadata input
  let st ← closureLoop distrustMetadata orders schedule fuel 0
    ⟨s.includedRelation.set, s.includedWay, s.relationDepNode⟩
  return { s with
    includedRelation := ⟨st.includedRelation, s.includedRelation.flag⟩
    includedWay := st.includedWay
    relationDepNode := st.relationDepNode }

/-- The closure is skipped when no relation is matched. -/
def expandRelations (fuel : Nat)
    (input : List (Blob ρ)) (s : Sets) : Result Sets :=
  if s.includedRelation.flag then collectRelationMemberClosure distrustMetadata orders fuel input s
  else .ok s

def wayNodes (included skip : IdSet) (elements : List (Element ρ)) : List Int64 :=
  (elements.filter fun e =>
    decide (e.kind = .way) && included.get e.id && !skip.get e.id).flatMap Element.refs

def collectWayNodeDependencies
    (input : List (Blob ρ)) (s : Sets) : Result Sets := do
  let schedule ← kindSchedule .way distrustMetadata input
  let blocks ← (orders.shuffle 1 schedule).mapM (decodeBlock distrustMetadata)
  let nodeIds := blocks.map (wayNodes s.includedWay.set s.directWay)
  return { s with
    relationDepNode := nodeIds.foldl (fun acc ids => ids.foldl IdSet.set acc) s.relationDepNode }

def Element.stripped (removeTags keep : Bool) (e : Element ρ) : Element ρ :=
  if !removeTags || keep then e else { e with tags := [] }

/-- What pass 2 writes of an element. -/
def pass2Element (s : Sets) (removeTags : Bool) (e : Element ρ) : Option (Element ρ) :=
  match e.body with
  | .node =>
    let direct := s.matchedNode.get e.id
    if direct || s.wayDepNode.get e.id || s.relationDepNode.get e.id then
      some (e.stripped removeTags direct)
    else none
  | .way _ =>
    if s.includedWay.set.get e.id then some (e.stripped removeTags (s.directWay.get e.id))
    else none
  | .relation _ =>
    if s.includedRelation.set.get e.id then
      some (e.stripped removeTags (s.directRelation.get e.id))
    else none

variable (write : Element ρ → Except PbfError ω)

def filterBlockPass2 (s : Sets) (removeTags : Bool)
    (elements : List (Element ρ)) : Result (List ω) :=
  ((elements.filterMap (pass2Element s removeTags)).mapM write).mapError Error.pbf

def pass2 (invert distrustMetadata removeTags : Bool)
    (input : List (Blob ρ)) (s : Sets) : Result (List ω) := do
  refusePartialIndex input
  let filter : Option Filter :=
    if invert || distrustMetadata then none
    else some ⟨true, s.includedWay.flag, s.includedRelation.flag, none, none⟩
  let schedule := input.filter fun b =>
    filter.all fun f => b.index.all fun idx => f.wantsIndex idx
  let blocks ← schedule.mapM fun b => do
    filterBlockPass2 write s removeTags (← decodeBlock distrustMetadata b)
  return blocks.flatten

def twoPass (expressions : List Expression)
    (invert distrustMetadata removeTags : Bool) (orders : Orders ρ) (fuel : Nat)
    (input : List (Blob ρ)) : Result (List ω) := do
  let s ← pass1 expressions invert distrustMetadata orders input
  let s ← expandRelations distrustMetadata orders fuel input s
  let s ← collectWayNodeDependencies distrustMetadata orders input s
  pass2 write invert distrustMetadata removeTags input s

def filterBlock (expressions : List Expression)
    (invert : Bool) (elements : List (Element ρ)) : Result (List ω) :=
  ((elements.filter (direct expressions invert)).mapM write).mapError Error.pbf

def singlePass (expressions : List Expression)
    (invert distrustMetadata : Bool) (input : List (Blob ρ)) : Result (List ω) := do
  refusePartialIndex input
  let filter := trustedBlobFilter expressions invert distrustMetadata
  let read := input.filter fun b => !blobFilterCheck b.index b.tagdata filter
  let blocks ← read.mapM fun b => do
    filterBlock write expressions invert (← decodeBlock distrustMetadata b)
  return blocks.flatten

def Options.requiresIndexdata (opts : Options) (expressions : List Expression) : Bool :=
  if opts.invert || opts.distrustMetadata then false
  else
    opts.addReferenced.isSome ||
      (trustedBlobFilter expressions opts.invert opts.distrustMetadata).any Filter.usesIndex

/-- The first data blob decides. A file without one counts as indexed. -/
def requireIndexdata (force : Bool) (input : List (Blob ρ)) : Result Unit :=
  if force || input.head?.all (·.index.isSome) then .ok () else .error .missingIndexdata

def tagsFilter (opts : Options) (orders : Orders ρ)
    (fuel : Nat) (input : List (Blob ρ)) : Result (List ω) := do
  let expressions ← (parseExpressions opts.expressionStrs).mapError Error.expression
  if opts.requiresIndexdata expressions then requireIndexdata opts.force input
  match opts.addReferenced with
  | some removeTags =>
    twoPass write expressions opts.invert opts.distrustMetadata removeTags orders fuel input
  | none => singlePass write expressions opts.invert opts.distrustMetadata input

end TagsFilter
