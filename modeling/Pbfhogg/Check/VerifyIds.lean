import Pbfhogg.Lib.Outcomes
import Pbfhogg.Lib.SharedPool
import Pbfhogg.Renumber.IdSpace
import Pbfhogg.TagsFilter.Expr

/-!
# The id check

`check/verify_ids.rs`: the two modes of `check --ids`. A blob is its indexdata claim, the offset of
its frame and, when it decodes, the ids of its groups. Each blob is a job of a worker pool; under
`--full` the jobs ask the shared id sets.
-/

namespace VerifyIds

open OsmId BlobMeta SharedPool IdSpace Function
open TagExpr (TypeFilter)

/-- The ids of a group, each kind's in element-walk order. -/
structure Group where
  nodes : List Int64 := []
  ways : List Int64 := []
  relations : List Int64 := []

def kinds : List ElementKind := [.node, .way, .relation]

namespace Group

def ids (g : Group) : ElementKind → List Int64
  | .node => g.nodes
  | .way => g.ways
  | .relation => g.relations

/-- The kinds the validator hands a group's end. -/
def has (g : Group) (k : ElementKind) : Bool := !(g.ids k).isEmpty

end Group

structure ScheduledBlob where
  claim : Option ElementKind
  frameStart : Nat
  content : Except PbfError (List Group)

namespace ScheduledBlob

/-- The groups of a blob that decodes and holds no kind its claim denies. -/
def project (b : ScheduledBlob) : Except PbfError (List Group) := do
  let groups ← b.content
  match b.claim with
  | none => pure ()
  | some claimed => refuseForeignKind (groups.flatMap fun g => kinds.filter g.has) claimed
  return groups

end ScheduledBlob

/-- A file: whether its header declares the sorted order, and its data blobs, whose frames follow
each other. -/
structure InputFile where
  headerSorted : Bool
  blobs : List ScheduledBlob
  ascending : (blobs.map ScheduledBlob.frameStart).Pairwise (· < ·)

structure VerifyIdsOptions where
  maxErrors : Nat
  full : Bool
  typeFilter : Option TypeFilter

/-- Whether `id` does not strictly follow `prev` in canonical order. -/
def notAfter (id prev : Int64) : Bool := !decide (OsmLt prev id)

inductive IdViolation where
  | nonMonotonic (elemType : String) (id prevId : Int64)
  | duplicate (elemType : String) (id : Int64)
  | typeOrder (found after : String)
  | idOutOfRange (elemType : String) (id : Int64)

structure VerifyIdsReport where
  headerSorted : Bool
  indexed : Bool
  full : Bool
  nodeCount : Nat
  wayCount : Nat
  relationCount : Nat
  violations : List IdViolation
  totalViolations : Nat
  passed : Bool

def effectiveErrorLimit (maxErrors : Nat) : Option Nat :=
  if maxErrors = 0 then none else some maxErrors

def remainingErrorLimit (maxErrors stored : Nat) : Option Nat :=
  (effectiveErrorLimit maxErrors).map fun limit => limit - stored

def shouldStoreViolation (currentLen : Nat) (limit : Option Nat) : Bool :=
  match limit with
  | some limit => decide (currentLen < limit)
  | none => true

/-- The violations stored and how many there were. -/
structure Tally where
  violations : List IdViolation := []
  total : Nat := 0

/-- Count one violation, and store it below the limit. -/
def Tally.record (limit : Option Nat) (t : Tally) (v : IdViolation) : Tally where
  violations :=
    if shouldStoreViolation t.violations.length limit then t.violations ++ [v] else t.violations
  total := t.total + 1

/-- A run's id sets: none of a kind that is not selected, and none at all in streaming mode. -/
abbrev Sets := ElementKind → Option IdSet

inductive SetOp where
  | denseForAtomic (k : ElementKind) (id : Int64)
  | fetchOr (k : ElementKind) (id : Int64)

/-- A chunk is there for the whole phase or not at all; the `fetch_or`s on one word happen in some
order, and each sees whether its bit was set before. -/
def Sets.answer (s : Sets) : SetOp → Bool × Sets
  | .denseForAtomic k id => ((s k).any fun set => set.covers id, s)
  | .fetchOr k id =>
    match s k with
    | some set => (!set.get id, update s k (some (set.set id)))
    | none => (false, s)

def sharedSets : Shared Sets SetOp where
  step s o b s' := s.answer o = (b, s')
  total s o := ⟨(s.answer o).1, (s.answer o).2, rfl⟩

/-- The work on one blob. -/
abbrev BlobJob := Job SetOp PbfError

def setAtomicIfNewChecked (k : ElementKind) (id : Int64) : BlobJob (Option Bool) := do
  if ← Job.query (.denseForAtomic k id) then
    let isNew ← Job.query (.fetchOr k id)
    return some isNew
  else
    return none

/-- Whether the id was new; a negative one never is. -/
def setIfNew (s : IdSet) (id : Int64) : Bool × IdSet :=
  if id.toInt < 0 then (false, s) else (!s.get id, s.set id)

structure BlobVerifyResult where
  firstId : Option Int64 := none
  lastId : Option Int64 := none
  count : Nat := 0
  withinViolations : List IdViolation := []
  duplicateIds : List Int64 := []
  outOfRangeIds : List Int64 := []

structure KindJudge where
  elemType : String
  prev : Option Int64 := none
  r : BlobVerifyResult := {}

namespace KindJudge

def new (kind : ElementKind) : KindJudge := { elemType := kind.asStr }

variable (judge : KindJudge) (id : Int64)

/-- The order of one more id, before any set is asked. -/
def follow : KindJudge :=
  let r := judge.r
  { judge with
    prev := some id
    r :=
      { r with
        count := r.count + 1
        firstId := if r.firstId.isNone then some id else r.firstId
        lastId := some id
        withinViolations :=
          match judge.prev with
          | some p =>
            if notAfter id p then r.withinViolations ++ [.nonMonotonic judge.elemType id p]
            else r.withinViolations
          | none => r.withinViolations } }

def addDuplicate : KindJudge :=
  { judge with r := { judge.r with duplicateIds := judge.r.duplicateIds ++ [id] } }

def addOutOfRange : KindJudge :=
  { judge with r := { judge.r with outOfRangeIds := judge.r.outOfRangeIds ++ [id] } }

/-- `atomicIds` is the kind whose set takes the id, if there is one. -/
def push (atomicIds : Option ElementKind) : BlobJob KindJudge := do
  let judge := judge.follow id
  match atomicIds with
  | none => return judge
  | some k =>
    match ← setAtomicIfNewChecked k id with
    | some true => return judge
    | some false => return judge.addDuplicate id
    | none => return judge.addOutOfRange id

end KindJudge

def accepted (b : ScheduledBlob) : BlobJob (List Group) :=
  match b.project with
  | .ok groups => .ret groups
  | .error e => .fail e

def verifyBlob (kind : ElementKind) (atomicIds : Option ElementKind) (b : ScheduledBlob) :
    BlobJob BlobVerifyResult := do
  let groups ← accepted b
  let judge ← (groups.flatMap fun g => g.ids kind).foldlM (fun judge id => judge.push id atomicIds)
    (KindJudge.new kind)
  return judge.r

/-- One of the ids a blob found outside the pre-allocation. -/
def settleId (acc : IdSet × BlobVerifyResult) (id : Int64) : IdSet × BlobVerifyResult :=
  let r := acc.2
  if id.toInt < 0 then (acc.1, { r with outOfRangeIds := r.outOfRangeIds ++ [id] })
  else
    let (isNew, overflow) := setIfNew acc.1 id
    (overflow, if isNew then r else { r with duplicateIds := r.duplicateIds ++ [id] })

def settleOverflow (overflow : IdSet) (r : BlobVerifyResult) : IdSet × BlobVerifyResult :=
  r.outOfRangeIds.foldl settleId (overflow, { r with outOfRangeIds := [] })

/-- One kind's results by schedule position, and its side set. -/
structure Slots where
  overflow : IdSet := {}
  perBlob : List (Option BlobVerifyResult)

namespace Slots

def empty (n : Nat) : Slots := { perBlob := List.replicate n none }

def arrive (s : Slots) (seq : Nat) (r : BlobVerifyResult) : Slots :=
  let (overflow, r) := settleOverflow s.overflow r
  { overflow := overflow, perBlob := s.perBlob.set seq (some r) }

end Slots

variable (workers : Nat) (schedule : List ScheduledBlob)

/-- A phase of the pool. -/
def parallelProjectPhase {R A : Type}
    (project : ScheduledBlob → BlobJob R) (merge : A → Nat × R → A) (sets : Sets) (acc : A) :
    Outcomes PbfError (Sets × A) :=
  Phase.Outcome sharedSets workers merge sets acc (schedule.map project)

/-- The handle a worker has on the set of a kind. -/
def handle (sets : Sets) (kind : ElementKind) : Option ElementKind := (sets kind).map fun _ => kind

def kindPhase (kind : ElementKind)
    (idSet : Option IdSet) : Outcomes PbfError (Option IdSet × List (Option BlobVerifyResult)) := do
  let sets : Sets := update (fun _ => none) kind idSet
  let (sets, slots) ← parallelProjectPhase workers schedule (verifyBlob kind (handle sets kind))
    (fun (slots : Slots) x => slots.arrive x.1 x.2) sets (Slots.empty schedule.length)
  return ((sets kind).map fun set => set.merge slots.overflow, slots.perBlob)

/-- Where each kind first and last appears under some order of the file. -/
abbrev KindSpans (K : Type) := ElementKind → Option (K × K)

def widen {K : Type} [LinearOrder K] (span : Option (K × K)) (first last : K) : Option (K × K) :=
  match span with
  | none => some (first, last)
  | some (lo, hi) => some (min lo first, max hi last)

def scheduleSpan : Option (Nat × Nat) :=
  schedule.foldl (fun span b => widen span b.frameStart b.frameStart) none

structure GroupKinds where
  group : Nat := 0
  spans : KindSpans Nat := fun _ => none

/-- The hook at a group's end. -/
def GroupKinds.groupEnd (s : GroupKinds) (g : Group) : GroupKinds where
  group := s.group + 1
  spans k := if g.has k then widen (s.spans k) s.group s.group else s.spans k

/-- A blob's place and a group's place in it. -/
abbrev Position := Nat ×ₗ Nat

structure UnindexedResult where
  results : ElementKind → BlobVerifyResult
  groups : KindSpans Nat

/-- The ids of the selected kinds with their kinds, as the projection replays them. -/
def scratchIds (select : ElementKind → Bool) (groups : List Group) :
    List (ElementKind × Int64) :=
  groups.flatMap fun g => (kinds.filter select).flatMap fun k => (g.ids k).map fun id => (k, id)

def verifyUnindexed (select : ElementKind → Bool) (atomicIds : ElementKind → Option ElementKind)
    (b : ScheduledBlob) : BlobJob UnindexedResult := do
  let groups ← accepted b
  let judges ← (scratchIds select groups).foldlM
    (fun (judges : ElementKind → KindJudge) x => do
      let judge ← (judges x.1).push x.2 (atomicIds x.1)
      return update judges x.1 judge)
    KindJudge.new
  return ⟨fun k => (judges k).r, (groups.foldl GroupKinds.groupEnd {}).spans⟩

structure Unindexed where
  perKind : ElementKind → Slots
  spans : KindSpans Position := fun _ => none

def Unindexed.arrive (u : Unindexed) (seq : Nat) (x : UnindexedResult) : Unindexed where
  perKind k := (u.perKind k).arrive seq (x.results k)
  spans k :=
    match x.groups k with
    | some (first, last) => widen (u.spans k) (toLex (seq, first)) (toLex (seq, last))
    | none => u.spans k

variable (blobs : List ScheduledBlob)

def unindexedPass (select : ElementKind → Bool)
    (sets : Sets) : Outcomes PbfError Unindexed := do
  let (_, u) ← parallelProjectPhase workers blobs (verifyUnindexed select (handle sets))
    (fun (u : Unindexed) x => u.arrive x.1 x.2) sets { perKind := fun _ => Slots.empty blobs.length }
  return u

/-- What merging one kind's results keeps. -/
structure Merged where
  count : Nat := 0
  tally : Tally := {}
  prevLast : Option Int64 := none

def mergeBlob (kind : ElementKind) (limit : Option Nat) (m : Merged) :
    Option BlobVerifyResult → Except PbfError Merged
  | none => .error (.internal "id check: classify phase left a blob slot unfilled")
  | some r =>
    let tally := r.withinViolations.foldl (Tally.record limit) m.tally
    let tally :=
      match m.prevLast, r.firstId with
      | some pl, some fi =>
        if notAfter fi pl then tally.record limit (.nonMonotonic kind.asStr fi pl) else tally
      | _, _ => tally
    let tally := r.duplicateIds.foldl
      (fun t id => t.record limit (.duplicate kind.asStr id)) tally
    let tally := r.outOfRangeIds.foldl
      (fun t id => t.record limit (.idOutOfRange kind.asStr id)) tally
    .ok
      { count := m.count + r.count
        tally := tally
        prevLast := if r.lastId.isSome then r.lastId else m.prevLast }

def mergeKind (perBlob : List (Option BlobVerifyResult)) (kind : ElementKind)
    (maxErrorsRemaining : Option Nat) : Except PbfError Merged :=
  perBlob.foldlM (mergeBlob kind maxErrorsRemaining) {}

/-- Whether the lower kind's last position lies past the higher kind's first. -/
def pastFirst {K : Type} [LinearOrder K] (spans : KindSpans K) (lower higher : ElementKind) : Bool :=
  match spans lower, spans higher with
  | some (_, last), some (first, _) => decide (first < last)
  | _, _ => false

def kindPairs : List (ElementKind × ElementKind) :=
  [(.node, .way), (.node, .relation), (.way, .relation)]

def checkTypeOrder {K : Type} [LinearOrder K] (spans : KindSpans K) (limit : Option Nat)
    (tally : Tally) : Tally :=
  kindPairs.foldl
    (fun tally pair =>
      if pastFirst spans pair.1 pair.2 then
        tally.record limit (.typeOrder pair.1.asStr pair.2.asStr)
      else tally)
    tally

structure Scanned where
  counts : ElementKind → Nat := fun _ => 0
  tally : Tally := {}

/-- The results of one more kind. -/
def Scanned.merge (maxErrors : Nat) (scanned : Scanned) (kind : ElementKind)
    (perBlob : List (Option BlobVerifyResult)) : Except PbfError Scanned := do
  let merged ← mergeKind perBlob kind
    (remainingErrorLimit maxErrors scanned.tally.violations.length)
  return {
    counts := update scanned.counts kind merged.count
    tally := ⟨scanned.tally.violations ++ merged.tally.violations,
      scanned.tally.total + merged.tally.total⟩ }

inductive KindSchedules where
  | indexed (schedule : ElementKind → List ScheduledBlob)
  | unindexed (blobs : List ScheduledBlob)

def claiming (k : ElementKind) : List ScheduledBlob :=
  blobs.filter fun b => b.claim = some k

def buildClassifySchedulesSplit : Except PbfError KindSchedules :=
  let unindexed := blobs.filter fun b => b.claim = none
  if unindexed.isEmpty then .ok (.indexed (claiming blobs))
  else if kinds.all fun k => (claiming blobs k).isEmpty then .ok (.unindexed unindexed)
  else .error (.internal "schedule walk: a partially indexed file passed the walk's refusal")

def scanIndexedKind (workers maxErrors : Nat) (schedule : ElementKind → List ScheduledBlob)
    (typeFilter : TypeFilter) (acc : Sets × Scanned) (kind : ElementKind) :
    Outcomes PbfError (Sets × Scanned) :=
  if typeFilter.admits kind then do
    let (idSet, perBlob) ← kindPhase workers (schedule kind) kind (acc.1 kind)
    let scanned ← Outcomes.ofExcept (acc.2.merge maxErrors kind perBlob)
    return (update acc.1 kind idSet, scanned)
  else pure acc

def scanKinds (schedules : KindSchedules) (typeFilter : TypeFilter) (sets : Sets)
    (maxErrors : Nat) : Outcomes PbfError Scanned :=
  match schedules with
  | .indexed schedule => do
    let scanned : Scanned :=
      { tally := checkTypeOrder (fun k => scheduleSpan (schedule k)) (effectiveErrorLimit maxErrors)
          {} }
    let (_, scanned) ← kinds.foldlM (scanIndexedKind workers maxErrors schedule typeFilter)
      (sets, scanned)
    return scanned
  | .unindexed blobs => do
    let u ← unindexedPass workers blobs typeFilter.admits sets
    let scanned : Scanned :=
      { tally := checkTypeOrder u.spans (effectiveErrorLimit maxErrors) {} }
    Outcomes.ofExcept <| kinds.foldlM
      (fun scanned kind =>
        if typeFilter.admits kind then scanned.merge maxErrors kind (u.perKind kind).perBlob
        else .ok scanned)
      scanned

/-- The sets of a run: under `--full` one for each selected kind, pre-allocated up to its bound. -/
def runSets (full : Bool) (typeFilter : TypeFilter) (bound : ElementKind → Int64) : Sets := fun k =>
  if full && typeFilter.admits k then some (IdSet.preAllocate {} (bound k)) else none

/-- Whether the first data blob carries indexdata; a file without one counts as indexed. -/
def InputFile.indexed (file : InputFile) : Bool :=
  match file.blobs with
  | [] => true
  | b :: _ => b.claim.isSome

def verifyIds (bound : ElementKind → Int64) (opts : VerifyIdsOptions)
    (file : InputFile) : Outcomes PbfError VerifyIdsReport := do
  let typeFilter := opts.typeFilter.getD TypeFilter.all
  let schedules ← Outcomes.ofExcept (buildClassifySchedulesSplit file.blobs)
  let scanned ← scanKinds workers schedules typeFilter (runSets opts.full typeFilter bound)
    opts.maxErrors
  return {
    headerSorted := file.headerSorted
    indexed := file.indexed
    full := opts.full
    nodeCount := scanned.counts .node
    wayCount := scanned.counts .way
    relationCount := scanned.counts .relation
    violations := scanned.tally.violations
    totalViolations := scanned.tally.total
    passed := scanned.tally.total == 0 }

end VerifyIds
