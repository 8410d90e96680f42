import Pbfhogg.BlobMeta
import Pbfhogg.Lib.LeBytes

/-!
# The merge-join of two sorted files

`osc/merge_join.rs` and the equality of `content.rs`: the element-level merge of two streams, and
the block-pair merge of one work unit. A decoded block is the list of its elements. Envelope,
decompression and block parsing are parameters (`Decoder`); the recorder and the counters are left
out, and a sink records every action.
-/

namespace MergeJoin

open OsmId BlobMeta

inductive MemberId where
  | node (id : Int64)
  | way (id : Int64)
  | relation (id : Int64)
  | unknown (type : Int32) (id : Int64)
  deriving DecidableEq

/-- One unit of element content. -/
inductive Token where
  | coord (lat lon : Int32)
  | tag (key value : String)
  | ref (id : Int64)
  | member (id : MemberId) (role : String)
  deriving DecidableEq

/-- An element as the merge sees it; a token whose string lookup fails is `none`. -/
structure Element where
  kind : ElementKind
  id : Int64
  tokens : List (Option Token)
  deriving DecidableEq

def Element.key (e : Element) : OsmIdKey := osmIdKey e.id

/-- Every string index of the element resolves. -/
def Element.Resolves (e : Element) : Prop := ∀ t ∈ e.tokens, t ≠ none

def tokensEqual : List (Option Token) → List (Option Token) → Bool
  | [], [] => true
  | some x :: xs, some y :: ys => if x = y then tokensEqual xs ys else false
  | _, _ => false

def contentEqual (a b : Element) : Bool :=
  if a.kind ≠ b.kind then false else tokensEqual a.tokens b.tokens

structure Frame where
  index : BlobIndex
  body : Bytes

/-- What turns a blob's body into elements: the envelope parse, the decompression of a payload of
one kind, and the parse of the block with the walk over its elements. -/
structure Decoder where
  envelope : Bytes → Except PbfError (Option (UInt8 × Bytes) × Option Int32)
  decompress : UInt8 × Bytes → Except PbfError Bytes
  parse : Bytes → Except PbfError (List Element)

def checkRawSize (declared : Option Int32) (actual : Nat) : Except PbfError Unit :=
  match declared with
  | none => .ok ()
  | some d => if d.toInt = actual then .ok ()
    else .error (.blob "Blob raw_size disagrees with the payload that came out of it")

def Decoder.decompressBlobRaw (d : Decoder) (body : Bytes) : Except PbfError Bytes := do
  let (payload, rawSize) ← d.envelope body
  match payload with
  | none => .error (.blob "Blob is missing fields")
  | some p =>
    let raw ← d.decompress p
    checkRawSize rawSize raw.length
    .ok raw

def Decoder.rawBlobPayload (d : Decoder) (body : Bytes) :
    Except PbfError (Option (UInt8 × Bytes)) := do
  let (payload, _) ← d.envelope body
  .ok payload

/-- The half-open key interval a work unit owns, each bound absent when open. -/
structure Window where
  start : Option OsmIdKey
  stop : Option OsmIdKey

def Window.unbounded : Window := ⟨none, none⟩

def Window.Contains (w : Window) (k : OsmIdKey) : Prop :=
  (∀ s ∈ w.start, s ≤ k) ∧ ∀ e ∈ w.stop, k < e

instance (w : Window) (k : OsmIdKey) : Decidable (w.Contains k) := by
  unfold Window.Contains
  exact inferInstance

def Window.crosses (w : Window) (x : BlobIndex) : Bool :=
  w.start.any (fun s => decide (x.firstKey < s)) || w.stop.any fun e => decide (e ≤ x.lastKey)

/-- A decoded block of one side and the part of it still to merge. -/
structure BlockState where
  block : List Element
  skipCount : Nat
  stop : Option Nat
  clipLast : Option Int64
  index : BlobIndex

structure BlockRun where
  elements : List Element
  count : Nat
  deriving DecidableEq

namespace BlockState

def spent (bs : BlockState) : Bool := bs.stop.any fun stop => decide (stop ≤ bs.skipCount)

def elements (bs : BlockState) : List Element :=
  match bs.stop with
  | none => bs.block.drop bs.skipCount
  | some stop => (bs.block.drop bs.skipCount).take (stop - bs.skipCount)

def run (bs : BlockState) : BlockRun where
  elements := bs.elements
  count := match bs.stop with
    | some stop => stop - min bs.skipCount stop
    | none => bs.block.length - bs.skipCount

end BlockState

/-- `i` elements are behind, `skip` of them before the window. -/
def clipLoop (w : Window) : List Element → Nat → Nat → Option Int64 → Nat × Option Nat × Option Int64
  | [], i, skip, lastInside => (min skip i, some i, lastInside)
  | e :: rest, i, skip, lastInside =>
    if w.stop.any fun stop => decide (stop ≤ e.key) then (min skip i, some i, lastInside)
    else if w.start.any fun start => decide (e.key < start) then
      clipLoop w rest (i + 1) (i + 1) lastInside
    else clipLoop w rest (i + 1) skip (some e.id)

def clip (block : List Element) (w : Window) : Nat × Option Nat × Option Int64 :=
  clipLoop w block 0 0 none

/-- The frames of one input still to yield; `held` is a frame handed back. -/
structure Side where
  held : Option Frame
  pending : List Frame

namespace Side

def new (frames : List Frame) : Side := ⟨none, frames⟩

def nextBlob (s : Side) : Option Frame × Side :=
  match s.held with
  | some f => (some f, { s with held := none })
  | none =>
    match s.pending with
    | [] => (none, s)
    | f :: rest => (some f, { s with pending := rest })

def hold (s : Side) (f : Frame) : Side := { s with held := some f }

/-- Every frame still to yield, in order. -/
def remaining (s : Side) : List Frame := s.held.toList ++ s.pending

end Side

section Phase

variable (d : Decoder) (w : Window)

def decode (f : Frame) : Except PbfError BlockState := do
  let raw ← d.decompressBlobRaw f.body
  let block ← d.parse raw
  refuseForeignKind (block.map Element.kind) f.index.kind
  let (skipCount, stop, clipLast) := if w.crosses f.index then clip block w else (0, none, none)
  .ok ⟨block, skipCount, stop, clipLast, f.index⟩

/-- Decode until a block holds something inside the window. -/
def decodeNext : List Frame → Except PbfError (Option BlockState × List Frame)
  | [] => .ok (none, [])
  | f :: rest => do
    let state ← decode d w f
    if state.spent then decodeNext rest else .ok (some state, rest)

def nextDecoded (s : Side) : Except PbfError (Option BlockState × Side) := do
  let (state, rest) ← decodeNext d w s.remaining
  .ok (state, Side.new rest)

inductive Action where
  | blobEqual (count : Nat)
  | blobOldOnly (run : BlockRun)
  | blobNewOnly (run : BlockRun)
  | elementEqual (e : Element)
  | elementModified (old new : Element)
  | elementOldOnly (e : Element)
  | elementNewOnly (e : Element)
  deriving DecidableEq

variable (bs : BlockState)

def emitBlock (isOld : Bool) : List Action :=
  if bs.spent then []
  else if isOld then [.blobOldOnly bs.run]
  else [.blobNewOnly bs.run]

def drainRemaining (isOld : Bool) : List Frame → Except PbfError (List Action)
  | [] => .ok []
  | f :: rest => do
    let state ← decode d w f
    let tail ← drainRemaining isOld rest
    .ok (emitBlock state isOld ++ tail)

/-- What one element merge did, and what it left behind. -/
structure PairOutcome where
  actions : List Action
  oldConsumed : Nat
  newConsumed : Nat
  oldHasMore : Bool
  newHasMore : Bool

namespace PairOutcome

def takeOld (o : PairOutcome) (a : Action) : PairOutcome :=
  { o with actions := a :: o.actions, oldConsumed := o.oldConsumed + 1 }

def takeNew (o : PairOutcome) (a : Action) : PairOutcome :=
  { o with actions := a :: o.actions, newConsumed := o.newConsumed + 1 }

end PairOutcome

def compareElements (o n : Element) : Action :=
  if contentEqual o n then .elementEqual o else .elementModified o n

/-- The element merge with no old element left. -/
def mergePairNew (upTo : OsmIdKey) : List Element → PairOutcome
  | [] => ⟨[], 0, 0, false, false⟩
  | n :: ns =>
    if n.key ≤ upTo then (mergePairNew upTo ns).takeNew (.elementNewOnly n)
    else ⟨[], 0, 0, false, true⟩

/-- The element merge with `o` at the head of the old side and `tail` for what
follows once `o` is consumed. -/
def mergePairHead (upTo : OsmIdKey) (o : Element) (tail : List Element → PairOutcome) :
    List Element → PairOutcome
  | [] =>
    if o.key ≤ upTo then (tail []).takeOld (.elementOldOnly o)
    else ⟨[], 0, 0, true, false⟩
  | n :: ns =>
    if o.key ≤ upTo then
      if n.key ≤ upTo then
        if o.key < n.key then (tail (n :: ns)).takeOld (.elementOldOnly o)
        else if n.key < o.key then (mergePairHead upTo o tail ns).takeNew (.elementNewOnly n)
        else
          let rest := tail ns
          { rest with
            actions := compareElements o n :: rest.actions
            oldConsumed := rest.oldConsumed + 1
            newConsumed := rest.newConsumed + 1 }
      else (tail (n :: ns)).takeOld (.elementOldOnly o)
    else if n.key ≤ upTo then (mergePairHead upTo o tail ns).takeNew (.elementNewOnly n)
    else ⟨[], 0, 0, true, true⟩

def elementMergePair (upTo : OsmIdKey) : List Element → List Element → PairOutcome
  | [] => mergePairNew upTo
  | o :: os => mergePairHead upTo o (elementMergePair upTo os)

def stateLast : Int64 :=
  match bs.clipLast with
  | some inside => if osmIdKey inside < osmIdKey bs.index.blobLast then inside else bs.index.blobLast
  | none => bs.index.blobLast

def checkClaimedMax (index : BlobIndex) (hasMore : Bool) (mergeUpTo : Int64) (side : String) :
    Except PbfError Unit :=
  if !hasMore then .ok ()
  else if osmIdKey index.blobLast ≤ osmIdKey mergeUpTo then
    .error (.indexdataMismatch ("block-pair merge: the " ++ side ++
      " blob's indexdata claims its last ID is " ++ toString index.blobLast ++
      ", but the block still holds elements past the merge boundary " ++ toString mergeUpTo ++
      ". The stored blob metadata does not match the blob's contents."))
  else .ok ()

def mergeBoundary (os ns : BlockState) : Int64 :=
  if osmIdKey (stateLast os) ≤ osmIdKey (stateLast ns) then stateLast os else stateLast ns

/-- The part of a block behind the elements a merge consumed, if there is one. -/
def leftOver (consumed : Nat) (hasMore : Bool) : Option BlockState :=
  if hasMore then some { bs with skipCount := bs.skipCount + consumed } else none

def mergeDecodedPair (os ns : BlockState) :
    Except PbfError (List Action × Option BlockState × Option BlockState) := do
  let mergeUpTo := mergeBoundary os ns
  let outcome := elementMergePair (osmIdKey mergeUpTo) os.elements ns.elements
  checkClaimedMax os.index outcome.oldHasMore mergeUpTo "old"
  checkClaimedMax ns.index outcome.newHasMore mergeUpTo "new"
  .ok (outcome.actions, leftOver os outcome.oldConsumed outcome.oldHasMore,
    leftOver ns outcome.newConsumed outcome.newHasMore)

def blobEntirelyBefore (a b : BlobIndex) : Bool := decide (a.lastKey < b.firstKey)

def blobsByteEqual (op np : Frame) : Except PbfError Bool :=
  if op.index.minId ≠ np.index.minId ∨ op.index.maxId ≠ np.index.maxId ∨
      op.index.count ≠ np.index.count then .ok false
  else if w.crosses op.index then .ok false
  else do
    let a ← d.rawBlobPayload op.body
    let b ← d.rawBlobPayload np.body
    match a, b with
    | some x, some y => .ok (decide (x = y))
    | _, _ => .ok false

/-- Whether a fresh pair is passed over as equal without decoding. -/
def skipsPair (skipEqualBlobs : Bool) (op np : Frame) : Except PbfError Bool :=
  if skipEqualBlobs then blobsByteEqual d w op np else .ok false

structure PhaseState where
  old : Side
  new : Side
  oldDecoded : Option BlockState
  newDecoded : Option BlockState

/-- The end of one turn of the loop: leave it, or go round again. -/
inductive Turn where
  | stop (actions : List Action)
  | again (actions : List Action) (s : PhaseState)

/-- The block a side is on, or the next one it has. -/
def refill (decoded : Option BlockState) (s : Side) :
    Except PbfError (Option BlockState × Side) :=
  match decoded with
  | some bs => .ok (some bs, s)
  | none => nextDecoded d w s

/-- The part of a turn behind the fresh-pair path. -/
def slowPath (s : PhaseState) : Except PbfError Turn := do
  let (oldDecoded, old) ← refill d w s.oldDecoded s.old
  let (newDecoded, new) ← refill d w s.newDecoded s.new
  match oldDecoded, newDecoded with
  | none, none => .ok (.stop [])
  | some os, none => .ok (.again (emitBlock os true) ⟨old, new, none, none⟩)
  | none, some ns => .ok (.again (emitBlock ns false) ⟨old, new, none, none⟩)
  | some os, some ns =>
    if blobEntirelyBefore os.index ns.index then
      .ok (.again (emitBlock os true) ⟨old, new, none, some ns⟩)
    else if blobEntirelyBefore ns.index os.index then
      .ok (.again (emitBlock ns false) ⟨old, new, some os, none⟩)
    else do
      let (actions, oldLeft, newLeft) ← mergeDecodedPair os ns
      .ok (.again actions ⟨old, new, oldLeft, newLeft⟩)

def unspent : Option BlockState := if bs.spent then none else some bs

/-- One turn of the phase loop. -/
def turn (skipEqualBlobs : Bool) (s : PhaseState) : Except PbfError Turn :=
  match s.oldDecoded, s.newDecoded with
  | none, none =>
    match s.old.nextBlob, s.new.nextBlob with
    | (none, _), (none, _) => .ok (.stop [])
    | (some op, old), (none, _) => do
      let os ← decode d w op
      let tail ← drainRemaining d w true old.remaining
      .ok (.stop (emitBlock os true ++ tail))
    | (none, _), (some np, new) => do
      let ns ← decode d w np
      let tail ← drainRemaining d w false new.remaining
      .ok (.stop (emitBlock ns false ++ tail))
    | (some op, old), (some np, new) => do
      if blobEntirelyBefore op.index np.index then
        let os ← decode d w op
        .ok (.again (emitBlock os true) ⟨old, new.hold np, none, none⟩)
      else if blobEntirelyBefore np.index op.index then
        let ns ← decode d w np
        .ok (.again (emitBlock ns false) ⟨old.hold op, new, none, none⟩)
      else
        let equal ← skipsPair d w skipEqualBlobs op np
        if equal then .ok (.again [.blobEqual op.index.count] ⟨old, new, none, none⟩)
        else
          let os ← decode d w op
          let ns ← decode d w np
          slowPath d w ⟨old, new, unspent os, unspent ns⟩
  | _, _ => slowPath d w s

/-- The phase loop, for at most `fuel` turns. -/
def runPhase (skipEqualBlobs : Bool) : Nat → PhaseState → Except PbfError (List Action)
  | 0, _ => .error .outOfFuel
  | fuel + 1, s => do
    match ← turn d w skipEqualBlobs s with
    | .stop actions => .ok actions
    | .again actions s' =>
      let tail ← runPhase skipEqualBlobs fuel s'
      .ok (actions ++ tail)

def phaseStart (old new : List Frame) : PhaseState := ⟨.new old, .new new, none, none⟩

end Phase

/-- The current block's elements still to pull, the phase's blocks behind it, and
the key of the element pulled last. -/
structure StreamSide where
  iter : List Element
  blocks : List (List Element)
  ended : Bool
  last : Option OsmIdKey

/-- The kind and order check on an element just pulled. -/
def admitElement (e : Element) (kind : ElementKind) (last : Option OsmIdKey) :
    Except PbfError Unit :=
  if e.kind ≠ kind then
    .error (.unsorted ("streaming merge-join: input contains a mixed-type block, so elements " ++
      "of a later type would be consumed and discarded by an earlier phase. " ++
      "This merge requires Sort.Type_then_ID input with one element type per block."))
  else match last with
    | none => .ok ()
    | some lastKey =>
      if e.key < lastKey then
        .error (.unsorted ("streaming merge-join: " ++ kind.asStr ++ " " ++ toString e.id ++
          " follows " ++ kind.asStr ++ " " ++ toString (osmIdFromKey lastKey) ++
          ". The input's header claims Sort.Type_then_ID but its elements are not in " ++
          "canonical order."))
      else .ok ()

/-- Pull the next element of a side out of `iter` and the blocks behind it. -/
def pullFrom (kind : ElementKind) (last : Option OsmIdKey) :
    List (List Element) → Except PbfError (Option Element × StreamSide)
  | [] => .ok (none, ⟨[], [], true, last⟩)
  | [] :: blocks => pullFrom kind last blocks
  | (e :: rest) :: blocks => do
    admitElement e kind last
    .ok (some e, ⟨rest, blocks, false, some e.key⟩)

def pullHead (kind : ElementKind) (s : StreamSide) (head : Option Element) :
    Except PbfError (Option Element × StreamSide) :=
  match head with
  | some e => .ok (some e, s)
  | none => if s.ended then .ok (none, s) else pullFrom kind s.last (s.iter :: s.blocks)

def streamLoop (kind : ElementKind) :
    Nat → StreamSide → StreamSide → Option Element → Option Element →
      Except PbfError (List Action)
  | 0, _, _, _, _ => .error .outOfFuel
  | fuel + 1, old, new, oldHead, newHead => do
    let (oldHead, old) ← pullHead kind old oldHead
    let (newHead, new) ← pullHead kind new newHead
    match oldHead, newHead with
    | none, none => .ok []
    | some o, none => do
      let tail ← streamLoop kind fuel old new none none
      .ok (.elementOldOnly o :: tail)
    | none, some n => do
      let tail ← streamLoop kind fuel old new none none
      .ok (.elementNewOnly n :: tail)
    | some o, some n =>
      if o.key < n.key then do
        let tail ← streamLoop kind fuel old new none (some n)
        .ok (.elementOldOnly o :: tail)
      else if n.key < o.key then do
        let tail ← streamLoop kind fuel old new (some o) none
        .ok (.elementNewOnly n :: tail)
      else do
        let tail ← streamLoop kind fuel old new none none
        .ok (compareElements o n :: tail)

/-- The element-level merge of one kind's blocks, for at most `fuel` turns. -/
def streamMergePhase (kind : ElementKind) (fuel : Nat) (old new : List (List Element)) :
    Except PbfError (List Action) :=
  streamLoop kind fuel ⟨[], old, false, none⟩ ⟨[], new, false, none⟩ none none

end MergeJoin
