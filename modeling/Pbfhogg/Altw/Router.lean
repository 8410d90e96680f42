import Mathlib.Algebra.GroupWithZero.Nat
import Pbfhogg.Altw.SlotLayout
import Pbfhogg.Lib.LeBytes

/-!
# The router of coordinate payloads

`ConcurrentBlobLocationRouter` of `commands/altw/external/coord_payloads.rs` between the workers of
`stage3.rs` and the `wait_ready` callers of stage 4, as a step relation: a step is one critical
section or one access to a flag. A notification takes the gate and wakes every parked waiter; a
waiter holds the gate from its checks until it is parked, and may wake up spuriously.
-/

namespace PayloadRouter

open SlotLayout Function

/-- The inputs of stage 3. The two sidecars come from the same counts of stage 1. -/
structure Inputs (α : Type) where
  starts : List Nat
  total : Nat
  buckets : Nat
  isizeMax : Nat
  accepted : validateSlotLayout isizeMax starts total buckets = .ok ()
  /-- The refcounts of the ways of each blob. -/
  perWayRcs : List (List Nat)
  agrees : ∀ i < starts.length,
    (perWayRcs.getD i []).sum = blobEnd starts total i - blobStart starts i
  /-- What the scatter buffers hold at each slot. -/
  coord : Nat → α
  /-- `encode_blob_payload_from_record`, with the record of the blob. -/
  encode : Nat → List α → Option Bytes
  workers : Nat
  workers_pos : 0 < workers

inductive BlobLocation where
  | worker (workerId byteOffset byteLength : Nat)
  | straddler (bytes : Bytes)
  | empty

inductive StraddlerPartial (α : Type) where
  | left (raw : List α)
  | right (raw : List α)

/-- A worker of stage 3; with a bucket, what of its listing is left. -/
inductive Phase (α : Type) where
  | checking
  | claiming
  | emitting (bucket : Nat) (rest : List BlobBucketIntersection)
  /-- The payload is in the worker's file. -/
  | publishing (bucket blobIdx byteOffset byteLength : Nat) (rest : List BlobBucketIntersection)
  /-- With both halves of a straddler. -/
  | joined (bucket blobIdx : Nat) (left right : List α) (rest : List BlobBucketIntersection)
  | notifying (bucket : Nat) (rest : List BlobBucketIntersection)
  /-- In `abort`. -/
  | flagging
  | abortNotifying
  | exited

structure Worker (α : Type) where
  phase : Phase α
  file : Bytes

/-- A call of `abort` from stage 4. -/
inductive Aborter where
  | flagging
  | notifying

/-- The thread that joins the workers and then calls `mark_producer_done`. -/
inductive Producer where
  | running
  | notifying
  | finished

inductive WaitResult where
  | ok
  | aborted
  | missing
  deriving DecidableEq

/-- A call of `wait_ready`. -/
inductive WaitPhase where
  | fast
  | locking
  /-- With the gate, before each of its checks and before it parks. -/
  | holding
  | checked
  | parking
  | parked
  | returned (r : WaitResult)
  deriving DecidableEq

def WaitPhase.holdsGate : WaitPhase → Bool
  | .holding => true
  | .checked => true
  | .parking => true
  | _ => false

/-- The publication errors. -/
inductive Fault where
  | alreadyPublished (blobIdx : Nat)
  | duplicateHalf (blobIdx : Nat)
  | classify (e : ClassifyError)

structure State (α : Type) where
  /-- The bucket to claim next. -/
  next : Nat
  workers : Nat → Worker α
  slots : Nat → Option BlobLocation
  partials : Nat → Option (StraddlerPartial α)
  aborted : Bool
  producerDone : Bool
  /-- A worker has recorded an error. -/
  s3Error : Bool
  producer : Producer
  aborters : List Aborter
  waiters : List (Nat × WaitPhase)
  /-- History: the blobs published, the publication errors met, and whether a worker has failed. -/
  published : List Nat
  faults : List Fault
  broken : Bool

variable {α : Type}

namespace Inputs

variable (c : Inputs α)

def blobHasNonzeroRefs (i : Nat) : Bool := (c.perWayRcs.getD i []).any (· ≠ 0)

def bucketStart (k : Nat) : Nat := SlotLayout.bucketStart c.total c.buckets k

def bucketEnd (k : Nat) : Nat := SlotLayout.bucketEnd c.total c.buckets k

def blobStart (i : Nat) : Nat := SlotLayout.blobStart c.starts i

def blobEnd (i : Nat) : Nat := SlotLayout.blobEnd c.starts c.total i

/-- The slots from `a` to `b`. -/
def slotsOf (a b : Nat) : List α := (List.range' a (b - a)).map c.coord

def scatterBuf (k : Nat) : List α := c.slotsOf (c.bucketStart k) (c.bucketEnd k)

/-- The slice of the scatter buffer of bucket `k` that goes with an intersection. -/
def slice (k : Nat) : BlobBucketIntersection → List α
  | .fullyContained i =>
    ((c.scatterBuf k).take (c.blobEnd i - c.bucketStart k)).drop (c.blobStart i - c.bucketStart k)
  | .leftHalf i => (c.scatterBuf k).drop (c.blobStart i - c.bucketStart k)
  | .rightHalf i => (c.scatterBuf k).take (c.blobEnd i - c.bucketStart k)

def classify (k : Nat) : Except ClassifyError (List BlobBucketIntersection) :=
  classifyBlobsInBucket (c.bucketStart k) (c.bucketEnd k) c.starts c.total

end Inputs

def start (c : Inputs α) : State α where
  next := 0
  workers := fun w => ⟨if w < c.workers then .checking else .exited, []⟩
  slots := fun i => if c.blobHasNonzeroRefs i then none else some .empty
  partials := fun _ => none
  aborted := false
  producerDone := false
  s3Error := false
  producer := .running
  aborters := []
  waiters := []
  published := []
  faults := []
  broken := false

namespace State

variable (s : State α)

def setPhase (w : Nat) (phase : Phase α) : State α :=
  { s with workers := update s.workers w { s.workers w with phase := phase } }

def gateFree : Prop := ∀ x ∈ s.waiters, x.2.holdsGate = false

/-- `notify_all`. -/
def wakeAll : List (Nat × WaitPhase) :=
  s.waiters.map fun x => (x.1, if x.2 = .parked then .locking else x.2)

/-- The worker's error is recorded; it calls `abort` next. -/
def failWorker (w : Nat) : State α := { s.setPhase w .flagging with s3Error := true, broken := true }

/-- A publication error is an error of the worker. -/
def fault (w : Nat) (f : Fault) : State α := { s.failWorker w with faults := s.faults ++ [f] }

def setPartial (i : Nat) (p : Option (StraddlerPartial α)) : State α :=
  { s with partials := update s.partials i p }

def publish (i : Nat) (location : BlobLocation) : State α :=
  { s with
    slots := update s.slots i (some location)
    published := s.published ++ [i] }

end State

inductive WorkerStep (c : Inputs α) (w : Nat) (s : State α) : State α → Prop where
  | stop (hphase : (s.workers w).phase = .checking) (hstop : s.aborted = true ∨ s.s3Error = true) :
      WorkerStep c w s (s.setPhase w .exited)
  | goOn (hphase : (s.workers w).phase = .checking) (hgo : s.aborted = false ∧ s.s3Error = false) :
      WorkerStep c w s (s.setPhase w .claiming)
  | noMore (hphase : (s.workers w).phase = .claiming) (hge : c.buckets ≤ s.next) :
      WorkerStep c w s { s.setPhase w .exited with next := s.next + 1 }
  | claim (l : List BlobBucketIntersection) (hphase : (s.workers w).phase = .claiming)
      (hlt : s.next < c.buckets) (hlist : c.classify s.next = .ok l) :
      WorkerStep c w s { s.setPhase w (.emitting s.next l) with next := s.next + 1 }
  | claimFault (e : ClassifyError) (hphase : (s.workers w).phase = .claiming)
      (hlt : s.next < c.buckets) (hlist : c.classify s.next = .error e) :
      WorkerStep c w s { s.fault w (.classify e) with next := s.next + 1 }
  | bucketDone (k : Nat) (hphase : (s.workers w).phase = .emitting k []) :
      WorkerStep c w s (s.setPhase w .checking)
  /-- A read, an encode or a write fails, or the run is cancelled. -/
  | fail (k : Nat) (rest : List BlobBucketIntersection)
      (hphase : (s.workers w).phase = .emitting k rest) : WorkerStep c w s (s.failWorker w)
  /-- The guard of a worker that unwinds calls `abort`. -/
  | unwind (k : Nat) (rest : List BlobBucketIntersection)
      (hphase : (s.workers w).phase = .emitting k rest) :
      WorkerStep c w s { s.setPhase w .flagging with broken := true }
  | writePayload (k i : Nat) (rest : List BlobBucketIntersection) (bytes : Bytes)
      (hphase : (s.workers w).phase = .emitting k (.fullyContained i :: rest))
      (hencode : c.encode i (c.slice k (.fullyContained i)) = some bytes) :
      WorkerStep c w s
        { s with
          workers := update s.workers w
            ⟨.publishing k i (s.workers w).file.length bytes.length rest,
              (s.workers w).file ++ bytes⟩ }
  | publishWorker (k i offset length : Nat) (rest : List BlobBucketIntersection)
      (hphase : (s.workers w).phase = .publishing k i offset length rest)
      (hfree : s.slots i = none) :
      WorkerStep c w s ((s.setPhase w (.notifying k rest)).publish i (.worker w offset length))
  | publishWorkerFault (k i offset length : Nat) (rest : List BlobBucketIntersection)
      (location : BlobLocation) (hphase : (s.workers w).phase = .publishing k i offset length rest)
      (htaken : s.slots i = some location) : WorkerStep c w s (s.fault w (.alreadyPublished i))
  | leftFirst (k i : Nat) (rest : List BlobBucketIntersection)
      (hphase : (s.workers w).phase = .emitting k (.leftHalf i :: rest))
      (hnone : s.partials i = none) :
      WorkerStep c w s
        ((s.setPhase w (.emitting k rest)).setPartial i (some (.left (c.slice k (.leftHalf i)))))
  | rightFirst (k i : Nat) (rest : List BlobBucketIntersection)
      (hphase : (s.workers w).phase = .emitting k (.rightHalf i :: rest))
      (hnone : s.partials i = none) :
      WorkerStep c w s
        ((s.setPhase w (.emitting k rest)).setPartial i (some (.right (c.slice k (.rightHalf i)))))
  | leftSecond (k i : Nat) (rest : List BlobBucketIntersection) (right : List α)
      (hphase : (s.workers w).phase = .emitting k (.leftHalf i :: rest))
      (hright : s.partials i = some (.right right)) :
      WorkerStep c w s
        ((s.setPhase w (.joined k i (c.slice k (.leftHalf i)) right rest)).setPartial i none)
  | rightSecond (k i : Nat) (rest : List BlobBucketIntersection) (left : List α)
      (hphase : (s.workers w).phase = .emitting k (.rightHalf i :: rest))
      (hleft : s.partials i = some (.left left)) :
      WorkerStep c w s
        ((s.setPhase w (.joined k i left (c.slice k (.rightHalf i)) rest)).setPartial i none)
  | leftFault (k i : Nat) (rest : List BlobBucketIntersection) (left : List α)
      (hphase : (s.workers w).phase = .emitting k (.leftHalf i :: rest))
      (hleft : s.partials i = some (.left left)) :
      WorkerStep c w s ((s.fault w (.duplicateHalf i)).setPartial i none)
  | rightFault (k i : Nat) (rest : List BlobBucketIntersection) (right : List α)
      (hphase : (s.workers w).phase = .emitting k (.rightHalf i :: rest))
      (hright : s.partials i = some (.right right)) :
      WorkerStep c w s ((s.fault w (.duplicateHalf i)).setPartial i none)
  | encodeFails (k i : Nat) (left right : List α) (rest : List BlobBucketIntersection)
      (hphase : (s.workers w).phase = .joined k i left right rest) :
      WorkerStep c w s (s.failWorker w)
  | publishStraddler (k i : Nat) (left right : List α) (rest : List BlobBucketIntersection)
      (bytes : Bytes) (hphase : (s.workers w).phase = .joined k i left right rest)
      (hencode : c.encode i (left ++ right) = some bytes) (hfree : s.slots i = none) :
      WorkerStep c w s ((s.setPhase w (.notifying k rest)).publish i (.straddler bytes))
  | publishStraddlerFault (k i : Nat) (left right : List α) (rest : List BlobBucketIntersection)
      (location : BlobLocation) (hphase : (s.workers w).phase = .joined k i left right rest)
      (htaken : s.slots i = some location) : WorkerStep c w s (s.fault w (.alreadyPublished i))
  | notify (k : Nat) (rest : List BlobBucketIntersection)
      (hphase : (s.workers w).phase = .notifying k rest) (hgate : s.gateFree) :
      WorkerStep c w s { s.setPhase w (.emitting k rest) with waiters := s.wakeAll }
  | flag (hphase : (s.workers w).phase = .flagging) :
      WorkerStep c w s { s.setPhase w .abortNotifying with aborted := true }
  | notifyAbort (hphase : (s.workers w).phase = .abortNotifying) (hgate : s.gateFree) :
      WorkerStep c w s { s.setPhase w .exited with waiters := s.wakeAll }

inductive ProducerStep (c : Inputs α) (s : State α) : State α → Prop where
  | markDone (hproducer : s.producer = .running)
      (hexited : ∀ w < c.workers, (s.workers w).phase = .exited) :
      ProducerStep c s { s with producer := .notifying, producerDone := true }
  | notify (hproducer : s.producer = .notifying) (hgate : s.gateFree) :
      ProducerStep c s { s with producer := .finished, waiters := s.wakeAll }

inductive AbortStep (s : State α) : State α → Prop where
  | call : AbortStep s { s with aborters := s.aborters ++ [.flagging] }
  | flag (before after : List Aborter) (haborters : s.aborters = before ++ .flagging :: after) :
      AbortStep s { s with aborters := before ++ .notifying :: after, aborted := true }
  | notify (before after : List Aborter) (haborters : s.aborters = before ++ .notifying :: after)
      (hgate : s.gateFree) :
      AbortStep s { s with aborters := before ++ after, waiters := s.wakeAll }

/-- What the next step of a waiter for blob `i` leads to. -/
inductive WaitStep (s : State α) (i : Nat) : WaitPhase → WaitPhase → Prop where
  | fastReady (h : s.slots i ≠ none) : WaitStep s i .fast (.returned .ok)
  | fastMiss (h : s.slots i = none) : WaitStep s i .fast .locking
  | lock (hgate : s.gateFree) : WaitStep s i .locking .holding
  | seeAbort (h : s.aborted = true) : WaitStep s i .holding (.returned .aborted)
  | noAbort (h : s.aborted = false) : WaitStep s i .holding .checked
  | ready (h : s.slots i ≠ none) : WaitStep s i .checked (.returned .ok)
  | missing (h : s.slots i = none) (hdone : s.producerDone = true) :
      WaitStep s i .checked (.returned .missing)
  | miss (h : s.slots i = none) (hdone : s.producerDone = false) : WaitStep s i .checked .parking
  | park : WaitStep s i .parking .parked
  | spurious : WaitStep s i .parked .locking

inductive Step (c : Inputs α) (s : State α) : State α → Prop where
  | worker (w : Nat) (t : State α) (hw : w < c.workers) (h : WorkerStep c w s t) : Step c s t
  | producer (t : State α) (h : ProducerStep c s t) : Step c s t
  | abort (t : State α) (h : AbortStep s t) : Step c s t
  | waitReady (i : Nat) (hi : i < c.starts.length) :
      Step c s { s with waiters := s.waiters ++ [(i, .fast)] }
  | wait (i : Nat) (p q : WaitPhase) (before after : List (Nat × WaitPhase))
      (hwaiters : s.waiters = before ++ (i, p) :: after) (h : WaitStep s i p q) :
      Step c s { s with waiters := before ++ (i, q) :: after }

def Reachable (c : Inputs α) (s : State α) : Prop := Relation.ReflTransGen (Step c) (start c) s

end PayloadRouter
