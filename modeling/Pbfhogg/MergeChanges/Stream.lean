import Mathlib.Algebra.GroupWithZero.Nat
import Mathlib.Logic.Function.Basic
import Mathlib.Logic.Relation

/-!
# The streaming merge of change files

`commands/merge_changes/stream.rs` as a step relation: one reader for each input, the credit ledger,
the encode jobs and the coordinator, which owns the output and the spill files. A step is one access
to what the threads share. The waits poll, so a waiting thread is one whose step is not enabled.
Failing reads, encodes and writes and cancellation are left out.
-/

namespace MergeStream

abbrev Bytes := List UInt8

/-- A sealed batch: its recorded bytes, and the member and the changes that `encode` makes of it. -/
structure Batch where
  bytes : Nat
  member : Bytes
  changes : Nat
  deriving DecidableEq

def Batch.credit (b : Batch) : Nat := max b.bytes 1

inductive Parallelism where
  | auto
  | fixed (n : Nat) (hpos : 0 < n)

def Parallelism.cap : Parallelism → Option Nat
  | .auto => none
  | .fixed n _ => some n

def Parallelism.resolve (p : Parallelism) (auto : Nat) : Nat := p.cap.getD auto

def streamWritesScratch (inputCount : Nat) (parallelism : Parallelism) : Bool :=
  decide (1 < inputCount) && !(parallelism.cap == some 1)

structure Config where
  /-- The batches of each input, as its reader seals them. -/
  inputs : List (List Batch)
  parallelism : Parallelism
  /-- What the command sizes its pool to when no cap is asked for. -/
  autoWorkers : Nat
  scratch : Bool
  budget : Nat

namespace Config

variable (c : Config)

def count : Nat := c.inputs.length

def batches (input : Nat) : List Batch := c.inputs.getD input []

/-- `plan.readers.clamp(1, n.max(1))`. -/
def readers : Nat := min (max (c.parallelism.resolve c.autoWorkers) 1) (max c.count 1)

/-- A run that may spill is refused without a scratch directory. -/
def accepted : Bool := c.scratch || !streamWritesScratch c.count c.parallelism

end Config

inductive Reader where
  | idle
  /-- The next batch has this number. -/
  | reading (seq : Nat)
  /-- With credit for the batch, and its job not yet spawned. -/
  | acquired (seq : Nat)
  | done

inductive Msg where
  | member (input seq : Nat) (b : Batch)
  | readerDone (input batches : Nat)

/-- Where an input's in-order members go; a spill file is known by its content. -/
inductive Sink where
  | pending
  | spill (content : Bytes)
  | closed (content : Bytes)
  | output
  deriving DecidableEq

structure InputState where
  waiting : List (Nat × Batch)
  next : Nat
  batches : Option Nat
  changes : Nat
  sink : Sink
  complete : Bool

/-- The errors that say the protocol was broken. -/
inductive Fault where
  | outOfProtocol (seq input : Nat)
  | inconsistentCount (input : Nat)
  | noOpenSpill
  | noScratch (input : Nat)
  deriving DecidableEq

inductive Phase where
  | starting
  /-- At the top of the loop. -/
  | looping
  | draining (input : Nat)
  | closing (input : Nat)
  | finished (total : Nat)
  | failed (fault : Fault)
  deriving DecidableEq

structure State where
  readers : Nat → Reader
  jobs : List (Nat × Nat × Batch)
  queue : List Msg
  /-- The ledger. -/
  used : Nat
  states : Nat → InputState
  head : Nat
  total : Nat
  started : Nat
  out : Bytes
  phase : Phase
  /-- History: the members written, each to the sink its input had. -/
  writes : List (Nat × Nat)

def InputState.new (input : Nat) : InputState where
  waiting := []
  next := 0
  batches := none
  changes := 0
  sink := if input = 0 then .output else .pending
  complete := false

def start : State where
  readers := fun _ => .idle
  jobs := []
  queue := []
  used := 0
  states := InputState.new
  head := 0
  total := 0
  started := 0
  out := []
  phase := .starting
  writes := []

namespace State

variable (s : State)

def setReader (input : Nat) (r : Reader) : State :=
  { s with readers := Function.update s.readers input r }

def setInput (input : Nat) (st : InputState) : State :=
  { s with states := Function.update s.states input st }

def fail (fault : Fault) : State := { s with phase := .failed fault }

/-- `spawn_reader`, then `started += 1`. -/
def spawnReader : State :=
  { s with readers := Function.update s.readers s.started (.reading 0), started := s.started + 1 }

end State

/-- One round of `drain`: the member `b` is next in order for `input`. The credit goes back. -/
def writeMember (c : Config) (s : State) (input : Nat) (waiting : List (Nat × Batch)) (b : Batch) :
    State :=
  let st := s.states input
  let next : InputState :=
    { st with waiting := waiting, next := st.next + 1, changes := st.changes + b.changes }
  let s : State := { s with used := s.used - b.credit, writes := s.writes ++ [(input, st.next)] }
  match st.sink with
  | .output => { s.setInput input next with out := s.out ++ b.member, total := s.total + b.changes }
  | .pending =>
    if c.scratch then s.setInput input { next with sink := .spill b.member }
    else s.fail (.noScratch input)
  | .spill content => s.setInput input { next with sink := .spill (content ++ b.member) }
  | .closed _ => s.fail .noOpenSpill

/-- `close_if_complete`, and the next reader in the slot that is free then. -/
def closeIfComplete (c : Config) (s : State) (input : Nat) : State :=
  let st := s.states input
  if st.complete = true ∨ st.batches ≠ some st.next then s
  else
    let sink := if input = s.head then st.sink else
      match st.sink with
      | .spill content => .closed content
      | sink => sink
    let s := s.setInput input { st with complete := true, sink := sink }
    if s.started < c.count then s.spawnReader else s

/-- `advance_head`: what the next input has spilled is copied to the output. -/
def advanceHead (c : Config) (s : State) : State :=
  let head := s.head + 1
  if head < c.count then
    let st := s.states head
    let s : State :=
      { s.setInput head { st with sink := .output } with head := head, total := s.total + st.changes }
    let promoted (content : Bytes) : State :=
      if c.scratch then { s with out := s.out ++ content } else s.fail (.noScratch head)
    match st.sink with
    | .spill content => promoted content
    | .closed content => promoted content
    | _ => s
  else { s with head := head }

inductive ReaderStep (c : Config) (s : State) : State → Prop where
  /-- `Ledger::acquire`; a batch larger than the budget is admitted alone. -/
  | acquire (input seq : Nat) (b : Batch) (hreader : s.readers input = .reading seq)
      (hbatch : (c.batches input)[seq]? = some b)
      (hroom : s.used = 0 ∨ s.used + b.credit ≤ c.budget) :
      ReaderStep c s { s.setReader input (.acquired seq) with used := s.used + b.credit }
  | spawn (input seq : Nat) (b : Batch) (hreader : s.readers input = .acquired seq)
      (hbatch : (c.batches input)[seq]? = some b) :
      ReaderStep c s
        { s.setReader input (.reading (seq + 1)) with jobs := (input, seq, b) :: s.jobs }
  | done (input : Nat) (hreader : s.readers input = .reading (c.batches input).length) :
      ReaderStep c s
        { s.setReader input .done with
          queue := s.queue ++ [.readerDone input (c.batches input).length] }

/-- An encode job answers. -/
inductive JobStep (s : State) : State → Prop where
  | encode (input seq : Nat) (b : Batch) (before after : List (Nat × Nat × Batch))
      (hjobs : s.jobs = before ++ (input, seq, b) :: after) :
      JobStep s { s with jobs := before ++ after, queue := s.queue ++ [.member input seq b] }

inductive CoordinatorStep (c : Config) (s : State) : State → Prop where
  | spawn (hphase : s.phase = .starting) (hlt : s.started < min c.readers c.count) :
      CoordinatorStep c s s.spawnReader
  | spawned (hphase : s.phase = .starting) (hge : ¬ s.started < min c.readers c.count) :
      CoordinatorStep c s { s with phase := .looping }
  | advance (hphase : s.phase = .looping) (hhead : s.head < c.count)
      (hdone : (s.states s.head).batches = some (s.states s.head).next) :
      CoordinatorStep c s (advanceHead c s)
  | finish (hphase : s.phase = .looping) (hhead : ¬ s.head < c.count) :
      CoordinatorStep c s { s with phase := .finished s.total }
  | recvMember (input seq : Nat) (b : Batch) (rest : List Msg) (hphase : s.phase = .looping)
      (hhead : s.head < c.count)
      (hdone : (s.states s.head).batches ≠ some (s.states s.head).next)
      (hqueue : s.queue = .member input seq b :: rest)
      (hseq : (s.states input).next ≤ seq)
      (hbeyond : ∀ n, (s.states input).batches = some n → seq < n)
      (hfresh : ∀ x ∈ (s.states input).waiting, x.1 ≠ seq) :
      CoordinatorStep c s
        { s.setInput input
            { s.states input with waiting := (seq, b) :: (s.states input).waiting } with
          queue := rest
          phase := .draining input }
  | refuseMember (input seq : Nat) (b : Batch) (rest : List Msg) (hphase : s.phase = .looping)
      (hhead : s.head < c.count)
      (hdone : (s.states s.head).batches ≠ some (s.states s.head).next)
      (hqueue : s.queue = .member input seq b :: rest)
      (hbad : seq < (s.states input).next ∨ (∃ n, (s.states input).batches = some n ∧ n ≤ seq) ∨
        ∃ x ∈ (s.states input).waiting, x.1 = seq) :
      CoordinatorStep c s ({ s with queue := rest }.fail (.outOfProtocol seq input))
  | recvDone (input batches : Nat) (rest : List Msg) (hphase : s.phase = .looping)
      (hhead : s.head < c.count)
      (hdone : (s.states s.head).batches ≠ some (s.states s.head).next)
      (hqueue : s.queue = .readerDone input batches :: rest)
      (hnone : (s.states input).batches = none) (hnext : (s.states input).next ≤ batches)
      (hwaiting : ∀ x ∈ (s.states input).waiting, x.1 < batches) :
      CoordinatorStep c s
        { s.setInput input { s.states input with batches := some batches } with
          queue := rest
          phase := .closing input }
  | refuseDone (input batches : Nat) (rest : List Msg) (hphase : s.phase = .looping)
      (hhead : s.head < c.count)
      (hdone : (s.states s.head).batches ≠ some (s.states s.head).next)
      (hqueue : s.queue = .readerDone input batches :: rest)
      (hbad : (s.states input).batches ≠ none ∨ batches < (s.states input).next ∨
        ∃ x ∈ (s.states input).waiting, batches ≤ x.1) :
      CoordinatorStep c s ({ s with queue := rest }.fail (.inconsistentCount input))
  | drain (input : Nat) (b : Batch) (before after : List (Nat × Batch))
      (hphase : s.phase = .draining input)
      (hwaiting : (s.states input).waiting = before ++ ((s.states input).next, b) :: after) :
      CoordinatorStep c s (writeMember c s input (before ++ after) b)
  | drained (input : Nat) (hphase : s.phase = .draining input)
      (hwaiting : ∀ x ∈ (s.states input).waiting, x.1 ≠ (s.states input).next) :
      CoordinatorStep c s { s with phase := .closing input }
  | close (input : Nat) (hphase : s.phase = .closing input) :
      CoordinatorStep c s { closeIfComplete c s input with phase := .looping }

inductive Step (c : Config) (s t : State) : Prop where
  | reader (h : ReaderStep c s t)
  | job (h : JobStep s t)
  | coordinator (h : CoordinatorStep c s t)

def Reachable (c : Config) (s : State) : Prop := Relation.ReflTransGen (Step c) start s

end MergeStream
