import Mathlib.Algebra.Group.Nat.Defs
import Mathlib.Logic.Relation
import Pbfhogg.ReorderBuffer

/-!
# The pipelined writer

`write/pipeline.rs` and the reservation of `write/writer.rs` as a step relation: the producer takes
a window token and reserves a sequence number as a slot, whoever holds a slot sends one result for
it or drops it, and the writer thread hands the results to the sink in order. The dispatch permits,
which only hold some steps back, are left out.
-/

namespace WritePipeline

open ReorderBuffer

variable {F E σ : Type}

def pipelineDeliveryWindow : Nat := 512

def writeAhead : Nat := 64

/-- `SeqTotal` before the producer has announced. -/
def unannounced : Nat := 2 ^ 64 - 1

inductive Error (E : Type) where
  | internal (message : String)
  | other (e : E)

/-- The input files of a copy are of type `F`. -/
inductive OutputChunk (F : Type) where
  | raw (bytes : List UInt8)
  | rawChunks (chunks : List (List UInt8))
  | copyRange (inFile : F) (offset len : Nat)

abbrev Data (F E : Type) := Except (Error E) (OutputChunk F)

/-- `PipelineItem`: a sequence number and its result. -/
abbrev Item (F E : Type) := Nat × Data F E

/-- A backend: each operation changes the sink, also one that fails. -/
structure OutputSink (F E σ : Type) where
  backend : String
  writeOwned : σ → List UInt8 → σ × Except (Error E) Unit
  copyRange : σ → F → Nat → Nat → σ × Except (Error E) Unit
  afterDrain : σ → σ × Except (Error E) Unit
  finish : σ → Except (Error E) Unit

def writeChunks (sink : OutputSink F E σ) (w : σ) :
    List (List UInt8) → σ × Except (Error E) Unit
  | [] => (w, .ok ())
  | chunk :: chunks =>
    match sink.writeOwned w chunk with
    | (w', .ok ()) => writeChunks sink w' chunks
    | (w', .error e) => (w', .error e)

def handOff (sink : OutputSink F E σ) (w : σ) : OutputChunk F → σ × Except (Error E) Unit
  | .raw bytes => sink.writeOwned w bytes
  | .rawChunks chunks => writeChunks sink w chunks
  | .copyRange inFile offset len => sink.copyRange w inFile offset len

/-- The item a slot sends when it is dropped undischarged. -/
def endedWithoutResult (seq : Nat) : Data F E :=
  .error (.internal s!"pipelined writer: output item {seq} ended without a result")

def announced (expected : Nat) : Option Nat :=
  if expected = unannounced then none else some expected

def checkStreamComplete (backend : String) (pendingLen delivered expected : Nat) :
    Except (Error E) Unit :=
  if 0 < pendingLen then
    .error (.internal (s!"{backend}: channel closed with {pendingLen} item(s) still in reorder " ++
      "buffer; an upstream framer dropped without sending an earlier seq"))
  else
    match announced expected with
    | some total =>
      if delivered < total then
        .error (.internal (s!"{backend}: channel closed after {delivered} of {total} blob(s); " ++
          "an upstream framer dropped without sending the final seq(s)"))
      else .ok ()
    | none => .ok ()

inductive Producer where
  | idle
  /-- Holding a window token, before the sequence number is assigned. -/
  | admitted
  /-- The total is announced, the sender not yet dropped. -/
  | flushing
  | closed

inductive WriterThread (F E : Type) where
  | receiving
  | received (seq : Nat) (data : Data F E)
  | draining
  | holding (result : Data F E)
  /-- The sink has the chunk; its token is not back yet. -/
  | returning
  /-- The ready run is handed off, before `after_drain`. -/
  | maintaining
  | disconnected
  /-- `deliver_in_order` has returned. -/
  | delivered (o : Except (Error E) Unit)
  /-- The thread has returned and its inbox is gone. -/
  | finished (o : Except (Error E) Unit)

structure State (F E σ : Type) where
  seq : Nat
  /-- The sequence numbers whose slot still owes its result. -/
  slots : List Nat
  /-- The tokens in the window channel. -/
  tokens : Nat
  producer : Producer
  expected : Nat
  items : List (Item F E)
  rxOpen : Bool
  writer : WriterThread F E
  pending : Buffer (Data F E)
  sink : σ
  /-- A push the reorder buffer refused. -/
  pushPanic : Option String
  /-- History: the results sent for the slots, the chunks handed to the sink, and how many of
  them it accepted. -/
  produced : List (Item F E)
  handed : List (Nat × OutputChunk F)
  accepted : Nat

/-- `new_channels` and a fresh pipeline. -/
def start (w : σ) : State F E σ where
  seq := 0
  slots := []
  tokens := pipelineDeliveryWindow
  producer := .idle
  expected := unannounced
  items := []
  rxOpen := true
  writer := .receiving
  pending := withMaxWindow pipelineDeliveryWindow
  sink := w
  pushPanic := none
  produced := []
  handed := []
  accepted := 0

inductive ProducerStep (s : State F E σ) : State F E σ → Prop where
  | takeToken (hp : s.producer = .idle) (htok : 0 < s.tokens) :
      ProducerStep s { s with producer := .admitted, tokens := s.tokens - 1 }
  | reserve (hp : s.producer = .admitted) :
      ProducerStep s
        { s with producer := .idle, seq := s.seq + 1, slots := s.slots ++ [s.seq] }
  /-- `flush` states the total before it drops its sender. -/
  | announce (hp : s.producer = .idle) :
      ProducerStep s { s with producer := .flushing, expected := s.seq }
  | flush (hp : s.producer = .flushing) : ProducerStep s { s with producer := .closed }
  /-- The writer is dropped unflushed. -/
  | drop (hp : s.producer = .idle) : ProducerStep s { s with producer := .closed }

/-- Whoever holds a slot discharges it: a producer, a framing job that succeeded or failed, or a
drop. A send waits while the channel is full and fails once the receiver is gone. -/
inductive SlotStep (s : State F E σ) : State F E σ → Prop where
  | send (seq : Nat) (data : Data F E) (hslot : seq ∈ s.slots) (hopen : s.rxOpen = true)
      (hroom : s.items.length < writeAhead) :
      SlotStep s
        { s with
          slots := s.slots.erase seq
          items := s.items ++ [(seq, data)]
          produced := s.produced ++ [(seq, data)] }
  | sendFails (seq : Nat) (data : Data F E) (hslot : seq ∈ s.slots) (hopen : s.rxOpen = false) :
      SlotStep s
        { s with slots := s.slots.erase seq, produced := s.produced ++ [(seq, data)] }
  | drop (seq : Nat) (hslot : seq ∈ s.slots) (hopen : s.rxOpen = true)
      (hroom : s.items.length < writeAhead) :
      SlotStep s
        { s with
          slots := s.slots.erase seq
          items := s.items ++ [(seq, endedWithoutResult seq)]
          produced := s.produced ++ [(seq, endedWithoutResult seq)] }
  | dropFails (seq : Nat) (hslot : seq ∈ s.slots) (hopen : s.rxOpen = false) :
      SlotStep s
        { s with
          slots := s.slots.erase seq
          produced := s.produced ++ [(seq, endedWithoutResult seq)] }

/-- `deliver_in_order` and the return of the writer thread. -/
inductive WriterStep (sink : OutputSink F E σ) (s : State F E σ) : State F E σ → Prop where
  | receive (seq : Nat) (data : Data F E) (rest : List (Item F E)) (hw : s.writer = .receiving)
      (hitems : s.items = (seq, data) :: rest) :
      WriterStep sink s { s with writer := .received seq data, items := rest }
  /-- Every sender is gone, the producer's and the slots', and the channel is empty. -/
  | disconnect (hw : s.writer = .receiving) (hitems : s.items = []) (hslots : s.slots = [])
      (hp : s.producer = .closed) :
      WriterStep sink s { s with writer := .disconnected }
  | push (seq : Nat) (data : Data F E) (b : Buffer (Data F E))
      (hw : s.writer = .received seq data) (hpush : tryPush s.pending seq data = .ok b) :
      WriterStep sink s { s with writer := .draining, pending := b }
  | pushPanics (seq : Nat) (data : Data F E) (r : Rejected (Data F E))
      (hw : s.writer = .received seq data) (hpush : tryPush s.pending seq data = .error r) :
      WriterStep sink s { s with pushPanic := some r.reason }
  | pop (result : Data F E) (b : Buffer (Data F E)) (hw : s.writer = .draining)
      (hpop : popReady s.pending = some (result, b)) :
      WriterStep sink s { s with writer := .holding result, pending := b }
  | drained (hw : s.writer = .draining) (hpop : popReady s.pending = none) :
      WriterStep sink s { s with writer := .maintaining }
  | itemFails (e : Error E) (hw : s.writer = .holding (.error e)) :
      WriterStep sink s { s with writer := .delivered (.error e) }
  | handOff (chunk : OutputChunk F) (w : σ) (hw : s.writer = .holding (.ok chunk))
      (hsink : handOff sink s.sink chunk = (w, .ok ())) :
      WriterStep sink s
        { s with
          writer := .returning
          sink := w
          handed := s.handed ++ [(s.accepted, chunk)]
          accepted := s.accepted + 1 }
  | handOffFails (chunk : OutputChunk F) (w : σ) (e : Error E)
      (hw : s.writer = .holding (.ok chunk)) (hsink : handOff sink s.sink chunk = (w, .error e)) :
      WriterStep sink s
        { s with
          writer := .delivered (.error e)
          sink := w
          handed := s.handed ++ [(s.accepted, chunk)] }
  /-- The window channel has `pipelineDeliveryWindow` places; a full one would block. -/
  | returnToken (hw : s.writer = .returning) (hroom : s.tokens < pipelineDeliveryWindow) :
      WriterStep sink s { s with writer := .draining, tokens := s.tokens + 1 }
  | afterDrain (w : σ) (hw : s.writer = .maintaining)
      (hsink : sink.afterDrain s.sink = (w, .ok ())) :
      WriterStep sink s { s with writer := .receiving, sink := w }
  | afterDrainFails (w : σ) (e : Error E) (hw : s.writer = .maintaining)
      (hsink : sink.afterDrain s.sink = (w, .error e)) :
      WriterStep sink s { s with writer := .delivered (.error e), sink := w }
  | check (hw : s.writer = .disconnected) :
      WriterStep sink s
        { s with
          writer := .delivered (checkStreamComplete sink.backend s.pending.pending.length
            s.pending.nextSeq s.expected) }
  | returnError (e : Error E) (hw : s.writer = .delivered (.error e)) :
      WriterStep sink s { s with writer := .finished (.error e), rxOpen := false, items := [] }
  | finish (hw : s.writer = .delivered (.ok ())) :
      WriterStep sink s
        { s with writer := .finished (sink.finish s.sink), rxOpen := false, items := [] }

inductive Step (sink : OutputSink F E σ) (s t : State F E σ) : Prop where
  | producer (h : ProducerStep s t)
  | slot (h : SlotStep s t)
  | writer (h : WriterStep sink s t)

def Reachable (sink : OutputSink F E σ) (w : σ) (s : State F E σ) : Prop :=
  Relation.ReflTransGen (Step sink) (start w) s

end WritePipeline
