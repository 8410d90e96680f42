import Mathlib.Algebra.GroupWithZero.Nat
import Mathlib.Logic.Relation
import Pbfhogg.ReorderBuffer

/-!
# The parallel gzip writer

`write/parallel_gzip.rs` as a step relation: a producer that calls `write`, `flush` and `finish`,
the compress workers, the writer thread, the permit channel and the record of the first failure. A
compress job and a call of the inner writer may fail at any time, a caught panic included. Threads
that cannot be spawned, the drop without `finish` and the timeouts, which only poll, are left out.
-/

namespace ParallelGzip

open ReorderBuffer

abbrev Bytes := List UInt8

/-- What a participant can put on record. -/
inductive Failure where
  | compress (seq : Nat)
  | write
  | flush
  | internal (message : String)

abbrev Result := Except Failure Unit

inductive Job where
  | compress (raw : Bytes)
  | barrier
  deriving DecidableEq

/-- What a worker hands on; the ack channel of a barrier is known by its sequence number. -/
inductive Out where
  | bytes (b : Bytes)
  | barrier (seq : Nat)
  | dropped

/-- A call of the inner writer and whether it succeeded. -/
inductive InnerCall where
  | writeAll (b : Bytes) (ok : Bool)
  | flush (ok : Bool)

structure Config where
  chunkSize : Nat
  workerCount : Nat
  gzip : Bytes → Bytes

def queueSlotsPerWorker : Nat := 2

namespace Config

variable (c : Config)

def chunk : Nat := max c.chunkSize 1

def workers : Nat := max c.workerCount 1

def rawCap : Nat := c.workers * queueSlotsPerWorker

def compressedCap : Nat := c.workers * queueSlotsPerWorker

def reorderWindow : Nat := c.rawCap + c.workers + c.compressedCap

end Config

/-- What a call goes on with once its job is dispatched. -/
inductive Cont where
  /-- `write`, with the bytes not yet taken. -/
  | write (rest : Bytes)
  /-- `flush` has shipped the current chunk and sends its barrier next. -/
  | barrier
  | await
  /-- `finish` has shipped the current chunk. -/
  | shutdown
  deriving DecidableEq

inductive Producer where
  | ready
  | writing (rest : Bytes)
  /-- In `dispatch`, before it looks at the record. -/
  | dispatching (job : Job) (k : Cont)
  | waiting (job : Job) (k : Cont)
  /-- With a permit. -/
  | sending (job : Job) (k : Cont)
  | awaiting (seq : Nat)
  /-- `finish` joins the threads. -/
  | joining (shipped : Result)
  | finished (r : Result)

/-- A call whose job is dispatched under `seq` goes on. -/
def Cont.onSent (seq : Nat) : Cont → Producer
  | .write rest => .writing rest
  | .barrier => .dispatching .barrier .await
  | .await => .awaiting seq
  | .shutdown => .joining (.ok ())

/-- A call that did not dispatch its job returns the error; `finish` shuts the pool down first. -/
def Cont.onError (e : Failure) : Cont → Producer
  | .shutdown => .joining (.error e)
  | _ => .ready

/-- `shutdown` drops the sender of the raw channel before it joins. -/
def Producer.rawOpen : Producer → Bool
  | .joining _ => false
  | .finished _ => false
  | _ => true

/-- What a worker does with the job it took. -/
inductive Stage where
  | holding (job : Job)
  | compressing (raw : Bytes)
  | sending (out : Out)

inductive Writer where
  | receiving
  | received (seq : Nat) (out : Out)
  /-- The pool was not stopped. -/
  | pushing (seq : Nat) (out : Out)
  | popping
  | popped (out : Out)
  /-- The pool was not stopped when it was asked. -/
  | writing (b : Bytes)
  | flushing (seq : Nat)
  | answering (seq : Nat)
  | returning
  /-- The outputs to discard, and whether the thread then ends. -/
  | discarding (outs : List Out) (last : Bool)
  | disconnected
  | finalFlush
  | exited (delivered : Option Nat)

structure State where
  producer : Producer
  current : Bytes
  nextSeq : Nat
  permits : Nat
  raw : List (Nat × Job)
  /-- The workers with a job. -/
  busy : List (Nat × Stage)
  /-- How many workers have not returned. -/
  alive : Nat
  compressed : List (Nat × Out)
  writer : Writer
  pending : Buffer Out
  failure : Option Failure
  inner : List InnerCall
  /-- History: the jobs sent, the bytes of the `write` calls, the acks sent, and whether the writer
  thread has given up ordered delivery. -/
  sent : List Job
  wrote : Bytes
  answers : List (Nat × Result)
  abandoned : Bool

def start (c : Config) : State where
  producer := .ready
  current := []
  nextSeq := 0
  permits := c.reorderWindow
  raw := []
  busy := []
  alive := c.workers
  compressed := []
  writer := .receiving
  pending := withMaxWindow c.reorderWindow
  failure := none
  inner := []
  sent := []
  wrote := []
  answers := []
  abandoned := false

namespace State

variable (s : State)

/-- The record after `FirstFailure::record`: the first failure stays. -/
def recorded (f : Failure) : Option Failure := s.failure.orElse fun _ => some f

def stopped : Bool := s.failure.isSome

/-- What `restate` answers. -/
def reply : Result :=
  match s.failure with
  | some f => .error f
  | none => .ok ()

def poolError (fallback : String) : Failure :=
  s.failure.getD (.internal ("ParallelGzipWriter: " ++ fallback))

/-- A call that did not dispatch its job. -/
def abort (k : Cont) (e : Failure) : State := { s with producer := k.onError e }

/-- `flush_current`, then `k`: an empty chunk is not dispatched. -/
def flushCurrent (k : Cont) : State :=
  { s with
    current := []
    producer := if s.current = [] then k.onSent s.nextSeq
      else .dispatching (.compress s.current) k }

/-- The barrier `seq` is on its way to the writer thread. -/
def barrierIn (seq : Nat) : Prop :=
  (seq, Job.barrier) ∈ s.raw ∨ (seq, Stage.holding .barrier) ∈ s.busy ∨
    (∃ x ∈ s.busy, x.2 = .sending (.barrier seq)) ∨ (∃ x ∈ s.compressed, x.2 = .barrier seq) ∨
    some (Out.barrier seq) ∈ s.pending.pending ∨ (∃ k, s.writer = .received k (.barrier seq)) ∨
    (∃ k, s.writer = .pushing k (.barrier seq)) ∨ s.writer = .popped (.barrier seq) ∨
    s.writer = .flushing seq ∨ s.writer = .answering seq ∨
    ∃ outs last, s.writer = .discarding outs last ∧ Out.barrier seq ∈ outs

/-- What `finish` returns once every thread is joined. -/
def finishResult (s : State) (shipped : Result) (delivered : Option Nat) : Result :=
  match s.failure with
  | some f => .error f
  | none =>
    match shipped with
    | .error e => .error e
    | .ok () =>
      match delivered with
      | none => .error (.internal "ParallelGzipWriter: writer thread returned no writer")
      | some n =>
        if n ≠ s.nextSeq then
          .error (.internal (s!"ParallelGzipWriter: writer thread delivered {n} of " ++
            s!"{s.nextSeq} sequence numbers"))
        else .ok ()

end State

/-- The calls of the owner. -/
inductive CallStep (s : State) : State → Prop where
  | write (buf : Bytes) (hp : s.producer = .ready) :
      CallStep s { s with producer := .writing buf, wrote := s.wrote ++ buf }
  | flush (hp : s.producer = .ready) : CallStep s (s.flushCurrent .barrier)
  | finish (hp : s.producer = .ready) : CallStep s (s.flushCurrent .shutdown)

inductive ProducerStep (c : Config) (s : State) : State → Prop where
  | written (hp : s.producer = .writing []) : ProducerStep c s { s with producer := .ready }
  /-- One round of the loop in `write`. -/
  | take (rest : Bytes) (hp : s.producer = .writing rest) (hrest : rest ≠ [])
      (hfull : c.chunk ≤ (s.current ++ rest.take (c.chunk - s.current.length)).length) :
      ProducerStep c s
        { s with
          current := []
          producer := .dispatching
            (.compress (s.current ++ rest.take (c.chunk - s.current.length)))
            (.write (rest.drop (c.chunk - s.current.length))) }
  | takePart (rest : Bytes) (hp : s.producer = .writing rest) (hrest : rest ≠ [])
      (hfull : (s.current ++ rest.take (c.chunk - s.current.length)).length < c.chunk) :
      ProducerStep c s
        { s with
          current := s.current ++ rest.take (c.chunk - s.current.length)
          producer := .writing (rest.drop (c.chunk - s.current.length)) }
  | refused (job : Job) (k : Cont) (hp : s.producer = .dispatching job k)
      (hstop : s.stopped = true) :
      ProducerStep c s (s.abort k (s.poolError "pool stopped"))
  | admitted (job : Job) (k : Cont) (hp : s.producer = .dispatching job k)
      (hstop : s.stopped = false) :
      ProducerStep c s { s with producer := .waiting job k }
  | takePermit (job : Job) (k : Cont) (hp : s.producer = .waiting job k) (hpos : 0 < s.permits) :
      ProducerStep c s { s with producer := .sending job k, permits := s.permits - 1 }
  | waitStopped (job : Job) (k : Cont) (hp : s.producer = .waiting job k)
      (hstop : s.stopped = true) :
      ProducerStep c s
        (s.abort k (s.poolError "pool stopped while waiting for reorder capacity"))
  /-- The writer thread is gone and its permits are used up. -/
  | waitDisconnected (job : Job) (k : Cont) (hp : s.producer = .waiting job k)
      (hnone : s.permits = 0) (d : Option Nat) (hw : s.writer = .exited d) :
      ProducerStep c s
        (s.abort k (s.poolError "writer stopped before releasing reorder capacity"))
  | send (job : Job) (k : Cont) (hp : s.producer = .sending job k)
      (hroom : s.raw.length < c.rawCap) (halive : 0 < s.alive) :
      ProducerStep c s
        { s with
          producer := k.onSent s.nextSeq
          raw := s.raw ++ [(s.nextSeq, job)]
          nextSeq := s.nextSeq + 1
          sent := s.sent ++ [job] }
  /-- Every worker is gone, and the receiver with them. -/
  | sendFails (job : Job) (k : Cont) (hp : s.producer = .sending job k) (halive : s.alive = 0) :
      ProducerStep c s (s.abort k (s.poolError "worker pool dropped"))
  | flushed (seq : Nat) (r : Result) (hp : s.producer = .awaiting seq)
      (hack : (seq, r) ∈ s.answers) : ProducerStep c s { s with producer := .ready }
  /-- The ack channel is gone without an answer. -/
  | ackDropped (seq : Nat) (hp : s.producer = .awaiting seq)
      (hack : ∀ r, (seq, r) ∉ s.answers) (hgone : ¬ s.barrierIn seq) :
      ProducerStep c s { s with producer := .ready }
  | joined (shipped : Result) (d : Option Nat) (hp : s.producer = .joining shipped)
      (halive : s.alive = 0) (hw : s.writer = .exited d) :
      ProducerStep c s { s with producer := .finished (s.finishResult shipped d) }

inductive WorkerStep (c : Config) (s : State) : State → Prop where
  | recv (seq : Nat) (job : Job) (rest : List (Nat × Job)) (hraw : s.raw = (seq, job) :: rest)
      (hidle : s.busy.length < s.alive) :
      WorkerStep c s { s with raw := rest, busy := (seq, .holding job) :: s.busy }
  /-- The raw channel is closed. -/
  | exit (hraw : s.raw = []) (hopen : s.producer.rawOpen = false) (hidle : s.busy.length < s.alive) :
      WorkerStep c s { s with alive := s.alive - 1 }
  | forward (seq : Nat) (before after : List (Nat × Stage))
      (hbusy : s.busy = before ++ (seq, .holding .barrier) :: after) :
      WorkerStep c s { s with busy := before ++ (seq, .sending (.barrier seq)) :: after }
  | skip (seq : Nat) (raw : Bytes) (before after : List (Nat × Stage))
      (hbusy : s.busy = before ++ (seq, .holding (.compress raw)) :: after)
      (hstop : s.stopped = true) :
      WorkerStep c s { s with busy := before ++ (seq, .sending .dropped) :: after }
  | begin (seq : Nat) (raw : Bytes) (before after : List (Nat × Stage))
      (hbusy : s.busy = before ++ (seq, .holding (.compress raw)) :: after)
      (hstop : s.stopped = false) :
      WorkerStep c s { s with busy := before ++ (seq, .compressing raw) :: after }
  | compressed (seq : Nat) (raw : Bytes) (before after : List (Nat × Stage))
      (hbusy : s.busy = before ++ (seq, .compressing raw) :: after) :
      WorkerStep c s { s with busy := before ++ (seq, .sending (.bytes (c.gzip raw))) :: after }
  | compressFails (seq : Nat) (raw : Bytes) (before after : List (Nat × Stage))
      (hbusy : s.busy = before ++ (seq, .compressing raw) :: after) :
      WorkerStep c s
        { s with
          busy := before ++ (seq, .sending .dropped) :: after
          failure := s.recorded (.compress seq) }
  | send (seq : Nat) (out : Out) (before after : List (Nat × Stage))
      (hbusy : s.busy = before ++ (seq, .sending out) :: after)
      (hroom : s.compressed.length < c.compressedCap) (hopen : ∀ d, s.writer ≠ .exited d) :
      WorkerStep c s
        { s with busy := before ++ after, compressed := s.compressed ++ [(seq, out)] }
  /-- The writer thread is gone: the worker returns. -/
  | sendFails (seq : Nat) (out : Out) (before after : List (Nat × Stage))
      (hbusy : s.busy = before ++ (seq, .sending out) :: after) (d : Option Nat)
      (hw : s.writer = .exited d) :
      WorkerStep c s { s with busy := before ++ after, alive := s.alive - 1 }

inductive WriterStep (c : Config) (s : State) : State → Prop where
  | receive (seq : Nat) (out : Out) (rest : List (Nat × Out)) (hw : s.writer = .receiving)
      (hq : s.compressed = (seq, out) :: rest) :
      WriterStep c s { s with writer := .received seq out, compressed := rest }
  | disconnect (hw : s.writer = .receiving) (hq : s.compressed = []) (halive : s.alive = 0) :
      WriterStep c s { s with writer := .disconnected }
  /-- Once stopped, ordered delivery is over: what is held goes first, then the item. -/
  | abandon (seq : Nat) (out : Out) (hw : s.writer = .received seq out)
      (hstop : s.stopped = true) :
      WriterStep c s
        { s with
          writer := .discarding (drainFilled s.pending ++ [out]) false
          pending := emptied s.pending
          abandoned := true }
  | proceed (seq : Nat) (out : Out) (hw : s.writer = .received seq out)
      (hstop : s.stopped = false) :
      WriterStep c s { s with writer := .pushing seq out }
  | push (seq : Nat) (out : Out) (b : Buffer Out) (hw : s.writer = .pushing seq out)
      (hpush : tryPush s.pending seq out = .ok b) :
      WriterStep c s { s with writer := .popping, pending := b }
  | pushRejected (seq : Nat) (out : Out) (r : Rejected Out) (hw : s.writer = .pushing seq out)
      (hpush : tryPush s.pending seq out = .error r) :
      WriterStep c s
        { s with
          writer := .discarding (r.item :: drainFilled s.pending) false
          pending := emptied s.pending
          failure := s.recorded (.internal ("parallel gzip writer: " ++ r.reason))
          abandoned := true }
  | pop (out : Out) (b : Buffer Out) (hw : s.writer = .popping)
      (hpop : popReady s.pending = some (out, b)) :
      WriterStep c s { s with writer := .popped out, pending := b }
  | drained (hw : s.writer = .popping) (hpop : popReady s.pending = none) :
      WriterStep c s { s with writer := .receiving }
  | popDropped (hw : s.writer = .popped .dropped) :
      WriterStep c s { s with writer := .returning }
  | checkBytes (b : Bytes) (hw : s.writer = .popped (.bytes b)) (hstop : s.stopped = false) :
      WriterStep c s { s with writer := .writing b }
  | skipBytes (b : Bytes) (hw : s.writer = .popped (.bytes b)) (hstop : s.stopped = true) :
      WriterStep c s { s with writer := .returning }
  | write (b : Bytes) (hw : s.writer = .writing b) :
      WriterStep c s { s with writer := .returning, inner := s.inner ++ [.writeAll b true] }
  | writeFails (b : Bytes) (hw : s.writer = .writing b) :
      WriterStep c s
        { s with
          writer := .returning
          inner := s.inner ++ [.writeAll b false]
          failure := s.recorded .write }
  | checkBarrier (seq : Nat) (hw : s.writer = .popped (.barrier seq))
      (hstop : s.stopped = false) : WriterStep c s { s with writer := .flushing seq }
  | skipFlush (seq : Nat) (hw : s.writer = .popped (.barrier seq)) (hstop : s.stopped = true) :
      WriterStep c s { s with writer := .answering seq }
  | flush (seq : Nat) (hw : s.writer = .flushing seq) :
      WriterStep c s { s with writer := .answering seq, inner := s.inner ++ [.flush true] }
  | flushFails (seq : Nat) (hw : s.writer = .flushing seq) :
      WriterStep c s
        { s with
          writer := .answering seq
          inner := s.inner ++ [.flush false]
          failure := s.recorded .flush }
  | answer (seq : Nat) (hw : s.writer = .answering seq) :
      WriterStep c s { s with writer := .returning, answers := s.answers ++ [(seq, s.reply)] }
  /-- The permit channel has room for the window; a full one would block. -/
  | returnPermit (hw : s.writer = .returning) (hroom : s.permits < c.reorderWindow) :
      WriterStep c s { s with writer := .popping, permits := s.permits + 1 }
  | discardBarrier (seq : Nat) (outs : List Out) (last : Bool)
      (hw : s.writer = .discarding (.barrier seq :: outs) last) :
      WriterStep c s
        { s with
          writer := .discarding outs last
          answers := s.answers ++ [(seq, s.reply)]
          permits := min (s.permits + 1) c.reorderWindow }
  | discard (out : Out) (outs : List Out) (last : Bool)
      (hw : s.writer = .discarding (out :: outs) last) (hout : ∀ seq, out ≠ .barrier seq) :
      WriterStep c s
        { s with
          writer := .discarding outs last
          permits := min (s.permits + 1) c.reorderWindow }
  | discarded (hw : s.writer = .discarding [] false) :
      WriterStep c s { s with writer := .receiving }
  | discardedLast (hw : s.writer = .discarding [] true) :
      WriterStep c s { s with writer := .exited none }
  | endStopped (hw : s.writer = .disconnected) (hstop : s.stopped = true) :
      WriterStep c s
        { s with
          writer := .discarding (drainFilled s.pending) true
          pending := emptied s.pending
          abandoned := true }
  | stranded (hw : s.writer = .disconnected) (hstop : s.stopped = false)
      (hfilled : 0 < s.pending.filled) :
      WriterStep c s
        { s with
          writer := .discarding (drainFilled s.pending) true
          pending := emptied s.pending
          failure := s.recorded (.internal (s!"parallel gzip writer: {s.pending.filled} outputs " ++
            s!"stranded behind missing seq {s.pending.nextSeq}"))
          abandoned := true }
  | complete (hw : s.writer = .disconnected) (hstop : s.stopped = false)
      (hfilled : s.pending.filled = 0) : WriterStep c s { s with writer := .finalFlush }
  | lastFlush (hw : s.writer = .finalFlush) :
      WriterStep c s
        { s with
          writer := .exited (some s.pending.nextSeq)
          inner := s.inner ++ [.flush true] }
  | lastFlushFails (hw : s.writer = .finalFlush) :
      WriterStep c s
        { s with
          writer := .exited none
          inner := s.inner ++ [.flush false]
          failure := s.recorded .flush }

/-- A step of the pool or of a call that is under way. -/
inductive Inside (c : Config) (s t : State) : Prop where
  | producer (h : ProducerStep c s t)
  | worker (h : WorkerStep c s t)
  | writer (h : WriterStep c s t)

inductive Step (c : Config) (s t : State) : Prop where
  | call (h : CallStep s t)
  | inside (h : Inside c s t)

def Reachable (c : Config) (s : State) : Prop := Relation.ReflTransGen (Step c) (start c) s

end ParallelGzip
