import Mathlib.Logic.Relation
import Pbfhogg.ReorderBuffer

/-!
# The pipelined read engine

`run_pipeline` of `read/pipeline.rs` as a step relation: a reader thread sends blobs through the raw
channel, a dispatcher admits each one past a gate of permits and spawns its decode task, and the
calling thread delivers the results in file order from a reorder buffer. A permit travels with its
item; a reader's error rides without one. The decode and the consumer are parameters.
-/

namespace ReadPipeline

variable {T E : Type}

def defaultMaxWindow : Nat := 65536

inductive Failure (E : Type) where
  | cancelled
  | failed (e : E)

structure Config (T E : Type) where
  readAhead : Nat
  readAhead_pos : 0 < readAhead
  decodeAhead : Nat
  decodeAhead_pos : 0 < decodeAhead
  decodeThreads : Nat
  decodeThreads_pos : 0 < decodeThreads
  /-- Why the decode pool could not be built. -/
  poolError : Option E
  nBlobs : Nat
  /-- What the reader meets behind the last blob it can read. -/
  readError : Option E
  /-- `none` delivers nothing. A panic of the task is an error here. -/
  decode : Nat → Option (Except E T)
  consume : List (Nat × T) → T → Except E Unit

/-- What the reader yields. -/
inductive Raw (E : Type) where
  | blob
  | failed (f : Failure E)

inductive Reader (E : Type) where
  | reading (seq : Nat)
  | sending (seq : Nat) (r : Raw E)
  | finished

inductive Dispatcher (E : Type) where
  | building
  | buildFailed (e : E)
  | receiving
  /-- Before it loads the shutdown flag. -/
  | arrived (seq : Nat) (r : Raw E)
  | acquiring (seq : Nat)
  /-- Waiting to be notified by the gate. -/
  | parked (seq : Nat)
  | sendingError (seq : Nat) (f : Failure E)
  /-- The raw receiver is gone and the scope waits for its tasks. -/
  | joining
  | finished

/-- The raw receiver is alive. -/
def Dispatcher.RawOpen : Dispatcher E → Prop
  | .joining => False
  | .finished => False
  | _ => True

/-- What a decode task delivers. -/
abbrev Slot (T E : Type) := Option (Except (Failure E) T)

inductive Phase (T E : Type) where
  /-- Spawned, with no thread of the pool on it yet. -/
  | waiting
  | running
  | sending (r : Slot T E)
  /-- Its send failed and its permit is gone; it has yet to raise the shutdown flag. -/
  | stopping

structure Task (T E : Type) where
  seq : Nat
  phase : Phase T E

structure Item (T E : Type) where
  seq : Nat
  slot : Slot T E
  permit : Bool

inductive Outcome (E : Type) where
  | ok
  | error (f : Failure E)
  | panicked

inductive Consumer (T E : Type) where
  | checking
  | waiting
  /-- Before the second cancellation check. -/
  | arrived (i : Item T E)
  | draining
  | consuming (seq : Nat) (t : T) (permit : Bool)
  /-- The channel closed, before the last check. -/
  | closed
  /-- The loop was left and the reorder buffer is to be dropped. -/
  | exiting (o : Outcome E)
  /-- The receiver is to be dropped. -/
  | dropping (o : Outcome E)
  | done (o : Outcome E)

structure State (T E : Type) where
  reader : Reader E
  raw : List (Nat × Raw E)
  dispatcher : Dispatcher E
  gate : Nat
  shutdown : Bool
  tasks : List (Task T E)
  decoded : List (Item T E)
  pending : ReorderBuffer.Buffer (Slot T E × Bool)
  consumer : Consumer T E
  cancelled : Bool
  /-- A permit was released with the gate at zero. -/
  underflow : Bool
  /-- History: what the reader yielded. -/
  source : List (Raw E)
  /-- History: how many items the dispatcher passed on. -/
  dispatched : Nat
  /-- History: what the consumer was handed. -/
  delivered : List (Nat × T)

variable (cfg : Config T E)

def start : State T E where
  reader := .reading 0
  raw := []
  dispatcher := .building
  gate := 0
  shutdown := false
  tasks := []
  decoded := []
  pending := ReorderBuffer.withMaxWindow (max defaultMaxWindow cfg.decodeAhead)
  consumer := .checking
  cancelled := false
  underflow := false
  source := []
  dispatched := 0
  delivered := []

/-- `notify_all`: the one waiter checks the count again. -/
def Dispatcher.woken : Dispatcher E → Dispatcher E
  | .parked seq => .acquiring seq
  | d => d

/-- `n` permits are dropped. A release and its notification are one step: the count is under the
lock, and only the dispatcher waits. -/
def State.release (s : State T E) (n : Nat) : State T E :=
  if n = 0 then s
  else if n ≤ s.gate then { s with gate := s.gate - n, dispatcher := s.dispatcher.woken }
  else { s with underflow := true }

def permitCount (b : Bool) : Nat := if b then 1 else 0

/-- The decoded receiver is alive. -/
def Consumer.Open (c : Consumer T E) : Prop := ∀ o, c ≠ .done o

inductive ReaderStep (cfg : Config T E) (s : State T E) : State T E → Prop where
  | read (k : Nat) (hr : s.reader = .reading k) (hk : k < cfg.nBlobs) :
      ReaderStep cfg s { s with reader := .sending k .blob, source := s.source ++ [.blob] }
  | readFails (k : Nat) (e : E) (hr : s.reader = .reading k) (hk : k = cfg.nBlobs)
      (he : cfg.readError = some e) :
      ReaderStep cfg s { s with
        reader := .sending k (.failed (.failed e)), source := s.source ++ [.failed (.failed e)] }
  | readCancelled (k : Nat) (hr : s.reader = .reading k) (hc : s.cancelled = true) :
      ReaderStep cfg s { s with
        reader := .sending k (.failed .cancelled), source := s.source ++ [.failed .cancelled] }
  | eof (k : Nat) (hr : s.reader = .reading k) (hk : k = cfg.nBlobs) (he : cfg.readError = none) :
      ReaderStep cfg s { s with reader := .finished }
  | send (k : Nat) (hr : s.reader = .sending k .blob) (hopen : s.dispatcher.RawOpen)
      (hroom : s.raw.length < cfg.readAhead) :
      ReaderStep cfg s { s with reader := .reading (k + 1), raw := s.raw ++ [(k, .blob)] }
  /-- A failed reader yields nothing more. -/
  | sendFailed (k : Nat) (f : Failure E) (hr : s.reader = .sending k (.failed f))
      (hopen : s.dispatcher.RawOpen) (hroom : s.raw.length < cfg.readAhead) :
      ReaderStep cfg s { s with reader := .finished, raw := s.raw ++ [(k, .failed f)] }
  | sendFails (k : Nat) (r : Raw E) (hr : s.reader = .sending k r)
      (hclosed : ¬ s.dispatcher.RawOpen) : ReaderStep cfg s { s with reader := .finished }

inductive DispatcherStep (cfg : Config T E) (s : State T E) : State T E → Prop where
  | build (hd : s.dispatcher = .building) (he : cfg.poolError = none) :
      DispatcherStep cfg s { s with dispatcher := .receiving }
  | buildFails (e : E) (hd : s.dispatcher = .building) (he : cfg.poolError = some e) :
      DispatcherStep cfg s { s with dispatcher := .buildFailed e }
  | sendBuildError (e : E) (hd : s.dispatcher = .buildFailed e) (hopen : s.consumer.Open)
      (hroom : s.decoded.length < cfg.decodeAhead) :
      DispatcherStep cfg s { s with
        dispatcher := .finished, decoded := s.decoded ++ [⟨0, some (.error (.failed e)), false⟩]
        dispatched := 1 }
  | dropBuildError (e : E) (hd : s.dispatcher = .buildFailed e) (hclosed : ¬ s.consumer.Open) :
      DispatcherStep cfg s { s with dispatcher := .finished }
  | receive (k : Nat) (r : Raw E) (rest : List (Nat × Raw E)) (hd : s.dispatcher = .receiving)
      (hraw : s.raw = (k, r) :: rest) :
      DispatcherStep cfg s { s with dispatcher := .arrived k r, raw := rest }
  | receiveClosed (hd : s.dispatcher = .receiving) (hraw : s.raw = [])
      (hr : s.reader = .finished) : DispatcherStep cfg s { s with dispatcher := .joining }
  | loadStop (k : Nat) (r : Raw E) (hd : s.dispatcher = .arrived k r) (hs : s.shutdown = true) :
      DispatcherStep cfg s { s with dispatcher := .joining }
  | admits (k : Nat) (hd : s.dispatcher = .arrived k .blob) (hs : s.shutdown = false) :
      DispatcherStep cfg s { s with dispatcher := .acquiring k }
  | forward (k : Nat) (f : Failure E) (hd : s.dispatcher = .arrived k (.failed f))
      (hs : s.shutdown = false) : DispatcherStep cfg s { s with dispatcher := .sendingError k f }
  | acquire (k : Nat) (hd : s.dispatcher = .acquiring k) (hroom : s.gate < cfg.decodeAhead) :
      DispatcherStep cfg s { s with
        dispatcher := .receiving, gate := s.gate + 1, tasks := s.tasks ++ [⟨k, .waiting⟩]
        dispatched := s.dispatched + 1 }
  | park (k : Nat) (hd : s.dispatcher = .acquiring k) (hfull : cfg.decodeAhead ≤ s.gate) :
      DispatcherStep cfg s { s with dispatcher := .parked k }
  /-- `send_direct_error`. -/
  | sendError (k : Nat) (f : Failure E) (hd : s.dispatcher = .sendingError k f)
      (hopen : s.consumer.Open) (hroom : s.decoded.length < cfg.decodeAhead) :
      DispatcherStep cfg s { s with
        dispatcher := .receiving, decoded := s.decoded ++ [⟨k, some (.error f), false⟩]
        dispatched := s.dispatched + 1 }
  | sendErrorFails (k : Nat) (f : Failure E) (hd : s.dispatcher = .sendingError k f)
      (hclosed : ¬ s.consumer.Open) : DispatcherStep cfg s { s with dispatcher := .joining }
  | join (hd : s.dispatcher = .joining) (htasks : s.tasks = []) :
      DispatcherStep cfg s { s with dispatcher := .finished }

/-- A thread of the pool is on the task. -/
def Phase.busy : Phase T E → Bool
  | .waiting => false
  | .running => true
  | .sending _ => true
  | .stopping => true

def decodeSlot (cfg : Config T E) (k : Nat) : Slot T E :=
  (cfg.decode k).map fun r => match r with
    | .ok t => .ok t
    | .error e => .error (.failed e)

inductive TaskStep (cfg : Config T E) (s : State T E) : State T E → Prop where
  | begin (k : Nat) (front back : List (Task T E))
      (ht : s.tasks = front ++ ⟨k, .waiting⟩ :: back)
      (hfree : s.tasks.countP (fun x => x.phase.busy) < cfg.decodeThreads) :
      TaskStep cfg s { s with tasks := front ++ ⟨k, .running⟩ :: back }
  | decode (k : Nat) (front back : List (Task T E))
      (ht : s.tasks = front ++ ⟨k, .running⟩ :: back) :
      TaskStep cfg s { s with tasks := front ++ ⟨k, .sending (decodeSlot cfg k)⟩ :: back }
  | send (k : Nat) (r : Slot T E) (front back : List (Task T E))
      (ht : s.tasks = front ++ ⟨k, .sending r⟩ :: back) (hopen : s.consumer.Open)
      (hroom : s.decoded.length < cfg.decodeAhead) :
      TaskStep cfg s { s with
        tasks := front ++ back, decoded := s.decoded ++ [⟨k, r, true⟩] }
  /-- The item comes back with its permit, which is dropped. -/
  | sendFails (k : Nat) (r : Slot T E) (front back : List (Task T E))
      (ht : s.tasks = front ++ ⟨k, .sending r⟩ :: back) (hclosed : ¬ s.consumer.Open) :
      TaskStep cfg s
        (({ s with tasks := front ++ ⟨k, .stopping⟩ :: back } : State T E).release 1)
  | raiseShutdown (k : Nat) (front back : List (Task T E))
      (ht : s.tasks = front ++ ⟨k, .stopping⟩ :: back) :
      TaskStep cfg s { s with tasks := front ++ back, shutdown := true }

def bufferPermits (b : ReorderBuffer.Buffer (Slot T E × Bool)) : Nat :=
  (ReorderBuffer.drainFilled b).countP Prod.snd

def itemPermits (l : List (Item T E)) : Nat := l.countP Item.permit

/-- `drain_decoded`. -/
inductive ConsumerStep (cfg : Config T E) (s : State T E) : State T E → Prop where
  | check (hc : s.consumer = .checking) (hok : s.cancelled = false) :
      ConsumerStep cfg s { s with consumer := .waiting }
  | checkFails (hc : s.consumer = .checking) (hcancel : s.cancelled = true) :
      ConsumerStep cfg s { s with consumer := .exiting (.error .cancelled) }
  | receive (i : Item T E) (rest : List (Item T E)) (hc : s.consumer = .waiting)
      (hd : s.decoded = i :: rest) :
      ConsumerStep cfg s { s with consumer := .arrived i, decoded := rest }
  /-- Every sender is gone and the channel is empty. -/
  | disconnect (hc : s.consumer = .waiting) (hd : s.decoded = [])
      (hgone : s.dispatcher = .finished) (htasks : s.tasks = []) :
      ConsumerStep cfg s { s with consumer := .closed }
  | arrivedFails (i : Item T E) (hc : s.consumer = .arrived i) (hcancel : s.cancelled = true) :
      ConsumerStep cfg s
        ({ s with consumer := .exiting (.error .cancelled) }.release (permitCount i.permit))
  | push (i : Item T E) (b : ReorderBuffer.Buffer (Slot T E × Bool)) (hc : s.consumer = .arrived i)
      (hok : s.cancelled = false)
      (hb : ReorderBuffer.tryPush s.pending i.seq (i.slot, i.permit) = .ok b) :
      ConsumerStep cfg s { s with consumer := .draining, pending := b }
  | pushPanics (i : Item T E) (r : ReorderBuffer.Rejected (Slot T E × Bool))
      (hc : s.consumer = .arrived i) (hok : s.cancelled = false)
      (hb : ReorderBuffer.tryPush s.pending i.seq (i.slot, i.permit) = .error r) :
      ConsumerStep cfg s
        ({ s with consumer := .exiting .panicked }.release (permitCount i.permit))
  | notReady (hc : s.consumer = .draining) (hb : ReorderBuffer.popReady s.pending = none) :
      ConsumerStep cfg s { s with consumer := .checking }
  | popNothing (p : Bool) (b : ReorderBuffer.Buffer (Slot T E × Bool)) (hc : s.consumer = .draining)
      (hb : ReorderBuffer.popReady s.pending = some ((none, p), b)) :
      ConsumerStep cfg s ({ s with pending := b }.release (permitCount p))
  | popError (f : Failure E) (p : Bool) (b : ReorderBuffer.Buffer (Slot T E × Bool))
      (hc : s.consumer = .draining)
      (hb : ReorderBuffer.popReady s.pending = some ((some (.error f), p), b)) :
      ConsumerStep cfg s
        ({ s with consumer := .exiting (.error f), pending := b }.release (permitCount p))
  | popOk (t : T) (p : Bool) (b : ReorderBuffer.Buffer (Slot T E × Bool))
      (hc : s.consumer = .draining)
      (hb : ReorderBuffer.popReady s.pending = some ((some (.ok t), p), b)) :
      ConsumerStep cfg s { s with consumer := .consuming s.pending.nextSeq t p, pending := b }
  | consume (k : Nat) (t : T) (p : Bool) (hc : s.consumer = .consuming k t p)
      (hok : cfg.consume s.delivered t = .ok ()) :
      ConsumerStep cfg s
        ({ s with consumer := .draining, delivered := s.delivered ++ [(k, t)] }.release
          (permitCount p))
  | consumeFails (k : Nat) (t : T) (p : Bool) (e : E) (hc : s.consumer = .consuming k t p)
      (he : cfg.consume s.delivered t = .error e) :
      ConsumerStep cfg s
        ({ s with
          consumer := .exiting (.error (.failed e))
          delivered := s.delivered ++ [(k, t)] }.release (permitCount p))
  | finish (hc : s.consumer = .closed) (hok : s.cancelled = false) :
      ConsumerStep cfg s { s with consumer := .exiting .ok }
  | finishFails (hc : s.consumer = .closed) (hcancel : s.cancelled = true) :
      ConsumerStep cfg s { s with consumer := .exiting (.error .cancelled) }
  | dropPending (o : Outcome E) (hc : s.consumer = .exiting o) :
      ConsumerStep cfg s
        ({ s with
          consumer := .dropping o
          pending := ReorderBuffer.emptied s.pending }.release (bufferPermits s.pending))
  | dropReceiver (o : Outcome E) (hc : s.consumer = .dropping o) :
      ConsumerStep cfg s
        ({ s with consumer := .done o, decoded := [] }.release (itemPermits s.decoded))

/-- A step of one of the engine's own threads. -/
inductive Act (cfg : Config T E) (s : State T E) : State T E → Prop where
  | reader (t : State T E) (h : ReaderStep cfg s t) : Act cfg s t
  | dispatcher (t : State T E) (h : DispatcherStep cfg s t) : Act cfg s t
  | task (t : State T E) (h : TaskStep cfg s t) : Act cfg s t
  | consumer (t : State T E) (h : ConsumerStep cfg s t) : Act cfg s t

/-- The invocation may be cancelled at any time. -/
inductive Step (cfg : Config T E) (s : State T E) : State T E → Prop where
  | act (t : State T E) (h : Act cfg s t) : Step cfg s t
  | cancel : Step cfg s { s with cancelled := true }

def Reachable (s : State T E) : Prop :=
  Relation.ReflTransGen (Step cfg) (start cfg) s

/-- Every thread is joined and `run_pipeline` returns, or unwinds with, `o`. -/
def Returns (s : State T E) (o : Outcome E) : Prop :=
  s.reader = .finished ∧ s.dispatcher = .finished ∧ s.tasks = [] ∧ s.consumer = .done o

/-- What the consumer is handed of the items below `n`, one after another in file order, or the
first failure. -/
def follow (cfg : Config T E) : Nat → Except (Failure E) (List (Nat × T))
  | 0 => .ok []
  | n + 1 =>
    match follow cfg n with
    | .error f => .error f
    | .ok l =>
      match decodeSlot cfg n with
      | none => .ok l
      | some (.error f) => .error f
      | some (.ok t) =>
        match cfg.consume l t with
        | .ok _ => .ok (l ++ [(n, t)])
        | .error e => .error (.failed e)

/-- The result of the run: all the blobs, then the read error behind them. -/
def expected : Except (Failure E) (List (Nat × T)) :=
  match cfg.poolError with
  | some e => .error (.failed e)
  | none =>
    match follow cfg cfg.nBlobs, cfg.readError with
    | .error f, _ => .error f
    | .ok _, some e => .error (.failed e)
    | .ok l, none => .ok l

/-- The decodes that give something, of the blobs below `n`. -/
def results (n : Nat) : List (Nat × T) :=
  (List.range n).filterMap fun k => match decodeSlot cfg k with
    | some (.ok t) => some (k, t)
    | _ => none

/-- The read error finds room in the reorder buffer: the window is below the buffer's ceiling, or no
read error comes a whole window behind a blob that is delivered next. -/
def Config.Fits (cfg : Config T E) : Prop :=
  cfg.decodeAhead < defaultMaxWindow ∨ cfg.poolError ≠ none ∨ cfg.readError = none ∨
    cfg.nBlobs < cfg.decodeAhead ∨ ∃ f, follow cfg (cfg.nBlobs - cfg.decodeAhead) = .error f

def Phase.holds : Phase T E → Bool
  | .stopping => false
  | _ => true

def Consumer.hand : Consumer T E → Nat
  | .arrived i => permitCount i.permit
  | .consuming _ _ p => permitCount p
  | _ => 0

/-- The permits held by tasks, on the decoded channel, by the consumer and in the buffer. -/
def permits (s : State T E) : Nat :=
  s.tasks.countP (fun x => x.phase.holds) + itemPermits s.decoded + s.consumer.hand +
    bufferPermits s.pending

structure Counted (cfg : Config T E) (s : State T E) : Prop where
  gate : s.gate = permits s
  cap : s.gate ≤ cfg.decodeAhead
  sane : s.underflow = false
  parked : ∀ k, s.dispatcher = .parked k → cfg.decodeAhead ≤ s.gate

section Release

variable {cfg : Config T E} {s t : State T E} {n : Nat}

@[simp] lemma release_zero : s.release 0 = s := rfl

lemma release_of_le (hn : n ≠ 0) (h : n ≤ s.gate) :
    s.release n = { s with gate := s.gate - n, dispatcher := s.dispatcher.woken } := by
  rw [State.release, if_neg hn, if_pos h]

@[simp] lemma release_reader : (s.release n).reader = s.reader := by
  unfold State.release
  split_ifs <;> rfl

@[simp] lemma release_raw : (s.release n).raw = s.raw := by
  unfold State.release
  split_ifs <;> rfl

@[simp] lemma release_shutdown : (s.release n).shutdown = s.shutdown := by
  unfold State.release
  split_ifs <;> rfl

@[simp] lemma release_tasks : (s.release n).tasks = s.tasks := by
  unfold State.release
  split_ifs <;> rfl

@[simp] lemma release_decoded : (s.release n).decoded = s.decoded := by
  unfold State.release
  split_ifs <;> rfl

@[simp] lemma release_pending : (s.release n).pending = s.pending := by
  unfold State.release
  split_ifs <;> rfl

@[simp] lemma release_consumer : (s.release n).consumer = s.consumer := by
  unfold State.release
  split_ifs <;> rfl

@[simp] lemma release_cancelled : (s.release n).cancelled = s.cancelled := by
  unfold State.release
  split_ifs <;> rfl

@[simp] lemma release_source : (s.release n).source = s.source := by
  unfold State.release
  split_ifs <;> rfl

@[simp] lemma release_dispatched : (s.release n).dispatched = s.dispatched := by
  unfold State.release
  split_ifs <;> rfl

@[simp] lemma release_delivered : (s.release n).delivered = s.delivered := by
  unfold State.release
  split_ifs <;> rfl

/-- A release only ever wakes the dispatcher. -/
theorem release_dispatcher :
    (s.release n).dispatcher = s.dispatcher ∨ ∃ k, s.dispatcher = .parked k ∧
      (s.release n).dispatcher = .acquiring k := by
  unfold State.release
  split
  · exact .inl rfl
  · split
    · cases hd : s.dispatcher with
      | parked k => exact .inr ⟨k, rfl, rfl⟩
      | _ => exact .inl rfl
    · exact .inl rfl

@[simp] lemma permits_release : permits (s.release n) = permits s := by
  simp [permits]

lemma Counted.release (hgate : s.gate = permits s + n) (hcap : s.gate ≤ cfg.decodeAhead)
    (hsane : s.underflow = false)
    (hparked : ∀ k, s.dispatcher = .parked k → cfg.decodeAhead ≤ s.gate) :
    Counted cfg (s.release n) := by
  by_cases hn : n = 0
  · subst hn
    exact ⟨hgate, hcap, hsane, hparked⟩
  · have heq := release_of_le hn (s := s) (by omega)
    refine ⟨?_, ?_, ?_, ?_⟩
    · rw [permits_release, heq]
      simp only
      omega
    · rw [heq]
      simp only
      omega
    · rw [heq]
      exact hsane
    · intro k hk
      rw [heq] at hk
      cases hd : s.dispatcher with
      | parked k' =>
        simp only [hd, Dispatcher.woken] at hk
        cases hk
      | _ =>
        simp only [hd, Dispatcher.woken] at hk
        cases hk

end Release

end ReadPipeline
