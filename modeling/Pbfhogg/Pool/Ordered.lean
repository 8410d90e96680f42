import Mathlib.Logic.Relation
import Pbfhogg.ReorderBuffer

/-!
# The ordered worker pool

`run_ordered` of `ordered_pool.rs` as a step relation: workers claim tasks from a counter, wait at
the admission gate, work and send their result; the calling thread puts the results in task order,
consumes them and gives credit back. Each access to shared state is a step of its own. The hooks,
the timers and thread panics are left out.
-/

namespace OrderedPool

open ReorderBuffer

variable {W : Nat} {T E : Type}

def poolResultChannelDepth : Nat := 32

/-- A run: the tasks, the admission window, and how each task and each callback of the consumer
ends. -/
structure Config (T E : Type) where
  nTasks : Nat
  window : Nat
  window_pos : 0 < window
  work : Nat → Except E T
  beforeItem : Nat → Except E Unit
  consume : Nat → T → Except E Unit

variable (cfg : Config T E)

def Config.channelDepth : Nat := min cfg.window poolResultChannelDepth

structure Gate where
  consumed : Nat
  stopClaims : Bool
  closed : Bool

/-- `OrderedGate::admit` as it judges the gate under the lock; none is a worker that waits. -/
def Gate.admits (g : Gate) (position window : Nat) : Option Bool :=
  if g.closed then some false
  else if position < g.consumed + window then some true
  else if g.stopClaims then some false
  else none

def Gate.advance (g : Gate) (consumed : Nat) : Gate := { g with consumed := consumed }

inductive Worker (T E : Type) where
  /-- About to read the stop flag. -/
  | top
  /-- Past the flag, about to take a number. -/
  | claiming
  | claimed (task : Nat)
  | working (task : Nat)
  /-- The task failed; the stop flag is not set yet. -/
  | failing (task : Nat) (e : E)
  /-- The stop flag is set, `stop_claims` not yet. -/
  | stopping (task : Nat) (e : E)
  | sending (task : Nat) (result : Except E T)
  | gone

inductive Failure (E : Type) where
  | cancelled
  | failed (e : E)
  | undelivered (task nTasks : Nat)

abbrev Outcome (E : Type) := Except (Failure E) Unit

inductive Consumer (T E : Type) where
  | starting
  /-- At the top of the loop. -/
  | checking
  | receiving
  | received (task : Nat) (result : Except E T)
  | draining
  /-- A popped result, before `before_item`. -/
  | holding (result : Except E T)
  | consuming (item : T)
  /-- The count has moved, the gate's not yet. -/
  | crediting
  | disconnected
  /-- `deliver` has returned; the guard sets the stop flag, closes the gate, and the receiver
  goes. -/
  | leaving (o : Outcome E)
  | closing (o : Outcome E)
  | dropping (o : Outcome E)
  | left (o : Outcome E)

structure State (W : Nat) (T E : Type) where
  next : Nat
  gate : Gate
  stopped : Bool
  workers : Fin W → Worker T E
  channel : List (Nat × Except E T)
  rxOpen : Bool
  consumer : Consumer T E
  reorder : Buffer (Except E T)
  /-- The `consumed` of `deliver`. -/
  delivered : Nat
  cancelled : Bool
  /-- A push the reorder buffer refused. -/
  pushPanic : Option String
  /-- History: the tasks admitted, the tasks that were worked and failed, and the items handed to
  `consume`. -/
  admitted : List Nat
  failures : List Nat
  log : List (Nat × T)

def start : State W T E where
  next := 0
  gate := ⟨0, false, false⟩
  stopped := false
  workers := fun _ => .gone
  channel := []
  rxOpen := true
  consumer := .starting
  reorder := withMaxWindow cfg.window
  delivered := 0
  cancelled := false
  pushPanic := none
  admitted := []
  failures := []
  log := []

variable (s : State W T E)

def State.setWorker (w : Fin W) (x : Worker T E) : State W T E :=
  { s with workers := Function.update s.workers w x }

def State.setConsumer (s : State W T E) (c : Consumer T E) : State W T E :=
  { s with consumer := c }

inductive WorkerStep (cfg : Config T E) (s : State W T E) (w : Fin W) : State W T E → Prop where
  | readStopped (hw : s.workers w = .top) (hstop : s.stopped = true) :
      WorkerStep cfg s w (s.setWorker w .gone)
  | readRunning (hw : s.workers w = .top) (hstop : s.stopped = false) :
      WorkerStep cfg s w (s.setWorker w .claiming)
  /-- `next.fetch_add(1)`. -/
  | claim (hw : s.workers w = .claiming) (hnext : s.next < cfg.nTasks) :
      WorkerStep cfg s w { s.setWorker w (.claimed s.next) with next := s.next + 1 }
  | runOut (hw : s.workers w = .claiming) (hnext : cfg.nTasks ≤ s.next) :
      WorkerStep cfg s w { s.setWorker w .gone with next := s.next + 1 }
  | enter (task : Nat) (hw : s.workers w = .claimed task)
      (hgate : s.gate.admits task cfg.window = some true) :
      WorkerStep cfg s w
        { s.setWorker w (.working task) with admitted := s.admitted ++ [task] }
  | turnedAway (task : Nat) (hw : s.workers w = .claimed task)
      (hgate : s.gate.admits task cfg.window = some false) :
      WorkerStep cfg s w (s.setWorker w .gone)
  | succeed (task : Nat) (item : T) (hw : s.workers w = .working task)
      (hwork : cfg.work task = .ok item) :
      WorkerStep cfg s w (s.setWorker w (.sending task (.ok item)))
  | fail (task : Nat) (e : E) (hw : s.workers w = .working task)
      (hwork : cfg.work task = .error e) :
      WorkerStep cfg s w
        { s.setWorker w (.failing task e) with failures := s.failures ++ [task] }
  | setStopped (task : Nat) (e : E) (hw : s.workers w = .failing task e) :
      WorkerStep cfg s w { s.setWorker w (.stopping task e) with stopped := true }
  | stopClaims (task : Nat) (e : E) (hw : s.workers w = .stopping task e) :
      WorkerStep cfg s w
        { s.setWorker w (.sending task (.error e)) with
          gate := { s.gate with stopClaims := true } }
  | send (task : Nat) (result : Except E T) (hw : s.workers w = .sending task result)
      (hopen : s.rxOpen = true) (hroom : s.channel.length < cfg.channelDepth) :
      WorkerStep cfg s w
        { s.setWorker w .top with channel := s.channel ++ [(task, result)] }
  | sendFails (task : Nat) (result : Except E T) (hw : s.workers w = .sending task result)
      (hopen : s.rxOpen = false) :
      WorkerStep cfg s w (s.setWorker w .gone)

inductive ConsumerStep (cfg : Config T E) (s : State W T E) : State W T E → Prop where
  | startCancelled (hc : s.consumer = .starting) (hcancel : s.cancelled = true) :
      ConsumerStep cfg s (s.setConsumer (.left (.error .cancelled)))
  | startEmpty (hc : s.consumer = .starting) (hcancel : s.cancelled = false)
      (hn : cfg.nTasks = 0) :
      ConsumerStep cfg s (s.setConsumer (.left (.ok ())))
  | spawn (hc : s.consumer = .starting) (hcancel : s.cancelled = false) (hn : cfg.nTasks ≠ 0) :
      ConsumerStep cfg s { s.setConsumer .checking with workers := fun _ => .top }
  | checkCancelled (hc : s.consumer = .checking) (hcancel : s.cancelled = true) :
      ConsumerStep cfg s (s.setConsumer (.leaving (.error .cancelled)))
  | check (hc : s.consumer = .checking) (hcancel : s.cancelled = false) :
      ConsumerStep cfg s (s.setConsumer .receiving)
  | receive (task : Nat) (result : Except E T) (rest : List (Nat × Except E T))
      (hc : s.consumer = .receiving) (hchan : s.channel = (task, result) :: rest) :
      ConsumerStep cfg s { s.setConsumer (.received task result) with channel := rest }
  /-- Every sender is gone and the channel is empty. -/
  | disconnect (hc : s.consumer = .receiving) (hchan : s.channel = [])
      (hgone : ∀ w, s.workers w = .gone) :
      ConsumerStep cfg s (s.setConsumer .disconnected)
  | pushCancelled (task : Nat) (result : Except E T) (hc : s.consumer = .received task result)
      (hcancel : s.cancelled = true) :
      ConsumerStep cfg s (s.setConsumer (.leaving (.error .cancelled)))
  | push (task : Nat) (result : Except E T) (b : Buffer (Except E T))
      (hc : s.consumer = .received task result) (hcancel : s.cancelled = false)
      (hpush : tryPush s.reorder task result = .ok b) :
      ConsumerStep cfg s { s.setConsumer .draining with reorder := b }
  | pushPanics (task : Nat) (result : Except E T) (r : Rejected (Except E T))
      (hc : s.consumer = .received task result) (hcancel : s.cancelled = false)
      (hpush : tryPush s.reorder task result = .error r) :
      ConsumerStep cfg s { s with pushPanic := some r.reason }
  | pop (result : Except E T) (b : Buffer (Except E T)) (hc : s.consumer = .draining)
      (hpop : popReady s.reorder = some (result, b)) :
      ConsumerStep cfg s { s.setConsumer (.holding result) with reorder := b }
  | drained (hc : s.consumer = .draining) (hpop : popReady s.reorder = none) :
      ConsumerStep cfg s (s.setConsumer .checking)
  | itemCancelled (result : Except E T) (hc : s.consumer = .holding result)
      (hcancel : s.cancelled = true) :
      ConsumerStep cfg s (s.setConsumer (.leaving (.error .cancelled)))
  | beforeFails (result : Except E T) (e : E) (hc : s.consumer = .holding result)
      (hcancel : s.cancelled = false) (hbefore : cfg.beforeItem s.delivered = .error e) :
      ConsumerStep cfg s (s.setConsumer (.leaving (.error (.failed e))))
  | resultFails (e : E) (hc : s.consumer = .holding (.error e)) (hcancel : s.cancelled = false)
      (hbefore : cfg.beforeItem s.delivered = .ok ()) :
      ConsumerStep cfg s (s.setConsumer (.leaving (.error (.failed e))))
  | unwrap (item : T) (hc : s.consumer = .holding (.ok item)) (hcancel : s.cancelled = false)
      (hbefore : cfg.beforeItem s.delivered = .ok ()) :
      ConsumerStep cfg s (s.setConsumer (.consuming item))
  | consumeFails (item : T) (e : E) (hc : s.consumer = .consuming item)
      (hconsume : cfg.consume s.delivered item = .error e) :
      ConsumerStep cfg s
        { s.setConsumer (.leaving (.error (.failed e))) with
          log := s.log ++ [(s.delivered, item)] }
  | consume (item : T) (hc : s.consumer = .consuming item)
      (hconsume : cfg.consume s.delivered item = .ok ()) :
      ConsumerStep cfg s
        { s.setConsumer .crediting with
          log := s.log ++ [(s.delivered, item)]
          delivered := s.delivered + 1 }
  | credit (hc : s.consumer = .crediting) :
      ConsumerStep cfg s
        { s.setConsumer .draining with gate := s.gate.advance s.delivered }
  | endCancelled (hc : s.consumer = .disconnected) (hcancel : s.cancelled = true) :
      ConsumerStep cfg s (s.setConsumer (.leaving (.error .cancelled)))
  | endShort (hc : s.consumer = .disconnected) (hcancel : s.cancelled = false)
      (hshort : s.delivered ≠ cfg.nTasks) :
      ConsumerStep cfg s
        (s.setConsumer (.leaving (.error (.undelivered s.delivered cfg.nTasks))))
  | endOk (hc : s.consumer = .disconnected) (hcancel : s.cancelled = false)
      (hall : s.delivered = cfg.nTasks) :
      ConsumerStep cfg s (s.setConsumer (.leaving (.ok ())))
  | closeStopped (o : Outcome E) (hc : s.consumer = .leaving o) :
      ConsumerStep cfg s { s.setConsumer (.closing o) with stopped := true }
  | close (o : Outcome E) (hc : s.consumer = .closing o) :
      ConsumerStep cfg s
        { s.setConsumer (.dropping o) with gate := { s.gate with closed := true } }
  | dropReceiver (o : Outcome E) (hc : s.consumer = .dropping o) :
      ConsumerStep cfg s { s.setConsumer (.left o) with rxOpen := false, channel := [] }

inductive Step (cfg : Config T E) (s t : State W T E) : Prop where
  | worker (w : Fin W) (h : WorkerStep cfg s w t)
  | consumer (h : ConsumerStep cfg s t)
  /-- The run is cancelled from outside, at any moment. -/
  | cancel (h : t = { s with cancelled := true })

def Reachable : Prop :=
  Relation.ReflTransGen (Step cfg) (start cfg) s

/-- The calling thread has its outcome and every worker has been joined. -/
def Terminated (o : Outcome E) : Prop :=
  s.consumer = .left o ∧ ∀ w, s.workers w = .gone

/-- How the run fails at a position, if it does: `before_item` comes first, then the task's own
result, then `consume`. -/
def Config.failAt (cfg : Config T E) (task : Nat) : Option E :=
  match cfg.beforeItem task with
  | .error e => some e
  | .ok () =>
    match cfg.work task with
    | .error e => some e
    | .ok item =>
      match cfg.consume task item with
      | .error e => some e
      | .ok () => none

/-- The first failure in task order. -/
def Config.expected : Outcome E :=
  match (List.range cfg.nTasks).findSome? cfg.failAt with
  | some e => .error (.failed e)
  | none => .ok ()

end OrderedPool
