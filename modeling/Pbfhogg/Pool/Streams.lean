import Mathlib.Data.List.Basic
import Mathlib.Logic.Relation

/-!
# The streamed ordered pool

`run_streams_core` of `ordered_pool.rs` as a step relation: the calling thread pulls tasks from a
source, keeps the receiver of each task's channel in task order and queues the job; workers send a
task's items and one terminal; the calling thread reads the channels one after the other and refills
the window. Thread panics and timers are left out.
-/

namespace StreamPool

open Function

variable {W : Nat} {P T U E : Type}

/-- A run: the tasks of the source and how it ends, the window and the depth of a task's channel,
what each task emits and how it ends, and how each callback of the consumer ends. An item is its
task and its place in it. -/
structure Config (P T U E : Type) where
  nTasks : Nat
  payload : Nat → P
  sourceEnd : Except E Unit
  window : Nat
  window_pos : 0 < window
  depth : Nat
  emits : Nat → P → List T
  ends : Nat → P → Except E U
  beforeTask : Nat → Except E Unit
  item : Nat → Nat → T → Except E Unit
  finishTask : Nat → U → Except E Unit

/-- The answer of the source when it is asked for a task. -/
def Config.source (cfg : Config P T U E) (task : Nat) : Except E (Option P) :=
  if task < cfg.nTasks then .ok (some (cfg.payload task))
  else
    match cfg.sourceEnd with
    | .ok () => .ok none
    | .error e => .error e

inductive StreamMsg (T U E : Type) where
  | item (item : T)
  | ended (result : Except E U)

inductive Issue (E : Type) where
  | opened
  | done
  | failed (e : E)

inductive Worker (P : Type) where
  /-- About to read the abandonment flag. -/
  | top
  /-- Past the flag, about to take a job. -/
  | taking
  | running (task : Nat) (payload : P) (emitted : Nat)
  | gone

inductive Failure (E : Type) where
  | cancelled
  | failed (e : E)
  | internal (message : String)

def noWorkersMessage : String := "ordered pool started with no workers"

def unfinishedMessage (task : Nat) : String :=
  s!"ordered pool: a worker ended streamed task {task} without finishing it"

abbrev Outcome (E : Type) := Except (Failure E) Unit

inductive Main (P T U E : Type) where
  | starting
  /-- In `issue_job`: the receiver is kept, the job not yet queued. -/
  | issuing (payload : P)
  /-- In the loop of `refill`. -/
  | refilling
  | spawning
  /-- At the top of the loop over the tasks. -/
  | looping
  /-- At the top of the loop over a task's messages. -/
  | checking
  | receiving
  /-- A message, or none when the channel is found disconnected. -/
  | received (msg : Option (StreamMsg T U E))
  /-- The closure has its result; the flag, then the channel ends. -/
  | leaving (o : Outcome E)
  | dropping (o : Outcome E)
  | left (o : Outcome E)

structure State (W : Nat) (P T U E : Type) where
  main : Main P T U E
  /-- The tasks whose receiver is held, in order. -/
  pending : List Nat
  nextToIssue : Nat
  issue : Issue E
  jobs : List (Nat × P)
  jobTx : Bool
  workers : Fin W → Worker P
  chan : Nat → List (StreamMsg T U E)
  task : Nat
  spawned : Bool
  abandoned : Bool
  cancelled : Bool
  /-- History: the messages sent for each task, the messages received and the items handed over of
  the task being read, and every item handed over. -/
  sent : Nat → Nat
  seen : Nat
  taken : Nat
  log : List (Nat × T)

def start : State W P T U E where
  main := .starting
  pending := []
  nextToIssue := 0
  issue := .opened
  jobs := []
  jobTx := true
  workers := fun _ => .gone
  chan := fun _ => []
  task := 0
  spawned := false
  abandoned := false
  cancelled := false
  sent := fun _ => 0
  seen := 0
  taken := 0
  log := []

def State.setWorker (s : State W P T U E) (w : Fin W) (x : Worker P) : State W P T U E :=
  { s with workers := update s.workers w x }

/-- A message put on a task's channel. -/
def State.put (s : State W P T U E) (task : Nat) (msg : StreamMsg T U E) : State W P T U E :=
  { s with
    chan := update s.chan task (s.chan task ++ [msg])
    sent := update s.sent task (s.sent task + 1) }

/-- A channel of depth zero hands a message straight over; one place stands for that. -/
def Config.room (cfg : Config P T U E) (s : State W P T U E) (task : Nat) : Prop :=
  (s.chan task).length < max cfg.depth 1

inductive WorkerStep (cfg : Config P T U E) (s : State W P T U E) (w : Fin W) :
    State W P T U E → Prop where
  | readAbandoned (hw : s.workers w = .top) (hflag : s.abandoned = true) :
      WorkerStep cfg s w (s.setWorker w .gone)
  | readRunning (hw : s.workers w = .top) (hflag : s.abandoned = false) :
      WorkerStep cfg s w (s.setWorker w .taking)
  | take (task : Nat) (payload : P) (rest : List (Nat × P)) (hw : s.workers w = .taking)
      (hjobs : s.jobs = (task, payload) :: rest) :
      WorkerStep cfg s w { s.setWorker w (.running task payload 0) with jobs := rest }
  /-- The queue is closed and empty. -/
  | noJob (hw : s.workers w = .taking) (hjobs : s.jobs = []) (htx : s.jobTx = false) :
      WorkerStep cfg s w (s.setWorker w .gone)
  | emit (task : Nat) (payload : P) (emitted : Nat) (item : T)
      (hw : s.workers w = .running task payload emitted)
      (hitem : (cfg.emits task payload)[emitted]? = some item)
      (hrx : task ∈ s.pending) (hroom : cfg.room s task) :
      WorkerStep cfg s w
        ((s.put task (.item item)).setWorker w (.running task payload (emitted + 1)))
  | finish (task : Nat) (payload : P) (emitted : Nat)
      (hw : s.workers w = .running task payload emitted)
      (hend : (cfg.emits task payload)[emitted]? = none)
      (hrx : task ∈ s.pending) (hroom : cfg.room s task) :
      WorkerStep cfg s w ((s.put task (.ended (cfg.ends task payload))).setWorker w .top)
  /-- The receiver is gone: the failed send ends the worker. -/
  | sendFails (task : Nat) (payload : P) (emitted : Nat)
      (hw : s.workers w = .running task payload emitted) (hrx : task ∉ s.pending) :
      WorkerStep cfg s w (s.setWorker w .gone)
  /-- A task that sees the flag may stop early; what it still sends is not read. -/
  | stopEarly (task : Nat) (payload : P) (emitted : Nat)
      (hw : s.workers w = .running task payload emitted) (hflag : s.abandoned = true) :
      WorkerStep cfg s w (s.setWorker w .top)

/-- The job queue has lost its receivers: the workers hold the only ones once they are spawned. -/
def QueueGone (s : State W P T U E) : Prop := s.spawned = true ∧ ∀ w, s.workers w = .gone

/-- No sender of a task's channel is left. -/
def SenderGone (s : State W P T U E) (task : Nat) : Prop :=
  (∀ payload, (task, payload) ∉ s.jobs) ∧
    ∀ w payload emitted, s.workers w ≠ .running task payload emitted

inductive MainStep (cfg : Config P T U E) (s : State W P T U E) : State W P T U E → Prop where
  | startCancelled (hm : s.main = .starting) (hcancel : s.cancelled = true) :
      MainStep cfg s { s with main := .left (.error .cancelled) }
  | startFails (e : E) (hm : s.main = .starting) (hcancel : s.cancelled = false)
      (hsource : cfg.source 0 = .error e) :
      MainStep cfg s { s with main := .left (.error (.failed e)) }
  | startEmpty (hm : s.main = .starting) (hcancel : s.cancelled = false)
      (hsource : cfg.source 0 = .ok none) :
      MainStep cfg s { s with main := .left (.ok ()) }
  | startNoWorkers (payload : P) (hm : s.main = .starting) (hcancel : s.cancelled = false)
      (hsource : cfg.source 0 = .ok (some payload)) (hW : W = 0) :
      MainStep cfg s { s with main := .left (.error (.internal noWorkersMessage)) }
  | start (payload : P) (hm : s.main = .starting) (hcancel : s.cancelled = false)
      (hsource : cfg.source 0 = .ok (some payload)) (hW : W ≠ 0) :
      MainStep cfg s
        { s with main := .issuing payload, pending := s.pending ++ [s.nextToIssue] }
  /-- A full queue would block. -/
  | issueJob (payload : P) (hm : s.main = .issuing payload) (htx : s.jobTx = true)
      (hrx : ¬ QueueGone s) (hroom : s.jobs.length < cfg.window) :
      MainStep cfg s
        { s with
          main := .refilling
          jobs := s.jobs ++ [(s.nextToIssue, payload)]
          nextToIssue := s.nextToIssue + 1 }
  /-- Nobody takes the job; the task's sender is dropped with it. -/
  | issueRefused (payload : P) (hm : s.main = .issuing payload)
      (hgone : s.jobTx = false ∨ QueueGone s) :
      MainStep cfg s { s with main := .refilling, nextToIssue := s.nextToIssue + 1 }
  | pull (payload : P) (hm : s.main = .refilling) (hopen : s.issue = .opened)
      (hwin : s.pending.length < cfg.window)
      (hsource : cfg.source s.nextToIssue = .ok (some payload)) :
      MainStep cfg s
        { s with main := .issuing payload, pending := s.pending ++ [s.nextToIssue] }
  | pullDone (hm : s.main = .refilling) (hopen : s.issue = .opened)
      (hwin : s.pending.length < cfg.window) (hsource : cfg.source s.nextToIssue = .ok none) :
      MainStep cfg s { s with issue := .done }
  | pullFails (e : E) (hm : s.main = .refilling) (hopen : s.issue = .opened)
      (hwin : s.pending.length < cfg.window) (hsource : cfg.source s.nextToIssue = .error e) :
      MainStep cfg s { s with issue := .failed e }
  /-- The window is full; the queue stays open. -/
  | refilled (hm : s.main = .refilling) (hopen : s.issue = .opened)
      (hwin : cfg.window ≤ s.pending.length) :
      MainStep cfg s { s with main := if s.spawned then .looping else .spawning }
  /-- The source is done or has failed; the queue closes. -/
  | refilledLast (hm : s.main = .refilling) (hclosed : s.issue ≠ .opened) :
      MainStep cfg s
        { s with main := if s.spawned then .looping else .spawning, jobTx := false }
  | spawn (hm : s.main = .spawning) :
      MainStep cfg s { s with main := .looping, workers := fun _ => .top, spawned := true }
  | loopCancelled (hm : s.main = .looping) (hpending : s.pending ≠ [])
      (hcancel : s.cancelled = true) :
      MainStep cfg s { s with main := .leaving (.error .cancelled) }
  | beforeFails (e : E) (hm : s.main = .looping) (hpending : s.pending ≠ [])
      (hcancel : s.cancelled = false) (hbefore : cfg.beforeTask s.task = .error e) :
      MainStep cfg s { s with main := .leaving (.error (.failed e)) }
  | beforeTask (hm : s.main = .looping) (hpending : s.pending ≠ [])
      (hcancel : s.cancelled = false) (hbefore : cfg.beforeTask s.task = .ok ()) :
      MainStep cfg s { s with main := .checking }
  | checkCancelled (hm : s.main = .checking) (hcancel : s.cancelled = true) :
      MainStep cfg s { s with main := .leaving (.error .cancelled) }
  | check (hm : s.main = .checking) (hcancel : s.cancelled = false) :
      MainStep cfg s { s with main := .receiving }
  | receive (front : Nat) (rest : List Nat) (msg : StreamMsg T U E)
      (msgs : List (StreamMsg T U E)) (hm : s.main = .receiving)
      (hfront : s.pending = front :: rest) (hchan : s.chan front = msg :: msgs) :
      MainStep cfg s
        { s with
          main := .received (some msg)
          chan := update s.chan front msgs
          seen := s.seen + 1 }
  | disconnect (front : Nat) (rest : List Nat) (hm : s.main = .receiving)
      (hfront : s.pending = front :: rest) (hchan : s.chan front = [])
      (hgone : SenderGone s front) :
      MainStep cfg s { s with main := .received none }
  | receivedCancelled (msg : Option (StreamMsg T U E)) (hm : s.main = .received msg)
      (hcancel : s.cancelled = true) :
      MainStep cfg s { s with main := .leaving (.error .cancelled) }
  | itemFails (item : T) (e : E) (hm : s.main = .received (some (.item item)))
      (hcancel : s.cancelled = false) (hitem : cfg.item s.task s.taken item = .error e) :
      MainStep cfg s
        { s with
          main := .leaving (.error (.failed e))
          taken := s.taken + 1
          log := s.log ++ [(s.task, item)] }
  | item (item : T) (hm : s.main = .received (some (.item item))) (hcancel : s.cancelled = false)
      (hitem : cfg.item s.task s.taken item = .ok ()) :
      MainStep cfg s
        { s with
          main := .checking
          taken := s.taken + 1
          log := s.log ++ [(s.task, item)] }
  | taskFails (e : E) (hm : s.main = .received (some (.ended (.error e))))
      (hcancel : s.cancelled = false) :
      MainStep cfg s { s with main := .leaving (.error (.failed e)) }
  | finishFails (u : U) (e : E) (hm : s.main = .received (some (.ended (.ok u))))
      (hcancel : s.cancelled = false) (hfinish : cfg.finishTask s.task u = .error e) :
      MainStep cfg s { s with main := .leaving (.error (.failed e)) }
  /-- The task is finished with; the source is asked again only while it may produce. -/
  | finishTask (u : U) (hm : s.main = .received (some (.ended (.ok u))))
      (hcancel : s.cancelled = false) (hfinish : cfg.finishTask s.task u = .ok ()) :
      MainStep cfg s
        { s with
          main := match s.issue with
            | .opened => .refilling
            | _ => .looping
          pending := s.pending.tail
          task := s.task + 1
          seen := 0
          taken := 0 }
  | unfinished (hm : s.main = .received none) (hcancel : s.cancelled = false) :
      MainStep cfg s
        { s with main := .leaving (.error (.internal (unfinishedMessage s.task))) }
  | endCancelled (hm : s.main = .looping) (hpending : s.pending = [])
      (hcancel : s.cancelled = true) :
      MainStep cfg s { s with main := .leaving (.error .cancelled) }
  | endFails (e : E) (hm : s.main = .looping) (hpending : s.pending = [])
      (hcancel : s.cancelled = false) (hissue : s.issue = .failed e) :
      MainStep cfg s { s with main := .leaving (.error (.failed e)) }
  | endOk (hm : s.main = .looping) (hpending : s.pending = []) (hcancel : s.cancelled = false)
      (hissue : ∀ e, s.issue ≠ .failed e) :
      MainStep cfg s { s with main := .leaving (.ok ()) }
  | abandon (o : Outcome E) (hm : s.main = .leaving o) :
      MainStep cfg s { s with main := .dropping o, abandoned := true }
  | dropEnds (o : Outcome E) (hm : s.main = .dropping o) :
      MainStep cfg s { s with main := .left o, pending := [], jobTx := false }

inductive Step (cfg : Config P T U E) (s t : State W P T U E) : Prop where
  | worker (w : Fin W) (h : WorkerStep cfg s w t)
  | main (h : MainStep cfg s t)
  /-- The run is cancelled from outside, at any moment. -/
  | cancel (h : t = { s with cancelled := true })

def Reachable (cfg : Config P T U E) (s : State W P T U E) : Prop :=
  Relation.ReflTransGen (Step cfg) start s

def Config.items (cfg : Config P T U E) (task : Nat) : List T :=
  cfg.emits task (cfg.payload task)

/-- Everything a task sends: its items, then one terminal. -/
def Config.msgs (cfg : Config P T U E) (task : Nat) : List (StreamMsg T U E) :=
  (cfg.items task).map .item ++ [.ended (cfg.ends task (cfg.payload task))]

/-- The first item of a task that the consumer fails on. -/
def Config.itemFailure (cfg : Config P T U E) (task : Nat) : Option E :=
  (List.range (cfg.items task).length).findSome? fun i =>
    match (cfg.items task)[i]? with
    | some item =>
      match cfg.item task i item with
      | .error e => some e
      | .ok () => none
    | none => none

/-- How the run fails at a task, if it does: `before_task` comes first, then the items, then the
task's own terminal, then `finish_task`. -/
def Config.failIn (cfg : Config P T U E) (task : Nat) : Option E :=
  match cfg.beforeTask task with
  | .error e => some e
  | .ok () =>
    match cfg.itemFailure task with
    | some e => some e
    | none =>
      match cfg.ends task (cfg.payload task) with
      | .error e => some e
      | .ok u =>
        match cfg.finishTask task u with
        | .error e => some e
        | .ok () => none

/-- The first failure in task order, the source's own after every task. -/
def Config.expected (cfg : Config P T U E) : Outcome E :=
  match (List.range cfg.nTasks).findSome? cfg.failIn with
  | some e => .error (.failed e)
  | none =>
    match cfg.sourceEnd with
    | .ok () => .ok ()
    | .error e => .error (.failed e)

/-- The items of a task, each with its task. -/
def Config.taskLog (cfg : Config P T U E) (task : Nat) : List (Nat × T) :=
  (cfg.items task).map fun item => (task, item)

end StreamPool
