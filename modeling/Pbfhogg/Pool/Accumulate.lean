import Mathlib.Data.List.Nodup
import Pbfhogg.Pool.Feed

/-!
# The accumulating pool

`run_accumulate_decoded` of `scan/classify.rs` as a step relation: each worker carries one state
across its blobs and sends it once, when the schedule is exhausted. A worker that fails raises the
stop flag and sends its error; one that sees the flag ends without a word.
-/

namespace AccumulatePool

variable {S E : Type}

/-- How the work on one blob ends. -/
inductive WorkEnd (E : Type) where
  | ok
  | error (e : E)
  | panicked

/-- A run over a schedule. -/
structure Config (S E : Type) where
  nPositions : Nat
  threads : Nat
  threads_pos : 0 < threads
  workerInit : S
  work : S → Nat → S × WorkEnd E

inductive Failure (E : Type) where
  | cancelled
  | failed (e : E)

inductive Worker (E : Type) where
  /-- At the cancellation check that heads the loop. -/
  | checking
  /-- Before it loads the stop flag. -/
  | loading
  | locking
  | receiving
  | working (position : Nat)
  /-- The schedule is exhausted and the state goes out. -/
  | delivering
  /-- It failed and has yet to raise the stop flag. -/
  | raising (f : Failure E)
  | reporting (f : Failure E)
  | delivered
  /-- A peer failed. -/
  | stopped
  | failed (f : Failure E)
  | unwinding
  | panicked

def Worker.Gone : Worker E → Prop
  | .delivered => True
  | .stopped => True
  | .failed _ => True
  | .panicked => True
  | _ => False

inductive Consumer (E : Type) where
  | receiving
  /-- The loop has ended and the result receiver is gone. -/
  | done (r : Except (Failure E) Unit)

/-- An item of the result channel. The worker is history. -/
structure Item (S E : Type) where
  worker : Nat
  result : Except (Failure E) S

structure State (S E : Type) where
  feed : Feed.State
  workers : Nat → Worker E
  states : Nat → S
  stop : Bool
  results : List (Item S E)
  consumer : Consumer E
  cancelled : Bool
  /-- History: which worker received each position. -/
  given : List (Nat × Nat)
  /-- History: the positions each worker worked successfully. -/
  worked : Nat → List Nat
  /-- History: what merge was handed, and by which worker. -/
  merged : List (Nat × S)

def start (cfg : Config S E) : State S E where
  feed := Feed.start
  workers := fun _ => .checking
  states := fun _ => cfg.workerInit
  stop := false
  results := []
  consumer := .receiving
  cancelled := false
  given := []
  worked := fun _ => []
  merged := []

def State.setWorker (s : State S E) (w : Nat) (x : Worker E) : State S E :=
  { s with workers := Function.update s.workers w x }

/-- Some worker still holds the descriptor receiver. -/
def FeedOpen (cfg : Config S E) (s : State S E) : Prop :=
  ∃ w, w < cfg.threads ∧ ¬ (s.workers w).Gone

/-- The one send of a worker: with the receiver gone the item is dropped. -/
inductive Sends (cfg : Config S E) (s : State S E) (i : Item S E) : State S E → Prop where
  | send (hopen : s.consumer = .receiving) (hroom : s.results.length < cfg.threads) :
      Sends cfg s i { s with results := s.results ++ [i] }
  | dropped (r : Except (Failure E) Unit) (hclosed : s.consumer = .done r) : Sends cfg s i s

inductive WorkerStep (cfg : Config S E) (s : State S E) (w : Nat) : State S E → Prop where
  | check (hw : s.workers w = .checking) (hok : s.cancelled = false) :
      WorkerStep cfg s w (s.setWorker w .loading)
  | checkFails (hw : s.workers w = .checking) (hcancel : s.cancelled = true) :
      WorkerStep cfg s w (s.setWorker w (.raising .cancelled))
  | load (hw : s.workers w = .loading) (hgo : s.stop = false) :
      WorkerStep cfg s w (s.setWorker w .locking)
  | loadStop (hw : s.workers w = .loading) (hstop : s.stop = true) :
      WorkerStep cfg s w (s.setWorker w .stopped)
  | lock (hw : s.workers w = .locking) (hfree : s.feed.lock = none) :
      WorkerStep cfg s w ({ s with feed := { s.feed with lock := some w } }.setWorker w .receiving)
  | receive (p : Nat) (f : Feed.State) (hw : s.workers w = .receiving)
      (hr : Feed.Receives w s.feed (some p) f) :
      WorkerStep cfg s w
        ({ s with feed := f, given := s.given ++ [(p, w)] }.setWorker w (.working p))
  | closed (f : Feed.State) (hw : s.workers w = .receiving)
      (hr : Feed.Receives w s.feed none f) :
      WorkerStep cfg s w ({ s with feed := f }.setWorker w .delivering)
  | work (p : Nat) (hw : s.workers w = .working p) (hr : (cfg.work (s.states w) p).2 = .ok) :
      WorkerStep cfg s w
        ({ s with
          states := Function.update s.states w (cfg.work (s.states w) p).1
          worked := Function.update s.worked w (s.worked w ++ [p]) }.setWorker w .checking)
  | workFails (p : Nat) (e : E) (hw : s.workers w = .working p)
      (hr : (cfg.work (s.states w) p).2 = .error e) :
      WorkerStep cfg s w (s.setWorker w (.raising (.failed e)))
  | panic (p : Nat) (hw : s.workers w = .working p)
      (hr : (cfg.work (s.states w) p).2 = .panicked) :
      WorkerStep cfg s w (s.setWorker w .unwinding)
  /-- `StopOnUnwind`. -/
  | unwind (hw : s.workers w = .unwinding) :
      WorkerStep cfg s w ({ s with stop := true }.setWorker w .panicked)
  | raiseStop (f : Failure E) (hw : s.workers w = .raising f) :
      WorkerStep cfg s w ({ s with stop := true }.setWorker w (.reporting f))
  | report (f : Failure E) (t : State S E) (hw : s.workers w = .reporting f)
      (hsend : Sends cfg s ⟨w, .error f⟩ t) : WorkerStep cfg s w (t.setWorker w (.failed f))
  | deliver (t : State S E) (hw : s.workers w = .delivering)
      (hsend : Sends cfg s ⟨w, .ok (s.states w)⟩ t) :
      WorkerStep cfg s w (t.setWorker w .delivered)

inductive ConsumerStep (cfg : Config S E) (s : State S E) : State S E → Prop where
  | merge (w : Nat) (a : S) (rest : List (Item S E)) (hc : s.consumer = .receiving)
      (hres : s.results = ⟨w, .ok a⟩ :: rest) :
      ConsumerStep cfg s { s with results := rest, merged := s.merged ++ [(w, a)] }
  | failure (w : Nat) (f : Failure E) (rest : List (Item S E)) (hc : s.consumer = .receiving)
      (hres : s.results = ⟨w, .error f⟩ :: rest) :
      ConsumerStep cfg s { s with results := rest, consumer := .done (.error f) }
  /-- Every sender is gone and the channel is empty. -/
  | disconnect (hc : s.consumer = .receiving) (hres : s.results = [])
      (hgone : ∀ w, w < cfg.threads → (s.workers w).Gone) :
      ConsumerStep cfg s { s with consumer := .done (.ok ()) }

/-- A step of one of the pool's own threads. -/
inductive Act (cfg : Config S E) (s : State S E) : State S E → Prop where
  | worker (w : Nat) (hw : w < cfg.threads) (t : State S E) (h : WorkerStep cfg s w t) :
      Act cfg s t
  | consumer (t : State S E) (h : ConsumerStep cfg s t) : Act cfg s t
  | dispatch (f : Feed.State) (h : Feed.Dispatches cfg.nPositions (FeedOpen cfg s) s.feed f) :
      Act cfg s { s with feed := f }

/-- The invocation may be cancelled at any time. -/
inductive Step (cfg : Config S E) (s : State S E) : State S E → Prop where
  | act (t : State S E) (h : Act cfg s t) : Step cfg s t
  | cancel : Step cfg s { s with cancelled := true }

variable (cfg : Config S E)

def Reachable (s : State S E) : Prop :=
  Relation.ReflTransGen (Step cfg) (start cfg) s

/-- What the run returns; a panic of a worker is raised again when the scope has joined it. -/
inductive Outcome (E : Type) where
  | returned (r : Except (Failure E) Unit)
  | panicked

/-- Every thread is joined and the run returns `o`. -/
def Terminated (cfg : Config S E) (s : State S E) (o : Outcome E) : Prop :=
  s.feed.dispatcher.Gone ∧ (∀ w, w < cfg.threads → (s.workers w).Gone) ∧
    ∃ r, s.consumer = .done r ∧
      (((∃ w, w < cfg.threads ∧ s.workers w = .panicked) ∧ o = .panicked) ∨
        ((∀ w, w < cfg.threads → s.workers w ≠ .panicked) ∧ o = .returned r))

/-- The entry: a cancelled invocation and an empty schedule start no thread. -/
inductive Returns (cfg : Config S E) : State S E → Outcome E → Prop where
  | cancelled : Returns cfg (start cfg) (.returned (.error .cancelled))
  | empty (h : cfg.nPositions = 0) : Returns cfg (start cfg) (.returned (.ok ()))
  | ran (s : State S E) (o : Outcome E) (h : 0 < cfg.nPositions) (hs : Reachable cfg s)
      (ho : Terminated cfg s o) : Returns cfg s o

/-- The state after working some positions, all of them successfully. -/
def accumulate : List Nat → Option S :=
  List.foldlM (fun a p => match cfg.work a p with
    | (b, .ok) => some b
    | _ => none) cfg.workerInit

/-- The positions a worker received. -/
def share (s : State S E) (w : Nat) : List Nat :=
  (s.given.filter fun x => decide (x.2 = w)).map Prod.fst

/-- What a worker that has not failed has in hand. -/
def Worker.inHand : Worker E → List Nat
  | .working p => [p]
  | _ => []

/-- Its failure is its own or the end of the invocation. -/
def Blame (s : State S E) (w : Nat) (f : Failure E) : Prop :=
  (f = .cancelled ∧ s.cancelled = true) ∨
    ∃ p a e, f = .failed e ∧ share s w = s.worked w ++ [p] ∧
      accumulate cfg (s.worked w) = some a ∧ (cfg.work a p).2 = .error e

def Worker.failure : Worker E → Option (Failure E)
  | .raising f => some f
  | .reporting f => some f
  | .failed f => some f
  | _ => none

/-- Failed or panicking. -/
def Worker.Broken (x : Worker E) : Prop :=
  x.failure ≠ none ∨ x = .unwinding ∨ x = .panicked

def Worker.Out (x : Worker E) : Prop := x = .delivering ∨ x = .delivered

structure Sound (cfg : Config S E) (s : State S E) : Prop where
  feed : Feed.Fine cfg.nPositions s.feed
  lock : ∀ w, s.feed.lock = some w → w < cfg.threads ∧ s.workers w = .receiving
  receiving : ∀ w, w < cfg.threads → s.workers w = .receiving → s.feed.lock = some w
  given : s.given.map Prod.fst = List.range (Feed.taken cfg.nPositions s.feed)
  givenTo : ∀ x ∈ s.given, x.2 < cfg.threads
  abandoned : ∀ p, s.feed.dispatcher = .failed p → ¬ FeedOpen cfg s
  state : ∀ w, accumulate cfg (s.worked w) = some (s.states w)
  shared : ∀ w, w < cfg.threads → ¬ (s.workers w).Broken →
    share s w = s.worked w ++ (s.workers w).inHand
  out : ∀ w, w < cfg.threads → (s.workers w).Out →
    s.feed.dispatcher = .finished ∧ s.feed.queue = []
  blame : ∀ w f, w < cfg.threads → (s.workers w).failure = some f → Blame cfg s w f
  stop : s.stop = true → ∃ w, w < cfg.threads ∧ (s.workers w).Broken
  stopped : ∀ w, w < cfg.threads → s.workers w = .stopped → s.stop = true
  itemOk : ∀ w a, ⟨w, .ok a⟩ ∈ s.results →
    w < cfg.threads ∧ s.workers w = .delivered ∧ a = s.states w
  itemError : ∀ w f, ⟨w, .error f⟩ ∈ s.results → w < cfg.threads ∧ s.workers w = .failed f
  mergedOf : ∀ x ∈ s.merged, x.1 < cfg.threads ∧ s.workers x.1 = .delivered ∧ x.2 = s.states x.1
  delivered : ∀ w, w < cfg.threads → s.workers w = .delivered →
    ⟨w, .ok (s.states w)⟩ ∈ s.results ∨ (w, s.states w) ∈ s.merged ∨
      ∃ f, s.consumer = .done (.error f)
  failed : ∀ w f, w < cfg.threads → s.workers w = .failed f →
    ⟨w, .error f⟩ ∈ s.results ∨ ∃ f, s.consumer = .done (.error f)
  closed : s.consumer = .done (.ok ()) → s.results = [] ∧ ∀ w, w < cfg.threads → (s.workers w).Gone
  ended : ∀ f, s.consumer = .done (.error f) → ∃ w, w < cfg.threads ∧ s.workers w = .failed f

end AccumulatePool
