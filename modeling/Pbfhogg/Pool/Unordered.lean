import Pbfhogg.Lib.Indexed
import Pbfhogg.Pool.Feed

/-!
# The unordered pool

`run_unordered_per_blob` of `scan/classify.rs` as a step relation: workers receive positions from
the feed, work and send; the calling thread merges the results as they arrive, checking for
cancellation around each receive. A merge may ask to stop, which drops the result receiver.
-/

namespace UnorderedPool

variable {L R E : Type}

def poolResultChannelDepth : Nat := 32

/-- How the work on one blob ends. -/
inductive BlobEnd (R E : Type) where
  | ok (r : R)
  | error (e : E)
  | panicked

/-- A run over a schedule. Work uses and changes its worker's own state, and
whether a merge asks to stop may depend on what was merged before. -/
structure Config (L R E : Type) where
  nPositions : Nat
  threads : Nat
  threads_pos : 0 < threads
  locals : L
  work : L → Nat → L × BlobEnd R E
  breaks : List (Nat × R) → Nat → R → Bool

inductive Worker (R E : Type) where
  | locking
  | receiving
  | working (position : Nat)
  | sending (position : Nat) (r : Except E R)
  /-- The dispatcher is done and the channel empty. -/
  | exhausted
  /-- Its send failed. -/
  | cut
  | panicked

def Worker.Gone : Worker R E → Prop
  | .exhausted => True
  | .cut => True
  | .panicked => True
  | _ => False

inductive Failure (E : Type) where
  | cancelled
  | failed (e : E)

inductive Ending (E : Type) where
  /-- The result channel closed. -/
  | complete
  | broken
  | failed (f : Failure E)

inductive Consumer (R E : Type) where
  | checking
  | waiting
  /-- What the receive gave, before the second check. -/
  | arrived (item : Option (Nat × Except E R))
  | merging (position : Nat) (r : R)
  /-- The loop has ended and the result receiver is gone. -/
  | done (e : Ending E)

structure State (L R E : Type) where
  feed : Feed.State
  workers : Nat → Worker R E
  locals : Nat → L
  results : List (Nat × Except E R)
  consumer : Consumer R E
  cancelled : Bool
  /-- History: what merge was handed. -/
  merged : List (Nat × R)

def start (cfg : Config L R E) : State L R E where
  feed := Feed.start
  workers := fun _ => .locking
  locals := fun _ => cfg.locals
  results := []
  consumer := .checking
  cancelled := false
  merged := []

def State.setWorker (s : State L R E) (w : Nat) (x : Worker R E) : State L R E :=
  { s with workers := Function.update s.workers w x }

variable (cfg : Config L R E)

/-- Some worker still holds the descriptor receiver. -/
def FeedOpen (s : State L R E) : Prop :=
  ∃ w, w < cfg.threads ∧ ¬ (s.workers w).Gone

def Listening (s : State L R E) : Prop := ∀ e, s.consumer ≠ .done e

def blobResult : BlobEnd R E → Option (Except E R)
  | .ok r => some (.ok r)
  | .error e => some (.error e)
  | .panicked => none

inductive WorkerStep (cfg : Config L R E) (s : State L R E) (w : Nat) : State L R E → Prop where
  | lock (hw : s.workers w = .locking) (hfree : s.feed.lock = none) :
      WorkerStep cfg s w ({ s with feed := { s.feed with lock := some w } }.setWorker w .receiving)
  | receive (p : Nat) (f : Feed.State) (hw : s.workers w = .receiving)
      (hr : Feed.Receives w s.feed (some p) f) :
      WorkerStep cfg s w ({ s with feed := f }.setWorker w (.working p))
  | closed (f : Feed.State) (hw : s.workers w = .receiving)
      (hr : Feed.Receives w s.feed none f) :
      WorkerStep cfg s w ({ s with feed := f }.setWorker w .exhausted)
  | work (p : Nat) (r : Except E R) (hw : s.workers w = .working p)
      (hr : blobResult (cfg.work (s.locals w) p).2 = some r) :
      WorkerStep cfg s w
        ({ s with locals := Function.update s.locals w (cfg.work (s.locals w) p).1 }.setWorker w
          (.sending p r))
  | panic (p : Nat) (hw : s.workers w = .working p)
      (hr : blobResult (cfg.work (s.locals w) p).2 = none) :
      WorkerStep cfg s w (s.setWorker w .panicked)
  | send (p : Nat) (r : Except E R) (hw : s.workers w = .sending p r) (hopen : Listening s)
      (hroom : s.results.length < poolResultChannelDepth) :
      WorkerStep cfg s w ({ s with results := s.results ++ [(p, r)] }.setWorker w .locking)
  | sendFails (p : Nat) (r : Except E R) (e : Ending E) (hw : s.workers w = .sending p r)
      (hclosed : s.consumer = .done e) : WorkerStep cfg s w (s.setWorker w .cut)

inductive ConsumerStep (cfg : Config L R E) (s : State L R E) : State L R E → Prop where
  | check (hc : s.consumer = .checking) (hok : s.cancelled = false) :
      ConsumerStep cfg s { s with consumer := .waiting }
  | checkFails (hc : s.consumer = .checking) (hcancel : s.cancelled = true) :
      ConsumerStep cfg s { s with consumer := .done (.failed .cancelled) }
  | receive (x : Nat × Except E R) (rest : List (Nat × Except E R)) (hc : s.consumer = .waiting)
      (hres : s.results = x :: rest) :
      ConsumerStep cfg s { s with consumer := .arrived (some x), results := rest }
  /-- Every sender is gone and the channel is empty. -/
  | disconnect (hc : s.consumer = .waiting) (hres : s.results = [])
      (hgone : ∀ w, w < cfg.threads → (s.workers w).Gone) :
      ConsumerStep cfg s { s with consumer := .arrived none }
  | arrivedFails (item : Option (Nat × Except E R)) (hc : s.consumer = .arrived item)
      (hcancel : s.cancelled = true) :
      ConsumerStep cfg s { s with consumer := .done (.failed .cancelled) }
  | complete (hc : s.consumer = .arrived none) (hok : s.cancelled = false) :
      ConsumerStep cfg s { s with consumer := .done .complete }
  | failure (p : Nat) (e : E) (hc : s.consumer = .arrived (some (p, .error e)))
      (hok : s.cancelled = false) :
      ConsumerStep cfg s { s with consumer := .done (.failed (.failed e)) }
  | accept (p : Nat) (r : R) (hc : s.consumer = .arrived (some (p, .ok r)))
      (hok : s.cancelled = false) :
      ConsumerStep cfg s { s with consumer := .merging p r }
  | merge (p : Nat) (r : R) (hc : s.consumer = .merging p r)
      (hgo : cfg.breaks s.merged p r = false) :
      ConsumerStep cfg s { s with consumer := .checking, merged := s.merged ++ [(p, r)] }
  | mergeBreaks (p : Nat) (r : R) (hc : s.consumer = .merging p r)
      (hstop : cfg.breaks s.merged p r = true) :
      ConsumerStep cfg s { s with consumer := .done .broken, merged := s.merged ++ [(p, r)] }

/-- A step of one of the pool's own threads. -/
inductive Act (cfg : Config L R E) (s : State L R E) : State L R E → Prop where
  | worker (w : Nat) (hw : w < cfg.threads) (t : State L R E) (h : WorkerStep cfg s w t) :
      Act cfg s t
  | consumer (t : State L R E) (h : ConsumerStep cfg s t) : Act cfg s t
  | dispatch (f : Feed.State) (h : Feed.Dispatches cfg.nPositions (FeedOpen cfg s) s.feed f) :
      Act cfg s { s with feed := f }

/-- The invocation may be cancelled at any time. -/
inductive Step (cfg : Config L R E) (s : State L R E) : State L R E → Prop where
  | act (t : State L R E) (h : Act cfg s t) : Step cfg s t
  | cancel : Step cfg s { s with cancelled := true }

def Reachable (s : State L R E) : Prop :=
  Relation.ReflTransGen (Step cfg) (start cfg) s

/-- What the run returns; a panic of a worker is raised again when the scope has joined it. -/
inductive Outcome (E : Type) where
  | ok
  | error (f : Failure E)
  | panicked

def Ending.outcome : Ending E → Outcome E
  | .complete => .ok
  | .broken => .ok
  | .failed f => .error f

/-- Every thread is joined and the run returns `o`. -/
def Terminated (cfg : Config L R E) (s : State L R E) (o : Outcome E) : Prop :=
  s.feed.dispatcher.Gone ∧ (∀ w, w < cfg.threads → (s.workers w).Gone) ∧
    ∃ e, s.consumer = .done e ∧
      (((∃ w, w < cfg.threads ∧ s.workers w = .panicked) ∧ o = .panicked) ∨
        ((∀ w, w < cfg.threads → s.workers w ≠ .panicked) ∧ o = e.outcome))

/-- The entry: a cancelled invocation and an empty schedule start no thread. -/
inductive Returns (cfg : Config L R E) : State L R E → Outcome E → Prop where
  | cancelled : Returns cfg (start cfg) (.error .cancelled)
  | empty (h : cfg.nPositions = 0) : Returns cfg (start cfg) .ok
  | ran (s : State L R E) (o : Outcome E) (h : 0 < cfg.nPositions) (hs : Reachable cfg s)
      (ho : Terminated cfg s o) : Returns cfg s o

def Worker.holds : Worker R E → Nat → Nat
  | .working q, p => if q = p then 1 else 0
  | .sending q _, p => if q = p then 1 else 0
  | _, _ => 0

def Consumer.holds : Consumer R E → Nat → Nat
  | .arrived (some x), p => if x.1 = p then 1 else 0
  | .merging q _, p => if q = p then 1 else 0
  | _, _ => 0

def held (s : State L R E) (p : Nat) : Nat :=
  ∑ w ∈ Finset.range cfg.threads, (s.workers w).holds p

/-- How often a position is with a worker, on the result channel, with the consumer or merged. -/
def load (s : State L R E) (p : Nat) : Nat :=
  held cfg s p + s.results.countP (fun x => decide (x.1 = p)) + s.consumer.holds p +
    s.merged.countP (fun x => decide (x.1 = p))

/-- No result has been dropped. -/
def Lossless (s : State L R E) : Prop :=
  (∀ e, s.consumer = .done e → e = .complete) ∧ ∀ w, w < cfg.threads → s.workers w ≠ .panicked

/-- The result is one the work on the position gives. -/
def Own (cfg : Config L R E) (p : Nat) (r : Except E R) : Prop :=
  ∃ l, blobResult (cfg.work l p).2 = some r

structure Sound (cfg : Config L R E) (s : State L R E) : Prop where
  feed : Feed.Fine cfg.nPositions s.feed
  lock : ∀ w, s.feed.lock = some w → w < cfg.threads ∧ s.workers w = .receiving
  receiving : ∀ w, w < cfg.threads → s.workers w = .receiving → s.feed.lock = some w
  once : ∀ p, load cfg s p ≤ 1
  ahead : ∀ p, Feed.taken cfg.nPositions s.feed ≤ p → load cfg s p = 0
  kept : Lossless cfg s → ∀ p, p < Feed.taken cfg.nPositions s.feed → load cfg s p = 1
  exhausted : ∀ w, w < cfg.threads → s.workers w = .exhausted →
    s.feed.dispatcher = .finished ∧ s.feed.queue = []
  abandoned : ∀ p, s.feed.dispatcher = .failed p → ¬ FeedOpen cfg s
  cut : ∀ w, w < cfg.threads → s.workers w = .cut → ∃ e, s.consumer = .done e ∧ e ≠ .complete
  closed : s.consumer = .arrived none ∨ s.consumer = .done .complete →
    s.results = [] ∧ ∀ w, w < cfg.threads → (s.workers w).Gone
  sent : ∀ w p r, w < cfg.threads → s.workers w = .sending p r → Own cfg p r
  queued : ∀ x ∈ s.results, Own cfg x.1 x.2
  arrived : ∀ x, s.consumer = .arrived (some x) → Own cfg x.1 x.2
  merging : ∀ p r, s.consumer = .merging p r → Own cfg p (.ok r)
  merged : ∀ x ∈ s.merged, Own cfg x.1 (.ok x.2)
  broken : s.consumer = .done .broken →
    ∃ init p r, s.merged = init ++ [(p, r)] ∧ cfg.breaks init p r = true

end UnorderedPool
