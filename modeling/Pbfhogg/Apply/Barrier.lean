import Pbfhogg.Apply.NodeLocations
import Pbfhogg.Apply.Rewrite
import Pbfhogg.Lib.Reorder

/-!
# Scanner, workers and drain under `--locations-on-ways`

The stages of `apply-changes` as one step relation over the scanner's walk, the workers, their
coordinate slots, the drain and the channels. A step is what one thread does between two points
where another can be seen. Whether a candidate is rewritten depends on its elements, on which
nothing here rests, so both are allowed; so is a failure at any point.
-/

namespace ApplyBarrier

open OsmId BlobMeta OscSorted OscLookup NodeLocations Function

/-- An indexed blob with the nodes its payload decodes to. -/
structure LocBlob where
  index : BlobIndex
  nodes : List (Int64 × Coord)

structure Config where
  base : List LocBlob
  diff : SortedDiff
  route : ApplyRewrite.Route
  window : Nat
  candidateCapacity : Nat
  drainCapacity : Nat
  ignoreMissingNodes : Bool

inductive ScannedBlob where
  | candidate (seq : Nat)
  | passthrough (seq : Nat)

def ScannedBlob.seq : ScannedBlob → Nat
  | .candidate seq => seq
  | .passthrough seq => seq

/-- A blob as it leaves a worker or the scanner; a rewrite has read the map handle. -/
inductive DrainItem where
  | unchanged (seq : Nat)
  | rewritten (seq : Nat) (locMap : Option LocMap)

def DrainItem.seq : DrainItem → Nat
  | .unchanged seq => seq
  | .rewritten seq _ => seq

inductive DrainMessage where
  | item (d : DrainItem)
  | nodeBoundary (nodeEndSeq : Nat)

inductive ScannerPc where
  | walking
  | waiting
  | admitted
  | polling
  | finished

/-- A scanner that has returned an error is not running. -/
structure Scanner where
  pc : ScannerPc
  seq : Nat
  lastNodeSeq : Option Nat
  barrierSignalled : Bool
  running : Bool

inductive Worker where
  | idle
  | taken (b : ScannedBlob)
  | extracted (seq : Nat) (localCoords : LocMap)
  | flushed (seq : Nat)
  | ready (d : DrainItem)
  | finished
  | failed

inductive DrainLoc where
  | pending
  | published (map : LocMap)

inductive DrainPc where
  | receiving
  | advancing
  /-- Within `publish`, the slots below `next` taken. -/
  | merging (next : Nat) (merged : LocMap)
  /-- The handle is set, the scanner not yet signalled. -/
  | signalling (map : LocMap)
  | closing
  | finished

structure Drain where
  pc : DrainPc
  buffer : List (Nat × DrainItem)
  nextSeq : Nat
  nodeEndSeq : Option Nat
  loc : DrainLoc
  disconnected : Bool
  running : Bool
  refusal : Option Nat

structure State (W : Nat) where
  scanner : Scanner
  workers : Fin W → Worker
  coordSlots : Fin W → LocMap
  drain : Drain
  candidates : List ScannedBlob
  messages : List DrainMessage
  tokens : Nat
  signal : Bool
  locMap : Option LocMap
  failed : Bool
  /-- The text of an internal error that reports the protocol as broken. -/
  broken : Option String

namespace Config

variable (cfg : Config) (i : Nat)

def kindAt : Option ElementKind := cfg.base[i]?.map fun b => b.index.kind

def nodesAt : List (Int64 × Coord) := (cfg.base[i]?.map LocBlob.nodes).getD []

def locations : NodeLocationIndex := buildFromDiff cfg.diff

/-- The diff creates or modifies a node. -/
def refreshWays : Bool := !(cfg.diff.kind .node).ids.isEmpty

def lowMustDecompress : Bool :=
  cfg.kindAt i = some .node || (cfg.refreshWays && cfg.kindAt i = some .way)

def overlaps : Bool :=
  match cfg.base[i]? with
  | some b => rangeOverlaps cfg.diff b.index.kind b.index.minId b.index.maxId
  | none => false

/-- The scanner lets the blob pass undecoded. -/
def passes : Bool := !cfg.lowMustDecompress i && !cfg.overlaps i

def scannedBlob : ScannedBlob :=
  if cfg.passes i then .passthrough i else .candidate i

/-- A way blob a worker searches for stale coordinates before it decodes it. -/
def refreshScan : Bool :=
  cfg.refreshWays && cfg.kindAt i = some .way && !cfg.overlaps i

/-- What a worker has in its own map once it has decoded a candidate; none when a
kept node is out of the domain. -/
def localCoords : Option LocMap :=
  if cfg.kindAt i = some .node then extractNeeded cfg.locations.neededSet (cfg.nodesAt i)
  else some ∅

end Config

/-- `HashMap::extend`: the entries of `m` replace those of `shared`. -/
def extend (shared m : LocMap) : LocMap := m ∪ shared

def flushLocalCoords (slot localCoords : LocMap) : LocMap :=
  if localCoords.entries.isEmpty then slot
  else if slot.entries.isEmpty then localCoords
  else extend slot localCoords

def mergeSlot (merged slot : LocMap) : LocMap :=
  if merged.entries.isEmpty then slot else extend merged slot

/-- One past the last node, zero if there was none. -/
def nodeEndSeq (lastNodeSeq : Option Nat) : Nat := (lastNodeSeq.map fun seq => seq + 1).getD 0

def missingNodes (cfg : Config) (merged : LocMap) : Nat :=
  cfg.locations.totalReferenced - merged.entries.length

def start (cfg : Config) (W : Nat) : State W where
  scanner := ⟨.walking, 0, none, false, true⟩
  workers := fun _ => .idle
  coordSlots := fun _ => ∅
  drain := ⟨.receiving, [], 0, none, .pending, false, true, none⟩
  candidates := []
  messages := []
  tokens := cfg.window
  signal := false
  locMap := none
  failed := false
  broken := none

variable {W : Nat}

/-- The scanner's threads and senders are gone. -/
def Scanner.Ended (sc : Scanner) : Prop := sc.pc = .finished ∨ sc.running = false

def Worker.Ended : Worker → Prop
  | .finished => True
  | .failed => True
  | _ => False

/-- The barrier check after an advance. -/
def Drain.AtBarrier (d : Drain) : Prop :=
  d.loc = .pending ∧ ∃ e, d.nodeEndSeq = some e ∧ e ≤ d.nextSeq

def Drain.afterCheck (d : Drain) : DrainPc := if d.disconnected then .closing else .receiving

def boundaryTwice : String := "drain: the scanner sent its node boundary twice"

def earlyItem (kind : ElementKind) : String :=
  "drain: a " ++ kind.asStr ++ " item arrived before the node-to-way barrier"

def publishedBefore : String := "drain: the coordinate map was published before the barrier"

def signalOutsideWait : String := "scanner: barrier signal outside the barrier wait"

inductive ScannerStep (cfg : Config) (s : State W) : State W → Prop where
  /-- At the first way or relation, or at the end of the input. -/
  | sendBoundary (hrun : s.scanner.running = true) (hpc : s.scanner.pc = .walking)
      (hsig : s.scanner.barrierSignalled = false) (hkind : cfg.kindAt s.scanner.seq ≠ some .node)
      (hcap : s.messages.length < cfg.drainCapacity) :
      ScannerStep cfg s { s with
        scanner := { s.scanner with pc := .waiting }
        messages := s.messages ++ [.nodeBoundary (nodeEndSeq s.scanner.lastNodeSeq)] }
  | release (hrun : s.scanner.running = true) (hpc : s.scanner.pc = .waiting)
      (hsignal : s.signal = true) (hseq : s.scanner.seq < cfg.base.length) :
      ScannerStep cfg s { s with
        scanner := { s.scanner with pc := .walking, barrierSignalled := true }
        signal := false }
  | releaseAtEnd (hrun : s.scanner.running = true) (hpc : s.scanner.pc = .waiting)
      (hsignal : s.signal = true) (hseq : cfg.base.length ≤ s.scanner.seq) :
      ScannerStep cfg s { s with
        scanner := { s.scanner with pc := .finished }
        signal := false }
  /-- `window.admit` takes one token. -/
  | reserveSeq (tokens : Nat) (hrun : s.scanner.running = true) (hpc : s.scanner.pc = .walking)
      (hseq : s.scanner.seq < cfg.base.length)
      (hkind : cfg.kindAt s.scanner.seq = some .node ∨ s.scanner.barrierSignalled = true)
      (htokens : s.tokens = tokens + 1) :
      ScannerStep cfg s { s with
        scanner := { s.scanner with
          pc := .admitted
          lastNodeSeq := if cfg.kindAt s.scanner.seq = some .node then some s.scanner.seq
            else s.scanner.lastNodeSeq }
        tokens := tokens }
  /-- Past the workers, to be copied by the drain. -/
  | splice (hrun : s.scanner.running = true) (hpc : s.scanner.pc = .admitted)
      (hroute : cfg.route = .splice) (hpass : cfg.passes s.scanner.seq = true)
      (hcap : s.messages.length < cfg.drainCapacity) :
      ScannerStep cfg s { s with
        scanner := { s.scanner with pc := .polling, seq := s.scanner.seq + 1 }
        messages := s.messages ++ [.item (.unchanged s.scanner.seq)] }
  | dispatch (hrun : s.scanner.running = true) (hpc : s.scanner.pc = .admitted)
      (hroute : ¬ (cfg.route = .splice ∧ cfg.passes s.scanner.seq = true))
      (hcap : s.candidates.length < cfg.candidateCapacity) :
      ScannerStep cfg s { s with
        scanner := { s.scanner with pc := .polling, seq := s.scanner.seq + 1 }
        candidates := s.candidates ++ [cfg.scannedBlob s.scanner.seq] }
  | poll (hrun : s.scanner.running = true) (hpc : s.scanner.pc = .polling)
      (hsignal : s.signal = false) :
      ScannerStep cfg s { s with scanner := { s.scanner with pc := .walking } }
  | pollSignal (hrun : s.scanner.running = true) (hpc : s.scanner.pc = .polling)
      (hsignal : s.signal = true) :
      ScannerStep cfg s { s with
        scanner := { s.scanner with running := false }
        failed := true
        broken := some signalOutsideWait }
  | finish (hrun : s.scanner.running = true) (hpc : s.scanner.pc = .walking)
      (hseq : cfg.base.length ≤ s.scanner.seq) (hsig : s.scanner.barrierSignalled = true) :
      ScannerStep cfg s { s with scanner := { s.scanner with pc := .finished } }
  | fail (hrun : s.scanner.running = true) (hpc : s.scanner.pc ≠ .finished) :
      ScannerStep cfg s { s with
        scanner := { s.scanner with running := false }
        failed := true }

def State.setWorker (s : State W) (w : Fin W) (x : Worker) : State W :=
  { s with workers := update s.workers w x }

/-- The worker's coordinates go to its slot. -/
def State.flush (s : State W) (w : Fin W) (i : Nat) (coords : LocMap) : State W :=
  { s with
    workers := update s.workers w (.flushed i)
    coordSlots := update s.coordSlots w (flushLocalCoords (s.coordSlots w) coords) }

inductive WorkerStep (cfg : Config) (s : State W) (w : Fin W) : State W → Prop where
  | dequeue (b : ScannedBlob) (rest : List ScannedBlob) (hw : s.workers w = .idle)
      (hrest : s.candidates = b :: rest) :
      WorkerStep cfg s w { s.setWorker w (.taken b) with candidates := rest }
  | ownedPassthrough (i : Nat) (hw : s.workers w = .taken (.passthrough i)) :
      WorkerStep cfg s w (s.setWorker w (.ready (.unchanged i)))
  | cleanRefresh (i : Nat) (hw : s.workers w = .taken (.candidate i))
      (hscan : cfg.refreshScan i = true) :
      WorkerStep cfg s w (s.setWorker w (.ready (.unchanged i)))
  | extract (i : Nat) (coords : LocMap) (hw : s.workers w = .taken (.candidate i))
      (hcoords : cfg.localCoords i = some coords) :
      WorkerStep cfg s w (s.setWorker w (.extracted i coords))
  | flush (i : Nat) (coords : LocMap) (hw : s.workers w = .extracted i coords) :
      WorkerStep cfg s w (s.flush w i coords)
  | falsePositive (i : Nat) (hw : s.workers w = .flushed i) :
      WorkerStep cfg s w (s.setWorker w (.ready (.unchanged i)))
  | rewrite (i : Nat) (hw : s.workers w = .flushed i) :
      WorkerStep cfg s w (s.setWorker w (.ready (.rewritten i s.locMap)))
  | send (d : DrainItem) (hw : s.workers w = .ready d)
      (hcap : s.messages.length < cfg.drainCapacity) :
      WorkerStep cfg s w { s.setWorker w .idle with messages := s.messages ++ [.item d] }
  | exit (hw : s.workers w = .idle) (hrest : s.candidates = []) (hended : s.scanner.Ended) :
      WorkerStep cfg s w (s.setWorker w .finished)
  | fail (hw : ¬ (s.workers w).Ended) :
      WorkerStep cfg s w { s.setWorker w .failed with failed := true }

/-- The drain takes a slot whole and leaves it empty. -/
def State.takeSlot (s : State W) (w : Fin W) (merged : LocMap) : State W :=
  { s with
    drain := { s.drain with pc := .merging (w + 1) (mergeSlot merged (s.coordSlots w)) }
    coordSlots := update s.coordSlots w ∅ }

def State.stopDrain (s : State W) : State W :=
  { s with drain := { s.drain with running := false } }

inductive DrainStep (cfg : Config) (s : State W) : State W → Prop where
  | receiveItem (d : DrainItem) (rest : List DrainMessage) (hrun : s.drain.running = true)
      (hpc : s.drain.pc = .receiving) (hmsg : s.messages = .item d :: rest) :
      DrainStep cfg s { s with
        drain := { s.drain with pc := .advancing, buffer := Reorder.insert s.drain.buffer d.seq d }
        messages := rest }
  | receiveBoundary (e : Nat) (rest : List DrainMessage) (hrun : s.drain.running = true)
      (hpc : s.drain.pc = .receiving) (hmsg : s.messages = .nodeBoundary e :: rest)
      (hfirst : s.drain.nodeEndSeq = none) :
      DrainStep cfg s { s with
        drain := { s.drain with pc := .advancing, nodeEndSeq := some e }
        messages := rest }
  | boundaryTwice (e : Nat) (rest : List DrainMessage) (hrun : s.drain.running = true)
      (hpc : s.drain.pc = .receiving) (hmsg : s.messages = .nodeBoundary e :: rest)
      (hagain : s.drain.nodeEndSeq ≠ none) :
      DrainStep cfg s { s.stopDrain with broken := some boundaryTwice }
  | timeout (hrun : s.drain.running = true) (hpc : s.drain.pc = .receiving) :
      DrainStep cfg s { s with drain := { s.drain with pc := .advancing } }
  | disconnect (hrun : s.drain.running = true) (hpc : s.drain.pc = .receiving)
      (hmsg : s.messages = []) (hscanner : s.scanner.Ended)
      (hworkers : ∀ w, (s.workers w).Ended) :
      DrainStep cfg s { s with drain := { s.drain with pc := .advancing, disconnected := true } }
  | process (d : DrainItem) (hrun : s.drain.running = true) (hpc : s.drain.pc = .advancing)
      (hnext : s.drain.buffer.lookup s.drain.nextSeq = some d)
      (hkind : s.drain.loc = .pending → cfg.kindAt d.seq = some .node) :
      DrainStep cfg s { s with
        drain := { s.drain with
          buffer := Reorder.remove s.drain.buffer s.drain.nextSeq
          nextSeq := s.drain.nextSeq + 1 }
        tokens := s.tokens + 1 }
  | earlyItem (d : DrainItem) (kind : ElementKind) (hrun : s.drain.running = true)
      (hpc : s.drain.pc = .advancing)
      (hnext : s.drain.buffer.lookup s.drain.nextSeq = some d) (hloc : s.drain.loc = .pending)
      (hkind : cfg.kindAt d.seq = some kind) (hne : kind ≠ .node) :
      DrainStep cfg s { s.stopDrain with broken := some (earlyItem kind) }
  | settle (hrun : s.drain.running = true) (hpc : s.drain.pc = .advancing)
      (hnext : s.drain.buffer.lookup s.drain.nextSeq = none) (hbarrier : ¬ s.drain.AtBarrier) :
      DrainStep cfg s { s with drain := { s.drain with pc := s.drain.afterCheck } }
  | barrier (hrun : s.drain.running = true) (hpc : s.drain.pc = .advancing)
      (hnext : s.drain.buffer.lookup s.drain.nextSeq = none) (hbarrier : s.drain.AtBarrier) :
      DrainStep cfg s { s with
        drain := { s.drain with pc := .merging 0 cfg.locations.locations } }
  | takeSlot (w : Fin W) (merged : LocMap) (hrun : s.drain.running = true)
      (hpc : s.drain.pc = .merging w merged) :
      DrainStep cfg s (s.takeSlot w merged)
  /-- The missing-node refusal, outranked by a failure already published. -/
  | refuse (merged : LocMap) (hrun : s.drain.running = true) (hpc : s.drain.pc = .merging W merged)
      (hmissing : missingNodes cfg merged ≠ 0) (hstrict : cfg.ignoreMissingNodes = false)
      (hfailed : s.failed = false) :
      DrainStep cfg s { s with
        drain := { s.drain with running := false, refusal := some (missingNodes cfg merged) } }
  | publish (merged : LocMap) (hrun : s.drain.running = true)
      (hpc : s.drain.pc = .merging W merged)
      (hmissing : missingNodes cfg merged = 0 ∨ cfg.ignoreMissingNodes = true)
      (hunset : s.locMap = none) :
      DrainStep cfg s { s with
        drain := { s.drain with pc := .signalling merged }
        locMap := some merged }
  | publishedBefore (merged : LocMap) (hrun : s.drain.running = true)
      (hpc : s.drain.pc = .merging W merged)
      (hmissing : missingNodes cfg merged = 0 ∨ cfg.ignoreMissingNodes = true)
      (hset : s.locMap ≠ none) :
      DrainStep cfg s { s.stopDrain with broken := some publishedBefore }
  | signalScanner (map : LocMap) (hrun : s.drain.running = true)
      (hpc : s.drain.pc = .signalling map) :
      DrainStep cfg s { s with
        drain := { s.drain with pc := s.drain.afterCheck, loc := .published map }
        signal := true }
  | finish (hrun : s.drain.running = true) (hpc : s.drain.pc = .closing)
      (hfailed : s.failed = false) (hbuffer : s.drain.buffer = []) :
      DrainStep cfg s { s with drain := { s.drain with pc := .finished } }
  | stop (hrun : s.drain.running = true) (hpc : s.drain.pc ≠ .finished) :
      DrainStep cfg s s.stopDrain

inductive Step (cfg : Config) (s t : State W) : Prop where
  | scanner (h : ScannerStep cfg s t)
  | worker (w : Fin W) (h : WorkerStep cfg s w t)
  | drain (h : DrainStep cfg s t)

def Reachable (cfg : Config) (s : State W) : Prop :=
  Relation.ReflTransGen (Step cfg) (start cfg W) s

end ApplyBarrier
