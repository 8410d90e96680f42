import Pbfhogg.Apply.Barrier

/-!
# What the scanner and the workers keep true

Where every blob is and what is known of it there, what the coordinate slots and the merged map
hold, and how far the scanner and the drain are with the barrier. A node blob's coordinates are in a
slot before its item is on its way; the scanner holds back the first way until it has been told that
the map is out.
-/

namespace BarrierInvariant

open OscLookup NodeLocations ApplyBarrier List Function

variable (base : List LocBlob)

/-- No node blob after a way or relation blob. -/
def NodesFirst : Prop :=
  base.Pairwise fun a b => b.index.kind = .node → a.index.kind = .node

/-- The nodes of the node blobs of the base. -/
def baseNodes : List (Int64 × Coord) :=
  (base.filter fun b => b.index.kind = .node).flatMap LocBlob.nodes

def DistinctNodes : Prop := ((baseNodes base).map Prod.fst).Nodup

/-- The coordinates of the referenced nodes the diff upserts, and the base's
coordinates of the nodes still needed. -/
def Exact (cfg : Config) (m : LocMap) : Prop :=
  ∀ id c, m.lookup id = some c ↔
    id ∈ allNeeded cfg.diff ∧ oscCoord cfg.diff id = some c ∨
      id ∈ cfg.locations.neededSet ∧ (id, c) ∈ baseNodes cfg.base

/-- The diff deletes the node, or neither it nor the base has it. -/
def isUnresolved (cfg : Config) (id : Int64) : Bool :=
  decide (id ∈ (cfg.diff.kind .node).deleted) ||
    (!decide (id ∈ (cfg.diff.kind .node).ids) && !decide (id ∈ (baseNodes cfg.base).map Prod.fst))

def unresolved (cfg : Config) : List Int64 := (allNeeded cfg.diff).filter (isUnresolved cfg)

section Maps

variable {m n : LocMap} {id : Int64} {c : Coord}

lemma lookup_of_mem (h : id ∈ m) : ∃ c, m.lookup id = some c :=
  Option.isSome_iff_exists.mp (AList.lookup_isSome.mpr h)

lemma mem_of_lookup (h : m.lookup id = some c) : id ∈ m :=
  AList.lookup_isSome.mp (by rw [h]; rfl)

lemma not_mem_of_isEmpty (h : m.entries.isEmpty = true) : id ∉ m := by
  have hnil : m.keys = [] := by simp [AList.keys, List.isEmpty_iff.mp h]
  simp [AList.mem_keys, hnil]

lemma mem_extend : id ∈ extend m n ↔ id ∈ n ∨ id ∈ m := AList.mem_union

lemma lookup_extend (h : (extend m n).lookup id = some c) :
    n.lookup id = some c ∨ m.lookup id = some c := by
  rcases AList.lookup_union_eq_some.mp h with h | h
  · exact .inl h
  · exact .inr h.2

lemma mem_flushLocalCoords : id ∈ flushLocalCoords m n ↔ id ∈ n ∨ id ∈ m := by
  unfold flushLocalCoords
  by_cases hn : n.entries.isEmpty = true
  · simp [hn, not_mem_of_isEmpty hn]
  · by_cases hm : m.entries.isEmpty = true
    · simp [hn, hm, not_mem_of_isEmpty hm]
    · simp [hn, hm, mem_extend]

lemma lookup_flushLocalCoords (h : (flushLocalCoords m n).lookup id = some c) :
    n.lookup id = some c ∨ m.lookup id = some c := by
  unfold flushLocalCoords at h
  split at h
  · exact .inr h
  · split at h
    · exact .inl h
    · exact lookup_extend h

lemma mem_mergeSlot : id ∈ mergeSlot m n ↔ id ∈ n ∨ id ∈ m := by
  unfold mergeSlot
  by_cases hm : m.entries.isEmpty = true
  · simp [hm, not_mem_of_isEmpty hm]
  · simp [hm, mem_extend]

lemma lookup_mergeSlot (h : (mergeSlot m n).lookup id = some c) :
    n.lookup id = some c ∨ m.lookup id = some c := by
  unfold mergeSlot at h
  split at h
  · exact .inl h
  · exact lookup_extend h

end Maps

variable {cfg : Config}

lemma mem_baseNodes {p : Int64 × Coord} :
    p ∈ baseNodes cfg.base ↔ ∃ i, cfg.kindAt i = some .node ∧ p ∈ cfg.nodesAt i := by
  rw [baseNodes, mem_flatMap]
  constructor
  · rintro ⟨b, hb, hp⟩
    obtain ⟨hbase, hkind⟩ := mem_filter.mp hb
    obtain ⟨i, hi⟩ := mem_iff_getElem?.mp hbase
    refine ⟨i, ?_, ?_⟩
    · simpa [Config.kindAt, hi] using hkind
    · simpa [Config.nodesAt, hi] using hp
  · rintro ⟨i, hkind, hp⟩
    cases hi : cfg.base[i]? with
    | none => simp [Config.kindAt, hi] at hkind
    | some b =>
      refine ⟨b, mem_filter.mpr ⟨mem_of_getElem? hi, ?_⟩, ?_⟩
      · simpa [Config.kindAt, hi] using hkind
      · simpa [Config.nodesAt, hi] using hp

variable {i : Nat}

lemma nodesAt_nodup (h : DistinctNodes cfg.base) (hkind : cfg.kindAt i = some .node) :
    ((cfg.nodesAt i).map Prod.fst).Nodup := by
  cases hi : cfg.base[i]? with
  | none => simp [Config.kindAt, hi] at hkind
  | some b =>
    have hmem : b ∈ cfg.base.filter fun b => b.index.kind = .node := by
      refine mem_filter.mpr ⟨mem_of_getElem? hi, ?_⟩
      simpa [Config.kindAt, hi] using hkind
    have hsub : (cfg.nodesAt i).Sublist (baseNodes cfg.base) := by
      rw [baseNodes, flatMap_def]
      apply sublist_flatten_of_mem
      exact mem_map.mpr ⟨b, hmem, by simp [Config.nodesAt, hi]⟩
    exact h.sublist (hsub.map _)

/-- An id has one coordinate in the base. -/
lemma coord_unique (h : DistinctNodes cfg.base) {id : Int64} {c d : Coord}
    (hc : (id, c) ∈ baseNodes cfg.base) (hd : (id, d) ∈ baseNodes cfg.base) : c = d := by
  have heq := inj_on_of_nodup_map h hc hd rfl
  exact (Prod.mk.inj heq).2

/-- Past a blob that is no node there is none. -/
lemma no_node_from (h : NodesFirst cfg.base) {n i : Nat} (hn : cfg.kindAt n ≠ some .node)
    (hi : cfg.kindAt i = some .node) : i < n := by
  by_contra hle
  apply hn
  cases hget : cfg.base[i]? with
  | none => simp [Config.kindAt, hget] at hi
  | some b =>
    obtain ⟨hlt, hval⟩ := List.getElem?_eq_some_iff.mp hget
    by_cases heq : n = i
    · rw [heq]
      exact hi
    · have hkind := pairwise_iff_getElem.mp h n i (by omega) hlt (by omega)
      have hb : b.index.kind = .node := by simpa [Config.kindAt, hget] using hi
      rw [hval] at hkind
      have hn' : n < cfg.base.length := by omega
      simp [Config.kindAt, getElem?_eq_getElem hn', hkind hb]

lemma localCoords_of_not_node {coords : LocMap} (hkind : cfg.kindAt i ≠ some .node)
    (h : cfg.localCoords i = some coords) : coords = ∅ := by
  rw [Config.localCoords, if_neg hkind] at h
  exact (Option.some.inj h).symm

lemma lookup_localCoords (hdistinct : DistinctNodes cfg.base) {coords : LocMap}
    (hkind : cfg.kindAt i = some .node) (h : cfg.localCoords i = some coords) (id : Int64)
    (c : Coord) :
    coords.lookup id = some c ↔ id ∈ cfg.locations.neededSet ∧ (id, c) ∈ cfg.nodesAt i := by
  rw [Config.localCoords, if_pos hkind] at h
  exact extractNeeded_spec (nodesAt_nodup hdistinct hkind) h id c

lemma oscCoord_isSome (hdiff : DiffSorted cfg.diff) {id : Int64} :
    (∃ c, oscCoord cfg.diff id = some c) ↔ id ∈ (cfg.diff.kind .node).ids := by
  constructor
  · rintro ⟨c, hc⟩
    by_contra hout
    rw [oscCoord_eq_none hout] at hc
    cases hc
  · intro hin
    exact ⟨_, oscCoord_of_mem hdiff hin⟩

lemma mem_exact (hdiff : DiffSorted cfg.diff) {m : LocMap} (h : Exact cfg m) {id : Int64} :
    id ∈ m ↔ id ∈ allNeeded cfg.diff ∧ (id ∈ (cfg.diff.kind .node).ids ∨
      id ∉ (cfg.diff.kind .node).deleted ∧ id ∈ (baseNodes cfg.base).map Prod.fst) := by
  have hneeded : id ∈ cfg.locations.neededSet ↔ _ := mem_neededSet hdiff id
  constructor
  · intro hid
    obtain ⟨c, hc⟩ := lookup_of_mem hid
    rcases (h id c).mp hc with ⟨hall, hosc⟩ | ⟨hneed, hbase⟩
    · exact ⟨hall, .inl ((oscCoord_isSome hdiff).mp ⟨c, hosc⟩)⟩
    · obtain ⟨hall, _, hdel⟩ := hneeded.mp hneed
      exact ⟨hall, .inr ⟨hdel, mem_map.mpr ⟨_, hbase, rfl⟩⟩⟩
  · rintro ⟨hall, hin | ⟨hdel, hbase⟩⟩
    · obtain ⟨c, hc⟩ := (oscCoord_isSome hdiff).mpr hin
      exact mem_of_lookup ((h id c).mpr (.inl ⟨hall, hc⟩))
    · by_cases hin : id ∈ (cfg.diff.kind .node).ids
      · obtain ⟨c, hc⟩ := (oscCoord_isSome hdiff).mpr hin
        exact mem_of_lookup ((h id c).mpr (.inl ⟨hall, hc⟩))
      · obtain ⟨p, hp, rfl⟩ := mem_map.mp hbase
        exact mem_of_lookup ((h p.1 p.2).mpr (.inr ⟨hneeded.mpr ⟨hall, hin, hdel⟩, hp⟩))

/-- The missing-node count of an exact map. -/
lemma missingNodes_exact (hdiff : DiffSorted cfg.diff) {m : LocMap} (h : Exact cfg m) :
    missingNodes cfg m = (unresolved cfg).length := by
  have hperm : m.keys.Perm ((allNeeded cfg.diff).filter fun id => !isUnresolved cfg id) := by
    apply (perm_ext_iff_of_nodup m.keys_nodup ((allNeeded_nodup _).filter _)).mpr
    intro id
    rw [← AList.mem_keys, mem_exact hdiff h, mem_filter]
    have hdisj := (hdiff .node).disjoint id
    by_cases hin : id ∈ (cfg.diff.kind .node).ids
    · simp [isUnresolved, hin, hdisj hin]
    · simp [isUnresolved, hin]
  have hlen : m.entries.length = m.keys.length := by simp [AList.keys, keys]
  have hsplit := length_eq_length_filter_add (l := allNeeded cfg.diff) (isUnresolved cfg)
  have htotal : cfg.locations.totalReferenced = (allNeeded cfg.diff).length := rfl
  rw [missingNodes, hlen, hperm.length_eq, unresolved]
  omega

variable {W : Nat} {s t : State W}

/-- The drain has not begun to take the slots. -/
def Before (s : State W) : Prop :=
  s.locMap = none ∧ ∀ k merged, s.drain.pc ≠ .merging k merged

def Kept (s : State W) (id : Int64) : Prop := ∃ w, id ∈ s.coordSlots w

/-- What a step may do to the facts the others rest on. -/
structure Grows (s t : State W) : Prop where
  seq : s.scanner.seq ≤ t.scanner.seq
  locMap : ∀ m, s.locMap = some m → t.locMap = some m
  slots : Before t → Before s ∧ ∀ id, Kept s id → Kept t id

/-- A step that leaves the handle and the slots alone. -/
lemma Grows.of_same (hseq : s.scanner.seq ≤ t.scanner.seq) (hmap : t.locMap = s.locMap)
    (hslots : t.coordSlots = s.coordSlots)
    (hpc : ∀ k merged, s.drain.pc = .merging k merged → t.drain.pc = .merging k merged) :
    Grows s t := by
  refine ⟨hseq, fun m hm => hmap.trans hm, ?_⟩
  rintro ⟨hnone, hne⟩
  refine ⟨⟨hmap.symm.trans hnone, fun k merged h => hne k merged (hpc k merged h)⟩, ?_⟩
  rintro id ⟨w, hw⟩
  exact ⟨w, by rw [hslots]; exact hw⟩

/-- The blob is past the flush: a node's coordinates are in a slot. -/
def Sent (cfg : Config) (s : State W) (i : Nat) : Prop :=
  i < s.scanner.seq ∧ (Before s → cfg.kindAt i = some .node →
    ∀ p ∈ cfg.nodesAt i, p.1 ∈ cfg.locations.neededSet → Kept s p.1)

/-- A way or relation was rewritten with the map that is published. -/
def GoodItem (cfg : Config) (s : State W) (d : DrainItem) : Prop :=
  Sent cfg s d.seq ∧ ∀ i m, d = .rewritten i m → cfg.kindAt i ≠ some .node →
    m = s.locMap ∧ m ≠ none

def GoodBlob (cfg : Config) (s : State W) : ScannedBlob → Prop
  | .candidate i => i < s.scanner.seq
  | .passthrough i => i < s.scanner.seq ∧ cfg.kindAt i ≠ some .node

def GoodWorker (cfg : Config) (s : State W) : Worker → Prop
  | .taken b => GoodBlob cfg s b
  | .extracted i coords => i < s.scanner.seq ∧ cfg.localCoords i = some coords
  | .flushed i => Sent cfg s i
  | .ready d => GoodItem cfg s d
  | .idle => True
  | .finished => True
  | .failed => True

def NodesBelow (cfg : Config) (e : Nat) : Prop := ∀ i, cfg.kindAt i = some .node → i < e

def GoodMessage (cfg : Config) (s : State W) : DrainMessage → Prop
  | .item d => GoodItem cfg s d
  | .nodeBoundary e => NodesBelow cfg e

lemma Sent.mono (g : Grows s t) (h : Sent cfg s i) : Sent cfg t i := by
  refine ⟨lt_of_lt_of_le h.1 g.seq, ?_⟩
  intro hbefore hkind p hp hneed
  obtain ⟨hb, hkept⟩ := g.slots hbefore
  exact hkept _ (h.2 hb hkind p hp hneed)

lemma GoodItem.mono (g : Grows s t) {d : DrainItem} (h : GoodItem cfg s d) : GoodItem cfg t d := by
  refine ⟨h.1.mono g, ?_⟩
  intro i m hd hkind
  obtain ⟨hm, hne⟩ := h.2 i m hd hkind
  obtain ⟨x, rfl⟩ := Option.ne_none_iff_exists'.mp hne
  exact ⟨(g.locMap x hm.symm).symm, hne⟩

lemma GoodBlob.mono (g : Grows s t) {b : ScannedBlob} (h : GoodBlob cfg s b) : GoodBlob cfg t b := by
  cases b with
  | candidate i => exact lt_of_lt_of_le h g.seq
  | passthrough i => exact ⟨lt_of_lt_of_le h.1 g.seq, h.2⟩

lemma GoodWorker.mono (g : Grows s t) {x : Worker} (h : GoodWorker cfg s x) :
    GoodWorker cfg t x := by
  cases x with
  | taken b => exact GoodBlob.mono g h
  | extracted i coords => exact ⟨lt_of_lt_of_le h.1 g.seq, h.2⟩
  | flushed i => exact Sent.mono g h
  | ready d => exact GoodItem.mono g h
  | idle => trivial
  | finished => trivial
  | failed => trivial

lemma GoodMessage.mono (g : Grows s t) {x : DrainMessage} (h : GoodMessage cfg s x) :
    GoodMessage cfg t x := by
  cases x with
  | item d => exact GoodItem.mono g h
  | nodeBoundary e => exact h

/-- Where every blob is, from the candidate channel to the drain's cursor. -/
structure Items (cfg : Config) (s : State W) : Prop where
  candidates : ∀ b ∈ s.candidates, GoodBlob cfg s b
  workers : ∀ w, GoodWorker cfg s (s.workers w)
  messages : ∀ x ∈ s.messages, GoodMessage cfg s x
  buffer : ∀ p ∈ s.drain.buffer, p.1 = p.2.seq ∧ GoodItem cfg s p.2
  processed : ∀ i < s.drain.nextSeq, Sent cfg s i
  boundary : ∀ e, s.drain.nodeEndSeq = some e → NodesBelow cfg e

/-- What is in a queue after a push was there or is the new one. -/
lemma old_or_pushed {α : Type} {P : α → Prop} {l : List α} {a : α} (ha : P a) :
    ∀ x ∈ l ++ [a], x ∈ l ∨ P x := by
  intro x hx
  rcases mem_append.mp hx with hx | hx
  · exact .inl hx
  · rw [mem_singleton.mp hx]
    exact .inr ha

/-- All parts are carried over but those the step makes. -/
lemma Items.mono (g : Grows s t) (h : Items cfg s)
    (hcand : ∀ b ∈ t.candidates, b ∈ s.candidates ∨ GoodBlob cfg t b)
    (hwork : ∀ w, t.workers w = s.workers w ∨ GoodWorker cfg t (t.workers w))
    (hmsg : ∀ x ∈ t.messages, x ∈ s.messages ∨ GoodMessage cfg t x)
    (hbuf : ∀ p ∈ t.drain.buffer, p ∈ s.drain.buffer ∨ p.1 = p.2.seq ∧ GoodItem cfg t p.2)
    (hproc : ∀ i < t.drain.nextSeq, i < s.drain.nextSeq ∨ Sent cfg t i)
    (hbound : ∀ e, t.drain.nodeEndSeq = some e →
      s.drain.nodeEndSeq = some e ∨ NodesBelow cfg e) : Items cfg t := by
  constructor
  · intro b hb
    exact (hcand b hb).elim (fun hin => (h.candidates b hin).mono g) id
  · intro w
    rcases hwork w with heq | hgood
    · rw [heq]
      exact (h.workers w).mono g
    · exact hgood
  · intro x hx
    exact (hmsg x hx).elim (fun hin => (h.messages x hin).mono g) id
  · intro p hp
    exact (hbuf p hp).elim (fun hin => ⟨(h.buffer p hin).1, (h.buffer p hin).2.mono g⟩) id
  · intro i hi
    exact (hproc i hi).elim (fun hin => (h.processed i hin).mono g) id
  · intro e he
    exact (hbound e he).elim (h.boundary e) id

/-- The drain's merge: `merged` holds what the diff gives, and every needed node of
the base is in it or in a slot still to be taken. -/
structure Merging (cfg : Config) (s : State W) (k : Nat) (merged : LocMap) : Prop where
  sound : ∀ id c, merged.lookup id = some c →
    id ∈ allNeeded cfg.diff ∧ oscCoord cfg.diff id = some c ∨
      id ∈ cfg.locations.neededSet ∧ (id, c) ∈ baseNodes cfg.base
  seeded : ∀ id ∈ cfg.locations.locations, id ∈ merged
  complete : ∀ p ∈ baseNodes cfg.base, p.1 ∈ cfg.locations.neededSet →
    p.1 ∈ merged ∨ ∃ w : Fin W, k ≤ w ∧ p.1 ∈ s.coordSlots w

structure Coords (cfg : Config) (s : State W) : Prop where
  slots : ∀ w id c, (s.coordSlots w).lookup id = some c →
    id ∈ cfg.locations.neededSet ∧ (id, c) ∈ baseNodes cfg.base
  merging : ∀ k merged, s.drain.pc = .merging k merged → Merging cfg s k merged
  published : ∀ m, s.locMap = some m →
    Exact cfg m ∧ (missingNodes cfg m = 0 ∨ cfg.ignoreMissingNodes = true)
  refusal : ∀ n, s.drain.refusal = some n →
    n ≠ 0 ∧ cfg.ignoreMissingNodes = false ∧ ∃ m, Exact cfg m ∧ n = missingNodes cfg m

def isBoundary : DrainMessage → Bool
  | .nodeBoundary _ => true
  | .item _ => false

/-- The boundaries sent so far. -/
def boundaries (s : State W) : Nat :=
  s.messages.countP isBoundary + if s.drain.nodeEndSeq = none then 0 else 1

/-- How far the scanner is with the barrier. -/
inductive Phase (s : State W) : Prop where
  | before (hsig : s.scanner.barrierSignalled = false) (hnone : boundaries s = 0)
      (hsignal : s.signal = false)
      (hpc : (s.scanner.pc = .walking ∨ s.scanner.pc = .polling) ∧
          nodeEndSeq s.scanner.lastNodeSeq = s.scanner.seq ∨
        s.scanner.pc = .admitted ∧ nodeEndSeq s.scanner.lastNodeSeq = s.scanner.seq + 1)
  | waiting (hpc : s.scanner.pc = .waiting) (hone : boundaries s = 1)
  | released (hsig : s.scanner.barrierSignalled = true ∨ s.scanner.pc = .finished)
      (hone : boundaries s = 1) (hsignal : s.signal = false) (hloc : s.drain.loc ≠ .pending)
  | stopped (hrun : s.scanner.running = false) (hone : boundaries s ≤ 1)

def Reserved (s : State W) (i : Nat) : Prop :=
  i < s.scanner.seq ∨ s.scanner.pc = .admitted ∧ i = s.scanner.seq

/-- The drain is between its barrier check and its signal. -/
def DrainPc.Publishing : DrainPc → Prop
  | .merging _ _ => True
  | .signalling _ => True
  | _ => False

structure Control (cfg : Config) (s : State W) : Prop where
  phase : Phase s
  reserved : ∀ i, Reserved s i → cfg.kindAt i ≠ some .node → s.drain.loc ≠ .pending
  signal : s.signal = true → s.drain.loc ≠ .pending
  pending : s.drain.loc = .pending → (∀ m, s.drain.pc ≠ .signalling m) → s.locMap = none
  published : ∀ m, s.drain.loc = .published m → s.locMap = some m
  publishing : DrainPc.Publishing s.drain.pc → s.drain.loc = .pending ∧ s.drain.nodeEndSeq ≠ none
  signalling : ∀ m, s.drain.pc = .signalling m → s.locMap = some m
  stopped : s.scanner.running = false → s.failed = true
  disconnected : s.drain.disconnected = true → s.scanner.Ended
  closing : s.drain.pc = .closing ∨ s.drain.pc = .finished → s.drain.disconnected = true
  finished : s.drain.pc = .finished → s.locMap ≠ none
  broken : s.broken = none

structure Invariant (cfg : Config) (s : State W) : Prop where
  items : Items cfg s
  coords : Coords cfg s
  control : Control cfg s

lemma boundaries_append_item {messages : List DrainMessage} {d : DrainItem} :
    (messages ++ [DrainMessage.item d]).countP isBoundary = messages.countP isBoundary := by
  simp [isBoundary]

lemma Phase.boundaries_le (h : Phase s) : boundaries s ≤ 1 := by
  cases h with
  | before _ hnone _ _ => omega
  | waiting _ hone => omega
  | released _ hone _ _ => omega
  | stopped _ hone => exact hone

/-- Past the barrier the handle is set. -/
lemma Control.locMap_of_loc (h : Control cfg s) (hloc : s.drain.loc ≠ .pending) :
    s.locMap ≠ none := by
  cases hl : s.drain.loc with
  | pending => exact absurd hl hloc
  | published m =>
    rw [h.published m hl]
    simp

lemma workers_update {w : Fin W} {x : Worker} (ht : t.workers = update s.workers w x)
    (hx : GoodWorker cfg t x) (v : Fin W) :
    t.workers v = s.workers v ∨ GoodWorker cfg t (t.workers v) := by
  by_cases hv : v = w
  · subst hv
    right
    rw [ht, update_self]
    exact hx
  · left
    rw [ht, update_of_ne hv]

/-- A worker's own step moves no slot, no channel and no other stage. -/
lemma setWorker_grows (w : Fin W) (x : Worker) : Grows s (s.setWorker w x) :=
  .of_same (le_refl _) rfl rfl fun _ _ h => h

lemma setWorker_items (h : Items cfg s) (w : Fin W) {x : Worker} (hx : GoodWorker cfg s x) :
    Items cfg (s.setWorker w x) :=
  h.mono (setWorker_grows w x) (fun _ => .inl)
    (workers_update rfl (hx.mono (setWorker_grows w x))) (fun _ => .inl)
    (fun _ => .inl) (fun _ => .inl) (fun _ => .inl)

/-- A step that takes no slot, sets no handle and refuses nothing. -/
lemma Coords.of_same (h : Coords cfg s) (hslots : t.coordSlots = s.coordSlots)
    (hmap : t.locMap = s.locMap) (hrefusal : t.drain.refusal = s.drain.refusal)
    (hpc : ∀ k merged, t.drain.pc = .merging k merged → s.drain.pc = .merging k merged) :
    Coords cfg t := by
  constructor
  · rw [hslots]
    exact h.slots
  · intro k merged hk
    have hm := h.merging k merged (hpc k merged hk)
    exact ⟨hm.sound, hm.seeded, by rw [hslots]; exact hm.complete⟩
  · rw [hmap]
    exact h.published
  · rw [hrefusal]
    exact h.refusal

lemma Phase.congr (h : Phase s) (hscanner : t.scanner = s.scanner)
    (hbound : boundaries t = boundaries s) (hsignal : t.signal = s.signal)
    (hloc : s.drain.loc ≠ .pending → t.drain.loc ≠ .pending) : Phase t := by
  cases h with
  | before hsig hnone hsig' hpc =>
    exact .before (by rw [hscanner]; exact hsig) (by omega) (by rw [hsignal]; exact hsig')
      (by rw [hscanner]; exact hpc)
  | waiting hpc hone => exact .waiting (by rw [hscanner]; exact hpc) (by omega)
  | released hsig hone hsig' hl =>
    exact .released (by rw [hscanner]; exact hsig) (by omega) (by rw [hsignal]; exact hsig')
      (hloc hl)
  | stopped hrun hone => exact .stopped (by rw [hscanner]; exact hrun) (by omega)

lemma Control.of_worker (h : Control cfg s) (hscanner : t.scanner = s.scanner)
    (hdrain : t.drain = s.drain) (hsignal : t.signal = s.signal) (hmap : t.locMap = s.locMap)
    (hbroken : t.broken = s.broken) (hbound : boundaries t = boundaries s)
    (hfailed : s.failed = true → t.failed = true) : Control cfg t := by
  constructor
  · exact h.phase.congr hscanner hbound hsignal (by rw [hdrain]; exact id)
  · intro i hi
    rw [hdrain]
    exact h.reserved i (by rwa [Reserved, hscanner] at hi)
  all_goals simp only [hscanner, hdrain, hsignal, hmap, hbroken]
  · exact h.signal
  · exact h.pending
  · exact h.published
  · exact h.publishing
  · exact h.signalling
  · exact fun hrun => hfailed (h.stopped hrun)
  · exact h.disconnected
  · exact h.closing
  · exact h.finished
  · exact h.broken

lemma goodItem_unchanged (h : Sent cfg s i) : GoodItem cfg s (.unchanged i) := by
  refine ⟨h, ?_⟩
  intro j m hd
  cases hd

/-- A blob that is no node is in no slot. -/
lemma sent_of_not_node (hi : i < s.scanner.seq) (hkind : cfg.kindAt i ≠ some .node) :
    Sent cfg s i :=
  ⟨hi, fun _ hnode => absurd hnode hkind⟩

lemma kind_of_refreshScan (h : cfg.refreshScan i = true) : cfg.kindAt i ≠ some .node := by
  have hway : cfg.kindAt i = some .way := by
    simp only [Config.refreshScan, Bool.and_eq_true, decide_eq_true_eq] at h
    exact h.1.2
  rw [hway]
  intro hc
  cases hc

section Flush

variable {w : Fin W} {i : Nat} {coords : LocMap}

lemma slot_flush_self : (s.flush w i coords).coordSlots w =
    flushLocalCoords (s.coordSlots w) coords := by
  simp [State.flush]

lemma slot_flush_of_ne {v : Fin W} (hv : v ≠ w) :
    (s.flush w i coords).coordSlots v = s.coordSlots v := by
  simp [State.flush, hv]

/-- A flush takes nothing out of a slot. -/
lemma mem_slot_flush {v : Fin W} {id : Int64} (h : id ∈ s.coordSlots v) :
    id ∈ (s.flush w i coords).coordSlots v := by
  by_cases hv : v = w
  · subst hv
    rw [slot_flush_self]
    exact mem_flushLocalCoords.mpr (.inr h)
  · rw [slot_flush_of_ne hv]
    exact h

lemma flush_grows : Grows s (s.flush w i coords) := by
  refine ⟨le_refl _, fun _ h => h, fun h => ⟨h, ?_⟩⟩
  rintro id ⟨v, hv⟩
  exact ⟨v, mem_slot_flush hv⟩

lemma flush_items (hdistinct : DistinctNodes cfg.base) (h : Items cfg s)
    (hw : s.workers w = .extracted i coords) : Items cfg (s.flush w i coords) := by
  obtain ⟨hi, hcoords⟩ : i < s.scanner.seq ∧ cfg.localCoords i = some coords := by
    have hgood := h.workers w
    rwa [hw] at hgood
  refine h.mono flush_grows (fun _ hb => .inl hb) (workers_update rfl ⟨hi, ?_⟩)
    (fun _ hm => .inl hm) (fun _ hp => .inl hp) (fun _ hj => .inl hj) (fun _ he => .inl he)
  intro _ hkind p hp hneed
  have hmem : p.1 ∈ coords :=
    mem_of_lookup ((lookup_localCoords hdistinct hkind hcoords p.1 p.2).mpr ⟨hneed, hp⟩)
  refine ⟨w, ?_⟩
  rw [slot_flush_self]
  exact mem_flushLocalCoords.mpr (.inl hmem)

lemma flush_coords (hdistinct : DistinctNodes cfg.base) (h : Coords cfg s)
    (hcoords : cfg.localCoords i = some coords) : Coords cfg (s.flush w i coords) := by
  constructor
  · intro v id c hlook
    by_cases hv : v = w
    · subst hv
      rw [slot_flush_self] at hlook
      rcases lookup_flushLocalCoords hlook with hnew | hold
      · by_cases hkind : cfg.kindAt i = some .node
        · obtain ⟨hneed, hmem⟩ := (lookup_localCoords hdistinct hkind hcoords id c).mp hnew
          exact ⟨hneed, mem_baseNodes.mpr ⟨i, hkind, hmem⟩⟩
        · rw [localCoords_of_not_node hkind hcoords, AList.lookup_empty] at hnew
          cases hnew
      · exact h.slots v id c hold
    · rw [slot_flush_of_ne hv] at hlook
      exact h.slots v id c hlook
  · intro k merged hpc
    have hm := h.merging k merged hpc
    refine ⟨hm.sound, hm.seeded, ?_⟩
    intro p hp hneed
    rcases hm.complete p hp hneed with hin | ⟨v, hle, hv⟩
    · exact .inl hin
    · exact .inr ⟨v, hle, mem_slot_flush hv⟩
  · exact h.published
  · exact h.refusal

end Flush

lemma workerStep_items (hdistinct : DistinctNodes cfg.base) {w : Fin W} (h : Invariant cfg s)
    (hstep : WorkerStep cfg s w t) : Items cfg t := by
  have hgood := h.items.workers w
  cases hstep with
  | dequeue b rest hw hrest =>
    have hin : ∀ x ∈ b :: rest, x ∈ s.candidates := by
      rw [hrest]
      exact fun _ hx => hx
    have hgrows : Grows s { s.setWorker w (.taken b) with candidates := rest } :=
      .of_same (le_refl _) rfl rfl fun _ _ h => h
    exact h.items.mono hgrows (fun x hx => .inl (hin x (mem_cons_of_mem _ hx)))
      (workers_update rfl (GoodBlob.mono hgrows (h.items.candidates b (hin b mem_cons_self))))
      (fun _ => .inl) (fun _ => .inl) (fun _ => .inl) (fun _ => .inl)
  | ownedPassthrough i hw =>
    rw [hw] at hgood
    exact setWorker_items h.items w (goodItem_unchanged (sent_of_not_node hgood.1 hgood.2))
  | cleanRefresh i hw hscan =>
    rw [hw] at hgood
    exact setWorker_items h.items w
      (goodItem_unchanged (sent_of_not_node hgood (kind_of_refreshScan hscan)))
  | extract i coords hw hcoords =>
    rw [hw] at hgood
    exact setWorker_items h.items w ⟨hgood, hcoords⟩
  | flush i coords hw => exact flush_items hdistinct h.items hw
  | falsePositive i hw =>
    rw [hw] at hgood
    exact setWorker_items h.items w (goodItem_unchanged hgood)
  | rewrite i hw =>
    rw [hw] at hgood
    apply setWorker_items h.items w
    refine ⟨hgood, ?_⟩
    rintro j m hd hkind
    cases hd
    exact ⟨rfl, h.control.locMap_of_loc (h.control.reserved i (.inl hgood.1) hkind)⟩
  | send d hw hcap =>
    rw [hw] at hgood
    have hgrows : Grows s { s.setWorker w .idle with messages := s.messages ++ [.item d] } :=
      .of_same (le_refl _) rfl rfl fun _ _ h => h
    have hnew : GoodMessage cfg _ (.item d) := GoodItem.mono hgrows hgood
    exact h.items.mono hgrows (fun _ => .inl) (workers_update rfl trivial)
      (old_or_pushed hnew) (fun _ => .inl) (fun _ => .inl) (fun _ => .inl)
  | exit hw hrest hended => exact setWorker_items h.items w trivial
  | fail hw =>
    have hgrows : Grows s { s.setWorker w .failed with failed := true } :=
      .of_same (le_refl _) rfl rfl fun _ _ h => h
    exact h.items.mono hgrows (fun _ => .inl) (workers_update rfl trivial)
      (fun _ => .inl) (fun _ => .inl) (fun _ => .inl) (fun _ => .inl)

lemma workerStep_coords (hdistinct : DistinctNodes cfg.base) {w : Fin W} (h : Invariant cfg s)
    (hstep : WorkerStep cfg s w t) : Coords cfg t := by
  cases hstep with
  | flush i coords hw =>
    have hgood := h.items.workers w
    rw [hw] at hgood
    exact flush_coords hdistinct h.coords hgood.2
  | dequeue | ownedPassthrough | cleanRefresh | extract | falsePositive | rewrite | send | exit
  | fail => exact h.coords.of_same rfl rfl rfl fun _ _ hk => hk

lemma workerStep_control {w : Fin W} (h : Control cfg s) (hstep : WorkerStep cfg s w t) :
    Control cfg t := by
  cases hstep with
  | send d hw hcap =>
    refine h.of_worker rfl rfl rfl rfl rfl ?_ id
    simp only [boundaries, State.setWorker, boundaries_append_item]
    rfl
  | fail => exact h.of_worker rfl rfl rfl rfl rfl rfl fun _ => rfl
  | dequeue | ownedPassthrough | cleanRefresh | extract | flush | falsePositive | rewrite | exit =>
    exact h.of_worker rfl rfl rfl rfl rfl rfl id

lemma workerStep_invariant (hdistinct : DistinctNodes cfg.base) {w : Fin W} (h : Invariant cfg s)
    (hstep : WorkerStep cfg s w t) : Invariant cfg t :=
  ⟨workerStep_items hdistinct h hstep, workerStep_coords hdistinct h hstep,
    workerStep_control h.control hstep⟩

lemma not_node_of_passes (h : cfg.passes i = true) : cfg.kindAt i ≠ some .node := by
  intro hnode
  simp [Config.passes, Config.lowMustDecompress, hnode] at h

lemma scannerStep_active (hstep : ScannerStep cfg s t) : ¬ s.scanner.Ended := by
  rintro (hpc | hrun)
  · cases hstep <;> simp_all
  · cases hstep <;> simp_all

/-- Every node is dispatched by the time the boundary is sent. -/
lemma nodesBelow_boundary (hfirst : NodesFirst cfg.base) (h : Control cfg s)
    (hrun : s.scanner.running = true) (hpc : s.scanner.pc = .walking)
    (hsig : s.scanner.barrierSignalled = false) (hkind : cfg.kindAt s.scanner.seq ≠ some .node) :
    NodesBelow cfg (nodeEndSeq s.scanner.lastNodeSeq) ∧ boundaries s = 0 := by
  cases h.phase with
  | before _ hnone _ hend =>
    have hseq : nodeEndSeq s.scanner.lastNodeSeq = s.scanner.seq := by
      rcases hend with ⟨_, hend⟩ | ⟨hadm, _⟩
      · exact hend
      · rw [hpc] at hadm
        cases hadm
    rw [hseq]
    exact ⟨fun i hi => no_node_from hfirst hkind hi, hnone⟩
  | waiting hwait _ =>
    rw [hpc] at hwait
    cases hwait
  | released hrel _ _ _ =>
    rcases hrel with hrel | hrel
    · rw [hsig] at hrel
      cases hrel
    · rw [hpc] at hrel
      cases hrel
  | stopped hstop _ =>
    rw [hrun] at hstop
    cases hstop

lemma goodBlob_scannedBlob (hi : i < s.scanner.seq) :
    GoodBlob cfg s (cfg.scannedBlob i) := by
  unfold Config.scannedBlob
  by_cases hpass : cfg.passes i = true
  · rw [if_pos hpass]
    exact ⟨hi, not_node_of_passes hpass⟩
  · rw [if_neg hpass]
    exact hi

lemma scannerStep_grows (hstep : ScannerStep cfg s t) : Grows s t := by
  cases hstep with
  | splice | dispatch => exact .of_same (Nat.le_succ _) rfl rfl fun _ _ h => h
  | sendBoundary | release | releaseAtEnd | reserveSeq | poll | pollSignal | finish | fail =>
    exact .of_same (le_refl _) rfl rfl fun _ _ h => h

lemma scannerStep_items (hfirst : NodesFirst cfg.base) (h : Invariant cfg s)
    (hstep : ScannerStep cfg s t) : Items cfg t := by
  have hgrows := scannerStep_grows hstep
  cases hstep with
  | sendBoundary hrun hpc hsig hkind hcap =>
    have hnew := (nodesBelow_boundary hfirst h.control hrun hpc hsig hkind).1
    exact h.items.mono hgrows (fun _ => .inl) (fun _ => .inl rfl) (old_or_pushed hnew)
      (fun _ => .inl) (fun _ => .inl) (fun _ => .inl)
  | splice hrun hpc hroute hpass hcap =>
    have hnode := not_node_of_passes hpass
    exact h.items.mono hgrows (fun _ => .inl) (fun _ => .inl rfl)
      (old_or_pushed (goodItem_unchanged (sent_of_not_node (Nat.lt_succ_self _) hnode)))
      (fun _ => .inl) (fun _ => .inl) (fun _ => .inl)
  | dispatch hrun hpc hroute hcap =>
    exact h.items.mono hgrows (old_or_pushed (goodBlob_scannedBlob (Nat.lt_succ_self _)))
      (fun _ => .inl rfl) (fun _ => .inl)
      (fun _ => .inl) (fun _ => .inl) (fun _ => .inl)
  | release | releaseAtEnd | reserveSeq | poll | pollSignal | finish | fail =>
    exact h.items.mono hgrows (fun _ => .inl) (fun _ => .inl rfl) (fun _ => .inl)
      (fun _ => .inl) (fun _ => .inl) (fun _ => .inl)

lemma scannerStep_coords (h : Coords cfg s) (hstep : ScannerStep cfg s t) : Coords cfg t := by
  cases hstep <;> exact h.of_same rfl rfl rfl fun _ _ hk => hk

lemma Control.of_scanner (h : Control cfg s) (hactive : ¬ s.scanner.Ended)
    (hdrain : t.drain = s.drain) (hmap : t.locMap = s.locMap) (hphase : Phase t)
    (hreserved : ∀ i, Reserved t i →
      Reserved s i ∨ cfg.kindAt i = some .node ∨ s.drain.loc ≠ .pending)
    (hsignal : t.signal = true → s.signal = true)
    (hstopped : t.scanner.running = false → t.failed = true) (hbroken : t.broken = s.broken) :
    Control cfg t := by
  constructor
  · exact hphase
  · intro i hi hkind
    rw [hdrain]
    rcases hreserved i hi with hi | hnode | hset
    · exact h.reserved i hi hkind
    · exact absurd hnode hkind
    · exact hset
  · rw [hdrain]
    exact fun hs => h.signal (hsignal hs)
  · rw [hdrain, hmap]
    exact h.pending
  · rw [hdrain, hmap]
    exact h.published
  · rw [hdrain]
    exact h.publishing
  · rw [hdrain, hmap]
    exact h.signalling
  · exact hstopped
  · rw [hdrain]
    exact fun hd => absurd (h.disconnected hd) hactive
  · rw [hdrain]
    exact h.closing
  · rw [hdrain, hmap]
    exact h.finished
  · rw [hbroken]
    exact h.broken

/-- A running scanner that does not wait is before the barrier or past it. -/
lemma Phase.of_active (h : Phase s) (hrun : s.scanner.running = true)
    (hpc : s.scanner.pc ≠ .waiting) : s.signal = false ∧
      (s.scanner.barrierSignalled = false ∧ boundaries s = 0 ∧
          ((s.scanner.pc = .walking ∨ s.scanner.pc = .polling) ∧
              nodeEndSeq s.scanner.lastNodeSeq = s.scanner.seq ∨
            s.scanner.pc = .admitted ∧ nodeEndSeq s.scanner.lastNodeSeq = s.scanner.seq + 1) ∨
        (s.scanner.barrierSignalled = true ∨ s.scanner.pc = .finished) ∧ boundaries s = 1 ∧
          s.drain.loc ≠ .pending) := by
  cases h with
  | before hsig hnone hsignal hend => exact ⟨hsignal, .inl ⟨hsig, hnone, hend⟩⟩
  | waiting hwait _ => exact absurd hwait hpc
  | released hsig hone hsignal hloc => exact ⟨hsignal, .inr ⟨hsig, hone, hloc⟩⟩
  | stopped hstop _ =>
    rw [hrun] at hstop
    cases hstop

/-- Only a waiting scanner finds the signal. -/
lemma Phase.of_signal (h : Phase s) (hrun : s.scanner.running = true) (hsignal : s.signal = true) :
    s.scanner.pc = .waiting ∧ boundaries s = 1 := by
  by_cases hpc : s.scanner.pc = .waiting
  · refine ⟨hpc, ?_⟩
    cases h with
    | before _ _ _ hend => simp [hpc] at hend
    | waiting _ hone => exact hone
    | released _ hone _ _ => exact hone
    | stopped hstop _ =>
      rw [hrun] at hstop
      cases hstop
  · rw [(h.of_active hrun hpc).1] at hsignal
    cases hsignal

lemma scannerStep_phase (hfirst : NodesFirst cfg.base) (h : Control cfg s)
    (hstep : ScannerStep cfg s t) : Phase t := by
  cases hstep with
  | sendBoundary hrun hpc hsig hkind hcap =>
    have hnone := (nodesBelow_boundary hfirst h hrun hpc hsig hkind).2
    refine .waiting rfl ?_
    simp only [boundaries] at hnone ⊢
    rw [countP_append, countP_singleton]
    simp only [isBoundary, if_true]
    omega
  | release hrun hpc hsignal hseq =>
    exact .released (.inl rfl) (h.phase.of_signal hrun hsignal).2 rfl (h.signal hsignal)
  | releaseAtEnd hrun hpc hsignal hseq =>
    exact .released (.inr rfl) (h.phase.of_signal hrun hsignal).2 rfl (h.signal hsignal)
  | reserveSeq tokens hrun hpc hseq hkind htokens =>
    obtain ⟨hsignal, ⟨hsig, hnone, _⟩ | ⟨hrel, hone, hloc⟩⟩ :=
      h.phase.of_active hrun (by rw [hpc]; simp)
    · have hnode : cfg.kindAt s.scanner.seq = some .node := by
        rcases hkind with hkind | hkind
        · exact hkind
        · rw [hsig] at hkind
          cases hkind
      refine .before hsig hnone hsignal (.inr ⟨rfl, ?_⟩)
      simp [hnode, nodeEndSeq]
    · have hsig : s.scanner.barrierSignalled = true := by simpa [hpc] using hrel
      exact .released (.inl hsig) hone hsignal hloc
  | splice hrun hpc hroute hpass hcap =>
    have hsame : (s.messages ++ [DrainMessage.item (.unchanged s.scanner.seq)]).countP isBoundary =
        s.messages.countP isBoundary := boundaries_append_item
    obtain ⟨hsignal, ⟨hsig, hnone, hend⟩ | ⟨hrel, hone, hloc⟩⟩ :=
      h.phase.of_active hrun (by rw [hpc]; simp)
    · refine .before hsig ?_ hsignal (.inl ⟨.inr rfl, ?_⟩)
      · simpa only [boundaries, hsame] using hnone
      · simpa [hpc] using hend
    · have hsig : s.scanner.barrierSignalled = true := by simpa [hpc] using hrel
      refine .released (.inl hsig) ?_ hsignal hloc
      simpa only [boundaries, hsame] using hone
  | dispatch hrun hpc hroute hcap =>
    obtain ⟨hsignal, ⟨hsig, hnone, hend⟩ | ⟨hrel, hone, hloc⟩⟩ :=
      h.phase.of_active hrun (by rw [hpc]; simp)
    · refine .before hsig hnone hsignal (.inl ⟨.inr rfl, ?_⟩)
      simpa [hpc] using hend
    · have hsig : s.scanner.barrierSignalled = true := by simpa [hpc] using hrel
      exact .released (.inl hsig) hone hsignal hloc
  | poll hrun hpc hsignal =>
    obtain ⟨_, ⟨hsig, hnone, hend⟩ | ⟨hrel, hone, hloc⟩⟩ :=
      h.phase.of_active hrun (by rw [hpc]; simp)
    · refine .before hsig hnone hsignal (.inl ⟨.inl rfl, ?_⟩)
      simpa [hpc] using hend
    · have hsig : s.scanner.barrierSignalled = true := by simpa [hpc] using hrel
      exact .released (.inl hsig) hone hsignal hloc
  | pollSignal | fail => exact .stopped rfl h.phase.boundaries_le
  | finish hrun hpc hseq hsig =>
    obtain ⟨hsignal, ⟨hsig', _, _⟩ | ⟨_, hone, hloc⟩⟩ :=
      h.phase.of_active hrun (by rw [hpc]; simp)
    · rw [hsig] at hsig'
      cases hsig'
    · exact .released (.inr rfl) hone hsignal hloc

lemma Control.loc_of_signalled (h : Control cfg s) (hrun : s.scanner.running = true)
    (hpc : s.scanner.pc ≠ .waiting) (hsig : s.scanner.barrierSignalled = true) :
    s.drain.loc ≠ .pending := by
  obtain ⟨_, ⟨hsig', _⟩ | ⟨_, _, hloc⟩⟩ := h.phase.of_active hrun hpc
  · rw [hsig] at hsig'
    cases hsig'
  · exact hloc

lemma reserved_of_pc (hi : Reserved t i) (hpc : t.scanner.pc ≠ .admitted)
    (hseq : t.scanner.seq = s.scanner.seq) : Reserved s i := by
  rcases hi with hi | ⟨hadm, _⟩
  · rw [hseq] at hi
    exact .inl hi
  · exact absurd hadm hpc

lemma reserved_of_dispatch (hi : Reserved t i) (hadm : s.scanner.pc = .admitted)
    (hpc : t.scanner.pc ≠ .admitted) (hseq : t.scanner.seq = s.scanner.seq + 1) : Reserved s i := by
  rcases hi with hi | ⟨hadm', _⟩
  · by_cases heq : i = s.scanner.seq
    · exact .inr ⟨hadm, heq⟩
    · exact .inl (by omega)
  · exact absurd hadm' hpc

lemma scannerStep_control (hfirst : NodesFirst cfg.base) (h : Control cfg s)
    (hstep : ScannerStep cfg s t) : Control cfg t := by
  have hactive := scannerStep_active hstep
  have hphase := scannerStep_phase hfirst h hstep
  cases hstep with
  | sendBoundary | poll | finish =>
    exact h.of_scanner hactive rfl rfl hphase (fun _ hi => .inl (reserved_of_pc hi (by simp) rfl)) id
      h.stopped rfl
  | release | releaseAtEnd =>
    exact h.of_scanner hactive rfl rfl hphase (fun _ hi => .inl (reserved_of_pc hi (by simp) rfl))
      (by simp) h.stopped rfl
  | reserveSeq tokens hrun hpc hseq hkind htokens =>
    refine h.of_scanner hactive rfl rfl hphase ?_ id h.stopped rfl
    rintro i (hi | ⟨_, rfl⟩)
    · exact .inl (.inl hi)
    · rcases hkind with hkind | hsig
      · exact .inr (.inl hkind)
      · exact .inr (.inr (h.loc_of_signalled hrun (by rw [hpc]; simp) hsig))
  | splice hrun hpc | dispatch hrun hpc =>
    exact h.of_scanner hactive rfl rfl hphase
      (fun _ hi => .inl (reserved_of_dispatch hi hpc (by simp) rfl)) id h.stopped rfl
  | pollSignal hrun hpc hsignal =>
    -- the drain signals a waiting scanner only
    have hwait := (h.phase.of_signal hrun hsignal).1
    rw [hpc] at hwait
    cases hwait
  | fail hrun hpc =>
    exact h.of_scanner hactive rfl rfl hphase (fun _ hi => .inl hi) id (fun _ => rfl) rfl

lemma scannerStep_invariant (hfirst : NodesFirst cfg.base) (h : Invariant cfg s)
    (hstep : ScannerStep cfg s t) : Invariant cfg t :=
  ⟨scannerStep_items hfirst h hstep, scannerStep_coords h.coords hstep,
    scannerStep_control hfirst h.control hstep⟩

end BarrierInvariant
