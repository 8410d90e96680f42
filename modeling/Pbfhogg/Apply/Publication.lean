import Pbfhogg.Apply.BarrierInvariant

/-!
# The map the drain publishes

A drain that has processed every node finds all coordinates in the slots, so the map it publishes is
exact in every reachable state.
-/

namespace ApplyPublication

open OscSorted OscLookup NodeLocations ApplyBarrier BarrierInvariant List

variable {cfg : Config} {W : Nat} {s t : State W}

lemma mem_of_lookup_eq {buffer : List (Nat × DrainItem)} {seq : Nat} {d : DrainItem}
    (h : buffer.lookup seq = some d) : (seq, d) ∈ buffer := by
  obtain ⟨l, r, heq, _⟩ := lookup_eq_some_iff.mp h
  simp [heq]

lemma drainStep_grows (hstep : DrainStep cfg s t) : Grows s t := by
  cases hstep with
  | takeSlot w merged hrun hpc =>
    refine ⟨le_refl _, fun _ h => h, ?_⟩
    rintro ⟨_, hne⟩
    exact absurd rfl (hne _ _)
  | publish merged hrun hpc hmissing hunset =>
    refine ⟨le_refl _, ?_, ?_⟩
    · intro m hm
      rw [hunset] at hm
      cases hm
    · rintro ⟨hnone, _⟩
      cases hnone
  | boundaryTwice | process | earlyItem | refuse | publishedBefore | stop =>
    exact .of_same (le_refl _) rfl rfl fun _ _ h => h
  | receiveItem _ _ _ hpc | receiveBoundary _ _ _ hpc | timeout _ hpc | disconnect _ hpc
  | settle _ hpc | barrier _ hpc | signalScanner _ _ hpc | finish _ hpc =>
    refine .of_same (le_refl _) rfl rfl fun k merged h => ?_
    rw [hpc] at h
    cases h

lemma drainStep_items (h : Items cfg s) (hstep : DrainStep cfg s t) : Items cfg t := by
  have hgrows := drainStep_grows hstep
  cases hstep with
  | receiveItem d rest hrun hpc hmsg =>
    have hgood : GoodItem cfg s d := h.messages (.item d) (by simp [hmsg])
    refine h.mono hgrows (fun _ => .inl) (fun _ => .inl rfl) ?_ ?_ (fun _ => .inl)
      (fun _ => .inl)
    · intro x hx
      rw [hmsg]
      exact .inl (mem_cons_of_mem _ hx)
    · intro p hp
      rcases mem_cons.mp hp with rfl | hp
      · exact .inr ⟨rfl, hgood.mono hgrows⟩
      · exact .inl (mem_filter.mp hp).1
  | receiveBoundary e rest hrun hpc hmsg hfirst =>
    have hgood : NodesBelow cfg e := h.messages (.nodeBoundary e) (by simp [hmsg])
    refine h.mono hgrows (fun _ => .inl) (fun _ => .inl rfl) ?_ (fun _ => .inl)
      (fun _ => .inl) ?_
    · intro x hx
      rw [hmsg]
      exact .inl (mem_cons_of_mem _ hx)
    · rintro e' rfl'
      cases rfl'
      exact .inr hgood
  | process d hrun hpc hnext hkind =>
    obtain ⟨hseq, hgood⟩ := h.buffer _ (mem_of_lookup_eq hnext)
    refine h.mono hgrows (fun _ => .inl) (fun _ => .inl rfl) (fun _ => .inl) ?_ ?_
      (fun _ => .inl)
    · intro p hp
      exact .inl (Reorder.mem_remove.mp hp).1
    · intro i hi
      rcases Nat.lt_succ_iff_lt_or_eq.mp hi with hi | rfl
      · exact .inl hi
      · right
        have hsent := hgood.1.mono hgrows
        rwa [← hseq] at hsent
  | boundaryTwice | timeout | disconnect | earlyItem | settle | barrier | takeSlot | refuse | publish
  | publishedBefore | signalScanner | finish | stop =>
    exact h.mono hgrows (fun _ => .inl) (fun _ => .inl rfl) (fun _ => .inl)
      (fun _ => .inl) (fun _ => .inl) (fun _ => .inl)

lemma lookup_locations (hdiff : DiffSorted cfg.diff) {id : Int64} {c : Coord} :
    cfg.locations.locations.lookup id = some c ↔
      id ∈ allNeeded cfg.diff ∧ oscCoord cfg.diff id = some c := by
  have heq : cfg.locations.locations.lookup id = _ := buildFromDiff_locations hdiff id
  rw [heq]
  by_cases hall : id ∈ allNeeded cfg.diff
  · simp [hall]
  · simp [hall]

/-- The base is asked for no node the diff gives. -/
lemma not_needed_of_oscCoord (hdiff : DiffSorted cfg.diff) {id : Int64} {c : Coord}
    (h : oscCoord cfg.diff id = some c) : id ∉ cfg.locations.neededSet := by
  intro hneed
  have hneeded := (mem_neededSet hdiff id).mp hneed
  exact hneeded.2.1 ((oscCoord_isSome hdiff).mp ⟨c, h⟩)

/-- With all slots taken the map is exact. -/
lemma exact_of_merging (hdiff : DiffSorted cfg.diff) (hdistinct : DistinctNodes cfg.base)
    {merged : LocMap} (h : Merging cfg s W merged) : Exact cfg merged := by
  intro id c
  constructor
  · exact h.sound id c
  · rintro (⟨hall, hosc⟩ | ⟨hneed, hbase⟩)
    · have hseed := (lookup_locations hdiff).mpr ⟨hall, hosc⟩
      obtain ⟨d, hd⟩ := lookup_of_mem (h.seeded id (mem_of_lookup hseed))
      rcases h.sound id d hd with ⟨_, hosc'⟩ | ⟨hneed, _⟩
      · rw [hd, ← hosc', hosc]
      · exact absurd hneed (not_needed_of_oscCoord hdiff hosc)
    · have hin : id ∈ merged := by
        rcases h.complete (id, c) hbase hneed with hin | ⟨w, hle, _⟩
        · exact hin
        · have := w.isLt
          omega
      obtain ⟨d, hd⟩ := lookup_of_mem hin
      rcases h.sound id d hd with ⟨_, hosc⟩ | ⟨_, hbase'⟩
      · exact absurd hneed (not_needed_of_oscCoord hdiff hosc)
      · rw [hd, coord_unique hdistinct hbase' hbase]

/-- At the barrier every node has been processed, so every needed coordinate is in
a slot. -/
lemma merging_start (hdiff : DiffSorted cfg.diff) (h : Invariant cfg s)
    (hpc : s.drain.pc = .advancing) (hbarrier : s.drain.AtBarrier) :
    Merging cfg s 0 cfg.locations.locations := by
  obtain ⟨hloc, e, he, hle⟩ := hbarrier
  constructor
  · intro id c hlook
    exact .inl ((lookup_locations hdiff).mp hlook)
  · exact fun _ hid => hid
  · intro p hp hneed
    obtain ⟨i, hkind, hmem⟩ := mem_baseNodes.mp hp
    have hbelow : i < s.drain.nextSeq := lt_of_lt_of_le (h.items.boundary e he i hkind) hle
    have hbefore : Before s := by
      constructor
      · apply h.control.pending hloc
        intro m hm
        rw [hpc] at hm
        cases hm
      · intro k merged hm
        rw [hpc] at hm
        cases hm
    obtain ⟨w, hw⟩ := (h.items.processed i hbelow).2 hbefore hkind p hmem hneed
    exact .inr ⟨w, Nat.zero_le _, hw⟩

section TakeSlot

variable {w : Fin W} {merged : LocMap}

lemma slot_take_self : (s.takeSlot w merged).coordSlots w = ∅ := by
  simp [State.takeSlot]

lemma slot_take_of_ne {v : Fin W} (hv : v ≠ w) :
    (s.takeSlot w merged).coordSlots v = s.coordSlots v := by
  simp [State.takeSlot, hv]

lemma merging_takeSlot (h : Coords cfg s) (hm : Merging cfg s w merged) :
    Merging cfg (s.takeSlot w merged) (w + 1) (mergeSlot merged (s.coordSlots w)) := by
  constructor
  · intro id c hlook
    rcases lookup_mergeSlot hlook with hslot | hold
    · exact .inr (h.slots w id c hslot)
    · exact hm.sound id c hold
  · intro id hid
    exact mem_mergeSlot.mpr (.inr (hm.seeded id hid))
  · intro p hp hneed
    rcases hm.complete p hp hneed with hin | ⟨v, hle, hv⟩
    · exact .inl (mem_mergeSlot.mpr (.inr hin))
    · by_cases hvw : v = w
      · subst hvw
        exact .inl (mem_mergeSlot.mpr (.inl hv))
      · have hlt : (w : Nat) ≠ v := fun heq => hvw (Fin.ext heq.symm)
        refine .inr ⟨v, by omega, ?_⟩
        rw [slot_take_of_ne hvw]
        exact hv

lemma takeSlot_coords (h : Coords cfg s) (hpc : s.drain.pc = .merging w merged) :
    Coords cfg (s.takeSlot w merged) := by
  constructor
  · intro v id c hlook
    by_cases hv : v = w
    · rw [hv, slot_take_self, AList.lookup_empty] at hlook
      cases hlook
    · rw [slot_take_of_ne hv] at hlook
      exact h.slots v id c hlook
  · intro k m hk
    cases hk
    exact merging_takeSlot h (h.merging _ _ hpc)
  · exact h.published
  · exact h.refusal

end TakeSlot

lemma afterCheck_not_publishing (d : Drain) : ¬ DrainPc.Publishing d.afterCheck := by
  unfold Drain.afterCheck
  cases d.disconnected <;> exact id

lemma drainStep_coords (hdiff : DiffSorted cfg.diff) (hdistinct : DistinctNodes cfg.base)
    (h : Invariant cfg s) (hstep : DrainStep cfg s t) : Coords cfg t := by
  cases hstep with
  | barrier hrun hpc hnext hbarrier =>
    refine ⟨h.coords.slots, ?_, h.coords.published, h.coords.refusal⟩
    intro k merged hk
    cases hk
    have hm := merging_start hdiff h hpc hbarrier
    exact ⟨hm.sound, hm.seeded, hm.complete⟩
  | takeSlot w merged hrun hpc => exact takeSlot_coords h.coords hpc
  | refuse merged hrun hpc hmissing hstrict hfailed =>
    refine ⟨h.coords.slots, ?_, h.coords.published, ?_⟩
    · intro k m hk
      have hm := h.coords.merging k m hk
      exact ⟨hm.sound, hm.seeded, hm.complete⟩
    · intro n hn
      cases hn
      exact ⟨hmissing, hstrict, merged, exact_of_merging hdiff hdistinct (h.coords.merging _ _ hpc), rfl⟩
  | publish merged hrun hpc hmissing hunset =>
    refine ⟨h.coords.slots, ?_, ?_, h.coords.refusal⟩
    · intro k m hk
      cases hk
    · intro m hm
      cases hm
      exact ⟨exact_of_merging hdiff hdistinct (h.coords.merging _ _ hpc), hmissing⟩
  | settle hrun hpc | signalScanner map hrun hpc =>
    refine h.coords.of_same rfl rfl rfl fun k merged hk => ?_
    have hno := afterCheck_not_publishing s.drain
    rw [show s.drain.afterCheck = .merging k merged from hk] at hno
    exact absurd trivial hno
  | boundaryTwice | process | earlyItem | publishedBefore | stop =>
    exact h.coords.of_same rfl rfl rfl fun _ _ hk => hk
  | receiveItem | receiveBoundary | timeout | disconnect | finish =>
    refine h.coords.of_same rfl rfl rfl fun k merged hk => ?_
    cases hk

/-- A drain's step outside `publish`, or one that leaves the drain where it was. -/
lemma control_of_drain (h : Control cfg s) (hscanner : t.scanner = s.scanner)
    (hsignal : t.signal = s.signal) (hmap : t.locMap = s.locMap) (hfailed : t.failed = s.failed)
    (hbroken : t.broken = s.broken) (hbound : boundaries t = boundaries s)
    (hloc : t.drain.loc = s.drain.loc)
    (hend : s.drain.nodeEndSeq ≠ none → t.drain.nodeEndSeq ≠ none)
    (hdisc : t.drain.disconnected = true → s.drain.disconnected = true ∨ s.scanner.Ended)
    (hclosing : t.drain.pc = .closing ∨ t.drain.pc = .finished → t.drain.disconnected = true)
    (hfinished : t.drain.pc = .finished → s.locMap ≠ none) (hpc : t.drain.pc = s.drain.pc ∨
      ¬ DrainPc.Publishing s.drain.pc ∧ ¬ DrainPc.Publishing t.drain.pc) : Control cfg t := by
  constructor
  · exact h.phase.congr hscanner hbound hsignal (by rw [hloc]; exact id)
  · intro i hi
    rw [hloc]
    exact h.reserved i (by rwa [Reserved, hscanner] at hi)
  · rw [hsignal, hloc]
    exact h.signal
  · intro hp hne
    rw [hmap]
    refine h.pending (hloc.symm.trans hp) fun m hm => ?_
    rcases hpc with hpc | ⟨hno, _⟩
    · exact hne m (hpc.trans hm)
    · rw [hm] at hno
      exact hno trivial
  · rw [hloc, hmap]
    exact h.published
  · intro hpub
    rcases hpc with hpc | ⟨_, hno⟩
    · rw [hpc] at hpub
      obtain ⟨hp, hne⟩ := h.publishing hpub
      exact ⟨hloc.trans hp, hend hne⟩
    · exact absurd hpub hno
  · intro m hm
    rcases hpc with hpc | ⟨_, hno⟩
    · rw [hmap]
      exact h.signalling m (hpc.symm.trans hm)
    · rw [hm] at hno
      exact absurd trivial hno
  · rw [hscanner, hfailed]
    exact h.stopped
  · rw [hscanner]
    exact fun hd => (hdisc hd).elim h.disconnected id
  · exact hclosing
  · rw [hmap]
    exact hfinished
  · rw [hbroken]
    exact h.broken

/-- A second boundary is never on its way. -/
lemma no_second_boundary (h : Control cfg s) {e : Nat} {rest : List DrainMessage}
    (hmsg : s.messages = .nodeBoundary e :: rest) : s.drain.nodeEndSeq = none := by
  by_contra hne
  have hle := h.phase.boundaries_le
  rw [boundaries, hmsg, if_neg hne, countP_cons_of_pos (by rfl)] at hle
  omega

/-- Before the map is published the drain meets only nodes. -/
lemma node_of_pending (h : Invariant cfg s) (hloc : s.drain.loc = .pending) {d : DrainItem}
    (hnext : s.drain.buffer.lookup s.drain.nextSeq = some d) : cfg.kindAt d.seq = some .node := by
  by_contra hkind
  have hsent := (h.items.buffer _ (mem_of_lookup_eq hnext)).2.1
  exact h.control.reserved d.seq (.inl hsent.1) hkind hloc

/-- A drain that closes without a failure has a scanner that was released. -/
lemma published_at_close (h : Control cfg s) (hpc : s.drain.pc = .closing)
    (hfailed : s.failed = false) : s.locMap ≠ none := by
  have hrun : s.scanner.running = true := by
    by_contra hstop
    rw [h.stopped (by simpa using hstop)] at hfailed
    cases hfailed
  rcases h.disconnected (h.closing (.inl hpc)) with hfin | hstop
  · obtain ⟨_, ⟨_, _, hend⟩ | ⟨_, _, hloc⟩⟩ := h.phase.of_active hrun (by rw [hfin]; simp)
    · simp [hfin] at hend
    · exact h.locMap_of_loc hloc
  · rw [hrun] at hstop
    cases hstop

lemma afterCheck_closing {d : Drain} (h : d.afterCheck = .closing ∨ d.afterCheck = .finished) :
    d.disconnected = true := by
  unfold Drain.afterCheck at h
  cases hd : d.disconnected
  · simp [hd] at h
  · rfl

lemma afterCheck_ne_finished (d : Drain) : d.afterCheck ≠ .finished := by
  unfold Drain.afterCheck
  cases d.disconnected <;> simp

lemma control_publish (h : Control cfg s) {merged : LocMap} (hpc : s.drain.pc = .merging W merged) :
    Control cfg { s with
      drain := { s.drain with pc := .signalling merged }, locMap := some merged } := by
  obtain ⟨hloc, hend⟩ := h.publishing (by rw [hpc]; trivial)
  constructor
  · exact h.phase.congr rfl rfl rfl id
  · exact h.reserved
  · exact h.signal
  · exact fun _ hne => absurd rfl (hne merged)
  · intro m hm
    rw [hloc] at hm
    cases hm
  · exact fun _ => ⟨hloc, hend⟩
  · intro m hm
    cases hm
    rfl
  · exact h.stopped
  · exact h.disconnected
  · rintro (hc | hc) <;> cases hc
  · exact fun _ => by simp
  · exact h.broken

/-- The signal finds a scanner that waits, or one that has stopped. -/
lemma control_signalScanner (h : Control cfg s) {map : LocMap}
    (hpc : s.drain.pc = .signalling map) : Control cfg { s with
      drain := { s.drain with pc := s.drain.afterCheck, loc := .published map }, signal := true } := by
  obtain ⟨hloc, hend⟩ := h.publishing (by rw [hpc]; trivial)
  constructor
  · cases h.phase with
    | before _ hnone _ _ =>
      rw [boundaries, if_neg hend] at hnone
      omega
    | waiting hwait hone => exact .waiting hwait hone
    | released _ _ _ hpub => exact absurd hloc hpub
    | stopped hrun hone => exact .stopped hrun hone
  · exact fun _ _ _ => by simp
  · exact fun _ => by simp
  · intro hp
    cases hp
  · intro m hm
    cases hm
    exact h.signalling map hpc
  · exact fun hpub => absurd hpub (afterCheck_not_publishing s.drain)
  · intro m hm
    have hno := afterCheck_not_publishing s.drain
    rw [show s.drain.afterCheck = .signalling m from hm] at hno
    exact absurd trivial hno
  · exact h.stopped
  · exact h.disconnected
  · exact fun hc => afterCheck_closing hc
  · exact fun hc => absurd hc (afterCheck_ne_finished s.drain)
  · exact h.broken

lemma drainStep_control (h : Invariant cfg s) (hstep : DrainStep cfg s t) : Control cfg t := by
  have hc := h.control
  cases hstep with
  | receiveItem d rest hrun hpc hmsg =>
    refine control_of_drain hc rfl rfl rfl rfl rfl ?_ rfl id .inl (by simp) (by simp)
      (.inr ⟨by rw [hpc]; exact id, id⟩)
    simp [boundaries, hmsg, isBoundary]
  | receiveBoundary e rest hrun hpc hmsg hfirst =>
    refine control_of_drain hc rfl rfl rfl rfl rfl ?_ rfl (fun _ => by simp) .inl (by simp) (by simp)
      (.inr ⟨by rw [hpc]; exact id, id⟩)
    simp [boundaries, hmsg, hfirst, countP_cons, isBoundary]
  | boundaryTwice e rest hrun hpc hmsg hagain => exact absurd (no_second_boundary hc hmsg) hagain
  | timeout hrun hpc =>
    exact control_of_drain hc rfl rfl rfl rfl rfl rfl rfl id .inl (by simp) (by simp)
      (.inr ⟨by rw [hpc]; exact id, id⟩)
  | disconnect hrun hpc hmsg hscanner hworkers =>
    exact control_of_drain hc rfl rfl rfl rfl rfl rfl rfl id (fun _ => .inr hscanner) (fun _ => rfl) (by simp)
      (.inr ⟨by rw [hpc]; exact id, id⟩)
  | process | refuse | stop =>
    exact control_of_drain hc rfl rfl rfl rfl rfl rfl rfl id .inl hc.closing hc.finished (.inl rfl)
  | earlyItem d kind hrun hpc hnext hloc hkind hne =>
    have hnode := node_of_pending h hloc hnext
    rw [hkind] at hnode
    exact absurd (Option.some.inj hnode) hne
  | settle hrun hpc hnext hbarrier =>
    exact control_of_drain hc rfl rfl rfl rfl rfl rfl rfl id .inl (fun hcl => afterCheck_closing hcl)
      (fun hf => absurd hf (afterCheck_ne_finished s.drain))
      (.inr ⟨by rw [hpc]; exact id, afterCheck_not_publishing s.drain⟩)
  | barrier hrun hpc hnext hbarrier =>
    obtain ⟨hloc, e, he, _⟩ := hbarrier
    have hnone : s.locMap = none := by
      apply hc.pending hloc
      intro m hm
      rw [hpc] at hm
      cases hm
    refine ⟨hc.phase.congr rfl rfl rfl id, hc.reserved, hc.signal, fun _ _ => hnone, hc.published,
      fun _ => ⟨hloc, ?_⟩, ?_, hc.stopped, hc.disconnected, ?_, ?_, hc.broken⟩
    · simp [he]
    · intro m hm
      cases hm
    · rintro (hcl | hcl) <;> cases hcl
    · intro hf
      cases hf
  | takeSlot w merged hrun hpc =>
    obtain ⟨hloc, hend⟩ := hc.publishing (by rw [hpc]; trivial)
    have hnone : s.locMap = none := by
      apply hc.pending hloc
      intro m hm
      rw [hpc] at hm
      cases hm
    refine ⟨hc.phase.congr rfl rfl rfl id, hc.reserved, hc.signal, fun _ _ => hnone, hc.published,
      fun _ => ⟨hloc, hend⟩, ?_, hc.stopped, hc.disconnected, ?_, ?_, hc.broken⟩
    · intro m hm
      cases hm
    · rintro (hcl | hcl) <;> cases hcl
    · intro hf
      cases hf
  | publish merged hrun hpc hmissing hunset => exact control_publish hc hpc
  | publishedBefore merged hrun hpc hmissing hset =>
    obtain ⟨hloc, _⟩ := hc.publishing (by rw [hpc]; trivial)
    refine absurd (hc.pending hloc fun m hm => ?_) hset
    rw [hpc] at hm
    cases hm
  | signalScanner map hrun hpc => exact control_signalScanner hc hpc
  | finish hrun hpc hfailed hbuffer =>
    exact control_of_drain hc rfl rfl rfl rfl rfl rfl rfl id .inl (fun _ => hc.closing (.inl hpc))
      (fun _ => published_at_close hc hpc hfailed) (.inr ⟨by rw [hpc]; exact id, id⟩)

lemma step_invariant (hdiff : DiffSorted cfg.diff) (hfirst : NodesFirst cfg.base)
    (hdistinct : DistinctNodes cfg.base) (h : Invariant cfg s) (hstep : Step cfg s t) :
    Invariant cfg t := by
  cases hstep with
  | scanner hstep => exact scannerStep_invariant hfirst h hstep
  | worker w hstep => exact workerStep_invariant hdistinct h hstep
  | drain hstep =>
    exact ⟨drainStep_items h.items hstep, drainStep_coords hdiff hdistinct h hstep,
      drainStep_control h hstep⟩

lemma start_invariant : Invariant cfg (start cfg W) := by
  constructor
  · constructor <;> simp [start, GoodWorker]
  · constructor <;> simp [start]
  · constructor
    · exact .before rfl rfl rfl (.inl ⟨.inl rfl, rfl⟩)
    · rintro i (hi | ⟨hc, _⟩)
      · exact absurd hi (Nat.not_lt_zero i)
      · cases hc
    all_goals simp [start, DrainPc.Publishing]

lemma reachable_invariant (hdiff : DiffSorted cfg.diff) (hfirst : NodesFirst cfg.base)
    (hdistinct : DistinctNodes cfg.base) (h : Reachable cfg s) : Invariant cfg s := by
  induction h with
  | refl => exact start_invariant
  | tail _ hstep ih => exact step_invariant hdiff hfirst hdistinct ih hstep

/-- The blob a worker has in hand. -/
def handled : Worker → Option Nat
  | .taken b => some b.seq
  | .extracted i _ => some i
  | .flushed i => some i
  | .ready d => some d.seq
  | .idle => none
  | .finished => none
  | .failed => none

/-- The scanner has let the blob go: it is counted, or found in a channel, with a
worker, in the reorder buffer or behind the drain's cursor. -/
inductive Dispatched (s : State W) (i : Nat) : Prop where
  | counted (hi : i < s.scanner.seq)
  | queued (b : ScannedBlob) (hb : b ∈ s.candidates) (hi : b.seq = i)
  | held (w : Fin W) (hi : handled (s.workers w) = some i)
  | sent (d : DrainItem) (hd : .item d ∈ s.messages) (hi : d.seq = i)
  | buffered (p : Nat × DrainItem) (hp : p ∈ s.drain.buffer) (hi : p.2.seq = i)
  | processed (hi : i < s.drain.nextSeq)

/-- A rewrite of the blob with this reading of the map handle is on its way. -/
def Rewritten (s : State W) (i : Nat) (m : Option LocMap) : Prop :=
  (∃ w, s.workers w = .ready (.rewritten i m)) ∨ .item (.rewritten i m) ∈ s.messages ∨
    ∃ n, (n, .rewritten i m) ∈ s.drain.buffer

lemma seq_lt_of_goodBlob {b : ScannedBlob} (h : GoodBlob cfg s b) : b.seq < s.scanner.seq := by
  cases b with
  | candidate i => exact h
  | passthrough i => exact h.1

lemma seq_lt_of_goodWorker {x : Worker} (h : GoodWorker cfg s x) {i : Nat} (hi : handled x = some i) :
    i < s.scanner.seq := by
  cases x with
  | taken b =>
    cases hi
    exact seq_lt_of_goodBlob h
  | extracted | flushed =>
    cases hi
    exact h.1
  | ready d =>
    cases hi
    exact h.1.1
  | idle => cases hi
  | finished => cases hi
  | failed => cases hi

lemma dispatched_lt (h : Items cfg s) {i : Nat} (hi : Dispatched s i) : i < s.scanner.seq := by
  cases hi with
  | counted hi => exact hi
  | queued b hb hi =>
    rw [← hi]
    exact seq_lt_of_goodBlob (h.candidates b hb)
  | held w hi => exact seq_lt_of_goodWorker (h.workers w) hi
  | sent d hd hi =>
    have hgood : GoodItem cfg s d := h.messages _ hd
    rw [← hi]
    exact hgood.1.1
  | buffered p hp hi =>
    rw [← hi]
    exact (h.buffer p hp).2.1.1
  | processed hi => exact (h.processed i hi).1

lemma goodItem_rewritten (h : Items cfg s) {i : Nat} {m : Option LocMap} (hr : Rewritten s i m) :
    GoodItem cfg s (.rewritten i m) := by
  rcases hr with ⟨w, hw⟩ | hmsg | ⟨n, hbuf⟩
  · have hgood := h.workers w
    rwa [hw] at hgood
  · exact h.messages _ hmsg
  · exact (h.buffer _ hbuf).2

lemma published_of_loc (h : Control cfg s) (hloc : s.drain.loc ≠ .pending) :
    ∃ m, s.drain.loc = .published m ∧ s.locMap = some m := by
  cases hl : s.drain.loc with
  | pending => exact absurd hl hloc
  | published m => exact ⟨m, rfl, h.published m hl⟩

theorem barrier_publishes_complete_map (hdiff : DiffSorted cfg.diff) (hfirst : NodesFirst cfg.base)
    (hdistinct : DistinctNodes cfg.base) (h : Reachable cfg s) :
    (∀ i, Dispatched s i → cfg.kindAt i ≠ some .node →
        ∃ m, s.drain.loc = .published m ∧ s.locMap = some m) ∧
      (∀ i m, Rewritten s i m → cfg.kindAt i ≠ some .node → m = s.locMap) ∧
      (∀ m, (s.locMap = some m ∨ s.drain.pc = .merging W m) → Exact cfg m ∧
        cfg.locations.totalReferenced - m.entries.length = (unresolved cfg).length) ∧
      (∀ m, s.locMap = some m → unresolved cfg = [] ∨ cfg.ignoreMissingNodes = true) ∧
      (∀ n, s.drain.refusal = some n →
        n = (unresolved cfg).length ∧ n ≠ 0 ∧ cfg.ignoreMissingNodes = false) ∧
      (s.drain.pc = .finished → ∃ m, s.locMap = some m) ∧ s.broken = none := by
  have hinv := reachable_invariant hdiff hfirst hdistinct h
  refine ⟨?_, ?_, ?_, ?_, ?_, ?_, hinv.control.broken⟩
  · intro i hi hkind
    have hlt := dispatched_lt hinv.items hi
    exact published_of_loc hinv.control (hinv.control.reserved i (.inl hlt) hkind)
  · intro i m hr hkind
    exact ((goodItem_rewritten hinv.items hr).2 i m rfl hkind).1
  · intro m hm
    have hexact : Exact cfg m := by
      rcases hm with hm | hm
      · exact (hinv.coords.published m hm).1
      · exact exact_of_merging hdiff hdistinct (hinv.coords.merging W m hm)
    exact ⟨hexact, missingNodes_exact hdiff hexact⟩
  · intro m hm
    obtain ⟨hexact, hmissing⟩ := hinv.coords.published m hm
    rw [missingNodes_exact hdiff hexact, length_eq_zero_iff] at hmissing
    exact hmissing
  · intro n hn
    obtain ⟨hne, hstrict, m, hexact, rfl⟩ := hinv.coords.refusal n hn
    exact ⟨missingNodes_exact hdiff hexact, hne, hstrict⟩
  · intro hfin
    exact Option.ne_none_iff_exists'.mp (hinv.control.finished hfin)

/-- Way 7 modified, with a reference to node 1. -/
def wayChange : SortedDiff where
  kind := fun k => if k = .way then
    ⟨OscCompact.recordBytes 7 (.way [1]) [] ⟨0, 0, 0, 0, 0, 0⟩, [7], [0], []⟩ else ⟨[], [], [], []⟩

def nodeThenWay : Config where
  base := [⟨⟨.node, 1, 2, 2, none⟩, [(1, (10, 20)), (2, (30, 40))]⟩, ⟨⟨.way, 7, 7, 1, none⟩, []⟩]
  diff := wayChange
  route := .splice
  window := 4
  candidateCapacity := 4
  drainCapacity := 4
  ignoreMissingNodes := false

/-- What the base gives of node 1. -/
def nodeOne : LocMap := (∅ : LocMap).insert 1 (10, 20)

lemma localCoords_nodeThenWay : nodeThenWay.localCoords 0 = some nodeOne := by
  rfl

lemma run_step {P : State W → Prop} (hstep : Step cfg s t)
    (h : ∃ u, Relation.ReflTransGen (Step cfg) t u ∧ P u) :
    ∃ u, Relation.ReflTransGen (Step cfg) s u ∧ P u := by
  obtain ⟨u, hrun, hu⟩ := h
  exact ⟨u, hrun.head hstep, hu⟩

/-- The node blob goes through the worker, the drain meets the barrier and publishes,
and the way is rewritten. -/
lemma nodeThenWay_run : ∃ s : State 1, Reachable nodeThenWay s ∧
    s.locMap = some nodeOne ∧ Rewritten s 1 (some nodeOne) := by
  refine run_step (.scanner (.reserveSeq 3 rfl rfl (by decide) (.inl rfl) rfl)) ?_
  refine run_step (.scanner (.dispatch rfl rfl (by decide) (by decide))) ?_
  refine run_step (.scanner (.poll rfl rfl rfl)) ?_
  refine run_step (.worker 0 (.dequeue _ _ rfl rfl)) ?_
  refine run_step (.worker 0 (.extract 0 nodeOne rfl localCoords_nodeThenWay)) ?_
  refine run_step (.worker 0 (.flush 0 nodeOne rfl)) ?_
  refine run_step (.worker 0 (.falsePositive 0 rfl)) ?_
  refine run_step (.worker 0 (.send _ rfl (by decide))) ?_
  refine run_step (.drain (.receiveItem _ _ rfl rfl rfl)) ?_
  refine run_step (.drain (.process _ rfl rfl rfl (fun _ => rfl))) ?_
  refine run_step (.scanner (.sendBoundary rfl rfl rfl (by decide) (by decide))) ?_
  refine run_step (.drain (.settle rfl rfl rfl ?_)) ?_
  · rintro ⟨_, e, he, _⟩
    cases he
  refine run_step (.drain (.receiveBoundary _ _ rfl rfl rfl rfl)) ?_
  refine run_step (.drain (.barrier rfl rfl rfl ⟨rfl, 1, rfl, le_refl 1⟩)) ?_
  refine run_step (.drain (.takeSlot 0 _ rfl rfl)) ?_
  refine run_step (.drain (.publish nodeOne rfl rfl (.inl rfl) rfl)) ?_
  refine run_step (.drain (.signalScanner nodeOne rfl rfl)) ?_
  refine run_step (.scanner (.release rfl rfl rfl (by decide))) ?_
  refine run_step (.scanner (.reserveSeq 3 rfl rfl (by decide) (.inr rfl) rfl)) ?_
  refine run_step (.scanner (.dispatch rfl rfl (by decide) (by decide))) ?_
  refine run_step (.worker 0 (.dequeue _ _ rfl rfl)) ?_
  refine run_step (.worker 0 (.extract 1 ∅ rfl rfl)) ?_
  refine run_step (.worker 0 (.flush 1 ∅ rfl)) ?_
  refine run_step (.worker 0 (.rewrite 1 rfl)) ?_
  exact ⟨_, .refl, rfl, .inl ⟨0, rfl⟩⟩

lemma wayChange_sorted : DiffSorted wayChange := by
  intro k
  cases k with
  | node => decide
  | way => decide
  | relation => decide

theorem barrier_publishes_node_then_way :
    DiffSorted nodeThenWay.diff ∧ NodesFirst nodeThenWay.base ∧ DistinctNodes nodeThenWay.base ∧
      ∃ s : State 1, Reachable nodeThenWay s ∧ Rewritten s 1 (some nodeOne) ∧
        s.locMap = some nodeOne ∧ Exact nodeThenWay nodeOne ∧ unresolved nodeThenWay = [] := by
  have hfirst : NodesFirst nodeThenWay.base := by
    unfold NodesFirst nodeThenWay
    decide
  have hdistinct : DistinctNodes nodeThenWay.base := by
    unfold DistinctNodes
    decide
  obtain ⟨s, hs, hmap, hrew⟩ := nodeThenWay_run
  obtain ⟨_, _, hexact, hmissing, _⟩ :=
    barrier_publishes_complete_map wayChange_sorted hfirst hdistinct hs
  refine ⟨wayChange_sorted, hfirst, hdistinct, s, hs, hrew, hmap, (hexact nodeOne (.inl hmap)).1, ?_⟩
  rcases hmissing nodeOne hmap with hnone | hignore
  · exact hnone
  · cases hignore

end ApplyPublication
