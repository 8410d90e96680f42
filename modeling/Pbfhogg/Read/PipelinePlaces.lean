import Mathlib.Algebra.Order.BigOperators.Group.Finset
import Pbfhogg.Read.PipelineInvariant

/-!
# Where each item of the pipelined read is

While the consumer runs, every item passed on and not delivered is in one place. The window of the
reorder buffer follows by counting: all items below one that arrives hold a permit.
-/

namespace ReadPipeline

open ReorderBuffer (Buffer tryPush popReady drainFilled held)
open List

variable {T E : Type} {cfg : Config T E} {s t : State T E}

variable {c : Consumer T E} {source : List (Raw E)} {i : Item T E} {k : Nat}
  {b : Buffer (Slot T E × Bool)}

/-- The consumer is in its loop. -/
def Consumer.Live : Consumer T E → Prop
  | .exiting _ => False
  | .dropping _ => False
  | .done _ => False
  | _ => True

lemma Consumer.Live.open (h : c.Live) : c.Open := by
  intro o ho
  rw [ho] at h
  exact h

/-- The item on its way from the channel to the buffer. -/
def Consumer.inHand : Consumer T E → Nat → Nat
  | .arrived i, k => if i.seq = k then 1 else 0
  | _, _ => 0

/-- How often an item is with a task, on the channel, in hand or in the buffer. -/
def load (s : State T E) (k : Nat) : Nat :=
  s.tasks.countP (fun x => decide (x.seq = k)) + s.decoded.countP (fun i => decide (i.seq = k)) +
    s.consumer.inHand k + if (held s.pending k).isSome then 1 else 0

/-- The item is what its number says. -/
def Genuine (cfg : Config T E) (source : List (Raw E)) (i : Item T E) : Prop :=
  match cfg.poolError with
  | some e => i.seq = 0 ∧ i.slot = some (.error (.failed e)) ∧ i.permit = false
  | none =>
    (source[i.seq]? = some .blob ∧ i.slot = decodeSlot cfg i.seq ∧ i.permit = true) ∨
      ∃ f, source[i.seq]? = some (.failed f) ∧ i.slot = some (.error f) ∧ i.permit = false

structure Placed (cfg : Config T E) (s : State T E) : Prop where
  place : ∀ k, load s k = if s.pending.nextSeq ≤ k ∧ k < s.dispatched then 1 else 0
  next_le : s.pending.nextSeq ≤ s.dispatched
  tasks : ∀ x ∈ s.tasks, s.source[x.seq]? = some .blob ∧
    ∀ r, x.phase = .sending r → r = decodeSlot cfg x.seq
  decoded : ∀ i ∈ s.decoded, Genuine cfg s.source i
  arrived : ∀ i, s.consumer = .arrived i → Genuine cfg s.source i
  buffered : ∀ k x p, held s.pending k = some (x, p) → Genuine cfg s.source ⟨k, x, p⟩
  window : s.pending.maxWindow = max defaultMaxWindow cfg.decodeAhead
  passed : ∀ k, k < s.pending.nextSeq → s.source[k]? = some .blob ∧ cfg.poolError = none
  followed : (∀ k x p, s.consumer ≠ .consuming k x p) →
    follow cfg s.pending.nextSeq = .ok s.delivered
  consuming : ∀ k x p, s.consumer = .consuming k x p → s.pending.nextSeq = k + 1 ∧
    follow cfg k = .ok s.delivered ∧ decodeSlot cfg k = some (.ok x)
  ready : s.consumer ≠ .draining → (∀ k x p, s.consumer ≠ .consuming k x p) →
    held s.pending s.pending.nextSeq = none
  closed : s.consumer = .closed → s.tasks = [] ∧ s.decoded = [] ∧ s.dispatcher = .finished

lemma Genuine.grow {source' : List (Raw E)} (h : Genuine cfg source i)
    (hgrow : ∀ (k : Nat) (r : Raw E), source[k]? = some r → source'[k]? = some r) :
    Genuine cfg source' i := by
  unfold Genuine at h ⊢
  split at h
  · exact h
  · rcases h with ⟨hs, h⟩ | ⟨f, hs, h⟩
    · exact .inl ⟨hgrow _ _ hs, h⟩
    · exact .inr ⟨f, hgrow _ _ hs, h⟩

lemma placed_start (cfg : Config T E) : Placed cfg (start cfg) := by
  refine ⟨?_, Nat.zero_le _, nofun, nofun, nofun, ?_, rfl, nofun, fun _ => rfl, nofun, ?_, nofun⟩
  · intro k
    simp [load, start, Consumer.inHand]
  · intro k x p h
    simp [start] at h
  · intro _ _
    simp [start]

/-- A step that leaves the items and the consumer where they are. -/
theorem Placed.still (h : Placed cfg s)
    (hgrow : ∀ (k : Nat) (r : Raw E), s.source[k]? = some r → t.source[k]? = some r)
    (hd : s.dispatcher = .finished → t.dispatcher = .finished) (htasks : t.tasks = s.tasks)
    (hdecoded : t.decoded = s.decoded) (hpending : t.pending = s.pending)
    (hconsumer : t.consumer = s.consumer) (hdispatched : t.dispatched = s.dispatched)
    (hdelivered : t.delivered = s.delivered) : Placed cfg t := by
  refine ⟨?_, ?_, ?_, ?_, ?_, ?_, ?_, ?_, ?_, ?_, ?_, ?_⟩
  · intro k
    have := h.place k
    unfold load at this ⊢
    rw [htasks, hdecoded, hpending, hconsumer, hdispatched]
    exact this
  · rw [hpending, hdispatched]
    exact h.next_le
  · intro x hx
    rw [htasks] at hx
    obtain ⟨hs, hr⟩ := h.tasks x hx
    exact ⟨hgrow _ _ hs, hr⟩
  · intro i hi
    rw [hdecoded] at hi
    exact (h.decoded i hi).grow hgrow
  · intro i hi
    rw [hconsumer] at hi
    exact (h.arrived i hi).grow hgrow
  · intro k x p hx
    rw [hpending] at hx
    exact (h.buffered k x p hx).grow hgrow
  · rw [hpending]
    exact h.window
  · intro k hk
    rw [hpending] at hk
    obtain ⟨hs, hp⟩ := h.passed k hk
    exact ⟨hgrow _ _ hs, hp⟩
  · rw [hconsumer, hpending, hdelivered]
    exact h.followed
  · rw [hconsumer, hpending, hdelivered]
    exact h.consuming
  · rw [hconsumer, hpending]
    exact h.ready
  · rw [hconsumer, htasks, hdecoded]
    intro hc
    obtain ⟨ht, hdec, hfin⟩ := h.closed hc
    exact ⟨ht, hdec, hd hfin⟩

lemma getElem?_append_one {α : Type} {l : List α} {x y : α} (h : l[k]? = some x) :
    (l ++ [y])[k]? = some x := by
  rw [List.getElem?_append_left (List.getElem?_eq_some_iff.mp h).1]
  exact h

lemma Placed.reader (h : Placed cfg s) (hstep : ReaderStep cfg s t) : Placed cfg t := by
  cases hstep with
  | read | readFails | readCancelled =>
    exact h.still (fun _ _ hx => getElem?_append_one hx) id rfl rfl rfl rfl rfl rfl
  | _ => exact h.still (fun _ _ hx => hx) id rfl rfl rfl rfl rfl rfl

/-- What the dispatcher has in hand is the next to be passed on. -/
theorem Line.front (h : Line cfg s) (hopen : s.dispatcher.RawOpen) {r : Raw E}
    (hhand : s.dispatcher.hand = [(k, r)]) : k = s.dispatched ∧ s.source[k]? = some r := by
  obtain ⟨-, heq⟩ := h.line hopen
  rw [hhand] at heq
  have hget : (numbered s.source)[s.dispatched]? = some (k, r) := by
    have := congrArg (fun l => l[0]?) heq
    simp only [cons_append, getElem?_cons_zero, getElem?_drop, Nat.add_zero] at this
    exact this.symm
  rw [getElem?_numbered] at hget
  cases hx : s.source[s.dispatched]? with
  | none =>
    rw [hx] at hget
    cases hget
  | some r' =>
    rw [hx] at hget
    cases hget
    exact ⟨rfl, hx⟩

lemma Placed.pass (h : Placed cfg s) (d : Dispatcher E) (g : Nat) (new : List (Task T E))
    (items : List (Item T E)) (hc : s.consumer ≠ .closed)
    (hload : ∀ k, new.countP (fun x => decide (x.seq = k)) +
      items.countP (fun i => decide (i.seq = k)) = if s.dispatched = k then 1 else 0)
    (hnew : ∀ x ∈ new, s.source[x.seq]? = some .blob ∧
      ∀ r, x.phase = .sending r → r = decodeSlot cfg x.seq)
    (hitems : ∀ i ∈ items, Genuine cfg s.source i) :
    Placed cfg { s with
      dispatcher := d, gate := g, tasks := s.tasks ++ new, decoded := s.decoded ++ items
      dispatched := s.dispatched + 1 } := by
  refine ⟨?_, Nat.le_succ_of_le h.next_le, ?_, ?_, h.arrived, h.buffered, h.window, h.passed,
    h.followed, h.consuming, h.ready, fun hc' => absurd hc' hc⟩
  · intro k
    have hplace := h.place k
    have hone := hload k
    have hle := h.next_le
    simp only [load, countP_append] at hplace ⊢
    generalize (if (held s.pending k).isSome then 1 else 0) = b at hplace ⊢
    split_ifs at hplace hone ⊢ <;> omega
  · intro x hx
    rcases mem_append.mp hx with hx | hx
    · exact h.tasks x hx
    · exact hnew x hx
  · intro i hi
    rcases mem_append.mp hi with hi | hi
    · exact h.decoded i hi
    · exact hitems i hi

lemma Placed.dispatcher (h : Placed cfg s) (hl : Line cfg s) (he : Ends cfg s)
    (hlive : s.consumer.Live) (hstep : DispatcherStep cfg s t) : Placed cfg t := by
  have hopen := hlive.open
  have hrun : s.dispatcher ≠ .finished → s.consumer ≠ .closed := by
    intro hd hc
    exact hd (h.closed hc).2.2
  cases hstep with
  | sendBuildError e hd _ hroom =>
    cases hp : cfg.poolError with
    | none => exact absurd hd (he.built hp e)
    | some e' =>
      obtain ⟨-, hcase⟩ := he.pool e' hp
      rw [hd] at hcase
      obtain ⟨heq, hzero⟩ : e = e' ∧ s.dispatched = 0 := by simpa using hcase
      have hpass := h.pass .finished s.gate []
        [⟨0, some (.error (.failed e)), false⟩] (hrun (by rw [hd]; nofun))
        (by intro k; rw [hzero]; simp) nofun (by
          intro i hi
          rw [mem_singleton.mp hi]
          unfold Genuine
          rw [hp, heq]
          exact ⟨rfl, rfl, rfl⟩)
      rw [hzero, append_nil] at hpass
      exact hpass
  | dropBuildError e hd hclosed => exact absurd hopen hclosed
  | acquire k hd hroom =>
    obtain ⟨hk, hs⟩ := hl.front (k := k) (r := .blob) (by rw [hd]; trivial) (by rw [hd]; rfl)
    have hpass := h.pass .receiving (s.gate + 1) [⟨k, .waiting⟩] []
      (hrun (by rw [hd]; nofun)) (by intro j; rw [← hk]; simp) (by
        intro x hx
        rw [mem_singleton.mp hx]
        exact ⟨hs, nofun⟩) nofun
    rw [append_nil] at hpass
    exact hpass
  | sendError k f hd _ hroom =>
    obtain ⟨hk, hs⟩ := hl.front (k := k) (r := .failed f) (by rw [hd]; trivial) (by rw [hd]; rfl)
    have hp := he.has_pool hd (by simp)
    have hpass := h.pass .receiving s.gate []
      [⟨k, some (.error f), false⟩] (hrun (by rw [hd]; nofun))
      (by intro j; rw [← hk]; simp) nofun (by
        intro i hi
        rw [mem_singleton.mp hi]
        unfold Genuine
        rw [hp]
        exact .inr ⟨f, hs, rfl, rfl⟩)
    rw [append_nil] at hpass
    exact hpass
  | build hd | buildFails _ hd | receive _ _ _ hd | receiveClosed hd | loadStop _ _ hd
  | admits _ hd | forward _ _ hd | park _ hd =>
    exact h.still (fun _ _ hx => hx) (by simp [hd]) rfl rfl rfl rfl rfl rfl
  | sendErrorFails k f hd hclosed => exact absurd hopen hclosed
  | join hd htasks => exact h.still (fun _ _ hx => hx) (fun _ => rfl) rfl rfl rfl rfl rfl rfl

lemma Placed.release (h : Placed cfg s) (n : Nat) : Placed cfg (s.release n) := by
  refine h.still ?_ ?_ release_tasks release_decoded release_pending release_consumer
    release_dispatched release_delivered
  · rw [release_source]
    exact fun _ _ hx => hx
  · intro hf
    rcases release_dispatcher (s := s) (n := n) with hd | ⟨k, hk, -⟩
    · rw [hd]
      exact hf
    · rw [hf] at hk
      cases hk

/-- One task changes its phase or hands its item to the channel. -/
theorem Placed.retask (h : Placed cfg s) {front back : List (Task T E)} {x : Task T E}
    (new : List (Task T E)) (items : List (Item T E)) (ht : s.tasks = front ++ x :: back)
    (hload : ∀ k, new.countP (fun y => decide (y.seq = k)) +
      items.countP (fun i => decide (i.seq = k)) = if x.seq = k then 1 else 0)
    (hnew : ∀ y ∈ new, s.source[y.seq]? = some .blob ∧
      ∀ r, y.phase = .sending r → r = decodeSlot cfg y.seq)
    (hitems : ∀ i ∈ items, Genuine cfg s.source i) :
    Placed cfg { s with tasks := front ++ new ++ back, decoded := s.decoded ++ items } := by
  refine ⟨?_, h.next_le, ?_, ?_, h.arrived, h.buffered, h.window, h.passed, h.followed, h.consuming,
    h.ready, ?_⟩
  · intro k
    have hplace := h.place k
    have hone := hload k
    simp only [load, ht, countP_append, countP_cons, decide_eq_true_eq] at hplace ⊢
    rw [← hplace]
    omega
  · intro y hy
    rcases mem_append.mp hy with hy | hy
    · rcases mem_append.mp hy with hy | hy
      · exact h.tasks y (by rw [ht]; simp [hy])
      · exact hnew y hy
    · exact h.tasks y (by rw [ht]; simp [hy])
  · intro i hi
    rcases mem_append.mp hi with hi | hi
    · exact h.decoded i hi
    · exact hitems i hi
  · intro hc
    have := (h.closed hc).1
    rw [ht] at this
    simp at this

lemma Placed.task (h : Placed cfg s) (he : Ends cfg s) (hlive : s.consumer.Live)
    (hstep : TaskStep cfg s t) : Placed cfg t := by
  have hopen := hlive.open
  cases hstep with
  | begin k front back ht hfree =>
    have hmem := h.tasks ⟨k, .waiting⟩ (by rw [ht]; simp)
    have hnext := h.retask [⟨k, .running⟩] [] ht (by simp) (by
      intro y hy
      rw [mem_singleton.mp hy]
      exact ⟨hmem.1, nofun⟩) nofun
    simpa using hnext
  | decode k front back ht =>
    have hmem := h.tasks ⟨k, .running⟩ (by rw [ht]; simp)
    have hnext := h.retask [⟨k, .sending (decodeSlot cfg k)⟩] [] ht (by simp)
      (by
        intro y hy
        rw [mem_singleton.mp hy]
        refine ⟨hmem.1, ?_⟩
        intro r hr
        cases hr
        rfl) nofun
    simpa using hnext
  | send k r front back ht _ hroom =>
    obtain ⟨hs, hr⟩ := h.tasks ⟨k, .sending r⟩ (by rw [ht]; simp)
    have hp : cfg.poolError = none := by
      cases hp : cfg.poolError with
      | none => rfl
      | some e =>
        have := (he.pool e hp).1
        rw [ht] at this
        simp at this
    have hnext := h.retask [] [⟨k, r, true⟩] ht (by simp) nofun (by
      intro i hi
      rw [mem_singleton.mp hi]
      unfold Genuine
      rw [hp]
      exact .inl ⟨hs, hr r rfl, rfl⟩)
    simpa using hnext
  | sendFails k r front back ht hclosed => exact absurd hopen hclosed
  | raiseShutdown k front back ht =>
    have := (he.quiet hopen).2 ⟨k, .stopping⟩ (by rw [ht]; simp)
    exact absurd rfl this

lemma follow_nothing {n : Nat} {l : List (Nat × T)} (h : follow cfg n = .ok l)
    (hslot : decodeSlot cfg n = none) : follow cfg (n + 1) = .ok l := by
  rw [follow, h]
  simp only [hslot]

lemma follow_ok {n : Nat} {l : List (Nat × T)} {x : T} (h : follow cfg n = .ok l)
    (hslot : decodeSlot cfg n = some (.ok x)) (hc : cfg.consume l x = .ok ()) :
    follow cfg (n + 1) = .ok (l ++ [(n, x)]) := by
  rw [follow, h]
  simp only [hslot, hc]

/-- The consumer moves on with nothing in hand. -/
theorem Placed.stand (h : Placed cfg s) (hold : ∀ k, s.consumer.inHand k = 0)
    (hnew : ∀ k, c.inHand k = 0) (hconsuming : ∀ k x p, s.consumer ≠ .consuming k x p)
    (hconsuming' : ∀ k x p, c ≠ .consuming k x p) (harrived : ∀ i, c ≠ .arrived i)
    (hready : c ≠ .draining → held s.pending s.pending.nextSeq = none)
    (hclosed : c = .closed → s.tasks = [] ∧ s.decoded = [] ∧ s.dispatcher = .finished) :
    Placed cfg { s with consumer := c } := by
  refine ⟨?_, h.next_le, h.tasks, h.decoded, fun i hi => absurd hi (harrived i), h.buffered,
    h.window, h.passed, fun _ => h.followed hconsuming,
    fun k x p hc => absurd hc (hconsuming' k x p), fun hc _ => hready hc, hclosed⟩
  intro k
  have hplace := h.place k
  simp only [load, hold k] at hplace
  simp only [load, hnew k]
  exact hplace

lemma Placed.receive (h : Placed cfg s) {rest : List (Item T E)} (hc : s.consumer = .waiting)
    (hd : s.decoded = i :: rest) :
    Placed cfg { s with consumer := .arrived i, decoded := rest } := by
  refine ⟨?_, h.next_le, h.tasks, ?_, ?_, h.buffered, h.window, h.passed, ?_, nofun, ?_, nofun⟩
  · intro k
    have hplace := h.place k
    simp only [load, hd, hc, Consumer.inHand, countP_cons, decide_eq_true_eq] at hplace ⊢
    rw [← hplace]
    omega
  · intro j hj
    exact h.decoded j (by rw [hd]; exact mem_cons_of_mem _ hj)
  · intro j hj
    cases hj
    exact h.decoded i (by rw [hd]; exact mem_cons_self)
  · intro _
    exact h.followed (by rw [hc]; nofun)
  · intro _ _
    exact h.ready (by rw [hc]; nofun) (by rw [hc]; nofun)

lemma Placed.push (h : Placed cfg s) (hc : s.consumer = .arrived i)
    (hb : tryPush s.pending i.seq (i.slot, i.permit) = .ok b) :
    Placed cfg { s with consumer := .draining, pending := b } := by
  obtain ⟨hwindow, hnext⟩ := ReorderBuffer.tryPush_keeps hb
  have hheld := ReorderBuffer.held_tryPush hb
  refine ⟨?_, ?_, h.tasks, h.decoded, nofun, ?_, ?_, ?_, ?_, nofun, ?_, nofun⟩
  · intro k
    have hplace := h.place k
    rw [hnext]
    simp only [load, hc, hheld, Consumer.inHand] at hplace ⊢
    by_cases hk : i.seq = k
    · -- the slot was free: the item was counted once
      have hfree : held s.pending k = none := by
        cases hx : held s.pending k with
        | none => rfl
        | some y =>
          rw [hx, if_pos hk] at hplace
          simp only [Option.isSome_some, if_true] at hplace
          split_ifs at hplace
          · omega
      rw [if_pos hk, hfree] at hplace
      rw [if_pos hk.symm, ← hplace]
      simp
    · rw [if_neg hk] at hplace
      rw [if_neg (Ne.symm hk), ← hplace]
  · rw [hnext]
    exact h.next_le
  · intro k x p hx
    rw [hheld] at hx
    by_cases hk : k = i.seq
    · rw [if_pos hk] at hx
      cases hx
      rw [hk]
      exact h.arrived i hc
    · rw [if_neg hk] at hx
      exact h.buffered k x p hx
  · rw [hwindow]
    exact h.window
  · rw [hnext]
    exact h.passed
  · intro _
    rw [hnext]
    exact h.followed (by rw [hc]; nofun)
  · exact fun hd => absurd rfl hd

lemma Placed.popped (h : Placed cfg s) {x : Slot T E} {p : Bool}
    (hb : popReady s.pending = some ((x, p), b)) :
    Genuine cfg s.source ⟨s.pending.nextSeq, x, p⟩ ∧ s.pending.nextSeq < s.dispatched := by
  have hheld := (ReorderBuffer.popReady_eq_some hb).1
  refine ⟨h.buffered _ _ _ hheld, ?_⟩
  by_contra hge
  have hplace := h.place s.pending.nextSeq
  rw [if_neg (by omega)] at hplace
  simp only [load, hheld, Option.isSome_some, if_true] at hplace
  omega

lemma Genuine.of_not_error {x : Slot T E} {p : Bool} (h : Genuine cfg source ⟨k, x, p⟩)
    (hx : ∀ f, x ≠ some (.error f)) :
    cfg.poolError = none ∧ source[k]? = some .blob ∧ x = decodeSlot cfg k := by
  unfold Genuine at h
  split at h
  · exact absurd h.2.1 (hx _)
  · next hp =>
    rcases h with ⟨hs, hslot, -⟩ | ⟨f, -, hslot, -⟩
    · exact ⟨hp, hs, hslot⟩
    · exact absurd hslot (hx f)

/-- The next item leaves the buffer, which is not an error. -/
theorem Placed.pop (h : Placed cfg s) {x : Slot T E} {p : Bool} (hc : s.consumer = .draining)
    (hb : popReady s.pending = some ((x, p), b)) (hx : ∀ f, x ≠ some (.error f))
    (hhand : ∀ k, c.inHand k = 0) (harrived : ∀ i, c ≠ .arrived i) (hclosed : c ≠ .closed)
    (hfollowed : (∀ k y q, c ≠ .consuming k y q) → c = .draining ∧ x = none)
    (hconsuming : ∀ k y q, c = .consuming k y q → k = s.pending.nextSeq ∧ x = some (.ok y)) :
    Placed cfg { s with consumer := c, pending := b } := by
  obtain ⟨hgen, hlt⟩ := h.popped hb
  obtain ⟨hp, hs, hslot⟩ := hgen.of_not_error hx
  obtain ⟨hheld, hnext, hwindow, hrest⟩ := ReorderBuffer.popReady_eq_some hb
  have hfollow := h.followed (by rw [hc]; nofun)
  refine ⟨?_, ?_, h.tasks, h.decoded, fun i hi => absurd hi (harrived i), ?_, ?_, ?_, ?_, ?_, ?_,
    fun hc' => absurd hc' hclosed⟩
  · intro k
    have hplace := h.place k
    rw [hnext]
    simp only [load, hc, Consumer.inHand] at hplace
    simp only [load, hhand, hrest]
    by_cases hk : k = s.pending.nextSeq
    · subst hk
      rw [hheld] at hplace
      simp only [Option.isSome_some, if_true, Nat.le_refl, true_and, hlt] at hplace
      simp only [if_true, Option.isSome_none, Bool.false_eq_true, if_false]
      rw [if_neg (by omega)]
      omega
    · rw [if_neg hk, hplace]
      split_ifs <;> omega
  · rw [hnext]
    exact hlt
  · intro k y q hy
    rw [hrest] at hy
    by_cases hk : k = s.pending.nextSeq
    · rw [if_pos hk] at hy
      cases hy
    · rw [if_neg hk] at hy
      exact h.buffered k y q hy
  · rw [hwindow]
    exact h.window
  · intro k hk
    rw [hnext] at hk
    by_cases hkn : k = s.pending.nextSeq
    · subst hkn
      exact ⟨hs, hp⟩
    · exact h.passed k (by omega)
  · intro hnot
    obtain ⟨-, hnone⟩ := hfollowed hnot
    rw [hnext]
    exact follow_nothing hfollow (hslot.symm.trans hnone)
  · intro k y q hcons
    obtain ⟨hk, hy⟩ := hconsuming k y q hcons
    subst hk
    exact ⟨hnext, hfollow, hslot.symm.trans hy⟩
  · intro hd hnot
    exact absurd (hfollowed hnot).1 hd

lemma Placed.consume (h : Placed cfg s) {x : T} {p : Bool} (hc : s.consumer = .consuming k x p)
    (hok : cfg.consume s.delivered x = .ok ()) :
    Placed cfg { s with consumer := .draining, delivered := s.delivered ++ [(k, x)] } := by
  obtain ⟨hnext, hfollow, hslot⟩ := h.consuming k x p hc
  refine ⟨?_, h.next_le, h.tasks, h.decoded, nofun, h.buffered, h.window, h.passed, ?_, nofun,
    fun hd => absurd rfl hd, nofun⟩
  · intro j
    have hplace := h.place j
    simp only [load, hc, Consumer.inHand] at hplace
    exact hplace
  · intro _
    change follow cfg s.pending.nextSeq = _
    rw [hnext]
    exact follow_ok hfollow hslot hok

lemma Placed.consumer (h : Placed cfg s) (hstep : ConsumerStep cfg s t)
    (hlive : t.consumer.Live) : Placed cfg t := by
  cases hstep with
  | check hc hok =>
    refine h.stand ?_ (fun _ => rfl) ?_ nofun nofun ?_ nofun
    · rw [hc]
      exact fun _ => rfl
    · rw [hc]
      nofun
    · intro _
      exact h.ready (by rw [hc]; nofun) (by rw [hc]; nofun)
  | receive i rest hc hd => exact h.receive hc hd
  | disconnect hc hd hgone htasks =>
    refine h.stand ?_ (fun _ => rfl) ?_ nofun nofun ?_ fun _ => ⟨htasks, hd, hgone⟩
    · rw [hc]
      exact fun _ => rfl
    · rw [hc]
      nofun
    · intro _
      exact h.ready (by rw [hc]; nofun) (by rw [hc]; nofun)
  | push i b hc hok hb => exact h.push hc hb
  | notReady hc hb =>
    refine h.stand ?_ (fun _ => rfl) ?_ nofun nofun ?_ nofun
    · rw [hc]
      exact fun _ => rfl
    · rw [hc]
      nofun
    · intro _
      exact ReorderBuffer.popReady_eq_none.mp hb
  | popNothing p b hc hb =>
    apply Placed.release
    have hpop := h.pop hc hb nofun (c := .draining) (fun _ => rfl) nofun nofun
      (fun _ => ⟨rfl, rfl⟩) nofun
    rw [← hc] at hpop
    exact hpop
  | popOk x p b hc hb =>
    refine h.pop hc hb nofun (fun _ => rfl) nofun nofun ?_ ?_
    · intro hnot
      exact absurd rfl (hnot _ _ _)
    · intro k y q heq
      cases heq
      exact ⟨rfl, rfl⟩
  | consume k x p hc hok =>
    apply Placed.release
    exact h.consume hc hok
  | checkFails | finish | finishFails => exact absurd hlive not_false
  | arrivedFails | pushPanics | popError | consumeFails | dropPending | dropReceiver =>
    rw [release_consumer] at hlive
    exact absurd hlive not_false

/-- Counting a list by one number after another. -/
theorem sum_countP {α : Type} (l : List α) (f : α → Nat) (a m : Nat) :
    ∑ j ∈ Finset.range m, l.countP (fun x => decide (f x = a + j)) =
      l.countP (fun x => decide (a ≤ f x ∧ f x < a + m)) := by
  induction l with
  | nil => simp
  | cons y ys ih =>
    simp only [countP_cons, decide_eq_true_eq, Finset.sum_add_distrib]
    rw [ih]
    congr 1
    by_cases hy : a ≤ f y ∧ f y < a + m
    · rw [if_pos hy, Finset.sum_eq_single (f y - a)]
      · rw [if_pos (by omega)]
      · intro j _ hj
        exact if_neg (by omega)
      · intro hout
        exact absurd (Finset.mem_range.mpr (by omega)) hout
    · rw [if_neg hy]
      apply Finset.sum_eq_zero
      intro j hj
      have := Finset.mem_range.mp hj
      exact if_neg (by omega)

lemma sum_slots {α : Type} (l : List (Option (α × Bool))) (m : Nat)
    (h : ∀ j, j < m → ∀ x p, (l[j]?).join = some (x, p) → p = true) :
    ∑ j ∈ Finset.range m, (if ((l[j]?).join).isSome then 1 else 0) ≤
      (l.filterMap id).countP Prod.snd := by
  induction l generalizing m with
  | nil => simp
  | cons y ys ih =>
    cases m with
    | zero => simp
    | succ m =>
      rw [Finset.sum_range_succ']
      have hrest := ih m (fun j hj x p hx => h (j + 1) (by omega) x p (by simpa using hx))
      simp only [getElem?_cons_succ, getElem?_cons_zero]
      cases y with
      | none => simpa using hrest
      | some z =>
        obtain ⟨x, p⟩ := z
        have hp := h 0 (by omega) x p rfl
        subst hp
        simp only [filterMap_cons, id_eq, countP_cons, if_true]
        simpa using hrest

/-- Every item below one that was read is a blob. -/
theorem Line.blob_below (h : Line cfg s) {j : Nat} {r : Raw E} (hr : s.source[k]? = some r)
    (hj : j < k) : s.source[j]? = some .blob := by
  have hlen := (List.getElem?_eq_some_iff.mp hr).1
  obtain ⟨n, -, hs | ⟨f, hs, -⟩⟩ := h.sourced
  · rw [hs, length_replicate] at hlen
    rw [hs, getElem?_replicate, if_pos (by omega)]
  · rw [hs, length_append, length_replicate, length_singleton] at hlen
    rw [hs, getElem?_append_left (by rw [length_replicate]; omega),
      getElem?_replicate, if_pos (by omega)]

lemma held_add (b : Buffer (Slot T E × Bool)) (j : Nat) :
    held b (b.nextSeq + j) = (b.pending[j]?).join := by
  rw [held, if_neg (by omega), Nat.add_sub_cancel_left]

lemma Genuine.permit (h : Genuine cfg source i) (hp : cfg.poolError = none)
    (hs : source[i.seq]? = some .blob) : i.permit = true := by
  unfold Genuine at h
  rw [hp] at h
  rcases h with ⟨-, -, hpermit⟩ | ⟨f, hf, -, -⟩
  · exact hpermit
  · rw [hs] at hf
    cases hf

/-- An item arrives at a free place, at most the admission bound ahead of the next delivery and
below it if it holds a permit. -/
theorem Placed.arrives (h : Placed cfg s) (hl : Line cfg s) (he : Ends cfg s)
    (hcount : Counted cfg s) (hc : s.consumer = .arrived i) :
    s.pending.nextSeq ≤ i.seq ∧ held s.pending i.seq = none ∧
      i.seq + permitCount i.permit ≤ s.pending.nextSeq + cfg.decodeAhead := by
  have hplace := h.place i.seq
  simp only [load, hc, Consumer.inHand, if_true] at hplace
  have hin : s.pending.nextSeq ≤ i.seq ∧ i.seq < s.dispatched := by
    by_contra hout
    rw [if_neg hout] at hplace
    omega
  have hfree : held s.pending i.seq = none := by
    cases hx : held s.pending i.seq with
    | none => rfl
    | some y =>
      rw [hx, if_pos hin] at hplace
      simp only [Option.isSome_some, if_true] at hplace
      omega
  refine ⟨hin.1, hfree, ?_⟩
  have hpos := cfg.decodeAhead_pos
  have hgen := h.arrived i hc
  cases hp : cfg.poolError with
  | some e =>
    unfold Genuine at hgen
    rw [hp] at hgen
    obtain ⟨hz, -, hpermit⟩ := hgen
    rw [hz, hpermit]
    simp only [permitCount, Bool.false_eq_true, if_false]
    omega
  | none =>
    obtain ⟨r, hr⟩ : ∃ r, s.source[i.seq]? = some r := by
      unfold Genuine at hgen
      rw [hp] at hgen
      rcases hgen with ⟨hs, -⟩ | ⟨f, hs, -⟩
      · exact ⟨_, hs⟩
      · exact ⟨_, hs⟩
    -- the items from the next one to this one are all in place, and all hold permits
    obtain ⟨m, hm⟩ := Nat.exists_eq_add_of_le hin.1
    have hblob : ∀ j, j < m → s.source[s.pending.nextSeq + j]? = some .blob := by
      intro j hj
      exact hl.blob_below hr (by omega)
    have hsum : ∑ j ∈ Finset.range m, load s (s.pending.nextSeq + j) = m := by
      rw [Finset.sum_congr rfl (g := fun _ => 1)]
      · simp
      · intro j hj
        have hj := Finset.mem_range.mp hj
        rw [h.place, if_pos (by omega)]
    have htasks : s.tasks.countP (fun x => decide (s.pending.nextSeq ≤ x.seq ∧
        x.seq < s.pending.nextSeq + m)) ≤ s.tasks.countP (fun x => x.phase.holds) := by
      apply countP_mono_left
      intro x hx _
      have hnot := (he.quiet (by simp [hc, Consumer.Open])).2 x hx
      cases hph : x.phase with
      | stopping => exact absurd hph hnot
      | _ => rfl
    have hdecoded : s.decoded.countP (fun x => decide (s.pending.nextSeq ≤ x.seq ∧
        x.seq < s.pending.nextSeq + m)) ≤ itemPermits s.decoded := by
      apply countP_mono_left
      intro x hx hrange
      obtain ⟨hlo, hhi⟩ := of_decide_eq_true hrange
      have hs := hblob (x.seq - s.pending.nextSeq) (by omega)
      rw [Nat.add_sub_cancel' hlo] at hs
      exact (h.decoded x hx).permit hp hs
    have hbuffer : ∑ j ∈ Finset.range m, (if (held s.pending (s.pending.nextSeq + j)).isSome then 1
        else 0) ≤ bufferPermits s.pending := by
      simp only [held_add]
      apply sum_slots
      intro j hj x p hx
      rw [← held_add] at hx
      exact (h.buffered _ x p hx).permit hp (hblob j hj)
    have hhand : ∑ j ∈ Finset.range m, s.consumer.inHand (s.pending.nextSeq + j) = 0 := by
      apply Finset.sum_eq_zero
      intro j hj
      have := Finset.mem_range.mp hj
      rw [hc]
      exact if_neg (by omega)
    simp only [load, Finset.sum_add_distrib, sum_countP, hhand] at hsum
    have hgate := hcount.gate
    have hcap := hcount.cap
    simp only [permits, hc, Consumer.hand] at hgate
    omega

end ReadPipeline
