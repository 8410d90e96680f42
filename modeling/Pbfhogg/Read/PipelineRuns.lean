import Pbfhogg.Read.PipelinePlaces

/-!
# Every run of the pipelined read

What a run returns, and that no state short of the end is stuck. A read error rides without a
permit, so it can arrive a whole window ahead of the next delivery: a window as large as the ceiling
of the reorder buffer leaves no slot for it.
-/

namespace ReadPipeline

open ReorderBuffer (Buffer tryPush popReady drainFilled held)
open List

variable {T E : Type} {cfg : Config T E} {s t : State T E}

variable {n : Nat} {l : List (Nat × T)} {f : Failure E}

lemma results_succ (cfg : Config T E) (n : Nat) :
    results cfg (n + 1) = results cfg n ++ (match decodeSlot cfg n with
      | some (.ok x) => [(n, x)]
      | _ => []) := by
  simp only [results, range_succ, filterMap_append, filterMap_cons, filterMap_nil]
  congr 1
  split <;> rename_i h <;> split <;> simp_all

lemma follow_results (h : follow cfg n = .ok l) : l = results cfg n := by
  induction n generalizing l with
  | zero =>
    cases h
    rfl
  | succ n ih =>
    rw [results_succ]
    rw [follow] at h
    split at h
    · cases h
    · next l' hl' =>
      have hl := ih hl'
      split at h
      · next hslot =>
        cases h
        rw [hslot, ← hl]
        simp
      · cases h
      · next x hslot =>
        rw [hslot, ← hl]
        split at h
        · cases h
          rfl
        · cases h

/-- The first failure stays. -/
theorem follow_error {m : Nat} (h : follow cfg n = .error f) (hle : n ≤ m) :
    follow cfg m = .error f := by
  induction m, hle using Nat.le_induction with
  | base => exact h
  | succ m _ ih => rw [follow, ih]

lemma follow_decode_error (h : follow cfg n = .ok l)
    (hslot : decodeSlot cfg n = some (.error f)) : follow cfg (n + 1) = .error f := by
  rw [follow, h]
  simp only [hslot]

lemma follow_consume_error {x : T} {e : E} (h : follow cfg n = .ok l)
    (hslot : decodeSlot cfg n = some (.ok x)) (hc : cfg.consume l x = .error e) :
    follow cfg (n + 1) = .error (.failed e) := by
  rw [follow, h]
  simp only [hslot, hc]

lemma expected_of_error (hp : cfg.poolError = none) (h : follow cfg n = .error f)
    (hn : n ≤ cfg.nBlobs) : expected cfg = .error f := by
  simp only [expected, hp, follow_error h hn]

lemma expected_of_readError {e : E} (hp : cfg.poolError = none)
    (h : follow cfg cfg.nBlobs = .ok l) (he : cfg.readError = some e) :
    expected cfg = .error (.failed e) := by
  simp only [expected, hp, h, he]

lemma Line.blob_lt (h : Line cfg s) {k : Nat} (hs : s.source[k]? = some .blob) :
    k < cfg.nBlobs := by
  have hlen := (List.getElem?_eq_some_iff.mp hs).1
  obtain ⟨n, hn, hsource | ⟨f, hsource, -⟩⟩ := h.sourced
  · rw [hsource, length_replicate] at hlen
    omega
  · rw [hsource] at hs hlen
    rw [length_append, length_replicate, length_singleton] at hlen
    by_cases hk : k < n
    · omega
    · have hkn : k = n := by omega
      rw [hkn, getElem?_append_right (by rw [length_replicate])] at hs
      simp at hs

lemma Line.failure_justified (h : Line cfg s) {k : Nat} (hs : s.source[k]? = some (.failed f)) :
    Justified cfg s k f := by
  have hlen := (List.getElem?_eq_some_iff.mp hs).1
  obtain ⟨n, hn, hsource | ⟨g, hsource, hg⟩⟩ := h.sourced
  · rw [hsource, getElem?_replicate] at hs
    split at hs <;> cases hs
  · rw [hsource] at hs hlen
    rw [length_append, length_replicate, length_singleton] at hlen
    by_cases hk : k < n
    · rw [getElem?_append_left (by rw [length_replicate]; exact hk),
        getElem?_replicate, if_pos hk] at hs
      cases hs
    · have hkn : k = n := by omega
      rw [hkn, getElem?_append_right (by rw [length_replicate])] at hs
      simp only [length_replicate, Nat.sub_self, getElem?_cons_zero] at hs
      cases hs
      rw [hkn]
      exact hg

def Consumer.ended : Consumer T E → Option (Outcome E)
  | .exiting o => some o
  | .dropping o => some o
  | .done o => some o
  | _ => none

/-- The consumer ended as the input says, or was cancelled, or found no slot for a read error. -/
def Fair (cfg : Config T E) (s : State T E) (o : Outcome E) : Prop :=
  (o = .error .cancelled ∧ s.cancelled = true) ∨
    (o = .ok ∧ expected cfg = .ok s.delivered ∧ s.reader = .finished ∧
      s.source = replicate cfg.nBlobs .blob) ∨
    (∃ f, o = .error f ∧ expected cfg = .error f) ∨ (o = .panicked ∧ ¬ cfg.Fits)

lemma Placed.fair_popError (h : Placed cfg s) (hl : Line cfg s) {p : Bool}
    {b : Buffer (Slot T E × Bool)} (hc : s.consumer = .draining)
    (hb : popReady s.pending = some ((some (.error f), p), b)) : Fair cfg s (.error f) := by
  have hfollow := h.followed (by rw [hc]; nofun)
  obtain ⟨hgen, -⟩ := h.popped hb
  unfold Genuine at hgen
  split at hgen
  · next e hp =>
    obtain ⟨-, hslot, -⟩ := hgen
    cases hslot
    refine .inr (.inr (.inl ⟨_, rfl, ?_⟩))
    simp only [expected, hp]
  · next hp =>
    rcases hgen with ⟨hs, hslot, -⟩ | ⟨g, hs, hslot, -⟩
    · have herr := follow_decode_error hfollow hslot.symm
      exact .inr (.inr (.inl ⟨f, rfl, expected_of_error hp herr (hl.blob_lt hs)⟩))
    · cases hslot
      rcases hl.failure_justified hs with ⟨hf, hcancel⟩ | ⟨hk, e, he, hf⟩
      · exact .inl ⟨by rw [hf], hcancel⟩
      · refine .inr (.inr (.inl ⟨f, rfl, ?_⟩))
        rw [show s.pending.nextSeq = cfg.nBlobs from hk] at hfollow
        rw [hf]
        exact expected_of_readError hp hfollow he

lemma Placed.fair_consumeFails (h : Placed cfg s) (hl : Line cfg s) {k : Nat} {x : T} {p : Bool}
    {e : E} (hc : s.consumer = .consuming k x p) (he : cfg.consume s.delivered x = .error e) :
    expected cfg = .error (.failed e) := by
  obtain ⟨hnext, hfollow, hslot⟩ := h.consuming k x p hc
  obtain ⟨hs, hp⟩ := h.passed k (by omega)
  exact expected_of_error hp (follow_consume_error hfollow hslot he) (hl.blob_lt hs)

/-- The channel closes only behind the last item of the input. -/
theorem Placed.fair_finish (h : Placed cfg s) (he : Ends cfg s) (hc : s.consumer = .closed) :
    expected cfg = .ok s.delivered ∧ s.reader = .finished ∧
      s.source = replicate cfg.nBlobs .blob := by
  obtain ⟨htasks, hdecoded, hfin⟩ := h.closed hc
  have hfollow := h.followed (by simp [hc])
  have hopen : s.consumer.Open := by
    simp [hc, Consumer.Open]
  have hnext : s.pending.nextSeq = s.dispatched := by
    by_contra hne
    have hplace := h.place s.pending.nextSeq
    have hle := h.next_le
    rw [if_pos (by omega)] at hplace
    simp [load, htasks, hdecoded, hc, Consumer.inHand,
      h.ready (by simp [hc]) (by simp [hc])] at hplace
  have hp : cfg.poolError = none := by
    by_contra hp
    have hone := he.sentError hopen hp hfin
    exact hp (h.passed 0 (by omega)).2
  obtain ⟨hr, hwhole, hlen⟩ := he.left hopen hp (by rw [hfin]; exact not_false)
  rcases hwhole with ⟨hsource, hread⟩ | ⟨k, f, hsource⟩
  · refine ⟨?_, hr, hsource⟩
    rw [hsource, length_replicate] at hlen
    rw [hnext, hlen] at hfollow
    simp only [expected, hp, hfollow, hread]
  · -- the failure itself would have been delivered
    rw [hsource, length_append, length_replicate, length_singleton] at hlen
    have hlast := (h.passed k (by omega)).1
    rw [hsource, getElem?_append_right (by rw [length_replicate])] at hlast
    simp at hlast

lemma Placed.push_refused (h : Placed cfg s) (hl : Line cfg s) (he : Ends cfg s)
    (hcount : Counted cfg s) {i : Item T E} {r : ReorderBuffer.Rejected (Slot T E × Bool)}
    (hc : s.consumer = .arrived i) (hok : s.cancelled = false)
    (hb : tryPush s.pending i.seq (i.slot, i.permit) = .error r) : ¬ cfg.Fits := by
  obtain ⟨hlo, hfree, hhi⟩ := h.arrives hl he hcount hc
  have hpos := cfg.decodeAhead_pos
  have hwindow : s.pending.nextSeq + max defaultMaxWindow cfg.decodeAhead ≤ i.seq := by
    by_contra hlt
    obtain ⟨b, hb', -⟩ := @ReorderBuffer.tryPush_ok _ s.pending i.seq (i.slot, i.permit) hlo
      (by rw [h.window]; omega) hfree
    rw [hb] at hb'
    cases hb'
  have hpermit : i.permit = false := by
    cases hx : i.permit with
    | false => rfl
    | true =>
      rw [hx] at hhi
      simp only [permitCount, if_true] at hhi
      omega
  have hgen := h.arrived i hc
  unfold Genuine at hgen
  split at hgen
  · omega
  · next hp =>
    rcases hgen with ⟨-, -, hx⟩ | ⟨f, hs, -, -⟩
    · rw [hpermit] at hx
      cases hx
    · rcases hl.failure_justified hs with ⟨-, hcancel⟩ | ⟨hk, e, hread, -⟩
      · rw [hok] at hcancel
        cases hcancel
      · rintro (hfit | hfit | hfit | hfit | ⟨g, hfit⟩)
        · omega
        · exact hfit hp
        · rw [hread] at hfit
          cases hfit
        · omega
        · -- the blobs more than a window before the error were all delivered
          rw [show cfg.nBlobs - cfg.decodeAhead = s.pending.nextSeq by
            simp only [permitCount, hpermit, Bool.false_eq_true, if_false] at hhi
            omega, h.followed (by simp [hc])] at hfit
          cases hfit

structure Sound (cfg : Config T E) (s : State T E) : Prop where
  counted : Counted cfg s
  line : Line cfg s
  ends : Ends cfg s
  placed : s.consumer.Live → Placed cfg s
  inOrder : ∃ n, n ≤ cfg.nBlobs ∧ s.delivered = results cfg n
  fair : ∀ o, s.consumer.ended = some o → Fair cfg s o
  emptied : (∃ o, s.consumer = .dropping o ∨ s.consumer = .done o) → bufferPermits s.pending = 0
  dropped : (∃ o, s.consumer = .done o) → s.decoded = []

lemma sound_start (cfg : Config T E) : Sound cfg (start cfg) :=
  ⟨counted_start cfg, line_start cfg, ends_start cfg, fun _ => placed_start cfg,
    ⟨0, Nat.zero_le _, rfl⟩, nofun, nofun, nofun⟩

lemma Consumer.live_or_ended (c : Consumer T E) : c.Live ∨ ∃ o, c.ended = some o := by
  cases c with
  | exiting o | dropping o | done o => exact .inr ⟨o, rfl⟩
  | _ => exact .inl trivial

/-- What the consumer ended with stays fair as the other threads end. -/
theorem Fair.keep {o : Outcome E} (h : Fair cfg s o)
    (hcancel : s.cancelled = true → t.cancelled = true) (hdelivered : t.delivered = s.delivered)
    (hreader : s.reader = .finished → t.reader = .finished ∧ t.source = s.source) :
    Fair cfg t o := by
  rcases h with ⟨ho, hc⟩ | ⟨ho, hexp, hr, hs⟩ | h | h
  · exact .inl ⟨ho, hcancel hc⟩
  · obtain ⟨hr', hs'⟩ := hreader hr
    exact .inr (.inl ⟨ho, by rw [hdelivered]; exact hexp, hr', by rw [hs']; exact hs⟩)
  · exact .inr (.inr (.inl h))
  · exact .inr (.inr (.inr h))

lemma Sound.reader (h : Sound cfg s) (hstep : ReaderStep cfg s t) : Sound cfg t := by
  have hsame : t.consumer = s.consumer ∧ t.delivered = s.delivered ∧ t.cancelled = s.cancelled ∧
      t.pending = s.pending ∧ t.decoded = s.decoded ∧ s.reader ≠ .finished := by
    cases hstep <;> simp_all
  obtain ⟨hc, hd, hx, hp, hdec, hr⟩ := hsame
  refine ⟨h.counted.reader hstep, h.line.reader hstep, h.ends.reader hstep, ?_, ?_, ?_, ?_, ?_⟩
  · rw [hc]
    exact fun hlive => (h.placed hlive).reader hstep
  · rw [hd]
    exact h.inOrder
  · rw [hc]
    exact fun o ho => (h.fair o ho).keep (by rw [hx]; exact id) hd (fun hf => absurd hf hr)
  · rw [hc, hp]
    exact h.emptied
  · rw [hc, hdec]
    exact h.dropped

/-- A step that leaves the consumer and the reader as they were. -/
theorem Sound.beside (h : Sound cfg s) (hcounted : Counted cfg t) (hline : Line cfg t)
    (hends : Ends cfg t)
    (hsame : t.consumer = s.consumer ∧ t.delivered = s.delivered ∧ t.cancelled = s.cancelled ∧
      t.pending = s.pending ∧ t.reader = s.reader ∧ t.source = s.source)
    (hdec : s.consumer.Open ∨ t.decoded = s.decoded)
    (hplaced : s.consumer.Live → Placed cfg t) : Sound cfg t := by
  obtain ⟨hc, hd, hx, hp, hr, hs⟩ := hsame
  refine ⟨hcounted, hline, hends, ?_, ?_, ?_, ?_, ?_⟩
  · rwa [hc]
  · rw [hd]
    exact h.inOrder
  · rw [hc]
    exact fun o ho => (h.fair o ho).keep (by rw [hx]; exact id) hd
      (fun hf => ⟨by rw [hr]; exact hf, hs⟩)
  · rw [hc, hp]
    exact h.emptied
  · rw [hc]
    rintro ⟨o, ho⟩
    rcases hdec with hopen | hdec
    · exact absurd ho (hopen o)
    · rw [hdec]
      exact h.dropped ⟨o, ho⟩

lemma Sound.dispatcher (h : Sound cfg s) (hstep : DispatcherStep cfg s t) : Sound cfg t := by
  refine h.beside (h.counted.dispatcher hstep) (h.line.dispatcher hstep)
    (h.ends.dispatcher h.line hstep) ?_ ?_
    fun hlive => (h.placed hlive).dispatcher h.line h.ends hlive hstep
  · cases hstep <;> exact ⟨rfl, rfl, rfl, rfl, rfl, rfl⟩
  · cases hstep with
    | sendBuildError e hd hopen hroom => exact .inl hopen
    | sendError k f hd hopen hroom => exact .inl hopen
    | _ => exact .inr rfl

lemma Sound.task (h : Sound cfg s) (hstep : TaskStep cfg s t) : Sound cfg t := by
  refine h.beside (h.counted.task hstep) (h.line.task hstep) (h.ends.task hstep) ?_ ?_
    fun hlive => (h.placed hlive).task h.ends hlive hstep
  · cases hstep <;> simp
  · cases hstep with
    | send k r front back ht hopen hroom => exact .inl hopen
    | sendFails k r front back ht hclosed => exact .inr release_decoded
    | _ => exact .inr rfl

lemma ConsumerStep.reader_same (hstep : ConsumerStep cfg s t) :
    t.reader = s.reader ∧ t.source = s.source ∧ t.cancelled = s.cancelled := by
  cases hstep <;> simp

/-- What the consumer was handed grows only by a call of the consumer. -/
theorem Sound.consumer_order (h : Sound cfg s) (hstep : ConsumerStep cfg s t) :
    ∃ n, n ≤ cfg.nBlobs ∧ t.delivered = results cfg n := by
  have hcall : ∀ k x p, s.consumer = .consuming k x p →
      ∃ n, n ≤ cfg.nBlobs ∧ s.delivered ++ [(k, x)] = results cfg n := by
    intro k x p hc
    have hpl := h.placed (by rw [hc]; trivial)
    obtain ⟨hnext, hfollow, hslot⟩ := hpl.consuming k x p hc
    refine ⟨k + 1, h.line.blob_lt (hpl.passed k (by omega)).1, ?_⟩
    rw [results_succ, hslot, follow_results hfollow]
  cases hstep with
  | consume k x p hc | consumeFails k x p _ hc =>
    rw [release_delivered]
    exact hcall k x p hc
  | arrivedFails | pushPanics | popNothing | popError | dropPending | dropReceiver =>
    exact release_delivered.symm ▸ h.inOrder
  | _ => exact h.inOrder

/-- How the consumer comes to its end. -/
theorem Sound.consumer_fair (h : Sound cfg s) (hstep : ConsumerStep cfg s t) {o : Outcome E}
    (ho : t.consumer.ended = some o) : Fair cfg t o := by
  obtain ⟨hr, hs, hx⟩ := hstep.reader_same
  have hkeep : ∀ {o}, Fair cfg s o → t.delivered = s.delivered → Fair cfg t o := by
    intro o hfair hd
    exact hfair.keep (by rw [hx]; exact id) hd (fun hf => ⟨by rw [hr]; exact hf, hs⟩)
  have hcancelled : ∀ {o : Outcome E}, o = .error .cancelled → s.cancelled = true →
      Fair cfg t o := by
    intro o heq hc
    exact .inl ⟨heq, by rw [hx]; exact hc⟩
  cases hstep with
  | checkFails _ hcancel | finishFails _ hcancel =>
    exact hcancelled (Option.some.inj ho).symm hcancel
  | arrivedFails i hc hcancel =>
    rw [release_consumer] at ho
    exact hcancelled (Option.some.inj ho).symm hcancel
  | pushPanics i r hc hok hb =>
    rw [release_consumer] at ho
    have hpl := h.placed (by rw [hc]; trivial)
    exact .inr (.inr (.inr ⟨(Option.some.inj ho).symm,
      hpl.push_refused h.line h.ends h.counted hc hok hb⟩))
  | popError f p b hc hb =>
    rw [release_consumer] at ho
    have hpl := h.placed (by rw [hc]; trivial)
    rw [← Option.some.inj ho]
    exact hkeep (hpl.fair_popError h.line hc hb) release_delivered
  | consumeFails k x p e hc he =>
    rw [release_consumer] at ho
    have hpl := h.placed (by rw [hc]; trivial)
    exact .inr (.inr (.inl ⟨_, (Option.some.inj ho).symm, hpl.fair_consumeFails h.line hc he⟩))
  | finish hc hok =>
    have hpl := h.placed (by rw [hc]; trivial)
    exact .inr (.inl ⟨(Option.some.inj ho).symm, hpl.fair_finish h.ends hc⟩)
  | dropPending o' hc | dropReceiver o' hc =>
    rw [release_consumer] at ho
    rw [← Option.some.inj ho]
    exact hkeep (h.fair o' (by rw [hc]; rfl)) release_delivered
  | popNothing p b hc hb =>
    rw [release_consumer] at ho
    rw [show Consumer.ended s.consumer = none by rw [hc]; rfl] at ho
    cases ho
  | consume k x p hc hok =>
    rw [release_consumer] at ho
    cases ho
  | _ => cases ho

lemma Sound.consumer (h : Sound cfg s) (hstep : ConsumerStep cfg s t) : Sound cfg t := by
  refine ⟨h.counted.consumer hstep, h.line.consumer hstep, h.ends.consumer hstep, ?_,
    h.consumer_order hstep, fun o ho => h.consumer_fair hstep ho, ?_, ?_⟩
  · intro hlive
    rcases s.consumer.live_or_ended with hs | ⟨o, ho⟩
    · exact (h.placed hs).consumer hstep hlive
    · -- the consumer does not come back
      cases hstep with
      | dropPending | dropReceiver =>
        rw [release_consumer] at hlive
        exact absurd hlive not_false
      | _ => simp_all [Consumer.ended]
  · rintro ⟨o, ho⟩
    cases hstep with
    | dropPending o' hc => rw [release_pending]; rfl
    | dropReceiver o' hc =>
      rw [release_pending]
      exact h.emptied ⟨o', .inl hc⟩
    | _ => simp_all
  · rintro ⟨o, ho⟩
    cases hstep with
    | dropReceiver o' hc => rw [release_decoded]
    | _ => simp_all

lemma Sound.cancel (h : Sound cfg s) : Sound cfg { s with cancelled := true } := by
  refine ⟨⟨h.counted.1, h.counted.2, h.counted.3, h.counted.4⟩, h.line.cancel,
    ⟨h.ends.1, h.ends.2, h.ends.3, h.ends.4, h.ends.5, h.ends.6⟩, ?_, h.inOrder, ?_, h.emptied,
    h.dropped⟩
  · intro hlive
    exact (h.placed hlive).still (fun _ _ hx => hx) id rfl rfl rfl rfl rfl rfl
  · intro o ho
    exact (h.fair o ho).keep (fun _ => rfl) rfl (fun hf => ⟨hf, rfl⟩)

lemma Sound.step (h : Sound cfg s) (hstep : Step cfg s t) : Sound cfg t := by
  cases hstep with
  | act _ hact =>
    cases hact with
    | reader hstep => exact h.reader hstep
    | dispatcher hstep => exact h.dispatcher hstep
    | task hstep => exact h.task hstep
    | consumer hstep => exact h.consumer hstep
  | cancel => exact h.cancel

lemma Reachable.sound (h : Reachable cfg s) : Sound cfg s := by
  induction h with
  | refl => exact sound_start cfg
  | tail _ hstep ih => exact ih.step hstep

/-- A consumer that waits for nobody takes a step. -/
theorem consumer_acts (cfg : Config T E) (hw : s.consumer ≠ .waiting)
    (hd : ∀ o, s.consumer ≠ .done o) : ∃ t, ConsumerStep cfg s t := by
  cases hc : s.consumer with
  | checking =>
    cases hx : s.cancelled with
    | false => exact ⟨_, .check hc hx⟩
    | true => exact ⟨_, .checkFails hc hx⟩
  | waiting => exact absurd hc hw
  | arrived i =>
    cases hx : s.cancelled with
    | true => exact ⟨_, .arrivedFails i hc hx⟩
    | false =>
      cases hb : tryPush s.pending i.seq (i.slot, i.permit) with
      | ok b => exact ⟨_, .push i b hc hx hb⟩
      | error r => exact ⟨_, .pushPanics i r hc hx hb⟩
  | draining =>
    cases hb : popReady s.pending with
    | none => exact ⟨_, .notReady hc hb⟩
    | some y =>
      obtain ⟨⟨x, p⟩, b⟩ := y
      cases x with
      | none => exact ⟨_, .popNothing p b hc hb⟩
      | some r =>
        cases r with
        | error f => exact ⟨_, .popError f p b hc hb⟩
        | ok x => exact ⟨_, .popOk x p b hc hb⟩
  | consuming k x p =>
    cases hr : cfg.consume s.delivered x with
    | ok u => exact ⟨_, .consume k x p hc hr⟩
    | error e => exact ⟨_, .consumeFails k x p e hc hr⟩
  | closed =>
    cases hx : s.cancelled with
    | false => exact ⟨_, .finish hc hx⟩
    | true => exact ⟨_, .finishFails hc hx⟩
  | exiting o => exact ⟨_, .dropPending o hc⟩
  | dropping o => exact ⟨_, .dropReceiver o hc⟩
  | done o => exact absurd hc (hd o)

/-- Of some tasks one can go on, when the channel has a place or is gone. -/
theorem tasks_act (cfg : Config T E) (htasks : s.tasks ≠ [])
    (hsend : (s.consumer.Open ∧ s.decoded.length < cfg.decodeAhead) ∨ ¬ s.consumer.Open) :
    ∃ t, TaskStep cfg s t := by
  by_cases hbusy : ∃ x ∈ s.tasks, x.phase.busy = true
  · obtain ⟨⟨k, phase⟩, hx, hb⟩ := hbusy
    obtain ⟨front, back, ht⟩ := append_of_mem hx
    cases phase with
    | waiting => cases hb
    | running => exact ⟨_, .decode k front back ht⟩
    | sending r =>
      rcases hsend with ⟨hopen, hroom⟩ | hclosed
      · exact ⟨_, .send k r front back ht hopen hroom⟩
      · exact ⟨_, .sendFails k r front back ht hclosed⟩
    | stopping => exact ⟨_, .raiseShutdown k front back ht⟩
  · have hzero : s.tasks.countP (fun x => x.phase.busy) = 0 := by
      rw [countP_eq_zero]
      intro x hx hb
      exact hbusy ⟨x, hx, hb⟩
    cases ht : s.tasks with
    | nil => exact absurd ht htasks
    | cons x back =>
      obtain ⟨k, phase⟩ := x
      cases phase with
      | waiting =>
        refine ⟨_, .begin k [] back ht ?_⟩
        rw [hzero]
        exact cfg.decodeThreads_pos
      | running | sending | stopping => exact absurd ⟨_, by rw [ht]; exact mem_cons_self, rfl⟩ hbusy

/-- A reader that has not ended goes on, with a place in the raw channel or the receiver gone. -/
theorem Line.reader_acts (h : Line cfg s) (hr : s.reader ≠ .finished)
    (hsend : (s.dispatcher.RawOpen ∧ s.raw.length < cfg.readAhead) ∨ ¬ s.dispatcher.RawOpen) :
    ∃ t, ReaderStep cfg s t := by
  cases hx : s.reader with
  | reading k =>
    have hle := (h.reading k hx).1
    by_cases hk : k < cfg.nBlobs
    · exact ⟨_, .read k hx hk⟩
    · cases he : cfg.readError with
      | none => exact ⟨_, .eof k hx (by omega) he⟩
      | some e => exact ⟨_, .readFails k e hx (by omega) he⟩
  | sending k r =>
    rcases hsend with ⟨hopen, hroom⟩ | hclosed
    · cases r with
      | blob => exact ⟨_, .send k hx hopen hroom⟩
      | failed f => exact ⟨_, .sendFailed k f hx hopen hroom⟩
    · exact ⟨_, .sendFails k r hx hclosed⟩
  | finished => exact absurd hx hr

/-- With no task left and no permit out, the stages in front of the consumer go on to their end. -/
theorem front_acts (hl : Line cfg s) (htasks : s.tasks = [])
    (hparked : ∀ k, s.dispatcher ≠ .parked k)
    (hsend : (s.consumer.Open ∧ s.decoded.length < cfg.decodeAhead) ∨ ¬ s.consumer.Open)
    (hd : s.dispatcher ≠ .finished) : ∃ t, Act cfg s t := by
  cases hx : s.dispatcher with
  | building =>
    cases he : cfg.poolError with
    | none => exact ⟨_, .dispatcher _ (.build hx he)⟩
    | some e => exact ⟨_, .dispatcher _ (.buildFails e hx he)⟩
  | buildFailed e =>
    rcases hsend with ⟨hopen, hroom⟩ | hclosed
    · exact ⟨_, .dispatcher _ (.sendBuildError e hx hopen hroom)⟩
    · exact ⟨_, .dispatcher _ (.dropBuildError e hx hclosed)⟩
  | receiving =>
    cases hraw : s.raw with
    | cons y rest => exact ⟨_, .dispatcher _ (.receive y.1 y.2 rest hx hraw)⟩
    | nil =>
      by_cases hr : s.reader = .finished
      · exact ⟨_, .dispatcher _ (.receiveClosed hx hraw hr)⟩
      · have hroom : s.raw.length < cfg.readAhead := by
          rw [hraw]
          exact cfg.readAhead_pos
        obtain ⟨t, ht⟩ := hl.reader_acts hr (.inl ⟨by rw [hx]; trivial, hroom⟩)
        exact ⟨t, .reader t ht⟩
  | arrived k r =>
    cases hs : s.shutdown with
    | true => exact ⟨_, .dispatcher _ (.loadStop k r hx hs)⟩
    | false =>
      cases r with
      | blob => exact ⟨_, .dispatcher _ (.admits k hx hs)⟩
      | failed f => exact ⟨_, .dispatcher _ (.forward k f hx hs)⟩
  | acquiring k =>
    by_cases hroom : s.gate < cfg.decodeAhead
    · exact ⟨_, .dispatcher _ (.acquire k hx hroom)⟩
    · exact ⟨_, .dispatcher _ (.park k hx (by omega))⟩
  | parked k => exact absurd hx (hparked k)
  | sendingError k f =>
    rcases hsend with ⟨hopen, hroom⟩ | hclosed
    · exact ⟨_, .dispatcher _ (.sendError k f hx hopen hroom)⟩
    · exact ⟨_, .dispatcher _ (.sendErrorFails k f hx hclosed)⟩
  | joining => exact ⟨_, .dispatcher _ (.join hx htasks)⟩
  | finished => exact absurd hx hd

/-- A consumer that waits with nothing on its way has given every permit back. -/
theorem Placed.no_permits (h : Placed cfg s) (hcount : Counted cfg s) (hc : s.consumer = .waiting)
    (htasks : s.tasks = []) (hdecoded : s.decoded = []) : s.gate = 0 := by
  have hnone : ∀ k, held s.pending k = none := by
    intro k
    cases hx : held s.pending k with
    | none => rfl
    | some y =>
      have hplace := h.place k
      simp only [load, htasks, hdecoded, hc, Consumer.inHand, countP_nil, hx,
        Option.isSome_some, if_true] at hplace
      have hin : s.pending.nextSeq ≤ k ∧ k < s.dispatched := by
        by_contra hout
        rw [if_neg hout] at hplace
        cases hplace
      -- the next one would have to be somewhere too
      have hnext := h.place s.pending.nextSeq
      rw [if_pos (by omega)] at hnext
      simp [load, htasks, hdecoded, hc, Consumer.inHand,
        h.ready (by simp [hc]) (by simp [hc])] at hnext
  have hempty : drainFilled s.pending = [] := by
    rw [eq_nil_iff_forall_not_mem]
    intro x hx
    obtain ⟨k, hk⟩ := ReorderBuffer.mem_drainFilled.mp hx
    rw [hnone k] at hk
    cases hk
  rw [hcount.gate]
  simp [permits, htasks, hdecoded, hc, Consumer.hand, itemPermits, bufferPermits, hempty]

/-- From a reachable state that is not the end some thread can take a step. -/
theorem Reachable.acts (h : Reachable cfg s) (hrun : ¬ ∃ o, Returns s o) : ∃ t, Act cfg s t := by
  have hs := h.sound
  have hpos := cfg.decodeAhead_pos
  by_cases hw : s.consumer = .waiting
  · have hopen : s.consumer.Open := by
      rw [hw]
      nofun
    cases hd : s.decoded with
    | cons i rest => exact ⟨_, .consumer _ (.receive i rest hw hd)⟩
    | nil =>
      have hroom : s.decoded.length < cfg.decodeAhead := by
        rw [hd]
        exact hpos
      by_cases htasks : s.tasks = []
      · by_cases hfin : s.dispatcher = .finished
        · exact ⟨_, .consumer _ (.disconnect hw hd hfin htasks)⟩
        · have hgate := (hs.placed (by rw [hw]; trivial)).no_permits hs.counted hw htasks hd
          refine front_acts hs.line htasks ?_ (.inl ⟨hopen, hroom⟩) hfin
          intro k hk
          have := hs.counted.parked k hk
          omega
      · obtain ⟨t, ht⟩ := tasks_act cfg htasks (.inl ⟨hopen, hroom⟩)
        exact ⟨t, .task t ht⟩
  · by_cases hdone : ∃ o, s.consumer = .done o
    · obtain ⟨o, ho⟩ := hdone
      have hclosed : ¬ s.consumer.Open := fun hopen => hopen o ho
      by_cases htasks : s.tasks = []
      · by_cases hfin : s.dispatcher = .finished
        · by_cases hr : s.reader = .finished
          · exact absurd ⟨o, hr, hfin, htasks, ho⟩ hrun
          · obtain ⟨t, ht⟩ := hs.line.reader_acts hr (.inr (by rw [hfin]; exact not_false))
            exact ⟨t, .reader t ht⟩
        · refine front_acts hs.line htasks ?_ (.inr hclosed) hfin
          intro k hk
          have hfull := hs.counted.parked k hk
          have hgate := hs.counted.gate
          have hbuf := hs.emptied ⟨o, .inr ho⟩
          have hdec := hs.dropped ⟨o, ho⟩
          simp [permits, htasks, hdec, ho, Consumer.hand, itemPermits, hbuf] at hgate
          omega
      · obtain ⟨t, ht⟩ := tasks_act cfg htasks (.inr hclosed)
        exact ⟨t, .task t ht⟩
    · obtain ⟨t, ht⟩ := consumer_acts cfg hw (fun o ho => hdone ⟨o, ho⟩)
      exact ⟨t, .consumer t ht⟩

/-- The consumer gets the results of a first part of the input, the permits add up, a push finds its
slot, the run returns what the input says and is not stuck. -/
structure Good (cfg : Config T E) (s : State T E) : Prop where
  inOrder : ∃ n, n ≤ cfg.nBlobs ∧ s.delivered = results cfg n
  permits : s.gate = permits s ∧ s.gate ≤ cfg.decodeAhead ∧ s.underflow = false
  push : ∀ i, s.consumer = .arrived i → s.pending.nextSeq ≤ i.seq ∧
    held s.pending i.seq = none ∧ i.seq ≤ s.pending.nextSeq + cfg.decodeAhead
  returns : ∀ o, Returns s o → (o = .error .cancelled ∧ s.cancelled = true) ∨
    (o = .ok ∧ expected cfg = .ok s.delivered ∧ s.source = replicate cfg.nBlobs .blob) ∨
    ∃ f, o = .error f ∧ expected cfg = .error f
  goesOn : (∃ o, Returns s o) ∨ ∃ t, Act cfg s t

theorem pipeline_good_of_fits (cfg : Config T E) (hfits : cfg.Fits) {s : State T E}
    (h : Reachable cfg s) : Good cfg s := by
  have hs := h.sound
  refine ⟨hs.inOrder, ⟨hs.counted.gate, hs.counted.cap, hs.counted.sane⟩, ?_, ?_, ?_⟩
  · intro i hi
    obtain ⟨hlo, hfree, hhi⟩ :=
      (hs.placed (by rw [hi]; trivial)).arrives hs.line hs.ends hs.counted hi
    exact ⟨hlo, hfree, by omega⟩
  · intro o ho
    rcases hs.fair o (by rw [ho.2.2.2]; rfl) with hc | ⟨hok, hexp, -, hsource⟩ | herr | ⟨-, hnot⟩
    · exact .inl hc
    · exact .inr (.inl ⟨hok, hexp, hsource⟩)
    · exact .inr (.inr herr)
    · exact absurd hfits hnot
  · by_cases hend : ∃ o, Returns s o
    · exact .inl hend
    · exact .inr (h.acts hend)

lemma reachable_reader (h : Reachable cfg s) (hstep : ReaderStep cfg s t) : Reachable cfg t :=
  h.tail (.act t (.reader t hstep))

lemma reachable_dispatcher (h : Reachable cfg s) (hstep : DispatcherStep cfg s t) :
    Reachable cfg t :=
  h.tail (.act t (.dispatcher t hstep))

lemma reachable_task (h : Reachable cfg s) (hstep : TaskStep cfg s t) : Reachable cfg t :=
  h.tail (.act t (.task t hstep))

lemma reachable_consumer (h : Reachable cfg s) (hstep : ConsumerStep cfg s t) : Reachable cfg t :=
  h.tail (.act t (.consumer t hstep))

def waitingTasks (k : Nat) : List (Task T E) := (range k).map fun j => ⟨j, .waiting⟩

/-- The tasks of the first `k` blobs are spawned and none has run. -/
def spawned (cfg : Config T E) (k : Nat) : State T E :=
  { start cfg with
    dispatcher := .receiving, reader := .reading k, gate := k, tasks := waitingTasks k
    source := replicate k .blob, dispatched := k }

lemma reachable_spawned (hp : cfg.poolError = none) {k : Nat} (hblobs : k ≤ cfg.nBlobs)
    (hwindow : k ≤ cfg.decodeAhead) : Reachable cfg (spawned cfg k) := by
  induction k with
  | zero =>
    have h : Reachable cfg (start cfg) := .refl
    exact reachable_dispatcher h (.build rfl hp)
  | succ k ih =>
    have h := ih (by omega) (by omega)
    have h := reachable_reader h (.read k rfl (by omega))
    have h := reachable_reader h (.send k rfl trivial cfg.readAhead_pos)
    have h := reachable_dispatcher h (.receive k .blob [] rfl rfl)
    have h := reachable_dispatcher h (.admits k rfl rfl)
    have h := reachable_dispatcher h (.acquire k rfl (by change k < cfg.decodeAhead; omega))
    have heq : waitingTasks k ++ [⟨k, .waiting⟩] = (waitingTasks (k + 1) : List (Task T E)) := by
      rw [waitingTasks, waitingTasks, range_succ, map_append]
      rfl
    have hsource :
        replicate k .blob ++ [.blob] = (replicate (k + 1) .blob : List (Raw E)) :=
      replicate_succ'.symm
    unfold spawned at h ⊢
    rw [← heq, ← hsource]
    exact h

/-- The read error behind the spawned tasks is on the channel, and the stages in front are done. -/
def errorSent (cfg : Config T E) (e : E) : State T E :=
  { spawned cfg cfg.decodeAhead with
    reader := .finished, dispatcher := .joining
    decoded := [⟨cfg.decodeAhead, some (.error (.failed e)), false⟩]
    source := replicate cfg.decodeAhead .blob ++ [.failed (.failed e)]
    dispatched := cfg.decodeAhead + 1 }

lemma reachable_errorSent {e : E} (hp : cfg.poolError = none) (he : cfg.readError = some e)
    (hn : cfg.nBlobs = cfg.decodeAhead) : Reachable cfg (errorSent cfg e) := by
  have h := reachable_spawned hp (k := cfg.decodeAhead) (by omega) (Nat.le_refl _)
  have h := reachable_reader h (.readFails _ e rfl hn.symm he)
  have h := reachable_reader h (.sendFailed _ _ rfl trivial cfg.readAhead_pos)
  have h := reachable_dispatcher h (.receive _ _ [] rfl rfl)
  have h := reachable_dispatcher h (.forward _ _ rfl rfl)
  have h := reachable_dispatcher h (.sendError _ _ rfl nofun cfg.decodeAhead_pos)
  exact reachable_dispatcher h (.receiveClosed rfl rfl rfl)

/-- Two blobs and a read error behind them. -/
def twoBlobs : Config Nat String where
  readAhead := 1
  readAhead_pos := Nat.one_pos
  decodeAhead := 2
  decodeAhead_pos := Nat.two_pos
  decodeThreads := 1
  decodeThreads_pos := Nat.one_pos
  poolError := none
  nBlobs := 2
  readError := some "cut"
  decode := fun k => some (.ok k)
  consume := fun _ _ => .ok ()

/-- The error arrives first and the first blob last. -/
lemma reachable_twoBlobs : ∃ s, Reachable twoBlobs s ∧ Returns s (.error (.failed "cut")) ∧
    s.delivered = [(0, 0), (1, 1)] := by
  have h := @reachable_errorSent _ _ twoBlobs "cut" rfl rfl rfl
  have h := reachable_task h (.begin 1 [⟨0, .waiting⟩] [] rfl (by decide))
  have h := reachable_task h (.decode 1 [⟨0, .waiting⟩] [] rfl)
  have h := reachable_task h (.send 1 _ [⟨0, .waiting⟩] [] rfl nofun (by decide))
  have h := reachable_consumer h (.check rfl rfl)
  have h := reachable_consumer h (.receive _ _ rfl rfl)
  have h := reachable_consumer h (.push _ _ rfl rfl rfl)
  have h := reachable_consumer h (.notReady rfl rfl)
  have h := reachable_consumer h (.check rfl rfl)
  have h := reachable_consumer h (.receive _ [] rfl rfl)
  have h := reachable_consumer h (.push _ _ rfl rfl rfl)
  have h := reachable_consumer h (.notReady rfl rfl)
  have h := reachable_consumer h (.check rfl rfl)
  have h := reachable_task h (.begin 0 [] [] rfl (by decide))
  have h := reachable_task h (.decode 0 [] [] rfl)
  have h := reachable_task h (.send 0 _ [] [] rfl nofun (by decide))
  have h := reachable_dispatcher h (.join rfl rfl)
  have h := reachable_consumer h (.receive _ [] rfl rfl)
  have h := reachable_consumer h (.push _ _ rfl rfl rfl)
  have h := reachable_consumer h (.popOk 0 true _ rfl rfl)
  have h := reachable_consumer h (.consume 0 0 true rfl rfl)
  have h := reachable_consumer h (.popOk 1 true _ rfl rfl)
  have h := reachable_consumer h (.consume 1 1 true rfl rfl)
  have h := reachable_consumer h (.popError (.failed "cut") false _ rfl rfl)
  have h := reachable_consumer h (.dropPending _ rfl)
  have h := reachable_consumer h (.dropReceiver _ rfl)
  exact ⟨_, h, ⟨rfl, rfl, rfl, rfl⟩, rfl⟩

theorem pipeline_good_of_fits_twoBlobs :
    twoBlobs.Fits ∧ ∃ s, Reachable twoBlobs s ∧ Returns s (.error (.failed "cut")) ∧
      s.delivered = [(0, 0), (1, 1)] ∧ Good twoBlobs s := by
  have hfits : twoBlobs.Fits := .inl (by decide)
  obtain ⟨s, hs, hret, hdelivered⟩ := reachable_twoBlobs
  exact ⟨hfits, s, hs, hret, hdelivered, pipeline_good_of_fits twoBlobs hfits hs⟩

section Panic

variable {e : E}

/-- With the receiver gone the spawned tasks all come to nothing. -/
theorem reachable_drained {o : Outcome E} (ws : List Nat) {s : State T E} (h : Reachable cfg s)
    (hc : s.consumer = .done o) (hd : s.dispatcher = .joining) (hr : s.reader = .finished)
    (hgate : ws.length ≤ s.gate) (htasks : s.tasks = ws.map fun j => ⟨j, .waiting⟩) :
    ∃ t, Reachable cfg t ∧ Returns t o := by
  induction ws generalizing s with
  | nil => exact ⟨_, reachable_dispatcher h (.join hd htasks), hr, rfl, htasks, hc⟩
  | cons k ws ih =>
    have hclosed : ¬ s.consumer.Open := fun hopen => hopen o hc
    have hfree : s.tasks.countP (fun x => x.phase.busy) < cfg.decodeThreads := by
      rw [htasks, countP_eq_zero.mpr]
      · exact cfg.decodeThreads_pos
      · intro x hx
        obtain ⟨j, -, rfl⟩ := mem_map.mp hx
        exact Bool.false_ne_true
    have h := reachable_task h (.begin k [] (ws.map fun j => ⟨j, .waiting⟩) htasks hfree)
    have h := reachable_task h (.decode k [] _ rfl)
    have h := reachable_task h (.sendFails k _ [] _ rfl hclosed)
    rw [length_cons] at hgate
    rw [release_of_le Nat.one_ne_zero] at h
    · have h := reachable_task h (.raiseShutdown k [] _ rfl)
      refine ih h hc ?_ hr ?_ rfl
      · change s.dispatcher.woken = .joining
        rw [hd]
        rfl
      · change ws.length ≤ s.gate - 1
        omega
    · change 1 ≤ s.gate
      omega

lemma push_ceiling (cfg : Config T E) (hbig : defaultMaxWindow ≤ cfg.decodeAhead)
    (x : Slot T E × Bool) : ∃ r, tryPush (start cfg).pending cfg.decodeAhead x = .error r := by
  have hceiling :
      (start cfg).pending.maxWindow ≤ cfg.decodeAhead - (start cfg).pending.nextSeq := by
    change max defaultMaxWindow cfg.decodeAhead ≤ cfg.decodeAhead - 0
    omega
  have hstale : ¬ cfg.decodeAhead < (start cfg).pending.nextSeq := Nat.not_lt_zero _
  rw [tryPush, if_neg hstale]
  simp only []
  rw [if_pos hceiling]
  exact ⟨_, rfl⟩

/-- With a window as large as the reorder buffer's ceiling, the read error behind it can arrive
before any of its blobs, and finds no slot. -/
theorem reachable_panicked (cfg : Config T E) (hp : cfg.poolError = none)
    (he : cfg.readError = some e) (hn : cfg.nBlobs = cfg.decodeAhead) (hbig : defaultMaxWindow ≤ cfg.decodeAhead) :
    ∃ s, Reachable cfg s ∧ Returns s .panicked := by
  have h := reachable_errorSent hp he hn
  have h := reachable_consumer h (.check rfl rfl)
  have h := reachable_consumer h (.receive _ [] rfl rfl)
  obtain ⟨r, hr⟩ := push_ceiling cfg hbig (some (.error (.failed e)), false)
  have h := reachable_consumer h (.pushPanics _ r rfl rfl hr)
  have hzero : permitCount false = 0 := rfl
  rw [hzero, release_zero] at h
  have h := reachable_consumer h (.dropPending .panicked rfl)
  have hbuffer : bufferPermits (errorSent cfg e).pending = 0 := rfl
  rw [hbuffer, release_zero] at h
  have h := reachable_consumer h (.dropReceiver .panicked rfl)
  have hitems : itemPermits ([] : List (Item T E)) = 0 := rfl
  rw [hitems, release_zero] at h
  refine reachable_drained (range cfg.decodeAhead) h rfl rfl rfl ?_ rfl
  rw [length_range]
  exact Nat.le_refl _

/-- A window of 65,536 blobs, over as many blobs before the point where the file is cut short. -/
def wideWindow : Config Nat String where
  readAhead := 16
  readAhead_pos := by decide
  decodeAhead := defaultMaxWindow
  decodeAhead_pos := by decide
  decodeThreads := 4
  decodeThreads_pos := by decide
  poolError := none
  nBlobs := defaultMaxWindow
  readError := some "unexpected end of file"
  decode := fun k => some (.ok k)
  consume := fun _ _ => .ok ()

lemma follow_wideWindow (n : Nat) : ∃ l, follow wideWindow n = .ok l := by
  induction n with
  | zero => exact ⟨[], rfl⟩
  | succ n ih =>
    obtain ⟨l, hl⟩ := ih
    exact ⟨l ++ [(n, n)], follow_ok hl rfl rfl⟩

theorem wideWindow_panics : expected wideWindow = .error (.failed "unexpected end of file") ∧
      ∃ s, Reachable wideWindow s ∧ Returns s .panicked ∧ ¬ Good wideWindow s := by
  refine ⟨?_, ?_⟩
  · obtain ⟨l, hl⟩ := follow_wideWindow wideWindow.nBlobs
    exact expected_of_readError rfl hl rfl
  · obtain ⟨s, hs, hret⟩ := reachable_panicked wideWindow rfl rfl rfl (Nat.le_refl _)
    refine ⟨s, hs, hret, ?_⟩
    intro hgood
    rcases hgood.returns .panicked hret with ⟨h, -⟩ | ⟨h, -⟩ | ⟨f, h, -⟩
    · cases h
    · cases h
    · cases h

end Panic

end ReadPipeline
