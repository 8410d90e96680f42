import Pbfhogg.Read.Pipeline

/-!
# What holds in every state of the pipelined read

The permits add up at every step. The items between the reader and the dispatcher are the yielded
ones not passed on, and while the consumer runs each item passed on is in one place: with its task,
on the decoded channel, in the consumer's hand or in the reorder buffer.
-/

namespace ReadPipeline

open ReorderBuffer (Buffer tryPush popReady drainFilled)
open List

variable {T E : Type} {cfg : Config T E} {s t : State T E}

lemma bufferPermits_push {b b' : Buffer (Slot T E × Bool)} {k : Nat} {x : Slot T E} {p : Bool}
    (h : tryPush b k (x, p) = .ok b') : bufferPermits b' = bufferPermits b + permitCount p := by
  have hperm := (ReorderBuffer.drainFilled_tryPush h).1
  unfold bufferPermits
  rw [hperm.countP_eq, countP_cons]
  cases p <;> rfl

lemma bufferPermits_pop {b b' : Buffer (Slot T E × Bool)} {x : Slot T E} {p : Bool}
    (h : popReady b = some ((x, p), b')) : bufferPermits b = bufferPermits b' + permitCount p := by
  have heq := (ReorderBuffer.drainFilled_popReady h).1
  unfold bufferPermits
  rw [heq, countP_cons]
  cases p <;> rfl

@[simp] lemma bufferPermits_emptied (b : Buffer (Slot T E × Bool)) :
    bufferPermits (ReorderBuffer.emptied b) = 0 := rfl

lemma itemPermits_append (l : List (Item T E)) (i : Item T E) :
    itemPermits (l ++ [i]) = itemPermits l + permitCount i.permit := by
  simp [itemPermits, permitCount, countP_append]

lemma itemPermits_cons (l : List (Item T E)) (i : Item T E) :
    itemPermits (i :: l) = permitCount i.permit + itemPermits l := by
  simp [itemPermits, permitCount, countP_cons]
  omega

lemma counted_start (cfg : Config T E) : Counted cfg (start cfg) :=
  ⟨rfl, Nat.zero_le _, rfl, nofun⟩

/-- A step that moves no permit. -/
theorem Counted.still (h : Counted cfg s) (hpermits : permits t = permits s)
    (hparked : ∀ k, t.dispatcher = .parked k → s.dispatcher = .parked k)
    (hgate : t.gate = s.gate) (hsane : t.underflow = s.underflow) : Counted cfg t := by
  refine ⟨?_, ?_, ?_, ?_⟩
  · rw [hgate, hpermits]
    exact h.gate
  · rw [hgate]
    exact h.cap
  · rw [hsane]
    exact h.sane
  · intro k hk
    rw [hgate]
    exact h.parked k (hparked k hk)

lemma Counted.reader (h : Counted cfg s) (hstep : ReaderStep cfg s t) : Counted cfg t := by
  cases hstep <;> exact h.still rfl (fun _ => id) rfl rfl

lemma Counted.dispatcher (h : Counted cfg s) (hstep : DispatcherStep cfg s t) : Counted cfg t := by
  cases hstep with
  | sendBuildError | sendError =>
    refine h.still ?_ (by simp) rfl rfl
    simp [permits, itemPermits_append, permitCount]
  | acquire k hd hroom =>
    refine ⟨?_, hroom, h.sane, by simp⟩
    have := h.gate
    simp only [permits, countP_append, countP_singleton, Phase.holds] at this ⊢
    simp only [if_true]
    omega
  | park k hd hfull =>
    refine ⟨h.gate, h.cap, h.sane, ?_⟩
    intro _ _
    exact hfull
  | _ => exact h.still rfl (by simp) rfl rfl

lemma Counted.task (h : Counted cfg s) (hstep : TaskStep cfg s t) : Counted cfg t := by
  cases hstep with
  | begin _ _ _ ht | decode _ _ _ ht | raiseShutdown _ _ _ ht =>
    refine h.still ?_ (fun _ => id) rfl rfl
    simp [permits, ht, countP_append, Phase.holds]
  | send k r front back ht hopen hroom =>
    refine h.still ?_ (fun _ => id) rfl rfl
    simp only [permits, ht, countP_append, countP_cons, itemPermits_append, Phase.holds,
      permitCount, if_true]
    omega
  | sendFails k r front back ht hclosed =>
    apply Counted.release
    · have := h.gate
      simp only [permits, ht, countP_append, countP_cons, Phase.holds, if_true,
        Bool.false_eq_true, if_false] at this ⊢
      omega
    · exact h.cap
    · exact h.sane
    · exact h.parked

lemma Counted.consumer (h : Counted cfg s) (hstep : ConsumerStep cfg s t) : Counted cfg t := by
  have hgate := h.gate
  cases hstep with
  | check hc | checkFails hc | disconnect hc | notReady hc | finish hc | finishFails hc =>
    refine h.still ?_ (fun _ => id) rfl rfl
    simp [permits, hc, Consumer.hand]
  | receive i rest hc hd =>
    refine h.still ?_ (fun _ => id) rfl rfl
    simp only [permits, hc, hd, Consumer.hand, itemPermits_cons]
    omega
  | arrivedFails _ hc | pushPanics _ _ hc | consume _ _ _ hc | consumeFails _ _ _ _ hc =>
    refine Counted.release ?_ h.cap h.sane h.parked
    simp only [permits, hc, Consumer.hand] at hgate ⊢
    omega
  | push i b hc hok hb =>
    refine h.still ?_ (fun _ => id) rfl rfl
    simp only [permits, hc, Consumer.hand, bufferPermits_push hb]
    omega
  | popNothing p b hc hb =>
    refine Counted.release ?_ h.cap h.sane h.parked
    simp only [permits, bufferPermits_pop hb] at hgate ⊢
    omega
  | popError f p b hc hb =>
    refine Counted.release ?_ h.cap h.sane h.parked
    simp only [permits, hc, Consumer.hand, bufferPermits_pop hb] at hgate ⊢
    omega
  | popOk t' p b hc hb =>
    refine h.still ?_ (fun _ => id) rfl rfl
    simp only [permits, hc, Consumer.hand, bufferPermits_pop hb]
    omega
  | dropPending o hc =>
    refine Counted.release ?_ h.cap h.sane h.parked
    simp only [permits, hc, Consumer.hand, bufferPermits_emptied] at hgate ⊢
    omega
  | dropReceiver o hc =>
    refine Counted.release ?_ h.cap h.sane h.parked
    simp only [permits, hc, Consumer.hand] at hgate ⊢
    have : itemPermits ([] : List (Item T E)) = 0 := rfl
    omega

variable (l : List (Raw E))

/-- What was yielded, with its numbers. -/
def numbered : List (Nat × Raw E) := l.zipIdx.map Prod.swap

lemma numbered_append (r : Raw E) : numbered (l ++ [r]) = numbered l ++ [(l.length, r)] := by
  simp [numbered, zipIdx_append]

lemma length_numbered : (numbered l).length = l.length := by
  simp [numbered]

lemma getElem?_numbered (k : Nat) : (numbered l)[k]? = (l[k]?).map fun r => (k, r) := by
  simp only [numbered, getElem?_map, getElem?_zipIdx]
  cases l[k]? <;> simp

def Reader.hand : Reader E → List (Nat × Raw E)
  | .sending k r => [(k, r)]
  | _ => []

def Dispatcher.hand : Dispatcher E → List (Nat × Raw E)
  | .arrived k r => [(k, r)]
  | .acquiring k => [(k, .blob)]
  | .parked k => [(k, .blob)]
  | .sendingError k f => [(k, .failed f)]
  | _ => []

/-- A failure of the reader behind `k` blobs is the input's own or the end of the invocation. -/
def Justified (cfg : Config T E) (s : State T E) (k : Nat) (f : Failure E) : Prop :=
  (f = .cancelled ∧ s.cancelled = true) ∨
    (k = cfg.nBlobs ∧ ∃ e, cfg.readError = some e ∧ f = .failed e)

/-- The reader ended by itself. -/
def Whole (cfg : Config T E) (s : State T E) : Prop :=
  (s.source = replicate cfg.nBlobs .blob ∧ cfg.readError = none) ∨
    ∃ k f, s.source = replicate k .blob ++ [.failed f]

structure Line (cfg : Config T E) (s : State T E) : Prop where
  sourced : ∃ k, k ≤ cfg.nBlobs ∧ (s.source = replicate k .blob ∨
    ∃ f, s.source = replicate k .blob ++ [.failed f] ∧ Justified cfg s k f)
  reading : ∀ k, s.reader = .reading k → k ≤ cfg.nBlobs ∧ s.source = replicate k .blob
  sending : ∀ k r, s.reader = .sending k r → s.source = replicate k .blob ++ [r]
  whole : s.reader = .finished → s.dispatcher.RawOpen → Whole cfg s
  line : s.dispatcher.RawOpen → s.dispatched ≤ s.source.length ∧
    s.dispatcher.hand ++ s.raw ++ s.reader.hand = (numbered s.source).drop s.dispatched

lemma line_start (cfg : Config T E) : Line cfg (start cfg) := by
  refine ⟨⟨0, Nat.zero_le _, .inl rfl⟩, ?_, nofun, nofun, ?_⟩
  · intro k hk
    cases hk
    exact ⟨Nat.zero_le _, rfl⟩
  · intro _
    exact ⟨Nat.le_refl _, rfl⟩

lemma Line.yielded (h : Line cfg s) {k : Nat} (hr : s.reader = .reading k) (r : Raw E)
    (hopen : s.dispatcher.RawOpen) : s.dispatched ≤ (s.source ++ [r]).length ∧
      s.dispatcher.hand ++ s.raw ++ [(k, r)] = (numbered (s.source ++ [r])).drop s.dispatched := by
  obtain ⟨-, hsource⟩ := h.reading k hr
  have hlen : s.source.length = k := by rw [hsource, length_replicate]
  obtain ⟨hle, heq⟩ := h.line hopen
  rw [hr] at heq
  refine ⟨?_, ?_⟩
  · simp only [length_append, length_singleton]
    omega
  · simp only [Reader.hand, append_nil] at heq
    rw [numbered_append, drop_append_of_le_length (by rw [length_numbered]; exact hle), ← heq,
      hlen]

lemma Line.reader (h : Line cfg s) (hstep : ReaderStep cfg s t) : Line cfg t := by
  have hline := h.line
  cases hstep with
  | read k hr hk =>
    obtain ⟨-, hsource⟩ := h.reading k hr
    refine ⟨⟨k + 1, hk, .inl ?_⟩, nofun, ?_, nofun, ?_⟩
    · rw [hsource, replicate_succ']
    · intro k' r hs
      cases hs
      rw [hsource]
    · exact h.yielded hr _
  | readFails k e hr hk he =>
    obtain ⟨hle, hsource⟩ := h.reading k hr
    refine ⟨⟨k, hle, .inr ⟨.failed e, ?_, .inr ⟨hk, e, he, rfl⟩⟩⟩, nofun, ?_, nofun, ?_⟩
    · rw [hsource]
    · intro k' r hs
      cases hs
      rw [hsource]
    · exact h.yielded hr _
  | readCancelled k hr hc =>
    obtain ⟨hle, hsource⟩ := h.reading k hr
    refine ⟨⟨k, hle, .inr ⟨.cancelled, ?_, .inl ⟨rfl, hc⟩⟩⟩, nofun, ?_, nofun, ?_⟩
    · rw [hsource]
    · intro k' r hs
      cases hs
      rw [hsource]
    · exact h.yielded hr _
  | eof k hr hk he =>
    obtain ⟨-, hsource⟩ := h.reading k hr
    refine ⟨h.sourced, nofun, nofun, ?_, ?_⟩
    · intro _ _
      exact .inl ⟨by rw [← hk]; exact hsource, he⟩
    · intro hopen
      obtain ⟨hle, heq⟩ := hline hopen
      rw [hr] at heq
      exact ⟨hle, heq⟩
  | send k hr hopen hroom =>
    have hsource := h.sending k .blob hr
    refine ⟨h.sourced, ?_, nofun, nofun, ?_⟩
    · intro k' hk
      cases hk
      refine ⟨?_, by rw [replicate_succ']; exact hsource⟩
      -- the last blob of the source is one of the input's
      obtain ⟨n, hn, hs | ⟨f, hs, -⟩⟩ := h.sourced
      · have := congrArg length (hsource.symm.trans hs)
        simp only [length_append, length_replicate, length_singleton] at this
        omega
      · have := append_inj_right' (hsource.symm.trans hs) rfl
        cases this
    · intro hopen
      obtain ⟨hle, heq⟩ := hline hopen
      rw [hr] at heq
      refine ⟨hle, ?_⟩
      simp only [Reader.hand, append_nil, ← append_assoc] at heq ⊢
      exact heq
  | sendFailed k f hr hopen hroom =>
    have hsource := h.sending k (.failed f) hr
    refine ⟨h.sourced, nofun, nofun, fun _ _ => .inr ⟨k, f, hsource⟩, ?_⟩
    intro hopen
    obtain ⟨hle, heq⟩ := hline hopen
    rw [hr] at heq
    refine ⟨hle, ?_⟩
    simp only [Reader.hand, append_nil, ← append_assoc] at heq ⊢
    exact heq
  | sendFails k r hr hclosed =>
    exact ⟨h.sourced, nofun, nofun, fun _ hopen => absurd hopen hclosed,
      fun hopen => absurd hopen hclosed⟩

/-- A step of the dispatcher, or one that only wakes it. -/
theorem Line.turn (h : Line cfg s)
    (hopen : t.dispatcher.RawOpen → s.dispatcher.RawOpen ∧ ((t.dispatched = s.dispatched ∧
          t.dispatcher.hand ++ t.raw = s.dispatcher.hand ++ s.raw) ∨
        (t.dispatched = s.dispatched + 1 ∧
          ∃ x, s.dispatcher.hand ++ s.raw = x :: (t.dispatcher.hand ++ t.raw))))
    (hreader : t.reader = s.reader) (hsource : t.source = s.source)
    (hcancelled : t.cancelled = s.cancelled) : Line cfg t := by
  refine ⟨?_, ?_, ?_, ?_, ?_⟩
  · unfold Justified
    rw [hsource, hcancelled]
    exact h.sourced
  · rw [hreader, hsource]
    exact h.reading
  · rw [hreader, hsource]
    exact h.sending
  · intro hfin ho
    rw [hreader] at hfin
    unfold Whole
    rw [hsource]
    exact h.whole hfin (hopen ho).1
  · intro ho
    obtain ⟨hold, hcase⟩ := hopen ho
    obtain ⟨hle, heq⟩ := h.line hold
    rw [hsource, hreader]
    rcases hcase with ⟨hd, hsame⟩ | ⟨hd, x, hsame⟩
    · rw [hd, hsame]
      exact ⟨hle, heq⟩
    · rw [hsame, cons_append] at heq
      have hlt : s.dispatched < s.source.length := by
        by_contra hge
        rw [drop_eq_nil_of_le (by rw [length_numbered]; omega)] at heq
        cases heq
      refine ⟨by omega, ?_⟩
      rw [hd, ← drop_drop, ← heq, drop_one, tail_cons]

lemma Line.dispatcher (h : Line cfg s) (hstep : DispatcherStep cfg s t) : Line cfg t := by
  cases hstep with
  | build hd | buildFails _ hd | admits _ hd | forward _ _ hd | park _ hd =>
    refine h.turn (fun _ => ⟨by rw [hd]; trivial, .inl ⟨rfl, ?_⟩⟩) rfl rfl rfl
    rw [hd]
    rfl
  | receive k r rest hd hraw =>
    refine h.turn (fun _ => ⟨by rw [hd]; trivial, .inl ⟨rfl, ?_⟩⟩) rfl rfl rfl
    rw [hd, hraw]
    rfl
  | acquire k hd hroom =>
    refine h.turn (fun _ => ⟨by rw [hd]; trivial, .inr ⟨rfl, (k, .blob), ?_⟩⟩) rfl rfl rfl
    rw [hd]
    rfl
  | sendError k f hd hopen hroom =>
    refine h.turn (fun _ => ⟨by rw [hd]; trivial, .inr ⟨rfl, (k, .failed f), ?_⟩⟩) rfl rfl rfl
    rw [hd]
    rfl
  | _ => exact h.turn (fun ho => absurd ho not_false) rfl rfl rfl

@[simp] lemma release_rawOpen {n : Nat} :
    (s.release n).dispatcher.RawOpen ↔ s.dispatcher.RawOpen := by
  rcases release_dispatcher (s := s) (n := n) with h | ⟨k, hk, h⟩
  · rw [h]
  · rw [h, hk]
    exact Iff.rfl

@[simp] lemma release_hand {n : Nat} :
    (s.release n).dispatcher.hand = s.dispatcher.hand := by
  rcases release_dispatcher (s := s) (n := n) with h | ⟨k, hk, h⟩
  · rw [h]
  · rw [h, hk]
    rfl

lemma Line.release (h : Line cfg s) (n : Nat) : Line cfg (s.release n) := by
  refine h.turn (fun ho => ?_) release_reader release_source release_cancelled
  refine ⟨release_rawOpen.mp ho, .inl ⟨release_dispatched, ?_⟩⟩
  rw [release_hand, release_raw]

lemma Line.task (h : Line cfg s) (hstep : TaskStep cfg s t) : Line cfg t := by
  cases hstep with
  | sendFails k r front back ht hclosed =>
    apply Line.release
    exact ⟨h.1, h.2, h.3, h.4, h.5⟩
  | _ => exact ⟨h.1, h.2, h.3, h.4, h.5⟩

lemma Line.consumer (h : Line cfg s) (hstep : ConsumerStep cfg s t) : Line cfg t := by
  cases hstep <;>
    first
    | exact ⟨h.1, h.2, h.3, h.4, h.5⟩
    | apply Line.release
      exact ⟨h.1, h.2, h.3, h.4, h.5⟩

lemma Justified.cancel {k : Nat} {f : Failure E} (h : Justified cfg s k f) :
    Justified cfg { s with cancelled := true } k f := by
  rcases h with ⟨hf, -⟩ | h
  · exact .inl ⟨hf, rfl⟩
  · exact .inr h

lemma Line.cancel (h : Line cfg s) : Line cfg { s with cancelled := true } := by
  refine ⟨?_, h.2, h.3, h.4, h.5⟩
  obtain ⟨k, hk, hs | ⟨f, hs, hf⟩⟩ := h.sourced
  · exact ⟨k, hk, .inl hs⟩
  · exact ⟨k, hk, .inr ⟨f, hs, hf.cancel⟩⟩

/-- The stages in front of the consumer end for no reason but the end of the input, unless the
decoded receiver is gone. -/
structure Ends (cfg : Config T E) (s : State T E) : Prop where
  quiet : s.consumer.Open → s.shutdown = false ∧ ∀ x ∈ s.tasks, x.phase ≠ .stopping
  pool : ∀ e, cfg.poolError = some e → s.tasks = [] ∧
    ((s.dispatcher = .building ∧ s.dispatched = 0) ∨
      (s.dispatcher = .buildFailed e ∧ s.dispatched = 0) ∨ s.dispatcher = .finished)
  built : cfg.poolError = none → ∀ e, s.dispatcher ≠ .buildFailed e
  left : s.consumer.Open → cfg.poolError = none → ¬ s.dispatcher.RawOpen →
    s.reader = .finished ∧ Whole cfg s ∧ s.dispatched = s.source.length
  sentError : s.consumer.Open → cfg.poolError ≠ none → s.dispatcher = .finished → s.dispatched = 1
  joined : s.dispatcher = .finished → s.tasks = []

lemma ends_start (cfg : Config T E) : Ends cfg (start cfg) := by
  refine ⟨fun _ => ⟨rfl, nofun⟩, fun e _ => ⟨rfl, .inl ⟨rfl, rfl⟩⟩, nofun, ?_, nofun, nofun⟩
  intro _ _ h
  exact absurd trivial h

lemma Ends.reader (h : Ends cfg s) (hstep : ReaderStep cfg s t) : Ends cfg t := by
  have hleft : ∀ k, s.reader = .reading k → s.consumer.Open → cfg.poolError = none →
      s.dispatcher.RawOpen := by
    intro k hr hc hp
    by_contra ho
    have := (h.left hc hp ho).1
    rw [hr] at this
    cases this
  cases hstep with
  | read k hr | readFails k _ hr | readCancelled k hr | eof k hr =>
    exact { h with left := fun hc hp ho => absurd (hleft k hr hc hp) ho }
  | send _ _ hopen | sendFailed _ _ _ hopen =>
    exact { h with left := fun _ _ ho => absurd hopen ho }
  | sendFails k r hr hclosed =>
    exact { h with left := fun hc hp ho => ⟨rfl, (h.left hc hp ho).2⟩ }

lemma Ends.has_pool {d : Dispatcher E} (h : Ends cfg s) (heq : s.dispatcher = d)
    (hne : d ≠ .building ∧ (∀ e, d ≠ .buildFailed e) ∧ d ≠ .finished) : cfg.poolError = none := by
  subst heq
  obtain ⟨hb, hf, hfin⟩ := hne
  cases hp : cfg.poolError with
  | none => rfl
  | some e =>
    rcases (h.pool e hp).2 with ⟨hd, -⟩ | ⟨hd, -⟩ | hd
    · exact absurd hd hb
    · exact absurd hd (hf e)
    · exact absurd hd hfin

lemma Ends.works (h : Ends cfg s) (hp : cfg.poolError = none)
    (hleft : s.consumer.Open → ¬ t.dispatcher.RawOpen →
      t.reader = .finished ∧ Whole cfg t ∧ t.dispatched = t.source.length)
    (hd : (t.dispatcher = .finished → s.tasks = []) ∧ ∀ e, t.dispatcher ≠ .buildFailed e)
    (htasks : t.tasks = s.tasks) (hconsumer : t.consumer = s.consumer)
    (hshutdown : t.shutdown = s.shutdown) : Ends cfg t := by
  obtain ⟨hjoined, hfailed⟩ := hd
  refine ⟨?_, ?_, fun _ => hfailed, ?_, fun _ hp' => absurd hp hp', ?_⟩
  · rw [hconsumer, hshutdown, htasks]
    exact h.quiet
  · intro e he
    rw [hp] at he
    cases he
  · intro hc _ ho
    rw [hconsumer] at hc
    exact hleft hc ho
  · rw [htasks]
    exact hjoined

lemma Ends.dispatcher (h : Ends cfg s) (hl : Line cfg s) (hstep : DispatcherStep cfg s t) :
    Ends cfg t := by
  cases hstep with
  | build hd he => exact h.works he (fun _ ho => absurd trivial ho) (by simp) rfl rfl rfl
  | buildFails e hd he =>
    refine ⟨h.quiet, ?_, ?_, fun _ _ ho => absurd trivial ho, nofun, nofun⟩
    · intro e' hp
      obtain ⟨htasks, hcase⟩ := h.pool e' hp
      rw [hp] at he
      cases he
      refine ⟨htasks, .inr (.inl ⟨rfl, ?_⟩)⟩
      rw [hd] at hcase
      simpa using hcase
    · intro hp
      rw [hp] at he
      cases he
  | sendBuildError e hd hopen hroom =>
    have hpool : cfg.poolError ≠ none := fun hp => h.built hp e hd
    refine ⟨h.quiet, fun e' hp => ⟨(h.pool e' hp).1, .inr (.inr rfl)⟩, nofun,
      fun _ hp => absurd hp hpool, fun _ _ _ => rfl, ?_⟩
    intro _
    obtain ⟨e', he'⟩ := Option.ne_none_iff_exists'.mp hpool
    exact (h.pool e' he').1
  | dropBuildError e hd hclosed =>
    have hpool : cfg.poolError ≠ none := fun hp => h.built hp e hd
    refine ⟨h.quiet, fun e' hp => ⟨(h.pool e' hp).1, .inr (.inr rfl)⟩, nofun,
      fun _ hp => absurd hp hpool, fun ho => absurd ho hclosed, ?_⟩
    intro _
    obtain ⟨e', he'⟩ := Option.ne_none_iff_exists'.mp hpool
    exact (h.pool e' he').1
  | receive _ _ _ hd | admits _ hd | forward _ _ hd | park _ hd | sendError _ _ hd =>
    have hp := h.has_pool hd (by simp)
    exact h.works hp (fun _ ho => absurd trivial ho) (by simp) rfl rfl rfl
  | receiveClosed hd hraw hr =>
    have hp := h.has_pool hd (by simp)
    refine h.works hp ?_ (by simp) rfl rfl rfl
    intro _ _
    have hopen : s.dispatcher.RawOpen := by
      rw [hd]
      trivial
    obtain ⟨hle, heq⟩ := hl.line hopen
    refine ⟨hr, hl.whole hr hopen, ?_⟩
    rw [hd, hraw, hr] at heq
    have := drop_eq_nil_iff.mp heq.symm
    rw [length_numbered] at this
    exact Nat.le_antisymm hle this
  | loadStop k r hd hs =>
    have hp := h.has_pool hd (by simp)
    refine h.works hp ?_ (by simp) rfl rfl rfl
    intro hc
    have := (h.quiet hc).1
    rw [hs] at this
    cases this
  | acquire k hd hroom =>
    have hp := h.has_pool hd (by simp)
    refine ⟨?_, ?_, nofun, fun _ _ ho => absurd trivial ho, nofun, nofun⟩
    · intro hc
      refine ⟨(h.quiet hc).1, ?_⟩
      intro x hx
      rcases mem_append.mp hx with hx | hx
      · exact (h.quiet hc).2 x hx
      · rw [mem_singleton.mp hx]
        exact nofun
    · intro e he
      rw [hp] at he
      cases he
  | sendErrorFails k f hd hclosed =>
    have hp := h.has_pool hd (by simp)
    exact h.works hp (fun hc => absurd hc hclosed) (by simp) rfl rfl rfl
  | join hd htasks =>
    have hp := h.has_pool hd (by simp)
    refine h.works hp ?_ (by simpa) rfl rfl rfl
    intro hc _
    exact h.left hc hp (by rw [hd]; exact not_false)

lemma Ends.release (h : Ends cfg s) (n : Nat) : Ends cfg (s.release n) := by
  rcases release_dispatcher (s := s) (n := n) with hd | ⟨k, hk, hd⟩
  · refine ⟨?_, ?_, ?_, ?_, ?_, ?_⟩
    · rw [release_consumer, release_shutdown, release_tasks]
      exact h.quiet
    · rw [release_tasks, hd, release_dispatched]
      exact h.pool
    · rw [hd]
      exact h.built
    · unfold Whole
      rw [release_consumer, hd, release_reader, release_source, release_dispatched]
      exact h.left
    · rw [release_consumer, hd, release_dispatched]
      exact h.sentError
    · rw [hd, release_tasks]
      exact h.joined
  · have hp := h.has_pool hk (by simp)
    refine h.works hp ?_ (by simp [hd]) release_tasks release_consumer release_shutdown
    rw [hd]
    exact fun _ ho => absurd trivial ho

/-- A step of the consumer, before it drops any permits. -/
theorem Ends.consumes (h : Ends cfg s) {c : Consumer T E} {d : List (Item T E)}
    {b : Buffer (Slot T E × Bool)} {l : List (Nat × T)} (hopen : c.Open → s.consumer.Open) :
    Ends cfg { s with consumer := c, decoded := d, pending := b, delivered := l } :=
  ⟨fun hc => h.quiet (hopen hc), h.pool, h.built, fun hc => h.left (hopen hc),
    fun hc => h.sentError (hopen hc), h.joined⟩

lemma Ends.consumer (h : Ends cfg s) (hstep : ConsumerStep cfg s t) : Ends cfg t := by
  have hlive : ∀ c, s.consumer = c → (∀ o, c ≠ .done o) → s.consumer.Open := by
    rintro c rfl hc
    exact hc
  cases hstep with
  | check hc | checkFails hc | receive _ _ hc | disconnect hc =>
    exact h.consumes fun _ => hlive _ hc nofun
  | arrivedFails _ hc | pushPanics _ _ hc | popNothing _ _ hc | popError _ _ _ hc
  | consume _ _ _ hc | consumeFails _ _ _ _ hc | dropPending _ hc | dropReceiver _ hc =>
    apply Ends.release
    exact h.consumes fun _ => hlive _ hc nofun
  | push i b hc hok hb => exact h.consumes fun _ => hlive _ hc nofun
  | notReady hc hb => exact h.consumes fun _ => hlive _ hc nofun
  | popOk t' p b hc hb => exact h.consumes fun _ => hlive _ hc nofun
  | finish hc hok => exact h.consumes fun _ => hlive _ hc nofun
  | finishFails hc hcancel => exact h.consumes fun _ => hlive _ hc nofun

lemma forall_replace {α : Type} {P : α → Prop} {front back : List α} {x y : α}
    (h : ∀ z ∈ front ++ x :: back, P z) (hy : P y) : ∀ z ∈ front ++ y :: back, P z := by
  intro z hz
  rcases mem_append.mp hz with hz | hz
  · exact h z (mem_append.mpr (.inl hz))
  · rcases mem_cons.mp hz with rfl | hz
    · exact hy
    · exact h z (mem_append.mpr (.inr (mem_cons_of_mem _ hz)))

lemma Ends.task (h : Ends cfg s) (hstep : TaskStep cfg s t) : Ends cfg t := by
  have hsome : ∀ x front back, s.tasks = front ++ x :: back →
      cfg.poolError = none ∧ s.dispatcher ≠ .finished := by
    intro x front back ht
    refine ⟨?_, ?_⟩
    · cases hp : cfg.poolError with
      | none => rfl
      | some e =>
        have := (h.pool e hp).1
        rw [ht] at this
        simp at this
    · intro hd
      have := h.joined hd
      rw [ht] at this
      simp at this
  -- no pool error, and a dispatcher that has not ended: only the phases of the tasks matter
  have hstep' : ∀ {tasks : List (Task T E)} {decoded : List (Item T E)} {b : Bool},
      cfg.poolError = none → s.dispatcher ≠ .finished →
      (s.consumer.Open → b = false ∧ ∀ x ∈ tasks, x.phase ≠ .stopping) →
      Ends cfg { s with tasks := tasks, decoded := decoded, shutdown := b } := by
    intro tasks decoded b hp hd hquiet
    refine ⟨hquiet, ?_, h.built, h.left, h.sentError, fun hf => absurd hf hd⟩
    intro e he
    rw [hp] at he
    cases he
  cases hstep with
  | begin _ _ _ ht | decode _ _ _ ht =>
    obtain ⟨hp, hd⟩ := hsome _ _ _ ht
    refine hstep' hp hd fun hc => ⟨(h.quiet hc).1, ?_⟩
    have hold := (h.quiet hc).2
    rw [ht] at hold
    exact forall_replace hold nofun
  | send k r front back ht hopen hroom =>
    obtain ⟨hp, hd⟩ := hsome _ _ _ ht
    refine hstep' hp hd fun hc => ⟨(h.quiet hc).1, ?_⟩
    have := (h.quiet hc).2
    rw [ht] at this
    intro x hx
    apply this
    simp only [mem_append, mem_cons] at hx ⊢
    tauto
  | sendFails k r front back ht hclosed =>
    obtain ⟨hp, hd⟩ := hsome _ _ _ ht
    apply Ends.release
    exact hstep' hp hd fun hc => absurd hc hclosed
  | raiseShutdown k front back ht =>
    obtain ⟨hp, hd⟩ := hsome _ _ _ ht
    refine hstep' hp hd fun hc => ?_
    have := (h.quiet hc).2 ⟨k, .stopping⟩ (by rw [ht]; simp)
    exact absurd rfl this

end ReadPipeline
