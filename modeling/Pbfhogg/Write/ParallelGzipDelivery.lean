import Pbfhogg.Write.ParallelGzipInvariant

/-!
# What the parallel gzip writer delivers

Where each barrier is until it is answered, what the inner writer was given, and where each byte of
the `write` calls is as long as no failure is on record.
-/

namespace ParallelGzip

open ReorderBuffer List Option

variable {c : Config} {s t : State}

def Job.barriers (seq : Nat) : Job → List Nat
  | .barrier => [seq]
  | .compress _ => []

def Out.barriers : Out → List Nat
  | .barrier seq => [seq]
  | _ => []

def Stage.barriers (seq : Nat) : Stage → List Nat
  | .holding job => job.barriers seq
  | .compressing _ => []
  | .sending out => out.barriers

def Writer.barriers : Writer → List Nat
  | .received _ out => out.barriers
  | .pushing _ out => out.barriers
  | .popped out => out.barriers
  | .flushing seq => [seq]
  | .answering seq => [seq]
  | .discarding outs _ => outs.flatMap Out.barriers
  | _ => []

/-- The barriers on their way to an answer. -/
def barriersIn (s : State) : List Nat :=
  s.raw.flatMap (fun x => x.2.barriers x.1) ++ (s.busy.flatMap (fun x => x.2.barriers x.1) ++
    (s.compressed.flatMap (fun x => x.2.barriers) ++
      ((drainFilled s.pending).flatMap Out.barriers ++ s.writer.barriers)))

variable (sent : List Job)

/-- The barriers that were dispatched. -/
def sentBarriers : List Nat :=
  (range sent.length).filter fun n => sent[n]? = some .barrier

lemma mem_sentBarriers {sent : List Job} {a : Nat} :
    a ∈ sentBarriers sent ↔ sent[a]? = some .barrier := by
  simp only [sentBarriers, mem_filter, mem_range, decide_eq_true_eq]
  constructor
  · exact fun h => h.2
  · exact fun h => ⟨(List.getElem?_eq_some_iff.mp h).1, h⟩

lemma sentBarriers_nodup : (sentBarriers sent).Nodup :=
  nodup_range.filter _

lemma sentBarriers_append (job : Job) :
    sentBarriers (sent ++ [job]) = sentBarriers sent ++ job.barriers sent.length := by
  have hold : ∀ n ∈ range sent.length,
      decide ((sent ++ [job])[n]? = some .barrier) = decide (sent[n]? = some .barrier) := by
    intro n hn
    rw [getElem?_append_left (mem_range.mp hn)]
  simp only [sentBarriers, length_append, length_singleton, range_succ,
    filter_append, filter_congr hold]
  cases job <;> simp [Job.barriers]

/-- A call waits for a barrier and for nothing else, and a chunk has at most the size asked for. -/
def JobOk (c : Config) (job : Job) (k : Cont) : Prop :=
  (k = .await ↔ job = .barrier) ∧ ∀ raw, job = .compress raw → raw.length ≤ c.chunk

/-- What the producer has in hand; nothing is sent while it waits for an answer. -/
def ProducerOk (c : Config) (sent : List Job) : Producer → Prop
  | .dispatching job k => JobOk c job k
  | .waiting job k => JobOk c job k
  | .sending job k => JobOk c job k
  | .awaiting a => sent[a]? = some .barrier ∧ a + 1 = sent.length
  | _ => True

structure Barriers (c : Config) (s : State) : Prop where
  once : (barriersIn s ++ s.answers.map Prod.fst).Perm (sentBarriers s.sent)
  producer : ProducerOk c s.sent s.producer
  chunks : ∀ raw, Job.compress raw ∈ s.sent → raw.length ≤ c.chunk

lemma barriers_start (c : Config) : Barriers c (start c) where
  once := by simp [barriersIn, start, Writer.barriers, drainFilled, withMaxWindow, sentBarriers]
  producer := trivial
  chunks := by simp [start]

lemma producerOk_onError (e : Failure) (k : Cont) :
    ProducerOk c sent (k.onError e) := by
  cases k <;> exact trivial

lemma producerOk_onSent {seq : Nat} {k : Cont} (hk : k ≠ .await) :
    ProducerOk c sent (k.onSent seq) := by
  cases k with
  | barrier => exact ⟨by simp, fun raw h => by cases h⟩
  | await => exact absurd rfl hk
  | write rest => exact trivial
  | shutdown => exact trivial

lemma barriers_call (ht : Threads c s) (h : Barriers c s) (hstep : CallStep s t) :
    Barriers c t := by
  have hflush : ∀ k, k ≠ .await → Barriers c (s.flushCurrent k) := by
    intro k hk
    refine { h with producer := ?_ }
    simp only [State.flushCurrent]
    split
    · exact producerOk_onSent s.sent hk
    · refine ⟨by simp [hk], fun raw hraw => ?_⟩
      cases hraw
      exact Nat.le_of_lt ht.current_lt
  cases hstep with
  | write buf hp => exact { h with producer := trivial }
  | flush | finish => exact hflush _ (by simp)

lemma barriers_producer (ht : Threads c s) (h : Barriers c s) (hstep : ProducerStep c s t) :
    Barriers c t := by
  have hprod := h.producer
  cases hstep with
  | take rest hp hrest hfull =>
    refine { h with producer := ⟨by simp, fun raw hraw => ?_⟩ }
    have := ht.current_lt
    cases hraw
    simp only [length_append, length_take]
    omega
  | admitted _ _ hp | takePermit _ _ hp =>
    rw [hp] at hprod
    exact { h with producer := hprod }
  | send job k hp hroom halive =>
    rw [hp] at hprod
    refine ⟨?_, ?_, ?_⟩
    · simp only [barriersIn, flatMap_append, flatMap_cons, flatMap_nil,
        append_nil, sentBarriers_append, ht.seq_eq, append_assoc]
      refine List.Perm.trans ?_ (h.once.append_right (job.barriers s.sent.length))
      simp only [barriersIn, append_assoc]
      refine List.Perm.append_left _ (perm_append_comm.trans (.of_eq ?_))
      simp only [append_assoc]
    · by_cases hk : k = .await
      · have hjob : job = .barrier := hprod.1.mp hk
        simp [ProducerOk, Cont.onSent, hk, hjob, ht.seq_eq]
      · exact producerOk_onSent _ hk
    · intro raw hraw
      rcases mem_append.mp hraw with hraw | hraw
      · exact h.chunks raw hraw
      · exact hprod.2 raw (mem_singleton.mp hraw).symm
  | refused | waitStopped | waitDisconnected | sendFails =>
    exact { h with producer := producerOk_onError _ _ _ }
  | _ => exact { h with producer := trivial }

/-- Items move between the places of the pool. -/
theorem Barriers.move (h : Barriers c s) (hperm : (barriersIn t).Perm (barriersIn s))
    (hanswers : t.answers = s.answers) (hsent : t.sent = s.sent)
    (hproducer : t.producer = s.producer) : Barriers c t where
  once := by
    rw [hanswers, hsent]
    exact (hperm.append_right _).trans h.once
  producer := by
    rw [hsent, hproducer]
    exact h.producer
  chunks := by
    rw [hsent]
    exact h.chunks

/-- A change of stage that keeps the barrier. -/
theorem barriersIn_setStage {seq : Nat} {stage stage' : Stage} {before after : List (Nat × Stage)}
    (hbusy : s.busy = before ++ (seq, stage) :: after)
    (hsame : stage'.barriers seq = stage.barriers seq) :
    barriersIn { s with busy := before ++ (seq, stage') :: after } = barriersIn s := by
  simp [barriersIn, hbusy, hsame]

lemma barriers_worker (hthreads : Threads c s) (h : Barriers c s) (hstep : WorkerStep c s t) :
    Barriers c t := by
  cases hstep with
  | recv seq job rest hraw hidle =>
    refine h.move ?_ rfl rfl rfl
    simp only [barriersIn, hraw, flatMap_cons, append_assoc, Stage.barriers]
    exact perm_append_comm_assoc _ _ _
  | exit hraw hopen hidle => exact { h with }
  | forward _ _ _ hbusy | skip _ _ _ _ hbusy | begin _ _ _ _ hbusy | compressed _ _ _ _ hbusy =>
    exact h.move (.of_eq (barriersIn_setStage hbusy rfl)) rfl rfl rfl
  | compressFails seq raw before after hbusy =>
    have hsame := @barriersIn_setStage s seq (.compressing raw) (.sending .dropped) before after
      hbusy rfl
    exact h.move (.of_eq hsame) rfl rfl rfl
  | send seq out before after hbusy hroom hopen =>
    refine h.move ?_ rfl rfl rfl
    simp only [barriersIn, hbusy, flatMap_append, flatMap_cons, flatMap_nil,
      append_nil, append_assoc, Stage.barriers]
    refine List.Perm.append_left _ (List.Perm.append_left _ ?_)
    refine List.Perm.trans ?_ (perm_append_comm_assoc _ _ _)
    exact List.Perm.append_left _ (perm_append_comm_assoc _ _ _)
  | sendFails seq out before after hbusy d hw =>
    have hzero := (hthreads.ended (by rw [hw]; trivial)).1
    have hbusyLe := hthreads.busy_le
    rw [hbusy, hzero] at hbusyLe
    simp at hbusyLe

/-- The writer thread moves on with the same barriers in its hands. -/
theorem Barriers.withWriter (h : Barriers c s) {w : Writer}
    (hsame : w.barriers = s.writer.barriers) : Barriers c { s with writer := w } :=
  h.move (.of_eq (by simp [barriersIn, hsame])) rfl rfl rfl

lemma Barriers.answer (h : Barriers c s) {w : Writer} {seq : Nat} (r : Result)
    (hw : s.writer.barriers = seq :: w.barriers) :
    Barriers c { s with writer := w, answers := s.answers ++ [(seq, r)] } where
  once := by
    refine List.Perm.trans ?_ h.once
    simp only [barriersIn, hw, map_append, map_cons, map_nil, append_assoc,
      cons_append]
    refine List.Perm.append_left _ (List.Perm.append_left _ (List.Perm.append_left _
      (List.Perm.append_left _ ?_)))
    rw [← append_assoc]
    exact perm_append_singleton _ _
  producer := h.producer
  chunks := h.chunks

/-- The writer thread gives up ordered delivery with what it holds. -/
theorem Barriers.discard (h : Barriers c s) {outs : List Out} {last : Bool}
    (hperm : (outs.flatMap Out.barriers).Perm
      ((drainFilled s.pending).flatMap Out.barriers ++ s.writer.barriers)) :
    Barriers c
      { s with
        writer := .discarding outs last
        pending := emptied s.pending
        abandoned := true } := by
  refine h.move ?_ rfl rfl rfl
  simp only [barriersIn, drainFilled_emptied, flatMap_nil, nil_append]
  exact List.Perm.append_left _ (List.Perm.append_left _ (List.Perm.append_left _ hperm))

lemma barriers_writer (h : Barriers c s) (hstep : WriterStep c s t) : Barriers c t := by
  cases hstep with
  | receive seq out rest hw hq =>
    refine h.move ?_ rfl rfl rfl
    simp only [barriersIn, hw, hq, Writer.barriers, flatMap_cons, append_nil,
      append_assoc]
    refine List.Perm.append_left _ (List.Perm.append_left _ ?_)
    rw [← append_assoc]
    exact perm_append_comm
  | disconnect hw | proceed _ _ hw | drained hw | popDropped hw | checkBytes _ hw
  | skipBytes _ hw | checkBarrier _ hw | skipFlush _ hw | discarded hw | discardedLast hw
  | complete hw =>
    exact h.withWriter (by rw [hw]; rfl)
  | abandon _ _ hw | endStopped hw =>
    refine h.discard (.of_eq ?_)
    simp [hw, Writer.barriers]
  | push seq out b hw hpush =>
    obtain ⟨hperm, -⟩ := drainFilled_tryPush hpush
    refine h.move ?_ rfl rfl rfl
    simp only [barriersIn, hw, Writer.barriers, append_nil]
    refine List.Perm.append_left _ (List.Perm.append_left _ (List.Perm.append_left _ ?_))
    refine (hperm.flatMap_right _).trans ?_
    exact perm_append_comm
  | pushRejected seq out r hw hpush =>
    have hitem := tryPush_error_item hpush
    have hdiscard : Barriers c { s with
        writer := .discarding (r.item :: drainFilled s.pending) false
        pending := emptied s.pending
        abandoned := true } := by
      refine h.discard ?_
      rw [hitem, hw, flatMap_cons]
      exact perm_append_comm
    exact { hdiscard with }
  | pop out b hw hpop =>
    obtain ⟨hdrain, -⟩ := drainFilled_popReady hpop
    refine h.move ?_ rfl rfl rfl
    simp only [barriersIn, hw, hdrain, Writer.barriers, append_nil, flatMap_cons]
    refine List.Perm.append_left _ (List.Perm.append_left _ (List.Perm.append_left _ ?_))
    exact perm_append_comm
  | write b hw => exact { @Barriers.withWriter c s h .returning (by rw [hw]; rfl) with }
  | writeFails b hw => exact { @Barriers.withWriter c s h .returning (by rw [hw]; rfl) with }
  | flush seq hw => exact { @Barriers.withWriter c s h (.answering seq) (by rw [hw]; rfl) with }
  | flushFails seq hw => exact { @Barriers.withWriter c s h (.answering seq) (by rw [hw]; rfl) with }
  | answer seq hw => exact h.answer _ (by rw [hw]; rfl)
  | returnPermit hw hroom => exact { @Barriers.withWriter c s h .popping (by rw [hw]; rfl) with }
  | discardBarrier seq outs last hw =>
    have hanswer := @Barriers.answer c s h (.discarding outs last) seq s.reply
      (by rw [hw]; rfl)
    exact { hanswer with }
  | discard out outs last hw hout =>
    have hnone : out.barriers = [] := by
      cases out with
      | bytes b => rfl
      | barrier seq => exact absurd rfl (hout seq)
      | dropped => rfl
    have hsame : (Writer.discarding outs last).barriers = s.writer.barriers := by
      simp [hw, Writer.barriers, hnone]
    exact { h.withWriter hsame with }
  | stranded hw hstop hfilled =>
    have hdiscard : Barriers c { s with
        writer := .discarding (drainFilled s.pending) true
        pending := emptied s.pending
        abandoned := true } := by
      refine h.discard (.of_eq ?_)
      simp [hw, Writer.barriers]
    exact { hdiscard with }
  | lastFlush hw =>
    exact { @Barriers.withWriter c s h (.exited (some s.pending.nextSeq)) (by rw [hw]; rfl) with }
  | lastFlushFails hw =>
    exact { @Barriers.withWriter c s h (.exited none) (by rw [hw]; rfl) with }

lemma barriers_step (ht : Threads c s) (h : Barriers c s) (hstep : Step c s t) :
    Barriers c t := by
  cases hstep with
  | call hc => exact barriers_call ht h hc
  | inside hi =>
    cases hi with
    | producer hp => exact barriers_producer ht h hp
    | worker hw => exact barriers_worker ht h hw
    | writer hw => exact barriers_writer h hw

/-- A barrier that was answered is not on its way any more, and was sent. -/
theorem Barriers.answered (h : Barriers c s) {a : Nat} {r : Result} (ha : (a, r) ∈ s.answers) :
    a ∉ barriersIn s ∧ s.sent[a]? = some .barrier := by
  have hmem : a ∈ s.answers.map Prod.fst := mem_map_of_mem ha
  have hnodup := h.once.nodup_iff.mpr (sentBarriers_nodup s.sent)
  constructor
  · intro hin
    exact (nodup_append.mp hnodup).2.2 a hin a hmem rfl
  · exact mem_sentBarriers.mp (h.once.mem_iff.mp (mem_append_right _ hmem))

def InnerCall.ok : InnerCall → Bool
  | .writeAll _ ok => ok
  | .flush ok => ok

/-- The bytes of one call; a failed write may have passed a part of them on. -/
def InnerCall.given : InnerCall → List Bytes
  | .writeAll b _ => [b]
  | .flush _ => []

/-- What the inner writer was given, call by call. -/
def given (inner : List InnerCall) : List Bytes := inner.flatMap InnerCall.given

def Job.zipped (c : Config) : Job → List Bytes
  | .compress raw => [c.gzip raw]
  | .barrier => []

/-- The members of the jobs, in the order of their sequence numbers. -/
def zipped (c : Config) (sent : List Job) : List Bytes := sent.flatMap (Job.zipped c)

@[simp] lemma given_append (l m : List InnerCall) : given (l ++ m) = given l ++ given m :=
  flatMap_append

@[simp] lemma given_writeAll (b : Bytes) (ok : Bool) : given [.writeAll b ok] = [b] := rfl

@[simp] lemma given_flush (ok : Bool) : given [.flush ok] = [] := rfl

/-- The next job's member. -/
theorem zipped_take_succ {sent : List Job} {n : Nat} {job : Job} (h : sent[n]? = some job) :
    zipped c (sent.take (n + 1)) = zipped c (sent.take n) ++ job.zipped c := by
  rw [take_add_one, h]
  simp [zipped]

/-- The item the writer thread has popped and not given on. -/
def Writer.ungiven : Writer → Nat
  | .popped _ => 1
  | .writing _ => 1
  | _ => 0

structure Delivery (c : Config) (s : State) : Prop where
  /-- In order and without a gap; up to the buffer's next number unless a failure got between. -/
  ordered : ∃ n ≤ s.sent.length, given s.inner = zipped c (s.sent.take n) ∧
    (s.failure = none ∨ (∃ b, s.writer = .writing b) → n + s.writer.ungiven = s.pending.nextSeq)
  clean : s.failure = none → ∀ x ∈ s.inner, x.ok = true
  answering : ∀ a, s.writer = .answering a → s.failure = none → ∃ l, s.inner = l ++ [.flush true]
  acked : ∀ a, (a, Except.ok ()) ∈ s.answers → ∃ l, l ++ [.flush true] <+: s.inner ∧
    (∀ x ∈ l, x.ok = true) ∧ given l = zipped c (s.sent.take (a + 1))

lemma delivery_start (c : Config) : Delivery c (start c) where
  ordered := ⟨0, Nat.le_refl _, rfl, fun _ => rfl⟩
  clean := fun _ x hx => by cases hx
  answering := fun a ha => by cases ha
  acked := fun a ha => by cases ha

/-- The writer thread and the record move on, with nothing given on and nothing answered. -/
theorem Delivery.withWriter (h : Delivery c s) {w : Writer} {failure : Option Failure}
    (hfailure : failure = none → s.failure = none)
    (hungiven : failure = none ∨ (∃ b, w = .writing b) →
      (s.failure = none ∨ ∃ b, s.writer = .writing b) ∧ w.ungiven = s.writer.ungiven)
    (hanswering : ∀ a, w = .answering a → failure = none → ∃ l, s.inner = l ++ [.flush true]) :
    Delivery c { s with writer := w, failure := failure } := by
  obtain ⟨n, hn, hgiven, hnext⟩ := h.ordered
  refine ⟨⟨n, hn, hgiven, fun hf => ?_⟩, fun hf => h.clean (hfailure hf), hanswering, h.acked⟩
  obtain ⟨hbefore, hsame⟩ := hungiven hf
  have := hnext hbefore
  simp only [hsame]
  exact this

lemma delivery_call (h : Delivery c s) (hstep : CallStep s t) : Delivery c t := by
  cases hstep <;> exact { h with }

lemma delivery_producer (hb : Barriers c s) (h : Delivery c s) (hstep : ProducerStep c s t) :
    Delivery c t := by
  cases hstep with
  | send job k hp hroom halive =>
    obtain ⟨n, hn, hgiven, hnext⟩ := h.ordered
    have htake : ∀ m, m ≤ s.sent.length → (s.sent ++ [job]).take m = s.sent.take m :=
      fun m hm => take_append_of_le_length hm
    refine ⟨⟨n, ?_, ?_, hnext⟩, h.clean, h.answering, fun a ha => ?_⟩
    · simp only [length_append]
      omega
    · simp only [htake n hn]
      exact hgiven
    · obtain ⟨l, hl, hok, hgiven⟩ := h.acked a ha
      have hlt := (List.getElem?_eq_some_iff.mp (hb.answered ha).2).1
      simp only [htake (a + 1) hlt]
      exact ⟨l, hl, hok, hgiven⟩
  | _ => exact { h with }

lemma delivery_worker (h : Delivery c s) (hstep : WorkerStep c s t) : Delivery c t := by
  cases hstep with
  | compressFails seq raw before after hbusy =>
    have hsome := recorded_isSome s (.compress seq)
    have hne : s.recorded (.compress seq) ≠ none := by
      intro hnone
      rw [hnone] at hsome
      cases hsome
    have hfail := @Delivery.withWriter c s h s.writer _ (fun hf => absurd hf hne)
      (fun hf => ⟨.inr (hf.resolve_left hne), rfl⟩) fun a ha hf => absurd hf hne
    exact { hfail with }
  | _ => exact { h with }

lemma recorded_ne_none (s : State) (f : Failure) : s.recorded f ≠ none :=
  isSome_iff_ne_none.mp (recorded_isSome s f)

/-- The inner writer is called; what it was given is in order afterwards too. -/
theorem Delivery.called (h : Delivery c s) {w : Writer} {failure : Option Failure}
    {call : InnerCall}
    (hordered : ∃ n ≤ s.sent.length, given s.inner ++ call.given = zipped c (s.sent.take n) ∧
      (failure = none ∨ (∃ b, w = .writing b) → n + w.ungiven = s.pending.nextSeq))
    (hclean : failure = none → s.failure = none ∧ call.ok = true)
    (hanswering : ∀ a, w = .answering a → failure = none → call = .flush true) :
    Delivery c { s with writer := w, failure := failure, inner := s.inner ++ [call] } where
  ordered := by
    obtain ⟨n, hn, hgiven, hnext⟩ := hordered
    refine ⟨n, hn, ?_, hnext⟩
    rw [given_append, ← hgiven]
    simp [given]
  clean := by
    intro hf x hx
    obtain ⟨hnone, hok⟩ := hclean hf
    rcases mem_append.mp hx with hx | hx
    · exact h.clean hnone x hx
    · rw [mem_singleton.mp hx]
      exact hok
  answering := by
    intro a ha hf
    rw [hanswering a ha hf]
    exact ⟨s.inner, rfl⟩
  acked := by
    intro a ha
    obtain ⟨l, hl, hok, hgiven⟩ := h.acked a ha
    exact ⟨l, hl.trans (prefix_append _ _), hok, hgiven⟩

lemma not_stopped {s : State} (h : s.stopped = false) : s.failure = none :=
  isSome_eq_false_iff.mp h |> isNone_iff_eq_none.mp

lemma stopped_ne_none {s : State} (h : s.stopped = true) : s.failure ≠ none :=
  isSome_iff_ne_none.mp h

/-- Ordered delivery is over: nothing is said of the buffer any more. -/
theorem Delivery.over (h : Delivery c s) {w : Writer} {failure : Option Failure} {b : Buffer Out}
    {permits : Nat} {abandoned : Bool} (hfailure : failure ≠ none) (hw : ∀ x, w ≠ .writing x) :
    Delivery c
      { s with
        writer := w
        failure := failure
        pending := b
        permits := permits
        abandoned := abandoned } := by
  obtain ⟨n, hn, hgiven, -⟩ := h.ordered
  refine ⟨⟨n, hn, hgiven, fun hf => ?_⟩, fun hf => absurd hf hfailure,
    fun a ha hf => absurd hf hfailure, h.acked⟩
  rcases hf with hf | ⟨x, hx⟩
  · exact absurd hf hfailure
  · exact absurd hx (hw x)

/-- A barrier is answered; an answer without an error follows a flush of all before it. -/
theorem Delivery.answered (h : Delivery c s) {w : Writer} {seq permits : Nat}
    (hordered : s.failure = none → w.ungiven = s.writer.ungiven) (hw : ∀ x, w ≠ .writing x)
    (hanswering : ∀ a, w ≠ .answering a)
    (hflushed : s.failure = none → s.writer = .answering seq ∧ s.pending.nextSeq = seq + 1) :
    Delivery c
      { s with
        writer := w
        answers := s.answers ++ [(seq, s.reply)]
        permits := permits } := by
  obtain ⟨n, hn, hgiven, hnext⟩ := h.ordered
  refine ⟨⟨n, hn, hgiven, fun hf => ?_⟩, h.clean, fun a ha => absurd ha (hanswering a),
    fun a ha => ?_⟩
  · have hnone : s.failure = none := hf.resolve_right fun ⟨x, hx⟩ => hw x hx
    simp only [hordered hnone]
    exact hnext (.inl hnone)
  · rcases mem_append.mp ha with ha | ha
    · exact h.acked a ha
    · obtain ⟨rfl, hreply⟩ := Prod.mk.inj (mem_singleton.mp ha)
      have hnone : s.failure = none := by
        unfold State.reply at hreply
        split at hreply
        · cases hreply
        · assumption
      obtain ⟨hwriter, hseq⟩ := hflushed hnone
      obtain ⟨l, hl⟩ := h.answering a hwriter hnone
      have hn' := hnext (.inl hnone)
      rw [hwriter, hseq] at hn'
      refine ⟨l, hl ▸ prefix_rfl, fun x hx => h.clean hnone x (by simp [hl, hx]), ?_⟩
      rw [hl, given_append, given_flush, append_nil] at hgiven
      rw [hgiven, ← hn']
      rfl

lemma delivery_writer (hthreads : Threads c s) (hcontents : Contents c s) (h : Delivery c s)
    (hstep : WriterStep c s t) : Delivery c t := by
  have hw' := hcontents.writer
  obtain ⟨n, hn, hgiven, hnext⟩ := h.ordered
  -- The thread moves on with the same items given and the record as it is.
  have hmove : ∀ w : Writer, w.ungiven = s.writer.ungiven →
      ((∃ b, w = .writing b) → s.failure = none) →
        (∀ a, w = .answering a → s.failure = none → ∃ l, s.inner = l ++ [.flush true]) →
          Delivery c { s with writer := w } := by
    intro w hun hwriting hans
    exact h.withWriter (fun hf => hf) (fun hf => ⟨.inl (hf.elim id hwriting), hun⟩) hans
  have hdiscarding : ∀ outs last, s.writer = .discarding outs last → s.failure ≠ none :=
    fun outs last hd => stopped_ne_none
      (hthreads.stopped_of_abandoned (hthreads.abandoned_of_discarding outs last hd))
  cases hstep with
  | receive seq out rest hw hq =>
    exact { hmove (.received seq out) (by rw [hw]; rfl) (by simp) (by simp) with }
  | disconnect hw | proceed _ _ hw | drained hw | complete hw =>
    exact hmove _ (by rw [hw]; rfl) (by simp) (by simp)
  | abandon _ _ _ hstop | skipBytes _ _ hstop | skipFlush _ _ hstop | endStopped _ hstop =>
    exact h.over (stopped_ne_none hstop) (by simp)
  | push seq out b hw hpush =>
    obtain ⟨-, hkeep⟩ := tryPush_keeps hpush
    refine ⟨⟨n, hn, hgiven, fun hf => ?_⟩, h.clean, by simp, h.acked⟩
    have := hnext (.inl (hf.resolve_right (by simp)))
    rw [hw] at this
    rw [hkeep]
    exact this
  | pushRejected | stranded => exact h.over (recorded_ne_none s _) (by simp)
  | pop out b hw hpop =>
    obtain ⟨-, hone, -, -⟩ := popReady_eq_some hpop
    refine ⟨⟨n, hn, hgiven, fun hf => ?_⟩, h.clean, by simp, h.acked⟩
    have := hnext (.inl (hf.resolve_right (by simp)))
    rw [hw] at this
    rw [hone, ← this]
    rfl
  | popDropped hw =>
    rw [hw] at hw'
    obtain ⟨m, -, -, hstop⟩ := hw'
    exact h.over (stopped_ne_none hstop) (by simp)
  | checkBytes b hw hstop =>
    exact hmove _ (by rw [hw]; rfl) (fun _ => not_stopped hstop) (by simp)
  | write b hw =>
    rw [hw] at hw' hnext
    obtain ⟨m, hm, raw, hsent, rfl⟩ := hw'
    have hnm : n = m := by
      have := hnext (.inr ⟨_, rfl⟩)
      simp only [Writer.ungiven] at this
      omega
    refine h.called ⟨m + 1, ?_, ?_, fun _ => hm.symm⟩ (fun hf => ⟨hf, rfl⟩) (by simp)
    · exact (List.getElem?_eq_some_iff.mp hsent).1
    · rw [zipped_take_succ hsent, hgiven, hnm]
      rfl
  | writeFails b hw =>
    rw [hw] at hw' hnext
    obtain ⟨m, hm, raw, hsent, rfl⟩ := hw'
    have hnm : n = m := by
      have := hnext (.inr ⟨_, rfl⟩)
      simp only [Writer.ungiven] at this
      omega
    have hne := recorded_ne_none s .write
    refine h.called ⟨m + 1, ?_, ?_, fun _ => hm.symm⟩ (fun hf => absurd hf hne) (by simp)
    · exact (List.getElem?_eq_some_iff.mp hsent).1
    · rw [zipped_take_succ hsent, hgiven, hnm]
      rfl
  | checkBarrier seq hw hstop =>
    rw [hw] at hw' hnext
    obtain ⟨m, hm, rfl, hsent⟩ := hw'
    have hnm : n = seq := by
      have := hnext (.inl (not_stopped hstop))
      simp only [Writer.ungiven] at this
      omega
    refine ⟨⟨seq + 1, ?_, ?_, fun _ => hm.symm⟩, h.clean, by simp, h.acked⟩
    · exact (List.getElem?_eq_some_iff.mp hsent).1
    · change given s.inner = zipped c (s.sent.take (seq + 1))
      rw [zipped_take_succ hsent, hgiven, hnm]
      simp [Job.zipped]
  | flush _ hw | lastFlush hw =>
    rw [hw] at hnext
    refine h.called ⟨n, hn, ?_, fun hf => ?_⟩ (fun hf => ⟨hf, rfl⟩) (by simp)
    · simpa [InnerCall.given] using hgiven
    · exact hnext (.inl (hf.resolve_right (by simp)))
  | flushFails | lastFlushFails =>
    have hne := recorded_ne_none s .flush
    refine h.called ⟨n, hn, ?_, fun hf => ?_⟩ (fun hf => absurd hf hne) fun _ _ hf => absurd hf hne
    · simpa [InnerCall.given] using hgiven
    · exact absurd (hf.resolve_right (by simp)) hne
  | answer seq hw =>
    rw [hw] at hw'
    exact h.answered (fun _ => by rw [hw]; rfl) (by simp) (by simp) fun _ => ⟨hw, hw'.1⟩
  | returnPermit hw hroom =>
    exact { hmove .popping (by rw [hw]; rfl) (by simp) (by simp) with }
  | discardBarrier seq outs last hw =>
    have hne := hdiscarding _ _ hw
    exact h.answered (fun hf => absurd hf hne) (by simp) (by simp) fun hf => absurd hf hne
  | discard _ _ _ hw | discarded hw | discardedLast hw =>
    exact h.over (hdiscarding _ _ hw) (by simp)

lemma delivery_step (hthreads : Threads c s) (hcontents : Contents c s) (hbarriers : Barriers c s)
    (h : Delivery c s) (hstep : Step c s t) : Delivery c t := by
  cases hstep with
  | call hc => exact delivery_call h hc
  | inside hi =>
    cases hi with
    | producer hp => exact delivery_producer hbarriers h hp
    | worker hw => exact delivery_worker h hw
    | writer hw => exact delivery_writer hthreads hcontents h hw

def Job.rawBytes : Job → Bytes
  | .compress raw => raw
  | .barrier => []

def Cont.rest : Cont → Bytes
  | .write rest => rest
  | _ => []

/-- The job a call is about to send. -/
def Producer.jobBytes : Producer → Bytes
  | .dispatching job _ => job.rawBytes
  | .waiting job _ => job.rawBytes
  | .sending job _ => job.rawBytes
  | _ => []

/-- What a `write` call has not taken yet. -/
def Producer.rest : Producer → Bytes
  | .writing rest => rest
  | .dispatching _ k => k.rest
  | .waiting _ k => k.rest
  | .sending _ k => k.rest
  | _ => []

def rawBytes (sent : List Job) : Bytes := sent.flatMap Job.rawBytes

structure Custody (s : State) : Prop where
  /-- No byte is lost before a failure. -/
  kept : s.failure = none →
    rawBytes s.sent ++ s.producer.jobBytes ++ s.current ++ s.producer.rest = s.wrote
  /-- A `flush` that is answered without an error has all of them sent. -/
  flushed : ∀ a, s.producer = .awaiting a → (a, Except.ok ()) ∈ s.answers →
    rawBytes s.sent = s.wrote

lemma custody_start (c : Config) : Custody (start c) where
  kept := fun _ => rfl
  flushed := fun a ha => by cases ha

@[simp] lemma jobBytes_onSent (seq : Nat) (k : Cont) : (k.onSent seq).jobBytes = [] := by
  cases k <;> rfl

@[simp] lemma rest_onSent (seq : Nat) (k : Cont) : (k.onSent seq).rest = k.rest := by
  cases k <;> rfl

/-- A call with nothing taken yet sends the current chunk. -/
theorem custody_flushCurrent (h : Custody s) (hp : s.producer = .ready) {k : Cont}
    (hk : k.rest = []) (hawait : ∀ a, k.onSent s.nextSeq ≠ .awaiting a) :
    Custody (s.flushCurrent k) := by
  have hkept := h.kept
  simp only [hp, Producer.jobBytes, Producer.rest, append_nil] at hkept
  constructor
  · intro hf
    simp only [State.flushCurrent] at hf ⊢
    rw [← hkept hf]
    split
    · next hcurrent => simp [hk, hcurrent]
    · simp [Producer.jobBytes, Producer.rest, Job.rawBytes, hk]
  · intro a ha
    simp only [State.flushCurrent] at ha
    split at ha
    · exact absurd ha (hawait a)
    · cases ha

lemma custody_call (h : Custody s) (hstep : CallStep s t) : Custody t := by
  cases hstep with
  | write buf hp =>
    have hkept := h.kept
    simp only [hp, Producer.jobBytes, Producer.rest, append_nil] at hkept
    refine ⟨fun hf => ?_, fun a ha => by cases ha⟩
    simp only [Producer.jobBytes, Producer.rest, append_nil]
    rw [hkept hf]
  | flush hp | finish hp => exact custody_flushCurrent h hp rfl fun a ha => by cases ha

/-- The writer thread outlives the dispatches. -/
theorem Threads.not_exited (h : Threads c s) (hopen : s.producer.rawOpen = true) (d : Option Nat) :
    s.writer ≠ .exited d := by
  intro hw
  have hzero := (h.ended (by rw [hw]; trivial)).1
  have hall := h.open_of hopen
  have := workers_pos c
  omega

lemma Threads.alive_pos (h : Threads c s) (hopen : s.producer.rawOpen = true) : 0 < s.alive := by
  rw [h.open_of hopen]
  exact workers_pos c

lemma custody_producer (hthreads : Threads c s) (hbarriers : Barriers c s) (h : Custody s)
    (hstep : ProducerStep c s t) : Custody t := by
  have hkept := h.kept
  have herror : ∀ (k : Cont) (e : Failure) (a : Nat), k.onError e ≠ .awaiting a := by
    intro k e a
    cases k <;> simp [Cont.onError]
  cases hstep with
  | written hp | admitted _ _ hp | takePermit _ _ hp | flushed _ _ hp | ackDropped _ hp
  | joined _ _ hp =>
    rw [hp] at hkept
    exact ⟨hkept, fun a ha => by cases ha⟩
  | take rest hp hrest hfull =>
    refine ⟨fun hf => ?_, fun a ha => by cases ha⟩
    rw [← hkept hf, hp]
    simp [Producer.jobBytes, Producer.rest, Job.rawBytes, Cont.rest]
  | takePart rest hp hrest hfull =>
    refine ⟨fun hf => ?_, fun a ha => by cases ha⟩
    rw [← hkept hf, hp]
    simp [Producer.jobBytes, Producer.rest]
  | refused _ k _ hstop | waitStopped _ k _ hstop =>
    exact ⟨fun hf => absurd hf (stopped_ne_none hstop), fun a ha => absurd ha (herror k _ a)⟩
  | waitDisconnected job k hp hnone d hw =>
    exact absurd hw (hthreads.not_exited (by rw [hp]; rfl) d)
  | send job k hp hroom halive =>
    refine ⟨fun hf => ?_, fun a ha hack => ?_⟩
    · have hcurrent := hthreads.current_nil (by rw [hp]; trivial)
      have hjob : (Producer.sending job k).jobBytes = job.rawBytes := rfl
      have hrest : (Producer.sending job k).rest = k.rest := rfl
      rw [← hkept hf, hp]
      simp [rawBytes, hcurrent, hjob, hrest]
    · have hnew : a = s.nextSeq := by
        cases k <;> simp [Cont.onSent] at ha
        exact ha.symm
      have hlt := (List.getElem?_eq_some_iff.mp (hbarriers.answered hack).2).1
      rw [hnew, hthreads.seq_eq] at hlt
      exact absurd hlt (Nat.lt_irrefl _)
  | sendFails job k hp halive =>
    have := hthreads.alive_pos (by rw [hp]; rfl)
    omega

/-- A failure recorded loses nothing more than the promise. -/
theorem Custody.record (h : Custody s) (f : Failure) :
    Custody { s with failure := s.recorded f } :=
  ⟨fun hf => absurd hf (recorded_ne_none s f), h.flushed⟩

lemma custody_worker (h : Custody s) (hstep : WorkerStep c s t) : Custody t := by
  cases hstep with
  | compressFails seq raw before after hbusy => exact { h.record (.compress seq) with }
  | _ => exact { h with }

/-- An answer without an error is given before a failure is recorded. -/
theorem reply_eq_ok {s : State} (h : s.reply = .ok ()) : s.failure = none := by
  unfold State.reply at h
  split at h
  · cases h
  · assumption

lemma custody_answer (hthreads : Threads c s) (h : Custody s) (seq : Nat) :
    ∀ a, s.producer = .awaiting a → (a, Except.ok ()) ∈ s.answers ++ [(seq, s.reply)] →
      rawBytes s.sent = s.wrote := by
  intro a hp ha
  rcases mem_append.mp ha with ha | ha
  · exact h.flushed a hp ha
  · obtain ⟨-, hreply⟩ := Prod.mk.inj (mem_singleton.mp ha)
    have hkept := h.kept (reply_eq_ok hreply.symm)
    rw [hp, hthreads.current_nil (by rw [hp]; trivial)] at hkept
    simpa [Producer.jobBytes, Producer.rest] using hkept

lemma custody_writer (hthreads : Threads c s) (h : Custody s) (hstep : WriterStep c s t) :
    Custody t := by
  cases hstep with
  | answer seq | discardBarrier seq => exact ⟨h.kept, custody_answer hthreads h seq⟩
  | pushRejected | stranded => exact { h.record _ with }
  | writeFails => exact { h.record .write with }
  | flushFails | lastFlushFails => exact { h.record .flush with }
  | _ => exact { h with }

lemma custody_step (hthreads : Threads c s) (hbarriers : Barriers c s) (h : Custody s)
    (hstep : Step c s t) : Custody t := by
  cases hstep with
  | call hc => exact custody_call h hc
  | inside hi =>
    cases hi with
    | producer hp => exact custody_producer hthreads hbarriers h hp
    | worker hw => exact custody_worker h hw
    | writer hw => exact custody_writer hthreads h hw

/-- What `finish` has returned. -/
def Done (c : Config) (s : State) : Prop :=
  ∀ r, s.producer = .finished r → s.alive = 0 ∧ (∃ d, s.writer = .exited d) ∧
    (r = .ok () → s.failure = none ∧ given s.inner = zipped c s.sent ∧
      (∀ x ∈ s.inner, x.ok = true) ∧ rawBytes s.sent = s.wrote)

structure Sound (c : Config) (s : State) : Prop where
  threads : Threads c s
  contents : Contents c s
  order : s.abandoned = false → Order c s
  barriers : Barriers c s
  delivery : Delivery c s
  custody : Custody s
  done : Done c s

/-- After `finish` nothing moves. -/
theorem finished_final (h : Sound c s) {r : Result} (hp : s.producer = .finished r) :
    ¬ Step c s t := by
  obtain ⟨halive, ⟨d, hw⟩, -⟩ := h.done r hp
  have hbusy : s.busy = [] := by
    have := h.threads.busy_le
    rw [halive] at this
    exact length_eq_zero_iff.mp (by omega)
  intro hstep
  rcases hstep with hc | hi
  · cases hc <;> simp_all
  · rcases hi with hq | hq | hq <;> cases hq <;> simp_all

/-- `finish` succeeds only when every member of every byte has reached the inner writer. -/
theorem finishResult_ok (h : Sound c s) {shipped : Result} {d : Option Nat}
    (hp : s.producer = .joining shipped) (hw : s.writer = .exited d)
    (hok : s.finishResult shipped d = .ok ()) :
    s.failure = none ∧ given s.inner = zipped c s.sent ∧ (∀ x ∈ s.inner, x.ok = true) ∧
      rawBytes s.sent = s.wrote := by
  have hnone : s.failure = none := by
    cases hf : s.failure with
    | none => rfl
    | some f => simp [State.finishResult, hf] at hok
  have hdelivered : d = some s.nextSeq := by
    cases shipped with
    | error e => simp [State.finishResult, hnone] at hok
    | ok u =>
      cases d with
      | none => simp [State.finishResult, hnone] at hok
      | some n =>
        simp only [State.finishResult, hnone] at hok
        split at hok
        · cases hok
        · next hn => rw [Decidable.not_not.mp hn]
  have hnext : s.pending.nextSeq = s.sent.length := by
    rw [← h.threads.delivered s.nextSeq (hdelivered ▸ hw), h.threads.seq_eq]
  obtain ⟨n, hn, hgiven, hall⟩ := h.delivery.ordered
  have hn' := hall (.inl hnone)
  rw [hw, hnext] at hn'
  refine ⟨hnone, ?_, h.delivery.clean hnone, ?_⟩
  · have hfull : s.sent.take n = s.sent := take_of_length_le (Nat.le_of_eq hn'.symm)
    rw [hgiven, hfull]
  · have hkept := h.custody.kept hnone
    rw [hp, h.threads.current_nil (by rw [hp]; trivial)] at hkept
    simpa [Producer.jobBytes, Producer.rest] using hkept

lemma sound_start (c : Config) : Sound c (start c) where
  threads := threads_start c
  contents := contents_start c
  order := fun _ => order_start c
  barriers := barriers_start c
  delivery := delivery_start c
  custody := custody_start c
  done := fun r hr => by cases hr

/-- Only the end of `finish` leads there. -/
theorem done_step (h : Sound c s) (hstep : Step c s t) : Done c t := by
  intro r hr
  have hsent : ∀ (k : Cont) (seq : Nat), k.onSent seq ≠ .finished r := by
    intro k seq
    cases k <;> simp [Cont.onSent]
  have herror : ∀ (k : Cont) (e : Failure), k.onError e ≠ .finished r := by
    intro k e
    cases k <;> simp [Cont.onError]
  have hbefore : s.producer = .finished r → False :=
    fun hp => finished_final h hp hstep
  cases hstep with
  | call hc =>
    have hflush : ∀ k, (s.flushCurrent k).producer ≠ .finished r := by
      intro k
      simp only [State.flushCurrent]
      split
      · exact hsent k _
      · simp
    cases hc with
    | write buf hp => cases hr
    | flush | finish => exact absurd hr (hflush _)
  | inside hi =>
    cases hi with
    | producer hp =>
      cases hp with
      | joined shipped d hp halive hw =>
        cases hr
        exact ⟨halive, ⟨d, hw⟩, @finishResult_ok c s h shipped d hp hw⟩
      | send job k hp hroom halive => exact absurd hr (hsent k _)
      | refused _ k | waitStopped _ k | waitDisconnected _ k | sendFails _ k =>
        exact absurd hr (herror k _)
      | _ => cases hr
    | worker hw | writer hw => cases hw <;> exact (hbefore hr).elim

lemma sound_step (h : Sound c s) (hstep : Step c s t) : Sound c t where
  threads := threads_step h.threads hstep
  contents := contents_step h.threads h.contents hstep
  order := order_step h.threads h.contents h.order hstep
  barriers := barriers_step h.threads h.barriers hstep
  delivery := delivery_step h.threads h.contents h.barriers h.delivery hstep
  custody := custody_step h.threads h.barriers h.custody hstep
  done := done_step h hstep

lemma sound_of_reachable (h : Reachable c s) : Sound c s := by
  induction h with
  | refl => exact sound_start c
  | tail hrun hstep ih => exact sound_step ih hstep

end ParallelGzip
