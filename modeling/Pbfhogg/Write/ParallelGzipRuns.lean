import Pbfhogg.Write.ParallelGzipDelivery

/-!
# Runs of the parallel gzip writer

The calls and the pool they start come to rest, with every barrier answered; and what the whole
protocol promises in every reachable state.
-/

namespace ParallelGzip

open ReorderBuffer List

variable {c : Config} {s t : State}

/-- What a call still does after its job is sent. -/
def Cont.load : Cont → Nat
  | .write rest => 40 * rest.length + 5
  | .barrier => 33
  | .await => 3
  | .shutdown => 3

def Producer.load : Producer → Nat
  | .ready => 0
  | .writing rest => 40 * rest.length + 5
  | .dispatching _ k => 30 + k.load
  | .waiting _ k => 29 + k.load
  | .sending _ k => 28 + k.load
  | .awaiting _ => 3
  | .joining _ => 3
  | .finished _ => 0

def Stage.load : Stage → Nat
  | .holding _ => 18
  | .compressing _ => 16
  | .sending _ => 14

def Writer.load : Writer → Nat
  | .receiving => 6
  | .received _ _ => 17
  | .pushing _ _ => 15
  | .popping => 7
  | .popped _ => 13
  | .writing _ => 12
  | .flushing _ => 12
  | .answering _ => 11
  | .returning => 9
  | .discarding outs false => 7 + 2 * outs.length
  | .discarding outs true => 1 + 2 * outs.length
  | .disconnected => 5
  | .finalFlush => 1
  | .exited _ => 0

/-- A bound on the steps that are left without a new call. -/
def load (s : State) : Nat :=
  s.producer.load + 20 * s.raw.length + (s.busy.map fun x => x.2.load).sum + s.alive +
    12 * s.compressed.length + 7 * (drainFilled s.pending).length + s.writer.load

lemma load_onSent (seq : Nat) (k : Cont) : (k.onSent seq).load ≤ k.load := by
  cases k <;> simp [Cont.onSent, Producer.load, Cont.load]

lemma load_onError (e : Failure) (k : Cont) : (k.onError e).load ≤ 3 := by
  cases k <;> simp [Cont.onError, Producer.load]

lemma load_abort {k : Cont} {e : Failure} (h : 3 < s.producer.load) :
    load (s.abort k e) < load s := by
  have := load_onError e k
  simp only [load, State.abort]
  omega

lemma producer_decreases (hthreads : Threads c s) (hstep : ProducerStep c s t) :
    load t < load s := by
  have hcurrent := hthreads.current_lt
  have hdrop : ∀ rest : Bytes, rest ≠ [] →
      (rest.drop (c.chunk - s.current.length)).length + 1 ≤ rest.length := by
    intro rest hrest
    have := length_pos_iff.mpr hrest
    simp only [length_drop]
    omega
  cases hstep with
  | written hp | flushed _ _ hp | ackDropped _ hp | joined _ _ hp => simp [load, hp, Producer.load]
  | take rest hp hrest hfull =>
    have := hdrop rest hrest
    simp only [load, hp, Producer.load, Cont.load]
    omega
  | takePart rest hp hrest hfull =>
    have := hdrop rest hrest
    simp only [load, hp, Producer.load]
    omega
  | refused _ _ hp | waitStopped _ _ hp | sendFails _ _ hp =>
    exact load_abort (by rw [hp]; simp only [Producer.load]; omega)
  | admitted _ _ hp | takePermit _ _ hp =>
    simp only [load, hp, Producer.load]
    omega
  | waitDisconnected job k hp hnone d hw =>
    exact load_abort (by rw [hp]; simp only [Producer.load]; omega)
  | send job k hp hroom halive =>
    have hk := load_onSent s.nextSeq k
    have hload : s.producer.load = 28 + k.load := by rw [hp]; rfl
    simp only [load, hload, length_append, length_singleton]
    omega

lemma worker_decreases (hstep : WorkerStep c s t) : load t < load s := by
  have hstage : ∀ (seq : Nat) (stage stage' : Stage) (before after : List (Nat × Stage)),
      s.busy = before ++ (seq, stage) :: after → stage'.load < stage.load →
        load { s with busy := before ++ (seq, stage') :: after } < load s := by
    intro seq stage stage' before after hbusy hlt
    simp only [load, hbusy, map_append, map_cons, sum_append, sum_cons]
    omega
  cases hstep with
  | recv seq job rest hraw hidle =>
    simp only [load, hraw, length_cons, map_cons, sum_cons, Stage.load]
    omega
  | exit hraw hopen hidle =>
    simp only [load]
    omega
  | forward _ _ _ hbusy | skip _ _ _ _ hbusy | begin _ _ _ _ hbusy | compressed _ _ _ _ hbusy =>
    exact hstage _ _ _ _ _ hbusy (by simp [Stage.load])
  | compressFails seq raw before after hbusy =>
    exact hstage seq (.compressing raw) (.sending .dropped) before after hbusy (by simp [Stage.load])
  | send seq out before after hbusy hroom hopen =>
    simp only [load, hbusy, map_append, map_cons, sum_append, sum_cons,
      length_append, length_singleton, Stage.load]
    omega
  | sendFails seq out before after hbusy d hw =>
    simp only [load, hbusy, map_append, map_cons, sum_append, sum_cons, Stage.load]
    omega

lemma writer_decreases (hstep : WriterStep c s t) : load t < load s := by
  cases hstep with
  | receive seq out rest hw hq =>
    simp only [load, hw, hq, Writer.load, length_cons]
    omega
  | abandon seq out hw hstop =>
    simp only [load, hw, Writer.load, drainFilled_emptied, length_append,
      length_singleton, length_nil]
    omega
  | push seq out b hw hpush =>
    obtain ⟨hperm, -⟩ := drainFilled_tryPush hpush
    simp only [load, hw, Writer.load, hperm.length_eq, length_cons]
    omega
  | pushRejected seq out r hw hpush =>
    simp only [load, hw, Writer.load, drainFilled_emptied, length_cons, length_nil]
    omega
  | pop out b hw hpop =>
    obtain ⟨hdrain, -⟩ := drainFilled_popReady hpop
    simp only [load, hw, Writer.load, hdrain, length_cons]
    omega
  | discardBarrier _ _ last hw | discard _ _ last hw =>
    cases last <;> simp only [load, hw, Writer.load, length_cons] <;> omega
  | endStopped hw | stranded hw =>
    simp only [load, hw, Writer.load, drainFilled_emptied, length_nil]
    omega
  | disconnect hw | proceed seq out hw | drained hw | popDropped hw | checkBytes b hw
  | skipBytes b hw | write b hw | writeFails b hw | checkBarrier seq hw | skipFlush seq hw
  | flush seq hw | flushFails seq hw | answer seq hw | returnPermit hw | discarded hw
  | discardedLast hw | complete hw | lastFlush hw | lastFlushFails hw =>
    simp only [load, hw, Writer.load]
    omega

/-- Each step inside the pool brings its rest closer. -/
theorem inside_decreases (hthreads : Threads c s) (hstep : Inside c s t) : load t < load s := by
  cases hstep with
  | producer hp => exact producer_decreases hthreads hp
  | worker hw => exact worker_decreases hw
  | writer hw => exact writer_decreases hw

/-- Without a new call only finitely many steps follow, in any order. -/
theorem inside_terminates (h : Sound c s) : Acc (fun t u => Inside c u t) s := by
  induction hn : load s using Nat.strongRecOn generalizing s with
  | ind n ih =>
    refine Acc.intro s fun t hstep => ?_
    have hlt := inside_decreases h.threads hstep
    exact ih (load t) (hn ▸ hlt) (sound_step h (.inside hstep)) rfl

lemma compressedCap_pos (c : Config) : 0 < c.compressedCap :=
  Nat.mul_pos (workers_pos c) (by decide)

section Rest

variable (h : Sound c s) (hrest : ∀ t, ¬ Inside c s t)

include h hrest

lemma rest_writer :
    (s.writer = .receiving ∧ s.compressed = [] ∧ 0 < s.alive) ∨ ∃ d, s.writer = .exited d := by
  have hno : ∀ t, ¬ WriterStep c s t := fun t ht => hrest t (.writer ht)
  cases hw : s.writer with
  | receiving =>
    left
    cases hq : s.compressed with
    | nil =>
      refine ⟨rfl, rfl, ?_⟩
      by_contra hzero
      exact hno _ (.disconnect hw hq (by omega))
    | cons x rest => exact (hno _ (.receive x.1 x.2 rest hw hq)).elim
  | received seq out =>
    cases hstop : s.stopped with
    | true => exact (hno _ (.abandon seq out hw hstop)).elim
    | false => exact (hno _ (.proceed seq out hw hstop)).elim
  | pushing seq out =>
    cases hpush : tryPush s.pending seq out with
    | ok b => exact (hno _ (.push seq out b hw hpush)).elim
    | error r => exact (hno _ (.pushRejected seq out r hw hpush)).elim
  | popping =>
    cases hpop : popReady s.pending with
    | none => exact (hno _ (.drained hw hpop)).elim
    | some x => exact (hno _ (.pop x.1 x.2 hw hpop)).elim
  | popped out =>
    cases hstop : s.stopped with
    | true =>
      cases out with
      | bytes b => exact (hno _ (.skipBytes b hw hstop)).elim
      | barrier seq => exact (hno _ (.skipFlush seq hw hstop)).elim
      | dropped => exact (hno _ (.popDropped hw)).elim
    | false =>
      cases out with
      | bytes b => exact (hno _ (.checkBytes b hw hstop)).elim
      | barrier seq => exact (hno _ (.checkBarrier seq hw hstop)).elim
      | dropped => exact (hno _ (.popDropped hw)).elim
  | writing b => exact (hno _ (.write b hw)).elim
  | flushing seq => exact (hno _ (.flush seq hw)).elim
  | answering seq => exact (hno _ (.answer seq hw)).elim
  | returning =>
    -- The permit that comes back was taken from the channel, so the channel has room for it.
    have hord : s.abandoned = false := by
      cases ha : s.abandoned with
      | false => rfl
      | true =>
        have := (h.threads.unordered ha).1
        rw [hw] at this
        exact this.elim
    have hpermits := (h.order hord).permits
    have hle := (h.order hord).next_le
    rw [hw] at hpermits
    simp only [Writer.unreturned] at hpermits
    exact (hno _ (.returnPermit hw (by omega))).elim
  | discarding outs last =>
    cases outs with
    | nil =>
      cases last with
      | true => exact (hno _ (.discardedLast hw)).elim
      | false => exact (hno _ (.discarded hw)).elim
    | cons out outs =>
      cases out with
      | barrier seq => exact (hno _ (.discardBarrier seq outs last hw)).elim
      | bytes | dropped => exact (hno _ (.discard _ outs last hw (by simp))).elim
  | disconnected =>
    cases hstop : s.stopped with
    | true => exact (hno _ (.endStopped hw hstop)).elim
    | false =>
      by_cases hfilled : 0 < s.pending.filled
      · exact (hno _ (.stranded hw hstop hfilled)).elim
      · exact (hno _ (.complete hw hstop (by omega))).elim
  | finalFlush => exact (hno _ (.lastFlush hw)).elim
  | exited d => exact .inr ⟨d, rfl⟩

lemma rest_compressed : s.compressed = [] := by
  rcases rest_writer h hrest with ⟨-, hq, -⟩ | ⟨d, hw⟩
  · exact hq
  · exact (h.threads.ended (by rw [hw]; trivial)).2

lemma rest_busy : s.busy = [] := by
  have hno : ∀ t, ¬ WorkerStep c s t := fun t ht => hrest t (.worker ht)
  have hcompressed := rest_compressed h hrest
  cases hb : s.busy with
  | nil => rfl
  | cons x after =>
    obtain ⟨seq, stage⟩ := x
    have hbusy : s.busy = [] ++ (seq, stage) :: after := hb
    cases stage with
    | holding job =>
      cases job with
      | barrier => exact (hno _ (.forward seq [] after hbusy)).elim
      | compress raw =>
        cases hstop : s.stopped with
        | true => exact (hno _ (.skip seq raw [] after hbusy hstop)).elim
        | false => exact (hno _ (.begin seq raw [] after hbusy hstop)).elim
    | compressing raw => exact (hno _ (.compressed seq raw [] after hbusy)).elim
    | sending out =>
      by_cases hw : ∃ d, s.writer = .exited d
      · obtain ⟨d, hw⟩ := hw
        exact (hno _ (.sendFails seq out [] after hbusy d hw)).elim
      · have hroom : s.compressed.length < c.compressedCap := by
          rw [hcompressed]
          exact compressedCap_pos c
        exact (hno _ (.send seq out [] after hbusy hroom fun d hd => hw ⟨d, hd⟩)).elim

lemma rest_raw : s.raw = [] := by
  have hno : ∀ t, ¬ WorkerStep c s t := fun t ht => hrest t (.worker ht)
  have hbusy := rest_busy h hrest
  have hpos := workers_pos c
  cases hraw : s.raw with
  | nil => rfl
  | cons x rest =>
    by_cases hall : s.alive < c.workers
    · have := (h.threads.gone hall).2
      rw [hraw] at this
      cases this
    · have hidle : s.busy.length < s.alive := by
        rw [hbusy, length_nil]
        omega
      exact (hno _ (.recv x.1 x.2 rest hraw hidle)).elim

lemma rest_flight : flight s = [] := by
  have hin : s.writer.incoming = [] := by
    rcases rest_writer h hrest with ⟨hw, -⟩ | ⟨d, hw⟩ <;> rw [hw] <;> rfl
  simp [flight, rest_raw h hrest, rest_busy h hrest, rest_compressed h hrest, hin]

/-- The buffer has delivered all that was sent. -/
theorem rest_next (hord : s.abandoned = false) : s.pending.nextSeq = s.nextSeq := by
  have horder := h.order hord
  have hdrained : held s.pending s.pending.nextSeq = none := by
    rcases rest_writer h hrest with ⟨hw, -⟩ | ⟨d, hw⟩ <;>
      exact horder.drained (by rw [hw]; trivial)
  have hle := horder.next_le
  by_contra hne
  rcases horder.complete s.pending.nextSeq (Nat.le_refl _) (by omega) with hmem | hsome
  · rw [rest_flight h hrest] at hmem
    cases hmem
  · rw [hdrained] at hsome
    cases hsome

lemma rest_pending : drainFilled s.pending = [] := by
  cases ha : s.abandoned with
  | true => exact (h.threads.unordered ha).2
  | false =>
    have hnext := rest_next h hrest ha
    refine eq_nil_iff_forall_not_mem.mpr fun out hout => ?_
    obtain ⟨k, hk⟩ := mem_drainFilled.mp hout
    have hlt := held_lt h.threads h.contents hk
    rw [held_of_lt (by omega)] at hk
    cases hk

lemma rest_barriers : barriersIn s = [] := by
  have hw : s.writer.barriers = [] := by
    rcases rest_writer h hrest with ⟨hw, -⟩ | ⟨d, hw⟩ <;> rw [hw] <;> rfl
  simp [barriersIn, rest_raw h hrest, rest_busy h hrest, rest_compressed h hrest,
    rest_pending h hrest, hw]

lemma rest_answers : (s.answers.map Prod.fst).Perm (sentBarriers s.sent) := by
  simpa [rest_barriers h hrest] using h.barriers.once

/-- No call is under way: each has returned. -/
theorem rest_producer : s.producer = .ready ∨ ∃ r, s.producer = .finished r := by
  have hno : ∀ t, ¬ ProducerStep c s t := fun t ht => hrest t (.producer ht)
  cases hp : s.producer with
  | ready => exact .inl rfl
  | writing rest =>
    by_cases hnil : rest = []
    · exact (hno _ (.written (hnil ▸ hp))).elim
    · by_cases hfull : c.chunk ≤ (s.current ++ rest.take (c.chunk - s.current.length)).length
      · exact (hno _ (.take rest hp hnil hfull)).elim
      · exact (hno _ (.takePart rest hp hnil (by omega))).elim
  | dispatching job k =>
    cases hstop : s.stopped with
    | true => exact (hno _ (.refused job k hp hstop)).elim
    | false => exact (hno _ (.admitted job k hp hstop)).elim
  | waiting job k =>
    cases hstop : s.stopped with
    | true => exact (hno _ (.waitStopped job k hp hstop)).elim
    | false =>
      have hord : s.abandoned = false := by
        cases ha : s.abandoned with
        | false => rfl
        | true => rw [h.threads.stopped_of_abandoned ha] at hstop; cases hstop
      have hpermits := (h.order hord).permits
      have hun : s.writer.unreturned = 0 := by
        rcases rest_writer h hrest with ⟨hw, -⟩ | ⟨d, hw⟩ <;> rw [hw] <;> rfl
      rw [hp, hun, rest_next h hrest hord] at hpermits
      simp only [Producer.hand, Config.reorderWindow] at hpermits
      have hpos := workers_pos c
      exact (hno _ (.takePermit job k hp (by omega))).elim
  | sending job k =>
    have hroom : s.raw.length < c.rawCap := by
      rw [rest_raw h hrest]
      exact Nat.mul_pos (workers_pos c) (by decide)
    exact (hno _ (.send job k hp hroom (h.threads.alive_pos (by rw [hp]; rfl)))).elim
  | awaiting a =>
    have hsent := h.barriers.producer
    rw [hp] at hsent
    have hmem := (rest_answers h hrest).mem_iff.mpr (mem_sentBarriers.mpr hsent.1)
    obtain ⟨⟨a', r⟩, hack, rfl⟩ := mem_map.mp hmem
    exact (hno _ (.flushed a' r hp hack)).elim
  | joining shipped =>
    have hzero : s.alive = 0 := by
      by_contra hpos
      have hidle : s.busy.length < s.alive := by
        rw [rest_busy h hrest, length_nil]
        omega
      exact hrest _ (.worker (.exit (rest_raw h hrest) (by rw [hp]; rfl) hidle))
    rcases rest_writer h hrest with ⟨-, -, hpos⟩ | ⟨d, hw⟩
    · omega
    · exact (hno _ (.joined shipped d hp hzero hw)).elim
  | finished r => exact .inr ⟨r, rfl⟩

end Rest

/-- A recorded failure stays the recorded one. -/
theorem failure_stays (hstep : Step c s t) (hf : s.failure ≠ none) : t.failure = s.failure := by
  have hrec : ∀ f, s.recorded f = s.failure := by
    intro f
    cases hs : s.failure with
    | none => exact absurd hs hf
    | some g => simp [State.recorded, hs]
  cases hstep with
  | call hc => cases hc <;> rfl
  | inside hi =>
    cases hi with
    | producer hp => cases hp <;> rfl
    | worker hw | writer hw => cases hw <;> first | rfl | exact hrec _

/-- With a failure on record no new write begins; one whose check came first may still be made. -/
theorem step_after_failure (hf : s.failure ≠ none) (hstep : Step c s t) :
    (t.writer = s.writer ∧ given t.inner = given s.inner) ∨
      (∀ b, t.writer ≠ .writing b) ∧ (given t.inner = given s.inner ∨
        ∃ b, s.writer = .writing b ∧ given t.inner = given s.inner ++ [b]) := by
  cases hstep with
  | call hc => cases hc <;> exact .inl ⟨rfl, rfl⟩
  | inside hi =>
    cases hi with
    | producer hp => cases hp <;> exact .inl ⟨rfl, rfl⟩
    | worker hw => cases hw <;> exact .inl ⟨rfl, rfl⟩
    | writer hw =>
      right
      cases hw with
      | checkBytes b hw hstop => exact absurd (not_stopped hstop) hf
      | write b hw | writeFails b hw => exact ⟨by simp, .inr ⟨b, hw, by simp⟩⟩
      | flush | flushFails | lastFlush | lastFlushFails => exact ⟨by simp, .inl (by simp)⟩
      | _ => exact ⟨by simp, .inl rfl⟩

lemma run_after_failure (hf : s.failure ≠ none) (hrun : Relation.ReflTransGen (Step c) s t) :
    t.failure = s.failure ∧ ((t.writer = s.writer ∧ given t.inner = given s.inner) ∨
      (∀ b, t.writer ≠ .writing b) ∧ (given t.inner = given s.inner ∨
        ∃ b, s.writer = .writing b ∧ given t.inner = given s.inner ++ [b])) := by
  induction hrun with
  | refl => exact ⟨rfl, .inl ⟨rfl, rfl⟩⟩
  | @tail u v hrun hstep ih =>
    obtain ⟨hfail, hgiven⟩ := ih
    have hfu : u.failure ≠ none := by rw [hfail]; exact hf
    refine ⟨(failure_stays hstep hfu).trans hfail, ?_⟩
    rcases hgiven with ⟨hw, hg⟩ | ⟨hnot, hg⟩
    · rw [← hw, ← hg]
      exact step_after_failure hfu hstep
    · rcases step_after_failure hfu hstep with ⟨hw', hg'⟩ | ⟨hnot', hg'⟩
      · rw [hw', hg']
        exact .inr ⟨hnot, hg⟩
      · refine .inr ⟨hnot', ?_⟩
        rcases hg' with hg' | ⟨b, hb, -⟩
        · rw [hg']
          exact hg
        · exact absurd hb (hnot b)

/-- An answer repeats the record as it stands. -/
theorem answers_step (hstep : Step c s t) :
    t.answers = s.answers ∨ ∃ a, t.answers = s.answers ++ [(a, s.reply)] := by
  cases hstep with
  | call hc => cases hc <;> exact .inl rfl
  | inside hi =>
    cases hi with
    | producer hp => cases hp <;> exact .inl rfl
    | worker hw => cases hw <;> exact .inl rfl
    | writer hw =>
      cases hw with
      | answer seq | discardBarrier seq => exact .inr ⟨seq, rfl⟩
      | _ => exact .inl rfl

lemma reply_ok_iff : s.reply = .ok () ↔ s.failure = none := by
  refine ⟨reply_eq_ok, fun h => ?_⟩
  simp [State.reply, h]

/-- The numbers whose permit is not back: those the buffer has not passed on, and the one the
writer thread has in hand. -/
def unhandled (s : State) : Nat := s.nextSeq - s.pending.nextSeq + s.writer.unreturned

/-- A file of gzip members and what they hold; `member` takes one member off the front. -/
inductive Unzips (member : Bytes → Option (Bytes × Bytes)) : Bytes → Bytes → Prop where
  | nil : Unzips member [] []
  | cons {file raw rest out : Bytes} (hmember : member file = some (raw, rest))
      (hrest : Unzips member rest out) : Unzips member file (raw ++ out)

lemma unzips_zipped {member : Bytes → Option (Bytes × Bytes)}
    (hgzip : ∀ raw rest, raw.length ≤ c.chunk → member (c.gzip raw ++ rest) = some (raw, rest))
    {sent : List Job} (hsent : ∀ raw, Job.compress raw ∈ sent → raw.length ≤ c.chunk) :
    Unzips member (zipped c sent).flatten (rawBytes sent) := by
  induction sent with
  | nil => exact .nil
  | cons job sent ih =>
    have htail := ih fun raw hraw => hsent raw (mem_cons_of_mem _ hraw)
    cases job with
    | barrier => exact htail
    | compress raw => exact .cons (hgzip raw _ (hsent raw mem_cons_self)) htail

/-- In every reachable state: the permits make up the window until a failure, and no push is
refused; the inner writer has the members in order, and after a failure at most one more; an
answered flush has everything before it written; barriers are answered once, after finitely many
steps; and `finish` succeeds only with the whole file written. -/
theorem pool_keeps_its_promises (c : Config) (member : Bytes → Option (Bytes × Bytes))
    (hgzip : ∀ raw rest, raw.length ≤ c.chunk → member (c.gzip raw ++ rest) = some (raw, rest))
    {s : State} (hs : Reachable c s) :
    (s.failure = none → s.permits + s.producer.hand + unhandled s = c.reorderWindow) ∧
      (∀ seq out, s.writer = .pushing seq out → ∃ b, tryPush s.pending seq out = .ok b) ∧
      (∃ n ≤ s.sent.length, given s.inner = zipped c (s.sent.take n)) ∧
      (s.failure ≠ none → ∀ t, Relation.ReflTransGen (Step c) s t → given t.inner = given s.inner ∨
          ∃ b, s.writer = .writing b ∧ given t.inner = given s.inner ++ [b]) ∧
      (∀ a, s.producer = .awaiting a → (a, .ok ()) ∈ s.answers →
        ∃ l, l ++ [.flush true] <+: s.inner ∧ (∀ x ∈ l, x.ok = true) ∧
          given l = zipped c s.sent ∧ rawBytes s.sent = s.wrote) ∧ (s.answers.map Prod.fst).Nodup ∧
      (∀ x ∈ s.answers, s.sent[x.1]? = some .barrier) ∧
      (∀ t, Step c s t → t.answers = s.answers ∨ ∃ a, t.answers = s.answers ++ [(a, s.reply)]) ∧
      (s.reply = .ok () ↔ s.failure = none) ∧ Acc (fun t u => Inside c u t) s ∧
      ((∀ t, ¬ Inside c s t) → (s.producer = .ready ∨ ∃ r, s.producer = .finished r) ∧
        ∀ a, s.sent[a]? = some .barrier → (s.answers.map Prod.fst).count a = 1) ∧
      (s.producer = .finished (.ok ()) → s.failure = none ∧
        (∀ x ∈ s.inner, x.ok = true) ∧ Unzips member (given s.inner).flatten s.wrote) := by
  have h := sound_of_reachable hs
  have hnodup := h.barriers.once.nodup_iff.mpr (sentBarriers_nodup s.sent)
  refine ⟨?_, ?_, ?_, ?_, ?_, ?_, ?_, ?_, reply_ok_iff, inside_terminates h, ?_, ?_⟩
  · intro hf
    have hord : s.abandoned = false := by
      cases ha : s.abandoned with
      | false => rfl
      | true => exact absurd hf (stopped_ne_none (h.threads.stopped_of_abandoned ha))
    have hpermits := (h.order hord).permits
    have hle := (h.order hord).next_le
    simp only [unhandled]
    omega
  · intro seq out hw
    have hord : s.abandoned = false := by
      cases ha : s.abandoned with
      | false => rfl
      | true =>
        have := (h.threads.unordered ha).1
        rw [hw] at this
        exact this.elim
    exact push_accepted h.threads h.contents (h.order hord) hw
  · obtain ⟨n, hn, hgiven, -⟩ := h.delivery.ordered
    exact ⟨n, hn, hgiven⟩
  · intro hf t hrun
    rcases (run_after_failure hf hrun).2 with ⟨-, hg⟩ | ⟨-, hg⟩
    · exact .inl hg
    · exact hg
  · intro a hp hack
    obtain ⟨l, hl, hok, hgiven⟩ := h.delivery.acked a hack
    have hsent := h.barriers.producer
    rw [hp] at hsent
    refine ⟨l, hl, hok, ?_, h.custody.flushed a hp hack⟩
    rw [hgiven, take_of_length_le (Nat.le_of_eq hsent.2.symm)]
  · exact (nodup_append.mp hnodup).2.1
  · exact fun x hx => (h.barriers.answered hx).2
  · exact fun t hstep => answers_step hstep
  · intro hrest
    refine ⟨rest_producer h hrest, fun a ha => ?_⟩
    rw [(rest_answers h hrest).count_eq]
    exact count_eq_one_of_mem (sentBarriers_nodup s.sent) (mem_sentBarriers.mpr ha)
  · intro hp
    obtain ⟨-, -, hdone⟩ := h.done _ hp
    obtain ⟨hf, hgiven, hok, hwrote⟩ := hdone rfl
    refine ⟨hf, hok, ?_⟩
    rw [hgiven, ← hwrote]
    exact unzips_zipped hgzip h.barriers.chunks

def crcBit (crc : UInt32) : UInt32 :=
  if crc &&& 1 = 1 then (crc >>> 1) ^^^ 0xedb88320 else crc >>> 1

def crc32 (raw : Bytes) : UInt32 :=
  ~~~ raw.foldl (fun crc b => Nat.repeat crcBit 8 (crc ^^^ b.toUInt32)) 0xffffffff

def le32 (x : UInt32) : Bytes :=
  [x.toUInt8, (x >>> 8).toUInt8, (x >>> 16).toUInt8, (x >>> 24).toUInt8]

/-- The header of a member, and of its only block, which is stored. -/
def storedHeader (len : Nat) : Bytes :=
  [0x1f, 0x8b, 8, 0, 0, 0, 0, 0, 4, 0xff, 1, .ofNat (len % 256), .ofNat (len / 256),
    .ofNat (255 - len % 256), .ofNat (255 - len / 256)]

def storedTrailer (raw : Bytes) : Bytes := le32 (crc32 raw) ++ le32 (.ofNat raw.length)

/-- Gzip at level 0, for input that fits one block. -/
def stored (raw : Bytes) : Bytes := storedHeader raw.length ++ (raw ++ storedTrailer raw)

/-- The reader of such members. -/
def unstored (file : Bytes) : Option (Bytes × Bytes) :=
  let len := (file[11]?.getD 0).toNat + 256 * (file[12]?.getD 0).toNat
  let body := file.drop 15
  if file.take 15 = storedHeader len ∧ (body.drop len).take 8 = storedTrailer (body.take len) then
    some (body.take len, body.drop (len + 8))
  else none

lemma unstored_stored {raw : Bytes} (h : raw.length < 65536) (rest : Bytes) :
    unstored (stored raw ++ rest) = some (raw, rest) := by
  have hlen : (UInt8.ofNat (raw.length % 256)).toNat +
      256 * (UInt8.ofNat (raw.length / 256)).toNat = raw.length := by
    simp only [UInt8.toNat_ofNat', Nat.reducePow]
    omega
  have htrailer : (storedTrailer raw).length = 8 := rfl
  have hfile : stored raw ++ rest =
      storedHeader raw.length ++ (raw ++ (storedTrailer raw ++ rest)) := by
    simp [stored]
  have hbody : (stored raw ++ rest).drop 15 = raw ++ (storedTrailer raw ++ rest) := by
    rw [hfile]
    rfl
  have h11 : (stored raw ++ rest)[11]? = some (UInt8.ofNat (raw.length % 256)) := by
    rw [hfile]
    rfl
  have h12 : (stored raw ++ rest)[12]? = some (UInt8.ofNat (raw.length / 256)) := by
    rw [hfile]
    rfl
  have hhead : (stored raw ++ rest).take 15 = storedHeader raw.length := by
    rw [hfile]
    rfl
  have hdrop : (raw ++ (storedTrailer raw ++ rest)).drop (raw.length + 8) = rest := by
    rw [← append_assoc]
    exact drop_left' (by rw [length_append, htrailer])
  have htake : (storedTrailer raw ++ rest).take 8 = storedTrailer raw :=
    take_left' htrailer
  simp only [unstored, h11, h12, Option.getD_some, hlen, hbody, hhead, take_left,
    drop_left, htake, hdrop, and_self, if_true]

/-- One worker and chunks of two bytes. -/
def oneWorker : Config where
  chunkSize := 2
  workerCount := 1
  gzip := stored

lemma oneWorker_round_trips (raw rest : Bytes) (h : raw.length ≤ oneWorker.chunk) :
    unstored (oneWorker.gzip raw ++ rest) = some (raw, rest) :=
  unstored_stored (Nat.lt_of_le_of_lt h (by decide)) rest

lemma oneByte_run : ∃ s, Reachable oneWorker s ∧ s.producer = .finished (.ok ()) ∧
    s.wrote = [97] ∧ s.inner = [.writeAll (stored [97]) true, .flush true] := by
  have h0 : Reachable oneWorker (start oneWorker) := .refl
  have h1 := h0.tail (.call (.write [97] rfl))
  have h2 := h1.tail (.inside (.producer (.takePart [97] rfl (by simp) (by decide))))
  have h3 := h2.tail (.inside (.producer (.written rfl)))
  have h4 := h3.tail (.call (.finish rfl))
  have h5 := h4.tail (.inside (.producer (.admitted (.compress [97]) .shutdown rfl rfl)))
  have h6 := h5.tail (.inside (.producer (.takePermit _ _ rfl (by decide))))
  have h7 := h6.tail (.inside (.producer (.send _ _ rfl (by decide) (by decide))))
  have h8 := h7.tail (.inside (.worker (.recv 0 (.compress [97]) [] rfl (by decide))))
  have h9 := h8.tail (.inside (.worker (.begin 0 [97] [] [] rfl rfl)))
  have h10 := h9.tail (.inside (.worker (.compressed 0 [97] [] [] rfl)))
  have h11 := h10.tail (.inside (.worker (.send 0 (.bytes (stored [97])) [] [] rfl (by decide)
    (by simp [start, State.flushCurrent]))))
  have h12 := h11.tail (.inside (.writer (.receive 0 (.bytes (stored [97])) [] rfl rfl)))
  have h13 := h12.tail (.inside (.writer (.proceed 0 (.bytes (stored [97])) rfl rfl)))
  have h14 := h13.tail (.inside (.writer (.push 0 (.bytes (stored [97])) _ rfl rfl)))
  have h15 := h14.tail (.inside (.writer (.pop (.bytes (stored [97])) _ rfl rfl)))
  have h16 := h15.tail (.inside (.writer (.checkBytes (stored [97]) rfl rfl)))
  have h17 := h16.tail (.inside (.writer (.write (stored [97]) rfl)))
  have h18 := h17.tail (.inside (.writer (.returnPermit rfl (by decide))))
  have h19 := h18.tail (.inside (.writer (.drained rfl rfl)))
  have h20 := h19.tail (.inside (.worker (.exit rfl rfl (by decide))))
  have h21 := h20.tail (.inside (.writer (.disconnect rfl rfl rfl)))
  have h22 := h21.tail (.inside (.writer (.complete rfl rfl rfl)))
  have h23 := h22.tail (.inside (.writer (.lastFlush rfl)))
  have h24 := h23.tail (.inside (.producer (.joined (.ok ()) (some 1) rfl rfl rfl)))
  exact ⟨_, h24, rfl, rfl, rfl⟩

theorem oneByte_file_unzips :
    ∃ s, Reachable oneWorker s ∧ s.producer = .finished (.ok ()) ∧ s.wrote = [97] ∧
      Unzips unstored (given s.inner).flatten s.wrote := by
  obtain ⟨s, hs, hp, hwrote, -⟩ := oneByte_run
  have hall := pool_keeps_its_promises oneWorker unstored oneWorker_round_trips hs
  exact ⟨s, hs, hp, hwrote, (hall.2.2.2.2.2.2.2.2.2.2.2 hp).2.2⟩

/-- Two workers and chunks of one byte. -/
def twoWorkers : Config where
  chunkSize := 1
  workerCount := 2
  gzip := stored

/-- The second chunk fails while the writer thread, which has asked for a failure and heard of none,
is about to write the first. -/
theorem write_after_failure : ∃ s t, Reachable twoWorkers s ∧ s.failure = some (.compress 1) ∧
    Step twoWorkers s t ∧ given s.inner = [] ∧ given t.inner = [stored [97]] := by
  have h0 : Reachable twoWorkers (start twoWorkers) := .refl
  have h1 := h0.tail (.call (.write [97, 98] rfl))
  have h2 := h1.tail (.inside (.producer (.take [97, 98] rfl (by simp) (by decide))))
  have h3 := h2.tail (.inside (.producer (.admitted (.compress [97]) (.write [98]) rfl rfl)))
  have h4 := h3.tail (.inside (.producer (.takePermit _ _ rfl (by decide))))
  have h5 := h4.tail (.inside (.producer (.send _ _ rfl (by decide) (by decide))))
  have h6 := h5.tail (.inside (.producer (.take [98] rfl (by simp) (by decide))))
  have h7 := h6.tail (.inside (.producer (.admitted (.compress [98]) (.write []) rfl rfl)))
  have h8 := h7.tail (.inside (.producer (.takePermit _ _ rfl (by decide))))
  have h9 := h8.tail (.inside (.producer (.send _ _ rfl (by decide) (by decide))))
  have h10 := h9.tail (.inside (.worker (.recv 0 (.compress [97]) _ rfl (by decide))))
  have h11 := h10.tail (.inside (.worker (.begin 0 [97] [] [] rfl rfl)))
  have h12 := h11.tail (.inside (.worker (.recv 1 (.compress [98]) [] rfl (by decide))))
  have h13 := h12.tail (.inside (.worker (.begin 1 [98] [] _ rfl rfl)))
  have h14 := h13.tail (.inside (.worker (.compressed 0 [97] [(1, .compressing [98])] [] rfl)))
  have h15 := h14.tail (.inside (.worker (.send 0 (.bytes (stored [97]))
    [(1, .compressing [98])] [] rfl (by decide) (by simp [start]))))
  have h16 := h15.tail (.inside (.writer (.receive 0 (.bytes (stored [97])) [] rfl rfl)))
  have h17 := h16.tail (.inside (.writer (.proceed 0 (.bytes (stored [97])) rfl rfl)))
  have h18 := h17.tail (.inside (.writer (.push 0 (.bytes (stored [97])) _ rfl rfl)))
  have h19 := h18.tail (.inside (.writer (.pop (.bytes (stored [97])) _ rfl rfl)))
  have h20 := h19.tail (.inside (.writer (.checkBytes (stored [97]) rfl rfl)))
  have h21 := h20.tail (.inside (.worker (.compressFails 1 [98] [] [] rfl)))
  exact ⟨_, _, h21, rfl, .inside (.writer (.write (stored [97]) rfl)), rfl, rfl⟩

end ParallelGzip
