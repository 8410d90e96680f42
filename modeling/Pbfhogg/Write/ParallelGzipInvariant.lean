import Mathlib.Data.List.Perm.Basic
import Pbfhogg.Write.ParallelGzip

/-!
# Invariants of the parallel gzip writer

What holds in every reachable state, in layers: the state of the threads, what the items on their
way are, where each sequence number is while delivery is ordered, and where each barrier is.
-/

namespace ParallelGzip

open ReorderBuffer List

variable {c : Config} {s t : State}

/-- The call has taken the current chunk, or needs none. -/
def Producer.Shipping : Producer → Prop
  | .ready => False
  | .writing _ => False
  | _ => True

/-- The writer thread has seen the compressed channel closed. -/
def Writer.Ending : Writer → Prop
  | .discarding _ true => True
  | .disconnected => True
  | .finalFlush => True
  | .exited _ => True
  | _ => False

/-- Where the writer thread can be once ordered delivery is over. -/
def Writer.Unordered : Writer → Prop
  | .receiving => True
  | .received _ _ => True
  | .discarding _ _ => True
  | .disconnected => True
  | .exited none => True
  | _ => False

structure Threads (c : Config) (s : State) : Prop where
  seq_eq : s.nextSeq = s.sent.length
  window : s.pending.maxWindow = c.reorderWindow
  current_lt : s.current.length < c.chunk
  current_nil : s.producer.Shipping → s.current = []
  busy_le : s.busy.length ≤ s.alive
  alive_le : s.alive ≤ c.workers
  gone : s.alive < c.workers → s.producer.rawOpen = false ∧ s.raw = []
  ended : s.writer.Ending → s.alive = 0 ∧ s.compressed = []
  stopped_of_abandoned : s.abandoned = true → s.stopped = true
  abandoned_of_discarding : ∀ outs last, s.writer = .discarding outs last → s.abandoned = true
  unordered : s.abandoned = true → s.writer.Unordered ∧ drainFilled s.pending = []
  filled : s.pending.filled = (drainFilled s.pending).length
  delivered : ∀ n, s.writer = .exited (some n) → n = s.pending.nextSeq

lemma chunk_pos (c : Config) : 0 < c.chunk := by
  unfold Config.chunk
  omega

lemma workers_pos (c : Config) : 0 < c.workers := by
  unfold Config.workers
  omega

lemma threads_start (c : Config) : Threads c (start c) := by
  constructor
  case current_lt => exact chunk_pos c
  case alive_le => exact Nat.le_refl _
  case gone => exact fun h => absurd h (Nat.lt_irrefl _)
  all_goals simp [start, withMaxWindow, drainFilled, Writer.Ending]

@[simp] lemma recorded_isSome (s : State) (f : Failure) : (s.recorded f).isSome = true := by
  unfold State.recorded
  cases s.failure <;> rfl

lemma threads_call (h : Threads c s) (hstep : CallStep s t) : Threads c t := by
  cases hstep with
  | write buf hp =>
    exact { h with
      current_nil := fun hs => hs.elim
      gone := fun hlt => absurd (h.gone hlt).1 (by simp [hp, Producer.rawOpen]) }
  | flush hp | finish hp =>
    exact { h with
      current_lt := chunk_pos c
      current_nil := fun _ => rfl
      gone := fun hlt => absurd (h.gone hlt).1 (by simp [hp, Producer.rawOpen]) }

/-- A producer that still dispatches has every worker. -/
theorem Threads.open_of (h : Threads c s) (hopen : s.producer.rawOpen = true) :
    s.alive = c.workers := by
  have hle := h.alive_le
  by_contra hne
  have := (h.gone (by omega)).1
  rw [hopen] at this
  cases this

/-- The producer moves on with its sender still open before. -/
theorem threads_move (h : Threads c s) (hopen : s.producer.rawOpen = true) {p : Producer}
    (hnil : p.Shipping → s.current = []) : Threads c { s with producer := p } :=
  { h with
    current_nil := hnil
    gone := fun hlt => by
      have hall := h.open_of hopen
      change s.alive < c.workers at hlt
      omega }

lemma threads_producer (h : Threads c s) (hstep : ProducerStep c s t) : Threads c t := by
  -- In the middle of a dispatch the current chunk is taken.
  have hmove : ∀ p q : Producer, s.producer = p → p.rawOpen = true → p.Shipping →
      Threads c { s with producer := q } := by
    intro p q hp hopen hship
    exact threads_move h (hp ▸ hopen) fun _ => h.current_nil (hp ▸ hship)
  cases hstep with
  | written hp | flushed _ _ hp | ackDropped _ hp =>
    exact threads_move h (by rw [hp]; rfl) fun hs => hs.elim
  | take rest hp =>
    have hgone := (threads_move h (by rw [hp]; rfl) fun hs => hs.elim :
      Threads c { s with producer := .ready }).gone
    exact { h with
      current_lt := chunk_pos c
      current_nil := fun _ => rfl
      gone := fun hlt => absurd (hgone hlt).1 (by simp [Producer.rawOpen]) }
  | takePart rest hp hrest hfull =>
    have hgone := (threads_move h (by rw [hp]; rfl) fun hs => hs.elim :
      Threads c { s with producer := .ready }).gone
    exact { h with
      current_lt := hfull
      current_nil := fun hs => hs.elim
      gone := fun hlt => absurd (hgone hlt).1 (by simp [Producer.rawOpen]) }
  | refused _ _ hp | admitted _ _ hp | waitStopped _ _ hp | waitDisconnected _ _ hp
  | sendFails _ _ hp =>
    exact hmove _ _ hp rfl trivial
  | takePermit job k hp => exact { hmove _ (.sending job k) hp rfl trivial with }
  | send job k hp =>
    have hsent := hmove _ (k.onSent s.nextSeq) hp rfl trivial
    have hall := h.open_of (by rw [hp]; rfl)
    exact { hsent with
      seq_eq := by simp [h.seq_eq]
      gone := fun hlt => by
        change s.alive < c.workers at hlt
        omega }
  | joined shipped d hp =>
    exact { h with
      current_nil := fun _ => h.current_nil (by rw [hp]; trivial)
      gone := fun hlt => ⟨rfl, (h.gone hlt).2⟩ }

lemma threads_worker (h : Threads c s) (hstep : WorkerStep c s t) : Threads c t := by
  cases hstep with
  | recv seq job rest hraw hidle =>
    have hall : ¬ s.alive < c.workers := by
      intro hlt
      have := (h.gone hlt).2
      rw [hraw] at this
      cases this
    exact { h with
      busy_le := hidle
      gone := fun hlt => absurd hlt hall }
  | exit hraw hopen hidle =>
    exact { h with
      busy_le := by
        change s.busy.length ≤ s.alive - 1
        omega
      alive_le := by
        have := h.alive_le
        change s.alive - 1 ≤ c.workers
        omega
      gone := fun _ => ⟨hopen, hraw⟩
      ended := fun he => by
        obtain ⟨hzero, hq⟩ := h.ended he
        exact ⟨by simp [hzero], hq⟩ }
  | forward _ _ _ hbusy | skip _ _ _ _ hbusy | begin _ _ _ _ hbusy | compressed _ _ _ _ hbusy =>
    exact { h with busy_le := by simpa [hbusy] using h.busy_le }
  | compressFails seq raw before after hbusy =>
    exact { h with
      busy_le := by simpa [hbusy] using h.busy_le
      stopped_of_abandoned := fun _ => recorded_isSome s _ }
  | send seq out before after hbusy hroom hopen =>
    have hbusyLe := h.busy_le
    rw [hbusy] at hbusyLe
    simp only [length_append, length_cons] at hbusyLe
    exact { h with
      busy_le := by
        simp only [length_append]
        omega
      ended := fun he => by
        have := (h.ended he).1
        omega }
  | sendFails seq out before after hbusy d hw =>
    have hzero := (h.ended (by simp [hw, Writer.Ending])).1
    have hbusyLe := h.busy_le
    rw [hbusy, hzero] at hbusyLe
    simp at hbusyLe

lemma drainFilled_emptied (b : Buffer Out) : drainFilled (emptied b) = [] := rfl

/-- The writer thread moves on. -/
lemma Threads.withWriter (h : Threads c s) (w : Writer)
    (hkept : (∀ outs last, w = .discarding outs last → s.abandoned = true) ∧
      ∀ n, w = .exited (some n) → n = s.pending.nextSeq)
    (hended : w.Ending → s.alive = 0 ∧ s.compressed = []) (hun : s.abandoned = true → w.Unordered) :
    Threads c { s with writer := w } :=
  { h with
    ended := hended
    abandoned_of_discarding := hkept.1
    unordered := fun ha => ⟨hun ha, (h.unordered ha).2⟩
    delivered := hkept.2 }

/-- The writer thread gives up what it holds. -/
lemma Threads.abandon (h : Threads c s) {failure : Option Failure} (outs : List Out) (last : Bool)
    (hstop : failure.isSome = true) (hended : last = true → s.alive = 0 ∧ s.compressed = []) :
    Threads c { s with
      writer := .discarding outs last
      pending := emptied s.pending
      failure := failure
      abandoned := true } :=
  { h with
    ended := fun he => hended (by cases last with
      | true => rfl
      | false => exact he.elim)
    stopped_of_abandoned := fun _ => hstop
    abandoned_of_discarding := fun _ _ _ => rfl
    unordered := fun _ => ⟨trivial, rfl⟩
    filled := rfl
    delivered := fun _ hd => by cases hd }

lemma threads_writer (h : Threads c s) (hstep : WriterStep c s t) : Threads c t := by
  -- While delivery is ordered nothing is known of the abandoned state, and the other way round.
  have hordered : ¬ s.writer.Unordered → s.abandoned = false := by
    intro hw
    cases ha : s.abandoned with
    | false => rfl
    | true => exact absurd (h.unordered ha).1 hw
  have hrunning : s.stopped = false → s.abandoned = false := by
    intro hstop
    cases ha : s.abandoned with
    | false => rfl
    | true => rw [h.stopped_of_abandoned ha] at hstop; cases hstop
  cases hstep with
  | receive seq out rest hw hq =>
    exact { h.withWriter (.received seq out) (by simp) (fun he => he.elim) fun _ => trivial with
      ended := fun he => he.elim }
  | disconnect hw hq halive =>
    exact h.withWriter _ (by simp) (fun _ => ⟨halive, hq⟩) fun _ => trivial
  | abandon seq out hw hstop => exact h.abandon _ false hstop (by simp)
  | proceed seq out hw hstop =>
    exact h.withWriter _ (by simp) (fun he => he.elim) (by simp [hrunning hstop])
  | push seq out b hw hpush =>
    have hord := hordered (by rw [hw]; exact id)
    obtain ⟨hperm, hfilled⟩ := drainFilled_tryPush hpush
    have hkeep : b.maxWindow = s.pending.maxWindow := (tryPush_keeps hpush).1
    exact { h with
      window := hkeep.trans h.window
      ended := fun he => he.elim
      abandoned_of_discarding := fun _ _ hd => by cases hd
      unordered := fun ha => by rw [hord] at ha; cases ha
      filled := by
        change b.filled = (drainFilled b).length
        rw [hfilled, hperm.length_eq, length_cons, h.filled]
      delivered := fun _ hd => by cases hd }
  | pushRejected seq out r hw hpush => exact h.abandon _ false (recorded_isSome s _) (by simp)
  | pop out b hw hpop =>
    have hord := hordered (by rw [hw]; exact id)
    obtain ⟨hdrain, hfilled⟩ := drainFilled_popReady hpop
    obtain ⟨-, -, hkeep, -⟩ := popReady_eq_some hpop
    exact { h with
      window := hkeep.trans h.window
      ended := fun he => he.elim
      abandoned_of_discarding := fun _ _ hd => by cases hd
      unordered := fun ha => by rw [hord] at ha; cases ha
      filled := by
        change b.filled = (drainFilled b).length
        rw [hfilled, h.filled, hdrain, length_cons, Nat.add_sub_cancel]
      delivered := fun _ hd => by cases hd }
  | discardBarrier seq outs last hw | discard out outs last hw =>
    have hended : (Writer.discarding outs last).Ending → s.alive = 0 ∧ s.compressed = [] := by
      intro he
      apply h.ended
      rw [hw]
      cases last with
      | true => trivial
      | false => exact he.elim
    exact { h.withWriter (.discarding outs last)
      ⟨fun _ _ _ => h.abandoned_of_discarding _ _ hw, by simp⟩ hended fun _ => trivial with }
  | discarded hw => exact h.withWriter _ (by simp) (fun he => he.elim) fun _ => trivial
  | discardedLast hw =>
    exact h.withWriter _ (by simp) (fun _ => h.ended (by rw [hw]; trivial)) fun _ => trivial
  | endStopped hw hstop =>
    exact h.abandon _ true hstop fun _ => h.ended (by rw [hw]; trivial)
  | stranded hw hstop hfilled =>
    exact h.abandon _ true (recorded_isSome s _) fun _ => h.ended (by rw [hw]; trivial)
  | complete hw hstop hfilled =>
    exact h.withWriter _ (by simp) (fun _ => h.ended (by rw [hw]; trivial))
      (by simp [hrunning hstop])
  | lastFlush hw =>
    have hord := hordered (by rw [hw]; exact id)
    exact { h.withWriter (.exited (some s.pending.nextSeq)) (by simp)
      (fun _ => h.ended (by rw [hw]; trivial)) (by simp [hord]) with }
  | lastFlushFails hw =>
    exact { h.withWriter (.exited none) (by simp)
      (fun _ => h.ended (by rw [hw]; trivial)) fun _ => trivial with
      stopped_of_abandoned := fun _ => recorded_isSome s _ }
  | drained hw hpop =>
    exact h.withWriter _ (by simp) (fun he => he.elim) (by simp [hordered (by rw [hw]; exact id)])
  | popDropped hw | checkBytes b hw | skipBytes b hw | write b hw | checkBarrier seq hw
  | skipFlush seq hw | flush seq hw | answer seq hw | returnPermit hw =>
    have hord := hordered (by rw [hw]; exact id)
    exact { h with
      ended := fun he => he.elim
      abandoned_of_discarding := fun _ _ hd => by cases hd
      unordered := fun ha => by rw [hord] at ha; cases ha
      delivered := fun _ hd => by cases hd }
  | writeFails b hw | flushFails seq hw =>
    have hord := hordered (by rw [hw]; exact id)
    exact { h with
      ended := fun he => he.elim
      stopped_of_abandoned := fun _ => recorded_isSome s _
      abandoned_of_discarding := fun _ _ hd => by cases hd
      unordered := fun ha => by rw [hord] at ha; cases ha
      delivered := fun _ hd => by cases hd }

lemma threads_step (h : Threads c s) (hstep : Step c s t) : Threads c t := by
  cases hstep with
  | call hc => exact threads_call h hc
  | inside hi =>
    cases hi with
    | producer hp => exact threads_producer h hp
    | worker hw => exact threads_worker h hw
    | writer hw => exact threads_writer h hw

/-- The output is what the job of that number gives: its bytes, the barrier itself, or a placeholder
for a chunk that failed after the failure was recorded. -/
def OutOk (c : Config) (sent : List Job) (stopped : Bool) (k : Nat) : Out → Prop
  | .bytes b => ∃ raw, sent[k]? = some (.compress raw) ∧ b = c.gzip raw
  | .barrier a => a = k ∧ sent[k]? = some .barrier
  | .dropped => (∃ raw, sent[k]? = some (.compress raw)) ∧ stopped = true

def StageOk (c : Config) (sent : List Job) (stopped : Bool) (k : Nat) : Stage → Prop
  | .holding job => sent[k]? = some job
  | .compressing raw => sent[k]? = some (.compress raw)
  | .sending out => OutOk c sent stopped k out

/-- What the writer thread has in hand; an item it popped is the one before the buffer's next. -/
def WriterOk (c : Config) (sent : List Job) (stopped : Bool) (next : Nat) : Writer → Prop
  | .received k out => OutOk c sent stopped k out
  | .pushing k out => OutOk c sent stopped k out
  | .popped out => ∃ n, next = n + 1 ∧ OutOk c sent stopped n out
  | .writing b => ∃ n, next = n + 1 ∧ OutOk c sent stopped n (.bytes b)
  | .flushing a => next = a + 1 ∧ sent[a]? = some .barrier
  | .answering a => next = a + 1 ∧ sent[a]? = some .barrier
  | .discarding outs _ => ∀ a, Out.barrier a ∈ outs → sent[a]? = some .barrier
  | _ => True

structure Contents (c : Config) (s : State) : Prop where
  raw : ∀ x ∈ s.raw, s.sent[x.1]? = some x.2
  busy : ∀ x ∈ s.busy, StageOk c s.sent s.stopped x.1 x.2
  compressed : ∀ x ∈ s.compressed, OutOk c s.sent s.stopped x.1 x.2
  held : ∀ k out, held s.pending k = some out → OutOk c s.sent s.stopped k out
  writer : WriterOk c s.sent s.stopped s.pending.nextSeq s.writer

section Growth

variable {sent sent' : List Job} {stopped stopped' : Bool}

/-- A record and further jobs change nothing of what is known. -/
theorem OutOk.mono {k : Nat} {out : Out} (h : OutOk c sent stopped k out)
    (hsent : ∀ (n : Nat) job, sent[n]? = some job → sent'[n]? = some job)
    (hstop : stopped = true → stopped' = true) : OutOk c sent' stopped' k out := by
  cases out with
  | bytes b =>
    obtain ⟨raw, hk, hb⟩ := h
    exact ⟨raw, hsent k _ hk, hb⟩
  | barrier a => exact ⟨h.1, hsent k _ h.2⟩
  | dropped =>
    obtain ⟨⟨raw, hk⟩, hs⟩ := h
    exact ⟨⟨raw, hsent k _ hk⟩, hstop hs⟩

lemma StageOk.mono {k : Nat} {stage : Stage} (h : StageOk c sent stopped k stage)
    (hsent : ∀ (n : Nat) job, sent[n]? = some job → sent'[n]? = some job)
    (hstop : stopped = true → stopped' = true) : StageOk c sent' stopped' k stage := by
  cases stage with
  | holding job => exact hsent k _ h
  | compressing raw => exact hsent k _ h
  | sending out => exact OutOk.mono h hsent hstop

lemma WriterOk.mono {next : Nat} {w : Writer} (h : WriterOk c sent stopped next w)
    (hsent : ∀ (n : Nat) job, sent[n]? = some job → sent'[n]? = some job)
    (hstop : stopped = true → stopped' = true) : WriterOk c sent' stopped' next w := by
  cases w with
  | received | pushing => exact OutOk.mono h hsent hstop
  | popped | writing =>
    obtain ⟨n, hn, hout⟩ := h
    exact ⟨n, hn, hout.mono hsent hstop⟩
  | flushing a | answering a => exact ⟨h.1, hsent a _ h.2⟩
  | discarding outs last => exact fun a ha => hsent a _ (h a ha)
  | receiving | popping | returning | disconnected | finalFlush | exited => exact trivial

end Growth

lemma getElem?_sent_append {sent : List Job} (job : Job) :
    ∀ (n : Nat) j, sent[n]? = some j → (sent ++ [job])[n]? = some j := by
  intro n j h
  have hlt := (List.getElem?_eq_some_iff.mp h).1
  rw [List.getElem?_append_left hlt]
  exact h

lemma Contents.grow (h : Contents c s) {sent' : List Job} {failure' : Option Failure}
    (hsent : ∀ (n : Nat) job, s.sent[n]? = some job → sent'[n]? = some job)
    (hstop : s.stopped = true → failure'.isSome = true) :
    Contents c { s with sent := sent', failure := failure' } where
  raw := fun x hx => hsent _ _ (h.raw x hx)
  busy := fun x hx => (h.busy x hx).mono hsent hstop
  compressed := fun x hx => (h.compressed x hx).mono hsent hstop
  held := fun k out hk => (h.held k out hk).mono hsent hstop
  writer := h.writer.mono hsent hstop

lemma Contents.record (h : Contents c s) (f : Failure) :
    Contents c { s with failure := s.recorded f } :=
  h.grow (fun _ _ hn => hn) fun _ => recorded_isSome s f

/-- One worker's stage changes. -/
theorem Contents.setStage (h : Contents c s) {seq : Nat} {stage stage' : Stage}
    {before after : List (Nat × Stage)} (hbusy : s.busy = before ++ (seq, stage) :: after)
    (hstage : StageOk c s.sent s.stopped seq stage') :
    Contents c { s with busy := before ++ (seq, stage') :: after } :=
  { h with
    busy := fun x hx => by
      rcases mem_append.mp hx with hx | hx
      · exact h.busy x (by simp [hbusy, hx])
      · rcases mem_cons.mp hx with rfl | hx
        · exact hstage
        · exact h.busy x (by simp [hbusy, hx]) }

lemma contents_start (c : Config) : Contents c (start c) where
  raw := by simp [start]
  busy := by simp [start]
  compressed := by simp [start]
  held := by simp [start]
  writer := trivial

lemma contents_call (h : Contents c s) (hstep : CallStep s t) : Contents c t := by
  cases hstep <;> exact { h with }

lemma contents_producer (ht : Threads c s) (h : Contents c s) (hstep : ProducerStep c s t) :
    Contents c t := by
  cases hstep with
  | send job k hp =>
    have hgrow := h.grow (getElem?_sent_append job) (fun hs => hs)
    exact { hgrow with
      raw := fun x hx => by
        rcases mem_append.mp hx with hx | hx
        · exact hgrow.raw x hx
        · rw [mem_singleton.mp hx, ht.seq_eq]
          simp }
  | _ => exact { h with }

lemma contents_worker (h : Contents c s) (hstep : WorkerStep c s t) : Contents c t := by
  cases hstep with
  | recv seq job rest hraw hidle =>
    exact { h with
      raw := fun x hx => h.raw x (by simp [hraw, hx])
      busy := fun x hx => by
        rcases mem_cons.mp hx with rfl | hx
        · exact h.raw (seq, job) (by simp [hraw])
        · exact h.busy x hx }
  | exit hraw hopen hidle => exact { h with }
  | forward seq before after hbusy =>
    have hjob := h.busy (seq, .holding .barrier) (by simp [hbusy])
    exact h.setStage hbusy ⟨rfl, hjob⟩
  | skip seq raw before after hbusy hstop =>
    have hjob := h.busy (seq, .holding (.compress raw)) (by simp [hbusy])
    exact h.setStage hbusy ⟨⟨raw, hjob⟩, hstop⟩
  | begin seq raw before after hbusy hstop =>
    have hjob := h.busy (seq, .holding (.compress raw)) (by simp [hbusy])
    exact h.setStage hbusy hjob
  | compressed seq raw before after hbusy =>
    have hjob := h.busy (seq, .compressing raw) (by simp [hbusy])
    exact h.setStage hbusy ⟨raw, hjob, rfl⟩
  | compressFails seq raw before after hbusy =>
    have hjob := h.busy (seq, .compressing raw) (by simp [hbusy])
    exact (h.record _).setStage hbusy ⟨⟨raw, hjob⟩, recorded_isSome s _⟩
  | send seq out before after hbusy hroom hopen =>
    have hout := h.busy (seq, .sending out) (by simp [hbusy])
    exact { h with
      busy := fun x hx => h.busy x (by
        rw [hbusy]
        rcases mem_append.mp hx with hx | hx
        · exact mem_append_left _ hx
        · exact mem_append_right _ (mem_cons_of_mem _ hx))
      compressed := fun x hx => by
        rcases mem_append.mp hx with hx | hx
        · exact h.compressed x hx
        · rw [mem_singleton.mp hx]
          exact hout }
  | sendFails seq out before after hbusy d hw =>
    exact { h with
      busy := fun x hx => h.busy x (by
        rw [hbusy]
        rcases mem_append.mp hx with hx | hx
        · exact mem_append_left _ hx
        · exact mem_append_right _ (mem_cons_of_mem _ hx)) }

/-- A barrier that is held was sent. -/
theorem Contents.drained_barrier (h : Contents c s) {a : Nat}
    (ha : Out.barrier a ∈ drainFilled s.pending) : s.sent[a]? = some .barrier := by
  obtain ⟨k, hk⟩ := mem_drainFilled.mp ha
  obtain ⟨rfl, hsent⟩ := h.held k _ hk
  exact hsent

/-- The writer thread gives up what it holds, and perhaps one more output. -/
theorem Contents.discard (h : Contents c s) {outs : List Out} {last : Bool}
    (houts : ∀ a, Out.barrier a ∈ outs → s.sent[a]? = some .barrier) : Contents c { s with
        writer := .discarding outs last
        pending := emptied s.pending
        abandoned := true } :=
  { h with
    held := fun k out hk => by
      rw [held_emptied] at hk
      cases hk
    writer := houts }

variable {out : Out}

lemma tryPush_error_item {b : Buffer Out} {seq : Nat} {r : Rejected Out}
    (h : tryPush b seq out = .error r) : r.item = out := by
  unfold tryPush at h
  split at h
  · cases h
    rfl
  · simp only [] at h
    split at h
    · cases h
      rfl
    · split at h
      · cases h
        rfl
      · cases h

lemma OutOk.barrier_sent {sent : List Job} {stopped : Bool} {k a : Nat}
    (h : OutOk c sent stopped k (.barrier a)) : sent[a]? = some .barrier := by
  obtain ⟨rfl, hsent⟩ := h
  exact hsent

lemma contents_writer (h : Contents c s) (hstep : WriterStep c s t) : Contents c t := by
  have hw' := h.writer
  cases hstep with
  | receive seq out rest hw hq =>
    exact { h with
      compressed := fun x hx => h.compressed x (by simp [hq, hx])
      writer := h.compressed (seq, out) (by simp [hq]) }
  | disconnect | drained | popDropped | skipBytes | write | answer | returnPermit | discarded
  | discardedLast | complete | lastFlush =>
    exact { h with writer := trivial }
  | abandon seq out hw hstop =>
    rw [hw] at hw'
    refine h.discard fun a ha => ?_
    rcases mem_append.mp ha with ha | ha
    · exact h.drained_barrier ha
    · rw [← mem_singleton.mp ha] at hw'
      exact @OutOk.barrier_sent c s.sent s.stopped seq a hw'
  | proceed _ _ hw | checkBytes _ hw | flush _ hw =>
    rw [hw] at hw'
    exact { h with writer := hw' }
  | push seq out b hw hpush =>
    rw [hw] at hw'
    have hheld := held_tryPush hpush
    exact { h with
      held := fun k x hk => by
        rw [hheld] at hk
        split at hk
        · next heq =>
          cases hk
          rw [heq]
          exact hw'
        · exact h.held k x hk
      writer := trivial }
  | pushRejected seq out r hw hpush =>
    rw [hw] at hw'
    refine (h.record _).discard fun a ha => ?_
    rcases mem_cons.mp ha with ha | ha
    · rw [tryPush_error_item hpush] at ha
      rw [← ha] at hw'
      exact @OutOk.barrier_sent c s.sent s.stopped seq a hw'
    · exact h.drained_barrier ha
  | pop out b hw hpop =>
    obtain ⟨hhead, hnext, -, hheld⟩ := popReady_eq_some hpop
    exact { h with
      held := fun k x hk => by
        rw [hheld] at hk
        split at hk
        · cases hk
        · exact h.held k x hk
      writer := ⟨s.pending.nextSeq, hnext, h.held _ _ hhead⟩ }
  | writeFails b hw =>
    exact { h.record .write with writer := trivial }
  | checkBarrier _ hw | skipFlush _ hw =>
    rw [hw] at hw'
    obtain ⟨n, hn, rfl, hsent⟩ := hw'
    exact { h with writer := ⟨hn, hsent⟩ }
  | flushFails seq hw =>
    rw [hw] at hw'
    exact { h.record .flush with writer := hw' }
  | discardBarrier _ _ _ hw | discard _ _ _ hw =>
    rw [hw] at hw'
    exact { h with writer := fun a ha => hw' a (mem_cons_of_mem _ ha) }
  | endStopped hw hstop => exact h.discard fun a ha => h.drained_barrier ha
  | stranded hw hstop hfilled =>
    exact (h.record _).discard fun a ha => h.drained_barrier ha
  | lastFlushFails hw =>
    exact { h.record .flush with writer := trivial }

lemma contents_step (ht : Threads c s) (h : Contents c s) (hstep : Step c s t) : Contents c t := by
  cases hstep with
  | call hc => exact contents_call h hc
  | inside hi =>
    cases hi with
    | producer hp => exact contents_producer ht h hp
    | worker hw => exact contents_worker h hw
    | writer hw => exact contents_writer h hw

def Writer.incoming : Writer → List Nat
  | .received k _ => [k]
  | .pushing k _ => [k]
  | _ => []

/-- The permit of a popped item that is not back yet. -/
def Writer.unreturned : Writer → Nat
  | .popped _ => 1
  | .writing _ => 1
  | .flushing _ => 1
  | .answering _ => 1
  | .returning => 1
  | _ => 0

/-- The permit in the producer's hand. -/
def Producer.hand : Producer → Nat
  | .sending _ _ => 1
  | _ => 0

/-- Nothing is ready in the buffer. -/
def Writer.Drained : Writer → Prop
  | .receiving => True
  | .received _ _ => True
  | .pushing _ _ => True
  | .disconnected => True
  | .finalFlush => True
  | .exited _ => True
  | _ => False

/-- The numbers that were sent and have not reached the buffer. -/
def flight (s : State) : List Nat :=
  s.raw.map Prod.fst ++ (s.busy.map Prod.fst ++ (s.compressed.map Prod.fst ++ s.writer.incoming))

structure Order (c : Config) (s : State) : Prop where
  nodup : (flight s).Nodup
  free : ∀ k ∈ flight s, s.pending.nextSeq ≤ k ∧ held s.pending k = none
  complete : ∀ k, s.pending.nextSeq ≤ k → k < s.nextSeq →
    k ∈ flight s ∨ (held s.pending k).isSome = true
  next_le : s.pending.nextSeq ≤ s.nextSeq
  permits : s.permits + s.producer.hand + s.writer.unreturned + s.nextSeq =
    c.reorderWindow + s.pending.nextSeq
  drained : s.writer.Drained → held s.pending s.pending.nextSeq = none

lemma order_start (c : Config) : Order c (start c) where
  nodup := nodup_nil
  free := by simp [flight, start, Writer.incoming]
  complete := by simp [start]
  next_le := Nat.le_refl _
  permits := rfl
  drained := fun _ => held_withMaxWindow _ _

/-- The items move between the places in front of the buffer. -/
theorem Order.move (h : Order c s) (hperm : (flight t).Perm (flight s))
    (hpending : t.pending = s.pending) (hseq : t.nextSeq = s.nextSeq)
    (hpermits : t.permits + t.producer.hand + t.writer.unreturned =
      s.permits + s.producer.hand + s.writer.unreturned)
    (hdrained : t.writer.Drained → held s.pending s.pending.nextSeq = none) : Order c t where
  nodup := hperm.nodup_iff.mpr h.nodup
  free := by
    intro k hk
    rw [hpending]
    exact h.free k (hperm.mem_iff.mp hk)
  complete := by
    intro k hlo hhi
    rw [hpending] at hlo ⊢
    rw [hseq] at hhi
    rw [hperm.mem_iff]
    exact h.complete k hlo hhi
  next_le := by
    rw [hpending, hseq]
    exact h.next_le
  permits := by
    rw [hpermits, hseq, hpending]
    exact h.permits
  drained := by
    rw [hpending]
    exact hdrained

@[simp] lemma hand_onError (e : Failure) (k : Cont) : (k.onError e).hand = 0 := by
  cases k <;> rfl

@[simp] lemma hand_onSent (seq : Nat) (k : Cont) : (k.onSent seq).hand = 0 := by
  cases k <;> rfl

/-- The producer moves on with no permit taken or used. -/
theorem Order.withHand (h : Order c s) {p : Producer} (hhand : p.hand = s.producer.hand) :
    Order c { s with producer := p } :=
  { h with permits := by simpa [hhand] using h.permits }

lemma order_call (h : Order c s) (hstep : CallStep s t) : Order c t := by
  have hflush : ∀ k, s.producer = .ready → Order c (s.flushCurrent k) := by
    intro k hp
    have hhand : (if s.current = [] then k.onSent s.nextSeq
        else .dispatching (.compress s.current) k : Producer).hand = s.producer.hand := by
      rw [hp]
      split
      · exact hand_onSent _ _
      · rfl
    exact { h.withHand hhand with }
  cases hstep with
  | write buf hp =>
    have hhand : (Producer.writing buf).hand = s.producer.hand := by rw [hp]; rfl
    exact { h.withHand hhand with }
  | flush hp => exact hflush _ hp
  | finish hp => exact hflush _ hp

/-- A number a worker or the writer thread can name was sent. -/
theorem OutOk.lt {sent : List Job} {stopped : Bool} {k : Nat} (h : OutOk c sent stopped k out) :
    k < sent.length := by
  have hlt : ∀ job, sent[k]? = some job → k < sent.length :=
    fun job hk => (List.getElem?_eq_some_iff.mp hk).1
  cases out with
  | bytes b =>
    obtain ⟨raw, hk, -⟩ := h
    exact hlt _ hk
  | barrier a => exact hlt _ h.2
  | dropped =>
    obtain ⟨⟨raw, hk⟩, -⟩ := h
    exact hlt _ hk

lemma held_lt (hthreads : Threads c s) (hcontents : Contents c s) {k : Nat}
    (h : held s.pending k = some out) : k < s.nextSeq := by
  rw [hthreads.seq_eq]
  exact (hcontents.held k out h).lt

lemma flight_lt (hthreads : Threads c s) (hcontents : Contents c s) :
    ∀ k ∈ flight s, k < s.nextSeq := by
  have hlt : ∀ k job, s.sent[k]? = some job → k < s.sent.length :=
    fun k job hk => (List.getElem?_eq_some_iff.mp hk).1
  intro k hk
  rw [hthreads.seq_eq]
  simp only [flight, mem_append, mem_map] at hk
  rcases hk with ⟨x, hx, rfl⟩ | ⟨x, hx, rfl⟩ | ⟨x, hx, rfl⟩ | hk
  · exact hlt _ _ (hcontents.raw x hx)
  · have hstage := hcontents.busy x hx
    obtain ⟨n, stage⟩ := x
    cases stage with
    | holding job => exact hlt n _ hstage
    | compressing raw => exact hlt n _ hstage
    | sending out => exact OutOk.lt hstage
  · exact (hcontents.compressed x hx).lt
  · have hw := hcontents.writer
    cases hwriter : s.writer with
    | received | pushing =>
      rw [hwriter] at hw hk
      rw [mem_singleton.mp hk]
      exact OutOk.lt hw
    | _ =>
      rw [hwriter] at hk
      cases hk

lemma order_producer (hthreads : Threads c s) (hcontents : Contents c s) (h : Order c s)
    (hstep : ProducerStep c s t) : Order c t := by
  have hlt : ∀ k ∈ flight s, k < s.nextSeq := flight_lt hthreads hcontents
  have hpermits := h.permits
  cases hstep with
  | send job k hp hroom halive =>
    have hflight : (flight { s with
        producer := k.onSent s.nextSeq
        raw := s.raw ++ [(s.nextSeq, job)]
        nextSeq := s.nextSeq + 1
        sent := s.sent ++ [job] }).Perm (s.nextSeq :: flight s) := by
      simp only [flight, map_append, map_cons, map_nil, append_assoc, cons_append, nil_append]
      exact perm_middle
    rw [hp] at hpermits
    refine ⟨?_, ?_, ?_, ?_, ?_, h.drained⟩
    · rw [hflight.nodup_iff, nodup_cons]
      exact ⟨fun hmem => absurd (hlt _ hmem) (Nat.lt_irrefl _), h.nodup⟩
    · intro n hn
      rcases mem_cons.mp (hflight.mem_iff.mp hn) with rfl | hn
      · refine ⟨h.next_le, ?_⟩
        cases hheld : held s.pending s.nextSeq with
        | none => rfl
        | some out => exact absurd (held_lt hthreads hcontents hheld) (Nat.lt_irrefl _)
      · exact h.free n hn
    · intro n hlo hhi
      rw [hflight.mem_iff]
      by_cases hn : n = s.nextSeq
      · exact .inl (by simp [hn])
      · have hhi' : n < s.nextSeq := by
          change n < s.nextSeq + 1 at hhi
          omega
        exact (h.complete n hlo hhi').imp_left (mem_cons_of_mem _)
    · have := h.next_le
      change s.pending.nextSeq ≤ s.nextSeq + 1
      omega
    · simp only [hand_onSent]
      simp only [Producer.hand] at hpermits
      omega
  | takePermit job k hp hpos =>
    refine h.move (.refl _) rfl rfl ?_ h.drained
    simp only [hp, Producer.hand]
    omega
  | sendFails job k hp halive =>
    have hopen := hthreads.open_of (by rw [hp]; rfl)
    have := workers_pos c
    omega
  | written hp | admitted _ _ hp | flushed _ _ hp | ackDropped _ hp | joined _ _ hp =>
    exact h.withHand (by rw [hp]; rfl)
  | take _ hp | takePart _ hp => exact { h.withHand (by rw [hp]; rfl) with }
  | refused _ _ hp | waitStopped _ _ hp | waitDisconnected _ _ hp =>
    exact h.withHand (by rw [hp, hand_onError]; rfl)

/-- A change of stage moves no number. -/
theorem flight_setStage {seq : Nat} {stage stage' : Stage} {before after : List (Nat × Stage)}
    (hbusy : s.busy = before ++ (seq, stage) :: after) :
    flight { s with busy := before ++ (seq, stage') :: after } = flight s := by
  simp [flight, hbusy]

lemma order_worker (hthreads : Threads c s) (h : Order c s) (hstep : WorkerStep c s t) :
    Order c t := by
  cases hstep with
  | recv seq job rest hraw hidle =>
    refine h.move ?_ rfl rfl rfl h.drained
    simp only [flight, hraw, map_cons, cons_append]
    exact perm_middle
  | exit hraw hopen hidle => exact { h with }
  | forward _ _ _ hbusy | skip _ _ _ _ hbusy | begin _ _ _ _ hbusy | compressed _ _ _ _ hbusy =>
    exact h.move (.of_eq (flight_setStage hbusy)) rfl rfl rfl h.drained
  | compressFails seq raw before after hbusy =>
    exact h.move (.of_eq (@flight_setStage s seq (.compressing raw) (.sending .dropped) before
      after hbusy)) rfl rfl rfl h.drained
  | send seq out before after hbusy hroom hopen =>
    refine h.move ?_ rfl rfl rfl h.drained
    simp only [flight, hbusy, map_append, map_cons, map_nil, append_assoc, cons_append, nil_append]
    refine List.Perm.append_left _ (List.Perm.append_left _ ?_)
    exact (List.Perm.append_left _ perm_middle).trans perm_middle
  | sendFails seq out before after hbusy d hw =>
    have hzero := (hthreads.ended (by rw [hw]; trivial)).1
    have hbusyLe := hthreads.busy_le
    rw [hbusy, hzero] at hbusyLe
    simp at hbusyLe

/-- An item goes into the buffer. -/
theorem order_push (h : Order c s) {seq : Nat} {b : Buffer Out} (hw : s.writer = .pushing seq out)
    (hpush : tryPush s.pending seq out = .ok b) :
    Order c { s with writer := .popping, pending := b } := by
  obtain ⟨-, hnext⟩ := tryPush_keeps hpush
  have hheld := held_tryPush hpush
  have hflight : flight s = flight { s with writer := .popping, pending := b } ++ [seq] := by
    simp [flight, hw, Writer.incoming]
  have hnodup := h.nodup
  rw [hflight, nodup_append] at hnodup
  refine ⟨hnodup.1, ?_, ?_, ?_, ?_, fun hd => hd.elim⟩
  · intro k hk
    have hne : k ≠ seq := fun heq => hnodup.2.2 k hk seq (mem_singleton_self _) heq
    obtain ⟨hlo, hfree⟩ := h.free k (by rw [hflight]; exact mem_append_left _ hk)
    change b.nextSeq ≤ k ∧ held b k = none
    rw [hnext, hheld, if_neg hne]
    exact ⟨hlo, hfree⟩
  · intro k hlo hhi
    change b.nextSeq ≤ k at hlo
    change _ ∨ (held b k).isSome = true
    rw [hnext] at hlo
    rw [hheld]
    by_cases hk : k = seq
    · exact .inr (by simp [hk])
    · rw [if_neg hk]
      rcases h.complete k hlo hhi with hmem | hsome
      · rw [hflight, mem_append, mem_singleton] at hmem
        exact .inl (hmem.resolve_right hk)
      · exact .inr hsome
  · change b.nextSeq ≤ s.nextSeq
    rw [hnext]
    exact h.next_le
  · have := h.permits
    rw [hw] at this
    change s.permits + s.producer.hand + 0 + s.nextSeq = c.reorderWindow + b.nextSeq
    rw [hnext]
    exact this

/-- The next item comes out of the buffer. -/
theorem order_pop (hthreads : Threads c s) (hcontents : Contents c s) (h : Order c s)
    {b : Buffer Out} (hw : s.writer = .popping) (hpop : popReady s.pending = some (out, b)) :
    Order c { s with writer := .popped out, pending := b } := by
  obtain ⟨hhead, hnext, -, hheld⟩ := popReady_eq_some hpop
  have hflight : flight { s with writer := .popped out, pending := b } = flight s := by
    simp [flight, hw, Writer.incoming]
  refine ⟨hflight ▸ h.nodup, ?_, ?_, ?_, ?_, fun hd => hd.elim⟩
  · intro k hk
    rw [hflight] at hk
    obtain ⟨hlo, hfree⟩ := h.free k hk
    have hne : k ≠ s.pending.nextSeq := by
      rintro rfl
      rw [hfree] at hhead
      cases hhead
    change b.nextSeq ≤ k ∧ held b k = none
    rw [hnext, hheld, if_neg hne]
    exact ⟨by omega, hfree⟩
  · intro k hlo hhi
    change b.nextSeq ≤ k at hlo
    change _ ∨ (held b k).isSome = true
    rw [hnext] at hlo
    rw [hflight, hheld, if_neg (by omega)]
    exact h.complete k (by omega) hhi
  · have := held_lt hthreads hcontents hhead
    change b.nextSeq ≤ s.nextSeq
    omega
  · have := h.permits
    rw [hw] at this
    change s.permits + s.producer.hand + 1 + s.nextSeq = c.reorderWindow + b.nextSeq
    rw [hnext]
    change s.permits + s.producer.hand + 0 + s.nextSeq = _ at this
    omega

lemma order_writer (hthreads : Threads c s) (hcontents : Contents c s) (h : Order c s)
    (hstep : WriterStep c s t) (hpost : t.abandoned = false) : Order c t := by
  have hflight : ∀ w : Writer, w.incoming = s.writer.incoming →
      flight { s with writer := w } = flight s := by
    intro w hw
    simp [flight, hw]
  -- The writer thread moves on with nothing taken from a channel.
  have hmove : ∀ w : Writer, w.incoming = s.writer.incoming →
      w.unreturned = s.writer.unreturned →
        (w.Drained → held s.pending s.pending.nextSeq = none) → Order c { s with writer := w } := by
    intro w hin hun hd
    exact h.move (.of_eq (hflight w hin)) rfl rfl (by simp [hun]) hd
  cases hstep with
  | receive seq out rest hw hq =>
    refine h.move ?_ rfl rfl (by simp [hw, Writer.unreturned]) fun _ => h.drained (by rw [hw]; trivial)
    simp only [flight, hw, hq, Writer.incoming, map_cons, append_nil]
    refine List.Perm.append_left _ (List.Perm.append_left _ ?_)
    exact perm_append_singleton _ _
  | disconnect hw | proceed _ _ hw | complete hw =>
    exact hmove _ (by rw [hw]; rfl) (by rw [hw]; rfl) fun _ => h.drained (by rw [hw]; trivial)
  | abandon | pushRejected | endStopped | stranded => cases hpost
  | push seq out b hw hpush => exact order_push h hw hpush
  | pop out b hw hpop => exact order_pop hthreads hcontents h hw hpop
  | drained hw hpop =>
    exact hmove _ (by rw [hw]; rfl) (by rw [hw]; rfl) fun _ => popReady_eq_none.mp hpop
  | popDropped hw | checkBytes _ hw | skipBytes _ hw | skipFlush _ hw =>
    exact hmove _ (by rw [hw]; rfl) (by rw [hw]; rfl) fun hd => hd.elim
  | write b hw => exact { hmove .returning (by rw [hw]; rfl) (by rw [hw]; rfl) fun hd => hd.elim with }
  | writeFails _ hw | answer _ hw =>
    exact { hmove .returning (by rw [hw]; rfl) (by rw [hw]; rfl) fun hd => hd.elim with }
  | checkBarrier seq hw hstop =>
    exact hmove _ (by rw [hw]; rfl) (by rw [hw]; rfl) fun hd => hd.elim
  | flush seq hw | flushFails seq hw =>
    exact { hmove (.answering seq) (by rw [hw]; rfl) (by rw [hw]; rfl) fun hd => hd.elim with }
  | returnPermit hw hroom =>
    refine h.move ?_ rfl rfl ?_ fun hd => hd.elim
    · exact .of_eq (by simp [flight, hw, Writer.incoming])
    · simp only [hw, Writer.unreturned]
      omega
  | discardBarrier _ _ _ hw | discard _ _ _ hw | discarded hw | discardedLast hw =>
    rw [hthreads.abandoned_of_discarding _ _ hw] at hpost
    cases hpost
  | lastFlush hw =>
    exact { hmove (.exited (some s.pending.nextSeq)) (by rw [hw]; rfl) (by rw [hw]; rfl)
      fun _ => h.drained (by rw [hw]; trivial) with }
  | lastFlushFails hw =>
    exact { hmove (.exited none) (by rw [hw]; rfl) (by rw [hw]; rfl)
      fun _ => h.drained (by rw [hw]; trivial) with }

/-- Delivery is abandoned for good. -/
theorem abandoned_mono (hstep : Step c s t) (hpost : t.abandoned = false) :
    s.abandoned = false := by
  cases hstep with
  | call hc => cases hc <;> exact hpost
  | inside hi =>
    cases hi with
    | producer hp => cases hp <;> exact hpost
    | worker hw => cases hw <;> exact hpost
    | writer hw => cases hw <;> first | exact hpost | cases hpost

lemma order_step (hthreads : Threads c s) (hcontents : Contents c s)
    (h : s.abandoned = false → Order c s) (hstep : Step c s t) :
    t.abandoned = false → Order c t := by
  intro hpost
  have horder := h (abandoned_mono hstep hpost)
  cases hstep with
  | call hc => exact order_call horder hc
  | inside hi =>
    cases hi with
    | producer hp => exact order_producer hthreads hcontents horder hp
    | worker hw => exact order_worker hthreads horder hw
    | writer hw => exact order_writer hthreads hcontents horder hw hpost

/-- The buffer refuses no push. -/
theorem push_accepted (hthreads : Threads c s) (hcontents : Contents c s) (h : Order c s)
    {seq : Nat} (hw : s.writer = .pushing seq out) : ∃ b, tryPush s.pending seq out = .ok b := by
  have hmem : seq ∈ flight s := by simp [flight, hw, Writer.incoming]
  obtain ⟨hlo, hfree⟩ := h.free seq hmem
  have hlt := flight_lt hthreads hcontents seq hmem
  have hpermits := h.permits
  obtain ⟨b, hok, -⟩ := @tryPush_ok Out s.pending seq out hlo (by rw [hthreads.window]; omega) hfree
  exact ⟨b, hok⟩

end ParallelGzip
