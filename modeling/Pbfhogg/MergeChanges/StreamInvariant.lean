import Pbfhogg.Lib.Indexed
import Pbfhogg.MergeChanges.Stream

/-!
# Invariants of the streaming merge

What holds in every reachable state: each input's counters, where its batches are, what the ledger
holds, which slots are taken and what the sinks contain.
-/

namespace MergeStream

open Indexed List Function

variable {c : Config} {s t : State}

/-- The batches that have credit or had it. -/
def Reader.sealed (len : Nat) : Reader → Nat
  | .idle => 0
  | .reading k => k
  | .acquired k => k + 1
  | .done => len

/-- The batches whose job was spawned. -/
def Reader.spawned (len : Nat) : Reader → Nat
  | .idle => 0
  | .reading k => k
  | .acquired k => k
  | .done => len

variable (bs : List Batch)

def Batch.sumChanges : Nat := (bs.map Batch.changes).sum

def Batch.sumCredit : Nat := (bs.map Batch.credit).sum

structure InputOk (c : Config) (i : Nat) (r : Reader) (st : InputState) : Prop where
  sealed_le : r.sealed (c.batches i).length ≤ (c.batches i).length
  next_le : st.next ≤ r.spawned (c.batches i).length
  nodup : (st.waiting.map Prod.fst).Nodup
  waiting : ∀ x ∈ st.waiting, st.next ≤ x.1 ∧ x.1 < r.spawned (c.batches i).length ∧
    (c.batches i)[x.1]? = some x.2
  count : ∀ n, st.batches = some n → n = (c.batches i).length ∧ r = .done
  changes : st.changes = Batch.sumChanges ((c.batches i).take st.next)
  complete : st.complete = true → st.batches = some st.next

lemma Reader.spawned_le_sealed (len : Nat) (r : Reader) : r.spawned len ≤ r.sealed len := by
  cases r <;> simp [Reader.spawned, Reader.sealed]

lemma inputOk_new (c : Config) (i : Nat) : InputOk c i .idle (.new i) where
  sealed_le := Nat.zero_le _
  next_le := Nat.zero_le _
  nodup := nodup_nil
  waiting := fun x hx => by cases hx
  count := fun n hn => by cases hn
  changes := rfl
  complete := fun h => by cases h

variable {i : Nat} {r : Reader} {st : InputState} {b : Batch} {rest : List Msg}

/-- An input that is complete has every member written and none waiting. -/
theorem InputOk.all (h : InputOk c i r st) (hdone : st.batches = some st.next) :
    st.next = (c.batches i).length ∧ r = .done :=
  h.count _ hdone

/-- The reader moves on. -/
theorem InputOk.withReader {r' : Reader} (h : InputOk c i r st) (hr : r ≠ .done)
    (hsealed : r'.sealed (c.batches i).length ≤ (c.batches i).length)
    (hspawned : r.spawned (c.batches i).length ≤ r'.spawned (c.batches i).length) :
    InputOk c i r' st where
  sealed_le := hsealed
  next_le := Nat.le_trans h.next_le hspawned
  nodup := h.nodup
  waiting := by
    intro x hx
    obtain ⟨hlo, hhi, hb⟩ := h.waiting x hx
    exact ⟨hlo, Nat.lt_of_lt_of_le hhi hspawned, hb⟩
  count := fun n hn => absurd (h.count n hn).2 hr
  changes := h.changes
  complete := h.complete

/-- A member comes in. -/
theorem InputOk.receive {seq : Nat} (h : InputOk c i r st) (hlo : st.next ≤ seq)
    (hhi : seq < r.spawned (c.batches i).length) (hb : (c.batches i)[seq]? = some b)
    (hfresh : ∀ x ∈ st.waiting, x.1 ≠ seq) :
    InputOk c i r { st with waiting := (seq, b) :: st.waiting } :=
  { h with
    nodup := by
      simp only [map_cons, nodup_cons]
      refine ⟨fun hmem => ?_, h.nodup⟩
      obtain ⟨x, hx, hseq⟩ := mem_map.mp hmem
      exact hfresh x hx hseq
    waiting := by
      intro x hx
      rcases mem_cons.mp hx with rfl | hx
      · exact ⟨hlo, hhi, hb⟩
      · exact h.waiting x hx }

/-- The member that is next in order is taken out. -/
theorem InputOk.write {before after : List (Nat × Batch)} (h : InputOk c i r st)
    (hwaiting : st.waiting = before ++ (st.next, b) :: after) (sink : Sink) :
    InputOk c i r
      { st with
        waiting := before ++ after
        next := st.next + 1
        changes := st.changes + b.changes
        sink := sink } := by
  obtain ⟨-, hhi, hb⟩ := h.waiting (st.next, b) (by simp [hwaiting])
  have hnodup : ((st.next, b) :: (before ++ after)).map Prod.fst |>.Nodup := by
    have hperm : st.waiting.Perm ((st.next, b) :: (before ++ after)) := by
      rw [hwaiting]
      exact perm_middle
    exact (hperm.map _).nodup_iff.mp h.nodup
  simp only [map_cons, nodup_cons] at hnodup
  refine { h with next_le := hhi, nodup := hnodup.2, waiting := ?_, changes := ?_, complete := ?_ }
  · intro x hx
    have hmem : x ∈ st.waiting := by
      rw [hwaiting]
      rcases mem_append.mp hx with hx | hx
      · exact mem_append_left _ hx
      · exact mem_append_right _ (mem_cons_of_mem _ hx)
    obtain ⟨hlo, hhi, hb⟩ := h.waiting x hmem
    have hne : x.1 ≠ st.next := fun heq => hnodup.1 (heq ▸ mem_map_of_mem hx)
    exact ⟨by simp only; omega, hhi, hb⟩
  · change st.changes + b.changes = Batch.sumChanges ((c.batches i).take (st.next + 1))
    rw [h.changes, take_add_one, hb]
    simp [Batch.sumChanges]
  · -- A complete input has no member outstanding.
    intro hcomplete
    obtain ⟨hnext, hr⟩ := h.all (h.complete hcomplete)
    rw [hr] at hhi
    exact absurd hhi (by simp only [Reader.spawned]; omega)

/-- The reader's report comes in. -/
theorem InputOk.report (h : InputOk c i .done st) (hnone : st.batches = none) :
    InputOk c i .done { st with batches := some (c.batches i).length } :=
  { h with
    count := fun n hn => ⟨(Option.some.inj hn).symm, rfl⟩
    complete := fun hc => by
      have := h.complete hc
      rw [hnone] at this
      cases this }

lemma InputOk.close (h : InputOk c i r st) (hdone : st.batches = some st.next) (sink : Sink) :
    InputOk c i r { st with complete := true, sink := sink } :=
  { h with complete := fun _ => hdone }

lemma InputOk.withSink (h : InputOk c i r st) (sink : Sink) :
    InputOk c i r { st with sink := sink } :=
  { h with }

/-- Where a member goes from a sink. -/
def Sink.add (member : Bytes) : Sink → Sink
  | .output => .output
  | .pending => .spill member
  | .spill content => .spill (content ++ member)
  | .closed content => .closed content

def Sink.content : Sink → Bytes
  | .spill content => content
  | .closed content => content
  | _ => []

/-- The sink of an input that is complete. -/
def Sink.shut : Sink → Sink
  | .spill content => .closed content
  | sink => sink

/-- The input with its next member written. -/
def InputState.wrote (st : InputState) (waiting : List (Nat × Batch)) (b : Batch) : InputState :=
  { st with
    waiting := waiting
    next := st.next + 1
    changes := st.changes + b.changes
    sink := st.sink.add b.member }

def InputState.closed (st : InputState) (isHead : Bool) : InputState :=
  { st with complete := true, sink := if isHead then st.sink else st.sink.shut }

/-- What the coordinator does as long as the protocol is kept. -/
inductive Move (c : Config) (s : State) : State → Prop where
  | spawn (hphase : s.phase = .starting) (hlt : s.started < min c.readers c.count) :
      Move c s s.spawnReader
  | spawned (hphase : s.phase = .starting) (hge : ¬ s.started < min c.readers c.count) :
      Move c s { s with phase := .looping }
  | advance (hphase : s.phase = .looping) (hnext : s.head + 1 < c.count)
      (hdone : (s.states s.head).batches = some (s.states s.head).next) :
      Move c s
        { s.setInput (s.head + 1) { s.states (s.head + 1) with sink := .output } with
          head := s.head + 1
          total := s.total + (s.states (s.head + 1)).changes
          out := s.out ++ (s.states (s.head + 1)).sink.content }
  | advanceLast (hphase : s.phase = .looping) (hlast : s.head + 1 = c.count)
      (hdone : (s.states s.head).batches = some (s.states s.head).next) :
      Move c s { s with head := s.head + 1 }
  | finish (hphase : s.phase = .looping) (hhead : ¬ s.head < c.count) :
      Move c s { s with phase := .finished s.total }
  | recvMember (input seq : Nat) (b : Batch) (rest : List Msg) (hphase : s.phase = .looping)
      (hhead : s.head < c.count)
      (hdone : (s.states s.head).batches ≠ some (s.states s.head).next)
      (hqueue : s.queue = .member input seq b :: rest) :
      Move c s
        { s.setInput input
            { s.states input with waiting := (seq, b) :: (s.states input).waiting } with
          queue := rest
          phase := .draining input }
  | recvDone (input batches : Nat) (rest : List Msg) (hphase : s.phase = .looping)
      (hhead : s.head < c.count)
      (hdone : (s.states s.head).batches ≠ some (s.states s.head).next)
      (hqueue : s.queue = .readerDone input batches :: rest) :
      Move c s
        { s.setInput input { s.states input with batches := some batches } with
          queue := rest
          phase := .closing input }
  | drain (input : Nat) (b : Batch) (before after : List (Nat × Batch))
      (hphase : s.phase = .draining input)
      (hwaiting : (s.states input).waiting = before ++ ((s.states input).next, b) :: after) :
      Move c s
        { s.setInput input ((s.states input).wrote (before ++ after) b) with
          used := s.used - b.credit
          writes := s.writes ++ [(input, (s.states input).next)]
          out := if (s.states input).sink = .output then s.out ++ b.member else s.out
          total := if (s.states input).sink = .output then s.total + b.changes else s.total }
  | drained (input : Nat) (hphase : s.phase = .draining input)
      (hwaiting : ∀ x ∈ (s.states input).waiting, x.1 ≠ (s.states input).next) :
      Move c s { s with phase := .closing input }
  | keep (input : Nat) (hphase : s.phase = .closing input)
      (hopen : (s.states input).complete = true ∨
        (s.states input).batches ≠ some (s.states input).next) :
      Move c s { s with phase := .looping }
  | close (input : Nat) (hphase : s.phase = .closing input)
      (hopen : (s.states input).complete = false)
      (hdone : (s.states input).batches = some (s.states input).next)
      (hall : ¬ s.started < c.count) :
      Move c s
        { s.setInput input ((s.states input).closed (input == s.head)) with phase := .looping }
  | closeSpawn (input : Nat) (hphase : s.phase = .closing input)
      (hopen : (s.states input).complete = false)
      (hdone : (s.states input).batches = some (s.states input).next)
      (hmore : s.started < c.count) :
      Move c s
        { (s.setInput input ((s.states input).closed (input == s.head))).spawnReader with
          phase := .looping }

lemma writeMember_eq {input : Nat} {waiting : List (Nat × Batch)}
    (hclosed : ∀ content, (s.states input).sink ≠ .closed content)
    (hscratch : (s.states input).sink = .pending → c.scratch = true) :
    writeMember c s input waiting b =
      { s.setInput input ((s.states input).wrote waiting b) with
        used := s.used - b.credit
        writes := s.writes ++ [(input, (s.states input).next)]
        out := if (s.states input).sink = .output then s.out ++ b.member else s.out
        total := if (s.states input).sink = .output then s.total + b.changes else s.total } := by
  cases hsink : (s.states input).sink with
  | output | spill => simp [writeMember, hsink, InputState.wrote, Sink.add, State.setInput]
  | pending =>
    simp [writeMember, hsink, InputState.wrote, Sink.add, State.setInput, hscratch hsink]
  | closed content => exact absurd hsink (hclosed content)

/-- With a scratch directory, or nothing spilled, the next input is promoted. -/
theorem advanceHead_eq (hnext : s.head + 1 < c.count)
    (hscratch : c.scratch = true ∨ (s.states (s.head + 1)).sink = .pending) :
    advanceHead c s =
      { s.setInput (s.head + 1) { s.states (s.head + 1) with sink := .output } with
        head := s.head + 1
        total := s.total + (s.states (s.head + 1)).changes
        out := s.out ++ (s.states (s.head + 1)).sink.content } := by
  cases hsink : (s.states (s.head + 1)).sink with
  | output | pending => simp [advanceHead, hsink, hnext, Sink.content, State.setInput]
  | spill | closed =>
    have htrue : c.scratch = true := hscratch.resolve_right (by simp [hsink])
    simp [advanceHead, hsink, hnext, Sink.content, State.setInput, htrue]

def Msg.keys : Msg → List (Nat × Nat)
  | .member input seq _ => [(input, seq)]
  | .readerDone _ _ => []

def Msg.reports : Msg → List Nat
  | .member _ _ _ => []
  | .readerDone input _ => [input]

/-- The batches whose job was spawned and whose member has not come in. -/
def flight (s : State) : List (Nat × Nat) :=
  s.jobs.map (fun x => (x.1, x.2.1)) ++ s.queue.flatMap Msg.keys

/-- The inputs whose reader has reported, with the report still on its way. -/
def reports (s : State) : List Nat := s.queue.flatMap Msg.reports

def spawned (c : Config) (s : State) (i : Nat) : Nat :=
  (s.readers i).spawned (c.batches i).length

def sealed (c : Config) (s : State) (i : Nat) : Nat := (s.readers i).sealed (c.batches i).length

structure Flight (c : Config) (s : State) : Prop where
  inputs : ∀ i, InputOk c i (s.readers i) (s.states i)
  nodup : (flight s).Nodup
  range : ∀ i k, (i, k) ∈ flight s → (s.states i).next ≤ k ∧ k < spawned c s i ∧
    ∀ x ∈ (s.states i).waiting, x.1 ≠ k
  complete : ∀ i k, (s.states i).next ≤ k → k < spawned c s i →
    (i, k) ∈ flight s ∨ ∃ b, (k, b) ∈ (s.states i).waiting
  jobs : ∀ x ∈ s.jobs, (c.batches x.1)[x.2.1]? = some x.2.2
  members : ∀ i k b, Msg.member i k b ∈ s.queue → (c.batches i)[k]? = some b
  reported : (reports s).Nodup
  done_iff : ∀ i, s.readers i = .done ↔ i ∈ reports s ∨ (s.states i).batches ≠ none
  unread : ∀ i ∈ reports s, (s.states i).batches = none
  counts : ∀ i n, Msg.readerDone i n ∈ s.queue → n = (c.batches i).length

lemma flight_start (c : Config) : Flight c start where
  inputs := inputOk_new c
  nodup := nodup_nil
  range := fun i k hk => by cases hk
  complete := fun i k _ hk => absurd hk (Nat.not_lt_zero k)
  jobs := fun x hx => by cases hx
  members := fun i k b h => by cases h
  reported := nodup_nil
  done_iff := by simp [start, reports, InputState.new]
  unread := fun i hi => by cases hi
  counts := fun i n h => by cases h

lemma Flight.inputs_setReader (h : Flight c s) (hok : InputOk c i r (s.states i)) :
    ∀ j, InputOk c j (update s.readers i r j) (s.states j) :=
  @forall_update _ _ _ _ (fun j r => InputOk c j r (s.states j)) h.inputs hok

/-- The inputs with one of them changed. -/
theorem Flight.inputs_setInput (h : Flight c s) (hok : InputOk c i (s.readers i) st) :
    ∀ j, InputOk c j (s.readers j) (update s.states i st j) :=
  @forall_update _ _ _ _ (fun j st => InputOk c j (s.readers j) st) h.inputs hok

/-- A reader that goes on has reported nothing. -/
theorem Flight.done_iff_setReader (h : Flight c s) (hbefore : s.readers i ≠ .done)
    (hafter : r ≠ .done) (j : Nat) :
    update s.readers i r j = .done ↔ j ∈ reports s ∨ (s.states j).batches ≠ none := by
  rw [← h.done_iff j]
  by_cases hj : j = i
  · subst hj
    simp [hbefore, hafter]
  · rw [update_of_ne hj]

lemma flight_reader (h : Flight c s) (hstep : ReaderStep c s t) : Flight c t := by
  cases hstep with
  | acquire i k b hreader hbatch hroom =>
    have hlt := (List.getElem?_eq_some_iff.mp hbatch).1
    have hsame : ∀ j, (Function.update s.readers i (.acquired k) j).spawned (c.batches j).length =
        spawned c s j := by
      intro j
      by_cases hj : j = i
      · subst hj
        simp [spawned, hreader, Reader.spawned]
      · rw [update_of_ne hj]
        rfl
    refine { h with inputs := ?_, range := ?_, complete := ?_, done_iff := ?_ }
    · exact h.inputs_setReader ((h.inputs i).withReader (by simp [hreader]) hlt (by simp [hreader,
        Reader.spawned]))
    · intro j n hn
      have := h.range j n hn
      rw [← hsame j] at this
      exact this
    · intro j n hlo hhi
      exact h.complete j n hlo (by rw [← hsame j]; exact hhi)
    · exact h.done_iff_setReader (by simp [hreader]) (by simp)
  | spawn i k b hreader hbatch =>
    have hlt := (List.getElem?_eq_some_iff.mp hbatch).1
    have hsame : ∀ j, j ≠ i →
        (update s.readers i (.reading (k + 1)) j).spawned (c.batches j).length =
          spawned c s j := by
      intro j hj
      rw [update_of_ne hj]
      rfl
    have hself : (update s.readers i (.reading (k + 1)) i).spawned (c.batches i).length =
        k + 1 := by
      rw [update_self]
      rfl
    have hwas : spawned c s i = k := by
      rw [spawned, hreader]
      rfl
    have hok := h.inputs i
    have hnext := hok.next_le
    rw [hreader] at hnext
    simp only [Reader.spawned] at hnext
    have hnot : (i, k) ∉ flight s := by
      intro hmem
      have := (h.range i k hmem).2.1
      omega
    refine ⟨?_, ?_, ?_, ?_, ?_, h.members, h.reported, ?_, h.unread, h.counts⟩
    · exact h.inputs_setReader (hok.withReader (by simp [hreader]) hlt (by simp [hreader,
        Reader.spawned]))
    · exact nodup_cons.mpr ⟨hnot, h.nodup⟩
    · intro j n hn
      rcases mem_cons.mp hn with heq | hn
      · obtain ⟨rfl, rfl⟩ := Prod.mk.inj heq
        refine ⟨hnext, ?_, fun x hx => ?_⟩
        · change n < (update s.readers j (.reading (n + 1)) j).spawned _
          omega
        · have := (hok.waiting x hx).2.1
          rw [hreader] at this
          exact Nat.ne_of_lt this
      · obtain ⟨hlo, hhi, hfree⟩ := h.range j n hn
        refine ⟨hlo, ?_, hfree⟩
        change n < (update s.readers i (.reading (k + 1)) j).spawned _
        by_cases hj : j = i
        · subst hj
          omega
        · rw [hsame j hj]
          exact hhi
    · intro j n hlo hhi
      change n < (update s.readers i (.reading (k + 1)) j).spawned _ at hhi
      by_cases hj : j = i
      · subst hj
        by_cases hn : n = k
        · exact .inl (by rw [hn]; exact mem_cons_self)
        · exact (h.complete j n hlo (by omega)).imp_left (mem_cons_of_mem _)
      · rw [hsame j hj] at hhi
        exact (h.complete j n hlo hhi).imp_left (mem_cons_of_mem _)
    · intro x hx
      rcases mem_cons.mp hx with rfl | hx
      · exact hbatch
      · exact h.jobs x hx
    · exact h.done_iff_setReader (by simp [hreader]) (by simp)
  | done i hreader =>
    have hsame : ∀ j, (update s.readers i .done j).spawned (c.batches j).length =
        spawned c s j := by
      intro j
      by_cases hj : j = i
      · subst hj
        simp [spawned, hreader, Reader.spawned]
      · rw [update_of_ne hj]
        rfl
    have hnone := h.done_iff i
    rw [hreader] at hnone
    simp only [reduceCtorEq, false_iff, not_or, not_not] at hnone
    have hreports : reports { s.setReader i .done with
        queue := s.queue ++ [.readerDone i (c.batches i).length] } = reports s ++ [i] := by
      simp [reports, Msg.reports]
    have hflight : flight { s.setReader i .done with
        queue := s.queue ++ [.readerDone i (c.batches i).length] } = flight s := by
      simp [flight, Msg.keys, State.setReader]
    refine ⟨?_, ?_, ?_, ?_, h.jobs, ?_, ?_, ?_, ?_, ?_⟩
    · exact h.inputs_setReader ((h.inputs i).withReader (by simp [hreader]) (Nat.le_refl _)
        (by simp [hreader, Reader.spawned]))
    · rw [hflight]
      exact h.nodup
    · intro j n hn
      rw [hflight] at hn
      have := h.range j n hn
      rw [← hsame j] at this
      exact this
    · intro j n hlo hhi
      rw [hflight]
      exact h.complete j n hlo (by rw [← hsame j]; exact hhi)
    · intro j n b hb
      rcases mem_append.mp hb with hb | hb
      · exact h.members j n b hb
      · exact absurd (mem_singleton.mp hb) (by simp)
    · rw [hreports]
      refine nodup_append.mpr ⟨h.reported, nodup_singleton i, ?_⟩
      rintro a ha b hb rfl
      rw [mem_singleton.mp hb] at ha
      exact hnone.1 ha
    · intro j
      rw [hreports, mem_append, mem_singleton]
      by_cases hj : j = i
      · subst hj
        simp [State.setReader]
      · simp only [State.setReader, update_of_ne hj, h.done_iff j, hj, or_false]
    · intro j hj
      rw [hreports, mem_append, mem_singleton] at hj
      rcases hj with hj | rfl
      · exact h.unread j hj
      · exact hnone.2
    · intro j n hn
      rcases mem_append.mp hn with hn | hn
      · exact h.counts j n hn
      · obtain ⟨rfl, rfl⟩ := Msg.readerDone.inj (mem_singleton.mp hn)
        rfl

lemma flight_job (h : Flight c s) (hstep : JobStep s t) : Flight c t := by
  cases hstep with
  | encode i k b before after hjobs =>
    have hperm : (flight { s with
        jobs := before ++ after
        queue := s.queue ++ [.member i k b] }).Perm (flight s) := by
      simp only [flight, hjobs, map_append, map_cons, flatMap_append,
        flatMap_cons, flatMap_nil, append_nil, Msg.keys, append_assoc]
      refine List.Perm.append_left _ ?_
      rw [← append_assoc]
      exact perm_append_singleton _ _
    have hreports : reports { s with
        jobs := before ++ after
        queue := s.queue ++ [.member i k b] } = reports s := by
      simp [reports, Msg.reports]
    have hbatch := h.jobs (i, k, b) (by simp [hjobs])
    refine ⟨h.inputs, hperm.nodup_iff.mpr h.nodup, ?_, ?_, ?_, ?_, ?_, ?_, ?_, ?_⟩
    · exact fun j n hn => h.range j n (hperm.mem_iff.mp hn)
    · intro j n hlo hhi
      rw [hperm.mem_iff]
      exact h.complete j n hlo hhi
    · intro x hx
      refine h.jobs x ?_
      rw [hjobs]
      rcases mem_append.mp hx with hx | hx
      · exact mem_append_left _ hx
      · exact mem_append_right _ (mem_cons_of_mem _ hx)
    · intro j n b' hb
      rcases mem_append.mp hb with hb | hb
      · exact h.members j n b' hb
      · obtain ⟨rfl, rfl, rfl⟩ := Msg.member.inj (mem_singleton.mp hb)
        exact hbatch
    · rw [hreports]
      exact h.reported
    · rw [hreports]
      exact h.done_iff
    · rw [hreports]
      exact h.unread
    · intro j n hn
      rcases mem_append.mp hn with hn | hn
      · exact h.counts j n hn
      · exact absurd (mem_singleton.mp hn) (by simp)

/-- The input changes in nothing that concerns the batches on their way. -/
theorem Flight.setInput (h : Flight c s) (hok : InputOk c i (s.readers i) st)
    (hnext : st.next = (s.states i).next) (hwaiting : st.waiting = (s.states i).waiting)
    (hbatches : st.batches = (s.states i).batches) : Flight c (s.setInput i st) := by
  have hsame := fun j => And.intro (update_keeps hnext j)
    (And.intro (update_keeps hwaiting j) (update_keeps hbatches j))
  refine { h with inputs := h.inputs_setInput hok, range := ?_, complete := ?_, done_iff := ?_,
                  unread := ?_ }
  · intro j k hk
    simp only [State.setInput, (hsame j).1, (hsame j).2.1]
    exact h.range j k hk
  · intro j k
    simp only [State.setInput, (hsame j).1, (hsame j).2.1]
    exact h.complete j k
  · intro j
    simp only [State.setInput, (hsame j).2.2]
    exact h.done_iff j
  · intro j hj
    simp only [State.setInput, (hsame j).2.2]
    exact h.unread j hj

lemma Flight.spawnReader (h : Flight c s) (hidle : s.readers s.started = .idle) :
    Flight c s.spawnReader := by
  have hsame : ∀ j, (update s.readers s.started (.reading 0) j).spawned
      (c.batches j).length = spawned c s j := by
    intro j
    by_cases hj : j = s.started
    · subst hj
      simp [spawned, hidle, Reader.spawned]
    · rw [update_of_ne hj]
      rfl
  refine ⟨?_, h.nodup, ?_, ?_, h.jobs, h.members, h.reported, ?_, h.unread, h.counts⟩
  · exact h.inputs_setReader ((h.inputs s.started).withReader (by simp [hidle]) (Nat.zero_le _)
      (by simp [hidle, Reader.spawned]))
  · intro j k hk
    have := h.range j k hk
    rw [← hsame j] at this
    exact this
  · intro j k hlo hhi
    exact h.complete j k hlo (by rw [← hsame j]; exact hhi)
  · exact h.done_iff_setReader (by simp [hidle]) (by simp)

/-- What a member in the channel's front says. -/
theorem Flight.front (h : Flight c s) {seq : Nat} (hqueue : s.queue = .member i seq b :: rest) :
    (s.states i).next ≤ seq ∧ seq < spawned c s i ∧ (∀ x ∈ (s.states i).waiting, x.1 ≠ seq) ∧
      (c.batches i)[seq]? = some b := by
  have hmem : (i, seq) ∈ flight s := by simp [flight, hqueue, Msg.keys]
  obtain ⟨hlo, hhi, hfree⟩ := h.range i seq hmem
  exact ⟨hlo, hhi, hfree, h.members i seq b (by simp [hqueue])⟩

lemma Flight.recvMember (h : Flight c s) {seq : Nat}
    (hqueue : s.queue = .member i seq b :: rest) (phase : Phase) :
    Flight c
      { s.setInput i { s.states i with waiting := (seq, b) :: (s.states i).waiting } with
        queue := rest
        phase := phase } := by
  obtain ⟨hlo, hhi, hfree, hb⟩ := h.front hqueue
  have hperm : (flight s).Perm ((i, seq) :: flight { s with queue := rest }) := by
    simp only [flight, hqueue, flatMap_cons, Msg.keys, cons_append, nil_append]
    exact perm_middle
  have hnodup := hperm.nodup_iff.mp h.nodup
  rw [nodup_cons] at hnodup
  have hreports : reports s = reports { s with queue := rest } := by
    simp [reports, hqueue, Msg.reports]
  have hsame := fun j =>
    And.intro (@update_keeps _ _ s.states i
        { s.states i with waiting := (seq, b) :: (s.states i).waiting } InputState.next rfl j)
      (@update_keeps _ _ s.states i
        { s.states i with waiting := (seq, b) :: (s.states i).waiting } InputState.batches rfl j)
  refine ⟨?_, hnodup.2, ?_, ?_, h.jobs, ?_, ?_, ?_, ?_, ?_⟩
  · exact h.inputs_setInput ((h.inputs i).receive hlo hhi hb hfree)
  · intro j k hk
    obtain ⟨hlo', hhi', hfree'⟩ := h.range j k (hperm.mem_iff.mpr (mem_cons_of_mem _ hk))
    simp only [State.setInput, (hsame j).1]
    refine ⟨hlo', hhi', fun x hx => ?_⟩
    by_cases hj : j = i
    · subst hj
      rw [update_self] at hx
      rcases mem_cons.mp hx with rfl | hx
      · rintro rfl
        exact hnodup.1 hk
      · exact hfree' x hx
    · rw [update_of_ne hj] at hx
      exact hfree' x hx
  · intro j k hlo' hhi'
    simp only [State.setInput, (hsame j).1] at hlo'
    rcases h.complete j k hlo' hhi' with hmem | ⟨b', hb'⟩
    · rcases mem_cons.mp (hperm.mem_iff.mp hmem) with heq | hmem
      · obtain ⟨rfl, rfl⟩ := Prod.mk.inj heq
        exact .inr ⟨b, by simp [State.setInput]⟩
      · exact .inl hmem
    · refine .inr ⟨b', ?_⟩
      by_cases hj : j = i
      · subst hj
        simp [State.setInput, hb']
      · simpa [State.setInput, update_of_ne hj] using hb'
  · intro j k b' hmem
    exact h.members j k b' (by rw [hqueue]; exact mem_cons_of_mem _ hmem)
  · have := h.reported
    rw [hreports] at this
    exact this
  · intro j
    simp only [State.setInput, (hsame j).2]
    have := h.done_iff j
    rw [hreports] at this
    exact this
  · intro j hj
    simp only [State.setInput, (hsame j).2]
    refine h.unread j ?_
    rw [hreports]
    exact hj
  · intro j n hmem
    exact h.counts j n (by rw [hqueue]; exact mem_cons_of_mem _ hmem)

/-- What a report in the channel's front says. -/
theorem Flight.frontDone (h : Flight c s) {n : Nat} (hqueue : s.queue = .readerDone i n :: rest) :
    n = (c.batches i).length ∧ s.readers i = .done ∧ (s.states i).batches = none ∧
      (s.states i).next ≤ n ∧ ∀ x ∈ (s.states i).waiting, x.1 < n := by
  have hmem : i ∈ reports s := by simp [reports, hqueue, Msg.reports]
  have hn := h.counts i n (by simp [hqueue])
  have hdone : s.readers i = .done := (h.done_iff i).mpr (.inl hmem)
  have hok := h.inputs i
  rw [hdone] at hok
  subst hn
  exact ⟨rfl, hdone, h.unread i hmem, hok.next_le, fun x hx => (hok.waiting x hx).2.1⟩

lemma Flight.recvDone (h : Flight c s) {n : Nat} (hqueue : s.queue = .readerDone i n :: rest)
    (phase : Phase) :
    Flight c
      { s.setInput i { s.states i with batches := some n } with
        queue := rest
        phase := phase } := by
  obtain ⟨rfl, hdone, hnone, -, -⟩ := h.frontDone hqueue
  have hflight : flight s = flight { s with queue := rest } := by
    simp [flight, hqueue, Msg.keys]
  have hreports : reports s = i :: reports { s with queue := rest } := by
    simp [reports, hqueue, Msg.reports]
  have hreported := h.reported
  rw [hreports, nodup_cons] at hreported
  have hsame := fun j =>
    And.intro (@update_keeps _ _ s.states i
        { s.states i with batches := some (c.batches i).length } InputState.next rfl j)
      (@update_keeps _ _ s.states i
        { s.states i with batches := some (c.batches i).length } InputState.waiting rfl j)
  have hok := h.inputs i
  rw [hdone] at hok
  refine ⟨?_, ?_, ?_, ?_, h.jobs, ?_, hreported.2, ?_, ?_, ?_⟩
  · exact h.inputs_setInput (hdone ▸ hok.report hnone)
  · have := h.nodup
    rw [hflight] at this
    exact this
  · intro j k hk
    simp only [State.setInput, (hsame j).1, (hsame j).2]
    exact h.range j k (by rw [hflight]; exact hk)
  · intro j k
    simp only [State.setInput, (hsame j).1, (hsame j).2]
    have := h.complete j k
    rw [hflight] at this
    exact this
  · intro j k b hmem
    exact h.members j k b (by rw [hqueue]; exact mem_cons_of_mem _ hmem)
  · intro j
    by_cases hj : j = i
    · subst hj
      simp [State.setInput, hdone]
    · have := h.done_iff j
      rw [hreports, mem_cons] at this
      simp only [hj, false_or] at this
      simp only [State.setInput, update_of_ne hj]
      exact this
  · intro j hj
    have hne : j ≠ i := by
      rintro rfl
      exact hreported.1 hj
    simp only [State.setInput, update_of_ne hne]
    refine h.unread j ?_
    rw [hreports]
    exact mem_cons_of_mem _ hj
  · intro j n hmem
    exact h.counts j n (by rw [hqueue]; exact mem_cons_of_mem _ hmem)

lemma Flight.write (h : Flight c s) {before after : List (Nat × Batch)}
    (hwaiting : (s.states i).waiting = before ++ ((s.states i).next, b) :: after) :
    Flight c (s.setInput i ((s.states i).wrote (before ++ after) b)) := by
  have hok := (h.inputs i).write hwaiting ((s.states i).sink.add b.member)
  have hbatches := @update_keeps _ _ s.states i ((s.states i).wrote (before ++ after) b)
    InputState.batches rfl
  refine { h with inputs := h.inputs_setInput hok, range := ?_, complete := ?_, done_iff := ?_,
                  unread := ?_ }
  · intro j k hk
    obtain ⟨hlo, hhi, hfree⟩ := h.range j k hk
    by_cases hj : j = i
    · subst hj
      simp only [State.setInput, update_self]
      -- The number just written is not on its way: it was waiting.
      have hne : (s.states j).next ≠ k := hfree ((s.states j).next, b) (by simp [hwaiting])
      refine ⟨?_, hhi, fun x hx => hfree x ?_⟩
      · simp only [InputState.wrote]
        omega
      · rw [hwaiting]
        rcases mem_append.mp hx with hx | hx
        · exact mem_append_left _ hx
        · exact mem_append_right _ (mem_cons_of_mem _ hx)
    · simp only [State.setInput, update_of_ne hj]
      exact ⟨hlo, hhi, hfree⟩
  · intro j k hlo hhi
    by_cases hj : j = i
    · subst hj
      simp only [State.setInput, update_self, InputState.wrote] at hlo ⊢
      rcases h.complete j k (by omega) hhi with hmem | ⟨b', hb'⟩
      · exact .inl hmem
      · rw [hwaiting, mem_append, mem_cons] at hb'
        refine .inr ⟨b', ?_⟩
        rcases hb' with hb' | heq | hb'
        · exact mem_append_left _ hb'
        · have := (Prod.mk.inj heq).1
          omega
        · exact mem_append_right _ hb'
    · simp only [State.setInput, update_of_ne hj] at hlo ⊢
      exact h.complete j k hlo hhi
  · intro j
    simp only [State.setInput, hbatches j]
    exact h.done_iff j
  · intro j hj
    simp only [State.setInput, hbatches j]
    exact h.unread j hj

lemma InputOk.closed (h : InputOk c i r st) (hdone : st.batches = some st.next) (isHead : Bool) :
    InputOk c i r (st.closed isHead) :=
  h.close hdone _

lemma flight_move (h : Flight c s) (hidle : ∀ i, s.readers i = .idle ↔ s.started ≤ i)
    (hstep : Move c s t) : Flight c t := by
  have hfree : s.readers s.started = .idle := (hidle s.started).mpr (Nat.le_refl _)
  cases hstep with
  | spawn hphase hlt => exact h.spawnReader hfree
  | spawned | advanceLast | finish | drained | keep => exact { h with }
  | advance hphase hnext hdone =>
    exact { h.setInput ((h.inputs (s.head + 1)).withSink .output) rfl rfl rfl with }
  | recvMember i seq b rest hphase hhead hdone hqueue => exact h.recvMember hqueue _
  | recvDone i n rest hphase hhead hdone hqueue => exact h.recvDone hqueue _
  | drain i b before after hphase hwaiting => exact { h.write hwaiting with }
  | close i hphase hopen hdone hall =>
    exact { h.setInput ((h.inputs i).closed hdone _) rfl rfl rfl with }
  | closeSpawn i hphase hopen hdone hmore =>
    have hclosed := h.setInput ((h.inputs i).closed hdone (i == s.head)) rfl rfl rfl
    exact { hclosed.spawnReader hfree with }

/-- The batches of an input that were admitted and are not written. -/
def owed (c : Config) (s : State) (i : Nat) : List Batch :=
  ((c.batches i).take (sealed c s i)).drop (s.states i).next

def admitted (c : Config) (s : State) : Nat :=
  ∑ i ∈ Finset.range c.count, (owed c s i).length

structure Ledger (c : Config) (s : State) : Prop where
  used : s.used = ∑ i ∈ Finset.range c.count, Batch.sumCredit (owed c s i)
  budget : s.used ≤ c.budget ∨ admitted c s ≤ 1

lemma ledger_start (c : Config) : Ledger c start := by
  have howed : ∀ i, owed c start i = [] := by simp [owed, start, sealed, Reader.sealed]
  constructor
  · simp only [howed]
    simp [Batch.sumCredit, start]
  · exact .inl (Nat.zero_le _)

lemma Ledger.keep (h : Ledger c s) (howed : ∀ j, owed c t j = owed c s j)
    (hused : t.used = s.used) : Ledger c t := by
  constructor
  · simp only [howed, hused]
    exact h.used
  · simp only [admitted, howed, hused]
    exact h.budget

/-- Every batch costs something. -/
theorem length_le_sumCredit : bs.length ≤ Batch.sumCredit bs := by
  induction bs with
  | nil => exact Nat.zero_le _
  | cons b bs ih =>
    have hpos : 1 ≤ b.credit := Nat.le_max_right _ _
    simp only [Batch.sumCredit, map_cons, sum_cons, length_cons] at ih ⊢
    omega

lemma Ledger.admitted_le (h : Ledger c s) : admitted c s ≤ s.used := by
  rw [h.used]
  exact Finset.sum_le_sum fun i _ => length_le_sumCredit _

lemma owed_setReader (hsealed : r.sealed (c.batches i).length = sealed c s i) (j : Nat) :
    owed c (s.setReader i r) j = owed c s j := by
  by_cases hj : j = i
  · subst hj
    simp [owed, sealed, State.setReader] at hsealed ⊢
    rw [hsealed]
  · simp [owed, sealed, State.setReader, update_of_ne hj]

/-- A batch is admitted. -/
theorem Ledger.acquire (h : Ledger c s) {k : Nat} (hi : i < c.count)
    (hok : InputOk c i (s.readers i) (s.states i)) (hreader : s.readers i = .reading k)
    (hbatch : (c.batches i)[k]? = some b) (hroom : s.used = 0 ∨ s.used + b.credit ≤ c.budget) :
    Ledger c { s.setReader i (.acquired k) with used := s.used + b.credit } := by
  have hnext := hok.next_le
  rw [hreader] at hnext
  simp only [Reader.spawned] at hnext
  have hlt := (List.getElem?_eq_some_iff.mp hbatch).1
  have hself : owed c (s.setReader i (.acquired k)) i = owed c s i ++ [b] := by
    have htake : ((c.batches i).take (k + 1)).drop (s.states i).next =
        ((c.batches i).take k).drop (s.states i).next ++ [b] := by
      rw [List.take_add_one, hbatch, Option.toList_some]
      exact List.drop_append_of_le_length (by rw [List.length_take]; omega)
    simpa [owed, sealed, State.setReader, hreader, Reader.sealed] using htake
  have hother : ∀ j, j ≠ i → owed c (s.setReader i (.acquired k)) j = owed c s j := by
    intro j hj
    simp [owed, sealed, State.setReader, Function.update_of_ne hj]
  have hcredit := @sum_range_update (fun j => Batch.sumCredit (owed c s j))
    (fun j => Batch.sumCredit (owed c (s.setReader i (.acquired k)) j)) _ _ hi
    (fun j hj => by simp only [hother j hj])
  have hlength := @sum_range_update (fun j => (owed c s j).length)
    (fun j => (owed c (s.setReader i (.acquired k)) j).length) _ _ hi
    (fun j hj => by simp only [hother j hj])
  simp only [hself, Batch.sumCredit, List.map_append, List.sum_append, List.map_cons, List.map_nil,
    List.sum_cons, List.sum_nil, List.length_append, List.length_cons, List.length_nil]
    at hcredit hlength
  constructor
  · have := h.used
    simp only [Batch.sumCredit] at this
    change s.used + b.credit =
      ∑ j ∈ Finset.range c.count, Batch.sumCredit (owed c (s.setReader i (.acquired k)) j)
    simp only [Batch.sumCredit]
    omega
  · rcases hroom with hzero | hroom
    · right
      have hle := h.admitted_le
      change (∑ j ∈ Finset.range c.count, (owed c (s.setReader i (.acquired k)) j).length) ≤ 1
      simp only [admitted] at hle
      omega
    · exact .inl hroom

lemma ledger_reader (hf : Flight c s) (hstarted : ∀ i, s.readers i ≠ .idle → i < c.count)
    (h : Ledger c s) (hstep : ReaderStep c s t) : Ledger c t := by
  cases hstep with
  | acquire i k b hreader hbatch hroom =>
    exact h.acquire (hstarted i (by simp [hreader])) (hf.inputs i) hreader hbatch hroom
  | spawn i k b hreader hbatch =>
    have hsealed : (Reader.reading (k + 1)).sealed (c.batches i).length = sealed c s i := by
      rw [sealed, hreader]
      rfl
    exact h.keep (owed_setReader hsealed) rfl
  | done i hreader =>
    have hsealed : Reader.done.sealed (c.batches i).length = sealed c s i := by
      rw [sealed, hreader]
      rfl
    exact h.keep (owed_setReader hsealed) rfl

lemma ledger_job (h : Ledger c s) (hstep : JobStep s t) : Ledger c t := by
  cases hstep with
  | encode i k b before after hjobs => exact h.keep (fun _ => rfl) rfl

/-- The batches owed depend on the input only through the number that is next. -/
theorem owed_setInput (hnext : st.next = (s.states i).next) (j : Nat) :
    owed c (s.setInput i st) j = owed c s j := by
  have := @update_keeps _ _ s.states i st InputState.next hnext j
  simp only [owed, State.setInput, this]
  rfl

/-- A member is written and its credit goes back. -/
theorem Ledger.release (h : Ledger c s) {i : Nat} {b : Batch} {st : InputState} (hi : i < c.count)
    (hnext : st.next = (s.states i).next + 1) (hsealed : (s.states i).next < sealed c s i)
    (hbatch : (c.batches i)[(s.states i).next]? = some b) :
    Ledger c { s.setInput i st with used := s.used - b.credit } := by
  obtain ⟨hlt, hget⟩ := List.getElem?_eq_some_iff.mp hbatch
  have hself : owed c s i = b :: owed c (s.setInput i st) i := by
    have hlen : (s.states i).next < ((c.batches i).take (sealed c s i)).length := by
      rw [length_take]
      omega
    simp only [owed, State.setInput, update_self, hnext]
    rw [drop_eq_getElem_cons hlen, getElem_take, hget]
    rfl
  have hother : ∀ j, j ≠ i → owed c (s.setInput i st) j = owed c s j := by
    intro j hj
    simp only [owed, State.setInput, update_of_ne hj]
    rfl
  have hcredit := @sum_range_update (fun j => Batch.sumCredit (owed c s j))
    (fun j => Batch.sumCredit (owed c (s.setInput i st) j)) _ _ hi
    (fun j hj => by simp only [hother j hj])
  have hlength := @sum_range_update (fun j => (owed c s j).length)
    (fun j => (owed c (s.setInput i st) j).length) _ _ hi
    (fun j hj => by simp only [hother j hj])
  simp only [hself, Batch.sumCredit, map_cons, sum_cons, length_cons]
    at hcredit hlength
  have hused := h.used
  simp only [Batch.sumCredit] at hused
  constructor
  · change s.used - b.credit =
      ∑ j ∈ Finset.range c.count, Batch.sumCredit (owed c (s.setInput i st) j)
    simp only [Batch.sumCredit]
    omega
  · rcases h.budget with hbudget | hone
    · left
      change s.used - b.credit ≤ c.budget
      omega
    · right
      change (∑ j ∈ Finset.range c.count, (owed c (s.setInput i st) j).length) ≤ 1
      simp only [admitted] at hone
      omega

lemma owed_spawnReader (hidle : s.readers s.started = .idle) (j : Nat) :
    owed c s.spawnReader j = owed c s j :=
  owed_setReader (by simp [sealed, hidle, Reader.sealed]) j

/-- The input that is drained has a reader. -/
theorem Flight.waiting_started (hf : Flight c s)
    (hstarted : ∀ i, s.readers i ≠ .idle → i < c.count) {k : Nat}
    (hmem : (k, b) ∈ (s.states i).waiting) : i < c.count := by
  refine hstarted i fun hidle => ?_
  have := ((hf.inputs i).waiting _ hmem).2.1
  rw [hidle] at this
  exact absurd this (Nat.not_lt_zero _)

lemma ledger_move (hf : Flight c s) (hidle : ∀ i, s.readers i = .idle ↔ s.started ≤ i)
    (hstarted : ∀ i, s.readers i ≠ .idle → i < c.count) (h : Ledger c s) (hstep : Move c s t) :
    Ledger c t := by
  have hfree : s.readers s.started = .idle := (hidle s.started).mpr (Nat.le_refl _)
  cases hstep with
  | spawn hphase hlt => exact h.keep (owed_spawnReader hfree) rfl
  | spawned | advanceLast | finish | drained | keep => exact h.keep (fun _ => rfl) rfl
  | advance | recvMember | recvDone | close => exact h.keep (owed_setInput rfl) rfl
  | drain i b before after hphase hwaiting =>
    have hmem : ((s.states i).next, b) ∈ (s.states i).waiting := by simp [hwaiting]
    obtain ⟨-, hhi, hbatch⟩ := (hf.inputs i).waiting _ hmem
    have hi := hf.waiting_started hstarted hmem
    have hsealed := Nat.lt_of_lt_of_le hhi (Reader.spawned_le_sealed _ _)
    have hrelease := @Ledger.release c s h i b ((s.states i).wrote (before ++ after) b) hi rfl
      hsealed hbatch
    exact ⟨hrelease.used, hrelease.budget⟩
  | closeSpawn i hphase hopen hdone hmore =>
    have hclosed : Ledger c (s.setInput i ((s.states i).closed (i == s.head))) :=
      h.keep (owed_setInput rfl) rfl
    have hspawned := @owed_spawnReader c (s.setInput i ((s.states i).closed (i == s.head))) hfree
    exact hclosed.keep hspawned rfl

end MergeStream
