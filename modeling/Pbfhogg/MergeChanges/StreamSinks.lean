import Pbfhogg.MergeChanges.StreamInvariant

/-!
# Slots and sinks of the streaming merge

Which readers run, and what the output and the spill files hold.
-/

namespace MergeStream

open Indexed List Function

variable {c : Config} {s t : State}

def completeCount (c : Config) (s : State) : Nat :=
  ∑ i ∈ Finset.range c.count, if (s.states i).complete = true then 1 else 0

structure Slots (c : Config) (s : State) : Prop where
  started_le : s.started ≤ c.count
  idle : ∀ i, s.readers i = .idle ↔ s.started ≤ i
  starting : s.phase = .starting → s.started ≤ c.readers ∧ completeCount c s = 0
  started : s.phase ≠ .starting → s.started = min c.count (c.readers + completeCount c s)

lemma slots_start (c : Config) : Slots c start where
  started_le := Nat.zero_le _
  idle := by simp [start]
  starting := fun _ => ⟨Nat.zero_le _, by simp [completeCount, start, InputState.new]⟩
  started := fun h => absurd rfl h

lemma Slots.lt_count (h : Slots c s) (i : Nat) (hi : s.readers i ≠ .idle) : i < c.count := by
  have hlt : i < s.started := by
    by_contra hle
    exact hi ((h.idle i).mpr (by omega))
  exact Nat.lt_of_lt_of_le hlt h.started_le

/-- A running reader goes on. -/
theorem Slots.setReader (h : Slots c s) {i : Nat} {r : Reader} (hbefore : s.readers i ≠ .idle)
    (hafter : r ≠ .idle) : Slots c (s.setReader i r) := by
  refine { h with idle := fun j => ?_ }
  change _ ↔ s.started ≤ j
  rw [← h.idle j]
  by_cases hj : j = i
  · subst hj
    simp [State.setReader, hbefore, hafter]
  · simp only [State.setReader, update_of_ne hj]

lemma slots_reader (h : Slots c s) (hstep : ReaderStep c s t) : Slots c t := by
  cases hstep with
  | acquire i k b hreader hbatch hroom =>
    exact { @Slots.setReader c s h i (.acquired k) (by simp [hreader]) (by simp) with }
  | spawn i k b hreader hbatch =>
    exact { @Slots.setReader c s h i (.reading (k + 1)) (by simp [hreader]) (by simp) with }
  | done i hreader =>
    exact { @Slots.setReader c s h i .done (by simp [hreader]) (by simp) with }

lemma slots_job (h : Slots c s) (hstep : JobStep s t) : Slots c t := by
  cases hstep with
  | encode i k b before after hjobs => exact { h with }

lemma idle_spawnReader (h : ∀ i, s.readers i = .idle ↔ s.started ≤ i) (j : Nat) :
    update s.readers s.started (.reading 0) j = .idle ↔ s.started + 1 ≤ j := by
  by_cases hj : j = s.started
  · subst hj
    simp
  · rw [update_of_ne hj, h j]
    omega

lemma completeCount_setInput {i : Nat} {st : InputState}
    (hsame : st.complete = (s.states i).complete) :
    completeCount c (s.setInput i st) = completeCount c s := by
  refine sum_range_congr fun j => ?_
  have := @update_keeps _ _ s.states i st InputState.complete hsame j
  simp only [State.setInput, this]

lemma completeCount_close {i : Nat} {st : InputState} (hi : i < c.count)
    (hbefore : (s.states i).complete = false) (hafter : st.complete = true) :
    completeCount c (s.setInput i st) = completeCount c s + 1 := by
  have := @sum_range_update (fun j => if (s.states j).complete = true then 1 else 0)
    (fun j => if ((s.setInput i st).states j).complete = true then 1 else 0) _ _ hi
    (fun j hj => by simp only [State.setInput, update_of_ne hj])
  simp only [State.setInput, update_self, hbefore, hafter, Bool.false_eq_true, if_false,
    if_true, Nat.add_zero] at this
  exact this

lemma readers_pos (c : Config) : 0 < c.readers := by
  unfold Config.readers
  omega

/-- The coordinator goes on with the same readers and the same inputs complete. -/
theorem Slots.keep (h : Slots c s) (hreaders : t.readers = s.readers)
    (hstarted : t.started = s.started) (hcount : completeCount c t = completeCount c s)
    (hbefore : s.phase ≠ .starting) (hafter : t.phase ≠ .starting) : Slots c t where
  started_le := hstarted ▸ h.started_le
  idle := by
    rw [hreaders, hstarted]
    exact h.idle
  starting := fun hs => absurd hs hafter
  started := fun _ => by
    rw [hstarted, hcount]
    exact h.started hbefore

lemma slots_move (hactive : ∀ i, s.phase = .closing i → i < c.count) (h : Slots c s)
    (hstep : Move c s t) : Slots c t := by
  cases hstep with
  | spawn hphase hlt =>
    obtain ⟨hle, hnone⟩ := h.starting hphase
    refine ⟨?_, idle_spawnReader h.idle, fun _ => ⟨?_, hnone⟩, fun hne => absurd hphase hne⟩
    · change s.started + 1 ≤ c.count
      omega
    · change s.started + 1 ≤ c.readers
      omega
  | spawned hphase hge =>
    obtain ⟨hle, hnone⟩ := h.starting hphase
    refine ⟨h.started_le, h.idle, fun hs => (by cases hs), fun _ => ?_⟩
    have hcount := h.started_le
    change s.started = min c.count (c.readers + completeCount c s)
    omega
  | advance hphase hnext hdone =>
    have hcount := @completeCount_setInput c s (s.head + 1)
      { s.states (s.head + 1) with sink := .output } rfl
    exact h.keep rfl rfl hcount (by simp [hphase]) (by simp [State.setInput, hphase])
  | advanceLast hphase hlast hdone => exact { h with }
  | finish hphase | drained _ hphase | keep _ hphase =>
    exact h.keep rfl rfl rfl (by simp [hphase]) (by simp)
  | recvMember i seq b rest hphase hhead hdone hqueue =>
    have hcount := @completeCount_setInput c s i
      { s.states i with waiting := (seq, b) :: (s.states i).waiting } rfl
    exact h.keep rfl rfl hcount (by simp [hphase]) (by simp)
  | recvDone i n rest hphase hhead hdone hqueue =>
    have hcount := @completeCount_setInput c s i { s.states i with batches := some n } rfl
    exact h.keep rfl rfl hcount (by simp [hphase]) (by simp)
  | drain i b before after hphase hwaiting =>
    have hcount := @completeCount_setInput c s i ((s.states i).wrote (before ++ after) b) rfl
    exact h.keep rfl rfl hcount (by simp [hphase]) (by simp [State.setInput, hphase])
  | close i hphase hopen hdone hall =>
    have hcount := @completeCount_close c s i ((s.states i).closed (i == s.head))
      (hactive i hphase) hopen rfl
    have hstarted := h.started (by simp [hphase])
    have hle := h.started_le
    refine ⟨h.started_le, h.idle, fun hs => (by cases hs), fun _ => ?_⟩
    change s.started = min c.count (c.readers +
      completeCount c (s.setInput i ((s.states i).closed (i == s.head))))
    rw [hcount]
    omega
  | closeSpawn i hphase hopen hdone hmore =>
    have hcount := @completeCount_close c s i ((s.states i).closed (i == s.head))
      (hactive i hphase) hopen rfl
    have hstarted := h.started (by simp [hphase])
    refine ⟨hmore, idle_spawnReader h.idle, fun hs => (by cases hs), fun _ => ?_⟩
    change s.started + 1 = min c.count (c.readers +
      completeCount c (s.setInput i ((s.states i).closed (i == s.head))))
    rw [hcount]
    omega

/-- Only the input whose message is dealt with has a member to write or can close. -/
structure Calm (c : Config) (s : State) : Prop where
  undrained : ∀ i, s.phase ≠ .draining i → ∀ x ∈ (s.states i).waiting, x.1 ≠ (s.states i).next
  settled : ∀ i, s.phase ≠ .draining i → s.phase ≠ .closing i →
    (s.states i).batches = some (s.states i).next → (s.states i).complete = true
  active : ∀ i, s.phase = .draining i ∨ s.phase = .closing i → i < c.count

lemma calm_start (c : Config) : Calm c start where
  undrained := fun i _ x hx => by cases hx
  settled := fun i _ _ h => by cases h
  active := fun i h => by rcases h with h | h <;> cases h

/-- One input changes while no other is dealt with. -/
theorem Calm.update (h : Calm c s) {i : Nat} {st : InputState}
    (hstates : t.states = update s.states i st)
    (hother : ∀ j, j ≠ i → s.phase ≠ .draining j ∧ s.phase ≠ .closing j)
    (hwaiting : t.phase ≠ .draining i → ∀ x ∈ st.waiting, x.1 ≠ st.next)
    (hsettled : t.phase ≠ .draining i → t.phase ≠ .closing i → st.batches = some st.next →
      st.complete = true)
    (hactive : ∀ j, t.phase = .draining j ∨ t.phase = .closing j → j < c.count) : Calm c t := by
  refine ⟨fun j hj => ?_, fun j hj hj' => ?_, hactive⟩
  · rw [hstates]
    by_cases hji : j = i
    · subst hji
      rw [update_self]
      exact hwaiting hj
    · rw [update_of_ne hji]
      exact h.undrained j (hother j hji).1
  · rw [hstates]
    by_cases hji : j = i
    · subst hji
      rw [update_self]
      exact hsettled hj hj'
    · rw [update_of_ne hji]
      exact h.settled j (hother j hji).1 (hother j hji).2

/-- No input is dealt with before and after. -/
theorem Calm.idle (h : Calm c s) (hstates : t.states = s.states)
    (hbefore : ∀ j, s.phase ≠ .draining j ∧ s.phase ≠ .closing j)
    (hafter : ∀ j, t.phase ≠ .draining j ∧ t.phase ≠ .closing j) : Calm c t := by
  refine ⟨fun j _ => ?_, fun j _ _ => ?_, fun j hj => ?_⟩
  · rw [hstates]
    exact h.undrained j (hbefore j).1
  · rw [hstates]
    exact h.settled j (hbefore j).1 (hbefore j).2
  · rcases hj with hj | hj
    · exact absurd hj (hafter j).1
    · exact absurd hj (hafter j).2

lemma calm_reader (h : Calm c s) (hstep : ReaderStep c s t) : Calm c t := by
  cases hstep <;> exact { h with }

lemma calm_job (h : Calm c s) (hstep : JobStep s t) : Calm c t := by
  cases hstep with
  | encode i k b before after hjobs => exact { h with }

lemma calm_move (hf : Flight c s) (hs : Slots c s) (h : Calm c s) (hstep : Move c s t) :
    Calm c t := by
  cases hstep with
  | spawn hphase hlt => exact { h with }
  | spawned hphase | finish hphase => exact h.idle rfl (by simp [hphase]) (by simp)
  | advance hphase hnext hdone =>
    refine h.update rfl (by simp [hphase]) (fun _ => ?_) (fun _ _ => ?_) ?_
    · exact h.undrained (s.head + 1) (by simp [hphase])
    · exact h.settled (s.head + 1) (by simp [hphase]) (by simp [hphase])
    · exact h.active
  | advanceLast hphase hlast hdone => exact { h with }
  | recvMember i seq b rest hphase hhead hdone hqueue =>
    obtain ⟨-, hhi, -, -⟩ := hf.front hqueue
    have hi : i < c.count := by
      refine hs.lt_count i fun hidle => ?_
      rw [spawned, hidle] at hhi
      exact absurd hhi (Nat.not_lt_zero _)
    refine h.update rfl (by simp [hphase]) (fun hne => absurd rfl hne) (fun hne => absurd rfl hne) ?_
    intro j hj
    rcases hj with hj | hj
    · cases hj
      exact hi
    · cases hj
  | recvDone i n rest hphase hhead hdone hqueue =>
    obtain ⟨-, hreader, -, -, -⟩ := hf.frontDone hqueue
    have hi : i < c.count := hs.lt_count i (by simp [hreader])
    refine h.update rfl (by simp [hphase]) (fun _ => ?_) (fun _ hne => absurd rfl hne) ?_
    · exact h.undrained i (by simp [hphase])
    · intro j hj
      rcases hj with hj | hj
      · cases hj
      · cases hj
        exact hi
  | drain i b before after hphase hwaiting =>
    refine h.update rfl (fun j hj => ?_) (fun hne => absurd hphase hne)
      (fun hne => absurd hphase hne) h.active
    simp [hphase, Ne.symm hj]
  | drained i hphase hwaiting =>
    refine h.update (update_eq_self i s.states).symm (fun j hj => ?_) (fun _ => hwaiting)
      (fun _ hne => absurd rfl hne) ?_
    · simp [hphase, Ne.symm hj]
    · intro j hj
      rcases hj with hj | hj
      · cases hj
      · cases hj
        exact h.active i (.inl hphase)
  | keep i hphase hopen =>
    refine h.update (update_eq_self i s.states).symm (fun j hj => ?_) (fun _ => ?_)
      (fun _ _ hb => ?_) (by simp)
    · simp [hphase, Ne.symm hj]
    · exact h.undrained i (by simp [hphase])
    · exact hopen.resolve_right fun hne => hne hb
  | close i hphase | closeSpawn i hphase =>
    refine h.update rfl (fun j hj => ?_) (fun _ => ?_) (fun _ _ _ => rfl) (by simp)
    · simp [hphase, Ne.symm hj]
    · exact h.undrained i (by simp [hphase])

/-- The first members of an input. -/
def members (c : Config) (i k : Nat) : Bytes := ((c.batches i).take k).flatMap Batch.member

/-- All members of the first inputs. -/
def allMembers (c : Config) (n : Nat) : Bytes :=
  (c.inputs.take n).flatMap fun bs => bs.flatMap Batch.member

def allChanges (c : Config) (n : Nat) : Nat := ((c.inputs.take n).map Batch.sumChanges).sum

/-- The sink of an input that is not the head yet. -/
def Spilled (c : Config) (i : Nat) (st : InputState) : Prop :=
  match st.sink with
  | .pending => st.next = 0
  | .spill content => content = members c i st.next ∧ st.complete = false ∧ 0 < st.next
  | .closed content => content = members c i st.next ∧ st.complete = true
  | .output => False

structure Sinks (c : Config) (s : State) : Prop where
  head_le : s.head ≤ c.count
  before : ∀ i < s.head, (s.states i).complete = true
  direct : ∀ i ≤ s.head, i < c.count → (s.states i).sink = .output
  spilled : ∀ i, s.head < i → i < c.count → Spilled c i (s.states i)
  out : s.out = allMembers c s.head ++ members c s.head (s.states s.head).next
  total : s.total =
    allChanges c s.head + Batch.sumChanges ((c.batches s.head).take (s.states s.head).next)
  once : s.writes.Nodup
  written : ∀ i k, (i, k) ∈ s.writes ↔ k < (s.states i).next
  /-- With one slot no input is dealt with but the head, and none spills. -/
  alone : c.readers = 1 → (∀ i, s.phase = .draining i ∨ s.phase = .closing i → i = s.head) ∧
    ∀ i, s.head < i → i < c.count → (s.states i).sink = .pending
  ended : ∀ total, s.phase = .finished total → s.head = c.count ∧ total = s.total
  kept : ∀ fault, s.phase ≠ .failed fault

variable {i : Nat} {st : InputState}

lemma batches_ge (c : Config) (h : c.count ≤ i) : c.batches i = [] := by
  simp [Config.batches, getD_eq_getElem?_getD, getElem?_eq_none h]

lemma inputs_take_succ {c : Config} {n : Nat} (h : n < c.count) :
    c.inputs.take (n + 1) = c.inputs.take n ++ [c.batches n] := by
  have hlt : n < c.inputs.length := h
  rw [take_add_one, getElem?_eq_getElem hlt]
  simp [Config.batches, getD_eq_getElem?_getD, getElem?_eq_getElem hlt]

lemma allMembers_succ {n : Nat} (h : n < c.count) :
    allMembers c (n + 1) = allMembers c n ++ members c n (c.batches n).length := by
  simp [allMembers, inputs_take_succ h, members]

lemma allChanges_succ {n : Nat} (h : n < c.count) :
    allChanges c (n + 1) = allChanges c n + Batch.sumChanges (c.batches n) := by
  simp [allChanges, inputs_take_succ h]

lemma members_succ {k : Nat} {b : Batch} (h : (c.batches i)[k]? = some b) :
    members c i (k + 1) = members c i k ++ b.member := by
  simp [members, take_add_one, h]

lemma sinks_start (c : Config) : Sinks c start where
  head_le := Nat.zero_le _
  before := fun i hi => absurd hi (Nat.not_lt_zero i)
  direct := by
    intro i hi _
    have : i = 0 := Nat.le_zero.mp hi
    simp [start, InputState.new, this]
  spilled := by
    intro i hi _
    have : i ≠ 0 := Nat.ne_of_gt hi
    simp [Spilled, start, InputState.new, this]
  out := by simp [start, allMembers, members, InputState.new]
  total := by simp [start, allChanges, InputState.new, Batch.sumChanges]
  once := nodup_nil
  written := by simp [start, InputState.new]
  alone := by
    refine fun _ => ⟨fun i hi => ?_, fun i hi _ => ?_⟩
    · rcases hi with hi | hi <;> cases hi
    · have : i ≠ 0 := Nat.ne_of_gt hi
      simp [start, InputState.new, this]
  ended := fun total h => by cases h
  kept := fun fault h => by cases h

lemma sinks_reader (h : Sinks c s) (hstep : ReaderStep c s t) : Sinks c t := by
  cases hstep <;> exact { h with }

lemma sinks_job (h : Sinks c s) (hstep : JobStep s t) : Sinks c t := by
  cases hstep with
  | encode i k b before after hjobs => exact { h with }

/-- The head's reader runs or has run. -/
theorem head_started (hs : Slots c s) (h : Sinks c s) (hphase : s.phase ≠ .starting)
    (hhead : s.head < c.count) : s.head < s.started := by
  have hcount : s.head ≤ completeCount c s := by
    have hle : (∑ i ∈ Finset.range c.count, if i < s.head then 1 else 0) ≤ completeCount c s := by
      refine Finset.sum_le_sum fun i _ => ?_
      by_cases hi : i < s.head
      · simp [hi, h.before i hi]
      · simp [hi]
    rwa [sum_range_lt h.head_le] at hle
  have hpos := readers_pos c
  rw [hs.started hphase]
  omega

lemma complete_started (hf : Flight c s) (hs : Slots c s) (h : (s.states i).complete = true) :
    i < s.started := by
  by_contra hle
  have hidle := (hs.idle i).mpr (by omega)
  have hdone := (hf.inputs i).all ((hf.inputs i).complete h)
  rw [hidle] at hdone
  cases hdone.2

/-- With one slot at most one started input is not complete. -/
theorem incomplete_unique (hf : Flight c s) (hs : Slots c s) (hphase : s.phase ≠ .starting)
    (hone : c.readers = 1) {j : Nat} (hi : i < s.started) (hj : j < s.started)
    (hi' : (s.states i).complete = false) (hj' : (s.states j).complete = false) : i = j := by
  by_contra hne
  have hle := hs.started_le
  have hsum : (∑ k ∈ Finset.range c.count, ((if (s.states k).complete = true then 1 else 0) +
      ((if k = i then 1 else 0) + if k = j then 1 else 0))) ≤
        ∑ k ∈ Finset.range c.count, if k < s.started then 1 else 0 := by
    refine Finset.sum_le_sum fun k _ => ?_
    by_cases hki : k = i
    · subst hki
      simp [hi, hi', hne]
    · by_cases hkj : k = j
      · subst hkj
        simp [hj, hj', hki]
      · cases hk : (s.states k).complete with
        | false => simp [hki, hkj]
        | true => simp [hki, hkj, complete_started hf hs hk]
  rw [sum_range_lt hle, Finset.sum_add_distrib, Finset.sum_add_distrib, Finset.sum_ite_eq',
    Finset.sum_ite_eq', if_pos (Finset.mem_range.mpr (by omega)),
    if_pos (Finset.mem_range.mpr (by omega))] at hsum
  have hstarted := hs.started hphase
  rw [hone] at hstarted
  simp only [completeCount] at hstarted
  omega

/-- The input a message is from has not completed. -/
theorem front_incomplete (hf : Flight c s) {seq : Nat} {b : Batch} {rest : List Msg}
    (hqueue : s.queue = .member i seq b :: rest) : (s.states i).complete = false := by
  obtain ⟨hlo, hhi, -, -⟩ := hf.front hqueue
  cases hc : (s.states i).complete with
  | false => rfl
  | true =>
    obtain ⟨hnext, hreader⟩ := (hf.inputs i).all ((hf.inputs i).complete hc)
    rw [spawned, hreader] at hhi
    simp only [Reader.spawned] at hhi
    omega

lemma frontDone_incomplete (hf : Flight c s) {n : Nat} {rest : List Msg}
    (hqueue : s.queue = .readerDone i n :: rest) : (s.states i).complete = false := by
  obtain ⟨-, -, hnone, -, -⟩ := hf.frontDone hqueue
  cases hc : (s.states i).complete with
  | false => rfl
  | true =>
    have := (hf.inputs i).complete hc
    rw [hnone] at this
    cases this

lemma message_from_head (hf : Flight c s) (hs : Slots c s) (h : Sinks c s)
    (hphase : s.phase = .looping) (hhead : s.head < c.count)
    (hdone : (s.states s.head).batches ≠ some (s.states s.head).next) (hi : s.readers i ≠ .idle)
    (hi' : (s.states i).complete = false) (hone : c.readers = 1) : i = s.head := by
  have hstarted : i < s.started := by
    by_contra hle
    exact hi ((hs.idle i).mpr (by omega))
  have hhead' : (s.states s.head).complete = false := by
    cases hc : (s.states s.head).complete with
    | false => rfl
    | true => exact absurd ((hf.inputs s.head).complete hc) hdone
  exact incomplete_unique hf hs (by simp [hphase]) hone hstarted
    (head_started hs h (by simp [hphase]) hhead) hi' hhead'

/-- One input changes in what its sink does not depend on, or in a way its sink follows. -/
theorem Sinks.setInput (h : Sinks c s) (hstates : t.states = update s.states i st)
    (hhead : t.head = s.head) (hout : t.out = s.out) (htotal : t.total = s.total)
    (hwrites : t.writes = s.writes)
    (hcomplete : (s.states i).complete = true → st.complete = true)
    (hnext : st.next = (s.states i).next)
    (hdirect : (s.states i).sink = .output → st.sink = .output)
    (hspilled : s.head < i → i < c.count → Spilled c i st)
    (halone : c.readers = 1 → s.head < i → i < c.count → st.sink = .pending)
    (hphase : c.readers = 1 → ∀ j, t.phase = .draining j ∨ t.phase = .closing j → j = s.head)
    (hended : ∀ total, t.phase ≠ .finished total) (hkept : ∀ fault, t.phase ≠ .failed fault) :
    Sinks c t := by
  have hn := @update_keeps _ _ s.states i st InputState.next hnext
  refine ⟨hhead ▸ h.head_le, ?_, ?_, ?_, ?_, ?_, hwrites ▸ h.once, ?_, ?_, ?_, hkept⟩
  · intro j hj
    rw [hhead] at hj
    rw [hstates]
    by_cases hji : j = i
    · subst hji
      rw [update_self]
      exact hcomplete (h.before j hj)
    · rw [update_of_ne hji]
      exact h.before j hj
  · intro j hj hlt
    rw [hhead] at hj
    rw [hstates]
    by_cases hji : j = i
    · subst hji
      rw [update_self]
      exact hdirect (h.direct j hj hlt)
    · rw [update_of_ne hji]
      exact h.direct j hj hlt
  · intro j hj hlt
    rw [hhead] at hj
    rw [hstates]
    by_cases hji : j = i
    · subst hji
      rw [update_self]
      exact hspilled hj hlt
    · rw [update_of_ne hji]
      exact h.spilled j hj hlt
  · rw [hout, hhead, hstates, hn s.head]
    exact h.out
  · rw [htotal, hhead, hstates, hn s.head]
    exact h.total
  · intro j k
    rw [hwrites, hstates, hn j]
    exact h.written j k
  · intro hone
    rw [hhead, hstates]
    refine ⟨hphase hone, fun j hj hlt => ?_⟩
    by_cases hji : j = i
    · subst hji
      rw [update_self]
      exact halone hone hj hlt
    · rw [update_of_ne hji]
      exact (h.alone hone).2 j hj hlt
  · exact fun total ht => absurd ht (hended total)

lemma Sinks.write (hf : Flight c s) (h : Sinks c s) {b : Batch}
    {before after : List (Nat × Batch)} (hi : i < c.count) (hphase : s.phase = .draining i)
    (hwaiting : (s.states i).waiting = before ++ ((s.states i).next, b) :: after) :
    Sinks c
      { s.setInput i ((s.states i).wrote (before ++ after) b) with
        used := s.used - b.credit
        writes := s.writes ++ [(i, (s.states i).next)]
        out := if (s.states i).sink = .output then s.out ++ b.member else s.out
        total := if (s.states i).sink = .output then s.total + b.changes else s.total } := by
  have hmem : ((s.states i).next, b) ∈ (s.states i).waiting := by simp [hwaiting]
  obtain ⟨-, hhi, hbatch⟩ := (hf.inputs i).waiting _ hmem
  have hopen : (s.states i).complete = false := by
    cases hc : (s.states i).complete with
    | false => rfl
    | true =>
      obtain ⟨hnext, hreader⟩ := (hf.inputs i).all ((hf.inputs i).complete hc)
      rw [hreader] at hhi
      exact absurd hhi (by simp only [Reader.spawned]; omega)
  have hge : s.head ≤ i := by
    by_contra hlt
    have := h.before i (by omega)
    rw [hopen] at this
    cases this
  -- A member goes to the output exactly when its input is the head.
  have hsink : (s.states i).sink = .output ↔ i = s.head := by
    constructor
    · intro hout
      by_contra hne
      have := h.spilled i (by omega) hi
      simp [Spilled, hout] at this
    · rintro rfl
      exact h.direct _ (Nat.le_refl _) hi
  have hn : ∀ j, j ≠ i → (update s.states i ((s.states i).wrote (before ++ after) b) j) =
      s.states j := fun j hj => update_of_ne hj _ _
  refine ⟨h.head_le, ?_, ?_, ?_, ?_, ?_, ?_, ?_, ?_, ?_, ?_⟩
  · intro j hj
    change (update s.states i _ j).complete = true
    change j < s.head at hj
    rw [hn j (by omega)]
    exact h.before j hj
  · intro j hj hlt
    change (update s.states i _ j).sink = .output
    change j ≤ s.head at hj
    by_cases hji : j = i
    · subst hji
      have hout := h.direct j hj hlt
      rw [update_self]
      simp [InputState.wrote, hout, Sink.add]
    · rw [hn j hji]
      exact h.direct j hj hlt
  · intro j hj hlt
    change Spilled c j (update s.states i _ j)
    change s.head < j at hj
    by_cases hji : j = i
    · subst hji
      have hold := h.spilled j hj hlt
      rw [update_self]
      cases hs : (s.states j).sink with
      | pending =>
        simp only [Spilled, hs] at hold
        simp only [Spilled, InputState.wrote, hs, Sink.add]
        refine ⟨?_, hopen, Nat.succ_pos _⟩
        rw [members_succ hbatch, hold]
        simp [members]
      | spill content =>
        simp only [Spilled, hs] at hold
        simp [Spilled, InputState.wrote, hs, Sink.add, hopen, members_succ hbatch, hold.1]
      | closed content =>
        simp only [Spilled, hs, hopen] at hold
        exact absurd hold.2 (by simp)
      | output => exact absurd (hsink.mp hs) (by omega)
    · rw [hn j hji]
      exact h.spilled j hj hlt
  · change (if (s.states i).sink = .output then s.out ++ b.member else s.out) =
      allMembers c s.head ++ members c s.head
        (update s.states i ((s.states i).wrote (before ++ after) b) s.head).next
    by_cases hih : i = s.head
    · rw [if_pos (hsink.mpr hih), h.out]
      subst hih
      rw [update_self, append_assoc, ← members_succ hbatch]
      rfl
    · rw [if_neg fun hs => hih (hsink.mp hs), hn s.head (Ne.symm hih)]
      exact h.out
  · change (if (s.states i).sink = .output then s.total + b.changes else s.total) =
      allChanges c s.head + Batch.sumChanges ((c.batches s.head).take
        (update s.states i ((s.states i).wrote (before ++ after) b) s.head).next)
    by_cases hih : i = s.head
    · rw [if_pos (hsink.mpr hih), h.total]
      subst hih
      rw [update_self]
      simp only [InputState.wrote]
      rw [take_add_one, hbatch]
      simp [Batch.sumChanges, Nat.add_assoc]
    · rw [if_neg fun hs => hih (hsink.mp hs), hn s.head (Ne.symm hih)]
      exact h.total
  · refine nodup_append.mpr ⟨h.once, nodup_singleton _, ?_⟩
    rintro a ha x hx rfl
    rw [mem_singleton.mp hx] at ha
    exact absurd ((h.written _ _).mp ha) (Nat.lt_irrefl _)
  · intro j k
    change (j, k) ∈ s.writes ++ [(i, (s.states i).next)] ↔
      k < (update s.states i ((s.states i).wrote (before ++ after) b) j).next
    rw [mem_append, mem_singleton, h.written j k, Prod.mk.injEq]
    by_cases hji : j = i
    · subst hji
      rw [update_self]
      simp only [InputState.wrote, true_and]
      exact Nat.lt_succ_iff_lt_or_eq.symm
    · rw [hn j hji]
      simp [hji]
  · intro hone
    obtain ⟨hactive, hpending⟩ := h.alone hone
    refine ⟨hactive, fun j hj hlt => ?_⟩
    change s.head < j at hj
    have hih := hactive i (.inl hphase)
    change (update s.states i _ j).sink = .pending
    rw [hn j (by omega)]
    exact hpending j hj hlt
  · intro total ht
    change s.phase = .finished total at ht
    rw [hphase] at ht
    cases ht
  · exact h.kept

/-- Nothing but the phase changes. -/
theorem Sinks.withPhase (h : Sinks c s) {phase : Phase}
    (hactive : c.readers = 1 → ∀ j, phase = .draining j ∨ phase = .closing j → j = s.head)
    (hended : ∀ total, phase = .finished total → s.head = c.count ∧ total = s.total)
    (hkept : ∀ fault, phase ≠ .failed fault) : Sinks c { s with phase := phase } :=
  { h with
    alone := fun hone => ⟨hactive hone, (h.alone hone).2⟩
    ended := hended
    kept := hkept }

lemma Spilled.closed {i : Nat} {st : InputState} (h : Spilled c i st) :
    Spilled c i (st.closed false) := by
  cases hs : st.sink with
  | pending => simpa [Spilled, InputState.closed, Sink.shut, hs] using h
  | spill | closed =>
    simp only [Spilled, hs] at h
    simp [Spilled, InputState.closed, Sink.shut, hs, h.1]
  | output => simp [Spilled, hs] at h

/-- What a sink holds of an input that is not the head. -/
theorem Spilled.content_eq (h : Spilled c i st) : st.sink.content = members c i st.next := by
  cases hs : st.sink with
  | pending =>
    simp only [Spilled, hs] at h
    simp [Sink.content, h, members]
  | spill | closed =>
    simp only [Spilled, hs] at h
    exact h.1
  | output => simp [Spilled, hs] at h

/-- All of the head is written, so what was written is all up to the next input. -/
theorem head_done (hf : Flight c s) (h : Sinks c s) (hhead : s.head < c.count)
    (hdone : (s.states s.head).batches = some (s.states s.head).next) :
    s.out = allMembers c (s.head + 1) ∧ s.total = allChanges c (s.head + 1) := by
  obtain ⟨hnext, -⟩ := (hf.inputs s.head).all hdone
  constructor
  · rw [h.out, hnext, allMembers_succ hhead]
  · rw [h.total, hnext, take_length, allChanges_succ hhead]

lemma sinks_advance (hf : Flight c s) (hc : Calm c s) (h : Sinks c s)
    (hphase : s.phase = .looping) (hnext : s.head + 1 < c.count)
    (hdone : (s.states s.head).batches = some (s.states s.head).next) :
    Sinks c
      { s.setInput (s.head + 1) { s.states (s.head + 1) with sink := .output } with
        head := s.head + 1
        total := s.total + (s.states (s.head + 1)).changes
        out := s.out ++ (s.states (s.head + 1)).sink.content } := by
  obtain ⟨hout, htotal⟩ := head_done hf h (by omega) hdone
  have hcomplete := hc.settled s.head (by simp [hphase]) (by simp [hphase]) hdone
  have hspilled := h.spilled (s.head + 1) (Nat.lt_succ_self _) hnext
  have hkeep : ∀ j, j ≠ s.head + 1 → update s.states (s.head + 1)
      { s.states (s.head + 1) with sink := .output } j = s.states j :=
    fun j hj => update_of_ne hj _ _
  have hn := @update_keeps _ _ s.states (s.head + 1)
    { s.states (s.head + 1) with sink := .output } InputState.next rfl
  refine ⟨Nat.le_of_lt hnext, ?_, ?_, ?_, ?_, ?_, h.once, ?_, ?_, ?_, ?_⟩
  · intro j hj
    change j < s.head + 1 at hj
    change (update s.states (s.head + 1) _ j).complete = true
    rw [hkeep j (by omega)]
    by_cases hjh : j = s.head
    · rw [hjh]
      exact hcomplete
    · exact h.before j (by omega)
  · intro j hj hlt
    change j ≤ s.head + 1 at hj
    change (update s.states (s.head + 1) _ j).sink = .output
    by_cases hjh : j = s.head + 1
    · rw [hjh, update_self]
    · rw [hkeep j hjh]
      exact h.direct j (by omega) hlt
  · intro j hj hlt
    change s.head + 1 < j at hj
    change Spilled c j (update s.states (s.head + 1) _ j)
    rw [hkeep j (by omega)]
    exact h.spilled j (by omega) hlt
  · change s.out ++ (s.states (s.head + 1)).sink.content = allMembers c (s.head + 1) ++
      members c (s.head + 1) (update s.states (s.head + 1) _ (s.head + 1)).next
    rw [hn, hout, hspilled.content_eq]
  · change s.total + (s.states (s.head + 1)).changes = allChanges c (s.head + 1) +
      Batch.sumChanges ((c.batches (s.head + 1)).take
        (update s.states (s.head + 1) _ (s.head + 1)).next)
    rw [hn, htotal, (hf.inputs (s.head + 1)).changes]
  · intro j k
    change (j, k) ∈ s.writes ↔ k < (update s.states (s.head + 1) _ j).next
    rw [hn]
    exact h.written j k
  · intro hone
    refine ⟨fun j hj => ?_, fun j hj hlt => ?_⟩
    · change s.phase = .draining j ∨ s.phase = .closing j at hj
      rw [hphase] at hj
      rcases hj with hj | hj <;> cases hj
    · change s.head + 1 < j at hj
      change (update s.states (s.head + 1) _ j).sink = .pending
      rw [hkeep j (by omega)]
      exact (h.alone hone).2 j (by omega) hlt
  · intro total ht
    change s.phase = .finished total at ht
    rw [hphase] at ht
    cases ht
  · exact h.kept

lemma sinks_advanceLast (hf : Flight c s) (hc : Calm c s) (h : Sinks c s)
    (hphase : s.phase = .looping) (hlast : s.head + 1 = c.count)
    (hdone : (s.states s.head).batches = some (s.states s.head).next) :
    Sinks c { s with head := s.head + 1 } := by
  obtain ⟨hout, htotal⟩ := head_done hf h (by omega) hdone
  have hcomplete := hc.settled s.head (by simp [hphase]) (by simp [hphase]) hdone
  have hnil : c.batches (s.head + 1) = [] := batches_ge c (Nat.le_of_eq hlast.symm)
  refine ⟨Nat.le_of_eq hlast, ?_, ?_, ?_, ?_, ?_, h.once, h.written, ?_, ?_, h.kept⟩
  · intro j hj
    change j < s.head + 1 at hj
    by_cases hjh : j = s.head
    · rw [hjh]
      exact hcomplete
    · exact h.before j (by omega)
  · intro j hj hlt
    exact h.direct j (by omega) hlt
  · intro j hj hlt
    change s.head + 1 < j at hj
    omega
  · simp only [hout, members, hnil, take_nil, flatMap_nil, append_nil]
  · simp only [htotal, hnil, take_nil, Batch.sumChanges, map_nil, sum_nil,
      Nat.add_zero]
  · intro hone
    refine ⟨fun j hj => ?_, fun j hj hlt => ?_⟩
    · change s.phase = .draining j ∨ s.phase = .closing j at hj
      rw [hphase] at hj
      rcases hj with hj | hj <;> cases hj
    · change s.head + 1 < j at hj
      omega
  · intro total ht
    change s.phase = .finished total at ht
    rw [hphase] at ht
    cases ht

lemma closed_direct {isHead : Bool} (h : st.sink = .output) :
    (st.closed isHead).sink = .output := by
  cases isHead <;> simp [InputState.closed, h, Sink.shut]

lemma sinks_move (hf : Flight c s) (hs : Slots c s) (hc : Calm c s) (h : Sinks c s)
    (hstep : Move c s t) : Sinks c t := by
  have hclosed : ∀ i, s.head < i → i < c.count →
      Spilled c i ((s.states i).closed (i == s.head)) := by
    intro i hlt hi
    have hne : (i == s.head) = false := by simp; omega
    rw [hne]
    exact (h.spilled i hlt hi).closed
  have hpending : ∀ i, c.readers = 1 → s.head < i → i < c.count →
      ((s.states i).closed (i == s.head)).sink = .pending := by
    intro i hone hlt hi
    have := (h.alone hone).2 i hlt hi
    simp [InputState.closed, this, Sink.shut]
  cases hstep with
  | spawn hphase hlt => exact { h with }
  | spawned | keep => exact h.withPhase (by simp) (by simp) (by simp)
  | advance hphase hnext hdone => exact sinks_advance hf hc h hphase hnext hdone
  | advanceLast hphase hlast hdone => exact sinks_advanceLast hf hc h hphase hlast hdone
  | finish hphase hhead =>
    refine h.withPhase (by simp) (fun total ht => ?_) (by simp)
    have hle := h.head_le
    exact ⟨by omega, (Phase.finished.inj ht).symm⟩
  | recvMember i seq b rest hphase hhead hdone hqueue =>
    obtain ⟨-, hhi, -, -⟩ := hf.front hqueue
    have hi : s.readers i ≠ .idle := by
      intro hidle
      rw [spawned, hidle] at hhi
      exact absurd hhi (Nat.not_lt_zero _)
    refine h.setInput rfl rfl rfl rfl rfl (fun hc => hc) rfl (fun ho => ho) (h.spilled i)
      (fun hone => (h.alone hone).2 i) (fun hone j hj => ?_) (by simp) (by simp)
    have hij : i = j := by
      rcases hj with hj | hj <;> cases hj
      rfl
    rw [← hij]
    exact message_from_head hf hs h hphase hhead hdone hi (front_incomplete hf hqueue) hone
  | recvDone i n rest hphase hhead hdone hqueue =>
    obtain ⟨-, hreader, -, -, -⟩ := hf.frontDone hqueue
    refine h.setInput rfl rfl rfl rfl rfl (fun hc => hc) rfl (fun ho => ho) (h.spilled i)
      (fun hone => (h.alone hone).2 i) (fun hone j hj => ?_) (by simp) (by simp)
    have hij : i = j := by
      rcases hj with hj | hj <;> cases hj
      rfl
    rw [← hij]
    exact message_from_head hf hs h hphase hhead hdone (by simp [hreader])
      (frontDone_incomplete hf hqueue) hone
  | drain i b before after hphase hwaiting =>
    exact h.write hf (hc.active i (.inl hphase)) hphase hwaiting
  | drained i hphase hwaiting =>
    refine h.withPhase (fun hone j hj => ?_) (by simp) (by simp)
    rcases hj with hj | hj <;> cases hj
    exact (h.alone hone).1 i (.inl hphase)
  | close i | closeSpawn i =>
    exact h.setInput rfl rfl rfl rfl rfl (fun _ => rfl) rfl closed_direct (hclosed i) (hpending i)
      (by simp) (by simp) (by simp)

structure Sound (c : Config) (s : State) : Prop where
  flight : Flight c s
  ledger : Ledger c s
  slots : Slots c s
  calm : Calm c s
  sinks : Sinks c s

lemma sound_start (c : Config) : Sound c start where
  flight := flight_start c
  ledger := ledger_start c
  slots := slots_start c
  calm := calm_start c
  sinks := sinks_start c

lemma readers_eq_one (h : c.count ≤ 1) : c.readers = 1 := by
  unfold Config.readers
  omega

/-- A run that was accepted without a scratch directory has one slot. -/
theorem one_reader_of_accepted (haccepted : c.accepted = true) (h : c.scratch = false) :
    c.readers = 1 := by
  have hwrites : streamWritesScratch c.count c.parallelism = false := by
    simpa [Config.accepted, h] using haccepted
  by_cases hcount : c.count ≤ 1
  · exact readers_eq_one hcount
  · have hfixed : c.parallelism.cap = some 1 := by
      have : 1 < c.count := by omega
      simpa [streamWritesScratch, this] using hwrites
    simp [Config.readers, Parallelism.resolve, hfixed]

lemma closeIfComplete_eq
    (h : ¬ ((s.states i).complete = true ∨ (s.states i).batches ≠ some (s.states i).next)) :
    closeIfComplete c s i =
      if s.started < c.count then
        (s.setInput i ((s.states i).closed (i == s.head))).spawnReader
      else s.setInput i ((s.states i).closed (i == s.head)) := by
  by_cases hih : i = s.head
  · have hhead : (i == s.head) = true := by simp [hih]
    simp only [closeIfComplete, if_neg h, if_pos hih, hhead]
    rfl
  · have hhead : (i == s.head) = false := by simp [hih]
    cases hs : (s.states i).sink <;>
      simp only [closeIfComplete, if_neg h, if_neg hih, hhead, hs, InputState.closed, Sink.shut] <;>
      rfl

/-- The protocol is kept: none of the coordinator's error branches is taken. -/
theorem coordinator_cases (haccepted : c.accepted = true) (h : Sound c s)
    (hstep : CoordinatorStep c s t) : Move c s t := by
  have hsolo : c.scratch = true ∨ c.readers = 1 := by
    cases hscratch : c.scratch with
    | true => exact .inl rfl
    | false => exact .inr (one_reader_of_accepted haccepted hscratch)
  cases hstep with
  | spawn hphase hlt => exact .spawn hphase hlt
  | spawned hphase hge => exact .spawned hphase hge
  | advance hphase hhead hdone =>
    by_cases hnext : s.head + 1 < c.count
    · rw [advanceHead_eq hnext (hsolo.imp_right fun hone =>
        (h.sinks.alone hone).2 (s.head + 1) (Nat.lt_succ_self _) hnext)]
      exact .advance hphase hnext hdone
    · have hlast : advanceHead c s = { s with head := s.head + 1 } := by
        simp [advanceHead, hnext]
      rw [hlast]
      exact .advanceLast hphase (by omega) hdone
  | finish hphase hhead => exact .finish hphase hhead
  | recvMember i seq b rest hphase hhead hdone hqueue hseq hbeyond hfresh =>
    exact .recvMember i seq b rest hphase hhead hdone hqueue
  | refuseMember i seq b rest hphase hhead hdone hqueue hbad =>
    obtain ⟨hlo, hhi, hfree, -⟩ := h.flight.front hqueue
    rcases hbad with hlt | ⟨n, hn, hle⟩ | ⟨x, hx, hseq⟩
    · omega
    · obtain ⟨hlen, hreader⟩ := (h.flight.inputs i).count n hn
      rw [spawned, hreader] at hhi
      simp only [Reader.spawned] at hhi
      omega
    · exact absurd hseq (hfree x hx)
  | recvDone i n rest hphase hhead hdone hqueue hnone hnext hwaiting =>
    exact .recvDone i n rest hphase hhead hdone hqueue
  | refuseDone i n rest hphase hhead hdone hqueue hbad =>
    obtain ⟨-, -, hnone, hnext, hwaiting⟩ := h.flight.frontDone hqueue
    rcases hbad with hsome | hlt | ⟨x, hx, hle⟩
    · exact absurd hnone hsome
    · omega
    · have := hwaiting x hx
      omega
  | drain i b before after hphase hwaiting =>
    have hi := h.calm.active i (.inl hphase)
    have hmem : ((s.states i).next, b) ∈ (s.states i).waiting := by simp [hwaiting]
    have hhi := ((h.flight.inputs i).waiting _ hmem).2.1
    -- A closed spill file is that of a complete input, and this one has a member to write.
    have hclosed : ∀ content, (s.states i).sink ≠ .closed content := by
      intro content hsink
      have hcomplete : (s.states i).complete = true := by
        by_cases hlt : s.head < i
        · have := h.sinks.spilled i hlt hi
          simp only [Spilled, hsink] at this
          exact this.2
        · have := h.sinks.direct i (by omega) hi
          rw [hsink] at this
          cases this
      obtain ⟨hnext, hreader⟩ :=
        (h.flight.inputs i).all ((h.flight.inputs i).complete hcomplete)
      rw [hreader] at hhi
      simp only [Reader.spawned] at hhi
      omega
    have hscratch : (s.states i).sink = .pending → c.scratch = true := by
      intro hsink
      refine hsolo.resolve_right fun hone => ?_
      have hih := (h.sinks.alone hone).1 i (.inl hphase)
      have := h.sinks.direct i (by omega) hi
      rw [hsink] at this
      cases this
    rw [writeMember_eq hclosed hscratch]
    exact .drain i b before after hphase hwaiting
  | drained i hphase hwaiting => exact .drained i hphase hwaiting
  | close i hphase =>
    by_cases hopen : (s.states i).complete = true ∨
        (s.states i).batches ≠ some (s.states i).next
    · have hsame : closeIfComplete c s i = s := by simp [closeIfComplete, hopen]
      rw [hsame]
      exact .keep i hphase hopen
    · have hincomplete : (s.states i).complete = false := by
        simpa using fun hc => hopen (.inl hc)
      have hdone : (s.states i).batches = some (s.states i).next := by
        by_contra hne
        exact hopen (.inr hne)
      rw [closeIfComplete_eq hopen]
      split
      · next hmore => exact .closeSpawn i hphase hincomplete hdone hmore
      · next hmore => exact .close i hphase hincomplete hdone hmore

lemma sound_step (haccepted : c.accepted = true) (h : Sound c s) (hstep : Step c s t) :
    Sound c t := by
  cases hstep with
  | reader hr =>
    exact ⟨flight_reader h.flight hr, ledger_reader h.flight h.slots.lt_count h.ledger hr,
      slots_reader h.slots hr, calm_reader h.calm hr, sinks_reader h.sinks hr⟩
  | job hj =>
    exact ⟨flight_job h.flight hj, ledger_job h.ledger hj, slots_job h.slots hj,
      calm_job h.calm hj, sinks_job h.sinks hj⟩
  | coordinator hco =>
    have hmove := coordinator_cases haccepted h hco
    exact ⟨flight_move h.flight h.slots.idle hmove,
      ledger_move h.flight h.slots.idle h.slots.lt_count h.ledger hmove,
      slots_move (fun i hi => h.calm.active i (.inr hi)) h.slots hmove,
      calm_move h.flight h.slots h.calm hmove, sinks_move h.flight h.slots h.calm h.sinks hmove⟩

lemma sound_of_reachable (haccepted : c.accepted = true) (h : Reachable c s) : Sound c s := by
  induction h with
  | refl => exact sound_start c
  | tail hrun hstep ih => exact sound_step haccepted ih hstep

end MergeStream
