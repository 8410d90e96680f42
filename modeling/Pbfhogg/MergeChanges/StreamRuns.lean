import Pbfhogg.MergeChanges.StreamSinks

/-!
# Runs of the streaming merge

No reachable state is stuck before the end, and what the protocol promises in every one.
-/

namespace MergeStream

open Indexed List

variable {c : Config} {s t : State}

def Sink.isOpen : Sink → Bool
  | .spill _ => true
  | _ => false

def openSpills (c : Config) (s : State) : Nat :=
  ∑ i ∈ Finset.range c.count, if (s.states i).sink.isOpen = true then 1 else 0

/-- An open spill file is that of an input that was started and is not complete. -/
theorem open_incomplete (h : Sound c s) {i : Nat} (hi : i < c.count)
    (hopen : (s.states i).sink.isOpen = true) : (s.states i).complete = false ∧ i < s.started := by
  cases hs : (s.states i).sink with
  | spill content =>
    have hlt : s.head < i := by
      by_contra hle
      have := h.sinks.direct i (by omega) hi
      rw [hs] at this
      cases this
    have hspilled := h.sinks.spilled i hlt hi
    simp only [Spilled, hs] at hspilled
    refine ⟨hspilled.2.1, ?_⟩
    by_contra hle
    have hnext := (h.flight.inputs i).next_le
    rw [(h.slots.idle i).mpr (by omega)] at hnext
    simp only [Reader.spawned] at hnext
    omega
  | pending | closed | output => simp [hs, Sink.isOpen] at hopen

/-- No more spill files are open than there are reader slots. -/
theorem openSpills_le (h : Sound c s) : openSpills c s ≤ c.readers := by
  have hsum : openSpills c s + completeCount c s ≤ s.started := by
    rw [← sum_range_lt h.slots.started_le, openSpills, completeCount, ← Finset.sum_add_distrib]
    refine Finset.sum_le_sum fun i hi => ?_
    by_cases hopen : (s.states i).sink.isOpen = true
    · obtain ⟨hc, hlt⟩ := open_incomplete h (Finset.mem_range.mp hi) hopen
      simp [hopen, hc, hlt]
    · by_cases hc : (s.states i).complete = true
      · simp [hopen, hc, complete_started h.flight h.slots hc]
      · simp [hopen, hc]
  by_cases hphase : s.phase = .starting
  · obtain ⟨hle, hzero⟩ := h.slots.starting hphase
    omega
  · have := h.slots.started hphase
    omega

/-- Between two messages, with none in the channel, a batch on its way has a job that can answer. -/
theorem job_step (h : Sound c s) (hphase : s.phase = .looping) (hqueue : s.queue = []) {i : Nat}
    (hlt : (s.states i).next < spawned c s i) : ∃ t, Step c s t := by
  rcases h.flight.complete i _ (Nat.le_refl _) hlt with hmem | ⟨b, hb⟩
  · have hjob : (i, (s.states i).next) ∈ s.jobs.map fun x => (x.1, x.2.1) := by
      simpa [flight, hqueue] using hmem
    obtain ⟨⟨i', k, b⟩, hx, -⟩ := mem_map.mp hjob
    obtain ⟨before, after, hjobs⟩ := append_of_mem hx
    exact ⟨_, .job (.encode i' k b before after hjobs)⟩
  · exact absurd rfl (h.calm.undrained i (by simp [hphase]) _ hb)

/-- A reader with credit spawns the job of its batch. -/
theorem spawn_step (h : Sound c s) {i k : Nat} (hreader : s.readers i = .acquired k) :
    ∃ t, Step c s t := by
  have hle := (h.flight.inputs i).sealed_le
  rw [hreader] at hle
  have hlt : k < (c.batches i).length := hle
  exact ⟨_, .reader (.spawn i k _ hreader (getElem?_eq_getElem hlt))⟩

/-- Credit that is out comes back: its batch has a reader or a job to move it. -/
theorem credit_step (h : Sound c s) (hphase : s.phase = .looping) (hqueue : s.queue = [])
    (hused : s.used ≠ 0) : ∃ t, Step c s t := by
  have howed : ∃ i, owed c s i ≠ [] := by
    by_contra hnone
    push Not at hnone
    apply hused
    rw [h.ledger.used]
    simp [hnone, Batch.sumCredit]
  obtain ⟨i, hi⟩ := howed
  have hlt : (s.states i).next < sealed c s i := by
    by_contra hle
    apply hi
    apply drop_eq_nil_of_le
    rw [length_take]
    omega
  by_cases hspawned : (s.states i).next < spawned c s i
  · exact job_step h hphase hqueue hspawned
  · -- Only a reader that has not spawned its job has sealed more than it has spawned.
    cases hreader : s.readers i with
    | acquired k => exact spawn_step h hreader
    | idle =>
      rw [sealed, hreader] at hlt
      exact absurd hlt (Nat.not_lt_zero _)
    | reading | done =>
      rw [sealed, hreader] at hlt
      rw [spawned, hreader] at hspawned
      exact absurd hlt hspawned

/-- A message in the channel is taken. -/
theorem message_step (h : Sound c s) (hphase : s.phase = .looping) (hhead : s.head < c.count)
    (hdone : (s.states s.head).batches ≠ some (s.states s.head).next) {msg : Msg}
    {rest : List Msg} (hqueue : s.queue = msg :: rest) : ∃ t, Step c s t := by
  cases msg with
  | member i seq b =>
    obtain ⟨hlo, hhi, hfree, -⟩ := h.flight.front hqueue
    refine ⟨_, .coordinator (.recvMember i seq b rest hphase hhead hdone hqueue hlo ?_ hfree)⟩
    intro n hn
    obtain ⟨hlen, hreader⟩ := (h.flight.inputs i).count n hn
    rw [spawned, hreader] at hhi
    rw [hlen]
    exact hhi
  | readerDone i n =>
    obtain ⟨-, -, hnone, hnext, hwaiting⟩ := h.flight.frontDone hqueue
    exact ⟨_, .coordinator (.recvDone i n rest hphase hhead hdone hqueue hnone hnext hwaiting)⟩

/-- The head is not complete and no message is there: its reader or a job moves. -/
theorem head_step (h : Sound c s) (hphase : s.phase = .looping) (hhead : s.head < c.count)
    (hdone : (s.states s.head).batches ≠ some (s.states s.head).next) (hqueue : s.queue = []) :
    ∃ t, Step c s t := by
  cases hreader : s.readers s.head with
  | idle =>
    have hstarted := head_started h.slots h.sinks (by simp [hphase]) hhead
    have := (h.slots.idle s.head).mp hreader
    omega
  | acquired k => exact spawn_step h hreader
  | reading k =>
    have hle := (h.flight.inputs s.head).sealed_le
    rw [hreader] at hle
    simp only [Reader.sealed] at hle
    by_cases hk : k = (c.batches s.head).length
    · exact ⟨_, .reader (.done s.head (hk ▸ hreader))⟩
    · have hlt : k < (c.batches s.head).length := by omega
      by_cases hused : s.used = 0
      · exact ⟨_, .reader (.acquire s.head k _ hreader (getElem?_eq_getElem hlt) (.inl hused))⟩
      · exact credit_step h hphase hqueue hused
  | done =>
    rcases (h.flight.done_iff s.head).mp hreader with hmem | hsome
    · simp [reports, hqueue] at hmem
    · obtain ⟨n, hn⟩ := Option.ne_none_iff_exists'.mp hsome
      have hlen := ((h.flight.inputs s.head).count n hn).1
      have hnext := (h.flight.inputs s.head).next_le
      rw [hreader] at hnext
      simp only [Reader.spawned] at hnext
      have hne : (s.states s.head).next ≠ n := fun heq => hdone (heq ▸ hn)
      refine job_step h hphase hqueue (i := s.head) ?_
      rw [spawned, hreader]
      simp only [Reader.spawned]
      omega

/-- As long as the run is not finished some thread can go on. -/
theorem not_stuck (h : Sound c s) (hunfinished : ∀ total, s.phase ≠ .finished total) :
    ∃ t, Step c s t := by
  cases hphase : s.phase with
  | starting =>
    by_cases hlt : s.started < min c.readers c.count
    · exact ⟨_, .coordinator (.spawn hphase hlt)⟩
    · exact ⟨_, .coordinator (.spawned hphase hlt)⟩
  | looping =>
    by_cases hhead : s.head < c.count
    · by_cases hdone : (s.states s.head).batches = some (s.states s.head).next
      · exact ⟨_, .coordinator (.advance hphase hhead hdone)⟩
      · cases hqueue : s.queue with
        | nil => exact head_step h hphase hhead hdone hqueue
        | cons msg rest => exact message_step h hphase hhead hdone hqueue
    · exact ⟨_, .coordinator (.finish hphase hhead)⟩
  | draining i =>
    by_cases hnext : ∃ b, ((s.states i).next, b) ∈ (s.states i).waiting
    · obtain ⟨b, hb⟩ := hnext
      obtain ⟨before, after, hwaiting⟩ := append_of_mem hb
      exact ⟨_, .coordinator (.drain i b before after hphase hwaiting)⟩
    · refine ⟨_, .coordinator (.drained i hphase fun x hx heq => hnext ⟨x.2, ?_⟩)⟩
      rw [← heq]
      exact hx
  | closing i => exact ⟨_, .coordinator (.close i hphase)⟩
  | finished total => exact absurd hphase (hunfinished total)
  | failed fault => exact absurd hphase (h.sinks.kept fault)

/-- More than the budget is out only for a batch admitted alone. -/
theorem over_budget (h : Ledger c s) (hover : c.budget < s.used) : admitted c s = 1 := by
  have hle : admitted c s ≤ 1 := h.budget.resolve_left (by omega)
  have hpos : admitted c s ≠ 0 := by
    intro hzero
    have hnil : ∀ i ∈ Finset.range c.count, owed c s i = [] := by
      intro i hi
      exact length_eq_zero_iff.mp (Finset.sum_eq_zero_iff.mp hzero i hi)
    have hused : s.used = 0 := by
      rw [h.used]
      exact Finset.sum_eq_zero fun i hi => by simp [hnil i hi, Batch.sumCredit]
    omega
  omega

lemma allMembers_count (c : Config) :
    allMembers c c.count = c.inputs.flatMap fun bs => bs.flatMap Batch.member := by
  simp [allMembers, Config.count]

lemma allChanges_count (c : Config) :
    allChanges c c.count = (c.inputs.map Batch.sumChanges).sum := by
  simp [allChanges, Config.count]

/-- In every reachable state: the ledger holds the credit of the batches admitted and not written,
over the budget only for one alone; no error branch is taken; each member is written once, and the
output is in order when the run ends; with one slot nothing spills; no more spill files are open
than slots; and some thread can go on. -/
theorem stream_protocol_kept (c : Config) (haccepted : c.accepted = true) {s : State}
    (hs : Reachable c s) : s.used = ∑ i ∈ Finset.range c.count, Batch.sumCredit (owed c s i) ∧
      (c.budget < s.used → admitted c s = 1) ∧ (∀ fault, s.phase ≠ .failed fault) ∧ s.writes.Nodup ∧
      (∀ i k, (i, k) ∈ s.writes ↔ k < (s.states i).next) ∧
      (∀ i < c.count, (i ≤ s.head → (s.states i).sink = .output) ∧
        (s.head < i → (s.states i).sink.content = members c i (s.states i).next)) ∧
      s.out = allMembers c s.head ++ members c s.head (s.states s.head).next ∧
      (∀ total, s.phase = .finished total →
        s.out = (c.inputs.flatMap fun bs => bs.flatMap Batch.member) ∧
          total = (c.inputs.map Batch.sumChanges).sum) ∧
      (c.count ≤ 1 ∨ c.readers = 1 → ∀ i < c.count,
        (s.states i).sink = .pending ∨ (s.states i).sink = .output) ∧ openSpills c s ≤ c.readers ∧
      ((∀ total, s.phase ≠ .finished total) → ∃ t, Step c s t) := by
  have h := sound_of_reachable haccepted hs
  refine ⟨h.ledger.used, over_budget h.ledger, h.sinks.kept, h.sinks.once, h.sinks.written, ?_,
    h.sinks.out, ?_, ?_, openSpills_le h, not_stuck h⟩
  · intro i hi
    exact ⟨fun hle => h.sinks.direct i hle hi, fun hlt => (h.sinks.spilled i hlt hi).content_eq⟩
  · intro total hphase
    obtain ⟨hhead, htotal⟩ := h.sinks.ended total hphase
    have hnil : c.batches c.count = [] := batches_ge c (Nat.le_refl _)
    have hout := h.sinks.out
    have hsum := h.sinks.total
    rw [hhead] at hout hsum
    rw [htotal]
    constructor
    · rw [hout, allMembers_count]
      simp [members, hnil]
    · rw [hsum, allChanges_count]
      simp [hnil, Batch.sumChanges]
  · intro hsolo i hi
    have hone : c.readers = 1 := hsolo.elim readers_eq_one id
    by_cases hlt : s.head < i
    · exact .inl ((h.sinks.alone hone).2 i hlt hi)
    · exact .inr (h.sinks.direct i (by omega) hi)

/-- Two inputs of one batch each, on two readers and with no budget to spare. -/
def twoInputs : Config where
  inputs := [[⟨3, [97], 1⟩], [⟨2, [98], 2⟩]]
  parallelism := .fixed 2 Nat.two_pos
  autoWorkers := 1
  scratch := true
  budget := 0

/-- The second input is read and spilled before the first, and copied behind it. -/
theorem twoInputs_run : ∃ s, Reachable twoInputs s ∧ s.phase = .finished 3 := by
  have h0 : Reachable twoInputs start := .refl
  have h1 := h0.tail (.coordinator (.spawn rfl (by decide)))
  have h2 := h1.tail (.coordinator (.spawn rfl (by decide)))
  have h3 := h2.tail (.coordinator (.spawned rfl (by decide)))
  have h4 := h3.tail (.reader (.acquire 1 0 ⟨2, [98], 2⟩ rfl rfl (.inl rfl)))
  have h5 := h4.tail (.reader (.spawn 1 0 ⟨2, [98], 2⟩ rfl rfl))
  have h6 := h5.tail (.job (.encode 1 0 ⟨2, [98], 2⟩ [] [] rfl))
  have h7 := h6.tail (.coordinator (.recvMember 1 0 ⟨2, [98], 2⟩ [] rfl (by decide)
    (by simp [start, State.spawnReader, State.setReader, InputState.new]) rfl (Nat.zero_le _)
    (fun n hn => by cases hn) (fun x hx => by cases hx)))
  have h8 := h7.tail (.coordinator (.drain 1 ⟨2, [98], 2⟩ [] [] rfl rfl))
  have h9 := h8.tail (.coordinator (.drained 1 rfl (fun x hx => by cases hx)))
  have h10 := h9.tail (.coordinator (.close 1 rfl))
  have h11 := h10.tail (.reader (.done 1 rfl))
  have h12 := h11.tail (.coordinator (.recvDone 1 1 [] rfl (by decide)
    (fun hd => by cases hd) rfl rfl (Nat.le_refl _) (fun x hx => by cases hx)))
  have h13 := h12.tail (.coordinator (.close 1 rfl))
  have h14 := h13.tail (.reader (.acquire 0 0 ⟨3, [97], 1⟩ rfl rfl (.inl rfl)))
  have h15 := h14.tail (.reader (.spawn 0 0 ⟨3, [97], 1⟩ rfl rfl))
  have h16 := h15.tail (.job (.encode 0 0 ⟨3, [97], 1⟩ [] [] rfl))
  have h17 := h16.tail (.coordinator (.recvMember 0 0 ⟨3, [97], 1⟩ [] rfl (by decide)
    (fun hd => by cases hd) rfl (Nat.zero_le _) (fun n hn => by cases hn) (fun x hx => by cases hx)))
  have h18 := h17.tail (.coordinator (.drain 0 ⟨3, [97], 1⟩ [] [] rfl rfl))
  have h19 := h18.tail (.coordinator (.drained 0 rfl (fun x hx => by cases hx)))
  have h20 := h19.tail (.coordinator (.close 0 rfl))
  have h21 := h20.tail (.reader (.done 0 rfl))
  have h22 := h21.tail (.coordinator (.recvDone 0 1 [] rfl (by decide)
    (fun hd => by cases hd) rfl rfl (Nat.le_refl _) (fun x hx => by cases hx)))
  have h23 := h22.tail (.coordinator (.close 0 rfl))
  have h24 := h23.tail (.coordinator (.advance rfl (by decide) rfl))
  have h25 := h24.tail (.coordinator (.advance rfl (by decide) rfl))
  have h26 := h25.tail (.coordinator (.finish rfl (by decide)))
  exact ⟨_, h26, rfl⟩

theorem twoInputs_merged : ∃ s, Reachable twoInputs s ∧ s.phase = .finished 3 ∧
    s.out = [97, 98] ∧ openSpills twoInputs s ≤ 2 := by
  obtain ⟨s, hs, hphase⟩ := twoInputs_run
  have hall := stream_protocol_kept twoInputs (by decide) hs
  exact ⟨s, hs, hphase, (hall.2.2.2.2.2.2.2.1 3 hphase).1, hall.2.2.2.2.2.2.2.2.2.1⟩

end MergeStream
