import Pbfhogg.Pool.UnorderedRuns
import Pbfhogg.Pool.AccumulateRuns

/-!
# No partial result is a success

What both pools without a sequence promise, over every interleaving: no position twice, no return
without an error unless the work is whole, and no way to get stuck.
-/

namespace PoolCompletion

variable {L R E S F : Type}

theorem pools_never_partial (cfg : UnorderedPool.Config L R E) (acc : AccumulatePool.Config S F) :
    ((∀ s, UnorderedPool.Reachable cfg s → UnorderedPool.MergesOwn cfg s ∧
        ((∃ o, UnorderedPool.Terminated cfg s o) ∨ ∃ t, UnorderedPool.Act cfg s t)) ∧
      ∀ s, UnorderedPool.Returns cfg s .ok →
        UnorderedPool.MergedAll cfg s ∨ UnorderedPool.Broke cfg s) ∧
    (∀ s, AccumulatePool.Reachable acc s → AccumulatePool.GivenOnce s ∧
        ((∃ o, AccumulatePool.Terminated acc s o) ∨ ∃ t, AccumulatePool.Act acc s t)) ∧
    (∀ s, AccumulatePool.Returns acc s (.returned (.ok ())) → AccumulatePool.MergedAll acc s) ∧
    ∀ s o, AccumulatePool.Returns acc s o → AccumulatePool.StopReported acc s o := by
  refine ⟨⟨?_, ?_⟩, ?_, ?_, ?_⟩
  · intro s hs
    exact ⟨hs.merges_own, hs.ended_or_acts⟩
  · intro s hs
    exact hs.ok_complete
  · intro s hs
    exact ⟨hs.given_once, hs.ended_or_acts⟩
  · intro s hs
    exact hs.ok_complete
  · intro s o hs
    exact hs.stop_reported

/-- One blob that succeeds. -/
def oneBlob : UnorderedPool.Config Unit Nat String where
  nPositions := 1
  threads := 1
  threads_pos := Nat.one_pos
  locals := ()
  work := fun _ p => ((), .ok p)
  breaks := fun _ _ _ => false

/-- Two blobs, the second of which fails. -/
def secondFails : AccumulatePool.Config Nat String where
  nPositions := 2
  threads := 2
  threads_pos := Nat.two_pos
  workerInit := 0
  work := fun a p => if p = 1 then (a, .error "bad blob") else (a + 1, .ok)

section Witness

variable {s t : UnorderedPool.State Unit Nat String}

lemma unordered_worker (h : UnorderedPool.Reachable oneBlob s)
    (hstep : UnorderedPool.WorkerStep oneBlob s 0 t) : UnorderedPool.Reachable oneBlob t :=
  h.tail (.act t (.worker 0 Nat.zero_lt_one t hstep))

lemma unordered_consumer (h : UnorderedPool.Reachable oneBlob s)
    (hstep : UnorderedPool.ConsumerStep oneBlob s t) : UnorderedPool.Reachable oneBlob t :=
  h.tail (.act t (.consumer t hstep))

lemma unordered_dispatch {f : Feed.State} (h : UnorderedPool.Reachable oneBlob s)
    (hstep : Feed.Dispatches 1 (UnorderedPool.FeedOpen oneBlob s) s.feed f) :
    UnorderedPool.Reachable oneBlob { s with feed := f } :=
  h.tail (.act _ (.dispatch f hstep))

lemma accumulate_worker {s t : AccumulatePool.State Nat String}
    (h : AccumulatePool.Reachable secondFails s) (w : Nat) (hw : w < 2)
    (hstep : AccumulatePool.WorkerStep secondFails s w t) :
    AccumulatePool.Reachable secondFails t :=
  h.tail (.act t (.worker w hw t hstep))

lemma accumulate_consumer {s t : AccumulatePool.State Nat String}
    (h : AccumulatePool.Reachable secondFails s)
    (hstep : AccumulatePool.ConsumerStep secondFails s t) :
    AccumulatePool.Reachable secondFails t :=
  h.tail (.act t (.consumer t hstep))

lemma accumulate_dispatch {s : AccumulatePool.State Nat String} {f : Feed.State}
    (h : AccumulatePool.Reachable secondFails s)
    (hstep : Feed.Dispatches 2 (AccumulatePool.FeedOpen secondFails s) s.feed f) :
    AccumulatePool.Reachable secondFails { s with feed := f } :=
  h.tail (.act _ (.dispatch f hstep))

lemma one_worker {P : Nat → Prop} (h : P 0) : ∀ w, w < 1 → P w := by
  intro w hw
  rw [Nat.lt_one_iff.mp hw]
  exact h

lemma two_workers {P : Nat → Prop} (h0 : P 0) (h1 : P 1) : ∀ w, w < 2 → P w := by
  intro w hw
  rcases Nat.le_one_iff_eq_zero_or_eq_one.mp (Nat.le_of_lt_succ hw) with hw | hw
  · rw [hw]
    exact h0
  · rw [hw]
    exact h1

lemma oneBlob_returns : ∃ s, UnorderedPool.Returns oneBlob s .ok := by
  have h : UnorderedPool.Reachable oneBlob (UnorderedPool.start oneBlob) := .refl
  have h := unordered_dispatch h (.send 0 rfl (by decide) ⟨0, by decide, not_false⟩ (by decide))
  have h := unordered_worker h (.lock rfl rfl)
  have h := unordered_worker h (.receive 0 _ rfl (.position 0 [] rfl rfl))
  have h := unordered_worker h (.work 0 (.ok 0) rfl rfl)
  have h := unordered_worker h (.send 0 (.ok 0) rfl nofun (by decide))
  have h := unordered_dispatch h (.finish rfl)
  have h := unordered_worker h (.lock rfl rfl)
  have h := unordered_worker h (.closed _ rfl (.closed rfl rfl trivial))
  have h := unordered_consumer h (.check rfl rfl)
  have h := unordered_consumer h (.receive (0, .ok 0) [] rfl rfl)
  have h := unordered_consumer h (.accept 0 0 rfl rfl)
  have h := unordered_consumer h (.merge 0 0 rfl rfl)
  have h := unordered_consumer h (.check rfl rfl)
  have h := unordered_consumer h (.disconnect rfl rfl (one_worker trivial))
  have h := unordered_consumer h (.complete rfl rfl)
  exact ⟨_, .ran _ .ok (by decide) h
    ⟨trivial, one_worker trivial, .complete, rfl, .inr ⟨one_worker nofun, rfl⟩⟩⟩

lemma secondFails_returns :
    ∃ s, AccumulatePool.Returns secondFails s (.returned (.error (.failed "bad blob"))) ∧
      s.workers 0 = .stopped := by
  have h : AccumulatePool.Reachable secondFails (AccumulatePool.start secondFails) := .refl
  have hopen : ∀ s : AccumulatePool.State Nat String, ¬ (s.workers 0).Gone →
      AccumulatePool.FeedOpen secondFails s := fun s hs => ⟨0, by decide, hs⟩
  have h := accumulate_dispatch h (.send 0 rfl (by decide) (hopen _ not_false) (by decide))
  have h := accumulate_dispatch h (.send 1 rfl (by decide) (hopen _ not_false) (by decide))
  have h := accumulate_dispatch h (.finish rfl)
  have h := accumulate_worker h 0 (by decide) (.check rfl rfl)
  have h := accumulate_worker h 0 (by decide) (.load rfl rfl)
  have h := accumulate_worker h 0 (by decide) (.lock rfl rfl)
  have h := accumulate_worker h 0 (by decide) (.receive 0 _ rfl (.position 0 [1] rfl rfl))
  have h := accumulate_worker h 0 (by decide) (.work 0 rfl rfl)
  have h := accumulate_worker h 1 (by decide) (.check rfl rfl)
  have h := accumulate_worker h 1 (by decide) (.load rfl rfl)
  have h := accumulate_worker h 1 (by decide) (.lock rfl rfl)
  have h := accumulate_worker h 1 (by decide) (.receive 1 _ rfl (.position 1 [] rfl rfl))
  have h := accumulate_worker h 1 (by decide) (.workFails 1 "bad blob" rfl rfl)
  have h := accumulate_worker h 1 (by decide) (.raiseStop _ rfl)
  -- the other worker sees the flag before the error is even sent
  have h := accumulate_worker h 0 (by decide) (.check rfl rfl)
  have h := accumulate_worker h 0 (by decide) (.loadStop rfl rfl)
  have h := accumulate_worker h 1 (by decide) (.report _ _ rfl (.send rfl (by decide)))
  have h := accumulate_consumer h (.failure 1 _ [] rfl rfl)
  exact ⟨_, .ran _ _ (by decide) h
    ⟨trivial, two_workers trivial trivial, .error (.failed "bad blob"), rfl,
      .inr ⟨two_workers nofun nofun, rfl⟩⟩, rfl⟩

theorem pools_never_partial_small :
    (∃ s, UnorderedPool.Returns oneBlob s .ok ∧ UnorderedPool.MergedAll oneBlob s) ∧
      ∃ s, AccumulatePool.Returns secondFails s (.returned (.error (.failed "bad blob"))) ∧
        s.workers 0 = .stopped ∧
        AccumulatePool.StopReported secondFails s (.returned (.error (.failed "bad blob"))) := by
  obtain ⟨⟨-, hunordered⟩, -, -, hstop⟩ := pools_never_partial oneBlob secondFails
  obtain ⟨s, hs⟩ := oneBlob_returns
  obtain ⟨t, ht, hstopped⟩ := secondFails_returns
  refine ⟨⟨s, hs, ?_⟩, t, ht, hstopped, hstop t _ ht⟩
  rcases hunordered s hs with hall | ⟨init, p, r, -, hbreaks⟩
  · exact hall
  · cases hbreaks

end Witness

end PoolCompletion
