import Mathlib.Data.List.Perm.Subperm
import Pbfhogg.Lib.Fallible
import Pbfhogg.Pool.OrderedInvariant

/-!
# Every run of the ordered pool

Results are consumed in task order, no more than a window of tasks is admitted and unconsumed, no
push is refused, no task is lost below the first failure, and the outcome of a run that ends is the
first failure in task order.
-/

namespace OrderedPoolRuns

open OrderedPool OrderedPoolInvariant ReorderBuffer Fallible List

variable {W : Nat} {T E : Type} {cfg : Config T E} {s t : State W T E}

variable {place : Nat → Place W}

lemma cancel_inv (h : Inv cfg s place) : Inv cfg { s with cancelled := true } place :=
  { h with
    justified := by
      intro o ho
      have hj := h.justified o ho
      cases o with
      | ok u => exact hj
      | error f =>
        cases f with
        | cancelled => rfl
        | failed e => exact hj
        | undelivered _ _ => exact hj }

lemma step_inv (hW : 0 < W) (h : Inv cfg s place) (hstep : Step cfg s t) :
    ∃ place', Inv cfg t place' := by
  cases hstep with
  | worker w hstep => exact workerStep_inv h hstep
  | consumer hstep => exact consumerStep_inv hW h hstep
  | cancel ht =>
    subst ht
    exact ⟨place, cancel_inv h⟩

lemma reachable_inv (hW : 0 < W) (h : Reachable cfg s) : ∃ place, Inv cfg s place := by
  induction h with
  | refl => exact ⟨_, start_inv cfg⟩
  | tail _ hstep ih =>
    obtain ⟨place, hinv⟩ := ih
    exact step_inv hW hinv hstep

lemma reachable_worker (h : Reachable cfg s) (w : Fin W) (hstep : WorkerStep cfg s w t) :
    Reachable cfg t :=
  h.tail (.worker w hstep)

lemma reachable_consumer (h : Reachable cfg s) (hstep : ConsumerStep cfg s t) : Reachable cfg t :=
  h.tail (.consumer hstep)

/-- The consumer has returned from its loop; the gate closes and the receiver goes. -/
def Closed (s : State W T E) : Prop := (outcome s.consumer).isSome

/-- The result of a task is on its way to the consumer: with a worker, in the channel, in the
consumer's hands or in its buffer. -/
def InFlight (s : State W T E) (k : Nat) : Prop :=
  (∃ w, task (s.workers w) = some k) ∨ k ∈ s.channel.map Prod.fst ∨
    receivedTask s.consumer = some k ∨ (held s.reorder k).isSome ∨
    (popped s.consumer = true ∧ k = s.delivered)

/-- The tasks admitted and not yet consumed. -/
def outstanding (s : State W T E) : List Nat := s.admitted.filter fun k => s.gate.consumed ≤ k

lemma outstanding_length_le (h : Inv cfg s place) : (outstanding s).length ≤ cfg.window := by
  have hnodup : (outstanding s).Nodup := h.admitted_nodup.filter _
  have hsub : outstanding s ⊆ range' s.gate.consumed cfg.window := by
    intro k hk
    obtain ⟨hadm, hge⟩ := mem_filter.mp hk
    have hlt := h.admitted_lt k hadm
    rw [mem_range'_1]
    exact ⟨by simpa using hge, hlt⟩
  have hle := (hnodup.subperm hsub).length_le
  rw [length_range'] at hle
  exact hle

/-- A failed task was inside the window, so everything below it is. -/
theorem admit_below_failure (h : Inv cfg s place) {f k : Nat} (hf : f ∈ s.failures) (hk : k < f) :
    s.gate.admits k cfg.window = some (!s.gate.closed) := by
  have hlt := h.admitted_lt f (h.failures f hf).1
  unfold Gate.admits
  cases s.gate.closed with
  | true => rfl
  | false =>
    rw [if_neg (by simp), if_pos (by omega)]
    rfl

/-- A claimed task with no failure below it is consumed or on its way. -/
theorem inFlight_of_no_failure_below (h : Inv cfg s place) {k : Nat} (hclaimed : k < s.next)
    (htask : k < cfg.nTasks) (hlow : ∀ f ∈ s.failures, k ≤ f) (hopen : ¬ Closed s) :
    k < s.delivered ∨ InFlight s k := by
  cases hp : place k with
  | unclaimed =>
    have := (h.unclaimed k).mp hp
    omega
  | worker w => exact .inr (.inl ⟨w, (h.worker w k).mp hp⟩)
  | channel => exact .inr (.inr (.inl ((h.channel k).mp hp)))
  | received => exact .inr (.inr (.inr (.inl ((h.received k).mp hp))))
  | buffered => exact .inr (.inr (.inr (.inr (.inl ((h.buffered k).mp hp)))))
  | popped => exact .inr (.inr (.inr (.inr (.inr ((h.popped k).mp hp)))))
  | done => exact .inl ((h.done k).mp hp)
  | lost =>
    rcases h.lost k hp with hleft | ⟨f, hf, hlt⟩
    · exact absurd hleft hopen
    · have := hlow f hf
      omega

/-- A run that was not cancelled reports the first failure in task order. -/
theorem outcome_eq_expected (h : Inv cfg s place) {o : Outcome E} (hend : s.consumer = .left o) :
    (o = .error .cancelled ∧ s.cancelled = true) ∨ o = cfg.expected := by
  have hj := h.justified o (by rw [hend]; rfl)
  cases o with
  | ok u =>
    have hdone : s.delivered = cfg.nTasks := hj
    have hnone : (range cfg.nTasks).findSome? cfg.failAt = none := by
      rw [findSome?_eq_none_iff]
      intro j hj
      exact h.done_ok j (by rw [hdone]; exact mem_range.mp hj)
    right
    rw [Config.expected, hnone]
  | error f =>
    cases f with
    | cancelled => exact .inl ⟨rfl, hj⟩
    | failed e =>
      obtain ⟨k, hk, hlow, hfail⟩ := hj
      right
      rw [Config.expected, findSome_range_eq hk hlow hfail]
    | undelivered _ _ => exact False.elim hj

lemma log_of_ok (h : Inv cfg s place) (hend : s.consumer = .left (.ok ())) :
    s.log.map Prod.fst = range cfg.nTasks := by
  have hdone : s.delivered = cfg.nTasks := h.justified (.ok ()) (by rw [hend]; rfl)
  rw [h.log_fst, h.justified_log (by rw [hend]; rfl), hdone]

lemma expected_ok_iff : cfg.expected = .ok () ↔ ∀ k, k < cfg.nTasks → cfg.failAt k = none := by
  unfold Config.expected
  cases hf : (range cfg.nTasks).findSome? cfg.failAt with
  | none =>
    simp only [true_iff]
    intro k hk
    exact findSome?_eq_none_iff.mp hf k (mem_range.mpr hk)
  | some e =>
    simp only [reduceCtorEq, false_iff]
    intro hall
    have hnone : (range cfg.nTasks).findSome? cfg.failAt = none := by
      rw [findSome?_eq_none_iff]
      intro k hk
      exact hall k (mem_range.mp hk)
    rw [hnone] at hf
    cases hf

/-- In every state of every interleaving: `consume` got the results of tasks `0, 1, 2, ..` in order;
at most a window is admitted and unconsumed and no push is refused; once a task has failed the gate
admits everything below it while the run is open, and a claimed task with no failed one below it is
consumed or on its way; and a run that ends, unless cancelled, reports the first failure in task
order, or success when nothing fails. -/
theorem ordered_pool_protocol (hW : 0 < W) (h : Reachable cfg s) :
    (s.log.map Prod.fst = range s.log.length ∧ ∀ p ∈ s.log, cfg.work p.1 = .ok p.2) ∧
    (s.admitted.Nodup ∧ (outstanding s).length ≤ cfg.window ∧ s.pushPanic = none) ∧
    (∀ f ∈ s.failures, ∀ k, k < f → s.gate.admits k cfg.window = some (!s.gate.closed)) ∧
    (∀ k, k < s.next → k < cfg.nTasks → (∀ f ∈ s.failures, k ≤ f) → ¬ Closed s →
      k < s.delivered ∨ InFlight s k) ∧
    (∀ o, Terminated s o → (o = .error .cancelled ∧ s.cancelled = true) ∨ (o = cfg.expected ∧
        (o = .ok () ↔ ∀ k, k < cfg.nTasks → cfg.failAt k = none) ∧
        (o = .ok () → s.log.map Prod.fst = range cfg.nTasks))) := by
  obtain ⟨place, hinv⟩ := reachable_inv hW h
  refine ⟨⟨hinv.log_fst, hinv.log_work⟩,
    ⟨hinv.admitted_nodup, outstanding_length_le hinv, hinv.noPanic⟩, ?_, ?_, ?_⟩
  · intro f hf k hk
    exact admit_below_failure hinv hf hk
  · intro k hclaimed htask hlow hopen
    exact inFlight_of_no_failure_below hinv hclaimed htask hlow hopen
  · intro o hend
    rcases outcome_eq_expected hinv hend.1 with hcancelled | ho
    · exact .inl hcancelled
    refine .inr ⟨ho, ?_, ?_⟩
    · rw [ho]
      exact expected_ok_iff
    · intro hok
      rw [hok] at hend
      exact log_of_ok hinv hend.1

/-- Three tasks of which the last fails. -/
def threeTasks : Config Nat String where
  nTasks := 3
  window := 3
  window_pos := by decide
  work := fun k => if k = 2 then .error "failed" else .ok k
  beforeItem := fun _ => .ok ()
  consume := fun _ _ => .ok ()

/-- The first task ends behind both others. -/
theorem ordered_pool_protocol_three_tasks :
    ∃ s : State 2 Nat String, Reachable threeTasks s ∧ Terminated s (.error (.failed "failed")) ∧
      s.cancelled = false ∧ s.log.map Prod.fst = range 2 ∧
      (.error (.failed "failed") : Outcome String) = threeTasks.expected := by
  have h : Reachable threeTasks (start (W := 2) threeTasks) := .refl
  have h := reachable_consumer h (.spawn rfl rfl (by decide))
  have h := reachable_worker h 0 (.readRunning rfl rfl)
  have h := reachable_worker h 0 (.claim rfl (by decide))
  have h := reachable_worker h 0 (.enter 0 rfl rfl)
  have h := reachable_worker h 1 (.readRunning rfl rfl)
  have h := reachable_worker h 1 (.claim rfl (by decide))
  have h := reachable_worker h 1 (.enter 1 rfl rfl)
  have h := reachable_worker h 1 (.succeed 1 1 rfl rfl)
  have h := reachable_worker h 1 (.send 1 (.ok 1) rfl rfl (by decide))
  have h := reachable_worker h 1 (.readRunning rfl rfl)
  have h := reachable_worker h 1 (.claim rfl (by decide))
  have h := reachable_worker h 1 (.enter 2 rfl rfl)
  have h := reachable_worker h 1 (.fail 2 "failed" rfl rfl)
  have h := reachable_worker h 1 (.setStopped 2 "failed" rfl)
  have h := reachable_worker h 1 (.stopClaims 2 "failed" rfl)
  have h := reachable_worker h 1 (.send 2 (.error "failed") rfl rfl (by decide))
  have h := reachable_worker h 1 (.readStopped rfl rfl)
  have h := reachable_worker h 0 (.succeed 0 0 rfl rfl)
  have h := reachable_worker h 0 (.send 0 (.ok 0) rfl rfl (by decide))
  have h := reachable_worker h 0 (.readStopped rfl rfl)
  -- The consumer holds the results 1 and 2 until 0 is there.
  have h := reachable_consumer h (.check rfl rfl)
  have h := reachable_consumer h (.receive 1 (.ok 1) _ rfl rfl)
  have h := reachable_consumer h (.push 1 (.ok 1) _ rfl rfl rfl)
  have h := reachable_consumer h (.drained rfl rfl)
  have h := reachable_consumer h (.check rfl rfl)
  have h := reachable_consumer h (.receive 2 (.error "failed") _ rfl rfl)
  have h := reachable_consumer h (.push 2 (.error "failed") _ rfl rfl rfl)
  have h := reachable_consumer h (.drained rfl rfl)
  have h := reachable_consumer h (.check rfl rfl)
  have h := reachable_consumer h (.receive 0 (.ok 0) _ rfl rfl)
  have h := reachable_consumer h (.push 0 (.ok 0) _ rfl rfl rfl)
  have h := reachable_consumer h (.pop (.ok 0) _ rfl rfl)
  have h := reachable_consumer h (.unwrap 0 rfl rfl rfl)
  have h := reachable_consumer h (.consume 0 rfl rfl)
  have h := reachable_consumer h (.credit rfl)
  have h := reachable_consumer h (.pop (.ok 1) _ rfl rfl)
  have h := reachable_consumer h (.unwrap 1 rfl rfl rfl)
  have h := reachable_consumer h (.consume 1 rfl rfl)
  have h := reachable_consumer h (.credit rfl)
  have h := reachable_consumer h (.pop (.error "failed") _ rfl rfl)
  have h := reachable_consumer h (.resultFails "failed" rfl rfl rfl)
  have h := reachable_consumer h (.closeStopped _ rfl)
  have h := reachable_consumer h (.close _ rfl)
  have h := reachable_consumer h (.dropReceiver _ rfl)
  obtain ⟨⟨hlog, -⟩, -, -, -, hout⟩ := ordered_pool_protocol (by decide) h
  rcases hout (.error (.failed "failed")) ⟨rfl, Fin.forall_fin_two.mpr ⟨rfl, rfl⟩⟩ with
    ⟨hcancelled, -⟩ | ⟨hexp, -⟩
  · cases hcancelled
  exact ⟨_, h, ⟨rfl, Fin.forall_fin_two.mpr ⟨rfl, rfl⟩⟩, rfl, hlog, hexp⟩

/-- Five tasks behind a window of three; the third and the fifth fail. -/
def twoFailures : Config Nat String where
  nTasks := 5
  window := 3
  window_pos := by decide
  work := fun k => if k = 2 ∨ k = 4 then .error "failed" else .ok k
  beforeItem := fun _ => .ok ()
  consume := fun _ _ => .ok ()

/-- A task below a failed one can be turned away, when another failure below both came first. -/
theorem claimed_below_failure_turned_away :
    ∃ s : State 3 Nat String, Reachable twoFailures s ∧ 4 ∈ s.failures ∧ 3 < s.next ∧
      3 ∉ s.admitted ∧ (∀ w, task (s.workers w) ≠ some 3) ∧ s.gate.closed = false ∧ ¬ Closed s := by
  have h : Reachable twoFailures (start (W := 3) twoFailures) := .refl
  have h := reachable_consumer h (.spawn rfl rfl (by decide))
  have h := reachable_worker h 0 (.readRunning rfl rfl)
  have h := reachable_worker h 0 (.claim rfl (by decide))
  have h := reachable_worker h 0 (.enter 0 rfl rfl)
  have h := reachable_worker h 0 (.succeed 0 0 rfl rfl)
  have h := reachable_worker h 0 (.send 0 (.ok 0) rfl rfl (by decide))
  have h := reachable_worker h 1 (.readRunning rfl rfl)
  have h := reachable_worker h 1 (.claim rfl (by decide))
  have h := reachable_worker h 1 (.enter 1 rfl rfl)
  have h := reachable_worker h 1 (.succeed 1 1 rfl rfl)
  have h := reachable_worker h 1 (.send 1 (.ok 1) rfl rfl (by decide))
  -- Workers 0 and 1 hold tasks 3 and 4 at the gate before task 2 fails.
  have h := reachable_worker h 2 (.readRunning rfl rfl)
  have h := reachable_worker h 2 (.claim rfl (by decide))
  have h := reachable_worker h 2 (.enter 2 rfl rfl)
  have h := reachable_worker h 0 (.readRunning rfl rfl)
  have h := reachable_worker h 0 (.claim rfl (by decide))
  have h := reachable_worker h 1 (.readRunning rfl rfl)
  have h := reachable_worker h 1 (.claim rfl (by decide))
  have h := reachable_worker h 2 (.fail 2 "failed" rfl rfl)
  have h := reachable_worker h 2 (.setStopped 2 "failed" rfl)
  have h := reachable_worker h 2 (.stopClaims 2 "failed" rfl)
  -- Task 3 is turned away, then the window moves far enough to let task 4 in.
  have h := reachable_worker h 0 (.turnedAway 3 rfl rfl)
  have h := reachable_consumer h (.check rfl rfl)
  have h := reachable_consumer h (.receive 0 (.ok 0) _ rfl rfl)
  have h := reachable_consumer h (.push 0 (.ok 0) _ rfl rfl rfl)
  have h := reachable_consumer h (.pop (.ok 0) _ rfl rfl)
  have h := reachable_consumer h (.unwrap 0 rfl rfl rfl)
  have h := reachable_consumer h (.consume 0 rfl rfl)
  have h := reachable_consumer h (.credit rfl)
  have h := reachable_consumer h (.drained rfl rfl)
  have h := reachable_consumer h (.check rfl rfl)
  have h := reachable_consumer h (.receive 1 (.ok 1) _ rfl rfl)
  have h := reachable_consumer h (.push 1 (.ok 1) _ rfl rfl rfl)
  have h := reachable_consumer h (.pop (.ok 1) _ rfl rfl)
  have h := reachable_consumer h (.unwrap 1 rfl rfl rfl)
  have h := reachable_consumer h (.consume 1 rfl rfl)
  have h := reachable_consumer h (.credit rfl)
  have h := reachable_worker h 1 (.enter 4 rfl rfl)
  have h := reachable_worker h 1 (.fail 4 "failed" rfl rfl)
  exact ⟨_, h, by decide, by decide, by decide, by decide, rfl, Bool.false_ne_true⟩

end OrderedPoolRuns
