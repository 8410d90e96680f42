import Pbfhogg.Pool.Ordered

/-!
# The invariant of the ordered pool

Every claimed task is in one place: with a worker, in the channel, in the consumer's hands, in the
reorder buffer, consumed, or lost. A task is lost only once the consumer has left, or at the gate
after a task below it has failed.
-/

namespace OrderedPoolInvariant

open OrderedPool ReorderBuffer List Function

variable {W : Nat} {T E : Type}

/-- The task a worker has claimed and not handed on. -/
def task : Worker T E → Option Nat
  | .top | .claiming | .gone => none
  | .claimed k | .working k | .failing k _ | .stopping k _ | .sending k _ => some k

/-- The task the consumer has received and not pushed. -/
def receivedTask : Consumer T E → Option Nat
  | .received k _ => some k
  | _ => none

/-- The consumer has popped an item and not counted it. -/
def popped : Consumer T E → Bool
  | .holding _ | .consuming _ => true
  | _ => false

def crediting : Consumer T E → Bool
  | .crediting => true
  | _ => false

/-- The outcome of a consumer that has returned from its loop. -/
def outcome : Consumer T E → Option (Outcome E)
  | .leaving o | .closing o | .dropping o | .left o => some o
  | _ => none

/-- The consumer's buffer has no item for it. -/
def drained : Consumer T E → Bool
  | .starting | .checking | .receiving | .disconnected => true
  | _ => false

inductive Place (W : Nat) where
  | unclaimed
  | worker (w : Fin W)
  | channel
  | received
  | buffered
  | popped
  | done
  | lost

/-- Handed on by its worker and not lost. -/
def Place.Onward : Place W → Prop
  | .channel | .received | .buffered | .popped | .done => True
  | _ => False

/-- What one worker may rely on. -/
def WorkerOk (cfg : Config T E) (s : State W T E) : Worker T E → Prop
  | .top | .claiming => True
  | .claimed k => k ∉ s.admitted
  | .working k => k ∈ s.admitted
  | .failing k e | .stopping k e => k ∈ s.admitted ∧ cfg.work k = .error e ∧ k ∈ s.failures
  | .sending k r => k ∈ s.admitted ∧ r = cfg.work k
  | .gone => s.consumer = .starting ∨ (outcome s.consumer).isSome ∨ cfg.nTasks ≤ s.next ∨
      s.failures ≠ []

/-- An outcome the run may report. -/
def Justified (cfg : Config T E) (s : State W T E) : Outcome E → Prop
  | .ok () => s.delivered = cfg.nTasks
  | .error .cancelled => s.cancelled = true
  | .error (.failed e) => ∃ k, k < cfg.nTasks ∧ (∀ j, j < k → cfg.failAt j = none) ∧
      cfg.failAt k = some e
  | .error (.undelivered _ _) => False

structure Inv (cfg : Config T E) (s : State W T E) (place : Nat → Place W) : Prop where
  worker : ∀ w k, place k = .worker w ↔ task (s.workers w) = some k
  channel : ∀ k, place k = .channel ↔ k ∈ s.channel.map Prod.fst
  received : ∀ k, place k = .received ↔ receivedTask s.consumer = some k
  buffered : ∀ k, place k = .buffered ↔ (held s.reorder k).isSome
  popped : ∀ k, place k = .popped ↔ popped s.consumer = true ∧ k = s.delivered
  done : ∀ k, place k = .done ↔ k < s.delivered
  unclaimed : ∀ k, place k = .unclaimed ↔ s.next ≤ k ∨ cfg.nTasks ≤ k
  lost : ∀ k, place k = .lost → (outcome s.consumer).isSome ∨ ∃ f ∈ s.failures, f < k
  onward : ∀ k, (place k).Onward → k ∈ s.admitted
  workers : ∀ w, WorkerOk cfg s (s.workers w)
  starting : s.consumer = .starting → ∀ w, s.workers w = .gone
  channel_nodup : (s.channel.map Prod.fst).Nodup
  channel_work : ∀ p ∈ s.channel, p.2 = cfg.work p.1
  received_work : ∀ k r, s.consumer = .received k r → r = cfg.work k
  held_work : ∀ k r, held s.reorder k = some r → r = cfg.work k
  holding_work : ∀ r, s.consumer = .holding r → r = cfg.work s.delivered
  consuming_work : ∀ t, s.consumer = .consuming t →
    cfg.work s.delivered = .ok t ∧ cfg.beforeItem s.delivered = .ok ()
  admitted_lt : ∀ k ∈ s.admitted, k < s.gate.consumed + cfg.window
  admitted_next : ∀ k ∈ s.admitted, k < s.next ∧ k < cfg.nTasks
  admitted_nodup : s.admitted.Nodup
  failures : ∀ k ∈ s.failures, k ∈ s.admitted ∧ ∃ e, cfg.work k = .error e
  nextSeq : outcome s.consumer = none →
    s.reorder.nextSeq = s.delivered + (OrderedPoolInvariant.popped s.consumer).toNat
  maxWindow : s.reorder.maxWindow = cfg.window
  credit : s.gate.consumed + (crediting s.consumer).toNat = s.delivered
  done_ok : ∀ k, k < s.delivered → cfg.failAt k = none
  log_fst : s.log.map Prod.fst = range s.log.length
  log_length : outcome s.consumer = none → s.log.length = s.delivered
  log_work : ∀ p ∈ s.log, cfg.work p.1 = .ok p.2
  drained : OrderedPoolInvariant.drained s.consumer = true →
    held s.reorder s.reorder.nextSeq = none
  stopClaims : s.gate.stopClaims = true → s.failures ≠ []
  stopped : s.stopped = true → s.failures ≠ [] ∨ (outcome s.consumer).isSome
  closed : s.gate.closed = true → (outcome s.consumer).isSome
  rxClosed : s.rxOpen = false → (outcome s.consumer).isSome
  justified : ∀ o, outcome s.consumer = some o → Justified cfg s o
  justified_log : outcome s.consumer = some (.ok ()) → s.log.length = s.delivered
  disconnected : s.consumer = .disconnected → s.delivered = cfg.nTasks
  noPanic : s.pushPanic = none

lemma start_inv (cfg : Config T E) : Inv cfg (start cfg : State W T E) fun _ => .unclaimed where
  worker := by simp [start, task]
  channel := by simp [start]
  received := by simp [start, receivedTask]
  buffered := by simp [start]
  popped := by simp [start, popped]
  done := by simp [start]
  unclaimed := by simp [start]
  lost := by simp
  onward := by simp [Place.Onward]
  workers := by simp [start, WorkerOk]
  starting := by simp [start]
  channel_nodup := by simp [start]
  channel_work := by simp [start]
  received_work := by simp [start]
  held_work := by simp [start]
  holding_work := by simp [start]
  consuming_work := by simp [start]
  admitted_lt := by simp [start]
  admitted_next := by simp [start]
  admitted_nodup := by simp [start]
  failures := by simp [start]
  nextSeq := by simp [start, OrderedPoolInvariant.popped, withMaxWindow]
  maxWindow := rfl
  credit := rfl
  done_ok := by simp [start]
  log_fst := rfl
  log_length := fun _ => rfl
  log_work := by simp [start]
  drained := by simp [start]
  stopClaims := by simp [start]
  stopped := by simp [start]
  closed := by simp [start]
  rxClosed := by simp [start]
  justified := by simp [start, outcome]
  justified_log := by simp [start, outcome]
  disconnected := by simp [start]
  noPanic := rfl

section Moves

variable {cfg : Config T E} {s : State W T E} {place : Nat → Place W}

lemma moved_iff {k k₀ : Nat} {p q : Place W} (hfrom : place k₀ ≠ q) (hto : p ≠ q) :
    update place k₀ p k = q ↔ place k = q := by
  by_cases hk : k = k₀
  · subst hk
    simp [hfrom, hto]
  · rw [update_of_ne hk]

/-- A statement of a place the task neither leaves nor takes. -/
theorem moved {k₀ : Nat} {p₀ p q : Place W} {R : Nat → Prop} (hplace : place k₀ = p₀)
    (h : ∀ k, place k = q ↔ R k) (hne : p₀ ≠ q ∧ p ≠ q) (k : Nat) :
    update place k₀ p k = q ↔ R k :=
  (moved_iff (hplace.trans_ne hne.1) hne.2).trans (h k)

lemma moved_of_ne {k k₀ : Nat} {p q : Place W} (h : update place k₀ p k = q) (hto : p ≠ q) :
    k ≠ k₀ ∧ place k = q := by
  by_cases hk : k = k₀
  · subst hk
    rw [update_self] at h
    exact absurd h hto
  · rw [update_of_ne hk] at h
    exact ⟨hk, h⟩

/-- A place past the gate is reached with the task admitted. -/
theorem onward_moved {k₀ : Nat} {p p₀ : Place W} {admitted : List Nat} (hplace : place k₀ = p₀)
    (hp : p.Onward → p₀.Onward) (h : ∀ k, (place k).Onward → k ∈ admitted) (k : Nat)
    (hk : (update place k₀ p k).Onward) : k ∈ admitted := by
  by_cases hkk : k = k₀
  · subst hkk
    rw [update_self] at hk
    apply h
    rw [hplace]
    exact hp hk
  · rw [update_of_ne hkk] at hk
    exact h k hk

variable {x : Worker T E} {w : Fin W}

/-- The claims with a worker other than the one that moves are untouched. -/
theorem worker_moved {k₀ : Nat} {p : Place W} (h : Inv cfg s place)
    (hw : task (s.workers w) = some k₀) (hx : task x = none) (hp : ∀ w, p ≠ .worker w)
    (w' : Fin W) (k : Nat) : update place k₀ p k = .worker w' ↔
      task (update s.workers w x w') = some k := by
  have hplace : place k₀ = .worker w := (h.worker w k₀).mpr hw
  by_cases hww : w' = w
  · subst hww
    rw [update_self, hx]
    simp only [reduceCtorEq, iff_false]
    intro hk
    obtain ⟨hne, hk⟩ := moved_of_ne hk (hp _)
    have := (h.worker w' k).mp hk
    rw [hw] at this
    exact hne (Option.some.inj this).symm
  · rw [update_of_ne hww, moved_iff (by rw [hplace]; simpa using Ne.symm hww) (hp w')]
    exact h.worker w' k

lemma worker_kept (h : Inv cfg s place) (hx : task x = task (s.workers w)) (w' : Fin W) (k : Nat) :
    place k = .worker w' ↔ task (update s.workers w x w') = some k := by
  rw [h.worker]
  by_cases hww : w' = w
  · subst hww
    rw [update_self, hx]
  · rw [update_of_ne hww]

/-- What each worker may rely on after a step of one of them. -/
theorem workers_updated {t : State W T E} (hx : WorkerOk cfg t x)
    (hmono : ∀ w', w' ≠ w → WorkerOk cfg t (s.workers w')) (w' : Fin W) :
    WorkerOk cfg t (update s.workers w x w') := by
  by_cases hww : w' = w
  · subst hww
    rwa [update_self]
  · rw [update_of_ne hww]
    exact hmono w' hww

/-- What a worker relies on survives more claims, admissions of other tasks and failures. -/
theorem WorkerOk.mono {t : State W T E} (hx : WorkerOk cfg s x)
    (hadm : ∀ k ∈ s.admitted, k ∈ t.admitted) (hfail : ∀ k ∈ s.failures, k ∈ t.failures)
    (hfresh : ∀ k, x = .claimed k → k ∉ s.admitted → k ∉ t.admitted) (hnext : s.next ≤ t.next)
    (hcons : t.consumer = s.consumer) : WorkerOk cfg t x := by
  cases x with
  | top => trivial
  | claiming => trivial
  | claimed k => exact hfresh k rfl hx
  | working k => exact hadm k hx
  | failing k | stopping k => exact ⟨hadm k hx.1, hx.2.1, hfail k hx.2.2⟩
  | sending k r => exact ⟨hadm k hx.1, hx.2⟩
  | gone =>
    simp only [WorkerOk, hcons] at hx ⊢
    rcases hx with hx | hx | hx | hx
    · exact .inl hx
    · exact .inr (.inl hx)
    · exact .inr (.inr (.inl (by omega)))
    · right; right; right
      obtain ⟨k, hk⟩ := exists_mem_of_ne_nil _ hx
      exact ne_nil_of_mem (hfail k hk)

/-- A worker that steps has been spawned. -/
theorem Inv.spawned (h : Inv cfg s place) (hw : s.workers w ≠ .gone) {P : Prop}
    (hs : s.consumer = .starting) : P :=
  absurd (h.starting hs w) hw

lemma Inv.setWorker (h : Inv cfg s place) (hw : s.workers w ≠ .gone)
    (htask : task x = task (s.workers w)) (hok : WorkerOk cfg s x) :
    Inv cfg (s.setWorker w x) place :=
  { h with
    worker := worker_kept h htask
    workers := workers_updated hok fun w' _ => h.workers w'
    starting := h.spawned hw }

lemma Inv.task_lt (h : Inv cfg s place) {k : Nat} (hw : task (s.workers w) = some k) :
    k < s.next ∧ k < cfg.nTasks := by
  have hplace := (h.worker w k).mpr hw
  have hun : ¬ (s.next ≤ k ∨ cfg.nTasks ≤ k) := by
    rw [← h.unclaimed, hplace]
    simp
  omega

lemma Inv.lose (h : Inv cfg s place) {k : Nat} (hw : task (s.workers w) = some k)
    (hlost : (outcome s.consumer).isSome ∨ ∃ f ∈ s.failures, f < k)
    (hok : WorkerOk cfg s (.gone : Worker T E)) :
    Inv cfg (s.setWorker w .gone) (update place k .lost) := by
  have hne : s.workers w ≠ .gone := by
    intro hgone
    rw [hgone] at hw
    cases hw
  have hplace : place k = .worker w := (h.worker w k).mpr hw
  exact
    { h with
      worker := worker_moved h hw rfl (by simp)
      channel := moved hplace h.channel (by simp)
      received := moved hplace h.received (by simp)
      buffered := moved hplace h.buffered (by simp)
      popped := moved hplace h.popped (by simp)
      done := moved hplace h.done (by simp)
      unclaimed := moved hplace h.unclaimed (by simp)
      lost := by
        intro j hj
        by_cases hjk : j = k
        · subst hjk
          exact hlost
        · rw [update_of_ne hjk] at hj
          exact h.lost j hj
      onward := onward_moved hplace (by simp [Place.Onward]) h.onward
      workers := workers_updated hok fun w' _ => h.workers w'
      starting := h.spawned hne }

end Moves

lemma admit_true {g : Gate} {position window : Nat} (h : g.admits position window = some true) :
    g.closed = false ∧ position < g.consumed + window := by
  unfold Gate.admits at h
  split at h
  · cases h
  · next hc =>
    split at h
    · next hlt => exact ⟨by simpa using hc, hlt⟩
    · split at h <;> cases h

lemma admit_false {g : Gate} {position window : Nat} (h : g.admits position window = some false) :
    g.closed = true ∨ (g.consumed + window ≤ position ∧ g.stopClaims = true) := by
  unfold Gate.admits at h
  split at h
  · next hc => exact .inl hc
  · split at h
    · cases h
    · next hge =>
      split at h
      · next hs => exact .inr ⟨by omega, hs⟩
      · cases h

section WorkerSteps

variable {cfg : Config T E} {s : State W T E} {place : Nat → Place W} {w : Fin W}

lemma claim_inv (h : Inv cfg s place) (hw : s.workers w = .claiming) (hnext : s.next < cfg.nTasks) :
    Inv cfg { s.setWorker w (.claimed s.next) with next := s.next + 1 }
      (update place s.next (.worker w)) := by
  have hplace : place s.next = .unclaimed := (h.unclaimed _).mpr (.inl (Nat.le_refl _))
  have hfresh : s.next ∉ s.admitted := fun hmem => by
    have := (h.admitted_next _ hmem).1
    omega
  exact
    { h with
      worker := by
        intro w' k
        show _ ↔ task (update s.workers w (.claimed s.next) w') = some k
        by_cases hk : k = s.next
        · subst hk
          rw [update_self]
          by_cases hww : w' = w
          · subst hww
            simp [task]
          · have hno : ¬ task (s.workers w') = some s.next := by
              rw [← h.worker, hplace]
              simp
            rw [update_of_ne hww]
            simp only [Place.worker.injEq, hno, iff_false]
            exact fun heq => hww heq.symm
        · rw [update_of_ne hk, h.worker]
          by_cases hww : w' = w
          · subst hww
            simp [hw, task, Ne.symm hk]
          · rw [update_of_ne hww]
      channel := moved hplace h.channel (by simp)
      received := moved hplace h.received (by simp)
      buffered := moved hplace h.buffered (by simp)
      popped := moved hplace h.popped (by simp)
      done := moved hplace h.done (by simp)
      unclaimed := by
        intro k
        by_cases hk : k = s.next
        · subst hk
          simp
          omega
        · rw [update_of_ne hk, h.unclaimed]
          simp only
          omega
      lost := fun j hj => h.lost j (moved_of_ne hj (by simp)).2
      onward := onward_moved hplace (by simp [Place.Onward]) h.onward
      workers := workers_updated hfresh fun w' _ =>
        (h.workers w').mono (fun _ h => h) (fun _ h => h) (fun _ _ h => h) (Nat.le_succ _) rfl
      starting := h.spawned (by rw [hw]; simp)
      admitted_next := by
        intro k hk
        have := h.admitted_next k hk
        exact ⟨Nat.lt_succ_of_lt this.1, this.2⟩ }

lemma runOut_inv (h : Inv cfg s place) (hw : s.workers w = .claiming)
    (hnext : cfg.nTasks ≤ s.next) : Inv cfg { s.setWorker w .gone with next := s.next + 1 } place :=
  { h with
    worker := worker_kept h (by rw [hw]; rfl)
    unclaimed := by
      intro k
      rw [h.unclaimed]
      simp only
      omega
    workers := workers_updated (.inr (.inr (.inl (Nat.le_succ_of_le hnext)))) fun w' _ =>
      (h.workers w').mono (fun _ h => h) (fun _ h => h) (fun _ _ h => h) (Nat.le_succ _) rfl
    starting := h.spawned (by rw [hw]; simp)
    admitted_next := by
      intro k hk
      have := h.admitted_next k hk
      exact ⟨Nat.lt_succ_of_lt this.1, this.2⟩ }

lemma enter_inv (h : Inv cfg s place) {k : Nat} (hw : s.workers w = .claimed k)
    (hgate : s.gate.admits k cfg.window = some true) :
    Inv cfg { s.setWorker w (.working k) with admitted := s.admitted ++ [k] } place := by
  have htask : task (s.workers w) = some k := by rw [hw]; rfl
  have hfresh : k ∉ s.admitted := by
    have := h.workers w
    rwa [hw] at this
  exact
    { h with
      worker := worker_kept h (by rw [hw]; rfl)
      onward := fun j hj => mem_append_left _ (h.onward j hj)
      workers := workers_updated (by simp [WorkerOk]) fun w' hww =>
        (h.workers w').mono (fun _ h => mem_append_left _ h) (fun _ h => h)
          (by
            intro j hj hout hmem
            rcases mem_append.mp hmem with hmem | hmem
            · exact hout hmem
            · obtain rfl := mem_singleton.mp hmem
              have h1 := (h.worker w j).mpr htask
              have h2 := (h.worker w' j).mpr (by rw [hj]; rfl)
              rw [h1] at h2
              exact hww (Place.worker.inj h2).symm)
          (Nat.le_refl _) rfl
      starting := h.spawned (by rw [hw]; simp)
      admitted_lt := by
        intro j hj
        rcases mem_append.mp hj with hj | hj
        · exact h.admitted_lt j hj
        · obtain rfl := mem_singleton.mp hj
          exact (admit_true hgate).2
      admitted_next := by
        intro j hj
        rcases mem_append.mp hj with hj | hj
        · exact h.admitted_next j hj
        · obtain rfl := mem_singleton.mp hj
          exact h.task_lt htask
      admitted_nodup := by
        refine List.Nodup.append h.admitted_nodup (by simp) ?_
        intro j hj hmem
        obtain rfl := mem_singleton.mp hmem
        exact hfresh hj
      failures := fun j hj =>
        ⟨mem_append_left _ (h.failures j hj).1, (h.failures j hj).2⟩ }

/-- A refused task is above a failed one, unless the run is closed. -/
theorem turnedAway_inv (h : Inv cfg s place) {k : Nat} (hw : s.workers w = .claimed k)
    (hgate : s.gate.admits k cfg.window = some false) :
    Inv cfg (s.setWorker w .gone) (update place k .lost) := by
  have htask : task (s.workers w) = some k := by rw [hw]; rfl
  rcases admit_false hgate with hclosed | ⟨hout, hstop⟩
  · exact h.lose htask (.inl (h.closed hclosed)) (.inr (.inl (h.closed hclosed)))
  · obtain ⟨f, hf⟩ := exists_mem_of_ne_nil _ (h.stopClaims hstop)
    have hlt := h.admitted_lt f (h.failures f hf).1
    exact h.lose htask (.inr ⟨f, hf, by omega⟩) (.inr (.inr (.inr (h.stopClaims hstop))))

lemma fail_inv (h : Inv cfg s place) {k : Nat} {e : E} (hw : s.workers w = .working k)
    (hwork : cfg.work k = .error e) :
    Inv cfg { s.setWorker w (.failing k e) with failures := s.failures ++ [k] } place := by
  have hadm : k ∈ s.admitted := by
    have := h.workers w
    rwa [hw] at this
  exact
    { h with
      worker := worker_kept h (by rw [hw]; rfl)
      lost := by
        intro j hj
        rcases h.lost j hj with hleft | ⟨f, hf, hlt⟩
        · exact .inl hleft
        · exact .inr ⟨f, mem_append_left _ hf, hlt⟩
      workers := workers_updated ⟨hadm, hwork, by simp⟩ fun w' _ =>
        (h.workers w').mono (fun _ h => h) (fun _ h => mem_append_left _ h)
          (fun _ _ h => h) (Nat.le_refl _) rfl
      starting := h.spawned (by rw [hw]; simp)
      failures := by
        intro j hj
        rcases mem_append.mp hj with hj | hj
        · exact h.failures j hj
        · obtain rfl := mem_singleton.mp hj
          exact ⟨hadm, e, hwork⟩
      stopClaims := fun _ => by simp
      stopped := fun _ => .inl (by simp) }

lemma send_inv (h : Inv cfg s place) {k : Nat} {r : Except E T} (hw : s.workers w = .sending k r) :
    Inv cfg { s.setWorker w .top with channel := s.channel ++ [(k, r)] }
      (update place k .channel) := by
  have htask : task (s.workers w) = some k := by rw [hw]; rfl
  have hplace : place k = .worker w := (h.worker w k).mpr htask
  have hok : k ∈ s.admitted ∧ r = cfg.work k := by
    have := h.workers w
    rwa [hw] at this
  have hout : k ∉ s.channel.map Prod.fst := by
    rw [← h.channel, hplace]
    simp
  exact
    { h with
      worker := worker_moved h htask rfl (by simp)
      channel := by
        intro j
        rw [map_append, mem_append, ← h.channel]
        by_cases hjk : j = k
        · subst hjk
          simp
        · rw [update_of_ne hjk]
          simp [hjk]
      received := moved hplace h.received (by simp)
      buffered := moved hplace h.buffered (by simp)
      popped := moved hplace h.popped (by simp)
      done := moved hplace h.done (by simp)
      unclaimed := moved hplace h.unclaimed (by simp)
      lost := fun j hj => h.lost j (moved_of_ne hj (by simp)).2
      onward := by
        intro j hj
        by_cases hjk : j = k
        · subst hjk
          exact hok.1
        · rw [update_of_ne hjk] at hj
          exact h.onward j hj
      workers := workers_updated trivial fun w' _ => h.workers w'
      starting := h.spawned (by rw [hw]; simp)
      channel_nodup := by
        rw [map_append]
        refine List.Nodup.append h.channel_nodup (by simp) ?_
        intro j hj hmem
        obtain rfl := mem_singleton.mp hmem
        exact hout hj
      channel_work := by
        intro p hp
        rcases mem_append.mp hp with hp | hp
        · exact h.channel_work p hp
        · obtain rfl := mem_singleton.mp hp
          exact hok.2 }

lemma workerStep_inv {t : State W T E} (h : Inv cfg s place) (hstep : WorkerStep cfg s w t) :
    ∃ place', Inv cfg t place' := by
  cases hstep with
  | readStopped hw hstop =>
    refine ⟨place, h.setWorker (by rw [hw]; simp) (by rw [hw]; rfl) ?_⟩
    rcases h.stopped hstop with hf | ho
    · exact .inr (.inr (.inr hf))
    · exact .inr (.inl ho)
  | readRunning hw _ => exact ⟨place, h.setWorker (by rw [hw]; simp) (by rw [hw]; rfl) trivial⟩
  | claim hw hnext => exact ⟨_, claim_inv h hw hnext⟩
  | runOut hw hnext => exact ⟨_, runOut_inv h hw hnext⟩
  | enter k hw hgate => exact ⟨_, enter_inv h hw hgate⟩
  | turnedAway k hw hgate => exact ⟨_, turnedAway_inv h hw hgate⟩
  | succeed k item hw hwork =>
    have hadm := h.workers w
    rw [hw] at hadm
    exact ⟨place, h.setWorker (by rw [hw]; simp) (by rw [hw]; rfl) ⟨hadm, hwork.symm⟩⟩
  | fail k e hw hwork => exact ⟨_, fail_inv h hw hwork⟩
  | setStopped k e hw =>
    have hok := h.workers w
    rw [hw] at hok
    have h' := h.setWorker (x := .stopping k e) (by rw [hw]; simp) (by rw [hw]; rfl) hok
    exact ⟨place, { h' with stopped := fun _ => .inl (ne_nil_of_mem hok.2.2) }⟩
  | stopClaims k e hw =>
    have hok := h.workers w
    rw [hw] at hok
    have h' := h.setWorker (x := .sending k (.error e)) (by rw [hw]; simp)
      (by rw [hw]; rfl) ⟨hok.1, hok.2.1.symm⟩
    exact ⟨place, { h' with stopClaims := fun _ => ne_nil_of_mem hok.2.2 }⟩
  | send k r hw _ _ => exact ⟨_, send_inv h hw⟩
  | sendFails k r hw hopen =>
    exact ⟨_, h.lose (by rw [hw]; rfl) (.inl (h.rxClosed hopen)) (.inr (.inl (h.rxClosed hopen)))⟩

end WorkerSteps

section ConsumerSteps

variable {cfg : Config T E} {s : State W T E} {place : Nat → Place W}

/-- What the consumer held when it left its loop is lost. -/
def dropHeld (place : Nat → Place W) (k : Nat) : Place W :=
  match place k with
  | .received | .popped => .lost
  | p => p

variable {k : Nat} {r : Except E T}

lemma dropHeld_iff {q : Place W} (h1 : q ≠ .received) (h2 : q ≠ .popped) (h3 : q ≠ .lost) :
    dropHeld place k = q ↔ place k = q := by
  unfold dropHeld
  split
  · next hp => simp [hp, Ne.symm h1, Ne.symm h3]
  · next hp => simp [hp, Ne.symm h2, Ne.symm h3]
  · rfl

lemma dropHeld_ne : dropHeld place k ≠ .received ∧ dropHeld place k ≠ .popped := by
  unfold dropHeld
  split
  · simp
  · simp
  · next hr hp => exact ⟨hr, hp⟩

lemma Inv.leave (h : Inv cfg s place) {c : Consumer T E} {o : Outcome E}
    (hc : outcome c = some o) (hcredit : crediting s.consumer = false)
    (hj : Justified cfg s o) (hlog : o = .ok () → s.log.length = s.delivered) :
    Inv cfg (s.setConsumer c) (dropHeld place) := by
  have hsome : (outcome c).isSome = true := by rw [hc]; rfl
  have hrec : receivedTask c = none := by cases c <;> simp_all [outcome, receivedTask]
  have hpop : OrderedPoolInvariant.popped c = false := by
    cases c <;> simp_all [outcome, OrderedPoolInvariant.popped]
  have hcred : crediting c = false := by cases c <;> simp_all [outcome, crediting]
  have hdr : OrderedPoolInvariant.drained c = false := by
    cases c <;> simp_all [outcome, OrderedPoolInvariant.drained]
  exact
    { h with
      worker := fun w k => (dropHeld_iff (by simp) (by simp) (by simp)).trans (h.worker w k)
      channel := fun k => (dropHeld_iff (by simp) (by simp) (by simp)).trans (h.channel k)
      received := fun k => by
        show _ ↔ receivedTask c = some k
        simp [hrec, dropHeld_ne]
      buffered := fun k => (dropHeld_iff (by simp) (by simp) (by simp)).trans (h.buffered k)
      popped := fun k => by
        show _ ↔ OrderedPoolInvariant.popped c = true ∧ _
        simp [hpop, dropHeld_ne]
      done := fun k => (dropHeld_iff (by simp) (by simp) (by simp)).trans (h.done k)
      unclaimed := fun k => (dropHeld_iff (by simp) (by simp) (by simp)).trans (h.unclaimed k)
      lost := fun k _ => .inl hsome
      onward := by
        intro k hk
        apply h.onward
        unfold dropHeld at hk
        split at hk
        · simp [Place.Onward] at hk
        · simp [Place.Onward] at hk
        · exact hk
      workers := by
        intro w
        have hw := h.workers w
        show WorkerOk cfg _ (s.workers w)
        cases hx : s.workers w with
        | gone => exact .inr (.inl hsome)
        | _ =>
          rw [hx] at hw
          exact hw
      starting := by
        intro hk
        have hk : c = .starting := hk
        rw [hk] at hc
        cases hc
      received_work := by
        intro k r hk
        have hk : c = .received k r := hk
        rw [hk] at hc
        cases hc
      holding_work := by
        intro r hk
        have hk : c = .holding r := hk
        rw [hk] at hc
        cases hc
      consuming_work := by
        intro t hk
        have hk : c = .consuming t := hk
        rw [hk] at hc
        cases hc
      nextSeq := fun hnone => by
        have hnone : outcome c = none := hnone
        rw [hc] at hnone
        cases hnone
      credit := by
        have := h.credit
        show _ + (crediting c).toNat = _
        rw [hcredit] at this
        rw [hcred]
        exact this
      log_length := fun hnone => by
        have hnone : outcome c = none := hnone
        rw [hc] at hnone
        cases hnone
      drained := fun hd => by
        have hd : OrderedPoolInvariant.drained c = true := hd
        rw [hdr] at hd
        cases hd
      stopped := fun _ => .inr hsome
      closed := fun _ => hsome
      rxClosed := fun _ => hsome
      justified := by
        intro o' ho'
        have ho' : outcome c = some o' := ho'
        rw [hc] at ho'
        cases ho'
        exact hj
      justified_log := by
        intro ho'
        have ho' : outcome c = some (.ok ()) := ho'
        rw [hc] at ho'
        cases ho'
        exact hlog rfl
      disconnected := by
        intro hk
        have hk : c = .disconnected := hk
        rw [hk] at hc
        cases hc }

/-- The consumer has the next task in its buffer whenever a message can still be missing. -/
theorem delivered_eq_of_disconnected (h : Inv cfg s place) (hW : 0 < W)
    (hc : s.consumer = .receiving) (hchan : s.channel = []) (hgone : ∀ w, s.workers w = .gone) :
    s.delivered = cfg.nTasks := by
  have hnotdone : held s.reorder s.delivered = none := by
    have hseq := h.nextSeq (by rw [hc]; rfl)
    have hdr := h.drained (by rw [hc]; rfl)
    rw [hseq, hc] at hdr
    simpa [OrderedPoolInvariant.popped] using hdr
  -- With no worker, no message and nothing in hand, a task is unclaimed, buffered, done or lost.
  have hcases : ∀ k, k < s.next → k < cfg.nTasks → s.delivered ≤ k →
      (held s.reorder k).isSome ∨ ∃ f ∈ s.failures, f < k := by
    intro k hk hkn hge
    cases hp : place k with
    | unclaimed =>
      have := (h.unclaimed k).mp hp
      omega
    | worker w =>
      have := (h.worker w k).mp hp
      rw [hgone w] at this
      cases this
    | channel =>
      have := (h.channel k).mp hp
      rw [hchan] at this
      simp at this
    | received =>
      have := (h.received k).mp hp
      rw [hc] at this
      cases this
    | buffered => exact .inl ((h.buffered k).mp hp)
    | popped =>
      have := (h.popped k).mp hp
      rw [hc] at this
      simp [OrderedPoolInvariant.popped] at this
    | done =>
      have := (h.done k).mp hp
      omega
    | lost =>
      rcases h.lost k hp with hleft | hf
      · rw [hc] at hleft
        cases hleft
      · exact .inr hf
  by_contra hne
  have hle : s.delivered ≤ cfg.nTasks := by
    by_contra hgt
    have h1 := (h.done cfg.nTasks).mpr (by omega)
    have h2 := (h.unclaimed cfg.nTasks).mpr (.inr (Nat.le_refl _))
    rw [h1] at h2
    cases h2
  -- A failure at or above the next task is impossible, below it is refuted by its consumption.
  have hfail_ge : ∀ f ∈ s.failures, s.delivered ≤ f := by
    intro f hf
    by_contra hlt
    have hok := h.done_ok f (by omega)
    obtain ⟨e, he⟩ := (h.failures f hf).2
    simp only [Config.failAt, he] at hok
    split at hok <;> cases hok
  have hclaimed : s.delivered < s.next := by
    have hw := h.workers ⟨0, hW⟩
    rw [hgone] at hw
    rcases hw with hst | hleft | hnext | hf
    · rw [hc] at hst
      cases hst
    · rw [hc] at hleft
      cases hleft
    · omega
    · obtain ⟨f, hf⟩ := exists_mem_of_ne_nil _ hf
      have h1 := hfail_ge f hf
      have h2 := (h.admitted_next f (h.failures f hf).1).1
      omega
  rcases hcases s.delivered hclaimed (by omega) (Nat.le_refl _) with hheld | ⟨f, hf, hlt⟩
  · rw [hnotdone] at hheld
    cases hheld
  · have := hfail_ge f hf
    omega

/-- What a worker relies on while the consumer goes on. -/
theorem workerOk_of_running {t : State W T E} {workers : Fin W → Worker T E}
    (hx : ∀ w, WorkerOk cfg s (workers w)) (hs : s.consumer ≠ .starting)
    (ho : outcome s.consumer = none) (hadm : t.admitted = s.admitted)
    (hfail : t.failures = s.failures) (hnext : t.next = s.next) (w : Fin W) :
    WorkerOk cfg t (workers w) := by
  replace hx := hx w
  generalize workers w = x at hx
  cases x with
  | gone =>
    simp only [WorkerOk, hfail, hnext] at hx ⊢
    rcases hx with hx | hx | hx | hx
    · exact absurd hx hs
    · rw [ho] at hx
      cases hx
    · exact .inr (.inr (.inl hx))
    · exact .inr (.inr (.inr hx))
  | _ => simp [WorkerOk, hadm, hfail] at hx ⊢ <;> exact hx

lemma receive_inv (h : Inv cfg s place) {rest : List (Nat × Except E T)}
    (hc : s.consumer = .receiving) (hchan : s.channel = (k, r) :: rest) :
    Inv cfg { s.setConsumer (.received k r) with channel := rest }
      (update place k .received) := by
  have hplace : place k = .channel := (h.channel k).mpr (by simp [hchan])
  have hnodup := h.channel_nodup
  rw [hchan, map_cons, nodup_cons] at hnodup
  have hwork := h.channel_work (k, r) (by simp [hchan])
  cases s
  simp only at hc hchan
  subst hc hchan
  exact
    { h with
      worker := fun w => moved hplace (h.worker w) (by simp)
      channel := by
        intro j
        by_cases hjk : j = k
        · subst hjk
          rw [update_self]
          exact iff_of_false (by simp) hnodup.1
        · rw [update_of_ne hjk, h.channel]
          simp [hjk]
      received := by
        intro j
        by_cases hjk : j = k
        · subst hjk
          simp [State.setConsumer, receivedTask]
        · rw [update_of_ne hjk, h.received]
          simp [State.setConsumer, receivedTask, Ne.symm hjk]
      buffered := moved hplace h.buffered (by simp)
      popped := moved hplace h.popped (by simp)
      done := moved hplace h.done (by simp)
      unclaimed := moved hplace h.unclaimed (by simp)
      lost := fun j hj => h.lost j (moved_of_ne hj (by simp)).2
      onward := onward_moved hplace (by simp [Place.Onward]) h.onward
      workers := workerOk_of_running h.workers (by simp) rfl rfl rfl rfl
      starting := fun hs => by cases hs
      channel_nodup := hnodup.2
      channel_work := fun p hp => h.channel_work p (mem_cons_of_mem _ hp)
      received_work := by
        intro j r' hj
        cases hj
        exact hwork
      holding_work := fun _ hs => by cases hs
      consuming_work := fun _ hs => by cases hs
      drained := fun hs => by cases hs
      disconnected := fun hs => by cases hs }

/-- A received task fits the reorder buffer. -/
theorem push_accepted (h : Inv cfg s place) (hc : s.consumer = .received k r) :
    ∃ b, tryPush s.reorder k r = .ok b ∧ b.nextSeq = s.reorder.nextSeq ∧
      b.maxWindow = s.reorder.maxWindow ∧
      ∀ j, held b j = if j = k then some r else held s.reorder j := by
  have hplace : place k = .received := (h.received k).mpr (by rw [hc]; rfl)
  have hseq := h.nextSeq (by rw [hc]; rfl)
  rw [hc] at hseq
  have hcred := h.credit
  rw [hc] at hcred
  simp only [OrderedPoolInvariant.popped, crediting, Bool.toNat_false] at hseq hcred
  have hge : s.delivered ≤ k := by
    by_contra hlt
    have := (h.done k).mpr (by omega)
    rw [hplace] at this
    cases this
  have hlt := h.admitted_lt k (h.onward k (by simp [hplace, Place.Onward]))
  have hfree : held s.reorder k = none := by
    have := h.buffered k
    rw [hplace] at this
    simpa using this
  exact tryPush_ok (by omega) (by rw [h.maxWindow]; omega) hfree

lemma push_inv (h : Inv cfg s place) {b : Buffer (Except E T)} (hc : s.consumer = .received k r)
    (hpush : tryPush s.reorder k r = .ok b) : Inv cfg { s.setConsumer .draining with reorder := b }
      (update place k .buffered) := by
  have hplace : place k = .received := (h.received k).mpr (by rw [hc]; rfl)
  have hwork := h.received_work k r hc
  obtain ⟨b', hb', hseq, hmax, hheld⟩ := push_accepted h hc
  rw [hpush] at hb'
  cases hb'
  cases s
  simp only at hc hseq hmax hheld
  subst hc
  exact
    { h with
      worker := fun w => moved hplace (h.worker w) (by simp)
      channel := moved hplace h.channel (by simp)
      received := by
        intro j
        by_cases hjk : j = k
        · subst hjk
          simp [State.setConsumer, receivedTask]
        · rw [update_of_ne hjk, h.received]
          simp [State.setConsumer, receivedTask, Ne.symm hjk]
      buffered := by
        intro j
        show _ ↔ (held b j).isSome = true
        rw [hheld]
        by_cases hjk : j = k
        · subst hjk
          simp
        · rw [update_of_ne hjk, if_neg hjk]
          exact h.buffered j
      popped := moved hplace h.popped (by simp)
      done := moved hplace h.done (by simp)
      unclaimed := moved hplace h.unclaimed (by simp)
      lost := fun j hj => h.lost j (moved_of_ne hj (by simp)).2
      onward := onward_moved hplace (by simp [Place.Onward]) h.onward
      workers := workerOk_of_running h.workers (by simp) rfl rfl rfl rfl
      starting := fun hs => by cases hs
      received_work := fun _ _ hs => by cases hs
      held_work := by
        intro j r' hj
        have hj : held b j = some r' := hj
        rw [hheld] at hj
        split at hj
        · next hjk =>
          cases hj
          rw [hjk]
          exact hwork
        · exact h.held_work j r' hj
      holding_work := fun _ hs => by cases hs
      consuming_work := fun _ hs => by cases hs
      nextSeq := fun hs => hseq.trans (h.nextSeq hs)
      maxWindow := hmax.trans h.maxWindow
      drained := fun hs => by cases hs
      disconnected := fun hs => by cases hs }

lemma pop_inv (h : Inv cfg s place) {b : Buffer (Except E T)} (hc : s.consumer = .draining)
    (hpop : popReady s.reorder = some (r, b)) :
    Inv cfg { s.setConsumer (.holding r) with reorder := b }
      (update place s.delivered .popped) := by
  obtain ⟨hnext, hseq', hmax, hheld⟩ := popReady_eq_some hpop
  have hseq : s.reorder.nextSeq = s.delivered := by
    have := h.nextSeq (by rw [hc]; rfl)
    rw [hc] at this
    simpa [OrderedPoolInvariant.popped] using this
  rw [hseq] at hnext hseq' hheld
  have hwork := h.held_work _ _ hnext
  have hplace : place s.delivered = .buffered := (h.buffered _).mpr (by rw [hnext]; rfl)
  obtain ⟨_, _, _, _, _, _, _, _, delivered, _, _, _, _, _⟩ := s
  simp only at hc hseq hnext hseq' hmax hheld hwork hplace
  subst hc
  exact
    { h with
      worker := fun w => moved hplace (h.worker w) (by simp)
      channel := moved hplace h.channel (by simp)
      received := moved hplace h.received (by simp)
      buffered := by
        intro j
        show _ ↔ (held b j).isSome = true
        rw [hheld]
        by_cases hjk : j = delivered
        · subst hjk
          simp
        · rw [update_of_ne hjk, if_neg hjk]
          exact h.buffered j
      popped := by
        intro j
        by_cases hjk : j = delivered
        · subst hjk
          simp [State.setConsumer, OrderedPoolInvariant.popped]
        · rw [update_of_ne hjk, h.popped]
          simp only [State.setConsumer, OrderedPoolInvariant.popped, true_and, Bool.false_eq_true,
            false_and, false_iff]
          exact hjk
      done := moved hplace h.done (by simp)
      unclaimed := moved hplace h.unclaimed (by simp)
      lost := fun j hj => h.lost j (moved_of_ne hj (by simp)).2
      onward := onward_moved hplace (by simp [Place.Onward]) h.onward
      workers := workerOk_of_running h.workers (by simp) rfl rfl rfl rfl
      starting := fun hs => by cases hs
      received_work := fun _ _ hs => by cases hs
      held_work := by
        intro j r' hj
        have hj : held b j = some r' := hj
        rw [hheld] at hj
        split at hj
        · cases hj
        · exact h.held_work j r' hj
      holding_work := by
        intro r' hs
        cases hs
        exact hwork
      consuming_work := fun _ hs => by cases hs
      nextSeq := fun _ => hseq'
      maxWindow := hmax.trans h.maxWindow
      drained := fun hs => by cases hs
      disconnected := fun hs => by cases hs }

lemma failAt_of_consumed {item : T} (hwork : cfg.work k = .ok item)
    (hbefore : cfg.beforeItem k = .ok ()) (hconsume : cfg.consume k item = .ok ()) :
    cfg.failAt k = none := by
  simp [Config.failAt, hwork, hbefore, hconsume]

lemma log_snoc {log : List (Nat × T)} {n : Nat} (item : T)
    (hfst : log.map Prod.fst = range log.length) (hlen : log.length = n) :
    (log ++ [(n, item)]).map Prod.fst = range (log ++ [(n, item)]).length := by
  rw [map_append, hfst, length_append, length_singleton, range_succ, hlen]
  rfl

lemma consume_inv (h : Inv cfg s place) {item : T} (hc : s.consumer = .consuming item)
    (hconsume : cfg.consume s.delivered item = .ok ()) : Inv cfg { s.setConsumer .crediting with
        log := s.log ++ [(s.delivered, item)]
        delivered := s.delivered + 1 }
      (update place s.delivered .done) := by
  have hplace : place s.delivered = .popped := (h.popped _).mpr ⟨by rw [hc]; rfl, rfl⟩
  obtain ⟨hwork, hbefore⟩ := h.consuming_work item hc
  have hlen := h.log_length (by rw [hc]; rfl)
  have hlog := log_snoc item h.log_fst hlen
  obtain ⟨_, _, _, _, _, _, _, _, delivered, _, _, _, _, _⟩ := s
  simp only at hc hconsume hplace hwork hbefore hlen hlog
  subst hc
  exact
    { h with
      worker := fun w => moved hplace (h.worker w) (by simp)
      channel := moved hplace h.channel (by simp)
      received := moved hplace h.received (by simp)
      buffered := moved hplace h.buffered (by simp)
      popped := by
        intro j
        by_cases hjk : j = delivered
        · subst hjk
          simp [State.setConsumer, OrderedPoolInvariant.popped]
        · rw [update_of_ne hjk, h.popped]
          simp [State.setConsumer, OrderedPoolInvariant.popped, hjk]
      done := by
        intro j
        by_cases hjk : j = delivered
        · subst hjk
          simp
        · rw [update_of_ne hjk, h.done]
          simp only
          omega
      unclaimed := moved hplace h.unclaimed (by simp)
      lost := fun j hj => h.lost j (moved_of_ne hj (by simp)).2
      onward := onward_moved hplace (by simp [Place.Onward]) h.onward
      workers := workerOk_of_running h.workers (by simp) rfl rfl rfl rfl
      starting := fun hs => by cases hs
      received_work := fun _ _ hs => by cases hs
      holding_work := fun _ hs => by cases hs
      consuming_work := fun _ hs => by cases hs
      nextSeq := fun _ => h.nextSeq rfl
      credit := by
        have := h.credit
        simp only [crediting, Bool.toNat_false, Nat.add_zero] at this
        simp [State.setConsumer, crediting, this]
      done_ok := by
        intro k hk
        by_cases hkd : k = delivered
        · subst hkd
          exact failAt_of_consumed hwork hbefore hconsume
        · exact h.done_ok k (show k < delivered by simp only at hk; omega)
      log_fst := hlog
      log_length := fun _ => by simp [hlen]
      log_work := by
        intro p hp
        rcases mem_append.mp hp with hp | hp
        · exact h.log_work p hp
        · obtain rfl := mem_singleton.mp hp
          exact hwork
      drained := fun hs => by cases hs
      justified := fun o hs => by cases hs
      justified_log := fun hs => by cases hs
      disconnected := fun hs => by cases hs }

lemma credit_inv (h : Inv cfg s place) (hc : s.consumer = .crediting) :
    Inv cfg { s.setConsumer .draining with gate := s.gate.advance s.delivered } place := by
  cases s
  simp only at hc
  subst hc
  have hcred := h.credit
  simp only [crediting, Bool.toNat_true] at hcred
  exact
    { h with
      workers := workerOk_of_running h.workers (by simp) rfl rfl rfl rfl
      starting := fun hs => by cases hs
      received_work := fun _ _ hs => by cases hs
      holding_work := fun _ hs => by cases hs
      consuming_work := fun _ hs => by cases hs
      admitted_lt := by
        intro k hk
        have := h.admitted_lt k hk
        simp only [Gate.advance] at this ⊢
        omega
      credit := rfl
      drained := fun hs => by cases hs
      disconnected := fun hs => by cases hs }

/-- The messages in a dropped channel are lost. -/
def dropMessages (place : Nat → Place W) (k : Nat) : Place W :=
  match place k with
  | .channel => .lost
  | p => p

lemma dropMessages_iff {q : Place W} (h1 : q ≠ .channel) (h2 : q ≠ .lost) :
    dropMessages place k = q ↔ place k = q := by
  unfold dropMessages
  split
  · next hp => simp [hp, Ne.symm h1, Ne.symm h2]
  · rfl

lemma dropChannel_inv (h : Inv cfg s place) (hleft : (outcome s.consumer).isSome) :
    Inv cfg { s with rxOpen := false, channel := [] } (dropMessages place) :=
  { h with
    worker := fun w k => (dropMessages_iff (by simp) (by simp)).trans (h.worker w k)
    channel := fun k => by
      simp only [map_nil, not_mem_nil, iff_false]
      unfold dropMessages
      split
      · simp
      · next hp => exact hp
    received := fun k => (dropMessages_iff (by simp) (by simp)).trans (h.received k)
    buffered := fun k => (dropMessages_iff (by simp) (by simp)).trans (h.buffered k)
    popped := fun k => (dropMessages_iff (by simp) (by simp)).trans (h.popped k)
    done := fun k => (dropMessages_iff (by simp) (by simp)).trans (h.done k)
    unclaimed := fun k => (dropMessages_iff (by simp) (by simp)).trans (h.unclaimed k)
    lost := fun _ _ => .inl hleft
    onward := by
      intro k hk
      apply h.onward
      unfold dropMessages at hk
      split at hk
      · simp [Place.Onward] at hk
      · exact hk
    channel_nodup := nodup_nil
    channel_work := fun p hp => by cases hp
    rxClosed := fun _ => hleft }

/-- A popped error is the task's own failure at its position. -/
theorem justified_of_failAt (h : Inv cfg s place) {e : E}
    (hc : OrderedPoolInvariant.popped s.consumer = true)
    (hfail : cfg.failAt s.delivered = some e) : Justified cfg s (.error (.failed e)) := by
  have hplace : place s.delivered = .popped := (h.popped _).mpr ⟨hc, rfl⟩
  have hadm := h.onward s.delivered (by simp [hplace, Place.Onward])
  have hlt := (h.admitted_next _ hadm).2
  exact ⟨s.delivered, hlt, h.done_ok, hfail⟩

lemma consumerStep_inv {t : State W T E} (hW : 0 < W) (h : Inv cfg s place)
    (hstep : ConsumerStep cfg s t) : ∃ place', Inv cfg t place' := by
  cases hstep with
  | startCancelled hc hcancel | checkCancelled hc hcancel | pushCancelled _ _ hc hcancel
  | itemCancelled _ hc hcancel | endCancelled hc hcancel =>
    exact ⟨_, h.leave rfl (by rw [hc]; rfl) hcancel (fun ho => by cases ho)⟩
  | startEmpty hc _ hn =>
    have hlen := h.log_length (by rw [hc]; rfl)
    have hdone : s.delivered = cfg.nTasks := by
      by_contra hne
      have h1 := (h.done 0).mpr (by omega)
      have h2 := (h.unclaimed 0).mpr (.inr (by omega))
      rw [h1] at h2
      cases h2
    exact ⟨_, h.leave rfl (by rw [hc]; rfl) hdone (fun _ => hlen)⟩
  | spawn hc _ _ =>
    have hgone := h.starting hc
    obtain ⟨_, _, _, workers, _, _, _, _, _, _, _, _, _, _⟩ := s
    simp only at hc hgone
    subst hc
    refine ⟨place, { h with
      worker := ?_, workers := fun w => trivial, starting := ?_, received_work := ?_,
      holding_work := ?_, consuming_work := ?_, disconnected := ?_ }⟩
    · intro w k
      refine (h.worker w k).trans ?_
      show task (workers w) = some k ↔ _
      rw [hgone]
      rfl
    all_goals
      intros
      contradiction
  | check hc _ =>
    cases s
    simp only at hc
    subst hc
    refine ⟨place, { h with
      workers := workerOk_of_running h.workers (by simp) rfl rfl rfl rfl
      starting := ?_, received_work := ?_, holding_work := ?_, consuming_work := ?_
      disconnected := ?_ }⟩
    all_goals
      intros
      contradiction
  | receive k r rest hc hchan => exact ⟨_, receive_inv h hc hchan⟩
  | disconnect hc hchan hgone =>
    have hall := delivered_eq_of_disconnected h hW hc hchan hgone
    cases s
    simp only at hc hall
    subst hc
    refine ⟨place, { h with
      workers := workerOk_of_running h.workers (by simp) rfl rfl rfl rfl
      starting := ?_, received_work := ?_, holding_work := ?_, consuming_work := ?_
      disconnected := fun _ => hall }⟩
    all_goals
      intros
      contradiction
  | push k r b hc _ hpush => exact ⟨_, push_inv h hc hpush⟩
  | pushPanics k r rej hc _ hpush =>
    obtain ⟨b, hb, -⟩ := push_accepted h hc
    rw [hb] at hpush
    cases hpush
  | pop r b hc hpop => exact ⟨_, pop_inv h hc hpop⟩
  | drained hc hpop =>
    cases s
    simp only at hc hpop
    subst hc
    refine ⟨place, { h with
      workers := workerOk_of_running h.workers (by simp) rfl rfl rfl rfl
      drained := fun _ => popReady_eq_none.mp hpop
      starting := ?_, received_work := ?_, holding_work := ?_, consuming_work := ?_
      disconnected := ?_ }⟩
    all_goals
      intros
      contradiction
  | beforeFails r e hc _ hbefore =>
    refine ⟨_, h.leave rfl (by rw [hc]; rfl) ?_ (fun ho => by cases ho)⟩
    exact justified_of_failAt h (by rw [hc]; rfl) (by simp [Config.failAt, hbefore])
  | resultFails e hc _ hbefore =>
    have hwork := h.holding_work _ hc
    refine ⟨_, h.leave rfl (by rw [hc]; rfl) ?_ (fun ho => by cases ho)⟩
    exact justified_of_failAt h (by rw [hc]; rfl) (by simp [Config.failAt, hbefore, ← hwork])
  | unwrap item hc _ hbefore =>
    have hwork := h.holding_work _ hc
    cases s
    simp only at hc hbefore hwork
    subst hc
    refine ⟨place, { h with
      workers := workerOk_of_running h.workers (by simp) rfl rfl rfl rfl
      consuming_work := fun t ht => by
        cases ht
        exact ⟨hwork.symm, hbefore⟩
      drained := ?_, starting := ?_, received_work := ?_, holding_work := ?_
      disconnected := ?_ }⟩
    all_goals
      intros
      contradiction
  | consumeFails item e hc hconsume =>
    obtain ⟨hwork, hbefore⟩ := h.consuming_work item hc
    have hlen := h.log_length (by rw [hc]; rfl)
    have hfst := h.log_fst
    have hj : Justified cfg s (.error (.failed e)) :=
      justified_of_failAt h (by rw [hc]; rfl) (by simp [Config.failAt, hbefore, hwork, hconsume])
    have h' := h.leave (c := .leaving (.error (.failed e))) rfl (by rw [hc]; rfl) hj
      (fun ho => by cases ho)
    refine ⟨_, { h' with
      log_fst := log_snoc item hfst hlen
      log_length := fun hs => by cases hs
      log_work := ?_
      justified_log := fun hs => by cases hs }⟩
    intro p hp
    rcases mem_append.mp hp with hp | hp
    · exact h.log_work p hp
    · obtain rfl := mem_singleton.mp hp
      exact hwork
  | consume item hc hconsume => exact ⟨_, consume_inv h hc hconsume⟩
  | credit hc => exact ⟨_, credit_inv h hc⟩
  | endShort hc _ hshort => exact absurd (h.disconnected hc) hshort
  | endOk hc _ hall =>
    have hlen := h.log_length (by rw [hc]; rfl)
    exact ⟨_, h.leave rfl (by rw [hc]; rfl) hall (fun _ => hlen)⟩
  | closeStopped o hc =>
    have hj := h.justified o (by rw [hc]; rfl)
    have h' := h.leave (c := .closing o) rfl (by rw [hc]; rfl) hj
      (fun ho => h.justified_log (by rw [hc, ho]; rfl))
    exact ⟨_, { h' with stopped := fun _ => .inr rfl }⟩
  | close o hc =>
    have hj := h.justified o (by rw [hc]; rfl)
    have h' := h.leave (c := .dropping o) rfl (by rw [hc]; rfl) hj
      (fun ho => h.justified_log (by rw [hc, ho]; rfl))
    exact ⟨_, { h' with closed := fun _ => rfl }⟩
  | dropReceiver o hc =>
    have hj := h.justified o (by rw [hc]; rfl)
    have h' := h.leave (c := .left o) rfl (by rw [hc]; rfl) hj
      (fun ho => h.justified_log (by rw [hc, ho]; rfl))
    exact ⟨_, dropChannel_inv h' rfl⟩

end ConsumerSteps

end OrderedPoolInvariant
