import Mathlib.Data.List.Perm.Subperm
import Mathlib.Data.List.Nodup
import Pbfhogg.Lib.Fallible
import Pbfhogg.Pool.Streams

/-!
# Every run of the streamed pool

While the calling thread goes on, each channel holds what its task has sent and the consumer has not
read, and each unfinished task has one sender. What was handed over is a prefix of all items in task
order.
-/

namespace StreamPoolRuns

open StreamPool Fallible List Function

variable {W : Nat} {P T U E : Type} {cfg : Config P T U E} {s t : State W P T U E}

variable {i : Nat} {item : T} {w : Fin W} {p : P} {e : E} {rest : List Nat}

def issuingCount : Main P T U E → Nat
  | .issuing _ => 1
  | _ => 0

def receivedCount : Main P T U E → Nat
  | .received _ => 1
  | _ => 0

def Live : Main P T U E → Prop
  | .leaving _ => False
  | .dropping _ => False
  | .left _ => False
  | _ => True

def outcome : Main P T U E → Option (Outcome E)
  | .leaving o => some o
  | .dropping o => some o
  | .left o => some o
  | _ => none

/-- The calling thread is inside a task. -/
def Reading (cfg : Config P T U E) (s : State W P T U E) : Prop :=
  s.spawned = true ∧ s.pending ≠ [] ∧ cfg.beforeTask s.task = .ok ()

/-- What the calling thread relies on where it stands. -/
def MainOk (cfg : Config P T U E) (s : State W P T U E) : Main P T U E → Prop
  | .starting => s.nextToIssue = 0 ∧ s.pending = [] ∧ s.issue = .opened ∧ s.taken = 0
  | .issuing p => s.issue = .opened ∧ p = cfg.payload s.nextToIssue ∧ s.taken = 0
  | .refilling => s.taken = 0 ∧ 0 < s.nextToIssue
  | .spawning => s.spawned = false ∧ s.taken = 0 ∧ (s.pending = [] → s.issue ≠ .opened)
  | .looping => s.spawned = true ∧ s.taken = 0 ∧ (s.pending = [] → s.issue ≠ .opened)
  | .checking => Reading cfg s
  | .receiving => Reading cfg s
  | .received m => Reading cfg s ∧ ∃ msg, m = some msg ∧ (cfg.msgs s.task)[s.taken]? = some msg
  | _ => True

/-- Why the run ends as it does. -/
def Justified (cfg : Config P T U E) (s : State W P T U E) : Outcome E → Prop
  | .ok () => s.task = cfg.nTasks ∧ cfg.sourceEnd = .ok ()
  | .error .cancelled => s.cancelled = true
  | .error (.failed e) =>
    (s.task < cfg.nTasks ∧ cfg.failIn s.task = some e) ∨
      (s.task = cfg.nTasks ∧ cfg.sourceEnd = .error e)
  | .error (.internal _) => W = 0

/-- What holds of a run for good. -/
structure Facts (cfg : Config P T U E) (s : State W P T U E) : Prop where
  log : s.log = (range s.task).flatMap cfg.taskLog ++ (cfg.taskLog s.task).take s.taken
  done : ∀ k, k < s.task → cfg.failIn k = none
  task_le : s.task ≤ cfg.nTasks
  taken_lt : s.taken ≠ 0 → s.task < cfg.nTasks
  window : s.nextToIssue + issuingCount s.main ≤ s.task + cfg.window
  justified : ∀ o, outcome s.main = some o → Justified cfg s o

/-- What holds while the calling thread goes on. -/
structure Flow (cfg : Config P T U E) (s : State W P T U E) : Prop where
  mainOk : MainOk cfg s s.main
  abandoned : s.abandoned = false
  pending_eq : s.pending = range' s.task s.pending.length
  issued : s.task + s.pending.length = s.nextToIssue + issuingCount s.main
  issued_le : s.nextToIssue + issuingCount s.main ≤ cfg.nTasks
  workers_pos : 0 < s.task + s.pending.length → W ≠ 0
  open_tx : s.issue = .opened → s.jobTx = true
  sourceDone : s.issue = .done → s.nextToIssue = cfg.nTasks ∧ cfg.sourceEnd = .ok ()
  sourceFailed : ∀ e, s.issue = .failed e →
    s.nextToIssue = cfg.nTasks ∧ cfg.sourceEnd = .error e
  seen : s.seen = s.taken + receivedCount s.main
  taken_le : s.taken ≤ (cfg.items s.task).length
  items_ok : ∀ i item, i < s.taken → (cfg.items s.task)[i]? = some item →
    cfg.item s.task i item = .ok ()
  chan : ∀ k, s.task ≤ k → k < s.nextToIssue →
    s.chan k = ((cfg.msgs k).take (s.sent k)).drop (if k = s.task then s.seen else 0)
  seen_le : s.seen ≤ s.sent s.task
  sent_le : ∀ k, s.sent k ≤ (cfg.msgs k).length
  done_sent : ∀ k, k < s.task → s.sent k = (cfg.msgs k).length
  new_sent : ∀ k, s.nextToIssue ≤ k → s.sent k = 0 ∧ s.chan k = []
  jobs_ok : ∀ k p, (k, p) ∈ s.jobs → k < s.nextToIssue ∧ s.sent k = 0 ∧ p = cfg.payload k
  jobs_nodup : (s.jobs.map Prod.fst).Nodup
  running : ∀ w k p i, s.workers w = .running k p i →
    k < s.nextToIssue ∧ s.sent k = i ∧ i < (cfg.msgs k).length ∧ p = cfg.payload k ∧
      k ∉ s.jobs.map Prod.fst
  running_inj : ∀ w w' k p i p' i', s.workers w = .running k p i →
    s.workers w' = .running k p' i' → w = w'
  covered : ∀ k, s.task ≤ k → k < s.nextToIssue →
    s.sent k = (cfg.msgs k).length ∨ k ∈ s.jobs.map Prod.fst ∨
      ∃ w p i, s.workers w = .running k p i
  gone : ∀ w, s.workers w = .gone → s.spawned = true → s.jobTx = false ∧ s.jobs = []
  unspawned : s.spawned = false → ∀ w, s.workers w = .gone

structure Inv (cfg : Config P T U E) (s : State W P T U E) : Prop where
  facts : Facts cfg s
  flow : Live s.main → Flow cfg s

lemma length_msgs (cfg : Config P T U E) (k : Nat) :
    (cfg.msgs k).length = (cfg.items k).length + 1 := by
  simp [Config.msgs]

variable {k : Nat}

lemma msgs_item (h : (cfg.items k)[i]? = some item) :
    (cfg.msgs k)[i]? = some (.item item) := by
  obtain ⟨hi, -⟩ := List.getElem?_eq_some_iff.mp h
  rw [Config.msgs, List.getElem?_append_left (by simpa using hi), List.getElem?_map, h]
  rfl

lemma msgs_ended (cfg : Config P T U E) (k : Nat) :
    (cfg.msgs k)[(cfg.items k).length]? = some (.ended (cfg.ends k (cfg.payload k))) := by
  rw [Config.msgs, getElem?_append_right (by simp)]
  simp

/-- An item among the messages is the item at its place; a terminal comes last. -/
theorem items_of_msgs_item (h : (cfg.msgs k)[i]? = some (.item item)) :
    (cfg.items k)[i]? = some item := by
  by_cases hi : i < (cfg.items k).length
  · rw [Config.msgs, getElem?_append_left (by simpa using hi), getElem?_map] at h
    cases hx : (cfg.items k)[i]? with
    | none =>
      rw [hx] at h
      cases h
    | some x =>
      rw [hx] at h
      cases h
      rfl
  · obtain ⟨hlt, -⟩ := List.getElem?_eq_some_iff.mp h
    rw [length_msgs] at hlt
    have heq : i = (cfg.items k).length := by omega
    rw [heq, msgs_ended] at h
    cases h

lemma length_of_msgs_ended {r : Except E U} (h : (cfg.msgs k)[i]? = some (.ended r)) :
    i = (cfg.items k).length ∧ r = cfg.ends k (cfg.payload k) := by
  obtain ⟨hlt, -⟩ := List.getElem?_eq_some_iff.mp h
  rw [length_msgs] at hlt
  by_cases hi : i < (cfg.items k).length
  · obtain ⟨x, hx⟩ : ∃ x, (cfg.items k)[i]? = some x :=
      ⟨_, getElem?_eq_getElem hi⟩
    rw [msgs_item hx] at h
    cases h
  · have heq : i = (cfg.items k).length := by omega
    subst heq
    rw [msgs_ended] at h
    cases h
    exact ⟨rfl, rfl⟩

lemma start_inv (cfg : Config P T U E) : Inv cfg (start : State W P T U E) where
  facts :=
    { log := by simp [start]
      done := fun k hk => absurd hk (Nat.not_lt_zero k)
      task_le := Nat.zero_le _
      taken_lt := fun h => absurd rfl h
      window := Nat.zero_le _
      justified := fun o ho => by cases ho }
  flow := fun _ =>
    { mainOk := ⟨rfl, rfl, rfl, rfl⟩
      abandoned := rfl
      pending_eq := rfl
      issued := rfl
      issued_le := Nat.zero_le _
      workers_pos := fun h => absurd h (Nat.lt_irrefl 0)
      open_tx := fun _ => rfl
      sourceDone := fun h => by cases h
      sourceFailed := fun e h => by cases h
      seen := rfl
      taken_le := Nat.zero_le _
      items_ok := fun i item hi => absurd hi (Nat.not_lt_zero i)
      chan := fun k _ hk => absurd hk (Nat.not_lt_zero k)
      seen_le := Nat.le_refl 0
      sent_le := fun k => Nat.zero_le _
      done_sent := fun k hk => absurd hk (Nat.not_lt_zero k)
      new_sent := fun k _ => ⟨rfl, rfl⟩
      jobs_ok := fun k p h => by cases h
      jobs_nodup := nodup_nil
      running := fun w k p i h => by cases h
      running_inj := fun w w' k p i p' i' h => by cases h
      covered := fun k _ hk => absurd hk (Nat.not_lt_zero k)
      gone := fun w _ h => by cases h
      unspawned := fun _ w => rfl }

lemma task_le_of_unsent (h : Flow cfg s) (hk : s.sent k < (cfg.msgs k).length) :
    s.task ≤ k := by
  by_contra hlt
  have hsent := h.done_sent k (by omega)
  omega

lemma mem_pending_iff (h : Flow cfg s) :
    k ∈ s.pending ↔ s.task ≤ k ∧ k < s.nextToIssue + issuingCount s.main := by
  rw [h.pending_eq, mem_range'_1, h.issued]

lemma running_pending (h : Flow cfg s) (hw : s.workers w = .running k p i) :
    s.task ≤ k ∧ k ∈ s.pending := by
  obtain ⟨hlt, hsent, hlen, -, -⟩ := h.running w k p i hw
  have hge := task_le_of_unsent h (by rw [hsent]; exact hlen)
  exact ⟨hge, (mem_pending_iff h).mpr ⟨hge, by omega⟩⟩

/-- A worker moves between the flag and the queue. -/
theorem setIdle_flow (h : Flow cfg s) {x : Worker P}
    (hold : ∀ k p i, s.workers w ≠ .running k p i) (hnew : ∀ k p i, x ≠ .running k p i)
    (hgone : x = .gone → s.spawned = true → s.jobTx = false ∧ s.jobs = [])
    (hspawned : s.workers w ≠ .gone) : Flow cfg (s.setWorker w x) := by
  have hrun : ∀ w' k p i, update s.workers w x w' = .running k p i →
      s.workers w' = .running k p i := by
    intro w' k p i hw'
    by_cases hww : w' = w
    · rw [hww, update_self] at hw'
      exact absurd hw' (hnew k p i)
    · rwa [update_of_ne hww] at hw'
  exact { h with
    running := fun w' k p i hw' => h.running w' k p i (hrun w' k p i hw')
    running_inj := fun w₁ w₂ k p i p' i' h₁ h₂ =>
      h.running_inj w₁ w₂ k p i p' i' (hrun _ _ _ _ h₁) (hrun _ _ _ _ h₂)
    covered := by
      intro k hge hlt
      rcases h.covered k hge hlt with hsent | hjob | ⟨w', p, i, hw'⟩
      · exact .inl hsent
      · exact .inr (.inl hjob)
      · refine .inr (.inr ⟨w', p, i, ?_⟩)
        have hww : w' ≠ w := by
          intro heq
          rw [heq] at hw'
          exact hold k p i hw'
        show update s.workers w x w' = _
        rw [update_of_ne hww, hw']
    gone := by
      intro w' hw' hsp
      change update s.workers w x w' = .gone at hw'
      by_cases hww : w' = w
      · rw [hww, update_self] at hw'
        exact hgone hw' hsp
      · rw [update_of_ne hww] at hw'
        exact h.gone w' hw' hsp
    unspawned := fun hsp => absurd (h.unspawned hsp w) hspawned }

lemma take_flow (h : Flow cfg s) {rest : List (Nat × P)} (hw : s.workers w = .taking)
    (hjobs : s.jobs = (k, p) :: rest) :
    Flow cfg { s.setWorker w (.running k p 0) with jobs := rest } := by
  have hmem : (k, p) ∈ s.jobs := by
    rw [hjobs]
    exact mem_cons_self
  have hsub : ∀ j q, (j, q) ∈ rest → (j, q) ∈ s.jobs := by
    intro j q hq
    rw [hjobs]
    exact mem_cons_of_mem _ hq
  obtain ⟨hlt, hsent, hp⟩ := h.jobs_ok k p hmem
  have hnodup := h.jobs_nodup
  rw [hjobs, map_cons, nodup_cons] at hnodup
  have hfirst : ∀ w' p' i', s.workers w' ≠ .running k p' i' := by
    intro w' p' i' hw'
    have hnot := (h.running w' k p' i' hw').2.2.2.2
    exact hnot (mem_map_of_mem (f := Prod.fst) hmem)
  have hcase : ∀ w' j p' i', update s.workers w (.running k p 0) w' = .running j p' i' →
      (w' = w ∧ j = k ∧ p' = p ∧ i' = 0) ∨ (w' ≠ w ∧ s.workers w' = .running j p' i') := by
    intro w' j p' i' hw'
    by_cases hww : w' = w
    · rw [hww, update_self] at hw'
      cases hw'
      exact .inl ⟨hww, rfl, rfl, rfl⟩
    · rw [update_of_ne hww] at hw'
      exact .inr ⟨hww, hw'⟩
  exact { h with
    jobs_ok := fun j q hq => h.jobs_ok j q (hsub j q hq)
    jobs_nodup := hnodup.2
    running := by
      intro w' j p' i' hw'
      rcases hcase w' j p' i' hw' with ⟨-, rfl, rfl, rfl⟩ | ⟨-, hw'⟩
      · exact ⟨hlt, hsent, by rw [length_msgs]; omega, hp, hnodup.1⟩
      · obtain ⟨h1, h2, h3, h4, h5⟩ := h.running w' j p' i' hw'
        refine ⟨h1, h2, h3, h4, fun hin => h5 ?_⟩
        rw [hjobs, map_cons]
        exact mem_cons_of_mem _ hin
    running_inj := by
      intro w₁ w₂ j p₁ i₁ p₂ i₂ h₁ h₂
      rcases hcase _ _ _ _ h₁ with ⟨e₁, rfl, -, -⟩ | ⟨-, h₁⟩
      · rcases hcase _ _ _ _ h₂ with ⟨e₂, -, -, -⟩ | ⟨-, h₂⟩
        · rw [e₁, e₂]
        · exact absurd h₂ (hfirst _ _ _)
      · rcases hcase _ _ _ _ h₂ with ⟨-, hjk, -, -⟩ | ⟨-, h₂⟩
        · rw [hjk] at h₁
          exact absurd h₁ (hfirst _ _ _)
        · exact h.running_inj _ _ _ _ _ _ _ h₁ h₂
    covered := by
      intro j hge hj
      have hself : update s.workers w (.running k p 0) w = .running k p 0 :=
        update_self ..
      rcases h.covered j hge hj with hs | hjob | ⟨w', p', i', hw'⟩
      · exact .inl hs
      · rw [hjobs, map_cons] at hjob
        rcases mem_cons.mp hjob with rfl | hjob
        · exact .inr (.inr ⟨w, p, 0, hself⟩)
        · exact .inr (.inl hjob)
      · have hww : w' ≠ w := by
          intro heq
          rw [heq, hw] at hw'
          cases hw'
        refine .inr (.inr ⟨w', p', i', ?_⟩)
        show update s.workers w (.running k p 0) w' = _
        rw [update_of_ne hww, hw']
    gone := by
      intro w' hw' hsp
      change update s.workers w (.running k p 0) w' = .gone at hw'
      by_cases hww : w' = w
      · rw [hww, update_self] at hw'
        cases hw'
      · rw [update_of_ne hww] at hw'
        have hempty := (h.gone w' hw' hsp).2
        rw [hempty] at hjobs
        cases hjobs
    unspawned := by
      intro hsp
      have hgone := h.unspawned hsp w
      rw [hw] at hgone
      cases hgone }

lemma drop_take_succ {α : Type} {l : List α} {d : Nat} {x : α} (hx : l[i]? = some x)
    (hd : d ≤ i) : (l.take (i + 1)).drop d = (l.take i).drop d ++ [x] := by
  obtain ⟨hi, hget⟩ := List.getElem?_eq_some_iff.mp hx
  rw [List.take_add_one, hx, List.drop_append_of_le_length (by rw [List.length_take]; omega)]
  rfl

/-- A worker sends the next message of its task, and goes on or is done with it. -/
theorem put_flow (h : Flow cfg s) {msg : StreamMsg T U E} {x : Worker P}
    (hw : s.workers w = .running k p i) (hmsg : (cfg.msgs k)[i]? = some msg)
    (hx : (x = .running k p (i + 1) ∧ i + 1 < (cfg.msgs k).length) ∨
      (x = .top ∧ i + 1 = (cfg.msgs k).length)) :
    Flow cfg ((s.put k msg).setWorker w x) := by
  obtain ⟨hlt, hsent, hlen, hp, hnotjob⟩ := h.running w k p i hw
  obtain ⟨hge, -⟩ := running_pending h hw
  have hsent_self : update s.sent k (s.sent k + 1) k = i + 1 := by
    rw [update_self, hsent]
  have hsent_ne : ∀ j, j ≠ k → update s.sent k (s.sent k + 1) j = s.sent j :=
    fun j hj => update_of_ne hj ..
  have hcase : ∀ w' j p' i', update s.workers w x w' = .running j p' i' →
      (w' = w ∧ j = k ∧ p' = p ∧ i' = i + 1 ∧ i + 1 < (cfg.msgs k).length) ∨
        (w' ≠ w ∧ j ≠ k ∧ s.workers w' = .running j p' i') := by
    intro w' j p' i' hw'
    by_cases hww : w' = w
    · rw [hww, update_self] at hw'
      rcases hx with ⟨hx, hmore⟩ | ⟨hx, -⟩
      · rw [hx] at hw'
        cases hw'
        exact .inl ⟨hww, rfl, rfl, rfl, hmore⟩
      · rw [hx] at hw'
        cases hw'
    · rw [update_of_ne hww] at hw'
      refine .inr ⟨hww, ?_, hw'⟩
      intro heq
      rw [heq] at hw'
      exact hww (h.running_inj _ _ _ _ _ _ _ hw' hw)
  exact { h with
    chan := by
      intro j hjge hjlt
      show update s.chan k (s.chan k ++ [msg]) j =
        ((cfg.msgs j).take (update s.sent k (s.sent k + 1) j)).drop _
      by_cases hj : j = k
      · rw [hj, update_self, hsent_self, h.chan k hge hlt, hsent]
        refine (drop_take_succ hmsg ?_).symm
        split
        · next hk =>
          have hseen := h.seen_le
          rw [← hk, hsent] at hseen
          exact hseen
        · exact Nat.zero_le _
      · rw [update_of_ne hj, hsent_ne j hj]
        exact h.chan j hjge hjlt
    seen_le := by
      have hseen := h.seen_le
      show s.seen ≤ update s.sent k (s.sent k + 1) s.task
      by_cases hj : s.task = k
      · rw [hj, update_self]
        rw [hj] at hseen
        omega
      · rw [hsent_ne _ hj]
        exact hseen
    sent_le := by
      intro j
      show update s.sent k (s.sent k + 1) j ≤ _
      by_cases hj : j = k
      · rw [hj, hsent_self]
        omega
      · rw [hsent_ne j hj]
        exact h.sent_le j
    done_sent := by
      intro j hj
      show update s.sent k (s.sent k + 1) j = _
      rw [hsent_ne j (by change j < s.task at hj; omega)]
      exact h.done_sent j hj
    new_sent := by
      intro j hj
      have hjk : j ≠ k := by
        change s.nextToIssue ≤ j at hj
        omega
      show update s.sent k (s.sent k + 1) j = 0 ∧
        update s.chan k (s.chan k ++ [msg]) j = []
      rw [hsent_ne j hjk, update_of_ne hjk]
      exact h.new_sent j hj
    jobs_ok := by
      intro j q hq
      obtain ⟨hjlt, hjsent, hjp⟩ := h.jobs_ok j q hq
      have hjk : j ≠ k := by
        intro heq
        rw [heq] at hq
        exact hnotjob (mem_map_of_mem (f := Prod.fst) hq)
      refine ⟨hjlt, ?_, hjp⟩
      show update s.sent k (s.sent k + 1) j = 0
      rw [hsent_ne j hjk, hjsent]
    running := by
      intro w' j p' i' hw'
      show j < s.nextToIssue ∧ update s.sent k (s.sent k + 1) j = i' ∧ _
      rcases hcase w' j p' i' hw' with ⟨-, rfl, rfl, rfl, hmore⟩ | ⟨-, hjk, hw'⟩
      · exact ⟨hlt, hsent_self, hmore, hp, hnotjob⟩
      · rw [hsent_ne j hjk]
        exact h.running w' j p' i' hw'
    running_inj := by
      intro w₁ w₂ j p₁ i₁ p₂ i₂ h₁ h₂
      rcases hcase _ _ _ _ h₁ with ⟨e₁, rfl, -, -, -⟩ | ⟨-, hj, h₁⟩
      · rcases hcase _ _ _ _ h₂ with ⟨e₂, -, -, -, -⟩ | ⟨-, hj, -⟩
        · rw [e₁, e₂]
        · exact absurd rfl hj
      · rcases hcase _ _ _ _ h₂ with ⟨-, hjk, -, -, -⟩ | ⟨-, -, h₂⟩
        · exact absurd hjk hj
        · exact h.running_inj _ _ _ _ _ _ _ h₁ h₂
    covered := by
      intro j hjge hjlt
      show update s.sent k (s.sent k + 1) j = _ ∨ _
      by_cases hj : j = k
      · rw [hj, hsent_self]
        rcases hx with ⟨rfl, -⟩ | ⟨-, hlast⟩
        · exact .inr (.inr ⟨w, p, i + 1, update_self ..⟩)
        · exact .inl hlast
      · rw [hsent_ne j hj]
        rcases h.covered j hjge hjlt with hs | hjob | ⟨w', p', i', hw'⟩
        · exact .inl hs
        · exact .inr (.inl hjob)
        · have hww : w' ≠ w := by
            intro heq
            rw [heq, hw] at hw'
            cases hw'
            exact hj rfl
          refine .inr (.inr ⟨w', p', i', ?_⟩)
          show update s.workers w x w' = _
          rw [update_of_ne hww, hw']
    gone := by
      intro w' hw' hsp
      change update s.workers w x w' = .gone at hw'
      by_cases hww : w' = w
      · rw [hww, update_self] at hw'
        rcases hx with ⟨hx, -⟩ | ⟨hx, -⟩
        · rw [hx] at hw'
          cases hw'
        · rw [hx] at hw'
          cases hw'
      · rw [update_of_ne hww] at hw'
        exact h.gone w' hw' hsp
    unspawned := by
      intro hsp
      have hgone := h.unspawned hsp w
      rw [hw] at hgone
      cases hgone }

lemma workerStep_flow (h : Flow cfg s) (hstep : WorkerStep cfg s w t) : Flow cfg t := by
  cases hstep with
  | readAbandoned _ hflag | stopEarly _ _ _ _ hflag =>
    rw [h.abandoned] at hflag
    cases hflag
  | readRunning hw hflag =>
    exact setIdle_flow h (by simp [hw]) (by simp) (by simp) (by simp [hw])
  | take k p rest hw hjobs => exact take_flow h hw hjobs
  | noJob hw hjobs htx =>
    exact setIdle_flow h (by simp [hw]) (by simp) (fun _ _ => ⟨htx, hjobs⟩) (by simp [hw])
  | emit k p i item hw hitem hrx hroom =>
    obtain ⟨-, -, -, hp, -⟩ := h.running w k p i hw
    have hmsg : (cfg.items k)[i]? = some item := by
      rw [Config.items, ← hp, hitem]
    obtain ⟨hi, -⟩ := List.getElem?_eq_some_iff.mp hmsg
    exact put_flow h hw (msgs_item hmsg) (.inl ⟨rfl, by rw [length_msgs]; omega⟩)
  | finish k p i hw hend hrx hroom =>
    obtain ⟨-, -, hlen, hp, -⟩ := h.running w k p i hw
    have hge : (cfg.items k).length ≤ i := by
      rw [Config.items, ← hp]
      exact getElem?_eq_none_iff.mp hend
    rw [length_msgs] at hlen
    have hi : i = (cfg.items k).length := by omega
    have hmsg := msgs_ended cfg k
    rw [← hi, ← hp] at hmsg
    exact put_flow h hw hmsg (.inr ⟨rfl, by rw [length_msgs]; omega⟩)
  | sendFails k p i hw hrx => exact absurd (running_pending h hw).2 hrx

lemma workerStep_inv (h : Inv cfg s) (hstep : WorkerStep cfg s w t) : Inv cfg t := by
  have hsame : t.main = s.main ∧ Facts cfg t := by
    cases hstep with
    | _ => exact ⟨rfl, { h.facts with }⟩
  refine ⟨hsame.2, fun hlive => ?_⟩
  rw [hsame.1] at hlive
  exact workerStep_flow (h.flow hlive) hstep

lemma failIn_before (h : cfg.beforeTask k = .error e) : cfg.failIn k = some e := by
  rw [Config.failIn, h]

lemma itemFailure_none
    (h : ∀ i item, i < (cfg.items k).length → (cfg.items k)[i]? = some item → cfg.item k i item = .ok ()) :
    cfg.itemFailure k = none := by
  rw [Config.itemFailure, findSome?_eq_none_iff]
  intro i hi
  have hlt := mem_range.mp hi
  have hget : (cfg.items k)[i]? = some (cfg.items k)[i] := getElem?_eq_getElem hlt
  rw [hget]
  simp only [h i _ hlt hget]

lemma failIn_item (hbefore : cfg.beforeTask k = .ok ()) (hget : (cfg.items k)[i]? = some item)
    (hlow : ∀ j x, j < i → (cfg.items k)[j]? = some x → cfg.item k j x = .ok ())
    (hfail : cfg.item k i item = .error e) : cfg.failIn k = some e := by
  obtain ⟨hi, -⟩ := List.getElem?_eq_some_iff.mp hget
  have hitem : cfg.itemFailure k = some e := by
    refine findSome_range_eq hi ?_ ?_
    · intro j hj
      have hjget : (cfg.items k)[j]? = some (cfg.items k)[j] :=
        getElem?_eq_getElem (by omega)
      rw [hjget]
      simp only [hlow j _ hj hjget]
    · rw [hget]
      simp only [hfail]
  rw [Config.failIn, hbefore]
  simp only [hitem]

section Ended

variable {k : Nat} (hbefore : cfg.beforeTask k = .ok ()) (hitems : cfg.itemFailure k = none)
include hbefore hitems

lemma failIn_ended (hend : cfg.ends k (cfg.payload k) = .error e) : cfg.failIn k = some e := by
  rw [Config.failIn, hbefore]
  simp only [hitems, hend]

lemma failIn_finish {u : U} (hend : cfg.ends k (cfg.payload k) = .ok u)
    (hfinish : cfg.finishTask k u = .error e) : cfg.failIn k = some e := by
  rw [Config.failIn, hbefore]
  simp only [hitems, hend, hfinish]

lemma failIn_none {u : U} (hend : cfg.ends k (cfg.payload k) = .ok u)
    (hfinish : cfg.finishTask k u = .ok ()) : cfg.failIn k = none := by
  rw [Config.failIn, hbefore]
  simp only [hitems, hend, hfinish]

end Ended

lemma source_some (h : cfg.source k = .ok (some p)) :
    k < cfg.nTasks ∧ p = cfg.payload k := by
  unfold Config.source at h
  split at h
  · next hk =>
    cases h
    exact ⟨hk, rfl⟩
  · split at h <;> cases h

lemma source_none (h : cfg.source k = .ok none) :
    cfg.nTasks ≤ k ∧ cfg.sourceEnd = .ok () := by
  unfold Config.source at h
  split at h
  · cases h
  · next hk =>
    split at h
    · next hend => exact ⟨by omega, hend⟩
    · cases h

lemma source_error (h : cfg.source k = .error e) :
    cfg.nTasks ≤ k ∧ cfg.sourceEnd = .error e := by
  unfold Config.source at h
  split at h
  · cases h
  · next hk =>
    split at h
    · cases h
    · next e' hend =>
      cases h
      exact ⟨by omega, hend⟩

/-- The calling thread has its result. -/
theorem leave_inv (h : Inv cfg s) {x : Main P T U E} {o : Outcome E} (hx : ¬ Live x)
    (hout : outcome x = some o) (hj : Justified cfg s o) : Inv cfg { s with main := x } := by
  have hcount : issuingCount x = 0 := by
    cases x with
    | issuing p => exact absurd trivial hx
    | _ => rfl
  refine ⟨{ h.facts with window := ?_, justified := ?_ }, fun hlive => absurd hlive hx⟩
  · have hwin := h.facts.window
    show s.nextToIssue + issuingCount x ≤ s.task + cfg.window
    rw [hcount]
    omega
  · intro o' ho'
    change outcome x = some o' at ho'
    rw [hout] at ho'
    cases ho'
    cases o with
    | ok u => exact hj
    | error f =>
      cases f with
      | cancelled | failed | internal => exact hj

/-- The calling thread goes on, with nothing else changed. -/
theorem move_inv (h : Inv cfg s) (x : Main P T U E) (hlive : Live s.main)
    (hissue : issuingCount x = issuingCount s.main)
    (hrec : receivedCount x = receivedCount s.main) (hout : outcome x = none)
    (hok : MainOk cfg { s with main := x } x) : Inv cfg { s with main := x } := by
  have hflow := h.flow hlive
  refine ⟨{ h.facts with window := ?_, justified := ?_ }, fun _ => ?_⟩
  · show s.nextToIssue + issuingCount x ≤ _
    rw [hissue]
    exact h.facts.window
  · intro o ho
    change outcome x = some o at ho
    rw [hout] at ho
    cases ho
  · exact { hflow with
      mainOk := hok
      issued := by
        show _ = s.nextToIssue + issuingCount x
        rw [hissue]
        exact hflow.issued
      issued_le := by
        show s.nextToIssue + issuingCount x ≤ _
        rw [hissue]
        exact hflow.issued_le
      seen := by
        show s.seen = s.taken + receivedCount x
        rw [hrec]
        exact hflow.seen }

/-- A task is pulled and its receiver kept. -/
theorem pull_inv (h : Inv cfg s) (hlive : Live s.main) (hissue : issuingCount s.main = 0)
    (hrec : receivedCount s.main = 0) (hopen : s.issue = .opened) (htaken : s.taken = 0)
    (hwin : s.pending.length < cfg.window) (hsource : cfg.source s.nextToIssue = .ok (some p))
    (hW : W ≠ 0) :
    Inv cfg { s with main := .issuing p, pending := s.pending ++ [s.nextToIssue] } := by
  have hflow := h.flow hlive
  obtain ⟨hlt, hp⟩ := source_some hsource
  have hissued := hflow.issued
  rw [hissue, Nat.add_zero] at hissued
  refine ⟨{ h.facts with window := ?_, justified := ?_ }, fun _ => ?_⟩
  · show s.nextToIssue + 1 ≤ s.task + cfg.window
    omega
  · intro o ho
    cases ho
  · exact { hflow with
      mainOk := ⟨hopen, hp, htaken⟩
      pending_eq := by
        show s.pending ++ [s.nextToIssue] =
          range' s.task (s.pending ++ [s.nextToIssue]).length
        rw [length_append, length_singleton, range'_1_concat, ← hflow.pending_eq,
          hissued]
      issued := by
        show s.task + (s.pending ++ [s.nextToIssue]).length = s.nextToIssue + 1
        rw [length_append, length_singleton]
        omega
      issued_le := hlt
      workers_pos := fun _ => hW
      seen := by
        have hseen := hflow.seen
        rw [hrec] at hseen
        exact hseen }

lemma not_queueGone (h : Flow cfg s) (hopen : s.issue = .opened)
    (hpos : 0 < s.task + s.pending.length) : ¬ QueueGone s := by
  rintro ⟨hsp, hall⟩
  have hW := h.workers_pos hpos
  have hclosed := (h.gone ⟨0, Nat.pos_of_ne_zero hW⟩ (hall _) hsp).1
  rw [h.open_tx hopen] at hclosed
  cases hclosed

lemma issueJob_inv (h : Inv cfg s) (hm : s.main = .issuing p) :
    Inv cfg
      { s with
        main := .refilling
        jobs := s.jobs ++ [(s.nextToIssue, p)]
        nextToIssue := s.nextToIssue + 1 } := by
  have hlive : Live s.main := by rw [hm]; trivial
  have hflow := h.flow hlive
  obtain ⟨hopen, hp, htaken⟩ : MainOk cfg s (.issuing p) := hm ▸ hflow.mainOk
  have hissued := hflow.issued
  have hissued_le := hflow.issued_le
  have hwin := h.facts.window
  rw [hm] at hissued hissued_le hwin
  simp only [issuingCount] at hissued hissued_le hwin
  obtain ⟨hsent, hchan⟩ := hflow.new_sent s.nextToIssue (Nat.le_refl _)
  refine ⟨{ h.facts with window := hwin, justified := fun o ho => by cases ho }, fun _ => ?_⟩
  exact { hflow with
    mainOk := ⟨htaken, Nat.succ_pos _⟩
    issued := hissued
    issued_le := hissued_le
    sourceDone := by
      intro hdone
      change s.issue = .done at hdone
      rw [hopen] at hdone
      cases hdone
    sourceFailed := by
      intro e hfailed
      change s.issue = .failed e at hfailed
      rw [hopen] at hfailed
      cases hfailed
    seen := by
      have hseen := hflow.seen
      rw [hm] at hseen
      exact hseen
    chan := by
      intro k hge hlt
      change k < s.nextToIssue + 1 at hlt
      by_cases hk : k = s.nextToIssue
      · show s.chan k = ((cfg.msgs k).take (s.sent k)).drop _
        rw [hk, hchan, hsent, take_zero, drop_nil]
      · exact hflow.chan k hge (by omega)
    new_sent := fun k hk => hflow.new_sent k (Nat.le_of_succ_le hk)
    jobs_ok := by
      intro k q hq
      show k < s.nextToIssue + 1 ∧ _
      rcases mem_append.mp hq with hq | hq
      · obtain ⟨h1, h2⟩ := hflow.jobs_ok k q hq
        exact ⟨by omega, h2⟩
      · rw [mem_singleton] at hq
        cases hq
        exact ⟨by omega, hsent, hp⟩
    jobs_nodup := by
      rw [map_append, nodup_append]
      refine ⟨hflow.jobs_nodup, by simp, ?_⟩
      intro a ha b hb heq
      obtain ⟨q, hq, rfl⟩ := mem_map.mp ha
      have hlt := (hflow.jobs_ok q.1 q.2 hq).1
      rw [map_cons, map_nil, mem_singleton] at hb
      simp only at hb
      omega
    running := by
      intro w k q i hw
      obtain ⟨h1, h2, h3, h4, h5⟩ := hflow.running w k q i hw
      refine ⟨Nat.lt_succ_of_lt h1, h2, h3, h4, ?_⟩
      rw [map_append, mem_append]
      rintro (hin | hin)
      · exact h5 hin
      · rw [map_cons, map_nil, mem_singleton] at hin
        simp only at hin
        omega
    covered := by
      intro k hge hlt
      change k < s.nextToIssue + 1 at hlt
      rw [map_append, mem_append]
      by_cases hk : k = s.nextToIssue
      · exact .inr (.inl (.inr (by simp [hk])))
      · rcases hflow.covered k hge (by omega) with h1 | h1 | h1
        · exact .inl h1
        · exact .inr (.inl (.inl h1))
        · exact .inr (.inr h1)
    gone := by
      intro w hw hsp
      have hclosed := (hflow.gone w hw hsp).1
      rw [hflow.open_tx hopen] at hclosed
      cases hclosed }

lemma sourceEnds_inv (h : Inv cfg s) (hm : s.main = .refilling) {i : Issue E}
    (hi : i ≠ .opened) (hdone : i = .done → s.nextToIssue = cfg.nTasks ∧ cfg.sourceEnd = .ok ())
    (hfailed : ∀ e, i = .failed e → s.nextToIssue = cfg.nTasks ∧ cfg.sourceEnd = .error e) :
    Inv cfg { s with issue := i } := by
  have hlive : Live s.main := by rw [hm]; trivial
  have hflow := h.flow hlive
  have htaken : MainOk cfg s .refilling := hm ▸ hflow.mainOk
  refine ⟨{ h.facts with justified := ?_ }, fun _ => ?_⟩
  · intro o ho
    change outcome s.main = some o at ho
    rw [hm] at ho
    cases ho
  · exact { hflow with
      mainOk := by
        show MainOk cfg { s with issue := i } s.main
        rw [hm]
        exact htaken
      open_tx := fun ho => absurd ho hi
      sourceDone := hdone
      sourceFailed := hfailed }

lemma closeQueue_inv (h : Inv cfg s) (hlive : Live s.main) (hclosed : s.issue ≠ .opened)
    (hm : s.main = .refilling) : Inv cfg { s with jobTx := false } := by
  have hflow := h.flow hlive
  have htaken : MainOk cfg s .refilling := hm ▸ hflow.mainOk
  refine ⟨{ h.facts with justified := ?_ }, fun _ => ?_⟩
  · intro o ho
    change outcome s.main = some o at ho
    rw [hm] at ho
    cases ho
  · exact { hflow with
      mainOk := by
        show MainOk cfg { s with jobTx := false } s.main
        rw [hm]
        exact htaken
      open_tx := fun ho => absurd ho hclosed
      gone := fun w hw hsp => ⟨rfl, (hflow.gone w hw hsp).2⟩ }

/-- The loop of `refill` is over. -/
theorem refilled_inv (h : Inv cfg s) (hm : s.main = .refilling)
    (hnext : s.pending = [] → s.issue ≠ .opened) :
    Inv cfg { s with main := if s.spawned then .looping else .spawning } := by
  have hlive : Live s.main := by rw [hm]; trivial
  obtain ⟨htaken, -⟩ : MainOk cfg s .refilling := hm ▸ (h.flow hlive).mainOk
  by_cases hsp : s.spawned = true
  · rw [if_pos hsp]
    exact move_inv h .looping hlive (by rw [hm]; rfl) (by rw [hm]; rfl) rfl
      ⟨hsp, htaken, hnext⟩
  · rw [if_neg hsp]
    exact move_inv h .spawning hlive (by rw [hm]; rfl) (by rw [hm]; rfl) rfl
      ⟨by simpa using hsp, htaken, hnext⟩

lemma spawn_inv (h : Inv cfg s) (hm : s.main = .spawning) :
    Inv cfg { s with main := .looping, workers := fun _ : Fin W => .top, spawned := true } := by
  have hlive : Live s.main := by rw [hm]; trivial
  have hflow := h.flow hlive
  obtain ⟨hsp, htaken, hnext⟩ : MainOk cfg s .spawning := hm ▸ hflow.mainOk
  refine ⟨{ h.facts with window := ?_, justified := fun o ho => by cases ho }, fun _ => ?_⟩
  · have hwin := h.facts.window
    rw [hm] at hwin
    exact hwin
  · exact { hflow with
      mainOk := ⟨rfl, htaken, hnext⟩
      issued := by
        have hissued := hflow.issued
        rw [hm] at hissued
        exact hissued
      issued_le := by
        have hle := hflow.issued_le
        rw [hm] at hle
        exact hle
      seen := by
        have hseen := hflow.seen
        rw [hm] at hseen
        exact hseen
      running := fun w k p i hw => by cases hw
      running_inj := fun w w' k p i p' i' hw => by cases hw
      covered := by
        intro k hge hlt
        rcases hflow.covered k hge hlt with h1 | h1 | ⟨w, p, i, hw⟩
        · exact .inl h1
        · exact .inr (.inl h1)
        · rw [hflow.unspawned hsp w] at hw
          cases hw
      gone := fun w hw => by cases hw
      unspawned := fun hx => by cases hx }

/-- The front receiver is that of the task being read. -/
theorem front_eq_task (h : Flow cfg s) {front : Nat} (hfront : s.pending = front :: rest) :
    front = s.task ∧ rest = range' (s.task + 1) rest.length := by
  have heq := h.pending_eq
  rw [hfront, length_cons, range'_succ] at heq
  injection heq with h1 h2
  exact ⟨h1, h2⟩

lemma task_issued (h : Flow cfg s) (hpending : s.pending ≠ [])
    (hissue : issuingCount s.main = 0) : s.task < s.nextToIssue := by
  have hissued := h.issued
  have hpos := length_pos_iff.mpr hpending
  omega

lemma receive_inv (h : Inv cfg s) {front : Nat} {msg : StreamMsg T U E}
    {msgs : List (StreamMsg T U E)} (hm : s.main = .receiving)
    (hfront : s.pending = front :: rest) (hchan : s.chan front = msg :: msgs) :
    Inv cfg
      { s with
        main := .received (some msg)
        chan := update s.chan front msgs
        seen := s.seen + 1 } := by
  have hlive : Live s.main := by rw [hm]; trivial
  have hflow := h.flow hlive
  have hread : Reading cfg s := (hm ▸ hflow.mainOk : MainOk cfg s .receiving)
  obtain ⟨rfl, -⟩ := front_eq_task hflow hfront
  have hlt := task_issued hflow hread.2.1 (by rw [hm]; rfl)
  have hseen := hflow.seen
  rw [hm] at hseen
  simp only [receivedCount, Nat.add_zero] at hseen
  have hcontent := hflow.chan s.task (Nat.le_refl _) hlt
  rw [if_pos rfl, hchan] at hcontent
  have hsent : s.seen < s.sent s.task := by
    have hlen := congrArg length hcontent
    rw [length_cons, length_drop, length_take] at hlen
    omega
  have hdrop := drop_eq_getElem_cons (l := (cfg.msgs s.task).take (s.sent s.task))
    (i := s.seen) (by
      rw [length_take]
      have hle := hflow.sent_le s.task
      omega)
  rw [← hcontent] at hdrop
  injection hdrop with hhead htail
  have hmsg : (cfg.msgs s.task)[s.taken]? = some msg := by
    rw [← hseen, hhead, getElem_take, getElem?_eq_getElem]
  refine ⟨{ h.facts with window := ?_, justified := fun o ho => by cases ho }, fun _ => ?_⟩
  · have hwin := h.facts.window
    rw [hm] at hwin
    exact hwin
  · exact { hflow with
      mainOk := ⟨hread, msg, rfl, hmsg⟩
      issued := by
        have hissued := hflow.issued
        rw [hm] at hissued
        exact hissued
      issued_le := by
        have hle := hflow.issued_le
        rw [hm] at hle
        exact hle
      seen := congrArg (· + 1) hseen
      chan := by
        intro k hge hk
        show update s.chan s.task msgs k =
          ((cfg.msgs k).take (s.sent k)).drop (if k = s.task then s.seen + 1 else 0)
        by_cases hkt : k = s.task
        · rw [hkt, update_self, if_pos rfl, htail]
        · rw [update_of_ne hkt, hflow.chan k hge hk, if_neg hkt, if_neg hkt]
      seen_le := hsent
      new_sent := by
        intro k hk
        change s.nextToIssue ≤ k at hk
        show s.sent k = 0 ∧ update s.chan s.task msgs k = []
        rw [update_of_ne (by omega)]
        exact hflow.new_sent k hk }

/-- The channel of the task being read never disconnects before its terminal. -/
theorem not_disconnected (h : Flow cfg s) {front : Nat} (hm : s.main = .receiving)
    (hfront : s.pending = front :: rest) (hchan : s.chan front = []) (hgone : SenderGone s front) :
    False := by
  have hread : Reading cfg s := (hm ▸ h.mainOk : MainOk cfg s .receiving)
  obtain ⟨rfl, -⟩ := front_eq_task h hfront
  have hlt := task_issued h hread.2.1 (by rw [hm]; rfl)
  have hseen := h.seen
  rw [hm] at hseen
  simp only [receivedCount, Nat.add_zero] at hseen
  have htaken := h.taken_le
  have hcontent := h.chan s.task (Nat.le_refl _) hlt
  rw [if_pos rfl, hchan] at hcontent
  have hlen := congrArg length hcontent
  rw [length_nil, length_drop, length_take] at hlen
  have hsent_le := h.sent_le s.task
  rcases h.covered s.task (Nat.le_refl _) hlt with hs | hjob | ⟨w, p, i, hw⟩
  · rw [length_msgs] at hs hlen
    omega
  · obtain ⟨q, hq, hq1⟩ := mem_map.mp hjob
    refine hgone.1 q.2 ?_
    rw [← hq1]
    exact hq
  · exact hgone.2 w p i hw

/-- What is known when an item of the task being read is handed over. -/
theorem item_spec (h : Flow cfg s) (hm : s.main = .received (some (.item item))) :
    Reading cfg s ∧ (cfg.items s.task)[s.taken]? = some item ∧ s.task < cfg.nTasks := by
  obtain ⟨hread, msg, hmsg, hget⟩ : MainOk cfg s (.received (some (.item item))) :=
    hm ▸ h.mainOk
  cases hmsg
  have hlt := task_issued h hread.2.1 (by rw [hm]; rfl)
  have hle := h.issued_le
  exact ⟨hread, items_of_msgs_item hget, by omega⟩

lemma log_item (h : Facts cfg s) (hget : (cfg.items s.task)[s.taken]? = some item) :
    s.log ++ [(s.task, item)] =
      (range s.task).flatMap cfg.taskLog ++ (cfg.taskLog s.task).take (s.taken + 1) := by
  have hlog : (cfg.taskLog s.task)[s.taken]? = some (s.task, item) := by
    rw [Config.taskLog, getElem?_map, hget]
    rfl
  rw [h.log, take_add_one, hlog, append_assoc]
  rfl

lemma item_inv (h : Inv cfg s) (hm : s.main = .received (some (.item item)))
    (hitem : cfg.item s.task s.taken item = .ok ()) :
    Inv cfg
      { s with main := .checking, taken := s.taken + 1, log := s.log ++ [(s.task, item)] } := by
  have hlive : Live s.main := by rw [hm]; trivial
  have hflow := h.flow hlive
  obtain ⟨hread, hget, hlt⟩ := item_spec hflow hm
  obtain ⟨hi, -⟩ := List.getElem?_eq_some_iff.mp hget
  refine ⟨{ h.facts with
    log := log_item h.facts hget
    taken_lt := fun _ => hlt
    window := ?_
    justified := fun o ho => by cases ho }, fun _ => ?_⟩
  · have hwin := h.facts.window
    rw [hm] at hwin
    exact hwin
  · exact { hflow with
      mainOk := hread
      issued := by
        have hissued := hflow.issued
        rw [hm] at hissued
        exact hissued
      issued_le := by
        have hle := hflow.issued_le
        rw [hm] at hle
        exact hle
      seen := by
        have hseen := hflow.seen
        rw [hm] at hseen
        exact hseen
      taken_le := hi
      items_ok := by
        intro j x hj hx
        change j < s.taken + 1 at hj
        by_cases hjt : j = s.taken
        · subst hjt
          change (cfg.items s.task)[s.taken]? = some x at hx
          rw [hget] at hx
          cases hx
          exact hitem
        · exact hflow.items_ok j x (by omega) hx }

lemma itemFails_inv (h : Inv cfg s) (hm : s.main = .received (some (.item item)))
    (hitem : cfg.item s.task s.taken item = .error e) :
    Inv cfg
      { s with
        main := .leaving (.error (.failed e))
        taken := s.taken + 1
        log := s.log ++ [(s.task, item)] } := by
  have hlive : Live s.main := by rw [hm]; trivial
  have hflow := h.flow hlive
  obtain ⟨hread, hget, hlt⟩ := item_spec hflow hm
  have hfail := failIn_item hread.2.2 hget hflow.items_ok hitem
  refine ⟨{ h.facts with
    log := log_item h.facts hget
    taken_lt := fun _ => hlt
    window := ?_
    justified := ?_ }, False.elim⟩
  · have hwin := h.facts.window
    rw [hm] at hwin
    exact hwin
  · intro o ho
    cases ho
    exact .inl ⟨hlt, hfail⟩

/-- What is known when the terminal of the task being read has come. -/
theorem ended_spec (h : Flow cfg s) {r : Except E U}
    (hm : s.main = .received (some (.ended r))) :
    Reading cfg s ∧ cfg.itemFailure s.task = none ∧ cfg.ends s.task (cfg.payload s.task) = r ∧
      s.taken = (cfg.items s.task).length ∧ s.task < s.nextToIssue ∧ s.task < cfg.nTasks := by
  obtain ⟨hread, msg, hmsg, hget⟩ : MainOk cfg s (.received (some (.ended r))) := hm ▸ h.mainOk
  cases hmsg
  obtain ⟨htaken, hr⟩ := length_of_msgs_ended hget
  have hlt := task_issued h hread.2.1 (by rw [hm]; rfl)
  have hle := h.issued_le
  have hitems := itemFailure_none (k := s.task) fun i item hi hget' =>
    h.items_ok i item (by rw [htaken]; exact hi) hget'
  exact ⟨hread, hitems, hr.symm, htaken, hlt, by omega⟩

/-- Where the calling thread goes after a task. -/
def afterTask : Issue E → Main P T U E
  | .opened => .refilling
  | _ => .looping

lemma finishTask_inv (h : Inv cfg s) {u : U} (hm : s.main = .received (some (.ended (.ok u))))
    (hfinish : cfg.finishTask s.task u = .ok ()) :
    Inv cfg
      { s with
        main := afterTask s.issue
        pending := s.pending.tail
        task := s.task + 1
        seen := 0
        taken := 0 } := by
  have hlive : Live s.main := by rw [hm]; trivial
  have hflow := h.flow hlive
  obtain ⟨hread, hitems, hend, htaken, hlt, hltN⟩ := ended_spec hflow hm
  have hnone := failIn_none hread.2.2 hitems hend hfinish
  obtain ⟨front, rest, hfront⟩ := exists_cons_of_ne_nil hread.2.1
  obtain ⟨rfl, hrest⟩ := front_eq_task hflow hfront
  have hissued := hflow.issued
  have hissued_le := hflow.issued_le
  have hwin := h.facts.window
  have hseen := hflow.seen
  rw [hm] at hissued hissued_le hwin hseen
  simp only [issuingCount, receivedCount, Nat.add_zero] at hissued hissued_le hwin hseen
  rw [hfront, length_cons] at hissued
  have hcount : issuingCount (afterTask s.issue : Main P T U E) = 0 := by
    cases s.issue <;> rfl
  have hsent : s.sent s.task = (cfg.msgs s.task).length := by
    have h1 := hflow.seen_le
    have h2 := hflow.sent_le s.task
    rw [length_msgs] at h2 ⊢
    omega
  refine ⟨{ h.facts with
    log := ?_, done := ?_, task_le := hltN, taken_lt := fun hx => absurd rfl hx
    window := ?_, justified := ?_ }, fun _ => ?_⟩
  · show s.log = (range (s.task + 1)).flatMap cfg.taskLog ++ _
    have hall : (cfg.taskLog s.task).take s.taken = cfg.taskLog s.task := by
      rw [htaken]
      exact take_of_length_le (by simp [Config.taskLog])
    rw [h.facts.log, hall, range_succ, flatMap_append]
    simp
  · intro k hk
    change k < s.task + 1 at hk
    by_cases hkt : k = s.task
    · rw [hkt]
      exact hnone
    · exact h.facts.done k (by omega)
  · show s.nextToIssue + issuingCount (afterTask s.issue) ≤ s.task + 1 + cfg.window
    rw [hcount]
    omega
  · intro o ho
    change outcome (afterTask s.issue : Main P T U E) = some o at ho
    cases hi : s.issue with
    | _ =>
      rw [hi] at ho
      cases ho
  · exact { hflow with
      mainOk := by
        show MainOk cfg _ (afterTask s.issue)
        cases hi : s.issue with
        | opened => exact ⟨rfl, Nat.zero_lt_of_lt hlt⟩
        | done | failed =>
          refine ⟨hread.1, rfl, fun _ hx => ?_⟩
          cases hx
      pending_eq := by
        rw [hfront]
        exact hrest
      issued := by
        show s.task + 1 + s.pending.tail.length = s.nextToIssue + issuingCount (afterTask s.issue)
        rw [hcount, hfront, tail_cons]
        omega
      issued_le := by
        show s.nextToIssue + issuingCount (afterTask s.issue) ≤ cfg.nTasks
        rw [hcount]
        exact hissued_le
      workers_pos := fun _ => hflow.workers_pos (by rw [hfront, length_cons]; omega)
      seen := by
        show 0 = 0 + receivedCount (afterTask s.issue)
        cases s.issue <;> rfl
      taken_le := Nat.zero_le _
      items_ok := fun i item hi => absurd hi (Nat.not_lt_zero i)
      chan := by
        intro k hge hk
        change s.task + 1 ≤ k at hge
        have hcontent := hflow.chan k (by omega) hk
        rw [if_neg (by omega)] at hcontent
        show s.chan k = _
        rw [hcontent]
        show _ = drop (if k = s.task + 1 then 0 else 0) _
        rw [ite_self]
      seen_le := Nat.zero_le _
      done_sent := by
        intro k hk
        change k < s.task + 1 at hk
        by_cases hkt : k = s.task
        · rw [hkt]
          exact hsent
        · exact hflow.done_sent k (by omega)
      covered := by
        intro k hge hk
        change s.task + 1 ≤ k at hge
        exact hflow.covered k (by omega) hk }

/-- Every task has been read and the source is not asked again. -/
theorem end_spec (h : Flow cfg s) (hm : s.main = .looping) (hpending : s.pending = []) :
    s.task = s.nextToIssue ∧ s.issue ≠ .opened := by
  obtain ⟨-, -, hnext⟩ : MainOk cfg s .looping := hm ▸ h.mainOk
  have hissued := h.issued
  rw [hm, hpending] at hissued
  exact ⟨hissued, hnext hpending⟩

lemma mainStep_inv (h : Inv cfg s) (hstep : MainStep cfg s t) : Inv cfg t := by
  cases hstep with
  | startCancelled _ hcancel | loopCancelled _ _ hcancel | checkCancelled _ hcancel
  | receivedCancelled _ _ hcancel | endCancelled _ _ hcancel =>
    exact leave_inv h id rfl hcancel
  | startFails e hm hcancel hsource =>
    obtain ⟨hle, hend⟩ := source_error hsource
    have htask := h.facts.task_le
    exact leave_inv h id rfl (.inr ⟨by omega, hend⟩)
  | startEmpty hm hcancel hsource =>
    obtain ⟨hle, hend⟩ := source_none hsource
    have htask := h.facts.task_le
    exact leave_inv h id rfl ⟨by omega, hend⟩
  | startNoWorkers p hm hcancel hsource hW => exact leave_inv h id rfl hW
  | start p hm hcancel hsource hW =>
    have hlive : Live s.main := by rw [hm]; trivial
    obtain ⟨hnext, hpending, hopen, htaken⟩ : MainOk cfg s .starting := hm ▸ (h.flow hlive).mainOk
    refine pull_inv h hlive (by rw [hm]; rfl) (by rw [hm]; rfl) hopen htaken ?_ ?_ hW
    · rw [hpending]
      exact cfg.window_pos
    · rw [hnext]
      exact hsource
  | issueJob p hm => exact issueJob_inv h hm
  | issueRefused p hm hgone =>
    have hflow := h.flow (by rw [hm]; trivial)
    obtain ⟨hopen, -, -⟩ : MainOk cfg s (.issuing p) := hm ▸ hflow.mainOk
    have hissued := hflow.issued
    rw [hm] at hissued
    simp only [issuingCount] at hissued
    rcases hgone with htx | hgone
    · rw [hflow.open_tx hopen] at htx
      cases htx
    · exact absurd hgone (not_queueGone hflow hopen (by omega))
  | pull p hm hopen hwin hsource =>
    have hlive : Live s.main := by rw [hm]; trivial
    have hflow := h.flow hlive
    obtain ⟨htaken, hpos⟩ : MainOk cfg s .refilling := hm ▸ hflow.mainOk
    have hissued := hflow.issued
    exact pull_inv h hlive (by rw [hm]; rfl) (by rw [hm]; rfl) hopen htaken hwin hsource
      (hflow.workers_pos (by omega))
  | pullDone hm hopen hwin hsource =>
    obtain ⟨hle, hend⟩ := source_none hsource
    have hissued_le := (h.flow (by rw [hm]; trivial)).issued_le
    exact sourceEnds_inv h hm (by simp) (fun _ => ⟨by omega, hend⟩) (by simp)
  | pullFails e hm hopen hwin hsource =>
    obtain ⟨hle, hend⟩ := source_error hsource
    have hissued_le := (h.flow (by rw [hm]; trivial)).issued_le
    refine sourceEnds_inv h hm (by simp) (by simp) ?_
    intro e' he'
    cases he'
    exact ⟨by omega, hend⟩
  | refilled hm hopen hwin =>
    refine refilled_inv h hm ?_
    intro hempty
    have hpos := cfg.window_pos
    rw [hempty, length_nil] at hwin
    omega
  | refilledLast hm hclosed =>
    have hclose := closeQueue_inv h (by rw [hm]; trivial) hclosed hm
    exact refilled_inv hclose hm fun _ => hclosed
  | spawn hm => exact spawn_inv h hm
  | beforeFails e hm hpending hcancel hbefore =>
    have hflow := h.flow (by rw [hm]; trivial)
    have hlt := task_issued hflow hpending (by rw [hm]; rfl)
    have hle := hflow.issued_le
    exact leave_inv h id rfl (.inl ⟨by omega, failIn_before hbefore⟩)
  | beforeTask hm hpending hcancel hbefore =>
    have hlive : Live s.main := by rw [hm]; trivial
    obtain ⟨hsp, -, -⟩ : MainOk cfg s .looping := hm ▸ (h.flow hlive).mainOk
    exact move_inv h .checking hlive (by rw [hm]; rfl) (by rw [hm]; rfl) rfl
      ⟨hsp, hpending, hbefore⟩
  | check hm hcancel =>
    have hlive : Live s.main := by rw [hm]; trivial
    have hread : MainOk cfg s .checking := hm ▸ (h.flow hlive).mainOk
    exact move_inv h .receiving hlive (by rw [hm]; rfl) (by rw [hm]; rfl) rfl hread
  | receive front rest msg msgs hm hfront hchan => exact receive_inv h hm hfront hchan
  | disconnect front rest hm hfront hchan hgone =>
    exact (not_disconnected (h.flow (by rw [hm]; trivial)) hm hfront hchan hgone).elim
  | itemFails item e hm hcancel hitem => exact itemFails_inv h hm hitem
  | item item hm hcancel hitem => exact item_inv h hm hitem
  | taskFails e hm hcancel =>
    obtain ⟨hread, hitems, hend, -, -, hlt⟩ := ended_spec (h.flow (by rw [hm]; trivial)) hm
    exact leave_inv h id rfl (.inl ⟨hlt, failIn_ended hread.2.2 hitems hend⟩)
  | finishFails u e hm hcancel hfinish =>
    obtain ⟨hread, hitems, hend, -, -, hlt⟩ := ended_spec (h.flow (by rw [hm]; trivial)) hm
    exact leave_inv h id rfl (.inl ⟨hlt, failIn_finish hread.2.2 hitems hend hfinish⟩)
  | finishTask u hm hcancel hfinish => exact finishTask_inv h hm hfinish
  | unfinished hm hcancel =>
    obtain ⟨-, msg, hmsg, -⟩ : MainOk cfg s (.received none) :=
      hm ▸ (h.flow (by rw [hm]; trivial)).mainOk
    cases hmsg
  | endFails e hm hpending hcancel hissue =>
    have hflow := h.flow (by rw [hm]; trivial)
    obtain ⟨htask, -⟩ := end_spec hflow hm hpending
    obtain ⟨hn, hend⟩ := hflow.sourceFailed e hissue
    exact leave_inv h id rfl (.inr ⟨by omega, hend⟩)
  | endOk hm hpending hcancel hissue =>
    have hflow := h.flow (by rw [hm]; trivial)
    obtain ⟨htask, hopen⟩ := end_spec hflow hm hpending
    have hdone : s.issue = .done := by
      cases hi : s.issue with
      | opened => exact absurd hi hopen
      | done => rfl
      | failed e => exact absurd hi (hissue e)
    obtain ⟨hn, hend⟩ := hflow.sourceDone hdone
    exact leave_inv h id rfl ⟨by omega, hend⟩
  | abandon o hm =>
    have hj := h.facts.justified o (by rw [hm]; rfl)
    have hleft := leave_inv h (x := .dropping o) id rfl hj
    exact ⟨{ hleft.facts with }, False.elim⟩
  | dropEnds o hm =>
    have hj := h.facts.justified o (by rw [hm]; rfl)
    have hleft := leave_inv h (x := .left o) id rfl hj
    exact ⟨{ hleft.facts with }, False.elim⟩

lemma cancel_inv (h : Inv cfg s) : Inv cfg { s with cancelled := true } := by
  refine ⟨{ h.facts with justified := ?_ }, fun hlive => { h.flow hlive with mainOk := ?_ }⟩
  · intro o ho
    have hj := h.facts.justified o ho
    cases o with
    | ok u => exact hj
    | error f =>
      cases f with
      | cancelled => rfl
      | failed e => exact hj
      | internal m => exact hj
  · have hok := (h.flow hlive).mainOk
    change MainOk cfg _ s.main
    cases hm : s.main with
    | _ =>
      rw [hm] at hok
      exact hok

lemma step_inv (h : Inv cfg s) (hstep : Step cfg s t) : Inv cfg t := by
  cases hstep with
  | worker w hstep => exact workerStep_inv h hstep
  | main hstep => exact mainStep_inv h hstep
  | cancel ht =>
    subst ht
    exact cancel_inv h

lemma reachable_inv (h : Reachable cfg s) : Inv cfg s := by
  induction h with
  | refl => exact start_inv cfg
  | tail _ hstep ih => exact step_inv ih hstep

/-- A job that is queued is of a task issued and not finished. -/
theorem jobs_length_lt (h : Inv cfg s) (hm : s.main = .issuing p) :
    s.jobs.length < cfg.window := by
  have hflow := h.flow (by rw [hm]; trivial)
  have hwin := h.facts.window
  have hissued := hflow.issued
  rw [hm] at hwin hissued
  simp only [issuingCount] at hwin hissued
  have hsub : s.jobs.map Prod.fst ⊆ range' s.task (s.nextToIssue - s.task) := by
    intro k hk
    obtain ⟨q, hq, rfl⟩ := mem_map.mp hk
    obtain ⟨hlt, hsent, -⟩ := hflow.jobs_ok q.1 q.2 hq
    have hge := task_le_of_unsent hflow (k := q.1) (by rw [hsent, length_msgs]; omega)
    exact mem_range'_1.mpr ⟨hge, by omega⟩
  have hle := (hflow.jobs_nodup.subperm hsub).length_le
  rw [length_map, length_range'] at hle
  have hpos := cfg.window_pos
  omega

/-- No item of a task after the first one that fails. -/
theorem log_before_failure (h : Facts cfg s) {q : Nat × T} (hq : q ∈ s.log) :
    q.1 < cfg.nTasks ∧ ∀ k, cfg.failIn k ≠ none → q.1 ≤ k := by
  have htask : q.1 ≤ s.task ∧ q.1 < cfg.nTasks := by
    have hle := h.task_le
    rw [h.log, mem_append, mem_flatMap] at hq
    rcases hq with ⟨k, hk, hq⟩ | hq
    · have hlt := mem_range.mp hk
      obtain ⟨x, -, rfl⟩ := mem_map.mp hq
      simp only
      omega
    · have htaken : s.taken ≠ 0 := by
        intro h0
        rw [h0, take_zero] at hq
        cases hq
      obtain ⟨x, -, rfl⟩ := mem_map.mp (mem_of_mem_take hq)
      exact ⟨Nat.le_refl _, h.taken_lt htaken⟩
  refine ⟨htask.2, fun k hk => ?_⟩
  have hge : s.task ≤ k := by
    by_contra hlt
    exact hk (h.done k (by omega))
  omega

lemma expected_of_task (hk : k < cfg.nTasks) (hlow : ∀ j, j < k → cfg.failIn j = none)
    (hfail : cfg.failIn k = some e) : cfg.expected = .error (.failed e) := by
  rw [Config.expected, findSome_range_eq hk hlow hfail]

lemma expected_of_source (hall : ∀ j, j < cfg.nTasks → cfg.failIn j = none) :
    cfg.expected = cfg.sourceEnd.mapError .failed := by
  have hnone : (range cfg.nTasks).findSome? cfg.failIn = none := by
    rw [findSome?_eq_none_iff]
    intro j hj
    exact hall j (mem_range.mp hj)
  rw [Config.expected, hnone]
  cases cfg.sourceEnd <;> rfl

/-- Everything was handed over once the last task is finished with. -/
theorem log_complete (h : Facts cfg s) (htask : s.task = cfg.nTasks) :
    s.log = (range cfg.nTasks).flatMap cfg.taskLog := by
  have htaken : s.taken = 0 := by
    by_contra hne
    have hlt := h.taken_lt hne
    omega
  rw [h.log, htaken, take_zero, append_nil, htask]

lemma outcome_expected (h : Facts cfg s) {o : Outcome E} (ho : outcome s.main = some o) :
    (o = cfg.expected ∧ ((∀ k, k < cfg.nTasks → cfg.failIn k = none) →
      s.log = (range cfg.nTasks).flatMap cfg.taskLog)) ∨
      (o = .error .cancelled ∧ s.cancelled = true) ∨ (W = 0 ∧ ∃ m, o = .error (.internal m)) := by
  have hj := h.justified o ho
  cases o with
  | ok u =>
    obtain ⟨htask, hend⟩ := hj
    have hall : ∀ k, k < cfg.nTasks → cfg.failIn k = none := htask ▸ h.done
    refine .inl ⟨?_, fun _ => log_complete h htask⟩
    rw [expected_of_source hall, hend]
    rfl
  | error f =>
    cases f with
    | cancelled => exact .inr (.inl ⟨rfl, hj⟩)
    | internal m => exact .inr (.inr ⟨hj, m, rfl⟩)
    | failed e =>
      rcases hj with ⟨hlt, hfail⟩ | ⟨htask, hend⟩
      · refine .inl ⟨(expected_of_task hlt h.done hfail).symm, fun hall => ?_⟩
        rw [hall _ hlt] at hfail
        cases hfail
      · have hall : ∀ k, k < cfg.nTasks → cfg.failIn k = none := htask ▸ h.done
        refine .inl ⟨?_, fun _ => log_complete h htask⟩
        rw [expected_of_source hall, hend]
        rfl

/-- In every state of every interleaving: the consumer was handed a prefix of the tasks' items in
order, none of a task past the first that fails; the queue is never found full, and no more than a
window of tasks is issued and not finished; and the result is the first failure in task order, the
source's own only after every item was handed over (or the cancellation, or with no worker at all
the refusal to start). -/
theorem streamed_pool_protocol (h : Reachable cfg s) :
    (s.log = (range s.task).flatMap cfg.taskLog ++ (cfg.taskLog s.task).take s.taken ∧
      ∀ q ∈ s.log, q.1 < cfg.nTasks ∧ ∀ k, cfg.failIn k ≠ none → q.1 ≤ k) ∧
    ((∀ p, s.main = .issuing p → s.jobs.length < cfg.window) ∧
      s.nextToIssue + issuingCount s.main ≤ s.task + cfg.window) ∧
    (∀ o, outcome s.main = some o →
      (o = cfg.expected ∧ ((∀ k, k < cfg.nTasks → cfg.failIn k = none) →
        s.log = (range cfg.nTasks).flatMap cfg.taskLog)) ∨
      (o = .error .cancelled ∧ s.cancelled = true) ∨
      (W = 0 ∧ ∃ m, o = .error (.internal m))) := by
  have hinv := reachable_inv h
  exact ⟨⟨hinv.facts.log, fun q hq => log_before_failure hinv.facts hq⟩,
    ⟨fun p hm => jobs_length_lt hinv hm, hinv.facts.window⟩,
    fun o ho => outcome_expected hinv.facts ho⟩

lemma reachable_worker (h : Reachable cfg s) (w : Fin W) (hstep : WorkerStep cfg s w t) :
    Reachable cfg t :=
  h.tail (.worker w hstep)

lemma reachable_main (h : Reachable cfg s) (hstep : MainStep cfg s t) : Reachable cfg t :=
  h.tail (.main hstep)

/-- Two tasks of one item each, then the source fails. -/
def failingSource : Config Unit Nat Unit String where
  nTasks := 2
  payload := fun _ => ()
  sourceEnd := .error "source"
  window := 1
  window_pos := Nat.one_pos
  depth := 1
  emits := fun task _ => [10 * task]
  ends := fun _ _ => .ok ()
  beforeTask := fun _ => .ok ()
  item := fun _ _ _ => .ok ()
  finishTask := fun _ _ => .ok ()

theorem streamed_pool_protocol_failing_source :
    ∃ s : State 1 Unit Nat Unit String, Reachable failingSource s ∧
      s.main = .leaving (.error (.failed "source")) ∧ s.log = [(0, 0), (1, 10)] ∧
      (.error (.failed "source") : Outcome String) = failingSource.expected := by
  have h : Reachable failingSource (start : State 1 Unit Nat Unit String) := .refl
  have h := reachable_main h (.start () rfl rfl rfl (by decide))
  have h := reachable_main h (.issueJob () rfl rfl (fun hg => Bool.false_ne_true hg.1) (by decide))
  have h := reachable_main h (.refilled rfl rfl (by decide))
  have h := reachable_main h (.spawn rfl)
  have h := reachable_worker h 0 (.readRunning rfl rfl)
  have h := reachable_worker h 0 (.take 0 () [] rfl rfl)
  have h := reachable_worker h 0 (.emit 0 () 0 0 rfl rfl (by decide) Nat.zero_lt_one)
  have h := reachable_main h (.beforeTask rfl (by decide) rfl rfl)
  have h := reachable_main h (.check rfl rfl)
  have h := reachable_main h (.receive 0 _ (.item 0) _ rfl rfl rfl)
  have h := reachable_main h (.item 0 rfl rfl rfl)
  have h := reachable_worker h 0 (.finish 0 () 1 rfl rfl (by decide) Nat.zero_lt_one)
  have h := reachable_main h (.check rfl rfl)
  have h := reachable_main h (.receive 0 _ (.ended (.ok ())) _ rfl rfl rfl)
  have h := reachable_main h (.finishTask () rfl rfl rfl)
  -- The first task is finished with: the source is asked again.
  have h := reachable_main h (.pull () rfl rfl (by decide) rfl)
  have h := reachable_main h (.issueJob () rfl rfl (fun hg => by cases hg.2 0) (by decide))
  have h := reachable_main h (.refilled rfl rfl (by decide))
  have h := reachable_worker h 0 (.readRunning rfl rfl)
  have h := reachable_worker h 0 (.take 1 () [] rfl rfl)
  have h := reachable_worker h 0 (.emit 1 () 0 10 rfl rfl (by decide) Nat.zero_lt_one)
  have h := reachable_main h (.beforeTask rfl (by decide) rfl rfl)
  have h := reachable_main h (.check rfl rfl)
  have h := reachable_main h (.receive 1 _ (.item 10) _ rfl rfl rfl)
  have h := reachable_main h (.item 10 rfl rfl rfl)
  have h := reachable_worker h 0 (.finish 1 () 1 rfl rfl (by decide) Nat.zero_lt_one)
  have h := reachable_main h (.check rfl rfl)
  have h := reachable_main h (.receive 1 _ (.ended (.ok ())) _ rfl rfl rfl)
  have h := reachable_main h (.finishTask () rfl rfl rfl)
  have h := reachable_main h (.pullFails "source" rfl rfl (by decide) rfl)
  have h := reachable_main h (.refilledLast rfl (by simp))
  have h := reachable_main h (.endFails "source" rfl rfl rfl rfl)
  obtain ⟨-, -, hout⟩ := streamed_pool_protocol h
  rcases hout (.error (.failed "source")) rfl with ⟨hexp, -⟩ | ⟨hcancelled, -⟩ | ⟨hW, -⟩
  · exact ⟨_, h, rfl, rfl, hexp⟩
  · cases hcancelled
  · cases hW

end StreamPoolRuns
