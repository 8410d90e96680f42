import Pbfhogg.Pool.Accumulate

/-!
# Every run of the accumulating pool

Each position is given to one worker at most, a run that returns without an error merged the state
of every worker, a worker that stopped for a peer makes the run return that peer's failure, and no
state short of the end is stuck.
-/

namespace AccumulatePool

open Feed List Function

variable {S E : Type} {cfg : Config S E} {s t : State S E} {w p : Nat} {x : Worker E}

lemma not_broken_iff {x : Worker E} :
    ¬ x.Broken ↔ x.failure = none ∧ x ≠ .unwinding ∧ x ≠ .panicked := by
  simp [Worker.Broken]

/-- What a step of worker `w`, which becomes `x`, leaves as it is. -/
structure Frame (s t : State S E) (w : Nat) (x : Worker E) : Prop where
  workers : t.workers = update s.workers w x
  consumer : t.consumer = s.consumer
  merged : t.merged = s.merged
  cancelled : t.cancelled = s.cancelled
  dispatcher : t.feed.dispatcher = s.feed.dispatcher
  states : ∀ w', w' ≠ w → t.states w' = s.states w'
  worked : ∀ w', w' ≠ w → t.worked w' = s.worked w'
  shares : ∀ w', w' ≠ w → share t w' = share s w'

/-- The lock is with the worker that receives. -/
structure Locked (cfg : Config S E) (t : State S E) : Prop where
  lock : ∀ w', t.feed.lock = some w' → w' < cfg.threads ∧ t.workers w' = .receiving
  receiving : ∀ w', w' < cfg.threads → t.workers w' = .receiving → t.feed.lock = some w'

/-- What a step of worker `w`, which becomes `x`, may change. -/
structure Turn (cfg : Config S E) (s t : State S E) (w : Nat) (x : Worker E) : Prop
    extends Frame s t w x, Locked cfg t where
  live : ¬ (s.workers w).Gone
  feed : Fine cfg.nPositions t.feed
  given : t.given.map Prod.fst = range (taken cfg.nPositions t.feed)
  givenTo : ∀ y ∈ t.given, y.2 < cfg.threads
  queue : s.feed.queue = [] → t.feed.queue = []
  state : accumulate cfg (t.worked w) = some (t.states w)
  shared : ¬ x.Broken → share t w = t.worked w ++ x.inHand
  out : x.Out → s.feed.dispatcher.Gone ∧ t.feed.queue = []
  blame : ∀ f, x.failure = some f → Blame cfg t w f
  stop : t.stop = true → s.stop = true ∨ x.Broken
  flag : s.stop = true → t.stop = true
  broken : (s.workers w).Broken → x.Broken
  stopped : x = .stopped → t.stop = true
  fresh : ∀ i ∈ t.results, i ∈ s.results ∨ (x = .delivered ∧ i = ⟨w, .ok (t.states w)⟩) ∨
    ∃ f, x = .failed f ∧ i = ⟨w, .error f⟩
  kept : ∀ i ∈ s.results, i ∈ t.results
  delivered : x = .delivered → ⟨w, .ok (t.states w)⟩ ∈ t.results ∨
    ∃ f, s.consumer = .done (.error f)
  failed : ∀ f, x = .failed f → ⟨w, .error f⟩ ∈ t.results ∨ ∃ f, s.consumer = .done (.error f)

/-- What a live worker tells about the rest. -/
theorem Sound.alive (hs : Sound cfg s) (hw : w < cfg.threads) (hlive : ¬ (s.workers w).Gone) :
    (∀ q, s.feed.dispatcher ≠ .failed q) ∧ s.consumer ≠ .done (.ok ()) := by
  refine ⟨?_, ?_⟩
  · intro q hq
    exact hs.abandoned q hq ⟨w, hw, hlive⟩
  · intro hc
    exact hlive ((hs.closed hc).2 w hw)

lemma Turn.worker_cases (h : Turn cfg s t w x) (w' : Nat) :
    (w' = w ∧ t.workers w' = x) ∨ (w' ≠ w ∧ t.workers w' = s.workers w') := by
  by_cases hw' : w' = w
  · exact .inl ⟨hw', by rw [h.workers, hw', update_self]⟩
  · exact .inr ⟨hw', by rw [h.workers, update_of_ne hw']⟩

lemma Turn.gone_stays (h : Turn cfg s t w x) (w' : Nat) (hgone : (s.workers w').Gone) :
    w' ≠ w ∧ t.workers w' = s.workers w' := by
  rcases h.worker_cases w' with ⟨rfl, -⟩ | h'
  · exact absurd hgone h.live
  · exact h'

lemma Turn.sound (hs : Sound cfg s) (hw : w < cfg.threads) (h : Turn cfg s t w x) :
    Sound cfg t := by
  obtain ⟨hfailed, hopen⟩ := hs.alive hw h.live
  refine ⟨h.feed, h.lock, h.receiving, h.given, h.givenTo, ?_, ?_, ?_, ?_, ?_, ?_, ?_, ?_, ?_, ?_,
    ?_, ?_, ?_, ?_⟩
  · intro q hq
    rw [h.dispatcher] at hq
    exact absurd hq (hfailed q)
  · intro w'
    by_cases hw' : w' = w
    · rw [hw']
      exact h.state
    · rw [h.worked w' hw', h.states w' hw']
      exact hs.state w'
  · intro w' hlt hb
    rcases h.worker_cases w' with ⟨rfl, hx⟩ | ⟨hne, hx⟩
    · rw [hx] at hb ⊢
      exact h.shared hb
    · rw [hx] at hb ⊢
      rw [h.shares w' hne, h.worked w' hne]
      exact hs.shared w' hlt hb
  · intro w' hlt ho
    rw [h.dispatcher]
    rcases h.worker_cases w' with ⟨rfl, hx⟩ | ⟨hne, hx⟩
    · rw [hx] at ho
      obtain ⟨hgone, hq⟩ := h.out ho
      refine ⟨?_, hq⟩
      cases hd : s.feed.dispatcher with
      | sending q =>
        rw [hd] at hgone
        exact absurd hgone not_false
      | finished => rfl
      | failed q => exact absurd hd (hfailed q)
    · rw [hx] at ho
      obtain ⟨hd, hq⟩ := hs.out w' hlt ho
      exact ⟨hd, h.queue hq⟩
  · intro w' f hlt hf
    rcases h.worker_cases w' with ⟨rfl, hx⟩ | ⟨hne, hx⟩
    · rw [hx] at hf
      exact h.blame f hf
    · rw [hx] at hf
      have hold := hs.blame w' f hlt hf
      unfold Blame at hold ⊢
      rw [h.cancelled, h.shares w' hne, h.worked w' hne]
      exact hold
  · intro hstop
    rcases h.stop hstop with hold | hx
    · obtain ⟨v, hv, hb⟩ := hs.stop hold
      refine ⟨v, hv, ?_⟩
      rcases h.worker_cases v with ⟨rfl, hx⟩ | ⟨-, hx⟩
      · rw [hx]
        exact h.broken hb
      · rw [hx]
        exact hb
    · refine ⟨w, hw, ?_⟩
      rw [h.workers, update_self]
      exact hx
  · intro w' hlt hst
    rcases h.worker_cases w' with ⟨-, hx⟩ | ⟨-, hx⟩
    · exact h.stopped (hx.symm.trans hst)
    · exact h.flag (hs.stopped w' hlt (hx.symm.trans hst))
  · intro w' a hi
    rcases h.fresh _ hi with hold | ⟨hx, heq⟩ | ⟨f, -, heq⟩
    · obtain ⟨hlt, hdel, ha⟩ := hs.itemOk w' a hold
      obtain ⟨hne, hsame⟩ := h.gone_stays w' (by rw [hdel]; trivial)
      rw [hsame, h.states w' hne]
      exact ⟨hlt, hdel, ha⟩
    · cases heq
      refine ⟨hw, ?_, rfl⟩
      rw [h.workers, update_self]
      exact hx
    · cases heq
  · intro w' f hi
    rcases h.fresh _ hi with hold | ⟨-, heq⟩ | ⟨g, hx, heq⟩
    · obtain ⟨hlt, hfl⟩ := hs.itemError w' f hold
      obtain ⟨-, hsame⟩ := h.gone_stays w' (by rw [hfl]; trivial)
      rw [hsame]
      exact ⟨hlt, hfl⟩
    · cases heq
    · cases heq
      refine ⟨hw, ?_⟩
      rw [h.workers, update_self]
      exact hx
  · intro y hy
    rw [h.merged] at hy
    obtain ⟨hlt, hdel, ha⟩ := hs.mergedOf y hy
    obtain ⟨hne, hsame⟩ := h.gone_stays y.1 (by rw [hdel]; trivial)
    rw [hsame, h.states y.1 hne]
    exact ⟨hlt, hdel, ha⟩
  · intro w' hlt hdel
    rw [h.merged, h.consumer]
    rcases h.worker_cases w' with ⟨rfl, hx⟩ | ⟨hne, hx⟩
    · rcases h.delivered (hx.symm.trans hdel) with hi | hc
      · exact .inl hi
      · exact .inr (.inr hc)
    · rw [h.states w' hne]
      rcases hs.delivered w' hlt (hx.symm.trans hdel) with hi | hm | hc
      · exact .inl (h.kept _ hi)
      · exact .inr (.inl hm)
      · exact .inr (.inr hc)
  · intro w' f hlt hfl
    rw [h.consumer]
    rcases h.worker_cases w' with ⟨rfl, hx⟩ | ⟨hne, hx⟩
    · exact h.failed f (hx.symm.trans hfl)
    · rcases hs.failed w' f hlt (hx.symm.trans hfl) with hi | hc
      · exact .inl (h.kept _ hi)
      · exact .inr hc
  · intro hc
    rw [h.consumer] at hc
    exact absurd hc hopen
  · intro f hc
    rw [h.consumer] at hc
    obtain ⟨v, hv, hfl⟩ := hs.ended f hc
    obtain ⟨-, hsame⟩ := h.gone_stays v (by rw [hfl]; trivial)
    exact ⟨v, hv, hsame.trans hfl⟩

lemma Sound.lock_kept (hs : Sound cfg s) (hworkers : t.workers = update s.workers w x)
    (hfeed : t.feed = s.feed) (hold : s.workers w ≠ .receiving) (hnew : x ≠ .receiving) :
    Locked cfg t := by
  refine ⟨?_, ?_⟩
  · intro w' hl
    rw [hfeed] at hl
    obtain ⟨hw', hrec⟩ := hs.lock w' hl
    have hne : w' ≠ w := by
      rintro rfl
      exact hold hrec
    rw [hworkers, update_of_ne hne]
    exact ⟨hw', hrec⟩
  · intro w' hw' hrec
    have hne : w' ≠ w := by
      rintro rfl
      rw [hworkers, update_self] at hrec
      exact hnew hrec
    rw [hworkers, update_of_ne hne] at hrec
    rw [hfeed]
    exact hs.receiving w' hw' hrec

lemma Sound.lock_back (hs : Sound cfg s) (hworkers : t.workers = update s.workers w x)
    (hlock : s.feed.lock = some w) (hfree : t.feed.lock = none) (hnew : x ≠ .receiving) :
    Locked cfg t := by
  refine ⟨?_, ?_⟩
  · intro w' hl
    rw [hfree] at hl
    cases hl
  · intro w' hw' hrec
    have hne : w' ≠ w := by
      rintro rfl
      rw [hworkers, update_self] at hrec
      exact hnew hrec
    rw [hworkers, update_of_ne hne] at hrec
    have := hs.receiving w' hw' hrec
    rw [hlock] at this
    exact absurd (Option.some.inj this).symm hne

/-- A step that changes only where the worker is and perhaps the flag. -/
theorem Sound.local_turn (hs : Sound cfg s) (hw : w < cfg.threads) (b : Bool)
    (hlive : ¬ (s.workers w).Gone) (hold : s.workers w ≠ .receiving) (hnew : x ≠ .receiving)
    (hhand : ¬ x.Broken → (s.workers w).inHand = x.inHand)
    (hout : ¬ x.Out) (hblame : ∀ f, x.failure = some f → Blame cfg s w f)
    (hstop : b = true → s.stop = true ∨ x.Broken) (hflag : s.stop = true → b = true)
    (hbroken : (s.workers w).Broken → x.Broken) (hstopped : x = .stopped → s.stop = true)
    (hfailed : ∀ f, x ≠ .failed f) : Turn cfg s ({ s with stop := b }.setWorker w x) w x where
  toFrame := ⟨rfl, rfl, rfl, rfl, rfl, fun _ _ => rfl, fun _ _ => rfl, fun _ _ => rfl⟩
  live := hlive
  toLocked := hs.lock_kept rfl rfl hold hnew
  feed := hs.feed
  given := hs.given
  givenTo := hs.givenTo
  queue := id
  state := hs.state w
  shared hb := by
    have hshared := hs.shared w hw (fun h => hb (hbroken h))
    rw [hhand hb] at hshared
    exact hshared
  out h := absurd h hout
  blame := hblame
  stop := hstop
  flag := hflag
  broken := hbroken
  stopped h := hflag (hstopped h)
  fresh _ := .inl
  kept _ := id
  delivered h := absurd (.inr h) hout
  failed f h := absurd h (hfailed f)

lemma Sound.shared_of (hs : Sound cfg s) (hw : w < cfg.threads) (hst : s.workers w = x)
    (hx : x.failure = none ∧ x ≠ .unwinding ∧ x ≠ .panicked) :
    share s w = s.worked w ++ x.inHand := by
  subst hst
  exact hs.shared w hw (not_broken_iff.mpr hx)

lemma share_append_self (s : State S E) (w p : Nat) :
    share { s with given := s.given ++ [(p, w)] } w = share s w ++ [p] := by
  simp [share, filter_append]

lemma share_append_other (s : State S E) {w w' : Nat} (p : Nat) (h : w' ≠ w) :
    share { s with given := s.given ++ [(p, w)] } w' = share s w' := by
  simp [share, filter_append, h.symm]

lemma accumulate_append (cfg : Config S E) {ps : List Nat} {a : S}
    (h : accumulate cfg ps = some a) (p : Nat) (hok : (cfg.work a p).2 = .ok) :
    accumulate cfg (ps ++ [p]) = some (cfg.work a p).1 := by
  unfold accumulate at h ⊢
  rw [foldlM_append, h]
  cases hwork : cfg.work a p with
  | mk b r =>
    rw [hwork] at hok
    subst hok
    simp [hwork]

lemma Sound.lock_turn (hs : Sound cfg s) (hw : w < cfg.threads) (hst : s.workers w = .locking)
    (hfree : s.feed.lock = none) :
    Turn cfg s ({ s with feed := { s.feed with lock := some w } }.setWorker w .receiving) w
      .receiving where
  toFrame := ⟨rfl, rfl, rfl, rfl, rfl, fun _ _ => rfl, fun _ _ => rfl, fun _ _ => rfl⟩
  live := by rw [hst]; exact not_false
  feed := hs.feed.lock _
  lock w' hl := by
    cases hl
    exact ⟨hw, update_self _ _ _⟩
  receiving w' hw' hrec := by
    by_cases hne : w' = w
    · rw [hne]
      rfl
    · have hrec' : update s.workers w .receiving w' = .receiving := hrec
      rw [update_of_ne hne] at hrec'
      have := hs.receiving w' hw' hrec'
      rw [hfree] at this
      cases this
  given := hs.given
  givenTo := hs.givenTo
  queue := id
  state := hs.state w
  shared _ := (hs.shared_of hw hst (by simp [Worker.failure]) :)
  out := nofun
  blame := nofun
  stop := .inl
  flag := id
  broken := by simp [hst, Worker.Broken, Worker.failure]
  stopped := nofun
  fresh _ := .inl
  kept _ := id
  delivered := nofun
  failed := nofun

lemma Sound.receive_turn (hs : Sound cfg s) (hw : w < cfg.threads) {f : Feed.State}
    (hst : s.workers w = .receiving) (hr : Receives w s.feed (some p) f) :
    Turn cfg s ({ s with feed := f, given := s.given ++ [(p, w)] }.setWorker w (.working p)) w
      (.working p) where
  toFrame := ⟨rfl, rfl, rfl, rfl, receives_dispatcher hr, fun _ _ => rfl, fun _ _ => rfl,
    fun _ => share_append_other s p⟩
  live := by rw [hst]; exact not_false
  feed := (hs.feed.receive hr).2.2.2
  toLocked := hs.lock_back rfl (receives_lock hr).1 (receives_lock hr).2 nofun
  given := by
    obtain ⟨hp, htaken, -, -⟩ := hs.feed.receive hr
    change (s.given ++ [(p, w)]).map Prod.fst = range (taken cfg.nPositions f)
    rw [htaken, range_succ, map_append, hs.given, ← hp]
    rfl
  givenTo y hy := by
    rcases mem_append.mp hy with hy | hy
    · exact hs.givenTo y hy
    · rw [mem_singleton.mp hy]
      exact hw
  queue h := by
    cases hr with
    | position _ rest _ hcons =>
      rw [h] at hcons
      cases hcons
  state := hs.state w
  shared _ := by
    have hshared := hs.shared_of hw hst (by simp [Worker.failure])
    change share { s with given := s.given ++ [(p, w)] } w = s.worked w ++ [p]
    rw [share_append_self, hshared]
    simp [Worker.inHand]
  out := nofun
  blame := nofun
  stop := .inl
  flag := id
  broken := by simp [hst, Worker.Broken, Worker.failure]
  stopped := nofun
  fresh _ := .inl
  kept _ := id
  delivered := nofun
  failed := nofun

lemma Sound.closed_turn (hs : Sound cfg s) (hw : w < cfg.threads) {f : Feed.State}
    (hst : s.workers w = .receiving) (hr : Receives w s.feed none f) :
    Turn cfg s ({ s with feed := f }.setWorker w .delivering) w .delivering := by
  obtain ⟨hempty, hgone, hlock, rfl⟩ := receives_closed hr
  exact {
    toFrame := ⟨rfl, rfl, rfl, rfl, rfl, fun _ _ => rfl, fun _ _ => rfl, fun _ _ => rfl⟩
    live := by rw [hst]; exact not_false
    feed := hs.feed.lock none
    toLocked := hs.lock_back rfl hlock rfl nofun
    given := hs.given
    givenTo := hs.givenTo
    queue := id
    state := hs.state w
    shared _ := (hs.shared_of hw hst (by simp [Worker.failure]) :)
    out _ := ⟨hgone, hempty⟩
    blame := nofun
    stop := .inl
    flag := id
    broken := by simp [hst, Worker.Broken, Worker.failure]
    stopped := nofun
    fresh _ := .inl
    kept _ := id
    delivered := nofun
    failed := nofun }

lemma Sound.work_turn (hs : Sound cfg s) (hw : w < cfg.threads) (hst : s.workers w = .working p)
    (hok : (cfg.work (s.states w) p).2 = .ok) :
    Turn cfg s
      ({ s with
        states := update s.states w (cfg.work (s.states w) p).1
        worked := update s.worked w (s.worked w ++ [p]) }.setWorker w .checking) w
      .checking where
  toFrame := ⟨rfl, rfl, rfl, rfl, rfl, fun _ hne => update_of_ne hne _ _,
    fun _ hne => update_of_ne hne _ _, fun _ _ => rfl⟩
  live := by rw [hst]; exact not_false
  feed := hs.feed
  toLocked := hs.lock_kept rfl rfl (by rw [hst]; nofun) nofun
  given := hs.given
  givenTo := hs.givenTo
  queue := id
  state := by
    change accumulate cfg (update s.worked w (s.worked w ++ [p]) w) =
      some (update s.states w (cfg.work (s.states w) p).1 w)
    rw [update_self, update_self]
    exact accumulate_append cfg (hs.state w) p hok
  shared _ := by
    have hshared := hs.shared_of hw hst (by simp [Worker.failure])
    change share s w = update s.worked w (s.worked w ++ [p]) w ++ []
    rw [update_self, append_nil]
    exact hshared
  out := nofun
  blame := nofun
  stop := .inl
  flag := id
  broken := by simp [hst, Worker.Broken, Worker.failure]
  stopped := nofun
  fresh _ := .inl
  kept _ := id
  delivered := nofun
  failed := nofun

/-- What the one send of a worker does to the rest. -/
theorem Sound.sends (hs : Sound cfg s) (hw : w < cfg.threads) (hlive : ¬ (s.workers w).Gone)
    {i : Item S E} (h : Sends cfg s i t) :
    ∃ new, t = { s with results := s.results ++ new } ∧ (∀ j ∈ new, j = i) ∧
      (i ∈ new ∨ ∃ f, s.consumer = .done (.error f)) := by
  cases h with
  | send hopen hroom =>
    refine ⟨[i], rfl, ?_, .inl mem_cons_self⟩
    intro j hj
    exact mem_singleton.mp hj
  | dropped r hclosed =>
    refine ⟨[], by rw [append_nil], nofun, .inr ?_⟩
    cases r with
    | ok u => exact absurd hclosed (hs.alive hw hlive).2
    | error f => exact ⟨f, hclosed⟩

lemma Sound.send_turn (hs : Sound cfg s) (hw : w < cfg.threads) (hlive : ¬ (s.workers w).Gone)
    (hold : s.workers w ≠ .receiving) (hnew : x ≠ .receiving) {i : Item S E}
    (hsend : Sends cfg s i t)
    (hi : (x = .delivered ∧ i = ⟨w, .ok (s.states w)⟩) ∨ ∃ f, x = .failed f ∧ i = ⟨w, .error f⟩)
    (hhand : ¬ x.Broken → (s.workers w).inHand = x.inHand)
    (hout : x.Out → (s.workers w).Out) (hfailure : x.failure = (s.workers w).failure)
    (hbroken : (s.workers w).Broken → x.Broken) : Turn cfg s (t.setWorker w x) w x := by
  obtain ⟨new, rfl, hitems, hin⟩ := hs.sends hw hlive hsend
  exact {
    toFrame := ⟨rfl, rfl, rfl, rfl, rfl, fun _ _ => rfl, fun _ _ => rfl, fun _ _ => rfl⟩
    live := hlive
    feed := hs.feed
    toLocked := hs.lock_kept rfl rfl hold hnew
    given := hs.given
    givenTo := hs.givenTo
    queue := id
    state := hs.state w
    shared hb := by
      have hshared := hs.shared w hw (fun h => hb (hbroken h))
      rw [hhand hb] at hshared
      exact hshared
    out h := by
      obtain ⟨hfin, hq⟩ := hs.out w hw (hout h)
      exact ⟨by rw [hfin]; trivial, hq⟩
    blame f hf := hs.blame w f hw (hfailure.symm.trans hf)
    stop := .inl
    flag := id
    broken := hbroken
    stopped h := by
      rcases hi with ⟨hx, -⟩ | ⟨f, hx, -⟩
      · rw [hx] at h
        cases h
      · rw [hx] at h
        cases h
    fresh j hj := by
      rcases mem_append.mp hj with hj | hj
      · exact .inl hj
      · rw [hitems j hj]
        exact .inr hi
    kept j hj := mem_append.mpr (.inl hj)
    delivered h := by
      rcases hi with ⟨-, rfl⟩ | ⟨f, hx, -⟩
      · exact hin.imp_left fun h => mem_append.mpr (.inr h)
      · rw [hx] at h
        cases h
    failed g h := by
      rcases hi with ⟨hx, -⟩ | ⟨f, hx, rfl⟩
      · rw [hx] at h
        cases h
      · rw [hx] at h
        cases h
        exact hin.imp_left fun h => mem_append.mpr (.inr h) }

lemma Sound.worker (hs : Sound cfg s) (hw : w < cfg.threads) (h : WorkerStep cfg s w t) :
    Sound cfg t := by
  cases h with
  | check hst hok =>
    apply Turn.sound hs hw
    apply hs.local_turn (x := .loading) hw s.stop <;>
      simp [hst, Worker.Gone, Worker.inHand, Worker.Out, Worker.failure, Worker.Broken]
  | checkFails hst hcancel =>
    apply Turn.sound hs hw
    apply hs.local_turn (x := .raising .cancelled) hw s.stop <;>
      simp [hst, Worker.Gone, Worker.Out, Worker.failure, Worker.Broken]
    exact .inl ⟨rfl, hcancel⟩
  | load hst hgo =>
    apply Turn.sound hs hw
    apply hs.local_turn (x := .locking) hw s.stop <;>
      simp [hst, Worker.Gone, Worker.inHand, Worker.Out, Worker.failure, Worker.Broken]
  | loadStop hst hstop =>
    apply Turn.sound hs hw
    apply hs.local_turn (x := .stopped) hw s.stop <;>
      simp [hst, hstop, Worker.Gone, Worker.inHand, Worker.Out, Worker.failure, Worker.Broken]
  | lock hst hfree => exact Turn.sound hs hw (hs.lock_turn hw hst hfree)
  | receive p f hst hr => exact Turn.sound hs hw (hs.receive_turn hw hst hr)
  | closed f hst hr => exact Turn.sound hs hw (hs.closed_turn hw hst hr)
  | work p hst hok => exact Turn.sound hs hw (hs.work_turn hw hst hok)
  | workFails p e hst hr =>
    have hblame : Blame cfg s w (.failed e) := by
      refine .inr ⟨p, s.states w, e, rfl, ?_, hs.state w, hr⟩
      exact hs.shared_of hw hst (by simp [Worker.failure])
    apply Turn.sound hs hw
    apply hs.local_turn (x := .raising (.failed e)) hw s.stop <;>
      simp [hst, hblame, Worker.Gone, Worker.Out, Worker.failure, Worker.Broken]
  | panic p hst hr =>
    apply Turn.sound hs hw
    apply hs.local_turn (x := .unwinding) hw s.stop <;>
      simp [hst, Worker.Gone, Worker.Out, Worker.failure, Worker.Broken]
  | unwind hst =>
    apply Turn.sound hs hw
    apply hs.local_turn (x := .panicked) hw true <;>
      simp [hst, Worker.Gone, Worker.Out, Worker.failure, Worker.Broken]
  | raiseStop f hst =>
    have hblame := hs.blame w f hw (by rw [hst]; rfl)
    apply Turn.sound hs hw
    apply hs.local_turn (x := .reporting f) hw true <;>
      simp [hst, hblame, Worker.Gone, Worker.Out, Worker.failure, Worker.Broken]
  | report f t' hst hsend =>
    apply Turn.sound hs hw
    refine hs.send_turn (x := .failed f) hw ?_ ?_ ?_ hsend ?_ ?_ ?_ ?_ ?_ <;>
      simp [hst, Worker.Gone, Worker.Out, Worker.failure, Worker.Broken]
  | deliver t' hst hsend =>
    apply Turn.sound hs hw
    refine hs.send_turn (x := .delivered) hw ?_ ?_ ?_ hsend ?_ ?_ ?_ ?_ ?_ <;>
      simp [hst, Worker.Gone, Worker.inHand, Worker.Out, Worker.failure, Worker.Broken]

lemma Sound.consumer (hs : Sound cfg s) (h : ConsumerStep cfg s t) : Sound cfg t := by
  cases h with
  | merge v a rest hc hres =>
    have hitem : ⟨v, .ok a⟩ ∈ s.results := by
      rw [hres]
      exact mem_cons_self
    have hrest : ∀ i ∈ rest, i ∈ s.results := by
      intro i hi
      rw [hres]
      exact mem_cons_of_mem _ hi
    refine ⟨hs.feed, hs.lock, hs.receiving, hs.given, hs.givenTo, hs.abandoned, hs.state, hs.shared,
      hs.out, hs.blame, hs.stop, hs.stopped, fun w b hi => hs.itemOk w b (hrest _ hi),
      fun w f hi => hs.itemError w f (hrest _ hi), ?_, ?_, ?_, ?_, hs.ended⟩
    · intro y hy
      rcases mem_append.mp hy with hy | hy
      · exact hs.mergedOf y hy
      · rw [mem_singleton.mp hy]
        exact hs.itemOk v a hitem
    · intro w hw hdel
      rcases hs.delivered w hw hdel with hi | hm | he
      · rw [hres] at hi
        rcases mem_cons.mp hi with heq | hi
        · cases heq
          exact .inr (.inl (mem_append.mpr (.inr mem_cons_self)))
        · exact .inl hi
      · exact .inr (.inl (mem_append.mpr (.inl hm)))
      · exact .inr (.inr he)
    · intro w f hw hfl
      rcases hs.failed w f hw hfl with hi | he
      · rw [hres] at hi
        rcases mem_cons.mp hi with heq | hi
        · cases heq
        · exact .inl hi
      · exact .inr he
    · intro hdone
      rw [hc] at hdone
      cases hdone
  | failure v f rest hc hres =>
    have hrest : ∀ i ∈ rest, i ∈ s.results := by
      intro i hi
      rw [hres]
      exact mem_cons_of_mem _ hi
    refine ⟨hs.feed, hs.lock, hs.receiving, hs.given, hs.givenTo, hs.abandoned, hs.state, hs.shared,
      hs.out, hs.blame, hs.stop, hs.stopped, fun w b hi => hs.itemOk w b (hrest _ hi),
      fun w g hi => hs.itemError w g (hrest _ hi), hs.mergedOf, ?_, ?_, nofun, ?_⟩
    · intro w hw hdel
      exact .inr (.inr ⟨f, rfl⟩)
    · intro w g hw hfl
      exact .inr ⟨f, rfl⟩
    · intro g hg
      cases hg
      obtain ⟨hlt, hfl⟩ := hs.itemError v f (by rw [hres]; exact mem_cons_self)
      exact ⟨v, hlt, hfl⟩
  | disconnect hc hres hgone =>
    refine ⟨hs.feed, hs.lock, hs.receiving, hs.given, hs.givenTo, hs.abandoned, hs.state, hs.shared,
      hs.out, hs.blame, hs.stop, hs.stopped, hs.itemOk, hs.itemError, hs.mergedOf, ?_, ?_,
      fun _ => ⟨hres, hgone⟩, nofun⟩
    · intro w hw hdel
      rcases hs.delivered w hw hdel with hi | hm | ⟨f, he⟩
      · exact .inl hi
      · exact .inr (.inl hm)
      · rw [hc] at he
        cases he
    · intro w f hw hfl
      rcases hs.failed w f hw hfl with hi | ⟨g, he⟩
      · exact .inl hi
      · rw [hc] at he
        cases he

lemma Sound.dispatch (hs : Sound cfg s) {f : Feed.State}
    (h : Dispatches cfg.nPositions (FeedOpen cfg s) s.feed f) :
    Sound cfg { s with feed := f } := by
  refine ⟨hs.feed.dispatch h, ?_, ?_, ?_, hs.givenTo, ?_, hs.state, hs.shared, ?_, hs.blame,
    hs.stop, hs.stopped, hs.itemOk, hs.itemError, hs.mergedOf, hs.delivered, hs.failed,
    hs.closed, hs.ended⟩
  · intro w hl
    exact hs.lock w ((dispatches_lock h).symm.trans hl)
  · intro w hw hrec
    exact (dispatches_lock h).trans (hs.receiving w hw hrec)
  · rw [dispatches_sent h]
    exact hs.given
  · intro p hp
    cases h with
    | send q hq hlt hopen hroom => cases hp
    | sendFails q hq hlt hclosed => exact hclosed
    | finish hq => cases hp
  · -- a worker only runs out when the dispatcher has finished, and then it takes no more steps
    intro w hw ho
    have hfin := (hs.out w hw ho).1
    cases h with
    | send _ hp | sendFails _ hp | finish hp =>
      rw [hfin] at hp
      cases hp

lemma sound_start (cfg : Config S E) : Sound cfg (start cfg) := by
  refine ⟨fine_start _, nofun, nofun, rfl, nofun, nofun, fun _ => rfl, fun _ _ _ => rfl, ?_, nofun,
    nofun, nofun, nofun, nofun, nofun, nofun, nofun, nofun, nofun⟩
  rintro w - (h | h)
  · cases h
  · cases h

lemma Sound.cancel (hs : Sound cfg s) : Sound cfg { s with cancelled := true } := by
  refine { hs with blame := ?_ }
  intro w f hw hf
  rcases hs.blame w f hw hf with ⟨hf', -⟩ | hown
  · exact .inl ⟨hf', rfl⟩
  · exact .inr hown

lemma Sound.step (hs : Sound cfg s) (h : Step cfg s t) : Sound cfg t := by
  cases h with
  | act _ h =>
    cases h with
    | worker w hw _ h => exact hs.worker hw h
    | consumer _ h => exact hs.consumer h
    | dispatch f h => exact hs.dispatch h
  | cancel => exact hs.cancel

lemma Reachable.sound (h : Reachable cfg s) : Sound cfg s := by
  induction h with
  | refl => exact sound_start cfg
  | tail _ hstep ih => exact ih.step hstep

/-- Each position is given to one worker at most, and once. -/
def GivenOnce (s : State S E) : Prop :=
  (s.given.map Prod.fst).Nodup ∧ ∀ p v w, (p, v) ∈ s.given → (p, w) ∈ s.given → v = w

/-- Every position was worked successfully, and every worker that was given one handed merge its
state after all the positions it was given. -/
def MergedAll (cfg : Config S E) (s : State S E) : Prop :=
  (∀ p, p < cfg.nPositions → ∃ w, w < cfg.threads ∧ p ∈ s.worked w) ∧
    ∀ w, w < cfg.threads → share s w ≠ [] → share s w = s.worked w ∧
      ∃ a, accumulate cfg (s.worked w) = some a ∧ (w, a) ∈ s.merged

lemma Reachable.given_once (h : Reachable cfg s) : GivenOnce s := by
  have hnodup : (s.given.map Prod.fst).Nodup := by
    rw [h.sound.given]
    exact nodup_range
  refine ⟨hnodup, ?_⟩
  intro p v w hv hw
  have := inj_on_of_nodup_map hnodup hv hw rfl
  exact congrArg Prod.snd this

lemma Worker.Gone.broken_gone (hgone : x.Gone) (hb : x.Broken) :
    x = .panicked ∨ ∃ f, x = .failed f := by
  cases x with
  | failed f => exact .inr ⟨f, rfl⟩
  | panicked => exact .inl rfl
  | _ => simp_all [Worker.Gone, Worker.Broken, Worker.failure]

/-- A worker that stopped for a peer, and no panic: the run returns the failure of a peer. -/
theorem Sound.stopped_error (hs : Sound cfg s) (hgone : ∀ w, w < cfg.threads → (s.workers w).Gone)
    (hpanic : ∀ w, w < cfg.threads → s.workers w ≠ .panicked) {r : Except (Failure E) Unit}
    (hr : s.consumer = .done r) (hw : w < cfg.threads) (hstopped : s.workers w = .stopped) :
    ∃ v f, v < cfg.threads ∧ s.workers v = .failed f ∧ r = .error f := by
  obtain ⟨v, hv, hb⟩ := hs.stop (hs.stopped w hw hstopped)
  rcases (hgone v hv).broken_gone hb with hp | ⟨f, hf⟩
  · exact absurd hp (hpanic v hv)
  cases r with
  | error g =>
    obtain ⟨u, hu, hg⟩ := hs.ended g hr
    exact ⟨u, g, hu, hg, rfl⟩
  | ok _ =>
    rcases hs.failed v f hv hf with hi | ⟨g, hg⟩
    · rw [(hs.closed hr).1] at hi
      cases hi
    · rw [hr] at hg
      cases hg

lemma Sound.all_delivered (hs : Sound cfg s) (hr : s.consumer = .done (.ok ()))
    (hpanic : ∀ w, w < cfg.threads → s.workers w ≠ .panicked) (hw : w < cfg.threads) :
    s.workers w = .delivered := by
  obtain ⟨hempty, hgone⟩ := hs.closed hr
  cases hx : s.workers w with
  | delivered => rfl
  | stopped =>
    obtain ⟨v, f, -, -, hf⟩ := hs.stopped_error hgone hpanic hr hw hx
    cases hf
  | failed f =>
    rcases hs.failed w f hw hx with hi | ⟨g, hg⟩
    · rw [hempty] at hi
      cases hi
    · rw [hr] at hg
      cases hg
  | panicked => exact absurd hx (hpanic w hw)
  | _ =>
    have := hgone w hw
    rw [hx] at this
    exact absurd this not_false

lemma Sound.merged_all (hs : Sound cfg s) (hr : s.consumer = .done (.ok ()))
    (hpanic : ∀ w, w < cfg.threads → s.workers w ≠ .panicked) : MergedAll cfg s := by
  have hdel := fun w (hw : w < cfg.threads) => hs.all_delivered hr hpanic hw
  have hshare : ∀ w, w < cfg.threads → share s w = s.worked w := by
    intro w hw
    have := hs.shared_of hw (hdel w hw) (by simp [Worker.failure])
    simpa [Worker.inHand] using this
  refine ⟨?_, ?_⟩
  · obtain ⟨hfin, hq⟩ := hs.out 0 cfg.threads_pos (.inr (hdel 0 cfg.threads_pos))
    have htaken : taken cfg.nPositions s.feed = cfg.nPositions := by
      simp [taken, sent, hfin, hq]
    intro p hp
    have hmem : p ∈ s.given.map Prod.fst := by
      rw [hs.given, htaken]
      exact mem_range.mpr hp
    obtain ⟨⟨q, w⟩, hy, rfl⟩ := mem_map.mp hmem
    have hw := hs.givenTo _ hy
    refine ⟨w, hw, ?_⟩
    rw [← hshare w hw]
    exact mem_map.mpr ⟨(q, w), mem_filter.mpr ⟨hy, by simp⟩, rfl⟩
  · intro w hw _
    refine ⟨hshare w hw, s.states w, hs.state w, ?_⟩
    rcases hs.delivered w hw (hdel w hw) with hi | hm | ⟨f, hf⟩
    · rw [(hs.closed hr).1] at hi
      cases hi
    · exact hm
    · rw [hr] at hf
      cases hf

/-- What a run returns when a worker stopped for a peer: that worker sent nothing, and the failure
of a peer is the result unless one panicked. -/
def StopReported (cfg : Config S E) (s : State S E) (o : Outcome E) : Prop :=
  ∀ w, w < cfg.threads → s.workers w = .stopped →
    (∀ a, (w, a) ∉ s.merged) ∧
      (((∃ v, v < cfg.threads ∧ s.workers v = .panicked) ∧ o = .panicked) ∨
        ∃ v f, v < cfg.threads ∧ s.workers v = .failed f ∧ Blame cfg s v f ∧
          o = .returned (.error f))

lemma Reachable.stop_reported (h : Reachable cfg s) {o : Outcome E} (hend : Terminated cfg s o) :
    StopReported cfg s o := by
  obtain ⟨-, hgone, r, hr, hcase⟩ := hend
  intro w hw hstopped
  refine ⟨?_, ?_⟩
  · intro a ha
    obtain ⟨-, hdel, -⟩ := h.sound.mergedOf _ ha
    rw [hstopped] at hdel
    cases hdel
  · rcases hcase with hp | ⟨hpanic, ho⟩
    · exact .inl hp
    · obtain ⟨v, f, hv, hf, hrf⟩ := h.sound.stopped_error hgone hpanic hr hw hstopped
      refine .inr ⟨v, f, hv, hf, h.sound.blame v f hv (by rw [hf]; rfl), ?_⟩
      rw [ho, hrf]

lemma Reachable.ok_complete (h : Reachable cfg s) (hend : Terminated cfg s (.returned (.ok ()))) :
    MergedAll cfg s := by
  obtain ⟨-, -, r, hr, hcase⟩ := hend
  rcases hcase with ⟨-, ho⟩ | ⟨hpanic, ho⟩
  · cases ho
  · cases ho
    exact h.sound.merged_all hr hpanic

lemma Returns.ok_complete (h : Returns cfg s (.returned (.ok ()))) : MergedAll cfg s := by
  cases h with
  | empty h =>
    refine ⟨?_, ?_⟩
    · intro p hp
      rw [h] at hp
      exact absurd hp (Nat.not_lt_zero p)
    · intro w _ hne
      exact absurd rfl hne
  | ran _ _ _ hs ho => exact hs.ok_complete ho

lemma Returns.stop_reported {o : Outcome E} (h : Returns cfg s o) : StopReported cfg s o := by
  cases h with
  | cancelled => exact nofun
  | empty h => exact nofun
  | ran _ _ _ hs ho => exact hs.stop_reported ho

lemma Sound.feed_acts (hs : Sound cfg s) (hlock : s.feed.lock = some w) :
    ∃ t, Act cfg s t := by
  obtain ⟨hw, hrec⟩ := hs.lock w hlock
  have hopen : FeedOpen cfg s := ⟨w, hw, by rw [hrec]; exact not_false⟩
  rcases Feed.progress hs.feed hlock hopen with ⟨r, f, hr⟩ | ⟨f, hd⟩
  · cases r with
    | some p => exact ⟨_, .worker w hw _ (.receive p f hrec hr)⟩
    | none => exact ⟨_, .worker w hw _ (.closed f hrec hr)⟩
  · exact ⟨_, .dispatch f hd⟩

/-- The channel has a place for the item, or the consumer something to receive. -/
theorem sends_or_receives (cfg : Config S E) (s : State S E) (i : Item S E) :
    (∃ t, Sends cfg s i t) ∨ ∃ t, ConsumerStep cfg s t := by
  cases hc : s.consumer with
  | done r => exact .inl ⟨_, .dropped r hc⟩
  | receiving =>
    by_cases hroom : s.results.length < cfg.threads
    · exact .inl ⟨_, .send hc hroom⟩
    · right
      cases hres : s.results with
      | nil =>
        rw [hres] at hroom
        exact absurd cfg.threads_pos hroom
      | cons j rest =>
        obtain ⟨v, r⟩ := j
        cases r with
        | ok a => exact ⟨_, .merge v a rest hc hres⟩
        | error f => exact ⟨_, .failure v f rest hc hres⟩

lemma Sound.worker_acts (hs : Sound cfg s) (hw : w < cfg.threads)
    (hlive : ¬ (s.workers w).Gone) : ∃ t, Act cfg s t := by
  cases hx : s.workers w with
  | checking =>
    cases hc : s.cancelled with
    | false => exact ⟨_, .worker w hw _ (.check hx hc)⟩
    | true => exact ⟨_, .worker w hw _ (.checkFails hx hc)⟩
  | loading =>
    cases hb : s.stop with
    | false => exact ⟨_, .worker w hw _ (.load hx hb)⟩
    | true => exact ⟨_, .worker w hw _ (.loadStop hx hb)⟩
  | locking =>
    cases hl : s.feed.lock with
    | none => exact ⟨_, .worker w hw _ (.lock hx hl)⟩
    | some v => exact hs.feed_acts hl
  | receiving => exact hs.feed_acts (hs.receiving w hw hx)
  | working p =>
    cases hr : (cfg.work (s.states w) p).2 with
    | ok => exact ⟨_, .worker w hw _ (.work p hx hr)⟩
    | error e => exact ⟨_, .worker w hw _ (.workFails p e hx hr)⟩
    | panicked => exact ⟨_, .worker w hw _ (.panic p hx hr)⟩
  | delivering =>
    rcases sends_or_receives cfg s ⟨w, .ok (s.states w)⟩ with ⟨t, ht⟩ | ⟨t, ht⟩
    · exact ⟨_, .worker w hw _ (.deliver t hx ht)⟩
    · exact ⟨t, .consumer t ht⟩
  | raising f => exact ⟨_, .worker w hw _ (.raiseStop f hx)⟩
  | reporting f =>
    rcases sends_or_receives cfg s ⟨w, .error f⟩ with ⟨t, ht⟩ | ⟨t, ht⟩
    · exact ⟨_, .worker w hw _ (.report f t hx ht)⟩
    · exact ⟨t, .consumer t ht⟩
  | unwinding => exact ⟨_, .worker w hw _ (.unwind hx)⟩
  | _ =>
    rw [hx] at hlive
    exact absurd trivial hlive

lemma terminated_of_gone {r : Except (Failure E) Unit} (hd : s.feed.dispatcher.Gone)
    (hgone : ∀ w, w < cfg.threads → (s.workers w).Gone) (hr : s.consumer = .done r) :
    ∃ o, Terminated cfg s o := by
  by_cases hp : ∃ w, w < cfg.threads ∧ s.workers w = .panicked
  · exact ⟨.panicked, hd, hgone, r, hr, .inl ⟨hp, rfl⟩⟩
  · refine ⟨.returned r, hd, hgone, r, hr, .inr ⟨?_, rfl⟩⟩
    intro w hw hx
    exact hp ⟨w, hw, hx⟩

/-- From a reachable state that is not the end some thread can take a step. -/
theorem Reachable.acts (h : Reachable cfg s) (hrun : ¬ ∃ o, Terminated cfg s o) :
    ∃ t, Act cfg s t := by
  have hs := h.sound
  by_cases hlive : FeedOpen cfg s
  · obtain ⟨w, hw, hx⟩ := hlive
    exact hs.worker_acts hw hx
  · have hgone : ∀ w, w < cfg.threads → (s.workers w).Gone := by
      intro w hw
      by_contra hx
      exact hlive ⟨w, hw, hx⟩
    by_cases hd : s.feed.dispatcher.Gone
    · cases hc : s.consumer with
      | done r => exact absurd (terminated_of_gone hd hgone hc) hrun
      | receiving =>
        cases hres : s.results with
        | nil => exact ⟨_, .consumer _ (.disconnect hc hres hgone)⟩
        | cons j rest =>
          obtain ⟨v, r⟩ := j
          cases r with
          | ok a => exact ⟨_, .consumer _ (.merge v a rest hc hres)⟩
          | error f => exact ⟨_, .consumer _ (.failure v f rest hc hres)⟩
    · obtain ⟨f, hf⟩ := dispatcher_ends hs.feed hlive hd
      exact ⟨_, .dispatch f hf⟩

lemma Reachable.ended_or_acts (h : Reachable cfg s) :
    (∃ o, Terminated cfg s o) ∨ ∃ t, Act cfg s t := by
  by_cases hend : ∃ o, Terminated cfg s o
  · exact .inl hend
  · exact .inr (h.acts hend)

end AccumulatePool
