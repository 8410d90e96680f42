import Pbfhogg.Pool.Unordered

/-!
# Every run of the unordered pool

Each position is merged at most once and with a result of its own, a run that returns without an
error merged them all unless merge asked to stop, and no state short of the end is stuck.
-/

namespace UnorderedPool

open Feed List Function

variable {L R E : Type} {cfg : Config L R E} {s t : State L R E} {w p : Nat} {x : Worker R E}

lemma held_update (hw : w < cfg.threads) (ht : t.workers = update s.workers w x)
    (p : Nat) : held cfg t p + (s.workers w).holds p = held cfg s p + x.holds p := by
  have hx : (t.workers w).holds p = x.holds p := by rw [ht, update_self]
  rw [← hx]
  apply Indexed.sum_range_update (f := fun w => (s.workers w).holds p) hw
  intro j hj
  rw [ht, update_of_ne hj]

lemma held_other (hw : w < cfg.threads) (ht : t.workers = update s.workers w x)
    (hsame : x.holds p = (s.workers w).holds p) : held cfg t p = held cfg s p := by
  have := held_update hw ht p
  omega

lemma countP_append_one {α : Type} (l : List (Nat × α)) (x : Nat × α) (p : Nat) :
    (l ++ [x]).countP (fun y => decide (y.1 = p)) =
      l.countP (fun y => decide (y.1 = p)) + if x.1 = p then 1 else 0 := by
  rw [countP_append, countP_singleton]
  simp

lemma countP_cons_one {α : Type} (l : List (Nat × α)) (x : Nat × α) (p : Nat) :
    (x :: l).countP (fun y => decide (y.1 = p)) =
      l.countP (fun y => decide (y.1 = p)) + if x.1 = p then 1 else 0 := by
  rw [countP_cons]
  simp

lemma lossless_of_listening (hlive : Listening s)
    (hp : ∀ w, w < cfg.threads → s.workers w ≠ .panicked) : Lossless cfg s :=
  ⟨fun e he => absurd he (hlive e), hp⟩

/-- A step of the consumer while it listens. -/
theorem Sound.consumer_turn (hs : Sound cfg s)
    {c : Consumer R E} {res : List (Nat × Except E R)} {m : List (Nat × R)}
    (hle : ∀ p, load cfg { s with consumer := c, results := res, merged := m } p ≤ load cfg s p)
    (hkeep : Lossless cfg { s with consumer := c, results := res, merged := m } →
      ∀ p, load cfg { s with consumer := c, results := res, merged := m } p = load cfg s p)
    (hclosed : c = .arrived none ∨ c = .done .complete →
      res = [] ∧ ∀ w, w < cfg.threads → (s.workers w).Gone)
    (hqueued : ∀ x ∈ res, Own cfg x.1 x.2) (harrived : ∀ x, c = .arrived (some x) → Own cfg x.1 x.2)
    (hmerging : ∀ p r, c = .merging p r → Own cfg p (.ok r))
    (hmerged : ∀ x ∈ m, Own cfg x.1 (.ok x.2))
    (hbroken : c = .done .broken → ∃ init p r, m = init ++ [(p, r)] ∧ cfg.breaks init p r = true)
    (hlive : Listening s) :
    Sound cfg { s with consumer := c, results := res, merged := m } := by
  refine ⟨hs.feed, hs.lock, hs.receiving, ?_, ?_, ?_, hs.exhausted, hs.abandoned, ?_, hclosed,
    hs.sent, hqueued, harrived, hmerging, hmerged, hbroken⟩
  · intro p
    exact Nat.le_trans (hle p) (hs.once p)
  · intro p hp
    have hzero := hs.ahead p hp
    have := hle p
    omega
  · intro hloss p hp
    rw [hkeep hloss p]
    exact hs.kept (lossless_of_listening hlive hloss.2) p hp
  · intro w hw hcut
    obtain ⟨e, he, -⟩ := hs.cut w hw hcut
    exact absurd he (hlive e)

lemma Sound.consumer (hs : Sound cfg s) (h : ConsumerStep cfg s t) : Sound cfg t := by
  have hlive : Listening s := by
    intro e
    cases h <;> simp [*]
  cases h with
  | check hc hok =>
    have hload : ∀ p, load cfg { s with consumer := .waiting } p = load cfg s p := by
      intro p
      simp only [load, held, hc, Consumer.holds]
    refine hs.consumer_turn (fun p => (hload p).le) (fun _ => hload) ?_ hs.queued ?_ ?_ hs.merged
      ?_ hlive
    · nofun
    · nofun
    · nofun
    · nofun
  | checkFails hc hcancel =>
    have hload : ∀ p,
        load cfg { s with consumer := .done (.failed .cancelled) } p = load cfg s p := by
      intro p
      simp only [load, held, hc, Consumer.holds]
    refine hs.consumer_turn (fun p => (hload p).le) (fun _ => hload) ?_ hs.queued ?_ ?_ hs.merged
      ?_ hlive
    · nofun
    · nofun
    · nofun
    · nofun
  | receive x rest hc hres =>
    have hload : ∀ p, load cfg { s with consumer := .arrived (some x), results := rest } p =
        load cfg s p := by
      intro p
      simp only [load, held, hc, hres, Consumer.holds, countP_cons_one]
      omega
    refine hs.consumer_turn (fun p => (hload p).le) (fun _ => hload) ?_ ?_ ?_ ?_ hs.merged ?_ hlive
    · nofun
    · intro y hy
      exact hs.queued y (by rw [hres]; exact mem_cons_of_mem _ hy)
    · intro y hy
      cases hy
      exact hs.queued x (by rw [hres]; exact mem_cons_self)
    · nofun
    · nofun
  | disconnect hc hres hgone =>
    have hload : ∀ p, load cfg { s with consumer := .arrived none } p = load cfg s p := by
      intro p
      simp only [load, held, hc, Consumer.holds]
    refine hs.consumer_turn (fun p => (hload p).le) (fun _ => hload)
      (fun _ => ⟨hres, hgone⟩) hs.queued ?_ ?_ hs.merged ?_ hlive
    · nofun
    · nofun
    · nofun
  | arrivedFails item hc hcancel =>
    refine hs.consumer_turn ?_ ?_ ?_ hs.queued ?_ ?_ hs.merged ?_ hlive
    · intro p
      simp only [load, held, hc, Consumer.holds]
      omega
    · intro hloss
      cases hloss.1 _ rfl
    · nofun
    · nofun
    · nofun
    · nofun
  | complete hc hok =>
    have hload : ∀ p, load cfg { s with consumer := .done .complete } p = load cfg s p := by
      intro p
      simp only [load, held, hc, Consumer.holds]
    refine hs.consumer_turn (fun p => (hload p).le) (fun _ => hload)
      (fun _ => hs.closed (.inl hc)) hs.queued ?_ ?_ hs.merged ?_ hlive
    · nofun
    · nofun
    · nofun
  | failure p e hc hok =>
    refine hs.consumer_turn ?_ ?_ ?_ hs.queued ?_ ?_ hs.merged ?_ hlive
    · intro q
      simp only [load, held, hc, Consumer.holds]
      omega
    · intro hloss
      cases hloss.1 _ rfl
    · nofun
    · nofun
    · nofun
    · nofun
  | accept p r hc hok =>
    have hload : ∀ q, load cfg { s with consumer := .merging p r } q = load cfg s q := by
      intro q
      simp only [load, held, hc, Consumer.holds]
    refine hs.consumer_turn (fun q => (hload q).le) (fun _ => hload) ?_ hs.queued ?_ ?_ hs.merged
      ?_ hlive
    · nofun
    · nofun
    · intro p' r' h
      cases h
      exact hs.arrived _ hc
    · nofun
  | merge p r hc hgo =>
    have hload : ∀ q, load cfg { s with consumer := .checking, merged := s.merged ++ [(p, r)] } q =
        load cfg s q := by
      intro q
      simp only [load, held, hc, Consumer.holds, countP_append_one]
      omega
    refine hs.consumer_turn (fun q => (hload q).le) (fun _ => hload) ?_ hs.queued ?_ ?_ ?_ ?_ hlive
    · nofun
    · nofun
    · nofun
    · intro x hx
      rcases mem_append.mp hx with hx | hx
      · exact hs.merged x hx
      · rw [mem_singleton.mp hx]
        exact hs.merging p r hc
    · nofun
  | mergeBreaks p r hc hstop =>
    have hload : ∀ q,
        load cfg { s with consumer := .done .broken, merged := s.merged ++ [(p, r)] } q =
          load cfg s q := by
      intro q
      simp only [load, held, hc, Consumer.holds, countP_append_one]
      omega
    refine hs.consumer_turn (fun q => (hload q).le) (fun _ => hload) ?_ hs.queued ?_ ?_ ?_ ?_ hlive
    · nofun
    · nofun
    · nofun
    · intro x hx
      rcases mem_append.mp hx with hx | hx
      · exact hs.merged x hx
      · rw [mem_singleton.mp hx]
        exact hs.merging p r hc
    · intro _
      exact ⟨s.merged, p, r, rfl, hstop⟩

/-- What a live worker tells about the rest. -/
theorem Sound.alive (hs : Sound cfg s) (hw : w < cfg.threads) (hlive : ¬ (s.workers w).Gone) :
    (∀ q, s.feed.dispatcher ≠ .failed q) ∧ s.consumer ≠ .arrived none ∧
      s.consumer ≠ .done .complete := by
  refine ⟨?_, ?_, ?_⟩
  · intro q hq
    exact hs.abandoned q hq ⟨w, hw, hlive⟩
  · intro hc
    exact hlive ((hs.closed (.inl hc)).2 w hw)
  · intro hc
    exact hlive ((hs.closed (.inr hc)).2 w hw)

/-- A step of a live worker, which becomes `x`. -/
theorem Sound.worker_turn (hs : Sound cfg s) (hw : w < cfg.threads)
    (hlive : ¬ (s.workers w).Gone) (hworkers : t.workers = update s.workers w x)
    (hconsumer : t.consumer = s.consumer) (hmerged : t.merged = s.merged)
    (hdispatcher : t.feed.dispatcher = s.feed.dispatcher) (hfeed : Fine cfg.nPositions t.feed)
    (hlock : ∀ w', t.feed.lock = some w' → w' < cfg.threads ∧ t.workers w' = .receiving)
    (hreceiving : ∀ w', w' < cfg.threads → t.workers w' = .receiving → t.feed.lock = some w')
    (honce : ∀ p, load cfg t p ≤ 1)
    (hahead : ∀ p, taken cfg.nPositions t.feed ≤ p → load cfg t p = 0)
    (hkept : Lossless cfg t → ∀ p, p < taken cfg.nPositions t.feed → load cfg t p = 1)
    (hold : ∀ w', w' < cfg.threads → s.workers w' = .exhausted → t.feed.queue = s.feed.queue)
    (hexhausted : x = .exhausted → s.feed.dispatcher.Gone ∧ t.feed.queue = [])
    (hcut : x = .cut → ∃ e, s.consumer = .done e ∧ e ≠ .complete)
    (hsent : ∀ p r, x = .sending p r → Own cfg p r)
    (hqueued : ∀ y ∈ t.results, Own cfg y.1 y.2) : Sound cfg t := by
  obtain ⟨hfailed, hnone, hcomplete⟩ := hs.alive hw hlive
  have hcases : ∀ w', t.workers w' = x ∧ w' = w ∨ t.workers w' = s.workers w' ∧ w' ≠ w := by
    intro w'
    by_cases hw' : w' = w
    · exact .inl ⟨by rw [hworkers, hw', update_self], hw'⟩
    · exact .inr ⟨by rw [hworkers, update_of_ne hw'], hw'⟩
  refine ⟨hfeed, hlock, hreceiving, honce, hahead, hkept, ?_, ?_, ?_, ?_, ?_, hqueued, ?_, ?_, ?_,
    ?_⟩
  · intro w' hw' hex
    rcases hcases w' with ⟨heq, -⟩ | ⟨heq, -⟩
    · obtain ⟨hgone, hq⟩ := hexhausted (heq.symm.trans hex)
      refine ⟨?_, hq⟩
      rw [hdispatcher]
      cases hd : s.feed.dispatcher with
      | sending q =>
        rw [hd] at hgone
        exact absurd hgone not_false
      | finished => rfl
      | failed q => exact absurd hd (hfailed q)
    · obtain ⟨hd, hq⟩ := hs.exhausted w' hw' (heq ▸ hex)
      rw [hdispatcher, hold w' hw' (heq ▸ hex)]
      exact ⟨hd, hq⟩
  · intro q hq
    rw [hdispatcher] at hq
    exact absurd hq (hfailed q)
  · intro w' hw' hc
    rw [hconsumer]
    rcases hcases w' with ⟨heq, -⟩ | ⟨heq, -⟩
    · exact hcut (heq.symm.trans hc)
    · exact hs.cut w' hw' (heq ▸ hc)
  · rw [hconsumer]
    rintro (h | h)
    · exact absurd h hnone
    · exact absurd h hcomplete
  · intro w' q r hw' hsend
    rcases hcases w' with ⟨heq, -⟩ | ⟨heq, -⟩
    · exact hsent q r (heq.symm.trans hsend)
    · exact hs.sent w' q r hw' (heq ▸ hsend)
  · rw [hconsumer]
    exact hs.arrived
  · rw [hconsumer]
    exact hs.merging
  · rw [hmerged]
    exact hs.merged
  · rw [hconsumer, hmerged]
    exact hs.broken

/-- A turn that leaves the feed as it is and drops nothing. -/
theorem Sound.quiet_turn (hs : Sound cfg s) (hw : w < cfg.threads)
    (hlive : ¬ (s.workers w).Gone) (hworkers : t.workers = update s.workers w x)
    (hconsumer : t.consumer = s.consumer) (hmerged : t.merged = s.merged)
    (hfeed : t.feed = s.feed) (hold : s.workers w ≠ .receiving) (hnew : x ≠ .receiving)
    (hle : ∀ p, load cfg t p ≤ load cfg s p)
    (hkeep : Lossless cfg t → Lossless cfg s ∧ ∀ p, load cfg t p = load cfg s p)
    (hexhausted : x ≠ .exhausted) (hcut : x = .cut → ∃ e, s.consumer = .done e ∧ e ≠ .complete)
    (hsent : ∀ p r, x = .sending p r → Own cfg p r)
    (hqueued : ∀ y ∈ t.results, Own cfg y.1 y.2) : Sound cfg t := by
  refine hs.worker_turn hw hlive hworkers hconsumer hmerged (by rw [hfeed]) (hfeed ▸ hs.feed) ?_ ?_
    ?_ ?_ ?_ (fun _ _ _ => by rw [hfeed]) (fun h => absurd h hexhausted) hcut hsent hqueued
  · intro w' hl
    rw [hfeed] at hl
    obtain ⟨hw', hrec⟩ := hs.lock w' hl
    have hne : w' ≠ w := by
      rintro rfl
      exact hold hrec
    rw [hworkers, update_of_ne hne]
    exact ⟨hw', hrec⟩
  · intro w' hw' hrec
    have hne : w' ≠ w := by
      rintro rfl
      rw [hworkers, update_self] at hrec
      exact hnew hrec
    rw [hworkers, update_of_ne hne] at hrec
    rw [hfeed]
    exact hs.receiving w' hw' hrec
  · intro p
    exact Nat.le_trans (hle p) (hs.once p)
  · intro p hp
    rw [hfeed] at hp
    have hzero := hs.ahead p hp
    have := hle p
    omega
  · intro hloss p hp
    rw [hfeed] at hp
    obtain ⟨hloss', hload⟩ := hkeep hloss
    rw [hload]
    exact hs.kept hloss' p hp

/-- A turn in which the worker does not panic keeps what was lossless. -/
theorem lossless_back (h : Lossless cfg t)
    (hworkers : t.workers = update s.workers w x) (hconsumer : t.consumer = s.consumer)
    (hold : s.workers w ≠ .panicked) : Lossless cfg s := by
  refine ⟨?_, ?_⟩
  · rw [← hconsumer]
    exact h.1
  · intro w' hw' hp
    by_cases hne : w' = w
    · subst hne
      exact hold hp
    · apply h.2 w' hw'
      rw [hworkers, update_of_ne hne]
      exact hp

lemma receiving_after (hs : Sound cfg s) (hworkers : t.workers = update s.workers w x)
    (hlock : s.feed.lock = some w) (hnew : x ≠ .receiving) :
    ∀ w', w' < cfg.threads → t.workers w' ≠ .receiving := by
  intro w' hw' hrec
  have hne : w' ≠ w := by
    rintro rfl
    rw [hworkers, update_self] at hrec
    exact hnew hrec
  rw [hworkers, update_of_ne hne] at hrec
  have := hs.receiving w' hw' hrec
  rw [hlock] at this
  exact hne (Option.some.inj this).symm

lemma Sound.worker (hs : Sound cfg s) (hw : w < cfg.threads) (h : WorkerStep cfg s w t) :
    Sound cfg t := by
  cases h with
  | lock hst hfree =>
    have hload : ∀ p, load cfg ({ s with feed := { s.feed with lock := some w } }.setWorker w
        .receiving) p = load cfg s p := by
      intro p
      have := held_other (p := p) (x := .receiving) hw
        (t := { s with feed := { s.feed with lock := some w } }.setWorker w .receiving) rfl
        (by rw [hst]; rfl)
      simp only [load, this]
      rfl
    refine hs.worker_turn (x := .receiving) hw (by rw [hst]; exact not_false) rfl rfl rfl rfl
      (hs.feed.lock _) ?_ ?_ ?_ ?_ ?_ (fun _ _ _ => rfl) nofun nofun nofun hs.queued
    · intro w' hl
      cases hl
      exact ⟨hw, update_self _ _ _⟩
    · intro w' hw' hrec
      by_cases hne : w' = w
      · rw [hne]
        rfl
      · have hrec' : update s.workers w .receiving w' = .receiving := hrec
        rw [update_of_ne hne] at hrec'
        have := hs.receiving w' hw' hrec'
        rw [hfree] at this
        cases this
    · intro p
      rw [hload]
      exact hs.once p
    · intro p hp
      rw [hload]
      exact hs.ahead p hp
    · intro hloss p hp
      rw [hload]
      exact hs.kept (lossless_back hloss rfl rfl (by rw [hst]; nofun)) p hp
  | receive q f hst hr =>
    obtain ⟨hq, htaken, hlt, hfine⟩ := hs.feed.receive hr
    obtain ⟨hlock, hfree⟩ := receives_lock hr
    have hload : ∀ p, load cfg ({ s with feed := f }.setWorker w (.working q)) p =
        load cfg s p + if q = p then 1 else 0 := by
      intro p
      have := held_update (x := .working q) hw (t := { s with feed := f }.setWorker w (.working q))
        rfl p
      rw [hst] at this
      change held cfg ({ s with feed := f }.setWorker w (.working q)) p + 0 =
        held cfg s p + (if q = p then 1 else 0) at this
      simp only [load]
      change held cfg ({ s with feed := f }.setWorker w (.working q)) p + _ + s.consumer.holds p +
        _ = _
      simp only [State.setWorker] at this ⊢
      omega
    refine hs.worker_turn (x := .working q) hw (by rw [hst]; exact not_false) rfl rfl rfl
      (receives_dispatcher hr) hfine ?_ ?_ ?_ ?_ ?_ ?_ nofun nofun nofun hs.queued
    · intro w' hl
      change f.lock = some w' at hl
      rw [hfree] at hl
      cases hl
    · intro w' hw' hrec
      exfalso
      refine receiving_after (x := .working q) hs ?_ hlock nofun w' hw' hrec
      rfl
    · intro p
      rw [hload]
      by_cases hp : q = p
      · have := hs.ahead p (by omega)
        rw [if_pos hp]
        omega
      · rw [if_neg hp]
        exact hs.once p
    · intro p hp
      change taken cfg.nPositions f ≤ p at hp
      rw [hload, if_neg (by omega)]
      exact hs.ahead p (by omega)
    · intro hloss p hp
      change p < taken cfg.nPositions f at hp
      have hloss' : Lossless cfg s := lossless_back hloss rfl rfl (by rw [hst]; nofun)
      rw [hload]
      by_cases hpq : q = p
      · have := hs.ahead p (by omega)
        rw [if_pos hpq]
        omega
      · rw [if_neg hpq]
        exact hs.kept hloss' p (by omega)
    · intro w' hw' hex
      have hempty := (hs.exhausted w' hw' hex).2
      cases hr with
      | position _ rest _ hcons =>
        rw [hempty] at hcons
        cases hcons
  | closed f hst hr =>
    obtain ⟨hempty, hgone, hlock, hf⟩ := receives_closed hr
    have hload : ∀ p, load cfg ({ s with feed := f }.setWorker w .exhausted) p = load cfg s p := by
      intro p
      have := held_other (p := p) (x := .exhausted) hw
        (t := { s with feed := f }.setWorker w .exhausted) rfl (by rw [hst]; rfl)
      simp only [load, this]
      rfl
    have htaken : taken cfg.nPositions f = taken cfg.nPositions s.feed := by
      rw [hf]
      rfl
    refine hs.worker_turn (x := .exhausted) hw (by rw [hst]; exact not_false) rfl rfl rfl
      (receives_dispatcher hr) ?_ ?_ ?_ ?_ ?_ ?_ ?_ ?_ nofun nofun hs.queued
    · change Fine cfg.nPositions f
      rw [hf]
      exact hs.feed.lock none
    · intro w' hl
      change f.lock = some w' at hl
      rw [hf] at hl
      cases hl
    · intro w' hw' hrec
      exfalso
      refine receiving_after (x := .exhausted) hs ?_ hlock nofun w' hw' hrec
      rfl
    · intro p
      rw [hload]
      exact hs.once p
    · intro p hp
      rw [hload]
      exact hs.ahead p (htaken ▸ hp)
    · intro hloss p hp
      rw [hload]
      exact hs.kept (lossless_back hloss rfl rfl (by rw [hst]; nofun)) p (htaken ▸ hp)
    · intro w' hw' hex
      change f.queue = s.feed.queue
      rw [hf]
    · intro _
      refine ⟨hgone, ?_⟩
      change f.queue = []
      rw [hf]
      exact hempty
  | work q r hst hr =>
    have hload : ∀ p, load cfg
        ({ s with locals := update s.locals w (cfg.work (s.locals w) q).1 }.setWorker w
          (.sending q r)) p = load cfg s p := by
      intro p
      have := held_other (p := p) (x := .sending q r) hw
        (t := { s with
          locals := update s.locals w (cfg.work (s.locals w) q).1 }.setWorker w
            (.sending q r)) rfl (by rw [hst]; rfl)
      simp only [load, this]
      rfl
    refine hs.quiet_turn (x := .sending q r) hw (by rw [hst]; exact not_false) rfl rfl rfl rfl
      (by rw [hst]; nofun) nofun (fun p => (hload p).le)
      (fun hloss => ⟨lossless_back hloss rfl rfl (by rw [hst]; nofun), hload⟩) nofun nofun ?_
      hs.queued
    intro p r' heq
    cases heq
    exact ⟨_, hr⟩
  | panic q hst hr =>
    refine hs.quiet_turn (x := .panicked) hw (by rw [hst]; exact not_false) rfl rfl rfl rfl
      (by rw [hst]; nofun) nofun ?_ ?_ nofun nofun nofun hs.queued
    · intro p
      have := held_update (x := .panicked) hw (t := s.setWorker w .panicked) rfl p
      rw [hst] at this
      simp only [load]
      change held cfg (s.setWorker w .panicked) p + _ = held cfg s p + 0 at this
      change held cfg (s.setWorker w .panicked) p + _ + s.consumer.holds p + _ ≤ _
      simp only [State.setWorker] at this ⊢
      omega
    · intro hloss
      exact absurd (update_self _ _ _) (hloss.2 w hw)
  | send q r hst hopen hroom =>
    have hload : ∀ p,
        load cfg ({ s with results := s.results ++ [(q, r)] }.setWorker w .locking) p =
          load cfg s p := by
      intro p
      have := held_update (x := .locking) hw
        (t := { s with results := s.results ++ [(q, r)] }.setWorker w .locking) rfl p
      rw [hst] at this
      change held cfg ({ s with results := s.results ++ [(q, r)] }.setWorker w .locking) p +
        (if q = p then 1 else 0) = held cfg s p + 0 at this
      simp only [load]
      change held cfg ({ s with results := s.results ++ [(q, r)] }.setWorker w .locking) p +
        (s.results ++ [(q, r)]).countP _ + s.consumer.holds p + _ = _
      rw [countP_append_one]
      simp only [State.setWorker] at this ⊢
      omega
    refine hs.quiet_turn (x := .locking) hw (by rw [hst]; exact not_false) rfl rfl rfl rfl
      (by rw [hst]; nofun) nofun (fun p => (hload p).le)
      (fun hloss => ⟨lossless_back hloss rfl rfl (by rw [hst]; nofun), hload⟩) nofun nofun nofun ?_
    intro y hy
    rcases mem_append.mp hy with hy | hy
    · exact hs.queued y hy
    · rw [mem_singleton.mp hy]
      exact hs.sent w q r hw hst
  | sendFails q r e hst hclosed =>
    have hne : e ≠ .complete := by
      rintro rfl
      exact (hs.alive hw (by rw [hst]; exact not_false)).2.2 hclosed
    refine hs.quiet_turn (x := .cut) hw (by rw [hst]; exact not_false) rfl rfl rfl rfl
      (by rw [hst]; nofun) nofun ?_ ?_ nofun (fun _ => ⟨e, hclosed, hne⟩) nofun hs.queued
    · intro p
      have := held_update (x := .cut) hw (t := s.setWorker w .cut) rfl p
      rw [hst] at this
      change held cfg (s.setWorker w .cut) p + _ = held cfg s p + 0 at this
      simp only [load]
      change held cfg (s.setWorker w .cut) p + _ + s.consumer.holds p + _ ≤ _
      simp only [State.setWorker] at this ⊢
      omega
    · intro hloss
      exact absurd (hloss.1 e hclosed) hne

lemma Sound.dispatch (hs : Sound cfg s) {f : Feed.State}
    (h : Dispatches cfg.nPositions (FeedOpen cfg s) s.feed f) : Sound cfg { s with feed := f } := by
  have htaken := dispatches_sent h
  have hload : ∀ p, load cfg { s with feed := f } p = load cfg s p := fun _ => rfl
  refine ⟨hs.feed.dispatch h, ?_, ?_, ?_, ?_, ?_, ?_, ?_, hs.cut, hs.closed, hs.sent, hs.queued,
    hs.arrived, hs.merging, hs.merged, hs.broken⟩
  · intro w hl
    exact hs.lock w ((dispatches_lock h).symm.trans hl)
  · intro w hw hrec
    exact (dispatches_lock h).trans (hs.receiving w hw hrec)
  · intro p
    rw [hload]
    exact hs.once p
  · intro p hp
    rw [hload]
    exact hs.ahead p (htaken ▸ hp)
  · intro hloss p hp
    rw [hload]
    exact hs.kept hloss p (htaken ▸ hp)
  · -- a worker only runs out when the dispatcher has finished, and then it takes no more steps
    intro w hw hex
    have hfin := (hs.exhausted w hw hex).1
    cases h with
    | send _ hp | sendFails _ hp | finish hp =>
      rw [hfin] at hp
      cases hp
  · intro p hp
    cases h with
    | send q hq hlt hopen hroom => cases hp
    | sendFails q hq hlt hclosed => exact hclosed
    | finish hq => cases hp

lemma sound_start (cfg : Config L R E) : Sound cfg (start cfg) := by
  have hload : ∀ p, load cfg (start cfg) p = 0 := by
    intro p
    simp only [load, held, start, Worker.holds, Consumer.holds, countP_nil, Finset.sum_const_zero]
  refine ⟨fine_start _, nofun, nofun, ?_, ?_, ?_, nofun, nofun, nofun, nofun, nofun, nofun, nofun,
    nofun, nofun, nofun⟩
  · intro p
    rw [hload]
    exact Nat.zero_le _
  · intro p _
    exact hload p
  · intro _ p hp
    exact absurd hp (Nat.not_lt_zero p)

lemma Sound.act (hs : Sound cfg s) (h : Act cfg s t) : Sound cfg t := by
  cases h with
  | worker w hw _ h => exact hs.worker hw h
  | consumer _ h => exact hs.consumer h
  | dispatch f h => exact hs.dispatch h

lemma Sound.step (hs : Sound cfg s) (h : Step cfg s t) : Sound cfg t := by
  cases h with
  | act _ h => exact hs.act h
  | cancel => exact { hs with }

lemma Reachable.sound (h : Reachable cfg s) : Sound cfg s := by
  induction h with
  | refl => exact sound_start cfg
  | tail _ hstep ih => exact ih.step hstep

/-- Merge is handed each position at most once, with a result of its own. -/
def MergesOwn (cfg : Config L R E) (s : State L R E) : Prop :=
  (s.merged.map Prod.fst).Nodup ∧ ∀ x ∈ s.merged, Own cfg x.1 (.ok x.2)

/-- Merge was handed every position of the schedule. -/
def MergedAll (cfg : Config L R E) (s : State L R E) : Prop :=
  ∀ p, p < cfg.nPositions → ∃ r, (p, r) ∈ s.merged

/-- The last merge asked to stop. -/
def Broke (cfg : Config L R E) (s : State L R E) : Prop :=
  ∃ init p r, s.merged = init ++ [(p, r)] ∧ cfg.breaks init p r = true

lemma nodup_of_countP {α : Type} {l : List (Nat × α)}
    (h : ∀ p, l.countP (fun x => decide (x.1 = p)) ≤ 1) : (l.map Prod.fst).Nodup := by
  rw [nodup_iff_count_le_one]
  intro p
  have hcount : (l.map Prod.fst).count p = l.countP (fun x => decide (x.1 = p)) := by
    rw [count, countP_map]
    apply countP_congr
    intro x _
    simp
  rw [hcount]
  exact h p

lemma Reachable.merges_own (h : Reachable cfg s) : MergesOwn cfg s := by
  refine ⟨nodup_of_countP ?_, h.sound.merged⟩
  intro p
  have := h.sound.once p
  unfold load at this
  omega

/-- Whatever a run that ended without a panic and without a failure did, it is complete. -/
theorem Sound.complete (hs : Sound cfg s) (hgone : ∀ w, w < cfg.threads → (s.workers w).Gone)
    (hdone : s.consumer = .done .complete)
    (hpanic : ∀ w, w < cfg.threads → s.workers w ≠ .panicked) : MergedAll cfg s := by
  have hout : ∀ w, w < cfg.threads → s.workers w = .exhausted := by
    intro w hw
    have hg := hgone w hw
    cases hx : s.workers w with
    | exhausted => rfl
    | cut =>
      obtain ⟨e, he, hne⟩ := hs.cut w hw hx
      rw [hdone] at he
      cases he
      exact absurd rfl hne
    | panicked => exact absurd hx (hpanic w hw)
    | locking | receiving | working | sending =>
      rw [hx] at hg
      exact absurd hg not_false
  obtain ⟨hfin, hempty⟩ := hs.exhausted 0 cfg.threads_pos (hout 0 cfg.threads_pos)
  have htaken : taken cfg.nPositions s.feed = cfg.nPositions := by
    simp [taken, Feed.sent, hfin, hempty]
  have hloss : Lossless cfg s := by
    refine ⟨?_, hpanic⟩
    intro e he
    rw [hdone] at he
    cases he
    rfl
  intro p hp
  have hload := hs.kept hloss p (by rw [htaken]; exact hp)
  have hheld : held cfg s p = 0 := by
    apply Finset.sum_eq_zero
    intro w hw
    rw [hout w (Finset.mem_range.mp hw)]
    rfl
  -- nobody else has it, so it was merged
  have hmerged : s.merged.countP (fun x => decide (x.1 = p)) = 1 := by
    rw [load, hheld, (hs.closed (.inr hdone)).1, hdone] at hload
    simpa [Consumer.holds] using hload
  have hpos : 0 < s.merged.countP (fun x => decide (x.1 = p)) := by omega
  obtain ⟨x, hx, hxp⟩ := countP_pos_iff.mp hpos
  refine ⟨x.2, ?_⟩
  rw [← of_decide_eq_true hxp]
  exact hx

lemma Reachable.ok_complete (h : Reachable cfg s) (hend : Terminated cfg s .ok) :
    MergedAll cfg s ∨ Broke cfg s := by
  obtain ⟨-, hgone, e, he, hcase⟩ := hend
  rcases hcase with ⟨-, hout⟩ | ⟨hpanic, hout⟩
  · cases hout
  · cases e with
    | complete => exact .inl (h.sound.complete hgone he hpanic)
    | broken => exact .inr (h.sound.broken he)
    | failed f => cases hout

lemma Returns.ok_complete (h : Returns cfg s .ok) : MergedAll cfg s ∨ Broke cfg s := by
  cases h with
  | empty h =>
    left
    intro p hp
    rw [h] at hp
    exact absurd hp (Nat.not_lt_zero p)
  | ran _ _ _ hs ho => exact hs.ok_complete ho

lemma Listening.acts (hlive : Listening s) (cfg : Config L R E)
    (hwait : s.consumer ≠ .waiting) : ∃ t, ConsumerStep cfg s t := by
  cases hc : s.consumer with
  | checking =>
    cases hx : s.cancelled with
    | false => exact ⟨_, .check hc hx⟩
    | true => exact ⟨_, .checkFails hc hx⟩
  | waiting => exact absurd hc hwait
  | arrived item =>
    cases hx : s.cancelled with
    | true => exact ⟨_, .arrivedFails item hc hx⟩
    | false =>
      cases item with
      | none => exact ⟨_, .complete hc hx⟩
      | some y =>
        obtain ⟨p, r⟩ := y
        cases r with
        | error e => exact ⟨_, .failure p e hc hx⟩
        | ok r => exact ⟨_, .accept p r hc hx⟩
  | merging p r =>
    cases hb : cfg.breaks s.merged p r with
    | false => exact ⟨_, .merge p r hc hb⟩
    | true => exact ⟨_, .mergeBreaks p r hc hb⟩
  | done e => exact absurd hc (hlive e)

/-- Whoever waits for a position waits for a feed that can go on. -/
theorem Sound.feed_acts (hs : Sound cfg s) (hlock : s.feed.lock = some w) : ∃ t, Act cfg s t := by
  obtain ⟨hw, hrec⟩ := hs.lock w hlock
  have hopen : FeedOpen cfg s := ⟨w, hw, by rw [hrec]; exact not_false⟩
  rcases Feed.progress hs.feed hlock hopen with ⟨r, f, hr⟩ | ⟨f, hd⟩
  · cases r with
    | some p => exact ⟨_, .worker w hw _ (.receive p f hrec hr)⟩
    | none => exact ⟨_, .worker w hw _ (.closed f hrec hr)⟩
  · exact ⟨_, .dispatch f hd⟩

lemma Sound.worker_acts (hs : Sound cfg s) (hw : w < cfg.threads)
    (hlive : ¬ (s.workers w).Gone) (hc : s.consumer = .waiting ∨ ∃ e, s.consumer = .done e) :
    ∃ t, Act cfg s t := by
  cases hx : s.workers w with
  | locking =>
    cases hl : s.feed.lock with
    | none => exact ⟨_, .worker w hw _ (.lock hx hl)⟩
    | some v => exact hs.feed_acts hl
  | receiving => exact hs.feed_acts (hs.receiving w hw hx)
  | working p =>
    cases hr : blobResult (cfg.work (s.locals w) p).2 with
    | some r => exact ⟨_, .worker w hw _ (.work p r hx hr)⟩
    | none => exact ⟨_, .worker w hw _ (.panic p hx hr)⟩
  | sending p r =>
    rcases hc with hc | ⟨e, hc⟩
    · by_cases hroom : s.results.length < poolResultChannelDepth
      · refine ⟨_, .worker w hw _ (.send p r hx ?_ hroom)⟩
        intro e he
        rw [hc] at he
        cases he
      · -- the channel is full, so the consumer has something to receive
        cases hres : s.results with
        | nil =>
          rw [hres] at hroom
          exact absurd (Nat.zero_lt_succ 31) hroom
        | cons y rest => exact ⟨_, .consumer _ (.receive y rest hc hres)⟩
    · exact ⟨_, .worker w hw _ (.sendFails p r e hx hc)⟩
  | exhausted | cut | panicked =>
    rw [hx] at hlive
    exact absurd trivial hlive

lemma terminated_of_gone {e : Ending E} (hd : s.feed.dispatcher.Gone)
    (hgone : ∀ w, w < cfg.threads → (s.workers w).Gone) (he : s.consumer = .done e) :
    ∃ o, Terminated cfg s o := by
  by_cases hp : ∃ w, w < cfg.threads ∧ s.workers w = .panicked
  · exact ⟨.panicked, hd, hgone, e, he, .inl ⟨hp, rfl⟩⟩
  · refine ⟨e.outcome, hd, hgone, e, he, .inr ⟨?_, rfl⟩⟩
    intro w hw hx
    exact hp ⟨w, hw, hx⟩

/-- From a reachable state that is not the end some thread can take a step. -/
theorem Reachable.acts (h : Reachable cfg s) (hrun : ¬ ∃ o, Terminated cfg s o) :
    ∃ t, Act cfg s t := by
  have hs := h.sound
  by_cases hc : s.consumer = .waiting ∨ ∃ e, s.consumer = .done e
  · by_cases hlive : FeedOpen cfg s
    · obtain ⟨w, hw, hx⟩ := hlive
      exact hs.worker_acts hw hx hc
    · have hgone : ∀ w, w < cfg.threads → (s.workers w).Gone := by
        intro w hw
        by_contra hx
        exact hlive ⟨w, hw, hx⟩
      by_cases hd : s.feed.dispatcher.Gone
      · rcases hc with hc | ⟨e, hc⟩
        · cases hres : s.results with
          | nil => exact ⟨_, .consumer _ (.disconnect hc hres hgone)⟩
          | cons y rest => exact ⟨_, .consumer _ (.receive y rest hc hres)⟩
        · exact absurd (terminated_of_gone hd hgone hc) hrun
      · obtain ⟨f, hf⟩ := dispatcher_ends hs.feed hlive hd
        exact ⟨_, .dispatch f hf⟩
  · have hlisten : Listening s := by
      intro e he
      exact hc (.inr ⟨e, he⟩)
    obtain ⟨t, ht⟩ := hlisten.acts cfg (fun h => hc (.inl h))
    exact ⟨t, .consumer t ht⟩

lemma Reachable.ended_or_acts (h : Reachable cfg s) :
    (∃ o, Terminated cfg s o) ∨ ∃ t, Act cfg s t := by
  by_cases hend : ∃ o, Terminated cfg s o
  · exact .inl hend
  · exact .inr (h.acts hend)

end UnorderedPool
