import Pbfhogg.Altw.RouterInvariant

/-!
# Runs of the payload router

What is published, what the waiters are told, and that no wake-up is lost, over every interleaving.
-/

namespace PayloadRouter

open SlotLayout Indexed List Function

variable {α : Type} {c : Inputs α} {s t : State α}

variable {w i : Nat}

structure Flags (c : Inputs α) (s : State α) : Prop where
  done : s.producerDone = true → ∀ w < c.workers, (s.workers w).phase = .exited
  errored : s.s3Error = true → s.broken = true
  broken : s.broken = true → s.aborted = true ∨ ∃ w < c.workers, (s.workers w).phase = .flagging
  exited : ∀ w < c.workers, (s.workers w).phase = .exited →
    s.aborted = true ∨ s.broken = true ∨ c.buckets ≤ s.next
  notifying : ∀ w < c.workers, (s.workers w).phase = .abortNotifying → s.aborted = true

lemma WorkerStep.not_exited (h : WorkerStep c w s t) : (s.workers w).phase ≠ .exited := by
  intro hexited
  cases h <;> simp_all

/-- A worker that steps goes from one phase to another, or has failed. -/
theorem flags_turn {z : Worker α} (h : Flags c s) (hw : w < c.workers)
    (hworkers : t.workers = update s.workers w z) (hlive : (s.workers w).phase ≠ .exited)
    (hdone : t.producerDone = s.producerDone) (herror : t.s3Error = true → t.broken = true)
    (haborted : s.aborted = true → t.aborted = true)
    (hbroken : t.broken = true → t.aborted = true ∨ z.phase = .flagging ∨
      (s.broken = true ∧ (s.workers w).phase ≠ .flagging))
    (hsame : s.broken = true → t.broken = true) (hnext : s.next ≤ t.next)
    (hexited : z.phase = .exited → t.aborted = true ∨ t.broken = true ∨ c.buckets ≤ t.next)
    (hnotifying : z.phase = .abortNotifying → t.aborted = true) : Flags c t where
  done := by
    intro hd
    exact absurd (h.done (hdone ▸ hd) w hw) hlive
  errored := herror
  broken := by
    intro hb
    rcases hbroken hb with ha | hz | ⟨hs, hnot⟩
    · exact .inl ha
    · exact .inr ⟨w, hw, by rw [hworkers, update_self]; exact hz⟩
    · rcases h.broken hs with ha | ⟨v, hv, hphase⟩
      · exact .inl (haborted ha)
      · have hne : v ≠ w := by
          rintro rfl
          exact hnot hphase
        exact .inr ⟨v, hv, by rw [hworkers, update_of_ne hne]; exact hphase⟩
  exited := by
    intro v hv
    rw [hworkers]
    by_cases hvw : v = w
    · subst hvw
      rw [update_self]
      exact hexited
    · rw [update_of_ne hvw]
      intro hphase
      rcases h.exited v hv hphase with ha | hb | hn
      · exact .inl (haborted ha)
      · exact .inr (.inl (hsame hb))
      · exact .inr (.inr (Nat.le_trans hn hnext))
  notifying := by
    intro v hv
    rw [hworkers]
    by_cases hvw : v = w
    · subst hvw
      rw [update_self]
      exact hnotifying
    · rw [update_of_ne hvw]
      intro hphase
      exact haborted (h.notifying v hv hphase)

lemma flags_worker (h : Flags c s) (hw : w < c.workers) (hstep : WorkerStep c w s t) :
    Flags c t := by
  have hlive := hstep.not_exited
  cases hstep with
  | stop hphase hstop =>
    refine flags_turn h hw rfl hlive rfl h.errored id (fun hb => .inr (.inr ⟨hb, ?_⟩)) id
      (Nat.le_refl _) (fun _ => ?_) (fun hz => by cases hz)
    · rw [hphase]
      exact fun hz => by cases hz
    · rcases hstop with ha | he
      · exact .inl ha
      · exact .inr (.inl (h.errored he))
  | noMore hphase hge =>
    refine flags_turn h hw rfl hlive rfl h.errored id (fun hb => .inr (.inr ⟨hb, ?_⟩)) id
      (Nat.le_succ _) (fun _ => .inr (.inr (Nat.le_succ_of_le hge))) (fun hz => by cases hz)
    rw [hphase]
    exact fun hz => by cases hz
  | claim _ hphase =>
    refine flags_turn h hw rfl hlive rfl h.errored id (fun hb => .inr (.inr ⟨hb, ?_⟩)) id
      (Nat.le_succ _) (fun hz => by cases hz) (fun hz => by cases hz)
    rw [hphase]
    exact fun hz => by cases hz
  | fail | encodeFails | publishWorkerFault | publishStraddlerFault | leftFault | rightFault =>
    exact flags_turn h hw rfl hlive rfl (fun _ => rfl) id (fun _ => .inr (.inl rfl)) (fun _ => rfl)
      (Nat.le_refl _) (fun hz => by cases hz) (fun hz => by cases hz)
  | unwind =>
    exact flags_turn h hw rfl hlive rfl (fun _ => rfl) id (fun _ => .inr (.inl rfl)) (fun _ => rfl)
      (Nat.le_refl _) (fun hz => by cases hz) (fun hz => by cases hz)
  | claimFault =>
    exact flags_turn h hw rfl hlive rfl (fun _ => rfl) id (fun _ => .inr (.inl rfl)) (fun _ => rfl)
      (Nat.le_succ _) (fun hz => by cases hz) (fun hz => by cases hz)
  | flag hphase =>
    exact flags_turn h hw rfl hlive rfl h.errored (fun _ => rfl) (fun _ => .inl rfl) id
      (Nat.le_refl _) (fun _ => .inl rfl) (fun _ => rfl)
  | notifyAbort hphase hgate =>
    have ha := h.notifying w hw hphase
    exact flags_turn h hw rfl hlive rfl h.errored id (fun _ => .inl ha) id (Nat.le_refl _)
      (fun _ => .inl ha) (fun _ => ha)
  | goOn hphase | bucketDone _ hphase | writePayload _ _ _ _ hphase | notify _ _ hphase
  | publishWorker _ _ _ _ _ hphase | publishStraddler _ _ _ _ _ _ hphase
  | leftFirst _ _ _ hphase | rightFirst _ _ _ hphase
  | leftSecond _ _ _ _ hphase | rightSecond _ _ _ _ hphase =>
    refine flags_turn h hw rfl hlive rfl h.errored id (fun hb => .inr (.inr ⟨hb, ?_⟩)) id
      (Nat.le_refl _) (fun hz => by cases hz) (fun hz => by cases hz)
    rw [hphase]
    exact fun hz => by cases hz

structure History (s : State α) : Prop where
  nodup : s.published.Nodup
  published : ∀ i, i ∈ s.published ↔ ∃ location, s.slots i = some location ∧ location ≠ .empty

lemma History.publish {location : BlobLocation} (h : History s) (hfree : s.slots i = none)
    (hlocation : location ≠ .empty) (hpublished : t.published = s.published ++ [i])
    (hslots : t.slots = update s.slots i (some location)) : History t where
  nodup := by
    rw [hpublished]
    refine nodup_append.mpr ⟨h.nodup, nodup_singleton i, ?_⟩
    intro j hj k hk hjk
    rw [mem_singleton.mp hk] at hjk
    obtain ⟨l, hl, -⟩ := (h.published j).mp hj
    rw [hjk, hfree] at hl
    cases hl
  published := by
    intro j
    rw [hpublished, hslots, mem_append, mem_singleton]
    by_cases hj : j = i
    · subst hj
      rw [update_self]
      exact ⟨fun _ => ⟨location, rfl, hlocation⟩, fun _ => .inr rfl⟩
    · rw [update_of_ne hj, ← h.published j]
      exact or_iff_left hj

lemma history_worker (h : History s) (hstep : WorkerStep c w s t) : History t := by
  cases hstep with
  | publishWorker _ _ _ _ _ _ hfree | publishStraddler _ _ _ _ _ _ _ _ hfree =>
    exact h.publish hfree (fun hl => by cases hl) rfl rfl
  | _ => exact ⟨h.nodup, h.published⟩

/-- Some thread is about to notify. -/
def Pending (c : Inputs α) (s : State α) : Prop :=
  (∃ w < c.workers, (s.workers w).phase = .abortNotifying ∨
      ∃ k rest, (s.workers w).phase = .notifying k rest) ∨
    Aborter.notifying ∈ s.aborters ∨ s.producer = .notifying

/-- What a waiter for blob `i` waits for. -/
def Due (s : State α) (i : Nat) : Prop :=
  s.slots i ≠ none ∨ s.aborted = true ∨ s.producerDone = true

def WaitFine (c : Inputs α) (s : State α) (i : Nat) : WaitPhase → Prop
  | .checked => s.aborted = true → Pending c s
  | .parking => Due s i → Pending c s
  | .parked => Due s i → Pending c s
  | .returned .ok => s.slots i ≠ none
  | .returned .missing => s.producerDone = true ∧ s.slots i = none
  | .returned .aborted => s.aborted = true
  | _ => True

def Waits (c : Inputs α) (s : State α) : Prop := ∀ x ∈ s.waiters, WaitFine c s x.1 x.2

/-- What a step of another thread leaves to the waiters: what they read stays or a notification is
pending, and nothing is published once the producer is done. -/
structure Grows (c : Inputs α) (s t : State α) : Prop where
  aborted : s.aborted = true → t.aborted = true
  slots : ∀ i, s.slots i ≠ none → t.slots i ≠ none
  done : s.producerDone = true → t.producerDone = true
  settled : s.producerDone = true → ∀ i, s.slots i = none → t.slots i = none

lemma waits_undisturbed (h : Waits c s) (hgrows : Grows c s t) (hwaiters : t.waiters = s.waiters)
    (hpending : Pending c s → Pending c t)
    (hnew : Pending c t ∨ (t.slots = s.slots ∧ t.aborted = s.aborted ∧
      t.producerDone = s.producerDone)) : Waits c t := by
  intro x hx
  rw [hwaiters] at hx
  have hfine := h x hx
  have hdue : (Due s x.1 → Pending c s) → Due t x.1 → Pending c t := by
    intro hs ht
    rcases hnew with hp | ⟨hslots, haborted, hdone⟩
    · exact hp
    · rw [Due, hslots, haborted, hdone] at ht
      exact hpending (hs ht)
  rcases x with ⟨i, p⟩
  cases p with
  | fast => trivial
  | locking => trivial
  | holding => trivial
  | checked =>
    intro ha
    rcases hnew with hp | ⟨-, haborted, -⟩
    · exact hp
    · exact hpending (hfine (haborted ▸ ha))
  | parking => exact hdue hfine
  | parked => exact hdue hfine
  | returned r =>
    cases r with
    | ok => exact hgrows.slots i hfine
    | aborted => exact hgrows.aborted hfine
    | missing => exact ⟨hgrows.done hfine.1, hgrows.settled hfine.1 i hfine.2⟩

/-- After a notification no waiter holds the gate or is parked. -/
theorem waits_notified (h : Waits c s) (hgate : s.gateFree) (hwaiters : t.waiters = s.wakeAll)
    (haborted : t.aborted = s.aborted) (hslots : t.slots = s.slots)
    (hdone : t.producerDone = s.producerDone) : Waits c t := by
  intro x hx
  rw [hwaiters, State.wakeAll, mem_map] at hx
  obtain ⟨⟨i, p⟩, hmem, rfl⟩ := hx
  have hfine := h (i, p) hmem
  have hholds := hgate (i, p) hmem
  cases p with
  | fast | locking | holding | parked => trivial
  | checked => cases hholds
  | parking => cases hholds
  | returned r =>
    cases r with
    | ok =>
      have hslot : t.slots i ≠ none := hslots ▸ hfine
      exact hslot
    | aborted => exact haborted.trans hfine
    | missing => exact ⟨hdone.trans hfine.1, hslots ▸ hfine.2⟩

/-- A worker that was not about to notify leaves the others' notifications pending. -/
theorem pending_kept {z : Worker α} (hworkers : t.workers = update s.workers w z)
    (haborters : t.aborters = s.aborters) (hproducer : t.producer = s.producer)
    (hphase : (s.workers w).phase ≠ .abortNotifying)
    (hphase' : ∀ k rest, (s.workers w).phase ≠ .notifying k rest) : Pending c s → Pending c t := by
  rintro (⟨v, hv, hnotify⟩ | hother)
  · have hne : v ≠ w := by
      rintro rfl
      rcases hnotify with ha | ⟨k, rest, hn⟩
      · exact hphase ha
      · exact hphase' k rest hn
    refine .inl ⟨v, hv, ?_⟩
    rw [hworkers, update_of_ne hne]
    exact hnotify
  · rw [← haborters, ← hproducer] at hother
    exact .inr hother

lemma pending_worker {z : Worker α} (hw : w < c.workers)
    (hworkers : t.workers = update s.workers w z)
    (hz : z.phase = .abortNotifying ∨ ∃ k rest, z.phase = .notifying k rest) : Pending c t := by
  refine .inl ⟨w, hw, ?_⟩
  rw [hworkers, update_self]
  exact hz

lemma waits_worker (h : Waits c s) (hflags : Flags c s) (hw : w < c.workers)
    (hstep : WorkerStep c w s t) : Waits c t := by
  have hlive := hstep.not_exited
  have hnotdone : s.producerDone = true → ∀ i, s.slots i = none → t.slots i = none :=
    fun hd => absurd (hflags.done hd w hw) hlive
  cases hstep with
  | notify _ _ _ hgate | notifyAbort _ hgate => exact waits_notified h hgate rfl rfl rfl rfl
  | flag hphase =>
    refine waits_undisturbed h ⟨fun _ => rfl, fun _ hi => hi, id, hnotdone⟩ rfl ?_
      (.inl (pending_worker hw rfl (.inl rfl)))
    exact fun _ => pending_worker hw rfl (.inl rfl)
  | publishWorker k i offset length rest hphase hfree
  | publishStraddler k i left right rest bytes hphase hencode hfree =>
    refine waits_undisturbed h ⟨id, fun j hj => ?_, id, hnotdone⟩ rfl
      (fun _ => pending_worker hw rfl (.inr ⟨k, rest, rfl⟩))
      (.inl (pending_worker hw rfl (.inr ⟨k, rest, rfl⟩)))
    exact forall_update (P := fun j p => s.slots j ≠ none → p ≠ none) (fun _ hj => hj)
      (fun _ hp => by cases hp) j hj
  | stop hphase | goOn hphase | noMore hphase | claim _ hphase | claimFault _ hphase
  | bucketDone _ hphase | fail _ _ hphase | unwind _ _ hphase | writePayload _ _ _ _ hphase
  | publishWorkerFault _ _ _ _ _ _ hphase | leftFirst _ _ _ hphase | rightFirst _ _ _ hphase
  | leftSecond _ _ _ _ hphase | rightSecond _ _ _ _ hphase | leftFault _ _ _ _ hphase
  | rightFault _ _ _ _ hphase | encodeFails _ _ _ _ _ hphase
  | publishStraddlerFault _ _ _ _ _ _ hphase =>
    refine waits_undisturbed h ⟨id, fun _ hi => hi, id, hnotdone⟩ rfl
      (pending_kept rfl rfl rfl ?_ ?_) (.inr ⟨rfl, rfl, rfl⟩)
    · rw [hphase]
      exact fun hz => by cases hz
    · rw [hphase]
      exact fun _ _ hz => by cases hz

/-- The waiters change, and nothing else. -/
theorem waitFine_waiters (l : List (Nat × WaitPhase)) (i : Nat) (p : WaitPhase) :
    WaitFine c { s with waiters := l } i p ↔ WaitFine c s i p := by
  cases p with
  | returned r => cases r <;> exact Iff.rfl
  | _ => exact Iff.rfl

/-- The check of the waiter was of the state it leaves. -/
theorem waitFine_step {p q : WaitPhase} (h : WaitFine c s i p) (hstep : WaitStep s i p q) :
    WaitFine c s i q := by
  cases hstep with
  | fastReady hready => exact hready
  | ready hready => exact hready
  | seeAbort ha => exact ha
  | missing hnone hdone => exact ⟨hdone, hnone⟩
  | noAbort ha =>
    intro ha'
    rw [ha] at ha'
    cases ha'
  | miss hnone hdone =>
    rintro (hslot | ha | hd)
    · exact absurd hnone hslot
    · exact h ha
    · rw [hdone] at hd
      cases hd
  | park => exact h
  | fastMiss => trivial
  | lock => trivial
  | spurious => trivial

structure Sound (c : Inputs α) (s : State α) : Prop where
  kept : Kept c s
  contents : Contents c s
  flags : Flags c s
  history : History s
  waits : Waits c s
  faults : s.faults = []

lemma broken_kept (h : WorkerStep c w s t) (hbroken : t.broken = false) : s.broken = false := by
  cases h <;> first
    | exact hbroken
    | cases hbroken

lemma Sound.worker (h : Sound c s) (hw : w < c.workers) (hstep : WorkerStep c w s t) :
    Sound c t := by
  have hfaults := no_fault h.kept h.contents hw hstep
  have hload := load_worker hw hstep hfaults
  refine ⟨⟨fun x => ?_, fun hbroken x => ?_⟩, contents_worker h.contents hw hstep hfaults,
    flags_worker h.flags hw hstep, history_worker h.history hstep,
    waits_worker h.waits h.flags hw hstep, hfaults.trans h.faults⟩
  · exact Nat.le_trans (hload x).1 (h.kept.le x)
  · exact ((hload x).2 hbroken).trans (h.kept.eq (broken_kept hstep hbroken) x)

/-- A step in which no worker takes part. -/
theorem Sound.beside (h : Sound c s) {b d : Bool} {p : Producer} {a : List Aborter}
    {l : List (Nat × WaitPhase)} :
    let t := { s with aborted := b, producerDone := d, producer := p, aborters := a, waiters := l }
    Waits c t → Flags c t → Sound c t :=
  fun hwaits hflags => ⟨⟨h.kept.le, h.kept.eq⟩,
    ⟨h.contents.phases, h.contents.partials, h.contents.slots⟩, hflags,
    ⟨h.history.nodup, h.history.published⟩, hwaits, h.faults⟩

lemma Sound.producer (h : Sound c s) (hstep : ProducerStep c s t) : Sound c t := by
  cases hstep with
  | markDone hproducer hexited =>
    have hwaits : Waits c { s with producer := .notifying, producerDone := true } :=
      waits_undisturbed h.waits ⟨id, fun _ hi => hi, fun _ => rfl, fun _ _ hi => hi⟩ rfl
        (fun _ => .inr (.inr rfl)) (.inl (.inr (.inr rfl)))
    exact h.beside hwaits
      ⟨fun _ => hexited, h.flags.errored, h.flags.broken, h.flags.exited, h.flags.notifying⟩
  | notify hproducer hgate =>
    have hwaits : Waits c { s with producer := .finished, waiters := s.wakeAll } :=
      waits_notified h.waits hgate rfl rfl rfl rfl
    exact h.beside hwaits
      ⟨h.flags.done, h.flags.errored, h.flags.broken, h.flags.exited, h.flags.notifying⟩

lemma Sound.abort (h : Sound c s) (hstep : AbortStep s t) : Sound c t := by
  cases hstep with
  | call =>
    have hpending : Pending c s → Pending c { s with aborters := s.aborters ++ [.flagging] } := by
      rintro (hworker | haborter | hproducer)
      · exact .inl hworker
      · exact .inr (.inl (mem_append_left _ haborter))
      · exact .inr (.inr hproducer)
    have hwaits : Waits c { s with aborters := s.aborters ++ [.flagging] } :=
      waits_undisturbed h.waits ⟨id, fun _ hi => hi, id, fun _ _ hi => hi⟩ rfl hpending
        (.inr ⟨rfl, rfl, rfl⟩)
    exact h.beside hwaits
      ⟨h.flags.done, h.flags.errored, h.flags.broken, h.flags.exited, h.flags.notifying⟩
  | flag before after haborters =>
    have hmem : Aborter.notifying ∈ before ++ .notifying :: after := by simp
    have hwaits : Waits c
        { s with aborters := before ++ .notifying :: after, aborted := true } :=
      waits_undisturbed h.waits ⟨fun _ => rfl, fun _ hi => hi, id, fun _ _ hi => hi⟩ rfl
        (fun _ => .inr (.inl hmem)) (.inl (.inr (.inl hmem)))
    exact h.beside hwaits
      ⟨h.flags.done, h.flags.errored, fun _ => .inl rfl, fun _ _ _ => .inl rfl, fun _ _ _ => rfl⟩
  | notify before after haborters hgate =>
    have hwaits : Waits c { s with aborters := before ++ after, waiters := s.wakeAll } :=
      waits_notified h.waits hgate rfl rfl rfl rfl
    exact h.beside hwaits
      ⟨h.flags.done, h.flags.errored, h.flags.broken, h.flags.exited, h.flags.notifying⟩

lemma Sound.waiters (h : Sound c s) {l : List (Nat × WaitPhase)}
    (hfine : ∀ x ∈ l, WaitFine c s x.1 x.2) : Sound c { s with waiters := l } :=
  h.beside (fun x hx => (waitFine_waiters l x.1 x.2).mpr (hfine x hx))
    ⟨h.flags.done, h.flags.errored, h.flags.broken, h.flags.exited, h.flags.notifying⟩

lemma Sound.step (h : Sound c s) (hstep : Step c s t) : Sound c t := by
  cases hstep with
  | worker w t hw hstep => exact h.worker hw hstep
  | producer t hstep => exact h.producer hstep
  | abort t hstep => exact h.abort hstep
  | waitReady i hi =>
    refine h.waiters fun x hx => ?_
    rcases mem_append.mp hx with hold | hnew
    · exact h.waits x hold
    · rw [mem_singleton.mp hnew]
      trivial
  | wait i p q before after hwaiters hstep =>
    have hold : ∀ x ∈ before ++ (i, p) :: after, WaitFine c s x.1 x.2 := hwaiters ▸ h.waits
    refine h.waiters fun x hx => ?_
    rcases mem_append.mp hx with hbefore | hrest
    · exact hold x (mem_append_left _ hbefore)
    · rcases mem_cons.mp hrest with rfl | hafter
      · exact waitFine_step (hold (i, p) (by simp)) hstep
      · exact hold x (by simp [hafter])

lemma slots_start {location : BlobLocation} (h : (start c).slots i = some location) :
    location = .empty ∧ c.blobHasNonzeroRefs i = false := by
  simp only [start] at h
  split at h
  · cases h
  · next hzero =>
    cases h
    exact ⟨rfl, Bool.eq_false_iff.mpr hzero⟩

lemma phases_start (hw : w < c.workers) : ((start c).workers w).phase = .checking := by
  simp [start, hw]

lemma load_start (c : Inputs α) (x : BlobBucketIntersection) : load c (start c) x = c.listed x := by
  have hunclaimed : unclaimed c (start c).next x = c.listed x :=
    Finset.sum_congr rfl fun k _ => if_pos (Nat.zero_le k)
  have hheld : held c (start c).workers x = 0 := by
    refine Finset.sum_eq_zero fun w hw => ?_
    rw [phases_start (Finset.mem_range.mp hw)]
    rfl
  have hstaged : staged ((start c).partials x.blobIdx) x = 0 := rfl
  have hstored : stored ((start c).slots x.blobIdx) x = 0 := by
    cases hslot : (start c).slots x.blobIdx with
    | none => rfl
    | some location =>
      rw [(slots_start hslot).1]
      rfl
  unfold load
  omega

lemma contents_start (c : Inputs α) : Contents c (start c) where
  phases := by
    intro w
    by_cases hw : w < c.workers
    · rw [phases_start hw]
      trivial
    · simp only [start, if_neg hw]
      trivial
  partials := fun _ => trivial
  slots := by
    intro i location hi
    obtain ⟨rfl, hzero⟩ := slots_start hi
    intro hne
    rw [(nonzeroRefs_iff hne.1).mpr hne.2] at hzero
    cases hzero

lemma flags_start (c : Inputs α) : Flags c (start c) where
  done := fun hd => nomatch hd
  errored := fun he => nomatch he
  broken := fun hb => nomatch hb
  exited := by
    intro w hw hphase
    rw [phases_start hw] at hphase
    cases hphase
  notifying := by
    intro w hw hphase
    rw [phases_start hw] at hphase
    cases hphase

lemma history_start (c : Inputs α) : History (start c) where
  nodup := nodup_nil
  published := by
    intro i
    constructor
    · intro hi
      cases hi
    · rintro ⟨location, hi, hne⟩
      exact absurd (slots_start hi).1 hne

lemma sound_start (c : Inputs α) : Sound c (start c) where
  kept := ⟨fun x => Nat.le_of_eq (load_start c x), fun _ => load_start c⟩
  contents := contents_start c
  flags := flags_start c
  history := history_start c
  waits := fun _ hx => nomatch hx
  faults := rfl

lemma sound_of_reachable (h : Reachable c s) : Sound c s := by
  induction h with
  | refl => exact sound_start c
  | tail _ hstep ih => exact ih.step hstep

/-- A blob that is published has slots. -/
theorem nonempty_of_published (h : Sound c s) (hi : i ∈ s.published) : c.Nonempty i := by
  obtain ⟨location, hslot, hlocation⟩ := (h.history.published i).mp hi
  by_contra hempty
  have hzero : ∀ x : BlobBucketIntersection, x.blobIdx = i → stored (s.slots i) x = 0 := by
    intro x hx
    have hle := h.kept.le x
    rw [listed_eq_zero (hx ▸ hempty)] at hle
    unfold load at hle
    rw [hx] at hle
    omega
  have hfull := hzero (.fullyContained i) rfl
  have hleft := hzero (.leftHalf i) rfl
  rw [hslot] at hfull hleft
  cases location with
  | worker v offset length => cases hfull
  | straddler bytes => cases hleft
  | empty => exact hlocation rfl

/-- What stage 4 finds at the location of a blob. -/
def State.payload (s : State α) (i : Nat) : Option Bytes :=
  match s.slots i with
  | some (.worker v offset length) => some (((s.workers v).file.drop offset).take length)
  | some (.straddler bytes) => some bytes
  | _ => none

lemma payload_published (h : Sound c s) (hi : i ∈ s.published) :
    s.payload i ≠ none ∧ s.payload i = c.encode i (c.whole i) := by
  obtain ⟨location, hslot, hlocation⟩ := (h.history.published i).mp hi
  have hfine := h.contents.slots i location hslot
  unfold State.payload
  rw [hslot]
  cases location with
  | worker v offset length => exact ⟨Option.some_ne_none _, hfine.2.2.symm⟩
  | straddler bytes => exact ⟨Option.some_ne_none _, hfine.symm⟩
  | empty => exact absurd rfl hlocation

lemma all_passed_on (h : Sound c s) (hdone : s.producerDone = true) (hlive : s.aborted = false)
    (x : BlobBucketIntersection) :
    staged (s.partials x.blobIdx) x + stored (s.slots x.blobIdx) x = c.listed x := by
  have hexited := h.flags.done hdone
  have hbroken : s.broken = false := by
    by_contra hb
    rcases h.flags.broken (Bool.eq_true_of_not_eq_false hb) with ha | ⟨w, hw, hphase⟩
    · rw [hlive] at ha
      cases ha
    · rw [hexited w hw] at hphase
      cases hphase
  have hnext : c.buckets ≤ s.next := by
    rcases h.flags.exited 0 c.workers_pos (hexited 0 c.workers_pos) with ha | hb | hn
    · rw [hlive] at ha
      cases ha
    · rw [hbroken] at hb
      cases hb
    · exact hn
  have hheld : held c s.workers x = 0 := by
    refine Finset.sum_eq_zero fun w hw => ?_
    rw [hexited w (Finset.mem_range.mp hw)]
    rfl
  have hload := h.kept.eq hbroken x
  rw [load, unclaimed_past hnext, hheld] at hload
  omega

lemma published_of_done (h : Sound c s) (hdone : s.producerDone = true)
    (hlive : s.aborted = false) (hne : c.Nonempty i) : i ∈ s.published := by
  have hfull := all_passed_on h hdone hlive (.fullyContained i)
  have hleft := all_passed_on h hdone hlive (.leftHalf i)
  have hright := all_passed_on h hdone hlive (.rightHalf i)
  simp only [BlobBucketIntersection.blobIdx] at hfull hleft hright
  rw [h.history.published i]
  -- A half that is still staged would leave the other one without a place.
  have hstaged : staged (s.partials i) (.leftHalf i) + staged (s.partials i) (.rightHalf i) ≤ 1 := by
    cases s.partials i with
    | none => exact Nat.zero_le 1
    | some half => cases half <;> exact Nat.le_refl 1
  have hnone : staged (s.partials i) (.fullyContained i) = 0 := by
    cases s.partials i with
    | none => rfl
    | some half => cases half <;> rfl
  have hsome : 0 < stored (s.slots i) (.fullyContained i) + stored (s.slots i) (.leftHalf i) +
      stored (s.slots i) (.rightHalf i) := by
    rcases listed_cases hne with ⟨hf, hl, hr⟩ | ⟨hf, hl, hr⟩ <;> omega
  cases hslot : s.slots i with
  | none =>
    rw [hslot] at hsome
    exact absurd hsome (Nat.lt_irrefl 0)
  | some location =>
    refine ⟨location, rfl, ?_⟩
    rintro rfl
    rw [hslot] at hsome
    exact absurd hsome (Nat.lt_irrefl 0)

/-- What `classify_blobs_in_bucket` lists of blob `i` in bucket `k`. -/
def Inputs.piecesOf (c : Inputs α) (k i : Nat) : List BlobBucketIntersection :=
  match c.classify k with
  | .ok l => l.filter fun x => x.blobIdx = i
  | .error _ => []

lemma piecesOf_eq {k : Nat} (hk : k < c.buckets) (hi : i < c.starts.length) :
    c.piecesOf k i = (pieceAt c.starts c.total c.buckets k i).toList := by
  unfold Inputs.piecesOf
  rw [classify_eq hk]
  exact listing_filter hi

lemma pieces_of_blob (h : c.Nonempty i) :
    (∃ k < c.buckets, c.slice k (.fullyContained i) = c.whole i ∧
      ∀ m < c.buckets, c.piecesOf m i = if m = k then [.fullyContained i] else []) ∨
    (∃ k, k + 1 < c.buckets ∧
      c.slice k (.leftHalf i) ++ c.slice (k + 1) (.rightHalf i) = c.whole i ∧
      ∀ m < c.buckets, c.piecesOf m i =
        if m = k then [.leftHalf i] else if m = k + 1 then [.rightHalf i] else []) := by
  obtain ⟨k, hk, -, -, hcases⟩ := pieceAt_cases c.valid h.1 h.2
  have hlisted : ∀ m (x : BlobBucketIntersection), x.blobIdx = i →
      pieceAt c.starts c.total c.buckets m i = some x → x ∈ c.listing m := by
    intro m x hx hpiece
    exact mem_listing_iff.mpr ⟨hx ▸ h.1, hx ▸ hpiece⟩
  rcases hcases with ⟨-, hpiece⟩ | ⟨hnext, -, -, -, hpiece⟩
  · refine .inl ⟨k, hk, slice_full hk (hlisted k _ rfl ?_), fun m hm => ?_⟩
    · rw [hpiece k hk, if_pos rfl]
    · rw [piecesOf_eq hm h.1, hpiece m hm]
      split <;> rfl
  · refine .inr ⟨k, hnext, slice_halves hk hnext (hlisted k _ rfl ?_) (hlisted _ _ rfl ?_),
      fun m hm => ?_⟩
    · rw [hpiece k hk, if_pos rfl]
    · rw [hpiece _ hnext, if_neg (by omega), if_pos rfl]
    · rw [piecesOf_eq hm h.1, hpiece m hm]
      split
      · rfl
      · split <;> rfl

theorem router_publishes_every_blob (c : Inputs α) :
    (∀ k < c.buckets, ∃ l, c.classify k = .ok l ∧ ∀ x ∈ l, c.Nonempty x.blobIdx) ∧
    (∀ i, c.Nonempty i → (∃ k < c.buckets, c.slice k (.fullyContained i) = c.whole i ∧
        ∀ m < c.buckets, c.piecesOf m i = if m = k then [.fullyContained i] else []) ∨
      (∃ k, k + 1 < c.buckets ∧
        c.slice k (.leftHalf i) ++ c.slice (k + 1) (.rightHalf i) = c.whole i ∧
        ∀ m < c.buckets, c.piecesOf m i =
          if m = k then [.leftHalf i] else if m = k + 1 then [.rightHalf i] else [])) ∧
    ∀ s, Reachable c s →
      s.faults = [] ∧ s.published.Nodup ∧
      (∀ i ∈ s.published, c.Nonempty i ∧ s.payload i ≠ none ∧
        s.payload i = c.encode i (c.whole i)) ∧
      (s.producerDone = true → s.aborted = false → ∀ i, c.Nonempty i → s.published.count i = 1) ∧
      (∀ i, (i, .returned .ok) ∈ s.waiters → s.slots i ≠ none) ∧
      (∀ i, (i, .returned .missing) ∈ s.waiters → s.producerDone = true ∧ i ∉ s.published) ∧
      ∀ i, (i, .parked) ∈ s.waiters →
        s.slots i ≠ none ∨ s.aborted = true ∨ s.producerDone = true → Pending c s := by
  refine ⟨fun k hk => ⟨_, classify_eq hk, fun x => nonempty_of_mem⟩, fun i => pieces_of_blob,
    fun s hs => ?_⟩
  have hsound := sound_of_reachable hs
  refine ⟨hsound.faults, hsound.history.nodup, fun i hi => ?_, fun hdone hlive i hne => ?_,
    fun i hi => hsound.waits _ hi, fun i hi => ?_, fun i hi hdue => hsound.waits _ hi hdue⟩
  · exact ⟨nonempty_of_published hsound hi, payload_published hsound hi⟩
  · exact count_eq_one_of_mem hsound.history.nodup
      (published_of_done hsound hdone hlive hne)
  · obtain ⟨hdone, hnone⟩ := hsound.waits _ hi
    refine ⟨hdone, fun hpublished => ?_⟩
    obtain ⟨location, hslot, -⟩ := (hsound.history.published i).mp hpublished
    rw [hnone] at hslot
    cases hslot

/-- Three blobs over two buckets; the middle one lies in both. -/
def threeBlobs : Inputs Nat where
  starts := [0, 1, 3]
  total := 4
  buckets := 2
  isizeMax := 2 ^ 63 - 1
  accepted := by decide
  perWayRcs := [[1], [2], [1]]
  agrees := by decide
  coord := id
  encode := fun _ slots => some (slots.map UInt8.ofNat)
  workers := 1
  workers_pos := Nat.one_pos

lemma gateFree_single {p : WaitPhase} (h : s.waiters = [(i, p)]) (hp : p.holdsGate = false) :
    s.gateFree := by
  intro x hx
  rw [h, mem_singleton] at hx
  rw [hx]
  exact hp

/-- A waiter parks, the worker takes both buckets, the waiter is woken and the producer is done. -/
theorem threeBlobs_run : ∃ s, Reachable threeBlobs s ∧ s.producerDone = true ∧
    s.aborted = false ∧ (1, .returned .ok) ∈ s.waiters := by
  have hone : 0 < threeBlobs.workers := Nat.one_pos
  have h0 : Reachable threeBlobs (start threeBlobs) := .refl
  have w1 := h0.tail (.waitReady 1 (by decide))
  have w2 := w1.tail (.wait 1 .fast .locking [] [] rfl (.fastMiss rfl))
  have w3 := w2.tail (.wait 1 .locking .holding [] [] rfl (.lock (gateFree_single rfl rfl)))
  have w4 := w3.tail (.wait 1 .holding .checked [] [] rfl (.noAbort rfl))
  have w5 := w4.tail (.wait 1 .checked .parking [] [] rfl (.miss rfl rfl))
  have w6 := w5.tail (.wait 1 .parking .parked [] [] rfl .park)
  -- The first bucket.
  have h1 := w6.tail (.worker 0 _ hone (.goOn rfl ⟨rfl, rfl⟩))
  have h2 := h1.tail (.worker 0 _ hone
    (.claim [.fullyContained 0, .leftHalf 1] rfl (by decide) rfl))
  have h3 := h2.tail (.worker 0 _ hone (.writePayload 0 0 _ [0] rfl rfl))
  have h4 := h3.tail (.worker 0 _ hone (.publishWorker 0 0 0 1 _ rfl rfl))
  have h5 := h4.tail (.worker 0 _ hone (.notify 0 _ rfl (gateFree_single rfl rfl)))
  have h6 := h5.tail (.worker 0 _ hone (.leftFirst 0 1 _ rfl rfl))
  have h7 := h6.tail (.worker 0 _ hone (.bucketDone 0 rfl))
  -- The second.
  have h8 := h7.tail (.worker 0 _ hone (.goOn rfl ⟨rfl, rfl⟩))
  have h9 := h8.tail (.worker 0 _ hone
    (.claim [.rightHalf 1, .fullyContained 2] rfl (by decide) rfl))
  have h10 := h9.tail (.worker 0 _ hone (.rightSecond 1 1 _ [1] rfl rfl))
  have h11 := h10.tail (.worker 0 _ hone (.publishStraddler 1 1 [1] [2] _ [1, 2] rfl rfl rfl))
  have h12 := h11.tail (.worker 0 _ hone (.notify 1 _ rfl (gateFree_single rfl rfl)))
  have h13 := h12.tail (.worker 0 _ hone (.writePayload 1 2 _ [3] rfl rfl))
  have h14 := h13.tail (.worker 0 _ hone (.publishWorker 1 2 1 1 _ rfl rfl))
  have h15 := h14.tail (.worker 0 _ hone (.notify 1 _ rfl (gateFree_single rfl rfl)))
  have h16 := h15.tail (.worker 0 _ hone (.bucketDone 1 rfl))
  have h17 := h16.tail (.worker 0 _ hone (.goOn rfl ⟨rfl, rfl⟩))
  have h18 := h17.tail (.worker 0 _ hone (.noMore rfl (by decide)))
  have h19 := h18.tail (.producer _ (.markDone rfl fun w hw => by
    have hw0 : w = 0 := Nat.lt_one_iff.mp hw
    subst hw0
    rfl))
  have v1 := h19.tail (.wait 1 .locking .holding [] [] rfl (.lock (gateFree_single rfl rfl)))
  have v2 := v1.tail (.wait 1 .holding .checked [] [] rfl (.noAbort rfl))
  have v3 := v2.tail (.wait 1 .checked (.returned .ok) [] [] rfl (.ready (Option.some_ne_none _)))
  exact ⟨_, v3, rfl, rfl, mem_singleton.mpr rfl⟩

theorem threeBlobs_published : ∃ s, Reachable threeBlobs s ∧ s.producerDone = true ∧
    s.aborted = false ∧ (1, .returned .ok) ∈ s.waiters ∧ s.slots 1 ≠ none ∧
      s.published.count 1 = 1 ∧ s.payload 1 = some [1, 2] := by
  obtain ⟨s, hs, hdone, hlive, hwaiter⟩ := threeBlobs_run
  obtain ⟨-, -, hrun⟩ := router_publishes_every_blob threeBlobs
  obtain ⟨-, -, hpayload, hall, hok, -⟩ := hrun s hs
  have hcount := hall hdone hlive 1 (by constructor <;> decide)
  have hmem : 1 ∈ s.published := count_pos_iff.mp (by omega)
  exact ⟨s, hs, hdone, hlive, hwaiter, hok 1 hwaiter, hcount, (hpayload 1 hmem).2.2⟩

end PayloadRouter
