import Mathlib.Data.List.Perm.Basic
import Pbfhogg.Write.Pipeline

/-!
# Every run of the pipelined writer

The window bounds what is reserved and not handed off, the sink sees the chunks in sequence order up
to the first error, and the thread reports success only for a complete stream.
-/

namespace WritePipelineRuns

open WritePipeline ReorderBuffer List

variable {F E σ : Type} {sink : OutputSink F E σ} {w : σ} {s t : State F E σ}

/-- The token in the producer's hand. -/
def producerHand : Producer → Nat
  | .admitted => 1
  | _ => 0

/-- The token in the writer thread's hand. -/
def writerHand : WriterThread F E → Nat
  | .returning => 1
  | _ => 0

def receivedSeq : WriterThread F E → List Nat
  | .received seq _ => [seq]
  | _ => []

/-- An item popped and not yet accepted by the sink. -/
def poppedCount : WriterThread F E → Nat
  | .holding _ => 1
  | _ => 0

def Live : WriterThread F E → Prop
  | .delivered _ => False
  | .finished _ => False
  | _ => True

/-- Between two receives: nothing is ready. -/
def Drained : WriterThread F E → Prop
  | .receiving => True
  | .maintaining => True
  | .disconnected => True
  | _ => False

def outcome : WriterThread F E → Option (Except (Error E) Unit)
  | .delivered o => some o
  | .finished o => some o
  | _ => none

/-- Every sender is gone, for good. -/
def SendersGone (s : State F E σ) : Prop :=
  s.items = [] ∧ s.slots = [] ∧ s.producer = .closed

/-- The numbers whose result is not in the buffer yet: owed, in the channel, or just received. -/
def inFlight (s : State F E σ) : List Nat :=
  s.slots ++ (s.items.map Prod.fst ++ receivedSeq s.writer)

structure Inv (s : State F E σ) : Prop where
  owed : (s.slots ++ s.produced.map Prod.fst).Perm (range s.seq)
  inFlight_nodup : (inFlight s).Nodup
  inFlight_free : ∀ k ∈ inFlight s, s.pending.nextSeq ≤ k ∧ held s.pending k = none
  items_produced : ∀ p ∈ s.items, p ∈ s.produced
  received_produced : ∀ k d, s.writer = .received k d → (k, d) ∈ s.produced
  held_produced : ∀ k d, held s.pending k = some d → (k, d) ∈ s.produced
  holding_produced : ∀ d, s.writer = .holding d → (s.accepted, d) ∈ s.produced
  complete : Live s.writer → ∀ k, s.pending.nextSeq ≤ k → k < s.seq →
    k ∈ inFlight s ∨ (held s.pending k).isSome
  rx : Live s.writer → s.rxOpen = true
  next_le_seq : s.pending.nextSeq ≤ s.seq
  accepted_le : s.accepted ≤ s.pending.nextSeq
  next_eq : Live s.writer → s.pending.nextSeq = s.accepted + poppedCount s.writer
  tokens : s.tokens + producerHand s.producer + writerHand s.writer + s.seq =
    pipelineDeliveryWindow + s.accepted
  window : s.pending.maxWindow = pipelineDeliveryWindow
  drained : Drained s.writer → held s.pending s.pending.nextSeq = none
  handed_fst : s.handed.map Prod.fst = range s.handed.length
  handed_produced : ∀ p ∈ s.handed, (p.1, .ok p.2) ∈ s.produced
  handed_length : Live s.writer → s.handed.length = s.accepted
  announced : s.expected = unannounced ∨
    (s.expected = s.seq ∧ (s.producer = .flushing ∨ s.producer = .closed))
  disconnected : s.writer = .disconnected → SendersGone s
  ended : outcome s.writer = some (.ok ()) →
    s.producer = .closed ∧ s.accepted = s.seq ∧ s.handed.length = s.seq
  noPanic : s.pushPanic = none

lemma start_inv : Inv (start w : State F E σ) where
  owed := List.Perm.refl _
  inFlight_nodup := nodup_nil
  inFlight_free := by
    intro k hk
    cases hk
  items_produced := by
    intro p hp
    cases hp
  received_produced := by
    intro k d h
    cases h
  held_produced := by
    intro k d h
    rw [show (start w : State F E σ).pending = withMaxWindow pipelineDeliveryWindow from rfl,
      held_withMaxWindow] at h
    cases h
  holding_produced := by
    intro d h
    cases h
  complete := by
    intro _ k _ hk
    exact absurd hk (Nat.not_lt_zero k)
  rx := fun _ => rfl
  next_le_seq := Nat.le_refl 0
  accepted_le := Nat.le_refl 0
  next_eq := fun _ => rfl
  tokens := rfl
  window := rfl
  drained := fun _ => held_withMaxWindow _ _
  handed_fst := rfl
  handed_produced := by
    intro p hp
    cases hp
  handed_length := fun _ => rfl
  announced := .inl rfl
  disconnected := by
    intro h
    cases h
  ended := by
    intro h
    cases h
  noPanic := rfl

lemma lt_seq_of_slot (h : Inv s) {k : Nat} (hk : k ∈ s.slots) : k < s.seq :=
  mem_range.mp (h.owed.mem_iff.mp (mem_append_left _ hk))

lemma lt_seq_of_produced (h : Inv s) {p : Item F E} (hp : p ∈ s.produced) : p.1 < s.seq :=
  mem_range.mp
    (h.owed.mem_iff.mp (mem_append_right _ (mem_map_of_mem (f := Prod.fst) hp)))

lemma produced_nodup (h : Inv s) : (s.produced.map Prod.fst).Nodup :=
  (nodup_append.mp (h.owed.nodup_iff.mpr nodup_range)).2.1

lemma produced_unique (h : Inv s) {k : Nat} {d d' : Data F E} (hd : (k, d) ∈ s.produced)
    (hd' : (k, d') ∈ s.produced) : d = d' := by
  have heq := inj_on_of_nodup_map (produced_nodup h) hd hd' rfl
  exact congrArg Prod.snd heq

lemma lt_seq_of_inFlight (h : Inv s) {k : Nat} (hk : k ∈ inFlight s) : k < s.seq := by
  rcases mem_append.mp hk with hslot | hk
  · exact lt_seq_of_slot h hslot
  rcases mem_append.mp hk with hitem | hrec
  · obtain ⟨p, hp, rfl⟩ := mem_map.mp hitem
    exact lt_seq_of_produced h (h.items_produced p hp)
  · cases hw : s.writer with
    | received seq d =>
      rw [hw, receivedSeq, mem_singleton] at hrec
      subst hrec
      exact lt_seq_of_produced h (h.received_produced _ _ hw)
    | _ =>
      rw [hw] at hrec
      cases hrec

/-- A number the buffer holds is reserved. -/
theorem held_eq_none_of_le (h : Inv s) {k : Nat} (hk : s.seq ≤ k) : held s.pending k = none := by
  cases hh : held s.pending k with
  | none => rfl
  | some d =>
    have hlt := lt_seq_of_produced h (h.held_produced k d hh)
    simp only at hlt
    omega

lemma expected_of_open (h : Inv s) (hfl : s.producer ≠ .flushing) (hcl : s.producer ≠ .closed) :
    s.expected = unannounced := by
  rcases h.announced with hun | ⟨-, hp | hp⟩
  · exact hun
  · exact absurd hp hfl
  · exact absurd hp hcl

lemma not_disconnected_of_open (h : Inv s) (hcl : s.producer ≠ .closed) :
    s.writer ≠ .disconnected :=
  fun hw => hcl (h.disconnected hw).2.2

lemma not_ended_of_open (h : Inv s) (hcl : s.producer ≠ .closed) :
    outcome s.writer ≠ some (.ok ()) :=
  fun ho => hcl (h.ended ho).1

lemma takeToken_inv (h : Inv s) (hp : s.producer = .idle) (htok : 0 < s.tokens) :
    Inv { s with producer := .admitted, tokens := s.tokens - 1 } := by
  have hun := expected_of_open h (by simp [hp]) (by simp [hp])
  have hdis := not_disconnected_of_open h (by simp [hp])
  have hend := not_ended_of_open h (by simp [hp])
  exact { h with
    tokens := by
      have htokens := h.tokens
      rw [hp] at htokens
      simp only [producerHand] at htokens ⊢
      omega
    announced := .inl hun
    disconnected := fun hw => absurd hw hdis
    ended := fun ho => absurd ho hend }

lemma inFlight_reserve (s : State F E σ) :
    (inFlight { s with producer := .idle, seq := s.seq + 1, slots := s.slots ++ [s.seq] }).Perm
      (s.seq :: inFlight s) := by
  simp only [inFlight, append_assoc]
  exact perm_middle

lemma reserve_inv (h : Inv s) (hp : s.producer = .admitted) :
    Inv { s with producer := .idle, seq := s.seq + 1, slots := s.slots ++ [s.seq] } := by
  have hun := expected_of_open h (by simp [hp]) (by simp [hp])
  have hdis := not_disconnected_of_open h (by simp [hp])
  have hend := not_ended_of_open h (by simp [hp])
  exact { h with
    owed := by
      rw [range_succ, append_assoc]
      exact perm_middle.trans ((h.owed.cons s.seq).trans (perm_append_singleton _ _).symm)
    inFlight_nodup := by
      rw [(inFlight_reserve s).nodup_iff, nodup_cons]
      refine ⟨?_, h.inFlight_nodup⟩
      intro hmem
      have hlt := lt_seq_of_inFlight h hmem
      omega
    inFlight_free := by
      intro k hk
      rcases mem_cons.mp ((inFlight_reserve s).mem_iff.mp hk) with rfl | hk
      · exact ⟨h.next_le_seq, held_eq_none_of_le h (Nat.le_refl _)⟩
      · exact h.inFlight_free k hk
    complete := by
      intro hlive k hge hlt
      rw [(inFlight_reserve s).mem_iff, mem_cons]
      simp only at hlt
      by_cases hk : k = s.seq
      · exact .inl (.inl hk)
      · rcases h.complete hlive k hge (by omega) with hin | hheld
        · exact .inl (.inr hin)
        · exact .inr hheld
    next_le_seq := by
      have hle := h.next_le_seq
      simp only
      omega
    tokens := by
      have htokens := h.tokens
      rw [hp] at htokens
      simp only [producerHand] at htokens ⊢
      omega
    announced := .inl hun
    disconnected := fun hw => absurd hw hdis
    ended := fun ho => absurd ho hend }

lemma announce_inv (h : Inv s) (hp : s.producer = .idle) :
    Inv { s with producer := .flushing, expected := s.seq } := by
  have hdis := not_disconnected_of_open h (by simp [hp])
  have hend := not_ended_of_open h (by simp [hp])
  exact { h with
    tokens := by
      have htokens := h.tokens
      rw [hp] at htokens
      exact htokens
    announced := .inr ⟨rfl, .inl rfl⟩
    disconnected := fun hw => absurd hw hdis
    ended := fun ho => absurd ho hend }

lemma close_inv (h : Inv s) (hhand : producerHand s.producer = 0)
    (hcl : s.producer ≠ .closed) : Inv { s with producer := .closed } := by
  have hdis := not_disconnected_of_open h hcl
  have hend := not_ended_of_open h hcl
  exact { h with
    tokens := by
      have htokens := h.tokens
      rw [hhand] at htokens
      exact htokens
    announced := by
      rcases h.announced with hun | ⟨hseq, -⟩
      · exact .inl hun
      · exact .inr ⟨hseq, .inr rfl⟩
    disconnected := fun hw => absurd hw hdis
    ended := fun ho => absurd ho hend }

lemma producerStep_inv (h : Inv s) (hstep : ProducerStep s t) : Inv t := by
  cases hstep with
  | takeToken hp htok => exact takeToken_inv h hp htok
  | reserve hp => exact reserve_inv h hp
  | announce hp => exact announce_inv h hp
  | flush hp | drop hp => exact close_inv h (by rw [hp]; rfl) (by simp [hp])

lemma produced_owed (h : Inv s) {k : Nat} (hk : k ∈ s.slots) (d : Data F E) :
    (s.slots.erase k ++ (s.produced ++ [(k, d)]).map Prod.fst).Perm (range s.seq) := by
  have hmove : (s.slots.erase k ++ (s.produced ++ [(k, d)]).map Prod.fst).Perm
      (k :: s.slots.erase k ++ s.produced.map Prod.fst) := by
    rw [map_append, ← append_assoc]
    exact perm_append_singleton _ _
  exact hmove.trans (((perm_cons_erase hk).symm.append_right _).trans h.owed)

/-- A slot discharged to an open channel moves its number from owed to the channel. -/
theorem discharge_inv (h : Inv s) {k : Nat} (hk : k ∈ s.slots) (d : Data F E) :
    Inv { s with
      slots := s.slots.erase k
      items := s.items ++ [(k, d)]
      produced := s.produced ++ [(k, d)] } := by
  have hmove : (inFlight { s with
      slots := s.slots.erase k
      items := s.items ++ [(k, d)]
      produced := s.produced ++ [(k, d)] }).Perm (inFlight s) := by
    have hout : (inFlight s).Perm
        (k :: (s.slots.erase k ++ (s.items.map Prod.fst ++ receivedSeq s.writer))) :=
      (perm_cons_erase hk).append_right _
    refine List.Perm.trans ?_ hout.symm
    simp only [inFlight, map_append, map_cons, map_nil, append_assoc]
    refine List.Perm.trans ?_ perm_middle
    exact perm_middle.append_left _
  have hsub : ∀ p ∈ s.produced, p ∈ s.produced ++ [(k, d)] := fun p hp =>
    mem_append_left _ hp
  exact { h with
    owed := produced_owed h hk d
    inFlight_nodup := hmove.nodup_iff.mpr h.inFlight_nodup
    inFlight_free := fun j hj => h.inFlight_free j (hmove.mem_iff.mp hj)
    items_produced := by
      intro p hp
      rcases mem_append.mp hp with hp | hp
      · exact hsub p (h.items_produced p hp)
      · exact mem_append_right _ hp
    received_produced := fun j e hw => hsub _ (h.received_produced j e hw)
    held_produced := fun j e hh => hsub _ (h.held_produced j e hh)
    holding_produced := fun e hw => hsub _ (h.holding_produced e hw)
    complete := by
      intro hlive j hge hlt
      rw [hmove.mem_iff]
      exact h.complete hlive j hge hlt
    handed_produced := fun p hp => hsub _ (h.handed_produced p hp)
    disconnected := by
      intro hw
      have hgone := (h.disconnected hw).2.1
      rw [hgone] at hk
      cases hk }

/-- A slot discharged after the receiver is gone. -/
theorem discharge_closed_inv (h : Inv s) {k : Nat} (hk : k ∈ s.slots) (d : Data F E)
    (hclosed : s.rxOpen = false) :
    Inv { s with slots := s.slots.erase k, produced := s.produced ++ [(k, d)] } := by
  have hdead : ¬ Live s.writer := by
    intro hlive
    have hopen := h.rx hlive
    rw [hclosed] at hopen
    cases hopen
  have hsub : ∀ p ∈ s.produced, p ∈ s.produced ++ [(k, d)] := fun p hp =>
    mem_append_left _ hp
  have hsublist : (s.slots.erase k ++ (s.items.map Prod.fst ++ receivedSeq s.writer)).Sublist
      (inFlight s) := erase_sublist.append_right _
  exact { h with
    owed := produced_owed h hk d
    inFlight_nodup := h.inFlight_nodup.sublist hsublist
    inFlight_free := fun j hj => h.inFlight_free j (hsublist.subset hj)
    items_produced := fun p hp => hsub p (h.items_produced p hp)
    received_produced := fun j e hw => hsub _ (h.received_produced j e hw)
    held_produced := fun j e hh => hsub _ (h.held_produced j e hh)
    holding_produced := fun e hw => hsub _ (h.holding_produced e hw)
    complete := fun hlive => absurd hlive hdead
    handed_produced := fun p hp => hsub _ (h.handed_produced p hp)
    disconnected := by
      intro hw
      have hgone := (h.disconnected hw).2.1
      rw [hgone] at hk
      cases hk }

lemma slotStep_inv (h : Inv s) (hstep : SlotStep s t) : Inv t := by
  cases hstep with
  | send k d hslot => exact discharge_inv h hslot d
  | sendFails k d hslot hopen => exact discharge_closed_inv h hslot d hopen
  | drop k hslot => exact discharge_inv h hslot _
  | dropFails k hslot hopen => exact discharge_closed_inv h hslot _ hopen

lemma receive_inv (h : Inv s) {k : Nat} {d : Data F E} {rest : List (Item F E)}
    (hw : s.writer = .receiving) (hitems : s.items = (k, d) :: rest) :
    Inv { s with writer := .received k d, items := rest } := by
  have hlive : Live s.writer := by rw [hw]; trivial
  have hmove : (inFlight { s with writer := .received k d, items := rest }).Perm (inFlight s) := by
    simp only [inFlight, receivedSeq, hw, hitems, map_cons, append_nil]
    exact (perm_append_singleton _ _).append_left _
  have hmem : (k, d) ∈ s.items := by
    rw [hitems]
    exact mem_cons_self
  exact { h with
    inFlight_nodup := hmove.nodup_iff.mpr h.inFlight_nodup
    inFlight_free := fun j hj => h.inFlight_free j (hmove.mem_iff.mp hj)
    items_produced := fun p hp =>
      h.items_produced p (by rw [hitems]; exact mem_cons_of_mem _ hp)
    received_produced := by
      intro j e hrec
      cases hrec
      exact h.items_produced _ hmem
    holding_produced := by
      intro e hh
      cases hh
    complete := by
      intro _ j hge hlt
      rw [hmove.mem_iff]
      exact h.complete hlive j hge hlt
    rx := fun _ => h.rx hlive
    next_eq := by
      intro _
      have hnext := h.next_eq hlive
      rw [hw] at hnext
      exact hnext
    tokens := by
      have htokens := h.tokens
      rw [hw] at htokens
      exact htokens
    drained := False.elim
    handed_length := fun _ => h.handed_length hlive
    disconnected := by
      intro hdis
      cases hdis
    ended := by
      intro ho
      cases ho }

/-- The thread moves on with neither an item nor a token changing hands. -/
theorem move_inv (h : Inv s) (x : WriterThread F E) (w' : σ) (hlive : Live s.writer)
    (hrec : receivedSeq x = []) (hrec' : receivedSeq s.writer = [])
    (hnotHolding : ∀ d, x ≠ .holding d) (hpop : Live x → poppedCount s.writer = 0)
    (hhand : writerHand x = writerHand s.writer)
    (hdrained : Drained x → held s.pending s.pending.nextSeq = none)
    (hdis : x = .disconnected → SendersGone s)
    (hend : outcome x = some (.ok ()) →
      s.producer = .closed ∧ s.accepted = s.seq ∧ s.handed.length = s.seq) :
    Inv { s with writer := x, sink := w' } := by
  have hsame : inFlight { s with writer := x, sink := w' } = inFlight s := by
    simp only [inFlight, hrec, hrec']
  exact { h with
    inFlight_nodup := hsame ▸ h.inFlight_nodup
    inFlight_free := hsame ▸ h.inFlight_free
    received_produced := by
      intro j e hx
      change x = .received j e at hx
      rw [hx] at hrec
      cases hrec
    holding_produced := fun e hx => absurd hx (hnotHolding e)
    complete := fun _ => hsame ▸ h.complete hlive
    rx := fun _ => h.rx hlive
    next_eq := by
      intro hx
      have hnext := h.next_eq hlive
      rw [hpop hx] at hnext
      have hzero : poppedCount x = 0 := by
        cases x with
        | holding d => exact absurd rfl (hnotHolding d)
        | _ => rfl
      rw [hzero]
      exact hnext
    tokens := by
      have htokens := h.tokens
      rw [← hhand] at htokens
      exact htokens
    drained := hdrained
    handed_length := fun _ => h.handed_length hlive
    disconnected := hdis
    ended := hend }

lemma push_inv (h : Inv s) {k : Nat} {d : Data F E} (hw : s.writer = .received k d) :
    ∃ b, tryPush s.pending k d = .ok b ∧ Inv { s with writer := .draining, pending := b } := by
  have hlive : Live s.writer := by rw [hw]; trivial
  have hin : inFlight s = s.slots ++ (s.items.map Prod.fst ++ [k]) := by
    rw [inFlight, hw, receivedSeq]
  have hk : k ∈ inFlight s := by
    rw [hin]
    exact mem_append_right _ (mem_append_right _ mem_cons_self)
  obtain ⟨hge, hfree⟩ := h.inFlight_free k hk
  have hlt := lt_seq_of_inFlight h hk
  have hnext := h.next_eq hlive
  have htokens := h.tokens
  rw [hw] at hnext
  simp only [poppedCount, Nat.add_zero] at hnext
  have hin_window : k < s.pending.nextSeq + s.pending.maxWindow := by
    rw [h.window]
    omega
  obtain ⟨b, hpush, hbnext, hbmax, hheld⟩ :
      ∃ b, tryPush s.pending k d = .ok b ∧ b.nextSeq = s.pending.nextSeq ∧
        b.maxWindow = s.pending.maxWindow ∧
        ∀ j, held b j = if j = k then some d else held s.pending j :=
    tryPush_ok hge hin_window hfree
  have hrest : (k :: inFlight { s with writer := .draining, pending := b }).Perm (inFlight s) := by
    rw [hin]
    simp only [inFlight, receivedSeq, append_nil]
    rw [← append_assoc]
    exact (perm_append_singleton _ _).symm
  have hnodup := hrest.nodup_iff.mpr h.inFlight_nodup
  rw [nodup_cons] at hnodup
  refine ⟨b, hpush, ?_⟩
  exact { h with
    inFlight_nodup := hnodup.2
    inFlight_free := by
      intro j hj
      have hne : j ≠ k := fun heq => hnodup.1 (heq ▸ hj)
      obtain ⟨hjge, hjfree⟩ := h.inFlight_free j (hrest.mem_iff.mp (mem_cons_of_mem _ hj))
      simp only
      rw [hbnext, hheld j, if_neg hne]
      exact ⟨hjge, hjfree⟩
    received_produced := by
      intro j e hx
      cases hx
    held_produced := by
      intro j e hj
      simp only at hj
      rw [hheld j] at hj
      by_cases hjk : j = k
      · rw [if_pos hjk] at hj
        cases hj
        rw [hjk]
        exact h.received_produced k d hw
      · rw [if_neg hjk] at hj
        exact h.held_produced j e hj
    holding_produced := by
      intro e hx
      cases hx
    complete := by
      intro _ j hjge hjlt
      simp only at hjge hjlt ⊢
      rw [hbnext] at hjge
      rw [hheld j]
      by_cases hjk : j = k
      · rw [if_pos hjk]
        exact .inr rfl
      · rw [if_neg hjk]
        rcases h.complete hlive j hjge hjlt with hjin | hjheld
        · rcases mem_cons.mp (hrest.mem_iff.mpr hjin) with heq | hjin
          · exact absurd heq hjk
          · exact .inl hjin
        · exact .inr hjheld
    rx := fun _ => h.rx hlive
    next_le_seq := by
      simp only
      rw [hbnext]
      exact h.next_le_seq
    accepted_le := by
      simp only
      rw [hbnext]
      exact h.accepted_le
    next_eq := by
      intro _
      simp only
      rw [hbnext]
      exact hnext
    tokens := by
      rw [hw] at htokens
      exact htokens
    window := by
      simp only
      rw [hbmax]
      exact h.window
    drained := False.elim
    handed_length := fun _ => h.handed_length hlive
    disconnected := by
      intro hx
      cases hx
    ended := by
      intro hx
      cases hx }

lemma pop_inv (h : Inv s) {r : Data F E} {b : Buffer (Data F E)} (hw : s.writer = .draining)
    (hpop : popReady s.pending = some (r, b)) :
    Inv { s with writer := .holding r, pending := b } := by
  have hlive : Live s.writer := by rw [hw]; trivial
  obtain ⟨hhead, hbnext, hbmax, hheld⟩ := popReady_eq_some hpop
  have hnext := h.next_eq hlive
  rw [hw] at hnext
  simp only [poppedCount, Nat.add_zero] at hnext
  have hprod := h.held_produced _ _ hhead
  have hlt := lt_seq_of_produced h hprod
  have hsame : inFlight { s with writer := .holding r, pending := b } = inFlight s := by
    simp only [inFlight, receivedSeq, hw]
  have hother : ∀ j, j ∈ inFlight s → j ≠ s.pending.nextSeq := by
    intro j hj heq
    have hfree := (h.inFlight_free j hj).2
    rw [heq, hhead] at hfree
    cases hfree
  exact { h with
    inFlight_nodup := hsame ▸ h.inFlight_nodup
    inFlight_free := by
      intro j hj
      rw [hsame] at hj
      have hne := hother j hj
      obtain ⟨hjge, hjfree⟩ := h.inFlight_free j hj
      simp only
      rw [hbnext, hheld j, if_neg hne]
      exact ⟨by omega, hjfree⟩
    received_produced := by
      intro j e hx
      cases hx
    held_produced := by
      intro j e hj
      simp only at hj
      rw [hheld j] at hj
      by_cases hjn : j = s.pending.nextSeq
      · rw [if_pos hjn] at hj
        cases hj
      · rw [if_neg hjn] at hj
        exact h.held_produced j e hj
    holding_produced := by
      intro e hx
      cases hx
      rw [hnext] at hprod
      exact hprod
    complete := by
      intro _ j hjge hjlt
      simp only at hjge hjlt ⊢
      rw [hbnext] at hjge
      rw [hsame, hheld j, if_neg (by omega)]
      exact h.complete hlive j (by omega) hjlt
    rx := fun _ => h.rx hlive
    next_le_seq := by
      simp only at hlt ⊢
      omega
    accepted_le := by
      simp only
      omega
    next_eq := by
      intro _
      simp only [poppedCount]
      omega
    tokens := by
      have htokens := h.tokens
      rw [hw] at htokens
      exact htokens
    window := by
      simp only
      rw [hbmax]
      exact h.window
    drained := False.elim
    handed_length := fun _ => h.handed_length hlive
    disconnected := by
      intro hx
      cases hx
    ended := by
      intro hx
      cases hx }

lemma handed_order (h : Inv s) (hlive : Live s.writer) (chunk : OutputChunk F) :
    (s.handed ++ [(s.accepted, chunk)]).map Prod.fst =
      range (s.handed ++ [(s.accepted, chunk)]).length := by
  rw [map_append, h.handed_fst, length_append, length_singleton, range_succ,
    h.handed_length hlive]
  rfl

lemma handed_append_produced (h : Inv s) {chunk : OutputChunk F}
    (hw : s.writer = .holding (.ok chunk)) :
    ∀ p ∈ s.handed ++ [(s.accepted, chunk)], (p.1, .ok p.2) ∈ s.produced := by
  intro p hp
  rcases mem_append.mp hp with hp | hp
  · exact h.handed_produced p hp
  · rw [mem_singleton] at hp
    subst hp
    exact h.holding_produced _ hw

lemma handOff_inv (h : Inv s) {chunk : OutputChunk F} (w' : σ)
    (hw : s.writer = .holding (.ok chunk)) :
    Inv { s with
      writer := .returning
      sink := w'
      handed := s.handed ++ [(s.accepted, chunk)]
      accepted := s.accepted + 1 } := by
  have hlive : Live s.writer := by rw [hw]; trivial
  have hnext := h.next_eq hlive
  rw [hw] at hnext
  simp only [poppedCount] at hnext
  have hsame : inFlight { s with
      writer := .returning
      sink := w'
      handed := s.handed ++ [(s.accepted, chunk)]
      accepted := s.accepted + 1 } = inFlight s := by
    simp only [inFlight, receivedSeq, hw]
  exact { h with
    inFlight_nodup := hsame ▸ h.inFlight_nodup
    inFlight_free := hsame ▸ h.inFlight_free
    received_produced := by
      intro j e hx
      cases hx
    holding_produced := by
      intro e hx
      cases hx
    complete := fun _ => hsame ▸ h.complete hlive
    rx := fun _ => h.rx hlive
    accepted_le := by
      simp only
      omega
    next_eq := fun _ => hnext
    tokens := by
      have htokens := h.tokens
      rw [hw] at htokens
      simp only [writerHand] at htokens ⊢
      omega
    drained := False.elim
    handed_fst := handed_order h hlive chunk
    handed_produced := handed_append_produced h hw
    handed_length := by
      intro _
      rw [length_append, h.handed_length hlive, length_singleton]
    disconnected := by
      intro hx
      cases hx
    ended := by
      intro hx
      cases hx }

lemma handOffFails_inv (h : Inv s) {chunk : OutputChunk F} (w' : σ) (e : Error E)
    (hw : s.writer = .holding (.ok chunk)) :
    Inv { s with
      writer := .delivered (.error e)
      sink := w'
      handed := s.handed ++ [(s.accepted, chunk)] } := by
  have hlive : Live s.writer := by rw [hw]; trivial
  have hmoved := move_inv h (.delivered (.error e)) w' hlive rfl (by rw [hw]; rfl)
    (by intro d hx; cases hx) False.elim (by rw [hw]; rfl) False.elim (by intro hx; cases hx)
    (by intro hx; cases hx)
  exact { hmoved with
    handed_fst := handed_order h hlive chunk
    handed_produced := handed_append_produced h hw
    handed_length := False.elim
    ended := by
      intro hx
      cases hx }

lemma returnToken_inv (h : Inv s) (hw : s.writer = .returning) :
    Inv { s with writer := .draining, tokens := s.tokens + 1 } := by
  have hlive : Live s.writer := by rw [hw]; trivial
  have hsame : inFlight { s with writer := .draining, tokens := s.tokens + 1 } = inFlight s := by
    simp only [inFlight, receivedSeq, hw]
  exact { h with
    inFlight_nodup := hsame ▸ h.inFlight_nodup
    inFlight_free := hsame ▸ h.inFlight_free
    received_produced := by
      intro j e hx
      cases hx
    holding_produced := by
      intro e hx
      cases hx
    complete := fun _ => hsame ▸ h.complete hlive
    rx := fun _ => h.rx hlive
    next_eq := by
      intro _
      have hnext := h.next_eq hlive
      rw [hw] at hnext
      exact hnext
    tokens := by
      have htokens := h.tokens
      rw [hw] at htokens
      simp only [writerHand] at htokens ⊢
      omega
    drained := False.elim
    handed_length := fun _ => h.handed_length hlive
    disconnected := by
      intro hx
      cases hx
    ended := by
      intro hx
      cases hx }

/-- Once every sender is gone and nothing is ready, everything reserved has been accepted. -/
theorem accepted_of_disconnected (h : Inv s) (hw : s.writer = .disconnected) :
    s.accepted = s.seq := by
  have hlive : Live s.writer := by rw [hw]; trivial
  obtain ⟨hitems, hslots, -⟩ := h.disconnected hw
  have hnext := h.next_eq hlive
  rw [hw] at hnext
  simp only [poppedCount, Nat.add_zero] at hnext
  have hle := h.next_le_seq
  by_contra hne
  have hempty : inFlight s = [] := by
    rw [inFlight, hitems, hslots, hw]
    rfl
  rcases h.complete hlive s.pending.nextSeq (Nat.le_refl _) (by omega) with hin | hheld
  · rw [hempty] at hin
    cases hin
  · rw [h.drained (by rw [hw]; trivial)] at hheld
    cases hheld

lemma check_inv (h : Inv s) (hw : s.writer = .disconnected) (o : Except (Error E) Unit) :
    Inv { s with writer := .delivered o } := by
  have hlive : Live s.writer := by rw [hw]; trivial
  refine move_inv h (.delivered o) s.sink hlive rfl (by rw [hw]; rfl)
    (by intro d hx; cases hx) False.elim (by rw [hw]; rfl) False.elim (by intro hx; cases hx) ?_
  intro _
  have hacc := accepted_of_disconnected h hw
  exact ⟨(h.disconnected hw).2.2, hacc, (h.handed_length hlive).trans hacc⟩

/-- The thread returns and lets go of its inbox. -/
theorem finish_inv (h : Inv s) {o o' : Except (Error E) Unit} (hw : s.writer = .delivered o)
    (ho : o' = .ok () → o = .ok ()) :
    Inv { s with writer := .finished o', rxOpen := false, items := [] } := by
  have hsublist : (inFlight
      { s with writer := .finished o', rxOpen := false, items := [] }).Sublist (inFlight s) := by
    simp only [inFlight, receivedSeq, hw, map_nil, append_nil]
    exact sublist_append_left _ _
  exact { h with
    inFlight_nodup := h.inFlight_nodup.sublist hsublist
    inFlight_free := fun j hj => h.inFlight_free j (hsublist.subset hj)
    items_produced := by
      intro p hp
      cases hp
    received_produced := by
      intro j e hx
      cases hx
    holding_produced := by
      intro e hx
      cases hx
    complete := False.elim
    rx := False.elim
    next_eq := False.elim
    tokens := by
      have htokens := h.tokens
      rw [hw] at htokens
      exact htokens
    drained := False.elim
    handed_length := False.elim
    disconnected := by
      intro hx
      cases hx
    ended := by
      intro hx
      simp only [outcome, Option.some.injEq] at hx
      refine h.ended ?_
      rw [hw, outcome, ho hx] }

lemma writerStep_inv (h : Inv s) (hstep : WriterStep sink s t) : Inv t := by
  cases hstep with
  | receive k d rest hw hitems => exact receive_inv h hw hitems
  | disconnect hw hitems hslots hp =>
    exact move_inv h .disconnected s.sink (by rw [hw]; trivial) rfl (by rw [hw]; rfl)
      (by intro d hx; cases hx) (fun _ => by rw [hw]; rfl) (by rw [hw]; rfl)
      (fun _ => h.drained (by rw [hw]; trivial)) (fun _ => ⟨hitems, hslots, hp⟩)
      (by intro hx; cases hx)
  | push k d b hw hpush =>
    obtain ⟨b', hpush', hinv⟩ := push_inv h hw
    rw [hpush] at hpush'
    cases hpush'
    exact hinv
  | pushPanics k d r hw hpush =>
    obtain ⟨b', hpush', -⟩ := push_inv h hw
    rw [hpush] at hpush'
    cases hpush'
  | pop r b hw hpop => exact pop_inv h hw hpop
  | drained hw hpop =>
    exact move_inv h .maintaining s.sink (by rw [hw]; trivial) rfl (by rw [hw]; rfl)
      (by intro d hx; cases hx) (fun _ => by rw [hw]; rfl) (by rw [hw]; rfl)
      (fun _ => popReady_eq_none.mp hpop) (by intro hx; cases hx) (by intro hx; cases hx)
  | itemFails e hw =>
    exact move_inv h (.delivered (.error e)) s.sink (by rw [hw]; trivial) rfl (by rw [hw]; rfl)
      (by intro d hx; cases hx) False.elim (by rw [hw]; rfl) False.elim (by intro hx; cases hx)
      (by intro hx; cases hx)
  | handOff chunk w' hw => exact handOff_inv h w' hw
  | handOffFails chunk w' e hw => exact handOffFails_inv h w' e hw
  | returnToken hw => exact returnToken_inv h hw
  | afterDrain w' hw =>
    exact move_inv h .receiving w' (by rw [hw]; trivial) rfl (by rw [hw]; rfl)
      (by intro d hx; cases hx) (fun _ => by rw [hw]; rfl) (by rw [hw]; rfl)
      (fun _ => h.drained (by rw [hw]; trivial)) (by intro hx; cases hx) (by intro hx; cases hx)
  | afterDrainFails w' e hw =>
    exact move_inv h (.delivered (.error e)) w' (by rw [hw]; trivial) rfl (by rw [hw]; rfl)
      (by intro d hx; cases hx) False.elim (by rw [hw]; rfl) False.elim (by intro hx; cases hx)
      (by intro hx; cases hx)
  | check hw => exact check_inv h hw _
  | returnError e hw =>
    refine finish_inv h hw ?_
    intro hx
    cases hx
  | finish hw => exact finish_inv h hw fun _ => rfl

lemma reachable_inv (h : Reachable sink w s) : Inv s := by
  induction h with
  | refl => exact start_inv
  | tail _ hstep ih =>
    cases hstep with
    | producer hstep => exact producerStep_inv ih hstep
    | slot hstep => exact slotStep_inv ih hstep
    | writer hstep => exact writerStep_inv ih hstep

/-- No chunk at or after an error item reaches the sink. -/
theorem handed_before_error (h : Inv s) {k : Nat} {e : Error E} (hk : (k, .error e) ∈ s.produced) :
    s.handed.length ≤ k := by
  by_contra hlt
  have hmem : k ∈ s.handed.map Prod.fst := by
    rw [h.handed_fst]
    exact mem_range.mpr (by omega)
  obtain ⟨p, hp, rfl⟩ := mem_map.mp hmem
  have heq := produced_unique h hk (h.handed_produced p hp)
  cases heq

lemma returning_tokens_lt (h : Inv s) (hw : s.writer = .returning) :
    s.tokens < pipelineDeliveryWindow := by
  have htokens := h.tokens
  have hle := h.next_le_seq
  have hnext := h.next_eq (by rw [hw]; trivial)
  rw [hw] at htokens hnext
  simp only [writerHand, poppedCount] at htokens hnext
  omega

lemma announced_total (h : Inv s) {total : Nat} (ht : announced s.expected = some total) :
    total = s.seq := by
  rcases h.announced with hun | ⟨hseq, -⟩
  · rw [hun, announced, if_pos rfl] at ht
    cases ht
  · rw [announced] at ht
    split at ht
    · cases ht
    · cases ht
      exact hseq

/-- What the sink has become: the chunks were handed to it in this order, so many were accepted, and
`after_drain` ran in between. -/
inductive Fed (sink : OutputSink F E σ) (w : σ) : List (OutputChunk F) → Nat → σ → Prop where
  | start : Fed sink w [] 0 w
  | accepted {cs : List (OutputChunk F)} {n : Nat} {v v' : σ} {c : OutputChunk F}
      (h : Fed sink w cs n v) (hok : handOff sink v c = (v', .ok ())) :
      Fed sink w (cs ++ [c]) (n + 1) v'
  | refused {cs : List (OutputChunk F)} {n : Nat} {v v' : σ} {c : OutputChunk F} {e : Error E}
      (h : Fed sink w cs n v) (herr : handOff sink v c = (v', .error e)) :
      Fed sink w (cs ++ [c]) n v'
  | drained {cs : List (OutputChunk F)} {n : Nat} {v v' : σ} {r : Except (Error E) Unit}
      (h : Fed sink w cs n v) (hdrain : sink.afterDrain v = (v', r)) : Fed sink w cs n v'

lemma fed_of_reachable (h : Reachable sink w s) :
    Fed sink w (s.handed.map Prod.snd) s.accepted s.sink := by
  induction h with
  | refl => exact .start
  | tail _ hstep ih =>
    cases hstep with
    | producer hstep => cases hstep <;> exact ih
    | slot hstep => cases hstep <;> exact ih
    | writer hstep =>
      cases hstep with
      | handOff chunk w' hw hsink =>
        rw [map_append]
        exact ih.accepted hsink
      | handOffFails chunk w' e hw hsink =>
        rw [map_append]
        exact ih.refused hsink
      | afterDrain w' hw hsink => exact ih.drained hsink
      | afterDrainFails w' e hw hsink => exact ih.drained hsink
      | _ => exact ih

/-- In every state of every interleaving: each reserved number is owed or has had exactly one
result; the tokens and the items reserved and not handed off make up the window, so no push is
refused; the sink was handed the chunks of `0, 1, 2, ..` in order, is what they made of it, and got
none at or after an error; and the thread ends in success only when the sink has accepted everything
reserved, which is what was announced. -/
theorem pipelined_write_complete (h : Reachable sink w s) :
    (s.slots ++ s.produced.map Prod.fst).Perm (range s.seq) ∧
    (s.accepted ≤ s.seq ∧
      s.tokens + producerHand s.producer + writerHand s.writer + (s.seq - s.accepted) =
        pipelineDeliveryWindow ∧
      s.pushPanic = none ∧ (s.writer = .returning → s.tokens < pipelineDeliveryWindow)) ∧
    (s.handed.map Prod.fst = range s.handed.length ∧
      (∀ p ∈ s.handed, (p.1, .ok p.2) ∈ s.produced) ∧
      Fed sink w (s.handed.map Prod.snd) s.accepted s.sink ∧
      ∀ k e, (k, .error e) ∈ s.produced → s.handed.length ≤ k) ∧
    (s.writer = .finished (.ok ()) →
      s.accepted = s.seq ∧ s.handed.length = s.seq ∧
      ∀ total, announced s.expected = some total → total = s.accepted) := by
  have hinv := reachable_inv h
  have hle := Nat.le_trans hinv.accepted_le hinv.next_le_seq
  refine ⟨hinv.owed, ⟨hle, ?_, hinv.noPanic, returning_tokens_lt hinv⟩,
    ⟨hinv.handed_fst, hinv.handed_produced, fed_of_reachable h,
      fun k e hk => handed_before_error hinv hk⟩, ?_⟩
  · have htokens := hinv.tokens
    omega
  · intro hw
    obtain ⟨-, hacc, hhanded⟩ := hinv.ended (by rw [hw]; rfl)
    refine ⟨hacc, hhanded, ?_⟩
    intro total ht
    rw [announced_total hinv ht, hacc]

/-- A sink that collects the raw buffers. -/
def collectingSink : OutputSink Unit Unit (List (List UInt8)) where
  backend := "pipelined writer"
  writeOwned := fun written bytes => (written ++ [bytes], .ok ())
  copyRange := fun written _ _ _ => (written, .ok ())
  afterDrain := fun written => (written, .ok ())
  finish := fun _ => .ok ()

lemma reachable_producer (h : Reachable sink w s) (hstep : ProducerStep s t) :
    Reachable sink w t :=
  h.tail (.producer hstep)

lemma reachable_slot (h : Reachable sink w s) (hstep : SlotStep s t) : Reachable sink w t :=
  h.tail (.slot hstep)

lemma reachable_writer (h : Reachable sink w s) (hstep : WriterStep sink s t) :
    Reachable sink w t :=
  h.tail (.writer hstep)

/-- Two items that arrive in the wrong order. -/
theorem pipelined_write_complete_two_items :
    ∃ s, Reachable collectingSink [] s ∧ s.writer = .finished (.ok ()) ∧
      s.sink = [[0], [1], [2]] ∧ announced s.expected = some 2 ∧ s.accepted = 2 := by
  have h : Reachable collectingSink [] (start []) := .refl
  have h := reachable_producer h (.takeToken rfl (by decide))
  have h := reachable_producer h (.reserve rfl)
  have h := reachable_producer h (.takeToken rfl (by decide))
  have h := reachable_producer h (.reserve rfl)
  have h := reachable_slot h (.send 1 (.ok (.rawChunks [[1], [2]])) (by decide) rfl (by decide))
  have h := reachable_slot h (.send 0 (.ok (.raw [0])) (by decide) rfl (by decide))
  have h := reachable_producer h (.announce rfl)
  have h := reachable_producer h (.flush rfl)
  have h := reachable_writer h (.receive 1 (.ok (.rawChunks [[1], [2]])) _ rfl rfl)
  have h := reachable_writer h (.push 1 _ _ rfl rfl)
  have h := reachable_writer h (.drained rfl rfl)
  have h := reachable_writer h (.afterDrain _ rfl rfl)
  have h := reachable_writer h (.receive 0 (.ok (.raw [0])) _ rfl rfl)
  have h := reachable_writer h (.push 0 _ _ rfl rfl)
  have h := reachable_writer h (.pop (.ok (.raw [0])) _ rfl rfl)
  have h := reachable_writer h (.handOff (.raw [0]) _ rfl rfl)
  have h := reachable_writer h (.returnToken rfl (by decide))
  have h := reachable_writer h (.pop (.ok (.rawChunks [[1], [2]])) _ rfl rfl)
  have h := reachable_writer h (.handOff (.rawChunks [[1], [2]]) _ rfl rfl)
  have h := reachable_writer h (.returnToken rfl (by decide))
  have h := reachable_writer h (.drained rfl rfl)
  have h := reachable_writer h (.afterDrain _ rfl rfl)
  have h := reachable_writer h (.disconnect rfl rfl rfl rfl)
  have h := reachable_writer h (.check rfl)
  have h := reachable_writer h (.finish rfl)
  obtain ⟨-, -, -, hend⟩ := pipelined_write_complete h
  obtain ⟨-, -, htotal⟩ := hend rfl
  exact ⟨_, h, rfl, rfl, rfl, (htotal 2 rfl).symm⟩

end WritePipelineRuns
