import Mathlib.Data.List.Nodup

/-!
# The reorder buffer

`ReorderBuffer` of `reorder_buffer.rs`: items pushed under a sequence number come out in sequence
order. A push behind the next number, past the window or on a filled slot is refused. `held` says
what the buffer holds.
-/

namespace ReorderBuffer

open List Option

variable {α : Type}

structure Buffer (α : Type) where
  nextSeq : Nat
  filled : Nat
  maxWindow : Nat
  pending : List (Option α)

structure Rejected (α : Type) where
  item : α
  reason : String

variable (maxWindow : Nat)

def withMaxWindow : Buffer α :=
  { nextSeq := 0, filled := 0, maxWindow := maxWindow, pending := [] }

variable (pending : List (Option α))

/-- `pending` grown to hold slot `idx`. -/
def resized (idx : Nat) : List (Option α) :=
  pending ++ replicate (idx + 1 - pending.length) none

variable (b : Buffer α)

/-- The item in its slot. -/
def put (slotIdx : Nat) (item : α) : Buffer α :=
  { b with
    pending := (resized b.pending slotIdx).set slotIdx (some item)
    filled := b.filled + 1 }

def tryPush (seq : Nat) (item : α) : Except (Rejected α) (Buffer α) :=
  if seq < b.nextSeq then
    .error ⟨item, s!"reorder buffer received stale sequence number: {seq} < {b.nextSeq}"⟩
  else
    let slotIdx := seq - b.nextSeq
    if b.maxWindow ≤ slotIdx then
      .error ⟨item, s!"reorder buffer window exceeded: seq {seq} is {slotIdx} ahead of " ++
        s!"{b.nextSeq} (max {b.maxWindow})"⟩
    else
      match (resized b.pending slotIdx)[slotIdx]? with
      | some (some _) => .error ⟨item, s!"duplicate sequence number: {seq}"⟩
      | _ => .ok (put b slotIdx item)

def popReady : Option (α × Buffer α) :=
  match b.pending with
  | some item :: rest =>
    some (item, { b with pending := rest, filled := b.filled - 1, nextSeq := b.nextSeq + 1 })
  | _ => none

/-- The held items, front to back; draining them delivers none. -/
def drainFilled : List α := b.pending.filterMap id

/-- The buffer once it is drained. -/
def emptied : Buffer α := { b with filled := 0, pending := [] }

/-- The item waiting under a sequence number. -/
def held (seq : Nat) : Option α :=
  if seq < b.nextSeq then none else (b.pending[seq - b.nextSeq]?).join

@[simp] lemma held_withMaxWindow (w seq : Nat) :
    held (withMaxWindow w : Buffer α) seq = none := by
  simp [held, withMaxWindow]

variable {b b' : Buffer α} {seq : Nat} {item : α}

lemma held_of_lt (h : seq < b.nextSeq) : held b seq = none := by
  simp [held, h]

lemma resized_length (idx : Nat) : idx < (resized pending idx).length := by
  simp [resized]
  omega

lemma join_resized (idx i : Nat) : ((resized pending idx)[i]?).join = (pending[i]?).join := by
  unfold resized
  by_cases hi : i < pending.length
  · rw [getElem?_append_left hi]
  · rw [getElem?_append_right (by omega), getElem?_replicate,
      getElem?_eq_none (by omega)]
    split <;> rfl

/-- A push in front of the window's end onto an empty slot is accepted. -/
theorem tryPush_ok {b : Buffer α} {seq : Nat} {item : α} (hlo : b.nextSeq ≤ seq)
    (hhi : seq < b.nextSeq + b.maxWindow) (hfree : held b seq = none) :
    ∃ b', tryPush b seq item = .ok b' ∧ b'.nextSeq = b.nextSeq ∧ b'.maxWindow = b.maxWindow ∧
      ∀ k, held b' k = if k = seq then some item else held b k := by
  have hslot : ((resized b.pending (seq - b.nextSeq))[seq - b.nextSeq]?).join = none := by
    rw [join_resized]
    rwa [held, if_neg (by omega)] at hfree
  refine ⟨put b (seq - b.nextSeq) item, ?_, rfl, rfl, ?_⟩
  · rw [tryPush, if_neg (by omega)]
    simp only []
    rw [if_neg (by omega)]
    split
    · next x hx =>
      rw [hx] at hslot
      cases hslot
    · rfl
  · intro k
    by_cases hk : k = seq
    · subst hk
      rw [if_pos rfl, held, if_neg (by simp only [put]; omega)]
      simp [put, resized_length]
    · rw [if_neg hk]
      by_cases hlt : k < b.nextSeq
      · rw [held_of_lt hlt, held_of_lt (by simpa [put] using hlt)]
      · rw [held, held, if_neg hlt, if_neg (by simpa [put] using hlt)]
        show (((resized b.pending _).set _ (some item))[k - b.nextSeq]?).join = _
        rw [getElem?_set_ne (by omega), join_resized]

lemma popReady_eq_none : popReady b = none ↔ held b b.nextSeq = none := by
  rw [held, if_neg (by omega), Nat.sub_self]
  unfold popReady
  cases b.pending with
  | nil => simp
  | cons x xs => cases x <;> simp

lemma popReady_eq_some (h : popReady b = some (item, b')) :
    held b b.nextSeq = some item ∧ b'.nextSeq = b.nextSeq + 1 ∧ b'.maxWindow = b.maxWindow ∧
      ∀ k, held b' k = if k = b.nextSeq then none else held b k := by
  unfold popReady at h
  split at h
  · next x rest hp =>
    simp only [some.injEq, Prod.mk.injEq] at h
    obtain ⟨rfl, rfl⟩ := h
    refine ⟨by simp [held, hp], rfl, rfl, ?_⟩
    intro k
    by_cases hk : k = b.nextSeq
    · rw [if_pos hk, held_of_lt (by simp only; omega)]
    · rw [if_neg hk]
      simp only [held]
      by_cases hlt : k < b.nextSeq
      · rw [if_pos hlt, if_pos (by omega)]
      · rw [if_neg hlt, if_neg (by omega), hp,
          show k - b.nextSeq = (k - (b.nextSeq + 1)) + 1 by omega, getElem?_cons_succ]
  · cases h

/-- What is held after any push that is accepted. -/
theorem held_tryPush (h : tryPush b seq item = .ok b') (k : Nat) :
    held b' k = if k = seq then some item else held b k := by
  have hlo : b.nextSeq ≤ seq := by
    by_contra hlt
    rw [tryPush, if_pos (by omega)] at h
    cases h
  have hhi : seq < b.nextSeq + b.maxWindow := by
    by_contra hge
    rw [tryPush, if_neg (by omega)] at h
    simp only [] at h
    rw [if_pos (by omega)] at h
    cases h
  have hfree : held b seq = none := by
    cases hx : held b seq with
    | none => rfl
    | some x =>
      rw [held, if_neg (by omega), ← join_resized _ (seq - b.nextSeq),
        join_eq_some_iff] at hx
      rw [tryPush, if_neg (by omega)] at h
      simp only [] at h
      rw [if_neg (by omega), hx] at h
      cases h
  obtain ⟨b'', hok, -, -, hheld⟩ := @tryPush_ok α b seq item hlo hhi hfree
  rw [h] at hok
  cases hok
  exact hheld k

lemma tryPush_keeps (h : tryPush b seq item = .ok b') :
    b'.maxWindow = b.maxWindow ∧ b'.nextSeq = b.nextSeq := by
  unfold tryPush at h
  split at h
  · cases h
  · simp only [] at h
    split at h
    · cases h
    · split at h
      · cases h
      · cases h
        exact ⟨rfl, rfl⟩

lemma filterMap_resized (idx : Nat) :
    (resized pending idx).filterMap id = pending.filterMap id := by
  rw [resized, filterMap_append]
  simp

/-- What is held after a push: the item besides what was held. -/
theorem drainFilled_tryPush (h : tryPush b seq item = .ok b') :
    (drainFilled b').Perm (item :: drainFilled b) ∧ b'.filled = b.filled + 1 := by
  unfold tryPush at h
  split at h
  · cases h
  · simp only [] at h
    split at h
    · cases h
    · split at h
      · cases h
      · next hfree =>
        cases h
        refine ⟨?_, rfl⟩
        have hlt := resized_length b.pending (seq - b.nextSeq)
        have hnone : (resized b.pending (seq - b.nextSeq))[seq - b.nextSeq]? = some none := by
          rw [getElem?_eq_getElem hlt]
          cases hx : (resized b.pending (seq - b.nextSeq))[seq - b.nextSeq] with
          | none => rfl
          | some x => exact absurd (getElem?_eq_getElem hlt ▸ congrArg some hx) (hfree x)
        have hsplit := List.getElem?_eq_some_iff.mp hnone
        obtain ⟨hlt', hval⟩ := hsplit
        have heq : resized b.pending (seq - b.nextSeq) =
            (resized b.pending (seq - b.nextSeq)).take (seq - b.nextSeq) ++ none ::
              (resized b.pending (seq - b.nextSeq)).drop (seq - b.nextSeq + 1) := by
          rw [← hval, ← drop_eq_getElem_cons hlt', take_append_drop]
        have hdrain : drainFilled b = (resized b.pending (seq - b.nextSeq)).filterMap id := by
          rw [filterMap_resized]
          rfl
        rw [hdrain]
        change ((resized b.pending (seq - b.nextSeq)).set _ (some item)).filterMap id |>.Perm _
        rw [set_eq_take_append_cons_drop, if_pos hlt, filterMap_append]
        conv_rhs => rw [heq, filterMap_append]
        simp only [filterMap_cons, id_eq]
        exact perm_middle

lemma drainFilled_popReady (h : popReady b = some (item, b')) :
    drainFilled b = item :: drainFilled b' ∧ b'.filled = b.filled - 1 := by
  unfold popReady at h
  split at h
  · next x rest hp =>
    simp only [some.injEq, Prod.mk.injEq] at h
    obtain ⟨rfl, rfl⟩ := h
    simp [drainFilled, hp]
  · cases h

/-- An item held under a number is among the held ones. -/
theorem mem_drainFilled : item ∈ drainFilled b ↔ ∃ seq, held b seq = some item := by
  unfold drainFilled
  constructor
  · intro h
    obtain ⟨x, hx, hitem⟩ := mem_filterMap.mp h
    obtain ⟨i, hi⟩ := mem_iff_getElem?.mp hx
    refine ⟨b.nextSeq + i, ?_⟩
    rw [held, if_neg (by omega), Nat.add_sub_cancel_left, hi]
    exact hitem
  · rintro ⟨seq, h⟩
    unfold held at h
    split at h
    · cases h
    · rw [join_eq_some_iff] at h
      exact mem_filterMap.mpr ⟨some item, mem_of_getElem? h, rfl⟩

@[simp] lemma held_emptied (b : Buffer α) (seq : Nat) : held (emptied b) seq = none := by
  simp [held, emptied]

/-- What a refused push leaves: the slots grow before the duplicate is seen. -/
def refused (b : Buffer α) (seq : Nat) : Buffer α :=
  if b.nextSeq ≤ seq ∧ seq - b.nextSeq < b.maxWindow then
    { b with pending := resized b.pending (seq - b.nextSeq) }
  else b

inductive Op (α : Type) where
  | tryPush (seq : Nat) (item : α)
  | popReady
  | drainFilled

/-- The held items with their sequence numbers, front to back. -/
def entries (b : Buffer α) : List (Nat × α) :=
  (b.pending.zipIdx b.nextSeq).filterMap fun x => x.1.map fun item => (x.2, item)

/-- The buffer and what became of the items so far. -/
structure Run (α : Type) where
  buffer : Buffer α
  accepted : List (Nat × α) := []
  popped : List α := []
  drained : List (Nat × α) := []

def Run.next (r : Run α) : Op α → Run α
  | .tryPush seq item =>
    match tryPush r.buffer seq item with
    | .ok b => { r with buffer := b, accepted := r.accepted ++ [(seq, item)] }
    | .error _ => { r with buffer := refused r.buffer seq }
  | .popReady =>
    match popReady r.buffer with
    | some (item, b) => { r with buffer := b, popped := r.popped ++ [item] }
    | none => r
  | .drainFilled =>
    { r with buffer := emptied r.buffer, drained := r.drained ++ entries r.buffer }

variable (ops : List (Op α))

def run : Run α :=
  ops.foldl Run.next { buffer := withMaxWindow maxWindow }

lemma mem_entries : (seq, item) ∈ entries b ↔ held b seq = some item := by
  unfold entries held
  rw [mem_filterMap]
  constructor
  · rintro ⟨⟨slot, k⟩, hmem, hslot⟩
    obtain ⟨x, hx, hpair⟩ := map_eq_some_iff.mp hslot
    cases hpair
    obtain ⟨hle, hget⟩ := mem_zipIdx_iff_le_and_getElem?_sub.mp hmem
    dsimp only at hx hget
    rw [if_neg (by omega), hget, hx]
    rfl
  · intro h
    split at h
    · cases h
    · rename_i hlt
      refine ⟨(some item, seq), mem_zipIdx_iff_le_and_getElem?_sub.mpr ⟨by omega, ?_⟩, rfl⟩
      exact join_eq_some_iff.mp h

lemma entries_nodup (b : Buffer α) : (entries b).Nodup := by
  have hnumbers : ((entries b).map Prod.fst).Nodup := by
    have hsub : ((entries b).map Prod.fst).Sublist ((b.pending.zipIdx b.nextSeq).map Prod.snd) := by
      unfold entries
      generalize b.pending.zipIdx b.nextSeq = slots
      induction slots with
      | nil => exact List.Sublist.refl _
      | cons x xs ih =>
        obtain ⟨slot, k⟩ := x
        cases slot with
        | none => exact ih.cons k
        | some item => exact ih.cons_cons k
    refine hsub.nodup ?_
    rw [zipIdx_map_snd]
    exact nodup_range'
  exact List.Nodup.of_map _ hnumbers

/-- The push is refused exactly when it is stale, past the window or a duplicate. -/
theorem tryPush_cases (b : Buffer α) (seq : Nat) (item : α) :
    (∃ b', tryPush b seq item = .ok b' ∧ b.nextSeq ≤ seq ∧ seq < b.nextSeq + b.maxWindow ∧
        held b seq = none) ∨
      ∃ reason, tryPush b seq item = .error ⟨item, reason⟩ ∧ refused b seq = b ∧
        (seq < b.nextSeq ∨ b.nextSeq + b.maxWindow ≤ seq ∨ ∃ x, held b seq = some x) := by
  unfold tryPush refused
  by_cases hstale : seq < b.nextSeq
  · rw [if_pos hstale, if_neg (by omega)]
    exact .inr ⟨_, rfl, rfl, .inl hstale⟩
  · rw [if_neg hstale]
    simp only []
    by_cases hwindow : b.maxWindow ≤ seq - b.nextSeq
    · rw [if_pos hwindow, if_neg (by omega)]
      exact .inr ⟨_, rfl, rfl, .inr (.inl (by omega))⟩
    · rw [if_neg hwindow, if_pos ⟨by omega, by omega⟩]
      have hheld : held b seq = ((resized b.pending (seq - b.nextSeq))[seq - b.nextSeq]?).join := by
        rw [join_resized, held, if_neg hstale]
      cases hslot : held b seq with
      | none =>
        refine .inl ⟨put b (seq - b.nextSeq) item, ?_, by omega, by omega, rfl⟩
        split
        · next x hx =>
          rw [hheld, hx] at hslot
          cases hslot
        · rfl
      | some x =>
        rw [hheld, join_eq_some_iff] at hslot
        rw [hslot]
        refine .inr ⟨_, rfl, ?_, .inr (.inr ⟨x, rfl⟩)⟩
        -- The slot is filled, so it is one the buffer has, and nothing grows.
        have hlong : seq - b.nextSeq < b.pending.length := by
          by_contra hshort
          rw [resized, getElem?_append_right (by omega), getElem?_replicate] at hslot
          split at hslot
          · cases hslot
          · cases hslot
        have hsame : resized b.pending (seq - b.nextSeq) = b.pending := by
          rw [resized, show seq - b.nextSeq + 1 - b.pending.length = 0 by omega]
          simp
        rw [hsame]

lemma entries_tryPush (h : tryPush b seq item = .ok b') :
    (entries b').Perm (entries b ++ [(seq, item)]) := by
  have hfree : held b seq = none := by
    rcases tryPush_cases b seq item with ⟨_, -, -, -, hfree⟩ | ⟨reason, herr, -⟩
    · exact hfree
    · rw [h] at herr
      cases herr
  have hnodup : (entries b ++ [(seq, item)]).Nodup := by
    rw [nodup_append]
    refine ⟨entries_nodup b, nodup_singleton _, ?_⟩
    rintro x hx y hy rfl
    rw [mem_singleton.mp hy, mem_entries, hfree] at hx
    cases hx
  rw [perm_ext_iff_of_nodup (entries_nodup b') hnodup]
  rintro ⟨k, x⟩
  rw [mem_entries, held_tryPush h, mem_append, mem_entries, mem_singleton]
  by_cases hk : k = seq
  · subst hk
    simp [hfree, eq_comm]
  · simp [hk]

lemma entries_popReady (h : popReady b = some (item, b')) :
    entries b = (b.nextSeq, item) :: entries b' := by
  unfold popReady at h
  split at h
  · next x rest hp =>
    cases h
    simp [entries, hp, zipIdx_cons]
  · cases h

/-- What a run has done with the items it accepted. -/
structure Kept (maxWindow : Nat) (r : Run α) : Prop where
  popped : r.buffer.nextSeq = r.popped.length
  all : r.accepted.Perm
    ((r.popped.zipIdx.map fun x => (x.2, x.1)) ++ r.drained ++ entries r.buffer)
  filled : r.buffer.filled = (entries r.buffer).length
  window : r.buffer.maxWindow = maxWindow
  slots : r.buffer.pending.length ≤ maxWindow

lemma length_tryPush (h : tryPush b seq item = .ok b') (hslots : b.pending.length ≤ b.maxWindow) :
    b'.pending.length ≤ b.maxWindow := by
  rcases tryPush_cases b seq item with ⟨_, -, hlo, hhi, -⟩ | ⟨reason, herr, -⟩
  · unfold tryPush at h
    rw [if_neg (by omega)] at h
    simp only [] at h
    rw [if_neg (by omega)] at h
    split at h
    · cases h
    · cases h
      simp only [put, resized, length_set, length_append, length_replicate]
      omega
  · rw [h] at herr
    cases herr

lemma Kept.next {maxWindow : Nat} {r : Run α} (h : Kept maxWindow r) (op : Op α) :
    Kept maxWindow (r.next op) := by
  have hslots := h.slots
  rw [← h.window] at hslots
  cases op with
  | tryPush seq item =>
    rcases tryPush_cases r.buffer seq item with ⟨b, hok, -⟩ | ⟨reason, herr, hsame, -⟩
    · obtain ⟨hwindow, hseq⟩ := tryPush_keeps hok
      have hentries := entries_tryPush hok
      have hfilled := (drainFilled_tryPush hok).2
      simp only [Run.next, hok]
      refine ⟨hseq.trans h.popped, ?_, ?_, hwindow.trans h.window, ?_⟩
      · refine (h.all.append_right [(seq, item)]).trans ?_
        rw [append_assoc]
        exact List.Perm.append_left _ hentries.symm
      · rw [hentries.length_eq, length_append, hfilled, h.filled]
        rfl
      · rw [← h.window]
        exact length_tryPush hok hslots
    · simp only [Run.next, herr, hsame]
      exact h
  | popReady =>
    cases hpop : popReady r.buffer with
    | none =>
      simp only [Run.next, hpop]
      exact h
    | some x =>
      obtain ⟨item, b⟩ := x
      obtain ⟨-, hseq, hwindow, -⟩ := popReady_eq_some hpop
      have hentries := entries_popReady hpop
      have hfilled := (drainFilled_popReady hpop).2
      simp only [Run.next, hpop]
      refine ⟨?_, ?_, ?_, hwindow.trans h.window, ?_⟩
      · rw [hseq, h.popped, length_append]
        rfl
      · refine h.all.trans ?_
        rw [hentries, h.popped, zipIdx_append, map_append, append_assoc, append_assoc, append_assoc]
        refine List.Perm.append_left _ ?_
        simp
      · rw [hfilled, h.filled, hentries]
        rfl
      · have hlen := h.slots
        unfold popReady at hpop
        split at hpop
        · next x rest hp =>
          cases hpop
          rw [hp, length_cons] at hlen
          exact Nat.le_of_succ_le hlen
        · cases hpop
  | drainFilled =>
    refine ⟨h.popped, ?_, rfl, h.window, Nat.zero_le _⟩
    refine h.all.trans (List.Perm.of_eq ?_)
    simp [Run.next, entries, emptied, append_assoc]

lemma kept_run : Kept maxWindow (run maxWindow ops) := by
  have hstart : Kept maxWindow ({ buffer := withMaxWindow maxWindow } : Run α) :=
    ⟨rfl, List.Perm.refl _, rfl, rfl, Nat.zero_le _⟩
  unfold run
  generalize ({ buffer := withMaxWindow maxWindow } : Run α) = r at hstart ⊢
  induction ops generalizing r with
  | nil => exact hstart
  | cons op ops ih => exact ih (r.next op) (hstart.next op)

/-- What a caller may rely on after any calls. -/
structure Delivers (maxWindow : Nat) (r : Run α) : Prop where
  /-- The item popped as the `i`th was accepted under `i`. -/
  inOrder : ∀ i item, r.popped[i]? = some item → (i, item) ∈ r.accepted
  next : r.buffer.nextSeq = r.popped.length
  /-- Every accepted item was popped once, drained once or is held. -/
  once : r.accepted.Perm
    ((r.popped.zipIdx.map fun x => (x.2, x.1)) ++ r.drained ++ entries r.buffer)
  filled : r.buffer.filled = r.accepted.length - r.popped.length - r.drained.length
  slots : r.buffer.pending.length ≤ maxWindow
  holds : ∀ seq item, (seq, item) ∈ entries r.buffer ↔ held r.buffer seq = some item
  /-- The next call pops the item held under the next number, and nothing when there is none. -/
  pop : (popReady r.buffer).map Prod.fst = held r.buffer r.buffer.nextSeq
  /-- A push is accepted, or it is stale, past the window or a duplicate: then it gives its item
  back and changes nothing. -/
  push : ∀ seq item,
    (∃ b, tryPush r.buffer seq item = .ok b ∧ r.buffer.nextSeq ≤ seq ∧
      seq < r.buffer.nextSeq + maxWindow ∧ held r.buffer seq = none) ∨
    ∃ reason, tryPush r.buffer seq item = .error ⟨item, reason⟩ ∧
      refused r.buffer seq = r.buffer ∧
      (seq < r.buffer.nextSeq ∨ r.buffer.nextSeq + maxWindow ≤ seq ∨
        ∃ x, held r.buffer seq = some x)

theorem reorder_buffer_delivers_in_order : Delivers maxWindow (run maxWindow ops) := by
  have h := kept_run maxWindow ops
  refine ⟨fun i item hget => ?_, h.popped, h.all, ?_, h.slots, fun _ _ => mem_entries, ?_,
    fun seq item => ?_⟩
  · refine h.all.mem_iff.mpr ?_
    refine mem_append_left _ (mem_append_left _ (mem_map.mpr ⟨(item, i), ?_, rfl⟩))
    exact mk_mem_zipIdx_iff_getElem?.mpr hget
  · have hlen := h.all.length_eq
    simp only [length_append, length_map, length_zipIdx] at hlen
    rw [h.filled]
    omega
  · cases hpop : popReady (run maxWindow ops).buffer with
    | none => exact (popReady_eq_none.mp hpop).symm
    | some x => exact (popReady_eq_some hpop).1.symm
  · have hcases := tryPush_cases (run maxWindow ops).buffer seq item
    rw [h.window] at hcases
    exact hcases

/-- The later item is pushed first and waits. -/
theorem reorder_buffer_delivers_two :
    (run 4 [.tryPush 1 true, .popReady, .tryPush 0 false, .popReady, .popReady]).popped =
        [false, true] ∧
      (popReady (run 4 [.tryPush 1 true, .popReady, .tryPush 0 false]).buffer).map Prod.fst =
        some false :=
  ⟨rfl, (reorder_buffer_delivers_in_order 4 _).pop⟩

end ReorderBuffer
