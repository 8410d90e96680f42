import Pbfhogg.Check.VerifyIdsJudges

/-!
# The phases of the id check

Each phase fills one slot for each blob of its schedule, whatever the order in which the blobs
complete; the duplicates its slots hold are those the shared set refused and those the side set
found.
-/

namespace VerifyIds

open OsmId BlobMeta SharedPool IdSpace List Function

namespace ScheduledBlob

/-- The groups of a blob that decodes. -/
def groups (b : ScheduledBlob) : List Group :=
  match b.content with
  | .ok groups => groups
  | .error _ => []

def ids (k : ElementKind) (b : ScheduledBlob) : List Int64 := b.groups.flatMap fun g => g.ids k

/-- The blob decodes and holds no kind its claim denies. -/
def Readable (b : ScheduledBlob) : Prop := ∃ groups, b.project = .ok groups

lemma groups_of_project {b : ScheduledBlob} {groups : List Group} (h : b.project = .ok groups) :
    b.groups = groups := by
  rw [project] at h
  obtain ⟨gs, hcontent, h⟩ := Fallible.bind_eq_ok.mp h
  have hgs : groups = gs := by
    cases hclaim : b.claim with
    | none =>
      rw [hclaim] at h
      exact (Except.ok.inj h).symm
    | some claimed =>
      rw [hclaim] at h
      obtain ⟨u, -, h⟩ := Fallible.bind_eq_ok.mp h
      exact (Except.ok.inj h).symm
  rw [ScheduledBlob.groups, hcontent, hgs]

lemma refused_of_foreign {ks : List ElementKind} {claimed : ElementKind}
    (h : refuseForeignKind ks claimed = .ok ()) : ∀ k ∈ ks, k = claimed := by
  intro k hk
  by_contra hne
  unfold refuseForeignKind at h
  have hsome : ∃ found, foreignTo ks claimed = some found := by
    refine Option.isSome_iff_exists.mp (find?_isSome.mpr ⟨k, ?_, decide_eq_true ⟨hne, hk⟩⟩)
    cases k <;> decide
  obtain ⟨found, hfound⟩ := hsome
  rw [hfound] at h
  cases h

/-- A blob that is read holds only the kind it claims. -/
theorem Readable.claim {b : ScheduledBlob} (h : b.Readable) {claimed k : ElementKind}
    (hclaim : b.claim = some claimed) {g : Group} (hg : g ∈ b.groups) (hk : g.has k = true) :
    k = claimed := by
  obtain ⟨groups, hp⟩ := h
  rw [groups_of_project hp] at hg
  rw [project, hclaim] at hp
  obtain ⟨gs, -, hp⟩ := Fallible.bind_eq_ok.mp hp
  obtain ⟨u, hu, hp⟩ := Fallible.bind_eq_ok.mp hp
  cases hp
  refine refused_of_foreign hu k (mem_flatMap.mpr ⟨g, hg, mem_filter.mpr ⟨?_, hk⟩⟩)
  cases k <;> decide

end ScheduledBlob

variable (k : ElementKind)

lemma mem_kinds : k ∈ kinds := by cases k <;> decide

lemma nodup_kinds : kinds.Nodup := by decide

section Jobs

variable {cov : ElementKind → Int64 → Bool} {b : ScheduledBlob} {groups : List Group}

lemma accepted_of_project (h : b.project = .ok groups) : accepted b = .ret groups := by
  rw [accepted, h]

lemma fail_of_not_readable (h : ¬ b.Readable) : ∃ e, accepted b = .fail e := by
  cases hp : b.project with
  | ok groups => exact absurd ⟨groups, hp⟩ h
  | error e => exact ⟨e, by rw [accepted, hp]⟩

lemma verifyBlob_spec {k : ElementKind} {full : Bool} (h : b.Readable) :
    (verifyBlob k (if full then some k else none) b).Ensures (Contract cov) fun t r =>
      Judged (cov k) full k (b.ids k) t r := by
  obtain ⟨groups, hp⟩ := h
  have hids : b.ids k = groups.flatMap fun g => g.ids k := by
    rw [ScheduledBlob.ids, ScheduledBlob.groups_of_project hp]
  rw [verifyBlob, accepted_of_project hp, Job.ret_bind, hids]
  have hloop : Job.Ensures (Contract cov)
      ((groups.flatMap fun g => g.ids k).foldlM
        (fun judge id => judge.push id (if full then some k else none)) (KindJudge.new k))
      (Judging (cov k) full k (groups.flatMap fun g => g.ids k)) := by
    refine Job.ensures_foldlM (judging_new (cov k) full k) fun done id _ t judge h => ?_
    exact (push_spec h).imp fun _ _ h' => h'.1
  refine Job.ensures_bind hloop fun t judge hj => ?_
  refine Job.ensures_ret ?_
  rw [append_nil]
  exact hj.toJudged

/-- The ids of one kind among those a scratch replays. -/
def idsIn (xs : List (ElementKind × Int64)) : List Int64 :=
  (xs.filter fun x => decide (x.1 = k)).map Prod.snd

lemma idsIn_append (xs ys : List (ElementKind × Int64)) :
    idsIn k (xs ++ ys) = idsIn k xs ++ idsIn k ys := by
  simp [idsIn]

lemma idsIn_each (k k' : ElementKind) (ids : List Int64) :
    idsIn k (ids.map fun id => (k', id)) = if k' = k then ids else [] := by
  by_cases hk : k' = k
  · simp [idsIn, hk, filter_map, comp_def]
  · simp [idsIn, hk]

lemma idsIn_group (select : ElementKind → Bool) (k : ElementKind) (g : Group) :
    idsIn k ((kinds.filter select).flatMap fun k => (g.ids k).map fun id => (k, id)) =
      if select k then g.ids k else [] := by
  have hnil : idsIn k [] = [] := rfl
  cases hn : select .node <;> cases hw : select .way <;> cases hr : select .relation <;>
    cases k <;>
    simp only [kinds, hn, hw, hr, filter_cons, filter_nil, flatMap_cons,
      flatMap_nil, idsIn_append, idsIn_each, hnil, if_true, if_false, reduceCtorEq,
      Bool.false_eq_true, append_nil, nil_append]

lemma idsIn_scratch (select : ElementKind → Bool) (k : ElementKind) (groups : List Group) :
    idsIn k (scratchIds select groups) =
      if select k then groups.flatMap fun g => g.ids k else [] := by
  induction groups with
  | nil => cases select k <;> rfl
  | cons g groups ih =>
    have hcons : scratchIds select (g :: groups) =
        ((kinds.filter select).flatMap fun k => (g.ids k).map fun id => (k, id)) ++
          scratchIds select groups := flatMap_cons ..
    rw [hcons, idsIn_append, ih, idsIn_group]
    cases select k <;> simp

lemma verifyUnindexed_spec {select full : ElementKind → Bool} (h : b.Readable) :
    (verifyUnindexed select (fun k => if full k then some k else none) b).Ensures (Contract cov)
      fun t x => x.groups = (b.groups.foldl GroupKinds.groupEnd {}).spans ∧
        ∀ k, Judged (cov k) (full k) k (if select k then b.ids k else []) t (x.results k) := by
  obtain ⟨groups, hp⟩ := h
  rw [verifyUnindexed, accepted_of_project hp, Job.ret_bind]
  have hloop : Job.Ensures (Contract cov)
      ((scratchIds select groups).foldlM
        (fun (judges : ElementKind → KindJudge) x => do
          let judge ← (judges x.1).push x.2 (if full x.1 then some x.1 else none)
          return update judges x.1 judge)
        KindJudge.new)
      fun t judges => ∀ k,
        Judging (cov k) (full k) k (idsIn k (scratchIds select groups)) t (judges k) := by
    have hstart : ∀ k, Judging (cov k) (full k) k (idsIn k []) [] (KindJudge.new k) :=
      fun k => judging_new (cov k) (full k) k
    refine @Job.ensures_foldlM SetOp PbfError (ElementKind → KindJudge) (Contract cov)
      (ElementKind × Int64) _
      (fun done t judges => ∀ k, Judging (cov k) (full k) k (idsIn k done) t (judges k)) _ _ hstart
      fun done x _ t judges hall => ?_
    obtain ⟨k₀, id⟩ := x
    refine Job.ensures_bind (push_spec (hall k₀)) fun t' judge hj => ?_
    refine Job.ensures_ret fun k => ?_
    rw [append_nil, idsIn_append]
    by_cases hk : k = k₀
    · subst hk
      have hone : idsIn k [(k, id)] = [id] := by simp [idsIn]
      rw [hone, update_self]
      exact hj.1
    · have hnone : idsIn k [(k₀, id)] = [] := by simp [idsIn, Ne.symm hk]
      rw [hnone, append_nil, update_of_ne hk]
      exact (hall k).silent (hj.2 k hk)
  refine Job.ensures_bind hloop fun t judges hall => ?_
  refine Job.ensures_ret ⟨?_, fun k => ?_⟩
  · rw [ScheduledBlob.groups_of_project hp]
  · have hk := (hall k).toJudged
    rw [idsIn_scratch] at hk
    rw [append_nil, ScheduledBlob.ids, ScheduledBlob.groups_of_project hp]
    exact hk

end Jobs

/-- What settling leaves of a result. -/
structure SettledFrom (r r' : BlobVerifyResult) : Prop where
  count : r'.count = r.count
  first : r'.firstId = r.firstId
  last : r'.lastId = r.lastId
  within : r'.withinViolations = r.withinViolations
  outOfRange : r'.outOfRangeIds = r.outOfRangeIds.filter fun id => decide (id.toInt < 0)

lemma setIfNew_fst {s : IdSet} {id : Int64} (h : 0 ≤ id.toInt) :
    setIfNew s id = (!s.get id, s.set id) := if_neg (by omega)

lemma foldl_settleId (ids : List Int64) (s : IdSet) (r : BlobVerifyResult) :
    let out := ids.foldl settleId (s, r)
    (out.2 = { r with
      outOfRangeIds := r.outOfRangeIds ++ ids.filter fun id => decide (id.toInt < 0)
      duplicateIds := out.2.duplicateIds }) ∧
    (∀ x, x ∈ out.1.ids ↔ x ∈ s.ids ∨ x ∈ nonNegative ids) ∧
    out.2.duplicateIds.length + out.1.ids.length =
      r.duplicateIds.length + s.ids.length + (nonNegative ids).length := by
  induction ids generalizing s r with
  | nil => simp [nonNegative]
  | cons id ids ih =>
    rw [foldl_cons]
    by_cases hneg : id.toInt < 0
    · have hstep : settleId (s, r) id = (s, { r with outOfRangeIds := r.outOfRangeIds ++ [id] }) :=
        if_pos hneg
      have hnon : nonNegative (id :: ids) = nonNegative ids := by
        simp [nonNegative, hneg]
      obtain ⟨hr, hmem, hcount⟩ := ih s { r with outOfRangeIds := r.outOfRangeIds ++ [id] }
      rw [hstep, hnon]
      refine ⟨?_, hmem, hcount⟩
      rw [hr]
      simp [hneg]
    · have hpos : 0 ≤ id.toInt := by omega
      have hnon : nonNegative (id :: ids) = id :: nonNegative ids := by
        simp [nonNegative, hpos]
      have hlen := @length_set s id hpos
      have hstep : settleId (s, r) id = (s.set id,
          if !s.get id then r else { r with duplicateIds := r.duplicateIds ++ [id] }) := by
        rw [settleId, if_neg hneg, setIfNew_fst hpos]
      have hset : ∀ x, (x ∈ (s.set id).ids ∨ x ∈ nonNegative ids) ↔
          (x ∈ s.ids ∨ x ∈ id :: nonNegative ids) := by
        intro x
        rw [IdSet.mem_set, mem_cons, or_assoc]
        exact or_congr_right (or_congr_left ⟨And.left, fun hx => ⟨hx, hpos⟩⟩)
      obtain ⟨hr, hmem, hcount⟩ := ih (s.set id)
        (if !s.get id then r else { r with duplicateIds := r.duplicateIds ++ [id] })
      rw [hstep, hnon]
      refine ⟨?_, fun x => (hmem x).trans (hset x), ?_⟩
      · rw [hr]
        cases s.get id <;> simp [hneg]
      · rw [hcount]
        cases hget : s.get id with
        | true =>
          simp only [hget, if_true] at hlen
          simp only [Bool.not_true, Bool.false_eq_true, if_false, length_append,
            length_cons, length_nil]
          omega
        | false =>
          simp only [hget, Bool.false_eq_true, if_false] at hlen
          simp only [Bool.not_false, if_true, length_cons]
          omega

lemma settleOverflow_spec (s : IdSet) (r : BlobVerifyResult) :
    let out := settleOverflow s r
    SettledFrom r out.2 ∧ (∀ x, x ∈ out.1.ids ↔ x ∈ s.ids ∨ x ∈ nonNegative r.outOfRangeIds) ∧
      out.2.duplicateIds.length + out.1.ids.length =
        r.duplicateIds.length + s.ids.length + (nonNegative r.outOfRangeIds).length := by
  obtain ⟨hr, hmem, hcount⟩ := foldl_settleId r.outOfRangeIds s { r with outOfRangeIds := [] }
  refine ⟨?_, hmem, hcount⟩
  rw [settleOverflow, hr]
  exact ⟨rfl, rfl, rfl, rfl, nil_append _⟩

/-- The duplicates the filled slots hold. -/
def slotDuplicates (slots : List (Option BlobVerifyResult)) : Nat :=
  (slots.map fun
    | some r => r.duplicateIds.length
    | none => 0).sum

lemma slotDuplicates_set {slots : List (Option BlobVerifyResult)} {i : Nat}
    {r : BlobVerifyResult} (h : slots[i]? = some none) :
    slotDuplicates (slots.set i (some r)) = slotDuplicates slots + r.duplicateIds.length := by
  induction slots generalizing i with
  | nil => cases h
  | cons slot slots ih =>
    cases i with
    | zero =>
      cases h
      simp only [set_cons_zero, slotDuplicates, map_cons, sum_cons]
      omega
    | succ i =>
      have := ih (i := i) h
      simp only [slotDuplicates] at this
      simp only [set_cons_succ, slotDuplicates, map_cons, sum_cons, this]
      omega

lemma slotDuplicates_empty (n : Nat) : slotDuplicates (replicate n none) = 0 := by
  simp [slotDuplicates]

/-- The results of the blobs `xs`, put into free slots. -/
structure Filled (s s' : Slots) (xs : List (Nat × BlobVerifyResult)) : Prop where
  length : s'.perBlob.length = s.perBlob.length
  slot : ∀ x ∈ xs, ∃ r, s'.perBlob[x.1]? = some (some r) ∧ SettledFrom x.2 r
  others : ∀ i, i ∉ xs.map Prod.fst → s'.perBlob[i]? = s.perBlob[i]?
  overflow : ∀ x, x ∈ s'.overflow.ids ↔
    x ∈ s.overflow.ids ∨ x ∈ xs.flatMap fun y => nonNegative y.2.outOfRangeIds
  duplicates : slotDuplicates s'.perBlob + s'.overflow.ids.length =
    slotDuplicates s.perBlob + s.overflow.ids.length +
      (xs.map fun y => y.2.duplicateIds.length).sum +
      (xs.flatMap fun y => nonNegative y.2.outOfRangeIds).length

lemma arrive_filled {s : Slots} {i : Nat} {r : BlobVerifyResult}
    (hfree : s.perBlob[i]? = some none) : Filled s (s.arrive i r) [(i, r)] := by
  obtain ⟨hsettled, hmem, hcount⟩ := settleOverflow_spec s.overflow r
  have hlt : i < s.perBlob.length := (List.getElem?_eq_some_iff.mp hfree).1
  refine ⟨List.length_set, ?_, ?_, ?_, ?_⟩
  · intro x hx
    rw [mem_singleton.mp hx]
    exact ⟨_, getElem?_set_self hlt, hsettled⟩
  · intro j hj
    refine getElem?_set_ne ?_
    rintro rfl
    simp at hj
  · intro x
    simpa [Slots.arrive] using hmem x
  · have hset := @slotDuplicates_set s.perBlob i (settleOverflow s.overflow r).2 hfree
    simp only [Slots.arrive, hset, map_cons, map_nil, sum_cons, sum_nil,
      flatMap_cons, flatMap_nil, append_nil]
    omega

lemma Filled.cons {s s₁ s₂ : Slots} {x : Nat × BlobVerifyResult}
    {xs : List (Nat × BlobVerifyResult)} (h : Filled s s₁ [x]) (h' : Filled s₁ s₂ xs)
    (hnew : x.1 ∉ xs.map Prod.fst) : Filled s s₂ (x :: xs) := by
  refine ⟨h'.length.trans h.length, ?_, ?_, ?_, ?_⟩
  · intro y hy
    rcases mem_cons.mp hy with rfl | hy
    · rw [h'.others y.1 hnew]
      exact h.slot y mem_cons_self
    · exact h'.slot y hy
  · intro i hi
    rw [map_cons, mem_cons, not_or] at hi
    rw [h'.others i hi.2]
    exact h.others i (by simpa using hi.1)
  · intro y
    rw [h'.overflow, h.overflow]
    simp [or_assoc]
  · have hfirst := h.duplicates
    have hrest := h'.duplicates
    simp only [map_cons, map_nil, sum_cons, sum_nil, flatMap_cons,
      flatMap_nil, append_nil, length_append] at hfirst ⊢
    omega

lemma foldl_arrive (xs : List (Nat × BlobVerifyResult)) (s : Slots)
    (hnodup : (xs.map Prod.fst).Nodup) (hfree : ∀ x ∈ xs, s.perBlob[x.1]? = some none) :
    Filled s (xs.foldl (fun s x => s.arrive x.1 x.2) s) xs := by
  induction xs generalizing s with
  | nil => exact ⟨rfl, by simp, fun _ _ => rfl, by simp, by simp⟩
  | cons x xs ih =>
    rw [map_cons, nodup_cons] at hnodup
    have hone := @arrive_filled s x.1 x.2 (hfree x mem_cons_self)
    refine hone.cons (ih _ hnodup.2 fun y hy => ?_) hnodup.1
    rw [hone.others y.1 ?_]
    · exact hfree y (mem_cons_of_mem _ hy)
    · rw [map_cons, map_nil, mem_singleton]
      intro heq
      exact hnodup.1 (heq ▸ mem_map_of_mem hy)

lemma results_of_slots {β : Type} {P : β → BlobVerifyResult → Prop} {schedule : List β}
    {slots : List (Option BlobVerifyResult)} (hlen : slots.length = schedule.length)
    (h : ∀ (i : Nat) b, schedule[i]? = some b → ∃ r, slots[i]? = some (some r) ∧ P b r) :
    ∃ results, slots = results.map some ∧ List.Forall₂ P schedule results := by
  induction schedule generalizing slots with
  | nil => exact ⟨[], length_eq_zero_iff.mp hlen, .nil⟩
  | cons b schedule ih =>
    cases slots with
    | nil => cases hlen
    | cons slot slots =>
      obtain ⟨r, hr, hP⟩ := h 0 b rfl
      cases hr
      obtain ⟨results, rfl, hall⟩ := ih (Nat.succ.inj hlen) fun i b' hb' => h (i + 1) b' hb'
      exact ⟨r :: results, rfl, .cons hP hall⟩

/-- What a phase's results say of the ids of one kind. -/
structure Settled (full : Bool) (ids : List Int64) (r : BlobVerifyResult) : Prop where
  count : r.count = ids.length
  first : r.firstId = ids.head?
  last : r.lastId = ids.getLast?
  within : r.withinViolations.length = descents ids
  outOfRange : r.outOfRangeIds.length = if full then negatives ids else 0

/-- One kind's slots after a phase over blobs with these ids of the kind. -/
def KindDone (full : Bool) (perBlobIds : List (List Int64))
    (slots : List (Option BlobVerifyResult)) : Prop :=
  ∃ results, slots = results.map some ∧ List.Forall₂ (Settled full) perBlobIds results ∧
    (results.map fun r => r.duplicateIds.length).sum =
      if full then repeats perBlobIds.flatten else 0

lemma Judged.settled {cov : Int64 → Bool} {full : Bool} {k : ElementKind} {ids : List Int64}
    {t : List (SetOp × Bool)} {r r' : BlobVerifyResult} (h : Judged cov full k ids t r)
    (hcov : ∀ id, cov id = true → 0 ≤ id.toInt) (hs : SettledFrom r r') : Settled full ids r' := by
  refine ⟨hs.count.trans h.count, hs.first.trans h.first, hs.last.trans h.last, ?_, ?_⟩
  · rw [hs.within, h.within]
  · rw [hs.outOfRange, h.outOfRange]
    cases full with
    | false => rfl
    | true =>
      rw [if_pos rfl, if_pos rfl, filter_filter, negatives, countP_eq_length_filter]
      refine congrArg length (filter_congr fun id _ => ?_)
      cases hc : cov id with
      | false => simp
      | true => simpa using hcov id hc

section Account

variable {cov : Int64 → Bool} {full : Bool} {k : ElementKind} {perBlobIds : List (List Int64)}
  {trace : Nat → List (SetOp × Bool)} {merged : List (Nat × BlobVerifyResult)}

/-- Places of a list, each read by its place. -/
theorem flatMap_range {α β : Type} (l : List α) (f : α → List β) :
    ((range l.length).flatMap fun i => (l[i]?).elim [] f) = l.flatMap f := by
  induction l using reverseRecOn with
  | nil => rfl
  | append_singleton l a ih =>
    rw [length_append, length_singleton, range_succ, flatMap_append, flatMap_append, ← ih]
    refine congrArg₂ (· ++ ·) (flatMap_congr fun i hi => ?_) ?_
    · rw [getElem?_append_left (mem_range.mp hi)]
    · simp

/-- What the blobs report in their order of arrival, in the order of the file. -/
theorem perm_of_places {β : Type} (hplaces : (merged.map Prod.fst).Perm
      (range perBlobIds.length)) {f : Nat × BlobVerifyResult → List β} {g : List Int64 → List β}
    (hfg : ∀ x ∈ merged, ∃ ids, perBlobIds[x.1]? = some ids ∧ f x = g ids) :
    (merged.flatMap f).Perm (perBlobIds.flatMap g) := by
  have hplace : merged.flatMap f =
      (merged.map Prod.fst).flatMap fun i => (perBlobIds[i]?).elim [] g := by
    rw [flatMap_map]
    refine flatMap_congr fun x hx => ?_
    obtain ⟨ids, hids, heq⟩ := hfg x hx
    rw [hids, heq]
    rfl
  rw [hplace, ← flatMap_range perBlobIds]
  exact hplaces.flatMap_right _

lemma filter_flatten (p : Int64 → Bool) (xss : List (List Int64)) :
    (xss.flatMap fun ids => ids.filter p) = xss.flatten.filter p := by
  rw [List.filter_flatten, List.flatMap_def]

/-- The repeats of the phase: the shared set refuses those it covers, the side set finds the
others. -/
theorem repeats_split {covered outside : List Int64} {ids : List Int64}
    (hcov : ∀ id, cov id = true → 0 ≤ id.toInt) (hin : covered.Perm (ids.filter cov))
    (hout : outside.Perm (nonNegative (ids.filter fun id => !cov id))) :
    repeats ids + covered.dedup.length + outside.dedup.length =
      covered.length + outside.length := by
  have hA : ids.filter cov = (nonNegative ids).filter cov := by
    rw [nonNegative, filter_filter]
    refine filter_congr fun id _ => ?_
    cases hc : cov id with
    | false => rfl
    | true => simpa using hcov id hc
  have hB : nonNegative (ids.filter fun id => !cov id) =
      (nonNegative ids).filter fun id => !cov id := by
    rw [nonNegative, nonNegative, filter_filter, filter_filter]
    exact filter_congr fun id _ => Bool.and_comm _ _
  have hlen := length_eq_length_filter_add (l := nonNegative ids) cov
  have hdedup := length_dedup_filter cov (nonNegative ids)
  have hle : (nonNegative ids).dedup.length ≤ (nonNegative ids).length :=
    (dedup_sublist _).length_le
  rw [hA] at hin
  rw [hB] at hout
  rw [hin.length_eq, hout.length_eq, hin.dedup.length_eq, hout.dedup.length_eq, repeats]
  omega

/-- A finished phase: its history holds the traces, its arrivals are the blobs, each judged. -/
structure Finished (cov : Int64 → Bool) (full : Bool) (k : ElementKind)
    (perBlobIds : List (List Int64)) (history : List (SetOp × Bool))
    (trace : Nat → List (SetOp × Bool)) (merged : List (Nat × BlobVerifyResult)) : Prop where
  perm : history.Perm ((range perBlobIds.length).flatMap trace)
  places : (merged.map Prod.fst).Perm (range perBlobIds.length)
  judged : ∀ x ∈ merged, ∃ ids, perBlobIds[x.1]? = some ids ∧
    Judged cov full k ids (trace x.1) x.2

variable {history : List (SetOp × Bool)}

lemma Finished.filterMap {β : Type}
    (h : Finished cov full k perBlobIds history trace merged) (f : SetOp × Bool → Option β) :
    (history.filterMap f).Perm (merged.flatMap fun x => (trace x.1).filterMap f) := by
  have hrange := h.places.flatMap_right fun i => (trace i).filterMap f
  rw [flatMap_map] at hrange
  refine (h.perm.filterMap f).trans ?_
  rw [filterMap_flatMap]
  exact hrange.symm

lemma Finished.asked (h : Finished cov full k perBlobIds history trace merged) :
    (asked k history).Perm (if full then perBlobIds.flatten.filter cov else []) := by
  have hmerged : (merged.flatMap fun x => VerifyIds.asked k (trace x.1)).Perm
      (perBlobIds.flatMap fun ids => if full then ids.filter cov else []) := by
    refine perm_of_places h.places fun x hx => ?_
    obtain ⟨ids, hids, hj⟩ := h.judged x hx
    exact ⟨ids, hids, hj.asked⟩
  refine (h.filterMap _).trans (hmerged.trans ?_)
  cases full with
  | false => simp
  | true => exact List.Perm.of_eq (filter_flatten _ _)

lemma Finished.refused (h : Finished cov full k perBlobIds history trace merged) :
    (refused k history).length = (merged.map fun y => y.2.duplicateIds.length).sum := by
  refine (h.filterMap _).length_eq.trans ?_
  rw [length_flatMap]
  refine congrArg sum (map_congr_left fun x hx => ?_)
  obtain ⟨ids, -, hj⟩ := h.judged x hx
  rw [hj.duplicates]
  rfl

lemma Finished.outside (h : Finished cov full k perBlobIds history trace merged) :
    (merged.flatMap fun y => nonNegative y.2.outOfRangeIds).Perm
      (if full then nonNegative (perBlobIds.flatten.filter fun id => !cov id) else []) := by
  have hmerged : (merged.flatMap fun y => nonNegative y.2.outOfRangeIds).Perm
      (perBlobIds.flatMap fun ids =>
        if full then nonNegative (ids.filter fun id => !cov id) else []) := by
    refine perm_of_places h.places fun x hx => ?_
    obtain ⟨ids, hids, hj⟩ := h.judged x hx
    refine ⟨ids, hids, ?_⟩
    rw [hj.outOfRange]
    cases full <;> rfl
  refine hmerged.trans ?_
  cases full with
  | false => simp
  | true =>
    simp only [if_true]
    rw [← filter_flatten, nonNegative, filter_flatMap]
    exact .rfl

/-- The results of the phase in the order of the file, with the duplicates they hold. -/
theorem Finished.results (h : Finished cov full k perBlobIds history trace merged)
    (hcov : ∀ id, cov id = true → 0 ≤ id.toInt) {slots : Slots}
    (hfilled : Filled (Slots.empty perBlobIds.length) slots merged) :
    ∃ results, slots.perBlob = results.map some ∧ List.Forall₂ (Settled full) perBlobIds results ∧
      (results.map fun r => r.duplicateIds.length).sum = slotDuplicates slots.perBlob := by
  have hlen : slots.perBlob.length = perBlobIds.length := by
    rw [hfilled.length]
    exact length_replicate
  have hslot : ∀ (i : Nat) ids, perBlobIds[i]? = some ids →
      ∃ r, slots.perBlob[i]? = some (some r) ∧ Settled full ids r := by
    intro i ids hi
    have hmem : i ∈ merged.map Prod.fst :=
      h.places.mem_iff.mpr (List.mem_range.mpr (List.getElem?_eq_some_iff.mp hi).1)
    obtain ⟨x, hx, rfl⟩ := List.mem_map.mp hmem
    obtain ⟨ids', hids', hj⟩ := h.judged x hx
    cases hi.symm.trans hids'
    obtain ⟨r, hr, hsettled⟩ := hfilled.slot x hx
    exact ⟨r, hr, hj.settled hcov hsettled⟩
  obtain ⟨results, hslots, hall⟩ := results_of_slots hlen hslot
  refine ⟨results, hslots, hall, ?_⟩
  rw [hslots, slotDuplicates, map_map]
  rfl

lemma kindDone {sets sets' : Sets} (hfull : full = (sets k).isSome)
    (hempty : ∀ set, sets k = some set → set.ids = []) (hexec : Exec sharedSets sets history sets')
    (h : Finished (sets.covers k) full k perBlobIds history trace merged) : KindDone full perBlobIds
      (merged.foldl (fun s x => s.arrive x.1 x.2) (Slots.empty perBlobIds.length)).perBlob := by
  have hcov : ∀ id, sets.covers k id = true → 0 ≤ id.toInt := fun id hid => nonneg_of_covers hid
  have hnodup : (merged.map Prod.fst).Nodup := h.places.nodup_iff.mpr nodup_range
  have hfilled := foldl_arrive merged (Slots.empty perBlobIds.length) hnodup fun x hx => by
    have hlt : x.1 < perBlobIds.length :=
      mem_range.mp (h.places.mem_iff.mp (mem_map_of_mem hx))
    simp [Slots.empty, hlt]
  obtain ⟨results, hslots, hall, hsum⟩ := h.results hcov hfilled
  refine ⟨results, hslots, hall, ?_⟩
  have hcount := hfilled.duplicates
  have hoverflow : (merged.foldl (fun s x => s.arrive x.1 x.2)
      (Slots.empty perBlobIds.length)).overflow.ids.length =
        (merged.flatMap fun y => nonNegative y.2.outOfRangeIds).dedup.length :=
    IdSet.len_eq fun x => (hfilled.overflow x).trans (by simp [Slots.empty])
  have hnone : slotDuplicates (Slots.empty perBlobIds.length).perBlob = 0 :=
    slotDuplicates_empty _
  rw [hoverflow, ← h.refused, hnone] at hcount
  have hstart : (Slots.empty perBlobIds.length).overflow.ids.length = 0 := rfl
  have hasked := h.asked
  have houtside := h.outside
  cases full with
  | false =>
    have hrefused := refused_le_asked k history
    simp only [Bool.false_eq_true, if_false] at hasked houtside ⊢
    rw [houtside.eq_nil] at hcount
    rw [hasked.eq_nil, length_nil] at hrefused
    simp only [dedup_nil, length_nil] at hcount
    omega
  | true =>
    obtain ⟨set, hset⟩ := Option.isSome_iff_exists.mp hfull.symm
    simp only [if_true] at hasked houtside ⊢
    have hpos : ∀ id ∈ asked k history, 0 ≤ id.toInt := fun id hid =>
      hcov id (mem_filter.mp (hasked.mem_iff.mp hid)).2
    obtain ⟨set', -, hmem, hset'⟩ := refused_of_exec hexec hset (hempty set hset) hpos
    have hlen : set'.ids.length = (asked k history).dedup.length := IdSet.len_eq hmem
    have hsplit := repeats_split hcov hasked houtside
    omega

end Account

end VerifyIds
