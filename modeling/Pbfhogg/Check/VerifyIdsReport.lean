import Mathlib.Tactic.Ring
import Pbfhogg.Check.VerifyIdsSpans

/-!
# What the id check reports

The per-blob judgements, the steps between blobs, the answers of the shared sets and the spans of
the kinds add up to one count over the file.
-/

namespace VerifyIds

open OsmId BlobMeta SharedPool IdSpace List Function Option
open TagExpr (TypeFilter)

variable {idSet : Option IdSet} {blobs : List ScheduledBlob}

def capped (limit : Option Nat) (vs : List IdViolation) : List IdViolation :=
  match limit with
  | none => vs
  | some n => vs.take n

/-- The tally of the violations `all`. -/
structure Holds (limit : Option Nat) (all : List IdViolation) (t : Tally) : Prop where
  stored : t.violations = capped limit all
  total : t.total = all.length

section Tallies

variable {limit : Option Nat} {all : List IdViolation} {t : Tally}

lemma holds_nil (limit : Option Nat) : Holds limit [] {} := by
  cases limit with
  | none => exact ⟨rfl, rfl⟩
  | some n => exact ⟨take_nil.symm, rfl⟩

lemma Holds.record (h : Holds limit all t) (v : IdViolation) :
    Holds limit (all ++ [v]) (t.record limit v) := by
  refine ⟨?_, ?_⟩
  · cases limit with
    | none =>
      have hstored : t.violations = all := h.stored
      simp [Tally.record, shouldStoreViolation, capped, hstored]
    | some n =>
      have hstored : t.violations = all.take n := h.stored
      have hlen : (all.take n).length = min n all.length := length_take
      simp only [Tally.record, shouldStoreViolation, capped, hstored, hlen]
      by_cases hlt : all.length < n
      · have hstore : min n all.length < n := by omega
        have hlong : (all ++ [v]).length ≤ n := by
          rw [length_append, length_singleton]
          omega
        rw [if_pos (decide_eq_true hstore), take_of_length_le hlt.le, take_of_length_le hlong]
      · have hstore : ¬ min n all.length < n := by omega
        rw [if_neg (by simpa using hstore), take_append_of_le_length (by omega)]
  · rw [Tally.record, h.total, length_append, length_singleton]

lemma Holds.foldl {β : Type} (h : Holds limit all t) (f : β → IdViolation) (xs : List β) :
    Holds limit (all ++ xs.map f) (xs.foldl (fun t x => t.record limit (f x)) t) := by
  induction xs generalizing all t with
  | nil => simpa using h
  | cons x xs ih => simpa using ih (h.record (f x))

/-- What is stored behind the violations stored already. -/
theorem Holds.append {maxErrors : Nat} {more : List IdViolation} {t' : Tally}
    (h : Holds (effectiveErrorLimit maxErrors) all t)
    (h' : Holds (remainingErrorLimit maxErrors t.violations.length) more t') :
    Holds (effectiveErrorLimit maxErrors) (all ++ more)
      ⟨t.violations ++ t'.violations, t.total + t'.total⟩ := by
  refine ⟨?_, by rw [h.total, h'.total, length_append]⟩
  have hstored := h.stored
  have hstored' := h'.stored
  by_cases hzero : maxErrors = 0
  · simp only [remainingErrorLimit, effectiveErrorLimit, hzero, if_true, map_none,
      capped] at hstored hstored' ⊢
    rw [hstored, hstored']
  · simp only [remainingErrorLimit, effectiveErrorLimit, hzero, if_false, map_some,
      capped] at hstored hstored' ⊢
    rw [hstored', hstored, take_append, length_take]
    congr 2
    omega

lemma Holds.length {maxErrors : Nat} (h : Holds (effectiveErrorLimit maxErrors) all t) :
    t.violations.length = if maxErrors = 0 then t.total else min t.total maxErrors := by
  rw [h.stored, h.total]
  by_cases hzero : maxErrors = 0
  · simp [effectiveErrorLimit, capped, hzero]
  · simp [effectiveErrorLimit, capped, hzero, Nat.min_comm]

end Tallies

/-- The violations of one kind's ids. -/
def kindViolations (full : Bool) (ids : List Int64) : Nat :=
  descents ids + if full then repeats ids + negatives ids else 0

section Merge

variable {full : Bool} {kind : ElementKind} {limit : Option Nat} {ids ids' : List Int64}
  {dups : Nat} {m : Merged} {r : BlobVerifyResult}

/-- The results of some blobs merged: their ids, and the duplicates they hold. -/
structure MergedSo (full : Bool) (limit : Option Nat) (ids : List Int64) (dups : Nat)
    (m : Merged) : Prop where
  count : m.count = ids.length
  prev : m.prevLast = ids.getLast?
  tally : ∃ all, Holds limit all m.tally ∧
    all.length = descents ids + dups + if full then negatives ids else 0

lemma negatives_append (xs ys : List Int64) :
    negatives (xs ++ ys) = negatives xs + negatives ys := countP_append

/-- The step between two blobs. -/
theorem bridge_tally {all : List IdViolation} {t : Tally} (h : Holds limit all t)
    (prev next : Option Int64) :
    ∃ all', Holds limit all'
        (match prev, next with
          | some pl, some fi =>
            if notAfter fi pl then t.record limit (.nonMonotonic kind.asStr fi pl) else t
          | _, _ => t) ∧
      all'.length = all.length + bridge prev next := by
  cases prev with
  | none => exact ⟨all, h, by simp⟩
  | some pl =>
    cases next with
    | none => exact ⟨all, h, by simp⟩
    | some fi =>
      by_cases hn : notAfter fi pl = true
      · simp only [hn, if_true, bridge]
        exact ⟨_, h.record _, by simp⟩
      · simp only [hn, bridge]
        exact ⟨all, h, by simp⟩

lemma mergeBlob_spec (h : MergedSo full limit ids dups m) (hr : Settled full ids' r) :
    ∃ m', mergeBlob kind limit m (some r) = .ok m' ∧
      MergedSo full limit (ids ++ ids') (dups + r.duplicateIds.length) m' := by
  refine ⟨_, rfl, ?_, ?_, ?_⟩
  · rw [h.count, hr.count, length_append]
  · rw [hr.last, h.prev, getLast?_append]
    cases ids'.getLast? <;> rfl
  · obtain ⟨all, hholds, hlen⟩ := h.tally
    have hwithin := hholds.foldl id r.withinViolations
    obtain ⟨all', hbridge, hlen'⟩ := @bridge_tally kind limit _ _ hwithin m.prevLast r.firstId
    have hdup := hbridge.foldl (fun id => .duplicate kind.asStr id) r.duplicateIds
    have hout := hdup.foldl (fun id => .idOutOfRange kind.asStr id) r.outOfRangeIds
    refine ⟨_, hout, ?_⟩
    rw [length_append, length_append, hlen', length_append, hlen, length_map,
      length_map, length_map, hr.within, hr.outOfRange, h.prev, hr.first,
      descents_append, negatives_append]
    cases full with
    | false =>
      simp only [Bool.false_eq_true, if_false]
      ring
    | true =>
      simp only [if_true]
      ring

lemma mergeKind_spec {perBlobIds : List (List Int64)} {slots : List (Option BlobVerifyResult)}
    (h : KindDone full perBlobIds slots) :
    ∃ m, mergeKind slots kind limit = .ok m ∧ m.count = perBlobIds.flatten.length ∧
      ∃ all, Holds limit all m.tally ∧ all.length = kindViolations full perBlobIds.flatten := by
  obtain ⟨results, rfl, hall, hdups⟩ := h
  have hgen : ∀ (m : Merged) (ids : List Int64) (dups : Nat), MergedSo full limit ids dups m →
      ∃ m', (results.map some).foldlM (mergeBlob kind limit) m = .ok m' ∧
        MergedSo full limit (ids ++ perBlobIds.flatten)
          (dups + (results.map fun r => r.duplicateIds.length).sum) m' := by
    clear hdups
    induction hall with
    | nil =>
      intro m ids dups hm
      exact ⟨m, rfl, by simpa using hm⟩
    | cons hr _ ih =>
      intro m ids dups hm
      obtain ⟨m₁, hm₁, hso⟩ := @mergeBlob_spec full kind limit ids _ dups m _ hm hr
      obtain ⟨m₂, hm₂, hso₂⟩ := ih m₁ _ _ hso
      refine ⟨m₂, ?_, ?_⟩
      · rw [map_cons, foldlM_cons, hm₁]
        exact hm₂
      · simpa [Nat.add_assoc] using hso₂
  have hstart : MergedSo full limit [] 0 {} := by
    refine ⟨rfl, rfl, [], holds_nil limit, ?_⟩
    cases full <;> rfl
  obtain ⟨m, hm, hso⟩ := hgen {} [] 0 hstart
  rw [nil_append, Nat.zero_add, hdups] at hso
  obtain ⟨all, hholds, hlen⟩ := hso.tally
  refine ⟨m, hm, hso.count, all, hholds, ?_⟩
  rw [hlen, kindViolations]
  cases full with
  | false => simp
  | true =>
    simp only [if_true]
    ring

end Merge

/-- How many of the pairs of kinds are inverted. -/
def inversions (inverted : ElementKind → ElementKind → Bool) : Nat :=
  kindPairs.countP fun pair => inverted pair.1 pair.2

lemma checkTypeOrder_spec {K : Type} [LinearOrder K] (spans : KindSpans K) (limit : Option Nat) :
    ∃ all, Holds limit all (checkTypeOrder spans limit {}) ∧
      all.length = inversions (pastFirst spans) := by
  have hgen : ∀ (pairs : List (ElementKind × ElementKind)) (all : List IdViolation) (t : Tally),
      Holds limit all t → ∃ all', Holds limit all'
        (pairs.foldl
          (fun t pair =>
            if pastFirst spans pair.1 pair.2 then
              t.record limit (.typeOrder pair.1.asStr pair.2.asStr)
            else t) t) ∧
        all'.length = all.length + pairs.countP fun pair => pastFirst spans pair.1 pair.2 := by
    intro pairs
    induction pairs with
    | nil => exact fun all t h => ⟨all, h, rfl⟩
    | cons pair pairs ih =>
      intro all t h
      rw [foldl_cons, countP_cons]
      by_cases hp : pastFirst spans pair.1 pair.2 = true
      · obtain ⟨all', hall', hlen⟩ := ih _ _ (h.record (.typeOrder pair.1.asStr pair.2.asStr))
        simp only [hp, if_true]
        refine ⟨all', hall', ?_⟩
        rw [hlen, length_append, length_singleton]
        omega
      · obtain ⟨all', hall', hlen⟩ := ih _ _ h
        simp only [hp, Bool.false_eq_true, if_false]
        exact ⟨all', hall', hlen⟩
  obtain ⟨all, hall, hlen⟩ := hgen kindPairs [] {} (holds_nil limit)
  exact ⟨all, hall, hlen.trans (Nat.zero_add _)⟩

section Scan

variable {full : Bool} {select : ElementKind → Bool} {idsOf : ElementKind → List Int64}
  {maxErrors start : Nat} {done : List ElementKind} {s : Scanned} {k : ElementKind}

/-- The scan once some kinds are merged behind `start` violations of the type order. -/
structure ScanSo (full : Bool) (select : ElementKind → Bool) (idsOf : ElementKind → List Int64)
    (maxErrors start : Nat) (done : List ElementKind) (s : Scanned) : Prop where
  counts : ∀ k, s.counts k = if k ∈ done ∧ select k = true then (idsOf k).length else 0
  tally : ∃ all, Holds (effectiveErrorLimit maxErrors) all s.tally ∧
    all.length = start +
      ((done.filter select).map fun k => kindViolations full (idsOf k)).sum

lemma scanSo_start {K : Type} [LinearOrder K] (spans : KindSpans K) :
    ScanSo full select idsOf maxErrors (inversions (pastFirst spans)) []
      { tally := checkTypeOrder spans (effectiveErrorLimit maxErrors) {} } := by
  refine ⟨fun k => by simp, ?_⟩
  obtain ⟨all, hall, hlen⟩ := checkTypeOrder_spec spans (effectiveErrorLimit maxErrors)
  exact ⟨all, hall, hlen⟩

lemma ScanSo.skip (h : ScanSo full select idsOf maxErrors start done s)
    (hk : select k = false) : ScanSo full select idsOf maxErrors start (done ++ [k]) s := by
  refine ⟨fun k' => ?_, ?_⟩
  · rw [h.counts]
    by_cases heq : k' = k
    · subst heq
      simp [hk]
    · simp [heq]
  · simpa [filter_append, hk] using h.tally

lemma ScanSo.merge (h : ScanSo full select idsOf maxErrors start done s)
    (hk : select k = true) {perBlobIds : List (List Int64)}
    {slots : List (Option BlobVerifyResult)} (hdone : KindDone full perBlobIds slots)
    (hids : perBlobIds.flatten = idsOf k) : ∃ s', s.merge maxErrors k slots = .ok s' ∧
      ScanSo full select idsOf maxErrors start (done ++ [k]) s' := by
  obtain ⟨m, hm, hcount, more, hmore, hlen⟩ := @mergeKind_spec full k
    (remainingErrorLimit maxErrors s.tally.violations.length) perBlobIds slots hdone
  refine ⟨{ counts := update s.counts k m.count
            tally := ⟨s.tally.violations ++ m.tally.violations, s.tally.total + m.tally.total⟩ },
    ?_, fun k' => ?_, ?_⟩
  · rw [Scanned.merge, hm]
    rfl
  · by_cases heq : k' = k
    · subst heq
      simp [hk, hcount, hids]
    · simp [heq, h.counts k']
  · obtain ⟨all, hall, htotal⟩ := h.tally
    refine ⟨all ++ more, hall.append hmore, ?_⟩
    rw [length_append, htotal, hlen, hids, filter_append, map_append, sum_append]
    simp [hk, Nat.add_assoc]

end Scan

section Phases

variable {workers : Nat} {schedule : List ScheduledBlob} {sets : Sets}

lemma phase_account {R A : Type} {project : ScheduledBlob → BlobJob R} {merge : A → Nat × R → A}
    {acc : A} {post : ScheduledBlob → List (SetOp × Bool) → R → Prop}
    {out : Except PbfError (Sets × A)}
    (h : parallelProjectPhase workers schedule project merge sets acc out)
    (hjobs : ∀ b ∈ schedule, (project b).Ensures (Contract sets.covers) (post b)) :
    ∃ (sets' : Sets) (history : List (SetOp × Bool)) (trace : Nat → List (SetOp × Bool))
      (merged : List (Nat × R)), out = .ok (sets', merged.foldl merge acc) ∧
      Exec sharedSets sets history sets' ∧ history.Perm ((range schedule.length).flatMap trace) ∧
      (merged.map Prod.fst).Perm (range schedule.length) ∧
      ∀ x ∈ merged, ∃ b, schedule[x.1]? = some b ∧ post b (trace x.1) x.2 := by
  have hspec := @Phase.outcome_account Sets SetOp PbfError R A sharedSets workers merge
    (schedule.map project) sets acc out (fun _ => True) (Contract sets.covers)
    (fun i t r => ∃ b, schedule[i]? = some b ∧ post b t r) h
    (fun j _ => Job.asks_any (fun _ => trivial) j)
    (fun history s' hexec _ => (contract_of_exec hexec).2)
    (by
      intro i j hj
      rw [getElem?_map, map_eq_some_iff] at hj
      obtain ⟨b, hb, rfl⟩ := hj
      exact (hjobs b (mem_of_getElem? hb)).imp fun t r hpost => ⟨b, hb, hpost⟩)
  obtain ⟨sets', history, trace, merged, hout, hexec, -, hperm, hplaces, hpost⟩ := hspec
  rw [length_map] at hperm hplaces
  exact ⟨sets', history, trace, merged, hout, hexec, hperm, hplaces, hpost⟩

lemma phase_exists {R A : Type} {project : ScheduledBlob → BlobJob R} {merge : A → Nat × R → A}
    {acc : A} (hw : 0 < workers) :
    ∃ out, parallelProjectPhase workers schedule project merge sets acc out :=
  Phase.exists_outcome hw sets acc _

/-- A phase that finishes has read every blob. -/
theorem readable_of_phase {R A : Type} {project : ScheduledBlob → BlobJob R}
    {merge : A → Nat × R → A} {acc : A} {out : Sets × A}
    (h : parallelProjectPhase workers schedule project merge sets acc (.ok out))
    (hfail : ∀ b, ¬ b.Readable → ∃ e, project b = .fail e) : ∀ b ∈ schedule, b.Readable := by
  intro b hb
  by_contra hnot
  obtain ⟨e, he⟩ := hfail b hnot
  exact Phase.not_ok_of_fail (mem_map.mpr ⟨b, hb, he⟩) h

lemma verifyBlob_fails {k : ElementKind} {atomicIds : Option ElementKind} {b : ScheduledBlob}
    (h : ¬ b.Readable) : ∃ e, verifyBlob k atomicIds b = .fail e := by
  obtain ⟨e, he⟩ := fail_of_not_readable h
  exact ⟨e, by rw [verifyBlob, he, Job.fail_bind]⟩

variable {select : ElementKind → Bool}

lemma verifyUnindexed_fails {atomicIds : ElementKind → Option ElementKind} {b : ScheduledBlob}
    (h : ¬ b.Readable) :
    ∃ e, verifyUnindexed select atomicIds b = .fail e := by
  obtain ⟨e, he⟩ := fail_of_not_readable h
  exact ⟨e, by rw [verifyUnindexed, he, Job.fail_bind]⟩

lemma handle_eq (sets : Sets) (k : ElementKind) :
    handle sets k = if (sets k).isSome then some k else none := by
  unfold handle
  cases sets k <;> rfl

lemma kindPhase_outcome {kind : ElementKind} (hempty : ∀ set, idSet = some set → set.ids = [])
    (hread : ∀ b ∈ schedule, b.Readable)
    {out : Except PbfError (Option IdSet × List (Option BlobVerifyResult))}
    (h : kindPhase workers schedule kind idSet out) :
    ∃ x, out = .ok x ∧ KindDone idSet.isSome (schedule.map (ScheduledBlob.ids kind)) x.2 := by
  have hset : (update (fun _ => none) kind idSet : Sets) kind = idSet :=
    update_self ..
  have hspec : ∀ b ∈ schedule, (verifyBlob kind
      (handle (update (fun _ => none) kind idSet) kind) b).Ensures
        (Contract (Sets.covers (update (fun _ => none) kind idSet)))
        fun t r => Judged (Sets.covers (update (fun _ => none) kind idSet) kind)
          idSet.isSome kind (b.ids kind) t r := by
    intro b hb
    rw [handle_eq, hset]
    exact verifyBlob_spec (hread b hb)
  rcases h with ⟨e, he, rfl⟩ | ⟨x, hx, hout⟩
  · obtain ⟨sets', history, trace, merged, hok, -⟩ := phase_account he hspec
    cases hok
  · obtain ⟨sets', history, trace, merged, hok, hexec, hperm, hplaces, hmerged⟩ :=
      phase_account hx hspec
    cases hok
    refine ⟨_, hout, ?_⟩
    have hlen : (schedule.map (ScheduledBlob.ids kind)).length = schedule.length :=
      length_map _
    have hfin : Finished (Sets.covers (update (fun _ => none) kind idSet) kind)
        idSet.isSome kind (schedule.map (ScheduledBlob.ids kind)) history trace merged := by
      refine ⟨by rwa [hlen], by rwa [hlen], fun y hy => ?_⟩
      obtain ⟨b, hb, hj⟩ := hmerged y hy
      exact ⟨b.ids kind, by rw [getElem?_map, hb]; rfl, hj⟩
    have hdone := kindDone (congrArg isSome hset).symm
      (fun set hs => hempty set (hset ▸ hs)) hexec hfin
    rw [hlen] at hdone
    exact hdone

lemma kindPhase_always {kind : ElementKind} (hw : 0 < workers)
    (hempty : ∀ set, idSet = some set → set.ids = []) (hread : ∀ b ∈ schedule, b.Readable) :
    (kindPhase workers schedule kind idSet).Always fun x =>
      KindDone idSet.isSome (schedule.map (ScheduledBlob.ids kind)) x.2 ∧
        ∀ b ∈ schedule, b.Readable := by
  constructor
  · obtain ⟨out, hout⟩ := @phase_exists workers schedule
      (update (fun _ => none) kind idSet) BlobVerifyResult Slots
      (verifyBlob kind (handle (update (fun _ => none) kind idSet) kind))
      (fun slots x => slots.arrive x.1 x.2) (Slots.empty schedule.length) hw
    cases out with
    | error e => exact ⟨_, .inl ⟨e, hout, rfl⟩⟩
    | ok x => exact ⟨_, .inr ⟨x, hout, rfl⟩⟩
  · intro out h
    obtain ⟨x, hx, hdone⟩ := kindPhase_outcome hempty hread h
    exact ⟨x, hx, hdone, hread⟩

lemma kindPhase_returns {kind : ElementKind} (hempty : ∀ set, idSet = some set → set.ids = []) :
    (kindPhase workers schedule kind idSet).Returns fun x =>
      KindDone idSet.isSome (schedule.map (ScheduledBlob.ids kind)) x.2 ∧
        ∀ b ∈ schedule, b.Readable := by
  intro x hx
  have hread : ∀ b ∈ schedule, b.Readable := by
    rcases hx with ⟨e, -, hout⟩ | ⟨y, hy, -⟩
    · cases hout
    · exact readable_of_phase hy fun b hb => verifyBlob_fails hb
  obtain ⟨x', hx', hdone⟩ := kindPhase_outcome hempty hread hx
  cases hx'
  exact ⟨hdone, hread⟩

/-- One kind's slots of the combined pass. -/
theorem foldl_perKind (merged : List (Nat × UnindexedResult)) (u : Unindexed) (k : ElementKind) :
    (merged.foldl (fun u x => u.arrive x.1 x.2) u).perKind k =
      (merged.map fun x => (x.1, x.2.results k)).foldl (fun s x => s.arrive x.1 x.2)
        (u.perKind k) := by
  induction merged generalizing u with
  | nil => rfl
  | cons x merged ih => exact ih (u.arrive x.1 x.2)

/-- What the combined pass leaves. -/
structure PassDone (select : ElementKind → Bool) (sets : Sets) (blobs : List ScheduledBlob)
    (u : Unindexed) : Prop where
  slots : ∀ k, KindDone (sets k).isSome (blobs.map fun b => if select k then b.ids k else [])
    (u.perKind k).perBlob
  spans : ∀ k, IsSpan (HoldsAt blobs k) (u.spans k)

lemma unindexedPass_outcome (hempty : ∀ k set, sets k = some set → set.ids = [])
    (hread : ∀ b ∈ blobs, b.Readable) {out : Except PbfError Unindexed}
    (h : unindexedPass workers blobs select sets out) :
    ∃ u, out = .ok u ∧ PassDone select sets blobs u := by
  have hhandle : handle sets = fun k => if (sets k).isSome then some k else none :=
    funext (handle_eq sets)
  have hspec : ∀ b ∈ blobs, (verifyUnindexed select (handle sets) b).Ensures
      (Contract sets.covers) fun t x =>
        x.groups = (b.groups.foldl GroupKinds.groupEnd {}).spans ∧
          ∀ k, Judged (sets.covers k) (sets k).isSome k (if select k then b.ids k else []) t
            (x.results k) := by
    intro b hb
    rw [hhandle]
    exact @verifyUnindexed_spec sets.covers b select (fun k => (sets k).isSome) (hread b hb)
  rcases h with ⟨e, he, rfl⟩ | ⟨x, hx, hout⟩
  · obtain ⟨sets', history, trace, merged, hok, -⟩ := phase_account he hspec
    cases hok
  · obtain ⟨sets', history, trace, merged, hok, hexec, hperm, hplaces, hmerged⟩ :=
      phase_account hx hspec
    cases hok
    refine ⟨_, hout, fun k => ?_, fun k => ?_⟩
    · have hlen : (blobs.map fun b => if select k then b.ids k else []).length = blobs.length :=
        length_map _
      have hfin : Finished (sets.covers k) (sets k).isSome k
          (blobs.map fun b => if select k then b.ids k else []) history trace
          (merged.map fun x => (x.1, x.2.results k)) := by
        refine ⟨by rwa [hlen], ?_, fun y hy => ?_⟩
        · rw [hlen, List.map_map]
          exact hplaces
        · obtain ⟨x, hx, rfl⟩ := mem_map.mp hy
          obtain ⟨b, hb, -, hj⟩ := hmerged x hx
          exact ⟨_, by rw [getElem?_map, hb]; rfl, hj k⟩
      have hdone := kindDone rfl (hempty k) hexec hfin
      rw [hlen] at hdone
      rw [foldl_perKind]
      exact hdone
    · refine isSpan_unindexed k hplaces (fun x hx => ?_) rfl
      obtain ⟨b, hb, hgroups, -⟩ := hmerged x hx
      exact ⟨b, hb, hgroups⟩

lemma unindexedPass_always (hw : 0 < workers) (hempty : ∀ k set, sets k = some set → set.ids = [])
    (hread : ∀ b ∈ blobs, b.Readable) :
    (unindexedPass workers blobs select sets).Always (PassDone select sets blobs) := by
  refine ⟨?_, fun out h => unindexedPass_outcome hempty hread h⟩
  obtain ⟨out, hout⟩ := @phase_exists workers blobs sets UnindexedResult Unindexed
    (verifyUnindexed select (handle sets)) (fun u x => u.arrive x.1 x.2)
    { perKind := fun _ => Slots.empty blobs.length } hw
  cases out with
  | error e => exact ⟨_, .inl ⟨e, hout, rfl⟩⟩
  | ok x => exact ⟨_, .inr ⟨x, hout, rfl⟩⟩

lemma unindexedPass_returns (hempty : ∀ k set, sets k = some set → set.ids = []) :
    (unindexedPass workers blobs select sets).Returns (PassDone select sets blobs) := by
  intro u hu
  have hread : ∀ b ∈ blobs, b.Readable := by
    rcases hu with ⟨e, -, hout⟩ | ⟨y, hy, -⟩
    · cases hout
    · exact readable_of_phase hy fun b hb => verifyUnindexed_fails hb
  obtain ⟨u', hu', hdone⟩ := unindexedPass_outcome hempty hread hu
  cases hu'
  exact hdone

end Phases

end VerifyIds
