import Pbfhogg.Check.RefsJobs

/-!
# What the reference check counts

A judgement made while the sets fill is kept only when it found every reference, and then it is what
the complete sets say.
-/

namespace CheckRefs

open OsmId BlobMeta SharedPool IdSpace List
open MergeJoin (MemberId)

section Merges

variable {judge : Judge} {cov : ElementKind → Int64 → Bool} {before : Sets} {blobs : List Blob}

/-- The set holds the ids of the kind that the file defines. -/
def Complete (blobs : List Blob) (k : ElementKind) (s : IdSet) : Prop :=
  ∀ x, x ∈ s.ids ↔ x ∈ idsOf blobs k

/-- Looked up in a complete set, or all found: what was missed is what is missing. -/
theorem mem_missed {k : ElementKind} {refs m : List Int64}
    (h : Screened (· ∈ idsOf blobs k) (· ∉ (before.of k).ids) refs m)
    (hfinal : Complete blobs k (before.of k) ∨ m.length = 0) (x : Int64) :
    x ∈ m ↔ x ∈ missing refs (idsOf blobs k) := by
  rcases hfinal with hcomplete | hnone
  · exact h.mem_iff (fun _ hx => hx) (fun y hy hmem => hy ((hcomplete y).mpr hmem)) x
  · have hm : m = [] := length_eq_zero_iff.mp hnone
    have hall := h.all_hit hm
    have hempty : missing refs (idsOf blobs k) = [] := by
      rw [missing, filter_eq_nil_iff]
      intro y hy
      simpa using hall y hy
    rw [hm, hempty]

/-- The judgement of some ways of the file is what the complete sets say. -/
structure WaysExact (judge : Judge) (cov : ElementKind → Int64 → Bool) (blobs : List Blob)
    (ways : List WaySpan) (r : WayBlobResult) : Prop where
  count : r.wayCount = ways.length
  overflow : r.overflowIds =
    if judge.checkRelations then uncovered cov .way (ways.map WaySpan.id) else []
  missed : ∀ x, x ∈ r.missingNodeRefs ↔ x ∈ missing (ways.flatMap WaySpan.refs) (idsOf blobs .node)
  details : ∀ d ∈ r.missingRefs, Dangling blobs d

lemma WaysJudged.exact {ways : List WaySpan} {t : List (SetOp × Bool)} {r : WayBlobResult}
    (h : WaysJudged judge cov before (idsOf blobs) ways t r) (hways : ∀ w ∈ ways, w ∈ waysOf blobs)
    (hfinal : Complete blobs .node before.nodes ∨ r.missingNodeRefOccurrences = 0) :
    WaysExact judge cov blobs ways r := by
  obtain ⟨m, hscreened, hocc, hmem⟩ := h.screened
  rw [hocc] at hfinal
  have hmissed : ∀ x, x ∈ r.missingNodeRefs ↔
      x ∈ missing (ways.flatMap WaySpan.refs) (idsOf blobs .node) := by
    intro x
    rw [hmem]
    exact @mem_missed before blobs .node _ m hscreened hfinal x
  refine ⟨h.count, h.overflow, hmissed, ?_⟩
  intro d hd
  obtain ⟨w, hw, x, hx, hxm, rfl⟩ := h.details d hd
  have hgone := (mem_filter.mp ((hmissed x).mp hxm)).2
  exact .wayNode (hways w hw) hx (of_decide_eq_true hgone)

structure RelationsExact (judge : Judge) (cov : ElementKind → Int64 → Bool) (blobs : List Blob)
    (relations : List RelationSpan) (r : RelBlobResult) : Prop where
  count : r.relationCount = relations.length
  overflow : r.overflowIds = uncovered cov .relation (relations.map RelationSpan.id)
  nodes : ∀ x, x ∈ r.missingNodeMembers ↔
    x ∈ missing (relations.flatMap RelationSpan.nodeMembers) (idsOf blobs .node)
  ways : ∀ x, x ∈ r.missingWayRefs ↔
    x ∈ missing (relations.flatMap RelationSpan.wayMembers) (idsOf blobs .way)
  deferred : r.deferredRelationRefs = (relationRefs relations).map Prod.fst
  sources : judge.showIds.isSome = true →
    r.deferredRelationRefSources = (relationRefs relations).map Prod.snd
  details : ∀ d ∈ r.missingRefs, Dangling blobs d

lemma RelationsJudged.exact {relations : List RelationSpan} {t : List (SetOp × Bool)}
    {r : RelBlobResult} (h : RelationsJudged judge cov before (idsOf blobs) relations t r)
    (hrel : ∀ x ∈ relations, x ∈ relationsOf blobs)
    (hfinal : (Complete blobs .node before.nodes ∧ Complete blobs .way before.ways) ∨
      r.missingNodeMemberOccurrences + r.missingWayRefOccurrences = 0) :
    RelationsExact judge cov blobs relations r := by
  obtain ⟨m, hscreened, hocc, hmem⟩ := h.nodes
  obtain ⟨m', hscreened', hocc', hmem'⟩ := h.ways
  rw [hocc, hocc'] at hfinal
  have hnodes : ∀ x, x ∈ r.missingNodeMembers ↔
      x ∈ missing (relations.flatMap RelationSpan.nodeMembers) (idsOf blobs .node) := by
    intro x
    rw [hmem]
    exact @mem_missed before blobs .node _ m hscreened (hfinal.imp And.left (by omega)) x
  have hways : ∀ x, x ∈ r.missingWayRefs ↔
      x ∈ missing (relations.flatMap RelationSpan.wayMembers) (idsOf blobs .way) := by
    intro x
    rw [hmem']
    exact @mem_missed before blobs .way _ m' hscreened' (hfinal.imp And.right (by omega)) x
  refine ⟨h.count, h.overflow, hnodes, hways, h.deferred, h.sources, ?_⟩
  intro d hd
  obtain ⟨rel, hr, m, hm, ⟨id, hid, hmiss, rfl⟩ | ⟨id, hid, hmiss, rfl⟩⟩ := h.details d hd
  · have hgone := (mem_filter.mp ((hnodes id).mp hmiss)).2
    refine .relationNode (hrel rel hr) ?_ (of_decide_eq_true hgone)
    exact mem_filterMap.mpr ⟨m, hm, by rw [show m = _ from hid]; rfl⟩
  · have hgone := (mem_filter.mp ((hways id).mp hmiss)).2
    refine .relationWay (hrel rel hr) ?_ (of_decide_eq_true hgone)
    exact mem_filterMap.mpr ⟨m, hm, by rw [show m = _ from hid]; rfl⟩

/-- What the tally holds once some nodes, ways and relations of the file are counted. -/
structure Counted (judge : Judge) (blobs : List Blob) (ns : List Int64) (ws : List WaySpan)
    (rs : List RelationSpan) (t : Tally) : Prop where
  nodeCount : t.nodeCount = ns.length
  wayCount : t.wayCount = ws.length
  relationCount : t.relationCount = rs.length
  nodesInWays : ∀ x, x ∈ t.missingNodesInWays.ids ↔
    x ∈ missing (ws.flatMap WaySpan.refs) (idsOf blobs .node)
  waysInRelations : ∀ x, x ∈ t.missingWaysInRelations.ids ↔
    x ∈ missing (rs.flatMap RelationSpan.wayMembers) (idsOf blobs .way)
  nodesInRelations : ∀ x, x ∈ t.missingNodesInRelations.ids ↔
    x ∈ missing (rs.flatMap RelationSpan.nodeMembers) (idsOf blobs .node)
  deferred : t.deferredRelationRefs = (relationRefs rs).map Prod.fst
  sources : judge.showIds.isSome = true →
    t.deferredRelationRefSources = (relationRefs rs).map Prod.snd
  details : ∀ d ∈ t.missingRefs, Dangling blobs d

/-- The side sets of the ids that wait for the end of their phase. -/
structure Overflows (judge : Judge) (cov : ElementKind → Int64 → Bool) (ns : List Int64)
    (ws : List WaySpan) (rs : List RelationSpan) (t : Tally) : Prop where
  nodes : ∀ x, x ∈ t.nodeOverflow.ids ↔ x ∈ uncovered cov .node ns
  ways : ∀ x, x ∈ t.wayOverflow.ids ↔
    judge.checkRelations = true ∧ x ∈ uncovered cov .way (ws.map WaySpan.id)
  relations : ∀ x, x ∈ t.relationOverflow.ids ↔
    x ∈ uncovered cov .relation (rs.map RelationSpan.id)

lemma missing_append (refs refs' targets : List Int64) :
    missing (refs ++ refs') targets = missing refs targets ++ missing refs' targets :=
  filter_append ..

lemma uncovered_append (k : ElementKind) (ids ids' : List Int64) :
    uncovered cov k (ids ++ ids') = uncovered cov k ids ++ uncovered cov k ids' :=
  filter_append ..

lemma mem_of_mem_missing {refs targets : List Int64} {x : Int64} (h : x ∈ missing refs targets) :
    x ∈ refs := (mem_filter.mp h).1

variable {ids : List Int64} {relations : List RelationSpan}

lemma mem_of_mem_uncovered {k : ElementKind} {x : Int64} (h : x ∈ uncovered cov k ids) :
    x ∈ ids := (mem_filter.mp h).1

/-- A set after the distinct ids of one more blob are entered. -/
theorem mem_foldl_missing {s : IdSet} {refs refs' targets : List Int64}
    (hs : ∀ x, x ∈ s.ids ↔ x ∈ missing refs targets)
    (hids : ∀ x, x ∈ ids ↔ x ∈ missing refs' targets) (hpos : ∀ x ∈ refs', 0 ≤ x.toInt)
    (x : Int64) : x ∈ (ids.foldl IdSet.set s).ids ↔ x ∈ missing (refs ++ refs') targets := by
  rw [IdSet.mem_foldl_set, hs, hids, missing_append, mem_append]
  constructor
  · rintro (h | ⟨h, -⟩)
    · exact .inl h
    · exact .inr h
  · rintro (h | h)
    · exact .inl h
    · exact .inr ⟨h, hpos x (mem_of_mem_missing h)⟩

/-- A side set after the ids of one more blob are entered. -/
theorem mem_insertOverflowIds {s : IdSet} {k : ElementKind} {ids' : List Int64}
    (hs : ∀ x, x ∈ s.ids ↔ x ∈ uncovered cov k ids) (hpos : ∀ x ∈ ids', 0 ≤ x.toInt) (x : Int64) :
    x ∈ (insertOverflowIds s (uncovered cov k ids')).ids ↔ x ∈ uncovered cov k (ids ++ ids') := by
  rw [insertOverflowIds, IdSet.mem_foldl_set, hs, uncovered_append, mem_append]
  constructor
  · rintro (h | ⟨h, -⟩)
    · exact .inl h
    · exact .inr h
  · rintro (h | h)
    · exact .inl h
    · exact .inr ⟨h, hpos x (mem_of_mem_uncovered h)⟩

lemma mem_mergeDetails {t : Tally} {entries : List MissingRef} {d : MissingRef}
    (h : d ∈ t.mergeDetails judge entries) : d ∈ t.missingRefs ∨ d ∈ entries := by
  unfold Tally.mergeDetails at h
  split at h
  · unfold appendCappedMissingRefs at h
    split at h
    · exact mem_append.mp h
    · rcases mem_append.mp h with h | h
      · exact .inl h
      · exact .inr (mem_of_mem_take h)
  · exact .inl h

variable {ns : List Int64} {ws : List WaySpan} {rs : List RelationSpan} {t : Tally}

lemma Counted.mergeNodes (h : Counted judge blobs ns ws rs t) (ids overflow : List Int64) :
    Counted judge blobs (ns ++ ids) ws rs (t.mergeNodes ids.length overflow) where
  nodeCount := by simp [Tally.mergeNodes, h.nodeCount]
  wayCount := h.wayCount
  relationCount := h.relationCount
  nodesInWays := h.nodesInWays
  waysInRelations := h.waysInRelations
  nodesInRelations := h.nodesInRelations
  deferred := h.deferred
  sources := h.sources
  details := h.details

lemma Counted.mergeWays {ways : List WaySpan} {r : WayBlobResult}
    (h : Counted judge blobs ns ws rs t) (hr : WaysExact judge cov blobs ways r)
    (hpos : ∀ w ∈ ways, ∀ x ∈ w.refs, 0 ≤ x.toInt) :
    Counted judge blobs ns (ws ++ ways) rs (t.mergeWays judge r) where
  nodeCount := h.nodeCount
  wayCount := by simp [Tally.mergeWays, h.wayCount, hr.count]
  relationCount := h.relationCount
  nodesInWays := by
    intro x
    rw [flatMap_append]
    refine mem_foldl_missing h.nodesInWays hr.missed (fun y hy => ?_) x
    obtain ⟨w, hw, hyw⟩ := mem_flatMap.mp hy
    exact hpos w hw y hyw
  waysInRelations := h.waysInRelations
  nodesInRelations := h.nodesInRelations
  deferred := h.deferred
  sources := h.sources
  details := by
    intro d hd
    rcases mem_mergeDetails hd with hd | hd
    · exact h.details d hd
    · exact hr.details d hd

lemma relationRefs_append (rs rs' : List RelationSpan) :
    relationRefs (rs ++ rs') = relationRefs rs ++ relationRefs rs' := flatMap_append

lemma goodMember_of_mem {f : MemberId → Option Int64}
    (hf : ∀ m x, f m = some x → GoodMember m → 0 ≤ x.toInt)
    (hpos : ∀ r ∈ relations, ∀ m ∈ r.members, GoodMember m) :
    ∀ x ∈ relations.flatMap fun r => r.members.filterMap f, 0 ≤ x.toInt := by
  intro x hx
  obtain ⟨r, hr, hxr⟩ := mem_flatMap.mp hx
  obtain ⟨m, hm, hmx⟩ := mem_filterMap.mp hxr
  exact hf m x hmx (hpos r hr m hm)

lemma nodeMember_nonneg (m : MemberId) (x : Int64) (h : nodeMember m = some x)
    (hm : GoodMember m) : 0 ≤ x.toInt := by
  cases m <;> cases h
  exact hm

lemma wayMember_nonneg (m : MemberId) (x : Int64) (h : wayMember m = some x)
    (hm : GoodMember m) : 0 ≤ x.toInt := by
  cases m <;> cases h
  exact hm

lemma Counted.mergeRelations {r : RelBlobResult} (h : Counted judge blobs ns ws rs t)
    (hr : RelationsExact judge cov blobs relations r)
    (hpos : ∀ rel ∈ relations, ∀ m ∈ rel.members, GoodMember m) :
    Counted judge blobs ns ws (rs ++ relations) (t.mergeRelations judge r) where
  nodeCount := h.nodeCount
  wayCount := h.wayCount
  relationCount := by simp [Tally.mergeRelations, h.relationCount, hr.count]
  nodesInWays := h.nodesInWays
  waysInRelations := by
    intro x
    rw [flatMap_append]
    exact mem_foldl_missing h.waysInRelations hr.ways (goodMember_of_mem wayMember_nonneg hpos) x
  nodesInRelations := by
    intro x
    rw [flatMap_append]
    exact mem_foldl_missing h.nodesInRelations hr.nodes (goodMember_of_mem nodeMember_nonneg hpos) x
  deferred := by
    simp [Tally.mergeRelations, h.deferred, hr.deferred, relationRefs_append]
  sources := by
    intro hshow
    simp [Tally.mergeRelations, hshow, h.sources hshow, hr.sources hshow, relationRefs_append]
  details := by
    intro d hd
    rcases mem_mergeDetails hd with hd | hd
    · exact h.details d hd
    · exact hr.details d hd

lemma Overflows.mergeNodes (h : Overflows judge cov ns ws rs t) (hpos : ∀ x ∈ ids, 0 ≤ x.toInt) :
    Overflows judge cov (ns ++ ids) ws rs
      (t.mergeNodes ids.length (uncovered cov .node ids)) where
  nodes := mem_insertOverflowIds h.nodes hpos
  ways := h.ways
  relations := h.relations

lemma Overflows.mergeWays {ways : List WaySpan} {r : WayBlobResult}
    (h : Overflows judge cov ns ws rs t) (hr : WaysExact judge cov blobs ways r)
    (hpos : ∀ w ∈ ways, 0 ≤ w.id.toInt) :
    Overflows judge cov ns (ws ++ ways) rs (t.mergeWays judge r) where
  nodes := h.nodes
  ways := by
    intro x
    have hids : ∀ y ∈ ways.map WaySpan.id, 0 ≤ y.toInt := by
      intro y hy
      obtain ⟨w, hw, rfl⟩ := mem_map.mp hy
      exact hpos w hw
    simp only [Tally.mergeWays, hr.overflow, map_append]
    by_cases hrel : judge.checkRelations = true
    · rw [if_pos hrel]
      have hold : ∀ y, y ∈ t.wayOverflow.ids ↔ y ∈ uncovered cov .way (ws.map WaySpan.id) := by
        intro y
        rw [h.ways, and_iff_right hrel]
      rw [mem_insertOverflowIds hold hids, and_iff_right hrel]
    · rw [if_neg hrel, insertOverflowIds, foldl_nil, h.ways]
      simp [hrel]
  relations := h.relations

lemma Overflows.mergeRelations {r : RelBlobResult} (h : Overflows judge cov ns ws rs t)
    (hr : RelationsExact judge cov blobs relations r) (hpos : ∀ rel ∈ relations, 0 ≤ rel.id.toInt) :
    Overflows judge cov ns ws (rs ++ relations) (t.mergeRelations judge r) where
  nodes := h.nodes
  ways := h.ways
  relations := by
    intro x
    have hids : ∀ y ∈ relations.map RelationSpan.id, 0 ≤ y.toInt := by
      intro y hy
      obtain ⟨rel, hrel, rfl⟩ := mem_map.mp hy
      exact hpos rel hrel
    simp only [Tally.mergeRelations, hr.overflow, map_append]
    exact mem_insertOverflowIds h.relations hids x

end Merges

section Asks

variable {judge : Judge} {defined : ElementKind → List Int64}

lemma asks_accepted {α : Type} {P : SetOp → Prop} {b : Blob} {j : BlobJob α} (h : j.Asks P) :
    (do accepted b; j : BlobJob α).Asks P := by
  unfold accepted
  split
  · exact h
  · exact trivial

/-- One question, then a result or a refusal. -/
theorem asks_question {α : Type} {o : SetOp} {c : Prop} [Decidable c] {x y : α} {e : PbfError}
    (ho : Inserts defined o) :
    (do if ← (Job.query o : BlobJob Bool) then pure x else if c then .fail e else pure y :
      BlobJob α).Asks (Inserts defined) := by
  refine ⟨ho, fun b => ?_⟩
  cases b with
  | true => exact trivial
  | false =>
    by_cases hc : c
    · simp [hc, Job.bind, Job.Asks]
    · simp [hc, Job.bind, Job.Asks]

lemma replayNodes_asks {ids : List Int64} (h : ∀ id ∈ ids, id ∈ defined .node) :
    (replayNodes ids).Asks (Inserts defined) := by
  refine Job.asks_foldlM (fun id hid r => ?_) _
  exact @asks_question defined _ (.setAtomicChecked .node id) _ _ _ _ _ (h id hid)

lemma judgeWays_asks {ways : List WaySpan} (h : ∀ w ∈ ways, w.id ∈ defined .way) :
    (judgeWays judge ways).Asks (Inserts defined) := by
  refine Job.asks_bind (Job.asks_foldlM (fun w hw r => ?_) _) fun _ => trivial
  refine Job.asks_bind ?_ fun r => Job.asks_foldlM (fun x _ r => ?_) _
  · unfold insertWayId
    split
    · exact @asks_question defined _ (.setAtomicChecked .way w.id) _ _ _ _ _ (h w hw)
    · exact trivial
  · exact @asks_question defined _ (.get .node x) _ _ _ _ _ trivial

lemma judgeMember_asks (rid : Int64) (m : MemberId) (r : RelBlobResult) :
    (judgeMember judge rid r m).Asks (Inserts defined) := by
  cases m with
  | node id => exact @asks_question defined _ (.get .node id) _ _ _ _ _ trivial
  | way id => exact @asks_question defined _ (.get .way id) _ _ _ _ _ trivial
  | relation id =>
    by_cases hneg : id.toInt < 0
    · simp [judgeMember, hneg, Job.Asks]
    · simp [judgeMember, hneg, Job.Asks]
  | unknown type id => exact trivial

lemma judgeRelations_asks {relations : List RelationSpan}
    (h : ∀ r ∈ relations, r.id ∈ defined .relation) :
    (judgeRelations judge relations).Asks (Inserts defined) := by
  refine Job.asks_bind (Job.asks_foldlM (fun rel hrel r => ?_) _) fun _ => trivial
  refine Job.asks_bind ?_ fun r => Job.asks_foldlM (fun m _ r => judgeMember_asks rel.id m r) _
  exact @asks_question defined _ (.setAtomicChecked .relation rel.id) _ _ _ _ _ (h rel hrel)

end Asks

/-- The sets of a run over the file: atomic insertion reaches the ids of `cov`, and only ids of the
file are in them. -/
structure SetsOk (cov : ElementKind → Int64 → Bool) (blobs : List Blob) (s : Sets) : Prop where
  covers : ∀ k id, (s.of k).covers id = cov k id
  within : ∀ k, ∀ id ∈ (s.of k).ids, id ∈ idsOf blobs k

/-- The blobs at the given positions. -/
def pick (schedule : List Blob) (positions : List Nat) : List Blob :=
  positions.filterMap fun p => schedule[p]?

lemma pick_range (schedule : List Blob) : pick schedule (range schedule.length) = schedule := by
  induction schedule using reverseRecOn with
  | nil => rfl
  | append_singleton schedule b ih =>
    rw [pick, length_append, length_singleton, range_succ, filterMap_append]
    have hold : (range schedule.length).filterMap (fun p => (schedule ++ [b])[p]?) =
        pick schedule (range schedule.length) := by
      refine filterMap_congr fun p hp => ?_
      rw [getElem?_append_left (mem_range.mp hp)]
    rw [hold, ih]
    simp

lemma pick_perm {schedule : List Blob} {positions : List Nat}
    (h : positions.Perm (range schedule.length)) : (pick schedule positions).Perm schedule := by
  have := h.filterMap fun p => schedule[p]?
  rwa [← pick, ← pick, pick_range] at this

section Phases

variable {judge : Judge} {cov : ElementKind → Int64 → Bool} {blobs : List Blob} {sets : Sets}

/-- What a finished phase leaves: sets that only grew, and the results of its blobs, merged in some
order; whatever a blob's trace inserted is in the sets. -/
structure PhaseEnd {R A : Type} (cov : ElementKind → Int64 → Bool) (blobs schedule : List Blob)
    (merge : A → Nat × R → A) (post : Blob → List (SetOp × Bool) → R → Prop) (sets : Sets) (acc : A)
    (merged : List (Nat × R)) (sets' : Sets) (acc' : A) : Prop where
  ok : SetsOk cov blobs sets'
  grown : ∀ k, ∀ id ∈ (sets.of k).ids, id ∈ (sets'.of k).ids
  acc_eq : acc' = merged.foldl merge acc
  places : (merged.map Prod.fst).Perm (range schedule.length)
  results : ∀ x ∈ merged, ∃ b t, schedule[x.1]? = some b ∧ post b t x.2 ∧
    ∀ k id, (SetOp.setAtomicChecked k id, true) ∈ t → id ∈ (sets'.of k).ids

variable {workers : Nat} {schedule : List Blob} {k : ElementKind}

lemma phase_always {R A : Type} {project : Blob → BlobJob R} {merge : A → Nat × R → A} {acc : A}
    (post : Blob → List (SetOp × Bool) → R → Prop) (hw : 0 < workers)
    (hsets : SetsOk cov blobs sets)
    (hasks : ∀ b ∈ schedule, (project b).Asks (Inserts (idsOf blobs)))
    (hjobs : ∀ b ∈ schedule, (project b).Ensures (Contract cov sets (idsOf blobs)) (post b)) :
    (parallelProjectPhase workers schedule project merge sets acc).Always fun x =>
      ∃ merged, PhaseEnd cov blobs schedule merge post sets acc merged x.1 x.2 := by
  constructor
  · exact Phase.exists_outcome hw sets acc _
  · intro r hr
    obtain ⟨sets', history, trace, merged, rfl, hexec, hown, hhistory, hperm, hpost⟩ :=
      @Phase.outcome_account Sets SetOp PbfError R A _ _ _ _ _ _ _ (Inserts (idsOf blobs))
        (Contract cov sets (idsOf blobs))
        (fun i t r => ∃ b, schedule[i]? = some b ∧ post b t r) hr
        (by
          intro j hj
          obtain ⟨b, hb, rfl⟩ := mem_map.mp hj
          exact hasks b hb)
        (fun history s' hrun hown => contract_of_exec hsets.covers hsets.within hrun hown)
        (by
          intro i j hj
          rw [getElem?_map, Option.map_eq_some_iff] at hj
          obtain ⟨b, hb, rfl⟩ := hj
          exact (hjobs b (mem_of_getElem? hb)).imp fun t r hr => ⟨b, hb, hr⟩)
    obtain ⟨hafter, -⟩ := setsAfter_of_exec hexec
    rw [length_map] at hperm hhistory
    refine ⟨_, rfl, merged, ⟨fun k id => ?_, fun k id hid => ?_⟩, fun k id hid => ?_, rfl, hperm,
      fun x hx => ?_⟩
    · rw [covers_eq (hafter.pre k), hsets.covers]
    · rcases (hafter.mem k id).mp hid with hid | hid
      · exact hsets.within k id hid
      · exact hown _ hid
    · exact (hafter.mem k id).mpr (.inl hid)
    · obtain ⟨b, hb, hpostb⟩ := hpost x hx
      exact ⟨b, _, hb, hpostb, fun k id hid => (hafter.mem k id).mpr
        (.inr (hhistory.mem_iff.mpr
          (mem_flatMap_of_mem (hperm.mem_iff.mp (mem_map_of_mem hx)) hid)))⟩

variable {b : Blob}

lemma PhaseEnd.of_mem_pick {R A : Type} {merge : A → Nat × R → A}
    {post : Blob → List (SetOp × Bool) → R → Prop} {acc acc' : A} {merged : List (Nat × R)}
    {sets' : Sets} (h : PhaseEnd cov blobs schedule merge post sets acc merged sets' acc')
    (hb : b ∈ pick schedule (merged.map Prod.fst)) : ∃ r t, post b t r ∧
      ∀ k id, (SetOp.setAtomicChecked k id, true) ∈ t → id ∈ (sets'.of k).ids := by
  obtain ⟨i, hi, hbi⟩ := mem_filterMap.mp hb
  obtain ⟨x, hx, rfl⟩ := mem_map.mp hi
  obtain ⟨b', t, hb', hpost, hin⟩ := h.results x hx
  rw [hbi] at hb'
  cases hb'
  exact ⟨x.2, t, hpost, hin⟩

lemma node_mem_idsOf {id : Int64} (hb : b ∈ blobs) (hid : id ∈ b.nodeIds) :
    id ∈ idsOf blobs .node := mem_flatMap.mpr ⟨b, hb, hid⟩

lemma way_mem_waysOf {w : WaySpan} (hb : b ∈ blobs) (hw : w ∈ b.waySpans) :
    w ∈ waysOf blobs := mem_flatMap.mpr ⟨b, hb, hw⟩

lemma relation_mem_relationsOf {r : RelationSpan} (hb : b ∈ blobs) (hr : r ∈ b.relationSpans) :
    r ∈ relationsOf blobs := mem_flatMap.mpr ⟨b, hb, hr⟩

lemma nodeIds_nonneg (h : Checkable blobs) (hb : b ∈ blobs) :
    ∀ id ∈ b.nodeIds, 0 ≤ id.toInt := by
  intro id hid
  obtain ⟨e, he, hmatch⟩ := mem_filterMap.mp hid
  have hgood := h b hb e he
  cases e <;> cases hmatch
  exact hgood

lemma waySpans_nonneg (h : Checkable blobs) (hb : b ∈ blobs) :
    ∀ w ∈ b.waySpans, 0 ≤ w.id.toInt ∧ ∀ x ∈ w.refs, 0 ≤ x.toInt := by
  intro w hw
  obtain ⟨e, he, hmatch⟩ := mem_filterMap.mp hw
  have hgood := h b hb e he
  cases e <;> cases hmatch
  exact hgood

lemma relationSpans_good (h : Checkable blobs) (hb : b ∈ blobs) :
    ∀ r ∈ b.relationSpans, 0 ≤ r.id.toInt ∧ ∀ m ∈ r.members, GoodMember m := by
  intro r hr
  obtain ⟨e, he, hmatch⟩ := mem_filterMap.mp hr
  have hgood := h b hb e he
  cases e <;> cases hmatch
  exact hgood

lemma accept_ok (h : TrulyIndexed blobs) (hb : b ∈ blobs) : b.accept = .ok () := by
  unfold Blob.accept
  rcases h with h | h
  · obtain ⟨k, hk, hall⟩ := h b hb
    rw [hk]
    refine refuseForeignKind_ok fun k' hk' => ?_
    obtain ⟨e, he, rfl⟩ := mem_map.mp hk'
    exact hall e he
  · rw [h b hb]

/-- What stands between two phases: the nodes, ways and relations that are counted, and those whose
ids may still wait in a side set. -/
structure Between (judge : Judge) (cov : ElementKind → Int64 → Bool) (blobs : List Blob)
    (ns np : List Int64) (ws wp : List WaySpan) (rs : List RelationSpan) (sets : Sets)
    (tally : Tally) : Prop where
  ok : SetsOk cov blobs sets
  counted : Counted judge blobs ns ws rs tally
  overflows : Overflows judge cov np wp rs tally
  nodesIn : ∀ id ∈ ns, cov .node id = true → id ∈ sets.nodes.ids
  waysIn : judge.checkRelations = true → ∀ w ∈ ws, cov .way w.id = true → w.id ∈ sets.ways.ids
  relationsIn : ∀ r ∈ rs, cov .relation r.id = true → r.id ∈ sets.relations.ids

variable {ns np : List Int64} {ws wp : List WaySpan} {rs rp : List RelationSpan} {tally : Tally}

lemma mem_of_inserted {ids : List Int64} {t : List (SetOp × Bool)} {sets' : Sets}
    (h : Inserted cov k ids t)
    (ht : ∀ k id, (SetOp.setAtomicChecked k id, true) ∈ t → id ∈ (sets'.of k).ids) :
    ∀ id ∈ ids, cov k id = true → id ∈ (sets'.of k).ids :=
  fun id hid hcov => ht k id (h id hid hcov)

/-- Results merged in any order: each adds the items of the blob it stands at. -/
lemma fold_pick {A R : Type} {items : Blob → List A} {f : Tally → R → Tally}
    {P : List A → List A → Tally → Prop} {merged : List (Nat × R)} {as as' : List A}
    (hstep : ∀ x ∈ merged, ∃ b, schedule[x.1]? = some b ∧
      ∀ as as' t, P as as' t → P (as ++ items b) (as' ++ items b) (f t x.2))
    (h : P as as' tally) :
    P (as ++ (pick schedule (merged.map Prod.fst)).flatMap items)
      (as' ++ (pick schedule (merged.map Prod.fst)).flatMap items)
      (merged.foldl (fun t x => f t x.2) tally) := by
  induction merged generalizing as as' tally with
  | nil => simpa [pick] using h
  | cons x merged ih =>
    obtain ⟨b, hb, hnext⟩ := hstep x mem_cons_self
    have hrest := ih (fun y hy => hstep y (mem_cons_of_mem _ hy)) (hnext _ _ _ h)
    simpa [pick, hb, append_assoc] using hrest

lemma nodePhase_always (hw : 0 < workers) (h : Checkable blobs) (hindex : TrulyIndexed blobs)
    (hsub : ∀ b ∈ schedule, b ∈ blobs)
    (hbetween : Between judge cov blobs ns np ws wp rs sets tally) :
    (nodePhase workers schedule sets tally).Always fun x => ∃ ns', ns'.Perm (nodeIdsOf schedule) ∧
        Between judge cov blobs (ns ++ ns') (np ++ ns') ws wp rs x.1 x.2 := by
  refine (phase_always (fun b t r => NodesReplayed cov b.nodeIds t r) hw hbetween.ok ?_ ?_).imp ?_
  · intro b hb
    exact asks_accepted (replayNodes_asks fun id hid => node_mem_idsOf (hsub b hb) hid)
  · intro b hb
    exact ensures_accepted (accept_ok hindex (hsub b hb))
      (replayNodes_ensures (nodeIds_nonneg h (hsub b hb)))
  · rintro ⟨sets', tally'⟩ ⟨merged, hend⟩
    refine ⟨nodeIdsOf (pick schedule (merged.map Prod.fst)),
      (pick_perm hend.places).flatMap_right _, ?_⟩
    have hfold := fold_pick (P := fun ns np t => Counted judge blobs ns ws rs t ∧
        Overflows judge cov np wp rs t) (f := fun t (r : Nat × List Int64) => t.mergeNodes r.1 r.2) (fun x hx => by
      obtain ⟨b, t, hb, hpost, -⟩ := hend.results x hx
      refine ⟨b, hb, fun ns np t ht => ?_⟩
      rw [hpost.count, hpost.overflow]
      exact ⟨ht.1.mergeNodes _ _,
        ht.2.mergeNodes (nodeIds_nonneg h (hsub b (mem_of_getElem? hb)))⟩)
      ⟨hbetween.counted, hbetween.overflows⟩
    rw [← hend.acc_eq] at hfold
    refine ⟨hend.ok, hfold.1, hfold.2, ?_, ?_, ?_⟩
    · intro id hid hcov
      rcases mem_append.mp hid with hid | hid
      · exact hend.grown .node id (hbetween.nodesIn id hid hcov)
      · obtain ⟨b, hb, hidb⟩ := mem_flatMap.mp hid
        obtain ⟨r, t, hpost, hin⟩ := hend.of_mem_pick hb
        exact mem_of_inserted hpost.inserted hin id hidb hcov
    · exact fun hrel w hw hcov => hend.grown .way _ (hbetween.waysIn hrel w hw hcov)
    · exact fun r hr hcov => hend.grown .relation _ (hbetween.relationsIn r hr hcov)

lemma wayPhase_always (hw : 0 < workers) (h : Checkable blobs) (hindex : TrulyIndexed blobs)
    (hsub : ∀ b ∈ schedule, b ∈ blobs)
    (hbetween : Between judge cov blobs ns np ws wp rs sets tally)
    (hcomplete : Complete blobs .node sets.nodes) :
    (wayPhase workers judge schedule sets tally).Always fun x =>
      ∃ ws', ws'.Perm (waysOf schedule) ∧ Complete blobs .node x.1.nodes ∧
        Between judge cov blobs ns np (ws ++ ws') (wp ++ ws') rs x.1 x.2 := by
  refine (phase_always (fun b t r => WaysJudged judge cov sets (idsOf blobs) b.waySpans t r) hw
    hbetween.ok ?_ ?_).imp ?_
  · intro b hb
    refine asks_accepted (judgeWays_asks fun w hmem => ?_)
    exact mem_map_of_mem (way_mem_waysOf (hsub b hb) hmem)
  · intro b hb
    exact ensures_accepted (accept_ok hindex (hsub b hb))
      (judgeWays_ensures (waySpans_nonneg h (hsub b hb)))
  · rintro ⟨sets', tally'⟩ ⟨merged, hend⟩
    refine ⟨waysOf (pick schedule (merged.map Prod.fst)),
      (pick_perm hend.places).flatMap_right _, ?_, ?_⟩
    · intro x
      exact ⟨hend.ok.within .node x, fun hx => hend.grown .node x ((hcomplete x).mpr hx)⟩
    have hfold := fold_pick (P := fun ws wp t => Counted judge blobs ns ws rs t ∧
        Overflows judge cov np wp rs t) (f := fun t r => t.mergeWays judge r) (fun x hx => by
      obtain ⟨b, t, hb, hpost, -⟩ := hend.results x hx
      have hmem := hsub b (mem_of_getElem? hb)
      have hexact := hpost.exact (fun w hw => way_mem_waysOf hmem hw) (.inl hcomplete)
      have hpos := waySpans_nonneg h hmem
      exact ⟨b, hb, fun ws wp t ht => ⟨ht.1.mergeWays hexact fun w hw => (hpos w hw).2,
        ht.2.mergeWays hexact fun w hw => (hpos w hw).1⟩⟩)
      ⟨hbetween.counted, hbetween.overflows⟩
    rw [← hend.acc_eq] at hfold
    refine ⟨hend.ok, hfold.1, hfold.2, ?_, ?_, ?_⟩
    · exact fun id hid hcov => hend.grown .node _ (hbetween.nodesIn id hid hcov)
    · intro hrel w hmem hcov
      rcases mem_append.mp hmem with hmem | hmem
      · exact hend.grown .way _ (hbetween.waysIn hrel w hmem hcov)
      · obtain ⟨b, hb, hwb⟩ := mem_flatMap.mp hmem
        obtain ⟨r, t, hpost, hin⟩ := hend.of_mem_pick hb
        exact mem_of_inserted (hpost.inserted hrel) hin w.id (mem_map_of_mem hwb) hcov
    · exact fun r hr hcov => hend.grown .relation _ (hbetween.relationsIn r hr hcov)

lemma relationPhase_always (hw : 0 < workers) (h : Checkable blobs)
    (hindex : TrulyIndexed blobs) (hsub : ∀ b ∈ schedule, b ∈ blobs)
    (hbetween : Between judge cov blobs ns np ws wp rs sets tally)
    (hnodes : Complete blobs .node sets.nodes) (hways : Complete blobs .way sets.ways) :
    (relationPhase workers judge schedule sets tally).Always fun x =>
      ∃ rs', rs'.Perm (relationsOf schedule) ∧
        Between judge cov blobs ns np ws wp (rs ++ rs') x.1 x.2 := by
  refine (phase_always
    (fun b t r => RelationsJudged judge cov sets (idsOf blobs) b.relationSpans t r) hw hbetween.ok
    ?_ ?_).imp ?_
  · intro b hb
    refine asks_accepted (judgeRelations_asks fun r hr => ?_)
    exact mem_map_of_mem (relation_mem_relationsOf (hsub b hb) hr)
  · intro b hb
    exact ensures_accepted (accept_ok hindex (hsub b hb))
      (judgeRelations_ensures (relationSpans_good h (hsub b hb)))
  · rintro ⟨sets', tally'⟩ ⟨merged, hend⟩
    refine ⟨relationsOf (pick schedule (merged.map Prod.fst)),
      (pick_perm hend.places).flatMap_right _, ?_⟩
    have hfold := fold_pick (P := fun rs rp t => Counted judge blobs ns ws rs t ∧
        Overflows judge cov np wp rp t) (f := fun t r => t.mergeRelations judge r) (fun x hx => by
      obtain ⟨b, t, hb, hpost, -⟩ := hend.results x hx
      have hmem := hsub b (mem_of_getElem? hb)
      have hexact := hpost.exact (fun r hr => relation_mem_relationsOf hmem hr)
        (.inl ⟨hnodes, hways⟩)
      have hgood := relationSpans_good h hmem
      exact ⟨b, hb, fun rs rp t ht => ⟨ht.1.mergeRelations hexact fun r hr => (hgood r hr).2,
        ht.2.mergeRelations hexact fun r hr => (hgood r hr).1⟩⟩)
      ⟨hbetween.counted, hbetween.overflows⟩
    rw [← hend.acc_eq] at hfold
    refine ⟨hend.ok, hfold.1, hfold.2, ?_, ?_, ?_⟩
    · exact fun id hid hcov => hend.grown .node _ (hbetween.nodesIn id hid hcov)
    · exact fun hrel w hw hcov => hend.grown .way _ (hbetween.waysIn hrel w hw hcov)
    · intro r hmem hcov
      rcases mem_append.mp hmem with hmem | hmem
      · exact hend.grown .relation _ (hbetween.relationsIn r hmem hcov)
      · obtain ⟨b, hb, hrb⟩ := mem_flatMap.mp hmem
        obtain ⟨res, t, hpost, hin⟩ := hend.of_mem_pick hb
        exact mem_of_inserted hpost.inserted hin r.id (mem_map_of_mem hrb) hcov

/-- The judgement kept of an unindexed blob's ways. -/
def WaysOutcome (judge : Judge) (cov : ElementKind → Int64 → Bool) (blobs : List Blob) (b : Blob)
    (t : List (SetOp × Bool)) : Judged WayBlobResult → Prop
  | .absent => b.waySpans = []
  | .final r => WaysExact judge cov blobs b.waySpans r ∧
      (judge.checkRelations = true → Inserted cov .way (b.waySpans.map WaySpan.id) t)
  | .again => True

def RelationsOutcome (judge : Judge) (cov : ElementKind → Int64 → Bool) (blobs : List Blob)
    (b : Blob) (t : List (SetOp × Bool)) : Judged RelBlobResult → Prop
  | .absent => judge.checkRelations = true → b.relationSpans = []
  | .final r => judge.checkRelations = true ∧ RelationsExact judge cov blobs b.relationSpans r ∧
      Inserted cov .relation (b.relationSpans.map RelationSpan.id) t
  | .again => judge.checkRelations = true

structure CombinedPost (judge : Judge) (cov : ElementKind → Int64 → Bool) (blobs : List Blob)
    (b : Blob) (t : List (SetOp × Bool)) (r : UnindexedBlobResult) : Prop where
  nodes : NodesReplayed cov b.nodeIds t (r.nodeCount, r.nodeOverflow)
  ways : WaysOutcome judge cov blobs b t r.ways
  relations : RelationsOutcome judge cov blobs b t r.relations

lemma Inserted.prepend {ids : List Int64} {t : List (SetOp × Bool)} (h : Inserted cov k ids t)
    (t' : List (SetOp × Bool)) : Inserted cov k ids (t' ++ t) :=
  fun id hid hcov => mem_append_right _ (h id hid hcov)

lemma combinedWays_ensures (h : Checkable blobs) (hb : b ∈ blobs) :
    (combinedWays judge b.waySpans).Ensures (Contract cov sets (idsOf blobs))
      (WaysOutcome judge cov blobs b) := by
  unfold combinedWays
  split
  · next hempty => exact Job.ensures_ret (List.isEmpty_iff.mp hempty)
  · refine Job.ensures_bind (judgeWays_ensures (waySpans_nonneg h hb)) fun t r hjudged => ?_
    refine Job.ensures_ret ?_
    rw [append_nil]
    split
    · exact trivial
    · next hnone =>
      refine ⟨hjudged.exact (fun w hw => way_mem_waysOf hb hw) (.inr (by omega)), ?_⟩
      exact hjudged.inserted

lemma combinedRelations_ensures (h : Checkable blobs) (hb : b ∈ blobs) :
    (combinedRelations judge (if judge.checkRelations then b.relationSpans else [])).Ensures
      (Contract cov sets (idsOf blobs)) (RelationsOutcome judge cov blobs b) := by
  by_cases hrel : judge.checkRelations = true
  · rw [if_pos hrel]
    unfold combinedRelations
    split
    · next hempty => exact Job.ensures_ret fun _ => List.isEmpty_iff.mp hempty
    · refine Job.ensures_bind (judgeRelations_ensures (relationSpans_good h hb)) fun t r hjudged => ?_
      refine Job.ensures_ret ?_
      rw [append_nil]
      split
      · exact hrel
      · next hnone =>
        refine ⟨hrel, hjudged.exact (fun r hr => relation_mem_relationsOf hb hr)
          (.inr (by omega)), hjudged.inserted⟩
  · rw [if_neg hrel]
    exact Job.ensures_ret fun hc => absurd hc hrel

lemma projectUnindexed_ensures (h : Checkable blobs) (hindex : TrulyIndexed blobs)
    (hb : b ∈ blobs) : (projectUnindexed judge b).Ensures (Contract cov sets (idsOf blobs))
      (CombinedPost judge cov blobs b) := by
  refine ensures_accepted (accept_ok hindex hb) ?_
  refine Job.ensures_bind (replayNodes_ensures (nodeIds_nonneg h hb)) fun t₁ nodes hnodes => ?_
  refine Job.ensures_bind (combinedWays_ensures h hb) fun t₂ ways hways => ?_
  refine Job.ensures_bind (combinedRelations_ensures h hb) fun t₃ relations hrelations => ?_
  refine Job.ensures_ret ⟨⟨hnodes.count, hnodes.overflow, hnodes.inserted.append _⟩, ?_, ?_⟩
  · cases ways with
    | absent => exact hways
    | final r => exact ⟨hways.1, fun hrel => ((hways.2 hrel).append _).prepend _⟩
    | again => exact trivial
  · cases relations with
    | absent => exact hrelations
    | final r =>
      exact ⟨hrelations.1, hrelations.2.1, ((hrelations.2.2.append _).prepend _).prepend _⟩
    | again => exact hrelations

lemma projectUnindexed_asks (hb : b ∈ blobs) :
    (projectUnindexed judge b).Asks (Inserts (idsOf blobs)) := by
  refine asks_accepted ?_
  refine Job.asks_bind (replayNodes_asks fun id hid => node_mem_idsOf hb hid) fun nodes => ?_
  refine Job.asks_bind ?_ fun ways => Job.asks_bind ?_ fun relations => trivial
  · unfold combinedWays
    split
    · exact trivial
    · refine Job.asks_bind (judgeWays_asks fun w hw => ?_) fun _ => trivial
      exact mem_map_of_mem (way_mem_waysOf hb hw)
  · by_cases hrel : judge.checkRelations = true
    · rw [if_pos hrel]
      unfold combinedRelations
      split
      · exact trivial
      · refine Job.asks_bind (judgeRelations_asks fun r hr => ?_) fun _ => trivial
        exact mem_map_of_mem (relation_mem_relationsOf hb hr)
    · rw [if_neg hrel]
      exact trivial

/-- What the combined phase has counted once the nodes of `dn`, the ways of `dw` and the relations
of `dr` are merged: what is not counted is in a blob to be read again. -/
structure CombinedInv (judge : Judge) (cov : ElementKind → Int64 → Bool) (blobs : List Blob)
    (sets' : Sets) (dn dw dr : List Nat) (ws : List WaySpan) (rs : List RelationSpan)
    (c : Combined) : Prop where
  counted : Counted judge blobs (nodeIdsOf (pick blobs dn)) ws rs c.tally
  overflows : Overflows judge cov (nodeIdsOf (pick blobs dn)) ws rs c.tally
  ways : (ws ++ waysOf (pick blobs c.waysAgain)).Perm (waysOf (pick blobs dw))
  relations : judge.checkRelations = true →
    (rs ++ relationsOf (pick blobs c.relationsAgain)).Perm (relationsOf (pick blobs dr))
  noRelations : judge.checkRelations = false → rs = []
  nodesIn : ∀ id ∈ nodeIdsOf (pick blobs dn), cov .node id = true → id ∈ sets'.nodes.ids
  waysIn : judge.checkRelations = true → ∀ w ∈ ws, cov .way w.id = true → w.id ∈ sets'.ways.ids
  relationsIn : ∀ r ∈ rs, cov .relation r.id = true → r.id ∈ sets'.relations.ids

lemma pick_snoc {A : Type} (items : Blob → List A) {positions : List Nat} {i : Nat}
    (hb : blobs[i]? = some b) : (pick blobs (positions ++ [i])).flatMap items =
      (pick blobs positions).flatMap items ++ items b := by
  simp [pick, hb]

variable {sets' : Sets} {dn dw dr : List Nat} {c : Combined} {i : Nat} {b : Blob}
  {t : List (SetOp × Bool)}

lemma CombinedInv.nodes_step (hinv : CombinedInv judge cov blobs sets' dn dw dr ws rs c)
    (h : Checkable blobs) (hb : blobs[i]? = some b) {r : Nat × List Int64}
    (hr : NodesReplayed cov b.nodeIds t r)
    (hin : ∀ k id, (SetOp.setAtomicChecked k id, true) ∈ t → id ∈ (sets'.of k).ids) :
    CombinedInv judge cov blobs sets' (dn ++ [i]) dw dr ws rs
      { c with tally := c.tally.mergeNodes r.1 r.2 } := by
  rw [hr.count, hr.overflow]
  have hpick : nodeIdsOf (pick blobs (dn ++ [i])) = nodeIdsOf (pick blobs dn) ++ b.nodeIds :=
      pick_snoc Blob.nodeIds hb
  refine ⟨?_, ?_, hinv.ways, hinv.relations, hinv.noRelations, ?_, hinv.waysIn, hinv.relationsIn⟩
  · rw [hpick]
    exact hinv.counted.mergeNodes _ _
  · rw [hpick]
    exact hinv.overflows.mergeNodes (nodeIds_nonneg h (mem_of_getElem? hb))
  · intro id hid hcov
    rw [hpick] at hid
    rcases mem_append.mp hid with hid | hid
    · exact hinv.nodesIn id hid hcov
    · exact mem_of_inserted hr.inserted hin id hid hcov

lemma CombinedInv.ways_step (hinv : CombinedInv judge cov blobs sets' dn dw dr ws rs c)
    (h : Checkable blobs) (hb : blobs[i]? = some b) {r : Judged WayBlobResult}
    (hr : WaysOutcome judge cov blobs b t r)
    (hin : ∀ k id, (SetOp.setAtomicChecked k id, true) ∈ t → id ∈ (sets'.of k).ids) :
    ∃ ws', CombinedInv judge cov blobs sets' dn (dw ++ [i]) dr ws' rs (c.mergeWays judge i r) := by
  have hpick : waysOf (pick blobs (dw ++ [i])) = waysOf (pick blobs dw) ++ b.waySpans :=
      pick_snoc Blob.waySpans hb
  cases r with
  | absent =>
    have hnone : b.waySpans = [] := hr
    refine ⟨ws, hinv.counted, hinv.overflows, ?_, hinv.relations, hinv.noRelations, hinv.nodesIn,
      hinv.waysIn, hinv.relationsIn⟩
    rw [hpick, hnone, append_nil]
    exact hinv.ways
  | final w =>
    obtain ⟨hexact, hins⟩ := hr
    have hpos := waySpans_nonneg h (mem_of_getElem? hb)
    refine ⟨ws ++ b.waySpans, hinv.counted.mergeWays hexact fun w hw => (hpos w hw).2,
      hinv.overflows.mergeWays hexact fun w hw => (hpos w hw).1, ?_, hinv.relations,
      hinv.noRelations, hinv.nodesIn, ?_, hinv.relationsIn⟩
    · rw [hpick]
      calc ws ++ b.waySpans ++ waysOf (pick blobs c.waysAgain)
        _ |>.Perm (ws ++ waysOf (pick blobs c.waysAgain) ++ b.waySpans) := by
          rw [append_assoc, append_assoc]
          exact List.Perm.append_left _ perm_append_comm
        _ |>.Perm (waysOf (pick blobs dw) ++ b.waySpans) := hinv.ways.append_right _
    · intro hrel w hw hcov
      rcases mem_append.mp hw with hw | hw
      · exact hinv.waysIn hrel w hw hcov
      · exact mem_of_inserted (hins hrel) hin w.id (mem_map_of_mem hw) hcov
  | again =>
    refine ⟨ws, hinv.counted, hinv.overflows, ?_, hinv.relations, hinv.noRelations, hinv.nodesIn,
      hinv.waysIn, hinv.relationsIn⟩
    have hagain : waysOf (pick blobs (c.waysAgain ++ [i])) =
        waysOf (pick blobs c.waysAgain) ++ b.waySpans :=
      pick_snoc Blob.waySpans hb
    change (ws ++ waysOf (pick blobs (c.waysAgain ++ [i]))).Perm _
    rw [hpick, hagain, ← append_assoc]
    exact hinv.ways.append_right _

lemma CombinedInv.relations_step (hinv : CombinedInv judge cov blobs sets' dn dw dr ws rs c)
    (h : Checkable blobs) (hb : blobs[i]? = some b) {r : Judged RelBlobResult}
    (hr : RelationsOutcome judge cov blobs b t r)
    (hin : ∀ k id, (SetOp.setAtomicChecked k id, true) ∈ t → id ∈ (sets'.of k).ids) :
    ∃ rs', CombinedInv judge cov blobs sets' dn dw (dr ++ [i]) ws rs'
      (c.mergeRelations judge i r) := by
  have hpick : relationsOf (pick blobs (dr ++ [i])) =
      relationsOf (pick blobs dr) ++ b.relationSpans :=
      pick_snoc Blob.relationSpans hb
  cases r with
  | absent =>
    refine ⟨rs, hinv.counted, hinv.overflows, hinv.ways, fun hrel => ?_, hinv.noRelations,
      hinv.nodesIn, hinv.waysIn, hinv.relationsIn⟩
    have hnone : b.relationSpans = [] := hr hrel
    rw [hpick, hnone, append_nil]
    exact hinv.relations hrel
  | final rel =>
    obtain ⟨hrel, hexact, hins⟩ := hr
    have hgood := relationSpans_good h (mem_of_getElem? hb)
    refine ⟨rs ++ b.relationSpans, hinv.counted.mergeRelations hexact fun r hr => (hgood r hr).2,
      hinv.overflows.mergeRelations hexact fun r hr => (hgood r hr).1, hinv.ways, fun _ => ?_,
      fun hno => ?_, hinv.nodesIn, hinv.waysIn, ?_⟩
    · rw [hpick]
      calc rs ++ b.relationSpans ++ relationsOf (pick blobs c.relationsAgain)
        _ |>.Perm (rs ++ relationsOf (pick blobs c.relationsAgain) ++ b.relationSpans) := by
          rw [append_assoc, append_assoc]
          exact List.Perm.append_left _ perm_append_comm
        _ |>.Perm (relationsOf (pick blobs dr) ++ b.relationSpans) :=
          (hinv.relations hrel).append_right _
    · rw [hrel] at hno
      cases hno
    · intro r hr hcov
      rcases mem_append.mp hr with hr | hr
      · exact hinv.relationsIn r hr hcov
      · exact mem_of_inserted hins hin r.id (mem_map_of_mem hr) hcov
  | again =>
    refine ⟨rs, hinv.counted, hinv.overflows, hinv.ways, fun hrel => ?_, hinv.noRelations,
      hinv.nodesIn, hinv.waysIn, hinv.relationsIn⟩
    have hagain : relationsOf (pick blobs (c.relationsAgain ++ [i])) =
        relationsOf (pick blobs c.relationsAgain) ++ b.relationSpans :=
      pick_snoc Blob.relationSpans hb
    change (rs ++ relationsOf (pick blobs (c.relationsAgain ++ [i]))).Perm _
    rw [hpick, hagain, ← append_assoc]
    exact (hinv.relations hrel).append_right _

/-- The combined phase, merged in any order. -/
theorem fold_combined {merged : List (Nat × UnindexedBlobResult)} (h : Checkable blobs)
    (hres : ∀ x ∈ merged, ∃ b t, blobs[x.1]? = some b ∧ CombinedPost judge cov blobs b t x.2 ∧
      ∀ k id, (SetOp.setAtomicChecked k id, true) ∈ t → id ∈ (sets'.of k).ids) {done : List Nat}
    (hinv : CombinedInv judge cov blobs sets' done done done ws rs c) :
    ∃ ws' rs', CombinedInv judge cov blobs sets' (done ++ merged.map Prod.fst)
      (done ++ merged.map Prod.fst) (done ++ merged.map Prod.fst) ws' rs'
      (merged.foldl (Combined.merge judge) c) := by
  induction merged generalizing ws rs c done with
  | nil => exact ⟨ws, rs, by simpa using hinv⟩
  | cons x merged ih =>
    obtain ⟨b, t, hb, hpost, hin⟩ := hres x mem_cons_self
    have hnodes := hinv.nodes_step h hb hpost.nodes hin
    obtain ⟨ws', hways⟩ := hnodes.ways_step h hb hpost.ways hin
    obtain ⟨rs', hrelations⟩ := hways.relations_step h hb hpost.relations hin
    have hstep : CombinedInv judge cov blobs sets' (done ++ [x.1]) (done ++ [x.1]) (done ++ [x.1])
        ws' rs' (Combined.merge judge c x) := hrelations
    have hrest := ih (fun y hy => hres y (mem_cons_of_mem _ hy)) hstep
    simpa using hrest

lemma again_perm (positions : List Nat) : (again blobs positions).Perm (pick blobs positions) := by
  unfold again pick
  exact (mergeSort_perm positions _).filterMap _

lemma unindexedPhase_always (hw : 0 < workers) (h : Checkable blobs)
    (hindex : TrulyIndexed blobs) (hok : SetsOk cov blobs sets) :
    (unindexedPhase workers judge blobs sets {}).Always fun x =>
      ∃ ns ws rs, ns.Perm (nodeIdsOf blobs) ∧ (ws ++ waysOf x.2.2.1).Perm (waysOf blobs) ∧
        (judge.checkRelations = true → (rs ++ relationsOf x.2.2.2).Perm (relationsOf blobs)) ∧
        (judge.checkRelations = false → rs = []) ∧
        (∀ b ∈ x.2.2.1, b ∈ blobs) ∧ (∀ b ∈ x.2.2.2, b ∈ blobs) ∧
        Between judge cov blobs ns ns ws ws rs x.1 x.2.1 := by
  refine Outcomes.always_bind (phase_always (CombinedPost judge cov blobs) hw hok
    (fun b hb => projectUnindexed_asks hb)
    (fun b hb => projectUnindexed_ensures h hindex hb)) ?_
  rintro ⟨sets', c⟩ ⟨merged, hend⟩
  refine Outcomes.always_pure ?_
  have hstart : CombinedInv judge cov blobs sets' [] [] [] [] [] { tally := {} } := by
    refine ⟨⟨rfl, rfl, rfl, ?_, ?_, ?_, rfl, fun _ => rfl, ?_⟩, ⟨?_, ?_, ?_⟩, ?_, ?_, ?_, ?_, ?_, ?_⟩
    all_goals simp [pick, nodeIdsOf, waysOf, relationsOf, missing, uncovered]
  obtain ⟨ws, rs, hinv⟩ := fold_combined h hend.results hstart
  rw [nil_append, ← hend.acc_eq] at hinv
  have hperm := pick_perm hend.places
  have hwagain : (waysOf (again blobs c.waysAgain)).Perm (waysOf (pick blobs c.waysAgain)) :=
    (again_perm c.waysAgain).flatMap_right _
  have hragain : (relationsOf (again blobs c.relationsAgain)).Perm
      (relationsOf (pick blobs c.relationsAgain)) := (again_perm c.relationsAgain).flatMap_right _
  have hmem : ∀ positions, ∀ b ∈ again blobs positions, b ∈ blobs := by
    intro positions b hb
    obtain ⟨i, -, hi⟩ := mem_filterMap.mp hb
    exact mem_of_getElem? hi
  refine ⟨nodeIdsOf (pick blobs (merged.map Prod.fst)), ws, rs, hperm.flatMap_right _, ?_, ?_,
    hinv.noRelations, hmem _, hmem _, hend.ok, hinv.counted, hinv.overflows, hinv.nodesIn,
    hinv.waysIn, hinv.relationsIn⟩
  · exact ((hwagain.append_left ws).trans hinv.ways).trans (hperm.flatMap_right _)
  · intro hrel
    exact ((hragain.append_left rs).trans (hinv.relations hrel)).trans (hperm.flatMap_right _)

lemma complete_of_merge {k : ElementKind} {ids : List Int64} {s overflow : IdSet}
    (hall : ∀ x, x ∈ ids ↔ x ∈ idsOf blobs k) (hwithin : ∀ x ∈ s.ids, x ∈ idsOf blobs k)
    (hin : ∀ x ∈ ids, cov k x = true → x ∈ s.ids)
    (hover : ∀ x, x ∈ overflow.ids ↔ x ∈ uncovered cov k ids) :
    Complete blobs k (s.merge overflow) := by
  intro x
  rw [IdSet.mem_merge, hover, ← hall]
  constructor
  · rintro (hx | hx)
    · exact (hall x).mpr (hwithin x hx)
    · exact mem_of_mem_uncovered hx
  · intro hx
    by_cases hcov : cov k x = true
    · exact .inl (hin x hx hcov)
    · exact .inr (mem_filter.mpr ⟨hx, by simpa using hcov⟩)

lemma preAllocated_merge (s other : IdSet) : (s.merge other).preAllocated = s.preAllocated := by
  unfold IdSet.merge
  induction other.ids generalizing s with
  | nil => rfl
  | cons id ids ih => rw [foldl_cons, ih, IdSet.preAllocated_set]

lemma SetsOk.update {k : ElementKind} {s : IdSet} (hok : SetsOk cov blobs sets)
    (hpre : s.preAllocated = (sets.of k).preAllocated) (hwithin : ∀ x ∈ s.ids, x ∈ idsOf blobs k) :
    SetsOk cov blobs (sets.update k s) := by
  refine ⟨fun k' id => ?_, fun k' id hid => ?_⟩
  · by_cases hk : k' = k
    · subst hk
      rw [update_of_self, covers_eq hpre, hok.covers]
    · rw [update_of_ne hk, hok.covers]
  · by_cases hk : k' = k
    · subst hk
      rw [update_of_self] at hid
      exact hwithin id hid
    · rw [update_of_ne hk] at hid
      exact hok.within k' id hid

/-- The end of phase 1: the node set is complete and no node id waits. -/
theorem Between.nodes_complete (hbetween : Between judge cov blobs ns ns ws wp rs sets tally)
    (hall : ns.Perm (nodeIdsOf blobs)) :
    Complete blobs .node (sets.nodes.merge tally.nodeOverflow) ∧
      Between judge cov blobs ns [] ws wp rs
        { sets with nodes := sets.nodes.merge tally.nodeOverflow }
        { tally with nodeOverflow := {} } := by
  have hcomplete : Complete blobs .node (sets.nodes.merge tally.nodeOverflow) :=
    complete_of_merge (fun x => hall.mem_iff) (hbetween.ok.within .node) hbetween.nodesIn
      hbetween.overflows.nodes
  refine ⟨hcomplete, ?_, ?_, ?_, ?_, hbetween.waysIn, hbetween.relationsIn⟩
  · exact @SetsOk.update cov blobs sets .node _ hbetween.ok (preAllocated_merge _ _)
      fun x hx => (hcomplete x).mp hx
  · exact { hbetween.counted with }
  · exact ⟨by simp [uncovered], hbetween.overflows.ways, hbetween.overflows.relations⟩
  · intro id hid hcov
    exact IdSet.mem_merge.mpr (.inl (hbetween.nodesIn id hid hcov))

lemma Between.ways_complete (hbetween : Between judge cov blobs ns np ws ws rs sets tally)
    (hall : ws.Perm (waysOf blobs)) :
    (judge.checkRelations = true → Complete blobs .way (sets.ways.merge tally.wayOverflow)) ∧
      Between judge cov blobs ns np ws [] rs { sets with ways := sets.ways.merge tally.wayOverflow }
        { tally with wayOverflow := {} } := by
  have hids : ∀ x, x ∈ ws.map WaySpan.id ↔ x ∈ idsOf blobs .way :=
    fun x => (hall.map WaySpan.id).mem_iff
  have hwithin : ∀ x ∈ (sets.ways.merge tally.wayOverflow).ids, x ∈ idsOf blobs .way := by
    intro x hx
    rcases IdSet.mem_merge.mp hx with hx | hx
    · exact hbetween.ok.within .way x hx
    · exact (hids x).mp (mem_of_mem_uncovered ((hbetween.overflows.ways x).mp hx).2)
  refine ⟨fun hrel => ?_, ?_, ?_, ?_, hbetween.nodesIn, ?_, hbetween.relationsIn⟩
  · refine @complete_of_merge cov blobs .way _ _ _ hids (hbetween.ok.within .way)
      (fun x hx hcov => ?_) fun x => ?_
    · obtain ⟨w, hw, rfl⟩ := mem_map.mp hx
      exact hbetween.waysIn hrel w hw hcov
    · rw [hbetween.overflows.ways, and_iff_right hrel]
  · exact @SetsOk.update cov blobs sets .way _ hbetween.ok (preAllocated_merge _ _) hwithin
  · exact { hbetween.counted with }
  · exact ⟨hbetween.overflows.nodes, by simp [uncovered], hbetween.overflows.relations⟩
  · exact fun hrel w hw hcov => IdSet.mem_merge.mpr (.inl (hbetween.waysIn hrel w hw hcov))

lemma between_start (hok : SetsOk cov blobs sets) :
    Between judge cov blobs [] [] [] [] [] sets {} := by
  refine ⟨hok, ⟨rfl, rfl, rfl, ?_, ?_, ?_, rfl, fun _ => rfl, ?_⟩, ⟨?_, ?_, ?_⟩, ?_, ?_, ?_⟩
  all_goals simp [missing, uncovered]

lemma flatMap_claiming {β : Type} (f : Blob → List β) (k : ElementKind)
    (h : ∀ b ∈ blobs, b.claim ≠ some k → f b = []) :
    (claiming blobs k).flatMap f = blobs.flatMap f := by
  induction blobs with
  | nil => rfl
  | cons b blobs ih =>
    have hrest := ih fun x hx => h x (mem_cons_of_mem _ hx)
    rw [claiming] at hrest ⊢
    by_cases hb : b.claim = some k
    · rw [filter_cons_of_pos (by simpa using hb), flatMap_cons, flatMap_cons, hrest]
    · rw [filter_cons_of_neg (by simpa using hb), flatMap_cons, hrest,
        h b mem_cons_self hb, nil_append]

/-- A projection of a kind finds nothing in a blob that truly claims another. -/
theorem filterMap_foreign {β : Type} {k' : ElementKind} {f : Element → Option β}
    (hall : ∀ e ∈ b.elements, e.kind = k) (hne : k ≠ k') (hf : ∀ e, e.kind ≠ k' → f e = none) :
    b.elements.filterMap f = [] := by
  rw [filterMap_eq_nil_iff]
  intro e he
  exact hf e (by rw [hall e he]; exact hne)

lemma flatMap_claiming_of_indexed {β : Type} {f : Element → Option β}
    (h : ∀ b ∈ blobs, ∃ k, b.claim = some k ∧ ∀ e ∈ b.elements, e.kind = k)
    (hf : ∀ e, e.kind ≠ k → f e = none) :
    ((claiming blobs k).flatMap fun b => b.elements.filterMap f) =
      blobs.flatMap fun b => b.elements.filterMap f := by
  refine flatMap_claiming _ k fun b hb hclaim => ?_
  obtain ⟨k', hk', hall⟩ := h b hb
  refine filterMap_foreign hall (fun heq => hclaim ?_) hf
  rw [hk', heq]

/-- What phase 1 leaves: every node counted and the node set complete; ways and relations that are
not counted are in the blobs left for their phase. -/
structure FirstDone (judge : Judge) (cov : ElementKind → Int64 → Bool) (blobs : List Blob)
    (ns : List Int64) (ws : List WaySpan) (rs : List RelationSpan) (sets : Sets) (tally : Tally)
    (waySchedule relSchedule : List Blob) : Prop where
  nodes : ns.Perm (nodeIdsOf blobs)
  ways : (ws ++ waysOf waySchedule).Perm (waysOf blobs)
  relations : judge.checkRelations = true →
    (rs ++ relationsOf relSchedule).Perm (relationsOf blobs)
  noRelations : judge.checkRelations = false → rs = []
  waySub : ∀ b ∈ waySchedule, b ∈ blobs
  relSub : ∀ b ∈ relSchedule, b ∈ blobs
  complete : Complete blobs .node sets.nodes
  between : Between judge cov blobs ns [] ws ws rs sets tally

lemma firstPhase_indexed (hw : 0 < workers) (h : Checkable blobs)
    (hindex : ∀ b ∈ blobs, ∃ k, b.claim = some k ∧ ∀ e ∈ b.elements, e.kind = k)
    (hok : SetsOk cov blobs sets) :
    (firstPhase workers judge (.indexed (claiming blobs .node) (claiming blobs .way)
      (claiming blobs .relation)) sets).Always fun x =>
      ∃ ns ws rs, FirstDone judge cov blobs ns ws rs x.1 x.2.1 x.2.2.1 x.2.2.2 := by
  have hsub : ∀ k, ∀ b ∈ claiming blobs k, b ∈ blobs := fun k b hb => mem_of_mem_filter hb
  have hstart : Between judge cov blobs [] [] [] [] [] sets {} := between_start hok
  refine Outcomes.always_bind (nodePhase_always hw h (.inl hindex) (hsub .node) hstart) ?_
  rintro ⟨sets', tally'⟩ ⟨ns, hperm, hbetween⟩
  refine Outcomes.always_pure ⟨ns, [], [], ?_⟩
  have hnodes : nodeIdsOf (claiming blobs .node) = nodeIdsOf blobs := by
    refine flatMap_claiming_of_indexed hindex fun e he => ?_
    cases e <;> first | rfl | exact absurd rfl he
  have hways : waysOf (claiming blobs .way) = waysOf blobs := by
    refine flatMap_claiming_of_indexed hindex fun e he => ?_
    cases e <;> first | rfl | exact absurd rfl he
  have hrelations : relationsOf (claiming blobs .relation) = relationsOf blobs := by
    refine flatMap_claiming_of_indexed hindex fun e he => ?_
    cases e <;> first | rfl | exact absurd rfl he
  rw [hnodes] at hperm
  obtain ⟨hcomplete, hnext⟩ := hbetween.nodes_complete hperm
  refine ⟨hperm, ?_, fun _ => ?_, fun _ => rfl, hsub .way, hsub .relation, hcomplete, hnext⟩
  · rw [nil_append, hways]
  · rw [nil_append, hrelations]

lemma firstPhase_unindexed (hw : 0 < workers) (h : Checkable blobs)
    (hindex : TrulyIndexed blobs) (hok : SetsOk cov blobs sets) :
    (firstPhase workers judge (.unindexed blobs) sets).Always fun x =>
      ∃ ns ws rs, FirstDone judge cov blobs ns ws rs x.1 x.2.1 x.2.2.1 x.2.2.2 := by
  refine Outcomes.always_bind (unindexedPhase_always hw h hindex hok) ?_
  rintro ⟨sets', tally', ways, relations⟩
    ⟨ns, ws, rs, hns, hws, hrs, hno, hwsub, hrsub, hbetween⟩
  refine Outcomes.always_pure ⟨ns, ws, rs, ?_⟩
  obtain ⟨hcomplete, hnext⟩ := hbetween.nodes_complete hns
  exact ⟨hns, hws, hrs, hno, hwsub, hrsub, hcomplete, hnext⟩

lemma schedules_of_unindexed (h : ∀ b ∈ blobs, b.claim = none) :
    buildClassifySchedulesSplit blobs =
      .ok (if blobs.isEmpty then .indexed [] [] [] else .unindexed blobs) := by
  have hall : (blobs.filter fun b => b.claim = none) = blobs :=
    filter_eq_self.mpr fun b hb => by simpa using h b hb
  have hnone : ∀ k, claiming blobs k = [] := by
    intro k
    rw [claiming, filter_eq_nil_iff]
    intro b hb
    simp [h b hb]
  cases blobs with
  | nil => rfl
  | cons b blobs => simp [buildClassifySchedulesSplit, hall, hnone]

lemma schedules_of_indexed (h : ∀ b ∈ blobs, ∃ k, b.claim = some k ∧ ∀ e ∈ b.elements, e.kind = k) :
    buildClassifySchedulesSplit blobs =
      .ok (.indexed (claiming blobs .node) (claiming blobs .way) (claiming blobs .relation)) := by
  have hnone : (blobs.filter fun b => b.claim = none) = [] := by
    rw [filter_eq_nil_iff]
    intro b hb
    obtain ⟨k, hk, -⟩ := h b hb
    simp [hk]
  simp [buildClassifySchedulesSplit, hnone]

lemma firstPhase_always {workers : Nat} (hw : 0 < workers) (h : Checkable blobs)
    (hindex : TrulyIndexed blobs) (hok : SetsOk cov blobs sets) :
    (Outcomes.ofExcept (buildClassifySchedulesSplit blobs)).Always fun schedules =>
      (firstPhase workers judge schedules sets).Always fun x =>
        ∃ ns ws rs, FirstDone judge cov blobs ns ws rs x.1 x.2.1 x.2.2.1 x.2.2.2 := by
  rcases hindex with hindexed | hunindexed
  · exact Outcomes.always_ofExcept (schedules_of_indexed hindexed)
      (firstPhase_indexed hw h hindexed hok)
  · refine Outcomes.always_ofExcept (schedules_of_unindexed hunindexed) ?_
    cases blobs with
    | nil => exact firstPhase_indexed hw h (by simp) hok
    | cons b blobs => exact firstPhase_unindexed hw h (.inr hunindexed) hok

end Phases

section Report

variable {judge : Judge} {cov : ElementKind → Int64 → Bool} {blobs : List Blob} {sets : Sets}
  {ns np : List Int64} {ws wp : List WaySpan} {rs : List RelationSpan} {tally : Tally}

lemma fold_deferred {sources : List Int64} {xs : List (Int64 × Nat)}
    {acc : IdSet × Nat × List MissingRef} (hcomplete : Complete blobs .relation sets.relations)
    (hpos : ∀ x ∈ xs, 0 ≤ x.1.toInt)
    (hsource : judge.showIds.isSome = true → ∀ x ∈ xs, x.1 ∉ idsOf blobs .relation →
      Dangling blobs ⟨'r', x.1, 'r', sources.getD x.2 0⟩)
    (hdetails : ∀ d ∈ acc.2.2, Dangling blobs d) :
    (∀ x, x ∈ (xs.foldl (resolveDeferred judge sets sources) acc).1.ids ↔
        x ∈ acc.1.ids ∨ x ∈ missing (xs.map Prod.fst) (idsOf blobs .relation)) ∧
      (xs.foldl (resolveDeferred judge sets sources) acc).2.1 =
        acc.2.1 + (missing (xs.map Prod.fst) (idsOf blobs .relation)).length ∧
      ∀ d ∈ (xs.foldl (resolveDeferred judge sets sources) acc).2.2, Dangling blobs d := by
  induction xs generalizing acc with
  | nil => exact ⟨by simp [missing], by simp [missing], hdetails⟩
  | cons x xs ih =>
    have hposs : ∀ y ∈ xs, 0 ≤ y.1.toInt := fun y hy => hpos y (mem_cons_of_mem _ hy)
    have hsources : judge.showIds.isSome = true → ∀ y ∈ xs, y.1 ∉ idsOf blobs .relation →
        Dangling blobs ⟨'r', y.1, 'r', sources.getD y.2 0⟩ :=
      fun hshow y hy => hsource hshow y (mem_cons_of_mem _ hy)
    rw [foldl_cons, map_cons]
    by_cases hmem : x.1 ∈ idsOf blobs .relation
    · have hget : sets.relations.get x.1 = true := decide_eq_true ((hcomplete x.1).mpr hmem)
      have hstep : resolveDeferred judge sets sources acc x = acc := by
        rw [resolveDeferred, if_pos hget]
      have hskip : missing (x.1 :: xs.map Prod.fst) (idsOf blobs .relation) =
          missing (xs.map Prod.fst) (idsOf blobs .relation) := by
        simp [missing, hmem]
      rw [hstep, hskip]
      exact ih hposs hsources hdetails
    · have hget : ¬ sets.relations.get x.1 = true := by
        intro hget
        exact hmem ((hcomplete x.1).mp (of_decide_eq_true hget))
      have hkeep : missing (x.1 :: xs.map Prod.fst) (idsOf blobs .relation) =
          x.1 :: missing (xs.map Prod.fst) (idsOf blobs .relation) := by
        simp [missing, hmem]
      rw [resolveDeferred, if_neg hget, hkeep]
      have hnew : ∀ d ∈ (if judge.keepsDetail acc.2.2.length then
          acc.2.2 ++ [⟨'r', x.1, 'r', sources.getD x.2 0⟩] else acc.2.2), Dangling blobs d := by
        intro d hd
        split at hd
        · next hkeeps =>
          have hshow : judge.showIds.isSome = true := by
            cases hs : judge.showIds with
            | none => simp [Judge.keepsDetail, hs] at hkeeps
            | some _ => rfl
          rcases mem_append.mp hd with hd | hd
          · exact hdetails d hd
          · rw [mem_singleton.mp hd]
            exact hsource hshow x mem_cons_self hmem
        · exact hdetails d hd
      generalize (if judge.keepsDetail acc.2.2.length then _ else acc.2.2) = details at hnew ⊢
      obtain ⟨hids, hcount, hdets⟩ :=
        @ih (acc.1.set x.1, acc.2.1 + 1, details) hposs hsources hnew
      refine ⟨fun y => ?_, ?_, hdets⟩
      · rw [hids, IdSet.mem_set, mem_cons]
        have := hpos x mem_cons_self
        constructor
        · rintro ((hy | ⟨hy, -⟩) | hy)
          · exact .inl hy
          · exact .inr (.inl hy)
          · exact .inr (.inr hy)
        · rintro (hy | rfl | hy)
          · exact .inl (.inl hy)
          · exact .inl (.inr ⟨rfl, this⟩)
          · exact .inr hy
      · rw [hcount, length_cons]
        exact Nat.add_right_comm _ 1 _

/-- A deferred reference and its source, read at one place of the two lists. -/
theorem deferred_source {refs : List (Int64 × Int64)} {x : Int64 × Nat}
    (hx : x ∈ (refs.map Prod.fst).zipIdx) : (x.1, (refs.map Prod.snd).getD x.2 0) ∈ refs := by
  have hget := mem_zipIdx_iff_getElem?.mp hx
  rw [getElem?_map, Option.map_eq_some_iff] at hget
  obtain ⟨y, hy, heq⟩ := hget
  have hsnd : (refs.map Prod.snd).getD x.2 0 = y.2 := by
    rw [getD_eq_getElem?_getD, getElem?_map, hy]
    rfl
  rw [hsnd, ← heq]
  exact mem_of_getElem? hy

lemma mem_relationRefs {relations : List RelationSpan} {x : Int64 × Int64}
    (h : x ∈ relationRefs relations) : ∃ r ∈ relations, x.1 ∈ r.relationMembers ∧ x.2 = r.id := by
  obtain ⟨r, hr, hx⟩ := mem_flatMap.mp h
  obtain ⟨y, hy, rfl⟩ := mem_map.mp hx
  exact ⟨r, hr, hy, rfl⟩

lemma mem_missing {refs targets : List Int64} {x : Int64} :
    x ∈ missing refs targets ↔ x ∈ refs ∧ x ∉ targets := by
  simp [missing]

/-- The size of a set of missing ids, whatever the order the references were judged in. -/
theorem len_missing {β : Type} {s : IdSet} {xs ys : List β} {f : β → List Int64}
    {targets : List Int64} (hs : ∀ x, x ∈ s.ids ↔ x ∈ missing (xs.flatMap f) targets)
    (hperm : xs.Perm ys) : s.len = (missing (ys.flatMap f) targets).dedup.length := by
  refine IdSet.len_eq fun x => ?_
  rw [hs, mem_missing, mem_missing, (hperm.flatMap_right f).mem_iff]

lemma relationMember_nonneg (m : MemberId) (x : Int64) (h : relationMember m = some x)
    (hm : GoodMember m) : 0 ≤ x.toInt := by
  cases m <;> cases h
  exact hm

lemma resolveAllDeferred_spec (h : Checkable blobs) (hc : Counted judge blobs ns ws rs tally)
    (hrs : ∀ r ∈ rs, r ∈ relationsOf blobs) (hcomplete : Complete blobs .relation sets.relations) :
    (∀ x, x ∈ (resolveAllDeferred judge sets tally).1.ids ↔
        x ∈ missing (rs.flatMap RelationSpan.relationMembers) (idsOf blobs .relation)) ∧
      (resolveAllDeferred judge sets tally).2.1 =
        (missing (rs.flatMap RelationSpan.relationMembers) (idsOf blobs .relation)).length ∧
      ∀ d ∈ (resolveAllDeferred judge sets tally).2.2, Dangling blobs d := by
  have hmembers : ∀ r ∈ rs, ∀ m ∈ r.members, GoodMember m := by
    intro r hr
    obtain ⟨b, hb, hrb⟩ := mem_flatMap.mp (hrs r hr)
    exact (relationSpans_good h hb r hrb).2
  have hdeferred : tally.deferredRelationRefs = rs.flatMap RelationSpan.relationMembers := by
    rw [hc.deferred, relationRefs_fst]
  have hpos : ∀ x ∈ tally.deferredRelationRefs.zipIdx, 0 ≤ x.1.toInt := by
    intro x hx
    have hmem := mem_of_getElem? (mem_zipIdx_iff_getElem?.mp hx)
    rw [hdeferred] at hmem
    exact goodMember_of_mem relationMember_nonneg hmembers x.1 hmem
  have hsource : judge.showIds.isSome = true → ∀ x ∈ tally.deferredRelationRefs.zipIdx,
      x.1 ∉ idsOf blobs .relation →
        Dangling blobs ⟨'r', x.1, 'r', tally.deferredRelationRefSources.getD x.2 0⟩ := by
    intro hshow x hx hmiss
    rw [hc.deferred] at hx
    obtain ⟨r, hr, href, hid⟩ := mem_relationRefs (deferred_source hx)
    have hsrc : ((relationRefs rs).map Prod.snd).getD x.2 0 = r.id := hid
    rw [hc.sources hshow, hsrc]
    exact .relationRelation (hrs r hr) href hmiss
  obtain ⟨hids, hcount, hdetails⟩ := @fold_deferred judge blobs sets
    tally.deferredRelationRefSources tally.deferredRelationRefs.zipIdx ({}, 0, tally.missingRefs)
    hcomplete hpos hsource hc.details
  rw [zipIdx_map_fst] at hids hcount
  rw [← hdeferred]
  refine ⟨fun x => ?_, ?_, hdetails⟩
  · rw [resolveAllDeferred, hids]
    simp
  · rw [resolveAllDeferred, hcount, Nat.zero_add]

lemma report_with_relations (h : Checkable blobs) (hrel : judge.checkRelations = true)
    (hc : Counted judge blobs ns ws rs tally) (hns : ns.Perm (nodeIdsOf blobs))
    (hws : ws.Perm (waysOf blobs)) (hrs : rs.Perm (relationsOf blobs))
    (hcomplete : Complete blobs .relation sets.relations) :
    (report judge sets tally).counts = plainCounts blobs ∧
      ∀ d ∈ (report judge sets tally).missingRefs, Dangling blobs d := by
  obtain ⟨hids, hcount, hdetails⟩ :=
    @resolveAllDeferred_spec judge blobs sets ns ws rs tally h hc (fun r hr => hrs.mem_iff.mp hr)
      hcomplete
  have hoccurrences : (missing (rs.flatMap RelationSpan.relationMembers)
      (idsOf blobs .relation)).length = (missing ((relationsOf blobs).flatMap
        RelationSpan.relationMembers) (idsOf blobs .relation)).length :=
    ((hrs.flatMap_right _).filter _).length_eq
  rw [report, if_pos hrel]
  refine ⟨?_, hdetails⟩
  simp only [RefCheckResult.counts, plainCounts, Counts.mk.injEq]
  refine ⟨?_, ?_, ?_, len_missing hc.nodesInWays hws, len_missing hc.waysInRelations hrs,
    len_missing hc.nodesInRelations hrs, len_missing hids hrs, ?_⟩
  · rw [hc.nodeCount, hns.length_eq]
  · rw [hc.wayCount, hws.length_eq]
  · rw [hc.relationCount, hrs.length_eq]
  · rw [hcount, hoccurrences]

lemma report_without_relations (hrel : judge.checkRelations = false)
    (hc : Counted judge blobs ns ws [] tally) (hns : ns.Perm (nodeIdsOf blobs))
    (hws : ws.Perm (waysOf blobs)) :
    (report judge sets tally).counts = (plainCounts blobs).withoutRelations ∧
      ∀ d ∈ (report judge sets tally).missingRefs, Dangling blobs d := by
  have hempty : ∀ s : IdSet, (∀ x, x ∈ s.ids ↔ x ∈ ([] : List Int64)) → s.len = 0 :=
    fun s hs => IdSet.len_eq hs
  rw [report, if_neg (by simp [hrel])]
  refine ⟨?_, hc.details⟩
  simp only [RefCheckResult.counts, plainCounts, Counts.withoutRelations, Counts.mk.injEq, and_true]
  refine ⟨?_, ?_, hc.relationCount, len_missing hc.nodesInWays hws, hempty _ hc.waysInRelations,
    hempty _ hc.nodesInRelations⟩
  · rw [hc.nodeCount, hns.length_eq]
  · rw [hc.wayCount, hws.length_eq]

lemma preAllocated_ok (judge : Judge) (bound : ElementKind → Int64) (blobs : List Blob) :
    SetsOk (fun k => ((preAllocated judge bound).of k).covers) blobs (preAllocated judge bound) := by
  refine ⟨fun _ _ => rfl, fun k id hid => ?_⟩
  have hempty : ∀ m, (IdSet.preAllocate {} m).ids = [] := by
    intro m
    unfold IdSet.preAllocate
    split <;> rfl
  cases k with
  | node =>
    simp only [preAllocated, Sets.of, hempty] at hid
    cases hid
  | way | relation =>
    simp only [preAllocated, Sets.of] at hid
    split at hid
    · rw [hempty] at hid
      cases hid
    · cases hid

/-- The part the two modes share: every node and way counted, the node set complete, and the way set
too when relations are checked. -/
theorem firstTwo_always {workers : Nat} {waySchedule relSchedule : List Blob} (hw : 0 < workers)
    (h : Checkable blobs) (hindex : TrulyIndexed blobs)
    (hfirst : FirstDone judge cov blobs ns ws rs sets tally waySchedule relSchedule) :
    (wayPhase workers judge waySchedule sets tally).Always fun x =>
      ∃ ws', ws'.Perm (waysOf blobs) ∧ Complete blobs .node x.1.nodes ∧
        (judge.checkRelations = true → Complete blobs .way (x.1.ways.merge x.2.wayOverflow)) ∧
        Between judge cov blobs ns [] ws' [] rs
          { x.1 with ways := x.1.ways.merge x.2.wayOverflow } { x.2 with wayOverflow := {} } := by
  refine (wayPhase_always hw h hindex hfirst.waySub hfirst.between hfirst.complete).imp ?_
  rintro ⟨sets', tally'⟩ ⟨ws', hws', hcomplete, hbetween⟩
  have hall : (ws ++ ws').Perm (waysOf blobs) := (hws'.append_left ws).trans hfirst.ways
  obtain ⟨hways, hnext⟩ := hbetween.ways_complete hall
  exact ⟨ws ++ ws', hall, hcomplete, hways, hnext⟩

lemma check_with_relations {workers : Nat} {bound : ElementKind → Int64} (hw : 0 < workers)
    (h : Checkable blobs) (hindex : TrulyIndexed blobs) (hrel : judge.checkRelations = true) :
    (checkRefsInner workers judge bound blobs).Always fun r =>
      r.counts = plainCounts blobs ∧ ∀ d ∈ r.missingRefs, Dangling blobs d := by
  have hok := preAllocated_ok judge bound blobs
  have hfirst := @firstPhase_always judge _ blobs _ workers hw h hindex hok
  refine Outcomes.always_bind hfirst fun schedules hphase => ?_
  refine Outcomes.always_bind hphase ?_
  rintro ⟨sets₁, tally₁, waySchedule, relSchedule⟩ ⟨ns, ws, rs, hdone⟩
  refine Outcomes.always_bind (firstTwo_always hw h hindex hdone) ?_
  rintro ⟨sets₂, tally₂⟩ ⟨ws', hws, hnodes, hways, hbetween⟩
  simp only [hrel, if_true]
  refine Outcomes.always_bind
    (relationPhase_always hw h hindex hdone.relSub hbetween hnodes (hways hrel)) ?_
  rintro ⟨sets₃, tally₃⟩ ⟨rs', hrs', hlast⟩
  have hrs : (rs ++ rs').Perm (relationsOf blobs) :=
    (hrs'.append_left rs).trans (hdone.relations hrel)
  have hids : ∀ x, x ∈ (rs ++ rs').map RelationSpan.id ↔ x ∈ idsOf blobs .relation :=
    fun x => (hrs.map RelationSpan.id).mem_iff
  have hcomplete : Complete blobs .relation (sets₃.relations.merge tally₃.relationOverflow) := by
    refine complete_of_merge hids (hlast.ok.within .relation) (fun x hx hcov => ?_)
      hlast.overflows.relations
    obtain ⟨r, hr, rfl⟩ := mem_map.mp hx
    exact hlast.relationsIn r hr hcov
  have hcounted : Counted judge blobs ns ws' (rs ++ rs') { tally₃ with relationOverflow := {} } :=
    { hlast.counted with }
  exact Outcomes.always_pure
    (report_with_relations h hrel hcounted hdone.nodes hws hrs hcomplete)

lemma check_without_relations {workers : Nat} {bound : ElementKind → Int64} (hw : 0 < workers)
    (h : Checkable blobs) (hindex : TrulyIndexed blobs) (hrel : judge.checkRelations = false) :
    (checkRefsInner workers judge bound blobs).Always fun r =>
      r.counts = (plainCounts blobs).withoutRelations ∧ ∀ d ∈ r.missingRefs, Dangling blobs d := by
  have hok := preAllocated_ok judge bound blobs
  have hfirst := @firstPhase_always judge _ blobs _ workers hw h hindex hok
  refine Outcomes.always_bind hfirst fun schedules hphase => ?_
  refine Outcomes.always_bind hphase ?_
  rintro ⟨sets₁, tally₁, waySchedule, relSchedule⟩ ⟨ns, ws, rs, hdone⟩
  refine Outcomes.always_bind (firstTwo_always hw h hindex hdone) ?_
  rintro ⟨sets₂, tally₂⟩ ⟨ws', hws, -, -, hbetween⟩
  have hcounted := hbetween.counted
  rw [hdone.noRelations hrel] at hcounted
  simp only [hrel, Bool.false_eq_true, if_false]
  exact Outcomes.always_pure (report_without_relations hrel hcounted hdone.nodes hws)

end Report

/-- Every run of the check ends with a report. With relations checked its counts are the plain ones;
without, only nodes and ways are counted. No reference is reported whose target the file defines. -/
theorem check_refs_reports_plain_counts (workers : Nat) (judge : Judge)
    (bound : ElementKind → Int64) (blobs : List Blob) (hw : 0 < workers) (h : Checkable blobs)
    (hindex : TrulyIndexed blobs) :
    (checkRefsInner workers judge bound blobs).Always fun r =>
      r.counts = (if judge.checkRelations then plainCounts blobs
        else (plainCounts blobs).withoutRelations) ∧
      ∀ d ∈ r.missingRefs, Dangling blobs d := by
  by_cases hrel : judge.checkRelations = true
  · rw [if_pos hrel]
    exact check_with_relations hw h hindex hrel
  · rw [if_neg hrel]
    exact check_without_relations hw h hindex (by simpa using hrel)

/-- A way before its nodes, one of them missing, and a relation that refers to itself. -/
def mixedBlobs : List Blob :=
  [⟨none, [.way 7 [1, 2], .relation 9 [.way 7, .relation 9]]⟩, ⟨none, [.node 1]⟩]

lemma mixedBlobs_checkable : Checkable mixedBlobs := by
  intro b hb e he
  simp only [mixedBlobs, mem_cons, not_mem_nil, or_false] at hb
  rcases hb with rfl | rfl
  · simp only [mem_cons, not_mem_nil, or_false] at he
    rcases he with rfl | rfl
    · refine ⟨by decide, fun x hx => ?_⟩
      simp only [mem_cons, not_mem_nil, or_false] at hx
      rcases hx with rfl | rfl <;> decide
    · refine ⟨by decide, fun m hm => ?_⟩
      simp only [mem_cons, not_mem_nil, or_false] at hm
      rcases hm with rfl | rfl
      · change (0 : Int) ≤ (7 : Int64).toInt
        decide
      · change (0 : Int) ≤ (9 : Int64).toInt
        decide
  · simp only [mem_singleton] at he
    subst he
    change (0 : Int) ≤ (1 : Int64).toInt
    decide

lemma mixedBlobs_indexed : TrulyIndexed mixedBlobs := by
  refine .inr fun b hb => ?_
  simp only [mixedBlobs, mem_cons, not_mem_nil, or_false] at hb
  rcases hb with rfl | rfl <;> rfl

theorem mixedBlobs_counted : (plainCounts mixedBlobs).missingNodeRefs = 1 ∧
      (checkRefsInner 2 ⟨true, none⟩ (fun _ => 5) mixedBlobs).Always fun r =>
        r.counts = plainCounts mixedBlobs ∧ ∀ d ∈ r.missingRefs, Dangling mixedBlobs d :=
  ⟨by decide, check_refs_reports_plain_counts 2 ⟨true, none⟩ (fun _ => 5) mixedBlobs (by decide)
    mixedBlobs_checkable mixedBlobs_indexed⟩

/-- Without `--check-relations` a relation of the file is not counted. -/
theorem relations_not_counted :
    ∃ r, checkRefsInner 2 ⟨false, none⟩ (fun _ => 5) mixedBlobs (.ok r) ∧ r.relationCount = 0 ∧
      (relationsOf mixedBlobs).length = 1 := by
  obtain ⟨⟨r, hr⟩, hall⟩ := @check_without_relations ⟨false, none⟩ mixedBlobs 2 (fun _ => 5)
    (by decide) mixedBlobs_checkable mixedBlobs_indexed rfl
  obtain ⟨rep, rfl, hcounts, -⟩ := hall r hr
  exact ⟨rep, hr, congrArg Counts.relations hcounts, rfl⟩

end CheckRefs
