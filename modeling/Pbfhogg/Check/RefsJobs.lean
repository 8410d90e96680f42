import Pbfhogg.Check.Refs

/-!
# Judging a blob of the reference check

The plain definition of what the check counts, from the complete id sets of the file, what the
shared sets can answer while they fill, and what a job then knows of its blob.
-/

namespace CheckRefs

open OsmId BlobMeta SharedPool IdSpace List
open MergeJoin (MemberId)

variable {k : ElementKind} {id : Int64} {history t : List (SetOp × Bool)} {ids : List Int64}
  {r : WayBlobResult} {pairs : List (Int64 × MemberId)}

variable (blobs : List Blob)

def waysOf : List WaySpan := blobs.flatMap Blob.waySpans

def relationsOf : List RelationSpan := blobs.flatMap Blob.relationSpans

def nodeIdsOf : List Int64 := blobs.flatMap Blob.nodeIds

/-- The ids of one kind in the file. -/
def idsOf : ElementKind → List Int64
  | .node => nodeIdsOf blobs
  | .way => (waysOf blobs).map WaySpan.id
  | .relation => (relationsOf blobs).map RelationSpan.id

def nodeMember : MemberId → Option Int64
  | .node id => some id
  | _ => none

def wayMember : MemberId → Option Int64
  | .way id => some id
  | _ => none

def relationMember : MemberId → Option Int64
  | .relation id => some id
  | _ => none

def RelationSpan.nodeMembers (r : RelationSpan) : List Int64 := r.members.filterMap nodeMember

def RelationSpan.wayMembers (r : RelationSpan) : List Int64 := r.members.filterMap wayMember

def RelationSpan.relationMembers (r : RelationSpan) : List Int64 :=
  r.members.filterMap relationMember

/-- The references of the list with no element among `defined`. -/
def missing (refs defined : List Int64) : List Int64 := refs.filter fun x => decide (x ∉ defined)

structure Counts where
  nodes : Nat
  ways : Nat
  relations : Nat
  missingNodeRefs : Nat
  missingWayRefs : Nat
  missingNodeMembers : Nat
  missingRelationMembers : Nat
  missingRelationMemberOccurrences : Nat

def RefCheckResult.counts (r : RefCheckResult) : Counts where
  nodes := r.nodeCount
  ways := r.wayCount
  relations := r.relationCount
  missingNodeRefs := r.missingNodeRefs
  missingWayRefs := r.missingWayRefs
  missingNodeMembers := r.missingNodeMembers
  missingRelationMembers := r.missingRelationMembers
  missingRelationMemberOccurrences := r.missingRelationMemberOccurrences

/-- Elements are counted once each, missing ids once for each category. -/
def plainCounts : Counts where
  nodes := (nodeIdsOf blobs).length
  ways := (waysOf blobs).length
  relations := (relationsOf blobs).length
  missingNodeRefs :=
    (missing ((waysOf blobs).flatMap WaySpan.refs) (idsOf blobs .node)).dedup.length
  missingWayRefs :=
    (missing ((relationsOf blobs).flatMap RelationSpan.wayMembers) (idsOf blobs .way)).dedup.length
  missingNodeMembers :=
    (missing ((relationsOf blobs).flatMap RelationSpan.nodeMembers)
      (idsOf blobs .node)).dedup.length
  missingRelationMembers :=
    (missing ((relationsOf blobs).flatMap RelationSpan.relationMembers)
      (idsOf blobs .relation)).dedup.length
  missingRelationMemberOccurrences :=
    (missing ((relationsOf blobs).flatMap RelationSpan.relationMembers)
      (idsOf blobs .relation)).length

/-- What is left of the counts when relations are not read. -/
def Counts.withoutRelations (c : Counts) : Counts :=
  { c with
    relations := 0
    missingWayRefs := 0
    missingNodeMembers := 0
    missingRelationMembers := 0
    missingRelationMemberOccurrences := 0 }

/-- A reference of the file whose target the file does not define. -/
inductive Dangling (blobs : List Blob) : MissingRef → Prop where
  | wayNode {w : WaySpan} {id : Int64} (hw : w ∈ waysOf blobs) (href : id ∈ w.refs)
      (hmiss : id ∉ idsOf blobs .node) : Dangling blobs ⟨'n', id, 'w', w.id⟩
  | relationNode {r : RelationSpan} {id : Int64} (hr : r ∈ relationsOf blobs)
      (href : id ∈ r.nodeMembers) (hmiss : id ∉ idsOf blobs .node) :
      Dangling blobs ⟨'n', id, 'r', r.id⟩
  | relationWay {r : RelationSpan} {id : Int64} (hr : r ∈ relationsOf blobs)
      (href : id ∈ r.wayMembers) (hmiss : id ∉ idsOf blobs .way) :
      Dangling blobs ⟨'w', id, 'r', r.id⟩
  | relationRelation {r : RelationSpan} {id : Int64} (hr : r ∈ relationsOf blobs)
      (href : id ∈ r.relationMembers) (hmiss : id ∉ idsOf blobs .relation) :
      Dangling blobs ⟨'r', id, 'r', r.id⟩

/-- The member is of a known type and refers to no negative id. -/
def GoodMember : MemberId → Prop
  | .node x | .way x | .relation x => 0 ≤ x.toInt
  | .unknown _ _ => False

def NonNegElement : Element → Prop
  | .node id => 0 ≤ id.toInt
  | .way id refs => 0 ≤ id.toInt ∧ ∀ x ∈ refs, 0 ≤ x.toInt
  | .relation id members => 0 ≤ id.toInt ∧ ∀ m ∈ members, GoodMember m

/-- Ids and references are not negative, and member types are known. -/
def Checkable : Prop := ∀ b ∈ blobs, ∀ e ∈ b.elements, NonNegElement e

/-- Every blob claims the one kind of its elements, or none claims a kind. -/
def TrulyIndexed : Prop :=
  (∀ b ∈ blobs, ∃ k, b.claim = some k ∧ ∀ e ∈ b.elements, e.kind = k) ∨
    ∀ b ∈ blobs, b.claim = none

@[simp] lemma update_of_self (s : Sets) (k : ElementKind) (x : IdSet) :
    (s.update k x).of k = x := by
  cases k <;> rfl

lemma update_of_ne {s : Sets} {k' : ElementKind} {x : IdSet} (h : k' ≠ k) :
    (s.update k x).of k' = s.of k' := by
  cases k <;> cases k' <;> first | rfl | exact absurd rfl h

lemma covers_eq {s s' : IdSet} (h : s.preAllocated = s'.preAllocated) (id : Int64) :
    s.covers id = s'.covers id := by
  simp only [IdSet.covers, h]

lemma nonneg_of_covers {s : IdSet} (h : s.covers id = true) : 0 ≤ id.toInt := by
  unfold IdSet.covers at h
  split at h
  · cases h
  · exact (of_decide_eq_true h).1

lemma setAtomicChecked_fst (s : IdSet) (id : Int64) : (s.setAtomicChecked id).1 = s.covers id := by
  unfold IdSet.setAtomicChecked
  split
  · next h => exact h.symm
  · next h => simpa using h

lemma setAtomicChecked_preAllocated (s : IdSet) (id : Int64) :
    (s.setAtomicChecked id).2.preAllocated = s.preAllocated := by
  unfold IdSet.setAtomicChecked
  split
  · exact IdSet.preAllocated_set s id
  · rfl

lemma mem_setAtomicChecked {s : IdSet} {x : Int64} :
    x ∈ (s.setAtomicChecked id).2.ids ↔ x ∈ s.ids ∨ (x = id ∧ s.covers id = true) := by
  unfold IdSet.setAtomicChecked
  split
  · next h =>
    rw [IdSet.mem_set]
    constructor
    · rintro (hx | ⟨hx, -⟩)
      · exact .inl hx
      · exact .inr ⟨hx, h⟩
    · rintro (hx | ⟨hx, -⟩)
      · exact .inl hx
      · exact .inr ⟨hx, nonneg_of_covers h⟩
  · next h => simp [h]

/-- The sets after a history: what was there and what was inserted. -/
structure SetsAfter (before : Sets) (history : List (SetOp × Bool)) (s : Sets) : Prop where
  pre : ∀ k, (s.of k).preAllocated = (before.of k).preAllocated
  mem : ∀ k id, id ∈ (s.of k).ids ↔
    id ∈ (before.of k).ids ∨ (SetOp.setAtomicChecked k id, true) ∈ history

/-- What every entry of a history says. -/
def Truthful (before : Sets) (history : List (SetOp × Bool)) : SetOp × Bool → Prop
  | (.setAtomicChecked k id, b) => b = (before.of k).covers id
  | (.get k id, true) =>
    id ∈ (before.of k).ids ∨ (SetOp.setAtomicChecked k id, true) ∈ history
  | (.get k id, false) => id ∉ (before.of k).ids

lemma Truthful.mono {before : Sets} {x y : SetOp × Bool} (h : Truthful before history x) :
    Truthful before (history ++ [y]) x := by
  obtain ⟨o, b⟩ := x
  cases o with
  | setAtomicChecked k id => exact h
  | get k id =>
    cases b with
    | true => exact h.imp_right (mem_append_left _)
    | false => exact h

lemma setsAfter_of_exec {before s : Sets} (h : Exec (sharedSets before) before history s) :
    SetsAfter before history s ∧ ∀ x ∈ history, Truthful before history x := by
  induction h with
  | refl => exact ⟨⟨fun _ => rfl, by simp⟩, by simp⟩
  | snoc hrun hstep ih =>
    rename_i s s'' hist o b
    obtain ⟨hafter, htrue⟩ := ih
    have hold : ∀ x ∈ hist, Truthful before (hist ++ [(o, b)]) x :=
      fun x hx => (htrue x hx).mono
    have hnew : SetsAfter before (hist ++ [(o, b)]) s'' ∧
        Truthful before (hist ++ [(o, b)]) (o, b) := by
      cases hstep with
      | set k id =>
        have hcov : (s.of k).covers id = (before.of k).covers id := covers_eq (hafter.pre k) id
        rw [setAtomicChecked_fst, hcov]
        refine ⟨⟨fun k' => ?_, fun k' x => ?_⟩, rfl⟩
        · by_cases hk : k' = k
          · subst hk
            rw [update_of_self, setAtomicChecked_preAllocated, hafter.pre]
          · rw [update_of_ne hk, hafter.pre]
        · by_cases hk : k' = k
          · subst hk
            rw [update_of_self, mem_setAtomicChecked, hafter.mem, hcov]
            simp only [mem_append, mem_singleton, Prod.mk.injEq,
              SetOp.setAtomicChecked.injEq, true_and, or_assoc]
            exact or_congr_right (or_congr_right (and_congr_right fun _ => eq_comm))
          · rw [update_of_ne hk, hafter.mem]
            simp [hk]
      | hit hget =>
        rename_i k id
        refine ⟨⟨hafter.pre, fun k' x => ?_⟩, ?_⟩
        · rw [hafter.mem]
          simp
        · have hmem := (hafter.mem k id).mp (of_decide_eq_true hget)
          exact hmem.imp_right (mem_append_left _)
      | miss hget =>
        rename_i k id
        refine ⟨⟨hafter.pre, fun k' x => ?_⟩, fun hbefore => ?_⟩
        · rw [hafter.mem]
          simp
        · have hmem : id ∈ (s.of k).ids := (hafter.mem k id).mpr (.inl hbefore)
          have hno := hget (decide_eq_true hmem)
          exact of_decide_eq_false hno hbefore
    refine ⟨hnew.1, fun x hx => ?_⟩
    rcases mem_append.mp hx with hx | hx
    · exact hold x hx
    · rw [mem_singleton.mp hx]
      exact hnew.2

/-- What the shared sets answer in a phase that began with `before`, over a file that defines
`defined`, when atomic insertion reaches the ids of `cov`. -/
def Contract (cov : ElementKind → Int64 → Bool) (before : Sets)
    (defined : ElementKind → List Int64) : SetOp → Bool → Prop
  | .setAtomicChecked k id, b => b = cov k id
  | .get k id, true => id ∈ defined k
  | .get k id, false => id ∉ (before.of k).ids

/-- Jobs insert only ids of the file. -/
def Inserts (defined : ElementKind → List Int64) : SetOp → Prop
  | .setAtomicChecked k id => id ∈ defined k
  | .get _ _ => True

lemma contract_of_exec {cov : ElementKind → Int64 → Bool} {before s : Sets}
    {defined : ElementKind → List Int64} (hcov : ∀ k id, (before.of k).covers id = cov k id)
    (hbefore : ∀ k, ∀ id ∈ (before.of k).ids, id ∈ defined k)
    (h : Exec (sharedSets before) before history s) (hown : ∀ x ∈ history, Inserts defined x.1) :
    ∀ x ∈ history, Contract cov before defined x.1 x.2 := by
  rintro ⟨o, b⟩ hx
  have htrue := (setsAfter_of_exec h).2 _ hx
  cases o with
  | setAtomicChecked k id => exact htrue.trans (hcov k id)
  | get k id =>
    cases b with
    | true =>
      rcases htrue with hmem | hmem
      · exact hbefore k id hmem
      · exact hown _ hmem
    | false => exact htrue

/-- `m` is what was missed of the references, each looked up with an answer of its own. -/
inductive Screened (hit miss : Int64 → Prop) : List Int64 → List Int64 → Prop where
  | nil : Screened hit miss [] []
  | hit {refs m : List Int64} {x : Int64} (h : Screened hit miss refs m) (hx : hit x) :
      Screened hit miss (refs ++ [x]) m
  | miss {refs m : List Int64} {x : Int64} (h : Screened hit miss refs m) (hx : miss x) :
      Screened hit miss (refs ++ [x]) (m ++ [x])

lemma Screened.all_hit {hit miss : Int64 → Prop} {refs m : List Int64}
    (h : Screened hit miss refs m) (hm : m = []) : ∀ x ∈ refs, hit x := by
  induction h with
  | nil => simp
  | hit _ hx ih =>
    intro y hy
    rcases mem_append.mp hy with hy | hy
    · exact ih hm y hy
    · rw [mem_singleton.mp hy]
      exact hx
  | miss => simp at hm

/-- Against a complete set the missed ones are those without a target. -/
theorem Screened.mem_iff {hit miss : Int64 → Prop} {refs m : List Int64} {targets : List Int64}
    (h : Screened hit miss refs m) (hhit : ∀ x, hit x → x ∈ targets)
    (hmiss : ∀ x, miss x → x ∉ targets) (x : Int64) : x ∈ m ↔ x ∈ missing refs targets := by
  induction h with
  | nil => simp [missing]
  | hit _ hx ih =>
    rename_i y _
    rw [ih, missing, missing, filter_append]
    simp [hhit y hx]
  | miss _ hx ih =>
    rename_i y _
    rw [mem_append, ih, missing, missing, filter_append]
    simp [hmiss y hx]

lemma mem_dedup (ids : List Int64) (x : Int64) : x ∈ dedup ids ↔ x ∈ ids := by
  induction ids using dedup.induct with
  | case1 => rfl
  | case2 => rfl
  | case3 y rest ih =>
    rw [dedup, if_pos rfl, ih]
    simp
  | case4 y z rest hne ih =>
    rw [dedup, if_neg hne, mem_cons, ih]
    exact mem_cons.symm

lemma mem_sortDedup (ids : List Int64) (x : Int64) : x ∈ sortDedup ids ↔ x ∈ ids := by
  rw [sortDedup, mem_dedup, sortIds, mem_mergeSort]

section Jobs

variable {judge : Judge} {cov : ElementKind → Int64 → Bool} {before : Sets}
  {defined : ElementKind → List Int64}

/-- The ids that atomic insertion does not reach. -/
def uncovered (cov : ElementKind → Int64 → Bool) (k : ElementKind) (ids : List Int64) :
    List Int64 :=
  ids.filter fun id => !cov k id

/-- The trace inserts every id that can be inserted. -/
def Inserted (cov : ElementKind → Int64 → Bool) (k : ElementKind) (ids : List Int64)
    (t : List (SetOp × Bool)) : Prop :=
  ∀ id ∈ ids, cov k id = true → (SetOp.setAtomicChecked k id, true) ∈ t

lemma Inserted.append (h : Inserted cov k ids t) (t' : List (SetOp × Bool)) :
    Inserted cov k ids (t ++ t') :=
  fun id hid hcov => mem_append_left _ (h id hid hcov)

lemma Inserted.snoc (h : Inserted cov k ids t) (id : Int64) :
    Inserted cov k (ids ++ [id]) (t ++ [(.setAtomicChecked k id, cov k id)]) := by
  intro x hx hcov
  rcases mem_append.mp hx with hx | hx
  · exact mem_append_left _ (h x hx hcov)
  · rw [mem_singleton.mp hx] at hcov ⊢
    rw [hcov]
    exact mem_append_right _ (mem_singleton_self _)

/-- The rule of an insertion: what follows is ensured for the one answer it can get. -/
theorem ensures_set {α : Type} {f : Bool → BlobJob α} {post : List (SetOp × Bool) → α → Prop}
    (h : (f (cov k id)).Ensures (Contract cov before defined)
      fun t r => post ((.setAtomicChecked k id, cov k id) :: t) r) :
    (setAtomicChecked k id >>= f).Ensures (Contract cov before defined) post := by
  refine Job.ensures_ask fun b hb => ?_
  cases hb
  exact h

/-- The rule of a lookup. -/
theorem ensures_get {α : Type} {f : Bool → BlobJob α} {post : List (SetOp × Bool) → α → Prop}
    (htrue : id ∈ defined k → (f true).Ensures (Contract cov before defined)
      fun t r => post ((.get k id, true) :: t) r)
    (hfalse : id ∉ (before.of k).ids → (f false).Ensures (Contract cov before defined)
      fun t r => post ((.get k id, false) :: t) r) :
    (get k id >>= f).Ensures (Contract cov before defined) post := by
  refine Job.ensures_ask fun b hb => ?_
  cases b with
  | true => exact htrue hb
  | false => exact hfalse hb

lemma ensures_accepted {α : Type} {b : Blob} {j : BlobJob α}
    {Q : SetOp → Bool → Prop} {post : List (SetOp × Bool) → α → Prop} (hb : b.accept = .ok ())
    (h : j.Ensures Q post) : (do accepted b; j : BlobJob α).Ensures Q post := by
  rw [accepted, hb]
  exact h

/-- What is known of the nodes of a blob once they are replayed. -/
structure NodesReplayed (cov : ElementKind → Int64 → Bool) (ids : List Int64)
    (t : List (SetOp × Bool)) (r : Nat × List Int64) : Prop where
  count : r.1 = ids.length
  overflow : r.2 = uncovered cov .node ids
  inserted : Inserted cov .node ids t

lemma replayNodes_ensures (hpos : ∀ id ∈ ids, 0 ≤ id.toInt) :
    (replayNodes ids).Ensures (Contract cov before defined) (NodesReplayed cov ids) := by
  refine Job.ensures_foldlM ⟨rfl, rfl, by simp [Inserted]⟩ ?_
  intro done id hid t r hinv
  have hnonneg := hpos id hid
  refine ensures_set ?_
  cases hcov : cov .node id with
  | true =>
    refine Job.ensures_ret ⟨by simp [hinv.count], by simp [hinv.overflow, uncovered, hcov], ?_⟩
    have := hinv.inserted.snoc id
    rwa [hcov] at this
  | false =>
    simp only [Bool.false_eq_true, if_false]
    rw [if_neg (by omega)]
    refine Job.ensures_ret ⟨by simp [hinv.count], by simp [hinv.overflow, uncovered, hcov], ?_⟩
    have := hinv.inserted.snoc id
    rwa [hcov] at this

def WaySpan.refPairs (w : WaySpan) : List (Int64 × Int64) := w.refs.map fun x => (w.id, x)

/-- What is known of a blob's ways while they are judged: the ids entered so far and the references
looked up so far, each with the id of its way. -/
structure WaysSoFar (judge : Judge) (cov : ElementKind → Int64 → Bool) (before : Sets)
    (defined : ElementKind → List Int64) (ids : List Int64) (pairs : List (Int64 × Int64))
    (t : List (SetOp × Bool)) (r : WayBlobResult) : Prop where
  count : r.wayCount = ids.length
  overflow : r.overflowIds = if judge.checkRelations then uncovered cov .way ids else []
  inserted : judge.checkRelations = true → Inserted cov .way ids t
  screened : Screened (· ∈ defined .node) (· ∉ before.nodes.ids) (pairs.map Prod.snd)
    r.missingNodeRefs
  details : ∀ d ∈ r.missingRefs, ∃ x ∈ pairs, x.2 ∈ r.missingNodeRefs ∧ d = ⟨'n', x.2, 'w', x.1⟩

lemma mem_kept {b : Bool} {kept : List MissingRef} {d x : MissingRef}
    (h : d ∈ if b then kept ++ [x] else kept) : d ∈ kept ∨ d = x := by
  split at h
  · simpa using h
  · exact .inl h

lemma judgeRef_ensures {pairs : List (Int64 × Int64)} {wid nref : Int64}
    (h : WaysSoFar judge cov before defined ids pairs t r) (hpos : 0 ≤ nref.toInt) :
    (judgeRef judge wid r nref).Ensures (Contract cov before defined) fun t' r' =>
      WaysSoFar judge cov before defined ids (pairs ++ [(wid, nref)]) (t ++ t') r' := by
  have hdetails : ∀ d ∈ r.missingRefs, ∃ x ∈ pairs ++ [(wid, nref)],
      x.2 ∈ r.missingNodeRefs ∧ d = ⟨'n', x.2, 'w', x.1⟩ := by
    intro d hd
    obtain ⟨x, hx, hrest⟩ := h.details d hd
    exact ⟨x, mem_append_left _ hx, hrest⟩
  refine ensures_get (fun hmem => ?_) (fun hmiss => ?_)
  · refine Job.ensures_ret ⟨h.count, h.overflow, fun hc => (h.inserted hc).append _, ?_, hdetails⟩
    simpa using h.screened.hit hmem
  · simp only [Bool.false_eq_true, if_false]
    rw [if_neg (by omega)]
    refine Job.ensures_ret ⟨h.count, h.overflow, fun hc => (h.inserted hc).append _, ?_, ?_⟩
    · simpa using h.screened.miss hmiss
    · have hkept : ∀ d ∈ r.missingRefs, ∃ x ∈ pairs ++ [(wid, nref)],
          x.2 ∈ r.missingNodeRefs ++ [nref] ∧ d = ⟨'n', x.2, 'w', x.1⟩ := by
        intro d hd
        obtain ⟨x, hx, hmem, heq⟩ := hdetails d hd
        exact ⟨x, hx, mem_append_left _ hmem, heq⟩
      intro d hd
      rcases mem_kept hd with hd | hd
      · exact hkept d hd
      · exact ⟨(wid, nref), by simp, by simp, hd⟩

lemma insertWayId_ensures {pairs : List (Int64 × Int64)} {wid : Int64}
    (h : WaysSoFar judge cov before defined ids pairs t r) (hpos : 0 ≤ wid.toInt) :
    (insertWayId judge r wid).Ensures (Contract cov before defined) fun t' r' =>
      WaysSoFar judge cov before defined (ids ++ [wid]) pairs (t ++ t')
        { r' with wayCount := r'.wayCount + 1 } := by
  unfold insertWayId
  split
  · next hrel =>
    have hover := h.overflow
    rw [if_pos hrel] at hover
    have hins := (h.inserted hrel).snoc wid
    refine ensures_set ?_
    cases hcov : cov .way wid with
    | true =>
      rw [hcov] at hins
      refine Job.ensures_ret ⟨by simp [h.count], ?_, fun _ => hins, h.screened, h.details⟩
      simp [hover, hrel, uncovered, hcov]
    | false =>
      rw [hcov] at hins
      simp only [Bool.false_eq_true, if_false]
      rw [if_neg (by omega)]
      refine Job.ensures_ret ⟨by simp [h.count], ?_, fun _ => hins, h.screened, h.details⟩
      simp [hover, hrel, uncovered, hcov]
  · next hrel =>
    have hover := h.overflow
    rw [if_neg hrel] at hover
    refine Job.ensures_ret ⟨by simp [h.count], ?_, fun hc => absurd hc hrel, h.screened, h.details⟩
    simp [hover, hrel]

lemma judgeWay_ensures {pairs : List (Int64 × Int64)} {way : WaySpan}
    (h : WaysSoFar judge cov before defined ids pairs t r) (hid : 0 ≤ way.id.toInt)
    (hrefs : ∀ x ∈ way.refs, 0 ≤ x.toInt) :
    (judgeWay judge r way).Ensures (Contract cov before defined) fun t' r' =>
      WaysSoFar judge cov before defined (ids ++ [way.id]) (pairs ++ way.refPairs) (t ++ t') r' := by
  refine Job.ensures_bind (insertWayId_ensures h hid) fun t₁ r₁ h₁ => ?_
  have hfold := @Job.ensures_foldlM SetOp PbfError WayBlobResult (Contract cov before defined) Int64
    (judgeRef judge way.id)
    (fun done t' r' => WaysSoFar judge cov before defined (ids ++ [way.id])
      (pairs ++ done.map fun x => (way.id, x)) (t ++ t₁ ++ t') r') way.refs
    { r₁ with wayCount := r₁.wayCount + 1 } (by simpa using h₁) ?_
  · refine hfold.imp fun t₂ r₂ h₂ => ?_
    rwa [append_assoc] at h₂
  · intro done x hx t' r' hinv
    refine (judgeRef_ensures hinv (hrefs x hx)).imp fun t'' r'' hr'' => ?_
    simpa using hr''

/-- The judgement of a blob's ways, before it is known whether it is final. -/
structure WaysJudged (judge : Judge) (cov : ElementKind → Int64 → Bool) (before : Sets)
    (defined : ElementKind → List Int64) (ways : List WaySpan) (t : List (SetOp × Bool))
    (r : WayBlobResult) : Prop where
  count : r.wayCount = ways.length
  overflow : r.overflowIds =
    if judge.checkRelations then uncovered cov .way (ways.map WaySpan.id) else []
  inserted : judge.checkRelations = true → Inserted cov .way (ways.map WaySpan.id) t
  screened : ∃ m, Screened (· ∈ defined .node) (· ∉ before.nodes.ids) (ways.flatMap WaySpan.refs) m ∧
    r.missingNodeRefOccurrences = m.length ∧ ∀ x, x ∈ r.missingNodeRefs ↔ x ∈ m
  details : ∀ d ∈ r.missingRefs, ∃ w ∈ ways, ∃ x ∈ w.refs,
    x ∈ r.missingNodeRefs ∧ d = ⟨'n', x, 'w', w.id⟩

lemma judgeWays_ensures {ways : List WaySpan}
    (hpos : ∀ w ∈ ways, 0 ≤ w.id.toInt ∧ ∀ x ∈ w.refs, 0 ≤ x.toInt) :
    (judgeWays judge ways).Ensures (Contract cov before defined)
      (WaysJudged judge cov before defined ways) := by
  have hfold := @Job.ensures_foldlM SetOp PbfError WayBlobResult (Contract cov before defined)
    WaySpan (judgeWay judge)
    (fun done t' r' => WaysSoFar judge cov before defined (done.map WaySpan.id)
      (done.flatMap WaySpan.refPairs) t' r') ways {}
    ⟨rfl, by simp [uncovered], by simp [Inserted], .nil, by simp⟩ ?_
  · refine Job.ensures_bind hfold fun t r h => Job.ensures_ret ?_
    rw [append_nil]
    have hrefs : (ways.flatMap WaySpan.refPairs).map Prod.snd = ways.flatMap WaySpan.refs := by
      rw [map_flatMap]
      congr
      funext w
      simp [WaySpan.refPairs]
    refine ⟨by simp [h.count], h.overflow, h.inserted, ⟨r.missingNodeRefs, hrefs ▸ h.screened, rfl,
      mem_sortDedup _⟩, ?_⟩
    intro d hd
    obtain ⟨x, hx, hmem, rfl⟩ := h.details d hd
    obtain ⟨w, hw, hxw⟩ := mem_flatMap.mp hx
    obtain ⟨y, hy, rfl⟩ := mem_map.mp hxw
    exact ⟨w, hw, y, hy, (mem_sortDedup _ _).mpr hmem, rfl⟩
  · intro done w hw t r hinv
    refine (judgeWay_ensures hinv (hpos w hw).1 (hpos w hw).2).imp fun t' r' hr' => ?_
    simpa using hr'

def RelationSpan.memberPairs (r : RelationSpan) : List (Int64 × MemberId) :=
  r.members.map fun m => (r.id, m)

/-- A member that was missed, with the detail kept of it. -/
def DetailOf (nodes ways : List Int64) (x : Int64 × MemberId) (d : MissingRef) : Prop :=
  (∃ id, x.2 = .node id ∧ id ∈ nodes ∧ d = ⟨'n', id, 'r', x.1⟩) ∨
    ∃ id, x.2 = .way id ∧ id ∈ ways ∧ d = ⟨'w', id, 'r', x.1⟩

lemma DetailOf.mono {nodes nodes' ways ways' : List Int64} {x : Int64 × MemberId}
    {d : MissingRef} (h : DetailOf nodes ways x d) (hn : ∀ y ∈ nodes, y ∈ nodes')
    (hw : ∀ y ∈ ways, y ∈ ways') : DetailOf nodes' ways' x d := by
  rcases h with ⟨id, hx, hid, hd⟩ | ⟨id, hx, hid, hd⟩
  · exact .inl ⟨id, hx, hn id hid, hd⟩
  · exact .inr ⟨id, hx, hw id hid, hd⟩

structure RelationsSoFar (judge : Judge) (cov : ElementKind → Int64 → Bool) (before : Sets)
    (defined : ElementKind → List Int64) (ids : List Int64) (pairs : List (Int64 × MemberId))
    (t : List (SetOp × Bool)) (r : RelBlobResult) : Prop where
  count : r.relationCount = ids.length
  overflow : r.overflowIds = uncovered cov .relation ids
  inserted : Inserted cov .relation ids t
  nodes : Screened (· ∈ defined .node) (· ∉ before.nodes.ids)
    (pairs.filterMap fun x => nodeMember x.2) r.missingNodeMembers
  ways : Screened (· ∈ defined .way) (· ∉ before.ways.ids)
    (pairs.filterMap fun x => wayMember x.2) r.missingWayRefs
  deferred : r.deferredRelationRefs = pairs.filterMap fun x => relationMember x.2
  sources : judge.showIds.isSome = true → r.deferredRelationRefSources =
    pairs.filterMap fun x => (relationMember x.2).map fun _ => x.1
  details : ∀ d ∈ r.missingRefs, ∃ x ∈ pairs, DetailOf r.missingNodeMembers r.missingWayRefs x d

lemma judgeMember_ensures {r : RelBlobResult} {rid : Int64} {m : MemberId}
    (h : RelationsSoFar judge cov before defined ids pairs t r) (hm : GoodMember m) :
    (judgeMember judge rid r m).Ensures (Contract cov before defined) fun t' r' =>
      RelationsSoFar judge cov before defined ids (pairs ++ [(rid, m)]) (t ++ t') r' := by
  have hkept : ∀ nodes ways : List Int64, (∀ y ∈ r.missingNodeMembers, y ∈ nodes) →
      (∀ y ∈ r.missingWayRefs, y ∈ ways) → ∀ d ∈ r.missingRefs,
        ∃ x ∈ pairs ++ [(rid, m)], DetailOf nodes ways x d := by
    intro nodes ways hn hw d hd
    obtain ⟨x, hx, hdet⟩ := h.details d hd
    exact ⟨x, mem_append_left _ hx, hdet.mono hn hw⟩
  cases m with
  | node id =>
    have hpos : 0 ≤ id.toInt := hm
    refine ensures_get (fun hmem => ?_) (fun hmiss => ?_)
    · refine Job.ensures_ret ⟨h.count, h.overflow, h.inserted.append _, ?_, ?_, ?_, ?_,
        hkept _ _ (fun _ hy => hy) (fun _ hy => hy)⟩
      · simpa [nodeMember] using h.nodes.hit hmem
      · simpa [wayMember] using h.ways
      · simpa [relationMember] using h.deferred
      · simpa [relationMember] using h.sources
    · simp only [Bool.false_eq_true, if_false]
      rw [if_neg (by omega)]
      refine Job.ensures_ret ⟨h.count, h.overflow, h.inserted.append _, ?_, ?_, ?_, ?_, ?_⟩
      · simpa [nodeMember] using h.nodes.miss hmiss
      · simpa [wayMember] using h.ways
      · simpa [relationMember] using h.deferred
      · simpa [relationMember] using h.sources
      · have hold := hkept (r.missingNodeMembers ++ [id]) r.missingWayRefs
          (fun _ hy => mem_append_left _ hy) (fun _ hy => hy)
        intro d hd
        rcases mem_kept hd with hd | hd
        · exact hold d hd
        · exact ⟨(rid, .node id), by simp, .inl ⟨id, rfl, by simp, hd⟩⟩
  | way id =>
    have hpos : 0 ≤ id.toInt := hm
    refine ensures_get (fun hmem => ?_) (fun hmiss => ?_)
    · refine Job.ensures_ret ⟨h.count, h.overflow, h.inserted.append _, ?_, ?_, ?_, ?_,
        hkept _ _ (fun _ hy => hy) (fun _ hy => hy)⟩
      · simpa [nodeMember] using h.nodes
      · simpa [wayMember] using h.ways.hit hmem
      · simpa [relationMember] using h.deferred
      · simpa [relationMember] using h.sources
    · simp only [Bool.false_eq_true, if_false]
      rw [if_neg (by omega)]
      refine Job.ensures_ret ⟨h.count, h.overflow, h.inserted.append _, ?_, ?_, ?_, ?_, ?_⟩
      · simpa [nodeMember] using h.nodes
      · simpa [wayMember] using h.ways.miss hmiss
      · simpa [relationMember] using h.deferred
      · simpa [relationMember] using h.sources
      · have hold := hkept r.missingNodeMembers (r.missingWayRefs ++ [id])
          (fun _ hy => hy) (fun _ hy => mem_append_left _ hy)
        intro d hd
        rcases mem_kept hd with hd | hd
        · exact hold d hd
        · exact ⟨(rid, .way id), by simp, .inr ⟨id, rfl, by simp, hd⟩⟩
  | relation id =>
    have hpos : 0 ≤ id.toInt := hm
    rw [judgeMember, if_neg (by omega)]
    refine Job.ensures_ret ⟨h.count, h.overflow, h.inserted.append _, ?_, ?_, ?_, ?_,
      hkept _ _ (fun _ hy => hy) (fun _ hy => hy)⟩
    · simpa [nodeMember] using h.nodes
    · simpa [wayMember] using h.ways
    · simp [relationMember, h.deferred]
    · intro hshow
      simp [relationMember, hshow, h.sources hshow]
  | unknown type id => exact hm.elim

lemma insertRelationId_ensures {r : RelBlobResult} {rid : Int64}
    (h : RelationsSoFar judge cov before defined ids pairs t r) (hpos : 0 ≤ rid.toInt) :
    (insertRelationId r rid).Ensures (Contract cov before defined) fun t' r' =>
      RelationsSoFar judge cov before defined (ids ++ [rid]) pairs (t ++ t')
        { r' with relationCount := r'.relationCount + 1 } := by
  have hins := h.inserted.snoc rid
  refine ensures_set ?_
  cases hcov : cov .relation rid with
  | true =>
    rw [hcov] at hins
    refine Job.ensures_ret ⟨by simp [h.count], ?_, hins, h.nodes, h.ways, h.deferred, h.sources,
      h.details⟩
    simp [h.overflow, uncovered, hcov]
  | false =>
    rw [hcov] at hins
    simp only [Bool.false_eq_true, if_false]
    rw [if_neg (by omega)]
    refine Job.ensures_ret ⟨by simp [h.count], ?_, hins, h.nodes, h.ways, h.deferred, h.sources,
      h.details⟩
    simp [h.overflow, uncovered, hcov]

lemma judgeRelation_ensures {r : RelBlobResult} {rel : RelationSpan}
    (h : RelationsSoFar judge cov before defined ids pairs t r) (hid : 0 ≤ rel.id.toInt)
    (hmembers : ∀ m ∈ rel.members, GoodMember m) :
    (judgeRelation judge r rel).Ensures (Contract cov before defined) fun t' r' =>
      RelationsSoFar judge cov before defined (ids ++ [rel.id]) (pairs ++ rel.memberPairs) (t ++ t')
        r' := by
  refine Job.ensures_bind (insertRelationId_ensures h hid) fun t₁ r₁ h₁ => ?_
  have hfold := @Job.ensures_foldlM SetOp PbfError RelBlobResult (Contract cov before defined)
    MemberId (judgeMember judge rel.id)
    (fun done t' r' => RelationsSoFar judge cov before defined (ids ++ [rel.id])
      (pairs ++ done.map fun m => (rel.id, m)) (t ++ t₁ ++ t') r') rel.members
    { r₁ with relationCount := r₁.relationCount + 1 } (by simpa using h₁) ?_
  · refine hfold.imp fun t₂ r₂ h₂ => ?_
    rwa [append_assoc] at h₂
  · intro done m hm t' r' hinv
    refine (judgeMember_ensures hinv (hmembers m hm)).imp fun t'' r'' hr'' => ?_
    simpa using hr''

lemma filterMap_pairs (f : MemberId → Option Int64) (relations : List RelationSpan) :
    (relations.flatMap RelationSpan.memberPairs).filterMap (fun x => f x.2) =
      relations.flatMap fun r => r.members.filterMap f := by
  induction relations with
  | nil => rfl
  | cons r relations ih =>
    rw [flatMap_cons, filterMap_append, ih, flatMap_cons, RelationSpan.memberPairs, filterMap_map]
    rfl

variable (relations : List RelationSpan)

/-- The references to relations, each with the relation it comes from. -/
def relationRefs : List (Int64 × Int64) :=
  relations.flatMap fun r => r.relationMembers.map fun x => (x, r.id)

lemma relationRefs_fst :
    (relationRefs relations).map Prod.fst = relations.flatMap RelationSpan.relationMembers := by
  rw [relationRefs, map_flatMap]
  congr
  funext r
  simp [Function.comp_def]

lemma filterMap_sources : (relations.flatMap RelationSpan.memberPairs).filterMap
        (fun x => (relationMember x.2).map fun _ => x.1) =
      (relationRefs relations).map Prod.snd := by
  induction relations with
  | nil => rfl
  | cons r relations ih =>
    rw [flatMap_cons, filterMap_append, ih, relationRefs, relationRefs, flatMap_cons,
      map_append, RelationSpan.memberPairs, filterMap_map, map_map]
    congr 1
    rw [RelationSpan.relationMembers, map_filterMap]
    refine filterMap_congr fun m _ => ?_
    cases m <;> rfl

/-- The judgement of a blob's relations, before it is known whether it is final. -/
structure RelationsJudged (judge : Judge) (cov : ElementKind → Int64 → Bool) (before : Sets)
    (defined : ElementKind → List Int64) (relations : List RelationSpan) (t : List (SetOp × Bool))
    (r : RelBlobResult) : Prop where
  count : r.relationCount = relations.length
  overflow : r.overflowIds = uncovered cov .relation (relations.map RelationSpan.id)
  inserted : Inserted cov .relation (relations.map RelationSpan.id) t
  nodes : ∃ m, Screened (· ∈ defined .node) (· ∉ before.nodes.ids)
      (relations.flatMap RelationSpan.nodeMembers) m ∧
    r.missingNodeMemberOccurrences = m.length ∧ ∀ x, x ∈ r.missingNodeMembers ↔ x ∈ m
  ways : ∃ m, Screened (· ∈ defined .way) (· ∉ before.ways.ids)
      (relations.flatMap RelationSpan.wayMembers) m ∧
    r.missingWayRefOccurrences = m.length ∧ ∀ x, x ∈ r.missingWayRefs ↔ x ∈ m
  deferred : r.deferredRelationRefs = (relationRefs relations).map Prod.fst
  sources : judge.showIds.isSome = true →
    r.deferredRelationRefSources = (relationRefs relations).map Prod.snd
  details : ∀ d ∈ r.missingRefs, ∃ rel ∈ relations, ∃ m ∈ rel.members,
    DetailOf r.missingNodeMembers r.missingWayRefs (rel.id, m) d

lemma judgeRelations_ensures {relations : List RelationSpan}
    (hpos : ∀ r ∈ relations, 0 ≤ r.id.toInt ∧ ∀ m ∈ r.members, GoodMember m) :
    (judgeRelations judge relations).Ensures (Contract cov before defined)
      (RelationsJudged judge cov before defined relations) := by
  have hfold := @Job.ensures_foldlM SetOp PbfError RelBlobResult (Contract cov before defined)
    RelationSpan (judgeRelation judge)
    (fun done t' r' => RelationsSoFar judge cov before defined (done.map RelationSpan.id)
      (done.flatMap RelationSpan.memberPairs) t' r') relations {}
    ⟨rfl, rfl, by simp [Inserted], .nil, .nil, rfl, fun _ => rfl, by simp⟩ ?_
  · refine Job.ensures_bind hfold fun t r h => Job.ensures_ret ?_
    rw [append_nil]
    have hnodes := h.nodes
    have hways := h.ways
    have hdeferred := h.deferred
    rw [filterMap_pairs] at hnodes hways hdeferred
    refine ⟨by simp [h.count], h.overflow, h.inserted,
      ⟨r.missingNodeMembers, hnodes, rfl, mem_sortDedup _⟩,
      ⟨r.missingWayRefs, hways, rfl, mem_sortDedup _⟩, ?_, ?_, ?_⟩
    · rw [relationRefs_fst]
      exact hdeferred
    · intro hshow
      rw [← filterMap_sources]
      exact h.sources hshow
    · intro d hd
      obtain ⟨x, hx, hdet⟩ := h.details d hd
      obtain ⟨rel, hrel, hxrel⟩ := mem_flatMap.mp hx
      obtain ⟨m, hm, rfl⟩ := mem_map.mp hxrel
      exact ⟨rel, hrel, m, hm, hdet.mono (fun y hy => (mem_sortDedup _ y).mpr hy)
        fun y hy => (mem_sortDedup _ y).mpr hy⟩
  · intro done r hr t acc hinv
    refine (judgeRelation_ensures hinv (hpos r hr).1 (hpos r hr).2).imp fun t' r' hr' => ?_
    simpa using hr'

end Jobs

end CheckRefs
