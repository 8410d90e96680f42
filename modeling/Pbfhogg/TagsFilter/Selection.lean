import Pbfhogg.Lib.Gather
import Pbfhogg.TagsFilter.TwoPass

/-!
# What tags-filter selects

The closure of the direct matches over relation members and way refs, and what each pass leaves in
the id sets, in whatever order the results of the blobs come.
-/

namespace TagsFilter

open OsmId BlobMeta IdSpace TagExpr BlobFilter Gather Fallible List
open MergeJoin (MemberId)

variable {ρ ω : Type}

variable {g : Sets → IdSet}

section

variable (expressions : List Expression) (invert : Bool) (elements : List (Element ρ))

/-- The relations that are matched, and what they reach through relation members. -/
inductive InRelation : Int64 → Prop where
  | direct (r : Element ρ) (hr : r ∈ elements) (hkind : r.kind = .relation)
      (hdirect : direct expressions invert r = true) : InRelation r.id
  | member (r : Element ρ) (id : Int64) (hr : r ∈ elements) (hkind : r.kind = .relation)
      (hin : InRelation r.id) (hmember : .relation id ∈ r.members) : InRelation id

/-- The ways that are matched, and the way members of the relations. -/
def InWay (id : Int64) : Prop :=
  (∃ w ∈ elements, w.kind = .way ∧ direct expressions invert w = true ∧ w.id = id) ∨
    ∃ r ∈ elements, r.kind = .relation ∧ InRelation expressions invert elements r.id ∧
      .way id ∈ r.members

/-- The nodes that are matched, those of the ways, and the node members of the relations. -/
def InNode (id : Int64) : Prop :=
  (∃ n ∈ elements, n.kind = .node ∧ direct expressions invert n = true ∧ n.id = id) ∨
    (∃ w ∈ elements, w.kind = .way ∧ InWay expressions invert elements w.id ∧ id ∈ w.refs) ∨
    ∃ r ∈ elements, r.kind = .relation ∧ InRelation expressions invert elements r.id ∧
      .node id ∈ r.members

def Selected (e : Element ρ) : Prop :=
  match e.kind with
  | .node => InNode expressions invert elements e.id
  | .way => InWay expressions invert elements e.id
  | .relation => InRelation expressions invert elements e.id

end

def elementsOf (input : List (Blob ρ)) : List (Element ρ) := input.flatMap Blob.elements

def Blob.Truthful (b : Blob ρ) : Prop :=
  BlobFilter.Truthful b.index b.tagdata (b.elements.map fun e => (e.kind, e.tags))

/-- Distinct non-negative ids, and sidecars that tell the truth, on all blobs or on none. -/
structure WellFormed (input : List (Blob ρ)) : Prop where
  nonneg : ∀ e ∈ elementsOf input, 0 ≤ e.id.toInt
  distinct : ((elementsOf input).map fun e => (e.kind, e.id)).Nodup
  truthful : ∀ b ∈ input, b.Truthful
  uniform : (∀ b ∈ input, b.index.isSome) ∨ ∀ b ∈ input, b.index = none

variable {expressions : List Expression} {invert distrustMetadata removeTags : Bool}
  {input schedule : List (Blob ρ)} {orders : Orders ρ}

variable {e : Element ρ}

lemma mem_elementsOf : e ∈ elementsOf input ↔ ∃ b ∈ input, e ∈ b.elements :=
  mem_flatMap

lemma WellFormed.eq_of_id (h : WellFormed input) {e' : Element ρ} (he : e ∈ elementsOf input)
    (he' : e' ∈ elementsOf input) (hkind : e.kind = e'.kind) (hid : e.id = e'.id) : e = e' := by
  refine inj_on_of_nodup_map h.distinct he he' ?_
  rw [hkind, hid]

lemma WellFormed.walk_ok (h : WellFormed input) : refusePartialIndex input = .ok () := by
  unfold refusePartialIndex
  rw [if_neg]
  intro hboth
  obtain ⟨hsome, hnone⟩ := Bool.and_eq_true_iff.mp hboth
  obtain ⟨b, hb, hb'⟩ := any_eq_true.mp hsome
  obtain ⟨d, hd, hd'⟩ := any_eq_true.mp hnone
  rcases h.uniform with hall | hnone
  · rw [Option.isNone_iff_eq_none] at hd'
    have := hall d hd
    rw [hd'] at this
    cases this
  · rw [hnone b hb] at hb'
    cases hb'

lemma Blob.Truthful.kind {b : Blob ρ} (h : b.Truthful) {idx : BlobIndex}
    (hidx : b.index = some idx) (he : e ∈ b.elements) : e.kind = idx.kind :=
  BlobFilter.Truthful.kind h idx hidx _ (mem_map.mpr ⟨e, he, rfl⟩)

lemma decodeBlock_ok {b : Blob ρ} (h : b.Truthful) :
    decodeBlock distrustMetadata b = .ok b.elements := by
  unfold decodeBlock
  split
  · next idx hidx =>
    rw [refuseForeignKind_ok]
    intro k hk
    obtain ⟨e, he, rfl⟩ := mem_map.mp hk
    exact h.kind hidx he
  · rfl

lemma decode_all {order : List (Blob ρ)} (distrustMetadata : Bool) (h : WellFormed input)
    (hperm : order.Perm schedule) (hsub : ∀ b ∈ schedule, b ∈ input) :
    order.mapM (decodeBlock distrustMetadata) = .ok (order.map Blob.elements) :=
  mapM_eq_map fun b hb => decodeBlock_ok (h.truthful b (hsub b (hperm.subset hb)))

lemma kindSchedule_ok (kind : ElementKind) (distrustMetadata : Bool) (h : WellFormed input) :
    ∃ schedule, kindSchedule kind distrustMetadata input = .ok schedule ∧
      (∀ b ∈ schedule, b ∈ input) ∧
      ∀ e, e.kind = kind → (e ∈ elementsOf schedule ↔ e ∈ elementsOf input) := by
  refine ⟨_, by rw [kindSchedule, h.walk_ok]; rfl, fun b hb => mem_of_mem_filter hb, ?_⟩
  intro e hkind
  rw [mem_elementsOf, mem_elementsOf]
  constructor
  · rintro ⟨b, hb, he⟩
    exact ⟨b, mem_of_mem_filter hb, he⟩
  · rintro ⟨b, hb, he⟩
    refine ⟨b, mem_filter.mpr ⟨hb, ?_⟩, he⟩
    rw [Bool.or_eq_true]
    right
    cases hidx : b.index with
    | none => rfl
    | some idx => exact decide_eq_true (((h.truthful b hb).kind hidx he).symm.trans hkind)

lemma get_iff {s : IdSet} {id : Int64} : s.get id = true ↔ id ∈ s.ids := decide_eq_true_iff

lemma add_set (x : Flagged) (id : Int64) : (x.add id).set = x.set.set id := rfl

lemma foldl_add_set (ids : List Int64) (x : Flagged) :
    (ids.foldl Flagged.add x).set = ids.foldl IdSet.set x.set := by
  induction ids generalizing x with
  | nil => rfl
  | cons id ids ih => exact ih (x.add id)

/-- The flag is up when there is a member. -/
def Flagged.Up (x : Flagged) : Prop := ∀ id ∈ x.set.ids, x.flag = true

lemma Flagged.Up.add {x : Flagged} (h : x.Up) (id : Int64) : (x.add id).Up := by
  intro y hy
  rw [add_set, IdSet.mem_set] at hy
  have hflag : (x.add id).flag = (x.flag || (decide (0 ≤ id.toInt) && !x.set.get id)) := rfl
  rw [hflag, Bool.or_eq_true]
  rcases hy with hy | ⟨rfl, hpos⟩
  · exact .inl (h y hy)
  · by_cases hmem : y ∈ x.set.ids
    · exact .inl (h y hmem)
    · refine .inr (Bool.and_eq_true_iff.mpr ⟨decide_eq_true hpos, ?_⟩)
      rw [Bool.not_eq_true', Bool.eq_false_iff]
      exact fun hget => hmem (get_iff.mp hget)

lemma mergeClassified_node (s : Sets) (cr : ClassifyResult) (x : Int64) :
    x ∈ (mergeClassified s cr).matchedNode.ids ↔
      x ∈ s.matchedNode.ids ∨ (x ∈ cr.matchedNodes ∧ 0 ≤ x.toInt) := by
  have hkept : (mergeClassified s cr).matchedNode =
      cr.matchedNodes.foldl IdSet.set s.matchedNode := by
    unfold mergeClassified
    rw [foldl_keeps (f := mergeRelation) (g := Sets.matchedNode) fun _ _ => rfl,
      foldl_keeps (f := mergeWay) (g := Sets.matchedNode) fun _ _ => rfl]
  rw [hkept, IdSet.mem_foldl_set]

/-- What the ways of a result add to a set that the relations leave alone. -/
theorem mergeClassified_ways {Q : Int64 × List Int64 → Int64 → Prop}
    (hnode : ∀ s x, g { s with matchedNode := x } = g s)
    (hway : ∀ s w x, x ∈ (g (mergeWay s w)).ids ↔ x ∈ (g s).ids ∨ Q w x)
    (hrelation : ∀ s id, g (mergeRelation s id) = g s) (s : Sets) (cr : ClassifyResult)
    (x : Int64) : x ∈ (g (mergeClassified s cr)).ids ↔
      x ∈ (g s).ids ∨ ∃ w ∈ cr.matchedWays, Q w x := by
  unfold mergeClassified
  rw [foldl_keeps (g := g) hrelation, foldl_iff (P := fun s x => x ∈ (g s).ids) hway, hnode]

lemma mergeClassified_relations (hnode : ∀ s x, g { s with matchedNode := x } = g s)
    (hway : ∀ s w, g (mergeWay s w) = g s)
    (hrelation : ∀ s id, g (mergeRelation s id) = (g s).set id) (s : Sets) (cr : ClassifyResult)
    (x : Int64) : x ∈ (g (mergeClassified s cr)).ids ↔
      x ∈ (g s).ids ∨ (x ∈ cr.matchedRelations ∧ 0 ≤ x.toInt) := by
  have hstep : ∀ s id x, x ∈ (g (mergeRelation s id)).ids ↔
      x ∈ (g s).ids ∨ (x = id ∧ 0 ≤ id.toInt) := by
    intro s id x
    rw [hrelation, IdSet.mem_set]
  unfold mergeClassified
  rw [foldl_iff (P := fun s x => x ∈ (g s).ids) hstep, foldl_keeps (g := g) hway, hnode]
  refine or_congr_right ?_
  constructor
  · rintro ⟨id, hid, rfl, hpos⟩
    exact ⟨hid, hpos⟩
  · rintro ⟨hid, hpos⟩
    exact ⟨x, hid, rfl, hpos⟩

lemma mergeClassified_up {s : Sets} (cr : ClassifyResult)
    (h : s.includedWay.Up ∧ s.includedRelation.Up) :
    (mergeClassified s cr).includedWay.Up ∧ (mergeClassified s cr).includedRelation.Up := by
  refine foldl_invariant (f := mergeRelation)
    (I := fun s : Sets => s.includedWay.Up ∧ s.includedRelation.Up) (fun s id hs => ⟨hs.1, hs.2.add id⟩) _ _ ?_
  exact foldl_invariant (f := mergeWay)
    (I := fun s : Sets => s.includedWay.Up ∧ s.includedRelation.Up) (fun s w hs => ⟨hs.1.add w.1, hs.2⟩) _ _ h

/-- A direct match of one kind. -/
def Direct (expressions : List Expression) (invert : Bool) (elements : List (Element ρ))
    (kind : ElementKind) (e : Element ρ) : Prop :=
  e ∈ elements ∧ e.kind = kind ∧ direct expressions invert e = true

structure AfterPass1 (expressions : List Expression) (invert : Bool) (elements : List (Element ρ))
    (s : Sets) : Prop where
  matchedNode : ∀ x, x ∈ s.matchedNode.ids ↔
    ∃ e, Direct expressions invert elements .node e ∧ e.id = x
  directWay : ∀ x, x ∈ s.directWay.ids ↔
    ∃ e, Direct expressions invert elements .way e ∧ e.id = x
  includedWay : ∀ x, x ∈ s.includedWay.set.ids ↔
    ∃ e, Direct expressions invert elements .way e ∧ e.id = x
  wayDepNode : ∀ x, x ∈ s.wayDepNode.ids ↔
    (∃ e, Direct expressions invert elements .way e ∧ x ∈ e.refs) ∧ 0 ≤ x.toInt
  directRelation : ∀ x, x ∈ s.directRelation.ids ↔
    ∃ e, Direct expressions invert elements .relation e ∧ e.id = x
  includedRelation : ∀ x, x ∈ s.includedRelation.set.ids ↔
    ∃ e, Direct expressions invert elements .relation e ∧ e.id = x
  relationDepNode : s.relationDepNode.ids = []
  up : s.includedWay.Up ∧ s.includedRelation.Up

lemma mem_idsOf {kind : ElementKind} {elements : List (Element ρ)} {x : Int64} :
    x ∈ idsOf kind (elements.filter (direct expressions invert)) ↔
      ∃ e, Direct expressions invert elements kind e ∧ e.id = x := by
  simp only [idsOf, mem_map, mem_filter, decide_eq_true_eq, Direct]
  refine exists_congr fun e => and_congr_left fun _ => ?_
  rw [and_assoc]
  exact and_congr_right fun _ => and_comm

lemma direct_of_skipped {b : Blob ρ} (h : b.Truthful) (hskip : blobFilterCheck b.index b.tagdata
      (trustedBlobFilter expressions invert distrustMetadata) = true)
    (he : e ∈ b.elements) : direct expressions invert e = false := by
  unfold trustedBlobFilter at hskip
  split at hskip
  · cases hskip
  · next hplain =>
    have hinvert : invert = false := by
      rw [Bool.or_eq_true, not_or] at hplain
      exact Bool.eq_false_iff.mpr hplain.1
    have hnone := skipped_no_match h hskip (e.kind, e.tags) (mem_map.mpr ⟨e, he, rfl⟩)
    rw [direct, hnone, hinvert]
    rfl

lemma direct_scheduled (h : WellFormed input) {order : List (Blob ρ)}
    (hperm : order.Perm (input.filter fun b => !blobFilterCheck b.index b.tagdata
      (trustedBlobFilter expressions invert distrustMetadata)))
    {kind : ElementKind} : (∃ b ∈ order, Direct expressions invert b.elements kind e) ↔
      Direct expressions invert (elementsOf input) kind e := by
  constructor
  · rintro ⟨b, hb, he, hkind, hdirect⟩
    exact ⟨mem_elementsOf.mpr ⟨b, mem_of_mem_filter (hperm.subset hb), he⟩, hkind, hdirect⟩
  · rintro ⟨he, hkind, hdirect⟩
    obtain ⟨b, hb, heb⟩ := mem_elementsOf.mp he
    refine ⟨b, hperm.symm.subset (mem_filter.mpr ⟨hb, ?_⟩), heb, hkind, hdirect⟩
    by_contra hskip
    rw [Bool.not_eq_true', Bool.not_eq_false] at hskip
    rw [direct_of_skipped (h.truthful b hb) hskip heb] at hdirect
    cases hdirect

lemma Direct.nonneg (h : WellFormed input) {kind : ElementKind}
    (he : Direct expressions invert (elementsOf input) kind e) : 0 ≤ e.id.toInt :=
  h.nonneg e he.1

/-- What the results of the blobs add to a set, one way or another. -/
theorem gathered {Q : ClassifyResult → Int64 → Prop}
    (hstep : ∀ s cr x, x ∈ (g (mergeClassified s cr)).ids ↔ x ∈ (g s).ids ∨ Q cr x)
    (hempty : (g {}).ids = []) (order : List (Blob ρ)) (x : Int64) :
    x ∈ (g (((order.map Blob.elements).map (classifyBlock expressions invert)).foldl
      mergeClassified {})).ids ↔
        ∃ b ∈ order, Q (classifyBlock expressions invert b.elements) x := by
  rw [foldl_iff (P := fun s x => x ∈ (g s).ids) hstep, hempty]
  simp only [not_mem_nil, false_or, mem_map, exists_exists_and_eq_and]

lemma mem_matchedWays {elements : List (Element ρ)} {w : Int64 × List Int64} :
    w ∈ (classifyBlock expressions invert elements).matchedWays ↔
      ∃ e, Direct expressions invert elements .way e ∧ (e.id, e.refs) = w := by
  simp only [classifyBlock, mem_map, mem_filter, decide_eq_true_eq, Direct]
  refine exists_congr fun e => and_congr_left fun _ => ?_
  rw [and_assoc]
  exact and_congr_right fun _ => and_comm

section

variable {order : List (Blob ρ)} (h : WellFormed input)
  (hperm : order.Perm (input.filter fun b => !blobFilterCheck b.index b.tagdata
    (trustedBlobFilter expressions invert distrustMetadata)))
include h hperm

lemma ids_scheduled (kind : ElementKind) (x : Int64) :
    (∃ b ∈ order, x ∈ idsOf kind (b.elements.filter (direct expressions invert)) ∧
      0 ≤ x.toInt) ↔ ∃ e, Direct expressions invert (elementsOf input) kind e ∧ e.id = x := by
  constructor
  · rintro ⟨b, hb, hx, -⟩
    obtain ⟨e, he, rfl⟩ := mem_idsOf.mp hx
    exact ⟨e, (direct_scheduled h hperm).mp ⟨b, hb, he⟩, rfl⟩
  · rintro ⟨e, he, rfl⟩
    obtain ⟨b, hb, heb⟩ := (direct_scheduled h hperm).mpr he
    exact ⟨b, hb, mem_idsOf.mpr ⟨e, heb, rfl⟩, he.nonneg h⟩

lemma ways_scheduled (Q : Element ρ → Prop) :
    (∃ b ∈ order, ∃ e, Direct expressions invert b.elements .way e ∧ Q e) ↔
      ∃ e, Direct expressions invert (elementsOf input) .way e ∧ Q e := by
  constructor
  · rintro ⟨b, hb, e, he, hQ⟩
    exact ⟨e, (direct_scheduled h hperm).mp ⟨b, hb, he⟩, hQ⟩
  · rintro ⟨e, he, hQ⟩
    obtain ⟨b, hb, heb⟩ := (direct_scheduled h hperm).mpr he
    exact ⟨b, hb, e, heb, hQ⟩

lemma wayIds_gathered (hempty : (g {}).ids = [])
    (hnode : ∀ s x, g { s with matchedNode := x } = g s)
    (hway : ∀ s w, g (mergeWay s w) = (g s).set w.1)
    (hrelation : ∀ s id, g (mergeRelation s id) = g s) (x : Int64) :
    x ∈ (g (((order.map Blob.elements).map (classifyBlock expressions invert)).foldl
      mergeClassified {})).ids ↔
        ∃ e, Direct expressions invert (elementsOf input) .way e ∧ e.id = x := by
  have hstep : ∀ s w x, x ∈ (g (mergeWay s w)).ids ↔
      x ∈ (g s).ids ∨ (x = w.1 ∧ 0 ≤ w.1.toInt) := by
    intro s w x
    rw [hway, IdSet.mem_set]
  rw [gathered (mergeClassified_ways hnode hstep hrelation) hempty,
    ← ways_scheduled h hperm fun e => e.id = x]
  refine exists_congr fun b => and_congr_right fun hb => ?_
  constructor
  · rintro ⟨w, hw, rfl, -⟩
    obtain ⟨e, he, rfl⟩ := mem_matchedWays.mp hw
    exact ⟨e, he, rfl⟩
  · rintro ⟨e, he, rfl⟩
    have hin := (direct_scheduled h hperm).mp ⟨b, hb, he⟩
    exact ⟨(e.id, e.refs), mem_matchedWays.mpr ⟨e, he, rfl⟩, rfl, hin.nonneg h⟩

lemma wayDeps_gathered (x : Int64) :
    x ∈ (Sets.wayDepNode (((order.map Blob.elements).map (classifyBlock expressions invert)).foldl
      mergeClassified {})).ids ↔
        (∃ e, Direct expressions invert (elementsOf input) .way e ∧ x ∈ e.refs) ∧ 0 ≤ x.toInt := by
  have hstep : ∀ s w x, x ∈ (Sets.wayDepNode (mergeWay s w)).ids ↔
      x ∈ s.wayDepNode.ids ∨ (x ∈ w.2 ∧ 0 ≤ x.toInt) := fun _ _ _ => IdSet.mem_foldl_set
  rw [gathered (mergeClassified_ways (fun _ _ => rfl) hstep fun _ _ => rfl) rfl,
    ← ways_scheduled h hperm fun e => x ∈ e.refs]
  constructor
  · rintro ⟨b, hb, w, hw, hx, hpos⟩
    obtain ⟨e, he, rfl⟩ := mem_matchedWays.mp hw
    exact ⟨⟨b, hb, e, he, hx⟩, hpos⟩
  · rintro ⟨⟨b, hb, e, he, hx⟩, hpos⟩
    exact ⟨b, hb, (e.id, e.refs), mem_matchedWays.mpr ⟨e, he, rfl⟩, hx, hpos⟩

lemma afterPass1 : AfterPass1 expressions invert (elementsOf input)
    (((order.map Blob.elements).map (classifyBlock expressions invert)).foldl
      mergeClassified {}) where
  matchedNode x := by
    rw [gathered mergeClassified_node rfl]
    exact ids_scheduled h hperm .node x
  directWay := wayIds_gathered h hperm rfl (fun _ _ => rfl) (fun _ _ => rfl) fun _ _ => rfl
  includedWay :=
    wayIds_gathered h hperm (g := fun s => s.includedWay.set) rfl (fun _ _ => rfl)
      (fun _ _ => rfl) fun _ _ => rfl
  wayDepNode := wayDeps_gathered h hperm
  directRelation x := by
    rw [gathered (mergeClassified_relations (fun _ _ => rfl) (fun _ _ => rfl) fun _ _ => rfl) rfl]
    exact ids_scheduled h hperm .relation x
  includedRelation x := by
    rw [gathered (g := fun s => s.includedRelation.set)
      (mergeClassified_relations (g := fun s => s.includedRelation.set) (fun _ _ => rfl)
        (fun _ _ => rfl) fun _ _ => rfl) rfl]
    exact ids_scheduled h hperm .relation x
  relationDepNode := by
    have hstep : ∀ s cr, (mergeClassified s cr).relationDepNode = s.relationDepNode := by
      intro s cr
      unfold mergeClassified
      rw [foldl_keeps (f := mergeRelation) (g := Sets.relationDepNode) fun _ _ => rfl,
        foldl_keeps (f := mergeWay) (g := Sets.relationDepNode) fun _ _ => rfl]
    rw [foldl_keeps (g := Sets.relationDepNode) hstep]
  up := by
    refine foldl_invariant (f := mergeClassified)
      (I := fun s : Sets => s.includedWay.Up ∧ s.includedRelation.Up)
      (fun s cr hs => mergeClassified_up cr hs) _ _ ?_
    constructor
    · intro id hid
      cases hid
    · intro id hid
      cases hid

end

lemma pass1_spec (h : WellFormed input) (orders : Orders ρ) :
    ∃ s, pass1 expressions invert distrustMetadata orders input = .ok s ∧
      AfterPass1 expressions invert (elementsOf input) s := by
  have hperm := orders.shuffle_perm 0 (input.filter fun b => !blobFilterCheck b.index b.tagdata
    (trustedBlobFilter expressions invert distrustMetadata))
  have hblocks := decode_all distrustMetadata h hperm
    fun b hb => mem_of_mem_filter hb
  refine ⟨_, ?_, afterPass1 h hperm⟩
  rw [pass1, h.walk_ok]
  simp only [ok_bind, hblocks]
  rfl

end TagsFilter
