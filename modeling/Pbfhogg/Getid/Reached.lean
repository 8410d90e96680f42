import Pbfhogg.Getid.Closure

/-!
# What getid adds

The requested ids and what they reach over members and refs, said once for the elements of a file;
what the first pass pulls in is exactly that.
-/

namespace Getid

open OsmId Fallible IdSets GraphWalk List
open TagsFilter (Element Blob Error Result Orders refusePartialIndex decodeBlock kindSchedule
  elementsOf mem_elementsOf)
open MergeJoin (MemberId)
open CheckRefs (mem_sortDedup)

variable {ρ : Type}

variable {collected seedEdges : Bool} {relation : Int64} {m : MemberId} {collect : IdSet}

def memberKey : MemberId → Option (ElementKind × Int64)
  | .node id => some (.node, id)
  | .way id => some (.way, id)
  | .relation id => some (.relation, id)
  | .unknown _ _ => none

/-- What is requested, with the members of the relations and the node refs of the ways in it. -/
inductive Chosen (ids : ElementIds) (elements : List (Element ρ)) : ElementKind → Int64 → Prop where
  | requested {kind : ElementKind} {id : Int64} (h : (ids.of kind).get id = true) :
      Chosen ids elements kind id
  | member {kind : ElementKind} {id : Int64} (r : Element ρ) (hr : r ∈ elements)
      (hin : Chosen ids elements .relation r.id) (m : MemberId) (hm : m ∈ r.members)
      (hkey : memberKey m = some (kind, id)) : Chosen ids elements kind id
  | ref {id : Int64} (w : Element ρ) (hw : w ∈ elements) (hin : Chosen ids elements .way w.id)
      (hx : id ∈ w.refs) : Chosen ids elements .node id

/-- A chosen relation has the member. -/
def MemberOf (ids : ElementIds) (elements : List (Element ρ)) (m : MemberId) : Prop :=
  ∃ r ∈ elements, Chosen ids elements .relation r.id ∧ m ∈ r.members

section

variable {ids : ElementIds} {elements : List (Element ρ)} {x : Int64}

lemma chosen_way : Chosen ids elements .way x ↔
    ids.wayIds.get x = true ∨ MemberOf ids elements (.way x) := by
  constructor
  · intro h
    cases h with
    | requested h => exact .inl h
    | member r hr hin m hm hkey =>
      cases m with
      | way id =>
        cases hkey
        exact .inr ⟨r, hr, hin, hm⟩
      | node | relation | unknown => cases hkey
  · rintro (h | ⟨r, hr, hin, hm⟩)
    · exact .requested h
    · exact .member r hr hin _ hm rfl

lemma chosen_node : Chosen ids elements .node x ↔
    ids.nodeIds.get x = true ∨ MemberOf ids elements (.node x) ∨
      ∃ w ∈ elements, Chosen ids elements .way w.id ∧ x ∈ w.refs := by
  constructor
  · intro h
    cases h with
    | requested h => exact .inl h
    | member r hr hin m hm hkey =>
      cases m with
      | node id =>
        cases hkey
        exact .inr (.inl ⟨r, hr, hin, hm⟩)
      | way | relation | unknown => cases hkey
    | ref w hw hin hx => exact .inr (.inr ⟨w, hw, hin, hx⟩)
  · rintro (h | ⟨r, hr, hin, hm⟩ | ⟨w, hw, hin, hx⟩)
    · exact .requested h
    · exact .member r hr hin _ hm rfl
    · exact .ref w hw hin hx

end

section

variable {ids : ElementIds} {input schedule order : List (Blob ρ)} {x : Int64}

lemma gives_node :
    gives collected seedEdges relation m = some (.node x) ↔ collected = true ∧ m = .node x := by
  cases m <;> cases collected <;> cases seedEdges <;> simp [gives]

lemma gives_way :
    gives collected seedEdges relation m = some (.way x) ↔ collected = true ∧ m = .way x := by
  cases m <;> cases collected <;> cases seedEdges <;> simp [gives]

lemma gives_seed :
    gives collected true relation m = some (.seed x) ↔ collected = true ∧ m = .relation x := by
  cases m <;> cases collected <;> simp [gives]

lemma gives_edge {p : Int64} : gives collected true relation m = some (.edge p x) ↔
      collected = false ∧ relation = p ∧ m = .relation x ∧ 0 ≤ p.toInt ∧ 0 ≤ x.toInt := by
  cases m with
  | relation id =>
    cases collected with
    | true => simp [gives]
    | false =>
      simp only [gives, if_true, Bool.false_eq_true, if_false, true_and, MemberId.relation.injEq]
      split
      · next hpos =>
        simp only [Option.some.injEq, Ref.edge.injEq]
        constructor
        · rintro ⟨rfl, rfl⟩
          exact ⟨rfl, rfl, hpos⟩
        · rintro ⟨rfl, rfl, -⟩
          exact ⟨rfl, rfl⟩
      · next hneg =>
        simp only [reduceCtorEq, false_iff]
        rintro ⟨rfl, rfl, hpos⟩
        exact hneg hpos
  | node | way => cases collected <;> simp [gives]
  | unknown type id => simp [gives]

/-- What the walk reaches over the edges of the relations that were not requested. -/
theorem reach_iff {children : Int64 → List Int64} {seeds : Int64 → Prop}
    (hnonneg : ∀ e ∈ elementsOf input, 0 ≤ e.id.toInt)
    (hseeds : ∀ x, seeds x ↔ Hands input ids.relationIds true (.seed x))
    (hchildren : ∀ p x, x ∈ children p ↔ Hands input ids.relationIds true (.edge p x)) :
    Reach (fun x => 0 ≤ x.toInt ∧ ids.relationIds.get x = false) children seeds x ↔
      0 ≤ x.toInt ∧ ids.relationIds.get x = false ∧ Chosen ids (elementsOf input) .relation x := by
  constructor
  · intro h
    induction h with
    | seed hx hok =>
      obtain ⟨r, hr, m, hm, hgives⟩ := (hseeds _).mp hx
      obtain ⟨hreq, rfl⟩ := gives_seed.mp hgives
      exact ⟨hok.1, hok.2, .member r hr (.requested hreq) _ hm rfl⟩
    | child hp hx hok ih =>
      obtain ⟨r, hr, m, hm, hgives⟩ := (hchildren _ _).mp hx
      obtain ⟨-, rfl, rfl, -, -⟩ := gives_edge.mp hgives
      exact ⟨hok.1, hok.2, .member r hr ih.2.2 _ hm rfl⟩
  · rintro ⟨hpos, hnot, hchosen⟩
    -- Down the chain of members, to a relation that was requested.
    generalize hkind : ElementKind.relation = kind at hchosen
    induction hchosen with
    | requested h =>
      subst hkind
      rw [ElementIds.of, hnot] at h
      cases h
    | @member kind id r hr hin m hm hkey ih =>
      subst hkind
      have hm' : .relation id ∈ r.members := by
        cases m with
        | relation id' =>
          cases hkey
          exact hm
        | node | way | unknown => cases hkey
      cases hreq : ids.relationIds.get r.id with
      | true =>
        refine .seed ((hseeds id).mpr ⟨r, hr, _, hm', gives_seed.mpr ⟨hreq, rfl⟩⟩) ⟨hpos, hnot⟩
      | false =>
        have hr0 := hnonneg r hr
        refine .child (ih hr0 hreq rfl) ((hchildren _ _).mpr ⟨r, hr, _, hm', ?_⟩) ⟨hpos, hnot⟩
        exact gives_edge.mpr ⟨hreq, rfl, rfl, hr0, hpos⟩
    | ref w hw hin hx => cases hkind

/-- A read with seeds and edges hands on no more than the members there are. -/
theorem length_addMember (collected seedEdges : Bool) (relation : Int64) (refs : RelationRefs)
    (m : MemberId) : (addMember collected seedEdges relation refs m).relations.length +
        (addMember collected seedEdges relation refs m).edges.length ≤
      refs.relations.length + refs.edges.length + 1 := by
  unfold addMember
  cases m with
  | node | way => cases collected <;> simp
  | relation id =>
    dsimp only
    split
    · split
      · simp only [length_append, length_singleton]
        omega
      · split
        · simp only [length_append, length_singleton]
          omega
        · omega
    · omega
  | unknown type id => simp

lemma length_foldl_addMember (collected seedEdges : Bool) (relation : Int64)
    (members : List MemberId) (refs : RelationRefs) :
    (members.foldl (addMember collected seedEdges relation) refs).relations.length +
        (members.foldl (addMember collected seedEdges relation) refs).edges.length ≤
      refs.relations.length + refs.edges.length + members.length := by
  induction members generalizing refs with
  | nil => exact Nat.le_refl _
  | cons m members ih =>
    have hone := length_addMember collected seedEdges relation refs m
    have hrest := ih (addMember collected seedEdges relation refs m)
    rw [foldl_cons, length_cons]
    omega

lemma length_relationRefs (collect : IdSet) (seedEdges : Bool) (elements : List (Element ρ)) :
    (relationRefs collect seedEdges elements).relations.length +
        (relationRefs collect seedEdges elements).edges.length ≤
      (elements.flatMap Element.members).length := by
  have hfold : ∀ refs : RelationRefs,
      (elements.foldl (addRelation collect seedEdges) refs).relations.length +
          (elements.foldl (addRelation collect seedEdges) refs).edges.length ≤
        refs.relations.length + refs.edges.length + (elements.flatMap Element.members).length := by
    induction elements with
    | nil => exact fun refs => Nat.le_refl _
    | cons e elements ih =>
      intro refs
      have hone : (addRelation collect seedEdges refs e).relations.length +
          (addRelation collect seedEdges refs e).edges.length ≤
            refs.relations.length + refs.edges.length + e.members.length := by
        unfold addRelation Element.members
        cases e.body with
        | node | way => exact Nat.le_refl _
        | relation members =>
          dsimp only
          split
          · exact Nat.le_add_right _ _
          · exact length_foldl_addMember _ _ _ members refs
      have hrest := ih (addRelation collect seedEdges refs e)
      rw [foldl_cons, flatMap_cons, length_append]
      omega
  have h := hfold {}
  have hzero : ({} : RelationRefs).relations.length + ({} : RelationRefs).edges.length = 0 := rfl
  rw [hzero, Nat.zero_add] at h
  exact h

/-- After the closure over relation members. -/
structure Closed (ids : ElementIds) (elements : List (Element ρ)) (pulled : ElementIds) :
    Prop where
  valid : pulled.Valid
  relations : ∀ x, pulled.relationIds.get x = true ↔
    0 ≤ x.toInt ∧ ids.relationIds.get x = false ∧ Chosen ids elements .relation x
  nodes : ∀ x, pulled.nodeIds.get x = true ↔ MemberOf ids elements (.node x) ∧ 0 ≤ x.toInt
  ways : ∀ x, pulled.wayIds.get x = true ↔ MemberOf ids elements (.way x) ∧ 0 ≤ x.toInt

/-- The second read, or none, adds the members of the relations that were reached. -/
theorem secondRead_spec (h : KindsTrue input) (hcovers : Covers .relation input schedule)
    (hperm : order.Perm schedule) {pulled : ElementIds} {s : ElementIds × Bool}
    (hs : Entered pulled s) : ∃ pulled', secondRead order s = .ok pulled' ∧
      Pulls s.1 pulled' (Hands input s.1.relationIds false) := by
  unfold secondRead
  split
  · obtain ⟨refs, hok, hhas⟩ := relationPhase_spec h hcovers hperm s.1.relationIds false
    have hpulls := foldl_pullMembers hs.valid refs
    refine ⟨refs.foldl pullMembers s.1, by rw [hok]; rfl, hpulls.valid, fun x => ?_, fun x => ?_,
      hpulls.relations⟩
    · rw [hpulls.nodes, hhas]
    · rw [hpulls.ways, hhas]
  · next hadded =>
    -- No relation was reached, so none would hand on anything.
    have hnone : ∀ x, ¬ s.1.relationIds.get x = true := fun x hx => hadded (hs.added x hx)
    have hhands : ∀ r, Hands input s.1.relationIds false r → False := by
      rintro r ⟨e, -, m, -, hgives⟩
      rw [Bool.eq_false_iff.mpr (hnone e.id), gives_neither] at hgives
      cases hgives
    refine ⟨s.1, rfl, hs.valid, fun x => ?_, fun x => ?_, rfl⟩
    · exact (or_iff_left fun hx => hhands _ hx.1).symm
    · exact (or_iff_left fun hx => hhands _ hx.1).symm

/-- A member of a chosen relation comes with the first read or with the second. -/
theorem memberOf_iff {relationIds : IdSet} (hnonneg : ∀ e ∈ elementsOf input, 0 ≤ e.id.toInt)
    (hrelations : ∀ x, relationIds.get x = true ↔
      0 ≤ x.toInt ∧ ids.relationIds.get x = false ∧ Chosen ids (elementsOf input) .relation x) :
    MemberOf ids (elementsOf input) m ↔
      (∃ e ∈ elementsOf input, ids.relationIds.get e.id = true ∧ m ∈ e.members) ∨
        ∃ e ∈ elementsOf input, relationIds.get e.id = true ∧ m ∈ e.members := by
  constructor
  · rintro ⟨r, hr, hin, hm⟩
    cases hreq : ids.relationIds.get r.id with
    | true => exact .inl ⟨r, hr, hreq, hm⟩
    | false => exact .inr ⟨r, hr, (hrelations r.id).mpr ⟨hnonneg r hr, hreq, hin⟩, hm⟩
  · rintro (⟨r, hr, hreq, hm⟩ | ⟨r, hr, hget, hm⟩)
    · exact ⟨r, hr, .requested hreq, hm⟩
    · exact ⟨r, hr, ((hrelations r.id).mp hget).2.2, hm⟩

lemma hands_node : Hands input collect seedEdges (.node x) ↔
      ∃ e ∈ elementsOf input, collect.get e.id = true ∧ .node x ∈ e.members := by
  constructor
  · rintro ⟨e, he, m, hm, hgives⟩
    obtain ⟨hcollected, rfl⟩ := gives_node.mp hgives
    exact ⟨e, he, hcollected, hm⟩
  · rintro ⟨e, he, hcollected, hm⟩
    exact ⟨e, he, _, hm, gives_node.mpr ⟨hcollected, rfl⟩⟩

lemma hands_way : Hands input collect seedEdges (.way x) ↔
      ∃ e ∈ elementsOf input, collect.get e.id = true ∧ .way x ∈ e.members := by
  constructor
  · rintro ⟨e, he, m, hm, hgives⟩
    obtain ⟨hcollected, rfl⟩ := gives_way.mp hgives
    exact ⟨e, he, hcollected, hm⟩
  · rintro ⟨e, he, hcollected, hm⟩
    exact ⟨e, he, _, hm, gives_way.mpr ⟨hcollected, rfl⟩⟩

lemma closed_of_walk (h : KindsTrue input) (hnonneg : ∀ e ∈ elementsOf input, 0 ≤ e.id.toInt)
    (hcovers : Covers .relation input schedule) (hperm : order.Perm schedule)
    {refs : List RelationRefs} (ids : ElementIds) (fuel : Nat) (s : ElementIds × Bool)
    (hrefs : ∀ r, (∃ x ∈ refs, x.Has r) ↔ Hands input ids.relationIds true r)
    (hwalk : walk (enterRelation ids)
      (refs.foldl FirstRead.merge { pulled := {} }).edges.sorted.children fuel
      (refs.foldl FirstRead.merge { pulled := {} }).seeds.reverse
      ((refs.foldl FirstRead.merge { pulled := {} }).pulled, false) = some s) :
    ∃ pulled, secondRead order s = .ok pulled ∧ Closed ids (elementsOf input) pulled := by
  obtain ⟨hpulled, hseeds, hedges⟩ := foldl_merge refs { pulled := {} }
  have hfirst := foldl_pullMembers valid_empty refs
  rw [← hpulled] at hfirst
  have hnew : ∀ x, (refs.foldl FirstRead.merge { pulled := {} }).pulled.relationIds.get x =
      false := by
    intro x
    rw [hfirst.relations]
    exact get_empty .relation x
  have hstart : Entered (refs.foldl FirstRead.merge { pulled := {} }).pulled
      ((refs.foldl FirstRead.merge { pulled := {} }).pulled, false) := by
    refine ⟨hfirst.valid, rfl, rfl, fun x hx => ?_⟩
    rw [hnew] at hx
    cases hx
  obtain ⟨hentered, hreached⟩ := walk_halfway (enterRelation_enters ids _) fuel _ _ s hstart
    (halfway_start hnew) hwalk
  have hseedIff : ∀ x, x ∈ (refs.foldl FirstRead.merge { pulled := {} }).seeds.reverse ↔
      Hands input ids.relationIds true (.seed x) := by
    intro x
    rw [mem_reverse, hseeds, nil_append, mem_flatMap, ← hrefs]
    rfl
  have hstore : (refs.foldl FirstRead.merge { pulled := {} }).edges =
      ⟨(refs.flatMap RelationRefs.edges).map encodeEdge⟩ := congrArg EdgeStore.mk hedges
  have hchildIff : ∀ p x,
      x ∈ (refs.foldl FirstRead.merge { pulled := {} }).edges.sorted.children p ↔
        Hands input ids.relationIds true (.edge p x) := by
    intro p x
    rw [hstore, mem_children, mem_flatMap, ← hrefs]
    rfl
  have hrelations : ∀ x, s.1.relationIds.get x = true ↔
      0 ≤ x.toInt ∧ ids.relationIds.get x = false ∧
        Chosen ids (elementsOf input) .relation x := fun x =>
    (hreached x).trans (reach_iff hnonneg hseedIff hchildIff)
  obtain ⟨pulled, hok, hsecond⟩ := secondRead_spec h hcovers hperm hentered
  refine ⟨pulled, hok, hsecond.valid, fun x => ?_, fun x => ?_, fun x => ?_⟩
  · rw [hsecond.relations]
    exact hrelations x
  · rw [hsecond.nodes, hentered.nodes, hfirst.nodes, hrefs, hands_node, hands_node,
      memberOf_iff hnonneg hrelations]
    have hempty : ¬ ({} : ElementIds).nodeIds.get x = true := by
      rw [get_new]
      exact Bool.false_ne_true
    rw [or_iff_right hempty, ← or_and_right]
  · rw [hsecond.ways, hentered.ways, hfirst.ways, hrefs, hands_way, hands_way,
      memberOf_iff hnonneg hrelations]
    have hempty : ¬ ({} : ElementIds).wayIds.get x = true := by
      rw [get_new]
      exact Bool.false_ne_true
    rw [or_iff_right hempty, ← or_and_right]

/-- The members that stand in the blobs of a file. -/
def memberCount (input : List (Blob ρ)) : Nat :=
  (input.map fun b => (b.elements.flatMap Element.members).length).sum

lemma decodeBlock_elements {b : Blob ρ} {elements : List (Element ρ)}
    (h : decodeBlock false b = .ok elements) : elements = b.elements := by
  unfold decodeBlock at h
  cases hidx : b.index with
  | none =>
    rw [hidx] at h
    cases h
    rfl
  | some idx =>
    rw [hidx] at h
    dsimp only at h
    split at h
    · cases h
    · cases h
      rfl

lemma length_relationPhase {refs : List RelationRefs}
    (h : relationPhase order collect seedEdges = .ok refs) :
    (refs.flatMap RelationRefs.relations).length + (refs.flatMap RelationRefs.edges).length ≤
      memberCount order := by
  unfold relationPhase at h
  induction order generalizing refs with
  | nil =>
    cases h
    exact Nat.le_refl _
  | cons b order ih =>
    obtain ⟨first, rest, hfirst, hrest, rfl⟩ := mapM_cons_ok.mp h
    obtain ⟨elements, hdecode, hrefs⟩ := bind_eq_ok.mp hfirst
    cases hrefs
    have hone := length_relationRefs collect seedEdges elements
    rw [decodeBlock_elements hdecode] at hone ⊢
    have hmore := ih hrest
    simp only [flatMap_cons, length_append]
    unfold memberCount at hmore ⊢
    rw [map_cons, sum_cons]
    omega

lemma memberCount_perm (h : order.Perm schedule) : memberCount order = memberCount schedule :=
  (h.map _).sum_eq

lemma memberCount_sublist (h : schedule.Sublist input) :
    memberCount schedule ≤ memberCount input := by
  unfold memberCount
  induction h with
  | slnil => exact Nat.le_refl _
  | cons b _ ih =>
    rw [map_cons, sum_cons]
    omega
  | cons_cons b _ ih =>
    rw [map_cons, map_cons, sum_cons, sum_cons]
    omega

/-- The closure over relation members, in two reads. -/
theorem closeRelations_spec (h : KindsTrue input) (hnonneg : ∀ e ∈ elementsOf input, 0 ≤ e.id.toInt)
    (hcovers : Covers .relation input schedule) (orders : Orders ρ) (fuel : Nat) :
    (∀ pulled, closeRelations orders fuel schedule ids {} = .ok pulled →
      Closed ids (elementsOf input) pulled) ∧ (memberCount input < fuel →
      ∃ pulled, closeRelations orders fuel schedule ids {} = .ok pulled) := by
  obtain ⟨refs, hok, hrefs⟩ := relationPhase_spec h hcovers (orders.shuffle_perm 0 schedule)
    ids.relationIds true
  have hread := length_relationPhase hok
  have hbound : memberCount (orders.shuffle 0 schedule) ≤ memberCount input := by
    rw [memberCount_perm (orders.shuffle_perm 0 schedule)]
    exact memberCount_sublist hcovers.sublist
  have hperm := orders.shuffle_perm 1 schedule
  have hclosed := fun s => closed_of_walk h hnonneg hcovers hperm ids fuel s hrefs
  unfold closeRelations
  rw [hok]
  simp only [ok_bind]
  constructor
  · intro pulled hrun
    cases hwalk : walk (enterRelation ids)
        (refs.foldl FirstRead.merge { pulled := {} }).edges.sorted.children fuel
        (refs.foldl FirstRead.merge { pulled := {} }).seeds.reverse
        ((refs.foldl FirstRead.merge { pulled := {} }).pulled, false) with
    | none =>
      rw [hwalk] at hrun
      cases hrun
    | some s =>
      rw [hwalk] at hrun
      obtain ⟨pulled', hok', hspec⟩ := hclosed s hwalk
      dsimp only at hrun
      rw [hok'] at hrun
      cases hrun
      exact hspec
  · intro hfuel
    obtain ⟨hpulled, hseeds, hedges⟩ := foldl_merge refs { pulled := {} }
    have hstore : (refs.foldl FirstRead.merge { pulled := {} }).edges =
        ⟨(refs.flatMap RelationRefs.edges).map encodeEdge⟩ := congrArg EdgeStore.mk hedges
    have hfirst := foldl_pullMembers valid_empty refs
    rw [← hpulled] at hfirst
    have hstart : Entered (refs.foldl FirstRead.merge { pulled := {} }).pulled
        ((refs.foldl FirstRead.merge { pulled := {} }).pulled, false) := by
      refine ⟨hfirst.valid, rfl, rfl, fun x hx => ?_⟩
      rw [hfirst.relations, get_new] at hx
      cases hx
    have hparents : ∀ x,
        ((refs.foldl FirstRead.merge { pulled := {} }).edges.sorted.children x).length ≤
          ((refs.flatMap RelationRefs.edges).map (·.1)).count x := by
      intro x
      rw [hstore, length_children]
    have hahead := ahead_le (fun (s : ElementIds × Bool) x => s.1.relationIds.get x)
      ((refs.flatMap RelationRefs.edges).map (·.1))
      ((refs.foldl FirstRead.merge { pulled := {} }).pulled, false)
    obtain ⟨s, hwalk⟩ := walk_ends (enterRelation_enters ids _) hparents fuel
      (refs.foldl FirstRead.merge { pulled := {} }).seeds.reverse _ hstart (by
        rw [length_map] at hahead
        rw [length_reverse, hseeds, nil_append]
        omega)
    obtain ⟨pulled, hok', -⟩ := hclosed s hwalk
    exact ⟨pulled, by rw [hwalk]; exact hok'⟩

end

end Getid
