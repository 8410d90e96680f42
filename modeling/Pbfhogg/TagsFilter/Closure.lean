import Pbfhogg.TagsFilter.Selection

/-!
# The closure loop of tags-filter

Each round adds the members of the relations included so far; the loop ends with exactly what the
direct matches reach.
-/

namespace TagsFilter

open IdSpace TagExpr Gather Fallible List
open MergeJoin (MemberId)

variable {ρ : Type} {expressions : List Expression} {invert distrustMetadata : Bool}
  {input schedule : List (Blob ρ)}

lemma len_set (s : IdSet) (id : Int64) :
    (s.set id).len = if (setIfNew s id).2 then s.len + 1 else s.len := by
  unfold IdSet.set
  split
  · next hnew => simp [setIfNew, IdSet.get, IdSet.len, hnew.1, hnew.2]
  · next hold =>
    have hfalse : (setIfNew s id).2 = false := by
      simp only [setIfNew, IdSet.get, Bool.and_eq_false_iff, decide_eq_false_iff_not,
        Bool.not_eq_false', decide_eq_true_eq]
      by_cases hpos : 0 ≤ id.toInt
      · exact .inr (not_not.mp fun hmem => hold ⟨hpos, hmem⟩)
      · exact .inl hpos
    rw [hfalse]
    rfl

lemma foldl_addRelation (ids : List Int64) (x : IdSet × Nat) :
    (ids.foldl addRelation x).1 = ids.foldl IdSet.set x.1 ∧
      (ids.foldl addRelation x).1.len + x.2 = x.1.len + (ids.foldl addRelation x).2 := by
  induction ids generalizing x with
  | nil => exact ⟨rfl, rfl⟩
  | cons id ids ih =>
    obtain ⟨hset, hlen⟩ := ih (addRelation x id)
    have hone : (addRelation x id).1.len + x.2 = x.1.len + (addRelation x id).2 := by
      have hadd : addRelation x id =
          (x.1.set id, if (setIfNew x.1 id).2 then x.2 + 1 else x.2) := rfl
      rw [hadd, len_set]
      by_cases hnew : (setIfNew x.1 id).2 = true
      · rw [if_pos hnew, if_pos hnew]
        omega
      · rw [if_neg hnew, if_neg hnew]
    refine ⟨hset, ?_⟩
    rw [foldl_cons]
    omega

lemma mem_scanned {β : Type} {included : IdSet} {elements : List (Element ρ)}
    {f : MemberId → Option β} {x : β} :
    x ∈ ((elements.filter fun e => decide (e.kind = .relation) && included.get e.id).flatMap
      Element.members).filterMap f ↔ ∃ e ∈ elements, e.kind = .relation ∧ e.id ∈ included.ids ∧
          ∃ m ∈ e.members, f m = some x := by
  simp only [mem_filterMap, mem_flatMap, mem_filter, Bool.and_eq_true, decide_eq_true_eq, get_iff]
  constructor
  · rintro ⟨m, ⟨e, ⟨he, hkind, hin⟩, hm⟩, hx⟩
    exact ⟨e, he, hkind, hin, m, hm, hx⟩
  · rintro ⟨e, he, hkind, hin, m, hm, hx⟩
    exact ⟨m, ⟨e, ⟨he, hkind, hin⟩, hm⟩, hx⟩

lemma nodeMember_eq {m : MemberId} {x : Int64} : nodeMember m = some x ↔ m = .node x := by
  cases m <;> simp [nodeMember]

lemma wayMember_eq {m : MemberId} {x : Int64} : wayMember m = some x ↔ m = .way x := by
  cases m <;> simp [wayMember]

lemma relationMember_eq {m : MemberId} {x : Int64} :
    relationMember m = some x ↔ m = .relation x := by
  cases m <;> simp [relationMember]

/-- Some included relation among the groups has the member. -/
def Reached (included : IdSet) (groups : List (List (Element ρ))) (m : MemberId) : Prop :=
  ∃ e, (∃ g ∈ groups, e ∈ g) ∧ e.kind = .relation ∧ e.id ∈ included.ids ∧ m ∈ e.members

variable {groups : List (List (Element ρ))} {st : ClosureState}

lemma reached_iff {included : IdSet} {f : MemberId → Option Int64} {make : Int64 → MemberId}
    {get : ClosureResult → List Int64} (hmake : ∀ m x, f m = some x ↔ m = make x)
    (hget : ∀ elements : List (Element ρ), get (scanRelations included elements) =
      ((elements.filter fun e => decide (e.kind = .relation) && included.get e.id).flatMap
        Element.members).filterMap f) (x : Int64) :
    (∃ cr ∈ groups.map (scanRelations included), x ∈ get cr ∧ 0 ≤ x.toInt) ↔
      Reached included groups (make x) ∧ 0 ≤ x.toInt := by
  constructor
  · rintro ⟨cr, hcr, hx, hpos⟩
    obtain ⟨g, hg, rfl⟩ := mem_map.mp hcr
    rw [hget, mem_scanned] at hx
    obtain ⟨e, he, hkind, hin, m, hm, hmx⟩ := hx
    rw [hmake] at hmx
    subst hmx
    exact ⟨⟨e, ⟨g, hg, he⟩, hkind, hin, hm⟩, hpos⟩
  · rintro ⟨⟨e, ⟨g, hg, he⟩, hkind, hin, hm⟩, hpos⟩
    refine ⟨_, mem_map.mpr ⟨g, hg, rfl⟩, ?_, hpos⟩
    rw [hget, mem_scanned]
    exact ⟨e, he, hkind, hin, make x, hm, (hmake _ _).mpr rfl⟩

structure RoundSpec (st st' : ClosureState) (added : Nat) (groups : List (List (Element ρ))) :
    Prop where
  relations : ∀ x, x ∈ st'.includedRelation.ids ↔ x ∈ st.includedRelation.ids ∨
    (Reached st.includedRelation groups (.relation x) ∧ 0 ≤ x.toInt)
  ways : ∀ x, x ∈ st'.includedWay.set.ids ↔ x ∈ st.includedWay.set.ids ∨
    (Reached st.includedRelation groups (.way x) ∧ 0 ≤ x.toInt)
  nodes : ∀ x, x ∈ st'.relationDepNode.ids ↔ x ∈ st.relationDepNode.ids ∨
    (Reached st.includedRelation groups (.node x) ∧ 0 ≤ x.toInt)
  added : st'.includedRelation.len = st.includedRelation.len + added
  up : st.includedWay.Up → st'.includedWay.Up

lemma closureRound_spec (st : ClosureState) (groups : List (List (Element ρ))) :
    RoundSpec st (closureRound st groups).1 (closureRound st groups).2 groups where
  relations x := by
    have hstep : ∀ (p : ClosureState × Nat) cr x, x ∈ (mergeClosure p cr).1.includedRelation.ids ↔
        x ∈ p.1.includedRelation.ids ∨ (x ∈ cr.relationIds ∧ 0 ≤ x.toInt) := by
      intro p cr x
      have hset := (foldl_addRelation cr.relationIds (p.1.includedRelation, p.2)).1
      rw [← IdSet.mem_foldl_set, ← hset]
      rfl
    rw [closureRound, foldl_iff (P := fun (p : ClosureState × Nat) x => x ∈ p.1.includedRelation.ids) hstep,
      reached_iff (fun _ _ => relationMember_eq) fun _ => rfl]
  ways x := by
    have hstep : ∀ (p : ClosureState × Nat) cr x, x ∈ (mergeClosure p cr).1.includedWay.set.ids ↔
        x ∈ p.1.includedWay.set.ids ∨ (x ∈ cr.wayIds ∧ 0 ≤ x.toInt) := by
      intro p cr x
      rw [← IdSet.mem_foldl_set, ← foldl_add_set]
      rfl
    rw [closureRound, foldl_iff (P := fun (p : ClosureState × Nat) x => x ∈ p.1.includedWay.set.ids) hstep,
      reached_iff (fun _ _ => wayMember_eq) fun _ => rfl]
  nodes x := by
    have hstep : ∀ (p : ClosureState × Nat) cr x, x ∈ (mergeClosure p cr).1.relationDepNode.ids ↔
        x ∈ p.1.relationDepNode.ids ∨ (x ∈ cr.nodeIds ∧ 0 ≤ x.toInt) := by
      intro p cr x
      rw [← IdSet.mem_foldl_set]
      rfl
    rw [closureRound, foldl_iff (P := fun (p : ClosureState × Nat) x => x ∈ p.1.relationDepNode.ids) hstep,
      reached_iff (fun _ _ => nodeMember_eq) fun _ => rfl]
  added := by
    have hstep : ∀ (p : ClosureState × Nat) cr,
        p.1.includedRelation.len = st.includedRelation.len + p.2 →
          (mergeClosure p cr).1.includedRelation.len =
            st.includedRelation.len + (mergeClosure p cr).2 := by
      intro p cr hp
      have hlen := (foldl_addRelation cr.relationIds (p.1.includedRelation, p.2)).2
      have hmerged : (mergeClosure p cr).1.includedRelation.len + p.2 =
          p.1.includedRelation.len + (mergeClosure p cr).2 := hlen
      omega
    exact foldl_invariant hstep _ (st, 0) rfl
  up := by
    intro hup
    refine foldl_invariant (f := mergeClosure) (I := fun p => p.1.includedWay.Up) ?_ _ (st, 0) hup
    intro p cr hp
    exact foldl_invariant (f := Flagged.add) (I := Flagged.Up) (fun x id hx => hx.add id) _ _ hp

/-- What holds of the sets after every round. -/
structure Growing (expressions : List Expression) (invert : Bool) (elements : List (Element ρ))
    (st : ClosureState) : Prop where
  relations : ∀ x ∈ st.includedRelation.ids, InRelation expressions invert elements x
  directRelations : ∀ e, Direct expressions invert elements .relation e →
    e.id ∈ st.includedRelation.ids
  ways : ∀ x ∈ st.includedWay.set.ids, InWay expressions invert elements x
  directWays : ∀ e, Direct expressions invert elements .way e → e.id ∈ st.includedWay.set.ids
  nodes : ∀ x ∈ st.relationDepNode.ids, ∃ r ∈ elements, r.kind = .relation ∧
    InRelation expressions invert elements r.id ∧ .node x ∈ r.members
  up : st.includedWay.Up

/-- The sets hold all that is reached. -/
structure Grown (expressions : List Expression) (invert : Bool) (elements : List (Element ρ))
    (st : ClosureState) : Prop extends Growing expressions invert elements st where
  closed : ∀ r ∈ elements, r.kind = .relation → r.id ∈ st.includedRelation.ids → ∀ x : Int64,
    0 ≤ x.toInt → (.relation x ∈ r.members → x ∈ st.includedRelation.ids) ∧
      (.way x ∈ r.members → x ∈ st.includedWay.set.ids) ∧
      (.node x ∈ r.members → x ∈ st.relationDepNode.ids)

lemma Growing.round {elements : List (Element ρ)} {st' : ClosureState} {added : Nat}
    (h : Growing expressions invert elements st) (hround : RoundSpec st st' added groups)
    (hgroups : ∀ g ∈ groups, ∀ e ∈ g, e ∈ elements) :
    Growing expressions invert elements st' where
  relations x hx := by
    rcases (hround.relations x).mp hx with hold | ⟨⟨r, ⟨g, hg, hr⟩, hkind, hin, hm⟩, -⟩
    · exact h.relations x hold
    · exact .member r x (hgroups g hg r hr) hkind (h.relations _ hin) hm
  directRelations e he := (hround.relations _).mpr (.inl (h.directRelations e he))
  ways x hx := by
    rcases (hround.ways x).mp hx with hold | ⟨⟨r, ⟨g, hg, hr⟩, hkind, hin, hm⟩, -⟩
    · exact h.ways x hold
    · exact .inr ⟨r, hgroups g hg r hr, hkind, h.relations _ hin, hm⟩
  directWays e he := (hround.ways _).mpr (.inl (h.directWays e he))
  nodes x hx := by
    rcases (hround.nodes x).mp hx with hold | ⟨⟨r, ⟨g, hg, hr⟩, hkind, hin, hm⟩, -⟩
    · exact h.nodes x hold
    · exact ⟨r, hgroups g hg r hr, hkind, h.relations _ hin, hm⟩
  up := hround.up h.up

lemma RoundSpec.same {st' : ClosureState} (h : RoundSpec st st' 0 groups) {x : Int64}
    (hx : x ∈ st'.includedRelation.ids) : x ∈ st.includedRelation.ids := by
  have hsub : st.includedRelation.ids ⊆ st'.includedRelation.ids :=
    fun x hx => (h.relations x).mpr (.inl hx)
  have hperm := (subperm_of_subset st.includedRelation.nodup hsub).perm_of_length_le
    (Nat.le_of_eq h.added)
  exact hperm.symm.subset hx

/-- A round that adds no relation has found all members of those it knew. -/
theorem Growing.last {elements : List (Element ρ)} {st' : ClosureState}
    (h : Growing expressions invert elements st) (hround : RoundSpec st st' 0 groups)
    (hgroups : ∀ g ∈ groups, ∀ e ∈ g, e ∈ elements)
    (hall : ∀ e ∈ elements, e.kind = .relation → ∃ g ∈ groups, e ∈ g) :
    Grown expressions invert elements st' := by
  refine ⟨h.round hround hgroups, fun r hr hkind hin x hpos => ?_⟩
  have hreach : ∀ m ∈ r.members, Reached st.includedRelation groups m :=
    fun m hm => ⟨r, hall r hr hkind, hkind, hround.same hin, hm⟩
  exact ⟨fun hm => (hround.relations x).mpr (.inr ⟨hreach _ hm, hpos⟩),
    fun hm => (hround.ways x).mpr (.inr ⟨hreach _ hm, hpos⟩),
    fun hm => (hround.nodes x).mpr (.inr ⟨hreach _ hm, hpos⟩)⟩

variable (elements : List (Element ρ))

/-- A number of rounds that is enough. -/
def closureBound : Nat :=
  elements.length + (elements.flatMap Element.members).length + 1

/-- The relations that can be reached at all. -/
def reachable : List Int64 :=
  idsOf .relation elements ++ (elements.flatMap Element.members).filterMap relationMember

lemma mem_reachable {elements : List (Element ρ)} {x : Int64}
    (h : InRelation expressions invert elements x) : x ∈ reachable elements := by
  cases h with
  | direct r hr hkind hdirect =>
    refine mem_append_left _ (mem_map.mpr ⟨r, mem_filter.mpr ⟨hr, ?_⟩, rfl⟩)
    exact decide_eq_true hkind
  | member r id hr hkind hin hm =>
    refine mem_append_right _ (mem_filterMap.mpr ⟨.relation x, ?_, rfl⟩)
    exact mem_flatMap.mpr ⟨r, hr, hm⟩

lemma reachable_lt : (reachable elements).length < closureBound elements := by
  have hids := length_filter_le (fun e : Element ρ => decide (e.kind = .relation)) elements
  have hmembers := length_filterMap_le relationMember (elements.flatMap Element.members)
  simp only [reachable, idsOf, closureBound, length_append, length_map]
  omega

lemma Growing.len_le {elements : List (Element ρ)} (h : Growing expressions invert elements st) :
    st.includedRelation.len ≤ (reachable elements).length :=
  (subperm_of_subset st.includedRelation.nodup
    fun x hx => mem_reachable (h.relations x hx)).length_le

/-- The groups of a round hold the elements of the input, the relations all of them. -/
lemma round_groups (orders : Orders ρ) (round : Nat) {decode : Blob ρ → Result (List (Element ρ))}
    (hdecode : ∀ b ∈ schedule, decode b = .ok b.elements) (hsub : ∀ b ∈ schedule, b ∈ input)
    (hall : ∀ e ∈ elementsOf input, e.kind = .relation → e ∈ elementsOf schedule) :
    ∃ groups : List (List (Element ρ)), ((orders.partition round schedule).mapM fun group => do
        return (← group.mapM decode).flatten) = .ok groups ∧
      (∀ g ∈ groups, ∀ e ∈ g, e ∈ elementsOf input) ∧
      ∀ e ∈ elementsOf input, e.kind = .relation → ∃ g ∈ groups, e ∈ g := by
  have hperm := orders.partition_perm round schedule
  have hin : ∀ group ∈ orders.partition round schedule, ∀ b ∈ group, b ∈ schedule :=
    fun group hgroup b hb => hperm.subset (mem_flatten.mpr ⟨group, hgroup, hb⟩)
  have hmap : ((orders.partition round schedule).mapM fun group => do
      return (← group.mapM decode).flatten) =
        .ok ((orders.partition round schedule).map elementsOf) := by
    refine mapM_eq_map fun group hgroup => ?_
    rw [mapM_eq_map fun b hb => hdecode b (hin group hgroup b hb)]
    rfl
  refine ⟨_, hmap, fun g hg e he => ?_, fun e he hkind => ?_⟩
  · obtain ⟨group, hgroup, rfl⟩ := mem_map.mp hg
    obtain ⟨b, hb, heb⟩ := mem_elementsOf.mp he
    exact mem_elementsOf.mpr ⟨b, hsub b (hin group hgroup b hb), heb⟩
  · obtain ⟨b, hb, heb⟩ := mem_elementsOf.mp (hall e he hkind)
    obtain ⟨group, hgroup, hbg⟩ := mem_flatten.mp (hperm.symm.subset hb)
    exact ⟨_, mem_map.mpr ⟨group, hgroup, rfl⟩, mem_elementsOf.mpr ⟨b, hbg, heb⟩⟩

section

variable {elements : List (Element ρ)} (orders : Orders ρ) (h : WellFormed input)
  (hsub : ∀ b ∈ schedule, b ∈ input)
  (hkinds : ∀ e, e.kind = .relation → (e ∈ elementsOf schedule ↔ e ∈ elementsOf input))
include h hsub hkinds

lemma closureLoop_spec (distrustMetadata : Bool) : ∀ (fuel round : Nat) (st : ClosureState),
    Growing expressions invert (elementsOf input) st →
    (reachable (elementsOf input)).length < fuel + st.includedRelation.len →
    ∃ st', closureLoop distrustMetadata orders schedule fuel round st = .ok st' ∧
      Grown expressions invert (elementsOf input) st' := by
  intro fuel
  induction fuel with
  | zero =>
    intro round st hst hfuel
    have := hst.len_le
    omega
  | succ fuel ih =>
    intro round st hst hfuel
    obtain ⟨groups, hmap, hgroups, hall⟩ :=
      round_groups orders round (fun b hb => decodeBlock_ok (h.truthful b (hsub b hb))) hsub
        fun e he hkind => (hkinds e hkind).mpr he
    have hround := closureRound_spec st groups
    rw [closureLoop, hmap]
    simp only [ok_bind]
    by_cases hadded : (closureRound st groups).2 = 0
    · rw [hadded] at hround
      exact ⟨_, if_pos hadded, hst.last hround hgroups hall⟩
    · have hnext := ih (round + 1) _ (hst.round hround hgroups) (by
        have := hround.added
        omega)
      obtain ⟨st', hloop, hgrown⟩ := hnext
      exact ⟨st', by rw [if_neg hadded]; exact hloop, hgrown⟩

end

end TagsFilter
