import Pbfhogg.Getid.Partition
import Pbfhogg.Getid.References
import Pbfhogg.TagsFilter.Closure

/-!
# The closure that getid walks

What each read of the relations hands on, what the walk over the edge store reaches, and that with
the nodes of the ways it is the closure of the requested ids over members and refs.
-/

namespace Getid

open OsmId Fallible IdSets LeBytes Gather GraphWalk
open List hiding beq_eq_decide map_map
open TagsFilter (Element Blob Error Result Orders refusePartialIndex decodeBlock kindSchedule
  elementsOf mem_elementsOf)
open MergeJoin (MemberId)
open CheckRefs (mem_sortDedup)

variable {ρ : Type}

section

variable {edges : List (Int64 × Int64)} {parent : Int64} (e : Int64 × Int64)

def encodeEdge : Bytes := i64Be e.1 ++ i64Be e.2

lemma take_encodeEdge : (encodeEdge e).take 8 = i64Be e.1 :=
  take_left' (length_i64Be e.1)

lemma drop_encodeEdge : (encodeEdge e).drop 8 = i64Be e.2 :=
  drop_left' (length_i64Be e.1)

/-- Byte arrays that are ordered have ordered starts. -/
theorem take_le_take {a b : Bytes} (n : Nat) (h : a ≤ b) : a.take n ≤ b.take n := by
  induction n generalizing a b with
  | zero => simp
  | succ n ih =>
    cases a with
    | nil => simp
    | cons x a =>
      cases b with
      | nil => exact absurd h (by simp)
      | cons y b =>
        rw [cons_le_cons_iff] at h
        rw [take_succ_cons, take_succ_cons, cons_le_cons_iff]
        rcases h with hlt | ⟨rfl, hle⟩
        · exact .inl hlt
        · exact .inr ⟨rfl, ih hle⟩

lemma pairwise_sorted (s : EdgeStore) :
    s.sorted.records.Pairwise fun a b => a.take 8 ≤ b.take 8 := by
  have hsorted : s.sorted.records.Pairwise fun a b => decide (a ≤ b) = true :=
    pairwise_mergeSort (fun a b c hab hbc => by
      simp only [decide_eq_true_eq] at hab hbc ⊢
      exact List.le_trans hab hbc) (fun a b => by
      simp only [Bool.or_eq_true, decide_eq_true_eq]
      exact List.le_total a b) s.records
  exact hsorted.imp fun h => take_le_take 8 (of_decide_eq_true h)

/-- The records below a key, those at it and the others follow each other. -/
theorem pairwise_runs (s : EdgeStore) (key : Bytes) : s.sorted.records.Pairwise fun a b =>
      (decide (b.take 8 < key) = true → decide (a.take 8 < key) = true) ∧
        (decide (b.take 8 = key) = true →
          decide (a.take 8 < key) = true ∨ decide (a.take 8 = key) = true) := by
  refine (pairwise_sorted s).imp fun {a b} hle => ?_
  simp only [decide_eq_true_eq]
  constructor
  · intro hlt
    exact List.lt_of_le_of_lt hle hlt
  · rintro rfl
    by_cases hlt : a.take 8 < b.take 8
    · exact .inl hlt
    · exact .inr (List.le_antisymm hle hlt)

/-- The children of a parent, up to their order. -/
theorem children_perm (parent : Int64) :
    (EdgeStore.sorted ⟨edges.map encodeEdge⟩).children parent |>.Perm
      ((edges.filter fun e => e.1 = parent).map (·.2)) := by
  unfold EdgeStore.children
  dsimp only
  have hdisjoint : ∀ r : Bytes, decide (r.take 8 < i64Be parent) = true →
      decide (r.take 8 = i64Be parent) = false := by
    intro r hlt
    rw [decide_eq_false_iff_not]
    intro heq
    rw [heq] at hlt
    exact List.lt_irrefl _ (of_decide_eq_true hlt)
  rw [takeWhile_dropWhile_eq_filter hdisjoint (pairwise_runs _ (i64Be parent))]
  have hperm : (EdgeStore.sorted ⟨edges.map encodeEdge⟩).records.Perm (edges.map encodeEdge) :=
    mergeSort_perm _ _
  refine ((hperm.filter _).map _).trans (List.Perm.of_eq ?_)
  rw [filter_map, List.map_map]
  have hkey : ((fun r : Bytes => decide (r.take 8 = i64Be parent)) ∘ encodeEdge) =
      fun e => decide (e.1 = parent) := by
    funext e
    simp only [Function.comp, take_encodeEdge]
    exact decide_eq_decide.mpr ⟨i64Be_inj, fun h => h ▸ rfl⟩
  rw [hkey]
  refine map_congr_left fun e _ => ?_
  simp only [Function.comp, drop_encodeEdge, ofI64Be_i64Be]

lemma mem_children {child : Int64} :
    child ∈ (EdgeStore.sorted ⟨edges.map encodeEdge⟩).children parent ↔
      (parent, child) ∈ edges := by
  rw [(children_perm parent).mem_iff, mem_map]
  constructor
  · rintro ⟨e, he, rfl⟩
    obtain ⟨hmem, hparent⟩ := mem_filter.mp he
    rw [← of_decide_eq_true hparent]
    exact hmem
  · intro h
    exact ⟨(parent, child), mem_filter.mpr ⟨h, by simp⟩, rfl⟩

lemma length_children (parent : Int64) :
    ((EdgeStore.sorted ⟨edges.map encodeEdge⟩).children parent).length =
      (edges.map (·.1)).count parent := by
  rw [(children_perm parent).length_eq, length_map, count, countP_map, countP_eq_length_filter]
  refine congrArg length (filter_congr fun e _ => ?_)
  simp [Function.comp, beq_eq_decide]

end

/-- What a member can hand on. -/
inductive Ref where
  | node (id : Int64)
  | way (id : Int64)
  | seed (id : Int64)
  | edge (parent child : Int64)

def RelationRefs.Has (refs : RelationRefs) : Ref → Prop
  | .node id => id ∈ refs.nodes
  | .way id => id ∈ refs.ways
  | .seed id => id ∈ refs.relations
  | .edge parent child => (parent, child) ∈ refs.edges

/-- What a member hands on, by whether its relation is collected from. -/
def gives (collected seedEdges : Bool) (relation : Int64) : MemberId → Option Ref
  | .node id => if collected then some (.node id) else none
  | .way id => if collected then some (.way id) else none
  | .relation id =>
    if seedEdges then
      if collected then some (.seed id)
      else if 0 ≤ relation.toInt ∧ 0 ≤ id.toInt then some (.edge relation id) else none
    else none
  | .unknown _ _ => none

lemma has_addMember (collected seedEdges : Bool) (relation : Int64) (refs : RelationRefs)
    (m : MemberId) (r : Ref) : (addMember collected seedEdges relation refs m).Has r ↔
      refs.Has r ∨ gives collected seedEdges relation m = some r := by
  unfold addMember gives
  cases m with
  | node | way => cases collected <;> cases r <;> simp [RelationRefs.Has, eq_comm]
  | relation id =>
    cases seedEdges with
    | false => simp
    | true =>
      cases collected with
      | true => cases r <;> simp [RelationRefs.Has, eq_comm]
      | false =>
        by_cases hpos : 0 ≤ relation.toInt ∧ 0 ≤ id.toInt
        · simp only [if_pos hpos]
          cases r <;> simp [RelationRefs.Has, eq_comm]
        · simp only [if_neg hpos]
          simp
  | unknown type id => simp

lemma gives_neither (relation : Int64) (m : MemberId) : gives false false relation m = none := by
  cases m <;> rfl

lemma has_addRelation (collect : IdSet) (seedEdges : Bool) (refs : RelationRefs)
    (e : Element ρ) (r : Ref) : (addRelation collect seedEdges refs e).Has r ↔
      refs.Has r ∨ ∃ m ∈ e.members, gives (collect.get e.id) seedEdges e.id m = some r := by
  unfold addRelation Element.members
  cases e.body with
  | node => simp
  | way refs => simp
  | relation members =>
    dsimp only
    split
    · next hskip =>
      obtain ⟨hcollected, hseeds⟩ := Bool.and_eq_true_iff.mp hskip
      rw [Bool.not_eq_true'] at hcollected hseeds
      rw [hcollected, hseeds]
      simp [gives_neither]
    · exact foldl_iff (P := RelationRefs.Has) (fun s m x => has_addMember _ _ _ s m x) _ _ _

lemma has_relationRefs (collect : IdSet) (seedEdges : Bool) (elements : List (Element ρ))
    (r : Ref) : (relationRefs collect seedEdges elements).Has r ↔
      ∃ e ∈ elements, ∃ m ∈ e.members, gives (collect.get e.id) seedEdges e.id m = some r := by
  have hempty : ¬ ({} : RelationRefs).Has r := by
    cases r <;> exact not_mem_nil
  rw [relationRefs, foldl_iff (P := RelationRefs.Has) fun s e x => has_addRelation _ _ s e x]
  exact or_iff_right hempty

/-- The claims say the kind of every element. -/
def KindsTrue (input : List (Blob ρ)) : Prop :=
  ∀ b ∈ input, ∀ idx, b.index = some idx → ∀ e ∈ b.elements, e.kind = idx.kind

section

variable {input schedule order : List (Blob ρ)}

/-- A schedule holds every element of its kind. -/
structure Covers (kind : ElementKind) (input schedule : List (Blob ρ)) : Prop where
  sublist : schedule.Sublist input
  all : ∀ e ∈ elementsOf input, e.kind = kind → e ∈ elementsOf schedule

lemma Covers.sub {kind : ElementKind} (h : Covers kind input schedule) :
    ∀ b ∈ schedule, b ∈ input :=
  fun _ hb => h.sublist.subset hb

lemma kindSchedule_covers (h : KindsTrue input) {kind : ElementKind}
    (hok : kindSchedule kind false input = .ok schedule) : Covers kind input schedule := by
  obtain ⟨-, -, hfilter⟩ := bind_eq_ok.mp hok
  cases hfilter
  refine ⟨filter_sublist, fun e he hkind => ?_⟩
  obtain ⟨b, hb, heb⟩ := mem_elementsOf.mp he
  refine mem_elementsOf.mpr ⟨b, mem_filter.mpr ⟨hb, ?_⟩, heb⟩
  rw [Bool.false_or]
  cases hidx : b.index with
  | none => rfl
  | some idx => exact decide_eq_true ((h b hb idx hidx e heb).symm.trans hkind)

lemma kind_of_member {e : Element ρ} {m : MemberId} (h : m ∈ e.members) : e.kind = .relation := by
  unfold Element.members at h
  unfold Element.kind
  cases hbody : e.body with
  | node | way =>
    rw [hbody] at h
    cases h
  | relation members => rfl

lemma kind_of_ref {e : Element ρ} {x : Int64} (h : x ∈ e.refs) : e.kind = .way := by
  unfold Element.refs at h
  unfold Element.kind
  cases hbody : e.body with
  | node | relation =>
    rw [hbody] at h
    cases h
  | way refs => rfl

/-- A relation of the input hands on a ref. -/
def Hands (input : List (Blob ρ)) (collect : IdSet) (seedEdges : Bool) (r : Ref) : Prop :=
  ∃ e ∈ elementsOf input, ∃ m ∈ e.members, gives (collect.get e.id) seedEdges e.id m = some r

lemma relationPhase_spec (h : KindsTrue input) (hcovers : Covers .relation input schedule)
    (hperm : order.Perm schedule) (collect : IdSet) (seedEdges : Bool) :
    ∃ refs, relationPhase order collect seedEdges = .ok refs ∧
      ∀ r, (∃ x ∈ refs, x.Has r) ↔ Hands input collect seedEdges r := by
  have hdecode : ∀ b ∈ order, decodeBlock false b = .ok b.elements := fun b hb =>
    decodeBlock_true (h b (hcovers.sub b (hperm.subset hb)))
  refine ⟨order.map fun b => relationRefs collect seedEdges b.elements, ?_, fun r => ?_⟩
  · refine mapM_eq_map fun b hb => ?_
    rw [hdecode b hb]
    rfl
  · constructor
    · rintro ⟨x, hx, hhas⟩
      obtain ⟨b, hb, rfl⟩ := mem_map.mp hx
      obtain ⟨e, he, m, hm, hgives⟩ := (has_relationRefs _ _ _ _).mp hhas
      exact ⟨e, mem_elementsOf.mpr ⟨b, hcovers.sub b (hperm.subset hb), he⟩, m, hm, hgives⟩
    · rintro ⟨e, he, m, hm, hgives⟩
      obtain ⟨b, hb, heb⟩ := mem_elementsOf.mp (hcovers.all e he (kind_of_member hm))
      exact ⟨_, mem_map.mpr ⟨b, hperm.symm.subset hb, rfl⟩,
        (has_relationRefs _ _ _ _).mpr ⟨e, heb, m, hm, hgives⟩⟩

end

lemma foldl_set (l : List Int64) {s : IdSet} (hs : s.Valid) : (l.foldl IdSet.set s).Valid ∧
      ∀ x, (l.foldl IdSet.set s).get x = true ↔ s.get x = true ∨ (x ∈ l ∧ 0 ≤ x.toInt) := by
  induction l generalizing s with
  | nil => exact ⟨hs, fun x => by simp⟩
  | cons id l ih =>
    obtain ⟨hvalid, hget⟩ := ih (valid_set hs id)
    refine ⟨hvalid, fun x => ?_⟩
    rw [foldl_cons, hget, get_set hs, mem_cons, or_and_right, or_assoc]
    refine or_congr_right (or_congr_left (and_congr_right ?_))
    rintro rfl
    rfl

/-- The refs add their nodes and ways, and no relation. -/
structure Pulls (pulled pulled' : ElementIds) (has : Ref → Prop) : Prop where
  valid : pulled'.Valid
  nodes : ∀ x, pulled'.nodeIds.get x = true ↔
    pulled.nodeIds.get x = true ∨ (has (.node x) ∧ 0 ≤ x.toInt)
  ways : ∀ x, pulled'.wayIds.get x = true ↔
    pulled.wayIds.get x = true ∨ (has (.way x) ∧ 0 ≤ x.toInt)
  relations : pulled'.relationIds = pulled.relationIds

lemma pullMembers_spec {pulled : ElementIds} (h : pulled.Valid) (refs : RelationRefs) :
    Pulls pulled (pullMembers pulled refs) refs.Has := by
  obtain ⟨hnodes, hgetNodes⟩ := foldl_set refs.nodes (h .node)
  obtain ⟨hways, hgetWays⟩ := foldl_set refs.ways (h .way)
  refine ⟨fun kind => ?_, hgetNodes, hgetWays, rfl⟩
  cases kind with
  | node => exact hnodes
  | way => exact hways
  | relation => exact h .relation

lemma foldl_pullMembers {pulled : ElementIds} (h : pulled.Valid) (refs : List RelationRefs) :
    Pulls pulled (refs.foldl pullMembers pulled) fun r => ∃ x ∈ refs, x.Has r := by
  induction refs generalizing pulled with
  | nil => exact ⟨h, fun x => by simp, fun x => by simp, rfl⟩
  | cons first refs ih =>
    have hone := pullMembers_spec h first
    have hrest := ih hone.valid
    refine ⟨hrest.valid, fun x => ?_, fun x => ?_, hrest.relations.trans hone.relations⟩
    · rw [foldl_cons, hrest.nodes, hone.nodes, exists_mem_cons_iff]
      tauto
    · rw [foldl_cons, hrest.ways, hone.ways, exists_mem_cons_iff]
      tauto

lemma foldl_merge (refs : List RelationRefs) (s : FirstRead) :
    (refs.foldl FirstRead.merge s).pulled = refs.foldl pullMembers s.pulled ∧
      (refs.foldl FirstRead.merge s).seeds = s.seeds ++ refs.flatMap RelationRefs.relations ∧
      (refs.foldl FirstRead.merge s).edges.records =
        s.edges.records ++ (refs.flatMap RelationRefs.edges).map encodeEdge := by
  induction refs generalizing s with
  | nil => simp
  | cons first refs ih =>
    obtain ⟨hpulled, hseeds, hedges⟩ := ih (s.merge first)
    rw [foldl_cons, hpulled, hseeds, hedges]
    refine ⟨rfl, ?_, ?_⟩
    · rw [flatMap_cons, ← append_assoc]
      rfl
    · rw [flatMap_cons, map_append, ← append_assoc]
      rfl

/-- What stays as it is while relations are entered. -/
structure Entered (pulled : ElementIds) (s : ElementIds × Bool) : Prop where
  valid : s.1.Valid
  nodes : s.1.nodeIds = pulled.nodeIds
  ways : s.1.wayIds = pulled.wayIds
  added : ∀ x, s.1.relationIds.get x = true → s.2 = true

lemma enterRelation_enters (ids pulled : ElementIds) :
    Enters (enterRelation ids) (fun x => 0 ≤ x.toInt ∧ ids.relationIds.get x = false)
      (fun s x => s.1.relationIds.get x) (Entered pulled) := by
  have hcases : ∀ (s : ElementIds × Bool) (x : Int64), Entered pulled s →
      (enterRelation ids s x = none ∧ (¬ (0 ≤ x.toInt ∧ ids.relationIds.get x = false) ∨
        s.1.relationIds.get x = true)) ∨
      (enterRelation ids s x = some ({ s.1 with relationIds := s.1.relationIds.set x }, true) ∧
        (0 ≤ x.toInt ∧ ids.relationIds.get x = false) ∧ s.1.relationIds.get x = false) := by
    intro s x hs
    have hvalid : s.1.relationIds.Valid := hs.valid .relation
    have hset := set_eq hvalid x
    have hnew := get_setIfNew hvalid x
    unfold enterRelation
    split
    · next hskip =>
      left
      refine ⟨rfl, .inl ?_⟩
      rintro ⟨hpos, hnot⟩
      rcases Bool.or_eq_true_iff.mp hskip with hneg | hreq
      · have := of_decide_eq_true hneg
        omega
      · rw [hnot] at hreq
        cases hreq
    · next htake =>
      rw [Bool.or_eq_true, not_or, decide_eq_true_eq, Bool.not_eq_true] at htake
      have hok : 0 ≤ x.toInt ∧ ids.relationIds.get x = false := ⟨by omega, htake.2⟩
      dsimp only
      cases hin : s.1.relationIds.get x with
      | true =>
        left
        have hold : (s.1.relationIds.setIfNew x).1 = false := by
          rw [Bool.eq_false_iff]
          intro hfirst
          have := (hnew.mp hfirst).2
          rw [hin] at this
          cases this
        rw [hold]
        exact ⟨rfl, .inr rfl⟩
      | false =>
        right
        rw [hnew.mpr ⟨hok.1, hin⟩, ← hset]
        exact ⟨rfl, hok, rfl⟩
  refine ⟨fun s x hs => ?_, fun s x s' hs henter => ?_, fun s x s' hs henter y => ?_⟩
  · rcases hcases s x hs with ⟨hnone, hskip⟩ | ⟨hsome, hok, hnew⟩
    · exact iff_of_true hnone hskip
    · rw [hsome]
      refine iff_of_false nofun ?_
      rintro (hnot | hin)
      · exact hnot hok
      · rw [hnew] at hin
        cases hin
  · rcases hcases s x hs with ⟨hnone, -⟩ | ⟨hsome, -, -⟩
    · rw [hnone] at henter
      cases henter
    · rw [hsome] at henter
      cases henter
      refine ⟨fun kind => ?_, hs.nodes, hs.ways, fun _ _ => rfl⟩
      cases kind with
      | node => exact hs.valid .node
      | way => exact hs.valid .way
      | relation => exact valid_set (hs.valid .relation) x
  · rcases hcases s x hs with ⟨hnone, -⟩ | ⟨hsome, hok, -⟩
    · rw [hnone] at henter
      cases henter
    · rw [hsome] at henter
      cases henter
      refine (get_set (hs.valid .relation) x y).trans (or_congr_right ?_)
      exact and_iff_left hok.1

end Getid
