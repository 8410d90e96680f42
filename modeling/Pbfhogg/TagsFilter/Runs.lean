import Pbfhogg.TagsFilter.Closure

/-!
# Runs of tags-filter

The command writes the closure of the direct matches, in input order, or the direct matches alone.
-/

namespace TagsFilter

open OsmId BlobMeta IdSpace TagExpr BlobFilter Gather Fallible List
open MergeJoin (MemberId)

variable {ρ ω : Type} {expressions : List Expression} {invert distrustMetadata removeTags : Bool}
  {input : List (Blob ρ)}

variable {elements : List (Element ρ)} {s : Sets}

/-- The sets hold what is reached, among the ids that an element can have. -/
structure AfterClosure (expressions : List Expression) (invert : Bool)
    (elements : List (Element ρ)) (s : Sets) : Prop where
  matchedNode : ∀ x, x ∈ s.matchedNode.ids ↔
    ∃ e, Direct expressions invert elements .node e ∧ e.id = x
  directWay : ∀ x, x ∈ s.directWay.ids ↔
    ∃ e, Direct expressions invert elements .way e ∧ e.id = x
  wayDepNode : ∀ x, x ∈ s.wayDepNode.ids ↔
    (∃ e, Direct expressions invert elements .way e ∧ x ∈ e.refs) ∧ 0 ≤ x.toInt
  directRelation : ∀ x, x ∈ s.directRelation.ids ↔
    ∃ e, Direct expressions invert elements .relation e ∧ e.id = x
  includedRelation : ∀ x, 0 ≤ x.toInt →
    (x ∈ s.includedRelation.set.ids ↔ InRelation expressions invert elements x)
  includedWay : ∀ x, 0 ≤ x.toInt →
    (x ∈ s.includedWay.set.ids ↔ InWay expressions invert elements x)
  relationDepNode : ∀ x, 0 ≤ x.toInt → (x ∈ s.relationDepNode.ids ↔
    ∃ r ∈ elements, r.kind = .relation ∧ InRelation expressions invert elements r.id ∧
      .node x ∈ r.members)
  up : s.includedWay.Up ∧ s.includedRelation.Up

lemma no_relation (h : ∀ e, ¬ Direct expressions invert elements .relation e) (x : Int64) :
    ¬ InRelation expressions invert elements x := by
  intro hx
  induction hx with
  | direct r hr hkind hdirect => exact h r ⟨hr, hkind, hdirect⟩
  | member r id hr hkind hin hmember ih => exact ih

/-- Without a matched relation there is nothing to expand. -/
theorem AfterPass1.no_closure (h : AfterPass1 expressions invert elements s)
    (hflag : s.includedRelation.flag = false) : AfterClosure expressions invert elements s := by
  have hnone : ∀ x, ¬ InRelation expressions invert elements x := by
    refine no_relation fun e he => ?_
    have hup := h.up.2 _ ((h.includedRelation e.id).mpr ⟨e, he, rfl⟩)
    rw [hflag] at hup
    cases hup
  refine ⟨h.matchedNode, h.directWay, h.wayDepNode, h.directRelation, fun x _ => ?_, fun x _ => ?_,
    fun x _ => ?_, h.up⟩
  · rw [h.includedRelation]
    constructor
    · rintro ⟨e, ⟨he, hkind, hdirect⟩, rfl⟩
      exact .direct e he hkind hdirect
    · intro hx
      exact absurd hx (hnone x)
  · rw [h.includedWay]
    constructor
    · rintro ⟨e, ⟨he, hkind, hdirect⟩, rfl⟩
      exact .inl ⟨e, he, hkind, hdirect, rfl⟩
    · rintro (⟨e, he, hkind, hdirect, rfl⟩ | ⟨r, -, -, hin, -⟩)
      · exact ⟨e, ⟨he, hkind, hdirect⟩, rfl⟩
      · exact absurd hin (hnone _)
  · rw [h.relationDepNode]
    constructor
    · intro hx
      cases hx
    · rintro ⟨r, -, -, hin, -⟩
      exact absurd hin (hnone _)

lemma AfterPass1.growing (h : AfterPass1 expressions invert elements s) :
    Growing expressions invert elements
      ⟨s.includedRelation.set, s.includedWay, s.relationDepNode⟩ where
  relations x hx := by
    obtain ⟨e, ⟨he, hkind, hdirect⟩, rfl⟩ := (h.includedRelation x).mp hx
    exact .direct e he hkind hdirect
  directRelations e he := (h.includedRelation e.id).mpr ⟨e, he, rfl⟩
  ways x hx := by
    obtain ⟨e, ⟨he, hkind, hdirect⟩, rfl⟩ := (h.includedWay x).mp hx
    exact .inl ⟨e, he, hkind, hdirect, rfl⟩
  directWays e he := (h.includedWay e.id).mpr ⟨e, he, rfl⟩
  nodes x hx := by
    rw [h.relationDepNode] at hx
    cases hx
  up := h.up.1

/-- What is closed under members holds every relation that is reached. -/
theorem Grown.mem_relation {st : ClosureState} (hwf : WellFormed input)
    (h : Grown expressions invert (elementsOf input) st) {x : Int64} (hpos : 0 ≤ x.toInt)
    (hx : InRelation expressions invert (elementsOf input) x) : x ∈ st.includedRelation.ids := by
  induction hx with
  | direct r hr hkind hdirect => exact h.directRelations r ⟨hr, hkind, hdirect⟩
  | member r id hr hkind hin hmember ih =>
    exact (h.closed r hr hkind (ih (hwf.nonneg r hr)) id hpos).1 hmember

lemma AfterPass1.closure {st : ClosureState} (hwf : WellFormed input)
    (h : AfterPass1 expressions invert (elementsOf input) s)
    (hflag : s.includedRelation.flag = true)
    (hst : Grown expressions invert (elementsOf input) st) :
    AfterClosure expressions invert (elementsOf input) { s with
        includedRelation := ⟨st.includedRelation, s.includedRelation.flag⟩
        includedWay := st.includedWay
        relationDepNode := st.relationDepNode } := by
  refine ⟨h.matchedNode, h.directWay, h.wayDepNode, h.directRelation, fun x hpos => ?_,
    fun x hpos => ?_, fun x hpos => ?_, hst.up, fun _ _ => hflag⟩
  · exact ⟨hst.relations x, hst.mem_relation hwf hpos⟩
  · refine ⟨hst.ways x, ?_⟩
    rintro (⟨w, hw, hkind, hdirect, rfl⟩ | ⟨r, hr, hkind, hin, hm⟩)
    · exact hst.directWays w ⟨hw, hkind, hdirect⟩
    · exact (hst.closed r hr hkind (hst.mem_relation hwf (hwf.nonneg r hr) hin) x hpos).2.1 hm
  · refine ⟨hst.nodes x, ?_⟩
    rintro ⟨r, hr, hkind, hin, hm⟩
    exact (hst.closed r hr hkind (hst.mem_relation hwf (hwf.nonneg r hr) hin) x hpos).2.2 hm

lemma closure_spec (hwf : WellFormed input) (orders : Orders ρ) {fuel : Nat}
    (hfuel : closureBound (elementsOf input) ≤ fuel)
    (h : AfterPass1 expressions invert (elementsOf input) s) :
    ∃ s', expandRelations distrustMetadata orders fuel input s = .ok s' ∧
      AfterClosure expressions invert (elementsOf input) s' := by
  unfold expandRelations
  cases hflag : s.includedRelation.flag with
  | false => exact ⟨s, rfl, h.no_closure hflag⟩
  | true =>
    obtain ⟨schedule, hschedule, hsub, hkinds⟩ :=
      kindSchedule_ok .relation distrustMetadata hwf
    have hlt := reachable_lt (elementsOf input)
    obtain ⟨st, hloop, hst⟩ := closureLoop_spec orders hwf hsub hkinds distrustMetadata fuel 0 _
      h.growing (by omega)
    refine ⟨_, ?_, h.closure hwf hflag hst⟩
    rw [if_pos rfl, collectRelationMemberClosure, hschedule]
    simp only [ok_bind, hloop]
    rfl

lemma mem_wayNodes {included skip : IdSet} {x : Int64} :
    x ∈ wayNodes included skip elements ↔ ∃ w ∈ elements, w.kind = .way ∧ w.id ∈ included.ids ∧
      w.id ∉ skip.ids ∧ x ∈ w.refs := by
  simp only [wayNodes, mem_flatMap, mem_filter, Bool.and_eq_true, decide_eq_true_eq,
    get_iff, Bool.not_eq_true', Bool.eq_false_iff, ne_eq]
  constructor
  · rintro ⟨w, ⟨hw, ⟨hkind, hin⟩, hskip⟩, hx⟩
    exact ⟨w, hw, hkind, hin, hskip, hx⟩
  · rintro ⟨w, hw, hkind, hin, hskip, hx⟩
    exact ⟨w, ⟨hw, ⟨hkind, hin⟩, hskip⟩, hx⟩

/-- `nodes` is the set with the nodes of the ways that pass 1 has not matched. -/
def WithWayNodes (elements : List (Element ρ)) (s : Sets) (nodes : IdSet) : Prop :=
  ∀ x, x ∈ nodes.ids ↔ x ∈ s.relationDepNode.ids ∨
    ((∃ w ∈ elements, w.kind = .way ∧ w.id ∈ s.includedWay.set.ids ∧ w.id ∉ s.directWay.ids ∧
      x ∈ w.refs) ∧ 0 ≤ x.toInt)

lemma wayDeps_spec (hwf : WellFormed input) (orders : Orders ρ) :
    ∃ nodes : IdSet, WithWayNodes (elementsOf input) s nodes ∧
      collectWayNodeDependencies distrustMetadata orders input s =
        .ok { s with relationDepNode := nodes } := by
  obtain ⟨schedule, hschedule, hsub, hkinds⟩ := kindSchedule_ok .way distrustMetadata hwf
  have hperm := orders.shuffle_perm 1 schedule
  have hblocks := decode_all distrustMetadata hwf hperm hsub
  refine ⟨(((orders.shuffle 1 schedule).map Blob.elements).map
    (wayNodes s.includedWay.set s.directWay)).foldl (fun acc ids => ids.foldl IdSet.set acc)
      s.relationDepNode, fun x => ?_, ?_⟩
  · rw [foldl_iff (P := fun (acc : IdSet) x => x ∈ acc.ids)
      (Q := fun ids x => x ∈ ids ∧ 0 ≤ x.toInt) fun _ _ _ => IdSet.mem_foldl_set]
    refine or_congr_right ?_
    constructor
    · rintro ⟨ids, hids, hx, hpos⟩
      obtain ⟨block, hblock, rfl⟩ := mem_map.mp hids
      obtain ⟨b, hb, rfl⟩ := mem_map.mp hblock
      obtain ⟨w, hw, hkind, hin, hskip, hx⟩ := mem_wayNodes.mp hx
      have hmem := mem_elementsOf.mpr ⟨b, hsub b (hperm.subset hb), hw⟩
      exact ⟨⟨w, hmem, hkind, hin, hskip, hx⟩, hpos⟩
    · rintro ⟨⟨w, hw, hkind, hin, hskip, hx⟩, hpos⟩
      obtain ⟨b, hb, hwb⟩ := mem_elementsOf.mp ((hkinds w hkind).mpr hw)
      refine ⟨_, mem_map.mpr ⟨b.elements, ?_, rfl⟩, ?_, hpos⟩
      · exact mem_map.mpr ⟨b, hperm.symm.subset hb, rfl⟩
      · exact mem_wayNodes.mpr ⟨w, hwb, hkind, hin, hskip, hx⟩
  · rw [collectWayNodeDependencies, hschedule]
    simp only [ok_bind, hblocks]
    rfl

lemma direct_iff (hwf : WellFormed input) {set : IdSet} {kind : ElementKind}
    (hset : ∀ x, x ∈ set.ids ↔
      ∃ e, Direct expressions invert (elementsOf input) kind e ∧ e.id = x) {e : Element ρ}
    (he : e ∈ elementsOf input) (hkind : e.kind = kind) :
    set.get e.id = direct expressions invert e := by
  rw [Bool.eq_iff_iff, get_iff, hset]
  constructor
  · rintro ⟨e', ⟨he', hkind', hdirect⟩, hid⟩
    rw [hwf.eq_of_id he he' (hkind.trans hkind'.symm) hid.symm]
    exact hdirect
  · intro hdirect
    exact ⟨e, ⟨he, hkind, hdirect⟩, rfl⟩

/-- The nodes of the ways, direct or not, and those of the relations. -/
theorem node_selected {nodes : IdSet} (hwf : WellFormed input)
    (h : AfterClosure expressions invert (elementsOf input) s)
    (hnodes : WithWayNodes (elementsOf input) s nodes) {x : Int64} (hpos : 0 ≤ x.toInt) :
    x ∈ s.matchedNode.ids ∨ x ∈ s.wayDepNode.ids ∨ x ∈ nodes.ids ↔
      InNode expressions invert (elementsOf input) x := by
  have hway : ∀ w ∈ elementsOf input, w.id ∈ s.includedWay.set.ids ↔
      InWay expressions invert (elementsOf input) w.id := fun w hw =>
    h.includedWay w.id (hwf.nonneg w hw)
  constructor
  · rintro (hmatched | hdep | hdep)
    · obtain ⟨e, ⟨he, hkind, hdirect⟩, rfl⟩ := (h.matchedNode x).mp hmatched
      exact .inl ⟨e, he, hkind, hdirect, rfl⟩
    · obtain ⟨⟨w, ⟨hw, hkind, hdirect⟩, hx⟩, -⟩ := (h.wayDepNode x).mp hdep
      exact .inr (.inl ⟨w, hw, hkind, .inl ⟨w, hw, hkind, hdirect, rfl⟩, hx⟩)
    · rcases (hnodes x).mp hdep with hmember | ⟨⟨w, hw, hkind, hin, -, hx⟩, -⟩
      · exact .inr (.inr ((h.relationDepNode x hpos).mp hmember))
      · exact .inr (.inl ⟨w, hw, hkind, (hway w hw).mp hin, hx⟩)
  · rintro (⟨e, he, hkind, hdirect, rfl⟩ | ⟨w, hw, hkind, hin, hx⟩ | hmember)
    · exact .inl ((h.matchedNode e.id).mpr ⟨e, ⟨he, hkind, hdirect⟩, rfl⟩)
    · -- A way that is matched has left its nodes in pass 1.
      by_cases hdirect : w.id ∈ s.directWay.ids
      · obtain ⟨w', hw', hid⟩ := (h.directWay w.id).mp hdirect
        have heq := hwf.eq_of_id hw hw'.1 (hkind.trans hw'.2.1.symm) hid.symm
        exact .inr (.inl ((h.wayDepNode x).mpr ⟨⟨w', hw', heq ▸ hx⟩, hpos⟩))
      · exact .inr (.inr ((hnodes x).mpr
          (.inr ⟨⟨w, hw, hkind, (hway w hw).mpr hin, hdirect, hx⟩, hpos⟩)))
    · exact .inr (.inr ((hnodes x).mpr (.inl ((h.relationDepNode x hpos).mpr hmember))))

open Classical in
lemma pass2Element_eq {nodes : IdSet} (hwf : WellFormed input)
    (h : AfterClosure expressions invert (elementsOf input) s)
    (hnodes : WithWayNodes (elementsOf input) s nodes) {e : Element ρ} (he : e ∈ elementsOf input) :
    pass2Element { s with relationDepNode := nodes } removeTags e =
      if Selected expressions invert (elementsOf input) e then
        some (e.stripped removeTags (direct expressions invert e))
      else none := by
  have hpos := hwf.nonneg e he
  cases hbody : e.body with
  | node =>
    have hkind : e.kind = .node := by simp [Element.kind, hbody]
    have hselected := node_selected hwf h hnodes hpos
    simp only [pass2Element, hbody, Selected, hkind]
    rw [direct_iff hwf h.matchedNode he hkind]
    refine if_congr ?_ rfl rfl
    rw [← direct_iff hwf h.matchedNode he hkind, ← hselected]
    simp only [Bool.or_eq_true, get_iff, or_assoc]
  | way refs =>
    have hkind : e.kind = .way := by simp [Element.kind, hbody]
    simp only [pass2Element, hbody, Selected, hkind]
    rw [direct_iff hwf h.directWay he hkind]
    exact if_congr (get_iff.trans (h.includedWay e.id hpos)) rfl rfl
  | relation members =>
    have hkind : e.kind = .relation := by simp [Element.kind, hbody]
    simp only [pass2Element, hbody, Selected, hkind]
    rw [direct_iff hwf h.directRelation he hkind]
    exact if_congr (get_iff.trans (h.includedRelation e.id hpos)) rfl rfl

variable (write : Element ρ → Except PbfError ω)

/-- The builder's failure is the run's. -/
def written (es : List (Element ρ)) : Result (List ω) :=
  (es.mapM write).mapError Error.pbf

lemma written_eq (es : List (Element ρ)) :
    written write es = es.mapM fun e => (write e).mapError Error.pbf := by
  induction es with
  | nil => rfl
  | cons e es ih =>
    rw [mapM_cons, ← ih, written, written, mapM_cons]
    cases write e with
    | error err => rfl
    | ok w =>
      cases es.mapM write with
      | error err => rfl
      | ok ws => rfl

variable (f : List (Element ρ) → List (Element ρ))

lemma written_blobs
    {blobs : List (Blob ρ)} (hwf : WellFormed input)
    (hsub : ∀ b ∈ blobs, b ∈ input) :
    (do return (← blobs.mapM fun b => do
      written write (f (← decodeBlock distrustMetadata b))).flatten) =
        written write (blobs.flatMap fun b => f b.elements) := by
  have hdecode : (blobs.mapM fun b => do written write (f (← decodeBlock distrustMetadata b))) =
      blobs.mapM fun b => (f b.elements).mapM fun e => (write e).mapError Error.pbf := by
    refine mapM_congr fun b hb => ?_
    rw [decodeBlock_ok (hwf.truthful b (hsub b hb)), ok_bind, written_eq]
  rw [hdecode, mapM_flatMap, ← written_eq]

/-- Blobs that give nothing can be left out. -/
theorem flatMap_filter {f : List (Element ρ) → List (Element ρ)} {keep : Blob ρ → Bool}
    (blobs : List (Blob ρ)) (h : ∀ b ∈ blobs, keep b = false → f b.elements = []) :
    ((blobs.filter keep).flatMap fun b => f b.elements) = blobs.flatMap fun b => f b.elements := by
  induction blobs with
  | nil => rfl
  | cons b blobs ih =>
    have hrest := ih fun d hd => h d (mem_cons_of_mem b hd)
    cases hkeep : keep b with
    | true => rw [filter_cons_of_pos hkeep, flatMap_cons, flatMap_cons, hrest]
    | false =>
      rw [filter_cons_of_neg (by rw [hkeep]; exact Bool.false_ne_true), flatMap_cons,
        h b mem_cons_self hkeep, hrest, nil_append]

/-- Writing only the blobs that give something. -/
theorem written_kept
    {keep : Blob ρ → Bool} (hwf : WellFormed input)
    (hskip : ∀ b ∈ input, keep b = false → f b.elements = []) :
    (do return (← (input.filter keep).mapM fun b => do
      written write (f (← decodeBlock distrustMetadata b))).flatten) =
        written write (input.flatMap fun b => f b.elements) := by
  rw [written_blobs write f hwf fun b hb => mem_of_mem_filter hb, flatMap_filter input hskip]

open Classical in
/-- What the two-pass mode writes: what is selected, in input order, without the tags of what is
not matched itself when these are to be removed. -/
noncomputable def selection (expressions : List Expression) (invert removeTags : Bool)
    (elements : List (Element ρ)) : List (Element ρ) :=
  (elements.filter fun e => Selected expressions invert elements e).map fun e =>
    e.stripped removeTags (direct expressions invert e)

open Classical in
lemma filterMap_selection {f : Element ρ → Option (Element ρ)}
    (h : ∀ e ∈ elements, f e = if Selected expressions invert elements e then
      some (e.stripped removeTags (direct expressions invert e)) else none) :
    elements.filterMap f = selection expressions invert removeTags elements := by
  rw [selection, ← filterMap_eq_map, filterMap_filter]
  refine filterMap_congr fun e he => ?_
  rw [h e he]
  simp

/-- A blob of a kind of which nothing is included. -/
theorem pass2_skipped {b : Blob ρ} {f : Filter} (hb : b.Truthful)
    (hup : s.includedWay.Up ∧ s.includedRelation.Up)
    (hf : f = ⟨true, s.includedWay.flag, s.includedRelation.flag, none, none⟩)
    (hskip : (b.index.all fun idx => f.wantsIndex idx) = false) :
    b.elements.filterMap (pass2Element s removeTags) = [] := by
  cases hidx : b.index with
  | none =>
    rw [hidx] at hskip
    cases hskip
  | some idx =>
    rw [hidx] at hskip
    have hwant : f.wants idx.kind = false := hskip
    have hdown : ∀ {x : Flagged} {id : Int64}, x.Up → x.flag = false → x.set.get id = false := by
      intro x id hx hflag
      refine Bool.eq_false_iff.mpr fun hget => ?_
      rw [hx id (get_iff.mp hget)] at hflag
      cases hflag
    refine filterMap_eq_nil_iff.mpr fun e he => ?_
    have hkind := hb.kind hidx he
    rw [← hkind, hf] at hwant
    cases hbody : e.body with
    | node =>
      simp only [Element.kind, hbody, Filter.wants] at hwant
      cases hwant
    | way refs =>
      simp only [Element.kind, hbody, Filter.wants] at hwant
      simp [pass2Element, hbody, hdown hup.1 hwant]
    | relation members =>
      simp only [Element.kind, hbody, Filter.wants] at hwant
      simp [pass2Element, hbody, hdown hup.2 hwant]

lemma pass2_spec {nodes : IdSet}
    (hwf : WellFormed input) (h : AfterClosure expressions invert (elementsOf input) s)
    (hnodes : WithWayNodes (elementsOf input) s nodes) :
    pass2 write invert distrustMetadata removeTags input { s with relationDepNode := nodes } =
      written write (selection expressions invert removeTags (elementsOf input)) := by
  have hselection : ((elementsOf input).filterMap
      (pass2Element { s with relationDepNode := nodes } removeTags)) =
        selection expressions invert removeTags (elementsOf input) :=
    filterMap_selection fun e he => pass2Element_eq hwf h hnodes he
  rw [pass2, hwf.walk_ok, ok_bind, ← hselection, elementsOf, filterMap_flatMap]
  refine written_kept write (fun es => es.filterMap (pass2Element _ removeTags)) hwf ?_
  intro b hb hskip
  split at hskip
  · cases hskip
  · exact pass2_skipped (hwf.truthful b hb) h.up rfl hskip

lemma twoPass_spec (hwf : WellFormed input)
    (orders : Orders ρ) {fuel : Nat} (hfuel : closureBound (elementsOf input) ≤ fuel) :
    twoPass write expressions invert distrustMetadata removeTags orders fuel input =
      written write (selection expressions invert removeTags (elementsOf input)) := by
  obtain ⟨s₁, hpass1, hafter⟩ := pass1_spec hwf orders
  obtain ⟨s₂, hclosure, hclosed⟩ := closure_spec hwf orders hfuel hafter
  obtain ⟨nodes, hnodes, hdeps⟩ := wayDeps_spec hwf orders
  rw [twoPass, hpass1, ok_bind, hclosure, ok_bind, hdeps, ok_bind]
  exact pass2_spec write hwf hclosed hnodes

lemma singlePass_spec (hwf : WellFormed input) :
    singlePass write expressions invert distrustMetadata input =
      written write ((elementsOf input).filter (direct expressions invert)) := by
  rw [singlePass, hwf.walk_ok, ok_bind, elementsOf, filter_flatMap]
  refine written_kept write (fun es => es.filter (direct expressions invert)) hwf ?_
  intro b hb hskip
  rw [Bool.not_eq_false'] at hskip
  refine filter_eq_nil_iff.mpr fun e he => ?_
  rw [direct_of_skipped (hwf.truthful b hb) hskip he]
  exact Bool.false_ne_true

lemma requireIndexdata_ok {force : Bool} (h : force = true ∨ ∀ b ∈ input, b.index.isSome = true) :
    requireIndexdata force input = .ok () := by
  refine if_pos ?_
  rw [Bool.or_eq_true]
  rcases h with hforce | hall
  · exact .inl hforce
  · right
    cases input with
    | nil => rfl
    | cons b rest => exact hall b mem_cons_self

/-- What the options ask for. -/
noncomputable def Options.output (opts : Options) (expressions : List Expression)
    (elements : List (Element ρ)) : List (Element ρ) :=
  match opts.addReferenced with
  | some removeTags => selection expressions opts.invert removeTags elements
  | none => elements.filter (direct expressions opts.invert)

lemma tagsFilter_spec (opts : Options)
    (hparse : parseExpressions opts.expressionStrs = .ok expressions) (hwf : WellFormed input)
    (hindex : opts.requiresIndexdata expressions = true →
      opts.force = true ∨ ∀ b ∈ input, b.index.isSome = true) (orders : Orders ρ) {fuel : Nat}
    (hfuel : closureBound (elementsOf input) ≤ fuel) : tagsFilter write opts orders fuel input =
      written write (opts.output expressions (elementsOf input)) := by
  have hmode : (match opts.addReferenced with
      | some removeTags =>
        twoPass write expressions opts.invert opts.distrustMetadata removeTags orders fuel input
      | none => singlePass write expressions opts.invert opts.distrustMetadata input) =
        written write (opts.output expressions (elementsOf input)) := by
    unfold Options.output
    cases opts.addReferenced with
    | none => exact singlePass_spec write hwf
    | some removeTags => exact twoPass_spec write hwf orders hfuel
  rw [tagsFilter, hparse, ← hmode]
  simp only [Except.mapError, ok_bind]
  by_cases hreq : opts.requiresIndexdata expressions = true
  · rw [if_pos hreq, requireIndexdata_ok (hindex hreq)]
    rfl
  · exact (if_neg hreq).trans rfl

theorem tags_filter_writes_its_closure
    (input : List (Blob ρ)) (hwf : WellFormed input) (opts : Options)
    (expressions : List Expression)
    (hparse : parseExpressions opts.expressionStrs = .ok expressions)
    (hindex : opts.requiresIndexdata expressions = true →
      opts.force = true ∨ ∀ b ∈ input, b.index.isSome = true) (orders : Orders ρ) (fuel : Nat)
    (hfuel : closureBound (elementsOf input) ≤ fuel) :
    tagsFilter write opts orders fuel input =
      written write (match opts.addReferenced with
        | some removeTags => selection expressions opts.invert removeTags (elementsOf input)
        | none => (elementsOf input).filter (direct expressions opts.invert)) ∧
    ∀ orders', tagsFilter write { opts with distrustMetadata := true } orders' fuel input =
      tagsFilter write opts orders fuel input := by
  have hspec := tagsFilter_spec write opts hparse hwf hindex orders hfuel
  refine ⟨hspec, fun orders' => ?_⟩
  have hfree : Options.requiresIndexdata { opts with distrustMetadata := true } expressions =
      false := by
    unfold Options.requiresIndexdata
    rw [if_pos (Bool.or_true _)]
  have hdistrust := tagsFilter_spec write { opts with distrustMetadata := true } hparse hwf
    (fun hreq => by rw [hfree] at hreq; cases hreq) orders' hfuel
  rw [hspec, hdistrust]
  rfl

/-- Each blob on its own, in file order. -/
def inOrder (ρ : Type) : Orders ρ where
  shuffle _ l := l
  shuffle_perm := inPlace_perm
  partition _ l := l.map fun b => [b]
  partition_perm _ l := by
    induction l with
    | nil => exact List.Perm.refl []
    | cons b l ih => exact ih.cons b

/-- Relation 1 carries the tag `t` and is in a cycle with relation 2, which has a way. -/
def cycle : List (Blob Unit) :=
  [⟨some ⟨.node, 7, 9, 2, none⟩, none, [⟨7, [([120], [121])], .node, ()⟩, ⟨9, [], .node, ()⟩]⟩,
    ⟨some ⟨.way, 5, 5, 1, none⟩, none, [⟨5, [([120], [121])], .way [7, -3], ()⟩]⟩,
    ⟨some ⟨.relation, 1, 2, 2, none⟩, some [1, 1, 0, 1, 0, 116],
      [⟨1, [([116], [])], .relation [.relation 2], ()⟩,
        ⟨2, [], .relation [.relation 1, .way 5], ()⟩]⟩]

/-- `r/t` with the references, tags removed. -/
def relationsWithT : Options := ⟨[[114, 47, 116]], some true, false, false, false⟩

lemma cycle_wellFormed : WellFormed cycle where
  nonneg := by decide
  distinct := by decide
  truthful := by
    intro b hb
    rcases mem_cons.mp hb with rfl | hb
    · exact ⟨fun idx hidx => by cases hidx; decide, fun t ht => nomatch ht⟩
    · rcases mem_cons.mp hb with rfl | hb
      · exact ⟨fun idx hidx => by cases hidx; decide, fun t ht => nomatch ht⟩
      · cases mem_singleton.mp hb
        exact ⟨fun idx hidx => by cases hidx; decide, fun t ht => by cases ht; decide⟩
  uniform := .inl (by decide)

theorem cycle_filtered : written (fun e => .ok (e.id, e.tags))
      (selection [⟨⟨false, false, true⟩, ⟨.equal [116], none, false⟩⟩] false true
        (elementsOf cycle)) = .ok [(7, []), (5, []), (1, [([116], [])]), (2, [])] := by
  have hrun := (tags_filter_writes_its_closure (fun e => .ok (e.id, e.tags)) cycle cycle_wellFormed
    relationsWithT [⟨⟨false, false, true⟩, ⟨.equal [116], none, false⟩⟩] rfl
    (fun _ => .inr (by decide)) (inOrder Unit) 12 (by decide)).1
  refine Eq.trans hrun.symm ?_
  rfl

end TagsFilter
