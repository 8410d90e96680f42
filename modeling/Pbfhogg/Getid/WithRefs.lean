import Pbfhogg.Getid.Reached

/-!
# Runs of getid with references

The first pass pulls in what the requested ids reach, the second writes it in file order.
-/

namespace Getid

open OsmId BlobMeta BlobFilter Fallible IdSets List
open TagsFilter (Element Blob Error Result Orders refusePartialIndex decodeBlock kindSchedule
  elementsOf mem_elementsOf)
open MergeJoin (MemberId)
open CheckRefs (mem_sortDedup)

variable {ρ : Type} {ids pulled : ElementIds} {input schedule : List (Blob ρ)}

variable {removeTags reportFound : Bool} {groups : List (List (Element ρ))}

lemma mem_wayRefs {wayIds : IdSet} {elements : List (Element ρ)} {x : Int64} :
    x ∈ wayRefs wayIds elements ↔ ∃ w ∈ elements, wayIds.get w.id = true ∧ x ∈ w.refs := by
  rw [wayRefs, mem_sortDedup, mem_flatMap]
  constructor
  · rintro ⟨w, hw, hx⟩
    obtain ⟨hmem, hget⟩ := mem_filter.mp hw
    exact ⟨w, hmem, (Bool.and_eq_true_iff.mp hget).2, hx⟩
  · rintro ⟨w, hw, hget, hx⟩
    refine ⟨w, mem_filter.mpr ⟨hw, Bool.and_eq_true_iff.mpr ⟨?_, hget⟩⟩, hx⟩
    exact decide_eq_true (kind_of_ref hx)

lemma foldl_sets (l : List (List Int64)) {s : IdSet} (hs : s.Valid) :
    (l.foldl (fun s ids => ids.foldl IdSet.set s) s).Valid ∧
      ∀ x, (l.foldl (fun s ids => ids.foldl IdSet.set s) s).get x = true ↔
        s.get x = true ∨ ∃ ids ∈ l, x ∈ ids ∧ 0 ≤ x.toInt := by
  induction l generalizing s with
  | nil => exact ⟨hs, fun x => by simp⟩
  | cons first l ih =>
    obtain ⟨hone, hgetOne⟩ := foldl_set first hs
    obtain ⟨hvalid, hget⟩ := ih hone
    refine ⟨hvalid, fun x => ?_⟩
    rw [foldl_cons, hget, hgetOne, exists_mem_cons_iff, or_assoc]

/-- The refs of the listed ways join the nodes. -/
structure WayNodes (input : List (Blob ρ)) (pulled pulled' : ElementIds) : Prop where
  valid : pulled'.Valid
  nodes : ∀ x, pulled'.nodeIds.get x = true ↔ pulled.nodeIds.get x = true ∨
    ((∃ w ∈ elementsOf input, pulled.wayIds.get w.id = true ∧ x ∈ w.refs) ∧ 0 ≤ x.toInt)
  ways : pulled'.wayIds = pulled.wayIds
  relations : pulled'.relationIds = pulled.relationIds

lemma collectWayNodes_spec (h : KindsTrue input) (hcovers : Covers .way input schedule)
    (hpulled : pulled.Valid) (orders : Orders ρ) :
    ∃ pulled', collectWayNodes orders schedule pulled = .ok pulled' ∧
      WayNodes input pulled pulled' := by
  have hperm := orders.shuffle_perm 2 schedule
  have hread : ((orders.shuffle 2 schedule).mapM fun b => do
      return wayRefs pulled.wayIds (← decodeBlock false b)) =
        .ok ((orders.shuffle 2 schedule).map fun b => wayRefs pulled.wayIds b.elements) := by
    refine mapM_eq_map fun b hb => ?_
    rw [decodeBlock_true (h b (hcovers.sub b (hperm.subset hb)))]
    rfl
  obtain ⟨hvalid, hget⟩ := foldl_sets
    ((orders.shuffle 2 schedule).map fun b => wayRefs pulled.wayIds b.elements) (hpulled .node)
  have hok : collectWayNodes orders schedule pulled = .ok { pulled with
      nodeIds := ((orders.shuffle 2 schedule).map fun b => wayRefs pulled.wayIds b.elements).foldl
        (fun s ids => ids.foldl IdSet.set s) pulled.nodeIds } := by
    rw [collectWayNodes, hread]
    rfl
  refine ⟨_, hok, fun kind => ?_, fun x => ?_, rfl, rfl⟩
  · cases kind with
    | node => exact hvalid
    | way => exact hpulled .way
    | relation => exact hpulled .relation
  · refine (hget x).trans (or_congr_right ?_)
    constructor
    · rintro ⟨refs, hrefs, hx, hpos⟩
      obtain ⟨b, hb, rfl⟩ := mem_map.mp hrefs
      obtain ⟨w, hw, hin, hxw⟩ := mem_wayRefs.mp hx
      exact ⟨⟨w, mem_elementsOf.mpr ⟨b, hcovers.sub b (hperm.subset hb), hw⟩, hin, hxw⟩, hpos⟩
    · rintro ⟨⟨w, hw, hin, hx⟩, hpos⟩
      obtain ⟨b, hb, hwb⟩ := mem_elementsOf.mp (hcovers.all w hw (kind_of_ref hx))
      exact ⟨_, mem_map.mpr ⟨b, hperm.symm.subset hb, rfl⟩, mem_wayRefs.mpr ⟨w, hwb, hin, hx⟩, hpos⟩

/-- What is requested or pulled in is what is chosen. -/
structure Followed (ids : ElementIds) (elements : List (Element ρ)) (pulled : ElementIds) :
    Prop where
  valid : pulled.Valid
  chosen : ∀ kind x, 0 ≤ x.toInt → ((ids.of kind).get x = true ∨ (pulled.of kind).get x = true ↔
    Chosen ids elements kind x)

lemma Closed.followed {p pulled : ElementIds} (merged : ElementIds)
    (h : Closed ids (elementsOf input) p) (hnonneg : ∀ e ∈ elementsOf input, 0 ≤ e.id.toInt)
    (hways : ∀ x, merged.wayIds.get x = true ↔ p.wayIds.get x = true ∨ ids.wayIds.get x = true)
    (hnodes : merged.nodeIds = p.nodeIds) (hrelations : merged.relationIds = p.relationIds)
    (hpulled : WayNodes input merged pulled) : Followed ids (elementsOf input) pulled := by
  have hway : ∀ x, 0 ≤ x.toInt →
      (merged.wayIds.get x = true ↔ Chosen ids (elementsOf input) .way x) := by
    intro x hpos
    rw [hways, h.ways, chosen_way]
    constructor
    · rintro (⟨hm, -⟩ | hreq)
      · exact .inr hm
      · exact .inl hreq
    · rintro (hreq | hm)
      · exact .inr hreq
      · exact .inl ⟨hm, hpos⟩
  refine ⟨hpulled.valid, fun kind x hpos => ?_⟩
  cases kind with
  | relation =>
    change ids.relationIds.get x = true ∨ pulled.relationIds.get x = true ↔ _
    rw [hpulled.relations, hrelations, h.relations]
    constructor
    · rintro (hreq | ⟨-, -, hin⟩)
      · exact .requested hreq
      · exact hin
    · intro hin
      cases hreq : ids.relationIds.get x with
      | true => exact .inl rfl
      | false => exact .inr ⟨hpos, rfl, hin⟩
  | way =>
    change ids.wayIds.get x = true ∨ pulled.wayIds.get x = true ↔ _
    rw [hpulled.ways, hway x hpos]
    constructor
    · rintro (hreq | hin)
      · exact .requested hreq
      · exact hin
    · exact .inr
  | node =>
    change ids.nodeIds.get x = true ∨ pulled.nodeIds.get x = true ↔ _
    rw [hpulled.nodes, hnodes, h.nodes, chosen_node]
    refine or_congr_right (or_congr (and_iff_left hpos) ((and_iff_left hpos).trans ?_))
    refine exists_congr fun w => and_congr_right fun hw => and_congr_left fun _ => ?_
    exact hway w.id (hnonneg w hw)

/-- Without a requested relation there is nothing to close. -/
theorem closed_nothing (h : ids.relationIds.hasAny = false) (elements : List (Element ρ)) :
    Closed ids elements {} := by
  have hnone : ∀ x, ¬ Chosen ids elements .relation x := by
    intro x hx
    generalize hkind : ElementKind.relation = kind at hx
    induction hx with
    | requested hreq =>
      subst hkind
      have hany : ids.relationIds.hasAny = true := hasAny_of_get hreq
      rw [hany] at h
      cases h
    | member r hr hin m hm hkey ih => exact ih rfl
    | ref w hw hin hx => cases hkind
  have hempty : ∀ x : Int64, ({} : IdSet).get x = true ↔ False := by
    intro x
    rw [get_new]
    exact iff_of_false Bool.false_ne_true id
  refine ⟨valid_empty, fun x => (hempty x).trans ?_, fun x => (hempty x).trans ?_,
    fun x => (hempty x).trans ?_⟩
  · exact (iff_of_false (fun hx => hnone x hx.2.2) id).symm
  · exact (iff_of_false (fun hx => hx.1.elim fun r hr => hnone _ hr.2.1) id).symm
  · exact (iff_of_false (fun hx => hx.1.elim fun r hr => hnone _ hr.2.1) id).symm

lemma closeRequested_spec (h : KindsTrue input) (hnonneg : ∀ e ∈ elementsOf input, 0 ≤ e.id.toInt)
    (hcovers : Covers .relation input schedule) (orders : Orders ρ) (fuel : Nat) :
    (∀ p, closeRequested orders fuel schedule ids = .ok p → Closed ids (elementsOf input) p) ∧
      (memberCount input < fuel → ∃ p, closeRequested orders fuel schedule ids = .ok p) := by
  unfold closeRequested
  split
  · exact closeRelations_spec h hnonneg hcovers orders fuel
  · next hnone =>
    refine ⟨fun p hp => ?_, fun _ => ⟨_, rfl⟩⟩
    cases hp
    exact closed_nothing (Bool.eq_false_iff.mpr hnone) _

lemma collectRequested_spec (h : KindsTrue input)
    (hnonneg : ∀ e ∈ elementsOf input, 0 ≤ e.id.toInt) (hids : ids.Valid)
    (hcovers : Covers .way input schedule) (orders : Orders ρ) {p : ElementIds}
    (hclosed : Closed ids (elementsOf input) p) :
    ∃ pulled, collectRequested orders schedule ids p = .ok pulled ∧
      Followed ids (elementsOf input) pulled := by
  have hmerged := valid_mergeFrom (hclosed.valid .way) (hids .way)
  have hget := get_mergeFrom (hclosed.valid .way) (hids .way)
  have hvalid : ElementIds.Valid { p with wayIds := p.wayIds.mergeFrom ids.wayIds } := by
    intro kind
    cases kind with
    | node => exact hclosed.valid .node
    | way => exact hmerged
    | relation => exact hclosed.valid .relation
  unfold collectRequested
  dsimp only
  split
  · obtain ⟨pulled, hok, hnodes⟩ := collectWayNodes_spec h hcovers hvalid orders
    exact ⟨pulled, hok, Closed.followed { p with wayIds := p.wayIds.mergeFrom ids.wayIds } hclosed
      hnonneg hget rfl rfl hnodes⟩
  · next hnone =>
    -- No way is listed, so none has refs to add.
    refine ⟨_, rfl, Closed.followed { p with wayIds := p.wayIds.mergeFrom ids.wayIds } hclosed
      hnonneg hget rfl rfl ⟨hvalid, fun x => ?_, rfl, rfl⟩⟩
    refine (or_iff_left ?_).symm
    rintro ⟨⟨w, -, hin, -⟩, -⟩
    exact hnone (hasAny_of_get hin)

lemma followReferences_spec (h : KindsTrue input)
    (hnonneg : ∀ e ∈ elementsOf input, 0 ≤ e.id.toInt) (hids : ids.Valid) (orders : Orders ρ)
    (fuel : Nat) : (∀ pulled, followReferences orders fuel ids input = .ok pulled →
      Followed ids (elementsOf input) pulled) ∧
    (memberCount input < fuel → refusePartialIndex input = .ok () →
      ∃ pulled, followReferences orders fuel ids input = .ok pulled) := by
  unfold followReferences
  split
  · constructor
    · intro pulled hrun
      obtain ⟨ways, hways, hrun⟩ := bind_eq_ok.mp hrun
      obtain ⟨relations, hrelations, hrun⟩ := bind_eq_ok.mp hrun
      obtain ⟨p, hp, hrun⟩ := bind_eq_ok.mp hrun
      have hclosed := (closeRequested_spec h hnonneg (kindSchedule_covers h hrelations) orders
        fuel).1 p hp
      obtain ⟨pulled', hok, hfollowed⟩ :=
        collectRequested_spec h hnonneg hids (kindSchedule_covers h hways) orders hclosed
      rw [hok] at hrun
      cases hrun
      exact hfollowed
    · intro hfuel hwalk
      have hschedule : ∀ kind, ∃ s, kindSchedule kind false input = .ok s := by
        intro kind
        exact ⟨_, by rw [kindSchedule, hwalk]; rfl⟩
      obtain ⟨ways, hways⟩ := hschedule .way
      obtain ⟨relations, hrelations⟩ := hschedule .relation
      have hclose := @closeRequested_spec ρ ids input relations h hnonneg
        (kindSchedule_covers h hrelations) orders fuel
      obtain ⟨p, hp⟩ := hclose.2 hfuel
      obtain ⟨pulled, hok, -⟩ := collectRequested_spec h hnonneg hids
        (kindSchedule_covers h hways) orders (hclose.1 p hp)
      refine ⟨pulled, ?_⟩
      rw [hways, ok_bind, hrelations, ok_bind, hp, ok_bind, hok]
  · next hnone =>
    rw [Bool.or_eq_true, not_or, Bool.not_eq_true, Bool.not_eq_true] at hnone
    refine ⟨fun pulled hrun => ?_, fun _ _ => ⟨_, rfl⟩⟩
    cases hrun
    have hways : ∀ x, ¬ ids.wayIds.get x = true := by
      intro x hx
      rw [hasAny_of_get hx] at hnone
      cases hnone.1
    refine Closed.followed {} (closed_nothing hnone.2 _) hnonneg (fun x => ?_) rfl rfl
      ⟨valid_empty, fun x => ?_, rfl, rfl⟩
    · exact (or_iff_left (hways x)).symm
    · refine (or_iff_left ?_).symm
      rintro ⟨⟨w, -, hin, -⟩, -⟩
      rw [get_new] at hin
      cases hin

section

variable {read : Element ρ → Except PbfError ρ} {m : Mode ρ}

lemma writeBlob_ok (hincluded : m.included = true) {b : Blob ρ}
    (hkind : ∀ idx, b.index = some idx → ∀ e ∈ b.elements, e.kind = idx.kind) (out r : Output ρ) :
    writeBlob m out b = .ok r ↔ m.Reads b.elements ∧ r = m.decoded out b := by
  unfold writeBlob Mode.decoded
  rw [includedBlock_true hkind, ok_bind, ← emits_included hincluded, hincluded]
  cases hany : b.elements.any m.emits with
  | true =>
    simp only [if_true, Bool.not_true, Bool.and_false, Bool.false_eq_true, if_false]
    rw [bind_eq_ok]
    constructor
    · rintro ⟨x, hx, hr⟩
      obtain ⟨hall, rfl⟩ := mapError_processBlock.mp hx
      cases hr
      exact ⟨hall, rfl⟩
    · rintro ⟨hall, rfl⟩
      exact ⟨_, mapError_processBlock.mpr ⟨hall, rfl⟩, rfl⟩
  | false =>
    simp only [Bool.false_eq_true, if_false, Bool.not_false, Bool.and_self, if_true]
    constructor
    · intro h
      cases h
      exact ⟨reads_of_none hany, rfl⟩
    · rintro ⟨-, rfl⟩
      rfl

lemma foldl_decoded (l : List (Blob ρ)) {out : Output ρ} (hout : Kept m out) :
    Kept m (l.foldl m.decoded out) ∧ (l.foldl m.decoded out).content =
      out.content ++ ((elementsOf l).filter m.emits).map m.kept := by
  induction l generalizing out with
  | nil => exact ⟨hout, by simp [elementsOf]⟩
  | cons b l ih =>
    obtain ⟨hkept, hcontent⟩ := ih (hout.decoded (b := b))
    refine ⟨hkept, ?_⟩
    rw [foldl_cons, hcontent, decoded_content, append_assoc, ← map_append, ← filter_append]
    rfl

/-- The sets that the second pass selects from. -/
def pulledRef (pulled : ElementIds) : Option ElementIds :=
  if pulled.isEmpty then none else some pulled

lemma selected_pulledRef (kind : ElementKind) (x : Int64) :
    selected ids (pulledRef pulled) kind x = true ↔
      (ids.of kind).get x = true ∨ (pulled.of kind).get x = true := by
  unfold selected pulledRef
  rw [Bool.or_eq_true]
  split
  · next hempty =>
    -- An empty set selects nothing.
    refine or_congr_right (iff_of_false Bool.false_ne_true fun hget => ?_)
    simp only [ElementIds.isEmpty, Bool.and_eq_true, Bool.not_eq_true'] at hempty
    have hwants := wants_of_get hget
    cases kind with
    | node => exact absurd hwants (by simp [ElementIds.blobFilter, Filter.wants, hempty.1.1])
    | way => exact absurd hwants (by simp [ElementIds.blobFilter, Filter.wants, hempty.1.2])
    | relation => exact absurd hwants (by simp [ElementIds.blobFilter, Filter.wants, hempty.2])
  · rfl

lemma unionFilter_wants {kind : ElementKind} {x : Int64}
    (h : (ids.of kind).get x = true ∨ (pulled.of kind).get x = true) :
    (unionFilter ids pulled).wants kind = true := by
  have hany : (ids.of kind).hasAny = true ∨ (pulled.of kind).hasAny = true :=
    h.imp hasAny_of_get hasAny_of_get
  cases kind with
  | node | way | relation => exact Bool.or_eq_true_iff.mpr hany

lemma filter_elementsOf {p : Element ρ → Bool} {keep : Blob ρ → Bool}
    (h : ∀ b ∈ input, keep b = false → ∀ e ∈ b.elements, p e = false) :
    (elementsOf (input.filter keep)).filter p = (elementsOf input).filter p := by
  induction input with
  | nil => rfl
  | cons b input ih =>
    have ih := ih fun b' hb' => h b' (mem_cons_of_mem b hb')
    have hsplit : ∀ l : List (Blob ρ), (elementsOf (b :: l)).filter p =
        b.elements.filter p ++ (elementsOf l).filter p := fun l => filter_append ..
    cases hkeep : keep b with
    | true => rw [filter_cons_of_pos hkeep, hsplit, hsplit, ih]
    | false =>
      have hnone : b.elements.filter p = [] := filter_eq_nil_iff.mpr fun e he => by
        rw [h b mem_cons_self hkeep e he]
        exact Bool.false_ne_true
      rw [filter_cons_of_neg (by simp [hkeep]), ih, hsplit, hnone, nil_append]

/-- The mode of the second pass. -/
def selectMode (ids pulled : ElementIds) (removeTags reportFound : Bool)
    (read : Element ρ → Except PbfError ρ) : Mode ρ :=
  ⟨ids, true, pulledRef pulled, removeTags, reportFound, read⟩

lemma emits_selectMode (e : Element ρ) :
    (selectMode ids pulled removeTags reportFound read).emits e = true ↔
      (ids.of e.kind).get e.id = true ∨ (pulled.of e.kind).get e.id = true :=
  selected_pulledRef e.kind e.id

lemma writeSelected_ok (h : KindsTrue input) {g : Output ρ} :
    writeSelected read ids pulled removeTags reportFound input = .ok g ↔
      refusePartialIndex input = .ok () ∧ (∀ b ∈ input.filter fun b =>
            !blobFilterCheck b.index b.tagdata (some (unionFilter ids pulled)),
          (selectMode ids pulled removeTags reportFound read).Reads b.elements) ∧
        g = (input.filter fun b =>
          !blobFilterCheck b.index b.tagdata (some (unionFilter ids pulled))).foldl
            (selectMode ids pulled removeTags reportFound read).decoded (.start reportFound) := by
  unfold writeSelected
  rw [bind_eq_ok]
  constructor
  · rintro ⟨u, hwalk, hrun⟩
    refine ⟨hwalk, ?_⟩
    exact (foldlM_eq_ok (fun b hb out r => writeBlob_ok rfl
      (h b (mem_of_mem_filter hb)) out r) _ _).mp hrun
  · rintro ⟨hwalk, hrun⟩
    refine ⟨(), hwalk, ?_⟩
    exact (foldlM_eq_ok (fun b hb out r => writeBlob_ok rfl
      (h b (mem_of_mem_filter hb)) out r) _ _).mpr hrun

/-- A blob that the second pass passes over holds nothing that is selected. -/
theorem skipped_unselected (h : KindsTrue input) {b : Blob ρ} (hb : b ∈ input)
    (hskip : (!blobFilterCheck b.index b.tagdata (some (unionFilter ids pulled))) = false)
    {e : Element ρ} (he : e ∈ b.elements) :
    (selectMode ids pulled removeTags reportFound read).emits e = false := by
  rw [Bool.eq_false_iff]
  intro hemits
  have hwants := unionFilter_wants (emits_selectMode e |>.mp hemits)
  rw [Bool.not_eq_false'] at hskip
  rcases Bool.or_eq_true_iff.mp hskip with hindex | htags
  · obtain ⟨idx, hidx, hunwanted⟩ := any_some hindex
    rw [h b hb idx hidx e he] at hwants
    rw [hwants] at hunwanted
    cases hunwanted
  · cases htags

end

open Classical in
/-- What a run writes and reports. -/
structure Wrote (read : Element ρ → Except PbfError ρ) (ids : ElementIds)
    (removeTags reportFound : Bool) (elements : List (Element ρ)) (g : Output ρ) : Prop where
  content : g.content = (elements.filter fun e => Chosen ids elements e.kind e.id).map fun e =>
    if removeTags = true ∧ requested ids e = false then { encoded read e with tags := [] }
    else encoded read e
  kinds : ∀ kind, g.stats.ofKind kind = g.content.countP fun e => e.kind = kind
  reports : g.stats.found.isSome = reportFound
  found : ∀ found, g.stats.found = some found → ∀ kind id, (found.of kind).get id = true ↔
    (ids.of kind).get id = true ∧ ∃ e ∈ elements, elementKey e = (kind, id)

lemma kept_select {read : Element ρ → Except PbfError ρ} (e : Element ρ) :
    (selectMode ids pulled removeTags reportFound read).kept e =
      if removeTags = true ∧ requested ids e = false then { encoded read e with tags := [] }
      else encoded read e := by
  have hkept : (selectMode ids pulled removeTags reportFound read).kept e =
      (encoded read e).stripped removeTags (requested ids (encoded read e)) := rfl
  rw [hkept, requested_encoded, Element.stripped]
  cases removeTags <;> cases requested ids e <;> simp

open Classical in
lemma Followed.wrote {read : Element ρ → Except PbfError ρ}
    (hfollowed : Followed ids (elementsOf input) pulled) (h : KindsTrue input)
    (hnonneg : ∀ e ∈ elementsOf input, 0 ≤ e.id.toInt) {g : Output ρ}
    (hg : writeSelected read ids pulled removeTags reportFound input = .ok g) :
    Wrote read ids removeTags reportFound (elementsOf input) g := by
  obtain ⟨-, -, rfl⟩ := (writeSelected_ok h).mp hg
  have hstart : Kept (selectMode ids pulled removeTags reportFound read)
      (Output.start reportFound : Output ρ) :=
    start_kept (selectMode ids pulled removeTags reportFound read) fun hfalse => nomatch hfalse
  obtain ⟨hkept, hcontent⟩ := foldl_decoded (input.filter fun b =>
    !blobFilterCheck b.index b.tagdata (some (unionFilter ids pulled))) hstart
  rw [filter_elementsOf fun b hb hskip e he => skipped_unselected h hb hskip he] at hcontent
  have hchosen : (elementsOf input).filter (selectMode ids pulled removeTags reportFound read).emits =
      (elementsOf input).filter fun e => Chosen ids (elementsOf input) e.kind e.id := by
    refine filter_congr fun e he => ?_
    rw [Bool.eq_iff_iff, emits_selectMode, decide_eq_true_eq]
    exact hfollowed.chosen e.kind e.id (hnonneg e he)
  have hperm := content_perm ((input.filter fun b =>
    !blobFilterCheck b.index b.tagdata (some (unionFilter ids pulled))).foldl
      (selectMode ids pulled removeTags reportFound read).decoded (Output.start reportFound : Output ρ))
  rw [hkept.decodes rfl, append_nil] at hperm
  refine ⟨?_, fun kind => ?_, ?_, fun found hfound kind id => ?_⟩
  · rw [hcontent, hchosen]
    exact map_congr_left fun e _ => kept_select e
  · rw [hkept.kinds, hperm.countP_eq]
  · rw [hkept.reports]
    exact Bool.and_true _
  · have hmem : ∀ e, e ∈ Output.encoded _ ↔ e ∈ Output.content _ := fun e => hperm.mem_iff
    rw [(hkept.found found hfound).2]
    constructor
    · rintro ⟨e, he, hreq, hkey⟩
      rw [hmem, hcontent] at he
      obtain ⟨o, ho, rfl⟩ := mem_map.mp (mem_append.mp he |>.resolve_left nofun)
      obtain ⟨hk, hi⟩ := kept_key (m := selectMode ids pulled removeTags reportFound read) o
      rw [requested, hk, hi] at hreq
      rw [elementKey, hk, hi] at hkey
      cases hkey
      exact ⟨hreq, o, mem_of_mem_filter ho, rfl⟩
    · rintro ⟨hget, e, he, hkey⟩
      cases hkey
      obtain ⟨hk, hi⟩ := kept_key (m := selectMode ids pulled removeTags reportFound read) e
      refine ⟨(selectMode ids pulled removeTags reportFound read).kept e, ?_, ?_, ?_⟩
      · rw [hmem, hcontent]
        refine mem_append_right _ (mem_map.mpr ⟨e, mem_filter.mpr ⟨he, ?_⟩, rfl⟩)
        exact (emits_selectMode e).mpr (.inl hget)
      · rw [requested, hk, hi]
        exact hget
      · rw [elementKey, hk, hi]

section

open TagsFilter (ClosureState closureLoop closureRound closureRound_spec RoundSpec Reached
  relationMember relationMember_eq)

variable {orders : Orders ρ}

/-- What a round starts from: the requested relations and some that they reach. -/
structure Between (ids : ElementIds) (elements : List (Element ρ)) (st : ClosureState) :
    Prop where
  requested : ∀ x, ids.relationIds.get x = true → x ∈ st.includedRelation.ids
  reached : ∀ x ∈ st.includedRelation.ids, 0 ≤ x.toInt ∧ Chosen ids elements .relation x

lemma Between.round {st st' : ClosureState} {added : Nat}
    (h : Between ids (elementsOf input) st) (hround : RoundSpec st st' added groups)
    (hgroups : ∀ g ∈ groups, ∀ e ∈ g, e ∈ elementsOf input) :
    Between ids (elementsOf input) st' := by
  refine ⟨fun x hx => (hround.relations x).mpr (.inl (h.requested x hx)), fun x hx => ?_⟩
  rcases (hround.relations x).mp hx with hold | ⟨⟨r, ⟨g, hg, hr⟩, -, hin, hm⟩, hpos⟩
  · exact h.reached x hold
  · exact ⟨hpos, .member r (hgroups g hg r hr) (h.reached _ hin).2 _ hm rfl⟩

/-- A round that adds nothing started from everything that is reached. -/
theorem Between.last {st st' : ClosureState} (h : Between ids (elementsOf input) st)
    (hround : RoundSpec st st' 0 groups) (hgroups : ∀ g ∈ groups, ∀ e ∈ g, e ∈ elementsOf input)
    (hall : ∀ e ∈ elementsOf input, e.kind = .relation → ∃ g ∈ groups, e ∈ g)
    (hnonneg : ∀ e ∈ elementsOf input, 0 ≤ e.id.toInt) (x : Int64) : x ∈ st'.includedRelation.ids ↔
      0 ≤ x.toInt ∧ Chosen ids (elementsOf input) .relation x := by
  refine ⟨(h.round hround hgroups).reached x, ?_⟩
  rintro ⟨hpos, hchosen⟩
  generalize hkind : ElementKind.relation = kind at hchosen
  induction hchosen with
  | requested hreq =>
    subst hkind
    exact (h.round hround hgroups).requested _ hreq
  | @member kind id r hr hin m hm hkey ih =>
    subst hkind
    have hm' : .relation id ∈ r.members := by
      cases m with
      | relation id' =>
        cases hkey
        exact hm
      | node | way | unknown => cases hkey
    have hrelation := kind_of_member hm'
    have hr' := hround.same (ih (hnonneg r hr) rfl)
    exact (hround.relations id).mpr (.inr ⟨⟨r, hall r hr hrelation, hrelation, hr', hm'⟩, hpos⟩)
  | ref w hw hin hx => cases hkind

/-- The relations that a round can add. -/
def memberRelations (input : List (Blob ρ)) : List Int64 :=
  ((elementsOf input).flatMap Element.members).filterMap relationMember

lemma length_memberRelations (input : List (Blob ρ)) :
    (memberRelations input).length ≤ memberCount input := by
  refine Nat.le_trans (length_filterMap_le _ _) ?_
  unfold elementsOf memberCount
  induction input with
  | nil => exact Nat.le_refl _
  | cons b input ih =>
    rw [flatMap_cons, flatMap_append, length_append, map_cons, sum_cons]
    omega

/-- The rounds end with the relations that are chosen, and enough of them end. -/
theorem closureLoop_from (h : KindsTrue input) (hnonneg : ∀ e ∈ elementsOf input, 0 ≤ e.id.toInt)
    (hcovers : Covers .relation input schedule) (orders : Orders ρ) :
    ∀ (fuel round : Nat) (st : ClosureState), Between ids (elementsOf input) st →
      (∀ st', closureLoop false orders schedule fuel round st = .ok st' → ∀ x,
        x ∈ st'.includedRelation.ids ↔ 0 ≤ x.toInt ∧ Chosen ids (elementsOf input) .relation x) ∧
      ∀ base : List Int64, (∀ x ∈ st.includedRelation.ids, x ∈ base ++ memberRelations input) →
        (base ++ memberRelations input).length < fuel + st.includedRelation.len →
          ∃ st', closureLoop false orders schedule fuel round st = .ok st' := by
  intro fuel
  induction fuel with
  | zero =>
    intro round st hst
    refine ⟨fun st' hst' => (nomatch hst'), fun base hbase hfuel => ?_⟩
    have hle := (subperm_of_subset st.includedRelation.nodup hbase).length_le
    have hlen : st.includedRelation.len = st.includedRelation.ids.length := rfl
    omega
  | succ fuel ih =>
    intro round st hst
    obtain ⟨groups, hmap, hgroups, hall⟩ := TagsFilter.round_groups orders round
      (fun b hb => decodeBlock_true (h b (hcovers.sub b hb))) hcovers.sub hcovers.all
    have hround := closureRound_spec st groups
    rw [closureLoop, hmap]
    simp only [ok_bind]
    by_cases hadded : (closureRound st groups).2 = 0
    · rw [if_pos hadded]
      rw [hadded] at hround
      refine ⟨fun st' hst' => ?_, fun _ _ _ => ⟨_, rfl⟩⟩
      cases hst'
      exact hst.last hround hgroups hall hnonneg
    · rw [if_neg hadded]
      obtain ⟨hspec, hends⟩ := ih (round + 1) _ (hst.round hround hgroups)
      refine ⟨hspec, fun base hbase hfuel => hends base (fun x hx => ?_) ?_⟩
      · rcases (hround.relations x).mp hx with hold | ⟨⟨r, ⟨g, hg, hr⟩, -, -, hm⟩, -⟩
        · exact hbase x hold
        · refine mem_append_right _ (mem_filterMap.mpr ⟨.relation x, ?_, rfl⟩)
          exact mem_flatMap.mpr ⟨r, hgroups g hg r hr, hm⟩
      · have := hround.added
        omega

/-- What holds of every run, in whatever order its blobs complete. The rounds are those of
tags-filter, from the requested relations. -/
structure Closes (read : Element ρ → Except PbfError ρ) (orders : Orders ρ) (fuel : Nat)
    (ids : ElementIds) (removeTags reportFound : Bool) (input : List (Blob ρ)) : Prop where
  wrote : ∀ g, getidWithRefs read orders fuel ids removeTags reportFound input = .ok g →
    Wrote read ids removeTags reportFound (elementsOf input) g
  rounds : ∀ pulled, followReferences orders fuel ids input = .ok pulled →
    ∀ schedule orders' fuel' round st st', kindSchedule .relation false input = .ok schedule →
      (∀ x, x ∈ st.includedRelation.ids ↔ ids.relationIds.get x = true) →
      closureLoop false orders' schedule fuel' round st = .ok st' →
        ∀ x, x ∈ st'.includedRelation.ids ↔
          ids.relationIds.get x = true ∨ pulled.relationIds.get x = true
  roundsEnd : ∀ schedule orders' fuel' round st, kindSchedule .relation false input = .ok schedule →
    (∀ x, x ∈ st.includedRelation.ids ↔ ids.relationIds.get x = true) → memberCount input < fuel' →
      ∃ st', closureLoop false orders' schedule fuel' round st = .ok st'
  runs : refusePartialIndex input = .ok () → memberCount input < fuel →
    (∀ e ∈ elementsOf input, ∃ rest, read e = .ok rest) →
      ∃ g, getidWithRefs read orders fuel ids removeTags reportFound input = .ok g

theorem getid_with_refs_closes (read : Element ρ → Except PbfError ρ) (orders : Orders ρ)
    (fuel : Nat) (ids : ElementIds) (removeTags reportFound : Bool) (input : List (Blob ρ))
    (hids : ids.Valid) (hnonneg : ∀ e ∈ elementsOf input, 0 ≤ e.id.toInt)
    (h : KindsTrue input) : Closes read orders fuel ids removeTags reportFound input := by
  have hfollow := followReferences_spec h hnonneg hids orders fuel
  have hbetween : ∀ st : ClosureState,
      (∀ x, x ∈ st.includedRelation.ids ↔ ids.relationIds.get x = true) →
        Between ids (elementsOf input) st := fun st hst =>
    ⟨fun x hx => (hst x).mpr hx,
      fun x hx => ⟨nonneg_of_get ((hst x).mp hx), .requested ((hst x).mp hx)⟩⟩
  refine ⟨fun g hg => ?_, fun pulled hpulled schedule orders' fuel' round st st' hschedule hst
    hloop x => ?_, fun schedule orders' fuel' round st hschedule hst hfuel => ?_,
    fun hwalk hfuel hread => ?_⟩
  · obtain ⟨pulled, hpulled, hwrite⟩ := bind_eq_ok.mp hg
    exact (hfollow.1 pulled hpulled).wrote h hnonneg hwrite
  · have hcovers := kindSchedule_covers h hschedule
    have hend := (closureLoop_from h hnonneg hcovers orders' fuel' round st (hbetween st hst)).1
      st' hloop x
    have hchosen := (hfollow.1 pulled hpulled).chosen .relation x
    rw [hend]
    constructor
    · rintro ⟨hpos, hin⟩
      exact (hchosen hpos).mpr hin
    · intro hget
      have hpos : 0 ≤ x.toInt := by
        rcases hget with hget | hget
        · exact nonneg_of_get hget
        · exact nonneg_of_get hget
      exact ⟨hpos, (hchosen hpos).mp hget⟩
  · have hcovers := kindSchedule_covers h hschedule
    have hlen := length_memberRelations input
    refine (closureLoop_from h hnonneg hcovers orders' fuel' round st (hbetween st hst)).2
      st.includedRelation.ids (fun x hx => mem_append_left _ hx) ?_
    rw [length_append]
    have hids : st.includedRelation.len = st.includedRelation.ids.length := rfl
    omega
  · obtain ⟨pulled, hpulled⟩ := hfollow.2 hfuel hwalk
    obtain ⟨g, hg⟩ : ∃ g, writeSelected read ids pulled removeTags reportFound input = .ok g :=
      ⟨_, (writeSelected_ok h).mpr ⟨hwalk, fun b hb e he _ =>
        hread e (mem_elementsOf.mpr ⟨b, mem_of_mem_filter hb, he⟩), rfl⟩⟩
    exact ⟨g, bind_eq_ok.mpr ⟨pulled, hpulled, hg⟩⟩

end

/-- Blobs complete in file order. -/
def fileOrder : Orders ρ where
  shuffle _ l := l
  shuffle_perm := TagsFilter.inPlace_perm
  partition _ l := [l]
  partition_perm _ l := by simp

/-- Two relations that hold each other, one a way with a node. -/
def ringInput : List (Blob Unit) :=
  [⟨some ⟨.node, 1, 2, 2, none⟩, none, [⟨1, [], .node, ()⟩, ⟨2, [([97], [])], .node, ()⟩]⟩,
    ⟨some ⟨.way, 5, 6, 2, none⟩, none, [⟨5, [], .way [2, 2], ()⟩, ⟨6, [], .way [1], ()⟩]⟩,
    ⟨some ⟨.relation, 7, 8, 2, none⟩, none,
      [⟨7, [], .relation [.relation 8], ()⟩, ⟨8, [], .relation [.relation 7, .way 5], ()⟩]⟩]

/-- One of them is requested; the node is reached through the other and loses its tags. -/
theorem getid_with_refs_closes_ring :
    ∃ g, getidWithRefs (fun _ => .ok ()) fileOrder 4 (ElementIds.insert {} .relation 7) true true
        ringInput = .ok g ∧ ⟨2, [], .node, ()⟩ ∈ g.content := by
  have hkinds : KindsTrue ringInput := by
    intro b hb idx hidx
    simp only [ringInput, mem_cons, not_mem_nil, or_false] at hb
    rcases hb with rfl | rfl | rfl
    all_goals
      cases hidx
      decide
  have hcloses := getid_with_refs_closes (fun _ => .ok ()) fileOrder 4
    (ElementIds.insert {} .relation 7) true true ringInput (valid_empty.insert .relation 7)
    (by decide) hkinds
  obtain ⟨g, hg⟩ := hcloses.runs rfl (by decide) fun _ _ => ⟨(), rfl⟩
  have hother : Chosen (ElementIds.insert {} .relation 7) (elementsOf ringInput) .relation 8 :=
    .member ⟨7, [], .relation [.relation 8], ()⟩ (by decide) (.requested (by decide)) (.relation 8)
      (by decide) rfl
  have hway := Chosen.member ⟨8, [], .relation [.relation 7, .way 5], ()⟩ (by decide) hother (.way 5)
    (by decide) rfl
  refine ⟨g, hg, ?_⟩
  rw [(hcloses.wrote g hg).content, mem_map]
  refine ⟨⟨2, [([97], [])], .node, ()⟩, mem_filter.mpr ⟨by decide, ?_⟩, rfl⟩
  simp only [decide_eq_true_eq]
  exact .ref ⟨5, [], .way [2, 2], ()⟩ (by decide) hway (by decide)

/-- A way in a blob that claims to hold nodes. -/
def lyingInput : List (Blob Unit) :=
  [⟨some ⟨.node, 1, 1, 1, none⟩, none, [⟨1, [], .way [], ()⟩]⟩]

/-- The way is passed over by the kind its blob claims, and nothing is written. -/
theorem lyingInput_hides_way :
    ∃ g, getidWithRefs (fun _ => .ok ()) fileOrder 1 (ElementIds.insert {} .way 1) false false
        lyingInput = .ok g ∧
      ¬ Wrote (fun _ => .ok ()) (ElementIds.insert {} .way 1) false false (elementsOf lyingInput)
        g := by
  refine ⟨Output.start false, by rfl, fun h => ?_⟩
  have hchosen : Chosen (ElementIds.insert {} .way 1) (elementsOf lyingInput) .way 1 :=
    .requested (by decide)
  have hempty : (Output.start false : Output Unit).content = [] := rfl
  have hcontent := h.content
  rw [hempty, eq_comm, map_eq_nil_iff, filter_eq_nil_iff] at hcontent
  refine hcontent ⟨1, [], .way [], ()⟩ (mem_singleton_self _) ?_
  simp only [decide_eq_true_eq]
  exact hchosen

end Getid
