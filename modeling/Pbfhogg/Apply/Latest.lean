import Pbfhogg.Apply.Merge

/-!
# What the change files leave of an object

The parse freezes into the tables that the run merges with the base, so the output holds each object
as the last change to it left it, and an object without a change as the base has it. Kinds before
that of the first blob, whose creates are lost, are left out.
-/

namespace ApplyLatest

open OsmId OscCompact OscOverlay OscSorted OscLookup PlainMerge ApplyRewrite ApplyMerge List

variable {C : Type} {diff : SortedDiff} {k : ElementKind} {base : List (BaseElement C)}
  {w : Written C} {o o' : CompactDiffOverlay} {accepted changes : List Change}

def object : Written C → ElementKind × Int64
  | .base e => (e.kind, e.id)
  | .osc kind id _ => (kind, id)

/-- The merge of a kind holds the base elements the table does not name and the whole table. -/
lemma mem_mergedKind (hdiff : DiffSorted diff) (hkind : ∀ e ∈ base, e.kind = k) :
    w ∈ mergedKind diff k base ↔
      (∃ e ∈ base, e.id ∉ (diff.kind k).deleted ∧ e.id ∉ (diff.kind k).ids ∧ w = .base e) ∨
        ∃ x ∈ entries (diff.kind k), w = oscOf k x := by
  rw [mergedKind, mem_merge]
  constructor
  · rintro (hw | hw)
    · obtain ⟨e, he, hw⟩ := mem_filterMap.mp hw
      by_cases hid : e.id ∈ (diff.kind k).ids
      · obtain ⟨record, hget, hlook⟩ := entries_place (hdiff k) hid
        rw [survivor, if_neg ((hdiff k).disjoint e.id hid), hlook, hkind e he] at hw
        exact .inr ⟨_, mem_of_getElem? hget, (Option.some.inj hw).symm⟩
      · by_cases hdel : e.id ∈ (diff.kind k).deleted
        · rw [survivor, if_pos hdel] at hw
          cases hw
        · rw [survivor_untouched hdel hid] at hw
          exact .inl ⟨e, he, hdel, hid, (Option.some.inj hw).symm⟩
    · obtain ⟨x, hx, rfl⟩ := mem_map.mp hw
      exact .inr ⟨x, mem_of_mem_filter hx, rfl⟩
  · rintro (⟨e, he, hdel, hid, rfl⟩ | ⟨x, hx, rfl⟩)
    · exact .inl (mem_filterMap.mpr ⟨e, he, survivor_untouched hdel hid⟩)
    · by_cases hheld : x.1 ∈ base.map BaseElement.id
      · obtain ⟨e, he, hid⟩ := mem_map.mp hheld
        refine .inl (mem_filterMap.mpr ⟨e, he, ?_⟩)
        rw [survivor, hid, if_neg ((hdiff k).disjoint _ (mem_ids_of_mem_entries hx)),
          lookup_of_entry (hdiff k) hx, hkind e he]
        rfl
      · exact .inr (mem_map_of_mem (mem_filter.mpr ⟨hx, decide_eq_true hheld⟩))

/-- The written elements of one object. -/
theorem mem_written (hdiff : DiffSorted diff) {lo : Nat} {id : Int64} (hlo : lo ≤ k.ordinal)
    (hw : object w = (k, id)) : w ∈ mergedKinds diff base (kindsFrom lo 3) ↔
      (id ∉ (diff.kind k).deleted ∧ id ∉ (diff.kind k).ids ∧ ∃ e ∈ base, w = .base e) ∨
        ∃ record, (id, record) ∈ entries (diff.kind k) ∧ w = .osc k id record := by
  have hmerged := fun j => @mem_mergedKind C diff j (ofKind j base) w hdiff
    fun e he => (mem_ofKind.mp he).2
  rw [mergedKinds, mem_flatMap]
  constructor
  · rintro ⟨j, -, hin⟩
    rcases (hmerged j).mp hin with ⟨e, he, hdel, hid, rfl⟩ | ⟨x, hx, rfl⟩
    · obtain ⟨hmem, rfl⟩ := mem_ofKind.mp he
      cases hw
      exact .inl ⟨hdel, hid, e, hmem, rfl⟩
    · cases hw
      exact .inr ⟨x.2, hx, rfl⟩
  · have hk := mem_kindsFrom.mpr ⟨hlo, k.ordinal_lt⟩
    rintro (⟨hdel, hid, e, he, rfl⟩ | ⟨record, hx, rfl⟩)
    · cases hw
      exact ⟨e.kind, hk, (hmerged _).mpr (.inl ⟨e, mem_ofKind.mpr ⟨he, rfl⟩, hdel, hid, rfl⟩)⟩
    · exact ⟨k, hk, (hmerged k).mpr (.inr ⟨_, hx, rfl⟩)⟩

lemma reflects_parsed (h : Reflects o accepted) (hparse : parseAll o changes = .ok o') :
    Reflects o' (accepted ++ changes) := by
  induction changes generalizing o accepted with
  | nil =>
    cases hparse
    simpa using h
  | cons c rest ih =>
    rw [parseAll] at hparse
    rcases feed_cases h c with ⟨_, _, -, -, -, hfeed⟩ | ⟨-, ⟨_, _, hfeed, -⟩ | ⟨next, hfeed, hnext⟩⟩
    · rw [hfeed] at hparse
      cases hparse
    · rw [hfeed] at hparse
      cases hparse
    · rw [hfeed] at hparse
      simpa using ih hnext hparse

lemma sorted_of_reflects (h : Reflects o accepted) : DiffSorted (intoSorted o) := by
  intro k
  have htable := intoSorted_reflects h k
  refine ⟨htable.ids_sorted, htable.deleted_sorted, fun id hid hdel => ?_⟩
  obtain ⟨c, hc, hne⟩ := (htable.mem_ids id).mp hid
  obtain ⟨d, hd, heq⟩ := (htable.mem_deleted id).mp hdel
  rw [hc, Option.some.injEq] at hd
  exact hne (hd ▸ heq)

lemma entry_last {t : KindTable} (h : TableReflects t k accepted) {id : Int64} {record : Bytes}
    (hx : (id, record) ∈ entries t) : ∃ c, lastChange accepted (k, id) = some c ∧
      c.action ≠ .delete ∧ view k record = ⟨c.id, c.body, c.tags, c.arenaMeta⟩ := by
  obtain ⟨c, hlast, hne⟩ := (h.mem_ids id).mp (mem_ids_of_mem_entries hx)
  obtain ⟨i, hget⟩ := getElem?_of_mem hx
  rw [getElem?_entries] at hget
  obtain ⟨_, hid, heq⟩ := Option.map_eq_some_iff.mp hget
  cases heq
  exact ⟨c, hlast, hne, h.record i id c hid hlast⟩

/-- The output with regard to an object whose last change is the given one. -/
def Left (base : List (BaseElement C)) (out : List (Written C)) (x : ElementKind × Int64) :
    Option Change → Prop
  | none => ∀ w, object w = x → (w ∈ out ↔ ∃ e ∈ base, w = .base e)
  | some c =>
    if c.action = .delete then ∀ w ∈ out, object w ≠ x
    else (∃ w ∈ out, object w = x) ∧ ∀ w ∈ out, object w = x → ∃ record,
      w = .osc x.1 x.2 record ∧ view x.1 record = ⟨c.id, c.body, c.tags, c.arenaMeta⟩

end ApplyLatest
