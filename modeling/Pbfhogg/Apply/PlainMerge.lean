import Pbfhogg.Osc.Lookup

/-!
# What applying a diff to a file means

The purpose of `apply-changes`. Per kind, every base element the diff does not delete stays, as the
diff's record for its id if there is one, and one copy of every upserted id the base does not hold
is merged in by id order. The contents of a base element are of any type; a record of the diff is
its bytes in the arena.
-/

namespace PlainMerge

open OsmId OscSorted OscLookup OrderedMerge List

variable {C : Type}

structure BaseElement (C : Type) where
  kind : ElementKind
  id : Int64
  content : C

/-- An element of the output: one of the base, or a record of the diff. -/
inductive Written (C : Type) where
  | base (e : BaseElement C)
  | osc (kind : ElementKind) (id : Int64) (record : Bytes)

def Written.key : Written C → OsmIdKey
  | .base e => osmIdKey e.id
  | .osc _ id _ => osmIdKey id

/-- Not after, in id order. -/
def notAfter (a b : Written C) : Bool := decide (a.key ≤ b.key)

/-- What becomes of a base element. -/
def survivor (t : KindTable) (e : BaseElement C) : Option (Written C) :=
  if e.id ∈ t.deleted then none
  else match (entries t).lookup e.id with
    | some record => some (.osc e.kind e.id record)
    | none => some (.base e)

def oscOf (k : ElementKind) (x : Int64 × Bytes) : Written C := .osc k x.1 x.2

/-- The upserts of ids that are not held. -/
def creates (t : KindTable) (k : ElementKind) (held : List Int64) : List (Written C) :=
  ((entries t).filter fun x => decide (x.1 ∉ held)).map (oscOf k)

variable (diff : SortedDiff)

def mergedKind (k : ElementKind) (base : List (BaseElement C)) :
    List (Written C) :=
  (base.filterMap (survivor (diff.kind k))).merge
    (creates (diff.kind k) k (base.map BaseElement.id)) notAfter

def ofKind (k : ElementKind) (base : List (BaseElement C)) : List (BaseElement C) :=
  base.filter fun e => e.kind = k

def plainMerge (base : List (BaseElement C)) : List (Written C) :=
  [ElementKind.node, .way, .relation].flatMap fun k => mergedKind diff k (ofKind k base)

@[simp] lemma oscOf_key (k : ElementKind) (x : Int64 × Bytes) :
    (oscOf k x : Written C).key = osmIdKey x.1 := rfl

lemma notAfter_iff {a b : Written C} : notAfter a b = true ↔ a.key ≤ b.key :=
  decide_eq_true_iff

lemma notAfter_eq_false {a b : Written C} : notAfter a b = false ↔ b.key < a.key :=
  decide_eq_false_iff_not.trans not_le

variable {t : KindTable}

lemma survivor_key {e : BaseElement C} {w : Written C} (h : survivor t e = some w) :
    w.key = osmIdKey e.id := by
  unfold survivor at h
  split_ifs at h
  cases hlook : (entries t).lookup e.id with
  | none | some =>
    simp only [hlook, Option.some.injEq] at h
    rw [← h]
    rfl

lemma mem_survivors {es : List (BaseElement C)} {w : Written C}
    (h : w ∈ es.filterMap (survivor t)) : ∃ e ∈ es, w.key = osmIdKey e.id := by
  obtain ⟨e, he, hw⟩ := mem_filterMap.mp h
  exact ⟨e, he, survivor_key hw⟩

lemma survivor_untouched {e : BaseElement C} (hdel : e.id ∉ t.deleted) (hup : e.id ∉ t.ids) :
    survivor t e = some (.base e) := by
  have hlook : (entries t).lookup e.id = none := by
    rw [lookup_eq_none_iff]
    intro x hx
    have hne : x.1 ≠ e.id := fun heq => hup (heq ▸ mem_ids_of_mem_entries hx)
    exact bne_iff_ne.mpr hne.symm
  simp [survivor, hdel, hlook]

lemma filterMap_survivor_untouched {es : List (BaseElement C)}
    (h : ∀ e ∈ es, e.id ∉ t.deleted ∧ e.id ∉ t.ids) : es.filterMap (survivor t) = es.map .base := by
  rw [← filterMap_eq_map]
  apply filterMap_congr
  intro e he
  exact survivor_untouched (h e he).1 (h e he).2

/-- The merge of some base elements with the creates of a range of keys. -/
def mergedPart (t : KindTable) (k : ElementKind) (held : List Int64) (range : OsmIdKey → Bool)
    (es : List (BaseElement C)) : List (Written C) :=
  (es.filterMap (survivor t)).merge
    (((entries t).filter fun x => decide (x.1 ∉ held) && range (osmIdKey x.1)).map (oscOf k))
    notAfter

lemma mergedPart_congr {k : ElementKind} {held held' : List Int64}
    {range range' : OsmIdKey → Bool} (es : List (BaseElement C))
    (h : ∀ x ∈ entries t, (x.1 ∉ held ∧ range (osmIdKey x.1) = true ↔
      x.1 ∉ held' ∧ range' (osmIdKey x.1) = true)) :
    mergedPart t k held range es = mergedPart t k held' range' es := by
  have hfilter : ((entries t).filter fun x => decide (x.1 ∉ held) && range (osmIdKey x.1)) =
      (entries t).filter fun x => decide (x.1 ∉ held') && range' (osmIdKey x.1) := by
    apply filter_congr
    intro x hx
    rw [Bool.eq_iff_iff]
    simpa using h x hx
  rw [mergedPart, mergedPart, hfilter]

lemma mergedKind_eq_part (k : ElementKind) (base : List (BaseElement C)) : mergedKind diff k base =
      mergedPart (diff.kind k) k (base.map BaseElement.id) (fun _ => true) base := by
  simp [mergedKind, mergedPart, creates]

/-- A cut through the keys that no element of the second part is below: the elements
before the cut merge with the creates before it, the rest with the rest. -/
theorem mergedPart_append {t : KindTable} (h : TableSorted t) {k : ElementKind}
    {held : List Int64} {range cut : OsmIdKey → Bool} {es es' : List (BaseElement C)}
    (hcut : ∀ a b, a ≤ b → cut b → cut a) (hes : ∀ e ∈ es, cut (osmIdKey e.id))
    (hes' : ∀ e ∈ es', ∀ x, cut x → x ≤ osmIdKey e.id) (hheld : ∀ e ∈ es', e.id ∈ held) :
    mergedPart t k held range (es ++ es') = mergedPart t k held (fun x => range x && cut x) es ++
        mergedPart t k held (fun x => range x && !cut x) es' := by
  have hclosed : (entries t).Pairwise fun a b => cut (osmIdKey b.1) → cut (osmIdKey a.1) :=
    (entries_sorted h).imp fun hab => hcut _ _ hab.le
  have hsplit := filter_split (fun x => decide (x.1 ∉ held) && range (osmIdKey x.1)) hclosed
  simp only [mergedPart, filterMap_append]
  rw [hsplit, map_append]
  simp only [Bool.and_assoc]
  apply merge_append
  · intro x hx y hy
    obtain ⟨e, he, hkey⟩ := mem_survivors hx
    obtain ⟨z, hz, rfl⟩ := mem_map.mp hy
    have hzcut : ¬ cut (osmIdKey z.1) := by
      simpa using (Bool.and_eq_true_iff.mp (Bool.and_eq_true_iff.mp (mem_filter.mp hz).2).2).2
    rw [notAfter_iff, oscOf_key, hkey]
    by_contra hlt
    exact hzcut (hcut _ _ (not_le.mp hlt).le (hes e he))
  · intro y hy x hx
    obtain ⟨e, he, hkey⟩ := mem_survivors hx
    obtain ⟨z, hz, rfl⟩ := mem_map.mp hy
    have hzp := Bool.and_eq_true_iff.mp (mem_filter.mp hz).2
    have hzcut := (Bool.and_eq_true_iff.mp hzp.2).2
    have hne : z.1 ≠ e.id := by
      have hout : z.1 ∉ held := by simpa using hzp.1
      exact fun heq => hout (heq ▸ hheld e he)
    rw [notAfter_eq_false, oscOf_key, hkey]
    exact lt_of_le_of_ne (hes' e he _ hzcut) (mt osmIdKey_inj.mp hne)

/-- With no element there are only creates. -/
lemma mergedPart_nil (t : KindTable) (k : ElementKind) (held : List Int64)
    (range : OsmIdKey → Bool) : mergedPart t k held range ([] : List (BaseElement C)) =
      ((entries t).filter fun x => decide (x.1 ∉ held) && range (osmIdKey x.1)).map (oscOf k) := by
  simp [mergedPart]

end PlainMerge
