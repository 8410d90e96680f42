import Pbfhogg.Apply.Drain

/-!
# Applying a diff computes the plain merge

The whole run on a base in canonical order with exact claims. After each blob the output is the
merge of what came before it with the creates up to its last key, and the cursor of its kind stands
at the first create past it. No transition and no trailing run reaches the creates of kinds before
that of the first blob, so they are not written.
-/

namespace ApplyMerge

open OsmId OscSorted OscLookup BlobMeta PlainMerge ApplyRewrite ApplyDrain OrderedMerge Fallible
  List Function Option

variable {C : Type}

/-- The run: one item a blob, received in the given order of sequence numbers. -/
def merge (diff : SortedDiff) (route : Route) (file : List (Blob C)) (order : List Nat) :
    Except PbfError (List (Written C)) := do
  let items ← file.mapM (blobItem diff route)
  runDrain diff route file (order.filterMap fun seq => items[seq]?.map fun item => (seq, item))

def fileElements (file : List (Blob C)) : List (BaseElement C) := file.flatMap Blob.elements

/-- By kind, then by id; equal ids may follow one another. -/
def CanonicalLe (a b : BaseElement C) : Prop :=
  a.kind.ordinal < b.kind.ordinal ∨ a.kind = b.kind ∧ OsmLe a.id b.id

instance (a b : BaseElement C) : Decidable (CanonicalLe a b) :=
  inferInstanceAs (Decidable (_ ∨ _ ∧ _))

structure ValidBase (file : List (Blob C)) : Prop where
  laid : Laid file
  claims : ∀ b ∈ file, ClaimsExactly b.index b.ids
  kinds : ∀ b ∈ file, ∀ e ∈ b.elements, e.kind = b.index.kind
  canonical : (fileElements file).Pairwise CanonicalLe

variable {diff : SortedDiff} {route : Route} {file : List (Blob C)}

/-- The keys up to the bound, none without one. -/
def covered (m : Option OsmIdKey) (x : OsmIdKey) : Bool :=
  match m with
  | none => false
  | some c => decide (x ≤ c)

@[simp] lemma covered_none (x : OsmIdKey) : covered none x = false := rfl

@[simp] lemma covered_some (c x : OsmIdKey) : covered (some c) x = decide (x ≤ c) := rfl

lemma covered_closed (m : Option OsmIdKey) (a b : OsmIdKey) (hab : a ≤ b)
    (hb : covered m b) : covered m a := by
  cases m with
  | none => cases hb
  | some c =>
    rw [covered_some, decide_eq_true_iff] at hb ⊢
    exact hab.trans hb

/-- A blob that follows the bound, among the ids its kind holds: the others are
under the bound or not before its last. -/
structure Fits (held : List Int64) (m : Option OsmIdKey) (b : Blob C) : Prop where
  after : ∀ c, m = some c → ∀ id ∈ b.ids, c ≤ osmIdKey id
  within : ∀ id ∈ b.ids, id ∈ held
  only : ∀ id ∈ held, covered m (osmIdKey id) = true ∨ id ∈ b.ids ∨ b.index.lastKey ≤ osmIdKey id

/-- What a blob adds to the output: its survivors and the creates past the bound,
up to its last key. -/
def blobPart (diff : SortedDiff) (held : List Int64) (m : Option OsmIdKey) (b : Blob C) :
    List (Written C) :=
  mergedPart (diff.kind b.index.kind) b.index.kind held
    (fun x => !covered m x && decide (x ≤ b.index.lastKey)) b.elements

variable {held : List Int64} {m : Option OsmIdKey} {b : Blob C} {k : ElementKind}
  {s : DrainState C} {item : DrainItem C} {pre post : List (Blob C)} {es : List (BaseElement C)}

lemma Fits.not_held (h : Fits held m b) (hb : ClaimsExactly b.index b.ids) {g : OsmIdKey}
    (hg : ∀ id ∈ b.ids, g ≤ osmIdKey id) {id : Int64} (hpast : covered m (osmIdKey id) = false)
    (hlt : osmIdKey id < g) : id ∉ held := by
  intro hid
  rcases h.only id hid with hcov | hin | hge
  · rw [hpast] at hcov
    cases hcov
  · exact absurd (hg id hin) (not_le.mpr hlt)
  · obtain ⟨z, hz, hkey⟩ := hb.lastKey_mem
    rw [← hkey] at hge
    exact absurd ((hg z hz).trans hge) (not_le.mpr hlt)

/-- The part of a blob, cut at a bound its elements do not pass: gap creates first. -/
lemma blobPart_gap (hdiff : DiffSorted diff) (h : Fits held m b)
    (hb : ClaimsExactly b.index b.ids) {g : OsmIdKey} (hg : ∀ id ∈ b.ids, g ≤ osmIdKey id) :
    blobPart diff held m b = ((entries (diff.kind b.index.kind)).filter fun x =>
        decide (osmIdKey x.1 < g) && !covered m (osmIdKey x.1)).map (oscOf b.index.kind) ++
      mergedPart (diff.kind b.index.kind) b.index.kind held
        (fun x => (!covered m x && decide (x ≤ b.index.lastKey)) && !decide (x < g)) b.elements := by
  obtain ⟨z, hz, hkey⟩ := hb.lastKey_mem
  have hglast : g ≤ b.index.lastKey := hkey ▸ hg z hz
  have hcut := @mergedPart_append C (diff.kind b.index.kind) (hdiff _) b.index.kind held
    (fun x => !covered m x && decide (x ≤ b.index.lastKey)) (fun x => decide (x < g)) [] b.elements
    (fun a c hac hc => by
      rw [decide_eq_true_iff] at hc ⊢
      exact hac.trans_lt hc)
    (by simp)
    (fun e he x hx => by
      rw [decide_eq_true_iff] at hx
      exact hx.le.trans (hg e.id (mem_map_of_mem he)))
    (fun e he => h.within e.id (mem_map_of_mem he))
  rw [nil_append, mergedPart_nil] at hcut
  rw [blobPart, hcut]
  congr 2
  apply filter_congr
  intro x _
  rw [Bool.eq_iff_iff]
  simp only [Bool.and_eq_true, decide_eq_true_iff, Bool.not_eq_true']
  constructor
  · rintro ⟨_, ⟨hpast, _⟩, hlt⟩
    exact ⟨hlt, hpast⟩
  · rintro ⟨hlt, hpast⟩
    exact ⟨h.not_held hb hg hpast hlt, ⟨hpast, hlt.le.trans hglast⟩, hlt⟩

/-- A blob nothing touches adds its gap creates and itself. -/
lemma blobPart_untouched (hdiff : DiffSorted diff) (h : Fits held m b)
    (hb : ClaimsExactly b.index b.ids) {g : OsmIdKey} (hg : ∀ id ∈ b.ids, g ≤ osmIdKey id)
    (hclean : ∀ e ∈ b.elements,
      e.id ∉ (diff.kind b.index.kind).deleted ∧ e.id ∉ (diff.kind b.index.kind).ids)
    (hclear : ∀ id ∈ (diff.kind b.index.kind).ids, g ≤ osmIdKey id →
      b.index.lastKey < osmIdKey id) : blobPart diff held m b =
      ((entries (diff.kind b.index.kind)).filter fun x =>
        decide (osmIdKey x.1 < g) && !covered m (osmIdKey x.1)).map (oscOf b.index.kind) ++
      blobElements b := by
  rw [blobPart_gap hdiff h hb hg]
  congr 1
  have hnone : ((entries (diff.kind b.index.kind)).filter fun x => decide (x.1 ∉ held) &&
      ((!covered m (osmIdKey x.1) && decide (osmIdKey x.1 ≤ b.index.lastKey)) &&
        !decide (osmIdKey x.1 < g))) = [] := by
    apply filter_eq_nil_iff.mpr
    intro x hx hp
    simp only [Bool.and_eq_true, decide_eq_true_iff, Bool.not_eq_true', decide_eq_false_iff_not,
      not_lt] at hp
    exact absurd hp.2.1.2 (not_le.mpr (hclear x.1 (mem_ids_of_mem_entries hx) hp.2.2))
  rw [mergedPart, hnone, filterMap_survivor_untouched hclean, map_nil, merge_right]
  rfl

/-- A rewritten blob adds its gap creates and the rewrite. -/
lemma blobPart_rewritten (hdiff : DiffSorted diff) (h : Fits held m b)
    (hb : ClaimsExactly b.index b.ids) {first : Int64} (hfirst : first ∈ b.ids)
    (hg : ∀ id ∈ b.ids, osmIdKey first ≤ osmIdKey id) : blobPart diff held m b =
      ((entries (diff.kind b.index.kind)).filter fun x =>
        decide (osmIdKey x.1 < osmIdKey first) && !covered m (osmIdKey x.1)).map
          (oscOf b.index.kind) ++ mergedPart (diff.kind b.index.kind) b.index.kind b.ids
        (fun x => decide (osmIdKey first ≤ x) && decide (x ≤ b.index.lastKey)) b.elements := by
  rw [blobPart_gap hdiff h hb hg]
  congr 1
  apply mergedPart_congr
  intro x _
  simp only [Bool.and_eq_true, decide_eq_true_iff, Bool.not_eq_true', decide_eq_false_iff_not,
    not_lt]
  -- An id from the first element to the last that the base holds is one of the blob's.
  have hfirst_of_covered : covered m (osmIdKey x.1) = true → osmIdKey first ≤ osmIdKey x.1 →
      x.1 ∈ b.ids := by
    intro hcov hge
    cases m with
    | none => cases hcov
    | some c =>
      rw [covered_some, decide_eq_true_iff] at hcov
      have heq := le_antisymm hge (hcov.trans (h.after c rfl first hfirst))
      exact osmIdKey_inj.mp heq ▸ hfirst
  constructor
  · rintro ⟨hout, ⟨_, hle⟩, hge⟩
    exact ⟨fun hin => hout (h.within _ hin), hge, hle⟩
  · rintro ⟨hout, hge, hle⟩
    refine ⟨?_, ⟨?_, hle⟩, hge⟩
    · intro hheld
      rcases h.only _ hheld with hcov | hin | hlast
      · exact hout (hfirst_of_covered hcov hge)
      · exact hout hin
      · obtain ⟨z, hz, hkey⟩ := hb.lastKey_mem
        have heq : osmIdKey z = osmIdKey x.1 := hkey.trans (le_antisymm hlast hle)
        exact hout (osmIdKey_inj.mp heq ▸ hz)
    · by_contra hcov
      exact hout (hfirst_of_covered (by simpa using hcov) hge)

/-- The guard stands at the bound of the kind, or before the kind. -/
def WatermarkAt (w : OrderWatermark) (k : ElementKind) (m : Option OsmIdKey) : Prop :=
  match m with
  | some c => w.last = some (k.ordinal, c)
  | none => ∀ p, w.last = some p → p.1 < k.ordinal

lemma WatermarkAt.later {w : OrderWatermark} {k' : ElementKind} (h : WatermarkAt w k m)
    (hlt : k.ordinal < k'.ordinal) : WatermarkAt w k' none := by
  intro p hp
  cases m with
  | some c =>
    rw [WatermarkAt, hp] at h
    rw [some.inj h]
    exact hlt
  | none => exact (h p hp).trans hlt

lemma observeKeys_eq {w : OrderWatermark} (h : WatermarkAt w k m) {first last : OsmIdKey}
    (hfirst : ∀ c, m = some c → c ≤ first) (hlast : first ≤ last) :
    w.observeKeys k.ordinal first last = .ok ⟨some (k.ordinal, last)⟩ := by
  cases m with
  | some c =>
    rw [WatermarkAt] at h
    have hc := hfirst c rfl
    simp [OrderWatermark.observeKeys, h, not_lt.mpr hc, max_eq_left hlast,
      max_eq_left (hc.trans hlast)]
  | none =>
    cases hw : w.last with
    | none => simp [OrderWatermark.observeKeys, hw, max_eq_left hlast]
    | some p =>
      have hlt := h p hw
      have hnot : ¬ k.ordinal < p.1 := by omega
      have hne : k.ordinal ≠ p.1 := by omega
      simp [OrderWatermark.observeKeys, hw, hnot, hne, max_eq_left hlast]

lemma checkOutputOrder_eq (h : WatermarkAt s.orderWatermark k m) {first last : OsmIdKey}
    (hfirst : ∀ c, m = some c → c ≤ first) (hlast : first ≤ last) :
    checkOutputOrder k first last s =
      .ok { s with orderWatermark := ⟨some (k.ordinal, last)⟩ } := by
  rw [checkOutputOrder, observeKeys_eq h hfirst hlast]

/-- The cursor of a kind stands at the first upsert past the bound. -/
def CursorAt (diff : SortedDiff) (k : ElementKind) (m : Option OsmIdKey) (cursor : Nat) : Prop :=
  (entries (diff.kind k)).drop cursor =
    (entries (diff.kind k)).filter fun x => !covered m (osmIdKey x.1)

lemma cursorAt_zero (k : ElementKind) : CursorAt diff k none 0 := by
  simp [CursorAt]

/-- Past the upserts below `g`. -/
lemma CursorAt.gap (hdiff : DiffSorted diff) {cursor : Nat} (h : CursorAt diff k m cursor)
    (g : OsmIdKey) :
    (((entries (diff.kind k)).drop cursor).takeWhile fun x => decide (osmIdKey x.1 < g)) =
        ((entries (diff.kind k)).filter fun x =>
          decide (osmIdKey x.1 < g) && !covered m (osmIdKey x.1)) ∧
      (((entries (diff.kind k)).drop cursor).dropWhile fun x => decide (osmIdKey x.1 < g)) =
        ((entries (diff.kind k)).filter fun x =>
          !decide (osmIdKey x.1 < g) && !covered m (osmIdKey x.1)) := by
  have hsorted := (entries_sorted (hdiff k)).sublist (List.filter_sublist
    (p := fun x : Int64 × Bytes => !covered m (osmIdKey x.1)))
  have hcut := pairwise_lt_cut hsorted g
  rw [show (entries (diff.kind k)).drop cursor = _ from h, takeWhile_eq_filter hcut,
    dropWhile_eq_filter hcut, List.filter_filter, List.filter_filter]
  exact ⟨rfl, rfl⟩

/-- What holds between two blobs of a run, for the kind at hand. -/
structure KindAt (diff : SortedDiff) (route : Route) (k : ElementKind)
    (m : Option OsmIdKey) (s : DrainState C) : Prop where
  buffered : Buffered route s
  lastType : s.lastType = some k
  watermark : WatermarkAt s.orderWatermark k m
  cursor : CursorAt diff k m (s.cursors k)
  later : ∀ k', k.ordinal < k'.ordinal → s.cursors k' = 0

lemma firstId_le (hb : ExactBlob b) {first : Int64} (h : b.ids.head? = some first) :
    first ∈ b.ids ∧ ∀ id ∈ b.ids, osmIdKey first ≤ osmIdKey id := by
  obtain ⟨e, es, hel, hfirst⟩ := hb.exists_first
  rw [hfirst] at h
  have he : e.id = first := some.inj h
  have hids : b.ids = e.id :: es.map BaseElement.id := by
    rw [Blob.ids, hel, map_cons]
  rw [← he, hids]
  refine ⟨mem_cons_self, ?_⟩
  intro id hid
  rcases mem_cons.mp hid with rfl | hid
  · exact le_refl _
  · obtain ⟨x, hx, rfl⟩ := mem_map.mp hid
    have horder := hb.inOrder
    rw [hel] at horder
    exact horder.head_le x hx

/-- The bounds an item's placement gives, from its claim or its first element. -/
lemma placement_bounds (hb : ExactBlob b) (h : Carries diff route b item) :
    (placement item).kind = b.index.kind ∧
      (placement item).idRange = (b.index.minId, b.index.maxId) ∧
      (∀ id ∈ b.ids, osmIdKey (placement item).gapBound ≤ osmIdKey id) ∧
      ∃ id ∈ b.ids, osmIdKey id = (placement item).orderFirstKey := by
  cases h with
  | untouched first observed clean clear =>
    have hplace : placement (passThroughIndexed route b first) =
        ⟨b.index.kind, (b.index.minId, b.index.maxId), first⟩ := by
      cases route <;> rfl
    rw [hplace]
    refine ⟨rfl, rfl, ?_⟩
    cases first with
    | some id =>
      obtain ⟨hmem, hle⟩ := firstId_le hb (observed id rfl)
      exact ⟨hle, id, hmem, rfl⟩
    | none =>
      constructor
      · intro id hid
        have hle := hb.claims.firstKey_le hid
        rw [BlobIndex.firstKey, blobOsmFirstKey_eq] at hle
        exact hle
      · exact hb.claims.presentFirstKey_mem
  | rewritten first observed =>
    obtain ⟨hmem, hle⟩ := firstId_le hb observed
    exact ⟨rfl, rfl, hle, first, hmem, rfl⟩

/-- Order guard and gap creates of a blob that follows the bound. -/
lemma placeItem_spec (hdiff : DiffSorted diff) {b : Blob C} (hb : ExactBlob b)
    {item : DrainItem C} (hitem : Carries diff route b item) {held : List Int64}
    {m : Option OsmIdKey} (hfit : Fits held m b) {s : DrainState C}
    (h : KindAt diff route b.index.kind m s) :
    ∃ t, placeItem diff route file (placement item) s = .ok t ∧
      Buffered route t ∧ t.lastType = some b.index.kind ∧
      t.orderWatermark = ⟨some (b.index.kind.ordinal, b.index.lastKey)⟩ ∧
      settled file t = settled file s ++ ((entries (diff.kind b.index.kind)).filter fun x =>
        decide (osmIdKey x.1 < osmIdKey (placement item).gapBound) &&
          !covered m (osmIdKey x.1)).map (oscOf b.index.kind) ∧
      (∀ k, k ≠ b.index.kind → t.cursors k = s.cursors k) ∧
      (entries (diff.kind b.index.kind)).drop (t.cursors b.index.kind) =
        (entries (diff.kind b.index.kind)).filter fun x =>
          !decide (osmIdKey x.1 < osmIdKey (placement item).gapBound) &&
            !covered m (osmIdKey x.1) := by
  obtain ⟨hkind, hrange, hgap, id, hid, hfirst⟩ := placement_bounds hb hitem
  have hspan : b.index.minId ≤ b.index.maxId := by
    have h1 := hb.claims.lower _ hb.claims.max_mem
    exact h1
  have hguard : checkOutputOrder (placement item).kind (placement item).orderFirstKey
      (blobOsmLastKey (placement item).idRange.1 (placement item).idRange.2) s =
      .ok { s with orderWatermark := ⟨some (b.index.kind.ordinal, b.index.lastKey)⟩ } := by
    rw [hkind, hrange, ← hfirst]
    apply checkOutputOrder_eq h.watermark
    · intro c hc
      exact hfit.after c hc id hid
    · exact hb.claims.le_lastKey hid
  obtain ⟨t, ht, hwrites, hcursors⟩ := @handleGapCreates_writes C diff route file
    { s with orderWatermark := ⟨some (b.index.kind.ordinal, b.index.lastKey)⟩ }
    ⟨h.buffered.route, h.buffered.single, h.buffered.range⟩ b.index.kind (placement item).gapBound
  obtain ⟨htake, hdrop⟩ := h.cursor.gap hdiff (osmIdKey (placement item).gapBound)
  refine ⟨t, ?_, hwrites.buffered, ?_, hwrites.watermark, ?_, ?_, ?_⟩
  · rw [placeItem, hrange, if_pos hspan, ← hrange, hguard, ok_bind, hkind]
    exact ht
  · rw [hwrites.lastType]
    exact h.lastType
  · rw [hwrites.settled, ← htake]
    rfl
  · intro k hk
    rw [hcursors]
    exact update_of_ne hk _ _
  · rw [hcursors, update_self, ← hdrop]
    exact drop_cursor _ _ fun id => decide (OsmLt id (placement item).gapBound)

/-- One blob after the bound: its part is written, and the bound moves to its last key. -/
lemma item_spec (hdiff : DiffSorted diff) (hfile : Laid (pre ++ b :: post)) (hb : ExactBlob b)
    (hitem : Carries diff route b item) (hfit : Fits held m b)
    (h : KindAt diff route b.index.kind m s) :
    ∃ t, (do
        let s ← placeItem diff route (pre ++ b :: post) (placement item) s
        dispatchVariant diff route (pre ++ b :: post) item s) = .ok t ∧
      KindAt diff route b.index.kind (some b.index.lastKey) t ∧
      settled (pre ++ b :: post) t = settled (pre ++ b :: post) s ++ blobPart diff held m b := by
  obtain ⟨u, hu, hbuf, htype, hwater, hsettled, hothers, hdrop⟩ :=
    @placeItem_spec C diff route (pre ++ b :: post) hdiff b hb item hitem held m hfit s h
  obtain ⟨_, _, hgap, _⟩ := placement_bounds hb hitem
  obtain ⟨z, hz, hzlast⟩ := hb.claims.lastKey_mem
  have hglast : osmIdKey (placement item).gapBound ≤ b.index.lastKey := hzlast ▸ hgap z hz
  have hmlast : ∀ x, covered m x = true → x ≤ b.index.lastKey := by
    intro x hx
    cases m with
    | none => cases hx
    | some c =>
      rw [covered_some, decide_eq_true_iff] at hx
      exact hx.trans (hzlast ▸ hfit.after c rfl z hz)
  have hlater : ∀ k', b.index.kind.ordinal < k'.ordinal → u.cursors k' = 0 := by
    intro k' hk'
    rw [hothers k' (by rintro rfl; omega)]
    exact h.later k' hk'
  rw [hu, ok_bind]
  cases hitem with
  | untouched first observed clean clear =>
    have hbound : (placement (passThroughIndexed route b first)).gapBound =
        first.getD (blobOsmFirstId b.index.minId b.index.maxId) := by
      cases route <;> rfl
    rw [hbound] at hdrop hsettled hgap hglast
    obtain ⟨t, ht, hwrites, hcursors⟩ := @dispatch_passThrough C diff route u pre post b hfile hbuf first
    refine ⟨t, ht, ⟨hwrites.buffered, ?_, ?_, ?_, ?_⟩, ?_⟩
    · rw [hwrites.lastType, htype]
    · rw [WatermarkAt, hwrites.watermark, hwater]
    · rw [CursorAt, hcursors, hdrop]
      apply filter_congr
      intro x hx
      rw [Bool.eq_iff_iff]
      simp only [Bool.and_eq_true, Bool.not_eq_true', decide_eq_false_iff_not, not_lt,
        covered_some, not_le]
      constructor
      · rintro ⟨hge, _⟩
        exact clear x.1 (mem_ids_of_mem_entries hx) hge
      · intro hlt
        refine ⟨hglast.trans hlt.le, ?_⟩
        by_contra hcov
        exact absurd (hmlast _ (by simpa using hcov)) (not_le.mpr hlt)
    · intro k' hk'
      rw [hcursors]
      exact hlater k' hk'
    · rw [hwrites.settled, hsettled, append_assoc]
      rw [← blobPart_untouched hdiff hfit hb.claims hgap clean clear]
  | rewritten first observed =>
    obtain ⟨hmem, hle⟩ := firstId_le hb observed
    obtain ⟨t, ht, hwrites, hcursors⟩ := @dispatch_rewritten C diff route (pre ++ b :: post) u hbuf
      (mergedPart (diff.kind b.index.kind) b.index.kind b.ids
        (fun x => decide (osmIdKey first ≤ x) && decide (x ≤ b.index.lastKey)) b.elements)
      b.index.kind (b.index.minId, b.index.maxId) first
    refine ⟨t, ht, ⟨hwrites.buffered, ?_, ?_, ?_, ?_⟩, ?_⟩
    · rw [hwrites.lastType, htype]
    · rw [WatermarkAt, hwrites.watermark, hwater]
    · have hpast := drop_cursor (diff.kind b.index.kind) (u.cursors b.index.kind)
        fun id => decide (osmIdKey id ≤ b.index.lastKey)
      have hsorted := (entries_sorted (hdiff b.index.kind)).sublist (filter_sublist
        (p := fun x : Int64 × Bytes => !decide (osmIdKey x.1 <
          osmIdKey (placement (.rewritten (mergedPart (diff.kind b.index.kind) b.index.kind b.ids
            (fun x => decide (osmIdKey first ≤ x) && decide (x ≤ b.index.lastKey)) b.elements)
            b.index.kind (b.index.minId, b.index.maxId) first : DrainItem C)).gapBound) &&
          !covered m (osmIdKey x.1)))
      rw [hdrop, dropWhile_eq_filter (pairwise_le_cut hsorted _), List.filter_filter] at hpast
      rw [CursorAt, hcursors, Function.update_self]
      refine hpast.trans ?_
      apply filter_congr
      intro x _
      rw [Bool.eq_iff_iff]
      simp only [Bool.and_eq_true, Bool.not_eq_true', decide_eq_false_iff_not, not_lt,
        covered_some, not_le]
      constructor
      · exact fun hx => hx.1
      · intro hlt
        refine ⟨hlt, hglast.trans hlt.le, ?_⟩
        by_contra hcov
        exact absurd (hmlast _ (by simpa using hcov)) (not_le.mpr hlt)
    · intro k' hk'
      rw [hcursors, update_of_ne (by rintro rfl; omega)]
      exact hlater k' hk'
    · rw [hwrites.settled, hsettled, append_assoc]
      rw [blobPart_rewritten hdiff hfit hb.claims hmem hle]
      rfl

/-- The kinds from one ordinal up to another. -/
def kindsFrom (lo hi : Nat) : List ElementKind :=
  [ElementKind.node, .way, .relation].filter fun k =>
    decide (lo ≤ k.ordinal) && decide (k.ordinal < hi)

def mergedKinds (diff : SortedDiff) (base : List (BaseElement C)) (kinds : List ElementKind) :
    List (Written C) :=
  kinds.flatMap fun k => mergedKind diff k (ofKind k base)

lemma mergedKinds_append (diff : SortedDiff) (base : List (BaseElement C))
    (a b : List ElementKind) :
    mergedKinds diff base (a ++ b) = mergedKinds diff base a ++ mergedKinds diff base b :=
  flatMap_append

lemma mergedKinds_cons (diff : SortedDiff) (base : List (BaseElement C)) (k : ElementKind)
    (ks : List ElementKind) :
    mergedKinds diff base (k :: ks) = mergedKind diff k (ofKind k base) ++ mergedKinds diff base ks :=
  flatMap_cons

/-- The ordinal of the first blob's kind. -/
def firstOrdinal (file : List (Blob C)) : Nat :=
  match file with
  | [] => 0
  | b :: _ => b.index.kind.ordinal

lemma firstOrdinal_le_three (file : List (Blob C)) : firstOrdinal file ≤ 3 := by
  cases file with
  | nil => exact Nat.zero_le 3
  | cons b _ => exact b.index.kind.ordinal_lt.le

def heldIds (file : List (Blob C)) (k : ElementKind) : List Int64 :=
  (ofKind k (fileElements file)).map BaseElement.id

lemma fileElements_append (a b : List (Blob C)) :
    fileElements (a ++ b) = fileElements a ++ fileElements b := by
  simp [fileElements]

lemma mem_ofKind {base : List (BaseElement C)} {e : BaseElement C} :
    e ∈ ofKind k base ↔ e ∈ base ∧ e.kind = k := by
  simp [ofKind]

lemma mem_heldIds {id : Int64} :
    id ∈ heldIds file k ↔ ∃ e ∈ fileElements file, e.kind = k ∧ e.id = id := by
  simp [heldIds, mem_ofKind, and_assoc]

lemma ofKind_append (k : ElementKind) (a b : List (BaseElement C)) :
    ofKind k (a ++ b) = ofKind k a ++ ofKind k b := by
  simp [ofKind]

lemma ofKind_eq_self (h : ∀ e ∈ es, e.kind = k) : ofKind k es = es := by
  apply filter_eq_self.mpr
  intro e he
  simpa using h e he

lemma ofKind_eq_nil (h : ∀ e ∈ es, e.kind ≠ k) : ofKind k es = [] := by
  apply filter_eq_nil_iff.mpr
  intro e he
  simpa using h e he

/-- With every held id under the bound, the creates past it complete the kind. -/
lemma mergedKind_complete (hdiff : DiffSorted diff) (k : ElementKind) (m : Option OsmIdKey)
    {es : List (BaseElement C)} (hes : ∀ e ∈ es, covered m (osmIdKey e.id) = true) :
    mergedPart (diff.kind k) k (es.map BaseElement.id) (covered m) es ++
        ((entries (diff.kind k)).filter fun x => !covered m (osmIdKey x.1)).map (oscOf k) =
      mergedKind diff k es := by
  have hcut := @mergedPart_append C (diff.kind k) (hdiff k) k (es.map BaseElement.id)
    (fun _ => true) (covered m) es [] (covered_closed m) hes (by simp) (by simp)
  rw [append_nil, mergedPart_nil] at hcut
  rw [mergedKind_eq_part, hcut]
  simp only [Bool.true_and]
  congr 2
  apply filter_congr
  intro x _
  rw [Bool.eq_iff_iff]
  simp only [Bool.and_eq_true, decide_eq_true_iff, Bool.not_eq_true']
  constructor
  · intro hpast
    refine ⟨?_, hpast⟩
    intro hmem
    obtain ⟨e, he, heq⟩ := mem_map.mp hmem
    rw [← heq, hes e he] at hpast
    cases hpast
  · exact fun h => h.2

lemma mergedKind_empty (k : ElementKind) :
    mergedKind diff k ([] : List (BaseElement C)) = (entries (diff.kind k)).map (oscOf k) := by
  simp [mergedKind, creates]

/-- The kind so far, grown by a blob. -/
lemma mergedPart_blob (hdiff : DiffSorted diff) (hfit : Fits held m b)
    (hb : ClaimsExactly b.index b.ids) (hes : ∀ e ∈ es, covered m (osmIdKey e.id) = true) :
    mergedPart (diff.kind b.index.kind) b.index.kind held (covered (some b.index.lastKey))
        (es ++ b.elements) = mergedPart (diff.kind b.index.kind) b.index.kind held (covered m) es ++
        blobPart diff held m b := by
  have hmlast : ∀ x, covered m x = true → x ≤ b.index.lastKey := by
    intro x hx
    obtain ⟨z, hz, hzlast⟩ := hb.lastKey_mem
    cases m with
    | none => cases hx
    | some c =>
      rw [covered_some, decide_eq_true_iff] at hx
      exact hx.trans (hzlast ▸ hfit.after c rfl z hz)
  have hcut := @mergedPart_append C (diff.kind b.index.kind) (hdiff _) b.index.kind held
    (covered (some b.index.lastKey)) (covered m) es b.elements (covered_closed m) hes
    (fun e he x hx => by
      cases m with
      | none => cases hx
      | some c =>
        rw [covered_some, decide_eq_true_iff] at hx
        exact hx.trans (hfit.after c rfl e.id (mem_map_of_mem he)))
    (fun e he => hfit.within e.id (mem_map_of_mem he))
  rw [hcut, blobPart]
  congr 1
  · apply mergedPart_congr
    intro x _
    simp only [Bool.and_eq_true, covered_some, decide_eq_true_iff]
    constructor
    · exact fun h => ⟨h.1, h.2.2⟩
    · exact fun h => ⟨h.1, hmlast _ h.2, h.2⟩
  · apply mergedPart_congr
    intro x _
    simp only [Bool.and_eq_true, covered_some, decide_eq_true_iff]
    constructor
    · exact fun h => ⟨h.1, h.2.2, h.2.1⟩
    · exact fun h => ⟨h.1, h.2.2, h.2.1⟩

lemma ValidBase.exactBlob (h : ValidBase file) (hb : b ∈ file) : ExactBlob b := by
  refine ⟨h.claims b hb, h.kinds b hb, ?_⟩
  have hsub : b.elements.Sublist (fileElements file) := by
    obtain ⟨pre, post, rfl⟩ := append_of_mem hb
    rw [fileElements_append, fileElements, fileElements, flatMap_cons]
    exact (sublist_append_left _ _).trans (sublist_append_right _ _)
  have hsorted := h.canonical.sublist hsub
  rw [pairwise_iff_forall_sublist] at hsorted ⊢
  intro x y hxy
  have hmem := hxy.subset
  rcases hsorted hxy with hlt | ⟨_, hle⟩
  · have hx := h.kinds b hb x (hmem (by simp))
    have hy := h.kinds b hb y (hmem (by simp))
    rw [hx, hy] at hlt
    omega
  · exact hle

/-- Elements of two parts of the file, the first part first. -/
lemma canonical_cross {pre post : List (Blob C)} (h : ValidBase (pre ++ post))
    {x y : BaseElement C} (hx : x ∈ fileElements pre) (hy : y ∈ fileElements post) :
    CanonicalLe x y := by
  have hall := h.canonical
  rw [fileElements_append, pairwise_append] at hall
  exact hall.2.2 x hx y hy

lemma mem_fileElements (hb : b ∈ file) {e : BaseElement C} (he : e ∈ b.elements) :
    e ∈ fileElements file :=
  mem_flatMap.mpr ⟨b, hb, he⟩

lemma CanonicalLe.kind_le {x y : BaseElement C} (h : CanonicalLe x y) :
    x.kind.ordinal ≤ y.kind.ordinal := by
  rcases h with hlt | ⟨heq, _⟩
  · omega
  · rw [heq]

lemma CanonicalLe.key_le {x y : BaseElement C} (h : CanonicalLe x y) (hkind : x.kind = y.kind) :
    osmIdKey x.id ≤ osmIdKey y.id := by
  rcases h with hlt | ⟨_, hle⟩
  · rw [hkind] at hlt
    omega
  · exact hle

lemma lastKey_element (hb : ClaimsExactly b.index b.ids) :
    ∃ e ∈ b.elements, osmIdKey e.id = b.index.lastKey := by
  obtain ⟨id, hid, hkey⟩ := hb.lastKey_mem
  obtain ⟨e, he, rfl⟩ := mem_map.mp hid
  exact ⟨e, he, hkey⟩

/-- A blob among the ids of its kind, given that those before it are under the bound. -/
lemma fits_of_before (h : ValidBase (pre ++ b :: post))
    (hafter : ∀ c, m = some c → ∀ id ∈ b.ids, c ≤ osmIdKey id)
    (hbefore : ∀ e ∈ fileElements pre, e.kind = b.index.kind → covered m (osmIdKey e.id) = true) :
    Fits (heldIds (pre ++ b :: post) b.index.kind) m b := by
  have hbmem : b ∈ pre ++ b :: post := by simp
  constructor
  · exact hafter
  · intro id hid
    obtain ⟨e, he, rfl⟩ := mem_map.mp hid
    exact mem_heldIds.mpr ⟨e, mem_fileElements hbmem he, h.kinds b hbmem e he, rfl⟩
  · intro id hid
    obtain ⟨e, he, hkind, rfl⟩ := mem_heldIds.mp hid
    rw [fileElements_append] at he
    rcases mem_append.mp he with hpre | hrest
    · exact .inl (hbefore e hpre hkind)
    · rw [fileElements, flatMap_cons] at hrest
      rcases mem_append.mp hrest with hin | hpost
      · exact .inr (.inl (mem_map_of_mem hin))
      · right
        right
        obtain ⟨z, hz, hzlast⟩ := lastKey_element (h.claims b hbmem)
        have hsplit : pre ++ b :: post = (pre ++ [b]) ++ post := by simp
        have hcross := canonical_cross (hsplit ▸ h)
          (mem_fileElements (show b ∈ pre ++ [b] by simp) hz) hpost
        rw [← hzlast]
        apply hcross.key_le
        rw [h.kinds b hbmem z hz, hkind]

/-- The kind a transition passes over. -/
def skipped (prev next : ElementKind) : List ElementKind :=
  if prev = .node ∧ next = .relation then [.way] else []

variable {prev next : ElementKind}

lemma kindsFrom_next {lo : Nat} (hlo : lo ≤ prev.ordinal) (hlt : prev.ordinal < next.ordinal) :
    kindsFrom lo next.ordinal = kindsFrom lo prev.ordinal ++ prev :: skipped prev next := by
  have hcases : lo = 0 ∨ lo = 1 := by
    have := next.ordinal_lt
    omega
  rcases hcases with rfl | rfl <;> cases prev <;> cases next <;>
    simp only [ElementKind.ordinal] at hlo hlt <;> first | omega | rfl

lemma ordinal_of_skipped (h : k ∈ skipped prev next) :
    prev.ordinal < k.ordinal ∧ k.ordinal < next.ordinal := by
  unfold skipped at h
  split_ifs at h with hcase
  · obtain ⟨rfl, rfl⟩ := hcase
    rw [mem_singleton.mp h]
    decide
  · cases h

/-- A transition completes the previous kind and the kind it passes over. -/
lemma transition_spec (hlt : prev.ordinal < next.ordinal) {m : Option OsmIdKey} {s : DrainState C}
    (h : KindAt diff route prev m s) :
    ∃ t, transition diff route file next s = .ok t ∧
      KindAt diff route next none { t with lastType := some next } ∧
      settled file t = settled file s ++
        ((entries (diff.kind prev)).filter fun x => !covered m (osmIdKey x.1)).map (oscOf prev) ++
        (skipped prev next).flatMap fun k => (entries (diff.kind k)).map (oscOf k) := by
  have hne : prev ≠ next := by
    rintro rfl
    omega
  have hprev := @emitRest_flushed_writes C diff route file s prev
  rw [show (entries (diff.kind prev)).drop (s.cursors prev) = _ from h.cursor] at hprev
  have hrun : transition diff route file next s =
      .ok (flushRemainingUpserts diff prev next (flushed file s)) := by
    rw [transition, h.lastType]
    simp only [if_pos hne]
    rw [handleTypeTransition, flushCopyRange_eq h.buffered, ok_bind, flushPassthroughBuf_flushRun]
  refine ⟨_, hrun, ?_⟩
  unfold flushRemainingUpserts skipped
  by_cases hskip : prev = .node ∧ next = .relation
  · rw [if_pos hskip, if_pos hskip]
    obtain ⟨rfl, rfl⟩ := hskip
    have hway := @emitRest_writes C diff route file (emitRest diff .node (flushed file s)) rfl rfl .way
    have hzero : (emitRest diff .node (flushed file s)).cursors .way = 0 := h.later .way (by decide)
    rw [hzero, drop_zero] at hway
    constructor
    · refine ⟨⟨hway.buffered.route, hway.buffered.single, hway.buffered.range⟩, rfl, ?_, ?_, ?_⟩
      · exact h.watermark.later (by decide)
      · have hrel : s.cursors .relation = 0 := h.later .relation (by decide)
        have hsame : (emitRest diff .way (emitRest diff .node (flushed file s))).cursors .relation =
            s.cursors .relation := rfl
        simp only [hsame, hrel]
        exact cursorAt_zero _
      · intro k' hk'
        exact absurd hk' (by cases k' <;> decide)
    · rw [hway.settled, hprev.settled]
      simp
  · rw [if_neg hskip, if_neg hskip]
    constructor
    · refine ⟨⟨hprev.buffered.route, hprev.buffered.single, hprev.buffered.range⟩, rfl, ?_, ?_, ?_⟩
      · exact h.watermark.later hlt
      · have hsame : (emitRest diff prev (flushed file s)).cursors next = s.cursors next :=
          update_of_ne hne.symm _ _
        simp only [hsame, h.later next hlt]
        exact cursorAt_zero _
      · intro k' hk'
        have hsame : (emitRest diff prev (flushed file s)).cursors k' = s.cursors k' :=
          update_of_ne (by rintro rfl; omega) _ _
        simp only [hsame]
        exact h.later k' (hlt.trans hk')
    · rw [hprev.settled]
      simp

/-- Once the blobs of a first part of the file are processed, the last of them given: the kinds
before its kind are complete, its own is merged up to its last key. -/
structure Reached (diff : SortedDiff) (route : Route) (file pre : List (Blob C)) (a : Blob C)
    (s : DrainState C) : Prop where
  kindAt : KindAt diff route a.index.kind (some a.index.lastKey) s
  settled : settled file s =
    mergedKinds diff (fileElements file) (kindsFrom (firstOrdinal file) a.index.kind.ordinal) ++
      mergedPart (diff.kind a.index.kind) a.index.kind (heldIds file a.index.kind)
        (covered (some a.index.lastKey)) (ofKind a.index.kind (fileElements (pre ++ [a])))

/-- A blob whose kind is entered up to a bound. -/
lemma processItem_reached (hdiff : DiffSorted diff) {pre post : List (Blob C)} {b : Blob C}
    (hbase : ValidBase (pre ++ b :: post)) {item : DrainItem C} (hitem : Carries diff route b item)
    {m : Option OsmIdKey} (hafter : ∀ c, m = some c → ∀ id ∈ b.ids, c ≤ osmIdKey id)
    (hbefore : ∀ e ∈ fileElements pre, e.kind = b.index.kind → covered m (osmIdKey e.id) = true)
    {s u : DrainState C} (htrans : transition diff route (pre ++ b :: post) b.index.kind s = .ok u)
    (hkind : KindAt diff route b.index.kind m { u with lastType := some b.index.kind })
    (hsettled : settled (pre ++ b :: post) u = mergedKinds diff (fileElements (pre ++ b :: post))
          (kindsFrom (firstOrdinal (pre ++ b :: post)) b.index.kind.ordinal) ++
        mergedPart (diff.kind b.index.kind) b.index.kind
          (heldIds (pre ++ b :: post) b.index.kind) (covered m)
          (ofKind b.index.kind (fileElements pre))) :
    ∃ t, processItem diff route (pre ++ b :: post) s item = .ok t ∧
      Reached diff route (pre ++ b :: post) pre b t := by
  have hbmem : b ∈ pre ++ b :: post := by simp
  have hb := hbase.exactBlob hbmem
  have hfit := fits_of_before hbase hafter hbefore
  obtain ⟨t, ht, htkind, htsettled⟩ := item_spec hdiff hbase.laid hb hitem hfit hkind
  have hplace := (placement_bounds hb hitem).1
  refine ⟨t, ?_, htkind, ?_⟩
  · simp only [processItem]
    rw [hplace, htrans, ok_bind]
    exact ht
  · have hgrow : ofKind b.index.kind (fileElements (pre ++ [b])) =
        ofKind b.index.kind (fileElements pre) ++ b.elements := by
      rw [fileElements_append, ofKind_append]
      congr 1
      rw [fileElements, flatMap_cons, flatMap_nil, append_nil]
      exact ofKind_eq_self (hbase.kinds b hbmem)
    have hes : ∀ e ∈ ofKind b.index.kind (fileElements pre), covered m (osmIdKey e.id) = true := by
      intro e he
      obtain ⟨hin, hk⟩ := mem_ofKind.mp he
      exact hbefore e hin hk
    rw [htsettled, hgrow, mergedPart_blob hdiff hfit hb.claims hes, ← append_assoc, ← hsettled]
    rfl

lemma firstOrdinal_le (h : ValidBase file) (hb : b ∈ file) :
    firstOrdinal file ≤ b.index.kind.ordinal := by
  cases file with
  | nil => cases hb
  | cons a rest =>
    rcases mem_cons.mp hb with rfl | hrest
    · exact le_refl _
    · obtain ⟨x, hx, _⟩ := lastKey_element (h.claims a mem_cons_self)
      obtain ⟨y, hy, _⟩ := lastKey_element (h.claims b hb)
      have hcross := @canonical_cross C [a] rest h _ _
        (mem_fileElements mem_cons_self hx) (mem_fileElements hrest hy)
      have hle := hcross.kind_le
      rw [h.kinds a mem_cons_self x hx, h.kinds b hb y hy] at hle
      exact hle

lemma process_first (hdiff : DiffSorted diff) (hbase : ValidBase (b :: post))
    (hitem : Carries diff route b item) :
    ∃ t, processItem diff route (b :: post) .new item = .ok t ∧
      Reached diff route (b :: post) [] b t := by
  have hempty : kindsFrom b.index.kind.ordinal b.index.kind.ordinal = [] := by
    simp [kindsFrom]
  apply @processItem_reached C diff route hdiff [] post b hbase item hitem none (by simp)
    (by simp [fileElements]) .new .new rfl
  · constructor
    · exact buffered_of_empty rfl
    · rfl
    · intro p hp
      cases hp
    · exact cursorAt_zero _
    · intro k' _
      rfl
  · rw [nil_append, firstOrdinal, hempty]
    simp [settled, DrainState.new, runElements, mergedKinds, fileElements, ofKind, mergedPart_nil]

lemma process_next (hdiff : DiffSorted diff) {a : Blob C}
    (hbase : ValidBase (pre ++ a :: b :: post)) (hitem : Carries diff route b item)
    (h : Reached diff route (pre ++ a :: b :: post) pre a s) :
    ∃ t, processItem diff route (pre ++ a :: b :: post) s item = .ok t ∧
      Reached diff route (pre ++ a :: b :: post) (pre ++ [a]) b t := by
  have hamem : a ∈ pre ++ a :: b :: post := by simp
  have hbmem : b ∈ pre ++ a :: b :: post := by simp
  have hclaims := hbase.claims a hamem
  obtain ⟨z, hz, hzlast⟩ := lastKey_element hclaims
  have hzkind := hbase.kinds a hamem z hz
  have hassoc : pre ++ a :: b :: post = (pre ++ [a]) ++ b :: post := by simp
  have hcross : ∀ y ∈ b.elements, CanonicalLe z y := by
    intro y hy
    exact canonical_cross (hassoc ▸ hbase)
      (mem_fileElements (show a ∈ pre ++ [a] by simp) hz)
      (mem_fileElements (show b ∈ b :: post by simp) hy)
  -- Everything up to `a` is, for its kind, under its last key.
  have hbelow : ∀ e ∈ fileElements (pre ++ [a]), e.kind = a.index.kind →
      osmIdKey e.id ≤ a.index.lastKey := by
    intro e he hk
    rw [fileElements_append] at he
    rcases mem_append.mp he with hpre | hlast
    · rw [← hzlast]
      apply (canonical_cross hbase hpre (mem_fileElements mem_cons_self hz)).key_le
      rw [hk, hzkind]
    · rw [fileElements, flatMap_cons, flatMap_nil, append_nil] at hlast
      exact hclaims.le_lastKey (mem_map_of_mem hlast)
  obtain ⟨y, hy, _⟩ := lastKey_element (hbase.claims b hbmem)
  have hykind := hbase.kinds b hbmem y hy
  have hkinds := (hcross y hy).kind_le
  rw [hzkind, hykind] at hkinds
  rw [hassoc] at h hbase ⊢
  by_cases hsame : a.index.kind = b.index.kind
  · apply processItem_reached hdiff hbase hitem (m := some a.index.lastKey) _ _ (u := s)
    · rw [transition, h.kindAt.lastType]
      simp [hsame]
    · have hk := h.kindAt
      rw [hsame] at hk
      exact ⟨⟨hk.buffered.route, hk.buffered.single, hk.buffered.range⟩, rfl, hk.watermark,
        hk.cursor, hk.later⟩
    · rw [h.settled, hsame]
    · intro c hc id hid
      obtain ⟨x, hx, rfl⟩ := mem_map.mp hid
      rw [← some.inj hc, ← hzlast]
      apply (hcross x hx).key_le
      rw [hzkind, hbase.kinds b (by simp) x hx, hsame]
    · intro e he hk
      simpa using hbelow e he (hk.trans hsame.symm)
  · have hlt : a.index.kind.ordinal < b.index.kind.ordinal :=
      lt_of_le_of_ne hkinds fun heq => hsame (ElementKind.ordinal_injective heq)
    have hpre : ∀ e ∈ fileElements (pre ++ [a]), e.kind.ordinal ≤ a.index.kind.ordinal := by
      intro e he
      rw [fileElements_append] at he
      rcases mem_append.mp he with hin | hin
      · have hle := (@canonical_cross C pre (a :: b :: post) (by simpa using hbase) _ _ hin
          (mem_fileElements mem_cons_self hz)).kind_le
        rwa [hzkind] at hle
      · rw [fileElements, flatMap_cons, flatMap_nil, append_nil] at hin
        rw [hbase.kinds a (by simp) e hin]
    have hpost : ∀ e ∈ fileElements (b :: post), b.index.kind.ordinal ≤ e.kind.ordinal := by
      intro e he
      rw [fileElements, flatMap_cons] at he
      rcases mem_append.mp he with hin | hin
      · rw [hbase.kinds b (by simp) e hin]
      · have hle := (@canonical_cross C (pre ++ [a] ++ [b]) post (by simpa using hbase) _ _
          (mem_fileElements (show b ∈ pre ++ [a] ++ [b] by simp) hy)
          hin).kind_le
        rwa [hykind] at hle
    have hall : ofKind a.index.kind (fileElements (pre ++ [a] ++ b :: post)) =
        ofKind a.index.kind (fileElements (pre ++ [a])) := by
      have hnil : ofKind a.index.kind (fileElements (b :: post)) = [] := by
        apply ofKind_eq_nil
        intro e he hk
        have := hpost e he
        rw [hk] at this
        omega
      rw [fileElements_append, ofKind_append, hnil, append_nil]
    obtain ⟨u, hu, hukind, husettled⟩ := @transition_spec C diff route (pre ++ [a] ++ b :: post)
      _ _ hlt _ s h.kindAt
    apply processItem_reached hdiff hbase hitem (m := none) _ _ hu hukind
    · have hcomplete := @mergedKind_complete C diff hdiff a.index.kind (some a.index.lastKey)
        (ofKind a.index.kind (fileElements (pre ++ [a]))) (by
          intro e he
          obtain ⟨hin, hk⟩ := mem_ofKind.mp he
          simpa using hbelow e hin hk)
      have hskipped : ((skipped a.index.kind b.index.kind).flatMap fun k =>
          ((entries (diff.kind k)).map (oscOf k) : List (Written C))) =
          mergedKinds diff (fileElements (pre ++ [a] ++ b :: post))
            (skipped a.index.kind b.index.kind) := by
        apply flatMap_congr
        intro k hk
        obtain ⟨hk1, hk2⟩ := ordinal_of_skipped hk
        rw [ofKind_eq_nil, mergedKind_empty]
        intro e he heq
        rw [fileElements_append] at he
        rcases mem_append.mp he with hin | hin
        · have := hpre e hin
          rw [heq] at this
          omega
        · have := hpost e hin
          rw [heq] at this
          omega
      have hnone : ofKind b.index.kind (fileElements (pre ++ [a])) = [] := by
        apply ofKind_eq_nil
        intro e he heq
        have := hpre e he
        rw [heq] at this
        omega
      have hheld : heldIds (pre ++ [a] ++ b :: post) a.index.kind =
          (ofKind a.index.kind (fileElements (pre ++ [a]))).map BaseElement.id := by
        rw [heldIds, hall]
      rw [husettled, h.settled, hheld, kindsFrom_next (firstOrdinal_le hbase (by simp)) hlt, hnone,
        mergedPart_nil, hskipped]
      simp only [covered_none, Bool.and_false, filter_false, map_nil, append_nil]
      rw [mergedKinds_append, mergedKinds_cons, hall, ← hcomplete]
      simp
    · intro c hc
      cases hc
    · intro e he hk
      have := hpre e he
      rw [hk] at this
      omega

lemma process_rest (hdiff : DiffSorted diff) {pre post : List (Blob C)} {a : Blob C}
    (hbase : ValidBase (pre ++ a :: post)) {items : List (DrainItem C)}
    (hitems : List.Forall₂ (Carries diff route) post items) {s : DrainState C}
    (h : Reached diff route (pre ++ a :: post) pre a s) :
    ∃ pre' a' t, items.foldlM (processItem diff route (pre ++ a :: post)) s = .ok t ∧
      pre ++ a :: post = pre' ++ [a'] ∧ Reached diff route (pre ++ a :: post) pre' a' t := by
  induction hitems generalizing pre a s with
  | nil => exact ⟨pre, a, s, rfl, rfl, h⟩
  | @cons b item post items hitem _ ih =>
    obtain ⟨u, hu, hur⟩ := process_next hdiff hbase hitem h
    have hassoc : pre ++ a :: b :: post = (pre ++ [a]) ++ b :: post := by simp
    rw [hassoc] at hbase hur hu ⊢
    obtain ⟨pre', a', t, ht, hsplit, htr⟩ := ih hbase hur
    refine ⟨pre', a', t, ?_, hsplit, htr⟩
    rw [foldlM_cons, hu, ok_bind, ht]

lemma trailing_check {k : ElementKind} {ids : List Int64} (hsorted : ids.Pairwise OsmLt)
    {m : Option OsmIdKey} (hafter : ∀ c, m = some c → ∀ id ∈ ids, c ≤ osmIdKey id)
    {s : DrainState C} (hw : WatermarkAt s.orderWatermark k m) :
    ∃ w m', ids.foldlM (fun s id => checkOutputOrder k (osmIdKey id) (osmIdKey id) s) s =
        .ok { s with orderWatermark := w } ∧ WatermarkAt w k m' := by
  induction ids generalizing s m with
  | nil => exact ⟨s.orderWatermark, m, rfl, hw⟩
  | cons id ids ih =>
    rw [pairwise_cons] at hsorted
    have hcheck := checkOutputOrder_eq hw (fun c hc => hafter c hc id mem_cons_self)
      (le_refl (osmIdKey id))
    obtain ⟨w, m', hrun, hw'⟩ := @ih hsorted.2 (some (osmIdKey id))
      (fun c hc x hx => some.inj hc ▸ le_of_lt (hsorted.1 x hx))
      { s with orderWatermark := ⟨some (k.ordinal, osmIdKey id)⟩ } rfl
    refine ⟨w, m', ?_, hw'⟩
    rw [foldlM_cons, hcheck, ok_bind, hrun]

/-- The rest of a kind at the end of the input. -/
lemma trailingCreates_spec (hdiff : DiffSorted diff) {k : ElementKind} {m : Option OsmIdKey}
    {s : DrainState C} (hw : WatermarkAt s.orderWatermark k m)
    (hc : CursorAt diff k m (s.cursors k)) :
    ∃ t m', trailingCreates diff s k = .ok t ∧ WatermarkAt t.orderWatermark k m' ∧
      (∀ k', k' ≠ k → t.cursors k' = s.cursors k') ∧ t.written = s.written ++
        ((entries (diff.kind k)).filter fun x => !covered m (osmIdKey x.1)).map (oscOf k) := by
  have hids : (diff.kind k).ids.drop (s.cursors k) =
      ((entries (diff.kind k)).filter fun x => !covered m (osmIdKey x.1)).map Prod.fst := by
    rw [← entries_ids, ← map_drop, show (entries (diff.kind k)).drop (s.cursors k) = _ from hc]
  obtain ⟨w, m', hrun, hw'⟩ := @trailing_check C k ((diff.kind k).ids.drop (s.cursors k))
    ((hdiff k).ids.sublist (drop_sublist _ _)) m
    (fun c hmc id hid => by
      rw [hids] at hid
      obtain ⟨x, hx, rfl⟩ := mem_map.mp hid
      have hpast := (mem_filter.mp hx).2
      rw [hmc] at hpast
      have hlt : c < osmIdKey x.1 := by simpa using hpast
      exact hlt.le) s hw
  refine ⟨_, m', by rw [trailingCreates, hrun, ok_bind], hw', ?_, ?_⟩
  · intro k' hk'
    exact update_of_ne hk' _ _
  · simp only [emitRest, emit, setCursor, slice_rest]
    rw [show (entries (diff.kind k)).drop (s.cursors k) = _ from hc]

/-- Kinds the base does not reach are written whole. -/
lemma trailing_fresh (hdiff : DiffSorted diff) {ks : List ElementKind}
    (hks : ks.Pairwise fun a b => a.ordinal < b.ordinal) {s : DrainState C}
    (hw : ∀ k ∈ ks, WatermarkAt s.orderWatermark k none) (hc : ∀ k ∈ ks, s.cursors k = 0) :
    ∃ t, ks.foldlM (trailingCreates diff) s = .ok t ∧
      t.written = s.written ++ ks.flatMap fun k => (entries (diff.kind k)).map (oscOf k) := by
  induction ks generalizing s with
  | nil => exact ⟨s, rfl, by simp⟩
  | cons k ks ih =>
    rw [pairwise_cons] at hks
    have hcursor : CursorAt diff k none (s.cursors k) := by
      rw [hc k mem_cons_self]
      exact cursorAt_zero k
    obtain ⟨u, m', hu, huw, hucursors, huwritten⟩ :=
      trailingCreates_spec hdiff (hw k mem_cons_self) hcursor
    obtain ⟨t, ht, htwritten⟩ := @ih hks.2 u (fun k' hk' => huw.later (hks.1 k' hk'))
      (fun k' hk' => by
        have hlt := hks.1 k' hk'
        rw [hucursors k' (by rintro rfl; omega)]
        exact hc k' (mem_cons_of_mem _ hk'))
    refine ⟨t, ?_, ?_⟩
    · rw [foldlM_cons, hu, ok_bind, ht]
    · rw [htwritten, huwritten]
      simp

lemma kindsFrom_ascending (lo hi : Nat) :
    (kindsFrom lo hi).Pairwise fun a b => a.ordinal < b.ordinal := by
  apply List.Pairwise.sublist filter_sublist
  decide

lemma mem_kindsFrom {lo hi : Nat} : k ∈ kindsFrom lo hi ↔ lo ≤ k.ordinal ∧ k.ordinal < hi := by
  cases k <;> simp [kindsFrom]

lemma kindsFrom_split {lo mid hi : Nat} (h1 : lo ≤ mid) (h2 : mid ≤ hi) :
    kindsFrom lo hi = kindsFrom lo mid ++ kindsFrom mid hi := by
  have hclosed : [ElementKind.node, .way, .relation].Pairwise fun a b =>
      decide (b.ordinal < mid) → decide (a.ordinal < mid) := by
    have hasc : [ElementKind.node, .way, .relation].Pairwise fun a b => a.ordinal < b.ordinal := by
      decide
    apply hasc.imp
    intro a b hab hb
    simp only [decide_eq_true_iff] at hb ⊢
    omega
  rw [kindsFrom, filter_split _ hclosed]
  congr 1 <;> apply filter_congr <;> intro k _ <;> rw [Bool.eq_iff_iff] <;>
    simp only [Bool.and_eq_true, decide_eq_true_iff, Bool.not_eq_true', decide_eq_false_iff_not] <;>
    omega

lemma kindsFrom_self (k : ElementKind) : kindsFrom k.ordinal (k.ordinal + 1) = [k] := by
  cases k <;> decide

lemma typesToFlush_some (k : ElementKind) :
    typesToFlush (some k) = k :: kindsFrom (k.ordinal + 1) 3 := by
  cases k <;> decide

/-- The end of a run whose last blob is given. -/
lemma finish_reached (hdiff : DiffSorted diff) {a : Blob C} (hbase : ValidBase (pre ++ [a]))
    (h : Reached diff route (pre ++ [a]) pre a s) :
    ∃ t, (typesToFlush (flushed (pre ++ [a]) s).lastType).foldlM (trailingCreates diff)
        (flushed (pre ++ [a]) s) = .ok t ∧ t.written = mergedKinds diff (fileElements (pre ++ [a]))
        (kindsFrom (firstOrdinal (pre ++ [a])) 3) := by
  have hamem : a ∈ pre ++ [a] := by simp
  obtain ⟨z, hz, hzlast⟩ := lastKey_element (hbase.claims a hamem)
  have hzkind := hbase.kinds a hamem z hz
  have hcross : ∀ e ∈ fileElements (pre ++ [a]), e.kind.ordinal ≤ a.index.kind.ordinal ∧
      (e.kind = a.index.kind → osmIdKey e.id ≤ a.index.lastKey) := by
    intro e he
    rw [fileElements_append] at he
    rcases mem_append.mp he with hin | hin
    · have hle := canonical_cross hbase hin (mem_fileElements (show a ∈ [a] by simp) hz)
      constructor
      · rw [← hzkind]
        exact hle.kind_le
      · intro hk
        rw [← hzlast]
        exact hle.key_le (hk.trans hzkind.symm)
    · rw [fileElements, flatMap_cons, flatMap_nil, append_nil] at hin
      rw [hbase.kinds a hamem e hin]
      exact ⟨le_refl _, fun _ => (hbase.claims a hamem).le_lastKey (mem_map_of_mem hin)⟩
  have hlast : (flushed (pre ++ [a]) s).lastType = some a.index.kind := h.kindAt.lastType
  obtain ⟨u, m', hu, huw, hucursors, huwritten⟩ :=
    @trailingCreates_spec C diff hdiff a.index.kind (some a.index.lastKey)
      (flushed (pre ++ [a]) s) h.kindAt.watermark h.kindAt.cursor
  obtain ⟨t, ht, htwritten⟩ := @trailing_fresh C diff hdiff (kindsFrom (a.index.kind.ordinal + 1) 3)
    (kindsFrom_ascending _ _) u
    (fun k hk => huw.later (by
      have := (mem_kindsFrom.mp hk).1
      omega))
    (fun k hk => by
      have hlt := (mem_kindsFrom.mp hk).1
      rw [hucursors k (by rintro rfl; omega)]
      exact h.kindAt.later k (by omega))
  refine ⟨t, ?_, ?_⟩
  · rw [hlast, typesToFlush_some, foldlM_cons, hu, ok_bind, ht]
  · have hcomplete := @mergedKind_complete C diff hdiff a.index.kind (some a.index.lastKey)
      (ofKind a.index.kind (fileElements (pre ++ [a]))) (by
        intro e he
        obtain ⟨hin, hk⟩ := mem_ofKind.mp he
        simpa using (hcross e hin).2 hk)
    have hfresh : ((kindsFrom (a.index.kind.ordinal + 1) 3).flatMap fun k =>
        ((entries (diff.kind k)).map (oscOf k) : List (Written C))) =
        mergedKinds diff (fileElements (pre ++ [a])) (kindsFrom (a.index.kind.ordinal + 1) 3) := by
      apply flatMap_congr
      intro k hk
      have hlt := (mem_kindsFrom.mp hk).1
      rw [ofKind_eq_nil, mergedKind_empty]
      intro e he heq
      have hle := (hcross e he).1
      rw [heq] at hle
      omega
    have hfirst := firstOrdinal_le hbase hamem
    have hthree := a.index.kind.ordinal_lt
    rw [kindsFrom_split hfirst (by omega : a.index.kind.ordinal ≤ 3),
      kindsFrom_split (Nat.le_succ a.index.kind.ordinal) hthree, kindsFrom_self,
      mergedKinds_append, singleton_append, mergedKinds_cons, htwritten, huwritten, hfresh,
      ← hcomplete]
    have hsettled : (flushed (pre ++ [a]) s).written = settled (pre ++ [a]) s := rfl
    rw [hsettled, h.settled, heldIds]
    simp only [append_assoc]

lemma mapM_ok {α β ε : Type} {f : α → Except ε β} {P : α → β → Prop} {l : List α}
    (h : ∀ a ∈ l, ∃ b, f a = .ok b ∧ P a b) : ∃ bs, l.mapM f = .ok bs ∧ List.Forall₂ P l bs := by
  induction l with
  | nil => exact ⟨[], rfl, .nil⟩
  | cons a as ih =>
    obtain ⟨b, hb, hP⟩ := h a mem_cons_self
    obtain ⟨bs, hbs, hall⟩ := ih fun x hx => h x (mem_cons_of_mem _ hx)
    refine ⟨b :: bs, ?_, .cons hP hall⟩
    rw [mapM_cons, hb, ok_bind, hbs, ok_bind]
    rfl

lemma numbered_items {α : Type} (items : List α) :
    ((range items.length).filterMap fun seq => items[seq]?.map fun item => (seq, item)) =
      items.zipIdx.map fun p => (p.2, p.1) := by
  induction items using reverseRecOn with
  | nil => rfl
  | append_singleton items x ih =>
    have hinner : ((range items.length).filterMap fun seq =>
        (items ++ [x])[seq]?.map fun item => (seq, item)) =
        (range items.length).filterMap fun seq => items[seq]?.map fun item => (seq, item) := by
      apply filterMap_congr
      intro seq hseq
      rw [getElem?_append_left (mem_range.mp hseq)]
    rw [length_append, length_singleton, range_succ, filterMap_append, hinner,
      ih, zipIdx_append, map_append]
    simp

/-- A run over a valid base ends well, in whatever order the items arrive, with the
kinds from that of the first blob on. -/
theorem merge_eq (hdiff : DiffSorted diff) (hbase : ValidBase file) (route : Route)
    {order : List Nat} (horder : order.Perm (range file.length)) : merge diff route file order =
      .ok (mergedKinds diff (fileElements file) (kindsFrom (firstOrdinal file) 3)) := by
  obtain ⟨items, hitems, hall⟩ := @mapM_ok _ _ _ (blobItem diff route) (Carries diff route) file
    fun b hb => blobItem_carries hdiff route (hbase.exactBlob hb)
  have hperm : (order.filterMap fun seq => items[seq]?.map fun item => (seq, item)).Perm
      (items.zipIdx.map fun p => (p.2, p.1)) := by
    rw [← numbered_items, ← hall.length_eq]
    exact horder.filterMap _
  rw [merge, hitems, ok_bind, runDrain]
  cases file with
  | nil =>
    cases hall
    rw [Reorder.run_of_perm rfl hperm, ok_bind]
    obtain ⟨t, ht, htwritten⟩ := @trailing_fresh C diff hdiff (kindsFrom 0 3)
      (kindsFrom_ascending _ _) (flushed [] .new) (fun k _ p hp => by cases hp) (fun _ _ => rfl)
    have hrun : (typesToFlush (flushed ([] : List (Blob C)) .new).lastType).foldlM
        (trailingCreates diff) (flushed [] .new) = .ok t := ht
    simp only [refuseGap, map_nil, min?_nil, ok_bind]
    rw [flushCopyRange_eq (buffered_of_empty rfl), ok_bind, flushPassthroughBuf_flushRun]
    rw [show (flushRun ([] : List (Blob C)) .new).lastType = (flushed [] .new).lastType from rfl,
      hrun, ok_bind, htwritten]
    congr 1
    apply flatMap_congr
    intro k _
    exact (mergedKind_empty k).symm
  | cons b post =>
    obtain ⟨item, items, hitem, hrest, rfl⟩ := forall₂_cons_left_iff.mp hall
    obtain ⟨u, hu, hur⟩ := process_first hdiff hbase hitem
    obtain ⟨pre', a', t, ht, hsplit, htr⟩ := @process_rest C diff route hdiff [] post b hbase items
      hrest u hur
    have hfold : (item :: items).foldlM (processItem diff route (b :: post)) .new = .ok t := by
      rw [foldlM_cons, hu, ok_bind]
      exact ht
    rw [Reorder.run_of_perm hfold hperm, ok_bind]
    simp only [refuseGap, map_nil, min?_nil, ok_bind]
    rw [nil_append] at hsplit htr
    rw [flushCopyRange_eq htr.kindAt.buffered, ok_bind, flushPassthroughBuf_flushRun]
    rw [show (flushRun (b :: post) t).lastType = (flushed (b :: post) t).lastType from rfl]
    rw [hsplit] at htr hbase ⊢
    obtain ⟨v, hv, hvwritten⟩ := finish_reached hdiff hbase htr
    rw [hv, ok_bind, hvwritten]

lemma plainMerge_eq (diff : SortedDiff) (base : List (BaseElement C)) :
    plainMerge diff base = mergedKinds diff base (kindsFrom 0 3) := rfl

/-- No element is of a kind before the first blob's. -/
theorem ofKind_before (hbase : ValidBase file) {k : ElementKind}
    (hk : k.ordinal < firstOrdinal file) : ofKind k (fileElements file) = [] := by
  apply ofKind_eq_nil
  intro e he heq
  obtain ⟨b, hb, hin⟩ := mem_flatMap.mp he
  have hle := firstOrdinal_le hbase hb
  rw [← hbase.kinds b hb e hin, heq] at hle
  omega

lemma mergedKinds_before (hbase : ValidBase file) :
    mergedKinds diff (fileElements file) (kindsFrom 0 (firstOrdinal file)) =
      (kindsFrom 0 (firstOrdinal file)).flatMap fun k => (entries (diff.kind k)).map (oscOf k) := by
  apply flatMap_congr
  intro k hk
  rw [ofKind_before hbase (mem_kindsFrom.mp hk).2, mergedKind_empty]

lemma entries_eq_nil {t : KindTable} : entries t = [] ↔ t.ids = [] := by
  rw [← length_eq_zero_iff, length_entries, length_eq_zero_iff]

def emptyTable : KindTable := ⟨[], [], [], []⟩

/-- Node 3 created, node 5 modified, node 1 deleted. -/
def nodeChanges : SortedDiff where
  kind := fun k => if k = .node then ⟨[30, 50], [3, 5], [0, 1], [1]⟩ else emptyTable

def nodesAndWay : List (Blob Unit) :=
  [⟨⟨.node, 1, 5, 2, none⟩, 100, 40, [⟨.node, 1, ()⟩, ⟨.node, 5, ()⟩]⟩,
    ⟨⟨.way, 2, 2, 1, none⟩, 140, 30, [⟨.way, 2, ()⟩]⟩]

lemma nodeChanges_sorted : DiffSorted nodeChanges := by
  intro k
  cases k with
  | node => decide
  | way => decide
  | relation => decide

lemma nodesAndWay_valid : ValidBase nodesAndWay := by
  constructor
  · constructor
    · decide
    · decide
  · intro b hb
    simp only [nodesAndWay, mem_cons, not_mem_nil, or_false] at hb
    rcases hb with rfl | rfl
    · decide
    · decide
  · decide
  · decide

example : merge nodeChanges .splice nodesAndWay [1, 0] =
    .ok [.osc .node 3 [30, 50], .osc .node 5 [50], .base ⟨.way, 2, ()⟩] := by
  rfl

/-- Node 5 created. -/
def nodeCreate : SortedDiff where
  kind := fun k => if k = .node then ⟨[50], [5], [0], []⟩ else emptyTable

def wayAlone : List (Blob Unit) :=
  [⟨⟨.way, 2, 2, 1, none⟩, 100, 30, [⟨.way, 2, ()⟩]⟩]

lemma nodeCreate_sorted : DiffSorted nodeCreate := by
  intro k
  cases k with
  | node => decide
  | way => decide
  | relation => decide

lemma wayAlone_valid : ValidBase wayAlone := by
  constructor
  · constructor
    · decide
    · decide
  · intro b hb
    simp only [wayAlone, mem_cons, not_mem_nil, or_false] at hb
    rw [hb]
    decide
  · decide
  · decide

end ApplyMerge
