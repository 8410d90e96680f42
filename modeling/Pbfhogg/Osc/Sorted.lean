import Pbfhogg.Osc.Overlay

/-!
# A finished parse in id order

`osc/sorted.rs`: per kind the live ids with their record offsets and the deleted ids, both sorted by
`osm_id_cmp`, built from the live index and the deleted set, never from the arena.
-/

namespace OscSorted

open OsmId OscCompact OscOverlay List

instance : IsTrans Int64 OsmLe := ⟨fun _ _ _ h h' => le_trans (α := OsmIdKey) h h'⟩

instance : Std.Total OsmLe := ⟨fun a b => le_total (osmIdKey a) (osmIdKey b)⟩

instance : Std.Antisymm OsmLe := ⟨fun _ _ h h' => osmIdKey_injective (le_antisymm h h')⟩

structure KindTable where
  arena : Bytes
  ids : List Int64
  offsets : List Nat
  deleted : List Int64

variable (index : AList (fun _ : Int64 => Nat))

/-- The index entries in id order. -/
def sortedPairs : List (Int64 × Nat) :=
  (index.entries.map fun e => (e.1, e.2)).insertionSort fun a b => OsmLe a.1 b.1

def KindTable.build (arena : Bytes) (index : AList (fun _ : Int64 => Nat))
    (deleted : Finset Int64) : KindTable where
  arena := arena
  ids := (sortedPairs index).map Prod.fst
  offsets := (sortedPairs index).map Prod.snd
  deleted := deleted.sort OsmLe

/-- The record of the `i`-th upserted id. -/
def KindTable.record (t : KindTable) (i : Nat) : Bytes := t.arena.drop (t.offsets.getD i 0)

structure SortedDiff where
  kind : ElementKind → KindTable

def intoSorted (o : CompactDiffOverlay) : SortedDiff where
  kind := fun k => .build (o.stores k).arena (o.stores k).index (o.stores k).deleted

lemma mem_sortedPairs (id : Int64) (offset : Nat) :
    (id, offset) ∈ sortedPairs index ↔ index.lookup id = some offset := by
  rw [sortedPairs, (perm_insertionSort _ _).mem_iff, mem_map]
  constructor
  · rintro ⟨e, he, heq⟩
    obtain ⟨rfl, rfl⟩ := Prod.mk.injEq .. ▸ heq
    exact AList.mem_lookup_iff.mpr he
  · intro h
    exact ⟨⟨id, offset⟩, AList.mem_lookup_iff.mp h, rfl⟩

lemma osmLt_of_le_ne {a b : Int64} (h : OsmLe a b) (hne : a ≠ b) : OsmLt a b :=
  lt_of_le_of_ne h (mt osmIdKey_inj.mp hne)

lemma sortedPairs_ids_pairwise : ((sortedPairs index).map Prod.fst).Pairwise OsmLt := by
  have hperm : ((sortedPairs index).map Prod.fst).Perm index.keys := by
    refine ((perm_insertionSort _ _).map _).trans ?_
    rw [map_map]
    exact List.Perm.refl _
  have hnodup : ((sortedPairs index).map Prod.fst).Nodup :=
    hperm.nodup_iff.mpr index.keys_nodup
  have htotal : Std.Total (fun a b : Int64 × Nat => OsmLe a.1 b.1) :=
    ⟨fun a b => le_total (osmIdKey a.1) (osmIdKey b.1)⟩
  have htrans : IsTrans (Int64 × Nat) (fun a b => OsmLe a.1 b.1) :=
    ⟨fun _ _ _ h h' => le_trans (α := OsmIdKey) h h'⟩
  have hsorted : ((sortedPairs index).map Prod.fst).Pairwise OsmLe := by
    rw [pairwise_map]
    exact pairwise_insertionSort _ _
  exact (hsorted.and hnodup).imp fun h => osmLt_of_le_ne h.1 h.2

/-- Both lists are strictly ascending; each upserted id comes with a record that reads as the last
change to it, and each deleted id was deleted by the last change to it. -/
structure TableReflects (t : KindTable) (k : ElementKind) (accepted : List Change) : Prop where
  ids_sorted : t.ids.Pairwise OsmLt
  deleted_sorted : t.deleted.Pairwise OsmLt
  mem_ids : ∀ id, id ∈ t.ids ↔
    ∃ c, lastChange accepted (k, id) = some c ∧ c.action ≠ .delete
  mem_deleted : ∀ id, id ∈ t.deleted ↔
    ∃ c, lastChange accepted (k, id) = some c ∧ c.action = .delete
  record : ∀ i id c, t.ids[i]? = some id → lastChange accepted (k, id) = some c →
    view k (t.record i) = ⟨c.id, c.body, c.tags, c.arenaMeta⟩

lemma holds_lookup_isSome {s : KindStore} {id : Int64} {last : Option Change}
    (h : Holds s id last) :
    (∃ offset, s.index.lookup id = some offset) ↔ ∃ c, last = some c ∧ c.action ≠ .delete := by
  cases last with
  | none => simp [h.1]
  | some c =>
    by_cases hc : c.action = .delete
    · simp only [Holds, if_pos hc] at h
      simp [h.1, hc]
    · simp only [Holds, if_neg hc] at h
      obtain ⟨_, _, offset, _, hlook, _⟩ := h
      simp [hlook, hc]

lemma holds_mem_deleted {s : KindStore} {id : Int64} {last : Option Change} (h : Holds s id last) :
    id ∈ s.deleted ↔ ∃ c, last = some c ∧ c.action = .delete := by
  cases last with
  | none => simp [h.2]
  | some c =>
    by_cases hc : c.action = .delete
    · simp only [Holds, if_pos hc] at h
      simp [h.2, hc]
    · simp only [Holds, if_neg hc] at h
      simp [h.1, hc]

lemma intoSorted_reflects {o : CompactDiffOverlay} {accepted : List Change}
    (h : Reflects o accepted) (k : ElementKind) :
    TableReflects ((intoSorted o).kind k) k accepted where
  ids_sorted := sortedPairs_ids_pairwise _
  deleted_sorted := by
    have hle := Finset.pairwise_sort (o.stores k).deleted OsmLe
    have hnodup := Finset.sort_nodup (o.stores k).deleted OsmLe
    exact (hle.and hnodup).imp fun h => osmLt_of_le_ne h.1 h.2
  mem_ids := by
    intro id
    rw [← holds_lookup_isSome (h.holds k id)]
    simp only [intoSorted, KindTable.build, mem_map, Prod.exists, exists_and_right,
      exists_eq_right, mem_sortedPairs]
  mem_deleted := by
    intro id
    rw [← holds_mem_deleted (h.holds k id)]
    exact Finset.mem_sort OsmLe
  record := by
    intro i id c hid hlast
    have hobj := (lastChange_object hlast).2
    obtain ⟨hkind, _⟩ := Prod.mk.injEq .. ▸ hobj
    have hpair : ∃ offset, (sortedPairs (o.stores k).index)[i]? = some (id, offset) := by
      simp only [intoSorted, KindTable.build, getElem?_map, Option.map_eq_some_iff,
        Prod.exists, exists_and_right, exists_eq_right] at hid
      exact hid
    obtain ⟨offset, hget⟩ := hpair
    have hlook := (mem_sortedPairs _ id offset).mp (mem_of_getElem? hget)
    have hoff : ((intoSorted o).kind k).record i = (o.stores k).arena.drop offset := by
      simp [KindTable.record, intoSorted, KindTable.build, getD_eq_getElem?_getD, hget]
    have hholds := h.holds k id
    rw [hlast] at hholds
    by_cases hc : c.action = .delete
    · simp only [Holds, if_pos hc] at hholds
      rw [hholds.1] at hlook
      cases hlook
    · simp only [Holds, if_neg hc] at hholds
      obtain ⟨_, hfit, offset', post, hlook', hrec⟩ := hholds
      have hsame : offset' = offset := Option.some.inj (hlook'.symm.trans hlook)
      rw [hoff, ← hsame, hrec, ← show c.body.kind = k from hkind]
      exact view_record c.id c.body c.tags c.arenaMeta hfit post

end OscSorted
