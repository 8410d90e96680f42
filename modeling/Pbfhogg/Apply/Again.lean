import Pbfhogg.Apply.Latest

/-!
# Applying a diff to its own output

The output of a run, read back as a base, holds every record of the diff and none of the elements it
deletes, so a second run writes the same elements again. The one exception are the creates that the
first run lost: where nothing of the base is left, the second run writes them.
-/

namespace ApplyAgain

open OsmId OscSorted OscLookup PlainMerge ApplyRewrite ApplyMerge ApplyLatest List

variable {C : Type} (read : Bytes → C) {diff : SortedDiff} {k : ElementKind} {lo : Nat}
  {base : List (BaseElement C)}

/-- A written element, read back; `read` gives the contents of a record. -/
def reread : Written C → BaseElement C
  | .base e => e
  | .osc kind id record => ⟨kind, id, read record⟩

/-- What a run wrote of a kind stays as it is in the next one. -/
lemma survivor_reread (hdiff : DiffSorted diff) (hkind : ∀ e ∈ base, e.kind = k) {w : Written C}
    (hw : w ∈ mergedKind diff k base) : (reread read w).kind = k ∧
      (survivor (diff.kind k) (reread read w)).map (reread read) = some (reread read w) := by
  rcases (mem_mergedKind hdiff hkind).mp hw with ⟨e, he, hdel, hid, rfl⟩ | ⟨x, hx, rfl⟩
  · exact ⟨hkind e he, by simp [reread, survivor_untouched hdel hid]⟩
  · have hdel := (hdiff k).disjoint x.1 (mem_ids_of_mem_entries hx)
    exact ⟨rfl, by simp [oscOf, reread, survivor, hdel, lookup_of_entry (hdiff k) hx]⟩

lemma mergedKind_again (hdiff : DiffSorted diff) (hkind : ∀ e ∈ base, e.kind = k) :
    (mergedKind diff k ((mergedKind diff k base).map (reread read))).map (reread read) =
      (mergedKind diff k base).map (reread read) := by
  have hcreates : creates (C := C) (diff.kind k) k
      (((mergedKind diff k base).map (reread read)).map BaseElement.id) = [] := by
    rw [creates, map_eq_nil_iff, filter_eq_nil_iff]
    intro x hx
    have hw : oscOf k x ∈ mergedKind diff k base :=
      (mem_mergedKind hdiff hkind).mpr (.inr ⟨x, hx, rfl⟩)
    simpa using ⟨_, hw, rfl⟩
  have hmerge : mergedKind diff k ((mergedKind diff k base).map (reread read)) =
      ((mergedKind diff k base).map (reread read)).filterMap (survivor (diff.kind k)) := by
    rw [mergedKind, hcreates, merge_right]
  rw [hmerge, filterMap_map, map_filterMap, ← filterMap_eq_map]
  exact filterMap_congr fun w hw => (survivor_reread read hdiff hkind hw).2

lemma kind_written (hdiff : DiffSorted diff) {e : BaseElement C}
    (he : e ∈ (mergedKind diff k (ofKind k base)).map (reread read)) : e.kind = k := by
  obtain ⟨w, hw, rfl⟩ := mem_map.mp he
  exact (survivor_reread read hdiff (fun e he => (mem_ofKind.mp he).2) hw).1

lemma key_reread (w : Written C) : osmIdKey (reread read w).id = w.key := by
  cases w <;> rfl

lemma mergedKind_sorted (hdiff : DiffSorted diff) (hbase : base.Pairwise CanonicalLe) :
    (mergedKind diff k (ofKind k base)).Pairwise fun a b => notAfter a b := by
  apply pairwise_merge
  · intro a b c hab hbc
    exact notAfter_iff.mpr ((notAfter_iff.mp hab).trans (notAfter_iff.mp hbc))
  · intro a b
    rw [Bool.or_eq_true, notAfter_iff, notAfter_iff]
    exact le_total a.key b.key
  · rw [pairwise_filterMap]
    refine (hbase.filter _).imp_of_mem fun {a b} ha hb hab w hw w' hw' => notAfter_iff.mpr ?_
    rw [survivor_key hw, survivor_key hw']
    rcases hab with hlt | ⟨-, hle⟩
    · rw [(mem_ofKind.mp ha).2, (mem_ofKind.mp hb).2] at hlt
      exact absurd hlt (lt_irrefl _)
    · exact hle
  · rw [creates, pairwise_map]
    exact ((entries_sorted (hdiff k)).filter _).imp fun hlt => notAfter_iff.mpr hlt.le

lemma written_canonical (hdiff : DiffSorted diff) (hbase : base.Pairwise CanonicalLe) (lo : Nat) :
    ((mergedKinds diff base (kindsFrom lo 3)).map (reread read)).Pairwise CanonicalLe := by
  rw [mergedKinds, map_flatMap, pairwise_flatMap]
  refine ⟨fun k _ => pairwise_map.mpr ?_, (kindsFrom_ascending lo 3).imp ?_⟩
  · refine (mergedKind_sorted hdiff hbase).imp_of_mem fun {a b} ha hb hab => .inr ⟨?_, ?_⟩
    · rw [kind_written read hdiff (mem_map_of_mem ha), kind_written read hdiff (mem_map_of_mem hb)]
    · rw [OsmLe, key_reread, key_reread]
      exact notAfter_iff.mp hab
  · intro j k hlt x hx y hy
    rw [← kind_written read hdiff hx, ← kind_written read hdiff hy] at hlt
    exact .inl hlt

lemma ofKind_written (hdiff : DiffSorted diff) (lo : Nat) (k : ElementKind) :
    ofKind k ((mergedKinds diff base (kindsFrom lo 3)).map (reread read)) =
      if lo ≤ k.ordinal then (mergedKind diff k (ofKind k base)).map (reread read) else [] := by
  have hpart : ∀ j, ofKind k ((mergedKind diff j (ofKind j base)).map (reread read)) =
      if j = k then (mergedKind diff k (ofKind k base)).map (reread read) else [] := by
    intro j
    split_ifs with hjk
    · subst hjk
      exact filter_eq_self.mpr fun e he => decide_eq_true (kind_written read hdiff he)
    · exact ofKind_eq_nil fun e he hk => hjk ((kind_written read hdiff he).symm.trans hk)
  rw [mergedKinds, map_flatMap, ofKind, filter_flatMap]
  change (kindsFrom lo 3).flatMap (fun j => ofKind k _) = _
  simp only [hpart]
  generalize (mergedKind diff k (ofKind k base)).map (reread read) = part
  rcases lo with _ | _ | _ | lo <;> cases k <;> simp [kindsFrom, ElementKind.ordinal]

end ApplyAgain
