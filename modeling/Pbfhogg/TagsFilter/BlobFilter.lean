import Pbfhogg.TagsFilter.Expr

/-!
# Skipping blobs by their sidecars

The tag index of a blob (`blob_meta/tag_index.rs`), the `BlobFilter` of `blob_meta/mod.rs` without
its box, and `blob_filter_from_expressions`. A blob that is skipped holds no direct match.
-/

namespace BlobFilter

open OsmId BlobMeta TagExpr List

/-- The keys of a blob, ascending. -/
structure TagIndex where
  keys : List Str
  sorted : keys.Pairwise (· < ·)

namespace TagIndex

def version : UInt8 := 0x01

def u16Le (lo hi : UInt8) : Nat := lo.toNat + 256 * hi.toNat

/-- The records of `deserialize`, each key above the one before it, up to the end of the data. -/
def records : Nat → Option Str → List UInt8 → Option (List Str)
  | 0, _, [] => some []
  | 0, _, _ :: _ => none
  | n + 1, prev, lo :: hi :: data =>
    if data.length < u16Le lo hi then none
    else
      let key := data.take (u16Le lo hi)
      if prev.any (fun p => decide (key ≤ p)) then none
      else (records n (some key) (data.drop (u16Le lo hi))).map (key :: ·)
  | _ + 1, _, _ => none

lemma records_sorted : ∀ (n : Nat) (prev : Option Str) (data : List UInt8) (keys : List Str),
    records n prev data = some keys →
      keys.Pairwise (· < ·) ∧ ∀ p, prev = some p → ∀ k ∈ keys, p < k := by
  intro n
  induction n with
  | zero =>
    intro prev data keys h
    cases data with
    | nil =>
      cases h
      exact ⟨List.Pairwise.nil, fun _ _ k hk => nomatch hk⟩
    | cons b data => cases h
  | succ n ih =>
    intro prev data keys h
    match data, h with
    | lo :: hi :: data, h =>
      simp only [records] at h
      split at h
      · cases h
      · split at h
        · cases h
        · next hprev =>
          obtain ⟨tail, htail, rfl⟩ := Option.map_eq_some_iff.mp h
          obtain ⟨hsorted, habove⟩ := ih _ _ _ htail
          have hkey := habove _ rfl
          refine ⟨pairwise_cons.mpr ⟨hkey, hsorted⟩, ?_⟩
          rintro p rfl k hk
          have hlt : p < data.take (u16Le lo hi) := by
            simpa [Option.any] using hprev
          rcases mem_cons.mp hk with rfl | hk
          · exact hlt
          · exact List.lt_trans hlt (hkey k hk)

def deserialize : List UInt8 → Option TagIndex
  | v :: lo :: hi :: data =>
    if v ≠ version then none
    else if data.length / 2 < u16Le lo hi then none
    else
      match h : records (u16Le lo hi) none data with
      | none => none
      | some keys => some ⟨keys, (records_sorted _ _ _ _ h).1⟩
  | _ => none

/-- `binary_search` of a sorted list. -/
def hasAnyKey (t : TagIndex) (required : List Str) : Bool := required.any fun k => k ∈ t.keys

def hasAnyPrefix (t : TagIndex) (prefixes : List Str) : Bool :=
  prefixes.any fun p =>
    match t.keys.dropWhile (fun k => decide (k < p)) with
    | [] => false
    | k :: _ => decide (p <+: k)

lemma startsWith_between {p k r : Str} (hle : p ≤ k) (hk : k ≤ p ++ r) : p <+: k := by
  induction p generalizing k with
  | nil => exact nil_prefix
  | cons a p ih =>
    cases k with
    | nil => exact absurd hle (by simp)
    | cons b k =>
      rw [cons_le_cons_iff] at hle
      rw [cons_append, cons_le_cons_iff] at hk
      rcases hle with hab | ⟨rfl, hle⟩
      · rcases hk with hba | ⟨rfl, -⟩
        · exact absurd (UInt8.lt_trans hab hba) (UInt8.lt_irrefl a)
        · exact absurd hab (UInt8.lt_irrefl _)
      · rcases hk with haa | ⟨-, hk⟩
        · exact absurd haa (UInt8.lt_irrefl _)
        · exact cons_prefix_cons.mpr ⟨rfl, ih hle hk⟩

lemma startsWith_le {p k : Str} (h : p <+: k) : p ≤ k := by
  obtain ⟨r, rfl⟩ := h
  exact le_append_left

/-- The first key that does not lie below `p`. -/
theorem dropWhile_first {p k : Str} (hp : p ≤ k) : ∀ keys : List Str, keys.Pairwise (· < ·) →
    k ∈ keys → ∃ k' rest, keys.dropWhile (fun x => decide (x < p)) = k' :: rest ∧ p ≤ k' ∧
      k' ≤ k := by
  intro keys
  induction keys with
  | nil =>
    intro _ hk
    cases hk
  | cons x keys ih =>
    intro hsorted hk
    obtain ⟨hx, hsorted⟩ := pairwise_cons.mp hsorted
    by_cases hxp : x < p
    · have hne : k ≠ x := by
        rintro rfl
        exact hp hxp
      rw [dropWhile_cons_of_pos (by simpa using hxp)]
      exact ih hsorted (mem_of_ne_of_mem hne hk)
    · rw [dropWhile_cons_of_neg (by simpa using hxp)]
      refine ⟨x, keys, rfl, hxp, ?_⟩
      rcases mem_cons.mp hk with rfl | hk
      · exact List.le_refl _
      · exact List.le_of_lt (hx k hk)

lemma hasAnyPrefix_iff {t : TagIndex} {prefixes : List Str} :
    t.hasAnyPrefix prefixes = true ↔ ∃ p ∈ prefixes, ∃ k ∈ t.keys, p <+: k := by
  rw [hasAnyPrefix, any_eq_true]
  refine exists_congr fun p => and_congr_right fun _ => ?_
  constructor
  · intro h
    split at h
    · cases h
    · next k rest hkeys =>
      have hmem : k ∈ t.keys :=
        (dropWhile_sublist _).subset (hkeys ▸ mem_cons_self)
      exact ⟨k, hmem, of_decide_eq_true h⟩
  · rintro ⟨k, hk, hpk⟩
    obtain ⟨k', rest, hkeys, hle, hk'⟩ := dropWhile_first (startsWith_le hpk) t.keys t.sorted hk
    obtain ⟨r, rfl⟩ := hpk
    rw [hkeys]
    exact decide_eq_true (startsWith_between hle hk')

lemma hasAnyKey_iff {t : TagIndex} {required : List Str} :
    t.hasAnyKey required = true ↔ ∃ k ∈ required, k ∈ t.keys := by
  simp [hasAnyKey]

end TagIndex

structure Filter where
  wantNodes : Bool
  wantWays : Bool
  wantRelations : Bool
  requiredTagKeys : Option (List Str) := none
  requiredTagPrefixes : Option (List Str) := none

namespace Filter

variable (f : Filter)

def wants : ElementKind → Bool
  | .node => f.wantNodes
  | .way => f.wantWays
  | .relation => f.wantRelations

def usesIndex : Bool := !(f.wantNodes && f.wantWays && f.wantRelations)

def wantsIndex (index : BlobIndex) : Bool := f.wants index.kind

def hasTagFilter : Bool := f.requiredTagKeys.isSome || f.requiredTagPrefixes.isSome

def wantsTagIndex (t : TagIndex) : Bool :=
  f.requiredTagKeys.any t.hasAnyKey || f.requiredTagPrefixes.any t.hasAnyPrefix || !f.hasTagFilter

end Filter

/-- Whether the filter skips a blob (`blob_filter_check`, `should_skip_blob`). -/
def blobFilterCheck (index : Option BlobIndex) (tagdata : Option (List UInt8))
    (filter : Option Filter) : Bool :=
  match filter with
  | none => false
  | some f =>
    index.any (fun idx => !f.wants idx.kind) ||
      (f.hasTagFilter && (tagdata.bind TagIndex.deserialize).any fun t => !f.wantsTagIndex t)

variable (m : StringMatcher)

def exactKeys : List Str :=
  match m with
  | .equal key => [key]
  | .list alternatives => alternatives
  | _ => []

def keyPrefixes : List Str :=
  match m with
  | .prefixed p => [p]
  | _ => []

/-- The key matcher cannot be put as a set of keys and starts of keys. -/
def unconstrained : Bool :=
  match m with
  | .substring _ => true
  | .always => true
  | _ => false

variable (expressions : List Expression)

def keyUnconstrained : Bool :=
  expressions.any fun e => unconstrained e.matcher.key

def requiredKeys : List Str :=
  if keyUnconstrained expressions then []
  else expressions.flatMap fun e => exactKeys e.matcher.key

def requiredPrefixes : List Str :=
  if keyUnconstrained expressions then []
  else expressions.flatMap fun e => keyPrefixes e.matcher.key

/-- An empty set of keys or of starts is left out of the filter. -/
def unlessEmpty (l : List Str) : Option (List Str) := if l.isEmpty then none else some l

def blobFilterFromExpressions : Option Filter :=
  let needNodes := expressions.any (·.typeFilter.nodes)
  let needWays := expressions.any (·.typeFilter.ways)
  let needRelations := expressions.any (·.typeFilter.relations)
  let keys := requiredKeys expressions
  let prefixes := requiredPrefixes expressions
  if (needNodes && needWays && needRelations) && !(!keys.isEmpty || !prefixes.isEmpty) then none
  else
    some
      { wantNodes := needNodes
        wantWays := needWays
        wantRelations := needRelations
        requiredTagKeys := unlessEmpty keys
        requiredTagPrefixes := unlessEmpty prefixes }

def trustedBlobFilter (invert distrustMetadata : Bool) :
    Option Filter :=
  if invert || distrustMetadata then none else blobFilterFromExpressions expressions

/-- A matching key is among the keys or under one of the starts, or the matcher takes any key. -/
theorem accepts_key {m : StringMatcher} {key : Str} (h : m.accepts key = true)
    (hconstrained : unconstrained m = false) :
    key ∈ exactKeys m ∨ ∃ p ∈ keyPrefixes m, p <+: key := by
  cases m with
  | always => cases hconstrained
  | substring sub => cases hconstrained
  | equal v => exact .inl (mem_singleton.mpr (eq_of_beq h))
  | list vs =>
    obtain ⟨v, hv, heq⟩ := any_eq_true.mp h
    exact .inl (eq_of_beq heq ▸ hv)
  | prefixed p => exact .inr ⟨p, mem_singleton_self p, of_decide_eq_true h⟩

variable {expressions : List Expression}

lemma filter_fields {f : Filter} (h : blobFilterFromExpressions expressions = some f) :
    f.wantNodes = expressions.any (·.typeFilter.nodes) ∧
      f.wantWays = expressions.any (·.typeFilter.ways) ∧
      f.wantRelations = expressions.any (·.typeFilter.relations) ∧
      f.requiredTagKeys = unlessEmpty (requiredKeys expressions) ∧
      f.requiredTagPrefixes = unlessEmpty (requiredPrefixes expressions) := by
  simp only [blobFilterFromExpressions] at h
  split at h
  · cases h
  · cases h
    exact ⟨rfl, rfl, rfl, rfl, rfl⟩

lemma wants_of_admits {f : Filter} (h : blobFilterFromExpressions expressions = some f)
    {e : Expression} (he : e ∈ expressions) {kind : ElementKind}
    (hkind : e.typeFilter.admits kind = true) : f.wants kind = true := by
  obtain ⟨hnodes, hways, hrelations, -, -⟩ := filter_fields h
  cases kind with
  | node => exact hnodes.trans (any_eq_true.mpr ⟨e, he, hkind⟩)
  | way => exact hways.trans (any_eq_true.mpr ⟨e, he, hkind⟩)
  | relation => exact hrelations.trans (any_eq_true.mpr ⟨e, he, hkind⟩)

lemma any_unlessEmpty {l : List Str} {p : List Str → Bool} {x : Str} (hx : x ∈ l)
    (hp : p l = true) : (unlessEmpty l).any p = true := by
  have hne : l.isEmpty = false := isEmpty_eq_false_iff.mpr (ne_nil_of_mem hx)
  simp [unlessEmpty, hne, hp]

lemma wantsTagIndex_of_key {f : Filter} (h : blobFilterFromExpressions expressions = some f)
    {e : Expression} (he : e ∈ expressions) {key : Str} (hkey : e.matcher.key.accepts key = true)
    {t : TagIndex} (ht : key ∈ t.keys) : f.wantsTagIndex t = true := by
  obtain ⟨-, -, -, hkeys, hprefixes⟩ := filter_fields h
  simp only [Filter.wantsTagIndex, Filter.hasTagFilter, hkeys, hprefixes, Bool.or_eq_true]
  by_cases hfree : keyUnconstrained expressions = true
  · exact .inr (by simp [requiredKeys, requiredPrefixes, hfree, unlessEmpty])
  · have hconstrained : unconstrained e.matcher.key = false := by
      by_contra hany
      exact hfree (any_eq_true.mpr ⟨e, he, Bool.eq_true_of_not_eq_false hany⟩)
    rcases accepts_key hkey hconstrained with hexact | ⟨p, hp, hstart⟩
    · have hmem : key ∈ requiredKeys expressions := by
        rw [requiredKeys, if_neg hfree]
        exact mem_flatMap.mpr ⟨e, he, hexact⟩
      exact .inl (.inl (any_unlessEmpty hmem (TagIndex.hasAnyKey_iff.mpr ⟨key, hmem, ht⟩)))
    · have hmem : p ∈ requiredPrefixes expressions := by
        rw [requiredPrefixes, if_neg hfree]
        exact mem_flatMap.mpr ⟨e, he, hp⟩
      exact .inl (.inr (any_unlessEmpty hmem
        (TagIndex.hasAnyPrefix_iff.mpr ⟨p, hmem, key, ht, hstart⟩)))

lemma any_some {α : Type} {o : Option α} {p : α → Bool} (h : o.any p = true) :
    ∃ a, o = some a ∧ p a = true := by
  cases o with
  | none => cases h
  | some a => exact ⟨a, rfl, h⟩

/-- The sidecars claim the kind of every element and list every key. -/
structure Truthful (index : Option BlobIndex) (tagdata : Option (List UInt8))
    (elements : List (ElementKind × List (Str × Str))) : Prop where
  kind : ∀ idx, index = some idx → ∀ e ∈ elements, e.1 = idx.kind
  keys : ∀ t, tagdata.bind TagIndex.deserialize = some t → ∀ e ∈ elements, ∀ tag ∈ e.2,
    tag.1 ∈ t.keys

lemma skipped_no_match {index : Option BlobIndex} {tagdata : Option (List UInt8)}
    {elements : List (ElementKind × List (Str × Str))} (htrue : Truthful index tagdata elements)
    (hskip : blobFilterCheck index tagdata (blobFilterFromExpressions expressions) = true) :
    ∀ e ∈ elements, elementMatches expressions e.2 e.1 = false := by
  intro e he
  by_contra hmatch
  obtain ⟨x, hx, hkind, tag, htag, hmatches⟩ :=
    elementMatches_iff.mp (Bool.eq_true_of_not_eq_false hmatch)
  have hkey : x.matcher.key.accepts tag.1 = true := by
    simp only [tagMatches, Bool.and_eq_true] at hmatches
    exact hmatches.1
  cases hfilter : blobFilterFromExpressions expressions with
  | none =>
    rw [hfilter] at hskip
    cases hskip
  | some f =>
    rw [hfilter] at hskip
    simp only [blobFilterCheck, Bool.or_eq_true, Bool.and_eq_true] at hskip
    rcases hskip with hindex | ⟨-, htags⟩
    · obtain ⟨idx, hidx, hwant⟩ := any_some hindex
      rw [← htrue.kind idx hidx e he, wants_of_admits hfilter hx hkind] at hwant
      cases hwant
    · obtain ⟨t, ht, hwant⟩ := any_some htags
      rw [wantsTagIndex_of_key hfilter hx hkey (htrue.keys t ht e he tag htag)] at hwant
      cases hwant

end BlobFilter
