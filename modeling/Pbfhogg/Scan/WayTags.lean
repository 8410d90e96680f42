import Pbfhogg.Read.BlobWire

/-!
# Geocode tags of a way

A way is a street, an addressed building or an interpolation by six tag keys and its highway value.
One pass compares the decoded strings, the other resolves each literal to its first slot in the
string table and compares indices.
-/

namespace WayTags

open List Option

/-- The keys of `GeocodeTagLiterals`. -/
inductive GeocodeKey
  | highway
  | name
  | addrHousenumber
  | addrStreet
  | building
  | addrInterpolation
deriving DecidableEq

structure WayGeocodeFlags where
  isStreet : Bool
  isBuildingAddr : Bool
  isInterp : Bool
deriving DecidableEq

def WayGeocodeFlags.classify
    (highway name excluded building housenumber street interpolation : Bool) : WayGeocodeFlags where
  isStreet := highway && name && !excluded
  isBuildingAddr := building && housenumber && street
  isInterp := interpolation && !housenumber

structure GeocodeTagLiterals where
  key : GeocodeKey → Bytes
  excludedHighwayValues : List Bytes

def geocodeExcludedHighways : List Bytes :=
  ["footway", "path", "track", "steps", "cycleway", "service", "pedestrian", "bridleway",
    "construction"].map BlobWire.utf8Bytes

def GeocodeTagLiterals.standard : GeocodeTagLiterals where
  key
    | .highway => BlobWire.utf8Bytes "highway"
    | .name => BlobWire.utf8Bytes "name"
    | .addrHousenumber => BlobWire.utf8Bytes "addr:housenumber"
    | .addrStreet => BlobWire.utf8Bytes "addr:street"
    | .building => BlobWire.utf8Bytes "building"
    | .addrInterpolation => BlobWire.utf8Bytes "addr:interpolation"
  excludedHighwayValues := geocodeExcludedHighways

/-- What the loop has seen: the keys, and the value of the last highway tag. -/
structure Evidence (ν : Type) where
  has : GeocodeKey → Bool := fun _ => false
  highwayVal : Option ν := none

/-- The order in which a key is compared with the literals. -/
def chain : List GeocodeKey :=
  [.highway, .name, .addrHousenumber, .addrStreet, .building, .addrInterpolation]

namespace Evidence

variable {ν : Type}

/-- One tag: the first literal its key hits is noted. -/
def see (hits : GeocodeKey → Bool) (val : Option ν) (s : Evidence ν) : Evidence ν :=
  match chain.find? hits with
  | none => s
  | some k =>
    { has := fun k' => s.has k' || decide (k' = k)
      highwayVal := if k = .highway then val else s.highwayVal }

end Evidence

/-- `WayGeocodeFlags::classify` on the keys a loop has seen. -/
def flagsOf (has : GeocodeKey → Bool) (excluded : Bool) : WayGeocodeFlags :=
  .classify (has .highway) (has .name) excluded (has .building) (has .addrHousenumber)
    (has .addrStreet) (has .addrInterpolation)

variable (lits : GeocodeTagLiterals)

/-- `classify_way_into`, up to the flags: the decoded tags against the literals. -/
def decodedFlags (tags : List (Bytes × Bytes)) :
    WayGeocodeFlags :=
  let s : Evidence Bytes :=
    tags.foldl (fun s t => s.see (fun k => t.1 == lits.key k) (some t.2)) {}
  flagsOf s.has (s.highwayVal.any fun v => lits.excludedHighwayValues.contains v)

/-- `ResolvedTagIndices`: the slots of the literals, none for one the table lacks. -/
structure ResolvedTagIndices where
  key : GeocodeKey → Option Nat := fun _ => none
  excludedHighwayIndices : Fin 9 → Option Nat := fun _ => none

/-- The loop over the table's entries, with the index of the next one. -/
structure Resolving where
  idx : Nat := 0
  resolved : ResolvedTagIndices := {}

/-- The slot of one literal after an entry: the first entry that matches is kept. -/
def firstMatch (idx : Nat) (isLiteral : Prop) [Decidable isLiteral] (slot : Option Nat) :
    Option Nat :=
  if isLiteral ∧ slot = none then some idx else slot

def resolveEntry (st : Resolving) (s : Bytes) : Resolving where
  idx := st.idx + 1
  resolved :=
    { key := fun k => firstMatch st.idx (s = lits.key k) (st.resolved.key k)
      excludedHighwayIndices := fun i =>
        firstMatch st.idx (lits.excludedHighwayValues[i.val]? = some s)
          (st.resolved.excludedHighwayIndices i) }

def ResolvedTagIndices.anyKeyPresent (r : ResolvedTagIndices) : Bool :=
  chain.any fun k => (r.key k).isSome

/-- One tag of the scanner's loop; the values may have ended. -/
def ResolvedTagIndices.see (r : ResolvedTagIndices) (s : Evidence Nat) (key : Nat)
    (val : Option Nat) : Evidence Nat :=
  s.see (fun k => r.key k == some key) val

/-- The flags of a way whose tags have been seen. -/
def ResolvedTagIndices.flags (r : ResolvedTagIndices) (s : Evidence Nat) : WayGeocodeFlags :=
  flagsOf s.has
    (decide (∃ i, s.highwayVal.isSome ∧ r.excludedHighwayIndices i = s.highwayVal))

lemma firstMatch_idxOf {literal s : Bytes} {table : List Bytes} {idx : Nat}
    (slot : Option Nat) {isLiteral : Prop} [Decidable isLiteral] (h : isLiteral ↔ s = literal) :
    (firstMatch idx isLiteral slot).or ((table.idxOf? literal).map (idx + 1 + ·)) =
      slot.or (((s :: table).idxOf? literal).map (idx + ·)) := by
  rw [idxOf?_cons]
  cases slot with
  | some i => simp [firstMatch]
  | none =>
    by_cases hs : s = literal
    · simp [firstMatch, h, hs]
    · have hne : (s == literal) = false := by simpa using hs
      simp only [firstMatch, h, hs, hne, false_and, if_false, none_or, Bool.false_eq_true]
      cases table.idxOf? literal with
      | none => rfl
      | some i =>
        rw [map_some, map_some, map_some]
        congr 1
        omega

/-- Behind the whole table a literal has the slot of its first entry. -/
theorem foldl_resolveEntry (table : List Bytes)
    (st : Resolving) :
    (table.foldl (resolveEntry lits) st).resolved =
      { key := fun k => (st.resolved.key k).or ((table.idxOf? (lits.key k)).map (st.idx + ·))
        excludedHighwayIndices := fun i => (st.resolved.excludedHighwayIndices i).or
          ((lits.excludedHighwayValues[i.val]?.bind table.idxOf?).map (st.idx + ·)) } := by
  induction table generalizing st with
  | nil => simp [idxOf?_nil]
  | cons s table ih =>
    rw [foldl_cons, ih]
    congr 1
    · funext k
      exact firstMatch_idxOf _ Iff.rfl
    · funext i
      simp only [resolveEntry]
      cases hexcl : lits.excludedHighwayValues[i.val]? with
      | none => simp [firstMatch]
      | some value =>
        exact firstMatch_idxOf _ (by rw [some.injEq, eq_comm])

section Loop

variable {ν τ : Type} {hits : τ → GeocodeKey → Bool}

lemma mem_chain (k : GeocodeKey) : k ∈ chain := by
  cases k <;> decide

lemma see_eq {hits : GeocodeKey → Bool} (hone : ∀ k k', hits k = true → hits k' = true → k = k')
    (val : Option ν) (s : Evidence ν) :
    s.see hits val =
      { has := fun k => s.has k || hits k
        highwayVal := if hits .highway then val else s.highwayVal } := by
  unfold Evidence.see
  cases hfind : chain.find? hits with
  | none =>
    have hnone : ∀ k, hits k = false := by
      intro k
      simpa using find?_eq_none.mp hfind k (mem_chain k)
    simp [hnone]
  | some k =>
    have hk : hits k = true := find?_some hfind
    have hothers : ∀ k', hits k' = decide (k' = k) := by
      intro k'
      rw [Bool.eq_iff_iff, decide_eq_true_iff]
      constructor
      · intro hk'
        exact hone k' k hk' hk
      · rintro rfl
        exact hk
    simp [hothers, eq_comm]

/-- The last tag that hits a key. -/
def lastHit (hits : τ → GeocodeKey → Bool) (k : GeocodeKey) (tags : List τ) : Option τ :=
  (tags.filter fun t => hits t k).getLast?

lemma foldl_see (val : τ → Option ν)
    (hone : ∀ t k k', hits t k = true → hits t k' = true → k = k') (tags : List τ) :
    tags.foldl (fun (s : Evidence ν) t => s.see (hits t) (val t)) {} =
      { has := fun k => tags.any fun t => hits t k
        highwayVal := (lastHit hits .highway tags).bind val } := by
  induction tags using reverseRecOn with
  | nil => rfl
  | append_singleton tags t ih =>
    rw [foldl_concat, ih, see_eq (hone t)]
    have hlast : lastHit hits .highway (tags ++ [t]) =
        if hits t .highway then some t else lastHit hits .highway tags := by
      unfold lastHit
      cases h : hits t .highway <;> simp [filter_append, h]
    rw [hlast]
    cases hits t .highway <;> simp

end Loop

/-- The tags before the first that has an index past the table, as their strings. -/
def decodeTags (table : List Bytes) : List (Nat × Nat) → List (Bytes × Bytes)
  | [] => []
  | (k, v) :: tags =>
    match table[k]?, table[v]? with
    | some key, some value => (key, value) :: decodeTags table tags
    | _, _ => []

section Decision

variable (lits : GeocodeTagLiterals) (table : List Bytes) (tags : List (Nat × Nat))

def nameHits (t : Bytes × Bytes) (k : GeocodeKey) : Bool := t.1 == lits.key k

def slotHits (t : Nat × Nat) (k : GeocodeKey) : Bool := table.idxOf? (lits.key k) == some t.1

variable (k : GeocodeKey)

/-- A decoded tag has the key. -/
def Named : Prop := ∃ t ∈ decodeTags table tags, t.1 = lits.key k

/-- A tag uses the first slot of the key. -/
def Slotted : Prop := ∃ t ∈ tags, table.idxOf? (lits.key k) = some t.1

/-- The key is used by decoded tags, but not through its first slot. -/
def Late : Prop := Named lits table tags k ∧ ¬Slotted lits table tags k

/-- The first slot of the key is used only by tags that are not decoded. -/
def Stray : Prop := Slotted lits table tags k ∧ ¬Named lits table tags k

/-- The last decoded highway tag has an excluded value. -/
def NamedBar : Prop :=
  ∃ t, lastHit (nameHits lits) .highway (decodeTags table tags) = some t ∧
    t.2 ∈ lits.excludedHighwayValues

/-- The last tag on the first highway slot has the first slot of an excluded value. -/
def SlottedBar : Prop :=
  ∃ t, lastHit (slotHits lits table) .highway tags = some t ∧
    ∃ value ∈ lits.excludedHighwayValues, table.idxOf? value = some t.2

/-- The keys of an addressed building. -/
def addressed : List GeocodeKey := [.building, .addrHousenumber, .addrStreet]

/-- No flag of the way turns on a late key, a stray tag, or a highway value read differently. -/
structure SlotsDecide : Prop where
  street_late : Named lits table tags .highway → Named lits table tags .name →
    ¬NamedBar lits table tags →
      ¬Late lits table tags .highway ∧ ¬Late lits table tags .name ∧ ¬SlottedBar lits table tags
  street_stray : Slotted lits table tags .highway → Slotted lits table tags .name →
    ¬SlottedBar lits table tags →
      ¬Stray lits table tags .highway ∧ ¬Stray lits table tags .name ∧ ¬NamedBar lits table tags
  building_late : (∀ k ∈ addressed, Named lits table tags k) →
    ∀ k ∈ addressed, ¬Late lits table tags k
  building_stray : (∀ k ∈ addressed, Slotted lits table tags k) →
    ∀ k ∈ addressed, ¬Stray lits table tags k
  interp_late : Named lits table tags .addrInterpolation →
    ¬Named lits table tags .addrHousenumber →
      ¬Late lits table tags .addrInterpolation ∧ ¬Stray lits table tags .addrHousenumber
  interp_stray : Slotted lits table tags .addrInterpolation →
    ¬Slotted lits table tags .addrHousenumber →
      ¬Stray lits table tags .addrInterpolation ∧ ¬Late lits table tags .addrHousenumber

end Decision

section Agreement

variable {lits : GeocodeTagLiterals} {table : List Bytes} {tags : List (Nat × Nat)}

lemma decodedFlags_eq (hkeys : ∀ k k', lits.key k = lits.key k' → k = k')
    (strings : List (Bytes × Bytes)) :
    decodedFlags lits strings =
      flagsOf (fun k => strings.any fun t => nameHits lits t k)
        ((lastHit (nameHits lits) .highway strings).any
          fun t => lits.excludedHighwayValues.contains t.2) := by
  have hone : ∀ t k k', nameHits lits t k = true → nameHits lits t k' = true → k = k' := by
    intro t k k' hk hk'
    simp only [nameHits, beq_iff_eq] at hk hk'
    exact hkeys k k' (hk.symm.trans hk')
  have hfold : strings.foldl (fun (s : Evidence Bytes) t =>
      s.see (fun k => t.1 == lits.key k) (some t.2)) {} = _ :=
    foldl_see (fun t => some t.2) hone strings
  unfold decodedFlags
  rw [hfold]
  cases lastHit (nameHits lits) .highway strings <;> rfl

lemma slot_eq {i : Nat} {literal : Bytes} (h : table.idxOf? literal = some i) :
    table[i]? = some literal := by
  obtain ⟨hlt, hget, -⟩ := idxOf?_eq_some_iff.mp h
  rw [getElem?_eq_getElem hlt, hget]

lemma slotFlags_eq (hkeys : ∀ k k', lits.key k = lits.key k' → k = k')
    (hroom : lits.excludedHighwayValues.length ≤ 9) :
    let r := (table.foldl (resolveEntry lits) {}).resolved
    r.flags (tags.foldl (fun s t => r.see s t.1 (some t.2)) {}) =
      flagsOf (fun k => tags.any fun t => slotHits lits table t k)
        ((lastHit (slotHits lits table) .highway tags).any fun t =>
          lits.excludedHighwayValues.any fun value => table.idxOf? value == some t.2) := by
  intro r
  have hr : r = ⟨fun k => table.idxOf? (lits.key k),
      fun i => lits.excludedHighwayValues[i.val]?.bind table.idxOf?⟩ := by
    have hfold := foldl_resolveEntry lits table {}
    simpa using hfold
  have hone : ∀ t k k', slotHits lits table t k = true → slotHits lits table t k' = true →
      k = k' := by
    intro t k k' hk hk'
    simp only [slotHits, beq_iff_eq] at hk hk'
    have hsame := (slot_eq hk).symm.trans (slot_eq hk')
    exact hkeys k k' (some.inj hsame)
  have hfold : tags.foldl (fun s t => r.see s t.1 (some t.2)) {} =
      (⟨fun k => tags.any fun t => slotHits lits table t k,
        (lastHit (slotHits lits table) .highway tags).bind fun t => some t.2⟩ : Evidence Nat) := by
    rw [hr]
    exact foldl_see (fun t => some t.2) hone tags
  rw [ResolvedTagIndices.flags, hfold]
  congr 1
  rw [hr]
  cases lastHit (slotHits lits table) .highway tags with
  | none => simp
  | some t =>
    rw [Bool.eq_iff_iff]
    simp only [bind_some, isSome_some, true_and, decide_eq_true_iff, any_some,
      List.any_eq_true, beq_iff_eq]
    constructor
    · rintro ⟨i, hi⟩
      obtain ⟨value, hvalue, hslot⟩ := bind_eq_some_iff.mp hi
      exact ⟨value, List.mem_of_getElem? hvalue, hslot⟩
    · rintro ⟨value, hvalue, hslot⟩
      obtain ⟨i, hi, hget⟩ := List.getElem_of_mem hvalue
      refine ⟨⟨i, by omega⟩, ?_⟩
      rw [getElem?_eq_getElem hi, hget]
      exact hslot

lemma any_nameHits {k : GeocodeKey} :
    ((decodeTags table tags).any fun t => nameHits lits t k) = true ↔
      Named lits table tags k := by
  simp [Named, nameHits]

lemma any_slotHits {k : GeocodeKey} :
    (tags.any fun t => slotHits lits table t k) = true ↔ Slotted lits table tags k := by
  simp [Slotted, slotHits]

lemma any_nameBar :
    ((lastHit (nameHits lits) .highway (decodeTags table tags)).any fun t =>
      lits.excludedHighwayValues.contains t.2) = true ↔ NamedBar lits table tags := by
  simp [NamedBar, Option.any_eq_true]

lemma any_slotBar :
    ((lastHit (slotHits lits table) .highway tags).any fun t =>
      lits.excludedHighwayValues.any fun value => table.idxOf? value == some t.2) = true ↔
        SlottedBar lits table tags := by
  simp [SlottedBar, Option.any_eq_true]

lemma and3_eq_iff {a b c a' b' c' : Bool} :
    (a && b && c) = (a' && b' && c') ↔
      ((a = true ∧ b = true ∧ c = true) ↔ (a' = true ∧ b' = true ∧ c' = true)) := by
  rw [Bool.eq_iff_iff]
  simp only [Bool.and_eq_true, and_assoc]

lemma flagsOf_eq_iff {has has' : GeocodeKey → Bool} {ex ex' : Bool} :
    flagsOf has ex = flagsOf has' ex' ↔
      ((has .highway = true ∧ has .name = true ∧ ¬ex = true) ↔
        (has' .highway = true ∧ has' .name = true ∧ ¬ex' = true)) ∧
      ((∀ k ∈ addressed, has k = true) ↔ ∀ k ∈ addressed, has' k = true) ∧
      ((has .addrInterpolation = true ∧ ¬has .addrHousenumber = true) ↔
        (has' .addrInterpolation = true ∧ ¬has' .addrHousenumber = true)) := by
  have hall : ∀ f : GeocodeKey → Bool, (∀ k ∈ addressed, f k = true) ↔
      f .building = true ∧ f .addrHousenumber = true ∧ f .addrStreet = true := by
    intro f
    simp [addressed]
  simp only [flagsOf, WayGeocodeFlags.classify, WayGeocodeFlags.mk.injEq, and3_eq_iff, hall,
    Bool.not_eq_true, Bool.not_eq_true']
  have hinterp : ∀ a b c d : Bool, ((a && !b) = (c && !d) ↔
      ((a = true ∧ b = false) ↔ (c = true ∧ d = false))) := by decide
  rw [hinterp]

/-- The slots decide as the strings do exactly where no flag turns on their difference. -/
theorem slotFlags_eq_decodedFlags (hkeys : ∀ k k', lits.key k = lits.key k' → k = k')
    (hroom : lits.excludedHighwayValues.length ≤ 9) :
    let r := (table.foldl (resolveEntry lits) {}).resolved
    r.flags (tags.foldl (fun s t => r.see s t.1 (some t.2)) {}) =
      decodedFlags lits (decodeTags table tags) ↔ SlotsDecide lits table tags := by
  intro r
  rw [slotFlags_eq hkeys hroom, decodedFlags_eq hkeys, flagsOf_eq_iff]
  simp only [any_nameHits, any_slotHits, any_nameBar, any_slotBar]
  constructor
  · rintro ⟨hstreet, hbuilding, hinterp⟩
    exact
      { street_late := fun hhighway hname hbar => by
          obtain ⟨hslot, hslot', hopen⟩ := hstreet.mpr ⟨hhighway, hname, hbar⟩
          exact ⟨fun h => h.2 hslot, fun h => h.2 hslot', hopen⟩
        street_stray := fun hhighway hname hbar => by
          obtain ⟨hnamed, hnamed', hopen⟩ := hstreet.mp ⟨hhighway, hname, hbar⟩
          exact ⟨fun h => h.2 hnamed, fun h => h.2 hnamed', hopen⟩
        building_late := fun hall k hk h => h.2 (hbuilding.mpr hall k hk)
        building_stray := fun hall k hk h => h.2 (hbuilding.mp hall k hk)
        interp_late := fun hinter hhouse => by
          obtain ⟨hslot, hno⟩ := hinterp.mpr ⟨hinter, hhouse⟩
          exact ⟨fun h => h.2 hslot, fun h => hno h.1⟩
        interp_stray := fun hinter hhouse => by
          obtain ⟨hnamed, hno⟩ := hinterp.mp ⟨hinter, hhouse⟩
          exact ⟨fun h => h.2 hnamed, fun h => hno h.1⟩ }
  · intro h
    refine ⟨⟨?_, ?_⟩, ⟨?_, ?_⟩, ⟨?_, ?_⟩⟩
    · rintro ⟨hhighway, hname, hbar⟩
      obtain ⟨h1, h2, h3⟩ := h.street_stray hhighway hname hbar
      simp only [Stray, not_and, not_not] at h1 h2
      exact ⟨h1 hhighway, h2 hname, h3⟩
    · rintro ⟨hhighway, hname, hbar⟩
      obtain ⟨h1, h2, h3⟩ := h.street_late hhighway hname hbar
      simp only [Late, not_and, not_not] at h1 h2
      exact ⟨h1 hhighway, h2 hname, h3⟩
    · intro hall k hk
      have hno := h.building_stray hall k hk
      simp only [Stray, not_and, not_not] at hno
      exact hno (hall k hk)
    · intro hall k hk
      have hno := h.building_late hall k hk
      simp only [Late, not_and, not_not] at hno
      exact hno (hall k hk)
    · rintro ⟨hinter, hhouse⟩
      obtain ⟨h1, h2⟩ := h.interp_stray hinter hhouse
      simp only [Stray, not_and, not_not] at h1
      exact ⟨h1 hinter, fun hnamed => h2 ⟨hnamed, hhouse⟩⟩
    · rintro ⟨hinter, hhouse⟩
      obtain ⟨h1, h2⟩ := h.interp_late hinter hhouse
      simp only [Late, not_and, not_not] at h1
      exact ⟨h1 hinter, fun hslot => h2 ⟨hslot, hhouse⟩⟩

end Agreement

end WayTags
