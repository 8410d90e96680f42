import Pbfhogg.Read.Accessors
import Pbfhogg.Read.TagRuns

/-!
# Walking a block in full

What the validation of a block promises to every later walk. Each iterator gets to the end of its
arrays, parallel arrays end together, the runs of `keys_vals` are the dense nodes' tags, and the
elements are as many and of the kinds that validation counted. A string index past the table is no
matter of validation.
-/

namespace WholeWalk

open Protohoggr FieldWalk WireMessages PackedCount BlockScan BlockValid Elements Accessors Fallible Varint TagRuns NodeScan WayTags WayScan List

variable {pairs : List (Nat × Nat)} {data element : Bytes}

/-- The first index of a list of tags that lies past the table. -/
def firstOutside (table : List Bytes) : List (Nat × Nat) → Option Nat
  | [] => none
  | (key, val) :: pairs =>
    if table.length ≤ key then some key
    else if table.length ≤ val then some val
    else firstOutside table pairs

section Whole

variable (ph : Crate) (b : WireBlock) (table : List Bytes)

/-- What a checked tag iterator yields of the tags. -/
def checkedOf (pairs : List (Nat × Nat)) : CheckedTags :=
  (decodeTags table pairs, (firstOutside table pairs).map .stringtableIndexOutOfBounds)

/-- The tag iterators of two arrays read both to their ends. -/
structure TagsWhole (t : TagArrays) (pairs : List (Nat × Nat)) : Prop where
  keys : Values t.keysData (pairs.map Prod.fst)
  vals : Values t.valsData (pairs.map Prod.snd)
  indices : ∀ p ∈ pairs, p.1 < 2 ^ 32 ∧ p.2 < 2 ^ 32
  rawTags : t.rawTags ph = .ok (pairs.map fun p => (UInt32.ofNat p.1, UInt32.ofNat p.2))
  tags : t.tags ph b = .ok (decodeTags table pairs)
  checked : t.tagsChecked ph b = .ok (checkedOf table pairs)

/-- The tag iterators of a dense node read its run to the end. -/
structure DenseTagsWhole (n : DenseNode) (pairs : List (Nat × Nat)) : Prop where
  values : Values n.tagBytes (flat pairs)
  indices : ∀ p ∈ pairs, p.1 < 2 ^ 31 ∧ p.2 < 2 ^ 31
  rawTags : denseRawTags ph n = .ok (pairs.map fun p => (Int32.ofNat p.1, Int32.ofNat p.2))
  tags : denseTags ph b n = .ok (decodeTags table pairs)
  checked : denseTagsChecked ph b n = .ok (checkedOf table pairs)

/-- The references and the locations of a way, to the ends of their arrays. -/
def WayWhole (w : Way) : Prop :=
  ∃ refs lats lons, WayOk w.way refs lats lons ∧ (wayRefs ph w).length = refs.length ∧
    ∃ locations, nodeLocations ph w = .ok locations ∧ locations.length = lats.length

/-- The members of a relation, to the ends of their arrays. -/
def MembersWhole (r : WireRelation) : Prop :=
  ∃ roles ids types, Values r.rolesSidData roles ∧ Values r.memidsData ids ∧
    Values r.typesData types ∧
    ∃ ms, members ph r = .ok ms ∧ ms.length = roles.length ∧ ms.length = ids.length ∧
      ms.length = types.length

def InfoWhole (infoData : Option Bytes) : Prop :=
  ∃ info, validatedInfo ph infoData = .ok info

/-- Every iterator of an element gets through. -/
def ElementWhole : Element → Prop
  | .node n => InfoWhole ph n.node.infoData ∧
      ∃ pairs, TagsWhole ph b table ⟨n.node.keysData, n.node.valsData⟩ pairs
  | .denseNode n => ∃ pairs, DenseTagsWhole ph b table n pairs
  | .way w => InfoWhole ph w.way.infoData ∧
      (∃ pairs, TagsWhole ph b table ⟨w.way.keysData, w.way.valsData⟩ pairs) ∧ WayWhole ph w
  | .relation r => InfoWhole ph r.relation.infoData ∧
      (∃ pairs, TagsWhole ph b table ⟨r.relation.keysData, r.relation.valsData⟩ pairs) ∧
        MembersWhole ph r.relation

/-- The nodes of a dense message use up its arrays, and all carry metadata or none does. -/
structure DenseWhole (dense : WireDenseNodes) (nodes : List DenseNode) : Prop where
  ids : ∃ vs, Values dense.idData vs ∧ vs.length = nodes.length
  lats : ∃ vs, Values dense.latData vs ∧ vs.length = nodes.length
  lons : ∃ vs, Values dense.lonData vs ∧ vs.length = nodes.length
  runs : ∃ runs, IsRuns dense.keysValsData runs ∧
    (dense.keysValsData = [] ∨ runs.length = nodes.length) ∧
    List.Forall₂ (DenseTagsWhole ph b table) nodes
      (runs ++ replicate (nodes.length - runs.length) [])
  metadata : (∀ n ∈ nodes, n.info.isSome = true) ∨ ∀ n ∈ nodes, n.info = none

/-- The message iterators of a group end at its end, and so does its dense iterator. -/
structure GroupWhole (fields : BlockFields) (group : Bytes) : Prop where
  messages : ∀ target, Messages ph target group (messages ph target group)
  dense : ∃ message, validatedDense ph group = .ok message ∧
    ∀ dense ∈ message, ∃ nodes, denseNodes ph fields dense = .ok nodes ∧
      DenseWhole ph b table dense nodes

/-- An element as the iterator that skips metadata yields it. -/
def withoutInfo : Element → Element
  | .denseNode n => .denseNode { n with info := none }
  | e => e

end Whole

/-- A block whose every walk gets through, with its strings, groups and elements. -/
structure WalksWhole (ph : Crate) (block : PrimitiveBlock) (table groups : List Bytes)
    (es : List Element) : Prop where
  strings : ∀ i, block.block.stringGet i = .ok table[i]?
  listed : block.block.groups = .ok groups
  walked : elements ph block = .ok es
  skipping : elementsSkipMetadata ph block = .ok (es.map withoutInfo)
  count : es.length = block.elementCount
  kinds : ∀ kind, block.kinds.has kind = true ↔ ∃ e ∈ es, elementKind e = kind
  group : ∀ group ∈ groups, GroupWhole ph block.block table block.block.fields group
  element : ∀ e ∈ es, ElementWhole ph block.block table e

section Iterators

variable {ph : Crate} {b : WireBlock} {table : List Bytes}

/-- A tag is resolved to the strings of its indices, or refused by the first that has none. -/
theorem resolveTag_cases (hstrings : ∀ i, b.stringGet i = .ok table[i]?) (key val : Nat) :
    (∃ tag, resolveTag b key val = .ok (.ok tag) ∧ ∀ pairs, checkedOf table ((key, val) :: pairs) =
          (tag :: (checkedOf table pairs).1, (checkedOf table pairs).2)) ∨
      ∃ i, resolveTag b key val = .ok (.error (.stringtableIndexOutOfBounds i)) ∧ ∀ pairs,
        checkedOf table ((key, val) :: pairs) = ([], some (.stringtableIndexOutOfBounds i)) := by
  have hread : ∀ i, strFromStringtable b i =
      .ok (table[i]?.elim (.error (.stringtableIndexOutOfBounds i)) .ok) := by
    intro i
    rw [strFromStringtable, hstrings]
    rfl
  rw [resolveTag, hread, hread, ok_bind, ok_bind]
  by_cases hkey : table.length ≤ key
  · right
    refine ⟨key, ?_, fun pairs => ?_⟩
    · rw [getElem?_eq_none hkey]
      rfl
    · rw [checkedOf, decodeTags, firstOutside, if_pos hkey, getElem?_eq_none hkey]
      rfl
  · have hkeyget := getElem?_eq_getElem (l := table) (i := key) (by omega)
    by_cases hval : table.length ≤ val
    · right
      refine ⟨val, ?_, fun pairs => ?_⟩
      · rw [hkeyget, getElem?_eq_none hval]
        rfl
      · rw [checkedOf, decodeTags, firstOutside, if_neg hkey, if_pos hval, hkeyget,
          getElem?_eq_none hval]
        rfl
    · have hvalget := getElem?_eq_getElem (l := table) (i := val) (by omega)
      left
      refine ⟨(table[key], table[val]), ?_, fun pairs => ?_⟩
      · rw [hkeyget, hvalget]
        rfl
      · rw [checkedOf, decodeTags, firstOutside, if_neg hkey, if_neg hval, hkeyget, hvalget]
        rfl

lemma rawTagsFrom_eq (pairs : List (Nat × Nat)) :
    rawTagsFrom ((pairs.map Prod.fst).map asUint32) ((pairs.map Prod.snd).map asUint32) =
      .ok (pairs.map fun p => (UInt32.ofNat p.1, UInt32.ofNat p.2)) := by
  induction pairs with
  | nil => rfl
  | cons p pairs ih =>
    simp only [map_cons, rawTagsFrom, ih]
    rfl

lemma checkedTagsFrom_eq (hstrings : ∀ i, b.stringGet i = .ok table[i]?)
    (hindices : ∀ p ∈ pairs, p.1 < 2 ^ 32 ∧ p.2 < 2 ^ 32) :
    checkedTagsFrom b ((pairs.map Prod.fst).map asUint32) ((pairs.map Prod.snd).map asUint32) =
      .ok (checkedOf table pairs) := by
  induction pairs with
  | nil => rfl
  | cons p pairs ih =>
    obtain ⟨key, val⟩ := p
    rw [forall_mem_cons] at hindices
    obtain ⟨⟨hkey, hval⟩, hrest⟩ := hindices
    have hk : (asUint32 key).toNat = key := toNat_ofNat_small hkey
    have hv : (asUint32 val).toNat = val := toNat_ofNat_small hval
    simp only [map_cons, checkedTagsFrom, hk, hv]
    rcases resolveTag_cases hstrings key val with ⟨tag, hread, hall⟩ | ⟨i, hread, hall⟩
    · rw [hread, hall pairs, ok_bind]
      simp only [ih hrest]
      rfl
    · rw [hread, hall pairs, ok_bind]
      rfl

/-- The tag iterators over validated arrays. -/
theorem tagsWhole_of (hstrings : ∀ i, b.stringGet i = .ok table[i]?) {t : TagArrays}
    {keys vals : List Nat} (h : TagsOk t.keysData t.valsData keys vals) :
    TagsWhole ph b table t (keys.zip vals) := by
  have hfst : (keys.zip vals).map Prod.fst = keys := map_fst_zip h.length.le
  have hsnd : (keys.zip vals).map Prod.snd = vals := map_snd_zip h.length.ge
  have hindices : ∀ p ∈ keys.zip vals, p.1 < 2 ^ 32 ∧ p.2 < 2 ^ 32 := by
    intro p hp
    obtain ⟨hkey, hval⟩ := of_mem_zip hp
    exact ⟨h.keys_lt _ hkey, h.vals_lt _ hval⟩
  have hkeys : ph.packedUint32 t.keysData = ((keys.zip vals).map Prod.fst).map asUint32 := by
    rw [ph.packedUint32_eq h.keyValues, hfst]
  have hvals : ph.packedUint32 t.valsData = ((keys.zip vals).map Prod.snd).map asUint32 := by
    rw [ph.packedUint32_eq h.valValues, hsnd]
  constructor
  · rw [hfst]
    exact h.keyValues
  · rw [hsnd]
    exact h.valValues
  · exact hindices
  · rw [TagArrays.rawTags, hkeys, hvals, rawTagsFrom_eq]
  · rw [TagArrays.tags, ph.packedUint32_eq h.keyValues, ph.packedUint32_eq h.valValues]
    have hsame : (keys.map asUint32).length = (vals.map asUint32).length := by
      rw [length_map, length_map, h.length]
    rw [tagsFrom_eq hstrings hsame, ← ph.packedUint32_eq h.keyValues,
      ← ph.packedUint32_eq h.valValues, toNat_packedUint32 h.keyValues h.keys_lt,
      toNat_packedUint32 h.valValues h.vals_lt]
  · rw [TagArrays.tagsChecked, hkeys, hvals, checkedTagsFrom_eq hstrings hindices]

/-- One turn over a run of tags. -/
theorem values_flat_cons {key val : Nat} (h : Values data (flat ((key, val) :: pairs))) :
    ∃ cur rest, ph.readVarint data = .ok (key, cur) ∧ ph.readVarint cur = .ok (val, rest) ∧
      Values rest (flat pairs) ∧ data ≠ [] ∧ rest.length < data.length := by
  cases h with
  | @cons _ cur _ _ hkey h =>
    cases h with
    | @cons _ rest _ _ hval h =>
      have hlt := decode_length_lt hkey
      have hlt' := decode_length_lt hval
      refine ⟨cur, rest, ph.readVarint_ok.mpr hkey, ph.readVarint_ok.mpr hval, h, ?_, by omega⟩
      rintro rfl
      simp at hlt

lemma denseRawTagsFuel_eq {fuel : Nat} (h : Values data (flat pairs)) (hfuel : data.length ≤ fuel) :
    denseRawTagsFuel ph fuel data = .ok (pairs.map fun p => (asInt32 p.1, asInt32 p.2)) := by
  induction pairs generalizing fuel data with
  | nil =>
    cases h
    cases fuel <;> rfl
  | cons p pairs ih =>
    obtain ⟨key, val⟩ := p
    obtain ⟨cur, rest, hkey, hval, hrest, hne, hlt⟩ := values_flat_cons h
    cases fuel with
    | zero => omega
    | succ fuel =>
      rw [denseRawTagsFuel, if_neg hne, validated_ok hkey]
      simp only [ok_bind, validated_ok hval, ih hrest (show rest.length ≤ fuel by omega)]
      rfl

lemma denseTagsFuel_eq (hstrings : ∀ i, b.stringGet i = .ok table[i]?) {fuel : Nat}
    (h : Values data (flat pairs)) (hfuel : data.length ≤ fuel) :
    denseTagsFuel ph b fuel data = .ok (decodeTags table pairs) := by
  induction pairs generalizing fuel data with
  | nil =>
    cases h
    cases fuel <;> rfl
  | cons p pairs ih =>
    obtain ⟨key, val⟩ := p
    obtain ⟨cur, rest, hkey, hval, hrest, hne, hlt⟩ := values_flat_cons h
    cases fuel with
    | zero => omega
    | succ fuel =>
      rw [denseTagsFuel, if_neg hne, validated_ok hkey]
      simp only [ok_bind, validated_ok hval]
      rcases resolveTag_cases hstrings key val with ⟨tag, hread, hall⟩ | ⟨i, hread, hall⟩
      · have hlist : decodeTags table ((key, val) :: pairs) = tag :: decodeTags table pairs :=
          congrArg Prod.fst (hall pairs)
        simp only [hread, ok_bind, ih hrest (show rest.length ≤ fuel by omega), hlist]
        rfl
      · have hlist : decodeTags table ((key, val) :: pairs) = [] := congrArg Prod.fst (hall pairs)
        rw [hread, hlist, ok_bind]
        rfl

lemma denseCheckedTagsFuel_eq (hstrings : ∀ i, b.stringGet i = .ok table[i]?) {fuel : Nat}
    (h : Values data (flat pairs)) (hfuel : data.length ≤ fuel) :
    denseCheckedTagsFuel ph b fuel data = .ok (checkedOf table pairs) := by
  induction pairs generalizing fuel data with
  | nil =>
    cases h
    cases fuel <;> rfl
  | cons p pairs ih =>
    obtain ⟨key, val⟩ := p
    obtain ⟨cur, rest, hkey, hval, hrest, hne, hlt⟩ := values_flat_cons h
    cases fuel with
    | zero => omega
    | succ fuel =>
      rw [denseCheckedTagsFuel, if_neg hne, hkey]
      simp only [hval]
      rcases resolveTag_cases hstrings key val with ⟨tag, hread, hall⟩ | ⟨i, hread, hall⟩
      · simp only [hread, ok_bind, ih hrest (show rest.length ≤ fuel by omega), hall pairs]
        rfl
      · rw [hread, hall pairs, ok_bind]
        rfl

/-- The tag iterators over a run of a validated array. -/
theorem denseTagsWhole_of (hstrings : ∀ i, b.stringGet i = .ok table[i]?) {n : DenseNode}
    (h : Values n.tagBytes (flat pairs)) (hindices : ∀ p ∈ pairs, InIndex p) :
    DenseTagsWhole ph b table n pairs where
  values := h
  indices := hindices
  rawTags := denseRawTagsFuel_eq h (Nat.le_refl _)
  tags := denseTagsFuel_eq hstrings h (Nat.le_refl _)
  checked := denseCheckedTagsFuel_eq hstrings h (Nat.le_refl _)

lemma locationsFrom_ok {fields : BlockFields} {clat clon : Int64} {dlats dlons : List Int64}
    (hlength : dlats.length = dlons.length) :
    ∃ locations, locationsFrom fields clat clon dlats dlons = .ok locations ∧
      locations.length = dlats.length := by
  induction dlats generalizing clat clon dlons with
  | nil =>
    rw [length_nil, eq_comm, length_eq_zero_iff] at hlength
    subst hlength
    exact ⟨[], rfl, rfl⟩
  | cons dlat dlats ih =>
    obtain ⟨dlon, dlons, rfl⟩ := exists_cons_of_length_eq_add_one hlength.symm
    obtain ⟨rest, hrest, hlen⟩ :=
      @ih (clat + dlat) (clon + dlon) dlons (by simpa using hlength)
    exact ⟨_, bind_eq_ok.mpr ⟨rest, hrest, rfl⟩, by rw [length_cons, length_cons, hlen]⟩

lemma wayWhole_of {w : Way} {refs lats lons : List Nat} (h : WayOk w.way refs lats lons) :
    WayWhole ph w := by
  have hlats := ph.packedSint64_eq h.latValues
  have hlons := ph.packedSint64_eq h.lonValues
  have hsame : (lats.map asSint64).length = (lons.map asSint64).length := by
    rw [length_map, length_map, h.lat_length]
  have hrefs : (wayRefs ph w).length = refs.length := by
    rw [wayRefs, Deltas.length_sumsFrom, ph.packedSint64_eq h.refValues, length_map]
  obtain ⟨locations, hread, hlength⟩ :=
    @locationsFrom_ok w.fields 0 0 (lats.map asSint64) (lons.map asSint64) hsame
  rw [length_map] at hlength
  refine ⟨refs, lats, lons, h, hrefs, locations, ?_, hlength⟩
  rw [nodeLocations, hlats, hlons, hread]

lemma membersFrom_ok {roles : List Int32} {ids : List Int64} {types : List Int32}
    (hids : ids.length = roles.length) (htypes : types.length = roles.length) :
    ∃ ms, membersFrom roles ids types = .ok ms ∧ ms.length = roles.length := by
  induction roles generalizing ids types with
  | nil =>
    rw [length_nil, length_eq_zero_iff] at hids htypes
    subst hids htypes
    exact ⟨[], rfl, rfl⟩
  | cons role roles ih =>
    obtain ⟨id, ids, rfl⟩ := exists_cons_of_length_eq_add_one hids
    obtain ⟨type, types, rfl⟩ := exists_cons_of_length_eq_add_one htypes
    obtain ⟨ms, hms, hlen⟩ := @ih ids types (by simpa using hids) (by simpa using htypes)
    exact ⟨_, map_eq_ok.mpr ⟨ms, hms, rfl⟩, by rw [length_cons, length_cons, hlen]⟩

lemma membersWhole_of {r : WireRelation} (h : validateRelationMemberArrays r = .ok ()) :
    MembersWhole ph r := by
  obtain ⟨_, hroles, h⟩ := bind_eq_ok.mp h
  obtain ⟨_, hids, h⟩ := bind_eq_ok.mp h
  obtain ⟨_, htypes, h⟩ := bind_eq_ok.mp h
  obtain ⟨roles, hrolev, rfl⟩ := packedVarintCount_ok_iff.mp hroles
  obtain ⟨ids, hidv, rfl⟩ := packedVarintCount_ok_iff.mp hids
  obtain ⟨types, htypev, rfl⟩ := packedVarintCount_ok_iff.mp htypes
  have hsame := refuseIf_eq_ok.mp h
  have hidlen : (Deltas.sumsFrom 0 (ids.map asSint64)).length = (roles.map asInt32).length := by
    rw [Deltas.length_sumsFrom, length_map, length_map]
    omega
  have htypelen : (types.map asInt32).length = (roles.map asInt32).length := by
    rw [length_map, length_map]
    omega
  obtain ⟨ms, hms, hlength⟩ := membersFrom_ok hidlen htypelen
  rw [length_map] at hlength
  refine ⟨roles, ids, types, hrolev, hidv, htypev, ms, ?_, hlength, by omega, by omega⟩
  rw [members, ph.packedInt32_eq hrolev, ph.packedSint64_eq hidv, ph.packedInt32_eq htypev, hms]

lemma infoWhole_of {infoData : Option Bytes} {out : Option WireInfo}
    (h : validateInfo ph infoData = .ok out) : InfoWhole ph infoData := by
  cases infoData with
  | none => exact ⟨{}, rfl⟩
  | some data =>
    obtain ⟨info, hinfo, -⟩ := map_eq_ok.mp h
    exact ⟨info, validated_ok hinfo⟩

lemma validateNode_whole (hstrings : ∀ i, b.stringGet i = .ok table[i]?) {fields : BlockFields}
    {node : WireNode} (h : validateNode ph element = .ok ())
    (hparse : WireNode.parse ph element = .ok node) :
    ElementWhole ph b table (.node ⟨fields, node⟩) := by
  obtain ⟨node', hparse', h⟩ := bind_eq_ok.mp h
  obtain ⟨_, hinfo, htags⟩ := bind_eq_ok.mp h
  rw [hparse, Except.ok.injEq] at hparse'
  subst hparse'
  obtain ⟨keys, vals, htags⟩ := validateTagArrays_ok htags
  exact ⟨infoWhole_of hinfo, _, tagsWhole_of hstrings htags⟩

lemma validateWay_whole (hstrings : ∀ i, b.stringGet i = .ok table[i]?) {fields : BlockFields}
    {way : WireWay} (h : validateWay ph element = .ok ())
    (hparse : WireWay.parse ph element = .ok way) :
    ElementWhole ph b table (.way ⟨fields, way⟩) := by
  obtain ⟨way', hparse', h⟩ := bind_eq_ok.mp h
  obtain ⟨_, hinfo, h⟩ := bind_eq_ok.mp h
  obtain ⟨_, htags, hgeometry⟩ := bind_eq_ok.mp h
  rw [hparse, Except.ok.injEq] at hparse'
  subst hparse'
  obtain ⟨keys, vals, htags⟩ := validateTagArrays_ok htags
  obtain ⟨refs, lats, lons, hway⟩ := validateWayGeometryArrays_ok hgeometry
  exact ⟨infoWhole_of hinfo, ⟨_, tagsWhole_of hstrings htags⟩, wayWhole_of hway⟩

lemma validateRelation_whole (hstrings : ∀ i, b.stringGet i = .ok table[i]?)
    {relation : WireRelation} (h : validateRelation ph element = .ok ())
    (hparse : WireRelation.parse ph element = .ok relation) :
    ElementWhole ph b table (.relation ⟨relation⟩) := by
  obtain ⟨relation', hparse', h⟩ := bind_eq_ok.mp h
  obtain ⟨_, hinfo, h⟩ := bind_eq_ok.mp h
  obtain ⟨_, htags, hmembers⟩ := bind_eq_ok.mp h
  rw [hparse, Except.ok.injEq] at hparse'
  subst hparse'
  obtain ⟨keys, vals, htags⟩ := validateTagArrays_ok htags
  exact ⟨infoWhole_of hinfo, ⟨_, tagsWhole_of hstrings htags⟩, membersWhole_of hmembers⟩

end Iterators

section Dense

variable {ph : Crate}

/-- The five core arrays: all empty where none is present, all of full length where all are. -/
theorem coreArrays_whole {n : Nat} {arrays : List Bytes} {present : List Nat}
    (h : arrays.map (coreArray n) = present.map .ok) :
    present.sum ≤ arrays.length ∧ (present.sum = 0 → ∀ data ∈ arrays, data = []) ∧
      (present.sum = arrays.length → ∀ data ∈ arrays, ∃ vs, Values data vs ∧ vs.length = n) := by
  induction arrays generalizing present with
  | nil =>
    cases present with
    | nil => simp
    | cons _ _ => simp at h
  | cons data arrays ih =>
    cases present with
    | nil => simp at h
    | cons k present =>
      obtain ⟨hdata, hrest⟩ := cons.inj h
      obtain ⟨hle, hnone, hall⟩ := ih hrest
      obtain ⟨_, hcount, hdata⟩ := bind_eq_ok.mp hdata
      obtain ⟨vs, hvs, rfl⟩ := packedVarintCount_ok_iff.mp hcount
      simp only [sum_cons, length_cons, forall_mem_cons]
      split at hdata
      · next hzero =>
        cases hdata
        have hempty : data = [] := hvs.eq_nil_iff.mp (length_eq_zero_iff.mp hzero)
        refine ⟨by omega, fun hsum => ⟨hempty, hnone (by omega)⟩, fun hsum => by omega⟩
      · obtain ⟨_, hsame, hk⟩ := bind_eq_ok.mp hdata
        cases hk
        have hlength : vs.length = n := Decidable.not_not.mp (refuseIf_eq_ok.mp hsame)
        exact ⟨by omega, fun hsum => by omega,
          fun hsum => ⟨⟨vs, hvs, hlength⟩, hall (by omega)⟩⟩

lemma length_infosFrom {dateGranularity : Int64} {s : InfoSums} {versions : List Int32}
    {dts dcs : List Int64} {dus dss : List Int32} {visible : List Bool}
    (hts : dts.length = versions.length) (hcs : dcs.length = versions.length)
    (hus : dus.length = versions.length) (hss : dss.length = versions.length) :
    (infosFrom dateGranularity s versions dts dcs dus dss visible).length = versions.length := by
  induction versions generalizing s dts dcs dus dss visible with
  | nil => rfl
  | cons version versions ih =>
    obtain ⟨dt, dts, rfl⟩ := exists_cons_of_length_eq_add_one hts
    obtain ⟨dc, dcs, rfl⟩ := exists_cons_of_length_eq_add_one hcs
    obtain ⟨du, dus, rfl⟩ := exists_cons_of_length_eq_add_one hus
    obtain ⟨ds, dss, rfl⟩ := exists_cons_of_length_eq_add_one hss
    rw [infosFrom, length_cons, length_cons]
    exact congrArg (· + 1) (ih (by simpa using hts) (by simpa using hcs) (by simpa using hus)
      (by simpa using hss))

/-- The metadata of a validated dense message: one entry for each node, or none at all. -/
theorem startInfos_whole {fields : BlockFields} {infoData : Option Bytes} {n : Nat}
    {out : Option WireDenseInfo} (h : validateDenseInfo ph infoData n = .ok out) :
    ∃ infos, startInfos ph fields infoData = .ok infos ∧ (infos = [] ∨ infos.length = n) := by
  cases infoData with
  | none => exact ⟨[], rfl, .inl rfl⟩
  | some data =>
    obtain ⟨info, hparse, h⟩ := bind_eq_ok.mp h
    obtain ⟨present, hpresent, h⟩ := bind_eq_ok.mp h
    obtain ⟨_, -, h⟩ := bind_eq_ok.mp h
    obtain ⟨_, -, h⟩ := bind_eq_ok.mp h
    obtain ⟨_, hsome, -⟩ := bind_eq_ok.mp h
    have hsum := refuseIf_eq_ok.mp hsome
    obtain ⟨-, hnone, hall⟩ := coreArrays_whole (mapM_eq_ok.mp hpresent)
    refine ⟨denseNodeInfos ph fields info, map_eq_ok.mpr ⟨info, validated_ok hparse, rfl⟩, ?_⟩
    by_cases hzero : present.sum = 0
    · have hversion := hnone hzero info.versionData (by simp [denseInfoCore])
      left
      rw [denseNodeInfos, hversion, ph.packedInt32_eq .nil]
      rfl
    · have hfull : ∀ data ∈ denseInfoCore info, ∃ vs, Values data vs ∧ vs.length = n :=
        hall (by omega)
      simp only [denseInfoCore, forall_mem_cons] at hfull
      obtain ⟨⟨vs, hvs, hv⟩, ⟨ts, hts, ht⟩, ⟨cs, hcs, hc⟩, ⟨us, hus, hu⟩, ⟨ss, hss, hs⟩, -⟩ := hfull
      right
      rw [denseNodeInfos, ph.packedInt32_eq hvs, ph.packedSint64_eq hts, ph.packedSint64_eq hcs,
        ph.packedSint32_eq hus, ph.packedSint32_eq hss]
      rw [length_infosFrom, length_map, hv] <;> simp only [length_map] <;> omega

variable {fields : BlockFields} {nodes : List DenseNode}

lemma denseNodesFrom_infos {s : DenseSums} {dids dlats dlons : List Int64}
    {infos : List DenseNodeInfo} {kv : Bytes}
    (h : denseNodesFrom ph fields s dids dlats dlons infos kv = .ok nodes) :
    (infos = [] → ∀ n ∈ nodes, n.info = none) ∧
      (infos.length = dids.length → ∀ n ∈ nodes, n.info.isSome = true) := by
  induction dids generalizing s dlats dlons infos kv nodes with
  | nil =>
    cases dlats <;> cases dlons <;> cases h
    simp
  | cons did dids ih =>
    obtain ⟨_, _, _, _, tags, kv', rest, rfl, rfl, -, hrest, rfl⟩ := denseNodesFrom_cons h
    obtain ⟨hnone, hall⟩ := ih hrest
    simp only [forall_mem_cons]
    constructor
    · rintro rfl
      exact ⟨rfl, hnone rfl⟩
    · intro hlength
      obtain ⟨info, infos, rfl⟩ := exists_cons_of_length_eq_add_one hlength
      exact ⟨rfl, hall (by simpa using hlength)⟩

/-- The iterator that skips metadata makes the same turns. -/
theorem denseNodesFrom_skip {s : DenseSums} {dids dlats dlons : List Int64}
    {infos : List DenseNodeInfo} {kv : Bytes}
    (h : denseNodesFrom ph fields s dids dlats dlons infos kv = .ok nodes) :
    denseNodesFrom ph fields s dids dlats dlons [] kv =
      .ok (nodes.map fun n => { n with info := none }) := by
  induction dids generalizing s dlats dlons infos kv nodes with
  | nil =>
    cases dlats <;> cases dlons <;> cases h
    rfl
  | cons did dids ih =>
    obtain ⟨_, _, _, _, tags, kv', rest, rfl, rfl, htags, hrest, rfl⟩ := denseNodesFrom_cons h
    rw [denseNodesFrom]
    have hgo := ih hrest
    rw [htags]
    simp only [ok_bind, tail_nil, hgo]
    rfl

/-- A validated dense message, walked. -/
theorem validateDense_whole {b : WireBlock} {table : List Bytes}
    (hstrings : ∀ i, b.stringGet i = .ok table[i]?) {denseData : Bytes}
    {dense : WireDenseNodes} {n : Nat} (h : validateDense ph denseData = .ok n)
    (hparse : WireDenseNodes.parse ph denseData = .ok dense)
    (hnodes : denseNodes ph fields dense = .ok nodes) :
    nodes.length = n ∧ DenseWhole ph b table dense nodes := by
  obtain ⟨dense', ids, lats, lons, hparse', hok, rfl, hruns, info, hinfo⟩ := validateDense_ok h
  rw [hparse, Except.ok.injEq] at hparse'
  subst hparse'
  have hidv := hok.idValues
  have hcount : nodes.length = ids.length := by
    have hsums := congrArg length (denseNodes_sums hnodes).1
    rwa [Deltas.length_sumsFrom, ph.packedSint64_eq hidv, length_map, length_map]
      at hsums
  obtain ⟨infos, hinfos, hmeta⟩ := @startInfos_whole ph fields _ _ _ hinfo
  obtain ⟨infos', hinfos', hwalk⟩ := bind_eq_ok.mp hnodes
  rw [hinfos, Except.ok.injEq] at hinfos'
  subst hinfos'
  have hdids : (ph.packedSint64 dense.idData).length = ids.length := by
    rw [ph.packedSint64_eq hidv, length_map]
  obtain ⟨runs, htagruns, hin, hnumber, hshort⟩ := tagRuns_of_validate hruns
  have hwhole : DenseWhole ph b table dense nodes := by
    refine ⟨⟨ids, hidv, hcount.symm⟩, ⟨lats, hok.latValues, hok.lat_length.trans hcount.symm⟩,
      ⟨lons, hok.lonValues, hok.lon_length.trans hcount.symm⟩,
      ⟨runs, htagruns, hnumber.imp_right fun hn => hn.trans hcount.symm, ?_⟩, ?_⟩
    · have hvalues := denseNodesFrom_runs htagruns (by omega) hwalk
      rw [hdids, ← hcount] at hvalues
      have hall : ∀ run ∈ runs ++ replicate (nodes.length - runs.length) [],
          ∀ p ∈ run, InIndex p := by
        intro run hrun
        rcases mem_append.mp hrun with hrun | hrun
        · exact hin run hrun
        · rw [(mem_replicate.mp hrun).2]
          simp
      refine forall₂_iff_get.mpr ⟨hvalues.length_eq, fun i hi hi' => ?_⟩
      exact denseTagsWhole_of hstrings (hvalues.get hi hi') (hall _ (get_mem _ ⟨i, hi'⟩))
    · obtain ⟨hnone, hsome⟩ := denseNodesFrom_infos hwalk
      rcases hmeta with hempty | hfull
      · exact .inr (hnone hempty)
      · exact .inl (hsome (hfull.trans hdids.symm))
  exact ⟨hcount, hwhole⟩

end Dense

section Block

variable {ph : Crate}

/-- The checks of a group that validation let pass. -/
structure GroupChecked (ph : Crate) (group : Bytes) (kinds : KindSet) (count : Nat) : Prop where
  framed : ∃ fs, Fields ph.reader group fs
  nodes : ∀ d ∈ messages ph 1 group, validateNode ph d = .ok ()
  ways : ∀ d ∈ messages ph 3 group, validateWay ph d = .ok ()
  relations : ∀ d ∈ messages ph 4 group, validateRelation ph d = .ok ()
  dense : ∃ dense ids, groupDense ph group = .ok dense ∧
    dense.elim (.ok 0) (validateDense ph) = .ok ids ∧
    kinds = ⟨!(messages ph 1 group).isEmpty || decide (0 < ids), !(messages ph 3 group).isEmpty,
      !(messages ph 4 group).isEmpty⟩ ∧
    count = (messages ph 1 group).length + (messages ph 3 group).length +
      (messages ph 4 group).length + ids

lemma validateGroup_checked {group : Bytes} {kinds : KindSet} {count : Nat}
    (h : validateGroup ph group = .ok (kinds, count)) : GroupChecked ph group kinds count := by
  obtain ⟨_, hframing, h⟩ := bind_eq_ok.mp h
  obtain ⟨_, hnodes, h⟩ := bind_eq_ok.mp h
  obtain ⟨_, hways, h⟩ := bind_eq_ok.mp h
  obtain ⟨_, hrelations, h⟩ := bind_eq_ok.mp h
  obtain ⟨dense, hdense, h⟩ := bind_eq_ok.mp h
  obtain ⟨ids, hids, h⟩ := bind_eq_ok.mp h
  cases h
  exact ⟨framing_ok_iff.mp hframing, forM_ok hnodes, forM_ok hways, forM_ok hrelations,
    dense, ids, hdense, hids, rfl, rfl⟩

/-- A property of the parsed messages of one kind, from what validation checked of their bytes. -/
theorem forall_parsed {α : Type} {parse : Bytes → Except Error α} {datas : List Bytes}
    {out : List α} (h : datas.map parse = out.map .ok) {P : α → Prop}
    (hall : ∀ d ∈ datas, ∀ a, parse d = .ok a → P a) : ∀ a ∈ out, P a := by
  intro a ha
  have hmem : Except.ok a ∈ datas.map parse := by
    rw [h]
    exact mem_map_of_mem ha
  obtain ⟨d, hd, hparse⟩ := mem_map.mp hmem
  exact hall d hd a hparse

lemma length_parsed {α : Type} {parse : Bytes → Except Error α} {datas : List Bytes}
    {out : List α} (h : datas.map parse = out.map .ok) : out.length = datas.length := by
  have hlength := congrArg length h
  rw [length_map, length_map] at hlength
  exact hlength.symm

/-- What the walks over one group give. -/
structure PartWhole (ph : Crate) (b : WireBlock) (table : List Bytes) (fields : BlockFields)
    (group : Bytes) (kinds : KindSet) (count : Nat) (part : List Element) : Prop where
  walks : GroupWhole ph b table fields group
  skipping : groupElementsSkipMetadata ph fields group = .ok (part.map withoutInfo)
  count : part.length = count
  kinds : ∀ kind, kinds.has kind = true ↔ ∃ e ∈ part, elementKind e = kind
  element : ∀ e ∈ part, ElementWhole ph b table e

lemma dense_part {b : WireBlock} {table : List Bytes}
    (hstrings : ∀ i, b.stringGet i = .ok table[i]?) {fields : BlockFields} {group : Bytes}
    {d : Option Bytes} {ids : Nat} {message : Option WireDenseNodes}
    {dense : List DenseNode} (hgroup : groupDense ph group = .ok d)
    (hids : d.elim (.ok 0) (validateDense ph) = .ok ids)
    (hparsed : validatedDense ph group = .ok message)
    (hdense : message.elim (.ok []) (denseNodes ph fields) = .ok dense) : dense.length = ids ∧
      (∀ w ∈ message, ∃ nodes, denseNodes ph fields w = .ok nodes ∧ DenseWhole ph b table w nodes) ∧
      (∀ n ∈ dense, ∃ pairs, DenseTagsWhole ph b table n pairs) ∧
      message.elim (.ok []) (denseNodesSkipMetadata ph fields) =
        .ok (dense.map fun n => { n with info := none }) := by
  rcases validatedDense_eq_ok.mp hparsed with ⟨hnone, rfl⟩ | ⟨data, w, hsome, hparse, rfl⟩
  · rw [hgroup, Except.ok.injEq] at hnone
    subst hnone
    cases hids
    cases hdense
    exact ⟨rfl, by simp, by simp, rfl⟩
  · rw [hgroup, Except.ok.injEq] at hsome
    subst hsome
    obtain ⟨hlength, hwhole⟩ := validateDense_whole hstrings hids hparse hdense
    refine ⟨hlength, ?_, ?_, ?_⟩
    · rintro w' ⟨⟩
      exact ⟨dense, hdense, hwhole⟩
    · obtain ⟨runs, -, -, hall⟩ := hwhole.runs
      intro n hn
      obtain ⟨i, hi, rfl⟩ := mem_iff_getElem.mp hn
      exact ⟨_, hall.get hi (hall.length_eq ▸ hi)⟩
    · obtain ⟨infos, -, hwalk⟩ := bind_eq_ok.mp hdense
      exact denseNodesFrom_skip hwalk

lemma validateGroup_whole {b : WireBlock} {table : List Bytes}
    (hstrings : ∀ i, b.stringGet i = .ok table[i]?) {fields : BlockFields} {group : Bytes}
    {kinds : KindSet} {count : Nat} (h : validateGroup ph group = .ok (kinds, count))
    {part : List Element} (hpart : groupElements ph fields group = .ok part) :
    PartWhole ph b table fields group kinds count part := by
  obtain ⟨⟨fs, hfs⟩, hnodes, hways, hrelations, d, ids, hgroup, hids, rfl, rfl⟩ :=
    validateGroup_checked h
  obtain ⟨message, dense, nodes, ways, relations, hparts, rfl⟩ := groupElements_eq_ok.mp hpart
  obtain ⟨hlength, hmessage, htags, hskip⟩ :=
    dense_part hstrings hgroup hids hparts.parsed hparts.dense
  have hnodeslen := length_parsed hparts.nodes
  have hwayslen := length_parsed hparts.ways
  have hrelationslen := length_parsed hparts.relations
  constructor
  · refine ⟨fun target => ?_, message, hparts.parsed, hmessage⟩
    have hmessages := @messages_of_fields ph target _ _ hfs
    rw [hmessages.2]
    exact hmessages.1
  · refine bind_eq_ok.mpr ⟨message, hparts.parsed, bind_eq_ok.mpr ⟨_, hskip,
      bind_eq_ok.mpr ⟨nodes, reparsed_eq_ok.mpr hparts.nodes, bind_eq_ok.mpr ⟨ways,
        reparsed_eq_ok.mpr hparts.ways, bind_eq_ok.mpr ⟨relations,
          reparsed_eq_ok.mpr hparts.relations, ?_⟩⟩⟩⟩⟩
    simp [groupList, withoutInfo, Function.comp_def, pure, Except.pure]
  · simp only [groupList, length_append, length_map]
    omega
  · intro kind
    rw [exists_kind_groupList]
    have hempty : decide (0 < ids) = !dense.isEmpty := by
      rw [← hlength]
      cases dense <;> simp
    have hsame : ∀ {α : Type} {datas : List Bytes} {out : List α},
        out.length = datas.length → datas.isEmpty = out.isEmpty := by
      intro α datas out hlen
      cases datas <;> cases out <;> simp at hlen ⊢
    rw [hempty, hsame hnodeslen, hsame hwayslen, hsame hrelationslen, Bool.or_comm]
  · intro e he
    simp only [groupList, mem_append, mem_map] at he
    rcases he with ((⟨n, hn, rfl⟩ | ⟨n, hn, rfl⟩) | ⟨w, hw, rfl⟩) | ⟨r, hr, rfl⟩
    · exact htags n hn
    · exact forall_parsed hparts.nodes
        (fun data hd _ hparse => validateNode_whole hstrings (hnodes data hd) hparse) n hn
    · exact forall_parsed hparts.ways
        (fun data hd _ hparse => validateWay_whole hstrings (hways data hd) hparse) w hw
    · exact forall_parsed hparts.relations
        (fun data hd _ hparse => validateRelation_whole hstrings (hrelations data hd) hparse) r hr

lemma groups_whole {b : WireBlock} {table : List Bytes}
    (hstrings : ∀ i, b.stringGet i = .ok table[i]?) {fields : BlockFields}
    {groups : List Bytes} {outs : List (KindSet × Nat)} {parts : List (List Element)}
    (houts : groups.map (validateGroup ph) = outs.map .ok)
    (hparts : groups.map (groupElements ph fields) = parts.map .ok) :
    (∀ group ∈ groups, GroupWhole ph b table fields group) ∧
      groups.map (groupElementsSkipMetadata ph fields) =
        (parts.map fun part => part.map withoutInfo).map .ok ∧
      parts.flatten.length = (outs.map Prod.snd).sum ∧
      (∀ kind, (∃ out ∈ outs, out.1.has kind = true) ↔ ∃ e ∈ parts.flatten, elementKind e = kind) ∧
      ∀ e ∈ parts.flatten, ElementWhole ph b table e := by
  induction groups generalizing outs parts with
  | nil =>
    cases outs with
    | nil =>
      cases parts with
      | nil => simp
      | cons _ _ => simp at hparts
    | cons _ _ => simp at houts
  | cons group groups ih =>
    cases outs with
    | nil => simp at houts
    | cons out outs =>
      cases parts with
      | nil => simp at hparts
      | cons part parts =>
        obtain ⟨hout, houts⟩ := cons.inj houts
        obtain ⟨hpart, hparts⟩ := cons.inj hparts
        have hwhole := @validateGroup_whole ph b table hstrings fields group out.1 out.2 hout part
          hpart
        obtain ⟨hgroups, hskip, hcount, hkinds, helements⟩ := ih houts hparts
        refine ⟨?_, ?_, ?_, ?_, ?_⟩
        · rw [forall_mem_cons]
          exact ⟨hwhole.walks, hgroups⟩
        · rw [map_cons, hwhole.skipping, hskip]
          rfl
        · rw [flatten_cons, length_append, hcount, hwhole.count, map_cons, sum_cons]
        · intro kind
          rw [exists_mem_flatten_cons, ← hkinds, ← hwhole.kinds, exists_mem_cons_iff]
        · intro e he
          rw [flatten_cons, mem_append] at he
          rcases he with he | he
          · exact hwhole.element e he
          · exact helements e he

/-- Every walk over a constructed block gets through. -/
theorem walks_whole {bytes : Bytes} {block : PrimitiveBlock}
    (h : fromVec ph bytes = .ok block) (hfits : Fits bytes block) :
    ∃ table groups es, WalksWhole ph block table groups es := by
  obtain ⟨top, table, hopen, hvalid⟩ := fromVec_validated h hfits
  obtain ⟨es, hes⟩ := elements_ok h hfits
  obtain ⟨parts, hparts, rfl⟩ := elements_parts hopen hes
  obtain ⟨outs, houts, hcount⟩ := validateGroups_count hvalid
  obtain ⟨hgroups, hskip, hlength, hkinds, helements⟩ :=
    groups_whole hopen.strings houts hparts
  refine ⟨table, top.groups, parts.flatten, ?_⟩
  constructor
  · exact hopen.strings
  · exact hopen.groups
  · exact hes
  · rw [← hopen.fields] at hskip
    refine bind_eq_ok.mpr ⟨top.groups, hopen.groups, bind_eq_ok.mpr
      ⟨parts.map fun part => part.map withoutInfo, mapM_eq_ok.mpr hskip, ?_⟩⟩
    rw [map_flatten]
    rfl
  · rw [hlength, hcount]
  · intro kind
    rw [hopen.kinds, ← hkinds]
    constructor
    · rintro ⟨data, hdata, k, n, hgroup, hhas⟩
      obtain ⟨out, hout, hsame⟩ := mem_map.mp (houts ▸ mem_map_of_mem hdata)
      rw [hgroup, Except.ok.injEq] at hsame
      subst hsame
      exact ⟨_, hout, hhas⟩
    · rintro ⟨⟨k, n⟩, hout, hhas⟩
      obtain ⟨data, hdata, hgroup⟩ := mem_map.mp (houts ▸ mem_map_of_mem hout)
      exact ⟨data, hdata, k, n, hgroup, hhas⟩
  · rw [hopen.fields]
    exact hgroups
  · exact helements

end Block

/-- A way whose second tag has its key past the string table. -/
def strayBlock : Bytes :=
  lenField 1 (lenField 1 []) ++
    lenField 2 (lenField 3 (varintField 1 7 ++ packedField 2 [0, 5] ++ packedField 3 [0, 0]))

lemma strayBlock_accepted :
    ∃ block, fromVec Reference.crate strayBlock = .ok block ∧ Fits strayBlock block :=
  ⟨_, rfl, by unfold Fits; decide⟩

theorem walks_whole_stray : ∃ block, fromVec Reference.crate strayBlock = .ok block ∧
      ∃ table groups es, WalksWhole Reference.crate block table groups es := by
  obtain ⟨block, hblock, hfits⟩ := strayBlock_accepted
  exact ⟨block, hblock, walks_whole hblock hfits⟩

/-- The tags of the way end before the one with the stray key. Behind 4 GiB the elements end
before they are counted. -/
theorem walks_end_early : (∃ block w, fromVec Reference.crate strayBlock = .ok block ∧
      elements Reference.crate block = .ok [.way w] ∧
      TagArrays.rawTags Reference.crate ⟨w.way.keysData, w.way.valsData⟩ = .ok [(0, 0), (5, 0)] ∧
      TagArrays.tags Reference.crate block.block ⟨w.way.keysData, w.way.valsData⟩ = .ok [([], [])] ∧
      TagArrays.tagsChecked Reference.crate block.block ⟨w.way.keysData, w.way.valsData⟩ =
        .ok ([([], [])], some (.stringtableIndexOutOfBounds 5))) ∧
    ∃ block, fromVec Reference.crate (paddedBlock (replicate (2 ^ 32) 0)) = .ok block ∧
      block.elementCount = 1 ∧ elements Reference.crate block = .ok [] := by
  refine ⟨⟨_, _, rfl, rfl, rfl, rfl, rfl⟩, ?_⟩
  have hlen : (replicate (2 ^ 32) (0 : UInt8)).length < 2 ^ 64 := by
    rw [length_replicate]
    decide
  refine ⟨_, fromVec_padded hlen, rfl, ?_⟩
  rw [elements, groups_zeros]
  rfl

end WholeWalk
