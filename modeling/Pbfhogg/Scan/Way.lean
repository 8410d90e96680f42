import Pbfhogg.Scan.Node
import Pbfhogg.Scan.WayTags

/-!
# The way scanners

`scan/way.rs` reads the ids and references of a block's ways, and their geocode flags, off the
block's bytes. Ids and references are the way elements' own, and the flags are so where the slots of
the string table decide as the strings do.
-/

namespace WayScan

open Protohoggr FieldWalk WireMessages BlockScan BlockValid Elements Fallible Varint WayTags
open List hiding map_map take

variable {data : Bytes} {way : WireWay} {refs lats lons keys vals : List Nat}
  {table : List Bytes} {fields : BlockFields}

section Scan

variable (ph : Crate)

/-- `skip_recording_kind`: one group field that is no way, and the kind it holds. -/
def skipRecordingKind (kinds : KindSet) (field wire : Nat) :
    Bytes → Except Error (KindSet × Bytes) :=
  if wire ≠ wireLen then skip ph.reader kinds wire
  else
    match field with
    | 1 => skip ph.reader (kinds.add .node) wire
    | 2 => fun cur =>
      take (ph.readLenDelimited cur) fun data =>
        (WireDenseNodes.parse ph data).map fun dense =>
          if dense.idData = [] then kinds else kinds.add .node
    | 4 => skip ph.reader (kinds.add .relation) wire
    | _ => skip ph.reader kinds wire

def refsErr : Error := newWireError "way refs array holds a truncated or overlong varint"

/-- The loop over a refs array; each turn consumes at least one byte. -/
def accumulateRefsFuel : Nat → Int64 → Bytes → Except Error (List Int64)
  | 0, _, _ => .ok []
  | fuel + 1, cum, data =>
    if data = [] then .ok []
    else do
      let (raw, rest) ← (ph.readVarint data).mapError fun _ => refsErr
      let refs ← accumulateRefsFuel fuel (cum + asSint64 raw) rest
      return (cum + asSint64 raw) :: refs

def accumulateRefs (refsData : Bytes) : Except Error (List Int64) :=
  accumulateRefsFuel ph (refsData.length + 1) 0 refsData

/-- `parse_way_refs`: the call of the callback. -/
def parseWayRefs (data : Bytes) : Except Error (Int64 × List Int64) := do
  let way ← WireWay.parse ph data
  let refs ← accumulateRefs ph way.refsData
  return (way.id, refs)

/-- The lockstep loop over a way's tags. -/
def tagWalkFuel (r : ResolvedTagIndices) :
    Nat → Evidence Nat → Bytes → Bytes → Except Error (Evidence Nat)
  | 0, s, _, _ => .ok s
  | fuel + 1, s, keys, vals =>
    if keys = [] then .ok s
    else do
      let (key, keys) ← ph.readVarintU32 keys
      if vals = [] then tagWalkFuel r fuel (r.see s key none) keys []
      else do
        let (val, vals) ← ph.readVarintU32 vals
        tagWalkFuel r fuel (r.see s key (some val)) keys vals

/-- The tags are walked only in a block that has one of the keys. -/
def tagEvidence (r : ResolvedTagIndices) (way : WireWay) : Except Error (Evidence Nat) :=
  if r.anyKeyPresent ∧ way.keysData ≠ [] ∧ way.valsData ≠ [] then
    tagWalkFuel ph r (way.keysData.length + 1) {} way.keysData way.valsData
  else .ok {}

def presentRefs (refsData : Bytes) : Except Error (List Int64) :=
  if refsData ≠ [] then accumulateRefs ph refsData else .ok []

/-- `parse_way_tagged_refs`: the call of the callback. -/
def parseWayTaggedRefs (r : ResolvedTagIndices) (data : Bytes) :
    Except Error (Int64 × WayGeocodeFlags × List Int64) := do
  let way ← WireWay.parse ph data
  let s ← tagEvidence ph r way
  let refs ← presentRefs ph way.refsData
  return (way.id, r.flags s, refs)

/-- The kinds recorded and the calls made. -/
structure WayCalls (α : Type) where
  kinds : KindSet := {}
  calls : List α := []

/-- The walk over one group. -/
def wayGroupField {α : Type} (parse : Bytes → Except Error α) : Handler Error (WayCalls α) :=
  fun s field wire =>
    if field = 3 ∧ wire = wireLen then fun cur =>
      take (ph.readLenDelimited cur) fun data =>
        (parse data).map fun call => ⟨s.kinds.add .way, s.calls ++ [call]⟩
    else fun cur =>
      take (skipRecordingKind ph s.kinds field wire cur) fun kinds => .ok { s with kinds := kinds }

/-- The groups of a block, for the scan of the references. -/
def groupsField : Handler Error (List Bytes) := fun out field wire =>
  match field, wire with
  | 2, wireLen => fun cur => take (ph.readLenDelimited cur) fun d => .ok (out ++ [d])
  | _, _ => skip ph.reader out wire

def scanWayRefs (decompressed : Bytes) : Except Error (WayCalls (Int64 × List Int64)) := do
  let groups ← walk ph.reader (groupsField ph) [] decompressed
  groups.foldlM (walk ph.reader (wayGroupField ph (parseWayRefs ph))) {}

structure TaggedTop where
  stringtableData : Option Bytes := none
  groups : List Bytes := []

/-- The string table and the groups of a block, for the tag-aware scan. -/
def taggedTopField : Handler Error TaggedTop := fun s field wire =>
  match field, wire with
  | 1, wireLen => fun cur =>
    take (ph.readLenDelimited cur) fun d => .ok { s with stringtableData := some d }
  | 2, wireLen => fun cur =>
    take (ph.readLenDelimited cur) fun d => .ok { s with groups := s.groups ++ [d] }
  | _, _ => skip ph.reader s wire

variable (lits : GeocodeTagLiterals)

def resolveField : Handler Error Resolving := fun st field wire =>
  if field = 1 ∧ wire = wireLen then fun cur =>
    take (ph.readLenDelimited cur) fun s => .ok (resolveEntry lits st s)
  else skip ph.reader st wire

def resolveTagIndices (stringtableData : Bytes) :
    Except Error ResolvedTagIndices :=
  (walk ph.reader (resolveField ph lits) {} stringtableData).map Resolving.resolved

def scanWayGeocodeTaggedRefs (decompressed : Bytes) :
    Except Error (WayCalls (Int64 × WayGeocodeFlags × List Int64)) := do
  let top ← walk ph.reader (taggedTopField ph) {} decompressed
  let r ← top.stringtableData.elim (.ok {}) (resolveTagIndices ph lits)
  top.groups.foldlM (walk ph.reader (wayGroupField ph (parseWayTaggedRefs ph r))) {}

def wayRefs (w : Way) : List Int64 := Deltas.sumsFrom 0 (ph.packedSint64 w.way.refsData)

/-- `TagIter`: it ends with the first tag that has an index past the string table. -/
def tagsFrom (b : WireBlock) :
    List UInt32 → List UInt32 → Except Panic (List (Bytes × Bytes))
  | k :: ks, v :: vs => do
    let key ← b.stringGet k.toNat
    let val ← b.stringGet v.toNat
    match key, val with
    | some key, some val => (tagsFrom b ks vs).map ((key, val) :: ·)
    | _, _ => return []
  | [], [] => .ok []
  | _, _ => .error (.parallelArraysDiffer "tag key/value")

def wayTags (b : WireBlock) (w : Way) : Except Panic (List (Bytes × Bytes)) :=
  tagsFrom b (ph.packedUint32 w.way.keysData) (ph.packedUint32 w.way.valsData)

/-- `Way::raw_tags`. -/
def rawTags (w : WireWay) : List (Nat × Nat) :=
  ((ph.packedUint32 w.keysData).map UInt32.toNat).zip
    ((ph.packedUint32 w.valsData).map UInt32.toNat)

def way? : Element → Option Way
  | .way w => some w
  | _ => none

/-- The call the decoded strings of a way ask for. -/
def decodedCall (b : WireBlock) (w : Way) :
    Except Panic (Int64 × WayGeocodeFlags × List Int64) := do
  let tags ← wayTags ph b w
  return (w.way.id, decodedFlags lits tags, wayRefs ph w)

/-- Both scans get through and call as the way elements of the block ask for, in order. -/
def Agrees (bytes : Bytes) (block : PrimitiveBlock)
    (es : List Element) : Prop :=
  (∃ s, scanWayRefs ph bytes = .ok s ∧
    s.calls = (es.filterMap way?).map fun w => (w.way.id, wayRefs ph w)) ∧
  ∃ s, scanWayGeocodeTaggedRefs ph lits bytes = .ok s ∧
    (es.filterMap way?).mapM (decodedCall ph lits block.block) = .ok s.calls

end Scan

section Reads

variable {ph : Crate}

lemma accumulateRefsFuel_eq {vs : List Nat} (h : Values data vs) {fuel : Nat}
    (hfuel : data.length < fuel) (cum : Int64) :
    accumulateRefsFuel ph fuel cum data = .ok (Deltas.sumsFrom cum (vs.map asSint64)) := by
  induction h generalizing fuel cum with
  | nil =>
    cases fuel with
    | zero => omega
    | succ fuel => rfl
  | @cons data rest v vs hv _ ih =>
    have hshrink := decode_length_lt hv
    have hne : data ≠ [] := by
      rintro rfl
      simp at hshrink
    cases fuel with
    | zero => omega
    | succ fuel =>
      rw [accumulateRefsFuel, if_neg hne, ph.readVarint_ok.mpr hv]
      simp only [Except.mapError, ok_bind, ih (show rest.length < fuel by omega), map_cons,
        Deltas.sumsFrom]
      rfl

lemma accumulateRefs_eq (h : WayOk way refs lats lons) : accumulateRefs ph way.refsData =
      .ok (Deltas.sumsFrom 0 (ph.packedSint64 way.refsData)) := by
  rw [ph.packedSint64_eq h.refValues]
  exact accumulateRefsFuel_eq h.refValues (Nat.lt_succ_self _) 0

lemma readVarintU32_of {rest : Bytes} {v : Nat} (h : decode data = some (v, rest))
    (hv : v < 2 ^ 32) : ph.readVarintU32 data = .ok (v, rest) :=
  ph.readVarintU32_ok.mpr ⟨h, hv⟩

variable (r : ResolvedTagIndices)

lemma tagWalkFuel_eq {keysData valsData : Bytes}
    (h : TagsOk keysData valsData keys vals) {fuel : Nat} (hfuel : keysData.length < fuel)
    (s : Evidence Nat) : tagWalkFuel ph r fuel s keysData valsData =
      .ok ((keys.zip vals).foldl (fun s t => r.see s t.1 (some t.2)) s) := by
  obtain ⟨hkeys, hvals, hlength, hkeylt, hvallt⟩ := h
  induction hkeys generalizing fuel s valsData vals with
  | nil =>
    cases fuel with
    | zero => omega
    | succ fuel => rfl
  | @cons keysData keysRest key keys hkey _ ih =>
    cases hvals with
    | nil => simp at hlength
    | @cons _ valsRest val vals hval hvals =>
      have hshrink := decode_length_lt hkey
      have hshrink' := decode_length_lt hval
      have hkeysne : keysData ≠ [] := by
        rintro rfl
        simp at hshrink
      have hvalsne : valsData ≠ [] := by
        rintro rfl
        simp at hshrink'
      rw [forall_mem_cons] at hkeylt hvallt
      cases fuel with
      | zero => omega
      | succ fuel =>
        rw [tagWalkFuel, if_neg hkeysne, readVarintU32_of hkey hkeylt.1]
        simp only [ok_bind, hvalsne, if_false, readVarintU32_of hval hvallt.1, zip_cons_cons,
          foldl_cons]
        exact ih (by omega) _ hvals (by simpa using hlength) hkeylt.2 hvallt.2

lemma toNat_packedUint32 {vs : List Nat} (h : Values data vs) (hlt : ∀ v ∈ vs, v < 2 ^ 32) :
    (ph.packedUint32 data).map UInt32.toNat = vs := by
  rw [ph.packedUint32_eq h, List.map_map]
  refine (map_congr_left fun v hv => ?_).trans (map_id vs)
  simpa [asUint32] using toNat_ofNat_small (hlt v hv)

lemma rawTags_eq (h : TagsOk way.keysData way.valsData keys vals) :
    rawTags ph way = keys.zip vals := by
  rw [rawTags, toNat_packedUint32 h.keyValues h.keys_lt, toNat_packedUint32 h.valValues h.vals_lt]

/-- A block without any of the keys: nothing is seen. -/
theorem foldl_see_absent {r : ResolvedTagIndices} (h : r.anyKeyPresent = false)
    (tags : List (Nat × Nat)) (s : Evidence Nat) :
    tags.foldl (fun s t => r.see s t.1 (some t.2)) s = s := by
  induction tags with
  | nil => rfl
  | cons t tags ih =>
    have hnone : ∀ k ∈ chain, ¬(r.key k == some t.1) = true := by
      intro k hk hhit
      rw [beq_iff_eq] at hhit
      have habsent := any_eq_false.mp h k hk
      simp [hhit] at habsent
    have hstep : r.see s t.1 (some t.2) = s := by
      rw [ResolvedTagIndices.see, Evidence.see, find?_eq_none.mpr hnone]
    rw [foldl_cons, hstep, ih]

/-- The call the tag-aware scan makes for a way. -/
def slotCall (ph : Crate) (r : ResolvedTagIndices) (way : WireWay) :
    Int64 × WayGeocodeFlags × List Int64 :=
  (way.id, r.flags ((rawTags ph way).foldl (fun s t => r.see s t.1 (some t.2)) {}),
    Deltas.sumsFrom 0 (ph.packedSint64 way.refsData))

lemma parseWayRefs_eq (hparse : WireWay.parse ph data = .ok way) (hway : WayOk way refs lats lons) :
    parseWayRefs ph data = .ok (way.id, Deltas.sumsFrom 0 (ph.packedSint64 way.refsData)) := by
  simp only [parseWayRefs, hparse, ok_bind, accumulateRefs_eq hway]
  rfl

lemma tagEvidence_eq (htags : TagsOk way.keysData way.valsData keys vals) : tagEvidence ph r way =
      .ok ((rawTags ph way).foldl (fun s t => r.see s t.1 (some t.2)) {}) := by
  rw [tagEvidence, rawTags_eq htags]
  split
  · exact tagWalkFuel_eq r htags (Nat.lt_succ_self _) {}
  · next hskipped =>
    cases hany : r.anyKeyPresent with
    | false => rw [foldl_see_absent hany]
    | true =>
      have hnone : keys.zip vals = [] := by
        by_cases hkeys : way.keysData = []
        · rw [htags.keyValues.eq_nil_iff.mpr hkeys, zip_nil_left]
        · have hvals : way.valsData = [] := by
            by_contra hvals
            exact hskipped ⟨hany, hkeys, hvals⟩
          rw [htags.valValues.eq_nil_iff.mpr hvals, zip_nil_right]
      rw [hnone]
      rfl

lemma presentRefs_eq (h : WayOk way refs lats lons) :
    presentRefs ph way.refsData = .ok (Deltas.sumsFrom 0 (ph.packedSint64 way.refsData)) := by
  unfold presentRefs
  split
  · exact accumulateRefs_eq h
  · next hempty =>
    rw [not_not] at hempty
    rw [ph.packedSint64_eq h.refValues, h.refValues.eq_nil_iff.mpr hempty]
    rfl

lemma parseWayTaggedRefs_eq (hparse : WireWay.parse ph data = .ok way)
    (htags : TagsOk way.keysData way.valsData keys vals) (hway : WayOk way refs lats lons) :
    parseWayTaggedRefs ph r data = .ok (slotCall ph r way) := by
  simp only [parseWayTaggedRefs, hparse, ok_bind, tagEvidence_eq r htags, presentRefs_eq hway]
  rfl

lemma tagsFrom_eq {b : WireBlock} (hstrings : ∀ i, b.stringGet i = .ok table[i]?)
    {keys vals : List UInt32} (hlength : keys.length = vals.length) : tagsFrom b keys vals =
      .ok (decodeTags table ((keys.map UInt32.toNat).zip (vals.map UInt32.toNat))) := by
  induction keys generalizing vals with
  | nil =>
    rw [length_nil, eq_comm, length_eq_zero_iff] at hlength
    subst hlength
    rfl
  | cons k ks ih =>
    obtain ⟨v, vs, rfl⟩ := exists_cons_of_length_eq_add_one hlength.symm
    rw [tagsFrom, hstrings, hstrings, ok_bind, ok_bind, ih (by simpa using hlength)]
    simp only [map_cons, zip_cons_cons, decodeTags]
    cases table[k.toNat]? with
    | none => rfl
    | some key =>
      cases table[v.toNat]? with
      | none => rfl
      | some val => rfl

lemma wayTags_eq {b : WireBlock} (hstrings : ∀ i, b.stringGet i = .ok table[i]?) {w : Way}
    (h : TagsOk w.way.keysData w.way.valsData keys vals) :
    wayTags ph b w = .ok (decodeTags table (rawTags ph w.way)) := by
  refine tagsFrom_eq hstrings ?_
  rw [ph.packedUint32_eq h.keyValues, ph.packedUint32_eq h.valValues, length_map,
    length_map, h.length]

lemma readsField_skipRecordingKind (kinds : KindSet) (field wire : Nat) :
    ReadsField ph.reader wire (skipRecordingKind ph kinds field wire) := by
  unfold skipRecordingKind
  split
  · exact readsField_skip _ _
  · next hwire =>
    rw [not_not] at hwire
    subst hwire
    split
    · exact readsField_skip _ _
    · exact readsField_take Crate.readsField_len _
    · exact readsField_skip _ _
    · exact readsField_skip _ _

lemma local_wayGroupField {α : Type} (parse : Bytes → Except Error α) :
    Local ph.reader (wayGroupField ph parse) := by
  intro s field wire
  unfold wayGroupField
  split
  · next h =>
    rw [h.2]
    exact readsField_take Crate.readsField_len _
  · exact readsField_take (readsField_skipRecordingKind _ _ _) _

lemma skipRecordingKind_ok {fld : Field} (kinds : KindSet)
    (hskip : ph.skipField fld.wire fld.raw = .ok [])
    (hdense : ∀ data ∈ messageOf ph 2 fld, ∃ w, WireDenseNodes.parse ph data = .ok w) :
    ∃ kinds', skipRecordingKind ph kinds fld.number fld.wire fld.raw = .ok (kinds', []) := by
  obtain ⟨field, wire, raw⟩ := fld
  have hskipped : ∀ t : KindSet, skip ph.reader t wire raw = .ok (t, []) := by
    intro t
    rw [skip, show ph.reader.skipField wire raw = .ok [] from hskip]
    rfl
  simp only [skipRecordingKind]
  split
  · exact ⟨_, hskipped _⟩
  · next hwire =>
    rw [not_not] at hwire
    subst hwire
    split
    · exact ⟨_, hskipped _⟩
    · obtain ⟨body, hbody⟩ := ph.skipField_len.mp hskip
      obtain ⟨w, hw⟩ := hdense body (by simp [messageOf, hbody])
      exact ⟨_, take_eq_ok.mpr ⟨body, hbody, map_eq_ok.mpr ⟨w, hw, rfl⟩⟩⟩
    · exact ⟨_, hskipped _⟩
    · exact ⟨_, hskipped _⟩

lemma walk_wayGroupField {α : Type} {parse : Bytes → Except Error α} {group : Bytes}
    {fs : List Field} (hfs : Fields ph.reader group fs)
    (hdense : ∀ data ∈ bodies ph 2 fs, ∃ w, WireDenseNodes.parse ph data = .ok w)
    {calls : List α} (hcalls : (bodies ph 3 fs).map parse = calls.map .ok) (s : WayCalls α) :
    ∃ kinds, walk ph.reader (wayGroupField ph parse) s group = .ok ⟨kinds, s.calls ++ calls⟩ := by
  suffices hfold : ∃ kinds, fs.foldlM (absorb (wayGroupField ph parse)) s =
      .ok ⟨kinds, s.calls ++ calls⟩ by
    obtain ⟨kinds, hkinds⟩ := hfold
    exact ⟨kinds, (walk_ok_iff (local_wayGroupField parse)).mpr ⟨fs, hfs, hkinds⟩⟩
  induction hfs generalizing s calls with
  | nil =>
    cases calls with
    | nil => exact ⟨s.kinds, by simp [pure, Except.pure]⟩
    | cons _ _ => simp [bodies] at hcalls
  | @cons _ raw rest field wire fs _ hskip _ ih =>
    have hraw := skipField_value hskip
    rw [bodies_cons, forall_mem_append] at hdense
    rw [bodies_cons] at hcalls
    by_cases hway : field = 3 ∧ wire = wireLen
    · obtain ⟨rfl, rfl⟩ := hway
      obtain ⟨body, hbody⟩ := ph.skipField_len.mp hraw
      have hmessage : messageOf ph 3 ⟨3, wireLen, raw⟩ = some body := by
        simp [messageOf, hbody]
      rw [hmessage] at hcalls
      cases calls with
      | nil => simp at hcalls
      | cons call calls =>
        obtain ⟨hcall, hrest⟩ := cons.inj hcalls
        have hstep : absorb (wayGroupField ph parse) s ⟨3, wireLen, raw⟩ =
            .ok ⟨s.kinds.add .way, s.calls ++ [call]⟩ := by
          simp [absorb, wayGroupField, take, hbody, hcall, Except.bind, Except.map]
        obtain ⟨kinds, hkinds⟩ := ih hdense.2 hrest ⟨s.kinds.add .way, s.calls ++ [call]⟩
        rw [append_assoc] at hkinds
        exact ⟨kinds, by rw [foldlM_cons, hstep]; exact hkinds⟩
    · have hmessage : messageOf ph 3 ⟨field, wire, raw⟩ = none := by
        simp [messageOf, hway]
      rw [hmessage] at hcalls
      have hforeign := hdense.1
      obtain ⟨kinds', hskipped⟩ := @skipRecordingKind_ok ph ⟨field, wire, raw⟩ s.kinds hraw
        (by simpa using hforeign)
      have hstep : absorb (wayGroupField ph parse) s ⟨field, wire, raw⟩ =
          .ok { s with kinds := kinds' } := by
        simp only [absorb, wayGroupField, if_neg hway, take, hskipped, Except.bind]
        rfl
      obtain ⟨kinds, hkinds⟩ := ih hdense.2 hcalls { s with kinds := kinds' }
      exact ⟨kinds, by rw [foldlM_cons, hstep]; exact hkinds⟩

lemma local_groupsField : Local ph.reader (groupsField ph) := by
  intro out field wire
  unfold groupsField
  split
  · exact readsField_take Crate.readsField_len _
  · exact readsField_skip out wire

/-- The scan of the references sees the groups of the block. -/
theorem walk_groupsField {bytes : Bytes} {fs : List Field} (hfs : Fields ph.reader bytes fs) :
    walk ph.reader (groupsField ph) [] bytes = .ok (bodies ph 2 fs) := by
  have hstep : ∀ out, ∀ fld ∈ fs, ph.reader.skipField fld.wire fld.raw = .ok [] →
      absorb (groupsField ph) out fld = .ok (out ++ (messageOf ph 2 fld).toList) := by
    intro out ⟨field, wire, raw⟩ _ hskip
    by_cases hgroup : field = 2 ∧ wire = wireLen
    · obtain ⟨rfl, rfl⟩ := hgroup
      obtain ⟨body, hbody⟩ := ph.skipField_len.mp hskip
      simp [absorb, groupsField, take, hbody, messageOf, Except.bind, Except.map]
    · rw [absorb_skip ?_ hskip]
      · simp [messageOf, hgroup]
      · simp only [groupsField]
        split
        · exact absurd ⟨rfl, rfl⟩ hgroup
        · rfl
  rw [walk_fold local_groupsField hfs hstep, foldl_bodies, nil_append]

lemma local_taggedTopField : Local ph.reader (taggedTopField ph) := by
  intro s field wire
  unfold taggedTopField
  split
  · exact readsField_take Crate.readsField_len _
  · exact readsField_take Crate.readsField_len _
  · exact readsField_skip s wire

/-- The tag-aware scan's top level beside the decoder's. -/
def SameTagged (s : Top) (t : TaggedTop) : Prop :=
  t.stringtableData.getD [] = s.table ∧ t.groups = s.groups

lemma SameTagged.step {s s' : Top} {t : TaggedTop} {field wire : Nat} {cur rest : Bytes}
    (hsame : SameTagged s t) (h : topField ph s field wire cur = .ok (s', rest)) :
    ∃ t', taggedTopField ph t field wire cur = .ok (t', rest) ∧ SameTagged s' t' := by
  obtain ⟨htable, hgroups⟩ := hsame
  unfold topField at h
  split at h
  · obtain ⟨d, hd, hs⟩ := take_eq_ok.mp h
    cases hs
    refine ⟨{ t with stringtableData := some d }, ?_, rfl, hgroups⟩
    simp [taggedTopField, take, hd, Except.bind, Except.map]
  · obtain ⟨d, hd, hs⟩ := take_eq_ok.mp h
    cases hs
    refine ⟨{ t with groups := t.groups ++ [d] }, ?_, htable, congrArg (· ++ [d]) hgroups⟩
    simp [taggedTopField, take, hd, Except.bind, Except.map]
  · next hone htwo =>
    obtain ⟨f, hf, hs⟩ := take_eq_ok.mp h
    cases hs
    refine ⟨t, ?_, htable, hgroups⟩
    unfold taggedTopField
    split
    · exact absurd rfl (hone rfl)
    · exact absurd rfl (htwo rfl)
    · exact NodeScan.skip_of_reads (readsField_scalarField _ _ _) hf t

lemma walk_taggedTopField {bytes : Bytes} {top : Top}
    (h : walk ph.reader (topField ph) {} bytes = .ok top) :
    ∃ t, walk ph.reader (taggedTopField ph) {} bytes = .ok t ∧ SameTagged top t :=
  walk_sim local_topField.steps local_taggedTopField.steps
    (fun _ hsame hstep => SameTagged.step hsame hstep) (suffix_refl bytes) ⟨rfl, rfl⟩ h

lemma local_resolveField (lits : GeocodeTagLiterals) : Local ph.reader (resolveField ph lits) := by
  intro st field wire
  unfold resolveField
  split
  · next h =>
    rw [h.2]
    exact readsField_take Crate.readsField_len _
  · exact readsField_skip st wire

lemma resolveTagIndices_eq (lits : GeocodeTagLiterals)
    (h : walk ph.reader (tableField ph) [] data = .ok table) :
    resolveTagIndices ph lits data = .ok (table.foldl (resolveEntry lits) {}).resolved := by
  obtain ⟨fs, hfs, rfl⟩ := table_eq_bodies h
  have hstep : ∀ st, ∀ fld ∈ fs, ph.reader.skipField fld.wire fld.raw = .ok [] →
      absorb (resolveField ph lits) st fld =
        .ok ((messageOf ph 1 fld).toList.foldl (resolveEntry lits) st) := by
    intro st ⟨field, wire, raw⟩ _ hskip
    by_cases hentry : field = 1 ∧ wire = wireLen
    · obtain ⟨rfl, rfl⟩ := hentry
      obtain ⟨body, hbody⟩ := ph.skipField_len.mp hskip
      simp [absorb, resolveField, take, hbody, messageOf, Except.bind, Except.map]
    · rw [absorb_skip ?_ hskip]
      · simp [messageOf, hentry]
      · simp only [resolveField, if_neg hentry]
  rw [resolveTagIndices, walk_fold (local_resolveField lits) hfs hstep, foldl_messageOf]
  rfl

lemma ways_groupList (fields : BlockFields) (dense : List DenseNode)
    (nodes : List WireNode) (ways : List WireWay) (relations : List WireRelation) :
    (groupList fields dense nodes ways relations).filterMap way? = ways.map (⟨fields, ·⟩) := by
  simp [groupList, filterMap_append, filterMap_map, Function.comp_def, way?]

/-- A parse of a way's message that, on validated ways, makes the call `f`. -/
def CallsAs {α : Type} (ph : Crate) (parse : Bytes → Except Error α) (f : WireWay → α) :
    Prop :=
  ∀ {data : Bytes} {way : WireWay} {keys vals refs lats lons : List Nat},
    WireWay.parse ph data = .ok way → TagsOk way.keysData way.valsData keys vals →
      WayOk way refs lats lons → parse data = .ok (f way)

lemma walk_group {α : Type} {parse : Bytes → Except Error α} {f : WireWay → α}
    (hcalls : CallsAs ph parse f) {group : Bytes} {part : List Element} {k : KindSet}
    {n : Nat} (hvalid : GroupOk ph group k n) (hpart : groupElements ph fields group = .ok part)
    (s : WayCalls α) : ∃ kinds, walk ph.reader (wayGroupField ph parse) s group =
      .ok ⟨kinds, s.calls ++ (part.filterMap way?).map fun w => f w.way⟩ := by
  obtain ⟨message, dense, nodes, ways, relations, hparts, rfl⟩ := groupElements_eq_ok.mp hpart
  obtain ⟨fs, hfs⟩ := hvalid.framed
  obtain ⟨d, ids, hgroup, hmessage, -⟩ := hvalid.dense
  have hways : (messages ph 3 group).map parse = (ways.map f).map .ok := by
    refine map_eq_ok_of hparts.ways fun data hdata way hparse => ?_
    obtain ⟨way', hparse', ⟨keys, vals, htags⟩, refs, lats, lons, hway⟩ := hvalid.ways data hdata
    rw [hparse, Except.ok.injEq] at hparse'
    subst hparse'
    exact hcalls hparse htags hway
  rw [(messages_of_fields hfs).2] at hways
  have hdense : ∀ data ∈ bodies ph 2 fs, ∃ w, WireDenseNodes.parse ph data = .ok w := by
    intro data hdata
    rw [groupDense_eq hfs hgroup] at hdata
    cases hmessage with
    | none => simp at hdata
    | some hparse _ =>
      rw [Option.toList_some, mem_singleton] at hdata
      subst hdata
      exact ⟨_, hparse⟩
  obtain ⟨kinds, hwalk⟩ := walk_wayGroupField hfs hdense hways s
  refine ⟨kinds, ?_⟩
  rw [hwalk, ways_groupList, List.map_map]
  rfl

lemma foldlM_groups {α : Type} {parse : Bytes → Except Error α} {f : WireWay → α}
    (hcalls : CallsAs ph parse f) {groups : List Bytes} {parts : List (List Element)}
    (hparts : groups.map (groupElements ph fields) = parts.map .ok)
    (hvalid : ∀ data ∈ groups, ∃ k n, validateGroup ph data = .ok (k, n)) (s : WayCalls α) :
    ∃ kinds, groups.foldlM (walk ph.reader (wayGroupField ph parse)) s =
      .ok ⟨kinds, s.calls ++ (parts.flatten.filterMap way?).map fun w => f w.way⟩ := by
  induction groups generalizing parts s with
  | nil =>
    cases parts with
    | nil => exact ⟨s.kinds, by simp [pure, Except.pure]⟩
    | cons _ _ => simp at hparts
  | cons group groups ih =>
    cases parts with
    | nil => simp at hparts
    | cons part parts =>
      obtain ⟨hpart, hrest⟩ := cons.inj hparts
      rw [forall_mem_cons] at hvalid
      obtain ⟨⟨k, n, hgroup⟩, hvalid⟩ := hvalid
      obtain ⟨mid, hmid⟩ := walk_group hcalls (validateGroup_ok hgroup) hpart s
      obtain ⟨kinds, hkinds⟩ := ih hrest hvalid
        ⟨mid, s.calls ++ (part.filterMap way?).map fun w => f w.way⟩
      refine ⟨kinds, ?_⟩
      rw [foldlM_cons, hmid, ok_bind, hkinds, flatten_cons, filterMap_append,
        map_append, append_assoc]

/-- The ways of a constructed block have tag arrays that end together. -/
theorem tagsOk_of_mem {groups : List Bytes} {parts : List (List Element)}
    (hparts : groups.map (groupElements ph fields) = parts.map .ok)
    (hvalid : ∀ data ∈ groups, ∃ k n, validateGroup ph data = .ok (k, n)) :
    ∀ w ∈ parts.flatten.filterMap way?,
      ∃ keys vals, TagsOk w.way.keysData w.way.valsData keys vals := by
  intro w hw
  obtain ⟨e, he, hway⟩ := mem_filterMap.mp hw
  obtain ⟨part, hpart, hmem⟩ := mem_flatten.mp he
  obtain ⟨group, hgroup, hpart⟩ := mem_of_map_eq_ok hparts hpart
  obtain ⟨k, n, hgroupOk⟩ := hvalid group hgroup
  obtain ⟨message, dense, nodes, ways, relations, hgroupParts, rfl⟩ :=
    groupElements_eq_ok.mp hpart
  have hw : w ∈ ways.map (⟨fields, ·⟩ : WireWay → Way) := by
    rw [← ways_groupList fields dense nodes ways relations]
    exact mem_filterMap.mpr ⟨e, hmem, hway⟩
  obtain ⟨wire, hwire, rfl⟩ := mem_map.mp hw
  obtain ⟨data, hdata, hparse⟩ := mem_of_map_eq_ok hgroupParts.ways hwire
  obtain ⟨way', hparse', htags, -⟩ := (validateGroup_ok hgroupOk).ways data hdata
  rw [hparse, Except.ok.injEq] at hparse'
  subst hparse'
  exact htags

lemma standard_keys (k k' : GeocodeKey)
    (h : GeocodeTagLiterals.standard.key k = GeocodeTagLiterals.standard.key k') : k = k' := by
  cases k <;> cases k' <;> first | rfl | exact absurd h (by decide)

/-- On a constructed block the scanners agree with the way elements exactly where, in each way, the
slots of the string table decide as the strings do. -/
theorem scanners_agree_iff {bytes : Bytes} {block : PrimitiveBlock}
    (h : fromVec ph bytes = .ok block) (hfits : Fits bytes block) :
    ∃ es table, elements ph block = .ok es ∧ (∀ i, block.block.stringGet i = .ok table[i]?) ∧
      (Agrees ph .standard bytes block es ↔
        ∀ w ∈ es.filterMap way?, SlotsDecide .standard table (rawTags ph w.way)) := by
  obtain ⟨es, hes⟩ := elements_ok h hfits
  obtain ⟨top, table, hopen⟩ := fromVec_opened h hfits
  obtain ⟨parts, hparts, rfl⟩ := NodeScan.elements_parts hopen hes
  refine ⟨_, table, hes, hopen.strings, ?_⟩
  obtain ⟨fs, hfs, hgroups⟩ := groups_eq_bodies hopen.walked
  have hrefs : CallsAs ph (parseWayRefs ph) fun way =>
      (way.id, Deltas.sumsFrom 0 (ph.packedSint64 way.refsData)) :=
    fun hparse _ hway => parseWayRefs_eq hparse hway
  obtain ⟨refKinds, hrefScan⟩ := foldlM_groups hrefs hparts hopen.valid {}
  have hscan : scanWayRefs ph bytes = .ok ⟨refKinds, (parts.flatten.filterMap way?).map
      fun w => (w.way.id, wayRefs ph w)⟩ := by
    rw [scanWayRefs, walk_groupsField hfs, ← hgroups]
    exact hrefScan
  let r := (table.foldl (resolveEntry .standard) {}).resolved
  have htagged : CallsAs ph (parseWayTaggedRefs ph r) (slotCall ph r) :=
    fun hparse htags hway => parseWayTaggedRefs_eq r hparse htags hway
  obtain ⟨tagKinds, htagScan⟩ := foldlM_groups htagged hparts hopen.valid {}
  have hresolve := resolveTagIndices_eq .standard hopen.listed
  obtain ⟨t, htop, htable, htopGroups⟩ := walk_taggedTopField hopen.walked
  have hslots : t.stringtableData.elim (.ok {}) (resolveTagIndices ph .standard) = .ok r := by
    rw [← htable] at hresolve
    cases hdata : t.stringtableData with
    | none =>
      rw [hdata] at hresolve
      exact hresolve
    | some data =>
      rw [hdata] at hresolve
      exact hresolve
  have hscanTagged : scanWayGeocodeTaggedRefs ph .standard bytes = .ok ⟨tagKinds,
      (parts.flatten.filterMap way?).map fun w => slotCall ph r w.way⟩ := by
    simp only [scanWayGeocodeTaggedRefs, htop, ok_bind, hslots, htopGroups]
    exact htagScan
  have hdecoded : (parts.flatten.filterMap way?).mapM (decodedCall ph .standard block.block) =
      .ok ((parts.flatten.filterMap way?).map fun w =>
        (w.way.id, decodedFlags .standard (decodeTags table (rawTags ph w.way)),
          wayRefs ph w)) := by
    refine mapM_eq_ok.mpr ?_
    rw [List.map_map]
    refine map_congr_left fun w hw => ?_
    obtain ⟨keys, vals, htags⟩ := tagsOk_of_mem hparts hopen.valid w hw
    rw [decodedCall, wayTags_eq hopen.strings htags]
    rfl
  have hcall : ∀ w : Way, (w.way.id, decodedFlags .standard (decodeTags table (rawTags ph w.way)),
      wayRefs ph w) = slotCall ph r w.way ↔
        SlotsDecide .standard table (rawTags ph w.way) := by
    intro w
    have hdecide : r.flags ((rawTags ph w.way).foldl (fun s t => r.see s t.1 (some t.2)) {}) =
        decodedFlags .standard (decodeTags table (rawTags ph w.way)) ↔
          SlotsDecide .standard table (rawTags ph w.way) :=
      slotFlags_eq_decodedFlags standard_keys (by decide)
    rw [← hdecide, slotCall, Prod.mk.injEq, Prod.mk.injEq]
    constructor
    · rintro ⟨-, hflags, -⟩
      exact hflags.symm
    · intro hflags
      exact ⟨rfl, hflags.symm, rfl⟩
  rw [Agrees, hscan, hscanTagged, hdecoded]
  constructor
  · rintro ⟨-, s, hs, hcalls⟩ w hw
    cases hs
    rw [Except.ok.injEq] at hcalls
    exact (hcall w).mp (map_inj_left.mp hcalls w hw)
  · intro hall
    refine ⟨⟨_, rfl, rfl⟩, _, rfl, ?_⟩
    rw [Except.ok.injEq]
    exact map_congr_left fun w hw => (hcall w).mpr (hall w hw)

end Reads

/-- A residential highway with a name, tagged through the second "highway" of the table. -/
def twiceBlock : Bytes :=
  lenField 1 (lenField 1 [] ++ lenField 1 (BlobWire.utf8Bytes "highway") ++
    lenField 1 (BlobWire.utf8Bytes "name") ++ lenField 1 (BlobWire.utf8Bytes "highway") ++
    lenField 1 (BlobWire.utf8Bytes "residential") ++ lenField 1 (BlobWire.utf8Bytes "Main")) ++
  lenField 2 (lenField 3 (varintField 1 7 ++ packedField 2 [3, 2] ++ packedField 3 [4, 5] ++
    packedField 8 [2, 2]))

lemma twiceBlock_accepted :
    ∃ block, fromVec Reference.crate twiceBlock = .ok block ∧ Fits twiceBlock block :=
  ⟨_, rfl, by unfold Fits; decide⟩

theorem scanners_agree_iff_twice : ∃ block, fromVec Reference.crate twiceBlock = .ok block ∧
      ∃ es table, elements Reference.crate block = .ok es ∧
        (∀ i, block.block.stringGet i = .ok table[i]?) ∧
        (Agrees Reference.crate .standard twiceBlock block es ↔ ∀ w ∈ es.filterMap way?,
          SlotsDecide .standard table (rawTags Reference.crate w.way)) := by
  obtain ⟨block, hblock, hfits⟩ := twiceBlock_accepted
  exact ⟨block, hblock, scanners_agree_iff hblock hfits⟩

set_option maxRecDepth 4000 in
/-- By its strings the way is a street, by the first slots it is nothing. -/
theorem scanners_differ_twice : ∃ block es, fromVec Reference.crate twiceBlock = .ok block ∧
      elements Reference.crate block = .ok es ∧
      (es.filterMap way?).mapM (decodedCall Reference.crate .standard block.block) =
        .ok [(7, ⟨true, false, false⟩, [1, 2])] ∧
      (scanWayGeocodeTaggedRefs Reference.crate .standard twiceBlock).map WayCalls.calls =
        .ok [(7, ⟨false, false, false⟩, [1, 2])] ∧
      ¬Agrees Reference.crate .standard twiceBlock block es := by
  refine ⟨_, _, rfl, rfl, rfl, rfl, ?_⟩
  rintro ⟨-, s, hs, hcalls⟩
  have hscanned : (scanWayGeocodeTaggedRefs Reference.crate .standard twiceBlock).map
      WayCalls.calls = .ok [(7, ⟨false, false, false⟩, [1, 2])] := rfl
  rw [hs] at hscanned
  have hdecoded : Except.ok [(7, ⟨true, false, false⟩, [1, 2])] =
      (Except.ok s.calls : Except Panic (List (Int64 × WayGeocodeFlags × List Int64))) := hcalls
  have hsame := (Except.ok.inj hdecoded).trans (Except.ok.inj hscanned)
  exact absurd hsame (by decide)

end WayScan
