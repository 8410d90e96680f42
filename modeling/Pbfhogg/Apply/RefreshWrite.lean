import Pbfhogg.Apply.Refresh

/-!
# Writing a surviving way with its locations

`write_base_way_local_with_locations` copies a way's raw arrays into a block of the default framing.
A stale way reads back with the diff's coordinate wherever the diff upserts the node, and with its
own everywhere else.
-/

namespace RefreshWrite

open Protohoggr FieldWalk Chunks Written WireMessages BlockScan BlockValid Elements Fallible Varint
  Deltas StaleProbe Refresh WayScan List Option
open NodeLocations (Coord)

section Source

variable (ph : Crate)

def defaultDateGranularity : Int32 := 1000

/-- A timestamp field in whole seconds. -/
def secondsField (dateGranularity : Int32) (raw : Int64) : Bytes :=
  ph.encodeTag 2 wireVarint ++
    ph.encodeVarint (raw * dateGranularity.toInt64 / 1000).toUInt64.toNat

/-- The timestamp of an `Info` is rescaled; other fields are copied. -/
def outputInfoField (dateGranularity : Int32) : Handler Error Bytes := fun buf field wire =>
  match field, wire with
  | 2, wireVarint => fun cur =>
    take (ph.readVarintI64 cur) fun raw => .ok (buf ++ secondsField ph dateGranularity raw)
  | _, _ => fun cur =>
    take (ph.readRawField wire cur) fun bytes => .ok (buf ++ ph.encodeTag field wire ++ bytes)

def outputInfo (info : Option Bytes) (dateGranularity : Int32) :
    Except Error (Option Bytes) :=
  match info with
  | none => .ok none
  | some data =>
    if dateGranularity = defaultDateGranularity then .ok (some data)
    else (walk ph.reader (outputInfoField ph dateGranularity) [] data).map some

/-- The message of the way, as it is appended to the group. -/
def encodeWayRawBytesWithLocations (id : Int64) (keysData valsData refsData latData lonData :
    Bytes) (infoData : Option Bytes) : Bytes :=
  ph.encodeInt64Field 1 id ++ ph.encodeBytesField 2 keysData ++ ph.encodeBytesField 3 valsData ++
    (match infoData with
      | some info => ph.encodeBytesField 4 info
      | none => []) ++
    ph.encodeBytesField 8 refsData ++
    (if latData ≠ [] then ph.encodeBytesField 9 latData else []) ++
    (if lonData ≠ [] then ph.encodeBytesField 10 lonData else [])

structure RefreshTally where
  ways : Nat := 0
  refs : Nat := 0
  deletedRefs : Nat := 0

/-- Whether the locations are to be written anew, with the tally of the evaluation. -/
def reencodes (probe : Probe) (framing : CoordFraming) (way : WireWay) (tally : RefreshTally) :
    Except Error (Bool × RefreshTally) := do
  let hasCoords := !(decide (way.latData = []) && decide (way.lonData = []))
  let reencode := hasCoords && framing ≠ .default
  if probe.isEmpty then .ok (reencode, tally)
  else do
    let eval ← evaluateWay ph probe.get framing way.refsData way.latData way.lonData
    return (reencode || decide (0 < eval.staleRefs),
      { tally with deletedRefs := tally.deletedRefs + eval.deletedRefs })

def RefreshTally.add (tally : RefreshTally) (changed : Nat) : RefreshTally :=
  if 0 < changed then { tally with ways := tally.ways + 1, refs := tally.refs + changed }
  else tally

/-- `write_base_way_local_with_locations`, as far as the message it hands to the builder. -/
def writeBaseWayLocalWithLocations (probe : Probe) (framing : CoordFraming)
    (dateGranularity : Int32) (way : WireWay) (tally : RefreshTally) :
    Except Error (Bytes × RefreshTally) := do
  let (reencode, tally) ← reencodes ph probe framing way tally
  let info ← outputInfo ph way.infoData dateGranularity
  if reencode then do
    let (changed, lats, lons) ←
      refreshedLocations ph probe.get framing way.refsData way.latData way.lonData
    return (encodeWayRawBytesWithLocations ph way.id way.keysData way.valsData way.refsData lats
      lons info, tally.add changed)
  else
    return (encodeWayRawBytesWithLocations ph way.id way.keysData way.valsData way.refsData
      way.latData way.lonData info, tally)

end Source

section Written

variable {ph : Crate}

def infoChunks (infoData : Option Bytes) : List Chunk :=
  infoData.elim [] (bytesChunks 4)

variable (w : WireWay)

/-- The fields of a way, but for the pins. -/
def wayChunks : List Chunk :=
  int64Chunks 1 w.id ++ bytesChunks 2 w.keysData ++ bytesChunks 3 w.valsData ++
    infoChunks w.infoData ++ bytesChunks 8 w.refsData ++ bytesChunks 9 w.latData ++
    bytesChunks 10 w.lonData

lemma join_wayChunks :
    join (wayChunks w) = encodeWayRawBytesWithLocations ph w.id w.keysData w.valsData w.refsData
      w.latData w.lonData w.infoData := by
  have hopt : ∀ (f : Nat) (data : Bytes),
      (if data ≠ [] then ph.encodeBytesField f data else []) = ph.encodeBytesField f data := by
    intro f data
    split
    · rfl
    · next h =>
      rw [not_not] at h
      rw [h, ph.encodeBytesField_nil]
  have hinfo : join (infoChunks w.infoData) =
      (match w.infoData with
        | some info => ph.encodeBytesField 4 info
        | none => []) := by
    cases w.infoData with
    | none => rfl
    | some info => exact join_bytesChunks 4 info
  simp only [wayChunks, encodeWayRawBytesWithLocations, join_append, hopt, hinfo,
    @join_bytesChunks ph, @join_int64Chunks ph]

lemma isWritten_wayChunks : ∀ c ∈ wayChunks w, IsWritten c := by
  have hinfo : ∀ c ∈ infoChunks w.infoData, IsWritten c := by
    cases w.infoData with
    | none => nofun
    | some info => exact isWritten_bytesChunks info (by decide) (by decide)
  intro c hc
  simp only [wayChunks, mem_append] at hc
  rcases hc with (((((hc | hc) | hc) | hc) | hc) | hc) | hc
  · exact isWritten_int64Chunks _ (by decide) (by decide) c hc
  · exact isWritten_bytesChunks _ (by decide) (by decide) c hc
  · exact isWritten_bytesChunks _ (by decide) (by decide) c hc
  · exact hinfo c hc
  · exact isWritten_bytesChunks _ (by decide) (by decide) c hc
  · exact isWritten_bytesChunks _ (by decide) (by decide) c hc
  · exact isWritten_bytesChunks _ (by decide) (by decide) c hc

/-- A written packed field fills an empty slot. -/
theorem foldlM_bytesChunks {σ : Type} {h : Handler Error σ} {s : σ} {f : Nat} {body : Bytes}
    {msg : String} {k : Bytes → σ}
    (hh : h s f wireLen = fun cur => take (takePacked ph wireLen [] msg cur) fun d => .ok (k d))
    (hnil : k [] = s) (hlen : body.length < 2 ^ 64) :
    ((bytesChunks f body).map Chunk.field).foldlM (absorb h) s = .ok (k body) := by
  unfold bytesChunks
  by_cases hbody : body = []
  · rw [if_pos hbody, hbody, hnil]
    rfl
  · rw [if_neg hbody]
    have hread : takePacked ph wireLen [] msg (lenValue body) = .ok (body, []) := by
      have hval := @Crate.readLenDelimited_lenValue ph body hlen []
      rw [append_nil] at hval
      exact take_eq_ok.mpr ⟨body, by rw [if_pos rfl, hval], by simp [hbody]⟩
    have habsorb := @absorb_take _ _ _ h s ⟨f, wireLen, lenValue body⟩ body _ _ hh hread
    simp [Chunk.field, lenChunk, habsorb]

/-- What a parse makes of a written way: an empty `Info` and the pins are left out. -/
def readBack : WireWay :=
  { w with infoData := w.infoData.filter (· ≠ []), pinsData := none }

lemma foldlM_idChunks (id : Int64) :
    ((int64Chunks 1 id).map Chunk.field).foldlM (absorb (wayField ph)) {} =
      .ok { id := id } := by
  unfold int64Chunks
  by_cases h : id = 0
  · rw [if_pos h, h]
    rfl
  · rw [if_neg h]
    have hread : ph.readVarintI64 (encode (signExtend id.toInt)) = .ok (id, []) := by
      refine ph.readVarintI64_ok.mpr ⟨signExtend id.toInt, ?_, (asInt64_signExtend _).symm⟩
      have hdecode := decode_encode (signExtend_lt id.toInt) []
      rwa [append_nil] at hdecode
    have habsorb := @absorb_take _ _ _ (wayField ph) {} ⟨1, wireVarint, encode _⟩ id _
      (fun id => .ok { id := id }) rfl hread
    simp [Chunk.field, varintChunk, habsorb]

lemma foldlM_infoChunks {s : WireWay} {infoData : Option Bytes} (hs : s.infoData = none)
    (hlen : (infoData.getD []).length < 2 ^ 64) :
    ((infoChunks infoData).map Chunk.field).foldlM (absorb (wayField ph)) s =
      .ok { s with infoData := infoData.filter (· ≠ []) } := by
  have hskip : s = { s with infoData := none } := by rw [← hs]
  cases infoData with
  | none =>
    simp only [Option.filter_none, ← hskip]
    rfl
  | some info =>
    by_cases hinfo : info = []
    · subst hinfo
      simp only [Option.filter_some, ne_eq, not_true_eq_false, decide_false, Bool.false_eq_true,
        if_false, ← hskip]
      rfl
    · have hread : takeMessage ph s.infoData (dupMessage "Way.info") (lenValue info) =
          .ok (some info, []) := by
        have hval := @Crate.readLenDelimited_lenValue ph info hlen []
        rw [List.append_nil] at hval
        exact take_eq_ok.mpr ⟨info, hval, by rw [hs]⟩
      have habsorb := @absorb_take _ _ _ (wayField ph) s ⟨4, wireLen, lenValue info⟩ (some info) _
        (fun d => .ok { s with infoData := d }) rfl hread
      simp [infoChunks, bytesChunks, hinfo, Chunk.field, lenChunk, habsorb, Option.filter]

lemma parse_wayChunks (hlen : (join (wayChunks w)).length < 2 ^ 64) :
    WireWay.parse ph (join (wayChunks w)) = .ok (readBack w) := by
  have hbodies : ∀ body ∈ [w.keysData, w.valsData, w.infoData.getD [], w.refsData, w.latData,
      w.lonData], body.length < 2 ^ 64 := by
    have hinfo : (w.infoData.getD []).length ≤ (join (infoChunks w.infoData)).length := by
      cases w.infoData with
      | none => simp
      | some info =>
        rw [infoChunks, elim_some, @join_bytesChunks ph]
        exact length_le_encodeBytesField 4 info
    simp only [wayChunks, join_append, length_append, @join_bytesChunks ph] at hlen
    have hkeys := @length_le_encodeBytesField ph 2 w.keysData
    have hvals := @length_le_encodeBytesField ph 3 w.valsData
    have hrefs := @length_le_encodeBytesField ph 8 w.refsData
    have hlats := @length_le_encodeBytesField ph 9 w.latData
    have hlons := @length_le_encodeBytesField ph 10 w.lonData
    simp only [forall_mem_cons, not_mem_nil, false_implies, implies_true, and_true]
    omega
  simp only [forall_mem_cons, not_mem_nil, false_implies, implies_true, and_true]
    at hbodies
  obtain ⟨lkeys, lvals, linfo, lrefs, llats, llons⟩ := hbodies
  refine (walk_join_iff local_wayField (framed_of_isWritten (isWritten_wayChunks w) hlen)).mpr ?_
  -- Field by field, each fills the slot that the fields before it left empty.
  have hkeys := @foldlM_bytesChunks ph _ (wayField ph) { id := w.id } 2 w.keysData _
    (fun d => { id := w.id, keysData := d }) rfl rfl lkeys
  have hvals := @foldlM_bytesChunks ph _ (wayField ph) _ 3 w.valsData _
    (fun d => { id := w.id, keysData := w.keysData, valsData := d }) rfl rfl lvals
  have hinfo := @foldlM_infoChunks ph
    { id := w.id, keysData := w.keysData, valsData := w.valsData } w.infoData rfl linfo
  have hrefs := @foldlM_bytesChunks ph _ (wayField ph) _ 8 w.refsData _
    (fun d => { readBack w with refsData := d, latData := [], lonData := [] }) rfl rfl lrefs
  have hlats := @foldlM_bytesChunks ph _ (wayField ph) _ 9 w.latData _
    (fun d => { readBack w with latData := d, lonData := [] }) rfl rfl llats
  have hlons := @foldlM_bytesChunks ph _ (wayField ph) _ 10 w.lonData _
    (fun d => { readBack w with lonData := d }) rfl rfl llons
  simp only [wayChunks, map_append, foldlM_append, foldlM_idChunks, ok_bind, hkeys,
    hvals, hinfo]
  exact bind_eq_ok.mpr ⟨_, bind_eq_ok.mpr ⟨_, hrefs, hlats⟩, hlons⟩

end Written

section Info

variable {ph : Crate}

lemma local_outputInfoField (dateGranularity : Int32) :
    Local ph.reader (outputInfoField ph dateGranularity) := by
  intro s field wire
  unfold outputInfoField
  split
  · exact readsField_take Crate.readsField_varintI64 _
  · exact readsField_take (Crate.readsField_raw wire) _

/-- The `Info` of a way that its block was accepted with can be rescaled. -/
theorem outputInfo_ok {infoData : Option Bytes} {parsed : Option WireInfo}
    (h : validateInfo ph infoData = .ok parsed) (dateGranularity : Int32) :
    ∃ info, outputInfo ph infoData dateGranularity = .ok info := by
  cases infoData with
  | none => exact ⟨none, rfl⟩
  | some data =>
    by_cases hdefault : dateGranularity = defaultDateGranularity
    · exact ⟨some data, by rw [outputInfo, if_pos hdefault]⟩
    · obtain ⟨_, hparse, -⟩ := map_eq_ok.mp h
      obtain ⟨t, hwalk, -⟩ := map_eq_ok.mp hparse
      obtain ⟨fs, hfs, hfold⟩ := (walk_ok_iff local_infoField).mp hwalk
      have hcopy : ∀ {data fs}, Fields ph.reader data fs → ∀ {s t buf},
          fs.foldlM (absorb (infoField ph)) s = .ok t →
            ∃ out, fs.foldlM (absorb (outputInfoField ph dateGranularity)) buf = .ok out := by
        intro data fs hfs
        induction hfs with
        | nil => exact fun _ => ⟨_, rfl⟩
        | @cons _ raw rest f w fs _ hskip _ ih =>
          intro s t buf hfold
          obtain ⟨s', habsorb, hfold⟩ := bind_eq_ok.mp hfold
          have hstep : ∃ buf', absorb (outputInfoField ph dateGranularity) buf ⟨f, w, raw⟩ =
              .ok buf' := by
            by_cases htime : f = 2 ∧ w = wireVarint
            · obtain ⟨rfl, rfl⟩ := htime
              obtain ⟨x, rest', hx, -⟩ := (@absorb_take_eq_ok _ _ _ (infoField ph) s s'
                ⟨2, wireVarint, raw⟩ ph.readVarintI64
                (fun x => .ok { s with timestamp := some x }) rfl).mp habsorb
              exact ⟨_, (@absorb_take_eq_ok _ _ _ (outputInfoField ph dateGranularity) buf _
                ⟨2, wireVarint, raw⟩ ph.readVarintI64
                (fun x => .ok (buf ++ secondsField ph dateGranularity x)) rfl).mpr
                  ⟨x, rest', hx, rfl⟩⟩
            · have hraw := skipField_value hskip
              have hread : ph.readRawField w raw = .ok (raw, []) :=
                ph.readRawField_ok.mpr ⟨(append_nil raw).symm, hraw⟩
              have hcase : outputInfoField ph dateGranularity buf f w = fun cur =>
                  take (ph.readRawField w cur) fun bytes =>
                    .ok (buf ++ ph.encodeTag f w ++ bytes) := by
                unfold outputInfoField
                split
                · exact absurd ⟨rfl, rfl⟩ htime
                · rfl
              exact ⟨_, @absorb_take _ _ _ _ buf ⟨f, w, raw⟩ raw _
                (fun bytes => .ok (buf ++ ph.encodeTag f w ++ bytes)) hcase hread⟩
          obtain ⟨buf', hbuf'⟩ := hstep
          obtain ⟨out, hout⟩ := @ih s' t buf' hfold
          exact ⟨out, bind_eq_ok.mpr ⟨buf', hbuf', hout⟩⟩
      obtain ⟨out, hout⟩ := @hcopy data fs hfs _ _ [] hfold
      refine ⟨some out, ?_⟩
      rw [outputInfo, if_neg hdefault]
      exact map_eq_ok.mpr ⟨out, (walk_ok_iff (local_outputInfoField _)).mpr ⟨fs, hfs, hout⟩, rfl⟩

end Info

section Locations

variable {ph : Crate}

/-- The locations of a way, in decimicrodegrees. -/
def wayCoords (ph : Crate) (w : Way) : Except Panic (List Coord) :=
  (nodeLocations ph w).map fun locations =>
    locations.map fun l => (toDecimicro l.1, toDecimicro l.2)

/-- What the accessors of a way give: its references, each with its location. -/
structure Positions (ph : Crate) (w : Way) (ps : List (Int64 × Coord)) : Prop where
  refs : wayRefs ph w = ps.map Prod.fst
  coords : wayCoords ph w = .ok (ps.map Prod.snd)

lemma locationsFrom_of {fields : BlockFields} {clat clon : Int64} {dlats dlons : List Int64}
    (hlen : dlats.length = dlons.length) :
    locationsFrom fields clat clon dlats dlons =
      .ok (zip
        ((sumsFrom clat dlats).map (nano fields.latOffset fields.granularity.toInt64))
        ((sumsFrom clon dlons).map (nano fields.lonOffset fields.granularity.toInt64))) := by
  induction dlats generalizing clat clon dlons with
  | nil =>
    obtain rfl : dlons = [] := length_eq_zero_iff.mp hlen.symm
    rfl
  | cons dlat dlats ih =>
    cases dlons with
    | nil => cases hlen
    | cons dlon dlons =>
      rw [locationsFrom, ih (Nat.succ.inj hlen)]
      rfl

lemma positions_of_located {fields : BlockFields} {way : WireWay} {ps : List (Int64 × Coord)}
    (h : Located (.ofBlock fields) 0 0 0 way.refsData way.latData way.lonData ps) :
    Positions ph ⟨fields, way⟩ ps := by
  obtain ⟨vr, va, vo, harrays⟩ := h.arrays
  constructor
  · rw [wayRefs, ph.packedSint64_eq harrays.refValues, harrays.ids]
  · have hlen : (va.map asSint64).length = (vo.map asSint64).length := by
      rw [length_map, length_map, harrays.lat_length, harrays.lon_length]
    rw [wayCoords, nodeLocations, ph.packedSint64_eq harrays.latValues,
      ph.packedSint64_eq harrays.lonValues, locationsFrom_of hlen]
    refine map_eq_ok.mpr ⟨_, rfl, ?_⟩
    have hzip : ps.map Prod.snd = zip (ps.map fun p => p.2.1) (ps.map fun p => p.2.2) := by
      rw [zip_map']
    rw [hzip, harrays.lats, harrays.lons, List.zip_map, List.zip_map, List.map_map]
    rfl

/-- An empty probe knows no node. -/
theorem get_of_isEmpty {probe : Probe} (h : probe.isEmpty = true) (id : Int64) :
    probe.get id = none := by
  rw [Probe.isEmpty, isNone_iff_eq_none] at h
  rw [Probe.get, h, bind_none]

lemma isEmpty_of_moved {probe : Probe} {ps : List (Int64 × Coord)}
    (h : 0 < ps.countP (moved probe.get)) : probe.isEmpty = false := by
  obtain ⟨p, -, hp⟩ := countP_pos_iff.mp h
  cases hempty : probe.isEmpty with
  | false => rfl
  | true => simp [moved, picked, get_of_isEmpty hempty] at hp

/-- A stale way and the way that is read back from its message. -/
structure Rewritten (ph : Crate) (get : Int64 → Option ProbeEntry) (way way' : WireWay)
    (ps : List (Int64 × Coord)) : Prop where
  id : way'.id = way.id
  keysData : way'.keysData = way.keysData
  valsData : way'.valsData = way.valsData
  refsData : way'.refsData = way.refsData
  after : Positions ph ⟨{}, way'⟩ (ps.map fun p => (p.1, picked get p.1 p.2))
  settled : ∃ e, evaluateWay ph get (.ofBlock {}) way'.refsData way'.latData way'.lonData = .ok e ∧
    e.staleRefs = 0

/-- What writing a stale way comes to; `ps` are its positions under its block's framing. -/
structure Refreshes (ph : Crate) (probe : Probe) (fields : BlockFields) (way : WireWay)
    (e : WayEval) (ps : List (Int64 × Coord)) (lats lons : Bytes) : Prop where
  before : Positions ph ⟨fields, way⟩ ps
  refreshed : refreshedLocations ph probe.get (.ofBlock fields) way.refsData way.latData
    way.lonData = .ok (e.staleRefs, lats, lons)
  written : ∀ info, outputInfo ph way.infoData fields.dateGranularity = .ok info →
    ∃ message way', (∀ tally : RefreshTally,
      writeBaseWayLocalWithLocations ph probe (.ofBlock fields) fields.dateGranularity way tally =
        .ok (message, ⟨tally.ways + 1, tally.refs + e.staleRefs,
          tally.deletedRefs + e.deletedRefs⟩)) ∧
      (message.length < 2 ^ 64 → WireWay.parse ph message = .ok way') ∧
      way'.latData = lats ∧ way'.lonData = lons ∧ Rewritten ph probe.get way way' ps

lemma refreshes_of_stale {probe : Probe} {fields : BlockFields} {way : WireWay} {e : WayEval}
    (h : evaluateWay ph probe.get (.ofBlock fields) way.refsData way.latData way.lonData = .ok e)
    (hstale : 0 < e.staleRefs) :
    ∃ ps lats lons, Refreshes ph probe fields way e ps lats lons := by
  obtain ⟨ps, hps, hcount⟩ := evaluateWay_stale h hstale
  have hrefreshed := @refreshedLocations_of ph probe.get _ _ _ _ _ hps
  have hlocated := @Located.refreshed ph probe.get _ _ _ _ _ _ _ _ hps 0 0
  rw [← hcount] at hrefreshed
  refine ⟨ps, _, _, positions_of_located hps, hrefreshed, fun info hinfo => ?_⟩
  let w : WireWay :=
    { id := way.id
      keysData := way.keysData
      valsData := way.valsData
      refsData := way.refsData
      latData := packedLats ph 0 (picks probe.get ps)
      lonData := packedLons ph 0 (picks probe.get ps)
      infoData := info }
  refine ⟨join (wayChunks w), readBack w, fun tally => ?_, parse_wayChunks w, rfl, rfl, ?_⟩
  · have hreencodes : reencodes ph probe (.ofBlock fields) way tally =
        .ok (true, { tally with deletedRefs := tally.deletedRefs + e.deletedRefs }) := by
      have hfull : probe.isEmpty = false := isEmpty_of_moved (by rw [← hcount]; exact hstale)
      simp [reencodes, hfull, h, hstale, pure, Except.pure]
    rw [writeBaseWayLocalWithLocations, hreencodes, @join_wayChunks ph]
    simp only [ok_bind, hinfo, if_true, hrefreshed, RefreshTally.add, if_pos hstale]
    rfl
  · exact
      { id := rfl
        keysData := rfl
        valsData := rfl
        refsData := rfl
        after := @positions_of_located ph {} (readBack w) _ hlocated
        settled := ⟨_, evaluateWay_of hlocated, countP_moved_picked ps⟩ }

end Locations

end RefreshWrite
