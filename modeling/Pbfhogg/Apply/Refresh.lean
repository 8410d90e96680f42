import Pbfhogg.Apply.StaleProbe
import Pbfhogg.Scan.Way
import Pbfhogg.Write.BuiltBytes

/-!
# Refreshing inline locations

The rule of `apply_changes/refresh.rs`: a surviving way is stale where a reference names a node the
diff upserts and the inline coordinate is another. `evaluate_way` counts these positions,
`refreshed_locations` writes the arrays anew.
-/

namespace Refresh

open Protohoggr PackedCount BlockScan Elements Coordinate Fallible Varint NodeLocations StaleProbe BlockBuilder List

/-- A block's coordinate framing. -/
structure CoordFraming where
  granularity : Int64
  latOffset : Int64
  lonOffset : Int64
deriving DecidableEq

namespace CoordFraming

def default : CoordFraming := ⟨100, 0, 0⟩

def ofBlock (fields : BlockFields) : CoordFraming :=
  ⟨fields.granularity.toInt64, fields.latOffset, fields.lonOffset⟩

end CoordFraming

def scaleErr : Error := newWireError
  ("way node location does not fit in an i32 decimicrodegree; the " ++
    "block's granularity, offset, or coordinate deltas are corrupt")

def refsErr : Error := newWireError "way refs array holds a truncated or overlong varint"

def coordsErr : Error := newWireError
  ("way has a node-location array that is truncated, overlong, or of a " ++
    "different length than its node references")

def scale (offset granularity raw : Int64) : Except Error Int32 :=
  match scaleToDecimicro offset granularity raw with
  | some x => .ok x
  | none => .error scaleErr

/-- Latitude and longitude in decimicrodegrees, from raw sums. -/
def CoordFraming.decimicro (f : CoordFraming) (rawLat rawLon : Int64) : Except Error Coord := do
  let lat ← scale f.latOffset f.granularity rawLat
  let lon ← scale f.lonOffset f.granularity rawLon
  return (lat, lon)

structure WayEval where
  staleRefs : Nat := 0
  deletedRefs : Nat := 0
  hasCoords : Bool := false

/-- A position and the diff's coordinate there. -/
abbrev Hit := Nat × Coord

structure RefWalk where
  index : Nat := 0
  deletedRefs : Nat := 0
  hits : List Hit := []

def RefWalk.note (s : RefWalk) : Option ProbeEntry → RefWalk
  | none => { s with index := s.index + 1 }
  | some .deleted => { s with index := s.index + 1, deletedRefs := s.deletedRefs + 1 }
  | some (.upserted c) => { s with index := s.index + 1, hits := s.hits ++ [(s.index, c)] }

structure CoordWalk where
  rawLat : Int64 := 0
  rawLon : Int64 := 0
  hits : List Hit
  staleRefs : Nat := 0

/-- One coordinate beside the next hit. -/
def CoordWalk.note (s : CoordWalk) (position : Nat) (inline : Coord) : CoordWalk :=
  match s.hits with
  | (hitPosition, osc) :: rest =>
    if hitPosition = position then
      { s with hits := rest, staleRefs := if inline ≠ osc then s.staleRefs + 1 else s.staleRefs }
    else s
  | [] => s

section Source

variable (ph : Crate) (get : Int64 → Option ProbeEntry)

/-- The loop over the references; each turn consumes at least one byte. -/
def refWalkFuel : Nat → Int64 → RefWalk → Bytes → Except Error RefWalk
  | 0, _, s, _ => .ok s
  | fuel + 1, current, s, refs =>
    if refs = [] then .ok s
    else do
      let (delta, refs) ← (ph.readVarint refs).mapError fun _ => refsErr
      refWalkFuel fuel (current + asSint64 delta) (s.note (get (current + asSint64 delta))) refs

/-- The loop over the positions. -/
def coordWalk (f : CoordFraming) :
    Nat → Nat → CoordWalk → Bytes → Bytes →
      Except Error (CoordWalk × Bytes × Bytes)
  | 0, _, s, lats, lons => .ok (s, lats, lons)
  | remaining + 1, position, s, lats, lons => do
    let (dlat, lats) ← (ph.readVarint lats).mapError fun _ => coordsErr
    let (dlon, lons) ← (ph.readVarint lons).mapError fun _ => coordsErr
    let s := { s with rawLat := s.rawLat + asSint64 dlat, rawLon := s.rawLon + asSint64 dlon }
    let inline ← f.decimicro s.rawLat s.rawLon
    coordWalk f remaining (position + 1) (s.note position inline) lats lons

/-- The arrays of a way without a hit are counted, not decoded. -/
def sameCount (index : Nat) (data : Bytes) : Except Error Unit := do
  let count ← (packedVarintCount data).mapError fun _ => coordsErr
  if count = index then .ok () else .error coordsErr

variable (f : CoordFraming)

/-- The coordinates of a way with a hit. -/
def staleOf (r : RefWalk) (latData lonData : Bytes) :
    Except Error Nat := do
  let (s, lats, lons) ← coordWalk ph f r.index 0 { hits := r.hits } latData lonData
  if lats ≠ [] ∨ lons ≠ [] then .error coordsErr else .ok s.staleRefs

variable (refsData latData lonData : Bytes)

def evaluateWay :
    Except Error WayEval := do
  let r ← refWalkFuel ph get (refsData.length + 1) 0 {} refsData
  if latData = [] ∧ lonData = [] then .ok ⟨0, r.deletedRefs, false⟩
  else if r.hits = [] then do
    sameCount r.index latData
    sameCount r.index lonData
    return ⟨0, r.deletedRefs, true⟩
  else do
    let staleRefs ← staleOf ph f r latData lonData
    return ⟨staleRefs, r.deletedRefs, true⟩

/-- The coordinate a position is written with: the diff's where it upserts the node. -/
def picked (id : Int64) (inline : Coord) : Coord :=
  match get id with
  | some (.upserted c) => c
  | _ => inline

structure RefreshWalk where
  current : Int64 := 0
  rawLat : Int64 := 0
  rawLon : Int64 := 0
  lastLat : Int64 := 0
  lastLon : Int64 := 0
  changed : Nat := 0
  outLats : Bytes := []
  outLons : Bytes := []

/-- One position written. -/
def RefreshWalk.put (s : RefreshWalk) (inline : Coord) : RefreshWalk :=
  let c := picked get s.current inline
  { s with
    changed := if c ≠ inline then s.changed + 1 else s.changed
    outLats := s.outLats ++ ph.encodeVarint (ph.zigzagEncode64 (c.1.toInt64 - s.lastLat))
    outLons := s.outLons ++ ph.encodeVarint (ph.zigzagEncode64 (c.2.toInt64 - s.lastLon))
    lastLat := c.1.toInt64
    lastLon := c.2.toInt64 }

/-- The loop of `refreshed_locations`. -/
def refreshFuel (f : CoordFraming) :
    Nat → RefreshWalk → Bytes → Bytes → Bytes → Except Error RefreshWalk
  | 0, s, _, _, _ => .ok s
  | fuel + 1, s, refs, lats, lons =>
    if refs = [] then
      if lats ≠ [] ∨ lons ≠ [] then .error coordsErr else .ok s
    else do
      let (delta, refs) ← (ph.readVarint refs).mapError fun _ => refsErr
      let (dlat, lats) ← (ph.readVarint lats).mapError fun _ => coordsErr
      let (dlon, lons) ← (ph.readVarint lons).mapError fun _ => coordsErr
      let s := { s with
        current := s.current + asSint64 delta
        rawLat := s.rawLat + asSint64 dlat
        rawLon := s.rawLon + asSint64 dlon }
      let inline ← f.decimicro s.rawLat s.rawLon
      refreshFuel f fuel (s.put ph get inline) refs lats lons

/-- How many positions changed, and the two arrays. -/
def refreshedLocations :
    Except Error (Nat × Bytes × Bytes) := do
  let s ← refreshFuel ph get f (refsData.length + 1) {} refsData latData lonData
  return (s.changed, s.outLats, s.outLons)

end Source

/-- The references and inline coordinates of a way, read in step from its three arrays. -/
inductive Located (f : CoordFraming) :
    Int64 → Int64 → Int64 → Bytes → Bytes → Bytes → List (Int64 × Coord) → Prop
  | nil {cur lat lon : Int64} : Located f cur lat lon [] [] [] []
  | cons {cur lat lon : Int64} {refs refs' lats lats' lons lons' : Bytes} {vr va vo : Nat}
      {c : Coord} {ps : List (Int64 × Coord)} :
      decode refs = some (vr, refs') → decode lats = some (va, lats') →
      decode lons = some (vo, lons') →
      f.decimicro (lat + asSint64 va) (lon + asSint64 vo) = .ok c →
      Located f (cur + asSint64 vr) (lat + asSint64 va) (lon + asSint64 vo) refs' lats' lons' ps →
      Located f cur lat lon refs lats lons ((cur + asSint64 vr, c) :: ps)

section Rule

variable (get : Int64 → Option ProbeEntry)

/-- The diff upserts the node of the position and puts it elsewhere. -/
def moved (p : Int64 × Coord) : Bool := decide (picked get p.1 p.2 ≠ p.2)

def hitsFrom : Nat → List Int64 → List Hit
  | _, [] => []
  | position, id :: ids =>
    match get id with
    | some (.upserted c) => (position, c) :: hitsFrom (position + 1) ids
    | _ => hitsFrom (position + 1) ids

def deletedAmong (ids : List Int64) : Nat := ids.countP fun id => get id == some .deleted

variable {get}

@[simp] lemma picked_picked (id : Int64) (c : Coord) :
    picked get id (picked get id c) = picked get id c := by
  unfold picked
  cases get id with
  | none => rfl
  | some entry => cases entry <;> rfl

lemma hitsFrom_ge {position : Nat} {ids : List Int64} :
    ∀ h ∈ hitsFrom get position ids, position ≤ h.1 := by
  induction ids generalizing position with
  | nil => nofun
  | cons id ids ih =>
    intro h hh
    rw [hitsFrom] at hh
    split at hh
    · rcases mem_cons.mp hh with rfl | hh
      · exact Nat.le_refl _
      · exact (Nat.le_succ _).trans (ih h hh)
    · exact (Nat.le_succ _).trans (ih h hh)

lemma note_hitsFrom {position : Nat} {id : Int64} {ids : List Int64} {lat lon : Int64}
    {stale : Nat} (inline : Coord) :
    (CoordWalk.mk lat lon (hitsFrom get position (id :: ids)) stale).note position inline =
      ⟨lat, lon, hitsFrom get (position + 1) ids,
        stale + if moved get (id, inline) then 1 else 0⟩ := by
  have hpast : (CoordWalk.mk lat lon (hitsFrom get (position + 1) ids) stale).note position
      inline = ⟨lat, lon, hitsFrom get (position + 1) ids, stale⟩ := by
    unfold CoordWalk.note
    cases hhits : hitsFrom get (position + 1) ids with
    | nil => rfl
    | cons h rest =>
      have hge := @hitsFrom_ge get _ _ h (by rw [hhits]; exact mem_cons_self)
      simp only
      rw [if_neg (by omega)]
  rw [hitsFrom]
  cases hget : get id with
  | none =>
    have hsame : moved get (id, inline) = false := by simp [moved, picked, hget]
    simp only [hpast, hsame]
    rfl
  | some entry =>
    cases entry with
    | deleted =>
      have hsame : moved get (id, inline) = false := by simp [moved, picked, hget]
      simp only [hpast, hsame]
      rfl
    | upserted c =>
      have hmoved : moved get (id, inline) = decide (inline ≠ c) := by
        simp [moved, picked, hget, eq_comm]
      simp only [CoordWalk.note, hmoved, if_true, decide_eq_true_eq]
      split <;> rfl

end Rule

section Loops

variable {ph : Crate} {get : Int64 → Option ProbeEntry} {f : CoordFraming}

/-- What the loop over the references has noted. -/
def noted (get : Int64 → Option ProbeEntry) (s : RefWalk) (ids : List Int64) : RefWalk where
  index := s.index + ids.length
  deletedRefs := s.deletedRefs + deletedAmong get ids
  hits := s.hits ++ hitsFrom get s.index ids

lemma noted_cons (s : RefWalk) (id : Int64) (ids : List Int64) :
    noted get (s.note (get id)) ids = noted get s (id :: ids) := by
  unfold noted deletedAmong RefWalk.note
  cases hget : get id with
  | none => simp [hitsFrom, hget, Nat.add_comm, Nat.add_left_comm]
  | some entry =>
    cases entry with
    | deleted =>
      simp only [hitsFrom, hget, length_cons, countP_cons, beq_self_eq_true, if_true,
        RefWalk.mk.injEq, and_true]
      omega
    | upserted c => simp [hitsFrom, hget, Nat.add_comm, Nat.add_left_comm]

lemma readVarint_eq_ok {err : Error} {data rest : Bytes} {v : Nat} :
    ((ph.readVarint data).mapError fun _ => err) = .ok (v, rest) ↔
      decode data = some (v, rest) := by
  rw [mapError_eq_ok, ph.readVarint_ok]

variable {refs lats lons : Bytes} {ps : List (Int64 × Coord)}

lemma refWalkFuel_ok {fuel : Nat} {current : Int64} {s r : RefWalk} (hfuel : refs.length < fuel)
    (h : refWalkFuel ph get fuel current s refs = .ok r) :
    ∃ vs, Values refs vs ∧ r = noted get s (Deltas.sumsFrom current (vs.map asSint64)) := by
  induction fuel generalizing current s refs with
  | zero => omega
  | succ fuel ih =>
    rw [refWalkFuel] at h
    split at h
    · next hnil =>
      cases h
      subst hnil
      exact ⟨[], .nil, by simp [noted, Deltas.sumsFrom, deletedAmong, hitsFrom]⟩
    · obtain ⟨⟨delta, rest⟩, hread, h⟩ := bind_eq_ok.mp h
      rw [readVarint_eq_ok] at hread
      have hshrink := decode_length_lt hread
      obtain ⟨vs, hvs, rfl⟩ := ih (by omega) h
      refine ⟨delta :: vs, .cons hread hvs, ?_⟩
      rw [noted_cons]
      rfl

lemma refWalkFuel_of {fuel : Nat} {current : Int64} {s : RefWalk} {vs : List Nat}
    (hvs : Values refs vs) (hfuel : refs.length < fuel) :
    refWalkFuel ph get fuel current s refs =
      .ok (noted get s (Deltas.sumsFrom current (vs.map asSint64))) := by
  induction hvs generalizing fuel current s with
  | nil =>
    cases fuel with
    | zero => omega
    | succ fuel => simp [refWalkFuel, noted, Deltas.sumsFrom, deletedAmong, hitsFrom]
  | @cons refs rest v vs hv _ ih =>
    have hshrink := decode_length_lt hv
    have hne : refs ≠ [] := by
      rintro rfl
      simp at hshrink
    cases fuel with
    | zero => omega
    | succ fuel =>
      rw [refWalkFuel, if_neg hne, readVarint_eq_ok.mpr hv]
      simp only [ok_bind, ih (show rest.length < fuel by omega), noted_cons]
      rfl

lemma coordWalk_ok {vs : List Nat} (hvs : Values refs vs) {cur : Int64} {lat lon : Int64}
    {position stale : Nat} {s : CoordWalk} (h : coordWalk ph f vs.length position
      ⟨lat, lon, hitsFrom get position (Deltas.sumsFrom cur (vs.map asSint64)), stale⟩ lats lons =
        .ok (s, [], [])) :
    ∃ ps, Located f cur lat lon refs lats lons ps ∧
      ps.map Prod.fst = Deltas.sumsFrom cur (vs.map asSint64) ∧
      s.staleRefs = stale + ps.countP (moved get) := by
  induction hvs generalizing cur lat lon position stale lats lons with
  | nil =>
    rw [length_nil, coordWalk] at h
    cases h
    exact ⟨[], .nil, rfl, rfl⟩
  | @cons refs rest v vs hv _ ih =>
    rw [length_cons, coordWalk] at h
    obtain ⟨⟨dlat, lats'⟩, hlat, h⟩ := bind_eq_ok.mp h
    obtain ⟨⟨dlon, lons'⟩, hlon, h⟩ := bind_eq_ok.mp h
    obtain ⟨inline, hinline, h⟩ := bind_eq_ok.mp h
    rw [readVarint_eq_ok] at hlat hlon
    rw [map_cons, Deltas.sumsFrom, note_hitsFrom] at h
    obtain ⟨ps, hps, hids, hstale⟩ := ih h
    refine ⟨(cur + asSint64 v, inline) :: ps, .cons hv hlat hlon hinline hps, ?_, ?_⟩
    · rw [map_cons, map_cons, Deltas.sumsFrom, hids]
    · rw [hstale, countP_cons, Nat.add_comm (ps.countP _), ← Nat.add_assoc]

variable {refs lats lons : Bytes} {ps : List (Int64 × Coord)} {cur lat lon : Int64}

lemma coordWalk_of (h : Located f cur lat lon refs lats lons ps) {position stale : Nat} :
    ∃ s, coordWalk ph f ps.length position ⟨lat, lon, hitsFrom get position (ps.map Prod.fst),
      stale⟩ lats lons = .ok (s, [], []) ∧ s.staleRefs = stale + ps.countP (moved get) := by
  induction h generalizing position stale with
  | nil => exact ⟨_, rfl, rfl⟩
  | @cons cur lat lon _ _ _ _ _ _ vr va vo c ps _ hlat hlon hinline _ ih =>
    obtain ⟨s, hs, hstale⟩ := @ih (position + 1)
      (stale + if moved get (cur + asSint64 vr, c) then 1 else 0)
    refine ⟨s, ?_, ?_⟩
    · rw [length_cons, coordWalk, readVarint_eq_ok.mpr hlat, ok_bind,
        readVarint_eq_ok.mpr hlon]
      simp only [ok_bind, hinline, map_cons, note_hitsFrom]
      exact hs
    · rw [hstale, countP_cons]
      omega

lemma scale_eq_ok {offset granularity raw : Int64} {x : Int32}
    (h : scale offset granularity raw = .ok x) :
    x = toDecimicro (nano offset granularity raw) := by
  unfold scale at h
  split at h
  · next hscale =>
    cases h
    exact (scaleToDecimicro_eq_some.mp hscale).2
  · cases h

lemma decimicro_eq_ok {rawLat rawLon : Int64} {c : Coord}
    (h : f.decimicro rawLat rawLon = .ok c) :
    c = (toDecimicro (nano f.latOffset f.granularity rawLat),
      toDecimicro (nano f.lonOffset f.granularity rawLon)) := by
  obtain ⟨lat, hlat, h⟩ := bind_eq_ok.mp h
  obtain ⟨lon, hlon, h⟩ := bind_eq_ok.mp h
  cases h
  rw [scale_eq_ok hlat, scale_eq_ok hlon]

/-- The three arrays of a located way, whole. -/
structure Arrays (f : CoordFraming) (cur lat lon : Int64) (refs lats lons : Bytes)
    (ps : List (Int64 × Coord)) (vr va vo : List Nat) : Prop where
  refValues : Values refs vr
  latValues : Values lats va
  lonValues : Values lons vo
  lat_length : va.length = vr.length
  lon_length : vo.length = vr.length
  ids : ps.map Prod.fst = Deltas.sumsFrom cur (vr.map asSint64)
  lats : ps.map (fun p => p.2.1) = (Deltas.sumsFrom lat (va.map asSint64)).map
    fun raw => toDecimicro (nano f.latOffset f.granularity raw)
  lons : ps.map (fun p => p.2.2) = (Deltas.sumsFrom lon (vo.map asSint64)).map
    fun raw => toDecimicro (nano f.lonOffset f.granularity raw)

lemma Located.arrays (h : Located f cur lat lon refs lats lons ps) :
    ∃ vr va vo, Arrays f cur lat lon refs lats lons ps vr va vo := by
  induction h with
  | nil => exact ⟨[], [], [], .nil, .nil, .nil, rfl, rfl, rfl, rfl, rfl⟩
  | @cons cur lat lon _ _ _ _ _ _ vr va vo c ps href hlat hlon hinline _ ih =>
    obtain ⟨vrs, vas, vos, harrays⟩ := ih
    have hc := decimicro_eq_ok hinline
    refine ⟨vr :: vrs, va :: vas, vo :: vos,
      { refValues := .cons href harrays.refValues
        latValues := .cons hlat harrays.latValues
        lonValues := .cons hlon harrays.lonValues
        lat_length := by simpa using harrays.lat_length
        lon_length := by simpa using harrays.lon_length
        ids := ?_
        lats := ?_
        lons := ?_ }⟩
    · rw [map_cons, map_cons, Deltas.sumsFrom, harrays.ids]
    · rw [map_cons, map_cons, Deltas.sumsFrom, map_cons, harrays.lats, hc]
    · rw [map_cons, map_cons, Deltas.sumsFrom, map_cons, harrays.lons, hc]

lemma moved_of_no_hits {position : Nat} (h : hitsFrom get position (ps.map Prod.fst) = []) :
    ps.countP (moved get) = 0 := by
  induction ps generalizing position with
  | nil => rfl
  | cons p ps ih =>
    rw [map_cons, hitsFrom] at h
    have hsame : moved get p = false := by
      unfold moved picked
      cases hget : get p.1 with
      | none => simp
      | some entry =>
        cases entry with
        | deleted => simp
        | upserted c => simp [hget] at h
    have hrest : hitsFrom get (position + 1) (ps.map Prod.fst) = [] := by
      cases hget : get p.1 with
      | none => simpa [hget] using h
      | some entry =>
        cases entry with
        | deleted => simpa [hget] using h
        | upserted c => simp [hget] at h
    rw [countP_cons_of_neg (by simp [hsame]), ih hrest]

/-- A stale way has its three arrays in step, and is stale where a reference has moved. -/
theorem evaluateWay_stale {e : WayEval} (h : evaluateWay ph get f refs lats lons = .ok e)
    (hstale : 0 < e.staleRefs) :
    ∃ ps, Located f 0 0 0 refs lats lons ps ∧ e.staleRefs = ps.countP (moved get) := by
  obtain ⟨r, hr, h⟩ := bind_eq_ok.mp h
  obtain ⟨vs, hvs, rfl⟩ := refWalkFuel_ok (Nat.lt_succ_self _) hr
  split at h
  · cases h
    cases hstale
  · split at h
    · obtain ⟨_, _, h⟩ := bind_eq_ok.mp h
      obtain ⟨_, _, h⟩ := bind_eq_ok.mp h
      cases h
      cases hstale
    · obtain ⟨stale, hstaleOf, h⟩ := bind_eq_ok.mp h
      cases h
      obtain ⟨⟨s, lats', lons'⟩, hwalk, hleft⟩ := bind_eq_ok.mp hstaleOf
      simp only at hleft
      split at hleft
      · cases hleft
      · next hempty =>
        cases hleft
        simp only [not_or, not_not] at hempty
        obtain ⟨rfl, rfl⟩ := hempty
        have hlen : (noted get {} (Deltas.sumsFrom 0 (vs.map asSint64))).index = vs.length := by
          simp [noted]
        rw [hlen] at hwalk
        obtain ⟨ps, hps, -, hcount⟩ := coordWalk_ok hvs hwalk
        rw [Nat.zero_add] at hcount
        exact ⟨ps, hps, hcount⟩

lemma sameCount_of {data : Bytes} {vs : List Nat} (h : Values data vs) :
    sameCount vs.length data = .ok () := by
  have hcount : packedVarintCount data = .ok vs.length := packedVarintCount_ok_iff.mpr ⟨vs, h, rfl⟩
  simp [sameCount, hcount, Except.mapError]

lemma evaluateWay_of (h : Located f 0 0 0 refs lats lons ps) :
    evaluateWay ph get f refs lats lons =
      .ok ⟨ps.countP (moved get), deletedAmong get (ps.map Prod.fst),
        !(decide (lats = []) && decide (lons = []))⟩ := by
  obtain ⟨vr, va, vo, harrays⟩ := h.arrays
  have hrefs : refWalkFuel ph get (refs.length + 1) 0 {} refs =
      .ok (noted get {} (ps.map Prod.fst)) := by
    rw [harrays.ids]
    exact refWalkFuel_of harrays.refValues (Nat.lt_succ_self _)
  have hlength : ps.length = vr.length := by
    have := congrArg length harrays.ids
    simpa using this
  have hhits : (noted get {} (ps.map Prod.fst)).hits = hitsFrom get 0 (ps.map Prod.fst) := rfl
  have hindex : (noted get {} (ps.map Prod.fst)).index = ps.length := by simp [noted]
  have hdeleted : (noted get {} (ps.map Prod.fst)).deletedRefs =
      deletedAmong get (ps.map Prod.fst) := Nat.zero_add _
  rw [evaluateWay, hrefs, ok_bind, hdeleted]
  by_cases hempty : lats = [] ∧ lons = []
  · obtain ⟨rfl, rfl⟩ := hempty
    have hva : va.length = 0 := by rw [values_nil_left.mp harrays.latValues]; rfl
    have hnone : ps = [] := length_eq_zero_iff.mp (by rw [hlength, ← harrays.lat_length, hva])
    subst hnone
    simp
  · have hhas : (!(decide (lats = []) && decide (lons = []))) = true := by
      simpa using not_and_or.mp hempty
    rw [if_neg hempty, hhas, hhits, hindex]
    by_cases hno : hitsFrom get 0 (ps.map Prod.fst) = []
    · have hlat := sameCount_of harrays.latValues
      have hlon := sameCount_of harrays.lonValues
      rw [harrays.lat_length, ← hlength] at hlat
      rw [harrays.lon_length, ← hlength] at hlon
      rw [if_pos hno, hlat, hlon, moved_of_no_hits hno]
      rfl
    · obtain ⟨s, hwalk, hcount⟩ := @coordWalk_of ph get f _ _ _ _ _ _ _ h 0 0
      rw [Nat.zero_add] at hcount
      have hstale : staleOf ph f (noted get {} (ps.map Prod.fst)) lats lons =
          .ok (ps.countP (moved get)) := by
        rw [staleOf, hindex, hhits, hwalk, ok_bind]
        simp [hcount]
      rw [if_neg hno, hstale]
      rfl

/-- The coordinates the positions are written with. -/
def picks (get : Int64 → Option ProbeEntry) (ps : List (Int64 × Coord)) : List Coord :=
  ps.map fun p => picked get p.1 p.2

@[simp] lemma picks_cons (id : Int64) (c : Coord) (ps : List (Int64 × Coord)) :
    picks get ((id, c) :: ps) = picked get id c :: picks get ps := rfl

/-- Coordinates as packed deltas, in the default framing. -/
def packedLats (ph : Crate) (last : Int64) (cs : List Coord) : Bytes :=
  packSint64 ph (Deltas.deltasFrom last (cs.map fun c => c.1.toInt64))

def packedLons (ph : Crate) (last : Int64) (cs : List Coord) : Bytes :=
  packSint64 ph (Deltas.deltasFrom last (cs.map fun c => c.2.toInt64))

lemma packedLats_cons (last : Int64) (c : Coord) (cs : List Coord) :
    packedLats ph last (c :: cs) = ph.encodeVarint (ph.zigzagEncode64 (c.1.toInt64 - last)) ++
      packedLats ph c.1.toInt64 cs := rfl

lemma packedLons_cons (last : Int64) (c : Coord) (cs : List Coord) :
    packedLons ph last (c :: cs) = ph.encodeVarint (ph.zigzagEncode64 (c.2.toInt64 - last)) ++
      packedLons ph c.2.toInt64 cs := rfl

lemma decode_zigzag (x : Int64) (rest : Bytes) :
    decode (ph.encodeVarint (ph.zigzagEncode64 x) ++ rest) =
      some (zigzagEncode x.toInt, rest) := by
  rw [ph.zigzagEncode64_eq, ph.encodeVarint_eq _ (zigzagEncode64_lt x)]
  exact decode_encode (zigzagEncode64_lt x) rest

lemma refreshFuel_of (h : Located f cur lat lon refs lats lons ps) {fuel : Nat} {s : RefreshWalk}
    (hfuel : refs.length < fuel) (hcur : s.current = cur) (hlat : s.rawLat = lat)
    (hlon : s.rawLon = lon) :
    ∃ t, refreshFuel ph get f fuel s refs lats lons = .ok t ∧
      t.changed = s.changed + ps.countP (moved get) ∧
      t.outLats = s.outLats ++ packedLats ph s.lastLat (picks get ps) ∧
      t.outLons = s.outLons ++ packedLons ph s.lastLon (picks get ps) := by
  induction h generalizing fuel s with
  | nil =>
    cases fuel with
    | zero => omega
    | succ fuel =>
      refine ⟨s, ?_, rfl, ?_, ?_⟩
      · simp [refreshFuel]
      · exact (append_nil _).symm
      · exact (append_nil _).symm
  | @cons cur lat lon refs refs' _ _ _ _ vr va vo c ps href hdlat hdlon hinline _ ih =>
    have hshrink := decode_length_lt href
    have hne : refs ≠ [] := by
      rintro rfl
      simp at hshrink
    cases fuel with
    | zero => omega
    | succ fuel =>
      subst hcur hlat hlon
      let s' : RefreshWalk := { s with
        current := s.current + asSint64 vr
        rawLat := s.rawLat + asSint64 va
        rawLon := s.rawLon + asSint64 vo }
      obtain ⟨t, ht, hchanged, hlats, hlons⟩ :=
        @ih fuel (s'.put ph get c) (by omega) rfl rfl rfl
      refine ⟨t, ?_, ?_, ?_, ?_⟩
      · rw [refreshFuel, if_neg hne]
        simp only [readVarint_eq_ok.mpr href, readVarint_eq_ok.mpr hdlat,
          readVarint_eq_ok.mpr hdlon, ok_bind, hinline]
        exact ht
      · have hput : (s'.put ph get c).changed =
            s.changed + if moved get (s.current + asSint64 vr, c) then 1 else 0 := by
          simp only [RefreshWalk.put, moved, decide_eq_true_eq, s']
          split <;> rfl
        rw [hchanged, hput, countP_cons]
        omega
      · rw [hlats, picks_cons, packedLats_cons, ← append_assoc]
        rfl
      · rw [hlons, picks_cons, packedLons_cons, ← append_assoc]
        rfl

lemma refreshedLocations_of (h : Located f 0 0 0 refs lats lons ps) :
    refreshedLocations ph get f refs lats lons =
      .ok (ps.countP (moved get), packedLats ph 0 (picks get ps),
        packedLons ph 0 (picks get ps)) := by
  obtain ⟨t, ht, hchanged, hlats, hlons⟩ := @refreshFuel_of ph get f _ _ _ _ _ _ _ h
    (refs.length + 1) {} (Nat.lt_succ_self _) rfl rfl rfl
  rw [refreshedLocations, ht, ok_bind, hchanged, hlats, hlons, Nat.zero_add]
  rfl

/-- The default framing carries decimicrodegrees as they are. -/
theorem scale_default (x : Int32) : scale 0 100 x.toInt64 = .ok x := by
  have hexact : exact 0 100 x.toInt64 = x.toInt := by
    have hzero : (0 : Int64).toInt = 0 := rfl
    have hhundred : (100 : Int64).toInt = 100 := rfl
    rw [exact, hzero, hhundred, Int32.toInt_toInt64, Int.zero_add]
    exact Int.mul_tdiv_cancel_left _ (by decide)
  have hin : InI32 x.toInt := ⟨x.le_toInt, x.toInt_lt⟩
  rw [scale, scaleToDecimicro_eq, hexact, tryI32, if_pos hin, Int32.ofInt_toInt]

/-- The arrays written anew give the positions they were written for. -/
theorem Located.refreshed (h : Located f cur lat lon refs lats lons ps) (lastLat lastLon : Int64) :
    Located .default cur lastLat lastLon refs (packedLats ph lastLat (picks get ps))
      (packedLons ph lastLon (picks get ps)) (ps.map fun p => (p.1, picked get p.1 p.2)) := by
  induction h generalizing lastLat lastLon with
  | nil => exact .nil
  | @cons cur lat lon _ _ _ _ _ _ vr va vo c ps href _ _ _ _ ih =>
    rw [picks_cons, packedLats_cons, packedLons_cons, map_cons]
    refine .cons href (decode_zigzag _ _) (decode_zigzag _ _) ?_ ?_
    · rw [asSint64_zigzagEncode, asSint64_zigzagEncode, Deltas.sub_add_self, Deltas.sub_add_self,
        CoordFraming.decimicro, CoordFraming.default, scale_default, ok_bind, scale_default]
      rfl
    · rw [asSint64_zigzagEncode, asSint64_zigzagEncode, Deltas.sub_add_self, Deltas.sub_add_self]
      exact ih _ _

/-- No reference of a way written anew has moved. -/
theorem countP_moved_picked (ps : List (Int64 × Coord)) :
    (ps.map fun p => (p.1, picked get p.1 p.2)).countP (moved get) = 0 := by
  rw [countP_eq_zero]
  intro p hp
  obtain ⟨q, -, rfl⟩ := mem_map.mp hp
  simp [moved]

end Loops

end Refresh
