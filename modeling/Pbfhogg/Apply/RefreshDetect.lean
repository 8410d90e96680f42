import Pbfhogg.Apply.RefreshWrite

/-!
# Finding a stale way in a blob

`detect_stale_wire` walks the bytes of a block that is not constructed, `detect_stale_block` the
elements of one that is. Both stop at the first stale way.
-/

namespace RefreshDetect

open OsmId BlobMeta Protohoggr FieldWalk WireMessages BlockScan BlockValid Elements Fallible
  StaleProbe Refresh RefreshWrite WayScan OscSorted OscLookup
open List hiding map_map take
open BlobWire (maxBlobMessageSize)

structure Detection where
  stale : Bool := false
  deletedRefs : Nat := 0

/-- One more way that is not stale. -/
def Detection.clean (detection : Detection) (eval : WayEval) : Detection :=
  { detection with deletedRefs := detection.deletedRefs + eval.deletedRefs }

inductive DetectError
  | wire (e : Error)
  | blob (e : PbfError)

/-- Why the walk of the wire detector ends before the last field. -/
inductive Stop (σ : Type)
  | refused (e : DetectError)
  | stale (detection : Detection) (walk : σ)

/-- `KindSet::foreign_to`. -/
def foreignTo (kinds : KindSet) (claimed : ElementKind) : Option ElementKind :=
  [ElementKind.node, .way, .relation].find? fun k => k ≠ claimed ∧ kinds.has k

structure WireDetect (σ : Type) where
  walk : σ
  detection : Detection := {}
  kinds : KindSet := {}

section Source

variable (ph : Crate) (get : Int64 → Option ProbeEntry)
  {σ : Type} (observe : σ → Int64 → Except PbfError σ)

def orRefuse {α : Type} (r : Except Error α) : Except (Stop σ) α :=
  r.mapError fun e => .refused (.wire e)

variable (f : CoordFraming)

/-- One way of the wire detector; `observe` is the check of its id against the blob's claim. -/
def detectWay (s : WireDetect σ) (data : Bytes) :
    Except (Stop σ) (WireDetect σ) := do
  let way ← orRefuse (WireWay.parse ph data)
  let walk ← (observe s.walk way.id).mapError fun e => .refused (.blob e)
  let eval ← orRefuse (evaluateWay ph get f way.refsData way.latData way.lonData)
  if 0 < eval.staleRefs then .error (.stale { s.detection with stale := true } walk)
  else .ok { s with walk := walk, detection := s.detection.clean eval }

def refuseForeign (s : WireDetect σ) (kinds : KindSet) : Except (Stop σ) (WireDetect σ) :=
  match foreignTo kinds .way with
  | some found => .error (.refused (.blob (.kindContradiction .way found)))
  | none => .ok { s with kinds := kinds }

/-- The walk over one group. -/
def detectGroupField : Handler (Stop σ) (WireDetect σ) := fun s field wire =>
  if field = 3 ∧ wire = wireLen then fun cur =>
    take (orRefuse (ph.readLenDelimited cur)) (detectWay ph get observe f s)
  else fun cur =>
    take (orRefuse (skipRecordingKind ph s.kinds field wire cur)) (refuseForeign s)

/-- The cursor, its refusals renamed. -/
def cursor : Reader (Stop σ) := ph.reader.mapError fun e => .refused (.wire e)

def framingOf (c : NodeScan.Scalars) : CoordFraming := ⟨c.granularity, c.latOffset, c.lonOffset⟩

def detectGroups (walk : σ) (groups : List Bytes) :
    Except (Stop σ) (WireDetect σ) :=
  groups.foldlM (FieldWalk.walk (cursor ph) (detectGroupField ph get observe f)) { walk := walk }

/-- `detect_stale_wire`, with what it leaves of the blob's walk. -/
def detectStaleWire (walk : σ) (decompressed : Bytes) :
    Except DetectError (Detection × σ) := do
  let top ← (FieldWalk.walk ph.reader (NodeScan.scanField ph) {} decompressed).mapError .wire
  match detectGroups ph get observe (framingOf top.scalars) walk top.groups with
  | .ok s => .ok (s.detection, s.walk)
  | .error (.stale detection walk) => .ok (detection, walk)
  | .error (.refused e) => .error e

/-- The loop of `detect_stale_block`. -/
def detectElements (f : CoordFraming) : Detection → List Element → Except Error Detection
  | detection, [] => .ok detection
  | detection, .way w :: es => do
    let eval ← evaluateWay ph get f w.way.refsData w.way.latData w.way.lonData
    if 0 < eval.staleRefs then .ok { detection with stale := true }
    else detectElements f (detection.clean eval) es
  | detection, _ :: es => detectElements f detection es

def detectStaleBlock (block : PrimitiveBlock) : Except Panic (Except Error Detection) :=
  (elementsSkipMetadata ph block).map (detectElements ph get (.ofBlock block.block.fields) {})

/-- The ways of a blob judged one after the other, to the first stale one. -/
def detectWays (f : CoordFraming) : Detection → List WireWay → Except Error Detection
  | detection, [] => .ok detection
  | detection, way :: ways => do
    let eval ← evaluateWay ph get f way.refsData way.latData way.lonData
    if 0 < eval.staleRefs then .ok { detection with stale := true }
    else detectWays f (detection.clean eval) ways

end Source

section Wire

variable {ph : Crate} {get : Int64 → Option ProbeEntry} {σ : Type}
  {observe : σ → Int64 → Except PbfError σ} {f : CoordFraming}

lemma settles_len : Settles ph.reader wireLen ph.readLenDelimited := by
  refine settles_of_reads Crate.readsField_len ?_
  intro raw hskip
  exact ph.skipField_len.mp hskip

lemma settles_skipRecordingKind (kinds : KindSet) (field wire : Nat) :
    Settles ph.reader wire (skipRecordingKind ph kinds field wire) := by
  unfold skipRecordingKind
  split
  · exact settles_skip _ _
  · next hwire =>
    rw [not_not] at hwire
    subst hwire
    split
    · exact settles_skip _ _
    · exact settles_take settles_len _
    · exact settles_skip _ _
    · exact settles_skip _ _

lemma settles_orRefuse {α : Type} {w : Nat}
    {read : Bytes → Except Error (α × Bytes)} (h : Settles ph.reader w read) :
    Settles (cursor ph) w fun cur => (orRefuse (read cur) : Except (Stop σ) (α × Bytes)) :=
  @Settles.mapError _ _ ph.reader _ _ w read h

lemma reads_orRefuse {α : Type} {w : Nat}
    {read : Bytes → Except Error (α × Bytes)} (h : ReadsField ph.reader w read) :
    ReadsField (cursor ph) w fun cur => (orRefuse (read cur) : Except (Stop σ) (α × Bytes)) :=
  @ReadsField.mapError _ _ ph.reader _ _ w read h

lemma settles_detectGroupField (s : WireDetect σ) (field wire : Nat) :
    Settles (cursor ph) wire (detectGroupField ph get observe f s field wire) := by
  unfold detectGroupField
  split
  · next h =>
    rw [h.2]
    exact settles_take (settles_orRefuse settles_len) _
  · exact settles_take (settles_orRefuse (settles_skipRecordingKind _ _ _)) _

lemma local_detectGroupField : Local (cursor ph) (detectGroupField ph get observe f) := by
  intro s field wire
  unfold detectGroupField
  split
  · next h =>
    rw [h.2]
    exact readsField_take (reads_orRefuse Crate.readsField_len) _
  · exact readsField_take (reads_orRefuse (readsField_skipRecordingKind _ _ _)) _

/-- What a run of the wire detector says of the ways it has seen, whatever ways come after. -/
def Judged (ph : Crate) (get : Int64 → Option ProbeEntry) (f : CoordFraming) (s : WireDetect σ)
    (ways : List WireWay) : Except (Stop σ) (WireDetect σ) → Prop
  | .ok t => ∀ more, detectWays ph get f s.detection (ways ++ more) =
      detectWays ph get f t.detection more
  | .error (.stale d _) => ∀ more, detectWays ph get f s.detection (ways ++ more) = .ok d
  | .error (.refused _) => True

variable {s : WireDetect σ} {ways : List WireWay}

lemma Judged.bind {xs ys : List WireWay} {r : Except (Stop σ) (WireDetect σ)}
    {k : WireDetect σ → Except (Stop σ) (WireDetect σ)} (hr : Judged ph get f s xs r)
    (hk : ∀ t, Judged ph get f t ys (k t)) : Judged ph get f s (xs ++ ys) (r >>= k) := by
  cases r with
  | error stop =>
    cases stop with
    | refused e => trivial
    | stale d walk =>
      intro more
      rw [append_assoc]
      exact hr _
  | ok t =>
    have hrest := hk t
    rw [ok_bind]
    cases hkt : k t with
    | error stop =>
      cases stop with
      | refused e => trivial
      | stale d walk =>
        rw [hkt] at hrest
        intro more
        rw [append_assoc, hr]
        exact hrest more
    | ok u =>
      rw [hkt] at hrest
      intro more
      rw [append_assoc, hr]
      exact hrest more

lemma judged_detectWay {data : Bytes} {way : WireWay}
    (hparse : WireWay.parse ph data = .ok way) :
    Judged ph get f s [way] (detectWay ph get observe f s data) := by
  have hstep : ∀ more, detectWays ph get f s.detection ([way] ++ more) =
      (evaluateWay ph get f way.refsData way.latData way.lonData).bind fun eval =>
        if 0 < eval.staleRefs then .ok { s.detection with stale := true }
        else detectWays ph get f (s.detection.clean eval) more := fun _ => rfl
  rw [detectWay, hparse]
  simp only [orRefuse, Except.mapError, ok_bind]
  cases observe s.walk way.id with
  | error e => trivial
  | ok walk =>
    cases heval : evaluateWay ph get f way.refsData way.latData way.lonData with
    | error e => trivial
    | ok eval =>
      rw [heval] at hstep
      by_cases hstale : 0 < eval.staleRefs
      · simp only [ok_bind, if_pos hstale]
        intro more
        rw [hstep, Except.bind, if_pos hstale]
      · simp only [ok_bind, if_neg hstale]
        intro more
        rw [hstep, Except.bind, if_neg hstale]

lemma judged_skip {kinds : Except Error KindSet} :
    Judged ph get f s [] (kinds.mapError (fun e => .refused (.wire e)) >>= refuseForeign s) := by
  cases kinds with
  | error e => trivial
  | ok kinds =>
    simp only [Except.mapError, ok_bind, refuseForeign]
    split
    · trivial
    · exact fun _ => rfl

lemma judged_absorb {fld : Field} (hskip : ph.skipField fld.wire fld.raw = .ok [])
    (hways : (messageOf ph 3 fld).toList.map (WireWay.parse ph) = ways.map .ok) :
    Judged ph get f s ways (absorb (detectGroupField ph get observe f) s fld) := by
  obtain ⟨field, wire, raw⟩ := fld
  by_cases hway : field = 3 ∧ wire = wireLen
  · obtain ⟨rfl, rfl⟩ := hway
    obtain ⟨body, hbody⟩ := ph.skipField_len.mp hskip
    have hmessage : messageOf ph 3 ⟨3, wireLen, raw⟩ = some body := by simp [messageOf, hbody]
    rw [hmessage] at hways
    obtain ⟨way, rfl⟩ : ∃ way, ways = [way] := by
      cases ways with
      | nil => cases hways
      | cons way ways =>
        obtain rfl : ways = [] := by simpa using congrArg length hways
        exact ⟨way, rfl⟩
    have hparse : WireWay.parse ph body = .ok way := (cons.inj hways).1
    have hread : (orRefuse (ph.readLenDelimited raw) : Except (Stop σ) _) = .ok (body, []) :=
      mapError_eq_ok.mpr hbody
    have habsorb := @absorb_take _ _ _ (detectGroupField ph get observe f) s ⟨3, wireLen, raw⟩ body
      (fun cur => orRefuse (ph.readLenDelimited cur)) (detectWay ph get observe f s) rfl hread
    rw [habsorb]
    exact judged_detectWay hparse
  · have hnone : messageOf ph 3 ⟨field, wire, raw⟩ = none := by simp [messageOf, hway]
    rw [hnone] at hways
    obtain rfl : ways = [] := by simpa using hways.symm
    have habsorb : absorb (detectGroupField ph get observe f) s ⟨field, wire, raw⟩ =
        ((skipRecordingKind ph s.kinds field wire raw).map Prod.fst).mapError
          (fun e => .refused (.wire e)) >>= refuseForeign s := by
      simp only [absorb, detectGroupField, if_neg hway, take, orRefuse]
      cases skipRecordingKind ph s.kinds field wire raw with
      | error e => rfl
      | ok p =>
        simp only [Except.mapError, Except.bind, Except.map, ok_bind]
        cases refuseForeign s p.1 <;> rfl
    rw [habsorb]
    exact judged_skip

lemma judged_fields {fs : List Field} (hskip : ∀ fld ∈ fs, ph.skipField fld.wire fld.raw = .ok [])
    (hways : (bodies ph 3 fs).map (WireWay.parse ph) = ways.map .ok) (s : WireDetect σ) :
    Judged ph get f s ways (fs.foldlM (absorb (detectGroupField ph get observe f)) s) := by
  induction fs generalizing ways s with
  | nil =>
    obtain rfl : ways = [] := by simpa [bodies] using hways.symm
    exact fun _ => rfl
  | cons fld fs ih =>
    rw [forall_mem_cons] at hskip
    rw [bodies_cons, map_append] at hways
    obtain ⟨xs, ys, rfl, hxs, hys⟩ := append_eq_map_iff.mp hways
    rw [foldlM_cons]
    exact (judged_absorb hskip.1 hxs.symm).bind fun t => ih hskip.2 hys.symm t

lemma judged_group {group : Bytes} {fs : List Field} (hfs : Fields ph.reader group fs)
    (hways : (messages ph 3 group).map (WireWay.parse ph) = ways.map .ok) (s : WireDetect σ) :
    Judged ph get f s ways
      (FieldWalk.walk (cursor ph) (detectGroupField ph get observe f) s group) := by
  rw [(messages_of_fields hfs).2] at hways
  have hcursor : Fields (cursor ph : Reader (Stop σ)) group fs := hfs.mapError
  rw [walk_eq_foldlM local_detectGroupField.steps.shrinks settles_detectGroupField hcursor]
  exact judged_fields hfs.skipField hways s

/-- A group that is well framed, and its ways. -/
structure GroupWays (ph : Crate) (group : Bytes) (ways : List WireWay) : Prop where
  framed : ∃ fs, Fields ph.reader group fs
  parsed : (messages ph 3 group).map (WireWay.parse ph) = ways.map .ok

lemma judged_groups {groups : List Bytes} {parts : List (List WireWay)}
    (h : List.Forall₂ (GroupWays ph) groups parts) (s : WireDetect σ) :
    Judged ph get f s parts.flatten (groups.foldlM
      (FieldWalk.walk (cursor ph) (detectGroupField ph get observe f)) s) := by
  induction h generalizing s with
  | nil => exact fun _ => rfl
  | cons hgroup _ ih =>
    obtain ⟨fs, hfs⟩ := hgroup.framed
    rw [foldlM_cons, flatten_cons]
    exact (judged_group hfs hgroup.parsed s).bind ih

end Wire

section Block

variable {ph : Crate} {get : Int64 → Option ProbeEntry} {f : CoordFraming}

lemma detectElements_eq (detection : Detection) (es : List Element) :
    detectElements ph get f detection es =
      detectWays ph get f detection ((es.filterMap way?).map fun w => w.way) := by
  induction es generalizing detection with
  | nil => rfl
  | cons e es ih =>
    cases e with
    | way w =>
      rw [filterMap_cons_some (show way? (.way w) = some w from rfl), map_cons,
        detectElements, detectWays]
      simp only [ih]
    | node | denseNode | relation => exact ih detection

/-- The ways a group's iterator yields without metadata. -/
theorem ways_of_groupElements {fields : BlockFields} {group : Bytes} {es : List Element}
    (h : groupElementsSkipMetadata ph fields group = .ok es) :
    ∃ ways : List WireWay, (messages ph 3 group).map (WireWay.parse ph) = ways.map .ok ∧
      (es.filterMap way?).map (fun w => w.way) = ways := by
  obtain ⟨message, -, h⟩ := bind_eq_ok.mp h
  obtain ⟨dense, -, h⟩ := bind_eq_ok.mp h
  obtain ⟨nodes, -, h⟩ := bind_eq_ok.mp h
  obtain ⟨ways, hways, h⟩ := bind_eq_ok.mp h
  obtain ⟨relations, -, h⟩ := bind_eq_ok.mp h
  cases h
  refine ⟨ways, reparsed_eq_ok.mp hways, ?_⟩
  have hlist := ways_groupList fields dense nodes ways relations
  rw [groupList] at hlist
  rw [hlist, List.map_map]
  exact map_id ways

lemma groupWays_of_elements {fields : BlockFields} {groups : List Bytes}
    {parts : List (List Element)}
    (h : groups.mapM (groupElementsSkipMetadata ph fields) = .ok parts)
    (hframed : ∀ group ∈ groups, ∃ fs, Fields ph.reader group fs) :
    ∃ ways : List (List WireWay), List.Forall₂ (GroupWays ph) groups ways ∧
      (parts.flatten.filterMap way?).map (fun w => w.way) = ways.flatten := by
  induction groups generalizing parts with
  | nil =>
    cases h
    exact ⟨[], .nil, rfl⟩
  | cons group groups ih =>
    rw [forall_mem_cons] at hframed
    obtain ⟨part, rest, hpart, hrest, rfl⟩ := mapM_cons_ok.mp h
    obtain ⟨ways, hparsed, hways⟩ := ways_of_groupElements hpart
    obtain ⟨more, hmore, hflat⟩ := ih hrest hframed.2
    refine ⟨ways :: more, .cons ⟨hframed.1, hparsed⟩ hmore, ?_⟩
    rw [flatten_cons, filterMap_append, map_append, hways, hflat, flatten_cons]

/-- The two detectors agree on every block that both accept. -/
theorem detectors_agree {bytes : Bytes} {block : PrimitiveBlock}
    (h : fromVec ph bytes = .ok block) (hfits : Fits bytes block) {σ : Type}
    {observe : σ → Int64 → Except PbfError σ} {walk walk' : σ} {d e : Detection}
    (hwire : detectStaleWire ph get observe walk bytes = .ok (d, walk'))
    (hblock : detectStaleBlock ph get block = .ok (.ok e)) : d = e := by
  obtain ⟨top, table, hopen⟩ := fromVec_opened h hfits
  obtain ⟨es, hes, hjudge⟩ := map_eq_ok.mp hblock
  obtain ⟨groups, hgroups, hes⟩ := bind_eq_ok.mp hes
  obtain ⟨parts, hparts, hes⟩ := bind_eq_ok.mp hes
  cases hes
  rw [hopen.groups, Except.ok.injEq] at hgroups
  subst hgroups
  obtain ⟨ways, hways, hflat⟩ := groupWays_of_elements hparts fun group hgroup => by
    obtain ⟨k, n, hvalid⟩ := hopen.valid group hgroup
    exact (validateGroup_ok hvalid).framed
  rw [detectElements_eq, hflat, hopen.fields] at hjudge
  have hrun : Judged ph get (.ofBlock top.fields) { walk := walk } ways.flatten
      (detectGroups ph get observe (framingOf (NodeScan.scalarsOf top.fields)) walk top.groups) :=
    judged_groups hways _
  rw [detectStaleWire, NodeScan.walk_scanField hopen.walked] at hwire
  simp only [Except.mapError, ok_bind] at hwire
  cases hwalk : detectGroups ph get observe (framingOf (NodeScan.scalarsOf top.fields)) walk
      top.groups with
  | ok t =>
    rw [hwalk] at hrun hwire
    cases hwire
    have hend := hrun []
    rw [append_nil, ← hjudge] at hend
    cases hend
    rfl
  | error stop =>
    cases stop with
    | refused _ =>
      rw [hwalk] at hwire
      cases hwire
    | stale d' walk'' =>
      rw [hwalk] at hrun hwire
      cases hwire
      have hend := hrun []
      rw [append_nil, ← hjudge] at hend
      cases hend
      rfl

end Block

/-- The probe answers as the diff does, a way found stale is written with the diff's coordinates and
not stale then, and the two detectors agree. -/
theorem refresh_exact (ph : Crate) {diff : SortedDiff} (hdiff : TableSorted (diff.kind .node)) :
    Answers diff (Probe.fromDiff diff).get ∧
      (∀ (fields : BlockFields) (way : WireWay) (e : WayEval),
        evaluateWay ph (Probe.fromDiff diff).get (.ofBlock fields) way.refsData way.latData
          way.lonData = .ok e → 0 < e.staleRefs →
        (∃ ps lats lons, Refreshes ph (.fromDiff diff) fields way e ps lats lons) ∧
          ∀ parsed, validateInfo ph way.infoData = .ok parsed →
            ∃ info, outputInfo ph way.infoData fields.dateGranularity = .ok info) ∧
      ∀ (bytes : Bytes) (block : PrimitiveBlock), fromVec ph bytes = .ok block →
        bytes.length ≤ maxBlobMessageSize →
        ∀ {σ : Type} (observe : σ → Int64 → Except PbfError σ) (walk walk' : σ) (d e : Detection),
          detectStaleWire ph (Probe.fromDiff diff).get observe walk bytes = .ok (d, walk') →
          detectStaleBlock ph (Probe.fromDiff diff).get block = .ok (.ok e) → d = e := by
  refine ⟨get_fromDiff hdiff, ?_, ?_⟩
  · intro fields way e heval hstale
    exact ⟨refreshes_of_stale heval hstale, fun parsed hparsed => outputInfo_ok hparsed _⟩
  · intro bytes block hblock hlen σ observe walk walk' d e hwire hdetect
    have hfits : Fits bytes block := by
      refine fits_of_small hblock ?_
      unfold maxBlobMessageSize at hlen
      omega
    exact detectors_agree hblock hfits hwire hdetect

/-- A way of one node, which the small diff puts elsewhere. -/
def smallWay : WireWay := { id := 5, refsData := [6], latData := [2], lonData := [2] }

lemma evaluateWay_smallWay :
    evaluateWay Reference.crate (Probe.fromDiff smallDiff).get (.ofBlock {}) smallWay.refsData
      smallWay.latData smallWay.lonData = .ok ⟨1, 0, true⟩ := by
  have hget : (Probe.fromDiff smallDiff).get 3 = some (.upserted (0, 0)) := by
    rw [(get_fromDiff (smallDiff_sorted .node)).upserted 1 3 rfl]
    decide
  have hlocated : Located (.ofBlock {}) 0 0 0 smallWay.refsData smallWay.latData smallWay.lonData
      [(3, (1, 1))] :=
    @Located.cons _ 0 0 0 [6] [] [2] [] [2] [] 6 2 2 (1, 1) [] rfl rfl rfl (by decide) .nil
  have hmoved : moved (Probe.fromDiff smallDiff).get (3, (1, 1)) = true := by
    simp [moved, picked, hget]
  rw [evaluateWay_of hlocated]
  simp [hmoved, deletedAmong, hget, smallWay]

theorem refresh_exact_small : Answers smallDiff (Probe.fromDiff smallDiff).get ∧
      ∃ ps lats lons, Refreshes Reference.crate (.fromDiff smallDiff) {} smallWay ⟨1, 0, true⟩ ps
        lats lons := by
  obtain ⟨hprobe, hrefresh, -⟩ := refresh_exact Reference.crate (smallDiff_sorted .node)
  exact ⟨hprobe, (hrefresh {} smallWay ⟨1, 0, true⟩ evaluateWay_smallWay (by decide)).1⟩

end RefreshDetect
