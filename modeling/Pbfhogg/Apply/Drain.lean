import Pbfhogg.Apply.Rewrite
import Pbfhogg.Lib.Reorder

/-!
# The drain

`apply_changes/drain.rs` and the create runs of `stream_output.rs`, with `--locations-on-ways` off:
the items of the blobs arrive in any order, are processed in file order, and the creates no blob
carries are written between them. A splice stands for the blobs whose frames lie in its byte range.
Encoding and counters are left out.
-/

namespace ApplyDrain

open OsmId OscSorted OscLookup BlobMeta PlainMerge ApplyRewrite Fallible List Function

variable {C : Type}

structure Placement where
  kind : ElementKind
  idRange : Int64 × Int64
  first : Option Int64

def Placement.gapBound (p : Placement) : Int64 :=
  p.first.getD (blobOsmFirstId p.idRange.1 p.idRange.2)

def Placement.orderFirstKey (p : Placement) : OsmIdKey :=
  match p.first with
  | some first => osmIdKey first
  | none => blobOsmPresentFirstKey p.idRange.1 p.idRange.2

def placement : DrainItem C → Placement
  | .copyRange _ _ kind idRange first => ⟨kind, idRange, first⟩
  | .ownedBytes _ kind idRange first => ⟨kind, idRange, first⟩
  | .rewritten _ kind idRange first => ⟨kind, idRange, some first⟩

structure DrainState (C : Type) where
  lastType : Option ElementKind
  cursors : ElementKind → Nat
  copyRangeRun : Option (Nat × Nat)
  passthroughChunks : List (Blob C)
  orderWatermark : OrderWatermark
  written : List (Written C)

def DrainState.new : DrainState C := ⟨none, fun _ => 0, none, [], ⟨none⟩, []⟩

def blobElements (b : Blob C) : List (Written C) := b.elements.map .base

/-- The blobs whose frames lie in a byte range of the input. -/
def copied (file : List (Blob C)) (start stop : Nat) : List (Written C) :=
  (file.filter fun b =>
    decide (start ≤ b.frameStart ∧ b.frameStart + b.frameLen ≤ stop)).flatMap blobElements

def ownedPassthroughFlushBytes : Nat := 32 <<< 20

section Model

variable (diff : SortedDiff) (route : Route) (file : List (Blob C))

def flushCopyRange (s : DrainState C) : Except PbfError (DrainState C) :=
  match s.copyRangeRun with
  | none => .ok s
  | some (start, stop) =>
    match route with
    | .splice =>
      .ok { s with copyRangeRun := none, written := s.written ++ copied file start stop }
    | .owned => .error (.internal "drain: copy range run pending on the owned route")

def flushPassthroughBuf (s : DrainState C) : DrainState C :=
  { s with passthroughChunks := [], written := s.written ++ s.passthroughChunks.flatMap blobElements }

variable (kind : ElementKind)

/-- Write a run of creates, an index range into the upserts of a kind. -/
def emit (run : Nat × Nat) (s : DrainState C) : DrainState C :=
  { s with written := s.written ++ (slice (diff.kind kind) run).map (oscOf kind) }

def setCursor (cursor : Nat) (s : DrainState C) : DrainState C :=
  { s with cursors := update s.cursors kind cursor }

def emitRest (s : DrainState C) : DrainState C :=
  emit diff kind (s.cursors kind, (diff.kind kind).ids.length)
    (setCursor kind (diff.kind kind).ids.length s)

def flushRemainingUpserts (prev next : ElementKind) (s : DrainState C) : DrainState C :=
  if prev = .node ∧ next = .relation then emitRest diff .way (emitRest diff prev s)
  else emitRest diff prev s

def handleTypeTransition (prev kind : ElementKind) (s : DrainState C) :
    Except PbfError (DrainState C) := do
  let s ← flushCopyRange route file s
  .ok (flushRemainingUpserts diff prev kind (flushPassthroughBuf s))

def hasGapCreates (bound : Int64) (s : DrainState C) : Bool :=
  match (diff.kind kind).ids[s.cursors kind]? with
  | some id => decide (OsmLt id bound)
  | none => false

def emitGapCreates (bound : Int64) (s : DrainState C) : DrainState C :=
  let start := s.cursors kind
  let len := partitionPoint (fun id => decide (OsmLt id bound)) ((diff.kind kind).ids.drop start)
  emit diff kind (start, start + len) (setCursor kind (start + len) s)

def handleGapCreates (bound : Int64) (s : DrainState C) :
    Except PbfError (DrainState C) :=
  if hasGapCreates diff kind bound s then do
    let s ← flushCopyRange route file s
    .ok (emitGapCreates diff kind bound (flushPassthroughBuf s))
  else .ok s

def kindName (ordinal : Nat) : String :=
  match [ElementKind.node, .way, .relation].find? fun k => k.ordinal = ordinal with
  | some k => k.asStr
  | none => "unknown"

def checkOutputOrder (first last : OsmIdKey) (s : DrainState C) :
    Except PbfError (DrainState C) :=
  match s.orderWatermark.observeKeys kind.ordinal first last with
  | .ok watermark => .ok { s with orderWatermark := watermark }
  | .error v => .error (.unsorted
      ("apply-changes: refusing to write an unsorted PBF under a Sort.Type_then_ID header - a " ++
        kind.asStr ++ " blob holding id " ++ toString v.firstId ++ " follows " ++
        kindName v.previousKind ++ " output already reaching id " ++ toString v.previousId ++
        "; the base is not in the order its header declares."))

def dispatchCopyRange (frameStart frameLen : Nat) (s : DrainState C) :
    Except PbfError (DrainState C) :=
  match s.copyRangeRun with
  | some (start, stop) =>
    if stop = frameStart then .ok { s with copyRangeRun := some (start, frameStart + frameLen) }
    else do
      let s ← flushCopyRange route file s
      .ok { s with copyRangeRun := some (frameStart, frameStart + frameLen) }
  | none => .ok { s with copyRangeRun := some (frameStart, frameStart + frameLen) }

def dispatchOwnedBytes (frame : Blob C) (s : DrainState C) : DrainState C :=
  let s := { s with passthroughChunks := s.passthroughChunks ++ [frame] }
  if ownedPassthroughFlushBytes ≤ (s.passthroughChunks.map Blob.frameLen).sum then
    flushPassthroughBuf s
  else s

/-- A rewrite carried the upserts up to its blob's last key. -/
def dispatchRewritten (elements : List (Written C)) (kind : ElementKind)
    (idRange : Int64 × Int64) (s : DrainState C) : DrainState C :=
  let last := blobOsmLastKey idRange.1 idRange.2
  let cursor := s.cursors kind
  setCursor kind (cursor + partitionPoint (fun id => decide (osmIdKey id ≤ last))
    ((diff.kind kind).ids.drop cursor)) { s with written := s.written ++ elements }

def dispatchVariant (item : DrainItem C) (s : DrainState C) : Except PbfError (DrainState C) :=
  match item with
  | .copyRange frameStart frameLen _ _ _ =>
    match route with
    | .splice => dispatchCopyRange .splice file frameStart frameLen (flushPassthroughBuf s)
    | .owned => .error (.internal "drain: received CopyRange item on the owned route")
  | .ownedBytes frame _ _ _ => do
    let s ← flushCopyRange route file s
    .ok (dispatchOwnedBytes frame s)
  | .rewritten elements kind idRange _ => do
    let s ← flushCopyRange route file s
    .ok (dispatchRewritten diff elements kind idRange (flushPassthroughBuf s))

def transition (s : DrainState C) : Except PbfError (DrainState C) :=
  match s.lastType with
  | some prev => if prev ≠ kind then handleTypeTransition diff route file prev kind s else .ok s
  | none => .ok s

/-- Order guard and gap creates, for a range that is one. -/
def placeItem (p : Placement) (s : DrainState C) : Except PbfError (DrainState C) :=
  if p.idRange.1 ≤ p.idRange.2 then do
    let s ← checkOutputOrder p.kind p.orderFirstKey (blobOsmLastKey p.idRange.1 p.idRange.2) s
    handleGapCreates diff route file p.kind p.gapBound s
  else .ok s

def processItem (s : DrainState C) (item : DrainItem C) : Except PbfError (DrainState C) := do
  let p := placement item
  let s ← transition diff route file p.kind s
  let s ← placeItem diff route file p { s with lastType := some p.kind }
  dispatchVariant diff route file item s

def typesToFlush : Option ElementKind → List ElementKind
  | none => [.node, .way, .relation]
  | some .node => [.node, .way, .relation]
  | some .way => [.way, .relation]
  | some .relation => [.relation]

def trailingCreates (s : DrainState C) (kind : ElementKind) : Except PbfError (DrainState C) := do
  let s ← ((diff.kind kind).ids.drop (s.cursors kind)).foldlM
    (fun s id => checkOutputOrder kind (osmIdKey id) (osmIdKey id) s) s
  .ok (emitRest diff kind s)

def refuseGap (r : Reorder.State (DrainState C) (DrainItem C)) : Except PbfError Unit :=
  match (r.buffer.map Prod.fst).min? with
  | none => .ok ()
  | some smallest => .error (.internal ("drain: channel closed with " ++
      toString r.buffer.length ++ " items still in reorder buffer; expected next seq " ++
      toString r.nextSeq ++ ", smallest remaining seq " ++ toString smallest ++
      ". Producer dropped a seq."))

def runDrain (arrivals : List (Nat × DrainItem C)) : Except PbfError (List (Written C)) := do
  let r ← Reorder.run (processItem diff route file) ⟨[], 0, .new⟩ arrivals
  refuseGap r
  let s ← flushCopyRange route file r.inner
  let s ← (typesToFlush s.lastType).foldlM (trailingCreates diff) (flushPassthroughBuf s)
  .ok s.written

end Model

variable {diff : SortedDiff} {route : Route} {file : List (Blob C)}

/-- Frames follow one another in the file and none is empty. -/
structure Laid (file : List (Blob C)) : Prop where
  order : file.Pairwise fun a b => a.frameStart + a.frameLen ≤ b.frameStart
  nonempty : ∀ b ∈ file, 0 < b.frameLen

lemma copied_empty (h : Laid file) (start : Nat) : copied file start start = [] := by
  have hnone : (file.filter fun b =>
      decide (start ≤ b.frameStart ∧ b.frameStart + b.frameLen ≤ start)) = [] := by
    apply filter_eq_nil_iff.mpr
    intro b hb
    have hpos := h.nonempty b hb
    simp only [decide_eq_true_iff]
    omega
  rw [copied, hnone, flatMap_nil]

/-- A range that ends where a frame starts grows by that frame's blob. -/
lemma copied_extend {pre post : List (Blob C)} {b : Blob C} (h : Laid (pre ++ b :: post))
    {start : Nat} (hstart : start ≤ b.frameStart) :
    copied (pre ++ b :: post) start (b.frameStart + b.frameLen) =
      copied (pre ++ b :: post) start b.frameStart ++ blobElements b := by
  have horder := pairwise_append.mp h.order
  have hpost := pairwise_cons.mp horder.2.1
  have hlen : 0 < b.frameLen := h.nonempty b (by simp)
  have hbefore : ∀ stop, b.frameStart ≤ stop → (pre.filter fun x =>
      decide (start ≤ x.frameStart ∧ x.frameStart + x.frameLen ≤ stop)) =
        pre.filter fun x => decide (start ≤ x.frameStart) := by
    intro stop hstop
    apply filter_congr
    intro x hx
    have hx' := horder.2.2 x hx b mem_cons_self
    rw [decide_eq_decide]
    omega
  have hafter : ∀ stop, stop ≤ b.frameStart + b.frameLen → (post.filter fun x =>
      decide (start ≤ x.frameStart ∧ x.frameStart + x.frameLen ≤ stop)) = [] := by
    intro stop hstop
    apply filter_eq_nil_iff.mpr
    intro x hx
    have hx' := hpost.1 x hx
    have hxlen : 0 < x.frameLen := h.nonempty x (by simp [hx])
    simp only [decide_eq_true_iff]
    omega
  simp only [copied, filter_append, filter_cons]
  rw [hbefore _ (by omega), hbefore _ (by omega), hafter _ (by omega), hafter _ (by omega)]
  rw [if_pos (by simpa using hstart), if_neg (by simp only [decide_eq_true_iff]; omega)]
  simp

def runElements (file : List (Blob C)) : Option (Nat × Nat) → List (Written C)
  | none => []
  | some (start, stop) => copied file start stop

/-- What is written once both buffers are flushed. -/
def settled (file : List (Blob C)) (s : DrainState C) : List (Written C) :=
  s.written ++ runElements file s.copyRangeRun ++ s.passthroughChunks.flatMap blobElements

/-- At most one buffer holds something, a splice only on its route. -/
structure Buffered (route : Route) (s : DrainState C) : Prop where
  route : route = .owned → s.copyRangeRun = none
  single : s.copyRangeRun = none ∨ s.passthroughChunks = []
  range : ∀ start stop, s.copyRangeRun = some (start, stop) → start ≤ stop

def flushRun (file : List (Blob C)) (s : DrainState C) : DrainState C :=
  { s with copyRangeRun := none, written := s.written ++ runElements file s.copyRangeRun }

def flushed (file : List (Blob C)) (s : DrainState C) : DrainState C :=
  { s with copyRangeRun := none, passthroughChunks := [], written := settled file s }

variable {s : DrainState C}

lemma flushCopyRange_eq (h : Buffered route s) :
    flushCopyRange route file s = .ok (flushRun file s) := by
  unfold flushCopyRange flushRun
  cases hrun : s.copyRangeRun with
  | none =>
    obtain ⟨lastType, cursors, copyRangeRun, chunks, watermark, written⟩ := s
    simp only at hrun
    simp [hrun, runElements]
  | some range =>
    cases route with
    | owned => simp [h.route rfl] at hrun
    | splice => rfl

lemma flushPassthroughBuf_flushRun (s : DrainState C) :
    flushPassthroughBuf (flushRun file s) = flushed file s := rfl

/-- A state that follows another by writing some elements. -/
structure Writes (route : Route) (file : List (Blob C)) (s t : DrainState C)
    (out : List (Written C)) : Prop where
  buffered : Buffered route t
  settled : settled file t = ApplyDrain.settled file s ++ out
  lastType : t.lastType = s.lastType
  watermark : t.orderWatermark = s.orderWatermark

lemma buffered_of_empty (hrun : s.copyRangeRun = none) : Buffered route s := by
  constructor
  · exact fun _ => hrun
  · exact .inl hrun
  · intro start stop h
    rw [hrun] at h
    cases h

lemma settled_flushed (s : DrainState C) : settled file (flushed file s) = settled file s := by
  simp [settled, flushed, runElements]

variable (t : KindTable)

lemma length_entries : (entries t).length = t.ids.length := by
  simp [entries]

lemma slice_rest (cursor : Nat) : slice t (cursor, t.ids.length) = (entries t).drop cursor := by
  rw [slice, ← length_entries]
  apply take_of_length_le
  simp

lemma slice_takeWhile (cursor : Nat) (p : Int64 → Bool) :
    slice t (cursor, cursor + partitionPoint p (t.ids.drop cursor)) =
      ((entries t).drop cursor).takeWhile fun x => p x.1 := by
  rw [slice, Nat.add_sub_cancel_left, ← entries_ids, ← map_drop, partitionPoint_map]
  exact take_partitionPoint _ _

lemma drop_cursor (cursor : Nat) (p : Int64 → Bool) :
    (entries t).drop (cursor + partitionPoint p (t.ids.drop cursor)) =
      ((entries t).drop cursor).dropWhile fun x => p x.1 := by
  rw [← drop_drop, ← entries_ids, ← map_drop, partitionPoint_map]
  exact drop_partitionPoint _ _

lemma emitRest_writes (hrun : s.copyRangeRun = none) (hchunks : s.passthroughChunks = [])
    (kind : ElementKind) :
    Writes route file s (emitRest diff kind s)
      (((entries (diff.kind kind)).drop (s.cursors kind)).map (oscOf kind)) := by
  constructor
  · exact buffered_of_empty hrun
  · simp [settled, emitRest, emit, setCursor, slice_rest, hrun, hchunks, runElements]
  · rfl
  · rfl

lemma emitRest_flushed_writes (s : DrainState C) (kind : ElementKind) :
    Writes route file s (emitRest diff kind (flushed file s))
      (((entries (diff.kind kind)).drop (s.cursors kind)).map (oscOf kind)) := by
  have hrest := @emitRest_writes C diff route file (flushed file s) rfl rfl kind
  refine ⟨hrest.buffered, ?_, rfl, rfl⟩
  rw [hrest.settled, settled_flushed]
  rfl

/-- The creates below a bound, whether there are any or not. -/
lemma handleGapCreates_writes (h : Buffered route s) (kind : ElementKind) (bound : Int64) :
    ∃ t, handleGapCreates diff route file kind bound s = .ok t ∧
      Writes route file s t ((((entries (diff.kind kind)).drop (s.cursors kind)).takeWhile
        fun x => decide (OsmLt x.1 bound)).map (oscOf kind)) ∧
      t.cursors = update s.cursors kind (s.cursors kind +
        partitionPoint (fun id => decide (OsmLt id bound))
          ((diff.kind kind).ids.drop (s.cursors kind))) := by
  have hslice := slice_takeWhile (diff.kind kind) (s.cursors kind) fun id => decide (OsmLt id bound)
  by_cases hgap : hasGapCreates diff kind bound s
  · refine ⟨emitGapCreates diff kind bound (flushed file s), ?_, ?_, rfl⟩
    · rw [handleGapCreates, if_pos hgap, flushCopyRange_eq h, ok_bind, flushPassthroughBuf_flushRun]
    · constructor
      · exact buffered_of_empty rfl
      · rw [← hslice]
        simp [settled, emitGapCreates, emit, setCursor, flushed, runElements]
      · rfl
      · rfl
  · have hnone : partitionPoint (fun id => decide (OsmLt id bound))
        ((diff.kind kind).ids.drop (s.cursors kind)) = 0 := by
      rw [hasGapCreates, ← head?_drop] at hgap
      cases hdrop : (diff.kind kind).ids.drop (s.cursors kind) with
      | nil => rfl
      | cons id ids =>
        rw [hdrop] at hgap
        simp only [head?_cons] at hgap
        simp [partitionPoint, hgap]
    refine ⟨s, by rw [handleGapCreates, if_neg hgap], ?_, ?_⟩
    · have hempty : (((entries (diff.kind kind)).drop (s.cursors kind)).takeWhile
          fun x => decide (OsmLt x.1 bound)) = [] := by
        rw [← hslice, hnone]
        simp [slice]
      rw [hempty]
      exact ⟨h, by simp, rfl, rfl⟩
    · rw [hnone, Nat.add_zero, update_eq_self]

lemma dispatch_passThrough {pre post : List (Blob C)} {b : Blob C}
    (hfile : Laid (pre ++ b :: post)) (h : Buffered route s) (first : Option Int64) :
    ∃ t, dispatchVariant diff route (pre ++ b :: post) (passThroughIndexed route b first) s = .ok t ∧
      Writes route (pre ++ b :: post) s t (blobElements b) ∧ t.cursors = s.cursors := by
  cases route with
  | splice =>
    have hfresh : copied (pre ++ b :: post) b.frameStart (b.frameStart + b.frameLen) =
        blobElements b := by
      rw [copied_extend hfile (Nat.le_refl _), copied_empty hfile, nil_append]
    simp only [dispatchVariant, passThroughIndexed, dispatchCopyRange, flushPassthroughBuf]
    cases hrun : s.copyRangeRun with
    | none =>
      refine ⟨_, rfl, ⟨⟨?_, .inr rfl, ?_⟩, ?_, rfl, rfl⟩, rfl⟩
      · intro hroute
        cases hroute
      · intro start stop heq
        cases heq
        omega
      · simp [settled, runElements, hrun, hfresh]
    | some range =>
      obtain ⟨start, stop⟩ := range
      have hle := h.range start stop hrun
      have hchunks : s.passthroughChunks = [] := by
        rcases h.single with hnone | hchunks
        · rw [hrun] at hnone
          cases hnone
        · exact hchunks
      simp only
      by_cases hstop : stop = b.frameStart
      · rw [if_pos hstop]
        refine ⟨_, rfl, ⟨⟨?_, .inr rfl, ?_⟩, ?_, rfl, rfl⟩, rfl⟩
        · intro hroute
          cases hroute
        · intro start' stop' heq
          cases heq
          omega
        · have hgrow := copied_extend hfile (hstop ▸ hle : start ≤ b.frameStart)
          simp [settled, runElements, hrun, hchunks, hgrow, hstop]
      · rw [if_neg hstop]
        simp only [flushCopyRange, ok_bind]
        refine ⟨_, rfl, ⟨⟨?_, .inr rfl, ?_⟩, ?_, rfl, rfl⟩, rfl⟩
        · intro hroute
          cases hroute
        · intro start' stop' heq
          cases heq
          omega
        · simp [settled, runElements, hrun, hchunks, hfresh]
  | owned =>
    have hrun := h.route rfl
    simp only [dispatchVariant, passThroughIndexed]
    rw [flushCopyRange_eq h, ok_bind]
    refine ⟨_, rfl, ?_, ?_⟩
    · simp only [dispatchOwnedBytes]
      split_ifs
      · refine ⟨buffered_of_empty rfl, ?_, rfl, rfl⟩
        simp [settled, flushPassthroughBuf, flushRun, hrun, runElements]
      · refine ⟨buffered_of_empty rfl, ?_, rfl, rfl⟩
        simp [settled, flushRun, hrun, runElements]
    · simp only [dispatchOwnedBytes]
      split_ifs <;> rfl

lemma dispatch_rewritten (h : Buffered route s) (elements : List (Written C)) (kind : ElementKind)
    (idRange : Int64 × Int64) (first : Int64) :
    ∃ t, dispatchVariant diff route file (.rewritten elements kind idRange first) s = .ok t ∧
      Writes route file s t elements ∧ t.cursors = update s.cursors kind (s.cursors kind +
        partitionPoint (fun id => decide (osmIdKey id ≤ blobOsmLastKey idRange.1 idRange.2))
          ((diff.kind kind).ids.drop (s.cursors kind))) := by
  refine ⟨dispatchRewritten diff elements kind idRange (flushed file s), ?_, ?_, rfl⟩
  · simp only [dispatchVariant]
    rw [flushCopyRange_eq h, ok_bind, flushPassthroughBuf_flushRun]
  · refine ⟨buffered_of_empty rfl, ?_, rfl, rfl⟩
    simp [settled, dispatchRewritten, setCursor, flushed, runElements]

end ApplyDrain
