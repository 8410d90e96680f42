import Pbfhogg.IdSet.Directory
import Pbfhogg.Read.Projection
import Pbfhogg.Read.WholeWalk

/-!
# Ids and reference arrays without a block

`KindIds`, `WaySpans` and `RelationSpans`: projections that keep the positions of the arrays they
are handed and read them back from the accepted bytes. Plain nodes are handed over before the dense
message of their group and walked behind it, so their ids wait for the end of the group.
-/

namespace ProjectIds

open OsmId Protohoggr WireMessages BlockScan BlockValid Elements Accessors WayScan Deltas Fallible
  Slices Projection NodeScan WholeWalk List
open MergeJoin (MemberId)

variable {es : List Element} {fields : BlockFields}

/-- `Error::internal`. -/
structure Internal where
  msg : String

/-- Where a validated array lies in memory. -/
structure Span where
  at_ : Nat
  len : Nat

namespace Span

def of (data : Slice) : Span := ⟨data.addr, data.bytes.length⟩

def outside : Internal := ⟨"block projection: a span lies outside its blob"⟩

/-- `Span::in_blob`: an empty array is empty wherever it was recorded. -/
def inBlob (span : Span) (bytes : Slice) : Except Internal Bytes :=
  if span.len = 0 then .ok []
  else if span.at_ < bytes.addr then .error outside
  else if span.at_ - bytes.addr + span.len ≤ bytes.bytes.length then
    .ok (sliceAt bytes.bytes (span.at_ - bytes.addr) span.len)
  else .error outside

lemma inBlob_of {buffer s : Slice} (h : buffer.Held s) : (of s).inBlob buffer = .ok s.bytes := by
  rw [inBlob, of]
  rcases h with hempty | ⟨before, after, hbytes, haddr⟩
  · simp [hempty]
  · by_cases hzero : s.bytes.length = 0
    · rw [if_pos hzero, length_eq_zero_iff.mp hzero]
    · have hbehind : ¬s.addr < buffer.addr := by omega
      have hstart : s.addr - buffer.addr = before.length := by omega
      have hin : before.length + s.bytes.length ≤ buffer.bytes.length := by
        rw [hbytes, length_append, length_append]
        omega
      rw [if_neg hzero, if_neg hbehind, hstart, if_pos hin, hbytes, sliceAt_append]

end Span

section Source

variable (ph : Crate)

/-- `WayRefIter::delta_decoded`. -/
def deltaDecoded (data : Bytes) : List Int64 := sumsFrom 0 (ph.packedSint64 data)

structure WaySpan where
  id : Int64
  refs : Span

def WaySpan.readRefs (w : WaySpan) (bytes : Slice) : Except Internal (List Int64) :=
  (w.refs.inBlob bytes).map (deltaDecoded ph)

/-- `WaySpans`: the ways `only` holds, or all of them. -/
def waySpans (only : Option IdSets.IdSet) : GroupProjection (List WaySpan) where
  way ways way _ :=
    if only.all fun only => only.get way.way.id then
      ways ++ [⟨way.way.id, Span.of way.refs⟩]
    else ways

/-- `WaySpans::new` clears what it records into. -/
def WaySpans.new (_ways : List WaySpan) : List WaySpan := []

structure RelationSpan where
  id : Int64
  memids : Span
  types : Span

/-- `MemberIdIter`. -/
def memberIdsFrom : List Int64 → List Int32 → Except Panic (List MemberId)
  | id :: ids, type :: types => (memberIdsFrom ids types).map (memberIdFrom id type :: ·)
  | [], [] => .ok []
  | _, _ => .error (.parallelArraysDiffer "relation member")

def RelationSpan.readMembers (r : RelationSpan) (bytes : Slice) :
    Except Internal (Except Panic (List MemberId)) := do
  let memids ← r.memids.inBlob bytes
  let types ← r.types.inBlob bytes
  return memberIdsFrom (deltaDecoded ph memids) (ph.packedInt32 types)

/-- `RelationSpans`. -/
def relationSpans : GroupProjection (List RelationSpan) where
  relation relations relation _ :=
    relations ++ [⟨relation.relation.id, Span.of relation.memids, Span.of relation.types⟩]

/-- `RelationSpans::new` clears what it records into. -/
def RelationSpans.new (_relations : List RelationSpan) : List RelationSpan := []

/-- One stretch of a blob's ids of one kind. -/
inductive IdRun
  | dense (span : Span)
  | copied (kind : ElementKind) (count : Nat)

structure IdScratch where
  runs : List IdRun := []
  ids : List Int64 := []
  plain : List Int64 := []

namespace KindIds

/-- `KindIds::new` clears its scratch. -/
def new (_scratch : IdScratch) : IdScratch := {}

/-- `KindIds::copy`: a copied run extends only a run of its own kind. -/
def copy (s : IdScratch) (kind : ElementKind) (id : Int64) : IdScratch :=
  match s.runs.getLast? with
  | some (.copied last count) =>
    if last = kind then
      { s with ids := s.ids ++ [id], runs := s.runs.dropLast ++ [.copied last (count + 1)] }
    else { s with ids := s.ids ++ [id], runs := s.runs ++ [.copied kind 1] }
  | _ => { s with ids := s.ids ++ [id], runs := s.runs ++ [.copied kind 1] }

def hooks (kinds : KindSet) : GroupProjection IdScratch where
  groupBegin s := { s with plain := [] }
  node s node _ := if kinds.has .node then { s with plain := s.plain ++ [node.id] } else s
  way s way _ := if kinds.has .way then copy s .way way.way.id else s
  relation s relation _ :=
    if kinds.has .relation then copy s .relation relation.relation.id else s
  dense s dense _ _ :=
    if kinds.has .node then { s with runs := s.runs ++ [.dense (Span.of dense.ids)] } else s
  groupEnd s _ := s.plain.foldl (fun s id => copy s .node id) s

end KindIds

namespace IdScratch

variable {ε τ : Type}

/-- The runs in order, the copied ids taken from one cursor. -/
def eachRun (internal : Internal → ε) (bytes : Slice) (f : τ → ElementKind → Int64 → Except ε τ) :
    List IdRun → List Int64 → τ → Except ε τ
  | [], _, t => .ok t
  | .dense span :: runs, copied, t => do
    let data ← (span.inBlob bytes).mapError internal
    let t ← (deltaDecoded ph data).foldlM (fun t id => f t .node id) t
    eachRun internal bytes f runs copied t
  | .copied kind count :: runs, copied, t => do
    let t ← (copied.take count).foldlM (fun t id => f t kind id) t
    eachRun internal bytes f runs (copied.drop count) t

/-- `IdScratch::each`. -/
def each (internal : Internal → ε) (s : IdScratch) (bytes : Slice)
    (f : τ → ElementKind → Int64 → Except ε τ) (t : τ) : Except ε τ :=
  eachRun ph internal bytes f s.runs s.ids t

end IdScratch

def walkedId? : ElementKind → Element → Option Int64
  | .node, .denseNode n => some n.id
  | .node, .node n => some n.id
  | .way, .way w => some w.way.id
  | .relation, .relation r => some r.relation.id
  | _, _ => none

/-- The ids of one kind, in the order of the walk. -/
def walkedIds (kind : ElementKind) (es : List Element) : List Int64 :=
  es.filterMap (walkedId? kind)

def walkedWay? : Element → Option (Int64 × List Int64)
  | .way w => some (w.way.id, wayRefs ph w)
  | _ => none

/-- The ways with their references. -/
def walkedWays (es : List Element) : List (Int64 × List Int64) := es.filterMap (walkedWay? ph)

def walkedRelation? : Element → Option (Int64 × Except Panic (List MemberId))
  | .relation r => some (r.relation.id, (members ph r.relation).map fun ms => ms.map Prod.snd)
  | _ => none

/-- The relations with their typed member ids. -/
def walkedRelations (es : List Element) : List (Int64 × Except Panic (List MemberId)) :=
  es.filterMap (walkedRelation? ph)

end Source

section Replay

variable {ph : Crate} {buffer : Slice}

/-- What the runs yield of the copied ids. -/
def replay (ph : Crate) (buffer : Slice) : List IdRun → List Int64 → List (ElementKind × Int64)
  | [], _ => []
  | .dense span :: runs, copied =>
    ((span.inBlob buffer).toOption.elim [] (deltaDecoded ph)).map (.node, ·) ++
      replay ph buffer runs copied
  | .copied kind count :: runs, copied =>
    (copied.take count).map (kind, ·) ++ replay ph buffer runs (copied.drop count)

def IdRun.copies : IdRun → Nat
  | .dense _ => 0
  | .copied _ count => count

def copies (runs : List IdRun) : Nat := (runs.map IdRun.copies).sum

def IdRun.Readable (buffer : Slice) : IdRun → Prop
  | .dense span => ∃ data, span.inBlob buffer = .ok data
  | .copied _ _ => True

/-- Every dense run can be read back, and the copied runs use up the copied ids. -/
structure Recorded (buffer : Slice) (s : IdScratch) : Prop where
  readable : ∀ run ∈ s.runs, run.Readable buffer
  copied : copies s.runs = s.ids.length

def recorded (ph : Crate) (buffer : Slice) (s : IdScratch) : List (ElementKind × Int64) :=
  replay ph buffer s.runs s.ids

lemma foldlM_map {ε τ α β : Type} (g : α → β) (f : τ → β → Except ε τ) (xs : List α) (t : τ) :
    (xs.map g).foldlM f t = xs.foldlM (fun t x => f t (g x)) t := by
  induction xs generalizing t with
  | nil => rfl
  | cons x xs ih =>
    rw [map_cons, foldlM_cons, foldlM_cons]
    congr 1
    funext t'
    exact ih t'

variable {s : IdScratch}

/-- `each` hands over the recorded ids one after the other and stops at the first error. -/
theorem each_eq {ε τ : Type} {internal : Internal → ε} (h : Recorded buffer s)
    (f : τ → ElementKind → Int64 → Except ε τ) (t : τ) :
    s.each ph internal buffer f t = (recorded ph buffer s).foldlM (fun t p => f t p.1 p.2) t := by
  obtain ⟨runs, ids, plain⟩ := s
  obtain ⟨hreadable, -⟩ := h
  rw [IdScratch.each, recorded]
  induction runs generalizing ids t with
  | nil => rfl
  | cons run runs ih =>
    rw [forall_mem_cons] at hreadable
    cases run with
    | dense span =>
      obtain ⟨data, hdata⟩ := hreadable.1
      rw [IdScratch.eachRun, replay, hdata, foldlM_append]
      simp only [Except.mapError, ok_bind, Except.toOption, Option.elim_some, foldlM_map]
      congr 1
      funext t'
      exact ih t' ids hreadable.2
    | copied kind count =>
      rw [IdScratch.eachRun, replay, foldlM_append, foldlM_map]
      congr 1
      funext t'
      exact ih t' _ hreadable.2

lemma replay_append (runs more : List IdRun) (ids : List Int64) :
    replay ph buffer (runs ++ more) ids =
      replay ph buffer runs ids ++ replay ph buffer more (ids.drop (copies runs)) := by
  induction runs generalizing ids with
  | nil => simp [replay, copies]
  | cons run runs ih =>
    cases run with
    | dense span =>
      rw [cons_append, replay, replay, ih, append_assoc]
      simp [copies, IdRun.copies]
    | copied kind count =>
      rw [cons_append, replay, replay, ih, append_assoc, drop_drop]
      simp [copies, IdRun.copies]

/-- Ids behind those a run copies are not looked at. -/
theorem replay_more {runs : List IdRun} {ids : List Int64} (h : copies runs ≤ ids.length)
    (more : List Int64) : replay ph buffer runs (ids ++ more) = replay ph buffer runs ids := by
  induction runs generalizing ids with
  | nil => rfl
  | cons run runs ih =>
    rw [copies, map_cons, sum_cons] at h
    cases run with
    | dense span =>
      rw [replay, replay, ih (by rw [copies]; omega)]
    | copied kind count =>
      simp only [IdRun.copies] at h
      rw [replay, replay, take_append_of_le_length (by omega),
        drop_append_of_le_length (by omega), ih (by rw [copies, length_drop]; omega)]

lemma copies_append (runs more : List IdRun) :
    copies (runs ++ more) = copies runs + copies more := by
  simp [copies]

lemma recorded_nil (plain : List Int64) : Recorded buffer ⟨[], [], plain⟩ := ⟨nofun, rfl⟩

/-- One id more, in a run of its own or at the end of the last one. -/
theorem copy_spec (h : Recorded buffer s) (kind : ElementKind) (id : Int64) :
    Recorded buffer (KindIds.copy s kind id) ∧
      recorded ph buffer (KindIds.copy s kind id) = recorded ph buffer s ++ [(kind, id)] := by
  obtain ⟨runs, ids, plain⟩ := s
  obtain ⟨hreadable, hcopied⟩ := h
  have hpush : Recorded buffer ⟨runs ++ [.copied kind 1], ids ++ [id], plain⟩ ∧
      recorded ph buffer ⟨runs ++ [.copied kind 1], ids ++ [id], plain⟩ =
        recorded ph buffer ⟨runs, ids, plain⟩ ++ [(kind, id)] := by
    refine ⟨⟨?_, ?_⟩, ?_⟩
    · rw [forall_mem_append]
      exact ⟨hreadable, by simp [IdRun.Readable]⟩
    · rw [copies_append, hcopied, length_append]
      rfl
    · rw [recorded, recorded, replay_append, replay_more hcopied.le, hcopied, drop_left]
      rfl
  rcases eq_nil_or_concat runs with rfl | ⟨front, run, rfl⟩
  · exact hpush
  · rw [concat_eq_append] at *
    cases run with
    | dense span => simpa [KindIds.copy] using hpush
    | copied last count =>
      by_cases hkind : last = kind
      · subst hkind
        have hcopy : KindIds.copy ⟨front ++ [.copied last count], ids, plain⟩ last id =
            ⟨front ++ [.copied last (count + 1)], ids ++ [id], plain⟩ := by
          simp [KindIds.copy]
        have hfront : copies front + count = ids.length := by
          rw [← hcopied, copies_append]
          simp [copies, IdRun.copies]
        rw [hcopy]
        refine ⟨⟨?_, ?_⟩, ?_⟩
        · rw [forall_mem_append] at hreadable ⊢
          exact ⟨hreadable.1, by simp [IdRun.Readable]⟩
        · rw [copies_append, length_append]
          simp [copies, IdRun.copies] at hfront ⊢
          omega
        · have hrest : (ids.drop (copies front)).length = count := by
            rw [length_drop]
            omega
          rw [recorded, recorded, replay_append, replay_append, replay_more (by omega),
            append_assoc, drop_append_of_le_length (by omega)]
          simp only [replay, append_nil]
          rw [take_of_length_le (by rw [length_append, hrest]; rfl),
            take_of_length_le hrest.le, map_append]
          rfl
      · simpa [KindIds.copy, hkind] using hpush

lemma foldl_copy_spec (h : Recorded buffer s) (kind : ElementKind) (ids : List Int64) :
    Recorded buffer (ids.foldl (fun s id => KindIds.copy s kind id) s) ∧
      recorded ph buffer (ids.foldl (fun s id => KindIds.copy s kind id) s) =
        recorded ph buffer s ++ ids.map (kind, ·) := by
  induction ids generalizing s with
  | nil => simp [h]
  | cons id ids ih =>
    obtain ⟨hcopy, hrecorded⟩ := @copy_spec ph buffer s h kind id
    obtain ⟨hrest, heq⟩ := ih hcopy
    refine ⟨hrest, ?_⟩
    rw [foldl_cons, heq, hrecorded, append_assoc]
    rfl

/-- A dense run behind the others. -/
theorem dense_spec (h : Recorded buffer s) {ids : Slice} (hheld : buffer.Held ids) :
    Recorded buffer { s with runs := s.runs ++ [.dense (Span.of ids)] } ∧
      recorded ph buffer { s with runs := s.runs ++ [.dense (Span.of ids)] } =
        recorded ph buffer s ++ (deltaDecoded ph ids.bytes).map (.node, ·) := by
  refine ⟨⟨?_, ?_⟩, ?_⟩
  · rw [forall_mem_append]
    refine ⟨h.readable, ?_⟩
    rw [forall_mem_singleton]
    exact ⟨ids.bytes, Span.inBlob_of hheld⟩
  · rw [copies_append, h.copied]
    rfl
  · rw [recorded, recorded, replay_append]
    simp [replay, Span.inBlob_of hheld, Except.toOption]

/-- A scratch with other plain ids records the same. -/
theorem recorded_plain (h : Recorded buffer s) (plain : List Int64) :
    Recorded buffer { s with plain := plain } ∧
      recorded ph buffer { s with plain := plain } = recorded ph buffer s :=
  ⟨⟨h.readable, h.copied⟩, rfl⟩

end Replay

section Groups

variable {ph : Crate} {buffer : Slice} {kinds : KindSet}

/-- The ids of a chosen kind. -/
def chosen (kinds : KindSet) (kind : ElementKind) (ids : List Int64) : List (ElementKind × Int64) :=
  if kinds.has kind then ids.map (kind, ·) else []

lemma chosen_append (kind : ElementKind) (xs ys : List Int64) :
    chosen kinds kind (xs ++ ys) = chosen kinds kind xs ++ chosen kinds kind ys := by
  unfold chosen
  split <;> simp

lemma filter_chosen (kind k : ElementKind) (ids : List Int64) :
    ((chosen kinds kind ids).filter (·.1 = k)).map Prod.snd =
      if kind = k ∧ kinds.has k then ids else [] := by
  unfold chosen
  by_cases hkind : kind = k
  · subst hkind
    split <;> simp [*, filter_eq_self.mpr]
  · split <;> simp [hkind]

@[simp] lemma copy_plain (s : IdScratch) (kind : ElementKind) (id : Int64) :
    (KindIds.copy s kind id).plain = s.plain := by
  unfold KindIds.copy
  split
  · split <;> rfl
  · rfl

/-- The messages of one kind that is copied, or is not chosen. -/
theorem foldl_chosen_spec {α : Type} {s : IdScratch} (h : Recorded buffer s) (kind : ElementKind)
    (id : α → Int64) (xs : List α) :
    Recorded buffer (xs.foldl (fun s x =>
        if kinds.has kind then KindIds.copy s kind (id x) else s) s) ∧
      recorded ph buffer (xs.foldl (fun s x =>
        if kinds.has kind then KindIds.copy s kind (id x) else s) s) =
          recorded ph buffer s ++ chosen kinds kind (xs.map id) ∧
      (xs.foldl (fun s x =>
        if kinds.has kind then KindIds.copy s kind (id x) else s) s).plain = s.plain := by
  unfold chosen
  by_cases hkind : kinds.has kind = true
  · simp only [hkind, if_true]
    have hfold : ∀ s : IdScratch, xs.foldl (fun s x => KindIds.copy s kind (id x)) s =
        (xs.map id).foldl (fun s id => KindIds.copy s kind id) s := by
      intro s
      rw [foldl_map]
    have hplain : ∀ (ids : List Int64) (s : IdScratch),
        (ids.foldl (fun s id => KindIds.copy s kind id) s).plain = s.plain := by
      intro ids
      induction ids with
      | nil => exact fun _ => rfl
      | cons id ids ih =>
        intro s
        rw [foldl_cons, ih, copy_plain]
    obtain ⟨hrest, heq⟩ := @foldl_copy_spec ph buffer s h kind (xs.map id)
    rw [hfold]
    exact ⟨hrest, heq, hplain _ s⟩
  · simp only [hkind, Bool.false_eq_true, if_false, append_nil]
    rw [foldl_fixed]
    exact ⟨h, rfl, rfl⟩

/-- The plain nodes of a group wait. -/
theorem foldl_plain (nodes : List (WireNode × Option WireInfo)) (s : IdScratch) :
    nodes.foldl (fun s n => (KindIds.hooks kinds).node s n.1 n.2) s =
      { s with plain := s.plain ++ if kinds.has .node then nodes.map (·.1.id) else [] } := by
  induction nodes generalizing s with
  | nil => simp
  | cons n nodes ih =>
    rw [foldl_cons, ih]
    by_cases hnode : kinds.has .node = true
    · simp [KindIds.hooks, hnode]
    · simp [KindIds.hooks, hnode]

/-- The dense message of a group, if there is one. -/
theorem dense_chosen_spec {s : IdScratch} (h : Recorded buffer s)
    {ways : List (WayAt × Option WireInfo)} {relations : List (RelationAt × Option WireInfo)}
    {dense : Option (DenseAt × Nat × Option WireDenseInfo)} {walked : List DenseNode}
    (hin : HandedIn ph buffer ways relations dense walked) :
    ∃ s', dense.elim s (fun d => (KindIds.hooks kinds).dense s d.1 d.2.1 d.2.2) = s' ∧
      Recorded buffer s' ∧ recorded ph buffer s' =
        recorded ph buffer s ++ chosen kinds .node (walked.map DenseNode.id) ∧
      s'.plain = s.plain := by
  have hids := hin.dense_ids
  rw [hids]
  unfold chosen
  cases dense with
  | none => exact ⟨s, rfl, h, by simp, rfl⟩
  | some d =>
    by_cases hnode : kinds.has .node = true
    · obtain ⟨hdense, heq⟩ := @dense_spec ph buffer s h d.1.ids (hin.ids d rfl)
      refine ⟨{ s with runs := s.runs ++ [.dense (Span.of d.1.ids)] }, ?_, hdense, ?_, rfl⟩
      · simp [KindIds.hooks, hnode]
      · rw [heq, if_pos hnode]
        rfl
    · refine ⟨s, ?_, h, ?_, rfl⟩
      · simp [KindIds.hooks, hnode]
      · simp [hnode]

/-- What one group adds to the recorded ids. -/
theorem handOver_spec {s : IdScratch} (h : Recorded buffer s)
    {nodes : List (WireNode × Option WireInfo)} {ways : List (WayAt × Option WireInfo)}
    {relations : List (RelationAt × Option WireInfo)}
    {dense : Option (DenseAt × Nat × Option WireDenseInfo)} {walked : List DenseNode}
    (hin : HandedIn ph buffer ways relations dense walked) (k : KindSet) :
    Recorded buffer (handOver (KindIds.hooks kinds) s nodes ways relations dense k) ∧
      recorded ph buffer (handOver (KindIds.hooks kinds) s nodes ways relations dense k) =
        recorded ph buffer s ++ (chosen kinds .way (ways.map (·.1.way.id)) ++
          (chosen kinds .relation (relations.map (·.1.relation.id)) ++
            chosen kinds .node (walked.map DenseNode.id ++ nodes.map (·.1.id)))) := by
  let plain := if kinds.has .node then nodes.map (·.1.id) else []
  have hstart : nodes.foldl (fun s n => (KindIds.hooks kinds).node s n.1 n.2)
      ((KindIds.hooks kinds).groupBegin s) = { s with plain := plain } :=
    foldl_plain nodes { s with plain := [] }
  have h₀ : Recorded buffer { s with plain := plain } := (@recorded_plain ph buffer s h plain).1
  obtain ⟨h₁, heq₁, hplain₁⟩ := @foldl_chosen_spec ph buffer kinds _ _ h₀ .way
    (fun w : WayAt × Option WireInfo => w.1.way.id) ways
  obtain ⟨h₂, heq₂, hplain₂⟩ := @foldl_chosen_spec ph buffer kinds _ _ h₁ .relation
    (fun r : RelationAt × Option WireInfo => r.1.relation.id) relations
  generalize hs₂ : relations.foldl (fun s r => (KindIds.hooks kinds).relation s r.1 r.2)
    (ways.foldl (fun s w => (KindIds.hooks kinds).way s w.1 w.2) { s with plain := plain }) = s₂
  change relations.foldl _ (ways.foldl _ _) = s₂ at hs₂
  obtain ⟨s₃, hs₃, h₃, heq₃, hplain₃⟩ := @dense_chosen_spec ph buffer kinds s₂ (hs₂ ▸ h₂) ways
    relations dense walked hin
  obtain ⟨h₄, heq₄⟩ := @foldl_copy_spec ph buffer s₃ h₃ .node s₃.plain
  have hover : handOver (KindIds.hooks kinds) s nodes ways relations dense k =
      s₃.plain.foldl (fun s id => KindIds.copy s .node id) s₃ := by
    rw [handOver, hstart, hs₂, hs₃]
    rfl
  have hplain : s₃.plain = plain := by
    rw [hplain₃, ← hs₂]
    exact hplain₂.trans hplain₁
  have hwaiting : plain.map (ElementKind.node, ·) = chosen kinds .node (nodes.map (·.1.id)) := by
    unfold chosen
    by_cases hnode : kinds.has .node = true <;> simp [plain, hnode]
  rw [hover]
  refine ⟨h₄, ?_⟩
  have hs₂eq : recorded ph buffer s₂ = recorded ph buffer s ++
      chosen kinds .way (ways.map (·.1.way.id)) ++
        chosen kinds .relation (relations.map (·.1.relation.id)) := by
    rw [← hs₂]
    exact heq₂.trans (congrArg (· ++ _) heq₁)
  rw [heq₄, heq₃, hs₂eq, hplain, hwaiting, chosen_append]
  simp only [append_assoc]

lemma filterMap_none {α β : Type} {g : Element → Option β} {f : α → Element} {xs : List α}
    (h : ∀ x, g (f x) = none) : (xs.map f).filterMap g = [] := by
  rw [filterMap_map]
  exact filterMap_eq_nil_iff.mpr fun x _ => h x

lemma filterMap_each {α β : Type} {g : Element → Option β} {f : α → Element} {xs : List α}
    (v : α → β) (h : ∀ x, g (f x) = some (v x)) : (xs.map f).filterMap g = xs.map v := by
  rw [filterMap_map, ← filterMap_eq_map]
  exact filterMap_congr fun x _ => h x

/-- What the walk of a group yields of one kind. -/
theorem walkedIds_groupList (fields : BlockFields) (dense : List DenseNode)
    (nodes : List WireNode) (ways : List WireWay) (relations : List WireRelation)
    (kind : ElementKind) :
    walkedIds kind (groupList fields dense nodes ways relations) =
      match kind with
      | .node => dense.map DenseNode.id ++ nodes.map WireNode.id
      | .way => ways.map WireWay.id
      | .relation => relations.map WireRelation.id := by
  rw [walkedIds, groupList, filterMap_append, filterMap_append, filterMap_append]
  cases kind with
  | node =>
    rw [filterMap_each DenseNode.id fun _ => rfl, filterMap_each WireNode.id fun _ => rfl,
      filterMap_none fun _ => rfl, filterMap_none fun _ => rfl, append_nil, append_nil]
  | way =>
    rw [filterMap_none fun _ => rfl, filterMap_none fun _ => rfl,
      filterMap_each WireWay.id fun _ => rfl, filterMap_none fun _ => rfl, nil_append,
      nil_append, append_nil]
  | relation =>
    rw [filterMap_none fun _ => rfl, filterMap_none fun _ => rfl, filterMap_none fun _ => rfl,
      filterMap_each WireRelation.id fun _ => rfl, nil_append, nil_append,
      nil_append]

/-- The recorded ids beside the elements walked. -/
structure IdsOf (ph : Crate) (buffer : Slice) (kinds : KindSet) (es : List Element)
    (s : IdScratch) : Prop where
  reads : Recorded buffer s
  ids : ∀ kind, ((recorded ph buffer s).filter (·.1 = kind)).map Prod.snd =
    if kinds.has kind then walkedIds kind es else []

lemma IdsOf.group {s : IdScratch} (h : IdsOf ph buffer kinds es s)
    {nodes : List (WireNode × Option WireInfo)} {ways : List (WayAt × Option WireInfo)}
    {relations : List (RelationAt × Option WireInfo)}
    {dense : Option (DenseAt × Nat × Option WireDenseInfo)} {walked : List DenseNode}
    (hin : HandedIn ph buffer ways relations dense walked) (k : KindSet) :
    IdsOf ph buffer kinds (es ++ groupList fields walked (nodes.map Prod.fst)
      (ways.map (·.1.way)) (relations.map (·.1.relation)))
      (handOver (KindIds.hooks kinds) s nodes ways relations dense k) := by
  obtain ⟨hrecorded, heq⟩ := @handOver_spec ph buffer kinds s h.reads nodes ways relations dense
    walked hin k
  refine ⟨hrecorded, fun kind => ?_⟩
  rw [heq]
  simp only [filter_append, map_append, filter_chosen, h.ids, walkedIds, filterMap_append]
  have hgroup := walkedIds_groupList fields walked (nodes.map Prod.fst) (ways.map (·.1.way))
    (relations.map (·.1.relation)) kind
  rw [walkedIds] at hgroup
  rw [hgroup]
  by_cases hhas : kinds.has kind = true
  · cases kind <;> simp [hhas]
  · cases kind <;> simp [hhas]

end Groups

section Spans

variable {ph : Crate} {buffer : Slice}

/-- The ways a projection is restricted to. -/
def inOnly (only : Option IdSets.IdSet) (id : Int64) : Bool := only.all fun only => only.get id

/-- The recorded ways read back, beside the elements walked. -/
def WaysOf (ph : Crate) (buffer : Slice) (only : Option IdSets.IdSet) (es : List Element)
    (ways : List WaySpan) : Prop :=
  ways.map (fun w => (w.readRefs ph buffer).map (w.id, ·)) =
    ((walkedWays ph es).filter fun w => inOnly only w.1).map .ok

variable {ways : List (WayAt × Option WireInfo)} {nodes : List (WireNode × Option WireInfo)}
  {relations : List (RelationAt × Option WireInfo)}
  {dense : Option (DenseAt × Nat × Option WireDenseInfo)}

lemma foldl_waySpans {only : Option IdSets.IdSet} (hheld : ∀ w ∈ ways, buffer.Held w.1.refs)
    (spans : List WaySpan) :
    (ways.foldl (fun s w => (waySpans only).way s w.1 w.2) spans).map
        (fun w => (w.readRefs ph buffer).map (w.id, ·)) =
      spans.map (fun w => (w.readRefs ph buffer).map (w.id, ·)) ++
        ((ways.map fun w => (w.1.way.id, deltaDecoded ph w.1.refs.bytes)).filter
          fun w => inOnly only w.1).map .ok := by
  induction ways generalizing spans with
  | nil => simp
  | cons w ways ih =>
    rw [forall_mem_cons] at hheld
    have hread : WaySpan.readRefs ph ⟨w.1.way.id, Span.of w.1.refs⟩ buffer =
        .ok (deltaDecoded ph w.1.refs.bytes) := by
      rw [WaySpan.readRefs, Span.inBlob_of hheld.1]
      rfl
    rw [foldl_cons, ih hheld.2, map_cons, filter_cons]
    by_cases hin : inOnly only w.1.way.id = true
    · have hway : (waySpans only).way spans w.1 w.2 =
          spans ++ [⟨w.1.way.id, Span.of w.1.refs⟩] := if_pos hin
      rw [hway, if_pos hin, map_append, map_singleton, hread, append_assoc]
      rfl
    · have hway : (waySpans only).way spans w.1 w.2 = spans := if_neg hin
      rw [hway, if_neg hin]

lemma walkedWays_groupList (fields : BlockFields) (dense : List DenseNode)
    (nodes : List WireNode) (ways : List WireWay) (relations : List WireRelation) :
    walkedWays ph (groupList fields dense nodes ways relations) =
      ways.map fun w => (w.id, deltaDecoded ph w.refsData) := by
  rw [walkedWays, groupList, filterMap_append, filterMap_append, filterMap_append,
    filterMap_none fun _ => rfl, filterMap_none fun _ => rfl,
    filterMap_each (fun w : WireWay => (w.id, deltaDecoded ph w.refsData)) fun _ => rfl,
    filterMap_none fun _ => rfl, nil_append, nil_append, append_nil]

lemma WaysOf.group {only : Option IdSets.IdSet} {spans : List WaySpan}
    (h : WaysOf ph buffer only es spans) {walked : List DenseNode}
    (hin : HandedIn ph buffer ways relations dense walked) (k : KindSet) :
    WaysOf ph buffer only (es ++ groupList fields walked (nodes.map Prod.fst)
      (ways.map (·.1.way)) (relations.map (·.1.relation)))
      (handOver (waySpans only) spans nodes ways relations dense k) := by
  have hover : handOver (waySpans only) spans nodes ways relations dense k =
      ways.foldl (fun s w => (waySpans only).way s w.1 w.2) spans := by
    have hdense : ∀ s : List WaySpan,
        (dense.elim s fun d => (waySpans only).dense s d.1 d.2.1 d.2.2) = s := by
      intro s
      cases dense <;> rfl
    rw [handOver, hdense]
    simp [waySpans, List.foldl_fixed]
  have hwalked := @walkedWays_groupList ph fields walked (nodes.map Prod.fst)
    (ways.map (·.1.way)) (relations.map (·.1.relation))
  have hsplit : ∀ xs ys, walkedWays ph (xs ++ ys) = walkedWays ph xs ++ walkedWays ph ys :=
    fun _ _ => List.filterMap_append
  unfold WaysOf at h ⊢
  rw [hover, foldl_waySpans hin.refs, h, hsplit, hwalked, List.filter_append, List.map_append,
    List.map_map]
  rfl

/-- The recorded relations read back, beside the elements walked. -/
def RelationsOf (ph : Crate) (buffer : Slice) (es : List Element)
    (relations : List RelationSpan) : Prop :=
  (∀ r, Element.relation r ∈ es → MembersWhole ph r.relation) →
    relations.map (fun r => (r.readMembers ph buffer).map (r.id, ·)) =
      (walkedRelations ph es).map .ok

lemma memberIdsFrom_of_members {roles types : List Int32} {ids : List Int64}
    {ms : List (Int32 × MemberId)} (h : membersFrom roles ids types = .ok ms) :
    memberIdsFrom ids types = .ok (ms.map Prod.snd) := by
  induction roles generalizing ids types ms with
  | nil =>
    cases ids with
    | nil =>
      cases types with
      | nil =>
        cases h
        rfl
      | cons _ _ => cases h
    | cons _ _ => cases h
  | cons role roles ih =>
    cases ids with
    | nil => cases h
    | cons id ids =>
      cases types with
      | nil => cases h
      | cons type types =>
        obtain ⟨rest, hrest, rfl⟩ := map_eq_ok.mp h
        rw [memberIdsFrom, ih hrest]
        rfl

/-- The members of a recorded relation are those its element yields. -/
theorem readMembers_eq {r : RelationAt} (hmemids : buffer.Held r.memids)
    (htypes : buffer.Held r.types) (hwhole : MembersWhole ph r.relation) :
    RelationSpan.readMembers ph ⟨r.relation.id, Span.of r.memids, Span.of r.types⟩ buffer =
      .ok ((members ph r.relation).map fun ms => ms.map Prod.snd) := by
  obtain ⟨_, _, _, -, -, -, ms, hms, -⟩ := hwhole
  rw [RelationSpan.readMembers]
  simp only [Span.inBlob_of hmemids, Span.inBlob_of htypes, ok_bind, hms]
  exact congrArg Except.ok (memberIdsFrom_of_members hms)

lemma foldl_relationSpans
    (hheld : ∀ r ∈ relations, buffer.Held r.1.memids ∧ buffer.Held r.1.types)
    (hwhole : ∀ r ∈ relations, MembersWhole ph r.1.relation) (spans : List RelationSpan) :
    (relations.foldl (fun s r => relationSpans.relation s r.1 r.2) spans).map
        (fun r => (r.readMembers ph buffer).map (r.id, ·)) =
      spans.map (fun r => (r.readMembers ph buffer).map (r.id, ·)) ++
        (relations.map fun r => (r.1.relation.id,
          (members ph r.1.relation).map fun ms => ms.map Prod.snd)).map .ok := by
  induction relations generalizing spans with
  | nil => simp
  | cons r relations ih =>
    rw [forall_mem_cons] at hheld hwhole
    have hread := readMembers_eq hheld.1.1 hheld.1.2 hwhole.1
    rw [foldl_cons, ih hheld.2 hwhole.2]
    simp only [relationSpans, map_append, map_cons, map_nil, hread, append_assoc]
    rfl

lemma walkedRelations_groupList (fields : BlockFields) (dense : List DenseNode)
    (nodes : List WireNode) (ways : List WireWay) (relations : List WireRelation) :
    walkedRelations ph (groupList fields dense nodes ways relations) =
      relations.map fun r => (r.id, (members ph r).map fun ms => ms.map Prod.snd) := by
  rw [walkedRelations, groupList, filterMap_append, filterMap_append,
    filterMap_append, filterMap_none fun _ => rfl, filterMap_none fun _ => rfl,
    filterMap_none fun _ => rfl,
    filterMap_each (fun r : WireRelation =>
      (r.id, (members ph r).map fun ms => ms.map Prod.snd)) fun _ => rfl, nil_append,
    nil_append, nil_append]

lemma RelationsOf.group {spans : List RelationSpan} (h : RelationsOf ph buffer es spans)
    {walked : List DenseNode} (hin : HandedIn ph buffer ways relations dense walked) (k : KindSet) :
    RelationsOf ph buffer (es ++ groupList fields walked (nodes.map Prod.fst)
      (ways.map (·.1.way)) (relations.map (·.1.relation)))
      (handOver relationSpans spans nodes ways relations dense k) := by
  intro hwhole
  have hover : handOver relationSpans spans nodes ways relations dense k =
      relations.foldl (fun s r => relationSpans.relation s r.1 r.2) spans := by
    have hdense : ∀ s : List RelationSpan,
        (dense.elim s fun d => relationSpans.dense s d.1 d.2.1 d.2.2) = s := by
      intro s
      cases dense <;> rfl
    rw [handOver, hdense]
    simp [relationSpans, foldl_fixed]
  have hseen := h fun r hr => hwhole r (mem_append_left _ hr)
  have hgroup : ∀ r ∈ relations, MembersWhole ph r.1.relation := by
    intro r hr
    refine hwhole ⟨r.1.relation⟩ (mem_append_right _ ?_)
    exact mem_append_right _ (mem_map.mpr ⟨_, mem_map_of_mem hr, rfl⟩)
  have hwalked := @walkedRelations_groupList ph fields walked (nodes.map Prod.fst)
    (ways.map (·.1.way)) (relations.map (·.1.relation))
  have hsplit : ∀ xs ys, walkedRelations ph (xs ++ ys) =
      walkedRelations ph xs ++ walkedRelations ph ys := fun _ _ => filterMap_append
  have hmap : (relations.map (·.1.relation)).map (fun r : WireRelation =>
      (r.id, (members ph r).map fun ms => ms.map Prod.snd)) = relations.map fun r =>
        (r.1.relation.id, (members ph r.1.relation).map fun ms => ms.map Prod.snd) := by
    rw [List.map_map]
    rfl
  rw [hover, foldl_relationSpans hin.members hgroup, hseen, hsplit, hwalked, hmap, map_append]

end Spans

section Block

variable {ph : Crate}

lemma project_verdict {σ : Type} (P : GroupProjection σ)
    (make : BlockFields → List Position → σ) (claim : Option ElementKind) (buffer : Slice) :
    (project ph P make claim buffer).map (fun _ => ()) = (do
      let block ← (fromVec ph buffer.bytes).mapError ProjectError.malformed
      refuseUnder block.kinds claim) := by
  have hverdict := @validateBlock_verdict ph σ P make buffer
  rw [project]
  cases hrun : validateBlock ph P make buffer with
  | error e =>
    rw [hrun] at hverdict
    cases hvec : fromVec ph buffer.bytes with
    | error e' =>
      rw [hvec] at hverdict
      cases hverdict
      rfl
    | ok block =>
      rw [hvec] at hverdict
      cases hverdict
  | ok out =>
    rw [hrun] at hverdict
    cases hvec : fromVec ph buffer.bytes with
    | error e' =>
      rw [hvec] at hverdict
      cases hverdict
    | ok block =>
      rw [hvec] at hverdict
      have hkinds : out.2.kinds = block.kinds :=
        congrArg Prod.fst (Except.ok.inj hverdict)
      simp only [Except.mapError, ok_bind, hkinds]
      cases refuseUnder block.kinds claim <;> rfl

lemma validated_of_project {σ : Type} {P : GroupProjection σ}
    {make : BlockFields → List Position → σ} {claim : Option ElementKind} {buffer : Slice}
    {out : σ × BlockVerdict} (h : project ph P make claim buffer = .ok out) :
    validateBlock ph P make buffer = .ok out := by
  obtain ⟨out', hrun, h⟩ := bind_eq_ok.mp h
  obtain ⟨_, -, h⟩ := bind_eq_ok.mp h
  cases h
  exact mapError_eq_ok.mp hrun

/-- Every projection refuses what construction refuses, and what `KindIds`, `WaySpans` and
`RelationSpans` record of an accepted block reads back as the walk of its elements. -/
theorem projections_agree_with_walk (ph : Crate) (buffer : Slice) :
    (∀ (σ : Type) (P : GroupProjection σ) (make : BlockFields → List Position → σ)
      (claim : Option ElementKind), (project ph P make claim buffer).map (fun _ => ()) = (do
        let block ← (fromVec ph buffer.bytes).mapError ProjectError.malformed
        refuseUnder block.kinds claim)) ∧
    ∀ block, fromVec ph buffer.bytes = .ok block → Fits buffer.bytes block →
      ∃ es, elements ph block = .ok es ∧
        (∀ kinds scratch claim out,
          project ph (KindIds.hooks kinds) (fun _ _ => KindIds.new scratch) claim buffer = .ok out →
          ∃ ids : List (ElementKind × Int64),
            (∀ (ε τ : Type) (internal : Internal → ε) (f : τ → ElementKind → Int64 → Except ε τ)
              (t : τ), out.1.each ph internal buffer f t =
                ids.foldlM (fun t p => f t p.1 p.2) t) ∧
            ∀ kind, (ids.filter (·.1 = kind)).map Prod.snd =
              if kinds.has kind then walkedIds kind es else []) ∧
        (∀ only ways claim out,
          project ph (waySpans only) (fun _ _ => WaySpans.new ways) claim buffer = .ok out →
          out.1.map (fun w => (w.readRefs ph buffer).map (w.id, ·)) =
            ((walkedWays ph es).filter fun w => inOnly only w.1).map .ok) ∧
        (∀ relations claim out,
          project ph relationSpans (fun _ _ => RelationSpans.new relations) claim buffer =
            .ok out →
          out.1.map (fun r => (r.readMembers ph buffer).map (r.id, ·)) =
            (walkedRelations ph es).map .ok) ∧
        ∀ r ∈ walkedRelations ph es, ∃ ms, r.2 = .ok ms := by
  refine ⟨fun σ P make claim => project_verdict P make claim buffer, ?_⟩
  intro block hblock hfits
  obtain ⟨table, groups, es, hwhole⟩ := walks_whole hblock hfits
  have hmembers : ∀ r, Element.relation r ∈ es → MembersWhole ph r.relation :=
    fun r hr => (hwhole.element _ hr).2.2
  refine ⟨es, hwhole.walked, ?_, ?_, ?_, ?_⟩
  · intro kinds scratch claim out hrun
    have hids : IdsOf ph buffer kinds es out.1 :=
      validateBlock_walk hblock hfits hwhole.walked (validated_of_project hrun)
        (fun _ _ => ⟨recorded_nil [], fun kind => by
          simp [recorded, KindIds.new, replay, walkedIds]⟩)
        fun _ _ _ _ _ _ _ _ k hrel hin => hrel.group hin k
    exact ⟨recorded ph buffer out.1, fun ε τ internal f t => each_eq hids.reads f t, hids.ids⟩
  · intro only ways claim out hrun
    have hways : WaysOf ph buffer only es out.1 :=
      validateBlock_walk hblock hfits hwhole.walked (validated_of_project hrun)
        (fun _ _ => rfl) fun _ _ _ _ _ _ _ _ k hrel hin => hrel.group hin k
    exact hways
  · intro relations claim out hrun
    have hrelations : RelationsOf ph buffer es out.1 :=
      validateBlock_walk hblock hfits hwhole.walked (validated_of_project hrun)
        (fun _ _ _ => rfl) fun _ _ _ _ _ _ _ _ k hrel hin => hrel.group hin k
    exact hrelations hmembers
  · intro r hr
    obtain ⟨e, he, hsome⟩ := mem_filterMap.mp hr
    cases e with
    | relation rel =>
      cases hsome
      obtain ⟨_, _, _, -, -, -, ms, hms, -⟩ := hmembers rel he
      exact ⟨ms.map Prod.snd, by rw [hms]; rfl⟩
    | _ => cases hsome

/-- A group whose plain node, dense nodes, way and relation stand in an odd order. -/
def mixedBlock : Bytes :=
  lenField 1 (lenField 1 []) ++
    lenField 2 (lenField 4 (varintField 1 9 ++ packedField 8 [0] ++ packedField 9 [6] ++
        packedField 10 [1]) ++ lenField 1 (varintField 1 2) ++
      lenField 3 (varintField 1 7 ++ packedField 8 [10, 2]) ++
      lenField 2 (packedField 1 [10, 2] ++ packedField 8 [0, 0] ++ packedField 9 [0, 0]))

theorem projections_agree_with_walk_mixed :
    ∃ block, fromVec Reference.crate mixedBlock = .ok block ∧ ∃ es,
      elements Reference.crate block = .ok es ∧ walkedIds .node es = [5, 6, 1] ∧
      ∀ out, project Reference.crate (KindIds.hooks ⟨true, true, true⟩)
        (fun _ _ => KindIds.new {}) none ⟨4096, mixedBlock⟩ = .ok out →
        ∃ ids : List (ElementKind × Int64), (∀ (f : Unit → ElementKind → Int64 → Except Internal Unit)
          (t : Unit), out.1.each Reference.crate id ⟨4096, mixedBlock⟩ f t =
            ids.foldlM (fun t p => f t p.1 p.2) t) ∧
          (ids.filter (·.1 = .node)).map Prod.snd = [5, 6, 1] := by
  have haccepted : ∃ block, fromVec Reference.crate mixedBlock = .ok block ∧
      Fits mixedBlock block ∧
      ∀ es, elements Reference.crate block = .ok es → walkedIds .node es = [5, 6, 1] := by
    refine ⟨_, rfl, by unfold Fits; decide, ?_⟩
    rintro es ⟨⟩
    rfl
  obtain ⟨block, hblock, hfits, hwalked⟩ := haccepted
  obtain ⟨es, hes, hids, -⟩ :=
    (projections_agree_with_walk Reference.crate ⟨4096, mixedBlock⟩).2 block hblock hfits
  refine ⟨block, hblock, es, hes, hwalked es hes, ?_⟩
  intro out hrun
  obtain ⟨ids, heach, hkind⟩ := hids ⟨true, true, true⟩ {} none out hrun
  exact ⟨ids, heach Internal Unit id, (hkind .node).trans (hwalked es hes)⟩

/-- Behind 4 GiB the walk finds no group where the projection was handed a node. -/
theorem projections_leave_walk :
    ∃ block out, fromVec Reference.crate (paddedBlock (replicate (2 ^ 32) 0)) = .ok block ∧
      elements Reference.crate block = .ok [] ∧
      project Reference.crate (KindIds.hooks ⟨true, false, false⟩) (fun _ _ => KindIds.new {}) none
        ⟨0, paddedBlock (replicate (2 ^ 32) 0)⟩ = .ok out ∧
      out.1.each Reference.crate id ⟨0, paddedBlock (replicate (2 ^ 32) 0)⟩
        (fun ids kind id => .ok (ids ++ [(kind, id)])) [] = .ok [(.node, 1)] := by
  have hlen : (replicate (2 ^ 32) (0 : UInt8)).length < 2 ^ 64 := by
    rw [length_replicate]
    decide
  have helements : elements Reference.crate
      ⟨inlineTables (paddedBlock (replicate (2 ^ 32) 0)) [] [position 2 4] {},
        ⟨true, false, false⟩, 1⟩ = .ok [] := by
    rw [elements, groups_zeros]
    rfl
  refine ⟨_, (⟨[.copied .node 1], [1], [1]⟩, ⟨{}, ⟨true, false, false⟩, 1⟩), fromVec_padded hlen,
    helements, ?_, rfl⟩
  have hslice : sliceOf ⟨0, paddedBlock (replicate (2 ^ 32) 0)⟩ (position 2 4) =
      ⟨2, nodeGroup⟩ := by
    have hfront : 2 + 4 ≤ (lenField 2 nodeGroup).length := by decide
    have hbytes := sliceAt_inside hfront (lenField 15 (replicate (2 ^ 32) (0 : UInt8)))
    exact congrArg (Slice.mk 2) hbytes
  rw [project, validateBlock, scanBlockFields_padded hlen]
  simp only [ok_bind, map_cons, map_nil, hslice]
  rfl

end Block

end ProjectIds
