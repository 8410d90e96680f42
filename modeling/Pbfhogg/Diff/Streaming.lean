import Pbfhogg.Read.WholeWalk

/-!
# Streaming merge input

`StreamingBlocks` of `osc/merge_join.rs`, the element-level merge over two of them and the phases
both callers run. A block is decoded whatever is asked for, and one of a later kind is put back.
Decompression, the sink and the equality of two elements are parameters.
-/

namespace Streaming

open OsmId Protohoggr BlockValid Elements NodeScan WholeWalk List Option

/-- What `decompress_into` leaves in its buffer, 32 MiB at most. -/
abbrev Payload := { bytes : Bytes // bytes.length ≤ 32 * 1024 * 1024 }

inductive StreamError where
  | unread (message : String)
  | parse (e : Error)
  | unsorted (message : String)
  | sink (message : String)

/-- A frame of the file. -/
inductive Blob where
  | osmData (payload : Except StreamError Payload)
  | other
  | unread (e : StreamError)

/-- A block that was constructed, with its groups and its elements. -/
structure DecodedBlock (ph : Crate) where
  block : PrimitiveBlock
  groups : List Bytes
  elements : List Element
  listed : block.block.groups = .ok groups
  walked : Elements.elements ph block = .ok elements
  kinds : ∀ kind, block.kinds.has kind = true ↔ ∃ e ∈ elements, elementKind e = kind

inductive BlockType where
  | denseNodes
  | nodes
  | ways
  | relations
  | mixed
  | empty
  deriving DecidableEq

def classifyGroup : Bytes → BlockType
  | [] => .empty
  | tag :: _ =>
    if tag &&& 7 ≠ 2 then .mixed
    else if tag >>> 3 = 1 then .nodes
    else if tag >>> 3 = 2 then .denseNodes
    else if tag >>> 3 = 3 then .ways
    else if tag >>> 3 = 4 then .relations
    else .mixed

/-- `block_type` over the groups still to see. -/
def blockTypeFrom (result : Option BlockType) : List Bytes → BlockType
  | [] => result.getD .empty
  | group :: groups =>
    let groupType := classifyGroup group
    if groupType = .empty then blockTypeFrom result groups
    else
      match result with
      | none => blockTypeFrom (some groupType) groups
      | some prev => if prev = groupType then blockTypeFrom result groups else .mixed

def blockTypeKind : BlockType → Option ElementKind
  | .denseNodes => some .node
  | .nodes => some .node
  | .ways => some .way
  | .relations => some .relation
  | .mixed => none
  | .empty => none

inductive BlockKinds where
  | empty
  | one (kind : ElementKind)
  | several

def elementId : Element → Int64
  | .node n => n.node.id
  | .denseNode n => n.id
  | .way w => w.way.id
  | .relation r => r.relation.id

variable {ph : Crate}

namespace DecodedBlock

def blockType (b : DecodedBlock ph) : BlockType := blockTypeFrom none b.groups

def elementKinds (b : DecodedBlock ph) : BlockKinds :=
  match b.block.kinds.node, b.block.kinds.way, b.block.kinds.relation with
  | false, false, false => .empty
  | true, false, false => .one .node
  | false, true, false => .one .way
  | false, false, true => .one .relation
  | _, _, _ => .several

end DecodedBlock

lemma payload_whole {payload : Payload} {block : PrimitiveBlock}
    (h : fromVec ph payload.1 = .ok block) :
    ∃ table groups es, WalksWhole ph block table groups es := by
  exact walks_whole h (fits_of_small h (by omega))

variable (ph) in
/-- `from_vec`, with the walk over what it made, which gets through. -/
def decodeBlob (payload : Payload) : Except StreamError (DecodedBlock ph) :=
  match h : fromVec ph payload.1 with
  | .error e => .error (.parse e)
  | .ok block =>
    match hg : block.block.groups, he : Elements.elements ph block with
    | .ok groups, .ok es => .ok ⟨block, groups, es, hg, he, by
        obtain ⟨table, groups', es', hwhole⟩ := payload_whole h
        have hwalked := hwhole.walked
        rw [he, Except.ok.injEq] at hwalked
        rw [hwalked]
        exact hwhole.kinds⟩
    | .error p, _ => False.elim (by
        obtain ⟨table, groups', es', hwhole⟩ := payload_whole h
        have hlisted := hwhole.listed
        rw [hg] at hlisted
        cases hlisted)
    | _, .error p => False.elim (by
        obtain ⟨table, groups', es', hwhole⟩ := payload_whole h
        have hwalked := hwhole.walked
        rw [he] at hwalked
        cases hwalked)

structure StreamingBlocks (ph : Crate) where
  reader : List Blob
  stashed : Option (DecodedBlock ph)
  lastElement : Option (Nat × OsmIdKey)

def newSequential (reader : List Blob) : StreamingBlocks ph := ⟨reader, none, none⟩

namespace StreamingBlocks

def readBlock (s : StreamingBlocks ph) :
    List Blob → Except StreamError (Option (DecodedBlock ph) × StreamingBlocks ph)
  | [] => .ok (none, { s with reader := [] })
  | .unread e :: _ => .error e
  | .other :: rest => readBlock s rest
  | .osmData payload :: rest => do
    let bytes ← payload
    let block ← decodeBlob ph bytes
    return (some block, { s with reader := rest })

def nextBlock (s : StreamingBlocks ph) :
    Except StreamError (Option (DecodedBlock ph) × StreamingBlocks ph) :=
  match s.stashed with
  | some b => .ok (some b, { s with stashed := none })
  | none => s.readBlock s.reader

/-- What a frame can bring: a block and its elements. -/
def costOf (ph : Crate) : Blob → Nat
  | .osmData (.ok payload) =>
    match decodeBlob ph payload with
    | .ok b => b.elements.length + 1
    | .error _ => 0
  | _ => 0

/-- The blocks and elements still to come. -/
def left (s : StreamingBlocks ph) : Nat :=
  (s.reader.map (costOf ph)).sum + s.stashed.elim 0 fun b => b.elements.length + 1

variable {s' : StreamingBlocks ph} {blobs : List Blob} {out : Option (DecodedBlock ph)}
  {taken : List (DecodedBlock ph)} {es : List Element}

variable {s : StreamingBlocks ph}

lemma readBlock_left (h : s.readBlock blobs = .ok (out, s')) :
    s'.stashed = s.stashed ∧ s'.lastElement = s.lastElement ∧
      (s'.reader.map (costOf ph)).sum + out.elim 0 (fun b => b.elements.length + 1) ≤
        (blobs.map (costOf ph)).sum := by
  induction blobs with
  | nil =>
    cases h
    exact ⟨rfl, rfl, Nat.le_refl _⟩
  | cons blob rest ih =>
    rw [map_cons, sum_cons]
    cases blob with
    | unread e => cases h
    | other =>
      obtain ⟨hstash, hlast, hle⟩ := ih h
      exact ⟨hstash, hlast, by omega⟩
    | osmData payload =>
      obtain ⟨bytes, hbytes, h⟩ := Fallible.bind_eq_ok.mp h
      obtain ⟨block, hblock, h⟩ := Fallible.bind_eq_ok.mp h
      cases h
      have hcost : costOf ph (.osmData payload) = block.elements.length + 1 := by
        simp only [costOf, hbytes, hblock]
      refine ⟨rfl, rfl, ?_⟩
      rw [hcost, elim_some, Nat.add_comm]

lemma nextBlock_left (h : s.nextBlock = .ok (out, s')) :
    s'.stashed = none ∧ s'.left + out.elim 0 (fun b => b.elements.length + 1) ≤ s.left := by
  unfold nextBlock at h
  split at h
  · next hstash =>
    cases h
    simp [left, hstash]
  · next hstash =>
    obtain ⟨hstash', -, hle⟩ := readBlock_left h
    rw [hstash] at hstash'
    refine ⟨hstash', ?_⟩
    simpa only [left, hstash, hstash', elim_none, Nat.add_zero] using hle

lemma nextBlock_lt {b : DecodedBlock ph} (h : s.nextBlock = .ok (some b, s')) :
    s'.left < s.left := by
  have hle := (nextBlock_left h).2
  rw [elim_some] at hle
  omega

end StreamingBlocks

def mixedBlock : StreamError :=
  .unsorted ("streaming merge-join: input contains a mixed-type block, so elements " ++
    "of a later type would be consumed and discarded by an earlier phase. " ++
    "This merge requires Sort.Type_then_ID input with one element type per block.")

def unsortedBlock (found phase : ElementKind) : StreamError :=
  .unsorted ("streaming merge-join: found a " ++ found.asStr ++ " block during the " ++
    phase.asStr ++ " phase. The input's header claims Sort.Type_then_ID but its blobs are not in " ++
    "canonical order (nodes, then ways, then relations).")

namespace StreamingBlocks

def skipKind (kind : ElementKind) (s : StreamingBlocks ph) :
    Except StreamError (StreamingBlocks ph) :=
  match h : s.nextBlock with
  | .error e => .error e
  | .ok (none, s') => .ok s'
  | .ok (some b, s') =>
    have := nextBlock_lt h
    match b.elementKinds with
    | .empty => skipKind kind s'
    | .one k =>
      if k = kind then skipKind kind s'
      else if kind.ordinal < k.ordinal then .ok { s' with stashed := some b }
      else .error (unsortedBlock k kind)
    | .several => .error mixedBlock
termination_by s.left

def nextPhaseBlock (kind : ElementKind) (s : StreamingBlocks ph) :
    Except StreamError (Option (DecodedBlock ph) × StreamingBlocks ph) :=
  match h : s.nextBlock with
  | .error e => .error e
  | .ok (none, s') => .ok (none, s')
  | .ok (some b, s') =>
    have := nextBlock_lt h
    if blockTypeKind b.blockType = some kind then .ok (some b, s')
    else
      match b.elementKinds with
      | .empty => nextPhaseBlock kind s'
      | .one k =>
        if k = kind then .ok (some b, s')
        else if kind.ordinal < k.ordinal then .ok (none, { s' with stashed := some b })
        else .error (unsortedBlock k kind)
      | .several => .error mixedBlock
termination_by s.left

def admits (s : StreamingBlocks ph) (e : Element) (kind : ElementKind) :
    Except StreamError (StreamingBlocks ph) :=
  if elementKind e ≠ kind then .error mixedBlock
  else
    let key := osmIdKey (elementId e)
    let admitted : StreamingBlocks ph := { s with lastElement := some (kind.ordinal, key) }
    match s.lastElement with
    | some (lastKind, lastKey) =>
      if lastKind = kind.ordinal ∧ key < lastKey then
        .error (.unsorted ("streaming merge-join: " ++ kind.asStr ++ " " ++
          toString (elementId e).toInt ++ " follows " ++ kind.asStr ++ " " ++
          toString (osmIdFromKey lastKey).toInt ++ ". The input's header claims " ++
          "Sort.Type_then_ID but its elements are not in canonical order."))
      else .ok admitted
    | none => .ok admitted

lemma left_stash {s : StreamingBlocks ph} (h : s.stashed = none) (b : DecodedBlock ph) :
    ({ s with stashed := some b } : StreamingBlocks ph).left = s.left + (b.elements.length + 1) := by
  simp [left, h]

lemma nextPhaseBlock_left {kind : ElementKind} {s : StreamingBlocks ph}
    (h : s.nextPhaseBlock kind = .ok (out, s')) :
    s'.left + out.elim 0 (fun b => b.elements.length + 1) ≤ s.left := by
  fun_induction nextPhaseBlock kind s with
  | case1 => cases h
  | case2 _ _ hnext | case3 _ _ _ hnext | case5 _ _ _ hnext =>
    cases h
    exact (nextBlock_left hnext).2
  | case4 s s₁ b hnext hlt htype hkinds ih => exact Nat.le_trans (ih h) (Nat.le_of_lt hlt)
  | case6 s s₁ b hnext hlt htype k hk hkinds hlater =>
    cases h
    obtain ⟨hstash, hle⟩ := nextBlock_left hnext
    rw [left_stash hstash]
    exact hle
  | case7 => cases h
  | case8 => cases h

end StreamingBlocks

/-- One side of a phase: what is left of its block, its head, whether its phase is over. -/
structure Side (ph : Crate) where
  src : StreamingBlocks ph
  iter : List Element
  head : Option Element
  ended : Bool

namespace Side

/-- `pull_head`. A finished iterator and none are the same. -/
def pullHead (kind : ElementKind) (side : Side ph) : Except StreamError (Side ph) :=
  match side.iter with
  | e :: rest =>
    match side.src.admits e kind with
    | .error err => .error err
    | .ok src => .ok { side with src := src, iter := rest, head := some e }
  | [] =>
    match h : side.src.nextPhaseBlock kind with
    | .error err => .error err
    | .ok (none, src) => .ok ⟨src, [], none, true⟩
    | .ok (some b, src) =>
      have := StreamingBlocks.nextPhaseBlock_left h
      pullHead kind { side with src := src, iter := b.elements }
termination_by side.src.left
decreasing_by
  simp only [elim_some] at this ⊢
  omega

/-- A head is pulled where there is none and the phase is not over. -/
def refill (kind : ElementKind) (side : Side ph) : Except StreamError (Side ph) :=
  if side.head.isNone ∧ side.ended = false then side.pullHead kind else .ok side

/-- The blocks and elements a side can still bring. -/
def left (side : Side ph) : Nat := side.src.left + side.iter.length + side.head.toList.length

end Side

/-- The heads that are taken in one turn. -/
inductive Turn where
  | old (o : Element)
  | new (n : Element)
  | both (o n : Element)

def turnOf : Option Element → Option Element → Option Turn
  | none, none => none
  | some o, none => some (.old o)
  | none, some n => some (.new n)
  | some o, some n =>
    if osmIdKey (elementId o) < osmIdKey (elementId n) then some (.old o)
    else if osmIdKey (elementId n) < osmIdKey (elementId o) then some (.new n)
    else some (.both o n)

namespace Turn

def old? : Turn → Option Element
  | .old o => some o
  | .new _ => none
  | .both o _ => some o

def new? : Turn → Option Element
  | .old _ => none
  | .new n => some n
  | .both _ n => some n

end Turn

/-- `BlockMergeAction`, its element variants. -/
inductive Action where
  | elementOldOnly (o : Element)
  | elementNewOnly (n : Element)
  | elementEqual (o : Element)
  | elementModified (o n : Element)

def Turn.action (contentEqual : Element → Element → Bool) : Turn → Action
  | .old o => .elementOldOnly o
  | .new n => .elementNewOnly n
  | .both o n => if contentEqual o n then .elementEqual o else .elementModified o n

/-- The sides behind a turn. -/
def Side.behind (side : Side ph) (taken : Option Element) : Side ph :=
  if taken.isSome then { side with head := none } else side

namespace Side

variable {kind : ElementKind}

lemma admit_src {s : StreamingBlocks ph} {e : Element} (h : s.admits e kind = .ok s') :
    s'.reader = s.reader ∧ s'.stashed = s.stashed := by
  unfold StreamingBlocks.admits at h
  split at h
  · cases h
  · simp only at h
    split at h
    · split at h
      · cases h
      · cases h
        exact ⟨rfl, rfl⟩
    · cases h
      exact ⟨rfl, rfl⟩

lemma left_admit {s : StreamingBlocks ph} {e : Element} (h : s.admits e kind = .ok s') :
    s'.left = s.left := by
  obtain ⟨hreader, hstash⟩ := admit_src h
  rw [StreamingBlocks.left, StreamingBlocks.left, hreader, hstash]

lemma pullHead_left {side side' : Side ph} (h : side.pullHead kind = .ok side')
    (hhead : side.head = none) : side'.left ≤ side.left := by
  fun_induction pullHead kind side with
  | case1 => cases h
  | case2 side e rest hiter src hadmit =>
    cases h
    simp only [left, hiter, hhead, left_admit hadmit, length_cons, toList_some,
      toList_none, length_nil]
    omega
  | case3 => cases h
  | case4 side hiter src hnext =>
    cases h
    have hle := StreamingBlocks.nextPhaseBlock_left hnext
    simp only [left, hiter, hhead, elim_none] at hle ⊢
    exact hle
  | case5 side hiter b src hnext hless ih =>
    refine Nat.le_trans (ih h hhead) ?_
    simp only [left, hiter, hhead, elim_some, length_nil] at hless ⊢
    omega

lemma refill_left {side side' : Side ph} (h : side.refill kind = .ok side') :
    side'.left ≤ side.left := by
  unfold refill at h
  split at h
  · next hnone => exact pullHead_left h (isNone_iff_eq_none.mp hnone.1)
  · cases h
    exact Nat.le_refl _

lemma behind_left {side : Side ph} {taken : Option Element}
    (htaken : ∀ e, taken = some e → side.head = some e) :
    (side.behind taken).left + taken.toList.length ≤ side.left := by
  unfold behind
  cases taken with
  | none => exact Nat.le_refl _
  | some e =>
    simp [left, htaken e rfl]

end Side

lemma turnOf_heads {o? n? : Option Element} {t : Turn} (h : turnOf o? n? = some t) :
    (∀ o, t.old? = some o → o? = some o) ∧ (∀ n, t.new? = some n → n? = some n) ∧
      0 < t.old?.toList.length + t.new?.toList.length := by
  unfold turnOf at h
  split at h
  · cases h
  · cases h
    simp [Turn.old?, Turn.new?]
  · cases h
    simp [Turn.old?, Turn.new?]
  · split at h
    · cases h
      simp [Turn.old?, Turn.new?]
    · split at h
      · cases h
        simp [Turn.old?, Turn.new?]
      · cases h
        simp [Turn.old?, Turn.new?]

variable {kind : ElementKind}

lemma turn_left {old new old' new' : Side ph} {t : Turn} (hold : old.refill kind = .ok old')
    (hnew : new.refill kind = .ok new') (ht : turnOf old'.head new'.head = some t) :
    (old'.behind t.old?).left + (new'.behind t.new?).left < old.left + new.left := by
  obtain ⟨holdHead, hnewHead, hpos⟩ := turnOf_heads ht
  have hle := Side.refill_left hold
  have hle' := Side.refill_left hnew
  have hless := Side.behind_left holdHead
  have hless' := Side.behind_left hnewHead
  omega

section Merge

variable {σ : Type} (record : ElementKind → σ → Action → Except StreamError σ)
  (contentEqual : Element → Element → Bool)

/-- The loop of `stream_merge_phase`. -/
def mergeLoop (kind : ElementKind) (old new : Side ph) (acc : σ) :
    Except StreamError (StreamingBlocks ph × StreamingBlocks ph × σ) :=
  match hold : old.refill kind with
  | .error e => .error e
  | .ok old' =>
    match hnew : new.refill kind with
    | .error e => .error e
    | .ok new' =>
      match ht : turnOf old'.head new'.head with
      | none => .ok (old'.src, new'.src, acc)
      | some t =>
        have := turn_left hold hnew ht
        match record kind acc (t.action contentEqual) with
        | .error e => .error e
        | .ok acc => mergeLoop kind (old'.behind t.old?) (new'.behind t.new?) acc
termination_by old.left + new.left

def streamMergePhase (kind : ElementKind) (old new : StreamingBlocks ph) (acc : σ) :
    Except StreamError (StreamingBlocks ph × StreamingBlocks ph × σ) :=
  mergeLoop record contentEqual kind ⟨old, [], none, false⟩ ⟨new, [], none, false⟩ acc

/-- A phase of `diff_element_stream`: merged, or skipped on both sides. -/
def runPhase (filter : KindSet) (s : StreamingBlocks ph × StreamingBlocks ph × σ)
    (kind : ElementKind) : Except StreamError (StreamingBlocks ph × StreamingBlocks ph × σ) :=
  if filter.has kind then streamMergePhase record contentEqual kind s.1 s.2.1 s.2.2
  else do
    let old ← s.1.skipKind kind
    let new ← s.2.1.skipKind kind
    return (old, new, s.2.2)

/-- The phases of `diff_element_stream`; with every kind, those of
`derive_changes_element_stream`. -/
def diffElementStream (filter : KindSet) (old new : List Blob) (acc : σ) :
    Except StreamError (StreamingBlocks ph × StreamingBlocks ph × σ) :=
  [ElementKind.node, .way, .relation].foldlM (runPhase record contentEqual filter)
    (newSequential old, newSequential new, acc)

end Merge

variable (ph) in
/-- The blocks of a file. -/
def readAll : List Blob → Except StreamError (List (DecodedBlock ph))
  | [] => .ok []
  | .unread e :: _ => .error e
  | .other :: rest => readAll rest
  | .osmData payload :: rest => do
    let bytes ← payload
    let block ← decodeBlob ph bytes
    let blocks ← readAll rest
    return block :: blocks

def elementsOf (blocks : List (DecodedBlock ph)) : List Element :=
  blocks.flatMap DecodedBlock.elements

lemma elementsOf_cons (b : DecodedBlock ph) (blocks : List (DecodedBlock ph)) :
    elementsOf (b :: blocks) = b.elements ++ elementsOf blocks := rfl

lemma elementsOf_append (xs ys : List (DecodedBlock ph)) :
    elementsOf (xs ++ ys) = elementsOf xs ++ elementsOf ys := flatMap_append

/-- The blocks a stream has before it. -/
def Coming (s : StreamingBlocks ph) (blocks : List (DecodedBlock ph)) : Prop :=
  ∃ rest, readAll ph s.reader = .ok rest ∧ blocks = s.stashed.toList ++ rest

/-- Between two states of a stream these blocks were taken off it, and none other. -/
def Consumes (s : StreamingBlocks ph) (taken : List (DecodedBlock ph)) (s' : StreamingBlocks ph) :
    Prop :=
  ∀ rest, Coming s' rest → Coming s (taken ++ rest)

lemma Consumes.refl (s : StreamingBlocks ph) : Consumes s [] s := fun _ h => h

variable {s : StreamingBlocks ph} {b : DecodedBlock ph} {kind : ElementKind} {side : Side ph}

lemma Consumes.trans {s'' : StreamingBlocks ph} {taken' : List (DecodedBlock ph)}
    (h : Consumes s taken s') (h' : Consumes s' taken' s'') : Consumes s (taken ++ taken') s'' := by
  intro rest hrest
  rw [append_assoc]
  exact h _ (h' rest hrest)

lemma readBlock_none (h : s.readBlock blobs = .ok (none, s')) : s'.reader = [] := by
  induction blobs with
  | nil =>
    cases h
    rfl
  | cons blob blobs ih =>
    cases blob with
    | unread e => cases h
    | other => exact ih h
    | osmData payload =>
      obtain ⟨bytes, -, h⟩ := Fallible.bind_eq_ok.mp h
      obtain ⟨block, -, h⟩ := Fallible.bind_eq_ok.mp h
      cases h

lemma readBlock_all (h : s.readBlock blobs = .ok (out, s')) {rest : List (DecodedBlock ph)}
    (hrest : readAll ph s'.reader = .ok rest) : readAll ph blobs = .ok (out.toList ++ rest) := by
  induction blobs with
  | nil =>
    cases h
    exact hrest
  | cons blob blobs ih =>
    cases blob with
    | unread e => cases h
    | other => exact ih h
    | osmData payload =>
      obtain ⟨bytes, hbytes, h⟩ := Fallible.bind_eq_ok.mp h
      obtain ⟨block, hblock, h⟩ := Fallible.bind_eq_ok.mp h
      cases h
      exact Fallible.bind_eq_ok.mpr ⟨bytes, hbytes, Fallible.bind_eq_ok.mpr ⟨block, hblock,
        Fallible.bind_eq_ok.mpr ⟨rest, hrest, rfl⟩⟩⟩

lemma nextBlock_consumes (h : s.nextBlock = .ok (out, s')) :
    Consumes s out.toList s' ∧ s'.lastElement = s.lastElement ∧ s'.stashed = none ∧
      (out = none → s'.reader = []) := by
  have hstashed := (StreamingBlocks.nextBlock_left h).1
  unfold StreamingBlocks.nextBlock at h
  split at h
  · next b hstash =>
    cases h
    refine ⟨?_, rfl, rfl, nofun⟩
    rintro rest ⟨rs, hrs, hrest⟩
    exact ⟨rs, hrs, by simp [hrest, hstash]⟩
  · next hstash =>
    refine ⟨?_, (StreamingBlocks.readBlock_left h).2.1, hstashed, ?_⟩
    · rintro rest ⟨rs, hrs, rfl⟩
      refine ⟨out.toList ++ rs, readBlock_all h hrs, ?_⟩
      rw [hstash, hstashed]
      rfl
    · intro hnone
      subst hnone
      exact readBlock_none h

/-- What stands behind a phase: a block of a later kind, or nothing. -/
def After (kind : ElementKind) (s : StreamingBlocks ph) : Prop :=
  s.stashed = none ∧ s.reader = [] ∨
    ∃ b k, s.stashed = some b ∧ b.elementKinds = .one k ∧ kind.ordinal < k.ordinal

lemma After.coming (h : After .relation s) : Coming s [] := by
  rcases h with ⟨hstash, hreader⟩ | ⟨b, k, -, -, hk⟩
  · exact ⟨[], by rw [hreader]; rfl, by rw [hstash]; rfl⟩
  · have hlast := k.ordinal_lt
    have htop : ElementKind.relation.ordinal = 2 := rfl
    omega

lemma elements_of_empty (h : b.elementKinds = .empty) : b.elements = [] := by
  rw [eq_nil_iff_forall_not_mem]
  intro e he
  have hkind := (b.kinds (elementKind e)).mpr ⟨e, he, rfl⟩
  unfold DecodedBlock.elementKinds at h
  split at h
  · next hnode hway hrelation =>
    cases hk : elementKind e <;> simp [hk, KindSet.has, hnode, hway, hrelation] at hkind
  all_goals cases h

lemma elements_of_one {k : ElementKind} (h : b.elementKinds = .one k) :
    ∀ e ∈ b.elements, elementKind e = k := by
  intro e he
  have hkind := (b.kinds (elementKind e)).mpr ⟨e, he, rfl⟩
  unfold DecodedBlock.elementKinds at h
  split at h
  · cases h
  · next hnode hway hrelation =>
    cases h
    cases hk : elementKind e <;> simp [hk, KindSet.has, hway, hrelation] at hkind ⊢
  · next hnode hway hrelation =>
    cases h
    cases hk : elementKind e <;> simp [hk, KindSet.has, hnode, hrelation] at hkind ⊢
  · next hnode hway hrelation =>
    cases h
    cases hk : elementKind e <;> simp [hk, KindSet.has, hnode, hway] at hkind ⊢
  · cases h

/-- A block put back is still before the stream. -/
theorem consumes_stash (h : Consumes s [b] s') (hstash : s'.stashed = none) :
    Consumes s [] { s' with stashed := some b } := by
  rintro rest ⟨rs, hrs, rfl⟩
  exact h rs ⟨rs, hrs, by rw [hstash]; rfl⟩

/-- Blocks of one kind taken off a stream, up to where a later kind begins. -/
structure Took (kind : ElementKind) (s : StreamingBlocks ph) (taken : List (DecodedBlock ph))
    (s' : StreamingBlocks ph) : Prop where
  consumes : Consumes s taken s'
  kinds : ∀ e ∈ elementsOf taken, elementKind e = kind
  after : After kind s'

lemma skipKind_took (h : s.skipKind kind = .ok s') : ∃ taken, Took kind s taken s' := by
  fun_induction StreamingBlocks.skipKind kind s with
  | case1 => cases h
  | case2 s s₁ hnext =>
    cases h
    obtain ⟨hconsumes, -, hstash, hend⟩ := nextBlock_consumes hnext
    exact ⟨[], hconsumes, by simp [elementsOf], .inl ⟨hstash, hend rfl⟩⟩
  | case3 s b s₁ hnext hlt hkinds ih =>
    obtain ⟨taken, htook⟩ := ih h
    obtain ⟨hconsumes, -⟩ := nextBlock_consumes hnext
    refine ⟨b :: taken, hconsumes.trans htook.consumes, ?_, htook.after⟩
    have hempty := elements_of_empty hkinds
    simpa [elementsOf, hempty] using htook.kinds
  | case4 s b s₁ hnext hlt hkinds ih =>
    obtain ⟨taken, htook⟩ := ih h
    obtain ⟨hconsumes, -⟩ := nextBlock_consumes hnext
    refine ⟨b :: taken, hconsumes.trans htook.consumes, ?_, htook.after⟩
    intro e he
    rw [elementsOf_cons, mem_append] at he
    rcases he with he | he
    · exact elements_of_one hkinds e he
    · exact htook.kinds e he
  | case5 s b s₁ hnext hlt k hkinds hk hlater =>
    cases h
    obtain ⟨hconsumes, -, hstash, -⟩ := nextBlock_consumes hnext
    exact ⟨[], consumes_stash hconsumes hstash, by simp [elementsOf], .inr ⟨b, k, rfl, hkinds, hlater⟩⟩
  | case6 => cases h
  | case7 => cases h

lemma nextPhaseBlock_took (h : s.nextPhaseBlock kind = .ok (out, s')) :
    s'.lastElement = s.lastElement ∧ (out = none → After kind s') ∧
      ∃ empties, Consumes s (empties ++ out.toList) s' ∧ elementsOf empties = [] := by
  fun_induction StreamingBlocks.nextPhaseBlock kind s with
  | case1 => cases h
  | case2 s s₁ hnext =>
    cases h
    obtain ⟨hconsumes, hlast, hstash, hend⟩ := nextBlock_consumes hnext
    exact ⟨hlast, fun _ => .inl ⟨hstash, hend rfl⟩, [], hconsumes, rfl⟩
  | case3 _ _ _ hnext | case5 _ _ _ hnext =>
    cases h
    obtain ⟨hconsumes, hlast, -⟩ := nextBlock_consumes hnext
    exact ⟨hlast, nofun, [], hconsumes, rfl⟩
  | case4 s b s₁ hnext hlt htype hkinds ih =>
    obtain ⟨hlast, hafter, empties, hconsumes, hempty⟩ := ih h
    obtain ⟨hfirst, hlast', -⟩ := nextBlock_consumes hnext
    refine ⟨hlast.trans hlast', hafter, b :: empties, hfirst.trans hconsumes, ?_⟩
    have hnone := elements_of_empty hkinds
    simpa [elementsOf, hnone] using hempty
  | case6 s b s₁ hnext hlt htype k hkinds hk hlater =>
    cases h
    obtain ⟨hconsumes, hlast, hstash, -⟩ := nextBlock_consumes hnext
    exact ⟨hlast, fun _ => .inr ⟨b, k, rfl, hkinds, hlater⟩, [], consumes_stash hconsumes hstash, rfl⟩
  | case7 => cases h
  | case8 => cases h

def keyOf (e : Element) : OsmIdKey := osmIdKey (elementId e)

/-- Elements that follow the last one of the kind in order. -/
def Follows (kind : ElementKind) (last : Option (Nat × OsmIdKey)) (es : List Element) : Prop :=
  (∀ key, last = some (kind.ordinal, key) → ∀ e ∈ es, key ≤ keyOf e) ∧
    (es.map keyOf).Pairwise (· ≤ ·)

/-- From here on the side brings these elements, head first, and its phase ends at `s'`. -/
structure Yields (kind : ElementKind) (side : Side ph) (es : List Element)
    (s' : StreamingBlocks ph) (taken : List (DecodedBlock ph)) : Prop where
  consumes : Consumes side.src taken s'
  elements : es = side.head.toList ++ (side.iter ++ elementsOf taken)
  kinds : ∀ e ∈ side.iter ++ elementsOf taken, elementKind e = kind
  follows : Follows kind side.src.lastElement (side.iter ++ elementsOf taken)
  after : After kind s'

/-- A side whose phase is over has nothing more at hand. -/
def Over (kind : ElementKind) (side : Side ph) : Prop := side.iter = [] ∧ After kind side.src

lemma admit_ok {e : Element} (h : s.admits e kind = .ok s') : elementKind e = kind ∧
      s'.lastElement = some (kind.ordinal, keyOf e) ∧
      ∀ key, s.lastElement = some (kind.ordinal, key) → key ≤ keyOf e := by
  unfold StreamingBlocks.admits at h
  split at h
  · cases h
  · next hkind =>
    have hsame : elementKind e = kind := not_not.mp hkind
    simp only at h
    split at h
    · next lastKind lastKey hlast =>
      split at h
      · cases h
      · next horder =>
        cases h
        refine ⟨hsame, rfl, ?_⟩
        intro key hkey
        rw [hkey, some.injEq, Prod.mk.injEq] at hlast
        obtain ⟨hkind', rfl⟩ := hlast
        exact not_lt.mp fun hlt => horder ⟨hkind'.symm, hlt⟩
    · next hnone =>
      cases h
      refine ⟨hsame, rfl, ?_⟩
      intro key hkey
      rw [hnone] at hkey
      cases hkey

lemma follows_cons {last : Option (Nat × OsmIdKey)} {e : Element}
    (hlast : ∀ key, last = some (kind.ordinal, key) → key ≤ keyOf e)
    (h : Follows kind (some (kind.ordinal, keyOf e)) es) : Follows kind last (e :: es) := by
  have hrest : ∀ e' ∈ es, keyOf e ≤ keyOf e' := h.1 _ rfl
  constructor
  · intro key hkey e' he'
    rcases mem_cons.mp he' with rfl | he'
    · exact hlast key hkey
    · exact (hlast key hkey).trans (hrest e' he')
  · rw [map_cons, pairwise_cons]
    refine ⟨?_, h.2⟩
    intro k hk
    obtain ⟨e', he', rfl⟩ := mem_map.mp hk
    exact hrest e' he'

lemma pullHead_yields {side' : Side ph} (h : side.pullHead kind = .ok side')
    (hhead : side.head = none) (hended : side.ended = false) :
    (∀ es s' taken, Yields kind side' es s' taken → ∃ taken', Yields kind side es s' taken') ∧
    (side'.head = none → Over kind side') ∧ (side'.ended = true → side'.head = none) := by
  fun_induction Side.pullHead kind side with
  | case1 => cases h
  | case2 side e rest hiter src hadmit =>
    cases h
    obtain ⟨hkind, hlast, horder⟩ := admit_ok hadmit
    obtain ⟨hreader, hstash⟩ := Side.admit_src hadmit
    refine ⟨?_, nofun, ?_⟩
    · rintro es s' taken ⟨hconsumes, rfl, hkinds, hfollows, hafter⟩
      simp only [hlast] at hfollows
      have hsplit : side.iter ++ elementsOf taken = e :: (rest ++ elementsOf taken) := by
        rw [hiter, cons_append]
      refine ⟨taken, ?_, ?_, ?_, ?_, hafter⟩
      · intro blocks hblocks
        obtain ⟨rs, hrs, hall⟩ := hconsumes blocks hblocks
        simp only [hreader, hstash] at hrs hall
        exact ⟨rs, hrs, hall⟩
      · rw [hsplit, hhead]
        rfl
      · rw [hsplit, forall_mem_cons]
        exact ⟨hkind, hkinds⟩
      · rw [hsplit]
        exact follows_cons horder hfollows
    · intro he
      simp only [hended] at he
      cases he
  | case3 => cases h
  | case4 side hiter src hnext =>
    cases h
    obtain ⟨hlast, hafter, empties, hconsumes, hempty⟩ := nextPhaseBlock_took hnext
    refine ⟨?_, fun _ => ⟨rfl, hafter rfl⟩, fun _ => rfl⟩
    rintro es s' taken ⟨hrest, rfl, hkinds, hfollows, hend⟩
    rw [toList_none, append_nil] at hconsumes
    have hsame : elementsOf (empties ++ taken) = elementsOf taken := by
      rw [elementsOf_append, hempty, nil_append]
    refine ⟨empties ++ taken, hconsumes.trans hrest, ?_, ?_, ?_, hend⟩
    · rw [hhead, hiter, hsame]
    · rw [hiter, hsame]
      exact hkinds
    · rw [hiter, hsame, ← hlast]
      exact hfollows
  | case5 side hiter b src hnext hless ih =>
    obtain ⟨hlast, -, empties, hconsumes, hempty⟩ := nextPhaseBlock_took hnext
    obtain ⟨hyields, hover, hnone⟩ := ih h hhead hended
    refine ⟨?_, hover, hnone⟩
    intro es s' taken hside
    obtain ⟨taken', hrest, rfl, hkinds, hfollows, hend⟩ := hyields es s' taken hside
    have hsame : elementsOf ((empties ++ [b]) ++ taken') = b.elements ++ elementsOf taken' := by
      rw [elementsOf_append, elementsOf_append, hempty, nil_append, elementsOf_cons]
      simp [elementsOf]
    refine ⟨(empties ++ [b]) ++ taken', hconsumes.trans hrest, ?_, ?_, ?_, hend⟩
    · rw [hhead, hiter, hsame]
      rfl
    · rw [hiter, hsame]
      exact hkinds
    · rw [hiter, hsame, ← hlast]
      exact hfollows

/-- A side before a turn: over, if it says so. -/
def Ready (kind : ElementKind) (side : Side ph) : Prop := side.ended = true → Over kind side

lemma refill_yields {side' : Side ph} (h : side.refill kind = .ok side')
    (hready : Ready kind side) : Ready kind side' ∧ (side'.head = none → Over kind side') ∧
      ∀ es s' taken, Yields kind side' es s' taken → ∃ taken', Yields kind side es s' taken' := by
  unfold Side.refill at h
  split at h
  · next hpull =>
    obtain ⟨hyields, hover, hnone⟩ :=
      pullHead_yields h (isNone_iff_eq_none.mp hpull.1) hpull.2
    exact ⟨fun he => hover (hnone he), hover, hyields⟩
  · next hkeep =>
    cases h
    refine ⟨hready, ?_, fun es s' taken hside => ⟨taken, hside⟩⟩
    intro hnone
    refine hready ?_
    by_contra hne
    exact hkeep ⟨by rw [hnone]; rfl, Bool.eq_false_iff.mpr hne⟩

lemma behind_yields {taken? : Option Element} (htaken : ∀ e, taken? = some e → side.head = some e)
    (h : Yields kind (side.behind taken?) es s' taken) :
    Yields kind side (taken?.toList ++ es) s' taken := by
  cases taken? with
  | none => exact h
  | some e =>
    obtain ⟨hconsumes, rfl, hkinds, hfollows, hafter⟩ := h
    refine ⟨hconsumes, ?_, hkinds, hfollows, hafter⟩
    rw [htaken e rfl]
    rfl

lemma behind_ready {taken? : Option Element} (h : Ready kind side) :
    Ready kind (side.behind taken?) := by
  unfold Side.behind
  split
  · exact h
  · exact h

lemma yields_over (h : Over kind side) (hhead : side.head = none) :
    Yields kind side [] side.src [] := by
  have hnone : side.iter ++ elementsOf ([] : List (DecodedBlock ph)) = [] := by
    rw [h.1]
    rfl
  refine ⟨.refl _, ?_, ?_, ?_, h.2⟩
  · rw [hhead, hnone]
    rfl
  · rw [hnone]
    nofun
  · rw [hnone]
    exact ⟨nofun, .nil⟩

lemma filterMap_cons_toList {α β : Type} (f : α → Option β) (x : α) (xs : List α) :
    (x :: xs).filterMap f = (f x).toList ++ xs.filterMap f := by
  rw [filterMap_cons]
  cases f x <;> rfl

section Merge

variable {σ : Type} {record : ElementKind → σ → Action → Except StreamError σ}
  {contentEqual : Element → Element → Bool}

/-- The actions of turns, recorded one after the other. -/
def recordTurns (record : ElementKind → σ → Action → Except StreamError σ)
    (contentEqual : Element → Element → Bool) (kind : ElementKind) (acc : σ) (turns : List Turn) :
    Except StreamError σ :=
  turns.foldlM (fun acc t => record kind acc (t.action contentEqual)) acc

lemma mergeLoop_yields {old new : Side ph} {acc acc' : σ} {s : StreamingBlocks ph}
    (h : mergeLoop record contentEqual kind old new acc = .ok (s, s', acc'))
    (hold : Ready kind old) (hnew : Ready kind new) :
    ∃ turns taken taken', recordTurns record contentEqual kind acc turns = .ok acc' ∧
      Yields kind old (turns.filterMap Turn.old?) s taken ∧
      Yields kind new (turns.filterMap Turn.new?) s' taken' := by
  fun_induction mergeLoop record contentEqual kind old new acc with
  | case1 => cases h
  | case2 => cases h
  | case3 old new acc old' hrefill new' hrefill' ht =>
    cases h
    obtain ⟨-, hover, hback⟩ := refill_yields hrefill hold
    obtain ⟨-, hover', hback'⟩ := refill_yields hrefill' hnew
    have hnone : old'.head = none ∧ new'.head = none := by
      unfold turnOf at ht
      split at ht
      · next ho hn => exact ⟨ho, hn⟩
      · cases ht
      · cases ht
      · split at ht
        · cases ht
        · split at ht <;> cases ht
    obtain ⟨taken, hyields⟩ := hback _ _ _ (yields_over (hover hnone.1) hnone.1)
    obtain ⟨taken', hyields'⟩ := hback' _ _ _ (yields_over (hover' hnone.2) hnone.2)
    exact ⟨[], taken, taken', rfl, hyields, hyields'⟩
  | case4 => cases h
  | case5 old new acc old' hrefill new' hrefill' t ht hless acc₁ hrecord ih =>
    obtain ⟨hready, -, hback⟩ := refill_yields hrefill hold
    obtain ⟨hready', -, hback'⟩ := refill_yields hrefill' hnew
    obtain ⟨hheads, hheads', -⟩ := turnOf_heads ht
    obtain ⟨turns, taken, taken', hrun, hyields, hyields'⟩ :=
      ih h (behind_ready hready) (behind_ready hready')
    obtain ⟨taken₁, hfirst⟩ := hback _ _ _ (behind_yields hheads hyields)
    obtain ⟨taken₂, hsecond⟩ := hback' _ _ _ (behind_yields hheads' hyields')
    refine ⟨t :: turns, taken₁, taken₂, ?_, ?_, ?_⟩
    · exact Fallible.bind_eq_ok.mpr ⟨acc₁, hrecord, hrun⟩
    · rw [filterMap_cons_toList]
      exact hfirst
    · rw [filterMap_cons_toList]
      exact hsecond

/-- What one side of a phase delivered out of the blocks it took. -/
structure Delivered (kind : ElementKind) (taken : List (DecodedBlock ph)) (es : List Element) :
    Prop where
  elements : es = elementsOf taken
  order : (es.map keyOf).Pairwise (· ≤ ·)

lemma delivered_of_yields {s : StreamingBlocks ph}
    (h : Yields kind ⟨s, [], none, false⟩ es s' taken) :
    Took kind s taken s' ∧ Delivered kind taken es := by
  obtain ⟨hconsumes, rfl, hkinds, hfollows, hafter⟩ := h
  exact ⟨⟨hconsumes, hkinds, hafter⟩, rfl, hfollows.2⟩

lemma runPhase_spec {filter : KindSet} {s s' t t' : StreamingBlocks ph} {acc acc' : σ}
    (h : runPhase record contentEqual filter (s, t, acc) kind = .ok (s', t', acc')) :
    ∃ turns taken taken', recordTurns record contentEqual kind acc turns = .ok acc' ∧
      Took kind s taken s' ∧ Took kind t taken' t' ∧
      (filter.has kind = true → Delivered kind taken (turns.filterMap Turn.old?) ∧
        Delivered kind taken' (turns.filterMap Turn.new?)) := by
  unfold runPhase at h
  split at h
  · next hfilter =>
    obtain ⟨turns, taken, taken', hrun, hyields, hyields'⟩ := mergeLoop_yields h nofun nofun
    obtain ⟨htook, hdelivered⟩ := delivered_of_yields hyields
    obtain ⟨htook', hdelivered'⟩ := delivered_of_yields hyields'
    exact ⟨turns, taken, taken', hrun, htook, htook', fun _ => ⟨hdelivered, hdelivered'⟩⟩
  · next hfilter =>
    obtain ⟨s₁, hs, h⟩ := Fallible.bind_eq_ok.mp h
    obtain ⟨t₁, ht, h⟩ := Fallible.bind_eq_ok.mp h
    cases h
    obtain ⟨taken, htook⟩ := skipKind_took hs
    obtain ⟨taken', htook'⟩ := skipKind_took ht
    exact ⟨[], taken, taken', rfl, htook, htook', fun hin => absurd hin hfilter⟩

end Merge

/-- Every block was read, holds one kind and follows those of earlier kinds, and each phase that was
asked for delivered all elements of its kind in order. -/
structure Whole (ph : Crate) (filter : KindSet) (file : List Blob)
    (delivered : ElementKind → List Element) : Prop where
  blocks : ∃ blocks, readAll ph file = .ok blocks ∧
    (∀ b ∈ blocks, ∃ kind, ∀ e ∈ b.elements, elementKind e = kind) ∧
    ((elementsOf blocks).map fun e => (elementKind e).ordinal).Pairwise (· ≤ ·) ∧
    ∀ kind, filter.has kind = true →
      delivered kind = (elementsOf blocks).filter fun e => decide (elementKind e = kind)
  order : ∀ kind, filter.has kind = true → ((delivered kind).map keyOf).Pairwise (· ≤ ·)

lemma filter_kind {kind k : ElementKind} (h : ∀ e ∈ es, elementKind e = kind) :
    (es.filter fun e => decide (elementKind e = k)) = if kind = k then es else [] := by
  split
  · next hk =>
    rw [filter_eq_self]
    intro e he
    exact decide_eq_true ((h e he).trans hk)
  · next hk =>
    rw [filter_eq_nil_iff]
    intro e he heq
    exact hk ((h e he).symm.trans (of_decide_eq_true heq))

/-- Three phases over a file leave nothing of it. -/
theorem whole_of_phases {filter : KindSet} {file : List Blob}
    {s₁ s₂ s₃ : StreamingBlocks ph} {taken : ElementKind → List (DecodedBlock ph)}
    {delivered : ElementKind → List Element}
    (hnode : Took .node (newSequential file) (taken .node) s₁)
    (hway : Took .way s₁ (taken .way) s₂) (hrelation : Took .relation s₂ (taken .relation) s₃)
    (h : ∀ kind, filter.has kind = true → Delivered kind (taken kind) (delivered kind)) :
    Whole ph filter file delivered := by
  have hall := (hnode.consumes.trans (hway.consumes.trans hrelation.consumes)) _
    hrelation.after.coming
  rw [append_nil] at hall
  obtain ⟨blocks, hblocks, hsame⟩ := hall
  rw [newSequential, toList_none, nil_append] at hsame
  subst hsame
  have hkinds : ∀ kind, ∀ e ∈ elementsOf (taken kind), elementKind e = kind := by
    intro kind
    cases kind
    · exact hnode.kinds
    · exact hway.kinds
    · exact hrelation.kinds
  have hsplit : elementsOf (taken .node ++ (taken .way ++ taken .relation)) =
      elementsOf (taken .node) ++ (elementsOf (taken .way) ++ elementsOf (taken .relation)) := by
    rw [elementsOf_append, elementsOf_append]
  refine ⟨⟨_, hblocks, ?_, ?_, ?_⟩, fun kind hk => (h kind hk).order⟩
  · intro b hb
    have hone : ∀ kind, b ∈ taken kind → ∃ k, ∀ e ∈ b.elements, elementKind e = k :=
      fun kind hin => ⟨kind, fun e he => hkinds kind e (mem_flatMap.mpr ⟨b, hin, he⟩)⟩
    rcases mem_append.mp hb with hin | hb
    · exact hone _ hin
    · rcases mem_append.mp hb with hin | hin
      · exact hone _ hin
      · exact hone _ hin
  · have hone : ∀ kind, ((elementsOf (taken kind)).map fun e => (elementKind e).ordinal).Pairwise
        (· ≤ ·) := by
      intro kind
      rw [pairwise_map]
      refine pairwise_of_forall_mem_list ?_
      intro a ha b hb
      rw [hkinds kind a ha, hkinds kind b hb]
    have hbefore : ∀ k k' : ElementKind, k.ordinal ≤ k'.ordinal →
        ∀ a ∈ (elementsOf (taken k)).map (fun e => (elementKind e).ordinal),
        ∀ b ∈ (elementsOf (taken k')).map (fun e => (elementKind e).ordinal), a ≤ b := by
      intro k k' hle a ha b hb
      obtain ⟨e, he, rfl⟩ := mem_map.mp ha
      obtain ⟨e', he', rfl⟩ := mem_map.mp hb
      simp only [hkinds k e he, hkinds k' e' he', hle]
    rw [hsplit, map_append, map_append, pairwise_append, pairwise_append]
    refine ⟨hone .node, ⟨hone .way, hone .relation, hbefore .way .relation (by decide)⟩, ?_⟩
    intro a ha b hb
    rcases mem_append.mp hb with hb | hb
    · exact hbefore .node .way (by decide) a ha b hb
    · exact hbefore .node .relation (by decide) a ha b hb
  · intro kind hk
    rw [(h kind hk).elements, hsplit, filter_append, filter_append,
      filter_kind (hkinds .node), filter_kind (hkinds .way), filter_kind (hkinds .relation)]
    cases kind <;> simp

section Run

variable {σ : Type} {record : ElementKind → σ → Action → Except StreamError σ}
  {contentEqual : Element → Element → Bool}

/-- A run that succeeds lost nothing of either file. -/
theorem streaming_loses_nothing {filter : KindSet} {old new : List Blob} {acc acc' : σ}
    {s s' : StreamingBlocks ph}
    (h : diffElementStream record contentEqual filter old new acc = .ok (s, s', acc')) :
    ∃ turns : ElementKind → List Turn, [ElementKind.node, .way, .relation].foldlM
        (fun acc kind => recordTurns record contentEqual kind acc (turns kind)) acc = .ok acc' ∧
      Whole ph filter old (fun kind => (turns kind).filterMap Turn.old?) ∧
      Whole ph filter new (fun kind => (turns kind).filterMap Turn.new?) := by
  obtain ⟨⟨s₁, t₁, acc₁⟩, hnode, h⟩ := Fallible.bind_eq_ok.mp h
  obtain ⟨⟨s₂, t₂, acc₂⟩, hway, h⟩ := Fallible.bind_eq_ok.mp h
  obtain ⟨⟨s₃, t₃, acc₃⟩, hrelation, h⟩ := Fallible.bind_eq_ok.mp h
  cases h
  obtain ⟨nodeTurns, old₁, new₁, hrun₁, htook₁, htook₁', hdone₁⟩ := runPhase_spec hnode
  obtain ⟨wayTurns, old₂, new₂, hrun₂, htook₂, htook₂', hdone₂⟩ := runPhase_spec hway
  obtain ⟨relationTurns, old₃, new₃, hrun₃, htook₃, htook₃', hdone₃⟩ := runPhase_spec hrelation
  let turns : ElementKind → List Turn := ElementKind.rec nodeTurns wayTurns relationTurns
  let oldTaken : ElementKind → List (DecodedBlock ph) := ElementKind.rec old₁ old₂ old₃
  let newTaken : ElementKind → List (DecodedBlock ph) := ElementKind.rec new₁ new₂ new₃
  refine ⟨turns, ?_, ?_, ?_⟩
  · exact Fallible.bind_eq_ok.mpr ⟨acc₁, hrun₁, Fallible.bind_eq_ok.mpr ⟨acc₂, hrun₂,
      Fallible.bind_eq_ok.mpr ⟨_, hrun₃, rfl⟩⟩⟩
  · refine @whole_of_phases ph filter old s₁ s₂ _ oldTaken _ htook₁ htook₂ htook₃ ?_
    intro kind hk
    cases kind
    · exact (hdone₁ hk).1
    · exact (hdone₂ hk).1
    · exact (hdone₃ hk).1
  · refine @whole_of_phases ph filter new t₁ t₂ _ newTaken _ htook₁' htook₂' htook₃' ?_
    intro kind hk
    cases kind
    · exact (hdone₁ hk).2
    · exact (hdone₂ hk).2
    · exact (hdone₃ hk).2

end Run

def nodePayload : Payload :=
  ⟨lenField 1 (lenField 1 []) ++ lenField 2 (lenField 1 (varintField 1 14)), by decide⟩

def wayPayload : Payload :=
  ⟨lenField 1 (lenField 1 []) ++ lenField 2 (lenField 3 (varintField 1 5)), by decide⟩

def sampleOld : List Blob := [.other, .osmData (.ok nodePayload), .osmData (.ok wayPayload)]

def sampleNew : List Blob := [.osmData (.ok nodePayload), .osmData (.ok nodePayload)]

/-- A sink that counts. -/
def countActions (_ : ElementKind) (n : Nat) (_ : Action) : Except StreamError Nat := .ok (n + 1)

def sampleRun : Except StreamError
    (StreamingBlocks Reference.crate × StreamingBlocks Reference.crate × Nat) :=
  diffElementStream countActions (fun _ _ => true) ⟨true, true, false⟩ sampleOld sampleNew 0

theorem streaming_loses_nothing_sample : ∃ turns : ElementKind → List Turn,
      [ElementKind.node, .way, .relation].foldlM
        (fun acc kind => recordTurns countActions (fun _ _ => true) kind acc (turns kind)) 0 = .ok 3 ∧
      Whole Reference.crate ⟨true, true, false⟩ sampleOld
        (fun kind => (turns kind).filterMap Turn.old?) ∧
      Whole Reference.crate ⟨true, true, false⟩ sampleNew
        (fun kind => (turns kind).filterMap Turn.new?) := by
  have hcount : (sampleRun.map fun out => out.2.2).toOption = some 3 := by decide +kernel
  obtain ⟨⟨s, s', n⟩, h, rfl⟩ := Fallible.map_eq_ok.mp (Fallible.ok_of_toOption hcount)
  exact streaming_loses_nothing h

/-- The node phase over a file, merged with an empty one: each node is counted. -/
def nodePhase (file : List Blob) : Except StreamError
    (StreamingBlocks Reference.crate × StreamingBlocks Reference.crate × Nat) :=
  runPhase countActions (fun _ _ => true) ⟨true, true, true⟩
    (newSequential file, newSequential [], 0) .node

/-- It ends at a way between two nodes and has seen one of them. -/
theorem node_phase_ends_early :
    ¬∀ file blocks out, readAll Reference.crate file = .ok blocks → nodePhase file = .ok out →
      out.2.2 = (elementsOf blocks).countP fun e => decide (elementKind e = .node) := by
  intro hall
  let file : List Blob :=
    [.osmData (.ok nodePayload), .osmData (.ok wayPayload), .osmData (.ok nodePayload)]
  have hread : ((readAll Reference.crate file).map fun blocks =>
      (elementsOf blocks).countP fun e => decide (elementKind e = .node)).toOption = some 2 := by
    decide +kernel
  have hphase : ((nodePhase file).map fun out => out.2.2).toOption = some 1 := by
    decide +kernel
  obtain ⟨blocks, hblocks, htwo⟩ := Fallible.map_eq_ok.mp (Fallible.ok_of_toOption hread)
  obtain ⟨out, hout, hone⟩ := Fallible.map_eq_ok.mp (Fallible.ok_of_toOption hphase)
  have heq := hall file blocks out hblocks hout
  omega

end Streaming
