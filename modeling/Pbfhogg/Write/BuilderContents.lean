import Pbfhogg.Owned

/-!
# What a builder holds

A block builder seen by its elements: what the block being built holds, whether it can take one
more, and the poison that an element of another kind, one too many or a member of unknown type
leaves. The builder of bytes agrees with this one at every step.
-/

namespace BuilderContents

open Protohoggr BlockBuilder BuiltBytes Owned Fallible List

variable {c : Contents} {e : OwnedElement} {o : Output} {es : List OwnedElement} {b : Builder}

structure Contents where
  cap : Nat
  cap_pos : 0 < cap
  held : List OwnedElement := []
  poison : Option String := none

namespace Contents

/-- `BlockBuilder::new`: `DEFAULT_ELEMENT_CAP`. -/
def new : Contents := { cap := 8000, cap_pos := by decide }

def blockType (c : Contents) : Option BlockType := c.held.head?.map OwnedElement.blockType

/-- `can_add_node`, `can_add_way` and `can_add_relation`. -/
def canAdd (c : Contents) (kind : BlockType) : Bool :=
  match c.blockType with
  | none => true
  | some held => decide (held = kind) && !decide (c.cap ≤ c.held.length)

def setPoison (c : Contents) (reason : String) : Contents :=
  { c with poison := c.poison.or (some reason) }

/-- The text of a refusal, which reads the kind held and the cap. -/
def refusal (c : Contents) (attempted : BlockType) (id : Int64) : String :=
  Builder.refusal { Builder.withElementCap c.cap c.cap_pos with blockType := c.blockType }
    attempted id

/-- `add_node`, `add_way` and `add_relation`. -/
def add (c : Contents) (e : OwnedElement) : Contents :=
  match e.unknownType with
  | some raw => c.setPoison (Builder.unknownTypeMsg e.id raw)
  | none =>
    if !c.canAdd e.blockType then c.setPoison (c.refusal e.blockType e.id)
    else { c with held := c.held ++ [e] }

/-- `take_owned` and `lend_encoded`: the elements of the block, none when it is empty. -/
def take (c : Contents) : Except BuildError (List OwnedElement × Contents) :=
  match c.poison with
  | some reason => .error (.invalidData ("BlockBuilder refused to encode a block: " ++ reason))
  | none => .ok (c.held, { c with held := [] })

end Contents

lemma add_unknown {raw : Int32} (h : e.unknownType = some raw) :
    c.add e = c.setPoison (Builder.unknownTypeMsg e.id raw) := by
  unfold Contents.add
  rw [h]

lemma add_taken (hknown : e.unknownType = none) (hcan : c.canAdd e.blockType = true) :
    c.add e = { c with held := c.held ++ [e] } := by
  unfold Contents.add
  rw [hknown]
  simp only [hcan, Bool.not_true, Bool.false_eq_true, if_false]

lemma add_refused (hknown : e.unknownType = none) (hcan : ¬c.canAdd e.blockType = true) :
    c.add e = c.setPoison (c.refusal e.blockType e.id) := by
  unfold Contents.add
  rw [hknown]
  simp only [hcan, Bool.not_false, if_true]

/-- A builder and the blocks taken from it so far. -/
structure Output where
  bb : Contents := .new
  blocks : List (List OwnedElement) := []

namespace Output

/-- `flush_local`, and the take at the end of a run; an empty block is no block. -/
def flush (o : Output) : Except BuildError Output :=
  o.bb.take.map fun p => ⟨p.2, if p.1 = [] then o.blocks else o.blocks ++ [p.1]⟩

/-- `ensure_node_capacity_local`, `ensure_way_capacity_local` and
`ensure_relation_capacity_local`. -/
def ensureCapacity (o : Output) (kind : BlockType) : Except BuildError Output :=
  if o.bb.canAdd kind then .ok o else o.flush

/-- An element added once the builder can take it. -/
def write (o : Output) (e : OwnedElement) : Except BuildError Output :=
  (o.ensureCapacity e.blockType).map fun o => { o with bb := o.bb.add e }

/-- The elements of the blocks, and of the block being built. -/
def content (o : Output) : List OwnedElement := o.blocks.flatten ++ o.bb.held

end Output

/-- No member of it is of unknown type. -/
def Encodable (e : OwnedElement) : Prop := e.unknownType = none

instance (e : OwnedElement) : Decidable (Encodable e) := by
  unfold Encodable
  infer_instance

/-- What was added is there, in order, or one of the elements has poisoned the builder. -/
structure Holds (o : Output) (es : List OwnedElement) : Prop where
  clean : (∀ e ∈ es, Encodable e) → o.bb.poison = none ∧ o.content = es
  poisoned : (∃ e ∈ es, ¬Encodable e) → o.bb.poison ≠ none

lemma holds_new : Holds {} [] where
  clean _ := ⟨rfl, rfl⟩
  poisoned h := by simp at h

lemma Holds.encodable (h : Holds o es) (hpoison : o.bb.poison = none) : ∀ e ∈ es, Encodable e := by
  intro e he
  by_contra hbad
  exact h.poisoned ⟨e, he, hbad⟩ hpoison

lemma take_eq_ok {c' : Contents} {held : List OwnedElement} :
    c.take = .ok (held, c') ↔ c.poison = none ∧ held = c.held ∧ c' = { c with held := [] } := by
  unfold Contents.take
  cases c.poison with
  | some reason => simp
  | none => simp [eq_comm]

/-- Taking a block changes where the elements are, not which. -/
theorem Holds.flush {o' : Output} (h : Holds o es) (hflush : o.flush = .ok o') :
    (∀ e ∈ es, Encodable e) ∧ Holds o' es ∧ o'.bb.held = [] ∧ o'.blocks.flatten = es := by
  obtain ⟨⟨held, bb⟩, htake, rfl⟩ := map_eq_ok.mp hflush
  obtain ⟨hpoison, rfl, rfl⟩ := take_eq_ok.mp htake
  have hes := h.encodable hpoison
  have hcontent := (h.clean hes).2
  have hblocks : (if o.bb.held = [] then o.blocks else o.blocks ++ [o.bb.held]).flatten = es := by
    rw [← hcontent, Output.content]
    split
    · next hheld => rw [hheld, append_nil]
    · rw [flatten_append, flatten_singleton]
  refine ⟨hes, ⟨fun _ => ⟨hpoison, ?_⟩, fun ⟨e, he, hbad⟩ => absurd (hes e he) hbad⟩, rfl, hblocks⟩
  rw [Output.content, append_nil]
  exact hblocks

lemma Holds.flush_ok (h : Holds o es) (hes : ∀ e ∈ es, Encodable e) : ∃ o', o.flush = .ok o' :=
  ⟨_, map_eq_ok.mpr ⟨(o.bb.held, _), take_eq_ok.mpr ⟨(h.clean hes).1, rfl, rfl⟩, rfl⟩⟩

lemma canAdd_of_held_nil (h : c.held = []) (kind : BlockType) : c.canAdd kind = true := by
  unfold Contents.canAdd Contents.blockType
  rw [h]
  rfl

lemma Holds.ensureCapacity {o' : Output} {kind : BlockType} (h : Holds o es)
    (hensure : o.ensureCapacity kind = .ok o') : Holds o' es ∧ o'.bb.canAdd kind = true := by
  unfold Output.ensureCapacity at hensure
  split at hensure
  · next hcan =>
    cases hensure
    exact ⟨h, hcan⟩
  · obtain ⟨-, hholds, hheld, -⟩ := h.flush hensure
    exact ⟨hholds, canAdd_of_held_nil hheld kind⟩

lemma Holds.ensureCapacity_ok (h : Holds o es) (hes : ∀ e ∈ es, Encodable e) (kind : BlockType) :
    ∃ o', o.ensureCapacity kind = .ok o' := by
  unfold Output.ensureCapacity
  split
  · exact ⟨o, rfl⟩
  · exact h.flush_ok hes

/-- An element that a block can take goes behind the others. -/
theorem Holds.add (h : Holds o es) (hcan : o.bb.canAdd e.blockType = true) :
    Holds { o with bb := o.bb.add e } (es ++ [e]) := by
  cases he : e.unknownType with
  | some raw =>
    have hbad : ¬Encodable e := by
      rw [Encodable, he]
      exact nofun
    have hpoison : (o.bb.add e).poison ≠ none := by
      rw [add_unknown he, Contents.setPoison]
      cases o.bb.poison <;> simp
    refine ⟨fun hes => absurd (hes e (by simp)) hbad, fun _ => hpoison⟩
  | none =>
    refine ⟨fun hes => ?_, ?_⟩
    · obtain ⟨hpoison, hcontent⟩ := h.clean fun x hx => hes x (mem_append_left _ hx)
      rw [add_taken he hcan]
      refine ⟨hpoison, ?_⟩
      rw [← hcontent, Output.content, Output.content, append_assoc]
    · rintro ⟨x, hx, hbad⟩
      rw [add_taken he hcan]
      rcases mem_append.mp hx with hold | hnew
      · exact h.poisoned ⟨x, hold, hbad⟩
      · rw [mem_singleton.mp hnew] at hbad
        exact absurd he hbad

lemma Holds.write {o' : Output} (h : Holds o es) (hwrite : o.write e = .ok o') :
    Holds o' (es ++ [e]) := by
  obtain ⟨o₁, hensure, rfl⟩ := map_eq_ok.mp hwrite
  obtain ⟨hholds, hcan⟩ := h.ensureCapacity hensure
  exact hholds.add hcan

lemma Holds.write_ok (h : Holds o es) (hes : ∀ e ∈ es, Encodable e) (e : OwnedElement) :
    ∃ o', o.write e = .ok o' := by
  obtain ⟨o₁, hensure⟩ := h.ensureCapacity_ok hes e.blockType
  exact ⟨_, map_eq_ok.mpr ⟨o₁, hensure, rfl⟩⟩

variable {ph : Crate}

/-- The add the builder of bytes gets for an element. -/
def addTo (ph : Crate) (b : Builder) : OwnedElement → Builder
  | .node n => n.add b
  | .way w => w.add ph b
  | .relation r => r.add ph b

/-- A builder that stands where the contents do. -/
structure Agrees (c : Contents) (b : Builder) : Prop where
  cap : b.cap = c.cap
  blockType : b.blockType = c.blockType
  count : b.count = c.held.length
  poison : b.poison = c.poison

lemma Agrees.canAdd (h : Agrees c b) (kind : BlockType) : b.canAdd kind = c.canAdd kind := by
  unfold Contents.canAdd
  rw [← h.blockType, ← h.cap, ← h.count]
  rfl

lemma Agrees.refusal (h : Agrees c b) (kind : BlockType) (id : Int64) :
    b.refusal kind id = c.refusal kind id := by
  unfold Contents.refusal Builder.refusal
  simp only [h.cap, h.blockType, Builder.withElementCap]

lemma Agrees.setPoison (h : Agrees c b) (reason : String) :
    Agrees (c.setPoison reason) (b.setPoison reason) where
  cap := h.cap
  blockType := h.blockType
  count := h.count
  poison := by
    unfold Builder.setPoison Contents.setPoison
    rw [h.poison]

/-- A block that can take an element is of its kind from then on. -/
theorem blockType_append (hcan : c.canAdd e.blockType = true) :
    ({ c with held := c.held ++ [e] } : Contents).blockType = some e.blockType := by
  unfold Contents.canAdd at hcan
  unfold Contents.blockType at hcan ⊢
  cases hheld : c.held with
  | nil => rfl
  | cons first rest =>
    rw [hheld] at hcan
    simp only [head?_cons, Option.map_some, Bool.and_eq_true, decide_eq_true_eq] at hcan
    simp [hcan.1]

/-- The locations of a way, where it has any, are as many as its refs. -/
def Located : OwnedElement → Prop
  | .way w => ∀ ls ∈ w.locations, w.refs.length = ls.length
  | _ => True

/-- A builder with one element more and nothing refused. -/
structure Grown (b : Builder) (e : OwnedElement) (b' : Builder) : Prop where
  cap : b'.cap = b.cap
  blockType : b'.blockType = some e.blockType
  count : b'.count = b.count + 1
  poison : b'.poison = b.poison

/-- What an add does to the builder of bytes: it poisons it, or the element is in. -/
theorem addTo_cases (b : Builder) (e : OwnedElement) :
    (¬ Located e ∧ ∃ reason, addTo ph b e = b.setPoison reason) ∨
      (∃ raw, e.unknownType = some raw ∧
        addTo ph b e = b.setPoison (Builder.unknownTypeMsg e.id raw)) ∨
      (e.unknownType = none ∧ ¬ b.canAdd e.blockType = true ∧
        addTo ph b e = b.refuse e.blockType e.id) ∨
      (Located e ∧ e.unknownType = none ∧ b.canAdd e.blockType = true ∧
        Grown b e (addTo ph b e)) := by
  cases e with
  | node n =>
    have hn : addTo ph b (.node n) = b.addNode n.id n.lat n.lon n.tags n.metadata := rfl
    rw [hn, Builder.addNode]
    by_cases hcan : b.canAdd .denseNodes = true
    · refine .inr (.inr (.inr ⟨trivial, rfl, hcan, ?_⟩))
      simp only [hcan, Bool.not_true, Bool.false_eq_true, if_false]
      cases n.metadata <;> exact ⟨rfl, rfl, rfl, rfl⟩
    · exact .inr (.inr (.inl ⟨rfl, hcan, if_pos (by simp [hcan])⟩))
  | way w =>
    by_cases hloc : Located (.way w)
    · have hw : addTo ph b (.way w) = if !b.canAdd .ways then b.refuse .ways w.id
          else b.push .ways w.id (w.encode ph b.strings) := by
        cases hls : w.locations with
        | none => simp only [addTo, WayAdd.add, WayAdd.encode, hls, Builder.addWay]
        | some ls =>
          simp only [addTo, WayAdd.add, WayAdd.encode, hls]
          exact if_neg (not_not.mpr (hloc ls hls))
      rw [hw]
      by_cases hcan : b.canAdd .ways = true
      · rw [if_neg (by simp [hcan])]
        exact .inr (.inr (.inr ⟨hloc, rfl, hcan, ⟨rfl, rfl, rfl, rfl⟩⟩))
      · exact .inr (.inr (.inl ⟨rfl, hcan, if_pos (by simp [hcan])⟩))
    · obtain ⟨ls, hls, hne⟩ : ∃ ls ∈ w.locations, w.refs.length ≠ ls.length := by
        simpa [Located] using hloc
      refine .inl ⟨hloc, Builder.locationCountMsg w.id w.refs.length ls.length, ?_⟩
      simp only [addTo, WayAdd.add, Option.mem_def.mp hls]
      exact if_pos hne
  | relation r =>
    have hr : addTo ph b (.relation r) = b.addRelation ph r.id r.tags r.members r.metadata := rfl
    rw [hr, Builder.addRelation]
    cases hknown : Builder.unknownType r.members with
    | some raw => exact .inr (.inl ⟨raw, hknown, rfl⟩)
    | none =>
      by_cases hcan : b.canAdd .relations = true
      · refine .inr (.inr (.inr ⟨trivial, hknown, hcan, ?_⟩))
        simp only [hcan, Bool.not_true, Bool.false_eq_true, if_false]
        exact ⟨rfl, rfl, rfl, rfl⟩
      · exact .inr (.inr (.inl ⟨hknown, hcan, if_pos (by simp [hcan])⟩))

lemma Agrees.add (h : Agrees c b) (hloc : Located e) : Agrees (c.add e) (addTo ph b e) := by
  rcases addTo_cases b e with ⟨hmis, -⟩ | ⟨raw, hraw, heq⟩ | ⟨hknown, hcan, heq⟩ |
    ⟨-, hknown, hcan, hgrown⟩
  · exact absurd hloc hmis
  · rw [heq, add_unknown hraw]
    exact h.setPoison _
  · rw [h.canAdd] at hcan
    rw [heq, add_refused hknown hcan, ← h.refusal]
    exact h.setPoison _
  · rw [h.canAdd] at hcan
    rw [add_taken hknown hcan]
    refine ⟨hgrown.cap.trans h.cap, hgrown.blockType.trans (blockType_append hcan).symm, ?_,
      hgrown.poison.trans h.poison⟩
    rw [hgrown.count, h.count, length_append]
    rfl

lemma Agrees.addAll (h : Agrees c b) (hloc : ∀ e ∈ es, Located e) :
    Agrees (es.foldl Contents.add c) (es.foldl (addTo ph) b) := by
  induction es generalizing c b with
  | nil => exact h
  | cons e es ih =>
    rw [forall_mem_cons] at hloc
    exact ih (h.add hloc.1) hloc.2

lemma addTo_clean (h : (addTo ph b e).poison = none) : b.poison = none ∧ Located e := by
  have hnot : ∀ reason, addTo ph b e ≠ b.setPoison reason := by
    intro reason heq
    rw [heq, Builder.setPoison] at h
    simp at h
  rcases addTo_cases b e with ⟨-, _, heq⟩ | ⟨_, -, heq⟩ | ⟨-, -, heq⟩ | ⟨hloc, -, -, hgrown⟩
  · exact absurd heq (hnot _)
  · exact absurd heq (hnot _)
  · exact absurd heq (hnot _)
  · exact ⟨hgrown.poison ▸ h, hloc⟩

lemma located_of_clean (h : (es.foldl (addTo ph) b).poison = none) :
    b.poison = none ∧ ∀ e ∈ es, Located e := by
  induction es generalizing b with
  | nil => exact ⟨h, by simp⟩
  | cons e es ih =>
    obtain ⟨hnext, hes⟩ := ih h
    obtain ⟨hclean, he⟩ := addTo_clean hnext
    exact ⟨hclean, forall_mem_cons.mpr ⟨he, hes⟩⟩

/-- What one block may hold: elements of one kind, no more than the cap, no member of
unknown type among them. -/
def Fits (cap : Nat) (es : List OwnedElement) : Prop :=
  (∀ e ∈ es, Encodable e) ∧ (∀ e ∈ es, some e.blockType = es.head?.map OwnedElement.blockType) ∧
    es.length ≤ cap

lemma fits_append (hc : c.held = es) : Fits c.cap (es ++ [e]) ↔
    Fits c.cap es ∧ Encodable e ∧ c.canAdd e.blockType = true := by
  have hpos := c.cap_pos
  unfold Fits Contents.canAdd Contents.blockType
  rw [hc]
  cases es with
  | nil => simp [Nat.one_le_iff_ne_zero, hpos.ne']
  | cons first es =>
    simp only [cons_append, forall_mem_cons, forall_mem_append, head?_cons, length_cons,
      length_append]
    grind

lemma add_cap (c : Contents) (e : OwnedElement) : (c.add e).cap = c.cap := by
  unfold Contents.add
  split
  · rfl
  · split <;> rfl

lemma add_clean_iff : (c.add e).poison = none ↔
    c.poison = none ∧ Encodable e ∧ c.canAdd e.blockType = true := by
  unfold Contents.add Contents.setPoison Encodable
  cases e.unknownType with
  | some raw => simp
  | none => cases c.canAdd e.blockType <;> simp

/-- A builder that was given a list holds all of it, or it is poisoned. -/
theorem addAll_spec (hc : c.held = []) (hclean : c.poison = none) (es : List OwnedElement) :
    (es.foldl Contents.add c).cap = c.cap ∧
      ((es.foldl Contents.add c).poison = none ↔ Fits c.cap es) ∧
      ((es.foldl Contents.add c).poison = none → (es.foldl Contents.add c).held = es) := by
  induction es using reverseRecOn with
  | nil => exact ⟨rfl, by simp [hclean, Fits], fun _ => hc⟩
  | append_singleton es e ih =>
    obtain ⟨hcap, hiff, hheld⟩ := ih
    rw [foldl_append, foldl_cons, foldl_nil, add_cap, add_clean_iff]
    refine ⟨hcap, ⟨?_, ?_⟩, ?_⟩
    · rintro ⟨hclean, he⟩
      rw [← hcap, fits_append (hheld hclean), hcap]
      exact ⟨hiff.mp hclean, he⟩
    · intro h
      have hclean := hiff.mpr ((@fits_append { c with held := es } e es rfl).mp h).1
      rw [← hcap, fits_append (hheld hclean)] at h
      exact ⟨hclean, h.2⟩
    · rintro ⟨hclean, hknown, hcan⟩
      rw [add_taken hknown hcan, hheld hclean]

section Blocks

variable {cap : Nat} (hcap : 0 < cap)

/-- A new builder that was given a list. -/
theorem addTo_new (es : List OwnedElement) :
    let b := es.foldl (addTo ph) (.withElementCap cap hcap)
    (b.poison = none ↔ Fits cap es ∧ ∀ e ∈ es, Located e) ∧
      (b.poison = none → b.cap = cap ∧ b.blockType = es.head?.map OwnedElement.blockType) := by
  intro b
  have hagrees : (∀ e ∈ es, Located e) → Agrees (es.foldl Contents.add ⟨cap, hcap, [], none⟩) b :=
    Agrees.addAll ⟨rfl, rfl, rfl, rfl⟩
  obtain ⟨hcap, hfits, hheld⟩ := @addAll_spec ⟨cap, hcap, [], none⟩ rfl rfl es
  refine ⟨⟨fun hclean => ?_, fun h => ?_⟩, fun hclean => ?_⟩
  · have hloc := (located_of_clean hclean).2
    exact ⟨hfits.mp ((hagrees hloc).poison.symm.trans hclean), hloc⟩
  · exact (hagrees h.2).poison.trans (hfits.mpr h.1)
  · have h := hagrees (located_of_clean hclean).2
    refine ⟨h.cap.trans hcap, ?_⟩
    rw [h.blockType, Contents.blockType, hheld (h.poison.symm.trans hclean)]

/-- The block of a clean builder, and the builder it leaves: as it was when new. -/
lemma take_ok {block : Option Bytes} {b' : Builder} (h : b.take ph = .ok (block, b')) :
    b.poison = none ∧ (block = none ↔ b.blockType = none) ∧
      (b.cap = cap → b' = .withElementCap cap hcap) := by
  obtain ⟨⟨block, next⟩, hblock, hpair⟩ := map_eq_ok.mp h
  cases hpair
  unfold Builder.encodeBlock at hblock
  cases hpoison : b.poison with
  | some reason => simp [hpoison] at hblock
  | none =>
    have hreset : b.cap = cap → b.reset = .withElementCap cap hcap := by
      rintro rfl
      rw [Builder.reset, hpoison]
      rfl
    cases htype : b.blockType with
    | none =>
      simp only [hpoison, htype, Except.ok.injEq, Prod.mk.injEq] at hblock
      obtain ⟨rfl, rfl⟩ := hblock
      exact ⟨rfl, by simp, hreset⟩
    | some kind =>
      simp only [hpoison, htype] at hblock
      obtain ⟨table, -, hblock⟩ := bind_eq_ok.mp hblock
      obtain ⟨group, -, hblock⟩ := map_eq_ok.mp hblock
      cases hblock
      exact ⟨rfl, by simp, hreset⟩

/-- The block that a new builder gives for some elements. -/
def blockOf (ph : Crate) (es : List OwnedElement) : Except BuildError (Option Bytes) :=
  ((es.foldl (addTo ph) (.withElementCap cap hcap)).take ph).map Prod.fst

/-- The blocks of batches that are added to one builder and taken by turns. -/
def blocks (ph : Crate) : Builder → List (List OwnedElement) →
    Except BuildError (List (Option Bytes))
  | _, [] => .ok []
  | b, es :: batches => do
    let (block, b) ← (es.foldl (addTo ph) b).take ph
    let rest ← blocks ph b batches
    .ok (block :: rest)

/-- A builder that is reused gives each batch the block a new one gives it. Only a batch that does
not fit a block poisons it and gets none; one that fits is left out only when it is empty. -/
theorem builder_reused (batches : List (List OwnedElement)) :
    blocks ph (.withElementCap cap hcap) batches = batches.mapM (blockOf hcap ph) ∧
      ∀ es, ((es.foldl (addTo ph) (.withElementCap cap hcap)).poison = none ↔
          Fits cap es ∧ ∀ e ∈ es, Located e) ∧
        ∀ block, blockOf hcap ph es = .ok block →
          Fits cap es ∧ (∀ e ∈ es, Located e) ∧ (block = none ↔ es = []) := by
  refine ⟨?_, fun es => ⟨(addTo_new hcap es).1, fun block hblock => ?_⟩⟩
  · induction batches with
    | nil => rfl
    | cons es batches ih =>
      rw [blocks, mapM_cons, blockOf]
      cases htake : (es.foldl (addTo ph) (.withElementCap cap hcap)).take ph with
      | error e => rfl
      | ok p =>
        obtain ⟨block, next⟩ := p
        obtain ⟨hclean, -, hnew⟩ := take_ok hcap htake
        rw [hnew ((addTo_new hcap es).2 hclean).1]
        simp only [ok_bind, ih]
        rfl
  · obtain ⟨p, htake, rfl⟩ := map_eq_ok.mp hblock
    obtain ⟨hclean, hnone, -⟩ := take_ok hcap htake
    obtain ⟨hfits, htype⟩ := addTo_new hcap es
    obtain ⟨hall, hloc⟩ := hfits.mp hclean
    refine ⟨hall, hloc, hnone.trans ?_⟩
    rw [(htype hclean).2]
    simp

/-- Two ways fill a block of two; a node behind a way gets no block. -/
theorem builder_reused_two : ([⟨5, [], [1], some [(2, 3)], none⟩, ⟨7, [], [], none, none⟩].map
      OwnedElement.way |>.foldl (addTo Reference.crate) (.withElementCap 2 Nat.two_pos)).poison =
        none ∧ ∀ block, blockOf Nat.two_pos Reference.crate
      [.way ⟨7, [], [], none, none⟩, .node ⟨9, 1, 2, [], none⟩] ≠ .ok block := by
  have h := (@builder_reused Reference.crate 2 Nat.two_pos []).2
  refine ⟨(h _).1.mpr (by simp [Fits, Encodable, Located, OwnedElement.unknownType,
    OwnedElement.blockType]), fun block hblock => ?_⟩
  have hkind := ((h _).2 block hblock).1.2.1 (.node ⟨9, 1, 2, [], none⟩) (by simp)
  cases hkind

end Blocks

end BuilderContents
