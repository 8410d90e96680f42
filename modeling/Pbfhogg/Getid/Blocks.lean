import Pbfhogg.Getid.Filter
import Pbfhogg.TagsFilter.Selection

/-!
# What a block leaves in the output

The sets of ids, the probe, the elements a block emits and what is reported of them.
-/

namespace Getid

open OsmId BlobMeta BlobFilter Fallible IdSets List
open TagsFilter (Element Blob Error Result refusePartialIndex decodeBlock requireIndexdata
  elementsOf mem_elementsOf)

variable {ρ : Type}

def ElementIds.Valid (s : ElementIds) : Prop := ∀ kind, (s.of kind).Valid

lemma valid_empty : ({} : ElementIds).Valid := by
  intro kind
  cases kind with
  | node | way | relation => exact valid_new

lemma get_empty (kind : ElementKind) (id : Int64) : (({} : ElementIds).of kind).get id = false := by
  cases kind with
  | node | way | relation => exact get_new id

lemma of_insert (s : ElementIds) (kind k : ElementKind) (id : Int64) :
    (s.insert kind id).of k = if k = kind then (s.of k).set id else s.of k := by
  cases kind <;> cases k <;> rfl

variable {s : ElementIds}

lemma ElementIds.Valid.insert (h : s.Valid) (kind : ElementKind) (id : Int64) :
    (s.insert kind id).Valid := by
  intro k
  rw [of_insert]
  split
  · exact valid_set (h k) id
  · exact h k

lemma get_insert (h : s.Valid) (kind k : ElementKind) (id x : Int64) :
    ((s.insert kind id).of k).get x = true ↔
      (s.of k).get x = true ∨ ((k, x) = (kind, id) ∧ 0 ≤ id.toInt) := by
  rw [of_insert, Prod.mk.injEq]
  by_cases hk : k = kind
  · rw [if_pos hk, get_set (h k)]
    tauto
  · rw [if_neg hk]
    tauto

/-- Keys added one by one. -/
theorem foldl_insert (keys : List (ElementKind × Int64)) (h : s.Valid) :
    (keys.foldl (fun s key => s.insert key.1 key.2) s).Valid ∧
      ∀ k x, ((keys.foldl (fun s key => s.insert key.1 key.2) s).of k).get x = true ↔
        (s.of k).get x = true ∨ ((k, x) ∈ keys ∧ 0 ≤ x.toInt) := by
  induction keys generalizing s with
  | nil => exact ⟨h, fun k x => by simp⟩
  | cons key keys ih =>
    obtain ⟨hvalid, hget⟩ := ih (h.insert key.1 key.2)
    refine ⟨hvalid, fun k x => ?_⟩
    rw [foldl_cons, hget, get_insert h, mem_cons]
    constructor
    · rintro ((hold | ⟨heq, hpos⟩) | ⟨hmem, hpos⟩)
      · exact .inl hold
      · cases heq
        exact .inr ⟨.inl rfl, hpos⟩
      · exact .inr ⟨.inr hmem, hpos⟩
    · rintro (hold | ⟨rfl | hmem, hpos⟩)
      · exact .inl (.inl hold)
      · exact .inl (.inr ⟨rfl, hpos⟩)
      · exact .inr ⟨hmem, hpos⟩

lemma wants_of_get {kind : ElementKind} {id : Int64} (h : (s.of kind).get id = true) :
    s.blobFilter.wants kind = true := by
  cases kind with
  | node | way | relation => exact hasAny_of_get h

lemma see_fields (p : SelectProbe) (e : Element ρ) : (p.see e).ids = p.ids ∧
    (p.see e).pulled = p.pulled ∧ (p.see e).anyNodes = p.anyNodes := by
  unfold SelectProbe.see
  cases e.kind <;> exact ⟨rfl, rfl, rfl⟩

/-- A node can only be selected when there is one to select. -/
theorem anyNodes_of_selected {ids : ElementIds} {pulled : Option ElementIds} {id : Int64}
    (h : selected ids pulled .node id = true) : (SelectProbe.new ids pulled).anyNodes = true := by
  rcases Bool.or_eq_true_iff.mp h with hids | hpulled
  · exact Bool.or_eq_true_iff.mpr (.inl (hasAny_of_get hids))
  · obtain ⟨p, rfl, hp⟩ := any_some hpulled
    exact Bool.or_eq_true_iff.mpr (.inr (hasAny_of_get hp))

lemma see_hit {p : SelectProbe} (h : p.anyNodes = (SelectProbe.new p.ids p.pulled).anyNodes)
    (e : Element ρ) : (p.see e).hit = (p.hit || isDominated p.ids p.pulled e) := by
  have hkey : isDominated p.ids p.pulled e = selected p.ids p.pulled e.kind e.id := rfl
  rw [hkey]
  unfold SelectProbe.see
  cases hkind : e.kind with
  | node =>
    by_cases hsel : selected p.ids p.pulled .node e.id = true
    · have hany := h.trans (anyNodes_of_selected hsel)
      rw [hany, Bool.true_and]
    · rw [Bool.eq_false_iff.mpr hsel, Bool.and_false]
  | way => rfl
  | relation => rfl

lemma foldl_see (elements : List (Element ρ)) {p : SelectProbe}
    (h : p.anyNodes = (SelectProbe.new p.ids p.pulled).anyNodes) :
    (elements.foldl SelectProbe.see p).hit =
      (p.hit || elements.any (isDominated p.ids p.pulled)) := by
  induction elements generalizing p with
  | nil => simp
  | cons e elements ih =>
    obtain ⟨hids, hpulled, hany⟩ := see_fields p e
    rw [foldl_cons, ih (by rw [hids, hpulled, hany, h]), see_hit h, hids, hpulled,
      any_cons, Bool.or_assoc]

section

variable {m : Mode ρ}

/-- What is asked for, whatever pulls it in. -/
def requested (ids : ElementIds) (e : Element ρ) : Bool := (ids.of e.kind).get e.id

/-- The element with what the encoder is handed of its rest, where that can be read. -/
def encoded (read : Element ρ → Except PbfError ρ) (e : Element ρ) : Element ρ :=
  match read e with
  | .ok rest => { e with rest := rest }
  | .error _ => e

lemma encoded_key (read : Element ρ → Except PbfError ρ) (e : Element ρ) :
    (encoded read e).kind = e.kind ∧ (encoded read e).id = e.id := by
  unfold encoded
  split
  · exact ⟨rfl, rfl⟩
  · exact ⟨rfl, rfl⟩

lemma key_encoded (read : Element ρ → Except PbfError ρ) (e : Element ρ) :
    elementKey (encoded read e) = elementKey e :=
  Prod.ext (encoded_key read e).1 (encoded_key read e).2

lemma requested_encoded (read : Element ρ → Except PbfError ρ) (ids : ElementIds)
    (e : Element ρ) : requested ids (encoded read e) = requested ids e := by
  rw [requested, (encoded_key read e).1, (encoded_key read e).2, requested]

def Mode.kept (m : Mode ρ) (e : Element ρ) : Element ρ := m.written (encoded m.read e)

/-- What is demanded of the elements of a block. -/
def Mode.Reads (m : Mode ρ) (elements : List (Element ρ)) : Prop :=
  ∀ e ∈ elements, m.emits e = true → ∃ rest, m.read e = .ok rest

/-- A step that only reads what it emits. -/
def Mode.push (m : Mode ρ) (acc : List (Element ρ) × BlockOutcome) (e : Element ρ) :
    List (Element ρ) × BlockOutcome :=
  if m.emits e then
    (acc.1 ++ [m.kept e],
      { acc.2.count e.kind with
        found := if m.reportFound && m.included then recordFound acc.2.found m.ids e
          else acc.2.found })
  else acc

lemma processElement_ok (acc r : List (Element ρ) × BlockOutcome) (e : Element ρ) :
    processElement m acc e = .ok r ↔
      (m.emits e = true → ∃ rest, m.read e = .ok rest) ∧ r = m.push acc e := by
  unfold processElement Mode.push
  cases hemits : m.emits e with
  | false =>
    simp only [Bool.not_false, if_true, Bool.false_eq_true, false_implies, true_and, if_false,
      Except.ok.injEq]
    exact eq_comm
  | true =>
    simp only [Bool.not_true, Bool.false_eq_true, if_false, if_true, true_implies]
    rw [bind_eq_ok]
    constructor
    · rintro ⟨rest, hrest, h⟩
      cases h
      exact ⟨⟨rest, hrest⟩, by rw [Mode.kept, encoded, hrest]⟩
    · rintro ⟨⟨rest, hrest⟩, rfl⟩
      exact ⟨rest, hrest, by rw [Mode.kept, encoded, hrest]; rfl⟩

/-- What a block of elements becomes. -/
def Mode.block (m : Mode ρ) (elements : List (Element ρ)) : List (Element ρ) × BlockOutcome :=
  elements.foldl m.push ([], {})

lemma processBlock_ok {elements : List (Element ρ)} {r : List (Element ρ) × BlockOutcome} :
    processBlock m elements = .ok r ↔ m.Reads elements ∧ r = m.block elements :=
  foldlM_eq_ok (fun e _ acc r => processElement_ok acc r e) _ _

/-- How many elements of a kind an outcome counts. -/
def BlockOutcome.ofKind (o : BlockOutcome) : ElementKind → Nat
  | .node => o.nodes
  | .way => o.ways
  | .relation => o.relations

lemma ofKind_count (o : BlockOutcome) (found : List (ElementKind × Int64))
    (kind k : ElementKind) : ({ o.count kind with found := found } : BlockOutcome).ofKind k =
      o.ofKind k + if kind = k then 1 else 0 := by
  cases kind <;> cases k <;> rfl

/-- The keys of a block that are asked for and found. -/
def Mode.foundKeys (m : Mode ρ) (elements : List (Element ρ)) : List (ElementKind × Int64) :=
  if m.reportFound && m.included then
    ((elements.filter m.emits).filter (requested m.ids)).map elementKey
  else []

lemma recordFound_eq (found : List (ElementKind × Int64)) (ids : ElementIds) (e : Element ρ) :
    recordFound found ids e =
      if requested ids e = true then found ++ [elementKey e] else found := rfl

lemma foldl_push (elements : List (Element ρ)) (acc : List (Element ρ) × BlockOutcome) :
    (elements.foldl m.push acc).1 = acc.1 ++ (elements.filter m.emits).map m.kept ∧
      (∀ kind, (elements.foldl m.push acc).2.ofKind kind = acc.2.ofKind kind +
        (elements.filter m.emits).countP fun e => e.kind = kind) ∧
      (elements.foldl m.push acc).2.found = acc.2.found ++ m.foundKeys elements := by
  induction elements generalizing acc with
  | nil => simp [Mode.foundKeys]
  | cons e elements ih =>
    obtain ⟨hwritten, hcounts, hfound⟩ := ih (m.push acc e)
    rw [foldl_cons, hwritten, hfound]
    by_cases hemits : m.emits e = true
    · refine ⟨by simp [Mode.push, hemits], fun kind => ?_, ?_⟩
      · rw [hcounts, Mode.push, if_pos hemits, ofKind_count, filter_cons_of_pos hemits, countP_cons]
        simp only [decide_eq_true_eq]
        omega
      · rw [Mode.push, if_pos hemits]
        simp only [Mode.foundKeys, filter_cons_of_pos hemits]
        by_cases hreport : (m.reportFound && m.included) = true
        · rw [if_pos hreport, if_pos hreport, if_pos hreport, recordFound_eq]
          by_cases hreq : requested m.ids e = true
          · rw [filter_cons_of_pos hreq, if_pos hreq, map_cons, append_assoc]
            rfl
          · rw [filter_cons_of_neg hreq, if_neg hreq]
        · simp [hreport]
    · have hpush : m.push acc e = acc := if_neg hemits
      rw [hpush] at hcounts ⊢
      rw [filter_cons_of_neg hemits]
      refine ⟨rfl, hcounts, ?_⟩
      rw [Mode.foundKeys, Mode.foundKeys, filter_cons_of_neg hemits]

lemma kept_key (e : Element ρ) : (m.kept e).kind = e.kind ∧ (m.kept e).id = e.id := by
  rw [← (encoded_key m.read e).1, ← (encoded_key m.read e).2]
  unfold Mode.kept Mode.written Element.stripped
  split
  · exact ⟨rfl, rfl⟩
  · exact ⟨rfl, rfl⟩

end

def GetidStats.ofKind (stats : GetidStats) : ElementKind → Nat
  | .node => stats.nodesWritten
  | .way => stats.waysWritten
  | .relation => stats.relationsWritten

lemma ofKind_addOutcome (stats : GetidStats) (o : BlockOutcome) (kind : ElementKind) :
    (stats.addOutcome o).ofKind kind = stats.ofKind kind + o.ofKind kind := by
  cases kind <;> rfl

/-- The elements that were encoded again. -/
def Output.encoded (out : Output ρ) : List (Element ρ) :=
  out.pieces.flatMap fun
    | .copied _ => []
    | .encoded elements => elements

/-- The elements of the frames that were copied. -/
def Output.copied (out : Output ρ) : List (Element ρ) :=
  out.pieces.flatMap fun
    | .copied b => b.elements
    | .encoded _ => []

variable (out : Output ρ)

lemma content_perm : (out.encoded ++ out.copied).Perm out.content := by
  obtain ⟨pieces, stats⟩ := out
  simp only [Output.encoded, Output.copied, Output.content]
  induction pieces with
  | nil => exact .nil
  | cons p pieces ih =>
    simp only [flatMap_cons]
    cases p with
    | copied b =>
      simp only [Piece.elements, nil_append]
      refine List.Perm.trans ?_ (ih.append_left b.elements)
      rw [← append_assoc, ← append_assoc]
      exact perm_append_comm.append_right _
    | encoded elements =>
      simp only [Piece.elements, nil_append, append_assoc]
      exact ih.append_left elements

lemma addBlock_lists (r : List (Element ρ) × BlockOutcome) :
    (out.addBlock r).content = out.content ++ r.1 ∧
      (out.addBlock r).encoded = out.encoded ++ r.1 ∧ (out.addBlock r).copied = out.copied := by
  simp [Output.addBlock, Output.content, Output.encoded, Output.copied, Piece.elements]

lemma copy_lists (b : Blob ρ) (idx : BlobIndex) :
    (out.copy b idx).content = out.content ++ b.elements ∧ (out.copy b idx).encoded = out.encoded ∧
      (out.copy b idx).copied = out.copied ++ b.elements := by
  simp [Output.copy, Output.content, Output.encoded, Output.copied, Piece.elements]

/-- What is reported agrees with what was written: the kinds with the elements that were encoded,
the claims with those that were copied, and the ids with those that were asked for. -/
structure Tallied (ids : ElementIds) (out : Output ρ) : Prop where
  kinds : ∀ kind, out.stats.ofKind kind = out.encoded.countP fun e => e.kind = kind
  claimed : out.stats.passthroughClaimed = out.copied.length
  found : ∀ found, out.stats.found = some found → found.Valid ∧ ∀ kind id,
    (found.of kind).get id = true ↔
      ∃ e ∈ out.encoded, requested ids e = true ∧ elementKey e = (kind, id)

lemma tallied_start (ids : ElementIds) (reportFound : Bool) :
    Tallied ids (Output.start reportFound : Output ρ) := by
  refine ⟨fun kind => ?_, rfl, fun found hfound => ?_⟩
  · cases kind <;> rfl
  · unfold Output.start at hfound
    split at hfound
    · cases hfound
      refine ⟨valid_empty, fun kind id => ?_⟩
      rw [get_empty]
      simp [Output.start, Output.encoded]
    · cases hfound

section

variable {m : Mode ρ} {out : Output ρ}

/-- An element of a block is counted, and noted when it was asked for. -/
theorem Tallied.addBlock (h : Tallied m.ids out) (elements : List (Element ρ))
    (hfound : out.stats.found.isSome = true → m.reportFound = true ∧ m.included = true) :
    Tallied m.ids (out.addBlock (m.block elements)) := by
  obtain ⟨hwritten, hcounts, hkeys⟩ := foldl_push (m := m) elements ([], {})
  have hlist : (m.block elements).1 = (elements.filter m.emits).map m.kept := hwritten
  refine ⟨fun kind => ?_, ?_, fun found hsome => ?_⟩
  · have hone : (m.block elements).2.ofKind kind = 0 +
        (elements.filter m.emits).countP fun e => e.kind = kind := by
      rw [Mode.block, hcounts]
      cases kind <;> rfl
    rw [(addBlock_lists out _).2.1, countP_append, ← h.kinds kind, hlist, countP_map]
    have hsame : (fun e : Element ρ => decide (e.kind = kind)) ∘ m.kept =
        fun e => decide (e.kind = kind) := by
      funext e
      simp only [Function.comp, (kept_key e).1]
    rw [hsame]
    refine (ofKind_addOutcome out.stats (m.block elements).2 kind).trans ?_
    rw [hone, Nat.zero_add]
  · rw [(addBlock_lists out _).2.2, ← h.claimed]
    rfl
  · cases hold : out.stats.found with
    | none =>
      have hnone : (out.addBlock (m.block elements)).stats.found = none := by
        simp [Output.addBlock, GetidStats.addOutcome, hold]
      rw [hnone] at hsome
      cases hsome
    | some old =>
      obtain ⟨hreport, hincluded⟩ := hfound (by rw [hold]; rfl)
      obtain ⟨hvalid, hget⟩ := h.found old hold
      have hadded : found =
          (m.block elements).2.found.foldl (fun s key => s.insert key.1 key.2) old := by
        simp only [Output.addBlock, GetidStats.addOutcome, hold, Option.map_some,
          Option.some.injEq] at hsome
        exact hsome.symm
      have hblock : (m.block elements).2.found =
          ((elements.filter m.emits).filter (requested m.ids)).map elementKey := by
        refine hkeys.trans ?_
        rw [Mode.foundKeys, hreport, hincluded]
        rfl
      obtain ⟨hvalid', hget'⟩ := foldl_insert (m.block elements).2.found hvalid
      rw [hadded]
      refine ⟨hvalid', fun kind id => ?_⟩
      rw [hget', hget, hblock, (addBlock_lists out _).2.1, hlist]
      constructor
      · rintro (⟨e, he, hreq, hkey⟩ | ⟨hmem, -⟩)
        · exact ⟨e, mem_append_left _ he, hreq, hkey⟩
        · obtain ⟨e, he, hkey⟩ := mem_map.mp hmem
          obtain ⟨hemit, hreq⟩ := mem_filter.mp he
          obtain ⟨hk, hi⟩ := kept_key (m := m) e
          refine ⟨m.kept e, mem_append_right _ (mem_map.mpr ⟨e, hemit, rfl⟩), ?_, ?_⟩
          · rw [requested, hk, hi]
            exact hreq
          · rw [elementKey, hk, hi]
            exact hkey
      · rintro ⟨e, he, hreq, hkey⟩
        rcases mem_append.mp he with hold | hnew
        · exact .inl ⟨e, hold, hreq, hkey⟩
        · obtain ⟨o, ho, rfl⟩ := mem_map.mp hnew
          obtain ⟨hk, hi⟩ := kept_key (m := m) o
          rw [requested, hk, hi] at hreq
          rw [elementKey, hk, hi] at hkey
          refine .inr ⟨mem_map.mpr ⟨o, mem_filter.mpr ⟨ho, hreq⟩, hkey⟩, ?_⟩
          cases hkey
          exact nonneg_of_get hreq

lemma Tallied.copy (h : Tallied m.ids out) (b : Blob ρ) {idx : BlobIndex}
    (hcount : idx.count = b.elements.length) : Tallied m.ids (out.copy b idx) := by
  obtain ⟨-, hencoded, hcopied⟩ := copy_lists out b idx
  refine ⟨fun kind => ?_, ?_, fun found hsome => ?_⟩
  · rw [hencoded, ← h.kinds kind]
    cases kind <;> rfl
  · rw [hcopied, length_append, ← h.claimed, ← hcount]
    rfl
  · rw [hencoded]
    exact h.found found hsome

end

end Getid
