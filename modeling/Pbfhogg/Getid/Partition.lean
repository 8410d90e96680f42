import Pbfhogg.Getid.Blocks

/-!
# getid and removeid part the input

Where the claims are true a blob that is passed over holds nothing that is emitted, and one that is
copied nothing that is removed.
-/

namespace Getid

open BlobMeta BlobFilter Fallible IdSets List Option
open TagsFilter (Element Blob Error Result refusePartialIndex decodeBlock requireIndexdata
  elementsOf mem_elementsOf)

variable {ρ : Type}

/-- The index says which kind, how many elements and which ids a blob holds. -/
structure TrueClaim (idx : BlobIndex) (elements : List (Element ρ)) : Prop where
  kind : ∀ e ∈ elements, e.kind = idx.kind
  count : idx.count = elements.length
  range : ∀ e ∈ elements, idx.minId.toInt ≤ e.id.toInt ∧ e.id.toInt ≤ idx.maxId.toInt

/-- True claims, on every blob, or on none of a run that is forced. -/
structure TrueIndexdata (force : Bool) (input : List (Blob ρ)) : Prop where
  claims : ∀ b ∈ input, ∀ idx, b.index = some idx → TrueClaim idx b.elements
  present : (∀ b ∈ input, b.index.isSome = true) ∨ (force = true ∧ ∀ b ∈ input, b.index = none)

lemma decodeBlock_true {b : Blob ρ}
    (h : ∀ idx, b.index = some idx → ∀ e ∈ b.elements, e.kind = idx.kind) :
    decodeBlock false b = .ok b.elements := by
  unfold decodeBlock
  cases hidx : b.index with
  | none => rfl
  | some idx =>
    dsimp only
    rw [refuseForeignKind_ok]
    intro k hk
    obtain ⟨e, he, rfl⟩ := mem_map.mp hk
    exact h idx hidx e he

variable {elements : List (Element ρ)}

/-- A range without a requested id holds no requested element. -/
theorem TrueClaim.no_match {idx : BlobIndex} {ids : ElementIds} (h : TrueClaim idx elements)
    (hids : ids.Valid) (hmatch : hasMatch ids idx = false) {e : Element ρ} (he : e ∈ elements) :
    requested ids e = false := by
  rw [Bool.eq_false_iff]
  intro hreq
  rw [requested, h.kind e he] at hreq
  have hany := (get_anyInRange (hids idx.kind) idx.minId idx.maxId).mpr ⟨e.id, hreq, h.range e he⟩
  rw [hasMatch, hany] at hmatch
  cases hmatch

/-- So does a kind of which nothing is requested. -/
theorem TrueClaim.unwanted {idx : BlobIndex} {ids : ElementIds} (h : TrueClaim idx elements)
    (hwants : ids.blobFilter.wantsIndex idx = false) {e : Element ρ} (he : e ∈ elements) :
    requested ids e = false := by
  rw [Bool.eq_false_iff]
  intro hreq
  have hkind := wants_of_get hreq
  rw [h.kind e he] at hkind
  rw [Filter.wantsIndex, hkind] at hwants
  cases hwants

section

variable {m : Mode ρ} {declared : Declared} {b : Blob ρ}

lemma includedBlock_true {ids : ElementIds} {pulled : Option ElementIds}
    (h : ∀ idx, b.index = some idx → ∀ e ∈ b.elements, e.kind = idx.kind) :
    includedBlock b ids pulled =
      .ok (if b.elements.any (isDominated ids pulled) then some b.elements else none) := by
  have hhit := foldl_see b.elements (p := SelectProbe.new ids pulled) rfl
  rw [includedBlock, decodeBlock_true h, ok_bind]
  dsimp only
  rw [hhit]
  rfl

/-- The blob decoded and its block written, when include mode finds anything in it. -/
def Mode.decoded (m : Mode ρ) (out : Output ρ) (b : Blob ρ) : Output ρ :=
  if m.included && !b.elements.any m.emits then out else out.addBlock (m.block b.elements)

lemma emits_included (hincluded : m.included = true) :
    m.emits = isDominated m.ids m.pulled := by
  funext e
  rw [Mode.emits, if_pos hincluded]

lemma reads_of_none (h : elements.any m.emits = false) : m.Reads elements := by
  intro e he hemits
  rw [List.any_eq_false] at h
  exact absurd hemits (h e he)

lemma mapError_processBlock {r : List (Element ρ) × BlockOutcome} :
    (processBlock m elements).mapError Error.pbf = .ok r ↔
      m.Reads elements ∧ r = m.block elements :=
  mapError_eq_ok.trans processBlock_ok

lemma walkDecoded_ok (hpulled : m.pulled = none)
    (hkind : ∀ idx, b.index = some idx → ∀ e ∈ b.elements, e.kind = idx.kind)
    (hdeclared : b.index = none → declared.wayEnrichment = false) (out r : Output ρ) :
    walkDecoded m declared b out = .ok r ↔ m.Reads b.elements ∧ r = m.decoded out b := by
  have hquiet : ∀ p : Bool, (b.index.isNone && declared.wayEnrichment && p) = false := by
    intro p
    cases hidx : b.index with
    | none => rw [hdeclared hidx, Bool.and_false, Bool.false_and]
    | some idx => rfl
  -- Once the block is there, only reading what is emitted can fail.
  have hblock : ∀ elements, elements = b.elements →
      ((do
        let r ← (processBlock m elements).mapError Error.pbf
        if b.index.isNone && declared.wayEnrichment && r.1.any fun e => e.kind = .way then
          .error (.pbf (declared.brokenByUnindexedWayBlob "re-encoding it"))
        else return out.addBlock r : Result (Output ρ)) = .ok r ↔
          m.Reads b.elements ∧ r = out.addBlock (m.block b.elements)) := by
    rintro elements rfl
    rw [bind_eq_ok]
    constructor
    · rintro ⟨x, hx, hr⟩
      obtain ⟨hall, rfl⟩ := mapError_processBlock.mp hx
      rw [hquiet, if_neg Bool.false_ne_true] at hr
      cases hr
      exact ⟨hall, rfl⟩
    · rintro ⟨hall, rfl⟩
      refine ⟨_, mapError_processBlock.mpr ⟨hall, rfl⟩, ?_⟩
      rw [hquiet, if_neg Bool.false_ne_true]
      rfl
  unfold walkDecoded Mode.decoded
  by_cases hincluded : m.included = true
  · rw [if_pos hincluded, hincluded, ← hpulled, includedBlock_true hkind, ok_bind,
      ← emits_included hincluded]
    by_cases hany : b.elements.any m.emits = true
    · rw [if_pos hany, hany]
      exact hblock _ rfl
    · have hnone := Bool.eq_false_iff.mpr hany
      rw [if_neg hany, hnone]
      constructor
      · intro h
        cases h
        exact ⟨reads_of_none hnone, rfl⟩
      · rintro ⟨-, rfl⟩
        rfl
  · have hremove := Bool.eq_false_iff.mpr hincluded
    rw [if_neg hincluded, decodeBlock_true hkind, hremove]
    exact hblock _ rfl

/-- The frame is copied as it stands. -/
def Mode.copies (m : Mode ρ) (b : Blob ρ) : Bool :=
  !m.included && b.index.any fun idx => !hasMatch m.ids idx

def Mode.step (m : Mode ρ) (out : Output ρ) (b : Blob ρ) : Output ρ :=
  match b.index with
  | some idx => if m.copies b then out.copy b idx else m.decoded out b
  | none => m.decoded out b

lemma emits_none (hpulled : m.pulled = none) (e : Element ρ) :
    m.emits e = (requested m.ids e == m.included) := by
  have hdominated : isDominated m.ids m.pulled e = requested m.ids e := by
    rw [hpulled]
    exact Bool.or_false _
  rw [Mode.emits, hdominated]
  cases m.included <;> cases requested m.ids e <;> rfl

lemma walkBlob_ok (hpulled : m.pulled = none) (hids : m.ids.Valid)
    (hclaims : ∀ idx, b.index = some idx → TrueClaim idx b.elements)
    (hdeclared : b.index = none → declared.wayEnrichment = false) (out r : Output ρ) :
    walkBlob m declared out b = .ok r ↔
      (m.copies b = false → m.Reads b.elements) ∧ r = m.step out b := by
  have hdecoded : walkDecoded m declared b out = .ok r ↔
      m.Reads b.elements ∧ r = m.decoded out b :=
    walkDecoded_ok hpulled (fun idx hidx => (hclaims idx hidx).kind) hdeclared out r
  unfold walkBlob Mode.step
  cases hidx : b.index with
  | none =>
    have hcopies : m.copies b = false := by
      rw [Mode.copies, hidx]
      exact Bool.and_false _
    simp only [hcopies, true_implies]
    exact hdecoded
  | some idx =>
    have htrue := hclaims idx hidx
    have hcopies : m.copies b = (!m.included && !hasMatch m.ids idx) := by
      rw [Mode.copies, hidx]
      rfl
    simp only [hcopies]
    cases hincluded : m.included with
    | true =>
      simp only [if_true, Bool.not_true, Bool.false_and, Bool.false_eq_true, if_false, true_implies]
      split
      · next hskip =>
        -- A blob that is passed over holds nothing to emit.
        have hnone : b.elements.any m.emits = false := by
          rw [List.any_eq_false]
          intro e he
          have hreq : requested m.ids e = false := by
            rcases Bool.or_eq_true_iff.mp hskip with hwants | hmatch
            · exact htrue.unwanted (by simpa using hwants) he
            · exact htrue.no_match hids (by simpa using hmatch) he
          rw [emits_none hpulled, hreq, hincluded]
          exact Bool.false_ne_true
        have hsame : m.decoded out b = out := by
          rw [Mode.decoded, hincluded, hnone]
          rfl
        rw [hsame]
        constructor
        · intro h
          cases h
          exact ⟨reads_of_none hnone, rfl⟩
        · rintro ⟨-, rfl⟩
          rfl
      · exact hdecoded
    | false =>
      simp only [Bool.false_eq_true, if_false, Bool.not_false, Bool.true_and]
      cases hmatch : hasMatch m.ids idx with
      | true =>
        simp only [Bool.not_true, Bool.false_eq_true, if_false, true_implies]
        exact hdecoded
      | false =>
        simp only [Bool.not_false, if_true, Bool.true_eq_false, false_implies, true_and,
          Except.ok.injEq]
        exact eq_comm

lemma kept_plain (hstrip : m.stripTags = false) : m.kept = encoded m.read := by
  funext e
  rw [Mode.kept, Mode.written, Element.stripped, hstrip]
  rfl

lemma decoded_content (out : Output ρ) :
    (m.decoded out b).content = out.content ++ (b.elements.filter m.emits).map m.kept := by
  unfold Mode.decoded
  split
  · next hskip =>
    have hnone : b.elements.filter m.emits = [] := by
      rw [filter_eq_nil_iff]
      simpa using (Bool.and_eq_true_iff.mp hskip).2
    rw [hnone, map_nil, append_nil]
  · rw [(addBlock_lists out _).1]
    exact congrArg _ (foldl_push (m := m) b.elements ([], {})).1

/-- A frame that is copied holds nothing that is removed. -/
theorem copies_emits (hpulled : m.pulled = none) (hids : m.ids.Valid)
    (hclaims : ∀ idx, b.index = some idx → TrueClaim idx b.elements) (hcopies : m.copies b = true)
    {e : Element ρ} (he : e ∈ b.elements) : m.emits e = true := by
  obtain ⟨hremove, hmatch⟩ := Bool.and_eq_true_iff.mp hcopies
  obtain ⟨idx, hidx, hnone⟩ := any_some hmatch
  rw [emits_none hpulled, (hclaims idx hidx).no_match hids (by simpa using hnone) he]
  rw [Bool.not_eq_true'] at hremove
  rw [hremove]
  rfl

/-- What a step adds to the output. -/
def Mode.gives (m : Mode ρ) (b : Blob ρ) : List (Element ρ) :=
  if m.copies b then b.elements else (b.elements.filter m.emits).map (encoded m.read)

lemma step_content (hstrip : m.stripTags = false) (out : Output ρ) :
    (m.step out b).content = out.content ++ m.gives b := by
  have hdecoded := decoded_content (m := m) (b := b) out
  rw [kept_plain hstrip] at hdecoded
  unfold Mode.step Mode.gives
  cases hidx : b.index with
  | none =>
    have hcopies : m.copies b = false := by
      rw [Mode.copies, hidx]
      exact Bool.and_false _
    rw [hcopies]
    exact hdecoded
  | some idx =>
    dsimp only
    split
    · exact (copy_lists out b idx).1
    · exact hdecoded

/-- What is reported and which frames are copied, blob by blob. -/
structure Kept (m : Mode ρ) (out : Output ρ) : Prop extends Tallied m.ids out where
  reports : out.stats.found.isSome = (m.reportFound && m.included)
  decodes : m.included = true → out.copied = []

variable {out : Output ρ}

lemma Kept.decoded (h : Kept m out) : Kept m (m.decoded out b) := by
  unfold Mode.decoded
  split
  · exact h
  · have hreports := h.reports
    refine ⟨h.toTallied.addBlock _ fun hsome => ?_, ?_, fun hincluded => ?_⟩
    · rw [hreports] at hsome
      exact Bool.and_eq_true_iff.mp hsome
    · rw [← hreports]
      exact isSome_map
    · rw [(addBlock_lists out _).2.2]
      exact h.decodes hincluded

lemma Kept.step (h : Kept m out)
    (hclaims : ∀ idx, b.index = some idx → TrueClaim idx b.elements) : Kept m (m.step out b) := by
  unfold Mode.step
  cases hidx : b.index with
  | none => exact h.decoded
  | some idx =>
    dsimp only
    split
    · next hcopies =>
      refine ⟨h.toTallied.copy b (hclaims idx hidx).count, h.reports, fun hincluded => ?_⟩
      have hremove := (Bool.and_eq_true_iff.mp hcopies).1
      rw [hincluded] at hremove
      cases hremove
    · exact h.decoded

variable {input : List (Blob ρ)}

lemma foldl_step (hstrip : m.stripTags = false)
    (hclaims : ∀ b ∈ input, ∀ idx, b.index = some idx → TrueClaim idx b.elements)
    (hout : Kept m out) : Kept m (input.foldl m.step out) ∧
      (input.foldl m.step out).content = out.content ++ input.flatMap m.gives := by
  induction input generalizing out with
  | nil => exact ⟨hout, by simp⟩
  | cons b input ih =>
    have hb := hclaims b mem_cons_self
    obtain ⟨hkept, hcontent⟩ :=
      ih (fun b' hb' => hclaims b' (mem_cons_of_mem b hb')) (hout.step hb)
    refine ⟨hkept, ?_⟩
    rw [foldl_cons, hcontent, step_content hstrip, append_assoc, flatMap_cons]

/-- Seen by what the encoder keeps, a step adds what it emits. -/
lemma gives_map {β : Type} {v : Element ρ → β} (hpulled : m.pulled = none) (hids : m.ids.Valid)
    (hclaims : ∀ b ∈ input, ∀ idx, b.index = some idx → TrueClaim idx b.elements)
    (hv : ∀ e ∈ elementsOf input, v (encoded m.read e) = v e) :
    (input.flatMap m.gives).map v = ((elementsOf input).filter m.emits).map v := by
  rw [elementsOf, filter_flatMap, map_flatMap, map_flatMap]
  refine flatMap_congr fun b hb => ?_
  unfold Mode.gives
  split
  · next hcopies =>
    rw [filter_eq_self.mpr]
    exact fun e he => copies_emits hpulled hids (hclaims b hb) hcopies he
  · rw [List.map_map]
    refine map_congr_left fun e he => ?_
    exact hv e (mem_elementsOf.mpr ⟨b, hb, mem_of_mem_filter he⟩)

variable {force reportFound included : Bool} {ids : ElementIds} {read : Element ρ → Except PbfError ρ}

lemma TrueIndexdata.walk_ok (h : TrueIndexdata force input) :
    refusePartialIndex input = .ok () := by
  unfold refusePartialIndex
  rw [if_neg]
  intro hboth
  obtain ⟨hsome, hnone⟩ := Bool.and_eq_true_iff.mp hboth
  obtain ⟨b, hb, hb'⟩ := any_eq_true.mp hsome
  obtain ⟨d, hd, hd'⟩ := any_eq_true.mp hnone
  rcases h.present with hall | ⟨-, hall⟩
  · have := hall d hd
    rw [isNone_iff_eq_none] at hd'
    rw [hd'] at this
    cases this
  · rw [hall b hb] at hb'
    cases hb'

lemma TrueIndexdata.indexed_ok (h : TrueIndexdata force input) :
    requireIndexdata force input = .ok () := by
  unfold requireIndexdata
  rw [if_pos]
  rcases h.present with hall | ⟨hforce, -⟩
  · cases input with
    | nil => simp
    | cons b input => simpa using .inr (hall b mem_cons_self)
  · rw [hforce]
    rfl

/-- The walk succeeds when what it encodes can be read, and writes blob by blob. -/
theorem walker_ok (h : TrueIndexdata force input) (hids : ids.Valid)
    (hdeclared : ∀ b ∈ input, b.index = none → declared.wayEnrichment = false) {r : Output ρ} :
    filterByIdWalker read ids included declared reportFound input = .ok r ↔
      (∀ b ∈ input, Mode.copies ⟨ids, included, none, false, reportFound, read⟩ b = false →
        Mode.Reads ⟨ids, included, none, false, reportFound, read⟩ b.elements) ∧
      r = input.foldl (Mode.step ⟨ids, included, none, false, reportFound, read⟩)
        (.start reportFound) := by
  rw [filterByIdWalker, h.walk_ok, ok_bind]
  exact foldlM_eq_ok (fun b hb out r =>
    walkBlob_ok rfl hids (h.claims b hb) (hdeclared b hb) out r) _ _

lemma start_kept (m : Mode ρ) (h : m.included = false → m.reportFound = false) :
    Kept m (Output.start m.reportFound : Output ρ) := by
  refine ⟨tallied_start _ _, ?_, fun _ => rfl⟩
  unfold Output.start
  cases hreport : m.reportFound with
  | false => rfl
  | true =>
    cases hincluded : m.included with
    | false =>
      rw [h hincluded] at hreport
      cases hreport
    | true => rfl

lemma walkDecoded_included (hincluded : m.included = true) (out : Output ρ) (b : Blob ρ) :
    walkDecoded m {} b out = (do
      match ← includedBlock b m.ids none with
      | none => return out
      | some elements =>
        return out.addBlock (← (processBlock m elements).mapError Error.pbf)) := by
  unfold walkDecoded
  rw [if_pos hincluded]
  cases includedBlock b m.ids none with
  | error e => rfl
  | ok block =>
    cases block with
    | none => rfl
    | some elements =>
      simp only [ok_bind]
      cases (processBlock m elements).mapError Error.pbf with
      | error e => rfl
      | ok x =>
        have hquiet : (b.index.isNone && ({} : Declared).wayEnrichment &&
            x.1.any fun e => decide (e.kind = .way)) = false := by
          simp [Declared.wayEnrichment]
        simp only [ok_bind]
        rw [hquiet]
        rfl

/-- The streaming arm takes the same step at every blob. -/
theorem streamBlob_eq (hincluded : m.included = true) (out : Output ρ) (b : Blob ρ) :
    streamBlob m out b = walkBlob m {} out b := by
  have hdecoded := @walkDecoded_included ρ m hincluded out b
  unfold streamBlob walkBlob
  cases hidx : b.index with
  | none =>
    simp only [Option.any_none, Bool.false_eq_true, if_false]
    exact hdecoded.symm
  | some idx =>
    simp only [Option.any_some, if_pos hincluded]
    split
    · rfl
    · exact hdecoded.symm

lemma streaming_eq : filterByIdStreaming read ids reportFound input =
    filterByIdWalker read ids true {} reportFound input := by
  have hstep : streamBlob ⟨ids, true, none, false, reportFound, read⟩ =
      walkBlob ⟨ids, true, none, false, reportFound, read⟩ {} := by
    funext out b
    exact streamBlob_eq rfl out b
  rw [filterByIdStreaming, filterByIdWalker, hstep]

/-- What getid writes and reports: the elements that are asked for, as decoding every blob gives
them, each encoded again. -/
structure Asked (read : Element ρ → Except PbfError ρ) (ids : ElementIds) (reportFound : Bool)
    (input : List (Blob ρ)) (g : Output ρ) : Prop where
  content : g.content = ((elementsOf input).filter (requested ids)).map (encoded read)
  kinds : ∀ kind, g.stats.ofKind kind = g.content.countP fun e => e.kind = kind
  claimed : g.stats.passthroughClaimed = 0
  reports : g.stats.found.isSome = reportFound
  found : ∀ found, g.stats.found = some found → ∀ kind id, (found.of kind).get id = true ↔
    (ids.of kind).get id = true ∧ ∃ e ∈ elementsOf input, elementKey e = (kind, id)

/-- What removeid writes of a blob: its frame when the claim holds nothing that is asked for, and
else its other elements encoded again. -/
def remains (read : Element ρ → Except PbfError ρ) (ids : ElementIds) (b : Blob ρ) :
    List (Element ρ) :=
  if b.index.any fun idx => !hasMatch ids idx then b.elements
  else (b.elements.filter fun e => !requested ids e).map (encoded read)

/-- What removeid writes and reports: the others. A frame that is copied counts by its claim. -/
structure Others (read : Element ρ → Except PbfError ρ) (ids : ElementIds) (input : List (Blob ρ))
    (r : Output ρ) : Prop where
  content : r.content = input.flatMap (remains read ids)
  pieces : (r.encoded ++ r.copied).Perm r.content
  kinds : ∀ kind, r.stats.ofKind kind = r.encoded.countP fun e => e.kind = kind
  claimed : r.stats.passthroughClaimed = r.copied.length
  reports : r.stats.found = none

lemma getid_walker (h : TrueIndexdata force input) (arm : ScanArm) :
    getid read arm force ids reportFound input =
      filterByIdWalker read ids true {} reportFound input := by
  cases arm with
  | walker =>
    unfold getid
    rw [h.indexed_ok, ok_bind]
  | fullScan =>
    unfold getid
    rw [h.indexed_ok, ok_bind]
    exact streaming_eq

lemma asked_of_ok (h : TrueIndexdata force input) (hids : ids.Valid) {arm : ScanArm}
    {g : Output ρ} (hg : getid read arm force ids reportFound input = .ok g) :
    Asked read ids reportFound input g := by
  rw [getid_walker h, walker_ok h hids fun _ _ _ => rfl] at hg
  obtain ⟨-, rfl⟩ := hg
  obtain ⟨hkept, hcontent⟩ := foldl_step rfl h.claims
    (start_kept ⟨ids, true, none, false, reportFound, read⟩ fun hfalse => nomatch hfalse)
  have hgives : Mode.gives ⟨ids, true, none, false, reportFound, read⟩ =
      fun b : Blob ρ => (b.elements.filter (requested ids)).map (encoded read) := by
    funext b
    refine congrArg (map (encoded read)) (filter_congr fun e _ => ?_)
    rw [emits_none rfl]
    exact beq_true _
  rw [hgives, ← map_flatMap, ← filter_flatMap] at hcontent
  have hcopied := hkept.decodes rfl
  have hperm := content_perm (input.foldl (Mode.step ⟨ids, true, none, false, reportFound, read⟩)
    (Output.start reportFound : Output ρ))
  rw [hcopied, append_nil] at hperm
  refine ⟨hcontent, fun kind => ?_, ?_, ?_, fun found hfound kind id => ?_⟩
  · rw [hkept.kinds, hperm.countP_eq]
  · rw [hkept.claimed, hcopied]
    rfl
  · rw [hkept.reports]
    exact Bool.and_true _
  · rw [(hkept.found found hfound).2]
    constructor
    · rintro ⟨e, he, hreq, heq⟩
      have hmem := hperm.subset he
      rw [hcontent] at hmem
      obtain ⟨o, ho, rfl⟩ := mem_map.mp hmem
      rw [key_encoded] at heq
      refine ⟨?_, o, mem_of_mem_filter ho, heq⟩
      cases heq
      exact (mem_filter.mp ho).2
    · rintro ⟨hget, e, he, heq⟩
      have hreq : requested ids e = true := by
        cases heq
        exact hget
      refine ⟨encoded read e, hperm.symm.subset ?_, ?_, (key_encoded read e).trans heq⟩
      · rw [hcontent]
        exact mem_append_right _ (mem_map_of_mem (mem_filter.mpr ⟨he, hreq⟩))
      · rw [requested_encoded, hreq]

/-- What a file declares about its ways is only declared again when every blob is indexed. -/
theorem TrueIndexdata.undeclared (h : TrueIndexdata force input) (header : Declared) :
    ∀ b ∈ input, b.index = none →
      (if input.head?.all (·.index.isSome) && !ids.wayIds.hasAny then header
        else {}).wayEnrichment = false := by
  intro b hb hnone
  rcases h.present with hall | ⟨-, hall⟩
  · have := hall b hb
    rw [hnone] at this
    cases this
  · cases input with
    | nil => cases hb
    | cons first rest =>
      rw [head?_cons, all_some, hall first mem_cons_self]
      rfl

lemma removeid_walker (h : TrueIndexdata force input) (header : Declared) :
    removeid read header force ids input =
      filterByIdWalker read ids false
        (if input.head?.all (·.index.isSome) && !ids.wayIds.hasAny then header else {}) false
        input := by
  rw [removeid, h.indexed_ok, ok_bind]

lemma emits_remains :
    Mode.emits ⟨ids, false, none, false, false, read⟩ = fun e => !requested ids e := by
  funext e
  rw [emits_none rfl]
  exact beq_false _

lemma gives_remains : Mode.gives ⟨ids, false, none, false, false, read⟩ = remains read ids := by
  funext b
  rw [Mode.gives, emits_remains]
  rfl

lemma others_of_ok (h : TrueIndexdata force input) (hids : ids.Valid) {header : Declared}
    {r : Output ρ} (hr : removeid read header force ids input = .ok r) :
    Others read ids input r := by
  rw [removeid_walker h, walker_ok h hids (h.undeclared header)] at hr
  obtain ⟨-, rfl⟩ := hr
  obtain ⟨hkept, hcontent⟩ := foldl_step rfl h.claims
    (start_kept ⟨ids, false, none, false, false, read⟩ fun _ => rfl)
  rw [gives_remains] at hcontent
  refine ⟨hcontent, content_perm _, hkept.kinds, hkept.claimed, ?_⟩
  have hreports := hkept.reports
  rw [Bool.false_and] at hreports
  exact isSome_eq_false_iff.mp hreports |> isNone_iff_eq_none.mp

/-- The two commands part the input, on either arm of getid: as far as encoding an element again
leaves it alone, they write each element once and in file order. -/
structure Parted (read : Element ρ → Except PbfError ρ) (header : Declared)
    (force reportFound : Bool) (ids : ElementIds) (input : List (Blob ρ)) : Prop where
  arms : getid read .walker force ids reportFound input =
    getid read .fullScan force ids reportFound input
  asked : ∀ arm g, getid read arm force ids reportFound input = .ok g →
    Asked read ids reportFound input g
  others : ∀ r, removeid read header force ids input = .ok r → Others read ids input r
  apart : ∀ arm g r, getid read arm force ids reportFound input = .ok g →
    removeid read header force ids input = .ok r →
      (∀ e ∈ g.content, requested ids e = true) ∧ ∀ e ∈ r.content, requested ids e = false
  together : ∀ arm g r, getid read arm force ids reportFound input = .ok g →
    removeid read header force ids input = .ok r → ∀ (β : Type) (v : Element ρ → β),
      (∀ e ∈ elementsOf input, v (encoded read e) = v e) →
        ((g.content ++ r.content).map v).Perm ((elementsOf input).map v) ∧
          (g.content.map v).Sublist ((elementsOf input).map v) ∧
          (r.content.map v).Sublist ((elementsOf input).map v)
  runs : (∀ e ∈ elementsOf input, ∃ rest, read e = .ok rest) →
    (∀ arm, ∃ g, getid read arm force ids reportFound input = .ok g) ∧
      ∃ r, removeid read header force ids input = .ok r

theorem parted_of_true (read : Element ρ → Except PbfError ρ) (header : Declared)
    (force reportFound : Bool) (ids : ElementIds) (input : List (Blob ρ)) (hids : ids.Valid)
    (h : TrueIndexdata force input) : Parted read header force reportFound ids input where
  arms := (getid_walker h .walker).trans (getid_walker h .fullScan).symm
  asked arm g hg := asked_of_ok h hids hg
  others r hr := others_of_ok h hids hr
  apart arm g r hg hr := by
    rw [(asked_of_ok h hids hg).content, (others_of_ok h hids hr).content]
    constructor
    · intro e he
      obtain ⟨o, ho, rfl⟩ := mem_map.mp he
      rw [requested_encoded]
      exact (mem_filter.mp ho).2
    · intro e he
      obtain ⟨b, hb, he⟩ := mem_flatMap.mp he
      unfold remains at he
      split at he
      · next hcopies =>
        obtain ⟨idx, hidx, hnone⟩ := any_some hcopies
        exact (h.claims b hb idx hidx).no_match hids (by simpa using hnone) he
      · obtain ⟨o, ho, rfl⟩ := mem_map.mp he
        rw [requested_encoded]
        simpa using (mem_filter.mp ho).2
  together arm g r hg hr β v hv := by
    have hothers := gives_map (m := ⟨ids, false, none, false, false, read⟩) rfl hids h.claims hv
    rw [gives_remains, emits_remains] at hothers
    have hasked : (((elementsOf input).filter (requested ids)).map (encoded read)).map v =
        ((elementsOf input).filter (requested ids)).map v := by
      rw [List.map_map]
      exact map_congr_left fun e he => hv e (mem_of_mem_filter he)
    rw [map_append, (asked_of_ok h hids hg).content, (others_of_ok h hids hr).content, hasked,
      hothers, ← map_append]
    exact ⟨(filter_append_perm _ _).map v, filter_sublist.map v, filter_sublist.map v⟩
  runs hread := by
    have hall : ∀ m : Mode ρ, m.read = read → ∀ b ∈ input, m.copies b = false →
        m.Reads b.elements := by
      rintro m rfl b hb - e he -
      exact hread e (mem_elementsOf.mpr ⟨b, hb, he⟩)
    constructor
    · intro arm
      exact ⟨_, (getid_walker h arm).trans
        ((walker_ok h hids fun _ _ _ => rfl).mpr ⟨hall _ rfl, rfl⟩)⟩
    · exact ⟨_, (removeid_walker h header).trans
        ((walker_ok h hids (h.undeclared header)).mpr ⟨hall _ rfl, rfl⟩)⟩

end

end Getid
