import Pbfhogg.Renumber.RewriteSpecs
import Pbfhogg.Write.BuiltBytes

/-!
# Rewriting the blocks that the builder takes

What the rewriters of renumber do on a block of a `BlockBuilder`. The encoder leaves out an id of
zero and an empty list of refs, which two of the rewriters ask for by presence.
-/

namespace BuiltBlocks

open Protohoggr FieldWalk Chunks Written IdSpace WireRewrite RewriteSpecs BlockBuilder BuiltBytes
  Deltas Fallible
open List hiding map_map take

variable {ph : Crate}

lemma lenValue_read {body : Bytes} (hlen : body.length < 2 ^ 64) :
    ph.readLenDelimited (lenValue body) = .ok (body, []) := by
  have h := @Crate.readLenDelimited_lenValue ph body hlen []
  rwa [append_nil] at h

lemma wireErr_ok {α : Type} {x : Except Protohoggr.Error α} {a : α} (h : x = .ok a) :
    wireErr x = .ok a := wireErr_eq_ok.mpr h

variable {body table group : Bytes} {t : RelationState × Bytes}

lemma absorb_lenChunk {σ : Type} {h : Handler RewriteError σ} {s : σ} {f : Nat}
    {k : Bytes → Result σ}
    (hh : h s f wireLen = fun cur => take (wireErr (ph.readLenDelimited cur)) k)
    (hlen : body.length < 2 ^ 64) : absorb h s (lenChunk f body).field = k body :=
  @absorb_take _ _ _ h s (lenChunk f body).field body
    (fun cur => wireErr (ph.readLenDelimited cur)) k hh (wireErr_ok (lenValue_read hlen))

lemma splitField_table (keepAll : Bool) (s : BlockSplit) : splitField ph keepAll s 1 wireLen =
    fun cur => take (wireErr (ph.readLenDelimited cur)) fun data =>
      if s.stringtable.isSome then
        .error (repeatedMessageFieldError "PrimitiveBlock" "StringTable")
      else .ok { s with stringtable := some data } := rfl

lemma groupField_group {σ : Type} (f : σ → Bytes → Result σ) (s : σ × Nat) :
    groupField ph f s 2 wireLen = fun cur => take (wireErr (ph.readLenDelimited cur)) fun group =>
      (f s.1 group).bind fun acc => (inc s.2).map fun groups => (acc, groups) := rfl

/-- The block of a table and at most one group. -/
def blockChunks (table group : Bytes) : List Chunk := lenChunk 1 table :: bytesChunks 2 group

lemma framed_blockChunks (ht : table.length < 2 ^ 64) (hg : group.length < 2 ^ 64) :
    ∀ c ∈ blockChunks table group, c.Framed (cursor ph) := by
  intro c hc
  rw [framed_cursor]
  rcases mem_cons.mp hc with rfl | hc
  · exact framed_lenChunk (by omega) (by omega) ht
  · exact framed_bytesChunks (by omega) (by omega) hg c hc

lemma splitBlock_built {keepAll : Bool} {who : String} (ht : table.length < 2 ^ 64)
    (hg : group.length < 2 ^ 64) :
    splitBlock ph keepAll who (join (blockChunks table group)) = .ok (table, []) := by
  have hreadG := @lenValue_read ph group hg
  have hwalk : walk (cursor ph) (splitField ph keepAll) {} (join (blockChunks table group)) =
      .ok { stringtable := some table, scalars := [] } := by
    rw [walk_join_iff (local_splitField keepAll) (framed_blockChunks ht hg), blockChunks,
      map_cons, foldlM_cons]
    have hfirst : absorb (splitField ph keepAll) {} (lenChunk 1 table).field =
        .ok { stringtable := some table, scalars := [] } := by
      rw [absorb_lenChunk (splitField_table keepAll _) ht]
      rfl
    refine bind_eq_ok.mpr ⟨_, hfirst, ?_⟩
    unfold bytesChunks
    by_cases hnil : group = []
    · rw [if_pos hnil]
      rfl
    · have hskip : (cursor ph).skipField wireLen (lenValue group) = .ok [] :=
        wireErr_ok (ph.skipField_len.mpr ⟨group, hreadG⟩)
      rw [if_neg hnil, map_singleton, foldlM_cons]
      exact bind_eq_ok.mpr ⟨_, absorb_skip rfl hskip, rfl⟩
  rw [splitBlock, hwalk]
  rfl

lemma forEachGroup_built {σ : Type} {f : σ → Bytes → Result σ} {s : σ} {t : σ × Nat}
    (ht : table.length < 2 ^ 64) (hg : group.length < 2 ^ 64) :
    forEachGroup ph f s (join (blockChunks table group)) = .ok t ↔
      (group = [] ∧ t = (s, 0)) ∨ (group ≠ [] ∧ f s group = .ok t.1 ∧ t.2 = 1) := by
  have hreadT := @lenValue_read ph table ht
  rw [forEachGroup, walk_join_iff (local_groupField f) (framed_blockChunks ht hg), blockChunks,
    map_cons, foldlM_cons]
  have hskip : (cursor ph).skipField wireLen (lenValue table) = .ok [] :=
    wireErr_ok (ph.skipField_len.mpr ⟨table, hreadT⟩)
  have hfirst : absorb (groupField ph f) (s, 0) (lenChunk 1 table).field = .ok (s, 0) :=
    absorb_skip rfl hskip
  rw [hfirst, ok_bind]
  unfold bytesChunks
  by_cases hnil : group = []
  · rw [if_pos hnil]
    simp only [map_nil, foldlM_nil, hnil, ne_eq, not_true_eq_false, false_and, or_false, true_and]
    constructor
    · intro h
      cases h
      rfl
    · rintro rfl
      rfl
  · rw [if_neg hnil, map_singleton, foldlM_cons]
    have hsecond : absorb (groupField ph f) (s, 0) (lenChunk 2 group).field =
        (f s group).map fun acc => (acc, 1) := by
      rw [absorb_lenChunk (groupField_group f _) hg]
      cases f s group with
      | error e => rfl
      | ok acc => rfl
    rw [hsecond]
    simp only [hnil, false_and, ne_eq, not_false_eq_true, true_and, false_or]
    constructor
    · intro h
      obtain ⟨p, hp, h⟩ := bind_eq_ok.mp h
      obtain ⟨acc, hacc, rfl⟩ := map_eq_ok.mp hp
      cases h
      exact ⟨hacc, rfl⟩
    · rintro ⟨hacc, hone⟩
      refine bind_eq_ok.mpr ⟨t, map_eq_ok.mpr ⟨t.1, hacc, ?_⟩, rfl⟩
      rw [← hone]

lemma forEachGroup_walked {σ : Type} {h : Handler RewriteError (σ × Bytes)}
    (hl : Local (cursor ph) h) {f : σ × Bytes → Bytes → Result (σ × Bytes)}
    (hf : ∀ s group, f s group = (walk (cursor ph) h (s.1, []) group).map fun t =>
      (t.1, s.2 ++ ph.encodeBytesField 2 t.2))
    {s : σ × Bytes} {cs : List Chunk} (ht : table.length < 2 ^ 64)
    (hcs : ∀ c ∈ cs, IsWritten c) (hlen : (join cs).length < 2 ^ 64) :
    (∃ t, forEachGroup ph f s (join (blockChunks table (join cs))) = .ok t) ↔
      ∃ t, (cs.map Chunk.field).foldlM (absorb h) (s.1, []) = .ok t := by
  have hframed : ∀ c ∈ cs, c.Framed (cursor ph) := fun c hc =>
    framed_cursor.mpr (framed_of_isWritten hcs hlen c hc)
  have hwalk := fun t => @walk_join_iff _ _ (cursor ph) h hl (s.1, []) t cs hframed
  constructor
  · rintro ⟨t, ht'⟩
    rcases (forEachGroup_built ht hlen).mp ht' with ⟨hnil, -⟩ | ⟨-, hgroup, -⟩
    · rw [join_eq_nil hcs] at hnil
      subst hnil
      exact ⟨_, rfl⟩
    · rw [hf] at hgroup
      obtain ⟨u, hu, -⟩ := map_eq_ok.mp hgroup
      exact ⟨u, (hwalk u).mp hu⟩
  · rintro ⟨u, hu⟩
    by_cases hnil : join cs = []
    · exact ⟨(s, 0), (forEachGroup_built ht hlen).mpr (.inl ⟨hnil, rfl⟩)⟩
    · have hgroup : f s (join cs) = .ok (u.1, s.2 ++ ph.encodeBytesField 2 u.2) := by
        rw [hf]
        exact map_eq_ok.mpr ⟨u, (hwalk u).mpr hu, rfl⟩
      exact ⟨(_, 1), (forEachGroup_built ht hlen).mpr (.inr ⟨hnil, hgroup, rfl⟩)⟩

lemma length_group_lt (hlen : (join (lenChunk 1 table :: bytesChunks 2 group)).length < 2 ^ 64) :
    group.length < 2 ^ 64 := by
  rw [join_cons, length_append] at hlen
  by_cases hnil : group = []
  · simp [hnil]
  · rw [bytesChunks, if_neg hnil, join_cons, bytes_lenChunk, bytes_lenChunk, length_append] at hlen
    have := length_lt_lenField 2 group
    omega

lemma exists_map_ok {α β : Type} {x : Result α} {f : α → β} :
    (∃ b, x.map f = .ok b) ↔ ∃ a, x = .ok a := by
  cases x <;> simp [Except.map]

section Elements

variable {α σ : Type} {f : Nat} {chunks : Interned → α → List Chunk}
  {enc : Interned → α → Bytes × Interned}

/-- The chunks of a group's elements; one without any bytes has none. -/
def elementChunks (f : Nat) (chunks : Interned → α → List Chunk)
    (enc : Interned → α → Bytes × Interned) : Interned → List α → List Chunk
  | _, [] => []
  | s, a :: as => bytesChunks f (join (chunks s a)) ++ elementChunks f chunks enc (enc s a).2 as

lemma join_elementChunks {s : Interned} {as : List α}
    (henc : ∀ a ∈ as, ∀ s, (enc s a).1 = ph.encodeBytesField f (join (chunks s a))) :
    join (elementChunks f chunks enc s as) = encodeAll enc s as := by
  induction as generalizing s with
  | nil => rfl
  | cons a as ih =>
    rw [elementChunks, encodeAll, join_append, @join_bytesChunks ph, henc a mem_cons_self,
      ih fun b hb => henc b (mem_cons_of_mem _ hb)]

lemma isWritten_elementChunks (hf : 0 < f) (hf' : f < 2 ^ 29) (s : Interned) (as : List α) :
    ∀ c ∈ elementChunks f chunks enc s as, IsWritten c := by
  induction as generalizing s with
  | nil =>
    intro c hc
    cases hc
  | cons a as ih => exact isWritten_append (isWritten_bytesChunks _ hf hf') (ih _)

/-- An element's bytes and those behind it. -/
theorem length_elementChunks_cons (s : Interned) (a : α) (as : List α) :
    (join (elementChunks f chunks enc s (a :: as))).length =
      (join (bytesChunks f (join (chunks s a)))).length +
        (join (elementChunks f chunks enc (enc s a).2 as)).length := by
  rw [elementChunks, join_append, length_append]

/-- From a state that is ready for the elements, they are all absorbed exactly when each that has
any bytes is good. -/
theorem elements_fold_iff {h : Handler RewriteError σ} {Ready : Interned → σ → List α → Prop}
    {Good : α → Prop} (hgood : ∀ {s st a as}, Ready s st (a :: as) → join (chunks s a) ≠ [] →
      ((∃ t, absorb h st (lenChunk f (join (chunks s a))).field = .ok t) ↔ Good a))
    (hnext : ∀ {s st t a as}, Ready s st (a :: as) → join (chunks s a) ≠ [] →
      absorb h st (lenChunk f (join (chunks s a))).field = .ok t → Ready (enc s a).2 t as)
    (htail : ∀ {s st a as}, Ready s st (a :: as) → Ready (enc s a).2 st as)
    {Blank : α → Prop} (hiff : ∀ s a, join (chunks s a) = [] ↔ Blank a)
    {s : Interned} {st : σ} {as : List α} (hready : Ready s st as) :
    (∃ t, ((elementChunks f chunks enc s as).map Chunk.field).foldlM (absorb h) st = .ok t) ↔
      ∀ a ∈ as, Good a ∨ Blank a := by
  induction as generalizing s st with
  | nil =>
    constructor
    · intro _ a ha
      cases ha
    · intro _
      exact ⟨st, rfl⟩
  | cons a as ih =>
    rw [elementChunks, map_append, foldlM_append, forall_mem_cons]
    by_cases hnil : join (chunks s a) = []
    · have hskip : bytesChunks f (join (chunks s a)) = [] := if_pos hnil
      rw [hskip]
      have hrec := ih (htail hready)
      constructor
      · intro h
        exact ⟨.inr ((hiff s a).mp hnil), hrec.mp h⟩
      · intro h
        exact hrec.mpr h.2
    · have hone : bytesChunks f (join (chunks s a)) = [lenChunk f (join (chunks s a))] := if_neg hnil
      rw [hone, map_singleton, foldlM_cons]
      constructor
      · rintro ⟨t, ht⟩
        obtain ⟨s', hs', ht⟩ := bind_eq_ok.mp ht
        obtain ⟨s'', hs'', hpure⟩ := bind_eq_ok.mp hs'
        cases hpure
        refine ⟨.inl ((hgood hready hnil).mp ⟨s', hs''⟩), ?_⟩
        exact (ih (hnext hready hnil hs'')).mp ⟨t, ht⟩
      · rintro ⟨ha, has⟩
        have hga : Good a := by
          rcases ha with ha | ha
          · exact ha
          · exact absurd ((hiff s a).mpr ha) hnil
        obtain ⟨s', hs'⟩ := (hgood hready hnil).mpr hga
        obtain ⟨t, ht⟩ := (ih (hnext hready hnil hs')).mpr has
        exact ⟨t, bind_eq_ok.mpr ⟨s', bind_eq_ok.mpr ⟨s', hs', rfl⟩, ht⟩⟩

end Elements

lemma readRaw_len (hlen : body.length < 2 ^ 64) :
    ph.readRawField wireLen (lenValue body) = .ok (lenValue body, []) :=
  ph.readRawField_ok.mpr ⟨by simp, ph.skipField_len.mpr ⟨body, lenValue_read hlen⟩⟩

lemma wayPart_len {f : Nat} (hlen : body.length < 2 ^ 64) (hf : f ≠ 8) :
    readChunk (readWayPart ph) (lenChunk f body) = .ok .other := by
  have hother : readWayPart ph f wireLen = fun cur =>
      take (wireErr (ph.readRawField wireLen cur)) fun _ => .ok .other := by
    unfold readWayPart
    split
    · next h => cases h
    · next h => cases h
    · exact absurd rfl hf
    · rfl
  simp only [readChunk, lenChunk, hother, take, wireErr_ok (readRaw_len hlen)]
  rfl

lemma wayPart_refs (hlen : body.length < 2 ^ 64) :
    readChunk (readWayPart ph) (lenChunk 8 body) = .ok (.refs body) := by
  simp only [readChunk, lenChunk, readWayPart, take, wireErr_ok (lenValue_read hlen)]
  rfl

lemma readVarintI64_encode {v : Nat} (hv : v < 2 ^ 64) :
    ph.readVarintI64 (Varint.encode v) = .ok (asInt64 v, []) := by
  have h := Varint.decode_encode hv []
  rw [append_nil] at h
  exact ph.readVarintI64_ok.mpr ⟨v, h, rfl⟩

lemma wayPart_id {v : Nat} (hv : v < 2 ^ 64) :
    readChunk (readWayPart ph) (varintChunk 1 v) = .ok (.id (asInt64 v)) := by
  simp only [readChunk, varintChunk, readWayPart, take, wireErr_ok (readVarintI64_encode hv)]
  rfl

lemma mem_bytesChunks {f : Nat} {c : Chunk} (h : c ∈ bytesChunks f body) : c = lenChunk f body := by
  unfold bytesChunks at h
  split at h
  · cases h
  · exact mem_singleton.mp h

variable {s : Interned}

/-- The fields between the id and the refs: keys, values and metadata. -/
theorem mem_head_other {tags : List (String × String)} {metadata : Option Metadata} {c : Chunk}
    (hc : c ∈ tagChunks ph s tags ++ infoChunks ph (encodeTags ph s tags).2 metadata) :
    ∃ f body, c = lenChunk f body ∧ (f = 2 ∨ f = 3 ∨ f = 4) := by
  rcases mem_append.mp hc with hc | hc
  · unfold tagChunks at hc
    split at hc
    · rcases mem_append.mp hc with hc | hc
      · exact ⟨2, _, mem_bytesChunks hc, .inl rfl⟩
      · exact ⟨3, _, mem_bytesChunks hc, .inr (.inl rfl)⟩
    · cases hc
  · unfold infoChunks at hc
    split at hc
    · exact ⟨4, _, mem_bytesChunks hc, .inr (.inr rfl)⟩
    · cases hc

lemma mem_locationChunks {w : WayAdd} {c : Chunk} (hc : c ∈ locationChunks ph w) :
    ∃ f body, c = lenChunk f body ∧ (f = 9 ∨ f = 10) := by
  unfold locationChunks at hc
  split at hc
  · cases hc
  · rcases mem_append.mp hc with hc | hc
    · exact ⟨9, _, mem_bytesChunks hc, .inl rfl⟩
    · exact ⟨10, _, mem_bytesChunks hc, .inr rfl⟩

lemma length_body_le {f : Nat} {body : Bytes} {cs : List Chunk} (hc : lenChunk f body ∈ cs)
    (hlen : (join cs).length < 2 ^ 64) : body.length < 2 ^ 64 := by
  have h := length_bytes_le_join hc
  have h' := length_lt_lenField f body
  rw [bytes_lenChunk] at h
  omega

/-- What the scan of a built way finds: its id unless that is zero, its refs unless there are none. -/
theorem scanWay_built {w : WayAdd} (hlen : (join (w.chunks ph s)).length < 2 ^ 64) :
    ∃ scan, scanWay ph (join (w.chunks ph s)) = .ok scan ∧
      scan.id.map Prod.fst = (if w.id = 0 then none else some w.id) ∧
      (scan.refsRange = none ↔ w.refs = []) ∧
      scan.oldRefsData = packSint64 ph (deltasFrom 0 w.refs) := by
  have hframed : ∀ c ∈ w.chunks ph s, c.Framed (cursor ph) := fun c hc =>
    framed_cursor.mpr (framed_of_isWritten (isWritten_wayChunks s w) hlen c hc)
  have hother : ∀ {f : Nat} {body : Bytes} {t : WayScan},
      lenChunk f body ∈ w.chunks ph s → f ≠ 8 →
      ∃ a, readChunk (readWayPart ph) (lenChunk f body) = .ok a ∧
        ∀ start stop, placeWayPart t a start stop = .ok t := by
    intro f body t hc hf
    exact ⟨.other, wayPart_len (length_body_le hc hlen) hf, fun _ _ => rfl⟩
  -- The id, then what the rewriter copies, then the refs and what follows them.
  obtain ⟨s₁, hs₁, hid, hrange, hdata⟩ : ∃ s₁, placeAll (readWayPart ph) placeWayPart {} 0
      (int64Chunks 1 w.id) = .ok s₁ ∧ s₁.id.map Prod.fst = (if w.id = 0 then none else some w.id) ∧
        s₁.refsRange = none ∧ s₁.oldRefsData = [] := by
    unfold int64Chunks
    by_cases h0 : w.id = 0
    · rw [if_pos h0, if_pos h0]
      exact ⟨{}, rfl, rfl, rfl, rfl⟩
    · rw [if_neg h0, if_neg h0]
      refine ⟨_, placeAll_cons_ok.mpr ⟨_, _, wayPart_id (signExtend_lt _), rfl, rfl⟩, ?_, rfl, rfl⟩
      simp
  have hmid : ∀ pos, placeAll (readWayPart ph) placeWayPart s₁ pos (tagChunks ph s w.tags ++
      infoChunks ph (encodeTags ph s w.tags).2 w.metadata) = .ok s₁ := by
    intro pos
    refine placeAll_idle fun c hc => ?_
    obtain ⟨f, body, rfl, hf⟩ := mem_head_other hc
    refine hother ?_ (by omega)
    unfold WayAdd.chunks headChunks
    exact mem_append_left _ (mem_append_right _ hc)
  have hhead : placeAll (readWayPart ph) placeWayPart {} 0
      (headChunks ph s w.id w.tags w.metadata) = .ok s₁ :=
    placeAll_append_ok.mpr ⟨s₁, hs₁, hmid _⟩
  by_cases hrefs : w.refs = []
  · refine ⟨s₁, (spanWalk_join reads_wayPart hframed).mpr ?_, hid, ?_, ?_⟩
    · unfold WayAdd.chunks
      rw [if_neg (by simp [hrefs]), append_nil]
      exact hhead
    · simp [hrefs, hrange]
    · rw [hdata, hrefs]
      rfl
  · have hpack : packSint64 ph (deltasFrom 0 w.refs) ≠ [] := by
      rw [ne_eq, packSint64_eq_nil, ← length_eq_zero_iff, length_deltasFrom, length_eq_zero_iff]
      exact hrefs
    have hbytes : bytesChunks 8 (packSint64 ph (deltasFrom 0 w.refs)) =
        [lenChunk 8 (packSint64 ph (deltasFrom 0 w.refs))] := if_neg hpack
    have hmem : lenChunk 8 (packSint64 ph (deltasFrom 0 w.refs)) ∈ w.chunks ph s := by
      unfold WayAdd.chunks
      rw [if_pos hrefs, hbytes]
      simp
    obtain ⟨pos, hpos⟩ : ∃ pos, pos = 0 + (join (headChunks ph s w.id w.tags w.metadata)).length :=
      ⟨_, rfl⟩
    obtain ⟨stop, hstop⟩ : ∃ stop, stop =
        pos + (lenChunk 8 (packSint64 ph (deltasFrom 0 w.refs))).bytes.length := ⟨_, rfl⟩
    have htail : ∀ t pos', placeAll (readWayPart ph) placeWayPart t pos' (locationChunks ph w) =
        .ok t := by
      intro t pos'
      refine placeAll_idle fun c hc => ?_
      have hmemc : c ∈ w.chunks ph s := by
        unfold WayAdd.chunks
        rw [if_pos hrefs]
        exact mem_append_right _ (mem_append_right _ hc)
      obtain ⟨f, body, rfl, hf⟩ := mem_locationChunks hc
      exact hother hmemc (by omega)
    refine ⟨{ s₁ with
        oldRefsData := packSint64 ph (deltasFrom 0 w.refs), refsRange := some (pos, stop) },
      (spanWalk_join reads_wayPart hframed).mpr ?_, hid, by simp [hrefs], rfl⟩
    unfold WayAdd.chunks
    rw [if_pos hrefs, hbytes]
    refine placeAll_append_ok.mpr ⟨s₁, hhead, ?_⟩
    rw [← hpos]
    refine placeAll_append_ok.mpr ⟨_, ?_, htail _ _⟩
    refine placeAll_cons_ok.mpr ⟨_, _, wayPart_refs (length_body_le hmem hlen), ?_, rfl⟩
    simp only [placeWayPart, hdata, hrange]
    rw [if_neg (by simp), if_pos (by simp), hstop]

lemma refs_values (refs : List Int64) : ∃ vs, Varint.Values (packSint64 ph (deltasFrom 0 refs)) vs ∧
      vs.map asSint64 = deltasFrom 0 refs := values_packSint64 _

/-- References that are not negative all resolve, to ids that are not negative. -/
theorem exists_replacements {res : Int64 → Result (Int64 × Bool)} {number : Int64 → Int}
    {olds : List Int64} (hnumber : ∀ {old new orphan}, res old = .ok (new, orphan) →
      new.toInt = number old) (hres : ∀ old ∈ olds, ∃ new orphan, res old = .ok (new, orphan))
    (hpos : ∀ old ∈ olds, 0 ≤ number old) : ∃ rs : List Replacement, rs.map Replacement.old = olds ∧
      (∀ r ∈ rs, res r.old = .ok (r.new, r.orphan)) ∧ ∀ r ∈ rs, 0 ≤ r.new.toInt := by
  induction olds with
  | nil => exact ⟨[], rfl, by simp, by simp⟩
  | cons old olds ih =>
    obtain ⟨rs, hrs, hok, hnew⟩ := ih (fun x hx => hres x (mem_cons_of_mem _ hx))
      fun x hx => hpos x (mem_cons_of_mem _ hx)
    obtain ⟨new, orphan, h⟩ := hres old mem_cons_self
    refine ⟨⟨old, new, orphan⟩ :: rs, by rw [map_cons, hrs], ?_, ?_⟩
    · intro r hr
      rcases mem_cons.mp hr with rfl | hr
      · exact h
      · exact hok r hr
    · intro r hr
      rcases mem_cons.mp hr with rfl | hr
      · rw [hnumber h]
        exact hpos old mem_cons_self
      · exact hnew r hr

/-- The loop over refs whose numbers fit ends well exactly when none is negative. -/
theorem refs_fold_built {nodes : Space} {way : Int64} {refs : List Int64}
    (hstart : 0 ≤ nodes.start.toInt) (hfits : ∀ r ∈ refs, 0 ≤ r.toInt → nodes.Fits r)
    (hlen : refs.length < 2 ^ 64) :
    (∃ t, foldSint64 ph (refStep ph nodes way) {} (packSint64 ph (deltasFrom 0 refs)) = .ok t) ↔
      ∀ r ∈ refs, 0 ≤ r.toInt := by
  obtain ⟨vs, hvs, hdeltas⟩ := @refs_values ph refs
  have hzero : (0 : Int) ≤ ({} : RefIds).prevOld.toInt := by decide
  have hfold : ∀ t, foldSint64 ph (refStep ph nodes way) {} (packSint64 ph (deltasFrom 0 refs)) =
      .ok t ↔ ∃ rs, rs.map Replacement.old = refs ∧
        (∀ r ∈ rs, nodes.resolve r.old = .ok (r.new, r.orphan)) ∧
        Replaced ph "Way.refs (output)" {} rs t := by
    intro t
    rw [foldSint64_ok]
    constructor
    · rintro ⟨vs', hvs', h⟩
      rw [hvs'.unique hvs, hdeltas, refs_fold_ok hzero] at h
      obtain ⟨rs, hrs, h⟩ := h
      exact ⟨rs, hrs.trans (sumsFrom_deltasFrom 0 refs), h⟩
    · rintro ⟨rs, hrs, h⟩
      refine ⟨vs, hvs, ?_⟩
      rw [hdeltas, refs_fold_ok hzero]
      exact ⟨rs, hrs.trans (sumsFrom_deltasFrom 0 refs).symm, h⟩
  constructor
  · rintro ⟨t, h⟩
    obtain ⟨rs, rfl, -, hreplaced⟩ := (hfold t).mp h
    intro r hr
    obtain ⟨x, hx, rfl⟩ := mem_map.mp hr
    exact hreplaced.old_nonneg x hx
  · intro hpos
    obtain ⟨rs, hrs, hok, hnew⟩ := exists_replacements (fun h => Space.toInt_resolve h)
      (fun r hr => Space.fits_iff_resolve.mp (hfits r hr (hpos r hr)))
      fun r hr => Space.number_nonneg hstart (hpos r hr)
    have hcount : rs.length = refs.length := by rw [← hrs, length_map]
    have hold : ∀ r ∈ rs, 0 ≤ r.old.toInt := fun r hr =>
      hpos _ (hrs ▸ mem_map_of_mem hr)
    obtain ⟨t, ht⟩ := @replaced_of_nonneg ph "Way.refs (output)" {} rs hold hnew (by decide)
      (by rw [hcount]; simpa using hlen)
    exact ⟨t, (hfold t).mpr ⟨rs, hrs, hok, ht⟩⟩

/-- The way has all that the rewriter asks for. -/
def WayComplete (w : WayAdd) : Prop := w.id ≠ 0 ∧ w.refs ≠ [] ∧ ∀ r ∈ w.refs, 0 ≤ r.toInt

/-- A built way whose numbers fit is rewritten exactly when it is complete. -/
theorem reframeWay_built {w : WayAdd} {newWayId : Int64} {nodes : Space} {wayIdSet : IdSet}
    {span : Span} (hlen : (join (w.chunks ph s)).length < 2 ^ 64) (hid : 0 ≤ w.id.toInt)
    (hspan : ∀ prev, span.last = some prev → prev.toInt < w.id.toInt)
    (hstart : 0 ≤ nodes.start.toInt) (hfits : ∀ r ∈ w.refs, 0 ≤ r.toInt → nodes.Fits r) :
    (∃ r, reframeWay ph (join (w.chunks ph s)) newWayId nodes wayIdSet span = .ok r) ↔
      WayComplete w := by
  obtain ⟨scan, hscan, hscanId, hrange, hdata⟩ := scanWay_built hlen
  have hrefsLen := Nat.lt_of_le_of_lt (WayAdd.length_refs_le s w) hlen
  constructor
  · rintro ⟨r, h⟩
    obtain ⟨scan', id, span', refs, refsR, hscan', hid', -, -, hrefs, hrefsR, -⟩ :=
      reframeWay_ok.mp h
    rw [hscan] at hscan'
    cases hscan'
    rw [hid'] at hscanId
    refine ⟨?_, ?_, ?_⟩
    · intro h0
      rw [if_pos h0] at hscanId
      cases hscanId
    · intro hnil
      rw [hrange.mpr hnil] at hrefsR
      cases hrefsR
    · rw [hdata] at hrefs
      exact (refs_fold_built hstart hfits hrefsLen).mp ⟨refs, hrefs⟩
  · rintro ⟨h0, hne, hpos⟩
    rw [if_neg h0, Option.map_eq_some_iff] at hscanId
    obtain ⟨id, hid', hfst⟩ := hscanId
    obtain ⟨refsR, hrefsR⟩ := Option.ne_none_iff_exists'.mp (mt hrange.mp hne)
    obtain ⟨refs, hrefs⟩ := (@refs_fold_built ph nodes w.id w.refs hstart hfits hrefsLen).mpr hpos
    rw [← hdata, ← hfst] at hrefs
    rw [← hfst] at hid hspan
    exact ⟨_, reframeWay_ok.mpr ⟨scan, id, _, refs, refsR, hscan, hid', hid,
      Span.push_ok.mpr ⟨hspan, rfl⟩, hrefs, hrefsR, rfl⟩⟩

lemma reframeWay_built_result {w : WayAdd} {newWayId : Int64} {nodes : Space} {wayIdSet : IdSet}
    {span : Span} {r : Span × IdSet × Nat × Bytes}
    (hlen : (join (w.chunks ph s)).length < 2 ^ 64)
    (h : reframeWay ph (join (w.chunks ph s)) newWayId nodes wayIdSet span = .ok r) :
    r.1.last = some w.id ∧ r.2.2.1 ≤ w.refs.length := by
  obtain ⟨scan, hscan, hscanId, -, hdata⟩ := scanWay_built hlen
  obtain ⟨scan', id, span', refs, refsR, hscan', hid, -, hspan, hrefs, -, rfl⟩ :=
    reframeWay_ok.mp h
  rw [hscan] at hscan'
  cases hscan'
  refine ⟨?_, ?_⟩
  · obtain ⟨-, rfl⟩ := Span.push_ok.mp hspan
    rw [hid] at hscanId
    by_cases h0 : w.id = 0
    · rw [if_pos h0] at hscanId
      cases hscanId
    · rw [if_neg h0] at hscanId
      exact hscanId
  · rw [hdata] at hrefs
    obtain ⟨vs, hvs, hfold⟩ := foldSint64_ok.mp hrefs
    obtain ⟨vs', hvs', hdeltas⟩ := @refs_values ph w.refs
    rw [hvs.unique hvs', hdeltas] at hfold
    obtain ⟨rs, hrs, -, hreplaced⟩ := (refs_fold_ok (by decide)).mp hfold
    have hcount := countP_le_length (p := Replacement.orphan) (l := rs)
    have hlength := congrArg length hrs
    rw [length_map, length_sumsFrom, length_deltasFrom] at hlength
    have horphans : refs.orphans = 0 + rs.countP Replacement.orphan := hreplaced.result.2
    dsimp only
    omega

lemma wayGroupField_way (base : Int64) (nodes : Space) (s : WayState × Bytes) :
    wayGroupField ph base nodes s 3 wireLen = fun cur =>
      take (wireErr (ph.readLenDelimited cur)) fun wayBytes =>
        (offsetId base s.1.total).bind fun newWayId =>
          (reframeWay ph wayBytes newWayId nodes s.1.wayIdSet s.1.span).bind fun r =>
            (addOrphans s.1.orphans r.2.2.1).bind fun orphans => (inc s.1.total).map fun total =>
                ({ total, orphans, span := r.1, wayIdSet := r.2.1 },
                  s.2 ++ ph.encodeBytesField 3 r.2.2.2) := rfl

/-- One way of a group: a new id, the rewrite and the counts. -/
theorem absorb_way_ok {base : Int64} {nodes : Space} {st t : WayState × Bytes}
    (hlen : body.length < 2 ^ 64) :
    absorb (wayGroupField ph base nodes) st (lenChunk 3 body).field = .ok t ↔
      ∃ newWayId r, offsetId base st.1.total = .ok newWayId ∧
        reframeWay ph body newWayId nodes st.1.wayIdSet st.1.span = .ok r ∧
        st.1.orphans + r.2.2.1 < 2 ^ 64 ∧ st.1.total + 1 < 2 ^ 64 ∧
        t = ({ total := st.1.total + 1, orphans := st.1.orphans + r.2.2.1, span := r.1,
               wayIdSet := r.2.1 }, st.2 ++ ph.encodeBytesField 3 r.2.2.2) := by
  rw [absorb_lenChunk (wayGroupField_way base nodes st) hlen]
  constructor
  · intro h
    obtain ⟨newWayId, hnew, h⟩ := bind_eq_ok.mp h
    obtain ⟨r, hr, h⟩ := bind_eq_ok.mp h
    obtain ⟨orphans, ho, h⟩ := bind_eq_ok.mp h
    obtain ⟨total, htotal, rfl⟩ := map_eq_ok.mp h
    obtain ⟨rfl, horphans⟩ := addOrphans_ok.mp ho
    obtain ⟨rfl, hlt⟩ := inc_ok.mp htotal
    exact ⟨newWayId, r, hnew, hr, horphans, hlt, rfl⟩
  · rintro ⟨newWayId, r, hnew, hr, ho, htotal, rfl⟩
    exact bind_eq_ok.mpr ⟨newWayId, hnew, bind_eq_ok.mpr ⟨r, hr, bind_eq_ok.mpr
      ⟨_, addOrphans_ok.mpr ⟨rfl, ho⟩, map_eq_ok.mpr ⟨_, inc_ok.mpr ⟨rfl, htotal⟩, rfl⟩⟩⟩⟩

/-- What is left to rewrite fits: the ids ascend behind the last one, the new ids and the counts
are 64-bit numbers. -/
structure WaysReady (ph : Crate) (base : Int64) (nodes : Space) (s : Interned)
    (st : WayState × Bytes) (ws : List WayAdd) : Prop where
  ascending : (ws.map WayAdd.id).Pairwise fun a b => a.toInt < b.toInt
  nonneg : ∀ w ∈ ws, 0 ≤ w.id.toInt
  last : ∀ prev, st.1.span.last = some prev → ∀ w ∈ ws, prev.toInt < w.id.toInt
  total : st.1.total + (join (elementChunks 3 (WayAdd.chunks ph) (WayAdd.encode ph) s ws)).length <
    2 ^ 64
  orphans : st.1.orphans +
    (join (elementChunks 3 (WayAdd.chunks ph) (WayAdd.encode ph) s ws)).length < 2 ^ 64
  newIds : base.toInt + st.1.total + ws.length ≤ 2 ^ 63
  refs : ∀ w ∈ ws, ∀ r ∈ w.refs, 0 ≤ r.toInt → nodes.Fits r

section WaysReady

variable {base : Int64} {nodes : Space} {s : Interned} {st : WayState × Bytes} {w : WayAdd}
  {ws : List WayAdd}

/-- A way with bytes takes more of them than it has refs. -/
theorem WaysReady.length_way (hne : join (w.chunks ph s) ≠ []) :
    (join (w.chunks ph s)).length < (join (bytesChunks 3 (join (w.chunks ph s)))).length := by
  rw [bytesChunks, if_neg hne, join_cons, bytes_lenChunk, length_append]
  exact Nat.lt_of_lt_of_le (length_lt_lenField _ _) (Nat.le_add_right _ _)

lemma WaysReady.length_lt (h : WaysReady ph base nodes s st (w :: ws)) :
    (join (w.chunks ph s)).length < 2 ^ 64 := by
  have htotal := h.total
  rw [length_elementChunks_cons, @join_bytesChunks ph] at htotal
  have := @length_le_encodeBytesField ph 3 (join (w.chunks ph s))
  omega

lemma WaysReady.good (hbase : 0 ≤ base.toInt) (hstart : 0 ≤ nodes.start.toInt)
    (h : WaysReady ph base nodes s st (w :: ws)) (hne : join (w.chunks ph s) ≠ []) :
    (∃ t, absorb (wayGroupField ph base nodes) st (lenChunk 3 (join (w.chunks ph s))).field = .ok t) ↔
      WayComplete w := by
  have hlen := h.length_lt
  have hiff := fun newWayId => @reframeWay_built ph s w newWayId nodes st.1.wayIdSet st.1.span hlen
    (h.nonneg w mem_cons_self) (fun prev hprev => h.last prev hprev w mem_cons_self)
    hstart (h.refs w mem_cons_self)
  have hnew := h.newIds
  have htotal := h.total
  have horphans := h.orphans
  have hlt := WaysReady.length_way hne
  rw [length_elementChunks_cons] at htotal horphans
  rw [length_cons] at hnew
  constructor
  · rintro ⟨t, ht⟩
    obtain ⟨newWayId, r, -, hr, -⟩ := (absorb_way_ok hlen).mp ht
    exact (hiff newWayId).mp ⟨r, hr⟩
  · intro hcomplete
    obtain ⟨newWayId, -, hid⟩ := @toI64_isSome (base.toInt + st.1.total) (by omega) (by omega)
    obtain ⟨r, hr⟩ := (hiff newWayId).mpr hcomplete
    have hcount := (reframeWay_built_result hlen hr).2
    have hrefs := @WayAdd.length_refs_le ph s w
    exact ⟨_, (absorb_way_ok hlen).mpr ⟨newWayId, r, offsetId_ok.mpr hid, hr, by omega, by omega,
      rfl⟩⟩

lemma WaysReady.next {t : WayState × Bytes} (h : WaysReady ph base nodes s st (w :: ws))
    (hne : join (w.chunks ph s) ≠ [])
    (ht : absorb (wayGroupField ph base nodes) st (lenChunk 3 (join (w.chunks ph s))).field = .ok t) :
    WaysReady ph base nodes (w.encode ph s).2 t ws := by
  have hlen := h.length_lt
  obtain ⟨newWayId, r, -, hr, -, -, rfl⟩ := (absorb_way_ok hlen).mp ht
  obtain ⟨hlast, hcount⟩ := reframeWay_built_result hlen hr
  have hnew := h.newIds
  have htotal := h.total
  have horphans := h.orphans
  have hlt := WaysReady.length_way hne
  have hrefs := @WayAdd.length_refs_le ph s w
  rw [length_elementChunks_cons] at htotal horphans
  rw [length_cons] at hnew
  have hasc := h.ascending
  rw [map_cons, pairwise_cons] at hasc
  refine ⟨hasc.2, fun x hx => h.nonneg x (mem_cons_of_mem _ hx), ?_, ?_, ?_, ?_,
    fun x hx => h.refs x (mem_cons_of_mem _ hx)⟩
  · intro prev hprev x hx
    rw [hlast] at hprev
    cases hprev
    exact hasc.1 _ (mem_map_of_mem hx)
  · dsimp only
    omega
  · dsimp only
    omega
  · dsimp only
    push_cast
    omega

lemma WaysReady.tail (h : WaysReady ph base nodes s st (w :: ws)) :
    WaysReady ph base nodes (w.encode ph s).2 st ws := by
  have hnew := h.newIds
  have htotal := h.total
  have horphans := h.orphans
  have hasc := h.ascending
  rw [length_elementChunks_cons] at htotal horphans
  rw [length_cons] at hnew
  rw [map_cons, pairwise_cons] at hasc
  exact ⟨hasc.2, fun x hx => h.nonneg x (mem_cons_of_mem _ hx),
    fun prev hprev x hx => h.last prev hprev x (mem_cons_of_mem _ hx), by omega, by omega,
    by push_cast at hnew; omega, fun x hx => h.refs x (mem_cons_of_mem _ hx)⟩

end WaysReady

lemma reframeWays_built {ws : List WayAdd} {cap : Nat} {hcap : 0 < cap} {b : Builder}
    {bytes : Bytes} {base : Int64} {nodes : Space} {wayIdSet : IdSet}
    (htake : (ws.foldl (WayAdd.add ph) (Builder.withElementCap cap hcap)).take ph =
      .ok (some bytes, b)) (hlen : bytes.length < 2 ^ 64)
    (hasc : (ws.map WayAdd.id).Pairwise fun a b => a.toInt < b.toInt)
    (hnonneg : ∀ w ∈ ws, 0 ≤ w.id.toInt) (hbase : 0 ≤ base.toInt)
    (hnew : base.toInt + ws.length ≤ 2 ^ 63) (hstart : 0 ≤ nodes.start.toInt)
    (hrefs : ∀ w ∈ ws, ∀ r ∈ w.refs, 0 ≤ r.toInt → nodes.Fits r) :
    (∃ r, reframeWaysWithNewIds ph bytes base nodes wayIdSet = .ok r) ↔
      ∀ w ∈ ws, WayComplete w ∨ w.Blank := by
  obtain ⟨table, htable, hpaired, rfl⟩ := take_pushed addWay_clean (by decide) htake
  have hjoin : join (elementChunks 3 (WayAdd.chunks ph) (WayAdd.encode ph) {} ws) =
      encodeAll (WayAdd.encode ph) {} ws :=
    join_elementChunks fun w hw s => WayAdd.encode_eq (hpaired w hw)
  rw [← hjoin] at hlen ⊢
  have hglen := length_group_lt hlen
  have hready : ∀ out, WaysReady ph base nodes {} (({ wayIdSet } : WayState), out) ws := by
    intro out
    exact ⟨hasc, hnonneg, by simp, by simpa using hglen, by simpa using hglen,
      by simpa using hnew, hrefs⟩
  have hfold := @elements_fold_iff _ _ 3 (WayAdd.chunks ph) (WayAdd.encode ph)
    (wayGroupField ph base nodes) (WaysReady ph base nodes) WayComplete
    (fun h => h.good hbase hstart) (fun h => h.next) (fun h => h.tail) WayAdd.Blank
    (fun s w => WayAdd.join_chunks_eq_nil) {} _ ws (hready [])
  have hgroups := forEachGroup_walked (local_wayGroupField base nodes)
    (f := reframeWayGroup ph base nodes)
    (s := (({ wayIdSet } : WayState), ph.encodeBytesFieldAlways 1 table)) (fun _ _ => rfl) htable
    (isWritten_elementChunks (by omega) (by omega) {} ws) hglen
  unfold reframeWaysWithNewIds
  rw [← hfold, ← hgroups, ← blockChunks, splitBlock_built htable hglen]
  exact exists_map_ok

lemma relationPart_len {f : Nat} (hlen : body.length < 2 ^ 64) (h9 : f ≠ 9) (h10 : f ≠ 10) :
    readChunk (readRelationPart ph) (lenChunk f body) = .ok .other := by
  have hother : readRelationPart ph f wireLen = fun cur =>
      take (wireErr (ph.readRawField wireLen cur)) fun _ => .ok .other := by
    unfold readRelationPart
    split
    · next h => cases h
    · exact absurd rfl h9
    · exact absurd rfl h10
    · next h => cases h
    · next h => cases h
    · rfl
  simp only [readChunk, lenChunk, hother, take, wireErr_ok (readRaw_len hlen)]
  rfl

lemma relationPart_memids (hlen : body.length < 2 ^ 64) :
    readChunk (readRelationPart ph) (lenChunk 9 body) = .ok (.memids body) := by
  simp only [readChunk, lenChunk, readRelationPart, take, wireErr_ok (lenValue_read hlen)]
  rfl

lemma relationPart_types (hlen : body.length < 2 ^ 64) :
    readChunk (readRelationPart ph) (lenChunk 10 body) = .ok (.types body) := by
  simp only [readChunk, lenChunk, readRelationPart, take, wireErr_ok (lenValue_read hlen)]
  rfl

lemma relationPart_id {v : Nat} (hv : v < 2 ^ 64) :
    readChunk (readRelationPart ph) (varintChunk 1 v) = .ok (.id (asInt64 v)) := by
  simp only [readChunk, varintChunk, readRelationPart, take, wireErr_ok (readVarintI64_encode hv)]
  rfl

lemma packInt32_eq_nil {xs : List Int32} : packInt32 ph xs = [] ↔ xs = [] := by
  rw [packInt32_eq, flatMap_encode_eq_nil]
  exact map_eq_nil_iff

variable (r : RelationAdd)

def memberIds : List Int64 := r.members.map fun m => memberIdOf m.id

def memberTypes : List Int32 := r.members.map fun m => memberTypeValue m.id

/-- What the scan of a built relation finds: its id unless that is zero, and its members. -/
theorem scanRelation_built {r : RelationAdd} (hlen : (join (r.chunks ph s)).length < 2 ^ 64) :
    ∃ scan, scanRelation ph (join (r.chunks ph s)) = .ok scan ∧
      scan.id.map Prod.fst = (if r.id = 0 then none else some r.id) ∧
      scan.oldMemidsData = packSint64 ph (deltasFrom 0 (memberIds r)) ∧
      scan.typesData = packInt32 ph (memberTypes r) := by
  have hframed : ∀ c ∈ r.chunks ph s, c.Framed (cursor ph) := fun c hc =>
    framed_cursor.mpr (framed_of_isWritten (isWritten_relationChunks s r) hlen c hc)
  obtain ⟨s₁, hs₁, hid, hrange, hmemids, htypes⟩ : ∃ s₁,
      placeAll (readRelationPart ph) placeRelationPart {} 0 (int64Chunks 1 r.id) = .ok s₁ ∧
        s₁.id.map Prod.fst = (if r.id = 0 then none else some r.id) ∧ s₁.memidsRange = none ∧
        s₁.oldMemidsData = [] ∧ s₁.typesData = [] := by
    unfold int64Chunks
    by_cases h0 : r.id = 0
    · rw [if_pos h0, if_pos h0]
      exact ⟨{}, rfl, rfl, rfl, rfl, rfl⟩
    · rw [if_neg h0, if_neg h0]
      refine ⟨_, placeAll_cons_ok.mpr ⟨_, _, relationPart_id (signExtend_lt _), rfl, rfl⟩, ?_, rfl,
        rfl, rfl⟩
      simp
  have hmid : ∀ pos, placeAll (readRelationPart ph) placeRelationPart s₁ pos
      (tagChunks ph s r.tags ++ infoChunks ph (encodeTags ph s r.tags).2 r.metadata) = .ok s₁ := by
    intro pos
    refine placeAll_idle fun c hc => ?_
    have hmem : c ∈ r.chunks ph s := by
      unfold RelationAdd.chunks headChunks
      exact mem_append_left _ (mem_append_right _ hc)
    obtain ⟨f, body, rfl, hf⟩ := mem_head_other hc
    exact ⟨.other, relationPart_len (length_body_le hmem hlen) (by omega) (by omega),
      fun _ _ => rfl⟩
  have hhead : placeAll (readRelationPart ph) placeRelationPart {} 0
      (headChunks ph s r.id r.tags r.metadata) = .ok s₁ :=
    placeAll_append_ok.mpr ⟨s₁, hs₁, hmid _⟩
  by_cases hmembers : r.members = []
  · refine ⟨s₁, (spanWalk_join reads_relationPart hframed).mpr ?_, hid, ?_, ?_⟩
    · unfold RelationAdd.chunks
      rw [if_neg (by simp [hmembers]), append_nil]
      exact hhead
    · rw [hmemids, memberIds, hmembers]
      rfl
    · rw [htypes, memberTypes, hmembers]
      rfl
  · have hpack : packSint64 ph (deltasFrom 0 (memberIds r)) ≠ [] :=
      mt (deltas_eq_nil _).mp hmembers
    have hpackT : packInt32 ph (memberTypes r) ≠ [] := by
      rw [ne_eq, packInt32_eq_nil, memberTypes, map_eq_nil_iff]
      exact hmembers
    obtain ⟨roles, hchunks⟩ : ∃ roles, r.chunks ph s = headChunks ph s r.id r.tags r.metadata ++
        (bytesChunks 8 roles ++ ([lenChunk 9 (packSint64 ph (deltasFrom 0 (memberIds r)))] ++
          [lenChunk 10 (packInt32 ph (memberTypes r))])) := by
      unfold RelationAdd.chunks
      rw [if_pos hmembers]
      refine ⟨_, congrArg _ (congrArg _ ?_)⟩
      rw [bytesChunks, bytesChunks]
      exact congrArg₂ _ (if_neg hpack) (if_neg hpackT)
    rw [hchunks] at hframed hlen ⊢
    have hroles : ∀ t pos, placeAll (readRelationPart ph) placeRelationPart t pos
        (bytesChunks 8 roles) = .ok t := by
      intro t pos
      refine placeAll_idle fun c hc => ?_
      have heq := mem_bytesChunks hc
      subst heq
      have hrolesLen : roles.length < 2 ^ 64 :=
        @length_body_le 8 roles _ (mem_append_right _ (mem_append_left _ hc)) hlen
      exact ⟨.other, relationPart_len hrolesLen (by omega) (by omega), fun _ _ => rfl⟩
    have hmemidsLen := @length_body_le 9 (packSint64 ph (deltasFrom 0 (memberIds r))) _ (by simp) hlen
    have htypesLen := @length_body_le 10 (packInt32 ph (memberTypes r)) _ (by simp) hlen
    have hplace9 : ∀ start stop, placeRelationPart s₁
        (.memids (packSint64 ph (deltasFrom 0 (memberIds r)))) start stop = .ok { s₁ with
          oldMemidsData := packSint64 ph (deltasFrom 0 (memberIds r))
          memidsRange := some (start, stop) } := by
      intro start stop
      simp only [placeRelationPart, hmemids, hrange]
      rw [if_neg (by simp), if_pos (by simp)]
    have hplace10 : ∀ t start stop, t.typesData = [] → placeRelationPart t
        (.types (packInt32 ph (memberTypes r))) start stop =
          .ok { t with typesData := packInt32 ph (memberTypes r) } := by
      intro t start stop ht
      simp only [placeRelationPart, ht]
      rw [if_neg hpackT, if_neg (by simp)]
    refine ⟨_, (spanWalk_join reads_relationPart hframed).mpr (placeAll_append_ok.mpr ⟨s₁, hhead,
      placeAll_append_ok.mpr ⟨s₁, hroles _ _, placeAll_append_ok.mpr ⟨_, placeAll_cons_ok.mpr
        ⟨_, _, relationPart_memids hmemidsLen, hplace9 _ _, rfl⟩, placeAll_cons_ok.mpr
          ⟨_, _, relationPart_types htypesLen, hplace10 _ _ _ htypes, rfl⟩⟩⟩⟩), hid, rfl, rfl⟩

variable (ids : RelationIdSpaces)

/-- The space of a member's own type. -/
def spaceOf : MergeJoin.MemberId → Space
  | .node _ | .unknown .. => ids.nodes
  | .way _ => ids.ways
  | .relation _ => ids.relations

lemma memberSpace_typeValue (m : MergeJoin.MemberId) :
    memberSpace ids (signExtend (memberTypeValue m).toInt) = some (spaceOf ids m) := by
  cases m <;> rfl

lemma resolveMember_ok {ids : RelationIdSpaces} {rel old new : Int64} {orphan : Bool}
    {m : MergeJoin.MemberId} :
    resolveMember ids rel (signExtend (memberTypeValue m).toInt) old = .ok (new, orphan) ↔
      (spaceOf ids m).resolve old = .ok (new, orphan) := by
  unfold resolveMember
  rw [memberSpace_typeValue]
  exact withContext_eq_ok

/-- The members' new ids start no lower than zero. -/
structure RelationIdSpaces.NonNeg (ids : RelationIdSpaces) : Prop where
  nodes : 0 ≤ ids.nodes.start.toInt
  ways : 0 ≤ ids.ways.start.toInt
  relations : 0 ≤ ids.relations.start.toInt

lemma RelationIdSpaces.NonNeg.spaceOf {ids : RelationIdSpaces}
    (h : RelationIdSpaces.NonNeg ids) (m : MergeJoin.MemberId) :
    0 ≤ (spaceOf ids m).start.toInt := by
  cases m with
  | node id => exact h.nodes
  | way id => exact h.ways
  | relation id => exact h.relations
  | unknown raw id => exact h.nodes

lemma exists_members {ids : RelationIdSpaces} {rel : Int64} (hstart : RelationIdSpaces.NonNeg ids)
    {ms : List MemberData} (hpos : ∀ m ∈ ms, 0 ≤ (memberIdOf m.id).toInt)
    (hfits : ∀ m ∈ ms, (spaceOf ids m.id).Fits (memberIdOf m.id)) :
    ∃ rs : List Replacement, rs.map Replacement.old = ms.map (fun m => memberIdOf m.id) ∧
      List.Forall₂ (fun ty r => resolveMember ids rel ty r.old = .ok (r.new, r.orphan))
        (ms.map fun m => signExtend (memberTypeValue m.id).toInt) rs ∧
      (∀ r ∈ rs, 0 ≤ r.old.toInt) ∧ ∀ r ∈ rs, 0 ≤ r.new.toInt := by
  induction ms with
  | nil => exact ⟨[], rfl, .nil, by simp, by simp⟩
  | cons m ms ih =>
    obtain ⟨rs, hrs, hok, hold, hnew⟩ := ih (fun x hx => hpos x (mem_cons_of_mem _ hx))
      fun x hx => hfits x (mem_cons_of_mem _ hx)
    have hm := hpos m mem_cons_self
    obtain ⟨new, orphan, h⟩ := Space.fits_iff_resolve.mp (hfits m mem_cons_self)
    refine ⟨⟨memberIdOf m.id, new, orphan⟩ :: rs, ?_, .cons (resolveMember_ok.mpr h) hok, ?_, ?_⟩
    · rw [map_cons, map_cons, hrs]
    · exact forall_mem_cons.mpr ⟨hm, hold⟩
    · refine forall_mem_cons.mpr ⟨?_, hnew⟩
      dsimp only
      rw [Space.toInt_resolve h]
      exact Space.number_nonneg (hstart.spaceOf m.id) hm

lemma values_packInt32 (xs : List Int32) :
    Varint.Values (packInt32 ph xs) (xs.map fun x => signExtend x.toInt) := by
  rw [packInt32_eq]
  refine values_encode fun v hv => ?_
  obtain ⟨x, -, rfl⟩ := mem_map.mp hv
  exact signExtend_lt _

/-- The loop over a built relation's members, as the replacements it makes. -/
theorem reframeMembers_built_ok {ids : RelationIdSpaces} {rel : Int64} {r : RelationAdd} {t : RefIds}
    (hlen : r.members.length < 2 ^ 64) :
    reframeMembers ph ids rel (packSint64 ph (deltasFrom 0 (memberIds r)))
        (packInt32 ph (memberTypes r)) = .ok t ↔ ∃ rs, rs.map Replacement.old = memberIds r ∧
        List.Forall₂ (fun ty x => resolveMember ids rel ty x.old = .ok (x.new, x.orphan))
          (r.members.map fun m => signExtend (memberTypeValue m.id).toInt) rs ∧
        Replaced ph "Relation.memids (output)" {} rs t := by
  obtain ⟨vs, hvs, hdeltas⟩ := @values_packSint64 ph (deltasFrom 0 (memberIds r))
  have hts := @values_packInt32 ph (memberTypes r)
  have htypes : (memberTypes r).map (fun x => signExtend x.toInt) =
      r.members.map fun m => signExtend (memberTypeValue m.id).toInt := by
    rw [memberTypes, List.map_map]
    rfl
  rw [htypes] at hts
  have hcount : vs.length = r.members.length := by
    have := congrArg length hdeltas
    rwa [length_map, length_deltasFrom, memberIds, length_map] at this
  have hlengths : (r.members.map fun m => signExtend (memberTypeValue m.id).toInt).length =
      vs.length := by rw [length_map, hcount]
  have hsums : sumsFrom 0 (vs.map asSint64) = memberIds r := by
    rw [hdeltas, sumsFrom_deltasFrom]
  have hfold := @members_fold_ok ph ids rel _ _ _ _ {} t hts hvs hlengths (by decide)
  have hmem : countVarintsStrict ph (packSint64 ph (deltasFrom 0 (memberIds r))) = .ok vs.length :=
    countVarintsStrict_ok.mpr ⟨vs, hvs, rfl, .inr (by omega)⟩
  have htyp : countVarintsStrict ph (packInt32 ph (memberTypes r)) = .ok vs.length :=
    countVarintsStrict_ok.mpr ⟨_, hts, hlengths.symm, .inr (by omega)⟩
  have hsums' : sumsFrom ({} : RefIds).prevOld (vs.map asSint64) = memberIds r := hsums
  rw [hsums'] at hfold
  unfold reframeMembers
  by_cases hmembers : r.members = []
  · have h9 : packSint64 ph (deltasFrom 0 (memberIds r)) = [] := (deltas_eq_nil _).mpr hmembers
    have h10 : packInt32 ph (memberTypes r) = [] := by
      rw [packInt32_eq_nil, memberTypes, hmembers, map_nil]
    have hzero : vs.length = 0 := by rw [hcount, hmembers, length_nil]
    rw [if_neg (by simp [h9, h10]), ← hfold, hzero]
    rfl
  · have h9 : packSint64 ph (deltasFrom 0 (memberIds r)) ≠ [] := mt (deltas_eq_nil _).mp hmembers
    rw [if_pos (.inl h9), ← hfold, hmem, htyp]
    simp [withContext, Except.mapError, Except.bind]

/-- The relation has all that the rewriter asks for. -/
def RelationComplete : Prop := r.id ≠ 0 ∧ ∀ id ∈ memberIds r, 0 ≤ id.toInt

/-- Every number that a relation's rewrite gives out is a 64-bit id. -/
structure RelationFits (ids : RelationIdSpaces) (r : RelationAdd) : Prop where
  collected : r.id ∈ ids.relations.set.ids
  newId : ids.relations.Fits r.id
  members : ∀ m ∈ r.members, 0 ≤ (memberIdOf m.id).toInt → (spaceOf ids m.id).Fits (memberIdOf m.id)

/-- A built relation whose numbers fit is rewritten exactly when it is complete. -/
theorem reframeRelation_built {r : RelationAdd} {ids : RelationIdSpaces} {span : Span}
    (hlen : (join (r.chunks ph s)).length < 2 ^ 64) (hid : 0 ≤ r.id.toInt)
    (hspan : ∀ prev, span.last = some prev → prev.toInt < r.id.toInt)
    (hstart : RelationIdSpaces.NonNeg ids) (hfits : RelationFits ids r) :
    (∃ x, reframeRelation ph (join (r.chunks ph s)) ids span = .ok x) ↔ RelationComplete r := by
  obtain ⟨scan, hscan, hscanId, hmemids, htypes⟩ := scanRelation_built hlen
  have hmembersLen := Nat.lt_of_le_of_lt (RelationAdd.length_members_le s r) hlen
  constructor
  · rintro ⟨x, h⟩
    obtain ⟨scan', id, span', newRelId, members, hscan', hid', -, -, -, hmembers, -⟩ :=
      reframeRelation_ok.mp h
    rw [hscan] at hscan'
    cases hscan'
    rw [hid'] at hscanId
    refine ⟨?_, ?_⟩
    · intro h0
      rw [if_pos h0] at hscanId
      cases hscanId
    · rw [hmemids, htypes, reframeMembers_built_ok hmembersLen] at hmembers
      obtain ⟨rs, hrs, -, hreplaced⟩ := hmembers
      rw [← hrs]
      exact forall_mem_map.mpr hreplaced.old_nonneg
  · rintro ⟨h0, hpos⟩
    rw [if_neg h0, Option.map_eq_some_iff] at hscanId
    obtain ⟨id, hid', hfst⟩ := hscanId
    have hpos' := forall_mem_map.mp hpos
    obtain ⟨rs, hrs, hok, hold, hnew⟩ := @exists_members ids id.1 hstart r.members hpos'
      fun m hm => hfits.members m hm (hpos' m hm)
    have hcount : rs.length = r.members.length := by
      have := congrArg length hrs
      rwa [length_map, length_map] at this
    obtain ⟨t, ht⟩ := @replaced_of_nonneg ph "Relation.memids (output)" {} rs hold hnew (by decide)
      (by rw [hcount]; simpa using hmembersLen)
    have hmembers : reframeMembers ph ids id.1 scan.oldMemidsData scan.typesData = .ok t := by
      rw [hmemids, htypes, reframeMembers_built_ok hmembersLen]
      exact ⟨rs, hrs, hok, ht⟩
    obtain ⟨newRelId, hlive⟩ := Space.live_of_fits hfits.collected hfits.newId
    rw [← hfst] at hid hspan hlive
    exact ⟨_, reframeRelation_ok.mpr ⟨scan, id, _, newRelId, t, hscan, hid', hid,
      Span.push_ok.mpr ⟨hspan, rfl⟩, hlive, hmembers, rfl⟩⟩

lemma reframeRelation_built_result {r : RelationAdd} {ids : RelationIdSpaces} {span : Span}
    {x : Span × Int64 × Nat × Bytes} (hlen : (join (r.chunks ph s)).length < 2 ^ 64)
    (h : reframeRelation ph (join (r.chunks ph s)) ids span = .ok x) :
    x.1.last = some r.id ∧ x.2.2.1 ≤ r.members.length := by
  obtain ⟨scan, hscan, hscanId, hmemids, htypes⟩ := scanRelation_built hlen
  have hmembersLen := Nat.lt_of_le_of_lt (RelationAdd.length_members_le s r) hlen
  obtain ⟨scan', id, span', newRelId, members, hscan', hid, -, hspan, -, hmembers, rfl⟩ :=
    reframeRelation_ok.mp h
  rw [hscan] at hscan'
  cases hscan'
  refine ⟨?_, ?_⟩
  · obtain ⟨-, rfl⟩ := Span.push_ok.mp hspan
    rw [hid] at hscanId
    by_cases h0 : r.id = 0
    · rw [if_pos h0] at hscanId
      cases hscanId
    · rw [if_neg h0] at hscanId
      exact hscanId
  · rw [hmemids, htypes, reframeMembers_built_ok hmembersLen] at hmembers
    obtain ⟨rs, hrs, -, hreplaced⟩ := hmembers
    have hcount := countP_le_length (p := Replacement.orphan) (l := rs)
    have hlength := congrArg length hrs
    rw [length_map, memberIds, length_map] at hlength
    have horphans : members.orphans = 0 + rs.countP Replacement.orphan := hreplaced.result.2
    dsimp only
    omega

lemma relationGroupField_relation (s : RelationState × Bytes) :
    relationGroupField ph ids s 4 wireLen = fun cur =>
      take (wireErr (ph.readLenDelimited cur)) fun relBytes =>
        (reframeRelation ph relBytes ids s.1.span).bind fun r =>
          (addOrphans s.1.orphans r.2.2.1).bind fun orphans => (inc s.1.total).map fun total =>
              ({ total, orphans, span := r.1, newRange := some (widen s.1.newRange r.2.1) },
                s.2 ++ ph.encodeBytesField 4 r.2.2.2) := rfl

lemma absorb_relation_ok {ids : RelationIdSpaces} {st : RelationState × Bytes}
    (hlen : body.length < 2 ^ 64) :
    absorb (relationGroupField ph ids) st (lenChunk 4 body).field = .ok t ↔
      ∃ r, reframeRelation ph body ids st.1.span = .ok r ∧
        st.1.orphans + r.2.2.1 < 2 ^ 64 ∧ st.1.total + 1 < 2 ^ 64 ∧
        t = ({ total := st.1.total + 1, orphans := st.1.orphans + r.2.2.1, span := r.1,
               newRange := some (widen st.1.newRange r.2.1) },
          st.2 ++ ph.encodeBytesField 4 r.2.2.2) := by
  rw [absorb_lenChunk (relationGroupField_relation ids st) hlen]
  constructor
  · intro h
    obtain ⟨r, hr, h⟩ := bind_eq_ok.mp h
    obtain ⟨orphans, ho, h⟩ := bind_eq_ok.mp h
    obtain ⟨total, htotal, rfl⟩ := map_eq_ok.mp h
    obtain ⟨rfl, horphans⟩ := addOrphans_ok.mp ho
    obtain ⟨rfl, hlt⟩ := inc_ok.mp htotal
    exact ⟨r, hr, horphans, hlt, rfl⟩
  · rintro ⟨r, hr, ho, htotal, rfl⟩
    exact bind_eq_ok.mpr ⟨r, hr, bind_eq_ok.mpr ⟨_, addOrphans_ok.mpr ⟨rfl, ho⟩,
      map_eq_ok.mpr ⟨_, inc_ok.mpr ⟨rfl, htotal⟩, rfl⟩⟩⟩

structure RelationsReady (ph : Crate) (ids : RelationIdSpaces) (s : Interned)
    (st : RelationState × Bytes) (rs : List RelationAdd) : Prop where
  ascending : (rs.map RelationAdd.id).Pairwise fun a b => a.toInt < b.toInt
  nonneg : ∀ r ∈ rs, 0 ≤ r.id.toInt
  last : ∀ prev, st.1.span.last = some prev → ∀ r ∈ rs, prev.toInt < r.id.toInt
  total : st.1.total +
    (join (elementChunks 4 (RelationAdd.chunks ph) (RelationAdd.encode ph) s rs)).length < 2 ^ 64
  orphans : st.1.orphans +
    (join (elementChunks 4 (RelationAdd.chunks ph) (RelationAdd.encode ph) s rs)).length < 2 ^ 64
  fits : ∀ r ∈ rs, RelationFits ids r

section RelationsReady

variable {ids : RelationIdSpaces} {s : Interned} {st : RelationState × Bytes}
  {r : RelationAdd} {rs : List RelationAdd}

lemma RelationsReady.length_relation (hne : join (r.chunks ph s) ≠ []) :
    (join (r.chunks ph s)).length < (join (bytesChunks 4 (join (r.chunks ph s)))).length := by
  rw [bytesChunks, if_neg hne, join_cons, bytes_lenChunk, length_append]
  exact Nat.lt_of_lt_of_le (length_lt_lenField _ _) (Nat.le_add_right _ _)

lemma RelationsReady.length_lt (h : RelationsReady ph ids s st (r :: rs)) :
    (join (r.chunks ph s)).length < 2 ^ 64 := by
  have htotal := h.total
  rw [length_elementChunks_cons, @join_bytesChunks ph] at htotal
  have := @length_le_encodeBytesField ph 4 (join (r.chunks ph s))
  omega

lemma RelationsReady.good (hstart : RelationIdSpaces.NonNeg ids)
    (h : RelationsReady ph ids s st (r :: rs)) (hne : join (r.chunks ph s) ≠ []) :
    (∃ t, absorb (relationGroupField ph ids) st (lenChunk 4 (join (r.chunks ph s))).field = .ok t) ↔
      RelationComplete r := by
  have hlen := h.length_lt
  have hiff := @reframeRelation_built ph s r ids st.1.span hlen (h.nonneg r mem_cons_self)
    (fun prev hprev => h.last prev hprev r mem_cons_self) hstart
    (h.fits r mem_cons_self)
  have htotal := h.total
  have horphans := h.orphans
  have hlt := RelationsReady.length_relation hne
  rw [length_elementChunks_cons] at htotal horphans
  constructor
  · rintro ⟨t, ht⟩
    obtain ⟨x, hx, -⟩ := (absorb_relation_ok hlen).mp ht
    exact hiff.mp ⟨x, hx⟩
  · intro hcomplete
    obtain ⟨x, hx⟩ := hiff.mpr hcomplete
    have hcount := (reframeRelation_built_result hlen hx).2
    have hmembers := @RelationAdd.length_members_le ph s r
    exact ⟨_, (absorb_relation_ok hlen).mpr ⟨x, hx, by omega, by omega, rfl⟩⟩

lemma RelationsReady.next (h : RelationsReady ph ids s st (r :: rs))
    (hne : join (r.chunks ph s) ≠ [])
    (ht : absorb (relationGroupField ph ids) st (lenChunk 4 (join (r.chunks ph s))).field = .ok t) :
    RelationsReady ph ids (r.encode ph s).2 t rs := by
  have hlen := h.length_lt
  obtain ⟨x, hx, -, -, rfl⟩ := (absorb_relation_ok hlen).mp ht
  obtain ⟨hlast, hcount⟩ := reframeRelation_built_result hlen hx
  have htotal := h.total
  have horphans := h.orphans
  have hlt := RelationsReady.length_relation hne
  have hmembers := @RelationAdd.length_members_le ph s r
  rw [length_elementChunks_cons] at htotal horphans
  have hasc := h.ascending
  rw [map_cons, pairwise_cons] at hasc
  refine ⟨hasc.2, fun y hy => h.nonneg y (mem_cons_of_mem _ hy), ?_, ?_, ?_,
    fun y hy => h.fits y (mem_cons_of_mem _ hy)⟩
  · intro prev hprev y hy
    rw [hlast] at hprev
    cases hprev
    exact hasc.1 _ (mem_map_of_mem hy)
  · dsimp only
    omega
  · dsimp only
    omega

lemma RelationsReady.tail (h : RelationsReady ph ids s st (r :: rs)) :
    RelationsReady ph ids (r.encode ph s).2 st rs := by
  have htotal := h.total
  have horphans := h.orphans
  have hasc := h.ascending
  rw [length_elementChunks_cons] at htotal horphans
  rw [map_cons, pairwise_cons] at hasc
  exact ⟨hasc.2, fun x hx => h.nonneg x (mem_cons_of_mem _ hx),
    fun prev hprev x hx => h.last prev hprev x (mem_cons_of_mem _ hx), by omega, by omega,
    fun x hx => h.fits x (mem_cons_of_mem _ hx)⟩

end RelationsReady

lemma reframeRelations_built {rs : List RelationAdd} {cap : Nat} {hcap : 0 < cap} {b : Builder}
    {bytes : Bytes} {ids : RelationIdSpaces}
    (htake : (rs.foldl (RelationAdd.add ph) (Builder.withElementCap cap hcap)).take ph =
      .ok (some bytes, b)) (hlen : bytes.length < 2 ^ 64)
    (hasc : (rs.map RelationAdd.id).Pairwise fun a b => a.toInt < b.toInt)
    (hnonneg : ∀ r ∈ rs, 0 ≤ r.id.toInt) (hstart : RelationIdSpaces.NonNeg ids)
    (hfits : ∀ r ∈ rs, RelationFits ids r) :
    (∃ x, reframeRelationsWithNewIds ph bytes ids = .ok x) ↔
      ∀ r ∈ rs, RelationComplete r ∨ r.Blank := by
  obtain ⟨table, htable, -, rfl⟩ := take_pushed addRelation_clean (by decide) htake
  have hjoin : join (elementChunks 4 (RelationAdd.chunks ph) (RelationAdd.encode ph) {} rs) =
      encodeAll (RelationAdd.encode ph) {} rs :=
    join_elementChunks fun r _ s => RelationAdd.encode_eq s r
  rw [← hjoin] at hlen ⊢
  have hglen := length_group_lt hlen
  have hready : RelationsReady ph ids {} (({} : RelationState), []) rs :=
    ⟨hasc, hnonneg, by simp, by simpa using hglen, by simpa using hglen, hfits⟩
  have hfold := @elements_fold_iff _ _ 4 (RelationAdd.chunks ph) (RelationAdd.encode ph)
    (relationGroupField ph ids) (RelationsReady ph ids) RelationComplete
    (fun h => h.good hstart) (fun h => h.next) (fun h => h.tail) RelationAdd.Blank
    (fun s r => RelationAdd.join_chunks_eq_nil) {} _ rs hready
  have hgroups := forEachGroup_walked (local_relationGroupField ids)
    (f := reframeRelationGroup ph ids)
    (s := (({} : RelationState), ph.encodeBytesFieldAlways 1 table)) (fun _ _ => rfl) htable
    (isWritten_elementChunks (by omega) (by omega) {} rs) hglen
  unfold reframeRelationsWithNewIds
  rw [← hfold, ← hgroups, ← blockChunks, splitBlock_built htable hglen]
  exact exists_map_ok

end BuiltBlocks
