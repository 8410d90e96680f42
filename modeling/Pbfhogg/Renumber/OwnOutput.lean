import Mathlib.Data.Nat.Log
import Pbfhogg.Renumber.BuiltBlocks

/-!
# Renumber on the program's own output

Blocks of nodes that the builder takes are always rewritten, and for every kind of block it is the
shape of the elements that decides.
-/

namespace OwnOutput

open Protohoggr FieldWalk Chunks Written IdSpace WireRewrite RewriteSpecs BlockBuilder BuiltBytes
  BuiltBlocks Deltas Fallible
open List hiding take

variable {ph : Crate}

variable {v f : Nat} {b : Builder} {ns : List NodeAdd} {bytes : Bytes}

lemma log2_or_one_lt {v m : Nat} (hm : 0 < m) : Nat.log2 (v ||| 1) < m ↔ v < 2 ^ m := by
  have hne : v ||| 1 ≠ 0 := by
    intro h
    exact absurd (Nat.or_eq_zero_iff.mp h).2 (by decide)
  rw [Nat.log2_lt hne]
  constructor
  · intro h
    exact Nat.lt_of_le_of_lt Nat.left_le_or h
  · intro h
    exact Nat.or_lt_two_pow h (Nat.one_lt_two_pow (by omega))

/-- Seven bits more for each byte more. -/
theorem varintLen_of_ge (h : 128 ≤ v) : varintLen v = varintLen (v / 128) + 1 := by
  have hlog : Nat.log2 (v ||| 1) = Nat.log2 (v / 128 ||| 1) + 7 := by
    have hstep : ∀ m, 0 < m → (Nat.log2 (v ||| 1) < m + 7 ↔ Nat.log2 (v / 128 ||| 1) < m) := by
      intro m hm
      rw [log2_or_one_lt (by omega), log2_or_one_lt hm, Nat.div_lt_iff_lt_mul (by omega),
        Nat.pow_add]
    have hge : ¬ Nat.log2 (v ||| 1) < 7 := by
      rw [log2_or_one_lt (by omega)]
      omega
    have hle := (hstep (Nat.log2 (v / 128 ||| 1) + 1) (by omega)).mpr (by omega)
    by_contra hne
    have hlt := (hstep (Nat.log2 (v / 128 ||| 1)) (by omega)).mp (by omega)
    omega
  unfold varintLen
  rw [hlog]
  omega

lemma varintLen_of_lt (h : v < 128) : varintLen v = 1 := by
  have hlog := (@log2_or_one_lt v 7 (by omega)).mpr (by omega)
  unfold varintLen
  omega

lemma length_encodeWithin {room : Nat} (h : v < 128 ^ (room + 1)) :
    (Varint.encodeWithin room v).length = varintLen v := by
  induction room generalizing v with
  | zero =>
    rw [varintLen_of_lt (by simpa using h)]
    rfl
  | succ room ih =>
    rw [Varint.encodeWithin]
    by_cases hv : v < 128
    · rw [if_pos hv, varintLen_of_lt hv]
      rfl
    · rw [if_neg hv, varintLen_of_ge (by omega), length_cons, ih]
      rw [Nat.div_lt_iff_lt_mul (by omega)]
      exact h

lemma length_encode {v : Nat} (h : v < 2 ^ 64) : (Varint.encode v).length = varintLen v :=
  length_encodeWithin (Nat.lt_of_lt_of_le h (by decide))

/-- The size of a field with a one-byte tag. -/
theorem lenFieldSize_some {f n : Nat} {body : Bytes} (hf : 0 < f) (hf' : f < 16)
    (h : lenFieldSize body.length = some n) : (lenField f body).length = n ∧ n < 2 ^ 64 := by
  unfold lenFieldSize at h
  split at h
  · next hlt =>
    cases h
    have htag : (Varint.encode (8 * f + wireLen)).length = 1 := by
      rw [length_encode (by unfold wireLen; omega), varintLen_of_lt (by unfold wireLen; omega)]
    have hlen := @length_encode body.length (by omega)
    rw [lenField, lenValue, length_append, length_append]
    omega
  · cases h

/-- An add that poisons nothing puts the node's delta behind the others. -/
theorem addNode_clean {n : NodeAdd} (h : (n.add b).poison = none) :
    b.poison = none ∧ (n.add b).blockType = some .denseNodes ∧
      (n.add b).dense.ids = b.dense.ids ++ [n.id - b.dense.lastId] ∧
      (n.add b).dense.lastId = n.id := by
  unfold NodeAdd.add Builder.addNode at *
  by_cases hcan : b.canAdd .denseNodes
  · simp only [hcan, Bool.not_true, Bool.false_eq_true, if_false] at h ⊢
    cases hm : n.metadata with
    | none =>
      rw [hm] at h
      refine ⟨h, rfl, ?_, ?_⟩
      · dsimp only
        split <;> rfl
      · dsimp only
        split <;> rfl
    | some m =>
      rw [hm] at h
      refine ⟨h, rfl, ?_, ?_⟩
      · dsimp only [Dense.addMetadata]
        split <;> rfl
      · dsimp only [Dense.addMetadata]
        split <;> rfl
  · simp only [hcan, Bool.not_false, if_true] at h
    exact absurd h (refuse_ne_none b _ _)

lemma foldl_addNode (h : (ns.foldl NodeAdd.add b).poison = none) :
    b.poison = none ∧
      (ns.foldl NodeAdd.add b).dense.ids =
        b.dense.ids ++ deltasFrom b.dense.lastId (ns.map NodeAdd.id) ∧
      (ns ≠ [] → (ns.foldl NodeAdd.add b).blockType = some .denseNodes) := by
  induction ns generalizing b with
  | nil => exact ⟨h, by simp [deltasFrom], by simp⟩
  | cons n ns ih =>
    rw [foldl_cons] at h ⊢
    obtain ⟨hpoison, hids, hkind⟩ := ih h
    obtain ⟨hb, htype, hid, hlast⟩ := addNode_clean hpoison
    refine ⟨hb, ?_, fun _ => ?_⟩
    · rw [hids, hid, hlast, map_cons, deltasFrom, append_assoc]
      rfl
    · cases ns with
      | nil => exact htype
      | cons m ns => exact hkind (by simp)

lemma join_packedChunks {α : Type} {xs : List α} {v : α → Nat} (hnil : xs = [] → bytes = [])
    (hne : xs ≠ [] → bytes = packedField f (xs.map v)) :
    join (packedChunks f (xs.map v)) = bytes := by
  unfold packedChunks
  by_cases h : xs = []
  · rw [if_pos (by simp [h]), hnil h]
    rfl
  · rw [if_neg (by simp [h]), hne h, join_cons, join_nil, append_nil]
    rfl

lemma join_packedSint64 (f : Nat) (xs : List Int64) :
    join (packedChunks f (zigzags xs)) = ph.encodePackedSint64 f xs :=
  join_packedChunks (fun h => by rw [h, ph.encodePackedSint64_nil]) (ph.encodePackedSint64_eq f xs)

lemma join_packedInt32 (f : Nat) (xs : List Int32) :
    join (packedChunks f (xs.map fun x => signExtend x.toInt)) = ph.encodePackedInt32 f xs :=
  join_packedChunks (fun h => by rw [h, ph.encodePackedInt32_nil]) (ph.encodePackedInt32_eq f xs)

/-- What stands behind the ids of a dense message. -/
def denseTail (ph : Crate) (d : Dense) : List Chunk :=
  (if d.hasMetadata then bytesChunks 5 (Builder.encodeDenseInfo ph d) else []) ++
    (packedChunks 8 (zigzags d.lats) ++ (packedChunks 9 (zigzags d.lons) ++
      packedChunks 10 (d.keysVals.map fun x => signExtend x.toInt)))

lemma join_denseChunks (d : Dense) :
    join (packedChunks 1 (zigzags d.ids) ++ denseTail ph d) = Builder.encodeDenseBody ph d := by
  unfold denseTail Builder.encodeDenseBody
  simp only [join_append, @join_packedSint64 ph, @join_packedInt32 ph]
  congr 2
  split
  · exact join_bytesChunks 5 _
  · rfl

/-- A written field other than the first. -/
def IsTail (c : Chunk) : Prop := IsWritten c ∧ c.number ≠ 1

lemma isTail_bytesChunks (body : Bytes) (hf : 1 < f) (hf' : f < 2 ^ 29) :
    ∀ c ∈ bytesChunks f body, IsTail c := by
  intro c hc
  refine ⟨isWritten_bytesChunks body (by omega) hf' c hc, ?_⟩
  rw [mem_bytesChunks hc]
  exact Nat.ne_of_gt hf

lemma isTail_packedChunks (vs : List Nat) (hf : 1 < f) (hf' : f < 2 ^ 29) :
    ∀ c ∈ packedChunks f vs, IsTail c := by
  intro c hc
  refine ⟨isWritten_packedChunks vs (by omega) hf' c hc, ?_⟩
  unfold packedChunks at hc
  split at hc
  · cases hc
  · rw [mem_singleton] at hc
    subst hc
    exact Nat.ne_of_gt hf

lemma isTail_denseTail (d : Dense) : ∀ c ∈ denseTail ph d, IsTail c := by
  intro c hc
  unfold denseTail at hc
  rcases mem_append.mp hc with hc | hc
  · split at hc
    · exact isTail_bytesChunks _ (by omega) (by omega) c hc
    · cases hc
  · rcases mem_append.mp hc with hc | hc
    · exact isTail_packedChunks _ (by omega) (by omega) c hc
    · rcases mem_append.mp hc with hc | hc
      · exact isTail_packedChunks _ (by omega) (by omega) c hc
      · exact isTail_packedChunks _ (by omega) (by omega) c hc

lemma denseField_other {w : Nat} (hf : f ≠ 1) (s : DenseScan) :
    denseField ph s f w = fun cur => take (copyField ph f w cur) fun bytes =>
      .ok { s with otherFields := s.otherFields ++ bytes } := by
  unfold denseField
  split
  · exact absurd rfl hf
  · exact absurd rfl hf
  · rfl

/-- Fields behind the ids are copied. -/
theorem denseTail_fold {cs : List Chunk} (hcs : ∀ c ∈ cs, IsTail c)
    (hframed : ∀ c ∈ cs, c.Framed (cursor ph)) (s : DenseScan) :
    ∃ bytes, (cs.map Chunk.field).foldlM (absorb (denseField ph)) s =
      .ok { s with otherFields := s.otherFields ++ bytes } := by
  induction cs generalizing s with
  | nil => exact ⟨[], by simp [pure, Except.pure]⟩
  | cons c cs ih =>
    have hc := hframed c mem_cons_self
    have hskip := hc.skipField []
    rw [append_nil] at hskip
    have hcopy : copyField ph c.number c.wire c.raw =
        .ok (ph.encodeTag c.number c.wire ++ c.raw, []) := by
      have hraw : ph.readRawField c.wire c.raw = .ok (c.raw, []) :=
        ph.readRawField_ok.mpr ⟨by simp, mapError_eq_ok.mp hskip⟩
      rw [copyField_eq, take, wireErr_ok hraw]
      rfl
    have hstep : absorb (denseField ph) s c.field = .ok { s with
        otherFields := s.otherFields ++ (ph.encodeTag c.number c.wire ++ c.raw) } :=
      @absorb_take _ _ _ (denseField ph) s c.field _ (copyField ph c.number c.wire)
        (fun bytes => .ok { s with otherFields := s.otherFields ++ bytes })
        (denseField_other (hcs c mem_cons_self).2 s) hcopy
    obtain ⟨bytes, hrest⟩ := ih (fun d hd => hcs d (mem_cons_of_mem _ hd))
      (fun d hd => hframed d (mem_cons_of_mem _ hd)) { s with
        otherFields := s.otherFields ++ (ph.encodeTag c.number c.wire ++ c.raw) }
    refine ⟨ph.encodeTag c.number c.wire ++ c.raw ++ bytes, ?_⟩
    rw [map_cons, foldlM_cons, hstep, ok_bind, hrest]
    simp only [append_assoc]

lemma packedChunks_ids {d : Dense} (hne : d.ids ≠ []) :
    packedChunks 1 (zigzags d.ids) = [lenChunk 1 (packSint64 ph d.ids)] := by
  rw [packSint64_eq]
  exact if_neg (by simpa [zigzags] using hne)

lemma length_ids_le {d : Dense} (hne : d.ids ≠ []) :
    d.ids.length ≤ (Builder.encodeDenseBody ph d).length := by
  have hids := @length_le_packSint64 ph d.ids
  have hfield := length_lt_lenField 1 (packSint64 ph d.ids)
  rw [← join_denseChunks, @packedChunks_ids ph d hne, join_append, length_append, join_cons,
    bytes_lenChunk, length_append]
  omega

lemma denseScan_built {d : Dense} (hne : d.ids ≠ [])
    (hlen : (Builder.encodeDenseBody ph d).length < 2 ^ 64) :
    ∃ scan, walk (cursor ph) (denseField ph) {} (Builder.encodeDenseBody ph d) = .ok scan ∧
      scan.sawIdField = true ∧ scan.idField = some (packSint64 ph d.ids) := by
  have hwritten : ∀ c ∈ packedChunks 1 (zigzags d.ids) ++ denseTail ph d, IsWritten c :=
    isWritten_append (isWritten_packedChunks _ (by omega) (by omega))
      fun c hc => (isTail_denseTail d c hc).1
  rw [← join_denseChunks] at hlen ⊢
  have hframed : ∀ c ∈ packedChunks 1 (zigzags d.ids) ++ denseTail ph d, c.Framed (cursor ph) :=
    fun c hc => framed_cursor.mpr (framed_of_isWritten hwritten hlen c hc)
  rw [@packedChunks_ids ph d hne] at hlen hframed ⊢
  have hpackLen := @length_body_le 1 (packSint64 ph d.ids) _ (by simp) hlen
  have hfirst : absorb (denseField ph) {} (lenChunk 1 (packSint64 ph d.ids)).field =
      .ok { sawIdField := true, idField := some (packSint64 ph d.ids) } := by
    have hh : denseField ph {} 1 wireLen = fun cur =>
        take (wireErr (ph.readLenDelimited cur)) fun seg =>
          if seg = [] then .ok { sawIdField := true }
          else .ok { sawIdField := true, idField := some seg } := rfl
    rw [absorb_lenChunk hh hpackLen, if_neg (mt packSint64_eq_nil.mp hne)]
  obtain ⟨bytes, hrest⟩ := denseTail_fold (isTail_denseTail d)
    (fun c hc => hframed c (mem_append_right _ hc))
    { sawIdField := true, idField := some (packSint64 ph d.ids) }
  have hfold : (([lenChunk 1 (packSint64 ph d.ids)] ++ denseTail ph d).map Chunk.field).foldlM
      (absorb (denseField ph)) {} = .ok
        { sawIdField := true, idField := some (packSint64 ph d.ids), otherFields := [] ++ bytes } := by
    rw [map_append, map_singleton, singleton_append, foldlM_cons, hfirst,
      ok_bind]
    exact hrest
  exact ⟨_, (walk_join_iff local_denseField hframed).mpr hfold, rfl, rfl⟩

/-- The delta to an id that is not negative leads there without overflow. -/
theorem checkedAdd_delta {last x : Int64} (hlast : 0 ≤ last.toInt) (hx : 0 ≤ x.toInt) :
    checkedAdd last (x - last) = some x := by
  have hsub : (x - last).toInt = x.toInt - last.toInt := by
    have hhi := x.toInt_lt
    have hlhi := last.toInt_lt
    rw [Int64.toInt_sub, Int.bmod_eq_of_le (by omega) (by omega)]
  have hhi := x.toInt_lt
  rw [checkedAdd_eq_some, hsub]
  exact ⟨(sub_add_self x last).symm, by omega, by omega⟩

/-- Ids that ascend from zero on are all read. -/
theorem nodeIds_fold {ids : List Int64} {s : NodeIds}
    (hasc : ids.Pairwise fun a b => a.toInt < b.toInt) (hnonneg : ∀ id ∈ ids, 0 ≤ id.toInt)
    (hlast : ∀ prev, s.span.last = some prev → ∀ id ∈ ids, prev.toInt < id.toInt)
    (hold : 0 ≤ s.oldId.toInt) (hcount : s.groupCount + ids.length < 2 ^ 64) :
    ∃ t, (deltasFrom s.oldId ids).foldlM nodeIdStep s = .ok t ∧
      t.groupCount = s.groupCount + ids.length := by
  induction ids generalizing s with
  | nil => exact ⟨s, rfl, rfl⟩
  | cons id ids ih =>
    have hid := hnonneg id mem_cons_self
    rw [length_cons] at hcount
    obtain ⟨hbelow, hasc⟩ := pairwise_cons.mp hasc
    obtain ⟨span, hspan, hspanLast⟩ : ∃ span, s.span.push "node" id = .ok span ∧
        span.last = some id :=
      ⟨_, Span.push_ok.mpr ⟨fun prev hprev => hlast prev hprev id mem_cons_self, rfl⟩, rfl⟩
    have hstep : nodeIdStep s (id - s.oldId) = .ok (recordNode s id span) :=
      nodeIdStep_ok.mpr ⟨id, span, checkedAdd_delta hold hid, hid, hspan, by omega, rfl⟩
    have hlast' : ∀ prev, (recordNode s id span).span.last = some prev → ∀ x ∈ ids,
        prev.toInt < x.toInt := by
      intro prev hprev x hx
      rw [show (recordNode s id span).span.last = some id from hspanLast] at hprev
      cases hprev
      exact hbelow x hx
    have hcount' : (recordNode s id span).groupCount + ids.length < 2 ^ 64 := by
      dsimp only [recordNode]
      omega
    obtain ⟨t, ht, htc⟩ := ih hasc (fun x hx => hnonneg x (mem_cons_of_mem _ hx)) hlast' hid
      hcount'
    refine ⟨t, ?_, ?_⟩
    · rw [deltasFrom, foldlM_cons, hstep, ok_bind]
      exact ht
    · rw [htc, length_cons]
      dsimp only [recordNode]
      omega

lemma encodeDenseNodesGroup_ok {d : Dense} {group : Bytes}
    (h : Builder.encodeDenseNodesGroup ph d = .ok group) :
    group = lenField 2 (lenField 2 (Builder.encodeDenseBody ph d)) ∧
      (lenField 2 (Builder.encodeDenseBody ph d)).length < 2 ^ 64 := by
  unfold Builder.encodeDenseNodesGroup at h
  simp only at h
  split at h
  · cases h
  · next n hn =>
    obtain ⟨hlen, hlt⟩ := @lenFieldSize_some 2 n _ (by omega) (by omega) hn
    split at h
    · cases h
    · have hbody := length_lt_lenField 2 (Builder.encodeDenseBody ph d)
      rw [ph.encodeTag_eq 2 wireLen (by omega) (by omega) (by decide), ph.encodeVarint_eq n hlt,
        ph.encodeVarint_eq _ (by omega)] at h
      cases h
      refine ⟨?_, by omega⟩
      rw [lenField, lenValue, hlen, lenField, lenValue]

lemma take_nodes {cap : Nat} {hcap : 0 < cap}
    (h : (ns.foldl NodeAdd.add (Builder.withElementCap cap hcap)).take ph = .ok (some bytes, b)) :
    ns ≠ [] ∧ ∃ table d, table.length < 2 ^ 64 ∧ d.ids = deltasFrom 0 (ns.map NodeAdd.id) ∧
      (lenField 2 (Builder.encodeDenseBody ph d)).length < 2 ^ 64 ∧
      bytes = join (blockChunks table (lenField 2 (Builder.encodeDenseBody ph d))) := by
  obtain ⟨hpoison, kind, tableField, group, hkind, htable, hgroup, rfl⟩ := take_ok h
  obtain ⟨-, hids, htype⟩ := foldl_addNode hpoison
  have hne : ns ≠ [] := by
    rintro rfl
    cases hkind
  rw [htype hne] at hkind
  cases hkind
  obtain ⟨table, rfl, hlen, -⟩ := encodeStringTable_ok htable
  obtain ⟨rfl, hglen⟩ := encodeDenseNodesGroup_ok hgroup
  refine ⟨hne, table, _, hlen, hids, hglen, ?_⟩
  have hbody : lenField 2 (Builder.encodeDenseBody ph
      (ns.foldl NodeAdd.add (Builder.withElementCap cap hcap)).dense) ≠ [] :=
    ne_nil_of_length_pos (Nat.lt_of_le_of_lt (Nat.zero_le _) (length_lt_lenField _ _))
  rw [blockChunks, bytesChunks, if_neg hbody, join_cons, join_cons, join_nil, append_nil]
  rfl

lemma singleDense_built {body : Bytes} (hlen : (lenField 2 body).length < 2 ^ 64) :
    singleDense ph (lenField 2 body) = .ok body := by
  have hbody := Nat.lt_trans (length_lt_lenField 2 body) hlen
  have hframed : ∀ c ∈ [lenChunk 2 body], c.Framed (cursor ph) := by
    intro c hc
    rw [mem_singleton] at hc
    subst hc
    exact framed_cursor.mpr (framed_lenChunk (by omega) (by omega) hbody)
  have hwalk : walk (cursor ph) (singleDenseField ph) none (lenField 2 body) = .ok (some body) := by
    have hjoin : lenField 2 body = join [lenChunk 2 body] := by simp
    rw [hjoin, walk_join_iff local_singleDenseField hframed, map_singleton, foldlM_cons]
    have hh : singleDenseField ph none 2 wireLen = fun cur =>
        take (wireErr (ph.readLenDelimited cur)) fun data => .ok (some data) := rfl
    rw [absorb_lenChunk hh hbody]
    rfl
  rw [singleDense, hwalk]
  rfl

/-- The nodes of a block that the builder took are renumbered. -/
theorem reframeDense_built {cap : Nat} {hcap : 0 < cap} {base : Int64} {idSet : IdSet}
    {overflow : List Int64}
    (htake : (ns.foldl NodeAdd.add (Builder.withElementCap cap hcap)).take ph = .ok (some bytes, b))
    (hasc : (ns.map NodeAdd.id).Pairwise fun a b => a.toInt < b.toInt)
    (hnonneg : ∀ n ∈ ns, 0 ≤ n.id.toInt) :
    ∃ r, reframeDenseWithNewIds ph bytes base idSet overflow = .ok r := by
  obtain ⟨hne, table, d, htable, hids, hglen, rfl⟩ := take_nodes htake
  have hbodyLen := Nat.lt_trans (length_lt_lenField 2 (Builder.encodeDenseBody ph d)) hglen
  have hdne : d.ids ≠ [] := by
    rw [hids, ne_eq, ← length_eq_zero_iff, length_deltasFrom, length_map,
      length_eq_zero_iff]
    exact hne
  obtain ⟨scan, hscan, hsaw, hfield⟩ := denseScan_built hdne hbodyLen
  have hcount : (ns.map NodeAdd.id).length < 2 ^ 64 := by
    have hle := @length_ids_le ph d hdne
    rw [hids, length_deltasFrom] at hle
    omega
  obtain ⟨vs, hvs, hdeltas⟩ := @values_packSint64 ph d.ids
  have hzero : (0 : Nat) + (ns.map NodeAdd.id).length < 2 ^ 64 := by omega
  obtain ⟨ids, hfold, hgroupCount⟩ := @nodeIds_fold (ns.map NodeAdd.id)
    ⟨{}, idSet, overflow, 0, 0⟩ hasc (forall_mem_map.mpr hnonneg) (by simp) (Int.le_refl 0) hzero
  have hread : foldSint64 ph nodeIdStep ⟨{}, idSet, overflow, 0, 0⟩ (scan.idField.getD []) =
      .ok ids := by
    rw [hfield, foldSint64_ok]
    refine ⟨vs, hvs, ?_⟩
    rw [hdeltas, hids]
    exact hfold
  have hassigned : (0 : Nat) + ids.groupCount < 2 ^ 64 := by
    rw [hgroupCount]
    dsimp only
    omega
  obtain ⟨packed, hpacked⟩ : ∃ packed, packedNodeIds ph base 0 ids.groupCount = .ok packed := by
    unfold packedNodeIds
    split
    · exact ⟨_, map_eq_ok.mpr ⟨base, offsetId_ok.mpr (by simp), rfl⟩⟩
    · exact ⟨[], rfl⟩
  have hgroup : ∀ out, ∃ t, reframeDenseGroup ph base { idSet, overflow, output := out }
      (lenField 2 (Builder.encodeDenseBody ph d)) = .ok t := by
    intro out
    unfold reframeDenseGroup
    rw [singleDense_built hglen]
    simp only [Except.bind, hscan, hsaw, Bool.not_true, Bool.false_eq_true, if_false, hread,
      hpacked]
    rw [if_pos hassigned]
    exact ⟨_, rfl⟩
  have hgne : lenField 2 (Builder.encodeDenseBody ph d) ≠ [] :=
    ne_nil_of_length_pos (Nat.lt_of_le_of_lt (Nat.zero_le _) (length_lt_lenField _ _))
  obtain ⟨t, ht⟩ := hgroup (ph.encodeBytesFieldAlways 1 table)
  have hgroups : forEachGroup ph (reframeDenseGroup ph base)
      { idSet, overflow, output := ph.encodeBytesFieldAlways 1 table }
      (join (blockChunks table (lenField 2 (Builder.encodeDenseBody ph d)))) = .ok (t, 1) :=
    (forEachGroup_built htable hglen).mpr (.inr ⟨hgne, ht, rfl⟩)
  unfold reframeDenseWithNewIds
  rw [splitBlock_built htable hglen]
  simp only [Except.bind, hgroups]
  rw [if_neg (by decide)]
  exact ⟨_, rfl⟩

/-- The elements of one block, in the order they are added. -/
inductive Adds where
  | nodes (ns : List NodeAdd)
  | ways (ws : List WayAdd)
  | relations (rs : List RelationAdd)

/-- What one rewrite of a block is given: the first new id of its nodes or ways, the map of each
kind, and the set it records into. -/
structure IdMaps where
  base : Int64
  spaces : RelationIdSpaces
  idSet : IdSet := {}
  overflow : List Int64 := []

/-- New ids start at one or above. -/
structure IdMaps.Valid (maps : IdMaps) : Prop where
  base : 1 ≤ maps.base.toInt
  nodes : 1 ≤ maps.spaces.nodes.start.toInt
  ways : 1 ≤ maps.spaces.ways.start.toInt
  relations : 1 ≤ maps.spaces.relations.start.toInt

namespace Adds

def ids : Adds → List Int64
  | nodes ns => ns.map NodeAdd.id
  | ways ws => ws.map WayAdd.id
  | relations rs => rs.map RelationAdd.id

/-- The builder that was given the elements. -/
def build (ph : Crate) (b : Builder) : Adds → Builder
  | nodes ns => ns.foldl NodeAdd.add b
  | ways ws => ws.foldl (WayAdd.add ph) b
  | relations rs => rs.foldl (RelationAdd.add ph) b

/-- The rewriter of the kind gets through on the block. -/
def Accepted (ph : Crate) (maps : IdMaps) (bytes : Bytes) : Adds → Prop
  | nodes _ => ∃ r, reframeDenseWithNewIds ph bytes maps.base maps.idSet maps.overflow = .ok r
  | ways _ => ∃ r, reframeWaysWithNewIds ph bytes maps.base maps.spaces.nodes maps.idSet = .ok r
  | relations _ => ∃ r, reframeRelationsWithNewIds ph bytes maps.spaces = .ok r

/-- Every id that the maps give to the elements, and to what they refer to, is a 64-bit id. -/
def Fit (maps : IdMaps) : Adds → Prop
  | nodes ns => maps.base.toInt + ns.length ≤ 2 ^ 63
  | ways ws => maps.base.toInt + ws.length ≤ 2 ^ 63 ∧
      ∀ w ∈ ws, ∀ r ∈ w.refs, 0 ≤ r.toInt → maps.spaces.nodes.Fits r
  | relations rs => ∀ r ∈ rs, RelationFits maps.spaces r

/-- No way lacks an id or refs and no relation lacks an id on the wire, unless nothing of it is
there; and no reference is negative. -/
def Rewritable : Adds → Prop
  | nodes _ => True
  | ways ws => ∀ w ∈ ws, WayComplete w ∨ w.Blank
  | relations rs => ∀ r ∈ rs, RelationComplete r ∨ r.Blank

end Adds

/-- A block of the program's own output is renumbered exactly when its elements are rewritable. -/
theorem accepted_iff_rewritable (ph : Crate) (adds : Adds) {cap : Nat} (hcap : 0 < cap)
    {b : Builder} {bytes : Bytes} {maps : IdMaps}
    (htake : (adds.build ph (Builder.withElementCap cap hcap)).take ph = .ok (some bytes, b))
    (hlen : bytes.length < 2 ^ 64) (hasc : adds.ids.Pairwise fun a b => a.toInt < b.toInt)
    (hnonneg : ∀ id ∈ adds.ids, 0 ≤ id.toInt) (hvalid : maps.Valid) (hfit : adds.Fit maps) :
    adds.Accepted ph maps bytes ↔ adds.Rewritable := by
  have hbase : 0 ≤ maps.base.toInt := Int.le_trans (by decide) hvalid.base
  have hnodes : 0 ≤ maps.spaces.nodes.start.toInt := Int.le_trans (by decide) hvalid.nodes
  have hways : 0 ≤ maps.spaces.ways.start.toInt := Int.le_trans (by decide) hvalid.ways
  have hrelations : 0 ≤ maps.spaces.relations.start.toInt :=
    Int.le_trans (by decide) hvalid.relations
  cases adds with
  | nodes ns =>
    constructor
    · intro _
      trivial
    · intro _
      exact reframeDense_built htake hasc fun n hn => hnonneg n.id (mem_map_of_mem hn)
  | ways ws =>
    exact reframeWays_built htake hlen hasc (fun w hw => hnonneg w.id (mem_map_of_mem hw))
      hbase hfit.1 hnodes hfit.2
  | relations rs =>
    exact reframeRelations_built htake hlen hasc
      (fun r hr => hnonneg r.id (mem_map_of_mem hr)) ⟨hnodes, hways, hrelations⟩ hfit

/-- Empty sets of every kind, numbered from one. -/
def emptyMaps : IdMaps where
  base := 1
  spaces := ⟨⟨"relation", {}, 1⟩, ⟨"node", {}, 1⟩, ⟨"way", {}, 1⟩⟩

lemma emptyMaps_valid : emptyMaps.Valid := ⟨by decide, by decide, by decide, by decide⟩

/-- What both the ways and the nodes below carry. -/
def edited : Metadata := ⟨2, 5, 6, 3, "a", true⟩

/-- The first way refers to one node twice. -/
def twoWays : Adds := .ways
  [{ id := 7, tags := [("highway", "path"), ("name", "b")], refs := [5, 6, 5], metadata := edited },
    { id := 9, tags := [("name", "c")], refs := [8, 6] }]

def twoNodes : Adds := .nodes
  [{ id := 5, lat := 10, lon := -3, tags := [("name", "b")], metadata := edited },
    { id := 6, lat := 12, lon := -3, metadata := edited }]

/-- The block that the builder makes of the elements. -/
def Adds.Makes (adds : Adds) (bytes : Bytes) : Prop :=
  ∃ hcap b, (adds.build Reference.crate (Builder.withElementCap 8000 hcap)).take
    Reference.crate = .ok (some bytes, b)

theorem accepted_iff_rewritable_two_blocks :
    (∃ bytes, twoWays.Makes bytes ∧ twoWays.Accepted Reference.crate emptyMaps bytes) ∧
      ∃ bytes, twoNodes.Makes bytes ∧ twoNodes.Accepted Reference.crate emptyMaps bytes := by
  have hways : ∃ bytes, twoWays.Makes bytes ∧ bytes.length < 2 ^ 64 :=
    ⟨_, ⟨Nat.succ_pos _, _, rfl⟩, by decide⟩
  have hnodes : ∃ bytes, twoNodes.Makes bytes ∧ bytes.length < 2 ^ 64 :=
    ⟨_, ⟨Nat.succ_pos _, _, rfl⟩, by decide⟩
  obtain ⟨bytes, hmakes, hlen⟩ := hways
  obtain ⟨bytes', hmakes', hlen'⟩ := hnodes
  refine ⟨⟨bytes, hmakes, ?_⟩, bytes', hmakes', ?_⟩
  · obtain ⟨_, b, htake⟩ := hmakes
    refine (accepted_iff_rewritable Reference.crate twoWays _ htake hlen (by decide)
      (by simp [twoWays, Adds.ids]) emptyMaps_valid ⟨by decide, by simp; decide⟩).mpr ?_
    simp [twoWays, Adds.Rewritable, WayComplete]
  · obtain ⟨_, b, htake⟩ := hmakes'
    exact (accepted_iff_rewritable Reference.crate twoNodes _ htake hlen' (by decide)
      (by simp [twoNodes, Adds.ids]) emptyMaps_valid
      (show (1 : Int) + 2 ≤ 2 ^ 63 by decide)).mpr trivial

/-- The builder takes a way without refs and a way of id zero, and both are refused. -/
theorem own_output_refused :
    (∃ b, ((Adds.ways [{ id := 7, refs := [] }]).build Reference.crate
        (Builder.withElementCap 8000 (by decide))).take Reference.crate =
        .ok (some [10, 2, 10, 0, 18, 4, 26, 2, 8, 7], b)) ∧
      (Adds.ways [{ id := 7, refs := [] }]).Fit emptyMaps ∧
      reframeWaysWithNewIds Reference.crate [10, 2, 10, 0, 18, 4, 26, 2, 8, 7] emptyMaps.base
        emptyMaps.spaces.nodes emptyMaps.idSet =
        .error (.invalidData "reframe_ways: no refs field") ∧
    (∃ b, ((Adds.ways [{ id := 0, refs := [5] }]).build Reference.crate
        (Builder.withElementCap 8000 (by decide))).take Reference.crate =
        .ok (some [10, 2, 10, 0, 18, 5, 26, 3, 66, 1, 10], b)) ∧
      (Adds.ways [{ id := 0, refs := [5] }]).Fit emptyMaps ∧
      reframeWaysWithNewIds Reference.crate [10, 2, 10, 0, 18, 5, 26, 3, 66, 1, 10] emptyMaps.base
        emptyMaps.spaces.nodes emptyMaps.idSet =
        .error (.invalidData "reframe_ways: no id field") :=
  ⟨⟨_, rfl⟩, ⟨by decide, by simp⟩, rfl, ⟨_, rfl⟩, ⟨by decide, by simp; decide⟩, rfl⟩

end OwnOutput
