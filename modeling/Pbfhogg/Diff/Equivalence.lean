import Pbfhogg.Diff.BlockPair

/-!
# The two merges of a diff agree

The element-level merge pulls one element a side at a time and refuses an input out of order; the
block-pair merge reads claims. On ascending blobs with exact claims both give the same outcome for
every element.
-/

namespace DiffEquivalence

open OsmId MergeJoin ZipMerge BlockPair Fallible List

variable {kind : ElementKind} {l : List Element} {fuel : Nat} {s s' : Side}
  {dec dec' : Option BlockState} {seen : List Seen} {bs : BlockState} {frames : List Frame}
  {acts : List Action} {skip : Bool}

/-- A side of the element-level merge with `l` still to merge, `head` pulled. -/
structure StreamInv (kind : ElementKind) (s : StreamSide) (head : Option Element)
    (l : List Element) : Prop where
  elements : l = head.toList ++ (s.iter ++ s.blocks.flatten)
  ended : s.ended = true → s.iter ++ s.blocks.flatten = []
  sorted : l.Pairwise fun a b => a.key < b.key
  kind : ∀ e ∈ l, e.kind = kind
  last : ∀ k, s.last = some k → ∀ e ∈ s.iter ++ s.blocks.flatten, k < e.key

lemma admitElement_ok {e : Element} {last : Option OsmIdKey} (hkind : e.kind = kind)
    (hlast : ∀ k, last = some k → k < e.key) : admitElement e kind last = .ok () := by
  cases last with
  | none => simp [admitElement, hkind]
  | some k => simp [admitElement, hkind, not_lt_of_gt (hlast k rfl)]

lemma pullFrom_spec {kind : ElementKind} {last : Option OsmIdKey} {blocks : List (List Element)}
    (hsorted : blocks.flatten.Pairwise fun a b => a.key < b.key)
    (hkind : ∀ e ∈ blocks.flatten, e.kind = kind)
    (hlast : ∀ k, last = some k → ∀ e ∈ blocks.flatten, k < e.key) :
    ∃ s, pullFrom kind last blocks = .ok (blocks.flatten.head?, s) ∧
      StreamInv kind s blocks.flatten.head? blocks.flatten := by
  induction blocks with
  | nil => exact ⟨⟨[], [], true, last⟩, rfl, rfl, fun _ => rfl, .nil, by simp, by simp⟩
  | cons b blocks ih =>
    cases b with
    | nil => exact ih hsorted hkind hlast
    | cons e rest =>
      rw [flatten_cons, cons_append] at hsorted hkind hlast ⊢
      refine ⟨⟨rest, blocks, false, some e.key⟩, ?_, ?_⟩
      · simp [pullFrom, admitElement_ok (hkind e mem_cons_self)
          (fun k hk => hlast k hk e mem_cons_self)]
      · refine ⟨rfl, fun h => (by cases h), hsorted, hkind, ?_⟩
        rintro _ ⟨⟩
        exact (pairwise_cons.mp hsorted).1

lemma pullHead_spec {s : StreamSide} {head : Option Element} (h : StreamInv kind s head l) :
    ∃ s', pullHead kind s head = .ok (l.head?, s') ∧ StreamInv kind s' l.head? l := by
  cases head with
  | some e =>
    have hl : l.head? = some e := by rw [h.elements]; rfl
    rw [hl]
    exact ⟨s, rfl, h⟩
  | none =>
    have hl : l = s.iter ++ s.blocks.flatten := h.elements
    cases hended : s.ended with
    | true =>
      have hnil : l = [] := by rw [hl, h.ended hended]
      subst hnil
      exact ⟨s, by simp [pullHead, hended], h⟩
    | false =>
      have hflat : (s.iter :: s.blocks).flatten = l := by rw [hl, flatten_cons]
      obtain ⟨s', hpull, hinv⟩ := @pullFrom_spec kind s.last (s.iter :: s.blocks)
        (hflat.symm ▸ h.sorted) (hflat.symm ▸ h.kind) (by rw [hflat, hl]; exact h.last)
      rw [hflat] at hpull hinv
      exact ⟨s', by simpa [pullHead, hended] using hpull, hinv⟩

/-- The element at a side's head is consumed. -/
lemma StreamInv.consume {s : StreamSide} {e : Element} (h : StreamInv kind s (some e) (e :: l)) :
    StreamInv kind s none l := by
  have hl : l = s.iter ++ s.blocks.flatten := by
    have hall := h.elements
    simpa using hall
  exact ⟨hl, h.ended, (pairwise_cons.mp h.sorted).2,
    fun x hx => h.kind x (mem_cons_of_mem _ hx), h.last⟩

/-- The loop of the element-level merge computes the two-pointer merge. -/
theorem streamLoop_spec {so sn : StreamSide} {ho hn : Option Element} {r : List Element}
    (hold : StreamInv kind so ho l) (hnew : StreamInv kind sn hn r)
    (hfuel : l.length + r.length < fuel) :
    streamLoop kind fuel so sn ho hn = .ok ((zipMerge Element.key l r).map mergedAction) := by
  induction fuel generalizing so sn ho hn l r with
  | zero => omega
  | succ fuel ih =>
    obtain ⟨so', hpo, hinvo⟩ := pullHead_spec hold
    obtain ⟨sn', hpn, hinvn⟩ := pullHead_spec hnew
    simp only [streamLoop, hpo, hpn, ok_bind]
    cases l with
    | nil =>
      cases r with
      | nil => rfl
      | cons n r =>
        have htail := ih (l := []) hinvo hinvn.consume (by simp at hfuel ⊢; omega)
        simp only [head?_nil, head?_cons]
        simp only [head?_nil] at htail
        rw [htail]
        simp [mergedAction]
    | cons o l =>
      cases r with
      | nil =>
        have htail := ih (r := []) hinvo.consume hinvn (by simp at hfuel ⊢; omega)
        simp only [head?_nil, head?_cons]
        simp only [head?_nil] at htail
        rw [htail]
        simp [mergedAction]
      | cons n r =>
        simp only [head?_cons] at hinvo hinvn ⊢
        simp only [length_cons] at hfuel
        rw [zipMerge_cons_cons]
        split_ifs with hlt hgt
        · rw [ih hinvo.consume hinvn (by simp only [length_cons]; omega)]
          rfl
        · rw [ih hinvo hinvn.consume (by simp only [length_cons]; omega)]
          rfl
        · rw [ih hinvo.consume hinvn.consume (by omega)]
          rfl

lemma streamMergePhase_spec {old new : List (List Element)}
    (hold : old.flatten.Pairwise fun a b => a.key < b.key)
    (hnew : new.flatten.Pairwise fun a b => a.key < b.key)
    (hkold : ∀ e ∈ old.flatten, e.kind = kind) (hknew : ∀ e ∈ new.flatten, e.kind = kind)
    (hfuel : old.flatten.length + new.flatten.length < fuel) : streamMergePhase kind fuel old new =
      .ok ((zipMerge Element.key old.flatten new.flatten).map mergedAction) := by
  refine streamLoop_spec ⟨rfl, fun h => (by cases h), hold, hkold, fun k h => ?_⟩
    ⟨rfl, fun h => (by cases h), hnew, hknew, fun k h => ?_⟩ hfuel
  · cases h
  · cases h

/-- What a side sees of the merge: an element, or `n` elements passed over. -/
inductive Seen where
  | skipped (n : Nat)
  | element (e : Element)

def oldSeen : Action → List Seen
  | .blobEqual n => [.skipped n]
  | .blobOldOnly run => run.elements.map .element
  | .elementEqual e | .elementOldOnly e => [.element e]
  | .elementModified o _ => [.element o]
  | .blobNewOnly _ | .elementNewOnly _ => []

def newSeen : Action → List Seen
  | .blobEqual n => [.skipped n]
  | .blobNewOnly run => run.elements.map .element
  | .elementEqual e | .elementNewOnly e => [.element e]
  | .elementModified _ n => [.element n]
  | .blobOldOnly _ | .elementOldOnly _ => []

/-- A blob is handed over as one byte-equal skip or as its elements in order. -/
def HandedOver (d : Decoder) (f : Frame) (seen : List Seen) : Prop :=
  seen = [.skipped f.index.count] ∨
    ∃ raw es, d.decompressBlobRaw f.body = .ok raw ∧ d.parse raw = .ok es ∧
      seen = es.map .element

variable {d : Decoder}

def heldSeen (dec : Option BlockState) : List Seen :=
  match dec with
  | none => []
  | some bs => bs.elements.map .element

/-- Between two states of a side the blobs pulled, behind what was held, are what
was seen and what is held now. -/
def Consumes (d : Decoder) (s : Side) (dec : Option BlockState) (seen : List Seen) (s' : Side)
    (dec' : Option BlockState) : Prop :=
  ∃ frames parts, s.remaining = frames ++ s'.remaining ∧
    List.Forall₂ (HandedOver d) frames parts ∧
    heldSeen dec ++ parts.flatten = seen ++ heldSeen dec'

lemma Consumes.refl (s : Side) (dec : Option BlockState) : Consumes d s dec [] s dec :=
  ⟨[], [], rfl, .nil, by simp⟩

lemma Consumes.trans {s'' : Side} {dec'' : Option BlockState} {seen' : List Seen}
    (h : Consumes d s dec seen s' dec') (h' : Consumes d s' dec' seen' s'' dec'') :
    Consumes d s dec (seen ++ seen') s'' dec'' := by
  obtain ⟨fs, ps, hfs, hps, heq⟩ := h
  obtain ⟨fs', ps', hfs', hps', heq'⟩ := h'
  refine ⟨fs ++ fs', ps ++ ps', ?_, rel_append hps hps', ?_⟩
  · rw [hfs, hfs', append_assoc]
  · rw [flatten_append, ← append_assoc, heq, append_assoc, heq', append_assoc]

/-- With nothing left to yield or held, every blob was handed over. -/
lemma Consumes.all (h : Consumes d s none seen s' none) (hs' : s'.remaining = []) :
    ∃ parts, List.Forall₂ (HandedOver d) s.remaining parts ∧ seen = parts.flatten := by
  obtain ⟨fs, ps, hfs, hps, heq⟩ := h
  rw [hs', append_nil] at hfs
  exact ⟨ps, hfs ▸ hps, by simpa [heldSeen] using heq.symm⟩

lemma decode_unbounded {f : Frame} (h : decode d .unbounded f = .ok bs) :
    HandedOver d f (bs.elements.map .element) := by
  simp only [decode, bind_eq_ok] at h
  obtain ⟨raw, hraw, es, hparse, _, _, hbs⟩ := h
  obtain rfl := Except.ok.inj hbs
  exact Or.inr ⟨raw, es, hraw, hparse, by simp [Window.crosses, Window.unbounded,
    BlockState.elements]⟩

lemma emit_oldSeen (bs : BlockState) (isOld : Bool) :
    (emitBlock bs isOld).flatMap oldSeen = if isOld then bs.elements.map .element else [] := by
  by_cases hspent : bs.spent = true
  · simp [emitBlock, hspent, elements_of_spent hspent]
  · cases isOld <;> simp [emitBlock, hspent, oldSeen, BlockState.run]

lemma emit_newSeen (bs : BlockState) (isOld : Bool) :
    (emitBlock bs isOld).flatMap newSeen = if isOld then [] else bs.elements.map .element := by
  by_cases hspent : bs.spent = true
  · simp [emitBlock, hspent, elements_of_spent hspent]
  · cases isOld <;> simp [emitBlock, hspent, newSeen, BlockState.run]

lemma heldSeen_unspent (bs : BlockState) : heldSeen (unspent bs) = bs.elements.map .element := by
  by_cases hspent : bs.spent = true
  · simp [unspent, hspent, heldSeen, elements_of_spent hspent]
  · simp [unspent, hspent, heldSeen]

lemma consumes_held (h : heldSeen dec = seen ++ heldSeen dec') : Consumes d s dec seen s dec' :=
  ⟨[], [], rfl, .nil, by simpa using h⟩

lemma consumes_emitted (s : Side) (bs : BlockState) :
    Consumes d s (some bs) (bs.elements.map .element) s none :=
  consumes_held (by simp [heldSeen])

lemma consumes_pulled {f : Frame} (hs : s.remaining = f :: s'.remaining)
    (hdec : decode d .unbounded f = .ok bs) : Consumes d s none [] s' (unspent bs) :=
  ⟨[f], [bs.elements.map .element], hs, .cons (decode_unbounded hdec) .nil,
    by rw [heldSeen_unspent]; simp [heldSeen]⟩

lemma consumes_pulled_emitted {f : Frame} (hs : s.remaining = f :: s'.remaining)
    (hdec : decode d .unbounded f = .ok bs) :
    Consumes d s none (bs.elements.map .element) s' none :=
  ⟨[f], [bs.elements.map .element], hs, .cons (decode_unbounded hdec) .nil, by simp [heldSeen]⟩

lemma decodeNext_consumes {rest : List Frame}
    (h : decodeNext d .unbounded frames = .ok (dec, rest)) :
    ∃ fs parts, frames = fs ++ rest ∧ List.Forall₂ (HandedOver d) fs parts ∧
      parts.flatten = heldSeen dec ∧ (dec = none → rest = []) := by
  induction frames with
  | nil =>
    obtain ⟨rfl, rfl⟩ : none = dec ∧ [] = rest := by simpa [decodeNext] using h
    exact ⟨[], [], rfl, .nil, rfl, fun _ => rfl⟩
  | cons f frames ih =>
    simp only [decodeNext, bind_eq_ok] at h
    obtain ⟨bs, hdec, h⟩ := h
    split_ifs at h with hspent
    · obtain ⟨fs, parts, rfl, hparts, hseen, hend⟩ := ih h
      refine ⟨f :: fs, [] :: parts, rfl, .cons ?_ hparts, hseen, hend⟩
      have hover := decode_unbounded hdec
      rwa [elements_of_spent hspent] at hover
    · obtain ⟨rfl, rfl⟩ : some bs = dec ∧ frames = rest := by simpa using h
      exact ⟨[f], [bs.elements.map .element], rfl, .cons (decode_unbounded hdec) .nil,
        by simp [heldSeen], fun h => by cases h⟩

lemma refill_consumes (h : refill d .unbounded dec s = .ok (dec', s')) :
    Consumes d s dec [] s' dec' ∧ (dec' = none → s'.remaining = []) := by
  cases dec with
  | some bs =>
    obtain ⟨rfl, rfl⟩ : some bs = dec' ∧ s = s' := by simpa [refill] using h
    exact ⟨.refl _ _, fun h => by cases h⟩
  | none =>
    simp only [refill, nextDecoded, bind_eq_ok] at h
    obtain ⟨⟨dec, rest⟩, hnext, h⟩ := h
    obtain ⟨rfl, rfl⟩ : dec = dec' ∧ Side.new rest = s' := by simpa using h
    obtain ⟨fs, parts, hfs, hparts, hseen, hend⟩ := decodeNext_consumes hnext
    exact ⟨⟨fs, parts, by simpa using hfs, hparts, by simpa [heldSeen] using hseen⟩,
      fun h => by simpa using hend h⟩

lemma drainRemaining_consumes {isOld : Bool}
    (h : drainRemaining d .unbounded isOld frames = .ok acts) :
    ∃ parts, List.Forall₂ (HandedOver d) frames parts ∧
      acts.flatMap oldSeen = (if isOld then parts.flatten else []) ∧
      acts.flatMap newSeen = (if isOld then [] else parts.flatten) := by
  induction frames generalizing acts with
  | nil =>
    obtain rfl : [] = acts := by simpa [drainRemaining] using h
    exact ⟨[], .nil, by simp, by simp⟩
  | cons f frames ih =>
    simp only [drainRemaining, bind_eq_ok] at h
    obtain ⟨bs, hdec, tail, htail, h⟩ := h
    obtain rfl := Except.ok.inj h
    obtain ⟨parts, hparts, hold, hnew⟩ := ih htail
    refine ⟨bs.elements.map .element :: parts, .cons (decode_unbounded hdec) hparts, ?_, ?_⟩
    · rw [flatMap_append, emit_oldSeen, hold]
      cases isOld <;> simp
    · rw [flatMap_append, emit_newSeen, hnew]
      cases isOld <;> simp

lemma tokensEqual_eq {xs ys : List (Option Token)} (h : tokensEqual xs ys = true) : xs = ys := by
  induction xs generalizing ys with
  | nil =>
    cases ys with
    | nil => rfl
    | cons y ys => simp [tokensEqual] at h
  | cons x xs ih =>
    cases x with
    | none => simp [tokensEqual] at h
    | some x =>
      cases ys with
      | nil => simp [tokensEqual] at h
      | cons y ys =>
        cases y with
        | none => simp [tokensEqual] at h
        | some y =>
          simp only [tokensEqual] at h
          split_ifs at h with hxy
          rw [hxy, ih h]

/-- Elements of one id with equal content are the same element. -/
lemma eq_of_contentEqual {a b : Element} (hkey : a.key = b.key) (h : contentEqual a b = true) :
    a = b := by
  unfold contentEqual at h
  split_ifs at h with hkind
  obtain ⟨ka, ia, ta⟩ := a
  obtain ⟨kb, ib, tb⟩ := b
  obtain rfl : ka = kb := not_not.mp hkind
  obtain rfl : ia = ib := osmIdKey_injective hkey
  obtain rfl : ta = tb := tokensEqual_eq h
  rfl

lemma zipMerge_oldSeen (l r : List Element) :
    ((zipMerge Element.key l r).map mergedAction).flatMap oldSeen = l.map .element := by
  induction l generalizing r with
  | nil => induction r <;> simp_all [mergedAction, oldSeen]
  | cons a l ih =>
    induction r with
    | nil => simpa [mergedAction, oldSeen] using ih []
    | cons b r ihr =>
      rw [zipMerge_cons_cons]
      split_ifs with h1 h2
      · simpa [mergedAction, oldSeen] using ih (b :: r)
      · simpa [mergedAction, oldSeen] using ihr
      · have hrec := ih r
        by_cases heq : contentEqual a b = true
        · simpa [mergedAction, compareElements, heq, oldSeen] using hrec
        · simpa [mergedAction, compareElements, heq, oldSeen] using hrec

lemma zipMerge_newSeen (l r : List Element) :
    ((zipMerge Element.key l r).map mergedAction).flatMap newSeen = r.map .element := by
  induction l generalizing r with
  | nil => induction r <;> simp_all [mergedAction, newSeen]
  | cons a l ih =>
    induction r with
    | nil => simp [mergedAction, newSeen, flatMap_map]
    | cons b r ihr =>
      rw [zipMerge_cons_cons]
      split_ifs with h1 h2
      · simpa [mergedAction, newSeen] using ih (b :: r)
      · simpa [mergedAction, newSeen] using ihr
      · have hrec := ih r
        by_cases heq : contentEqual a b = true
        · obtain rfl := eq_of_contentEqual (le_antisymm (le_of_not_gt h2) (le_of_not_gt h1)) heq
          simpa [mergedAction, compareElements, heq, newSeen] using hrec
        · simpa [mergedAction, compareElements, heq, newSeen] using hrec

/-- The elements of a block are those a merge up to `k` takes and those its
left-over state holds. -/
lemma heldSeen_leftOver (k : OsmIdKey) (bs : BlockState) :
    heldSeen (some bs) = (upTo k bs).map .element ++
      heldSeen (leftOver bs (upTo k bs).length !(past k bs).isEmpty) := by
  have hsplit : heldSeen (some bs) = (upTo k bs).map .element ++ (past k bs).map .element := by
    rw [← map_append, upTo_append_past]
    rfl
  rw [hsplit]
  by_cases hnil : past k bs = []
  · simp [leftOver, hnil, heldSeen]
  · simp [leftOver, hnil, heldSeen, elements_leftOver]

lemma mergeDecodedPair_consumes {os ns : BlockState} {ol nl : Option BlockState}
    (h : mergeDecodedPair os ns = .ok (acts, ol, nl)) :
    heldSeen (some os) = acts.flatMap oldSeen ++ heldSeen ol ∧
      heldSeen (some ns) = acts.flatMap newSeen ++ heldSeen nl := by
  simp only [mergeDecodedPair, elementMergePair_eq, bind_eq_ok] at h
  obtain ⟨_, _, _, _, h⟩ := h
  simp only [Except.ok.injEq, Prod.mk.injEq] at h
  obtain ⟨rfl, rfl, rfl⟩ := h
  rw [zipMerge_oldSeen, zipMerge_newSeen]
  exact ⟨heldSeen_leftOver _ os, heldSeen_leftOver _ ns⟩

/-- A turn hands over the blobs it pulled, up to what stays held. -/
def TurnConsumes (d : Decoder) (s : PhaseState) : Turn → Prop
  | .stop acts => ∃ so sn : Side, so.remaining = [] ∧ sn.remaining = [] ∧
      Consumes d s.old s.oldDecoded (acts.flatMap oldSeen) so none ∧
      Consumes d s.new s.newDecoded (acts.flatMap newSeen) sn none
  | .again acts s' =>
      Consumes d s.old s.oldDecoded (acts.flatMap oldSeen) s'.old s'.oldDecoded ∧
      Consumes d s.new s.newDecoded (acts.flatMap newSeen) s'.new s'.newDecoded

lemma slowPath_consumes {s : PhaseState} {t : Turn} (h : slowPath d .unbounded s = .ok t) :
    TurnConsumes d s t := by
  simp only [slowPath, bind_eq_ok] at h
  obtain ⟨⟨od, old⟩, hold, ⟨nd, new⟩, hnew, h⟩ := h
  obtain ⟨hco, hendo⟩ := refill_consumes hold
  obtain ⟨hcn, hendn⟩ := refill_consumes hnew
  cases od with
  | none =>
    cases nd with
    | none =>
      obtain rfl := Except.ok.inj h
      exact ⟨old, new, hendo rfl, hendn rfl, hco, hcn⟩
    | some ns =>
      obtain rfl := Except.ok.inj h
      refine ⟨?_, ?_⟩
      · rw [emit_oldSeen]
        exact hco
      · rw [emit_newSeen]
        exact hcn.trans (consumes_emitted new ns)
  | some os =>
    cases nd with
    | none =>
      obtain rfl := Except.ok.inj h
      refine ⟨?_, ?_⟩
      · rw [emit_oldSeen]
        exact hco.trans (consumes_emitted old os)
      · rw [emit_newSeen]
        exact hcn
    | some ns =>
      dsimp only at h
      split_ifs at h with hbefore hafter
      · obtain rfl := Except.ok.inj h
        refine ⟨?_, ?_⟩
        · rw [emit_oldSeen]
          exact hco.trans (consumes_emitted old os)
        · rw [emit_newSeen]
          exact hcn
      · obtain rfl := Except.ok.inj h
        refine ⟨?_, ?_⟩
        · rw [emit_oldSeen]
          exact hco
        · rw [emit_newSeen]
          exact hcn.trans (consumes_emitted new ns)
      · simp only [bind_eq_ok] at h
        obtain ⟨⟨acts, ol, nl⟩, hmerge, h⟩ := h
        obtain rfl := Except.ok.inj h
        obtain ⟨hseeno, hseenn⟩ := mergeDecodedPair_consumes hmerge
        exact ⟨hco.trans (consumes_held hseeno), hcn.trans (consumes_held hseenn)⟩

/-- A side about to be asked for its next blob. -/
lemma nextBlob_cases (s : Side) : (s.remaining = [] ∧ s.nextBlob = (none, s)) ∨
      ∃ f s', s.remaining = f :: s'.remaining ∧ s.nextBlob = (some f, s') ∧
        (s'.hold f).remaining = s.remaining := by
  cases hr : s.remaining with
  | nil => exact Or.inl ⟨rfl, nextBlob_nil hr⟩
  | cons f rest =>
    obtain ⟨s', hnext, hrest, hhold⟩ := nextBlob_cons hr
    exact Or.inr ⟨f, s', by rw [hrest], hnext, hhold⟩

lemma skipsPair_count {op np : Frame} (h : skipsPair d .unbounded skip op np = .ok true) :
    op.index.count = np.index.count := by
  by_contra hne
  cases skip with
  | true => simp [skipsPair, blobsByteEqual, hne] at h
  | false => simp [skipsPair] at h

lemma turn_consumes {s : PhaseState} {t : Turn} (h : turn d .unbounded skip s = .ok t) :
    TurnConsumes d s t := by
  obtain ⟨old, new, od, nd⟩ := s
  cases od with
  | some os => exact slowPath_consumes h
  | none =>
  cases nd with
  | some ns => exact slowPath_consumes h
  | none =>
  rcases nextBlob_cases old with ⟨hor, hno⟩ | ⟨op, so, hor, hno, hholdo⟩
  · rcases nextBlob_cases new with ⟨hnr, hnn⟩ | ⟨np, sn, hnr, hnn, _⟩
    · simp only [turn, hno, hnn] at h
      obtain rfl := Except.ok.inj h
      exact ⟨old, new, hor, hnr, .refl _ _, .refl _ _⟩
    · simp only [turn, hno, hnn, bind_eq_ok] at h
      obtain ⟨ns, hdec, tail, hdrain, h⟩ := h
      obtain rfl := Except.ok.inj h
      obtain ⟨parts, hparts, hseeno, hseenn⟩ := drainRemaining_consumes hdrain
      refine ⟨old, .new [], hor, rfl, ?_, ?_⟩
      · rw [flatMap_append, emit_oldSeen, hseeno]
        exact .refl _ _
      · rw [flatMap_append, emit_newSeen, hseenn]
        refine (consumes_pulled_emitted hnr hdec).trans ⟨sn.remaining, parts, by simp, hparts, ?_⟩
        simp [heldSeen]
  · rcases nextBlob_cases new with ⟨hnr, hnn⟩ | ⟨np, sn, hnr, hnn, hholdn⟩
    · simp only [turn, hno, hnn, bind_eq_ok] at h
      obtain ⟨os, hdec, tail, hdrain, h⟩ := h
      obtain rfl := Except.ok.inj h
      obtain ⟨parts, hparts, hseeno, hseenn⟩ := drainRemaining_consumes hdrain
      refine ⟨.new [], new, rfl, hnr, ?_, ?_⟩
      · rw [flatMap_append, emit_oldSeen, hseeno]
        refine (consumes_pulled_emitted hor hdec).trans ⟨so.remaining, parts, by simp, hparts, ?_⟩
        simp [heldSeen]
      · rw [flatMap_append, emit_newSeen, hseenn]
        exact .refl _ _
    · simp only [turn, hno, hnn] at h
      split_ifs at h with hbefore hafter
      · simp only [bind_eq_ok] at h
        obtain ⟨os, hdec, h⟩ := h
        obtain rfl := Except.ok.inj h
        refine ⟨?_, ?_⟩
        · rw [emit_oldSeen]
          exact consumes_pulled_emitted hor hdec
        · rw [emit_newSeen]
          exact ⟨[], [], hholdn.symm, .nil, by simp [heldSeen]⟩
      · simp only [bind_eq_ok] at h
        obtain ⟨ns, hdec, h⟩ := h
        obtain rfl := Except.ok.inj h
        refine ⟨?_, ?_⟩
        · rw [emit_oldSeen]
          exact ⟨[], [], hholdo.symm, .nil, by simp [heldSeen]⟩
        · rw [emit_newSeen]
          exact consumes_pulled_emitted hnr hdec
      · simp only [bind_eq_ok] at h
        obtain ⟨equal, hskip, h⟩ := h
        cases equal with
        | true =>
          obtain rfl := Except.ok.inj h
          refine ⟨⟨[op], [[.skipped op.index.count]], hor, .cons (Or.inl rfl) .nil, ?_⟩,
            ⟨[np], [[.skipped op.index.count]], hnr, .cons (Or.inl ?_) .nil, ?_⟩⟩
          · simp [heldSeen, oldSeen]
          · rw [skipsPair_count hskip]
          · simp [heldSeen, newSeen]
        | false =>
          simp only [Bool.false_eq_true, if_false, bind_eq_ok] at h
          obtain ⟨os, hdeco, ns, hdecn, h⟩ := h
          have hslow := slowPath_consumes h
          have hpo := consumes_pulled hor hdeco
          have hpn := consumes_pulled hnr hdecn
          cases t with
          | stop acts =>
            obtain ⟨so', sn', h1, h2, h3, h4⟩ := hslow
            exact ⟨so', sn', h1, h2, hpo.trans h3, hpn.trans h4⟩
          | again acts s' => exact ⟨hpo.trans hslow.1, hpn.trans hslow.2⟩

/-- A run that succeeds hands over every blob of each side once, in order. -/
theorem runPhase_consumes {s : PhaseState} (h : runPhase d .unbounded skip fuel s = .ok acts) :
    ∃ so sn : Side, so.remaining = [] ∧ sn.remaining = [] ∧
      Consumes d s.old s.oldDecoded (acts.flatMap oldSeen) so none ∧
      Consumes d s.new s.newDecoded (acts.flatMap newSeen) sn none := by
  induction fuel generalizing s acts with
  | zero => simp [runPhase] at h
  | succ fuel ih =>
    simp only [runPhase, bind_eq_ok] at h
    obtain ⟨t, hturn, h⟩ := h
    have hspec := turn_consumes hturn
    cases t with
    | stop acts' =>
      obtain rfl := Except.ok.inj h
      exact hspec
    | again acts' s' =>
      simp only [bind_eq_ok] at h
      obtain ⟨tail, hrun, h⟩ := h
      obtain rfl := Except.ok.inj h
      obtain ⟨so, sn, hso, hsn, hco, hcn⟩ := ih hrun
      refine ⟨so, sn, hso, hsn, ?_, ?_⟩
      · rw [flatMap_append]
        exact hspec.1.trans hco
      · rw [flatMap_append]
        exact hspec.2.trans hcn

/-- Ascending blobs of one kind with exact claims, and what they hold. -/
structure Input (d : Decoder) (kind : ElementKind) (frames : List Frame)
    (blocks : List (List Element)) : Prop where
  exact : List.Forall₂ (Exact d) frames blocks
  kind : ∀ f ∈ frames, f.index.kind = kind
  sorted : blocks.flatten.Pairwise fun a b => a.key < b.key
  resolves : ∀ e ∈ blocks.flatten, e.Resolves

lemma Input.elements_kind {blocks : List (List Element)} (h : Input d kind frames blocks) :
    ∀ e ∈ blocks.flatten, e.kind = kind := by
  obtain ⟨hexact, hkind, -, -⟩ := h
  induction hexact with
  | nil => simp
  | @cons f es frames blocks hf _ ih =>
    rw [flatten_cons]
    intro e he
    rcases mem_append.mp he with he | he
    · rw [hf.kind e he, hkind f mem_cons_self]
    · exact ih (fun f hf => hkind f (mem_cons_of_mem _ hf)) e he

/-- For exact claims the block-pair merge ends and is the plain element merge. -/
lemma runPhase_plain {fo fn : List Frame} {bo bn : List (List Element)}
    (hold : Input d kind fo bo) (hnew : Input d kind fn bn) (skip : Bool)
    (hfuel : 2 * fo.length + 2 * fn.length < fuel) :
    ∃ acts, runPhase d .unbounded skip fuel (phaseStart fo fn) = .ok acts ∧
      expandAll acts = plain bo.flatten bn.flatten := by
  obtain ⟨acts, hrun, hexp⟩ := @runPhase_spec d .unbounded skip (phaseStart fo fn) [] [] bo bn
    (sideInv_new hold.exact hold.sorted hold.resolves)
    (sideInv_new hnew.exact hnew.sorted hnew.resolves) fuel
    (by simpa [phaseWeight, sideWeight, phaseStart] using hfuel)
  exact ⟨acts, hrun, by simpa [toCome, phaseStart] using hexp⟩

/-- For exact claims both merges end and give every element the same outcome. -/
theorem runPhase_eq_streamMergePhase {fo fn : List Frame} {bo bn : List (List Element)}
    (hold : Input d kind fo bo) (hnew : Input d kind fn bn) (skip : Bool)
    (hfuel : 2 * fo.length + 2 * fn.length < fuel)
    (hfuel' : bo.flatten.length + bn.flatten.length < fuel) :
    ∃ acts stream, runPhase d .unbounded skip fuel (phaseStart fo fn) = .ok acts ∧
      streamMergePhase kind fuel bo bn = .ok stream ∧ expandAll acts = expandAll stream := by
  obtain ⟨acts, hrun, hexp⟩ := runPhase_plain hold hnew skip hfuel
  exact ⟨acts, _, hrun, streamMergePhase_spec hold.sorted hnew.sorted hold.elements_kind
    hnew.elements_kind hfuel', hexp⟩

/-- Every blob of both sides is handed over once. -/
def AllHandedOver (d : Decoder) (fo fn : List Frame) (acts : List Action) : Prop :=
  (∃ parts, List.Forall₂ (HandedOver d) fo parts ∧ acts.flatMap oldSeen = parts.flatten) ∧
    ∃ parts, List.Forall₂ (HandedOver d) fn parts ∧ acts.flatMap newSeen = parts.flatten

lemma runPhase_handedOver {fo fn : List Frame}
    (h : runPhase d .unbounded skip fuel (phaseStart fo fn) = .ok acts) :
    AllHandedOver d fo fn acts := by
  obtain ⟨so, sn, hso, hsn, hco, hcn⟩ := runPhase_consumes h
  exact ⟨hco.all hso, hcn.all hsn⟩

/-- The merge of a decoded pair meets elements of a block past what it claims. -/
def MeetsPastClaim (bs : BlockState) (boundary : Int64) : Prop :=
  bs.index.lastKey ≤ osmIdKey boundary ∧ ∃ e ∈ bs.elements, osmIdKey boundary < e.key

lemma dropWhile_ne_nil {es : List Element} {k : OsmIdKey} :
    (es.dropWhile fun e => decide (e.key ≤ k)) ≠ [] ↔ ∃ e ∈ es, k < e.key := by
  simp [dropWhile_eq_nil_iff]

lemma checkClaimedMax_error {m : Int64} (h : MeetsPastClaim bs m) (side : String) :
    ∃ message, checkClaimedMax bs.index
      (!(bs.elements.dropWhile fun e => decide (e.key ≤ osmIdKey m)).isEmpty) m side =
        .error (.indexdataMismatch message) := by
  have hmore := dropWhile_ne_nil.mpr h.2
  have hle : osmIdKey bs.index.blobLast ≤ osmIdKey m := osmIdKey_blobLast bs.index ▸ h.1
  simp [checkClaimedMax, hmore, hle]

lemma checkClaimedMax_ok_of_not {m : Int64} (h : ¬ MeetsPastClaim bs m) (side : String) :
    checkClaimedMax bs.index
      (!(bs.elements.dropWhile fun e => decide (e.key ≤ osmIdKey m)).isEmpty) m side = .ok () := by
  by_cases hmore : (bs.elements.dropWhile fun e => decide (e.key ≤ osmIdKey m)) = []
  · simp [checkClaimedMax, hmore]
  · have hle : ¬ osmIdKey bs.index.blobLast ≤ osmIdKey m := by
      rw [osmIdKey_blobLast]
      exact fun hle => h ⟨hle, dropWhile_ne_nil.mp hmore⟩
    simp [checkClaimedMax, hle]

/-- Merging a decoded pair fails exactly when it meets elements past a claim. -/
lemma mergeDecodedPair_error {os ns : BlockState} :
    ((∃ message, mergeDecodedPair os ns = .error (.indexdataMismatch message)) ↔
      MeetsPastClaim os (mergeBoundary os ns) ∨ MeetsPastClaim ns (mergeBoundary os ns)) ∧
    ∀ e, mergeDecodedPair os ns = .error e → ∃ message, e = .indexdataMismatch message := by
  simp only [mergeDecodedPair, elementMergePair_eq]
  by_cases ho : MeetsPastClaim os (mergeBoundary os ns)
  · obtain ⟨message, hm⟩ := checkClaimedMax_error ho "old"
    simp [hm, ho]
  · rw [checkClaimedMax_ok_of_not ho]
    by_cases hn : MeetsPastClaim ns (mergeBoundary os ns)
    · obtain ⟨message, hm⟩ := checkClaimedMax_error hn "new"
      simp [hm, hn]
    · rw [checkClaimedMax_ok_of_not hn]
      simp [ho, hn]

/-- On ascending blobs with exact claims the block-pair merge ends and agrees with the element-level
merge. Whatever the claims, a run that succeeds hands over every blob once, and the merge of a
decoded pair fails exactly when it meets elements past a claimed last id. -/
theorem block_pair_merge_phase (d : Decoder) (skip : Bool) :
    (∀ (kind : ElementKind) (fo fn : List Frame) (bo bn : List (List Element)) (fuel : Nat),
      Input d kind fo bo → Input d kind fn bn → 2 * fo.length + 2 * fn.length < fuel →
      bo.flatten.length + bn.flatten.length < fuel →
      ∃ acts stream, runPhase d .unbounded skip fuel (phaseStart fo fn) = .ok acts ∧
        streamMergePhase kind fuel bo bn = .ok stream ∧ expandAll acts = expandAll stream) ∧
    (∀ (fo fn : List Frame) (fuel : Nat) (acts : List Action),
      runPhase d .unbounded skip fuel (phaseStart fo fn) = .ok acts → AllHandedOver d fo fn acts) ∧
    ∀ os ns : BlockState,
      ((∃ message, mergeDecodedPair os ns = .error (.indexdataMismatch message)) ↔
        MeetsPastClaim os (mergeBoundary os ns) ∨ MeetsPastClaim ns (mergeBoundary os ns)) ∧
      ∀ e, mergeDecodedPair os ns = .error e → ∃ message, e = .indexdataMismatch message := by
  refine ⟨?_, ?_, ?_⟩
  · intro kind fo fn bo bn fuel hold hnew hfuel hfuel'
    exact runPhase_eq_streamMergePhase hold hnew skip hfuel hfuel'
  · intro fo fn fuel acts h
    exact runPhase_handedOver h
  · intro os ns
    exact mergeDecodedPair_error

/-- Bodies stored as they are, one untagged node per byte. -/
def plainDecoder : Decoder where
  envelope body := .ok (some (1, body), none)
  decompress p := .ok p.2
  parse raw := .ok (raw.map fun b => ⟨.node, Int64.ofNat b.toNat, []⟩)

def nodes (ids : Bytes) : List Element :=
  ids.map fun b => ⟨.node, Int64.ofNat b.toNat, []⟩

lemma input_nodes {f : Frame} {ids : Bytes}
    (hexact : Exact plainDecoder f (nodes ids))
    (hsorted : (nodes ids).Pairwise fun a b => a.key < b.key) (hkind : f.index.kind = .node) :
    Input plainDecoder .node [f] [nodes ids] where
  exact := .cons hexact .nil
  kind := by simpa using hkind
  sorted := by simpa using hsorted
  resolves := by
    intro e he
    obtain ⟨b, _, rfl⟩ : ∃ b ∈ ids, (⟨.node, Int64.ofNat b.toNat, []⟩ : Element) = e := by
      simpa [nodes] using he
    simp [Element.Resolves]

/-- Nodes 1 and 5 against nodes 5 and 8. -/
theorem block_pair_merge_phase_nodes : ∃ acts stream, runPhase plainDecoder .unbounded true 5
        (phaseStart [⟨⟨.node, 1, 5, 2, none⟩, [1, 5]⟩] [⟨⟨.node, 5, 8, 2, none⟩, [5, 8]⟩]) = .ok acts ∧
      streamMergePhase .node 5 [nodes [1, 5]] [nodes [5, 8]] = .ok stream ∧
      expandAll acts = expandAll stream := by
  refine (block_pair_merge_phase plainDecoder true).1 .node _ _ _ _ 5
    (input_nodes ?_ (by decide) rfl) (input_nodes ?_ (by decide) rfl) (by decide)
    (by decide)
  · exact ⟨⟨_, rfl, rfl⟩, by decide, by decide, rfl, by decide, by decide, by decide, by decide⟩
  · exact ⟨⟨_, rfl, rfl⟩, by decide, by decide, rfl, by decide, by decide, by decide, by decide⟩

/-- The old blob claims nodes 1 to 5 and holds 7 as well, as the new one does; the
run reports it deleted and created. -/
theorem block_pair_past_claim_unrefused : (∃ e ∈ nodes [1, 5, 7], ¬ e.id ≤ 5) ∧
    runPhase plainDecoder .unbounded true 5
      (phaseStart [⟨⟨.node, 1, 5, 3, none⟩, [1, 5, 7]⟩] [⟨⟨.node, 6, 8, 2, none⟩, [7, 8]⟩]) =
        .ok [.blobOldOnly ⟨nodes [1, 5, 7], 3⟩, .blobNewOnly ⟨nodes [7, 8], 2⟩] ∧
    ¬ expandAll [.blobOldOnly ⟨nodes [1, 5, 7], 3⟩, .blobNewOnly ⟨nodes [7, 8], 2⟩] =
      plain (nodes [1, 5, 7]) (nodes [7, 8]) := by
  refine ⟨?_, ?_, ?_⟩
  · decide
  · rfl
  · decide

end DiffEquivalence
