import Pbfhogg.Diff.MergeJoin
import Pbfhogg.Lib.ZipMerge
import Mathlib.Data.List.TakeWhile

/-!
# The block-pair merge computes the element merge

What a turn of the phase loop emits, expanded, followed by the plain merge of what is still to come,
is the plain merge of what was to come before. On ascending blobs with exact claims every turn
succeeds and consumes a blob or the rest of one, so the loop ends.
-/

namespace BlockPair

open OsmId BlobMeta MergeJoin ZipMerge List Option

variable {l es head : List Element} {f : Frame} {s : Side} {dec : Option BlockState}
  {blocks : List (List Element)} {bs : BlockState} {frames : List Frame}

/-- A merge outcome at element level; an unchanged element is not named. -/
inductive Outcome where
  | unchanged
  | modified (old new : Element)
  | oldOnly (e : Element)
  | newOnly (e : Element)
  deriving DecidableEq

/-- A bulk run is its elements and a byte-equal pair that many unchanged ones. -/
def expand : Action → List Outcome
  | .blobEqual n => replicate n .unchanged
  | .blobOldOnly run => run.elements.map .oldOnly
  | .blobNewOnly run => run.elements.map .newOnly
  | .elementEqual _ => [.unchanged]
  | .elementModified o n => [.modified o n]
  | .elementOldOnly e => [.oldOnly e]
  | .elementNewOnly e => [.newOnly e]

def expandAll (actions : List Action) : List Outcome := actions.flatMap expand

def mergedAction : Merged Element → Action
  | .left a => .elementOldOnly a
  | .right b => .elementNewOnly b
  | .both a b => compareElements a b

/-- The plain element merge of two lists. -/
def plain (l r : List Element) : List Outcome :=
  expandAll ((zipMerge Element.key l r).map mergedAction)

@[simp] lemma expandAll_nil : expandAll [] = [] := rfl

@[simp] lemma expandAll_append (a b : List Action) :
    expandAll (a ++ b) = expandAll a ++ expandAll b := by
  simp [expandAll]

lemma plain_append {l₁ l₂ r₁ r₂ : List Element} (h : ∀ a ∈ l₁, ∀ b ∈ r₂, a.key < b.key)
    (h' : ∀ b ∈ r₁, ∀ a ∈ l₂, b.key < a.key) :
    plain (l₁ ++ l₂) (r₁ ++ r₂) = plain l₁ r₁ ++ plain l₂ r₂ := by
  simp only [plain, zipMerge_append Element.key h h', map_append, expandAll_append]

lemma plain_nil_right (l : List Element) : plain l [] = l.map .oldOnly := by
  simp only [plain, zipMerge_nil_right, expandAll, List.map_map]
  induction l with
  | nil => rfl
  | cons a l ih => simp [mergedAction, expand, ih]

lemma plain_nil_left (r : List Element) : plain [] r = r.map .newOnly := by
  simp only [plain, zipMerge_nil_left, expandAll, List.map_map]
  induction r with
  | nil => rfl
  | cons a l ih => simp [mergedAction, expand, ih]

lemma plain_old_first {l₁ l₂ r : List Element} (h : ∀ a ∈ l₁, ∀ b ∈ r, a.key < b.key) :
    plain (l₁ ++ l₂) r = l₁.map .oldOnly ++ plain l₂ r := by
  have hcut := @plain_append l₁ l₂ [] r h (by simp)
  rwa [nil_append, plain_nil_right] at hcut

lemma plain_new_first {l r₁ r₂ : List Element} (h : ∀ b ∈ r₁, ∀ a ∈ l, b.key < a.key) :
    plain l (r₁ ++ r₂) = r₁.map .newOnly ++ plain l r₂ := by
  have hcut := @plain_append [] l r₁ r₂ (by simp) h
  rwa [nil_append, plain_nil_left] at hcut

lemma tokensEqual_self {ts : List (Option Token)} (h : ∀ t ∈ ts, t ≠ none) :
    tokensEqual ts ts = true := by
  induction ts with
  | nil => rfl
  | cons t ts ih =>
    cases t with
    | none => exact absurd rfl (h none mem_cons_self)
    | some x =>
      simp only [tokensEqual, if_true]
      exact ih fun t ht => h t (mem_cons_of_mem _ ht)

variable {e : Element}

lemma contentEqual_self (h : e.Resolves) : contentEqual e e = true := by
  simp [contentEqual, tokensEqual_self h]

lemma plain_self (h : ∀ e ∈ l, e.Resolves) : plain l l = replicate l.length .unchanged := by
  rw [plain, zipMerge_self]
  induction l with
  | nil => rfl
  | cons a l ih =>
    have htail := ih fun e he => h e (mem_cons_of_mem _ he)
    simp only [expandAll, map_cons, flatMap_cons] at htail ⊢
    rw [htail]
    simp [mergedAction, compareElements, contentEqual_self (h a mem_cons_self), expand,
      replicate_succ]

variable (k : OsmIdKey)

/-- The pair merge consumes from each side the elements up to the first past the
boundary and merges those; what it reports as left is what is behind them. -/
theorem elementMergePair_eq (os ns : List Element) : elementMergePair k os ns =
      { actions := (zipMerge Element.key (os.takeWhile fun e => decide (e.key ≤ k))
          (ns.takeWhile fun e => decide (e.key ≤ k))).map mergedAction
        oldConsumed := (os.takeWhile fun e => decide (e.key ≤ k)).length
        newConsumed := (ns.takeWhile fun e => decide (e.key ≤ k)).length
        oldHasMore := !(os.dropWhile fun e => decide (e.key ≤ k)).isEmpty
        newHasMore := !(ns.dropWhile fun e => decide (e.key ≤ k)).isEmpty } := by
  have hnew : ∀ ns : List Element, mergePairNew k ns =
      { actions := (ns.takeWhile fun e => decide (e.key ≤ k)).map .elementNewOnly
        oldConsumed := 0
        newConsumed := (ns.takeWhile fun e => decide (e.key ≤ k)).length
        oldHasMore := false
        newHasMore := !(ns.dropWhile fun e => decide (e.key ≤ k)).isEmpty } := by
    intro ns
    induction ns with
    | nil => rfl
    | cons n ns ih =>
      by_cases hn : n.key ≤ k
      · simp [mergePairNew, hn, ih, PairOutcome.takeNew]
      · simp [mergePairNew, hn]
  induction os generalizing ns with
  | nil =>
    rw [elementMergePair, hnew]
    simp [Function.comp_def, mergedAction]
  | cons o os ih =>
    rw [elementMergePair]
    induction ns with
    | nil =>
      by_cases ho : o.key ≤ k
      · simp [mergePairHead, ho, ih, PairOutcome.takeOld, mergedAction]
      · simp [mergePairHead, ho]
    | cons n ns ihn =>
      by_cases ho : o.key ≤ k
      · by_cases hn : n.key ≤ k
        · simp only [ho, decide_true, takeWhile_cons_of_pos, dropWhile_cons_of_pos,
            length_cons] at ihn
          simp only [mergePairHead, ho, hn, if_true, decide_true, takeWhile_cons_of_pos,
            dropWhile_cons_of_pos, zipMerge_cons_cons, length_cons]
          split_ifs with h1 h2
          · simp [ih, hn, PairOutcome.takeOld, mergedAction]
          · simp [ihn, PairOutcome.takeNew, mergedAction]
          · simp [ih, mergedAction]
        · simp [mergePairHead, ho, hn, ih, PairOutcome.takeOld, mergedAction]
      · by_cases hn : n.key ≤ k
        · simp only [ho, decide_false, Bool.false_eq_true, not_false_eq_true,
            takeWhile_cons_of_neg, dropWhile_cons_of_neg, zipMerge_nil_left] at ihn
          simp [mergePairHead, ho, hn, ihn, PairOutcome.takeNew, mergedAction]
        · simp [mergePairHead, ho, hn]

/-- The index of a frame says exactly what its block holds. -/
structure Exact (d : Decoder) (f : Frame) (es : List Element) : Prop where
  decodes : ∃ raw, d.decompressBlobRaw f.body = .ok raw ∧ d.parse raw = .ok es
  nonempty : es ≠ []
  kind : ∀ e ∈ es, e.kind = f.index.kind
  count : f.index.count = es.length
  lower : ∀ e ∈ es, f.index.minId ≤ e.id
  upper : ∀ e ∈ es, e.id ≤ f.index.maxId
  min_mem : ∃ e ∈ es, e.id = f.index.minId
  max_mem : ∃ e ∈ es, e.id = f.index.maxId

variable {d : Decoder} {w : Window}

lemma Exact.firstKey_le (h : Exact d f es) (he : e ∈ es) : f.index.firstKey ≤ e.key :=
  blobOsmFirstKey_le (h.lower e he) (h.upper e he)

lemma Exact.le_lastKey (h : Exact d f es) (he : e ∈ es) : e.key ≤ f.index.lastKey :=
  le_blobOsmLastKey (h.lower e he) (h.upper e he)

lemma osmIdKey_blobLast (x : BlobIndex) : osmIdKey x.blobLast = x.lastKey := by
  unfold BlobIndex.blobLast BlobIndex.lastKey blobOsmLastId blobOsmLastKey
  have hlt : x.minId < 0 ↔ ¬ 0 ≤ x.minId := by
    rw [Int64.lt_iff_toInt_lt, Int64.le_iff_toInt_le]
    omega
  by_cases h1 : 0 ≤ x.minId
  · simp [h1, hlt]
  · by_cases h2 : x.maxId ≤ 0
    · simp [h1, h2, hlt]
    · simp [h1, h2]

lemma Exact.last_mem (h : Exact d f es) : ∃ e ∈ es, e.id = f.index.blobLast := by
  unfold BlobIndex.blobLast blobOsmLastId
  split_ifs
  · exact h.min_mem
  · exact h.max_mem

/-- The part of a list inside the window. -/
def inside (w : Window) (es : List Element) : List Element :=
  es.filter fun e => decide (w.Contains e.key)

lemma inside_append (w : Window) (a b : List Element) :
    inside w (a ++ b) = inside w a ++ inside w b := filter_append _ _

lemma mem_inside : e ∈ inside w es ↔ e ∈ es ∧ w.Contains e.key := by
  simp [inside]

@[simp] lemma inside_unbounded (es : List Element) : inside .unbounded es = es := by
  rw [inside, filter_eq_self]
  intro e _
  simp [Window.unbounded, Window.Contains]

lemma any_decide_iff {α : Type} {o : Option α} {p : α → Prop} [DecidablePred p] :
    (o.any fun x => decide (p x)) = true ↔ ∃ x, o = some x ∧ p x := by
  cases o <;> simp

/-- The clip loop behind `pre` elements before the window and `ins` inside it. -/
lemma clipLoop_eq (pre ins rest : List Element) (hpre : ∀ e ∈ pre, ¬ w.Contains e.key)
    (hins : ∀ e ∈ ins, w.Contains e.key)
    (hsorted : (ins ++ rest).Pairwise fun a b => a.key < b.key) :
    ∃ skip stop, clipLoop w rest (pre.length + ins.length) pre.length
        (ins.getLast?.map Element.id) =
        (skip, some stop, (ins ++ inside w rest).getLast?.map Element.id) ∧ skip ≤ stop ∧
      ((pre ++ (ins ++ rest)).drop skip).take (stop - skip) = ins ++ inside w rest := by
  induction rest generalizing pre ins with
  | nil =>
    refine ⟨pre.length, pre.length + ins.length, ?_, by omega, ?_⟩
    · simp [clipLoop, inside]
    · simp [inside]
  | cons e rest ih =>
    rw [clipLoop]
    split_ifs with hstop hstart
    · -- At the window's end: nothing behind this element is inside.
      obtain ⟨stop, hw, hle⟩ := any_decide_iff.mp hstop
      have hnone : inside w (e :: rest) = [] := by
        rw [inside, filter_eq_nil_iff]
        intro x hx hc
        have hcontains : w.Contains x.key := of_decide_eq_true hc
        have hlt := hcontains.2 stop (by rw [hw]; rfl)
        have hex : e.key ≤ x.key := by
          rcases mem_cons.mp hx with rfl | hx
          · exact le_refl _
          · have hp := (pairwise_append.mp hsorted).2.1
            exact le_of_lt ((pairwise_cons.mp hp).1 x hx)
        exact absurd (lt_of_lt_of_le hlt hle) (not_lt_of_ge hex)
      refine ⟨pre.length, pre.length + ins.length, ?_, by omega, ?_⟩
      · simp [hnone]
      · simp [hnone]
    · -- Before the window's start, which only a block's leading part is.
      obtain ⟨start, hw, hlt⟩ := any_decide_iff.mp hstart
      have hnot : ¬ w.Contains e.key := fun hc =>
        absurd hlt (not_lt_of_ge (hc.1 start (by rw [hw]; rfl)))
      have hempty : ins = [] := by
        cases ins with
        | nil => rfl
        | cons x xs =>
          have hx := (hins x mem_cons_self).1 start (by rw [hw]; rfl)
          have hxe := (pairwise_append.mp hsorted).2.2 x mem_cons_self e
            mem_cons_self
          exact absurd (lt_trans (lt_of_le_of_lt hx hxe) hlt) (lt_irrefl _)
      subst hempty
      have hpre' : ∀ x ∈ pre ++ [e], ¬ w.Contains x.key := by
        intro x hx
        rcases mem_append.mp hx with hx | hx
        · exact hpre x hx
        · rw [mem_singleton.mp hx]
          exact hnot
      obtain ⟨skip, stop, heq, hle, hel⟩ := ih (pre ++ [e]) [] hpre' (by simp)
        (List.Pairwise.of_cons hsorted)
      have hcons : inside w (e :: rest) = inside w rest := by
        rw [inside, filter_cons_of_neg (by simpa using hnot)]
        rfl
      refine ⟨skip, stop, ?_, hle, ?_⟩
      · rw [hcons]
        simpa using heq
      · rw [hcons]
        simpa using hel
    · -- Inside the window.
      have hin : w.Contains e.key := by
        constructor
        · intro s hs
          by_contra hlt
          refine hstart ?_
          rw [mem_def.mp hs]
          simpa using lt_of_not_ge hlt
        · intro t ht
          by_contra hge
          refine hstop ?_
          rw [mem_def.mp ht]
          simpa using le_of_not_gt hge
      have hins' : ∀ x ∈ ins ++ [e], w.Contains x.key := by
        intro x hx
        rcases mem_append.mp hx with hx | hx
        · exact hins x hx
        · rw [mem_singleton.mp hx]
          exact hin
      obtain ⟨skip, stop, heq, hle, hel⟩ := ih pre (ins ++ [e]) hpre hins'
        (by simpa using hsorted)
      have hcons : inside w (e :: rest) = e :: inside w rest := by
        rw [inside, filter_cons_of_pos (by simpa using hin)]
        rfl
      refine ⟨skip, stop, ?_, hle, ?_⟩
      · rw [hcons]
        simpa [Nat.add_assoc] using heq
      · rw [hcons]
        simpa using hel

/-- The clip's bounds stay inside the block. -/
lemma clipLoop_bounds (w : Window) (rest : List Element) (i skip : Nat) (last : Option Int64)
    (hskip : skip ≤ i) : ∃ s t l, clipLoop w rest i skip last = (s, some t, l) ∧
      s ≤ t ∧ t ≤ i + rest.length := by
  induction rest generalizing i skip last with
  | nil => exact ⟨min skip i, i, last, rfl, by omega, by simp⟩
  | cons e rest ih =>
    rw [clipLoop]
    split_ifs
    · exact ⟨min skip i, i, last, rfl, by omega, by simp⟩
    · obtain ⟨s, t, l, heq, h1, h2⟩ := ih (i + 1) (i + 1) last (by omega)
      exact ⟨s, t, l, heq, h1, by simp only [length_cons]; omega⟩
    · obtain ⟨s, t, l, heq, h1, h2⟩ := ih (i + 1) skip (some e.id) (by omega)
      exact ⟨s, t, l, heq, h1, by simp only [length_cons]; omega⟩

/-- What the merge relies on of a decoded block: `es` lies in the claimed range, and the elements
left reach exactly to the last the block can offer. -/
structure Decoded (bs : BlockState) (es : List Element) : Prop where
  nonempty : bs.elements ≠ []
  sub : ∀ e ∈ bs.elements, e ∈ es
  sorted : bs.elements.Pairwise fun a b => a.key < b.key
  last_mem : ∃ e ∈ bs.elements, e.id = stateLast bs
  le_last : ∀ e ∈ bs.elements, e.key ≤ osmIdKey (stateLast bs)
  first : ∀ e ∈ es, bs.index.firstKey ≤ e.key
  last : ∀ e ∈ es, e.key ≤ bs.index.lastKey
  unspent : bs.spent = false

lemma decode_eq (hf : Exact d f es) :
    decode d w f = .ok (match (if w.crosses f.index then clip es w else (0, none, none)) with
      | (skip, stop, last) => ⟨es, skip, stop, last, f.index⟩) := by
  obtain ⟨raw, hraw, hparse⟩ := hf.decodes
  have hkinds : ∀ k ∈ es.map Element.kind, k = f.index.kind := by
    intro k hk
    obtain ⟨e, he, rfl⟩ := mem_map.mp hk
    exact hf.kind e he
  simp only [decode, hraw, hparse, refuseForeignKind_ok hkinds, bind, Except.bind]

lemma getLast_key_max (hs : l.Pairwise fun a b => a.key < b.key) {x : Element}
    (hx : l.getLast? = some x) : ∀ e ∈ l, e.key ≤ x.key := by
  intro e he
  obtain ⟨ys, rfl⟩ := getLast?_eq_some_iff.mp hx
  rcases mem_append.mp he with he | he
  · exact le_of_lt ((pairwise_append.mp hs).2.2 e he x mem_cons_self)
  · rw [mem_singleton.mp he]

lemma Exact.inside_eq (hf : Exact d f es) (hcross : ¬ w.crosses f.index = true) :
    inside w es = es := by
  rw [inside, filter_eq_self]
  intro e he
  have hnot : ¬ ((∃ s, w.start = some s ∧ f.index.firstKey < s) ∨
      ∃ t, w.stop = some t ∧ t ≤ f.index.lastKey) := by
    simpa [Window.crosses, any_decide_iff] using hcross
  refine decide_eq_true ⟨?_, ?_⟩
  · intro s hstart
    by_contra hlt
    exact hnot (Or.inl ⟨s, hstart, lt_of_le_of_lt (hf.firstKey_le he) (lt_of_not_ge hlt)⟩)
  · intro t hstop
    by_contra hge
    exact hnot (Or.inr ⟨t, hstop, le_trans (le_of_not_gt hge) (hf.le_lastKey he)⟩)

/-- Decoding a frame gives the part of its block inside the window, or a spent
block when nothing of it is. -/
theorem decode_spec (hf : Exact d f es) (hs : es.Pairwise fun a b => a.key < b.key) :
    ∃ bs, decode d w f = .ok bs ∧ bs.elements = inside w es ∧
      (inside w es = [] → bs.spent = true) ∧ (inside w es ≠ [] → Decoded bs es) := by
  rw [decode_eq hf]
  by_cases hcross : w.crosses f.index
  · obtain ⟨skip, stop, heq, hle, hel⟩ := @clipLoop_eq w [] [] es (by simp) (by simp)
      (by simpa using hs)
    have hclip : clip es w = (skip, some stop, (inside w es).getLast?.map Element.id) := by
      simpa [clip] using heq
    simp only [nil_append] at hel
    rw [if_pos hcross, hclip]
    refine ⟨_, rfl, hel, ?_, ?_⟩
    · intro hnil
      have hlen : ((es.drop skip).take (stop - skip)).length = 0 := by rw [hel, hnil]; rfl
      simp only [BlockState.spent, any_some, decide_eq_true_eq]
      rw [length_take, length_drop] at hlen
      by_contra hlt
      obtain ⟨s, t, l, hbounds, _, ht⟩ := clipLoop_bounds w es 0 0 none (by omega)
      have hsame : stop = t := by
        have hboth := hclip.symm.trans hbounds
        simp only [Prod.mk.injEq, some.injEq] at hboth
        exact hboth.2.1
      omega
    · intro hne
      obtain ⟨x, hx⟩ : ∃ x, (inside w es).getLast? = some x := by
        rw [← isSome_iff_exists, getLast?_isSome]
        exact hne
      have hxin : x ∈ inside w es := mem_of_getLast? hx
      have hsorted : (inside w es).Pairwise fun a b => a.key < b.key := hs.filter _
      have hmax := getLast_key_max hsorted hx
      have hxlast : x.key ≤ f.index.lastKey := hf.le_lastKey (mem_inside.mp hxin).1
      have hlast : ∀ bs : BlockState, bs.clipLast = some x.id → bs.index = f.index →
          osmIdKey (stateLast bs) = x.key := by
        intro bs hclip hindex
        rw [stateLast, hclip, hindex]
        dsimp only
        split_ifs with hlt
        · rfl
        · rw [osmIdKey_blobLast] at hlt ⊢
          exact le_antisymm (le_of_not_gt hlt) hxlast
      have hstate := hlast ⟨es, skip, some stop, some x.id, f.index⟩ rfl rfl
      have helems : BlockState.elements ⟨es, skip, some stop, some x.id, f.index⟩ =
          inside w es := hel
      simp only [hx, map_some]
      refine ⟨?_, ?_, ?_, ?_, ?_, ?_, ?_, ?_⟩
      · exact fun h => hne (hel.symm.trans h)
      · exact fun e he => (mem_inside.mp (helems ▸ he)).1
      · exact helems.symm ▸ hsorted
      · exact ⟨x, helems.symm ▸ hxin, (osmIdKey_injective hstate).symm⟩
      · exact fun e he => hstate ▸ hmax e (helems ▸ he)
      · exact fun e he => hf.firstKey_le he
      · exact fun e he => hf.le_lastKey he
      · by_contra hspent
        simp only [BlockState.spent, any_some, Bool.not_eq_false, decide_eq_true_eq]
          at hspent
        rw [show stop - skip = 0 by omega] at hel
        exact hne (by simpa using hel.symm)
  · rw [if_neg hcross, hf.inside_eq hcross]
    refine ⟨_, rfl, by simp [BlockState.elements], fun h => absurd h hf.nonempty, fun _ => ?_⟩
    have hel : BlockState.elements ⟨es, 0, none, none, f.index⟩ = es := by
      simp [BlockState.elements]
    obtain ⟨x, hx, hxid⟩ := hf.last_mem
    refine ⟨?_, ?_, ?_, ?_, ?_, ?_, ?_, rfl⟩
    · exact fun h => hf.nonempty (hel.symm.trans h)
    · exact fun e he => hel ▸ he
    · exact hel.symm ▸ hs
    · exact ⟨x, hel.symm ▸ hx, hxid⟩
    · intro e he
      rw [stateLast, osmIdKey_blobLast]
      exact hf.le_lastKey (hel ▸ he)
    · exact fun e he => hf.firstKey_le he
    · exact fun e he => hf.le_lastKey he

/-- The elements inside the window a side has still to offer. -/
def toCome (w : Window) (dec : Option BlockState) (blocks : List (List Element)) :
    List Element :=
  (match dec with
    | none => []
    | some bs => bs.elements) ++ inside w blocks.flatten

/-- A side of the merge: `head` is the block being merged, empty when there is
none, and `blocks` are the contents of the frames still to yield. -/
structure SideInv (d : Decoder) (s : Side) (dec : Option BlockState) (head : List Element)
    (blocks : List (List Element)) : Prop where
  frames : List.Forall₂ (Exact d) s.remaining blocks
  sorted : (head ++ blocks.flatten).Pairwise fun a b => a.key < b.key
  resolves : ∀ e ∈ blocks.flatten, e.Resolves
  fresh : dec = none → head = []
  decoded : ∀ bs, dec = some bs → Decoded bs head

def sideWeight (s : Side) (dec : Option BlockState) : Nat :=
  2 * s.remaining.length + dec.toList.length

@[simp] lemma remaining_new (frames : List Frame) : (Side.new frames).remaining = frames := rfl

lemma SideInv.blocks_sorted (h : SideInv d s dec head blocks) :
    blocks.flatten.Pairwise fun a b => a.key < b.key :=
  (pairwise_append.mp h.sorted).2.1

lemma SideInv.head_lt (h : SideInv d s dec head blocks) {x y : Element} (hx : x ∈ head)
    (hy : y ∈ blocks.flatten) : x.key < y.key :=
  (pairwise_append.mp h.sorted).2.2 x hx y hy

/-- What a side has still to offer lies at or past its block's claimed first key. -/
lemma SideInv.firstKey_le (h : SideInv d s (some bs) head blocks)
    (he : e ∈ toCome w (some bs) blocks) : bs.index.firstKey ≤ e.key := by
  have hdec := h.decoded bs rfl
  rcases mem_append.mp he with he | he
  · exact hdec.first e (hdec.sub e he)
  · obtain ⟨x, hx⟩ := exists_mem_of_ne_nil _ hdec.nonempty
    exact le_of_lt (lt_of_le_of_lt (hdec.first x (hdec.sub x hx))
      (h.head_lt (hdec.sub x hx) (mem_inside.mp he).1))

/-- A side with its frames and nothing decoded. -/
lemma sideInv_new (hframes : List.Forall₂ (Exact d) frames blocks)
    (hsorted : blocks.flatten.Pairwise fun a b => a.key < b.key)
    (hres : ∀ e ∈ blocks.flatten, e.Resolves) : SideInv d (Side.new frames) none [] blocks :=
  ⟨hframes, by simpa using hsorted, hres, fun _ => rfl, fun _ h => by cases h⟩

/-- Pulling decoded blocks until one has elements inside the window loses nothing. -/
lemma decodeNext_spec (hframes : List.Forall₂ (Exact d) frames blocks)
    (hsorted : blocks.flatten.Pairwise fun a b => a.key < b.key)
    (hres : ∀ e ∈ blocks.flatten, e.Resolves) :
    ∃ dec rest head blocks', decodeNext d w frames = .ok (dec, rest) ∧
      SideInv d (Side.new rest) dec head blocks' ∧ toCome w dec blocks' = inside w blocks.flatten ∧
      sideWeight (Side.new rest) dec ≤ 2 * frames.length ∧
      (dec = none → toCome w dec blocks' = []) := by
  induction hframes with
  | nil =>
    exact ⟨none, [], [], [], rfl, sideInv_new .nil .nil (by simp), rfl, by simp [sideWeight],
      fun _ => rfl⟩
  | @cons f es frames blocks hf hframes ih =>
    rw [flatten_cons] at hsorted hres
    obtain ⟨hes, hblocks, hcross⟩ := pairwise_append.mp hsorted
    have hres' : ∀ e ∈ blocks.flatten, e.Resolves := fun e he =>
      hres e (mem_append_right _ he)
    obtain ⟨bs, hdec, hel, hspent, hfull⟩ := decode_spec (w := w) hf hes
    by_cases hnil : inside w es = []
    · obtain ⟨dec, rest, head, blocks', heq, hinv, hcome, hweight, hdone⟩ := ih hblocks hres'
      refine ⟨dec, rest, head, blocks', ?_, hinv, ?_, ?_, hdone⟩
      · simp only [decodeNext, hdec, bind, Except.bind, hspent hnil, if_true, heq]
      · rw [hcome, flatten_cons, inside_append, hnil, nil_append]
      · simp only [length_cons]
        omega
    · have hd := hfull hnil
      refine ⟨some bs, frames, es, blocks, ?_, ⟨hframes, hsorted, hres', ?_, ?_⟩, ?_, ?_, ?_⟩
      · simp [decodeNext, hdec, bind, Except.bind, hd.unspent]
      · exact fun h => by cases h
      · rintro _ ⟨⟩
        exact hd
      · rw [toCome, hel, flatten_cons, inside_append]
      · simp only [sideWeight, remaining_new, toList, length_cons, length_nil]
        omega
      · exact fun h => by cases h

lemma nextDecoded_spec (h : SideInv d s none [] blocks) :
    ∃ dec s' head blocks', nextDecoded d w s = .ok (dec, s') ∧ SideInv d s' dec head blocks' ∧
      toCome w dec blocks' = toCome w none blocks ∧
      sideWeight s' dec ≤ sideWeight s none ∧ (dec = none → toCome w dec blocks' = []) := by
  obtain ⟨dec, rest, head, blocks', heq, hinv, hcome, hweight, hdone⟩ :=
    decodeNext_spec (w := w) h.frames h.blocks_sorted h.resolves
  refine ⟨dec, Side.new rest, head, blocks', ?_, hinv, hcome, ?_, hdone⟩
  · simp only [nextDecoded, heq, bind, Except.bind]
  · simpa [sideWeight] using hweight

/-- The slow path's refill of one side. -/
lemma refill_spec (h : SideInv d s dec head blocks) : ∃ dec' s' head' blocks',
      refill d w dec s = .ok (dec', s') ∧ SideInv d s' dec' head' blocks' ∧
      toCome w dec' blocks' = toCome w dec blocks ∧
      sideWeight s' dec' ≤ sideWeight s dec ∧ (dec' = none → toCome w dec' blocks' = []) := by
  cases dec with
  | some bs => exact ⟨some bs, s, head, blocks, rfl, h, rfl, le_refl _, fun h => by cases h⟩
  | none =>
    obtain rfl := h.fresh rfl
    exact nextDecoded_spec h

lemma elements_of_spent (h : bs.spent = true) : bs.elements = [] := by
  obtain ⟨stop, hstop, hle⟩ := any_decide_iff.mp h
  simp [BlockState.elements, hstop, show stop - bs.skipCount = 0 by omega]

lemma expand_emit_old (bs : BlockState) :
    expandAll (emitBlock bs true) = bs.elements.map .oldOnly := by
  by_cases hspent : bs.spent = true
  · simp [emitBlock, hspent, elements_of_spent hspent]
  · simp [emitBlock, hspent, expandAll, expand, BlockState.run]

lemma expand_emit_new (bs : BlockState) :
    expandAll (emitBlock bs false) = bs.elements.map .newOnly := by
  by_cases hspent : bs.spent = true
  · simp [emitBlock, hspent, elements_of_spent hspent]
  · simp [emitBlock, hspent, expandAll, expand, BlockState.run]

/-- Draining one side emits the part of every block inside the window. -/
lemma drainRemaining_spec (hframes : List.Forall₂ (Exact d) frames blocks)
    (hsorted : blocks.flatten.Pairwise fun a b => a.key < b.key) (isOld : Bool) :
    ∃ acts, drainRemaining d w isOld frames = .ok acts ∧
      expandAll acts = (inside w blocks.flatten).map
        (if isOld then Outcome.oldOnly else Outcome.newOnly) := by
  induction hframes with
  | nil => exact ⟨[], rfl, rfl⟩
  | @cons f es frames blocks hf hframes ih =>
    rw [flatten_cons] at hsorted
    obtain ⟨hes, hblocks, _⟩ := pairwise_append.mp hsorted
    obtain ⟨bs, hdec, hel, _, _⟩ := decode_spec (w := w) hf hes
    obtain ⟨acts, heq, hexp⟩ := ih hblocks
    refine ⟨emitBlock bs isOld ++ acts, ?_, ?_⟩
    · simp only [drainRemaining, hdec, heq, bind, Except.bind]
    · rw [expandAll_append, hexp, flatten_cons, inside_append, map_append, ← hel]
      cases isOld with
      | true => simp [expand_emit_old]
      | false => simp [expand_emit_new]

/-- The elements a merge up to `k` leaves of a block. -/
def past (bs : BlockState) : List Element :=
  bs.elements.dropWhile fun e => decide (e.key ≤ k)

def upTo (bs : BlockState) : List Element :=
  bs.elements.takeWhile fun e => decide (e.key ≤ k)

lemma upTo_append_past (bs : BlockState) : upTo k bs ++ past k bs = bs.elements :=
  takeWhile_append_dropWhile

lemma key_le_of_mem_upTo {k : OsmIdKey} (he : e ∈ upTo k bs) : e.key ≤ k := by
  simpa using mem_takeWhile_imp he

lemma lt_key_of_mem_past {k : OsmIdKey} (hs : bs.elements.Pairwise fun a b => a.key < b.key)
    (he : e ∈ past k bs) : k < e.key := by
  have hp : (past k bs).Pairwise fun a b => a.key < b.key :=
    hs.sublist (dropWhile_sublist _)
  cases hpast : past k bs with
  | nil =>
    rw [hpast] at he
    cases he
  | cons x xs =>
    have hx : ¬ x.key ≤ k := by
      have hxs : (bs.elements.dropWhile fun e => decide (e.key ≤ k)) = x :: xs := hpast
      have hhead := head_dropWhile_not (fun e : Element => decide (e.key ≤ k))
        (by rw [hxs]; exact cons_ne_nil _ _)
      simp only [hxs, head_cons, decide_eq_false_iff_not] at hhead
      exact hhead
    rw [hpast] at he hp
    rcases mem_cons.mp he with rfl | he
    · exact lt_of_not_ge hx
    · exact lt_trans (lt_of_not_ge hx) ((pairwise_cons.mp hp).1 e he)

/-- Skipping what a merge consumed leaves the elements behind it. -/
lemma elements_skip (bs : BlockState) (n : Nat) :
    BlockState.elements { bs with skipCount := bs.skipCount + n } = bs.elements.drop n := by
  unfold BlockState.elements
  cases bs.stop with
  | none => simp [drop_drop]
  | some stop => simp [drop_take, drop_drop, Nat.sub_sub]

lemma elements_leftOver (bs : BlockState) :
    BlockState.elements { bs with skipCount := bs.skipCount + (upTo k bs).length } =
      past k bs := by
  rw [elements_skip]
  nth_rewrite 1 [← upTo_append_past k bs]
  exact drop_left

/-- What is left of a block behind a merge up to `k`. -/
lemma SideInv.behind (h : SideInv d s (some bs) head blocks) (k : OsmIdKey) :
    ∃ head', SideInv d s (leftOver bs (upTo k bs).length !(past k bs).isEmpty) head' blocks ∧
      toCome w (leftOver bs (upTo k bs).length !(past k bs).isEmpty) blocks =
        past k bs ++ inside w blocks.flatten := by
  have hd := h.decoded bs rfl
  by_cases hnil : past k bs = []
  · refine ⟨[], ⟨h.frames, by simpa using h.blocks_sorted, h.resolves, fun _ => rfl, ?_⟩, ?_⟩
    · simp [leftOver, hnil]
    · simp [leftOver, hnil, toCome]
  · have hsome : leftOver bs (upTo k bs).length (!(past k bs).isEmpty) =
        some { bs with skipCount := bs.skipCount + (upTo k bs).length } := by
      simp [leftOver, hnil]
    have hel := elements_leftOver k bs
    have hsub : ∀ e ∈ past k bs, e ∈ bs.elements := fun e he =>
      (dropWhile_sublist _).subset he
    rw [hsome]
    refine ⟨head, ⟨h.frames, h.sorted, h.resolves, fun h => (by cases h), ?_⟩, ?_⟩
    · rintro _ ⟨⟩
      refine ⟨?_, ?_, ?_, ?_, ?_, hd.first, hd.last, ?_⟩
      · rw [hel]
        exact hnil
      · exact fun e he => hd.sub e (hsub e (hel ▸ he))
      · rw [hel]
        exact hd.sorted.sublist (dropWhile_sublist _)
      · -- The block's last element lies past the boundary, since something does.
        obtain ⟨x, hx, hid⟩ := hd.last_mem
        obtain ⟨y, hy⟩ := exists_mem_of_ne_nil _ hnil
        have hky := lt_key_of_mem_past hd.sorted hy
        have hyx : y.key ≤ x.key := by
          rw [show x.key = osmIdKey (stateLast bs) by rw [← hid]; rfl]
          exact hd.le_last y (hsub y hy)
        have hmem : x ∈ upTo k bs ++ past k bs := (upTo_append_past k bs).symm ▸ hx
        refine ⟨x, ?_, hid⟩
        rw [hel]
        rcases mem_append.mp hmem with hx | hx
        · exact absurd (key_le_of_mem_upTo hx) (not_le_of_gt (lt_of_lt_of_le hky hyx))
        · exact hx
      · exact fun e he => hd.le_last e (hsub e (hel ▸ he))
      · by_contra hspent
        rw [Bool.not_eq_false] at hspent
        exact hnil (hel ▸ elements_of_spent hspent)
    · simp only [toCome, hel]

lemma checkClaimedMax_ok (h : Decoded bs es) (m : Int64) (side : String) :
    checkClaimedMax bs.index (!(past (osmIdKey m) bs).isEmpty) m side = .ok () := by
  by_cases hnil : past (osmIdKey m) bs = []
  · simp [checkClaimedMax, hnil]
  · obtain ⟨y, hy⟩ := exists_mem_of_ne_nil _ hnil
    have hlt := lt_key_of_mem_past h.sorted hy
    have hle := h.last y (h.sub y ((dropWhile_sublist _).subset hy))
    have hgt : ¬ osmIdKey bs.index.blobLast ≤ osmIdKey m := by
      rw [osmIdKey_blobLast]
      exact not_le_of_gt (lt_of_lt_of_le hlt hle)
    simp [checkClaimedMax, hnil, hgt]

lemma past_nil (h : Decoded bs es) : past (osmIdKey (stateLast bs)) bs = [] := by
  by_contra hne
  obtain ⟨y, hy⟩ := exists_mem_of_ne_nil _ hne
  have hlt := lt_key_of_mem_past h.sorted hy
  exact absurd (h.le_last y ((dropWhile_sublist _).subset hy)) (not_le_of_gt hlt)

/-- Everything a side offers behind a boundary within its block lies past it. -/
lemma SideInv.lt_behind (h : SideInv d s (some bs) head blocks) {k : OsmIdKey}
    (hk : k ≤ osmIdKey (stateLast bs)) : ∀ e ∈ past k bs ++ inside w blocks.flatten, k < e.key := by
  have hd := h.decoded bs rfl
  intro e he
  rcases mem_append.mp he with he | he
  · exact lt_key_of_mem_past hd.sorted he
  · obtain ⟨x, hx, hid⟩ := hd.last_mem
    have hxe := h.head_lt (hd.sub x hx) (mem_inside.mp he).1
    rw [show x.key = osmIdKey (stateLast bs) by rw [← hid]; rfl] at hxe
    exact lt_of_le_of_lt hk hxe

lemma mergeBoundary_le (os ns : BlockState) :
    osmIdKey (mergeBoundary os ns) ≤ osmIdKey (stateLast os) ∧
      osmIdKey (mergeBoundary os ns) ≤ osmIdKey (stateLast ns) := by
  unfold mergeBoundary
  split_ifs with h
  · exact ⟨le_refl _, h⟩
  · exact ⟨le_of_not_ge h, le_refl _⟩

/-- Merging a decoded pair compares everything up to the boundary and carries the
rest of at most one of the two blocks on. -/
theorem mergeDecodedPair_spec {so sn : Side} {os ns : BlockState} {ho hn : List Element}
    {bo bn : List (List Element)} (hold : SideInv d so (some os) ho bo)
    (hnew : SideInv d sn (some ns) hn bn) :
    ∃ acts oldLeft newLeft ho' hn', mergeDecodedPair os ns = .ok (acts, oldLeft, newLeft) ∧
      SideInv d so oldLeft ho' bo ∧ SideInv d sn newLeft hn' bn ∧
      expandAll acts ++ plain (toCome w oldLeft bo) (toCome w newLeft bn) =
        plain (toCome w (some os) bo) (toCome w (some ns) bn) ∧
      (oldLeft = none ∨ newLeft = none) := by
  obtain ⟨hko, hkn⟩ := mergeBoundary_le os ns
  have hdo := hold.decoded os rfl
  have hdn := hnew.decoded ns rfl
  obtain ⟨ho', hinvo, hcomeo⟩ := hold.behind (w := w) (osmIdKey (mergeBoundary os ns))
  obtain ⟨hn', hinvn, hcomen⟩ := hnew.behind (w := w) (osmIdKey (mergeBoundary os ns))
  refine ⟨(zipMerge Element.key (upTo (osmIdKey (mergeBoundary os ns)) os)
      (upTo (osmIdKey (mergeBoundary os ns)) ns)).map mergedAction, _, _, ho', hn', ?_, hinvo,
    hinvn, ?_, ?_⟩
  · simp only [mergeDecodedPair, elementMergePair_eq]
    have hco := checkClaimedMax_ok hdo (mergeBoundary os ns) "old"
    have hcn := checkClaimedMax_ok hdn (mergeBoundary os ns) "new"
    simp only [past] at hco hcn
    simp only [hco, hcn, bind, Except.bind]
    rfl
  · rw [hcomeo, hcomen]
    have hsplit := @plain_append (upTo (osmIdKey (mergeBoundary os ns)) os)
      (past (osmIdKey (mergeBoundary os ns)) os ++ inside w bo.flatten)
      (upTo (osmIdKey (mergeBoundary os ns)) ns)
      (past (osmIdKey (mergeBoundary os ns)) ns ++ inside w bn.flatten)
      (fun a ha b hb => lt_of_le_of_lt (key_le_of_mem_upTo ha) (hnew.lt_behind hkn b hb))
      (fun b hb a ha => lt_of_le_of_lt (key_le_of_mem_upTo hb) (hold.lt_behind hko a ha))
    rw [← append_assoc, ← append_assoc, upTo_append_past, upTo_append_past] at hsplit
    exact hsplit.symm
  · unfold mergeBoundary
    split_ifs
    · exact Or.inl (by simp [leftOver, past_nil hdo])
    · exact Or.inr (by simp [leftOver, past_nil hdn])

def phaseWeight (s : PhaseState) : Nat :=
  sideWeight s.old s.oldDecoded + sideWeight s.new s.newDecoded

/-- A turn that leaves the loop has emitted the merge of everything to come; one that goes round
again a part of it, nearer the loop's end. -/
def TurnSpec (d : Decoder) (w : Window) (l r : List Element) (weight : Nat) : Turn → Prop
  | .stop acts => expandAll acts = plain l r
  | .again acts s => ∃ ho hn bo bn, SideInv d s.old s.oldDecoded ho bo ∧
      SideInv d s.new s.newDecoded hn bn ∧
      expandAll acts ++ plain (toCome w s.oldDecoded bo) (toCome w s.newDecoded bn) = plain l r ∧
      phaseWeight s < weight

/-- A block consumed whole leaves the frames behind it. -/
lemma SideInv.drop (h : SideInv d s dec head blocks) : SideInv d s none [] blocks :=
  ⟨h.frames, by simpa using h.blocks_sorted, h.resolves, fun _ => rfl, fun _ h => by cases h⟩

variable {bo bn : List (List Element)} {eo en : List Element}

/-- A block that ends before the other side's block starts comes first, alone. -/
lemma SideInv.lt_of_before {so sn : Side} {os ns : BlockState} {ho hn : List Element}
    (hold : SideInv d so (some os) ho bo) (hnew : SideInv d sn (some ns) hn bn)
    (h : blobEntirelyBefore os.index ns.index = true) :
    ∀ a ∈ os.elements, ∀ b ∈ toCome w (some ns) bn, a.key < b.key := by
  intro a ha b hb
  have hdo := hold.decoded os rfl
  have hlast := hdo.last a (hdo.sub a ha)
  exact lt_of_le_of_lt hlast (lt_of_lt_of_le (of_decide_eq_true h) (hnew.firstKey_le hb))

lemma slowPath_spec {s : PhaseState} {ho hn : List Element} {bo bn : List (List Element)}
    (hold : SideInv d s.old s.oldDecoded ho bo) (hnew : SideInv d s.new s.newDecoded hn bn) :
    ∃ t, slowPath d w s = .ok t ∧
      TurnSpec d w (toCome w s.oldDecoded bo) (toCome w s.newDecoded bn) (phaseWeight s) t := by
  obtain ⟨od, so, ho', bo', hoeq, hoinv, hocome, howeight, hodone⟩ := refill_spec (w := w) hold
  obtain ⟨nd, sn, hn', bn', hneq, hninv, hncome, hnweight, hndone⟩ := refill_spec (w := w) hnew
  rw [← hocome, ← hncome]
  simp only [slowPath, hoeq, hneq, bind, Except.bind]
  cases od with
  | none =>
    cases nd with
    | none =>
      refine ⟨_, rfl, ?_⟩
      rw [TurnSpec, hodone rfl, hndone rfl]
      rfl
    | some ns =>
      refine ⟨_, rfl, [], [], bo', bn', hoinv.drop, hninv.drop, ?_, ?_⟩
      · rw [expand_emit_new, hodone rfl]
        exact (plain_new_first (by simp)).symm
      · simp only [phaseWeight, sideWeight, toList] at howeight hnweight ⊢
        simp only [length_cons, length_nil] at howeight hnweight ⊢
        omega
  | some os =>
    cases nd with
    | none =>
      refine ⟨_, rfl, [], [], bo', bn', hoinv.drop, hninv.drop, ?_, ?_⟩
      · rw [expand_emit_old, hndone rfl]
        exact (plain_old_first (by simp)).symm
      · simp only [phaseWeight, sideWeight, toList] at howeight hnweight ⊢
        simp only [length_cons, length_nil] at howeight hnweight ⊢
        omega
    | some ns =>
      simp only [phaseWeight, sideWeight, toList, length_cons, length_nil] at *
      by_cases hbefore : blobEntirelyBefore os.index ns.index = true
      · rw [if_pos hbefore]
        refine ⟨_, rfl, [], hn', bo', bn', hoinv.drop, hninv, ?_, ?_⟩
        · rw [expand_emit_old]
          exact (plain_old_first (hoinv.lt_of_before hninv hbefore)).symm
        · simp only [phaseWeight, sideWeight, toList, length_cons, length_nil]
          omega
      rw [if_neg hbefore]
      by_cases hafter : blobEntirelyBefore ns.index os.index = true
      · rw [if_pos hafter]
        refine ⟨_, rfl, ho', [], bo', bn', hoinv, hninv.drop, ?_, ?_⟩
        · rw [expand_emit_new]
          exact (plain_new_first (hninv.lt_of_before hoinv hafter)).symm
        · simp only [phaseWeight, sideWeight, toList, length_cons, length_nil]
          omega
      rw [if_neg hafter]
      obtain ⟨acts, oldLeft, newLeft, ho'', hn'', hmerge, hinvo, hinvn, hplain, hone⟩ :=
        mergeDecodedPair_spec (w := w) hoinv hninv
      rw [hmerge]
      refine ⟨_, rfl, ho'', hn'', bo', bn', hinvo, hinvn, hplain, ?_⟩
      simp only [phaseWeight, sideWeight]
      have hlen : ∀ x : Option BlockState, x.toList.length ≤ 1 := by
        intro x
        cases x <;> simp
      have ho1 := hlen oldLeft
      have hn1 := hlen newLeft
      rcases hone with h | h
      · simp only [h, toList, length_nil] at ho1 ⊢
        simp only [toList] at hn1
        omega
      · simp only [h, toList, length_nil] at hn1 ⊢
        simp only [toList] at ho1
        omega

lemma nextBlob_nil (h : s.remaining = []) : s.nextBlob = (none, s) := by
  obtain ⟨held, pending⟩ := s
  cases held with
  | some f => simp [Side.remaining] at h
  | none =>
    obtain rfl : pending = [] := by simpa [Side.remaining] using h
    rfl

lemma nextBlob_cons {rest : List Frame} (h : s.remaining = f :: rest) :
    ∃ s', s.nextBlob = (some f, s') ∧ s'.remaining = rest ∧ (s'.hold f).remaining = f :: rest := by
  obtain ⟨held, pending⟩ := s
  cases held with
  | some g =>
    simp only [Side.remaining, toList_some, singleton_append, cons.injEq] at h
    obtain ⟨rfl, rfl⟩ := h
    exact ⟨⟨none, pending⟩, rfl, rfl, rfl⟩
  | none =>
    obtain rfl : pending = f :: rest := by simpa [Side.remaining] using h
    exact ⟨⟨none, rest⟩, rfl, rfl, rfl⟩

lemma decompressBlobRaw_ok {body raw : Bytes} (h : d.decompressBlobRaw body = .ok raw) :
    ∃ p size, d.envelope body = .ok (some p, size) ∧ d.decompress p = .ok raw := by
  unfold Decoder.decompressBlobRaw at h
  cases henv : d.envelope body with
  | error e => simp [henv, bind, Except.bind] at h
  | ok v =>
    obtain ⟨payload, size⟩ := v
    cases payload with
    | none => simp [henv, bind, Except.bind] at h
    | some p =>
      cases hd : d.decompress p with
      | error e => simp [henv, hd, bind, Except.bind] at h
      | ok r =>
        cases hc : checkRawSize size r.length with
        | error e => simp [henv, hd, hc, bind, Except.bind] at h
        | ok u =>
          obtain rfl : r = raw := by simpa [henv, hd, hc, bind, Except.bind] using h
          exact ⟨p, size, rfl, hd⟩

/-- A byte-equal pair holds the same elements, all of them inside the window. -/
lemma blobsByteEqual_spec {op np : Frame} (ho : Exact d op eo) (hn : Exact d np en) :
    ∃ b, blobsByteEqual d w op np = .ok b ∧ (b = true → eo = en ∧ inside w eo = eo) := by
  obtain ⟨rawo, hrawo, hparseo⟩ := ho.decodes
  obtain ⟨rawn, hrawn, hparsen⟩ := hn.decodes
  obtain ⟨po, sizeo, henvo, hdo⟩ := decompressBlobRaw_ok hrawo
  obtain ⟨pn, sizen, henvn, hdn⟩ := decompressBlobRaw_ok hrawn
  unfold blobsByteEqual
  split_ifs with hclaims hcross
  · exact ⟨false, rfl, fun h => by cases h⟩
  · exact ⟨false, rfl, fun h => by cases h⟩
  · simp only [Decoder.rawBlobPayload, henvo, henvn, bind, Except.bind]
    refine ⟨decide (po = pn), rfl, fun heq => ⟨?_, ho.inside_eq hcross⟩⟩
    obtain rfl := of_decide_eq_true heq
    obtain rfl := Except.ok.inj (hdo.symm.trans hdn)
    exact Except.ok.inj (hparseo.symm.trans hparsen)

lemma skipsPair_spec (skip : Bool) {op np : Frame} (ho : Exact d op eo) (hn : Exact d np en) :
    ∃ b, skipsPair d w skip op np = .ok b ∧ (b = true → eo = en ∧ inside w eo = eo) := by
  cases skip with
  | true => exact blobsByteEqual_spec ho hn
  | false => exact ⟨false, rfl, fun h => by cases h⟩

/-- A frame just pulled and decoded, and the side behind it. -/
lemma sideInv_pulled {s' : Side} {rest : List Frame}
    (hframes : List.Forall₂ (Exact d) (f :: rest) (es :: blocks))
    (hsorted : (es :: blocks).flatten.Pairwise fun a b => a.key < b.key)
    (hres : ∀ e ∈ (es :: blocks).flatten, e.Resolves) (hs' : s'.remaining = rest) :
    ∃ bs head, decode d w f = .ok bs ∧ bs.elements = inside w es ∧
      SideInv d s' (unspent bs) head blocks ∧
      toCome w (unspent bs) blocks = inside w (es :: blocks).flatten := by
  obtain ⟨hf, hrest⟩ := forall₂_cons.mp hframes
  rw [flatten_cons] at hsorted hres ⊢
  obtain ⟨hes, hblocks, _⟩ := pairwise_append.mp hsorted
  obtain ⟨bs, hdec, hel, hspent, hfull⟩ := decode_spec (w := w) hf hes
  have hres' : ∀ e ∈ blocks.flatten, e.Resolves := fun e he => hres e (mem_append_right _ he)
  by_cases hnil : inside w es = []
  · have hun : unspent bs = none := by simp [MergeJoin.unspent, hspent hnil]
    refine ⟨bs, [], hdec, hel, ?_, ?_⟩
    · rw [hun]
      exact ⟨hs' ▸ hrest, by simpa using hblocks, hres', fun _ => rfl, fun _ h => by cases h⟩
    · rw [hun, inside_append, hnil]
      rfl
  · have hd := hfull hnil
    have hun : unspent bs = some bs := by simp [MergeJoin.unspent, hd.unspent]
    refine ⟨bs, es, hdec, hel, ?_, ?_⟩
    · rw [hun]
      refine ⟨hs' ▸ hrest, hsorted, hres', fun h => (by cases h), ?_⟩
      rintro _ ⟨⟩
      exact hd
    · rw [hun, inside_append, toCome, hel]

/-- A side with the frame it just gave out still to yield, or without it. -/
lemma sideInv_of_remaining (hs : s.remaining = frames)
    (hframes : List.Forall₂ (Exact d) frames blocks)
    (hsorted : blocks.flatten.Pairwise fun a b => a.key < b.key)
    (hres : ∀ e ∈ blocks.flatten, e.Resolves) : SideInv d s none [] blocks :=
  ⟨hs ▸ hframes, by simpa using hsorted, hres, fun _ => rfl, fun _ h => by cases h⟩

/-- Whatever a side offers from a frame on lies at or past the frame's first key. -/
lemma firstKey_le_flatten {f : Frame} {es : List Element} {blocks : List (List Element)}
    (hf : Exact d f es) (hsorted : (es :: blocks).flatten.Pairwise fun a b => a.key < b.key) :
    ∀ e ∈ (es :: blocks).flatten, f.index.firstKey ≤ e.key := by
  intro e he
  rw [flatten_cons] at he hsorted
  rcases mem_append.mp he with he | he
  · exact hf.firstKey_le he
  · obtain ⟨x, hx⟩ := exists_mem_of_ne_nil _ hf.nonempty
    exact le_of_lt (lt_of_le_of_lt (hf.firstKey_le hx) ((pairwise_append.mp hsorted).2.2 x hx e he))

lemma lt_of_frameBefore {fo fn : Frame} (ho : Exact d fo eo) (hn : Exact d fn en)
    (hsorted : (en :: bn).flatten.Pairwise fun a b => a.key < b.key)
    (h : blobEntirelyBefore fo.index fn.index = true) :
    ∀ a ∈ inside w eo, ∀ b ∈ inside w (en :: bn).flatten, a.key < b.key := by
  intro a ha b hb
  exact lt_of_le_of_lt (ho.le_lastKey (mem_inside.mp ha).1)
    (lt_of_lt_of_le (of_decide_eq_true h) (firstKey_le_flatten hn hsorted b (mem_inside.mp hb).1))

lemma length_unspent (bs : BlockState) : (unspent bs).toList.length ≤ 1 := by
  unfold unspent
  split_ifs <;> simp

lemma TurnSpec.mono {r : List Element} {m n : Nat} {t : Turn} (h : TurnSpec d w l r m t)
    (hmn : m ≤ n) : TurnSpec d w l r n t := by
  cases t with
  | stop acts => exact h
  | again acts s =>
    obtain ⟨ho, hn, bo, bn, h1, h2, h3, h4⟩ := h
    exact ⟨ho, hn, bo, bn, h1, h2, h3, by omega⟩

/-- A turn that meets a pair of fresh blobs. -/
lemma freshPair_spec {skip : Bool} {old new so sn : Side} {op np : Frame} {fo fn : List Frame}
    (hold : SideInv d old none [] bo) (hnew : SideInv d new none [] bn)
    (hor : old.remaining = op :: fo) (hnr : new.remaining = np :: fn) (hso : so.remaining = fo)
    (hsn : sn.remaining = fn) (hholdo : (so.hold op).remaining = op :: fo)
    (hholdn : (sn.hold np).remaining = np :: fn) (hno : old.nextBlob = (some op, so))
    (hnn : new.nextBlob = (some np, sn)) : ∃ t, turn d w skip ⟨old, new, none, none⟩ = .ok t ∧
      TurnSpec d w (toCome w none bo) (toCome w none bn)
        (phaseWeight ⟨old, new, none, none⟩) t := by
  have hframeso := hold.frames
  have hframesn := hnew.frames
  rw [hor] at hframeso
  rw [hnr] at hframesn
  obtain ⟨eo, bo, heo, hfo, rfl⟩ := forall₂_cons_left_iff.mp hframeso
  obtain ⟨en, bn, hen, hfn, rfl⟩ := forall₂_cons_left_iff.mp hframesn
  obtain ⟨os, ho, hdeco, helo, hinvo, hcomeo⟩ := sideInv_pulled (w := w) hframeso
    hold.blocks_sorted hold.resolves hso
  obtain ⟨ns, hn, hdecn, heln, hinvn, hcomen⟩ := sideInv_pulled (w := w) hframesn
    hnew.blocks_sorted hnew.resolves hsn
  have hsorto := hold.blocks_sorted
  have hsortn := hnew.blocks_sorted
  simp only [turn, hno, hnn]
  by_cases hbefore : blobEntirelyBefore op.index np.index = true
  · simp only [hbefore, if_true, hdeco, bind, Except.bind]
    refine ⟨_, rfl, [], [], bo, en :: bn, hinvo.drop,
      sideInv_of_remaining hholdn hframesn hsortn hnew.resolves, ?_, ?_⟩
    · have hfirst := @plain_old_first (inside w eo) (inside w bo.flatten)
        (inside w (en :: bn).flatten) (lt_of_frameBefore heo hen hsortn hbefore)
      rw [expand_emit_old, helo]
      simpa [toCome, inside_append] using hfirst.symm
    · simp [phaseWeight, sideWeight, hor, hnr, hso, hholdn]
  by_cases hafter : blobEntirelyBefore np.index op.index = true
  · simp only [hbefore, hafter, if_true, hdecn, bind, Except.bind]
    refine ⟨_, rfl, [], [], eo :: bo, bn,
      sideInv_of_remaining hholdo hframeso hsorto hold.resolves, hinvn.drop, ?_, ?_⟩
    · have hfirst := @plain_new_first (inside w (eo :: bo).flatten) (inside w en)
        (inside w bn.flatten) (lt_of_frameBefore hen heo hsorto hafter)
      rw [expand_emit_new, heln]
      simpa [toCome, inside_append] using hfirst.symm
    · simp [phaseWeight, sideWeight, hor, hnr, hsn, hholdo]
  obtain ⟨b, hb, hsame⟩ := skipsPair_spec (w := w) skip heo hen
  simp only [hbefore, hafter, hb, bind, Except.bind]
  cases b with
  | true =>
    obtain ⟨rfl, hins⟩ := hsame rfl
    refine ⟨_, rfl, [], [], bo, bn, hinvo.drop, hinvn.drop, ?_, ?_⟩
    · rw [flatten_cons] at hsorto hsortn
      have hcross := (pairwise_append.mp hsorto).2.2
      have hcrossn := (pairwise_append.mp hsortn).2.2
      have hsplit := @plain_append eo (inside w bo.flatten) eo (inside w bn.flatten)
        (fun x hx y hy => hcrossn x hx y (mem_inside.mp hy).1)
        (fun y hy x hx => hcross y hy x (mem_inside.mp hx).1)
      have hres : ∀ e ∈ eo, e.Resolves := fun e he =>
        hold.resolves e (by rw [flatten_cons]; exact mem_append_left _ he)
      rw [plain_self hres] at hsplit
      simp only [toCome, nil_append, flatten_cons, inside_append, hins]
      rw [hsplit]
      simp [expandAll, expand, heo.count]
    · simp only [phaseWeight, sideWeight, hor, hnr, hso, hsn, length_cons]
      omega
  | false =>
    obtain ⟨t, ht, hspec⟩ := @slowPath_spec d w ⟨so, sn, unspent os, unspent ns⟩ ho hn bo bn
      hinvo hinvn
    refine ⟨t, ?_, ?_⟩
    · simpa [hdeco, hdecn] using ht
    · have hweight : phaseWeight ⟨so, sn, unspent os, unspent ns⟩ ≤
          phaseWeight ⟨old, new, none, none⟩ := by
        have ho1 := length_unspent os
        have hn1 := length_unspent ns
        simp only [phaseWeight, sideWeight, hor, hnr, hso, hsn, length_cons]
        omega
      have hcome := hspec.mono hweight
      rw [hcomeo, hcomen] at hcome
      exact hcome

lemma turn_spec (skip : Bool) {s : PhaseState} {ho hn : List Element}
    (hold : SideInv d s.old s.oldDecoded ho bo) (hnew : SideInv d s.new s.newDecoded hn bn) :
    ∃ t, turn d w skip s = .ok t ∧
      TurnSpec d w (toCome w s.oldDecoded bo) (toCome w s.newDecoded bn) (phaseWeight s) t := by
  obtain ⟨old, new, od, nd⟩ := s
  cases od with
  | some os => exact slowPath_spec hold hnew
  | none =>
    cases nd with
    | some ns => exact slowPath_spec hold hnew
    | none =>
      obtain rfl := hold.fresh rfl
      obtain rfl := hnew.fresh rfl
      cases hor : old.remaining with
      | nil =>
        have hbo : bo = [] := by simpa [hor] using hold.frames
        subst hbo
        cases hnr : new.remaining with
        | nil =>
          have hbn : bn = [] := by simpa [hnr] using hnew.frames
          subst hbn
          exact ⟨.stop [], by simp [turn, nextBlob_nil hor, nextBlob_nil hnr], rfl⟩
        | cons np fn =>
          obtain ⟨sn, hnn, hsn, _⟩ := nextBlob_cons hnr
          have hframes := hnew.frames
          rw [hnr] at hframes
          obtain ⟨en, bn, hen, hfn, rfl⟩ := forall₂_cons_left_iff.mp hframes
          obtain ⟨ns, _, hdec, hel, hinv, _⟩ := sideInv_pulled (w := w) hframes
            hnew.blocks_sorted hnew.resolves hsn
          obtain ⟨acts, hdrain, hexp⟩ := drainRemaining_spec (w := w) hfn hinv.blocks_sorted false
          refine ⟨.stop (emitBlock ns false ++ acts), ?_, ?_⟩
          · simp [turn, nextBlob_nil hor, hnn, hdec, hsn, hdrain, bind, Except.bind]
          · rw [TurnSpec, expandAll_append, expand_emit_new, hexp, hel]
            simp [toCome, inside, plain_nil_left]
      | cons op fo =>
        obtain ⟨so, hno, hso, hholdo⟩ := nextBlob_cons hor
        cases hnr : new.remaining with
        | cons np fn =>
          obtain ⟨sn, hnn, hsn, hholdn⟩ := nextBlob_cons hnr
          exact freshPair_spec hold hnew hor hnr hso hsn hholdo hholdn hno hnn
        | nil =>
          have hbn : bn = [] := by simpa [hnr] using hnew.frames
          subst hbn
          have hframes := hold.frames
          rw [hor] at hframes
          obtain ⟨eo, bo, heo, hfo, rfl⟩ := forall₂_cons_left_iff.mp hframes
          obtain ⟨os, _, hdec, hel, hinv, _⟩ := sideInv_pulled (w := w) hframes
            hold.blocks_sorted hold.resolves hso
          obtain ⟨acts, hdrain, hexp⟩ := drainRemaining_spec (w := w) hfo hinv.blocks_sorted true
          refine ⟨.stop (emitBlock os true ++ acts), ?_, ?_⟩
          · simp [turn, nextBlob_nil hnr, hno, hdec, hso, hdrain, bind, Except.bind]
          · rw [TurnSpec, expandAll_append, expand_emit_old, hexp, hel]
            simp [toCome, inside, plain_nil_right]

/-- Every run of the phase loop ends, and its actions are the element merge of
what the two sides had to offer. -/
theorem runPhase_spec (skip : Bool) {s : PhaseState} {ho hn : List Element}
    {bo bn : List (List Element)} (hold : SideInv d s.old s.oldDecoded ho bo)
    (hnew : SideInv d s.new s.newDecoded hn bn) {fuel : Nat} (hfuel : phaseWeight s < fuel) :
    ∃ acts, runPhase d w skip fuel s = .ok acts ∧
      expandAll acts = plain (toCome w s.oldDecoded bo) (toCome w s.newDecoded bn) := by
  induction fuel generalizing s ho hn bo bn with
  | zero => omega
  | succ fuel ih =>
    obtain ⟨t, ht, hspec⟩ := turn_spec (w := w) skip hold hnew
    cases t with
    | stop acts => exact ⟨acts, by simp [runPhase, ht, bind, Except.bind], hspec⟩
    | again acts s' =>
      obtain ⟨ho', hn', bo', bn', hold', hnew', hplain, hless⟩ := hspec
      obtain ⟨tail, hrun, hexp⟩ := ih hold' hnew' (by omega)
      refine ⟨acts ++ tail, ?_, ?_⟩
      · simp [runPhase, ht, hrun, bind, Except.bind]
      · rw [expandAll_append, hexp, hplain]

end BlockPair
