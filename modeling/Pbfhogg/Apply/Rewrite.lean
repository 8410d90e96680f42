import Pbfhogg.Apply.PlainMerge
import Pbfhogg.BlobMeta

/-!
# What becomes of one blob

The scanner's routing, the workers' precise check and the rewrite of
`apply_changes/{scanner,classify,rewrite_block,streaming}.rs`, for an indexed base with
`--locations-on-ways` off. A frame is the blob it holds, and a rewrite gives its elements.
-/

namespace ApplyRewrite

open OsmId OscSorted OscLookup BlobMeta PlainMerge OrderedMerge Fallible List Option

variable {C : Type}

/-- An indexed blob: its claim, where its frame lies in the file, its elements. -/
structure Blob (C : Type) where
  index : BlobIndex
  frameStart : Nat
  frameLen : Nat
  elements : List (BaseElement C)

def Blob.ids (b : Blob C) : List Int64 := b.elements.map BaseElement.id

inductive Route where
  | splice
  | owned
  deriving DecidableEq

inductive DrainItem (C : Type) where
  | copyRange (frameStart frameLen : Nat) (kind : ElementKind) (idRange : Int64 × Int64)
      (observedFirst : Option Int64)
  | ownedBytes (frame : Blob C) (kind : ElementKind) (idRange : Int64 × Int64)
      (observedFirst : Option Int64)
  | rewritten (elements : List (Written C)) (kind : ElementKind) (idRange : Int64 × Int64)
      (observedFirst : Int64)

inductive DiffHit where
  | none
  | deleted
  | upserted (i : Nat)
  deriving DecidableEq

structure KindSeeks where
  upserts : ElementKind → Seek
  deleted : ElementKind → Seek

def KindSeeks.default : KindSeeks := ⟨fun _ => none, fun _ => none⟩

def KindSeeks.find (s : KindSeeks) (diff : SortedDiff) (kind : ElementKind) (id : Int64) :
    DiffHit × KindSeeks :=
  let t := diff.kind kind
  let d := (s.deleted kind).find t.deleted id
  let deleted := Function.update s.deleted kind d.2
  match d.1 with
  | some _ => (.deleted, ⟨s.upserts, deleted⟩)
  | none =>
    let u := (s.upserts kind).find t.ids id
    let upserts := Function.update s.upserts kind u.2
    match u.1 with
    | some i => (.upserted i, ⟨upserts, deleted⟩)
    | none => (.none, ⟨upserts, deleted⟩)

def walkContext : String :=
  "apply-changes: refusing to write an unsorted PBF under a Sort.Type_then_ID header"

def blobWalk (claim : BlobIndex) : ClaimWalk := .new claim walkContext

/-- Does the diff touch an element of the block? The walk stops at the first it does. -/
def blockOverlapsDiff (diff : SortedDiff) :
    List (BaseElement C) → KindSeeks → ClaimWalk → Except PbfError (Bool × ClaimWalk)
  | [], _, walk => .ok (false, walk)
  | e :: es, seeks, walk => do
    let walk ← walk.observe e.id
    match seeks.find diff e.kind e.id with
    | (.none, seeks) => blockOverlapsDiff diff es seeks walk
    | _ => .ok (true, walk)

structure RewriteState (C : Type) where
  walk : ClaimWalk
  seeks : KindSeeks
  /-- The inline upserts the cursor has not passed. -/
  inline : List (Int64 × Bytes)
  output : List (Written C)

variable (diff : SortedDiff) (kind : ElementKind)

/-- The record at an index into the upserts of a kind. -/
def oscAt (i : Nat) : List (Written C) :=
  ((entries (diff.kind kind))[i]?.map (oscOf kind)).toList

def writeHit (e : BaseElement C) : DiffHit → List (Written C)
  | .deleted => []
  | .upserted i => oscAt diff e.kind i
  | .none => [.base e]

/-- The cursor steps over the upsert that modifies this element. -/
def skipModified (id : Int64) : List (Int64 × Bytes) → List (Int64 × Bytes)
  | [] => []
  | x :: xs => if x.1 = id then xs else x :: xs

def rewriteElement (s : RewriteState C)
    (e : BaseElement C) : Except PbfError (RewriteState C) := do
  let walk ← s.walk.observe e.id
  let before := s.inline.takeWhile fun x => decide (OsmLt x.1 e.id)
  let rest := s.inline.dropWhile fun x => decide (OsmLt x.1 e.id)
  let found := s.seeks.find diff e.kind e.id
  .ok ⟨walk, found.2, skipModified e.id rest,
    s.output ++ before.map (oscOf kind) ++ writeHit diff e found.1⟩

def rewriteBlockParallel (block : List (BaseElement C))
    (inline : List (Int64 × Bytes)) (kind : ElementKind) (claim : BlobIndex) :
    Except PbfError (List (Written C)) := do
  let s ← block.foldlM (rewriteElement diff kind) ⟨blobWalk claim, .default, inline, []⟩
  let _ ← s.walk.finish
  .ok (s.output ++ s.inline.map (oscOf kind))

def passThroughIndexed (route : Route) (b : Blob C) (observedFirst : Option Int64) : DrainItem C :=
  match route with
  | .splice =>
    .copyRange b.frameStart b.frameLen b.index.kind (b.index.minId, b.index.maxId) observedFirst
  | .owned => .ownedBytes b b.index.kind (b.index.minId, b.index.maxId) observedFirst

/-- A miss visited every element, so its walk is ended. -/
def finishMiss (overlaps : Bool) (walk : ClaimWalk) : Except PbfError Unit :=
  if overlaps then .ok () else do
    let _ ← walk.finish
    .ok ()

def firstElement (walk : ClaimWalk) : Except PbfError Int64 :=
  match walk.firstId with
  | some first => .ok first
  | none => .error (.internal "streaming: a decoded candidate without an element")

def handleCandidate (route : Route) (b : Blob C) :
    Except PbfError (DrainItem C) := do
  refuseForeignKind (b.elements.map BaseElement.kind) b.index.kind
  let checked ← blockOverlapsDiff diff b.elements .default (blobWalk b.index)
  finishMiss checked.1 checked.2
  let first ← firstElement checked.2
  let inline := slice (diff.kind b.index.kind)
    (upsertRange diff b.index.kind first (blobOsmLastKey b.index.minId b.index.maxId))
  if checked.1 = false ∧ inline = [] then .ok (passThroughIndexed route b (some first))
  else do
    let output ← rewriteBlockParallel diff b.elements inline b.index.kind b.index
    .ok (.rewritten output b.index.kind (b.index.minId, b.index.maxId) first)

/-- The item of a blob: untouched by range, it leaves as it is, undecoded. -/
def blobItem (route : Route) (b : Blob C) : Except PbfError (DrainItem C) :=
  if rangeOverlaps diff b.index.kind b.index.minId b.index.maxId then handleCandidate diff route b
  else .ok (passThroughIndexed route b none)

/-- What the diff says about an id. -/
def hitOf (t : KindTable) (id : Int64) : DiffHit :=
  if id ∈ t.deleted then .deleted
  else if id ∈ t.ids then .upserted (place t.ids id)
  else .none

/-- No cursor of the kind has passed the id. -/
def SeeksBehind (s : KindSeeks) (diff : SortedDiff) (kind : ElementKind) (id : Int64) : Prop :=
  Behind (s.upserts kind) (diff.kind kind).ids id ∧
    Behind (s.deleted kind) (diff.kind kind).deleted id

variable {diff : SortedDiff}

lemma seeksBehind_default (id : Int64) : SeeksBehind .default diff kind id := by
  constructor <;> intro p hp <;> cases hp

variable {kind : ElementKind} {e : BaseElement C} {b : Blob C}

lemma SeeksBehind.mono {s : KindSeeks} {a b : Int64} (h : SeeksBehind s diff kind a)
    (hab : OsmLe a b) : SeeksBehind s diff kind b :=
  ⟨h.1.mono hab, h.2.mono hab⟩

lemma KindSeeks.find_spec (hdiff : DiffSorted diff) {s : KindSeeks} {id : Int64}
    (h : SeeksBehind s diff kind id) : (s.find diff kind id).1 = hitOf (diff.kind kind) id ∧
      SeeksBehind (s.find diff kind id).2 diff kind id := by
  have hstays : ∀ ids : List Int64, Behind (some (place ids id)) ids id := by
    intro ids p hp
    cases hp
    exact le_refl _
  have hdel := Seek.find_eq (hdiff kind).deleted h.2
  have hup := Seek.find_eq (hdiff kind).ids h.1
  simp only [KindSeeks.find, hitOf, hdel, hup]
  by_cases hd : id ∈ (diff.kind kind).deleted
  · simp only [hd, if_true]
    refine ⟨trivial, h.1, ?_⟩
    simpa using hstays _
  · by_cases hu : id ∈ (diff.kind kind).ids
    · simp only [hd, hu, if_true, if_false]
      refine ⟨trivial, ?_, ?_⟩ <;> simpa using hstays _
    · simp only [hd, hu, if_false]
      refine ⟨trivial, ?_, ?_⟩ <;> simpa using hstays _

lemma hitOf_eq_none {t : KindTable} {id : Int64} :
    hitOf t id = .none ↔ id ∉ t.deleted ∧ id ∉ t.ids := by
  unfold hitOf
  by_cases hd : id ∈ t.deleted
  · simp [hd]
  · by_cases hu : id ∈ t.ids
    · simp [hd, hu]
    · simp [hd, hu]

/-- A block in order, as the walk of a blob that keeps its claim meets it. -/
structure InOrder (kind : ElementKind) (es : List (BaseElement C)) : Prop where
  kind : ∀ e ∈ es, e.kind = kind
  sorted : es.Pairwise fun a b => OsmLe a.id b.id

lemma InOrder.tail {kind : ElementKind} {e : BaseElement C} {es : List (BaseElement C)}
    (h : InOrder kind (e :: es)) : InOrder kind es :=
  ⟨fun x hx => h.kind x (mem_cons_of_mem _ hx), (pairwise_cons.mp h.sorted).2⟩

lemma InOrder.head_le {es : List (BaseElement C)} (h : InOrder kind (e :: es)) :
    ∀ x ∈ es, OsmLe e.id x.id :=
  (pairwise_cons.mp h.sorted).1

/-- What the precise check finds: whether the diff touches the block, and a walk
that has seen the first elements, all of them on a miss. -/
lemma blockOverlapsDiff_spec (hdiff : DiffSorted diff) {kind : ElementKind} {claim : BlobIndex}
    {seen : List Int64} {es : List (BaseElement C)} {seeks : KindSeeks}
    (hes : InOrder kind es) (hseen : ∀ x ∈ seen, ∀ e ∈ es, OsmLe x e.id)
    (hseeks : ∀ e ∈ es, SeeksBehind seeks diff kind e.id) :
    (∃ walked, walked ≠ [] ∧ walked <+: es.map BaseElement.id ∧
      blockOverlapsDiff diff es seeks (.after claim walkContext seen) =
        .ok (true, .after claim walkContext (seen ++ walked))) ∨
    (blockOverlapsDiff diff es seeks (.after claim walkContext seen) =
        .ok (false, .after claim walkContext (seen ++ es.map BaseElement.id)) ∧
      ∀ e ∈ es, e.id ∉ (diff.kind kind).deleted ∧ e.id ∉ (diff.kind kind).ids) := by
  induction es generalizing seen seeks with
  | nil =>
    right
    simp [blockOverlapsDiff]
  | cons e es ih =>
    have hkind := hes.kind e mem_cons_self
    have hobs : (ClaimWalk.after claim walkContext seen).observe e.id =
        .ok (.after claim walkContext (seen ++ [e.id])) :=
      ClaimWalk.observe_after fun x hx => hseen x hx e mem_cons_self
    obtain ⟨hhit, hbehind⟩ := KindSeeks.find_spec hdiff (hseeks e mem_cons_self)
    rw [← hkind] at hhit hbehind
    by_cases hnone : hitOf (diff.kind e.kind) e.id = .none
    · have hfind : seeks.find diff e.kind e.id = (.none, (seeks.find diff e.kind e.id).2) :=
        Prod.ext (hhit.trans hnone) rfl
      have hunfold : blockOverlapsDiff diff (e :: es) seeks (.after claim walkContext seen) =
          blockOverlapsDiff diff es (seeks.find diff e.kind e.id).2
            (.after claim walkContext (seen ++ [e.id])) := by
        rw [blockOverlapsDiff, hobs, ok_bind, hfind]
      have hseen' : ∀ x ∈ seen ++ [e.id], ∀ f ∈ es, OsmLe x f.id := by
        intro x hx f hf
        rcases mem_append.mp hx with hx | hx
        · exact hseen x hx f (mem_cons_of_mem _ hf)
        · rw [mem_singleton.mp hx]
          exact hes.head_le f hf
      have hseeks' : ∀ f ∈ es, SeeksBehind (seeks.find diff e.kind e.id).2 diff kind f.id := by
        intro f hf
        rw [hkind] at hbehind ⊢
        exact hbehind.mono (hes.head_le f hf)
      rw [hunfold]
      rcases ih hes.tail hseen' hseeks' with ⟨walked, hne, hpre, hrun⟩ | ⟨hrun, hclean⟩
      · left
        refine ⟨e.id :: walked, by simp, ?_, ?_⟩
        · rw [map_cons]
          exact (prefix_cons_inj _).mpr hpre
        · simpa using hrun
      · right
        constructor
        · simpa using hrun
        · intro f hf
          rcases mem_cons.mp hf with rfl | hf
          · rw [← hkind]
            exact hitOf_eq_none.mp hnone
          · exact hclean f hf
    · left
      refine ⟨[e.id], by simp, by simp, ?_⟩
      rw [blockOverlapsDiff, hobs, ok_bind]
      rw [← hhit] at hnone
      cases hfound : seeks.find diff e.kind e.id with
      | mk hit rest =>
        rw [hfound] at hnone
        cases hit with
        | none => exact absurd rfl hnone
        | deleted => rfl
        | upserted i => rfl

lemma writeHit_eq (hdiff : DiffSorted diff) (e : BaseElement C) :
    writeHit diff e (hitOf (diff.kind e.kind) e.id) = (survivor (diff.kind e.kind) e).toList := by
  unfold hitOf survivor
  by_cases hd : e.id ∈ (diff.kind e.kind).deleted
  · simp [hd, writeHit]
  · by_cases hu : e.id ∈ (diff.kind e.kind).ids
    · obtain ⟨record, hget, hlook⟩ := entries_place (hdiff e.kind) hu
      simp [hd, hu, writeHit, oscAt, hget, hlook, oscOf]
    · have hsurv := survivor_untouched hd hu
      simp only [survivor, hd, if_false] at hsurv
      simp [hd, hu, writeHit, hsurv]

lemma skipModified_eq {id : Int64} {rest : List (Int64 × Bytes)}
    (hsorted : rest.Pairwise fun a b => osmIdKey a.1 < osmIdKey b.1) :
    skipModified id rest = rest.filter (fun x => decide (x.1 ≠ id)) ∨
      ∃ x ∈ rest, osmIdKey x.1 < osmIdKey id := by
  cases rest with
  | nil => exact .inl rfl
  | cons x xs =>
    rw [pairwise_cons] at hsorted
    by_cases hx : x.1 = id
    · left
      have hkeep : (xs.filter fun y => decide (y.1 ≠ id)) = xs := by
        apply filter_eq_self.mpr
        intro y hy
        have hne : y.1 ≠ id := by
          rintro rfl
          exact absurd (hsorted.1 y hy) (by simp [hx])
        simpa using hne
      simp only [skipModified, hx, if_true]
      rw [filter_cons_of_neg (by simp [hx]), hkeep]
    · by_cases hlt : osmIdKey x.1 < osmIdKey id
      · exact .inr ⟨x, mem_cons_self, hlt⟩
      · left
        have hgt : osmIdKey id < osmIdKey x.1 :=
          lt_of_le_of_ne (not_lt.mp hlt) (fun heq => hx (osmIdKey_inj.mp heq.symm))
        have hkeep : ((x :: xs).filter fun y => decide (y.1 ≠ id)) = x :: xs := by
          apply filter_eq_self.mpr
          intro y hy
          have hne : y.1 ≠ id := by
            rintro rfl
            rcases mem_cons.mp hy with rfl | hy
            · exact hx rfl
            · exact absurd (hgt.trans (hsorted.1 y hy)) (lt_irrefl _)
          simpa using hne
        rw [hkeep, skipModified, if_neg hx]

/-- One element: the creates before it go out, the upsert of its own id is
passed, and what the diff makes of it follows. -/
lemma rewriteElement_spec (hdiff : DiffSorted diff) {claim : BlobIndex} {seen : List Int64}
    {s : RewriteState C} (hkind : e.kind = kind) (hseen : ∀ x ∈ seen, OsmLe x e.id)
    (hseeks : SeeksBehind s.seeks diff kind e.id)
    (hinline : s.inline.Pairwise fun a b => osmIdKey a.1 < osmIdKey b.1)
    (hwalk : s.walk = .after claim walkContext seen) : ∃ t, rewriteElement diff kind s e = .ok t ∧
      t.walk = .after claim walkContext (seen ++ [e.id]) ∧ SeeksBehind t.seeks diff kind e.id ∧
      t.inline = s.inline.filter (fun x => decide (osmIdKey e.id < osmIdKey x.1)) ∧
      t.output = s.output ++
        (s.inline.filter fun x => decide (osmIdKey x.1 < osmIdKey e.id)).map (oscOf kind) ++
        (survivor (diff.kind kind) e).toList := by
  have hcut := pairwise_lt_cut hinline (osmIdKey e.id)
  have hobs : s.walk.observe e.id = .ok (.after claim walkContext (seen ++ [e.id])) :=
    hwalk ▸ ClaimWalk.observe_after hseen
  obtain ⟨hhit, hbehind⟩ := KindSeeks.find_spec hdiff hseeks
  have hbefore : (s.inline.takeWhile fun x => decide (OsmLt x.1 e.id)) =
      s.inline.filter fun x => decide (osmIdKey x.1 < osmIdKey e.id) := takeWhile_eq_filter hcut
  have hrest : (s.inline.dropWhile fun x => decide (OsmLt x.1 e.id)) =
      s.inline.filter fun x => !decide (osmIdKey x.1 < osmIdKey e.id) := dropWhile_eq_filter hcut
  have hskip : skipModified e.id (s.inline.filter fun x => !decide (osmIdKey x.1 < osmIdKey e.id)) =
      s.inline.filter fun x => decide (osmIdKey e.id < osmIdKey x.1) := by
    rcases @skipModified_eq e.id _ (hinline.sublist filter_sublist) with heq | ⟨x, hx, hlt⟩
    · rw [heq, List.filter_filter]
      apply List.filter_congr
      intro x _
      rw [Bool.eq_iff_iff]
      simp only [Bool.and_eq_true, decide_eq_true_iff, Bool.not_eq_true', decide_eq_false_iff_not,
        not_lt]
      constructor
      · rintro ⟨hne, hle⟩
        exact lt_of_le_of_ne hle fun h => hne (osmIdKey_inj.mp h.symm)
      · intro hlt
        exact ⟨fun h => lt_irrefl _ (h ▸ hlt), hlt.le⟩
    · have hge := (mem_filter.mp hx).2
      simp [hlt] at hge
  refine ⟨_, by rw [rewriteElement, hobs, ok_bind], rfl, ?_, ?_, ?_⟩
  · rw [hkind]
    exact hbehind
  · simp only [hrest, hskip]
  · simp only [hbefore, hkind, hhit]
    rw [← hkind, writeHit_eq hdiff]

/-- The inline upserts split at an element: those below it are creates that come
first, that of its own id is held, those above it are left for the rest. -/
lemma inline_split {inline : List (Int64 × Bytes)}
    (hinline : inline.Pairwise fun a b => osmIdKey a.1 < osmIdKey b.1) {es : List (BaseElement C)}
    (hbelow : ∀ f ∈ es, osmIdKey e.id ≤ osmIdKey f.id) :
    (inline.filter fun x => decide (x.1 ∉ (e :: es).map BaseElement.id)) =
      (inline.filter fun x => decide (osmIdKey x.1 < osmIdKey e.id)) ++
        (inline.filter fun x => decide (osmIdKey e.id < osmIdKey x.1)).filter
          fun x => decide (x.1 ∉ es.map BaseElement.id) := by
  rw [filter_split _ (pairwise_lt_cut hinline (osmIdKey e.id)), List.filter_filter]
  congr 1
  · apply filter_congr
    intro x _
    rw [Bool.eq_iff_iff]
    simp only [Bool.and_eq_true, decide_eq_true_iff]
    constructor
    · exact fun h => h.2
    · intro hlt
      refine ⟨?_, hlt⟩
      intro hmem
      rw [map_cons, mem_cons] at hmem
      rcases hmem with heq | hmem
      · exact lt_irrefl _ (heq ▸ hlt)
      · obtain ⟨f, hf, hfid⟩ := mem_map.mp hmem
        rw [← hfid] at hlt
        exact absurd (hbelow f hf) (not_le.mpr hlt)
  · apply filter_congr
    intro x _
    rw [Bool.eq_iff_iff]
    simp only [Bool.and_eq_true, decide_eq_true_iff, Bool.not_eq_true', decide_eq_false_iff_not,
      not_lt, map_cons, mem_cons, not_or]
    constructor
    · rintro ⟨⟨hne, hout⟩, hle⟩
      exact ⟨hout, lt_of_le_of_ne hle fun h => hne (osmIdKey_inj.mp h.symm)⟩
    · rintro ⟨hout, hlt⟩
      exact ⟨⟨fun h => lt_irrefl _ (h ▸ hlt), hout⟩, hlt.le⟩

/-- The whole loop: what is written, with the creates still to come, is the merge
of the elements' survivors with the inline upserts of other ids. -/
lemma rewrite_fold_spec (hdiff : DiffSorted diff) {kind : ElementKind} {claim : BlobIndex}
    {seen : List Int64} {es : List (BaseElement C)} {s : RewriteState C}
    (hes : InOrder kind es) (hseen : ∀ x ∈ seen, ∀ e ∈ es, OsmLe x e.id)
    (hseeks : ∀ e ∈ es, SeeksBehind s.seeks diff kind e.id)
    (hinline : s.inline.Pairwise fun a b => osmIdKey a.1 < osmIdKey b.1)
    (hwalk : s.walk = .after claim walkContext seen) :
    ∃ t, es.foldlM (rewriteElement diff kind) s = .ok t ∧
      t.walk = .after claim walkContext (seen ++ es.map BaseElement.id) ∧
      t.output ++ t.inline.map (oscOf kind) = s.output ++
        (es.filterMap (survivor (diff.kind kind))).merge
          ((s.inline.filter fun x => decide (x.1 ∉ es.map BaseElement.id)).map (oscOf kind))
          notAfter := by
  induction es generalizing seen s with
  | nil =>
    refine ⟨s, rfl, by simpa using hwalk, ?_⟩
    simp
  | cons e es ih =>
    obtain ⟨t, ht, htwalk, htseeks, htinline, htout⟩ :=
      rewriteElement_spec hdiff (hes.kind e mem_cons_self)
        (fun x hx => hseen x hx e mem_cons_self) (hseeks e mem_cons_self) hinline hwalk
    have hseen' : ∀ x ∈ seen ++ [e.id], ∀ f ∈ es, OsmLe x f.id := by
      intro x hx f hf
      rcases mem_append.mp hx with hx | hx
      · exact hseen x hx f (mem_cons_of_mem _ hf)
      · rw [mem_singleton.mp hx]
        exact hes.head_le f hf
    have hseeks' : ∀ f ∈ es, SeeksBehind t.seeks diff kind f.id :=
      fun f hf => htseeks.mono (hes.head_le f hf)
    have hinline' : t.inline.Pairwise fun a b => osmIdKey a.1 < osmIdKey b.1 :=
      htinline ▸ hinline.sublist filter_sublist
    obtain ⟨u, hu, huwalk, huout⟩ := ih hes.tail hseen' hseeks' hinline' htwalk
    refine ⟨u, ?_, ?_, ?_⟩
    · rw [foldlM_cons, ht, ok_bind, hu]
    · simpa using huwalk
    · have hbelow : ∀ f ∈ es, osmIdKey e.id ≤ osmIdKey f.id := hes.head_le
      have hsplit := inline_split hinline hbelow
      rw [← htinline] at hsplit
      have hfirst : ∀ y ∈ ((s.inline.filter fun x => decide (osmIdKey x.1 < osmIdKey e.id)).map
          (oscOf kind) : List (Written C)),
          ∀ x ∈ (e :: es).filterMap (survivor (diff.kind kind)), notAfter x y = false := by
        intro y hy x hx
        obtain ⟨z, hz, rfl⟩ := mem_map.mp hy
        obtain ⟨f, hf, hkey⟩ := mem_survivors hx
        have hlt : osmIdKey z.1 < osmIdKey e.id := by simpa using (mem_filter.mp hz).2
        rw [notAfter_eq_false, oscOf_key, hkey]
        rcases mem_cons.mp hf with rfl | hf
        · exact hlt
        · exact hlt.trans_le (hbelow f hf)
      have hnext : ∀ x ∈ (survivor (diff.kind kind) e).toList,
          ∀ y ∈ (t.inline.filter fun x => decide (x.1 ∉ es.map BaseElement.id)).map (oscOf kind),
            notAfter x y = true := by
        intro x hx y hy
        obtain ⟨z, hz, rfl⟩ := mem_map.mp hy
        have hz' := (mem_filter.mp hz).1
        rw [htinline] at hz'
        have hlt : osmIdKey e.id < osmIdKey z.1 := by simpa using (mem_filter.mp hz').2
        rw [notAfter_iff, oscOf_key, survivor_key (mem_toList.mp hx)]
        exact hlt.le
      have hhead : (e :: es).filterMap (survivor (diff.kind kind)) =
          (survivor (diff.kind kind) e).toList ++ es.filterMap (survivor (diff.kind kind)) := by
        cases hsurv : survivor (diff.kind kind) e <;> simp [hsurv]
      have hmerge := @merge_append _ notAfter (survivor (diff.kind kind) e).toList
        (es.filterMap (survivor (diff.kind kind))) []
        ((t.inline.filter fun x => decide (x.1 ∉ es.map BaseElement.id)).map (oscOf kind))
        hnext (by simp)
      rw [huout, htout, hsplit, map_append, merge_append_right hfirst, hhead]
      rw [nil_append, merge_right] at hmerge
      rw [hmerge]
      simp

/-- The claim of a blob is exact and its elements are in order. -/
structure ExactBlob (b : Blob C) : Prop where
  claims : ClaimsExactly b.index b.ids
  inOrder : InOrder b.index.kind b.elements

lemma ExactBlob.exists_first (h : ExactBlob b) :
    ∃ e es, b.elements = e :: es ∧ b.ids.head? = some e.id := by
  have hmem := h.claims.min_mem
  rw [Blob.ids] at hmem ⊢
  cases hel : b.elements with
  | nil => simp [hel] at hmem
  | cons e es => exact ⟨e, es, rfl, rfl⟩

lemma rewriteBlockParallel_eq (hdiff : DiffSorted diff) (hb : ExactBlob b) (first : Int64)
    (last : OsmIdKey) : rewriteBlockParallel diff b.elements
        (slice (diff.kind b.index.kind) (upsertRange diff b.index.kind first last))
        b.index.kind b.index = .ok (mergedPart (diff.kind b.index.kind) b.index.kind b.ids
        (fun x => decide (osmIdKey first ≤ x) && decide (x ≤ last)) b.elements) := by
  have hinline := (entries_sorted (hdiff b.index.kind)).sublist (List.filter_sublist
    (p := fun x => decide (osmIdKey first ≤ osmIdKey x.1) && decide (osmIdKey x.1 ≤ last)))
  rw [← slice_upsertRange hdiff] at hinline
  obtain ⟨s, hs, hwalk, hout⟩ := @rewrite_fold_spec C diff hdiff b.index.kind b.index []
    b.elements ⟨blobWalk b.index, .default,
      slice (diff.kind b.index.kind) (upsertRange diff b.index.kind first last), []⟩
    hb.inOrder (by simp)
    (fun e _ => seeksBehind_default _ _) hinline (ClaimWalk.after_nil _ _).symm
  rw [rewriteBlockParallel, hs, ok_bind, hwalk, nil_append]
  rw [show b.elements.map BaseElement.id = b.ids from rfl, ClaimWalk.finish_after hb.claims,
    ok_bind, hout, slice_upsertRange hdiff, List.filter_filter]
  rfl

/-- What the item of a blob carries: the blob as it is where no upsert lies from its gap bound to
its last key, else its merge with the upserts from its first element to its last. -/
inductive Carries (diff : SortedDiff) (route : Route) (b : Blob C) : DrainItem C → Prop where
  | untouched (first : Option Int64)
      (observed : ∀ id, first = some id → b.ids.head? = some id)
      (clean : ∀ e ∈ b.elements,
        e.id ∉ (diff.kind b.index.kind).deleted ∧ e.id ∉ (diff.kind b.index.kind).ids)
      (clear : ∀ id ∈ (diff.kind b.index.kind).ids,
        osmIdKey (first.getD (blobOsmFirstId b.index.minId b.index.maxId)) ≤ osmIdKey id →
          b.index.lastKey < osmIdKey id) :
      Carries diff route b (passThroughIndexed route b first)
  | rewritten (first : Int64) (observed : b.ids.head? = some first) :
      Carries diff route b
        (.rewritten (mergedPart (diff.kind b.index.kind) b.index.kind b.ids
            (fun x => decide (osmIdKey first ≤ x) && decide (x ≤ b.index.lastKey)) b.elements)
          b.index.kind (b.index.minId, b.index.maxId) first)

lemma handleCandidate_carries (hdiff : DiffSorted diff) (route : Route) (hb : ExactBlob b) :
    ∃ item, handleCandidate diff route b = .ok item ∧ Carries diff route b item := by
  obtain ⟨e, es, hel, hfirst⟩ := hb.exists_first
  have hkinds : refuseForeignKind (b.elements.map BaseElement.kind) b.index.kind = .ok () := by
    apply refuseForeignKind_ok
    intro k hk
    obtain ⟨x, hx, rfl⟩ := mem_map.mp hk
    exact hb.inOrder.kind x hx
  have hrewrite := rewriteBlockParallel_eq hdiff hb e.id b.index.lastKey
  have hspec := @blockOverlapsDiff_spec C diff hdiff b.index.kind b.index [] b.elements .default
    hb.inOrder (by simp) (fun x _ => seeksBehind_default _ _)
  rw [ClaimWalk.after_nil, ← blobWalk] at hspec
  rcases hspec with ⟨walked, hne, hpre, hrun⟩ | ⟨hrun, hclean⟩
  · have hhead : walked.head? = some e.id := by
      cases walked with
      | nil => exact absurd rfl hne
      | cons x xs =>
        rw [hel, map_cons, cons_prefix_cons] at hpre
        rw [hpre.1]
        rfl
    refine ⟨_, ?_, .rewritten e.id hfirst⟩
    simp only [handleCandidate, hkinds, ok_bind, hrun, finishMiss, firstElement, if_true,
      nil_append, ClaimWalk.firstId_after, hhead]
    rw [if_neg (by simp)]
    rw [show blobOsmLastKey b.index.minId b.index.maxId = b.index.lastKey from rfl, hrewrite,
      ok_bind]
  · have hhead : (b.elements.map BaseElement.id).head? = some e.id := hfirst
    have hfin : (ClaimWalk.after b.index walkContext (b.elements.map BaseElement.id)).finish =
        .ok (b.elements.map BaseElement.id).head? := ClaimWalk.finish_after hb.claims _
    have hcandidate : handleCandidate diff route b =
        (if slice (diff.kind b.index.kind) (upsertRange diff b.index.kind e.id b.index.lastKey) = []
          then .ok (passThroughIndexed route b (some e.id))
          else do
            let output ← rewriteBlockParallel diff b.elements
              (slice (diff.kind b.index.kind)
                (upsertRange diff b.index.kind e.id b.index.lastKey)) b.index.kind b.index
            .ok (.rewritten output b.index.kind (b.index.minId, b.index.maxId) e.id)) := by
      simp only [handleCandidate, hkinds, ok_bind, hrun, finishMiss, firstElement,
        nil_append, hfin, ClaimWalk.firstId_after, hhead, Bool.false_eq_true, if_false, true_and]
      rfl
    rw [hcandidate]
    by_cases hslice : slice (diff.kind b.index.kind)
        (upsertRange diff b.index.kind e.id b.index.lastKey) = []
    · rw [if_pos hslice]
      refine ⟨_, rfl, .untouched (some e.id) ?_ hclean ?_⟩
      · intro id hid
        rw [← some.inj hid]
        exact hfirst
      · intro id hid hge
        by_contra hle
        obtain ⟨record, hget, _⟩ := entries_place (hdiff b.index.kind) hid
        rw [slice_upsertRange hdiff, filter_eq_nil_iff] at hslice
        apply hslice _ (mem_of_getElem? hget)
        simp only [getD_some] at hge
        simp [hge, not_lt.mp hle]
    · rw [if_neg hslice, hrewrite, ok_bind]
      exact ⟨_, rfl, .rewritten e.id hfirst⟩

lemma blobItem_carries (hdiff : DiffSorted diff) (route : Route) (hb : ExactBlob b) :
    ∃ item, blobItem diff route b = .ok item ∧ Carries diff route b item := by
  by_cases hover : rangeOverlaps diff b.index.kind b.index.minId b.index.maxId
  · rw [blobItem, if_pos hover]
    exact handleCandidate_carries hdiff route hb
  · have hmiss := Bool.not_eq_true _ ▸ hover
    rw [blobItem, if_neg hover]
    refine ⟨_, rfl, .untouched none ?_ ?_ ?_⟩
    · intro id hid
      cases hid
    · intro e he
      have hid : e.id ∈ b.ids := mem_map_of_mem he
      have hlast := hb.claims.le_lastKey hid
      constructor
      · intro hdel
        have hlt := rangeOverlaps_eq_false hdiff hmiss (.inr hdel) (hb.claims.firstKey_le hid)
        exact absurd hlast (not_le.mpr hlt)
      · intro hup
        have hlt := rangeOverlaps_eq_false hdiff hmiss (.inl hup) (hb.claims.firstKey_le hid)
        exact absurd hlast (not_le.mpr hlt)
    · intro id hid hge
      rw [getD_none, ← blobOsmFirstKey_eq] at hge
      exact rangeOverlaps_eq_false hdiff hmiss (.inl hid) hge

end ApplyRewrite
