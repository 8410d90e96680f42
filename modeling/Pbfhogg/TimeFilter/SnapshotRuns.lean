import Pbfhogg.TimeFilter.Selection

/-!
# What the snapshot path writes

A block succeeds when its keys strictly ascend, every element has a timestamp, and what survives the
gate resolves and encodes; the drain asks the same of the seam between a block and the last key
before it.
-/

namespace SnapshotRuns

open Content Owned BuilderContents TimeFilter HistoryRuns Fallible List

variable {prev : Option OrderKey} {es block : List Element} {cutoff : Int64} {e : Element}
  {result : List (List OwnedElement) × Stats × Bounds} {blocks : List (List Element)}

/-- The element survives the gate. -/
def kept (cutoff : Int64) (e : Element) : Bool := before cutoff e && visible e

/-- The keys strictly ascend behind a key. -/
def After : Option OrderKey → List Element → Prop
  | _, [] => True
  | prev, e :: es => (∀ k, prev = some k → k < key e) ∧ After (some (key e)) es

/-- The last key of a run. -/
def lastKey (prev : Option OrderKey) (es : List Element) : Option OrderKey :=
  es.foldl (fun _ e => some (key e)) prev

structure Passes (cutoff : Int64) (e : Element) : Prop where
  timed : ∃ t, timestamp e = some t
  resolves : kept cutoff e = true → ∃ o, cloneOwnedElement e = .ok o

/-- The owned forms of what survives. -/
def survivors (cutoff : Int64) (es : List Element) : List OwnedElement :=
  (es.filter (kept cutoff)).filterMap owned

def counted (cutoff : Int64) (stats : Stats) (es : List Element) : Stats where
  versionsSeen := stats.versionsSeen + es.length
  versionsBeforeCutoff := stats.versionsBeforeCutoff + es.countP (before cutoff)
  elementsWritten := stats.elementsWritten + es.countP (kept cutoff)
  droppedDeleted := stats.droppedDeleted + es.countP fun e => before cutoff e && !visible e
  droppedNoSnapshotVersion :=
    stats.droppedNoSnapshotVersion + es.countP fun e => !before cutoff e

lemma after_append {fs : List Element} :
    After prev (es ++ fs) ↔ After prev es ∧ After (lastKey prev es) fs := by
  induction es generalizing prev with
  | nil => simp [After, lastKey]
  | cons e es ih => simp [After, lastKey, ih, and_assoc]

lemma after_none_iff : After none es ↔ es.IsChain fun a b => key a < key b := by
  cases es with
  | nil => simp [After]
  | cons e es =>
    simp only [After, reduceCtorEq, false_implies, implies_true, true_and]
    induction es generalizing e with
    | nil => simp [After]
    | cons x es ih => simp [After, ih]

lemma counted_append (cutoff : Int64) (stats : Stats) (es fs : List Element) :
    counted cutoff (counted cutoff stats es) fs = counted cutoff stats (es ++ fs) := by
  simp only [counted, length_append, countP_append, Nat.add_assoc]

lemma add_counted (cutoff : Int64) (stats : Stats) (es : List Element) :
    stats.add (counted cutoff {} es) = counted cutoff stats es := by
  simp only [Stats.add, counted, Nat.zero_add]

/-- The element gets through the gate or falls to it, and is counted as that. -/
theorem snapshotGate_eq_ok {stats : Stats} {q : Bool × Stats} :
    snapshotGate e cutoff stats = .ok q ↔ (∃ t, timestamp e = some t) ∧ q = (kept cutoff e,
      { stats with
        versionsBeforeCutoff := stats.versionsBeforeCutoff + if before cutoff e then 1 else 0
        droppedDeleted := stats.droppedDeleted + if before cutoff e && !visible e then 1 else 0
        droppedNoSnapshotVersion :=
          stats.droppedNoSnapshotVersion + if !before cutoff e then 1 else 0 }) := by
  have hvalue : ∀ t, timestamp e = some t → (if cutoff < t then
      (false, { stats with droppedNoSnapshotVersion := stats.droppedNoSnapshotVersion + 1 })
    else
      if !visible e then (false, { stats with
        versionsBeforeCutoff := stats.versionsBeforeCutoff + 1
        droppedDeleted := stats.droppedDeleted + 1 })
      else (true, { stats with versionsBeforeCutoff := stats.versionsBeforeCutoff + 1 })) =
        (kept cutoff e,
          { stats with
            versionsBeforeCutoff := stats.versionsBeforeCutoff + if before cutoff e then 1 else 0
            droppedDeleted := stats.droppedDeleted + if before cutoff e && !visible e then 1 else 0
            droppedNoSnapshotVersion :=
              stats.droppedNoSnapshotVersion + if !before cutoff e then 1 else 0 }) := by
    intro t ht
    rw [kept, before_eq ht]
    by_cases hlt : cutoff < t
    · have hnot : ¬t ≤ cutoff := Int64.not_le.mpr hlt
      simp [hlt, hnot]
    · have hle : t ≤ cutoff := Int64.not_lt.mp hlt
      cases hvisible : visible e <;> simp [hlt, hle]
  unfold snapshotGate
  rw [map_eq_ok]
  constructor
  · rintro ⟨t, ht, rfl⟩
    rw [requireTimestamp_eq_ok] at ht
    exact ⟨⟨t, ht⟩, hvalue t ht⟩
  · rintro ⟨⟨t, ht⟩, rfl⟩
    exact ⟨t, requireTimestamp_eq_ok.mpr ht, (hvalue t ht).symm⟩

lemma blockType_owned {o : OwnedElement} (h : cloneOwnedElement e = .ok o) :
    o.blockType = blockType e := by
  cases e <;>
    · obtain ⟨x, -, rfl⟩ := map_eq_ok.mp h
      rfl

/-- An arm of the loop is a write of the owned form. -/
theorem reencode_eq_ok {out out' : Output} :
    reencode out e = .ok out' ↔ ∃ o, cloneOwnedElement e = .ok o ∧ out.write o = .ok out' := by
  unfold reencode
  rw [bind_eq_ok]
  constructor
  · rintro ⟨out₁, hensure, h⟩
    obtain ⟨o, ho, h⟩ := bind_eq_ok.mp h
    cases h
    rw [mapError_eq_ok] at hensure ho
    refine ⟨o, ho, map_eq_ok.mpr ⟨out₁, ?_, rfl⟩⟩
    rw [blockType_owned ho]
    exact hensure
  · rintro ⟨o, ho, hwrite⟩
    obtain ⟨out₁, hensure, rfl⟩ := map_eq_ok.mp hwrite
    rw [blockType_owned ho] at hensure
    exact ⟨out₁, mapError_eq_ok.mpr hensure, bind_eq_ok.mpr ⟨o, mapError_eq_ok.mpr ho, rfl⟩⟩

/-- The bounds behind an element. -/
def boundsWith (bounds : Bounds) (e : Element) : Bounds :=
  some ((bounds.map Prod.fst).getD (key e), key e)

lemma extendBounds_eq_ok {bounds b : Bounds} :
    extendBounds bounds e = .ok b ↔
      (∀ k, bounds.map Prod.snd = some k → k < key e) ∧ b = boundsWith bounds e := by
  unfold extendBounds boundsWith
  cases bounds with
  | none => simp [eq_comm]
  | some q =>
    obtain ⟨first, last⟩ := q
    dsimp only
    by_cases hless : key e < last
    · simp [hless, le_of_lt hless]
    · by_cases hsame : key e = last
      · simp [hsame]
      · have hlt : last < key e := lt_of_le_of_ne (not_lt.mp hless) (Ne.symm hsame)
        simp [hless, hsame, hlt, eq_comm]

lemma snapshotStep_eq_ok {s s' : BlockPass} :
    snapshotStep cutoff s e = .ok s' ↔ (∃ t, timestamp e = some t) ∧
      (∀ k, s.bounds.map Prod.snd = some k → k < key e) ∧
      s'.bounds = boundsWith s.bounds e ∧ s'.stats = counted cutoff s.stats [e] ∧
      (if kept cutoff e then ∃ o, cloneOwnedElement e = .ok o ∧ s.out.write o = .ok s'.out
        else s'.out = s.out) := by
  unfold snapshotStep
  rw [bind_eq_ok]
  have hcounted : ∀ w : Nat, w = (if kept cutoff e then 1 else 0) →
      ({ versionsSeen := s.stats.versionsSeen + 1
         versionsBeforeCutoff :=
          s.stats.versionsBeforeCutoff + if before cutoff e then 1 else 0
         elementsWritten := s.stats.elementsWritten + w
         droppedDeleted :=
          s.stats.droppedDeleted + if before cutoff e && !visible e then 1 else 0
         droppedNoSnapshotVersion :=
          s.stats.droppedNoSnapshotVersion + if !before cutoff e then 1 else 0 } : Stats) =
        counted cutoff s.stats [e] := by
    rintro w rfl
    simp only [counted, length_singleton, countP_singleton]
  constructor
  · rintro ⟨b, hb, h⟩
    obtain ⟨hafter, rfl⟩ := extendBounds_eq_ok.mp hb
    obtain ⟨q, hq, h⟩ := bind_eq_ok.mp h
    obtain ⟨htimed, rfl⟩ := snapshotGate_eq_ok.mp hq
    dsimp only at h
    refine ⟨htimed, hafter, ?_⟩
    cases hkept : kept cutoff e with
    | false =>
      rw [hkept] at h
      cases h
      exact ⟨rfl, hcounted 0 (by rw [hkept]; rfl), rfl⟩
    | true =>
      rw [hkept, if_pos rfl] at h
      obtain ⟨out, hout, h⟩ := bind_eq_ok.mp h
      cases h
      exact ⟨rfl, hcounted 1 (by rw [hkept]; rfl), reencode_eq_ok.mp hout⟩
  · rintro ⟨htimed, hafter, hbounds, hstats, hcase⟩
    refine ⟨_, extendBounds_eq_ok.mpr ⟨hafter, rfl⟩, bind_eq_ok.mpr
      ⟨_, snapshotGate_eq_ok.mpr ⟨htimed, rfl⟩, ?_⟩⟩
    obtain ⟨out', bounds', stats'⟩ := s'
    dsimp only at hbounds hstats hcase ⊢
    rw [hbounds, hstats]
    cases hkept : kept cutoff e with
    | false =>
      rw [hkept, if_neg Bool.false_ne_true] at hcase
      rw [if_neg Bool.false_ne_true, hcase, ← hcounted 0 (by rw [hkept]; rfl)]
      rfl
    | true =>
      rw [hkept, if_pos rfl] at hcase
      rw [if_pos rfl, ← hcounted 1 (by rw [hkept]; rfl)]
      exact bind_eq_ok.mpr ⟨_, reencode_eq_ok.mpr hcase, rfl⟩

lemma survivors_cons (es : List Element) :
    survivors cutoff (e :: es) =
      (if kept cutoff e then (owned e).toList else []) ++ survivors cutoff es := by
  unfold survivors
  rw [filter_cons]
  split
  · cases howned : owned e <;> simp [howned]
  · rfl

lemma survivors_append (es fs : List Element) :
    survivors cutoff (es ++ fs) = survivors cutoff es ++ survivors cutoff fs := by
  unfold survivors
  rw [filter_append, filterMap_append]

/-- What a worker's pass over some elements has read, held and counted. -/
theorem pass_ok {s s' : BlockPass} {adds : List OwnedElement} (hout : Holds s.out adds)
    (h : es.foldlM (snapshotStep cutoff) s = .ok s') :
    After (s.bounds.map Prod.snd) es ∧ (∀ e ∈ es, Passes cutoff e) ∧
      Holds s'.out (adds ++ survivors cutoff es) ∧ s'.stats = counted cutoff s.stats es ∧
      s'.bounds = es.foldl boundsWith s.bounds := by
  induction es generalizing s adds with
  | nil =>
    cases h
    refine ⟨trivial, by simp, ?_, by simp [counted], rfl⟩
    rwa [show survivors cutoff [] = [] from rfl, append_nil]
  | cons e es ih =>
    rw [foldlM_cons] at h
    obtain ⟨s₁, hstep, h⟩ := bind_eq_ok.mp h
    obtain ⟨htimed, hafter, hbounds, hstats, hcase⟩ := snapshotStep_eq_ok.mp hstep
    have hheld : Passes cutoff e ∧
        Holds s₁.out (adds ++ if kept cutoff e then (owned e).toList else []) := by
      split at hcase
      · next hkept =>
        obtain ⟨o, ho, hwrite⟩ := hcase
        rw [if_pos hkept, owned_eq ho]
        exact ⟨⟨htimed, fun _ => ⟨o, ho⟩⟩, hout.write hwrite⟩
      · next hkept =>
        rw [if_neg hkept, append_nil, hcase]
        exact ⟨⟨htimed, fun h => absurd h hkept⟩, hout⟩
    obtain ⟨hafters, hpasses, hholds, hcounts, hends⟩ := ih hheld.2 h
    rw [hbounds] at hafters
    refine ⟨⟨hafter, hafters⟩, forall_mem_cons.mpr ⟨hheld.1, hpasses⟩, ?_, ?_, ?_⟩
    · rwa [survivors_cons, ← append_assoc]
    · rw [hcounts, hstats, counted_append]
      rfl
    · rw [hends, hbounds]
      rfl

lemma pass_total {s : BlockPass} {adds : List OwnedElement} (hout : Holds s.out adds)
    (hafter : After (s.bounds.map Prod.snd) es) (hpasses : ∀ e ∈ es, Passes cutoff e)
    (hes : ∀ a ∈ adds ++ survivors cutoff es, Encodable a) :
    ∃ s', es.foldlM (snapshotStep cutoff) s = .ok s' := by
  induction es generalizing s adds with
  | nil => exact ⟨s, rfl⟩
  | cons e es ih =>
    rw [forall_mem_cons] at hpasses
    rw [survivors_cons, ← append_assoc] at hes
    have hadds : ∀ a ∈ adds, Encodable a := fun a ha =>
      hes a (mem_append_left _ (mem_append_left _ ha))
    have hnext : ∃ s₁, snapshotStep cutoff s e = .ok s₁ ∧ s₁.bounds = boundsWith s.bounds e ∧
        Holds s₁.out (adds ++ if kept cutoff e then (owned e).toList else []) := by
      cases hkept : kept cutoff e with
      | false =>
        refine ⟨⟨s.out, boundsWith s.bounds e, counted cutoff s.stats [e]⟩,
          snapshotStep_eq_ok.mpr ⟨hpasses.1.timed, hafter.1, rfl, rfl, ?_⟩, rfl, ?_⟩
        · rw [hkept, if_neg Bool.false_ne_true]
        · rwa [if_neg Bool.false_ne_true, append_nil]
      | true =>
        obtain ⟨o, ho⟩ := hpasses.1.resolves hkept
        obtain ⟨out, hwrite⟩ := hout.write_ok hadds o
        refine ⟨⟨out, boundsWith s.bounds e, counted cutoff s.stats [e]⟩,
          snapshotStep_eq_ok.mpr ⟨hpasses.1.timed, hafter.1, rfl, rfl, ?_⟩, rfl, ?_⟩
        · rw [hkept, if_pos rfl]
          exact ⟨o, ho, hwrite⟩
        · rw [if_pos rfl, owned_eq ho]
          exact hout.write hwrite
    obtain ⟨s₁, hstep, hbounds, hholds⟩ := hnext
    have hrest : After (s₁.bounds.map Prod.snd) es := by
      rw [hbounds]
      exact hafter.2
    obtain ⟨s', hs'⟩ := ih hholds hrest hpasses.2 hes
    refine ⟨s', ?_⟩
    rw [foldlM_cons]
    exact bind_eq_ok.mpr ⟨s₁, hstep, hs'⟩

lemma foldl_boundsWith (es : List Element) (first last : OrderKey) :
    ∃ l, es.foldl boundsWith (some (first, last)) = some (first, l) ∧
      lastKey (some last) es = some l := by
  induction es generalizing last with
  | nil => exact ⟨last, rfl, rfl⟩
  | cons e es ih => exact ih (key e)

/-- What a worker hands over for a block. -/
theorem filterBlockSnapshot_ok (h : filterBlockSnapshot cutoff block = .ok result) :
    After none block ∧ (∀ e ∈ block, Passes cutoff e) ∧
      (∀ a ∈ survivors cutoff block, Encodable a) ∧
      result.1.flatten = survivors cutoff block ∧ result.2.1 = counted cutoff {} block ∧
      result.2.2 = block.foldl boundsWith none := by
  obtain ⟨s, hs, h⟩ := bind_eq_ok.mp h
  obtain ⟨out, hflush, h⟩ := bind_eq_ok.mp h
  cases h
  obtain ⟨hafter, hpasses, hholds, hstats, hbounds⟩ := pass_ok holds_new hs
  obtain ⟨hes, -, -, hblocks⟩ := hholds.flush (mapError_eq_ok.mp hflush)
  exact ⟨hafter, hpasses, hes, hblocks, hstats, hbounds⟩

lemma filterBlockSnapshot_total (hafter : After none block)
    (hpasses : ∀ e ∈ block, Passes cutoff e) (hes : ∀ a ∈ survivors cutoff block, Encodable a) :
    ∃ result, filterBlockSnapshot cutoff block = .ok result := by
  obtain ⟨s, hs⟩ := pass_total (s := {}) holds_new hafter hpasses hes
  obtain ⟨-, -, hholds, -, -⟩ := pass_ok holds_new hs
  obtain ⟨out, hflush⟩ := hholds.flush_ok hes
  exact ⟨_, bind_eq_ok.mpr ⟨s, hs, bind_eq_ok.mpr ⟨out, mapError_eq_ok.mpr hflush, rfl⟩⟩⟩

lemma checkSeam_eq_ok {first : OrderKey} {u : Unit} :
    checkSeam prev first = .ok u ↔ ∀ k, prev = some k → k < first := by
  unfold checkSeam
  cases prev with
  | none => simp
  | some k =>
    dsimp only
    by_cases hless : first < k
    · simp [hless, le_of_lt hless]
    · by_cases hsame : first = k
      · simp [hsame]
      · have hlt : k < first := lt_of_le_of_ne (not_lt.mp hless) (Ne.symm hsame)
        simp [hless, hsame, hlt]

/-- The seam asks of a block what its own keys do not say. -/
theorem after_seam :
    After prev (e :: es) ↔ (∀ k, prev = some k → k < key e) ∧ After none (e :: es) := by
  simp [After]

lemma drain_eq_ok {s s' : DrainState} (hblock : After none block)
    (hstats : result.2.1 = counted cutoff {} block)
    (hbounds : result.2.2 = block.foldl boundsWith none) :
    drain s result = .ok s' ↔ After s.previousLast block ∧
      s' = ⟨lastKey s.previousLast block, counted cutoff s.stats block,
        s.written ++ result.1⟩ := by
  unfold drain
  rw [hstats, hbounds, add_counted, map_eq_ok]
  cases block with
  | nil => simp [After, lastKey, passSeam]
  | cons e es =>
    obtain ⟨l, hfold, hlast⟩ := foldl_boundsWith es (key e) (key e)
    have hfold' : (e :: es).foldl boundsWith none = some (key e, l) := hfold
    have hlast' : lastKey s.previousLast (e :: es) = some l := hlast
    rw [hfold', hlast', after_seam, passSeam]
    constructor
    · rintro ⟨last, h, rfl⟩
      obtain ⟨u, hseam, rfl⟩ := map_eq_ok.mp h
      exact ⟨⟨checkSeam_eq_ok.mp hseam, hblock⟩, rfl⟩
    · rintro ⟨⟨hseam, -⟩, rfl⟩
      exact ⟨some l, map_eq_ok.mpr ⟨(), checkSeam_eq_ok.mpr hseam, rfl⟩, rfl⟩

/-- One block, filtered and drained. -/
def snapshotBlock (cutoff : Int64) (s : DrainState) (block : List Element) :
    Except Error DrainState := do
  let result ← filterBlockSnapshot cutoff block
  drain s result

lemma blocks_ok {s s' : DrainState} (h : blocks.foldlM (snapshotBlock cutoff) s = .ok s') :
    After s.previousLast blocks.flatten ∧ (∀ e ∈ blocks.flatten, Passes cutoff e) ∧
      (∀ a ∈ survivors cutoff blocks.flatten, Encodable a) ∧
      s'.written.flatten = s.written.flatten ++ survivors cutoff blocks.flatten ∧
      s'.stats = counted cutoff s.stats blocks.flatten := by
  induction blocks generalizing s with
  | nil =>
    cases h
    exact ⟨trivial, by simp, by simp [survivors], by simp [survivors], by simp [counted]⟩
  | cons block blocks ih =>
    rw [foldlM_cons] at h
    obtain ⟨s₁, hblock, h⟩ := bind_eq_ok.mp h
    obtain ⟨result, hresult, hdrain⟩ := bind_eq_ok.mp hblock
    obtain ⟨hafter, hpasses, hes, hwritten, hstats, hbounds⟩ := filterBlockSnapshot_ok hresult
    obtain ⟨hseam, rfl⟩ := (drain_eq_ok hafter hstats hbounds).mp hdrain
    obtain ⟨hrest, hpasses', hes', hwritten', hstats'⟩ := ih h
    rw [flatten_cons, survivors_append]
    refine ⟨after_append.mpr ⟨hseam, hrest⟩, ?_, ?_, ?_, ?_⟩
    · exact forall_mem_append.mpr ⟨hpasses, hpasses'⟩
    · exact forall_mem_append.mpr ⟨hes, hes'⟩
    · rw [hwritten', flatten_append, hwritten, append_assoc]
    · rw [hstats', counted_append]

lemma blocks_total {s : DrainState} (hafter : After s.previousLast blocks.flatten)
    (hpasses : ∀ e ∈ blocks.flatten, Passes cutoff e)
    (hes : ∀ a ∈ survivors cutoff blocks.flatten, Encodable a) :
    ∃ s', blocks.foldlM (snapshotBlock cutoff) s = .ok s' := by
  induction blocks generalizing s with
  | nil => exact ⟨s, rfl⟩
  | cons block blocks ih =>
    rw [flatten_cons] at hafter hpasses hes
    rw [survivors_append] at hes
    obtain ⟨hblock, hrest⟩ := after_append.mp hafter
    obtain ⟨hpasses, hpasses'⟩ := forall_mem_append.mp hpasses
    obtain ⟨hes, hes'⟩ := forall_mem_append.mp hes
    have hown : After none block := by
      cases block with
      | nil => trivial
      | cons e es => exact (after_seam.mp hblock).2
    obtain ⟨result, hresult⟩ := filterBlockSnapshot_total hown hpasses hes
    obtain ⟨-, -, -, -, hstats, hbounds⟩ := filterBlockSnapshot_ok hresult
    have hdrain := (drain_eq_ok (s := s) hown hstats hbounds).mpr ⟨hblock, rfl⟩
    obtain ⟨s', hs'⟩ := ih (s := ⟨_, _, _⟩) hrest hpasses' hes'
    refine ⟨s', ?_⟩
    rw [foldlM_cons]
    exact bind_eq_ok.mpr ⟨_, bind_eq_ok.mpr ⟨result, hresult, hdrain⟩, hs'⟩

/-- What a run that succeeds has read, written and counted. -/
theorem timeFilterSnapshot_ok {r : Report} (h : timeFilterSnapshot cutoff blocks = .ok r) :
    (blocks.flatten.IsChain fun a b => key a < key b) ∧
      (∀ e ∈ blocks.flatten, Passes cutoff e) ∧
      (∀ a ∈ survivors cutoff blocks.flatten, Encodable a) ∧
      r.1.flatten = survivors cutoff blocks.flatten ∧
      r.2 = counted cutoff {} blocks.flatten := by
  obtain ⟨s, hs, h⟩ := bind_eq_ok.mp h
  cases h
  obtain ⟨hafter, hpasses, hes, hwritten, hstats⟩ := blocks_ok hs
  exact ⟨after_none_iff.mp hafter, hpasses, hes, hwritten, hstats⟩

lemma timeFilterSnapshot_total (hafter : blocks.flatten.IsChain fun a b => key a < key b)
    (hpasses : ∀ e ∈ blocks.flatten, Passes cutoff e)
    (hes : ∀ a ∈ survivors cutoff blocks.flatten, Encodable a) :
    ∃ r, timeFilterSnapshot cutoff blocks = .ok r := by
  obtain ⟨s, hs⟩ := blocks_total (s := {}) (after_none_iff.mpr hafter) hpasses hes
  exact ⟨_, bind_eq_ok.mpr ⟨s, hs, rfl⟩⟩

end SnapshotRuns
