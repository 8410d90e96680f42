import Pbfhogg.TimeFilter.SnapshotRuns

/-!
# The two paths against each other

An element whose `Info` has no version, or whose dense slot has version -1, is owned without
metadata, and is then visible: the history path writes it even when it is hidden, the snapshot path
drops it. The history path also resolves the strings of every version at or before the cutoff, the
snapshot path only those of the versions it writes.
-/

namespace TimeFilterAgreement

open OsmId Content Owned BuilderContents BlockBuilder TimeFilter HistoryRuns Selection SnapshotRuns
  Fallible List

variable {xs es : List Element} {cutoff : Int64}

/-- The element has a version, so that it keeps its metadata. -/
def versioned : Element → Bool
  | .denseNode _ _ _ _ info => info.any fun i => decide (i.version ≠ -1)
  | .node _ _ _ _ info | .way _ _ _ _ _ info | .relation _ _ _ info => info.version.isSome

/-- The owned form of the element is visible. -/
def ownedVisible (e : Element) : Bool := visible e || !versioned e

lemma elementMetadata_visible {kind : ElementKind} {id : Int64} {info : Info}
    {m : Option Metadata} (h : elementMetadata kind id info = .ok m) :
    m.all Metadata.visible = (infoVisible info || !info.version.isSome) := by
  unfold elementMetadata at h
  cases hversion : info.version with
  | none =>
    rw [hversion] at h
    cases h
    simp
  | some v =>
    rw [hversion] at h
    obtain ⟨user, -, rfl⟩ := map_eq_ok.mp h
    simp

lemma denseNodeMetadata_visible {id : Int64} {info : Option DenseNodeInfo}
    {m : Option Metadata} (h : denseNodeMetadata id info = .ok m) : m.all Metadata.visible =
      (denseVisible info || !info.any fun i => decide (i.version ≠ -1)) := by
  unfold denseNodeMetadata at h
  cases info with
  | none =>
    cases h
    rfl
  | some info =>
    by_cases hversion : info.version = -1
    · simp only [hversion, if_true] at h
      cases h
      simp [hversion]
    · simp only [hversion, if_false] at h
      obtain ⟨user, -, rfl⟩ := map_eq_ok.mp h
      simp [denseVisible, hversion]

lemma visible_owned {e : Element} {o : OwnedElement} (h : cloneOwnedElement e = .ok o) :
    o.visible = ownedVisible e := by
  cases e with
  | denseNode id lat lon tags info =>
    obtain ⟨n, hn, rfl⟩ := map_eq_ok.mp h
    obtain ⟨m, hm, rfl⟩ := map_eq_ok.mp hn
    exact denseNodeMetadata_visible hm
  | node id lat lon tags info =>
    obtain ⟨n, hn, rfl⟩ := map_eq_ok.mp h
    obtain ⟨m, hm, rfl⟩ := map_eq_ok.mp hn
    exact elementMetadata_visible hm
  | way id tags refs locations pins info =>
    obtain ⟨w, hw, rfl⟩ := map_eq_ok.mp h
    obtain ⟨m, hm, rfl⟩ := map_eq_ok.mp hw
    exact elementMetadata_visible hm
  | relation id tags members info =>
    obtain ⟨r, hr, rfl⟩ := map_eq_ok.mp h
    obtain ⟨ms, -, hr⟩ := bind_eq_ok.mp hr
    obtain ⟨m, hm, hr⟩ := bind_eq_ok.mp hr
    cases hr
    exact elementMetadata_visible hm

/-- Every element of a list has its owned form. -/
def Resolves (xs : List Element) : Prop := ∀ e ∈ xs, ∃ o, cloneOwnedElement e = .ok o

lemma Resolves.mapM (h : Resolves xs) : xs.mapM cloneOwnedElement = .ok (xs.filterMap owned) := by
  induction xs with
  | nil => rfl
  | cons e xs ih =>
    obtain ⟨⟨o, ho⟩, hrest⟩ := forall_mem_cons.mp h
    rw [filterMap_cons, owned_eq ho]
    exact mapM_cons_ok.mpr ⟨o, _, ho, ih hrest, rfl⟩

lemma Resolves.length (h : Resolves xs) : (xs.filterMap owned).length = xs.length := by
  have hmap := mapM_eq_ok.mp h.mapM
  simpa using (congrArg List.length hmap).symm

lemma Resolves.filter (h : Resolves xs) (p : Element → Bool) :
    Resolves (xs.filter p) := fun e he => h e (mem_filter.mp he).1

lemma Resolves.filter_visible (h : Resolves xs) :
    (xs.filterMap owned).filter OwnedElement.visible =
      (xs.filter ownedVisible).filterMap owned := by
  induction xs with
  | nil => rfl
  | cons e xs ih =>
    obtain ⟨⟨o, ho⟩, hrest⟩ := forall_mem_cons.mp h
    rw [filterMap_cons, owned_eq ho, filter_cons, filter_cons, visible_owned ho, ih hrest]
    split
    · rw [filterMap_cons, owned_eq ho]
    · rfl

/-- As many visible elements as visible owned forms: none is hidden and without a version. -/
theorem no_ghost (h : (xs.filter visible).length = (xs.filter ownedVisible).length) :
    ∀ e ∈ xs, visible e = true ∨ versioned e = true := by
  have hsub : (xs.filter visible).Sublist (xs.filter ownedVisible) :=
    monotone_filter_right xs fun e he => by rw [ownedVisible, he, Bool.true_or]
  have hsame := hsub.eq_of_length h
  intro e he
  by_contra hghost
  rw [not_or, Bool.not_eq_true, Bool.not_eq_true] at hghost
  have hmem : e ∈ xs.filter ownedVisible :=
    mem_filter.mpr ⟨he, by rw [ownedVisible, hghost.1, hghost.2]; rfl⟩
  rw [← hsame, mem_filter, hghost.1] at hmem
  exact Bool.false_ne_true hmem.2

lemma ownedVisible_eq {e : Element} (h : visible e = true ∨ versioned e = true) :
    ownedVisible e = visible e := by
  rcases h with h | h
  · rw [ownedVisible, h, Bool.true_or]
  · rw [ownedVisible, h, Bool.not_true, Bool.or_false]

/-- What the history path reads to its end. -/
structure HistoryReadable (cutoff : Int64) (es : List Element) : Prop where
  ascends : es.IsChain Follows
  reads : ∀ e ∈ es, Readable cutoff e
  encodes : ∀ e ∈ latest cutoff es, ∀ o, cloneOwnedElement e = .ok o → o.visible = true →
    Encodable o

/-- What the snapshot path reads to its end. -/
structure SnapshotReadable (cutoff : Int64) (es : List Element) : Prop where
  ascends : es.IsChain fun a b => key a < key b
  passes : ∀ e ∈ es, Passes cutoff e
  encodes : ∀ e ∈ es, kept cutoff e = true → ∀ o, cloneOwnedElement e = .ok o → Encodable o

lemma resolves_latest (hreads : ∀ e ∈ es, Readable cutoff e) :
    Resolves (latest cutoff es) := fun e he =>
  (hreads e ((latest_sublist cutoff es).subset he)).resolves (before_of_mem_latest he)

/-- What the history path writes of an input that it reads. -/
theorem written_closed (hsorted : Sorted es) (hreads : ∀ e ∈ es, Readable cutoff e) :
    written (closed cutoff es) = ((latest cutoff es).filter ownedVisible).filterMap owned := by
  rw [written, closed_reduce hsorted, (resolves_latest hreads).filter_visible]

lemma mem_filterMap_owned {o : OwnedElement} :
    o ∈ xs.filterMap owned ↔ ∃ e ∈ xs, cloneOwnedElement e = .ok o := by
  rw [mem_filterMap]
  constructor
  · rintro ⟨e, he, ho⟩
    refine ⟨e, he, ?_⟩
    unfold owned at ho
    cases hclone : cloneOwnedElement e with
    | error x =>
      rw [hclone] at ho
      cases ho
    | ok a =>
      rw [hclone] at ho
      cases ho
      rfl
  · rintro ⟨e, he, ho⟩
    exact ⟨e, he, owned_eq ho⟩

lemma history_readable_iff (cutoff : Int64) (blocks : List (List Element)) :
    (∃ r, timeFilterHistory cutoff blocks = .ok r) ↔ HistoryReadable cutoff blocks.flatten := by
  constructor
  · rintro ⟨r, hr⟩
    obtain ⟨hchain, hreads, hes, -, -⟩ := timeFilterHistory_ok hr
    rw [written_closed (sorted_of_chain hchain) hreads] at hes
    refine ⟨hchain, hreads, fun e he o ho hvisible => hes o ?_⟩
    rw [visible_owned ho] at hvisible
    exact mem_filterMap_owned.mpr ⟨e, mem_filter.mpr ⟨he, hvisible⟩, ho⟩
  · rintro ⟨hchain, hreads, hencodes⟩
    refine timeFilterHistory_total hchain hreads ?_
    rw [written_closed (sorted_of_chain hchain) hreads]
    intro o ho
    obtain ⟨e, he, ho⟩ := mem_filterMap_owned.mp ho
    obtain ⟨hlatest, hvisible⟩ := mem_filter.mp he
    exact hencodes e hlatest o ho ((visible_owned ho).trans hvisible)

lemma snapshot_readable_iff (cutoff : Int64) (blocks : List (List Element)) :
    (∃ r, timeFilterSnapshot cutoff blocks = .ok r) ↔ SnapshotReadable cutoff blocks.flatten := by
  constructor
  · rintro ⟨r, hr⟩
    obtain ⟨hchain, hpasses, hes, -, -⟩ := timeFilterSnapshot_ok hr
    refine ⟨hchain, hpasses, fun e he hkept o ho => hes o ?_⟩
    exact mem_filterMap_owned.mpr ⟨e, mem_filter.mpr ⟨he, hkept⟩, ho⟩
  · rintro ⟨hchain, hpasses, hencodes⟩
    refine timeFilterSnapshot_total hchain hpasses fun o ho => ?_
    obtain ⟨e, he, ho⟩ := mem_filterMap_owned.mp ho
    obtain ⟨hmem, hkept⟩ := mem_filter.mp he
    exact hencodes e hmem hkept o ho

lemma filter_not_length (xs : List OwnedElement) :
    (xs.filter OwnedElement.visible).length + (xs.countP fun o => !o.visible) = xs.length := by
  rw [← countP_eq_length_filter]
  have hsplit := length_eq_countP_add_countP OwnedElement.visible (l := xs)
  simp only [Bool.not_eq_true, Bool.decide_eq_false] at hsplit
  exact hsplit.symm

/-- Every object is written, dropped as deleted or dropped for want of a version. -/
theorem length_closed_eq (c : List (Option OwnedElement)) :
    (written c).length + (c.reduceOption.countP fun o => !o.visible) + c.countP Option.isNone =
      c.length := by
  rw [written, filter_not_length, countP_eq_length_filter]
  exact length_eq_reduceOption_length_add_filter_none.symm

/-- What a run of the history path is asked to write and to count. -/
structure Selects (cutoff : Int64) (es : List Element) (r : Report) : Prop where
  written : (selected cutoff es).mapM cloneOwnedElement = .ok r.1.flatten
  inOrder : (selected cutoff es).Sublist es
  perObject : ∀ k, (selected cutoff es).filter (fun e => decide (key e = k)) =
    ((es.filter fun e => decide (key e = k) && before cutoff e).getLast?.filter visible).toList
  once : ((selected cutoff es).map key).Nodup
  balance : (objects es).length =
    r.2.elementsWritten + r.2.droppedDeleted + r.2.droppedNoSnapshotVersion
  elementsWritten : r.2.elementsWritten = r.1.flatten.length
  beforeCutoff : r.2.versionsBeforeCutoff = es.countP (before cutoff)

lemma selects_iff {blocks : List (List Element)} {r : Report}
    (h : timeFilterHistory cutoff blocks = .ok r) : Selects cutoff blocks.flatten r ↔
      ∀ e ∈ latest cutoff blocks.flatten, visible e = true ∨ versioned e = true := by
  obtain ⟨hchain, hreads, -, hblocks, hstats⟩ := timeFilterHistory_ok h
  have hsorted := sorted_of_chain hchain
  have hlatest := resolves_latest hreads
  rw [written_closed hsorted hreads] at hblocks
  constructor
  · intro hselects
    refine no_ghost ?_
    have hwritten := hselects.written
    have hselected : Resolves (selected cutoff blocks.flatten) := hlatest.filter visible
    rw [hselected.mapM, Except.ok.injEq, hblocks] at hwritten
    have hlength := congrArg length hwritten
    rwa [hselected.length, (hlatest.filter ownedVisible).length] at hlength
  · intro hversioned
    have hsame : (latest cutoff blocks.flatten).filter ownedVisible =
        selected cutoff blocks.flatten :=
      filter_congr fun e he => ownedVisible_eq (hversioned e he)
    refine ⟨?_, selected_sublist _ _, selected_filter_key _ _, nodup_selected _ _, ?_, ?_, ?_⟩
    · rw [hblocks, hsame]
      exact Resolves.mapM (hlatest.filter visible)
    · rw [hstats, ← @length_closed cutoff _ hsorted, ← length_closed_eq]
      simp only [tallied, Nat.zero_add]
    · rw [hblocks, ← written_closed hsorted hreads, hstats]
      exact Nat.zero_add _
    · rw [hstats]
      exact Nat.zero_add _

/-- Every object occurs once. -/
def Once (es : List Element) : Prop := (es.map key).Nodup

/-- Both paths refuse, or both write the same elements and report the same counts. -/
def SameOutcome : Except Error Report → Except Error Report → Prop
  | .ok a, .ok b => a.1.flatten = b.1.flatten ∧ a.2 = b.2
  | .error _, .error _ => True
  | _, _ => False

lemma once_of_ascending (h : es.IsChain fun a b => key a < key b) : Once es := by
  have htrans : IsTrans Element fun a b => key a < key b := ⟨fun _ _ _ => lt_trans⟩
  have hpairs : es.Pairwise fun a b => key a < key b := isChain_iff_pairwise.mp h
  exact pairwise_map.mpr (hpairs.imp fun hlt => ne_of_lt hlt)

lemma ascending_of_once (honce : Once es) (h : es.IsChain Follows) :
    es.IsChain fun a b => key a < key b := by
  have hpairs : es.Pairwise fun a b => key a < key b :=
    (sorted_of_chain h).imp₂ (fun _ _ hle hne => lt_of_le_of_ne hle hne)
      (pairwise_map.mp honce)
  exact hpairs.isChain

lemma chain_of_ascending (h : es.IsChain fun a b => key a < key b) :
    es.IsChain Follows := h.imp fun _ _ hlt => .inl hlt

lemma latest_of_once (h : Once es) : latest cutoff es = es.filter (before cutoff) := by
  induction es with
  | nil => rfl
  | cons e es ih =>
    obtain ⟨hfresh, hrest⟩ := nodup_cons.mp h
    have hsuper : superseded cutoff e es = false := by
      rw [superseded, any_eq_false]
      intro x hx
      have hne : key x ≠ key e := fun hkey => hfresh (hkey ▸ mem_map_of_mem hx)
      simp [hne]
    rw [latest, hsuper, filter_cons, ih hrest]
    simp

lemma kept_eq_filter (cutoff : Int64) (es : List Element) :
    es.filter (kept cutoff) = (es.filter (before cutoff)).filter visible := by
  rw [filter_filter]
  exact filter_congr fun e _ => Bool.and_comm _ _

lemma countP_before (cutoff : Int64) (es : List Element) :
    es.countP (kept cutoff) + (es.countP fun e => before cutoff e && !visible e) =
      es.countP (before cutoff) := by
  induction es with
  | nil => rfl
  | cons e es ih =>
    rw [countP_cons, countP_cons, countP_cons, ← ih]
    by_cases hbefore : before cutoff e = true
    · by_cases hvisible : visible e = true
      · simp only [kept, hbefore, hvisible, Bool.and_self, Bool.not_true, Bool.and_false,
          Bool.false_eq_true, if_true, if_false]
        omega
      · simp only [kept, hbefore, hvisible, Bool.and_false, Bool.not_false, Bool.and_self,
          Bool.false_eq_true, if_true, if_false]
        omega
    · simp only [kept, hbefore, Bool.false_and, Bool.false_eq_true, if_false, Nat.add_zero]

/-- On an input that both paths read, the elements and the counts are the same exactly when no
version at or before the cutoff is hidden and without a version. -/
theorem same_report_iff {blocks : List (List Element)} {a b : Report}
    (ha : timeFilterHistory cutoff blocks = .ok a) (hb : timeFilterSnapshot cutoff blocks = .ok b) :
    (a.1.flatten = b.1.flatten ∧ a.2 = b.2) ↔
      ∀ e ∈ blocks.flatten, before cutoff e = true → visible e = true ∨ versioned e = true := by
  obtain ⟨hchain, hreads, -, hblocks, hstats⟩ := timeFilterHistory_ok ha
  obtain ⟨hascends, hpasses, -, hblocks', hstats'⟩ := timeFilterSnapshot_ok hb
  have honce := once_of_ascending hascends
  have hsorted := sorted_of_chain hchain
  have hlatest := resolves_latest hreads
  have hbefore : latest cutoff blocks.flatten = blocks.flatten.filter (before cutoff) :=
    latest_of_once honce
  rw [written_closed hsorted hreads] at hblocks
  rw [hbefore] at hblocks hlatest
  rw [survivors, kept_eq_filter] at hblocks'
  constructor
  · rintro ⟨hsame, -⟩ e he hcut
    have hmem : e ∈ blocks.flatten.filter (before cutoff) := mem_filter.mpr ⟨he, hcut⟩
    refine no_ghost ?_ e hmem
    rw [hblocks, hblocks'] at hsame
    have hlength := congrArg length hsame
    rw [(hlatest.filter _).length, (hlatest.filter _).length] at hlength
    exact hlength.symm
  · intro hversioned
    have hsame : (blocks.flatten.filter (before cutoff)).filter ownedVisible =
        (blocks.flatten.filter (before cutoff)).filter visible := by
      refine filter_congr fun e he => ?_
      obtain ⟨hmem, hcut⟩ := mem_filter.mp he
      exact ownedVisible_eq (hversioned e hmem hcut)
    rw [hsame] at hblocks
    refine ⟨hblocks.trans hblocks'.symm, ?_⟩
    have hwritten : (written (closed cutoff blocks.flatten)).length =
        blocks.flatten.countP (kept cutoff) := by
      rw [written_closed hsorted hreads, hbefore, hsame, (hlatest.filter _).length,
        ← kept_eq_filter, countP_eq_length_filter]
    have hreduced : (closed cutoff blocks.flatten).reduceOption.length =
        blocks.flatten.countP (before cutoff) := by
      rw [closed_reduce hsorted, hbefore, hlatest.length, countP_eq_length_filter]
    have hsplit : (written (closed cutoff blocks.flatten)).length +
        ((closed cutoff blocks.flatten).reduceOption.countP fun o => !o.visible) =
          (closed cutoff blocks.flatten).reduceOption.length := filter_not_length _
    have htotal := length_closed_eq (closed cutoff blocks.flatten)
    rw [length_closed hsorted, objects, honce.dedup, length_map] at htotal
    have hgate := countP_before cutoff blocks.flatten
    have hall := length_eq_countP_add_countP (before cutoff) (l := blocks.flatten)
    simp only [Bool.not_eq_true, Bool.decide_eq_false] at hall
    rw [hstats, hstats']
    simp only [tallied, counted, Nat.zero_add, Stats.mk.injEq, true_and]
    omega

/-- The history path selects the versions at the cutoff, each path refuses what does not ascend, and
where every object occurs once the two come to the same. -/
structure AsStated (cutoff : Int64) (blocks : List (List Element)) : Prop where
  selects : ∀ r, timeFilterHistory cutoff blocks = .ok r → Selects cutoff blocks.flatten r
  refuses : ¬blocks.flatten.IsChain Follows → ∃ e, timeFilterHistory cutoff blocks = .error e
  refusesKeys : ¬(blocks.flatten.IsChain fun a b => key a < key b) →
    ∃ e, timeFilterSnapshot cutoff blocks = .error e
  agrees : Once blocks.flatten →
    SameOutcome (timeFilterHistory cutoff blocks) (timeFilterSnapshot cutoff blocks)

/-- No version that the history path would select is hidden and without a version, and where the
snapshot path reads the input, the hidden elements have a version and resolve. -/
structure NoGhosts (cutoff : Int64) (es : List Element) : Prop where
  history : HistoryReadable cutoff es → ∀ e ∈ latest cutoff es,
    visible e = true ∨ versioned e = true
  snapshot : SnapshotReadable cutoff es → ∀ e ∈ es, before cutoff e = true →
    visible e = true ∨ versioned e = true ∧ ∃ o, cloneOwnedElement e = .ok o

lemma error_of_not_ok {α : Type} {x : Except Error α} (h : ¬∃ a, x = .ok a) :
    ∃ e, x = .error e := by
  cases x with
  | error e => exact ⟨e, rfl⟩
  | ok a => exact absurd ⟨a, rfl⟩ h

lemma readable_of_snapshot (hnone : NoGhosts cutoff es) (h : SnapshotReadable cutoff es) :
    HistoryReadable cutoff es := by
  have hresolves : ∀ e ∈ es, before cutoff e = true → ∃ o, cloneOwnedElement e = .ok o := by
    intro e he hbefore
    rcases hnone.snapshot h e he hbefore with hvisible | ⟨-, ho⟩
    · exact (h.passes e he).resolves (by rw [kept, hbefore, hvisible]; rfl)
    · exact ho
  refine ⟨chain_of_ascending h.ascends, fun e he => ⟨(h.passes e he).timed, hresolves e he⟩, ?_⟩
  intro e he o ho hvisible
  have hmem := (latest_sublist cutoff es).subset he
  have hbefore := before_of_mem_latest he
  refine h.encodes e hmem ?_ o ho
  rw [visible_owned ho] at hvisible
  rcases hnone.snapshot h e hmem hbefore with hshown | ⟨hversioned, -⟩
  · rw [kept, hbefore, hshown]
    rfl
  · rw [ownedVisible_eq (.inr hversioned)] at hvisible
    rw [kept, hbefore, hvisible]
    rfl

lemma readable_of_history (honce : Once es) (h : HistoryReadable cutoff es) :
    SnapshotReadable cutoff es := by
  refine ⟨ascending_of_once honce h.ascends,
    fun e he => ⟨(h.reads e he).timed, fun hkept => ?_⟩, ?_⟩
  · exact (h.reads e he).resolves (Bool.and_eq_true _ _ ▸ hkept).1
  · intro e he hkept o ho
    obtain ⟨hbefore, hvisible⟩ := (Bool.and_eq_true _ _).mp hkept
    have hlatest : e ∈ latest cutoff es := by
      rw [latest_of_once honce]
      exact mem_filter.mpr ⟨he, hbefore⟩
    refine h.encodes e hlatest o ho ?_
    rw [visible_owned ho, ownedVisible_eq (.inl hvisible), hvisible]

theorem timeFilter_asStated_iff (cutoff : Int64) (blocks : List (List Element)) :
    AsStated cutoff blocks ↔ NoGhosts cutoff blocks.flatten := by
  constructor
  · intro h
    constructor
    · intro hreadable
      obtain ⟨r, hr⟩ := (history_readable_iff cutoff blocks).mpr hreadable
      exact (selects_iff hr).mp (h.selects r hr)
    · intro hreadable e he hbefore
      obtain ⟨b, hb⟩ := (snapshot_readable_iff cutoff blocks).mpr hreadable
      have hsame := h.agrees (once_of_ascending hreadable.ascends)
      rw [hb] at hsame
      cases ha : timeFilterHistory cutoff blocks with
      | error x =>
        rw [ha] at hsame
        exact absurd hsame id
      | ok a =>
        rw [ha] at hsame
        have hresolves := ((history_readable_iff cutoff blocks).mp ⟨a, ha⟩).reads e he
        rcases (same_report_iff ha hb).mp hsame e he hbefore with hvisible | hversioned
        · exact .inl hvisible
        · exact .inr ⟨hversioned, hresolves.resolves hbefore⟩
  · intro h
    refine ⟨?_, ?_, ?_, ?_⟩
    · intro r hr
      exact (selects_iff hr).mpr (h.history ((history_readable_iff cutoff blocks).mp ⟨r, hr⟩))
    · intro hbad
      exact error_of_not_ok fun hok =>
        hbad ((history_readable_iff cutoff blocks).mp hok).ascends
    · intro hbad
      exact error_of_not_ok fun hok =>
        hbad ((snapshot_readable_iff cutoff blocks).mp hok).ascends
    · intro honce
      by_cases hsnapshot : SnapshotReadable cutoff blocks.flatten
      · obtain ⟨b, hb⟩ := (snapshot_readable_iff cutoff blocks).mpr hsnapshot
        have hhistory := readable_of_snapshot h hsnapshot
        obtain ⟨a, ha⟩ := (history_readable_iff cutoff blocks).mpr hhistory
        rw [ha, hb]
        refine (same_report_iff ha hb).mpr fun e he hbefore => ?_
        exact (h.snapshot hsnapshot e he hbefore).imp_right And.left
      · have hhistory : ¬HistoryReadable cutoff blocks.flatten := fun hreadable =>
          hsnapshot (readable_of_history honce hreadable)
        obtain ⟨x, hx⟩ := error_of_not_ok (mt (history_readable_iff cutoff blocks).mp hhistory)
        obtain ⟨y, hy⟩ := error_of_not_ok (mt (snapshot_readable_iff cutoff blocks).mp hsnapshot)
        rw [hx, hy]
        trivial

/-- One deleted node whose `Info` has a timestamp and no version. -/
def ghost : Element := .node 1 0 0 [] { milliTimestamp := some 100000, visible := some false }

/-- The history path writes it, the snapshot path does not. -/
theorem timeFilter_writes_ghost : ¬AsStated 250 [[ghost]] := by
  intro h
  have hhistory : timeFilterHistory 250 [[ghost]] =
      .ok ([[.node ⟨1, 0, 0, [], none⟩]], ⟨1, 1, 1, 0, 0⟩) := rfl
  have hsnapshot : timeFilterSnapshot 250 [[ghost]] = .ok ([], ⟨1, 1, 0, 1, 0⟩) := rfl
  have hsame := h.agrees (nodup_singleton _)
  rw [hhistory, hsnapshot] at hsame
  exact absurd hsame.1 (cons_ne_nil _ _)

end TimeFilterAgreement
