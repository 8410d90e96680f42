import Mathlib.Data.List.ReduceOption
import Pbfhogg.TimeFilter.Paths

/-!
# What the history path writes

The history path closes the objects of the input one after the other. Closing one hands over its
last version at or before the cutoff, and the visible ones are written. A run succeeds exactly when
the input ascends, every element has a timestamp, the versions at or before the cutoff resolve, and
what is written encodes.
-/

namespace HistoryRuns

open OsmId Content Owned BuilderContents TimeFilter Fallible List

variable {cutoff : Int64} {e p : Element} {s s' : HistoryState} {latest : Option OwnedElement}
  {adds : List OwnedElement} {r : Report} {es : List Element}

/-- The element is at or before the cutoff. -/
def before (cutoff : Int64) (e : Element) : Bool := (timestamp e).any fun t => decide (t ≤ cutoff)

/-- The owned form, where everything it needs resolves. -/
def owned (e : Element) : Option OwnedElement := (cloneOwnedElement e).toOption

/-- An element may follow another: a later object, or a higher version of the same one. -/
def Follows (a b : Element) : Prop :=
  key a < key b ∨ key a = key b ∧ ascends (version a) (version b) = true

structure Readable (cutoff : Int64) (e : Element) : Prop where
  timed : ∃ t, timestamp e = some t
  resolves : before cutoff e = true → ∃ o, cloneOwnedElement e = .ok o

/-- What the objects of a run hand over as they are closed, the pending one first. -/
def closings (cutoff : Int64) (p : Element) (latest : Option OwnedElement) :
    List Element → List (Option OwnedElement)
  | [] => [latest]
  | e :: es =>
    if key e = key p then closings cutoff e (if before cutoff e then owned e else latest) es
    else latest :: closings cutoff e (if before cutoff e then owned e else none) es

/-- The visible ones among what is handed over. -/
def written (closed : List (Option OwnedElement)) : List OwnedElement :=
  closed.reduceOption.filter OwnedElement.visible

/-- The counts after a run over some elements. -/
def tallied (cutoff : Int64) (stats : Stats) (es : List Element)
    (closed : List (Option OwnedElement)) : Stats where
  versionsSeen := stats.versionsSeen + es.length
  versionsBeforeCutoff := stats.versionsBeforeCutoff + es.countP (before cutoff)
  elementsWritten := stats.elementsWritten + (written closed).length
  droppedDeleted :=
    stats.droppedDeleted + closed.reduceOption.countP fun owned => !owned.visible
  droppedNoSnapshotVersion := stats.droppedNoSnapshotVersion + closed.countP Option.isNone

/-- An element counted. -/
def saw (cutoff : Int64) (stats : Stats) (e : Element) : Stats :=
  { stats with
    versionsSeen := stats.versionsSeen + 1
    versionsBeforeCutoff := stats.versionsBeforeCutoff + if before cutoff e then 1 else 0 }

lemma tallied_nil (cutoff : Int64) (stats : Stats) (latest : Option OwnedElement) :
    tallied cutoff stats [] [latest] = stats.close latest := by
  cases latest with
  | none => rfl
  | some owned =>
    cases hvisible : owned.visible <;>
      simp [tallied, written, Stats.close, reduceOption, hvisible]

lemma tallied_cons (cutoff : Int64) (stats : Stats) (e : Element) (es : List Element)
    (closed : List (Option OwnedElement)) :
    tallied cutoff (saw cutoff stats e) es closed = tallied cutoff stats (e :: es) closed := by
  simp only [tallied, saw, length_cons, countP_cons, Stats.mk.injEq, and_true]
  omega

lemma tallied_close (cutoff : Int64) (stats : Stats) (es : List Element)
    (latest : Option OwnedElement) (closed : List (Option OwnedElement)) :
    tallied cutoff (stats.close latest) es closed = tallied cutoff stats es (latest :: closed) := by
  cases latest with
  | none =>
    simp only [tallied, written, Stats.close, reduceOption_cons_of_none, countP_cons,
      Option.isNone_none, if_true, Stats.mk.injEq, true_and]
    omega
  | some owned =>
    cases hvisible : owned.visible <;>
      simp only [tallied, written, Stats.close, reduceOption_cons_of_some, countP_cons,
        filter_cons, hvisible, Bool.not_true, Bool.not_false, Bool.false_eq_true, if_true,
        if_false, length_cons, Option.isNone_some, Stats.mk.injEq, true_and, and_true,
        Nat.add_zero] <;>
      omega

lemma orderKey_injective {k k' : ElementKind} {i i' : Int64}
    (h : orderKey k i = orderKey k' i') : k = k' ∧ i = i' := by
  have hpair : (k.ordinal, osmIdKey i) = (k'.ordinal, osmIdKey i') := toLex.injective h
  obtain ⟨hkind, hid⟩ := Prod.mk.inj hpair
  exact ⟨ElementKind.ordinal_injective hkind, osmIdKey_injective hid⟩

/-- The group of an element, with what it has kept so far. -/
def groupOf (e : Element) (latest : Option OwnedElement) : PendingGroup :=
  ⟨e.contentKind, e.id, version e, latest⟩

/-- What closing a group does to the output. -/
def closeOut (latest : Option OwnedElement) (out : Output) : Except Error Output :=
  match latest with
  | none => .ok out
  | some owned => if !owned.visible then .ok out else (out.write owned).mapError .build

lemma flushGroup_eq (latest : Option OwnedElement) (out : Output) (stats : Stats) :
    flushGroup latest out stats =
      (closeOut latest out).map fun out => (out, stats.close latest) := by
  cases latest with
  | none => rfl
  | some owned =>
    unfold flushGroup closeOut
    dsimp only
    split <;> rfl

lemma requireTimestamp_eq_ok {ts : Option Int64} {kind : ElementKind} {id t : Int64} :
    requireTimestamp ts kind id = .ok t ↔ ts = some t := by
  cases ts with
  | none => simp [requireTimestamp]
  | some t' => simp [requireTimestamp]

lemma before_eq {t : Int64} (h : timestamp e = some t) : before cutoff e = decide (t ≤ cutoff) := by
  rw [before, h]
  rfl

lemma owned_eq {o : OwnedElement} (h : cloneOwnedElement e = .ok o) : owned e = some o := by
  rw [owned, h]
  rfl

lemma keepLatest_eq_ok {t : Int64} (ht : timestamp e = some t) {base : Option OwnedElement}
    (hpending : s.pending = some (groupOf e base)) : keepLatest cutoff t e s = .ok s' ↔
      (before cutoff e = true → ∃ o, cloneOwnedElement e = .ok o) ∧ s' = ⟨s.out, { s.stats with
            versionsBeforeCutoff :=
              s.stats.versionsBeforeCutoff + if before cutoff e then 1 else 0 },
          some (groupOf e (if before cutoff e then owned e else base))⟩ := by
  unfold keepLatest
  rw [before_eq ht]
  by_cases hle : t ≤ cutoff
  · simp only [hle, if_true, decide_true, forall_const]
    rw [map_eq_ok]
    constructor
    · rintro ⟨o, ho, rfl⟩
      rw [mapError_eq_ok] at ho
      refine ⟨⟨o, ho⟩, ?_⟩
      rw [owned_eq ho, hpending]
      rfl
    · rintro ⟨⟨o, ho⟩, rfl⟩
      refine ⟨o, mapError_eq_ok.mpr ho, ?_⟩
      rw [owned_eq ho, hpending]
      rfl
  · simp only [hle, if_false, decide_false, Bool.false_eq_true, false_implies, true_and,
      Nat.add_zero, Except.ok.injEq]
    rw [← hpending]
    exact eq_comm

/-- Entering the group of an element that comes behind another. -/
theorem enterGroup_eq_ok (hpending : s.pending = some (groupOf p latest)) :
    enterGroup e.contentKind e.id (version e) s = .ok s' ↔ Follows p e ∧
      ((key e = key p ∧ s' = ⟨s.out, s.stats, some (groupOf e latest)⟩) ∨
        (key e ≠ key p ∧ ∃ out, closeOut latest s.out = .ok out ∧
          s' = ⟨out, s.stats.close latest, some (groupOf e none)⟩)) := by
  have hkeys : orderKey e.contentKind e.id = key e ∧
      orderKey (groupOf p latest).kind (groupOf p latest).id = key p := ⟨rfl, rfl⟩
  unfold enterGroup Follows
  rw [hpending]
  dsimp only
  rw [hkeys.1, hkeys.2]
  by_cases hless : key e < key p
  · rw [if_pos hless]
    have hnot : ¬key p < key e := not_lt_of_gt hless
    have hne : key p ≠ key e := ne_of_gt hless
    simp [hnot, hne]
  · rw [if_neg hless]
    by_cases hsame : key e = key p
    · obtain ⟨hkind, hid⟩ := orderKey_injective hsame
      have hnot : ¬key p < key e := by
        rw [hsame]
        exact lt_irrefl _
      rw [if_pos hsame]
      have hgroup : { groupOf p latest with lastVersion := version e } = groupOf e latest := by
        unfold groupOf
        rw [hkind, hid]
      rw [hgroup]
      cases hascends : ascends (version p) (version e) with
      | false => simp [groupOf, hascends, hnot]
      | true => simp [groupOf, hascends, hsame, eq_comm]
    · have hlt : key p < key e := lt_of_le_of_ne (not_lt.mp hless) (Ne.symm hsame)
      rw [if_neg hsame, flushGroup_eq, map_eq_ok]
      constructor
      · rintro ⟨q, hq, rfl⟩
        obtain ⟨out, hout, rfl⟩ := map_eq_ok.mp hq
        exact ⟨.inl hlt, .inr ⟨hsame, out, hout, rfl⟩⟩
      · rintro ⟨-, ⟨habs, -⟩ | ⟨-, out, hout, rfl⟩⟩
        · exact absurd habs hsame
        · exact ⟨_, map_eq_ok.mpr ⟨out, hout, rfl⟩, rfl⟩

/-- What a step does behind an element: it is refused, or it moves the run on. -/
theorem historyStep_eq_ok (hpending : s.pending = some (groupOf p latest)) :
    historyStep cutoff s e = .ok s' ↔ Readable cutoff e ∧ Follows p e ∧
      ((key e = key p ∧ s' = ⟨s.out, saw cutoff s.stats e,
          some (groupOf e (if before cutoff e then owned e else latest))⟩) ∨
        (key e ≠ key p ∧ ∃ out, closeOut latest s.out = .ok out ∧
          s' = ⟨out, saw cutoff (s.stats.close latest) e,
            some (groupOf e (if before cutoff e then owned e else none))⟩)) := by
  have hclose : ∀ stats : Stats, ({ stats with versionsSeen := stats.versionsSeen + 1 } :
      Stats).close latest =
        { stats.close latest with versionsSeen := (stats.close latest).versionsSeen + 1 } := by
    intro stats
    cases latest with
    | none => rfl
    | some o =>
      unfold Stats.close
      dsimp only
      split <;> rfl
  unfold historyStep elementIdentityAndTimestamp
  rw [bind_eq_ok]
  constructor
  · rintro ⟨q, hq, h⟩
    obtain ⟨t, ht, rfl⟩ := map_eq_ok.mp hq
    rw [requireTimestamp_eq_ok] at ht
    dsimp only at h
    obtain ⟨s₁, hs₁, hkeep⟩ := bind_eq_ok.mp h
    obtain ⟨hfollows, hcase⟩ := (enterGroup_eq_ok (by exact hpending)).mp hs₁
    rcases hcase with ⟨hsame, rfl⟩ | ⟨hne, out, hout, rfl⟩
    · obtain ⟨hresolves, rfl⟩ := (keepLatest_eq_ok ht rfl).mp hkeep
      exact ⟨⟨⟨t, ht⟩, hresolves⟩, hfollows, .inl ⟨hsame, rfl⟩⟩
    · obtain ⟨hresolves, rfl⟩ := (keepLatest_eq_ok ht rfl).mp hkeep
      refine ⟨⟨⟨t, ht⟩, hresolves⟩, hfollows, .inr ⟨hne, out, hout, ?_⟩⟩
      rw [hclose]
      rfl
  · rintro ⟨⟨⟨t, ht⟩, hresolves⟩, hfollows, hcase⟩
    refine ⟨_, map_eq_ok.mpr ⟨t, requireTimestamp_eq_ok.mpr ht, rfl⟩, ?_⟩
    dsimp only
    rw [bind_eq_ok]
    rcases hcase with ⟨hsame, rfl⟩ | ⟨hne, out, hout, rfl⟩
    · exact ⟨_, (enterGroup_eq_ok (by exact hpending)).mpr ⟨hfollows, .inl ⟨hsame, rfl⟩⟩,
        (keepLatest_eq_ok ht rfl).mpr ⟨hresolves, rfl⟩⟩
    · refine ⟨_, (enterGroup_eq_ok (by exact hpending)).mpr ⟨hfollows, .inr ⟨hne, out, hout, rfl⟩⟩,
        (keepLatest_eq_ok ht rfl).mpr ⟨hresolves, ?_⟩⟩
      rw [hclose]
      rfl

lemma written_cons (latest : Option OwnedElement) (closed : List (Option OwnedElement)) :
    written (latest :: closed) = written [latest] ++ written closed := by
  cases latest with
  | none => rfl
  | some o =>
    simp only [written, reduceOption_cons_of_some, filter_cons]
    split <;> rfl

/-- Closing a group adds what is written of it. -/
theorem closeOut_holds {out out' : Output} (hout : Holds out adds)
    (hclose : closeOut latest out = .ok out') : Holds out' (adds ++ written [latest]) := by
  cases latest with
  | none =>
    cases hclose
    rwa [show written [none] = [] from rfl, append_nil]
  | some o =>
    unfold closeOut at hclose
    dsimp only at hclose
    have hwritten : written [some o] = if o.visible then [o] else [] := by
      cases hvisible : o.visible <;> simp [written, reduceOption, hvisible]
    rw [hwritten]
    split at hclose
    · next hhidden =>
      cases hclose
      rw [Bool.not_eq_true'] at hhidden
      rwa [hhidden, if_neg Bool.false_ne_true, append_nil]
    · next hvisible =>
      rw [Bool.not_eq_true', Bool.not_eq_false] at hvisible
      rw [hvisible, if_pos rfl]
      exact hout.write (mapError_eq_ok.mp hclose)

lemma closeOut_ok {latest : Option OwnedElement} {out : Output} {adds : List OwnedElement}
    (hout : Holds out adds) (hes : ∀ a ∈ adds, Encodable a) :
    ∃ out', closeOut latest out = .ok out' := by
  cases latest with
  | none => exact ⟨out, rfl⟩
  | some o =>
    unfold closeOut
    dsimp only
    split
    · exact ⟨out, rfl⟩
    · obtain ⟨out', hwrite⟩ := hout.write_ok hes o
      exact ⟨out', mapError_eq_ok.mpr hwrite⟩

/-- The end of a run with a pending group. -/
theorem finishHistory_eq_ok (hpending : s.pending = some (groupOf p latest)) :
    finishHistory s = .ok r ↔ ∃ out out', closeOut latest s.out = .ok out ∧
      out.flush = .ok out' ∧ r = (out'.blocks, s.stats.close latest) := by
  unfold finishHistory
  rw [hpending]
  dsimp only [groupOf]
  rw [flushGroup_eq, bind_eq_ok]
  constructor
  · rintro ⟨q, hq, h⟩
    obtain ⟨out, hout, rfl⟩ := map_eq_ok.mp hq
    obtain ⟨out', hflush, h⟩ := bind_eq_ok.mp h
    cases h
    exact ⟨out, out', hout, mapError_eq_ok.mp hflush, rfl⟩
  · rintro ⟨out, out', hout, hflush, rfl⟩
    exact ⟨_, map_eq_ok.mpr ⟨out, hout, rfl⟩, bind_eq_ok.mpr ⟨out', mapError_eq_ok.mpr hflush, rfl⟩⟩

/-- The elements behind an element, folded and finished. -/
def finish (cutoff : Int64) (s : HistoryState) (es : List Element) : Except Error Report :=
  es.foldlM (historyStep cutoff) s >>= finishHistory

lemma finish_cons_eq_ok : finish cutoff s (e :: es) = .ok r ↔
      ∃ s', historyStep cutoff s e = .ok s' ∧ finish cutoff s' es = .ok r := by
  unfold finish
  rw [foldlM_cons]
  constructor
  · intro h
    obtain ⟨s₁, hs₁, h⟩ := bind_eq_ok.mp h
    obtain ⟨s', hs', hs₁⟩ := bind_eq_ok.mp hs₁
    exact ⟨s', hs', bind_eq_ok.mpr ⟨s₁, hs₁, h⟩⟩
  · rintro ⟨s', hs', h⟩
    obtain ⟨s₁, hs₁, h⟩ := bind_eq_ok.mp h
    exact bind_eq_ok.mpr ⟨s₁, bind_eq_ok.mpr ⟨s', hs', hs₁⟩, h⟩

/-- What a run that succeeds has read, written and counted. -/
theorem finish_ok (hpending : s.pending = some (groupOf p latest)) (hout : Holds s.out adds)
    (hfinish : finish cutoff s es = .ok r) :
    (p :: es).IsChain Follows ∧ (∀ e ∈ es, Readable cutoff e) ∧
      (∀ a ∈ adds ++ written (closings cutoff p latest es), Encodable a) ∧
      r.1.flatten = adds ++ written (closings cutoff p latest es) ∧
      r.2 = tallied cutoff s.stats es (closings cutoff p latest es) := by
  induction es generalizing p latest s adds with
  | nil =>
    obtain ⟨out, out', hclose, hflush, rfl⟩ := (finishHistory_eq_ok hpending).mp hfinish
    obtain ⟨hes, -, -, hblocks⟩ := (closeOut_holds hout hclose).flush hflush
    exact ⟨.singleton p, by simp, hes, hblocks, (tallied_nil _ _ _).symm⟩
  | cons e es ih =>
    obtain ⟨s', hstep, hrest⟩ := finish_cons_eq_ok.mp hfinish
    obtain ⟨hread, hfollows, hcase⟩ := (historyStep_eq_ok hpending).mp hstep
    rcases hcase with ⟨hsame, rfl⟩ | ⟨hne, out, hclose, rfl⟩
    · obtain ⟨hchain, hreads, hes, hblocks, hstats⟩ := ih (s := ⟨s.out, _, _⟩) rfl hout hrest
      refine ⟨.cons_cons hfollows hchain, forall_mem_cons.mpr ⟨hread, hreads⟩, ?_⟩
      rw [closings, if_pos hsame]
      exact ⟨hes, hblocks, hstats.trans (tallied_cons _ _ _ _ _)⟩
    · have hholds := closeOut_holds hout hclose
      obtain ⟨hchain, hreads, hes, hblocks, hstats⟩ := ih (s := ⟨out, _, _⟩) rfl hholds hrest
      refine ⟨.cons_cons hfollows hchain, forall_mem_cons.mpr ⟨hread, hreads⟩, ?_⟩
      rw [closings, if_neg hne, written_cons, ← append_assoc]
      refine ⟨hes, hblocks, hstats.trans ?_⟩
      rw [tallied_cons, tallied_close]

/-- An input that ascends and resolves, and whose output encodes, is read to its end. -/
theorem finish_total (hpending : s.pending = some (groupOf p latest)) (hout : Holds s.out adds)
    (hchain : (p :: es).IsChain Follows) (hreads : ∀ e ∈ es, Readable cutoff e)
    (hes : ∀ a ∈ adds ++ written (closings cutoff p latest es), Encodable a) :
    ∃ r, finish cutoff s es = .ok r := by
  induction es generalizing p latest s adds with
  | nil =>
    have hadds : ∀ a ∈ adds, Encodable a := fun a ha => hes a (mem_append_left _ ha)
    obtain ⟨out, hclose⟩ := @closeOut_ok latest _ _ hout hadds
    obtain ⟨out', hflush⟩ := (closeOut_holds hout hclose).flush_ok hes
    exact ⟨_, (finishHistory_eq_ok hpending).mpr ⟨out, out', hclose, hflush, rfl⟩⟩
  | cons e es ih =>
    rw [isChain_cons_cons] at hchain
    rw [forall_mem_cons] at hreads
    by_cases hsame : key e = key p
    · rw [closings, if_pos hsame] at hes
      obtain ⟨r, hr⟩ := ih (s := ⟨s.out, saw cutoff s.stats e, _⟩) rfl hout hchain.2 hreads.2 hes
      exact ⟨r, finish_cons_eq_ok.mpr
        ⟨_, (historyStep_eq_ok hpending).mpr ⟨hreads.1, hchain.1, .inl ⟨hsame, rfl⟩⟩, hr⟩⟩
    · rw [closings, if_neg hsame, written_cons, ← append_assoc] at hes
      have hadds : ∀ a ∈ adds, Encodable a := fun a ha =>
        hes a (mem_append_left _ (mem_append_left _ ha))
      obtain ⟨out, hclose⟩ := @closeOut_ok latest _ _ hout hadds
      obtain ⟨r, hr⟩ := ih (s := ⟨out, saw cutoff (s.stats.close latest) e, _⟩) rfl
        (closeOut_holds hout hclose) hchain.2 hreads.2 hes
      exact ⟨r, finish_cons_eq_ok.mpr
        ⟨_, (historyStep_eq_ok hpending).mpr ⟨hreads.1, hchain.1, .inr ⟨hsame, out, hclose, rfl⟩⟩,
          hr⟩⟩

/-- What the objects of an input hand over. -/
def closed (cutoff : Int64) : List Element → List (Option OwnedElement)
  | [] => []
  | e :: es => closings cutoff e (if before cutoff e then owned e else none) es

/-- The first element starts the first group. -/
theorem historyStep_start :
    historyStep cutoff {} e = .ok s' ↔ Readable cutoff e ∧
      s' = ⟨{}, saw cutoff {} e, some (groupOf e (if before cutoff e then owned e else none))⟩ := by
  unfold historyStep elementIdentityAndTimestamp
  rw [bind_eq_ok]
  constructor
  · rintro ⟨q, hq, h⟩
    obtain ⟨t, ht, rfl⟩ := map_eq_ok.mp hq
    rw [requireTimestamp_eq_ok] at ht
    obtain ⟨hresolves, rfl⟩ := (keepLatest_eq_ok ht rfl).mp h
    exact ⟨⟨⟨t, ht⟩, hresolves⟩, rfl⟩
  · rintro ⟨⟨⟨t, ht⟩, hresolves⟩, rfl⟩
    exact ⟨_, map_eq_ok.mpr ⟨t, requireTimestamp_eq_ok.mpr ht, rfl⟩,
      (keepLatest_eq_ok ht rfl).mpr ⟨hresolves, rfl⟩⟩

/-- Where the blocks are cut makes no difference. -/
theorem timeFilterHistory_eq (cutoff : Int64) (blocks : List (List Element)) :
    timeFilterHistory cutoff blocks = finish cutoff {} blocks.flatten := by
  unfold timeFilterHistory finish
  rw [foldlM_flatten]

/-- What a run that succeeds has read, written and counted. -/
theorem timeFilterHistory_ok {blocks : List (List Element)}
    (h : timeFilterHistory cutoff blocks = .ok r) :
    blocks.flatten.IsChain Follows ∧ (∀ e ∈ blocks.flatten, Readable cutoff e) ∧
      (∀ a ∈ written (closed cutoff blocks.flatten), Encodable a) ∧
      r.1.flatten = written (closed cutoff blocks.flatten) ∧
      r.2 = tallied cutoff {} blocks.flatten (closed cutoff blocks.flatten) := by
  rw [timeFilterHistory_eq] at h
  cases hes : blocks.flatten with
  | nil =>
    rw [hes] at h
    cases h
    exact ⟨.nil, by simp, by simp [closed, written, reduceOption], rfl, rfl⟩
  | cons e es =>
    rw [hes] at h
    obtain ⟨s', hstep, hrest⟩ := finish_cons_eq_ok.mp h
    obtain ⟨hread, rfl⟩ := historyStep_start.mp hstep
    obtain ⟨hchain, hreads, hencodes, hblocks, hstats⟩ :=
      finish_ok (s := ⟨{}, _, _⟩) rfl holds_new hrest
    exact ⟨hchain, forall_mem_cons.mpr ⟨hread, hreads⟩, hencodes, hblocks,
      hstats.trans (tallied_cons _ _ _ _ _)⟩

lemma timeFilterHistory_total {blocks : List (List Element)}
    (hchain : blocks.flatten.IsChain Follows) (hreads : ∀ e ∈ blocks.flatten, Readable cutoff e)
    (hes : ∀ a ∈ written (closed cutoff blocks.flatten), Encodable a) :
    ∃ r, timeFilterHistory cutoff blocks = .ok r := by
  rw [timeFilterHistory_eq]
  cases hflat : blocks.flatten with
  | nil => exact ⟨_, rfl⟩
  | cons e es =>
    rw [hflat] at hchain hreads hes
    rw [forall_mem_cons] at hreads
    obtain ⟨r, hr⟩ :=
      finish_total (s := ⟨{}, saw cutoff {} e, _⟩) rfl holds_new hchain hreads.2 hes
    exact ⟨r, finish_cons_eq_ok.mpr ⟨_, historyStep_start.mpr ⟨hreads.1, rfl⟩, hr⟩⟩

end HistoryRuns
