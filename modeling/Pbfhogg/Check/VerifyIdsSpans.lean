import Pbfhogg.Check.VerifyIdsPhases

/-!
# Where the kinds of a file stand

Spans widened in the order of completion are the first and the last position of a kind, and two of
them show an inversion just when some element of the lower kind comes after one of the higher.
-/

namespace VerifyIds

open OsmId List

section Spans

variable {K : Type} [LinearOrder K] {P Q : K → Prop} {span : Option (K × K)} {first last : K}

/-- The span reaches from the first to the last position with the property. -/
def IsSpan (P : K → Prop) : Option (K × K) → Prop
  | none => ∀ p, ¬ P p
  | some (lo, hi) => P lo ∧ P hi ∧ ∀ p, P p → lo ≤ p ∧ p ≤ hi

lemma IsSpan.congr (h : IsSpan P span) (hPQ : ∀ p, P p ↔ Q p) : IsSpan Q span := by
  have heq : P = Q := funext fun p => propext (hPQ p)
  exact heq ▸ h

lemma isSpan_none : IsSpan (fun _ : K => False) none := fun _ h => h

lemma IsSpan.widen (h : IsSpan P span) (h' : IsSpan Q (some (first, last))) :
    IsSpan (fun p => P p ∨ Q p) (VerifyIds.widen span first last) := by
  obtain ⟨hfirst, hlast, hall⟩ := h'
  cases span with
  | none =>
    refine ⟨.inr hfirst, .inr hlast, ?_⟩
    rintro p (hp | hp)
    · exact absurd hp (h p)
    · exact hall p hp
  | some x =>
    obtain ⟨lo, hi⟩ := x
    obtain ⟨hlo, hhi, hbefore⟩ := h
    refine ⟨?_, ?_, ?_⟩
    · rcases min_choice lo first with hmin | hmin
      · exact .inl (hmin.symm ▸ hlo)
      · exact .inr (hmin.symm ▸ hfirst)
    · rcases max_choice hi last with hmax | hmax
      · exact .inl (hmax.symm ▸ hhi)
      · exact .inr (hmax.symm ▸ hlast)
    · rintro p (hp | hp)
      · exact ⟨(min_le_left _ _).trans (hbefore p hp).1, (hbefore p hp).2.trans (le_max_left _ _)⟩
      · exact ⟨(min_le_right _ _).trans (hall p hp).1, (hall p hp).2.trans (le_max_right _ _)⟩

lemma isSpan_point (p : K) : IsSpan (· = p) (some (p, p)) :=
  ⟨rfl, rfl, fun _ h => h ▸ ⟨le_rfl, le_rfl⟩⟩

/-- What two spans show. -/
theorem pastFirst_iff {at_ : ElementKind → K → Prop} {spans : KindSpans K}
    (h : ∀ k, IsSpan (at_ k) (spans k)) (lower higher : ElementKind) :
    pastFirst spans lower higher = true ↔ ∃ p q, at_ higher p ∧ at_ lower q ∧ p < q := by
  have hl := h lower
  have hh := h higher
  unfold pastFirst
  cases hlower : spans lower with
  | none =>
    rw [hlower] at hl
    refine ⟨fun hfalse => absurd hfalse Bool.false_ne_true, ?_⟩
    rintro ⟨p, q, -, hq, -⟩
    exact absurd hq (hl q)
  | some x =>
    cases hhigher : spans higher with
    | none =>
      rw [hhigher] at hh
      refine ⟨fun hfalse => absurd hfalse Bool.false_ne_true, ?_⟩
      rintro ⟨p, q, hp, -, -⟩
      exact absurd hp (hh p)
    | some y =>
      rw [hlower] at hl
      rw [hhigher] at hh
      refine decide_eq_true_iff.trans ⟨fun hlt => ⟨_, _, hh.1, hl.2.1, hlt⟩, ?_⟩
      rintro ⟨p, q, hp, hq, hlt⟩
      exact lt_of_le_of_lt (hh.2.2 p hp).1 (lt_of_lt_of_le hlt (hl.2.2 q hq).2)

end Spans

lemma isSpan_foldl (schedule : List ScheduledBlob) {P : Nat → Prop} {span : Option (Nat × Nat)}
    (h : IsSpan P span) : IsSpan (fun p => P p ∨ ∃ b ∈ schedule, b.frameStart = p)
      (schedule.foldl (fun span b => widen span b.frameStart b.frameStart) span) := by
  induction schedule generalizing P span with
  | nil => exact h.congr fun p => by simp
  | cons b schedule ih =>
    refine (ih (h.widen (isSpan_point b.frameStart))).congr fun p => ?_
    rw [exists_mem_cons_iff, or_assoc, eq_comm]

lemma isSpan_schedule (schedule : List ScheduledBlob) :
    IsSpan (fun p => ∃ b ∈ schedule, b.frameStart = p) (scheduleSpan schedule) :=
  (isSpan_foldl schedule isSpan_none).congr fun _ => by simp

/-- Some blob that claims the lower kind comes after one that claims the higher. -/
def claimsInverted (blobs : List ScheduledBlob) (lower higher : ElementKind) : Bool :=
  !decide (blobs.Pairwise fun earlier later =>
    ¬ (earlier.claim = some higher ∧ later.claim = some lower))

variable {blobs : List ScheduledBlob}

lemma pastFirst_claims (hasc : (blobs.map ScheduledBlob.frameStart).Pairwise (· < ·))
    (lower higher : ElementKind) :
    pastFirst (fun k => scheduleSpan (claiming blobs k)) lower higher =
      claimsInverted blobs lower higher := by
  have hspan := pastFirst_iff (fun k => isSpan_schedule (claiming blobs k)) lower higher
  rw [pairwise_map, pairwise_iff_getElem] at hasc
  rw [Bool.eq_iff_iff, hspan, claimsInverted, Bool.not_eq_true', decide_eq_false_iff_not,
    pairwise_iff_getElem]
  constructor
  · rintro ⟨p, q, ⟨b, hb, rfl⟩, ⟨b', hb', rfl⟩, hlt⟩ hall
    obtain ⟨hmem, hclaim⟩ := mem_filter.mp hb
    obtain ⟨hmem', hclaim'⟩ := mem_filter.mp hb'
    obtain ⟨i, hi, rfl⟩ := mem_iff_getElem.mp hmem
    obtain ⟨j, hj, rfl⟩ := mem_iff_getElem.mp hmem'
    rcases Nat.lt_trichotomy i j with hij | rfl | hij
    · exact hall i j hi hj hij ⟨of_decide_eq_true hclaim, of_decide_eq_true hclaim'⟩
    · exact lt_irrefl _ hlt
    · exact lt_asymm hlt (hasc j i hj hi hij)
  · intro hnot
    push Not at hnot
    obtain ⟨i, j, hi, hj, hij, hclaim, hclaim'⟩ := hnot
    exact ⟨_, _, ⟨blobs[i], mem_filter.mpr ⟨getElem_mem hi, decide_eq_true hclaim⟩, rfl⟩,
      ⟨blobs[j], mem_filter.mpr ⟨getElem_mem hj, decide_eq_true hclaim'⟩, rfl⟩, hasc i j hi hj hij⟩

variable (groups : List Group)

/-- Some group that holds the lower kind comes after one that holds the higher. -/
def groupsInverted (lower higher : ElementKind) : Bool :=
  !decide (groups.Pairwise fun (earlier later : Group) =>
    ¬ (earlier.has higher = true ∧ later.has lower = true))

/-- A group of the kind stands at the position. -/
def HoldsAt (blobs : List ScheduledBlob) (k : ElementKind) (p : Position) : Prop :=
  ∃ b, blobs[(ofLex p).1]? = some b ∧ ∃ g, b.groups[(ofLex p).2]? = some g ∧ g.has k = true

lemma holdsAt_inverted (blobs : List ScheduledBlob) (lower higher : ElementKind) :
    (∃ p q, HoldsAt blobs higher p ∧ HoldsAt blobs lower q ∧ p < q) ↔
      groupsInverted (blobs.flatMap ScheduledBlob.groups) lower higher = true := by
  rw [groupsInverted, Bool.not_eq_true', decide_eq_false_iff_not, pairwise_flatMap]
  constructor
  · rintro ⟨p, q, ⟨b, hb, g, hg, hhas⟩, ⟨b', hb', g', hg', hhas'⟩, hlt⟩ ⟨hinside, hacross⟩
    rw [pairwise_iff_getElem] at hacross
    obtain ⟨hi, rfl⟩ := List.getElem?_eq_some_iff.mp hb
    obtain ⟨hj, rfl⟩ := List.getElem?_eq_some_iff.mp hb'
    rcases Prod.Lex.lt_iff.mp hlt with hij | ⟨heq, hij⟩
    · exact hacross _ _ hi hj hij g (mem_of_getElem? hg) g' (mem_of_getElem? hg')
        ⟨hhas, hhas'⟩
    · have hone := hinside _ (getElem_mem hi)
      rw [pairwise_iff_getElem] at hone
      obtain ⟨hm, rfl⟩ := List.getElem?_eq_some_iff.mp hg
      simp only [← heq] at hg'
      obtain ⟨hn, rfl⟩ := List.getElem?_eq_some_iff.mp hg'
      exact hone _ _ hm hn hij ⟨hhas, hhas'⟩
  · intro hnot
    by_contra hnone
    refine hnot ⟨fun b hb => ?_, ?_⟩
    · obtain ⟨i, hi, rfl⟩ := mem_iff_getElem.mp hb
      refine pairwise_iff_getElem.mpr fun m n hm hn hmn hboth => hnone ?_
      exact ⟨toLex (i, m), toLex (i, n),
        ⟨_, getElem?_eq_getElem hi, _, getElem?_eq_getElem hm, hboth.1⟩,
        ⟨_, getElem?_eq_getElem hi, _, getElem?_eq_getElem hn, hboth.2⟩,
        Prod.Lex.lt_iff.mpr (.inr ⟨rfl, hmn⟩)⟩
    · refine pairwise_iff_getElem.mpr fun i j hi hj hij g hg g' hg' hboth => hnone ?_
      obtain ⟨m, hm, rfl⟩ := mem_iff_getElem.mp hg
      obtain ⟨n, hn, rfl⟩ := mem_iff_getElem.mp hg'
      exact ⟨toLex (i, m), toLex (j, n),
        ⟨_, getElem?_eq_getElem hi, _, getElem?_eq_getElem hm, hboth.1⟩,
        ⟨_, getElem?_eq_getElem hj, _, getElem?_eq_getElem hn, hboth.2⟩,
        Prod.Lex.lt_iff.mpr (.inl hij)⟩

lemma groupEnd_group (s : GroupKinds) (g : Group) : (s.groupEnd g).group = s.group + 1 := rfl

variable (k : ElementKind)

lemma isSpan_groupEnd {P : Nat → Prop} {s : GroupKinds} (h : IsSpan P (s.spans k)) :
    IsSpan (fun p => P p ∨ ∃ (i : Nat) (g : Group), groups[i]? = some g ∧ g.has k = true ∧
        p = s.group + i) ((groups.foldl GroupKinds.groupEnd s).spans k) := by
  induction groups generalizing P s with
  | nil => exact h.congr fun p => by simp
  | cons g groups ih =>
    have hone : IsSpan (fun p => P p ∨ (g.has k = true ∧ p = s.group)) ((s.groupEnd g).spans k) := by
      by_cases hk : g.has k = true
      · simp only [GroupKinds.groupEnd, hk, if_true]
        exact (h.widen (isSpan_point s.group)).congr fun p => by simp
      · simp only [GroupKinds.groupEnd, hk]
        exact h.congr fun p => by simp
    refine (ih hone).congr fun p => ?_
    rw [or_assoc]
    refine or_congr_right ?_
    constructor
    · rintro (⟨hk, hp⟩ | ⟨i, g', hg', hk, hp⟩)
      · exact ⟨0, g, rfl, hk, hp⟩
      · refine ⟨i + 1, g', hg', hk, ?_⟩
        rw [hp, groupEnd_group]
        omega
    · rintro ⟨i, g', hg', hk, hp⟩
      cases i with
      | zero =>
        cases hg'
        exact .inl ⟨hk, hp⟩
      | succ i =>
        refine .inr ⟨i, g', hg', hk, ?_⟩
        rw [hp, groupEnd_group]
        omega

lemma isSpan_groups : IsSpan (fun p => ∃ g, groups[p]? = some g ∧ g.has k = true)
      ((groups.foldl GroupKinds.groupEnd {}).spans k) := by
  have hstart : IsSpan (fun _ : Nat => False) (({} : GroupKinds).spans k) := isSpan_none
  refine (isSpan_groupEnd groups k hstart).congr fun p => ?_
  simp only [false_or]
  constructor
  · rintro ⟨i, g, hg, hk, hp⟩
    have hpi : p = i := hp.trans (Nat.zero_add i)
    exact ⟨g, hpi ▸ hg, hk⟩
  · rintro ⟨g, hg, hk⟩
    exact ⟨p, g, hg, hk, (Nat.zero_add p).symm⟩

/-- One blob's spans, read under its place in the file. -/
theorem isSpan_arrive {u : Unindexed} {x : Nat × UnindexedResult} {groups : List Group}
    {P : Position → Prop}
    (hx : x.2.groups = (groups.foldl GroupKinds.groupEnd {}).spans) (h : IsSpan P (u.spans k)) :
    IsSpan (fun p => P p ∨ ((ofLex p).1 = x.1 ∧ ∃ g, groups[(ofLex p).2]? = some g ∧ g.has k = true))
      ((u.arrive x.1 x.2).spans k) := by
  have hgroups := isSpan_groups groups k
  rw [← hx] at hgroups
  simp only [Unindexed.arrive]
  cases hspan : x.2.groups k with
  | none =>
    rw [hspan] at hgroups
    refine h.congr fun p => ⟨.inl, ?_⟩
    rintro (hp | ⟨-, hp⟩)
    · exact hp
    · exact absurd hp (hgroups _)
  | some y =>
    obtain ⟨first, last⟩ := y
    rw [hspan] at hgroups
    obtain ⟨hfirst, hlast, hall⟩ := hgroups
    refine h.widen ⟨⟨rfl, hfirst⟩, ⟨rfl, hlast⟩, ?_⟩
    rintro p ⟨hseq, hp⟩
    obtain ⟨hlo, hhi⟩ := hall _ hp
    refine ⟨Prod.Lex.le_iff.mpr (.inr ⟨hseq.symm, hlo⟩), Prod.Lex.le_iff.mpr (.inr ⟨hseq, hhi⟩)⟩

/-- The spans of the pass, whatever the order of arrival. -/
theorem isSpan_unindexed {merged : List (Nat × UnindexedResult)}
    (hplaces : (merged.map Prod.fst).Perm (range blobs.length))
    (hmerged : ∀ x ∈ merged, ∃ b, blobs[x.1]? = some b ∧
      x.2.groups = (b.groups.foldl GroupKinds.groupEnd {}).spans)
    {u : Unindexed} (hu : u.spans k = none) :
    IsSpan (HoldsAt blobs k) ((merged.foldl (fun u x => u.arrive x.1 x.2) u).spans k) := by
  have hgen : ∀ (xs : List (Nat × UnindexedResult)) (u : Unindexed) (P : Position → Prop),
      (∀ x ∈ xs, x ∈ merged) → IsSpan P (u.spans k) →
      IsSpan (fun p => P p ∨ ∃ x ∈ xs, x.1 = (ofLex p).1 ∧ HoldsAt blobs k p)
        ((xs.foldl (fun u x => u.arrive x.1 x.2) u).spans k) := by
    intro xs
    induction xs with
    | nil => exact fun u P _ h => h.congr fun p => by simp
    | cons x xs ih =>
      intro u P hsub h
      obtain ⟨b, hb, hx⟩ := hmerged x (hsub x mem_cons_self)
      refine (ih (u.arrive x.1 x.2) _ (fun y hy => hsub y (mem_cons_of_mem _ hy))
        (isSpan_arrive k hx h)).congr fun p => ?_
      rw [or_assoc, exists_mem_cons_iff]
      refine or_congr_right (or_congr_left ?_)
      constructor
      · rintro ⟨hp, hg⟩
        exact ⟨hp.symm, b, hp ▸ hb, hg⟩
      · rintro ⟨hp, b', hb', hg⟩
        rw [← hp] at hb'
        cases hb.symm.trans hb'
        exact ⟨hp.symm, hg⟩
  have hstart : IsSpan (fun _ : Position => False) (u.spans k) := hu ▸ isSpan_none
  refine (hgen merged u _ (fun _ h => h) hstart).congr fun p => ?_
  simp only [false_or]
  constructor
  · rintro ⟨x, -, -, h⟩
    exact h
  · intro h
    obtain ⟨b, hb, -⟩ := id h
    have hmem : (ofLex p).1 ∈ merged.map Prod.fst :=
      hplaces.mem_iff.mpr (List.mem_range.mpr (List.getElem?_eq_some_iff.mp hb).1)
    obtain ⟨x, hx, hxp⟩ := List.mem_map.mp hmem
    exact ⟨x, hx, hxp, h⟩

lemma pastFirst_groups {spans : KindSpans Position}
    (h : ∀ k, IsSpan (HoldsAt blobs k) (spans k)) (lower higher : ElementKind) :
    pastFirst spans lower higher =
      groupsInverted (blobs.flatMap ScheduledBlob.groups) lower higher := by
  rw [Bool.eq_iff_iff, pastFirst_iff h, holdsAt_inverted]

end VerifyIds
