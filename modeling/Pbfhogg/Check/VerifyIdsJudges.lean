import Mathlib.Data.Finset.Card
import Pbfhogg.Check.VerifyIds

/-!
# Judging the ids of a kind

What a worker's judgement of a blob says of the blob's ids, whatever the shared sets answer, and what
the answers of a whole phase add up to.
-/

namespace VerifyIds

open OsmId SharedPool IdSpace List

variable (ids : List Int64)

/-- How many neighbours do not strictly ascend. -/
def descents : Nat := (ids.zip ids.tail).countP fun x => notAfter x.2 x.1

def nonNegative : List Int64 := ids.filter fun id => decide (0 ≤ id.toInt)

/-- The occurrences of a non-negative id beyond its first. -/
def repeats : Nat := (nonNegative ids).length - (nonNegative ids).dedup.length

def negatives : Nat := ids.countP fun id => decide (id.toInt < 0)

/-- The step from one run of ids to the next. -/
def bridge (prev next : Option Int64) : Nat :=
  match prev, next with
  | some p, some id => if notAfter id p then 1 else 0
  | _, _ => 0

@[simp] lemma bridge_none_left (next : Option Int64) : bridge none next = 0 := rfl

@[simp] lemma bridge_none_right (prev : Option Int64) : bridge prev none = 0 := by
  cases prev <;> rfl

lemma descents_cons (x : Int64) (ys : List Int64) :
    descents (x :: ys) = bridge (some x) ys.head? + descents ys := by
  cases ys with
  | nil => rfl
  | cons y ys =>
    simp only [descents, tail_cons, zip_cons_cons, countP_cons, head?_cons, bridge]
    omega

lemma descents_append (xs ys : List Int64) :
    descents (xs ++ ys) = descents xs + bridge xs.getLast? ys.head? + descents ys := by
  induction xs with
  | nil => simp [descents]
  | cons x xs ih =>
    rw [cons_append, descents_cons, descents_cons, ih]
    cases xs with
    | nil =>
      simp [descents]
    | cons y xs =>
      simp only [cons_append, head?_cons, getLast?_cons_cons]
      omega

/-- Repeats are counted apart on both sides of a test. -/
theorem length_dedup_filter (p : Int64 → Bool) (ids : List Int64) :
    (ids.filter p).dedup.length + (ids.filter fun id => !p id).dedup.length = ids.dedup.length := by
  have hcard : ∀ l : List Int64, l.dedup.length = l.toFinset.card :=
    fun l => (card_toFinset l).symm
  have hnot : (ids.filter fun id => !p id).toFinset = ids.toFinset.filter fun id => ¬ p id = true := by
    ext id
    simp
  rw [hcard, hcard, hcard, hnot, toFinset_filter]
  exact Finset.card_filter_add_card_filter_not _

variable (k : ElementKind) (t : List (SetOp × Bool))

/-- The ids of a kind whose bit was asked for. -/
def asked : List Int64 :=
  t.filterMap fun
    | (.fetchOr k' id, _) => if k' = k then some id else none
    | (.denseForAtomic _ _, _) => none

/-- Those whose bit was set before. -/
def refused : List Int64 :=
  t.filterMap fun
    | (.fetchOr k' id, false) => if k' = k then some id else none
    | _ => none

lemma asked_append (t t' : List (SetOp × Bool)) :
    asked k (t ++ t') = asked k t ++ asked k t' := filterMap_append ..

lemma refused_append (t t' : List (SetOp × Bool)) :
    refused k (t ++ t') = refused k t ++ refused k t' := filterMap_append ..

lemma refused_le_asked : (refused k t).length ≤ (asked k t).length := by
  induction t with
  | nil => exact le_rfl
  | cons x t ih =>
    obtain ⟨o, b⟩ := x
    cases o with
    | denseForAtomic k' id => simpa [asked, refused] using ih
    | fetchOr k' id =>
      simp only [asked, refused] at ih
      by_cases hk : k' = k
      · cases b with
        | false => simpa [asked, refused, hk] using ih
        | true => simpa [asked, refused, hk] using Nat.le_succ_of_le ih
      · cases b <;> simpa [asked, refused, hk] using ih

/-- Whether the pre-allocation of a kind reaches an id. -/
def Sets.covers (s : Sets) (k : ElementKind) (id : Int64) : Bool :=
  (s k).any fun set => set.covers id

lemma nonneg_of_covers {s : Sets} {k : ElementKind} {id : Int64} (h : s.covers k id = true) :
    0 ≤ id.toInt := by
  unfold Sets.covers at h
  cases hk : s k with
  | none => simp [hk] at h
  | some set =>
    rw [hk, Option.any_some] at h
    unfold IdSet.covers at h
    split at h
    · cases h
    · exact (of_decide_eq_true h).1

/-- What the shared sets answer when their pre-allocation reaches the ids of `cov`. -/
def Contract (cov : ElementKind → Int64 → Bool) : SetOp → Bool → Prop
  | .denseForAtomic k id, b => b = cov k id
  | .fetchOr _ _, _ => True

lemma covers_set (s : IdSet) (id x : Int64) : (s.set id).covers x = s.covers x := by
  unfold IdSet.covers
  rw [IdSet.preAllocated_set]

lemma answer_other {s : Sets} {k k' : ElementKind} {id : Int64} (h : k' ≠ k) :
    (s.answer (.fetchOr k id)).2 k' = s k' := by
  simp only [Sets.answer]
  cases s k with
  | none => rfl
  | some set => exact Function.update_of_ne h _ _

lemma covers_answer (s : Sets) (o : SetOp) : (s.answer o).2.covers = s.covers := by
  cases o with
  | denseForAtomic k id => rfl
  | fetchOr k id =>
    funext k' x
    by_cases hkk : k' = k
    · subst hkk
      simp only [Sets.answer, Sets.covers]
      cases hk : s k' with
      | none => simp [hk]
      | some set => simp [covers_set]
    · simp only [Sets.covers, answer_other hkk]

lemma contract_of_exec {s s' : Sets} {history : List (SetOp × Bool)}
    (h : Exec sharedSets s history s') :
    s'.covers = s.covers ∧ ∀ x ∈ history, Contract s.covers x.1 x.2 := by
  induction h with
  | refl => exact ⟨rfl, by simp⟩
  | snoc hrun hstep ih =>
    rename_i s₁ s₂ hist o b
    obtain ⟨hcov, hall⟩ := ih
    change s₁.answer o = (b, s₂) at hstep
    have hs₂ : s₂ = (s₁.answer o).2 := by rw [hstep]
    have hb : b = (s₁.answer o).1 := by rw [hstep]
    refine ⟨by rw [hs₂, covers_answer, hcov], fun x hx => ?_⟩
    rcases mem_append.mp hx with hx | hx
    · exact hall x hx
    · rw [mem_singleton.mp hx]
      cases o with
      | denseForAtomic k id => exact hb.trans (congrFun (congrFun hcov k) id)
      | fetchOr k id => exact trivial

lemma length_set {s : IdSet} {id : Int64} (hid : 0 ≤ id.toInt) :
    (s.set id).ids.length = s.ids.length + if s.get id then 0 else 1 := by
  unfold IdSet.set IdSet.get
  by_cases hmem : id ∈ s.ids
  · simp [hmem]
  · simp [hid, hmem]

/-- Every bit of a kind's set was refused to all but the first of its askers. -/
theorem refused_of_exec {s s' : Sets} {k : ElementKind} {set : IdSet}
    {history : List (SetOp × Bool)} (h : Exec sharedSets s history s') (hset : s k = some set)
    (hempty : set.ids = []) (hpos : ∀ id ∈ asked k history, 0 ≤ id.toInt) :
    ∃ set', s' k = some set' ∧ (∀ x, x ∈ set'.ids ↔ x ∈ asked k history) ∧
      (refused k history).length + set'.ids.length = (asked k history).length := by
  induction h with
  | refl => exact ⟨set, hset, by simp [hempty, asked], by simp [hempty, asked, refused]⟩
  | snoc hrun hstep ih =>
    rename_i s₁ s₂ hist o b
    change s₁.answer o = (b, s₂) at hstep
    rw [asked_append] at hpos
    obtain ⟨set', hs₁, hmem, hcount⟩ := ih fun id hid => hpos id (mem_append_left _ hid)
    rw [asked_append, refused_append]
    cases o with
    | denseForAtomic k' id =>
      have hs₂ : s₂ = s₁ := (congrArg Prod.snd hstep).symm
      rw [hs₂]
      refine ⟨set', hs₁, ?_, ?_⟩
      · simpa [asked] using hmem
      · simpa [asked, refused] using hcount
    | fetchOr k' id =>
      by_cases hk : k' = k
      · subst hk
        have hnow : 0 ≤ id.toInt := hpos id (mem_append_right _ (by simp [asked]))
        simp only [Sets.answer, hs₁, Prod.mk.injEq] at hstep
        obtain ⟨hb, rfl⟩ := hstep
        refine ⟨set'.set id, Function.update_self .., fun x => ?_, ?_⟩
        · rw [IdSet.mem_set, hmem, mem_append]
          refine or_congr_right ?_
          simp only [asked, filterMap_cons, if_true, filterMap_nil, mem_singleton]
          exact ⟨And.left, fun hx => ⟨hx, hnow⟩⟩
        · have hlen := @length_set set' id hnow
          cases hget : set'.get id with
          | true =>
            simp only [hget, Bool.not_true] at hb
            subst hb
            simp only [hget, if_true] at hlen
            simp only [asked, refused, filterMap_cons, filterMap_nil, if_true,
              length_append, length_singleton] at hcount ⊢
            omega
          | false =>
            simp only [hget, Bool.not_false] at hb
            subst hb
            simp only [hget, Bool.false_eq_true, if_false] at hlen
            simp only [asked, refused, filterMap_cons, filterMap_nil, if_true,
              length_append, length_singleton, length_nil] at hcount ⊢
            omega
      · have hs₂ : s₂ k = some set' := by
          have h₂ : s₂ = (s₁.answer (.fetchOr k' id)).2 := by rw [hstep]
          rw [h₂, answer_other (Ne.symm hk), hs₁]
        refine ⟨set', hs₂, ?_, ?_⟩
        · simpa [asked, hk] using hmem
        · cases b <;> simpa [asked, refused, hk] using hcount

/-- What a judgement says of the ids it was pushed, with the answers it got. -/
structure Judged (cov : Int64 → Bool) (full : Bool) (k : ElementKind) (ids : List Int64)
    (t : List (SetOp × Bool)) (r : BlobVerifyResult) : Prop where
  count : r.count = ids.length
  first : r.firstId = ids.head?
  last : r.lastId = ids.getLast?
  within : r.withinViolations.length = descents ids
  outOfRange : r.outOfRangeIds = if full then ids.filter fun id => !cov id else []
  asked : asked k t = if full then ids.filter cov else []
  duplicates : r.duplicateIds = refused k t

/-- A judge on its way. -/
structure Judging (cov : Int64 → Bool) (full : Bool) (k : ElementKind) (ids : List Int64)
    (t : List (SetOp × Bool)) (judge : KindJudge) : Prop
    extends Judged cov full k ids t judge.r where
  prev : judge.prev = judge.r.lastId

lemma judging_new (cov : Int64 → Bool) (full : Bool) (k : ElementKind) :
    Judging cov full k [] [] (KindJudge.new k) := by
  refine ⟨⟨rfl, rfl, rfl, rfl, ?_, ?_, rfl⟩, rfl⟩
  · cases full <;> rfl
  · cases full <;> rfl

/-- Nothing of the kind was asked. -/
def Silent : Prop := asked k t = [] ∧ refused k t = []

lemma silent_nil : Silent k [] := ⟨rfl, rfl⟩

lemma Judging.silent {cov : Int64 → Bool} {full : Bool} {k : ElementKind} {ids : List Int64}
    {t t' : List (SetOp × Bool)} {judge : KindJudge} (h : Judging cov full k ids t judge)
    (hs : Silent k t') : Judging cov full k ids (t ++ t') judge :=
  { h with
    asked := by rw [asked_append, hs.1, append_nil, h.asked]
    duplicates := by rw [refused_append, hs.2, append_nil, h.duplicates] }

section Push

variable {cov : ElementKind → Int64 → Bool} {full : Bool} {k : ElementKind} {ids : List Int64}
  {t : List (SetOp × Bool)} {judge : KindJudge} {id : Int64}

lemma follow_count (judge : KindJudge) (id : Int64) :
    (judge.follow id).r.count = judge.r.count + 1 := rfl

lemma Judging.follow_first (h : Judging (cov k) full k ids t judge) :
    (judge.follow id).r.firstId = (ids ++ [id]).head? := by
  simp only [KindJudge.follow, h.first]
  cases ids <;> rfl

lemma Judging.follow_within (h : Judging (cov k) full k ids t judge) :
    (judge.follow id).r.withinViolations.length = descents (ids ++ [id]) := by
  rw [descents_append, ← h.within, ← h.last, ← h.prev]
  cases hp : judge.prev with
  | none => simp [KindJudge.follow, hp, descents]
  | some p =>
    by_cases hn : notAfter id p = true
    · simp [KindJudge.follow, hp, hn, bridge, descents]
    · simp [KindJudge.follow, hp, hn, bridge, descents]

lemma last_append (ids : List Int64) (id : Int64) : some id = (ids ++ [id]).getLast? := by simp

lemma push_spec (h : Judging (cov k) full k ids t judge) :
    (judge.push id (if full then some k else none)).Ensures (Contract cov) fun t' judge' =>
      Judging (cov k) full k (ids ++ [id]) (t ++ t') judge' ∧ ∀ k', k' ≠ k → Silent k' t' := by
  have hcount : (judge.follow id).r.count = (ids ++ [id]).length := by
    rw [follow_count, h.count, length_append, length_singleton]
  cases full with
  | false =>
    refine Job.ensures_ret ⟨⟨⟨hcount, h.follow_first, last_append ids id, h.follow_within,
      h.outOfRange, ?_, ?_⟩, rfl⟩, fun k' _ => silent_nil k'⟩
    · rw [append_nil]
      exact h.asked
    · rw [append_nil]
      exact h.duplicates
  | true =>
    refine Job.ensures_ask fun b hb => ?_
    change b = cov k id at hb
    cases b with
    | false =>
      have hout : (judge.follow id).r.outOfRangeIds ++ [id] =
          (ids ++ [id]).filter fun id => !cov k id := by
        rw [filter_append, filter_singleton, ← hb]
        exact congrArg (· ++ [id]) h.outOfRange
      have hask : asked k (t ++ [(.denseForAtomic k id, false)]) = (ids ++ [id]).filter (cov k) := by
        rw [asked_append, filter_append, filter_singleton, ← hb]
        exact congrArg (· ++ []) h.asked
      refine Job.ensures_ret ⟨⟨⟨hcount, h.follow_first, last_append ids id, h.follow_within, hout,
        hask, ?_⟩, rfl⟩, fun k' _ => ⟨rfl, rfl⟩⟩
      rw [refused_append]
      exact (append_nil _).symm ▸ h.duplicates
    | true =>
      have hout : (judge.follow id).r.outOfRangeIds = (ids ++ [id]).filter fun id => !cov k id := by
        rw [filter_append, filter_singleton, ← hb]
        exact h.outOfRange.trans (append_nil _).symm
      have hask : ∀ isNew, asked k (t ++ [(.denseForAtomic k id, true), (.fetchOr k id, isNew)]) =
          (ids ++ [id]).filter (cov k) := by
        intro isNew
        rw [asked_append, filter_append, filter_singleton, ← hb, h.asked]
        simp [asked]
      refine Job.ensures_ask fun isNew _ => ?_
      cases isNew with
      | false =>
        refine Job.ensures_ret ⟨⟨⟨hcount, h.follow_first, last_append ids id, h.follow_within, hout,
          hask false, ?_⟩, rfl⟩, fun k' hk' => ⟨?_, ?_⟩⟩
        · rw [refused_append]
          simp only [refused, filterMap_cons, filterMap_nil, if_true]
          exact congrArg (· ++ [id]) h.duplicates
        · simp [asked, hk'.symm]
        · simp [refused, hk'.symm]
      | true =>
        refine Job.ensures_ret ⟨⟨⟨hcount, h.follow_first, last_append ids id, h.follow_within, hout,
          hask true, ?_⟩, rfl⟩, fun k' hk' => ⟨?_, ?_⟩⟩
        · rw [refused_append]
          exact (append_nil _).symm ▸ h.duplicates
        · simp [asked, hk'.symm]
        · simp [refused]

end Push

end VerifyIds
