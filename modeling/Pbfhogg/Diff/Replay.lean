import Pbfhogg.Diff.Units

/-!
# What a diff says about its two inputs

The outcomes of a diff are an edit script: replayed over the old side they give the new one, an
outcome naming an old element only where that element comes next. The diff of the exchanged inputs
is the script read backwards, and only equal inputs are reported unchanged.
-/

namespace DiffReplay

open OsmId MergeJoin ZipMerge BlockPair DiffEquivalence DiffUnits List

variable {l r : List Element} {d : Decoder} {kind : ElementKind} {fo fn : List Frame}
  {bo bn : List (List Element)} {target fuel : Nat}

/-- The old elements with a script carried out on them; `none` where the script
names another element than the one that comes next, or leaves some over. -/
def replay : List Outcome → List Element → Option (List Element)
  | [], [] => some []
  | [], _ :: _ => none
  | .newOnly n :: os, es => (replay os es).map (n :: ·)
  | .unchanged :: os, e :: es => (replay os es).map (e :: ·)
  | .modified o n :: os, e :: es => if o = e then (replay os es).map (n :: ·) else none
  | .oldOnly o :: os, e :: es => if o = e then replay os es else none
  | _ :: _, [] => none

/-- The outcome with the two sides exchanged. -/
def reverse : Outcome → Outcome
  | .unchanged => .unchanged
  | .modified o n => .modified n o
  | .oldOnly e => .newOnly e
  | .newOnly e => .oldOnly e

lemma plain_cons_cons (a b : Element) (l r : List Element) :
    plain (a :: l) (b :: r) =
      if a.key < b.key then .oldOnly a :: plain l (b :: r)
      else if b.key < a.key then .newOnly b :: plain (a :: l) r
      else (if contentEqual a b then .unchanged else .modified a b) :: plain l r := by
  unfold plain
  rw [zipMerge_cons_cons]
  split_ifs with hlt hgt heq
  · rfl
  · rfl
  · simp [expandAll, expand, mergedAction, compareElements, heq]
  · simp [expandAll, expand, mergedAction, compareElements, heq]

/-- Elements that meet in the merge and compare equal are one element. -/
lemma eq_of_met {a b : Element} (h1 : ¬ a.key < b.key) (h2 : ¬ b.key < a.key)
    (h : contentEqual a b = true) : a = b :=
  eq_of_contentEqual (le_antisymm (le_of_not_gt h2) (le_of_not_gt h1)) h

lemma replay_plain (l r : List Element) : replay (plain l r) l = some r := by
  induction l generalizing r with
  | nil =>
    rw [plain_nil_left]
    induction r with
    | nil => rfl
    | cons b r ih => simp [replay, ih]
  | cons a l ih =>
    induction r with
    | nil =>
      have htail := ih []
      rw [plain_nil_right] at htail ⊢
      simpa [replay] using htail
    | cons b r ihr =>
      rw [plain_cons_cons]
      split_ifs with h1 h2 heq
      · simpa [replay] using ih (b :: r)
      · simp [replay, ihr]
      · simp [replay, ih r, eq_of_met h1 h2 heq]
      · simp [replay, ih r]

lemma plain_reverse (l r : List Element) : plain r l = (plain l r).map reverse := by
  induction l generalizing r with
  | nil =>
    rw [plain_nil_left, plain_nil_right, List.map_map]
    rfl
  | cons a l ih =>
    induction r with
    | nil =>
      rw [plain_nil_left, plain_nil_right, List.map_map]
      rfl
    | cons b r ihr =>
      rw [plain_cons_cons b a, plain_cons_cons a b]
      rcases lt_trichotomy a.key b.key with h | h | h
      · rw [if_neg (lt_asymm h), if_pos h, if_pos h, map_cons, ih]
        rfl
      · have h1 : ¬ a.key < b.key := h.not_lt
        have h2 : ¬ b.key < a.key := h.not_gt
        rw [if_neg h2, if_neg h1, if_neg h1, if_neg h2, map_cons, ih]
        by_cases heq : contentEqual a b = true
        · obtain rfl := eq_of_met h1 h2 heq
          simp [heq, reverse]
        · have hne : ¬ contentEqual b a = true := fun hba => heq (eq_of_met h2 h1 hba ▸ hba)
          simp [heq, hne, reverse]
      · rw [if_pos h, if_neg (lt_asymm h), if_pos h, map_cons, ihr]
        rfl

lemma replay_unchanged {os : List Outcome} (h : ∀ o ∈ os, o = .unchanged)
    (hr : replay os l = some r) : l = r := by
  induction os generalizing l r with
  | nil =>
    cases l with
    | nil => exact Option.some.inj hr
    | cons e l => cases hr
  | cons o os ih =>
    obtain rfl := h o mem_cons_self
    cases l with
    | nil => cases hr
    | cons e l =>
      obtain ⟨tail, htail, rfl⟩ := Option.map_eq_some_iff.mp hr
      rw [ih (fun o ho => h o (mem_cons_of_mem _ ho)) htail]

lemma plain_unchanged_iff (hl : ∀ e ∈ l, e.Resolves) :
    (∀ o ∈ plain l r, o = .unchanged) ↔ l = r := by
  constructor
  · exact fun h => replay_unchanged h (replay_plain l r)
  · rintro rfl o ho
    rw [plain_self hl] at ho
    exact eq_of_mem_replicate ho

/-- The merges of a plan's units, in unit order, are the merge of the two inputs. -/
lemma units_plain (hold : Input d kind fo bo) (hnew : Input d kind fn bn) {units : List WorkUnit}
    (h : planKind kind target fo fn = .ok units) (skip : Bool)
    (hfuel : 2 * fo.length + 2 * fn.length < fuel) :
    ∃ runs, List.Forall₂ (fun (u : WorkUnit) run =>
        runPhase d u.window skip fuel (phaseStart u.old u.new) = .ok run) units runs ∧
      expandAll runs.flatten = plain bo.flatten bn.flatten := by
  obtain ⟨runs, acts, hruns, hrun, hexp⟩ := (planKind_partitions hold hnew h).merges skip fuel hfuel
  obtain ⟨acts', hrun', hplain⟩ := runPhase_plain hold hnew skip hfuel
  obtain rfl := Except.ok.inj (hrun.symm.trans hrun')
  exact ⟨runs, hruns, hexp.trans hplain⟩

/-- However the two diffs are cut and whether they skip equal blobs: the outcomes rebuild the new
side out of the old, the exchanged diff is the same script reversed, and nothing but equal inputs is
unchanged throughout. -/
theorem unit_diffs_replay (hold : Input d kind fo bo) (hnew : Input d kind fn bn)
    {target' : Nat} {units units' : List WorkUnit} (hplan : planKind kind target fo fn = .ok units)
    (hplan' : planKind kind target' fn fo = .ok units') (skip skip' : Bool)
    (hfuel : 2 * fo.length + 2 * fn.length < fuel) :
    ∃ runs back : List (List Action),
      List.Forall₂ (fun (u : WorkUnit) run =>
        runPhase d u.window skip fuel (phaseStart u.old u.new) = .ok run) units runs ∧
      List.Forall₂ (fun (u : WorkUnit) run =>
        runPhase d u.window skip' fuel (phaseStart u.old u.new) = .ok run) units' back ∧
      replay (expandAll runs.flatten) bo.flatten = some bn.flatten ∧
      expandAll back.flatten = (expandAll runs.flatten).map reverse ∧
      ((∀ o ∈ expandAll runs.flatten, o = .unchanged) ↔ bo.flatten = bn.flatten) := by
  obtain ⟨runs, hruns, hforth⟩ := units_plain hold hnew hplan skip hfuel
  obtain ⟨back, hback, hexp⟩ := units_plain hnew hold hplan' skip'
    (by rwa [Nat.add_comm])
  refine ⟨runs, back, hruns, hback, ?_, ?_, ?_⟩
  · rw [hforth, replay_plain]
  · rw [hexp, hforth, plain_reverse]
  · rw [hforth, plain_unchanged_iff hold.resolves]

/-- Nodes 1 and 5 against nodes 3 and 7: one way cut in two, the other way whole. -/
theorem unit_diffs_replay_nodes : ∃ runs back : List (List Action), runs.length = 2 ∧
    back.length = 1 ∧ replay (expandAll runs.flatten) (nodes [1, 5]) = some (nodes [3, 7]) ∧
    expandAll back.flatten = (expandAll runs.flatten).map reverse := by
  have h := @unit_diffs_replay plainDecoder .node [⟨⟨.node, 1, 5, 2, none⟩, [1, 5]⟩]
    [⟨⟨.node, 3, 7, 2, none⟩, [3, 7]⟩] [nodes [1, 5]] [nodes [3, 7]] 1 9
    (input_nodes ⟨⟨_, rfl, rfl⟩, by decide, by decide, rfl, by decide, by decide, by decide,
      by decide⟩ (by decide) rfl)
    (input_nodes ⟨⟨_, rfl, rfl⟩, by decide, by decide, rfl, by decide, by decide, by decide,
      by decide⟩ (by decide) rfl) 100 _ _ rfl rfl true false (by decide)
  obtain ⟨runs, back, hruns, hback, hreplay, hreverse, _⟩ := h
  exact ⟨runs, back, hruns.length_eq.symm, hback.length_eq.symm, hreplay, hreverse⟩

end DiffReplay
