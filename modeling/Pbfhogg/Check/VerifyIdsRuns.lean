import Pbfhogg.Check.VerifyIdsReport

/-!
# The id check judges the file

Every run of `check --ids` that reports counts the violations of the file as a whole, whatever the
options and the order in which the blobs complete.
-/

namespace VerifyIds

open OsmId IdSpace List Option
open TagExpr (TypeFilter)

variable {k : ElementKind} {done rest : List ElementKind} {acc : Sets × Scanned}

def VerifyIdsOptions.selects (opts : VerifyIdsOptions) (k : ElementKind) : Bool :=
  (opts.typeFilter.getD TypeFilter.all).admits k

namespace InputFile

/-- The ids of a kind in element-walk order. -/
def ids (file : InputFile) (k : ElementKind) : List Int64 :=
  file.blobs.flatMap (ScheduledBlob.ids k)

variable (file : InputFile)

/-- Those in the blobs that claim the kind or nothing. -/
def readIds (k : ElementKind) : List Int64 :=
  (file.blobs.filter fun b => decide (b.claim = none ∨ b.claim = some k)).flatMap
    (ScheduledBlob.ids k)

def groups (file : InputFile) : List Group := file.blobs.flatMap ScheduledBlob.groups

/-- No blob carries indexdata. -/
def Unindexed : Prop := ∀ b ∈ file.blobs, b.claim = none

/-- Every blob carries indexdata. -/
def Indexed : Prop := ∀ b ∈ file.blobs, b.claim ≠ none

instance (file : InputFile) : Decidable file.Unindexed :=
  inferInstanceAs (Decidable (∀ b ∈ file.blobs, b.claim = none))

/-- Whether two kinds stand the wrong way round: by what the groups of an unindexed file hold, by
what the blobs of an indexed one claim. -/
def inverted (lower higher : ElementKind) : Bool :=
  if file.Unindexed then groupsInverted file.groups lower higher
  else claimsInverted file.blobs lower higher

/-- No blob holds a kind its claim denies. -/
def TrueClaims : Prop :=
  ∀ b ∈ file.blobs, ∀ claimed, b.claim = some claimed →
    ∀ g ∈ b.groups, ∀ k, g.has k = true → k = claimed

/-- Every blob holds an element of the kind it claims. -/
def NoEmptyClaim : Prop :=
  ∀ b ∈ file.blobs, ∀ claimed, b.claim = some claimed → ∃ g ∈ b.groups, g.has claimed = true

end InputFile

def VerifyIdsReport.count (r : VerifyIdsReport) : ElementKind → Nat
  | .node => r.nodeCount
  | .way => r.wayCount
  | .relation => r.relationCount

/-- The violations of a file: the inverted pairs of kinds, and for each selected kind those of its
ids. -/
def plainTotal (full : Bool) (select : ElementKind → Bool)
    (inverted : ElementKind → ElementKind → Bool) (ids : ElementKind → List Int64) : Nat :=
  inversions inverted + ((kinds.filter select).map fun k => kindViolations full (ids k)).sum

/-- The report counts these ids and these inversions. -/
structure Reports (opts : VerifyIdsOptions) (inverted : ElementKind → ElementKind → Bool)
    (ids : ElementKind → List Int64) (r : VerifyIdsReport) : Prop where
  total : r.totalViolations = plainTotal opts.full opts.selects inverted ids
  counts : ∀ k, r.count k = if opts.selects k then (ids k).length else 0
  stored : r.violations.length =
    if opts.maxErrors = 0 then r.totalViolations else min r.totalViolations opts.maxErrors
  passed : r.passed = true ↔ r.totalViolations = 0

section Scan

variable {workers maxErrors : Nat} {typeFilter : TypeFilter} {full : Bool}
  {bound : ElementKind → Int64}

lemma runSets_empty {set : IdSet} (h : runSets full typeFilter bound k = some set) :
    set.ids = [] := by
  unfold runSets at h
  split at h
  · cases h
    unfold IdSet.preAllocate
    split <;> rfl
  · cases h

lemma runSets_isSome (k : ElementKind) :
    (runSets full typeFilter bound k).isSome = (full && typeFilter.admits k) := by
  unfold runSets
  cases hk : full && typeFilter.admits k <;> simp

/-- The scan of the schedules, when it is done. -/
def ScanDone (full : Bool) (typeFilter : TypeFilter) (maxErrors : Nat)
    (inverted : ElementKind → ElementKind → Bool) (ids : ElementKind → List Int64) :
    Scanned → Prop :=
  ScanSo full typeFilter.admits ids maxErrors (inversions inverted) kinds

section Indexed

variable {schedule : ElementKind → List ScheduledBlob} {start : Nat}

/-- The indexed scan on its way: the sets of the kinds to come are as they were. -/
structure IndexedSo (full : Bool) (typeFilter : TypeFilter) (bound : ElementKind → Int64)
    (maxErrors start : Nat) (schedule : ElementKind → List ScheduledBlob)
    (done : List ElementKind) (acc : Sets × Scanned) : Prop where
  sets : ∀ k, k ∉ done → acc.1 k = runSets full typeFilter bound k
  scanned : ScanSo full typeFilter.admits (fun k => (schedule k).flatMap (ScheduledBlob.ids k))
    maxErrors start done acc.2
  read : ∀ k ∈ done, typeFilter.admits k = true → ∀ b ∈ schedule k, b.Readable

lemma IndexedSo.skip (h : IndexedSo full typeFilter bound maxErrors start schedule done acc)
    (hk : typeFilter.admits k = false) :
    IndexedSo full typeFilter bound maxErrors start schedule (done ++ [k]) acc where
  sets k' hk' := h.sets k' fun hmem => hk' (mem_append_left _ hmem)
  scanned := h.scanned.skip hk
  read := by
    intro k' hk' hadmits
    rcases mem_append.mp hk' with hmem | hmem
    · exact h.read k' hmem hadmits
    · rw [mem_singleton.mp hmem, hk] at hadmits
      cases hadmits

/-- One more kind: its set is untouched, and its slots are merged. -/
theorem IndexedSo.merge (h : IndexedSo full typeFilter bound maxErrors start schedule done acc)
    (hnew : k ∉ done) (hk : typeFilter.admits k = true)
    {x : Option IdSet × List (Option BlobVerifyResult)}
    (hdone : KindDone (acc.1 k).isSome ((schedule k).map (ScheduledBlob.ids k)) x.2)
    (hread : ∀ b ∈ schedule k, b.Readable) :
    ∃ s, acc.2.merge maxErrors k x.2 = .ok s ∧
      IndexedSo full typeFilter bound maxErrors start schedule (done ++ [k])
        (Function.update acc.1 k x.1, s) := by
  rw [h.sets k hnew, runSets_isSome, hk, Bool.and_true] at hdone
  obtain ⟨s, hs, hso⟩ := h.scanned.merge hk hdone rfl
  refine ⟨s, hs, fun k' hk' => ?_, hso, fun k' hk' hadmits => ?_⟩
  · simp only [mem_append, mem_singleton, not_or] at hk'
    exact (Function.update_of_ne hk'.2 _ _).trans (h.sets k' hk'.1)
  · rcases mem_append.mp hk' with hmem | hmem
    · exact h.read k' hmem hadmits
    · exact mem_singleton.mp hmem ▸ hread

lemma not_mem_done (h : kinds = done ++ k :: rest) : k ∉ done := by
  have hnodup : (done ++ k :: rest).Nodup := h ▸ nodup_kinds
  intro hmem
  exact (nodup_append.mp hnodup).2.2 k hmem k mem_cons_self rfl

lemma empty_of_sets (h : IndexedSo full typeFilter bound maxErrors start schedule done acc)
    (hnew : k ∉ done) (set : IdSet) (hset : acc.1 k = some set) : set.ids = [] :=
  runSets_empty ((h.sets k hnew).symm.trans hset)

lemma scanIndexedKind_returns (hsplit : kinds = done ++ k :: rest)
    (h : IndexedSo full typeFilter bound maxErrors start schedule done acc) :
    (scanIndexedKind workers maxErrors schedule typeFilter acc k).Returns
      (IndexedSo full typeFilter bound maxErrors start schedule (done ++ [k])) := by
  have hnew := not_mem_done hsplit
  unfold scanIndexedKind
  by_cases hk : typeFilter.admits k = true
  · rw [if_pos hk]
    refine Outcomes.returns_bind (kindPhase_returns (empty_of_sets h hnew)) fun x hx => ?_
    obtain ⟨s, hs, hso⟩ := h.merge hnew hk hx.1 hx.2
    exact Outcomes.returns_bind (Outcomes.always_ofExcept hs hso).returns fun s' hs' =>
      Outcomes.returns_pure hs'
  · rw [if_neg hk]
    exact Outcomes.returns_pure (h.skip (by simpa using hk))

lemma scanIndexedKind_always (hw : 0 < workers) (hsplit : kinds = done ++ k :: rest)
    (hread : typeFilter.admits k = true → ∀ b ∈ schedule k, b.Readable)
    (h : IndexedSo full typeFilter bound maxErrors start schedule done acc) :
    (scanIndexedKind workers maxErrors schedule typeFilter acc k).Always
      (IndexedSo full typeFilter bound maxErrors start schedule (done ++ [k])) := by
  have hnew := not_mem_done hsplit
  unfold scanIndexedKind
  by_cases hk : typeFilter.admits k = true
  · rw [if_pos hk]
    refine Outcomes.always_bind (kindPhase_always hw (empty_of_sets h hnew) (hread hk))
      fun x hx => ?_
    obtain ⟨s, hs, hso⟩ := h.merge hnew hk hx.1 hx.2
    exact Outcomes.always_bind (Outcomes.always_ofExcept hs hso) fun s' hs' =>
      Outcomes.always_pure hs'
  · rw [if_neg hk]
    exact Outcomes.always_pure (h.skip (by simpa using hk))

lemma indexedSo_start :
    IndexedSo full typeFilter bound maxErrors
      (inversions (pastFirst fun k => scheduleSpan (schedule k))) schedule []
      (runSets full typeFilter bound,
        { tally := checkTypeOrder (fun k => scheduleSpan (schedule k))
            (effectiveErrorLimit maxErrors) {} }) where
  sets _ _ := rfl
  scanned := scanSo_start _
  read := by simp

lemma scanIndexed_returns :
    (scanKinds workers (.indexed schedule) typeFilter (runSets full typeFilter bound)
      maxErrors).Returns fun s =>
        ScanDone full typeFilter maxErrors (pastFirst fun k => scheduleSpan (schedule k))
          (fun k => (schedule k).flatMap (ScheduledBlob.ids k)) s ∧
        ∀ k, typeFilter.admits k = true → ∀ b ∈ schedule k, b.Readable := by
  refine Outcomes.returns_bind (Outcomes.returns_foldlM (@indexedSo_start maxErrors typeFilter full
    bound schedule) fun done rest k hsplit acc h => scanIndexedKind_returns hsplit h) fun acc h => ?_
  exact Outcomes.returns_pure ⟨h.scanned, fun k => h.read k (mem_kinds k)⟩

lemma scanIndexed_always (hw : 0 < workers)
    (hread : ∀ k, typeFilter.admits k = true → ∀ b ∈ schedule k, b.Readable) :
    (scanKinds workers (.indexed schedule) typeFilter (runSets full typeFilter bound)
      maxErrors).Always fun _ => True := by
  refine Outcomes.always_bind (Outcomes.always_foldlM (@indexedSo_start maxErrors typeFilter full
    bound schedule) fun done rest k hsplit acc h =>
      scanIndexedKind_always hw hsplit (hread k) h) fun acc _ => ?_
  exact Outcomes.always_pure trivial

end Indexed

section Unindexed

variable {blobs : List ScheduledBlob} {u : Unindexed}

lemma mergePass (h : PassDone typeFilter.admits (runSets full typeFilter bound) blobs u) :
    ∃ s, kinds.foldlM
        (fun (scanned : Scanned) kind =>
          if typeFilter.admits kind then scanned.merge maxErrors kind (u.perKind kind).perBlob
          else .ok scanned)
        { tally := checkTypeOrder u.spans (effectiveErrorLimit maxErrors) {} } = .ok s ∧
      ScanDone full typeFilter maxErrors (pastFirst u.spans)
        (fun k => blobs.flatMap (ScheduledBlob.ids k)) s := by
  have hstart : ScanSo full typeFilter.admits (fun k => blobs.flatMap (ScheduledBlob.ids k))
      maxErrors (inversions (pastFirst u.spans)) []
      { tally := checkTypeOrder u.spans (effectiveErrorLimit maxErrors) {} } := scanSo_start _
  have hgen : ∀ (rest done : List ElementKind) (s : Scanned),
      ScanSo full typeFilter.admits (fun k => blobs.flatMap (ScheduledBlob.ids k)) maxErrors
        (inversions (pastFirst u.spans)) done s →
      ∃ s', rest.foldlM
          (fun (scanned : Scanned) kind =>
            if typeFilter.admits kind then scanned.merge maxErrors kind (u.perKind kind).perBlob
            else .ok scanned) s = .ok s' ∧
        ScanSo full typeFilter.admits (fun k => blobs.flatMap (ScheduledBlob.ids k)) maxErrors
          (inversions (pastFirst u.spans)) (done ++ rest) s' := by
    intro rest
    induction rest with
    | nil => exact fun done s hs => ⟨s, rfl, by simpa using hs⟩
    | cons k rest ih =>
      intro done s hs
      rw [foldlM_cons, append_cons]
      by_cases hk : typeFilter.admits k = true
      · have hslots := h.slots k
        rw [runSets_isSome, hk, Bool.and_true] at hslots
        simp only [if_true] at hslots
        obtain ⟨s₁, hs₁, hso⟩ := hs.merge hk hslots flatMap_def.symm
        obtain ⟨s₂, hs₂, hso₂⟩ := ih _ s₁ hso
        refine ⟨s₂, ?_, hso₂⟩
        rw [if_pos hk, hs₁]
        exact hs₂
      · obtain ⟨s₂, hs₂, hso₂⟩ := ih _ s (hs.skip (by simpa using hk))
        refine ⟨s₂, ?_, hso₂⟩
        rw [if_neg hk]
        exact hs₂
  exact hgen kinds [] _ hstart

lemma scanDone_groups (h : PassDone typeFilter.admits (runSets full typeFilter bound) blobs u)
    {s : Scanned} (hs : ScanDone full typeFilter maxErrors (pastFirst u.spans)
      (fun k => blobs.flatMap (ScheduledBlob.ids k)) s) :
    ScanDone full typeFilter maxErrors (groupsInverted (blobs.flatMap ScheduledBlob.groups))
      (fun k => blobs.flatMap (ScheduledBlob.ids k)) s := by
  have heq : pastFirst u.spans = groupsInverted (blobs.flatMap ScheduledBlob.groups) := by
    funext lower higher
    exact pastFirst_groups h.spans lower higher
  exact heq ▸ hs

lemma scanUnindexed_returns :
    (scanKinds workers (.unindexed blobs) typeFilter (runSets full typeFilter bound)
      maxErrors).Returns
        (ScanDone full typeFilter maxErrors (groupsInverted (blobs.flatMap ScheduledBlob.groups))
          fun k => blobs.flatMap (ScheduledBlob.ids k)) := by
  refine Outcomes.returns_bind (unindexedPass_returns fun k set hset => runSets_empty hset)
    fun u hu => ?_
  obtain ⟨s, hs, hdone⟩ := @mergePass maxErrors typeFilter full bound blobs u hu
  exact (Outcomes.always_ofExcept hs (scanDone_groups hu hdone)).returns

lemma scanUnindexed_always (hw : 0 < workers) (hread : ∀ b ∈ blobs, b.Readable) :
    (scanKinds workers (.unindexed blobs) typeFilter (runSets full typeFilter bound)
      maxErrors).Always fun _ => True := by
  refine Outcomes.always_bind (unindexedPass_always hw (fun k set hset => runSets_empty hset) hread)
    fun u hu => ?_
  obtain ⟨s, hs, -⟩ := @mergePass maxErrors typeFilter full bound blobs u hu
  exact Outcomes.always_ofExcept hs trivial

end Unindexed

end Scan

section Check

variable {file : InputFile}

lemma readIds_of_unindexed (h : file.Unindexed) (k : ElementKind) :
    file.readIds k = file.ids k := by
  have hall : (file.blobs.filter fun b => decide (b.claim = none ∨ b.claim = some k)) =
      file.blobs := by
    rw [filter_eq_self]
    intro b hb
    simp [h b hb]
  rw [InputFile.readIds, hall]
  rfl

lemma readIds_of_indexed (h : file.Indexed) (k : ElementKind) :
    file.readIds k = (claiming file.blobs k).flatMap (ScheduledBlob.ids k) := by
  have hsame : (file.blobs.filter fun b => decide (b.claim = none ∨ b.claim = some k)) =
      claiming file.blobs k :=
    filter_congr fun b hb => by simp [h b hb]
  rw [InputFile.readIds, hsame]

/-- How the walk sorts the blobs of a file. -/
theorem schedules_cases (blobs : List ScheduledBlob) :
    ((∀ b ∈ blobs, b.claim ≠ none) ∧
        buildClassifySchedulesSplit blobs = .ok (.indexed (claiming blobs))) ∨
      ((∀ b ∈ blobs, b.claim = none) ∧ blobs ≠ [] ∧
        buildClassifySchedulesSplit blobs = .ok (.unindexed blobs)) ∨
      ((∃ b ∈ blobs, b.claim = none) ∧ (∃ b ∈ blobs, b.claim ≠ none) ∧
        ∃ e, buildClassifySchedulesSplit blobs = .error e) := by
  by_cases hsome : ∀ b ∈ blobs, b.claim ≠ none
  · left
    refine ⟨hsome, ?_⟩
    have hnone : (blobs.filter fun b => decide (b.claim = none)) = [] := by
      rw [filter_eq_nil_iff]
      intro b hb
      simpa using hsome b hb
    simp only [buildClassifySchedulesSplit, hnone, isEmpty_nil, if_true]
  · right
    push Not at hsome
    obtain ⟨b, hb, hclaim⟩ := hsome
    have hkeep : (blobs.filter fun b => decide (b.claim = none)).isEmpty = false := by
      rw [isEmpty_eq_false_iff]
      exact ne_nil_of_mem (mem_filter.mpr ⟨hb, decide_eq_true hclaim⟩)
    by_cases hall : ∀ b ∈ blobs, b.claim = none
    · left
      have hself : (blobs.filter fun b => decide (b.claim = none)) = blobs := by
        rw [filter_eq_self]
        intro b' hb'
        exact decide_eq_true (hall b' hb')
      have hclaims : (kinds.all fun k => (claiming blobs k).isEmpty) = true := by
        rw [List.all_eq_true]
        intro k _
        rw [List.isEmpty_iff, claiming, List.filter_eq_nil_iff]
        intro b' hb'
        simp [hall b' hb']
      refine ⟨hall, ne_nil_of_mem hb, ?_⟩
      rw [hself] at hkeep
      simp only [buildClassifySchedulesSplit, hself, hkeep, Bool.false_eq_true, if_false, hclaims,
        if_true]
    · right
      push Not at hall
      obtain ⟨b', hb', hclaim'⟩ := hall
      obtain ⟨k, hk⟩ := ne_none_iff_exists'.mp hclaim'
      have hclaims : (kinds.all fun k => (claiming blobs k).isEmpty) = false := by
        rw [List.all_eq_false]
        refine ⟨k, mem_kinds k, ?_⟩
        rw [List.isEmpty_iff]
        exact List.ne_nil_of_mem (List.mem_filter.mpr ⟨hb', decide_eq_true hk⟩)
      refine ⟨⟨b, hb, hclaim⟩, ⟨b', hb', hclaim'⟩, ?_⟩
      simp only [buildClassifySchedulesSplit, hkeep, Bool.false_eq_true, if_false, hclaims]
      exact ⟨_, rfl⟩

lemma inverted_of_unindexed (h : file.Unindexed) :
    file.inverted = groupsInverted file.groups := by
  funext lower higher
  rw [InputFile.inverted, if_pos h]

lemma inverted_of_indexed (h : file.Indexed) :
    file.inverted = claimsInverted file.blobs := by
  funext lower higher
  unfold InputFile.inverted
  split
  · next hun =>
    have hnil : file.blobs = [] := by
      rw [eq_nil_iff_forall_not_mem]
      exact fun b hb => h b hb (hun b hb)
    simp [InputFile.groups, hnil, groupsInverted, claimsInverted]
  · rfl

variable {workers : Nat} {bound : ElementKind → Int64} {opts : VerifyIdsOptions}

lemma reports_of_scan {ids : ElementKind → List Int64}
    {inverted : ElementKind → ElementKind → Bool} {s : Scanned}
    (h : ScanDone opts.full (opts.typeFilter.getD TypeFilter.all) opts.maxErrors inverted ids s) :
    Reports opts inverted ids
      { headerSorted := file.headerSorted
        indexed := file.indexed
        full := opts.full
        nodeCount := s.counts .node
        wayCount := s.counts .way
        relationCount := s.counts .relation
        violations := s.tally.violations
        totalViolations := s.tally.total
        passed := s.tally.total == 0 } := by
  obtain ⟨all, hall, hlen⟩ := h.tally
  refine ⟨?_, fun k => ?_, hall.length, ?_⟩
  · exact hall.total.trans hlen
  · have hcount : s.counts k = if opts.selects k then (ids k).length else 0 := by
      rw [h.counts, VerifyIdsOptions.selects]
      simp only [mem_kinds, true_and]
    cases k <;> exact hcount
  · exact beq_iff_eq

lemma verifyIds_returns :
    (verifyIds workers bound opts file).Returns fun r =>
      Reports opts file.inverted file.readIds r ∧
        ((∀ k, opts.selects k = true) → file.TrueClaims) := by
  unfold verifyIds
  rcases schedules_cases file.blobs with ⟨hindexed, hok⟩ | ⟨hun, -, hok⟩ | ⟨-, -, e, herr⟩
  · refine Outcomes.returns_bind (Outcomes.always_ofExcept hok (rfl : _ = _)).returns ?_
    rintro schedules rfl
    refine Outcomes.returns_bind scanIndexed_returns fun s hs =>
      Outcomes.returns_pure ⟨?_, fun hall b hb claimed hclaim g hg k hk => ?_⟩
    · have hinv : (pastFirst fun k => scheduleSpan (claiming file.blobs k)) = file.inverted := by
        rw [inverted_of_indexed hindexed]
        funext lower higher
        exact pastFirst_claims file.ascending lower higher
      have hids : (fun k => (claiming file.blobs k).flatMap (ScheduledBlob.ids k)) =
          file.readIds := funext fun k => (readIds_of_indexed hindexed k).symm
      rw [hinv, hids] at hs
      exact reports_of_scan hs.1
    · have hmem : b ∈ claiming file.blobs claimed :=
        mem_filter.mpr ⟨hb, decide_eq_true hclaim⟩
      exact (hs.2 claimed (hall claimed) b hmem).claim hclaim hg hk
  · refine Outcomes.returns_bind (Outcomes.always_ofExcept hok (rfl : _ = _)).returns ?_
    rintro schedules rfl
    refine Outcomes.returns_bind scanUnindexed_returns fun s hs =>
      Outcomes.returns_pure ⟨?_, fun _ b hb claimed hclaim => ?_⟩
    · have hids : (fun k => file.blobs.flatMap (ScheduledBlob.ids k)) = file.readIds :=
        funext fun k => (readIds_of_unindexed hun k).symm
      rw [hids] at hs
      exact reports_of_scan (inverted_of_unindexed hun ▸ hs)
    · rw [hun b hb] at hclaim
      cases hclaim
  · refine Outcomes.returns_bind (Outcomes.returns_ofExcept fun schedules h => ?_)
      fun schedules (h : False) => h.elim
    rw [herr] at h
    cases h

/-- The check of a file that is not partly indexed and whose blobs are read ends with a report. -/
theorem verifyIds_always (hw : 0 < workers) (hclaims : file.Indexed ∨ file.Unindexed)
    (hread : ∀ b ∈ file.blobs, (∀ k, b.claim = some k → opts.selects k = true) → b.Readable) :
    (verifyIds workers bound opts file).Always fun _ => True := by
  unfold verifyIds
  rcases schedules_cases file.blobs with ⟨hindexed, hok⟩ | ⟨hun, -, hok⟩ | ⟨hnone, hsome, -⟩
  · refine Outcomes.always_bind (Outcomes.always_ofExcept hok (rfl : _ = _)) ?_
    rintro schedules rfl
    refine Outcomes.always_bind (scanIndexed_always hw fun k hk b hb => ?_) fun s _ =>
      Outcomes.always_pure trivial
    obtain ⟨hmem, hclaim⟩ := mem_filter.mp hb
    refine hread b hmem fun k' hk' => ?_
    cases (of_decide_eq_true hclaim).symm.trans hk'
    exact hk
  · refine Outcomes.always_bind (Outcomes.always_ofExcept hok (rfl : _ = _)) ?_
    rintro schedules rfl
    refine Outcomes.always_bind (scanUnindexed_always hw fun b hb => ?_) fun s _ =>
      Outcomes.always_pure trivial
    refine hread b hb fun k hk => ?_
    rw [hun b hb] at hk
    cases hk
  · obtain ⟨b, hb, hbnone⟩ := hnone
    obtain ⟨b', hb', hbsome⟩ := hsome
    rcases hclaims with h | h
    · exact absurd hbnone (h b hb)
    · exact absurd (h b' hb') hbsome

lemma readIds_of_true (h : file.TrueClaims) (k : ElementKind) : file.readIds k = file.ids k := by
  have hgen : ∀ blobs : List ScheduledBlob, (∀ b ∈ blobs, b ∈ file.blobs) →
      (blobs.filter fun b => decide (b.claim = none ∨ b.claim = some k)).flatMap
        (ScheduledBlob.ids k) = blobs.flatMap (ScheduledBlob.ids k) := by
    intro blobs
    induction blobs with
    | nil => exact fun _ => rfl
    | cons b blobs ih =>
      intro hsub
      have hrest := ih fun b' hb' => hsub b' (mem_cons_of_mem _ hb')
      rw [filter_cons, flatMap_cons]
      by_cases hc : b.claim = none ∨ b.claim = some k
      · rw [if_pos (decide_eq_true hc), flatMap_cons, hrest]
      · have hnone : b.ids k = [] := by
          rw [ScheduledBlob.ids, flatMap_eq_nil_iff]
          intro g hg
          by_contra hne
          rw [not_or] at hc
          obtain ⟨claimed, hclaimed⟩ := ne_none_iff_exists'.mp hc.1
          have hhas : g.has k = true := by
            simpa [Group.has] using hne
          have hkk := h b (hsub b mem_cons_self) claimed hclaimed g hg k hhas
          exact hc.2 (hkk ▸ hclaimed)
        rw [if_neg (by simpa using hc), hrest, hnone, nil_append]
  exact hgen file.blobs fun _ h => h

lemma claimsInverted_of_true (hindexed : file.Indexed) (htrue : file.TrueClaims)
    (hempty : file.NoEmptyClaim) {lower higher : ElementKind} (hne : lower ≠ higher) :
    claimsInverted file.blobs lower higher = groupsInverted file.groups lower higher := by
  have hholds : ∀ b ∈ file.blobs, ∀ k, b.claim = some k ↔ ∃ g ∈ b.groups, g.has k = true := by
    intro b hb k
    constructor
    · exact hempty b hb k
    · rintro ⟨g, hg, hhas⟩
      obtain ⟨claimed, hclaimed⟩ := ne_none_iff_exists'.mp (hindexed b hb)
      exact (htrue b hb claimed hclaimed g hg k hhas).symm ▸ hclaimed
  rw [claimsInverted, groupsInverted, InputFile.groups]
  refine congrArg (fun b : Bool => !b) (decide_eq_decide.mpr ?_)
  rw [pairwise_flatMap, pairwise_iff_forall_sublist, pairwise_iff_forall_sublist]
  constructor
  · intro hall
    refine ⟨fun b hb => ?_, fun {b b'} hsub g hg g' hg' hboth => ?_⟩
    · refine pairwise_iff_forall_sublist.mpr fun {g g'} hsub hboth => hne ?_
      have hhigher := (hholds b hb higher).mpr
        ⟨g, hsub.subset mem_cons_self, hboth.1⟩
      have hlower := (hholds b hb lower).mpr
        ⟨g', hsub.subset (mem_cons_of_mem _ mem_cons_self), hboth.2⟩
      exact some.inj (hlower.symm.trans hhigher)
    · have hb := hsub.subset mem_cons_self
      have hb' := hsub.subset (mem_cons_of_mem _ mem_cons_self)
      exact hall hsub ⟨(hholds b hb higher).mpr ⟨g, hg, hboth.1⟩,
        (hholds b' hb' lower).mpr ⟨g', hg', hboth.2⟩⟩
  · rintro ⟨-, hall⟩ b b' hsub ⟨hclaim, hclaim'⟩
    obtain ⟨g, hg, hhas⟩ := hempty b (hsub.subset mem_cons_self) higher hclaim
    obtain ⟨g', hg', hhas'⟩ := hempty b'
      (hsub.subset (mem_cons_of_mem _ mem_cons_self)) lower hclaim'
    exact hall hsub g hg g' hg' ⟨hhas, hhas'⟩

lemma inversions_congr {f g : ElementKind → ElementKind → Bool}
    (h : ∀ lower higher, lower ≠ higher → f lower higher = g lower higher) :
    inversions f = inversions g := by
  refine countP_congr fun pair hpair => ?_
  have hne : pair.1 ≠ pair.2 := by
    simp only [kindPairs, mem_cons, not_mem_nil, or_false] at hpair
    rcases hpair with rfl | rfl | rfl <;> decide
  rw [h _ _ hne]

lemma inversions_of_true (htrue : file.TrueClaims) (hempty : file.NoEmptyClaim)
    (hclaims : file.Indexed ∨ file.Unindexed) :
    inversions file.inverted = inversions (groupsInverted file.groups) := by
  rcases hclaims with h | h
  · rw [inverted_of_indexed h]
    exact inversions_congr fun lower higher hne => claimsInverted_of_true h htrue hempty hne
  · rw [inverted_of_unindexed h]

lemma claims_of_run {r : VerifyIdsReport} (h : verifyIds workers bound opts file (.ok r)) :
    file.Indexed ∨ file.Unindexed := by
  rcases schedules_cases file.blobs with ⟨hindexed, -⟩ | ⟨hun, -⟩ | ⟨-, -, e, herr⟩
  · exact .inl hindexed
  · exact .inr hun
  · unfold verifyIds at h
    rw [herr] at h
    rcases h with ⟨e', -, hr⟩ | ⟨s, hs, -⟩
    · cases hr
    · cases hs

/-- The same file under other claims. -/
def SameContents (file file' : InputFile) : Prop :=
  file.blobs.map ScheduledBlob.content = file'.blobs.map ScheduledBlob.content

lemma groups_eq (file : InputFile) :
    file.groups = (file.blobs.map ScheduledBlob.content).flatMap fun
      | .ok groups => groups
      | .error _ => [] := by
  rw [flatMap_map]
  rfl

lemma SameContents.groups {file' : InputFile} (h : SameContents file file') :
    file.groups = file'.groups := by
  rw [groups_eq, groups_eq, h]

lemma ids_of_groups (file : InputFile) (k : ElementKind) :
    file.ids k = file.groups.flatMap fun g => g.ids k := by
  rw [InputFile.groups, flatMap_assoc]
  rfl

/-- On true claims that no blob makes in vain the report is that of the elements. -/
theorem reports_of_true {r : VerifyIdsReport} (hrun : verifyIds workers bound opts file (.ok r))
    (htrue : file.TrueClaims) (hempty : file.NoEmptyClaim) :
    Reports opts (groupsInverted file.groups) file.ids r := by
  have hreports := (verifyIds_returns r hrun).1
  have hids : file.readIds = file.ids := funext (readIds_of_true htrue)
  rw [hids] at hreports
  refine { hreports with total := ?_ }
  rw [hreports.total, plainTotal, plainTotal,
    inversions_of_true htrue hempty (claims_of_run hrun)]

end Check

/-- Every report counts the ids the scan reads, and the inverted pairs of kinds, as one sequence
over the file. An unindexed file is read whole; of an indexed one the blobs that claim a selected
kind are read, and the kinds stand where they are claimed. -/
theorem verify_ids_judges_file (workers : Nat) (hw : 0 < workers) (bound : ElementKind → Int64)
    (opts : VerifyIdsOptions) (file : InputFile) :
    (∀ r, verifyIds workers bound opts file (.ok r) →
      Reports opts file.inverted file.readIds r ∧
        ((∀ k, opts.selects k = true) → file.TrueClaims) ∧
        (file.TrueClaims → file.NoEmptyClaim →
          Reports opts (groupsInverted file.groups) file.ids r)) ∧
      (file.TrueClaims → file.readIds = file.ids) ∧
      (file.Indexed ∨ file.Unindexed →
        (∀ b ∈ file.blobs, (∀ k, b.claim = some k → opts.selects k = true) → b.Readable) →
        (verifyIds workers bound opts file).Always fun _ => True) ∧
      ∀ file', SameContents file file' → file.TrueClaims → file.NoEmptyClaim → file'.Unindexed →
        ∀ r r', verifyIds workers bound opts file (.ok r) →
          verifyIds workers bound opts file' (.ok r') →
          r.totalViolations = r'.totalViolations ∧ ∀ k, r.count k = r'.count k := by
  refine ⟨fun r hrun => ?_, fun htrue => funext (readIds_of_true htrue),
    fun hclaims hread => verifyIds_always hw hclaims hread, ?_⟩
  · obtain ⟨hreports, htrue⟩ := verifyIds_returns r hrun
    exact ⟨hreports, htrue, reports_of_true hrun⟩
  · intro file' hsame htrue hempty hun r r' hrun hrun'
    have hreports := reports_of_true hrun htrue hempty
    have hreports' : Reports opts (groupsInverted file'.groups) file'.ids r' := by
      refine reports_of_true hrun' (fun b hb claimed hclaim => ?_) fun b hb claimed hclaim => ?_
      · rw [hun b hb] at hclaim
        cases hclaim
      · rw [hun b hb] at hclaim
        cases hclaim
    have hids : file'.ids = file.ids := by
      funext k
      rw [ids_of_groups, ids_of_groups, hsame.groups]
    rw [← hsame.groups, hids] at hreports'
    exact ⟨hreports.total.trans hreports'.total.symm,
      fun k => (hreports.counts k).trans (hreports'.counts k).symm⟩

/-- Two nodes out of order and a repeat across blobs, an empty blob between them. -/
def disorderedFile : InputFile where
  headerSorted := true
  blobs :=
    [⟨none, 100, .ok [{ nodes := [3, 2] }]⟩, ⟨none, 200, .ok []⟩,
      ⟨none, 300, .ok [{ nodes := [2], ways := [9] }, { nodes := [4] }]⟩]
  ascending := by decide

theorem verify_ids_judges_file_disordered :
    (∃ r, verifyIds 2 (fun _ => 0) ⟨1, true, none⟩ disorderedFile (.ok r)) ∧
      ∀ r, verifyIds 2 (fun _ => 0) ⟨1, true, none⟩ disorderedFile (.ok r) →
        r.totalViolations = 4 ∧ r.nodeCount = 4 ∧ r.violations.length = 1 := by
  have hjudged := verify_ids_judges_file 2 (by decide) (fun _ => 0) ⟨1, true, none⟩ disorderedFile
  have hun : disorderedFile.Unindexed := by decide
  constructor
  · have hread : ∀ b ∈ disorderedFile.blobs, b.Readable := by
      intro b hb
      simp only [disorderedFile, mem_cons, not_mem_nil, or_false] at hb
      rcases hb with rfl | rfl | rfl <;> exact ⟨_, rfl⟩
    obtain ⟨⟨out, hout⟩, hall⟩ := hjudged.2.2.1 (.inr hun) fun b hb _ => hread b hb
    obtain ⟨r, rfl, -⟩ := hall out hout
    exact ⟨r, hout⟩
  · intro r hrun
    have hreports := (hjudged.1 r hrun).1
    have htotal : r.totalViolations = 4 := hreports.total.trans (by decide)
    refine ⟨htotal, (hreports.counts .node).trans (by decide), ?_⟩
    rw [hreports.stored, htotal]
    decide

/-- A way, and behind it an empty blob that claims nodes. -/
def emptyClaimFile : InputFile where
  headerSorted := true
  blobs := [⟨some .way, 100, .ok [{ ways := [1] }]⟩, ⟨some .node, 200, .ok []⟩]
  ascending := by decide

/-- The claim of the empty blob is an inversion although no element is out of place, and a limit of
zero stores it. -/
theorem verify_ids_counts_empty_claim :
    ∃ r, verifyIds 1 (fun _ => 0) ⟨0, false, none⟩ emptyClaimFile (.ok r) ∧
      r.totalViolations ≠ plainTotal false (fun _ => true) (groupsInverted emptyClaimFile.groups)
        emptyClaimFile.ids ∧
      ¬ r.violations.length ≤ 0 := by
  have hread : ∀ b ∈ emptyClaimFile.blobs, b.Readable := by
    intro b hb
    simp only [emptyClaimFile, mem_cons, not_mem_nil, or_false] at hb
    rcases hb with rfl | rfl <;> exact ⟨_, rfl⟩
  have hindexed : emptyClaimFile.Indexed := by
    intro b hb
    simp only [emptyClaimFile, mem_cons, not_mem_nil, or_false] at hb
    rcases hb with rfl | rfl <;> exact some_ne_none _
  obtain ⟨⟨out, hout⟩, hall⟩ := @verifyIds_always emptyClaimFile 1 (fun _ => 0) ⟨0, false, none⟩
    (by decide) (.inl hindexed) fun b hb _ => hread b hb
  obtain ⟨r, rfl, -⟩ := hall out hout
  have hreports := (verifyIds_returns r hout).1
  have htotal : r.totalViolations = 1 := hreports.total.trans (by decide)
  refine ⟨r, hout, ?_, ?_⟩
  · rw [htotal]
    decide
  · rw [hreports.stored, htotal]
    decide

end VerifyIds
