import Mathlib.Data.Finset.Max
import Pbfhogg.BlobMeta

/-!
# The fast and the full check of a claim

`AscendingTally` and `replay_refusal` of `blob_meta/tally.rs`, set against `ClaimWalk` under
required order. Under a claim that starts at no negative id, ascending as `i64` is canonical order.
-/

namespace ClaimTally

open OsmId BlobMeta Fallible List

structure AscendingTally where
  count : Nat := 0
  first : Int64 := 0
  last : Int64 := Int64.minValue
  descended : Bool := false

namespace AscendingTally

variable (t : AscendingTally)

def add (id : Int64) : AscendingTally where
  descended := t.descended || decide (id < t.last)
  first := if t.count = 0 then id else t.first
  last := id
  count := t.count + 1

def holds (claim : BlobIndex) : Except PbfError Bool :=
  if claim.minId < 0 then
    .error (.internal ("AscendingTally decides non-negative claims only, and was handed one " ++
      "starting at id " ++ toString claim.minId))
  else
    .ok (!t.descended && decide (t.count ≠ 0) && decide (t.count = claim.count) &&
      decide (t.first = claim.minId) && decide (t.last = claim.maxId))

def addAll (ids : List Int64) : AscendingTally := ids.foldl add t

end AscendingTally

/-- A complete walk of a blob's ids under its claim. -/
def walk (claim : BlobIndex) (context : String) (ids : List Int64) :
    Except PbfError (Option Int64) := do
  let w ← ids.foldlM ClaimWalk.observe (ClaimWalk.new claim context)
  w.finish

def replayRefusal (claim : BlobIndex) (context : String) (ids : List Int64) : PbfError :=
  match ids.foldlM ClaimWalk.observe (ClaimWalk.new claim context) with
  | .error e => e
  | .ok w =>
    match w.finish with
    | .error e => e
    | .ok _ => .internal "a blob failed the ascending claim check but passed the claim walk"

/-- A refusal that names the false claim or the disorder. -/
def DataRefusal (e : PbfError) : Prop :=
  ∃ message, e = .indexdataMismatch message ∨ e = .unsorted message

/-- The ids are in canonical order and the claim is exact for them. -/
structure Holds (claim : BlobIndex) (ids : List Int64) : Prop where
  nonempty : ids ≠ []
  ordered : ids.Pairwise OsmLe
  exact : ClaimsExactly claim ids

variable {claim : BlobIndex} {context : String} {ids : List Int64} {id : Int64}

lemma pairwise_snoc {R : Int64 → Int64 → Prop} :
    (ids ++ [id]).Pairwise R ↔ ids.Pairwise R ∧ ∀ x ∈ ids, R x id := by
  rw [pairwise_append]
  simp

/-- In an ordered list nothing sorts after the last. -/
theorem le_last {last : Int64} (h : ids.Pairwise OsmLe) (hlast : ids.getLast? = some last)
    {x : Int64} (hx : x ∈ ids) : OsmLe x last := by
  obtain ⟨init, rfl⟩ := getLast?_eq_some_iff.mp hlast
  rcases mem_append.mp hx with hx | hx
  · exact (pairwise_snoc.mp h).2 x hx
  · rw [mem_singleton.mp hx]
    exact le_refl (osmIdKey last)

lemma disorder_refusal (w : ClaimWalk) (id : Int64) : DataRefusal (w.disorder id) := by
  unfold ClaimWalk.disorder
  split_ifs
  · exact ⟨_, .inl rfl⟩
  · exact ⟨_, .inr rfl⟩

/-- The walk goes through ordered ids and stops in others. -/
theorem observe_all (claim : BlobIndex) (context : String) (ids : List Int64) :
    (ids.Pairwise OsmLe ∧ ids.foldlM ClaimWalk.observe (ClaimWalk.new claim context) =
        .ok (ClaimWalk.after claim context ids)) ∨ (¬ ids.Pairwise OsmLe ∧ ∃ e, DataRefusal e ∧
        ids.foldlM ClaimWalk.observe (ClaimWalk.new claim context) = .error e) := by
  induction ids using reverseRecOn with
  | nil => exact .inl ⟨List.Pairwise.nil, rfl⟩
  | append_singleton ids id ih =>
    rw [foldlM_append]
    rcases ih with ⟨hsorted, hok⟩ | ⟨hsorted, e, he, herr⟩
    · rw [hok, ok_bind, foldlM_cons]
      by_cases hle : ∀ x ∈ ids, OsmLe x id
      · refine .inl ⟨pairwise_snoc.mpr ⟨hsorted, hle⟩, ?_⟩
        rw [ClaimWalk.observe_after hle]
        rfl
      · refine .inr ⟨fun h => hle (pairwise_snoc.mp h).2, _,
          disorder_refusal (ClaimWalk.after claim context ids) id, ?_⟩
        have hlt : osmIdKey id < (ClaimWalk.after claim context ids).previous := by
          by_contra hnot
          refine hle fun x hx => ?_
          cases hlast : ids.getLast? with
          | none =>
            rw [getLast?_eq_none_iff.mp hlast] at hx
            cases hx
          | some last =>
            have hprev : ¬ osmIdKey id < osmIdKey (ids.getLast?.getD 0) := hnot
            rw [hlast] at hprev
            exact le_trans (le_last hsorted hlast hx) (not_lt.mp hprev)
        rw [ClaimWalk.observe, if_pos hlt]
        rfl
    · refine .inr ⟨fun h => hsorted (pairwise_snoc.mp h).1, e, he, ?_⟩
      rw [herr]
      rfl

lemma exact_iff : (IdTally.addAll .default ids).exact claim = true ↔ ClaimsExactly claim ids := by
  constructor
  · intro h
    simp only [IdTally.exact, IdTally.addAll_eq, IdTally.default, Bool.and_eq_true,
      decide_eq_true_eq, Nat.zero_add] at h
    obtain ⟨⟨⟨hne, hcount⟩, hmin⟩, hmax⟩ := h
    have hnil : ids.toFinset.Nonempty := by
      rw [toFinset_nonempty_iff]
      rintro rfl
      exact hne rfl
    obtain ⟨low, hlow, hlower⟩ := ids.toFinset.exists_min_image Int64.toInt hnil
    obtain ⟨high, hhigh, hupper⟩ := ids.toFinset.exists_max_image Int64.toInt hnil
    simp only [mem_toFinset] at hlow hlower hhigh hupper
    have hlower' : ∀ x ∈ ids, low ≤ x := fun x hx => Int64.le_iff_toInt_le.mpr (hlower x hx)
    have hupper' : ∀ x ∈ ids, x ≤ high := fun x hx => Int64.le_iff_toInt_le.mpr (hupper x hx)
    have hlowmin : low = claim.minId := by
      rw [← hmin]
      refine (foldl_min_eq hlower' ?_ (.inl hlow)).symm
      rw [Int64.le_iff_toInt_le, Int64.toInt_maxValue]
      have := low.toInt_lt
      omega
    have hhighmax : high = claim.maxId := by
      rw [← hmax]
      refine (foldl_max_eq hupper' ?_ (.inl hhigh)).symm
      rw [Int64.le_iff_toInt_le, Int64.toInt_minValue]
      have := high.le_toInt
      omega
    subst hlowmin hhighmax
    exact ⟨hcount.symm, hlower', hupper', hlow, hhigh⟩
  · exact IdTally.exact_of_claimsExactly

lemma finish_cases (claim : BlobIndex) (context : String) (ids : List Int64) :
    (ClaimsExactly claim ids ∧ (ClaimWalk.after claim context ids).finish = .ok ids.head?) ∨
      (¬ ClaimsExactly claim ids ∧ ∃ e, DataRefusal e ∧
        (ClaimWalk.after claim context ids).finish = .error e) := by
  by_cases hexact : ClaimsExactly claim ids
  · exact .inl ⟨hexact, ClaimWalk.finish_after hexact context⟩
  · refine .inr ⟨hexact, (IdTally.addAll .default ids).mismatch claim true, ⟨_, .inl rfl⟩, ?_⟩
    have hnot : ¬ (IdTally.addAll .default ids).exact claim = true := mt exact_iff.mp hexact
    have hrefuse : (ClaimWalk.after claim context ids).tally.refuseInexact claim =
        .error ((IdTally.addAll .default ids).mismatch claim true) := by
      rw [IdTally.refuseInexact]
      exact if_neg hnot
    rw [ClaimWalk.finish]
    exact congrArg (· >>= fun _ => _) hrefuse

lemma Holds.of_exact (hordered : ids.Pairwise OsmLe) (hexact : ClaimsExactly claim ids) :
    Holds claim ids := by
  refine ⟨?_, hordered, hexact⟩
  rintro rfl
  cases hexact.min_mem

/-- A complete walk accepts the ids a claim is exact for, in order, and no others. -/
theorem walk_cases (claim : BlobIndex) (context : String) (ids : List Int64) :
    (Holds claim ids ∧ walk claim context ids = .ok ids.head?) ∨
      (¬ Holds claim ids ∧ (∃ e, walk claim context ids = .error e) ∧
        DataRefusal (replayRefusal claim context ids)) := by
  unfold walk replayRefusal
  rcases observe_all claim context ids with ⟨hordered, hok⟩ | ⟨hordered, e, he, herr⟩
  · rw [hok]
    rcases finish_cases claim context ids with ⟨hexact, hfin⟩ | ⟨hexact, e, he, hfin⟩
    · exact .inl ⟨.of_exact hordered hexact, hfin⟩
    · refine .inr ⟨fun h => hexact h.exact, ⟨e, hfin⟩, ?_⟩
      simp only [hfin]
      exact he
  · rw [herr]
    exact .inr ⟨fun h => hordered h.ordered, ⟨e, rfl⟩, he⟩

/-- The tally once it has seen these ids. -/
theorem addAll_spec (ids : List Int64) : (AscendingTally.addAll {} ids).count = ids.length ∧
      (AscendingTally.addAll {} ids).first = ids.head?.getD 0 ∧
      (AscendingTally.addAll {} ids).last = ids.getLast?.getD Int64.minValue ∧
      ((AscendingTally.addAll {} ids).descended = false ↔
        ids.Pairwise fun a b => a.toInt ≤ b.toInt) := by
  induction ids using reverseRecOn with
  | nil => exact ⟨rfl, rfl, rfl, fun _ => List.Pairwise.nil, fun _ => rfl⟩
  | append_singleton ids id ih =>
    obtain ⟨hcount, hfirst, hlast, hdesc⟩ := ih
    have hstep :
        AscendingTally.addAll {} (ids ++ [id]) = (AscendingTally.addAll {} ids).add id := by
      rw [AscendingTally.addAll, foldl_append]
      rfl
    rw [hstep]
    refine ⟨?_, ?_, ?_, ?_⟩
    · simp [AscendingTally.add, hcount]
    · cases ids with
      | nil => rfl
      | cons x xs => simpa [AscendingTally.add, hcount] using hfirst
    · simp [AscendingTally.add]
    · simp only [AscendingTally.add, Bool.or_eq_false_iff, decide_eq_false_iff_not, hdesc, hlast,
        pairwise_snoc]
      refine and_congr_right fun hsorted => ?_
      cases hget : ids.getLast? with
      | none =>
        rw [getLast?_eq_none_iff.mp hget]
        have := id.le_toInt
        simp only [Option.getD_none, not_mem_nil, Int64.lt_iff_toInt_lt, Int64.toInt_minValue]
        constructor
        · exact fun _ => nofun
        · exact fun _ => by omega
      | some last =>
        rw [Option.getD_some, Int64.lt_iff_toInt_lt, not_lt]
        constructor
        · intro hle x hx
          obtain ⟨init, rfl⟩ := getLast?_eq_some_iff.mp hget
          rcases mem_append.mp hx with hx | hx
          · exact le_trans ((pairwise_snoc.mp hsorted).2 x hx) hle
          · rw [mem_singleton.mp hx]
            exact hle
        · exact fun hle => hle last (mem_of_getLast? hget)

lemma holds_eq_true (hmin : 0 ≤ claim.minId) :
    (AscendingTally.addAll {} ids).holds claim = .ok true ↔
      (ids.Pairwise fun a b => a.toInt ≤ b.toInt) ∧ ids ≠ [] ∧ ids.length = claim.count ∧
        ids.head?.getD 0 = claim.minId ∧ ids.getLast?.getD Int64.minValue = claim.maxId := by
  obtain ⟨hcount, hfirst, hlast, hdesc⟩ := addAll_spec ids
  have hneg : ¬ claim.minId < 0 := by
    rw [Int64.lt_iff_toInt_lt, not_lt]
    exact Int64.le_iff_toInt_le.mp hmin
  rw [AscendingTally.holds, if_neg hneg, ← hdesc, hcount, hfirst, hlast]
  simp [and_assoc]

/-- Ids that are not negative ascend alike in both orders. -/
theorem osmLe_iff_of_nonneg {a b : Int64} (ha : 0 ≤ a.toInt) (hb : 0 ≤ b.toInt) :
    OsmLe a b ↔ a.toInt ≤ b.toInt := by
  rw [OsmLe, osmIdKey_le_iff]
  omega

lemma ascending_iff_holds (hmin : 0 ≤ claim.minId) :
    (AscendingTally.addAll {} ids).holds claim = .ok true ↔ Holds claim ids := by
  rw [Int64.le_iff_toInt_le, Int64.toInt_zero] at hmin
  rw [holds_eq_true (Int64.le_iff_toInt_le.mpr (by rw [Int64.toInt_zero]; exact hmin))]
  constructor
  · rintro ⟨hsorted, hne, hcount, hhead, hlast⟩
    obtain ⟨x, xs, rfl⟩ := exists_cons_of_ne_nil hne
    have hx : x = claim.minId := hhead
    have hlower : ∀ y ∈ x :: xs, claim.minId.toInt ≤ y.toInt := by
      intro y hy
      rw [← hx]
      rcases mem_cons.mp hy with rfl | hy
      · exact le_refl _
      · exact (pairwise_cons.mp hsorted).1 y hy
    obtain ⟨init, last, hinit⟩ := eq_nil_or_concat (x :: xs) |>.resolve_left (by simp)
    rw [concat_eq_append] at hinit
    have hlast' : last = claim.maxId := by simpa [hinit] using hlast
    have hmem : last ∈ x :: xs := by simp [hinit]
    have hupper : ∀ y ∈ x :: xs, y.toInt ≤ claim.maxId.toInt := by
      intro y hy
      rw [← hlast']
      rw [hinit] at hy hsorted
      rcases mem_append.mp hy with hy | hy
      · exact (pairwise_snoc.mp hsorted).2 y hy
      · rw [mem_singleton.mp hy]
    refine ⟨hne, ?_, ⟨hcount.symm, ?_, ?_, ?_, ?_⟩⟩
    · refine hsorted.imp_of_mem fun {a b} ha hb hab => ?_
      exact (osmLe_iff_of_nonneg (hmin.trans (hlower a ha)) (hmin.trans (hlower b hb))).mpr hab
    · exact fun y hy => Int64.le_iff_toInt_le.mpr (hlower y hy)
    · exact fun y hy => Int64.le_iff_toInt_le.mpr (hupper y hy)
    · exact hx ▸ mem_cons_self
    · exact hlast' ▸ hmem
  · rintro ⟨hne, hordered, hexact⟩
    have hlower : ∀ y ∈ ids, claim.minId.toInt ≤ y.toInt :=
      fun y hy => Int64.le_iff_toInt_le.mp (hexact.lower y hy)
    have hupper : ∀ y ∈ ids, y.toInt ≤ claim.maxId.toInt :=
      fun y hy => Int64.le_iff_toInt_le.mp (hexact.upper y hy)
    have hsorted : ids.Pairwise fun a b => a.toInt ≤ b.toInt := by
      refine hordered.imp_of_mem fun {a b} ha hb hab => ?_
      exact (osmLe_iff_of_nonneg (hmin.trans (hlower a ha)) (hmin.trans (hlower b hb))).mp hab
    refine ⟨hsorted, hne, hexact.count.symm, ?_, ?_⟩
    · cases ids with
      | nil => exact absurd rfl hne
      | cons x xs =>
        have hxle : x.toInt ≤ claim.minId.toInt := by
          rcases mem_cons.mp hexact.min_mem with h | h
          · rw [h]
          · exact (pairwise_cons.mp hsorted).1 _ h
        rw [← Int64.toInt_inj]
        exact le_antisymm hxle (hlower x mem_cons_self)
    · obtain ⟨init, last, rfl⟩ := eq_nil_or_concat ids |>.resolve_left hne
      rw [concat_eq_append] at hsorted hupper hexact ⊢
      have hle : claim.maxId.toInt ≤ last.toInt := by
        rcases mem_append.mp hexact.max_mem with h | h
        · exact (pairwise_snoc.mp hsorted).2 _ h
        · rw [mem_singleton.mp h]
      rw [getLast?_concat, Option.getD_some, ← Int64.toInt_inj]
      exact le_antisymm (hupper last (by simp)) hle

/-- Both checks accept exactly the ids that hold the claim, and ids the fast one does not accept
are refused for what is wrong with them. -/
theorem fast_and_full_checks_agree (claim : BlobIndex) (context : String) (ids : List Int64)
    (hmin : 0 ≤ claim.minId) : ((AscendingTally.addAll {} ids).holds claim = .ok true ↔
        ∃ first, walk claim context ids = .ok first) ∧
      ((∃ first, walk claim context ids = .ok first) ↔
        ids ≠ [] ∧ ids.Pairwise OsmLe ∧ ClaimsExactly claim ids) ∧
      ((AscendingTally.addAll {} ids).holds claim ≠ .ok true →
        DataRefusal (replayRefusal claim context ids)) := by
  have hwalk : (∃ first, walk claim context ids = .ok first) ↔ Holds claim ids := by
    rcases walk_cases claim context ids with ⟨h, hok⟩ | ⟨h, ⟨e, herr⟩, -⟩
    · exact ⟨fun _ => h, fun _ => ⟨_, hok⟩⟩
    · refine ⟨?_, fun hc => absurd hc h⟩
      rintro ⟨first, hok⟩
      rw [herr] at hok
      cases hok
  have hparts : Holds claim ids ↔ ids ≠ [] ∧ ids.Pairwise OsmLe ∧ ClaimsExactly claim ids :=
    ⟨fun h => ⟨h.nonempty, h.ordered, h.exact⟩, fun h => ⟨h.1, h.2.1, h.2.2⟩⟩
  refine ⟨(ascending_iff_holds hmin).trans hwalk.symm, hwalk.trans hparts, fun hnot => ?_⟩
  rcases walk_cases claim context ids with ⟨h, -⟩ | ⟨-, -, hdata⟩
  · exact absurd ((ascending_iff_holds hmin).mpr h) hnot
  · exact hdata

theorem fast_and_full_checks_agree_repeated :
    (AscendingTally.addAll {} [1, 1, 3]).holds ⟨.node, 1, 3, 3, none⟩ = .ok true ∧
      ∃ first, walk ⟨.node, 1, 3, 3, none⟩ "test" [1, 1, 3] = .ok first := by
  have h : (AscendingTally.addAll {} [1, 1, 3]).holds ⟨.node, 1, 3, 3, none⟩ = .ok true := by rfl
  exact ⟨h, (fast_and_full_checks_agree _ "test" _ (by decide)).1.mp h⟩

end ClaimTally
