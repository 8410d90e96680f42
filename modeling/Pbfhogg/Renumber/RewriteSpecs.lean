import Pbfhogg.Lib.Deltas
import Pbfhogg.Renumber.WireRewrite
import Pbfhogg.Wire.Written

/-!
# What the wire rewriters take and give

Every handler of the rewriters takes its field whole, so a rewrite is a fold over the chunks of a
message. The loops over packed arrays are folds over their values, and the references they replace
are the values' running sums.
-/

namespace RewriteSpecs

open Protohoggr FieldWalk Chunks IdSpace WireRewrite Deltas Fallible
open List hiding take

variable {ph : Crate}

variable {α : Type} {data : Bytes} {outField : String} {s t : RefIds} {rs : List Replacement}

lemma reads_wireErr {w : Nat} {read : Bytes → Except Protohoggr.Error (α × Bytes)}
    (h : ReadsField ph.reader w read) : ReadsField (cursor ph) w fun cur => wireErr (read cur) :=
  @ReadsField.mapError _ _ ph.reader _ RewriteError.wire w read h

lemma reads_len : ReadsField (cursor ph) wireLen fun cur => wireErr (ph.readLenDelimited cur) :=
  reads_wireErr Crate.readsField_len

lemma reads_int64 : ReadsField (cursor ph) wireVarint fun cur => wireErr (ph.readVarintI64 cur) :=
  reads_wireErr Crate.readsField_varintI64

lemma reads_raw (w : Nat) : ReadsField (cursor ph) w fun cur => wireErr (ph.readRawField w cur) :=
  reads_wireErr (Crate.readsField_raw w)

lemma reads_error {w : Nat} (e : RewriteError) :
    ReadsField (cursor ph) w fun _ => (.error e : Result (α × Bytes)) := by
  intro cur v rest h
  cases h

lemma copyField_eq (f w : Nat) (cur : Bytes) : copyField ph f w cur =
    take (wireErr (ph.readRawField w cur)) fun raw => .ok (ph.encodeTag f w ++ raw) := by
  unfold copyField take
  cases wireErr (ph.readRawField w cur) <;> rfl

lemma reads_copy (f w : Nat) : ReadsField (cursor ph) w (copyField ph f w) := by
  intro cur v rest h
  rw [copyField_eq] at h
  obtain ⟨hskip, hlocal⟩ := readsField_take (reads_raw w) _ h
  refine ⟨hskip, fun raw hraw rest' => ?_⟩
  rw [copyField_eq]
  exact hlocal raw hraw rest'

lemma local_splitField (keepAll : Bool) : Local (cursor ph) (splitField ph keepAll) := by
  intro s field wire
  unfold splitField
  split
  · exact readsField_take reads_len _
  · exact readsField_skip s _
  · split
    · exact readsField_take (reads_copy field wire) _
    · exact readsField_skip s _

lemma local_groupField {σ : Type} (f : σ → Bytes → Result σ) :
    Local (cursor ph) (groupField ph f) := by
  intro s field wire
  unfold groupField
  split
  · next h =>
    obtain ⟨-, rfl⟩ := h
    exact readsField_take reads_len _
  · exact readsField_skip s _

lemma local_singleDenseField : Local (cursor ph) (singleDenseField ph) := by
  intro s field wire
  unfold singleDenseField
  split
  · exact readsField_take reads_len _
  · exact reads_error _
  · exact reads_error _
  · exact reads_error _
  · exact readsField_skip s _

lemma local_denseField : Local (cursor ph) (denseField ph) := by
  intro s field wire
  unfold denseField
  split
  · exact reads_error _
  · exact readsField_take reads_len _
  · exact readsField_take (reads_copy field wire) _

lemma reads_wayPart (field wire : Nat) :
    ReadsField (cursor ph) wire (readWayPart ph field wire) := by
  unfold readWayPart
  split
  · exact readsField_take reads_int64 _
  · exact reads_error _
  · exact readsField_take reads_len _
  · exact readsField_take (reads_raw wire) _

lemma local_wayGroupField (base : Int64) (nodes : Space) :
    Local (cursor ph) (wayGroupField ph base nodes) := by
  intro s field wire
  unfold wayGroupField
  split
  · exact readsField_take reads_len _
  · exact reads_error _
  · exact reads_error _
  · exact reads_error _
  · exact readsField_take (reads_copy field wire) _

lemma reads_relationPart (field wire : Nat) :
    ReadsField (cursor ph) wire (readRelationPart ph field wire) := by
  unfold readRelationPart
  split
  · exact readsField_take reads_int64 _
  · exact readsField_take reads_len _
  · exact readsField_take reads_len _
  · exact reads_error _
  · exact reads_error _
  · exact readsField_take (reads_raw wire) _

lemma local_relationGroupField (ids : RelationIdSpaces) :
    Local (cursor ph) (relationGroupField ph ids) := by
  intro s field wire
  unfold relationGroupField
  split
  · exact readsField_take reads_len _
  · exact reads_error _
  · exact reads_error _
  · exact reads_error _
  · exact readsField_skip s _

lemma framed_cursor {c : Chunk} : c.Framed (cursor ph) ↔ c.Framed ph.reader :=
  Chunk.framed_mapError

lemma wireErr_eq_ok {x : Except Protohoggr.Error α} {a : α} :
    wireErr x = .ok a ↔ x = .ok a := mapError_eq_ok

lemma withContext_eq_ok {ctx : String} {x : Result α} {a : α} :
    withContext ctx x = .ok a ↔ x = .ok a := mapError_eq_ok

lemma orElse_eq_ok {x : Option α} {e : RewriteError} {a : α} : orElse x e = .ok a ↔ x = some a := by
  cases x <;> simp [orElse]

lemma foldSint64Fuel_ok {σ : Type} {step : σ → Int64 → Result σ} {fuel : Nat} {s t : σ}
    (hfuel : data.length ≤ fuel) : foldSint64Fuel ph step fuel s data = .ok t ↔
      ∃ vs, Varint.Values data vs ∧ (vs.map asSint64).foldlM step s = .ok t := by
  induction fuel generalizing s data with
  | zero =>
    have hnil : data = [] := length_eq_zero_iff.mp (by omega)
    subst hnil
    constructor
    · intro h
      cases h
      exact ⟨[], .nil, rfl⟩
    · rintro ⟨vs, hvs, h⟩
      rw [Varint.values_nil_left] at hvs
      subst hvs
      exact h
  | succ fuel ih =>
    rw [foldSint64Fuel]
    by_cases hnil : data = []
    · subst hnil
      rw [if_pos rfl]
      constructor
      · intro h
        cases h
        exact ⟨[], .nil, rfl⟩
      · rintro ⟨vs, hvs, h⟩
        rw [Varint.values_nil_left] at hvs
        subst hvs
        exact h
    · rw [if_neg hnil]
      constructor
      · intro h
        cases hread : wireErr (ph.readSint64 data) with
        | error e => simp [hread] at h
        | ok p =>
          obtain ⟨delta, rest⟩ := p
          obtain ⟨v, hv, rfl⟩ := ph.readSint64_ok.mp (wireErr_eq_ok.mp hread)
          have hlen := Varint.decode_length_lt hv
          cases hstep : step s (asSint64 v) with
          | error e => simp [hread, hstep] at h
          | ok s' =>
            simp only [hread, hstep] at h
            obtain ⟨vs, hvs, hfold⟩ := (ih (by omega)).mp h
            refine ⟨v :: vs, .cons hv hvs, ?_⟩
            rw [map_cons, foldlM_cons, hstep]
            exact hfold
      · rintro ⟨vs, hvs, hfold⟩
        cases hvs with
        | nil => exact absurd rfl hnil
        | @cons _ rest v vs hv hvs =>
          have hlen := Varint.decode_length_lt hv
          have hread : wireErr (ph.readSint64 data) = .ok (asSint64 v, rest) :=
            wireErr_eq_ok.mpr (ph.readSint64_ok.mpr ⟨v, hv, rfl⟩)
          rw [map_cons, foldlM_cons] at hfold
          obtain ⟨s', hstep, hfold⟩ := bind_eq_ok.mp hfold
          simp only [hread, hstep]
          exact (ih (by omega)).mpr ⟨vs, hvs, hfold⟩

/-- The loop over a packed array folds its values. -/
theorem foldSint64_ok {σ : Type} {step : σ → Int64 → Result σ} {s t : σ} :
    foldSint64 ph step s data = .ok t ↔
      ∃ vs, Varint.Values data vs ∧ (vs.map asSint64).foldlM step s = .ok t :=
  foldSint64Fuel_ok (Nat.le_refl _)

lemma countVarintsFuel_ok {fuel count n : Nat} (hfuel : data.length ≤ fuel) :
    countVarintsFuel ph fuel count data = .ok n ↔
      ∃ vs, Varint.Values data vs ∧ n = count + vs.length ∧ (vs = [] ∨ n < 2 ^ 64) := by
  induction fuel generalizing count data with
  | zero =>
    have hnil : data = [] := length_eq_zero_iff.mp (by omega)
    subst hnil
    constructor
    · intro h
      cases h
      exact ⟨[], .nil, rfl, .inl rfl⟩
    · rintro ⟨vs, hvs, h, -⟩
      rw [Varint.values_nil_left] at hvs
      subst hvs h
      rfl
  | succ fuel ih =>
    rw [countVarintsFuel]
    by_cases hnil : data = []
    · subst hnil
      rw [if_pos rfl]
      constructor
      · intro h
        cases h
        exact ⟨[], .nil, rfl, .inl rfl⟩
      · rintro ⟨vs, hvs, h, -⟩
        rw [Varint.values_nil_left] at hvs
        subst hvs h
        rfl
    · rw [if_neg hnil]
      constructor
      · intro h
        cases hread : wireErr (ph.readVarint data) with
        | error e => simp [hread] at h
        | ok p =>
          obtain ⟨v, rest⟩ := p
          have hv := ph.readVarint_ok.mp (wireErr_eq_ok.mp hread)
          have hlen := Varint.decode_length_lt hv
          simp only [hread] at h
          split at h
          · obtain ⟨vs, hvs, hn, hlt⟩ := (ih (by omega)).mp h
            refine ⟨v :: vs, .cons hv hvs, ?_, .inr ?_⟩
            · rw [length_cons]
              omega
            · rcases hlt with rfl | hlt
              · rw [length_nil] at hn
                omega
              · exact hlt
          · cases h
      · rintro ⟨vs, hvs, hn, hlt⟩
        cases hvs with
        | nil => exact absurd rfl hnil
        | @cons _ rest v vs hv hvs =>
          have hlen := Varint.decode_length_lt hv
          have hread : wireErr (ph.readVarint data) = .ok (v, rest) :=
            wireErr_eq_ok.mpr (ph.readVarint_ok.mpr hv)
          have hlt' : n < 2 ^ 64 := by
            rcases hlt with h | h
            · cases h
            · exact h
          rw [length_cons] at hn
          simp only [hread]
          rw [if_pos (by omega)]
          exact (ih (by omega)).mpr ⟨vs, hvs, by omega, .inr hlt'⟩

lemma countVarintsStrict_ok {n : Nat} : countVarintsStrict ph data = .ok n ↔
      ∃ vs, Varint.Values data vs ∧ n = vs.length ∧ (vs = [] ∨ n < 2 ^ 64) := by
  rw [countVarintsStrict, countVarintsFuel_ok (Nat.le_refl _)]
  simp only [Nat.zero_add]

lemma checkedAdd_eq_some {a b c : Int64} :
    checkedAdd a b = some c ↔ c = a + b ∧ -2 ^ 63 ≤ a.toInt + b.toInt ∧
      a.toInt + b.toInt < 2 ^ 63 := by
  unfold checkedAdd toI64
  split
  · next h =>
    have hsum : Int64.ofInt (a.toInt + b.toInt) = a + b := by
      rw [Int64.ofInt_add, Int64.ofInt_toInt, Int64.ofInt_toInt]
    rw [hsum, Option.some.injEq]
    constructor
    · intro hc
      exact ⟨hc.symm, h⟩
    · intro hc
      exact hc.1.symm
  · next h =>
    constructor
    · intro hc
      cases hc
    · intro hc
      exact absurd hc.2 h

lemma checkedSub_eq_some {a b c : Int64} :
    checkedSub a b = some c ↔ c = a - b ∧ -2 ^ 63 ≤ a.toInt - b.toInt ∧
      a.toInt - b.toInt < 2 ^ 63 := by
  unfold checkedSub toI64
  split
  · next h =>
    have hdiff : Int64.ofInt (a.toInt - b.toInt) = a - b := by
      rw [Int64.ofInt_sub, Int64.ofInt_toInt, Int64.ofInt_toInt]
    rw [hdiff, Option.some.injEq]
    constructor
    · intro hc
      exact ⟨hc.symm, h⟩
    · intro hc
      exact hc.1.symm
  · next h =>
    constructor
    · intro hc
      cases hc
    · intro hc
      exact absurd hc.2 h

/-- Both loops over references: the running sum, the refusal of a negative id, the new id. -/
def replaceStep (ph : Crate) (inField outField : String) (neg : Int64 → RewriteError)
    (res : Int64 → Result (Int64 × Bool)) (s : RefIds) (delta : Int64) : Result RefIds :=
  (orElse (checkedAdd s.prevOld delta) (deltaOverflowError inField)).bind fun old =>
    if old.toInt < 0 then .error (neg old)
    else (res old).bind fun r => pushRef ph outField s old r.1 r.2

/-- From a running sum that is not negative, a step gets through exactly on an id that is not. -/
theorem replaceStep_ok {inField : String} {neg : Int64 → RewriteError}
    {res : Int64 → Result (Int64 × Bool)} {delta : Int64} (hprev : 0 ≤ s.prevOld.toInt) :
    replaceStep ph inField outField neg res s delta = .ok t ↔
      0 ≤ (s.prevOld + delta).toInt ∧ ∃ r, res (s.prevOld + delta) = .ok r ∧
        pushRef ph outField s (s.prevOld + delta) r.1 r.2 = .ok t := by
  unfold replaceStep
  constructor
  · intro h
    obtain ⟨old, hold, h⟩ := bind_eq_ok.mp h
    obtain ⟨rfl, -⟩ := checkedAdd_eq_some.mp (orElse_eq_ok.mp hold)
    split at h
    · cases h
    · next hneg =>
      obtain ⟨r, hr, h⟩ := bind_eq_ok.mp h
      exact ⟨by omega, r, hr, h⟩
  · rintro ⟨hpos, r, hr, h⟩
    -- Two values that are not negative are less than the whole range apart.
    have hsum : s.prevOld.toInt + delta.toInt < 2 ^ 63 := by
      have hadd := Int64.toInt_add s.prevOld delta
      have hdhi := delta.toInt_lt
      have hphi := s.prevOld.toInt_lt
      by_contra hge
      rw [Int.bmod_def] at hadd
      split at hadd <;> omega
    have hlo : -2 ^ 63 ≤ s.prevOld.toInt + delta.toInt := by
      have := delta.le_toInt
      omega
    refine bind_eq_ok.mpr ⟨s.prevOld + delta, ?_, ?_⟩
    · exact orElse_eq_ok.mpr (checkedAdd_eq_some.mpr ⟨rfl, hlo, hsum⟩)
    · rw [if_neg (by omega)]
      exact bind_eq_ok.mpr ⟨r, hr, h⟩

/-- A reference replaced: the old id, the new one and whether it is an orphan. -/
structure Replacement where
  old : Int64
  new : Int64
  orphan : Bool

/-- The references one after the other. -/
inductive Replaced (ph : Crate) (outField : String) : RefIds → List Replacement → RefIds → Prop
  | nil {s : RefIds} : Replaced ph outField s [] s
  | cons {s s' t : RefIds} {r : Replacement} {rs : List Replacement} :
      0 ≤ r.old.toInt → pushRef ph outField s r.old r.new r.orphan = .ok s' →
      Replaced ph outField s' rs t → Replaced ph outField s (r :: rs) t

lemma pushRef_ok {old new : Int64} {orphan : Bool} : pushRef ph outField s old new orphan = .ok t ↔
      (orphan = true → s.orphans + 1 < 2 ^ 64) ∧
        (-2 ^ 63 ≤ new.toInt - s.prevNew.toInt ∧ new.toInt - s.prevNew.toInt < 2 ^ 63) ∧
        t = ⟨old, new, s.orphans + orphan.toNat,
          s.out ++ ph.encodeVarint (ph.zigzagEncode64 (new - s.prevNew))⟩ := by
  unfold pushRef
  constructor
  · intro h
    obtain ⟨orphans, ho, h⟩ := bind_eq_ok.mp h
    obtain ⟨d, hd, rfl⟩ := map_eq_ok.mp h
    obtain ⟨rfl, hrange⟩ := checkedSub_eq_some.mp (orElse_eq_ok.mp hd)
    cases orphan with
    | false =>
      cases ho
      exact ⟨by simp, hrange, rfl⟩
    | true =>
      obtain ⟨rfl, hlt⟩ := inc_ok.mp ho
      exact ⟨fun _ => hlt, hrange, rfl⟩
  · rintro ⟨hlt, hrange, rfl⟩
    have hd : checkedSub new s.prevNew = some (new - s.prevNew) :=
      checkedSub_eq_some.mpr ⟨rfl, hrange⟩
    refine bind_eq_ok.mpr ⟨s.orphans + orphan.toNat, ?_, ?_⟩
    · cases orphan with
      | false => rfl
      | true => exact inc_ok.mpr ⟨rfl, hlt rfl⟩
    · exact map_eq_ok.mpr ⟨new - s.prevNew, orElse_eq_ok.mpr hd, rfl⟩

lemma prevOld_pushRef {old new : Int64} {orphan : Bool}
    (h : pushRef ph outField s old new orphan = .ok t) : t.prevOld = old := by
  obtain ⟨-, -, rfl⟩ := pushRef_ok.mp h
  rfl

/-- What the replaced references leave behind. -/
theorem Replaced.result (h : Replaced ph outField s rs t) :
    t.out = s.out ++ (deltasFrom s.prevNew (rs.map Replacement.new)).flatMap (fun d =>
      ph.encodeVarint (ph.zigzagEncode64 d)) ∧
      t.orphans = s.orphans + rs.countP Replacement.orphan := by
  induction h with
  | nil => simp [deltasFrom]
  | cons _ hpush _ ih =>
    obtain ⟨-, -, rfl⟩ := pushRef_ok.mp hpush
    obtain ⟨hout, horphans⟩ := ih
    refine ⟨?_, ?_⟩
    · rw [hout, map_cons, deltasFrom, flatMap_cons, append_assoc]
    · rw [horphans, countP_cons]
      cases Replacement.orphan _
      · simp
      · simp
        omega

lemma Replaced.old_nonneg (h : Replaced ph outField s rs t) : ∀ r ∈ rs, 0 ≤ r.old.toInt := by
  induction h with
  | nil => simp
  | cons hpos _ _ ih =>
    intro r hr
    rcases mem_cons.mp hr with rfl | hr
    · exact hpos
    · exact ih r hr

lemma replaced_of_nonneg {outField : String} {s : RefIds} {rs : List Replacement}
    (hold : ∀ r ∈ rs, 0 ≤ r.old.toInt) (hnew : ∀ r ∈ rs, 0 ≤ r.new.toInt)
    (hprev : 0 ≤ s.prevNew.toInt) (hcount : s.orphans + rs.length < 2 ^ 64) :
    ∃ t, Replaced ph outField s rs t := by
  induction rs generalizing s with
  | nil => exact ⟨s, .nil⟩
  | cons r rs ih =>
    have hr := hnew r mem_cons_self
    have hhi := r.new.toInt_lt
    have hphi := s.prevNew.toInt_lt
    rw [length_cons] at hcount
    obtain ⟨s', hpush⟩ : ∃ s', pushRef ph outField s r.old r.new r.orphan = .ok s' :=
      ⟨_, pushRef_ok.mpr ⟨fun _ => by omega, ⟨by omega, by omega⟩, rfl⟩⟩
    obtain ⟨-, -, hs'⟩ := pushRef_ok.mp hpush
    have hle : r.orphan.toNat ≤ 1 := by cases r.orphan <;> simp
    have horphans : s'.orphans + rs.length < 2 ^ 64 := by
      rw [hs']
      dsimp only
      omega
    obtain ⟨t, ht⟩ := @ih s' (fun x hx => hold x (mem_cons_of_mem _ hx))
      (fun x hx => hnew x (mem_cons_of_mem _ hx)) (by rw [hs']; exact hr) horphans
    exact ⟨t, .cons (hold r mem_cons_self) hpush ht⟩

lemma refStep_eq (nodes : Space) (way : Int64) :
    refStep ph nodes way = replaceStep ph "Way.refs" "Way.refs (output)" negativeRefError
      fun old => withContext ("in way " ++ showId way) (nodes.resolve old) := rfl

/-- The loop over a way's refs replaces each of their running sums. -/
theorem refs_fold_ok {nodes : Space} {way : Int64} {deltas : List Int64}
    (hprev : 0 ≤ s.prevOld.toInt) : deltas.foldlM (refStep ph nodes way) s = .ok t ↔
      ∃ rs, rs.map Replacement.old = sumsFrom s.prevOld deltas ∧
        (∀ r ∈ rs, nodes.resolve r.old = .ok (r.new, r.orphan)) ∧
        Replaced ph "Way.refs (output)" s rs t := by
  induction deltas generalizing s with
  | nil =>
    constructor
    · intro h
      cases h
      exact ⟨[], rfl, by simp, .nil⟩
    · rintro ⟨rs, hrs, -, h⟩
      rw [sumsFrom, map_eq_nil_iff] at hrs
      subst hrs
      cases h
      rfl
  | cons d ds ih =>
    rw [foldlM_cons, refStep_eq]
    constructor
    · intro h
      obtain ⟨s', hstep, h⟩ := bind_eq_ok.mp h
      obtain ⟨hpos, r, hr, hpush⟩ := (replaceStep_ok hprev).mp hstep
      have hold := prevOld_pushRef hpush
      obtain ⟨rs, hrs, hres, hreplaced⟩ := (ih (by rw [hold]; exact hpos)).mp h
      refine ⟨⟨s.prevOld + d, r.1, r.2⟩ :: rs, ?_, ?_, .cons hpos hpush hreplaced⟩
      · rw [map_cons, hrs, sumsFrom, hold]
      · intro x hx
        rcases mem_cons.mp hx with rfl | hx
        · exact withContext_eq_ok.mp hr
        · exact hres x hx
    · rintro ⟨rs, hrs, hres, hreplaced⟩
      cases rs with
      | nil => simp [sumsFrom] at hrs
      | cons r rs =>
        rw [map_cons, sumsFrom, cons.injEq] at hrs
        obtain ⟨hold, hrs⟩ := hrs
        cases hreplaced with
        | @cons _ s' _ _ _ hpos hpush hreplaced =>
          have hr := hres r mem_cons_self
          rw [hold] at hpos hpush hr
          have hprev' := prevOld_pushRef hpush
          refine bind_eq_ok.mpr ⟨s', (replaceStep_ok hprev).mpr
            ⟨hpos, (r.new, r.orphan), withContext_eq_ok.mpr hr, hpush⟩, ?_⟩
          refine (ih (by rw [hprev']; exact hpos)).mpr ⟨rs, ?_, ?_, hreplaced⟩
          · rw [hrs, hprev']
          · intro x hx
            exact hres x (mem_cons_of_mem _ hx)

lemma Span.push_ok {s t : Span} {kind : String} {id : Int64} :
    s.push kind id = .ok t ↔ (∀ prev, s.last = some prev → prev.toInt < id.toInt) ∧
      t = ⟨s.first.or (some id), some id⟩ := by
  unfold Span.push
  cases s.last with
  | none => simp [eq_comm]
  | some prev =>
    simp only [Option.some.injEq, forall_eq']
    split
    · next h => simp [h]
    · next h =>
      have hlt : prev.toInt < id.toInt := by omega
      simp [hlt, eq_comm]

/-- The loop's state behind one node id. -/
def recordNode (s : NodeIds) (oldId : Int64) (span : Span) : NodeIds where
  span := span
  idSet := (s.idSet.setAtomicChecked oldId).2
  overflow := if (s.idSet.setAtomicChecked oldId).1 then s.overflow else s.overflow ++ [oldId]
  oldId := oldId
  groupCount := s.groupCount + 1

lemma nodeIdStep_ok {s t : NodeIds} {delta : Int64} :
    nodeIdStep s delta = .ok t ↔ ∃ oldId span, checkedAdd s.oldId delta = some oldId ∧
      0 ≤ oldId.toInt ∧ s.span.push "node" oldId = .ok span ∧ s.groupCount + 1 < 2 ^ 64 ∧
      t = recordNode s oldId span := by
  unfold nodeIdStep
  constructor
  · intro h
    obtain ⟨oldId, hold, h⟩ := bind_eq_ok.mp h
    split at h
    · cases h
    · next hneg =>
      obtain ⟨span, hspan, h⟩ := bind_eq_ok.mp h
      obtain ⟨count, hcount, rfl⟩ := map_eq_ok.mp h
      obtain ⟨rfl, hlt⟩ := inc_ok.mp hcount
      exact ⟨oldId, span, orElse_eq_ok.mp hold, by omega, hspan, hlt, rfl⟩
  · rintro ⟨oldId, span, hold, hneg, hspan, hlt, rfl⟩
    refine bind_eq_ok.mpr ⟨oldId, orElse_eq_ok.mpr hold, ?_⟩
    rw [if_neg (by omega)]
    exact bind_eq_ok.mpr ⟨span, hspan, map_eq_ok.mpr ⟨_, inc_ok.mpr ⟨rfl, hlt⟩, rfl⟩⟩

lemma memberStep_eq (ids : RelationIdSpaces) (rel : Int64) (s : RefIds) (ty : Nat) :
    memberStep ph ids rel s ty = replaceStep ph "Relation.memids" "Relation.memids (output)"
      (negativeMemberError rel) (resolveMember ids rel ty) s := rfl

/-- The loop over a relation's members replaces each by the space of its own type. -/
theorem members_fold_ok {ids : RelationIdSpaces} {rel : Int64} {types memids : Bytes}
    {ts vs : List Nat} {s t : RefIds} (hts : Varint.Values types ts)
    (hvs : Varint.Values memids vs) (hlen : ts.length = vs.length) (hprev : 0 ≤ s.prevOld.toInt) :
    foldMembers ph ids rel vs.length s types memids = .ok t ↔
      ∃ rs, rs.map Replacement.old = sumsFrom s.prevOld (vs.map asSint64) ∧
        List.Forall₂ (fun ty r => resolveMember ids rel ty r.old = .ok (r.new, r.orphan)) ts rs ∧
        Replaced ph "Relation.memids (output)" s rs t := by
  induction hvs generalizing types ts s with
  | nil =>
    obtain rfl : ts = [] := length_eq_zero_iff.mp hlen
    constructor
    · intro h
      cases h
      exact ⟨[], rfl, .nil, .nil⟩
    · rintro ⟨rs, hrs, -, h⟩
      rw [map_nil, sumsFrom, map_eq_nil_iff] at hrs
      subst hrs
      cases h
      rfl
  | @cons memids memids' v vs hv hvs ih =>
    cases hts with
    | nil => cases hlen
    | @cons _ types' ty ts hty hts =>
      have hlen' : ts.length = vs.length := Nat.succ.inj hlen
      have hreadT : withContext "types varint" (wireErr (ph.readVarint types)) = .ok (ty, types') :=
        withContext_eq_ok.mpr (wireErr_eq_ok.mpr (ph.readVarint_ok.mpr hty))
      have hreadM : withContext "memids varint" (wireErr (ph.readSint64 memids)) =
          .ok (asSint64 v, memids') :=
        withContext_eq_ok.mpr (wireErr_eq_ok.mpr (ph.readSint64_ok.mpr ⟨v, hv, rfl⟩))
      rw [length_cons, foldMembers]
      simp only [hreadT, hreadM]
      constructor
      · intro h
        cases hstep : memberStep ph ids rel s ty (asSint64 v) with
        | error e => simp [hstep] at h
        | ok s' =>
          simp only [hstep] at h
          rw [memberStep_eq] at hstep
          obtain ⟨hpos, r, hr, hpush⟩ := (replaceStep_ok hprev).mp hstep
          have hold := prevOld_pushRef hpush
          obtain ⟨rs, hrs, hres, hreplaced⟩ :=
            (ih hts hlen' (by rw [hold]; exact hpos)).mp h
          refine ⟨⟨s.prevOld + asSint64 v, r.1, r.2⟩ :: rs, ?_, .cons hr hres,
            .cons hpos hpush hreplaced⟩
          rw [map_cons, map_cons, hrs, sumsFrom, hold]
      · rintro ⟨rs, hrs, hres, hreplaced⟩
        cases hres with
        | @cons _ r _ rs hr hres =>
          rw [map_cons, map_cons, sumsFrom, cons.injEq] at hrs
          obtain ⟨hold, hrs⟩ := hrs
          cases hreplaced with
          | @cons _ s' _ _ _ hpos hpush hreplaced =>
            rw [hold] at hpos hpush hr
            have hprev' := prevOld_pushRef hpush
            have hstep : memberStep ph ids rel s ty (asSint64 v) = .ok s' := by
              rw [memberStep_eq]
              exact (replaceStep_ok hprev).mpr ⟨hpos, (r.new, r.orphan), hr, hpush⟩
            simp only [hstep]
            refine (ih hts hlen' (by rw [hprev']; exact hpos)).mpr ⟨rs, ?_, hres, hreplaced⟩
            rw [hrs, hprev']

/-- What it takes to rewrite a way, and what comes out. -/
theorem reframeWay_ok {bytes : Bytes} {newWayId : Int64} {nodes : Space} {wayIdSet : IdSet}
    {span : Span} {r : Span × IdSet × Nat × Bytes} :
    reframeWay ph bytes newWayId nodes wayIdSet span = .ok r ↔
      ∃ scan id span' refs refsR, scanWay ph bytes = .ok scan ∧ scan.id = some id ∧
        0 ≤ id.1.toInt ∧ span.push "way" id.1 = .ok span' ∧
        foldSint64 ph (refStep ph nodes id.1) {} scan.oldRefsData = .ok refs ∧
        scan.refsRange = some refsR ∧ r = (span', wayIdSet.set id.1, refs.orphans,
          spliceTwo bytes id.2 (ph.encodeInt64Field 1 newWayId) refsR
            (ph.encodeBytesField 8 refs.out)) := by
  unfold reframeWay
  constructor
  · intro h
    obtain ⟨scan, hscan, h⟩ := bind_eq_ok.mp h
    obtain ⟨id, hid, h⟩ := bind_eq_ok.mp h
    split at h
    · cases h
    · next hneg =>
      obtain ⟨span', hspan, h⟩ := bind_eq_ok.mp h
      obtain ⟨refs, hrefs, h⟩ := bind_eq_ok.mp h
      obtain ⟨refsR, hrefsR, rfl⟩ := map_eq_ok.mp h
      exact ⟨scan, id, span', refs, refsR, hscan, orElse_eq_ok.mp hid, by omega, hspan, hrefs,
        orElse_eq_ok.mp hrefsR, rfl⟩
  · rintro ⟨scan, id, span', refs, refsR, hscan, hid, hneg, hspan, hrefs, hrefsR, rfl⟩
    refine bind_eq_ok.mpr ⟨scan, hscan, bind_eq_ok.mpr ⟨id, orElse_eq_ok.mpr hid, ?_⟩⟩
    rw [if_neg (by omega)]
    exact bind_eq_ok.mpr ⟨span', hspan, bind_eq_ok.mpr ⟨refs, hrefs,
      map_eq_ok.mpr ⟨refsR, orElse_eq_ok.mpr hrefsR, rfl⟩⟩⟩

/-- The relation with its two ranges replaced, or with its id replaced where it has no members. -/
def spliceRelation (ph : Crate) (bytes : Bytes) (id : Nat × Nat) (newRelId : Int64)
    (memidsR : Option (Nat × Nat)) (memids : Bytes) : Bytes :=
  match memidsR with
  | some memidsR =>
    spliceTwo bytes id (ph.encodeInt64Field 1 newRelId) memidsR (ph.encodeBytesField 9 memids)
  | none => bytes.take id.1 ++ (ph.encodeInt64Field 1 newRelId ++ bytes.drop id.2)

lemma reframeRelation_ok {bytes : Bytes} {ids : RelationIdSpaces} {span : Span}
    {r : Span × Int64 × Nat × Bytes} : reframeRelation ph bytes ids span = .ok r ↔
      ∃ scan id span' newRelId members, scanRelation ph bytes = .ok scan ∧ scan.id = some id ∧
        0 ≤ id.1.toInt ∧ span.push "relation" id.1 = .ok span' ∧
        ids.relations.live id.1 = .ok (some newRelId) ∧
        reframeMembers ph ids id.1 scan.oldMemidsData scan.typesData = .ok members ∧
        r = (span', newRelId, members.orphans,
          spliceRelation ph bytes id.2 newRelId scan.memidsRange members.out) := by
  unfold reframeRelation
  constructor
  · intro h
    obtain ⟨scan, hscan, h⟩ := bind_eq_ok.mp h
    obtain ⟨id, hid, h⟩ := bind_eq_ok.mp h
    split at h
    · cases h
    · next hneg =>
      obtain ⟨span', hspan, h⟩ := bind_eq_ok.mp h
      obtain ⟨live, hlive, h⟩ := bind_eq_ok.mp h
      obtain ⟨newRelId, hnew, h⟩ := bind_eq_ok.mp h
      obtain ⟨members, hmembers, rfl⟩ := map_eq_ok.mp h
      rw [orElse_eq_ok.mp hnew] at hlive
      exact ⟨scan, id, span', newRelId, members, hscan, orElse_eq_ok.mp hid, by omega, hspan,
        hlive, hmembers, rfl⟩
  · rintro ⟨scan, id, span', newRelId, members, hscan, hid, hneg, hspan, hlive, hmembers, rfl⟩
    refine bind_eq_ok.mpr ⟨scan, hscan, bind_eq_ok.mpr ⟨id, orElse_eq_ok.mpr hid, ?_⟩⟩
    rw [if_neg (by omega)]
    exact bind_eq_ok.mpr ⟨span', hspan, bind_eq_ok.mpr ⟨some newRelId, hlive,
      bind_eq_ok.mpr ⟨newRelId, rfl, map_eq_ok.mpr ⟨members, hmembers, rfl⟩⟩⟩⟩

lemma addOrphans_ok {n m k : Nat} : addOrphans n m = .ok k ↔ k = n + m ∧ n + m < 2 ^ 64 := by
  unfold addOrphans
  split
  · next h =>
    constructor
    · intro hk
      cases hk
      exact ⟨rfl, h⟩
    · rintro ⟨rfl, -⟩
      rfl
  · next h =>
    constructor
    · intro hk
      cases hk
    · intro hk
      exact absurd hk.2 h

end RewriteSpecs
