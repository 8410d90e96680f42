import Pbfhogg.Lib.LeBytes
import Pbfhogg.Lib.Fallible

/-!
# Walks over tagged fields

A message in a tag-then-value format is a sequence of fields. A parser reads a tag, hands the rest
to a handler that reads the value or skips it, and goes on behind it. When every handler stops where
skipping the field would, the parse is a fold over the fields.
-/

namespace FieldWalk

open Fallible List

variable {ε σ α : Type}

/-- The two operations of a cursor that framing rests on. -/
structure Reader (ε : Type) where
  readTag : Bytes → Except ε (Option (Nat × Nat × Bytes))
  skipField : Nat → Bytes → Except ε Bytes
  readTag_eq_none : ∀ {data}, readTag data = .ok none ↔ data = []
  readTag_split : ∀ {data f w rest}, readTag data = .ok (some (f, w, rest)) →
    ∃ tag, data = tag ++ rest ∧ ∀ rest', readTag (tag ++ rest') = .ok (some (f, w, rest'))
  readTag_shrinks : ∀ {data f w rest}, readTag data = .ok (some (f, w, rest)) →
    rest.length < data.length
  skipField_split : ∀ {w data rest}, skipField w data = .ok rest →
    ∃ raw, data = raw ++ rest ∧ ∀ rest', skipField w (raw ++ rest') = .ok rest'

/-- The same cursor with its errors renamed. -/
def Reader.mapError {ε' : Type} (R : Reader ε) (f : ε → ε') : Reader ε' where
  readTag data := (R.readTag data).mapError f
  skipField w data := (R.skipField w data).mapError f
  readTag_eq_none := by
    intro data
    rw [mapError_eq_ok]
    exact R.readTag_eq_none
  readTag_split h := by
    obtain ⟨tag, hdata, hlocal⟩ := R.readTag_split (mapError_eq_ok.mp h)
    exact ⟨tag, hdata, fun rest' => mapError_eq_ok.mpr (hlocal rest')⟩
  readTag_shrinks h := R.readTag_shrinks (mapError_eq_ok.mp h)
  skipField_split h := by
    obtain ⟨raw, hdata, hlocal⟩ := R.skipField_split (mapError_eq_ok.mp h)
    exact ⟨raw, hdata, fun rest' => mapError_eq_ok.mpr (hlocal rest')⟩

/-- One field of a message: its number, its wire type and the bytes of its value. -/
structure Field where
  number : Nat
  wire : Nat
  raw : Bytes

/-- A handler takes the value of one field off the cursor. -/
abbrev Handler (ε σ : Type) := σ → Nat → Nat → Bytes → Except ε (σ × Bytes)

/-- Read a value and go on with it. -/
def take (r : Except ε (α × Bytes)) (k : α → Except ε σ) : Except ε (σ × Bytes) :=
  r.bind fun p => (k p.1).map fun s => (s, p.2)

variable {k : α → Except ε σ} {s s' : σ} {rest raw data : Bytes} {h : Handler ε σ} {w : Nat}
  {fs : List Field} {read : Bytes → Except ε (α × Bytes)}

lemma take_eq_ok {r : Except ε (α × Bytes)} :
    take r k = .ok (s, rest) ↔ ∃ a, r = .ok (a, rest) ∧ k a = .ok s := by
  cases r with
  | error e => simp [take, Except.bind]
  | ok p =>
    obtain ⟨a, rest'⟩ := p
    cases hk : k a with
    | error e => simp [take, Except.bind, hk, Except.map]
    | ok t => simp [take, Except.bind, hk, Except.map, and_comm]

section Walk

variable (R : Reader ε)

def skip (s : σ) (w : Nat) (cur : Bytes) : Except ε (σ × Bytes) :=
  (R.skipField w cur).map fun rest => (s, rest)

/-- The parse loop; each turn consumes at least the tag. -/
def walkFuel (h : Handler ε σ) : Nat → σ → Bytes → Except ε σ
  | 0, s, _ => .ok s
  | fuel + 1, s, data =>
    match R.readTag data with
    | .error e => .error e
    | .ok none => .ok s
    | .ok (some (f, w, cur)) =>
      match h s f w cur with
      | .error e => .error e
      | .ok (s', rest) => walkFuel h fuel s' rest

def walk (h : Handler ε σ) (s : σ) (data : Bytes) : Except ε σ :=
  walkFuel R h data.length s data

/-- The fields of a well framed message. -/
inductive Fields : Bytes → List Field → Prop
  | nil : Fields [] []
  | cons {data raw rest : Bytes} {f w : Nat} {fs : List Field} :
      R.readTag data = .ok (some (f, w, raw ++ rest)) →
      R.skipField w (raw ++ rest) = .ok rest →
      Fields rest fs → Fields data (⟨f, w, raw⟩ :: fs)

/-- `read` takes exactly the bytes that skipping the field takes, and looks at no others. -/
def ReadsField (w : Nat) (read : Bytes → Except ε (α × Bytes)) : Prop :=
  ∀ {cur v rest}, read cur = .ok (v, rest) →
    R.skipField w cur = .ok rest ∧
      ∀ raw, cur = raw ++ rest → ∀ rest', read (raw ++ rest') = .ok (v, rest')

/-- A handler that stops where skipping the field stops. -/
def Steps (h : Handler ε σ) : Prop :=
  ∀ s f w cur s' rest, h s f w cur = .ok (s', rest) → R.skipField w cur = .ok rest

/-- A handler that does not grow the cursor. -/
def Shrinks (h : Handler ε σ) : Prop :=
  ∀ s f w cur s' rest, h s f w cur = .ok (s', rest) → rest.length ≤ cur.length

/-- A handler that takes exactly the field it is handed. -/
def Local (h : Handler ε σ) : Prop :=
  ∀ s f w, ReadsField R w (h s f w)

/-- What a handler makes of one field. -/
def absorb (h : Handler ε σ) (s : σ) (fld : Field) : Except ε σ :=
  (h s fld.number fld.wire fld.raw).map Prod.fst

variable {R}

lemma Local.steps (hl : Local R h) : Steps R h :=
  fun s f w _ _ _ hh => (hl s f w hh).1

lemma length_le_of_skip {cur : Bytes} (h : R.skipField w cur = .ok rest) :
    rest.length ≤ cur.length := by
  obtain ⟨raw, hraw, -⟩ := R.skipField_split h
  simp [hraw]

lemma Steps.shrinks (hl : Steps R h) : Shrinks h := by
  intro s f w cur s' rest hh
  exact length_le_of_skip (hl _ _ _ _ _ _ hh)

lemma skipField_nil_of_split {w : Nat} {raw rest : Bytes}
    (h : R.skipField w (raw ++ rest) = .ok rest) (rest' : Bytes) :
    R.skipField w (raw ++ rest') = .ok rest' := by
  obtain ⟨raw', hraw, hskip⟩ := R.skipField_split h
  rw [append_cancel_right hraw]
  exact hskip rest'

lemma skipField_value (h : R.skipField w (raw ++ rest) = .ok rest) :
    R.skipField w raw = .ok [] := by
  have hraw := skipField_nil_of_split h []
  rwa [append_nil] at hraw

lemma Fields.skipField (h : Fields R data fs) :
    ∀ fld ∈ fs, R.skipField fld.wire fld.raw = .ok [] := by
  induction h with
  | nil => nofun
  | cons _ hskip _ ih =>
    rw [forall_mem_cons]
    exact ⟨skipField_value hskip, ih⟩

lemma Fields.unique {gs : List Field} (hf : Fields R data fs) (hg : Fields R data gs) :
    fs = gs := by
  induction hf generalizing gs with
  | nil =>
    cases hg with
    | nil => rfl
    | cons ht _ _ => rw [R.readTag_eq_none.mpr rfl] at ht; cases ht
  | cons ht hs _ ih =>
    cases hg with
    | nil => rw [R.readTag_eq_none.mpr rfl] at ht; cases ht
    | cons ht' hs' hg' =>
      rw [ht] at ht'
      simp only [Except.ok.injEq, Option.some.injEq, Prod.mk.injEq] at ht'
      obtain ⟨rfl, rfl, hcur⟩ := ht'
      rw [hcur, hs', Except.ok.injEq] at hs
      subst hs
      rw [append_cancel_right hcur, ih hg']

/-- A turn of the loop with a handler that does not grow the cursor. -/
theorem walkFuel_eq (hl : Shrinks h) {fuel fuel' : Nat} (hf : data.length ≤ fuel)
    (hf' : data.length ≤ fuel') : walkFuel R h fuel s data = walkFuel R h fuel' s data := by
  induction fuel generalizing fuel' s data with
  | zero =>
    have hnil : data = [] := length_eq_zero_iff.mp (by omega)
    subst hnil
    cases fuel' with
    | zero => rfl
    | succ fuel' => simp [walkFuel, R.readTag_eq_none.mpr rfl]
  | succ fuel ih =>
    cases fuel' with
    | zero =>
      have hnil : data = [] := length_eq_zero_iff.mp (by omega)
      subst hnil
      simp [walkFuel, R.readTag_eq_none.mpr rfl]
    | succ fuel' =>
      simp only [walkFuel]
      cases htag : R.readTag data with
      | error e => rfl
      | ok tag =>
        cases tag with
        | none => rfl
        | some t =>
          obtain ⟨f, w, cur⟩ := t
          have hshrink := R.readTag_shrinks htag
          cases hh : h s f w cur with
          | error e => simp [hh]
          | ok p =>
            obtain ⟨s', rest⟩ := p
            have hlen := hl _ _ _ _ _ _ hh
            simp only [hh]
            exact ih (by omega) (by omega)

lemma walk_nil (s : σ) : walk R h s [] = .ok s := rfl

lemma walk_cons (hl : Shrinks h) {cur : Bytes} {f : Nat}
    (htag : R.readTag data = .ok (some (f, w, cur))) (hh : h s f w cur = .ok (s', rest)) :
    walk R h s data = walk R h s' rest := by
  have hshrink := R.readTag_shrinks htag
  have hlen := hl _ _ _ _ _ _ hh
  obtain ⟨n, hn⟩ : ∃ n, data.length = n + 1 := ⟨data.length - 1, by omega⟩
  rw [walk, hn, walkFuel, htag]
  simp only [hh]
  exact walkFuel_eq hl (by omega) (Nat.le_refl _)

/-- The handler's first turn, when the parse gets through. -/
theorem walk_ok_cases (hl : Steps R h) {t : σ} (hw : walk R h s data = .ok t) :
    (data = [] ∧ t = s) ∨ ∃ f w cur s' rest, R.readTag data = .ok (some (f, w, cur)) ∧
      h s f w cur = .ok (s', rest) ∧ walk R h s' rest = .ok t := by
  cases data with
  | nil => exact .inl ⟨rfl, by cases hw; rfl⟩
  | cons b bs =>
    right
    have hw' := hw
    rw [walk, length_cons, walkFuel] at hw'
    cases htag : R.readTag (b :: bs) with
    | error e => simp [htag] at hw'
    | ok tag =>
      cases tag with
      | none =>
        have := R.readTag_eq_none.mp htag
        cases this
      | some q =>
        obtain ⟨f, w, cur⟩ := q
        cases hh : h s f w cur with
        | error e => simp [htag, hh] at hw'
        | ok p =>
          obtain ⟨s', rest⟩ := p
          refine ⟨f, w, cur, s', rest, rfl, hh, ?_⟩
          rw [← walk_cons hl.shrinks htag hh]
          exact hw

lemma absorb_of_ok (hl : Local R h) {f : Nat} (hh : h s f w (raw ++ rest) = .ok (s', rest)) :
    absorb h s ⟨f, w, raw⟩ = .ok s' := by
  have := (hl s f w hh).2 raw rfl []
  rw [append_nil] at this
  simp [absorb, this, Except.map]

lemma ok_of_absorb (hl : Local R h) {f : Nat} (hs : R.skipField w (raw ++ rest) = .ok rest)
    (ha : absorb h s ⟨f, w, raw⟩ = .ok s') : h s f w (raw ++ rest) = .ok (s', rest) := by
  rw [absorb] at ha
  cases hh : h s f w raw with
  | error e => simp [hh, Except.map] at ha
  | ok p =>
    obtain ⟨t, rest'⟩ := p
    simp only [hh, Except.map, Except.ok.injEq] at ha
    subst ha
    -- The handler stops where skipping stops, which is the end of the value.
    have hend : rest' = [] := by
      have hskip := skipField_nil_of_split hs []
      rw [append_nil, (hl s f w hh).1, Except.ok.injEq] at hskip
      exact hskip
    subst hend
    exact (hl s f w hh).2 raw (by simp) rest

/-- A handler that reads the value whole and goes on with it. -/
theorem absorb_take {h : Handler ε σ} {s : σ} {fld : Field} {a : α}
    {read : Bytes → Except ε (α × Bytes)} {k : α → Except ε σ}
    (hh : h s fld.number fld.wire = fun cur => take (read cur) k)
    (hread : read fld.raw = .ok (a, [])) : absorb h s fld = k a := by
  simp only [absorb, hh, take, hread, Except.bind]
  cases k a <;> rfl

lemma absorb_take_eq_ok {h : Handler ε σ} {s s' : σ} {fld : Field}
    {read : Bytes → Except ε (α × Bytes)} {k : α → Except ε σ}
    (hh : h s fld.number fld.wire = fun cur => take (read cur) k) :
    absorb h s fld = .ok s' ↔ ∃ a rest, read fld.raw = .ok (a, rest) ∧ k a = .ok s' := by
  rw [absorb, hh, map_eq_ok]
  constructor
  · rintro ⟨⟨s'', rest⟩, htake, rfl⟩
    obtain ⟨a, ha, hk⟩ := take_eq_ok.mp htake
    exact ⟨a, rest, ha, hk⟩
  · rintro ⟨a, rest, ha, hk⟩
    exact ⟨(s', rest), take_eq_ok.mpr ⟨a, ha, hk⟩, rfl⟩

lemma absorb_skip {fld : Field} (hh : h s fld.number fld.wire = skip R s fld.wire)
    (hskip : R.skipField fld.wire fld.raw = .ok []) : absorb h s fld = .ok s := by
  simp only [absorb, hh, skip, hskip]
  rfl

/-- A parse gets through exactly when the message is well framed and the handler accepts its
fields one after the other. -/
theorem walk_ok_iff (hl : Local R h) {t : σ} : walk R h s data = .ok t ↔
      ∃ fs, Fields R data fs ∧ fs.foldlM (absorb h) s = .ok t := by
  constructor
  · intro hw
    induction hn : data.length using Nat.strongRecOn generalizing s data with
    | _ n ih =>
      rcases walk_ok_cases hl.steps hw with ⟨rfl, rfl⟩ | ⟨f, w, cur, s', rest, htag, hh, hw'⟩
      · exact ⟨[], .nil, rfl⟩
      · have hshrink := R.readTag_shrinks htag
        obtain ⟨hskip, -⟩ := hl s f w hh
        obtain ⟨raw, rfl, -⟩ := R.skipField_split hskip
        have hlen : rest.length < n := by simp at hshrink; omega
        obtain ⟨fs, hfs, hfold⟩ := ih rest.length hlen hw' rfl
        refine ⟨⟨f, w, raw⟩ :: fs, .cons htag hskip hfs, ?_⟩
        rw [foldlM_cons, absorb_of_ok hl hh]
        exact hfold
  · rintro ⟨fs, hfs, hfold⟩
    induction hfs generalizing s with
    | nil =>
      cases hfold
      rfl
    | cons htag hskip _ ih =>
      rw [foldlM_cons] at hfold
      cases ha : absorb h s ⟨_, _, _⟩ with
      | error e =>
        rw [ha] at hfold
        cases hfold
      | ok s' =>
        rw [ha] at hfold
        rw [walk_cons hl.steps.shrinks htag (ok_of_absorb hl hskip ha)]
        exact ih hfold

lemma walk_fold (hl : Local R h) {step : σ → Field → σ} (hfs : Fields R data fs)
    (hstep : ∀ s, ∀ fld ∈ fs, R.skipField fld.wire fld.raw = .ok [] →
      absorb h s fld = .ok (step s fld)) (s : σ) : walk R h s data = .ok (fs.foldl step s) := by
  refine (walk_ok_iff hl).mpr ⟨fs, hfs, ?_⟩
  induction hfs generalizing s with
  | nil => rfl
  | cons _ hskip _ ih =>
    rw [foldlM_cons, hstep s _ mem_cons_self (skipField_value hskip)]
    exact ih (fun s fld hfld => hstep s fld (mem_cons_of_mem _ hfld)) (step s _)

/-- Two handlers in step: a parse with the one is a parse with the other. -/
theorem walk_sim {τ : Type} {g : Handler ε τ} (hh : Steps R h) (hg : Steps R g)
    {Rel : σ → τ → Prop} {buffer : Bytes}
    (hstep : ∀ {s t f w cur s' rest}, cur <:+ buffer → Rel s t → h s f w cur = .ok (s', rest) →
      ∃ t', g t f w cur = .ok (t', rest) ∧ Rel s' t')
    {t : τ} (hsuffix : data <:+ buffer) (hrel : Rel s t) (hw : walk R h s data = .ok s') :
    ∃ t', walk R g t data = .ok t' ∧ Rel s' t' := by
  induction hn : data.length using Nat.strongRecOn generalizing s t data with
  | _ n ih =>
    rcases walk_ok_cases hh hw with ⟨rfl, rfl⟩ | ⟨f, w, cur, s₁, rest, htag, hhs, hw'⟩
    · exact ⟨t, rfl, hrel⟩
    · obtain ⟨raw, hcur, -⟩ := R.skipField_split (hh _ _ _ _ _ _ hhs)
      obtain ⟨tag, htagged, -⟩ := R.readTag_split htag
      have hcurs : cur <:+ data := ⟨tag, htagged.symm⟩
      obtain ⟨t₁, hgt, hrel₁⟩ := hstep (hcurs.trans hsuffix) hrel hhs
      have hshrink := R.readTag_shrinks htag
      have hlen : rest.length < n := by
        have : cur.length = raw.length + rest.length := by simp [hcur]
        omega
      have hrest : rest <:+ buffer :=
        (List.IsSuffix.trans ⟨raw, hcur.symm⟩ hcurs).trans hsuffix
      obtain ⟨t', hwt, hrel'⟩ := ih rest.length hlen hrest hrel₁ hw' rfl
      exact ⟨t', by rw [walk_cons hg.shrinks htag hgt, hwt], hrel'⟩

/-- A handler that does to a view of the state what another does to the state. -/
theorem walk_map {τ : Type} {g : Handler ε τ} (view : σ → τ)
    (hview : ∀ s f w cur, g (view s) f w cur = (h s f w cur).map fun p => (view p.1, p.2)) (s : σ)
    (data : Bytes) : walk R g (view s) data = (walk R h s data).map view := by
  suffices hfuel : ∀ fuel s data,
      walkFuel R g fuel (view s) data = (walkFuel R h fuel s data).map view from hfuel _ s data
  intro fuel
  induction fuel with
  | zero => exact fun _ _ => rfl
  | succ fuel ih =>
    intro s data
    rw [walkFuel, walkFuel]
    cases R.readTag data with
    | error e => rfl
    | ok tag =>
      cases tag with
      | none => rfl
      | some t =>
        obtain ⟨f, w, cur⟩ := t
        simp only [hview]
        cases h s f w cur with
        | error e => rfl
        | ok p => exact ih p.1 p.2

lemma ReadsField.mapError {ε' : Type} {f : ε → ε'} {w : Nat}
    {read : Bytes → Except ε (α × Bytes)} (h : ReadsField R w read) :
    ReadsField (R.mapError f) w fun cur => (read cur).mapError f := by
  intro cur v rest hr
  obtain ⟨hskip, hlocal⟩ := h (mapError_eq_ok.mp hr)
  exact ⟨mapError_eq_ok.mpr hskip, fun raw hraw rest' =>
    mapError_eq_ok.mpr (hlocal raw hraw rest')⟩

lemma readsField_take (hr : ReadsField R w read) (k : α → Except ε σ) :
    ReadsField R w fun cur => take (read cur) k := by
  intro cur s rest h
  cases hread : read cur with
  | error e => simp [take, hread, Except.bind] at h
  | ok p =>
    obtain ⟨v, rest'⟩ := p
    cases hk : k v with
    | error e => simp [take, hread, Except.bind, hk, Except.map] at h
    | ok s' =>
      simp only [take, hread, Except.bind, hk, Except.map, Except.ok.injEq, Prod.mk.injEq] at h
      obtain ⟨rfl, rfl⟩ := h
      obtain ⟨hskip, hread'⟩ := hr hread
      refine ⟨hskip, fun raw hraw rest' => ?_⟩
      simp [take, hread' raw hraw rest', Except.bind, hk, Except.map]

lemma readsField_skip (s : σ) (w : Nat) : ReadsField R w (skip R s w) := by
  intro cur t rest h
  cases hs : R.skipField w cur with
  | error e => simp [skip, hs, Except.map] at h
  | ok rest' =>
    simp only [skip, hs, Except.map, Except.ok.injEq, Prod.mk.injEq] at h
    obtain ⟨rfl, rfl⟩ := h
    refine ⟨rfl, fun raw hraw rest' => ?_⟩
    subst hraw
    simp [skip, skipField_nil_of_split hs rest', Except.map]

/-- On a field, `read` does what it does on the value alone, be it to fail. -/
def Settles (R : Reader ε) (w : Nat) (read : Bytes → Except ε (α × Bytes)) : Prop :=
  ∀ raw rest, R.skipField w (raw ++ rest) = .ok rest →
    read (raw ++ rest) = (read raw).map fun p => (p.1, rest)

lemma settles_skip (s : σ) (w : Nat) : Settles R w (skip R s w) := by
  intro raw rest h
  simp [skip, h, skipField_value h, Except.map]

lemma settles_take (hr : Settles R w read) (k : α → Except ε σ) :
    Settles R w fun cur => take (read cur) k := by
  intro raw rest h
  simp only [take, hr raw rest h]
  cases hread : read raw with
  | error e => rfl
  | ok p => cases hk : k p.1 <;> simp [Except.map, Except.bind, hk]

lemma settles_of_reads (hr : ReadsField R w read)
    (hok : ∀ {raw}, R.skipField w raw = .ok [] → ∃ a, read raw = .ok (a, [])) :
    Settles R w read := by
  intro raw rest h
  obtain ⟨a, ha⟩ := hok (skipField_value h)
  rw [ha, (hr ha).2 raw (append_nil raw).symm rest]
  rfl

lemma Settles.mapError {ε' : Type} {f : ε → ε'} {w : Nat}
    {read : Bytes → Except ε (α × Bytes)} (h : Settles R w read) :
    Settles (R.mapError f) w fun cur => (read cur).mapError f := by
  intro raw rest hskip
  simp only [h raw rest (mapError_eq_ok.mp hskip)]
  cases read raw <;> rfl

lemma Fields.mapError {ε' : Type} {f : ε → ε'} {data : Bytes} {fs : List Field}
    (h : Fields R data fs) : Fields (R.mapError f) data fs := by
  induction h with
  | nil => exact .nil
  | cons htag hskip _ ih => exact .cons (mapError_eq_ok.mpr htag) (mapError_eq_ok.mpr hskip) ih

lemma Fields.of_mapError {ε' : Type} {f : ε → ε'} (h : Fields (R.mapError f) data fs) :
    Fields R data fs := by
  induction h with
  | nil => exact .nil
  | cons htag hskip _ ih => exact .cons (mapError_eq_ok.mp htag) (mapError_eq_ok.mp hskip) ih

/-- The walk over a well framed message is the fold over its fields, and fails where that does. -/
theorem walk_eq_foldlM (hl : Shrinks h) (hsettles : ∀ s f w, Settles R w (h s f w))
    (hfs : Fields R data fs) (s : σ) : walk R h s data = fs.foldlM (absorb h) s := by
  induction hfs generalizing s with
  | nil => rfl
  | @cons data raw rest f w fs htag hskip _ ih =>
    have hread := hsettles s f w raw rest hskip
    rw [foldlM_cons, absorb]
    cases hh : h s f w raw with
    | error e =>
      have hshrink := R.readTag_shrinks htag
      obtain ⟨n, hn⟩ : ∃ n, data.length = n + 1 := ⟨data.length - 1, by omega⟩
      rw [hh] at hread
      rw [walk, hn, walkFuel, htag]
      simp only [hread]
      rfl
    | ok p =>
      rw [hh] at hread
      rw [walk_cons hl htag hread, ih]
      rfl

end Walk

end FieldWalk
