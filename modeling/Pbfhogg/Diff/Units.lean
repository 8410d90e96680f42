import Mathlib.Algebra.GroupWithZero.Nat
import Pbfhogg.Diff.Equivalence
import Mathlib.Data.List.Flatten

/-!
# The work units of a diff

`plan_kind` of `commands/diff/units.rs` cuts the blobs of one kind of both inputs into work units,
each with the half-open key window it owns. The windows partition the keys and a unit lists every
blob that holds an id of its window, so the units' merges in unit order are the merge of one
unbounded unit.
-/

namespace DiffUnits

open OsmId BlobMeta MergeJoin ZipMerge BlockPair DiffEquivalence Fallible List Option

inductive Which where
  | old
  | new
  deriving DecidableEq

def Which.other : Which → Which
  | .old => .new
  | .new => .old

/-- One value for each input. -/
structure Pair (α : Type) where
  old : α
  new : α

namespace Pair

variable {α β : Type} (p : Pair α)

def get : Which → α
  | .old => p.old
  | .new => p.new

def set (s : Which) (a : α) : Pair α :=
  match s with
  | .old => { p with old := a }
  | .new => { p with new := a }

def map (f : α → β) (p : Pair α) : Pair β := ⟨f p.old, f p.new⟩

@[simp] lemma get_set_self (s : Which) (a : α) : (p.set s a).get s = a := by
  cases s <;> rfl

lemma get_set_of_ne {s t : Which} (h : t ≠ s) (a : α) : (p.set s a).get t = p.get t := by
  cases s <;> cases t <;> simp_all [set, get]

end Pair

structure WorkUnit where
  kind : ElementKind
  window : Window
  old : List Frame
  new : List Frame

def diffUnitLoneElements : Nat := 2 ^ 17

def diffUnitCapBytes : Nat := 2 ^ 30

def raiseTo (m : Option OsmIdKey) (k : OsmIdKey) : Option OsmIdKey :=
  match m with
  | none => some k
  | some m => some (max m k)

/-- A unit being filled, and the frames its inputs have still to yield. -/
structure Filling where
  sides : Pair (List Frame)
  rest : Pair (List Frame)
  bytes : Nat
  maxFirst : Option OsmIdKey
  maxLast : Pair (Option OsmIdKey)
  lone : Nat

def totalBytes (frames : List Frame) : Nat := (frames.map fun f => f.body.length).sum

/-- The unit with the frames carried into it. -/
def Filling.begin (carry rest : Pair (List Frame)) : Filling where
  sides := carry
  rest := rest
  bytes := totalBytes (carry.old ++ carry.new)
  maxFirst := none
  maxLast := carry.map fun frames => frames.foldl (fun m f => raiseTo m f.index.lastKey) none
  lone := 0

/-- The smaller of the two next first keys, the old input's when they agree. -/
def nextFirst (rest : Pair (List Frame)) : Option (OsmIdKey × Which) :=
  match rest.old, rest.new with
  | [], [] => none
  | o :: _, [] => some (o.index.firstKey, .old)
  | [], n :: _ => some (n.index.firstKey, .new)
  | o :: _, n :: _ =>
    if o.index.firstKey ≤ n.index.firstKey then some (o.index.firstKey, .old)
    else some (n.index.firstKey, .new)

/-- No frame of the other input can share a key with `f`. -/
def Filling.isLone (st : Filling) (side : Which) (f : Frame) : Bool :=
  (st.rest.get side.other).head?.all (fun g => decide (f.index.lastKey < g.index.firstKey)) &&
    (st.maxLast.get side.other).all fun m => decide (m < f.index.firstKey)

def Filling.take (st : Filling) (side : Which) (f : Frame) (rest : List Frame) : Filling where
  sides := st.sides.set side (st.sides.get side ++ [f])
  rest := st.rest.set side rest
  bytes := st.bytes + f.body.length
  maxFirst := raiseTo st.maxFirst f.index.firstKey
  maxLast := st.maxLast.set side (raiseTo (st.maxLast.get side) f.index.lastKey)
  lone := if st.isLone side f then min (st.lone + f.index.count) (2 ^ 64 - 1) else st.lone

def unsplittable (kind : ElementKind) (key : OsmIdKey) (bytes : Nat) : PbfError :=
  .invalidData ("block-pair merge: cannot cut the " ++ kind.asStr ++
    " stream into work units: " ++ toString bytes ++ " bytes of blobs start at or before " ++
    kind.asStr ++ " " ++ toString (osmIdFromKey key) ++
    " without a point to cut between them (one ID repeated across that many blobs). " ++
    "This is a resource limit of the comparison, not a verdict on the file.")

def Filling.due (st : Filling) (target : Nat) : Bool :=
  decide (target ≤ st.bytes) || decide (diffUnitLoneElements ≤ st.lone)

/-- Take frames until the unit closes; the end is the key it closes at, absent
when both inputs are through with the kind. -/
def fill (kind : ElementKind) (target : Nat) :
    Nat → Filling → Except PbfError (Option OsmIdKey × Filling)
  | 0, _ => .error .outOfFuel
  | fuel + 1, st =>
    match nextFirst st.rest with
    | none => .ok (none, st)
    | some (first, side) =>
      if st.due target && st.maxFirst.any fun m => decide (m < first) then .ok (some first, st)
      else if diffUnitCapBytes ≤ st.bytes then .error (unsplittable kind first st.bytes)
      else match st.rest.get side with
        | [] => .error (.internal "diff unit planner: a peeked blob could not be read")
        | f :: rest => fill kind target fuel (st.take side f rest)

def planLoop (kind : ElementKind) (target : Nat) :
    Nat → Option OsmIdKey → Pair (List Frame) → Pair (List Frame) →
      Except PbfError (List WorkUnit)
  | 0, _, _, _ => .error .outOfFuel
  | fuel + 1, start, carry, rest => do
    let (stop, st) ← fill kind target (rest.old.length + rest.new.length + 1) (.begin carry rest)
    let unit : WorkUnit := ⟨kind, ⟨start, stop⟩, st.sides.old, st.sides.new⟩
    match stop with
    | none => .ok [unit]
    | some key => do
      let carry := st.sides.map fun frames => frames.filter fun f => decide (key ≤ f.index.lastKey)
      let tail ← planLoop kind target fuel (some key) carry st.rest
      .ok (unit :: tail)

def planKind (kind : ElementKind) (target : Nat) (old new : List Frame) :
    Except PbfError (List WorkUnit) :=
  planLoop kind target (old.length + new.length + 1) none ⟨[], []⟩ ⟨old, new⟩

lemma nextFirst_none {rest : Pair (List Frame)} (h : nextFirst rest = none) :
    rest.old = [] ∧ rest.new = [] := by
  obtain ⟨old, new⟩ := rest
  cases old with
  | nil =>
    cases new with
    | nil => exact ⟨rfl, rfl⟩
    | cons n new => simp [nextFirst] at h
  | cons o old =>
    cases new with
    | nil => simp [nextFirst] at h
    | cons n new =>
      simp only [nextFirst] at h
      split_ifs at h

variable {side : Which} {st : Filling} {f : Frame} {kind : ElementKind} {target fuel size : Nat}
  {stop start : Option OsmIdKey} {key : OsmIdKey}
  {ps qs done rest po pn doneo donen resto restn : List (Frame × List Element)} {e : Element}
  {p : Frame × List Element} {carry : Pair (List Frame)} {es : List Element}
  {fs frames : List Frame}

/-- The next first key is the one of its side's next frame and bounds the other's. -/
lemma nextFirst_some {rest : Pair (List Frame)} {k : OsmIdKey}
    (h : nextFirst rest = some (k, side)) :
    (∃ f fs, rest.get side = f :: fs ∧ f.index.firstKey = k) ∧
      ∀ s f fs, rest.get s = f :: fs → k ≤ f.index.firstKey := by
  obtain ⟨old, new⟩ := rest
  cases old with
  | nil =>
    cases new with
    | nil => simp [nextFirst] at h
    | cons n new =>
      obtain ⟨rfl, rfl⟩ : n.index.firstKey = k ∧ Which.new = side := by simpa [nextFirst] using h
      refine ⟨⟨n, new, rfl, rfl⟩, ?_⟩
      intro s f fs hf
      cases s with
      | old => simp [Pair.get] at hf
      | new =>
        obtain ⟨rfl, rfl⟩ : n = f ∧ new = fs := by simpa [Pair.get] using hf
        exact le_refl _
  | cons o old =>
    cases new with
    | nil =>
      obtain ⟨rfl, rfl⟩ : o.index.firstKey = k ∧ Which.old = side := by simpa [nextFirst] using h
      refine ⟨⟨o, old, rfl, rfl⟩, ?_⟩
      intro s f fs hf
      cases s with
      | old =>
        obtain ⟨rfl, rfl⟩ : o = f ∧ old = fs := by simpa [Pair.get] using hf
        exact le_refl _
      | new => simp [Pair.get] at hf
    | cons n new =>
      simp only [nextFirst] at h
      split_ifs at h with hle
      · obtain ⟨rfl, rfl⟩ : o.index.firstKey = k ∧ Which.old = side := by simpa using h
        refine ⟨⟨o, old, rfl, rfl⟩, ?_⟩
        intro s f fs hf
        cases s with
        | old =>
          obtain ⟨rfl, rfl⟩ : o = f ∧ old = fs := by simpa [Pair.get] using hf
          exact le_refl _
        | new =>
          obtain ⟨rfl, rfl⟩ : n = f ∧ new = fs := by simpa [Pair.get] using hf
          exact hle
      · obtain ⟨rfl, rfl⟩ : n.index.firstKey = k ∧ Which.new = side := by simpa using h
        refine ⟨⟨n, new, rfl, rfl⟩, ?_⟩
        intro s f fs hf
        cases s with
        | old =>
          obtain ⟨rfl, rfl⟩ : o = f ∧ old = fs := by simpa [Pair.get] using hf
          exact le_of_not_ge hle
        | new =>
          obtain ⟨rfl, rfl⟩ : n = f ∧ new = fs := by simpa [Pair.get] using hf
          exact le_refl _

/-- Frames still to yield on both inputs. -/
def Filling.left (st : Filling) : Nat := st.rest.old.length + st.rest.new.length

lemma left_take {rest : List Frame} (h : st.rest.get side = f :: rest) :
    (st.take side f rest).left + 1 = st.left := by
  cases side with
  | old =>
    have hold : st.rest.old = f :: rest := h
    simp only [Filling.left, Filling.take, Pair.set, hold, length_cons]
    omega
  | new =>
    have hnew : st.rest.new = f :: rest := h
    simp only [Filling.left, Filling.take, Pair.set, hnew, length_cons]
    omega

lemma raiseTo_some (m : Option OsmIdKey) (k : OsmIdKey) :
    ∃ m', raiseTo m k = some m' ∧ k ≤ m' ∧ ∀ x, m = some x → x ≤ m' := by
  cases m with
  | none => exact ⟨k, rfl, le_refl _, fun _ h => (by cases h)⟩
  | some x =>
    refine ⟨max x k, rfl, le_max_right _ _, ?_⟩
    rintro _ ⟨⟩
    exact le_max_left _ _

/-- `st'` is `st` with some of the frames to come moved into the unit. -/
structure Extends (st st' : Filling) : Prop where
  moved : ∀ s, ∃ taken, st.rest.get s = taken ++ st'.rest.get s ∧
    st'.sides.get s = st.sides.get s ++ taken ∧
    ∀ f ∈ taken, ∃ m, st'.maxFirst = some m ∧ f.index.firstKey ≤ m
  raised : ∀ m, st.maxFirst = some m → ∃ m', st'.maxFirst = some m' ∧ m ≤ m'

lemma Extends.refl (st : Filling) : Extends st st :=
  ⟨fun _ => ⟨[], rfl, by simp, by simp⟩, fun m hm => ⟨m, hm, le_refl _⟩⟩

lemma Extends.trans {st' st'' : Filling} (h : Extends st st') (h' : Extends st' st'') :
    Extends st st'' := by
  constructor
  · intro s
    obtain ⟨t, hrest, hside, hbound⟩ := h.moved s
    obtain ⟨t', hrest', hside', hbound'⟩ := h'.moved s
    refine ⟨t ++ t', by rw [hrest, hrest', append_assoc],
      by rw [hside', hside, append_assoc], ?_⟩
    intro f hf
    rcases mem_append.mp hf with hf | hf
    · obtain ⟨m, hm, hle⟩ := hbound f hf
      obtain ⟨m', hm', hle'⟩ := h'.raised m hm
      exact ⟨m', hm', le_trans hle hle'⟩
    · exact hbound' f hf
  · intro m hm
    obtain ⟨m', hm', hle⟩ := h.raised m hm
    obtain ⟨m'', hm'', hle'⟩ := h'.raised m' hm'
    exact ⟨m'', hm'', le_trans hle hle'⟩

lemma extends_take {rest : List Frame} (h : st.rest.get side = f :: rest) :
    Extends st (st.take side f rest) := by
  obtain ⟨m', hm', hfm, hmm⟩ := raiseTo_some st.maxFirst f.index.firstKey
  constructor
  · intro s
    by_cases hs : s = side
    · subst hs
      refine ⟨[f], by simp [Filling.take, h], by simp [Filling.take], ?_⟩
      intro g hg
      rw [mem_singleton.mp hg]
      exact ⟨m', hm', hfm⟩
    · exact ⟨[], by simp [Filling.take, Pair.get_set_of_ne _ hs],
        by simp [Filling.take, Pair.get_set_of_ne _ hs], by simp⟩
  · exact fun m hm => ⟨m', hm', hmm m hm⟩

/-- How a unit closes: at the end of both inputs, or before the next first key,
past every first key it took. -/
structure Closes (st : Filling) (stop : Option OsmIdKey) (st' : Filling) : Prop where
  moved : Extends st st'
  through : stop = none → st'.rest.old = [] ∧ st'.rest.new = []
  next : ∀ key, stop = some key → ∃ side, nextFirst st'.rest = some (key, side)
  past : ∀ key, stop = some key → ∃ m, st'.maxFirst = some m ∧ m < key

lemma fill_closes {st' : Filling} (h : fill kind target fuel st = .ok (stop, st')) :
    Closes st stop st' := by
  induction fuel generalizing st with
  | zero => simp [fill] at h
  | succ fuel ih =>
    rw [fill] at h
    cases hnext : nextFirst st.rest with
    | none =>
      rw [hnext] at h
      obtain ⟨rfl, rfl⟩ : none = stop ∧ st = st' := by simpa using h
      exact ⟨.refl _, fun _ => nextFirst_none hnext, fun _ h => (by cases h),
        fun _ h => (by cases h)⟩
    | some p =>
      obtain ⟨first, side⟩ := p
      rw [hnext] at h
      dsimp only at h
      split_ifs at h with hcut hcap
      · obtain ⟨rfl, rfl⟩ : some first = stop ∧ st = st' := by simpa using h
        obtain ⟨_, hmax⟩ := Bool.and_eq_true_iff.mp hcut
        refine ⟨.refl _, fun h => (by cases h), ?_, ?_⟩
        · rintro _ ⟨⟩
          exact ⟨side, hnext⟩
        · rintro _ ⟨⟩
          exact any_decide_iff.mp hmax
      · obtain ⟨⟨f, fs, hf, _⟩, _⟩ := nextFirst_some hnext
        rw [hf] at h
        have hrec := ih h
        exact ⟨(extends_take hf).trans hrec.moved, hrec.through, hrec.next, hrec.past⟩

/-- Filling ends by closing the unit or by the refusal of one over the cap. -/
theorem fill_total (kind : ElementKind) (target : Nat) {fuel : Nat} {st : Filling}
    (hfuel : st.left < fuel) : (∃ stop st', fill kind target fuel st = .ok (stop, st')) ∨
      ∃ key bytes, diffUnitCapBytes ≤ bytes ∧
        fill kind target fuel st = .error (unsplittable kind key bytes) := by
  induction fuel generalizing st with
  | zero => omega
  | succ fuel ih =>
    rw [fill]
    cases hnext : nextFirst st.rest with
    | none => exact Or.inl ⟨none, st, rfl⟩
    | some p =>
      obtain ⟨first, side⟩ := p
      dsimp only
      split_ifs with hcut hcap
      · exact Or.inl ⟨some first, st, rfl⟩
      · exact Or.inr ⟨first, st.bytes, hcap, rfl⟩
      · obtain ⟨⟨f, fs, hf, _⟩, _⟩ := nextFirst_some hnext
        rw [hf]
        have hleft := left_take hf
        exact ih (by omega)

/-- A unit that closes at a key has taken the frame that was next when it began,
so the key lies past that frame's first key. -/
theorem fill_advances {st' : Filling} (h : fill kind target fuel st = .ok (some key, st'))
    (k : OsmIdKey) (hk : (∃ m, st.maxFirst = some m ∧ k ≤ m) ∨
      st.maxFirst = none ∧ ∃ side, nextFirst st.rest = some (k, side)) :
    k < key ∧ (st.maxFirst = none → st'.left < st.left) ∧ st'.left ≤ st.left := by
  induction fuel generalizing st with
  | zero => simp [fill] at h
  | succ fuel ih =>
    rw [fill] at h
    cases hnext : nextFirst st.rest with
    | none => simp [hnext] at h
    | some p =>
      obtain ⟨first, side⟩ := p
      rw [hnext] at h
      dsimp only at h
      split_ifs at h with hcut hcap
      · obtain ⟨rfl, rfl⟩ : first = key ∧ st = st' := by simpa using h
        obtain ⟨_, hmax⟩ := Bool.and_eq_true_iff.mp hcut
        obtain ⟨m, hm, hlt⟩ := any_decide_iff.mp hmax
        refine ⟨?_, fun hnone => absurd (hm.symm.trans hnone) (by simp), le_refl _⟩
        rcases hk with ⟨m', hm', hle⟩ | ⟨hnone, _⟩
        · obtain rfl := some.inj (hm.symm.trans hm')
          exact lt_of_le_of_lt hle hlt
        · exact absurd (hm.symm.trans hnone) (by simp)
      · obtain ⟨⟨f, fs, hf, hfirst⟩, _⟩ := nextFirst_some hnext
        rw [hf] at h
        have hleft := left_take hf
        obtain ⟨m', hm', hfm, hmm⟩ := raiseTo_some st.maxFirst f.index.firstKey
        have hstep := ih h (Or.inl ⟨m', hm', ?_⟩)
        · exact ⟨hstep.1, fun _ => by omega, by omega⟩
        · rcases hk with ⟨m, hm, hle⟩ | ⟨_, side', hside⟩
          · exact le_trans hle (hmm m hm)
          · obtain ⟨rfl, rfl⟩ : first = k ∧ side = side' := by simpa [hnext] using hside
            exact hfirst ▸ hfm

/-- Windows that follow one another from `start` on, the last one open. -/
inductive Chain : Option OsmIdKey → List WorkUnit → Prop where
  | last {start : Option OsmIdKey} (u : WorkUnit) (hw : u.window = ⟨start, none⟩) :
      Chain start [u]
  | cons {start : Option OsmIdKey} {key : OsmIdKey} {us : List WorkUnit} (u : WorkUnit)
      (hw : u.window = ⟨start, some key⟩) (hlt : ∀ s, start = some s → s < key)
      (htail : Chain (some key) us) : Chain start (u :: us)

lemma contains_iff {k : OsmIdKey} :
    Window.Contains ⟨start, stop⟩ k ↔ (∀ s, start = some s → s ≤ k) ∧ ∀ e, stop = some e → k < e :=
  Iff.rfl

/-- A key at or past the chain's start lies in exactly one of its windows. -/
theorem Chain.existsUnique {us : List WorkUnit} (h : Chain start us) {k : OsmIdKey}
    (hk : ∀ s, start = some s → s ≤ k) :
    ∃! i : Nat, ∃ u : WorkUnit, us[i]? = some u ∧ u.window.Contains k := by
  have hbelow : ∀ {start : Option OsmIdKey} {us : List WorkUnit}, Chain start us →
      ∀ u : WorkUnit, u ∈ us → u.window.Contains k → ∀ s, start = some s → s ≤ k := by
    intro start us h
    induction h with
    | last u hw =>
      intro v hv hc
      rw [mem_singleton.mp hv, hw] at hc
      exact (contains_iff.mp hc).1
    | @cons start key us u hw hlt _ ih =>
      intro v hv hc
      rcases mem_cons.mp hv with rfl | hv
      · rw [hw] at hc
        exact (contains_iff.mp hc).1
      · intro s hs
        exact le_of_lt (lt_of_lt_of_le (hlt s hs) (ih v hv hc key rfl))
  induction h with
  | last u hw =>
    refine ⟨0, ⟨u, rfl, ?_⟩, ?_⟩
    · rw [hw, contains_iff]
      exact ⟨hk, fun _ h => (by cases h)⟩
    · rintro i ⟨v, hv, _⟩
      obtain ⟨hi, _⟩ := List.getElem?_eq_some_iff.mp hv
      simpa using hi
  | @cons start key us u hw hlt htail ih =>
    by_cases hlow : k < key
    · refine ⟨0, ⟨u, rfl, ?_⟩, ?_⟩
      · rw [hw, contains_iff]
        refine ⟨hk, ?_⟩
        rintro _ ⟨⟩
        exact hlow
      · rintro i ⟨v, hv, hc⟩
        cases i with
        | zero => rfl
        | succ i =>
          have hmem : v ∈ us := mem_of_getElem? (i := i) (by simpa using hv)
          exact absurd (hbelow htail v hmem hc key rfl) (not_le_of_gt hlow)
    · obtain ⟨i, ⟨v, hv, hc⟩, huniq⟩ := ih (by rintro _ ⟨⟩; exact le_of_not_gt hlow)
      refine ⟨i + 1, ⟨v, hv, hc⟩, ?_⟩
      rintro j ⟨x, hx, hcx⟩
      cases j with
      | zero =>
        obtain rfl : u = x := by simpa using hx
        rw [hw, contains_iff] at hcx
        exact absurd (hcx.2 key rfl) hlow
      | succ j => rw [huniq j ⟨x, by simpa using hx, hcx⟩]

/-- The merge of what lies at or past a chain's start is the merges of its
windows' parts in order. -/
theorem Chain.plain_eq {us : List WorkUnit} (h : Chain start us) {l r : List Element}
    (hl : l.Pairwise fun a b => a.key < b.key) (hr : r.Pairwise fun a b => a.key < b.key)
    {runs : List (List Action)} (hruns : List.Forall₂ (fun (u : WorkUnit) acts => expandAll acts =
      plain (inside u.window l) (inside u.window r)) us runs) :
    expandAll runs.flatten = plain (inside ⟨start, none⟩ l) (inside ⟨start, none⟩ r) := by
  induction h generalizing runs with
  | last u hw =>
    obtain ⟨acts, rest, hacts, hrest, rfl⟩ := forall₂_cons_left_iff.mp hruns
    obtain rfl := forall₂_nil_left_iff.mp hrest
    simpa [hw] using hacts
  | @cons start key us u hw hlt _ ih =>
    obtain ⟨acts, rest, hacts, hrest, rfl⟩ := forall₂_cons_left_iff.mp hruns
    have hlow : ∀ l : List Element, (inside ⟨start, none⟩ l).filter (fun e => decide (e.key < key))
        = inside ⟨start, some key⟩ l := by
      intro l
      simp only [inside, List.filter_filter]
      refine List.filter_congr fun e _ => ?_
      simp only [contains_iff, ← Bool.decide_and, decide_eq_decide]
      simp [and_comm]
    have hhigh : ∀ l : List Element, (inside ⟨start, none⟩ l).filter (fun e => decide (key ≤ e.key))
        = inside ⟨some key, none⟩ l := by
      intro l
      simp only [inside, List.filter_filter]
      refine List.filter_congr fun e _ => ?_
      simp only [contains_iff, ← Bool.decide_and, decide_eq_decide]
      constructor
      · rintro ⟨hkey, _⟩
        exact ⟨fun s hs => some.inj hs ▸ hkey, fun _ h => (by cases h)⟩
      · rintro ⟨hkey, _⟩
        have hle := hkey key rfl
        exact ⟨hle, fun s hs => le_of_lt (lt_of_lt_of_le (hlt s hs) hle), fun _ h => (by cases h)⟩
    have hsorted : ∀ l : List Element, l.Pairwise (fun a b => a.key < b.key) →
        (inside ⟨start, none⟩ l).Pairwise fun a b => a.key < b.key := fun l hl => hl.filter _
    have hcut := zipMerge_cut Element.key (hsorted l hl) (hsorted r hr) key
    rw [hlow, hlow, hhigh, hhigh] at hcut
    rw [flatten_cons, expandAll_append, ih hrest, hacts, hw, plain, plain, plain, hcut,
      map_append, expandAll_append]

/-- The elements of a list of blobs, each a frame with what it holds. -/
def elems (ps : List (Frame × List Element)) : List Element := (ps.map Prod.snd).flatten

@[simp] lemma elems_nil : elems [] = [] := rfl

@[simp] lemma elems_cons (p : Frame × List Element) (ps : List (Frame × List Element)) :
    elems (p :: ps) = p.2 ++ elems ps := rfl

@[simp] lemma elems_append (ps qs : List (Frame × List Element)) :
    elems (ps ++ qs) = elems ps ++ elems qs := by simp [elems]

lemma mem_elems : e ∈ elems ps ↔ ∃ p ∈ ps, e ∈ p.2 := by
  simp only [elems, List.mem_flatten, List.mem_map]
  constructor
  · rintro ⟨_, ⟨p, hp, rfl⟩, he⟩
    exact ⟨p, hp, he⟩
  · rintro ⟨p, hp, he⟩
    exact ⟨p.2, ⟨p, hp, rfl⟩, he⟩

lemma elems_sublist (h : ps.Sublist qs) : (elems ps).Sublist (elems qs) := (h.map Prod.snd).flatten

/-- Ascending blobs with exact claims. -/
structure Ascends (d : Decoder) (ps : List (Frame × List Element)) : Prop where
  exact : ∀ p ∈ ps, Exact d p.1 p.2
  sorted : (elems ps).Pairwise fun a b => a.key < b.key
  resolves : ∀ e ∈ elems ps, e.Resolves

variable {d : Decoder}

lemma Ascends.sublist (h : Ascends d qs) (hsub : ps.Sublist qs) : Ascends d ps :=
  ⟨fun p hp => h.exact p (hsub.subset hp), h.sorted.sublist (elems_sublist hsub),
    fun e he => h.resolves e ((elems_sublist hsub).subset he)⟩

/-- Blobs whose claim reaches the window's start. -/
def reaching (start : Option OsmIdKey) (ps : List (Frame × List Element)) :
    List (Frame × List Element) :=
  ps.filter fun p => start.all fun s => decide (s ≤ p.1.index.lastKey)

lemma Ascends.not_reaching (h : Ascends d ps) (hp : p ∈ ps)
    (hnot : ¬ (start.all fun s => decide (s ≤ p.1.index.lastKey)) = true) (he : e ∈ p.2) :
    ¬ Window.Contains ⟨start, stop⟩ e.key := by
  intro hc
  cases start with
  | none => simp at hnot
  | some s =>
    have hle : s ≤ e.key := hc.1 s rfl
    exact hnot (by simpa using le_trans hle ((h.exact p hp).le_lastKey he))

/-- A blob with an element in the window is one that reaches its start. -/
lemma Ascends.mem_reaching (h : Ascends d ps) (hp : p ∈ ps) (he : e ∈ p.2)
    (hc : Window.Contains ⟨start, stop⟩ e.key) : p ∈ reaching start ps := by
  refine mem_filter.mpr ⟨hp, ?_⟩
  by_contra hnot
  exact h.not_reaching hp hnot he hc

lemma Ascends.inside_reaching (h : Ascends d ps) (start stop : Option OsmIdKey) :
    inside ⟨start, stop⟩ (elems (reaching start ps)) = inside ⟨start, stop⟩ (elems ps) := by
  induction ps with
  | nil => rfl
  | cons p ps ih =>
    have htail := ih (h.sublist (sublist_cons_self p ps))
    rw [elems_cons, inside_append, ← htail, reaching, filter_cons]
    split_ifs with hreach
    · rw [elems_cons, inside_append]
      rfl
    · have hnil : inside ⟨start, stop⟩ p.2 = [] := by
        rw [inside, filter_eq_nil_iff]
        intro e he hc
        exact h.not_reaching mem_cons_self hreach he (of_decide_eq_true hc)
      rw [hnil, nil_append]
      rfl

/-- A unit's frames of one input: some of its blobs in order, every one with an
element in the window among them. -/
def Lists (ps : List (Frame × List Element)) (w : Window) (frames : List Frame) : Prop :=
  ∃ qs, qs.Sublist ps ∧ frames = qs.map Prod.fst ∧
    inside w (elems qs) = inside w (elems ps) ∧
    ∀ p ∈ ps, ∀ e ∈ p.2, w.Contains e.key → p ∈ qs

lemma lists_of_closed {taken : List (Frame × List Element)}
    (h : Ascends d (done ++ (taken ++ rest)))
    (hrest : ∀ k, stop = some k → ∀ e ∈ elems rest, k ≤ e.key) (hend : stop = none → rest = []) :
    Lists (done ++ (taken ++ rest)) ⟨start, stop⟩
      ((reaching start done ++ taken).map Prod.fst) := by
  have hdone : Ascends d done := h.sublist (sublist_append_left _ _)
  have hout : ∀ e ∈ elems rest, ¬ Window.Contains ⟨start, stop⟩ e.key := by
    intro e he hc
    cases stop with
    | none =>
      rw [hend rfl] at he
      simp at he
    | some k => exact absurd (hc.2 k rfl) (not_lt_of_ge (hrest k rfl e he))
  refine ⟨reaching start done ++ taken, ?_, rfl, ?_, ?_⟩
  · exact filter_sublist.append (sublist_append_left _ _)
  · have hnil : inside ⟨start, stop⟩ (elems rest) = [] := by
      rw [inside, filter_eq_nil_iff]
      exact fun e he hc => hout e he (of_decide_eq_true hc)
    simp only [elems_append, inside_append, hdone.inside_reaching, hnil, append_nil]
  · intro p hp e he hc
    rcases mem_append.mp hp with hp | hp
    · exact mem_append_left _ (hdone.mem_reaching hp he hc)
    · rcases mem_append.mp hp with hp | hp
      · exact mem_append_right _ hp
      · exact absurd hc (hout e (mem_elems.mpr ⟨p, hp, he⟩))

/-- One input between two units: `done` went into units before, `rest` is to come,
and what of `done` reaches the next unit's start is carried into it. -/
structure SideState (d : Decoder) (ps done rest : List (Frame × List Element))
    (start : Option OsmIdKey) (carry left : List Frame) : Prop where
  ascends : Ascends d ps
  split : ps = done ++ rest
  carry : carry = (reaching start done).map Prod.fst
  rest : left = rest.map Prod.fst

/-- The blobs a unit took of one input, when it has taken their frames. -/
lemma SideState.taken {ps done rest : List (Frame × List Element)} {start : Option OsmIdKey}
    {carry left taken left' : List Frame} (h : SideState d ps done rest start carry left)
    (hleft : left = taken ++ left') :
    ∃ ts rest', rest = ts ++ rest' ∧ taken = ts.map Prod.fst ∧ left' = rest'.map Prod.fst := by
  have hmap : rest.map Prod.fst = taken ++ left' := h.rest.symm.trans hleft
  obtain ⟨ts, rest', hsplit, hts, hrest⟩ := map_eq_append_iff.mp hmap
  exact ⟨ts, rest', hsplit, hts.symm, hrest.symm⟩

/-- Everything behind the next first key lies at or past it. -/
lemma Ascends.key_le (h : Ascends d rest) {left : Pair (List Frame)} {s : Which}
    (hnext : nextFirst left = some (key, side)) (hleft : left.get s = rest.map Prod.fst) :
    ∀ e ∈ elems rest, key ≤ e.key := by
  cases rest with
  | nil => simp
  | cons p rest =>
    have hfirst := (nextFirst_some hnext).2 s p.1 (rest.map Prod.fst) hleft
    have hexact := h.exact p mem_cons_self
    intro e he
    exact le_trans hfirst (@firstKey_le_flatten d p.1 p.2 (rest.map Prod.snd) hexact h.sorted e he)

lemma reaching_later (hlt : ∀ s, start = some s → s < key)
    (done taken : List (Frame × List Element)) :
    ((reaching start done ++ taken).map Prod.fst).filter (fun f => decide (key ≤ f.index.lastKey)) =
      (reaching (some key) (done ++ taken)).map Prod.fst := by
  rw [List.filter_map, reaching, reaching, List.filter_append, List.filter_append,
    List.filter_filter]
  congr 2
  refine filter_congr fun p _ => ?_
  cases start with
  | none => simp
  | some s =>
    simp only [Function.comp_apply, all_some, Bool.and_eq_left_iff_imp, decide_eq_true_eq]
    exact fun hkey => le_of_lt (lt_of_lt_of_le (hlt s rfl) hkey)

/-- One input behind a unit that closed. -/
lemma SideState.close {carry : List Frame} {left left' : Pair (List Frame)} {s : Which}
    {taken : List Frame} (h : SideState d ps done rest start carry (left.get s))
    (hleft : left.get s = taken ++ left'.get s) (hlt : ∀ s, start = some s → s < key)
    (hnext : nextFirst left' = some (key, side)) : Lists ps ⟨start, some key⟩ (carry ++ taken) ∧
      ∃ ts rest', taken = ts.map Prod.fst ∧ SideState d ps (done ++ ts) rest' (some key)
        ((carry ++ taken).filter fun f => decide (key ≤ f.index.lastKey)) (left'.get s) := by
  obtain ⟨ts, rest', rfl, rfl, hrest'⟩ := h.taken hleft
  have hasc := h.ascends
  obtain rfl := h.split
  have hlater := (hasc.sublist ((sublist_append_right ts rest').trans
    (sublist_append_right done _))).key_le hnext hrest'
  rw [h.carry, ← map_append]
  refine ⟨lists_of_closed hasc ?_ (fun h => (by cases h)), ts, rest', rfl, hasc, ?_,
    reaching_later hlt done ts, hrest'⟩
  · rintro _ ⟨⟩
    exact hlater
  · rw [append_assoc]

lemma SideState.through {carry left taken left' : List Frame}
    (h : SideState d ps done rest start carry left) (hleft : left = taken ++ left')
    (hend : left' = []) : Lists ps ⟨start, none⟩ (carry ++ taken) := by
  obtain ⟨ts, rest', rfl, rfl, hrest'⟩ := h.taken hleft
  have hasc := h.ascends
  obtain rfl := h.split
  obtain rfl : rest' = [] := map_eq_nil_iff.mp (hrest'.symm.trans hend)
  rw [h.carry, ← map_append]
  exact lists_of_closed hasc (fun _ h => (by cases h)) fun _ => rfl

lemma planLoop_spec {rest : Pair (List Frame)} {units : List WorkUnit}
    (hold : SideState d po doneo resto start carry.old rest.old)
    (hnew : SideState d pn donen restn start carry.new rest.new)
    (hstart : ∀ s, start = some s → ∃ side, nextFirst rest = some (s, side))
    (h : planLoop kind target fuel start carry rest = .ok units) : Chain start units ∧
      ∀ u ∈ units, Lists po u.window u.old ∧ Lists pn u.window u.new := by
  induction fuel generalizing start carry rest units doneo donen resto restn with
  | zero => simp [planLoop] at h
  | succ fuel ih =>
    simp only [planLoop, bind_eq_ok] at h
    obtain ⟨⟨stop, st⟩, hfill, h⟩ := h
    have hclose := fill_closes hfill
    obtain ⟨takenO, hro, hso, _⟩ := hclose.moved.moved .old
    obtain ⟨takenN, hrn, hsn, _⟩ := hclose.moved.moved .new
    have hso' : st.sides.old = carry.old ++ takenO := hso
    have hsn' : st.sides.new = carry.new ++ takenN := hsn
    cases stop with
    | none =>
      obtain rfl := Except.ok.inj h
      obtain ⟨hendo, hendn⟩ := hclose.through rfl
      refine ⟨.last _ rfl, ?_⟩
      intro u hu
      rw [mem_singleton.mp hu]
      refine ⟨?_, ?_⟩
      · rw [hso']
        exact hold.through hro hendo
      · rw [hsn']
        exact hnew.through hrn hendn
    | some key =>
      simp only [bind_eq_ok] at h
      obtain ⟨tail, htail, h⟩ := h
      obtain rfl := Except.ok.inj h
      obtain ⟨side, hnext⟩ := hclose.next key rfl
      have hlt : ∀ s, start = some s → s < key := by
        intro s hs
        obtain ⟨side', hside'⟩ := hstart s hs
        exact (fill_advances hfill s (Or.inr ⟨rfl, side', hside'⟩)).1
      obtain ⟨hlo, tso, resto', -, hold'⟩ := SideState.close (s := .old) hold hro hlt hnext
      obtain ⟨hln, tsn, restn', -, hnew'⟩ := SideState.close (s := .new) hnew hrn hlt hnext
      rw [← hso'] at hlo hold'
      rw [← hsn'] at hln hnew'
      obtain ⟨hchain, hlists⟩ := ih hold' hnew' (by rintro _ ⟨⟩; exact ⟨side, hnext⟩) htail
      refine ⟨.cons _ rfl hlt hchain, ?_⟩
      intro u hu
      rcases mem_cons.mp hu with rfl | hu
      · exact ⟨hlo, hln⟩
      · exact hlists u hu

/-- A claim over both signs, whose first key is only a bound. -/
def Mixed (x : BlobIndex) : Prop := x.minId < 0 ∧ 0 < x.maxId

lemma firstKey_mem (h : Exact d f es) (hm : ¬ Mixed f.index) :
    ∃ e ∈ es, e.key = f.index.firstKey := by
  unfold BlobIndex.firstKey blobOsmFirstKey
  split_ifs with h1 h2
  · obtain ⟨e, he, hid⟩ := h.min_mem
    exact ⟨e, he, by rw [Element.key, hid]⟩
  · obtain ⟨e, he, hid⟩ := h.max_mem
    exact ⟨e, he, by rw [Element.key, hid]⟩
  · refine absurd ⟨?_, ?_⟩ hm
    · rw [Int64.lt_iff_toInt_lt]
      rw [Int64.le_iff_toInt_le] at h1
      omega
    · rw [Int64.lt_iff_toInt_lt]
      rw [Int64.le_iff_toInt_le] at h2
      omega

lemma lastKey_mem (h : Exact d f es) : ∃ e ∈ es, e.key = f.index.lastKey := by
  obtain ⟨e, he, hid⟩ := h.last_mem
  exact ⟨e, he, by rw [Element.key, hid, osmIdKey_blobLast]⟩

lemma firstKey_le_lastKey (h : Exact d f es) : f.index.firstKey ≤ f.index.lastKey := by
  obtain ⟨e, he, hkey⟩ := lastKey_mem h
  exact hkey ▸ h.firstKey_le he

variable {ps : List (Frame × List Element)}

/-- Of two blobs of one input the later one's first key lies past the earlier
one's last, unless it is mixed, and only one of them is. -/
lemma Ascends.pair {p : Frame × List Element} (h : Ascends d (p :: ps)) {q : Frame × List Element}
    (hq : q ∈ ps) :
    (Mixed q.1.index ∨ p.1.index.lastKey < q.1.index.firstKey) ∧
      ¬ (Mixed p.1.index ∧ Mixed q.1.index) := by
  have hp := h.exact p mem_cons_self
  have hqe := h.exact q (mem_cons_of_mem _ hq)
  have hlt : ∀ a ∈ p.2, ∀ b ∈ q.2, a.key < b.key := fun a ha b hb =>
    (pairwise_append.mp h.sorted).2.2 a ha b (mem_elems.mpr ⟨q, hq, hb⟩)
  constructor
  · by_cases hm : Mixed q.1.index
    · exact Or.inl hm
    · obtain ⟨a, ha, hakey⟩ := lastKey_mem hp
      obtain ⟨b, hb, hbkey⟩ := firstKey_mem hqe hm
      exact Or.inr (hakey ▸ hbkey ▸ hlt a ha b hb)
  · rintro ⟨⟨_, hpos⟩, hneg, _⟩
    obtain ⟨a, ha, haid⟩ := hp.max_mem
    obtain ⟨b, hb, hbid⟩ := hqe.min_mem
    have hkey := (osmIdKey_lt_iff a.id b.id).mp (hlt a ha b hb)
    rw [haid, hbid] at hkey
    rw [Int64.lt_iff_toInt_lt, Int64.toInt_zero] at hpos hneg
    omega

lemma Ascends.tail {p : Frame × List Element} (h : Ascends d (p :: ps)) :
    Ascends d ps := h.sublist (sublist_cons_self p ps)

/-- The frames that start at or before `m`. -/
def startBy (m : OsmIdKey) (frames : List Frame) : Nat :=
  frames.countP fun f => decide (f.index.firstKey ≤ m)

lemma startBy_cons (m : OsmIdKey) (f : Frame) (frames : List Frame) :
    startBy m (f :: frames) = startBy m frames + if f.index.firstKey ≤ m then 1 else 0 := by
  simp [startBy, countP_cons]

/-- Behind a blob that reaches `m` at most one blob starts by `m`, the mixed one. -/
lemma Ascends.startBy_le_one (h : Ascends d (p :: ps)) {m : OsmIdKey} (hm : m ≤ p.1.index.lastKey) :
    startBy m (ps.map Prod.fst) ≤ 1 := by
  induction ps with
  | nil => simp [startBy]
  | cons q ps ih =>
    have hsub : Ascends d (p :: ps) := h.sublist
      ((sublist_cons_self q ps).cons_cons p)
    rw [map_cons, startBy_cons]
    split_ifs with hle
    · -- `q` is the mixed blob, so nothing behind it starts by `m`.
      have hq : Mixed q.1.index := by
        rcases (h.pair mem_cons_self).1 with hq | hq
        · exact hq
        · exact absurd (lt_of_le_of_lt hm hq) (not_lt_of_ge hle)
      have hnone : startBy m (ps.map Prod.fst) = 0 := by
        rw [startBy, countP_eq_zero]
        intro f hf
        obtain ⟨r, hr, rfl⟩ := mem_map.mp hf
        have hnot : ¬ Mixed r.1.index := fun hmr => (h.tail.pair hr).2 ⟨hq, hmr⟩
        rcases (hsub.pair hr).1 with hmr | hlt
        · exact absurd hmr hnot
        · simpa using lt_of_le_of_lt hm hlt
      omega
    · have hrec := ih hsub
      omega

/-- The blobs an input carries into a unit are at most two. -/
lemma Ascends.carried_le_two (h : Ascends d ps) {key : OsmIdKey}
    (hfirst : ∀ p ∈ ps, p.1.index.firstKey < key) (hlast : ∀ p ∈ ps, key ≤ p.1.index.lastKey) :
    ps.length ≤ 2 := by
  cases ps with
  | nil => simp
  | cons p ps =>
    have hone := h.startBy_le_one (hlast p mem_cons_self)
    have hall : startBy key (ps.map Prod.fst) = ps.length := by
      rw [startBy, countP_eq_length.mpr, length_map]
      intro f hf
      obtain ⟨q, hq, rfl⟩ := mem_map.mp hf
      exact decide_eq_true (le_of_lt (hfirst q (mem_cons_of_mem _ hq)))
    rw [length_cons]
    omega

def delaying (m : OsmIdKey) (rest : Pair (List Frame)) : Nat :=
  startBy m rest.old + startBy m rest.new

/-- A unit being filled from frames of at most `size` bytes stays within its
target and a few frames. -/
structure Roomy (size target : Nat) (st : Filling) : Prop where
  carried : st.maxFirst = none → st.bytes ≤ 4 * size
  taken : ∀ m, st.maxFirst = some m →
    st.bytes + size * delaying m st.rest ≤ max target (4 * size) + 4 * size

lemma Roomy.bytes_le (h : Roomy size target st) : st.bytes ≤ max target (4 * size) + 4 * size := by
  cases hm : st.maxFirst with
  | none =>
    have hle := h.carried hm
    omega
  | some m =>
    have hle := h.taken m hm
    exact le_trans (Nat.le_add_right _ _) hle

/-- The blobs of both inputs behind the frames to come. -/
structure Upcoming (d : Decoder) (size : Nat) (rest : Pair (List Frame)) : Prop where
  blobs : ∀ s, ∃ ps, Ascends d ps ∧ rest.get s = ps.map Prod.fst
  small : ∀ s, ∀ f ∈ rest.get s, f.body.length ≤ size

lemma Upcoming.take (h : Upcoming d size st.rest) (hf : st.rest.get side = f :: fs) :
    Upcoming d size (st.take side f fs).rest := by
  refine ⟨fun s => ?_, fun s g hg => ?_⟩
  · by_cases hs : s = side
    · subst hs
      obtain ⟨ps, hasc, hps⟩ := h.blobs s
      cases ps with
      | nil => simp [hf] at hps
      | cons p ps =>
        obtain ⟨rfl, rfl⟩ : f = p.1 ∧ fs = ps.map Prod.fst := by simpa [hf] using hps
        exact ⟨ps, hasc.tail, by simp [Filling.take]⟩
    · simpa [Filling.take, Pair.get_set_of_ne _ hs] using h.blobs s
  · by_cases hs : s = side
    · subst hs
      refine h.small s g ?_
      rw [hf]
      exact mem_cons_of_mem _ (by simpa [Filling.take] using hg)
    · exact h.small s g (by simpa [Filling.take, Pair.get_set_of_ne _ hs] using hg)

/-- Behind the frame that starts first at most three start no later. -/
lemma Upcoming.delaying_le {rest : Pair (List Frame)} (h : Upcoming d size rest)
    (hf : rest.get side = f :: fs)
    (hmin : ∀ s g gs, rest.get s = g :: gs → f.index.firstKey ≤ g.index.firstKey) :
    delaying f.index.firstKey (rest.set side fs) ≤ 3 := by
  have hown : startBy f.index.firstKey fs ≤ 1 := by
    obtain ⟨ps, hasc, hps⟩ := h.blobs side
    cases ps with
    | nil => simp [hf] at hps
    | cons p ps =>
      obtain ⟨rfl, rfl⟩ : f = p.1 ∧ fs = ps.map Prod.fst := by simpa [hf] using hps
      exact hasc.startBy_le_one (firstKey_le_lastKey (hasc.exact p mem_cons_self))
  have hother : startBy f.index.firstKey (rest.get side.other) ≤ 2 := by
    obtain ⟨ps, hasc, hps⟩ := h.blobs side.other
    rw [hps]
    cases ps with
    | nil => simp [startBy]
    | cons p ps =>
      have hle := le_trans (hmin side.other p.1 (ps.map Prod.fst) hps)
        (firstKey_le_lastKey (hasc.exact p mem_cons_self))
      have hone := hasc.startBy_le_one hle
      rw [map_cons, startBy_cons]
      split_ifs <;> omega
  cases side with
  | old | new =>
    simp only [delaying, Pair.set]
    simp only [Which.other, Pair.get] at hother
    omega

lemma delaying_take {m : OsmIdKey} {rest : Pair (List Frame)} (hf : rest.get side = f :: fs)
    (hle : f.index.firstKey ≤ m) : delaying m (rest.set side fs) + 1 = delaying m rest := by
  cases side with
  | old =>
    have hold : rest.old = f :: fs := hf
    simp only [delaying, Pair.set, hold, startBy_cons, hle, if_true]
    omega
  | new =>
    have hnew : rest.new = f :: fs := hf
    simp only [delaying, Pair.set, hnew, startBy_cons, hle, if_true]
    omega

/-- Taking the frame that starts first, where the unit could not be cut. -/
lemma Roomy.take (h : Roomy size target st) (hup : Upcoming d size st.rest)
    (hf : st.rest.get side = f :: fs)
    (hmin : ∀ s g gs, st.rest.get s = g :: gs → f.index.firstKey ≤ g.index.firstKey)
    (hcut : ¬ (st.due target && st.maxFirst.any fun m => decide (m < f.index.firstKey)) = true) :
    Roomy size target (st.take side f fs) := by
  have hsize : f.body.length ≤ size := hup.small side f (by rw [hf]; exact mem_cons_self)
  obtain ⟨m', hm', _, _⟩ := raiseTo_some st.maxFirst f.index.firstKey
  refine ⟨fun hnone => absurd (hm'.symm.trans hnone) (by simp), ?_⟩
  intro m hm
  have hraise : raiseTo st.maxFirst f.index.firstKey = some m := hm
  show st.bytes + f.body.length + size * delaying m (st.rest.set side fs) ≤ _
  by_cases hdelay : ∃ m₀, st.maxFirst = some m₀ ∧ f.index.firstKey ≤ m₀
  · -- A frame that starts by the largest first key taken was counted among those to come.
    obtain ⟨m₀, hm₀, hle⟩ := hdelay
    obtain rfl : m₀ = m := by simpa [hm₀, raiseTo, max_eq_left hle] using hraise
    have hcount := delaying_take hf hle
    have hroom := h.taken m₀ hm₀
    rw [← hcount, Nat.mul_add, Nat.mul_one] at hroom
    omega
  · -- Otherwise the unit was not due, or had nothing taken yet.
    have hm_eq : m = f.index.firstKey := by
      cases hm₀ : st.maxFirst with
      | none => simpa [hm₀, raiseTo] using hraise.symm
      | some m₀ =>
        have hlt : m₀ < f.index.firstKey := by
          by_contra hge
          exact hdelay ⟨m₀, hm₀, le_of_not_gt hge⟩
        simpa [hm₀, raiseTo, max_eq_right (le_of_lt hlt)] using hraise.symm
    subst hm_eq
    have hthree := Nat.mul_le_mul_left size (hup.delaying_le hf hmin)
    have hbytes : st.bytes ≤ max target (4 * size) := by
      cases hm₀ : st.maxFirst with
      | none =>
        have hcarried := h.carried hm₀
        omega
      | some m₀ =>
        have hlt : m₀ < f.index.firstKey := by
          by_contra hge
          exact hdelay ⟨m₀, hm₀, le_of_not_gt hge⟩
        have hdue : ¬ target ≤ st.bytes := by
          intro htarget
          refine hcut ?_
          simp [Filling.due, htarget, hm₀, hlt]
        omega
    omega

lemma fill_never_refuses {kind : ElementKind} {size target : Nat}
    (hcap : max target (4 * size) + 4 * size < diffUnitCapBytes) {fuel : Nat} {st : Filling}
    (hfuel : st.left < fuel) (hroom : Roomy size target st) (hup : Upcoming d size st.rest) :
    ∃ stop st', fill kind target fuel st = .ok (stop, st') := by
  induction fuel generalizing st with
  | zero => omega
  | succ fuel ih =>
    rw [fill]
    cases hnext : nextFirst st.rest with
    | none => exact ⟨none, st, rfl⟩
    | some p =>
      obtain ⟨first, side⟩ := p
      dsimp only
      split_ifs with hcut hover
      · exact ⟨some first, st, rfl⟩
      · have hle := hroom.bytes_le
        omega
      · obtain ⟨⟨f, fs, hf, rfl⟩, hmin⟩ := nextFirst_some hnext
        rw [hf]
        have hleft := left_take hf
        exact ih (by omega) (hroom.take hup hf hmin hcut) (hup.take hf)

lemma fill_progress {rest : Pair (List Frame)}
    (h : fill kind target fuel (.begin carry rest) = .ok (some key, st)) :
    st.left < rest.old.length + rest.new.length := by
  cases hnext : nextFirst rest with
  | none =>
    cases fuel with
    | zero => simp [fill] at h
    | succ fuel => simp [fill, Filling.begin, hnext] at h
  | some p =>
    obtain ⟨first, side⟩ := p
    exact (fill_advances h first (Or.inr ⟨rfl, side, hnext⟩)).2.1 rfl

lemma planLoop_total (kind : ElementKind) (target : Nat) {fuel : Nat} (start : Option OsmIdKey)
    (carry : Pair (List Frame)) {rest : Pair (List Frame)}
    (hfuel : rest.old.length + rest.new.length < fuel) :
    (∃ units, planLoop kind target fuel start carry rest = .ok units) ∨
      ∃ key bytes, diffUnitCapBytes ≤ bytes ∧
        planLoop kind target fuel start carry rest = .error (unsplittable kind key bytes) := by
  induction fuel generalizing start carry rest with
  | zero => omega
  | succ fuel ih =>
    rw [planLoop]
    rcases @fill_total kind target _ (.begin carry rest) (Nat.lt_succ_self _) with
      ⟨stop, st, hfill⟩ | ⟨key, bytes, hcap, hfill⟩
    · have hfill' : fill kind target (rest.old.length + rest.new.length + 1)
          (.begin carry rest) = .ok (stop, st) := hfill
      rw [hfill']
      cases stop with
      | none => exact Or.inl ⟨_, rfl⟩
      | some key =>
        have hless := fill_progress hfill'
        rcases @ih (some key) (st.sides.map fun frames => frames.filter fun f =>
            decide (key ≤ f.index.lastKey)) st.rest (by
              simp only [Filling.left] at hless
              omega) with ⟨units, hrec⟩ | ⟨key', bytes, hcap, hrec⟩
        · exact Or.inl ⟨⟨kind, ⟨start, some key⟩, st.sides.old, st.sides.new⟩ :: units,
            by simp only [ok_bind, hrec]⟩
        · exact Or.inr ⟨key', bytes, hcap, by simp only [ok_bind, hrec, error_bind]⟩
    · have hfill' : fill kind target (rest.old.length + rest.new.length + 1)
          (.begin carry rest) = .error (unsplittable kind key bytes) := hfill
      exact Or.inr ⟨key, bytes, hcap, by rw [hfill', error_bind]⟩

/-- Everything already in a unit starts before the next unit does. -/
def StartsBefore (done : List (Frame × List Element)) (start : Option OsmIdKey) : Prop :=
  ∀ p ∈ done, ∃ s, start = some s ∧ p.1.index.firstKey < s

lemma totalBytes_le (h : ∀ f ∈ frames, f.body.length ≤ size) :
    totalBytes frames ≤ size * frames.length := by
  induction frames with
  | nil => simp [totalBytes]
  | cons f frames ih =>
    have htail := ih fun g hg => h g (mem_cons_of_mem _ hg)
    have hhead := h f mem_cons_self
    simp only [totalBytes, map_cons, sum_cons, length_cons, Nat.mul_succ] at htail ⊢
    omega

/-- An input carries at most two frames into a unit. -/
lemma SideState.carry_le {carry left : List Frame} (h : SideState d ps done rest start carry left)
    (hbefore : StartsBefore done start) (hsmall : ∀ p ∈ ps, p.1.body.length ≤ size) :
    totalBytes carry ≤ 2 * size := by
  have hsub : (reaching start done).Sublist ps := by
    rw [h.split]
    exact filter_sublist.trans (sublist_append_left _ _)
  have htwo : (reaching start done).length ≤ 2 := by
    cases hstart : start with
    | none =>
      have hnil : done = [] := by
        rw [eq_nil_iff_forall_not_mem]
        intro p hp
        obtain ⟨s, hs, _⟩ := hbefore p hp
        exact absurd (hstart.symm.trans hs) (by simp)
      simp [hnil, reaching]
    | some s =>
      rw [← hstart]
      refine @Ascends.carried_le_two d _ (h.ascends.sublist hsub) s ?_ ?_
      · intro p hp
        obtain ⟨s', hs', hlt⟩ := hbefore p (filter_sublist.subset hp)
        obtain rfl := some.inj (hstart.symm.trans hs')
        exact hlt
      · intro p hp
        have hreach := (mem_filter.mp hp).2
        simpa [hstart] using hreach
  have hbytes : totalBytes carry ≤ size * carry.length := by
    refine totalBytes_le fun f hf => ?_
    rw [h.carry] at hf
    obtain ⟨p, hp, rfl⟩ := mem_map.mp hf
    exact hsmall p (hsub.subset hp)
  have hlen : carry.length ≤ 2 := by
    rw [h.carry, length_map]
    exact htwo
  calc totalBytes carry ≤ size * carry.length := hbytes
    _ ≤ size * 2 := Nat.mul_le_mul_left size hlen
    _ = 2 * size := Nat.mul_comm _ _

lemma StartsBefore.append {ts : List (Frame × List Element)} (h : StartsBefore done start)
    {m : OsmIdKey} (hlt : ∀ s, start = some s → s < key) (hm : m < key)
    (hts : ∀ p ∈ ts, p.1.index.firstKey ≤ m) : StartsBefore (done ++ ts) (some key) := by
  intro p hp
  rcases mem_append.mp hp with hp | hp
  · obtain ⟨s, hs, hfirst⟩ := h p hp
    exact ⟨key, rfl, lt_trans hfirst (hlt s hs)⟩
  · exact ⟨key, rfl, lt_of_le_of_lt (hts p hp) hm⟩

lemma SideState.upcoming {rest : Pair (List Frame)}
    (hold : SideState d po doneo resto start carry.old rest.old)
    (hnew : SideState d pn donen restn start carry.new rest.new)
    (hso : ∀ p ∈ po, p.1.body.length ≤ size) (hsn : ∀ p ∈ pn, p.1.body.length ≤ size) :
    Upcoming d size rest := by
  have hro : resto.Sublist po := by
    rw [hold.split]
    exact sublist_append_right _ _
  have hrn : restn.Sublist pn := by
    rw [hnew.split]
    exact sublist_append_right _ _
  refine ⟨fun s => ?_, fun s f hf => ?_⟩
  · cases s with
    | old => exact ⟨resto, hold.ascends.sublist hro, hold.rest⟩
    | new => exact ⟨restn, hnew.ascends.sublist hrn, hnew.rest⟩
  · cases s with
    | old =>
      have hf' : f ∈ resto.map Prod.fst := hold.rest ▸ (hf : f ∈ rest.old)
      obtain ⟨p, hp, rfl⟩ := mem_map.mp hf'
      exact hso p (hro.subset hp)
    | new =>
      have hf' : f ∈ restn.map Prod.fst := hnew.rest ▸ (hf : f ∈ rest.new)
      obtain ⟨p, hp, rfl⟩ := mem_map.mp hf'
      exact hsn p (hrn.subset hp)

/-- Blobs of at most `size` bytes are planned without a refusal, when the target
leaves room for a few of them below the cap. -/
theorem planLoop_never_refuses {kind : ElementKind} {size target : Nat}
    (hcap : max target (4 * size) + 4 * size < diffUnitCapBytes) {fuel : Nat}
    {start : Option OsmIdKey} {carry rest : Pair (List Frame)}
    {po pn doneo donen resto restn : List (Frame × List Element)}
    (hold : SideState d po doneo resto start carry.old rest.old)
    (hnew : SideState d pn donen restn start carry.new rest.new)
    (hstart : ∀ s, start = some s → ∃ side, nextFirst rest = some (s, side))
    (hbo : StartsBefore doneo start) (hbn : StartsBefore donen start)
    (hso : ∀ p ∈ po, p.1.body.length ≤ size) (hsn : ∀ p ∈ pn, p.1.body.length ≤ size)
    (hfuel : rest.old.length + rest.new.length < fuel) :
    ∃ units, planLoop kind target fuel start carry rest = .ok units := by
  induction fuel generalizing start carry rest doneo donen resto restn with
  | zero => omega
  | succ fuel ih =>
    have hupcoming := SideState.upcoming hold hnew hso hsn
    have hroomy : Roomy size target (.begin carry rest) := by
      refine ⟨fun _ => ?_, fun m hm => by simp [Filling.begin] at hm⟩
      have ho := hold.carry_le hbo hso
      have hn := hnew.carry_le hbn hsn
      simp only [Filling.begin, totalBytes, map_append, sum_append] at ho hn ⊢
      omega
    obtain ⟨stop, st, hfill⟩ := @fill_never_refuses d kind size target hcap
      (rest.old.length + rest.new.length + 1) (.begin carry rest) (Nat.lt_succ_self _)
      hroomy hupcoming
    rw [planLoop, hfill]
    cases stop with
    | none => exact ⟨_, rfl⟩
    | some key =>
      have hclose := fill_closes hfill
      obtain ⟨takenO, hro, hsideo, hmo⟩ := hclose.moved.moved .old
      obtain ⟨takenN, hrn, hsiden, hmn⟩ := hclose.moved.moved .new
      obtain ⟨side, hnext⟩ := hclose.next key rfl
      obtain ⟨m, hm, hmkey⟩ := hclose.past key rfl
      have hlt : ∀ s, start = some s → s < key := by
        intro s hs
        obtain ⟨side', hside'⟩ := hstart s hs
        exact (fill_advances hfill s (Or.inr ⟨rfl, side', hside'⟩)).1
      obtain ⟨-, tso, resto', htso, hold'⟩ := SideState.close (s := .old) hold hro hlt hnext
      obtain ⟨-, tsn, restn', htsn, hnew'⟩ := SideState.close (s := .new) hnew hrn hlt hnext
      have hside : ∀ {taken : List Frame} {ts : List (Frame × List Element)},
          taken = ts.map Prod.fst → (∀ f ∈ taken, ∃ m', st.maxFirst = some m' ∧
            f.index.firstKey ≤ m') → ∀ p ∈ ts, p.1.index.firstKey ≤ m := by
        rintro taken ts rfl hbound p hp
        obtain ⟨m', hm', hle⟩ := hbound p.1 (mem_map_of_mem hp)
        obtain rfl := some.inj (hm.symm.trans hm')
        exact hle
      have hless := fill_progress hfill
      have ho : st.sides.old = carry.old ++ takenO := hsideo
      have hn : st.sides.new = carry.new ++ takenN := hsiden
      rw [← ho] at hold'
      rw [← hn] at hnew'
      obtain ⟨units, hrec⟩ := @ih (some key) (st.sides.map fun frames => frames.filter fun f =>
          decide (key ≤ f.index.lastKey)) st.rest _ _ _ _ hold' hnew'
        (by rintro _ ⟨⟩; exact ⟨side, hnext⟩) (hbo.append hlt hmkey (hside htso hmo))
        (hbn.append hlt hmkey (hside htsn hmn)) (by simp only [Filling.left] at hless; omega)
      exact ⟨⟨kind, ⟨start, some key⟩, st.sides.old, st.sides.new⟩ :: units,
        by simp only [ok_bind, hrec]⟩

lemma input_ascends {blocks : List (List Element)} (h : Input d kind frames blocks) :
    Ascends d (frames.zip blocks) ∧ (frames.zip blocks).map Prod.fst = frames ∧
      elems (frames.zip blocks) = blocks.flatten := by
  have hlen := h.exact.length_eq
  have helems : elems (frames.zip blocks) = blocks.flatten := by
    rw [elems, map_snd_zip (by omega)]
  refine ⟨⟨fun p hp => forall₂_zip h.exact hp, ?_, ?_⟩, map_fst_zip (by omega), helems⟩
  · rw [helems]
    exact h.sorted
  · rw [helems]
    exact h.resolves

/-- The merge of a unit's frames is the merge of what its window holds. -/
lemma runPhase_lists (ho : Ascends d po) (hn : Ascends d pn) {u : WorkUnit}
    (hlo : Lists po u.window u.old) (hln : Lists pn u.window u.new) (skip : Bool)
    (hfuel : 2 * po.length + 2 * pn.length < fuel) :
    ∃ acts, runPhase d u.window skip fuel (phaseStart u.old u.new) = .ok acts ∧
      expandAll acts = plain (inside u.window (elems po)) (inside u.window (elems pn)) := by
  obtain ⟨qo, hqo, hfo, hino, _⟩ := hlo
  obtain ⟨qn, hqn, hfn, hinn, _⟩ := hln
  have hside : ∀ {ps qs : List (Frame × List Element)} {frames : List Frame}, Ascends d ps →
      qs.Sublist ps → frames = qs.map Prod.fst →
      SideInv d (Side.new frames) none [] (qs.map Prod.snd) := by
    rintro ps qs frames hps hsub rfl
    have hqs := hps.sublist hsub
    refine sideInv_new ?_ hqs.sorted hqs.resolves
    rw [forall₂_map_left_iff, forall₂_map_right_iff, forall₂_same]
    exact hqs.exact
  obtain ⟨acts, hrun, hexp⟩ := @runPhase_spec d u.window skip (phaseStart u.old u.new) [] []
    (qo.map Prod.snd) (qn.map Prod.snd) (hside ho hqo hfo) (hside hn hqn hfn) fuel (by
      have h1 := hqo.length_le
      have h2 := hqn.length_le
      simp only [phaseWeight, sideWeight, phaseStart, remaining_new, toList,
        length_nil, hfo, hfn, length_map]
      omega)
  refine ⟨acts, hrun, ?_⟩
  rw [hexp, ← hino, ← hinn]
  rfl

/-- What the units of a plan are to the two inputs. -/
structure Partitions (d : Decoder) (fo fn : List Frame) (bo bn : List (List Element))
    (units : List WorkUnit) : Prop where
  windows : ∀ k, ∃! i : Nat, ∃ u : WorkUnit, units[i]? = some u ∧ u.window.Contains k
  old : ∀ u ∈ units, ∀ p ∈ fo.zip bo, ∀ e ∈ p.2, u.window.Contains e.key → p.1 ∈ u.old
  new : ∀ u ∈ units, ∀ p ∈ fn.zip bn, ∀ e ∈ p.2, u.window.Contains e.key → p.1 ∈ u.new
  merges : ∀ (skip : Bool) (fuel : Nat), 2 * fo.length + 2 * fn.length < fuel →
    ∃ runs acts, List.Forall₂ (fun (u : WorkUnit) run =>
        runPhase d u.window skip fuel (phaseStart u.old u.new) = .ok run) units runs ∧
      runPhase d .unbounded skip fuel (phaseStart fo fn) = .ok acts ∧
      expandAll runs.flatten = expandAll acts

lemma runs_of_lists {po pn : List (Frame × List Element)} (ho : Ascends d po)
    (hn : Ascends d pn) (skip : Bool) {fuel : Nat} (hfuel : 2 * po.length + 2 * pn.length < fuel)
    {units : List WorkUnit} (h : ∀ u ∈ units, Lists po u.window u.old ∧ Lists pn u.window u.new) :
    ∃ runs, List.Forall₂ (fun (u : WorkUnit) run =>
        runPhase d u.window skip fuel (phaseStart u.old u.new) = .ok run) units runs ∧
      List.Forall₂ (fun (u : WorkUnit) run => expandAll run =
        plain (inside u.window (elems po)) (inside u.window (elems pn))) units runs := by
  induction units with
  | nil => exact ⟨[], .nil, .nil⟩
  | cons u units ih =>
    obtain ⟨runs, hruns, hplain⟩ := ih fun v hv => h v (mem_cons_of_mem _ hv)
    obtain ⟨hlo, hln⟩ := h u mem_cons_self
    obtain ⟨acts, hrun, hexp⟩ := runPhase_lists ho hn hlo hln skip hfuel
    exact ⟨acts :: runs, .cons hrun hruns, .cons hexp hplain⟩

lemma lists_mem {w : Window} (h : Lists ps w frames) (hp : p ∈ ps) (he : e ∈ p.2)
    (hc : w.Contains e.key) : p.1 ∈ frames := by
  obtain ⟨qs, _, rfl, _, hmem⟩ := h
  exact mem_map_of_mem (hmem p hp e he hc)

lemma sideState_start (h : Ascends d ps) (hframes : ps.map Prod.fst = frames) :
    SideState d ps [] ps none [] frames :=
  ⟨h, rfl, rfl, hframes.symm⟩

lemma planKind_partitions {fo fn : List Frame} {bo bn : List (List Element)}
    (hold : Input d kind fo bo) (hnew : Input d kind fn bn) {units : List WorkUnit}
    (h : planKind kind target fo fn = .ok units) : Partitions d fo fn bo bn units := by
  obtain ⟨haso, hfo, heo⟩ := input_ascends hold
  obtain ⟨hasn, hfn, hen⟩ := input_ascends hnew
  obtain ⟨hchain, hlists⟩ := planLoop_spec (sideState_start haso hfo) (sideState_start hasn hfn)
    (fun _ h => (by cases h)) h
  refine ⟨fun k => hchain.existsUnique (fun _ h => (by cases h)), ?_, ?_, ?_⟩
  · exact fun u hu p hp e he hc => lists_mem (hlists u hu).1 hp he hc
  · exact fun u hu p hp e he hc => lists_mem (hlists u hu).2 hp he hc
  · intro skip fuel hfuel
    have hlo : (fo.zip bo).length = fo.length := by
      rw [length_zip, ← hold.exact.length_eq, Nat.min_self]
    have hln : (fn.zip bn).length = fn.length := by
      rw [length_zip, ← hnew.exact.length_eq, Nat.min_self]
    obtain ⟨runs, hruns, hplain⟩ := @runs_of_lists d _ _ haso hasn skip fuel (by omega) _ hlists
    obtain ⟨acts, hrun, hexp⟩ := runPhase_plain hold hnew skip hfuel
    refine ⟨runs, acts, hruns, hrun, ?_⟩
    rw [hchain.plain_eq haso.sorted hasn.sorted hplain, hexp, heo, hen]
    exact congrArg₂ plain (inside_unbounded _) (inside_unbounded _)

/-- The size a blob's body stays below. -/
def maxBlobDatasize : Nat := 2 ^ 25

/-- Every plan of ascending inputs partitions them, and planning ends with a plan or with the
refusal of a unit over the cap, which a target four blobs below the cap never meets. -/
theorem plan_kind_units {kind : ElementKind} {fo fn : List Frame} {bo bn : List (List Element)}
    (hold : Input d kind fo bo) (hnew : Input d kind fn bn) (target : Nat) :
    (∀ units, planKind kind target fo fn = .ok units → Partitions d fo fn bo bn units) ∧
    ((∃ units, planKind kind target fo fn = .ok units) ∨ ∃ key bytes, diffUnitCapBytes ≤ bytes ∧
      planKind kind target fo fn = .error (unsplittable kind key bytes)) ∧
    ((∀ f ∈ fo ++ fn, f.body.length < maxBlobDatasize) →
      target + 4 * maxBlobDatasize < diffUnitCapBytes →
      ∃ units, planKind kind target fo fn = .ok units) := by
  obtain ⟨haso, hfo, _⟩ := input_ascends hold
  obtain ⟨hasn, hfn, _⟩ := input_ascends hnew
  refine ⟨fun units h => planKind_partitions hold hnew h, ?_, ?_⟩
  · exact @planLoop_total kind target _ none ⟨[], []⟩ ⟨fo, fn⟩ (Nat.lt_succ_self _)
  · intro hsmall htarget
    have hmem : ∀ {frames : List Frame} {blocks : List (List Element)},
        (∀ f ∈ frames, f.body.length < maxBlobDatasize) →
        ∀ p ∈ frames.zip blocks, p.1.body.length ≤ maxBlobDatasize :=
      fun h p hp => le_of_lt (h p.1 (of_mem_zip hp).1)
    have hcap : max target (4 * maxBlobDatasize) + 4 * maxBlobDatasize < diffUnitCapBytes := by
      have hroom : 8 * maxBlobDatasize < diffUnitCapBytes := by
        simp [maxBlobDatasize, diffUnitCapBytes]
      omega
    exact @planLoop_never_refuses d kind maxBlobDatasize target hcap _ none ⟨[], []⟩ ⟨fo, fn⟩ _ _
      [] [] _ _ (sideState_start haso hfo) (sideState_start hasn hfn) (fun _ h => (by cases h))
      (by simp [StartsBefore]) (by simp [StartsBefore])
      (hmem fun f hf => hsmall f (mem_append_left _ hf))
      (hmem fun f hf => hsmall f (mem_append_right _ hf)) (Nat.lt_succ_self _)

/-- Nodes 1 and 5 against nodes 3 and 7, cut wherever a cut is allowed. -/
theorem plan_kind_units_nodes :
    ∃ units, planKind .node 1 [⟨⟨.node, 1, 5, 2, none⟩, [1, 5]⟩] [⟨⟨.node, 3, 7, 2, none⟩, [3, 7]⟩] =
        .ok units ∧
      Partitions plainDecoder [⟨⟨.node, 1, 5, 2, none⟩, [1, 5]⟩] [⟨⟨.node, 3, 7, 2, none⟩, [3, 7]⟩]
        [nodes [1, 5]] [nodes [3, 7]] units := by
  have h := @plan_kind_units plainDecoder .node [⟨⟨.node, 1, 5, 2, none⟩, [1, 5]⟩]
    [⟨⟨.node, 3, 7, 2, none⟩, [3, 7]⟩] [nodes [1, 5]] [nodes [3, 7]]
    (input_nodes ⟨⟨_, rfl, rfl⟩, by decide, by decide, rfl, by decide, by decide, by decide,
      by decide⟩ (by decide) rfl)
    (input_nodes ⟨⟨_, rfl, rfl⟩, by decide, by decide, rfl, by decide, by decide, by decide,
      by decide⟩ (by decide) rfl) 1
  have hsmall : ∀ f ∈ ([⟨⟨.node, 1, 5, 2, none⟩, [1, 5]⟩] ++ [⟨⟨.node, 3, 7, 2, none⟩, [3, 7]⟩] : List Frame),
      f.body.length < maxBlobDatasize := by
    simp [maxBlobDatasize]
  have hroom : 1 + 4 * maxBlobDatasize < diffUnitCapBytes := by
    simp [maxBlobDatasize, diffUnitCapBytes]
  obtain ⟨units, hunits⟩ := h.2.2 hsmall hroom
  exact ⟨units, hunits, h.1 units hunits⟩

/-- One input's frames, one element each, that no target lets a cut split before
the cap. -/
lemma fill_refuses {kind : ElementKind} {target size fuel : Nat} {fs : List Frame} {st : Filling}
    (hrest : st.rest = ⟨fs, []⟩) (hfs : ∀ f ∈ fs, f.body.length = size ∧ f.index.count = 1)
    (hlone : st.lone + fs.length < diffUnitLoneElements)
    (htarget : st.bytes + size * fs.length < target) (hne : fs ≠ [])
    (hcap : diffUnitCapBytes ≤ st.bytes + size * (fs.length - 1)) (hfuel : fs.length ≤ fuel) :
    ∃ error, fill kind target fuel st = .error error := by
  induction fs generalizing st fuel with
  | nil => exact absurd rfl hne
  | cons f fs ih =>
    cases fuel with
    | zero => simp at hfuel
    | succ fuel =>
      obtain ⟨hsize, hcount⟩ := hfs f mem_cons_self
      simp only [length_cons] at hlone htarget hcap hfuel
      have hnext : nextFirst st.rest = some (f.index.firstKey, .old) := by rw [hrest]; rfl
      have hdue : st.due target = false := by
        have h1 : ¬ target ≤ st.bytes := by omega
        have h2 : ¬ diffUnitLoneElements ≤ st.lone := by omega
        simp [Filling.due, h1, h2]
      rw [fill, hnext]
      simp only [hdue, Bool.false_and, Bool.false_eq_true, if_false]
      by_cases hover : diffUnitCapBytes ≤ st.bytes
      · exact ⟨_, by rw [if_pos hover]⟩
      · rw [if_neg hover, hrest]
        have hfs_ne : fs ≠ [] := by
          rintro rfl
          simp at hcap
          exact hover hcap
        have hmul : size * (fs.length + 1) = size * fs.length + size := Nat.mul_succ _ _
        have hpos : 1 ≤ fs.length := length_pos_iff.mpr hfs_ne
        have hsub : size * fs.length = size * (fs.length - 1) + size := by
          obtain ⟨n, hn⟩ : ∃ n, fs.length = n + 1 := ⟨fs.length - 1, by omega⟩
          rw [hn, Nat.add_sub_cancel, Nat.mul_succ]
        refine @ih fuel (st.take .old f fs) ?_ (fun g hg => hfs g (mem_cons_of_mem _ hg)) ?_ ?_
          hfs_ne ?_ (by omega)
        · simp [Filling.take, hrest, Pair.set]
        · have hle : (st.take .old f fs).lone ≤ st.lone + 1 := by
            simp only [Filling.take, hcount]
            split_ifs
            · exact Nat.min_le_left _ _
            · exact Nat.le_succ _
          omega
        · simp only [Filling.take, hsize]
          omega
        · simp only [Filling.take, hsize]
          rw [Nat.add_sub_cancel] at hcap
          omega

/-- Bodies stored as they are, each one node with the first byte for its id. -/
def firstByteDecoder : Decoder where
  envelope body := .ok (some (1, body), none)
  decompress p := .ok p.2
  parse raw := .ok (nodes raw.head?.toList)

def bulkyIds : Bytes :=
  [1, 2, 3, 4, 5, 6, 7, 8, 9, 10, 11, 12, 13, 14, 15, 16, 17, 18, 19, 20, 21, 22, 23, 24, 25, 26,
    27, 28, 29, 30, 31, 32, 33, 34]

/-- A blob with one node and `padding` bytes behind it. -/
def bulkyFrame (padding : Nat) (id : UInt8) : Frame :=
  ⟨⟨.node, Int64.ofNat id.toNat, Int64.ofNat id.toNat, 1, none⟩, id :: replicate padding 0⟩

lemma bulky_input (padding : Nat) :
    Input firstByteDecoder .node (bulkyIds.map (bulkyFrame padding))
      (bulkyIds.map fun id => nodes [id]) where
  exact := by
    rw [forall₂_map_left_iff, forall₂_map_right_iff, forall₂_same]
    intro id _
    exact ⟨⟨id :: replicate padding 0, rfl, rfl⟩, by simp [nodes],
      by simp [nodes, bulkyFrame], rfl, by simp [nodes, bulkyFrame], by simp [nodes, bulkyFrame],
      by simp [nodes, bulkyFrame], by simp [nodes, bulkyFrame]⟩
  kind := by
    intro f hf
    obtain ⟨id, _, rfl⟩ := mem_map.mp hf
    rfl
  sorted := by decide
  resolves := by
    intro e he
    obtain ⟨id, _, rfl⟩ : ∃ id ∈ bulkyIds, (⟨.node, Int64.ofNat id.toNat, []⟩ : Element) = e := by
      simpa [nodes, eq_comm] using he
    simp [Element.Resolves]

lemma bulky_refused {padding : Nat} (hcap : diffUnitCapBytes ≤ (padding + 1) * 33)
    (htarget : (padding + 1) * 34 < target) :
    ¬ ∃ units, planKind .node target (bulkyIds.map (bulkyFrame padding)) [] = .ok units := by
  rintro ⟨units, hunits⟩
  have hlen : (bulkyIds.map (bulkyFrame padding)).length = 34 := rfl
  obtain ⟨error, herror⟩ := @fill_refuses .node target (padding + 1) 35
    (bulkyIds.map (bulkyFrame padding))
    (.begin ⟨[], []⟩ ⟨bulkyIds.map (bulkyFrame padding), []⟩) rfl
    (by
      intro f hf
      obtain ⟨id, _, rfl⟩ := mem_map.mp hf
      exact ⟨by simp [bulkyFrame], rfl⟩)
    (by simp [Filling.begin, hlen, diffUnitLoneElements])
    (by simpa [Filling.begin, hlen, totalBytes] using htarget) (by simp [bulkyIds])
    (by simpa [Filling.begin, hlen, totalBytes] using hcap) (by omega)
  rw [planKind, planLoop] at hunits
  simp only [hlen, length_nil, Nat.add_zero] at hunits
  rw [herror] at hunits
  simp at hunits

/-- With a target past the cap an ascending input is refused, and a cut through a block changes the
actions that report its elements. -/
theorem plan_kind_refuses_and_splits_runs :
    (Input firstByteDecoder .node (bulkyIds.map (bulkyFrame (2 ^ 25 - 2)))
        (bulkyIds.map fun id => nodes [id]) ∧
      ¬ ∃ units, planKind .node (2 ^ 31) (bulkyIds.map (bulkyFrame (2 ^ 25 - 2))) [] = .ok units) ∧
    ∃ units runs acts,
      planKind .node 1 [⟨⟨.node, 1, 5, 2, none⟩, [1, 5]⟩] [⟨⟨.node, 3, 7, 2, none⟩, [3, 7]⟩] = .ok units ∧
      List.Forall₂ (fun (u : WorkUnit) run =>
        runPhase plainDecoder u.window true 9 (phaseStart u.old u.new) = .ok run) units runs ∧
      runPhase plainDecoder .unbounded true 9
        (phaseStart [⟨⟨.node, 1, 5, 2, none⟩, [1, 5]⟩] [⟨⟨.node, 3, 7, 2, none⟩, [3, 7]⟩]) = .ok acts ∧
      runs.flatten ≠ acts := by
  refine ⟨⟨bulky_input _, bulky_refused ?_ ?_⟩, ?_⟩
  · simp [diffUnitCapBytes]
  · simp
  · exact ⟨_, _, _, rfl, .cons rfl (.cons rfl .nil), rfl, by decide⟩

end DiffUnits
