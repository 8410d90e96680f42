import Pbfhogg.Osc.Sorted
import Pbfhogg.Lib.Runs

/-!
# merge-changes --simplify

`dedupe` of `commands/merge_changes/simplify.rs`: one key per change, sorted by object and place in
the input; per object the version floor runs over the claims and the last change survives. Of
several objects that regress, the one whose regression stands first is reported. A survivor is its
place.
-/

namespace OscSimplify

open OsmId OscCompact OscOverlay OscSorted VersionFloor Runs List Option

variable {p : Key × Change} {batches : List (List Change)}

structure Element where
  kind : ElementKind
  action : Action
  id : Int64
  version : Option Int32

/-- What the indexed sink records of a change. -/
def Element.ofChange (c : Change) : Element := ⟨c.kind, c.action, c.id, c.claim⟩

structure Key where
  kind : ElementKind
  id : Int64
  batch : Nat
  elem : Nat
  deriving DecidableEq

namespace Key

def objectRank (k : Key) : Nat ×ₗ Int := toLex (k.kind.ordinal, k.id.toInt)

def place (k : Key) : Nat ×ₗ Nat := toLex (k.batch, k.elem)

/-- The derived order of the source's tuple `(kind, id, batch, element)`. -/
def Le (a b : Key) : Prop :=
  toLex (a.objectRank, a.place) ≤ toLex (b.objectRank, b.place)

instance : DecidableRel Le := fun a b =>
  inferInstanceAs (Decidable (toLex (a.objectRank, a.place) ≤ toLex (b.objectRank, b.place)))

end Key

def position (i : Nat) : Except OscError Nat :=
  if i < 2 ^ 32 then .ok i
  else .error (.internal "merge-changes: more than 4 Gi batches or elements")

def batchKeys (b : Nat) : Nat → List Element → Except OscError (List Key)
  | _, [] => .ok []
  | i, e :: rest =>
    match position i with
    | .error err => .error err
    | .ok p =>
      match batchKeys b (i + 1) rest with
      | .error err => .error err
      | .ok tail => .ok (⟨e.kind, e.id, b, p⟩ :: tail)

def inputKeys : Nat → List (List Element) → Except OscError (List Key)
  | _, [] => .ok []
  | b, batch :: rest =>
    match position b with
    | .error err => .error err
    | .ok p =>
      match batchKeys p 0 batch with
      | .error err => .error err
      | .ok here =>
        match inputKeys (b + 1) rest with
        | .error err => .error err
        | .ok tail => .ok (here ++ tail)

structure Regression where
  key : Key
  version : Int32
  held : Int32

/-- Keep the regression at the smaller place. -/
def noteRegression (first : Option Regression) (r : Regression) : Option Regression :=
  match first with
  | none => some r
  | some at_ => if r.key.place < at_.key.place then some r else some at_

/-- The claims of one object behind its first, until one regresses. -/
def scanClaims (version : Key → Option Int32) (floor : Floor) (first : Option Regression) :
    List Key → Option Regression
  | [] => first
  | key :: rest =>
    match version key, floor.admits (version key) with
    | some v, .error held => noteRegression first ⟨key, v, held⟩
    | _, _ => scanClaims version (floor.raise (version key)) first rest

def scanObject (version : Key → Option Int32) (first : Option Regression) :
    List Key → Option Regression
  | [] => first
  | head :: claims => scanClaims version (Floor.default.raise (version head)) first claims

structure Groups where
  create : List (Nat × Nat)
  modify : List (Nat × Nat)
  delete : List (Nat × Nat)

def Groups.of (g : Groups) : Action → List (Nat × Nat)
  | .create => g.create
  | .modify => g.modify
  | .delete => g.delete

def Groups.push (g : Groups) (a : Action) (p : Nat × Nat) : Groups :=
  match a with
  | .create => { g with create := g.create ++ [p] }
  | .modify => { g with modify := g.modify ++ [p] }
  | .delete => { g with delete := g.delete ++ [p] }

/-- The element a key names; the keys in use are in bounds. -/
def element (batches : List (List Element)) (k : Key) : Element :=
  ((batches.getD k.batch []).getD k.elem ⟨.node, .create, 0, none⟩)

def visitObject (batches : List (List Element)) (allow : Bool)
    (acc : Groups × Option Regression) (object : List Key) : Groups × Option Regression :=
  let first := if allow then acc.2
    else scanObject (fun k => (element batches k).version) acc.2 object
  match object.getLast? with
  | none => (acc.1, first)
  | some last => (acc.1.push (element batches last).action (last.batch, last.elem), first)

def dedupe (batches : List (List Element)) (allowVersionRegression : Bool) :
    Except OscError Groups :=
  match inputKeys 0 batches with
  | .error e => .error e
  | .ok keys =>
    let objects := (keys.insertionSort Key.Le).splitBy fun a b =>
      decide (a.kind = b.kind ∧ a.id = b.id)
    match objects.foldl (visitObject batches allowVersionRegression) (⟨[], [], []⟩, none) with
    | (_, some r) => .error (.versionRegression "merge-changes simplification"
        r.key.kind r.key.id r.version r.held)
    | (groups, none) => .ok groups

/-- The changes of one batch with their keys. -/
def placedBatch (b : Nat) : Nat → List Change → List (Key × Change)
  | _, [] => []
  | i, c :: rest => (⟨c.kind, c.id, b, i⟩, c) :: placedBatch b (i + 1) rest

/-- The changes of the input with their keys, in input order. -/
def placed : Nat → List (List Change) → List (Key × Change)
  | _, [] => []
  | b, batch :: rest => placedBatch b 0 batch ++ placed (b + 1) rest

def rendered (batches : List (List Change)) : List (List Element) :=
  batches.map (·.map Element.ofChange)

/-- Every batch number and every place in a batch fits the key's `u32`. -/
def PlacesFit (batches : List (List Change)) : Prop :=
  batches.length ≤ 2 ^ 32 ∧ ∀ batch ∈ batches, batch.length ≤ 2 ^ 32

lemma position_ok {i : Nat} (h : i < 2 ^ 32) : position i = .ok i := if_pos h

lemma batchKeys_eq (b i : Nat) (cs : List Change) (h : i + cs.length ≤ 2 ^ 32) :
    batchKeys b i (cs.map Element.ofChange) = .ok ((placedBatch b i cs).map Prod.fst) := by
  induction cs generalizing i with
  | nil => rfl
  | cons c rest ih =>
    rw [length_cons] at h
    simp only [map_cons, batchKeys, position_ok (show i < 2 ^ 32 by omega),
      ih (i + 1) (by omega), placedBatch, Element.ofChange]

lemma inputKeys_eq (b : Nat) (batches : List (List Change))
    (h : b + batches.length ≤ 2 ^ 32) (hb : ∀ batch ∈ batches, batch.length ≤ 2 ^ 32) :
    inputKeys b (rendered batches) = .ok ((placed b batches).map Prod.fst) := by
  induction batches generalizing b with
  | nil => rfl
  | cons batch rest ih =>
    rw [length_cons] at h
    have hhere := batchKeys_eq b 0 batch (by simpa using hb batch mem_cons_self)
    have htail := ih (b + 1) (by omega) fun x hx => hb x (mem_cons_of_mem _ hx)
    simp only [rendered] at htail
    simp only [rendered, map_cons, inputKeys, position_ok (show b < 2 ^ 32 by omega), hhere,
      htail, placed, map_append]

lemma placedBatch_snd (b i : Nat) (cs : List Change) : (placedBatch b i cs).map Prod.snd = cs := by
  induction cs generalizing i with
  | nil => rfl
  | cons c rest ih => simp [placedBatch, ih]

lemma placed_snd (b : Nat) (batches : List (List Change)) :
    (placed b batches).map Prod.snd = batches.flatten := by
  induction batches generalizing b with
  | nil => rfl
  | cons batch rest ih => simp [placed, placedBatch_snd, ih]

lemma mem_placedBatch {b i : Nat} {cs : List Change} (h : p ∈ placedBatch b i cs) :
    p.1.kind = p.2.kind ∧ p.1.id = p.2.id ∧ p.1.batch = b ∧ i ≤ p.1.elem ∧
      cs[p.1.elem - i]? = some p.2 := by
  induction cs generalizing i with
  | nil => cases h
  | cons c rest ih =>
    rcases mem_cons.mp h with rfl | h
    · simp
    · obtain ⟨hk, hid, hb, hi, hget⟩ := ih h
      refine ⟨hk, hid, hb, by omega, ?_⟩
      rw [show p.1.elem - i = p.1.elem - (i + 1) + 1 by omega, getElem?_cons_succ]
      exact hget

lemma mem_placed {b : Nat} (h : p ∈ placed b batches) :
    p.1.kind = p.2.kind ∧ p.1.id = p.2.id ∧ b ≤ p.1.batch ∧
      (batches[p.1.batch - b]?).bind (·[p.1.elem]?) = some p.2 := by
  induction batches generalizing b with
  | nil => cases h
  | cons batch rest ih =>
    rcases mem_append.mp h with h | h
    · obtain ⟨hk, hid, hb, _, hget⟩ := mem_placedBatch h
      refine ⟨hk, hid, by omega, ?_⟩
      simpa [hb] using hget
    · obtain ⟨hk, hid, hb, hget⟩ := ih h
      refine ⟨hk, hid, by omega, ?_⟩
      rw [show p.1.batch - b = p.1.batch - (b + 1) + 1 by omega, getElem?_cons_succ]
      exact hget

lemma placedBatch_pairwise (b i : Nat) (cs : List Change) :
    (placedBatch b i cs).Pairwise fun p q => p.1.place < q.1.place := by
  induction cs generalizing i with
  | nil => exact List.Pairwise.nil
  | cons c rest ih =>
    refine pairwise_cons.mpr ⟨fun q hq => ?_, ih (i + 1)⟩
    obtain ⟨_, _, hb, hi, _⟩ := mem_placedBatch hq
    rw [Key.place, Key.place, Prod.Lex.toLex_lt_toLex]
    exact Or.inr ⟨hb.symm, hi⟩

lemma placed_pairwise (b : Nat) (batches : List (List Change)) :
    (placed b batches).Pairwise fun p q => p.1.place < q.1.place := by
  induction batches generalizing b with
  | nil => exact List.Pairwise.nil
  | cons batch rest ih =>
    refine pairwise_append.mpr ⟨placedBatch_pairwise b 0 batch, ih (b + 1), ?_⟩
    intro p hp q hq
    obtain ⟨_, _, hb, _, _⟩ := mem_placedBatch hp
    obtain ⟨_, _, hb', _⟩ := mem_placed hq
    rw [Key.place, Key.place, Prod.Lex.toLex_lt_toLex]
    exact Or.inl (by dsimp only; omega)

lemma element_placed (h : p ∈ placed 0 batches) :
    element (rendered batches) p.1 = Element.ofChange p.2 := by
  obtain ⟨_, _, _, hget⟩ := mem_placed h
  obtain ⟨batch, hbatch, helem⟩ := bind_eq_some_iff.mp hget
  rw [Nat.sub_zero] at hbatch
  simp [element, rendered, getD_eq_getElem?_getD, hbatch, helem]

def Key.object (k : Key) : ElementKind × Int64 := (k.kind, k.id)

lemma objectRank_eq_iff {a b : Key} : a.objectRank = b.objectRank ↔ a.object = b.object := by
  simp only [Key.objectRank, Key.object, EmbeddingLike.apply_eq_iff_eq, Prod.mk.injEq,
    ElementKind.ordinal_injective.eq_iff, Int64.toInt_inj]

def keysOf (batches : List (List Change)) : List Key := (placed 0 batches).map Prod.fst

def objectsOf (batches : List (List Change)) : List (List Key) :=
  runs Key.objectRank ((keysOf batches).insertionSort Key.Le)

lemma splitBy_eq_objects (batches : List (List Change)) :
    ((keysOf batches).insertionSort Key.Le).splitBy (fun a b =>
      decide (a.kind = b.kind ∧ a.id = b.id)) = objectsOf batches := by
  have hfun : (fun a b : Key => decide (a.kind = b.kind ∧ a.id = b.id)) =
      fun a b => decide (a.objectRank = b.objectRank) := by
    funext a b
    rw [decide_eq_decide, objectRank_eq_iff, Key.object, Key.object, Prod.mk.injEq]
  rw [hfun]
  rfl

lemma sorted_keys (keys : List Key) : (keys.insertionSort Key.Le).Pairwise Key.Le := by
  have htotal : Std.Total Key.Le := ⟨fun a b =>
    le_total (toLex (a.objectRank, a.place)) (toLex (b.objectRank, b.place))⟩
  have htrans : IsTrans Key Key.Le := ⟨fun a b c h h' =>
    le_trans (α := (Nat ×ₗ Int) ×ₗ (Nat ×ₗ Nat)) h h'⟩
  exact pairwise_insertionSort _ _

lemma le_objectRank {a b : Key} (h : Key.Le a b) : a.objectRank ≤ b.objectRank := by
  rcases Prod.Lex.toLex_le_toLex.mp h with hlt | ⟨heq, _⟩
  · exact le_of_lt hlt
  · exact le_of_eq heq

lemma le_place {a b : Key} (h : Key.Le a b) (hobj : a.object = b.object) : a.place ≤ b.place := by
  rcases Prod.Lex.toLex_le_toLex.mp h with hlt | ⟨_, hle⟩
  · exact absurd (objectRank_eq_iff.mpr hobj) (ne_of_lt hlt)
  · exact hle

lemma keysOf_pairwise (batches : List (List Change)) :
    (keysOf batches).Pairwise fun a b => a.place < b.place :=
  pairwise_map.mpr (placed_pairwise 0 batches)

lemma eq_of_place_eq {a b : Key} (ha : a ∈ keysOf batches) (hb : b ∈ keysOf batches)
    (h : a.place = b.place) : a = b := by
  by_contra hne
  have hsymm : (keysOf batches).Pairwise fun a b => a.place ≠ b.place :=
    (keysOf_pairwise batches).imp fun h => ne_of_lt h
  have : Std.Symm (fun a b : Key => a.place ≠ b.place) := ⟨fun _ _ h => Ne.symm h⟩
  exact hsymm.forall ha hb hne h

lemma filter_sorted_keys (batches : List (List Change)) (x : ElementKind × Int64) :
    ((keysOf batches).insertionSort Key.Le).filter (·.object = x) =
      (keysOf batches).filter (·.object = x) := by
  refine @List.Perm.eq_of_pairwise Key (fun a b => a.place ≤ b.place) _ _ ?_ ?_ ?_
    ((perm_insertionSort _ _).filter _)
  · intro a b ha hb hab hba
    have ha' := (perm_insertionSort _ _).mem_iff.mp (mem_filter.mp ha).1
    exact eq_of_place_eq ha' (mem_filter.mp hb).1 (le_antisymm hab hba)
  · rw [pairwise_filter]
    refine (sorted_keys _).imp fun {a b} h ha hb => le_place h ?_
    rw [of_decide_eq_true ha, of_decide_eq_true hb]
  · exact ((keysOf_pairwise batches).imp fun h => le_of_lt h).filter _

/-- The run of an object is its keys in input order. -/
lemma object_run {m : List Key} (hm : m ∈ objectsOf batches) {k : Key} (hk : k ∈ m) :
    m = (keysOf batches).filter (·.object = k.object) := by
  have hrun := run_eq_filter Key.objectRank ((sorted_keys (keysOf batches)).imp le_objectRank) hm hk
  simp only [objectRank_eq_iff] at hrun
  rw [hrun]
  exact filter_sorted_keys batches k.object

lemma exists_object_run {k : Key} (hk : k ∈ keysOf batches) :
    (keysOf batches).filter (·.object = k.object) ∈ objectsOf batches := by
  obtain ⟨m, hm, hkm⟩ := exists_run_of_mem Key.objectRank
    ((perm_insertionSort Key.Le (keysOf batches)).mem_iff.mpr hk)
  rw [← object_run hm hkm]
  exact hm

def keyClaim (batches : List (List Change)) (k : Key) : Option Int32 :=
  (element (rendered batches) k).version

lemma scanClaims_eq (claim : Key → Option Int32) (x : ElementKind × Int64)
    (first : Option Regression) (seen l : List Key) (hl : ∀ k ∈ l, k.object = x) :
    scanClaims claim ⟨highest Key.object claim seen x⟩ first l =
      match firstRegression Key.object claim seen l with
      | none => first
      | some (k, v, held) => noteRegression first ⟨k, v, held⟩ := by
  induction l generalizing seen with
  | nil => rfl
  | cons k rest ih =>
    have hk := hl k mem_cons_self
    have htail := ih (seen ++ [k]) fun k' hk' => hl k' (mem_cons_of_mem _ hk')
    rw [highest_append, if_pos hk] at htail
    rw [scanClaims, firstRegression, hk, raise_eq, htail]
    cases claim k with
    | none => rfl
    | some v =>
      cases (Floor.mk (highest Key.object claim seen x)).admits (some v) <;> rfl

lemma scanObject_eq (claim : Key → Option Int32) (x : ElementKind × Int64)
    (first : Option Regression) (l : List Key) (hl : ∀ k ∈ l, k.object = x) :
    scanObject claim first l =
      match firstRegression Key.object claim [] l with
      | none => first
      | some (k, v, held) => noteRegression first ⟨k, v, held⟩ := by
  cases l with
  | nil => rfl
  | cons k rest =>
    have hk := hl k mem_cons_self
    have htail := scanClaims_eq claim x first [k] rest fun k' hk' =>
      hl k' (mem_cons_of_mem _ hk')
    have hseed : Floor.mk (highest Key.object claim [k] x) = Floor.default.raise (claim k) := by
      simp [highest, hk, raise_eq, Floor.default]
    have hstep : firstRegression Key.object claim [] (k :: rest) =
        firstRegression Key.object claim [k] rest := by
      rw [firstRegression]
      cases claim k <;> rfl
    rw [scanObject, hstep, ← hseed, htail]

/-- The first regression of one object. -/
def objectRegression (batches : List (List Change)) (m : List Key) : Option Regression :=
  (firstRegression Key.object (keyClaim batches) [] m).map fun r => ⟨r.1, r.2.1, r.2.2⟩

/-- `first` is an earliest of the regressions of the objects, if there is one. -/
def Earliest (batches : List (List Change)) (objects : List (List Key)) :
    Option Regression → Prop
  | none => ∀ m ∈ objects, objectRegression batches m = none
  | some r => (∃ m ∈ objects, objectRegression batches m = some r) ∧
      ∀ m ∈ objects, ∀ r', objectRegression batches m = some r' → r.key.place ≤ r'.key.place

lemma scanObject_run {m : List Key} (hm : m ∈ objectsOf batches) (first : Option Regression) :
    scanObject (keyClaim batches) first m =
      match objectRegression batches m with
      | none => first
      | some r => noteRegression first r := by
  obtain ⟨k, hk⟩ := exists_mem_of_ne_nil m (ne_nil_of_mem_runs _ hm)
  have hobj : ∀ k' ∈ m, k'.object = k.object := fun k' hk' =>
    objectRank_eq_iff.mp (eq_of_mem_run _ hm hk' hk)
  rw [scanObject_eq _ k.object first m hobj, objectRegression]
  cases firstRegression Key.object (keyClaim batches) [] m <;> rfl

lemma earliest_append {objects : List (List Key)} {m : List Key} {first : Option Regression}
    (h : Earliest batches objects first) :
    Earliest batches (objects ++ [m])
      (match objectRegression batches m with
        | none => first
        | some r => noteRegression first r) := by
  cases hm : objectRegression batches m with
  | none =>
    cases first with
    | none =>
      intro n hn
      rcases mem_append.mp hn with hn | hn
      · exact h n hn
      · rw [mem_singleton.mp hn, hm]
    | some f =>
      obtain ⟨⟨n, hn, hf⟩, hmin⟩ := h
      refine ⟨⟨n, mem_append_left _ hn, hf⟩, fun n' hn' r' hr' => ?_⟩
      rcases mem_append.mp hn' with hn' | hn'
      · exact hmin n' hn' r' hr'
      · rw [mem_singleton.mp hn', hm] at hr'
        cases hr'
  | some r =>
    cases first with
    | none =>
      refine ⟨⟨m, by simp, hm⟩, fun n' hn' r' hr' => ?_⟩
      rcases mem_append.mp hn' with hn' | hn'
      · rw [h n' hn'] at hr'
        cases hr'
      · rw [mem_singleton.mp hn', hm] at hr'
        exact le_of_eq (by rw [some.inj hr'])
    | some f =>
      obtain ⟨⟨n, hn, hf⟩, hmin⟩ := h
      simp only [noteRegression]
      split_ifs with hlt
      · refine ⟨⟨m, by simp, hm⟩, fun n' hn' r' hr' => ?_⟩
        rcases mem_append.mp hn' with hn' | hn'
        · exact le_trans (le_of_lt hlt) (hmin n' hn' r' hr')
        · rw [mem_singleton.mp hn', hm] at hr'
          exact le_of_eq (by rw [some.inj hr'])
      · refine ⟨⟨n, mem_append_left _ hn, hf⟩, fun n' hn' r' hr' => ?_⟩
        rcases mem_append.mp hn' with hn' | hn'
        · exact hmin n' hn' r' hr'
        · rw [mem_singleton.mp hn', hm] at hr'
          rw [← some.inj hr']
          exact le_of_not_gt hlt

/-- The survivor of an object, filed under its action. -/
def survivorOf (batches : List (List Change)) (a : Action) (m : List Key) : Option (Nat × Nat) :=
  m.getLast?.bind fun k =>
    if (element (rendered batches) k).action = a then some (k.batch, k.elem) else none

lemma push_of (g : Groups) (a a' : Action) (p : Nat × Nat) :
    (g.push a p).of a' = if a = a' then g.of a' ++ [p] else g.of a' := by
  cases a <;> cases a' <;> rfl

lemma visitObject_spec (objects : List (List Key))
    (hobjects : ∀ m ∈ objects, m ∈ objectsOf batches) :
    let out := objects.foldl (visitObject (rendered batches) false) (⟨[], [], []⟩, none)
    Earliest batches objects out.2 ∧
      ∀ a, out.1.of a = objects.filterMap (survivorOf batches a) := by
  induction objects using reverseRecOn with
  | nil =>
    refine ⟨fun m hm => absurd hm (by simp), fun a => ?_⟩
    cases a <;> rfl
  | append_singleton objects m ih =>
    obtain ⟨hearly, hgroups⟩ := ih fun n hn => hobjects n (mem_append_left _ hn)
    have hm : m ∈ objectsOf batches := hobjects m (by simp)
    simp only [foldl_append, foldl_cons, foldl_nil]
    generalize objects.foldl (visitObject (rendered batches) false) (⟨[], [], []⟩, none) = acc
      at hearly hgroups ⊢
    obtain ⟨last, hlast⟩ : ∃ last, m.getLast? = some last := by
      rw [← isSome_iff_exists, getLast?_isSome]
      exact ne_nil_of_mem_runs _ hm
    have hvisit : visitObject (rendered batches) false acc m =
        (acc.1.push (element (rendered batches) last).action (last.batch, last.elem),
          scanObject (keyClaim batches) acc.2 m) := by
      simp only [visitObject, hlast]
      rfl
    rw [hvisit, scanObject_run hm]
    refine ⟨earliest_append hearly, fun a => ?_⟩
    rw [push_of, filterMap_append, hgroups a]
    by_cases ha : (element (rendered batches) last).action = a
    · simp [survivorOf, hlast, ha]
    · simp [survivorOf, hlast, ha]

lemma earliest_is_first {first : Option Regression}
    (h : Earliest batches (objectsOf batches) first) :
    firstRegression Key.object (keyClaim batches) [] (keysOf batches) =
      first.map fun r => (r.key, r.version, r.held) := by
  cases first with
  | none =>
    refine firstRegression_none_of_grouped _ _ fun k hk => ?_
    have hnone := h _ (exists_object_run hk)
    simpa [objectRegression] using hnone
  | some r =>
    obtain ⟨⟨m, hm, hr⟩, hmin⟩ := h
    obtain ⟨⟨k, v, held⟩, hfirst, rfl⟩ := map_eq_some_iff.mp hr
    have hk : k ∈ m := by
      obtain ⟨pre, post, hsplit, _, _⟩ := (firstRegression_eq_some_iff _ _ _ _ _ _ _).mp hfirst
      rw [hsplit]
      simp
    refine firstRegression_of_grouped _ _ Key.place (keysOf_pairwise batches) ?_ ?_
    · rw [← object_run hm hk]
      exact hfirst
    · intro b hb c w h' hc
      refine hmin _ (exists_object_run hb) ⟨c, w, h'⟩ ?_
      rw [objectRegression, hc]
      rfl

/-- The changes a group of survivors names. -/
def survivors (batches : List (List Change)) (g : Groups) (a : Action) : List Change :=
  (g.of a).filterMap fun p => (batches[p.1]?).bind (·[p.2]?)

lemma dedupe_spec (hfit : PlacesFit batches) :
    ∃ groups first, Earliest batches (objectsOf batches) first ∧
      (∀ a, groups.of a = (objectsOf batches).filterMap (survivorOf batches a)) ∧
      dedupe (rendered batches) false = match first with
        | some r => .error (.versionRegression "merge-changes simplification"
            r.key.kind r.key.id r.version r.held)
        | none => .ok groups := by
  have hkeys := inputKeys_eq 0 batches (by simpa using hfit.1) hfit.2
  obtain ⟨hearly, hgroups⟩ := visitObject_spec (objectsOf batches) fun m hm => hm
  refine ⟨_, _, hearly, hgroups, ?_⟩
  have hsplit := splitBy_eq_objects batches
  rw [keysOf] at hsplit
  simp only [dedupe, hkeys, hsplit]
  generalize (objectsOf batches).foldl (visitObject (rendered batches) false) _ = out
  obtain ⟨groups, _ | r⟩ := out <;> rfl

lemma object_of_mem_placed {b : Nat} (h : p ∈ placed b batches) : p.1.object = p.2.object := by
  obtain ⟨hkind, hid, _, _⟩ := mem_placed h
  rw [Key.object, Change.object, hkind, hid]

lemma filter_keysOf (batches : List (List Change)) (x : ElementKind × Int64) :
    (keysOf batches).filter (·.object = x) =
      ((placed 0 batches).filter (·.2.object = x)).map Prod.fst := by
  rw [keysOf, List.filter_map]
  congr 1
  refine filter_congr fun p hp => ?_
  simp only [Function.comp_apply, object_of_mem_placed hp]

lemma lastChange_eq (batches : List (List Change)) (x : ElementKind × Int64) :
    lastChange batches.flatten x =
      ((placed 0 batches).filter (·.2.object = x)).getLast?.map Prod.snd := by
  rw [lastChange, ← placed_snd 0 batches, List.filter_map, List.getLast?_map]
  rfl

/-- The survivor of an object is the last change to it. -/
lemma survivor_iff {a : Action} {c : Change} :
    (∃ m ∈ objectsOf batches, ∃ p, survivorOf batches a m = some p ∧
      (batches[p.1]?).bind (·[p.2]?) = some c) ↔
    lastChange batches.flatten c.object = some c ∧ c.action = a := by
  constructor
  · rintro ⟨m, hm, p, hp, hc⟩
    obtain ⟨k, hlast, hact⟩ := bind_eq_some_iff.mp hp
    have hk : k ∈ m := mem_of_getLast? hlast
    rw [object_run hm hk, filter_keysOf, getLast?_map] at hlast
    obtain ⟨⟨k', c'⟩, hq, rfl⟩ := map_eq_some_iff.mp hlast
    obtain ⟨hmem, hobj⟩ := mem_filter.mp (mem_of_getLast? hq)
    split_ifs at hact with ha
    obtain rfl := some.inj hact
    obtain ⟨_, _, _, hget⟩ := mem_placed hmem
    rw [Nat.sub_zero, hc] at hget
    obtain rfl := some.inj hget
    rw [element_placed hmem] at ha
    refine ⟨?_, ha⟩
    rw [lastChange_eq, of_decide_eq_true hobj, hq]
    rfl
  · rintro ⟨hlast, ha⟩
    rw [lastChange_eq] at hlast
    obtain ⟨⟨k, c'⟩, hq, rfl⟩ := map_eq_some_iff.mp hlast
    obtain ⟨hmem, _⟩ := mem_filter.mp (mem_of_getLast? hq)
    obtain ⟨_, _, _, hget⟩ := mem_placed hmem
    have hobj : k.object = c'.object := object_of_mem_placed hmem
    have hkey : k ∈ keysOf batches := mem_map.mpr ⟨_, hmem, rfl⟩
    refine ⟨_, exists_object_run hkey, (k.batch, k.elem), ?_, by simpa using hget⟩
    rw [survivorOf, filter_keysOf, getLast?_map, hobj, hq]
    simpa [element_placed hmem, Element.ofChange] using ha

lemma mem_survivors {g : Groups}
    (hg : ∀ a, g.of a = (objectsOf batches).filterMap (survivorOf batches a)) (a : Action)
    (c : Change) :
    c ∈ survivors batches g a ↔ lastChange batches.flatten c.object = some c ∧ c.action = a := by
  rw [← survivor_iff, survivors, hg a]
  simp only [mem_filterMap]
  constructor
  · rintro ⟨p, ⟨m, hm, hp⟩, hc⟩
    exact ⟨m, hm, p, hp, hc⟩
  · rintro ⟨m, hm, p, hp, hc⟩
    exact ⟨p, ⟨m, hm, hp⟩, hc⟩

/-- The order of the emitted survivors: kind, then plain id. -/
def emitRank (c : Change) : Nat ×ₗ Int := toLex (c.kind.ordinal, c.id.toInt)

lemma survivors_pairwise {g : Groups}
    (hg : ∀ a, g.of a = (objectsOf batches).filterMap (survivorOf batches a)) (a : Action) :
    (survivors batches g a).Pairwise fun c d => emitRank c < emitRank d := by
  have hruns := runs_pairwise Key.objectRank
    ((sorted_keys (keysOf batches)).imp le_objectRank)
  rw [survivors, hg a, filterMap_filterMap]
  -- A survivor's rank is the object rank of every key of its run.
  have hrank : ∀ m ∈ objectsOf batches, ∀ c, (survivorOf batches a m).bind
      (fun p => (batches[p.1]?).bind (·[p.2]?)) = some c →
      ∃ k ∈ m, emitRank c = k.objectRank := by
    intro m hm c hc
    obtain ⟨p, hp, hget⟩ := bind_eq_some_iff.mp hc
    obtain ⟨k, hlast, hact⟩ := bind_eq_some_iff.mp hp
    have hk : k ∈ m := mem_of_getLast? hlast
    have hmem : k ∈ keysOf batches := by
      have := object_run hm hk ▸ hk
      exact (mem_filter.mp this).1
    obtain ⟨⟨k', c'⟩, hplaced, rfl⟩ := mem_map.mp hmem
    obtain ⟨hkind, hid, _, hget'⟩ := mem_placed hplaced
    split_ifs at hact
    obtain rfl := some.inj hact
    rw [Nat.sub_zero, hget] at hget'
    obtain rfl := some.inj hget'
    refine ⟨k', hk, ?_⟩
    simp only [emitRank, Key.objectRank]
    rw [hkind, hid]
  refine List.Pairwise.filterMap _ ?_ (List.Pairwise.and_mem.mp hruns)
  rintro m n ⟨hm, hn, hbelow⟩ c hc d hd
  obtain ⟨k, hk, hck⟩ := hrank m hm c hc
  obtain ⟨l, hl, hdl⟩ := hrank n hn d hd
  rw [hck, hdl]
  exact hbelow.2.2 k hk l hl

lemma parseAll_spec {o : CompactDiffOverlay} {accepted : List Change}
    (h : Reflects o accepted) {changes : List Change}
    (hfit : ∀ c ∈ changes, c.action ≠ .delete → Fits c.body c.tags) :
    match firstRegression Change.object Change.claim accepted changes with
    | some (c, v, held) => parseAll o changes =
        .error (.versionRegression "OSC change overlay" c.kind c.id v held)
    | none => ∃ o', parseAll o changes = .ok o' ∧ Reflects o' (accepted ++ changes) := by
  induction changes generalizing o accepted with
  | nil => exact ⟨o, rfl, by simpa using h⟩
  | cons c rest ih =>
    have hhighest : highest Change.object Change.claim accepted c.object =
        highestStated accepted c.object := rfl
    rcases feed_cases h c with ⟨v, held, hv, hheld, hlt, hfeed⟩ | ⟨hadmits, hrest⟩
    · have hadmits := (admits_eq_error_iff (Floor.mk (highestStated accepted c.object))
        c.claim held).mpr ⟨hheld, v, hv, hlt⟩
      rw [firstRegression, hhighest, hadmits, hv]
      simp only [parseAll, hfeed]
    · have hstep : firstRegression Change.object Change.claim accepted (c :: rest) =
          firstRegression Change.object Change.claim (accepted ++ [c]) rest := by
        rw [firstRegression, hhighest, hadmits]
        cases c.claim <;> rfl
      rcases hrest with ⟨e, o', _, hnot, hc, _⟩ | ⟨o', hfeed, hr⟩
      · exact absurd (hfit c mem_cons_self hc) hnot
      · have htail := ih hr fun d hd => hfit d (mem_cons_of_mem _ hd)
        rw [hstep]
        simpa only [parseAll, hfeed, append_assoc, singleton_append] using htail

lemma first_of_changes (batches : List (List Change)) :
    ∃ r : Option ((Key × Change) × Int32 × Int32), (∀ p, r = some p → p.1 ∈ placed 0 batches) ∧
      firstRegression Key.object (keyClaim batches) [] (keysOf batches) =
        r.map (fun p => (p.1.1, p.2)) ∧
      firstRegression Change.object Change.claim [] batches.flatten =
        r.map (fun p => (p.1.2, p.2)) := by
  refine ⟨firstRegression (fun p : Key × Change => p.2.object) (fun p => p.2.claim) []
    (placed 0 batches), ?_, ?_, ?_⟩
  · rintro ⟨p, v, held⟩ hp
    obtain ⟨pre, post, hsplit, _, _⟩ := (firstRegression_eq_some_iff _ _ _ _ _ _ _).mp hp
    rw [hsplit]
    simp
  · refine firstRegression_map Prod.fst _ _ _ _ [] _ ?_ ?_
    · exact fun p hp => object_of_mem_placed hp
    · intro p hp
      rw [keyClaim, element_placed hp]
      rfl
  · have h := firstRegression_map Prod.snd (fun p : Key × Change => p.2.object)
      (fun p => p.2.claim) Change.object Change.claim [] (placed 0 batches)
      (fun _ _ => rfl) (fun _ _ => rfl)
    rw [placed_snd] at h
    exact h

/-- Both consumers on one input: the same refusal, or both accept. -/
theorem dedupe_parseAll (hplaces : PlacesFit batches)
    (hfit : ∀ c ∈ batches.flatten, c.action ≠ .delete → Fits c.body c.tags) :
    (∃ k id v held, dedupe (rendered batches) false = .error (.versionRegression
        "merge-changes simplification" k id v held) ∧
      parseAll .new batches.flatten = .error (.versionRegression
        "OSC change overlay" k id v held)) ∨
    (∃ g o, dedupe (rendered batches) false = .ok g ∧ parseAll .new batches.flatten = .ok o ∧
      (∀ a, g.of a = (objectsOf batches).filterMap (survivorOf batches a)) ∧
      Reflects o batches.flatten) := by
  obtain ⟨g, first, hearly, hg, hdedupe⟩ := dedupe_spec hplaces
  obtain ⟨r, hmem, hkeys, hchanges⟩ := first_of_changes batches
  have hparse := parseAll_spec reflects_new hfit
  rw [hchanges] at hparse
  rw [earliest_is_first hearly] at hkeys
  cases r with
  | none =>
    obtain ⟨o, hok, hr⟩ := hparse
    have hfirst : first = none := by simpa using hkeys
    rw [hfirst] at hdedupe
    exact Or.inr ⟨g, o, hdedupe, hok, hg, hr⟩
  | some p =>
    obtain ⟨⟨k, c⟩, v, held⟩ := p
    obtain ⟨hkind, hid, _, _⟩ := mem_placed (hmem _ rfl)
    obtain ⟨reg, hreg, heq⟩ := map_eq_some_iff.mp hkeys
    rw [hreg] at hdedupe
    obtain ⟨hk, hv, hheld⟩ : reg.key = k ∧ reg.version = v ∧ reg.held = held := by
      simpa using heq
    refine Or.inl ⟨c.kind, c.id, v, held, ?_, hparse⟩
    simp only at hkind hid
    simp only [hdedupe, hk, hv, hheld, hkind, hid]

/-- The overlay's version gate and final state over every change sequence, and its agreement with
`merge-changes --simplify`, however the input is cut into batches. -/
theorem version_gate_and_simplify :
    (∀ changes : List Change,
      let o := (feedAll changes).1
      let accepted := (feedAll changes).2
      (∀ c : Change, ((∃ e, (o.feed c).1 = .error e ∧ ∃ consumer k id v held,
            e = .versionRegression consumer k id v held) ↔
          ∃ v, c.claim = some v ∧ ∃ d ∈ accepted, d.object = c.object ∧
            ∃ w, d.claim = some w ∧ v < w)) ∧
      (∀ k id v, o.storedVersion k id = some v ↔ Highest accepted (k, id) v) ∧
      (∀ k id, ¬ (id ∈ (o.stores k).index ∧ id ∈ (o.stores k).deleted) ∧
        ((∃ c ∈ accepted, c.object = (k, id)) ↔
          id ∈ (o.stores k).index ∨ id ∈ (o.stores k).deleted)) ∧
      (∀ k, TableReflects ((intoSorted o).kind k) k accepted)) ∧
    (∀ batches : List (List Change), PlacesFit batches →
      (∀ c ∈ batches.flatten, c.action ≠ .delete → Fits c.body c.tags) →
      ((∃ g, dedupe (rendered batches) false = .ok g) ↔
        ∃ o, parseAll .new batches.flatten = .ok o) ∧ (∀ k id v held,
        dedupe (rendered batches) false = .error (.versionRegression
          "merge-changes simplification" k id v held) ↔
        parseAll .new batches.flatten = .error (.versionRegression
          "OSC change overlay" k id v held)) ∧
      (∀ e, dedupe (rendered batches) false = .error e → ∃ k id v held,
        e = .versionRegression "merge-changes simplification" k id v held) ∧
      (∀ g o, dedupe (rendered batches) false = .ok g → parseAll .new batches.flatten = .ok o →
        (∀ a c, c ∈ survivors batches g a ↔
          lastChange batches.flatten c.object = some c ∧ c.action = a) ∧
        (∀ a, (survivors batches g a).Pairwise fun c d => emitRank c < emitRank d) ∧
        ∀ k, TableReflects ((intoSorted o).kind k) k batches.flatten)) := by
  constructor
  · intro changes o accepted
    have h : Reflects o accepted := feedAll_reflects changes
    refine ⟨fun c => refused_iff h c, fun k id v => ?_, fun k id => ?_,
      fun k => intoSorted_reflects h k⟩
    · rw [h.storedVersion, highestStated_eq_some_iff]
    · have hlive := holds_lookup_isSome (h.holds k id)
      have hdead := holds_mem_deleted (h.holds k id)
      rw [← isSome_iff_exists, AList.lookup_isSome] at hlive
      rw [hlive, hdead, ← lastChange_isSome_iff]
      constructor
      · rintro ⟨⟨c, hc, hact⟩, d, hd, hact'⟩
        rw [hc] at hd
        exact hact (some.inj hd ▸ hact')
      · constructor
        · rintro ⟨c, hc⟩
          by_cases hact : c.action = .delete
          · exact Or.inr ⟨c, hc, hact⟩
          · exact Or.inl ⟨c, hc, hact⟩
        · rintro (⟨c, hc, _⟩ | ⟨c, hc, _⟩) <;> exact ⟨c, hc⟩
  · intro batches hplaces hfit
    rcases dedupe_parseAll hplaces hfit with ⟨k, id, v, held, hd, hp⟩ | ⟨g, o, hd, hp, hg, hr⟩
    · rw [hd, hp]
      simp
    · rw [hd, hp]
      refine ⟨by simp, by simp, by simp, ?_⟩
      intro g' o' hg' ho'
      obtain rfl := Except.ok.inj hg'
      obtain rfl := Except.ok.inj ho'
      exact ⟨mem_survivors hg, survivors_pairwise hg, fun k => intoSorted_reflects hr k⟩

/-- A modify of node 1 to version 9 and, in a later batch, a delete at version 8. -/
def staleDelete : List (List Change) :=
  [[⟨.modify, 1, .node 5 7, [], ⟨9, 9, 0, 0, 0, 0⟩⟩], [⟨.delete, 1, .node 0 0, [], ⟨9, 8, 0, 0, 0, 0⟩⟩]]

theorem version_gate_and_simplify_staleDelete : PlacesFit staleDelete ∧
      (∀ c ∈ staleDelete.flatten, c.action ≠ .delete → Fits c.body c.tags) ∧
      parseAll .new staleDelete.flatten =
        .error (.versionRegression "OSC change overlay" .node 1 8 9) := by
  have hplaces : PlacesFit staleDelete := ⟨by decide, by decide⟩
  have hfit : ∀ c ∈ staleDelete.flatten, c.action ≠ .delete → Fits c.body c.tags := by decide
  have hdedupe : dedupe (rendered staleDelete) false = .error (.versionRegression
      "merge-changes simplification" .node 1 8 9) := rfl
  exact ⟨hplaces, hfit,
    ((version_gate_and_simplify.2 staleDelete hplaces hfit).2.1 .node 1 8 9).mp hdedupe⟩

end OscSimplify
