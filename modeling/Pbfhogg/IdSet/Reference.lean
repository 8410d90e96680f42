import Mathlib.Data.Finset.Sort
import Pbfhogg.IdSet.Ranked

/-!
# Id sets against plain sets

Any sequence of changes to any number of id sets, beside the same sequence on finite sets of ids:
after every sequence each id set is valid and answers as the finite set does, ranks included.
-/

namespace IdSets

open BitArray IdSet List Function

/-- A change of one of the sets, which are numbered. `merge` takes the second one. -/
inductive Op where
  | new (i : Nat)
  | set (i : Nat) (id : Int64)
  | setIfNew (i : Nat) (id : Int64)
  | preAllocate (i : Nat) (maxId : Int64)
  | mergeFrom (i j : Nat)
  | merge (i j : Nat)

def step (sets : Nat → IdSet) : Op → Nat → IdSet
  | .new i => update sets i {}
  | .set i id => update sets i ((sets i).set id)
  | .setIfNew i id => update sets i ((sets i).setIfNew id).2
  | .preAllocate i maxId => update sets i ((sets i).preAllocate maxId)
  | .mergeFrom i j => update sets i ((sets i).mergeFrom (sets j))
  | .merge i j => update (update sets j {}) i ((sets i).merge (sets j))

variable (ops : List Op)

def run : Nat → IdSet := ops.foldl step fun _ => {}

/-- A non-negative id joins the set. -/
def plainInsert (ids : Finset Int64) (id : Int64) : Finset Int64 :=
  if 0 ≤ id.toInt then insert id ids else ids

def plainStep (sets : Nat → Finset Int64) : Op → Nat → Finset Int64
  | .new i => update sets i ∅
  | .set i id => update sets i (plainInsert (sets i) id)
  | .setIfNew i id => update sets i (plainInsert (sets i) id)
  | .preAllocate _ _ => sets
  | .mergeFrom i j => update sets i (sets i ∪ sets j)
  | .merge i j => update (update sets j ∅) i (sets i ∪ sets j)

def plainRun : Nat → Finset Int64 := ops.foldl plainStep fun _ => ∅

/-- The id set is valid and has these members. -/
structure Represents (s : IdSet) (ids : Finset Int64) : Prop where
  valid : s.Valid
  mem : ∀ id : Int64, id ∈ ids ↔ 0 ≤ id.toInt ∧ s.has id.toInt.toNat = true

variable {s other : IdSet} {ids others : Finset Int64} {id : Int64}

lemma represents_new : Represents {} ∅ := by
  have hfind : ∀ cid, ({} : IdSet).find cid = none := by
    intro cid
    unfold IdSet.find
    split
    · rfl
    · exact Std.TreeMap.getElem?_emptyc
  refine ⟨⟨Nat.zero_le _, ?_, ?_⟩, ?_⟩
  · intro cid c h
    rw [Std.TreeMap.getElem?_emptyc] at h
    cases h
  · intro cid c h
    rw [hfind] at h
    cases h
  · intro id
    simp [IdSet.has, hfind, chunkHas]

lemma Represents.setIfNew (h : Represents s ids) (id : Int64) :
    Represents (s.setIfNew id).2 (plainInsert ids id) := by
  unfold plainInsert
  by_cases hnn : 0 ≤ id.toInt
  · obtain ⟨-, hhas, hvalid⟩ := setIfNew_spec h.valid hnn
    refine ⟨hvalid, ?_⟩
    intro x
    rw [if_pos hnn, Finset.mem_insert, h.mem, hhas, Bool.or_eq_true, decide_eq_true_eq]
    constructor
    · rintro (rfl | ⟨hx, hin⟩)
      · exact ⟨hnn, .inr rfl⟩
      · exact ⟨hx, .inl hin⟩
    · rintro ⟨hx, hin | heq⟩
      · exact .inr ⟨hx, hin⟩
      · refine .inl (Int64.toInt.inj ?_)
        omega
  · rw [if_neg hnn, setIfNew_negative s (by omega)]
    exact h

lemma Represents.set (h : Represents s ids) (id : Int64) :
    Represents (s.set id) (plainInsert ids id) := by
  rw [set_eq h.valid]
  exact h.setIfNew id

lemma Represents.preAllocate (h : Represents s ids) (maxId : Int64) :
    Represents (s.preAllocate maxId) ids := by
  refine ⟨valid_preAllocate h.valid maxId, ?_⟩
  intro x
  rw [has_preAllocate h.valid, h.mem]

lemma Represents.mergeBy {union : Chunk → Chunk → Chunk} (hunion : UnionSpec union)
    (h : Represents s ids) (hother : Represents other others) :
    Represents (s.mergeBy union other) (ids ∪ others) := by
  refine ⟨valid_mergeBy hunion h.valid hother.valid, ?_⟩
  intro x
  rw [Finset.mem_union, h.mem, hother.mem, has_mergeBy hunion h.valid hother.valid, Bool.or_eq_true]
  tauto

variable {sets : Nat → IdSet} {plain : Nat → Finset Int64}

lemma represents_update (h : ∀ i, Represents (sets i) (plain i)) {i : Nat}
    (hi : Represents s ids) (j : Nat) : Represents (update sets i s j) (update plain i ids j) := by
  by_cases hj : j = i
  · subst hj
    rw [update_self, update_self]
    exact hi
  · rw [update_of_ne hj, update_of_ne hj]
    exact h j

lemma represents_step (h : ∀ i, Represents (sets i) (plain i)) (op : Op) (i : Nat) :
    Represents (step sets op i) (plainStep plain op i) := by
  cases op with
  | new k => exact represents_update h represents_new i
  | set k id => exact represents_update h ((h k).set id) i
  | setIfNew k id => exact represents_update h ((h k).setIfNew id) i
  | preAllocate k maxId =>
    have hsame : plain = update plain k (plain k) := (update_eq_self k plain).symm
    change Represents _ (plain i)
    rw [hsame]
    exact represents_update h ((h k).preAllocate maxId) i
  | mergeFrom k j => exact represents_update h ((h k).mergeBy unionRef_unionSpec (h j)) i
  | merge k j =>
    exact represents_update (represents_update h represents_new)
      ((h k).mergeBy unionOwned_unionSpec (h j)) i

lemma represents_foldl (h : ∀ i, Represents (sets i) (plain i)) (ops : List Op) (i : Nat) :
    Represents (ops.foldl step sets i) (ops.foldl plainStep plain i) := by
  induction ops generalizing sets plain with
  | nil => exact h i
  | cons op ops ih => exact ih fun i => represents_step h op i

lemma represents_run (i : Nat) : Represents (run ops i) (plainRun ops i) :=
  represents_foldl (fun _ => represents_new) ops i

lemma Represents.get (h : Represents s ids) (id : Int64) : s.get id = true ↔ id ∈ ids := by
  rw [h.mem]
  by_cases hnn : 0 ≤ id.toInt
  · rw [get_eq s hnn]
    simp [hnn]
  · rw [get_negative s (by omega)]
    simp [hnn]

lemma Represents.isNew (h : Represents s ids) (id : Int64) :
    (s.setIfNew id).1 = true ↔ 0 ≤ id.toInt ∧ id ∉ ids := by
  rw [h.mem]
  by_cases hnn : 0 ≤ id.toInt
  · rw [(setIfNew_spec h.valid hnn).1]
    simp [hnn]
  · rw [setIfNew_negative s (by omega)]
    simp [hnn]

lemma Represents.mem_iter (h : Represents s ids) (id : Int64) : id ∈ s.iter ↔ id ∈ ids := by
  rw [iter_ids h.valid, h.mem]

/-- The ids from `start` on, ascending. -/
lemma Represents.iterFrom (h : Represents s ids) (start : Int64) :
    ((s.iterFrom start).Pairwise fun a b => a.toInt < b.toInt) ∧
      ∀ id, id ∈ s.iterFrom start ↔ id ∈ ids ∧ start.toInt ≤ id.toInt := by
  rw [iterFrom_eq h.valid]
  refine ⟨(iter_ascending h.valid).filter _, fun id => ?_⟩
  rw [mem_filter, h.mem_iter, decide_eq_true_eq]

lemma Represents.iter_nodup (h : Represents s ids) : s.iter.Nodup :=
  List.Pairwise.imp (fun hlt heq => by rw [heq] at hlt; omega) (iter_ascending h.valid)

lemma Represents.toFinset (h : Represents s ids) : s.iter.toFinset = ids := by
  ext id
  rw [mem_toFinset, h.mem_iter]

lemma Represents.len (h : Represents s ids) : s.len = ids.card := by
  rw [len_iter, ← h.toFinset, toFinset_card_of_nodup h.iter_nodup]

lemma Represents.anyInRange (h : Represents s ids) (a b : Int64) :
    s.anyInRange a b = true ↔ ∃ id ∈ ids, a.toInt ≤ id.toInt ∧ id.toInt ≤ b.toInt := by
  rw [anyInRange_iff h.valid]
  constructor
  · rintro ⟨n, hhas, h1, h2⟩
    have hlt : n < 2 ^ 63 := by
      have := toNat_lt b
      omega
    refine ⟨Int64.ofNat n, (h.mem _).mpr ?_, ?_⟩
    · rw [toInt_ofNat hlt]
      exact ⟨by omega, by simpa using hhas⟩
    · rw [toInt_ofNat hlt]
      exact ⟨h1, h2⟩
  · rintro ⟨id, hid, h1, h2⟩
    obtain ⟨hnn, hhas⟩ := (h.mem id).mp hid
    exact ⟨id.toInt.toNat, hhas, by omega, by omega⟩

lemma represents_iter (hs : s.Valid) : Represents s s.iter.toFinset := by
  refine ⟨hs, ?_⟩
  intro x
  rw [mem_toFinset, iter_ids hs]

lemma mem_plainInsert {x : Int64} : x ∈ plainInsert ids id ↔ x ∈ ids ∨ (x = id ∧ 0 ≤ id.toInt) := by
  unfold plainInsert
  by_cases hnn : 0 ≤ id.toInt
  · rw [if_pos hnn, Finset.mem_insert]
    tauto
  · rw [if_neg hnn]
    tauto

lemma valid_set (hs : s.Valid) (id : Int64) : (s.set id).Valid :=
  ((represents_iter hs).set id).valid

lemma get_set (hs : s.Valid) (id x : Int64) :
    (s.set id).get x = true ↔ s.get x = true ∨ (x = id ∧ 0 ≤ id.toInt) := by
  have h := represents_iter hs
  rw [(h.set id).get, h.get, mem_plainInsert]

lemma get_setIfNew (hs : s.Valid) (id : Int64) :
    (s.setIfNew id).1 = true ↔ 0 ≤ id.toInt ∧ s.get id = false := by
  have h := represents_iter hs
  rw [h.isNew, ← h.get, Bool.not_eq_true]

lemma valid_mergeFrom (hs : s.Valid) (hother : other.Valid) : (s.mergeFrom other).Valid :=
  valid_mergeBy unionRef_unionSpec hs hother

lemma get_mergeFrom (hs : s.Valid) (hother : other.Valid) (x : Int64) :
    (s.mergeFrom other).get x = true ↔ s.get x = true ∨ other.get x = true := by
  have h := represents_iter hs
  have h' := represents_iter hother
  have hmerged : Represents (s.mergeFrom other) _ := h.mergeBy unionRef_unionSpec h'
  rw [hmerged.get, h.get, h'.get, Finset.mem_union]

lemma get_anyInRange (hs : s.Valid) (a b : Int64) :
    s.anyInRange a b = true ↔ ∃ id, s.get id = true ∧ a.toInt ≤ id.toInt ∧ id.toInt ≤ b.toInt := by
  have h := represents_iter hs
  rw [h.anyInRange]
  refine exists_congr fun x => ?_
  rw [h.get]

lemma nonneg_of_get (h : s.get id = true) : 0 ≤ id.toInt := by
  by_contra hneg
  rw [get_negative s (by omega)] at h
  cases h

lemma hasAny_of_get (h : s.get id = true) : s.hasAny = true := by
  rw [get_eq s (nonneg_of_get h)] at h
  exact hasAny_of_has h

lemma valid_new : ({} : IdSet).Valid := represents_new.valid

lemma get_new (id : Int64) : ({} : IdSet).get id = false := by
  rw [Bool.eq_false_iff]
  intro h
  exact Finset.notMem_empty id ((represents_new.get id).mp h)

/-- `set_if_new` of a negative id says it is not new, though no set holds it. -/
theorem set_if_new_negative_absent : ¬ ∀ (ops : List Op) (i : Nat) (id : Int64),
      ((run ops i).setIfNew id).1 = true ↔ id ∉ plainRun ops i := by
  intro h
  have hneg : ((run [] 0).setIfNew (-1)).1 = false := by
    rw [setIfNew_negative _ (by decide)]
  have habsent : (-1 : Int64) ∉ plainRun [] 0 := Finset.notMem_empty _
  rw [(h [] 0 (-1)).mpr habsent] at hneg
  cases hneg

theorem id_set_refines_a_set (i : Nat) : (run ops i).Valid ∧
    (∀ id, (run ops i).get id = true ↔ id ∈ plainRun ops i) ∧
    (∀ id, ((run ops i).setIfNew id).1 = true ↔ 0 ≤ id.toInt ∧ id ∉ plainRun ops i) ∧
    (run ops i).len = (plainRun ops i).card ∧
    ((run ops i).iter.Pairwise fun a b => a.toInt < b.toInt) ∧
    (∀ id, id ∈ (run ops i).iter ↔ id ∈ plainRun ops i) ∧
    (∀ start, ((run ops i).iterFrom start).Pairwise fun a b => a.toInt < b.toInt) ∧
    (∀ start id, id ∈ (run ops i).iterFrom start ↔ id ∈ plainRun ops i ∧ start.toInt ≤ id.toInt) ∧
    ∀ a b, (run ops i).anyInRange a b = true ↔
      ∃ id ∈ plainRun ops i, a.toInt ≤ id.toInt ∧ id.toInt ≤ b.toInt := by
  have h := represents_run ops i
  refine ⟨h.valid, h.get, h.isNew, h.len, iter_ascending h.valid, h.mem_iter, fun start => (h.iterFrom start).1,
    fun start => (h.iterFrom start).2, h.anyInRange⟩

/-- The rank counts the listed ids below. -/
theorem rank_iter (hs : s.Valid) (id : Int64) :
    s.intoRanked.rank id = s.iter.countP fun x => decide (x.toInt < id.toInt) := by
  have hle : id.toInt.toNat ≤ 2 ^ 63 := Nat.le_of_lt (toNat_lt id)
  rw [rank_eq hs, iter_eq hs, countP_map, countP_filter, ← countP_range_below s.has hle]
  apply countP_congr
  intro n hn
  have hval : ((Int64.ofNat n).toInt < id.toInt) ↔ n < id.toInt.toNat := by
    rw [toInt_ofNat (mem_range.mp hn)]
    omega
  simp only [comp, hval]

/-- In an ascending list an entry's position is how many entries are below it. -/
theorem countP_ascending {l : List Int64} (hl : l.Pairwise fun a b => a.toInt < b.toInt) {k : Nat}
    (hk : l[k]? = some id) : l.countP (fun x => decide (x.toInt < id.toInt)) = k := by
  induction l generalizing k with
  | nil => cases hk
  | cons x l ih =>
    obtain ⟨hfirst, hrest⟩ := pairwise_cons.mp hl
    cases k with
    | zero =>
      cases hk
      rw [countP_eq_zero]
      intro y hy
      rcases mem_cons.mp hy with rfl | hy
      · simp
      · have := hfirst y hy
        simp only [decide_eq_true_eq]
        omega
    | succ k =>
      rw [getElem?_cons_succ] at hk
      have hlt := hfirst id (mem_of_getElem? hk)
      rw [countP_cons_of_pos (by simpa using hlt), ih hrest hk]

lemma rank_iterFrom (hs : s.Valid) {start : Int64} {k : Nat}
    (hk : (s.iterFrom start)[k]? = some id) :
    s.intoRanked.rank id = s.intoRanked.rank start + k := by
  rw [iterFrom_eq hs] at hk
  have hge : start.toInt ≤ id.toInt := by
    simpa using (mem_filter.mp (mem_of_getElem? hk)).2
  have hpos := countP_ascending ((iter_ascending hs).filter _) hk
  rw [rank_iter hs, rank_iter hs]
  rw [countP_filter] at hpos
  -- The ids below are those below the start and those listed before.
  rw [countP_eq_countP_filter_add s.iter _ fun x => decide (x.toInt < start.toInt),
    countP_filter, countP_filter]
  congr 1
  · apply countP_congr
    intro x _
    simp only [Bool.and_eq_true, decide_eq_true_eq]
    omega
  · rw [← hpos]
    apply countP_congr
    intro x _
    simp only [Bool.and_eq_true, Bool.not_eq_true', decide_eq_true_eq, decide_eq_false_iff_not]
    omega

lemma ranks_iterFrom (hs : s.Valid) (start : Int64) :
    (s.iterFrom start).map s.intoRanked.rank =
      (range (s.iterFrom start).length).map (s.intoRanked.rank start + ·) := by
  apply ext_getElem?
  intro k
  rw [getElem?_map, getElem?_map]
  cases hk : (s.iterFrom start)[k]? with
  | none =>
    rw [getElem?_eq_none (by simpa using getElem?_eq_none_iff.mp hk)]
    rfl
  | some id =>
    obtain ⟨hlt, -⟩ := List.getElem?_eq_some_iff.mp hk
    rw [List.getElem?_range hlt, Option.map_some, Option.map_some, rank_iterFrom hs hk]

lemma Represents.rank (h : Represents s ids) (id : Int64) :
    s.intoRanked.rank id = (ids.filter fun x => x.toInt < id.toInt).card := by
  have hfilter : (ids.filter fun x => x.toInt < id.toInt) =
      (s.iter.filter fun x => decide (x.toInt < id.toInt)).toFinset := by
    ext x
    rw [Finset.mem_filter, mem_toFinset, mem_filter, h.mem_iter, decide_eq_true_eq]
  rw [rank_iter h.valid, hfilter, toFinset_card_of_nodup (h.iter_nodup.filter _),
    countP_eq_length_filter]

lemma Represents.rank_getElem (h : Represents s ids) {k : Nat} (hk : s.iter[k]? = some id) :
    s.intoRanked.rank id = k := by
  rw [rank_iter h.valid]
  exact countP_ascending (iter_ascending h.valid) hk

lemma Represents.rank_bijOn (h : Represents s ids) :
    Set.BijOn s.intoRanked.rank (ids : Set Int64) (Set.Iio s.intoRanked.totalCount) := by
  have hpos : ∀ id ∈ ids, ∃ k, k < s.iter.length ∧ s.iter[k]? = some id ∧
      s.intoRanked.rank id = k := by
    intro id hid
    obtain ⟨k, hk, hget⟩ := mem_iff_getElem.mp ((h.mem_iter id).mpr hid)
    have hsome : s.iter[k]? = some id := by
      rw [getElem?_eq_getElem hk, hget]
    exact ⟨k, hk, hsome, h.rank_getElem hsome⟩
  refine ⟨?_, ?_, ?_⟩
  · intro id hid
    obtain ⟨k, hk, -, hrank⟩ := hpos id hid
    rw [Set.mem_Iio, totalCount_eq, len_iter, hrank]
    exact hk
  · intro a ha b hb heq
    obtain ⟨k, -, hka, hra⟩ := hpos a ha
    obtain ⟨k', -, hkb, hrb⟩ := hpos b hb
    have : k = k' := by
      rw [← hra, ← hrb]
      exact heq
    rw [this, hkb] at hka
    exact (Option.some.inj hka).symm
  · intro k hk
    rw [Set.mem_Iio, totalCount_eq, len_iter] at hk
    have hsome : s.iter[k]? = some (s.iter.get ⟨k, hk⟩) := getElem?_eq_getElem hk
    refine ⟨s.iter.get ⟨k, hk⟩, ?_, h.rank_getElem hsome⟩
    rw [Finset.mem_coe, ← h.mem_iter]
    exact mem_of_getElem? hsome

theorem id_set_rank_exact (i : Nat) :
    (∀ id, (run ops i).intoRanked.rank id =
      ((plainRun ops i).filter fun x => x.toInt < id.toInt).card) ∧
    (∀ id, (run ops i).intoRanked.rankIfSet id =
      if id ∈ plainRun ops i then some ((run ops i).intoRanked.rank id) else none) ∧
    (run ops i).intoRanked.totalCount = (plainRun ops i).card ∧
    (∀ start, (((run ops i).intoRanked.iterFrom start).Pairwise fun a b => a.toInt < b.toInt) ∧
      ∀ id, id ∈ (run ops i).intoRanked.iterFrom start ↔
        id ∈ plainRun ops i ∧ start.toInt ≤ id.toInt) ∧
    (∀ start, ((run ops i).intoRanked.iterFrom start).map (run ops i).intoRanked.rank =
      (range ((run ops i).intoRanked.iterFrom start).length).map
        ((run ops i).intoRanked.rank start + ·)) ∧
    Set.BijOn (run ops i).intoRanked.rank (plainRun ops i : Set Int64)
      (Set.Iio (run ops i).intoRanked.totalCount) := by
  have h := represents_run ops i
  refine ⟨h.rank, ?_, ?_, h.iterFrom, ?_, h.rank_bijOn⟩
  · intro id
    rw [rankIfSet_eq h.valid]
    by_cases hid : id ∈ plainRun ops i
    · rw [if_pos hid, if_pos ((h.get id).mpr hid)]
    · rw [if_neg hid, if_neg fun hget => hid ((h.get id).mp hget)]
  · rw [totalCount_eq, h.len]
  · intro start
    exact ranks_iterFrom h.valid start

end IdSets
