import Mathlib.Data.List.TakeWhile
import Pbfhogg.Lib.Bisect
import Pbfhogg.Lib.LeBytes

/-!
# The tag key index of a blob

`blob_meta/tag_index.rs`: the wire format of a set of tag keys, and the two queries that search it.
Keys are byte strings. The iterator the encoder is given is a list.
-/

namespace TagIndexes

open LeBytes Bisect List Option

abbrev Key := Bytes

def tagIndexVersion : UInt8 := 0x01

def tagIndexMaxKeys : Nat := 65535

def tagIndexMaxKeyLen : Nat := 65535

/-- The records of the keys that follow `prev`. -/
def encodeKeys : Option Key → List Key → Option Bytes
  | _, [] => some []
  | prev, key :: keys =>
    if tagIndexMaxKeyLen < key.length || prev.any fun p => decide (key ≤ p) then none
    else do return leBytes 2 key.length ++ (key ++ (← encodeKeys (some key) keys))

def encodeTagIndex (keys : List Key) : Option Bytes :=
  if tagIndexMaxKeys < keys.length then none
  else do
    return tagIndexVersion :: (leBytes 2 keys.length ++ (← encodeKeys none keys))

structure TagIndex where
  keys : List Key

namespace TagIndex

def serialize (t : TagIndex) : Option Bytes := encodeTagIndex t.keys

/-- Reads so many records that follow the key `prev`; the bytes are those not read yet. -/
def readKeys : Nat → Option Key → Bytes → Option (List Key × Bytes)
  | 0, _, rest => some ([], rest)
  | n + 1, prev, rest =>
    if rest.length < 2 then none
    else
      let keyLen := readLe 2 rest 0
      let rest := rest.drop 2
      if rest.length < keyLen then none
      else
        let key := rest.take keyLen
        if prev.any fun p => decide (key ≤ p) then none
        else do
          let (keys, rest) ← readKeys n (some key) (rest.drop keyLen)
          return (key :: keys, rest)

def deserialize (data : Bytes) : Option TagIndex :=
  if data.length < 3 then none
  else if data.head? ≠ some tagIndexVersion then none
  else
    let keyCount := readLe 2 data 1
    if (data.length - 3) / 2 < keyCount then none
    else do
      let (keys, rest) ← readKeys keyCount none (data.drop 3)
      if rest ≠ [] then none else some ⟨keys⟩

def compareKeys (a b : Key) : Ordering := if a < b then .lt else if a = b then .eq else .gt

def hasAnyKey (t : TagIndex) (required : List Key) : Bool :=
  required.any fun key =>
    match binarySearchBy (fun x => compareKeys x key) t.keys with
    | .ok _ => true
    | .error _ => false

def hasAnyPrefix (t : TagIndex) (wanted : List Key) : Bool :=
  wanted.any fun start =>
    match t.keys[partitionPoint (fun k => decide (k < start)) t.keys]? with
    | some key => start.isPrefixOf key
    | none => false

end TagIndex

open TagIndex

def record (key : Key) : Bytes := leBytes 2 key.length ++ key

def Fits (keys : List Key) : Prop :=
  keys.length ≤ tagIndexMaxKeys ∧ ∀ key ∈ keys, key.length ≤ tagIndexMaxKeyLen

/-- The keys ascend, all of them behind the one before them. -/
def Ascends (prev : Option Key) (keys : List Key) : Prop :=
  keys.Pairwise (· < ·) ∧ ∀ p ∈ prev, ∀ key ∈ keys, p < key

variable {prev : Option Key} {keys : List Key}

lemma ascends_cons {key : Key} :
    Ascends prev (key :: keys) ↔ (∀ p ∈ prev, p < key) ∧ Ascends (some key) keys := by
  unfold Ascends
  rw [pairwise_cons]
  constructor
  · rintro ⟨⟨hfirst, hrest⟩, hprev⟩
    refine ⟨fun p hp => hprev p hp key mem_cons_self, hrest, ?_⟩
    rintro p ⟨⟩ x hx
    exact hfirst x hx
  · rintro ⟨hprev, hrest, hfirst⟩
    refine ⟨⟨hfirst key rfl, hrest⟩, fun p hp x hx => ?_⟩
    rcases mem_cons.mp hx with rfl | hx
    · exact hprev p hp
    · exact List.lt_trans (hprev p hp) (hfirst key rfl x hx)

lemma any_not_lt {key : Key} :
    (prev.any fun p => decide (key ≤ p)) = false ↔ ∀ p ∈ prev, p < key := by
  cases prev with
  | none => simp
  | some p => simp [List.not_le]

lemma encodeKeys_eq_some {bytes : Bytes} : encodeKeys prev keys = some bytes ↔
      bytes = keys.flatMap record ∧ (∀ key ∈ keys, key.length ≤ tagIndexMaxKeyLen) ∧
        Ascends prev keys := by
  induction keys generalizing prev bytes with
  | nil =>
    constructor
    · rintro ⟨⟩
      exact ⟨rfl, nofun, List.Pairwise.nil, fun _ _ => nofun⟩
    · rintro ⟨rfl, -⟩
      rfl
  | cons key keys ih =>
    rw [encodeKeys, ascends_cons]
    constructor
    · intro h
      split at h
      · cases h
      rename_i hgood
      rw [Bool.or_eq_true, not_or, Bool.not_eq_true, Bool.not_eq_true, any_not_lt] at hgood
      obtain ⟨rest, hrest, h⟩ := bind_eq_some_iff.mp h
      cases h
      obtain ⟨rfl, hlens, hascends⟩ := ih.mp hrest
      have hlen : key.length ≤ tagIndexMaxKeyLen := by simpa using hgood.1
      refine ⟨by simp [record], ?_, hgood.2, hascends⟩
      intro x hx
      rcases mem_cons.mp hx with rfl | hx
      · exact hlen
      · exact hlens x hx
    · rintro ⟨rfl, hlens, hprev, hascends⟩
      have hlen := hlens key mem_cons_self
      have hrest := ih.mpr ⟨rfl, fun x hx => hlens x (mem_cons_of_mem _ hx), hascends⟩
      have hgood : ¬ (tagIndexMaxKeyLen < key.length || prev.any fun p => decide (key ≤ p)) := by
        rw [Bool.or_eq_true, not_or, Bool.not_eq_true, Bool.not_eq_true, any_not_lt]
        exact ⟨by simpa using hlen, hprev⟩
      rw [if_neg hgood, hrest]
      simp [record]

lemma encodeTagIndex_eq_some {bytes : Bytes} :
    encodeTagIndex keys = some bytes ↔
      bytes = tagIndexVersion :: (leBytes 2 keys.length ++ keys.flatMap record) ∧ Fits keys ∧
        keys.Pairwise (· < ·) := by
  unfold encodeTagIndex Fits
  by_cases hcount : tagIndexMaxKeys < keys.length
  · rw [if_pos hcount]
    constructor
    · exact nofun
    · rintro ⟨-, hfits, -⟩
      omega
  · rw [if_neg hcount, Option.pure_def, Option.bind_eq_bind, Option.bind_eq_some_iff]
    constructor
    · rintro ⟨body, hbody, h⟩
      cases h
      obtain ⟨rfl, hlens, hascends⟩ := encodeKeys_eq_some.mp hbody
      exact ⟨rfl, ⟨not_lt.mp hcount, hlens⟩, hascends.1⟩
    · rintro ⟨rfl, hfits, hascends⟩
      exact ⟨_, encodeKeys_eq_some.mpr ⟨rfl, hfits.2, hascends, nofun⟩, rfl⟩

lemma readKeys_eq_some {n : Nat} {rest rest' : Bytes} :
    readKeys n prev rest = some (keys, rest') ↔
      keys.length = n ∧ rest = keys.flatMap record ++ rest' ∧
        (∀ key ∈ keys, key.length ≤ tagIndexMaxKeyLen) ∧ Ascends prev keys := by
  induction n generalizing prev rest keys with
  | zero =>
    constructor
    · rintro ⟨⟩
      exact ⟨rfl, rfl, nofun, List.Pairwise.nil, fun _ _ => nofun⟩
    · rintro ⟨hlen, rfl, -⟩
      rw [length_eq_zero_iff.mp hlen]
      rfl
  | succ n ih =>
    rw [readKeys]
    constructor
    · intro h
      split at h
      · cases h
      rename_i htwo
      simp only [] at h
      split at h
      · cases h
      rename_i hfull
      split at h
      · cases h
      rename_i hprev
      rw [Bool.not_eq_true, any_not_lt] at hprev
      obtain ⟨⟨tail, rest''⟩, htail, h⟩ := bind_eq_some_iff.mp h
      cases h
      obtain ⟨hcount, hbytes, hlens, hascends⟩ := ih.mp htail
      -- The two bytes are the length of the key that follows them.
      have hkey : ((rest.drop 2).take (readLe 2 rest 0)).length = readLe 2 rest 0 := by
        rw [length_take]
        omega
      have hread : readLe 2 rest 0 = leNat (rest.take 2) := rfl
      have hlenBytes : leBytes 2 (readLe 2 rest 0) = rest.take 2 := by
        rw [hread]
        exact leBytes_leNat_take (by omega)
      have hbound : readLe 2 rest 0 < 256 ^ 2 := by
        rw [hread]
        exact leNat_take_lt 2 (by omega)
      refine ⟨by rw [length_cons, hcount], ?_, ?_, ascends_cons.mpr ⟨hprev, hascends⟩⟩
      · rw [flatMap_cons, record, hkey, hlenBytes, append_assoc, append_assoc,
          ← hbytes, take_append_drop, take_append_drop]
      · intro x hx
        rcases mem_cons.mp hx with rfl | hx
        · rw [hkey, tagIndexMaxKeyLen]
          omega
        · exact hlens x hx
    · rintro ⟨hcount, rfl, hlens, hascends⟩
      obtain ⟨key, tail, rfl⟩ := exists_cons_of_length_eq_add_one hcount
      obtain ⟨hprev, htail⟩ := ascends_cons.mp hascends
      have hlen := hlens key mem_cons_self
      have hbytes : (key :: tail).flatMap record ++ rest' =
          leBytes 2 key.length ++ (key ++ (tail.flatMap record ++ rest')) := by
        simp [record]
      have hread : readLe 2 (leBytes 2 key.length ++ (key ++ (tail.flatMap record ++ rest'))) 0 =
          key.length := by
        have h := readLe_append 2 key.length
          (by rw [tagIndexMaxKeyLen] at hlen; omega) [] (key ++ (tail.flatMap record ++ rest'))
        simpa using h
      have hdrop : (leBytes 2 key.length ++ (key ++ (tail.flatMap record ++ rest'))).drop 2 =
          key ++ (tail.flatMap record ++ rest') := drop_left' (length_leBytes 2 _)
      have hrec := ih.mpr ⟨by simpa using hcount, rfl,
        fun x hx => hlens x (mem_cons_of_mem _ hx), htail⟩
      have hroom :
          ¬(leBytes 2 key.length ++ (key ++ (tail.flatMap record ++ rest'))).length < 2 := by
        rw [length_append, length_leBytes]
        omega
      rw [hbytes, if_neg hroom]
      simp only [hread, hdrop]
      rw [if_neg (by simp), take_left, drop_left, hrec]
      rw [if_neg (by rw [Bool.not_eq_true, any_not_lt]; exact hprev)]
      rfl

/-- A record holds at least its length. -/
theorem length_records (keys : List Key) : 2 * keys.length ≤ (keys.flatMap record).length := by
  induction keys with
  | nil => simp
  | cons key keys ih =>
    rw [flatMap_cons, length_append, record, length_append, length_leBytes, length_cons]
    omega

/-- The decoder accepts exactly what the encoder writes. -/
theorem deserialize_eq_some {data : Bytes} {t : TagIndex} :
    deserialize data = some t ↔ encodeTagIndex t.keys = some data := by
  rw [encodeTagIndex_eq_some]
  unfold deserialize
  constructor
  · intro h
    split at h
    · cases h
    rename_i hthree
    split at h
    · cases h
    rename_i hversion
    rw [not_not] at hversion
    simp only [] at h
    split at h
    · cases h
    obtain ⟨⟨keys, rest⟩, hkeys, h⟩ := bind_eq_some_iff.mp h
    simp only [] at h
    split at h
    · cases h
    rename_i hrest
    rw [not_not] at hrest
    cases h
    obtain ⟨hcount, hbytes, hlens, hascends⟩ := readKeys_eq_some.mp hkeys
    obtain ⟨version, tail, rfl⟩ : ∃ version tail, data = version :: tail := by
      cases data with
      | nil => cases hversion
      | cons version tail => exact ⟨version, tail, rfl⟩
    cases hversion
    rw [length_cons] at hthree
    have hread : keys.length = leNat (tail.take 2) := hcount
    have hbound : leNat (tail.take 2) < 256 ^ 2 := leNat_take_lt 2 (by omega)
    have hlenBytes : leBytes 2 keys.length = tail.take 2 := by
      rw [hread]
      exact leBytes_leNat_take (by omega)
    have hmax : keys.length ≤ tagIndexMaxKeys := by
      rw [hread, tagIndexMaxKeys]
      omega
    refine ⟨?_, ⟨hmax, hlens⟩, hascends.1⟩
    rw [hrest, append_nil] at hbytes
    rw [hlenBytes, ← hbytes]
    exact congrArg _ (take_append_drop 2 tail).symm
  · rintro ⟨rfl, ⟨hmax, hlens⟩, hascends⟩
    have hrecords := length_records t.keys
    have hlen : (tagIndexVersion :: (leBytes 2 t.keys.length ++ t.keys.flatMap record)).length =
        (t.keys.flatMap record).length + 3 := by
      rw [length_cons, length_append, length_leBytes]
      omega
    have hread :
        readLe 2 (tagIndexVersion :: (leBytes 2 t.keys.length ++ t.keys.flatMap record)) 1 =
          t.keys.length :=
      readLe_append 2 _ (by rw [tagIndexMaxKeys] at hmax; omega) [tagIndexVersion] _
    have hdrop : (tagIndexVersion :: (leBytes 2 t.keys.length ++ t.keys.flatMap record)).drop 3 =
        t.keys.flatMap record := drop_left' (length_leBytes 2 _)
    have hkeys : readKeys t.keys.length none (t.keys.flatMap record) = some (t.keys, []) :=
      readKeys_eq_some.mpr ⟨rfl, (append_nil _).symm, hlens, hascends, nofun⟩
    rw [hlen, if_neg (by omega), if_neg (by simp)]
    simp only [hread, hdrop]
    rw [if_neg (by omega), hkeys]
    rfl

lemma compareKeys_eq {a b : Key} : compareKeys a b = .eq ↔ a = b := by
  unfold compareKeys
  by_cases hlt : a < b
  · rw [if_pos hlt]
    constructor
    · exact nofun
    · rintro rfl
      exact absurd hlt (List.lt_irrefl _)
  · rw [if_neg hlt]
    by_cases heq : a = b
    · simp [heq]
    · simp [heq]

lemma compareKeys_lt {a b : Key} : compareKeys a b = .lt ↔ a < b := by
  unfold compareKeys
  by_cases hlt : a < b
  · simp [hlt]
  · by_cases heq : a = b <;> simp [hlt, heq]

lemma compareKeys_gt {a b : Key} : compareKeys a b = .gt ↔ b < a := by
  unfold compareKeys
  by_cases hlt : a < b
  · simp only [if_pos hlt, reduceCtorEq, false_iff]
    exact List.not_lt.mpr (List.le_of_lt hlt)
  · by_cases heq : a = b
    · subst heq
      simp [List.lt_irrefl]
    · simp only [if_neg hlt, if_neg heq, true_iff]
      exact Classical.byContradiction fun hle =>
        heq (List.le_antisymm (List.not_lt.mp hle) (List.not_lt.mp hlt))

variable {t : TagIndex}

lemma hasAnyKey_iff (h : t.keys.Pairwise (· < ·)) (required : List Key) :
    t.hasAnyKey required = true ↔ ∃ key ∈ required, key ∈ t.keys := by
  have hfind : ∀ key, (∃ i, binarySearchBy (fun x => compareKeys x key) t.keys = .ok i) ↔
      key ∈ t.keys := by
    intro key
    rw [binarySearchBy_ok_iff]
    · simp only [compareKeys_eq, exists_eq_right]
    · refine h.imp fun {x y} hxy hx => ?_
      rw [compareKeys_gt] at hx ⊢
      exact List.lt_trans hx hxy
    · refine h.imp fun {x y} hxy hy => ?_
      rw [compareKeys_lt] at hy ⊢
      exact List.lt_trans hxy hy
  unfold TagIndex.hasAnyKey
  rw [List.any_eq_true]
  refine exists_congr fun key => and_congr_right fun _ => ?_
  rw [← hfind key]
  cases binarySearchBy (fun x => compareKeys x key) t.keys with
  | error i => simp
  | ok i => simp

lemma start_between {start key upper : Key} (hle : start ≤ key) (hupper : key ≤ upper)
    (h : start <+: upper) : start <+: key := by
  induction start generalizing key upper with
  | nil => exact nil_prefix
  | cons a start ih =>
    obtain ⟨tail, rfl⟩ := h
    cases key with
    | nil => exact absurd (nil_lt_cons a start) hle
    | cons c key =>
      have hac : ¬ c < a := fun hlt => hle (cons_lt_cons_iff.mpr (.inl hlt))
      have hca : ¬ a < c := fun hlt => hupper (cons_lt_cons_iff.mpr (.inl hlt))
      have heq : a = c := UInt8.le_antisymm (UInt8.not_lt.mp hac) (UInt8.not_lt.mp hca)
      subst heq
      have hle' : start ≤ key := fun hlt => hle (cons_lt_cons_iff.mpr (.inr ⟨rfl, hlt⟩))
      have hupper' : key ≤ start ++ tail :=
        fun hlt => hupper (cons_lt_cons_iff.mpr (.inr ⟨rfl, hlt⟩))
      exact cons_prefix_cons.mpr ⟨rfl, ih hle' hupper' (prefix_append _ _)⟩

lemma le_of_start {start key : Key} (h : start <+: key) : start ≤ key := by
  induction start generalizing key with
  | nil => exact nil_le key
  | cons a start ih =>
    obtain ⟨tail, rfl⟩ := h
    intro hlt
    rcases cons_lt_cons_iff.mp hlt with hlt | ⟨-, hlt⟩
    · exact UInt8.lt_irrefl _ hlt
    · exact ih (prefix_append _ _) hlt

lemma hasAnyPrefix_iff (h : t.keys.Pairwise (· < ·)) (wanted : List Key) :
    t.hasAnyPrefix wanted = true ↔ ∃ start ∈ wanted, ∃ key ∈ t.keys, start <+: key := by
  unfold TagIndex.hasAnyPrefix
  rw [List.any_eq_true]
  refine exists_congr fun start => and_congr_right fun _ => ?_
  have hcut : t.keys.Pairwise fun x y => decide (y < start) = true → decide (x < start) = true := by
    refine h.imp fun {x y} hxy hy => ?_
    rw [decide_eq_true_eq] at hy ⊢
    exact List.lt_trans hxy hy
  rw [getElem?_partitionPoint hcut]
  have hsplit := List.takeWhile_append_dropWhile (p := fun k => decide (k < start)) (l := t.keys)
  have hfront : ∀ key ∈ t.keys.takeWhile fun k => decide (k < start), ¬ start <+: key := by
    intro key hkey hstart
    have hlt := List.mem_takeWhile_imp (p := fun k => decide (k < start)) hkey
    exact le_of_start hstart (of_decide_eq_true hlt)
  cases hdrop : t.keys.dropWhile fun k => decide (k < start) with
  | nil =>
    constructor
    · exact nofun
    · rintro ⟨key, hkey, hstart⟩
      rw [← hsplit, hdrop, List.append_nil] at hkey
      exact absurd hstart (hfront key hkey)
  | cons first rest =>
    have hmem : first ∈ t.keys := by
      rw [← hsplit, hdrop]
      simp
    have hnot : ¬ first < start := by
      have := List.head?_dropWhile_not (fun k => decide (k < start)) t.keys
      simpa [hdrop] using this
    have hsorted : (first :: rest).Pairwise (· < ·) := by
      rw [← hdrop]
      exact h.sublist (List.dropWhile_sublist _)
    change start.isPrefixOf first = true ↔ _
    rw [ List.isPrefixOf_iff_prefix]
    constructor
    · exact fun hstart => ⟨first, hmem, hstart⟩
    · rintro ⟨key, hkey, hstart⟩
      rw [← hsplit, hdrop] at hkey
      rcases List.mem_append.mp hkey with hkey | hkey
      · exact absurd hstart (hfront key hkey)
      · rcases List.mem_cons.mp hkey with rfl | hkey
        · exact hstart
        · exact start_between hnot
            (List.le_of_lt ((List.pairwise_cons.mp hsorted).1 key hkey)) hstart

/-- A set of keys is encoded when it fits and read back as it was, only such encodings are read,
and both queries answer for the set. -/
theorem tag_index_exact :
    (∀ keys : List Key, keys.Pairwise (· < ·) →
        ((∃ bytes, encodeTagIndex keys = some bytes) ↔ Fits keys) ∧
          ∀ bytes, encodeTagIndex keys = some bytes → deserialize bytes = some ⟨keys⟩) ∧
      ∀ data t, deserialize data = some t →
        t.keys.Pairwise (· < ·) ∧ t.serialize = some data ∧
          (∀ required, t.hasAnyKey required = true ↔ ∃ key ∈ required, key ∈ t.keys) ∧
          ∀ wanted, t.hasAnyPrefix wanted = true ↔
            ∃ start ∈ wanted, ∃ key ∈ t.keys, start <+: key := by
  constructor
  · intro keys hsorted
    refine ⟨⟨?_, ?_⟩, fun bytes h => deserialize_eq_some.mpr h⟩
    · rintro ⟨bytes, h⟩
      exact (encodeTagIndex_eq_some.mp h).2.1
    · exact fun hfits => ⟨_, encodeTagIndex_eq_some.mpr ⟨rfl, hfits, hsorted⟩⟩
  · intro data t h
    have hencoded := deserialize_eq_some.mp h
    have hsorted := (encodeTagIndex_eq_some.mp hencoded).2.2
    exact ⟨hsorted, hencoded, hasAnyKey_iff hsorted, hasAnyPrefix_iff hsorted⟩

end TagIndexes
