import Mathlib.Data.List.Induction
import Mathlib.Data.List.Nodup
import Pbfhogg.Lib.Varint

/-!
# The string pool of the geocode index

`strings.bin` is a run of entries, each a canonical length prefix and the bytes of a string, with
the empty string at offset 0. The builder's pool looks a string up by its hash, in the one offset of
the hash and then in the list kept for that offset, and appends a new one that fits.
-/

namespace StringPool

open List

variable {data rest : Bytes} {s t : String} {n o room : Nat}

def poolPrefixLen (len : Nat) : Nat :=
  if len < 0x80 then 1
  else if len < 0x4000 then 2
  else if len < 0x200000 then 3
  else if len < 0x10000000 then 4
  else 5

/-- The loop over a `u32` length writes at most four bytes before the last. -/
def pushPoolString (pool s : Bytes) (len : Nat) : Bytes :=
  pool ++ Varint.encodeWithin 4 len ++ s

/-- The loop of `pool_entry_bytes` with `left` bytes to go: the length, and what follows it. -/
def readPrefix : Nat → Bytes → Option (Nat × Bytes)
  | 0, _ => none
  | _, [] => none
  | left + 1, b :: rest =>
    let bits := b.toNat % 128
    if left = 0 ∧ 0x0f < bits then none
    else if b.toNat < 128 then
      -- A continuation that adds a zero top byte is overlong.
      if left < 4 ∧ b = 0 then none else some (bits, rest)
    else (readPrefix left rest).map fun p => (bits + 128 * p.1, p.2)

def poolEntryBytes (data : Bytes) (offset : Nat) : Option Bytes :=
  match readPrefix 5 (data.drop offset) with
  | none => none
  | some (len, rest) => if len ≤ rest.length then some (rest.take len) else none

def asBytes (s : String) : Bytes := s.toByteArray.data.toList

def readPoolString (data : Bytes) (offset : Nat) : Option String :=
  (poolEntryBytes data offset).bind fun b => String.fromUTF8? ⟨b.toArray⟩

structure Pool where
  overflowed : Bool := false
  data : Bytes
  index : UInt64 → Option Nat := fun _ => none
  /-- Empty where the map has no entry. -/
  collisions : Nat → List Nat := fun _ => []

namespace Pool

def new : Pool := { data := pushPoolString [] [] 0 }

def matchesAt (pool : Pool) (s : String) (offset : Nat) : Bool :=
  poolEntryBytes pool.data offset == some (asBytes s)

def findWithHash (pool : Pool) (s : String) (hash : UInt64) : Option Nat :=
  match pool.index hash with
  | none => none
  | some first =>
    if pool.matchesAt s first then some first
    else (pool.collisions first).find? (pool.matchesAt s)

end Pool

def poolOffset (current stringLen : Nat) : Option (Nat × Nat) :=
  if stringLen < 2 ^ 32 ∧ current + poolPrefixLen stringLen + stringLen < 2 ^ 32 then
    some (current, stringLen)
  else none

namespace Pool

/-- Index the offset of a new entry. -/
def record (pool : Pool) (hash : UInt64) (offset : Nat) : Pool :=
  match pool.index hash with
  | some first =>
    { pool with
      collisions := Function.update pool.collisions first (pool.collisions first ++ [offset]) }
  | none => { pool with index := Function.update pool.index hash (some offset) }

def internWithHash (pool : Pool) (s : String) (hash : UInt64) : Pool × Nat :=
  match pool.findWithHash s hash with
  | some offset => (pool, offset)
  | none =>
    match poolOffset pool.data.length (asBytes s).length with
    | none => ({ pool with overflowed := true }, 0)
    | some (offset, len) =>
      if pool.overflowed then (pool, 0)
      else
        ({ pool.record hash offset with data := pushPoolString pool.data (asBytes s) len }, offset)

def intern (pool : Pool) (hash : String → UInt64) (s : String) : Pool × Nat :=
  if s = "" then (pool, 0) else pool.internWithHash s (hash s)

def validate (pool : Pool) : Except String Unit :=
  if pool.overflowed then
    .error "string pool exceeds u32 offsets; widen offsets and bump FORMAT_VERSION"
  else .ok ()

end Pool

/-- A pool after a sequence of strings, and each string with the offset it was given. -/
def internAll (hash : String → UInt64) (ss : List String) : Pool × List (String × Nat) :=
  ss.foldl (fun (pool, out) s => ((pool.intern hash s).1, out ++ [(s, (pool.intern hash s).2)]))
    (.new, [])

def poolAfter (hash : String → UInt64) (ss : List String) : Pool := (internAll hash ss).1

def given (hash : String → UInt64) (ss : List String) : List (String × Nat) :=
  (internAll hash ss).2

lemma readPrefix_cons (left : Nat) (b : UInt8) (rest : Bytes) :
    readPrefix (left + 1) (b :: rest) =
      if left = 0 ∧ 0x0f < b.toNat % 128 then none
      else if b.toNat < 128 then if left < 4 ∧ b = 0 then none else some (b.toNat % 128, rest)
      else (readPrefix left rest).map fun p => (b.toNat % 128 + 128 * p.1, p.2) := rfl

lemma encodeWithin_of_readPrefix (hroom : room ≤ 4)
    (h : readPrefix (room + 1) data = some (n, rest)) :
    (room < 4 → 0 < n) ∧ n < 2 ^ (7 * room + 4) ∧ data = Varint.encodeWithin room n ++ rest := by
  induction room generalizing data n with
  | zero =>
    cases data with
    | nil => cases h
    | cons b tail =>
      rw [readPrefix_cons] at h
      split at h
      · cases h
      · split at h
        · split at h
          · cases h
          · next hbits hb hzero =>
            cases h
            have hne : b.toNat ≠ 0 := fun h0 => hzero ⟨by decide, UInt8.toNat_inj.mp h0⟩
            refine ⟨by omega, by omega, ?_⟩
            simp [Varint.encodeWithin, Nat.mod_eq_of_lt hb]
        · cases h
  | succ room ih =>
    cases data with
    | nil => cases h
    | cons b tail =>
      rw [readPrefix_cons, if_neg (by simp)] at h
      have hpow : 2 ^ (7 * (room + 1) + 4) = 128 * 2 ^ (7 * room + 4) := by
        rw [show 7 * (room + 1) + 4 = 7 + (7 * room + 4) by omega, Nat.pow_add]
      have hpos := Nat.two_pow_pos (7 * room + 4)
      split at h
      · next hb =>
        split at h
        · cases h
        · next hzero =>
          cases h
          refine ⟨fun hlater => ?_, by omega, ?_⟩
          · have hne : b.toNat ≠ 0 := fun h0 => hzero ⟨hlater, UInt8.toNat_inj.mp h0⟩
            omega
          · simp [Varint.encodeWithin, Nat.mod_eq_of_lt hb, hb]
      · next hb =>
        obtain ⟨⟨u, rest'⟩, hu, h⟩ := Option.map_eq_some_iff.mp h
        cases h
        obtain ⟨hu0, hlt, rfl⟩ := ih (by omega) hu
        have := hu0 (by omega)
        have hmod : (b.toNat % 128 + 128 * u) % 128 = b.toNat % 128 := by omega
        have hdiv : (b.toNat % 128 + 128 * u) / 128 = u := by omega
        have hbyte : UInt8.ofNat (b.toNat % 128 + 128) = b := by
          rw [← UInt8.toNat_inj, UInt8.toNat_ofNat']
          have := b.toNat_lt
          omega
        refine ⟨by omega, by omega, ?_⟩
        rw [Varint.encodeWithin, if_neg (by omega), hmod, hdiv, hbyte]
        rfl

lemma ofNat_ne_zero (hpos : 0 < n) (hn : n < 256) : UInt8.ofNat n ≠ 0 := by
  intro h
  have := congrArg UInt8.toNat h
  simp at this
  omega

lemma readPrefix_encodeWithin (hroom : room ≤ 4) (hpos : room < 4 → 0 < n)
    (hn : n < 2 ^ (7 * room + 4)) :
    readPrefix (room + 1) (Varint.encodeWithin room n ++ rest) = some (n, rest) := by
  induction room generalizing n with
  | zero =>
    have hn : n < 16 := hn
    have hto : (UInt8.ofNat n).toNat = n := by simp; omega
    have hne := ofNat_ne_zero (hpos (by decide)) (by omega)
    rw [Varint.encodeWithin, singleton_append, readPrefix_cons, hto, if_neg (by omega),
      if_pos (by omega), if_neg fun h => hne h.2, Nat.mod_eq_of_lt (by omega)]
  | succ room ih =>
    rw [Varint.encodeWithin]
    by_cases hsmall : n < 128
    · have hto : (UInt8.ofNat n).toNat = n := by simp; omega
      rw [if_pos hsmall, singleton_append, readPrefix_cons, hto, if_neg (by omega),
        if_pos hsmall, if_neg fun h => ofNat_ne_zero (hpos h.1) (by omega) h.2,
        Nat.mod_eq_of_lt hsmall]
    · have hto : (UInt8.ofNat (n % 128 + 128)).toNat = n % 128 + 128 := by simp; omega
      have hpow : 2 ^ (7 * (room + 1) + 4) = 128 * 2 ^ (7 * room + 4) := by
        rw [show 7 * (room + 1) + 4 = 7 + (7 * room + 4) by omega, Nat.pow_add]
      rw [if_neg hsmall, cons_append, readPrefix_cons, hto, if_neg (by omega), if_neg (by omega),
        ih (by omega) (by omega) (by omega), Option.map_some]
      congr 2
      omega

lemma poolPrefixLen_eq (hn : n < 2 ^ 32) :
    (Varint.encodeWithin 4 n).length = poolPrefixLen n := by
  simp only [Varint.encodeWithin, poolPrefixLen]
  split_ifs <;> simp <;> omega

/-- An entry reads back from where its bytes stand, and nothing else does. -/
theorem poolEntryBytes_eq_some {b : Bytes} : poolEntryBytes data o = some b ↔
    b.length < 2 ^ 32 ∧ pushPoolString [] b b.length <+: data.drop o := by
  rw [poolEntryBytes, pushPoolString, nil_append]
  constructor
  · intro h
    split at h
    · cases h
    · next len rest hlen =>
      obtain ⟨-, hlt, hdata⟩ := encodeWithin_of_readPrefix (Nat.le_refl 4) hlen
      split at h
      · next hle =>
        cases h
        rw [length_take_of_le hle, hdata, prefix_append_right_inj]
        exact ⟨hlt, take_prefix len rest⟩
      · cases h
  · rintro ⟨hlt, rest, hdata⟩
    rw [← hdata, append_assoc, readPrefix_encodeWithin (Nat.le_refl 4) (by simp) hlt]
    simp

lemma poolEntryBytes_append {b : Bytes} (h : poolEntryBytes data o = some b)
    (more : Bytes) : poolEntryBytes (data ++ more) o = some b := by
  rw [poolEntryBytes_eq_some] at h ⊢
  refine ⟨h.1, h.2.trans ?_⟩
  rw [drop_append]
  exact prefix_append _ _

lemma asBytes_inj : asBytes s = asBytes t ↔ s = t := by
  simp [asBytes, ← String.toByteArray_inj, ByteArray.ext_iff]

lemma readPoolString_of_entry (h : poolEntryBytes data o = some (asBytes s)) :
    readPoolString data o = some s := by
  rw [readPoolString, h]
  exact dif_pos s.isValidUTF8

variable {hash : String → UInt64} {pool : Pool} {es : List (Nat × String)}

/-- The entry of the string ends where a `u32` reaches. -/
def Pool.Fits (pool : Pool) (s : String) : Prop :=
  (pushPoolString pool.data (asBytes s) (asBytes s).length).length < 2 ^ 32

lemma Pool.fits_iff : pool.Fits s ↔ (asBytes s).length < 2 ^ 32 ∧
    pool.data.length + poolPrefixLen (asBytes s).length + (asBytes s).length < 2 ^ 32 := by
  simp only [Fits, pushPoolString, length_append]
  by_cases hlen : (asBytes s).length < 2 ^ 32
  · simp only [poolPrefixLen_eq hlen, hlen, true_and]
  · omega

namespace Pool

/-- The offsets a hash leads to, in the order they are tried. -/
def chain (pool : Pool) (h : UInt64) : List Nat :=
  match pool.index h with
  | none => []
  | some first => first :: pool.collisions first

lemma findWithHash_eq (pool : Pool) (s : String) (h : UInt64) :
    pool.findWithHash s h = (pool.chain h).find? (pool.matchesAt s) := by
  unfold findWithHash chain
  cases pool.index h with
  | none => rfl
  | some first =>
    rw [find?_cons]
    cases hm : pool.matchesAt s first <;> simp [hm]

/-- A hash shares the list of collisions with no other. -/
theorem chain_record {h₀ : UInt64} (hfresh : pool.collisions o = [])
    (hown : ∀ h first, pool.index h = some first → pool.index h₀ = some first → h = h₀)
    (h : UInt64) :
    (pool.record h₀ o).chain h = if h = h₀ then pool.chain h ++ [o] else pool.chain h := by
  unfold record
  cases h₀first : pool.index h₀ with
  | none =>
    by_cases hh : h = h₀
    · simp [chain, hh, h₀first, hfresh]
    · simp [chain, hh]
  | some first₀ =>
    by_cases hh : h = h₀
    · simp [chain, hh, h₀first]
    · cases hfirst : pool.index h with
      | none => simp [chain, hh, hfirst]
      | some first =>
        have hne : first ≠ first₀ := by
          rintro rfl
          exact hh (hown h first hfirst h₀first)
        simp [chain, hh, hfirst, hne]

end Pool

/-- The entries of a pool after the empty one, by offset. -/
structure Holds (hash : String → UInt64) (pool : Pool) (es : List (Nat × String)) : Prop where
  start : [0] <+: pool.data
  reads : ∀ e ∈ es, poolEntryBytes pool.data e.1 = some (asBytes e.2)
  proper : ∀ e ∈ es, 0 < e.1 ∧ e.1 < pool.data.length ∧ e.2 ≠ ""
  once : (es.map Prod.snd).Nodup
  chain : ∀ h, pool.chain h = (es.filter fun e => hash e.2 = h).map Prod.fst
  fresh : ∀ o, pool.data.length ≤ o → pool.collisions o = []

lemma Holds.new : Holds hash .new [] :=
  ⟨prefix_refl _, by simp, by simp, by simp, fun _ => rfl, fun _ _ => rfl⟩

lemma Holds.unique (h : Holds hash pool es) (hs : (o, s) ∈ es) (ht : (o, t) ∈ es) : s = t := by
  have hbytes := h.reads _ hs
  rw [h.reads _ ht, Option.some_inj, asBytes_inj] at hbytes
  exact hbytes.symm

lemma Holds.find (h : Holds hash pool es) :
    pool.findWithHash s (hash s) = some o ↔ (o, s) ∈ es := by
  have hmatch : ∀ e ∈ es, pool.matchesAt s e.1 = true ↔ e.2 = s := by
    intro e he
    simp [Pool.matchesAt, h.reads e he, asBytes_inj]
  have hfound : ∀ o, pool.findWithHash s (hash s) = some o → (o, s) ∈ es := by
    intro o ho
    rw [Pool.findWithHash_eq, h.chain] at ho
    obtain ⟨e, he, rfl⟩ := mem_map.mp (mem_of_find?_eq_some ho)
    have hes := (mem_filter.mp he).1
    obtain rfl := (hmatch e hes).mp (find?_some ho)
    exact hes
  refine ⟨hfound o, fun hes => ?_⟩
  cases ho : pool.findWithHash s (hash s) with
  | none =>
    rw [Pool.findWithHash_eq, h.chain, find?_eq_none] at ho
    exact absurd ((hmatch _ hes).mpr rfl)
      (ho o (mem_map.mpr ⟨_, mem_filter.mpr ⟨hes, by simp⟩, rfl⟩))
  | some u =>
    have := inj_on_of_nodup_map h.once (hfound u ho) hes rfl
    rw [(Prod.mk.inj this).1]

/-- A new entry at the end of the pool. -/
theorem Holds.push (h : Holds hash pool es) (hs : s ≠ "") (hnew : ∀ o, (o, s) ∉ es)
    (hlen : (asBytes s).length < 2 ^ 32) :
    Holds hash { pool.record (hash s) pool.data.length with
        data := pushPoolString pool.data (asBytes s) (asBytes s).length }
      (es ++ [(pool.data.length, s)]) := by
  have hpush : pushPoolString pool.data (asBytes s) (asBytes s).length =
      pool.data ++ pushPoolString [] (asBytes s) (asBytes s).length := by
    simp [pushPoolString]
  have hpos : 0 < pool.data.length := by
    obtain ⟨tail, htail⟩ := h.start
    rw [← htail]
    simp
  have hmore : pool.data.length <
      (pushPoolString pool.data (asBytes s) (asBytes s).length).length := by
    rw [hpush, length_append]
    have : (Varint.encodeWithin 4 (asBytes s).length) ≠ [] := by
      rw [Varint.encodeWithin]
      split <;> simp
    have := length_pos_of_ne_nil this
    simp [pushPoolString]
    omega
  have hfirst : ∀ g first, pool.index g = some first → ∃ e ∈ es, e.1 = first ∧ hash e.2 = g := by
    intro g first hg
    have hmem : first ∈ pool.chain g := by simp [Pool.chain, hg]
    rw [h.chain] at hmem
    obtain ⟨e, he, rfl⟩ := mem_map.mp hmem
    obtain ⟨he, hgh⟩ := mem_filter.mp he
    exact ⟨e, he, rfl, by simpa using hgh⟩
  refine ⟨?_, ?_, ?_, ?_, ?_, ?_⟩
  · rw [hpush]
    exact h.start.trans (prefix_append _ _)
  · rw [forall_mem_append, forall_mem_singleton, hpush]
    refine ⟨fun e he => poolEntryBytes_append (h.reads e he) _, ?_⟩
    rw [poolEntryBytes_eq_some, drop_left]
    exact ⟨hlen, prefix_refl _⟩
  · rw [forall_mem_append, forall_mem_singleton]
    refine ⟨fun e he => ?_, hpos, hmore, hs⟩
    obtain ⟨h0, hlt, hne⟩ := h.proper e he
    exact ⟨h0, Nat.lt_trans hlt hmore, hne⟩
  · rw [map_append, map_singleton, nodup_append]
    refine ⟨h.once, nodup_singleton s, ?_⟩
    rintro _ ht _ hs' rfl
    obtain ⟨e, he, rfl⟩ := mem_map.mp ht
    obtain rfl : e.2 = s := mem_singleton.mp hs'
    exact hnew e.1 he
  · intro g
    refine (Pool.chain_record (h.fresh _ (Nat.le_refl _)) ?_ g).trans ?_
    · intro g' first hg' hg
      obtain ⟨e, he, rfl, rfl⟩ := hfirst g' first hg'
      obtain ⟨e', he', heq, hh⟩ := hfirst _ _ hg
      have he' : (e.1, e'.2) ∈ es := by rwa [← heq]
      rw [← hh, h.unique he he']
    · rw [h.chain, filter_append, map_append]
      by_cases hg : g = hash s
      · simp [hg]
      · simp [hg, Ne.symm hg]
  · intro o ho
    have hold := h.fresh o (by
      dsimp only at ho
      omega)
    have hcoll : (pool.record (hash s) pool.data.length).collisions o = pool.collisions o := by
      unfold Pool.record
      cases hg : pool.index (hash s) with
      | none => rfl
      | some first =>
        obtain ⟨e, he, rfl, -⟩ := hfirst _ _ hg
        have := h.proper e he
        dsimp only at ho
        exact Function.update_of_ne (by omega) _ _
    exact hcoll.trans hold

/-- One string: it is empty, present, refused or new. -/
theorem Holds.intern (h : Holds hash pool es) (s : String) :
    (s = "" ∧ pool.intern hash s = (pool, 0)) ∨
      (s ≠ "" ∧ ∃ o, (o, s) ∈ es ∧ pool.intern hash s = (pool, o)) ∨
      (s ≠ "" ∧ (∀ o, (o, s) ∉ es) ∧ (pool.overflowed = true ∨ ¬pool.Fits s) ∧
        pool.intern hash s = ({ pool with overflowed := true }, 0)) ∨
      (s ≠ "" ∧ (∀ o, (o, s) ∉ es) ∧ pool.overflowed = false ∧ pool.Fits s ∧
        ∃ next, pool.intern hash s = (next, pool.data.length) ∧ next.overflowed = false ∧
          next.data = pushPoolString pool.data (asBytes s) (asBytes s).length ∧
          Holds hash next (es ++ [(pool.data.length, s)])) := by
  by_cases hs : s = ""
  · exact .inl ⟨hs, if_pos hs⟩
  refine .inr ?_
  simp only [Pool.intern, if_neg hs, Pool.internWithHash]
  cases hfind : pool.findWithHash s (hash s) with
  | some o => exact .inl ⟨hs, o, h.find.mp hfind, rfl⟩
  | none =>
    have hnew : ∀ o, (o, s) ∉ es := by
      intro o ho
      rw [h.find.mpr ho] at hfind
      cases hfind
    refine .inr ?_
    by_cases hfits : pool.Fits s
    · have hboth := Pool.fits_iff.mp hfits
      have hoffset : poolOffset pool.data.length (asBytes s).length =
          some (pool.data.length, (asBytes s).length) := if_pos hboth
      cases hover : pool.overflowed with
      | true =>
        refine .inl ⟨hs, hnew, .inl rfl, ?_⟩
        simp only [hoffset, if_true]
        rw [← hover]
      | false =>
        refine .inr ⟨hs, hnew, rfl, hfits, _, ?_, ?_, rfl, h.push hs hnew hboth.1⟩
        · simp [hoffset]
        · unfold Pool.record
          cases pool.index (hash s) <;> exact hover
    · have hoffset : poolOffset pool.data.length (asBytes s).length = none :=
        if_neg (mt Pool.fits_iff.mpr hfits)
      exact .inl ⟨hs, hnew, .inr hfits, by rw [hoffset]⟩

/-- The entries behind the offsets given out. -/
structure Ran (hash : String → UInt64) (pool : Pool) (es : List (Nat × String))
    (out : List (String × Nat)) : Prop where
  holds : Holds hash pool es
  given : ∀ s o, (s, o) ∈ out → (o, s) ∈ es ∨ (o = 0 ∧ (s = "" ∨ pool.overflowed = true))
  listed : ∀ o s, (o, s) ∈ es → (s, o) ∈ out

lemma internAll_append (hash : String → UInt64) (ss : List String) (s : String) :
    internAll hash (ss ++ [s]) = (((internAll hash ss).1.intern hash s).1,
      (internAll hash ss).2 ++ [(s, ((internAll hash ss).1.intern hash s).2)]) := by
  rw [internAll, foldl_append]
  rfl

lemma Ran.intern {out : List (String × Nat)} (h : Ran hash pool es out) (s : String) :
    ∃ es', Ran hash (pool.intern hash s).1 es' (out ++ [(s, (pool.intern hash s).2)]) := by
  have hh := h.holds
  -- Old entries stay, the only new one is that of the string, and an overflow stays.
  obtain ⟨es', hholds, hold, hnew, hgiven, hover⟩ : ∃ es', Holds hash (pool.intern hash s).1 es' ∧
      es ⊆ es' ∧ (∀ e ∈ es', e ∈ es ∨ e = ((pool.intern hash s).2, s)) ∧
      (((pool.intern hash s).2, s) ∈ es' ∨
        (pool.intern hash s).2 = 0 ∧ (s = "" ∨ (pool.intern hash s).1.overflowed = true)) ∧
      (pool.overflowed = true → (pool.intern hash s).1.overflowed = true) := by
    obtain ⟨hs, hp⟩ | ⟨hs, o, ho, hp⟩ | ⟨hs, -, -, hp⟩ | ⟨hs, -, hover, -, next, hp, -, -, hpush⟩ :=
      hh.intern s <;> rw [hp]
    · exact ⟨es, hh, Subset.refl es, fun _ => .inl, .inr ⟨rfl, .inl hs⟩, id⟩
    · exact ⟨es, hh, Subset.refl es, fun _ => .inl, .inl ho, id⟩
    · exact ⟨es, ⟨hh.start, hh.reads, hh.proper, hh.once, hh.chain, hh.fresh⟩, Subset.refl es,
        fun _ => .inl, .inr ⟨rfl, .inr rfl⟩, fun _ => rfl⟩
    · exact ⟨_, hpush, subset_append_left _ _, by simp, by simp, by simp [hover]⟩
  refine ⟨es', hholds, ?_, ?_⟩ <;> simp only [mem_append, mem_singleton]
  · rintro t u (hu | hu)
    · exact (h.given t u hu).imp (@hold _) fun hzero => ⟨hzero.1, hzero.2.imp_right hover⟩
    · cases hu
      exact hgiven
  · intro o t ho
    obtain ho | ho := hnew _ ho
    · exact .inl (h.listed o t ho)
    · cases ho
      exact .inr rfl

lemma ran (hash : String → UInt64) (ss : List String) :
    ∃ es, Ran hash (internAll hash ss).1 es (internAll hash ss).2 := by
  induction ss using List.reverseRecOn with
  | nil => exact ⟨[], .new, by simp [internAll], by simp⟩
  | append_singleton ss s ih =>
    obtain ⟨es, h⟩ := ih
    rw [internAll_append]
    exact h.intern s

/-- Up to the first string whose entry does not fit, offsets are equal when the strings are, and
read back at any later time; from there on nothing is appended; and an entry is read exactly where
its bytes stand. -/
theorem pool_interns (hash : String → UInt64) (ss : List String) :
    ((poolAfter hash ss).overflowed = false → ∀ s o t u, (s, o) ∈ given hash ss →
      (t, u) ∈ given hash ss → (o = u ↔ s = t) ∧ (o = 0 ↔ s = "")) ∧
    (∀ s o, (s, o) ∈ given hash ss → s = "" ∨ o ≠ 0 →
      readPoolString (poolAfter hash ss).data o = some s) ∧
    (∀ s, let (next, offset) := (poolAfter hash ss).intern hash s
      (next.overflowed = true ↔ (poolAfter hash ss).overflowed = true ∨
        s ≠ "" ∧ (∀ o, (s, o) ∈ given hash ss → o = 0) ∧ ¬(poolAfter hash ss).Fits s) ∧
      (next.overflowed = true → next.data = (poolAfter hash ss).data) ∧
      (∀ o, (s, o) ∈ given hash ss → o ≠ 0 → offset = o) ∧
      (next.overflowed = true → (∀ o, (s, o) ∈ given hash ss → o = 0) → offset = 0) ∧
      ((∃ e, next.validate = .error e) ↔ next.overflowed = true)) ∧
    ∀ data o b, poolEntryBytes data o = some b ↔
      b.length < 2 ^ 32 ∧ pushPoolString [] b b.length <+: data.drop o := by
  obtain ⟨es, h⟩ : ∃ es, Ran hash (poolAfter hash ss) es (given hash ss) := ran hash ss
  generalize poolAfter hash ss = pool at h ⊢
  generalize given hash ss = out at h ⊢
  have hpos : ∀ {o s}, (o, s) ∈ es → o ≠ 0 ∧ s ≠ "" := fun ho =>
    ⟨Nat.ne_of_gt (h.holds.proper _ ho).1, (h.holds.proper _ ho).2.2⟩
  have hes : ∀ {s o}, (s, o) ∈ out → o ≠ 0 → (o, s) ∈ es := fun ho h0 =>
    (h.given _ _ ho).resolve_right fun hzero => h0 hzero.1
  refine ⟨?_, ?_, ?_, fun _ _ _ => poolEntryBytes_eq_some⟩
  · intro hover s o t u ho hu
    have hzero : ∀ {s o}, (s, o) ∈ out → (o = 0 ↔ s = "") := by
      intro s o ho
      obtain hmem | ⟨h0, hs | htrue⟩ := h.given s o ho
      · exact iff_of_false (hpos hmem).1 (hpos hmem).2
      · exact iff_of_true h0 hs
      · exact absurd (hover.symm.trans htrue) (by decide)
    refine ⟨⟨?_, ?_⟩, hzero ho⟩
    · rintro rfl
      by_cases h0 : o = 0
      · rw [(hzero ho).mp h0, (hzero hu).mp h0]
      · exact h.holds.unique (hes ho h0) (hes hu h0)
    · rintro rfl
      by_cases h0 : s = ""
      · rw [(hzero ho).mpr h0, (hzero hu).mpr h0]
      · have ho := hes ho (mt (hzero ho).mp h0)
        have hu := hes hu (mt (hzero hu).mp h0)
        exact congrArg Prod.fst (inj_on_of_nodup_map h.holds.once ho hu rfl)
  · intro s o ho hread
    apply readPoolString_of_entry
    by_cases h0 : o = 0
    · obtain rfl : s = "" := hread.resolve_right (not_not.mpr h0)
      rw [h0, poolEntryBytes_eq_some]
      exact ⟨by decide, h.holds.start⟩
    · exact h.holds.reads _ (hes ho h0)
  · intro s
    have hvalidate : ∀ p : Pool, (∃ e, p.validate = .error e) ↔ p.overflowed = true := by
      intro p
      unfold Pool.validate
      cases p.overflowed <;> simp
    have hnone : (∀ o, (o, s) ∉ es) → ∀ o, (s, o) ∈ out → o = 0 := by
      intro hnew o ho
      by_contra h0
      exact hnew o (hes ho h0)
    simp only [hvalidate, and_true]
    obtain ⟨rfl, hp⟩ | ⟨hs, o, ho, hp⟩ | ⟨hs, hnew, hwhy, hp⟩ |
      ⟨hs, hnew, hover, hfits, next, hp, hnext, -, -⟩ := h.holds.intern s
    · simp only [hp, ne_eq, not_true_eq_false, false_and, or_false, true_and, implies_true,
        and_true]
      exact fun o ho h0 => absurd rfl (hpos (hes ho h0)).2
    · have hhas : ¬∀ o, (s, o) ∈ out → o = 0 := fun hall => (hpos ho).1 (hall o (h.listed o s ho))
      simp only [hp, hhas, false_and, and_false, or_false, true_and, implies_true,
        false_implies, and_true]
      exact fun u hu h0 => congrArg Prod.fst (inj_on_of_nodup_map h.holds.once ho (hes hu h0) rfl)
    · simp only [hp, true_iff, implies_true, true_and, and_true]
      exact ⟨hwhy.imp_right fun hfits => ⟨hs, hnone hnew, hfits⟩,
        fun o ho h0 => absurd (hnone hnew o ho) h0⟩
    · simp only [hp, hnext, hover, hfits]
      simp only [Bool.false_eq_true, not_true_eq_false, and_false, or_false, false_implies,
        true_and, and_true]
      exact fun o ho h0 => absurd (hnone hnew o ho) h0

end StringPool
