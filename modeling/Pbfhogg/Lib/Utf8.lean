import Mathlib.Algebra.GroupWithZero.Nat
import Mathlib.Data.List.Basic

/-!
# Text by byte position

A string is its characters, and its byte positions are those of their UTF-8 encoding. A slice by
byte positions exists where both lie between characters. An ASCII byte is a character of its own,
so the positions on both sides of it are such.
-/

namespace Utf8

open List

def bytes (cs : List Char) : List UInt8 := cs.flatMap String.utf8EncodeChar

/-- The characters before and from byte position `n`, if it lies between two characters. -/
def splitAt? : List Char → Nat → Option (List Char × List Char)
  | cs, 0 => some ([], cs)
  | [], _ + 1 => none
  | c :: cs, n + 1 =>
    if c.utf8Size ≤ n + 1 then
      (splitAt? cs (n + 1 - c.utf8Size)).map fun p => (c :: p.1, p.2)
    else none

/-- `&s[start..stop]`. -/
def slice? (cs : List Char) (start stop : Nat) : Option (List Char) := do
  let (_, rest) ← splitAt? cs start
  let (mid, _) ← splitAt? rest (stop - start)
  return mid

@[simp] lemma bytes_nil : bytes [] = [] := rfl

@[simp] lemma bytes_append (xs ys : List Char) : bytes (xs ++ ys) = bytes xs ++ bytes ys :=
  flatMap_append

@[simp] lemma bytes_cons (c : Char) (cs : List Char) :
    bytes (c :: cs) = String.utf8EncodeChar c ++ bytes cs := rfl

lemma length_encode_pos (c : Char) : 0 < (String.utf8EncodeChar c).length := by
  rw [String.length_utf8EncodeChar]
  exact c.utf8Size_pos

variable {cs : List Char}

lemma eq_nil_of_length_bytes (h : (bytes cs).length = 0) : cs = [] := by
  cases cs with
  | nil => rfl
  | cons c cs =>
    have := length_encode_pos c
    rw [bytes_cons, length_append] at h
    omega

lemma splitAt?_append (xs ys : List Char) :
    splitAt? (xs ++ ys) (bytes xs).length = some (xs, ys) := by
  induction xs with
  | nil => cases ys <;> rfl
  | cons c cs ih =>
    have hpos := c.utf8Size_pos
    have hlen : (bytes (c :: cs)).length = c.utf8Size + (bytes cs).length := by
      rw [bytes_cons, length_append, String.length_utf8EncodeChar]
    obtain ⟨n, hn⟩ : ∃ n, (bytes (c :: cs)).length = n + 1 := ⟨(bytes (c :: cs)).length - 1, by omega⟩
    have hrest : n + 1 - c.utf8Size = (bytes cs).length := by omega
    rw [hn, cons_append, splitAt?, if_pos (by omega), hrest, ih]
    rfl

lemma slice?_append (xs ys zs : List Char) :
    slice? (xs ++ (ys ++ zs)) (bytes xs).length ((bytes xs).length + (bytes ys).length) =
      some ys := by
  rw [slice?, splitAt?_append]
  simp [splitAt?_append]

/-- Text behind does not move a position. -/
theorem splitAt?_append_right {pre post : List Char} {n : Nat}
    (h : splitAt? cs n = some (pre, post)) (more : List Char) :
    splitAt? (cs ++ more) n = some (pre, post ++ more) := by
  induction cs generalizing n pre with
  | nil =>
    cases n with
    | zero =>
      cases h
      cases more <;> rfl
    | succ n => cases h
  | cons c cs ih =>
    cases n with
    | zero =>
      cases h
      rfl
    | succ n =>
      rw [splitAt?] at h
      rw [cons_append, splitAt?]
      split at h
      · next hle =>
        rw [Option.map_eq_some_iff] at h
        obtain ⟨⟨front, back⟩, hsplit, heq⟩ := h
        cases heq
        rw [if_pos hle, ih hsplit]
        rfl
      · cases h

lemma slice?_append_right {mid : List Char} {start stop : Nat}
    (h : slice? cs start stop = some mid) (more : List Char) :
    slice? (cs ++ more) start stop = some mid := by
  simp only [slice?, Option.bind_eq_bind, Option.bind_eq_some_iff] at h ⊢
  obtain ⟨⟨front, rest⟩, hfirst, ⟨mid', back⟩, hsecond, hmid⟩ := h
  exact ⟨(front, rest ++ more), splitAt?_append_right hfirst more, (mid', back ++ more),
    splitAt?_append_right hsecond more, hmid⟩

/-- A byte below 128 is the whole encoding of its character. -/
theorem encode_eq_of_ascii {c : Char} {b : UInt8} (hb : b ∈ String.utf8EncodeChar c)
    (hlt : b.toNat < 128) : String.utf8EncodeChar c = [b] ∧ c.toNat = b.toNat := by
  have hlead : ∀ (n m k : Nat), 128 ≤ k → k + m ≤ 256 → 0 < m →
      128 ≤ (UInt8.ofNat (n % m + k)).toNat := by
    intro n m k hk hkm hm
    have := Nat.mod_lt n hm
    rw [UInt8.toNat_ofNat', Nat.mod_eq_of_lt (by omega)]
    omega
  have htail : ∀ n, 128 ≤ (UInt8.ofNat (n % 64 + 128)).toNat := fun n =>
    hlead n 64 128 (by decide) (by decide) (by decide)
  unfold String.utf8EncodeChar at hb ⊢
  simp only at hb ⊢
  split at hb
  · next hsmall =>
    rw [mem_singleton] at hb
    rw [if_pos hsmall, hb, UInt8.toNat_ofNat', Nat.mod_eq_of_lt (by omega)]
    exact ⟨rfl, rfl⟩
  · exfalso
    split at hb
    · simp only [mem_cons, not_mem_nil, or_false] at hb
      rcases hb with rfl | rfl
      · have := hlead (c.val.toNat / 64) 32 192 (by decide) (by decide) (by decide)
        omega
      · have := htail c.val.toNat
        omega
    · split at hb
      · simp only [mem_cons, not_mem_nil, or_false] at hb
        rcases hb with rfl | rfl | rfl
        · have := hlead (c.val.toNat / 4096) 16 224 (by decide) (by decide) (by decide)
          omega
        · have := htail (c.val.toNat / 64)
          omega
        · have := htail c.val.toNat
          omega
      · simp only [mem_cons, not_mem_nil, or_false] at hb
        rcases hb with rfl | rfl | rfl | rfl
        · have := hlead (c.val.toNat / 262144) 8 240 (by decide) (by decide) (by decide)
          omega
        · have := htail (c.val.toNat / 4096)
          omega
        · have := htail (c.val.toNat / 64)
          omega
        · have := htail c.val.toNat
          omega

/-- An ASCII byte at a position is a character there. -/
theorem exists_of_ascii {i : Nat} {c : Char} (hc : c.toNat < 128)
    (h : (bytes cs)[i]? = some (UInt8.ofNat c.toNat)) :
    ∃ pre post, cs = pre ++ c :: post ∧ (bytes pre).length = i := by
  have hbyte : (UInt8.ofNat c.toNat).toNat = c.toNat := by
    rw [UInt8.toNat_ofNat']
    exact Nat.mod_eq_of_lt (by omega)
  induction cs generalizing i with
  | nil => simp at h
  | cons d cs ih =>
    rw [bytes_cons] at h
    by_cases hi : i < (String.utf8EncodeChar d).length
    · rw [getElem?_append_left hi] at h
      obtain ⟨hsingle, hd⟩ := encode_eq_of_ascii (mem_of_getElem? h) (by omega)
      have hzero : i = 0 := by
        rw [hsingle] at hi
        simpa using hi
      have hsame : d = c := Char.toNat_inj.mp (hd.trans hbyte)
      exact ⟨[], cs, by rw [hsame, nil_append], hzero.symm⟩
    · rw [getElem?_append_right (by omega)] at h
      obtain ⟨pre, post, rfl, hlen⟩ := ih h
      refine ⟨d :: pre, post, rfl, ?_⟩
      rw [bytes_cons, length_append, hlen]
      omega

lemma bytes_ascii {c : Char} (hc : c.toNat < 128) : bytes [c] = [UInt8.ofNat c.toNat] := by
  have hsmall : c.val.toNat ≤ 127 := Nat.le_of_lt_succ hc
  rw [bytes_cons, bytes_nil, append_nil, String.utf8EncodeChar]
  rw [if_pos hsmall]
  rfl

lemma length_bytes_ascii (h : ∀ c ∈ cs, c.toNat < 128) : (bytes cs).length = cs.length := by
  induction cs with
  | nil => rfl
  | cons c cs ih =>
    rw [forall_mem_cons] at h
    have hone := congrArg length (bytes_ascii h.1)
    rw [bytes_cons, bytes_nil, append_nil, length_singleton] at hone
    rw [bytes_cons, length_append, hone, ih h.2, length_cons, Nat.add_comm]

variable (parts : List (List Char × Char))

/-- Texts, each closed by its separator. -/
def joinAll : List Char := parts.flatMap fun p => p.1 ++ [p.2]

/-- The bytes texts take with their separators. -/
def span : Nat := (parts.map fun p => (bytes p.1).length + 1).sum

lemma length_bytes_joinAll {parts : List (List Char × Char)} (h : ∀ p ∈ parts, p.2.toNat < 128) :
    (bytes (joinAll parts)).length = span parts := by
  induction parts with
  | nil => rfl
  | cons p parts ih =>
    rw [forall_mem_cons] at h
    have hone : (bytes [p.2]).length = 1 := length_bytes_ascii (by simpa using h.1)
    have hsplit : joinAll (p :: parts) = p.1 ++ ([p.2] ++ joinAll parts) := by
      simp [joinAll]
    rw [hsplit, bytes_append, bytes_append, length_append, length_append, hone, ih h.2,
      span, span, map_cons, sum_cons, Nat.add_assoc]

/-- The slice of one of the texts. -/
theorem slice?_part {front back : List (List Char × Char)} {p : List Char × Char} {i j : Nat}
    (hascii : ∀ q ∈ front, q.2.toNat < 128) (hi : span front = i)
    (hj : i + (bytes p.1).length = j) : slice? (joinAll (front ++ p :: back)) i j = some p.1 := by
  have hsplit : joinAll (front ++ p :: back) =
      joinAll front ++ (p.1 ++ ([p.2] ++ joinAll back)) := by
    simp [joinAll]
  rw [hsplit, ← hj, ← hi, ← length_bytes_joinAll hascii]
  exact slice?_append _ _ _

/-- Bytes with the separators of a shape at its places, and nothing behind the last. -/
def Separated : List (Nat × Char) → List UInt8 → Prop
  | [], bs => bs = []
  | (width, c) :: shape, bs =>
    bs[width]? = some (UInt8.ofNat c.toNat) ∧ Separated shape (bs.drop (width + 1))

/-- A string has the separators at their places exactly if it is texts of the widths between. -/
theorem separated_iff {shape : List (Nat × Char)} (hascii : ∀ p ∈ shape, p.2.toNat < 128) :
    Separated shape (bytes cs) ↔ ∃ texts : List (List Char),
      texts.map (fun text => (bytes text).length) = shape.map Prod.fst ∧
        cs = joinAll (texts.zip (shape.map Prod.snd)) := by
  induction shape generalizing cs with
  | nil =>
    constructor
    · intro h
      exact ⟨[], rfl, eq_nil_of_length_bytes (length_eq_zero_iff.mpr h)⟩
    · rintro ⟨texts, htexts, rfl⟩
      rw [map_nil, map_eq_nil_iff] at htexts
      rw [htexts]
      rfl
  | cons p shape ih =>
    obtain ⟨width, c⟩ := p
    rw [forall_mem_cons] at hascii
    obtain ⟨hc, hascii⟩ := hascii
    have hdrop : ∀ (pre post : List Char), (bytes pre).length = width →
        (bytes (pre ++ c :: post)).drop (width + 1) = bytes post := by
      intro pre post hpre
      have hsplit : bytes (pre ++ c :: post) = bytes (pre ++ [c]) ++ bytes post := by
        rw [← bytes_append, append_assoc, singleton_append]
      rw [hsplit]
      refine drop_left' ?_
      rw [bytes_append, bytes_ascii hc, length_append, hpre, length_singleton]
    constructor
    · rintro ⟨hat, hrest⟩
      obtain ⟨pre, post, rfl, hpre⟩ := exists_of_ascii hc hat
      rw [hdrop pre post hpre, ih hascii] at hrest
      obtain ⟨texts, htexts, rfl⟩ := hrest
      refine ⟨pre :: texts, by rw [map_cons, hpre, htexts, map_cons], ?_⟩
      simp [joinAll]
    · rintro ⟨texts, htexts, rfl⟩
      cases texts with
      | nil => simp at htexts
      | cons pre texts =>
        rw [map_cons, map_cons, cons.injEq] at htexts
        obtain ⟨hpre, htexts⟩ := htexts
        have hsplit : joinAll ((pre :: texts).zip (map Prod.snd ((width, c) :: shape))) =
            pre ++ c :: joinAll (texts.zip (shape.map Prod.snd)) := by
          simp [joinAll]
        rw [hsplit]
        constructor
        · rw [bytes_append, getElem?_append_right (by omega), hpre, Nat.sub_self,
            bytes_cons, ← append_nil (String.utf8EncodeChar c)]
          have hchar := bytes_ascii hc
          rw [bytes_cons, bytes_nil] at hchar
          rw [hchar]
          rfl
        · rw [hdrop pre _ hpre]
          exact (ih hascii).mpr ⟨texts, htexts, rfl⟩

end Utf8
