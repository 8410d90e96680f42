import Pbfhogg.Lib.LeBytes
import Mathlib.Algebra.Group.Nat.Defs
import Mathlib.Data.List.Basic

/-!
# Base-128 varints

The 64-bit varints of the protobuf wire format: at most ten bytes, seven value bits a byte, least
significant first. The tenth byte holds bit 63 alone, so it is `0` or `1`.
-/

namespace Varint

open List Option

variable {data rest : Bytes} {v : Nat} {vs : List Nat}

/-- Read the bytes of a varint from byte `pos` on. -/
def decodeFrom : Nat → Bytes → Option (Nat × Bytes)
  | _, [] => none
  | pos, b :: rest =>
    if pos = 9 then
      if b.toNat ≤ 1 then some (b.toNat, rest) else none
    else if b.toNat < 128 then some (b.toNat, rest)
    else (decodeFrom (pos + 1) rest).map fun p => (b.toNat - 128 + 128 * p.1, p.2)

/-- Read one varint off the front of the data. -/
def decode (data : Bytes) : Option (Nat × Bytes) :=
  decodeFrom 0 data

/-- The bytes of `v` with at most `room` bytes before the last one. -/
def encodeWithin : Nat → Nat → Bytes
  | 0, v => [UInt8.ofNat v]
  | room + 1, v =>
    if v < 128 then [UInt8.ofNat v]
    else UInt8.ofNat (v % 128 + 128) :: encodeWithin room (v / 128)

/-- The shortest varint of a 64-bit value. -/
def encode (v : Nat) : Bytes :=
  encodeWithin 9 v

lemma decodeFrom_split {pos : Nat} (h : decodeFrom pos data = some (v, rest)) :
    ∃ raw, raw ≠ [] ∧ data = raw ++ rest ∧
      ∀ rest', decodeFrom pos (raw ++ rest') = some (v, rest') := by
  induction data generalizing pos v with
  | nil => simp [decodeFrom] at h
  | cons b data ih =>
    rw [decodeFrom] at h
    by_cases hpos : pos = 9
    · rw [if_pos hpos] at h
      split at h
      · next hb =>
        simp only [some.injEq, Prod.mk.injEq] at h
        obtain ⟨rfl, rfl⟩ := h
        refine ⟨[b], by simp, by simp, fun rest' => ?_⟩
        simp [decodeFrom, hpos, hb]
      · cases h
    · rw [if_neg hpos] at h
      by_cases hb : b.toNat < 128
      · rw [if_pos hb] at h
        simp only [some.injEq, Prod.mk.injEq] at h
        obtain ⟨rfl, rfl⟩ := h
        refine ⟨[b], by simp, by simp, fun rest' => ?_⟩
        simp [decodeFrom, hpos, hb]
      · rw [if_neg hb, map_eq_some_iff] at h
        obtain ⟨⟨u, rest''⟩, hu, hv⟩ := h
        simp only [Prod.mk.injEq] at hv
        obtain ⟨hv, rfl⟩ := hv
        obtain ⟨raw, -, rfl, hraw⟩ := ih hu
        refine ⟨b :: raw, by simp, by simp, fun rest' => ?_⟩
        rw [cons_append, decodeFrom, if_neg hpos, if_neg hb, hraw rest']
        simp [hv]

lemma decode_split (h : decode data = some (v, rest)) :
    ∃ raw, raw ≠ [] ∧ data = raw ++ rest ∧ ∀ rest', decode (raw ++ rest') = some (v, rest') :=
  decodeFrom_split h

lemma decode_length_lt (h : decode data = some (v, rest)) : rest.length < data.length := by
  obtain ⟨raw, hraw, rfl, -⟩ := decode_split h
  have := length_pos_of_ne_nil hraw
  simp
  omega

@[simp] lemma decode_nil : decode [] = none := rfl

lemma decodeFrom_encodeWithin {room : Nat} (hroom : room ≤ 9) (hv : v < 2 ^ (7 * room + 1))
    (rest : Bytes) : decodeFrom (9 - room) (encodeWithin room v ++ rest) = some (v, rest) := by
  induction room generalizing v with
  | zero =>
    have hto : (UInt8.ofNat v).toNat = v := by simp; omega
    simp only [encodeWithin, singleton_append, decodeFrom, Nat.sub_zero, if_true, hto]
    rw [if_pos (by omega)]
  | succ room ih =>
    have hpos : ¬ 9 - (room + 1) = 9 := by omega
    rw [encodeWithin]
    by_cases hsmall : v < 128
    · have hto : (UInt8.ofNat v).toNat = v := by simp; omega
      rw [if_pos hsmall, singleton_append, decodeFrom, if_neg hpos, hto, if_pos hsmall]
    · have hto : (UInt8.ofNat (v % 128 + 128)).toNat = v % 128 + 128 := by simp; omega
      have hexp : 2 ^ (7 * (room + 1) + 1) = 128 * 2 ^ (7 * room + 1) := by
        rw [show (128 : Nat) = 2 ^ 7 from rfl, ← Nat.pow_add]
        congr 1
        omega
      have hrec := ih (by omega) (v := v / 128) (by omega)
      rw [if_neg hsmall, cons_append, decodeFrom, if_neg hpos, hto,
        if_neg (by omega), show 9 - (room + 1) + 1 = 9 - room by omega, hrec]
      simp only [map_some, some.injEq, Prod.mk.injEq, and_true]
      omega

lemma decode_encode (hv : v < 2 ^ 64) (rest : Bytes) :
    decode (encode v ++ rest) = some (v, rest) :=
  decodeFrom_encodeWithin (Nat.le_refl 9) hv rest

lemma encode_ne_nil (v : Nat) : encode v ≠ [] := by
  unfold encode encodeWithin
  split <;> simp

/-- `data` is the varints `vs` and nothing else: what reading to the end finds. -/
inductive Values : Bytes → List Nat → Prop
  | nil : Values [] []
  | cons {data rest : Bytes} {v : Nat} {vs : List Nat} :
      decode data = some (v, rest) → Values rest vs → Values data (v :: vs)

/-- The varints read off the front of the data until it ends or one is malformed. -/
def drainFuel : Nat → Bytes → List Nat
  | 0, _ => []
  | fuel + 1, data =>
    match decode data with
    | some (v, rest) => v :: drainFuel fuel rest
    | none => []

def drain (data : Bytes) : List Nat :=
  drainFuel data.length data

lemma Values.unique {ws : List Nat} (hv : Values data vs) (hw : Values data ws) : vs = ws := by
  induction hv generalizing ws with
  | nil =>
    cases hw with
    | nil => rfl
    | cons h _ => simp at h
  | cons h _ ih =>
    cases hw with
    | nil => simp at h
    | cons h' hw' =>
      rw [h] at h'
      simp only [some.injEq, Prod.mk.injEq] at h'
      obtain ⟨rfl, rfl⟩ := h'
      rw [ih hw']

@[simp] lemma values_nil_left : Values [] vs ↔ vs = [] := by
  constructor
  · intro h
    exact h.unique .nil
  · rintro rfl
    exact .nil

lemma Values.eq_nil_iff (h : Values data vs) : vs = [] ↔ data = [] := by
  cases h with
  | nil => simp
  | cons h _ =>
    constructor
    · intro h'
      cases h'
    · rintro rfl
      simp at h

lemma Values.drainFuel_eq (h : Values data vs) {fuel : Nat} (hfuel : data.length ≤ fuel) :
    drainFuel fuel data = vs := by
  induction h generalizing fuel with
  | nil => cases fuel <;> simp [drainFuel]
  | cons h _ ih =>
    have hlt := decode_length_lt h
    cases fuel with
    | zero => omega
    | succ fuel =>
      rw [drainFuel, h]
      have hrest := @ih fuel (by omega)
      simp [hrest]

lemma Values.drain_eq (h : Values data vs) : drain data = vs :=
  h.drainFuel_eq (Nat.le_refl _)

lemma Values.append {data' : Bytes} {vs' : List Nat} (h : Values data vs)
    (h' : Values data' vs') : Values (data ++ data') (vs ++ vs') := by
  induction h with
  | nil => simpa using h'
  | cons h _ ih =>
    obtain ⟨raw, -, rfl, hraw⟩ := decode_split h
    rw [append_assoc]
    exact .cons (hraw _) ih

/-- An array of written varints reads back. -/
theorem values_flatMap {enc : Nat → Bytes}
    (henc : ∀ v, v < 2 ^ 64 → ∀ rest, decode (enc v ++ rest) = some (v, rest))
    (hvs : ∀ v ∈ vs, v < 2 ^ 64) : Values (vs.flatMap enc) vs := by
  induction vs with
  | nil => exact .nil
  | cons v vs ih =>
    rw [flatMap_cons]
    exact .cons (henc v (hvs v (by simp)) _) (ih fun w hw => hvs w (by simp [hw]))

end Varint
