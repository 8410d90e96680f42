import Pbfhogg.Lib.Chunks
import Pbfhogg.Wire.Protohoggr

/-!
# The chunks of written fields

Each encoder of the crate writes one chunk, or none where it leaves the field out, so a message that
was written field by field is known chunk by chunk.
-/

namespace Written

open Protohoggr Chunks List

def lenChunk (f : Nat) (body : Bytes) : Chunk :=
  ⟨f, wireLen, Varint.encode (8 * f + wireLen), lenValue body⟩

def varintChunk (f v : Nat) : Chunk :=
  ⟨f, wireVarint, Varint.encode (8 * f + wireVarint), Varint.encode v⟩

@[simp] lemma bytes_lenChunk (f : Nat) (body : Bytes) :
    (lenChunk f body).bytes = lenField f body := rfl

@[simp] lemma bytes_varintChunk (f v : Nat) : (varintChunk f v).bytes = varintField f v := rfl

/-- The length-delimited field that `encode_bytes_field` writes. -/
def bytesChunks (f : Nat) (body : Bytes) : List Chunk :=
  if body = [] then [] else [lenChunk f body]

/-- The varint field that `encode_int64_field` writes. -/
def int64Chunks (f : Nat) (x : Int64) : List Chunk :=
  if x = 0 then [] else [varintChunk f (signExtend x.toInt)]

variable {ph : Crate}

variable {f : Nat}

lemma framed_lenChunk {body : Bytes} (hf : 0 < f) (hf' : f < 2 ^ 29)
    (hlen : body.length < 2 ^ 64) : (lenChunk f body).Framed ph.reader where
  readTag rest := ph.readTag_of_decode hf hf' (show wireLen < 8 by decide)
    (Varint.decode_encode (by unfold wireLen; omega) rest)
  skipField rest := ph.skipField_len.mpr ⟨body, Crate.readLenDelimited_lenValue hlen rest⟩

lemma framed_varintChunk {v : Nat} (hf : 0 < f) (hf' : f < 2 ^ 29) (hv : v < 2 ^ 64) :
    (varintChunk f v).Framed ph.reader where
  readTag rest := ph.readTag_of_decode hf hf' (show wireVarint < 8 by decide)
    (Varint.decode_encode (by unfold wireVarint; omega) rest)
  skipField rest := ph.skipField_varint (Varint.decode_encode hv rest)

lemma join_bytesChunks (f : Nat) (body : Bytes) :
    join (bytesChunks f body) = ph.encodeBytesField f body := by
  unfold bytesChunks
  by_cases h : body = []
  · rw [if_pos h, h, ph.encodeBytesField_nil]
    rfl
  · rw [if_neg h, ph.encodeBytesField_eq f body h]
    simp

lemma join_int64Chunks (f : Nat) (x : Int64) :
    join (int64Chunks f x) = ph.encodeInt64Field f x := by
  unfold int64Chunks
  by_cases h : x = 0
  · rw [if_pos h, h, ph.encodeInt64Field_zero]
    rfl
  · rw [if_neg h, ph.encodeInt64Field_eq f x h]
    simp

lemma framed_bytesChunks {body : Bytes} (hf : 0 < f) (hf' : f < 2 ^ 29)
    (hlen : body.length < 2 ^ 64) : ∀ c ∈ bytesChunks f body, c.Framed ph.reader := by
  intro c hc
  unfold bytesChunks at hc
  split at hc
  · cases hc
  · rw [mem_singleton] at hc
    subst hc
    exact framed_lenChunk hf hf' hlen

/-- A body is shorter than the field that carries it. -/
theorem length_lt_lenField (f : Nat) (body : Bytes) :
    body.length < (lenField f body).length := by
  have htag := length_pos_iff.mpr (Varint.encode_ne_nil (8 * f + wireLen))
  rw [lenField, lenValue, length_append, length_append]
  omega

lemma length_le_encodeBytesField (f : Nat) (body : Bytes) :
    body.length ≤ (ph.encodeBytesField f body).length := by
  by_cases h : body = []
  · simp [h]
  · rw [ph.encodeBytesField_eq f body h]
    exact Nat.le_of_lt (length_lt_lenField f body)

/-- A chunk that an encoder of the crate writes. -/
inductive IsWritten : Chunk → Prop
  | len {f : Nat} (body : Bytes) : 0 < f → f < 2 ^ 29 → IsWritten (lenChunk f body)
  | varint {f v : Nat} : 0 < f → f < 2 ^ 29 → v < 2 ^ 64 → IsWritten (varintChunk f v)

lemma isWritten_bytesChunks (body : Bytes) (hf : 0 < f) (hf' : f < 2 ^ 29) :
    ∀ c ∈ bytesChunks f body, IsWritten c := by
  intro c hc
  unfold bytesChunks at hc
  split at hc
  · cases hc
  · rw [mem_singleton] at hc
    subst hc
    exact .len body hf hf'

lemma isWritten_int64Chunks (x : Int64) (hf : 0 < f) (hf' : f < 2 ^ 29) :
    ∀ c ∈ int64Chunks f x, IsWritten c := by
  intro c hc
  unfold int64Chunks at hc
  split at hc
  · cases hc
  · rw [mem_singleton] at hc
    subst hc
    exact .varint hf hf' (signExtend_lt _)

lemma length_bytes_le_join {cs : List Chunk} {c : Chunk} (hc : c ∈ cs) :
    c.bytes.length ≤ (join cs).length := by
  induction cs with
  | nil => cases hc
  | cons d cs ih =>
    rw [join_cons, length_append]
    rcases mem_cons.mp hc with rfl | hc
    · omega
    · have := ih hc
      omega

/-- Written chunks that fit in memory are well framed. -/
theorem framed_of_isWritten {cs : List Chunk} (h : ∀ c ∈ cs, IsWritten c)
    (hlen : (join cs).length < 2 ^ 64) : ∀ c ∈ cs, c.Framed ph.reader := by
  intro c hc
  have hle := length_bytes_le_join hc
  cases h c hc with
  | @len f body hf hf' =>
    rw [bytes_lenChunk] at hle
    have hbody := length_lt_lenField f body
    exact framed_lenChunk hf hf' (by omega)
  | varint hf hf' hv => exact framed_varintChunk hf hf' hv

/-- The packed field the crate writes for an array. -/
def packedChunks (f : Nat) (vs : List Nat) : List Chunk :=
  if vs = [] then [] else [lenChunk f (vs.flatMap Varint.encode)]

lemma isWritten_packedChunks (vs : List Nat) (hf : 0 < f) (hf' : f < 2 ^ 29) :
    ∀ c ∈ packedChunks f vs, IsWritten c := by
  intro c hc
  unfold packedChunks at hc
  split at hc
  · cases hc
  · rw [mem_singleton] at hc
    subst hc
    exact .len _ hf hf'

lemma flatMap_encode_eq_nil {vs : List Nat} : vs.flatMap Varint.encode = [] ↔ vs = [] := by
  cases vs with
  | nil => simp
  | cons v vs => simp [Varint.encode_ne_nil]

lemma values_encode {vs : List Nat} (h : ∀ v ∈ vs, v < 2 ^ 64) :
    Varint.Values (vs.flatMap Varint.encode) vs :=
  Varint.values_flatMap (fun _ hv rest => Varint.decode_encode hv rest) h

lemma length_le_flatMap_encode (vs : List Nat) : vs.length ≤ (vs.flatMap Varint.encode).length := by
  induction vs with
  | nil => simp
  | cons v vs ih =>
    have := length_pos_iff.mpr (Varint.encode_ne_nil v)
    rw [flatMap_cons, length_cons, length_append]
    omega

end Written
