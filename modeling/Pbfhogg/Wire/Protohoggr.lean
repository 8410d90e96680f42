import Mathlib.Algebra.Group.Int.Defs
import Pbfhogg.Lib.FieldWalk
import Pbfhogg.Lib.Varint

/-!
# The protobuf primitives

The cursor, the packed iterators and the encoders of the `protohoggr` crate. The crate is not part
of this repository, so it is a parameter: its operations, and what the code relies on them to do. A
cursor is the bytes not read yet. An error of the crate is a wire-format error of the reader.
-/

namespace Protohoggr

open FieldWalk List Option

variable {body rest data : Bytes}

/-- The kinds of error of the block reader. -/
inductive Error
  | wireFormat (msg : String)
  | stringtableUtf8 (index : Nat)
  | stringtableIndexOutOfBounds (index : Nat)
deriving DecidableEq

/-- Wire type of a varint field. -/
@[match_pattern] abbrev wireVarint : Nat := 0

/-- Wire type of a length-delimited field. -/
@[match_pattern] abbrev wireLen : Nat := 2

def newWireError (msg : String) : Error := .wireFormat msg

variable (v : Nat)

/-- The signed value of a zigzag code. -/
def zigzagDecode : Int :=
  if v % 2 = 0 then ((v / 2 : Nat) : Int) else -((v / 2 : Nat) : Int) - 1

def zigzagEncode (x : Int) : Nat :=
  if 0 ≤ x then (2 * x).toNat else (-2 * x - 1).toNat

/-- A signed value as the 64 bits of an `int32` or `int64` varint. -/
def signExtend (x : Int) : Nat := (x % 2 ^ 64).toNat

/-! How the packed iterators narrow a varint: a cast for `int32` and `uint32`, the zigzag step for
`sint64`, a truncation to 32 bits before it for `sint32`, and any nonzero value is true. -/

def asUint32 : UInt32 := UInt32.ofNat v

def asInt32 : Int32 := Int32.ofNat v

def asInt64 : Int64 := Int64.ofNat v

def asSint32 : Int32 := Int32.ofInt (zigzagDecode (v % 2 ^ 32))

def asSint64 : Int64 := Int64.ofInt (zigzagDecode v)

def asBool : Bool := v != 0

/-- A length-delimited value: the length and the bytes. -/
def lenValue (body : Bytes) : Bytes := Varint.encode body.length ++ body

/-- A length-delimited field. -/
def lenField (f : Nat) (body : Bytes) : Bytes :=
  Varint.encode (8 * f + wireLen) ++ lenValue body

/-- A varint field. -/
def varintField (f v : Nat) : Bytes :=
  Varint.encode (8 * f + wireVarint) ++ Varint.encode v

/-- A packed array as a length-delimited field. -/
def packedField (f : Nat) (vs : List Nat) : Bytes := lenField f (vs.flatMap Varint.encode)

/-- The operations of the crate, with what the code relies on. -/
structure Crate where
  readVarint : Bytes → Except Error (Nat × Bytes)
  readVarintU32 : Bytes → Except Error (Nat × Bytes)
  readVarintI64 : Bytes → Except Error (Int64 × Bytes)
  readSint64 : Bytes → Except Error (Int64 × Bytes)
  readTag : Bytes → Except Error (Option (Nat × Nat × Bytes))
  readLenDelimited : Bytes → Except Error (Bytes × Bytes)
  readRawField : Nat → Bytes → Except Error (Bytes × Bytes)
  skipField : Nat → Bytes → Except Error Bytes
  packedUint32 : Bytes → List UInt32
  packedInt32 : Bytes → List Int32
  packedSint32 : Bytes → List Int32
  packedSint64 : Bytes → List Int64
  packedBool : Bytes → List Bool
  zigzagEncode64 : Int64 → Nat
  encodeVarint : Nat → Bytes
  encodeTag : Nat → Nat → Bytes
  encodeBytesField : Nat → Bytes → Bytes
  encodeBytesFieldAlways : Nat → Bytes → Bytes
  encodeInt32Field : Nat → Int32 → Bytes
  encodeInt64Field : Nat → Int64 → Bytes
  encodePackedInt32 : Nat → List Int32 → Bytes
  encodePackedSint32 : Nat → List Int32 → Bytes
  encodePackedSint64 : Nat → List Int64 → Bytes
  encodePackedBool : Nat → List Bool → Bytes
  /-- `read_varint` accepts the varints of at most ten bytes that fit 64 bits. -/
  readVarint_ok : ∀ {data v rest}, readVarint data = .ok (v, rest) ↔
    Varint.decode data = some (v, rest)
  readVarintU32_ok : ∀ {data v rest}, readVarintU32 data = .ok (v, rest) ↔
    Varint.decode data = some (v, rest) ∧ v < 2 ^ 32
  readVarintI64_ok : ∀ {data x rest}, readVarintI64 data = .ok (x, rest) ↔
    ∃ v, Varint.decode data = some (v, rest) ∧ x = asInt64 v
  readSint64_ok : ∀ {data x rest}, readSint64 data = .ok (x, rest) ↔
    ∃ v, Varint.decode data = some (v, rest) ∧ x = asSint64 v
  /-- A tag is a varint: the field number above the three bits of the wire type. -/
  readTag_ok : ∀ {data f w rest}, readTag data = .ok (some (f, w, rest)) →
    Varint.decode data = some (8 * f + w, rest) ∧ w < 8
  readTag_eq_none : ∀ {data}, readTag data = .ok none ↔ data = []
  /-- Where a tag ends is decided by its own bytes. -/
  readTag_split : ∀ {data f w rest}, readTag data = .ok (some (f, w, rest)) →
    ∃ tag, data = tag ++ rest ∧ ∀ rest', readTag (tag ++ rest') = .ok (some (f, w, rest'))
  readTag_of_decode : ∀ {data f w rest}, 0 < f → f < 2 ^ 29 → w < 8 →
    Varint.decode data = some (8 * f + w, rest) → readTag data = .ok (some (f, w, rest))
  readLenDelimited_ok : ∀ {data body rest}, readLenDelimited data = .ok (body, rest) ↔
    ∃ n, Varint.decode data = some (n, body ++ rest) ∧ body.length = n
  /-- The bytes of one varint, unread. -/
  readRawField_varint : ∀ {data raw rest}, readRawField wireVarint data = .ok (raw, rest) ↔
    data = raw ++ rest ∧ ∃ v, Varint.decode data = some (v, rest)
  /-- The bytes that skipping the field passes over. -/
  readRawField_ok : ∀ {w data raw rest}, readRawField w data = .ok (raw, rest) ↔
    data = raw ++ rest ∧ skipField w data = .ok rest
  skipField_len : ∀ {data rest}, skipField wireLen data = .ok rest ↔
    ∃ body, readLenDelimited data = .ok (body, rest)
  skipField_varint : ∀ {data v rest}, Varint.decode data = some (v, rest) →
    skipField wireVarint data = .ok rest
  /-- Where a field ends is decided by its own bytes. -/
  skipField_split : ∀ {w data rest}, skipField w data = .ok rest →
    ∃ raw, data = raw ++ rest ∧ ∀ rest', skipField w (raw ++ rest') = .ok rest'
  /-- A packed iterator reads varint after varint. -/
  packedUint32_eq : ∀ {data vs}, Varint.Values data vs → packedUint32 data = vs.map asUint32
  packedInt32_eq : ∀ {data vs}, Varint.Values data vs → packedInt32 data = vs.map asInt32
  packedSint32_eq : ∀ {data vs}, Varint.Values data vs → packedSint32 data = vs.map asSint32
  packedSint64_eq : ∀ {data vs}, Varint.Values data vs → packedSint64 data = vs.map asSint64
  packedBool_eq : ∀ {data vs}, Varint.Values data vs → packedBool data = vs.map asBool
  zigzagEncode64_eq : ∀ x, zigzagEncode64 x = zigzagEncode x.toInt
  /-- The shortest varint. -/
  encodeVarint_eq : ∀ v, v < 2 ^ 64 → encodeVarint v = Varint.encode v
  encodeTag_eq : ∀ f w, 0 < f → f < 2 ^ 29 → w < 8 → encodeTag f w = Varint.encode (8 * f + w)
  /-- Every tag that can be read is written so that it reads back. -/
  readTag_encodeTag : ∀ {data f w rest}, readTag data = .ok (some (f, w, rest)) →
    ∀ rest', readTag (encodeTag f w ++ rest') = .ok (some (f, w, rest'))
  /-- An empty value is left out. -/
  encodeBytesField_nil : ∀ f, encodeBytesField f [] = []
  encodeBytesField_eq : ∀ f body, body ≠ [] → encodeBytesField f body = lenField f body
  encodeBytesFieldAlways_eq : ∀ f body, encodeBytesFieldAlways f body = lenField f body
  /-- A zero is left out, and so is an empty array. -/
  encodeInt32Field_zero : ∀ f, encodeInt32Field f 0 = []
  encodeInt32Field_eq : ∀ f x, x ≠ 0 →
    encodeInt32Field f x = varintField f (signExtend x.toInt)
  encodeInt64Field_zero : ∀ f, encodeInt64Field f 0 = []
  encodeInt64Field_eq : ∀ f x, x ≠ 0 →
    encodeInt64Field f x = varintField f (signExtend x.toInt)
  encodePackedInt32_nil : ∀ f, encodePackedInt32 f [] = []
  encodePackedSint32_nil : ∀ f, encodePackedSint32 f [] = []
  encodePackedSint64_nil : ∀ f, encodePackedSint64 f [] = []
  encodePackedBool_nil : ∀ f, encodePackedBool f [] = []
  encodePackedInt32_eq : ∀ f xs, xs ≠ [] →
    encodePackedInt32 f xs = packedField f (xs.map fun x => signExtend x.toInt)
  encodePackedSint32_eq : ∀ f xs, xs ≠ [] →
    encodePackedSint32 f xs = packedField f (xs.map fun x => zigzagEncode x.toInt)
  encodePackedSint64_eq : ∀ f xs, xs ≠ [] →
    encodePackedSint64 f xs = packedField f (xs.map fun x => zigzagEncode x.toInt)
  encodePackedBool_eq : ∀ f xs, xs ≠ [] →
    encodePackedBool f xs = packedField f (xs.map Bool.toNat)

lemma zigzagDecode_zigzagEncode (x : Int) : zigzagDecode (zigzagEncode x) = x := by
  unfold zigzagDecode zigzagEncode
  split <;> split <;> omega

lemma zigzagEncode_lt {x : Int} {n : Nat} (hlo : -2 ^ n ≤ x) (hhi : x < 2 ^ n) :
    zigzagEncode x < 2 ^ (n + 1) := by
  have hcast : ((2 ^ n : Nat) : Int) = 2 ^ n := by simp
  unfold zigzagEncode
  split <;> omega

lemma zigzagEncode64_lt (x : Int64) : zigzagEncode x.toInt < 2 ^ 64 :=
  zigzagEncode_lt (n := 63) x.le_toInt x.toInt_lt

@[simp] lemma asSint64_zigzagEncode (x : Int64) : asSint64 (zigzagEncode x.toInt) = x := by
  rw [asSint64, zigzagDecode_zigzagEncode, Int64.ofInt_toInt]

lemma signExtend_lt (x : Int) : signExtend x < 2 ^ 64 := by
  unfold signExtend
  omega

@[simp] lemma asInt64_signExtend (x : Int64) : asInt64 (signExtend x.toInt) = x := by
  have h : ((signExtend x.toInt : Nat) : Int) = x.toInt % 2 ^ 64 := by
    unfold signExtend
    omega
  rw [asInt64, ← Int64.ofInt_eq_ofNat, h]
  apply Int64.toInt_inj.mp
  have := x.le_toInt
  have := x.toInt_lt
  have hsize : (Int64.size : Int) = 2 ^ 64 := rfl
  rw [Int64.toInt_ofInt, Int.bmod_def, hsize]
  split <;> omega

namespace Crate

variable (ph : Crate)

/-- The cursor as the walks over fields use it. -/
def reader : Reader Error where
  readTag := ph.readTag
  skipField := ph.skipField
  readTag_eq_none := ph.readTag_eq_none
  readTag_split := ph.readTag_split
  readTag_shrinks h := Varint.decode_length_lt (ph.readTag_ok h).1
  skipField_split := ph.skipField_split

variable {ph}

lemma readsField_of_decode {α : Type} {read : Bytes → Except Error (α × Bytes)}
    {P : Nat → α → Prop} (h : ∀ {data x rest}, read data = .ok (x, rest) ↔
      ∃ v, Varint.decode data = some (v, rest) ∧ P v x) : ReadsField ph.reader wireVarint read := by
  intro cur x rest hr
  obtain ⟨v, hv, hx⟩ := h.mp hr
  refine ⟨ph.skipField_varint hv, fun raw hraw rest' => ?_⟩
  obtain ⟨raw', -, hsplit, hloc⟩ := Varint.decode_split hv
  have : raw = raw' := append_cancel_right (hraw.symm.trans hsplit)
  subst this
  exact h.mpr ⟨v, hloc rest', hx⟩

lemma readsField_varint : ReadsField ph.reader wireVarint ph.readVarint :=
  readsField_of_decode (P := fun v x => x = v) (by
    intro data x rest
    rw [ph.readVarint_ok]
    constructor
    · intro h
      exact ⟨x, h, rfl⟩
    · rintro ⟨v, h, rfl⟩
      exact h)

lemma readsField_varintI64 : ReadsField ph.reader wireVarint ph.readVarintI64 :=
  readsField_of_decode (P := fun v x => x = asInt64 v) ph.readVarintI64_ok

lemma readsField_len : ReadsField ph.reader wireLen ph.readLenDelimited := by
  intro cur body rest hr
  refine ⟨ph.skipField_len.mpr ⟨body, hr⟩, fun raw hraw rest' => ?_⟩
  obtain ⟨n, hn, hlen⟩ := ph.readLenDelimited_ok.mp hr
  obtain ⟨pre, -, hsplit, hloc⟩ := Varint.decode_split hn
  have : raw = pre ++ body := by
    refine append_cancel_right (?_ : raw ++ rest = pre ++ body ++ rest)
    rw [← hraw, hsplit, append_assoc]
  subst this
  refine ph.readLenDelimited_ok.mpr ⟨n, ?_, hlen⟩
  rw [append_assoc]
  exact hloc _

lemma readsField_raw (w : Nat) : ReadsField ph.reader w (ph.readRawField w) := by
  intro cur raw rest hr
  obtain ⟨hcur, hskip⟩ := ph.readRawField_ok.mp hr
  refine ⟨hskip, fun raw' hraw rest' => ?_⟩
  obtain rfl : raw' = raw := append_cancel_right (hraw.symm.trans hcur)
  subst hraw
  exact ph.readRawField_ok.mpr ⟨rfl, @skipField_nil_of_split _ ph.reader _ _ _ hskip rest'⟩

lemma readLenDelimited_lenValue {body : Bytes} (hlen : body.length < 2 ^ 64)
    (rest : Bytes) : ph.readLenDelimited (lenValue body ++ rest) = .ok (body, rest) := by
  refine ph.readLenDelimited_ok.mpr ⟨body.length, ?_, rfl⟩
  rw [lenValue, append_assoc]
  exact Varint.decode_encode hlen _

/-- A walk over a written length-delimited field. -/
theorem walk_lenField {σ : Type} {h : Handler Error σ} (hs : Shrinks h) {f : Nat} {s s' : σ}
    (hf : 0 < f) (hf' : f < 2 ^ 29) (hh : h s f wireLen (lenValue body ++ rest) = .ok (s', rest)) :
    walk ph.reader h s (lenField f body ++ rest) = walk ph.reader h s' rest := by
  refine walk_cons hs (ph.readTag_of_decode hf hf' (by decide) ?_) hh
  rw [lenField, append_assoc]
  exact Varint.decode_encode (by unfold wireLen; omega) _

lemma walk_varintField {σ : Type} {h : Handler Error σ} (hs : Shrinks h) {f v : Nat} {s s' : σ}
    (hf : 0 < f) (hf' : f < 2 ^ 29)
    (hh : h s f wireVarint (Varint.encode v ++ rest) = .ok (s', rest)) :
    walk ph.reader h s (varintField f v ++ rest) = walk ph.reader h s' rest := by
  refine walk_cons hs (ph.readTag_of_decode hf hf' (by decide) ?_) hh
  rw [varintField, append_assoc]
  exact Varint.decode_encode (by unfold wireVarint; omega) _

end Crate

namespace Reference

def orError {α : Type} (msg : String) : Option α → Except Error α
  | some a => .ok a
  | none => .error (.wireFormat msg)

lemma orError_eq_ok {α : Type} {msg : String} {o : Option α} {a : α} :
    orError msg o = .ok a ↔ o = some a := by
  cases o <;> simp [orError]

def readVarint (data : Bytes) : Except Error (Nat × Bytes) :=
  orError "malformed varint" (Varint.decode data)

def readTag (data : Bytes) : Except Error (Option (Nat × Nat × Bytes)) :=
  match data with
  | [] => .ok none
  | b :: bs =>
    match Varint.decode (b :: bs) with
    | none => .error (.wireFormat "malformed varint")
    | some (v, rest) =>
      if v < 8 ∨ 2 ^ 32 ≤ v then .error (.wireFormat "malformed tag")
      else .ok (some (v / 8, v % 8, rest))

def readLenDelimited (data : Bytes) : Except Error (Bytes × Bytes) :=
  match Varint.decode data with
  | none => .error (.wireFormat "malformed varint")
  | some (n, rest) =>
    if n ≤ rest.length then .ok (rest.take n, rest.drop n)
    else .error (.wireFormat "truncated")

def advance (n : Nat) (data : Bytes) : Except Error Bytes :=
  if n ≤ data.length then .ok (data.drop n) else .error (.wireFormat "truncated")

def skipField (w : Nat) (data : Bytes) : Except Error Bytes :=
  match w with
  | wireVarint => (readVarint data).map Prod.snd
  | 1 => advance 8 data
  | wireLen => (readLenDelimited data).map Prod.snd
  | 5 => advance 4 data
  | _ => .error (.wireFormat "unknown wire type")

lemma readTag_some {f w : Nat} : readTag data = .ok (some (f, w, rest)) ↔
      Varint.decode data = some (8 * f + w, rest) ∧ w < 8 ∧ 0 < f ∧ f < 2 ^ 29 := by
  cases data with
  | nil => simp [readTag]
  | cons b bs =>
    cases hd : Varint.decode (b :: bs) with
    | none => simp [readTag, hd]
    | some p =>
      obtain ⟨v, r⟩ := p
      simp only [readTag, hd, some.injEq, Prod.mk.injEq]
      split
      · next hbad =>
        constructor
        · intro h
          cases h
        · intro h
          omega
      · next hgood =>
        simp only [Except.ok.injEq, some.injEq, Prod.mk.injEq]
        constructor
        · rintro ⟨rfl, rfl, rfl⟩
          exact ⟨⟨by omega, rfl⟩, by omega, by omega, by omega⟩
        · rintro ⟨⟨hv, rfl⟩, hw, -, -⟩
          exact ⟨by omega, by omega, rfl⟩

lemma readTag_split {f w : Nat} (h : readTag data = .ok (some (f, w, rest))) :
    ∃ tag, data = tag ++ rest ∧ ∀ rest', readTag (tag ++ rest') = .ok (some (f, w, rest')) := by
  obtain ⟨hd, hw, hf, hf'⟩ := readTag_some.mp h
  obtain ⟨tag, -, htag, hlocal⟩ := Varint.decode_split hd
  exact ⟨tag, htag, fun rest' => readTag_some.mpr ⟨hlocal rest', hw, hf, hf'⟩⟩

lemma readLenDelimited_eq_ok : readLenDelimited data = .ok (body, rest) ↔
      ∃ n, Varint.decode data = some (n, body ++ rest) ∧ body.length = n := by
  unfold readLenDelimited
  cases hd : Varint.decode data with
  | none => simp
  | some p =>
    obtain ⟨n, r⟩ := p
    simp only [some.injEq, Prod.mk.injEq]
    split
    · next hle =>
      simp only [Except.ok.injEq, Prod.mk.injEq]
      constructor
      · rintro ⟨rfl, rfl⟩
        exact ⟨n, ⟨rfl, (take_append_drop n r).symm⟩, by simp; omega⟩
      · rintro ⟨m, ⟨rfl, rfl⟩, rfl⟩
        simp
    · next hle =>
      constructor
      · intro h
        cases h
      · rintro ⟨m, ⟨rfl, rfl⟩, rfl⟩
        simp at hle

lemma advance_split {n : Nat} (h : advance n data = .ok rest) :
    ∃ raw, data = raw ++ rest ∧ ∀ rest', advance n (raw ++ rest') = .ok rest' := by
  unfold advance at h
  split at h
  · next hle =>
    simp only [Except.ok.injEq] at h
    subst h
    refine ⟨data.take n, (take_append_drop n data).symm, fun rest' => ?_⟩
    have hlen : (data.take n).length = n := by simp; omega
    rw [advance, if_pos (by simp; omega), drop_append_of_le_length (by omega)]
    simp
  · cases h

lemma map_snd_eq_ok {α : Type} {x : Except Error (α × Bytes)} :
    x.map Prod.snd = .ok rest ↔ ∃ v, x = .ok (v, rest) := by
  cases x with
  | error e => simp [Except.map]
  | ok p =>
    obtain ⟨v, r⟩ := p
    simp [Except.map]

lemma skipField_split {w : Nat} (h : skipField w data = .ok rest) :
    ∃ raw, data = raw ++ rest ∧ ∀ rest', skipField w (raw ++ rest') = .ok rest' := by
  unfold skipField at h
  split at h
  · obtain ⟨v, hv⟩ := map_snd_eq_ok.mp h
    obtain ⟨raw, -, hraw, hloc⟩ := Varint.decode_split (orError_eq_ok.mp hv)
    exact ⟨raw, hraw, fun rest' =>
      map_snd_eq_ok.mpr ⟨v, orError_eq_ok.mpr (hloc rest')⟩⟩
  · exact advance_split h
  · obtain ⟨body, hb⟩ := map_snd_eq_ok.mp h
    obtain ⟨n, hn, hlen⟩ := readLenDelimited_eq_ok.mp hb
    obtain ⟨pre, -, rfl, hloc⟩ := Varint.decode_split hn
    refine ⟨pre ++ body, by simp, fun rest' => map_snd_eq_ok.mpr ⟨body, ?_⟩⟩
    refine readLenDelimited_eq_ok.mpr ⟨n, ?_, hlen⟩
    rw [append_assoc]
    exact hloc _
  · exact advance_split h
  · cases h

/-- The bytes before `rest`. -/
def consumed (data rest : Bytes) : Bytes := data.take (data.length - rest.length)

def readRawField (w : Nat) (data : Bytes) : Except Error (Bytes × Bytes) :=
  (skipField w data).map fun rest => (consumed data rest, rest)

lemma readRawField_varint {raw : Bytes} : readRawField wireVarint data = .ok (raw, rest) ↔
      data = raw ++ rest ∧ ∃ v, Varint.decode data = some (v, rest) := by
  unfold readRawField
  cases hs : skipField wireVarint data with
  | error e =>
    simp only [Except.map, reduceCtorEq, false_iff, not_and, not_exists]
    intro _ v hv
    have hok : skipField wireVarint data = .ok rest :=
      map_snd_eq_ok.mpr ⟨v, orError_eq_ok.mpr hv⟩
    rw [hs] at hok
    cases hok
  | ok r =>
    obtain ⟨v, hv⟩ := map_snd_eq_ok.mp hs
    have hv := orError_eq_ok.mp hv
    obtain ⟨raw', -, rfl, -⟩ := Varint.decode_split hv
    simp only [Except.map, Except.ok.injEq, Prod.mk.injEq, consumed, length_append,
      Nat.add_sub_cancel_right, hv]
    rw [take_left' rfl]
    constructor
    · rintro ⟨rfl, rfl⟩
      exact ⟨rfl, v, rfl⟩
    · rintro ⟨hraw, v', hv'⟩
      cases hv'
      exact ⟨append_cancel_right hraw, rfl⟩

lemma readRawField_ok {w : Nat} {raw : Bytes} :
    readRawField w data = .ok (raw, rest) ↔ data = raw ++ rest ∧ skipField w data = .ok rest := by
  unfold readRawField
  cases hs : skipField w data with
  | error e => simp [Except.map]
  | ok r =>
    obtain ⟨raw', rfl, -⟩ := skipField_split hs
    simp only [Except.map, Except.ok.injEq, Prod.mk.injEq, consumed, length_append,
      Nat.add_sub_cancel_right]
    rw [take_left' rfl]
    constructor
    · rintro ⟨rfl, rfl⟩
      exact ⟨rfl, rfl⟩
    · rintro ⟨hraw, rfl⟩
      exact ⟨append_cancel_right hraw, rfl⟩

def skipEmpty {α : Type} (xs : List α) (bytes : Bytes) : Bytes :=
  match xs with
  | [] => []
  | _ :: _ => bytes

lemma skipEmpty_of_ne_nil {α : Type} {xs : List α} (bytes : Bytes) (h : xs ≠ []) :
    skipEmpty xs bytes = bytes := by
  cases xs with
  | nil => exact absurd rfl h
  | cons x xs => rfl

/-- The crate, as its documentation and its users describe it. -/
def crate : Crate where
  readVarint := readVarint
  readVarintU32 data :=
    match readVarint data with
    | .ok (v, rest) => if v < 2 ^ 32 then .ok (v, rest) else .error (.wireFormat "exceeds uint32")
    | .error e => .error e
  readVarintI64 data := (readVarint data).map fun p => (asInt64 p.1, p.2)
  readSint64 data := (readVarint data).map fun p => (asSint64 p.1, p.2)
  readTag := readTag
  readLenDelimited := readLenDelimited
  readRawField := readRawField
  skipField := skipField
  packedUint32 data := (Varint.drain data).map asUint32
  packedInt32 data := (Varint.drain data).map asInt32
  packedSint32 data := (Varint.drain data).map asSint32
  packedSint64 data := (Varint.drain data).map asSint64
  packedBool data := (Varint.drain data).map asBool
  zigzagEncode64 x := zigzagEncode x.toInt
  encodeVarint := Varint.encode
  encodeTag f w := Varint.encode (8 * f + w)
  encodeBytesField f body := skipEmpty body (lenField f body)
  encodeBytesFieldAlways := lenField
  encodeInt32Field f x := if x = 0 then [] else varintField f (signExtend x.toInt)
  encodeInt64Field f x := if x = 0 then [] else varintField f (signExtend x.toInt)
  encodePackedInt32 f xs := skipEmpty xs (packedField f (xs.map fun x => signExtend x.toInt))
  encodePackedSint32 f xs := skipEmpty xs (packedField f (xs.map fun x => zigzagEncode x.toInt))
  encodePackedSint64 f xs := skipEmpty xs (packedField f (xs.map fun x => zigzagEncode x.toInt))
  encodePackedBool f xs := skipEmpty xs (packedField f (xs.map Bool.toNat))
  readVarint_ok := orError_eq_ok
  readVarintU32_ok := by
    intro data v rest
    cases hd : Varint.decode data with
    | none => simp [readVarint, orError, hd]
    | some p =>
      obtain ⟨u, r⟩ := p
      simp only [readVarint, orError, hd]
      split
      · next hlt =>
        simp only [Except.ok.injEq, some.injEq, Prod.mk.injEq]
        constructor
        · rintro ⟨rfl, rfl⟩
          exact ⟨⟨rfl, rfl⟩, hlt⟩
        · exact fun h => h.1
      · next hge =>
        simp only [reduceCtorEq, some.injEq, Prod.mk.injEq, false_iff, not_and]
        rintro ⟨rfl, -⟩
        exact hge
  readVarintI64_ok := by
    intro data x rest
    cases hd : Varint.decode data with
    | none => simp [readVarint, orError, hd, Except.map]
    | some p => simp [readVarint, orError, hd, Except.map, Prod.ext_iff, and_comm, eq_comm]
  readSint64_ok := by
    intro data x rest
    cases hd : Varint.decode data with
    | none => simp [readVarint, orError, hd, Except.map]
    | some p => simp [readVarint, orError, hd, Except.map, Prod.ext_iff, and_comm, eq_comm]
  readTag_ok h := ⟨(readTag_some.mp h).1, (readTag_some.mp h).2.1⟩
  readTag_eq_none := by
    intro data
    cases data with
    | nil => simp [readTag]
    | cons b bs =>
      simp only [readTag, reduceCtorEq, iff_false]
      split
      · simp
      · split <;> simp
  readTag_split := readTag_split
  readTag_of_decode hf hf' hw h := readTag_some.mpr ⟨h, hw, hf, hf'⟩
  readLenDelimited_ok := readLenDelimited_eq_ok
  readRawField_varint := readRawField_varint
  readRawField_ok := readRawField_ok
  skipField_len := map_snd_eq_ok
  skipField_varint h := map_snd_eq_ok.mpr ⟨_, orError_eq_ok.mpr h⟩
  skipField_split := skipField_split
  packedUint32_eq h := by rw [h.drain_eq]
  packedInt32_eq h := by rw [h.drain_eq]
  packedSint32_eq h := by rw [h.drain_eq]
  packedSint64_eq h := by rw [h.drain_eq]
  packedBool_eq h := by rw [h.drain_eq]
  zigzagEncode64_eq _ := rfl
  encodeVarint_eq _ _ := rfl
  encodeTag_eq _ _ _ _ _ := rfl
  readTag_encodeTag h rest' := by
    obtain ⟨-, hw, hf, hf'⟩ := readTag_some.mp h
    exact readTag_some.mpr ⟨Varint.decode_encode (by omega) rest', hw, hf, hf'⟩
  encodeBytesField_nil _ := rfl
  encodeBytesField_eq _ _ h := skipEmpty_of_ne_nil _ h
  encodeBytesFieldAlways_eq _ _ := rfl
  encodeInt32Field_zero _ := if_pos rfl
  encodeInt32Field_eq _ _ h := if_neg h
  encodeInt64Field_zero _ := if_pos rfl
  encodeInt64Field_eq _ _ h := if_neg h
  encodePackedInt32_nil _ := rfl
  encodePackedSint32_nil _ := rfl
  encodePackedSint64_nil _ := rfl
  encodePackedBool_nil _ := rfl
  encodePackedInt32_eq _ _ h := by rw [skipEmpty_of_ne_nil _ h]
  encodePackedSint32_eq _ _ h := by rw [skipEmpty_of_ne_nil _ h]
  encodePackedSint64_eq _ _ h := by rw [skipEmpty_of_ne_nil _ h]
  encodePackedBool_eq _ _ h := by rw [skipEmpty_of_ne_nil _ h]

end Reference

end Protohoggr
