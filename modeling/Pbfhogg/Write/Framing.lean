import Pbfhogg.Read.FrameLists

/-!
# Framing a blob

The encoders of `write/framing.rs`, and the file of frames they make as the frame walk reads it. The
compressors are a parameter: decompressing gives back what was compressed.
-/

namespace Framing

open Protohoggr FieldWalk BlobWire WireMessages ByteSource Frame FrameLists
open List hiding take

/-- The two compressors and their inverses. -/
structure Codec where
  zlib : UInt32 → Bytes → Except String Bytes
  zstd : Int32 → Bytes → Except String Bytes
  unzlib : Bytes → Option Bytes
  unzstd : Bytes → Option Bytes
  unzlib_zlib : ∀ {level data out}, zlib level data = .ok out → unzlib out = some data
  unzstd_zstd : ∀ {level data out}, zstd level data = .ok out → unzstd out = some data

inductive Compression where
  | none
  | zlib (level : UInt32)
  | zstd (level : Int32)
  deriving DecidableEq

inductive OversizePart where
  | osmHeaderPayload
  | payload
  | osmHeaderBody
  | body
  | header
  | headerWayMembers
  deriving DecidableEq

inductive WriteError where
  | blobTooLarge (part : OversizePart) (size limit : Nat)
  | internal (msg : String)
  | io (msg : String)
  deriving DecidableEq

/-- What `frame_blob_into` is handed. -/
structure BlobInput where
  blobType : String
  uncompressed : Bytes
  compression : Compression
  indexdata : Option Bytes := none
  tagdata : Option Bytes := none
  wayMembers : Option Bytes := none

def osmHeader : String := "OSMHeader"

/-- `i32::try_from`. -/
def i32TryFrom (n : Nat) : Option Int32 := if n < 2 ^ 31 then some (Int32.ofNat n) else none

section Encode

variable (ph : Crate) (codec : Codec)

/-- The tag and length of a payload field whose bytes follow. -/
def encodePayloadFieldHead (field len : Nat) : Bytes :=
  ph.encodeTag field wireLen ++ ph.encodeVarint len

/-- The head of a compressed body: `raw_size`, and the payload field up to its bytes. -/
def encodeCompressedHead (field rawLen compressedLen : Nat) : Except WriteError Bytes :=
  match i32TryFrom rawLen with
  | none => .error (.internal ("blob raw_size overflow: " ++ toString rawLen ++ " bytes"))
  | some rawSize =>
    .ok (ph.encodeInt32Field Blob.rawSize rawSize ++ encodePayloadFieldHead ph field compressedLen)

/-- A body is its head followed by its payload. -/
def encodeBlobBody (uncompressed : Bytes) (compression : Compression)
    (payloadPart : OversizePart) : Except WriteError (Bytes × Bytes) :=
  if maxBlobMessageSize < uncompressed.length then
    .error (.blobTooLarge payloadPart uncompressed.length maxBlobMessageSize)
  else
    match compression with
    | .none => .ok (encodePayloadFieldHead ph Blob.raw uncompressed.length, uncompressed)
    | .zlib level =>
      match codec.zlib level uncompressed with
      | .error msg => .error (.internal msg)
      | .ok out =>
        (encodeCompressedHead ph Blob.zlibData uncompressed.length out.length).map (·, out)
    | .zstd level =>
      match codec.zstd level uncompressed with
      | .error msg => .error (.io msg)
      | .ok out =>
        (encodeCompressedHead ph Blob.zstdData uncompressed.length out.length).map (·, out)

def encodeOptional (field : Nat) (data : Option Bytes) : Bytes :=
  match data with
  | some data => ph.encodeBytesField field data
  | none => []

variable (blobType : String) (datasize : Int32) (indexdata tagdata wayMembers : Option Bytes)

def encodeBlobHeaderFields
    : Bytes :=
  ph.encodeBytesField BlobHeader.type (utf8Bytes blobType) ++
    (encodeOptional ph BlobHeader.indexdata indexdata ++
      (ph.encodeInt32Field BlobHeader.datasize datasize ++
        (encodeOptional ph BlobHeader.tagdata tagdata ++
          encodeOptional ph BlobHeader.waymembers wayMembers)))

/-- Why a header without its tag index is still too long: the way members, when it would fit without
them. -/
def oversizePart
    (indexdata wayMembers : Option Bytes) : OversizePart :=
  if wayMembers.isSome ∧
      (encodeBlobHeaderFields ph blobType datasize indexdata none none).length < maxBlobHeaderSize
    then .headerWayMembers
  else .header

/-- The tag index is dropped where the header would reach the cap with it. What comes back with the
header is whether it was. -/
def encodeBlobHeaderInto
    : Except WriteError (Bytes × Bool) :=
  let buf := encodeBlobHeaderFields ph blobType datasize indexdata tagdata wayMembers
  if buf.length < maxBlobHeaderSize then .ok (buf, false)
  else
    let bare := encodeBlobHeaderFields ph blobType datasize indexdata none wayMembers
    if tagdata.isSome ∧ bare.length < maxBlobHeaderSize then .ok (bare, true)
    else
      .error (.blobTooLarge (oversizePart ph blobType datasize indexdata wayMembers)
        (if tagdata.isSome then bare.length else buf.length) maxBlobHeaderSize)

/-- The length prefix and the header of a body of `bodyLen` bytes. -/
def encodeFrameHeader (bodyLen : Nat)
    (indexdata tagdata wayMembers : Option Bytes) :
    Except WriteError (Bytes × Bytes) :=
  if maxBlobDatasize ≤ bodyLen then
    .error (.blobTooLarge (if blobType = osmHeader then .osmHeaderBody else .body) bodyLen
      maxBlobDatasize)
  else
    match i32TryFrom bodyLen with
    | none => .error (.internal ("blob datasize overflow: " ++ toString bodyLen ++ " bytes"))
    | some datasize =>
      match encodeBlobHeaderInto ph blobType datasize indexdata tagdata wayMembers with
      | .error e => .error e
      | .ok (header, _) =>
        if 2 ^ 32 ≤ header.length then
          .error (.internal ("header too large: " ++ toString header.length ++ " bytes"))
        else .ok (u32ToBe header.length, header)

/-- `frame_blob_into`: the parts that `frame_in_scratch` leaves, in one buffer. -/
def frameBlobInto (b : BlobInput) : Except WriteError Bytes :=
  match encodeBlobBody ph codec b.uncompressed b.compression
      (if b.blobType = osmHeader then .osmHeaderPayload else .payload) with
  | .error e => .error e
  | .ok (bodyHead, payload) =>
    match encodeFrameHeader ph b.blobType (bodyHead.length + payload.length) b.indexdata b.tagdata
        b.wayMembers with
    | .error e => .error e
    | .ok (lenPrefix, header) => .ok (lenPrefix ++ (header ++ (bodyHead ++ payload)))

end Encode

inductive DecodeError where
  | wire (e : Protohoggr.Error)
  | messageTooBig
  | empty
  | codec
  deriving DecidableEq

/-- Decompressed bytes within the cap. -/
def withinCap (out : Option Bytes) : Except DecodeError Bytes :=
  match out with
  | none => .error .codec
  | some out => if maxBlobMessageSize < out.length then .error .messageTooBig else .ok out

/-- `decompress_blob`. -/
def decompressBlob (codec : Codec) (blob : WireBlob) : Except DecodeError Bytes :=
  let body :=
    match blob.data with
    | some (.raw bytes) => withinCap (some bytes)
    | some (.zlib bytes) => withinCap (codec.unzlib bytes)
    | some (.zstd bytes) => withinCap (codec.unzstd bytes)
    | none => .error .empty
  match body with
  | .error e => .error e
  | .ok decoded =>
    match checkRawSize blob.rawSize decoded.length with
    | .error e => .error (.wire e)
    | .ok () => .ok decoded

section Body

variable {ph : Crate} {codec : Codec}

lemma take_lenValue {σ : Type} {body : Bytes} (hlen : body.length < 2 ^ 64)
    (rest : Bytes) (k : Bytes → Except Protohoggr.Error σ) :
    take (ph.readLenDelimited (lenValue body ++ rest)) k = (k body).map (·, rest) := by
  rw [Crate.readLenDelimited_lenValue hlen]
  rfl

/-- A written `int32` is read back. -/
theorem readInt32_signExtend (msg : String) (x : Int32) (rest : Bytes) :
    readInt32 ph msg (Varint.encode (signExtend x.toInt) ++ rest) = .ok (x, rest) := by
  have hread : ph.readVarintI64 (Varint.encode (signExtend x.toInt) ++ rest) =
      .ok (x.toInt64, rest) := by
    refine ph.readVarintI64_ok.mpr ⟨_, Varint.decode_encode (signExtend_lt _) _, ?_⟩
    rw [← asInt64_signExtend x.toInt64, Int32.toInt_toInt64]
  have hlo := x.le_toInt
  have hhi := x.toInt_lt
  rw [readInt32, hread, take]
  simp only [Except.bind, Int32.toInt_toInt64]
  rw [if_pos ⟨hlo, hhi⟩]
  simp [Except.map]

lemma i32TryFrom_eq {n : Nat} {x : Int32} (h : i32TryFrom n = some x) :
    x = Int32.ofNat n ∧ x.toInt = n ∧ (x = 0 ↔ n = 0) := by
  unfold i32TryFrom at h
  split at h
  · next hlt =>
    cases h
    have hint : (Int32.ofNat n).toInt = n := by
      rw [Int32.toInt_ofNat_of_lt hlt]
    refine ⟨rfl, hint, ?_⟩
    constructor
    · intro h0
      rw [h0] at hint
      have : (0 : Int32).toInt = 0 := rfl
      omega
    · rintro rfl
      rfl
  · cases h

variable {field : Nat} {payload head : Bytes} {compression : Compression}

lemma payloadHead_append (hf : 0 < field) (hf' : field < 2 ^ 29)
    (hlen : payload.length < 2 ^ 64) :
    encodePayloadFieldHead ph field payload.length ++ payload = lenField field payload := by
  rw [encodePayloadFieldHead, ph.encodeTag_eq _ _ hf hf' (by decide), ph.encodeVarint_eq _ hlen,
    lenField, lenValue, append_assoc]

/-- The payload of a body by the field that carries it. -/
inductive Carries (payload : Bytes) : Nat → BlobData → Prop
  | raw : Carries payload Blob.raw (.raw payload)
  | zlib : Carries payload Blob.zlibData (.zlib payload)
  | zstd : Carries payload Blob.zstdData (.zstd payload)

lemma Carries.field_lt {data : BlobData} (h : Carries payload field data) :
    0 < field ∧ field < 2 ^ 29 := by
  cases h <;> decide

lemma walk_payload {data : BlobData} {rawSize : Option Int32}
    (hfield : Carries payload field data) (hlen : payload.length < 2 ^ 64) :
    walk ph.reader (blobField ph) ⟨none, rawSize⟩
        (encodePayloadFieldHead ph field payload.length ++ payload) = .ok ⟨some data, rawSize⟩ := by
  have hstep : blobField ph ⟨none, rawSize⟩ field wireLen (lenValue payload ++ []) =
      .ok (⟨some data, rawSize⟩, []) := by
    cases hfield <;> simp only [blobField, take_lenValue hlen] <;> rfl
  rw [payloadHead_append hfield.field_lt.1 hfield.field_lt.2 hlen,
    ← append_nil (lenField field payload),
    Crate.walk_lenField shrinks_blobField hfield.field_lt.1 hfield.field_lt.2 hstep, walk_nil]

/-- A zero is left out, and read as no size at all. -/
theorem walk_rawSize {n : Nat} {rawSize : Int32} (hn : i32TryFrom n = some rawSize)
    (rest : Bytes) :
    walk ph.reader (blobField ph) {} (ph.encodeInt32Field Blob.rawSize rawSize ++ rest) =
      walk ph.reader (blobField ph)
        ⟨none, if n = 0 then none else some (Int32.ofNat n)⟩ rest := by
  obtain ⟨rfl, -, hzero⟩ := i32TryFrom_eq hn
  by_cases h0 : n = 0
  · rw [if_pos h0, hzero.mpr h0, ph.encodeInt32Field_zero]
    rfl
  · rw [if_neg h0, ph.encodeInt32Field_eq _ _ (fun h => h0 (hzero.mp h))]
    refine Crate.walk_varintField shrinks_blobField (by decide) (by decide) ?_
    simp only [blobField, readInt32_signExtend, take]
    rfl

/-- The size a body declares: none where it is not compressed or empty. -/
def declaredRawSize (compression : Compression) (uncompressed : Bytes) : Option Int32 :=
  if compression = .none ∨ uncompressed = [] then none
  else some (Int32.ofNat uncompressed.length)

lemma encodeCompressedHead_ok {rawLen compressedLen : Nat}
    (h : encodeCompressedHead ph field rawLen compressedLen = .ok head) :
    ∃ rawSize, i32TryFrom rawLen = some rawSize ∧ head =
      ph.encodeInt32Field Blob.rawSize rawSize ++ encodePayloadFieldHead ph field compressedLen := by
  unfold encodeCompressedHead at h
  split at h
  · cases h
  · next rawSize hr =>
    cases h
    exact ⟨rawSize, hr, rfl⟩

lemma checkRawSize_declared {compression : Compression} {uncompressed : Bytes}
    (hlen : uncompressed.length ≤ maxBlobMessageSize) :
    checkRawSize (declaredRawSize compression uncompressed) uncompressed.length = .ok () := by
  unfold declaredRawSize
  split
  · rfl
  · unfold checkRawSize
    simp only
    rw [if_neg]
    have hlt : uncompressed.length < 2 ^ 31 := by
      unfold maxBlobMessageSize at hlen
      omega
    rw [Int32.toInt_ofNat_of_lt hlt]
    simp

lemma declaredRawSize_compressed (hc : compression ≠ .none) (uncompressed : Bytes) :
    declaredRawSize compression uncompressed =
      if uncompressed.length = 0 then none else some (Int32.ofNat uncompressed.length) := by
  simp [declaredRawSize, hc]

/-- The head of a compressed body, when it is written. -/
theorem compressedHead_ok {compression : Compression} (hc : compression ≠ .none) {field : Nat}
    {uncompressed out head payload : Bytes}
    (h : (encodeCompressedHead ph field uncompressed.length out.length).map (·, out) =
      .ok (head, payload)) : payload = out ∧ ∃ sizeField,
      head = sizeField ++ encodePayloadFieldHead ph field payload.length ∧
      ∀ rest, walk ph.reader (blobField ph) {} (sizeField ++ rest) =
        walk ph.reader (blobField ph) ⟨none, declaredRawSize compression uncompressed⟩ rest := by
  cases he : encodeCompressedHead ph field uncompressed.length out.length with
  | error e => simp [he, Except.map] at h
  | ok head' =>
    rw [he] at h
    cases h
    obtain ⟨rawSize, hr, rfl⟩ := encodeCompressedHead_ok he
    refine ⟨rfl, _, rfl, fun rest => ?_⟩
    rw [walk_rawSize hr, declaredRawSize_compressed hc]

lemma encodeBlobBody_ok {uncompressed : Bytes} {part : OversizePart}
    (h : encodeBlobBody ph codec uncompressed compression part = .ok (head, payload)) :
    uncompressed.length ≤ maxBlobMessageSize ∧ ∃ field data sizeField, Carries payload field data ∧
      head = sizeField ++ encodePayloadFieldHead ph field payload.length ∧
      (∀ rest, walk ph.reader (blobField ph) {} (sizeField ++ rest) =
        walk ph.reader (blobField ph) ⟨none, declaredRawSize compression uncompressed⟩ rest) ∧
      decompressBlob codec ⟨some data, declaredRawSize compression uncompressed⟩ =
        .ok uncompressed := by
  unfold encodeBlobBody at h
  split at h
  · cases h
  next hle =>
    have hcap : withinCap (some uncompressed) = .ok uncompressed := if_neg hle
    have hcheck := @checkRawSize_declared compression uncompressed (by omega)
    refine ⟨by omega, ?_⟩
    cases compression with
    | none =>
      cases h
      refine ⟨_, _, [], .raw, rfl, fun rest => rfl, ?_⟩
      simp only [decompressBlob, hcap, hcheck]
    | zlib level =>
      simp only at h
      cases hc : codec.zlib level uncompressed with
      | error msg => simp [hc] at h
      | ok out =>
        rw [hc] at h
        obtain ⟨rfl, sizeField, hhead, hwalk⟩ :=
          @compressedHead_ok ph (.zlib level) (by simp) _ _ _ _ _ h
        refine ⟨_, _, sizeField, .zlib, hhead, hwalk, ?_⟩
        simp only [decompressBlob, codec.unzlib_zlib hc, hcap, hcheck]
    | zstd level =>
      simp only at h
      cases hc : codec.zstd level uncompressed with
      | error msg => simp [hc] at h
      | ok out =>
        rw [hc] at h
        obtain ⟨rfl, sizeField, hhead, hwalk⟩ :=
          @compressedHead_ok ph (.zstd level) (by simp) _ _ _ _ _ h
        refine ⟨_, _, sizeField, .zstd, hhead, hwalk, ?_⟩
        simp only [decompressBlob, codec.unzstd_zstd hc, hcap, hcheck]

/-- A body within the cap is read back, and decodes to what was framed. -/
theorem parseBlob_body {uncompressed : Bytes} {part : OversizePart}
    (h : encodeBlobBody ph codec uncompressed compression part = .ok (head, payload))
    (hlen : head.length + payload.length < maxBlobDatasize) :
    0 < (head ++ payload).length ∧ ∃ blob, parseBlob ph (head ++ payload) = .ok blob ∧
      blob.rawSize = declaredRawSize compression uncompressed ∧
      decompressBlob codec blob = .ok uncompressed := by
  obtain ⟨-, field, data, sizeField, hcarry, rfl, hwalk, hdec⟩ := encodeBlobBody_ok h
  have hpayload : payload.length < 2 ^ 64 := by
    unfold maxBlobDatasize maxBlobMessageSize at hlen
    omega
  refine ⟨?_, _, ?_, rfl, hdec⟩
  · rw [append_assoc, length_append,
      payloadHead_append hcarry.field_lt.1 hcarry.field_lt.2 hpayload, lenField, length_append]
    have := length_pos_iff.mpr (Varint.encode_ne_nil (8 * field + wireLen))
    omega
  · rw [parseBlob, append_assoc, hwalk, walk_payload hcarry hpayload]

end Body

/-- The kind a type name is read as. -/
def kindOf (name : String) : BlobKind :=
  if name = "OSMHeader" then .osmHeader else if name = "OSMData" then .osmData else .unknown name

lemma parseBlobType_utf8Bytes (name : String) :
    parseBlobType (utf8Bytes name) = .ok (kindOf name) := by
  have hheader : utf8Bytes "OSMHeader" = osmHeaderBytes := by decide
  have hdata : utf8Bytes "OSMData" = osmDataBytes := by decide
  unfold parseBlobType kindOf
  by_cases h1 : name = "OSMHeader"
  · rw [if_pos h1, if_pos (by rw [h1, hheader])]
  rw [if_neg h1, if_neg (fun h => h1 (utf8Bytes_inj (h.trans hheader.symm)))]
  by_cases h2 : name = "OSMData"
  · rw [if_pos h2, if_pos (by rw [h2, hdata])]
  rw [if_neg h2, if_neg (fun h => h2 (utf8Bytes_inj (h.trans hdata.symm))), fromUtf8_utf8Bytes]

lemma kindOf_ne_unknown_empty {name : String} (h : name ≠ "") : kindOf name ≠ .unknown "" := by
  unfold kindOf
  split
  · simp
  split
  · simp
  · simpa using h

/-- A header as a walk that keeps `keep` reads it: each optional field taken where it is kept. -/
def headerOf (keep : HeaderFields) (blobType : String) (datasize : Int32)
    (indexdata tagdata wayMembers : Option Bytes) : WireBlobHeader :=
  let h : WireBlobHeader := { blobType := kindOf blobType }
  let h := if keep.indexdata then takeIndexdata h (indexdata.getD []) else h
  let h := { h with datasize := datasize }
  let h := if keep.tagdata then takeTagdata h (tagdata.getD []) else h
  if keep.waymembers then takeWaymembers h (wayMembers.getD []) else h

section Header

variable {ph : Crate}

lemma skip_lenValue {σ : Type} {body : Bytes} (hlen : body.length < 2 ^ 64)
    (rest : Bytes) (s : σ) :
    skip ph.reader s wireLen (lenValue body ++ rest) = .ok (s, rest) := by
  have hskip : ph.reader.skipField wireLen (lenValue body ++ rest) = .ok rest :=
    ph.skipField_len.mpr ⟨body, Crate.readLenDelimited_lenValue hlen rest⟩
  rw [skip, hskip]
  rfl

lemma length_le_encodeOptional (field : Nat) (data : Option Bytes) :
    (data.getD []).length ≤ (encodeOptional ph field data).length := by
  cases data with
  | none => simp [encodeOptional]
  | some d =>
    cases d with
    | nil => simp
    | cons b bs =>
      simp only [encodeOptional, ph.encodeBytesField_eq _ (b :: bs) (by simp), lenField, lenValue,
        length_append, Option.getD_some]
      omega

/-- An optional field, where the handler takes it or passes over it. An empty one is left out. -/
theorem walk_optional {keep : HeaderFields} {field : Nat} {kept : Bool}
    {takeField : WireBlobHeader → Bytes → WireBlobHeader} (hf : 0 < field)
    (hf' : field < 2 ^ 29) (hnil : ∀ h, takeField h [] = h)
    (hstep : ∀ h body rest, body.length < 2 ^ 64 →
      headerField ph keep h field wireLen (lenValue body ++ rest) =
        .ok (if kept then takeField h body else h, rest))
    {data : Option Bytes} (hlen : (data.getD []).length < 2 ^ 64) (h : WireBlobHeader)
    (rest : Bytes) :
    walk ph.reader (headerField ph keep) h (encodeOptional ph field data ++ rest) =
      walk ph.reader (headerField ph keep)
        (if kept then takeField h (data.getD []) else h) rest := by
  have hempty : (if kept then takeField h [] else h) = h := by
    rw [hnil]
    split <;> rfl
  cases data with
  | none =>
    rw [Option.getD_none, hempty]
    rfl
  | some d =>
    cases d with
    | nil =>
      rw [Option.getD_some, hempty, encodeOptional, ph.encodeBytesField_nil]
      rfl
    | cons b bs =>
      rw [encodeOptional, ph.encodeBytesField_eq _ _ (by simp)]
      exact Crate.walk_lenField (shrinks_headerField keep) hf hf' (hstep _ _ _ hlen)

lemma headerField_indexdata (keep : HeaderFields) (h : WireBlobHeader) (body rest : Bytes)
    (hlen : body.length < 2 ^ 64) :
    headerField ph keep h BlobHeader.indexdata wireLen (lenValue body ++ rest) =
      .ok (if keep.indexdata then takeIndexdata h body else h, rest) := by
  cases hk : keep.indexdata with
  | true =>
    simp only [headerField, take_lenValue hlen, hk]
    rfl
  | false =>
    simp only [headerField, skip_lenValue hlen, hk]
    rfl

lemma headerField_tagdata (keep : HeaderFields) (h : WireBlobHeader) (body rest : Bytes)
    (hlen : body.length < 2 ^ 64) :
    headerField ph keep h BlobHeader.tagdata wireLen (lenValue body ++ rest) =
      .ok (if keep.tagdata then takeTagdata h body else h, rest) := by
  cases hk : keep.tagdata with
  | true =>
    simp only [headerField, take_lenValue hlen, hk]
    rfl
  | false =>
    simp only [headerField, skip_lenValue hlen, hk]
    rfl

lemma headerField_waymembers (keep : HeaderFields) (h : WireBlobHeader) (body rest : Bytes)
    (hlen : body.length < 2 ^ 64) :
    headerField ph keep h BlobHeader.waymembers wireLen (lenValue body ++ rest) =
      .ok (if keep.waymembers then takeWaymembers h body else h, rest) := by
  cases hk : keep.waymembers with
  | true =>
    simp only [headerField, take_lenValue hlen, hk]
    rfl
  | false =>
    simp only [headerField, skip_lenValue hlen, hk]
    rfl

/-- The fields a taken field leaves as they were. -/
theorem takeIndexdata_others (h : WireBlobHeader) (d : Bytes) :
    (takeIndexdata h d).blobType = h.blobType ∧ (takeIndexdata h d).tagdata = h.tagdata ∧
      (takeIndexdata h d).tagdataPresent = h.tagdataPresent ∧
      (takeIndexdata h d).waymembers = h.waymembers := by
  unfold takeIndexdata
  split
  · exact ⟨rfl, rfl, rfl, rfl⟩
  split
  · exact ⟨rfl, rfl, rfl, rfl⟩
  split <;> exact ⟨rfl, rfl, rfl, rfl⟩

lemma takeTagdata_others (h : WireBlobHeader) (d : Bytes) :
    (takeTagdata h d).blobType = h.blobType ∧ (takeTagdata h d).datasize = h.datasize ∧
      (takeTagdata h d).indexdata = h.indexdata ∧
      (takeTagdata h d).indexdataPresent = h.indexdataPresent ∧
      (takeTagdata h d).waymembers = h.waymembers := by
  unfold takeTagdata
  split <;> exact ⟨rfl, rfl, rfl, rfl, rfl⟩

lemma takeWaymembers_others (h : WireBlobHeader) (d : Bytes) :
    (takeWaymembers h d).blobType = h.blobType ∧ (takeWaymembers h d).datasize = h.datasize ∧
      (takeWaymembers h d).indexdata = h.indexdata ∧
      (takeWaymembers h d).indexdataPresent = h.indexdataPresent ∧
      (takeWaymembers h d).tagdata = h.tagdata := by
  unfold takeWaymembers
  split <;> exact ⟨rfl, rfl, rfl, rfl, rfl⟩

lemma headerOf_blobType (keep : HeaderFields) (blobType : String) (datasize : Int32)
    (indexdata tagdata wayMembers : Option Bytes) :
    (headerOf keep blobType datasize indexdata tagdata wayMembers).blobType = kindOf blobType := by
  unfold headerOf
  cases keep.waymembers <;> cases keep.tagdata <;> cases keep.indexdata <;>
    simp [takeIndexdata_others, takeTagdata_others, takeWaymembers_others]

/-- A written header is read back as `headerOf` says. -/
theorem parseBlobHeader_fields (keep : HeaderFields) {blobType : String} (hname : blobType ≠ "")
    {datasize : Int32} (hsize : datasize ≠ 0) {indexdata tagdata wayMembers : Option Bytes}
    (hlen : (encodeBlobHeaderFields ph blobType datasize indexdata tagdata wayMembers).length <
      maxBlobHeaderSize) : parseBlobHeader ph keep
        (encodeBlobHeaderFields ph blobType datasize indexdata tagdata wayMembers) =
      .ok (headerOf keep blobType datasize indexdata tagdata wayMembers) := by
  have hbytes : utf8Bytes blobType ≠ [] := by
    intro h
    have hnil : utf8Bytes "" = [] := by decide
    exact hname (utf8Bytes_inj (h.trans hnil.symm))
  have htype : ph.encodeBytesField BlobHeader.type (utf8Bytes blobType) =
      lenField BlobHeader.type (utf8Bytes blobType) := ph.encodeBytesField_eq _ _ hbytes
  -- Every field is shorter than the header.
  have hi := @length_le_encodeOptional ph BlobHeader.indexdata indexdata
  have ht := @length_le_encodeOptional ph BlobHeader.tagdata tagdata
  have hw := @length_le_encodeOptional ph BlobHeader.waymembers wayMembers
  have htlen : (utf8Bytes blobType).length ≤
      (lenField BlobHeader.type (utf8Bytes blobType)).length := by
    simp only [lenField, lenValue, length_append]
    omega
  unfold encodeBlobHeaderFields at hlen ⊢
  rw [htype] at hlen ⊢
  simp only [length_append] at hlen
  have hmax : maxBlobHeaderSize < 2 ^ 64 := by decide
  have htypestep : ∀ rest, headerField ph keep {} BlobHeader.type wireLen
      (lenValue (utf8Bytes blobType) ++ rest) = .ok ({ blobType := kindOf blobType }, rest) := by
    intro rest
    simp only [headerField, take_lenValue (show (utf8Bytes blobType).length < 2 ^ 64 by omega),
      parseBlobType_utf8Bytes]
    rfl
  have hsizestep : ∀ (h : WireBlobHeader) (rest : Bytes),
      headerField ph keep h BlobHeader.datasize wireVarint
        (Varint.encode (signExtend datasize.toInt) ++ rest) =
      .ok ({ h with datasize := datasize }, rest) := by
    intro h rest
    simp only [headerField, readInt32_signExtend, take]
    rfl
  have hwalk : walk ph.reader (headerField ph keep) {}
      (lenField BlobHeader.type (utf8Bytes blobType) ++
        (encodeOptional ph BlobHeader.indexdata indexdata ++
          (ph.encodeInt32Field BlobHeader.datasize datasize ++
            (encodeOptional ph BlobHeader.tagdata tagdata ++
              encodeOptional ph BlobHeader.waymembers wayMembers)))) =
      .ok (headerOf keep blobType datasize indexdata tagdata wayMembers) := by
    rw [Crate.walk_lenField (shrinks_headerField keep) (by decide) (by decide) (htypestep _),
      walk_optional (by decide) (by decide) (fun _ => rfl) (headerField_indexdata keep) (by omega),
      ph.encodeInt32Field_eq _ _ hsize,
      Crate.walk_varintField (shrinks_headerField keep) (by decide) (by decide) (hsizestep _ _),
      walk_optional (by decide) (by decide) (fun _ => rfl) (headerField_tagdata keep) (by omega),
      ← append_nil (encodeOptional ph BlobHeader.waymembers wayMembers),
      walk_optional (by decide) (by decide) (fun _ => rfl) (headerField_waymembers keep) (by omega),
      walk_nil]
    rfl
  rw [parseBlobHeader, hwalk, Except.bind, if_neg]
  rw [headerOf_blobType]
  exact kindOf_ne_unknown_empty hname

end Header

/-- An empty field is an absent one. -/
def nonEmpty : Option Bytes → Option Bytes
  | some (b :: bs) => some (b :: bs)
  | _ => none

/-- The indexdata a reader acts on. -/
def readIndexdata (data : Bytes) : Option Bytes :=
  match classifyWireIndexdata data with
  | .carrier carrier => some carrier
  | _ => none

/-- The header with the tag index stays below the cap. -/
def tagdataFits (ph : Crate) (b : BlobInput) (bodyLen : Nat) : Prop :=
  (encodeBlobHeaderFields ph b.blobType (Int32.ofNat bodyLen) b.indexdata b.tagdata
    b.wayMembers).length < maxBlobHeaderSize

instance (ph : Crate) (b : BlobInput) (bodyLen : Nat) : Decidable (tagdataFits ph b bodyLen) :=
  inferInstanceAs (Decidable (_ < _))

/-- The frame of `b` is delivered as the header `d.1` and the body `d.2`. -/
structure ReadsAs (ph : Crate) (codec : Codec) (keep : HeaderFields) (b : BlobInput)
    (d : FrameHeader × Bytes) : Prop where
  blobType : d.1.header.blobType = kindOf b.blobType
  datasize : d.1.header.datasize.toInt = d.2.length
  dataSize : d.1.dataSize = d.2.length
  indexdata : d.1.header.indexdata =
    if keep.indexdata then (nonEmpty b.indexdata).bind readIndexdata else none
  indexdataPresent : d.1.header.indexdataPresent =
    (keep.indexdata && (nonEmpty b.indexdata).isSome)
  tagdata_kept : tagdataFits ph b d.2.length →
    d.1.header.tagdata = if keep.tagdata then nonEmpty b.tagdata else none
  tagdata_dropped : ¬tagdataFits ph b d.2.length → d.1.header.tagdata = none
  waymembers : d.1.header.waymembers = if keep.waymembers then nonEmpty b.wayMembers else none
  body : ∃ blob, parseBlob ph d.2 = .ok blob ∧
    blob.rawSize = declaredRawSize b.compression b.uncompressed ∧
    decompressBlob codec blob = .ok b.uncompressed

section HeaderOf

variable (keep : HeaderFields) (blobType : String) (datasize : Int32)
  (indexdata tagdata wayMembers : Option Bytes)

lemma headerOf_datasize :
    (headerOf keep blobType datasize indexdata tagdata wayMembers).datasize = datasize := by
  unfold headerOf
  cases keep.waymembers <;> cases keep.tagdata <;>
    simp [takeTagdata_others, takeWaymembers_others]

lemma headerOf_waymembers :
    (headerOf keep blobType datasize indexdata tagdata wayMembers).waymembers =
      if keep.waymembers then nonEmpty wayMembers else none := by
  unfold headerOf
  cases keep.waymembers <;> cases keep.tagdata <;> cases keep.indexdata <;>
    rcases wayMembers with _ | _ | ⟨b, bs⟩ <;>
    simp [takeWaymembers, takeIndexdata_others, takeTagdata_others, nonEmpty]

lemma headerOf_tagdata :
    (headerOf keep blobType datasize indexdata tagdata wayMembers).tagdata =
      if keep.tagdata then nonEmpty tagdata else none := by
  unfold headerOf
  cases keep.waymembers <;> cases keep.tagdata <;> cases keep.indexdata <;>
    rcases tagdata with _ | _ | ⟨b, bs⟩ <;>
    simp [takeTagdata, takeIndexdata_others, takeWaymembers_others, nonEmpty]

lemma headerOf_indexdata :
    (headerOf keep blobType datasize indexdata tagdata wayMembers).indexdata =
        (if keep.indexdata then (nonEmpty indexdata).bind readIndexdata else none) ∧
      (headerOf keep blobType datasize indexdata tagdata wayMembers).indexdataPresent =
        (keep.indexdata && (nonEmpty indexdata).isSome) := by
  have htake : ∀ d, (takeIndexdata { blobType := kindOf blobType } d).indexdata =
        (nonEmpty (some d)).bind readIndexdata ∧
      (takeIndexdata { blobType := kindOf blobType } d).indexdataPresent =
        (nonEmpty (some d)).isSome := by
    intro d
    cases d with
    | nil => exact ⟨rfl, rfl⟩
    | cons b bs =>
      simp only [takeIndexdata, nonEmpty, readIndexdata, Option.bind_some]
      cases classifyWireIndexdata (b :: bs) <;> simp
  have hgetD : nonEmpty (some (indexdata.getD [])) = nonEmpty indexdata := by
    cases indexdata <;> rfl
  unfold headerOf
  cases keep.waymembers <;> cases keep.tagdata <;> cases keep.indexdata <;>
    simp [takeTagdata_others, takeWaymembers_others, htake, hgetD]

end HeaderOf

section Frames

variable {ph : Crate} {codec : Codec}

/-- The tag index a frame carries. -/
def writtenTagdata (ph : Crate) (b : BlobInput) (bodyLen : Nat) : Option Bytes :=
  if tagdataFits ph b bodyLen then b.tagdata else none

variable {b : BlobInput}

lemma encodeBlobHeaderInto_ok {bodyLen : Nat} {header : Bytes} {dropped : Bool}
    (h : encodeBlobHeaderInto ph b.blobType (Int32.ofNat bodyLen) b.indexdata b.tagdata
      b.wayMembers = .ok (header, dropped)) : header.length < maxBlobHeaderSize ∧
      header = encodeBlobHeaderFields ph b.blobType (Int32.ofNat bodyLen) b.indexdata
        (writtenTagdata ph b bodyLen) b.wayMembers := by
  unfold encodeBlobHeaderInto at h
  simp only at h
  split at h
  · next hfits =>
    cases h
    have hfits' : tagdataFits ph b bodyLen := hfits
    exact ⟨hfits, by rw [writtenTagdata, if_pos hfits']⟩
  next hnot =>
    split at h
    · next hbare =>
      cases h
      have hnot' : ¬tagdataFits ph b bodyLen := hnot
      exact ⟨hbare.2, by rw [writtenTagdata, if_neg hnot']⟩
    · cases h

/-- The parts of a frame that was written. -/
theorem frameBlobInto_ok {f : Bytes} (h : frameBlobInto ph codec b = .ok f) :
    ∃ header body, f = u32ToBe header.length ++ (header ++ body) ∧
      header.length < maxBlobHeaderSize ∧ 0 < body.length ∧ body.length < maxBlobDatasize ∧
      header = encodeBlobHeaderFields ph b.blobType (Int32.ofNat body.length) b.indexdata
        (writtenTagdata ph b body.length) b.wayMembers ∧ ∃ blob, parseBlob ph body = .ok blob ∧
        blob.rawSize = declaredRawSize b.compression b.uncompressed ∧
        decompressBlob codec blob = .ok b.uncompressed := by
  unfold frameBlobInto at h
  split at h
  · cases h
  next bodyHead payload hbody =>
    split at h
    · cases h
    next lenPrefix header hheader =>
      cases h
      unfold encodeFrameHeader at hheader
      split at hheader
      · cases hheader
      next hmax =>
        split at hheader
        · cases hheader
        next datasize hsize =>
          split at hheader
          · cases hheader
          next dropped hinto =>
            split at hheader
            · cases hheader
            cases hheader
            obtain ⟨hpos, hparse⟩ := parseBlob_body hbody (by omega)
            obtain ⟨rfl, -⟩ := i32TryFrom_eq hsize
            have hlen : (bodyHead ++ payload).length = bodyHead.length + payload.length :=
              length_append
            obtain ⟨hcap, heq⟩ := encodeBlobHeaderInto_ok hinto
            refine ⟨header, bodyHead ++ payload, rfl, hcap, hpos, by omega, ?_, hparse⟩
            rw [hlen]
            exact heq

lemma checkDatasize_ofNat {n : Nat} (h : n < maxBlobDatasize) :
    checkDatasize (Int32.ofNat n) = .ok n := by
  have hlt : n < 2 ^ 31 := by
    unfold maxBlobDatasize maxBlobMessageSize at h
    omega
  have hint : (Int32.ofNat n).toInt = n := Int32.toInt_ofNat_of_lt hlt
  have hnat : (Int32.ofNat n).toNatClampNeg = n := by
    show (Int32.ofNat n).toInt.toNat = n
    omega
  unfold checkDatasize
  rw [if_neg, hnat, if_neg (by omega)]
  rw [Int32.lt_iff_toInt_lt, hint]
  have : (0 : Int32).toInt = 0 := rfl
  omega

lemma acceptHeader_written {b : BlobInput} (hname : b.blobType ≠ "") {body : Bytes}
    (hpos : 0 < body.length) (hmax : body.length < maxBlobDatasize) {header : Bytes}
    (hheader : header = encodeBlobHeaderFields ph b.blobType (Int32.ofNat body.length) b.indexdata
      (writtenTagdata ph b body.length) b.wayMembers)
    (hcap : header.length < maxBlobHeaderSize) (keep : HeaderFields) {streamStart : Nat}
    {id : FrameId} (hfirst : b.blobType = "OSMHeader" → isAtStart streamStart id = true) :
    acceptHeader ph keep false streamStart id header.length header =
      .ok (⟨id, header.length, body.length, headerOf keep b.blobType (Int32.ofNat body.length)
        b.indexdata (writtenTagdata ph b body.length) b.wayMembers⟩, ⟨id, body.length, none⟩) := by
  have hlt : body.length < 2 ^ 31 := by
    unfold maxBlobDatasize maxBlobMessageSize at hmax
    omega
  have hsize : Int32.ofNat body.length ≠ 0 := by
    intro h0
    have hint : (Int32.ofNat body.length).toInt = body.length := Int32.toInt_ofNat_of_lt hlt
    rw [h0] at hint
    have : (0 : Int32).toInt = 0 := rfl
    omega
  have hparse := @parseBlobHeader_fields ph keep b.blobType hname (Int32.ofNat body.length) hsize
    b.indexdata (writtenTagdata ph b body.length) b.wayMembers (by rw [← hheader]; exact hcap)
  rw [← hheader] at hparse
  have hkeep : ({ keep with indexdata := keep.indexdata || false } : HeaderFields) = keep := by
    rw [Bool.or_false]
  have hposition : checkHeaderPosition (kindOf b.blobType) (isAtStart streamStart id) = .ok () := by
    unfold checkHeaderPosition
    rw [if_neg]
    rintro ⟨hkind, hstart⟩
    have hosm : b.blobType = "OSMHeader" := by
      by_contra hne
      unfold kindOf at hkind
      rw [if_neg hne] at hkind
      split at hkind <;> cases hkind
    rw [hfirst hosm] at hstart
    cases hstart
  unfold acceptHeader
  rw [hkeep, hparse]
  simp only [Bool.false_eq_true, false_and, if_false, headerOf_blobType, hposition,
    headerOf_datasize, checkDatasize_ofNat hmax]

lemma header_ne_nil (hname : b.blobType ≠ "") (datasize : Int32) (tagdata : Option Bytes) :
    0 < (encodeBlobHeaderFields ph b.blobType datasize b.indexdata tagdata b.wayMembers).length := by
  have hbytes : utf8Bytes b.blobType ≠ [] := by
    intro h
    have hnil : utf8Bytes "" = [] := by decide
    exact hname (utf8Bytes_inj (h.trans hnil.symm))
  have := length_pos_iff.mpr (Varint.encode_ne_nil (8 * BlobHeader.type + wireLen))
  rw [encodeBlobHeaderFields, ph.encodeBytesField_eq _ _ hbytes, length_append, lenField,
    length_append]
  omega

lemma readsAs_written {keep : HeaderFields} {id : FrameId} {headerLen : Nat} {body : Bytes}
    (hmax : body.length < maxBlobDatasize) (hbody : ∃ blob, parseBlob ph body = .ok blob ∧
      blob.rawSize = declaredRawSize b.compression b.uncompressed ∧
      decompressBlob codec blob = .ok b.uncompressed) :
    ReadsAs ph codec keep b (⟨id, headerLen, body.length, headerOf keep b.blobType
      (Int32.ofNat body.length) b.indexdata (writtenTagdata ph b body.length) b.wayMembers⟩,
      body) where
  blobType := headerOf_blobType ..
  datasize := by
    simp only [headerOf_datasize]
    unfold maxBlobDatasize maxBlobMessageSize at hmax
    exact Int32.toInt_ofNat_of_lt (by omega)
  dataSize := rfl
  indexdata := (headerOf_indexdata ..).1
  indexdataPresent := (headerOf_indexdata ..).2
  tagdata_kept hfits := by
    simp only [headerOf_tagdata, writtenTagdata, if_pos hfits]
  tagdata_dropped hnot := by
    simp only [headerOf_tagdata, writtenTagdata, if_neg hnot]
    split <;> rfl
  waymembers := headerOf_waymembers ..
  body := hbody

/-- A walk that accepts a partial index accepts the written frames, when only the first may be the
OSMHeader. -/
theorem accepts_written {blobs : List BlobInput} {frames : List Bytes}
    (hframes : List.Forall₂ (fun b f => frameBlobInto ph codec b = .ok f) blobs frames)
    (hnames : ∀ b ∈ blobs, b.blobType ≠ "") {fr : Frames Unit} (hguard : fr.partialIndex = none)
    (hstart : ∀ b ∈ blobs.head?, b.blobType = "OSMHeader" →
      isAtStart fr.streamStart fr.nextId = true)
    (hfirst : ∀ b ∈ blobs.tail, b.blobType ≠ "OSMHeader") :
    ∃ delivered, Accepts ph fr frames delivered ∧
      List.Forall₂ (ReadsAs ph codec fr.fields) blobs delivered := by
  induction hframes generalizing fr with
  | nil => exact ⟨[], .nil, .nil⟩
  | @cons b f blobs frames hb _ ih =>
    obtain ⟨header, body, rfl, hcap, hpos, hmax, hheader, hbody⟩ := frameBlobInto_ok hb
    have hname := hnames b (by simp)
    have haccept := @acceptHeader_written ph b hname body hpos hmax header hheader hcap fr.fields
      fr.streamStart fr.nextId (hstart b (by simp))
    have hguard' : fr.partialIndex.isSome = false := by rw [hguard]; rfl
    rw [← hguard'] at haccept
    have htail : ∀ b' ∈ blobs, b'.blobType ≠ "OSMHeader" := fun b' hb' => hfirst b' hb'
    obtain ⟨delivered, hacc, hreads⟩ := @ih (fun b' hb' => hnames b' (by simp [hb']))
      { fr.atPayload ⟨fr.nextId, header.length, body.length, {}⟩ header with
        pos := (fr.pos.map (· + 4 + header.length)).map (· + body.length)
        nextOrdinal := fr.nextOrdinal.map (· + 1) } hguard
      (fun b' hb' ho => absurd ho (htail b' (mem_of_mem_head? hb')))
      (fun b' hb' => htail b' (mem_of_mem_tail hb'))
    have hheaderpos : 0 < header.length := by
      rw [hheader]
      exact header_ne_nil hname _ _
    exact ⟨_, .cons hheaderpos hcap haccept rfl rfl hacc, .cons (readsAs_written hmax hbody) hreads⟩

/-- A file of written frames is read back whole. Any proper prefix of it gives the frames that lie
in it whole, and then a clean end where at most three bytes follow them, or an error. -/
theorem framed_file_round_trip (ph : Crate) (codec : Codec) (keep : HeaderFields)
    (start : Option Nat) {blobs : List BlobInput} {frames : List Bytes}
    (hframes : List.Forall₂ (fun b f => frameBlobInto ph codec b = .ok f) blobs frames)
    (hnames : ∀ b ∈ blobs, b.blobType ≠ "") (hfirst : ∀ b ∈ blobs.tail, b.blobType ≠ "OSMHeader") :
    ∃ delivered, List.Forall₂ (ReadsAs ph codec keep) blobs delivered ∧ (∀ schedule,
        walkFuel ph reader (fun _ => true) (frames.flatten.length + 1) 0
            (Frames.new ⟨frames.flatten, schedule⟩ start keep) =
          (wholeEvents (fun _ => true) 0 delivered, .clean) ∧
        rawWalkFuel ph reader (frames.flatten.length + 1)
            (Frames.new ⟨frames.flatten, schedule⟩ start keep) =
          (rawFrames frames delivered, .clean)) ∧ ∀ schedule n, n < frames.flatten.length →
        WholeIn frames n (wholeCount frames n) ∧
        Outcome (wholeEvents (fun _ => true) 0 (delivered.take (wholeCount frames n)))
          (n - boundary frames (wholeCount frames n)) (delivered[wholeCount frames n]?.map Prod.fst)
          (walkFuel ph reader (fun _ => true) (n + 1) 0
            (Frames.new ⟨frames.flatten.take n, schedule⟩ start keep)) ∧
        RawOutcome (rawFrames (frames.take (wholeCount frames n)) delivered)
          (n - boundary frames (wholeCount frames n)) (wholeCount frames n < frames.length)
          (rawWalkFuel ph reader (n + 1)
            (Frames.new ⟨frames.flatten.take n, schedule⟩ start keep)) := by
  have hr : (Frames.new () start keep).Ready := ⟨rfl, rfl, rfl⟩
  have hstart : isAtStart (Frames.new () start keep).streamStart (Frames.new () start keep).nextId =
      true := by
    cases start with
    | none => rfl
    | some s => simp [isAtStart, Frames.new, Frames.nextId]
  have hwalk : ∀ (data : Bytes) (schedule : List (Option Nat)) (fuel : Nat),
      walkFuel ph reader (fun _ => true) fuel 0 (Frames.new ⟨data, schedule⟩ start keep) =
        frontWalk ph (fun _ => true) fuel 0 (Frames.new () start keep) data := fun data schedule fuel =>
    walkFuel_eq (reader_delivers maxBlobDatasize) (Nat.le_refl _) (reader_fillsAt 4) hr rfl
  obtain ⟨delivered, hacc, hreads⟩ := @accepts_written ph codec blobs frames hframes hnames
    (Frames.new () start keep) rfl (fun _ _ _ => hstart) hfirst
  refine ⟨delivered, hreads, fun schedule => ⟨?_, ?_⟩, fun schedule n hn => ⟨?_, ?_, ?_⟩⟩
  · rw [hwalk]
    exact frontWalk_all hacc _
  · exact rawWalk_all (reader_delivers maxBlobDatasize) (Nat.le_refl _) (reader_fillsAt 4) hr hacc
      rfl
  · exact wholeIn_wholeCount
  · rw [hwalk]
    exact frontWalk_cut hacc _ (by rw [length_take]; omega) (by omega)
  · exact rawWalk_cut (reader_delivers maxBlobDatasize) (Nat.le_refl _) (reader_fillsAt 4) hr hacc
      (by rw [length_take]; omega) (by omega) rfl

end Frames

/-- The zlib stream of the byte 7 at the default level. -/
def zlibOfSeven : Bytes := [120, 156, 99, 7, 0, 0, 8, 0, 8]

/-- A codec that knows one stream. -/
def sevenCodec : Codec where
  zlib _ data := if data = [7] then .ok zlibOfSeven else .error "zlib compress error"
  zstd _ _ := .error "zstd compress error"
  unzlib out := if out = zlibOfSeven then some [7] else none
  unzstd _ := none
  unzlib_zlib := by
    intro level data out h
    split at h
    · next hdata =>
      cases h
      rw [if_pos rfl, hdata]
    · cases h
  unzstd_zstd h := by cases h

def headerBlob : BlobInput := ⟨"OSMHeader", [1, 2], .none, none, none, none⟩

def dataBlob : BlobInput := ⟨"OSMData", [7], .zlib 6, none, some [9, 9], none⟩

def headerFrame : Bytes :=
  [0, 0, 0, 13, 10, 9, 79, 83, 77, 72, 101, 97, 100, 101, 114, 24, 4, 10, 2, 1, 2]

def dataFrame : Bytes :=
  [0, 0, 0, 15, 10, 7, 79, 83, 77, 68, 97, 116, 97, 24, 13, 34, 2, 9, 9, 16, 1, 26, 9, 120, 156, 99,
    7, 0, 0, 8, 0, 8]

theorem framed_file_round_trip_two_blobs :
    ∃ delivered, List.Forall₂ (ReadsAs Reference.crate sevenCodec HeaderFields.indexes)
        [headerBlob, dataBlob] delivered ∧
      rawWalkFuel Reference.crate reader ([headerFrame, dataFrame].flatten.length + 1)
          (Frames.new ⟨[headerFrame, dataFrame].flatten, [some 2]⟩ (some 0) HeaderFields.indexes) =
        (rawFrames [headerFrame, dataFrame] delivered, .clean) := by
  have hframes : List.Forall₂ (fun b f => frameBlobInto Reference.crate sevenCodec b = .ok f)
      [headerBlob, dataBlob] [headerFrame, dataFrame] :=
    .cons (by decide +kernel) (.cons (by decide +kernel) .nil)
  obtain ⟨delivered, hreads, hwhole, -⟩ := framed_file_round_trip Reference.crate sevenCodec
    HeaderFields.indexes (some 0) hframes (by simp [headerBlob, dataBlob])
    (by simp [headerBlob, dataBlob])
  exact ⟨delivered, hreads, (hwhole [some 2]).2⟩

/-- A body that is not compressed declares no size, so the reader has none to compare with the
length it decodes to. -/
theorem uncompressed_body_declares_no_size :
    frameBlobInto Reference.crate sevenCodec headerBlob = .ok headerFrame ∧
      parseBlob Reference.crate (headerFrame.drop 17) = .ok ⟨some (.raw [1, 2]), none⟩ ∧
      decompressBlob sevenCodec ⟨some (.raw [1, 2]), none⟩ = .ok headerBlob.uncompressed ∧
      (⟨some (.raw [1, 2]), none⟩ : WireBlob).rawSize ≠
        some (Int32.ofNat headerBlob.uncompressed.length) := by
  refine ⟨?_, ?_, ?_, ?_⟩
  · decide +kernel
  · decide +kernel
  · decide +kernel
  · simp

end Framing
