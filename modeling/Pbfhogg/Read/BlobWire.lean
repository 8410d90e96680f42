import Pbfhogg.BlobMeta
import Pbfhogg.Lib.LeBytes
import Pbfhogg.Wire.Messages

/-!
# The envelopes of a blob

The parsers of `read/blob_wire.rs` for the `BlobHeader` and `Blob` messages, and the reading of a
header's indexdata (`blob_meta/mod.rs`).
-/

namespace BlobWire

open Protohoggr FieldWalk WireMessages BlobMeta

namespace Blob

abbrev raw : Nat := 1
abbrev rawSize : Nat := 2
abbrev zlibData : Nat := 3
abbrev zstdData : Nat := 7

end Blob

namespace BlobHeader

abbrev type : Nat := 1
abbrev indexdata : Nat := 2
abbrev datasize : Nat := 3
abbrev tagdata : Nat := 4
abbrev waymembers : Nat := 5

end BlobHeader

def maxBlobHeaderSize : Nat := 64 * 1024

def maxBlobMessageSize : Nat := 32 * 1024 * 1024

def maxBlobDatasize : Nat := maxBlobMessageSize

/-- The bytes of a string. -/
def utf8Bytes (s : String) : Bytes := s.toByteArray.data.toList

/-- `String::from_utf8`. -/
def fromUtf8 (bytes : Bytes) : Option String := String.fromUTF8? ⟨bytes.toArray⟩

lemma fromUtf8_utf8Bytes (s : String) : fromUtf8 (utf8Bytes s) = some s := by
  unfold fromUtf8 utf8Bytes String.fromUTF8?
  rw [dif_pos (by simpa using s.isValidUTF8)]
  rfl

lemma utf8Bytes_inj {s t : String} (h : utf8Bytes s = utf8Bytes t) : s = t := by
  have := congrArg fromUtf8 h
  rw [fromUtf8_utf8Bytes, fromUtf8_utf8Bytes] at this
  exact Option.some.inj this

def indexSizeV1 : Nat := 26

def indexSize : Nat := 42

def indexVersionV1 : UInt8 := 1

def indexVersionV2 : UInt8 := 2

def indexVersion : UInt8 := 3

def versionSize (version : UInt8) : Option Nat :=
  if version = indexVersionV1 then some indexSizeV1
  else if version = indexVersionV2 ∨ version = indexVersion then some indexSize
  else none

inductive WireIndexdata where
  /-- The field in the fixed-size carrier, a short one padded with zeros. -/
  | carrier (bytes : Bytes)
  | unrecognisedLength (len : Nat)
  | versionLengthMismatch

def classifyWireIndexdata (bytes : Bytes) : WireIndexdata :=
  if bytes.length ≠ indexSizeV1 ∧ bytes.length ≠ indexSize then .unrecognisedLength bytes.length
  else
    match bytes.head?.bind versionSize with
    | some declared =>
      if declared ≠ bytes.length then .versionLengthMismatch
      else .carrier (bytes ++ List.replicate (indexSize - bytes.length) 0)
    | none => .carrier (bytes ++ List.replicate (indexSize - bytes.length) 0)

def kindFromOrdinal (ordinal : UInt8) : Option OsmId.ElementKind :=
  if ordinal = 0 then some .node
  else if ordinal = 1 then some .way
  else if ordinal = 2 then some .relation
  else none

/-- `le_at`: a field that does not end before the slice does. -/
def leAt (width : Nat) (data : Bytes) (offset : Nat) : Option Nat :=
  if offset + width ≤ data.length then some (LeBytes.readLe width data offset) else none

def i32At (data : Bytes) (offset : Nat) : Option Int32 :=
  (leAt 4 data offset).map fun n => Int32.ofBitVec (BitVec.ofNat 32 n)

def i64At (data : Bytes) (offset : Nat) : Option Int64 :=
  (leAt 8 data offset).map fun n => Int64.ofBitVec (BitVec.ofNat 64 n)

/-- The box of a node index; an inverted one is absence, and so are four zeros under version 2. -/
def deserializeBbox (version : UInt8) (data : Bytes) : Option (Option BlobBbox) := do
  let minLat ← i32At data 26
  let maxLat ← i32At data 30
  let minLon ← i32At data 34
  let maxLon ← i32At data 38
  let zeros := minLat = 0 ∧ maxLat = 0 ∧ minLon = 0 ∧ maxLon = 0
  if (version = indexVersionV2 ∧ zeros) ∨ maxLat < minLat ∨ maxLon < minLon then some none
  else some (some ⟨minLat, maxLat, minLon, maxLon⟩)

/-- `BlobIndex::deserialize`. -/
def deserializeIndex (data : Bytes) : Option BlobIndex := do
  let version ← data.head?
  let declared ← versionSize version
  if data.length ≠ declared ∧ data.length ≠ indexSize then none
  else
    let kind ← (data[1]?).bind kindFromOrdinal
    let minId ← i64At data 2
    let maxId ← i64At data 10
    let count ← leAt 8 data 18
    if maxId < minId then none
    else if declared = indexSize ∧ kind = .node then do
      let bbox ← deserializeBbox version data
      some ⟨kind, minId, maxId, count, bbox⟩
    else some ⟨kind, minId, maxId, count, none⟩

inductive BlobKind where
  | osmHeader
  | osmData
  | unknown (name : String)
  deriving DecidableEq

structure WireBlobHeader where
  blobType : BlobKind := .unknown ""
  datasize : Int32 := 0
  unrecognisedIndexdataLen : Option Nat := none
  indexdata : Option Bytes := none
  indexdataPresent : Bool := false
  tagdata : Option Bytes := none
  tagdataPresent : Bool := false
  waymembers : Option Bytes := none

/-- Which optional fields a walk keeps. -/
structure HeaderFields where
  tagdata : Bool
  indexdata : Bool
  waymembers : Bool

/-- Tagdata and indexdata, no way members. -/
def HeaderFields.indexes : HeaderFields := ⟨true, true, false⟩

/-- The bytes of the two known types. -/
def osmHeaderBytes : Bytes := [79, 83, 77, 72, 101, 97, 100, 101, 114]

def osmDataBytes : Bytes := [79, 83, 77, 68, 97, 116, 97]

def parseBlobType (bytes : Bytes) : Except Error BlobKind :=
  if bytes = osmHeaderBytes then .ok .osmHeader
  else if bytes = osmDataBytes then .ok .osmData
  else
    match fromUtf8 bytes with
    | some name => .ok (.unknown name)
    | none => .error (newWireError "invalid UTF-8 in BlobHeader type")

/-- The wire type a known field must have. -/
def expectedWire (field : Nat) : Option Nat :=
  if field = BlobHeader.datasize then some wireVarint
  else if field = BlobHeader.type ∨ field = BlobHeader.indexdata ∨ field = BlobHeader.tagdata ∨
      field = BlobHeader.waymembers then some wireLen
  else none

/-- A second claim about one blob leaves it with none, for good. -/
def takeIndexdata (h : WireBlobHeader) (bytes : Bytes) : WireBlobHeader :=
  if bytes = [] then h
  else if h.indexdataPresent then { h with indexdata := none, indexdataPresent := true }
  else
    match classifyWireIndexdata bytes with
    | .carrier carrier => { h with indexdata := some carrier, indexdataPresent := true }
    | .unrecognisedLength len =>
      { h with unrecognisedIndexdataLen := some len, indexdataPresent := true }
    | .versionLengthMismatch => { h with indexdataPresent := true }

def takeTagdata (h : WireBlobHeader) (bytes : Bytes) : WireBlobHeader :=
  if bytes = [] then h
  else
    { h with
      tagdata := if h.tagdataPresent then none else some bytes
      tagdataPresent := true }

def takeWaymembers (h : WireBlobHeader) (bytes : Bytes) : WireBlobHeader :=
  if bytes = [] then h else { h with waymembers := some bytes }

def unframeableMsg : String :=
  "BlobHeader type is length-delimited and datasize is a varint; " ++
    "the blob cannot be framed otherwise"

section Parsers

variable (ph : Crate)

/-- One field of a `BlobHeader`. A wrong wire type is refused where the frame rests on the field
and makes an unknown field of the others. -/
def headerField (keep : HeaderFields) : Handler Error WireBlobHeader := fun h field wire cur =>
  if expectedWire field ≠ none ∧ expectedWire field ≠ some wire then
    if field = BlobHeader.type ∨ field = BlobHeader.datasize then
      .error (newWireError unframeableMsg)
    else skip ph.reader h wire cur
  else if field = BlobHeader.type then
    take (ph.readLenDelimited cur) fun bytes =>
      (parseBlobType bytes).map fun kind => { h with blobType := kind }
  else if field = BlobHeader.indexdata ∧ keep.indexdata then
    take (ph.readLenDelimited cur) fun bytes => .ok (takeIndexdata h bytes)
  else if field = BlobHeader.datasize then
    take (readInt32 ph "BlobHeader.datasize exceeds int32" cur) fun n =>
      .ok { h with datasize := n }
  else if field = BlobHeader.tagdata ∧ keep.tagdata then
    take (ph.readLenDelimited cur) fun bytes => .ok (takeTagdata h bytes)
  else if field = BlobHeader.waymembers ∧ keep.waymembers then
    take (ph.readLenDelimited cur) fun bytes => .ok (takeWaymembers h bytes)
  else skip ph.reader h wire cur

/-- `WireBlobHeader::parse`. -/
def parseBlobHeader (keep : HeaderFields) (data : Bytes) : Except Error WireBlobHeader :=
  (walk ph.reader (headerField ph keep) {} data).bind fun h =>
    if h.blobType = .unknown "" then .error (newWireError "BlobHeader has no type field")
    else .ok h

inductive BlobData where
  | raw (payload : Bytes)
  | zlib (payload : Bytes)
  | zstd (payload : Bytes)
  deriving DecidableEq

structure WireBlob where
  data : Option BlobData := none
  rawSize : Option Int32 := none
  deriving DecidableEq

def multiplePayloadFieldsMsg : String :=
  "Blob carries more than one of the mutually exclusive payload fields " ++
    "raw, zlib_data and zstd_data. The three are alternative encodings of " ++
    "one payload, so a blob with two of them has no defined content and is " ++
    "rejected rather than guessed at. Re-fetch or re-encode the file with a " ++
    "conforming writer, and report the bug to whatever produced it."

def takePayload (b : WireBlob) (payload : BlobData) : Except Error WireBlob :=
  if b.data.isSome then .error (newWireError multiplePayloadFieldsMsg)
  else .ok { b with data := some payload }

/-- One field of a `Blob`. The payload fields and `raw_size` are read without a look at their wire
type. -/
def blobField : Handler Error WireBlob := fun b field wire cur =>
  if field = Blob.raw then
    take (ph.readLenDelimited cur) fun bytes => takePayload b (.raw bytes)
  else if field = Blob.zlibData then
    take (ph.readLenDelimited cur) fun bytes => takePayload b (.zlib bytes)
  else if field = Blob.zstdData then
    take (ph.readLenDelimited cur) fun bytes => takePayload b (.zstd bytes)
  else if field = Blob.rawSize then
    take (readInt32 ph "Blob.raw_size exceeds int32" cur) fun n =>
      .ok { b with rawSize := some n }
  else skip ph.reader b wire cur

/-- `WireBlob::parse`. -/
def parseBlob (data : Bytes) : Except Error WireBlob :=
  walk ph.reader (blobField ph) {} data

end Parsers

def rawSizeMsg : String :=
  "Blob raw_size disagrees with the payload that came out of it. " ++
    "raw_size declares the decompressed length, so a mismatch means " ++
    "the payload is truncated, padded, or not what the writer " ++
    "intended, and the block is rejected rather than decoded from a " ++
    "length nothing agrees on. Re-fetch or re-encode the file."

def checkRawSize (declared : Option Int32) (actual : Nat) : Except Error Unit :=
  match declared with
  | some d => if d.toInt ≠ actual then .error (newWireError rawSizeMsg) else .ok ()
  | none => .ok ()

section Shrinks

variable {ph : Crate}

lemma shrinks_headerField (keep : HeaderFields) : Shrinks (headerField ph keep) := by
  intro s f w cur s' rest hh
  unfold headerField at hh
  split at hh
  · split at hh
    · cases hh
    · exact length_le_of_skip (readsField_skip s w hh).1
  split at hh
  · exact length_le_of_skip (readsField_take ph.readsField_len _ hh).1
  split at hh
  · exact length_le_of_skip (readsField_take ph.readsField_len _ hh).1
  split at hh
  · exact length_le_of_skip (readsField_take (readsField_readInt32 _) _ hh).1
  split at hh
  · exact length_le_of_skip (readsField_take ph.readsField_len _ hh).1
  split at hh
  · exact length_le_of_skip (readsField_take ph.readsField_len _ hh).1
  · exact length_le_of_skip (readsField_skip s w hh).1

lemma shrinks_blobField : Shrinks (blobField ph) := by
  intro s f w cur s' rest hh
  unfold blobField at hh
  split at hh
  · exact length_le_of_skip (readsField_take ph.readsField_len _ hh).1
  split at hh
  · exact length_le_of_skip (readsField_take ph.readsField_len _ hh).1
  split at hh
  · exact length_le_of_skip (readsField_take ph.readsField_len _ hh).1
  split at hh
  · exact length_le_of_skip (readsField_take (readsField_readInt32 _) _ hh).1
  · exact length_le_of_skip (readsField_skip s w hh).1

end Shrinks

end BlobWire
