import Pbfhogg.Lib.StreamDecoder
import Pbfhogg.Lib.Turns
import Pbfhogg.Read.BlobWire

/-!
# Decompression of a blob

`read/decompress.rs`: two parsers of the envelope, the inflate loop with its two routes, and the
entry points over them. Which route runs depends on what earlier blobs left of the buffer. The
decoders are parameters.
-/

namespace Decompress

open Protohoggr FieldWalk WireMessages BlobWire StreamDecoder Turns Fallible
open List hiding take

variable {bytes : Bytes}

/-- How decompression fails. -/
inductive Failure (F G : Type)
  | wire (e : Error)
  | empty
  | messageTooBig (size : Nat)
  | zlib (e : F)
  | zlibTruncated (totalIn decompressed : Nat)
  | zstd (e : G)
  | internal (msg : String)

/-- A buffer and the outcome it was left with. -/
abbrev Filled (F G : Type) := Buf × Except (Failure F G) Unit

/-- `DECOMPRESS_EXPANSION_GUESS`. -/
def expansionGuess : Nat := 4

def clampCapacityHint (hint : Nat) : Nat := min hint maxBlobMessageSize

/-- The most one blob may hold, and the byte that shows there is more. -/
def budget : Nat := maxBlobMessageSize + 1

section Zlib

variable (Z : Inflater) {G : Type}

/-- `flate2::Decompress`: the decoder with its totals since the reset. -/
structure Stream where
  state : Z.State
  totalIn : Nat := 0
  totalOut : Nat := 0

/-- One call of the decoder on some room. -/
def Stream.decompress (d : Stream Z) (input : Bytes) (room : Nat) :
    InflateStep (Stream Z) Z.Fault :=
  let r := Z.step d.state input room
  ⟨r.consumed, r.produced, r.status,
    ⟨r.next, d.totalIn + r.consumed, d.totalOut + r.produced.length⟩⟩

/-- `zlib_size_within_cap`. -/
def zlibSizeWithinCap (start stop : Nat) : Except (Failure Z.Fault G) Unit :=
  if maxBlobMessageSize < stop - start then .error (.messageTooBig (stop - start)) else .ok ()

/-- What the loop over the bounded slice holds. -/
structure SliceLoop where
  stream : Stream Z
  input : Bytes
  buf : Buf
  pos : Nat

/-- One turn of `zlib_inflate_into_slice`. -/
def sliceTurn (limit : Nat) (s : SliceLoop Z) :
    Turn (SliceLoop Z) (Buf × Nat × Except (Failure Z.Fault G) Unit) :=
  if limit ≤ s.pos then
    .done (s.buf, s.pos, .error (.messageTooBig (maxBlobMessageSize + 1)))
  else
    let r := s.stream.decompress Z s.input (limit - s.pos)
    let buf := s.buf.overwrite s.pos r.produced
    match r.status with
    | .error e => .done (buf, s.pos, .error (.zlib e))
    | .ok status =>
      let pos := s.pos + r.produced.length
      if status = .streamEnd then .done (buf, pos, .ok ())
      else if r.consumed = 0 ∧ r.produced.length = 0 then
        .done (buf, pos, .error (.zlibTruncated r.next.totalIn r.next.totalOut))
      else .next ⟨r.next, s.input.drop r.consumed, buf, pos⟩

def SliceLoop.measure (limit : Nat) (s : SliceLoop Z) : Nat := s.input.length + (limit - s.pos)

/-- What the loop over the growing vector holds. -/
structure ZlibLoop where
  stream : Stream Z
  input : Bytes
  buf : Buf

def ZlibLoop.measure (limit : Nat) (s : ZlibLoop Z) : Nat := s.input.length + (limit - s.buf.len)

variable {Z}

variable {limit : Nat}

/-- A turn past the check of the bound, by what the decoder did. -/
theorem sliceTurn_cases (s : SliceLoop Z) (hroom : s.pos < limit) :
    ∃ r, s.stream.decompress Z s.input (limit - s.pos) = r ∧
      ((∃ e, r.status = .error e ∧ sliceTurn (G := G) Z limit s =
          .done (s.buf.overwrite s.pos r.produced, s.pos, .error (.zlib e))) ∨
        (r.status = .ok .streamEnd ∧ sliceTurn (G := G) Z limit s =
          .done (s.buf.overwrite s.pos r.produced, s.pos + r.produced.length, .ok ())) ∨
        ∃ status, r.status = .ok status ∧ status ≠ .streamEnd ∧
          ((r.consumed = 0 ∧ r.produced = [] ∧ sliceTurn (G := G) Z limit s =
              .done (s.buf.overwrite s.pos r.produced, s.pos + r.produced.length,
                .error (.zlibTruncated r.next.totalIn r.next.totalOut))) ∨
            ((r.consumed ≠ 0 ∨ r.produced ≠ []) ∧ sliceTurn (G := G) Z limit s =
              .next ⟨r.next, s.input.drop r.consumed, s.buf.overwrite s.pos r.produced,
                s.pos + r.produced.length⟩))) := by
  generalize hr : s.stream.decompress Z s.input (limit - s.pos) = r
  refine ⟨r, rfl, ?_⟩
  have hturn : ¬limit ≤ s.pos := by omega
  unfold sliceTurn
  simp only [if_neg hturn, hr]
  cases hstatus : r.status with
  | error e => exact .inl ⟨e, rfl, rfl⟩
  | ok status =>
    by_cases hend : status = .streamEnd
    · subst hend
      exact .inr (.inl ⟨rfl, rfl⟩)
    · refine .inr (.inr ⟨status, rfl, hend, ?_⟩)
      by_cases hstuck : r.consumed = 0 ∧ r.produced.length = 0
      · refine .inl ⟨hstuck.1, length_eq_zero_iff.mp hstuck.2, ?_⟩
        simp only [if_neg hend, if_pos hstuck]
      · refine .inr ⟨?_, ?_⟩
        · rw [length_eq_zero_iff] at hstuck
          by_cases hconsumed : r.consumed = 0
          · exact .inr fun hnil => hstuck ⟨hconsumed, hnil⟩
          · exact .inl hconsumed
        · simp only [if_neg hend, if_neg hstuck]

lemma sliceTurn_decreases (s s' : SliceLoop Z) (h : sliceTurn (G := G) Z limit s = .next s') :
    s'.measure Z limit < s.measure Z limit := by
  by_cases hroom : s.pos < limit
  · have hin := Z.consumed_le s.stream.state s.input (limit - s.pos)
    have hout := Z.produced_le s.stream.state s.input (limit - s.pos)
    obtain ⟨r, rfl, ⟨e, -, hturn⟩ | ⟨-, hturn⟩ | ⟨status, -, -, ⟨-, -, hturn⟩ | ⟨hmoved, hturn⟩⟩⟩ :=
      sliceTurn_cases (G := G) s hroom
    · rw [hturn] at h
      cases h
    · rw [hturn] at h
      cases h
    · rw [hturn] at h
      cases h
    · rw [hturn] at h
      cases h
      rw [← length_pos_iff] at hmoved
      simp only [SliceLoop.measure, Stream.decompress, length_drop] at hmoved ⊢
      omega
  · rw [sliceTurn, if_pos (by omega)] at h
    cases h

variable (Z)

/-- `zlib_inflate_into_slice`. -/
def zlibInflateIntoSlice (stream : Stream Z) (input : Bytes) (buf : Buf) (pos limit : Nat) :
    Buf × Nat × Except (Failure Z.Fault G) Unit :=
  run (sliceTurn Z limit) (SliceLoop.measure Z limit) sliceTurn_decreases
    ⟨stream, input, buf.resize limit, pos⟩

/-- The room asked for when the vector is full: doubled, but never past the bound. -/
def wanted (limit : Nat) (buf : Buf) : Nat := min (max buf.capacity 4096) (limit - buf.len)

/-- The vector a turn inflates into. -/
def grown (alloc : Alloc) (limit : Nat) (buf : Buf) : Buf :=
  if buf.len = buf.capacity then buf.reserveExact alloc (wanted limit buf) else buf

/-- One turn of the loop of `zlib_decompress_into`. -/
def zlibTurn (alloc : Alloc) (start limit : Nat) (s : ZlibLoop Z) :
    Turn (ZlibLoop Z) (Filled Z.Fault G) :=
  if limit ≤ s.buf.len then
    .done (s.buf.truncate limit, .error (.messageTooBig (maxBlobMessageSize + 1)))
  else
    let buf := grown alloc limit s.buf
    if limit < buf.capacity then
      let (buf, pos, result) := zlibInflateIntoSlice Z s.stream s.input buf buf.len limit
      .done (buf.truncate pos, result.bind fun _ => zlibSizeWithinCap Z start pos)
    else
      let r := s.stream.decompress Z s.input buf.spare
      let filled := buf.write r.produced
      match r.status with
      | .error e => .done (filled, .error (.zlib e))
      | .ok status =>
        if status = .streamEnd then .done (filled, zlibSizeWithinCap Z start filled.len)
        else if r.consumed = 0 ∧ filled.len = buf.len then
          .done (filled, .error (.zlibTruncated r.next.totalIn (filled.len - start)))
        else .next ⟨r.next, s.input.drop r.consumed, filled⟩

variable {Z}

@[simp] lemma grown_content (alloc : Alloc) (limit : Nat) (buf : Buf) :
    (grown alloc limit buf).content = buf.content := by
  unfold grown
  split
  · exact Buf.reserveExact_content _ _ _
  · rfl

@[simp] lemma grown_len (alloc : Alloc) (limit : Nat) (buf : Buf) :
    (grown alloc limit buf).len = buf.len := by
  rw [Buf.len, grown_content, Buf.len]

variable {alloc : Alloc}

/-- Below the limit there is room to inflate into. -/
theorem spare_grown_pos {buf : Buf} (h : buf.len < limit) :
    0 < (grown alloc limit buf).spare := by
  have hfits := buf.fits
  unfold Buf.spare
  rw [grown_len]
  unfold grown
  split
  · have hroom := Buf.le_reserveExact alloc buf (wanted limit buf)
    have hwanted : 0 < wanted limit buf := by
      unfold wanted
      omega
    omega
  · next hnot =>
    unfold Buf.len at hnot ⊢
    omega

/-- A turn past the checks of the bound, by what the decoder did. -/
theorem zlibTurn_cases {start limit : Nat} (s : ZlibLoop Z) (hroom : s.buf.len < limit)
    (hcap : (grown alloc limit s.buf).capacity ≤ limit) :
    ∃ r, s.stream.decompress Z s.input (grown alloc limit s.buf).spare = r ∧
      ((∃ e, r.status = .error e ∧ zlibTurn (G := G) Z alloc start limit s =
          .done ((grown alloc limit s.buf).write r.produced, .error (.zlib e))) ∨
        (r.status = .ok .streamEnd ∧ zlibTurn (G := G) Z alloc start limit s =
          .done ((grown alloc limit s.buf).write r.produced,
            zlibSizeWithinCap Z start (s.buf.len + r.produced.length))) ∨
        ∃ status, r.status = .ok status ∧ status ≠ .streamEnd ∧
          ((r.consumed = 0 ∧ r.produced = [] ∧ zlibTurn (G := G) Z alloc start limit s =
              .done ((grown alloc limit s.buf).write r.produced,
                .error (.zlibTruncated r.next.totalIn (s.buf.len + r.produced.length - start)))) ∨
            ((r.consumed ≠ 0 ∨ r.produced ≠ []) ∧ zlibTurn (G := G) Z alloc start limit s =
              .next ⟨r.next, s.input.drop r.consumed,
                (grown alloc limit s.buf).write r.produced⟩))) := by
  generalize hr : s.stream.decompress Z s.input (grown alloc limit s.buf).spare = r
  refine ⟨r, rfl, ?_⟩
  have hroom' : ¬limit ≤ s.buf.len := by omega
  have hcap' : ¬limit < (grown alloc limit s.buf).capacity := by omega
  unfold zlibTurn
  simp only [if_neg hroom', if_neg hcap', hr, Buf.write_len, grown_len]
  cases hstatus : r.status with
  | error e => exact .inl ⟨e, rfl, rfl⟩
  | ok status =>
    by_cases hend : status = .streamEnd
    · subst hend
      exact .inr (.inl ⟨rfl, rfl⟩)
    · refine .inr (.inr ⟨status, rfl, hend, ?_⟩)
      by_cases hstuck : r.consumed = 0 ∧ s.buf.len + r.produced.length = s.buf.len
      · refine .inl ⟨hstuck.1, length_eq_zero_iff.mp (by omega), ?_⟩
        simp only [if_neg hend, if_pos hstuck]
      · refine .inr ⟨?_, ?_⟩
        · by_cases hconsumed : r.consumed = 0
          · exact .inr fun hnil => hstuck ⟨hconsumed, by rw [hnil]; rfl⟩
          · exact .inl hconsumed
        · simp only [if_neg hend, if_neg hstuck]

lemma zlibTurn_too_big {start : Nat} {s : ZlibLoop Z} (h : limit ≤ s.buf.len) :
    zlibTurn (G := G) Z alloc start limit s =
      .done (s.buf.truncate limit, .error (.messageTooBig (maxBlobMessageSize + 1))) := by
  rw [zlibTurn, if_pos h]

/-- The turn that goes over to the bounded slice. -/
theorem zlibTurn_slice {start limit : Nat} {s : ZlibLoop Z} (hroom : s.buf.len < limit)
    (hcap : limit < (grown alloc limit s.buf).capacity) :
    ∃ buf pos result, zlibInflateIntoSlice (G := G) Z s.stream s.input (grown alloc limit s.buf)
        s.buf.len limit = (buf, pos, result) ∧
      zlibTurn Z alloc start limit s =
        .done (buf.truncate pos, result.bind fun _ => zlibSizeWithinCap Z start pos) := by
  have hroom' : ¬limit ≤ s.buf.len := by omega
  rcases hslice : zlibInflateIntoSlice (G := G) Z s.stream s.input (grown alloc limit s.buf)
    s.buf.len limit with ⟨buf, pos, result⟩
  refine ⟨buf, pos, result, rfl, ?_⟩
  unfold zlibTurn
  simp only [if_neg hroom', if_pos hcap, grown_len, hslice]

lemma zlibTurn_decreases {start : Nat} (s s' : ZlibLoop Z)
    (h : zlibTurn (G := G) Z alloc start limit s = .next s') :
    s'.measure Z limit < s.measure Z limit := by
  by_cases hroom : s.buf.len < limit
  · by_cases hcap : (grown alloc limit s.buf).capacity ≤ limit
    · have hin := Z.consumed_le s.stream.state s.input (grown alloc limit s.buf).spare
      have hout := Z.produced_le s.stream.state s.input (grown alloc limit s.buf).spare
      obtain ⟨r, rfl, ⟨e, -, hturn⟩ | ⟨-, hturn⟩ |
        ⟨status, -, -, ⟨-, -, hturn⟩ | ⟨hmoved, hturn⟩⟩⟩ :=
          @zlibTurn_cases Z G alloc start limit s hroom hcap
      · rw [hturn] at h
        cases h
      · rw [hturn] at h
        cases h
      · rw [hturn] at h
        cases h
      · rw [hturn] at h
        cases h
        rw [← length_pos_iff] at hmoved
        have hspare : (grown alloc limit s.buf).spare =
            (grown alloc limit s.buf).capacity - s.buf.len := by rw [Buf.spare, grown_len]
        simp only [ZlibLoop.measure, Stream.decompress, length_drop, Buf.write_len,
          grown_len] at hmoved ⊢
        omega
    · have hslice : limit < (grown alloc limit s.buf).capacity := by omega
      obtain ⟨buf, pos, result, -, hturn⟩ := @zlibTurn_slice Z G alloc start limit s hroom hslice
      rw [hturn] at h
      cases h
  · rw [zlibTurn_too_big (by omega)] at h
    cases h

variable (Z)

/-- `zlib_decompress_into`. -/
def zlibDecompressInto (alloc : Alloc) (compressed : Bytes) (buf : Buf) :
    Filled Z.Fault G :=
  if 2 ^ 64 ≤ buf.len + budget then
    (buf, .error (.internal "zlib destination offset overflows usize"))
  else
    run (zlibTurn Z alloc buf.len (buf.len + budget)) (ZlibLoop.measure Z (buf.len + budget))
      zlibTurn_decreases ⟨⟨Z.fresh, 0, 0⟩, compressed, buf⟩

end Zlib

section Zstd

variable (S : Reader) {F : Type}

/-- What `read_to_end` behind a `take` holds. -/
structure ReadLoop where
  reader : S.State
  remaining : Nat
  buf : Buf

/-- One read of `read_to_end`, into some room of its own choice. -/
def readTurn (room : Buf → Nat) (alloc : Alloc) (s : ReadLoop S) :
    Turn (ReadLoop S) (Filled F S.Fault) :=
  if s.remaining = 0 then .done (s.buf, .ok ())
  else
    match S.read s.reader (min (room s.buf + 1) s.remaining) with
    | .error e => .done (s.buf, .error (.zstd e))
    | .ok ([], _) => .done (s.buf, .ok ())
    | .ok (b :: bytes, reader) =>
      .next ⟨reader, s.remaining - (b :: bytes).length, s.buf.extendFromSlice alloc (b :: bytes)⟩

variable {S}

lemma readTurn_decreases {room : Buf → Nat} {alloc : Alloc} (s s' : ReadLoop S)
    (h : readTurn (F := F) S room alloc s = .next s') : s'.remaining < s.remaining := by
  unfold readTurn at h
  split at h
  · cases h
  · next hsome =>
    split at h
    · cases h
    · cases h
    · cases h
      simp only [length_cons]
      omega

variable (S)

/-- `zstd_decompress_into`. -/
def zstdDecompressInto (room : Buf → Nat) (alloc : Alloc) (compressed : Bytes) (buf : Buf) :
    Filled F S.Fault :=
  match S.new compressed with
  | .error e => (buf, .error (.zstd e))
  | .ok reader =>
    let (filled, result) :=
      run (readTurn S room alloc) ReadLoop.remaining readTurn_decreases ⟨reader, budget, buf⟩
    (filled, result.bind fun _ =>
      if maxBlobMessageSize < filled.len - buf.len then
        .error (.messageTooBig (filled.len - buf.len))
      else .ok ())

end Zstd

/-- The decoders, and what a run of a helper chooses for itself. -/
structure Decoders where
  zlib : Inflater
  zstd : Reader

structure Choices where
  alloc : Alloc
  room : Buf → Nat

section Entry

variable (ph : Crate) (D : Decoders)

abbrev Failed (D : Decoders) : Type := Failure D.zlib.Fault D.zstd.Fault

/-- What an entry point leaves in its buffer. -/
abbrev Decoded (D : Decoders) : Type := Filled D.zlib.Fault D.zstd.Fault

/-- The payload of a raw envelope, by its field, and the declared size. -/
structure RawEnvelope where
  payload : Option (Nat × Bytes) := none
  rawSize : Option Int32 := none

def rawEnvelopeField : Handler Error RawEnvelope := fun s field wire cur =>
  if field = Blob.raw ∨ field = Blob.zlibData ∨ field = Blob.zstdData then
    take (ph.readLenDelimited cur) fun slice =>
      if s.payload.isSome then .error (newWireError multiplePayloadFieldsMsg)
      else .ok { s with payload := some (field, slice) }
  else if field = Blob.rawSize then
    take (readInt32 ph "Blob.raw_size exceeds int32" cur) fun n =>
      .ok { s with rawSize := some n }
  else skip ph.reader s wire cur

/-- `parse_raw_envelope`. -/
def parseRawEnvelope (rawBlob : Bytes) : Except Error RawEnvelope :=
  walk ph.reader (rawEnvelopeField ph) {} rawBlob

/-- `WireBlob::estimated_capacity`. -/
def estimatedCapacity (blob : WireBlob) : Nat :=
  min (max (blob.rawSize.getD 0).toInt 0).toNat maxBlobMessageSize

def checkSize (rawSize : Option Int32) (buf : Buf) : Decoded D :=
  (buf, (checkRawSize rawSize buf.len).mapError .wire)

/-- `?` between two steps on one buffer. -/
def andThen {D : Decoders} (r : Decoded D) (k : Buf → Decoded D) : Decoded D :=
  match r.2 with
  | .ok _ => k r.1
  | .error e => (r.1, .error e)

/-- A payload that is not compressed. -/
def copyRaw (c : Choices) (bytes : Bytes) (buf : Buf) : Decoded D :=
  if maxBlobMessageSize < bytes.length then (buf, .error (.messageTooBig bytes.length))
  else ((buf.reserveExact c.alloc bytes.length).extendFromSlice c.alloc bytes, .ok ())

/-- `decompress_blob_raw`. -/
def decompressBlobRaw (c : Choices) (rawBlob : Bytes) (buf : Buf) : Decoded D :=
  match parseRawEnvelope ph rawBlob with
  | .error e => (buf.clear, .error (.wire e))
  | .ok envelope =>
    match envelope.payload with
    | none => (buf.clear, .error .empty)
    | some (field, slice) =>
      if field = Blob.raw then
        andThen (copyRaw D c slice buf.clear) (checkSize D envelope.rawSize)
      else
        let buf := match envelope.rawSize with
          | some rs =>
            if 0 < rs.toInt then
              buf.clear.reserveExact c.alloc (clampCapacityHint rs.toInt.toNat)
            else buf.clear
          | none => buf.clear
        if field = Blob.zlibData then
          andThen (zlibDecompressInto D.zlib c.alloc slice buf) (checkSize D envelope.rawSize)
        else
          andThen (zstdDecompressInto D.zstd c.room c.alloc slice buf)
            (checkSize D envelope.rawSize)

/-- The buffer with the declared size reserved, if there is one. -/
def withCapacity (c : Choices) (blob : WireBlob) (buf : Buf) : Buf :=
  if 0 < estimatedCapacity blob then buf.reserveExact c.alloc (estimatedCapacity blob) else buf

/-- `decompress_parsed_blob_body`. -/
def decompressParsedBlobBody (c : Choices) (blob : WireBlob) (buf : Buf) : Decoded D :=
  match blob.data with
  | some (.raw bytes) => copyRaw D c bytes buf.clear
  | some (.zlib bytes) => zlibDecompressInto D.zlib c.alloc bytes (withCapacity c blob buf.clear)
  | some (.zstd bytes) =>
    zstdDecompressInto D.zstd c.room c.alloc bytes (withCapacity c blob buf.clear)
  | none => (buf.clear, .error .empty)

/-- `decompress_parsed_blob_into`. -/
def decompressParsedBlobInto (c : Choices) (blob : WireBlob) (buf : Buf) : Decoded D :=
  andThen (decompressParsedBlobBody D c blob buf) (checkSize D blob.rawSize)

/-- `decompress_blob_data_into`. -/
def decompressBlobDataInto (c : Choices) (blobBytes : Bytes) (buf : Buf) : Decoded D :=
  match parseBlob ph blobBytes with
  | .error e => (buf, .error (.wire e))
  | .ok blob => decompressParsedBlobInto D c blob buf

/-- `decompress_wire_blob_into`. -/
def decompressWireBlobInto (c : Choices) (blob : WireBlob) (buf : Buf) : Decoded D :=
  match blob.data with
  | some (.raw bytes) => andThen (copyRaw D c bytes buf.clear) (checkSize D blob.rawSize)
  | some (.zlib bytes) =>
    andThen (zlibDecompressInto D.zlib c.alloc bytes (withCapacity c blob buf.clear))
      (checkSize D blob.rawSize)
  | some (.zstd bytes) =>
    andThen (zstdDecompressInto D.zstd c.room c.alloc bytes (withCapacity c blob buf.clear))
      (checkSize D blob.rawSize)
  | none => (buf.clear, .error .empty)

/-- `pool_get`: a recycled buffer comes back empty, with the capacity it had. -/
def poolGet (c : Choices) (pool : Option Nat) (capacity : Nat) : Buf :=
  match pool with
  | some recycled => (⟨[], recycled, Nat.zero_le _⟩ : Buf).reserveExact c.alloc capacity
  | none => ({} : Buf).reserveExact c.alloc capacity

/-- The room a blob without a declared size is given. -/
def poolCapacity (blob : WireBlob) (bytes : Bytes) : Nat :=
  if 0 < estimatedCapacity blob then estimatedCapacity blob
  else clampCapacityHint (min (bytes.length * expansionGuess) (2 ^ 64 - 1))

/-- `decompress_blob_body`. -/
def decompressBlobBody (c : Choices) (pool : Option Nat) (blob : WireBlob) :
    Except (Failed D) Bytes :=
  match blob.data with
  | some (.raw bytes) =>
    if maxBlobMessageSize < bytes.length then .error (.messageTooBig bytes.length) else .ok bytes
  | some (.zlib bytes) =>
    let r := zlibDecompressInto D.zlib c.alloc bytes (poolGet c pool (poolCapacity blob bytes))
    r.2.map fun _ => r.1.content
  | some (.zstd bytes) =>
    let r := zstdDecompressInto D.zstd c.room c.alloc bytes
      (poolGet c pool (poolCapacity blob bytes))
    r.2.map fun _ => r.1.content
  | none => .error .empty

/-- `decompress_blob`. -/
def decompressBlob (c : Choices) (pool : Option Nat) (blob : WireBlob) :
    Except (Failed D) Bytes := do
  let decoded ← decompressBlobBody D c pool blob
  (checkRawSize blob.rawSize decoded.length).mapError .wire
  return decoded

/-- A blob given as bytes, parsed and then decompressed. -/
def parsedThen {α : Type} (blobBytes : Bytes) (k : WireBlob → Option α) : Option α :=
  (parseBlob ph blobBytes).toOption.bind k

end Entry

section Inflated

variable {Z : Inflater} {G : Type}

/-- The content of an accepted buffer. -/
def accepted {F : Type} (r : Filled F G) : Option Bytes :=
  match r.2 with
  | .ok _ => some r.1.content
  | .error _ => none

/-- What a stream comes to under the cap. -/
def capped (whole : Bytes × Verdict) : Option Bytes :=
  if whole.2 = .ended ∧ whole.1.length ≤ maxBlobMessageSize then some whole.1 else none

/-- What a zlib stream decodes to. -/
def inflated (Z : Inflater) (compressed : Bytes) : Option Bytes :=
  capped (Z.rest Z.fresh compressed)

variable {whole : Bytes × Verdict} {front : Bytes}

lemma capped_eq_none (h : whole.2 = .ended → maxBlobMessageSize < whole.1.length) :
    capped whole = none := by
  refine if_neg ?_
  rintro ⟨hend, hlen⟩
  have hbig := h hend
  omega

/-- The bytes `done` are out, and the stream's rest is the decoder's. -/
structure Underway (whole : Bytes × Verdict) (done : Bytes) (stream : Stream Z)
    (input : Bytes) : Prop where
  out : whole.1 = done ++ (Z.rest stream.state input).1
  verdict : whole.2 = (Z.rest stream.state input).2

/-- What one call of the decoder makes of a stream underway. -/
structure Called (whole : Bytes × Verdict) (done : Bytes) (stream : Stream Z)
    (input : Bytes) (room : Nat) : Prop where
  fault : ∀ e, (stream.decompress Z input room).status = .error e → whole.2 ≠ .ended
  ended : (stream.decompress Z input room).status = .ok .streamEnd →
    whole = (done ++ (stream.decompress Z input room).produced, .ended)
  next : ∀ status, (stream.decompress Z input room).status = .ok status → status ≠ .streamEnd →
    Underway whole (done ++ (stream.decompress Z input room).produced)
      (stream.decompress Z input room).next
      (input.drop (stream.decompress Z input room).consumed)
  stuck : ∀ status, 0 < room → (stream.decompress Z input room).status = .ok status →
    status ≠ .streamEnd → (stream.decompress Z input room).consumed = 0 →
    (stream.decompress Z input room).produced = [] → whole.2 ≠ .ended

lemma Underway.called {done : Bytes} {stream : Stream Z} {input : Bytes}
    (h : Underway whole done stream input) (room : Nat) : Called whole done stream input room := by
  constructor
  · intro e hfault
    rw [h.verdict, Z.step_fault hfault]
    decide
  · intro hend
    have hrest := Z.step_end hend
    refine Prod.ext ?_ ?_
    · rw [h.out, hrest]
      rfl
    · rw [h.verdict, hrest]
  · intro status hstatus hne
    have hrest := Z.step_next hstatus hne
    constructor
    · rw [h.out, hrest, append_assoc]
      rfl
    · rw [h.verdict, hrest]
      rfl
  · intro status hroom hstatus hne hconsumed hproduced
    rw [h.verdict, Z.step_stuck hroom hstatus hne hconsumed hproduced]
    decide

/-- The loop over the bounded slice, behind `front`. -/
structure SliceInv (front : Bytes) (whole : Bytes × Verdict) (limit : Nat)
    (s : SliceLoop Z) : Prop where
  len : s.buf.len = limit
  pos_le : s.pos ≤ limit
  underway : ∃ done, s.buf.content.take s.pos = front ++ done ∧
    Underway whole done s.stream s.input

/-- How the loop over the bounded slice ends. -/
structure SliceOut (front : Bytes) (whole : Bytes × Verdict) (limit : Nat)
    (r : Buf × Nat × Except (Failure Z.Fault G) Unit) : Prop where
  len : r.1.len = limit
  pos_le : r.2.1 ≤ limit
  ok : r.2.2 = .ok () → whole.2 = .ended ∧ r.1.content.take r.2.1 = front ++ whole.1
  error : ∀ e, r.2.2 = .error e → whole.2 = .ended → limit ≤ front.length + whole.1.length

lemma SliceInv.turn {limit : Nat} {s : SliceLoop Z} (h : SliceInv front whole limit s) :
    (∃ s', sliceTurn (G := G) Z limit s = .next s' ∧ SliceInv front whole limit s') ∨
      ∃ r, sliceTurn (G := G) Z limit s = .done r ∧ SliceOut front whole limit r := by
  obtain ⟨hlen, hpos, done, hdone, hunderway⟩ := h
  by_cases hroom : s.pos < limit
  · have hin := Z.produced_le s.stream.state s.input (limit - s.pos)
    have hcalled := hunderway.called (limit - s.pos)
    have hfit : s.pos + (s.stream.decompress Z s.input (limit - s.pos)).produced.length ≤
        s.buf.len := by
      simp only [Stream.decompress]
      omega
    have hout := hfit
    rw [hlen] at hout
    have hkept := Buf.overwrite_len hfit
    have htaken := @Buf.overwrite_take s.buf s.pos
      (s.stream.decompress Z s.input (limit - s.pos)).produced (by omega)
    rw [hdone] at htaken
    obtain ⟨r, rfl, ⟨e, hstatus, hturn⟩ | ⟨hstatus, hturn⟩ |
      ⟨status, hstatus, hne, ⟨hconsumed, hproduced, hturn⟩ | ⟨-, hturn⟩⟩⟩ :=
        sliceTurn_cases (G := G) s hroom
    · refine .inr ⟨_, hturn, hkept.trans hlen, hpos, nofun, ?_⟩
      intro _ _ hend
      exact absurd hend (hcalled.fault e hstatus)
    · have hwhole := hcalled.ended hstatus
      refine .inr ⟨_, hturn, hkept.trans hlen, hout, ?_, nofun⟩
      intro _
      rw [hwhole]
      refine ⟨rfl, ?_⟩
      rw [htaken, append_assoc]
    · refine .inr ⟨_, hturn, hkept.trans hlen, hout, nofun, ?_⟩
      intro _ _ hend
      exact absurd hend (hcalled.stuck status (by omega) hstatus hne hconsumed hproduced)
    · refine .inl ⟨_, hturn, hkept.trans hlen, hout, _, ?_, hcalled.next status hstatus hne⟩
      rw [htaken, append_assoc]
  · have hturn : sliceTurn (G := G) Z limit s =
        .done (s.buf, s.pos, .error (.messageTooBig (maxBlobMessageSize + 1))) := by
      rw [sliceTurn, if_pos (by omega)]
    refine .inr ⟨_, hturn, hlen, hpos, nofun, ?_⟩
    intro _ _ _
    have hlength := congrArg length hdone
    rw [length_take, length_append] at hlength
    rw [hunderway.out, length_append]
    unfold Buf.len at hlen
    omega

lemma slice_leads (front : Bytes) (whole : Bytes × Verdict) (limit : Nat) :
    Leads (sliceTurn (G := G) Z limit) (SliceInv front whole limit) (SliceOut front whole limit) :=
  fun _ h => h.turn

lemma zlibInflateIntoSlice_spec {front : Bytes} {whole : Bytes × Verdict}
    {limit pos : Nat} {stream : Stream Z} {input : Bytes} {buf : Buf}
    (h : SliceInv front whole limit ⟨stream, input, buf.resize limit, pos⟩) :
    SliceOut front whole limit (zlibInflateIntoSlice (G := G) Z stream input buf pos limit) :=
  (slice_leads front whole limit).run h

/-- The loop over the growing vector, behind `front`. -/
structure ZlibInv (front : Bytes) (whole : Bytes × Verdict) (s : ZlibLoop Z) :
    Prop where
  underway : ∃ done, s.buf.content = front ++ done ∧ Underway whole done s.stream s.input
  len_le : s.buf.len ≤ front.length + budget

/-- How the inflate loop ends. -/
structure ZlibOut (front : Bytes) (whole : Bytes × Verdict)
    (r : Filled Z.Fault G) : Prop where
  accepted : accepted r = (capped whole).map (front ++ ·)
  len_le : r.1.len ≤ front.length + budget

lemma accepted_sizeWithinCap {out : Bytes} {start stop : Nat} {buf : Buf}
    (hcontent : buf.content = front ++ out) (hstart : start = front.length)
    (hstop : stop = front.length + out.length) :
    accepted (buf, zlibSizeWithinCap (G := G) Z start stop) =
      (capped (out, .ended)).map (front ++ ·) := by
  have hsize : stop - start = out.length := by omega
  unfold zlibSizeWithinCap capped
  rw [hsize]
  by_cases hbig : maxBlobMessageSize < out.length
  · rw [if_pos hbig, if_neg (by simp; omega)]
    rfl
  · rw [if_neg hbig, if_pos ⟨rfl, Nat.le_of_not_lt hbig⟩]
    exact congrArg some hcontent

/-- The way over the bounded slice comes to what the stream comes to. -/
theorem sliceWay_spec {alloc : Alloc} {s : ZlibLoop Z} (h : ZlibInv front whole s)
    (hroom : s.buf.len < front.length + budget)
    (hcap : front.length + budget < (grown alloc (front.length + budget) s.buf).capacity) :
    ∃ r, zlibTurn (G := G) Z alloc front.length (front.length + budget) s = .done r ∧
      ZlibOut front whole r := by
  obtain ⟨done, hdone, hunderway⟩ := h.underway
  obtain ⟨buf, pos, result, hslice, hturn⟩ := @zlibTurn_slice Z G alloc front.length _ s hroom hcap
  have hlen := grown_len alloc (front.length + budget) s.buf
  have hinv : SliceInv front whole (front.length + budget)
      ⟨s.stream, s.input, (grown alloc (front.length + budget) s.buf).resize
        (front.length + budget), s.buf.len⟩ := by
    refine ⟨Buf.resize_len, hroom.le, done, ?_, hunderway⟩
    have htake := @Buf.resize_take (grown alloc (front.length + budget) s.buf)
      (front.length + budget) (by omega)
    rw [hlen, grown_content, hdone] at htake
    exact htake
  have hout := @zlibInflateIntoSlice_spec Z G _ _ _ _ _ _ _ hinv
  rw [hslice] at hout
  refine ⟨_, hturn, ?_, ?_⟩
  · cases result with
    | error e =>
      have hbig := hout.error e rfl
      rw [capped_eq_none fun hend => by
        have := hbig hend
        unfold budget at this
        omega]
      rfl
    | ok u =>
      obtain ⟨hend, htaken⟩ := hout.ok rfl
      have hlength := congrArg length htaken
      have hpos : pos ≤ buf.content.length := hout.pos_le.trans hout.len.ge
      rw [length_take, length_append, Nat.min_eq_left hpos] at hlength
      have hwhole : whole = (whole.1, .ended) := Prod.ext rfl hend
      rw [hwhole]
      exact accepted_sizeWithinCap htaken rfl hlength
  · have hle := Buf.truncate_content buf pos
    have hlen' : (buf.truncate pos).len ≤ buf.len := by
      rw [Buf.len, hle, Buf.len, length_take]
      omega
    exact hlen'.trans hout.len.le

lemma ZlibInv.turn {alloc : Alloc} {s : ZlibLoop Z} (h : ZlibInv front whole s) :
    (∃ s', zlibTurn (G := G) Z alloc front.length (front.length + budget) s = .next s' ∧
        ZlibInv front whole s') ∨
      ∃ r, zlibTurn (G := G) Z alloc front.length (front.length + budget) s = .done r ∧
        ZlibOut front whole r := by
  obtain ⟨done, hdone, hunderway⟩ := h.underway
  by_cases hroom : s.buf.len < front.length + budget
  · by_cases hcap : (grown alloc (front.length + budget) s.buf).capacity ≤ front.length + budget
    · generalize hbuf : grown alloc (front.length + budget) s.buf = buf at hcap
      have hcontent : buf.content = front ++ done := by
        rw [← hbuf, grown_content, hdone]
      have hlen : buf.len = s.buf.len := by rw [← hbuf, grown_len]
      have hspare : 0 < buf.spare := by
        rw [← hbuf]
        exact spare_grown_pos hroom
      have hcalled := hunderway.called buf.spare
      have hfits : (buf.write (s.stream.decompress Z s.input buf.spare).produced).len ≤
          front.length + budget := by
        have hout := Z.produced_le s.stream.state s.input buf.spare
        rw [Buf.write_len]
        unfold Buf.spare at hout ⊢
        simp only [Stream.decompress]
        omega
      have hwritten : (buf.write (s.stream.decompress Z s.input buf.spare).produced).content =
          front ++ (done ++ (s.stream.decompress Z s.input buf.spare).produced) := by
        rw [Buf.write_content, hcontent, append_assoc]
      have hcases := @zlibTurn_cases Z G alloc front.length (front.length + budget) s hroom
        (hbuf ▸ hcap)
      rw [hbuf] at hcases
      obtain ⟨r, rfl, ⟨e, hstatus, hturn⟩ | ⟨hstatus, hturn⟩ |
        ⟨status, hstatus, hne, ⟨hconsumed, hproduced, hturn⟩ | ⟨-, hturn⟩⟩⟩ := hcases
      · refine .inr ⟨_, hturn, ?_, hfits⟩
        rw [capped_eq_none fun hend => absurd hend (hcalled.fault e hstatus)]
        rfl
      · refine .inr ⟨_, hturn, ?_, hfits⟩
        rw [hcalled.ended hstatus]
        refine accepted_sizeWithinCap hwritten rfl ?_
        have hlength := congrArg length hwritten
        rw [Buf.write_content, length_append, length_append] at hlength
        unfold Buf.len at hlen
        unfold Buf.len
        omega
      · refine .inr ⟨_, hturn, ?_, hfits⟩
        rw [capped_eq_none fun hend =>
          absurd hend (hcalled.stuck status hspare hstatus hne hconsumed hproduced)]
        rfl
      · exact .inl ⟨_, hturn, ⟨_, hwritten, hcalled.next status hstatus hne⟩, hfits⟩
    · exact .inr (sliceWay_spec h hroom (by omega))
  · refine .inr ⟨_, zlibTurn_too_big (by omega), ?_, ?_⟩
    · have hlength := congrArg length hdone
      rw [length_append] at hlength
      rw [capped_eq_none fun _ => by
        rw [hunderway.out, length_append]
        unfold Buf.len budget at hroom
        omega]
      rfl
    · rw [Buf.len, Buf.truncate_content, length_take]
      omega

lemma zlib_leads (alloc : Alloc) (front : Bytes) (whole : Bytes × Verdict) :
    Leads (zlibTurn (G := G) Z alloc front.length (front.length + budget)) (ZlibInv front whole)
      (ZlibOut front whole) :=
  fun _ h => h.turn

/-- Whatever the buffer holds and has room for, the inflate loop comes to what the stream comes to,
behind what the buffer holds. -/
theorem zlibDecompressInto_spec {alloc : Alloc} {compressed : Bytes} {buf : Buf}
    (hfits : buf.len + budget < 2 ^ 64) : ZlibOut buf.content (Z.rest Z.fresh compressed)
      (zlibDecompressInto (G := G) Z alloc compressed buf) := by
  rw [zlibDecompressInto, if_neg (by omega)]
  have hstart : ZlibInv buf.content (Z.rest Z.fresh compressed)
      (⟨⟨Z.fresh, 0, 0⟩, compressed, buf⟩ : ZlibLoop Z) :=
    ⟨⟨[], (append_nil _).symm, ⟨rfl, rfl⟩⟩, Nat.le_add_right _ _⟩
  exact (zlib_leads alloc buf.content _).run hstart

end Inflated

section Unzstd

variable {S : Reader} {F : Type}

/-- What a zstd stream decodes to. -/
def unzstd (S : Reader) (compressed : Bytes) : Option Bytes :=
  match S.new compressed with
  | .error _ => none
  | .ok reader =>
    if (S.rest reader).2 = true ∧ (S.rest reader).1.length ≤ maxBlobMessageSize then
      some (S.rest reader).1
    else none

/-- The bytes `done` are read, and the stream's rest is the reader's. -/
structure ReadInv (front : Bytes) (whole : Bytes × Bool) (s : ReadLoop S) : Prop where
  underway : ∃ done, s.buf.content = front ++ done ∧ whole.1 = done ++ (S.rest s.reader).1 ∧
    done.length + s.remaining = budget
  ends : whole.2 = (S.rest s.reader).2

/-- How reading to the end of the take ends. -/
structure ReadOut (front : Bytes) (whole : Bytes × Bool) (r : Filled F S.Fault) :
    Prop where
  ok : r.2 = .ok () →
    (whole.2 = true ∧ r.1.content = front ++ whole.1 ∧ whole.1.length ≤ maxBlobMessageSize) ∨
      (maxBlobMessageSize < whole.1.length ∧ r.1.len = front.length + budget)
  error : ∀ e, r.2 = .error e → whole.2 = false

lemma read_leads (room : Buf → Nat) (alloc : Alloc) (front : Bytes)
    (whole : Bytes × Bool) :
    Leads (readTurn (F := F) S room alloc) (ReadInv front whole) (ReadOut front whole) := by
  rintro s ⟨⟨done, hdone, hout, hcount⟩, hends⟩
  have hlength := congrArg length hdone
  have hwhole := congrArg length hout
  rw [length_append] at hlength hwhole
  by_cases hzero : s.remaining = 0
  · have hfull : s.buf.len = front.length + budget := by
      unfold Buf.len
      omega
    refine .inr ⟨_, if_pos hzero, fun _ => .inr ⟨?_, hfull⟩, nofun⟩
    unfold budget at hcount
    omega
  · unfold readTurn
    simp only [if_neg hzero]
    cases hread : S.read s.reader (min (room s.buf + 1) s.remaining) with
    | error e =>
      refine .inr ⟨_, rfl, nofun, fun _ _ => ?_⟩
      rw [hends, S.read_fault hread]
    | ok p =>
      obtain ⟨bytes, reader⟩ := p
      cases bytes with
      | nil =>
        have heof := S.read_eof (by omega) hread
        rw [heof] at hout hends hwhole
        refine .inr ⟨_, rfl, fun _ => .inl ⟨hends, ?_, ?_⟩, nofun⟩
        · rw [hdone, hout, append_nil]
        · unfold budget at hcount
          simp only [length_nil] at hwhole
          omega
      | cons b bytes =>
        have hle := S.read_le hread
        have hnext := S.read_next hread
        refine .inl ⟨_, rfl, ⟨done ++ b :: bytes, ?_, ?_, ?_⟩, ?_⟩
        · rw [Buf.extendFromSlice_content, hdone, append_assoc]
        · rw [hout, hnext, append_assoc]
        · change (done ++ b :: bytes).length + (s.remaining - (b :: bytes).length) = budget
          rw [length_append]
          omega
        · rw [hends, hnext]

lemma zstdDecompressInto_spec {room : Buf → Nat} {alloc : Alloc} {compressed : Bytes}
    {buf : Buf} : accepted (zstdDecompressInto (F := F) S room alloc compressed buf) =
      (unzstd S compressed).map (buf.content ++ ·) := by
  unfold zstdDecompressInto unzstd
  cases hnew : S.new compressed with
  | error e => rfl
  | ok reader =>
    have hstart : ReadInv buf.content (S.rest reader) (⟨reader, budget, buf⟩ : ReadLoop S) :=
      ⟨⟨[], (append_nil _).symm, rfl, Nat.zero_add _⟩, rfl⟩
    have hout : ReadOut buf.content (S.rest reader) (run (readTurn (F := F) S room alloc)
        ReadLoop.remaining readTurn_decreases ⟨reader, budget, buf⟩) :=
      (read_leads room alloc buf.content (S.rest reader)).run hstart
    generalize hrun : run (readTurn (F := F) S room alloc) ReadLoop.remaining readTurn_decreases
      ⟨reader, budget, buf⟩ = out at hout
    obtain ⟨filled, result⟩ := out
    simp only [hrun]
    cases result with
    | error e =>
      have hbad : (S.rest reader).2 = false := hout.error e rfl
      have hnone : (if (S.rest reader).2 = true ∧ (S.rest reader).1.length ≤ maxBlobMessageSize then
          some (S.rest reader).1 else none) = none := if_neg (by simp [hbad])
      rw [hnone]
      rfl
    | ok u =>
      rcases hout.ok rfl with ⟨hend, hcontent, hlen⟩ | ⟨hbig, hlen⟩
      · change filled.content = buf.content ++ (S.rest reader).1 at hcontent
        have hlength := congrArg length hcontent
        rw [length_append] at hlength
        have hsize : ¬maxBlobMessageSize < filled.len - buf.len := by
          unfold Buf.len
          omega
        simp only [Except.bind, if_neg hsize, if_pos (And.intro hend hlen)]
        exact congrArg some hcontent
      · change filled.len = buf.len + budget at hlen
        have hsize : maxBlobMessageSize < filled.len - buf.len := by
          unfold budget at hlen
          omega
        have hnone : (if (S.rest reader).2 = true ∧
            (S.rest reader).1.length ≤ maxBlobMessageSize then
          some (S.rest reader).1 else none) = none := if_neg (by omega)
        rw [hnone]
        simp only [Except.bind, if_pos hsize]
        rfl

end Unzstd

section Paths

variable {ph : Crate} {D : Decoders}

/-- What the payload of a parsed blob decodes to. -/
def decodedPayload (D : Decoders) : Option BlobData → Option Bytes
  | some (.raw bytes) => if bytes.length ≤ maxBlobMessageSize then some bytes else none
  | some (.zlib bytes) => inflated D.zlib bytes
  | some (.zstd bytes) => unzstd D.zstd bytes
  | none => none

/-- The content, if it has the declared size. -/
def sized (rawSize : Option Int32) (out : Bytes) : Option Bytes :=
  (checkRawSize rawSize out.length).toOption.map fun _ => out

/-- What a `Blob` message decodes to. -/
def decodedBlob (ph : Crate) (D : Decoders) (blobBytes : Bytes) : Option Bytes :=
  (parseBlob ph blobBytes).toOption.bind fun blob =>
    (decodedPayload D blob.data).bind (sized blob.rawSize)

lemma accepted_andThen (r : Decoded D) (rawSize : Option Int32) :
    accepted (andThen r (checkSize D rawSize)) = (accepted r).bind (sized rawSize) := by
  obtain ⟨buf, result⟩ := r
  cases result with
  | error e => rfl
  | ok u =>
    have hlen : buf.len = buf.content.length := rfl
    simp only [andThen, checkSize, accepted, sized, Option.bind_some, hlen]
    cases checkRawSize rawSize buf.content.length <;> rfl

lemma accepted_copyRaw {c : Choices} {buf : Buf} (hbuf : buf.content = []) :
    accepted (copyRaw D c bytes buf) = decodedPayload D (some (.raw bytes)) := by
  by_cases hbig : maxBlobMessageSize < bytes.length
  · have hnot : ¬bytes.length ≤ maxBlobMessageSize := by omega
    simp only [copyRaw, decodedPayload, if_pos hbig, if_neg hnot]
    rfl
  · have hfits : bytes.length ≤ maxBlobMessageSize := by omega
    simp [copyRaw, decodedPayload, if_neg hbig, if_pos hfits, accepted, hbuf]

lemma accepted_zlib {c : Choices} {buf : Buf} (hbuf : buf.content = []) :
    accepted (zlibDecompressInto (G := D.zstd.Fault) D.zlib c.alloc bytes buf) =
      decodedPayload D (some (.zlib bytes)) := by
  have hfits : buf.len + budget < 2 ^ 64 := by
    rw [Buf.len, hbuf]
    decide
  have hspec := (@zlibDecompressInto_spec D.zlib D.zstd.Fault c.alloc bytes buf hfits).accepted
  rw [hspec, hbuf]
  simp [decodedPayload, inflated]

lemma accepted_zstd {c : Choices} {buf : Buf} (hbuf : buf.content = []) :
    accepted (zstdDecompressInto (F := D.zlib.Fault) D.zstd c.room c.alloc bytes buf) =
      decodedPayload D (some (.zstd bytes)) := by
  rw [zstdDecompressInto_spec, hbuf]
  simp [decodedPayload]

@[simp] lemma withCapacity_content (c : Choices) (blob : WireBlob) (buf : Buf) :
    (withCapacity c blob buf).content = buf.content := by
  unfold withCapacity
  split
  · exact Buf.reserveExact_content _ _ _
  · rfl

@[simp] lemma poolGet_content (c : Choices) (pool : Option Nat) (capacity : Nat) :
    (poolGet c pool capacity).content = [] := by
  cases pool with
  | none | some => exact Buf.reserveExact_content _ _ _

lemma accepted_parsedBlob (c : Choices) (blob : WireBlob) (buf : Buf) :
    accepted (decompressParsedBlobInto D c blob buf) =
      (decodedPayload D blob.data).bind (sized blob.rawSize) := by
  rw [decompressParsedBlobInto, accepted_andThen]
  congr 1
  unfold decompressParsedBlobBody
  split
  · next bytes hdata => rw [hdata, accepted_copyRaw (Buf.clear_content buf)]
  · next bytes hdata => rw [hdata, accepted_zlib (by simp)]
  · next bytes hdata => rw [hdata, accepted_zstd (by simp)]
  · next hdata =>
    rw [hdata]
    rfl

lemma accepted_wireBlob (c : Choices) (blob : WireBlob) (buf : Buf) :
    accepted (decompressWireBlobInto D c blob buf) =
      (decodedPayload D blob.data).bind (sized blob.rawSize) := by
  unfold decompressWireBlobInto
  split
  · next bytes hdata =>
    rw [hdata, accepted_andThen, accepted_copyRaw (Buf.clear_content buf)]
  · next bytes hdata => rw [hdata, accepted_andThen, accepted_zlib (by simp)]
  · next bytes hdata => rw [hdata, accepted_andThen, accepted_zstd (by simp)]
  · next hdata =>
    rw [hdata]
    rfl

lemma toOption_filled {F G : Type} (r : Filled F G) :
    (r.2.map fun _ => r.1.content).toOption = accepted r := by
  obtain ⟨buf, result⟩ := r
  cases result <;> rfl

lemma toOption_decompressBlob (c : Choices) (pool : Option Nat) (blob : WireBlob) :
    (decompressBlob D c pool blob).toOption =
      (decodedPayload D blob.data).bind (sized blob.rawSize) := by
  have hbody : (decompressBlobBody D c pool blob).toOption = decodedPayload D blob.data := by
    unfold decompressBlobBody
    split
    · next bytes hdata =>
      rw [hdata, decodedPayload]
      by_cases hbig : maxBlobMessageSize < bytes.length
      · rw [if_pos hbig, if_neg (by omega)]
        rfl
      · rw [if_neg hbig, if_pos (by omega)]
        rfl
    · next bytes hdata =>
      rw [hdata]
      exact (toOption_filled _).trans (accepted_zlib (poolGet_content c pool _))
    · next bytes hdata =>
      rw [hdata]
      exact (toOption_filled _).trans (accepted_zstd (poolGet_content c pool _))
    · next hdata =>
      rw [hdata]
      rfl
  rw [← hbody, decompressBlob]
  cases decompressBlobBody D c pool blob with
  | error e => rfl
  | ok decoded =>
    simp only [ok_bind, Except.toOption, Option.bind_some, sized]
    cases checkRawSize blob.rawSize decoded.length <;> rfl

/-- The field a payload came in. -/
def payloadField : BlobData → Nat × Bytes
  | .raw bytes => (Blob.raw, bytes)
  | .zlib bytes => (Blob.zlibData, bytes)
  | .zstd bytes => (Blob.zstdData, bytes)

/-- Both parsers of the envelope read the same of it, and refuse it with the same error. -/
theorem parseRawEnvelope_eq (rawBlob : Bytes) : parseRawEnvelope ph rawBlob =
      (parseBlob ph rawBlob).map fun b => ⟨b.data.map payloadField, b.rawSize⟩ := by
  refine walk_map (fun b : WireBlob => (⟨b.data.map payloadField, b.rawSize⟩ : RawEnvelope))
    (fun b field wire cur => ?_) {} rawBlob
  have hpayload : ∀ payload : Bytes → BlobData,
      (∀ bytes, payloadField (payload bytes) = (field, bytes)) →
      (take (ph.readLenDelimited cur) fun slice =>
        if (b.data.map payloadField).isSome then
          (.error (newWireError multiplePayloadFieldsMsg) : Except Error RawEnvelope)
        else .ok ⟨some (field, slice), b.rawSize⟩) =
        (take (ph.readLenDelimited cur) fun bytes => takePayload b (payload bytes)).map
          fun p => (⟨p.1.data.map payloadField, p.1.rawSize⟩, p.2) := by
    intro payload hfield
    unfold take takePayload
    cases ph.readLenDelimited cur with
    | error e => rfl
    | ok p =>
      cases hdata : b.data with
      | none => simp [Except.bind, Except.map, hfield]
      | some d => simp [Except.bind, Except.map]
  unfold rawEnvelopeField blobField
  by_cases hraw : field = Blob.raw
  · subst hraw
    rw [if_pos (.inl rfl), if_pos rfl]
    exact hpayload .raw fun _ => rfl
  · by_cases hzlib : field = Blob.zlibData
    · subst hzlib
      rw [if_pos (.inr (.inl rfl)), if_neg hraw, if_pos rfl]
      exact hpayload .zlib fun _ => rfl
    · by_cases hzstd : field = Blob.zstdData
      · subst hzstd
        rw [if_pos (.inr (.inr rfl)), if_neg hraw, if_neg hzlib, if_pos rfl]
        exact hpayload .zstd fun _ => rfl
      · rw [if_neg (by simp [hraw, hzlib, hzstd]), if_neg hraw, if_neg hzlib, if_neg hzstd]
        by_cases hsize : field = Blob.rawSize
        · rw [if_pos hsize, if_pos hsize]
          unfold take
          cases readInt32 ph "Blob.raw_size exceeds int32" cur <;> rfl
        · rw [if_neg hsize, if_neg hsize]
          unfold skip
          cases ph.reader.skipField wire cur <;> rfl

lemma accepted_blobRaw (c : Choices) (rawBlob : Bytes) (buf : Buf) :
    accepted (decompressBlobRaw ph D c rawBlob buf) = decodedBlob ph D rawBlob := by
  unfold decompressBlobRaw decodedBlob
  rw [parseRawEnvelope_eq]
  cases parseBlob ph rawBlob with
  | error e => rfl
  | ok blob =>
    have hreserved : ∀ rawSize : Option Int32, (match rawSize with
        | some rs =>
          if 0 < rs.toInt then
            buf.clear.reserveExact c.alloc (clampCapacityHint rs.toInt.toNat)
          else buf.clear
        | none => buf.clear).content = [] := by
      intro rawSize
      cases rawSize with
      | none => rfl
      | some rs =>
        simp only
        split
        · exact Buf.reserveExact_content _ _ _
        · rfl
    obtain ⟨data, rawSize⟩ := blob
    simp only [Except.map, Except.toOption, Option.bind_some]
    cases data with
    | none => rfl
    | some payload =>
      cases payload with
      | raw bytes =>
        rw [← accepted_copyRaw (c := c) (Buf.clear_content buf), ← accepted_andThen]
        rfl
      | zlib bytes =>
        rw [← accepted_zlib (c := c) (hreserved rawSize), ← accepted_andThen]
        rfl
      | zstd bytes =>
        rw [← accepted_zstd (c := c) (hreserved rawSize), ← accepted_andThen]
        rfl

lemma accepted_blobDataInto (c : Choices) (blobBytes : Bytes) (buf : Buf) :
    accepted (decompressBlobDataInto ph D c blobBytes buf) = decodedBlob ph D blobBytes := by
  unfold decompressBlobDataInto decodedBlob
  cases parseBlob ph blobBytes with
  | error e => rfl
  | ok blob => exact accepted_parsedBlob c blob buf

/-- Every way of decompressing a blob gives the same bytes or fails, whatever the buffer held and
had room for. The inflate loop comes to what the stream comes to within a bounded number of turns,
and never holds more than the cap and one byte. -/
theorem decompress_paths_agree (ph : Crate) (D : Decoders) (blobBytes : Bytes) :
    (∀ c buf, accepted (decompressBlobRaw ph D c blobBytes buf) = decodedBlob ph D blobBytes) ∧
    (∀ c buf, accepted (decompressBlobDataInto ph D c blobBytes buf) = decodedBlob ph D blobBytes) ∧
    (∀ c buf, parsedThen ph blobBytes (fun blob => accepted (decompressWireBlobInto D c blob buf)) =
      decodedBlob ph D blobBytes) ∧
    (∀ c pool, parsedThen ph blobBytes (fun blob => (decompressBlob D c pool blob).toOption) =
      decodedBlob ph D blobBytes) ∧ (∀ alloc compressed buf, buf.len + budget < 2 ^ 64 →
      accepted (zlibDecompressInto (G := D.zstd.Fault) D.zlib alloc compressed buf) =
        (inflated D.zlib compressed).map (buf.content ++ ·) ∧
      (zlibDecompressInto (G := D.zstd.Fault) D.zlib alloc compressed buf).1.len ≤
        buf.len + budget ∧
      ∀ n t, Reaches (zlibTurn (G := D.zstd.Fault) D.zlib alloc buf.len (buf.len + budget))
        ⟨⟨D.zlib.fresh, 0, 0⟩, compressed, buf⟩ n t →
          t.buf.len ≤ buf.len + budget ∧ n ≤ compressed.length + budget) ∧
    ∀ (stream : Stream D.zlib) (input : Bytes) (buf : Buf) (pos limit : Nat), pos ≤ limit →
      ∀ n t, Reaches (sliceTurn (G := D.zstd.Fault) D.zlib limit)
        ⟨stream, input, buf.resize limit, pos⟩ n t →
          t.buf.len = limit ∧ n ≤ input.length + (limit - pos) := by
  have hparsed : ∀ k : WireBlob → Option Bytes,
      (∀ blob, k blob = (decodedPayload D blob.data).bind (sized blob.rawSize)) →
        parsedThen ph blobBytes k = decodedBlob ph D blobBytes := by
    intro k hk
    have hsame : k = fun blob => (decodedPayload D blob.data).bind (sized blob.rawSize) := funext hk
    rw [hsame]
    rfl
  refine ⟨fun c buf => accepted_blobRaw c blobBytes buf,
    fun c buf => accepted_blobDataInto c blobBytes buf,
    fun c buf => hparsed _ fun blob => accepted_wireBlob c blob buf,
    fun c pool => hparsed _ fun blob => toOption_decompressBlob c pool blob, ?_, ?_⟩
  · intro alloc compressed buf hfits
    have hspec := @zlibDecompressInto_spec D.zlib D.zstd.Fault alloc compressed buf hfits
    refine ⟨hspec.accepted, hspec.len_le, fun n t hreach => ⟨?_, ?_⟩⟩
    · have hstart : ZlibInv buf.content (D.zlib.rest D.zlib.fresh compressed)
          (⟨⟨D.zlib.fresh, 0, 0⟩, compressed, buf⟩ : ZlibLoop D.zlib) :=
        ⟨⟨[], (append_nil _).symm, ⟨rfl, rfl⟩⟩, Nat.le_add_right _ _⟩
      exact ((zlib_leads alloc buf.content _).reached hreach hstart).len_le
    · have hle := hreach.le zlibTurn_decreases
      simp only [ZlibLoop.measure] at hle
      omega
  · intro stream input buf pos limit hpos n t hreach
    have hstart : SliceInv ((buf.resize limit).content.take pos)
        (D.zlib.rest stream.state input) limit
        (⟨stream, input, buf.resize limit, pos⟩ : SliceLoop D.zlib) :=
      ⟨Buf.resize_len, hpos, [], (append_nil _).symm, ⟨rfl, rfl⟩⟩
    refine ⟨((slice_leads _ _ limit).reached hreach hstart).len, ?_⟩
    have hle := hreach.le sliceTurn_decreases
    simp only [SliceLoop.measure] at hle
    omega

end Paths

/-- A zlib stream of one stored block. -/
def decodeStored : Bytes → Bytes × Verdict
  | 0x78 :: 0x01 :: 0x01 :: lo :: hi :: _ :: _ :: rest =>
    let n := lo.toNat + 256 * hi.toNat
    (rest.take n, if n + 4 ≤ rest.length then .ended else .starved)
  | input => ([], if input.length < 7 then .starved else .failed)

/-- What is left of a stream, once its input is taken. -/
def storedRest (d : Option (Bytes × Verdict)) (input : Bytes) : Bytes × Verdict :=
  d.getD (decodeStored input)

def storedStep (d : Option (Bytes × Verdict)) (input : Bytes) (room : Nat) :
    InflateStep (Option (Bytes × Verdict)) Unit :=
  let consumed := if d.isNone then input.length else 0
  let whole := storedRest d input
  if room < whole.1.length then
    ⟨consumed, whole.1.take room, .ok .ok, some (whole.1.drop room, whole.2)⟩
  else
    match whole.2 with
    | .ended => ⟨consumed, whole.1, .ok .streamEnd, some ([], .ended)⟩
    | .failed => ⟨consumed, whole.1, .error (), some ([], .failed)⟩
    | .starved => ⟨consumed, whole.1, .ok .bufError, some ([], .starved)⟩

/-- What one step does, by whether the room is short. -/
theorem storedStep_cases (d : Option (Bytes × Verdict)) (input : Bytes) (room : Nat) :
    ∃ r, storedStep d input room = r ∧ r.consumed ≤ input.length ∧
      ((room < (storedRest d input).1.length ∧ r.produced = (storedRest d input).1.take room ∧
          r.status = .ok .ok ∧
          r.next = some ((storedRest d input).1.drop room, (storedRest d input).2)) ∨
        ((storedRest d input).1.length ≤ room ∧ r.produced = (storedRest d input).1 ∧
          r.next = some ([], (storedRest d input).2) ∧
          r.status = match (storedRest d input).2 with
            | .ended => .ok .streamEnd
            | .failed => .error ()
            | .starved => .ok .bufError)) := by
  refine ⟨_, rfl, ?_⟩
  have hconsumed : (if d.isNone then input.length else 0) ≤ input.length := by
    split
    · exact Nat.le_refl _
    · exact Nat.zero_le _
  unfold storedStep
  by_cases hroom : room < (storedRest d input).1.length
  · rw [if_pos hroom]
    exact ⟨hconsumed, .inl ⟨hroom, rfl, rfl, rfl⟩⟩
  · rw [if_neg hroom]
    cases (storedRest d input).2 with
    | ended | failed | starved => exact ⟨hconsumed, .inr ⟨by omega, rfl, rfl, rfl⟩⟩

/-- A decoder of stored blocks. -/
def storedInflater : Inflater where
  State := Option (Bytes × Verdict)
  Fault := Unit
  fresh := none
  step := storedStep
  rest := storedRest
  consumed_le d input room := by
    obtain ⟨r, rfl, hconsumed, -⟩ := storedStep_cases d input room
    exact hconsumed
  produced_le d input room := by
    obtain ⟨r, rfl, -, ⟨-, hproduced, -⟩ | ⟨hlen, hproduced, -⟩⟩ := storedStep_cases d input room
    · rw [hproduced]
      exact length_take_le _ _
    · rw [hproduced]
      exact hlen
  step_fault {d input room e} h := by
    obtain ⟨r, rfl, -, ⟨-, -, hstatus, -⟩ | ⟨-, -, -, hstatus⟩⟩ := storedStep_cases d input room
    · rw [hstatus] at h
      cases h
    · rw [hstatus] at h
      cases hverdict : (storedRest d input).2 <;> simp [hverdict] at h ⊢
  step_end {d input room} h := by
    obtain ⟨r, rfl, -, ⟨-, -, hstatus, -⟩ | ⟨-, hproduced, -, hstatus⟩⟩ :=
      storedStep_cases d input room
    · rw [hstatus] at h
      cases h
    · rw [hstatus] at h
      rw [hproduced]
      refine Prod.ext rfl ?_
      cases hverdict : (storedRest d input).2 <;> simp [hverdict] at h ⊢
  step_next {d input room status} h hne := by
    obtain ⟨r, rfl, -, ⟨-, hproduced, -, hnext⟩ | ⟨-, hproduced, hnext, -⟩⟩ :=
      storedStep_cases d input room
    · rw [hproduced, hnext]
      exact Prod.ext (take_append_drop _ _).symm rfl
    · rw [hproduced, hnext]
      exact Prod.ext (append_nil _).symm rfl
  step_stuck {d input room status} hroom h hne _ hnil := by
    obtain ⟨r, rfl, -, ⟨hlen, hproduced, -⟩ | ⟨-, -, -, hstatus⟩⟩ := storedStep_cases d input room
    · rw [hproduced, take_eq_nil_iff] at hnil
      rcases hnil with hzero | hnil
      · omega
      · simp [hnil] at hlen
    · rw [hstatus] at h
      cases hverdict : (storedRest d input).2 with
      | ended =>
        simp only [hverdict, Except.ok.injEq] at h
        exact absurd h.symm hne
      | failed => simp [hverdict] at h
      | starved => rfl

/-- A zstd frame of one raw block shorter than 32 bytes. -/
def decodeRawBlock : Bytes → Bytes × Bool
  | 0x28 :: 0xb5 :: 0x2f :: 0xfd :: 0x20 :: n :: header :: 0 :: 0 :: rest =>
    (rest.take n.toNat, n < 32 ∧ header = n * 8 + 1 ∧ rest.length = n.toNat)
  | _ => ([], false)

/-- A reader of raw blocks; it holds what it has not handed out. -/
def rawBlockReader : Reader where
  State := Bytes × Bool
  Fault := Unit
  new compressed := .ok (decodeRawBlock compressed)
  read d room :=
    if d = ([], false) then .error () else .ok (d.1.take room, d.1.drop room, d.2)
  rest := id
  read_le {d room bytes d'} h := by
    split at h
    · cases h
    · cases h
      exact length_take_le _ _
  read_fault {d room e} h := by
    split at h
    · next hbad => rw [hbad]; rfl
    · cases h
  read_next {d room bytes d'} h := by
    split at h
    · cases h
    · cases h
      exact Prod.ext (take_append_drop _ _).symm rfl
  read_eof {d room d'} hroom h := by
    split at h
    · cases h
    · next hgood =>
      obtain ⟨bytes, good⟩ := d
      have hnil : bytes = [] := by
        cases bytes with
        | nil => rfl
        | cons b bytes => cases room <;> simp at h hroom
      subst hnil
      cases good with
      | false => exact absurd rfl hgood
      | true => rfl

/-- A blob whose zlib payload is the byte 7 in a stored block. -/
def storedBlob : Bytes :=
  varintField 2 1 ++ lenField 3 [0x78, 0x01, 0x01, 1, 0, 0xfe, 0xff, 7, 0, 8, 0, 8]

/-- A blob whose zstd payload is the byte 7 in a raw block. -/
def rawBlockBlob : Bytes :=
  varintField 2 1 ++ lenField 7 [0x28, 0xb5, 0x2f, 0xfd, 0x20, 1, 9, 0, 0, 7]

theorem decompress_paths_agree_stored :
    (∀ c, accepted (decompressBlobRaw Reference.crate ⟨storedInflater, rawBlockReader⟩ c storedBlob
        ⟨[1, 2, 3], 100, by decide⟩) = some [7]) ∧
      (∀ c, accepted (decompressBlobDataInto Reference.crate ⟨storedInflater, rawBlockReader⟩ c
        rawBlockBlob ⟨[1, 2, 3], 100, by decide⟩) = some [7]) ∧
      ∀ alloc, accepted (zlibDecompressInto (G := Unit) storedInflater alloc
        [0x78, 0x01, 0x01, 1, 0, 0xfe, 0xff, 7, 0, 8, 0, 8] ⟨[1], 2 ^ 40, by decide⟩) =
          some [1, 7] := by
  obtain ⟨hraw, -, -, -, hzlib, -⟩ :=
    decompress_paths_agree Reference.crate ⟨storedInflater, rawBlockReader⟩ storedBlob
  obtain ⟨-, hdata, -⟩ :=
    decompress_paths_agree Reference.crate ⟨storedInflater, rawBlockReader⟩ rawBlockBlob
  refine ⟨fun c => (hraw c _).trans rfl, fun c => (hdata c _).trans rfl, fun alloc => ?_⟩
  exact (hzlib alloc _ ⟨[1], 2 ^ 40, by decide⟩ (by decide)).1.trans rfl

end Decompress
