import Pbfhogg.Lib.ByteSource
import Pbfhogg.Read.BlobWire

/-!
# The frame walk

The state machine of `read/frame.rs` over any source of bytes. A frame is a big-endian length, a
`BlobHeader` of that length and the payload the header declares. A source that delivers its input
gives the turn that the bytes in front of it give.
-/

namespace Frame

open Protohoggr BlobWire BlobMeta ByteSource List

variable {buf : Bytes}

inductive BlobError where
  | invalidHeaderSize
  | headerTooBig (size : Nat)
  | dataSizeTooBig (size : Nat)
  | invalidDataSize (size : Int32)

inductive ErrorKind where
  | blob (e : BlobError)
  | wire (e : Protohoggr.Error)
  | io (e : IoError)
  | unexpectedEof (msg : String)
  | partialIndexdata (msg : String)
  | internal (msg : String)
  | cancelled

structure Location where
  file : Option String
  blob : Option Nat
  offset : Option Nat

def Location.isEmpty (l : Location) : Bool := l.file.isNone && l.blob.isNone && l.offset.isNone

structure Error where
  kind : ErrorKind
  location : Option Location := none

/-- A location already attached is kept, and an empty one is none. -/
def Error.locate (e : Error) (l : Location) : Error :=
  if e.location.all Location.isEmpty ∧ ¬l.isEmpty then { e with location := some l } else e

structure FrameId where
  start : Option Nat
  ordinal : Option Nat

structure FrameHeader where
  id : FrameId
  headerLen : Nat
  dataSize : Nat
  header : WireBlobHeader

def FrameHeader.payloadOffset (h : FrameHeader) : Nat := 4 + h.headerLen

/-- A header returned and its payload not yet consumed. -/
structure Pending where
  id : FrameId
  dataSize : Nat
  /-- For a data frame of a refusing walk: whether its header carried readable indexdata. -/
  readableIndex : Option Bool

/-- What the first data blob said about indexdata, and where the first one without it sits. -/
structure PartialIndexGuard where
  firstIndexed : Option Bool := none
  firstUnindexed : Option FrameId := none

/-- Record one data blob; a location comes back once the file has shown both kinds. -/
def PartialIndexGuard.observe (g : PartialIndexGuard) (indexed : Bool) (at_ : FrameId) :
    Option FrameId × PartialIndexGuard :=
  let g := if !indexed && g.firstUnindexed.isNone then { g with firstUnindexed := some at_ } else g
  match g.firstIndexed with
  | none => (none, { g with firstIndexed := some indexed })
  | some first => (if first ≠ indexed then g.firstUnindexed else none, g)

structure Frames (σ : Type) where
  src : σ
  pos : Option Nat
  streamStart : Nat
  nextOrdinal : Option Nat
  path : Option String
  cancelled : Bool
  headerBuf : Bytes
  fields : HeaderFields
  pending : Option Pending
  failed : Bool
  partialIndex : Option PartialIndexGuard

namespace Frames

variable {σ τ : Type}

def new (src : σ) (start : Option Nat) (fields : HeaderFields) : Frames σ where
  src := src
  pos := start
  streamStart := start.getD 0
  nextOrdinal := if start = none ∨ start = some 0 then some 0 else none
  path := none
  cancelled := false
  headerBuf := []
  fields := fields
  pending := none
  failed := false
  partialIndex := none

variable (fr : Frames σ)

def refusePartialIndex : Frames σ := { fr with partialIndex := some {} }

/-- A walk over a command input from its first byte. -/
def ofInput (src : σ) (path : String) (cancelled : Bool) : Frames σ :=
  refusePartialIndex
    { new src (some 0) HeaderFields.indexes with path := some path, cancelled := cancelled }

/-- The same walk over another source. -/
def withSrc (src : τ) : Frames τ where
  src := src
  pos := fr.pos
  streamStart := fr.streamStart
  nextOrdinal := fr.nextOrdinal
  path := fr.path
  cancelled := fr.cancelled
  headerBuf := fr.headerBuf
  fields := fr.fields
  pending := fr.pending
  failed := fr.failed
  partialIndex := fr.partialIndex

def nextId : FrameId := ⟨fr.pos, fr.nextOrdinal⟩

def poison : Frames σ := { fr with failed := true, pending := none, pos := none }

def location (id : FrameId) : Location := ⟨fr.path, id.ordinal, id.start⟩

/-- The error `kind` located at frame `id`. -/
def located (id : FrameId) (kind : ErrorKind) : Error :=
  Error.locate { kind := kind } (fr.location id)

end Frames

def usedAfterFailure : Error := { kind := .internal "frame walk used after a failed frame" }

def payloadPendingErr : Error :=
  { kind := .internal "next frame requested before the last frame's payload was read or skipped" }

def noHeaderReadErr : Error :=
  { kind := .internal "frame payload requested with no frame header read" }

def partialIndexMsg : String :=
  "the file is partially indexed: indexdata on some data blobs and not " ++
    "others, and this is the first data blob without indexdata"

inductive TruncatedPart where
  | header
  | payload

/-- Worded from what was declared, not from how the shortfall was noticed. -/
def truncated (part : TruncatedPart) (len : Nat) (start : Option Nat) : ErrorKind :=
  let what := match part with
    | .header => "BlobHeader"
    | .payload => "Blob"
  let by_ := match part with
    | .header => "its length prefix"
    | .payload => "its BlobHeader"
  let extent := match start with
    | some start => " at bytes [" ++ toString start ++ ", " ++ toString (start + len) ++ ")"
    | none => ""
  .unexpectedEof ("frame truncated: " ++ by_ ++ " declares a " ++ toString len ++ "-byte " ++
    what ++ extent ++ ", past the end of the input")

/-- `u32::from_be_bytes`. -/
def u32FromBe (bytes : Bytes) : Nat := LeBytes.leNat bytes.reverse

/-- `u32::to_be_bytes`. -/
def u32ToBe (n : Nat) : Bytes := (LeBytes.leBytes 4 n).reverse

def checkHeaderLen (len : Nat) : Except ErrorKind Nat :=
  if len = 0 then .error (.blob .invalidHeaderSize)
  else if maxBlobHeaderSize ≤ len then .error (.blob (.headerTooBig len))
  else .ok len

def secondHeaderMsg : String :=
  "a second OSMHeader blob follows the first frame; OSMHeader is allowed only as the first blob"

def checkHeaderPosition (kind : BlobKind) (atStart : Bool) : Except ErrorKind Unit :=
  if kind = .osmHeader ∧ atStart = false then .error (.wire (newWireError secondHeaderMsg))
  else .ok ()

/-- A walk with a position knows its stream start; one without knows only whether this is the first
frame it counted. -/
def isAtStart (streamStart : Nat) (id : FrameId) : Bool :=
  match id.start with
  | some start => start == streamStart
  | none => id.ordinal == some 0

def checkDatasize (datasize : Int32) : Except ErrorKind Nat :=
  if datasize < 0 then .error (.blob (.invalidDataSize datasize))
  else if maxBlobDatasize ≤ datasize.toNatClampNeg then
    .error (.blob (.dataSizeTooBig datasize.toNatClampNeg))
  else .ok datasize.toNatClampNeg

/-- A claim a consumer could act on. -/
def readableIndex (header : WireBlobHeader) : Bool :=
  (header.indexdata.bind deserializeIndex).isSome

section Machine

variable {σ : Type} (ph : Crate)

/-- The part of `read_header` behind the bytes of the header. An armed walk parses the indexdata
for its own use, and drops it where the caller did not ask for it. -/
def acceptHeader (fields : HeaderFields) (refusing : Bool) (streamStart : Nat) (id : FrameId)
    (headerLen : Nat) (buf : Bytes) : Except ErrorKind (FrameHeader × Pending) :=
  match parseBlobHeader ph { fields with indexdata := fields.indexdata || refusing } buf with
  | .error e => .error (.wire e)
  | .ok parsed =>
    let readable :=
      if refusing ∧ parsed.blobType = .osmData then some (readableIndex parsed) else none
    let header :=
      if refusing ∧ fields.indexdata = false then
        { parsed with
          indexdata := none, indexdataPresent := false, unrecognisedIndexdataLen := none }
      else parsed
    match checkHeaderPosition header.blobType (isAtStart streamStart id) with
    | .error e => .error e
    | .ok () =>
      match checkDatasize header.datasize with
      | .error e => .error e
      | .ok dataSize => .ok (⟨id, headerLen, dataSize, header⟩, ⟨id, dataSize, readable⟩)

variable (S : Source σ)

/-- `append` with the end of the input read as nothing appended. -/
def appendOrEof (src : σ) (n : Nat) : Except IoError (Bytes × σ) :=
  match S.append src n with
  | .error .unexpectedEof => .ok ([], src)
  | r => r

def skipOrEof (src : σ) (n : Nat) : Except IoError (Bool × σ) :=
  match S.skipBytes src n with
  | .error .unexpectedEof => .ok (false, src)
  | r => r

namespace Frames

def readHeader (id : FrameId) (fr : Frames σ) :
    Except ErrorKind (Option FrameHeader) × Frames σ :=
  match S.fill fr.src 4 with
  | .error e => (.error (.io e), fr)
  | .ok (got, src) =>
    if got.length < 4 then
      (.ok none, { fr with src := src, pos := id.start.map (· + got.length) })
    else
      match checkHeaderLen (u32FromBe got) with
      | .error e => (.error e, { fr with src := src })
      | .ok headerLen =>
        match appendOrEof S src headerLen with
        | .error e => (.error (.io e), { fr with src := src, headerBuf := [] })
        | .ok (buf, src) =>
          if buf.length < headerLen then
            (.error (truncated .header headerLen (id.start.map (· + 4))),
              { fr with src := src, headerBuf := buf })
          else
            match acceptHeader ph fr.fields fr.partialIndex.isSome fr.streamStart id headerLen
              buf with
            | .error e => (.error e, { fr with src := src, headerBuf := buf })
            | .ok (header, pending) =>
              (.ok (some header),
                { fr with
                  src := src
                  headerBuf := buf
                  pos := id.start.map (· + 4 + headerLen)
                  pending := some pending })

/-- `Ok(None)` is the clean end of the input. -/
def nextHeader (fr : Frames σ) : Except Error (Option FrameHeader) × Frames σ :=
  if fr.failed then (.error usedAfterFailure, fr)
  else if fr.pending.isSome then (.error payloadPendingErr, fr.poison)
  else if fr.cancelled then (.error { kind := .cancelled }, fr.poison)
  else
    match fr.readHeader ph S fr.nextId with
    | (.ok header, fr') => (.ok header, fr')
    | (.error e, fr') => (.error (fr'.located fr.nextId e), fr'.poison)

def takePending (fr : Frames σ) : Except Error Pending × Frames σ :=
  if fr.failed then (.error usedAfterFailure, fr)
  else
    match fr.pending with
    | some pending => (.ok pending, { fr with pending := none })
    | none => (.error noHeaderReadErr, fr.poison)

/-- The pending payload was consumed in full. A refusing walk judges the completed frame. -/
def finish (fr : Frames σ) (pending : Pending) : Except Error Unit × Frames σ :=
  let fr' : Frames σ :=
    { fr with
      pos := fr.pos.map (· + pending.dataSize)
      nextOrdinal := fr.nextOrdinal.map (· + 1) }
  match pending.readableIndex, fr'.partialIndex with
  | some readable, some guard =>
    match guard.observe readable pending.id with
    | (some firstUnindexed, guard') =>
      (.error (fr'.located firstUnindexed (.partialIndexdata partialIndexMsg)),
        ({ fr' with partialIndex := some guard' } : Frames σ).poison)
    | (none, guard') => (.ok (), { fr' with partialIndex := some guard' })
  | _, _ => (.ok (), fr')

/-- Append the pending payload; what comes back is the bytes appended. -/
def readPayload (fr : Frames σ) : Except Error Bytes × Frames σ :=
  match fr.takePending with
  | (.error e, fr) => (.error e, fr)
  | (.ok pending, fr) =>
    match appendOrEof S fr.src pending.dataSize with
    | .error e => (.error (fr.located pending.id (.io e)), fr.poison)
    | .ok (got, src) =>
      if got.length < pending.dataSize then
        (.error (fr.located pending.id (truncated .payload pending.dataSize fr.pos)),
          ({ fr with src := src } : Frames σ).poison)
      else
        match ({ fr with src := src } : Frames σ).finish pending with
        | (.ok (), fr) => (.ok got, fr)
        | (.error e, fr) => (.error e, fr)

/-- Pass over the pending payload without reading it. -/
def skipPayload (fr : Frames σ) : Except Error Unit × Frames σ :=
  match fr.takePending with
  | (.error e, fr) => (.error e, fr)
  | (.ok pending, fr) =>
    match skipOrEof S fr.src pending.dataSize with
    | .error e => (.error (fr.located pending.id (.io e)), fr.poison)
    | .ok (false, src) =>
      (.error (fr.located pending.id (truncated .payload pending.dataSize fr.pos)),
        ({ fr with src := src } : Frames σ).poison)
    | .ok (true, src) => ({ fr with src := src } : Frames σ).finish pending

end Frames

/-- A raw blob frame for passthrough or selective decode. -/
structure RawBlobFrame where
  frameBytes : Bytes
  blobType : BlobKind
  blobOffset : Nat
  index : Option BlobIndex
  indexPresent : Bool
  tagdata : Option Bytes
  tagdataPresent : Bool
  id : FrameId

namespace Frames

/-- The frame of header `header`, whose bytes are `headerBuf`. -/
def rawFrame (header : FrameHeader) (headerBuf payload : Bytes) : RawBlobFrame where
  frameBytes := u32ToBe header.headerLen ++ headerBuf ++ payload
  blobType := header.header.blobType
  blobOffset := header.payloadOffset
  index := header.header.indexdata.bind deserializeIndex
  indexPresent := header.header.indexdataPresent
  tagdata := header.header.tagdata
  tagdataPresent := header.header.tagdataPresent
  id := header.id

/-- The next frame whole: the prefix, the exact header bytes and the payload. -/
def nextRaw (fr : Frames σ) : Except Error (Option RawBlobFrame) × Frames σ :=
  match fr.nextHeader ph S with
  | (.error e, fr) => (.error e, fr)
  | (.ok none, fr) => (.ok none, fr)
  | (.ok (some header), fr) =>
    match fr.readPayload S with
    | (.error e, fr') => (.error e, fr')
    | (.ok payload, fr') => (.ok (some (rawFrame header fr.headerBuf payload)), fr')

end Frames

inductive Event where
  | header (h : FrameHeader)
  | payload (bytes : Bytes)
  | skipped

inductive Ending where
  | clean
  | failed (e : Error)
  | outOfFuel

/-- What one turn of a walk leaves: an end, or a walk at the next frame. -/
inductive Turn (α : Type) where
  | stop (events : List Event) (ending : Ending)
  | go (h : FrameHeader) (ev : Event) (next : α)

/-- Read the pending payload or pass over it. -/
def consume (read : Bool) (fr : Frames σ) : Except Error Event × Frames σ :=
  if read then
    match fr.readPayload S with
    | (.ok bytes, fr) => (.ok (.payload bytes), fr)
    | (.error e, fr) => (.error e, fr)
  else
    match fr.skipPayload S with
    | (.ok (), fr) => (.ok .skipped, fr)
    | (.error e, fr) => (.error e, fr)

/-- One frame: its header, and its payload read or skipped. -/
def turn (read : Bool) (fr : Frames σ) : Turn (Frames σ) :=
  match fr.nextHeader ph S with
  | (.error e, _) => .stop [] (.failed e)
  | (.ok none, _) => .stop [] .clean
  | (.ok (some h), fr) =>
    match consume S read fr with
    | (.error e, _) => .stop [.header h] (.failed e)
    | (.ok ev, fr) => .go h ev fr

/-- Frame after frame, the payload of frame `i` read or skipped as `choose i` says. -/
def walkFuel (choose : Nat → Bool) : Nat → Nat → Frames σ → List Event × Ending
  | 0, _, _ => ([], .outOfFuel)
  | fuel + 1, i, fr =>
    match turn ph S (choose i) fr with
    | .stop events ending => (events, ending)
    | .go h ev fr => (.header h :: ev :: (walkFuel choose fuel (i + 1) fr).1,
        (walkFuel choose fuel (i + 1) fr).2)

/-- Raw frame after raw frame. -/
def rawWalkFuel : Nat → Frames σ → List RawBlobFrame × Ending
  | 0, _ => ([], .outOfFuel)
  | fuel + 1, fr =>
    match fr.nextRaw ph S with
    | (.error e, _) => ([], .failed e)
    | (.ok none, _) => ([], .clean)
    | (.ok (some raw), fr) => (raw :: (rawWalkFuel fuel fr).1, (rawWalkFuel fuel fr).2)

end Machine

section Framing

variable {σ : Type} (ph : Crate)

/-- What the bytes in front of a walk hold: an end, or a frame's header. -/
def frontFrame (fr : Frames σ) (rest : Bytes) :
    Except ErrorKind (Option (FrameHeader × Pending)) :=
  if rest.length < 4 then .ok none
  else
    match checkHeaderLen (u32FromBe (rest.take 4)) with
    | .error e => .error e
    | .ok headerLen =>
      if rest.length < 4 + headerLen then
        .error (truncated .header headerLen (fr.pos.map (· + 4)))
      else
        (acceptHeader ph fr.fields fr.partialIndex.isSome fr.streamStart fr.nextId headerLen
          ((rest.drop 4).take headerLen)).map some

/-- The walk that has read the header `h` of the frame in front of it, and not its payload. -/
def Frames.atPayload (fr : Frames σ) (h : FrameHeader) (buf : Bytes) : Frames σ :=
  { fr with headerBuf := buf, pos := fr.pos.map (· + 4 + h.headerLen) }

/-- The bytes of the header `h` of the frame in front. -/
def headerBytes (h : FrameHeader) (rest : Bytes) : Bytes :=
  (rest.drop 4).take h.headerLen

/-- The turn that the bytes in front of a walk give. -/
def frontTurn (read : Bool) (fr : Frames Unit) (rest : Bytes) :
    Turn (Frames Unit × Bytes) :=
  match frontFrame ph fr rest with
  | .error e => .stop [] (.failed (fr.located fr.nextId e))
  | .ok none => .stop [] .clean
  | .ok (some (h, pending)) =>
    if rest.length < h.payloadOffset + h.dataSize then
      .stop [.header h] (.failed (fr.located fr.nextId
        (truncated .payload h.dataSize (fr.pos.map (· + 4 + h.headerLen)))))
    else
      match (fr.atPayload h (headerBytes h rest)).finish pending with
      | (.error e, _) => .stop [.header h] (.failed e)
      | (.ok (), fr) =>
        .go h (if read then .payload ((rest.drop h.payloadOffset).take h.dataSize) else .skipped)
          (fr, rest.drop (h.payloadOffset + h.dataSize))

/-- The walk over the bytes. -/
def frontWalk (choose : Nat → Bool) : Nat → Nat → Frames Unit → Bytes → List Event × Ending
  | 0, _, _, _ => ([], .outOfFuel)
  | fuel + 1, i, fr, rest =>
    match frontTurn ph (choose i) fr rest with
    | .stop events ending => (events, ending)
    | .go h ev (fr, rest) => (.header h :: ev :: (frontWalk choose fuel (i + 1) fr rest).1,
        (frontWalk choose fuel (i + 1) fr rest).2)

/-- Between frames, with nothing wrong so far. -/
structure Frames.Ready (fr : Frames σ) : Prop where
  failed : fr.failed = false
  pending : fr.pending = none
  cancelled : fr.cancelled = false

variable {ph}

lemma checkHeaderLen_ok {len n : Nat} (h : checkHeaderLen len = .ok n) :
    n = len ∧ 0 < n ∧ n < maxBlobHeaderSize := by
  unfold checkHeaderLen at h
  split at h
  · cases h
  split at h
  · cases h
  cases h
  omega

lemma checkDatasize_ok {datasize : Int32} {n : Nat} (h : checkDatasize datasize = .ok n) :
    n = datasize.toNatClampNeg ∧ n < maxBlobDatasize := by
  unfold checkDatasize at h
  split at h
  · cases h
  split at h
  · cases h
  cases h
  omega

variable {h : FrameHeader} {pending : Pending} {rest : Bytes} {fr : Frames Unit}

/-- What an accepted header says of the frame and of its payload is the same. -/
theorem acceptHeader_ok {fields : HeaderFields} {refusing : Bool} {streamStart : Nat}
    {id : FrameId} {headerLen : Nat}
    (ha : acceptHeader ph fields refusing streamStart id headerLen buf = .ok (h, pending)) :
    h.headerLen = headerLen ∧ h.id = id ∧ pending.id = id ∧ pending.dataSize = h.dataSize ∧
      h.dataSize < maxBlobDatasize := by
  unfold acceptHeader at ha
  split at ha
  · cases ha
  simp only at ha
  split at ha
  · cases ha
  split at ha
  · cases ha
  next hsize =>
    cases ha
    exact ⟨rfl, rfl, rfl, rfl, (checkDatasize_ok hsize).2⟩

/-- A frame's header lies inside the bytes. -/
theorem frontFrame_some {fr : Frames σ} (hf : frontFrame ph fr rest = .ok (some (h, pending))) :
    0 < h.headerLen ∧ h.payloadOffset ≤ rest.length ∧ h.id = fr.nextId ∧
      pending.id = fr.nextId ∧ pending.dataSize = h.dataSize ∧ h.dataSize < maxBlobDatasize := by
  unfold frontFrame at hf
  split at hf
  · cases hf
  split at hf
  · cases hf
  next headerLen hlen =>
    split at hf
    · cases hf
    cases ha : acceptHeader ph fr.fields fr.partialIndex.isSome fr.streamStart fr.nextId headerLen
        ((rest.drop 4).take headerLen) with
    | error e => simp [ha, Except.map] at hf
    | ok hp =>
      simp only [ha, Except.map, Except.ok.injEq, Option.some.injEq] at hf
      subst hf
      obtain ⟨h1, h2, h3, h4, h5⟩ := acceptHeader_ok ha
      obtain ⟨-, hpos, -⟩ := checkHeaderLen_ok hlen
      unfold FrameHeader.payloadOffset
      exact ⟨by omega, by omega, h2, h3, h4, h5⟩

section Sources

variable {τ : Type} {S : Source τ} {bound : Nat} {R Q : τ → Bytes → Prop}

lemma appendOrEof_eq (hd : Delivers S bound R Q) {s : τ} (n : Nat) (h : R s rest) :
    ∃ s', appendOrEof S s n = .ok (rest.take n, s') ∧ (n ≤ rest.length → R s' (rest.drop n)) := by
  obtain ⟨s', hs, hR⟩ := hd.append n h
  exact ⟨s', by unfold appendOrEof; rw [hs], hR⟩

lemma skipOrEof_eq (hd : Delivers S bound R Q) {s : τ} {n : Nat} (hn : n < bound) (h : R s rest) :
    ∃ s', skipOrEof S s n = .ok (decide (n ≤ rest.length), s') ∧
      (n ≤ rest.length → Q s' (rest.drop n)) := by
  obtain ⟨s', hs, hQ⟩ := hd.skip hn h
  exact ⟨s', by unfold skipOrEof; rw [hs], hQ⟩

/-- What `read_header` does is decided by the bytes. -/
inductive HeaderRead (fr : Frames Unit) (rest : Bytes) (R : τ → Bytes → Prop) :
    Except ErrorKind (Option (FrameHeader × Pending)) →
    Except ErrorKind (Option FrameHeader) × Frames τ → Prop
  | error {e : ErrorKind} {fr' : Frames τ} :
      fr'.path = fr.path → HeaderRead fr rest R (.error e) (.error e, fr')
  | clean {fr' : Frames τ} : HeaderRead fr rest R (.ok none) (.ok none, fr')
  | header {h : FrameHeader} {pending : Pending} {s' : τ} :
      R s' (rest.drop h.payloadOffset) →
      HeaderRead fr rest R (.ok (some (h, pending)))
        (.ok (some h),
          ({ fr.atPayload h (headerBytes h rest) with pending := some pending }).withSrc s')

lemma readHeader_eq (hd : Delivers S bound R Q) (fr : Frames Unit) {s : τ} {rest : Bytes}
    (hf : FillsAt S R 4 s rest) : HeaderRead fr rest R (frontFrame ph fr rest)
      ((fr.withSrc s).readHeader ph S fr.nextId) := by
  unfold Frames.readHeader frontFrame
  by_cases h4 : rest.length < 4
  · unfold FillsAt at hf
    rw [if_neg (by omega)] at hf
    obtain ⟨got, s', hfill, hgot⟩ := hf
    simp only [Frames.withSrc, hfill, if_pos hgot, if_pos h4]
    exact .clean
  unfold FillsAt at hf
  rw [if_pos (by omega)] at hf
  obtain ⟨s₁, hfill, hR₁⟩ := hf
  have hgot : ¬(rest.take 4).length < 4 := by
    rw [length_take]
    omega
  simp only [Frames.withSrc, hfill, if_neg hgot, if_neg h4]
  cases hlen : checkHeaderLen (u32FromBe (rest.take 4)) with
  | error e => exact .error rfl
  | ok headerLen =>
    obtain ⟨s₂, hap, hR₂⟩ := appendOrEof_eq hd headerLen hR₁
    simp only [hap]
    rw [length_drop] at hR₂
    have hbuf : ((rest.drop 4).take headerLen).length = min headerLen (rest.length - 4) := by
      rw [length_take, length_drop]
    by_cases hcut : rest.length < 4 + headerLen
    · rw [if_pos hcut, if_pos (by omega)]
      exact .error rfl
    rw [if_neg hcut, if_neg (by omega)]
    cases ha : acceptHeader ph fr.fields fr.partialIndex.isSome fr.streamStart fr.nextId headerLen
        ((rest.drop 4).take headerLen) with
    | error e => exact .error rfl
    | ok hp =>
      obtain ⟨h, pending⟩ := hp
      obtain ⟨hl, -⟩ := acceptHeader_ok ha
      subst hl
      refine .header ?_
      have := hR₂ (by omega)
      rw [drop_drop] at this
      exact this

lemma nextHeader_eq (hd : Delivers S bound R Q) {fr : Frames Unit} (hr : fr.Ready) {s : τ}
    {rest : Bytes} (hf : FillsAt S R 4 s rest) :
    match frontFrame ph fr rest with
    | .error e => ((fr.withSrc s).nextHeader ph S).1 = .error (fr.located fr.nextId e)
    | .ok none => ((fr.withSrc s).nextHeader ph S).1 = .ok none
    | .ok (some (h, pending)) => ∃ s', R s' (rest.drop h.payloadOffset) ∧
        (fr.withSrc s).nextHeader ph S =
          (.ok (some h),
            ({ fr.atPayload h (headerBytes h rest) with pending := some pending }).withSrc s') := by
  have hread := @readHeader_eq ph τ S bound R Q hd fr s rest hf
  have hnext : (fr.withSrc s).nextHeader ph S =
      match (fr.withSrc s).readHeader ph S fr.nextId with
      | (.ok header, fr') => (.ok header, fr')
      | (.error e, fr') => (.error (fr'.located fr.nextId e), fr'.poison) := by
    unfold Frames.nextHeader
    rw [if_neg (by simp [Frames.withSrc, hr.failed]), if_neg (by simp [Frames.withSrc, hr.pending]),
      if_neg (by simp [Frames.withSrc, hr.cancelled])]
    rfl
  rw [hnext]
  revert hread
  generalize (fr.withSrc s).readHeader ph S fr.nextId = result
  generalize frontFrame ph fr rest = front
  intro hread
  cases hread with
  | error hpath => simp only [Frames.located, Frames.location, hpath]
  | clean => rfl
  | header hR => exact ⟨_, hR, rfl⟩

lemma finish_withSrc (fr : Frames Unit) (s : τ) (pending : Pending) :
    (fr.withSrc s).finish pending = ((fr.finish pending).1, (fr.finish pending).2.withSrc s) := by
  obtain ⟨id, dataSize, readable⟩ := pending
  cases readable with
  | none => rfl
  | some readable =>
    cases hguard : fr.partialIndex with
    | none => simp [Frames.finish, Frames.withSrc, hguard]
    | some guard =>
      cases hobs : guard.observe readable id with
      | mk found guard' =>
        cases found <;> simp [Frames.finish, Frames.withSrc, hguard, hobs, Frames.located,
          Frames.location, Frames.poison]

/-- The payload read or skipped: cut short, refused, or behind the walk. -/
theorem consume_eq (hd : Delivers S bound R Q) (read : Bool) {fr : Frames Unit}
    (hfail : fr.failed = false) (hnone : fr.pending = none) {pending : Pending} {s : τ}
    {rest : Bytes} (hbound : pending.dataSize < bound) (hR : R s rest) :
    if rest.length < pending.dataSize then
      (consume S read (({ fr with pending := some pending }).withSrc s)).1 =
        .error (fr.located pending.id (truncated .payload pending.dataSize fr.pos))
    else
      match fr.finish pending with
      | (.error e, _) =>
        (consume S read (({ fr with pending := some pending }).withSrc s)).1 = .error e
      | (.ok (), fr') => ∃ s', (if read then R else Q) s' (rest.drop pending.dataSize) ∧
          consume S read (({ fr with pending := some pending }).withSrc s) =
            (.ok (if read then .payload (rest.take pending.dataSize) else .skipped),
              fr'.withSrc s') := by
  have htake : (({ fr with pending := some pending }).withSrc s).takePending =
      (.ok pending, fr.withSrc s) := by
    unfold Frames.takePending
    rw [if_neg (by simp [Frames.withSrc, hfail])]
    simp [Frames.withSrc, hnone]
  have hmove : ∀ s', ({ fr.withSrc s with src := s' } : Frames τ) = fr.withSrc s' := fun _ => rfl
  cases read with
  | true =>
    obtain ⟨s', happ, hR'⟩ := appendOrEof_eq hd pending.dataSize hR
    have hsrc : (fr.withSrc s).src = s := rfl
    simp only [consume, Frames.readPayload, htake, hsrc, happ, hmove, finish_withSrc, if_true,
      length_take]
    by_cases hcut : rest.length < pending.dataSize
    · simp only [if_pos hcut,
        if_pos (show min pending.dataSize rest.length < pending.dataSize by omega)]
      rfl
    simp only [if_neg hcut,
      if_neg (show ¬min pending.dataSize rest.length < pending.dataSize by omega)]
    cases hfin : fr.finish pending with
    | mk result fr' =>
      cases result with
      | error e => rfl
      | ok u => exact ⟨s', hR' (by omega), rfl⟩
  | false =>
    obtain ⟨s', hskip, hQ⟩ := skipOrEof_eq hd hbound hR
    have hsrc : (fr.withSrc s).src = s := rfl
    simp only [consume, Frames.skipPayload, htake, hsrc, hskip, hmove, finish_withSrc,
      Bool.false_eq_true, if_false]
    by_cases hcut : rest.length < pending.dataSize
    · simp only [if_pos hcut, decide_eq_false (show ¬pending.dataSize ≤ rest.length by omega)]
      rfl
    simp only [if_neg hcut, decide_eq_true (show pending.dataSize ≤ rest.length by omega)]
    cases hfin : fr.finish pending with
    | mk result fr' =>
      cases result with
      | error e => rfl
      | ok u => exact ⟨s', hQ (by omega), rfl⟩

lemma eq_mk_of_fst {α β : Type} {p : α × β} {a : α} (h : p.1 = a) : p = (a, p.2) := by
  rw [← h]

/-- A source that fills the prefix and delivers the rest gives the turn of its bytes. -/
theorem turn_eq (hd : Delivers S bound R Q) (hbound : maxBlobDatasize ≤ bound) (read : Bool)
    {fr : Frames Unit} (hr : fr.Ready) {s : τ} {rest : Bytes} (hf : FillsAt S R 4 s rest) :
    match frontTurn ph read fr rest with
    | .stop events ending => turn ph S read (fr.withSrc s) = .stop events ending
    | .go h ev (fr', rest') => ∃ s', (if read then R else Q) s' rest' ∧
        turn ph S read (fr.withSrc s) = .go h ev (fr'.withSrc s') := by
  have hhead := @nextHeader_eq ph τ S bound R Q hd fr hr s rest hf
  unfold frontTurn turn
  cases hfront : frontFrame ph fr rest with
  | error e =>
    simp only [hfront] at hhead ⊢
    rw [eq_mk_of_fst hhead]
  | ok found =>
    cases found with
    | none =>
      simp only [hfront] at hhead ⊢
      rw [eq_mk_of_fst hhead]
    | some hp =>
      obtain ⟨h, pending⟩ := hp
      simp only [hfront] at hhead ⊢
      obtain ⟨s', hR, hn⟩ := hhead
      obtain ⟨-, hoff, -, hid, hsize, hmax⟩ := frontFrame_some hfront
      have hcons := @consume_eq τ S bound R Q hd read (fr.atPayload h (headerBytes h rest))
        hr.failed hr.pending pending s' (rest.drop h.payloadOffset) (by omega) hR
      rw [length_drop] at hcons
      simp only [hn]
      by_cases hcut : rest.length < h.payloadOffset + h.dataSize
      · rw [if_pos (by omega)] at hcons
        rw [if_pos hcut]
        rw [hid, hsize] at hcons
        rw [eq_mk_of_fst hcons]
        rfl
      rw [if_neg (by omega)] at hcons
      rw [if_neg hcut]
      cases hfin : (fr.atPayload h (headerBytes h rest)).finish pending with
      | mk result fr' =>
        cases result with
        | error e =>
          simp only [hfin] at hcons ⊢
          rw [eq_mk_of_fst hcons]
        | ok u =>
          simp only [hfin] at hcons ⊢
          obtain ⟨s'', hs, hc⟩ := hcons
          rw [drop_drop, hsize] at hs
          rw [hsize] at hc
          exact ⟨s'', hs, by rw [hc]⟩

end Sources

lemma finish_ready {fr fr' : Frames Unit} {pending : Pending} (hfail : fr.failed = false)
    (hnone : fr.pending = none) (hcancel : fr.cancelled = false)
    (h : fr.finish pending = (.ok (), fr')) : fr'.Ready := by
  unfold Frames.finish at h
  simp only at h
  split at h
  · split at h
    · cases h
    · cases h
      exact ⟨hfail, hnone, hcancel⟩
  · cases h
    exact ⟨hfail, hnone, hcancel⟩

/-- A turn that goes on takes the frame off the front. -/
theorem frontTurn_go {read : Bool} {fr' : Frames Unit} {rest' : Bytes} {hd : FrameHeader}
    {ev : Event} (hr : fr.Ready) (h : frontTurn ph read fr rest = .go hd ev (fr', rest')) :
    fr'.Ready ∧ ∃ n, 4 < n ∧ n ≤ rest.length ∧ rest' = rest.drop n := by
  unfold frontTurn at h
  split at h
  · cases h
  · cases h
  next hd pending hfront =>
    obtain ⟨hpos, hoff, -⟩ := frontFrame_some hfront
    split at h
    · cases h
    next hcut =>
      split at h
      · cases h
      next hfin =>
        cases h
        have hready := @finish_ready (fr.atPayload hd (headerBytes hd rest)) _ pending hr.failed
          hr.pending hr.cancelled hfin
        refine ⟨hready, hd.payloadOffset + hd.dataSize, ?_, by omega, rfl⟩
        unfold FrameHeader.payloadOffset
        omega

/-- As many turns as there are bytes are enough. -/
theorem frontWalk_ends {choose : Nat → Bool} {fuel i : Nat} (hr : fr.Ready)
    (hfuel : rest.length < fuel) : (frontWalk ph choose fuel i fr rest).2 ≠ .outOfFuel := by
  induction fuel generalizing i fr rest with
  | zero => omega
  | succ fuel ih =>
    rw [frontWalk]
    cases ht : frontTurn ph (choose i) fr rest with
    | stop events ending =>
      simp only
      unfold frontTurn at ht
      split at ht
      · cases ht
        simp
      · cases ht
        simp
      · split at ht
        · cases ht
          simp
        · split at ht <;> cases ht
          simp
    | go h ev next =>
      obtain ⟨fr', rest'⟩ := next
      obtain ⟨hr', n, hn, hle, rfl⟩ := frontTurn_go hr ht
      exact ih hr' (by rw [length_drop]; omega)

/-- A source that always fills the prefix walks as its bytes do. -/
theorem walkFuel_eq {τ : Type} {S : Source τ} {bound : Nat} {R : τ → Bytes → Prop}
    (hd : Delivers S bound R R) (hbound : maxBlobDatasize ≤ bound)
    (hfill : ∀ {s rest}, R s rest → FillsAt S R 4 s rest) {choose : Nat → Bool} {fuel i : Nat}
    (hr : fr.Ready) {s : τ} (hs : R s rest) :
    walkFuel ph S choose fuel i (fr.withSrc s) = frontWalk ph choose fuel i fr rest := by
  induction fuel generalizing i fr s rest with
  | zero => rfl
  | succ fuel ih =>
    have hturn := @turn_eq ph τ S bound R R hd hbound (choose i) fr hr s rest (hfill hs)
    rw [walkFuel, frontWalk]
    cases ht : frontTurn ph (choose i) fr rest with
    | stop events ending =>
      rw [ht] at hturn
      simp only at hturn
      rw [hturn]
    | go h ev next =>
      obtain ⟨fr', rest'⟩ := next
      rw [ht] at hturn
      simp only [ite_self] at hturn
      obtain ⟨s', hs', hgo⟩ := hturn
      obtain ⟨hr', -⟩ := frontTurn_go hr ht
      simp only [hgo, ih hr' hs']

@[simp] lemma u32ToBe_length (n : Nat) : (u32ToBe n).length = 4 := by
  simp [u32ToBe]

lemma u32FromBe_u32ToBe {n : Nat} (h : n < 2 ^ 32) : u32FromBe (u32ToBe n) = n := by
  unfold u32FromBe u32ToBe
  rw [reverse_reverse, LeBytes.leNat_leBytes]
  exact Nat.mod_eq_of_lt h

lemma frontFrame_framed (fr : Frames σ) (hpos : 0 < buf.length)
    (hmax : buf.length < maxBlobHeaderSize) (rest : Bytes) :
    frontFrame ph fr (u32ToBe buf.length ++ (buf ++ rest)) =
      (acceptHeader ph fr.fields fr.partialIndex.isSome fr.streamStart fr.nextId buf.length
        buf).map some := by
  have hlen : buf.length < 2 ^ 32 := by
    unfold maxBlobHeaderSize at hmax
    omega
  have htake : (u32ToBe buf.length ++ (buf ++ rest)).take 4 = u32ToBe buf.length :=
    take_left' (u32ToBe_length _)
  have hdrop : (u32ToBe buf.length ++ (buf ++ rest)).drop 4 = buf ++ rest :=
    drop_left' (u32ToBe_length _)
  have hcheck : checkHeaderLen buf.length = .ok buf.length := by
    unfold checkHeaderLen
    rw [if_neg (by omega), if_neg (by omega)]
  unfold frontFrame
  rw [htake, hdrop, u32FromBe_u32ToBe hlen, hcheck]
  simp only [length_append, u32ToBe_length, take_left]
  rw [if_neg (by omega), if_neg (by omega)]

/-- A whole frame in front is taken off, its payload delivered or passed over. -/
theorem frontTurn_framed (read : Bool) {fr' : Frames Unit} {payload : Bytes}
    (hpos : 0 < buf.length) (hmax : buf.length < maxBlobHeaderSize)
    (haccept : acceptHeader ph fr.fields fr.partialIndex.isSome fr.streamStart fr.nextId buf.length
      buf = .ok (h, pending))
    (hsize : h.dataSize = payload.length) (rest : Bytes)
    (hfin : (fr.atPayload h buf).finish pending = (.ok (), fr')) :
    frontTurn ph read fr (u32ToBe buf.length ++ (buf ++ (payload ++ rest))) =
      .go h (if read then .payload payload else .skipped) (fr', rest) := by
  obtain ⟨hl, -⟩ := acceptHeader_ok haccept
  have hoff : h.payloadOffset = (u32ToBe buf.length ++ buf).length := by
    simp [FrameHeader.payloadOffset, hl]
  have hdrop : (u32ToBe buf.length ++ (buf ++ (payload ++ rest))).drop h.payloadOffset =
      payload ++ rest := by
    rw [← append_assoc, hoff, drop_left]
  have hbuf : headerBytes h (u32ToBe buf.length ++ (buf ++ (payload ++ rest))) = buf := by
    rw [headerBytes, drop_left' (u32ToBe_length _), hl, take_left]
  unfold frontTurn
  rw [frontFrame_framed fr hpos hmax, haccept]
  simp only [Except.map]
  rw [if_neg (by simp [hoff, hsize]; omega), hbuf, hfin]
  simp only
  rw [hdrop, ← drop_drop, hdrop, hsize, take_left, drop_left]

end Framing

end Frame
