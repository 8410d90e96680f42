import Pbfhogg.Diff.MergeJoin
import Pbfhogg.Lib.PrefixCode
import Pbfhogg.Read.BlobWire

/-!
# Element content and its canonical record

The tokens and the two record forms of `content.rs`: the content form, whose tokens `content_equal`
compares, and the full form with exact coordinates, way locations, pins and metadata. A string whose
lookup fails is `none`.
-/

namespace Content

open OsmId Fallible LeBytes PrefixCode BlobWire MergeJoin List Function

variable {u v xs ys : Bytes} {a b e : Element} {tags : List (Option (String × String))}
  {members : List (MemberId × Option String)} {prepass : Prepass}

inductive WriteError where
  | lookup
  | wire (msg : String)
  | invalidData (msg : String)

/-- `Info` as its accessors read it. -/
structure Info where
  version : Option Int32 := none
  milliTimestamp : Option Int64 := none
  changeset : Option Int64 := none
  uid : Option Int32 := none
  user : Option (Option String) := none
  visible : Option Bool := none

/-- One slot of `DenseInfo`. -/
structure DenseNodeInfo where
  version : Int32
  milliTimestamp : Int64
  changeset : Int64
  uid : Int32
  userSid : Int32
  user : Option String
  visible : Bool

inductive Element where
  | denseNode (id nanoLat nanoLon : Int64) (tags : List (Option (String × String)))
      (info : Option DenseNodeInfo)
  | node (id nanoLat nanoLon : Int64) (tags : List (Option (String × String))) (info : Info)
  | way (id : Int64) (tags : List (Option (String × String))) (refs : List Int64)
      (nodeLocations : List (Int64 × Int64)) (sharedNodePins : Option Bytes) (info : Info)
  | relation (id : Int64) (tags : List (Option (String × String)))
      (members : List (MemberId × Option String)) (info : Info)

namespace Element

def id : Element → Int64
  | denseNode id .. | node id .. | way id .. | relation id .. => id

def contentKind : Element → ElementKind
  | denseNode .. | node .. => .node
  | way .. => .way
  | relation .. => .relation

end Element

/-- `(nano / 100) as i32`. -/
def decimicro (nano : Int64) : Int32 := (nano / 100).toInt32

def tagToken (tag : Option (String × String)) : Option Token := tag.map fun p => .tag p.1 p.2

variable (m : MemberId × Option String)

def memberToken : Option Token := m.2.map fun role => .member m.1 role

def contentTokens : Element → List (Option Token)
  | .denseNode _ lat lon tags _ | .node _ lat lon tags _ =>
    some (.coord (decimicro lat) (decimicro lon)) :: tags.map tagToken
  | .way _ tags refs _ _ _ => tags.map tagToken ++ refs.map fun r => some (.ref r)
  | .relation _ tags members _ => tags.map tagToken ++ members.map memberToken

/-- The element as the merge compares it. -/
def content (e : Element) : MergeJoin.Element := ⟨e.contentKind, e.id, contentTokens e⟩

def kindNode : UInt8 := 0x01
def kindWay : UInt8 := 0x02
def kindRelation : UInt8 := 0x03
def tokenCoord : UInt8 := 0x10
def tokenTag : UInt8 := 0x11
def tokenRef : UInt8 := 0x12
def tokenMember : UInt8 := 0x13
def recordEnd : UInt8 := 0x1F
def memberNode : UInt8 := 0x00
def memberWay : UInt8 := 0x01
def memberRelation : UInt8 := 0x02
def memberUnknown : UInt8 := 0x03

def kindByte : ElementKind → UInt8
  | .node => kindNode
  | .way => kindWay
  | .relation => kindRelation

def writeStr (s : String) : Except WriteError Bytes :=
  if (utf8Bytes s).length < 2 ^ 32 then .ok (u32Le (utf8Bytes s).length ++ utf8Bytes s)
  else .error (.wire "string longer than u32::MAX bytes")

def writeTag (key value : String) : Except WriteError Bytes :=
  (seq writeStr writeStr (key, value)).map (tokenTag :: ·)

def memberType : MemberId → UInt8
  | .node _ => memberNode
  | .way _ => memberWay
  | .relation _ => memberRelation
  | .unknown _ _ => memberUnknown

/-- The raw type of a member of unknown type. -/
def memberRaw : MemberId → Bytes
  | .unknown raw _ => i32Le raw
  | _ => []

def memberId : MemberId → Int64
  | .node id | .way id | .relation id | .unknown _ id => id

def writeMember (id : MemberId) (role : String) : Except WriteError Bytes :=
  (writeStr role).map fun r =>
    tokenMember :: (memberType id :: (memberRaw id ++ (i64Le (memberId id) ++ r)))

def writeToken : Token → Except WriteError Bytes
  | .coord lat lon => .ok (tokenCoord :: (i32Le lat ++ i32Le lon))
  | .tag key value => writeTag key value
  | .ref r => .ok (tokenRef :: i64Le r)
  | .member id role => writeMember id role

/-- A token whose lookup failed ends the record with an error. -/
def writeLooked (t : Option Token) : Except WriteError Bytes :=
  match t with
  | none => .error .lookup
  | some t => writeToken t

/-- The kind byte, the id, the tokens and the end byte. -/
def writeRecord (e : Element) : Except WriteError Bytes :=
  (writeAll writeLooked (contentTokens e)).map fun tokens =>
    kindByte e.contentKind :: (i64Le e.id ++ (tokens ++ [recordEnd]))

/-- The records of a sequence of elements. -/
def writeRecords (es : List Element) : Except WriteError Bytes := writeAll writeRecord es

lemma delimits_i64 : Delimits fun x => (.ok (i64Le x) : Except WriteError Bytes) :=
  delimits_fixed length_i64Le i64Le_inj

lemma delimits_i32 : Delimits fun x => (.ok (i32Le x) : Except WriteError Bytes) :=
  delimits_fixed length_i32Le i32Le_inj

lemma writeStr_ok {s : String} (h : writeStr s = .ok u) :
    (utf8Bytes s).length < 2 ^ 32 ∧ u = u32Le (utf8Bytes s).length ++ utf8Bytes s := by
  unfold writeStr at h
  split at h
  · next hlt =>
    cases h
    exact ⟨hlt, rfl⟩
  · cases h

lemma delimits_writeStr : Delimits writeStr := by
  intro s t u v xs ys hs ht h
  obtain ⟨hslt, rfl⟩ := writeStr_ok hs
  obtain ⟨htlt, rfl⟩ := writeStr_ok ht
  rw [append_assoc, append_assoc] at h
  obtain ⟨hlen, h⟩ := append_inj h (by simp)
  obtain ⟨hbytes, hrest⟩ := append_inj h (u32Le_inj hslt htlt hlen)
  exact ⟨utf8Bytes_inj hbytes, hrest⟩

/-- What follows the token byte of a member. -/
def memberBody (m : MemberId × String) : Except WriteError Bytes :=
  (writeStr m.2).map fun r => memberType m.1 :: (memberRaw m.1 ++ (i64Le (memberId m.1) ++ r))

lemma delimits_memberBody : Delimits memberBody := by
  refine @delimits_tagged _ _ memberBody (fun m => (writeStr m.2).map fun r =>
    memberRaw m.1 ++ (i64Le (memberId m.1) ++ r)) (fun m => memberType m.1) (fun m => ?_) ?_
  · unfold memberBody
    cases writeStr m.2 <;> rfl
  · rintro ⟨a, ra⟩ ⟨b, rb⟩ u v xs ys htag ha hb h
    obtain ⟨s, hs, rfl⟩ := map_eq_ok.mp ha
    obtain ⟨t, ht, rfl⟩ := map_eq_ok.mp hb
    simp only [append_assoc] at h
    -- The type byte says whether a raw type follows.
    have hraw : (memberRaw a).length = (memberRaw b).length := by
      cases a <;> cases b <;> cases htag <;> rfl
    obtain ⟨hr, h⟩ := append_inj h hraw
    obtain ⟨hid, h⟩ := append_inj h (by simp)
    obtain ⟨rfl, hrest⟩ := delimits_writeStr hs ht h
    have hid' := i64Le_inj hid
    refine ⟨?_, hrest⟩
    cases a <;> cases b <;> cases htag
    all_goals simp only [memberId] at hid'
    · rw [hid']
    · rw [hid']
    · rw [hid']
    · rw [hid', i32Le_inj hr]

def tokenKind : Token → UInt8
  | .coord .. => tokenCoord
  | .tag .. => tokenTag
  | .ref _ => tokenRef
  | .member .. => tokenMember

/-- What follows the token byte. -/
def tokenBody : Token → Except WriteError Bytes
  | .coord lat lon => .ok (i32Le lat ++ i32Le lon)
  | .tag key value => seq writeStr writeStr (key, value)
  | .ref r => .ok (i64Le r)
  | .member id role => memberBody (id, role)

lemma writeToken_eq (t : Token) : writeToken t = (tokenBody t).map (tokenKind t :: ·) := by
  cases t with
  | coord lat lon => rfl
  | tag key value => rfl
  | ref r => rfl
  | member id role =>
    simp only [writeToken, writeMember, tokenBody, memberBody]
    cases writeStr role <;> rfl

lemma delimits_writeToken : Delimits writeToken := by
  refine delimits_tagged writeToken_eq ?_
  intro a b u v xs ys htag ha hb h
  cases a <;> cases b <;> cases htag
  · cases ha
    cases hb
    simp only [append_assoc] at h
    obtain ⟨hlat, h⟩ := append_inj h (by simp)
    obtain ⟨hlon, hrest⟩ := append_inj h (by simp)
    exact ⟨by rw [i32Le_inj hlat, i32Le_inj hlon], hrest⟩
  · obtain ⟨hkv, hrest⟩ := delimits_writeStr.seq delimits_writeStr ha hb h
    cases hkv
    exact ⟨rfl, hrest⟩
  · obtain ⟨hr, hrest⟩ := delimits_i64 ha hb h
    exact ⟨by rw [hr], hrest⟩
  · obtain ⟨hm, hrest⟩ := delimits_memberBody ha hb h
    cases hm
    exact ⟨rfl, hrest⟩

lemma tokenKind_ne_end (t : Token) : tokenKind t ≠ recordEnd := by
  cases t <;> simp only [tokenKind] <;> decide

lemma delimits_writeLooked : Delimits writeLooked := by
  intro a b u v xs ys ha hb h
  cases a with
  | none => cases ha
  | some a =>
    cases b with
    | none => cases hb
    | some b =>
      obtain ⟨rfl, hrest⟩ := delimits_writeToken ha hb h
      exact ⟨rfl, hrest⟩

lemma writeLooked_starts {t : Option Token} (h : writeLooked t = .ok u) :
    ∃ b w, u = b :: w ∧ b ≠ recordEnd := by
  cases t with
  | none => cases h
  | some t =>
    simp only [writeLooked, writeToken_eq] at h
    obtain ⟨w, -, rfl⟩ := map_eq_ok.mp h
    exact ⟨_, w, rfl, tokenKind_ne_end t⟩

lemma kindByte_inj {k k' : ElementKind} (h : kindByte k = kindByte k') : k = k' := by
  cases k <;> cases k' <;> first | rfl | cases h

/-- Two records in front of any bytes are told off them: the kind, the id and the tokens. -/
theorem writeRecord_delimits (ha : writeRecord a = .ok u) (hb : writeRecord b = .ok v)
    (h : u ++ xs = v ++ ys) : content a = content b ∧ xs = ys := by
  obtain ⟨s, hs, rfl⟩ := map_eq_ok.mp ha
  obtain ⟨t, ht, rfl⟩ := map_eq_ok.mp hb
  simp only [cons_append, append_assoc, nil_append] at h
  obtain ⟨hkind, h⟩ := cons.inj h
  obtain ⟨hid, h⟩ := append_inj h (by simp)
  obtain ⟨htokens, hrest⟩ := writeAll_terminated delimits_writeLooked writeLooked_starts hs ht h
  refine ⟨?_, hrest⟩
  unfold content
  rw [kindByte_inj hkind, i64Le_inj hid, htokens]

lemma tokensEqual_iff {xs ys : List (Option Token)} (hx : ∀ t ∈ xs, t ≠ none) :
    tokensEqual xs ys = true ↔ xs = ys := by
  induction xs generalizing ys with
  | nil => cases ys <;> simp [tokensEqual]
  | cons x xs ih =>
    cases x with
    | none => exact absurd rfl (hx none mem_cons_self)
    | some x =>
      cases ys with
      | nil => simp [tokensEqual]
      | cons y ys =>
        cases y with
        | none => simp [tokensEqual]
        | some y =>
          rw [tokensEqual, cons.injEq, Option.some.injEq,
            ← ih fun t ht => hx t (mem_cons_of_mem _ ht)]
          by_cases hxy : x = y
          · simp [hxy]
          · simp [hxy]

lemma resolves_of_writeRecord (h : writeRecord e = .ok u) : (content e).Resolves := by
  obtain ⟨s, hs, -⟩ := map_eq_ok.mp h
  intro t ht hnone
  subst hnone
  obtain ⟨w, hw⟩ := writeAll_mem_ok hs _ ht
  cases hw

/-- The same kind, the same id and equal content. -/
def SameContent (a b : Element) : Prop :=
  a.contentKind = b.contentKind ∧ a.id = b.id ∧ contentEqual (content a) (content b) = true

lemma sameContent_iff (ha : (content a).Resolves) : SameContent a b ↔ content a = content b := by
  have htokens := @tokensEqual_iff (contentTokens a) (contentTokens b) ha
  unfold SameContent contentEqual content
  rw [MergeJoin.Element.mk.injEq]
  constructor
  · rintro ⟨hkind, hid, heq⟩
    rw [if_neg (by simp [hkind])] at heq
    exact ⟨hkind, hid, htokens.mp heq⟩
  · rintro ⟨hkind, hid, heq⟩
    refine ⟨hkind, hid, ?_⟩
    rw [if_neg (by simp [hkind])]
    exact htokens.mpr heq

lemma writeRecord_eq_of_content (h : content a = content b) : writeRecord a = writeRecord b := by
  unfold content at h
  rw [MergeJoin.Element.mk.injEq] at h
  unfold writeRecord
  rw [h.1, h.2.1, h.2.2]

lemma writeRecord_ne_nil (h : writeRecord e = .ok u) : u ≠ [] := by
  obtain ⟨s, -, rfl⟩ := map_eq_ok.mp h
  simp

lemma writeRecord_apart (ha : writeRecord a = .ok u) (hb : writeRecord b = .ok v)
    (h : u ++ xs = v ++ ys) : SameContent a b ∧ xs = ys := by
  obtain ⟨hcontent, hrest⟩ := writeRecord_delimits ha hb h
  exact ⟨(sameContent_iff (resolves_of_writeRecord ha)).mpr hcontent, hrest⟩

/-- The streams of two sequences are the same exactly when the elements are, one for one. -/
theorem writeRecords_eq_iff {xs ys : List Element} (hx : writeRecords xs = .ok u)
    (hy : writeRecords ys = .ok v) : u = v ↔ List.Forall₂ SameContent xs ys := by
  refine writeAll_eq_iff writeRecord_apart ?_ writeRecord_ne_nil hx hy
  intro a b u v ha hb hsame
  have hcontent := (sameContent_iff (resolves_of_writeRecord ha)).mp hsame
  rw [writeRecord_eq_of_content hcontent, hb] at ha
  cases ha
  rfl

/-- Every string of a token fits its length. -/
def Token.Fits : Token → Prop
  | .tag key value => (utf8Bytes key).length < 2 ^ 32 ∧ (utf8Bytes value).length < 2 ^ 32
  | .member _ role => (utf8Bytes role).length < 2 ^ 32
  | _ => True

/-- Every string index of every element resolves, to a string whose length a `u32` holds. -/
def Resolved (es : List Element) : Prop :=
  ∀ e ∈ es, ∀ t ∈ contentTokens e, ∃ x, t = some x ∧ Token.Fits x

lemma writeStr_of_lt {s : String} (h : (utf8Bytes s).length < 2 ^ 32) :
    writeStr s = .ok (u32Le (utf8Bytes s).length ++ utf8Bytes s) := if_pos h

lemma writeToken_ok {t : Token} (h : Token.Fits t) : ∃ u, writeToken t = .ok u := by
  cases t with
  | coord lat lon => exact ⟨_, rfl⟩
  | tag key value =>
    refine ⟨tokenTag :: ((u32Le (utf8Bytes key).length ++ utf8Bytes key) ++
      (u32Le (utf8Bytes value).length ++ utf8Bytes value)), ?_⟩
    simp only [writeToken, writeTag, seq, writeStr_of_lt h.1, writeStr_of_lt h.2]
    rfl
  | ref r => exact ⟨_, rfl⟩
  | member id role =>
    refine ⟨tokenMember :: (memberType id :: (memberRaw id ++ (i64Le (memberId id) ++
      (u32Le (utf8Bytes role).length ++ utf8Bytes role)))), ?_⟩
    simp only [writeToken, writeMember, writeStr_of_lt h]
    rfl

/-- A sequence whose strings all resolve has a stream. -/
theorem writeRecords_ok {es : List Element} (h : Resolved es) : ∃ u, writeRecords es = .ok u := by
  refine writeAll_of_mem_ok fun e he => ?_
  have htokens : ∃ w, writeAll writeLooked (contentTokens e) = .ok w := by
    refine writeAll_of_mem_ok fun t ht => ?_
    obtain ⟨x, rfl, hx⟩ := h e he t ht
    exact writeToken_ok hx
  obtain ⟨w, hw⟩ := htokens
  exact ⟨_, by rw [writeRecord, hw]; rfl⟩

def tokenNanoCoord : UInt8 := 0x14
def tokenLocation : UInt8 := 0x15
def tokenPins : UInt8 := 0x16
def tokenWayMember : UInt8 := 0x17
def tokenMeta : UInt8 := 0x18

/-- What one element claims, field by field. -/
structure MetaClaims where
  version : Option Int32 := none
  milliTimestamp : Option Int64 := none
  changeset : Option Int64 := none
  uid : Option Int32 := none
  user : Option (Option String) := none
  visible : Option Bool := none

namespace MetaClaims

/-- A present version below 1 is no claim; every other field keeps its own presence. -/
def fromInfo (info : Info) : MetaClaims where
  version := info.version.filter fun v => decide (1 ≤ v)
  milliTimestamp := info.milliTimestamp
  changeset := info.changeset
  uid := info.uid
  user := info.user
  visible := info.visible

/-- A dense slot has a value for every field, so presence is read from the values. -/
def fromDense (info : DenseNodeInfo) : Option MetaClaims :=
  if 1 ≤ info.version then
    some ⟨some info.version, some info.milliTimestamp, some info.changeset, some info.uid,
      some info.user, some info.visible⟩
  else if info.version < 0 then none
  else
    some
      { version := none
        milliTimestamp := if info.milliTimestamp ≠ 0 then some info.milliTimestamp else none
        changeset := if 0 < info.changeset then some info.changeset else none
        uid := if 0 < info.uid then some info.uid else none
        user := if info.userSid = 0 ∨ info.user = some "" then none else some info.user
        visible := if info.visible then none else some false }

end MetaClaims

/-- The metadata a record pins: the claims, with the user's name resolved. -/
structure PinnedMeta where
  version : Option Int32 := none
  milliTimestamp : Option Int64 := none
  changeset : Option Int64 := none
  uid : Option Int32 := none
  user : Option String := none
  visible : Option Bool := none

/-- One unit of a full record. -/
inductive FullToken where
  | nanoCoord (lat lon : Int64)
  | tag (key value : String)
  | ref (id : Int64)
  | location (lat lon : Int64)
  | pins (positions : List UInt32)
  | wayMember (member : Bool)
  | member (id : MemberId) (role : String)
  | claims (c : PinnedMeta)

/-- The set bits of a byte, lowest first. -/
def setBits (byteIndex : Nat) (byte : UInt8) : List Nat :=
  ((range 8).filter fun bit => byte.toNat.testBit bit).map fun bit => byteIndex * 8 + bit

/-- The positions a bitmap pins. -/
def pinPositions (bits : Bytes) : List Nat :=
  bits.zipIdx.flatMap fun p => setBits p.2 p.1

def pinWidthMsg (len refs : Nat) : String :=
  "a pbfhogg.SharedNodePins-v1 bitmap of " ++ toString len ++ " byte(s) on a way of " ++
    toString refs ++ " ref(s); it must be one bit per ref, rounded up to whole bytes"

def pinPositionMsg (position refs : Nat) : String :=
  "a pbfhogg.SharedNodePins-v1 bitmap pins position " ++ toString position ++ " on a way of " ++
    toString refs ++ " ref(s)"

def checkPosition (refs position : Nat) : Except WriteError UInt32 :=
  if refs ≤ position then .error (.invalidData (pinPositionMsg position refs))
  else if 2 ^ 32 ≤ position then .error (.wire "pin position beyond u32::MAX")
  else .ok (UInt32.ofNat position)

/-- An absent bitmap and one with no bit set pin the same positions. -/
def pinSet (pins : Option Bytes) (refs : Nat) : Except WriteError (List UInt32) :=
  let bits := pins.getD []
  if pins.isSome ∧ bits.length ≠ (refs + 7) / 8 then
    .error (.invalidData (pinWidthMsg bits.length refs))
  else (pinPositions bits).mapM (checkPosition refs)

/-- No claims at all are every field absent. -/
def resolveMeta (claims : Option MetaClaims) : Except WriteError PinnedMeta :=
  match claims with
  | none => .ok {}
  | some m =>
    match m.user with
    | some none => .error .lookup
    | some (some user) =>
      .ok ⟨m.version, m.milliTimestamp, m.changeset, m.uid, some user, m.visible⟩
    | none => .ok ⟨m.version, m.milliTimestamp, m.changeset, m.uid, none, m.visible⟩

def pinsToken (pins : Option Bytes) (refs : Nat) : Except WriteError FullToken :=
  (pinSet pins refs).map .pins

def metaToken (claims : Option MetaClaims) : Except WriteError FullToken :=
  (resolveMeta claims).map .claims

def fullTag (tag : Option (String × String)) : Except WriteError FullToken :=
  match tag with
  | none => .error .lookup
  | some (key, value) => .ok (.tag key value)

def fullMember : Except WriteError FullToken :=
  match m.2 with
  | none => .error .lookup
  | some role => .ok (.member m.1 role)

/-- What the header declares about the prepass fields. -/
structure Prepass where
  pins : Bool

/-- The tokens of a full record in the order they are written. -/
def fullTokens (prepass : Prepass) (wayMember : Option Bool) :
    Element → List (Except WriteError FullToken)
  | .denseNode _ lat lon tags info =>
    .ok (.nanoCoord lat lon) :: (tags.map fullTag ++ [metaToken (info.bind MetaClaims.fromDense)])
  | .node _ lat lon tags info =>
    .ok (.nanoCoord lat lon) :: (tags.map fullTag ++ [metaToken (some (.fromInfo info))])
  | .way _ tags refs locations pins info =>
    tags.map fullTag ++ (refs.map (fun r => .ok (.ref r)) ++
      (locations.map (fun l => .ok (.location l.1 l.2)) ++
        ((if prepass.pins then [pinsToken pins refs.length] else []) ++
          (wayMember.toList.map (fun m => .ok (.wayMember m)) ++
            [metaToken (some (.fromInfo info))]))))
  | .relation _ tags members info =>
    tags.map fullTag ++ (members.map fullMember ++ [metaToken (some (.fromInfo info))])

def writePosition (p : UInt32) : Except WriteError Bytes := .ok (u32Le p.toNat)

def writePins (positions : List UInt32) : Except WriteError Bytes :=
  if positions.length < 2 ^ 32 then
    (writeAll writePosition positions).map fun u => tokenPins :: (u32Le positions.length ++ u)
  else .error (.wire "list longer than u32::MAX entries")

def boolByte (b : Bool) : Bytes := [if b then 1 else 0]

/-- The fields behind the metadata byte, each a presence byte and its value. -/
def metaBody (m : PinnedMeta) : Except WriteError Bytes :=
  seq (optional fun v => .ok (i32Le v))
    (seq (optional fun v => .ok (i64Le v))
      (seq (optional fun v => .ok (i64Le v))
        (seq (optional fun v => .ok (i32Le v))
          (seq (optional writeStr) (optional fun b => .ok (boolByte b))))))
    (m.version, m.milliTimestamp, m.changeset, m.uid, m.user, m.visible)

def writeMeta (m : PinnedMeta) : Except WriteError Bytes := (metaBody m).map (tokenMeta :: ·)

def writeFullToken : FullToken → Except WriteError Bytes
  | .nanoCoord lat lon => .ok (tokenNanoCoord :: (i64Le lat ++ i64Le lon))
  | .tag key value => writeTag key value
  | .ref r => .ok (tokenRef :: i64Le r)
  | .location lat lon => .ok (tokenLocation :: (i64Le lat ++ i64Le lon))
  | .pins positions => writePins positions
  | .wayMember m => .ok (tokenWayMember :: boolByte m)
  | .member id role => writeMember id role
  | .claims c => writeMeta c

/-- The kind byte, the id, the tokens and the end byte. -/
def writeFullRecord (prepass : Prepass) (wayMember : Option Bool) (e : Element) :
    Except WriteError Bytes :=
  (writeAll (fun t => t.bind writeFullToken) (fullTokens prepass wayMember e)).map fun tokens =>
    kindByte e.contentKind :: (i64Le e.id ++ (tokens ++ [recordEnd]))

lemma boolByte_inj {a b : Bool} (h : boolByte a = boolByte b) : a = b := by
  cases a <;> cases b <;> first | rfl | cases h

lemma delimits_bool : Delimits fun b => (.ok (boolByte b) : Except WriteError Bytes) :=
  @delimits_fixed WriteError Bool boolByte 1 (fun _ => rfl) boolByte_inj

lemma delimits_writePosition : Delimits writePosition :=
  delimits_fixed (fun _ => length_u32Le _) fun h =>
    UInt32.toNat_inj.mp (u32Le_inj (UInt32.toNat_lt _) (UInt32.toNat_lt _) h)

lemma delimits_metaBody : Delimits metaBody := by
  intro a b u v xs ys ha hb h
  have hvisible := @Delimits.optional _ _ _ @delimits_bool
  have huser := @Delimits.seq _ _ _ _ _ (@Delimits.optional _ _ _ @delimits_writeStr) @hvisible
  have huid := @Delimits.seq _ _ _ _ _ (@Delimits.optional _ _ _ @delimits_i32) @huser
  have hchangeset := @Delimits.seq _ _ _ _ _ (@Delimits.optional _ _ _ @delimits_i64) @huid
  have htime := @Delimits.seq _ _ _ _ _ (@Delimits.optional _ _ _ @delimits_i64) @hchangeset
  have hversion := @Delimits.seq _ _ _ _ _ (@Delimits.optional _ _ _ @delimits_i32) @htime
  obtain ⟨hfields, hrest⟩ := hversion ha hb h
  refine ⟨?_, hrest⟩
  obtain ⟨v1, t1, c1, u1, n1, b1⟩ := a
  obtain ⟨v2, t2, c2, u2, n2, b2⟩ := b
  simpa only [Prod.mk.injEq, PinnedMeta.mk.injEq] using hfields

/-- What follows the token byte of pins. -/
def pinsBody (positions : List UInt32) : Except WriteError Bytes :=
  if positions.length < 2 ^ 32 then
    (writeAll writePosition positions).map fun u => u32Le positions.length ++ u
  else .error (.wire "list longer than u32::MAX entries")

lemma pinsBody_ok {positions : List UInt32} {w : Bytes} (h : pinsBody positions = .ok w) :
    positions.length < 2 ^ 32 ∧ ∃ u, writeAll writePosition positions = .ok u ∧
      w = u32Le positions.length ++ u := by
  unfold pinsBody at h
  split at h
  · next hlt =>
    obtain ⟨u, hu, rfl⟩ := map_eq_ok.mp h
    exact ⟨hlt, u, hu, rfl⟩
  · cases h

lemma delimits_pinsBody : Delimits pinsBody := by
  intro a b w w' xs ys ha hb h
  obtain ⟨halt, u, hu, rfl⟩ := pinsBody_ok ha
  obtain ⟨hblt, v, hv, rfl⟩ := pinsBody_ok hb
  simp only [append_assoc] at h
  obtain ⟨hlen, h⟩ := append_inj h (by simp)
  exact writeAll_counted delimits_writePosition (u32Le_inj halt hblt hlen) hu hv h

def fullKind : FullToken → UInt8
  | .nanoCoord .. => tokenNanoCoord
  | .tag .. => tokenTag
  | .ref _ => tokenRef
  | .location .. => tokenLocation
  | .pins _ => tokenPins
  | .wayMember _ => tokenWayMember
  | .member .. => tokenMember
  | .claims _ => tokenMeta

/-- What follows the token byte. -/
def fullBody : FullToken → Except WriteError Bytes
  | .nanoCoord lat lon => .ok (i64Le lat ++ i64Le lon)
  | .tag key value => seq writeStr writeStr (key, value)
  | .ref r => .ok (i64Le r)
  | .location lat lon => .ok (i64Le lat ++ i64Le lon)
  | .pins positions => pinsBody positions
  | .wayMember m => .ok (boolByte m)
  | .member id role => memberBody (id, role)
  | .claims c => metaBody c

lemma writeFullToken_eq (t : FullToken) :
    writeFullToken t = (fullBody t).map (fullKind t :: ·) := by
  cases t with
  | pins positions =>
    simp only [writeFullToken, writePins, fullBody, pinsBody]
    split
    · cases writeAll writePosition positions <;> rfl
    · rfl
  | member id role => exact writeToken_eq (.member id role)
  | _ => rfl

lemma pair_i64_inj {a b c d : Int64} (h : i64Le a ++ i64Le b ++ xs = i64Le c ++ i64Le d ++ ys) :
    a = c ∧ b = d ∧ xs = ys := by
  simp only [append_assoc] at h
  obtain ⟨h1, h⟩ := append_inj h (by simp)
  obtain ⟨h2, h⟩ := append_inj h (by simp)
  exact ⟨i64Le_inj h1, i64Le_inj h2, h⟩

lemma delimits_writeFullToken : Delimits writeFullToken := by
  refine delimits_tagged writeFullToken_eq ?_
  intro a b u v xs ys htag ha hb h
  cases a <;> cases b <;> cases htag
  · cases ha
    cases hb
    obtain ⟨rfl, rfl, hrest⟩ := pair_i64_inj h
    exact ⟨rfl, hrest⟩
  · obtain ⟨hkv, hrest⟩ := delimits_writeStr.seq delimits_writeStr ha hb h
    cases hkv
    exact ⟨rfl, hrest⟩
  · obtain ⟨hr, hrest⟩ := delimits_i64 ha hb h
    exact ⟨by rw [hr], hrest⟩
  · cases ha
    cases hb
    obtain ⟨rfl, rfl, hrest⟩ := pair_i64_inj h
    exact ⟨rfl, hrest⟩
  · obtain ⟨hp, hrest⟩ := delimits_pinsBody ha hb h
    exact ⟨by rw [hp], hrest⟩
  · obtain ⟨hm, hrest⟩ := delimits_bool ha hb h
    exact ⟨by rw [hm], hrest⟩
  · obtain ⟨hm, hrest⟩ := delimits_memberBody ha hb h
    cases hm
    exact ⟨rfl, hrest⟩
  · obtain ⟨hc, hrest⟩ := delimits_metaBody ha hb h
    exact ⟨by rw [hc], hrest⟩

lemma fullKind_ne_end (t : FullToken) : fullKind t ≠ recordEnd := by
  cases t <;> simp only [fullKind] <;> decide

/-- The data of a full record, read off the element and not off its bytes. -/
inductive Pinned where
  | node (id lat lon : Int64) (tags : List (String × String)) (claims : PinnedMeta)
  | way (id : Int64) (tags : List (String × String)) (refs : List Int64)
      (locations : List (Int64 × Int64)) (pins : Option (List UInt32)) (wayMember : Option Bool)
      (claims : PinnedMeta)
  | relation (id : Int64) (tags : List (String × String)) (members : List (MemberId × String))
      (claims : PinnedMeta)

def lookup {α : Type} (x : Option α) : Except WriteError α :=
  match x with
  | none => .error .lookup
  | some a => .ok a

def lookupMember : Except WriteError (MemberId × String) :=
  (lookup m.2).map (m.1, ·)

/-- Pins count where the header declares them. -/
def declaredPins (prepass : Prepass) (pins : Option Bytes) (refs : Nat) :
    Except WriteError (Option (List UInt32)) :=
  if prepass.pins then (pinSet pins refs).map some else .ok none

def pinned (prepass : Prepass) (wayMember : Option Bool) : Element → Except WriteError Pinned
  | .denseNode id lat lon tags info => do
    let tags ← tags.mapM lookup
    let claims ← resolveMeta (info.bind MetaClaims.fromDense)
    return .node id lat lon tags claims
  | .node id lat lon tags info => do
    let tags ← tags.mapM lookup
    let claims ← resolveMeta (some (.fromInfo info))
    return .node id lat lon tags claims
  | .way id tags refs locations pins info => do
    let tags ← tags.mapM lookup
    let pins ← declaredPins prepass pins refs.length
    let claims ← resolveMeta (some (.fromInfo info))
    return .way id tags refs locations pins wayMember claims
  | .relation id tags members info => do
    let tags ← tags.mapM lookup
    let members ← members.mapM lookupMember
    let claims ← resolveMeta (some (.fromInfo info))
    return .relation id tags members claims

namespace Pinned

def kind : Pinned → ElementKind
  | node .. => .node
  | way .. => .way
  | relation .. => .relation

def id : Pinned → Int64
  | node id .. | way id .. | relation id .. => id

def tokens : Pinned → List FullToken
  | node _ lat lon tags claims =>
    .nanoCoord lat lon :: (tags.map (fun p => .tag p.1 p.2) ++ [.claims claims])
  | way _ tags refs locations pins wayMember claims =>
    tags.map (fun p => .tag p.1 p.2) ++ (refs.map .ref ++
      (locations.map (fun l => .location l.1 l.2) ++ (pins.toList.map .pins ++
        (wayMember.toList.map .wayMember ++ [.claims claims]))))
  | relation _ tags members claims =>
    tags.map (fun p => .tag p.1 p.2) ++
      (members.map (fun m => .member m.1 m.2) ++ [.claims claims])

end Pinned

lemma fullTags_eq {ts : List (String × String)} (h : tags.mapM lookup = .ok ts) :
    tags.map fullTag = ts.map fun p => .ok (.tag p.1 p.2) := by
  have hmap := mapM_eq_ok.mp h
  have hfull : tags.map fullTag = (tags.map lookup).map (Except.map fun p => .tag p.1 p.2) := by
    rw [List.map_map]
    refine List.map_congr_left fun t _ => ?_
    cases t <;> rfl
  rw [hfull, hmap, List.map_map]
  rfl

lemma fullMembers_eq {ms : List (MemberId × String)} (h : members.mapM lookupMember = .ok ms) :
    members.map fullMember = ms.map fun m => .ok (.member m.1 m.2) := by
  have hmap := mapM_eq_ok.mp h
  have hfull : members.map fullMember =
      (members.map lookupMember).map (Except.map fun m => .member m.1 m.2) := by
    rw [List.map_map]
    refine List.map_congr_left fun m _ => ?_
    obtain ⟨id, role⟩ := m
    cases role <;> rfl
  rw [hfull, hmap, List.map_map]
  rfl

lemma declaredPins_eq {pins : Option Bytes} {refs : Nat} {ps : Option (List UInt32)}
    (h : declaredPins prepass pins refs = .ok ps) :
    (if prepass.pins then [pinsToken pins refs] else []) =
      ps.toList.map fun p => .ok (.pins p) := by
  unfold declaredPins at h
  by_cases hp : prepass.pins
  · rw [if_pos hp] at h ⊢
    obtain ⟨q, hq, rfl⟩ := map_eq_ok.mp h
    simp [pinsToken, hq, Except.map]
  · rw [if_neg hp] at h ⊢
    cases h
    rfl

/-- The tokens of a record are those of the data it pins. -/
theorem fullTokens_eq {wayMember : Option Bool} {p : Pinned}
    (h : pinned prepass wayMember e = .ok p) : e.contentKind = p.kind ∧ e.id = p.id ∧
      fullTokens prepass wayMember e = p.tokens.map .ok := by
  cases e with
  | denseNode | node =>
    obtain ⟨ts, hts, h⟩ := bind_eq_ok.mp h
    obtain ⟨c, hc, h⟩ := bind_eq_ok.mp h
    cases h
    refine ⟨rfl, rfl, ?_⟩
    simp [fullTokens, Pinned.tokens, fullTags_eq hts, metaToken, hc, Except.map]
  | way id tags refs locations pins info =>
    obtain ⟨ts, hts, h⟩ := bind_eq_ok.mp h
    obtain ⟨ps, hps, h⟩ := bind_eq_ok.mp h
    obtain ⟨c, hc, h⟩ := bind_eq_ok.mp h
    cases h
    refine ⟨rfl, rfl, ?_⟩
    simp [fullTokens, Pinned.tokens, fullTags_eq hts, metaToken, hc, declaredPins_eq hps,
      Except.map, comp_def]
  | relation id tags members info =>
    obtain ⟨ts, hts, h⟩ := bind_eq_ok.mp h
    obtain ⟨ms, hms, h⟩ := bind_eq_ok.mp h
    obtain ⟨c, hc, h⟩ := bind_eq_ok.mp h
    cases h
    refine ⟨rfl, rfl, ?_⟩
    simp [fullTokens, Pinned.tokens, fullTags_eq hts, fullMembers_eq hms, metaToken, hc,
      Except.map, comp_def]

lemma lookup_tags_ok (h : ∀ t ∈ tags.map fullTag, ∃ x, t = .ok x) :
    ∃ ts, tags.mapM lookup = .ok ts := by
  refine mapM_of_mem_ok fun t ht => ?_
  obtain ⟨x, hx⟩ := h _ (mem_map_of_mem ht)
  cases t with
  | none => cases hx
  | some t => exact ⟨t, rfl⟩

lemma lookup_members_ok (h : ∀ t ∈ members.map fullMember, ∃ x, t = .ok x) :
    ∃ ms, members.mapM lookupMember = .ok ms := by
  refine mapM_of_mem_ok fun m hm => ?_
  obtain ⟨x, hx⟩ := h _ (mem_map_of_mem hm)
  obtain ⟨id, role⟩ := m
  cases role with
  | none => cases hx
  | some role => exact ⟨(id, role), rfl⟩

lemma resolveMeta_ok {claims : Option MetaClaims} (h : ∃ x, metaToken claims = .ok x) :
    ∃ c, resolveMeta claims = .ok c := by
  obtain ⟨x, hx⟩ := h
  obtain ⟨c, hc, -⟩ := map_eq_ok.mp hx
  exact ⟨c, hc⟩

lemma declaredPins_ok {pins : Option Bytes} {refs : Nat}
    (h : ∀ t ∈ if prepass.pins then [pinsToken pins refs] else [], ∃ x, t = .ok x) :
    ∃ ps, declaredPins prepass pins refs = .ok ps := by
  unfold declaredPins
  by_cases hp : prepass.pins
  · rw [if_pos hp] at h ⊢
    obtain ⟨x, hx⟩ := h _ mem_cons_self
    obtain ⟨q, hq, -⟩ := map_eq_ok.mp hx
    exact ⟨some q, by rw [hq]; rfl⟩
  · exact ⟨none, if_neg hp⟩

/-- A record whose tokens all resolve pins its data. -/
theorem pinned_ok {wayMember : Option Bool}
    (h : ∀ t ∈ fullTokens prepass wayMember e, ∃ x, t = .ok x) :
    ∃ p, pinned prepass wayMember e = .ok p := by
  cases e with
  | denseNode | node =>
    simp only [fullTokens, forall_mem_cons, forall_mem_append] at h
    obtain ⟨-, htags, hmeta, -⟩ := h
    obtain ⟨ts, hts⟩ := lookup_tags_ok htags
    obtain ⟨c, hc⟩ := resolveMeta_ok hmeta
    exact ⟨_, bind_eq_ok.mpr ⟨ts, hts, bind_eq_ok.mpr ⟨c, hc, rfl⟩⟩⟩
  | way id tags refs locations pins info =>
    simp only [fullTokens, forall_mem_append] at h
    obtain ⟨htags, -, -, hpins, -, hmeta⟩ := h
    obtain ⟨ts, hts⟩ := lookup_tags_ok htags
    obtain ⟨ps, hps⟩ := declaredPins_ok hpins
    obtain ⟨c, hc⟩ := resolveMeta_ok (hmeta _ mem_cons_self)
    exact ⟨_, bind_eq_ok.mpr ⟨ts, hts, bind_eq_ok.mpr ⟨ps, hps, bind_eq_ok.mpr ⟨c, hc, rfl⟩⟩⟩⟩
  | relation id tags members info =>
    simp only [fullTokens, forall_mem_append] at h
    obtain ⟨htags, hmembers, hmeta⟩ := h
    obtain ⟨ts, hts⟩ := lookup_tags_ok htags
    obtain ⟨ms, hms⟩ := lookup_members_ok hmembers
    obtain ⟨c, hc⟩ := resolveMeta_ok (hmeta _ mem_cons_self)
    exact ⟨_, bind_eq_ok.mpr ⟨ts, hts, bind_eq_ok.mpr ⟨ms, hms, bind_eq_ok.mpr ⟨c, hc, rfl⟩⟩⟩⟩

namespace FullToken

def asCoord : FullToken → Option (Int64 × Int64)
  | nanoCoord lat lon => some (lat, lon)
  | _ => none

def asTag : FullToken → Option (String × String)
  | tag key value => some (key, value)
  | _ => none

def asRef : FullToken → Option Int64
  | ref r => some r
  | _ => none

def asLocation : FullToken → Option (Int64 × Int64)
  | location lat lon => some (lat, lon)
  | _ => none

def asPins : FullToken → Option (List UInt32)
  | pins positions => some positions
  | _ => none

def asWayMember : FullToken → Option Bool
  | wayMember m => some m
  | _ => none

def asMember : FullToken → Option (MemberId × String)
  | member id role => some (id, role)
  | _ => none

def asClaims : FullToken → Option PinnedMeta
  | claims c => some c
  | _ => none

end FullToken

lemma toList_inj {α : Type} {a b : Option α} (h : a.toList = b.toList) : a = b := by
  cases a <;> cases b <;> simp_all

open FullToken in
/-- Each field of the data is read back from the tokens by their kind. -/
theorem Pinned.tokens_inj {p q : Pinned} (hkind : p.kind = q.kind) (hid : p.id = q.id)
    (h : p.tokens = q.tokens) : p = q := by
  have hcoord := congrArg (filterMap asCoord) h
  have htag := congrArg (filterMap asTag) h
  have href := congrArg (filterMap asRef) h
  have hlocation := congrArg (filterMap asLocation) h
  have hpins := congrArg (filterMap asPins) h
  have hwayMember := congrArg (filterMap asWayMember) h
  have hmember := congrArg (filterMap asMember) h
  have hclaims := congrArg (filterMap asClaims) h
  cases p <;> cases q <;> cases hkind <;> cases hid
  · simp [tokens, filterMap_cons, filterMap_append, filterMap_map, comp_def,
      asCoord, asTag, asClaims] at hcoord htag hclaims
    simp [hcoord, htag, hclaims]
  · simp [tokens, filterMap_cons, filterMap_append, filterMap_map, comp_def,
      asTag, asRef, asLocation, asPins, asWayMember, asClaims] at htag href hlocation hpins hwayMember hclaims
    simp [htag, href, hlocation, toList_inj hpins, toList_inj hwayMember, hclaims]
  · simp [tokens, filterMap_cons, filterMap_append, filterMap_map, comp_def,
      asTag, asMember, asClaims] at htag hmember hclaims
    simp [htag, hmember, hclaims]

lemma delimits_fullToken :
    Delimits fun t : Except WriteError FullToken => t.bind writeFullToken := by
  intro a b u v xs ys ha hb h
  obtain ⟨s, rfl, hs⟩ := bind_eq_ok.mp ha
  obtain ⟨t, rfl, ht⟩ := bind_eq_ok.mp hb
  obtain ⟨rfl, hrest⟩ := delimits_writeFullToken hs ht h
  exact ⟨rfl, hrest⟩

lemma fullToken_starts {t : Except WriteError FullToken} (h : t.bind writeFullToken = .ok u) :
    ∃ b w, u = b :: w ∧ b ≠ recordEnd := by
  obtain ⟨s, -, hs⟩ := bind_eq_ok.mp h
  rw [writeFullToken_eq] at hs
  obtain ⟨w, -, rfl⟩ := map_eq_ok.mp hs
  exact ⟨_, w, rfl, fullKind_ne_end s⟩

lemma pinned_of_writeFullRecord {wayMember : Option Bool}
    (h : writeFullRecord prepass wayMember e = .ok u) :
    ∃ p, pinned prepass wayMember e = .ok p := by
  obtain ⟨s, hs, -⟩ := map_eq_ok.mp h
  refine pinned_ok fun t ht => ?_
  obtain ⟨w, hw⟩ := writeAll_mem_ok hs t ht
  obtain ⟨x, hx, -⟩ := bind_eq_ok.mp hw
  exact ⟨x, hx⟩

/-- An element with what its file declares: whether pins count, and a way's membership bit. -/
structure Declared where
  element : Element
  prepass : Prepass
  wayMember : Option Bool

namespace Declared

def write (d : Declared) : Except WriteError Bytes :=
  writeFullRecord d.prepass d.wayMember d.element

def pinned (d : Declared) : Except WriteError Pinned :=
  Content.pinned d.prepass d.wayMember d.element

end Declared

/-- Both elements pin the same data. -/
def SamePinned (a b : Declared) : Prop := a.pinned = b.pinned

lemma write_delimits {a b : Declared} (ha : a.write = .ok u) (hb : b.write = .ok v)
    (h : u ++ xs = v ++ ys) : SamePinned a b ∧ xs = ys := by
  obtain ⟨p, hp⟩ := pinned_of_writeFullRecord ha
  obtain ⟨q, hq⟩ := pinned_of_writeFullRecord hb
  obtain ⟨hpkind, hpid, hptokens⟩ := fullTokens_eq hp
  obtain ⟨hqkind, hqid, hqtokens⟩ := fullTokens_eq hq
  obtain ⟨s, hs, rfl⟩ := map_eq_ok.mp ha
  obtain ⟨t, ht, rfl⟩ := map_eq_ok.mp hb
  simp only [cons_append, append_assoc, nil_append] at h
  obtain ⟨hkind, h⟩ := cons.inj h
  obtain ⟨hid, h⟩ := append_inj h (by simp)
  obtain ⟨htokens, hrest⟩ := writeAll_terminated delimits_fullToken fullToken_starts hs ht h
  have hkinds : p.kind = q.kind := by rw [← hpkind, ← hqkind, kindByte_inj hkind]
  have hids : p.id = q.id := by rw [← hpid, ← hqid, i64Le_inj hid]
  rw [hptokens, hqtokens] at htokens
  have htokens' := map_injective_iff.mpr (fun _ _ => Except.ok.inj) htokens
  exact ⟨hp.trans (by rw [Pinned.tokens_inj hkinds hids htokens', ← hq]; rfl), hrest⟩

lemma write_eq_of_samePinned {a b : Declared} (ha : a.write = .ok u) (hb : b.write = .ok v)
    (h : SamePinned a b) : u = v := by
  obtain ⟨p, hp⟩ := pinned_of_writeFullRecord ha
  have hq := h.symm.trans hp
  obtain ⟨hpkind, hpid, hptokens⟩ := fullTokens_eq hp
  obtain ⟨hqkind, hqid, hqtokens⟩ := fullTokens_eq hq
  unfold Declared.write writeFullRecord at ha hb
  rw [hptokens, hpkind, hpid] at ha
  rw [hqtokens, hqkind, hqid, ha] at hb
  exact Except.ok.inj hb

lemma write_ne_nil {d : Declared} (h : d.write = .ok u) : u ≠ [] := by
  obtain ⟨s, -, rfl⟩ := map_eq_ok.mp h
  simp

/-- Two streams are the same exactly when the sequences are as long and pairwise of the same kind,
id and content; a stream that begins another is that of its first elements; a record is told off any
bytes behind it. In the full form the same holds of what a record pins. -/
theorem digest_decides_content : (∀ es, Resolved es → ∃ u, writeRecords es = .ok u) ∧
      (∀ xs ys u v, writeRecords xs = .ok u → writeRecords ys = .ok v →
        (u = v ↔ List.Forall₂ SameContent xs ys) ∧
          (u <+: v → List.Forall₂ SameContent xs (ys.take xs.length))) ∧
      (∀ a b u v xs ys, writeRecord a = .ok u → writeRecord b = .ok v → u ++ xs = v ++ ys →
        SameContent a b ∧ xs = ys) ∧
      (∀ xs ys u v, writeAll Declared.write xs = .ok u → writeAll Declared.write ys = .ok v →
        (u = v ↔ List.Forall₂ SamePinned xs ys) ∧
          (u <+: v → List.Forall₂ SamePinned xs (ys.take xs.length))) ∧
      ∀ a b u v xs ys, a.write = .ok u → b.write = .ok v → u ++ xs = v ++ ys →
        SamePinned a b ∧ xs = ys := by
  refine ⟨fun es h => writeRecords_ok h, fun xs ys u v hu hv => ?_, fun a b u v xs ys => ?_,
    fun xs ys u v hu hv => ?_, fun a b u v xs ys => write_delimits⟩
  · exact ⟨writeRecords_eq_iff hu hv, writeAll_take writeRecord_apart writeRecord_ne_nil hu hv⟩
  · exact writeRecord_apart
  · exact ⟨writeAll_eq_iff write_delimits write_eq_of_samePinned write_ne_nil hu hv,
      writeAll_take write_delimits write_ne_nil hu hv⟩

/-- A way of one ref, and a relation with a member of unknown type. -/
def wayAndRelation : List Element :=
  [.way 1 [some ("k", "v")] [5] [] (some [1]) {},
    .relation 2 [] [(.unknown 7 3, some "r")] { version := some 4 }]

theorem digest_decides_way_and_relation : Resolved wayAndRelation ∧
      (∃ u, writeRecords wayAndRelation = .ok u ∧
        List.Forall₂ SameContent wayAndRelation wayAndRelation) ∧
      ∃ v, writeAll Declared.write (wayAndRelation.map (⟨·, ⟨true⟩, some true⟩)) = .ok v := by
  obtain ⟨hwrites, hdecides, -⟩ := digest_decides_content
  have hresolved : Resolved wayAndRelation := by
    intro e he t ht
    simp only [wayAndRelation, mem_cons, not_mem_nil, or_false] at he
    rcases he with rfl | rfl <;>
      simp only [contentTokens, map_cons, map_nil, cons_append, nil_append,
        mem_cons, not_mem_nil, or_false] at ht
    · rcases ht with rfl | rfl
      · exact ⟨_, rfl, by decide, by decide⟩
      · exact ⟨_, rfl, trivial⟩
    · subst ht
      exact ⟨_, rfl, by simp only [Token.Fits]; decide⟩
  refine ⟨hresolved, ?_, _, rfl⟩
  obtain ⟨u, hu⟩ := hwrites _ hresolved
  exact ⟨u, hu, ((hdecides _ _ u u hu hu).1).mp rfl⟩

end Content
