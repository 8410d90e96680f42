import Pbfhogg.Diff.MergeJoin
import Pbfhogg.Scan.Way

/-!
# The iterators of an element

What `read/elements.rs` and `read/dense.rs` iterate inside an element: tags, members, metadata. A
packed array that ends before its partner panics, and so does a parse that validation made before. A
string index past the table ends `tags()` and is the error of `tags_checked()`.
-/

namespace Accessors

open MergeJoin Protohoggr WireMessages BlockScan Elements Deltas WayScan

/-- What a checked tag iterator reports. -/
inductive TagError
  | stringtableIndexOutOfBounds (index : Nat)
  | mismatchedTagArrays
  | malformed (e : Error)

/-- The tags a checked iterator yields, and the error it ends with, if it does. -/
abbrev CheckedTags := List (Bytes × Bytes) × Option TagError

section Source

variable (ph : Crate) (b : WireBlock)

/-- `str_from_stringtable`. -/
def strFromStringtable (index : Nat) : Except Panic (Except TagError Bytes) :=
  (b.stringGet index).map fun entry => entry.elim (.error (.stringtableIndexOutOfBounds index)) .ok

/-- Both strings of a tag, the key's error first. -/
def resolveTag (key val : Nat) :
    Except Panic (Except TagError (Bytes × Bytes)) := do
  let k ← strFromStringtable b key
  let v ← strFromStringtable b val
  return k.bind fun k => v.map fun v => (k, v)

/-- `RawTagIter`. -/
def rawTagsFrom : List UInt32 → List UInt32 → Except Panic (List (UInt32 × UInt32))
  | k :: ks, v :: vs => (rawTagsFrom ks vs).map ((k, v) :: ·)
  | [], [] => .ok []
  | _, _ => .error (.parallelArraysDiffer "tag key/value")

/-- `CheckedTagIter`. -/
def checkedTagsFrom (b : WireBlock) : List UInt32 → List UInt32 → Except Panic CheckedTags
  | k :: ks, v :: vs => do
    match ← resolveTag b k.toNat v.toNat with
    | .ok tag => (checkedTagsFrom b ks vs).map fun p => (tag :: p.1, p.2)
    | .error e => return ([], some e)
  | [], [] => .ok ([], none)
  | _, _ => .ok ([], some .mismatchedTagArrays)

/-- `DenseRawTagIter`; each turn consumes at least one byte. -/
def denseRawTagsFuel : Nat → Bytes → Except Panic (List (Int32 × Int32))
  | 0, _ => .ok []
  | fuel + 1, data =>
    if data = [] then .ok []
    else do
      let (key, cur) ← validated "DenseNodes keys_vals key" (ph.readVarint data)
      let (val, rest) ← validated "DenseNodes keys_vals value" (ph.readVarint cur)
      let tags ← denseRawTagsFuel fuel rest
      return (asInt32 key, asInt32 val) :: tags

/-- `DenseTagIter`. -/
def denseTagsFuel (b : WireBlock) : Nat → Bytes → Except Panic (List (Bytes × Bytes))
  | 0, _ => .ok []
  | fuel + 1, data =>
    if data = [] then .ok []
    else do
      let (key, cur) ← validated "DenseNodes keys_vals key" (ph.readVarint data)
      let (val, rest) ← validated "DenseNodes keys_vals value" (ph.readVarint cur)
      match ← resolveTag b key val with
      | .ok tag => (denseTagsFuel b fuel rest).map (tag :: ·)
      | .error _ => return []

/-- `CheckedDenseTagIter`. -/
def denseCheckedTagsFuel (b : WireBlock) : Nat → Bytes → Except Panic CheckedTags
  | 0, _ => .ok ([], none)
  | fuel + 1, data =>
    if data = [] then .ok ([], none)
    else
      match ph.readVarint data with
      | .error e => .ok ([], some (.malformed e))
      | .ok (key, cur) =>
        match ph.readVarint cur with
        | .error e => .ok ([], some (.malformed e))
        | .ok (val, rest) => do
          match ← resolveTag b key val with
          | .ok tag => (denseCheckedTagsFuel b fuel rest).map fun p => (tag :: p.1, p.2)
          | .error e => return ([], some e)

/-- `MemberType::from` and `MemberId::from_id_and_type`. -/
def memberIdFrom (id : Int64) (type : Int32) : MemberId :=
  if type = 0 then .node id
  else if type = 1 then .way id
  else if type = 2 then .relation id
  else .unknown type id

/-- `RelMemberIter`: the role's index and the member's id. -/
def membersFrom :
    List Int32 → List Int64 → List Int32 → Except Panic (List (Int32 × MemberId))
  | role :: roles, id :: ids, type :: types =>
    (membersFrom roles ids types).map ((role, memberIdFrom id type) :: ·)
  | [], [], [] => .ok []
  | _, _, _ => .error (.parallelArraysDiffer "relation member")

/-- `validated_info`. -/
def validatedInfo (infoData : Option Bytes) : Except Panic WireInfo :=
  infoData.elim (.ok {}) fun data => validated "element Info" (WireInfo.parse ph data)

/-- The tag arrays of a plain node, a way or a relation. -/
structure TagArrays where
  keysData : Bytes
  valsData : Bytes

namespace TagArrays

def rawTags (t : TagArrays) : Except Panic (List (UInt32 × UInt32)) :=
  rawTagsFrom (ph.packedUint32 t.keysData) (ph.packedUint32 t.valsData)

def tags (t : TagArrays) : Except Panic (List (Bytes × Bytes)) :=
  tagsFrom b (ph.packedUint32 t.keysData) (ph.packedUint32 t.valsData)

def tagsChecked (t : TagArrays) : Except Panic CheckedTags :=
  checkedTagsFrom b (ph.packedUint32 t.keysData) (ph.packedUint32 t.valsData)

end TagArrays

def denseRawTags (n : DenseNode) : Except Panic (List (Int32 × Int32)) :=
  denseRawTagsFuel ph n.tagBytes.length n.tagBytes

def denseTags (n : DenseNode) : Except Panic (List (Bytes × Bytes)) :=
  denseTagsFuel ph b n.tagBytes.length n.tagBytes

def denseTagsChecked (n : DenseNode) : Except Panic CheckedTags :=
  denseCheckedTagsFuel ph b n.tagBytes.length n.tagBytes

def members (r : WireRelation) : Except Panic (List (Int32 × MemberId)) :=
  membersFrom (ph.packedInt32 r.rolesSidData) (sumsFrom 0 (ph.packedSint64 r.memidsData))
    (ph.packedInt32 r.typesData)

end Source

end Accessors
