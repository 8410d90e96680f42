import Pbfhogg.Content
import Pbfhogg.Write.BuiltBytes

/-!
# Owned elements

`owned.rs`: an element read for re-encoding, and its metadata. An `Info` without a version, and a
dense slot with version -1, give none at all. A user name or a role that does not resolve is an
error; its text is left out.
-/

namespace Owned

open OsmId MergeJoin Content BlockBuilder BuiltBytes

inductive ReadError where
  | badUser (kind : ElementKind) (id : Int64)
  | badRole (relation : Int64) (position : Nat)

/-- `Info::visible`. -/
def infoVisible (info : Info) : Bool := info.visible.getD true

/-- `Info::claimed_version`. -/
def claimedVersion (info : Info) : Option Int32 := info.version.filter fun v => decide (1 ≤ v)

/-- `DenseNodeInfo::claimed_version`. -/
def denseClaimedVersion (info : DenseNodeInfo) : Option Int32 :=
  if 1 ≤ info.version then some info.version else none

def mapSentinel (value : Int64) : Int64 := if value = -1 then 0 else value

/-- The user of an `Info`; an absent one is empty. -/
def resolveUser (kind : ElementKind) (id : Int64) : Option (Option String) →
    Except ReadError String
  | none => .ok ""
  | some none => .error (.badUser kind id)
  | some (some user) => .ok user

def elementMetadata (kind : ElementKind) (id : Int64) (info : Info) :
    Except ReadError (Option Metadata) :=
  match info.version with
  | none => .ok none
  | some version =>
    (resolveUser kind id info.user).map fun user =>
      some
        { version
          timestamp := info.milliTimestamp.getD 0 / 1000
          changeset := info.changeset.getD 0
          uid := info.uid.getD 0
          user
          visible := infoVisible info }

def denseNodeMetadata (id : Int64) (info : Option DenseNodeInfo) :
    Except ReadError (Option Metadata) :=
  match info with
  | none => .ok none
  | some info =>
    if info.version = -1 then .ok none
    else
      (resolveUser .node id (some info.user)).map fun user =>
        some
          { version := info.version
            timestamp := info.milliTimestamp / 1000
            changeset := mapSentinel info.changeset
            uid := info.uid
            user
            visible := info.visible }

/-- `tags()`: it ends before the first tag whose lookup fails. -/
def namedTags : List (Option (String × String)) → List (String × String)
  | some tag :: tags => tag :: namedTags tags
  | _ => []

/-- `relation_members_into`, from a position on. -/
def relationMembers (id : Int64) : Nat → List (MemberId × Option String) →
    Except ReadError (List MemberData)
  | _, [] => .ok []
  | position, (_, none) :: _ => .error (.badRole id position)
  | position, (member, some role) :: members =>
    (relationMembers id (position + 1) members).map (⟨member, role⟩ :: ·)

/-- An owned element is what the builder is handed for it. -/
inductive OwnedElement where
  | node (n : NodeAdd)
  | way (w : WayAdd)
  | relation (r : RelationAdd)

namespace OwnedElement

def metadata : OwnedElement → Option Metadata
  | node n => n.metadata
  | way w => w.metadata
  | relation r => r.metadata

/-- An element without metadata is visible. -/
def visible (e : OwnedElement) : Bool := e.metadata.all Metadata.visible

def id : OwnedElement → Int64
  | node n => n.id
  | way w => w.id
  | relation r => r.id

/-- The kind of block it goes into. -/
def blockType : OwnedElement → BlockType
  | node _ => .denseNodes
  | way _ => .ways
  | relation _ => .relations

/-- The raw type of its first member of unknown type. -/
def unknownType : OwnedElement → Option Int32
  | relation r => Builder.unknownType r.members
  | _ => none

end OwnedElement

def readDenseNode (id lat lon : Int64) (tags : List (Option (String × String)))
    (info : Option DenseNodeInfo) : Except ReadError NodeAdd :=
  (denseNodeMetadata id info).map fun m => ⟨id, decimicro lat, decimicro lon, namedTags tags, m⟩

def readNode (id lat lon : Int64) (tags : List (Option (String × String))) (info : Info) :
    Except ReadError NodeAdd :=
  (elementMetadata .node id info).map fun m =>
    ⟨id, decimicro lat, decimicro lon, namedTags tags, m⟩

/-- The locations of a way are not read. -/
def readWay (id : Int64) (tags : List (Option (String × String))) (refs : List Int64)
    (info : Info) : Except ReadError WayAdd :=
  (elementMetadata .way id info).map fun m => ⟨id, namedTags tags, refs, none, m⟩

/-- The members come before the metadata. -/
def readRelation (id : Int64) (tags : List (Option (String × String)))
    (members : List (MemberId × Option String)) (info : Info) : Except ReadError RelationAdd := do
  let members ← relationMembers id 0 members
  let m ← elementMetadata .relation id info
  return ⟨id, namedTags tags, members, m⟩

end Owned
