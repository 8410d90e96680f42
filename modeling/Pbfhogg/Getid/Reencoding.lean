import Pbfhogg.Getid.Partition
import Pbfhogg.Owned

/-!
# What encoding an element again changes

`process_block` hands the block builder the metadata that `owned.rs` reads and decimicrodegrees, so
an element that is encoded again may lose what a copied frame keeps.
-/

namespace Getid

open BlobMeta Content BlockBuilder Owned
open TagsFilter (elementsOf)

/-- What is decoded of an element beside its id, tags, refs and members, or what the builder was
handed of it. -/
inductive Rest where
  | denseNode (nanoLat nanoLon : Int64) (info : Option DenseNodeInfo)
  | node (nanoLat nanoLon : Int64) (info : Info)
  | way (nodeLocations : List (Int64 × Int64)) (sharedNodePins : Option Bytes) (info : Info)
  | relation (roles : List (Option String)) (info : Info)
  | built (position : Option (Int32 × Int32)) (roles : List String) (metadata : Option Metadata)

/-- The arms of `process_block`; the locations and pins of a way are not read. The text of a refusal
is left out. -/
def Rest.read (refusal : ReadError → PbfError) (e : TagsFilter.Element Rest) :
    Except PbfError Rest :=
  Except.mapError refusal <|
    match e.rest with
    | .denseNode lat lon info =>
      (denseNodeMetadata e.id info).map (.built (some (decimicro lat, decimicro lon)) [])
    | .node lat lon info =>
      (elementMetadata .node e.id info).map (.built (some (decimicro lat, decimicro lon)) [])
    | .way _ _ info => (elementMetadata .way e.id info).map (.built none [])
    | .relation roles info => do
      let members ← relationMembers e.id 0 (e.members.zip roles)
      let metadata ← elementMetadata .relation e.id info
      return .built none (members.map MemberData.role) metadata
    | .built .. => .ok e.rest

/-- The timestamp as a reader of the element sees it. -/
def Rest.milliTimestamp : Rest → Option Int64
  | .denseNode _ _ info => info.map DenseNodeInfo.milliTimestamp
  | .node _ _ info | .way _ _ info | .relation _ info => info.milliTimestamp
  | .built _ _ metadata => metadata.map fun m => m.timestamp * 1000

/-- A slot of half seconds. -/
def halfSecond : Rest := .denseNode 7 7 (some ⟨1, 1500, 1, 1, 1, some "a", true⟩)

/-- Two nodes in one blob, and one in another. -/
def halfSeconds : List (TagsFilter.Blob Rest) :=
  [⟨some ⟨.node, 1, 2, 2, none⟩, none, [⟨1, [], .node, halfSecond⟩, ⟨2, [], .node, halfSecond⟩]⟩,
    ⟨some ⟨.node, 5, 5, 1, none⟩, none, [⟨5, [], .node, halfSecond⟩]⟩]

lemma halfSeconds_true : TrueIndexdata false halfSeconds := by
  refine ⟨?_, .inl ?_⟩
  · intro b hb idx hidx
    simp only [halfSeconds, List.mem_cons, List.not_mem_nil, or_false] at hb
    rcases hb with rfl | rfl
    · cases hidx
      exact ⟨by simp [TagsFilter.Element.kind], rfl, by simp⟩
    · cases hidx
      exact ⟨by simp [TagsFilter.Element.kind], rfl, by simp⟩
  · simp [halfSeconds]

end Getid
