import Pbfhogg.Read.Elements

/-!
# Dense nodes as columns

`decode_dense_columns` decodes the ids, the latitudes and the longitudes of a block's dense groups
in three loops.
-/

namespace Columnar

open Protohoggr WireMessages BlockScan BlockValid Elements Fallible Deltas List

/-- A coordinate in decimicrodegrees from its absolute wire value. -/
def decimicro (offset granularity value : Int64) : Int32 :=
  ((offset + granularity * value) / 100).toInt32

structure DenseNodeColumns where
  ids : List Int64 := []
  lats : List Int32 := []
  lons : List Int32 := []

namespace DenseNodeColumns

def len (c : DenseNodeColumns) : Nat := min (min c.ids.length c.lats.length) c.lons.length

/-- One decoding loop: the running sum of the deltas, each sum scaled and pushed. -/
def pushSums {α : Type} (scale : Int64 → α) (column : List α) (deltas : List Int64) : List α :=
  (deltas.foldl (fun (s : Int64 × List α) delta =>
    (s.1 + delta, s.2 ++ [scale (s.1 + delta)])) (0, column)).2

def decodeAppend (ph : Crate) (c : DenseNodeColumns) (dense : WireDenseNodes)
    (fields : BlockFields) : DenseNodeColumns :=
  let gran := fields.granularity.toInt64
  { ids := pushSums id c.ids (ph.packedSint64 dense.idData)
    lats := pushSums (decimicro fields.latOffset gran) c.lats (ph.packedSint64 dense.latData)
    lons := pushSums (decimicro fields.lonOffset gran) c.lons (ph.packedSint64 dense.lonData) }

end DenseNodeColumns

open DenseNodeColumns

/-- `decode_dense_columns`, which clears the columns first and returns their length. -/
def decodeDenseColumns (ph : Crate) (block : PrimitiveBlock) :
    Except Panic (DenseNodeColumns × Nat) := do
  let groups ← block.block.groups
  let columns ← groups.foldlM (fun columns group => do
    let message ← validatedDense ph group
    return message.elim columns fun dense => columns.decodeAppend ph dense block.block.fields) {}
  return (columns, columns.len)

def denseNode? : Element → Option DenseNode
  | .denseNode n => some n
  | _ => none

def columnsOf (nodes : List DenseNode) : DenseNodeColumns :=
  ⟨nodes.map DenseNode.id, nodes.map DenseNode.decimicroLat, nodes.map DenseNode.decimicroLon⟩

def append (c d : DenseNodeColumns) : DenseNodeColumns :=
  ⟨c.ids ++ d.ids, c.lats ++ d.lats, c.lons ++ d.lons⟩

lemma append_assoc (c d e : DenseNodeColumns) : append (append c d) e = append c (append d e) := by
  simp [append]

lemma columnsOf_append (xs ys : List DenseNode) :
    columnsOf (xs ++ ys) = append (columnsOf xs) (columnsOf ys) := by
  simp [columnsOf, append]

lemma len_columnsOf (nodes : List DenseNode) : (columnsOf nodes).len = nodes.length := by
  simp [columnsOf, len]

lemma pushSums_eq {α : Type} (scale : Int64 → α) (column : List α) (deltas : List Int64) :
    pushSums scale column deltas = column ++ (sumsFrom 0 deltas).map scale := by
  suffices h : ∀ (s : Int64) (column : List α),
      (deltas.foldl (fun (s : Int64 × List α) delta =>
        (s.1 + delta, s.2 ++ [scale (s.1 + delta)])) (s, column)).2 =
          column ++ (sumsFrom s deltas).map scale from h 0 column
  induction deltas with
  | nil => simp [sumsFrom]
  | cons delta deltas ih =>
    intro s column
    rw [List.foldl_cons, ih, sumsFrom, List.map_cons, List.append_assoc, List.singleton_append]

/-- A list mapped in two steps, read off its two columns. -/
theorem map_scaled {nodes : List DenseNode} {raw : DenseNode → Int64} {scaled : DenseNode → Int32}
    {scale : Int64 → Int32} {sums : List Int64} (hsums : nodes.map raw = sums)
    (hscale : ∀ n ∈ nodes, scaled n = scale (raw n)) : sums.map scale = nodes.map scaled := by
  rw [← hsums, List.map_map]
  exact List.map_congr_left fun n hn => (hscale n hn).symm

variable {ph : Crate}

/-- One dense group, as columns and as elements. -/
theorem decodeAppend_eq {fields : BlockFields} {dense : WireDenseNodes} {nodes : List DenseNode}
    (h : denseNodes ph fields dense = .ok nodes) (c : DenseNodeColumns) :
    c.decodeAppend ph dense fields = append c (columnsOf nodes) := by
  obtain ⟨hids, hlats, hlons, hfields⟩ := denseNodes_sums h
  have hscaleLat : ∀ n ∈ nodes, n.decimicroLat =
      decimicro fields.latOffset fields.granularity.toInt64 n.lat := by
    intro n hn
    rw [DenseNode.decimicroLat, DenseNode.nanoLat, hfields n hn]
    rfl
  have hscaleLon : ∀ n ∈ nodes, n.decimicroLon =
      decimicro fields.lonOffset fields.granularity.toInt64 n.lon := by
    intro n hn
    rw [DenseNode.decimicroLon, DenseNode.nanoLon, hfields n hn]
    rfl
  have hlat := map_scaled hlats hscaleLat
  have hlon := map_scaled hlons hscaleLon
  simp only [decodeAppend, pushSums_eq, hlat, hlon, ← hids, map_id]
  rfl

lemma filterMap_groupList (fields : BlockFields) (dense : List DenseNode)
    (nodes : List WireNode) (ways : List WireWay) (relations : List WireRelation) :
    (groupList fields dense nodes ways relations).filterMap denseNode? = dense := by
  simp [groupList, filterMap_append, filterMap_map, Function.comp_def, denseNode?]

/-- The loop over the groups beside the parts the element iterator yields of them. -/
theorem foldlM_groups {fields : BlockFields} {groups : List Bytes}
    {parts : List (List Element)}
    (h : groups.map (groupElements ph fields) = parts.map .ok) (c : DenseNodeColumns) :
    groups.foldlM (fun columns group => do
      let message ← validatedDense ph group
      return message.elim columns fun dense => columns.decodeAppend ph dense fields) c =
        (.ok (append c (columnsOf (parts.flatten.filterMap denseNode?))) :
          Except Panic DenseNodeColumns) := by
  induction groups generalizing parts c with
  | nil =>
    cases parts with
    | nil => simp [columnsOf, append, pure, Except.pure]
    | cons _ _ => simp at h
  | cons group groups ih =>
    cases parts with
    | nil => simp at h
    | cons part parts =>
      obtain ⟨hgroup, hrest⟩ := cons.inj h
      obtain ⟨message, dense, nodes, ways, relations, hparts, rfl⟩ := groupElements_eq_ok.mp hgroup
      have hstep : (message.elim c fun dense => c.decodeAppend ph dense fields) =
          append c (columnsOf dense) := by
        have hdense := hparts.dense
        cases message with
        | none =>
          cases hdense
          simp [columnsOf, append]
        | some d => exact decodeAppend_eq hdense c
      rw [foldlM_cons, hparts.parsed, ok_bind, hstep]
      have hgo := ih hrest (append c (columnsOf dense))
      rw [flatten_cons, filterMap_append, filterMap_groupList, columnsOf_append, ← append_assoc]
      exact hgo

lemma decodeDenseColumns_eq {block : PrimitiveBlock} {es : List Element}
    (h : elements ph block = .ok es) : decodeDenseColumns ph block =
      .ok (columnsOf (es.filterMap denseNode?), (es.filterMap denseNode?).length) := by
  obtain ⟨groups, parts, hgroups, hparts, rfl⟩ := elements_eq_ok.mp h
  rw [decodeDenseColumns, hgroups, ok_bind, foldlM_groups hparts]
  simp only [ok_bind]
  have hempty : append {} (columnsOf (parts.flatten.filterMap denseNode?)) =
      columnsOf (parts.flatten.filterMap denseNode?) := by
    simp [append]
  rw [hempty, len_columnsOf]
  rfl

/-- Wherever `elements` gets through a block, the columns are its dense nodes, in order; and it
gets through every block whose positions fit. -/
theorem dense_columns_are_elements {bytes : Bytes} {block : PrimitiveBlock}
    (h : fromVec ph bytes = .ok block) :
    (∀ es, elements ph block = .ok es → decodeDenseColumns ph block =
        .ok (columnsOf (es.filterMap denseNode?), (es.filterMap denseNode?).length)) ∧
    (Fits bytes block → ∃ es, elements ph block = .ok es) :=
  ⟨fun _ => decodeDenseColumns_eq, elements_ok h⟩

/-- A block of two dense nodes under granularity `i32::MAX`, the second latitude past `i64`. -/
def wrappingBlock : Bytes :=
  lenField 2 (lenField 2 (packedField 1 [2, 2] ++
    packedField 8 [zigzagEncode (2 ^ 40), zigzagEncode 5] ++ packedField 9 [2, 4])) ++
    varintField 17 (2 ^ 31 - 1) ++ varintField 19 77

theorem dense_columns_are_elements_wrapping :
    ∃ block, fromVec Reference.crate wrappingBlock = .ok block ∧
      ((∀ es, elements Reference.crate block = .ok es → decodeDenseColumns Reference.crate block =
          .ok (columnsOf (es.filterMap denseNode?), (es.filterMap denseNode?).length)) ∧
      (Fits wrappingBlock block → ∃ es, elements Reference.crate block = .ok es)) := by
  have haccepted : ∃ block, fromVec Reference.crate wrappingBlock = .ok block := ⟨_, rfl⟩
  obtain ⟨block, hblock⟩ := haccepted
  exact ⟨block, hblock, dense_columns_are_elements hblock⟩

end Columnar
