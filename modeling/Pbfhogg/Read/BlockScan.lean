import Pbfhogg.Lib.LeBytes
import Pbfhogg.Wire.Messages

/-!
# The top level of a block

`scan_block_fields` records where the groups of a `PrimitiveBlock` and the strings of its last
string table lie, as pairs of 32-bit words. `WireBlock::inline_tables` appends both lists to the
block's bytes, and every later access reads them back from there.
-/

namespace BlockScan

open Protohoggr FieldWalk WireMessages LeBytes Fallible
open List hiding take

/-- A `PrimitiveBlock`'s scalar parameters, defaults applied. -/
structure BlockFields where
  granularity : Int32 := 100
  latOffset : Int64 := 0
  lonOffset : Int64 := 0
  dateGranularity : Int32 := 1000

/-- `&buffer[offset..offset + len]` where the range is known to lie inside. -/
def sliceAt (buffer : Bytes) (offset len : Nat) : Bytes := (buffer.drop offset).take len

/-- The offset in a buffer of `size` bytes of a slice that ends where `rest` starts. -/
def startOf (size : Nat) (data rest : Bytes) : Nat := size - rest.length - data.length

/-- A recorded position: offset and length, each narrowed to `u32`. -/
abbrev Position := UInt32 × UInt32

def position (offset len : Nat) : Position := (UInt32.ofNat offset, UInt32.ofNat len)

/-- What the loop over the top level holds. -/
structure TopLevel where
  fields : BlockFields := {}
  stringtableOffset : Nat := 0
  stringtableLen : Nat := 0
  groups : List Position := []

section Scan

variable (ph : Crate)

/-- The scalar fields. -/
def scalarField (fields : BlockFields) (field wire : Nat) :
    Bytes → Except Error (BlockFields × Bytes) :=
  match field, wire with
  | 17, wireVarint => fun cur =>
    take (readInt32 ph "PrimitiveBlock.granularity exceeds int32" cur) fun g =>
      .ok { fields with granularity := g }
  | 19, wireVarint => fun cur =>
    take (ph.readVarintI64 cur) fun x => .ok { fields with latOffset := x }
  | 20, wireVarint => fun cur =>
    take (ph.readVarintI64 cur) fun x => .ok { fields with lonOffset := x }
  | 18, wireVarint => fun cur =>
    take (readInt32 ph "PrimitiveBlock.date_granularity exceeds int32" cur) fun g =>
      .ok { fields with dateGranularity := g }
  | _, _ => skip ph.reader fields wire

def blockField (size : Nat) : Handler Error TopLevel := fun s field wire cur =>
  match field, wire with
  | 1, wireLen =>
    (ph.readLenDelimited cur).map fun p =>
      ({ s with
          stringtableOffset := startOf size p.1 p.2
          stringtableLen := p.1.length }, p.2)
  | 2, wireLen =>
    (ph.readLenDelimited cur).map fun p =>
      ({ s with groups := s.groups ++ [position (startOf size p.1 p.2) p.1.length] }, p.2)
  | field, wire =>
    (scalarField ph s.fields field wire cur).map fun p => ({ s with fields := p.1 }, p.2)

/-- `WireStringTable::scan_entries` over a table of `size` bytes at `base`. -/
def entryField (base size : Nat) : Handler Error (List Position) := fun out field wire cur =>
  if field = 1 ∧ wire = wireLen then
    (ph.readLenDelimited cur).map fun p =>
      (out ++ [position (base + startOf size p.1 p.2) p.1.length], p.2)
  else skip ph.reader out wire cur

def scanEntries (base : Nat) (data : Bytes) : Except Error (List Position) :=
  walk ph.reader (entryField ph base data.length) [] data

structure Scanned where
  fields : BlockFields
  stEntries : List Position
  groupEntries : List Position

def scanBlockFields (buffer : Bytes) : Except Error Scanned := do
  let top ← walk ph.reader (blockField ph buffer.length) {} buffer
  let stData :=
    if 0 < top.stringtableLen then sliceAt buffer top.stringtableOffset top.stringtableLen else []
  let stEntries ← scanEntries ph top.stringtableOffset stData
  return ⟨top.fields, stEntries, top.groups⟩

end Scan

/-- The two words of a table entry. -/
def entryBytes (p : Position) : Bytes := leBytes 4 p.1.toNat ++ leBytes 4 p.2.toNat

@[simp] lemma length_entryBytes (p : Position) : (entryBytes p).length = 8 := by
  simp [entryBytes]

@[simp] lemma length_entries (ps : List Position) :
    (ps.flatMap entryBytes).length = 8 * ps.length := by
  induction ps with
  | nil => rfl
  | cons p ps ih =>
    rw [flatMap_cons, length_append, ih, length_entryBytes, length_cons]
    omega

/-- `WireBlock`: the bytes with both tables appended, and where the tables start. -/
structure WireBlock where
  buffer : Bytes
  protoLen : UInt32
  stInlineOffset : UInt32
  stInlineCount : UInt32
  grInlineOffset : UInt32
  grInlineCount : UInt32
  fields : BlockFields

def inlineTables (buf : Bytes) (stEntries groupEntries : List Position)
    (fields : BlockFields) : WireBlock :=
  let buf' := buf ++ stEntries.flatMap entryBytes
  { buffer := buf' ++ groupEntries.flatMap entryBytes
    protoLen := UInt32.ofNat buf.length
    stInlineOffset := UInt32.ofNat buf.length
    stInlineCount := UInt32.ofNat stEntries.length
    grInlineOffset := UInt32.ofNat buf'.length
    grInlineCount := UInt32.ofNat groupEntries.length
    fields := fields }

/-- How a reader of a constructed block can stop: a re-parse of bytes that construction accepted
fails, parallel arrays end on different steps, or an index lies outside the buffer. -/
inductive Panic
  | constructionInvariantBroken (what : String)
  | parallelArraysDiffer (what : String)
  | outOfBounds
deriving DecidableEq

def checkedSlice (buffer : Bytes) (offset len : Nat) : Except Panic Bytes :=
  if offset + len ≤ buffer.length then .ok (sliceAt buffer offset len) else .error .outOfBounds

/-- The slice a table entry at `base` names. -/
def entrySlice (buffer : Bytes) (base : Nat) : Except Panic Bytes :=
  match leAt 4 buffer base, leAt 4 buffer (base + 4) with
  | some off, some len => checkedSlice buffer off len
  | _, _ => .error .outOfBounds

namespace WireBlock

variable (b : WireBlock)

def groupCount : Nat := b.grInlineCount.toNat

def group (index : Nat) : Except Panic Bytes :=
  entrySlice b.buffer (b.grInlineOffset.toNat + index * 8)

/-- The groups in order, as `GroupIter` visits them. -/
def groups : Except Panic (List Bytes) :=
  (range b.groupCount).mapM b.group

/-- `WireStringTable::len`. -/
def stringTableLen : Nat := b.stInlineCount.toNat

/-- `WireStringTable::get`. -/
def stringGet (index : Nat) : Except Panic (Option Bytes) :=
  if b.stringTableLen ≤ index then .ok none
  else if b.buffer.length < b.stInlineOffset.toNat + index * 8 + 8 then .ok none
  else (entrySlice b.buffer (b.stInlineOffset.toNat + index * 8)).map some

end WireBlock

/-- The top level as slices. -/
structure Top where
  fields : BlockFields := {}
  table : Bytes := []
  groups : List Bytes := []

section Slices

variable (ph : Crate)

def topField : Handler Error Top := fun s field wire =>
  match field, wire with
  | 1, wireLen => fun cur => take (ph.readLenDelimited cur) fun d => .ok { s with table := d }
  | 2, wireLen => fun cur =>
    take (ph.readLenDelimited cur) fun d => .ok { s with groups := s.groups ++ [d] }
  | field, wire => fun cur =>
    take (scalarField ph s.fields field wire cur) fun f => .ok { s with fields := f }

def tableField : Handler Error (List Bytes) := fun out field wire =>
  if field = 1 ∧ wire = wireLen then fun cur =>
    take (ph.readLenDelimited cur) fun d => .ok (out ++ [d])
  else skip ph.reader out wire

variable {ph}

lemma readsField_scalarField (fields : BlockFields) (field wire : Nat) :
    ReadsField ph.reader wire (scalarField ph fields field wire) := by
  unfold scalarField
  split
  · exact readsField_take (readsField_readInt32 _) _
  · exact readsField_take Crate.readsField_varintI64 _
  · exact readsField_take Crate.readsField_varintI64 _
  · exact readsField_take (readsField_readInt32 _) _
  · exact readsField_skip fields _

lemma local_topField : Local ph.reader (topField ph) := by
  intro s field wire
  unfold topField
  split
  · exact readsField_take Crate.readsField_len _
  · exact readsField_take Crate.readsField_len _
  · exact readsField_take (readsField_scalarField _ _ _) _

lemma local_tableField : Local ph.reader (tableField ph) := by
  intro out field wire
  unfold tableField
  split
  · next h =>
    rw [h.2]
    exact readsField_take Crate.readsField_len _
  · exact readsField_skip out wire

/-- `p` is the position of the slice `d` of the buffer. -/
def Placed (buffer : Bytes) (p : Position) (d : Bytes) : Prop :=
  ∃ offset, p = position offset d.length ∧ offset + d.length ≤ buffer.length ∧
    sliceAt buffer offset d.length = d

lemma sliceAt_append (pre d post : Bytes) :
    sliceAt (pre ++ (d ++ post)) pre.length d.length = d := by
  simp [sliceAt]

variable {cur d rest buffer bytes : Bytes} {table : List Bytes}

/-- A length-delimited value and the bytes before and behind it. -/
theorem readLenDelimited_split (h : ph.readLenDelimited cur = .ok (d, rest)) :
    ∃ pre, cur = pre ++ (d ++ rest) := by
  obtain ⟨n, hn, -⟩ := ph.readLenDelimited_ok.mp h
  obtain ⟨raw, -, hraw, -⟩ := Varint.decode_split hn
  exact ⟨raw, hraw⟩

lemma slice_of_read (hsuffix : cur <:+ buffer) (h : ph.readLenDelimited cur = .ok (d, rest)) :
    startOf buffer.length d rest + d.length ≤ buffer.length ∧
      sliceAt buffer (startOf buffer.length d rest) d.length = d := by
  obtain ⟨pre, rfl⟩ := hsuffix
  obtain ⟨raw, rfl⟩ := readLenDelimited_split h
  have hstart : startOf (pre ++ (raw ++ (d ++ rest))).length d rest = (pre ++ raw).length := by
    simp only [startOf, length_append]
    omega
  rw [hstart, ← append_assoc, sliceAt_append]
  refine ⟨?_, rfl⟩
  simp only [length_append]
  omega

lemma sliceAt_sliceAt {table : Bytes} {base offset : Nat}
    (htable : sliceAt buffer base table.length = table) (hin : offset + d.length ≤ table.length)
    (hd : sliceAt table offset d.length = d) : sliceAt buffer (base + offset) d.length = d := by
  have hcut : sliceAt (sliceAt buffer base table.length) offset d.length =
      sliceAt buffer (base + offset) d.length := by
    rw [sliceAt, sliceAt, sliceAt, drop_take, take_take, drop_drop,
      Nat.min_eq_left (by omega)]
  rw [← hcut, htable, hd]

/-- The loop over the top level beside the loop over its slices. -/
structure TopRel (buffer : Bytes) (s : TopLevel) (t : Top) : Prop where
  fields : s.fields = t.fields
  tableLen : s.stringtableLen = t.table.length
  tableIn : s.stringtableOffset + t.table.length ≤ buffer.length
  table : sliceAt buffer s.stringtableOffset t.table.length = t.table
  groups : List.Forall₂ (Placed buffer) s.groups t.groups

lemma steps_blockField (size : Nat) : Steps ph.reader (blockField ph size) := by
  intro s field wire cur s' rest h
  unfold blockField at h
  split at h
  · obtain ⟨p, hp, hs⟩ := map_eq_ok.mp h
    cases hs
    exact (Crate.readsField_len hp).1
  · obtain ⟨p, hp, hs⟩ := map_eq_ok.mp h
    cases hs
    exact (Crate.readsField_len hp).1
  · obtain ⟨p, hp, hs⟩ := map_eq_ok.mp h
    cases hs
    exact (readsField_scalarField _ _ _ hp).1

lemma TopRel.step {s s' : TopLevel} {t : Top} {field wire : Nat} (hsuffix : cur <:+ buffer)
    (hrel : TopRel buffer s t) (h : blockField ph buffer.length s field wire cur = .ok (s', rest)) :
    ∃ t', topField ph t field wire cur = .ok (t', rest) ∧ TopRel buffer s' t' := by
  unfold blockField at h
  split at h
  · obtain ⟨⟨d, r⟩, hp, hs⟩ := map_eq_ok.mp h
    cases hs
    obtain ⟨hin, hslice⟩ := slice_of_read hsuffix hp
    refine ⟨{ t with table := d }, by simp [topField, take, hp, Except.bind, Except.map], ?_⟩
    exact ⟨hrel.fields, rfl, hin, hslice, hrel.groups⟩
  · obtain ⟨⟨d, r⟩, hp, hs⟩ := map_eq_ok.mp h
    cases hs
    obtain ⟨hin, hslice⟩ := slice_of_read hsuffix hp
    refine ⟨{ t with groups := t.groups ++ [d] },
      by simp [topField, take, hp, Except.bind, Except.map], ?_⟩
    exact ⟨hrel.fields, hrel.tableLen, hrel.tableIn, hrel.table,
      rel_append hrel.groups (.cons ⟨_, rfl, hin, hslice⟩ .nil)⟩
  · next hone htwo =>
    obtain ⟨⟨f, r⟩, hp, hs⟩ := map_eq_ok.mp h
    cases hs
    refine ⟨{ t with fields := f }, ?_, rfl, hrel.tableLen, hrel.tableIn, hrel.table, hrel.groups⟩
    rw [hrel.fields] at hp
    unfold topField
    split
    · exact absurd rfl (hone rfl)
    · exact absurd rfl (htwo rfl)
    · simp [take, hp, Except.bind, Except.map]

/-- The entries of a table that lies at `base`. -/
theorem entryField_step {table : Bytes} {base : Nat}
    (hin : base + table.length ≤ buffer.length)
    (htable : sliceAt buffer base table.length = table) {ps ps' : List Position}
    {ds : List Bytes} {field wire : Nat} (hsuffix : cur <:+ table)
    (hrel : List.Forall₂ (Placed buffer) ps ds)
    (h : entryField ph base table.length ps field wire cur = .ok (ps', rest)) :
    ∃ ds', tableField ph ds field wire cur = .ok (ds', rest) ∧
      List.Forall₂ (Placed buffer) ps' ds' := by
  unfold entryField at h
  split at h
  · next hfield =>
    obtain ⟨⟨d, r⟩, hp, hs⟩ := map_eq_ok.mp h
    cases hs
    obtain ⟨hd, hslice⟩ := slice_of_read hsuffix hp
    refine ⟨ds ++ [d], by simp [tableField, hfield, take, hp, Except.bind, Except.map], ?_⟩
    refine rel_append hrel (.cons ⟨base + startOf table.length d r, rfl, by omega, ?_⟩ .nil)
    exact sliceAt_sliceAt htable hd hslice
  · next hfield =>
    obtain ⟨r, hr, hs⟩ := map_eq_ok.mp h
    cases hs
    refine ⟨ds, ?_, hrel⟩
    simp [tableField, hfield, skip, hr, Except.map]

lemma steps_entryField (base size : Nat) : Steps ph.reader (entryField ph base size) := by
  intro s field wire cur s' rest h
  unfold entryField at h
  split at h
  · next hfield =>
    obtain ⟨p, hp, hs⟩ := map_eq_ok.mp h
    cases hs
    rw [hfield.2]
    exact (Crate.readsField_len hp).1
  · exact (readsField_skip s wire h).1

/-- What a scan that gets through has seen. -/
structure Seen (ph : Crate) (buffer : Bytes) (scan : Scanned) (top : Top)
    (table : List Bytes) : Prop where
  walked : walk ph.reader (topField ph) {} buffer = .ok top
  listed : walk ph.reader (tableField ph) [] top.table = .ok table
  fields : scan.fields = top.fields
  tableLength : top.table.length ≤ buffer.length
  groups : List.Forall₂ (Placed buffer) scan.groupEntries top.groups
  strings : List.Forall₂ (Placed buffer) scan.stEntries table

lemma scanBlockFields_seen {scan : Scanned} (h : scanBlockFields ph buffer = .ok scan) :
    ∃ top table, Seen ph buffer scan top table := by
  obtain ⟨s, hs, h⟩ := bind_eq_ok.mp h
  obtain ⟨ps, hps, h⟩ := bind_eq_ok.mp h
  cases h
  have hstart : TopRel buffer {} {} := ⟨rfl, rfl, Nat.zero_le _, rfl, .nil⟩
  obtain ⟨top, htop, hrel⟩ := walk_sim (steps_blockField buffer.length) local_topField.steps
    TopRel.step (suffix_refl buffer) hstart hs
  have hdata : (if 0 < s.stringtableLen then
      sliceAt buffer s.stringtableOffset s.stringtableLen else []) = top.table := by
    split
    · rw [hrel.tableLen, hrel.table]
    · next hempty =>
      rw [hrel.tableLen] at hempty
      exact (length_eq_zero_iff.mp (by omega)).symm
  rw [hdata] at hps
  obtain ⟨table, htable, hstrings⟩ := walk_sim (steps_entryField _ _) local_tableField.steps
    (entryField_step hrel.tableIn hrel.table) (suffix_refl top.table) .nil hps
  have hlength : top.table.length ≤ buffer.length := by
    have := hrel.tableIn
    omega
  exact ⟨top, table, htop, htable, hrel.fields, hlength, hrel.groups, hstrings⟩

end Slices

lemma toNat_ofNat_small {n : Nat} (h : n < 2 ^ 32) : (UInt32.ofNat n).toNat = n := by
  rw [UInt32.toNat_ofNat']
  exact Nat.mod_eq_of_lt h

lemma Placed.slice {p : Position} (h : Placed buffer p d) (hsmall : buffer.length < 2 ^ 32) :
    p.1.toNat + p.2.toNat ≤ buffer.length ∧ sliceAt buffer p.1.toNat p.2.toNat = d := by
  obtain ⟨offset, rfl, hin, hslice⟩ := h
  rw [position, toNat_ofNat_small (by omega), toNat_ofNat_small (by omega)]
  exact ⟨hin, hslice⟩

lemma sliceAt_inside {offset len : Nat} (h : offset + len ≤ buffer.length) (post : Bytes) :
    sliceAt (buffer ++ post) offset len = sliceAt buffer offset len := by
  rw [sliceAt, sliceAt, drop_append_of_le_length (by omega), take_append_of_le_length]
  rw [length_drop]
  omega

lemma entrySlice_entries {pre post : Bytes} {ps : List Position} {index : Nat}
    {p : Position} (hp : ps[index]? = some p) :
    entrySlice (pre ++ (ps.flatMap entryBytes ++ post)) (pre.length + index * 8) =
      checkedSlice (pre ++ (ps.flatMap entryBytes ++ post)) p.1.toNat p.2.toNat := by
  obtain ⟨before, after, rfl, rfl⟩ : ∃ before after, ps = before ++ p :: after ∧
      before.length = index := by
    obtain ⟨hlt, hget⟩ := List.getElem?_eq_some_iff.mp hp
    refine ⟨ps.take index, ps.drop (index + 1), ?_, by simp; omega⟩
    rw [← hget, ← drop_eq_getElem_cons hlt, take_append_drop]
  have hsplit : pre ++ ((before ++ p :: after).flatMap entryBytes ++ post) =
      (pre ++ before.flatMap entryBytes) ++
        (leBytes 4 p.1.toNat ++ (leBytes 4 p.2.toNat ++ (after.flatMap entryBytes ++ post))) := by
    simp [entryBytes]
  have hbase : pre.length + before.length * 8 = (pre ++ before.flatMap entryBytes).length := by
    rw [length_append, length_entries]
    omega
  have hoff := leAt_append 4 p.1.toNat p.1.toNat_lt (pre ++ before.flatMap entryBytes)
    (leBytes 4 p.2.toNat ++ (after.flatMap entryBytes ++ post)) _ hbase
  have hlen := leAt_append 4 p.2.toNat p.2.toNat_lt
    ((pre ++ before.flatMap entryBytes) ++ leBytes 4 p.1.toNat) (after.flatMap entryBytes ++ post)
    (pre.length + before.length * 8 + 4) (by
      rw [length_append, ← hbase, length_leBytes])
  rw [append_assoc (pre ++ before.flatMap entryBytes)] at hlen
  rw [entrySlice, hsplit, hoff, hlen]

lemma entrySlice_placed {bytes pre post d : Bytes} {ps : List Position} {index : Nat}
    {p : Position} (hsmall : bytes.length < 2 ^ 32) (hpre : bytes <+: pre)
    (hp : ps[index]? = some p) (hd : Placed bytes p d) :
    entrySlice (pre ++ (ps.flatMap entryBytes ++ post)) (pre.length + index * 8) = .ok d := by
  obtain ⟨hin, hslice⟩ := hd.slice hsmall
  obtain ⟨more, rfl⟩ := hpre
  rw [entrySlice_entries hp, append_assoc, checkedSlice, if_pos, sliceAt_inside hin, hslice]
  rw [length_append]
  omega

variable {ph : Crate}

lemma absorb_topField {s s' : Top} {fld : Field} (h : absorb (topField ph) s fld = .ok s') :
    s'.groups = s.groups ++ (messageOf ph 2 fld).toList := by
  obtain ⟨⟨t, rest⟩, ht, rfl⟩ := map_eq_ok.mp h
  obtain ⟨field, wire, raw⟩ := fld
  simp only [topField] at ht
  split at ht
  · obtain ⟨d, -, hs⟩ := take_eq_ok.mp ht
    cases hs
    simp [messageOf]
  · obtain ⟨d, hd, hs⟩ := take_eq_ok.mp ht
    cases hs
    simp [messageOf, hd]
  · next hone htwo =>
    obtain ⟨f, -, hs⟩ := take_eq_ok.mp ht
    cases hs
    have hother : ¬(field = 2 ∧ wire = wireLen) := fun h => htwo h.1 h.2
    simp [messageOf, hother]

lemma absorb_tableField {out out' : List Bytes} {fld : Field}
    (h : absorb (tableField ph) out fld = .ok out') :
    out' = out ++ (messageOf ph 1 fld).toList := by
  obtain ⟨⟨t, rest⟩, ht, rfl⟩ := map_eq_ok.mp h
  obtain ⟨field, wire, raw⟩ := fld
  simp only [tableField] at ht
  split at ht
  · next hfield =>
    obtain ⟨d, hd, hs⟩ := take_eq_ok.mp ht
    cases hs
    simp [messageOf, hfield, hd]
  · next hfield =>
    obtain ⟨r, -, hs⟩ := map_eq_ok.mp ht
    cases hs
    simp [messageOf, hfield]

/-- The groups of a block are the messages of field 2. -/
theorem groups_eq_bodies {top : Top} (h : walk ph.reader (topField ph) {} bytes = .ok top) :
    ∃ fs, Fields ph.reader bytes fs ∧ top.groups = bodies ph 2 fs := by
  obtain ⟨fs, hfs, hfold⟩ := (walk_ok_iff local_topField).mp h
  refine ⟨fs, hfs, ?_⟩
  have hstep : ∀ s s' fld, absorb (topField ph) s fld = .ok s' →
      Top.groups s' = Top.groups s ++ (messageOf ph 2 fld).toList :=
    fun _ _ _ => absorb_topField
  rw [foldlM_collects hstep hfold]
  rfl

lemma table_eq_bodies {data : Bytes} (h : walk ph.reader (tableField ph) [] data = .ok table) :
    ∃ fs, Fields ph.reader data fs ∧ table = bodies ph 1 fs := by
  obtain ⟨fs, hfs, hfold⟩ := (walk_ok_iff local_tableField).mp h
  refine ⟨fs, hfs, ?_⟩
  have hstep : ∀ (s s' : List Bytes) fld, absorb (tableField ph) s fld = .ok s' →
      id s' = id s ++ (messageOf ph 1 fld).toList :=
    fun _ _ _ => absorb_tableField
  exact foldlM_collects hstep hfold

/-- No more strings than bytes. -/
theorem stEntries_length {scan : Scanned} {top : Top} (h : Seen ph bytes scan top table) :
    scan.stEntries.length ≤ bytes.length := by
  obtain ⟨fs, hfs, heq⟩ := table_eq_bodies h.listed
  have hle := @length_bodies_le ph 1 _ _ hfs
  have hin := h.tableLength
  rw [h.strings.length_eq, heq]
  omega

/-- A list of entries read back entry by entry. -/
theorem mapM_range_placed {ds : List Bytes} {read : Nat → Except Panic Bytes}
    (h : ∀ i (hi : i < ds.length), read i = .ok ds[i]) :
    (range ds.length).mapM read = .ok ds := by
  rw [mapM_eq_ok]
  apply ext_getElem
  · simp
  · intro i hi _
    simp only [length_map, length_range] at hi
    simp [h i hi]

/-- What the construction of a block from a scan gives back. -/
theorem inlineTables_reads {scan : Scanned} {top : Top} (hseen : Seen ph bytes scan top table)
    (hsmall : bytes.length + 8 * scan.stEntries.length < 2 ^ 32) :
    let b := inlineTables bytes scan.stEntries scan.groupEntries scan.fields
    b.groups = .ok top.groups ∧ ∀ i, b.stringGet i = .ok table[i]? := by
  intro b
  have hbytes : bytes.length < 2 ^ 32 := by omega
  have hst : b.stInlineOffset.toNat = bytes.length := toNat_ofNat_small hbytes
  have hgr : b.grInlineOffset.toNat = (bytes ++ scan.stEntries.flatMap entryBytes).length := by
    refine toNat_ofNat_small ?_
    rw [length_append, length_entries]
    omega
  have hgroups := hseen.groups.length_eq
  have hstrings := hseen.strings.length_eq
  have hcount : b.groupCount = top.groups.length := by
    obtain ⟨fs, hfs, heq⟩ := groups_eq_bodies hseen.walked
    have hle := @length_bodies_le ph 2 _ _ hfs
    rw [← heq] at hle
    rw [WireBlock.groupCount, ← hgroups]
    exact toNat_ofNat_small (by omega)
  have hlen : b.stringTableLen = table.length := by
    rw [WireBlock.stringTableLen, ← hstrings]
    exact toNat_ofNat_small (by omega)
  constructor
  · rw [WireBlock.groups, hcount]
    refine mapM_range_placed fun i hi => ?_
    have hp : i < scan.groupEntries.length := by omega
    rw [WireBlock.group, hgr]
    have hfront : bytes <+: bytes ++ scan.stEntries.flatMap entryBytes := ⟨_, rfl⟩
    have hread := fun post => @entrySlice_placed _ _ post _ _ i _ hbytes hfront
      (getElem?_eq_getElem hp) (hseen.groups.get hp hi)
    have hlast := hread []
    rwa [append_nil] at hlast
  · intro i
    rw [WireBlock.stringGet, hlen, hst]
    split
    · next hi => rw [getElem?_eq_none hi]
    · next hi =>
      have hi : i < table.length := by omega
      have hp : i < scan.stEntries.length := by omega
      have hread := fun post => @entrySlice_placed _ _ post _ _ i _ hbytes
        ( prefix_refl bytes) (getElem?_eq_getElem hp) (hseen.strings.get hp hi)
      have hroom : ¬b.buffer.length < bytes.length + i * 8 + 8 := by
        have hlong : b.buffer.length =
            bytes.length + 8 * scan.stEntries.length + 8 * scan.groupEntries.length := by
          simp [b, inlineTables]
          omega
        omega
      have hbuffer : b.buffer = bytes ++ (scan.stEntries.flatMap entryBytes ++
          scan.groupEntries.flatMap entryBytes) := append_assoc _ _ _
      rw [if_neg hroom, hbuffer, hread, getElem?_eq_getElem hi]
      rfl

end BlockScan
