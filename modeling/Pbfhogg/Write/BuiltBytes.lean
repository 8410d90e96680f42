import Pbfhogg.Wire.Written
import Pbfhogg.Write.BlockBuilder

/-!
# The bytes of a built block

A builder that has refused nothing holds the elements it was given, one message after the other, and
a block taken from it is its string table and one group, chunk by chunk.
-/

namespace BuiltBytes

open Protohoggr FieldWalk Chunks Written BlockBuilder Deltas Fallible List

variable {ph : Crate}

structure NodeAdd where
  id : Int64
  lat : Int32
  lon : Int32
  tags : List (String × String) := []
  metadata : Option Metadata := none

structure WayAdd where
  id : Int64
  tags : List (String × String) := []
  refs : List Int64
  locations : Option (List (Int32 × Int32)) := none
  metadata : Option Metadata := none

structure RelationAdd where
  id : Int64
  tags : List (String × String) := []
  members : List MemberData
  metadata : Option Metadata := none

def NodeAdd.add (b : Builder) (n : NodeAdd) : Builder :=
  b.addNode n.id n.lat n.lon n.tags n.metadata

def WayAdd.add (ph : Crate) (b : Builder) (w : WayAdd) : Builder :=
  match w.locations with
  | none => b.addWay ph w.id w.tags w.refs w.metadata
  | some locations => b.addWayWithLocations ph w.id w.tags w.refs locations w.metadata

def RelationAdd.add (ph : Crate) (b : Builder) (r : RelationAdd) : Builder :=
  b.addRelation ph r.id r.tags r.members r.metadata

def WayAdd.encode (ph : Crate) (s : Interned) (w : WayAdd) : Bytes × Interned :=
  match w.locations with
  | none => encodeWay ph s w.id w.tags w.refs w.metadata
  | some locations => encodeWayWithLocations ph s w.id w.tags w.refs locations w.metadata

def RelationAdd.encode (ph : Crate) (s : Interned) (r : RelationAdd) : Bytes × Interned :=
  encodeRelation ph s r.id r.tags r.members r.metadata

/-- The locations of a way are as many as its refs. -/
def WayAdd.Paired (w : WayAdd) : Prop :=
  ∀ locations, w.locations = some locations → w.refs.length = locations.length

lemma setPoison_ne_none (b : Builder) (reason : String) : (b.setPoison reason).poison ≠ none := by
  simp only [Builder.setPoison]
  cases b.poison <;> simp

lemma refuse_ne_none (b : Builder) (kind : BlockType) (id : Int64) :
    (b.refuse kind id).poison ≠ none := setPoison_ne_none b _

variable {b : Builder} {bytes : Bytes} {s : Interned}

/-- An add that poisons nothing puts the element behind the others. -/
theorem addWay_clean {w : WayAdd} (h : (w.add ph b).poison = none) :
    b.poison = none ∧ w.Paired ∧ w.add ph b = b.push .ways w.id (w.encode ph b.strings) := by
  unfold WayAdd.add WayAdd.encode WayAdd.Paired at *
  cases hl : w.locations with
  | none =>
    rw [hl] at h
    simp only [Builder.addWay] at h ⊢
    by_cases hcan : b.canAdd .ways
    · simp only [hcan, Bool.not_true, Bool.false_eq_true, if_false] at h ⊢
      exact ⟨h, by simp, trivial⟩
    · simp only [hcan, Bool.not_false, if_true] at h
      exact absurd h (refuse_ne_none b _ _)
  | some locations =>
    rw [hl] at h
    simp only [Builder.addWayWithLocations] at h ⊢
    by_cases hlen : w.refs.length = locations.length
    · rw [if_neg (by simp [hlen])] at h ⊢
      by_cases hcan : b.canAdd .ways
      · simp only [hcan, Bool.not_true, Bool.false_eq_true, if_false] at h ⊢
        exact ⟨h, by simp [hlen], trivial⟩
      · simp only [hcan, Bool.not_false, if_true] at h
        exact absurd h (refuse_ne_none b _ _)
    · rw [if_pos hlen] at h
      exact absurd h (setPoison_ne_none b _)

lemma addRelation_clean {r : RelationAdd} (h : (r.add ph b).poison = none) :
    b.poison = none ∧ Builder.unknownType r.members = none ∧
      r.add ph b = b.push .relations r.id (r.encode ph b.strings) := by
  unfold RelationAdd.add RelationAdd.encode at *
  unfold Builder.addRelation at h ⊢
  cases hu : Builder.unknownType r.members with
  | some raw =>
    rw [hu] at h
    exact absurd h (setPoison_ne_none b _)
  | none =>
    rw [hu] at h
    simp only at h ⊢
    by_cases hcan : b.canAdd .relations
    · simp only [hcan, Bool.not_true, Bool.false_eq_true, if_false] at h ⊢
      exact ⟨h, trivial, trivial⟩
    · simp only [hcan, Bool.not_false, if_true] at h
      exact absurd h (refuse_ne_none b _ _)

/-- The bytes of a list of elements, each interning behind the ones before it. -/
def encodeAll {α : Type} (enc : Interned → α → Bytes × Interned) :
    Interned → List α → Bytes
  | _, [] => []
  | s, a :: as => (enc s a).1 ++ encodeAll enc (enc s a).2 as

/-- A run of adds that poisons nothing puts every element behind the others. -/
theorem foldl_push {α : Type} {add : Builder → α → Builder} {kind : BlockType} {idOf : α → Int64}
    {enc : Interned → α → Bytes × Interned} {P : α → Prop}
    (hadd : ∀ {b a}, (add b a).poison = none →
      b.poison = none ∧ P a ∧ add b a = b.push kind (idOf a) (enc b.strings a))
    {as : List α} (h : (as.foldl add b).poison = none) : b.poison = none ∧ (∀ a ∈ as, P a) ∧
      (as.foldl add b).groupBuf = b.groupBuf ++ encodeAll enc b.strings as ∧
      (as ≠ [] → (as.foldl add b).blockType = some kind) := by
  induction as generalizing b with
  | nil => exact ⟨h, by simp, by simp [encodeAll], by simp⟩
  | cons a as ih =>
    rw [foldl_cons] at h
    obtain ⟨hpoison, hall, hbuf, hkind⟩ := ih h
    obtain ⟨hb, ha, hpush⟩ := hadd hpoison
    rw [foldl_cons]
    refine ⟨hb, forall_mem_cons.mpr ⟨ha, hall⟩, ?_, fun _ => ?_⟩
    · rw [hbuf, hpush, encodeAll, ← append_assoc]
      rfl
    · cases as with
      | nil => rw [foldl_nil, hpush]; rfl
      | cons a' as => exact hkind (by simp)

/-- The table of a block that was encoded is one chunk. -/
theorem encodeStringTable_ok {t : StringTable} (h : Builder.encodeStringTable ph t = .ok bytes) :
    ∃ body, bytes = lenField 1 body ∧ body.length < 2 ^ 64 ∧
      body = t.slots.flatMap fun slot => lenField 1 slot := by
  unfold Builder.encodeStringTable at h
  simp only at h
  split at h
  · cases h
  · next n hn =>
    split at h
    · cases h
    · next m hm =>
      split at h
      · cases h
      · next hlen =>
        have hbound : n < 2 ^ 64 := by
          unfold lenFieldSize at hm
          split at hm
          · omega
          · cases hm
        have hbody : (t.slots.flatMap fun slot => ph.encodeBytesFieldAlways 1 slot) =
            t.slots.flatMap fun slot => lenField 1 slot := by
          congr 1
          funext slot
          exact ph.encodeBytesFieldAlways_eq 1 slot
        rw [hbody] at h hlen
        have hlen' := Decidable.not_not.mp hlen
        refine ⟨_, ?_, by rw [hlen']; exact hbound, rfl⟩
        rw [ph.encodeTag_eq 1 wireLen (by omega) (by omega) (by decide),
          ph.encodeVarint_eq n hbound] at h
        cases h
        rw [lenField, lenValue, hlen']

lemma take_ok {b' : Builder} (h : b.take ph = .ok (some bytes, b')) :
    b.poison = none ∧ ∃ kind table group, b.blockType = some kind ∧
      Builder.encodeStringTable ph b.strings.table = .ok table ∧
      b.encodeGroup ph kind = .ok group ∧ bytes = table ++ group := by
  obtain ⟨p, hp, hbytes⟩ := map_eq_ok.mp h
  unfold Builder.encodeBlock at hp
  split at hp
  · cases hp
  · next hpoison =>
    split at hp
    · cases hp
      cases hbytes
    · next kind hkind =>
      obtain ⟨table, htable, hp⟩ := bind_eq_ok.mp hp
      obtain ⟨group, hgroup, rfl⟩ := map_eq_ok.mp hp
      cases hbytes
      exact ⟨hpoison, kind, table, group, hkind, htable, hgroup, rfl⟩

lemma take_pushed {α : Type} {add : Builder → α → Builder} {kind : BlockType} {idOf : α → Int64}
    {enc : Interned → α → Bytes × Interned} {P : α → Prop}
    (hadd : ∀ {b a}, (add b a).poison = none →
      b.poison = none ∧ P a ∧ add b a = b.push kind (idOf a) (enc b.strings a))
    (hkind : kind ≠ .denseNodes) {as : List α} {cap : Nat} {hcap : 0 < cap} {b' : Builder}
    (h : (as.foldl add (Builder.withElementCap cap hcap)).take ph = .ok (some bytes, b')) :
    ∃ table, table.length < 2 ^ 64 ∧ (∀ a ∈ as, P a) ∧
      bytes = join (lenChunk 1 table :: bytesChunks 2 (encodeAll enc {} as)) := by
  obtain ⟨hpoison, kind', tableField, group, hkind', htable, hgroup, rfl⟩ := take_ok h
  obtain ⟨-, hall, hbuf, htype⟩ := foldl_push hadd hpoison
  have hne : as ≠ [] := by
    rintro rfl
    cases hkind'
  rw [htype hne] at hkind'
  cases hkind'
  obtain ⟨table, rfl, hlen, -⟩ := encodeStringTable_ok htable
  have hgroup' : group = ph.encodeBytesField 2 (encodeAll enc {} as) := by
    have hbuf' : (as.foldl add (Builder.withElementCap cap hcap)).groupBuf =
        encodeAll enc {} as := hbuf
    unfold Builder.encodeGroup at hgroup
    cases kind with
    | denseNodes => exact absurd rfl hkind
    | ways | relations =>
      rw [hbuf'] at hgroup
      cases hgroup
      rfl
  refine ⟨table, hlen, hall, ?_⟩
  rw [join_cons, bytes_lenChunk, @join_bytesChunks ph, hgroup']

variable (xs : List Int64)

def zigzags : List Nat := xs.map fun x => zigzagEncode x.toInt

lemma packSint64_eq : packSint64 ph xs = (zigzags xs).flatMap Varint.encode := by
  unfold packSint64 zigzags
  rw [flatMap_map]
  congr 1
  funext x
  rw [ph.zigzagEncode64_eq, ph.encodeVarint_eq _ (zigzagEncode64_lt x)]

lemma packInt32_eq (xs : List Int32) :
    packInt32 ph xs = (xs.map fun x => signExtend x.toInt).flatMap Varint.encode := by
  unfold packInt32
  rw [flatMap_map]
  congr 1
  funext x
  exact ph.encodeVarint_eq _ (signExtend_lt _)

/-- A packed array is written whenever it holds a value. -/
theorem values_packSint64 : ∃ vs, Varint.Values (packSint64 ph xs) vs ∧ vs.map asSint64 = xs := by
  refine ⟨zigzags xs, ?_, ?_⟩
  · rw [packSint64_eq]
    refine values_encode fun v hv => ?_
    obtain ⟨x, -, rfl⟩ := mem_map.mp hv
    exact zigzagEncode64_lt x
  · unfold zigzags
    rw [List.map_map]
    exact List.map_id'' asSint64_zigzagEncode xs

lemma packSint64_eq_nil {xs : List Int64} : packSint64 ph xs = [] ↔ xs = [] := by
  rw [packSint64_eq, flatMap_encode_eq_nil]
  exact map_eq_nil_iff

lemma length_le_packSint64 : xs.length ≤ (packSint64 ph xs).length := by
  have h := length_le_flatMap_encode (zigzags xs)
  rw [packSint64_eq]
  unfold zigzags at h
  rwa [length_map] at h

def keysBuf (ph : Crate) (s : Interned) (tags : List (String × String)) : Bytes :=
  (s.addTags tags).1.flatMap fun kv => ph.encodeVarint kv.1.toNat

def valsBuf (ph : Crate) (s : Interned) (tags : List (String × String)) : Bytes :=
  (s.addTags tags).1.flatMap fun kv => ph.encodeVarint kv.2.toNat

def tagChunks (ph : Crate) (s : Interned) (tags : List (String × String)) : List Chunk :=
  if keysBuf ph s tags ≠ [] then
    bytesChunks 2 (keysBuf ph s tags) ++ bytesChunks 3 (valsBuf ph s tags)
  else []

def infoChunks (ph : Crate) (s : Interned) (metadata : Option Metadata) : List Chunk :=
  match metadata with
  | some m => bytesChunks 4 (encodeInfoTo ph s m).1
  | none => []

def headChunks (ph : Crate) (s : Interned) (id : Int64) (tags : List (String × String))
    (metadata : Option Metadata) : List Chunk :=
  int64Chunks 1 id ++ (tagChunks ph s tags ++ infoChunks ph (encodeTags ph s tags).2 metadata)

lemma join_headChunks (s : Interned) (id : Int64) (tags : List (String × String))
    (metadata : Option Metadata) :
    join (headChunks ph s id tags metadata) = (encodeHead ph s id tags metadata).1 := by
  have htags : join (tagChunks ph s tags) = (encodeTags ph s tags).1 := by
    unfold tagChunks encodeTags keysBuf valsBuf
    dsimp only
    split
    · rw [join_append, @join_bytesChunks ph, @join_bytesChunks ph]
    · rfl
  have hinfo : ∀ t, join (infoChunks ph t metadata) = (encodeInfo ph t metadata).1 := by
    intro t
    cases metadata with
    | none => rfl
    | some m => exact @join_bytesChunks ph 4 _
  unfold headChunks encodeHead
  rw [join_append, join_append, @join_int64Chunks ph, htags, hinfo]

lemma isWritten_append {cs ds : List Chunk} (hc : ∀ c ∈ cs, IsWritten c)
    (hd : ∀ c ∈ ds, IsWritten c) : ∀ c ∈ cs ++ ds, IsWritten c := by
  intro c h
  rcases mem_append.mp h with h | h
  · exact hc c h
  · exact hd c h

lemma isWritten_headChunks (s : Interned) (id : Int64) (tags : List (String × String))
    (metadata : Option Metadata) : ∀ c ∈ headChunks ph s id tags metadata, IsWritten c := by
  refine isWritten_append (isWritten_int64Chunks id (by omega) (by omega)) (isWritten_append ?_ ?_)
  · unfold tagChunks
    split
    · exact isWritten_append (isWritten_bytesChunks _ (by omega) (by omega))
        (isWritten_bytesChunks _ (by omega) (by omega))
    · intro c hc
      cases hc
  · cases metadata with
    | none =>
      intro c hc
      cases hc
    | some m => exact isWritten_bytesChunks _ (by omega) (by omega)

/-- Nothing but the fields the rewriters copy. -/
theorem headChunks_eq_nil {id : Int64} {tags : List (String × String)}
    {metadata : Option Metadata} :
    headChunks ph s id tags metadata = [] ↔ id = 0 ∧ tags = [] ∧ metadata = none := by
  have hid : int64Chunks 1 id = [] ↔ id = 0 := by
    unfold int64Chunks
    split <;> simp_all
  have htags : tagChunks ph s tags = [] ↔ tags = [] := by
    unfold tagChunks keysBuf
    cases tags with
    | nil => simp [Interned.addTags]
    | cons kv tags =>
      have hne : ph.encodeVarint (s.addTags (kv :: tags)).1.head!.1.toNat ≠ [] := by
        rw [ph.encodeVarint_eq _ (by have := (s.addTags (kv :: tags)).1.head!.1.toNat_lt; omega)]
        exact Varint.encode_ne_nil _
      have hbuf : ((s.addTags (kv :: tags)).1.flatMap fun kv => ph.encodeVarint kv.1.toNat) ≠ [] := by
        rw [Interned.addTags, flatMap_cons]
        intro hnil
        exact hne (append_eq_nil_iff.mp hnil).1
      rw [if_pos hbuf]
      simp [bytesChunks, hbuf]
  have hinfo : ∀ t, infoChunks ph t metadata = [] ↔ metadata = none := by
    intro t
    cases metadata with
    | none => simp [infoChunks]
    | some m => simp [infoChunks, bytesChunks, encodeInfoTo, encodeOptionalInt32]
  unfold headChunks
  rw [append_eq_nil_iff, append_eq_nil_iff, hid, htags, hinfo]

/-- Location fields, behind the refs. -/
def locationChunks (ph : Crate) (w : WayAdd) : List Chunk :=
  match w.locations with
  | none => []
  | some locations =>
    bytesChunks 9 (packSint64 ph (deltasFrom 0 (locations.map fun p => p.1.toInt64))) ++
      bytesChunks 10 (packSint64 ph (deltasFrom 0 (locations.map fun p => p.2.toInt64)))

def WayAdd.chunks (ph : Crate) (s : Interned) (w : WayAdd) : List Chunk :=
  headChunks ph s w.id w.tags w.metadata ++
    if w.refs ≠ [] then
      bytesChunks 8 (packSint64 ph (deltasFrom 0 w.refs)) ++ locationChunks ph w
    else []

lemma WayAdd.encode_eq {w : WayAdd} (hw : w.Paired) :
    (w.encode ph s).1 = ph.encodeBytesField 3 (join (w.chunks ph s)) := by
  unfold WayAdd.encode WayAdd.chunks locationChunks
  cases hl : w.locations with
  | none =>
    simp only [encodeWay]
    rw [join_append, join_headChunks]
    congr 2
    split
    · rw [append_nil, @join_bytesChunks ph]
    · rfl
  | some locations =>
    have hlen := hw locations hl
    have hrefs : (w.refs.zip locations).map (fun p => p.1) = w.refs :=
      map_fst_zip (Nat.le_of_eq hlen)
    have hlocs : (w.refs.zip locations).map (fun p => p.2) = locations :=
      map_snd_zip (Nat.le_of_eq hlen.symm)
    have hlats : ((w.refs.zip locations).map fun p => p.2.1.toInt64) =
        locations.map fun p => p.1.toInt64 := by
      conv_rhs => rw [← hlocs, List.map_map]
      rfl
    have hlons : ((w.refs.zip locations).map fun p => p.2.2.toInt64) =
        locations.map fun p => p.2.toInt64 := by
      conv_rhs => rw [← hlocs, List.map_map]
      rfl
    simp only [encodeWayWithLocations]
    rw [join_append, join_headChunks, hrefs, hlats, hlons]
    congr 2
    split
    · rw [join_append, join_append, @join_bytesChunks ph, @join_bytesChunks ph,
        @join_bytesChunks ph]
    · rfl

lemma isWritten_wayChunks (s : Interned) (w : WayAdd) : ∀ c ∈ w.chunks ph s, IsWritten c := by
  refine isWritten_append (isWritten_headChunks s _ _ _) ?_
  split
  · refine isWritten_append (isWritten_bytesChunks _ (by omega) (by omega)) ?_
    unfold locationChunks
    split
    · intro c hc
      cases hc
    · exact isWritten_append (isWritten_bytesChunks _ (by omega) (by omega))
        (isWritten_bytesChunks _ (by omega) (by omega))
  · intro c hc
    cases hc

/-- The way has id zero and nothing else. -/
def WayAdd.Blank (w : WayAdd) : Prop :=
  w.id = 0 ∧ w.tags = [] ∧ w.metadata = none ∧ w.refs = []

lemma join_eq_nil {cs : List Chunk} (h : ∀ c ∈ cs, IsWritten c) : join cs = [] ↔ cs = [] := by
  cases cs with
  | nil => simp
  | cons c cs =>
    have hne : c.bytes ≠ [] := by
      cases h c mem_cons_self with
      | len body _ _ => simp [lenField, Varint.encode_ne_nil]
      | varint _ _ _ => simp [varintField, Varint.encode_ne_nil]
    simp [hne]

lemma WayAdd.join_chunks_eq_nil {w : WayAdd} : join (w.chunks ph s) = [] ↔ w.Blank := by
  rw [join_eq_nil (isWritten_wayChunks s w)]
  unfold WayAdd.chunks WayAdd.Blank
  rw [append_eq_nil_iff, headChunks_eq_nil]
  by_cases hrefs : w.refs = []
  · simp [hrefs]
  · have hpack : packSint64 ph (deltasFrom 0 w.refs) ≠ [] := by
      rw [ne_eq, packSint64_eq_nil, ← length_eq_zero_iff, length_deltasFrom, length_eq_zero_iff]
      exact hrefs
    simp [hrefs, bytesChunks, hpack]

lemma WayAdd.length_refs_le (s : Interned) (w : WayAdd) :
    w.refs.length ≤ (join (w.chunks ph s)).length := by
  unfold WayAdd.chunks
  rw [join_append, length_append]
  by_cases hrefs : w.refs = []
  · simp [hrefs]
  · rw [if_pos hrefs, join_append, length_append, @join_bytesChunks ph]
    have h := @length_le_packSint64 ph (deltasFrom 0 w.refs)
    have h' := @length_le_encodeBytesField ph 8 (packSint64 ph (deltasFrom 0 w.refs))
    rw [length_deltasFrom] at h
    omega

def RelationAdd.chunks (ph : Crate) (s : Interned) (r : RelationAdd) : List Chunk :=
  headChunks ph s r.id r.tags r.metadata ++
    if r.members ≠ [] then
      bytesChunks 8 (packInt32 ph (((encodeHead ph s r.id r.tags r.metadata).2.addAll
        (r.members.map fun m => m.role)).1.map fun x => x.toInt32)) ++
        (bytesChunks 9 (packSint64 ph (deltasFrom 0 (r.members.map fun m => memberIdOf m.id))) ++
          bytesChunks 10 (packInt32 ph (r.members.map fun m => memberTypeValue m.id)))
    else []

lemma RelationAdd.encode_eq (s : Interned) (r : RelationAdd) :
    (r.encode ph s).1 = ph.encodeBytesField 4 (join (r.chunks ph s)) := by
  unfold RelationAdd.encode RelationAdd.chunks
  simp only [encodeRelation]
  rw [join_append, join_headChunks]
  congr 2
  split
  · rw [join_append, join_append, @join_bytesChunks ph, @join_bytesChunks ph, @join_bytesChunks ph]
  · rfl

lemma isWritten_relationChunks (s : Interned) (r : RelationAdd) :
    ∀ c ∈ r.chunks ph s, IsWritten c := by
  refine isWritten_append (isWritten_headChunks s _ _ _) ?_
  split
  · exact isWritten_append (isWritten_bytesChunks _ (by omega) (by omega))
      (isWritten_append (isWritten_bytesChunks _ (by omega) (by omega))
        (isWritten_bytesChunks _ (by omega) (by omega)))
  · intro c hc
    cases hc

/-- The relation has id zero and nothing else. -/
def RelationAdd.Blank (r : RelationAdd) : Prop :=
  r.id = 0 ∧ r.tags = [] ∧ r.metadata = none ∧ r.members = []

lemma deltas_eq_nil {α : Type} {xs : List α} (f : α → Int64) :
    packSint64 ph (deltasFrom 0 (xs.map f)) = [] ↔ xs = [] := by
  rw [packSint64_eq_nil, ← length_eq_zero_iff, length_deltasFrom, length_map, length_eq_zero_iff]

lemma RelationAdd.join_chunks_eq_nil {r : RelationAdd} : join (r.chunks ph s) = [] ↔ r.Blank := by
  rw [join_eq_nil (isWritten_relationChunks s r)]
  unfold RelationAdd.chunks RelationAdd.Blank
  rw [append_eq_nil_iff, headChunks_eq_nil]
  by_cases hmembers : r.members = []
  · simp [hmembers]
  · simp [hmembers, bytesChunks, deltas_eq_nil]

lemma RelationAdd.length_members_le (s : Interned) (r : RelationAdd) :
    r.members.length ≤ (join (r.chunks ph s)).length := by
  unfold RelationAdd.chunks
  rw [join_append, length_append]
  by_cases hmembers : r.members = []
  · simp [hmembers]
  · rw [if_pos hmembers, join_append, length_append, join_append, length_append,
      @join_bytesChunks ph 9]
    have h := @length_le_packSint64 ph (deltasFrom 0 (r.members.map fun m => memberIdOf m.id))
    have h' := @length_le_encodeBytesField ph 9
      (packSint64 ph (deltasFrom 0 (r.members.map fun m => memberIdOf m.id)))
    rw [length_deltasFrom, length_map] at h
    omega

end BuiltBytes
