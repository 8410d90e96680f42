import Pbfhogg.OsmId
import Pbfhogg.Lib.LeBytes

/-!
# Arena records of a change file

`osc/compact.rs`: every create or modify is appended to the arena of its kind, a fixed header with
the 29-byte metadata block behind it, then the variable-length sections. A count that does not fit
the record's `u32` is refused, with the bytes written so far left in the arena. Key, role and user
strings stay intern ids.
-/

namespace OscCompact

open OsmId LeBytes List

/-- The kinds of failure of the change-file code, with the texts of the source. -/
inductive OscError where
  | invalidData (message : String)
  | internal (message : String)
  | versionRegression (consumer : String) (kind : ElementKind) (id : Int64) (version held : Int32)

structure ArenaMeta where
  flags : UInt8
  version : Int32
  timestamp : Int64
  changeset : Int64
  uid : Int32
  userId : UInt32

def metaFlagHasVersion : UInt8 := 8

/-- A claimed version 0 is a claim; a clear flag is none. -/
def ArenaMeta.versionClaim (m : ArenaMeta) : Option Int32 :=
  if m.flags &&& metaFlagHasVersion = 0 then none else some m.version

def metaLen : Nat := 29

/-- What `arena_append_meta` adds to the arena. -/
def metaBytes (m : ArenaMeta) : Bytes :=
  m.flags :: (i32Le m.version ++ (i64Le m.timestamp ++ (i64Le m.changeset ++
    (i32Le m.uid ++ u32Le m.userId.toNat))))

abbrev Tag := UInt32 × Bytes

abbrev Member := Int64 × UInt8 × UInt32

/-- The part of a record that differs between the kinds. -/
inductive Body where
  | node (lat lon : Int32)
  | way (refs : List Int64)
  | relation (members : List Member)

def Body.kind : Body → ElementKind
  | .node .. => .node
  | .way _ => .way
  | .relation _ => .relation

def countU32 (len : Nat) (what : String) (kind : ElementKind) (id : Int64) :
    Except OscError Nat :=
  if len < 2 ^ 32 then .ok len
  else .error (.invalidData ("OSC " ++ kind.asStr ++ " " ++ toString id ++ " has " ++
    toString len ++ " " ++ what ++ ", which exceeds the 4294967295 the compact overlay can address"))

def appendTags (kind : ElementKind) (id : Int64) :
    Bytes → List Tag → Except OscError Unit × Bytes
  | arena, [] => (.ok (), arena)
  | arena, (key, value) :: rest =>
    let keyed := arena ++ u32Le key.toNat
    match countU32 value.length "tag value bytes" kind id with
    | .error e => (.error e, keyed)
    | .ok n => appendTags kind id (keyed ++ (u32Le n ++ value)) rest

variable (arena : Bytes) (id : Int64)

def arenaAppendNode (lat lon : Int32) (tags : List Tag)
    (m : ArenaMeta) : Except OscError Nat × Bytes :=
  let head := arena ++ (i64Le id ++ (i32Le lat ++ i32Le lon))
  match countU32 tags.length "tags" .node id with
  | .error e => (.error e, head)
  | .ok n =>
    match appendTags .node id (head ++ (u32Le n ++ metaBytes m)) tags with
    | (.error e, out) => (.error e, out)
    | (.ok (), out) => (.ok arena.length, out)

variable (refs : List Int64)

def refBytes : Bytes := refs.flatMap i64Le

variable (members : List Member)

def memberBytes : Bytes :=
  members.flatMap fun x => i64Le x.1 ++ (x.2.1 :: u32Le x.2.2.toNat)

def arenaAppendWay (tags : List Tag)
    (m : ArenaMeta) : Except OscError Nat × Bytes :=
  match countU32 refs.length "node refs" .way id with
  | .error e => (.error e, arena)
  | .ok refCount =>
    match countU32 tags.length "tags" .way id with
    | .error e => (.error e, arena)
    | .ok tagCount =>
      match appendTags .way id (arena ++ (i64Le id ++ (u32Le refCount ++ (u32Le tagCount ++
          (metaBytes m ++ refBytes refs))))) tags with
      | (.error e, out) => (.error e, out)
      | (.ok (), out) => (.ok arena.length, out)

def arenaAppendRelation
    (tags : List Tag) (m : ArenaMeta) : Except OscError Nat × Bytes :=
  match countU32 members.length "members" .relation id with
  | .error e => (.error e, arena)
  | .ok memberCount =>
    match countU32 tags.length "tags" .relation id with
    | .error e => (.error e, arena)
    | .ok tagCount =>
      match appendTags .relation id (arena ++ (i64Le id ++ (u32Le memberCount ++
          (u32Le tagCount ++ (metaBytes m ++ memberBytes members))))) tags with
      | (.error e, out) => (.error e, out)
      | (.ok (), out) => (.ok arena.length, out)

variable (body : Body) (tags : List Tag)

def arenaAppend
    (m : ArenaMeta) : Except OscError Nat × Bytes :=
  match body with
  | .node lat lon => arenaAppendNode arena id lat lon tags m
  | .way refs => arenaAppendWay arena id refs tags m
  | .relation members => arenaAppendRelation arena id members tags m

def metaOff : ElementKind → Nat
  | .node => 8 + 4 + 4 + 4
  | .way => 8 + 4 + 4
  | .relation => 8 + 4 + 4

variable (data : Bytes)

def versionAt (recordOffset off : Nat) : Option Int32 :=
  if (data.drop (recordOffset + off)).headD 0 &&& metaFlagHasVersion = 0 then none
  else some (readI32Le data (recordOffset + off + 1))

/-- The fields `read_meta` decodes, before its user id is resolved. -/
def metaAt (offset : Nat) : ArenaMeta where
  flags := (data.drop offset).headD 0
  version := readI32Le data (offset + 1)
  timestamp := readI64Le data (offset + 5)
  changeset := readI64Le data (offset + 13)
  uid := readI32Le data (offset + 21)
  userId := UInt32.ofNat (readU32Le data (offset + 25))

/-- `CompactTagIter` run for `remaining` steps, keys unresolved. -/
def tagIter (data : Bytes) : Nat → Nat → List Tag
  | _, 0 => []
  | offset, remaining + 1 =>
    let valueLen := readU32Le data (offset + 4)
    (UInt32.ofNat (readU32Le data offset), (data.drop (offset + 8)).take valueLen) ::
      tagIter data (offset + 8 + valueLen) remaining

/-- `CompactRefIter` run for `remaining` steps. -/
def refIter (data : Bytes) : Nat → Nat → List Int64
  | _, 0 => []
  | offset, remaining + 1 => readI64Le data offset :: refIter data (offset + 8) remaining

/-- `CompactMemberIter` run for `remaining` steps, the type left as its byte. -/
def memberIter (data : Bytes) : Nat → Nat → List Member
  | _, 0 => []
  | offset, remaining + 1 =>
    (readI64Le data offset, (data.drop (offset + 8)).headD 0,
      UInt32.ofNat (readU32Le data (offset + 9))) :: memberIter data (offset + 13) remaining

/-- Everything the accessors of one kind return for the record `data` starts with. -/
structure RecordView where
  id : Int64
  body : Body
  tags : List Tag
  arenaMeta : ArenaMeta

def viewNode : RecordView where
  id := readI64Le data 0
  body := .node (readI32Le data 8) (readI32Le data 12)
  tags := tagIter data (metaOff .node + metaLen) (readU32Le data 16)
  arenaMeta := metaAt data (metaOff .node)

def viewWay : RecordView where
  id := readI64Le data 0
  body := .way (refIter data (metaOff .way + metaLen) (readU32Le data 8))
  tags := tagIter data (metaOff .way + metaLen + readU32Le data 8 * 8) (readU32Le data 12)
  arenaMeta := metaAt data (metaOff .way)

def viewRelation : RecordView where
  id := readI64Le data 0
  body := .relation (memberIter data (metaOff .relation + metaLen) (readU32Le data 8))
  tags := tagIter data (metaOff .relation + metaLen + readU32Le data 8 * 13) (readU32Le data 12)
  arenaMeta := metaAt data (metaOff .relation)

def view : ElementKind → Bytes → RecordView
  | .node => viewNode
  | .way => viewWay
  | .relation => viewRelation

def tagBytes : Bytes :=
  tags.flatMap fun t => u32Le t.1.toNat ++ (u32Le t.2.length ++ t.2)

/-- Every count of the record fits its `u32` field. -/
def Fits (body : Body) (tags : List Tag) : Prop :=
  (match body with
    | .node .. => True
    | .way refs => refs.length < 2 ^ 32
    | .relation members => members.length < 2 ^ 32) ∧
  tags.length < 2 ^ 32 ∧ ∀ t ∈ tags, t.2.length < 2 ^ 32

instance (body : Body) (tags : List Tag) : Decidable (Fits body tags) := by
  unfold Fits
  cases body <;> exact inferInstance

def headBytes (tagCount : Nat) : Bytes :=
  match body with
  | .node lat lon => i64Le id ++ (i32Le lat ++ (i32Le lon ++ u32Le tagCount))
  | .way refs => i64Le id ++ (u32Le refs.length ++ u32Le tagCount)
  | .relation members => i64Le id ++ (u32Le members.length ++ u32Le tagCount)

def sectionBytes : Body → Bytes
  | .node .. => []
  | .way refs => refBytes refs
  | .relation members => memberBytes members

def recordBytes (m : ArenaMeta) : Bytes :=
  headBytes id body tags.length ++ (metaBytes m ++ (sectionBytes body ++ tagBytes tags))

lemma countU32_cases (len : Nat) (what : String) (kind : ElementKind) (id : Int64) :
    (len < 2 ^ 32 ∧ countU32 len what kind id = .ok len) ∨
      (¬ len < 2 ^ 32 ∧ ∃ e, countU32 len what kind id = .error (.invalidData e)) := by
  unfold countU32
  by_cases h : len < 2 ^ 32
  · exact Or.inl ⟨h, if_pos h⟩
  · exact Or.inr ⟨h, _, if_neg h⟩

lemma appendTags_cases (kind : ElementKind) (id : Int64) (arena : Bytes) (tags : List Tag) :
    ((∀ t ∈ tags, t.2.length < 2 ^ 32) ∧
      appendTags kind id arena tags = (.ok (), arena ++ tagBytes tags)) ∨
    ((¬ ∀ t ∈ tags, t.2.length < 2 ^ 32) ∧
      ∃ e junk, appendTags kind id arena tags = (.error (.invalidData e), arena ++ junk)) := by
  induction tags generalizing arena with
  | nil => exact Or.inl ⟨by simp, by simp [appendTags, tagBytes]⟩
  | cons t rest ih =>
    obtain ⟨key, value⟩ := t
    rcases countU32_cases value.length "tag value bytes" kind id with ⟨hlen, hok⟩ | ⟨hlen, e, he⟩
    · rcases ih (arena ++ u32Le key.toNat ++ (u32Le value.length ++ value)) with
        ⟨hfit, hrun⟩ | ⟨hfit, e, junk, hrun⟩
      · refine Or.inl ⟨?_, ?_⟩
        · intro t ht
          rcases mem_cons.mp ht with rfl | ht
          · exact hlen
          · exact hfit t ht
        · simp only [appendTags, hok, hrun]
          simp [tagBytes]
      · refine Or.inr ⟨fun hall => hfit fun t ht => hall t (mem_cons_of_mem _ ht), e,
          u32Le key.toNat ++ (u32Le value.length ++ value) ++ junk, ?_⟩
        simp only [appendTags, hok, hrun]
        simp
    · refine Or.inr ⟨fun hall => hlen (hall _ mem_cons_self), e, u32Le key.toNat, ?_⟩
      simp [appendTags, he]

/-- An append writes the whole record and returns where it starts, or refuses a
count and leaves the arena longer by unreferenced bytes. -/
theorem arenaAppend_cases (m : ArenaMeta) : (Fits body tags ∧
      arenaAppend arena id body tags m = (.ok arena.length, arena ++ recordBytes id body tags m)) ∨
    (¬ Fits body tags ∧ ∃ e junk,
      arenaAppend arena id body tags m = (.error (.invalidData e), arena ++ junk)) := by
  cases body with
  | node lat lon =>
    rcases countU32_cases tags.length "tags" .node id with ⟨hn, hok⟩ | ⟨hn, e, he⟩
    · rcases appendTags_cases .node id (arena ++ (i64Le id ++ (i32Le lat ++ i32Le lon)) ++
        (u32Le tags.length ++ metaBytes m)) tags with ⟨hfit, hrun⟩ | ⟨hfit, e, junk, hrun⟩
      · refine Or.inl ⟨⟨trivial, hn, hfit⟩, ?_⟩
        simp only [arenaAppend, arenaAppendNode, hok, hrun]
        simp [recordBytes, headBytes, sectionBytes]
      · refine Or.inr ⟨fun h => hfit h.2.2, e, (i64Le id ++ (i32Le lat ++ i32Le lon)) ++
          (u32Le tags.length ++ metaBytes m) ++ junk, ?_⟩
        simp only [arenaAppend, arenaAppendNode, hok, hrun]
        simp
    · exact Or.inr ⟨fun h => hn h.2.1, e, i64Le id ++ (i32Le lat ++ i32Le lon), by
        simp only [arenaAppend, arenaAppendNode, he]⟩
  | way refs =>
    rcases countU32_cases refs.length "node refs" .way id with ⟨hr, hrok⟩ | ⟨hr, e, he⟩
    · rcases countU32_cases tags.length "tags" .way id with ⟨hn, hok⟩ | ⟨hn, e, he⟩
      · rcases appendTags_cases .way id (arena ++ (i64Le id ++ (u32Le refs.length ++
          (u32Le tags.length ++ (metaBytes m ++ refBytes refs))))) tags with
          ⟨hfit, hrun⟩ | ⟨hfit, e, junk, hrun⟩
        · refine Or.inl ⟨⟨hr, hn, hfit⟩, ?_⟩
          simp only [arenaAppend, arenaAppendWay, hrok, hok, hrun]
          simp [recordBytes, headBytes, sectionBytes]
        · refine Or.inr ⟨fun h => hfit h.2.2, e, (i64Le id ++ (u32Le refs.length ++
            (u32Le tags.length ++ (metaBytes m ++ refBytes refs)))) ++ junk, ?_⟩
          simp only [arenaAppend, arenaAppendWay, hrok, hok, hrun]
          simp
      · exact Or.inr ⟨fun h => hn h.2.1, e, [], by
          simp [arenaAppend, arenaAppendWay, hrok, he]⟩
    · exact Or.inr ⟨fun h => hr h.1, e, [], by simp [arenaAppend, arenaAppendWay, he]⟩
  | relation members =>
    rcases countU32_cases members.length "members" .relation id with ⟨hr, hrok⟩ | ⟨hr, e, he⟩
    · rcases countU32_cases tags.length "tags" .relation id with ⟨hn, hok⟩ | ⟨hn, e, he⟩
      · rcases appendTags_cases .relation id (arena ++ (i64Le id ++ (u32Le members.length ++
          (u32Le tags.length ++ (metaBytes m ++ memberBytes members))))) tags with
          ⟨hfit, hrun⟩ | ⟨hfit, e, junk, hrun⟩
        · refine Or.inl ⟨⟨hr, hn, hfit⟩, ?_⟩
          simp only [arenaAppend, arenaAppendRelation, hrok, hok, hrun]
          simp [recordBytes, headBytes, sectionBytes]
        · refine Or.inr ⟨fun h => hfit h.2.2, e, (i64Le id ++ (u32Le members.length ++
            (u32Le tags.length ++ (metaBytes m ++ memberBytes members)))) ++ junk, ?_⟩
          simp only [arenaAppend, arenaAppendRelation, hrok, hok, hrun]
          simp
      · exact Or.inr ⟨fun h => hn h.2.1, e, [], by
          simp [arenaAppend, arenaAppendRelation, hrok, he]⟩
    · exact Or.inr ⟨fun h => hr h.1, e, [], by simp [arenaAppend, arenaAppendRelation, he]⟩

@[simp] lemma length_metaBytes (m : ArenaMeta) : (metaBytes m).length = metaLen := by
  simp [metaBytes, metaLen]

@[simp] lemma length_headBytes (n : Nat) :
    (headBytes id body n).length = metaOff body.kind := by
  cases body <;> simp [headBytes, metaOff, Body.kind]

lemma metaAt_append (m : ArenaMeta) (pre post : Bytes) (offset : Nat)
    (h : offset = pre.length) : metaAt (pre ++ (metaBytes m ++ post)) offset = m := by
  subst h
  have hversion := readI32Le_append m.version (pre ++ [m.flags])
    (i64Le m.timestamp ++ (i64Le m.changeset ++ (i32Le m.uid ++ (u32Le m.userId.toNat ++ post))))
    (pre.length + 1) (by simp)
  have htimestamp := readI64Le_append m.timestamp (pre ++ (m.flags :: i32Le m.version))
    (i64Le m.changeset ++ (i32Le m.uid ++ (u32Le m.userId.toNat ++ post)))
    (pre.length + 5) (by simp)
  have hchangeset := readI64Le_append m.changeset
    (pre ++ (m.flags :: (i32Le m.version ++ i64Le m.timestamp)))
    (i32Le m.uid ++ (u32Le m.userId.toNat ++ post)) (pre.length + 13) (by simp)
  have huid := readI32Le_append m.uid
    (pre ++ (m.flags :: (i32Le m.version ++ (i64Le m.timestamp ++ i64Le m.changeset))))
    (u32Le m.userId.toNat ++ post) (pre.length + 21) (by simp)
  have huser := readU32Le_append m.userId.toNat m.userId.toNat_lt
    (pre ++ (m.flags :: (i32Le m.version ++ (i64Le m.timestamp ++ (i64Le m.changeset ++
      i32Le m.uid))))) post (pre.length + 25) (by simp)
  simp only [append_assoc, cons_append, nil_append]
    at hversion htimestamp hchangeset huid huser
  simp only [metaAt, metaBytes, append_assoc, cons_append, hversion, htimestamp,
    hchangeset, huid, huser]
  simp

lemma refIter_append (pre post : Bytes) (offset : Nat) (h : offset = pre.length) :
    refIter (pre ++ (refBytes refs ++ post)) offset refs.length = refs := by
  induction refs generalizing pre offset with
  | nil => rfl
  | cons r rest ih =>
    have hhead := readI64Le_append r pre (refBytes rest ++ post) offset h
    have htail := ih (pre ++ i64Le r) (offset + 8) (by simp [h])
    simp only [append_assoc] at htail
    simp only [refBytes, flatMap_cons, append_assoc] at hhead htail ⊢
    simp only [length_cons, refIter, hhead, htail]

lemma memberIter_append (pre post : Bytes) (offset : Nat) (h : offset = pre.length) :
    memberIter (pre ++ (memberBytes members ++ post)) offset members.length = members := by
  induction members generalizing pre offset with
  | nil => rfl
  | cons x rest ih =>
    obtain ⟨ref, kind, role⟩ := x
    have href := readI64Le_append ref pre (kind :: (u32Le role.toNat ++
      (memberBytes rest ++ post))) offset h
    have hrole := readU32Le_append role.toNat role.toNat_lt (pre ++ (i64Le ref ++ [kind]))
      (memberBytes rest ++ post) (offset + 9) (by simp [h])
    have hkind : ((pre ++ (i64Le ref ++ (kind :: (u32Le role.toNat ++
        (memberBytes rest ++ post))))).drop (offset + 8)).headD 0 = kind := by
      subst h
      rw [← drop_drop, drop_left, drop_left' (length_i64Le ref)]
      rfl
    have htail := ih (pre ++ (i64Le ref ++ (kind :: u32Le role.toNat))) (offset + 13)
      (by simp [h])
    simp only [append_assoc, cons_append, nil_append] at href hrole hkind htail
    simp only [memberBytes, flatMap_cons, append_assoc, cons_append]
      at href hrole hkind htail ⊢
    simp only [length_cons, memberIter, href, hrole, hkind, htail]
    simp

lemma tagIter_append (hfit : ∀ t ∈ tags, t.2.length < 2 ^ 32)
    (pre post : Bytes) (offset : Nat) (h : offset = pre.length) :
    tagIter (pre ++ (tagBytes tags ++ post)) offset tags.length = tags := by
  induction tags generalizing pre offset with
  | nil => rfl
  | cons t rest ih =>
    obtain ⟨key, value⟩ := t
    have hkey := readU32Le_append key.toNat key.toNat_lt pre (u32Le value.length ++ (value ++
      (tagBytes rest ++ post))) offset h
    have hlen := readU32Le_append value.length (hfit _ mem_cons_self)
      (pre ++ u32Le key.toNat) (value ++ (tagBytes rest ++ post)) (offset + 4) (by simp [h])
    have hvalue : ((pre ++ (u32Le key.toNat ++ (u32Le value.length ++ (value ++
        (tagBytes rest ++ post))))).drop (offset + 8)).take value.length = value := by
      subst h
      rw [show pre.length + 8 = pre.length + (4 + 4) from rfl, ← drop_drop, drop_left,
        ← drop_drop, drop_left' (length_u32Le _), drop_left' (length_u32Le _),
        take_left]
    have htail := ih (fun t ht => hfit t (mem_cons_of_mem _ ht))
      (pre ++ (u32Le key.toNat ++ (u32Le value.length ++ value))) (offset + 8 + value.length)
      (by simp [h]; omega)
    simp only [append_assoc] at hkey hlen hvalue htail
    simp only [tagBytes, flatMap_cons, append_assoc] at hkey hlen hvalue htail ⊢
    simp only [length_cons, tagIter, hkey, hlen, hvalue, htail]
    simp

lemma length_refBytes : (refBytes refs).length = refs.length * 8 := by
  induction refs with
  | nil => rfl
  | cons r rest ih =>
    simp only [refBytes, flatMap_cons, length_append, length_i64Le] at ih ⊢
    simp only [ih, length_cons]
    omega

lemma length_memberBytes : (memberBytes members).length = members.length * 13 := by
  induction members with
  | nil => rfl
  | cons x rest ih =>
    simp only [memberBytes, flatMap_cons, length_append, length_cons,
      length_i64Le, length_u32Le] at ih ⊢
    omega

/-- The metadata block of a record sits where its kind's offset says. -/
lemma metaAt_record (m : ArenaMeta) (post : Bytes) :
    metaAt (recordBytes id body tags m ++ post) (metaOff body.kind) = m := by
  have h := metaAt_append m (headBytes id body tags.length)
    (sectionBytes body ++ (tagBytes tags ++ post)) (metaOff body.kind) (by simp)
  simpa only [recordBytes, append_assoc] using h

lemma tagIter_record (m : ArenaMeta)
    (hfit : ∀ t ∈ tags, t.2.length < 2 ^ 32) (post : Bytes) (offset : Nat)
    (h : offset = metaOff body.kind + metaLen + (sectionBytes body).length) :
    tagIter (recordBytes id body tags m ++ post) offset tags.length = tags := by
  have hiter := tagIter_append tags hfit
    (headBytes id body tags.length ++ (metaBytes m ++ sectionBytes body)) post offset
    (by simp [h, Nat.add_assoc])
  simpa only [recordBytes, append_assoc] using hiter

lemma view_record (m : ArenaMeta) (hfit : Fits body tags) (post : Bytes) :
    view body.kind (recordBytes id body tags m ++ post) = ⟨id, body, tags, m⟩ := by
  obtain ⟨hbody, hcount, hvalues⟩ := hfit
  have hid : readI64Le (recordBytes id body tags m ++ post) 0 = id := by
    cases body <;>
      simpa only [recordBytes, headBytes, append_assoc, nil_append] using
        readI64Le_append id [] _ 0 rfl
  have hmeta := metaAt_record id body tags m post
  have htags := tagIter_record id body tags m hvalues post
  cases body with
  | node lat lon =>
    have hlat := readI32Le_append lat (i64Le id) (i32Le lon ++ (u32Le tags.length ++
      (metaBytes m ++ (tagBytes tags ++ post)))) 8 (by simp)
    have hlon := readI32Le_append lon (i64Le id ++ i32Le lat) (u32Le tags.length ++
      (metaBytes m ++ (tagBytes tags ++ post))) 12 (by simp)
    have hn := readU32Le_append tags.length hcount (i64Le id ++ (i32Le lat ++ i32Le lon))
      (metaBytes m ++ (tagBytes tags ++ post)) 16 (by simp)
    have hit := htags (metaOff .node + metaLen) (by simp [Body.kind, sectionBytes])
    simp only [recordBytes, headBytes, sectionBytes, Body.kind, append_assoc,
      nil_append] at hid hmeta hlat hlon hn hit ⊢
    simp only [view, viewNode, hid, hmeta, hlat, hlon, hn, hit]
  | way refs =>
    have hr := readU32Le_append refs.length hbody (i64Le id) (u32Le tags.length ++
      (metaBytes m ++ (refBytes refs ++ (tagBytes tags ++ post)))) 8 (by simp)
    have hn := readU32Le_append tags.length hcount (i64Le id ++ u32Le refs.length)
      (metaBytes m ++ (refBytes refs ++ (tagBytes tags ++ post))) 12 (by simp)
    have href := refIter_append refs (i64Le id ++ (u32Le refs.length ++ (u32Le tags.length ++
      metaBytes m))) (tagBytes tags ++ post) (metaOff .way + metaLen) (by simp [metaOff, metaLen])
    have hit := htags (metaOff .way + metaLen + refs.length * 8)
      (by simp [Body.kind, sectionBytes, length_refBytes])
    simp only [recordBytes, headBytes, sectionBytes, Body.kind, append_assoc]
      at hid hmeta hr hn href hit ⊢
    simp only [view, viewWay, hid, hmeta, hr, hn, href, hit]
  | relation members =>
    have hr := readU32Le_append members.length hbody (i64Le id) (u32Le tags.length ++
      (metaBytes m ++ (memberBytes members ++ (tagBytes tags ++ post)))) 8 (by simp)
    have hn := readU32Le_append tags.length hcount (i64Le id ++ u32Le members.length)
      (metaBytes m ++ (memberBytes members ++ (tagBytes tags ++ post))) 12 (by simp)
    have href := memberIter_append members (i64Le id ++ (u32Le members.length ++
      (u32Le tags.length ++ metaBytes m))) (tagBytes tags ++ post)
      (metaOff .relation + metaLen) (by simp [metaOff, metaLen])
    have hit := htags (metaOff .relation + metaLen + members.length * 13)
      (by simp [Body.kind, sectionBytes, length_memberBytes])
    simp only [recordBytes, headBytes, sectionBytes, Body.kind, append_assoc]
      at hid hmeta hr hn href hit ⊢
    simp only [view, viewRelation, hid, hmeta, hr, hn, href, hit]

/-- The version gate's read of a record is the claim of its metadata block. -/
lemma versionAt_eq (recordOffset off : Nat) :
    versionAt data recordOffset off = (metaAt (data.drop recordOffset) off).versionClaim := by
  have hread : readI32Le data (recordOffset + off + 1) =
      readI32Le (data.drop recordOffset) (off + 1) := by
    simp only [readI32Le, readLe, drop_drop, Nat.add_assoc]
  simp only [versionAt, ArenaMeta.versionClaim, metaAt, drop_drop, hread]

end OscCompact
