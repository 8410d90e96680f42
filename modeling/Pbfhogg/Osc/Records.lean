import Pbfhogg.Osc.Interner
import Pbfhogg.Read.BlobWire

/-!
# Records appended and read back

What `CompactSink` of `osc/xml_parse.rs` stages for an object is appended to the arena of its kind,
and the accessors of `osc/compact.rs` read it back from its offset. A read past the end, an id never
handed out, a type byte that is none and text that is not UTF-8 are panics, here `none`.
-/

namespace OscRecords

open OsmId OscCompact OscInterner LeBytes List Function Option
open BlobWire (utf8Bytes fromUtf8 fromUtf8_utf8Bytes)

variable {st : Staging} {tags : List (String × String)} {refs : List Int64}
  {members : List (MemberType × Int64 × String)} {t t' : StringInterner} {d : Arenas}
  {strings : StringTable}

inductive MemberType where
  | node
  | way
  | relation
  | unknown (value : Int32)

def memberTypeToByte : MemberType → Except OscError UInt8
  | .node => .ok 0
  | .way => .ok 1
  | .relation => .ok 2
  | .unknown v => .error (.invalidData ("relation member has unknown type value " ++
      toString v.toInt ++ " (expected node, way or relation); refusing to store it, because the " ++
      "compact OSC overlay has no faithful encoding for it and any substitute would silently " ++
      "change what the member points at"))

def byteToMemberType (b : UInt8) : Option MemberType :=
  if b = 0 then some .node
  else if b = 1 then some .way
  else if b = 2 then some .relation
  else none

/-- The metadata attributes of an object, each there or not. -/
structure MetaAttrs where
  version : Option Int32
  timestamp : Option Int64
  changeset : Option Int64
  uid : Option Int32
  user : Option String
  visible : Option String

/-- Whether `scan_meta_attrs` saw any. -/
def MetaAttrs.any (a : MetaAttrs) : Bool :=
  a.version.isSome || a.timestamp.isSome || a.changeset.isSome || a.uid.isSome ||
    a.user.isSome || a.visible.isSome

def MetaAttrs.hidden (a : MetaAttrs) : Bool := decide (a.visible = some "false")

def metaFlagPresent : UInt8 := 1
def metaFlagHidden : UInt8 := 2
def metaFlagHasUser : UInt8 := 4

variable (hasVersion hidden any hasUser : Bool)

def flagsOf : UInt8 :=
  (if hasVersion then metaFlagHasVersion else 0) ||| (if hidden then metaFlagHidden else 0) |||
    (if any then metaFlagPresent else 0) ||| (if hasUser then metaFlagHasUser else 0)

/-- `arena_meta` behind the parsing of the attributes. -/
def arenaMeta (a : MetaAttrs) (userId : UInt32) : ArenaMeta where
  flags := flagsOf a.version.isSome a.hidden a.any a.user.isSome
  version := a.version.getD 0
  timestamp := a.timestamp.getD 0
  changeset := a.changeset.getD 0
  uid := a.uid.getD 0
  userId := userId

structure Metadata where
  version : Int32
  timestamp : Int64
  changeset : Int64
  uid : Int32
  user : String
  visible : Bool

variable (data : Bytes)

def readMeta (offset : Nat) (strings : StringTable) :
    Option (Option Metadata) := do
  let flags ← byteAt data offset
  if flags &&& metaFlagPresent = 0 then return none
  let version ← i32At data (offset + 1)
  let timestamp ← i64At data (offset + 5)
  let changeset ← i64At data (offset + 13)
  let uid ← i32At data (offset + 21)
  let user ← if flags &&& metaFlagHasUser = 0 then some "" else do
    let id ← u32At data (offset + 25)
    strings.resolve (UInt32.ofNat id)
  return some ⟨version, timestamp, changeset, uid, user, decide (flags &&& metaFlagHidden = 0)⟩

/-- `version_at` of a record. -/
def claimAt (offset : Nat) : Option (Option Int32) := do
  let flags ← byteAt data offset
  if flags &&& metaFlagHasVersion = 0 then return none
  let version ← i32At data (offset + 1)
  return some version

/-- `CompactTagIter` with `remaining` tags to go. -/
def readTags (data : Bytes) (strings : StringTable) :
    Nat → Nat → Option (List (String × String))
  | _, 0 => some []
  | offset, remaining + 1 => do
    let keyId ← u32At data offset
    let valueLen ← u32At data (offset + 4)
    let valueBytes ← rangeAt data (offset + 8) valueLen
    let key ← strings.resolve (UInt32.ofNat keyId)
    let value ← fromUtf8 valueBytes
    let rest ← readTags data strings (offset + 8 + valueLen) remaining
    return (key, value) :: rest

/-- `CompactRefIter`. -/
def readRefs (data : Bytes) : Nat → Nat → Option (List Int64)
  | _, 0 => some []
  | offset, remaining + 1 => do
    let ref ← i64At data offset
    let rest ← readRefs data (offset + 8) remaining
    return ref :: rest

/-- `CompactMemberIter`. -/
def readMembers (data : Bytes) (strings : StringTable) :
    Nat → Nat → Option (List (MemberType × Int64 × String))
  | _, 0 => some []
  | offset, remaining + 1 => do
    let refId ← i64At data offset
    let typeByte ← byteAt data (offset + 8)
    let roleId ← u32At data (offset + 9)
    let memberType ← byteToMemberType typeByte
    let role ← strings.resolve (UInt32.ofNat roleId)
    let rest ← readMembers data strings (offset + 13) remaining
    return (memberType, refId, role) :: rest

inductive Content where
  | node (lat lon : Int32)
  | way (refs : List Int64)
  | relation (members : List (MemberType × Int64 × String))

/-- What the accessors of a record give. -/
structure Stored where
  id : Int64
  content : Content
  tags : List (String × String)
  metadata : Option Metadata
  versionClaim : Option Int32

/-- The accessors of `CompactNodeRef`. -/
def nodeRef (strings : StringTable) : Option Stored := do
  let id ← i64At data 0
  let lat ← i32At data 8
  let lon ← i32At data 12
  let tagCount ← u32At data 16
  let metadata ← readMeta data (metaOff .node) strings
  let claim ← claimAt data (metaOff .node)
  let tags ← readTags data strings (metaOff .node + metaLen) tagCount
  return ⟨id, .node lat lon, tags, metadata, claim⟩

/-- The accessors of `CompactWayRef`. -/
def wayRef (strings : StringTable) : Option Stored := do
  let id ← i64At data 0
  let refCount ← u32At data 8
  let tagCount ← u32At data 12
  let metadata ← readMeta data (metaOff .way) strings
  let claim ← claimAt data (metaOff .way)
  let refs ← readRefs data (metaOff .way + metaLen) refCount
  let tags ← readTags data strings (metaOff .way + metaLen + refCount * 8) tagCount
  return ⟨id, .way refs, tags, metadata, claim⟩

/-- The accessors of `CompactRelationRef`. -/
def relationRef (strings : StringTable) : Option Stored := do
  let id ← i64At data 0
  let memberCount ← u32At data 8
  let tagCount ← u32At data 12
  let metadata ← readMeta data (metaOff .relation) strings
  let claim ← claimAt data (metaOff .relation)
  let members ← readMembers data strings (metaOff .relation + metaLen) memberCount
  let tags ← readTags data strings (metaOff .relation + metaLen + memberCount * 13) tagCount
  return ⟨id, .relation members, tags, metadata, claim⟩

/-- The arenas of a diff and its strings. -/
structure Arenas where
  arena : ElementKind → Bytes
  interner : StringInterner

def Arenas.new : Arenas := ⟨fun _ => [], .new⟩

/-- `&arena[offset..]` under the accessors of its kind. -/
def Arenas.read (d : Arenas) (kind : ElementKind) (offset : Nat) : Option Stored :=
  if offset ≤ (d.arena kind).length then
    let data := (d.arena kind).drop offset
    match kind with
    | .node => nodeRef data d.interner.strings
    | .way => wayRef data d.interner.strings
    | .relation => relationRef data d.interner.strings
  else none

/-- A child of an object. -/
inductive Child where
  | tag (key value : String)
  | nd (ref : Int64)
  | member (type : MemberType) (ref : Int64) (role : String)

structure Record where
  kind : ElementKind
  id : Int64
  lat : Int32
  lon : Int32
  attrs : MetaAttrs
  children : List Child

structure Staging where
  tags : List (UInt32 × String)
  refs : List Int64
  members : List Member

def Staging.empty : Staging := ⟨[], [], []⟩

/-- `tag`, `nd` and `member` of the sink; strings interned before a failure stay. -/
def stageChild (st : Staging) (t : StringInterner) :
    Child → Except OscError (Staging × StringInterner)
  | .tag key value => do
    let (keyId, t) ← intern t key
    return ({ st with tags := st.tags ++ [(keyId, value)] }, t)
  | .nd ref => return ({ st with refs := st.refs ++ [ref] }, t)
  | .member type ref role => do
    let typeByte ← memberTypeToByte type
    let (roleId, t) ← intern t role
    return ({ st with members := st.members ++ [(ref, typeByte, roleId)] }, t)

def stageAll : List Child → Staging → StringInterner → Except OscError Staging × StringInterner
  | [], st, t => (.ok st, t)
  | c :: cs, st, t =>
    match stageChild st t c with
    | .error e => (.error e, t)
    | .ok (st', t') => stageAll cs st' t'

/-- The user name of the metadata; without one its id is left zero. -/
def internUser (t : StringInterner) (a : MetaAttrs) : Except OscError (UInt32 × StringInterner) :=
  match a.user with
  | none => .ok (0, t)
  | some name => intern t name

def Record.body (r : Record) (st : Staging) : Body :=
  match r.kind with
  | .node => .node r.lat r.lon
  | .way => .way st.refs
  | .relation => .relation st.members

/-- One object appended: its start, its children and its end. -/
def append (d : Arenas) (r : Record) : Except OscError Nat × Arenas :=
  match internUser d.interner r.attrs with
  | .error e => (.error e, d)
  | .ok (userId, t) =>
    match stageAll r.children .empty t with
    | (.error e, t') => (.error e, { d with interner := t' })
    | (.ok st, t') =>
      let (res, arena) := arenaAppend (d.arena r.kind) r.id (r.body st)
        (st.tags.map fun p => (p.1, utf8Bytes p.2)) (arenaMeta r.attrs userId)
      (res, ⟨update d.arena r.kind arena, t'⟩)

/-- What else interns: the metadata of a deletion. -/
inductive Call where
  | append (r : Record)
  | delete (a : MetaAttrs)

def call (d : Arenas) : Call → Arenas
  | .append r => (append d r).2
  | .delete a =>
    match internUser d.interner a with
    | .error _ => d
    | .ok (_, t) => { d with interner := t }

def run (d : Arenas) (calls : List Call) : Arenas := calls.foldl call d

def Child.tag? : Child → Option (String × String)
  | .tag key value => some (key, value)
  | _ => none

def Child.ref? : Child → Option Int64
  | .nd ref => some ref
  | _ => none

def Child.member? : Child → Option (MemberType × Int64 × String)
  | .member type ref role => some (type, ref, role)
  | _ => none

def Record.content (r : Record) : Content :=
  match r.kind with
  | .node => .node r.lat r.lon
  | .way => .way (r.children.filterMap Child.ref?)
  | .relation => .relation (r.children.filterMap Child.member?)

def MetaAttrs.metadata (a : MetaAttrs) : Option Metadata :=
  if a.any then
    some ⟨a.version.getD 0, a.timestamp.getD 0, a.changeset.getD 0, a.uid.getD 0,
      a.user.getD "", !a.hidden⟩
  else none

def Record.stored (r : Record) : Stored where
  id := r.id
  content := r.content
  tags := r.children.filterMap Child.tag?
  metadata := r.attrs.metadata
  versionClaim := r.attrs.version

/-- Staged ids resolve to the strings of the children. -/
structure Staged (t : StringTable) (st : Staging) (tags : List (String × String))
    (refs : List Int64) (members : List (MemberType × Int64 × String)) : Prop where
  tags : List.Forall₂ (fun p q => t.resolve p.1 = some q.1 ∧ p.2 = q.2) st.tags tags
  refs : st.refs = refs
  members : List.Forall₂ (fun p q => byteToMemberType p.2.1 = some q.1 ∧ p.1 = q.2.1 ∧
    t.resolve p.2.2 = some q.2.2) st.members members

lemma staged_empty (t : StringTable) : Staged t .empty [] [] [] :=
  ⟨.nil, rfl, .nil⟩

lemma Staged.extend {t t' : StringTable} (h : Extends t t')
    (hst : Staged t st tags refs members) :
    Staged t' st tags refs members where
  tags := hst.tags.imp fun _ _ hp => ⟨h.resolve hp.1, hp.2⟩
  refs := hst.refs
  members := hst.members.imp fun _ _ hp => ⟨hp.1, hp.2.1, h.resolve hp.2.2⟩

lemma byteToMemberType_of {type : MemberType} {b : UInt8} (h : memberTypeToByte type = .ok b) :
    byteToMemberType b = some type := by
  cases type with
  | node | way | relation => cases h; rfl
  | unknown v => cases h

lemma stageChild_spec {st' : Staging} (ht : Faithful t) {c : Child}
    (hst : Staged t.strings st tags refs members) (h : stageChild st t c = .ok (st', t')) :
    Faithful t' ∧ Extends t.strings t'.strings ∧ Staged t'.strings st'
      (tags ++ c.tag?.toList) (refs ++ c.ref?.toList) (members ++ c.member?.toList) := by
  cases c with
  | tag key value =>
    obtain ⟨⟨keyId, t₁⟩, hkey, h⟩ := Fallible.bind_eq_ok.mp h
    cases h
    obtain ⟨ht', hext, hres⟩ := intern_spec ht hkey
    have hst' := hst.extend hext
    refine ⟨ht', hext, ?_, ?_, ?_⟩
    · exact rel_append hst'.tags (.cons ⟨hres, rfl⟩ .nil)
    · simpa [Child.ref?] using hst'.refs
    · simpa [Child.member?] using hst'.members
  | nd ref =>
    cases h
    refine ⟨ht, .refl _, ?_, ?_, ?_⟩
    · simpa [Child.tag?] using hst.tags
    · simp [Child.ref?, hst.refs]
    · simpa [Child.member?] using hst.members
  | member type ref role =>
    obtain ⟨b, hbyte, h⟩ := Fallible.bind_eq_ok.mp h
    obtain ⟨⟨roleId, t₁⟩, hrole, h⟩ := Fallible.bind_eq_ok.mp h
    cases h
    obtain ⟨ht', hext, hres⟩ := intern_spec ht hrole
    have hst' := hst.extend hext
    refine ⟨ht', hext, ?_, ?_, ?_⟩
    · simpa [Child.tag?] using hst'.tags
    · simpa [Child.ref?] using hst'.refs
    · exact rel_append hst'.members (.cons ⟨byteToMemberType_of hbyte, rfl, hres⟩ .nil)

lemma stageAll_spec {cs : List Child} {res : Except OscError Staging} (ht : Faithful t)
    (hst : Staged t.strings st tags refs members) (h : stageAll cs st t = (res, t')) :
    Faithful t' ∧ Extends t.strings t'.strings ∧ ∀ st', res = .ok st' →
      Staged t'.strings st' (tags ++ cs.filterMap Child.tag?) (refs ++ cs.filterMap Child.ref?)
        (members ++ cs.filterMap Child.member?) := by
  induction cs generalizing st t tags refs members with
  | nil =>
    cases h
    refine ⟨ht, .refl _, ?_⟩
    intro st' hres
    cases hres
    simpa using hst
  | cons c cs ih =>
    rw [stageAll] at h
    cases hc : stageChild st t c with
    | error e =>
      simp only [hc] at h
      cases h
      exact ⟨ht, .refl _, fun st' hres => by cases hres⟩
    | ok p =>
      obtain ⟨st₁, t₁⟩ := p
      simp only [hc] at h
      obtain ⟨ht₁, hext₁, hst₁⟩ := stageChild_spec ht hst hc
      obtain ⟨ht', hext', hrest⟩ := ih ht₁ hst₁ h
      refine ⟨ht', hext₁.trans hext', ?_⟩
      intro st' hres
      have hall := hrest st' hres
      have hsplit : ∀ {β : Type} (f : Child → Option β),
          (c :: cs).filterMap f = (f c).toList ++ cs.filterMap f := by
        intro β f
        rw [filterMap_cons]
        cases f c <;> rfl
      simpa only [hsplit, append_assoc] using hall

lemma internUser_spec (ht : Faithful t) {a : MetaAttrs} {id : UInt32}
    (h : internUser t a = .ok (id, t')) : Faithful t' ∧ Extends t.strings t'.strings ∧
      ∀ name, a.user = some name → t'.strings.resolve id = some name := by
  unfold internUser at h
  cases huser : a.user with
  | none =>
    simp only [huser] at h
    cases h
    exact ⟨ht, .refl _, fun name hname => by cases hname⟩
  | some name =>
    simp only [huser] at h
    obtain ⟨ht', hext, hres⟩ := intern_spec ht h
    refine ⟨ht', hext, ?_⟩
    intro name' hname
    cases hname
    exact hres

/-- Arenas that were appended to. -/
structure Grown (d d' : Arenas) : Prop where
  arena : ∀ kind, ∃ more, d'.arena kind = d.arena kind ++ more
  strings : Extends d.interner.strings d'.interner.strings
  faithful : Faithful d'.interner

lemma Grown.trans {d' d'' : Arenas} (h : Grown d d') (h' : Grown d' d'') : Grown d d'' where
  arena kind := by
    obtain ⟨more, hmore⟩ := h.arena kind
    obtain ⟨more', hmore'⟩ := h'.arena kind
    exact ⟨more ++ more', by rw [hmore', hmore, append_assoc]⟩
  strings := h.strings.trans h'.strings
  faithful := h'.faithful

lemma update_grows (arena : ElementKind → Bytes) (k : ElementKind) (bytes : Bytes)
    (kind : ElementKind) : ∃ more, update arena k (arena k ++ bytes) kind = arena kind ++ more := by
  by_cases hk : kind = k
  · subst hk
    exact ⟨bytes, update_self ..⟩
  · exact ⟨[], by rw [update_of_ne hk, append_nil]⟩

/-- An append leaves what was there; where it succeeds, its record stands behind it. -/
theorem append_spec {d' : Arenas} (hd : Faithful d.interner) {r : Record}
    {res : Except OscError Nat} (h : append d r = (res, d')) :
    Grown d d' ∧ ∀ offset, res = .ok offset → ∃ st userId, offset = (d.arena r.kind).length ∧
      Fits (r.body st) (st.tags.map fun p => (p.1, utf8Bytes p.2)) ∧
      At (d'.arena r.kind) offset (recordBytes r.id (r.body st)
        (st.tags.map fun p => (p.1, utf8Bytes p.2)) (arenaMeta r.attrs userId)) ∧
      Staged d'.interner.strings st (r.children.filterMap Child.tag?)
        (r.children.filterMap Child.ref?) (r.children.filterMap Child.member?) ∧
      ∀ name, r.attrs.user = some name → d'.interner.strings.resolve userId = some name := by
  have hsame : ∀ kind, ∃ more, d.arena kind = d.arena kind ++ more := fun _ => ⟨[], by simp⟩
  unfold append at h
  cases huser : internUser d.interner r.attrs with
  | error e =>
    simp only [huser] at h
    cases h
    exact ⟨⟨hsame, .refl _, hd⟩, fun offset hres => by cases hres⟩
  | ok p =>
    obtain ⟨userId, t⟩ := p
    obtain ⟨ht, hext, hname⟩ := internUser_spec hd huser
    cases hall : stageAll r.children .empty t with
    | mk staged t' =>
      obtain ⟨ht', hext', hst⟩ := stageAll_spec ht (staged_empty t.strings) hall
      cases staged with
      | error e =>
        simp only [huser, hall] at h
        cases h
        exact ⟨⟨hsame, hext.trans hext', ht'⟩, fun offset hres => by cases hres⟩
      | ok st =>
        simp only [huser, hall] at h
        cases h
        have hstaged := hst st rfl
        simp only [nil_append] at hstaged
        have hresolve : ∀ name, r.attrs.user = some name → t'.strings.resolve userId = some name :=
          fun name hn => hext'.resolve (hname name hn)
        rcases arenaAppend_cases (d.arena r.kind) r.id (r.body st)
            (st.tags.map fun p => (p.1, utf8Bytes p.2)) (arenaMeta r.attrs userId) with
          ⟨hfits, hrun⟩ | ⟨-, e, junk, hrun⟩
        · rw [hrun]
          refine ⟨⟨update_grows _ _ _, hext.trans hext', ht'⟩, ?_⟩
          intro offset hres
          cases hres
          refine ⟨st, userId, rfl, hfits, ⟨d.arena r.kind, [], ?_, rfl⟩, hstaged, hresolve⟩
          rw [append_nil]
          exact update_self ..
        · rw [hrun]
          exact ⟨⟨update_grows _ _ _, hext.trans hext', ht'⟩, fun offset hres => by cases hres⟩

lemma call_grown (hd : Faithful d.interner) (c : Call) : Grown d (call d c) := by
  cases c with
  | append r => exact (append_spec hd rfl).1
  | delete a =>
    rw [call]
    cases huser : internUser d.interner a with
    | error e => exact ⟨fun _ => ⟨[], by simp⟩, .refl _, hd⟩
    | ok p =>
      obtain ⟨userId, t⟩ := p
      obtain ⟨ht, hext, -⟩ := internUser_spec hd huser
      exact ⟨fun _ => ⟨[], by simp⟩, hext, ht⟩

lemma run_grown (hd : Faithful d.interner) (calls : List Call) : Grown d (run d calls) := by
  induction calls generalizing d with
  | nil => exact ⟨fun _ => ⟨[], by simp [run]⟩, .refl _, hd⟩
  | cons c calls ih =>
    have hstep := call_grown hd c
    exact hstep.trans (ih hstep.faithful)

lemma readTags_at {data : Bytes} {st : List (UInt32 × String)} {offset : Nat}
    (hres : List.Forall₂ (fun p q => strings.resolve p.1 = some q.1 ∧ p.2 = q.2) st tags)
    (hfit : ∀ p ∈ st, (utf8Bytes p.2).length < 2 ^ 32)
    (h : At data offset (tagBytes (st.map fun p => (p.1, utf8Bytes p.2)))) :
    readTags data strings offset st.length = some tags := by
  induction hres generalizing offset with
  | nil => rfl
  | @cons p q st tags hp hrest ih =>
    obtain ⟨key, value⟩ := p
    obtain ⟨key', value'⟩ := q
    obtain ⟨hkey, rfl⟩ := hp
    rw [List.forall_mem_cons] at hfit
    have hcons : At data offset (u32Le key.toNat ++ (u32Le (utf8Bytes value).length ++
        (utf8Bytes value ++ tagBytes (st.map fun p => (p.1, utf8Bytes p.2))))) := by
      simpa [tagBytes] using h
    have hlen : At data (offset + 4) _ := hcons.right (by rw [length_u32Le])
    have hbytes : At data (offset + 8) _ := hlen.right (by rw [length_u32Le])
    have hnext : At data (offset + 8 + (utf8Bytes value).length) _ := hbytes.right rfl
    have hrest' := ih hfit.2 hnext
    simp only [List.length_cons, readTags, hcons.left.u32At key.toNat_lt, hlen.left.u32At hfit.1,
      hbytes.left.rangeAt, UInt32.ofNat_toNat, hkey, fromUtf8_utf8Bytes, hrest',
      Option.bind_eq_bind, Option.bind_some, Option.pure_def]

lemma readRefs_at {data : Bytes} {offset : Nat} (h : At data offset (refBytes refs)) :
    readRefs data offset refs.length = some refs := by
  induction refs generalizing offset with
  | nil => rfl
  | cons ref refs ih =>
    have hcons : At data offset (i64Le ref ++ refBytes refs) := h
    have hnext : At data (offset + 8) (refBytes refs) := hcons.right (by rw [length_i64Le])
    simp only [List.length_cons, readRefs, hcons.left.i64At, ih hnext, Option.bind_eq_bind,
      Option.bind_some, Option.pure_def]

lemma readMembers_at {data : Bytes} {st : List Member} {offset : Nat}
    (hres : List.Forall₂ (fun p q => byteToMemberType p.2.1 = some q.1 ∧ p.1 = q.2.1 ∧
      strings.resolve p.2.2 = some q.2.2) st members) (h : At data offset (memberBytes st)) :
    readMembers data strings offset st.length = some members := by
  induction hres generalizing offset with
  | nil => rfl
  | @cons p q st members hp hrest ih =>
    obtain ⟨ref, type, role⟩ := p
    obtain ⟨type', ref', role'⟩ := q
    obtain ⟨htype, rfl, hrole⟩ := hp
    have hcons : At data offset (i64Le ref ++ ([type] ++ (u32Le role.toNat ++ memberBytes st))) := by
      simpa [memberBytes] using h
    have hbyte : At data (offset + 8) _ := hcons.right (by rw [length_i64Le])
    have hid : At data (offset + 9) _ := hbyte.right rfl
    have hnext : At data (offset + 13) _ := hid.right (by rw [length_u32Le])
    simp only [List.length_cons, readMembers, hcons.left.i64At, hbyte.left.byteAt,
      hid.left.u32At role.toNat_lt, UInt32.ofNat_toNat, htype, hrole, ih hnext,
      Option.bind_eq_bind, Option.bind_some, Option.pure_def]

lemma flagsOf_spec :
    (flagsOf hasVersion hidden any hasUser &&& metaFlagHasVersion = 0 ↔ hasVersion = false) ∧
    (flagsOf hasVersion hidden any hasUser &&& metaFlagHidden = 0 ↔ hidden = false) ∧
    (flagsOf hasVersion hidden any hasUser &&& metaFlagPresent = 0 ↔ any = false) ∧
    (flagsOf hasVersion hidden any hasUser &&& metaFlagHasUser = 0 ↔ hasUser = false) := by
  revert hasVersion hidden any hasUser
  decide

section Metadata

variable {data : Bytes} {offset : Nat} {a : MetaAttrs} {userId : UInt32}

lemma meta_fields (h : At data offset (metaBytes (arenaMeta a userId))) :
    byteAt data offset = some (flagsOf a.version.isSome a.hidden a.any a.user.isSome) ∧
    i32At data (offset + 1) = some (a.version.getD 0) ∧
    i64At data (offset + 5) = some (a.timestamp.getD 0) ∧
    i64At data (offset + 13) = some (a.changeset.getD 0) ∧
    i32At data (offset + 21) = some (a.uid.getD 0) ∧
    u32At data (offset + 25) = some userId.toNat := by
  have hflags : At data offset ([flagsOf a.version.isSome a.hidden a.any a.user.isSome] ++
      (i32Le (a.version.getD 0) ++ (i64Le (a.timestamp.getD 0) ++ (i64Le (a.changeset.getD 0) ++
        (i32Le (a.uid.getD 0) ++ u32Le userId.toNat))))) := h
  have hversion : At data (offset + 1) _ := hflags.right rfl
  have htimestamp : At data (offset + 5) _ := hversion.right (by rw [length_i32Le])
  have hchangeset : At data (offset + 13) _ := htimestamp.right (by rw [length_i64Le])
  have huid : At data (offset + 21) _ := hchangeset.right (by rw [length_i64Le])
  have huser : At data (offset + 25) _ := huid.right (by rw [length_i32Le])
  exact ⟨hflags.left.byteAt, hversion.left.i32At, htimestamp.left.i64At, hchangeset.left.i64At,
    huid.left.i32At, huser.u32At userId.toNat_lt⟩

lemma readMeta_at (h : At data offset (metaBytes (arenaMeta a userId)))
    (huser : ∀ name, a.user = some name → strings.resolve userId = some name) :
    readMeta data offset strings = some a.metadata := by
  obtain ⟨hflags, hversion, htimestamp, hchangeset, huid, hid⟩ := meta_fields h
  obtain ⟨-, fhidden, fany, fuser⟩ := flagsOf_spec a.version.isSome a.hidden a.any a.user.isSome
  rw [readMeta, hflags, MetaAttrs.metadata]
  simp only [bind_eq_bind, bind_some, fany, fhidden, fuser]
  cases hany : a.any with
  | false => rfl
  | true =>
    cases hname : a.user with
    | none => simp [hversion, htimestamp, hchangeset, huid]
    | some name => simp [hversion, htimestamp, hchangeset, huid, hid, huser name hname]

lemma claimAt_at (h : At data offset (metaBytes (arenaMeta a userId))) :
    claimAt data offset = some a.version := by
  obtain ⟨hflags, hversion, -⟩ := meta_fields h
  obtain ⟨fversion, -⟩ := flagsOf_spec a.version.isSome a.hidden a.any a.user.isSome
  rw [claimAt, hflags]
  simp only [bind_eq_bind, bind_some, fversion, hversion]
  cases a.version with
  | none => rfl
  | some v => rfl

end Metadata

lemma read_at {r : Record} {userId : UInt32} {offset : Nat}
    (hfits : Fits (r.body st) (st.tags.map fun p => (p.1, utf8Bytes p.2)))
    (h : At (d.arena r.kind) offset (recordBytes r.id (r.body st)
      (st.tags.map fun p => (p.1, utf8Bytes p.2)) (arenaMeta r.attrs userId)))
    (hst : Staged d.interner.strings st (r.children.filterMap Child.tag?)
      (r.children.filterMap Child.ref?) (r.children.filterMap Child.member?))
    (huser : ∀ name, r.attrs.user = some name → d.interner.strings.resolve userId = some name) :
    d.read r.kind offset = some r.stored := by
  have hle := h.length_le
  obtain ⟨hbody, hcount, hvalues⟩ := hfits
  rw [length_map] at hcount
  have hvalues' : ∀ p ∈ st.tags, (utf8Bytes p.2).length < 2 ^ 32 :=
    fun p hp => hvalues _ (mem_map_of_mem hp)
  have hdata := h.drop
  rw [Arenas.read, if_pos (by omega)]
  simp only
  generalize (d.arena r.kind).drop offset = data at hdata
  unfold Record.stored Record.content
  unfold recordBytes at hdata
  have hmeta := (hdata.right (Nat.zero_add _).symm).left
  rw [length_headBytes] at hmeta
  cases hkind : r.kind with
  | node =>
    simp only [Record.body, hkind, headBytes, sectionBytes, Body.kind, List.append_assoc,
      nil_append, length_map] at hdata hmeta
    have hlat : At data 8 _ := hdata.right (by rw [length_i64Le])
    have hlon : At data 12 _ := hlat.right (by rw [length_i32Le])
    have htags : At data 16 _ := hlon.right (by rw [length_i32Le])
    have hrest : At data (metaOff .node) _ := htags.right (by rw [length_u32Le]; rfl)
    have hlist : At data (metaOff .node + metaLen) _ := hrest.right (by rw [length_metaBytes])
    simp only [nodeRef, hdata.left.i64At, hlat.left.i32At, hlon.left.i32At,
      htags.left.u32At hcount, readMeta_at hmeta huser, claimAt_at hmeta,
      readTags_at hst.tags hvalues' hlist, Option.bind_eq_bind, Option.bind_some, Option.pure_def]
  | way =>
    simp only [Record.body, hkind, headBytes, sectionBytes, Body.kind, List.append_assoc,
      length_map] at hdata hmeta hbody
    have hcount' : At data 8 _ := hdata.right (by rw [length_i64Le])
    have htags : At data 12 _ := hcount'.right (by rw [length_u32Le])
    have hrest : At data (metaOff .way) _ := htags.right (by rw [length_u32Le]; rfl)
    have hrefs : At data (metaOff .way + metaLen) _ := hrest.right (by rw [length_metaBytes])
    have hlist : At data (metaOff .way + metaLen + st.refs.length * 8) _ :=
      hrefs.right (by rw [length_refBytes])
    have hlisted := readRefs_at hrefs.left
    simp only [wayRef, hdata.left.i64At, hcount'.left.u32At hbody, htags.left.u32At hcount,
      readMeta_at hmeta huser, claimAt_at hmeta, hlisted, readTags_at hst.tags hvalues' hlist,
      Option.bind_eq_bind, Option.bind_some, Option.pure_def]
    rw [hst.refs]
  | relation =>
    simp only [Record.body, hkind, headBytes, sectionBytes, Body.kind, List.append_assoc,
      length_map] at hdata hmeta hbody
    have hcount' : At data 8 _ := hdata.right (by rw [length_i64Le])
    have htags : At data 12 _ := hcount'.right (by rw [length_u32Le])
    have hrest : At data (metaOff .relation) _ := htags.right (by rw [length_u32Le]; rfl)
    have hmembers : At data (metaOff .relation + metaLen) _ :=
      hrest.right (by rw [length_metaBytes])
    have hlist : At data (metaOff .relation + metaLen + st.members.length * 13) _ :=
      hmembers.right (by rw [length_memberBytes])
    simp only [relationRef, hdata.left.i64At, hcount'.left.u32At hbody, htags.left.u32At hcount,
      readMeta_at hmeta huser, claimAt_at hmeta, readMembers_at hst.members hmembers.left,
      readTags_at hst.tags hvalues' hlist, Option.bind_eq_bind, Option.bind_some, Option.pure_def]

/-- A record reads back as it was appended, whatever came before it and comes after it. -/
theorem appended_reads_back (before after : List Call) (r : Record) {offset : Nat} {d : Arenas}
    (h : append (run .new before) r = (.ok offset, d)) :
    (run d after).read r.kind offset = some r.stored := by
  have hnew : Faithful (run .new before).interner := (run_grown faithful_new before).faithful
  obtain ⟨hgrown, hrecord⟩ := append_spec hnew h
  obtain ⟨st, userId, -, hfits, hat, hst, huser⟩ := hrecord offset rfl
  have hlater := run_grown hgrown.faithful after
  obtain ⟨more, hmore⟩ := hlater.arena r.kind
  refine read_at hfits ?_ (hst.extend hlater.strings)
    fun name hname => hlater.strings.resolve (huser name hname)
  rw [hmore]
  exact hat.append more

/-- A relation with an empty role and a multi-byte tag, of an unnamed user. -/
def sampleRelation : Record where
  kind := .relation
  id := -5
  lat := 0
  lon := 0
  attrs := ⟨some 0, none, some 7, none, some "", some "false"⟩
  children := [.member .way 9 "", .tag "ä" "", .member .node (-1) "ä", .tag "" "ö"]

def sampleWay : Record where
  kind := .way
  id := 3
  lat := 0
  lon := 0
  attrs := ⟨none, none, none, none, none, none⟩
  children := [.nd 1, .tag "ä" "x", .nd 1]

def sampleBefore : List Call :=
  [.append sampleWay, .delete ⟨none, none, none, none, some "u", none⟩, .append sampleRelation]

theorem appended_reads_back_sample :
    ∃ d, append (run .new sampleBefore) sampleRelation = (.ok 89, d) ∧
      (run d [.append sampleWay, .append sampleRelation]).read .relation 89 =
        some sampleRelation.stored := by
  have hoffset : (append (run .new sampleBefore) sampleRelation).1 = .ok 89 := rfl
  have happend : append (run .new sampleBefore) sampleRelation =
      (.ok 89, (append (run .new sampleBefore) sampleRelation).2) := Prod.ext hoffset rfl
  exact ⟨_, happend, appended_reads_back sampleBefore [.append sampleWay, .append sampleRelation]
    sampleRelation happend⟩

end OscRecords
