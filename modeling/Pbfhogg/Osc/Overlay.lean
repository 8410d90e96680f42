import Pbfhogg.Osc.VersionFloor
import Mathlib.Data.List.AList
import Mathlib.Data.Finset.Sort

/-!
# The compact diff overlay and its version gate

`CompactDiffOverlay` of `osc/parse.rs`, the three copies of each field grouped by kind. A push
appends a record and points the live index at it; a delete drops the live entry and remembers the
id. The gate compares a claim with the highest version of the live record and of the floor map, into
which a transition that loses a version folds it.
-/

namespace OscOverlay

open OsmId OscCompact VersionFloor List

variable {changes accepted : List Change} {x : ElementKind × Int64} {c : Change}
  {o : CompactDiffOverlay}

structure KindStore where
  arena : Bytes
  index : AList (fun _ : Int64 => Nat)
  deleted : Finset Int64
  floors : AList (fun _ : Int64 => Int32)

structure CompactDiffOverlay where
  stores : ElementKind → KindStore
  allowVersionRegression : Bool

def CompactDiffOverlay.new : CompactDiffOverlay where
  stores := fun _ => ⟨[], ∅, ∅, ∅⟩
  allowVersionRegression := false

variable (s : KindStore)

def KindStore.liveVersion (kind : ElementKind) (id : Int64) : Option Int32 :=
  (s.index.lookup id).bind fun offset => versionAt s.arena offset (metaOff kind)

def KindStore.storedVersion (kind : ElementKind) (id : Int64) : Option Int32 :=
  match s.liveVersion kind id, s.floors.lookup id with
  | some a, some b => some (maxI32 a b)
  | some a, none => some a
  | none, b => b

variable (floors : AList (fun _ : Int64 => Int32)) (id : Int64)

def raiseFloor (carried : Option Int32)
    (m : ArenaMeta) : AList (fun _ : Int64 => Int32) :=
  match claimMax carried m.versionClaim with
  | none => floors
  | some highest =>
    match floors.lookup id with
    | some v => floors.insert id (maxI32 v highest)
    | none => floors.insert id highest

namespace CompactDiffOverlay

def storedVersion (o : CompactDiffOverlay) (kind : ElementKind) (id : Int64) : Option Int32 :=
  (o.stores kind).storedVersion kind id

def set (o : CompactDiffOverlay) (kind : ElementKind) (s : KindStore) : CompactDiffOverlay :=
  { o with stores := Function.update o.stores kind s }

def checkVersionAdvance (o : CompactDiffOverlay) (kind : ElementKind) (id : Int64)
    (incoming : Int32) : Except OscError Unit :=
  if o.allowVersionRegression then .ok ()
  else match (Floor.mk (o.storedVersion kind id)).admits (some incoming) with
    | .ok () => .ok ()
    | .error stored => .error (.versionRegression "OSC change overlay" kind id incoming stored)

/-- The common end of the three push methods: append, index, undelete. -/
def pushRecord (o : CompactDiffOverlay) (id : Int64) (body : Body) (tags : List Tag)
    (m : ArenaMeta) : Except OscError Unit × CompactDiffOverlay :=
  let s := o.stores body.kind
  match arenaAppend s.arena id body tags m with
  | (.error e, arena) => (.error e, o.set body.kind { s with arena := arena })
  | (.ok offset, arena) => (.ok (), o.set body.kind
      { s with arena := arena, index := s.index.insert id offset, deleted := s.deleted.erase id })

def push (o : CompactDiffOverlay) (id : Int64) (body : Body) (tags : List Tag)
    (m : ArenaMeta) : Except OscError Unit × CompactDiffOverlay :=
  match m.versionClaim with
  | some claim =>
    match o.checkVersionAdvance body.kind id claim with
    | .error e => (.error e, o)
    | .ok () => o.pushRecord id body tags m
  | none =>
    if o.allowVersionRegression then o.pushRecord id body tags m
    else
      let s := o.stores body.kind
      let carried := o.storedVersion body.kind id
      (o.set body.kind { s with floors := raiseFloor s.floors id carried m }).pushRecord
        id body tags m

def pushNode (o : CompactDiffOverlay) (id : Int64) (lat lon : Int32) (tags : List Tag)
    (m : ArenaMeta) : Except OscError Unit × CompactDiffOverlay :=
  o.push id (.node lat lon) tags m

def pushWay (o : CompactDiffOverlay) (id : Int64) (refs : List Int64) (tags : List Tag)
    (m : ArenaMeta) : Except OscError Unit × CompactDiffOverlay :=
  o.push id (.way refs) tags m

def pushRelation (o : CompactDiffOverlay) (id : Int64) (members : List Member)
    (tags : List Tag) (m : ArenaMeta) : Except OscError Unit × CompactDiffOverlay :=
  o.push id (.relation members) tags m

/-- The end of the three delete methods, behind their gate. -/
def deleteRecord (o : CompactDiffOverlay) (kind : ElementKind) (id : Int64) (m : ArenaMeta) :
    CompactDiffOverlay :=
  let s := o.stores kind
  o.set kind { s with
    floors := raiseFloor s.floors id (o.storedVersion kind id) m
    deleted := insert id s.deleted
    index := s.index.erase id }

def delete (o : CompactDiffOverlay) (kind : ElementKind) (id : Int64) (m : ArenaMeta) :
    Except OscError Unit × CompactDiffOverlay :=
  match m.versionClaim with
  | some claim =>
    match o.checkVersionAdvance kind id claim with
    | .error e => (.error e, o)
    | .ok () => (.ok (), o.deleteRecord kind id m)
  | none => (.ok (), o.deleteRecord kind id m)

def deleteNode (o : CompactDiffOverlay) := o.delete .node

def deleteWay (o : CompactDiffOverlay) := o.delete .way

def deleteRelation (o : CompactDiffOverlay) := o.delete .relation

end CompactDiffOverlay

inductive Action where
  | create
  | modify
  | delete
  deriving DecidableEq

/-- One change of the input; a delete carries only its kind, id and metadata to
the overlay. -/
structure Change where
  action : Action
  id : Int64
  body : Body
  tags : List Tag
  arenaMeta : ArenaMeta

namespace Change

def kind (c : Change) : ElementKind := c.body.kind

def claim (c : Change) : Option Int32 := c.arenaMeta.versionClaim

/-- The object a change is about. -/
def object (c : Change) : ElementKind × Int64 := (c.kind, c.id)

end Change

/-- `CompactSink`'s dispatch of a finished element. -/
def CompactDiffOverlay.feed (o : CompactDiffOverlay) (c : Change) :
    Except OscError Unit × CompactDiffOverlay :=
  match c.action, c.body with
  | .delete, .node .. => o.deleteNode c.id c.arenaMeta
  | .delete, .way _ => o.deleteWay c.id c.arenaMeta
  | .delete, .relation _ => o.deleteRelation c.id c.arenaMeta
  | _, .node lat lon => o.pushNode c.id lat lon c.tags c.arenaMeta
  | _, .way refs => o.pushWay c.id refs c.tags c.arenaMeta
  | _, .relation members => o.pushRelation c.id members c.tags c.arenaMeta

lemma feed_eq (o : CompactDiffOverlay) (c : Change) :
    o.feed c = if c.action = .delete then o.delete c.kind c.id c.arenaMeta
      else o.push c.id c.body c.tags c.arenaMeta := by
  obtain ⟨action, id, body, tags, m⟩ := c
  cases action <;> cases body <;> rfl

/-- The overlay after feeding every change, with the accepted ones in order.
Feeding goes on behind a refusal. -/
def feedAll (changes : List Change) : CompactDiffOverlay × List Change :=
  changes.foldl (fun (o, accepted) c =>
    match o.feed c with
    | (.ok (), o') => (o', accepted ++ [c])
    | (.error _, o') => (o', accepted)) (.new, [])

/-- Parsing as apply-changes does it: the first failure ends the parse. -/
def parseAll : CompactDiffOverlay → List Change → Except OscError CompactDiffOverlay
  | o, [] => .ok o
  | o, c :: rest =>
    match o.feed c with
    | (.error e, _) => .error e
    | (.ok (), o') => parseAll o' rest

/-- The highest version the changes to one object state. -/
def highestStated (changes : List Change) (object : ElementKind × Int64) : Option Int32 :=
  changes.foldl (fun highest c =>
    if c.object = object then claimMax highest c.claim else highest) none

/-- The last change to one object. -/
def lastChange (changes : List Change) (object : ElementKind × Int64) : Option Change :=
  (changes.filter (·.object = object)).getLast?

@[simp] lemma set_stores_self (o : CompactDiffOverlay) (k : ElementKind) (s : KindStore) :
    (o.set k s).stores k = s := by
  simp [CompactDiffOverlay.set]

lemma set_stores_ne (o : CompactDiffOverlay) {k k' : ElementKind} (h : k' ≠ k)
    (s : KindStore) : (o.set k s).stores k' = o.stores k' := by
  simp [CompactDiffOverlay.set, h]

lemma storedVersion_eq (k : ElementKind) (id : Int64) :
    s.storedVersion k id = claimMax (s.liveVersion k id) (s.floors.lookup id) := by
  unfold KindStore.storedVersion
  cases s.liveVersion k id <;> cases s.floors.lookup id <;> rfl

lemma lookup_raiseFloor
    (carried : Option Int32) (m : ArenaMeta) (j : Int64) :
    (raiseFloor floors id carried m).lookup j =
      if j = id then claimMax (floors.lookup id) (claimMax carried m.versionClaim)
      else floors.lookup j := by
  unfold raiseFloor
  by_cases hj : j = id
  · subst hj
    cases hc : claimMax carried m.versionClaim with
    | none => simp
    | some h => cases hf : floors.lookup j <;> simp [claimMax]
  · cases hc : claimMax carried m.versionClaim with
    | none => simp [hj]
    | some h => cases hf : floors.lookup id <;> simp [hj, AList.lookup_insert_ne]

lemma highestStated_append (changes : List Change) (c : Change) (x : ElementKind × Int64) :
    highestStated (changes ++ [c]) x =
      if c.object = x then claimMax (highestStated changes x) c.claim
      else highestStated changes x := by
  simp [highestStated, foldl_append]

lemma lastChange_append (changes : List Change) (c : Change) (x : ElementKind × Int64) :
    lastChange (changes ++ [c]) x = if c.object = x then some c else lastChange changes x := by
  unfold lastChange
  by_cases h : c.object = x <;> simp [filter_append, h]

lemma lastChange_object (h : lastChange changes x = some c) : c ∈ changes ∧ c.object = x := by
  have hmem := mem_of_getLast? h
  simpa using hmem

lemma lastChange_isSome_iff (changes : List Change) (x : ElementKind × Int64) :
    (∃ c, lastChange changes x = some c) ↔ ∃ c ∈ changes, c.object = x := by
  constructor
  · rintro ⟨c, h⟩
    exact ⟨c, lastChange_object h⟩
  · rintro ⟨c, hmem, hobj⟩
    cases h : lastChange changes x with
    | some d => exact ⟨d, rfl⟩
    | none =>
      have hnil : changes.filter (·.object = x) = [] := by
        simpa [lastChange] using h
      have hc : c ∈ changes.filter (·.object = x) := by simp [hmem, hobj]
      rw [hnil] at hc
      cases hc

/-- The live record's claim as the last accepted change determines it. -/
def liveClaim : Option Change → Option Int32
  | none => none
  | some c => if c.action = .delete then none else c.claim

/-- The live index and the deleted set hold the last change to the object: a
push as its whole record at the indexed offset, a delete as a deleted id. -/
def Holds : Option Change → Prop
  | none => s.index.lookup id = none ∧ id ∉ s.deleted
  | some c =>
    if c.action = .delete then s.index.lookup id = none ∧ id ∈ s.deleted
    else id ∉ s.deleted ∧ Fits c.body c.tags ∧ ∃ offset post,
      s.index.lookup id = some offset ∧
      s.arena.drop offset = recordBytes c.id c.body c.tags c.arenaMeta ++ post

lemma recordBytes_ne_nil (body : Body) (tags : List Tag) (m : ArenaMeta) :
    recordBytes id body tags m ≠ [] := by
  intro h
  have hlen := congrArg length h
  simp [recordBytes, metaLen] at hlen

lemma drop_append_of_record {arena junk : Bytes} {offset : Nat} {id : Int64} {body : Body}
    {tags : List Tag} {m : ArenaMeta} {post : Bytes}
    (h : arena.drop offset = recordBytes id body tags m ++ post) :
    (arena ++ junk).drop offset = recordBytes id body tags m ++ (post ++ junk) := by
  have hle : offset ≤ arena.length := by
    by_contra hgt
    rw [drop_eq_nil_of_le (by omega)] at h
    exact recordBytes_ne_nil id body tags m (append_eq_nil_iff.mp h.symm).1
  rw [drop_append_of_le_length hle, h, append_assoc]

/-- Growing the arena and touching other ids leaves an object's state alone. -/
lemma Holds.frame {s t : KindStore} {id : Int64} {last : Option Change} (h : Holds s id last)
    (junk : Bytes) (harena : t.arena = s.arena ++ junk)
    (hindex : t.index.lookup id = s.index.lookup id) (hdel : id ∈ t.deleted ↔ id ∈ s.deleted) :
    Holds t id last := by
  cases last with
  | none => exact ⟨hindex.trans h.1, fun hd => h.2 (hdel.mp hd)⟩
  | some c =>
    by_cases hc : c.action = .delete
    · simp only [Holds, if_pos hc] at h ⊢
      exact ⟨hindex.trans h.1, hdel.mpr h.2⟩
    · simp only [Holds, if_neg hc] at h ⊢
      obtain ⟨hnot, hfit, offset, post, hlook, hrec⟩ := h
      refine ⟨fun hd => hnot (hdel.mp hd), hfit, offset, post ++ junk, hindex.trans hlook, ?_⟩
      rw [harena]
      exact drop_append_of_record hrec

lemma Holds.liveVersion {s : KindStore} {k : ElementKind} {id : Int64} {last : Option Change}
    (h : Holds s id last) (hkind : ∀ c, last = some c → c.kind = k) :
    s.liveVersion k id = liveClaim last := by
  cases last with
  | none => simp [KindStore.liveVersion, liveClaim, h.1]
  | some c =>
    by_cases hc : c.action = .delete
    · simp only [Holds, if_pos hc] at h
      simp [KindStore.liveVersion, liveClaim, hc, h.1]
    · simp only [Holds, if_neg hc] at h
      obtain ⟨_, _, offset, post, hlook, hrec⟩ := h
      have hk : c.body.kind = k := hkind c rfl
      simp only [KindStore.liveVersion, hlook, Option.bind_some, versionAt_eq, hrec, liveClaim,
        if_neg hc, ← hk, metaAt_record, Change.claim]

/-- The overlay, gate on, holds exactly what the accepted changes left. -/
structure Reflects (o : CompactDiffOverlay) (accepted : List Change) : Prop where
  gate : o.allowVersionRegression = false
  holds : ∀ k id, Holds (o.stores k) id (lastChange accepted (k, id))
  floor : ∀ k id, claimMax (liveClaim (lastChange accepted (k, id)))
    ((o.stores k).floors.lookup id) = highestStated accepted (k, id)

lemma reflects_new : Reflects .new [] where
  gate := rfl
  holds := fun _ _ => ⟨rfl, by simp [CompactDiffOverlay.new]⟩
  floor := fun _ _ => rfl

lemma Reflects.storedVersion (h : Reflects o accepted) (k : ElementKind) (id : Int64) :
    o.storedVersion k id = highestStated accepted (k, id) := by
  have hkind : ∀ c, lastChange accepted (k, id) = some c → c.kind = k :=
    fun c hc => congrArg Prod.fst (lastChange_object hc).2
  rw [CompactDiffOverlay.storedVersion, storedVersion_eq, (h.holds k id).liveVersion hkind,
    h.floor k id]

/-- The floor map never holds more than the object's highest stated version. -/
lemma Reflects.floor_le (h : Reflects o accepted) (k : ElementKind) (id : Int64) :
    claimRank ((o.stores k).floors.lookup id) ≤ claimRank (highestStated accepted (k, id)) := by
  rw [← h.floor k id, claimRank_claimMax]
  exact le_max_right _ _

lemma checkVersionAdvance_eq (gate : o.allowVersionRegression = false) (k : ElementKind)
    (id : Int64) (v : Int32) :
    o.checkVersionAdvance k id v =
      match (Floor.mk (o.storedVersion k id)).admits (some v) with
      | .ok () => .ok ()
      | .error stored => .error (.versionRegression "OSC change overlay" k id v stored) := by
  simp [CompactDiffOverlay.checkVersionAdvance, gate]

/-- A claim below the highest stated version is refused and changes nothing. -/
lemma feed_refused (h : Reflects o accepted) {held : Int32}
    (hadmits : (Floor.mk (highestStated accepted c.object)).admits c.claim = .error held) :
    ∃ v, c.claim = some v ∧ o.feed c =
      (.error (.versionRegression "OSC change overlay" c.kind c.id v held), o) := by
  obtain ⟨_, v, hv, _⟩ := (admits_eq_error_iff _ _ _).mp hadmits
  rw [hv] at hadmits
  have hcheck : o.checkVersionAdvance c.kind c.id v =
      .error (.versionRegression "OSC change overlay" c.kind c.id v held) := by
    rw [checkVersionAdvance_eq h.gate, h.storedVersion]
    simp only [Change.object] at hadmits
    simp only [hadmits]
  refine ⟨v, hv, ?_⟩
  rw [feed_eq]
  by_cases hc : c.action = .delete
  · rw [if_pos hc]
    simp only [CompactDiffOverlay.delete, show c.arenaMeta.versionClaim = some v from hv, hcheck]
  · rw [if_neg hc]
    simp only [CompactDiffOverlay.push, show c.arenaMeta.versionClaim = some v from hv,
      show o.checkVersionAdvance c.body.kind c.id v = _ from hcheck]

lemma checkVersionAdvance_ok (h : Reflects o accepted) {v : Int32} (hv : c.claim = some v)
    (hadmits : (Floor.mk (highestStated accepted c.object)).admits c.claim = .ok ()) :
    o.checkVersionAdvance c.kind c.id v = .ok () := by
  rw [hv] at hadmits
  rw [checkVersionAdvance_eq h.gate, h.storedVersion]
  simp only [Change.object] at hadmits
  simp only [hadmits]

/-- An admitted delete moves the object to the deleted set. -/
lemma reflects_deleteRecord (h : Reflects o accepted) (hc : c.action = .delete) :
    Reflects (o.deleteRecord c.kind c.id c.arenaMeta) (accepted ++ [c]) := by
  refine ⟨h.gate, ?_, ?_⟩
  · intro k id
    rw [lastChange_append]
    by_cases hobj : c.object = (k, id)
    · rw [if_pos hobj]
      obtain ⟨rfl, rfl⟩ := Prod.mk.injEq .. ▸ hobj
      simp [CompactDiffOverlay.deleteRecord, Holds, hc]
    · rw [if_neg hobj]
      by_cases hk : k = c.kind
      · subst hk
        have hid : id ≠ c.id := fun e => hobj (by rw [e]; rfl)
        refine (h.holds c.kind id).frame [] ?_ ?_ ?_ <;>
          simp [CompactDiffOverlay.deleteRecord, hid, AList.lookup_erase_ne]
      · rw [CompactDiffOverlay.deleteRecord, set_stores_ne _ hk]
        exact h.holds k id
  · intro k id
    rw [lastChange_append, highestStated_append]
    by_cases hobj : c.object = (k, id)
    · obtain ⟨rfl, rfl⟩ := Prod.mk.injEq .. ▸ hobj
      simp only [if_true, CompactDiffOverlay.deleteRecord, set_stores_self, liveClaim, hc,
        lookup_raiseFloor, none_claimMax, hobj, h.storedVersion]
      rw [← claimMax_assoc, claimMax_eq_right (h.floor_le c.kind c.id)]
      rfl
    · rw [if_neg hobj, if_neg hobj, ← h.floor k id]
      by_cases hk : k = c.kind
      · subst hk
        have hid : id ≠ c.id := fun e => hobj (by rw [e]; rfl)
        simp [CompactDiffOverlay.deleteRecord, lookup_raiseFloor, hid]
      · rw [CompactDiffOverlay.deleteRecord, set_stores_ne _ hk]

/-- Bytes left behind by a refused append are unreachable. -/
lemma reflects_append_junk (h : Reflects o accepted) (k : ElementKind) (junk : Bytes) :
    Reflects (o.set k { o.stores k with arena := (o.stores k).arena ++ junk }) accepted := by
  refine ⟨h.gate, ?_, ?_⟩
  · intro k' id
    by_cases hk : k' = k
    · subst hk
      refine (h.holds k' id).frame junk ?_ ?_ ?_ <;> simp
    · rw [set_stores_ne _ hk]
      exact h.holds k' id
  · intro k' id
    rw [← h.floor k' id]
    by_cases hk : k' = k
    · subst hk
      simp
    · rw [set_stores_ne _ hk]

/-- A stored push makes its record the live one, when the floor already holds
what the push overwrites. -/
lemma reflects_pushRecord (h : Reflects o accepted) (hc : c.action ≠ .delete)
    (hfloor : claimMax c.claim ((o.stores c.kind).floors.lookup c.id) =
      claimMax (highestStated accepted c.object) c.claim) :
    (∃ o', o.pushRecord c.id c.body c.tags c.arenaMeta = (.ok (), o') ∧
      Fits c.body c.tags ∧ Reflects o' (accepted ++ [c])) ∨
    (∃ e o', o.pushRecord c.id c.body c.tags c.arenaMeta = (.error (.invalidData e), o') ∧
      ¬ Fits c.body c.tags ∧ Reflects o' accepted) := by
  rcases arenaAppend_cases (o.stores c.kind).arena c.id c.body c.tags c.arenaMeta with
    ⟨hfit, happ⟩ | ⟨hfit, e, junk, happ⟩
  · have hrun : o.pushRecord c.id c.body c.tags c.arenaMeta = (.ok (), o.set c.kind
        { o.stores c.kind with
          arena := (o.stores c.kind).arena ++ recordBytes c.id c.body c.tags c.arenaMeta
          index := (o.stores c.kind).index.insert c.id (o.stores c.kind).arena.length
          deleted := (o.stores c.kind).deleted.erase c.id }) := by
      simp only [CompactDiffOverlay.pushRecord, show c.body.kind = c.kind from rfl, happ]
    refine Or.inl ⟨_, hrun, hfit, ⟨h.gate, ?_, ?_⟩⟩
    · intro k id
      rw [lastChange_append]
      by_cases hobj : c.object = (k, id)
      · rw [if_pos hobj]
        obtain ⟨rfl, rfl⟩ := Prod.mk.injEq .. ▸ hobj
        simp only [Holds, if_neg hc, set_stores_self, Finset.mem_erase]
        exact ⟨fun hd => hd.1 rfl, hfit, (o.stores c.kind).arena.length, [], by simp, by simp⟩
      · rw [if_neg hobj]
        by_cases hk : k = c.kind
        · subst hk
          have hid : id ≠ c.id := fun e => hobj (by rw [e]; rfl)
          refine (h.holds c.kind id).frame (recordBytes c.id c.body c.tags c.arenaMeta)
            ?_ ?_ ?_ <;> simp [hid, AList.lookup_insert_ne]
        · rw [set_stores_ne _ hk]
          exact h.holds k id
    · intro k id
      rw [lastChange_append, highestStated_append]
      by_cases hobj : c.object = (k, id)
      · rw [if_pos hobj, if_pos hobj, ← hobj]
        obtain ⟨rfl, rfl⟩ := Prod.mk.injEq .. ▸ hobj
        simpa only [set_stores_self, liveClaim, if_neg hc] using hfloor
      · rw [if_neg hobj, if_neg hobj, ← h.floor k id]
        by_cases hk : k = c.kind
        · subst hk
          simp
        · rw [set_stores_ne _ hk]
  · refine Or.inr ⟨e, _, ?_, hfit, reflects_append_junk h c.kind junk⟩
    simp only [CompactDiffOverlay.pushRecord, show c.body.kind = c.kind from rfl, happ]

/-- Folding the held version into the floor changes no stored version. -/
lemma reflects_raiseFloor (h : Reflects o accepted) (k : ElementKind) (id : Int64) {m : ArenaMeta}
    (hm : m.versionClaim = none) : Reflects (o.set k { o.stores k with
      floors := raiseFloor (o.stores k).floors id (o.storedVersion k id) m }) accepted := by
  refine ⟨h.gate, ?_, ?_⟩
  · intro k' id'
    by_cases hk : k' = k
    · subst hk
      refine (h.holds k' id').frame [] ?_ ?_ ?_ <;> simp
    · rw [set_stores_ne _ hk]
      exact h.holds k' id'
  · intro k' id'
    by_cases hk : k' = k
    · subst hk
      rw [set_stores_self]
      dsimp only
      rw [lookup_raiseFloor, hm, claimMax_none, h.storedVersion]
      by_cases hid : id' = id
      · subst hid
        rw [if_pos rfl, ← claimMax_assoc, h.floor, claimMax_self]
      · rw [if_neg hid, h.floor]
    · rw [set_stores_ne _ hk]
      exact h.floor k' id'

/-- What one fed change can do: be refused by the gate, fail on a count, or be
accepted. -/
theorem feed_cases (h : Reflects o accepted) (c : Change) :
    (∃ v held, c.claim = some v ∧ highestStated accepted c.object = some held ∧ v < held ∧
      o.feed c = (.error (.versionRegression "OSC change overlay" c.kind c.id v held), o)) ∨
    ((Floor.mk (highestStated accepted c.object)).admits c.claim = .ok () ∧
      ((∃ e o', o.feed c = (.error (.invalidData e), o') ∧ ¬ Fits c.body c.tags ∧
          c.action ≠ .delete ∧ Reflects o' accepted) ∨
        ∃ o', o.feed c = (.ok (), o') ∧ Reflects o' (accepted ++ [c]))) := by
  cases hadmits : (Floor.mk (highestStated accepted c.object)).admits c.claim with
  | error held =>
    obtain ⟨hheld, v, hv, hlt⟩ := (admits_eq_error_iff _ _ _).mp hadmits
    obtain ⟨w, hw, hfeed⟩ := feed_refused h hadmits
    have hvw : w = v := Option.some.inj (hw.symm.trans hv)
    exact Or.inl ⟨v, held, hv, hheld, hlt, hvw ▸ hfeed⟩
  | ok u =>
    refine Or.inr ⟨rfl, ?_⟩
    rw [feed_eq]
    by_cases hc : c.action = .delete
    · rw [if_pos hc]
      refine Or.inr ⟨_, ?_, reflects_deleteRecord h hc⟩
      cases hv : c.arenaMeta.versionClaim with
      | none => simp only [CompactDiffOverlay.delete, hv]
      | some v => simp only [CompactDiffOverlay.delete, hv, checkVersionAdvance_ok h hv hadmits]
    · rw [if_neg hc]
      have hpush : ∃ o₁, Reflects o₁ accepted ∧
          o.push c.id c.body c.tags c.arenaMeta = o₁.pushRecord c.id c.body c.tags c.arenaMeta ∧
          claimMax c.claim ((o₁.stores c.kind).floors.lookup c.id) =
            claimMax (highestStated accepted c.object) c.claim := by
        cases hv : c.arenaMeta.versionClaim with
        | some v =>
          refine ⟨o, h, ?_, ?_⟩
          · simp only [CompactDiffOverlay.push, hv,
              show o.checkVersionAdvance c.body.kind c.id v = _ from
                checkVersionAdvance_ok h hv hadmits]
          · rw [show c.claim = some v from hv] at hadmits ⊢
            have hmax := claimMax_of_admits hadmits
            have hle : claimRank (highestStated accepted c.object) ≤ claimRank (some v) := by
              rw [← hmax, claimRank_claimMax]
              exact le_max_left _ _
            rw [hmax, claimMax_comm, claimMax_eq_right ((h.floor_le c.kind c.id).trans hle)]
        | none =>
          refine ⟨_, reflects_raiseFloor h c.kind c.id hv, ?_, ?_⟩
          · simp only [CompactDiffOverlay.push, hv, h.gate]
            rfl
          · rw [show c.claim = none from hv, none_claimMax, claimMax_none, set_stores_self]
            dsimp only
            rw [lookup_raiseFloor, if_pos rfl, hv, claimMax_none, h.storedVersion,
              claimMax_eq_right (h.floor_le c.kind c.id)]
            rfl
      obtain ⟨o₁, h₁, heq, hfloor⟩ := hpush
      rw [heq]
      rcases reflects_pushRecord h₁ hc hfloor with ⟨o', hrun, _, hr⟩ | ⟨e, o', hrun, hfit, hr⟩
      · exact Or.inr ⟨o', hrun, hr⟩
      · exact Or.inl ⟨e, o', hrun, hfit, hc, hr⟩

lemma feedAll_reflects (changes : List Change) :
    Reflects (feedAll changes).1 (feedAll changes).2 := by
  unfold feedAll
  suffices hrun : ∀ (rest : List Change) (p : CompactDiffOverlay × List Change),
      Reflects p.1 p.2 →
      Reflects (rest.foldl (fun (o, accepted) c =>
          match o.feed c with
          | (.ok (), o') => (o', accepted ++ [c])
          | (.error _, o') => (o', accepted)) p).1
        (rest.foldl (fun (o, accepted) c =>
          match o.feed c with
          | (.ok (), o') => (o', accepted ++ [c])
          | (.error _, o') => (o', accepted)) p).2 from hrun changes (.new, []) reflects_new
  intro rest
  induction rest with
  | nil => exact fun p hp => hp
  | cons c rest ih =>
    rintro ⟨o, accepted⟩ hp
    rw [foldl_cons]
    apply ih
    rcases feed_cases hp c with ⟨v, held, _, _, _, hfeed⟩ | ⟨_, ⟨e, o', hfeed, _, _, hr⟩ |
      ⟨o', hfeed, hr⟩⟩
    · simpa only [hfeed] using hp
    · simpa only [hfeed] using hr
    · simpa only [hfeed] using hr

/-- `v` is stated by a change to the object and no change to it states more. -/
def Highest (changes : List Change) (x : ElementKind × Int64) (v : Int32) : Prop :=
  (∃ c ∈ changes, c.object = x ∧ c.claim = some v) ∧
    ∀ c ∈ changes, c.object = x → ∀ w, c.claim = some w → w ≤ v

lemma claim_le_highestStated (hc : c ∈ changes) (hobj : c.object = x) :
    claimRank c.claim ≤ claimRank (highestStated changes x) := by
  induction changes using reverseRecOn with
  | nil => cases hc
  | append_singleton changes d ih =>
    rw [highestStated_append]
    rcases mem_append.mp hc with hc | hc
    · split_ifs
      · rw [claimRank_claimMax]
        exact le_max_of_le_left (ih hc)
      · exact ih hc
    · rw [← mem_singleton.mp hc, if_pos hobj, claimRank_claimMax]
      exact le_max_right _ _

lemma highestStated_attained {v : Int32} (h : highestStated changes x = some v) :
    ∃ c ∈ changes, c.object = x ∧ c.claim = some v := by
  induction changes using reverseRecOn with
  | nil => cases h
  | append_singleton changes d ih =>
    rw [highestStated_append] at h
    have hold : highestStated changes x = some v →
        ∃ c ∈ changes ++ [d], c.object = x ∧ c.claim = some v := by
      intro hv
      obtain ⟨c, hc, hcx⟩ := ih hv
      exact ⟨c, mem_append_left _ hc, hcx⟩
    split_ifs at h with hobj
    · cases hh : highestStated changes x with
      | none =>
        rw [hh, none_claimMax] at h
        exact ⟨d, by simp, hobj, h⟩
      | some a =>
        cases hd : d.claim with
        | none =>
          rw [hd, claimMax_none] at h
          exact hold h
        | some b =>
          rw [hh, hd, claimMax, maxI32] at h
          split_ifs at h
          · exact ⟨d, by simp, hobj, hd.trans h⟩
          · exact hold (hh.trans h)
    · exact hold h

lemma claimRank_some_le {a b : Int32} : claimRank (some a) ≤ claimRank (some b) ↔ a ≤ b := by
  rw [Int32.le_iff_toInt_le]
  exact WithBot.coe_le_coe

lemma highestStated_eq_some_iff (changes : List Change) (x : ElementKind × Int64) (v : Int32) :
    highestStated changes x = some v ↔ Highest changes x v := by
  constructor
  · intro h
    refine ⟨highestStated_attained h, fun c hc hobj w hw => ?_⟩
    have hle := claim_le_highestStated hc hobj
    rwa [h, hw, claimRank_some_le] at hle
  · rintro ⟨⟨c, hc, hobj, hv⟩, hmax⟩
    have hle := claim_le_highestStated hc hobj
    rw [hv] at hle
    cases hh : highestStated changes x with
    | none =>
      rw [hh] at hle
      exact absurd (le_bot_iff.mp hle) (by simp [claimRank])
    | some u =>
      obtain ⟨d, hd, hdx, hdu⟩ := highestStated_attained hh
      rw [hh, claimRank_some_le] at hle
      have hge := hmax d hd hdx u hdu
      rw [Int32.le_iff_toInt_le] at hle hge
      rw [Int32.toInt_inj.mp (le_antisymm hge hle)]

/-- The gate refuses exactly the changes that state less than an earlier accepted
change to the object. -/
theorem refused_iff (h : Reflects o accepted) (c : Change) :
    (∃ e, (o.feed c).1 = .error e ∧ ∃ consumer k id v held,
        e = .versionRegression consumer k id v held) ↔
      ∃ v, c.claim = some v ∧ ∃ d ∈ accepted, d.object = c.object ∧
        ∃ w, d.claim = some w ∧ v < w := by
  rcases feed_cases h c with ⟨v, held, hv, hheld, hlt, hfeed⟩ | ⟨hadmits, hrest⟩
  · rw [hfeed]
    refine iff_of_true ⟨_, rfl, _, _, _, _, _, rfl⟩ ⟨v, hv, ?_⟩
    obtain ⟨d, hd, hobj, hclaim⟩ := highestStated_attained hheld
    exact ⟨d, hd, hobj, held, hclaim, hlt⟩
  · refine iff_of_false ?_ ?_
    · rintro ⟨e, he, consumer, k, id, v, held, rfl⟩
      rcases hrest with ⟨e', o', hfeed, _⟩ | ⟨o', hfeed, _⟩ <;> rw [hfeed] at he <;> cases he
    · rintro ⟨v, hv, d, hd, hobj, w, hw, hlt⟩
      have hle := claim_le_highestStated hd hobj
      rw [hw] at hle
      cases hh : highestStated accepted c.object with
      | none =>
        rw [hh] at hle
        exact absurd (le_bot_iff.mp hle) (by simp [claimRank])
      | some held =>
        rw [hh, claimRank_some_le, Int32.le_iff_toInt_le] at hle
        have hnot := (admits_eq_ok_iff _ _).mp hadmits v held hv hh
        rw [Int32.lt_iff_toInt_lt] at hlt hnot
        omega

end OscOverlay
