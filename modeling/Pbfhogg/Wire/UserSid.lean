import Pbfhogg.Wire.Messages

/-!
# The user of an element's metadata

`WireInfo::user_sid_of` walks the bytes of an `Info` message for its user alone. It handles
one-byte tags of varint fields and hands every other message to the parser.
-/

namespace UserSid

open Protohoggr FieldWalk WireMessages Varint Fallible

section Source

variable (ph : Crate)

/-- The user as the parser finds it. -/
def parsedUser (data : Bytes) : Except Error (Option Int32) :=
  (WireInfo.parse ph data).map WireInfo.userSid

/-- The loop over the bytes of `data` from some index on. A turn takes two bytes or more. -/
def userSidFrom (data : Bytes) : Nat → Option Int32 → Bytes → Except Error (Option Int32)
  | 0, user, _ => .ok user
  | _ + 1, user, [] => .ok user
  | fuel + 1, user, tag :: rest =>
    if tag &&& 0x87 ≠ 0 ∨ tag < 8 then parsedUser ph data
    else
      match rest.findIdx? (fun b => b &&& 0x80 = 0) with
      | none => parsedUser ph data
      | some len =>
        if 9 ≤ len then parsedUser ph data
        else if tag = (5 : UInt8) <<< 3 then do
          let (sid, _) ← ph.readVarint (rest.take (len + 1))
          userSidFrom data fuel (some (asInt32 sid)) (rest.drop (len + 1))
        else userSidFrom data fuel user (rest.drop (len + 1))

def userSidOf (data : Bytes) : Except Error (Option Int32) :=
  userSidFrom ph data (data.length + 1) none data

end Source

variable {ph : Crate} {data rest : Bytes} {v : Nat} {s : WireInfo}

lemma and_high_eq_zero (b : UInt8) : b &&& 0x80 = 0 ↔ b.toNat < 128 := by
  suffices h : ∀ x : BitVec 8, UInt8.ofBitVec x &&& 0x80 = 0 ↔ x.toNat < 128 from h b.toBitVec
  decide

/-- A tag that is left to the loop: one byte, wire type varint, a field above zero. -/
lemma short_tag {tag : UInt8} (h : ¬(tag &&& 0x87 ≠ 0 ∨ tag < 8)) :
    ∃ f, 0 < f ∧ f < 16 ∧ tag.toNat = 8 * f + wireVarint ∧ (tag = (5 : UInt8) <<< 3 ↔ f = 5) := by
  suffices hall : ∀ x : BitVec 8, ¬(UInt8.ofBitVec x &&& 0x87 ≠ 0 ∨ UInt8.ofBitVec x < 8) →
      0 < x.toNat / 8 ∧ x.toNat / 8 < 16 ∧ x.toNat = 8 * (x.toNat / 8) + wireVarint ∧
        (UInt8.ofBitVec x = (5 : UInt8) <<< 3 ↔ x.toNat / 8 = 5) from ⟨_, hall tag.toBitVec h⟩
  decide

/-- The bytes up to the first without the high bit are a varint, when they are nine at most. -/
theorem decodeFrom_findIdx {pos len : Nat} (hlen : pos + len < 9)
    (h : data.findIdx? (fun b => b &&& 0x80 = 0) = some len) :
    ∃ v, decodeFrom pos data = some (v, data.drop (len + 1)) := by
  induction data generalizing pos len with
  | nil => cases h
  | cons b data ih =>
    rw [List.findIdx?_cons] at h
    rw [decodeFrom, if_neg (by omega)]
    by_cases hb : b &&& 0x80 = 0
    · rw [decide_eq_true hb] at h
      cases h
      rw [if_pos ((and_high_eq_zero b).mp hb)]
      exact ⟨b.toNat, rfl⟩
    · rw [decide_eq_false hb] at h
      obtain ⟨len, hlen', rfl⟩ := Option.map_eq_some_iff.mp h
      obtain ⟨v, hv⟩ := @ih (pos + 1) _ (by omega) hlen'
      rw [if_neg fun hlt => hb ((and_high_eq_zero b).mpr hlt), hv]
      exact ⟨_, rfl⟩

/-- What the parser does with a varint field. -/
theorem infoField_varint (h : decode data = some (v, rest)) (f : Nat) (s : WireInfo) :
    ∃ s', infoField ph s f wireVarint data = .ok (s', rest) ∧
      s'.userSid = if f = 5 then some (asInt32 v) else s.userSid := by
  have hread (set : Nat → WireInfo) :
      take (ph.readVarint data) (fun v => .ok (set v)) = .ok (set v, rest) :=
    take_eq_ok.mpr ⟨v, ph.readVarint_ok.mpr h, rfl⟩
  have hread64 (set : Int64 → WireInfo) :
      take (ph.readVarintI64 data) (fun x => .ok (set x)) = .ok (set (asInt64 v), rest) :=
    take_eq_ok.mpr ⟨asInt64 v, ph.readVarintI64_ok.mpr ⟨v, h, rfl⟩, rfl⟩
  have hskip : skip ph.reader s wireVarint data = .ok (s, rest) :=
    map_eq_ok.mpr ⟨rest, ph.skipField_varint h, rfl⟩
  match f with
  | 1 => exact ⟨_, hread fun v => { s with version := some (asInt32 v) }, rfl⟩
  | 2 => exact ⟨_, hread64 fun x => { s with timestamp := some x }, rfl⟩
  | 3 => exact ⟨_, hread64 fun x => { s with changeset := some x }, rfl⟩
  | 4 => exact ⟨_, hread fun v => { s with uid := some (asInt32 v) }, rfl⟩
  | 5 => exact ⟨_, hread fun v => { s with userSid := some (asInt32 v) }, rfl⟩
  | 6 => exact ⟨_, hread fun v => { s with visible := some (asBool v) }, rfl⟩
  | 0 => exact ⟨s, hskip, rfl⟩
  | f + 7 => exact ⟨s, hskip, (if_neg (by omega)).symm⟩

/-- The loop and the parser side by side, from any field of the message on. -/
theorem userSidFrom_eq {fuel : Nat} {cur : Bytes} (hfuel : cur.length < fuel)
    (hwalk : walk ph.reader (infoField ph) {} data = walk ph.reader (infoField ph) s cur) :
    userSidFrom ph data fuel s.userSid cur = parsedUser ph data := by
  induction fuel generalizing s cur with
  | zero => omega
  | succ fuel ih =>
    cases cur with
    | nil =>
      rw [parsedUser, WireInfo.parse, hwalk]
      rfl
    | cons tag rest =>
      rw [userSidFrom]
      split
      · rfl
      · next htag =>
        obtain ⟨f, hpos, hsmall, hvalue, hfive⟩ := short_tag htag
        split
        · rfl
        · next len hend =>
          split
          · rfl
          · next hlen =>
            obtain ⟨v, hv⟩ := @decodeFrom_findIdx _ 0 _ (by omega) hend
            have hone : tag.toNat < 128 := by
              rw [hvalue]
              unfold wireVarint
              omega
            have hread : decode (tag :: rest) = some (8 * f + wireVarint, rest) := by
              rw [decode, decodeFrom, if_neg (by decide), if_pos hone, hvalue]
            have htagged : ph.reader.readTag (tag :: rest) = .ok (some (f, wireVarint, rest)) :=
              ph.readTag_of_decode hpos (by omega) (by decide) hread
            obtain ⟨s', hs', huser⟩ := @infoField_varint ph _ _ _ hv f s
            -- The parser's turn over the same field.
            have hturn := walk_cons local_infoField.steps.shrinks htagged hs'
            have hrest : (rest.drop (len + 1)).length < fuel := by
              rw [List.length_drop]
              rw [List.length_cons] at hfuel
              omega
            have hgo := ih hrest (hwalk.trans hturn)
            rw [huser] at hgo
            split
            · next htag5 =>
              obtain ⟨raw, -, hsplit, hlocal⟩ := decode_split hv
              have htake : rest.take (len + 1) = raw := by
                have := List.take_append_drop (len + 1) rest
                exact List.append_cancel_right (this.trans hsplit)
              have hvalue := hlocal []
              rw [List.append_nil, ← htake] at hvalue
              rw [ph.readVarint_ok.mpr hvalue, ok_bind]
              rwa [if_pos (hfive.mp htag5)] at hgo
            · next htag5 =>
              rwa [if_neg fun hf => htag5 (hfive.mpr hf)] at hgo

/-- The byte walk answers what the parser answers, on every byte string, errors included. -/
theorem userSidOf_eq_parse (data : Bytes) :
    userSidOf ph data = (WireInfo.parse ph data).map WireInfo.userSid :=
  userSidFrom_eq (s := {}) (Nat.lt_succ_self _) rfl

end UserSid
