import Mathlib.Data.List.TakeWhile
import Mathlib.Tactic.IntervalCases
import Pbfhogg.Wire.Protohoggr

/-!
# Counting packed varints

`packed_varint_count` counts the values of a packed array eight bytes at a time, and falls back to
single bytes when a run of nine continuation bytes occurs. It accepts exactly the arrays that
reading varint after varint consumes; `packed_uint32_count` also refuses a value past `u32::MAX`.
-/

namespace PackedCount

open Protohoggr Varint List

variable {data : Bytes} {pos count n : Nat} {b : UInt8}

/-- The high bit: another byte follows. -/
def continues (b : UInt8) : Bool := decide (128 ≤ b.toNat)

structure Scan where
  count : Nat := 0
  /-- Continuation bytes at the end of everything scanned so far. -/
  run : Nat := 0
  longRun : Bool := false

variable (s : Scan)

/-- One word of eight bytes. The terminal bytes of the word are the bytes without the high bit;
`lead` and the new run are the trailing and leading zeros of their mask, in bytes. -/
def scanWord (word : Bytes) : Scan :=
  let lead := (word.takeWhile continues).length
  { count := s.count + word.countP (fun b => !continues b)
    run :=
      if word.all continues then min (s.run + 8) 9 else (word.reverse.takeWhile continues).length
    longRun := s.longRun || decide (9 ≤ s.run + lead) }

def scanByte (b : UInt8) : Scan :=
  if continues b then
    { s with run := s.run + 1, longRun := s.longRun || decide (9 ≤ s.run + 1) }
  else { s with count := s.count + 1, run := 0 }

/-- The words, then the bytes of the tail. -/
def scanWords : Scan → Bytes → Scan
  | s, a :: b :: c :: d :: e :: f :: g :: h :: rest =>
    scanWords (scanWord s [a, b, c, d, e, f, g, h]) rest
  | s, tail => tail.foldl scanByte s

def midVarintErr : Error := newWireError "packed varint array ends mid-varint"

def overlongVarintErr : Error :=
  newWireError "packed varint array holds a varint wider than 64 bits"

/-- The loop of `packed_varint_count_exact`; `pos` is the index within the varint. -/
def exactFrom : Nat → Nat → Bytes → Except Error Nat
  | count, pos, [] => if pos ≠ 0 then .error midVarintErr else .ok count
  | count, pos, b :: rest =>
    if pos = 9 then
      if 1 < b.toNat then .error overlongVarintErr else exactFrom (count + 1) 0 rest
    else if continues b then exactFrom count (pos + 1) rest
    else exactFrom (count + 1) 0 rest

def packedVarintCountExact (data : Bytes) : Except Error Nat := exactFrom 0 0 data

def packedVarintCount (data : Bytes) : Except Error Nat :=
  let s := scanWords {} data
  if s.longRun then packedVarintCountExact data
  else if s.run ≠ 0 then .error midVarintErr
  else .ok s.count

/-- Byte `pos` of a varint carries value bits past bit 31. -/
def tooWide (pos : Nat) (b : UInt8) : Bool :=
  if pos ≤ 3 then false
  else if pos = 4 then decide (0x0f < b.toNat % 128)
  else decide (b.toNat % 128 ≠ 0)

def uint32From : Nat → Nat → Bytes → Except Error Nat
  | count, pos, [] => if pos ≠ 0 then .error midVarintErr else .ok count
  | count, pos, b :: rest =>
    if tooWide pos b then .error (newWireError "tag string index exceeds uint32")
    else if !continues b then uint32From (count + 1) 0 rest
    else if pos = 9 then .error overlongVarintErr
    else uint32From count (pos + 1) rest

def packedUint32Count (data : Bytes) : Except Error Nat := uint32From 0 0 data

/-- What is left of an array at byte `pos` of a varint, and how many values it holds. -/
def Pending (pos : Nat) (data : Bytes) (k : Nat) : Prop :=
  (pos = 0 ∧ data = [] ∧ k = 0) ∨
    ∃ v rest vs, decodeFrom pos data = some (v, rest) ∧ Values rest vs ∧ k = vs.length + 1

lemma pending_zero {k : Nat} : Pending 0 data k ↔ ∃ vs, Values data vs ∧ vs.length = k := by
  constructor
  · rintro (⟨-, rfl, rfl⟩ | ⟨v, rest, vs, hd, hvs, rfl⟩)
    · exact ⟨[], .nil, rfl⟩
    · exact ⟨v :: vs, .cons hd hvs, rfl⟩
  · rintro ⟨vs, hvs, rfl⟩
    cases hvs with
    | nil => exact .inl ⟨rfl, rfl, rfl⟩
    | cons hd hvs => exact .inr ⟨_, _, _, hd, hvs, rfl⟩

/-- A byte that ends a varint. -/
theorem pending_last {k : Nat} {v : Nat} (hd : decodeFrom pos (b :: data) = some (v, data)) :
    Pending pos (b :: data) k ↔ ∃ j, Pending 0 data j ∧ k = j + 1 := by
  constructor
  · rintro (⟨-, hnil, -⟩ | ⟨u, rest, vs, hu, hvs, rfl⟩)
    · cases hnil
    · rw [hd] at hu
      cases hu
      exact ⟨vs.length, pending_zero.mpr ⟨vs, hvs, rfl⟩, rfl⟩
  · rintro ⟨j, hj, rfl⟩
    obtain ⟨vs, hvs, rfl⟩ := pending_zero.mp hj
    exact .inr ⟨v, data, vs, hd, hvs, rfl⟩

/-- A byte before the last of a varint. -/
theorem pending_continue {k : Nat} (hpos : pos ≠ 9) (hb : 128 ≤ b.toNat) :
    Pending pos (b :: data) k ↔ Pending (pos + 1) data k := by
  have hd : decodeFrom pos (b :: data) =
      (decodeFrom (pos + 1) data).map fun p => (b.toNat - 128 + 128 * p.1, p.2) := by
    rw [decodeFrom, if_neg hpos, if_neg (by omega)]
  constructor
  · rintro (⟨-, hnil, -⟩ | ⟨v, rest, vs, hv, hvs, rfl⟩)
    · cases hnil
    · rw [hd, Option.map_eq_some_iff] at hv
      obtain ⟨⟨u, rest'⟩, hu, hv⟩ := hv
      cases hv
      exact .inr ⟨u, _, vs, hu, hvs, rfl⟩
  · rintro (⟨hpos0, -, -⟩ | ⟨v, rest, vs, hv, hvs, rfl⟩)
    · omega
    · refine .inr ⟨b.toNat - 128 + 128 * v, rest, vs, ?_, hvs, rfl⟩
      rw [hd, hv]
      rfl

lemma exactFrom_ok_iff (hpos : pos ≤ 9) :
    exactFrom count pos data = .ok n ↔ ∃ k, Pending pos data k ∧ n = count + k := by
  induction data generalizing count pos with
  | nil =>
    rw [exactFrom]
    by_cases h0 : pos = 0
    · subst h0
      simp [pending_zero, eq_comm]
    · simp [h0, Pending, decodeFrom]
  | cons b data ih =>
    -- The count after a byte that ends a varint.
    have hlast : ∀ v, decodeFrom pos (b :: data) = some (v, data) →
        (exactFrom (count + 1) 0 data = .ok n ↔
          ∃ k, Pending pos (b :: data) k ∧ n = count + k) := by
      intro v hd
      rw [ih (Nat.zero_le 9)]
      simp only [pending_last hd]
      constructor
      · rintro ⟨k, hk, rfl⟩
        exact ⟨k + 1, ⟨k, hk, rfl⟩, by omega⟩
      · rintro ⟨_, ⟨j, hj, rfl⟩, rfl⟩
        exact ⟨j, hj, by omega⟩
    rw [exactFrom]
    by_cases h9 : pos = 9
    · subst h9
      rw [if_pos rfl]
      by_cases hb : 1 < b.toNat
      · rw [if_pos hb]
        have hd : decodeFrom 9 (b :: data) = none := by
          rw [decodeFrom, if_pos rfl, if_neg (by omega)]
        simp [Pending, hd]
      · rw [if_neg hb]
        refine hlast b.toNat ?_
        rw [decodeFrom, if_pos rfl, if_pos (by omega)]
    · rw [if_neg h9]
      by_cases hb : 128 ≤ b.toNat
      · have hc : continues b = true := by simp [continues, hb]
        simp only [hc, if_true]
        rw [ih (by omega)]
        simp only [pending_continue h9 hb]
      · have hc : continues b = false := by simp [continues]; omega
        simp only [hc, Bool.false_eq_true, if_false]
        refine hlast b.toNat ?_
        rw [decodeFrom, if_neg h9, if_pos (by omega)]

lemma packedVarintCountExact_ok_iff :
    packedVarintCountExact data = .ok n ↔ ∃ vs, Values data vs ∧ vs.length = n := by
  rw [packedVarintCountExact, exactFrom_ok_iff (Nat.zero_le 9), ← pending_zero]
  simp

/-- The continuation bytes a word starts with. -/
def lead (word : Bytes) : Nat := (word.takeWhile continues).length

lemma lead_le_length (word : Bytes) : lead word ≤ word.length :=
  ( takeWhile_prefix _).length_le

lemma scanBytes_count (word : Bytes) :
    (word.foldl scanByte s).count = s.count + word.countP fun b => !continues b := by
  induction word generalizing s with
  | nil => rfl
  | cons b word ih =>
    rw [foldl_cons, ih, countP_cons]
    cases hb : continues b <;> simp [scanByte, hb]
    omega

lemma scanBytes_run (word : Bytes) :
    (word.foldl scanByte s).run =
      if word.all continues then s.run + word.length
      else (word.reverse.takeWhile continues).length := by
  induction word generalizing s with
  | nil => simp
  | cons b word ih =>
    rw [foldl_cons, ih, reverse_cons, takeWhile_append]
    by_cases hall : word.all continues = true
    · have hrev : word.reverse.takeWhile continues = word.reverse := by
        rw [takeWhile_eq_self_iff]
        intro x hx
        exact all_eq_true.mp hall x (mem_reverse.mp hx)
      cases hb : continues b
      · simp [scanByte, hb, hall, hrev]
      · simp [scanByte, hb, hall]
        omega
    · have hstop : ¬(word.reverse.takeWhile continues).length = word.reverse.length := by
        intro hlen
        apply hall
        rw [all_eq_true]
        intro x hx
        have hself : word.reverse.takeWhile continues = word.reverse :=
          ( takeWhile_prefix _).eq_of_length hlen
        exact takeWhile_eq_self_iff.mp hself x (mem_reverse.mpr hx)
      rw [if_neg hstop, if_neg hall, if_neg (by simp [hall])]

/-- A word is too short to hold a run of nine of its own. -/
theorem scanBytes_longRun {word : Bytes} (hlen : word.length ≤ 8) :
    (word.foldl scanByte s).longRun =
      (s.longRun || decide (0 < lead word ∧ 9 ≤ s.run + lead word)) := by
  induction word generalizing s with
  | nil => simp [lead]
  | cons b word ih =>
    rw [length_cons] at hlen
    have hle := lead_le_length word
    rw [foldl_cons, ih _ (by omega)]
    cases hb : continues b
    · have hlead : lead (b :: word) = 0 := by simp [lead, hb]
      simp [scanByte, hb, hlead]
      omega
    · have hlead : lead (b :: word) = lead word + 1 := by simp [lead, hb]
      simp only [scanByte, hb, if_true, hlead, Bool.or_assoc]
      congr 1
      rw [← Bool.decide_or, decide_eq_decide]
      omega

/-- The scan by words and the scan by bytes side by side. Once a long run is seen the words no
longer say how long it is. -/
structure Beside (w b : Scan) : Prop where
  count : w.count = b.count
  run : b.longRun = false → w.run = b.run
  longRun : w.longRun = b.longRun
  known : 9 ≤ b.run → b.longRun = true

lemma Beside.byte {w b : Scan} (h : Beside w b) (x : UInt8) :
    Beside (scanByte w x) (scanByte b x) := by
  have hcount := h.count
  have hlong := h.longRun
  cases hx : continues x
  · refine ⟨?_, ?_, ?_, ?_⟩ <;> simp [scanByte, hx, hcount, hlong]
  · cases hknown : b.longRun
    · have hrun := h.run hknown
      refine ⟨?_, ?_, ?_, ?_⟩ <;> simp [scanByte, hx, hcount, hlong, hknown, hrun]
    · refine ⟨?_, ?_, ?_, ?_⟩ <;> simp [scanByte, hx, hcount, hlong, hknown]

lemma Beside.bytes {w b : Scan} (h : Beside w b) (data : Bytes) :
    Beside (data.foldl scanByte w) (data.foldl scanByte b) := by
  induction data generalizing w b with
  | nil => exact h
  | cons x data ih => exact ih (h.byte x)

lemma Beside.word {w b : Scan} (h : Beside w b) {word : Bytes} (hlen : word.length = 8) :
    Beside (scanWord w word) (word.foldl scanByte b) := by
  have hcount := scanBytes_count b word
  have hrun := scanBytes_run b word
  have hlong := scanBytes_longRun b (Nat.le_of_eq hlen)
  have hshort : (word.reverse.takeWhile continues).length ≤ 8 := by
    have hle := ( takeWhile_prefix (l := word.reverse) continues).length_le
    rwa [length_reverse, hlen] at hle
  have hall : word.all continues = true → lead word = 8 := by
    intro hall
    rw [lead, takeWhile_eq_self_iff.mpr fun x hx => all_eq_true.mp hall x hx, hlen]
  have hsmall : b.longRun = false → b.run < 9 := by
    intro hno
    apply Nat.lt_of_not_le
    intro hnine
    rw [h.known hnine] at hno
    cases hno
  refine ⟨?_, ?_, ?_, ?_⟩
  · rw [hcount, ← h.count]
    rfl
  · intro hno
    rw [hlong, Bool.or_eq_false_iff, decide_eq_false_iff_not] at hno
    rw [hrun]
    simp only [scanWord, h.run hno.1]
    split
    · next height =>
      have := hall height
      omega
    · rfl
  · rw [hlong]
    cases hno : b.longRun
    · have := hsmall hno
      have hlead : (word.takeWhile continues).length = lead word := rfl
      simp only [scanWord, h.longRun, h.run hno, hno, Bool.false_or, hlead]
      rw [decide_eq_decide]
      omega
    · simp [scanWord, h.longRun, hno]
  · rw [hrun, hlong]
    split
    · next height =>
      intro _
      have := hall height
      simp
      omega
    · intro hnine
      omega

lemma Beside.words {w b : Scan} (h : Beside w b) (data : Bytes) :
    Beside (scanWords w data) (data.foldl scanByte b) := by
  induction w, data using scanWords.induct generalizing b with
  | case1 w b₀ b₁ b₂ b₃ b₄ b₅ b₆ b₇ rest ih =>
    rw [scanWords]
    exact ih (@h.word _ _ [b₀, b₁, b₂, b₃, b₄, b₅, b₆, b₇] rfl)
  | case2 w tail htail =>
    rw [scanWords]
    · exact h.bytes tail
    · exact htail

lemma exactFrom_of_scanBytes {s : Scan} (hs : s.run < 9)
    (hlong : (data.foldl scanByte s).longRun = false) :
    exactFrom s.count s.run data =
      if (data.foldl scanByte s).run ≠ 0 then .error midVarintErr
      else .ok (data.foldl scanByte s).count := by
  induction data generalizing s with
  | nil => rfl
  | cons b data ih =>
    rw [foldl_cons] at hlong ⊢
    have hstays : ∀ t : Scan, t.longRun = true → (data.foldl scanByte t).longRun = true := by
      clear ih hlong
      induction data with
      | nil => exact fun t ht => ht
      | cons c data ih =>
        intro t ht
        refine ih _ ?_
        cases hc : continues c <;> simp [scanByte, hc, ht]
    rw [exactFrom, if_neg (by omega)]
    cases hb : continues b
    · rw [if_neg (by simp)]
      have hstep : scanByte s b = { s with count := s.count + 1, run := 0 } := by
        simp [scanByte, hb]
      rw [hstep] at hlong ⊢
      exact ih (by simp) hlong
    · rw [if_pos rfl]
      have hrun : (scanByte s b).run = s.run + 1 := by simp [scanByte, hb]
      have hcount : (scanByte s b).count = s.count := by simp [scanByte, hb]
      have hfits : (scanByte s b).run < 9 := by
        apply Nat.lt_of_not_le
        intro hnine
        rw [hstays _ (by simp [scanByte, hb]; omega)] at hlong
        cases hlong
      rw [← ih hfits hlong, hrun, hcount]

lemma packedVarintCount_eq (data : Bytes) :
    packedVarintCount data = packedVarintCountExact data := by
  have h : Beside (scanWords {} data) (data.foldl scanByte {}) :=
    Beside.words ⟨rfl, fun _ => rfl, rfl, by simp⟩ data
  simp only [packedVarintCount]
  cases hlong : (scanWords {} data).longRun
  · rw [if_neg (by simp)]
    have hno : (data.foldl scanByte {}).longRun = false := by rw [← h.longRun, hlong]
    rw [h.run hno, h.count, packedVarintCountExact]
    exact (exactFrom_of_scanBytes (by simp) hno).symm
  · rw [if_pos rfl]

/-- The count is of the values that reading varint after varint finds. -/
theorem packedVarintCount_ok_iff :
    packedVarintCount data = .ok n ↔ ∃ vs, Values data vs ∧ vs.length = n := by
  rw [packedVarintCount_eq, packedVarintCountExact_ok_iff]

/-- The bytes of a word from the lowest up, as `from_le_bytes` puts them. -/
def leWord (a b c d e f g h : BitVec 8) : BitVec 64 := h ++ g ++ f ++ e ++ d ++ c ++ b ++ a

/-- One word as the loop sees it: bit 7 of a byte of `terminals` is set when the byte ends a
varint. -/
def scanMask (s : Scan) (word : BitVec 64) : Scan :=
  let terminals := ~~~word &&& 0x8080808080808080#64
  let lead := terminals.ctz.toNat / 8
  { count := s.count + terminals.cpop.toNat
    run := if terminals = 0#64 then min (s.run + 8) 9 else terminals.clz.toNat / 8
    longRun := s.longRun || decide (9 ≤ s.run + lead) }

/-- One byte of the mask. -/
def terminal (continues : Bool) : BitVec 8 := if continues then 0#8 else 0x80#8

lemma terminal_continues (b : UInt8) : ~~~b.toBitVec &&& 0x80#8 = terminal (continues b) := by
  have h : ∀ v : BitVec 8, ~~~v &&& 0x80#8 = terminal (decide (128 ≤ v.toNat)) := by decide
  exact h b.toBitVec

lemma not_and_leWord (a b c d e f g h x : BitVec 8) :
    ~~~leWord a b c d e f g h &&& leWord x x x x x x x x =
      leWord (~~~a &&& x) (~~~b &&& x) (~~~c &&& x) (~~~d &&& x) (~~~e &&& x) (~~~f &&& x)
        (~~~g &&& x) (~~~h &&& x) := by
  change ~~~(_ : BitVec (8 + 8 + 8 + 8 + 8 + 8 + 8 + 8)) &&& _ = _
  simp only [leWord]
  rw [BitVec.not_append, BitVec.and_append]
  simp only [BitVec.not_append, BitVec.and_append]

/-- What the three bit counts of a mask say of its bytes. -/
theorem mask_counts (a b c d e f g h : Bool) :
    let mask := leWord (terminal a) (terminal b) (terminal c) (terminal d) (terminal e)
      (terminal f) (terminal g) (terminal h)
    let word := [a, b, c, d, e, f, g, h]
    mask.cpop.toNat = word.countP (!·) ∧ mask.ctz.toNat / 8 = (word.takeWhile id).length ∧
      (mask = 0#64 ↔ word.all id) ∧
      (¬word.all id → mask.clz.toNat / 8 = (word.reverse.takeWhile id).length) := by
  revert a b c d e f g h
  decide +kernel

lemma scanMask_eq (s : Scan) (a b c d e f g h : UInt8) :
    scanMask s (leWord a.toBitVec b.toBitVec c.toBitVec d.toBitVec e.toBitVec f.toBitVec
      g.toBitVec h.toBitVec) = scanWord s [a, b, c, d, e, f, g, h] := by
  obtain ⟨hpop, hctz, hzero, hclz⟩ := mask_counts (continues a) (continues b) (continues c)
    (continues d) (continues e) (continues f) (continues g) (continues h)
  have hword : [continues a, continues b, continues c, continues d, continues e, continues f,
      continues g, continues h] = [a, b, c, d, e, f, g, h].map continues := rfl
  have hhigh : 0x8080808080808080#64 = leWord 0x80#8 0x80#8 0x80#8 0x80#8 0x80#8 0x80#8 0x80#8
    0x80#8 := by decide
  simp only [hword, countP_map, takeWhile_map, length_map, all_map, ← map_reverse,
    Function.comp_def, id_eq] at hpop hctz hzero hclz
  simp only [scanMask, scanWord, hhigh, not_and_leWord, terminal_continues, hpop, hctz, hzero]
  split
  · rfl
  · next hall => rw [hclz hall]

lemma tooWide_eq_false (hpos : pos ≤ 9) :
    tooWide pos b = false ↔ b.toNat % 128 < 2 ^ (32 - 7 * pos) := by
  unfold tooWide
  interval_cases pos <;> simp <;> omega

lemma pow_width (hpos : pos ≤ 3) : 2 ^ (32 - 7 * pos) = 128 * 2 ^ (32 - 7 * (pos + 1)) := by
  interval_cases pos <;> rfl

/-- One byte of an array the width check accepts. -/
theorem uint32From_byte (hpos : pos ≤ 9) :
    uint32From count pos (b :: data) = .ok n ↔ b.toNat % 128 < 2 ^ (32 - 7 * pos) ∧
      if b.toNat < 128 then uint32From (count + 1) 0 data = .ok n
      else pos ≠ 9 ∧ uint32From count (pos + 1) data = .ok n := by
  rw [uint32From, ← tooWide_eq_false hpos]
  cases tooWide pos b with
  | true => simp
  | false =>
    by_cases hb : b.toNat < 128
    · simp [continues, hb]
    · have hc : continues b = true := by simp [continues]; omega
      by_cases hnine : pos = 9 <;> simp [hc, hb, hnine]

lemma uint32From_last (hpos : pos ≤ 9) (hb : b.toNat < 128) :
    uint32From count pos (b :: data) = .ok n ↔
      ∃ v rest, decodeFrom pos (b :: data) = some (v, rest) ∧ v < 2 ^ (32 - 7 * pos) ∧
        uint32From (count + 1) 0 rest = .ok n := by
  rw [uint32From_byte hpos, if_pos hb, Nat.mod_eq_of_lt hb, decodeFrom]
  by_cases hnine : pos = 9
  · by_cases hone : b.toNat ≤ 1
    · simp [hnine, hone]
    · simp [hnine, hone]
      omega
  · simp [hnine, hb]

/-- One value of an array the width check accepts. -/
theorem uint32From_value (hpos : pos ≤ 9) :
    uint32From count pos (b :: data) = .ok n ↔
      ∃ v rest, decodeFrom pos (b :: data) = some (v, rest) ∧ v < 2 ^ (32 - 7 * pos) ∧
        uint32From (count + 1) 0 rest = .ok n := by
  induction data generalizing pos b with
  | nil =>
    by_cases hb : b.toNat < 128
    · exact uint32From_last hpos hb
    · rw [uint32From_byte hpos, if_neg hb]
      simp [uint32From, decodeFrom, hb]
      omega
  | cons c data ih =>
    by_cases hb : b.toNat < 128
    · exact uint32From_last hpos hb
    by_cases hnine : pos = 9
    · rw [uint32From_byte hpos, if_neg hb]
      simp [decodeFrom, hnine]
      omega
    have hbyte := b.toNat_lt
    have hwidth (u : Nat) : b.toNat - 128 + 128 * u < 2 ^ (32 - 7 * pos) ↔
        b.toNat % 128 < 2 ^ (32 - 7 * pos) ∧ u < 2 ^ (32 - 7 * (pos + 1)) := by
      by_cases hthree : pos ≤ 3
      · have := pow_width hthree
        omega
      · have hone : 2 ^ (32 - 7 * (pos + 1)) = 1 := by
          rw [show 32 - 7 * (pos + 1) = 0 by omega, Nat.pow_zero]
        have hfour : 2 ^ (32 - 7 * pos) ≤ 2 ^ 4 := Nat.pow_le_pow_right (by omega) (by omega)
        omega
    have hstep : decodeFrom pos (b :: c :: data) =
        (decodeFrom (pos + 1) (c :: data)).map fun p => (b.toNat - 128 + 128 * p.1, p.2) := by
      rw [decodeFrom, if_neg hnine, if_neg hb]
    rw [uint32From_byte hpos, if_neg hb, ih (by omega), hstep]
    constructor
    · rintro ⟨hlt, -, v, rest, hd, hv, hgo⟩
      exact ⟨_, rest, by rw [hd, Option.map_some], (hwidth v).mpr ⟨hlt, hv⟩, hgo⟩
    · rintro ⟨v, rest, hd, hv, hgo⟩
      obtain ⟨⟨u, mid⟩, hu, hd⟩ := Option.map_eq_some_iff.mp hd
      cases hd
      obtain ⟨hlt, hv⟩ := (hwidth u).mp hv
      exact ⟨hlt, hnine, u, mid, hu, hv, hgo⟩

lemma uint32From_ok_iff : uint32From count 0 data = .ok n ↔
    ∃ vs, Values data vs ∧ n = count + vs.length ∧ ∀ v ∈ vs, v < 2 ^ 32 := by
  constructor
  · intro h
    induction hlen : data.length using Nat.strongRecOn generalizing count data with
    | _ len ih =>
      cases data with
      | nil =>
        simp only [uint32From, ne_eq, not_true_eq_false, if_false, Except.ok.injEq] at h
        exact ⟨[], .nil, h.symm, by simp⟩
      | cons b data =>
        obtain ⟨v, rest, hv, hlt, hgo⟩ := (uint32From_value (Nat.zero_le 9)).mp h
        have hshort := decode_length_lt hv
        obtain ⟨vs, hvs, hn, hsmall⟩ := ih rest.length (by omega) hgo rfl
        refine ⟨v :: vs, .cons hv hvs, ?_, ?_⟩
        · rw [length_cons]
          omega
        · rw [forall_mem_cons]
          exact ⟨hlt, hsmall⟩
  · rintro ⟨vs, hvs, rfl, hsmall⟩
    induction hvs generalizing count with
    | nil => rfl
    | @cons data rest v vs hd hvs ih =>
      obtain ⟨hv, hsmall⟩ := forall_mem_cons.mp hsmall
      cases data with
      | nil => cases hd
      | cons b data =>
        refine (uint32From_value (Nat.zero_le 9)).mpr ⟨v, rest, hd, hv, ?_⟩
        rw [ih hsmall, length_cons, Nat.add_right_comm, Nat.add_assoc]

lemma packedUint32Count_ok_iff : packedUint32Count data = .ok n ↔
    ∃ vs, Values data vs ∧ vs.length = n ∧ ∀ v ∈ vs, v < 2 ^ 32 := by
  simp only [packedUint32Count, uint32From_ok_iff, Nat.zero_add, @eq_comm _ n]

lemma packedUint32Count_ok (h : packedUint32Count data = .ok n) :
    ∃ vs, Values data vs ∧ vs.length = n ∧ ∀ v ∈ vs, v < 2 ^ 32 :=
  packedUint32Count_ok_iff.mp h

variable (ph : Crate)

/-- Applying `read_varint` again and again: the values read, and what is left. -/
inductive Reads : Bytes → List Nat → Bytes → Prop
  | nil {data : Bytes} : Reads data [] data
  | cons {data mid rest : Bytes} {v : Nat} {vs : List Nat} :
      ph.readVarint data = .ok (v, mid) → Reads mid vs rest → Reads data (v :: vs) rest

variable {ph}

lemma reads_iff_values {vs : List Nat} : Reads ph data vs [] ↔ Values data vs := by
  constructor
  · intro h
    generalize hend : ([] : Bytes) = rest at h
    induction h with
    | nil =>
      subst hend
      exact .nil
    | cons hread _ ih => exact .cons (ph.readVarint_ok.mp hread) (ih hend)
  · intro h
    induction h with
    | nil => exact .nil
    | cons hd _ ih => exact .cons (ph.readVarint_ok.mpr hd) ih

/-- Some read fails exactly when the array does not read to its end. -/
theorem read_fails_iff :
    (∃ vs rest e, Reads ph data vs rest ∧ rest ≠ [] ∧ ph.readVarint rest = .error e) ↔
      ¬∃ vs, Values data vs := by
  constructor
  · rintro ⟨vs, rest, e, hreads, hrest, hfail⟩ ⟨ws, hws⟩
    induction hreads generalizing ws with
    | nil =>
      cases hws with
      | nil => exact hrest rfl
      | cons hd _ =>
        rw [ph.readVarint_ok.mpr hd] at hfail
        cases hfail
    | cons hread _ ih =>
      have hd := ph.readVarint_ok.mp hread
      cases hws with
      | nil => cases hd
      | cons hd' hws =>
        rw [hd] at hd'
        cases hd'
        exact ih hrest hfail _ hws
  · intro hno
    induction hlen : data.length using Nat.strongRecOn generalizing data with
    | _ len ih =>
      have hne : data ≠ [] := by
        rintro rfl
        exact hno ⟨[], .nil⟩
      cases hread : ph.readVarint data with
      | error e => exact ⟨[], data, e, .nil, hne, hread⟩
      | ok p =>
        have hd := ph.readVarint_ok.mp hread
        have hmid : ¬∃ vs, Values p.2 vs := fun ⟨vs, hvs⟩ => hno ⟨p.1 :: vs, .cons hd hvs⟩
        obtain ⟨vs, rest, e, hreads, hrest⟩ := ih _ (hlen ▸ decode_length_lt hd) hmid rfl
        exact ⟨p.1 :: vs, rest, e, .cons hread hreads, hrest⟩

/-- The two counts are those of reading varint after varint to the end, and the masks of the
fast path count what the bytes say. -/
theorem counts_of_reads (ph : Crate) (data : Bytes) (n : Nat) :
    (packedVarintCount data = .ok n ↔ ∃ vs, Reads ph data vs [] ∧ vs.length = n) ∧
      ((∃ e, packedVarintCount data = .error e) ↔
        ∃ vs rest e, Reads ph data vs rest ∧ rest ≠ [] ∧ ph.readVarint rest = .error e) ∧
      (packedUint32Count data = .ok n ↔
        ∃ vs, Reads ph data vs [] ∧ vs.length = n ∧ ∀ v ∈ vs, v ≤ 2 ^ 32 - 1) ∧
      ∀ s a b c d e f g h, scanMask s (leWord a.toBitVec b.toBitVec c.toBitVec d.toBitVec e.toBitVec
        f.toBitVec g.toBitVec h.toBitVec) = scanWord s [a, b, c, d, e, f, g, h] := by
  simp only [reads_iff_values]
  refine ⟨packedVarintCount_ok_iff, ?_, ?_, scanMask_eq⟩
  · rw [read_fails_iff]
    constructor
    · rintro ⟨e, he⟩ ⟨vs, hvs⟩
      rw [packedVarintCount_ok_iff.mpr ⟨vs, hvs, rfl⟩] at he
      cases he
    · intro hno
      cases hcount : packedVarintCount data with
      | error e => exact ⟨e, rfl⟩
      | ok k =>
        obtain ⟨vs, hvs, -⟩ := packedVarintCount_ok_iff.mp hcount
        exact absurd ⟨vs, hvs⟩ hno
  · have hle (v : Nat) : v < 2 ^ 32 ↔ v ≤ 2 ^ 32 - 1 := Nat.lt_iff_le_pred (by decide)
    simp only [packedUint32Count_ok_iff, hle]

end PackedCount
