import Mathlib.Tactic.Ring

/-!
# Little-endian fixed-width integers in a byte list

A field of `w` bytes is written as its base-256 digits, lowest first, and read back from an offset.
A field written behind any prefix and before any suffix is read back at the prefix's length
(`readLe_append`).
-/

/-- A string of bytes. -/
abbrev Bytes := List UInt8

namespace LeBytes

open List

variable {data bytes : Bytes} {offset : Nat}

def leBytes : Nat → Nat → Bytes
  | 0, _ => []
  | w + 1, n => UInt8.ofNat (n % 256) :: leBytes w (n / 256)

def leNat : Bytes → Nat
  | [] => 0
  | b :: rest => b.toNat + 256 * leNat rest

variable (w : Nat)

/-- The field of `w` bytes at `offset`. -/
def readLe (data : Bytes) (offset : Nat) : Nat :=
  leNat ((data.drop offset).take w)

@[simp] lemma length_leBytes (w n : Nat) : (leBytes w n).length = w := by
  induction w generalizing n with
  | zero => rfl
  | succ w ih => simp [leBytes, ih]

lemma leNat_leBytes (w n : Nat) : leNat (leBytes w n) = n % 256 ^ w := by
  induction w generalizing n with
  | zero => simp [leBytes, leNat, Nat.mod_one]
  | succ w ih =>
    have hb : n % 256 < 256 := Nat.mod_lt _ (by decide)
    rw [leBytes, leNat, ih, UInt8.toNat_ofNat', Nat.mod_eq_of_lt hb, pow_succ,
      Nat.mul_comm (256 ^ w), Nat.mod_mul]

/-- A field is the digits of the number it reads as. -/
theorem leBytes_leNat (data : Bytes) : leBytes data.length (leNat data) = data := by
  induction data with
  | nil => rfl
  | cons b rest ih =>
    have hb := b.toNat_lt
    have hlow : (b.toNat + 256 * leNat rest) % 256 = b.toNat := by omega
    have hhigh : (b.toNat + 256 * leNat rest) / 256 = leNat rest := by omega
    rw [length_cons, leBytes, leNat, hlow, hhigh, ih, UInt8.ofNat_toNat]

lemma leNat_lt (data : Bytes) : leNat data < 256 ^ data.length := by
  induction data with
  | nil => simp [leNat]
  | cons b rest ih =>
    have hb := b.toNat_lt
    rw [leNat, length_cons, pow_succ]
    omega

lemma leBytes_leNat_take {w : Nat} (h : w ≤ data.length) :
    leBytes w (leNat (data.take w)) = data.take w := by
  have hlen : (data.take w).length = w := by
    rw [length_take]
    omega
  have hdigits := leBytes_leNat (data.take w)
  rw [hlen] at hdigits
  exact hdigits

lemma leNat_take_lt (h : w ≤ data.length) : leNat (data.take w) < 256 ^ w := by
  have hlt := leNat_lt (data.take w)
  rw [length_take, Nat.min_eq_left h] at hlt
  exact hlt

lemma readLe_append (w n : Nat) (hn : n < 256 ^ w) (pre post : Bytes) :
    readLe w (pre ++ (leBytes w n ++ post)) pre.length = n := by
  rw [readLe, drop_left, take_left' (length_leBytes w n), leNat_leBytes, Nat.mod_eq_of_lt hn]

/-- Reading inside a list does not see what stands behind it. -/
theorem readLe_inside (h : offset + w ≤ data.length) (post : Bytes) :
    readLe w (data ++ post) offset = readLe w data offset := by
  have hoff : offset ≤ data.length := by omega
  rw [readLe, readLe, drop_append_of_le_length hoff, take_append_of_le_length]
  rw [length_drop]
  omega

/-- The field of `w` bytes at `offset`, if the list reaches that far. -/
def leAt (data : Bytes) (offset : Nat) : Option Nat :=
  if offset + w ≤ data.length then some (readLe w data offset) else none

lemma leAt_eq {w : Nat} (h : offset + w ≤ data.length) :
    leAt w data offset = some (readLe w data offset) := if_pos h

lemma leAt_inside (h : offset + w ≤ data.length) (post : Bytes) :
    leAt w (data ++ post) offset = leAt w data offset := by
  have hlen : offset + w ≤ (data ++ post).length := by
    rw [length_append]
    omega
  rw [leAt_eq h, leAt_eq hlen, readLe_inside w h]

lemma leAt_append (w n : Nat) (hn : n < 256 ^ w) (pre post : Bytes) (offset : Nat)
    (h : offset = pre.length) : leAt w (pre ++ (leBytes w n ++ post)) offset = some n := by
  subst h
  rw [leAt_eq, readLe_append w n hn]
  rw [length_append, length_append, length_leBytes]
  omega

variable (x : Int64)

def i64Le : Bytes := leBytes 8 x.toBitVec.toNat

def i32Le (x : Int32) : Bytes := leBytes 4 x.toBitVec.toNat

def u32Le (x : Nat) : Bytes := leBytes 4 x

def readI64Le (data : Bytes) (offset : Nat) : Int64 :=
  Int64.ofBitVec (BitVec.ofNat 64 (readLe 8 data offset))

def readI32Le (data : Bytes) (offset : Nat) : Int32 :=
  Int32.ofBitVec (BitVec.ofNat 32 (readLe 4 data offset))

def readU32Le (data : Bytes) (offset : Nat) : Nat := readLe 4 data offset

@[simp] lemma length_i64Le : (i64Le x).length = 8 := length_leBytes _ _

@[simp] lemma length_i32Le (x : Int32) : (i32Le x).length = 4 := length_leBytes _ _

@[simp] lemma length_u32Le (x : Nat) : (u32Le x).length = 4 := length_leBytes _ _

lemma readI64Le_append (pre post : Bytes) (offset : Nat)
    (h : offset = pre.length) : readI64Le (pre ++ (i64Le x ++ post)) offset = x := by
  subst h
  rw [readI64Le, i64Le, readLe_append 8 _ x.toBitVec.isLt]
  simp

lemma readI32Le_append (x : Int32) (pre post : Bytes) (offset : Nat)
    (h : offset = pre.length) : readI32Le (pre ++ (i32Le x ++ post)) offset = x := by
  subst h
  rw [readI32Le, i32Le, readLe_append 4 _ x.toBitVec.isLt]
  simp

lemma readU32Le_append (x : Nat) (hx : x < 2 ^ 32) (pre post : Bytes) (offset : Nat)
    (h : offset = pre.length) : readU32Le (pre ++ (u32Le x ++ post)) offset = x := by
  subst h
  exact readLe_append 4 x hx pre post

lemma i64Le_inj {x y : Int64} (h : i64Le x = i64Le y) : x = y := by
  have hx := readI64Le_append x [] [] 0 rfl
  have hy := readI64Le_append y [] [] 0 rfl
  rw [h] at hx
  exact hx.symm.trans hy

lemma i32Le_inj {x y : Int32} (h : i32Le x = i32Le y) : x = y := by
  have hx := readI32Le_append x [] [] 0 rfl
  have hy := readI32Le_append y [] [] 0 rfl
  rw [h] at hx
  exact hx.symm.trans hy

/-- The bytes stand at `offset`. -/
def At (data : Bytes) (offset : Nat) (bytes : Bytes) : Prop :=
  ∃ pre post, data = pre ++ (bytes ++ post) ∧ offset = pre.length

lemma At.left {xs ys : Bytes} (h : At data offset (xs ++ ys)) : At data offset xs := by
  obtain ⟨pre, post, rfl, rfl⟩ := h
  exact ⟨pre, ys ++ post, by simp, rfl⟩

lemma At.right {next : Nat} {xs ys : Bytes} (h : At data offset (xs ++ ys))
    (hnext : next = offset + xs.length) : At data next ys := by
  obtain ⟨pre, post, rfl, rfl⟩ := h
  exact ⟨pre ++ xs, post, by simp, by rw [hnext, length_append]⟩

lemma At.length_le (h : At data offset bytes) : offset + bytes.length ≤ data.length := by
  obtain ⟨pre, post, rfl, rfl⟩ := h
  simp only [length_append]
  omega

lemma At.append (h : At data offset bytes) (more : Bytes) :
    At (data ++ more) offset bytes := by
  obtain ⟨pre, post, rfl, rfl⟩ := h
  exact ⟨pre, post ++ more, by simp, rfl⟩

lemma At.drop (h : At data offset bytes) : At (data.drop offset) 0 bytes := by
  obtain ⟨pre, post, rfl, rfl⟩ := h
  exact ⟨[], post, by simp, rfl⟩

/-- `data[offset]`, which panics past the end. -/
def byteAt (data : Bytes) (offset : Nat) : Option UInt8 := data[offset]?

/-- `&data[offset..offset + len]`. -/
def rangeAt (data : Bytes) (offset len : Nat) : Option Bytes :=
  if offset + len ≤ data.length then some ((data.drop offset).take len) else none

def i64At (data : Bytes) (offset : Nat) : Option Int64 :=
  if offset + 8 ≤ data.length then some (readI64Le data offset) else none

def i32At (data : Bytes) (offset : Nat) : Option Int32 :=
  if offset + 4 ≤ data.length then some (readI32Le data offset) else none

def u32At (data : Bytes) (offset : Nat) : Option Nat :=
  if offset + 4 ≤ data.length then some (readU32Le data offset) else none

lemma At.byteAt {b : UInt8} (h : At data offset [b]) : byteAt data offset = some b := by
  obtain ⟨pre, post, rfl, rfl⟩ := h
  simp [LeBytes.byteAt]

lemma At.rangeAt (h : At data offset bytes) : rangeAt data offset bytes.length = some bytes := by
  rw [LeBytes.rangeAt, if_pos h.length_le]
  obtain ⟨pre, post, rfl, rfl⟩ := h
  rw [drop_left, take_left]

lemma At.i64At {x : Int64} (h : At data offset (i64Le x)) : i64At data offset = some x := by
  have hle := h.length_le
  rw [length_i64Le] at hle
  obtain ⟨pre, post, rfl, hoff⟩ := h
  rw [LeBytes.i64At, if_pos hle, readI64Le_append x pre post offset hoff]

lemma At.i32At {x : Int32} (h : At data offset (i32Le x)) : i32At data offset = some x := by
  have hle := h.length_le
  rw [length_i32Le] at hle
  obtain ⟨pre, post, rfl, hoff⟩ := h
  rw [LeBytes.i32At, if_pos hle, readI32Le_append x pre post offset hoff]

lemma At.u32At {x : Nat} (h : At data offset (u32Le x)) (hx : x < 2 ^ 32) :
    u32At data offset = some x := by
  have hle := h.length_le
  rw [length_u32Le] at hle
  obtain ⟨pre, post, rfl, hoff⟩ := h
  rw [LeBytes.u32At, if_pos hle, readU32Le_append x hx pre post offset hoff]

def i64Be : Bytes := (i64Le x).reverse

def ofI64Be (data : Bytes) : Int64 := readI64Le data.reverse 0

@[simp] lemma length_i64Be : (i64Be x).length = 8 := by
  rw [i64Be, length_reverse, length_i64Le]

lemma ofI64Be_i64Be : ofI64Be (i64Be x) = x := by
  have h := readI64Le_append x [] [] 0 rfl
  rw [nil_append, append_nil] at h
  rw [ofI64Be, i64Be, reverse_reverse, h]

lemma i64Be_inj {x y : Int64} (h : i64Be x = i64Be y) : x = y := by
  rw [← ofI64Be_i64Be x, h, ofI64Be_i64Be]

lemma u32Le_inj {x y : Nat} (hx : x < 2 ^ 32) (hy : y < 2 ^ 32) (h : u32Le x = u32Le y) :
    x = y := by
  have hrx := readU32Le_append x hx [] [] 0 rfl
  have hry := readU32Le_append y hy [] [] 0 rfl
  rw [h] at hrx
  exact hrx.symm.trans hry

end LeBytes
