import Pbfhogg.Lib.LeBytes
import Mathlib.Data.List.Basic
import Mathlib.Order.Lattice

/-!
# Streaming decoders and the buffers they fill

A decoder takes some of its input, fills some of the room for output and says whether the stream has
ended. However the room is cut up, the bytes that come out are those of the stream. A growable
buffer has a content and a capacity; an allocator may give more than it is asked for.
-/

namespace StreamDecoder

open List

structure Buf where
  content : Bytes := []
  capacity : Nat := 0
  fits : content.length ≤ capacity := by simp

/-- How much an allocation gives beyond what was asked of it. -/
abbrev Alloc := Buf → Nat → Nat

namespace Buf

variable (b : Buf)

def len : Nat := b.content.length

def spare : Nat := b.capacity - b.len

def clear : Buf := ⟨[], b.capacity, Nat.zero_le _⟩

def truncate (n : Nat) : Buf :=
  ⟨b.content.take n, b.capacity, Nat.le_trans (length_take_le' n _) b.fits⟩

variable (alloc : Alloc)

/-- Room for `additional` bytes more. -/
def reserveExact (b : Buf) (additional : Nat) : Buf :=
  if additional ≤ b.spare then b
  else ⟨b.content, b.len + additional + alloc b additional, by unfold len; omega⟩

variable (bytes : Bytes)

/-- Bytes written behind the content; the capacity grows only if they do not fit. -/
def write : Buf :=
  ⟨b.content ++ bytes, max b.capacity (b.content ++ bytes).length, le_max_right _ _⟩

def extendFromSlice (b : Buf) (bytes : Bytes) : Buf :=
  (b.reserveExact alloc bytes.length).write bytes

/-- Bytes written over the content from a position on. -/
def overwrite (start : Nat) (bytes : Bytes) : Buf :=
  let content := b.content.take start ++ (bytes ++ b.content.drop (start + bytes.length))
  ⟨content, max b.capacity content.length, le_max_right _ _⟩

/-- `resize` with zeros. -/
def resize (n : Nat) : Buf :=
  (b.truncate n).write (replicate (n - b.len) 0)

@[simp] lemma clear_content : b.clear.content = [] := rfl

@[simp] lemma truncate_content (n : Nat) : (b.truncate n).content = b.content.take n :=
  rfl

@[simp] lemma write_content :
    (b.write bytes).content = b.content ++ bytes := rfl

@[simp] lemma write_len :
    (b.write bytes).len = b.len + bytes.length := by
  simp [len]

@[simp] lemma reserveExact_content (b : Buf) (additional : Nat) :
    (b.reserveExact alloc additional).content = b.content := by
  unfold reserveExact
  split <;> rfl

lemma le_reserveExact (b : Buf) (additional : Nat) :
    b.len + additional ≤ (b.reserveExact alloc additional).capacity := by
  have hfits := b.fits
  unfold reserveExact spare len
  split
  · omega
  · exact Nat.le_add_right _ _

@[simp] lemma extendFromSlice_content (b : Buf) (bytes : Bytes) :
    (b.extendFromSlice alloc bytes).content = b.content ++ bytes := by
  simp [extendFromSlice]

/-- What is written over a part of the content is the end of what is in front of the position
behind it. -/
theorem overwrite_take {b : Buf} {start : Nat} {bytes : Bytes} (h : start ≤ b.len) :
    (b.overwrite start bytes).content.take (start + bytes.length) =
      b.content.take start ++ bytes := by
  have hlength : (b.content.take start).length = start := length_take_of_le h
  have hcontent : (b.overwrite start bytes).content =
      (b.content.take start ++ bytes) ++ b.content.drop (start + bytes.length) := by
    rw [append_assoc]
    rfl
  rw [hcontent]
  refine take_left' ?_
  rw [length_append, hlength]

lemma overwrite_len {b : Buf} {start : Nat} {bytes : Bytes}
    (h : start + bytes.length ≤ b.len) : (b.overwrite start bytes).len = b.len := by
  unfold len at h
  simp only [len, overwrite, length_append, length_take, length_drop]
  omega

lemma resize_len {b : Buf} {n : Nat} : (b.resize n).len = n := by
  rw [resize, write_len, len, truncate_content, length_take, length_replicate, len]
  omega

lemma resize_take {b : Buf} {n : Nat} (h : b.len ≤ n) :
    (b.resize n).content.take b.len = b.content := by
  rw [resize, write_content, truncate_content, take_of_length_le h]
  exact take_left

end Buf

/-- What a stream comes to when its input is all there is. -/
inductive Verdict
  | ended
  | failed
  | starved
deriving DecidableEq

inductive Status
  | ok
  | bufError
  | streamEnd
deriving DecidableEq

structure InflateStep (State Fault : Type) where
  consumed : Nat
  produced : Bytes
  status : Except Fault Status
  next : State

/-- A decoder that is handed its input and room for output. -/
structure Inflater where
  State : Type
  Fault : Type
  fresh : State
  step : State → Bytes → Nat → InflateStep State Fault
  /-- What comes out from here on, whatever the room. -/
  rest : State → Bytes → Bytes × Verdict
  consumed_le : ∀ d input room, (step d input room).consumed ≤ input.length
  produced_le : ∀ d input room, (step d input room).produced.length ≤ room
  step_fault : ∀ {d input room e}, (step d input room).status = .error e →
    (rest d input).2 = .failed
  step_end : ∀ {d input room}, (step d input room).status = .ok .streamEnd →
    rest d input = ((step d input room).produced, .ended)
  step_next : ∀ {d input room status}, (step d input room).status = .ok status →
    status ≠ .streamEnd →
    rest d input = ((step d input room).produced ++
      (rest (step d input room).next (input.drop (step d input room).consumed)).1,
      (rest (step d input room).next (input.drop (step d input room).consumed)).2)
  /-- With room to fill and nothing moved, the input has run out. -/
  step_stuck : ∀ {d input room status}, 0 < room → (step d input room).status = .ok status →
    status ≠ .streamEnd → (step d input room).consumed = 0 → (step d input room).produced = [] →
    (rest d input).2 = .starved

/-- A decoder that is read like a file. -/
structure Reader where
  State : Type
  Fault : Type
  new : Bytes → Except Fault State
  read : State → Nat → Except Fault (Bytes × State)
  /-- What comes out from here on, and whether the stream ends well. -/
  rest : State → Bytes × Bool
  read_le : ∀ {d room bytes d'}, read d room = .ok (bytes, d') → bytes.length ≤ room
  read_fault : ∀ {d room e}, read d room = .error e → (rest d).2 = false
  read_next : ∀ {d room bytes d'}, read d room = .ok (bytes, d') →
    rest d = (bytes ++ (rest d').1, (rest d').2)
  /-- Nothing read into some room is the end of the stream. -/
  read_eof : ∀ {d room d'}, 0 < room → read d room = .ok ([], d') → rest d = ([], true)

end StreamDecoder
