import Pbfhogg.Lib.LeBytes
import Mathlib.Data.List.Basic

/-!
# The bytes of a file

A file as the list of its bytes, with positioned writes that may land past its end and a length that
can be set. `Holds` says which part already is what a target file has there; writes of the target's
own bytes never take any of it back.
-/

namespace FileBytes

open List

/-- A positioned write. A gap before it reads as zeros, and writing nothing changes nothing. -/
def writeAt (content : Bytes) (off : Nat) (bytes : Bytes) : Bytes :=
  if bytes = [] then content
  else content.take off ++ replicate (off - content.length) 0 ++ bytes ++
    content.drop (off + bytes.length)

/-- `bytes` are what `target` has at `off`. -/
def IsPiece (target : Bytes) (off : Nat) (bytes : Bytes) : Prop :=
  ∀ i, i < bytes.length → target[off + i]? = bytes[i]?

/-- From `lo` to `hi` the file is as the target. -/
def Holds (content target : Bytes) (lo hi : Nat) : Prop :=
  ∀ i, lo ≤ i → i < hi → content[i]? = target[i]?

variable {content target bytes : Bytes} {off lo mid hi i n : Nat}

lemma writeAt_nil : writeAt content off [] = content := if_pos rfl

lemma getElem_writeAt_inside (h : i < bytes.length) :
    (writeAt content off bytes)[off + i]? = bytes[i]? := by
  have hne : bytes ≠ [] := ne_nil_of_length_pos (by omega)
  have hpad : (content.take off ++ replicate (off - content.length) (0 : UInt8)).length =
      off := by
    simp only [length_append, length_take, length_replicate]
    omega
  rw [writeAt, if_neg hne, getElem?_append_left (by rw [length_append, hpad]; omega),
    getElem?_append_right (by rw [hpad]; omega), hpad]
  congr 1
  omega

lemma getElem_writeAt_before (hi : i < off) (hc : i < content.length) :
    (writeAt content off bytes)[i]? = content[i]? := by
  by_cases hne : bytes = []
  · rw [hne, writeAt_nil]
  · have htake : i < (content.take off).length := by
      rw [length_take]
      omega
    rw [writeAt, if_neg hne, append_assoc, append_assoc,
      getElem?_append_left htake, getElem?_take_of_lt hi]

lemma getElem_writeAt_after (h : off + bytes.length ≤ i) :
    (writeAt content off bytes)[i]? = content[i]? := by
  by_cases hne : bytes = []
  · rw [hne, writeAt_nil]
  · have hlen : (content.take off ++ replicate (off - content.length) (0 : UInt8) ++
        bytes).length = off + bytes.length := by
      simp only [length_append, length_take, length_replicate]
      omega
    rw [writeAt, if_neg hne, getElem?_append_right (by omega), hlen, getElem?_drop]
    congr 1
    omega

lemma isPiece_nil : IsPiece target off [] := fun _ h => absurd h (Nat.not_lt_zero _)

lemma isPiece_take_drop : IsPiece target off ((target.drop off).take n) := by
  intro i hi
  rw [length_take] at hi
  rw [getElem?_take_of_lt (by omega), getElem?_drop]

lemma IsPiece.drop (h : IsPiece target off bytes) (n : Nat) :
    IsPiece target (off + n) (bytes.drop n) := by
  intro i hi
  rw [length_drop] at hi
  rw [getElem?_drop, Nat.add_assoc, h (n + i) (by omega)]

/-- A piece ends inside the target. -/
theorem IsPiece.le_length (h : IsPiece target off bytes) (hne : bytes ≠ []) :
    off + bytes.length ≤ target.length := by
  have hpos : 0 < bytes.length := List.length_pos_of_ne_nil hne
  have hlast := h (bytes.length - 1) (by omega)
  rw [getElem?_eq_getElem (by omega : bytes.length - 1 < bytes.length)] at hlast
  have := (List.getElem?_eq_some_iff.mp hlast).1
  omega

lemma holds_nil (h : hi ≤ lo) : Holds content target lo hi :=
  fun i hlo hhi => absurd hhi (by omega)

lemma Holds.append (h : Holds content target lo mid) (h' : Holds content target mid hi) :
    Holds content target lo hi := by
  intro i hlo hhi
  by_cases hmid : i < mid
  · exact h i hlo hmid
  · exact h' i (by omega) hhi

lemma Holds.mono {lo' hi' : Nat} (h : Holds content target lo hi) (hlo : lo ≤ lo')
    (hhi : hi' ≤ hi) : Holds content target lo' hi' :=
  fun i h1 h2 => h i (by omega) (by omega)

/-- A write of the target's own bytes keeps what is already as the target. -/
theorem Holds.writeAt (h : Holds content target lo hi) (hhi : hi ≤ target.length)
    (hp : IsPiece target off bytes) : Holds (writeAt content off bytes) target lo hi := by
  intro i h1 h2
  have hsame := h i h1 h2
  have hin : i < content.length := by
    rw [getElem?_eq_getElem (by omega : i < target.length)] at hsame
    exact (List.getElem?_eq_some_iff.mp hsame).1
  by_cases hbefore : i < off
  · rw [getElem_writeAt_before hbefore hin, hsame]
  · by_cases hafter : off + bytes.length ≤ i
    · rw [getElem_writeAt_after hafter, hsame]
    · have hoff : off + (i - off) = i := by omega
      have hpiece := hp (i - off) (by omega)
      rw [hoff] at hpiece
      rw [hpiece, ← getElem_writeAt_inside (by omega : i - off < bytes.length), hoff]

/-- A write of the target's own bytes is in place. -/
theorem holds_written (hp : IsPiece target off bytes) :
    Holds (writeAt content off bytes) target off (off + bytes.length) := by
  intro i h1 h2
  have hoff : off + (i - off) = i := by omega
  have hpiece := hp (i - off) (by omega)
  rw [hoff] at hpiece
  rw [hpiece, ← getElem_writeAt_inside (by omega : i - off < bytes.length), hoff]

lemma Holds.extend (h : Holds content target lo off) (hhi : off ≤ target.length)
    (hp : IsPiece target off bytes) :
    Holds (FileBytes.writeAt content off bytes) target lo (off + bytes.length) :=
  (h.writeAt hhi hp).append (holds_written hp)

end FileBytes
