import Pbfhogg.Lib.LeBytes
import Mathlib.Algebra.Group.Nat.Defs
import Mathlib.Data.List.Basic

/-!
# Sources of bytes

A reader takes bytes off the front of an input that may serve them in pieces. A source delivers an
input when filling, appending and skipping do what they do on the list of bytes left. A plain reader
and one that seeks and probes the last byte of a skip both deliver theirs.
-/

namespace ByteSource

open List

variable {σ : Type}

inductive IoError where
  | unexpectedEof
  | other (message : String)

/-- Fill a buffer, append to one, pass over bytes. A short count is the end of the input. -/
structure Source (σ : Type) where
  fill : σ → Nat → Except IoError (Bytes × σ)
  append : σ → Nat → Except IoError (Bytes × σ)
  skipBytes : σ → Nat → Except IoError (Bool × σ)

/-- A state that stands before `rest` appends and skips as `rest` does, and stands before what is
left: in `R` after it appends, in `Q` after it skips. Skips are below `bound`. -/
structure Delivers (S : Source σ) (bound : Nat) (R Q : σ → Bytes → Prop) : Prop where
  append : ∀ {s rest} (n : Nat), R s rest →
    ∃ s', S.append s n = .ok (rest.take n, s') ∧ (n ≤ rest.length → R s' (rest.drop n))
  skip : ∀ {s rest} {n : Nat}, n < bound → R s rest →
    ∃ s', S.skipBytes s n = .ok (decide (n ≤ rest.length), s') ∧
      (n ≤ rest.length → Q s' (rest.drop n))

/-- Filling a buffer stops short only where the input ends. -/
def FillsAt (S : Source σ) (R : σ → Bytes → Prop) (n : Nat) (s : σ) (rest : Bytes) :
    Prop :=
  if n ≤ rest.length then ∃ s', S.fill s n = .ok (rest.take n, s') ∧ R s' (rest.drop n)
  else ∃ got s', S.fill s n = .ok (got, s') ∧ got.length < n

/-- What is left, and what the coming reads do: an interruption, or at most so many bytes and one.
Past the schedule a read serves all it is asked for. -/
structure Reader where
  data : Bytes
  schedule : List (Option Nat)

inductive ReadResult where
  | interrupted
  | delivered (got : Bytes)

namespace Reader

def read (r : Reader) (n : Nat) : ReadResult × Reader :=
  match r.schedule with
  | none :: rest => (.interrupted, { r with schedule := rest })
  | some c :: rest =>
    (.delivered (r.data.take (min n (c + 1))), ⟨r.data.drop (min n (c + 1)), rest⟩)
  | [] => (.delivered (r.data.take n), ⟨r.data.drop n, []⟩)

/-- Ask until the request is met or nothing comes; an interruption is asked again. -/
def readLoop : Nat → Reader → Nat → Bytes → Bytes × Reader
  | 0, r, _, got => (got, r)
  | fuel + 1, r, n, got =>
    if n = 0 then (got, r)
    else
      match r.read n with
      | (.interrupted, r') => readLoop fuel r' n got
      | (.delivered [], r') => (got, r')
      | (.delivered (b :: bs), r') => readLoop fuel r' (n - (b :: bs).length) (got ++ (b :: bs))

def readUpTo (r : Reader) (n : Nat) : Bytes × Reader :=
  readLoop (r.schedule.length + n) r n []

/-- One read that is served `k` of at most `n` bytes, and the rest of the loop after it. -/
theorem readLoop_served {fuel n k : Nat} {data got : Bytes} {schedule : List (Option Nat)}
    (hk : 0 < k) (hkn : k ≤ n) (hdata : data ≠ [])
    (ih : ∀ {r : Reader} {m : Nat} {acc : Bytes}, r.schedule.length + m ≤ fuel →
      (readLoop fuel r m acc).1 = acc ++ r.data.take m ∧
        (readLoop fuel r m acc).2.data = r.data.drop m) (hfuel : schedule.length + n ≤ fuel + 1) :
    (readLoop fuel ⟨data.drop k, schedule⟩ (n - (data.take k).length) (got ++ data.take k)).1 =
        got ++ data.take n ∧
      (readLoop fuel ⟨data.drop k, schedule⟩ (n - (data.take k).length) (got ++ data.take k)).2.data
        = data.drop n := by
  have hpos := length_pos_iff.mpr hdata
  have hlen : (data.take k).length = min k data.length := length_take
  obtain ⟨h1, h2⟩ := @ih ⟨data.drop k, schedule⟩ (n - (data.take k).length) (got ++ data.take k)
    (by simp only; omega)
  rw [h1, h2]
  by_cases hkd : k ≤ data.length
  · have hmin : (data.take k).length = k := by omega
    rw [hmin, append_assoc, ← take_add, drop_drop, show k + (n - k) = n by omega]
    exact ⟨rfl, rfl⟩
  · rw [take_of_length_le (by omega : data.length ≤ k),
      drop_of_length_le (by omega : data.length ≤ k), take_nil, drop_nil,
      append_nil, take_of_length_le (by omega : data.length ≤ n),
      drop_of_length_le (by omega : data.length ≤ n)]
    exact ⟨rfl, rfl⟩

lemma readLoop_spec {fuel : Nat} {r : Reader} {n : Nat} {got : Bytes}
    (hfuel : r.schedule.length + n ≤ fuel) : (readLoop fuel r n got).1 = got ++ r.data.take n ∧
      (readLoop fuel r n got).2.data = r.data.drop n := by
  induction fuel generalizing r n got with
  | zero =>
    have hn : n = 0 := by omega
    simp [readLoop, hn]
  | succ fuel ih =>
    rw [readLoop]
    by_cases hn : n = 0
    · simp [hn]
    rw [if_neg hn]
    obtain ⟨data, schedule⟩ := r
    cases schedule with
    | nil =>
      simp only [read]
      cases hd : data.take n with
      | nil =>
        have hnil : data = [] := by
          rcases take_eq_nil_iff.mp hd with h | h
          · omega
          · exact h
        simp [hnil]
      | cons b bs =>
        have hne : data ≠ [] := by
          rintro rfl
          rw [take_nil] at hd
          cases hd
        simp only [← hd]
        exact readLoop_served (by omega) (Nat.le_refl n) hne ih (by simpa using hfuel)
    | cons c rest =>
      rw [length_cons] at hfuel
      cases c with
      | none =>
        simp only [read]
        exact @ih ⟨data, rest⟩ n got (by simp only; omega)
      | some c =>
        simp only [read]
        cases hd : data.take (min n (c + 1)) with
        | nil =>
          have hnil : data = [] := by
            rcases take_eq_nil_iff.mp hd with h | h
            · omega
            · exact h
          simp [hnil]
        | cons b bs =>
          have hne : data ≠ [] := by
            rintro rfl
            rw [take_nil] at hd
            cases hd
          simp only [← hd]
          exact readLoop_served (by omega) (by omega) hne ih (by omega)

lemma readUpTo_spec (r : Reader) (n : Nat) :
    (r.readUpTo n).1 = r.data.take n ∧ (r.readUpTo n).2.data = r.data.drop n := by
  have h := @readLoop_spec (r.schedule.length + n) r n [] (Nat.le_refl _)
  exact h

end Reader

/-- A plain reader; it has no way to skip, so the bytes are read and dropped. -/
def reader : Source Reader where
  fill r n := .ok (r.readUpTo n)
  append r n := .ok (r.readUpTo n)
  skipBytes r n := .ok (decide ((r.readUpTo n).1.length = n), (r.readUpTo n).2)

/-- The reader stands before `rest`. -/
def Reader.At (r : Reader) (rest : Bytes) : Prop := r.data = rest

lemma reader_delivers (bound : Nat) : Delivers reader bound Reader.At Reader.At where
  append {r rest} n h := by
    obtain ⟨h1, h2⟩ := r.readUpTo_spec n
    unfold Reader.At at h
    rw [h] at h1 h2
    exact ⟨_, by rw [← h1]; rfl, fun _ => h2⟩
  skip {r rest n} _ h := by
    obtain ⟨h1, h2⟩ := r.readUpTo_spec n
    unfold Reader.At at h
    rw [h] at h1 h2
    refine ⟨(r.readUpTo n).2, ?_, fun _ => h2⟩
    show Except.ok (decide ((r.readUpTo n).1.length = n), _) = _
    rw [h1, length_take]
    congr 2
    exact decide_eq_decide.mpr (by omega)

lemma reader_fillsAt {r : Reader} {rest : Bytes} (n : Nat) (h : r.At rest) :
    FillsAt reader Reader.At n r rest := by
  obtain ⟨h1, h2⟩ := r.readUpTo_spec n
  unfold Reader.At at h
  rw [h] at h1 h2
  unfold FillsAt
  split
  · exact ⟨_, by rw [← h1]; rfl, h2⟩
  · next hlt =>
    refine ⟨(r.readUpTo n).1, _, rfl, ?_⟩
    rw [h1, length_take]
    omega

/-- An input read from a position, which may lie past its end. -/
structure SeekReader where
  whole : Bytes
  pos : Nat
  schedule : List (Option Nat)

namespace SeekReader

def readUpTo (r : SeekReader) (n : Nat) : Bytes × SeekReader :=
  let got := Reader.readUpTo ⟨r.whole.drop r.pos, r.schedule⟩ n
  (got.1, { r with pos := r.pos + got.1.length, schedule := got.2.schedule })

def skipRelative (r : SeekReader) (offset : Nat) : SeekReader := { r with pos := r.pos + offset }

/-- Seek to the last byte and read it: a seek past the end succeeds and only the read can tell. -/
def skipBytes (r : SeekReader) (n : Nat) : Except IoError (Bool × SeekReader) :=
  if n = 0 then .ok (true, r)
  else if 2 ^ 63 ≤ n - 1 then .error (.other "skip too long")
  else
    let sentinel := (r.skipRelative (n - 1)).readUpTo 1
    .ok (decide (sentinel.1.length = 1), sentinel.2)

/-- The reader stands before `rest`. -/
def At (r : SeekReader) (rest : Bytes) : Prop :=
  r.whole.drop r.pos = rest ∧ r.pos ≤ r.whole.length

lemma readUpTo_spec {r : SeekReader} {rest : Bytes} (h : r.At rest) (n : Nat) :
    (r.readUpTo n).1 = rest.take n ∧ (r.readUpTo n).2.At (rest.drop n) := by
  obtain ⟨rfl, hpos⟩ := h
  obtain ⟨h1, -⟩ := Reader.readUpTo_spec ⟨r.whole.drop r.pos, r.schedule⟩ n
  refine ⟨h1, ?_, ?_⟩
  · show r.whole.drop (r.pos + _) = _
    rw [h1, length_take, length_drop, drop_drop]
    by_cases hn : n ≤ r.whole.length - r.pos
    · rw [Nat.min_eq_left hn]
    · rw [drop_of_length_le (by omega), drop_of_length_le (by omega)]
  · show r.pos + _ ≤ r.whole.length
    rw [h1, length_take, length_drop]
    omega

end SeekReader

def seekReader : Source SeekReader where
  fill r n := .ok (r.readUpTo n)
  append r n := .ok (r.readUpTo n)
  skipBytes := SeekReader.skipBytes

lemma seekReader_delivers : Delivers seekReader (2 ^ 63) SeekReader.At SeekReader.At where
  append {r rest} n h := by
    obtain ⟨h1, h2⟩ := SeekReader.readUpTo_spec h n
    exact ⟨_, by rw [← h1]; rfl, fun _ => h2⟩
  skip {r rest n} hn h := by
    show ∃ s', SeekReader.skipBytes r n = _ ∧ _
    unfold SeekReader.skipBytes
    by_cases hz : n = 0
    · refine ⟨r, ?_, ?_⟩
      · simp [hz]
      · intro _
        rw [hz, drop_zero]
        exact h
    rw [if_neg hz, if_neg (by omega)]
    obtain ⟨rfl, hpos⟩ := h
    have hlen : (r.whole.drop r.pos).length = r.whole.length - r.pos := length_drop
    by_cases hle : n ≤ (r.whole.drop r.pos).length
    · have hat : (r.skipRelative (n - 1)).At (r.whole.drop (r.pos + (n - 1))) := by
        refine ⟨rfl, ?_⟩
        show r.pos + (n - 1) ≤ r.whole.length
        omega
      obtain ⟨h1, h2⟩ := SeekReader.readUpTo_spec hat 1
      refine ⟨((r.skipRelative (n - 1)).readUpTo 1).2, ?_, fun _ => ?_⟩
      · show Except.ok (decide (((r.skipRelative (n - 1)).readUpTo 1).1.length = 1), _) = _
        rw [h1, length_take, length_drop]
        congr 2
        exact decide_eq_decide.mpr (by omega)
      · rw [drop_drop] at h2 ⊢
        rw [show r.pos + n = r.pos + (n - 1) + 1 by omega]
        exact h2
    · refine ⟨((r.skipRelative (n - 1)).readUpTo 1).2, ?_, fun h => absurd h hle⟩
      have h1 := (Reader.readUpTo_spec ⟨r.whole.drop (r.pos + (n - 1)), r.schedule⟩ 1).1
      have hempty : ((r.skipRelative (n - 1)).readUpTo 1).1.length = 0 := by
        show (Reader.readUpTo ⟨r.whole.drop (r.pos + (n - 1)), r.schedule⟩ 1).1.length = 0
        rw [h1, length_take, length_drop]
        omega
      show Except.ok (decide (((r.skipRelative (n - 1)).readUpTo 1).1.length = 1), _) = _
      rw [hempty]
      congr 2
      exact decide_eq_decide.mpr (by omega)

lemma seekReader_fillsAt {r : SeekReader} {rest : Bytes} (n : Nat) (h : r.At rest) :
    FillsAt seekReader SeekReader.At n r rest := by
  obtain ⟨h1, h2⟩ := SeekReader.readUpTo_spec h n
  unfold FillsAt
  split
  · exact ⟨_, by rw [← h1]; rfl, h2⟩
  · next hlt =>
    refine ⟨(r.readUpTo n).1, _, rfl, ?_⟩
    rw [h1, length_take]
    omega

end ByteSource
