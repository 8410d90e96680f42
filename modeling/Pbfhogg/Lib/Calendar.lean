import Mathlib.Tactic.IntervalCases

/-!
# The proleptic Gregorian calendar

Dates by year, month and day, numbered from the first day of the year 0 by counting.
-/

namespace Calendar

def isLeap (y : Nat) : Bool := (y % 4 == 0 && y % 100 != 0) || y % 400 == 0

def yearLength (y : Nat) : Nat := if isLeap y then 366 else 365

def monthLength (y m : Nat) : Nat :=
  match m with
  | 1 | 3 | 5 | 7 | 8 | 10 | 12 => 31
  | 4 | 6 | 9 | 11 => 30
  | 2 => if isLeap y then 29 else 28
  | _ => 0

/-- The days of the years before `y`. -/
def yearStart : Nat → Nat
  | 0 => 0
  | y + 1 => yearStart y + yearLength y

/-- The days of the months of the year `y` before the `m`th. -/
def monthStart (y : Nat) : Nat → Nat
  | 0 => 0
  | m + 1 => monthStart y m + monthLength y m

structure Date where
  year : Nat
  month : Nat
  day : Nat

namespace Date

structure Valid (d : Date) : Prop where
  month_pos : 1 ≤ d.month
  month_le : d.month ≤ 12
  day_pos : 1 ≤ d.day
  day_le : d.day ≤ monthLength d.year d.month

/-- The days before the date. -/
def number (d : Date) : Nat := yearStart d.year + monthStart d.year d.month + (d.day - 1)

end Date

lemma isLeap_iff {y : Nat} : isLeap y = true ↔ (y % 4 = 0 ∧ y % 100 ≠ 0) ∨ y % 400 = 0 := by
  simp [isLeap]

/-- The leap years before `y` are its multiples of 4, but those of 100, and those of 400. -/
theorem yearStart_eq (y : Nat) :
    yearStart y + (y + 99) / 100 = 365 * y + (y + 3) / 4 + (y + 399) / 400 := by
  induction y with
  | zero => rfl
  | succ y ih =>
    rw [yearStart, yearLength]
    split
    · next h =>
      rw [isLeap_iff] at h
      omega
    · next h =>
      rw [isLeap_iff] at h
      omega

lemma monthStart_thirteen (y : Nat) : monthStart y 13 = yearLength y := by
  cases h : isLeap y <;> simp [monthStart, monthLength, yearLength, h]

lemma monthLength_pos {y m : Nat} (hm : 1 ≤ m) (hle : m ≤ 12) : 1 ≤ monthLength y m := by
  interval_cases m <;> simp [monthLength]
  split <;> decide

lemma monthLength_le (y m : Nat) : monthLength y m ≤ 31 := by
  unfold monthLength
  split <;> try decide
  split <;> decide

lemma exists_next {d : Date} (h : d.Valid) : ∃ d' : Date, d'.Valid ∧ d'.number = d.number + 1 := by
  obtain ⟨y, m, day⟩ := d
  obtain ⟨hm, hm', hd, hd'⟩ := h
  simp only at hm hm' hd hd'
  by_cases hlast : day < monthLength y m
  · refine ⟨⟨y, m, day + 1⟩, ⟨hm, hm', by simp, hlast⟩, ?_⟩
    simp only [Date.number]
    omega
  · by_cases hdec : m < 12
    · refine ⟨⟨y, m + 1, 1⟩, ⟨Nat.le_add_left 1 m, hdec, Nat.le_refl 1,
        monthLength_pos (Nat.le_add_left 1 m) hdec⟩, ?_⟩
      simp only [Date.number, monthStart]
      omega
    · have htwelve : m = 12 := by omega
      subst htwelve
      refine ⟨⟨y + 1, 1, 1⟩, ⟨Nat.le_refl 1, Nat.le_add_left 1 11, Nat.le_refl 1,
        monthLength_pos (Nat.le_refl 1) (Nat.le_add_left 1 11)⟩, ?_⟩
      have hyear := monthStart_thirteen y
      simp only [Date.number, yearStart, monthStart] at hyear ⊢
      simp only [monthLength] at hyear hlast hd' ⊢
      omega

/-- Every day is the day of a date. -/
theorem exists_date (n : Nat) : ∃ d : Date, d.Valid ∧ d.number = n := by
  induction n with
  | zero => exact ⟨⟨0, 1, 1⟩, ⟨by decide, by decide, by decide, by decide⟩, by decide⟩
  | succ n ih =>
    obtain ⟨d, hd, rfl⟩ := ih
    exact exists_next hd

end Calendar
