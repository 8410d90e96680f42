import Pbfhogg.Lib.Calendar
import Pbfhogg.Lib.Fallible
import Pbfhogg.Lib.Utf8

/-!
# Timestamps

`format_epoch_secs` and `parse_rfc3339_utc` of `commands/mod.rs`. A string is its characters and a
number an integer: a timestamp of a four-digit year stays far inside 64 bits.
-/

namespace Timestamp

open Calendar Utf8 Fallible
open List hiding span

variable {d : Date} {w n : Nat} {cs : List Char} {s : Stamp}

/-- `{n:0width}` of a number that is not negative. -/
def padded (width n : Nat) : List Char :=
  replicate (width - (Nat.toDigits 10 n).length) '0' ++ Nat.toDigits 10 n

/-- `{n:0width}`: a minus sign takes one place of the width. -/
def formatInt (width : Nat) (n : Int) : List Char :=
  if n < 0 then '-' :: padded (width - 1) n.natAbs else padded width n.toNat

/-- Days since 1970-01-01 to year, month and day. -/
def civilFromDays (days : Int) : Int × Int × Int :=
  let z := days + 719468
  let era := z / 146097
  let doe := z % 146097
  let yoe := (doe - doe / 1460 + doe / 36524 - doe / 146096) / 365
  let y := yoe + era * 400
  let doy := doe - (365 * yoe + yoe / 4 - yoe / 100)
  let mp := (5 * doy + 2) / 153
  let d := doy - (153 * mp + 2) / 5 + 1
  let m := if mp < 10 then mp + 3 else mp - 9
  (if m ≤ 2 then y + 1 else y, m, d)

/-- `{y:04}-{m:02}-{d:02}T{h:02}:{min:02}:{s:02}Z`. -/
def stampText (y m d h min s : Int) : List Char :=
  formatInt 4 y ++ '-' :: (formatInt 2 m ++ '-' :: (formatInt 2 d ++ 'T' :: (formatInt 2 h ++
    ':' :: (formatInt 2 min ++ ':' :: (formatInt 2 s ++ ['Z'])))))

def formatEpochSecs (secs : Int) : List Char :=
  let daySecs := secs % 86400
  let (y, m, d) := civilFromDays ((secs - daySecs) / 86400)
  stampText y m d (daySecs / 3600) (daySecs % 3600 / 60) (daySecs % 60)

/-- How the parser fails: a slice that cuts a character panics. -/
inductive Failure
  | notCharBoundary
  | timestamp (message : String)
deriving DecidableEq

def formatErr : Failure := .timestamp "timestamp must be YYYY-MM-DDTHH:MM:SSZ"

/-- A run of decimal digits, at least one. -/
def decimal (cs : List Char) : Option Nat :=
  if cs ≠ [] ∧ cs.all Char.isDigit then
    some (cs.foldl (fun n c => 10 * n + (c.toNat - 48)) 0)
  else none

/-- `str::parse::<i64>`: digits behind one sign or none. -/
def parseI64 : List Char → Option Int
  | '+' :: cs => (decimal cs).bind fun n => if n < 2 ^ 63 then some (n : Int) else none
  | '-' :: cs => (decimal cs).bind fun n => if n ≤ 2 ^ 63 then some (-(n : Int)) else none
  | cs => (decimal cs).bind fun n => if n < 2 ^ 63 then some (n : Int) else none

variable (input : List Char)

def field (start stop : Nat) : Except Failure Int :=
  match slice? input start stop with
  | none => .error .notCharBoundary
  | some text =>
    (parseI64 text).elim (.error (.timestamp "invalid numeric timestamp component")) .ok

/-- The bytes the format fixes. -/
def separators : List (Nat × Char) :=
  [(4, '-'), (7, '-'), (10, 'T'), (13, ':'), (16, ':'), (19, 'Z')]

def maxDay (year month : Int) : Int :=
  if month ∈ [1, 3, 5, 7, 8, 10, 12] then 31
  else if month ∈ [4, 6, 9, 11] then 30
  else if month = 2 then
    if (year % 4 = 0 ∧ year % 100 ≠ 0) ∨ year % 400 = 0 then 29 else 28
  else 0

/-- Year, month and day to days since 1970-01-01. -/
def daysFromCivil (year month day : Int) : Int :=
  let y := year - if month ≤ 2 then 1 else 0
  let era := (if 0 ≤ y then y else y - 399).tdiv 400
  let yoe := y - era * 400
  let mp := month + if 2 < month then -3 else 9
  let doy := (153 * mp + 2) / 5 + day - 1
  let doe := yoe * 365 + yoe / 4 - yoe / 100 + doy
  era * 146097 + doe - 719468

/-- The six numbers of a timestamp. -/
structure Fields where
  year : Int
  month : Int
  day : Int
  hour : Int
  minute : Int
  second : Int

def readFields : Except Failure Fields := do
  let year ← field input 0 4
  let month ← field input 5 7
  let day ← field input 8 10
  let hour ← field input 11 13
  let minute ← field input 14 16
  let second ← field input 17 19
  return ⟨year, month, day, hour, minute, second⟩

/-- The range checks and the count of the seconds. -/
def secondsOf (f : Fields) : Except Failure Int :=
  if f.month < 1 ∨ 12 < f.month then .error (.timestamp "invalid month in timestamp")
  else if 23 < f.hour ∨ 59 < f.minute ∨ 59 < f.second then
    .error (.timestamp "invalid time in timestamp")
  else if f.day = 0 ∨ maxDay f.year f.month < f.day then
    .error (.timestamp "invalid day in timestamp")
  else
    .ok (daysFromCivil f.year f.month f.day * 86400 + f.hour * 3600 + f.minute * 60 + f.second)

def parseRfc3339Utc : Except Failure Int :=
  if (bytes input).length ≠ 20 then .error formatErr
  else if separators.any fun p => (bytes input)[p.1]? ≠ some (UInt8.ofNat p.2.toNat) then
    .error formatErr
  else do
    let f ← readFields input
    secondsOf f

/-- The last `width` decimal digits. -/
def digits : Nat → Nat → List Char
  | 0, _ => []
  | width + 1, n => digits width (n / 10) ++ [Nat.digitChar (n % 10)]

/-- A second of a four-digit year. -/
structure Stamp where
  date : Date
  hour : Nat
  minute : Nat
  second : Nat

namespace Stamp

structure Valid (s : Stamp) : Prop where
  date : s.date.Valid
  year : s.date.year ≤ 9999
  hour : s.hour ≤ 23
  minute : s.minute ≤ 59
  second : s.second ≤ 59

/-- Seconds since 1970-01-01, whose day has the number 719528. -/
def seconds (s : Stamp) : Int :=
  ((s.date.number : Int) - 719528) * 86400 + s.hour * 3600 + s.minute * 60 + s.second

/-- `YYYY-MM-DDTHH:MM:SSZ`. -/
def text (s : Stamp) : List Char :=
  digits 4 s.date.year ++ '-' :: (digits 2 s.date.month ++ '-' :: (digits 2 s.date.day ++
    'T' :: (digits 2 s.hour ++ ':' :: (digits 2 s.minute ++ ':' :: (digits 2 s.second ++ ['Z'])))))

end Stamp

/-- What the parser owes a string: it does not panic, and what it accepts is the text of a second
of a four-digit year and formats back to it. -/
def Strict : Prop :=
  parseRfc3339Utc input ≠ .error .notCharBoundary ∧
    ∀ t, parseRfc3339Utc input = .ok t → formatEpochSecs t = input ∧
      ∃ s : Stamp, s.Valid ∧ s.text = input ∧ s.seconds = t

/-- The days of the years from March 0000 to March of the year `y`. -/
def march (y : Int) : Int := 365 * y + y / 4 - y / 100 + y / 400

/-- The year a date lies in when years start in March, and its day there. -/
def marchYear (d : Date) : Int := (d.year : Int) - if d.month ≤ 2 then 1 else 0

def marchDay (d : Date) : Int :=
  (153 * ((d.month : Int) + if 2 < d.month then -3 else 9) + 2) / 5 + d.day - 1

/-- The leap day of a year, if it has one. -/
def leapDay (y : Nat) : Nat := if isLeap y then 1 else 0

lemma march_year (y : Nat) : march y = march (y - 1) + 365 + leapDay y := by
  have hleap := @isLeap_iff y
  unfold march leapDay
  cases h : isLeap y
  · rw [h] at hleap
    have hnot : ¬((y % 4 = 0 ∧ y % 100 ≠ 0) ∨ y % 400 = 0) := fun h' => by simpa using hleap.mpr h'
    simp only [Bool.false_eq_true, if_false]
    omega
  · have his := hleap.mp h
    simp only [if_true]
    omega

lemma yearStart_eq_march (y : Nat) : (yearStart y : Int) = march (y - 1) + 366 := by
  have hyear := yearStart_eq y
  unfold march
  omega

/-- The months before, counted from January and from March. -/
theorem monthStart_eq_march (h : d.Valid) :
    (monthStart d.year d.month : Int) + (d.day - 1) =
      if d.month ≤ 2 then marchDay d - 306 else marchDay d + 59 + leapDay d.year := by
  obtain ⟨y, m, day⟩ := d
  obtain ⟨hm, hm', -, -⟩ := h
  simp only at hm hm'
  unfold marchDay leapDay
  cases hl : isLeap y <;> interval_cases m <;> simp [monthStart, monthLength, hl] <;> omega

lemma number_eq_march (h : d.Valid) : (d.number : Int) = march (marchYear d) + marchDay d + 60 := by
  have hmonth := monthStart_eq_march h
  have hyear := yearStart_eq_march d.year
  have hleap := march_year d.year
  have hday := h.day_pos
  unfold Date.number marchYear
  split at hmonth
  · next hle =>
    rw [if_pos hle]
    omega
  · next hgt =>
    rw [if_neg hgt, Int.sub_zero]
    omega

lemma marchDay_bounds (h : d.Valid) : 0 ≤ marchDay d ∧ marchDay d ≤ 365 ∧
      (marchDay d = 365 → d.month = 2 ∧ isLeap d.year = true) := by
  obtain ⟨y, m, day⟩ := d
  obtain ⟨hm, hm', hd, hd'⟩ := h
  simp only at hm hm' hd hd'
  unfold marchDay
  cases hl : isLeap y <;> interval_cases m <;> simp [monthLength, hl] at hd' ⊢ <;> omega

/-- Year and day within an era of 400 years. -/
theorem march_era (y : Int) :
    march y = 146097 * (y / 400) + (365 * (y % 400) + y % 400 / 4 - y % 400 / 100) := by
  unfold march
  omega

/-- The day of an era gives its year: a year is its century, quadrennium and place there. -/
theorem yoe_eq {c q k doy doe : Int} (hc : 0 ≤ c ∧ c ≤ 3) (hq : 0 ≤ q ∧ q ≤ 24)
    (hk : 0 ≤ k ∧ k ≤ 3) (hd : 0 ≤ doy ∧ doy ≤ 365) (hlast : doy = 365 → k = 3 ∧ (q < 24 ∨ c = 3))
    (hdoe : doe = 36524 * c + 1461 * q + 365 * k + doy) :
    (doe - doe / 1460 + doe / 36524 - doe / 146096) / 365 = 100 * c + 4 * q + k := by
  have hcases : doe ≤ 36524 * c + 36523 ∨ doe = 146096 ∧ c = 3 := by omega
  have hcenturies : doe / 36524 - doe / 146096 = c := by
    rcases hcases with h | ⟨h, h'⟩
    · have hcentury : doe / 36524 = c := by omega
      have hera : doe / 146096 = 0 := by omega
      omega
    · rw [h, h']
      rfl
  have hleaps : doe / 1460 = 25 * c + q + (24 * c + q + 365 * k + doy) / 1460 := by omega
  have hday : (24 * c + q + 365 * k + doy) / 1460 ≤ doy ∧
      doy - (24 * c + q + 365 * k + doy) / 1460 ≤ 364 ∧
        0 ≤ (24 * c + q + 365 * k + doy) / 1460 := by
    omega
  generalize (24 * c + q + 365 * k + doy) / 1460 = x at *
  omega

lemma month_of_marchDay (h : d.Valid) :
    (5 * marchDay d + 2) / 153 = (d.month : Int) + (if 2 < d.month then -3 else 9) ∧
      marchDay d - (153 * ((5 * marchDay d + 2) / 153) + 2) / 5 + 1 = d.day := by
  obtain ⟨y, m, day⟩ := d
  obtain ⟨hm, hm', hd, hd'⟩ := h
  simp only at hm hm' hd hd'
  unfold marchDay
  cases hl : isLeap y <;> interval_cases m <;> simp [monthLength, hl] at hd' ⊢ <;> omega

/-- The day of its era that a date is. -/
def eraDay (y doy : Int) : Int := 365 * (y % 400) + y % 400 / 4 - y % 400 / 100 + doy

lemma eraDay_bounds {y doy : Int} (hd : 0 ≤ doy ∧ doy ≤ 365) :
    0 ≤ eraDay y doy ∧ eraDay y doy < 146097 := by
  unfold eraDay
  have hr : 0 ≤ y % 400 ∧ y % 400 < 400 := by omega
  generalize y % 400 = r at hr
  omega

lemma era_of_number (h : d.Valid) :
    ((d.number : Int) - 719528 + 719468) / 146097 = marchYear d / 400 ∧
      ((d.number : Int) - 719528 + 719468) % 146097 = eraDay (marchYear d) (marchDay d) := by
  obtain ⟨hd0, hd1, -⟩ := marchDay_bounds h
  have hnumber := number_eq_march h
  have hera := march_era (marchYear d)
  have hbounds := @eraDay_bounds (marchYear d) _ ⟨hd0, hd1⟩
  have heq : eraDay (marchYear d) (marchDay d) = march (marchYear d) + marchDay d -
      146097 * (marchYear d / 400) := by
    rw [hera, eraDay]
    omega
  generalize eraDay (marchYear d) (marchDay d) = doe at *
  generalize marchYear d / 400 = era at *
  omega

lemma yoe_of_eraDay (h : d.Valid) :
    let doe := eraDay (marchYear d) (marchDay d)
    (doe - doe / 1460 + doe / 36524 - doe / 146096) / 365 = marchYear d % 400 := by
  obtain ⟨hd0, hd1, hlast⟩ := marchDay_bounds h
  have hend : marchDay d = 365 → marchYear d % 4 = 3 ∧
      (marchYear d % 400 % 100 / 4 < 24 ∨ marchYear d % 400 / 100 = 3) := by
    intro hday
    obtain ⟨hmonth, hleap⟩ := hlast hday
    have hyear : marchYear d = (d.year : Int) - 1 := by
      unfold marchYear
      rw [hmonth]
      rfl
    have his := isLeap_iff.mp hleap
    rw [hyear]
    omega
  have hsum : marchYear d % 400 = 100 * (marchYear d % 400 / 100) +
      4 * (marchYear d % 400 % 100 / 4) + marchYear d % 4 := by
    omega
  have hyoe := @yoe_eq (marchYear d % 400 / 100) (marchYear d % 400 % 100 / 4) (marchYear d % 4)
    (marchDay d) (eraDay (marchYear d) (marchDay d)) (by omega) (by omega) (by omega) ⟨hd0, hd1⟩
    hend (by unfold eraDay; omega)
  rw [← hsum] at hyoe
  exact hyoe

lemma civilFromDays_number (h : d.Valid) :
    civilFromDays (d.number - 719528) = ((d.year : Int), (d.month : Int), (d.day : Int)) := by
  obtain ⟨hera, hdoe⟩ := era_of_number h
  have hyoe := yoe_of_eraDay h
  obtain ⟨hmp, hday⟩ := month_of_marchDay h
  rw [hmp] at hday
  have hdoy : eraDay (marchYear d) (marchDay d) - (365 * (marchYear d % 400) +
      marchYear d % 400 / 4 - marchYear d % 400 / 100) = marchDay d := by
    unfold eraDay
    omega
  have hyear : marchYear d % 400 + marchYear d / 400 * 400 = marchYear d := by omega
  have hm := h.month_pos
  have hm' := h.month_le
  simp only [civilFromDays, hera, hdoe, hyoe, hdoy, hyear, hday, hmp]
  have hmonth : (if (d.month : Int) + (if 2 < d.month then -3 else 9) < 10 then
      (d.month : Int) + (if 2 < d.month then -3 else 9) + 3
      else (d.month : Int) + (if 2 < d.month then -3 else 9) - 9) = d.month := by
    split <;> split <;> omega
  rw [hmonth]
  refine Prod.ext ?_ rfl
  unfold marchYear
  simp only
  split <;> split <;> omega

/-- The parser counts the days as the calendar does. -/
theorem daysFromCivil_date (h : d.Valid) :
    daysFromCivil d.year d.month d.day = (d.number : Int) - 719528 := by
  have hnumber := number_eq_march h
  have hera := march_era (marchYear d)
  have hfloor : (if 0 ≤ marchYear d then marchYear d else marchYear d - 399).tdiv 400 =
      marchYear d / 400 := by
    split
    · next hpos => exact Int.tdiv_eq_ediv_of_nonneg hpos
    · next hneg =>
      have hone : marchYear d = -1 := by
        unfold marchYear at hneg ⊢
        split at hneg <;> omega
      rw [hone]
      rfl
  have hyear : (d.year : Int) - (if (d.month : Int) ≤ 2 then 1 else 0) = marchYear d := by
    unfold marchYear
    congr 1
    split <;> split <;> omega
  have hday : (153 * ((d.month : Int) + if 2 < (d.month : Int) then -3 else 9) + 2) / 5 + d.day - 1 =
      marchDay d := by
    unfold marchDay
    have hiff : (2 < (d.month : Int)) ↔ 2 < d.month := by omega
    simp only [hiff]
  simp only [daysFromCivil, hyear, hfloor, hday]
  have hyoe : marchYear d - marchYear d / 400 * 400 = marchYear d % 400 := by omega
  rw [hyoe]
  omega

lemma digits_succ (w n : Nat) : digits (w + 1) n = digits w (n / 10) ++ [Nat.digitChar (n % 10)] :=
  rfl

@[simp] lemma length_digits (w n : Nat) : (digits w n).length = w := by
  induction w generalizing n with
  | zero => rfl
  | succ w ih => rw [digits_succ, length_append, ih, length_singleton]

/-- A number that fits the width is its digits, zeros in front. -/
theorem padded_eq_digits (h : n < 10 ^ (w + 1)) : padded (w + 1) n = digits (w + 1) n := by
  induction w generalizing n with
  | zero =>
    have hlt : n < 10 := by simpa using h
    rw [padded, Nat.toDigits_of_lt_base hlt, digits_succ, Nat.mod_eq_of_lt hlt]
    rfl
  | succ w ih =>
    have hrest : n / 10 < 10 ^ (w + 1) := by
      rw [Nat.pow_succ] at h
      omega
    rw [digits_succ, ← ih hrest]
    by_cases hlt : n < 10
    · have hzero : n / 10 = 0 := by omega
      rw [padded, padded, Nat.toDigits_of_lt_base hlt, hzero, Nat.toDigits_zero,
        Nat.mod_eq_of_lt hlt]
      have hzeros : replicate (w + 1) '0' = replicate w '0' ++ ['0'] :=
        replicate_succ'
      simp [hzeros]
    · rw [padded, padded, Nat.toDigits_of_base_le (by decide) (by omega), length_append,
        length_singleton, Nat.add_sub_add_right, append_assoc]

lemma foldl_digits (w n a : Nat) :
    (digits w n).foldl (fun n c => 10 * n + (c.toNat - 48)) a = a * 10 ^ w + n % 10 ^ w := by
  induction w generalizing n with
  | zero => simp [digits, Nat.mod_one]
  | succ w ih =>
    have hlt : n % 10 < 10 := Nat.mod_lt n (by decide)
    have hmod : n % 10 ^ (w + 1) = n % 10 + 10 * (n / 10 % 10 ^ w) := by
      rw [Nat.pow_succ, Nat.mul_comm, Nat.mod_mul]
    rw [digits_succ, foldl_append, ih, foldl_cons, foldl_nil,
      Nat.toNat_digitChar_sub_48_of_lt_ten hlt, hmod, Nat.pow_succ]
    have hshift : a * (10 ^ w * 10) = 10 * (a * 10 ^ w) := by
      rw [← Nat.mul_assoc, Nat.mul_comm]
    rw [hshift, Nat.mul_add]
    omega

lemma isDigit_of_mem_digits {c : Char} (h : c ∈ digits w n) : c.isDigit = true := by
  induction w generalizing n with
  | zero => cases h
  | succ w ih =>
    rw [digits_succ, mem_append, mem_singleton] at h
    rcases h with h | rfl
    · exact ih h
    · rw [Nat.isDigit_digitChar]
      exact decide_eq_true (Nat.mod_lt n (by decide))

lemma decimal_digits (hw : 0 < w) (h : n < 10 ^ w) : decimal (digits w n) = some n := by
  have hne : digits w n ≠ [] := by
    rw [← length_pos_iff, length_digits]
    exact hw
  have hall : (digits w n).all Char.isDigit = true :=
    all_eq_true.mpr fun c hc => isDigit_of_mem_digits hc
  rw [decimal, if_pos ⟨hne, hall⟩, foldl_digits, Nat.zero_mul, Nat.zero_add, Nat.mod_eq_of_lt h]

/-- A run of digits is the digits of its number. -/
theorem digits_of_decimal (h : decimal cs = some n) :
    cs = digits cs.length n ∧ n < 10 ^ cs.length := by
  unfold decimal at h
  split at h
  · next hdigits =>
    cases h
    obtain ⟨-, hall⟩ := hdigits
    induction cs using reverseRecOn with
    | nil => exact ⟨rfl, by simp⟩
    | append_singleton cs c ih =>
      rw [all_append, Bool.and_eq_true] at hall
      obtain ⟨hcs, hlt⟩ := ih hall.1
      have hc : c.isDigit = true := by simpa using hall.2
      have hrange : 48 ≤ c.toNat ∧ c.toNat ≤ 57 := by
        simpa [Char.isDigit, UInt32.le_iff_toNat_le] using hc
      have hchar : Nat.digitChar (c.toNat - 48) = c := by
        apply Char.toNat_inj.mp
        rw [Nat.toNat_digitChar_of_lt_ten (by omega)]
        omega
      rw [foldl_append, foldl_cons, foldl_nil, length_append, length_singleton]
      generalize cs.foldl (fun n c => 10 * n + (c.toNat - 48)) 0 = v at *
      have hdiv : (10 * v + (c.toNat - 48)) / 10 = v := by omega
      have hmod : (10 * v + (c.toNat - 48)) % 10 = c.toNat - 48 := by omega
      constructor
      · rw [digits_succ, hdiv, hmod, hchar, ← hcs]
      · rw [Nat.pow_succ]
        omega
  · cases h

/-- The text starts with a sign. -/
def Signed (cs : List Char) : Prop := cs.head? = some '+' ∨ cs.head? = some '-'

lemma not_signed_digits (w n : Nat) : ¬Signed (digits w n) := by
  rintro (h | h)
  · have := isDigit_of_mem_digits (mem_of_mem_head? h)
    exact absurd this (by decide)
  · have := isDigit_of_mem_digits (mem_of_mem_head? h)
    exact absurd this (by decide)

lemma parseI64_of_not_signed (h : ¬Signed cs) :
    parseI64 cs = (decimal cs).bind fun n => if n < 2 ^ 63 then some (n : Int) else none := by
  unfold parseI64
  split
  · exact absurd (.inl rfl) h
  · exact absurd (.inr rfl) h
  · rfl

lemma parseI64_digits (hw : 0 < w) (h : n < 10 ^ w) (hsmall : n < 2 ^ 63) :
    parseI64 (digits w n) = some (n : Int) := by
  rw [parseI64_of_not_signed (not_signed_digits w n), decimal_digits hw h, Option.bind_some,
    if_pos hsmall]

lemma digits_of_parseI64 {v : Int} (hsign : ¬Signed cs) (h : parseI64 cs = some v) :
    ∃ n : Nat, v = n ∧ cs = digits cs.length n ∧ n < 10 ^ cs.length := by
  rw [parseI64_of_not_signed hsign, Option.bind_eq_some_iff] at h
  obtain ⟨n, hn, h⟩ := h
  split at h
  · cases h
    exact ⟨n, rfl, digits_of_decimal hn⟩
  · cases h

/-- The texts between the separators. -/
structure Texts where
  year : List Char
  month : List Char
  day : List Char
  hour : List Char
  minute : List Char
  second : List Char

namespace Texts

def join (T : Texts) : List Char :=
  T.year ++ '-' :: (T.month ++ '-' :: (T.day ++ 'T' :: (T.hour ++ ':' :: (T.minute ++
    ':' :: (T.second ++ ['Z'])))))

/-- The widths of the format, in bytes. -/
structure Shaped (T : Texts) : Prop where
  year : (bytes T.year).length = 4
  month : (bytes T.month).length = 2
  day : (bytes T.day).length = 2
  hour : (bytes T.hour).length = 2
  minute : (bytes T.minute).length = 2
  second : (bytes T.second).length = 2

/-- The texts are numbers as the integer parser reads them. -/
structure Reads (T : Texts) (f : Fields) : Prop where
  year : parseI64 T.year = some f.year
  month : parseI64 T.month = some f.month
  day : parseI64 T.day = some f.day
  hour : parseI64 T.hour = some f.hour
  minute : parseI64 T.minute = some f.minute
  second : parseI64 T.second = some f.second

def list (T : Texts) : List (List Char) := [T.year, T.month, T.day, T.hour, T.minute, T.second]

end Texts

namespace Fields

/-- The ranges the parser checks. -/
structure InRange (f : Fields) : Prop where
  month : 1 ≤ f.month ∧ f.month ≤ 12
  time : f.hour ≤ 23 ∧ f.minute ≤ 59 ∧ f.second ≤ 59
  day : f.day ≠ 0 ∧ f.day ≤ maxDay f.year f.month

def seconds (f : Fields) : Int :=
  daysFromCivil f.year f.month f.day * 86400 + f.hour * 3600 + f.minute * 60 + f.second

end Fields

lemma secondsOf_eq_ok {f : Fields} {t : Int} : secondsOf f = .ok t ↔ f.InRange ∧ t = f.seconds := by
  unfold secondsOf
  constructor
  · intro h
    split at h
    · cases h
    · next hmonth =>
      split at h
      · cases h
      · next htime =>
        split at h
        · cases h
        · next hday =>
          cases h
          exact ⟨⟨by omega, by omega, by omega⟩, rfl⟩
  · rintro ⟨⟨hmonth, htime, hday⟩, rfl⟩
    rw [if_neg (by omega), if_neg (by omega), if_neg (by omega)]
    rfl

/-- The widths of the fields and the separators behind them. -/
def shape : List (Nat × Char) :=
  [(4, '-'), (2, '-'), (2, 'T'), (2, ':'), (2, ':'), (2, 'Z')]

lemma ascii_shape : ∀ p ∈ shape, p.2.toNat < 128 := by decide

/-- The parser's first two tests ask for the separators at their places. -/
theorem separated_shape {bs : List UInt8} : Separated shape bs ↔ bs.length = 20 ∧
      (separators.any fun p => bs[p.1]? ≠ some (UInt8.ofNat p.2.toNat)) = false := by
  simp only [shape, Separated, separators, any_cons, any_nil, Bool.or_false,
    Bool.or_eq_false_iff, decide_eq_false_iff_not, ne_eq, not_not, drop_drop,
    getElem?_drop, drop_eq_nil_iff]
  constructor
  · rintro ⟨h4, h7, h10, h13, h16, h19, hlen⟩
    have hlt := (List.getElem?_eq_some_iff.mp h19).1
    exact ⟨by omega, h4, h7, h10, h13, h16, h19⟩
  · rintro ⟨hlen, h4, h7, h10, h13, h16, h19⟩
    exact ⟨h4, h7, h10, h13, h16, h19, by omega⟩

lemma join_eq (T : Texts) : T.join = joinAll (T.list.zip (shape.map Prod.snd)) := by
  simp [Texts.join, Texts.list, joinAll, shape]

/-- A string has the separators at their places exactly if it is six texts of the widths. -/
theorem separated_iff_join : Separated shape (bytes cs) ↔ ∃ T : Texts, T.Shaped ∧ cs = T.join := by
  rw [separated_iff ascii_shape]
  constructor
  · rintro ⟨texts, htexts, rfl⟩
    have hlength : texts.length = 6 := by simpa [shape] using congrArg length htexts
    match texts, hlength with
    | [y, mo, d, h, mi, s], _ =>
      simp only [map_cons, map_nil, shape, cons.injEq, and_true] at htexts
      obtain ⟨hy, hmo, hd, hh, hmi, hs⟩ := htexts
      exact ⟨⟨y, mo, d, h, mi, s⟩, ⟨hy, hmo, hd, hh, hmi, hs⟩, (join_eq ⟨y, mo, d, h, mi, s⟩).symm⟩
  · rintro ⟨T, h, rfl⟩
    refine ⟨T.list, ?_, join_eq T⟩
    simp [Texts.list, shape, h.year, h.month, h.day, h.hour, h.minute, h.second]

/-- What the parser slices out of a string of the format. -/
theorem slices_join {T : Texts} (h : T.Shaped) :
    slice? T.join 0 4 = some T.year ∧ slice? T.join 5 7 = some T.month ∧
      slice? T.join 8 10 = some T.day ∧ slice? T.join 11 13 = some T.hour ∧
      slice? T.join 14 16 = some T.minute ∧ slice? T.join 17 19 = some T.second := by
  have hpart : ∀ front back p i j, T.list.zip (shape.map Prod.snd) = front ++ p :: back →
      (∀ q ∈ front, q.2.toNat < 128) → span front = i → i + (bytes p.1).length = j →
      slice? T.join i j = some p.1 := by
    intro front back p i j hsplit hascii hi hj
    rw [join_eq, hsplit]
    exact slice?_part hascii hi hj
  obtain ⟨hy, hmo, hd, hh, hmi, hs⟩ := h
  refine ⟨?_, ?_, ?_, ?_, ?_, ?_⟩
  · exact hpart [] _ (T.year, '-') 0 4 rfl (by simp) rfl (by simp [hy])
  · exact hpart [(T.year, '-')] _ (T.month, '-') 5 7 rfl (by simp) (by simp [span, hy])
      (by simp [hmo])
  · exact hpart [(T.year, '-'), (T.month, '-')] _ (T.day, 'T') 8 10 rfl (by simp)
      (by simp [span, hy, hmo]) (by simp [hd])
  · exact hpart [(T.year, '-'), (T.month, '-'), (T.day, 'T')] _ (T.hour, ':') 11 13 rfl (by simp)
      (by simp [span, hy, hmo, hd]) (by simp [hh])
  · exact hpart [(T.year, '-'), (T.month, '-'), (T.day, 'T'), (T.hour, ':')] _ (T.minute, ':')
      14 16 rfl (by simp) (by simp [span, hy, hmo, hd, hh]) (by simp [hmi])
  · exact hpart [(T.year, '-'), (T.month, '-'), (T.day, 'T'), (T.hour, ':'), (T.minute, ':')] _
      (T.second, 'Z') 17 19 rfl (by simp) (by simp [span, hy, hmo, hd, hh, hmi]) (by simp [hs])

lemma field_eq {text : List Char} {i j : Nat} (h : slice? cs i j = some text) :
    field cs i j = (parseI64 text).elim
      (.error (.timestamp "invalid numeric timestamp component")) .ok := by
  rw [field, h]

lemma field_eq_ok {text : List Char} {i j : Nat} (h : slice? cs i j = some text) {v : Int} :
    field cs i j = .ok v ↔ parseI64 text = some v := by
  rw [field_eq h]
  cases parseI64 text <;> simp

lemma readFields_join {T : Texts} (h : T.Shaped) {f : Fields} :
    readFields T.join = .ok f ↔ T.Reads f := by
  obtain ⟨hy, hmo, hd, hh, hmi, hs⟩ := slices_join h
  constructor
  · intro hread
    obtain ⟨year, hyear, hread⟩ := bind_eq_ok.mp hread
    obtain ⟨month, hmonth, hread⟩ := bind_eq_ok.mp hread
    obtain ⟨day, hday, hread⟩ := bind_eq_ok.mp hread
    obtain ⟨hour, hhour, hread⟩ := bind_eq_ok.mp hread
    obtain ⟨minute, hminute, hread⟩ := bind_eq_ok.mp hread
    obtain ⟨second, hsecond, hread⟩ := bind_eq_ok.mp hread
    cases hread
    exact ⟨(field_eq_ok hy).mp hyear, (field_eq_ok hmo).mp hmonth, (field_eq_ok hd).mp hday,
      (field_eq_ok hh).mp hhour, (field_eq_ok hmi).mp hminute, (field_eq_ok hs).mp hsecond⟩
  · rintro ⟨hyear, hmonth, hday, hhour, hminute, hsecond⟩
    rw [readFields, (field_eq_ok hy).mpr hyear, (field_eq_ok hmo).mpr hmonth,
      (field_eq_ok hd).mpr hday, (field_eq_ok hh).mpr hhour, (field_eq_ok hmi).mpr hminute,
      (field_eq_ok hs).mpr hsecond]
    rfl

/-- What the parser accepts. -/
theorem parse_eq_ok {input : List Char} {t : Int} :
    parseRfc3339Utc input = .ok t ↔ ∃ T : Texts, ∃ f : Fields, T.Shaped ∧ input = T.join ∧
      T.Reads f ∧ f.InRange ∧ t = f.seconds := by
  constructor
  · intro h
    unfold parseRfc3339Utc at h
    split at h
    · cases h
    · next hlen =>
      split at h
      · cases h
      · next hsep =>
        obtain ⟨T, hT, rfl⟩ := separated_iff_join.mp
          (separated_shape.mpr ⟨not_not.mp hlen, by simpa using hsep⟩)
        obtain ⟨f, hf, h⟩ := bind_eq_ok.mp h
        obtain ⟨hrange, ht⟩ := secondsOf_eq_ok.mp h
        exact ⟨T, f, hT, rfl, (readFields_join hT).mp hf, hrange, ht⟩
  · rintro ⟨T, f, hT, rfl, hf, hrange, rfl⟩
    obtain ⟨hlen, hsep⟩ := separated_shape.mp (separated_iff_join.mpr ⟨T, hT, rfl⟩)
    rw [parseRfc3339Utc, if_neg (not_not.mpr hlen), hsep, if_neg Bool.false_ne_true,
      (readFields_join hT).mpr hf, ok_bind]
    exact secondsOf_eq_ok.mpr ⟨hrange, rfl⟩

/-- No slice cuts a character: the bytes beside a separator start one. -/
theorem parse_no_panic : parseRfc3339Utc input ≠ .error .notCharBoundary := by
  intro h
  unfold parseRfc3339Utc at h
  split at h
  · cases h
  · next hlen =>
    split at h
    · cases h
    · next hsep =>
      obtain ⟨T, hT, rfl⟩ := separated_iff_join.mp
        (separated_shape.mpr ⟨not_not.mp hlen, by simpa using hsep⟩)
      obtain ⟨hy, hmo, hd, hh, hmi, hs⟩ := slices_join hT
      have hfield : ∀ {text : List Char} {i j : Nat}, slice? T.join i j = some text →
          field T.join i j ≠ .error .notCharBoundary := by
        intro text i j hslice
        rw [field_eq hslice]
        cases parseI64 text <;> simp
      have hlast : ∀ f : Fields, secondsOf f ≠ .error .notCharBoundary := by
        intro f
        unfold secondsOf
        split
        · simp
        · split
          · simp
          · split <;> simp
      rcases bind_eq_error.mp h with h | ⟨f, -, h⟩
      · rcases bind_eq_error.mp h with h | ⟨_, -, h⟩
        · exact hfield hy h
        rcases bind_eq_error.mp h with h | ⟨_, -, h⟩
        · exact hfield hmo h
        rcases bind_eq_error.mp h with h | ⟨_, -, h⟩
        · exact hfield hd h
        rcases bind_eq_error.mp h with h | ⟨_, -, h⟩
        · exact hfield hh h
        rcases bind_eq_error.mp h with h | ⟨_, -, h⟩
        · exact hfield hmi h
        rcases bind_eq_error.mp h with h | ⟨_, -, h⟩
        · exact hfield hs h
        · cases h
      · exact hlast f h

namespace Stamp

def texts (s : Stamp) : Texts where
  year := digits 4 s.date.year
  month := digits 2 s.date.month
  day := digits 2 s.date.day
  hour := digits 2 s.hour
  minute := digits 2 s.minute
  second := digits 2 s.second

lemma text_eq_join (s : Stamp) : s.text = s.texts.join := rfl

def fields (s : Stamp) : Fields where
  year := s.date.year
  month := s.date.month
  day := s.date.day
  hour := s.hour
  minute := s.minute
  second := s.second

lemma length_bytes_digits (w n : Nat) : (bytes (digits w n)).length = w := by
  have hascii : ∀ c ∈ digits w n, c.toNat < 128 := by
    intro c hc
    have hdigit := isDigit_of_mem_digits hc
    have hle : c.toNat ≤ 57 := by
      simp only [Char.isDigit, Bool.and_eq_true, decide_eq_true_eq, UInt32.le_iff_toNat_le]
        at hdigit
      exact hdigit.2
    omega
  rw [length_bytes_ascii hascii, length_digits]

lemma shaped_texts (s : Stamp) : s.texts.Shaped := by
  constructor <;> exact length_bytes_digits _ _

lemma reads_texts (h : s.Valid) : s.texts.Reads s.fields := by
  have htwo : ∀ n, n ≤ 99 → parseI64 (digits 2 n) = some (n : Int) :=
    fun n hn => parseI64_digits (by decide) (by omega) (by omega)
  have hyear := h.year
  have hmonth := h.date.month_le
  have hhour := h.hour
  have hminute := h.minute
  have hsecond := h.second
  have hday := h.date.day_le.trans (monthLength_le _ _)
  constructor
  · exact parseI64_digits (by decide) (by omega) (by omega)
  · exact htwo _ (by omega)
  · exact htwo _ (by omega)
  · exact htwo _ (by omega)
  · exact htwo _ (by omega)
  · exact htwo _ (by omega)

end Stamp

/-- The last day the parser grants a month is the calendar's. -/
theorem maxDay_eq {y m : Nat} (hm : 1 ≤ m) (hm' : m ≤ 12) : maxDay y m = monthLength y m := by
  have hleap := @isLeap_iff y
  have hiff : (((y : Int) % 4 = 0 ∧ (y : Int) % 100 ≠ 0) ∨ (y : Int) % 400 = 0) ↔
      isLeap y = true := by
    rw [hleap]
    omega
  unfold maxDay
  simp only [hiff]
  cases h : isLeap y <;> interval_cases m <;> simp [monthLength, h]

/-- Fields without a sign are those of a second of the calendar. -/
theorem exists_stamp_of_reads {T : Texts} {f : Fields} (hT : T.Shaped) (hf : T.Reads f)
    (hrange : f.InRange) (hsign : ∀ text ∈ T.list, ¬Signed text) :
    ∃ s : Stamp, s.Valid ∧ s.texts = T ∧ s.fields = f := by
  have hread : ∀ {text : List Char} {v : Int} {w : Nat}, text ∈ T.list →
      (bytes text).length = w → parseI64 text = some v →
        ∃ n : Nat, v = n ∧ text = digits w n ∧ n < 10 ^ w := by
    intro text v w hmem hw hv
    obtain ⟨n, hn, htext, hlt⟩ := digits_of_parseI64 (hsign text hmem) hv
    have hbytes := Stamp.length_bytes_digits text.length n
    rw [← htext] at hbytes
    have hlen : text.length = w := hbytes.symm.trans hw
    rw [hlen] at htext hlt
    exact ⟨n, hn, htext, hlt⟩
  obtain ⟨y, hy, hytext, hylt⟩ := hread (by simp [Texts.list]) hT.year hf.year
  obtain ⟨mo, hmo, hmotext, -⟩ := hread (by simp [Texts.list]) hT.month hf.month
  obtain ⟨d, hd, hdtext, -⟩ := hread (by simp [Texts.list]) hT.day hf.day
  obtain ⟨h, hh, hhtext, -⟩ := hread (by simp [Texts.list]) hT.hour hf.hour
  obtain ⟨mi, hmi, hmitext, -⟩ := hread (by simp [Texts.list]) hT.minute hf.minute
  obtain ⟨sec, hsec, hsectext, -⟩ := hread (by simp [Texts.list]) hT.second hf.second
  obtain ⟨hmonth, htime, hday⟩ := hrange
  rw [hy, hmo] at hday
  rw [hmo] at hmonth
  rw [hh, hmi, hsec] at htime
  rw [hd, maxDay_eq (by omega) (by omega)] at hday
  have hdate : (⟨y, mo, d⟩ : Date).Valid := by
    constructor <;> simp only <;> omega
  have hvalid : (⟨⟨y, mo, d⟩, h, mi, sec⟩ : Stamp).Valid := by
    constructor
    · exact hdate
    · simp only
      omega
    · simp only
      omega
    · simp only
      omega
    · simp only
      omega
  refine ⟨⟨⟨y, mo, d⟩, h, mi, sec⟩, hvalid, ?_, ?_⟩
  · obtain ⟨_, _, _, _, _, _⟩ := T
    simp only at hytext hmotext hdtext hhtext hmitext hsectext
    simp only [Stamp.texts, ← hytext, ← hmotext, ← hdtext, ← hhtext, ← hmitext, ← hsectext]
  · obtain ⟨_, _, _, _, _, _⟩ := f
    simp only at hy hmo hd hh hmi hsec
    simp only [Stamp.fields, ← hy, ← hmo, ← hd, ← hh, ← hmi, ← hsec]

lemma inRange_fields (h : s.Valid) : s.fields.InRange := by
  obtain ⟨⟨hm, hm', hd, hd'⟩, hy, hh, hmi, hs⟩ := h
  have hmax := @maxDay_eq s.date.year s.date.month hm hm'
  constructor <;> simp only [Stamp.fields] <;> omega

lemma seconds_fields (h : s.Valid) : s.fields.seconds = s.seconds := by
  simp only [Fields.seconds, Stamp.fields, Stamp.seconds, daysFromCivil_date h.date]

lemma parse_text (h : s.Valid) : parseRfc3339Utc s.text = .ok s.seconds :=
  parse_eq_ok.mpr ⟨s.texts, s.fields, s.shaped_texts, s.text_eq_join, s.reads_texts h,
    inRange_fields h, (seconds_fields h).symm⟩

lemma formatInt_eq (h : n < 10 ^ (w + 1)) : formatInt (w + 1) n = digits (w + 1) n := by
  have hnot : ¬(n : Int) < 0 := by omega
  rw [formatInt, if_neg hnot, Int.toNat_natCast, padded_eq_digits h]

lemma format_seconds (h : s.Valid) : formatEpochSecs s.seconds = s.text := by
  obtain ⟨hdate, hy, hh, hmi, hs⟩ := h
  have hday : s.seconds % 86400 = s.hour * 3600 + s.minute * 60 + s.second := by
    unfold Stamp.seconds
    omega
  have hdays : (s.seconds - s.seconds % 86400) / 86400 = (s.date.number : Int) - 719528 := by
    rw [hday]
    unfold Stamp.seconds
    omega
  have hhour : s.seconds % 86400 / 3600 = s.hour := by omega
  have hminute : s.seconds % 86400 % 3600 / 60 = s.minute := by omega
  have hsecond : s.seconds % 86400 % 60 = s.second := by omega
  have hm := hdate.month_le
  have hdaylen := hdate.day_le.trans (monthLength_le _ _)
  simp only [formatEpochSecs, hdays, civilFromDays_number hdate, hhour, hminute, hsecond, stampText]
  rw [formatInt_eq (show s.date.year < 10 ^ (3 + 1) by omega),
    formatInt_eq (show s.date.month < 10 ^ (1 + 1) by omega),
    formatInt_eq (show s.date.day < 10 ^ (1 + 1) by omega),
    formatInt_eq (show s.hour < 10 ^ (1 + 1) by omega),
    formatInt_eq (show s.minute < 10 ^ (1 + 1) by omega),
    formatInt_eq (show s.second < 10 ^ (1 + 1) by omega)]
  rfl

/-- Every second of the years 0 to 9999 is one of the calendar. -/
theorem exists_stamp {t : Int} (h0 : -62167219200 ≤ t) (h1 : t < 253402300800) :
    ∃ s : Stamp, s.Valid ∧ s.seconds = t := by
  obtain ⟨d, hd, hnumber⟩ := exists_date ((t + 62167219200) / 86400).toNat
  have hyear : d.year ≤ 9999 := by
    have hstart := yearStart_eq d.year
    have hle : yearStart d.year ≤ d.number := by
      unfold Date.number
      omega
    omega
  refine ⟨⟨d, (t % 86400 / 3600).toNat, (t % 86400 % 3600 / 60).toNat, (t % 86400 % 60).toNat⟩,
    ⟨hd, hyear, ?_, ?_, ?_⟩, ?_⟩ <;> simp only [Stamp.seconds, hnumber] <;> omega

/-- A string of the format with its numbers in range, some of them signed. -/
def SignedStamp : Prop :=
  ∃ T : Texts, ∃ f : Fields, T.Shaped ∧ input = T.join ∧ T.Reads f ∧ f.InRange ∧
    ∃ text ∈ T.list, Signed text

/-- Equal strings of the format have equal texts. -/
theorem texts_unique {T T' : Texts} (hT : T.Shaped) (hT' : T'.Shaped) (h : T.join = T'.join) :
    T = T' := by
  obtain ⟨hy, hmo, hd, hh, hmi, hs⟩ := slices_join hT
  obtain ⟨hy', hmo', hd', hh', hmi', hs'⟩ := slices_join hT'
  rw [h] at hy hmo hd hh hmi hs
  obtain ⟨y, mo, d, h, mi, s⟩ := T
  simp only at hy hmo hd hh hmi hs
  rw [Option.some.inj (hy.symm.trans hy'), Option.some.inj (hmo.symm.trans hmo'),
    Option.some.inj (hd.symm.trans hd'), Option.some.inj (hh.symm.trans hh'),
    Option.some.inj (hmi.symm.trans hmi'), Option.some.inj (hs.symm.trans hs')]

lemma strict_iff : Strict input ↔ ¬SignedStamp input := by
  constructor
  · rintro ⟨-, hstrict⟩ ⟨T, f, hT, rfl, hf, hrange, text, htext, hsign⟩
    obtain ⟨-, s, -, hjoin, -⟩ :=
      hstrict f.seconds (parse_eq_ok.mpr ⟨T, f, hT, rfl, hf, hrange, rfl⟩)
    have hsame : s.texts = T := texts_unique s.shaped_texts hT (s.text_eq_join ▸ hjoin)
    subst hsame
    simp only [Texts.list, Stamp.texts, mem_cons, not_mem_nil, or_false] at htext
    rcases htext with rfl | rfl | rfl | rfl | rfl | rfl <;>
      exact not_signed_digits _ _ hsign
  · intro hnot
    refine ⟨parse_no_panic input, fun t ht => ?_⟩
    obtain ⟨T, f, hT, rfl, hf, hrange, rfl⟩ := parse_eq_ok.mp ht
    have hsign : ∀ text ∈ T.list, ¬Signed text :=
      fun text htext hs => hnot ⟨T, f, hT, rfl, hf, hrange, text, htext, hs⟩
    obtain ⟨s, hs, rfl, rfl⟩ := exists_stamp_of_reads hT hf hrange hsign
    rw [seconds_fields hs]
    exact ⟨format_seconds hs, s, hs, rfl, rfl⟩

/-- Formatting is exact and parsing inverts it. Parsing is strict but for signs in the fields. -/
theorem timestamps_exact_iff (input : List Char) :
    (∀ t : Int, -62167219200 ≤ t → t < 253402300800 →
      ∃ s : Stamp, s.Valid ∧ s.seconds = t ∧ formatEpochSecs t = s.text ∧
        parseRfc3339Utc (formatEpochSecs t) = .ok t) ∧
    (Strict input ↔ ¬SignedStamp input) := by
  refine ⟨fun t h0 h1 => ?_, strict_iff input⟩
  obtain ⟨s, hs, rfl⟩ := exists_stamp h0 h1
  refine ⟨s, hs, rfl, format_seconds hs, ?_⟩
  rw [format_seconds hs, parse_text hs]

/-- A signed second is accepted, and formats to another string. -/
theorem signed_second_accepted : parseRfc3339Utc "2026-02-20T21:39:+5Z".toList = .ok 1771623545 ∧
      formatEpochSecs 1771623545 = "2026-02-20T21:39:05Z".toList := by
  decide

end Timestamp
