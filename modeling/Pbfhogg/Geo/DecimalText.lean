import Mathlib.Data.List.TakeWhile
import Pbfhogg.Lib.Fallible
import Pbfhogg.Lib.Numeral

/-!
# Coordinates as decimal text

`quantize_decimal_text` of `geo.rs`. A string is its characters: a byte is an ASCII digit, sign, point
or exponent mark only as such a character. Each `i64` and `u64` operation is checked.
-/

namespace DecimalText

open Fallible Numeral List

variable {c : Char} {s a b rest token whole frac : List Char} {neg : Bool} {p : Char → Bool}
  {digits : List Nat} {scale e : Int}

/-- No number (`None`), or an operation outside its type. -/
inductive Stop
  | refused
  | overflow

def u64 (x : Nat) : Except Stop Nat := if x < 2 ^ 64 then .ok x else .error .overflow

def i64 (x : Int) : Except Stop Int :=
  if -2 ^ 63 ≤ x ∧ x < 2 ^ 63 then .ok x else .error .overflow

/-- `i64::try_from(x).ok()?` -/
def tryI64 (x : Nat) : Except Stop Int := if x < 2 ^ 63 then .ok x else .error .refused

/-- `i32::try_from(x).ok()` -/
def tryI32 (x : Int) : Except Stop Int32 :=
  if -2 ^ 31 ≤ x ∧ x < 2 ^ 31 then .ok (Int32.ofInt x) else .error .refused

/-- `char::is_whitespace`: the characters of the Unicode property. -/
def isWhitespace (c : Char) : Bool :=
  let n := c.toNat
  (9 ≤ n && n ≤ 13) || n == 0x20 || n == 0x85 || n == 0xA0 || n == 0x1680 ||
    (0x2000 ≤ n && n ≤ 0x200A) || n == 0x2028 || n == 0x2029 || n == 0x202F || n == 0x205F ||
    n == 0x3000

def trim (s : List Char) : List Char :=
  ((s.dropWhile isWhitespace).reverse.dropWhile isWhitespace).reverse

def splitSign : List Char → Bool × List Char
  | '-' :: s => (true, s)
  | '+' :: s => (false, s)
  | s => (false, s)

/-- The text in front of the first such character and the text behind it. -/
def splitFirst (p : Char → Bool) (s : List Char) : Option (List Char × List Char) :=
  match s.dropWhile (!p ·) with
  | [] => none
  | _ :: rest => some (s.takeWhile (!p ·), rest)

def digit (c : Char) : Nat := c.toNat - '0'.toNat

def digitsValue (digits : List Nat) : Except Stop Nat :=
  digits.foldlM (fun acc d => do u64 ((← u64 (acc * 10)) + d)) 0

def parseExponent (s : List Char) : Except Stop Int := do
  let (negative, digits) := splitSign s
  if digits.isEmpty || !digits.all Char.isDigit then .error .refused
  else
    let value ← digits.foldlM (fun acc c => do
      return min (← i64 ((← i64 (acc * 10)) + digit c)) 100000) 0
    if negative then i64 (-value) else .ok value

def splitExponent (s : List Char) : Except Stop (List Char × Int) :=
  match splitFirst (fun c => c == 'e' || c == 'E') s with
  | some (mantissa, exponent) => do return (mantissa, ← parseExponent exponent)
  | none => .ok (s, 0)

/-- The sign, the digits on both sides of the point and the exponent. -/
def readParts (s : List Char) : Except Stop (Bool × List Char × List Char × Int) := do
  let (negative, s) := splitSign s
  let (mantissa, exponent) ← splitExponent s
  let (intPart, fracPart) := (splitFirst (· == '.') mantissa).getD (mantissa, [])
  if intPart.isEmpty && fracPart.isEmpty then .error .refused
  else if !(intPart ++ fracPart).all Char.isDigit then .error .refused
  else .ok (negative, intPart, fracPart, exponent)

/-- `for _ in 0..scale { q *= 10; }` -/
def scaleUp : Nat → Nat → Except Stop Nat
  | 0, q => .ok q
  | n + 1, q => do scaleUp n (← u64 (q * 10))

def magnitude (digits : List Nat) (scale : Int) : Except Stop Nat := do
  let len ← tryI64 digits.length
  if digits.isEmpty then .ok 0
  else if 0 ≤ scale then
    if 10 < (← i64 (len + scale)) then .error .refused
    else scaleUp scale.toNat (← digitsValue digits)
  else
    let keep ← i64 (len + scale)
    if keep < 0 then .ok 0
    else if 10 < keep then .error .refused
    else
      let roundUp := digits[keep.toNat]?.any (5 ≤ ·)
      u64 ((← digitsValue (digits.take keep.toNat)) + roundUp.toNat)

def quantizeDecimalText (token : List Char) : Except Stop Int32 := do
  let (negative, intPart, fracPart, exponent) ← readParts (trim token)
  let digits := ((intPart ++ fracPart).map digit).dropWhile (· == 0)
  let fracLen ← tryI64 (fracPart.map Char.utf8Size).sum
  let scale ← i64 ((← i64 (exponent - fracLen)) + 7)
  let magnitude ← tryI64 (← magnitude digits scale)
  tryI32 (← if negative then i64 (-magnitude) else .ok magnitude)

/-- A decimal number in its written form. -/
structure Decimal where
  negative : Bool
  whole : List Char
  frac : List Char
  exponent : Int
  digits : ∀ c ∈ whole ++ frac, c.isDigit
  nonempty : whole ++ frac ≠ []

inductive Sign : List Char → Bool → Prop
  | none : Sign [] false
  | plus : Sign ['+'] false
  | minus : Sign ['-'] true

inductive Fraction : List Char → List Char → Prop
  | none : Fraction [] []
  | point (digits : List Char) : Fraction ('.' :: digits) digits

/-- The number a text of digits spells. -/
def number (text : List Char) : Nat := numeral (text.map digit)

def signed (negative : Bool) (n : Int) : Int := if negative then -n else n

inductive Exponent : List Char → Int → Prop
  | none : Exponent [] 0
  | some {mark : Char} {sign : List Char} {negative : Bool} {digits : List Char} :
      mark = 'e' ∨ mark = 'E' → Sign sign negative → digits ≠ [] → (∀ c ∈ digits, c.isDigit) →
      Exponent (mark :: (sign ++ digits)) (signed negative (number digits))

/-- The text is the number in writing. -/
def Spells (text : List Char) (d : Decimal) : Prop :=
  ∃ sign point exponent, text = sign ++ (d.whole ++ point) ++ exponent ∧
    Sign sign d.negative ∧ Fraction point d.frac ∧ Exponent exponent d.exponent

def Decimal.value (d : Decimal) : ℚ :=
  (if d.negative then -1 else 1) * (number d.whole + number d.frac / 10 ^ d.frac.length) *
    10 ^ d.exponent

/-- The nearest integer, a half away from zero. -/
def halfAway (x : ℚ) : Int := if x < 0 then -⌊-x + 1 / 2⌋ else ⌊x + 1 / 2⌋

/-- In decimicrodegrees. -/
def Decimal.quantized (d : Decimal) : Int := halfAway (d.value * 10 ^ 7)

lemma splitSign_sound (s : List Char) :
    ∃ sign, Sign sign (splitSign s).1 ∧ s = sign ++ (splitSign s).2 := by
  unfold splitSign
  split
  · exact ⟨_, .minus, rfl⟩
  · exact ⟨_, .plus, rfl⟩
  · exact ⟨_, .none, rfl⟩

lemma splitSign_append {sign : List Char} (hsign : Sign sign neg)
    (hrest : ∀ c ∈ rest.head?, c ≠ '-' ∧ c ≠ '+') : splitSign (sign ++ rest) = (neg, rest) := by
  cases hsign with
  | plus => rfl
  | minus => rfl
  | none =>
    rw [nil_append, splitSign.eq_def]
    split
    · exact absurd rfl (hrest _ rfl).1
    · exact absurd rfl (hrest _ rfl).2
    · rfl

lemma splitFirst_sound {parts : List Char × List Char} (h : splitFirst p s = some parts) :
    ∃ c, p c ∧ s = parts.1 ++ c :: parts.2 := by
  unfold splitFirst at h
  split at h
  · cases h
  next c rest hdrop =>
    obtain rfl := Option.some.inj h
    have hfirst := head?_dropWhile_not (!p ·) s
    rw [hdrop] at hfirst
    refine ⟨c, by simpa using hfirst, ?_⟩
    rw [← hdrop, takeWhile_append_dropWhile]

lemma splitFirst_append (ha : ∀ x ∈ a, p x = false) (hc : p c) :
    splitFirst p (a ++ c :: b) = some (a, b) := by
  have hall : ∀ x ∈ a, (!p x) = true := fun x hx => by rw [ha x hx]; rfl
  rw [splitFirst, dropWhile_append_of_pos hall, takeWhile_append_of_pos hall]
  simp [hc]

lemma splitFirst_none (h : ∀ x ∈ s, p x = false) : splitFirst p s = none := by
  have hdrop : s.dropWhile (!p ·) = [] :=
    dropWhile_eq_nil_iff.mpr fun x hx => by simp [h x hx]
  rw [splitFirst, hdrop]

lemma digit_ne (h : c.isDigit) : c ≠ '-' ∧ c ≠ '+' ∧ c ≠ '.' ∧ c ≠ 'e' ∧ c ≠ 'E' := by
  refine ⟨?_, ?_, ?_, ?_, ?_⟩ <;> rintro rfl <;> exact absurd h (by decide)

lemma digit_lt (h : c.isDigit) : digit c < 10 := by
  have hle := (Char.isDigit_iff_toNat.mp h).2
  exact Nat.lt_of_le_of_lt (Nat.sub_le_sub_right hle _) (by decide)

lemma digits_lt (h : ∀ c ∈ s, c.isDigit) : ∀ d ∈ s.map digit, d < 10 := by
  intro d hd
  obtain ⟨c, hc, rfl⟩ := mem_map.mp hd
  exact digit_lt (h c hc)

lemma utf8Size_digits (h : ∀ c ∈ s, c.isDigit) : (s.map Char.utf8Size).sum = s.length := by
  induction s with
  | nil => rfl
  | cons c s ih =>
    have hc : c.utf8Size = 1 := by
      have hle : c.val.toNat ≤ 57 := (Char.isDigit_iff_toNat.mp (h c mem_cons_self)).2
      exact Char.utf8Size_eq_one_iff.mpr (UInt32.le_iff_toNat_le.mpr (le_trans hle (by decide)))
    rw [map_cons, sum_cons, hc, ih fun x hx => h x (mem_cons_of_mem _ hx),
      length_cons, add_comm]

/-- The exponent as the reader keeps it. -/
def saturate (e : Int) : Int := max (-100000) (min e 100000)

lemma exponentDigits_ok (h : ∀ c ∈ s, c.isDigit) :
    s.foldlM (fun acc c => do
      return min (← i64 ((← i64 (acc * 10)) + digit c)) 100000) (0 : Int) =
      .ok (min (number s) 100000) := by
  induction s using reverseRecOn with
  | nil => rfl
  | append_singleton s c ih =>
    have hc := digit_lt (h c (by simp))
    rw [foldlM_append, ih fun x hx => h x (mem_append_left _ hx)]
    have hnumber : number (s ++ [c]) = number s * 10 + digit c := by
      simp [number, numeral_append]
    simp only [ok_bind, foldlM_cons, foldlM_nil, i64, hnumber]
    rw [if_pos (by omega), ok_bind, if_pos (by omega)]
    simp only [pure, Except.pure, Except.bind, bind]
    congr 1
    omega

lemma parseExponent_eq (hsign : splitSign s = (neg, rest)) :
    parseExponent s = if rest.isEmpty || !rest.all Char.isDigit then .error .refused
      else .ok (saturate (signed neg (number rest))) := by
  simp only [parseExponent, hsign]
  split
  · rfl
  next hgood =>
    have hdigits : ∀ c ∈ rest, c.isDigit := by
      simpa using (Bool.or_eq_false_iff.mp (Bool.eq_false_of_not_eq_true hgood)).2
    rw [exponentDigits_ok hdigits, ok_bind]
    cases neg
    · simp [saturate, signed]
    · simp only [saturate, signed, if_true, i64]
      rw [if_pos (by omega)]
      congr 1
      omega

lemma readParts_sound {parts : Bool × List Char × List Char × Int} (h : readParts s = .ok parts) :
    ∃ d, parts = (d.negative, d.whole, d.frac, saturate d.exponent) ∧ Spells s d := by
  obtain ⟨sign, hsign, htext⟩ := splitSign_sound s
  unfold readParts at h
  obtain ⟨⟨mantissa, e⟩, hread, h⟩ := bind_eq_ok.mp h
  have hexponent : ∃ exponent exact, (splitSign s).2 = mantissa ++ exponent ∧
      Exponent exponent exact ∧ e = saturate exact := by
    unfold splitExponent at hread
    split at hread
    next mantissa' text hsplit =>
      obtain ⟨c, hc, hrest⟩ := splitFirst_sound hsplit
      obtain ⟨e', hparse, heq⟩ := bind_eq_ok.mp hread
      cases heq
      obtain ⟨sign', hsign', htext'⟩ := splitSign_sound text
      generalize hst : splitSign text = st at hsign' htext'
      obtain ⟨neg, rest⟩ := st
      rw [parseExponent_eq hst] at hparse
      split at hparse
      · cases hparse
      next hgood =>
        simp only [Bool.or_eq_true, not_or, List.isEmpty_iff, Bool.not_eq_true,
          Bool.not_eq_false', List.all_eq_true] at hgood
        refine ⟨_, _, hrest, ?_, (Except.ok.inj hparse).symm⟩
        have hsome := Exponent.some (by simpa using hc) hsign' hgood.1 hgood.2
        rwa [← htext'] at hsome
    · cases hread
      exact ⟨[], 0, (List.append_nil _).symm, .none, rfl⟩
  obtain ⟨exponent, exact, hmantissa, hexponent, rfl⟩ := hexponent
  have hpoint : ∃ whole point frac,
      (splitFirst (· == '.') mantissa).getD (mantissa, []) = (whole, frac) ∧
      mantissa = whole ++ point ∧ Fraction point frac := by
    cases hsplit : splitFirst (· == '.') mantissa with
    | none => exact ⟨mantissa, [], [], rfl, (List.append_nil _).symm, .none⟩
    | some parts =>
      obtain ⟨c, hc, hparts⟩ := splitFirst_sound hsplit
      obtain rfl : c = '.' := by simpa using hc
      exact ⟨parts.1, _, parts.2, rfl, hparts, .point _⟩
  obtain ⟨whole, point, frac, hdot, rfl, hpoint⟩ := hpoint
  simp only [hdot] at h
  split at h
  · cases h
  next hempty =>
    split at h
    · cases h
    next hall =>
      cases h
      refine ⟨⟨(splitSign s).1, whole, frac, exact,
        by simpa [-List.all_append] using hall, ?_⟩, rfl, sign, point,
        exponent, ?_, hsign, hpoint, hexponent⟩
      · intro hnil
        exact hempty (by simp [List.append_eq_nil_iff.mp hnil])
      · rw [List.append_assoc, ← hmantissa, ← htext]

lemma readParts_complete {d : Decimal} (h : Spells s d) :
    readParts s = .ok (d.negative, d.whole, d.frac, saturate d.exponent) := by
  obtain ⟨negative, whole, frac, e, hdigit, hnonempty⟩ := d
  obtain ⟨sign, point, exponent, rfl, hsign, hpoint, hexponent⟩ := h
  have hwhole : ∀ c ∈ whole, c.isDigit := fun c hc => hdigit c (mem_append_left _ hc)
  have hfrac : ∀ c ∈ frac, c.isDigit := fun c hc => hdigit c (mem_append_right _ hc)
  have hmantissa : ∀ c ∈ whole ++ point, c.isDigit ∨ c = '.' := by
    intro c hc
    rcases mem_append.mp hc with hc | hc
    · exact .inl (hwhole c hc)
    · cases hpoint with
      | none => cases hc
      | point => exact (mem_cons.mp hc).elim .inr fun hc => .inl (hfrac c hc)
  have hne : whole ++ point ≠ [] := by
    cases hpoint with
    | none => exact hnonempty
    | point => simp
  have hplain : ∀ c ∈ whole ++ point, (c == 'e' || c == 'E') = false := by
    intro c hc
    rcases hmantissa c hc with hc | rfl
    · simp [digit_ne hc]
    · rfl
  have hsplit : splitSign (sign ++ (whole ++ point) ++ exponent) =
      (negative, whole ++ point ++ exponent) := by
    rw [append_assoc]
    refine splitSign_append hsign fun c hc => ?_
    rw [head?_append_of_ne_nil _ hne] at hc
    rcases hmantissa c (mem_of_mem_head? hc) with hc | rfl
    · exact ⟨(digit_ne hc).1, (digit_ne hc).2.1⟩
    · decide
  have hdot : (splitFirst (· == '.') (whole ++ point)).getD (whole ++ point, []) =
      (whole, frac) := by
    have hnodot : ∀ c ∈ whole, (c == '.') = false := fun c hc => by
      simpa using (digit_ne (hwhole c hc)).2.2.1
    cases hpoint with
    | none => rw [append_nil, splitFirst_none hnodot]; rfl
    | point => rw [splitFirst_append hnodot rfl]; rfl
  have hempty : ¬ (whole.isEmpty && frac.isEmpty) = true := by
    simpa using hnonempty
  have hall : ¬ (!(whole ++ frac).all Char.isDigit) = true := by
    simpa [-all_append] using hdigit
  simp only [readParts, hsplit, splitExponent]
  cases hexponent with
  | none =>
    rw [append_nil, splitFirst_none hplain]
    simp only [ok_bind, hdot, if_neg hempty, if_neg hall]
    rfl
  | @some mark sign' negative' digits hmark hsign' hne hdigits =>
    have hparse : parseExponent (sign' ++ digits) =
        .ok (saturate (signed negative' (number digits))) := by
      have hhead : ∀ c ∈ digits.head?, c ≠ '-' ∧ c ≠ '+' := fun c hc =>
        have := digit_ne (hdigits c (mem_of_mem_head? hc))
        ⟨this.1, this.2.1⟩
      rw [parseExponent_eq (splitSign_append hsign' hhead), if_neg]
      simpa using ⟨hne, hdigits⟩
    rw [splitFirst_append hplain (by rcases hmark with rfl | rfl <;> rfl)]
    simp only [hparse, ok_bind, pure, Except.pure, hdot, if_neg hempty, if_neg hall]
    rfl

lemma readParts_ne_overflow (s : List Char) : readParts s ≠ .error .overflow := by
  intro h
  unfold readParts at h
  rcases bind_eq_error.mp h with hexponent | ⟨⟨mantissa, e⟩, -, h⟩
  · unfold splitExponent at hexponent
    split at hexponent
    next mantissa text hsplit =>
      rcases bind_eq_error.mp hexponent with hparse | ⟨_, -, hpure⟩
      · rw [@parseExponent_eq text (splitSign text).2 (splitSign text).1 rfl] at hparse
        split at hparse <;> cases hparse
      · cases hpure
    · cases hexponent
  · dsimp only at h
    split at h
    · cases h
    · split at h <;> cases h

lemma Spells.length_le {d : Decimal} (h : Spells s d) :
    d.whole.length + d.frac.length ≤ s.length := by
  obtain ⟨sign, point, exponent, rfl, -, hpoint, -⟩ := h
  have hle : d.frac.length ≤ point.length := by
    generalize d.frac = frac at hpoint
    cases hpoint <;> simp
  simp only [length_append]
  omega

lemma length_trim_le (s : List Char) : (trim s).length ≤ s.length := by
  rw [trim, length_reverse]
  refine le_trans (length_dropWhile_le _ _) ?_
  rw [length_reverse]
  exact length_dropWhile_le _ _

lemma digitsValue_ok {ds : List Nat} (hd : ∀ d ∈ ds, d < 10) (hlen : ds.length ≤ 10) :
    digitsValue ds = .ok (numeral ds) := by
  unfold digitsValue
  induction ds using reverseRecOn with
  | nil => rfl
  | append_singleton ds d ih =>
    rw [length_append, length_singleton] at hlen
    have hds : ∀ x ∈ ds, x < 10 := fun x hx => hd x (mem_append_left _ hx)
    have hlast := hd d (by simp)
    have hlt : numeral ds < 10 ^ 9 :=
      lt_of_lt_of_le (numeral_lt hds) (Nat.pow_le_pow_right (by omega) (by omega))
    rw [foldlM_append, ih hds (by omega)]
    have hnumeral : numeral (ds ++ [d]) = numeral ds * 10 + d := by simp [numeral_append]
    simp only [ok_bind, foldlM_cons, foldlM_nil, u64, hnumeral]
    rw [if_pos (by omega), ok_bind, if_pos (by omega)]
    rfl

lemma scaleUp_ok {n q : Nat} (h : q * 10 ^ n < 2 ^ 64) : scaleUp n q = .ok (q * 10 ^ n) := by
  induction n generalizing q with
  | zero => simp [scaleUp]
  | succ n ih =>
    have hnext : q * 10 * 10 ^ n < 2 ^ 64 := by rwa [pow_succ', ← mul_assoc] at h
    have hten : q * 10 < 2 ^ 64 :=
      lt_of_le_of_lt (Nat.le_mul_of_pos_right _ (by positivity)) hnext
    rw [scaleUp, u64, if_pos hten, ok_bind, ih hnext, pow_succ', mul_assoc]

/-- A magnitude is the rounded number or is refused past any coordinate. -/
def Judged (m : Except Stop Nat) (r : Int) : Prop :=
  (m = .ok r.toNat ∧ r ≤ 10 ^ 10) ∨ (m = .error .refused ∧ 10 ^ 10 ≤ r)

lemma magnitude_judged {ds : List Nat} (hd : ∀ d ∈ ds, d < 10) (hlead : ds.head? ≠ some 0)
    (hlen : ds.length < 2 ^ 62) (hscale : -2 ^ 62 ≤ scale ∧ scale < 2 ^ 62) :
    Judged (magnitude ds scale) (rounded (numeral ds) scale) := by
  have hpos := rounded_nonneg (numeral ds) scale
  have hsum : i64 (ds.length + scale) = .ok (ds.length + scale) := if_pos (by omega)
  simp only [magnitude, tryI64, if_pos (show ds.length < 2 ^ 63 by omega), ok_bind]
  split
  next hnil =>
    rw [List.isEmpty_iff] at hnil
    subst hnil
    exact .inl (by simp)
  next hne =>
    rw [List.isEmpty_iff] at hne
    split
    next hup =>
      simp only [hsum, ok_bind]
      obtain ⟨n, rfl⟩ := Int.eq_ofNat_of_zero_le hup
      split
      next hlong => exact .inr ⟨rfl, le_rounded hlead hne (by exact_mod_cast hlong)⟩
      next hshort =>
        have hle : numeral ds * 10 ^ n ≤ 10 ^ 10 := by
          calc numeral ds * 10 ^ n ≤ 10 ^ ds.length * 10 ^ n :=
                Nat.mul_le_mul_right _ (numeral_lt hd).le
            _ = 10 ^ (ds.length + n) := (pow_add _ _ _).symm
            _ ≤ 10 ^ 10 := Nat.pow_le_pow_right (by omega) (by omega)
        refine .inl ⟨?_, ?_⟩
        · rw [digitsValue_ok hd (by omega), ok_bind, rounded_ofNat, Int.toNat_natCast,
            Int.toNat_natCast]
          exact scaleUp_ok (lt_of_le_of_lt hle (by norm_num))
        · rw [rounded_ofNat]
          exact_mod_cast hle
    next hdown =>
      simp only [hsum, ok_bind]
      split
      next hneg =>
        rw [rounded_eq_zero hd hneg]
        exact .inl (by simp)
      next hkeep =>
        split
        next hlong => exact .inr ⟨rfl, le_rounded hlead hne (by exact_mod_cast hlong)⟩
        next hshort =>
          -- The digits in front of the cut count in full, the one behind it decides the rest.
          obtain ⟨keep, hcut⟩ := Int.eq_ofNat_of_zero_le (Int.not_lt.mp hkeep)
          have hlt : keep < ds.length := by omega
          have hfront : ∀ d ∈ ds.take keep, d < 10 := fun d h => hd d (mem_of_mem_take h)
          have hback : ∀ d ∈ ds.drop keep, d < 10 := fun d h => hd d (mem_of_mem_drop h)
          have hround := rounded_split hback (a := ds.take keep)
          rw [take_append_drop, length_drop,
            show -((ds.length - keep : Nat) : Int) = scale by omega] at hround
          have hdigit : (if 10 ^ (ds.length - keep) ≤ 2 * numeral (ds.drop keep) then 1 else 0) =
              (ds[keep]?.any (5 ≤ ·)).toNat := by
            have hhalf := @half_le_iff (ds.drop (keep + 1)) ds[keep]
            rw [← drop_eq_getElem_cons hlt, length_drop] at hhalf
            rw [getElem?_eq_getElem hlt]
            by_cases hd5 : 5 ≤ ds[keep]
            · simp [(hhalf hback).mpr hd5, hd5]
            · simp [mt (hhalf hback).mp hd5, hd5]
          have hvalue : numeral (ds.take keep) ≤ 10 ^ 10 - 1 := by
            refine Nat.le_sub_one_of_lt (lt_of_lt_of_le (numeral_lt hfront) ?_)
            exact Nat.pow_le_pow_right (by omega) (by rw [length_take]; omega)
          rw [hdigit] at hround
          rw [hcut, Int.toNat_natCast, digitsValue_ok hfront (by rw [length_take]; omega),
            ok_bind, hround]
          have hbit := Bool.toNat_le (ds[keep]?.any (5 ≤ ·))
          refine .inl ⟨?_, by omega⟩
          rw [u64, if_pos (by omega), Int.toNat_natCast]

/-- The kept exponent is judged as the written one. -/
theorem magnitude_saturated {ds : List Nat} {f : Nat} (hd : ∀ d ∈ ds, d < 10)
    (hlead : ds.head? ≠ some 0) (hlen : ds.length ≤ 90000) (hf : f ≤ 90000) (e : Int)
    (hscale : scale = saturate e - f + 7) :
    Judged (magnitude ds scale) (rounded (numeral ds) (e - f + 7)) := by
  have hsaturate : -100000 ≤ saturate e ∧ saturate e ≤ 100000 := by
    unfold saturate
    omega
  have hjudged := @magnitude_judged scale ds hd hlead (by omega) (by omega)
  by_cases hnil : ds = []
  · subst hnil
    rwa [numeral_nil, rounded_zero] at hjudged ⊢
  rcases lt_or_ge e (-100000) with hlow | hlow
  · have hkept : ds.length + scale < 0 := by
      unfold saturate at hscale
      omega
    rw [rounded_eq_zero hd hkept] at hjudged
    rwa [rounded_eq_zero hd (by omega)]
  · rcases le_or_gt e 100000 with hhigh | hhigh
    · rwa [hscale, show saturate e = e by unfold saturate; omega] at hjudged ⊢
    · have hpos := length_pos_iff.mpr hnil
      have hkept : (10 : Int) ^ 11 ≤ rounded (numeral ds) scale :=
        le_rounded hlead hnil (by unfold saturate at hscale; omega)
      have hexact : (10 : Int) ^ 11 ≤ rounded (numeral ds) (e - f + 7) :=
        le_rounded hlead hnil (by omega)
      rcases hjudged with ⟨-, hle⟩ | ⟨hrefused, -⟩
      · omega
      · exact .inr ⟨hrefused, by omega⟩

lemma number_append (a b : List Char) : number (a ++ b) = number a * 10 ^ b.length + number b := by
  rw [number, map_append, numeral_append, length_map]
  rfl

lemma halfAway_signed (n : Nat) (k : Int) :
    halfAway ((if neg then -1 else 1) * (n * 10 ^ k)) = signed neg (rounded n k) := by
  have hnonneg : (0 : ℚ) ≤ n * 10 ^ k := by positivity
  cases neg
  · simp [halfAway, signed, rounded, not_lt.mpr hnonneg]
  · rcases hnonneg.eq_or_lt with hzero | hpos
    · have hrounded : rounded n k = 0 := by
        rw [rounded, ← hzero, Int.floor_eq_iff]
        norm_num
      simp only [halfAway, signed, hrounded, ← hzero]
      norm_num
    · simp [halfAway, signed, rounded, hpos]

lemma Decimal.quantized_eq (d : Decimal) : d.quantized = signed d.negative
      (rounded (number (d.whole ++ d.frac)) (d.exponent - d.frac.length + 7)) := by
  have hvalue : d.value * 10 ^ 7 = (if d.negative then -1 else 1) *
      ((number (d.whole ++ d.frac) : Nat) * 10 ^ (d.exponent - d.frac.length + 7)) := by
    rw [Decimal.value, number_append, zpow_add₀ (by norm_num), zpow_sub₀ (by norm_num),
      zpow_natCast]
    push_cast
    field_simp
    norm_num
  rw [Decimal.quantized, hvalue, halfAway_signed]

lemma judged_signed {m : Except Stop Nat} {r : Int} (h : Judged m r) (hr : 0 ≤ r) (neg : Bool) :
    (do
      let magnitude ← tryI64 (← m)
      tryI32 (← if neg then i64 (-magnitude) else .ok magnitude)) = tryI32 (signed neg r) := by
  rcases h with ⟨rfl, hle⟩ | ⟨rfl, hge⟩
  · have hcast : ((r.toNat : Nat) : Int) = r := Int.toNat_of_nonneg hr
    rw [ok_bind, tryI64, if_pos (by omega), ok_bind, hcast]
    cases neg
    · rfl
    · rw [if_pos rfl, i64, if_pos (by omega)]
      rfl
  · have hout : ¬(-2 ^ 31 ≤ signed neg r ∧ signed neg r < 2 ^ 31) := by
      unfold signed
      split <;> omega
    rw [tryI32, if_neg hout]
    rfl

/-- What is computed of a text read as a number. -/
theorem quantize_of_spells {d : Decimal} (h : Spells (trim token) d)
    (hlen : token.length ≤ 90000) : quantizeDecimalText token = tryI32 d.quantized := by
  have hparts := h.length_le.trans ((length_trim_le token).trans hlen)
  have hfrac : ∀ c ∈ d.frac, c.isDigit := fun c hc => d.digits c (mem_append_right _ hc)
  have hdigits : ∀ x ∈ ((d.whole ++ d.frac).map digit).dropWhile (· == 0), x < 10 :=
    fun x hx => digits_lt d.digits x ((dropWhile_sublist _).subset hx)
  have hlength : (((d.whole ++ d.frac).map digit).dropWhile (· == 0)).length ≤ 90000 := by
    refine (length_dropWhile_le _ _).trans ?_
    rw [length_map, length_append]
    exact hparts
  have hsaturate : -100000 ≤ saturate d.exponent ∧ saturate d.exponent ≤ 100000 := by
    unfold saturate
    omega
  have hjudged := @magnitude_saturated _ _ d.frac.length hdigits (head_dropWhile_zero _) hlength
    (by omega) d.exponent rfl
  rw [numeral_dropWhile_zero] at hjudged
  rw [quantizeDecimalText, readParts_complete h, ok_bind]
  simp only [utf8Size_digits hfrac, tryI64]
  rw [if_pos (by omega), ok_bind, i64, if_pos (by omega), ok_bind, i64, if_pos (by omega), ok_bind,
    d.quantized_eq]
  exact judged_signed hjudged (rounded_nonneg _ _) d.negative

theorem quantizeDecimalText_exact (token : List Char) (hlen : token.length ≤ 90000) :
    quantizeDecimalText token ≠ .error .overflow ∧ ∀ q : Int32, quantizeDecimalText token = .ok q ↔
        ∃ d, Spells (trim token) d ∧ d.quantized = q.toInt := by
  cases hread : readParts (trim token) with
  | error stop =>
    have hresult : quantizeDecimalText token = .error stop := by
      rw [quantizeDecimalText, hread]
      rfl
    rw [hresult]
    refine ⟨fun h => readParts_ne_overflow _ (by rw [hread, Except.error.inj h]), fun q => ?_⟩
    constructor
    · intro h
      cases h
    · rintro ⟨d, hd, -⟩
      rw [readParts_complete hd] at hread
      cases hread
  | ok parts =>
    obtain ⟨d, -, hd⟩ := readParts_sound hread
    rw [quantize_of_spells hd hlen]
    constructor
    · rw [tryI32]
      split <;> intro h <;> cases h
    · intro q
      constructor
      · intro h
        refine ⟨d, hd, ?_⟩
        rw [tryI32] at h
        split at h
        next hfits =>
          rw [← Except.ok.inj h, Int32.toInt_ofInt_of_le hfits.1 hfits.2]
        · cases h
      · rintro ⟨d', hd', hq⟩
        rw [← quantize_of_spells hd hlen, quantize_of_spells hd' hlen, hq, tryI32,
          if_pos ⟨q.le_toInt, q.toInt_lt⟩, Int32.ofInt_toInt]

theorem quantizeDecimalText_exact_half :
    quantizeDecimalText "-0.00000005".toList ≠ .error .overflow ∧
      ∀ q : Int32, quantizeDecimalText "-0.00000005".toList = .ok q ↔
        ∃ d, Spells (trim "-0.00000005".toList) d ∧ d.quantized = q.toInt :=
  quantizeDecimalText_exact _ (by decide)

end DecimalText
