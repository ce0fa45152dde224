import Mathlib.Algebra.Group.Int.Defs
import Mathlib.Algebra.Group.Nat.Defs
import Mathlib.Data.List.TakeWhile
import Mathlib.Tactic.IntervalCases

/-!
# Numerals

How the C and C++ libraries read a number at the start of a text: blanks, a sign,
the prefix of a base of sixteen, and as many digits as there are.  What counts as
blank is a parameter.
-/

namespace NetTest.Numerals

def plusSign : UInt8 := 43
def minusSign : UInt8 := 45
def zeroDigit : UInt8 := 48
def upperX : UInt8 := 88
def lowerX : UInt8 := 120

def digitValue (c : UInt8) : Option Nat :=
  if 48 ≤ c ∧ c ≤ 57 then some (c.toNat - 48)
  else if 97 ≤ c ∧ c ≤ 122 then some (c.toNat - 87)
  else if 65 ≤ c ∧ c ≤ 90 then some (c.toNat - 55)
  else none

def isDigit (base : Nat) (c : UInt8) : Bool := (digitValue c).any (· < base)

def numeral (base : Nat) (digits : List UInt8) : Nat :=
  digits.foldl (fun value c => value * base + (digitValue c).getD 0) 0

/-- The prefix `0x` is read over when the base is sixteen and a digit follows. -/
def skipPrefix (base : Nat) : List UInt8 → List UInt8
  | z :: x :: c :: rest =>
      if base = 16 ∧ z = zeroDigit ∧ (x = lowerX ∨ x = upperX) ∧ isDigit base c then c :: rest
      else z :: x :: c :: rest
  | text => text

def magnitude (base : Nat) (text : List UInt8) : Option Nat :=
  let digits := (skipPrefix base text).takeWhile (isDigit base)
  if digits = [] then none else some (numeral base digits)

/-- Whether there is a minus sign, and the number behind it. -/
def scan (blank : UInt8 → Bool) (base : Nat) (text : List UInt8) : Option (Bool × Nat) :=
  match text.dropWhile blank with
  | [] => none
  | c :: rest =>
      if c = minusSign then (magnitude base rest).map (true, ·)
      else if c = plusSign then (magnitude base rest).map (false, ·)
      else (magnitude base (c :: rest)).map (false, ·)

def signed (negative : Bool) (number : Nat) : Int := if negative then -number else number

/-! ## The C++ library -/

inductive Raised where
  | invalidArgument
  | outOfRange
  deriving DecidableEq, Repr

def stol (blank : UInt8 → Bool) (base : Nat) (text : List UInt8) : Except Raised Int :=
  match scan blank base text with
  | none => .error .invalidArgument
  | some (negative, number) =>
      if -2 ^ 63 ≤ signed negative number ∧ signed negative number < 2 ^ 63 then
        .ok (signed negative number)
      else .error .outOfRange

def stoi (blank : UInt8 → Bool) (base : Nat) (text : List UInt8) : Except Raised Int :=
  match stol blank base text with
  | .error raised => .error raised
  | .ok v => if -2 ^ 31 ≤ v ∧ v < 2 ^ 31 then .ok v else .error .outOfRange

/-- A minus sign negates modulo `2 ^ 64`. -/
def stoul (blank : UInt8 → Bool) (base : Nat) (text : List UInt8) : Except Raised Int :=
  match scan blank base text with
  | none => .error .invalidArgument
  | some (negative, number) =>
      if number < 2 ^ 64 then .ok (signed negative number % 2 ^ 64) else .error .outOfRange

/-- `atoi`: `strtol` in base ten, cast to `int`; a number beyond `long` is cut to its
bounds. -/
def atoi (blank : UInt8 → Bool) (text : List UInt8) : Int :=
  match scan blank 10 text with
  | none => 0
  | some (negative, number) =>
      Int.bmod (max (-2 ^ 63) (min (signed negative number) (2 ^ 63 - 1))) (2 ^ 32)

/-! ## Texts that are numerals -/

inductive Notation where
  | decimal
  | hexadecimal
  deriving DecidableEq, Repr

def Notation.base : Notation → Nat
  | .decimal => 10
  | .hexadecimal => 16

/-- The text is a numeral of the value: decimal digits with an optional sign, or
hexadecimal digits behind `0x` or `0X`. -/
inductive Numeral : Notation → List UInt8 → Int → Prop where
  | plain {digits : List UInt8} (hne : digits ≠ []) (hdigits : ∀ c ∈ digits, isDigit 10 c = true) :
      Numeral .decimal digits (numeral 10 digits)
  | plus {digits : List UInt8} (hne : digits ≠ []) (hdigits : ∀ c ∈ digits, isDigit 10 c = true) :
      Numeral .decimal (plusSign :: digits) (numeral 10 digits)
  | minus {digits : List UInt8} (hne : digits ≠ []) (hdigits : ∀ c ∈ digits, isDigit 10 c = true) :
      Numeral .decimal (minusSign :: digits) (-(numeral 10 digits : Int))
  | hex {digits : List UInt8} (x : UInt8) (hx : x = lowerX ∨ x = upperX) (hne : digits ≠ [])
      (hdigits : ∀ c ∈ digits, isDigit 16 c = true) :
      Numeral .hexadecimal (zeroDigit :: x :: digits) (numeral 16 digits)

variable {blank : UInt8 → Bool}

theorem skipPrefix_ten (text : List UInt8) : skipPrefix 10 text = text := by
  unfold skipPrefix
  split
  · rw [if_neg]
    intro h
    rcases h with ⟨hbase, _⟩
    contradiction
  · rfl

theorem magnitude_ten {digits : List UInt8} (hne : digits ≠ [])
    (hdigits : ∀ c ∈ digits, isDigit 10 c = true) : magnitude 10 digits = some (numeral 10 digits) := by
  have hall : digits.takeWhile (isDigit 10) = digits := List.takeWhile_eq_self_iff.mpr hdigits
  rw [magnitude, skipPrefix_ten, hall, if_neg hne]

theorem magnitude_hex {digits : List UInt8} {x : UInt8} (hx : x = lowerX ∨ x = upperX)
    (hne : digits ≠ []) (hdigits : ∀ c ∈ digits, isDigit 16 c = true) :
    magnitude 16 (zeroDigit :: x :: digits) = some (numeral 16 digits) := by
  have hall : digits.takeWhile (isDigit 16) = digits := List.takeWhile_eq_self_iff.mpr hdigits
  have hskip : skipPrefix 16 (zeroDigit :: x :: digits) = digits := by
    cases digits with
    | nil => exact absurd rfl hne
    | cons c rest => exact if_pos ⟨rfl, rfl, hx, hdigits c List.mem_cons_self⟩
  rw [magnitude, hskip, hall, if_neg hne]

theorem magnitude_hex_ten {digits : List UInt8} {x : UInt8} (hx : x = lowerX ∨ x = upperX) :
    magnitude 10 (zeroDigit :: x :: digits) = some 0 := by
  have hstop : isDigit 10 x = false := by
    rcases hx with rfl | rfl <;> decide
  have hzero : isDigit 10 zeroDigit = true := by decide
  rw [magnitude, skipPrefix_ten, List.takeWhile_cons_of_pos hzero,
    List.takeWhile_cons_of_neg (by rw [hstop]; exact Bool.false_ne_true)]
  rfl

theorem scan_minus (hblank : blank minusSign = false) (text : List UInt8) :
    scan blank 10 (minusSign :: text) = (magnitude 10 text).map (true, ·) := by
  unfold scan
  rw [List.dropWhile_cons_of_neg (by rw [hblank]; exact Bool.false_ne_true)]
  exact if_pos rfl

theorem scan_plus (hblank : blank plusSign = false) (text : List UInt8) :
    scan blank 10 (plusSign :: text) = (magnitude 10 text).map (false, ·) := by
  unfold scan
  rw [List.dropWhile_cons_of_neg (by rw [hblank]; exact Bool.false_ne_true)]
  exact (if_neg (by decide)).trans (if_pos rfl)

theorem scan_digit {base : Nat} {c : UInt8} (hblank : blank c = false)
    (hdigit : isDigit 10 c = true) (text : List UInt8) :
    scan blank base (c :: text) = (magnitude base (c :: text)).map (false, ·) := by
  have hminus : c ≠ minusSign := by
    rintro rfl
    contradiction
  have hplus : c ≠ plusSign := by
    rintro rfl
    contradiction
  unfold scan
  rw [List.dropWhile_cons_of_neg (by rw [hblank]; exact Bool.false_ne_true)]
  exact (if_neg hminus).trans (if_neg hplus)

/-- No sign and no digit is blank. -/
structure Readable (blank : UInt8 → Bool) : Prop where
  plus : blank plusSign = false
  minus : blank minusSign = false
  digit : ∀ c, isDigit 10 c = true → blank c = false

theorem scan_numeral (hblank : Readable blank) {kind : Notation} {text : List UInt8} {v : Int}
    (h : Numeral kind text v) :
    ∃ negative number, scan blank kind.base text = some (negative, number) ∧
      v = signed negative number := by
  cases h with
  | plain hne hdigits =>
      cases text with
      | nil => exact absurd rfl hne
      | cons c rest =>
          have hc := hdigits c List.mem_cons_self
          refine ⟨false, numeral 10 (c :: rest), ?_, rfl⟩
          rw [Notation.base, scan_digit (hblank.digit c hc) hc, magnitude_ten hne hdigits,
            Option.map_some]
  | @plus digits hne hdigits =>
      refine ⟨false, numeral 10 digits, ?_, rfl⟩
      rw [Notation.base, scan_plus hblank.plus, magnitude_ten hne hdigits, Option.map_some]
  | @minus digits hne hdigits =>
      refine ⟨true, numeral 10 digits, ?_, rfl⟩
      rw [Notation.base, scan_minus hblank.minus, magnitude_ten hne hdigits, Option.map_some]
  | @hex digits x hx hne hdigits =>
      have hzero : isDigit 10 zeroDigit = true := by decide
      refine ⟨false, numeral 16 digits, ?_, rfl⟩
      rw [Notation.base, scan_digit (hblank.digit _ hzero) hzero, magnitude_hex hx hne hdigits,
        Option.map_some]

/-! ## What the conversions make of a numeral -/

def bounded (low high v : Int) : Except Raised Int :=
  if low ≤ v ∧ v < high then .ok v else .error .outOfRange

variable {text : List UInt8} {v : Int}

theorem stol_numeral (hblank : Readable blank) {kind : Notation} (h : Numeral kind text v) :
    stol blank kind.base text = bounded (-2 ^ 63) (2 ^ 63) v := by
  rcases scan_numeral hblank h with ⟨negative, number, hscan, rfl⟩
  simp only [stol, hscan, bounded]

theorem stoi_numeral (hblank : Readable blank) (h : Numeral .decimal text v) :
    stoi blank 10 text = bounded (-2 ^ 31) (2 ^ 31) v := by
  have hlong := stol_numeral hblank h
  rw [Notation.base] at hlong
  rw [stoi, hlong, bounded, bounded]
  by_cases hv : -2 ^ 63 ≤ v ∧ v < 2 ^ 63
  · rw [if_pos hv]
  · rw [if_neg hv, if_neg (by omega)]

/-- The value modulo `2 ^ 64`, when its absolute value is a `size_t`. -/
def wrapped (v : Int) : Except Raised Int :=
  if -2 ^ 64 < v ∧ v < 2 ^ 64 then .ok (v % 2 ^ 64) else .error .outOfRange

theorem stoul_numeral (hblank : Readable blank) {kind : Notation} (h : Numeral kind text v) :
    stoul blank kind.base text = wrapped v := by
  rcases scan_numeral hblank h with ⟨negative, number, hscan, rfl⟩
  have hrange : number < 2 ^ 64 ↔ -2 ^ 64 < signed negative number ∧ signed negative number < 2 ^ 64 := by
    cases negative with
    | true =>
        simp only [signed, if_true]
        omega
    | false =>
        simp only [signed, Bool.false_eq_true, if_false]
        omega
  simp only [stoul, hscan, hrange, wrapped]

/-- In base ten a hexadecimal numeral is the zero it starts with. -/
theorem stoi_hexadecimal (hblank : Readable blank) (h : Numeral .hexadecimal text v) :
    stoi blank 10 text = .ok 0 := by
  cases h with
  | @hex digits x hx hne hdigits =>
      have hzero : isDigit 10 zeroDigit = true := by decide
      have hscan : scan blank 10 (zeroDigit :: x :: digits) = some (false, 0) := by
        rw [scan_digit (hblank.digit _ hzero) hzero, magnitude_hex_ten hx, Option.map_some]
      simp only [stoi, stol, hscan]
      rfl

theorem hexadecimal_nonneg (h : Numeral .hexadecimal text v) : 0 ≤ v := by
  cases h with
  | @hex digits x hx hne hdigits => exact Int.natCast_nonneg _

/-! ## Decimal texts -/

/-- The digits of a number, as it is printed. -/
def decimal (n : Nat) : List UInt8 := (Nat.toDigits 10 n).map Char.toUInt8

theorem digitValue_digitChar {d : Nat} (hd : d < 10) :
    digitValue (Nat.digitChar d).toUInt8 = some d := by
  interval_cases d <;> rfl

theorem decimal_eq (n : Nat) :
    decimal n = (if n < 10 then [] else decimal (n / 10)) ++ [(Nat.digitChar (n % 10)).toUInt8] := by
  unfold decimal
  rw [Nat.toDigits_eq_if (by omega)]
  split
  · rename_i hlt
    rw [Nat.mod_eq_of_lt hlt]
    rfl
  · rw [List.map_append]
    rfl

theorem decimal_ne_nil (n : Nat) : decimal n ≠ [] := by
  rw [decimal_eq]
  simp

theorem isDigit_of_mem_decimal (n : Nat) : ∀ c ∈ decimal n, isDigit 10 c = true := by
  induction n using Nat.strongRecOn with
  | ind n ih =>
      have hlast : isDigit 10 (Nat.digitChar (n % 10)).toUInt8 = true := by
        have hlt := Nat.mod_lt n (show 0 < 10 by decide)
        rw [isDigit, digitValue_digitChar hlt]
        simpa using hlt
      intro c hc
      rw [decimal_eq, List.mem_append, List.mem_singleton] at hc
      rcases hc with hc | rfl
      · split at hc
        · cases hc
        · exact ih (n / 10) (by omega) c hc
      · exact hlast

theorem numeral_append_singleton (base : Nat) (digits : List UInt8) (c : UInt8) :
    numeral base (digits ++ [c]) = numeral base digits * base + (digitValue c).getD 0 := by
  rw [numeral, List.foldl_append]
  rfl

theorem numeral_decimal (n : Nat) : numeral 10 (decimal n) = n := by
  induction n using Nat.strongRecOn with
  | ind n ih =>
      have hlt := Nat.mod_lt n (show 0 < 10 by decide)
      rw [decimal_eq, numeral_append_singleton, digitValue_digitChar hlt, Option.getD_some]
      split
      · rename_i hsmall
        rw [Nat.mod_eq_of_lt hsmall]
        exact Nat.zero_add n
      · rw [ih (n / 10) (by omega)]
        omega

theorem numeral_toString (v : Int) : Numeral .decimal ((toString v).toList.map Char.toUInt8) v := by
  cases v with
  | ofNat n =>
      have htext : (toString (Int.ofNat n)).toList.map Char.toUInt8 = decimal n := by
        rw [decimal, ← Nat.toList_repr]
        rfl
      have hplain := Numeral.plain (decimal_ne_nil n) (isDigit_of_mem_decimal n)
      rw [numeral_decimal] at hplain
      rw [htext]
      exact hplain
  | negSucc n =>
      have htext : (toString (Int.negSucc n)).toList.map Char.toUInt8 =
          minusSign :: decimal (n + 1) := by
        have hrepr : toString (Int.negSucc n) = "-" ++ (n + 1).repr := rfl
        rw [hrepr, String.toList_append, List.map_append, Nat.toList_repr]
        rfl
      have hminus := Numeral.minus (decimal_ne_nil (n + 1)) (isDigit_of_mem_decimal (n + 1))
      rw [numeral_decimal] at hminus
      rw [htext]
      exact hminus

end NetTest.Numerals
