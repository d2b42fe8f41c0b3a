/-!
# Double-precision numbers

The numbers of the binary64 format as exact values: a sign, a significand and a power of two, or an
infinity, or the value that is no number. Reading a decimal rounds it to the nearest such number.

Results:

* `Double.roundDiv_le`, `Double.le_roundDiv`: a rounded quotient is within half a unit of the
  quotient.
* `Double.roundDiv_exact`: a quotient without remainder is not changed by rounding.
-/

namespace ShapeAlgebra

/-- A binary64 number: `± significand * 2 ^ exponent`, an infinity, or no number. -/
inductive Double where
  | finite (negative : Bool) (significand : Nat) (exponent : Int)
  | infinite (negative : Bool)
  | nan
deriving DecidableEq, Repr, Inhabited

namespace Double

/-- The least exponent of the format. -/
def minExponent : Int := -1074

/-- The greatest exponent of the format. -/
def maxExponent : Int := 971

/-- The least significand that has all its digits. -/
def hiddenBit : Nat := Nat.pow 2 52

/-- Zero with a sign. -/
def zero (negative : Bool) : Double := .finite negative 0 minExponent

/-! ## Rounding -/

/-- The quotient `n / d` rounded to the nearest natural number, a half going to the even one. -/
def roundDiv (n d : Nat) : Nat :=
  let q := n / d
  let r := n % d
  if 2 * r < d ∨ (2 * r = d ∧ q % 2 = 0) then q else q + 1

theorem roundDiv_le (n d : Nat) (h : 0 < d) : 2 * (roundDiv n d * d) ≤ 2 * n + d := by
  have e := Nat.div_add_mod n d
  have hr := Nat.mod_lt n h
  have hm : d * (n / d) = n / d * d := Nat.mul_comm ..
  simp only [roundDiv]
  split
  · omega
  · rw [Nat.add_mul]; omega

theorem le_roundDiv (n d : Nat) (h : 0 < d) : 2 * n ≤ 2 * (roundDiv n d * d) + d := by
  have e := Nat.div_add_mod n d
  have hr := Nat.mod_lt n h
  have hm : d * (n / d) = n / d * d := Nat.mul_comm ..
  simp only [roundDiv]
  split
  · omega
  · rw [Nat.add_mul]; omega

theorem roundDiv_exact (q d : Nat) (h : 0 < d) : roundDiv (q * d) d = q := by
  simp [roundDiv, Nat.mul_div_cancel _ h, h]

/-- The quotient `num / den` divided by `2 ^ e`, as a fraction of natural numbers. -/
def scaled (num den : Nat) (e : Int) : Nat × Nat :=
  if 0 ≤ e then (num, den * Nat.pow 2 e.toNat) else (num * Nat.pow 2 (-e).toNat, den)

/-- The double nearest to `± num / den`, a tie going to the even significand. -/
def ofRatio (negative : Bool) (num den : Nat) : Double :=
  if num = 0 then zero negative
  else
    let guess : Int := (num.log2 : Int) - den.log2 - 52
    let (n, d) := scaled num den guess
    let e := max minExponent (if n < d * hiddenBit then guess - 1 else guess)
    let (n, d) := scaled num den e
    let m := roundDiv n d
    let (m, e) := if m = 2 * hiddenBit then (hiddenBit, e + 1) else (m, e)
    if e > maxExponent then .infinite negative else .finite negative m e

/-- The double nearest to `± digits * 10 ^ exponent`. -/
def ofDecimal (negative : Bool) (digits : Nat) (exponent : Int) : Double :=
  let places : Int := (Nat.toDigits 10 digits).length
  if digits = 0 ∨ places + exponent < -330 then zero negative
  else if places + exponent > 310 then .infinite negative
  else if 0 ≤ exponent then ofRatio negative (digits * Nat.pow 10 exponent.toNat) 1
  else ofRatio negative digits (Nat.pow 10 (-exponent).toNat)

/-! ## Arithmetic -/

/-- A finite double as a fraction: a signed numerator and a positive denominator. -/
def fraction (negative : Bool) (significand : Nat) (exponent : Int) : Int × Nat :=
  let n : Nat := if 0 ≤ exponent then significand * Nat.pow 2 exponent.toNat else significand
  let d : Nat := if 0 ≤ exponent then 1 else Nat.pow 2 (-exponent).toNat
  (if negative then -(n : Int) else n, d)

/-- The double with the other sign. -/
def neg : Double → Double
  | .finite s m e => .finite (!s) m e
  | .infinite s => .infinite (!s)
  | .nan => .nan

/-- The rounded sum of two doubles. -/
def add : Double → Double → Double
  | .nan, _ | _, .nan => .nan
  | .infinite s, .infinite t => if s = t then .infinite s else .nan
  | .infinite s, .finite .. | .finite .., .infinite s => .infinite s
  | .finite s m e, .finite t n f =>
    let (a, b) := fraction s m e
    let (c, d) := fraction t n f
    let total := a * d + c * b
    if total = 0 then zero (s && t) else ofRatio (decide (total < 0)) total.natAbs (b * d)

/-- The rounded product of two doubles. -/
def mul : Double → Double → Double
  | .nan, _ | _, .nan => .nan
  | .infinite s, .infinite t => .infinite (s != t)
  | .infinite s, .finite t m _ | .finite t m _, .infinite s =>
    if m = 0 then .nan else .infinite (s != t)
  | .finite s m e, .finite t n f =>
    let (a, b) := fraction s m e
    let (c, d) := fraction t n f
    ofRatio (s != t) (a * c).natAbs (b * d)

/-- The double nearest to an integer. -/
def ofInt (i : Int) : Double := ofRatio (decide (i < 0)) i.natAbs 1

/-- Whether the double is the integer `i`. -/
def isInt : Double → Int → Bool
  | .finite s m e, i => let (a, b) := fraction s m e; a == i * b
  | _, _ => false

/-- Equality of numbers: the two zeros are equal, and `nan` equals nothing. -/
def sameNumber : Double → Double → Bool
  | .finite s m e, .finite t n f => (m == 0 && n == 0) || (s == t && m == n && e == f)
  | .infinite s, .infinite t => s == t
  | _, _ => false

end Double

end ShapeAlgebra
