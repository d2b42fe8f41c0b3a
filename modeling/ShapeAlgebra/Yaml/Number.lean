import ShapeAlgebra.Text.Blank
import ShapeAlgebra.Text.Digit
import ShapeAlgebra.Text.Lower
import ShapeAlgebra.Yaml.Fault
import ShapeAlgebra.Yaml.Plain
import ShapeAlgebra.Yaml.Token.Quoted
import ShapeAlgebra.Decimal.Double

/-!
# Numbers in scalars

Integers and decimal numbers as scalars write them. Bars between the digits mean nothing, and colons
separate the places of a number in base sixty. The digits may be those of any script, but what kind
of number is written is told by ASCII digits and marks only.

Results:

* `Yaml.sixties_single`: a number of one place in base sixty is that place.
* `Yaml.numerals_ascii`: in a text of ASCII alone every character stands for itself.
-/

namespace ShapeAlgebra.Yaml

/-! ## Digits of all scripts -/

/-- What a code point is as a part of a number: an ASCII character, which may stand for a blank or
for a digit of another script, or a question mark if it means nothing. -/
def asNumeral (p : CodePoint) : Char :=
  match p with
  | .surrogate _ => '?'
  | .scalar c =>
    if c.toNat < 0x7F then c
    else if p.isBlank then ' '
    else match p.digit? with
      | some d => Nat.digitChar d
      | none => '?'

/-- Whether a text has ASCII characters only. -/
def isAscii (t : Text) : Bool := t.all fun p => decide (p.code < 0x80)

/-- The characters of a text that is to be read as a number: they stand for themselves in a text of
ASCII alone, and are what they are as parts of a number in any other text. -/
def numerals (t : Text) : List Char :=
  if isAscii t then t.chars?.getD [] else t.map asNumeral

theorem numerals_ascii {cs : List Char} (h : ∀ c ∈ cs, c.toNat < 0x80) :
    numerals (Text.ofChars cs) = cs := by
  have all : isAscii (Text.ofChars cs) = true := by
    simp only [isAscii, Text.ofChars, List.all_map, List.all_eq_true, Function.comp_apply]
    exact fun c hc => decide_eq_true (h c hc)
  have chars : (Text.ofChars cs).chars? = some cs := by
    clear all h
    induction cs with
    | nil => rfl
    | cons c cs ih =>
      simp only [Text.ofChars, Text.chars?] at ih ⊢
      simp [List.mapM_cons, ih]
  simp [numerals, all, chars]

/-- Whether a character is one of the blanks around a number. -/
def isGap (c : Char) : Bool :=
  c == ' ' || c == '\t' || c == '\n' || c == '\x0b' || c == '\x0c' || c == '\r'

/-- A number without the blanks around it. -/
def withoutGaps (cs : List Char) : List Char :=
  ((cs.dropWhile isGap).reverse.dropWhile isGap).reverse

/-- Whether a minus sign stands in front, and what follows a sign. -/
def signed (cs : List Char) : Bool × List Char := (cs.head? == some '-', dropSign cs)

/-- Whether a minus sign stands in front of a text, and what follows a sign. -/
def signedText : Text → Bool × Text
  | .scalar '-' :: t => (true, t)
  | .scalar '+' :: t => (false, t)
  | t => (false, t)

/-- A text without the bars between its digits. -/
def withoutBars (t : Text) : Text := t.filter (· != .scalar '_')

/-- The places of a number in base sixty. -/
def placesOf (t : Text) : List Text := pieces (.scalar ':') t

/-- A number from its places in base sixty, the highest first. -/
def sixties (places : List Int) : Int := places.foldl (fun n p => 60 * n + p) 0

theorem sixties_single (n : Int) : sixties [n] = n := by simp [sixties]

/-! ## Integers -/

/-- The value of a digit in a base, the letters standing for digits from ten on. -/
def digitIn? (base : Nat) (c : Char) : Option Nat := (hexDigitValue? c).filter (· < base)

/-- The letters that may stand behind a zero in front of a number in a base. -/
def baseLetters : Nat → List Char
  | 2 => ['b', 'B']
  | 8 => ['o', 'O']
  | 16 => ['x', 'X']
  | _ => []

/-- An integer in a base, with blanks and a sign if need be. Too many decimal digits are refused
even if something else stands behind them. -/
def integerIn (base : Nat) (t : Text) : Except Fault Int :=
  let (negative, body) := signed (withoutGaps (numerals t))
  let body := match body with
    | '0' :: l :: r => if (baseLetters base).contains l then r else body
    | body => body
  let ds := (body.takeWhile fun c => (digitIn? base c).isSome).filterMap (digitIn? base)
  if base == 10 && decide (Text.digitLimit < ds.length) then .error (.tooManyDigits ds.length)
  else if ds.isEmpty || ds.length != body.length then .error (.notInteger base t)
  else
    let n : Nat := ds.foldl (fun n d => base * n + d) 0
    .ok (if negative then -(n : Int) else n)

/-- An integer without its sign. -/
def absoluteInteger (t : Text) : Except Fault Int :=
  match t with
  | [] => .error .emptyNumber
  | [.scalar '0'] => .ok 0
  | .scalar '0' :: .scalar 'b' :: r => integerIn 2 r
  | .scalar '0' :: .scalar 'x' :: r => integerIn 16 r
  | .scalar '0' :: _ => integerIn 8 t
  | t =>
    if t.contains (.scalar ':') then sixties <$> (placesOf t).mapM (integerIn 10)
    else integerIn 10 t

/-- The integer that a scalar writes. -/
def integerOf (t : Text) : Except Fault Int :=
  let (negative, body) := signedText (withoutBars t)
  (fun n => if negative then -n else n) <$> absoluteInteger body

/-! ## Decimal numbers -/

/-- The number that digits with a point and an exponent write. -/
def pointNumber? (negative : Bool) (cs : List Char) : Option Double := do
  let whole := cs.takeWhile Char.isDigit
  let r := cs.dropWhile Char.isDigit
  let (fraction, r) := match r with
    | '.' :: r => (r.takeWhile Char.isDigit, r.dropWhile Char.isDigit)
    | r => ([], r)
  guard (!(whole.isEmpty && fraction.isEmpty))
  let exponent : Int ← match r with
    | [] => some 0
    | 'e' :: r =>
      let (below, ds) := signed r
      if ds.isEmpty || !ds.all Char.isDigit then none
      else some (if below then -(number ds : Int) else number ds)
    | _ => none
  return Double.ofDecimal negative (number (whole ++ fraction)) (exponent - fraction.length)

/-- A decimal number, written in small letters, with blanks and a sign if need be. -/
def decimalIn (t : Text) : Except Fault Double :=
  let (negative, body) := signed (withoutGaps (numerals t))
  if body == "inf".toList || body == "infinity".toList then .ok (.infinite negative)
  else if body == "nan".toList then .ok .nan
  else match pointNumber? negative body with
    | some x => .ok x
    | none => .error (.notNumber t)

/-- A number from its places in base sixty, the lowest first, each rounded and added. -/
def sixtiesRounded (total : Double) (base : Nat) : List Double → Except Fault Double
  | [] => .ok total
  | p :: ps =>
    match Double.ofInt base with
    | .finite s m e => sixtiesRounded (total.add (p.mul (.finite s m e))) (60 * base) ps
    | _ => .error .placeTooHigh

/-- A number without its sign, in small letters. -/
def absoluteDecimal (t : Text) : Except Fault Double :=
  if t = Text.ofString ".inf" then .ok (.infinite false)
  else if t = Text.ofString ".nan" then .ok .nan
  else if t.contains (.scalar ':') then do
    let places ← (placesOf t).mapM decimalIn
    sixtiesRounded (Double.zero false) 1 places.reverse
  else decimalIn t

/-- The decimal number that a scalar writes. -/
def decimalOf (t : Text) : Except Fault Double :=
  match (withoutBars t).lower with
  | [] => .error .emptyNumber
  | t =>
    let (negative, body) := signedText t
    (fun x => if negative then x.neg else x) <$> absoluteDecimal body

/-- Whether a scalar is the word for what is no number. -/
def isNanWord (t : Text) : Bool := (signedText (withoutBars t).lower).2 == Text.ofString ".nan"

end ShapeAlgebra.Yaml
