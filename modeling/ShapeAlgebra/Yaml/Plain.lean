import ShapeAlgebra.Yaml.Moment
import ShapeAlgebra.Yaml.Tag

/-!
# Plain scalars

A scalar that is written without quotes stands for null, a truth value, a number, a date or a mark,
if it has the form of one, and for a text otherwise.

Results:

* `Yaml.Tag.ofPlain_nil`: nothing at all stands for null.
-/

namespace ShapeAlgebra.Yaml

/-! ## Forms of numbers -/

/-- What follows a sign, if one stands in front. -/
def dropSign : List Char → List Char
  | '-' :: cs => cs
  | '+' :: cs => cs
  | cs => cs

/-- Whether a character is a decimal digit or the bar that may stand between digits. -/
def isDigitOrBar (c : Char) : Bool := c.isDigit || c == '_'

/-- Whether a character is a digit in base sixteen. -/
def isHexDigit (c : Char) : Bool :=
  c.isDigit || ('a' ≤ c && c ≤ 'f') || ('A' ≤ c && c ≤ 'F')

/-- Whether a text is a number below sixty, of one digit or two. -/
def isSixtieth : List Char → Bool
  | [d] => d.isDigit
  | [t, d] => '0' ≤ t && t ≤ '5' && d.isDigit
  | _ => false

/-- Whether a text is digits and bars, the first of them a digit. -/
def isDigits (cs : List Char) : Bool := cs.head?.any Char.isDigit && cs.all isDigitOrBar

/-- Whether a text is an integer: in base two behind `0b`, in base sixteen behind `0x`, in base
eight behind `0`, in base sixty with colons, or in base ten. -/
def isInteger (cs : List Char) : Bool :=
  match dropSign cs with
  | '0' :: 'b' :: r => !r.isEmpty && r.all fun c => c == '0' || c == '1' || c == '_'
  | '0' :: 'x' :: r => !r.isEmpty && r.all fun c => isHexDigit c || c == '_'
  | '0' :: r => r.all fun c => ('0' ≤ c && c ≤ '7') || c == '_'
  | r => match pieces ':' r with
    | p :: ps => isDigits p && ps.all isSixtieth
    | [] => false

/-- Whether a text is digits and bars, perhaps with an exponent, whose sign is never left out. -/
def isFraction (cs : List Char) : Bool :=
  match cs.dropWhile isDigitOrBar with
  | [] => true
  | e :: s :: d :: ds =>
    (e == 'e' || e == 'E') && (s == '-' || s == '+') && (d :: ds).all Char.isDigit
  | _ => false

/-- Whether a text is a number with a decimal point, an infinity, or the value that is no number. -/
def isDecimal (cs : List Char) : Bool :=
  match (dropSign cs).span (· != '.') with
  | (_, []) => false
  | ([], _ :: r) =>
    ["inf", "Inf", "INF"].any (fun w => w.toList == r) ||
      cs.head? == some '.' &&
        (["nan", "NaN", "NAN"].any (fun w => w.toList == r) ||
          r.head?.any Char.isDigit && isFraction r)
  | (whole, _ :: r) =>
    match pieces ':' whole with
    | [p] => isDigits p && isFraction r
    | p :: ps => isDigits p && ps.all isSixtieth && r.all isDigitOrBar
    | [] => false

/-- Whether a text is a date with all its digits, or a date with a time of day. -/
def isMoment (cs : List Char) : Bool :=
  match WrittenMoment.ofChars? cs with
  | some m => m.time.isSome || cs.length == 10
  | none => false

/-! ## The tag of a scalar -/

namespace Tag

/-- The words for truth. -/
def trueWords : List String := ["yes", "Yes", "YES", "true", "True", "TRUE", "on", "On", "ON"]

/-- The words for falsehood. -/
def falseWords : List String := ["no", "No", "NO", "false", "False", "FALSE", "off", "Off", "OFF"]

/-- The words for null. -/
def nullWords : List String := ["~", "null", "Null", "NULL", ""]

/-- The tag of a plain scalar, by its form. An indicator that stands alone has no meaning. -/
def ofPlain (cs : List Char) : Tag :=
  let among (words : List String) : Bool := words.any fun w => w.toList == cs
  if among trueWords || among falseWords then .bool
  else if isDecimal cs then .decimal
  else if isInteger cs then .integer
  else if cs == ['<', '<'] then .merge
  else if among nullWords then .null
  else if isMoment cs then .moment
  else if cs == ['='] then .defaultValue
  else if among ["!", "&", "*"] then .unknown
  else .text

theorem ofPlain_nil : ofPlain [] = .null := by decide

end Tag

end ShapeAlgebra.Yaml
