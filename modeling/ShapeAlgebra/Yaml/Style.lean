import ShapeAlgebra.Yaml.Plain

/-!
# Styles of scalars

A text is written without quotes if that reads back as the same text, else between single quotes,
which change nothing but blanks at line ends, and else between double quotes, where everything can
be escaped.

Results:

* `Yaml.Style.of_nil`: the empty text is never written plainly.
* `Yaml.Style.of_extraordinary`: what needs escapes is written between double quotes.
-/

namespace ShapeAlgebra.Yaml

/-- How a scalar is written. -/
inductive Style where
  | plain
  | single
  | double
deriving DecidableEq, Repr

/-- Whether a code point ends a line. -/
def isLineBreak (p : CodePoint) : Bool := [0x0A, 0x85, 0x2028, 0x2029].contains p.code

/-- Whether a text has more than one line. -/
def isMultiline (t : Text) : Bool := t.any isLineBreak

/-- The character that needs no escape: a line feed, or a printable one of ASCII. -/
def ordinary? : CodePoint → Option Char
  | .scalar c => if c = '\n' ∨ (' ' ≤ c ∧ c ≤ '~') then some c else none
  | .surrogate _ => none

/-- The characters of a text if none of them needs an escape. -/
def ordinaryChars? (t : Text) : Option (List Char) := t.mapM ordinary?

/-! ## Plain texts -/

/-- Whether a word ends in front of `cs`. -/
def endsWord : List Char → Bool
  | [] => true
  | c :: _ => c == ' ' || c == '\n'

/-- Whether the first character, standing there, has a meaning of its own. -/
def startsWithIndicator : List Char → Bool
  | [] => false
  | c :: cs =>
    "#,[]\x7b\x7d&*!|>'\"%@`".toList.contains c || ("?:-".toList.contains c && endsWord cs)

/-- Whether a colon ends a word, or a hash begins one. `atGap` tells whether a word may begin at the
first character. -/
def holdsIndicator (atGap : Bool) : List Char → Bool
  | [] => false
  | c :: cs =>
    (c == ':' && endsWord cs) || (c == '#' && atGap) ||
      holdsIndicator (c == ' ' || c == '\n') cs

/-- Whether a text begins like a line that separates documents. -/
def startsWithMarker (cs : List Char) : Bool :=
  cs.take 3 == "---".toList || cs.take 3 == "...".toList

/-- Whether a text reads back as itself when it stands without quotes. -/
def allowsPlain (cs : List Char) : Bool :=
  Tag.ofPlain cs == .text && !cs.contains '\n' && cs.head? != some ' ' &&
    cs.getLast? != some ' ' && !startsWithMarker cs && !startsWithIndicator cs &&
    !holdsIndicator true cs

/-- Whether no blank stands next to a line break, where it would be lost between single quotes. -/
def allowsSingle : List Char → Bool
  | c :: d :: cs =>
    !(c == ' ' && d == '\n') && !(c == '\n' && d == ' ') && allowsSingle (d :: cs)
  | _ => true

namespace Style

/-- The style of a text whose characters need no escape. -/
def ofOrdinary (cs : List Char) : Style :=
  if allowsPlain cs then .plain else if allowsSingle cs then .single else .double

/-- The style of a text. -/
def of (t : Text) : Style :=
  match ordinaryChars? t with
  | some cs => ofOrdinary cs
  | none => .double

theorem of_nil : of [] = .single := by decide

theorem of_extraordinary {t : Text} (h : ordinaryChars? t = none) : of t = .double := by
  simp [of, h]

end Style

end ShapeAlgebra.Yaml
