import ShapeAlgebra.Text

/-!
# Tokens

The marks and scalars of which a text is made, in their order. Marks for the beginning and the end
of a block stand for changes of the indentation.

Results:

* `Yaml.gapAhead_of_isBreak`: a line break is a gap.
-/

namespace ShapeAlgebra.Yaml

/-- A mark or a scalar. -/
inductive Token where
  /-- A line that gives the version of the text. -/
  | version (major minor : Nat)
  /-- A line that gives the beginning for which a handle stands. -/
  | handle (name beginning : List Char)
  /-- A line for other readers. -/
  | remark
  | documentStart
  | documentEnd
  | blockSequence
  | blockMapping
  | blockEnd
  | flowSequence
  | flowSequenceEnd
  | flowMapping
  | flowMappingEnd
  /-- The dash of an item. -/
  | item
  /-- The comma between the parts of a collection in brackets. -/
  | comma
  /-- The beginning of a key. -/
  | key
  /-- The colon in front of a value. -/
  | value
  | alias (name : List Char)
  | anchor (name : List Char)
  /-- A tag: a handle, if there is one, and the rest. -/
  | tag (handle : Option (List Char)) (rest : List Char)
  /-- A scalar, and whether it is plain. -/
  | scalar (plain : Bool) (t : Text)
deriving DecidableEq, Repr

/-! ## Classes of characters -/

/-- Whether a character ends a line. -/
def isBreak (c : Char) : Bool := c == '\n' || c == '\x85' || c == '\u2028' || c == '\u2029'

/-- Whether a character is a blank inside a line. -/
def isSpace (c : Char) : Bool := c == ' ' || c == '\t'

/-- What a line break stands for in a scalar that keeps it. -/
def keptBreak (c : Char) : Char := if c == '\x85' then '\n' else c

/-- Whether the text ends here, or a blank or a line break follows. -/
def gapAhead : List Char → Bool
  | [] => true
  | c :: _ => isSpace c || isBreak c

/-- Whether the line ends here. -/
def lineEnds : List Char → Bool
  | [] => true
  | c :: _ => isBreak c

/-- Whether the line, at whose beginning `cs` is, separates documents by the mark `m`. -/
def markAhead (m : Char) : List Char → Bool
  | a :: b :: c :: cs => a == m && b == m && c == m && gapAhead cs
  | _ => false

/-- Whether the line, at whose beginning `cs` is, separates documents. -/
def separatorAhead (cs : List Char) : Bool := markAhead '-' cs || markAhead '.' cs

/-- Whether a character may stand in a name. -/
def isNameChar (c : Char) : Bool := c.isAlphanum || c == '-' || c == '_'

/-- Whether the character is known to be printable or a blank, as every character of a text must
be. -/
def isAllowed (c : Char) : Bool :=
  let n := c.toNat
  n == 0x09 || n == 0x0A || n == 0x0D || (0x20 ≤ n && n ≤ 0x7E) || n == 0x85 ||
    (0xA0 ≤ n && n ≤ 0xD7FF) || (0xE000 ≤ n && n ≤ 0xFFFD) || 0x10000 ≤ n

theorem gapAhead_of_isBreak {c : Char} (h : isBreak c = true) (cs : List Char) :
    gapAhead (c :: cs) = true := by
  simp [gapAhead, h]

end ShapeAlgebra.Yaml
