import ShapeAlgebra.Yaml.Token.Quoted

/-!
# Plain scalars in a text

A plain scalar ends where a comment, a mark or a line that is not indented enough begins. Inside
brackets commas and brackets end it too, and indentation has no meaning.

Results:

* `Yaml.plainBody_gap_nil`: at the end of the text nothing is added to a scalar.
-/

namespace ShapeAlgebra.Yaml

/-- Whether a mark, and no more of a plain scalar, is at the front of `c :: cs`. -/
def endsPlain (flow : Bool) (c : Char) (cs : List Char) : Bool :=
  c == '\t' ||
    (c == ':' &&
      (gapAhead cs || (flow && cs.head?.any fun d => ",[]\x7b\x7d".toList.contains d))) ||
    (flow && ",?[]\x7b\x7d".toList.contains c)

/-- Whether a plain scalar can begin with `c`, with `cs` behind it. -/
def startsPlain (flow : Bool) (c : Char) (cs : List Char) : Bool :=
  !(isSpace c || isBreak c || "-?:,[]\x7b\x7d#&*!|>'\"%@`".toList.contains c) ||
    (!gapAhead cs && (c == '-' || (!flow && (c == '?' || c == ':'))))

/-- A plain scalar as it was read. -/
structure PlainRead where
  text : List Char
  /-- What follows the scalar and the blanks behind it. -/
  rest : List Char
  /-- Whether there was a line break among those blanks. -/
  crossed : Bool
deriving DecidableEq, Repr

/-- Whether a gap has a line break in it. -/
def Gap.isCrossed : Gap → Bool
  | .blanks _ => false
  | _ => true

/-- Whether there is no gap. -/
def Gap.isNone : Gap → Bool
  | .blanks [] => true
  | _ => false

/-- The scalar from here on. `column` counts the blanks of this line if `gap` has a line break, and
further lines begin at `indent` or behind it. -/
def plainBody (flow : Bool) (indent column : Nat) (gap : Gap) : List Char → PlainRead
  | [] => ⟨[], [], gap.isCrossed⟩
  | c :: cs =>
    if c == ' ' then plainBody flow indent (column + 1) (gap.space c) cs
    else if isBreak c then
      if separatorAhead cs then ⟨[], cs, true⟩
      else plainBody flow indent 0 (gap.newline c) cs
    else if endsPlain flow c cs || (!gap.isNone && c == '#') ||
        (gap.isCrossed && !flow && decide (column < indent)) then
      ⟨[], c :: cs, gap.isCrossed⟩
    else
      let r := plainBody flow indent column (.blanks []) cs
      { r with text := gap.text ++ c :: r.text }

theorem plainBody_gap_nil (flow : Bool) (indent column : Nat) (gap : Gap) :
    (plainBody flow indent column gap []).text = [] := rfl

end ShapeAlgebra.Yaml
