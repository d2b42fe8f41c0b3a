import ShapeAlgebra.Yaml.Fault
import ShapeAlgebra.Yaml.Token

/-!
# Quoted scalars

The text between two quotes. A run of blanks with line breaks in it means a blank, or one line break
less than it has. Between double quotes a backslash begins an escape, and in front of a line break
it takes the break out of the text.

Results:

* `Yaml.Gap.text_blanks_nil`: where nothing was skipped nothing is added.
-/

namespace ShapeAlgebra.Yaml

/-- What was skipped since the last character of a text, the latest first. -/
inductive Gap where
  /-- Blanks on one line. -/
  | blanks (cs : List Char)
  /-- A line break, and the line breaks after it. -/
  | folded (first : Char) (more : List Char)
  /-- A line break that was escaped, and the line breaks after it. -/
  | joined (more : List Char)
deriving DecidableEq, Repr

namespace Gap

/-- What a gap means in a text. -/
def text : Gap → List Char
  | .blanks cs => cs.reverse
  | .folded first more =>
    (if first == '\n' then (if more.isEmpty then [' '] else []) else [first]) ++ more.reverse
  | .joined more => more.reverse

/-- The gap with one more line break. -/
def newline (g : Gap) (c : Char) : Gap :=
  match g with
  | .blanks _ => .folded (keptBreak c) []
  | .folded first more => .folded first (keptBreak c :: more)
  | .joined more => .joined (keptBreak c :: more)

/-- The gap with one more blank: at the beginning of a line it means nothing. -/
def space (g : Gap) (c : Char) : Gap :=
  match g with
  | .blanks cs => .blanks (c :: cs)
  | g => g

theorem text_blanks_nil : text (.blanks []) = [] := rfl

end Gap

/-- What a letter behind a backslash stands for. -/
def escapeValue? (c : Char) : Option Char :=
  [('0', '\x00'), ('a', '\x07'), ('b', '\x08'), ('t', '\t'), ('\t', '\t'), ('n', '\n'),
    ('v', '\x0b'), ('f', '\x0c'), ('r', '\r'), ('e', '\x1b'), (' ', ' '), ('"', '"'), ('\\', '\\'),
    ('/', '/'), ('N', '\x85'), ('_', '\xa0'), ('L', '\u2028'), ('P', '\u2029')].lookup c

/-- The value of a digit in base sixteen. -/
def hexDigitValue? (c : Char) : Option Nat :=
  if c.isDigit then some (c.toNat - '0'.toNat)
  else if 'a' ≤ c ∧ c ≤ 'f' then some (c.toNat - 'a'.toNat + 10)
  else if 'A' ≤ c ∧ c ≤ 'F' then some (c.toNat - 'A'.toNat + 10)
  else none

/-- The number that digits in base sixteen denote. -/
def hexValue? (ds : List Char) : Option Nat :=
  ds.foldlM (fun n d => (hexDigitValue? d).map (16 * n + ·)) 0

/-- The code point that the digits of an escape denote. -/
def escapedCode (ds : List Char) : Except Fault CodePoint :=
  match hexValue? ds with
  | none => .error .malformed
  | some n => match CodePoint.ofCode n with
    | some p => .ok p
    | none => .error (if n < 0x80000000 then .escapeTooLarge else .escapeOverflow)

/-- Puts `before` in front of a text that was read. -/
def prepend (before : Text) (r : Except Fault (Text × List Char)) :
    Except Fault (Text × List Char) :=
  r.map fun (t, rest) => (before ++ t, rest)

/-- The text from here to the closing quote, and what follows that. `gap` is what was skipped before
`cs`. -/
def quotedBody (double : Bool) (gap : Gap) : List Char → Except Fault (Text × List Char)
  | [] => .error .malformed
  | c :: cs =>
    let before := Text.ofChars gap.text
    if isSpace c then quotedBody double (gap.space c) cs
    else if isBreak c then
      if separatorAhead cs then .error .malformed else quotedBody double (gap.newline c) cs
    else if double && c == '"' then .ok (before, cs)
    else if !double && c == '\'' then
      match cs with
      | '\'' :: cs => prepend (before ++ [.scalar '\'']) (quotedBody double (.blanks []) cs)
      | cs => .ok (before, cs)
    else if double && c == '\\' then
      match cs with
      | 'x' :: a :: b :: cs => do
        let p ← escapedCode [a, b]
        prepend (before ++ [p]) (quotedBody double (.blanks []) cs)
      | 'u' :: a :: b :: c :: d :: cs => do
        let p ← escapedCode [a, b, c, d]
        prepend (before ++ [p]) (quotedBody double (.blanks []) cs)
      | 'U' :: a :: b :: c :: d :: e :: f :: g :: h :: cs => do
        let p ← escapedCode [a, b, c, d, e, f, g, h]
        prepend (before ++ [p]) (quotedBody double (.blanks []) cs)
      | c :: cs =>
        if isBreak c then
          if separatorAhead cs then .error .malformed
          else prepend before (quotedBody double (.joined []) cs)
        else match escapeValue? c with
          | some v => prepend (before ++ [.scalar v]) (quotedBody double (.blanks []) cs)
          | none => .error .malformed
      | [] => .error .malformed
    else prepend (before ++ [.scalar c]) (quotedBody double (.blanks []) cs)

end ShapeAlgebra.Yaml
