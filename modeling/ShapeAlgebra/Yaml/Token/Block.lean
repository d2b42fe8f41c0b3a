import ShapeAlgebra.Yaml.Token.Quoted

/-!
# Block scalars

The lines below a `|` or `>`, as far as they are indented. Below `|` the line breaks are kept, below
`>` a line break between two lines that begin with words means a blank. A mark in the header says
what happens to the line breaks at the end, and a digit how far the lines are indented.

Results:

* `Yaml.indentedBreaks_nil`: at the end of the text there are no line breaks.
-/

namespace ShapeAlgebra.Yaml

/-- What happens to the line breaks at the end of a block scalar. -/
inductive Chomping where
  /-- All are taken away. -/
  | strip
  /-- The first is kept. -/
  | clip
  /-- All are kept. -/
  | keep
deriving DecidableEq, Repr

/-- The header of a block scalar. -/
structure BlockHeader where
  chomping : Chomping
  /-- How far the lines are indented beyond what is around them, if the header says so. -/
  increment : Option Nat
deriving DecidableEq, Repr

/-- The mark of a character for chomping. -/
def chompingMark? (c : Char) : Option Chomping :=
  if c == '+' then some .keep else if c == '-' then some .strip else none

/-- The digit of a header, which is not zero. -/
def incrementDigit? (c : Char) : Option Nat :=
  if '1' ≤ c ∧ c ≤ '9' then some (c.toNat - '0'.toNat) else none

/-- What follows blanks and perhaps a comment, which must be the end of the line. -/
def restOfLine? (cs : List Char) : Option (List Char) :=
  let cs := cs.dropWhile (· == ' ')
  let cs := if cs.head? = some '#' then cs.dropWhile fun c => !isBreak c else cs
  match cs with
  | [] => some []
  | c :: cs => if isBreak c then some cs else none

/-- The header behind the mark of a block scalar, and the lines below it. -/
def blockHeader? (cs : List Char) : Option (BlockHeader × List Char) := do
  let (header, cs) : BlockHeader × List Char := match cs with
    | c :: d :: cs =>
      match chompingMark? c, incrementDigit? d, incrementDigit? c, chompingMark? d with
      | some m, some n, _, _ => (⟨m, some n⟩, cs)
      | some m, none, _, _ => (⟨m, none⟩, d :: cs)
      | none, _, some n, some m => (⟨m, some n⟩, cs)
      | none, _, some n, none => (⟨.clip, some n⟩, d :: cs)
      | none, _, none, _ => (⟨.clip, none⟩, c :: d :: cs)
    | [c] => match chompingMark? c, incrementDigit? c with
      | some m, _ => (⟨m, none⟩, [])
      | none, some n => (⟨.clip, some n⟩, [])
      | none, none => (⟨.clip, none⟩, [c])
    | [] => (⟨.clip, none⟩, [])
  guard (lineEnds cs || cs.head? = some ' ')
  let lines ← restOfLine? cs
  return (header, lines)

/-- Blank lines in front of a line: their line breaks, the column that is reached, and the rest. -/
structure BlankLines where
  breaks : List Char
  column : Nat
  rest : List Char
deriving DecidableEq, Repr

/-- The blank lines from here on, and the blanks of the next line up to the column `indent`. -/
def indentedBreaks (indent column : Nat) : List Char → BlankLines
  | [] => ⟨[], column, []⟩
  | c :: cs =>
    if c == ' ' && decide (column < indent) then indentedBreaks indent (column + 1) cs
    else if isBreak c then
      let r := indentedBreaks indent 0 cs
      { r with breaks := keptBreak c :: r.breaks }
    else ⟨[], column, c :: cs⟩

theorem indentedBreaks_nil (indent column : Nat) : (indentedBreaks indent column []).breaks = [] :=
  rfl

/-- The blank lines from here on and all blanks of the next line, with the greatest column that was
reached on any of them. -/
def detectedBreaks (deepest column : Nat) : List Char → Nat × BlankLines
  | [] => (deepest, ⟨[], column, []⟩)
  | c :: cs =>
    if c == ' ' then detectedBreaks (max deepest (column + 1)) (column + 1) cs
    else if isBreak c then
      let (d, r) := detectedBreaks deepest 0 cs
      (d, { r with breaks := keptBreak c :: r.breaks })
    else (deepest, ⟨[], column, c :: cs⟩)

/-- The lines of a block scalar up to its last character, the line breaks behind that, and the rest.
-/
structure BlockRead where
  text : List Char
  lastBreak : List Char
  breaks : List Char
  rest : List Char
deriving DecidableEq, Repr

/-- Whether a line begins with a blank. -/
def startsBlank (cs : List Char) : Bool := cs.head?.any isSpace

/-- The lines behind the blank lines `before`, as long as they reach the column `indent`. Each step
takes a line, so that `fuel` need not exceed the number of characters. -/
def blockLines (folded : Bool) (indent : Nat) : (fuel : Nat) → (before : BlankLines) → BlockRead
  | 0, before => ⟨[], [], before.breaks, before.rest⟩
  | fuel + 1, before =>
    if before.column ≠ indent ∨ before.rest.isEmpty then ⟨[], [], before.breaks, before.rest⟩
    else
      let (line, below) := before.rest.span fun c => !isBreak c
      let lastBreak := below.take 1 |>.map keptBreak
      let next := indentedBreaks indent 0 below.tail
      if next.column = indent ∧ !next.rest.isEmpty then
        let joined := folded && lastBreak == ['\n'] && !startsBlank before.rest &&
          !startsBlank next.rest
        let between := if joined then (if next.breaks.isEmpty then [' '] else []) else lastBreak
        let r := blockLines folded indent fuel next
        { r with text := before.breaks ++ line ++ between ++ r.text }
      else ⟨before.breaks ++ line, lastBreak, next.breaks, next.rest⟩

/-- The block scalar behind its mark, at least `least` columns deep, and what follows it. -/
def blockBody (folded : Bool) (least : Nat) (cs : List Char) :
    Except Fault (List Char × List Char) :=
  match blockHeader? cs with
  | none => .error .malformed
  | some (header, lines) =>
    let least := max least 1
    let (indent, before) := match header.increment with
      | some n =>
        let indent := least + n - 1
        (indent, indentedBreaks indent 0 lines)
      | none =>
        let (deepest, before) := detectedBreaks 0 0 lines
        (max least deepest, before)
    let r := blockLines folded indent (lines.length + 1) before
    .ok (r.text ++ (match header.chomping with
      | .strip => []
      | .clip => r.lastBreak
      | .keep => r.lastBreak ++ r.breaks), r.rest)

end ShapeAlgebra.Yaml
