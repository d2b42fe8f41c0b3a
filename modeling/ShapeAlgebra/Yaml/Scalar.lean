import ShapeAlgebra.Yaml.Style

/-!
# Writing scalars

The characters of a scalar at its place: `column` is where it begins, `indent` where its further
lines begin. Lines longer than `lineWidth` are broken where the style can break them, except in the
key of a mapping, which stays on its line.

Results:

* `Yaml.foldLines_unbroken`: a text of one line is not changed where lines are not broken.
-/

namespace ShapeAlgebra.Yaml

/-- The column after which lines are broken. -/
def lineWidth : Nat := 80

/-- The blanks at the beginning of a line. -/
def blanks (indent : Nat) : List Char := List.replicate indent ' '

/-- A line break, and the blanks of the next line. -/
def newline (indent : Nat) : List Char := '\n' :: blanks indent

/-- Where a scalar is written, and whether its lines may be broken. -/
structure Place where
  indent : Nat
  column : Nat
  breaks : Bool := true

/-! ## Plain and between single quotes -/

/-- What stands in front of a character. -/
inductive Before where
  | start
  | word
  | blank
  | lineBreak
deriving DecidableEq, Repr

/-- Whether a word begins at the front of `cs`. -/
def startsWord : List Char → Bool
  | [] => false
  | c :: _ => c != ' '

/-- `cs` over several lines: a line is broken at a blank that stands alone between two words behind
`lineWidth`, and a run of line breaks is written with one more, as one alone means a blank. -/
def foldLines (breaks : Bool) (indent column : Nat) (before : Before) : List Char → List Char
  | [] => []
  | ' ' :: cs =>
    if breaks && before == .word && decide (lineWidth < column) && startsWord cs then
      newline indent ++ foldLines breaks indent indent .blank cs
    else ' ' :: foldLines breaks indent (column + 1) .blank cs
  | '\n' :: cs =>
    (if before == .lineBreak then [] else ['\n']) ++
      (if cs.head? = some '\n' then ['\n'] else newline indent) ++
        foldLines breaks indent indent .lineBreak cs
  | c :: cs => c :: foldLines breaks indent (column + 1) .word cs

theorem foldLines_unbroken (indent column : Nat) (before : Before) (cs : List Char)
    (h : '\n' ∉ cs) : foldLines false indent column before cs = cs := by
  induction cs generalizing column before with
  | nil => rfl
  | cons c cs ih =>
    simp only [List.mem_cons, not_or] at h
    have h' := fun column before => ih column before h.2
    unfold foldLines
    split <;> simp_all

/-- The characters of a text between single quotes: a quote is written twice. -/
def quotesDoubled (cs : List Char) : List Char :=
  cs.flatMap fun c => if c = '\'' then ['\'', '\''] else [c]

/-! ## Between double quotes -/

/-- The digits of `n` in base sixteen, in at least `width` places, with capital letters. -/
def hexEscape (width n : Nat) : List Char :=
  let ds := (Nat.toDigits 16 n).map Char.toUpper
  List.replicate (width - ds.length) '0' ++ ds

/-- The letter that stands for a code point behind a backslash. -/
def escapeLetter? (code : Nat) : Option Char :=
  [(0x00, '0'), (0x07, 'a'), (0x08, 'b'), (0x09, 't'), (0x0A, 'n'), (0x0B, 'v'), (0x0C, 'f'),
    (0x0D, 'r'), (0x1B, 'e'), (0x22, '"'), (0x5C, '\\'), (0x85, 'N'), (0xA0, '_'), (0x2028, 'L'),
    (0x2029, 'P')].lookup code

/-- The escape of a code point, unless it stands for itself. -/
def escape? (p : CodePoint) : Option (List Char) :=
  let n := p.code
  match escapeLetter? n with
  | some c => some ['\\', c]
  | none =>
    if 0x20 ≤ n ∧ n ≤ 0x7E then none
    else if n ≤ 0xFF then some ('\\' :: 'x' :: hexEscape 2 n)
    else if n ≤ 0xFFFF then some ('\\' :: 'u' :: hexEscape 4 n)
    else some ('\\' :: 'U' :: hexEscape 8 n)

/-- The character that a code point without an escape is. -/
def plainChar (p : CodePoint) : Char := Char.ofNat p.code

/-- A broken line between double quotes, and the column behind it: a backslash in front of the break
keeps it out of the text, and one behind it keeps a blank that follows. -/
def brokenLine (indent : Nat) (blankFollows : Bool) : List Char × Nat :=
  if blankFollows then ('\\' :: (newline indent ++ ['\\']), indent + 1)
  else ('\\' :: newline indent, indent)

/-- A text between double quotes. `afterEscape` tells whether an escape, or nothing, was the last
thing on the line, and `first` whether the text begins here. -/
def escapeLines (breaks : Bool) (indent column : Nat) (afterEscape first : Bool) : Text → List Char
  | [] => []
  | p :: ps =>
    let mayBreak := breaks && !first && !ps.isEmpty
    match escape? p with
    | some e =>
      let column := column + e.length
      if mayBreak && decide (lineWidth + 1 < column) then
        let (gap, column) := brokenLine indent (ps.head? == some (.scalar ' '))
        e ++ gap ++ escapeLines breaks indent column true false ps
      else e ++ escapeLines breaks indent column true false ps
    | none =>
      let isBlank := p == .scalar ' '
      if mayBreak && (isBlank || afterEscape) && decide (lineWidth < column) then
        let (gap, column) := brokenLine indent isBlank
        gap ++ plainChar p :: escapeLines breaks indent (column + 1) false false ps
      else plainChar p :: escapeLines breaks indent (column + 1) false false ps

/-! ## In its style -/

/-- A text whose characters need no escape, in one of the styles without escapes. -/
def writeOrdinary (place : Place) (cs : List Char) : Style → List Char
  | .plain => foldLines place.breaks place.indent place.column .start cs
  | _ => '\'' ::
      (foldLines place.breaks place.indent (place.column + 1) .start (quotesDoubled cs) ++ ['\''])

/-- A text between double quotes. -/
def writeEscaped (place : Place) (t : Text) : List Char :=
  '"' :: (escapeLines place.breaks place.indent (place.column + 1) true true t ++ ['"'])

/-- A text as a scalar at its place. -/
def writeScalar (place : Place) (t : Text) : List Char :=
  match ordinaryChars? t with
  | none => writeEscaped place t
  | some cs => match Style.ofOrdinary cs with
    | .double => writeEscaped place t
    | style => writeOrdinary place cs style

end ShapeAlgebra.Yaml
