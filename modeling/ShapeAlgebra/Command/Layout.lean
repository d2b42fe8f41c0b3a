import ShapeAlgebra.Text

/-!
# Layout of help texts

Texts broken into lines, and lists of terms with their explanations in two columns.

Results:

* `Command.chunks_flatten`: cutting a text into chunks loses nothing.
-/

namespace ShapeAlgebra.Command

/-- The number of columns of a help text. -/
def helpWidth : Nat := 78

/-- Whether a line may end between the characters `a` and `b`, with `x` in front of `a`: where
blanks begin or end, and behind a hyphen between letters. -/
def mayEnd (x : Option Char) (a b : Char) : Bool :=
  ((a == ' ') != (b == ' ')) || (a == '-' && x.any Char.isAlpha && b.isAlpha)

/-- A text cut wherever a line may end. -/
def chunksFrom (x : Option Char) : List Char → List (List Char)
  | [] => []
  | [a] => [[a]]
  | a :: b :: cs =>
    match chunksFrom (some a) (b :: cs) with
    | [] => [[a]]
    | w :: ws => if mayEnd x a b then [a] :: w :: ws else (a :: w) :: ws

/-- A text cut wherever a line may end. -/
def chunks (cs : List Char) : List (List Char) := chunksFrom none cs

theorem chunksFrom_flatten (x : Option Char) (cs : List Char) :
    (chunksFrom x cs).flatten = cs := by
  induction cs generalizing x with
  | nil => rfl
  | cons a cs ih =>
    cases cs with
    | nil => rfl
    | cons b cs =>
      have h := ih (some a)
      rw [chunksFrom]
      cases hw : chunksFrom (some a) (b :: cs) with
      | nil => rw [hw] at h; simp at h
      | cons w ws =>
        rw [hw] at h
        cases hm : mayEnd x a b <;> simpa [hm] using h

theorem chunks_flatten (cs : List Char) : (chunks cs).flatten = cs := chunksFrom_flatten none cs

/-- Whether a chunk is of blanks. -/
def isBlankChunk (w : List Char) : Bool := w.all (· == ' ')

/-- A line without the blanks at its end. -/
def withoutFinalBlanks (cs : List Char) : List Char :=
  (cs.reverse.dropWhile (· == ' ')).reverse

/-- Lines of at most `width` columns made of chunks, as many on a line as fit. `line` is the line
that has been begun, and blanks at the beginning of a later line are left out. -/
def fill (width : Nat) (line : List Char) : List (List Char) → List (List Char)
  | [] => [withoutFinalBlanks line]
  | w :: ws =>
    if line.isEmpty || line.length + w.length ≤ width then fill width (line ++ w) ws
    else withoutFinalBlanks line :: fill width (if isBlankChunk w then [] else w) ws

/-- A text in lines of at most `width` columns. -/
def lines (width : Nat) (cs : List Char) : List (List Char) := fill width [] (chunks cs)

/-- Some blanks. -/
def gap (n : Nat) : List Char := List.replicate n ' '

/-- A text behind a heading, further lines beginning below its first character. -/
def hanging (heading : List Char) (cs : List Char) : List (List Char) :=
  match lines (helpWidth - heading.length) cs with
  | [] => [heading]
  | l :: ls => (heading ++ l) :: ls.map (gap heading.length ++ ·)

/-- The greatest width of the first column of a list of terms. -/
def widestTerm : Nat := 30

/-- Terms with their explanations, two blanks from the edge. A term that is wider than its column
has a line of its own. -/
def definitions (rows : List (List Char × List Char)) : List (List Char) :=
  let widest := (rows.map fun r => r.1.length).foldl max 0
  let column := min widest widestTerm + 2
  rows.flatMap fun (term, explanation) =>
    let body := lines (helpWidth - column - 2) explanation
    let below := body.map (gap (column + 2) ++ ·)
    if term.length + 2 ≤ column then
      match body with
      | [] => [gap 2 ++ term]
      | l :: _ => (gap 2 ++ term ++ gap (column - term.length) ++ l) :: below.tail
    else (gap 2 ++ term) :: below

end ShapeAlgebra.Command
