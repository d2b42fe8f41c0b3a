import ShapeAlgebra.Document

/-!
# JSON text of documents

Documents as JSON over several lines, two blanks deeper at each level. The output is ASCII: every
other code point is escaped, one beyond the basic plane as the two halves of its surrogate pair.

Results:

* `Json.string_ends`: a string begins and ends with a double quote.
-/

namespace ShapeAlgebra.Json

/-- The escape of a UTF-16 unit: four digits in base sixteen. -/
def unitEscape (n : Nat) : List Char :=
  let digits := Nat.toDigits 16 n
  '\\' :: 'u' :: (List.replicate (4 - digits.length) '0' ++ digits)

/-- What stands for a code point inside a string. -/
def escaped (p : CodePoint) : List Char :=
  match p with
  | .scalar '"' => ['\\', '"']
  | .scalar '\\' => ['\\', '\\']
  | .scalar '\n' => ['\\', 'n']
  | .scalar '\r' => ['\\', 'r']
  | .scalar '\t' => ['\\', 't']
  | .scalar '\x0c' => ['\\', 'f']
  | .scalar '\x08' => ['\\', 'b']
  | p =>
    let n := p.code
    if 0x20 ≤ n ∧ n < 0x7F then [Char.ofNat n]
    else if n < 0x10000 then unitEscape n
    else unitEscape (0xD800 + (n - 0x10000) / 0x400) ++ unitEscape (0xDC00 + (n - 0x10000) % 0x400)

/-- A text as a JSON string. -/
def string (t : Text) : List Char := '"' :: (t.flatMap escaped ++ ['"'])

theorem string_ends (t : Text) :
    (string t).head? = some '"' ∧ (string t).getLast? = some '"' := by
  refine ⟨rfl, ?_⟩
  rw [string, ← List.cons_append, List.getLast?_append]
  rfl

/-- A line break and the blanks of a level. -/
def newline (level : Nat) : List Char := '\n' :: List.replicate (2 * level) ' '

/-- Items between brackets, each on a line of its own. -/
def block (opening closing : Char) (level : Nat) (items : List (List Char)) : List Char :=
  if items.isEmpty then [opening, closing]
  else opening :: (((items.map fun i => newline (level + 1) ++ i).intersperse [',']).flatten ++
    newline level ++ [closing])

mutual

/-- The JSON text of a document at a level (`dumps`). -/
def print (level : Nat) : Document → List Char
  | .text t => string t
  | .bool b => (if b then "true" else "false").toList
  | .list items => block '[' ']' level (printAll (level + 1) items)
  | .mapping entries => block '\x7b' '\x7d' level (printEntries (level + 1) entries)

/-- The JSON text of each of several documents. -/
def printAll (level : Nat) : List Document → List (List Char)
  | [] => []
  | d :: ds => print level d :: printAll level ds

/-- The JSON text of each entry of a mapping. -/
def printEntries (level : Nat) : List (Text × Document) → List (List Char)
  | [] => []
  | (k, d) :: rest => (string k ++ ':' :: ' ' :: print level d) :: printEntries level rest

end

end ShapeAlgebra.Json
