import ShapeAlgebra.Document
import ShapeAlgebra.Yaml.Scalar

/-!
# YAML text of documents

Documents in block style. Each entry of a mapping and each item of a list begins a line, nested
mappings stand two blanks deeper, and the items of a list under a key stand as deep as the key. A
key that is empty, long or of several lines stands behind a question mark, with the value on a line
of its own.

Results:

* `Yaml.write_ends`: what is written ends with a line break.
-/

namespace ShapeAlgebra.Yaml

/-- The number of code points from which on a key stands behind a question mark. -/
def longKey : Nat := 123

/-- Whether a key stands on one line with its value. -/
def isSimpleKey (k : Text) : Bool := !k.isEmpty && decide (k.length < longKey) && !isMultiline k

/-- The word for a truth value. -/
def boolWord (b : Bool) : List Char := (if b then "true" else "false").toList

/-- A key, the colon behind it, and the column behind the colon. -/
def writeKey (indent : Nat) (k : Text) : List Char × Nat :=
  if isSimpleKey k then
    let cs := writeScalar ⟨indent, indent, false⟩ k
    (cs ++ [':'], indent + cs.length + 1)
  else
    let cs := writeScalar ⟨indent + 2, indent + 2, true⟩ k
    ('?' :: ' ' :: (cs ++ newline indent ++ [':']), indent + 1)

mutual

/-- A document behind a mark that leaves it the columns from `indent` on. -/
def writeNode (indent : Nat) : Document → List Char
  | .text t => writeScalar ⟨indent, indent, true⟩ t
  | .bool b => boolWord b
  | .list items => if items.isEmpty then ['[', ']'] else writeItems indent items
  | .mapping entries => if entries.isEmpty then ['\x7b', '\x7d'] else writeEntries indent entries

/-- A document behind the colon of a key that stands at `indent` and has room on its line. -/
def writeValue (indent column : Nat) : Document → List Char
  | .text t => ' ' :: writeScalar ⟨indent + 2, column + 1, true⟩ t
  | .bool b => ' ' :: boolWord b
  | .list items =>
    if items.isEmpty then [' ', '[', ']'] else newline indent ++ writeItems indent items
  | .mapping entries =>
    if entries.isEmpty then [' ', '\x7b', '\x7d']
    else newline (indent + 2) ++ writeEntries (indent + 2) entries

/-- The items of a list, each behind a dash. -/
def writeItems (indent : Nat) : List Document → List Char
  | [] => []
  | d :: ds =>
    '-' :: ' ' :: (writeNode (indent + 2) d ++
      (if ds.isEmpty then [] else newline indent ++ writeItems indent ds))

/-- The entries of a mapping, each key with its value. -/
def writeEntries (indent : Nat) : List (Text × Document) → List Char
  | [] => []
  | (k, d) :: rest =>
    let (key, column) := writeKey indent k
    key ++
      (if isSimpleKey k then writeValue indent column d else ' ' :: writeNode (indent + 2) d) ++
      (if rest.isEmpty then [] else newline indent ++ writeEntries indent rest)

end

/-- Whether a document is a single scalar without quotes, whose end must be marked. -/
def isOpenEnded : Document → Bool
  | .text t => Style.of t == .plain
  | .bool _ => true
  | _ => false

/-- A whole document (`safe_dump`). -/
def write (d : Document) : List Char :=
  (match d with
    | .text t => writeScalar ⟨2, 0, true⟩ t
    | d => writeNode 0 d) ++ (if isOpenEnded d then "\n...\n".toList else ['\n'])

theorem write_ends (d : Document) : (write d).getLast? = some '\n' := by
  unfold write
  split <;> split <;> simp [List.getLast?_append]

end ShapeAlgebra.Yaml
