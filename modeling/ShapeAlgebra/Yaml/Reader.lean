import ShapeAlgebra.Yaml.Node.Reader
import ShapeAlgebra.Yaml.Node.Unfolding

/-!
# Reading YAML texts

The plain data of a text that holds one document at most. A text of blanks and comments holds null.

Results:

* `Yaml.read_of_not_allowed`: a text with a control character cannot be read.
-/

namespace ShapeAlgebra.Yaml

/-- The plain data that a text holds (`safe_load`). Its lines end with line feeds. -/
def read (cs : List Char) : Except Fault Data := do
  if !cs.all isAllowed then throw .malformed
  match ← Graph.ofTokens? (Tokens.ofChars cs) with
  | none => return .null
  | some g => g.toData

theorem read_of_not_allowed {cs : List Char} (h : cs.all isAllowed = false) :
    read cs = .error .malformed := by
  simp only [read, h]
  rfl

end ShapeAlgebra.Yaml
