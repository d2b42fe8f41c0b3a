import ShapeAlgebra.Declaration.Written
import ShapeAlgebra.Failure
import ShapeAlgebra.Json.Printer
import ShapeAlgebra.Schema.Render
import ShapeAlgebra.Yaml.Printer

/-!
# Output formats

A schema is printed as the declaration that denotes it, in YAML or JSON, or in the compact notation
on one line.

Results:

* `OutputFormat.ofName?_name`: the formats are determined by their names.
-/

namespace ShapeAlgebra

/-- The formats in which schemas are printed (`OUTPUT_FORMATS`). -/
inductive OutputFormat where
  | yaml
  | json
  | text
deriving DecidableEq, Repr

namespace OutputFormat

/-- All formats, in their usual order. -/
def all : List OutputFormat := [.yaml, .json, .text]

/-- The name of a format in requests. -/
def name : OutputFormat → String
  | .yaml => "yaml"
  | .json => "json"
  | .text => "text"

/-- The format with a given name. -/
def ofName? (t : Text) : Option OutputFormat := all.find? fun f => t == Text.ofString f.name

theorem ofName?_name (f : OutputFormat) : ofName? (Text.ofString f.name) = some f := by
  cases f <;> decide

/-- The format that a name in a request denotes. -/
def ofName (t : Text) : Except Failure OutputFormat :=
  match ofName? t with
  | some f => .ok f
  | none => .error (.unknownFormat t)

end OutputFormat

/-- A text without the line breaks at its end. -/
def withoutFinalBreaks (cs : List Char) : List Char :=
  (cs.reverse.dropWhile (· == '\n')).reverse

/-- A schema in an output format (`format_schema`). -/
def Schema.print (s : Schema) : OutputFormat → Text
  | .text => s.render
  | .json => Text.ofChars (Json.print 0 s.declare)
  | .yaml => Text.ofChars (withoutFinalBreaks (Yaml.write s.declare))

end ShapeAlgebra
