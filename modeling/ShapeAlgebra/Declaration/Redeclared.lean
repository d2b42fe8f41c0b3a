import ShapeAlgebra.Declaration.Catalog
import ShapeAlgebra.Declaration.Written

/-!
# Schemas read back from their declarations

A schema is declared under a name in a document of its own, and the document is read again.

Results:

* `Schema.find?_derivedDocument`: the document has one part, in which the schema is declared.
-/

namespace ShapeAlgebra.Schema

/-- The name under which a derived schema is declared. -/
def derivedName : Text := "Derived"

/-- The entries of a document that declares a schema and nothing else. -/
def derivedDocument (s : Schema) : List (Data × Data) :=
  [(.text "schemas", .mapping [(.text derivedName, s.declare.toData)])]

theorem find?_derivedDocument (s : Schema) : Data.find? s.derivedDocument "schemas" =
    some (.mapping [(.text derivedName, s.declare.toData)]) := by
  simp [derivedDocument, Data.find?, Data.sameKey]

/-- The schema that is read back from the declaration of a schema. -/
def redeclared (s : Schema) : Except DeclarationFault Schema := do
  (← Catalog.ofDocument s.derivedDocument none).get derivedName

end ShapeAlgebra.Schema
