import ShapeAlgebra.Data

/-!
# Documents

The plain data that this library writes: texts, truth values, lists, and mappings whose keys are
texts.

Results:

* `Document.toData_text`, `Document.toData_bool`: a document is read as plain data part by part.
-/

namespace ShapeAlgebra

/-- Plain data made of texts, truth values, lists and mappings from texts. -/
inductive Document where
  | text (t : Text)
  | bool (b : Bool)
  | list (items : List Document)
  | mapping (entries : List (Text × Document))
deriving Repr, Inhabited

namespace Document

mutual

/-- The document as plain data. -/
def toData : Document → Data
  | .text t => .text t
  | .bool b => .bool b
  | .list items => .list (toDataAll items)
  | .mapping entries => .mapping (toDataEntries entries)

/-- Each of several documents as plain data. -/
def toDataAll : List Document → List Data
  | [] => []
  | d :: ds => toData d :: toDataAll ds

/-- Each entry of a mapping as plain data. -/
def toDataEntries : List (Text × Document) → List (Data × Data)
  | [] => []
  | (k, d) :: rest => (.text k, toData d) :: toDataEntries rest

end

@[simp] theorem toData_text (t : Text) : toData (.text t) = .text t := rfl

@[simp] theorem toData_bool (b : Bool) : toData (.bool b) = .bool b := rfl

/-- Whether the document is a mapping with the given key. -/
def hasKey (d : Document) (key : Text) : Bool :=
  match d with
  | .mapping entries => entries.any fun p => p.1 == key
  | _ => false

end Document

end ShapeAlgebra
