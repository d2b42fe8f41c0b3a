/-!
# Tags

A tag says how the parts of a text are to be read. Tags are written in full, or behind a handle that
stands for their beginning.

Results:

* `Yaml.Tag.ofUri_standard`: the tags of this library are read from their full forms.
-/

namespace ShapeAlgebra.Yaml

/-- How a scalar, a sequence or a mapping is to be read. -/
inductive Tag where
  | null
  | bool
  | integer
  | decimal
  | binary
  | moment
  | orderedPairs
  | pairs
  | set
  | text
  | sequence
  | mapping
  /-- The key under which other mappings are merged into a mapping. -/
  | merge
  /-- The key under which a mapping keeps its default value. -/
  | defaultValue
  /-- A tag without a meaning. -/
  | unknown
deriving DecidableEq, Repr, Inhabited

namespace Tag

/-- What the full forms of the tags begin with. -/
def standardBeginning : List Char := "tag:yaml.org,2002:".toList

/-- The tags by the ends of their full forms. -/
def standard : List (String × Tag) :=
  [("null", .null), ("bool", .bool), ("int", .integer), ("float", .decimal), ("binary", .binary),
    ("timestamp", .moment), ("omap", .orderedPairs), ("pairs", .pairs), ("set", .set),
    ("str", .text), ("seq", .sequence), ("map", .mapping), ("merge", .merge),
    ("value", .defaultValue)]

/-- The tag with a given full form. -/
def ofUri (cs : List Char) : Tag :=
  match standard.find? fun p => standardBeginning ++ p.1.toList == cs with
  | some p => p.2
  | none => .unknown

theorem ofUri_standard {p : String × Tag} (h : p ∈ standard) :
    ofUri (standardBeginning ++ p.1.toList) = p.2 := by
  simp only [standard, List.mem_cons, List.not_mem_nil, or_false] at h
  rcases h with rfl | rfl | rfl | rfl | rfl | rfl | rfl | rfl | rfl | rfl | rfl | rfl | rfl | rfl
  all_goals decide

end Tag

end ShapeAlgebra.Yaml
