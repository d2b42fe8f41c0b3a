import ShapeAlgebra.KeySet

/-!
# Schemas

A schema is a tree that describes the shape of a value: a primitive, a leaf that is never taken
apart, a sequence of one element shape, an alternative among member shapes, a record of named
fields, or an alternative of two records whose exclusive fields never mix.

The members of a union and the fields of a record are lists. What the builders of this library
promise of them, that members are distinct and no unions themselves and that field names are
distinct, is not part of the type.

Results:

* `PrimitiveKind.ofName?_name`, `OpaqueKind.ofName?_name`: the kinds are determined by their names.
* `Record.find?_eq_some`: a field that is found has the name it was asked for and is in the record.
-/

namespace ShapeAlgebra

/-! ## Kinds -/

/-- The kinds of primitive values. -/
inductive PrimitiveKind where
  | null
  | undefined
  | string
  | number
  | boolean
  | symbol
deriving DecidableEq, Repr, Inhabited

/-- The kinds of leaves that are never taken apart. -/
inductive OpaqueKind where
  | callable
  | constructor
  | typedArray
  | other
deriving DecidableEq, Repr, Inhabited

namespace PrimitiveKind

/-- All kinds, in their usual order. -/
def all : List PrimitiveKind := [.null, .undefined, .string, .number, .boolean, .symbol]

/-- The name of a kind in declarations and requests. -/
def name : PrimitiveKind → String
  | .null => "null"
  | .undefined => "undefined"
  | .string => "string"
  | .number => "number"
  | .boolean => "boolean"
  | .symbol => "symbol"

/-- The kind with a given name. -/
def ofName? (t : Text) : Option PrimitiveKind := all.find? fun k => t == Text.ofString k.name

theorem ofName?_name (k : PrimitiveKind) : ofName? (Text.ofString k.name) = some k := by
  cases k <;> decide

end PrimitiveKind

namespace OpaqueKind

/-- All kinds, in their usual order. -/
def all : List OpaqueKind := [.callable, .constructor, .typedArray, .other]

/-- The name of a kind in declarations and requests. -/
def name : OpaqueKind → String
  | .callable => "callable"
  | .constructor => "constructor"
  | .typedArray => "typed_array"
  | .other => "other"

/-- The kind with a given name. -/
def ofName? (t : Text) : Option OpaqueKind := all.find? fun k => t == Text.ofString k.name

theorem ofName?_name (k : OpaqueKind) : ofName? (Text.ofString k.name) = some k := by
  cases k <;> decide

end OpaqueKind

/-! ## The tree -/

/-- What a record says of a field beside its shape (`Field`). -/
structure Flags where
  optional : Bool := false
  nullable : Bool := false
  readonly : Bool := false
deriving DecidableEq, Repr, Inhabited

mutual

/-- The shape of a value. -/
inductive Schema where
  /-- A primitive value of one kind (`Primitive`). -/
  | primitive (kind : PrimitiveKind)
  /-- A leaf that is never taken apart, with a name if it has one (`Opaque`). -/
  | opaqueLeaf (kind : OpaqueKind) (name : Option Text)
  /-- A sequence whose elements all have one shape (`Sequence`). -/
  | sequence (element : Schema) (readonly : Bool)
  /-- A value that has the shape of one of the members (`Union`). Without members no value fits. -/
  | union (members : List Schema)
  /-- A record with the given fields (`Record`). -/
  | record (fields : List Field)
  /-- A value of one of two record shapes (`ExclusiveUnion`). The names in `firstOnly` belong to the
  first, those in `secondOnly` to the second, and no value has names of both. -/
  | exclusive (first second : List Field) (firstOnly secondOnly : KeySet)

/-- A named field of a record. -/
structure Field where
  name : Text
  shape : Schema
  flags : Flags

end

/-- The fields of a record in their order. -/
abbrev Record := List Field

namespace Schema

instance : Inhabited Schema := ⟨.union []⟩

/-- The shape that no value has (`NEVER`). -/
def never : Schema := .union []

/-- What sort of tree a schema is, in the words of messages. -/
def variety : Schema → String
  | .primitive _ => "Primitive"
  | .opaqueLeaf .. => "Opaque"
  | .sequence .. => "Sequence"
  | .union _ => "Union"
  | .record _ => "Record"
  | .exclusive .. => "ExclusiveUnion"

end Schema

namespace Record

/-- The field names in order (`field_names`). -/
def names (r : Record) : List Text := r.map Field.name

/-- The set of the field names (`key_set`). -/
def keys (r : Record) : KeySet := KeySet.ofList r.names

/-- The field with a given name (`field_map`). -/
def find? (r : Record) (n : Text) : Option Field := List.find? (fun f => f.name == n) r

/-- The fields whose names are in a set, in their order (`_select`). -/
def select (r : Record) (s : KeySet) : Record := r.filter fun f => decide (f.name ∈ s)

theorem find?_eq_some {r : Record} {n : Text} {f : Field} (h : r.find? n = some f) :
    f.name = n ∧ f ∈ r := by
  have := List.find?_some h
  exact ⟨by simpa using this, List.mem_of_find?_eq_some h⟩

theorem mem_keys {r : Record} {n : Text} : n ∈ r.keys ↔ ∃ f ∈ r, f.name = n := by
  simp [keys, names]

theorem mem_select {r : Record} {s : KeySet} {f : Field} :
    f ∈ r.select s ↔ f ∈ r ∧ f.name ∈ s := by
  simp [select]

end Record

end ShapeAlgebra
