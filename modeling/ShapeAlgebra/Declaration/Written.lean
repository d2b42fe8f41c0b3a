import ShapeAlgebra.Document
import ShapeAlgebra.Schema.Render

/-!
# Declarations of schemas

A schema written as a document, in the form in which declaration files give it. Primitives and
nameless callables are single words; everything else is a mapping with a `type`. A field is its
shape, or a mapping with the shape and the flags that are set; the second form is also taken when
the shape is itself a mapping with the name of a flag among its keys.

Results:

* `Schema.declare_primitive`, `Schema.declare_never`: what is written as a single word.
-/

namespace ShapeAlgebra

/-- The names of the flags of a field (`FIELD_FLAGS`). -/
def Flags.names : List Text := ["optional", "nullable", "readonly"]

/-- The flags that are set, as entries of a mapping (in `_field_declaration`). -/
def Flags.declare (f : Flags) : List (Text × Document) :=
  (Flags.names.zip [f.optional, f.nullable, f.readonly]).filterMap fun p =>
    if p.2 then some (p.1, .bool true) else none

/-- A field of already declared shape (`_field_declaration`). -/
def declareField (shape : Document) (flags : Flags) : Document :=
  let set := flags.declare
  if set.isEmpty && !(Flags.names.any shape.hasKey) then shape
  else .mapping (("shape", shape) :: set)

/-- A record of already declared fields (in `to_declaration`). -/
def declareRecord (fields : List (Text × Document)) : Document :=
  .mapping [("type", .text "record"), ("fields", .mapping fields)]

/-- A union of already declared members, each with its rendered text, in the order of the texts
(`_ordered_members`). -/
def declareUnion (members : List (Text × Document)) : Document :=
  if members.isEmpty then .text "never"
  else
    let sorted := members.mergeSort fun a b => Text.before a.1 b.1
    .mapping [("type", .text "union"), ("members", .list (sorted.map Prod.snd))]

/-- A leaf that is never taken apart (in `to_declaration`). -/
def declareOpaque (kind : OpaqueKind) (name : Option Text) : Document :=
  match kind, name with
  | .callable, none => .text "opaque"
  | kind, none => .mapping [("type", .text "opaque"), ("kind", .text (Text.ofString kind.name))]
  | kind, some n => .mapping [("type", .text "opaque"),
      ("kind", .text (Text.ofString kind.name)), ("name", .text n)]

/-- A sequence of an already declared element (in `to_declaration`). -/
def declareSequence (element : Document) (readonly : Bool) : Document :=
  if readonly then
    .mapping [("type", .text "sequence"), ("element", element), ("readonly", .bool true)]
  else .mapping [("type", .text "sequence"), ("element", element)]

mutual

/-- The schema as a document (`to_declaration`). -/
def Schema.declare : Schema → Document
  | .primitive k => .text (Text.ofString k.name)
  | .opaqueLeaf k n => declareOpaque k n
  | .sequence e r => declareSequence (Schema.declare e) r
  | .union ms => declareUnion ((Schema.renderAll ms).zip (Schema.declareAll ms))
  | .record fs => declareRecord (Field.declareAll fs)
  | .exclusive a b _ _ =>
    let first := (renderRecord (Field.renderAll a), declareRecord (Field.declareAll a))
    let second := (renderRecord (Field.renderAll b), declareRecord (Field.declareAll b))
    declareUnion (if Record.same a b then [first] else [first, second])

/-- Each of several schemas as a document (in `to_declaration`). -/
def Schema.declareAll : List Schema → List Document
  | [] => []
  | s :: ss => Schema.declare s :: Schema.declareAll ss

/-- Each of several fields as an entry of a mapping (in `to_declaration`). -/
def Field.declareAll : List Field → List (Text × Document)
  | [] => []
  | ⟨n, s, flags⟩ :: fs => (n, declareField (Schema.declare s) flags) :: Field.declareAll fs

end

theorem Schema.declare_primitive (k : PrimitiveKind) :
    (Schema.primitive k).declare = .text (Text.ofString k.name) := rfl

theorem Schema.declare_never : Schema.never.declare = .text "never" := rfl

end ShapeAlgebra
