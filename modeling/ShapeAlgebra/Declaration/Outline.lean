import ShapeAlgebra.Data
import ShapeAlgebra.Text.Blank
import ShapeAlgebra.Record.Build
import ShapeAlgebra.Declaration.Fault
import ShapeAlgebra.Declaration.Written

/-!
# Outlines of declarations

The outline of a declaration is what its plain data says of a shape before references are followed:
a tree of shapes with references and faults as leaves. An outline keeps its parts in the order in
which they count, so that the first fault or reference met from the left is the one that decides.
Where a shape comes again inside itself the outline ends with a fault.

Results:

* `Outline.ofData_null`, `Outline.ofData_text`: null is the primitive of that name, and a text
  counts without the white space around it.
* `Outline.ofData_recurring`: a shape inside itself is a fault.
* `readWord_primitive`: the words of the primitives denote them whatever is declared.
-/

namespace ShapeAlgebra

mutual

/-- What a declaration says of a shape, with references not followed (what `parse_shape` reads). -/
inductive Outline where
  /-- A shape without parts. -/
  | leaf (s : Schema)
  /-- The schema declared under a name. -/
  | reference (name : Text)
  /-- Nothing that denotes a shape. -/
  | fault (cause : DeclarationFault)
  /-- A sequence, with its flag or what is wrong with it. -/
  | sequence (element : Outline) (readonly : Except DeclarationFault Bool)
  /-- A union of members. -/
  | union (members : List Outline)
  /-- A record of fields. -/
  | record (fields : List FieldOutline)

/-- What a declaration says of a field (what `_parse_field` reads). -/
structure FieldOutline where
  name : Text
  flags : Flags
  shape : Outline

end

/-! ## Parts without further shapes -/

/-- A text without the white space around it, which must leave something
(`_require_non_empty_string`). -/
def requireText (place : Text) : Data → Except DeclarationFault Text
  | .text t => if t.strip.isEmpty then .error (.blankText place) else .ok t.strip
  | _ => .error (.notText place)

/-- The truth value under a key, which is false if it is absent or null (`_optional_bool`). -/
def flagUnder (entries : List (Data × Data)) (place key : Text) :
    Except DeclarationFault Bool :=
  match Data.find? entries key with
  | none | some .null => .ok false
  | some (.bool b) => .ok b
  | some _ => .error (.notBool (place ++ "." ++ key))

/-- What a word denotes (`_parse_shorthand`). The words of this library go before declared names. -/
def readWord (declared : Text → Bool) (place word : Text) : Outline :=
  match PrimitiveKind.ofName? word with
  | some k => .leaf (.primitive k)
  | none =>
    if word = "opaque" ∨ word = "callable" then .leaf (.opaqueLeaf .callable none)
    else if word = "never" then .leaf .never
    else if declared word then .reference word
    else .fault (.unknownShape place word)

/-- The opaque leaf that a mapping describes (`_parse_opaque`). -/
def readOpaque (place : Text) (entries : List (Data × Data)) : Outline :=
  let kind := (Data.find? entries "kind").getD (.text "callable")
  match OpaqueKind.ofData kind with
  | .error _ =>
    .fault (if kind.isShowable then .unsupportedOpaqueKind place kind.display else .integerTooLong)
  | .ok k =>
    match Data.find? entries "name" with
    | none | some .null => .leaf (.opaqueLeaf k none)
    | some (.text n) => .leaf (.opaqueLeaf k (some n))
    | some _ => .fault (.notText (place ++ ".name"))

/-! ## Shapes and fields -/

/-- The outline of a mapping whose parts have outlines: the element if there is one, the members if
they are a list, and the fields, of which no more is looked at than its type asks for (`parse_shape`
of a mapping). A sequence reads its own `readonly` only if `ownsReadonly`. -/
def Outline.ofParts (place : Text) (ownsReadonly : Bool) (entries : List (Data × Data))
    (element : Unit → Option Outline) (members : Unit → Option (List Outline))
    (fields : Unit → Except DeclarationFault (List FieldOutline)) : Outline :=
  match Data.find? entries "ref" with
  | some target =>
    match requireText (place ++ ".ref") target with
    | .ok n => .reference n
    | .error cause => .fault cause
  | none =>
    match requireText (place ++ ".type") ((Data.find? entries "type").getD .null) with
    | .error cause => .fault cause
    | .ok type =>
      match PrimitiveKind.ofName? type with
      | some k => .leaf (.primitive k)
      | none =>
        if type = "never" then .leaf .never
        else if type = "opaque" then readOpaque place entries
        else if type = "record" then
          match fields () with
          | .ok fs => .record fs
          | .error cause => .fault cause
        else if type = "sequence" then
          match element () with
          | some e =>
            .sequence e (if ownsReadonly then flagUnder entries place "readonly" else .ok false)
          | none => .fault (.noElement place)
        else if type = "union" then
          match members () with
          | some ms => .union ms
          | none => .fault (.membersNotList place)
        else .fault (.unsupportedType place type)

/-- The flags of a field that a mapping describes (in `_parse_field`). With a sequence described in
place, `readonly` belongs to the sequence. -/
def readFlags (place : Text) (entries : List (Data × Data)) (ownsReadonly : Bool) :
    Except DeclarationFault Flags := do
  let optional ← flagUnder entries place "optional"
  let nullable ← flagUnder entries place "nullable"
  let readonly ← if ownsReadonly then pure false else flagUnder entries place "readonly"
  return ⟨optional, nullable, readonly⟩

/-- The field with given flags and shape; a fault of the flags goes before the shape (in
`_parse_field`). -/
def FieldOutline.ofParts (name : Text) (flags : Except DeclarationFault Flags)
    (shape : Outline) : FieldOutline :=
  match flags with
  | .ok f => ⟨name, f, shape⟩
  | .error cause => ⟨name, {}, .fault cause⟩

/-- Whether a field's mapping describes a sequence in place (in `_parse_field`). -/
def isInlineSequence (entries : List (Data × Data)) : Bool :=
  match Data.find? entries "type" with
  | some (.text t) => t == Text.ofString "sequence"
  | _ => false

mutual

/-- The outline of a shape (`parse_shape`). `around` holds the numbers of the collections around it
that contain themselves, and whether they were read as fields. -/
def Outline.ofData (declared : Text → Bool) (around : List (Nat × Bool)) (place : Text) :
    Data → Outline
  | .null => .leaf (.primitive .null)
  | .text t => readWord declared place t.strip
  | .mapping entries => .ofParts place true entries
      (fun _ => Outline.elementIn declared around place entries)
      (fun _ => Outline.membersIn declared around place entries)
      (fun _ => Outline.fieldsIn declared around place entries)
  | .recurring n d =>
    if around.contains (n, false) then .fault .endless
    else Outline.ofData declared ((n, false) :: around) place d
  | _ => .fault (.notShape place)

/-- The outline of the element in a mapping (in `parse_shape`). -/
def Outline.elementIn (declared : Text → Bool) (around : List (Nat × Bool)) (place : Text) :
    List (Data × Data) → Option Outline
  | [] => none
  | (k, v) :: rest =>
    if k.sameKey (.text "element") then
      some (Outline.ofData declared around (place ++ "[]") v)
    else Outline.elementIn declared around place rest

/-- The outlines of the members in a mapping, if they are a list (in `parse_shape`). -/
def Outline.membersIn (declared : Text → Bool) (around : List (Nat × Bool)) (place : Text) :
    List (Data × Data) → Option (List Outline)
  | [] => none
  | (k, v) :: rest =>
    if k.sameKey (.text "members") then Outline.membersOf declared around place v
    else Outline.membersIn declared around place rest

/-- The outlines of members, if they are a list (in `parse_shape`). -/
def Outline.membersOf (declared : Text → Bool) (around : List (Nat × Bool)) (place : Text) :
    Data → Option (List Outline)
  | .list items => some (Outline.membersFrom declared around place 0 items)
  | .recurring _ d => Outline.membersOf declared around place d
  | _ => none

/-- The outlines of members, the first of them at a given index (in `parse_shape`). -/
def Outline.membersFrom (declared : Text → Bool) (around : List (Nat × Bool)) (place : Text)
    (index : Nat) : List Data → List Outline
  | [] => []
  | d :: ds => Outline.ofData declared around (place ++ "|" ++ Text.ofNat index) d ::
      Outline.membersFrom declared around place (index + 1) ds

/-- The outlines of the fields in a mapping (in `_parse_record`). -/
def Outline.fieldsIn (declared : Text → Bool) (around : List (Nat × Bool)) (place : Text) :
    List (Data × Data) → Except DeclarationFault (List FieldOutline)
  | [] => .ok []
  | (k, v) :: rest =>
    if k.sameKey (.text "fields") then Outline.fieldsOf declared around place v
    else Outline.fieldsIn declared around place rest

/-- The outlines of fields, if they are a mapping or nothing at all (`_require_mapping` in
`_parse_record`). -/
def Outline.fieldsOf (declared : Text → Bool) (around : List (Nat × Bool)) (place : Text) :
    Data → Except DeclarationFault (List FieldOutline)
  | .null => .ok []
  | .mapping entries => .ok (FieldOutline.ofEntries declared around place entries)
  | .recurring _ d => Outline.fieldsOf declared around place d
  | _ => .error (.notMapping (place ++ ".fields"))

/-- The outlines of the fields of a record, by their names (`_parse_record`). -/
def FieldOutline.ofEntries (declared : Text → Bool) (around : List (Nat × Bool)) (place : Text) :
    List (Data × Data) → List FieldOutline
  | [] => []
  | (k, v) :: rest =>
    (if k.isShowable then
      FieldOutline.ofData declared around k.display (place ++ "." ++ k.display) v
    else ⟨[], {}, .fault .integerTooLong⟩) :: FieldOutline.ofEntries declared around place rest

/-- The outline of a field (`_parse_field`). -/
def FieldOutline.ofData (declared : Text → Bool) (around : List (Nat × Bool)) (name place : Text) :
    Data → FieldOutline
  | .null => ⟨name, {}, .leaf (.primitive .null)⟩
  | .text t => ⟨name, {}, readWord declared place t.strip⟩
  | .mapping entries =>
    match Outline.shapeIn declared around place entries with
    | some shape => .ofParts name (readFlags place entries false) shape
    | none =>
      let inline := isInlineSequence entries
      .ofParts name (readFlags place entries inline) (.ofParts place inline entries
        (fun _ => Outline.elementIn declared around place entries)
        (fun _ => Outline.membersIn declared around place entries)
        (fun _ => Outline.fieldsIn declared around place entries))
  | .recurring n d =>
    if around.contains (n, true) then ⟨name, {}, .fault .endless⟩
    else FieldOutline.ofData declared ((n, true) :: around) name place d
  | _ => ⟨name, {}, .fault (.notShape place)⟩

/-- The outline of the shape that a field's mapping holds under a key of its own (in
`_parse_field`). -/
def Outline.shapeIn (declared : Text → Bool) (around : List (Nat × Bool)) (place : Text) :
    List (Data × Data) → Option Outline
  | [] => none
  | (k, v) :: rest =>
    if k.sameKey (.text "shape") then some (Outline.ofData declared around place v)
    else Outline.shapeIn declared around place rest

end

theorem Outline.ofData_null (declared : Text → Bool) (around : List (Nat × Bool)) (place : Text) :
    Outline.ofData declared around place .null = .leaf (.primitive .null) := by
  simp [Outline.ofData]

theorem Outline.ofData_text (declared : Text → Bool) (around : List (Nat × Bool))
    (place t : Text) :
    Outline.ofData declared around place (.text t) = readWord declared place t.strip := by
  simp [Outline.ofData]

theorem Outline.ofData_recurring {declared : Text → Bool} {around : List (Nat × Bool)}
    {place : Text} {n : Nat} {d : Data} (h : (n, false) ∈ around) :
    Outline.ofData declared around place (.recurring n d) = .fault .endless := by
  simp [Outline.ofData, h]

theorem readWord_primitive (declared : Text → Bool) (place : Text) (k : PrimitiveKind) :
    readWord declared place (Text.ofString k.name) = .leaf (.primitive k) := by
  simp [readWord, PrimitiveKind.ofName?_name]

end ShapeAlgebra
