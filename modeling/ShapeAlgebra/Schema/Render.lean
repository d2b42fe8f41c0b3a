import ShapeAlgebra.Schema.Alternatives

/-!
# Rendering schemas

A schema as one line of text, such as a record `first?: string[]` in braces. The members of a union
stand in the order of their texts, so that the order in which they were given does not show.

Results:

* `Schema.render_never`: the impossible shape has a word of its own.
* `sortTexts_perm`: sorting texts neither loses nor adds one.
-/

namespace ShapeAlgebra

/-- Texts in increasing order (`_ordered_members`). -/
def sortTexts (ts : List Text) : List Text := ts.mergeSort Text.before

theorem sortTexts_perm (ts : List Text) : (sortTexts ts).Perm ts := List.mergeSort_perm _ _

/-- Whether a schema admits `null` by itself (`_admits_null`). -/
def Schema.admitsNull (s : Schema) : Bool :=
  if s.isUnion then s.members.any fun m => m.same (.primitive .null)
  else s.same (.primitive .null)

/-- Whether the rendered schema is an alternative of several texts (in `render_text`). -/
def Schema.isAlternative (s : Schema) : Bool := s.isUnion && 1 < s.members.length

/-- The alternative of already rendered members (in `render_text`). -/
def renderUnion (members : List Text) : Text :=
  if members.isEmpty then "never" else Text.join " | " (sortTexts members)

/-- The record of already rendered fields (in `render_text`). -/
def renderRecord (fields : List Text) : Text := "\x7b" ++ Text.join ", " fields ++ "\x7d"

/-- A field of already rendered shape (`_render_field`). -/
def renderField (name shape : Text) (flags : Flags) (admitsNull : Bool) : Text :=
  (if flags.readonly then "readonly " else "" : Text) ++ name ++
    (if flags.optional then "?" else "" : Text) ++ ": " ++ shape ++
    (if flags.nullable && !admitsNull then " | null" else "" : Text)

mutual

/-- The schema as one line of text (`render_text`). -/
def Schema.render : Schema → Text
  | .primitive k => Text.ofString k.name
  | .opaqueLeaf k n => match n with
    | some n => if n.isEmpty then Text.ofString k.name else n
    | none => Text.ofString k.name
  | .sequence e r =>
    let element := Schema.render e
    (if r then "readonly " else "" : Text) ++
      (if e.isAlternative then "(" ++ element ++ ")" else element) ++ "[]"
  | .union ms => renderUnion (Schema.renderAll ms)
  | .record fs => renderRecord (Field.renderAll fs)
  | .exclusive a b _ _ =>
    let first := renderRecord (Field.renderAll a)
    let second := renderRecord (Field.renderAll b)
    renderUnion (if Record.same a b then [first] else [first, second])

/-- Each of several schemas as one line of text (in `render_text`). -/
def Schema.renderAll : List Schema → List Text
  | [] => []
  | s :: ss => Schema.render s :: Schema.renderAll ss

/-- Each of several fields as a piece of text (in `render_text`). -/
def Field.renderAll : List Field → List Text
  | [] => []
  | ⟨n, s, flags⟩ :: fs => renderField n (Schema.render s) flags s.admitsNull :: Field.renderAll fs

end

theorem Schema.render_never : Schema.never.render = "never" := rfl

end ShapeAlgebra
