import ShapeAlgebra.Schema.Alternatives
import ShapeAlgebra.Text.Quoted

/-!
# Schemas inside messages

A schema written out in full, as messages show it: every node by the name of its variety and the
values of its parts.

Results:

* `shownTuple_singleton`: a tuple of one item keeps a comma behind it.
-/

namespace ShapeAlgebra

/-- The written form of a truth value. -/
def shownBool (b : Bool) : Text := if b then "True" else "False"

/-- Items in parentheses, a single one with a comma behind it. -/
def shownTuple : List Text → Text
  | [] => "()"
  | [t] => "(" ++ t ++ ",)"
  | ts => "(" ++ Text.join ", " ts ++ ")"

/-- Items as a set. -/
def shownSet : List Text → Text
  | [] => "frozenset()"
  | ts => "frozenset(\x7b" ++ Text.join ", " ts ++ "\x7d)"

/-- The written form of a kind of primitives. -/
def PrimitiveKind.shown (k : PrimitiveKind) : Text :=
  "<PrimitiveKind." ++ Text.ofString k.name.toUpper ++ ": '" ++ Text.ofString k.name ++ "'>"

/-- The written form of a kind of opaque leaves. -/
def OpaqueKind.shown (k : OpaqueKind) : Text :=
  "<OpaqueKind." ++ Text.ofString k.name.toUpper ++ ": '" ++ Text.ofString k.name ++ "'>"

/-- The record of already written fields. -/
def shownRecord (fields : List Text) : Text := "Record(fields=" ++ shownTuple fields ++ ")"

/-- A field of already written shape. -/
def shownField (name shape : Text) (flags : Flags) : Text :=
  "(" ++ name.quoted ++ ", Field(shape=" ++ shape ++ ", optional=" ++ shownBool flags.optional ++
    ", nullable=" ++ shownBool flags.nullable ++ ", readonly=" ++ shownBool flags.readonly ++ "))"

mutual

/-- The schema written out in full. -/
def Schema.shown : Schema → Text
  | .primitive k => "Primitive(kind=" ++ k.shown ++ ")"
  | .opaqueLeaf k n => "Opaque(kind=" ++ k.shown ++ ", name=" ++
      (match n with | none => ("None" : Text) | some n => n.quoted) ++ ")"
  | .sequence e r => "Sequence(element=" ++ Schema.shown e ++ ", readonly=" ++ shownBool r ++ ")"
  | .union ms => "Union(members=" ++ shownSet (Schema.shownAll ms) ++ ")"
  | .record fs => shownRecord (Field.shownAll fs)
  | .exclusive a b x y =>
    let first := shownRecord (Field.shownAll a)
    let second := shownRecord (Field.shownAll b)
    let members := if (Schema.record a).same (.record b) then [first] else [first, second]
    "ExclusiveUnion(members=" ++ shownSet members ++ ", first=" ++ first ++ ", second=" ++ second ++
      ", first_exclusive=" ++ shownSet (x.names.map Text.quoted) ++ ", second_exclusive=" ++
      shownSet (y.names.map Text.quoted) ++ ")"

/-- Each of several schemas written out in full. -/
def Schema.shownAll : List Schema → List Text
  | [] => []
  | s :: ss => Schema.shown s :: Schema.shownAll ss

/-- Each of several fields written out in full. -/
def Field.shownAll : List Field → List Text
  | [] => []
  | ⟨n, s, flags⟩ :: fs => shownField n (Schema.shown s) flags :: Field.shownAll fs

end

theorem shownTuple_singleton (t : Text) : shownTuple [t] = "(" ++ t ++ ",)" := rfl

end ShapeAlgebra
