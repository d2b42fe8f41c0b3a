import ShapeAlgebra.Record.Build
import ShapeAlgebra.Schema.Classify

/-!
# Deep rules

A deep rule changes a schema at every depth: it sets flags on every field, may make every sequence
read-only or not, and takes primitive alternatives away from every slot, a slot being the shape of
a field or the element of a sequence. Unions are built anew from their changed members.

Results:

* `Behavior.names_transformFields`: a rule keeps the names of a record and their order.
* `Rule.ofName?_name`: the rules are determined by their names.
-/

namespace ShapeAlgebra

/-- What a rule does to every slot and to every field: which primitive alternatives it takes away,
and which flags it sets (`RuleBehavior`). -/
structure Behavior where
  stripped : List PrimitiveKind := []
  optional : Option Bool := none
  nullable : Option Bool := none
  readonly : Option Bool := none
deriving DecidableEq, Repr

/-- The rules that can be applied to every depth of a schema (`TransformRule`). -/
inductive Rule where
  | readonly
  | partialize
  | required
  | nonNullable
deriving DecidableEq, Repr

namespace Rule

/-- All rules, in their usual order. -/
def all : List Rule := [.readonly, .partialize, .required, .nonNullable]

/-- The name of a rule in requests. -/
def name : Rule → String
  | .readonly => "readonly"
  | .partialize => "partial"
  | .required => "required"
  | .nonNullable => "non_nullable"

/-- The rule with a given name. -/
def ofName? (t : Text) : Option Rule := all.find? fun r => t == Text.ofString r.name

theorem ofName?_name (r : Rule) : ofName? (Text.ofString r.name) = some r := by
  cases r <;> decide

/-- The rule that a value names (`TransformRule`). -/
def ofData (d : Data) : Except Failure Rule :=
  match d with
  | .text t => match ofName? t with
    | some r => .ok r
    | none => .error (.unknownRule d.shown)
  | _ => .error (.unknownRule d.shown)

/-- What a rule does (`behavior_for`). -/
def behavior : Rule → Behavior
  | .readonly => { readonly := some true }
  | .partialize => { optional := some true }
  | .required => { stripped := [.undefined], optional := some false }
  | .nonNullable => { stripped := [.null, .undefined], nullable := some false }

end Rule

namespace Behavior

/-- The flags of a field after the rule (`apply_flags`). -/
def flags (b : Behavior) (f : Flags) : Flags :=
  ⟨b.optional.getD f.optional, b.nullable.getD f.nullable, b.readonly.getD f.readonly⟩

mutual

/-- The schema after the rule (`_visit`, and `_visit_slot` in a slot). In a slot the stripped
alternatives are taken away from it first. -/
def transform (b : Behavior) (inSlot : Bool) : Schema → Schema
  | .primitive k => if inSlot && b.stripped.contains k then .never else .primitive k
  | .opaqueLeaf k n => .opaqueLeaf k n
  | .sequence e r => .sequence (transform b true e) (b.readonly.getD r)
  | .union ms => .unionOf (transformMembers b inSlot ms)
  | .record fs => .record (transformFields b fs)
  | .exclusive first second _ _ =>
    .unionOf [.record (transformFields b first), .record (transformFields b second)]

/-- The members of a union after the rule, without the stripped ones in a slot (in `_visit`). -/
def transformMembers (b : Behavior) (inSlot : Bool) : List Schema → List Schema
  | [] => []
  | m :: ms =>
    if inSlot && m.isKind b.stripped then transformMembers b inSlot ms
    else transform b false m :: transformMembers b inSlot ms

/-- The fields of a record after the rule (in `_visit`). -/
def transformFields (b : Behavior) : List Field → List Field
  | [] => []
  | ⟨n, s, f⟩ :: fs => ⟨n, transform b true s, b.flags f⟩ :: transformFields b fs

end

theorem names_transformFields (b : Behavior) (r : Record) :
    Record.names (b.transformFields r) = r.names := by
  induction r with
  | nil => rfl
  | cons f r ih =>
    obtain ⟨n, s, flags⟩ := f
    simpa [transformFields, Record.names] using ih

end Behavior

/-- The schema with a rule applied at every depth (`deep_transform`). -/
def Schema.deep (s : Schema) (r : Rule) : Schema := r.behavior.transform false s

end ShapeAlgebra
