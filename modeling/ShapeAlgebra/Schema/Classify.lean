import ShapeAlgebra.Schema.Alternatives

/-!
# Classifying schemas

Tests on the top of a schema, tests for what a schema can be assigned to, and the schema that is
left when some primitive alternatives are taken away.

Results:

* `Schema.assignable_never`: the impossible shape can be assigned to anything.
* `Schema.withoutKinds_nil`: taking away nothing changes nothing.
-/

namespace ShapeAlgebra

/-- A test on the top of a schema. -/
inductive Classifier where
  | primitive
  | record
  | sequence
  | union
  | never
  | opaqueLeaf
  | callable
  | constructor
  | typedArray
deriving DecidableEq, Repr

namespace Classifier

/-- All classifiers, in their usual order. -/
def all : List Classifier :=
  [.primitive, .record, .sequence, .union, .never, .opaqueLeaf, .callable, .constructor,
    .typedArray]

/-- The name of a classifier in requests. -/
def name : Classifier → String
  | .primitive => "is_primitive"
  | .record => "is_record"
  | .sequence => "is_sequence"
  | .union => "is_union"
  | .never => "is_never"
  | .opaqueLeaf => "is_opaque"
  | .callable => "is_callable"
  | .constructor => "is_constructor"
  | .typedArray => "is_typed_array"

/-- Whether a schema passes the test (`is_primitive`, `is_record` and so on). -/
def test : Classifier → Schema → Bool
  | .primitive, .primitive _ => true
  | .record, .record _ => true
  | .sequence, .sequence .. => true
  | .union, s => s.isUnion
  | .never, .union [] => true
  | .opaqueLeaf, .opaqueLeaf .. => true
  | .callable, .opaqueLeaf .callable _ => true
  | .constructor, .opaqueLeaf .constructor _ => true
  | .typedArray, .opaqueLeaf .typedArray _ => true
  | _, _ => false

end Classifier

namespace Schema

/-! ## Assignability -/

mutual

/-- Whether every value of the schema is a primitive of one of the given kinds (`of_kinds`). -/
def assignable (kinds : List PrimitiveKind) : Schema → Bool
  | .primitive k => kinds.contains k
  | .union ms => allAssignable kinds ms
  | _ => false

/-- Whether each of several schemas is assignable to the given kinds (in `of_kinds`). -/
def allAssignable (kinds : List PrimitiveKind) : List Schema → Bool
  | [] => true
  | s :: ss => assignable kinds s && allAssignable kinds ss

end

theorem allAssignable_iff {kinds : List PrimitiveKind} {ss : List Schema} :
    allAssignable kinds ss = true ↔ ∀ s ∈ ss, assignable kinds s = true := by
  induction ss with
  | nil => simp [allAssignable]
  | cons s ss ih => simp [allAssignable, ih]

@[simp] theorem assignable_never (kinds : List PrimitiveKind) : assignable kinds never = true := rfl

/-! ## Stripping -/

/-- Whether the schema is a primitive of one of the given kinds (in `without_kinds`). -/
def isKind (kinds : List PrimitiveKind) : Schema → Bool
  | .primitive k => kinds.contains k
  | _ => false

/-- The schema without its primitive alternatives of the given kinds (`without_kinds`). -/
def withoutKinds (s : Schema) (kinds : List PrimitiveKind) : Schema :=
  if kinds.isEmpty then s
  else if s.isUnion then unionOf (s.members.filter fun m => !m.isKind kinds)
  else if s.isKind kinds then never
  else s

/-- The schema without `undefined` (`non_undefined`). -/
def nonUndefined (s : Schema) : Schema := s.withoutKinds [.undefined]

/-- The schema without `null` and `undefined` (`non_nullable`). -/
def nonNullable (s : Schema) : Schema := s.withoutKinds [.null, .undefined]

@[simp] theorem withoutKinds_nil (s : Schema) : s.withoutKinds [] = s := rfl

end Schema

/-! ## Predicates -/

/-- A test on schemas, built from classifiers and assignability (`ShapePredicate`). -/
inductive Predicate where
  | is (c : Classifier)
  | ofKinds (kinds : List PrimitiveKind)
  | not (p : Predicate)
  | any (ps : List Predicate)
deriving Repr

mutual

/-- Whether a schema satisfies a predicate. -/
def Predicate.holds (s : Schema) : Predicate → Bool
  | .is c => c.test s
  | .ofKinds kinds => s.assignable kinds
  | .not p => !(p.holds s)
  | .any ps => Predicate.anyHolds s ps

/-- Whether a schema satisfies one of several predicates. -/
def Predicate.anyHolds (s : Schema) : List Predicate → Bool
  | [] => false
  | p :: ps => p.holds s || Predicate.anyHolds s ps

end

end ShapeAlgebra
