import ShapeAlgebra.KeySet
import ShapeAlgebra.Text.Quoted

/-!
# Failures

Why an operation on schemas can fail, and the words for it.

Results:

* `Failure.message_unknownNames_singleton`: a single unknown name is shown between quotes behind
  what it was looked up in.
-/

namespace ShapeAlgebra

/-- What a name was looked up in. -/
inductive NameScope where
  | record
  | complementUniverse
deriving DecidableEq, Repr

/-- Operations that are defined for records alone. -/
inductive RecordOperation where
  | pickByKey
  | omitByKey
  | pickByValue
  | omitByValue
  | objectIntersect
  | objectSubtract
  | objectComplement
  | mergeOverride
  | merge
  | mergeExclusive
deriving DecidableEq, Repr

namespace RecordOperation

/-- The name of an operation in messages. -/
def name : RecordOperation → String
  | .pickByKey => "pick_by_key"
  | .omitByKey => "omit_by_key"
  | .pickByValue => "pick_by_value"
  | .omitByValue => "omit_by_value"
  | .objectIntersect => "object_intersect"
  | .objectSubtract => "object_subtract"
  | .objectComplement => "object_complement"
  | .mergeOverride => "merge_override"
  | .merge => "merge"
  | .mergeExclusive => "merge_exclusive"

/-- Whether the operation takes two records. -/
def takesTwo : RecordOperation → Bool
  | .mergeOverride | .merge | .mergeExclusive => true
  | _ => false

end RecordOperation

/-- Why an operation on schemas failed. -/
inductive Failure where
  /-- Names that are not in the record or in the set they were looked up in (`UnknownKeyError`). -/
  | unknownNames (scope : NameScope) (missing : KeySet)
  /-- An operation on records was given another variety of schema (`StructuralPreconditionError`).
  -/
  | recordNeeded (operation : RecordOperation) (given : String)
  /-- The names of a schema that is no record were asked for (`StructuralPreconditionError`). -/
  | keysNeedRecord (given : String)
  /-- The fields of a schema that is no record were to be selected by their shapes
  (`StructuralPreconditionError`). -/
  | shapesNeedRecord (given : String)
  /-- A text was given where a collection of names belongs (`StructuralPreconditionError`). -/
  | textAsNames
  /-- Something that is no text was given among the names of fields (`StructuralPreconditionError`).
  -/
  | nameNotText (shown : Text)
  /-- A value that no set can hold was given among the names of fields. -/
  | unhashable (kind : String)
  /-- A value without items was given where a collection of names belongs. -/
  | notIterable (kind : String)
  /-- A record was to have two fields of one name (`DuplicateFieldError`). -/
  | duplicateField (name : Text)
  /-- A field was to have a name that is no text. -/
  | fieldNameNotText (shown : Text)
  /-- A shape was given where a record expects a field. -/
  | bareShape (name shown : Text)
  /-- A value carries names that belong to both variants of an exclusive union
  (`ExclusivityViolationError`). -/
  | mixedVariants (first second : KeySet)
  /-- A value carries names that fit no variant of an exclusive union (`ExclusivityViolationError`).
  -/
  | noVariant (names : KeySet)
  /-- No primitive kind goes by the given value. -/
  | unknownPrimitiveKind (shown : Text)
  /-- No kind of opaque leaves goes by the given value. -/
  | unknownOpaqueKind (shown : Text)
  /-- No transform rule goes by the given value. -/
  | unknownRule (shown : Text)
  /-- No output format goes by the given name. -/
  | unknownFormat (name : Text)
deriving DecidableEq, Repr

namespace Failure

/-- The words for the scope of a look-up. -/
def scopeText : NameScope → Text
  | .record => "record"
  | .complementUniverse => "complement universe"

/-- The words for a failure. -/
def message : Failure → Text
  | .unknownNames scope missing => "Unknown field name(s) for " ++ scopeText scope ++ ": " ++
      Text.join ", " (missing.names.map Text.quoted)
  | .recordNeeded operation given => Text.ofString operation.name ++
      (if operation.takesTwo then " requires record schemas, got " else
        " requires a record schema, got " : Text) ++ Text.ofString given ++ "."
  | .keysNeedRecord given => "Key-set algebra requires a record, got " ++ Text.ofString given ++ "."
  | .shapesNeedRecord given =>
    "Value-based key selection requires a record, got " ++ Text.ofString given ++ "."
  | .textAsNames => "Key sets must be collections of names, not a string."
  | .nameNotText shown => "Field names must be strings, got " ++ shown ++ "."
  | .unhashable kind => "unhashable type: '" ++ Text.ofString kind ++ "'"
  | .notIterable kind => "'" ++ Text.ofString kind ++ "' object is not iterable"
  | .duplicateField name => "Duplicate record field: " ++ name
  | .fieldNameNotText shown => "Record field names must be strings, got " ++ shown ++ "."
  | .bareShape name shown =>
    "Record field " ++ name.quoted ++ " must be a Field, got " ++ shown ++ "."
  | .mixedVariants first second => "Instance mixes exclusive fields " ++
      Text.quotedList first.names ++ " and " ++ Text.quotedList second.names ++ "."
  | .noVariant names => "Instance fields " ++ Text.quotedList names.names ++
      " conform to neither exclusive variant."
  | .unknownPrimitiveKind shown => shown ++ " is not a valid PrimitiveKind"
  | .unknownOpaqueKind shown => shown ++ " is not a valid OpaqueKind"
  | .unknownRule shown => shown ++ " is not a valid TransformRule"
  | .unknownFormat name => "Unsupported output format: " ++ name

theorem message_unknownNames_singleton (n : Text) :
    message (.unknownNames .record (KeySet.ofList [n])) =
      "Unknown field name(s) for record: " ++ n.quoted := by
  simp [message, scopeText, KeySet.ofList, KeySet.empty, insertName, Text.join, Text.ofString,
    Text.ofChars]

end Failure

end ShapeAlgebra
