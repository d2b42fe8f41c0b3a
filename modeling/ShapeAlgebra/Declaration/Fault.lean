import ShapeAlgebra.Failure

/-!
# Faults of declarations

Why declarations cannot be read, and the words for it. Most faults name the place at which they were
found: a declared name followed by the way down to the part, `.x` for a field, `[]` for an element
and `|i` for a member of a union.

Results:

* `DeclarationFault.message_failure`: a failure of the schemas themselves keeps its words.
-/

namespace ShapeAlgebra

/-- Why declarations cannot be read (`DeclarationError`). -/
inductive DeclarationFault where
  /-- There is no file at the path. -/
  | fileMissing (path : Text)
  /-- The file is no declaration text. -/
  | malformedFile
  /-- The file holds something other than a mapping. -/
  | rootNotMapping
  /-- A part that must be a mapping is something else. -/
  | notMapping (part : Text)
  /-- A declared name is blank or no text. -/
  | blankName
  /-- A reference goes to a name that is not declared. -/
  | unknownReference (name : Text)
  /-- Following references leads back to where it began. -/
  | cyclicReference (path : List Text)
  /-- A shape is neither a text nor a mapping. -/
  | notShape (place : Text)
  /-- A part that must be a text is something else. -/
  | notText (place : Text)
  /-- A part that must be a text is blank. -/
  | blankText (place : Text)
  /-- A part that must be a truth value is something else. -/
  | notBool (place : Text)
  /-- A sequence has no element. -/
  | noElement (place : Text)
  /-- The members of a union are no list. -/
  | membersNotList (place : Text)
  /-- A shape has a type that does not exist. -/
  | unsupportedType (place type : Text)
  /-- A word denotes no shape. -/
  | unknownShape (place word : Text)
  /-- An opaque leaf has a kind that does not exist. -/
  | unsupportedOpaqueKind (place kind : Text)
  /-- A shape contains itself. -/
  | endless
  /-- An integer that is to be shown has too many digits. -/
  | integerTooLong
  /-- What was declared makes no schema. -/
  | failure (cause : Failure)
  /-- No schema of the given name is declared. -/
  | unknownSchema (name : Text) (declared : List Text)
  /-- The schema of the given name is no record. -/
  | notRecord (name : Text)
deriving DecidableEq, Repr

namespace DeclarationFault

/-- The words for a fault. -/
def message : DeclarationFault → Text
  | .fileMissing path => "Declaration file not found: " ++ path
  | .malformedFile => "Failed to parse declaration file:"
  | .rootNotMapping => "Declaration file root must be a mapping."
  | .notMapping part => "Declaration section '" ++ part ++ "' must be a mapping."
  | .blankName => "Schema names must be non-empty strings."
  | .unknownReference name => "Unknown schema reference: " ++ name
  | .cyclicReference path => "Cyclic schema reference: " ++ Text.join " -> " path
  | .notShape place => place ++ ": shape must be a string or a mapping."
  | .notText place => place ++ " must be a string."
  | .blankText place => place ++ " must not be empty."
  | .notBool place => place ++ " must be a boolean."
  | .noElement place => place ++ ": sequence requires an element."
  | .membersNotList place => place ++ ".members must be a list."
  | .unsupportedType place type => place ++ ": unsupported shape type '" ++ type ++ "'."
  | .unknownShape place word => place ++ ": unknown shape '" ++ word ++ "'."
  | .unsupportedOpaqueKind place kind =>
    place ++ ".kind: unsupported opaque kind '" ++ kind ++ "'."
  | .endless => "The declaration contains itself."
  | .integerTooLong => Text.tooManyDigits none
  | .failure cause => cause.message
  | .unknownSchema name declared => "Unknown schema '" ++ name ++ "'. Declared schemas: " ++
      (if declared.isEmpty then ("none" : Text) else Text.join ", " declared) ++ "."
  | .notRecord name => "Schema '" ++ name ++ "' is not a record."

theorem message_failure (cause : Failure) : message (.failure cause) = cause.message := rfl

end DeclarationFault

end ShapeAlgebra
