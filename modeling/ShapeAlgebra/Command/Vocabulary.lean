import ShapeAlgebra.Output
import ShapeAlgebra.Rule

/-!
# The words of the command line

The commands, the options and the choices of the program, with the words for them.

Results:

* `Command.choice?_word`: a choice is found under its word.
-/

namespace ShapeAlgebra.Command

/-- Operations on the field names of two records. -/
inductive KeyOperation where
  | intersect
  | subtract
  | complement
  | symmetricDifference
  | union
deriving DecidableEq, Repr

/-- The ways of merging two records. -/
inductive MergeMode where
  | override
  | assign
  | exclusive
deriving DecidableEq, Repr

/-- Words with what they stand for. -/
abbrev Choices (α : Type) := List (String × α)

/-- What a word stands for. -/
def choice? {α : Type} (choices : Choices α) (t : Text) : Option α :=
  choices.findSome? fun (w, x) => if t == Text.ofString w then some x else none

theorem choice?_word {α : Type} (w : String) (x : α) (more : Choices α) :
    choice? ((w, x) :: more) (Text.ofString w) = some x := by
  simp [choice?]

/-- The words for operations on field names (`_KEY_OPERATIONS`). -/
def keyOperations : Choices KeyOperation :=
  [("intersect", .intersect), ("subtract", .subtract), ("complement", .complement),
    ("symmetric-difference", .symmetricDifference), ("union", .union)]

/-- The words for ways of merging (`_MERGE_MODES`). -/
def mergeModes : Choices MergeMode :=
  [("override", .override), ("assign", .assign), ("exclusive", .exclusive)]

/-- The words for rules (`_DEEP_RULES`). -/
def rules : Choices Rule :=
  [("readonly", .readonly), ("partial", .partialize), ("required", .required),
    ("non-nullable", .nonNullable)]

/-- The words for output formats (`OUTPUT_FORMATS`). -/
def formats : Choices OutputFormat := OutputFormat.all.map fun f => (f.name, f)

/-- The words for primitive kinds. -/
def kinds : Choices PrimitiveKind := PrimitiveKind.all.map fun k => (k.name, k)

/-- The words of some choices between bars. -/
def barred {α : Type} (choices : Choices α) : List Char :=
  ((choices.map fun c => c.1.toList).intersperse ['|']).flatten

/-! ## Options -/

/-- The options of the program and of its commands (`_declarations_option`, `_format_option`,
`_value_predicate_options` and those of `cli`). -/
inductive Opt where
  | version
  | verbose
  | key
  | kind
  | callable
  | declarations
  | format
  | help
deriving DecidableEq, Repr

namespace Opt

/-- The long word for an option. -/
def long : Opt → String
  | .version => "--version"
  | .verbose => "--verbose"
  | .key => "--key"
  | .kind => "--kind"
  | .callable => "--callable"
  | .declarations => "--declarations"
  | .format => "--format"
  | .help => "--help"

/-- The letter that stands for an option behind one hyphen, if there is one. -/
def letter? : Opt → Option Char
  | .key => some 'k'
  | .help => some 'h'
  | _ => none

/-- The sort of value that an option takes, if it takes one. -/
def value? : Opt → Option (List Char)
  | .key => some "TEXT".toList
  | .kind => some ('[' :: (barred kinds ++ [']']))
  | .declarations => some "PATH".toList
  | .format => some ('[' :: (barred formats ++ [']']))
  | _ => none

/-- Whether an option takes a value. -/
def takesValue (o : Opt) : Bool := o.value?.isSome

end Opt

/-! ## Commands -/

/-- The commands of the program (`keys`, `pick`, `omit`, `pick_values`, `omit_values`, `deep` and
`merge_schemas`). -/
inductive Verb where
  | keys
  | pick
  | omit
  | pickByValue
  | omitByValue
  | deep
  | merge
deriving DecidableEq, Repr

/-- The words for commands, in their alphabetical order. -/
def verbs : Choices Verb :=
  [("deep", .deep), ("keys", .keys), ("merge", .merge), ("omit", .omit),
    ("omit-by-value", .omitByValue), ("pick", .pick), ("pick-by-value", .pickByValue)]

/-- The choices of an argument in braces. -/
def braced {α : Type} (choices : Choices α) : List Char :=
  '\x7b' :: (barred choices ++ ['\x7d'])

namespace Verb

/-- The word for a command. -/
def word (v : Verb) : String := ((verbs.find? fun p => p.2 == v).map Prod.fst).getD ""

/-- What a command does. -/
def summary : Verb → String
  | .keys => "Print the field names resulting from a key-set operation."
  | .pick => "Keep only the named fields; every name must exist."
  | .omit => "Drop the named fields; unknown names are ignored."
  | .pickByValue => "Keep the fields whose shape matches the given kinds."
  | .omitByValue => "Drop the fields whose shape matches the given kinds."
  | .deep => "Apply a deep transform rule at every nesting depth."
  | .merge => "Merge two record schemas."

/-- What a command is applied to. -/
def arguments : Verb → List (List Char)
  | .keys => [braced keyOperations, "LEFT".toList, "RIGHT".toList]
  | .pick | .omit | .pickByValue | .omitByValue => ["SCHEMA_NAME".toList]
  | .deep => [braced rules, "SCHEMA_NAME".toList]
  | .merge => [braced mergeModes, "LEFT".toList, "RIGHT".toList]

/-- The options of a command, in the order of its help text. -/
def options : Verb → List Opt
  | .keys => [.declarations, .help]
  | .pick | .omit => [.key, .declarations, .format, .help]
  | .pickByValue | .omitByValue => [.kind, .callable, .declarations, .format, .help]
  | .deep | .merge => [.declarations, .format, .help]

end Verb

/-- What words are read for: the program itself, or one of its commands. -/
inductive Scope where
  | program
  | verb (v : Verb)
deriving DecidableEq, Repr

namespace Scope

/-- The name of the program. -/
def programName : String := "schema-algebra"

/-- The words that lead to a scope. -/
def path : Scope → List Char
  | .program => programName.toList
  | .verb v => programName.toList ++ ' ' :: v.word.toList

/-- The options of a scope. -/
def options : Scope → List Opt
  | .program => [.version, .verbose, .help]
  | .verb v => v.options

/-- What an option does. -/
def explain (s : Scope) : Opt → String
  | .version => "Show the version and exit."
  | .verbose => "Enable debug logging."
  | .key => if s = .verb .omit then "Field name to drop  [required]"
    else "Field name to keep  [required]"
  | .kind => "Match fields whose shape is assignable to these primitive kinds."
  | .callable => "Match fields whose shape is a callable."
  | .declarations => "Path to YAML/JSON schema declaration file  [required]"
  | .format => "Output representation of the derived schema  [default: yaml]"
  | .help => "Show this message and exit."

end Scope

end ShapeAlgebra.Command
