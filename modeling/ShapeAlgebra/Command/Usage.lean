import ShapeAlgebra.Command.Help
import ShapeAlgebra.Folder
import ShapeAlgebra.Text.Quoted

/-!
# Wrong usage

Why the words of a command line ask for nothing that can be done, and what is said about it.

Results:

* `Command.UsageFault.report_alone`: a fault of an option's value is reported without the usage
  lines.
-/

namespace ShapeAlgebra.Command

/-- Why the words of a command line are wrong. -/
inductive UsageFault where
  /-- There is no such option; some options are written similarly. -/
  | unknownOption (word : Text) (similar : List Text)
  /-- The value of an option is missing. -/
  | noValue (option : Text)
  /-- An option has a value that takes none. -/
  | valueRefused (option : Text)
  | unknownVerb (word : Text)
  | noVerb
  /-- An argument is missing. -/
  | noArgument (label : List Char) (choices : List String)
  /-- A required option is missing. -/
  | noOption (option : Opt)
  /-- A word is none of those that could be chosen. -/
  | notChoice (label : List Char) (word : Text) (choices : List String)
  | extraArguments (words : List Text)
  /-- Fields were to be chosen by their shapes, and no shape was given. -/
  | noShape
  /-- The value of an option cannot be a path. -/
  | noPath (cause : PathFault)
deriving DecidableEq, Repr

namespace UsageFault

/-- Words between quotes with commas between them. -/
def quotedWords (ws : List String) : Text :=
  Text.join ", " (ws.map fun w => (Text.ofString w).quoted)

/-- A label between single quotes. -/
def inQuotes (label : List Char) : Text := "'" ++ Text.ofChars label ++ "'"

/-- The words for options that are written similarly. -/
def hint : List Text → Text
  | [] => []
  | [w] => " Did you mean " ++ w ++ "?"
  | ws => " (Possible options: " ++ Text.join ", " ws ++ ")"

/-- The words for an option that has a letter besides its long word. -/
def optionWords (o : Opt) : Text :=
  inQuotes o.long.toList ++ match o.letter? with
    | some c => " / " ++ inQuotes ['-', c]
    | none => []

/-- What is said about a fault. -/
def message : UsageFault → Text
  | .unknownOption word similar => "No such option: " ++ word ++ hint similar
  | .noValue option => "Option " ++ option.quoted ++ " requires an argument."
  | .valueRefused option => "Option " ++ option.quoted ++ " does not take a value."
  | .unknownVerb word => "No such command " ++ word.quoted ++ "."
  | .noVerb => "Missing command."
  | .noArgument label choices => "Missing argument " ++ inQuotes label ++ "." ++
      (if choices.isEmpty then ([] : Text) else " Choose from:\n\t" ++
        Text.join ",\n\t" (choices.map Text.ofString))
  | .noOption option => "Missing option " ++ optionWords option ++ "."
  | .notChoice label word choices => "Invalid value for " ++ inQuotes label ++ ": " ++
      word.quoted ++ " is not one of " ++ quotedWords choices ++ "."
  | .extraArguments words =>
    (if words.length = 1 then ("Got unexpected extra argument (" : Text)
      else "Got unexpected extra arguments (") ++ Text.join " " words ++ ")"
  | .noShape => "Provide at least one --kind or --callable."
  | .noPath .nullCharacter => "embedded null byte"
  | .noPath .surrogate => "half of a surrogate pair in a path"

/-- Whether a fault is reported without the usage lines. -/
def isAlone : UsageFault → Bool
  | .noValue _ | .valueRefused _ => true
  | _ => false

/-- The report of a fault in a scope. -/
def report (s : Scope) (f : UsageFault) : Text :=
  (if f.isAlone then ([] : Text)
    else Text.ofChars (Scope.unlines (s.usage ++
      ["Try '".toList ++ s.path ++ " -h' for help.".toList, []]))) ++
    "Error: " ++ f.message ++ "\n"

theorem report_alone (s : Scope) (option : Text) :
    report s (.noValue option) = "Error: " ++ message (.noValue option) ++ "\n" := by
  simp [report, isAlone, Text.ofString, Text.ofChars]

end UsageFault

end ShapeAlgebra.Command
