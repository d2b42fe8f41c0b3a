import ShapeAlgebra.Command.Layout
import ShapeAlgebra.Command.Vocabulary

/-!
# Help texts

The usage lines and the help texts of the program and of its commands.

Results:

* `Command.Scope.version_eq`: the version is announced behind the name of the program.
-/

namespace ShapeAlgebra.Command.Scope

/-- Lines as a text, each with a line break. -/
def unlines (ls : List (List Char)) : List Char := (ls.map (· ++ ['\n'])).flatten

/-- How a scope is used. -/
def usage (s : Scope) : List (List Char) :=
  let parts : List (List Char) := match s with
    | .program => ["[OPTIONS]".toList, "COMMAND".toList, "[ARGS]...".toList]
    | .verb v => "[OPTIONS]".toList :: v.arguments
  hanging ("Usage: ".toList ++ s.path ++ [' ']) (parts.intersperse [' ']).flatten

/-- The row of an option in a help text. -/
def row (s : Scope) (o : Opt) : List Char × List Char :=
  let short : List Char := match o.letter? with
    | some c => ['-', c, ',', ' ']
    | none => []
  let value : List Char := match o.value? with
    | some v => ' ' :: v
    | none => []
  (short ++ o.long.toList ++ value, (s.explain o).toList)

/-- The help text of a scope. -/
def help (s : Scope) : List Char :=
  let summary : String := match s with
    | .program => "Derive schemas by projection, deep transforms and merges."
    | .verb v => v.summary
  let commands : List (List Char) := match s with
    | .program => [[], "Commands:".toList] ++
        definitions (verbs.map fun (w, v) => (w.toList, v.summary.toList))
    | .verb _ => []
  unlines (s.usage ++ [[], gap 2 ++ summary.toList, [], "Options:".toList] ++
    definitions (s.options.map s.row) ++ commands)

/-- The announcement of the version. -/
def version : List Char := unlines [programName.toList ++ ", version 0.1.0".toList]

theorem version_eq : version = "schema-algebra, version 0.1.0\n".toList := by decide

end ShapeAlgebra.Command.Scope
