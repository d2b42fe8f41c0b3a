import ShapeAlgebra.Declaration.Catalog
import ShapeAlgebra.Folder
import ShapeAlgebra.Text.Utf8
import ShapeAlgebra.Yaml.Reader

/-!
# Declaration files

The catalog of a file: its bytes are read as UTF-8, its text as YAML, and its data as declarations.
A file without data declares nothing.

Results:

* `Catalog.load_missing`: where there is no file the path is named.
-/

namespace ShapeAlgebra

/-- Why a file gives no catalog. -/
inductive FileFault where
  /-- The file cannot be read as declarations. -/
  | declaration (cause : DeclarationFault)
  /-- At the path there is a folder. -/
  | folder (path : Text)
  /-- The path, or a name on it, is too long. -/
  | nameTooLong (path : Text)
  /-- The bytes are no text. -/
  | notText
  /-- The path is none. -/
  | notPath (cause : PathFault)
  /-- A scalar promises a value that does not exist, or something has no end. -/
  | value (cause : Yaml.Fault)
deriving DecidableEq, Repr

namespace FileFault

/-- The fault of a text that cannot be read. -/
def ofYaml : Yaml.Fault → FileFault
  | .malformed => .declaration .malformedFile
  | cause => .value cause

/-- The fault of data that make no catalog. -/
def ofDeclaration : DeclarationFault → FileFault
  | .endless => .value .endless
  | .integerTooLong => .value .integerTooLong
  | cause => .declaration cause

/-- The words for a fault that a reader of files is told of (in `_load`). -/
def message? : FileFault → Option Text
  | .declaration cause => some cause.message
  | .folder path => some ("[Errno 21] Is a directory: " ++ path.quoted)
  | .nameTooLong path => some ("[Errno 36] File name too long: " ++ path.quoted)
  | .notPath _ | .notText | .value _ => none

end FileFault

/-- A text whose lines all end with line feeds. -/
def withLineFeeds : List Char → List Char
  | '\r' :: '\n' :: cs => '\n' :: withLineFeeds cs
  | '\r' :: cs => '\n' :: withLineFeeds cs
  | c :: cs => c :: withLineFeeds cs
  | [] => []

namespace Catalog

/-- The catalog of a declaration text (`load_declarations`). -/
def ofChars (cs : List Char) (path : Option Text) : Except FileFault Catalog := do
  let data ← (Yaml.read (withLineFeeds cs)).mapError FileFault.ofYaml
  let entries := match data with
    | .null => some []
    | data => data.entries?
  match entries with
  | some entries => (ofDocument entries path).mapError FileFault.ofDeclaration
  | none => throw (.declaration .rootNotMapping)

/-- The catalog of what was found at a path (in `load_declarations`). -/
def ofFound (p : Path) (found : Found) : Except FileFault Catalog :=
  match found with
  | .nothing => .error (.declaration (.fileMissing p.text))
  | .nameTooLong => .error (.nameTooLong p.text)
  | .folder => .error (.folder p.text)
  | .file bytes => match Utf8.decode bytes with
    | none => .error .notText
    | some cs => ofChars cs (some p.text)

/-- The catalog of the file at a path in a folder (`load_declarations`). -/
def load (f : Folder) (t : Text) : Except FileFault Catalog :=
  ofFound (Path.ofText t) (f.find (Path.ofText t))

theorem load_missing {f : Folder} {t : Text} (h : f.find (Path.ofText t) = .nothing) :
    load f t = .error (.declaration (.fileMissing (Path.ofText t).text)) := by
  simp [load, ofFound, h]

end Catalog

end ShapeAlgebra
