import ShapeAlgebra.Command.Run

/-!
# The program

Reads the words of the command line and the declaration file that they name, and prints what the
request comes to on the standard streams. Where a run ends without a status, the program says why
and has the exit status 1.
-/

open ShapeAlgebra

/-- A text as a string, a half of a surrogate pair being escaped. -/
def asString (t : Text) : String :=
  String.ofList (t.flatMap fun
    | .scalar c => [c]
    | .surrogate half => '\\' :: 'u' :: Nat.toDigits 16 (CodePoint.surrogate half).code)

/-- What lies at a path on the disk. -/
def lookUp (p : Path) : IO Found := do
  try
    let bytes ← IO.FS.readBinFile (asString p.text)
    return .file bytes.toList
  catch
    | .inappropriateType _ 21 _ => return .folder
    | .invalidArgument _ 36 _ => return .nameTooLong
    | _ => return .nothing

/-- The words for a fault that ends a run without a status. -/
def describe : Command.RunFault → Text
  | .file (.value cause) => cause.message?.getD "a scalar cannot be read"
  | .file (.notPath cause) => (Command.UsageFault.noPath cause).message
  | .file _ => "the file is no UTF-8 text"
  | .unprintable p => [p] ++ " cannot be printed"

/-- Runs the program; its exit status tells whether it did what was asked for. -/
def main (args : List String) : IO UInt32 := do
  let request := Command.Request.ofWords (args.map Text.ofString)
  let found ← match request with
    | .ok (.job j _) => lookUp (Path.ofText j.declarations)
    | _ => pure .nothing
  match Command.respondOn .standard request fun _ => found with
  | .ok o =>
    (← IO.getStdout).putStr (asString o.output)
    (← IO.getStderr).putStr (asString o.errors)
    return o.status.toUInt32
  | .error cause =>
    (← IO.getStderr).putStrLn (asString (describe cause))
    return 1
