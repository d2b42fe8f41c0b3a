import ShapeAlgebra.Command.Words
import ShapeAlgebra.Schema.Classify

/-!
# Requests

What the words of a command line ask for. Of several faults the first counts in this order: those of
the option words, the values of the given options, the arguments, options that are missing,
arguments too many, and what a command asks of its options beyond that.

Results:

* `Command.Request.ofWords_nil`: without words the help text is reported as a fault.
-/

namespace ShapeAlgebra.Command

/-- How a schema is derived from the schemas of a catalog. -/
inductive Derivation where
  | pick (schema : Text) (names : List Text)
  | omit (schema : Text) (names : List Text)
  | pickByValue (schema : Text) (p : Predicate)
  | omitByValue (schema : Text) (p : Predicate)
  | deep (rule : Rule) (schema : Text)
  | merge (mode : MergeMode) (left right : Text)

/-- What is to be done with a catalog: print field names, or print a schema in a format. -/
inductive Task where
  | keys (operation : KeyOperation) (left right : Text)
  | derive (d : Derivation) (format : OutputFormat)

/-- A task with the path of the declarations for it. -/
structure Job where
  task : Task
  declarations : Text

/-- What a command line asks for. -/
inductive Request where
  | version
  | help (s : Scope)
  /-- A task, and whether its steps are to be told. -/
  | job (j : Job) (verbose : Bool)

/-! ## Options -/

/-- The values of the options of a command. -/
structure Options where
  names : List Text := []
  kinds : List PrimitiveKind := []
  callable : Bool := false
  declarations : Option Text := none
  format : OutputFormat := .yaml

/-- What a word stands for that must be one of some choices. -/
def choose {α : Type} (label : List Char) (choices : Choices α) (w : Text) : Except UsageFault α :=
  match choice? choices w with
  | some x => .ok x
  | none => .error (.notChoice label w (choices.map Prod.fst))

namespace Options

/-- The values of an option in their order. -/
def valuesOf (given : List Given) (o : Opt) : List Text :=
  (given.filter fun g => g.1 == o).filterMap Prod.snd

/-- Takes up the values of one of the given options. -/
def take (given : List Given) (options : Options) (o : Opt) : Except UsageFault Options :=
  let values := valuesOf given o
  match o with
  | .key => .ok { options with names := values }
  | .kind => do
    let ks ← values.mapM (choose o.long.toList Command.kinds)
    return { options with kinds := ks }
  | .callable => .ok { options with callable := true }
  | .declarations => match values.getLast?.bind Path.fault? with
    | some cause => .error (.noPath cause)
    | none => .ok { options with declarations := values.getLast? }
  | .format => match values.getLast? with
    | some w => do
      let f ← choose o.long.toList formats w
      return { options with format := f }
    | none => .ok options
  | .version | .verbose | .help => .ok options

/-- The values of the given options, looked at in the order in which each comes first. -/
def ofGiven (given : List Given) : Except UsageFault Options :=
  (given.map Prod.fst).eraseDups.foldlM (take given) {}

/-- The path of the declarations, which must be given. -/
def path (o : Options) : Except UsageFault Text :=
  match o.declarations with
  | some t => .ok t
  | none => .error (.noOption .declarations)

/-- The names of fields, of which one at least must be given. -/
def someNames (o : Options) : Except UsageFault (List Text) :=
  if o.names.isEmpty then .error (.noOption .key) else .ok o.names

/-- The predicate that the given shapes make up, of which one at least must be given
(`_build_predicate`). -/
def predicate (o : Options) : Except UsageFault Predicate :=
  match o.callable, o.kinds with
  | false, [] => .error .noShape
  | true, [] => .ok (.any [.is .callable])
  | true, ks => .ok (.any [.is .callable, .ofKinds ks])
  | false, ks => .ok (.any [.ofKinds ks])

end Options

/-! ## Arguments -/

/-- The first argument, which must be one of some choices, and the others. -/
def chosen {α : Type} (choices : Choices α) : List Text → Except UsageFault (α × List Text)
  | [] => .error (.noArgument (braced choices) (choices.map Prod.fst))
  | w :: ws => do
    let x ← choose (braced choices) choices w
    return (x, ws)

/-- The first argument, which can be any word, and the others. -/
def named (label : String) : List Text → Except UsageFault (Text × List Text)
  | [] => .error (.noArgument label.toList [])
  | w :: ws => .ok (w, ws)

/-- Refuses arguments that are left over. -/
def noMore (ws : List Text) : Except UsageFault Unit :=
  if ws.isEmpty then .ok () else .error (.extraArguments ws)

/-- The arguments that are one schema. -/
def schemaArgument (ws : List Text) : Except UsageFault (Text × List Text) := named "SCHEMA_NAME" ws

/-! ## Jobs -/

namespace Job

/-- A derivation as a job. -/
def ofDerivation (o : Options) (path : Text) (d : Derivation) : Job := ⟨.derive d o.format, path⟩

/-- A job that picks or omits the named fields. -/
def byKey (o : Options) (ws : List Text) (f : Text → List Text → Derivation) :
    Except UsageFault Job := do
  let (s, ws) ← schemaArgument ws
  let names ← o.someNames
  let path ← o.path
  noMore ws
  return ofDerivation o path (f s names)

/-- A job that picks or omits fields by their shapes. -/
def byValue (o : Options) (ws : List Text) (f : Text → Predicate → Derivation) :
    Except UsageFault Job := do
  let (s, ws) ← schemaArgument ws
  let path ← o.path
  noMore ws
  let p ← o.predicate
  return ofDerivation o path (f s p)

/-- What a command asks for with its options and arguments. -/
def ofVerb (v : Verb) (o : Options) (ws : List Text) : Except UsageFault Job :=
  match v with
  | .pick => byKey o ws .pick
  | .omit => byKey o ws .omit
  | .pickByValue => byValue o ws .pickByValue
  | .omitByValue => byValue o ws .omitByValue
  | .keys => do
    let (op, ws) ← chosen keyOperations ws
    let (left, ws) ← named "LEFT" ws
    let (right, ws) ← named "RIGHT" ws
    let path ← o.path
    noMore ws
    return ⟨.keys op left right, path⟩
  | .deep => do
    let (r, ws) ← chosen rules ws
    let (s, ws) ← schemaArgument ws
    let path ← o.path
    noMore ws
    return ofDerivation o path (.deep r s)
  | .merge => do
    let (m, ws) ← chosen mergeModes ws
    let (left, ws) ← named "LEFT" ws
    let (right, ws) ← named "RIGHT" ws
    let path ← o.path
    noMore ws
    return ofDerivation o path (.merge m left right)

end Job

/-! ## Requests -/

/-- Why a command line asks for nothing that can be done. -/
inductive Refusal where
  /-- There are no words; the help text is shown. -/
  | noWords
  | usage (s : Scope) (f : UsageFault)

namespace Request

/-- The request of a command with the words behind it. -/
def ofVerb (v : Verb) (verbose : Bool) (ws : List Text) : Except UsageFault Request := do
  let s ← sortWords v.options true ws
  if s.given.any fun g => g.1 == .help then return .help (.verb v)
  else
    let o ← Options.ofGiven s.given
    let j ← Job.ofVerb v o s.arguments
    return .job j verbose

/-- What the options of the program ask for without a command: the first of them that asks for
anything. -/
def ofProgram? (given : List Given) : Option Request :=
  (given.map Prod.fst).findSome? fun
    | .version => some .version
    | .help => some (.help .program)
    | _ => none

/-- Whether a word begins with something other than a letter or a digit. -/
def startsOddly (w : Text) : Bool :=
  match w with
  | [] => false
  | .scalar c :: _ => !c.isAlphanum
  | .surrogate _ :: _ => true

/-- The request of the words behind the options of the program. A word that is no command and begins
oddly may have been meant as an option, so that the words are looked at as options first. -/
def ofCommand (verbose : Bool) (ws : List Text) : Except Refusal Request :=
  match ws with
  | [] => .error (.usage .program .noVerb)
  | w :: more =>
    match choice? verbs w with
    | some v => (ofVerb v verbose more).mapError (.usage (.verb v))
    | none =>
      let unknown : Except Refusal Request := .error (.usage .program (.unknownVerb w))
      if startsOddly w then
        match sortWords Scope.program.options false (w :: more) with
        | .error f => .error (.usage .program f)
        | .ok s => match ofProgram? s.given with
          | some r => .ok r
          | none => unknown
      else unknown

/-- What the words of a command line ask for. -/
def ofWords (ws : List Text) : Except Refusal Request :=
  if ws.isEmpty then .error .noWords
  else match sortWords Scope.program.options false ws with
    | .error f => .error (.usage .program f)
    | .ok s => match ofProgram? s.given with
      | some r => .ok r
      | none => ofCommand (s.given.any fun g => g.1 == .verbose) s.arguments

theorem ofWords_nil : ofWords [] = .error .noWords := rfl

end Request

end ShapeAlgebra.Command
