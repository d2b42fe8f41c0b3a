import ShapeAlgebra.Command.Request
import ShapeAlgebra.Declaration.File
import ShapeAlgebra.Record.Selection
import ShapeAlgebra.Record.Variants

/-!
# Running the program

What the program prints for the words of a command line, and its exit status. It prints what was
asked for, or what is wrong, and nothing of both.

What it prints goes to two streams, which may refuse a code point: a half of a surrogate pair, as a
declaration can hold it in a name, has no bytes in UTF-8. Then the run ends without a status, as it
does for a fault of a declaration file for which there are no words.

Results:

* `Command.run_nil`: without words the program fails and shows its help text.
* `Command.runOn_lenient`: on streams that take every code point nothing but a fault without words
  ends a run.
-/

namespace ShapeAlgebra.Command

/-- What a run of the program comes to: its status, and what the streams of results and of errors
are given to print. -/
structure Outcome where
  status : Nat
  output : Text
  errors : Text
deriving DecidableEq, Repr

/-- A text without the sequences by which a terminal is told of colours: an escape character and an
opening bracket, some digits and marks, and a letter. Each step takes a code point, so that `fuel`
need not exceed their number. -/
def withoutColoursFrom : (fuel : Nat) → Text → Text
  | 0, t => t
  | fuel + 1, t =>
    match t with
    | [] => []
    | p :: rest =>
      let isMark : CodePoint → Bool
        | .scalar c => c == ';' || c == '?' || c.isDigit
        | .surrogate _ => false
      match p, rest with
      | .scalar '\x1b', .scalar '[' :: more =>
        match more.dropWhile isMark with
        | .scalar c :: behind =>
          if c.isAlpha then withoutColoursFrom fuel behind else p :: withoutColoursFrom fuel rest
        | _ => p :: withoutColoursFrom fuel rest
      | _, _ => p :: withoutColoursFrom fuel rest

/-- A text without the sequences by which a terminal is told of colours. -/
def withoutColours (t : Text) : Text := withoutColoursFrom t.length t

/-- A text as it is printed, with a line break (`echo`). The streams are no terminals, so that
colours are left out. Whether a stream takes the text is another matter, see `Reply.printOn`. -/
def printed (t : Text) : Text := withoutColours t ++ "\n"

/-! ## What is told of the steps -/

/-- The parts of the program that tell of their steps. -/
inductive Teller where
  | loader
  | merging
  | program

/-- The name of a teller. -/
def Teller.name : Teller → String
  | .loader => "schema_algebra.schema_declarations.declaration_loader"
  | .merging => "schema_algebra.merging.merge_rules"
  | .program => "schema_algebra.cli"

/-- A line that tells of a step. -/
def told (teller : Teller) (t : Text) : Text :=
  "DEBUG " ++ Text.ofString teller.name ++ ": " ++ t ++ "\n"

/-- What is told of a catalog that was loaded (in `load_declarations`). -/
def toldOfCatalog (c : Catalog) : Text :=
  told .loader ("Loaded " ++ Text.ofNat c.schemas.length ++ " schema declaration(s) from " ++
    c.path.getD [])

/-- What is told of two records that were merged (in `merge_override`, `merge` and
`merge_exclusive`). -/
def toldOfMerge (m : MergeMode) (a b : Record) : Text :=
  let overriding := told .merging ("merge_override replaced " ++
    Text.ofNat (a.replacedCount b) ++ " of " ++ Text.ofNat a.length ++ " fields")
  match m with
  | .override => overriding
  | .assign => overriding ++
      told .merging ("merge appended " ++ Text.ofNat (a.added b).length ++ " field(s)")
  | .exclusive => told .merging ("merge_exclusive built variants with " ++
      Text.ofNat (a.keys.sdiff b.keys).names.length ++ " and " ++
      Text.ofNat (b.keys.sdiff a.keys).names.length ++ " exclusive field(s)")

/-! ## Tasks -/

/-- A merge in one of its ways (`_MERGE_MODES`). -/
def MergeMode.apply (m : MergeMode) (a b : Schema) : Except Failure Schema :=
  match m with
  | .override => Schema.record <$> a.mergeOverride b
  | .assign => Schema.record <$> a.merge b
  | .exclusive => a.mergeExclusive b

/-- An operation on field names (`_KEY_OPERATIONS`). -/
def KeyOperation.apply (op : KeyOperation) (a b : KeySource) : Except Failure KeySet :=
  match op with
  | .intersect => a.intersect b
  | .subtract => a.subtract b
  | .complement => a.complement b
  | .symmetricDifference => a.symmetricDifference b
  | .union => a.union b

/-- The schema that a derivation gives (`pick`, `omit` and the other commands). -/
def Derivation.apply (d : Derivation) (c : Catalog) : Except DeclarationFault Schema :=
  let orFail {α : Type} (x : Except Failure α) : Except DeclarationFault α :=
    x.mapError .failure
  match d with
  | .pick s ns => do
    orFail (Schema.record <$> (← c.get s).pickByKey (.data (.list (ns.map .text))))
  | .omit s ns => do
    orFail (Schema.record <$> (← c.get s).omitByKey (.data (.list (ns.map .text))))
  | .pickByValue s p => do orFail (Schema.record <$> (← c.get s).pickByValue p)
  | .omitByValue s p => do orFail (Schema.record <$> (← c.get s).omitByValue p)
  | .deep r s => return (← c.get s).deep r
  | .merge m a b => do
    let x ← c.get a
    let y ← c.get b
    orFail (m.apply x y)

/-- What is told of the steps of a derivation (in `_derive`). -/
def Derivation.tell (d : Derivation) (c : Catalog) (s : Schema) : Text :=
  (match d with
    | .merge m a b => match c.get a, c.get b with
      | .ok (.record r), .ok (.record t) => toldOfMerge m r t
      | _, _ => []
    | _ => []) ++ told .program ("Derived " ++ Text.ofString s.variety ++ " schema")

/-- What a task prints, and what is told of its steps (`keys` and `_derive`). -/
def Task.apply (t : Task) (c : Catalog) : Except DeclarationFault (Text × Text) :=
  match t with
  | .keys op a b => do
    let x ← c.getRecord a
    let y ← c.getRecord b
    let s ← (op.apply (.schema (.record x)) (.schema (.record y))).mapError .failure
    return ((s.names.map printed).flatten, [])
  | .derive d f => do
    let s ← d.apply c
    return (printed (s.print f), d.tell c s)

/-! ## Replies -/

/-- What the program replies: its status, what was asked for, what is told of the steps, and what is
wrong. -/
structure Reply where
  status : Nat
  output : Text
  steps : Text
  words : Text
deriving DecidableEq, Repr

/-- What a run comes to whose reply is printed. -/
def Reply.outcome (r : Reply) : Outcome := ⟨r.status, r.output, r.steps ++ r.words⟩

/-- The reply that something failed, with some words for it (`CliError`). -/
def failed (steps words : Text) : Reply := ⟨1, [], steps, printed words⟩

/-- The reply to a job when its declarations are given (`keys` and `_derive`). -/
def Job.apply (j : Job) (verbose : Bool) (c : Catalog) : Reply :=
  let log (t : Text) : Text := if verbose then t else []
  match j.task.apply c with
  | .error cause => failed (log (toldOfCatalog c)) cause.message
  | .ok (output, steps) => ⟨0, output, log (toldOfCatalog c ++ steps), []⟩

/-- The reply to a job by what is found at the path of its declarations (`_load`). A fault for which
there are no words ends the program. -/
def Job.run (j : Job) (verbose : Bool) (found : Found) : Except FileFault Reply :=
  match Catalog.ofFound (Path.ofText j.declarations) found with
  | .ok c => .ok (j.apply verbose c)
  | .error cause => match cause.message? with
    | some words => .ok (failed [] words)
    | none => .error cause

/-- The reply to a request by what is found at paths (`main`). A text that cannot be a path ends the
program. -/
def respond (r : Except Refusal Request) (find : Path → Found) : Except FileFault Reply :=
  match r with
  | .error .noWords => .ok ⟨2, [], [], Text.ofChars (Scope.help .program)⟩
  | .error (.usage _ (.noPath cause)) => .error (.notPath cause)
  | .error (.usage s fault) => .ok ⟨2, [], [], withoutColours (fault.report s)⟩
  | .ok .version => .ok ⟨0, Text.ofChars Scope.version, [], []⟩
  | .ok (.help s) => .ok ⟨0, Text.ofChars s.help, [], []⟩
  | .ok (.job j verbose) => j.run verbose (find (Path.ofText j.declarations))

/-- The reply to some words in a folder. -/
def reply (f : Folder) (ws : List Text) : Except FileFault Reply :=
  respond (Request.ofWords ws) f.find

/-- What the program comes to when it is run with some words in a folder, on streams that take every
code point. -/
def run (f : Folder) (ws : List Text) : Except FileFault Outcome := Reply.outcome <$> reply f ws

theorem run_nil (f : Folder) : run f [] = .ok ⟨2, [], Text.ofChars (Scope.help .program)⟩ := rfl

/-! ## Streams -/

/-- The streams of results and of errors, by the code points that they take. They are open and have
room, so that they refuse nothing else. The stream of errors is one in UTF-8, or one that escapes
what its encoding lacks; it takes every character. -/
structure Streams where
  output : CodePoint → Bool
  errors : CodePoint → Bool
  errors_scalar (c : Char) : errors (.scalar c) = true

namespace Streams

/-- Streams that take every code point, such as those that keep what is printed as a text. -/
def lenient : Streams := ⟨fun _ => true, fun _ => true, fun _ => rfl⟩

/-- Whether a code point has bytes in UTF-8. -/
def hasBytes : CodePoint → Bool
  | .scalar _ => true
  | .surrogate _ => false

/-- The streams of a program that a shell starts. Results are written in UTF-8 and nothing else,
while errors are written with escapes for what has no bytes. -/
def standard : Streams := ⟨hasBytes, fun _ => true, fun _ => rfl⟩

end Streams

/-- Why a run ends without a status. The stack on which the program runs is taken to be large
enough, but for what is said of `Yaml.deepest`. -/
inductive RunFault where
  /-- The path or the file of the declarations has a fault for which there are no words. -/
  | file (cause : FileFault)
  /-- The stream to which it was to be printed does not take a code point. -/
  | unprintable (p : CodePoint)
deriving DecidableEq, Repr

/-- The first code point of a reply that a stream does not take. What is told of the steps goes to
the stream of errors through a log, which lets no fault out. Where the stream does not take it, the
log reports that in words of its own, which are part of no outcome. -/
def Reply.refused? (r : Reply) (s : Streams) : Option CodePoint :=
  (r.output.find? fun p => !s.output p).or (r.words.find? fun p => !s.errors p)

theorem Reply.refused?_eq_none_iff {r : Reply} {s : Streams} : r.refused? s = none ↔
    (∀ p ∈ r.output, s.output p = true) ∧ ∀ p ∈ r.words, s.errors p = true := by
  simp [refused?]

/-- What a run comes to when its reply is printed on streams (`echo`). A text is refused as a whole
for one of its code points, and then the run ends; of several names, those in front have been
printed. -/
def Reply.printOn (r : Reply) (s : Streams) : Except RunFault Outcome :=
  match r.refused? s with
  | some p => .error (.unprintable p)
  | none => .ok r.outcome

/-- What a request comes to on streams, by what is found at paths. -/
def respondOn (s : Streams) (r : Except Refusal Request) (find : Path → Found) :
    Except RunFault Outcome := do
  let answer ← (respond r find).mapError .file
  answer.printOn s

/-- What the program comes to when it is run with some words in a folder, on streams (`main`). -/
def runOn (s : Streams) (f : Folder) (ws : List Text) : Except RunFault Outcome :=
  respondOn s (Request.ofWords ws) f.find

@[simp] theorem Reply.printOn_lenient (r : Reply) : r.printOn .lenient = .ok r.outcome := by
  have h : r.refused? .lenient = none := refused?_eq_none_iff.2 ⟨fun _ _ => rfl, fun _ _ => rfl⟩
  rw [printOn, h]

theorem runOn_lenient (f : Folder) (ws : List Text) :
    runOn .lenient f ws = (run f ws).mapError .file := by
  rw [runOn, respondOn, run, reply]
  cases respond (Request.ofWords ws) f.find with
  | error cause => rfl
  | ok r => exact r.printOn_lenient

end ShapeAlgebra.Command
