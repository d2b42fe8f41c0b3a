import ShapeAlgebra.Command.Usage
import ShapeAlgebra.Text.Similarity

/-!
# Options and arguments

The words of a command line sorted into options, with their values, and arguments. A long option may
have its value behind an equals sign, an option of one letter directly behind the letter, and
letters without values may follow one another. Otherwise the value is the next word, whatever it is.
Two hyphens end the options.

Results:

* `Command.sortWords_nil`: without words nothing is given.
-/

namespace ShapeAlgebra.Command

/-- An option with its value, if it takes one. -/
abbrev Given := Opt × Option Text

/-- The words of a command line, sorted. -/
structure Sorted where
  given : List Given
  arguments : List Text
deriving DecidableEq, Repr

/-- The code point with which options begin. -/
def hyphen : CodePoint := .scalar '-'

/-- A word, and what is behind its first equals sign if it has one. -/
def splitValue (w : Text) : Text × Option Text :=
  let name := w.takeWhile (· != .scalar '=')
  (name, (w.drop name.length).tail? )

/-- The option of a long word. -/
def longOption? (known : List Opt) (name : Text) : Option Opt :=
  known.find? fun o => name == Text.ofString o.long

/-- The option of a letter. -/
def letterOption? (known : List Opt) (c : CodePoint) : Option Opt :=
  known.find? fun o => o.letter?.map CodePoint.scalar == some c

/-- The options of the letters behind a hyphen; the last of them may need the next word as its
value. -/
def letters (known : List Opt) : Text → Except UsageFault (List Given × Option Opt)
  | [] => .ok ([], none)
  | c :: cs =>
    match letterOption? known c with
    | none => .error (.unknownOption [hyphen, c] [])
    | some o =>
      if o.takesValue then
        if cs.isEmpty then .ok ([], some o) else .ok ([(o, some cs)], none)
      else do
        let (given, last) ← letters known cs
        return ((o, none) :: given, last)

/-- What an option word gives, and the option that needs the next word as its value with the word by
which it was called. -/
def optionWord (known : List Opt) (w : Text) :
    Except UsageFault (List Given × Option (Opt × Text)) :=
  let (name, value) := splitValue w
  match longOption? known name with
  | some o =>
    if o.takesValue then
      match value with
      | some v => .ok ([(o, some v)], none)
      | none => .ok ([], some (o, name))
    else if value.isSome then .error (.valueRefused name)
    else .ok ([(o, none)], none)
  | none =>
    if w.take 2 == [hyphen, hyphen] then
      .error (.unknownOption name (Text.similarTo name (known.map fun o => Text.ofString o.long)))
    else do
      let (given, last) ← letters known w.tail
      return (given, last.map fun o => (o, hyphen :: (o.letter?.map CodePoint.scalar).toList))

/-- Whether a word is read as options. -/
def isOptionWord (w : Text) : Bool := w.head? == some hyphen && 1 < w.length

/-- The words of a command line, sorted. `mixed` tells whether options may follow arguments;
otherwise all words from the first argument on are arguments. -/
def sortWords (known : List Opt) (mixed : Bool) : List Text → Except UsageFault Sorted
  | [] => .ok ⟨[], []⟩
  | w :: ws =>
    if w == [hyphen, hyphen] then .ok ⟨[], ws⟩
    else if isOptionWord w then do
      let (given, last) ← optionWord known w
      match last with
      | none =>
        let s ← sortWords known mixed ws
        return { s with given := given ++ s.given }
      | some (o, name) =>
        match ws with
        | [] => throw (.noValue name)
        | v :: ws =>
          let s ← sortWords known mixed ws
          return { s with given := given ++ (o, some v) :: s.given }
    else if mixed then do
      let s ← sortWords known mixed ws
      return { s with arguments := w :: s.arguments }
    else .ok ⟨[], w :: ws⟩

theorem sortWords_nil (known : List Opt) (mixed : Bool) :
    sortWords known mixed [] = .ok ⟨[], []⟩ := rfl

end ShapeAlgebra.Command
