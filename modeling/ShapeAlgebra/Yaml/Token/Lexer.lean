import ShapeAlgebra.Yaml.Token.Plain
import ShapeAlgebra.Yaml.Token.Property

/-!
# The tokens of a text

A text is read from its beginning, and tokens are put out in their order. That a token begins a key
is seen only at the colon behind it. Until then it is remembered as a possible key: one for the
block around it, and one for each open bracket.

Results:

* `Yaml.Cursor.forward_add`: moving on in two steps is moving on once.
* `Yaml.Lexer.insert_length`: a token that is put in before others is one token more.
-/

namespace ShapeAlgebra.Yaml

/-! ## Places in a text -/

/-- A place in a text: what follows it, how many characters are before it, and its line and column.
A byte-order mark takes no column. -/
structure Cursor where
  rest : List Char
  index : Nat := 0
  line : Nat := 0
  column : Nat := 0
deriving DecidableEq, Repr

namespace Cursor

/-- The place `n` characters further on. -/
def forward (p : Cursor) : Nat → Cursor
  | 0 => p
  | n + 1 =>
    match p.rest with
    | [] => p
    | c :: rest =>
      if isBreak c then forward ⟨rest, p.index + 1, p.line + 1, 0⟩ n
      else forward ⟨rest, p.index + 1, p.line, if c == '\uFEFF' then p.column else p.column + 1⟩ n

theorem forward_of_rest_nil {p : Cursor} (h : p.rest = []) (n : Nat) : p.forward n = p := by
  cases n with
  | zero => rfl
  | succ n => simp [forward, h]

theorem forward_add (p : Cursor) (m n : Nat) : (p.forward m).forward n = p.forward (m + n) := by
  induction m generalizing p with
  | zero => simp [forward]
  | succ m ih =>
    rw [Nat.add_right_comm]
    cases h : p.rest with
    | nil => rw [forward_of_rest_nil h, forward_of_rest_nil h, forward_of_rest_nil h]
    | cons c rest =>
      simp only [forward, h]
      split <;> exact ih _

/-- The place at which `rest` follows. -/
def moveTo (p : Cursor) (rest : List Char) : Cursor := p.forward (p.rest.length - rest.length)

end Cursor

/-- What follows blanks, comments and line breaks, and whether there was a line break. -/
def skipGap (inComment : Bool) : List Char → List Char × Bool
  | [] => ([], false)
  | c :: cs =>
    if isBreak c then ((skipGap false cs).1, true)
    else if inComment || c == '#' then skipGap true cs
    else if c == ' ' then skipGap false cs
    else (c :: cs, false)

/-! ## The state of reading -/

/-- A token that may turn out to begin a key. -/
structure PossibleKey where
  /-- How many tokens are before it. -/
  number : Nat
  /-- Whether a colon must follow. -/
  required : Bool
  index : Nat
  line : Nat
  column : Nat
deriving DecidableEq, Repr

/-- The greatest number of characters between the beginning of a key and its colon. -/
def keyReach : Nat := 1024

/-- How far a text has been read. -/
structure Lexer where
  place : Cursor
  /-- The tokens so far, the latest first. -/
  tokens : List Token := []
  /-- The columns of the open blocks, the innermost first. -/
  indents : List Nat := []
  /-- The possible key inside the innermost bracket, or in the block if no bracket is open. -/
  possible : Option PossibleKey := none
  /-- The possible keys around the open brackets, the innermost first. -/
  around : List (Option PossibleKey) := []
  /-- Whether a key may begin here. -/
  keyAllowed : Bool := true
deriving DecidableEq, Repr

namespace Lexer

/-- Whether a bracket is open. -/
def inFlow (l : Lexer) : Bool := !l.around.isEmpty

/-- The least column of what is inside the innermost block. -/
def innerColumn (l : Lexer) : Nat :=
  match l.indents with
  | [] => 0
  | i :: _ => i + 1

/-- Puts out a token. -/
def put (l : Lexer) (t : Token) : Lexer := { l with tokens := t :: l.tokens }

/-- Moves on to where `rest` follows. -/
def moveTo (l : Lexer) (rest : List Char) : Lexer := { l with place := l.place.moveTo rest }

/-- Puts in tokens, the latest first, behind the first `number` tokens. -/
def insert (l : Lexer) (number : Nat) (ts : List Token) : Lexer :=
  let later := l.tokens.length - number
  { l with tokens := l.tokens.take later ++ ts ++ l.tokens.drop later }

theorem insert_length (l : Lexer) (number : Nat) (t : Token) :
    (l.insert number [t]).tokens.length = l.tokens.length + 1 := by
  simp only [insert, List.length_append, List.length_take, List.length_drop, List.length_singleton]
  omega

/-- Closes the blocks that are deeper than a column. -/
def closeBlocks (column : Nat) (l : Lexer) : Lexer :=
  let closed := l.indents.takeWhile (column < ·)
  { l with
    indents := l.indents.drop closed.length
    tokens := closed.map (fun _ => Token.blockEnd) ++ l.tokens }

/-- Closes all blocks. -/
def closeAllBlocks (l : Lexer) : Lexer :=
  { l with
    indents := []
    tokens := l.indents.map (fun _ => Token.blockEnd) ++ l.tokens }

/-- Whether a column is deeper than the innermost block. -/
def isDeeper (l : Lexer) (column : Nat) : Bool :=
  match l.indents with
  | [] => true
  | i :: _ => decide (i < column)

/-- Opens a block at the place if it is deeper than the block around it. -/
def openBlock (l : Lexer) (t : Token) : Lexer :=
  if l.isDeeper l.place.column then
    { l with indents := l.place.column :: l.indents, tokens := t :: l.tokens }
  else l

/-- Forgets the possible key at this level, whose colon must not be required. -/
def forgetKey (l : Lexer) : Except Fault Lexer :=
  match l.possible with
  | some k => if k.required then .error .malformed else .ok { l with possible := none }
  | none => .ok l

/-- Remembers that the next token may begin a key. -/
def rememberKey (l : Lexer) : Except Fault Lexer :=
  if l.keyAllowed then do
    let l ← l.forgetKey
    let required := !l.inFlow && l.indents.head? == some l.place.column
    let k : PossibleKey :=
      ⟨l.tokens.length, required, l.place.index, l.place.line, l.place.column⟩
    return { l with possible := some k }
  else .ok l

/-- Whether a possible key is too far away, or on another line, for its colon to be here. -/
def isStale (p : Cursor) (k : PossibleKey) : Bool :=
  k.line != p.line || decide (keyReach < p.index - k.index)

/-- Forgets the possible keys whose colons can no longer come. -/
def dropStaleKeys (l : Lexer) : Except Fault Lexer :=
  let keep (k : Option PossibleKey) : Option PossibleKey :=
    k.filter fun k => !isStale l.place k
  let lost := (l.possible :: l.around).any fun k => k.any fun k => isStale l.place k && k.required
  if lost then .error .malformed
  else .ok { l with possible := keep l.possible, around := l.around.map keep }

/-! ## Tokens by their first characters -/

/-- A token of one character. -/
def single (l : Lexer) (t : Token) : Lexer := (l.put t).moveTo l.place.rest.tail

/-- A line that separates documents. -/
def separator (l : Lexer) (t : Token) : Except Fault Lexer := do
  let l ← l.closeAllBlocks.forgetKey
  return ({ l with keyAllowed := false }.put t).moveTo (l.place.rest.drop 3)

/-- A directive. -/
def directive (l : Lexer) : Except Fault Lexer := do
  let l ← l.closeAllBlocks.forgetKey
  let (t, rest) ← Yaml.directive l.place.rest.tail
  return ({ l with keyAllowed := false }.put t).moveTo rest

/-- The greatest number of open brackets. Nodes inside so many others are refused long before, so
that no more needs to be read. -/
def bracketLimit : Nat := 2000

/-- An opening bracket. -/
def openBracket (l : Lexer) (t : Token) : Except Fault Lexer := do
  if bracketLimit ≤ l.around.length then throw .endless
  let l ← l.rememberKey
  return { l with around := l.possible :: l.around, possible := none, keyAllowed := true }.single t

/-- A closing bracket. -/
def closeBracket (l : Lexer) (t : Token) : Except Fault Lexer := do
  let l ← l.forgetKey
  match l.around with
  | [] => throw .malformed
  | k :: around =>
    return { l with around := around, possible := k, keyAllowed := false }.single t

/-- A comma between brackets. -/
def comma (l : Lexer) : Except Fault Lexer := do
  let l ← l.forgetKey
  return { l with keyAllowed := true }.single .comma

/-- The dash of an item. -/
def item (l : Lexer) : Except Fault Lexer := do
  if !l.inFlow && !l.keyAllowed then throw .malformed
  let l := if l.inFlow then l else l.openBlock .blockSequence
  let l ← { l with keyAllowed := true }.forgetKey
  return l.single .item

/-- The question mark of a key. -/
def explicitKey (l : Lexer) : Except Fault Lexer := do
  if !l.inFlow && !l.keyAllowed then throw .malformed
  let l := if l.inFlow then l else l.openBlock .blockMapping
  let l ← { l with keyAllowed := !l.inFlow }.forgetKey
  return l.single .key

/-- The colon of a value. The possible key, if there is one, becomes a key, and opens a block if it
is deeper than the block around it. -/
def value (l : Lexer) : Except Fault Lexer := do
  match l.possible with
  | some k =>
    let l := { l with possible := none, keyAllowed := false }
    if !l.inFlow && l.isDeeper k.column then
      return { l.insert k.number [.key, .blockMapping] with
        indents := k.column :: l.indents }.single .value
    else return (l.insert k.number [.key]).single .value
  | none =>
    if !l.inFlow && !l.keyAllowed then throw .malformed
    let l := if l.inFlow then l else l.openBlock .blockMapping
    return { l with keyAllowed := !l.inFlow }.single .value

/-- A token that may begin a key, read by `read?` from the character behind its mark on. -/
def named (l : Lexer) (read : Option TokenRead) : Except Fault Lexer := do
  let l ← l.rememberKey
  match read with
  | some (t, rest) => return ({ l with keyAllowed := false }.put t).moveTo rest
  | none => throw .malformed

/-- A block scalar. -/
def blockScalar (l : Lexer) (folded : Bool) : Except Fault Lexer := do
  let l ← { l with keyAllowed := true }.forgetKey
  let (t, rest) ← blockBody folded l.innerColumn l.place.rest.tail
  return (l.put (.scalar false (Text.ofChars t))).moveTo rest

/-- A quoted scalar. -/
def quoted (l : Lexer) (double : Bool) : Except Fault Lexer := do
  let l ← l.rememberKey
  let (t, rest) ← quotedBody double (.blanks []) l.place.rest.tail
  return ({ l with keyAllowed := false }.put (.scalar false t)).moveTo rest

/-- A plain scalar. -/
def plain (l : Lexer) : Except Fault Lexer := do
  let l ← l.rememberKey
  let r := plainBody l.inFlow l.innerColumn 0 (.blanks []) l.place.rest
  return ({ l with keyAllowed := r.crossed }.put (.scalar true (Text.ofChars r.text))).moveTo r.rest

/-- The token that begins with `c`, with `cs` behind it. -/
def token (l : Lexer) (c : Char) (cs : List Char) : Except Fault Lexer :=
  let lineStarts := l.place.column == 0
  let flow := l.inFlow
  if c == '%' && lineStarts then l.directive
  else if lineStarts && markAhead '-' (c :: cs) then l.separator .documentStart
  else if lineStarts && markAhead '.' (c :: cs) then l.separator .documentEnd
  else if c == '[' then l.openBracket .flowSequence
  else if c == '\x7b' then l.openBracket .flowMapping
  else if c == ']' then l.closeBracket .flowSequenceEnd
  else if c == '\x7d' then l.closeBracket .flowMappingEnd
  else if c == ',' then l.comma
  else if c == '-' && gapAhead cs then l.item
  else if c == '?' && (flow || gapAhead cs) then l.explicitKey
  else if c == ':' && (flow || gapAhead cs) then l.value
  else if c == '*' then l.named ((anchorName? cs).map fun (n, rest) => (.alias n, rest))
  else if c == '&' then l.named ((anchorName? cs).map fun (n, rest) => (.anchor n, rest))
  else if c == '!' then l.named (tag? (c :: cs))
  else if c == '|' && !flow then l.blockScalar false
  else if c == '>' && !flow then l.blockScalar true
  else if c == '\'' then l.quoted false
  else if c == '"' then l.quoted true
  else if startsPlain flow c cs then l.plain
  else .error .malformed

/-- The place behind blanks, comments and line breaks. A byte-order mark at the beginning of the
text means nothing. -/
def atToken (l : Lexer) : Except Fault Lexer :=
  let start := if l.place.index == 0 && l.place.rest.head? == some '\uFEFF' then l.place.rest.tail
    else l.place.rest
  let (rest, crossed) := skipGap false start
  let l := l.moveTo rest
  { l with keyAllowed := l.keyAllowed || (crossed && !l.inFlow) }.dropStaleKeys

/-- The end of the text. -/
def finish (l : Lexer) : Except Fault Lexer := l.closeAllBlocks.forgetKey

end Lexer

/-! ## All tokens -/

/-- The tokens of a text, up to the fault if there is one. -/
structure Tokens where
  list : List Token
  fault : Option Fault
deriving DecidableEq, Repr

namespace Lexer

/-- The tokens that are settled: those before the first possible key. -/
def settled (l : Lexer) : List Token :=
  let keys := (l.possible :: l.around).filterMap id
  let first := keys.foldl (fun n k => min n k.number) l.tokens.length
  l.tokens.reverse.take first

/-- Reads on to the end of the text or to a fault. Each step takes a character, so that `fuel` need
not exceed their number. -/
def run (l : Lexer) : (fuel : Nat) → Tokens
  | 0 => ⟨l.settled, some .malformed⟩
  | fuel + 1 =>
    match l.atToken with
    | .error cause => ⟨l.settled, some cause⟩
    | .ok l =>
      match l.place.rest with
      | [] => match l.finish with
        | .error cause => ⟨l.settled, some cause⟩
        | .ok l => ⟨l.tokens.reverse, none⟩
      | c :: cs =>
        let l := if l.inFlow then l else l.closeBlocks l.place.column
        match l.token c cs with
        | .error cause => ⟨l.settled, some cause⟩
        | .ok l => l.run fuel

end Lexer

/-- The tokens of a text. -/
def Tokens.ofChars (cs : List Char) : Tokens :=
  Lexer.run { place := ⟨cs, 0, 0, 0⟩ } (cs.length + 1)

end ShapeAlgebra.Yaml
