import ShapeAlgebra.Text.Utf8
import ShapeAlgebra.Yaml.Token.Block

/-!
# Names, tags and directives in a text

The tokens that begin with `*`, `&`, `!` or, at the beginning of a line, with `%`.

Results:

* `Yaml.name?_length`: reading a name takes characters away.
-/

namespace ShapeAlgebra.Yaml

/-- A token and what follows it. -/
abbrev TokenRead := Token × List Char

/-- A name, which must not be empty, and what follows it. -/
def name? (cs : List Char) : Option (List Char × List Char) :=
  let n := cs.takeWhile isNameChar
  if n.isEmpty then none else some (n, cs.drop n.length)

theorem name?_length {cs n rest : List Char} (h : name? cs = some (n, rest)) :
    rest.length < cs.length := by
  simp only [name?] at h
  split at h
  · cases h
  · next hn =>
    cases h
    have h₁ := (List.takeWhile_prefix isNameChar (l := cs)).length_le
    have h₂ : 0 < (cs.takeWhile isNameChar).length :=
      List.length_pos_iff.2 (by simpa using hn)
    rw [List.length_drop]
    omega

/-- The name of an anchor or alias behind its mark, which a blank or a mark must follow. -/
def anchorName? (cs : List Char) : Option (List Char × List Char) := do
  let (n, rest) ← name? cs
  guard (gapAhead rest || rest.head?.any fun c => "?:,]\x7d%@`".toList.contains c)
  return (n, rest)

/-! ## Tags -/

/-- Whether a character may stand in a tag, the percent sign of an escape aside. -/
def isTagChar (c : Char) : Bool :=
  isNameChar c || ";/?:@&=+$,.!~*'()[]".toList.contains c

/-- The bytes of the escapes at the front of `cs`, and what follows them. -/
def escapedBytes? : List Char → Option (List UInt8 × List Char)
  | '%' :: a :: b :: cs => do
    let n ← hexValue? [a, b]
    let (bs, rest) ← escapedBytes? cs
    return (n.toUInt8 :: bs, rest)
  | '%' :: _ => none
  | cs => some ([], cs)

/-- The rest of a tag, its escapes being read as UTF-8, and what follows it. Each step takes a
character, so that `fuel` need not exceed their number. -/
def tagRestFrom : (fuel : Nat) → List Char → Option (List Char × List Char)
  | 0, cs => some ([], cs)
  | fuel + 1, cs =>
    match cs with
    | [] => some ([], [])
    | c :: rest =>
      if c == '%' then do
        let (bs, rest) ← escapedBytes? cs
        let chars ← Utf8.decode bs
        let (more, rest) ← tagRestFrom fuel rest
        return (chars ++ more, rest)
      else if isTagChar c then do
        let (more, rest) ← tagRestFrom fuel rest
        return (c :: more, rest)
      else some ([], cs)

/-- The rest of a tag, which must not be empty, and what follows it. -/
def tagRest? (cs : List Char) : Option (List Char × List Char) := do
  guard (cs.head?.any fun c => c == '%' || isTagChar c)
  tagRestFrom cs.length cs

/-- A handle: an exclamation mark, or a name between two of them. -/
def handle? : List Char → Option (List Char × List Char)
  | '!' :: cs =>
    if cs.head? = some ' ' then some (['!'], cs)
    else match cs.dropWhile isNameChar with
      | '!' :: rest => some ('!' :: (cs.takeWhile isNameChar ++ ['!']), rest)
      | _ => none
  | _ => none

/-- A tag from its exclamation mark on, which a blank or the end of the line must follow. -/
def tag? (cs : List Char) : Option TokenRead := do
  let (token, rest) : TokenRead ← match cs.tail with
    | '<' :: r => do
      let (t, r) ← tagRest? r
      let r ← if r.head? = some '>' then some r.tail else none
      pure (.tag none t, r)
    | r =>
      if gapAhead r then pure (.tag none ['!'], r)
      else do
        let word := r.takeWhile fun c => !(c == ' ' || isBreak c)
        let (handle, r) ← if word.contains '!' then handle? cs else some (['!'], r)
        let (t, r) ← tagRest? r
        pure (.tag (some handle) t, r)
  guard (lineEnds rest || rest.head? = some ' ')
  return (token, rest)

/-! ## Directives -/

/-- What must be there. -/
def required {α : Type} (x : Option α) : Except Fault α :=
  match x with
  | some a => .ok a
  | none => .error .malformed

/-- A number in decimal digits, and what follows it. -/
def decimal (cs : List Char) : Except Fault (Nat × List Char) :=
  let ds := cs.takeWhile Char.isDigit
  if ds.isEmpty then .error .malformed
  else if Text.digitLimit < ds.length then .error (.tooManyDigits ds.length)
  else .ok (ds.foldl (fun n d => 10 * n + (d.toNat - '0'.toNat)) 0, cs.drop ds.length)

/-- What follows some blanks. -/
def dropBlanks (cs : List Char) : List Char := cs.dropWhile (· == ' ')

/-- Whether a word of a directive ends here. -/
def wordEnds (cs : List Char) : Bool := lineEnds cs || cs.head? == some ' '

/-- What stands here if a word of a directive ends here. -/
def atWordEnd (cs : List Char) : Except Fault (List Char) :=
  if wordEnds cs then .ok cs else .error .malformed

/-- The two numbers of a version, and what follows them. -/
def version (cs : List Char) : Except Fault TokenRead := do
  let (major, r) ← decimal (dropBlanks cs)
  let r ← required (if r.head? = some '.' then some r.tail else none)
  let (minor, r) ← decimal r
  return (.version major minor, ← atWordEnd r)

/-- A handle and the beginning for which it stands, and what follows them. -/
def handleDirective? (cs : List Char) : Option TokenRead := do
  let (h, r) ← handle? (dropBlanks cs)
  guard (r.head? == some ' ')
  let (beginning, r) ← tagRest? (dropBlanks r)
  guard (wordEnds r)
  return (.handle h beginning, r)

/-- A directive behind its percent sign, up to the beginning of the next line. -/
def directive (cs : List Char) : Except Fault TokenRead := do
  let (n, r) ← required (name? cs)
  let r ← atWordEnd r
  let (token, r) : TokenRead ←
    if n == "YAML".toList then version r
    else if n == "TAG".toList then required (handleDirective? r)
    else pure (.remark, r.dropWhile fun c => !isBreak c)
  return (token, ← required (restOfLine? r))

end ShapeAlgebra.Yaml
