import ShapeAlgebra.Yaml.Node
import ShapeAlgebra.Yaml.Plain
import ShapeAlgebra.Yaml.Token.Lexer

/-!
# The nodes of a text

The tokens of a text make up one document at most: a node, in front of which directives may stand.
A node may have an anchor, under which aliases behind its anchor find it again, and a tag. A
collection gets its number before what is in it, so that aliases inside it find it as well.

Results:

* `Yaml.Reading.find?_remember`: a node is found under the anchor under which it was remembered.
-/

namespace ShapeAlgebra.Yaml

/-- What does not change while a document is read: why its tokens end, if they do so before the
document does, and what the handles stand for. -/
structure Frame where
  fault : Option Fault
  handles : List (List Char × List Char)

/-- The tokens ahead, the nodes so far, the numbers of those with anchors, and how many collections
are open. -/
structure Reading where
  tokens : List Token
  nodes : Nodes := #[]
  anchors : List (List Char × Nat) := []
  depth : Nat := 0

/-- The greatest number of collections inside one another that are read. Reading calls itself twice
for each of them, so that the stack on which it runs is used up behind some number of them; 488 is
that number where 1000 calls may be open and somewhat more than twenty are before it begins. Nowhere
else does the stack count: schemas that are printed, and references that are followed one after the
other, may be of any depth. -/
def deepest : Nat := 488

/-- A step of reading nodes. -/
abbrev Step (α : Type) := StateT Reading (Except Fault) α

/-- Remembers a node under its anchor, if it has one. -/
def Reading.remember (r : Reading) (anchor : Option (List Char)) (n : Nat) : Reading :=
  match anchor with
  | some name => { r with anchors := (name, n) :: r.anchors }
  | none => r

/-- The node under an anchor. -/
def Reading.find? (r : Reading) (name : List Char) : Option Nat := r.anchors.lookup name

theorem Reading.find?_remember (r : Reading) (name : List Char) (n : Nat) :
    (r.remember (some name) n).find? name = some n := by
  simp [find?, remember]

namespace Frame

/-- The token ahead; none at the end of the text. -/
def peek (f : Frame) : Step (Option Token) := do
  match (← get).tokens with
  | t :: _ => return some t
  | [] => match f.fault with
    | some cause => throw cause
    | none => return none

/-- Whether the token ahead is one of some tokens. -/
def at? (f : Frame) (ts : List Token) : Step Bool := do
  return match ← f.peek with
    | some t => ts.contains t
    | none => false

end Frame

/-- Takes the token ahead. -/
def advance : Step Unit := modify fun r => { r with tokens := r.tokens.tail }

/-- A text that has no structure. -/
def malformed {α : Type} : Step α := throw .malformed

/-- Takes the token ahead, which must be `t`. -/
def Frame.expect (f : Frame) (t : Token) : Step Unit := do
  if ← f.at? [t] then advance else malformed

/-- The tag of a text whose form decides. A line break at its end does not count, unless there is
nothing else. -/
def Tag.ofForm (t : Text) : Tag :=
  let breaks := t.getLast? == some (.scalar '\n') && decide (1 < t.length)
  match Text.chars? (if breaks then t.dropLast else t) with
  | some cs => .ofPlain cs
  | none => .text

/-- The tag of a scalar: the one that is written, or the one of its form if it is plain or has the
tag `!`, or that of texts. -/
def scalarTag (written : Option (List Char)) (plain : Bool) (t : Text) : Tag :=
  match written with
  | none => if plain then .ofForm t else .text
  | some w => if w == ['!'] then .ofForm t else .ofUri w

/-- The tag of a collection: the one that is written, or the usual one. -/
def collectionTag (written : Option (List Char)) (usual : Tag) : Tag :=
  match written with
  | none => usual
  | some w => if w == ['!'] then usual else .ofUri w

/-! ## Adding nodes -/

/-- Refuses an anchor that was there before. -/
def checkAnchor (anchor : Option (List Char)) : Step Unit := do
  match anchor with
  | some name => if ((← get).find? name).isSome then malformed else return ()
  | none => return ()

/-- Adds a node and gives its number. -/
def add (n : Node) : Step Nat := do
  let r ← get
  set { r with nodes := r.nodes.push n }
  return r.nodes.size

/-- Adds a scalar under its anchor. -/
def addScalar (anchor : Option (List Char)) (tag : Tag) (t : Text) : Step Nat := do
  checkAnchor anchor
  let n ← add ⟨tag, .scalar t⟩
  modify fun r => r.remember anchor n
  return n

/-- Adds a collection under its anchor, and then reads what is in it. -/
def addCollection (anchor : Option (List Char)) (tag : Tag) (content : Step Content) :
    Step Nat := do
  checkAnchor anchor
  if (← get).depth = deepest then throw .endless
  let n ← add ⟨tag, .sequence []⟩
  modify fun r => { r.remember anchor n with depth := r.depth + 1 }
  let c ← content
  modify fun r => { r with nodes := r.nodes.setIfInBounds n ⟨tag, c⟩, depth := r.depth - 1 }
  return n

/-- Nothing where a node should be, which an anchor or a tag makes up for. -/
def noContent (anchor : Option (List Char)) (written : Option (List Char)) : Step Nat :=
  if anchor.isNone && written.isNone then malformed
  else addScalar anchor (scalarTag written true []) []

namespace Frame

/-- A tag in full. -/
def fullTag (f : Frame) (handle : Option (List Char)) (rest : List Char) : Step (List Char) :=
  match handle with
  | none => return rest
  | some h => match f.handles.lookup h with
    | some beginning => return beginning ++ rest
    | none => malformed

/-- The anchor and the tag in front of a node, in either order. -/
def properties (f : Frame) :
    Step (Option (List Char) × Option (Option (List Char) × List Char)) := do
  match ← f.peek with
  | some (.anchor name) =>
    advance
    match ← f.peek with
    | some (.tag handle rest) => advance; return (some name, some (handle, rest))
    | _ => return (some name, none)
  | some (.tag handle rest) =>
    advance
    match ← f.peek with
    | some (.anchor name) => advance; return (some name, some (handle, rest))
    | _ => return (none, some (handle, rest))
  | _ => return (none, none)

/-! ## Nodes

Each step takes a token or hands over to a step that does, so that `fuel` need not exceed twice the
number of tokens. -/

mutual

/-- A node. `block` tells whether it may be a block, and `flush` whether it may be a list as deep as
the key before it. -/
def node (f : Frame) (block flush : Bool) : (fuel : Nat) → Step Nat
  | 0 => malformed
  | fuel + 1 => do
    match ← f.peek with
    | some (.alias name) =>
      advance
      match (← get).find? name with
      | some n => return n
      | none => malformed
    | _ =>
      let (anchor, tag) ← f.properties
      let written : Option (List Char) ← match tag with
        | some (handle, rest) => some <$> f.fullTag handle rest
        | none => pure none
      let sequence (items : Step (List Nat)) : Step Nat :=
        addCollection anchor (collectionTag written .sequence) (.sequence <$> items)
      let mapping (entries : Step (List (Nat × Nat))) : Step Nat :=
        addCollection anchor (collectionTag written .mapping) (.mapping <$> entries)
      match ← f.peek with
      | some (.scalar plain t) => addScalar anchor (scalarTag written plain t) t <* advance
      | some .item => if flush then sequence (f.flushItems fuel) else noContent anchor written
      | some .flowSequence => sequence (advance *> f.flowItems true fuel)
      | some .flowMapping => mapping (advance *> f.flowEntries true fuel)
      | some .blockSequence =>
        if block then sequence (advance *> f.blockItems fuel) else noContent anchor written
      | some .blockMapping =>
        if block then mapping (advance *> f.blockEntries fuel) else noContent anchor written
      | _ => noContent anchor written

/-- A node, or nothing if one of some tokens is ahead. -/
def nodeUnless (f : Frame) (ts : List Token) (block flush : Bool) : (fuel : Nat) → Step Nat
  | 0 => malformed
  | fuel + 1 => do
    if ← f.at? ts then add .absent else f.node block flush fuel

/-- The items of a list in block style, and its end. -/
def blockItems (f : Frame) : (fuel : Nat) → Step (List Nat)
  | 0 => malformed
  | fuel + 1 => do
    if ← f.at? [.item] then
      advance
      let n ← f.nodeUnless [.item, .blockEnd] true false fuel
      return n :: (← f.blockItems fuel)
    else
      f.expect .blockEnd
      return []

/-- The items of a list that is as deep as the key before it. -/
def flushItems (f : Frame) : (fuel : Nat) → Step (List Nat)
  | 0 => malformed
  | fuel + 1 => do
    if ← f.at? [.item] then
      advance
      let n ← f.nodeUnless [.item, .key, .value, .blockEnd] true false fuel
      return n :: (← f.flushItems fuel)
    else return []

/-- The entries of a mapping in block style, and its end. -/
def blockEntries (f : Frame) : (fuel : Nat) → Step (List (Nat × Nat))
  | 0 => malformed
  | fuel + 1 => do
    if ← f.at? [.key] then
      advance
      let k ← f.nodeUnless [.key, .value, .blockEnd] true true fuel
      let v ← f.valueUnless [.key, .value, .blockEnd] true true fuel
      return (k, v) :: (← f.blockEntries fuel)
    else
      f.expect .blockEnd
      return []

/-- The value behind a key, which may be missing. -/
def valueUnless (f : Frame) (ts : List Token) (block flush : Bool) : (fuel : Nat) → Step Nat
  | 0 => malformed
  | fuel + 1 => do
    if ← f.at? [.value] then
      advance
      f.nodeUnless ts block flush fuel
    else add .absent

/-- The items of a list in brackets, and the closing one. An item with a colon is a mapping of one
entry. -/
def flowItems (f : Frame) (first : Bool) : (fuel : Nat) → Step (List Nat)
  | 0 => malformed
  | fuel + 1 => do
    if ← f.at? [.flowSequenceEnd] then
      advance
      return []
    else
      if !first then f.expect .comma
      if ← f.at? [.key] then
        advance
        let n ← addCollection none .mapping do
          let k ← f.nodeUnless [.value, .comma, .flowSequenceEnd] false false fuel
          let v ← f.valueUnless [.comma, .flowSequenceEnd] false false fuel
          return .mapping [(k, v)]
        return n :: (← f.flowItems false fuel)
      else if ← f.at? [.flowSequenceEnd] then
        advance
        return []
      else
        let n ← f.node false false fuel
        return n :: (← f.flowItems false fuel)

/-- The entries of a mapping in brackets, and the closing one. -/
def flowEntries (f : Frame) (first : Bool) : (fuel : Nat) → Step (List (Nat × Nat))
  | 0 => malformed
  | fuel + 1 => do
    if ← f.at? [.flowMappingEnd] then
      advance
      return []
    else
      if !first then f.expect .comma
      if ← f.at? [.key] then
        advance
        let k ← f.nodeUnless [.value, .comma, .flowMappingEnd] false false fuel
        let v ← f.valueUnless [.comma, .flowMappingEnd] false false fuel
        return (k, v) :: (← f.flowEntries false fuel)
      else if ← f.at? [.flowMappingEnd] then
        advance
        return []
      else
        let n ← f.node false false fuel
        let v ← add .absent
        return (n, v) :: (← f.flowEntries false fuel)

end

end Frame

/-! ## Documents -/

/-- The handles that are always known. -/
def usualHandles : List (List Char × List Char) :=
  [(['!'], ['!']), (['!', '!'], Tag.standardBeginning)]

/-- Takes the directives ahead: one version at most, which must be of the first major number, and
handles with different names. -/
def directives (version : Bool) (handles : List (List Char × List Char)) :
    List Token → Except Fault (List (List Char × List Char) × List Token)
  | .version major _ :: ts =>
    if version || major != 1 then .error .malformed else directives true handles ts
  | .handle name beginning :: ts =>
    if (handles.lookup name).isSome then .error .malformed
    else directives version ((name, beginning) :: handles) ts
  | .remark :: ts => directives version handles ts
  | ts => .ok (handles, ts)

/-- Whether a token stands in front of a document or between two of them. -/
def Token.isOutside : Token → Bool
  | .version .. | .handle .. | .remark | .documentStart | .documentEnd => true
  | _ => false

namespace Graph

/-- A node, or nothing if that is allowed and the document ends here. -/
def contentOf (frame : Frame) (ts : List Token) (mayBeAbsent : Bool) : Step Nat := do
  match ← frame.peek with
  | none => if mayBeAbsent then add .absent else malformed
  | some t =>
    if mayBeAbsent && t.isOutside then add .absent
    else frame.node true false (2 * ts.length + 2)

/-- The graph of a node, behind which the text must end. -/
def ofTokensFrom (frame : Frame) (ts : List Token) (mayBeAbsent : Bool) : Except Fault Graph := do
  let (root, r) ← (contentOf frame ts mayBeAbsent).run { tokens := ts }
  let rest := r.tokens.dropWhile (· == Token.documentEnd)
  let (t, _) ← frame.peek.run { tokens := rest }
  match t with
  | none => return ⟨r.nodes, root⟩
  | some _ => throw Fault.malformed

/-- The graph of a text, if there is anything in the text. -/
def ofTokens? (ts : Tokens) : Except Fault (Option Graph) :=
  match ts.list with
  | [] => match ts.fault with
    | some cause => .error cause
    | none => .ok none
  | t :: rest =>
    if t.isOutside && t != .documentEnd then do
      let (handles, rest) ← directives false [] (t :: rest)
      let frame : Frame := ⟨ts.fault, handles ++ usualHandles⟩
      let ((), r) ← (frame.expect .documentStart).run { tokens := rest }
      let g ← ofTokensFrom frame r.tokens true
      return some g
    else do
      let g ← ofTokensFrom ⟨ts.fault, usualHandles⟩ (t :: rest) false
      return some g

end Graph

end ShapeAlgebra.Yaml
