import ShapeAlgebra.Yaml.Node.Merge
import ShapeAlgebra.Yaml.Value

/-!
# Parts of documents

What the nodes of a text stand for, one level at a time: a scalar for its value, and a collection
for the numbers of the nodes in it. Collections are filled in the order in which they were met, so
that of two faults the one nearer to the root counts, and of two equally deep ones the one that is
written first. Only the root and what is in a filled collection is met at all.

Results:

* `Yaml.Filling.meet_of_known`: what a node stands for is found out once.
* `Yaml.Key.same_nan`: what is no number is the same key only where it is the same node.
-/

namespace ShapeAlgebra.Yaml

/-- A key of a mapping, and the node that it is the value of. The word for what is no number has one
value wherever it stands, so that no node is given for it. -/
structure Key where
  value : Data
  node : Option Nat
deriving Repr, Inhabited

namespace Key

/-- Whether two keys are the same: they have the same value or are the value of the same node. What
is no number equals nothing, and is the same only as itself. -/
def same (a b : Key) : Bool :=
  match a.value, b.value with
  | .float .nan, .float .nan => a.node == b.node
  | x, y => x.sameKey y

theorem same_nan (m n : Option Nat) :
    same ⟨.float .nan, m⟩ ⟨.float .nan, n⟩ = (m == n) := rfl

end Key

/-- What a node stands for. -/
inductive Part where
  | value (d : Data)
  | list (items : List Nat)
  | pairs (items : List (Nat × Nat))
  | set (keys : List Key)
  | mapping (entries : List (Key × Nat))
deriving Repr, Inhabited

/-- The empty collection that a node with a tag stands for at first. -/
def Part.empty? : Tag → Option Part
  | .sequence => some (.list [])
  | .orderedPairs | .pairs => some (.pairs [])
  | .set => some (.set [])
  | .mapping => some (.mapping [])
  | _ => none

/-- The text of a node that must be a scalar. A mapping stands for its default value, which may be a
mapping in its turn; of different ones there are no more than nodes. -/
def Nodes.textFrom (ns : Nodes) : (fuel : Nat) → Nat → Except Fault Text
  | 0, _ => .error .endless
  | fuel + 1, n =>
    match ns[n]?.map Node.content with
    | some (.scalar t) => .ok t
    | some (.mapping es) =>
      match es.find? fun e => ns.tag? e.1 == some .defaultValue with
      | some e => textFrom ns fuel e.2
      | none => .error .malformed
    | _ => .error .malformed

/-- The text of a node that must be a scalar. -/
def Nodes.text (ns : Nodes) (n : Nat) : Except Fault Text := ns.textFrom (ns.size + 1) n

/-- Whether a node is the word for what is no number. -/
def Nodes.isNanWord (ns : Nodes) (n : Nat) : Bool :=
  match ns.tag? n, ns.text n with
  | some .decimal, .ok t => Yaml.isNanWord t
  | _, _ => false

/-- What a node without parts stands for. -/
def Nodes.value (ns : Nodes) (n : Nat) : Except Fault Data :=
  match ns[n]? with
  | none => .error .malformed
  | some ⟨tag, content⟩ => do
    if [Tag.merge, .defaultValue, .unknown].contains tag then throw .malformed
    let t ← ns.text n
    match tag, content with
    | .moment, .mapping _ => throw .momentNotScalar
    | tag, _ => scalarValue tag t

/-- The nodes, what those that were met stand for, and the collections that were met and are empty
so far, the latest first. -/
structure Filling where
  nodes : Nodes
  parts : Array (Option Part)
  waiting : List Nat := []
deriving Repr

/-- A step of finding out what nodes stand for. -/
abbrev Fill (α : Type) := StateT Filling (Except Fault) α

namespace Filling

/-- What a node that was met stands for. -/
def part? (f : Filling) (n : Nat) : Option Part := f.parts[n]?.join

/-- Notes what a node stands for. -/
def note (n : Nat) (p : Part) : Fill Unit :=
  modify fun f => { f with parts := f.parts.setIfInBounds n (some p) }

/-- Meets a node for the first time. -/
def meetNew (n : Nat) : Fill Part := do
  let f ← get
  match (f.nodes.tag? n).bind Part.empty? with
  | some p =>
    note n p
    modify fun f => { f with waiting := n :: f.waiting }
    return p
  | none =>
    let p := Part.value (← f.nodes.value n)
    note n p
    return p

/-- Meets a node. -/
def meet (n : Nat) : Fill Part := do
  match (← get).part? n with
  | some p => return p
  | none => meetNew n

theorem run_meet (n : Nat) (f : Filling) : (meet n).run f =
    (match f.part? n with | some p => (pure p : Fill Part) | none => meetNew n).run f := rfl

theorem meet_of_known {f : Filling} {n : Nat} {p : Part} (h : f.part? n = some p) :
    (meet n).run f = .ok (p, f) := by
  rw [run_meet, h]
  rfl

/-- Meets a node as a key, which no collection can be. -/
def meetKey (n : Nat) : Fill Key := do
  match ← meet n with
  | .value d =>
    return ⟨d, if (← get).nodes.isNanWord n then none else some n⟩
  | _ => throw Fault.malformed

/-- Meets the key and the value of an entry. -/
def meetEntry (e : Nat × Nat) : Fill (Key × Nat) := do
  let k ← meetKey e.1
  let _ ← meet e.2
  return (k, e.2)

/-- Merges a mapping with those that it asks for, and meets what is in it. -/
def meetEntries (n : Nat) : Fill (List (Key × Nat)) := do
  let f ← get
  match f.nodes.merged? n with
  | none => throw Fault.malformed
  | some nodes =>
    set { f with nodes := nodes }
    let es ← ((nodes.entries? n).getD []).mapM meetEntry
    return Data.ofPairsBy Key.same es

/-- Meets the key and the value of a pair, which is a mapping of one entry. -/
def meetPair (n : Nat) : Fill (Nat × Nat) := do
  match (← get).nodes.entries? n with
  | some [e] =>
    let _ ← meet e.1
    let _ ← meet e.2
    return e
  | _ => throw Fault.malformed

/-- Fills a collection that was met. -/
def fill (n : Nat) : Fill Unit := do
  match (← get).nodes[n]? with
  | some ⟨.sequence, .sequence items⟩ =>
    let _ ← items.mapM meet
    note n (.list items)
  | some ⟨.orderedPairs, .sequence items⟩ | some ⟨.pairs, .sequence items⟩ =>
    note n (.pairs (← items.mapM meetPair))
  | some ⟨.mapping, .mapping _⟩ => note n (.mapping (← meetEntries n))
  | some ⟨.set, .mapping _⟩ => note n (.set ((← meetEntries n).map Prod.fst))
  | _ => throw Fault.malformed

/-- Fills the collections that wait, and then in further rounds those that were met meanwhile. Each
collection waits once, so that `fuel` need not exceed the number of nodes. -/
def fillAll : (fuel : Nat) → Fill Unit
  | 0 => return ()
  | fuel + 1 => do
    let f ← get
    if f.waiting.isEmpty then return ()
    else
      set { f with waiting := [] }
      f.waiting.reverse.forM fill
      fillAll fuel

end Filling

/-- What the nodes of a text stand for, as far as they are met. -/
def Graph.parts (g : Graph) : Except Fault (Array (Option Part)) := do
  let start : Filling := { nodes := g.nodes, parts := Array.replicate g.nodes.size none }
  let (_, f) ← (Filling.meet g.root *> Filling.fillAll g.nodes.size).run start
  return f.parts

end ShapeAlgebra.Yaml
