import ShapeAlgebra.Yaml.Node.Part

/-!
# The data of a graph

The plain data that the nodes of a text stand for. Nodes that lead to no collection that contains
itself have their data at once. The others are unfolded, to a depth that no reader reaches who stops
where he has been before.

Results:

* `Yaml.Part.data?_value`: a scalar has its data whatever is known of other nodes.
* `Yaml.size_settleOnce`: there is data for no more nodes than there are.
-/

namespace ShapeAlgebra.Yaml

/-- The data of nodes by their numbers, as far as it is known. -/
abbrev Known := Array (Option Data)

namespace Part

/-- The data of a part when the data of what is in it is known. -/
def data? (known : Known) : Part → Option Data
  | .value d => some d
  | .list items => Data.list <$> items.mapM fun n => known[n]?.join
  | .pairs items => Data.list <$> items.mapM fun e => do
    return .pair (← known[e.1]?.join) (← known[e.2]?.join)
  | .set keys => some (.set (keys.map Key.value))
  | .mapping entries => Data.mapping <$> entries.mapM fun e => do
    return (e.1.value, ← known[e.2]?.join)

/-- The collection of the same kind with nothing in it. -/
def emptied : Part → Data
  | .mapping _ => .mapping []
  | _ => .list []

theorem data?_value (known : Known) (d : Data) : data? known (.value d) = some d := rfl

end Part

/-- The data that is known when every node has been looked at once more. What is in a node mostly
has higher numbers, so that the nodes are taken from the last to the first. -/
def settleOnce (parts : Array (Option Part)) (known : Known) : Known :=
  (List.range parts.size).foldr (fun n known =>
    if known[n]?.join.isSome then known
    else known.setIfInBounds n (parts[n]?.join.bind (Part.data? known))) known

theorem size_settleOnce (parts : Array (Option Part)) (known : Known) :
    (settleOnce parts known).size = known.size := by
  simp only [settleOnce]
  induction List.range parts.size with
  | nil => rfl
  | cons n ns ih =>
    rw [List.foldr_cons]
    split <;> simp [ih]

/-- How many of the nodes that stand for anything have no data yet. -/
def openCount (parts : Array (Option Part)) (known : Known) : Nat :=
  (List.range parts.size).countP fun n => parts[n]?.join.isSome && known[n]?.join.isNone

/-- The data of all nodes that lead to no collection that contains itself. Each step finds the data
of a node, so that `fuel` need not exceed their number. -/
def settle (parts : Array (Option Part)) : (fuel : Nat) → Known → Known
  | 0, known => known
  | fuel + 1, known =>
    let more := settleOnce parts known
    if openCount parts more = openCount parts known then known else settle parts fuel more

/-- The data of all nodes, those that are not settled being unfolded to a depth. -/
def unfold (parts : Array (Option Part)) (settled : Known) : (depth : Nat) → Known
  | 0 => parts.mapIdx fun n p =>
    match settled[n]?.join with
    | some d => some d
    | none => p.map fun p => .recurring n p.emptied
  | depth + 1 =>
    let inner := unfold parts settled depth
    parts.mapIdx fun n p =>
      match settled[n]?.join with
      | some d => some d
      | none => (p.bind (Part.data? inner)).map (.recurring n)

/-- The depth to which a number of collections are unfolded. Who reads declarations comes to each of
them at most twice, as a shape and as a field, with one other on the way; who shows a value comes to
each of them once more. -/
def unfoldingDepth (count : Nat) : Nat := 6 * count + 8

/-- The plain data of a text. -/
def Graph.toData (g : Graph) : Except Fault Data := do
  let parts ← g.parts
  let settled := settle parts parts.size (Array.replicate parts.size none)
  match settled[g.root]?.join with
  | some d => return d
  | none =>
    match (unfold parts settled (unfoldingDepth (openCount parts settled)))[g.root]?.join with
    | some d => return d
    | none => throw Fault.malformed

end ShapeAlgebra.Yaml
