import ShapeAlgebra.Yaml.Node

/-!
# Merging mappings

An entry under the mark for merging stands for the entries of other mappings: its value is a
mapping, or a sequence of mappings of which the later ones come first. These entries go in front of
the others. A mapping is changed for good, wherever it is referred to, and what is merged into it is
changed before it; so a mapping that is merged into itself gives what is left of it.

Results:

* `Yaml.Nodes.merged?_of_no_marks`: without marks for merging all entries stay in their places.
* `Yaml.Nodes.merged?_eq_none`: nothing can be merged into what is no mapping.
-/

namespace ShapeAlgebra.Yaml.Nodes

/-- Whether an entry stands for those of other mappings. -/
def isMerging (ns : Nodes) (e : Nat × Nat) : Bool := ns.tag? e.1 == some .merge

/-- How many entries stand for those of other mappings. -/
def mergingCount (ns : Nodes) : Nat :=
  ns.foldl (fun total node => total + (node.content.entries?.getD []).countP ns.isMerging) 0

/-- The nodes with keys that are texts like any other where the mark of a default value was the key
of an entry. -/
def withTextKeys (ns : Nodes) (es : List (Nat × Nat)) : Nodes :=
  es.foldl (fun ns e => if ns.tag? e.1 == some .defaultValue then ns.retag e.1 .text else ns) ns

/-- The nodes when mapping `n`, in front of whose entries the `gathered` ones go, has been merged
with those that it asks for. Each step takes an entry away that stands for others, so that `fuel`
need not exceed their number by more than one. -/
def mergeFrom : (fuel : Nat) → (gathered : List (Nat × Nat)) → (n : Nat) → Nodes → Option Nodes
  | 0, _, _, _ => none
  | fuel + 1, gathered, n, ns => do
    let es ← ns.entries? n
    match es.find? ns.isMerging with
    | none =>
      let es := gathered ++ es
      return (ns.setEntries n es).withTextKeys es
    | some e =>
      let ns := ns.setEntries n (es.erase e)
      match ns[e.2]?.map Node.content with
      | some (.mapping _) =>
        let ns ← mergeFrom fuel [] e.2 ns
        let more ← ns.entries? e.2
        mergeFrom fuel (gathered ++ more) n ns
      | some (.sequence items) =>
        let (ns, more) ← items.foldlM (fun (ns, more) i => do
          let ns ← mergeFrom fuel [] i ns
          let first ← ns.entries? i
          return (ns, first ++ more)) (ns, [])
        mergeFrom fuel (gathered ++ more) n ns
      | _ => none

/-- The nodes when mapping `n` has been merged with those that it asks for; none if it is no mapping
or asks for something that is none. -/
def merged? (ns : Nodes) (n : Nat) : Option Nodes :=
  let steps := if (ns.entries? n).any (·.any ns.isMerging) then ns.mergingCount else 0
  mergeFrom (steps + 1) [] n ns

theorem merged?_of_no_marks {ns : Nodes} {n : Nat} {es : List (Nat × Nat)}
    (h : ns.entries? n = some es) (none : ∀ e ∈ es, ns.isMerging e = false) :
    ns.merged? n = some ((ns.setEntries n es).withTextKeys es) := by
  have none' : es.find? ns.isMerging = .none := by
    rw [List.find?_eq_none]
    intro e he
    simp [none e he]
  simp [merged?, mergeFrom, h, none']

theorem merged?_eq_none {ns : Nodes} {n : Nat} (h : ns.entries? n = none) :
    ns.merged? n = none := by
  simp [merged?, mergeFrom, h]

end ShapeAlgebra.Yaml.Nodes
