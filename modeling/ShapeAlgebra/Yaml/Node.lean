import ShapeAlgebra.Text
import ShapeAlgebra.Yaml.Tag

/-!
# Nodes

The scalars, sequences and mappings of a text with their tags. Nodes have numbers, by which
collections refer to their parts. An alias is one more reference to a node that is there already, so
that parts can be shared and a collection can contain itself.

Results:

* `Yaml.Nodes.tag?_retag`: a node has the tag that it was given last.
* `Yaml.Nodes.size_retag`, `Yaml.Nodes.size_setEntries`: no node gets lost when another one changes.
-/

namespace ShapeAlgebra.Yaml

/-- What stands in a node; the parts of a collection are given by their numbers. -/
inductive Content where
  | scalar (t : Text)
  | sequence (items : List Nat)
  | mapping (entries : List (Nat × Nat))
deriving DecidableEq, Repr, Inhabited

/-- A part of a text with its tag. -/
structure Node where
  tag : Tag
  content : Content
deriving DecidableEq, Repr, Inhabited

/-- The entries of a mapping. -/
def Content.entries? : Content → Option (List (Nat × Nat))
  | .mapping es => some es
  | _ => none

/-- Nodes by their numbers. -/
abbrev Nodes := Array Node

/-- The nodes of a text, and which of them is the text as a whole. -/
structure Graph where
  nodes : Nodes
  root : Nat
deriving DecidableEq, Repr

/-- Nothing written where a node may be. -/
def Node.absent : Node := ⟨.null, .scalar []⟩

namespace Nodes

/-- The tag of a node. -/
def tag? (ns : Nodes) (n : Nat) : Option Tag := ns[n]?.map Node.tag

/-- The entries of a node that is a mapping. -/
def entries? (ns : Nodes) (n : Nat) : Option (List (Nat × Nat)) :=
  ns[n]?.bind fun node => node.content.entries?

/-- The nodes with another tag for one of them. -/
def retag (ns : Nodes) (n : Nat) (tag : Tag) : Nodes := ns.modify n fun node => ⟨tag, node.content⟩

/-- The nodes with other entries for one of them. -/
def setEntries (ns : Nodes) (n : Nat) (es : List (Nat × Nat)) : Nodes :=
  ns.modify n fun node => ⟨node.tag, .mapping es⟩

theorem size_retag (ns : Nodes) (n : Nat) (tag : Tag) : (ns.retag n tag).size = ns.size := by
  simp [retag]

theorem size_setEntries (ns : Nodes) (n : Nat) (es : List (Nat × Nat)) :
    (ns.setEntries n es).size = ns.size := by
  simp [setEntries]

theorem tag?_retag {ns : Nodes} {n : Nat} (h : n < ns.size) (tag : Tag) :
    (ns.retag n tag).tag? n = some tag := by
  simp [retag, tag?, h, Array.getElem_modify]

end Nodes

end ShapeAlgebra.Yaml
