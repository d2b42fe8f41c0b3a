import ShapeAlgebra.Document

/-!
# Documents

Documents nest documents in the items of lists and in the values of mappings.

Results:

* `Document.induction`: induction over documents.
-/

namespace ShapeAlgebra.Document

/-- Induction over documents: lists may use the claim for each item, mappings for each value. -/
theorem induction {motive : Document → Prop} (text : ∀ t, motive (.text t))
    (bool : ∀ b, motive (.bool b))
    (list : ∀ items : List Document, (∀ d ∈ items, motive d) → motive (.list items))
    (mapping : ∀ entries : List (Text × Document), (∀ e ∈ entries, motive e.2) →
      motive (.mapping entries)) (d : Document) : motive d := by
  refine @Document.rec motive (fun items => ∀ d ∈ items, motive d)
    (fun entries => ∀ e ∈ entries, motive e.2) (fun e => motive e.2) text bool list mapping
    ?_ ?_ ?_ ?_ ?_ d
  · intro d hd; cases hd
  · intro d ds hd hds; exact List.forall_mem_cons.2 ⟨hd, hds⟩
  · intro e he; cases he
  · intro e es he hes; exact List.forall_mem_cons.2 ⟨he, hes⟩
  · intro k d hd; exact hd

mutual

/-- How many collections are inside one another. -/
def height : Document → Nat
  | .text _ => 0
  | .bool _ => 0
  | .list items => heightOfItems items + 1
  | .mapping entries => heightOfEntries entries + 1

/-- The greatest height of several documents. -/
def heightOfItems : List Document → Nat
  | [] => 0
  | d :: ds => max (height d) (heightOfItems ds)

/-- The greatest height of the values of entries. -/
def heightOfEntries : List (Text × Document) → Nat
  | [] => 0
  | (_, d) :: rest => max (height d) (heightOfEntries rest)

end

/-- Whether the mappings in a document have each of their keys once. -/
inductive HasDistinctKeys : Document → Prop
  | text (t : Text) : HasDistinctKeys (.text t)
  | bool (b : Bool) : HasDistinctKeys (.bool b)
  | list {items : List Document} (h : ∀ d ∈ items, HasDistinctKeys d) :
      HasDistinctKeys (.list items)
  | mapping {entries : List (Text × Document)} (hkeys : (entries.map Prod.fst).Nodup)
      (h : ∀ e ∈ entries, HasDistinctKeys e.2) : HasDistinctKeys (.mapping entries)

end ShapeAlgebra.Document
