import ShapeAlgebra.Schema.Same

/-!
# Alternatives

The members of a union: how members that are unions themselves are taken apart, and how members
that are the same are kept once, the first of them staying.

Results:

* `Schema.mem_distinct`: `distinct` keeps only what is in the list.
* `Schema.distinct_pairwise`: what `distinct` keeps are schemas no two of which are the same.
* `Schema.unionOf_nil`, `Schema.unionOf_cons_never`: no alternative at all is the impossible shape,
  and the impossible shape is no alternative.
-/

namespace ShapeAlgebra.Schema

/-- The list without the schemas that have their like before them. -/
def distinct : List Schema → List Schema
  | [] => []
  | s :: ss => s :: (distinct ss).filter fun t => !s.same t

/-- The alternatives of a schema: the members of a union, and any other schema by itself. -/
def members : Schema → List Schema
  | .union ms => ms
  | .exclusive a b _ _ => distinct [.record a, .record b]
  | s => [s]

/-- Whether the schema is a union of any sort. -/
def isUnion : Schema → Bool
  | .union _ | .exclusive .. => true
  | _ => false

/-- The distinct alternatives of several schemas (`_flatten_members`). -/
def alternatives (ss : List Schema) : List Schema := distinct (ss.flatMap members)

/-- The union with the given members, members that are unions being taken apart (`Union`). -/
def unionWith (ss : List Schema) : Schema := .union (alternatives ss)

/-- The union with the given members, a single alternative standing for itself (`union_of`). -/
def unionOf (ss : List Schema) : Schema :=
  match alternatives ss with
  | [s] => s
  | ms => .union ms

theorem mem_distinct {ss : List Schema} {s : Schema} (h : s ∈ distinct ss) : s ∈ ss := by
  induction ss with
  | nil => simp [distinct] at h
  | cons t ss ih =>
    simp only [distinct, List.mem_cons, List.mem_filter] at h
    rcases h with h | h
    · exact List.mem_cons.2 (.inl h)
    · exact List.mem_cons_of_mem _ (ih h.1)

theorem distinct_pairwise (ss : List Schema) :
    (distinct ss).Pairwise fun s t => s.same t = false := by
  induction ss with
  | nil => exact .nil
  | cons s ss ih =>
    refine List.pairwise_cons.2 ⟨fun t ht => ?_, ih.filter _⟩
    simpa using (List.mem_filter.1 ht).2

@[simp] theorem unionOf_nil : unionOf [] = never := rfl

@[simp] theorem unionOf_cons_never (ss : List Schema) : unionOf (never :: ss) = unionOf ss := rfl

end ShapeAlgebra.Schema
