import ShapeAlgebra.Proofs.Schema.WellFormed

/-!
# What unions are built from

A union is built from its members, and an exclusive union from the records that are its variants.
Apart from the names that belong to the variants the two are alike, and what is done to a union is
done to its parts. What is no union counts as its only part.

Results:

* `Schema.partsInduction`: what a union inherits from its parts holds of every schema.
* `Schema.exists_same_part`: the parts of unions that are the same have their likes in each other.
* `Schema.exists_same_member_of_mem_parts`: parts are alternatives, up to likes.
-/

namespace ShapeAlgebra.Schema

/-- The schemas from which a union is built; any other schema by itself. -/
def parts : Schema → List Schema
  | .union ms => ms
  | .exclusive a b _ _ => [.record a, .record b]
  | s => [s]

theorem parts_of_isUnion_eq_false {s : Schema} (h : s.isUnion = false) : s.parts = [s] := by
  cases s <;> first | rfl | cases h

theorem mem_parts_exclusive {a b : Record} {x y : KeySet} {m : Schema} :
    m ∈ (Schema.exclusive a b x y).parts ↔ m = .record a ∨ m = .record b := by
  simp [parts]

theorem mem_parts_of_mem_members {s m : Schema} (h : m ∈ s.members) : m ∈ s.parts := by
  cases s with
  | exclusive a b x y => exact mem_distinct h
  | _ => exact h

/-- The parts of a schema are its alternatives, up to likes. -/
theorem exists_same_member_of_mem_parts {s m : Schema} (h : m ∈ s.parts) :
    ∃ n ∈ s.members, m.same n = true := by
  cases s with
  | exclusive a b x y => exact exists_same_mem_distinct h
  | _ => exact ⟨m, h, same_refl m⟩

/-- Induction over schemas in which unions of both sorts are one case. -/
theorem partsInduction {motive : Schema → Prop}
    (primitive : ∀ k, motive (.primitive k))
    (opaqueLeaf : ∀ k n, motive (.opaqueLeaf k n))
    (sequence : ∀ e r, motive e → motive (.sequence e r))
    (record : ∀ fs : List Field, (∀ f ∈ fs, motive f.shape) → motive (.record fs))
    (union : ∀ s : Schema, s.isUnion = true → (∀ m ∈ s.parts, motive m) → motive s)
    (s : Schema) : motive s := by
  induction s using Schema.induction with
  | primitive k => exact primitive k
  | opaqueLeaf k n => exact opaqueLeaf k n
  | sequence e r ih => exact sequence e r ih
  | union ms ih => exact union _ rfl ih
  | record fs ih => exact record fs ih
  | exclusive a b x y iha ihb =>
    refine union _ rfl fun m hm => ?_
    rcases mem_parts_exclusive.1 hm with rfl | rfl
    · exact iha
    · exact ihb

/-- The parts of a well-formed schema are no unions, and well-formed again. -/
theorem WellFormed.of_mem_parts {s m : Schema} (h : s.WellFormed) (hm : m ∈ s.parts) :
    m.isUnion = false ∧ m.WellFormed := by
  cases s with
  | union ms => exact h.of_mem_members hm
  | exclusive a b x y =>
    obtain ⟨ha, hb⟩ := wellFormed_exclusive.1 h
    rcases mem_parts_exclusive.1 hm with rfl | rfl
    · exact ⟨rfl, ha⟩
    · exact ⟨rfl, hb⟩
  | _ =>
    obtain rfl := List.mem_singleton.1 hm
    exact ⟨rfl, h⟩

theorem WellFormed.flat_parts {s : Schema} (h : s.WellFormed) : ∀ m ∈ s.parts, m.isUnion = false :=
  fun _ hm => (h.of_mem_parts hm).1

theorem isUnion_of_same {s t : Schema} (h : s.same t = true) : s.isUnion = t.isUnion := by
  cases s <;> cases t <;> simp_all [same, isUnion]

theorem exists_same_part {s t m : Schema} (h : s.same t = true) (hm : m ∈ s.parts) :
    ∃ n ∈ t.parts, m.same n = true := by
  cases hu : s.isUnion with
  | false =>
    rw [parts_of_isUnion_eq_false hu] at hm
    obtain rfl := List.mem_singleton.1 hm
    rw [parts_of_isUnion_eq_false (isUnion_of_same h ▸ hu)]
    exact ⟨t, List.mem_singleton_self t, h⟩
  | true =>
    cases s with
    | union ms =>
      obtain ⟨ns, rfl, h₁, _⟩ := exists_of_same_union h
      exact h₁ m hm
    | exclusive a b x y =>
      obtain ⟨c, d, rfl, ha, hb⟩ := exists_of_same_exclusive h
      rcases mem_parts_exclusive.1 hm with rfl | rfl
      · exact ⟨_, mem_parts_exclusive.2 (.inl rfl), ha⟩
      · exact ⟨_, mem_parts_exclusive.2 (.inr rfl), hb⟩
    | _ => cases hu

end ShapeAlgebra.Schema
