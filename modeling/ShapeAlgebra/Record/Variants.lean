import ShapeAlgebra.Record.Merge

/-!
# Variants of an exclusive union

Which variant of an exclusive union a value with given field names has.

Results:

* `Record.accepts_iff`: a record accepts the names that include all its required fields and go
  beyond none of its possible ones.
* `Variants.select_mem`: the variant that is chosen is one of the two and accepts the names.
-/

namespace ShapeAlgebra

namespace Field

/-- Whether a value can have the field: its shape is not the impossible one (in `_conforms`). -/
def isPossible (f : Field) : Bool := !Classifier.test .never f.shape

/-- Whether a value must have the field (in `_conforms`). -/
def isRequired (f : Field) : Bool := !f.flags.optional && f.isPossible

end Field

namespace Record

/-- Whether a value with exactly the given field names can be of the record (`_conforms`). -/
def accepts (r : Record) (names : KeySet) : Bool :=
  (keys (r.filter Field.isRequired)).isSubset names &&
    names.isSubset (keys (r.filter Field.isPossible))

theorem accepts_iff {r : Record} {names : KeySet} : r.accepts names = true ↔
    (∀ f ∈ r, f.isRequired = true → f.name ∈ names) ∧
      ∀ n ∈ names, ∃ f ∈ r, f.isPossible = true ∧ f.name = n := by
  simp only [accepts, Bool.and_eq_true, KeySet.isSubset_iff, mem_keys, List.mem_filter]
  constructor
  · rintro ⟨h₁, h₂⟩
    refine ⟨fun f hf hr => h₁ _ ⟨f, ⟨hf, hr⟩, rfl⟩, fun n hn => ?_⟩
    obtain ⟨f, ⟨hf, hp⟩, he⟩ := h₂ n hn
    exact ⟨f, hf, hp, he⟩
  · rintro ⟨h₁, h₂⟩
    refine ⟨?_, fun n hn => ?_⟩
    · rintro n ⟨f, ⟨hf, hr⟩, rfl⟩
      exact h₁ f hf hr
    · obtain ⟨f, hf, hp, he⟩ := h₂ n hn
      exact ⟨f, ⟨hf, hp⟩, he⟩

end Record

/-- The parts of an exclusive union (`ExclusiveUnion`). -/
structure Variants where
  first : Record
  second : Record
  firstOnly : KeySet
  secondOnly : KeySet

namespace Variants

/-- The parts of a schema that is an exclusive union. -/
def ofSchema? : Schema → Option Variants
  | .exclusive a b x y => some ⟨a, b, x, y⟩
  | _ => none

/-- Both variants in order (`variants`). -/
def toList (v : Variants) : List Record := [v.first, v.second]

/-- The variants that accept the given names, in order (in `conforming_variants`). -/
def accepting (v : Variants) (names : KeySet) : List Record :=
  v.toList.filter fun r => r.accepts names

/-- The variants to which a value with the given field names conforms (`conforming_variants`). -/
def conforming (v : Variants) (source : KeySource) : Except Failure (List Record) := do
  return v.accepting (← source.keySet)

/-- The variant chosen for the given names: names of both sides are refused, and the first variant
goes before the second (the choice of `select_variant`). -/
def choose (v : Variants) (names : KeySet) : Except Failure Record :=
  let a := names.inter v.firstOnly
  let b := names.inter v.secondOnly
  if !a.isEmpty && !b.isEmpty then .error (.mixedVariants a b)
  else match v.accepting names with
    | r :: _ => .ok r
    | [] => .error (.noVariant names)

/-- The variant of a value with the given field names (`select_variant`). -/
def select (v : Variants) (source : KeySource) : Except Failure Record := do
  v.choose (← source.keySet)

theorem select_mem {v : Variants} {names : KeySet} {r : Record} (h : v.choose names = .ok r) :
    r ∈ v.toList ∧ r.accepts names = true := by
  simp only [choose] at h
  split at h
  · cases h
  · split at h
    · next r' rs hr =>
      cases h
      have : r ∈ v.accepting names := by rw [hr]; exact List.mem_cons_self
      exact List.mem_filter.1 this
    · cases h

end Variants

end ShapeAlgebra
