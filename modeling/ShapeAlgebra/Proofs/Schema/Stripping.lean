import ShapeAlgebra.Proofs.Record.Congruence
import ShapeAlgebra.Proofs.Rule.Acceptance

/-!
# Stripping and assignability

To take kinds away from a schema is to filter its alternatives, whatever sort of schema it is: the
alternatives of what is left are those that were no primitives of these kinds, in their order. So a
schema can be assigned to kinds exactly when nothing of it is left without them, and to take kinds
away in two steps is to take them away at once.

What carries the proofs is that the alternatives of a well-formed schema are no unions and have no
likes among each other, so that no union that is built anew of some of them joins or opens any.

Results:

* `Schema.members_unionOf`: the alternatives of a union that is built.
* `Schema.members_withoutKinds`: the alternatives that stripping leaves.
* `Schema.assignable_eq_isNever`, `Schema.withoutKinds_withoutKinds`: what stripping has to do with
  assignability, and stripping twice.
* `Schema.stripping_dual`: all of it together.
-/

namespace ShapeAlgebra.Schema

/-! ## Alternatives -/

theorem members_eq_nil_iff {s : Schema} : s.members = [] ↔ s = .never := by
  cases s <;> simp [members, distinct, never]

theorem unlike_members {s : Schema} (h : s.WellFormed) : Unlike s.members := by
  cases s with
  | union ms => exact (wellFormed_union.1 h).1.2
  | exclusive a b x y => exact distinct_pairwise _
  | _ => exact List.pairwise_singleton ..

/-- The alternatives of a union that is built are those of the schemas that it is built of. -/
theorem members_unionOf {ss : List Schema} (h : ∀ s ∈ ss, s.WellFormed) :
    (unionOf ss).members = alternatives ss := by
  have hflat : ∀ m ∈ alternatives ss, m.isUnion = false :=
    fun m hm => (of_mem_flatMap_members h (mem_distinct hm)).1
  obtain ⟨s, hs, hu⟩ | ⟨-, hu⟩ := unionOf_cases ss <;> rw [hu]
  · rw [hs, members_of_isUnion_eq_false (hflat s (by simp [hs]))]
  · rfl

/-! ## What is left -/

theorem isKind_iff {s : Schema} {K : List PrimitiveKind} :
    s.isKind K = true ↔ ∃ k ∈ K, s = .primitive k := by
  cases s <;> simp [isKind]

/-- Stripping filters the alternatives, and changes nothing about those that stay. -/
theorem members_withoutKinds {s : Schema} (h : s.WellFormed) (K : List PrimitiveKind) :
    (s.withoutKinds K).members = s.members.filter fun m => !m.isKind K := by
  cases hK : K.isEmpty with
  | true =>
    rw [List.isEmpty_iff.1 hK, withoutKinds_nil, List.filter_eq_self.2]
    intro m _
    cases m <;> rfl
  | false =>
    have hms : ∀ m ∈ s.members.filter (fun m => !m.isKind K),
        m.isUnion = false ∧ m.WellFormed := fun m hm => h.of_mem_members (List.mem_filter.1 hm).1
    rw [s.withoutKinds_eq_unionOf hK, members_unionOf fun m hm => (hms m hm).2,
      alternatives_of_flat fun m hm => (hms m hm).1,
      distinct_eq_self ((unlike_members h).filter _)]

/-- To take kinds away in two steps is to take them away at once. -/
theorem withoutKinds_withoutKinds {s : Schema} (h : s.WellFormed) (K L : List PrimitiveKind) :
    (s.withoutKinds K).withoutKinds L = s.withoutKinds (K ++ L) := by
  cases hK : K.isEmpty with
  | true => rw [List.isEmpty_iff.1 hK, withoutKinds_nil, List.nil_append]
  | false =>
    cases hL : L.isEmpty with
    | true => rw [List.isEmpty_iff.1 hL, withoutKinds_nil, List.append_nil]
    | false =>
      have hKL : (K ++ L).isEmpty = false := by cases K <;> simp_all
      rw [withoutKinds_eq_unionOf _ hL, members_withoutKinds h, List.filter_filter,
        withoutKinds_eq_unionOf s hKL]
      refine congrArg unionOf (List.filter_congr fun m _ => ?_)
      rw [isKind_append, Bool.not_or, Bool.and_comm]

/-! ## Assignability -/

theorem isNever_iff {s : Schema} : Classifier.never.test s = true ↔ s = .never := by
  cases s with
  | union ms => cases ms <;> simp [Classifier.test, never]
  | _ => simp [Classifier.test, never]

theorem assignable_iff_members {s : Schema} (h : s.WellFormed) {K : List PrimitiveKind} :
    s.assignable K = true ↔ ∀ m ∈ s.members, m.isKind K = true := by
  rw [assignable_iff_parts h]
  constructor
  · intro hall m hm
    exact hall m (mem_parts_of_mem_members hm)
  · intro hall m hm
    obtain ⟨n, hn, hmn⟩ := exists_same_member_of_mem_parts hm
    rw [isKind_of_same hmn]
    exact hall n hn

/-- A schema is assignable to kinds exactly when nothing of it is left without them. -/
theorem assignable_eq_isNever {s : Schema} (h : s.WellFormed) (K : List PrimitiveKind) :
    s.assignable K = Classifier.never.test (s.withoutKinds K) := by
  rw [Bool.eq_iff_iff, isNever_iff, ← members_eq_nil_iff, members_withoutKinds h,
    assignable_iff_members h, List.filter_eq_nil_iff]
  simp

/-! ## The duality -/

/-- How stripping and assignability go together, for two sets of kinds. -/
structure StrippingDual (s : Schema) (K L : List PrimitiveKind) : Prop where
  /-- What can be assigned to kinds is what is impossible without them. -/
  assignable : s.assignable K = Classifier.never.test (s.withoutKinds K)
  twice : (s.withoutKinds K).withoutKinds L = s.withoutKinds (K ++ L)
  assignableRest : (s.withoutKinds K).assignable L = s.assignable (K ++ L)
  /-- No primitive of the kinds is left, neither by itself nor as a member. -/
  stripped : ∀ k ∈ K,
    s.withoutKinds K ≠ .primitive k ∧ .primitive k ∉ (s.withoutKinds K).members
  /-- Every other alternative is left. -/
  kept : ∀ m ∈ s.members, (∀ k ∈ K, m ≠ .primitive k) → m ∈ (s.withoutKinds K).members
  /-- No alternative is new or in another place. -/
  inOrder : (s.withoutKinds K).members.Sublist s.members

/-- Stripping and assignability are dual, on every well-formed schema. -/
theorem stripping_dual {s : Schema} (h : s.WellFormed) (K L : List PrimitiveKind) :
    StrippingDual s K L where
  assignable := assignable_eq_isNever h K
  twice := withoutKinds_withoutKinds h K L
  assignableRest := by
    rw [assignable_eq_isNever (wellFormed_withoutKinds h K), withoutKinds_withoutKinds h,
      ← assignable_eq_isNever h]
  stripped k hk := by
    have hgone : .primitive k ∉ (s.withoutKinds K).members := by
      rw [members_withoutKinds h]
      intro hm
      have hkind : (Schema.primitive k).isKind K = true := isKind_iff.2 ⟨k, hk, rfl⟩
      simpa [hkind] using (List.mem_filter.1 hm).2
    refine ⟨fun heq => hgone ?_, hgone⟩
    rw [heq]
    exact List.mem_singleton_self _
  kept m hm hother := by
    rw [members_withoutKinds h, List.mem_filter, and_iff_right hm, Bool.not_eq_true',
      Bool.eq_false_iff]
    intro hkind
    obtain ⟨k, hk, rfl⟩ := isKind_iff.1 hkind
    exact hother k hk rfl
  inOrder := by
    rw [members_withoutKinds h]
    exact List.filter_sublist

/-- An alternative of three primitives and a record. -/
def remark : Schema := .union [.primitive .undefined, .primitive .string, .primitive .null,
  .record [⟨"by", .primitive .string, { optional := true }⟩]]

theorem stripping_dual_remark : remark.WellFormed ∧
    StrippingDual remark [.null, .undefined] [.string, .null] :=
  ⟨by decide, stripping_dual (by decide) _ _⟩

end ShapeAlgebra.Schema
