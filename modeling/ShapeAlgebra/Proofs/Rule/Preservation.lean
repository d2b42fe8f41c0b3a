import ShapeAlgebra.Proofs.Rule.Idempotence

/-!
# What rules and stripping keep

Rules and stripping build every union anew that they change. So they keep what the builders of
schemas promise, and leave no union of a single member behind; a rule moreover leaves no exclusive
union, whatever it was applied to.

Results:

* `Schema.wellFormed_withoutKinds`, `Schema.isPlain_withoutKinds`: what stripping keeps.
* `Schema.wellFormed_deep`: what a rule keeps.
* `Schema.isPlain_deep`: what a rule leaves behind is plain.
-/

namespace ShapeAlgebra

namespace Schema

/-! ## Stripping -/

theorem wellFormed_never : never.WellFormed := by
  rw [never, wellFormed_union]
  simp [Unlike]

theorem isPlain_never : never.IsPlain := by
  rw [never, isPlain_union]
  simp

theorem wellFormed_withoutKinds {s : Schema} (h : s.WellFormed) (kinds : List PrimitiveKind) :
    (s.withoutKinds kinds).WellFormed := by
  rw [withoutKinds]
  split
  · exact h
  · split
    · exact wellFormed_unionOf fun m hm => (h.of_mem_members (List.mem_filter.1 hm).1).2
    · split
      · exact wellFormed_never
      · exact h

theorem IsPlain.of_mem_members {s m : Schema} (h : s.IsPlain) (hm : m ∈ s.members) :
    m.IsPlain := by
  cases s with
  | union ms => exact (isPlain_union.1 h).2 m hm
  | exclusive a b x y => exact absurd h not_isPlain_exclusive
  | _ =>
    obtain rfl := List.mem_singleton.1 hm
    exact h

theorem isPlain_withoutKinds {s : Schema} (h : s.IsPlain) (kinds : List PrimitiveKind) :
    (s.withoutKinds kinds).IsPlain := by
  rw [withoutKinds]
  split
  · exact h
  · split
    · exact isPlain_unionOf fun m hm => h.of_mem_members (List.mem_filter.1 hm).1
    · split
      · exact isPlain_never
      · exact h

end Schema

/-! ## Rules -/

namespace Behavior

variable (b : Behavior)

theorem wellFormed_transform {s : Schema} (h : s.WellFormed) (inSlot : Bool) :
    (b.transform inSlot s).WellFormed := by
  induction s using Schema.induction generalizing inSlot with
  | primitive k =>
    rw [transform]
    split
    · exact Schema.wellFormed_never
    · exact h
  | opaqueLeaf k n => exact h
  | sequence e r ih => exact Schema.wellFormed_sequence.2 (ih (Schema.wellFormed_sequence.1 h) true)
  | union ms ih =>
    have hms := (Schema.wellFormed_union.1 h).2
    rw [transform, transformMembers_eq_map]
    refine Schema.wellFormed_unionOf (List.forall_mem_map.2 fun m hm => ?_)
    have hm := (List.mem_filter.1 hm).1
    exact ih m hm (hms m hm) false
  | record fs ih =>
    obtain ⟨hn, hfs⟩ := Schema.wellFormed_record.1 h
    rw [transform]
    refine Schema.wellFormed_record.2 ⟨(b.names_transformFields fs).symm ▸ hn, ?_⟩
    rw [transformFields_eq_map]
    exact List.forall_mem_map.2 fun f hf => ih f hf (hfs f hf) true
  | exclusive a c x y iha ihc =>
    obtain ⟨ha, hc⟩ := Schema.wellFormed_exclusive.1 h
    rw [transform]
    refine Schema.wellFormed_unionOf fun s hs => ?_
    simp only [List.mem_cons, List.not_mem_nil, or_false] at hs
    rcases hs with rfl | rfl
    · exact iha ha false
    · exact ihc hc false

/-- A rule builds every union anew, so that none of a single member and no exclusive one is left. -/
theorem isPlain_transform (s : Schema) (inSlot : Bool) : (b.transform inSlot s).IsPlain := by
  induction s using Schema.induction generalizing inSlot with
  | primitive k =>
    rw [transform]
    split
    · exact Schema.isPlain_never
    · simp [Schema.IsPlain, Schema.NodePlain]
  | opaqueLeaf k n => simp [transform, Schema.IsPlain, Schema.NodePlain]
  | sequence e r ih => exact Schema.isPlain_sequence.2 (ih true)
  | union ms ih =>
    rw [transform, transformMembers_eq_map]
    refine Schema.isPlain_unionOf (List.forall_mem_map.2 fun m hm => ?_)
    exact ih m (List.mem_filter.1 hm).1 false
  | record fs ih =>
    rw [transform, transformFields_eq_map]
    exact Schema.isPlain_record.2 (List.forall_mem_map.2 fun f hf => ih f hf true)
  | exclusive a c x y iha ihc =>
    rw [transform]
    refine Schema.isPlain_unionOf fun s hs => ?_
    simp only [List.mem_cons, List.not_mem_nil, or_false] at hs
    rcases hs with rfl | rfl
    · exact iha false
    · exact ihc false

end Behavior

namespace Schema

theorem wellFormed_deep {s : Schema} (h : s.WellFormed) (r : Rule) : (s.deep r).WellFormed :=
  r.behavior.wellFormed_transform h false

theorem isPlain_deep (s : Schema) (r : Rule) : (s.deep r).IsPlain :=
  r.behavior.isPlain_transform s false

end Schema

end ShapeAlgebra
