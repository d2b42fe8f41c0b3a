import ShapeAlgebra.Rule
import ShapeAlgebra.Proofs.Schema.WellFormed

/-!
# Deep rules are idempotent

A rule that has been applied at every depth finds nothing to do when it is applied again. The second
pass sees another tree than the first: alternatives were stripped, members that became the same were
joined, and a single one took the place of its union. What carries the proof is that a member is no
union before the rule nor after it, and that a rule never makes a primitive: what is a primitive
after the rule was the same primitive before it, and was not stripped.

Results:

* `Behavior.transform_unionOf`: the union of members that a rule does not change is not changed.
* `Schema.deep_deep`: applying a rule twice is applying it once, on every well-formed schema.
-/

namespace ShapeAlgebra

namespace Behavior

variable (b : Behavior)

/-! ## The rule on lists -/

theorem transformMembers_eq_map (inSlot : Bool) (ms : List Schema) :
    b.transformMembers inSlot ms =
      (ms.filter fun m => !(inSlot && m.isKind b.stripped)).map (b.transform false) := by
  induction ms with
  | nil => rfl
  | cons m ms ih =>
    rw [transformMembers, ih]
    cases h : inSlot && m.isKind b.stripped with
    | true => rw [if_pos rfl, List.filter_cons_of_neg (by rw [h]; decide)]
    | false =>
      rw [if_neg Bool.false_ne_true, List.filter_cons_of_pos (by rw [h]; rfl), List.map_cons]

theorem transformFields_eq_map (fs : List Field) :
    b.transformFields fs = fs.map fun f => ⟨f.name, b.transform true f.shape, b.flags f.flags⟩ := by
  induction fs with
  | nil => rfl
  | cons f fs ih =>
    obtain ⟨n, s, flags⟩ := f
    simp [transformFields, ih]

theorem flags_flags (f : Flags) : b.flags (b.flags f) = b.flags f := by
  obtain ⟨s, o, n, r⟩ := b
  cases o <;> cases n <;> cases r <;> rfl

/-! ## The rule on members -/

theorem isUnion_transform {m : Schema} (h : m.isUnion = false) :
    (b.transform false m).isUnion = false := by
  cases m <;> simp_all [transform, Schema.isUnion]

/-- In a slot a schema that is no union and not stripped fares as it does elsewhere. -/
theorem transform_slot {m : Schema} (h : m.isUnion = false) (hk : m.isKind b.stripped = false) :
    b.transform true m = b.transform false m := by
  cases m <;> simp_all [transform, Schema.isUnion, Schema.isKind]

theorem isKind_transform {m : Schema} (h : m.isUnion = false) (kinds : List PrimitiveKind) :
    (b.transform false m).isKind kinds = m.isKind kinds := by
  cases m <;> simp_all [transform, Schema.isUnion, Schema.isKind]

/-! ## Fixed points -/

/-- Whether the rule leaves a schema as it is, in a slot or elsewhere. -/
def Fixes (inSlot : Bool) (s : Schema) : Prop := b.transform inSlot s = s

/-- The union of alternatives that are fixed, and not stripped if it stands in a slot, is fixed. -/
theorem transform_unionOf {inSlot : Bool} {ss : List Schema}
    (hflat : ∀ s ∈ ss, s.isUnion = false) (hfix : ∀ s ∈ ss, b.Fixes false s)
    (hkind : inSlot = true → ∀ s ∈ ss, s.isKind b.stripped = false) :
    b.Fixes inSlot (.unionOf ss) := by
  rcases Schema.unionOf_of_flat hflat with ⟨s, hs, hu⟩ | ⟨hl, hu⟩
  · -- A single alternative stands for itself, and is treated as such in the second pass.
    have hmem : s ∈ ss := Schema.mem_distinct (by simp [hs])
    rw [hu]
    cases inSlot with
    | false => exact hfix s hmem
    | true =>
      rw [Fixes, b.transform_slot (hflat s hmem) (hkind rfl s hmem)]
      exact hfix s hmem
  · have hkeep : (Schema.distinct ss).filter (fun m => !(inSlot && m.isKind b.stripped)) =
        Schema.distinct ss := by
      refine List.filter_eq_self.2 fun m hm => ?_
      cases inSlot with
      | false => rfl
      | true => simp [hkind rfl m (Schema.mem_distinct hm)]
    have hmap : (Schema.distinct ss).map (b.transform false) = Schema.distinct ss := by
      rw [List.map_congr_left fun m hm => hfix m (Schema.mem_distinct hm), List.map_id']
    have hself : Schema.distinct (Schema.distinct ss) = Schema.distinct ss :=
      Schema.distinct_eq_self (Schema.distinct_pairwise ss)
    have hflat' : ∀ m ∈ Schema.distinct ss, m.isUnion = false :=
      fun m hm => hflat m (Schema.mem_distinct hm)
    rw [hu, Fixes, transform, transformMembers_eq_map, hkeep, hmap]
    rcases Schema.unionOf_of_flat hflat' with ⟨s, hs, _⟩ | ⟨_, hu'⟩
    · rw [hself] at hs
      exact absurd (by rw [hs]; rfl) hl
    · rw [hu', hself]

theorem fixes_record {fs : List Field} (h : ∀ f ∈ fs, b.Fixes true (b.transform true f.shape)) :
    b.Fixes false (b.transform false (.record fs)) := by
  simp only [Fixes, transform, transformFields_eq_map, List.map_map]
  congr 1
  refine List.map_congr_left fun f hf => ?_
  simp only [Function.comp_apply, flags_flags]
  rw [h f hf]

/-- After one pass a second one changes nothing, in a slot and elsewhere. -/
theorem fixes_transform {s : Schema} (h : s.WellFormed) (inSlot : Bool) :
    b.Fixes inSlot (b.transform inSlot s) := by
  induction s using Schema.induction generalizing inSlot with
  | primitive k =>
    rw [transform]
    split
    · rfl
    · next hk => rw [Fixes, transform, if_neg hk]
  | opaqueLeaf k n => rfl
  | sequence e r ih =>
    have he : b.Fixes true (b.transform true e) := ih (Schema.wellFormed_sequence.1 h) true
    rw [transform, Fixes, transform, he]
    cases b.readonly <;> rfl
  | union ms ih =>
    obtain ⟨⟨hflat, _⟩, hms⟩ := Schema.wellFormed_union.1 h
    rw [transform, transformMembers_eq_map]
    refine b.transform_unionOf ?_ ?_ ?_
    · intro s hs
      obtain ⟨m, hm, rfl⟩ := List.mem_map.1 hs
      exact b.isUnion_transform (hflat m (List.mem_filter.1 hm).1)
    · intro s hs
      obtain ⟨m, hm, rfl⟩ := List.mem_map.1 hs
      have hm' := (List.mem_filter.1 hm).1
      exact ih m hm' (hms m hm') false
    · rintro rfl s hs
      obtain ⟨m, hm, rfl⟩ := List.mem_map.1 hs
      obtain ⟨hm', hk⟩ := List.mem_filter.1 hm
      rw [b.isKind_transform (hflat m hm')]
      simpa using hk
  | record fs ih =>
    have hfs := (Schema.wellFormed_record.1 h).2
    -- A record is treated alike in a slot and elsewhere.
    exact b.fixes_record fun f hf => ih f hf (hfs f hf) true
  | exclusive a c x y iha ihc =>
    obtain ⟨ha, hc⟩ := Schema.wellFormed_exclusive.1 h
    rw [transform]
    refine b.transform_unionOf ?_ ?_ ?_
    · intro s hs
      simp only [List.mem_cons, List.not_mem_nil, or_false] at hs
      rcases hs with rfl | rfl <;> rfl
    · intro s hs
      simp only [List.mem_cons, List.not_mem_nil, or_false] at hs
      rcases hs with rfl | rfl
      · exact iha ha false
      · exact ihc hc false
    · intro _ s hs
      simp only [List.mem_cons, List.not_mem_nil, or_false] at hs
      rcases hs with rfl | rfl <;> rfl

end Behavior

/-- Applying a rule a second time changes nothing, not even the order of fields and members. -/
theorem Schema.deep_deep (s : Schema) (r : Rule) (h : s.WellFormed) :
    (s.deep r).deep r = s.deep r :=
  r.behavior.fixes_transform h false

/-- A record whose fields are an alternative of two records that differ in a flag alone, an
exclusive union, and an alternative of nothing but `undefined`. -/
def Schema.loose : Schema := .record [
  ⟨"first", .union [.primitive .undefined, .record [⟨"x", .primitive .string, {}⟩],
    .record [⟨"x", .primitive .string, { optional := true }⟩]], {}⟩,
  ⟨"second", .exclusive [⟨"x", .primitive .null, {}⟩] [⟨"x", .primitive .number, {}⟩] .empty .empty,
    { optional := true }⟩,
  ⟨"third", .union [.primitive .undefined], {}⟩]

theorem Schema.deep_deep_loose : Schema.loose.WellFormed ∧
    (Schema.loose.deep .required).deep .required = Schema.loose.deep .required :=
  ⟨by decide, Schema.deep_deep Schema.loose .required (by decide)⟩

end ShapeAlgebra
