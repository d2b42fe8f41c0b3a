import ShapeAlgebra.Proofs.Schema.Equality

/-!
# Well-formed schemas

What the builders of schemas promise of every schema they give: the members of a union are no
unions themselves and no two of them are the same, and the names of a record are distinct, at every
depth. A schema is plain when moreover no union in it has a single member and none is exclusive.

Results:

* `Schema.wellFormed_unionOf`: the union of well-formed schemas is well-formed.
* `Schema.isPlain_unionOf`: the union of plain schemas is plain, a single alternative standing for
  itself.
* `Schema.isPlain_of_same`: a well-formed schema that is the same as a plain one is plain.
-/

namespace ShapeAlgebra.Schema

/-! ## The conditions -/

/-- The condition of well-formedness on a single node. -/
def NodeWellFormed : Schema → Prop
  | .union ms => (∀ m ∈ ms, m.isUnion = false) ∧ Unlike ms
  | .record fs => (Record.names fs).Nodup
  | _ => True

/-- Whether the schema keeps what its builders promise: members of unions are distinct and no
unions themselves, and field names are distinct, at every depth. -/
def WellFormed (s : Schema) : Prop := s.Everywhere NodeWellFormed

instance : DecidablePred NodeWellFormed
  | .union ms => inferInstanceAs (Decidable ((∀ m ∈ ms, m.isUnion = false) ∧
      ms.Pairwise fun s t => s.same t = false))
  | .record fs => inferInstanceAs (Decidable (Record.names fs).Nodup)
  | .primitive _ | .opaqueLeaf .. | .sequence .. | .exclusive .. => .isTrue trivial

instance (s : Schema) : Decidable s.WellFormed :=
  inferInstanceAs (Decidable (s.Everywhere NodeWellFormed))

/-- The condition of plainness on a single node. -/
def NodePlain : Schema → Prop
  | .union ms => ms.length ≠ 1
  | .exclusive .. => False
  | _ => True

/-- Whether the schema has no exclusive union and no union of a single member, at any depth. -/
def IsPlain (s : Schema) : Prop := s.Everywhere NodePlain

theorem wellFormed_sequence {e : Schema} {r : Bool} :
    (Schema.sequence e r).WellFormed ↔ e.WellFormed := by
  simp [WellFormed, NodeWellFormed]

theorem wellFormed_union {ms : List Schema} : (Schema.union ms).WellFormed ↔
    ((∀ m ∈ ms, m.isUnion = false) ∧ Unlike ms) ∧ ∀ m ∈ ms, m.WellFormed := by
  simp [WellFormed, NodeWellFormed]

theorem wellFormed_record {r : Record} : (Schema.record r).WellFormed ↔
    r.names.Nodup ∧ ∀ f ∈ r, f.shape.WellFormed := by
  simp [WellFormed, NodeWellFormed]

theorem wellFormed_exclusive {a b : Record} {x y : KeySet} :
    (Schema.exclusive a b x y).WellFormed ↔
      (Schema.record a).WellFormed ∧ (Schema.record b).WellFormed := by
  simp [WellFormed, NodeWellFormed]

theorem isPlain_sequence {e : Schema} {r : Bool} :
    (Schema.sequence e r).IsPlain ↔ e.IsPlain := by
  simp [IsPlain, NodePlain]

theorem isPlain_union {ms : List Schema} : (Schema.union ms).IsPlain ↔
    ms.length ≠ 1 ∧ ∀ m ∈ ms, m.IsPlain := by
  simp [IsPlain, NodePlain]

theorem isPlain_record {r : Record} :
    (Schema.record r).IsPlain ↔ ∀ f ∈ r, f.shape.IsPlain := by
  simp [IsPlain, NodePlain]

theorem not_isPlain_exclusive {a b : Record} {x y : KeySet} :
    ¬ (Schema.exclusive a b x y).IsPlain := by
  simp [IsPlain, NodePlain]

/-! ## Building unions -/

/-- The alternatives of a well-formed schema are no unions, and well-formed again. -/
theorem WellFormed.of_mem_members {s m : Schema} (h : s.WellFormed) (hm : m ∈ s.members) :
    m.isUnion = false ∧ m.WellFormed := by
  cases s with
  | union ms =>
    obtain ⟨⟨hflat, _⟩, hms⟩ := wellFormed_union.1 h
    exact ⟨hflat m hm, hms m hm⟩
  | exclusive a b x y =>
    obtain ⟨ha, hb⟩ := wellFormed_exclusive.1 h
    have hm' : m ∈ [Schema.record a, .record b] := mem_distinct hm
    simp only [List.mem_cons, List.not_mem_nil, or_false] at hm'
    rcases hm' with rfl | rfl
    · exact ⟨rfl, ha⟩
    · exact ⟨rfl, hb⟩
  | _ =>
    obtain rfl := List.mem_singleton.1 hm
    exact ⟨rfl, h⟩

theorem of_mem_flatMap_members {ss : List Schema} (h : ∀ s ∈ ss, s.WellFormed) {m : Schema}
    (hm : m ∈ ss.flatMap members) : m.isUnion = false ∧ m.WellFormed := by
  obtain ⟨s, hs, hms⟩ := List.mem_flatMap.1 hm
  exact (h s hs).of_mem_members hms

theorem wellFormed_unionWith {ss : List Schema} (h : ∀ s ∈ ss, s.WellFormed) :
    (unionWith ss).WellFormed := by
  have hmem : ∀ m ∈ alternatives ss, m.isUnion = false ∧ m.WellFormed :=
    fun m hm => of_mem_flatMap_members h (mem_distinct hm)
  exact wellFormed_union.2 ⟨⟨fun m hm => (hmem m hm).1, distinct_pairwise _⟩,
    fun m hm => (hmem m hm).2⟩

theorem wellFormed_unionOf {ss : List Schema} (h : ∀ s ∈ ss, s.WellFormed) :
    (unionOf ss).WellFormed := by
  have hwith := wellFormed_unionWith h
  obtain ⟨s, hs, hu⟩ | ⟨-, hu⟩ := unionOf_cases ss <;> rw [hu]
  · exact (wellFormed_union.1 hwith).2 s (by simp [hs])
  · exact hwith

theorem isPlain_unionOf {ss : List Schema} (h : ∀ s ∈ ss, s.IsPlain) : (unionOf ss).IsPlain := by
  have hmem : ∀ m ∈ alternatives ss, m.IsPlain := by
    intro m hm
    obtain ⟨s, hs, hms⟩ := List.mem_flatMap.1 (mem_distinct hm)
    have hp := h s hs
    cases s with
    | union ms => exact (isPlain_union.1 hp).2 m hms
    | exclusive a b x y => exact absurd hp not_isPlain_exclusive
    | _ =>
      obtain rfl := List.mem_singleton.1 hms
      exact hp
  obtain ⟨s, hs, hu⟩ | ⟨hl, hu⟩ := unionOf_cases ss <;> rw [hu]
  · exact hmem s (by simp [hs])
  · exact isPlain_union.2 ⟨hl, hmem⟩

/-! ## Plainness does not depend on order -/

theorem isPlain_of_same {s t : Schema} (h : s.same t = true) (hw : s.WellFormed)
    (hp : s.IsPlain) : t.IsPlain := by
  induction s using Schema.induction generalizing t with
  | primitive k => rw [eq_of_same_primitive h]; exact hp
  | opaqueLeaf k n => rw [eq_of_same_opaqueLeaf h]; exact hp
  | sequence e r ih =>
    obtain ⟨e', rfl, he⟩ := exists_of_same_sequence h
    exact isPlain_sequence.2 (ih he (wellFormed_sequence.1 hw) (isPlain_sequence.1 hp))
  | union ms ih =>
    obtain ⟨⟨_, hu⟩, hms⟩ := wellFormed_union.1 hw
    obtain ⟨hl, hps⟩ := isPlain_union.1 hp
    obtain ⟨ns, rfl, h₁, h₂⟩ := exists_of_same_union h
    refine isPlain_union.2 ⟨fun hns => ?_, fun n hn => ?_⟩
    · -- A single member on the right would be like every member on the left.
      obtain ⟨n, rfl⟩ := List.length_eq_one_iff.1 hns
      have hle := length_le_one_of_same hu fun m hm => by simpa using h₁ m hm
      obtain ⟨m, hm, _⟩ := h₂ n (by simp)
      have := List.length_pos_of_mem hm
      omega
    · obtain ⟨m, hm, hmn⟩ := h₂ n hn
      exact ih m hm hmn (hms m hm) (hps m hm)
  | record fs ih =>
    obtain ⟨gs, rfl, _, h₂⟩ := exists_of_same_record h
    refine isPlain_record.2 fun g hg => ?_
    obtain ⟨f, hf, hfg⟩ := h₂ g hg
    exact ih f hf (Field.same_iff.1 hfg).2.2 ((wellFormed_record.1 hw).2 f hf)
      (isPlain_record.1 hp f hf)
  | exclusive a b x y _ _ => exact absurd hp not_isPlain_exclusive

end ShapeAlgebra.Schema
