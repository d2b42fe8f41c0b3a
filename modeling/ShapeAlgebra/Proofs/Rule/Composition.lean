import ShapeAlgebra.Proofs.Rule.Preservation
import ShapeAlgebra.Proofs.Schema.Parts

/-!
# Rules one after another

One rule after another comes to a single rule that takes away what either takes away and sets the
flags that either sets, those of the later rule going first. The two passes see other trees than the
single one, as members that the first pass made the same are joined before the second. So the
results are equal only up to order, and it has to be known that a rule does not tell apart schemas
that are the same.

Results:

* `Behavior.same_transform`: a rule makes the same of schemas that are the same.
* `Behavior.transform_transform`: one rule after another is their composition.
* `Schema.deep_comm_iff`: two rules can be exchanged, unless one makes fields optional and the other
  makes them required.
-/

namespace ShapeAlgebra

theorem Schema.isKind_of_same {s t : Schema} (h : s.same t = true) (kinds : List PrimitiveKind) :
    s.isKind kinds = t.isKind kinds := by
  cases s <;> cases t <;> simp_all [Schema.same, Schema.isKind]

theorem Schema.unionOf_singleton {s : Schema} (h : s.isUnion = false) : unionOf [s] = s := by
  cases s <;> first | rfl | cases h

theorem Schema.unionOf_map_same {f g : Schema → Schema} {ss : List Schema}
    (h : ∀ s ∈ ss, (f s).isUnion = false ∧ (g s).isUnion = false ∧ (f s).same (g s) = true) :
    (unionOf (ss.map f)).same (unionOf (ss.map g)) = true :=
  unionOf_same (List.forall_mem_map.2 fun s hs => (h s hs).1)
    (List.forall_mem_map.2 fun s hs => (h s hs).2.1)
    (List.forall_mem_map.2 fun s hs => ⟨g s, List.mem_map_of_mem hs, (h s hs).2.2⟩)
    (List.forall_mem_map.2 fun s hs => ⟨f s, List.mem_map_of_mem hs, (h s hs).2.2⟩)

theorem Schema.isKind_append (s : Schema) (kinds more : List PrimitiveKind) :
    s.isKind (kinds ++ more) = (s.isKind kinds || s.isKind more) := by
  cases s <;> simp [Schema.isKind]

namespace Behavior

variable (b c : Behavior)

/-! ## The rule on unions -/

/-- Whether a member of a union outlives the rule. -/
def keeps (inSlot : Bool) (m : Schema) : Bool := !(inSlot && m.isKind b.stripped)

theorem transform_of_isUnion {s : Schema} (h : s.isUnion = true) (inSlot : Bool) :
    b.transform inSlot s =
      .unionOf ((s.parts.filter (b.keeps inSlot)).map (b.transform false)) := by
  cases s with
  | union ms => rw [transform, transformMembers_eq_map]; rfl
  | exclusive first second x y => cases inSlot <;> rfl
  | _ => cases h

theorem transform_of_not_isUnion {s : Schema} (h : s.isUnion = false) (inSlot : Bool) :
    b.transform inSlot s = .unionOf (([s].filter (b.keeps inSlot)).map (b.transform false)) := by
  cases hk : b.keeps inSlot s with
  | false =>
    -- Only a primitive is ever stripped.
    have hstrip : inSlot = true ∧ s.isKind b.stripped = true := by simpa [keeps] using hk
    cases s <;> simp_all [transform, Schema.isKind]
  | true =>
    have hsame : b.transform inSlot s = b.transform false s := by
      cases inSlot with
      | false => rfl
      | true => exact b.transform_slot h (by simpa [keeps] using hk)
    rw [hsame, List.filter_cons_of_pos hk, List.filter_nil, List.map_singleton,
      Schema.unionOf_singleton (b.isUnion_transform h)]

/-- A rule makes the union of the changed parts that it keeps. -/
theorem transform_eq_unionOf (inSlot : Bool) (s : Schema) :
    b.transform inSlot s =
      .unionOf ((s.parts.filter (b.keeps inSlot)).map (b.transform false)) := by
  cases h : s.isUnion with
  | true => exact b.transform_of_isUnion h inSlot
  | false =>
    rw [Schema.parts_of_isUnion_eq_false h]
    exact b.transform_of_not_isUnion h inSlot

theorem isUnion_of_mem_transformed {inSlot : Bool} {ss : List Schema}
    (h : ∀ s ∈ ss, s.isUnion = false) :
    ∀ t ∈ (ss.filter (b.keeps inSlot)).map (b.transform false), t.isUnion = false :=
  List.forall_mem_map.2 fun s hs => b.isUnion_transform (h s (List.mem_filter.1 hs).1)

/-! ## Schemas that are the same -/

theorem keeps_of_same {s t : Schema} (h : s.same t = true) (inSlot : Bool) :
    b.keeps inSlot s = b.keeps inSlot t := by
  rw [keeps, keeps, Schema.isKind_of_same h]

/-- Lists in which every schema has its like in the other list give the same union. -/
theorem unionOf_same_of_likes {inSlot : Bool} {ss ts : List Schema}
    (hs : ∀ s ∈ ss, s.isUnion = false) (ht : ∀ t ∈ ts, t.isUnion = false)
    (h₁ : ∀ s ∈ ss, ∃ t ∈ ts, s.same t = true ∧
      (b.transform false s).same (b.transform false t) = true)
    (h₂ : ∀ t ∈ ts, ∃ s ∈ ss, s.same t = true ∧
      (b.transform false s).same (b.transform false t) = true) :
    (Schema.unionOf ((ss.filter (b.keeps inSlot)).map (b.transform false))).same
      (.unionOf ((ts.filter (b.keeps inSlot)).map (b.transform false))) = true := by
  refine Schema.unionOf_same (b.isUnion_of_mem_transformed hs) (b.isUnion_of_mem_transformed ht)
    (List.forall_mem_map.2 fun s hs => ?_) (List.forall_mem_map.2 fun t ht => ?_)
  · obtain ⟨hs, hk⟩ := List.mem_filter.1 hs
    obtain ⟨t, ht, hst, hsame⟩ := h₁ s hs
    exact ⟨_, List.mem_map_of_mem (List.mem_filter.2 ⟨ht, b.keeps_of_same hst _ ▸ hk⟩), hsame⟩
  · obtain ⟨ht, hk⟩ := List.mem_filter.1 ht
    obtain ⟨s, hs, hst, hsame⟩ := h₂ t ht
    exact ⟨_, List.mem_map_of_mem (List.mem_filter.2 ⟨hs, (b.keeps_of_same hst _).symm ▸ hk⟩),
      hsame⟩

/-- A rule makes the same of schemas that are the same. -/
theorem same_transform {s t : Schema} (hs : s.WellFormed) (ht : t.WellFormed)
    (h : s.same t = true) (inSlot : Bool) :
    (b.transform inSlot s).same (b.transform inSlot t) = true := by
  induction s using Schema.partsInduction generalizing t inSlot with
  | primitive k => rw [Schema.eq_of_same_primitive h]; exact Schema.same_refl _
  | opaqueLeaf k n => rw [Schema.eq_of_same_opaqueLeaf h]; exact Schema.same_refl _
  | sequence e r ih =>
    obtain ⟨e', rfl, he⟩ := Schema.exists_of_same_sequence h
    have := ih (Schema.wellFormed_sequence.1 hs) (Schema.wellFormed_sequence.1 ht) he true
    simp [transform, Schema.same, this]
  | record fs ih =>
    obtain ⟨gs, rfl, h₁, h₂⟩ := Schema.exists_of_same_record h
    have hfs := (Schema.wellFormed_record.1 hs).2
    have hgs := (Schema.wellFormed_record.1 ht).2
    have step : ∀ f ∈ fs, ∀ g ∈ gs, f.same g = true →
        Field.same ⟨f.name, b.transform true f.shape, b.flags f.flags⟩
          ⟨g.name, b.transform true g.shape, b.flags g.flags⟩ = true := by
      intro f hf g hg hfg
      obtain ⟨hname, hflags, hshape⟩ := Field.same_iff.1 hfg
      exact Field.same_iff.2 ⟨hname, congrArg b.flags hflags,
        ih f hf (hfs f hf) (hgs g hg) hshape true⟩
    rw [transform, transform, transformFields_eq_map, transformFields_eq_map]
    refine Schema.same_record_iff.2 ⟨List.forall_mem_map.2 fun f hf => ?_,
      List.forall_mem_map.2 fun g hg => ?_⟩
    · obtain ⟨g, hg, hfg⟩ := h₁ f hf
      exact ⟨_, List.mem_map_of_mem hg, step f hf g hg hfg⟩
    · obtain ⟨f, hf, hfg⟩ := h₂ g hg
      exact ⟨_, List.mem_map_of_mem hf, step f hf g hg hfg⟩
  | union s hu ih =>
    rw [b.transform_eq_unionOf inSlot s, b.transform_eq_unionOf inSlot t]
    refine b.unionOf_same_of_likes hs.flat_parts ht.flat_parts (fun m hm => ?_) fun n hn => ?_
    · obtain ⟨n, hn, hmn⟩ := Schema.exists_same_part h hm
      exact ⟨n, hn, hmn, ih m hm (hs.of_mem_parts hm).2 (ht.of_mem_parts hn).2 hmn false⟩
    · obtain ⟨m, hm, hnm⟩ := Schema.exists_same_part (Schema.same_symm h) hn
      have hmn := Schema.same_symm hnm
      exact ⟨m, hm, hmn, ih m hm (hs.of_mem_parts hm).2 (ht.of_mem_parts hn).2 hmn false⟩

/-- On the union of several schemas a rule works as it does on the list of them: that likes are
joined before does not matter. -/
theorem transform_unionOf_same {ss : List Schema}
    (h : ∀ s ∈ ss, s.isUnion = false ∧ s.WellFormed) (inSlot : Bool) :
    (b.transform inSlot (.unionOf ss)).same
      (.unionOf ((ss.filter (b.keeps inSlot)).map (b.transform false))) = true := by
  have hflat : ∀ s ∈ ss, s.isUnion = false := fun s hs => (h s hs).1
  have hlike : ∀ s ∈ ss, ∀ t ∈ ss, s.same t = true → s.same t = true ∧
      (b.transform false s).same (b.transform false t) = true :=
    fun s hs t ht hst => ⟨hst, b.same_transform (h s hs).2 (h t ht).2 hst false⟩
  have hsub : ∀ s ∈ Schema.distinct ss, s ∈ ss := fun s hs => Schema.mem_distinct hs
  have hunion : (Schema.unionOf (((Schema.distinct ss).filter (b.keeps inSlot)).map
      (b.transform false))).same
      (.unionOf ((ss.filter (b.keeps inSlot)).map (b.transform false))) = true := by
    refine b.unionOf_same_of_likes (fun s hs => hflat s (hsub s hs)) hflat (fun s hs => ?_)
      fun t ht => ?_
    · exact ⟨s, hsub s hs, hlike s (hsub s hs) s (hsub s hs) (Schema.same_refl s)⟩
    · obtain ⟨s, hs, hts⟩ := Schema.exists_same_mem_distinct ht
      exact ⟨s, hs, hlike s (hsub s hs) t ht (Schema.same_symm hts)⟩
  obtain ⟨s, hs, hu⟩ | ⟨-, hu⟩ := Schema.unionOf_of_flat hflat
  · have hflat' : s.isUnion = false := hflat s (hsub s (by simp [hs]))
    rw [hu, b.transform_eq_unionOf, Schema.parts_of_isUnion_eq_false hflat', ← hs]
    exact hunion
  · rw [hu, b.transform_eq_unionOf]
    exact hunion

/-! ## Composition -/

/-- The behavior that comes to `b` followed by `c`. -/
def andThen : Behavior where
  stripped := b.stripped ++ c.stripped
  optional := c.optional <|> b.optional
  nullable := c.nullable <|> b.nullable
  readonly := c.readonly <|> b.readonly

theorem flags_andThen (f : Flags) : (b.andThen c).flags f = c.flags (b.flags f) := by
  obtain ⟨_, o, n, r⟩ := b
  obtain ⟨_, o', n', r'⟩ := c
  cases o' <;> cases n' <;> cases r' <;> rfl

theorem keeps_andThen (inSlot : Bool) (m : Schema) :
    (b.andThen c).keeps inSlot m = (b.keeps inSlot m && c.keeps inSlot m) := by
  simp only [keeps, andThen, Schema.isKind_append]
  cases inSlot <;> simp

/-- A rule neither makes nor unmakes a primitive, so that the next one keeps what it would have kept
before. -/
theorem keeps_transform {m : Schema} (h : m.isUnion = false) (inSlot : Bool) :
    c.keeps inSlot (b.transform false m) = c.keeps inSlot m := by
  rw [keeps, keeps, b.isKind_transform h]

theorem transform_transform {s : Schema} (h : s.WellFormed) (inSlot : Bool) :
    (c.transform inSlot (b.transform inSlot s)).same ((b.andThen c).transform inSlot s) = true := by
  induction s using Schema.partsInduction generalizing inSlot with
  | primitive k =>
    have hstrip : (b.andThen c).stripped.contains k =
        (b.stripped.contains k || c.stripped.contains k) := by simp [andThen]
    simp only [transform, hstrip]
    cases inSlot <;> cases b.stripped.contains k <;> exact Schema.same_refl _
  | opaqueLeaf k n => exact Schema.same_refl _
  | sequence e r ih =>
    have he := ih (Schema.wellFormed_sequence.1 h) true
    have hr : c.readonly.getD (b.readonly.getD r) = (b.andThen c).readonly.getD r := by
      rw [andThen]
      cases c.readonly <;> rfl
    simp [transform, Schema.same, he, hr]
  | record fs ih =>
    have hfs := (Schema.wellFormed_record.1 h).2
    have hsame : ∀ f ∈ fs, Field.same
        ⟨f.name, c.transform true (b.transform true f.shape), c.flags (b.flags f.flags)⟩
        ⟨f.name, (b.andThen c).transform true f.shape, (b.andThen c).flags f.flags⟩ = true :=
      fun f hf => Field.same_iff.2 ⟨rfl, (b.flags_andThen c f.flags).symm, ih f hf (hfs f hf) true⟩
    simp only [transform, transformFields_eq_map, List.map_map]
    exact Schema.same_record_iff.2
      ⟨List.forall_mem_map.2 fun f hf => ⟨_, List.mem_map_of_mem hf, hsame f hf⟩,
        List.forall_mem_map.2 fun f hf => ⟨_, List.mem_map_of_mem hf, hsame f hf⟩⟩
  | union s hu ih =>
    rw [b.transform_eq_unionOf inSlot s, (b.andThen c).transform_eq_unionOf inSlot s]
    have hmade : ∀ t ∈ (s.parts.filter (b.keeps inSlot)).map (b.transform false),
        t.isUnion = false ∧ t.WellFormed := by
      refine List.forall_mem_map.2 fun m hm => ?_
      have hm := h.of_mem_parts (List.mem_filter.1 hm).1
      exact ⟨b.isUnion_transform hm.1, b.wellFormed_transform hm.2 false⟩
    have hfirst := c.transform_unionOf_same hmade inSlot
    have hkept : ((s.parts.filter (b.keeps inSlot)).map (b.transform false)).filter
        (c.keeps inSlot) =
        (s.parts.filter ((b.andThen c).keeps inSlot)).map (b.transform false) := by
      rw [List.filter_map, List.filter_filter]
      refine congrArg _ (List.filter_congr fun m hm => ?_)
      rw [keeps_andThen, Function.comp_apply, b.keeps_transform c (h.flat_parts m hm),
        Bool.and_comm]
    rw [hkept, List.map_map] at hfirst
    refine Schema.same_trans hfirst (Schema.unionOf_map_same fun m hm => ?_)
    have hm := (List.mem_filter.1 hm).1
    exact ⟨c.isUnion_transform (b.isUnion_transform (h.flat_parts m hm)),
      (b.andThen c).isUnion_transform (h.flat_parts m hm), ih m hm (h.of_mem_parts hm).2 false⟩

/-! ## Exchange -/

/-- Whether no flag is set by both in different ways. -/
def Agrees : Prop :=
  (c.optional <|> b.optional) = (b.optional <|> c.optional) ∧
    (c.nullable <|> b.nullable) = (b.nullable <|> c.nullable) ∧
      (c.readonly <|> b.readonly) = (b.readonly <|> c.readonly)

instance : Decidable (b.Agrees c) :=
  inferInstanceAs (Decidable ((c.optional <|> b.optional) = (b.optional <|> c.optional) ∧
    (c.nullable <|> b.nullable) = (b.nullable <|> c.nullable) ∧
      (c.readonly <|> b.readonly) = (b.readonly <|> c.readonly)))

variable {b c}

theorem transform_andThen_comm (h : b.Agrees c) (s : Schema) (inSlot : Bool) :
    (b.andThen c).transform inSlot s = (c.andThen b).transform inSlot s := by
  obtain ⟨ho, hn, hr⟩ := h
  have hflags : (b.andThen c).flags = (c.andThen b).flags := by
    funext f
    simp only [flags, andThen, ho, hn, hr]
  have hkeeps : ∀ inSlot, (b.andThen c).keeps inSlot = (c.andThen b).keeps inSlot := by
    intro inSlot
    funext m
    rw [keeps_andThen, keeps_andThen, Bool.and_comm]
  induction s using Schema.partsInduction generalizing inSlot with
  | primitive k =>
    have hstrip : (b.andThen c).stripped.contains k = (c.andThen b).stripped.contains k := by
      simp [andThen, Bool.or_comm]
    rw [transform, transform, hstrip]
  | opaqueLeaf k n => rfl
  | sequence e r ih =>
    have hreadonly : (b.andThen c).readonly = (c.andThen b).readonly := hr
    rw [transform, transform, ih, hreadonly]
  | record fs ih =>
    rw [transform, transform, transformFields_eq_map, transformFields_eq_map]
    exact congrArg _ (List.map_congr_left fun f hf => by rw [ih f hf, hflags])
  | union s hu ih =>
    rw [transform_eq_unionOf _ inSlot s, transform_eq_unionOf _ inSlot s, hkeeps]
    exact congrArg _ (List.map_congr_left fun m hm => ih m (List.mem_filter.1 hm).1 false)

/-- Behaviors that set no flag in different ways can be exchanged. -/
theorem transform_comm (h : b.Agrees c) {s : Schema} (hs : s.WellFormed) (inSlot : Bool) :
    (c.transform inSlot (b.transform inSlot s)).same
      (b.transform inSlot (c.transform inSlot s)) = true := by
  have hbc := transform_transform b c hs inSlot
  rw [transform_andThen_comm h] at hbc
  exact Schema.same_trans hbc (Schema.same_symm (transform_transform c b hs inSlot))

end Behavior

/-- Two rules set a flag in different ways only if one makes fields optional and the other makes
them required. -/
theorem Rule.agrees_iff {p q : Rule} : p.behavior.Agrees q.behavior ↔
    ¬ (p = .partialize ∧ q = .required ∨ p = .required ∧ q = .partialize) := by
  cases p <;> cases q <;> decide

namespace Schema

/-- A record of one field. -/
def single : Schema := .record [⟨"x", .primitive .string, {}⟩]

/-- The field is required after one order of the two rules and optional after the other. -/
theorem not_same_deep_single :
    ((single.deep .partialize).deep .required).same
      ((single.deep .required).deep .partialize) = false := by
  decide

/-- Two rules can be applied in either order to every schema, unless one makes fields optional and
the other makes them required. -/
theorem deep_comm_iff {p q : Rule} :
    (∀ s : Schema, s.WellFormed → ((s.deep p).deep q).same ((s.deep q).deep p) = true) ↔
      ¬ (p = .partialize ∧ q = .required ∨ p = .required ∧ q = .partialize) := by
  constructor
  · intro hcomm hpq
    have hsame := hcomm single (by decide)
    have hnot : ((single.deep .partialize).deep .required).same
        ((single.deep .required).deep .partialize) = true := by
      rcases hpq with ⟨rfl, rfl⟩ | ⟨rfl, rfl⟩
      · exact hsame
      · exact same_symm hsame
    rw [not_same_deep_single] at hnot
    cases hnot
  · intro h s hs
    exact Behavior.transform_comm (Rule.agrees_iff.2 h) hs false

theorem deep_comm_iff_loose : loose.WellFormed ∧
    ((loose.deep .required).deep .nonNullable).same
      ((loose.deep .nonNullable).deep .required) = true :=
  ⟨by decide, deep_comm_iff.2 (by decide) loose (by decide)⟩

end Schema

end ShapeAlgebra
