import ShapeAlgebra.Proofs.Rule.Reach

/-!
# Rules that absorb others

Making fields required after they were made optional comes to making them required at once. In
between, members that differed in nothing but an optional field became the same and were joined, so
that the second rule may work on fewer members than there were; but it would have joined them too.

Where the second rule finds nothing to do in a schema, no members can become the same at all: the
second rule puts every member back, and members that are the same cannot be put back to different
ones. So the schema is restored as it was, with its fields and members in their order.

Results:

* `Rule.transform_transform_eq_self`: a schema in which a rule finds nothing to do is restored by
  it after a rule that it absorbs.
* `Schema.deep_eq_self_iff`: what the fixed points of a rule are.
* `Rule.absorbs_iff`: which rules absorb which.
* `Schema.required_absorbs_partialize`: the required rule absorbs the partial one.
-/

namespace ShapeAlgebra

namespace Schema

theorem unionOf_eq_union {ms : List Schema} (hflat : ∀ m ∈ ms, m.isUnion = false)
    (hunlike : Unlike ms) (hl : ms.length ≠ 1) : unionOf ms = .union ms := by
  obtain ⟨s, hs, -⟩ | ⟨-, hu⟩ := unionOf_of_flat hflat
  · rw [distinct_eq_self hunlike] at hs
    exact absurd (by rw [hs]; rfl) hl
  · rw [hu, distinct_eq_self hunlike]

/-- What can be taken back has not made likes of schemas that were none. -/
theorem unlike_map_of_inverse {f g : Schema → Schema} {ms : List Schema}
    (hg : ∀ m ∈ ms, ∀ n ∈ ms, (f m).same (f n) = true → (g (f m)).same (g (f n)) = true)
    (hgf : ∀ m ∈ ms, g (f m) = m) (h : Unlike ms) : Unlike (ms.map f) := by
  refine List.pairwise_map.2 (h.imp_of_mem fun {m n} hm hn hmn => ?_)
  refine Bool.eq_false_iff.2 fun hf => ?_
  have hsame := hg m hm n hn hf
  rw [hgf m hm, hgf n hn, hmn] at hsame
  cases hsame

end Schema

namespace Rule

/-- Whether a rule undoes whatever another rule does before it: the two are the same, or the first
makes fields optional and the second makes them required. -/
def Absorbs (q p : Rule) : Prop := p = q ∨ p = .partialize ∧ q = .required

variable {p q : Rule}

theorem Absorbs.flags_flags (h : q.Absorbs p) (f : Flags) :
    q.behavior.flags (p.behavior.flags f) = q.behavior.flags f := by
  obtain rfl | ⟨rfl, rfl⟩ := h
  · exact p.behavior.flags_flags f
  · rfl

theorem Absorbs.readonly_getD (h : q.Absorbs p) (isReadonly : Bool) :
    q.behavior.readonly.getD (p.behavior.readonly.getD isReadonly) =
      q.behavior.readonly.getD isReadonly := by
  obtain rfl | ⟨rfl, rfl⟩ := h
  · cases p <;> rfl
  · rfl

/-! ## A rule that finds nothing to do -/

theorem flags_eq_self {r : Rule} {f : Flags} (h : r.Sets f) : r.behavior.flags f = f := by
  obtain ⟨o, n, ro⟩ := f
  cases r <;> simp_all [Sets, behavior, Behavior.flags]

theorem readonly_getD_eq_self {r : Rule} {isReadonly : Bool}
    (h : r = .readonly → isReadonly = true) : r.behavior.readonly.getD isReadonly = isReadonly := by
  cases r <;> simp_all [behavior]

/-- No alternative is taken away from a slot that is clear, and elsewhere none is. -/
theorem keeps_of_clears {r : Rule} {s m : Schema} {inSlot : Bool}
    (h : inSlot = true → r.Clears s) (hm : m ∈ s.members) :
    r.behavior.keeps inSlot m = true := by
  cases inSlot with
  | false => rfl
  | true =>
    cases m with
    | primitive k =>
      have hk : k ∉ r.behavior.stripped := fun hk => h rfl k (r.barred_eq ▸ hk) hm
      simpa [Behavior.keeps, Schema.isKind] using hk
    | _ => simp [Behavior.keeps, Schema.isKind]

theorem Absorbs.keeps (h : q.Absorbs p) {inSlot : Bool} {m : Schema}
    (hk : q.behavior.keeps inSlot m = true) : p.behavior.keeps inSlot m = true := by
  obtain rfl | ⟨rfl, rfl⟩ := h
  · exact hk
  · cases m <;> simp [Behavior.keeps, Schema.isKind, behavior]

theorem transform_primitive_of_keeps {r : Rule} {inSlot : Bool} {k : PrimitiveKind}
    (h : r.behavior.keeps inSlot (.primitive k) = true) :
    r.behavior.transform inSlot (.primitive k) = .primitive k := by
  have hstrip : (inSlot && r.behavior.stripped.contains k) = false := by
    simpa only [Behavior.keeps, Schema.isKind, Bool.not_eq_true'] using h
  rw [Behavior.transform, hstrip]
  rfl

/-- A plain schema in which a rule finds nothing to do is restored by it after a rule that it
absorbs. -/
theorem transform_transform_eq_self (h : q.Absorbs p) {s : Schema} (hs : s.WellFormed)
    (hplain : s.IsPlain) (hdone : s.Everywhere q.NodeDone) (inSlot : Bool)
    (hclear : inSlot = true → q.Clears s) :
    q.behavior.transform inSlot (p.behavior.transform inSlot s) = s := by
  induction s using Schema.induction generalizing inSlot with
  | primitive k =>
    have hk := keeps_of_clears hclear (List.mem_singleton_self _)
    rw [transform_primitive_of_keeps (h.keeps hk), transform_primitive_of_keeps hk]
  | opaqueLeaf k n => rfl
  | sequence e ro ih =>
    obtain ⟨⟨hro, he⟩, hall⟩ := Schema.everywhere_sequence.1 hdone
    rw [Behavior.transform, Behavior.transform, h.readonly_getD, readonly_getD_eq_self hro,
      ih (Schema.wellFormed_sequence.1 hs) (Schema.isPlain_sequence.1 hplain) hall true
        fun _ => he]
  | record fs ih =>
    obtain ⟨hnode, hall⟩ := Schema.everywhere_record.1 hdone
    have hfs := (Schema.wellFormed_record.1 hs).2
    have hplain := Schema.isPlain_record.1 hplain
    rw [Behavior.transform, Behavior.transform, Behavior.transformFields_eq_map,
      Behavior.transformFields_eq_map, List.map_map]
    refine congrArg _ ((List.map_congr_left fun f hf => ?_).trans (List.map_id' fs))
    have hslot := ih f hf (hfs f hf) (hplain f hf) (hall f hf) true fun _ => (hnode f hf).2
    simp only [Function.comp_apply, hslot, h.flags_flags, flags_eq_self (hnode f hf).1]
    cases f
    rfl
  | union ms ih =>
    obtain ⟨⟨hflat, hunlike⟩, hms⟩ := Schema.wellFormed_union.1 hs
    obtain ⟨hl, hplain⟩ := Schema.isPlain_union.1 hplain
    have hall := (Schema.everywhere_union.1 hdone).2
    have hback : ∀ m ∈ ms,
        q.behavior.transform false (p.behavior.transform false m) = m := fun m hm =>
      ih m hm (hms m hm) (hplain m hm) (hall m hm) false fun h => absurd h Bool.false_ne_true
    have hmap : ms.map (q.behavior.transform false ∘ p.behavior.transform false) = ms :=
      (List.map_congr_left hback).trans (List.map_id' ms)
    have hq : ∀ m ∈ ms, q.behavior.keeps inSlot m = true := fun m hm => keeps_of_clears hclear hm
    -- The first rule keeps every member, and no two of them become the same.
    have hfirst : p.behavior.transform inSlot (.union ms) =
        .union (ms.map (p.behavior.transform false)) := by
      have hunlike' := Schema.unlike_map_of_inverse (fun m hm n hn hmn =>
        q.behavior.same_transform (p.behavior.wellFormed_transform (hms m hm) false)
          (p.behavior.wellFormed_transform (hms n hn) false) hmn false) hback hunlike
      rw [Behavior.transform_eq_unionOf, Schema.parts,
        List.filter_eq_self.2 fun m hm => h.keeps (hq m hm),
        Schema.unionOf_eq_union (List.forall_mem_map.2 fun m hm =>
          p.behavior.isUnion_transform (hflat m hm)) hunlike' (by rwa [List.length_map])]
    have hkept : (ms.map (p.behavior.transform false)).filter (q.behavior.keeps inSlot) =
        ms.map (p.behavior.transform false) :=
      List.filter_eq_self.2 (List.forall_mem_map.2 fun m hm => by
        rw [p.behavior.keeps_transform _ (hflat m hm), hq m hm])
    rw [hfirst, Behavior.transform_eq_unionOf, Schema.parts, hkept, List.map_map, hmap,
      Schema.unionOf_eq_union hflat hunlike hl]
  | exclusive a b x y _ _ => exact absurd hplain Schema.not_isPlain_exclusive

end Rule

namespace Schema

/-- A rule leaves a schema as it is exactly when there is nothing left to do in it. -/
theorem deep_eq_self_iff {s : Schema} (h : s.WellFormed) {r : Rule} :
    s.deep r = s ↔ s.IsPlain ∧ s.Everywhere r.NodeDone := by
  constructor
  · intro hself
    rw [← hself]
    exact ⟨s.isPlain_deep r, r.everywhere_transform h false⟩
  · rintro ⟨hplain, hdone⟩
    have htwice : (s.deep r).deep r = s :=
      Rule.transform_transform_eq_self (.inl rfl) h hplain hdone false nofun
    exact (r.behavior.fixes_transform h false).symm.trans htwice

end Schema

/-- A rule absorbs another one exactly when, on every schema, the two come to the same as it does
alone. -/
theorem Rule.absorbs_iff {p q : Rule} : q.Absorbs p ↔
    ∀ s : Schema, s.WellFormed → ((s.deep p).deep q).same (s.deep q) = true := by
  constructor
  · rintro (rfl | ⟨rfl, rfl⟩) s hs
    · rw [Schema.deep, Schema.deep, p.behavior.fixes_transform hs]
      exact Schema.same_refl _
    · exact Behavior.transform_transform Rule.partialize.behavior Rule.required.behavior hs false
  · intro h
    have hloose := h Schema.loose (by decide)
    revert hloose
    cases p <;> cases q <;> unfold Absorbs <;> decide

namespace Schema

/-- The required rule absorbs the partial rule, and restores a schema in which it would find nothing
to do. -/
theorem required_absorbs_partialize {s : Schema} (h : s.WellFormed) :
    ((s.deep .partialize).deep .required).same (s.deep .required) = true ∧
      (s.IsPlain → s.Everywhere (Rule.NodeDone .required) →
        (s.deep .partialize).deep .required = s) := by
  have habsorbs : Rule.required.Absorbs .partialize := .inr ⟨rfl, rfl⟩
  exact ⟨Rule.absorbs_iff.1 habsorbs s h, fun hplain hdone =>
    Rule.transform_transform_eq_self habsorbs h hplain hdone false nofun⟩

/-- A record in which no field is optional and no slot may be undefined, with an alternative of two
records. -/
def strict : Schema := .record [
  ⟨"id", .primitive .number, { readonly := true }⟩,
  ⟨"labels", .sequence (.record [⟨"text", .primitive .string, { nullable := true }⟩]) true, {}⟩,
  ⟨"owner", .union [.primitive .null, .record [⟨"name", .primitive .string, {}⟩],
    .record [⟨"name", .union [.primitive .string, .primitive .null], {}⟩]], {}⟩]

theorem required_absorbs_partialize_strict : strict.WellFormed ∧ strict.IsPlain ∧
    strict.Everywhere (Rule.NodeDone .required) ∧
    (strict.deep .partialize).deep .required = strict := by
  have hwell : strict.WellFormed := by decide
  have hplain : strict.IsPlain := by simp [strict, IsPlain, NodePlain]
  have hdone : strict.Everywhere (Rule.NodeDone .required) := by
    simp [strict, Rule.NodeDone, Rule.Sets, Rule.Clears, Rule.barred, members]
  exact ⟨hwell, hplain, hdone, (required_absorbs_partialize hwell).2 hplain hdone⟩

end Schema

end ShapeAlgebra
