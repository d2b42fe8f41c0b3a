import ShapeAlgebra.Proofs.Rule.Absorption
import ShapeAlgebra.Proofs.Schema.Stripping

/-!
# The laws of uniting

What a union is built from counts only by the alternatives that it brings: how they are grouped into
arguments, in which order they come and how often does not matter. So to take kinds away from the
arguments, or to apply a rule to them, comes to doing it to the union.

The steps on the way give results of different shapes, a union, a single alternative by itself or
the impossible shape, and rules make alternatives disappear or coincide. All laws are therefore
proved of the lists that unions are built from: one list lies within another when each of its
alternatives has a like in the other, and lists that lie within each other give the same union.

Results:

* `Schema.unionOf_same_of_within`: lists that lie within each other give the same union.
* `Schema.withoutKinds_unionOf`, `Schema.deep_unionOf`: stripping and deep rules on unions.
* `Schema.unionOf_singleton_same_iff`: which schemas a union of one argument gives back.
* `Schema.union_laws`: all laws together.
-/

namespace ShapeAlgebra.Schema

/-! ## Lists of alternatives -/

/-- Whether each alternative of the schemas `ss` has its like among the alternatives of `ts`. -/
def Within (ss ts : List Schema) : Prop :=
  ∀ m ∈ ss.flatMap members, ∃ n ∈ ts.flatMap members, m.same n = true

section

variable {ss ts us ss' ts' : List Schema}

/-- A union can as well be built from the alternatives of its arguments. -/
theorem unionOf_flatMap_members (h : ∀ s ∈ ss, s.WellFormed) :
    unionOf (ss.flatMap members) = unionOf ss := by
  rw [unionOf, alternatives_of_flat fun m hm => (of_mem_flatMap_members h hm).1]
  rfl

/-- Lists that lie within each other give the same union. -/
theorem unionOf_same_of_within (hs : ∀ s ∈ ss, s.WellFormed) (ht : ∀ t ∈ ts, t.WellFormed)
    (h₁ : Within ss ts) (h₂ : Within ts ss) : (unionOf ss).same (unionOf ts) = true := by
  rw [← unionOf_flatMap_members hs, ← unionOf_flatMap_members ht]
  refine unionOf_same (fun m hm => (of_mem_flatMap_members hs hm).1)
    (fun n hn => (of_mem_flatMap_members ht hn).1) h₁ fun n hn => ?_
  obtain ⟨m, hm, hnm⟩ := h₂ n hn
  exact ⟨m, hm, same_symm hnm⟩

theorem Within.refl (ss : List Schema) : Within ss ss := fun m hm => ⟨m, hm, same_refl m⟩

theorem Within.append (h : Within ss ts) (h' : Within ss' ts') :
    Within (ss ++ ss') (ts ++ ts') := by
  intro m hm
  rw [List.flatMap_append] at hm ⊢
  rcases List.mem_append.1 hm with hm | hm
  · obtain ⟨n, hn, hmn⟩ := h m hm
    exact ⟨n, List.mem_append_left _ hn, hmn⟩
  · obtain ⟨n, hn, hmn⟩ := h' m hm
    exact ⟨n, List.mem_append_right _ hn, hmn⟩

/-- Arguments that have their likes among others lie within them, the impossible shape anyhow. -/
theorem within_of_likes (h : ∀ s ∈ ss, s ≠ .never → ∃ t ∈ ts, s.same t = true) :
    Within ss ts := by
  intro m hm
  obtain ⟨s, hs, hms⟩ := List.mem_flatMap.1 hm
  have hne : s ≠ .never := by
    rintro rfl
    cases hms
  obtain ⟨t, ht, hst⟩ := h s hs hne
  obtain ⟨n, hn, hmn⟩ := exists_same_member hst hms
  exact ⟨n, List.mem_flatMap.2 ⟨t, ht, hn⟩, hmn⟩

/-- A union and its arguments lie within each other. -/
theorem unionOf_within (h : ∀ s ∈ ss, s.WellFormed) :
    Within [unionOf ss] ss ∧ Within ss [unionOf ss] := by
  rw [Within, Within, List.flatMap_singleton, members_unionOf h]
  exact ⟨fun m hm => ⟨m, mem_distinct hm, same_refl m⟩, fun _ hm => exists_same_mem_distinct hm⟩

theorem unionOf_append_same (hs : ∀ s ∈ ss, s.WellFormed) (ht : ∀ t ∈ ts, t.WellFormed)
    (hu : ∀ u ∈ us, u.WellFormed) :
    (unionOf (ss ++ [unionOf ts] ++ us)).same (unionOf (ss ++ ts ++ us)) = true := by
  obtain ⟨h₁, h₂⟩ := unionOf_within ht
  refine unionOf_same_of_within ?_ ?_ (((Within.refl ss).append h₁).append (.refl us))
    (((Within.refl ss).append h₂).append (.refl us))
  · have hunion : ∀ u ∈ [unionOf ts], u.WellFormed :=
      List.forall_mem_singleton.2 (wellFormed_unionOf ht)
    exact List.forall_mem_append.2 ⟨List.forall_mem_append.2 ⟨hs, hunion⟩, hu⟩
  · exact List.forall_mem_append.2 ⟨List.forall_mem_append.2 ⟨hs, ht⟩, hu⟩

theorem map_unionOf_within {α : Type} {xs : List α} {f : α → List Schema}
    (h : ∀ x ∈ xs, ∀ s ∈ f x, s.WellFormed) :
    Within (xs.map fun x => unionOf (f x)) (xs.flatMap f) ∧
      Within (xs.flatMap f) (xs.map fun x => unionOf (f x)) := by
  induction xs with
  | nil => exact ⟨.refl [], .refl []⟩
  | cons x xs ih =>
    obtain ⟨hx, hxs⟩ := List.forall_mem_cons.1 h
    obtain ⟨h₁, h₂⟩ := unionOf_within hx
    rw [List.flatMap_cons]
    exact ⟨h₁.append (ih hxs).1, h₂.append (ih hxs).2⟩

/-- All arguments can be united in groups first. -/
theorem unionOf_map_unionOf_same {α : Type} {xs : List α} {f : α → List Schema}
    (h : ∀ x ∈ xs, ∀ s ∈ f x, s.WellFormed) :
    (unionOf (xs.map fun x => unionOf (f x))).same (unionOf (xs.flatMap f)) = true := by
  refine unionOf_same_of_within ?_ ?_ (map_unionOf_within h).1 (map_unionOf_within h).2
  · exact List.forall_mem_map.2 fun x hx => wellFormed_unionOf (h x hx)
  · intro s hs
    obtain ⟨x, hx, hs⟩ := List.mem_flatMap.1 hs
    exact h x hx s hs

/-! ## Stripping -/

/-- To take kinds away from a union is to take them away from its arguments. -/
theorem withoutKinds_unionOf (h : ∀ s ∈ ss, s.WellFormed) (K : List PrimitiveKind) :
    ((unionOf ss).withoutKinds K).same (unionOf (ss.map fun s => s.withoutKinds K)) = true := by
  cases hK : K.isEmpty with
  | true =>
    rw [List.isEmpty_iff.1 hK]
    simp only [withoutKinds_nil, List.map_id']
    exact same_refl _
  | false =>
    -- Both are unions of the alternatives that are kept, on the left without their likes.
    have hkept : (ss.map fun s => s.withoutKinds K).flatMap members =
        (ss.flatMap members).filter fun m => !m.isKind K := by
      rw [List.flatMap_map, List.filter_flatMap]
      exact List.flatMap_congr fun s hs => members_withoutKinds (h s hs) K
    have hflat : ∀ m ∈ (ss.flatMap members).filter (fun m => !m.isKind K), m.isUnion = false :=
      fun m hm => (of_mem_flatMap_members h (List.mem_filter.1 hm).1).1
    rw [withoutKinds_eq_unionOf _ hK, members_unionOf h, ← unionOf_flatMap_members
      (List.forall_mem_map.2 fun s hs => wellFormed_withoutKinds (h s hs) K), hkept]
    refine unionOf_same (fun m hm => ?_) hflat (fun m hm => ?_) fun m hm => ?_
    · obtain ⟨hm, hk⟩ := List.mem_filter.1 hm
      exact hflat m (List.mem_filter.2 ⟨mem_distinct hm, hk⟩)
    · obtain ⟨hm, hk⟩ := List.mem_filter.1 hm
      exact ⟨m, List.mem_filter.2 ⟨mem_distinct hm, hk⟩, same_refl m⟩
    · obtain ⟨hm, hk⟩ := List.mem_filter.1 hm
      obtain ⟨n, hn, hmn⟩ := exists_same_mem_distinct hm
      exact ⟨n, List.mem_filter.2 ⟨hn, by rwa [← isKind_of_same hmn]⟩, same_symm hmn⟩

/-! ## Deep rules -/

/-- Outside of slots a rule takes no part of a schema away. -/
theorem deep_eq_unionOf (s : Schema) (T : Rule) :
    s.deep T = unionOf (s.parts.map fun m => m.deep T) := by
  have hkept : s.parts.filter (T.behavior.keeps false) = s.parts :=
    List.filter_eq_self.2 fun _ _ => rfl
  rw [deep, T.behavior.transform_eq_unionOf, hkept]
  rfl

/-- A rule makes the same of the alternatives of schemas and of their parts. -/
theorem unionOf_deep_members_same (h : ∀ s ∈ ss, s.WellFormed) (T : Rule) :
    (unionOf ((ss.flatMap members).map fun m => m.deep T)).same
      (unionOf ((ss.flatMap parts).map fun m => m.deep T)) = true := by
  have hmembers := fun m => of_mem_flatMap_members h (m := m)
  have hparts : ∀ m ∈ ss.flatMap parts, m.isUnion = false ∧ m.WellFormed := by
    intro m hm
    obtain ⟨s, hs, hm⟩ := List.mem_flatMap.1 hm
    exact (h s hs).of_mem_parts hm
  refine unionOf_same (List.forall_mem_map.2 fun m hm => ?_) (List.forall_mem_map.2 fun m hm => ?_)
    (List.forall_mem_map.2 fun m hm => ?_) (List.forall_mem_map.2 fun m hm => ?_)
  · exact T.behavior.isUnion_transform (hmembers m hm).1
  · exact T.behavior.isUnion_transform (hparts m hm).1
  · obtain ⟨s, hs, hms⟩ := List.mem_flatMap.1 hm
    have hm' : m ∈ ss.flatMap parts := List.mem_flatMap.2 ⟨s, hs, mem_parts_of_mem_members hms⟩
    exact ⟨m.deep T, List.mem_map_of_mem hm', same_refl _⟩
  · obtain ⟨s, hs, hms⟩ := List.mem_flatMap.1 hm
    obtain ⟨n, hns, hmn⟩ := exists_same_member_of_mem_parts hms
    have hn : n ∈ ss.flatMap members := List.mem_flatMap.2 ⟨s, hs, hns⟩
    exact ⟨n.deep T, List.mem_map_of_mem hn,
      T.behavior.same_transform (hmembers n hn).2 (hparts m hm).2 (same_symm hmn) false⟩

/-- To apply a rule to a union is to apply it to the arguments. -/
theorem deep_unionOf (h : ∀ s ∈ ss, s.WellFormed) (T : Rule) :
    ((unionOf ss).deep T).same (unionOf (ss.map fun s => s.deep T)) = true := by
  have hunited : ((unionOf ss).deep T).same
      (unionOf ((ss.flatMap members).map fun m => m.deep T)) = true := by
    have hkept : (ss.flatMap members).filter (T.behavior.keeps false) = ss.flatMap members :=
      List.filter_eq_self.2 fun _ _ => rfl
    have hrule := T.behavior.transform_unionOf_same (fun m hm => of_mem_flatMap_members h hm) false
    rw [unionOf_flatMap_members h, hkept] at hrule
    exact hrule
  have hgrouped : (unionOf (ss.map fun s => s.deep T)).same
      (unionOf ((ss.flatMap parts).map fun m => m.deep T)) = true := by
    rw [List.map_flatMap, List.map_congr_left fun s _ => deep_eq_unionOf s T]
    refine unionOf_map_unionOf_same fun s hs => List.forall_mem_map.2 fun m hm => ?_
    exact wellFormed_deep ((h s hs).of_mem_parts hm).2 T
  exact same_trans hunited
    (same_trans (unionOf_deep_members_same h T) (same_symm hgrouped))

/-! ## A single argument -/

theorem unionOf_ne_exclusive (h : ∀ s ∈ ss, s.WellFormed) {a b : Record} {x y : KeySet} :
    unionOf ss ≠ .exclusive a b x y := by
  obtain ⟨s, hs, hu⟩ | ⟨-, hu⟩ := unionOf_cases ss <;> rw [hu]
  · rintro rfl
    have hm : Schema.exclusive a b x y ∈ alternatives ss := by simp [hs]
    cases (of_mem_flatMap_members h (mem_distinct hm)).1
  · exact nofun

end

/-- The union of one argument is the argument, unless that is a union of a single member or an
exclusive union. -/
theorem unionOf_singleton_same_iff {s : Schema} (h : s.WellFormed) :
    (unionOf [s]).same s = true ↔
      (∀ m, s ≠ .union [m]) ∧ ∀ a b x y, s ≠ .exclusive a b x y := by
  have hs : ∀ t ∈ [s], t.WellFormed := List.forall_mem_singleton.2 h
  constructor
  · intro hsame
    refine ⟨?_, ?_⟩
    · rintro m rfl
      have hm : unionOf [.union [m]] = m := rfl
      have hu := isUnion_of_same hsame
      rw [hm, (h.of_mem_members (List.mem_singleton_self m)).1] at hu
      cases hu
    · rintro a b x y rfl
      obtain ⟨c, d, he, -⟩ := exists_of_same_exclusive (same_symm hsame)
      exact unionOf_ne_exclusive hs he
  · rintro ⟨hsingle, hexclusive⟩
    cases s with
    | union ms =>
      obtain ⟨⟨hflat, hunlike⟩, -⟩ := wellFormed_union.1 h
      have hl : ms.length ≠ 1 := by
        intro hl
        obtain ⟨m, rfl⟩ := List.length_eq_one_iff.1 hl
        exact hsingle m rfl
      have hms : [Schema.union ms].flatMap members = ms := by simp [members]
      rw [← unionOf_flatMap_members hs, hms, unionOf_eq_union hflat hunlike hl]
      exact same_refl _
    | exclusive a b x y => exact absurd rfl (hexclusive a b x y)
    | _ =>
      rw [unionOf_singleton rfl]
      exact same_refl _

/-! ## The laws -/

/-- The laws of uniting the schemas of the lists `xs`, `ys` and `zs`. -/
structure UnionLaws (xs ys zs : List Schema) : Prop where
  /-- Arguments can be united in groups. -/
  nested : (unionOf (xs ++ [unionOf ys] ++ zs)).same (unionOf (xs ++ ys ++ zs)) = true
  /-- It does not matter in which order arguments come, how often each of them or one like it
  comes, and whether the impossible shape is among them. -/
  arguments : (∀ x ∈ xs, x ≠ .never → ∃ y ∈ ys, x.same y = true) →
    (∀ y ∈ ys, y ≠ .never → ∃ x ∈ xs, y.same x = true) →
    (unionOf xs).same (unionOf ys) = true
  /-- Only a union of a single member and an exclusive union are changed by it. -/
  single : ∀ x ∈ xs, ((unionOf [x]).same x = true ↔
    (∀ m, x ≠ .union [m]) ∧ ∀ a b k l, x ≠ .exclusive a b k l)
  withoutKinds (K : List PrimitiveKind) :
    ((unionOf xs).withoutKinds K).same (unionOf (xs.map fun x => x.withoutKinds K)) = true
  deep (T : Rule) : ((unionOf xs).deep T).same (unionOf (xs.map fun x => x.deep T)) = true

/-- The laws of uniting hold for all lists of well-formed schemas. -/
theorem union_laws {xs ys zs : List Schema} (hx : ∀ x ∈ xs, x.WellFormed)
    (hy : ∀ y ∈ ys, y.WellFormed) (hz : ∀ z ∈ zs, z.WellFormed) : UnionLaws xs ys zs where
  nested := unionOf_append_same hx hy hz
  arguments h₁ h₂ := unionOf_same_of_within hx hy (within_of_likes h₁) (within_of_likes h₂)
  single x hxs := unionOf_singleton_same_iff (hx x hxs)
  withoutKinds := withoutKinds_unionOf hx
  deep := deep_unionOf hx

/-- A union of a single member, an exclusive union, the impossible shape and two records that the
partial rule makes the same. -/
def offers : List Schema := [
  .union [.primitive .string],
  .exclusive [⟨"a", .primitive .number, {}⟩] [⟨"b", .primitive .null, {}⟩]
    (.ofList ["a"]) (.ofList ["b"]),
  .never,
  .record [⟨"a", .union [.primitive .string, .primitive .undefined], {}⟩],
  .record [⟨"a", .union [.primitive .undefined, .primitive .string], { optional := true }⟩]]

theorem union_laws_offers : (∀ x ∈ offers, x.WellFormed) ∧
    (∀ y ∈ [Schema.primitive .null, .union [.primitive .null, .primitive .string]],
      y.WellFormed) ∧
    (∀ z ∈ [Schema.sequence remark true], z.WellFormed) ∧
    UnionLaws offers [.primitive .null, .union [.primitive .null, .primitive .string]]
      [.sequence remark true] :=
  ⟨by decide, by decide, by decide, union_laws (by decide) (by decide) (by decide)⟩

end ShapeAlgebra.Schema
