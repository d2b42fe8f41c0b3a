import ShapeAlgebra.Proofs.Record.Exclusion
import ShapeAlgebra.Proofs.Rule.Composition
import ShapeAlgebra.Proofs.Rule.Distribution

/-!
# Rules and the values of a record

Which values a record has is a matter of its flags and of the fields that no value can have. A rule
sets flags, and it makes a field impossible when it takes every alternative of its shape away; it
neither makes another shape impossible nor makes an impossible one possible. So the values of a
record after a rule are told by the flags before it and by what the shapes can be assigned to.

Results:

* `Behavior.transform_eq_never_iff`: which shapes a rule makes impossible.
* `Behavior.admits_transformFields`: the values of a record after a rule.
* `Record.rules_accept`: to which variants a value conforms after each of the rules.
-/

namespace ShapeAlgebra

/-! ## Impossible shapes -/

namespace Schema

theorem isUnion_never : never.isUnion = true := rfl

theorem unionOf_eq_never_iff {ss : List Schema} (h : ∀ s ∈ ss, s.isUnion = false) :
    unionOf ss = .never ↔ ss = [] := by
  constructor
  · intro hnever
    refine List.eq_nil_iff_forall_not_mem.2 fun s hs => ?_
    obtain ⟨t, ht, -⟩ := exists_same_mem_distinct hs
    obtain ⟨u, hu, hunion⟩ | ⟨-, hunion⟩ := unionOf_of_flat h
    · have hflat := h u (mem_distinct (by simp [hu]))
      rw [← hunion, hnever, isUnion_never] at hflat
      cases hflat
    · rw [hunion, never, union.injEq] at hnever
      rw [hnever] at ht
      cases ht
  · rintro rfl
    rfl

/-- A schema is assignable to kinds when each of its parts is a primitive of one of them. -/
theorem assignable_iff_parts {s : Schema} (h : s.WellFormed) {kinds : List PrimitiveKind} :
    s.assignable kinds = true ↔ ∀ m ∈ s.parts, m.isKind kinds = true := by
  have hflat : ∀ m : Schema, m.isUnion = false → m.assignable kinds = m.isKind kinds := by
    intro m hm
    cases m <;> first | rfl | cases hm
  cases s with
  | union ms =>
    rw [assignable, allAssignable_iff]
    exact forall₂_congr fun m hm => by rw [hflat m (h.flat_parts m hm)]
  | exclusive a b x y => simp [assignable, parts, isKind]
  | _ => rw [parts_of_isUnion_eq_false rfl, List.forall_mem_singleton, hflat _ rfl]

theorem assignable_nil_iff {s : Schema} (h : s.WellFormed) :
    s.assignable [] = true ↔ s = .never := by
  have hkind : ∀ m : Schema, m.isKind [] = false := fun m => by cases m <;> rfl
  rw [assignable_iff_parts h]
  constructor
  · intro hall
    have hnil : s.parts = [] := List.eq_nil_iff_forall_not_mem.2 fun m hm => by
      simpa [hkind] using hall m hm
    cases s with
    | union ms => rw [never]; exact congrArg _ hnil
    | _ => cases hnil
  · rintro rfl m hm
    cases hm

end Schema

namespace Behavior

variable (b : Behavior)

/-- A rule makes the shapes impossible that are assignable to what it strips, those included that
were impossible before. -/
theorem transform_eq_never_iff {s : Schema} (h : s.WellFormed) :
    b.transform true s = .never ↔ s.assignable b.stripped = true := by
  rw [b.transform_eq_unionOf,
    Schema.unionOf_eq_never_iff (b.isUnion_of_mem_transformed h.flat_parts), List.map_eq_nil_iff,
    List.filter_eq_nil_iff, Schema.assignable_iff_parts h]
  refine forall₂_congr fun m _ => ?_
  simp [keeps]

/-- The values of a record after a rule: they have every field that is not optional after it and
not stripped of all its alternatives, and no fields but those that keep one. -/
theorem admits_transformFields {r : Record} (h : (Schema.record r).WellFormed) {names : KeySet} :
    Record.Admits (b.transformFields r) names ↔
      (∀ f ∈ r, (b.flags f.flags).optional = false → f.shape.assignable b.stripped = false →
        f.name ∈ names) ∧
      ∀ n ∈ names, ∃ f ∈ r, f.name = n ∧ f.shape.assignable b.stripped = false := by
  have hshape : ∀ f ∈ r, b.transform true f.shape ≠ .never ↔
      f.shape.assignable b.stripped = false := fun f hf => by
    rw [ne_eq, b.transform_eq_never_iff ((Schema.wellFormed_record.1 h).2 f hf),
      Bool.not_eq_true]
  rw [Record.Admits, transformFields_eq_map]
  refine and_congr ?_ (forall₂_congr fun n _ => ?_)
  · rw [List.forall_mem_map]
    exact forall₂_congr fun f hf => by rw [hshape f hf]
  · constructor
    · rintro ⟨g, hg, hname, hpossible⟩
      obtain ⟨f, hf, rfl⟩ := List.mem_map.1 hg
      exact ⟨f, hf, hname, (hshape f hf).1 hpossible⟩
    · rintro ⟨f, hf, hname, hkept⟩
      exact ⟨_, List.mem_map_of_mem hf, hname, (hshape f hf).2 hkept⟩

end Behavior

/-! ## Variants -/

/-- Whether a record is among the variants to which a value with the given field names conforms. -/
def Variants.Takes (v : Variants) (source : KeySource) (r : Record) : Prop :=
  ∃ rs, v.conforming source = .ok rs ∧ ∃ t ∈ rs, t.same r = true

section

variable {v : Variants} {source : KeySource} {names : KeySet} {r : Record}

/-- Of which values a variant is does not depend on the other variant. -/
theorem Variants.takes_iff (h : source.keySet = .ok names) (hr : r ∈ v.toList) :
    v.Takes source r ↔ r.Admits names := by
  have hrs := v.conforming_of_keySet h
  constructor
  · rintro ⟨rs, hconf, t, ht, hsame⟩
    rw [hrs] at hconf
    obtain rfl : v.accepting names = rs := Except.ok.inj hconf
    have hadmits : t.Admits names := Record.accepts_iff_admits.1 (List.mem_filter.1 ht).2
    exact hadmits.of_same hsame
  · intro hadmits
    exact ⟨_, hrs, r, (Variants.mem_accepting hr).2 (Record.accepts_iff_admits.2 hadmits),
      Schema.same_refl (.record r)⟩

theorem Variants.takes_deep_iff (h : source.keySet = .ok names)
    (hwell : (Schema.record r).WellFormed) (T : Rule) {t : Record}
    (ht : (Schema.record r).deep T = .record t) (hmem : t ∈ v.toList) :
    v.Takes source t ↔
      (∀ f ∈ r, (T.behavior.flags f.flags).optional = false →
        f.shape.assignable T.behavior.stripped = false → f.name ∈ names) ∧
      ∀ n ∈ names, ∃ f ∈ r, f.name = n ∧ f.shape.assignable T.behavior.stripped = false := by
  rw [Schema.deep_record, Schema.record.injEq] at ht
  rw [Variants.takes_iff h hmem, ← ht, T.behavior.admits_transformFields hwell]

/-- What each rule does to the values of a record, told by the names of their fields. The variants
are those of any exclusive union in which the record stands before the rule or after it. -/
structure Record.RulesAccept (r : Record) (source : KeySource) (names : KeySet) : Prop where
  /-- The values stay what they are. -/
  readonly : ∃ t, (Schema.record r).deep .readonly = .record t ∧
    ∀ v w : Variants, r ∈ v.toList → t ∈ w.toList → (w.Takes source t ↔ v.Takes source r)
  /-- A value may have any of the fields that are possible. None is lost. -/
  partialize : ∃ t, (Schema.record r).deep .partialize = .record t ∧
    ∀ v w : Variants, r ∈ v.toList → t ∈ w.toList →
      (w.Takes source t ↔ ∀ n ∈ names, ∃ f ∈ r, f.name = n ∧ f.shape ≠ .never) ∧
      (v.Takes source r → w.Takes source t)
  /-- A value has all of the fields that can be something else than undefined, and no other. -/
  required : ∃ t, (Schema.record r).deep .required = .record t ∧
    ∀ w : Variants, t ∈ w.toList → (w.Takes source t ↔
      ∀ n, n ∈ names ↔ ∃ f ∈ r, f.name = n ∧ f.shape.assignable [.undefined] = false)
  /-- A value may have the fields that can be something else than null and undefined, and has those
  of them that are not optional. -/
  nonNullable : ∃ t, (Schema.record r).deep .nonNullable = .record t ∧
    ∀ w : Variants, t ∈ w.toList → (w.Takes source t ↔
      (∀ n ∈ names, ∃ f ∈ r, f.name = n ∧ f.shape.assignable [.null, .undefined] = false) ∧
      ∀ f ∈ r, f.shape.assignable [.null, .undefined] = false → f.flags.optional = false →
        f.name ∈ names)

theorem Record.rules_accept (hwell : (Schema.record r).WellFormed)
    (h : source.keySet = .ok names) : r.RulesAccept source names := by
  have hnever : ∀ f ∈ r, f.shape.assignable [] = false ↔ f.shape ≠ .never := fun f hf => by
    rw [← Bool.not_eq_true, ne_eq,
      Schema.assignable_nil_iff ((Schema.wellFormed_record.1 hwell).2 f hf)]
  have hnamed : ∀ n, (∃ f ∈ r, f.name = n ∧ f.shape.assignable [] = false) ↔
      ∃ f ∈ r, f.name = n ∧ f.shape ≠ .never := fun n =>
    exists_congr fun f => and_congr_right fun hf => and_congr_right fun _ => hnever f hf
  refine ⟨⟨_, Schema.deep_record r _, fun v w hr ht => ?readonly⟩,
    ⟨_, Schema.deep_record r _, fun v w hr ht => ?partialize⟩,
    ⟨_, Schema.deep_record r _, fun w ht => ?required⟩,
    ⟨_, Schema.deep_record r _, fun w ht => ?nonNullable⟩⟩
  case readonly =>
    have ht := Variants.takes_deep_iff h hwell .readonly (Schema.deep_record r _) ht
    rw [ht, Variants.takes_iff h hr, Record.Admits]
    refine and_congr (forall₂_congr fun f hf => ?_) (forall₂_congr fun n _ => hnamed n)
    exact imp_congr Iff.rfl (imp_congr (hnever f hf) Iff.rfl)
  case partialize =>
    have ht := Variants.takes_deep_iff h hwell .partialize (Schema.deep_record r _) ht
    have hvalues : w.Takes source (Rule.partialize.behavior.transformFields r) ↔
        ∀ n ∈ names, ∃ f ∈ r, f.name = n ∧ f.shape ≠ .never := by
      rw [ht, and_iff_right fun f hf hoptional => by cases hoptional]
      exact forall₂_congr fun n _ => hnamed n
    exact ⟨hvalues, fun hv => hvalues.2 ((Variants.takes_iff h hr).1 hv).2⟩
  case required =>
    rw [Variants.takes_deep_iff h hwell .required (Schema.deep_record r _) ht]
    constructor
    · rintro ⟨hall, hpossible⟩ n
      refine ⟨hpossible n, ?_⟩
      rintro ⟨f, hf, rfl, hshape⟩
      exact hall f hf rfl hshape
    · intro hnames
      exact ⟨fun f hf _ hshape => (hnames f.name).2 ⟨f, hf, rfl, hshape⟩, fun n => (hnames n).1⟩
  case nonNullable =>
    rw [Variants.takes_deep_iff h hwell .nonNullable (Schema.deep_record r _) ht, and_comm]
    refine and_congr Iff.rfl (forall₂_congr fun f _ => ?_)
    exact ⟨fun hall hshape hoptional => hall hoptional hshape,
      fun hall hoptional hshape => hall hshape hoptional⟩

end

/-- A record some of whose fields may be undefined or null, with one field that no value can have
and one that is nothing but undefined or null. -/
def Record.ticket : Record :=
  [⟨"id", .primitive .number, { readonly := true }⟩,
    ⟨"note", .union [.primitive .undefined, .primitive .null, .primitive .string], {}⟩,
    ⟨"closed", .union [.primitive .undefined, .primitive .null], {}⟩,
    ⟨"draft", .never, {}⟩,
    ⟨"owner", .exclusive [⟨"mail", .primitive .string, {}⟩] [⟨"phone", .primitive .number, {}⟩]
      (KeySet.ofList ["mail"]) (KeySet.ofList ["phone"]), { optional := true }⟩]

theorem Record.rules_accept_ticket : (Schema.record Record.ticket).WellFormed ∧
    (KeySource.data (.list [.text "note", .text "id"])).keySet =
      .ok (KeySet.ofList ["id", "note"]) ∧
    Record.ticket.RulesAccept (.data (.list [.text "note", .text "id"]))
      (KeySet.ofList ["id", "note"]) :=
  ⟨by decide, rfl, Record.rules_accept (by decide) rfl⟩

end ShapeAlgebra
