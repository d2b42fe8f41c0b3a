import ShapeAlgebra.Record.Variants
import ShapeAlgebra.Proofs.Schema.Equality

/-!
# Exclusive unions keep their sides apart

Each variant of the exclusive union of two records has the fields of its own side, and beside them
the exclusive fields of the other side with the impossible shape. The blocked fields change nothing
about which values a side has, and no value has names of both sides. Which variant is selected for a
value is therefore a matter of the two records alone.

Results:

* `Record.admits_append_blocked`: blocked fields neither add nor remove values.
* `Record.Admits.not_of_other`: a name that one side alone declares rules the other side out.
* `Variants.choose_of_not_mixes`: without names of both sides the first variant that accepts is
  chosen.
* `Schema.mergeExclusive_separates`: which variants a value conforms to, which one is selected, and
  how a selection fails.
-/

namespace ShapeAlgebra

/-! ## Values of a record -/

/-- Whether a value with exactly the given field names can be of the record: it has every field that
is not optional, unless no value can have that field, and only fields that a value can have. -/
def Record.Admits (r : Record) (names : KeySet) : Prop :=
  (∀ f ∈ r, f.flags.optional = false → f.shape ≠ .never → f.name ∈ names) ∧
    ∀ n ∈ names, ∃ f ∈ r, f.name = n ∧ f.shape ≠ .never

/-- Whether names of a value are declared by one record alone, and others by the other alone. -/
def Record.Mixes (a b : Record) (names : KeySet) : Prop :=
  (∃ m ∈ names, m ∈ a.keys ∧ m ∉ b.keys) ∧ ∃ n ∈ names, n ∈ b.keys ∧ n ∉ a.keys

theorem Field.isPossible_iff {f : Field} : f.isPossible = true ↔ f.shape ≠ .never := by
  obtain ⟨n, s, flags⟩ := f
  cases s with
  | union ms => cases ms <;> simp [isPossible, Classifier.test, Schema.never]
  | _ => simp [isPossible, Classifier.test, Schema.never]

theorem Field.isRequired_iff {f : Field} :
    f.isRequired = true ↔ f.flags.optional = false ∧ f.shape ≠ .never := by
  rw [isRequired, Bool.and_eq_true, Bool.not_eq_true', isPossible_iff]

namespace Record

variable {a b r : Record} {names : KeySet}

theorem accepts_iff_admits : r.accepts names = true ↔ r.Admits names := by
  rw [accepts_iff, Admits]
  simp only [Field.isRequired_iff, Field.isPossible_iff, and_imp]
  refine and_congr_right fun _ => forall₂_congr fun n _ => exists_congr fun f => ?_
  rw [and_comm (a := f.shape ≠ .never)]

/-- A value of the record has no other names than those the record declares. -/
theorem Admits.mem_keys (h : r.Admits names) {n : Text} (hn : n ∈ names) : n ∈ r.keys := by
  obtain ⟨f, hf, hname, -⟩ := h.2 n hn
  exact Record.mem_keys.2 ⟨f, hf, hname⟩

/-- A name that only one of two records declares belongs to values of that record alone. -/
theorem Admits.not_of_other (h : a.Admits names) {n : Text} (hn : n ∈ names)
    (hone : ¬ (n ∈ a.keys ↔ n ∈ b.keys)) : ¬ b.Admits names := by
  intro h'
  exact hone (iff_of_true (h.mem_keys hn) (h'.mem_keys hn))

theorem Mixes.not_admits (h : a.Mixes b names) : ¬ a.Admits names ∧ ¬ b.Admits names := by
  obtain ⟨⟨m, hm, -, hmb⟩, n, hn, -, hna⟩ := h
  exact ⟨fun ha => hna (ha.mem_keys hn), fun hb => hmb (hb.mem_keys hm)⟩

/-! ## Blocked fields -/

theorem mem_blocked {other : Record} {s : KeySet} {f : Field} (h : f ∈ other.blocked s) :
    f.shape = .never := by
  obtain ⟨g, -, rfl⟩ := List.mem_map.1 h
  rfl

/-- Fields of the impossible shape that need not be there change nothing about the values. -/
theorem admits_append_blocked (r other : Record) (s : KeySet) :
    (r ++ other.blocked s : Record).Admits names ↔ r.Admits names := by
  constructor
  · rintro ⟨hreq, hpos⟩
    refine ⟨fun f hf => hreq f (List.mem_append_left _ hf), fun n hn => ?_⟩
    obtain ⟨f, hf, hname, hshape⟩ := hpos n hn
    have hown : f ∈ r := (List.mem_append.1 hf).resolve_right fun hb => hshape (mem_blocked hb)
    exact ⟨f, hown, hname, hshape⟩
  · rintro ⟨hreq, hpos⟩
    refine ⟨fun f hf hopt hshape => ?_, fun n hn => ?_⟩
    · have hown : f ∈ r := (List.mem_append.1 hf).resolve_right fun hb => hshape (mem_blocked hb)
      exact hreq f hown hopt hshape
    · obtain ⟨f, hf, hname, hshape⟩ := hpos n hn
      exact ⟨f, List.mem_append_left _ hf, hname, hshape⟩

theorem shape_ne_never_of_same {f g : Field} (h : f.same g = true) (hf : f.shape ≠ .never) :
    g.shape ≠ .never := by
  intro hg
  have hs : Schema.never.same f.shape = true := by
    rw [← hg]
    exact Schema.same_symm (Field.same_iff.1 h).2.2
  obtain ⟨ns, hns, -, hlike⟩ := Schema.exists_of_same_union hs
  have hnil : ns = [] := List.eq_nil_iff_forall_not_mem.2 fun n hn => by simpa using hlike n hn
  exact hf (by rw [hns, hnil, Schema.never])

/-- Records that differ in the order of their fields alone, at any depth, have the same values. -/
theorem Admits.of_same (ha : a.Admits names) (h : a.same b = true) : b.Admits names := by
  have flip : ∀ {f g : Field}, f.same g = true → g.same f = true := by
    intro f g hfg
    obtain ⟨hname, hflags, hshape⟩ := Field.same_iff.1 hfg
    exact Field.same_iff.2 ⟨hname.symm, hflags.symm, Schema.same_symm hshape⟩
  obtain ⟨hab, hba⟩ := Record.same_iff.1 h
  refine ⟨fun g hg hopt hshape => ?_, fun n hn => ?_⟩
  · obtain ⟨f, hf, hfg⟩ := hba g hg
    obtain ⟨hname, hflags, -⟩ := Field.same_iff.1 hfg
    rw [← hname]
    exact ha.1 f hf (hflags ▸ hopt) (shape_ne_never_of_same (flip hfg) hshape)
  · obtain ⟨f, hf, hname, hshape⟩ := ha.2 n hn
    obtain ⟨g, hg, hfg⟩ := hab f hf
    exact ⟨g, hg, (Field.same_iff.1 hfg).1 ▸ hname, shape_ne_never_of_same hfg hshape⟩

/-! ## The parts of an exclusive union -/

/-- The parts of the exclusive union of two records. -/
def variants (a b : Record) : Variants where
  first := a ++ b.blocked (b.keys.sdiff a.keys)
  second := b ++ a.blocked (a.keys.sdiff b.keys)
  firstOnly := a.keys.sdiff b.keys
  secondOnly := b.keys.sdiff a.keys

theorem ofSchema?_exclusive (a b : Record) :
    Variants.ofSchema? (a.exclusive b) = some (a.variants b) := rfl

theorem accepts_first : (a.variants b).first.accepts names = true ↔ a.Admits names := by
  rw [accepts_iff_admits]
  exact admits_append_blocked a b _

theorem accepts_second : (a.variants b).second.accepts names = true ↔ b.Admits names := by
  rw [accepts_iff_admits]
  exact admits_append_blocked b a _

end Record

/-! ## The choice of a variant -/

namespace Variants

variable {v : Variants} {names : KeySet}

/-- Whether a value has names of both sides. -/
theorem isEmpty_inter_iff {s : KeySet} :
    (names.inter s).isEmpty = false ↔ ∃ n ∈ names, n ∈ s := by
  rw [← Bool.not_eq_true, KeySet.isEmpty_iff]
  simp

theorem choose_of_mixes (h₁ : ∃ m ∈ names, m ∈ v.firstOnly) (h₂ : ∃ n ∈ names, n ∈ v.secondOnly) :
    v.choose names =
      .error (.mixedVariants (names.inter v.firstOnly) (names.inter v.secondOnly)) := by
  rw [choose, if_pos (by simp [isEmpty_inter_iff.2 h₁, isEmpty_inter_iff.2 h₂])]

/-- Without names of both sides, the first variant that accepts the names is chosen. -/
theorem choose_of_not_mixes
    (h : ¬ ((∃ m ∈ names, m ∈ v.firstOnly) ∧ ∃ n ∈ names, n ∈ v.secondOnly)) :
    v.choose names = if v.first.accepts names then .ok v.first
      else if v.second.accepts names then .ok v.second else .error (.noVariant names) := by
  have hempty : ¬ ((!(names.inter v.firstOnly).isEmpty && !(names.inter v.secondOnly).isEmpty) =
      true) := by
    simpa [← isEmpty_inter_iff] using h
  rw [choose, if_neg hempty, accepting, toList]
  cases h₁ : v.first.accepts names <;> cases h₂ : v.second.accepts names <;>
    simp [h₁, h₂]

theorem mem_accepting {r : Record} (hr : r ∈ v.toList) :
    r ∈ v.accepting names ↔ r.accepts names = true := by
  rw [accepting, List.mem_filter, and_iff_right hr]

/-- How a value with the given names and the variants of an exclusive union go together, the union
being made of `a` and `b`. -/
structure Separates (v : Variants) (a b : Record) (source : KeySource) (names : KeySet) :
    Prop where
  /-- The value conforms to the variant of a side exactly when it is of that side, also when
  variants that differ in the order of their fields are taken for the same. -/
  conforming : ∃ rs, v.conforming source = .ok rs ∧
    (v.first ∈ rs ↔ a.Admits names) ∧ (v.second ∈ rs ↔ b.Admits names) ∧
    ∀ r ∈ rs, (r.same v.first = true → a.Admits names) ∧ (r.same v.second = true → b.Admits names)
  /-- A variant is selected exactly when the value is of one of the sides. -/
  selects : (∃ r, v.select source = .ok r) ↔ a.Admits names ∨ b.Admits names
  /-- The first side goes before the second. -/
  first : a.Admits names → v.select source = .ok v.first
  second : ¬ a.Admits names → b.Admits names → v.select source = .ok v.second
  /-- A name that one side alone declares leaves at most one side. -/
  apart : (∃ n ∈ names, ¬ (n ∈ a.keys ↔ n ∈ b.keys)) → ¬ (a.Admits names ∧ b.Admits names)
  /-- Names that belong to both sides leave none, and are told of. -/
  mixed : a.Mixes b names → v.conforming source = .ok [] ∧ v.select source = .error
    (.mixedVariants (names.inter (a.keys.sdiff b.keys)) (names.inter (b.keys.sdiff a.keys)))
  /-- Nothing else fails but what conforms to neither variant. -/
  neither : ¬ a.Mixes b names → ∀ cause, v.select source = .error cause → cause = .noVariant names

end Variants

section

variable {a b : Record} {source : KeySource} {names : KeySet}

theorem Record.mixes_iff : a.Mixes b names ↔ (∃ m ∈ names, m ∈ (a.variants b).firstOnly) ∧
    ∃ n ∈ names, n ∈ (a.variants b).secondOnly := by
  simp only [Mixes, variants, KeySet.mem_sdiff]

theorem Variants.select_of_keySet (v : Variants) (h : source.keySet = .ok names) :
    v.select source = v.choose names := by
  rw [select, h]
  rfl

theorem Variants.conforming_of_keySet (v : Variants) (h : source.keySet = .ok names) :
    v.conforming source = .ok (v.accepting names) := by
  rw [conforming, h]
  rfl

/-- Which variant of an exclusive union is selected, said of the two records it is made of. -/
theorem Record.select_variants (h : source.keySet = .ok names) :
    (a.Mixes b names → (a.variants b).select source = .error
      (.mixedVariants (names.inter (a.keys.sdiff b.keys)) (names.inter (b.keys.sdiff a.keys)))) ∧
    (a.Admits names → (a.variants b).select source = .ok (a.variants b).first) ∧
    (¬ a.Admits names → b.Admits names →
      (a.variants b).select source = .ok (a.variants b).second) ∧
    (¬ a.Mixes b names → ¬ a.Admits names → ¬ b.Admits names →
      (a.variants b).select source = .error (.noVariant names)) := by
  rw [Variants.select_of_keySet _ h]
  have hplain : ¬ a.Mixes b names → (a.variants b).choose names =
      if (a.variants b).first.accepts names then .ok (a.variants b).first
      else if (a.variants b).second.accepts names then .ok (a.variants b).second
      else .error (.noVariant names) := by
    intro hm
    rw [mixes_iff] at hm
    exact Variants.choose_of_not_mixes hm
  refine ⟨fun hm => ?_, fun ha => ?_, fun ha hb => ?_, fun hm ha hb => ?_⟩
  · obtain ⟨h₁, h₂⟩ := mixes_iff.1 hm
    exact Variants.choose_of_mixes h₁ h₂
  · rw [hplain fun hm => hm.not_admits.1 ha, if_pos (accepts_first.2 ha)]
  · rw [hplain fun hm => hm.not_admits.2 hb, if_neg (mt accepts_first.1 ha),
      if_pos (accepts_second.2 hb)]
  · rw [hplain hm, if_neg (mt accepts_first.1 ha), if_neg (mt accepts_second.1 hb)]

/-- The variants to which a value conforms, said of the two records. -/
theorem Record.conforming_variants (h : source.keySet = .ok names) :
    ∃ rs, (a.variants b).conforming source = .ok rs ∧
      ((a.variants b).first ∈ rs ↔ a.Admits names) ∧
      ((a.variants b).second ∈ rs ↔ b.Admits names) ∧
      ∀ r ∈ rs, r ∈ (a.variants b).toList ∧ r.Admits names := by
  have hlist : (a.variants b).toList = [(a.variants b).first, (a.variants b).second] := rfl
  refine ⟨_, Variants.conforming_of_keySet _ h, ?_, ?_, fun r hr => ?_⟩
  · rw [Variants.mem_accepting (by simp [hlist]), accepts_first]
  · rw [Variants.mem_accepting (by simp [hlist]), accepts_second]
  · obtain ⟨hmem, hacc⟩ := List.mem_filter.1 hr
    exact ⟨hmem, accepts_iff_admits.1 hacc⟩

theorem Record.variants_separates (h : source.keySet = .ok names) :
    (a.variants b).Separates a b source names := by
  obtain ⟨rs, hrs, hmem₁, hmem₂, hadm⟩ := conforming_variants (a := a) (b := b) h
  obtain ⟨hmixed, hfirst, hsecond, hneither⟩ := select_variants (a := a) (b := b) h
  have halike : ∀ r ∈ rs, (r.same (a.variants b).first = true → a.Admits names) ∧
      (r.same (a.variants b).second = true → b.Admits names) := by
    intro r hr
    have hr := (hadm r hr).2
    exact ⟨fun hs => (admits_append_blocked a b _).1 (hr.of_same hs),
      fun hs => (admits_append_blocked b a _).1 (hr.of_same hs)⟩
  have hselects : (∃ r, (a.variants b).select source = .ok r) ↔
      a.Admits names ∨ b.Admits names := by
    by_cases ha : a.Admits names
    · exact iff_of_true ⟨_, hfirst ha⟩ (.inl ha)
    by_cases hb : b.Admits names
    · exact iff_of_true ⟨_, hsecond ha hb⟩ (.inr hb)
    refine iff_of_false ?_ (not_or.2 ⟨ha, hb⟩)
    rintro ⟨r, hr⟩
    by_cases hm : a.Mixes b names
    · rw [hmixed hm] at hr
      cases hr
    · rw [hneither hm ha hb] at hr
      cases hr
  have hnone : a.Mixes b names → rs = [] := by
    intro hm
    refine List.eq_nil_iff_forall_not_mem.2 fun r hr => ?_
    have hside : r = (a.variants b).first ∨ r = (a.variants b).second := by
      simpa [Variants.toList] using (hadm r hr).1
    rcases hside with rfl | rfl
    · exact hm.not_admits.1 (hmem₁.1 hr)
    · exact hm.not_admits.2 (hmem₂.1 hr)
  refine ⟨⟨rs, hrs, hmem₁, hmem₂, halike⟩, hselects, hfirst, hsecond, ?apart,
    fun hm => ⟨hnone hm ▸ hrs, hmixed hm⟩, ?neither⟩
  case apart =>
    rintro ⟨n, hn, hone⟩ ⟨ha, hb⟩
    exact ha.not_of_other hn hone hb
  case neither =>
    intro hm cause hc
    have hno : ¬ (a.Admits names ∨ b.Admits names) := by
      intro hab
      obtain ⟨r, hr⟩ := hselects.2 hab
      rw [hr] at hc
      cases hc
    obtain ⟨ha, hb⟩ := not_or.1 hno
    rw [hneither hm ha hb] at hc
    cases hc
    rfl

/-- Where the value is not of both sides, the order of the sides makes no difference. -/
theorem Record.select_variants_swap (h : source.keySet = .ok names)
    (hone : ¬ (a.Admits names ∧ b.Admits names)) (r : Record) :
    (b.variants a).select source = .ok r ↔ (a.variants b).select source = .ok r := by
  have hab := variants_separates (a := a) (b := b) h
  have hba := variants_separates (a := b) (b := a) h
  by_cases ha : a.Admits names
  · have hb : ¬ b.Admits names := fun hb => hone ⟨ha, hb⟩
    rw [hab.first ha, hba.second hb ha]
    rfl
  · by_cases hb : b.Admits names
    · rw [hab.second ha hb, hba.first hb]
      rfl
    · have hno : ¬ (a.Admits names ∨ b.Admits names) := not_or.2 ⟨ha, hb⟩
      exact iff_of_false (fun hr => hno (hba.selects.1 ⟨r, hr⟩).symm)
        fun hr => hno (hab.selects.1 ⟨r, hr⟩)

/-- The exclusive union of two records keeps their values apart, and its variants change places
with the records. -/
theorem Schema.mergeExclusive_separates (a b : Record) (h : source.keySet = .ok names) :
    ∃ e v e' v', mergeExclusive (.record a) (.record b) = .ok e ∧ Variants.ofSchema? e = some v ∧
      mergeExclusive (.record b) (.record a) = .ok e' ∧ Variants.ofSchema? e' = some v' ∧
      v.Separates a b source names ∧ v'.first = v.second ∧ v'.second = v.first ∧
      (¬ (a.Admits names ∧ b.Admits names) →
        ∀ r, v'.select source = .ok r ↔ v.select source = .ok r) :=
  ⟨_, a.variants b, _, b.variants a, rfl, Record.ofSchema?_exclusive a b, rfl,
    Record.ofSchema?_exclusive b a, Record.variants_separates h, rfl, rfl,
    Record.select_variants_swap h⟩

end

/-- A contact by mail, which may have a name and never has a fax. -/
def Record.mailContact : Record :=
  [⟨"mail", .primitive .string, {}⟩, ⟨"name", .primitive .string, { optional := true }⟩,
    ⟨"fax", .never, {}⟩]

/-- A contact by telephone, which has a name of another shape. -/
def Record.phoneContact : Record :=
  [⟨"name", .record [], {}⟩, ⟨"phone", .primitive .number, {}⟩]

theorem Schema.mergeExclusive_separates_contacts :
    (KeySource.data (.list [.text "name", .text "mail"])).keySet =
      .ok (KeySet.ofList ["name", "mail"]) ∧
    ∃ e v e' v', mergeExclusive (.record Record.mailContact) (.record Record.phoneContact) = .ok e ∧
      Variants.ofSchema? e = some v ∧
      mergeExclusive (.record Record.phoneContact) (.record Record.mailContact) = .ok e' ∧
      Variants.ofSchema? e' = some v' ∧
      v.Separates Record.mailContact Record.phoneContact
        (.data (.list [.text "name", .text "mail"])) (KeySet.ofList ["name", "mail"]) ∧
      v'.first = v.second ∧ v'.second = v.first ∧
      (¬ (Record.mailContact.Admits (KeySet.ofList ["name", "mail"]) ∧
          Record.phoneContact.Admits (KeySet.ofList ["name", "mail"])) →
        ∀ r, v'.select (.data (.list [.text "name", .text "mail"])) = .ok r ↔
          v.select (.data (.list [.text "name", .text "mail"])) = .ok r) :=
  ⟨rfl, Schema.mergeExclusive_separates Record.mailContact Record.phoneContact rfl⟩

end ShapeAlgebra
