import ShapeAlgebra.Proofs.Record.Provenance
import ShapeAlgebra.Proofs.Rule.Idempotence
import ShapeAlgebra.Record.Merge

/-!
# Rules distribute over selections and merges

A rule changes a record field by field: it keeps the names and their order, and what becomes of a
field does not depend on the others. So it makes no difference whether fields are selected or
records are merged before a rule or after it, and the results are identical, not only the same.

Results:

* `Behavior.transformFields_select`, `Behavior.transformFields_override`,
  `Behavior.transformFields_assign`: a rule and what is done to records by name can be exchanged.
* `Schema.deep_distributes`: the same for the operations, with their failures.
-/

namespace ShapeAlgebra

namespace Behavior

variable (b : Behavior)

/-- A field after the rule. -/
def transformField (f : Field) : Field := ⟨f.name, b.transform true f.shape, b.flags f.flags⟩

theorem transformFields_eq_map_transformField (r : Record) :
    b.transformFields r = r.map b.transformField := b.transformFields_eq_map r

/-! ## Records by name -/

theorem keys_transformFields (r : Record) : Record.keys (b.transformFields r) = r.keys := by
  rw [Record.keys, names_transformFields, Record.keys]

theorem transformFields_select (r : Record) (ks : KeySet) :
    b.transformFields (r.select ks) = Record.select (b.transformFields r) ks := by
  rw [transformFields_eq_map_transformField, transformFields_eq_map_transformField, Record.select,
    Record.select, List.filter_map]
  rfl

theorem find?_transformFields (r : Record) (n : Text) :
    Record.find? (b.transformFields r) n = (r.find? n).map b.transformField := by
  rw [transformFields_eq_map_transformField, Record.find?, Record.find?, List.find?_map]
  rfl

theorem transformFields_override (base other : Record) :
    b.transformFields (base.override other) =
      Record.override (b.transformFields base) (b.transformFields other) := by
  simp only [transformFields_eq_map_transformField, Record.override, List.map_map]
  refine List.map_congr_left fun f _ => ?_
  have hfind := b.find?_transformFields other f.name
  rw [transformFields_eq_map_transformField] at hfind
  simp only [Function.comp_apply]
  rw [show (b.transformField f).name = f.name from rfl, hfind]
  cases other.find? f.name <;> rfl

theorem transformFields_append (r t : Record) :
    b.transformFields (r ++ t) = b.transformFields r ++ b.transformFields t := by
  simp only [transformFields_eq_map_transformField, List.map_append]

theorem transformFields_assign (base other : Record) :
    b.transformFields (base.assign other) =
      Record.assign (b.transformFields base) (b.transformFields other) := by
  rw [Record.assign, transformFields_append, transformFields_override, Record.added,
    transformFields_select, Record.assign, Record.added, keys_transformFields,
    keys_transformFields]

end Behavior

/-! ## The operations -/

namespace Schema

/-- The record that a rule makes of a record. -/
theorem deep_record (r : Record) (T : Rule) :
    (Schema.record r).deep T = .record (T.behavior.transformFields r) := by
  rw [deep, Behavior.transform]

theorem pickByKey_of_keySet (r : Record) {names : KeySource} {wanted : KeySet}
    (h : names.keySet = .ok wanted) : (Schema.record r).pickByKey names =
      if (wanted.sdiff r.keys).isEmpty then .ok (r.select wanted)
      else .error (.unknownNames .record (wanted.sdiff r.keys)) := by
  simp only [pickByKey, requireRecord, h]
  rfl

theorem omitByKey_of_keySet (r : Record) {names : KeySource} {wanted : KeySet}
    (h : names.keySet = .ok wanted) :
    (Schema.record r).omitByKey names = .ok (r.select (r.keys.sdiff wanted)) := by
  simp only [omitByKey, requireRecord, h]
  rfl

/-- Picking fields succeeds before a rule exactly when it succeeds after it, with the same failure
otherwise. -/
theorem map_deep_pickByKey (T : Rule) (r : Record) (names : KeySource) :
    ((Schema.record r).pickByKey names).map (fun p => (Schema.record p).deep T) =
      (((Schema.record r).deep T).pickByKey names).map Schema.record := by
  cases hn : names.keySet with
  | error cause => simp only [pickByKey, deep_record, requireRecord, hn]; rfl
  | ok wanted =>
    rw [deep_record, pickByKey_of_keySet r hn, pickByKey_of_keySet _ hn,
      Behavior.keys_transformFields]
    split
    · simp only [Except.map, deep_record, Behavior.transformFields_select]
    · rfl

theorem map_deep_omitByKey (T : Rule) (r : Record) (names : KeySource) :
    ((Schema.record r).omitByKey names).map (fun p => (Schema.record p).deep T) =
      (((Schema.record r).deep T).omitByKey names).map Schema.record := by
  cases hn : names.keySet with
  | error cause => simp only [omitByKey, deep_record, requireRecord, hn]; rfl
  | ok ks =>
    rw [deep_record, omitByKey_of_keySet r hn, omitByKey_of_keySet _ hn,
      Behavior.keys_transformFields]
    simp only [Except.map, deep_record, Behavior.transformFields_select]

/-- What a rule makes of the result of an operation is the result of the operation on what the rule
makes of the records. `names` are those of the fields to pick or to omit. -/
structure DeepDistributes (T : Rule) (a b : Record) (names : KeySource) : Prop where
  /-- Either both picks give the identical record, or both fail for the same unknown names. -/
  picks {wanted : KeySet} : names.keySet = .ok wanted →
    (∃ p q, (Schema.record a).pickByKey names = .ok p ∧
      ((Schema.record a).deep T).pickByKey names = .ok q ∧ (Schema.record p).deep T = .record q) ∨
    ∃ missing, missing = wanted.sdiff a.keys ∧
      (Schema.record a).pickByKey names = .error (.unknownNames .record missing) ∧
      ((Schema.record a).deep T).pickByKey names = .error (.unknownNames .record missing)
  omits {wanted : KeySet} : names.keySet = .ok wanted →
    ∃ p q, (Schema.record a).omitByKey names = .ok p ∧
      ((Schema.record a).deep T).omitByKey names = .ok q ∧ (Schema.record p).deep T = .record q
  /-- What is no collection of names fails in the same way before the rule and after it. -/
  picksAnyway : ((Schema.record a).pickByKey names).map (fun p => (Schema.record p).deep T) =
    (((Schema.record a).deep T).pickByKey names).map Schema.record
  omitsAnyway : ((Schema.record a).omitByKey names).map (fun p => (Schema.record p).deep T) =
    (((Schema.record a).deep T).omitByKey names).map Schema.record
  overrides : ∃ p q, (Schema.record a).mergeOverride (.record b) = .ok p ∧
    ((Schema.record a).deep T).mergeOverride ((Schema.record b).deep T) = .ok q ∧
    (Schema.record p).deep T = .record q
  merges : ∃ p q, (Schema.record a).merge (.record b) = .ok p ∧
    ((Schema.record a).deep T).merge ((Schema.record b).deep T) = .ok q ∧
    (Schema.record p).deep T = .record q

theorem deep_distributes (T : Rule) (a b : Record) (names : KeySource) :
    DeepDistributes T a b names where
  picks {wanted} hn := by
    have hpick := pickByKey_of_keySet a hn
    have hdeep := pickByKey_of_keySet (T.behavior.transformFields a) hn
    rw [Behavior.keys_transformFields] at hdeep
    rw [deep_record, hpick, hdeep]
    split
    · refine .inl ⟨_, _, rfl, rfl, ?_⟩
      rw [deep_record, Behavior.transformFields_select]
    · exact .inr ⟨_, rfl, rfl, rfl⟩
  omits {wanted} hn := by
    rw [deep_record, omitByKey_of_keySet a hn, omitByKey_of_keySet _ hn]
    refine ⟨_, _, rfl, rfl, ?_⟩
    rw [deep_record, Behavior.transformFields_select, Behavior.keys_transformFields]
  picksAnyway := map_deep_pickByKey T a names
  omitsAnyway := map_deep_omitByKey T a names
  overrides := by
    rw [deep_record, deep_record]
    refine ⟨_, _, rfl, rfl, ?_⟩
    rw [deep_record, Behavior.transformFields_override]
  merges := by
    rw [deep_record, deep_record]
    refine ⟨_, _, rfl, rfl, ?_⟩
    rw [deep_record, Behavior.transformFields_assign]

end Schema

end ShapeAlgebra
