import ShapeAlgebra.Proofs.Record.Provenance
import ShapeAlgebra.Proofs.Schema.Hash

/-!
# Records under assignment

Assigning one record onto another is associative, and the record without fields is neutral on both
sides. Overriding is the action of that monoid: to override by two records in turn is to override by
the second assigned onto the first. The results are identical, with their fields in the same order.

What carries the proofs is the look-up by name. An override depends on the other record through
look-ups alone, no merge renames a field, and which fields are added depends on names alone.

Results:

* `Record.override_eq_parts`, `Record.find?_assign`: what an override is made of, and which field a
  name has after an assignment.
* `Record.override_override`, `Record.assign_assign`: the laws of the action and of the monoid.
* `Record.names_assign`, `Record.mem_assign_iff`: the names of an assignment in their order, and
  where its fields come from.
* `Schema.merge_laws`: all laws together, said of the operations.
-/

namespace ShapeAlgebra

namespace Record

/-! ## Look-ups -/

theorem find?_eq_none_iff {r : Record} {n : Text} : r.find? n = none ↔ n ∉ r.keys := by
  simp [find?, mem_keys]

theorem exists_find?_of_mem_keys {r : Record} {n : Text} (h : n ∈ r.keys) :
    ∃ f, r.find? n = some f := by
  rw [← Option.ne_none_iff_exists', ne_eq, find?_eq_none_iff]
  exact not_not_intro h

theorem name_getD_find? (r : Record) (f : Field) : ((r.find? f.name).getD f).name = f.name := by
  cases h : r.find? f.name with
  | none => rfl
  | some g => exact (find?_eq_some h).1

theorem find?_append (a b : Record) (n : Text) : find? (a ++ b) n = (a.find? n).or (b.find? n) :=
  List.find?_append

theorem find?_override (a b : Record) (n : Text) :
    (a.override b).find? n = (a.find? n).map fun f => (b.find? f.name).getD f := by
  have hname : (fun f : Field => f.name == n) ∘ (fun f => (b.find? f.name).getD f) =
      fun f => f.name == n := by
    funext f
    rw [Function.comp_apply, name_getD_find?]
  rw [override, find?, List.find?_map, hname, find?]

theorem find?_select (r : Record) (ks : KeySet) (n : Text) :
    (r.select ks).find? n = if n ∈ ks then r.find? n else none := by
  rw [select, find?, List.find?_filter]
  split
  · next hn =>
    refine congrArg (fun p => List.find? p r) (funext fun f => ?_)
    by_cases hf : f.name = n <;> simp [hf, hn]
  · next hn =>
    refine List.find?_eq_none.2 fun f _ => ?_
    by_cases hf : f.name = n <;> simp [hf, hn]

/-- The added fields are those whose names the first record does not have. -/
theorem added_eq_filter (a b : Record) :
    a.added b = b.filter fun f => decide (f.name ∉ a.keys) := by
  refine List.filter_congr fun f hf => decide_eq_decide.2 ?_
  rw [KeySet.mem_sdiff, and_iff_right (mem_keys.2 ⟨f, hf, rfl⟩)]

theorem find?_added (a b : Record) (n : Text) :
    (a.added b).find? n = if n ∈ a.keys then none else b.find? n := by
  rw [added, find?_select]
  by_cases ha : n ∈ a.keys
  · simp [ha]
  · by_cases hb : n ∈ b.keys
    · simp [ha, hb]
    · simp [ha, find?_eq_none_iff.2 hb]

/-- A name has the field of the record that is assigned, if there is one, and else the field that it
had before. -/
theorem find?_assign (a b : Record) (n : Text) :
    (a.assign b).find? n = (b.find? n).or (a.find? n) := by
  rw [assign, find?_append, find?_override, find?_added]
  cases ha : a.find? n with
  | none => simp [find?_eq_none_iff.1 ha]
  | some f =>
    obtain ⟨rfl, hf⟩ := find?_eq_some ha
    have hn : f.name ∈ a.keys := mem_keys.2 ⟨f, hf, rfl⟩
    cases hb : b.find? f.name <;> simp [hb, hn]

theorem mem_keys_assign {a b : Record} {n : Text} :
    n ∈ (a.assign b).keys ↔ n ∈ a.keys ∨ n ∈ b.keys := by
  rw [← not_iff_not, ← find?_eq_none_iff, find?_assign, Option.or_eq_none_iff, find?_eq_none_iff,
    find?_eq_none_iff, not_or, and_comm]

/-! ## Overriding -/

theorem append_override (a b c : Record) :
    override (a ++ b) c = a.override c ++ b.override c := List.map_append

theorem keys_override (a b : Record) : (a.override b).keys = a.keys := by
  rw [keys, names_override, keys]

/-- To override by two records in turn is to override by the second assigned onto the first. -/
theorem override_override (a b c : Record) :
    (a.override b).override c = a.override (b.assign c) := by
  rw [override, override, override, List.map_map]
  refine List.map_congr_left fun f _ => ?_
  rw [Function.comp_apply, name_getD_find?, find?_assign]
  cases c.find? f.name <;> rfl

/-- An override is made of the fields that are kept and of those that replace others, in the order
of the names. -/
theorem override_eq_parts {a : Record} (h : a.names.Nodup) (b : Record) :
    a.override b = a.names.filterMap fun n =>
      ((b.select (b.keys.inter a.keys)).find? n).or ((a.select (a.keys.sdiff b.keys)).find? n) := by
  rw [override, names, List.filterMap_map, ← List.filterMap_eq_map]
  refine List.filterMap_congr fun f hf => ?_
  have ha : f.name ∈ a.keys := mem_keys.2 ⟨f, hf, rfl⟩
  have hself : a.find? f.name = some f := (find?_eq_some_iff h).2 ⟨hf, rfl⟩
  by_cases hb : f.name ∈ b.keys
  · obtain ⟨g, hg⟩ := exists_find?_of_mem_keys hb
    simp [find?_select, ha, hb, hg]
  · simp [find?_select, ha, hb, hself, find?_eq_none_iff.2 hb]

theorem override_self {a : Record} (h : a.names.Nodup) : a.override a = a := by
  have hself : ∀ f ∈ a, (a.find? f.name).getD f = f := by
    intro f hf
    rw [(find?_eq_some_iff h).2 ⟨hf, rfl⟩, Option.getD_some]
  rw [override, List.map_congr_left hself, List.map_id']

/-! ## Assigning -/

theorem nil_assign (a : Record) : assign [] a = a := by
  have hall : a.filter (fun f => decide (f.name ∉ keys [])) = a :=
    List.filter_eq_self.2 fun f _ => by simp [mem_keys]
  rw [assign, added_eq_filter, hall]
  rfl

theorem added_self (a : Record) : a.added a = [] := by
  rw [added_eq_filter]
  refine List.filter_eq_nil_iff.2 fun f hf => ?_
  simpa using mem_keys.2 ⟨f, hf, rfl⟩

theorem assign_self {a : Record} (h : a.names.Nodup) : a.assign a = a := by
  rw [assign, override_self h, added_self, List.append_nil]

theorem added_congr {a b : Record} (h : a.keys = b.keys) (c : Record) : a.added c = b.added c := by
  rw [added, added, h]

theorem added_append (a b c : Record) : a.added (b ++ c) = a.added b ++ a.added c := by
  rw [added_eq_filter, added_eq_filter, added_eq_filter, List.filter_append]

/-- It makes no difference whether fields are added before an override or after it. -/
theorem added_override (a b c : Record) : a.added (b.override c) = (a.added b).override c := by
  rw [added_eq_filter, added_eq_filter, override, List.filter_map, override]
  refine congrArg _ (List.filter_congr fun f _ => ?_)
  rw [Function.comp_apply, name_getD_find?]

theorem added_added (a b c : Record) : a.added (b.added c) = (a.assign b).added c := by
  rw [added_eq_filter, added_eq_filter, added_eq_filter, List.filter_filter]
  refine List.filter_congr fun f _ => ?_
  simp [mem_keys_assign]

/-- Assignment is associative. -/
theorem assign_assign (a b c : Record) : (a.assign b).assign c = a.assign (b.assign c) :=
  calc (a.assign b).assign c
      = (a.override b ++ a.added b).override c ++ (a.assign b).added c := rfl
    _ = (a.override b).override c ++ (a.added b).override c ++ (a.assign b).added c := by
        rw [append_override]
    _ = a.override (b.assign c) ++ (a.added (b.override c) ++ a.added (b.added c)) := by
        rw [override_override, added_override, added_added, List.append_assoc]
    _ = a.assign (b.assign c) := by rw [← added_append]; rfl

/-- What an override takes from a record, an assignment of that record takes again. -/
theorem override_assign {b : Record} (h : b.names.Nodup) (a : Record) :
    (a.override b).assign b = a.assign b := by
  rw [assign, override_override, assign_self h, added_congr (keys_override a b), assign]

/-! ## Names and fields -/

theorem names_assign (a b : Record) :
    (a.assign b).names = a.names ++ b.names.filter fun n => decide (n ∉ a.names) := by
  have hadded : (a.added b).names = b.names.filter fun n => decide (n ∉ a.names) := by
    rw [added_eq_filter, names, names, names, List.filter_map]
    refine congrArg _ (List.filter_congr fun f _ => decide_eq_decide.2 (not_congr ?_))
    rw [keys, KeySet.mem_ofList]
    rfl
  rw [← hadded, ← names_override a b, assign, names, List.map_append]
  rfl

theorem mem_assign_iff {a b : Record} (ha : a.names.Nodup) (hb : b.names.Nodup) {f : Field} :
    f ∈ a.assign b ↔ f ∈ b ∨ f ∈ a ∧ f.name ∉ b.names := by
  have hfound : ∀ r : Record, r.names.Nodup → (f ∈ r ↔ r.find? f.name = some f) := fun r hr => by
    rw [find?_eq_some_iff hr, and_iff_left rfl]
  have hnot : f.name ∉ b.names ↔ b.find? f.name = none := by
    rw [find?_eq_none_iff, keys, KeySet.mem_ofList]
  rw [hfound _ (nodup_names_assign ha hb), find?_assign, hfound a ha, hfound b hb, hnot,
    Option.or_eq_some_iff, and_comm (a := a.find? f.name = some f)]

end Record

/-! ## The operations -/

namespace Schema

/-- How assigning and overriding go together, for three records. All equations are of records with
their fields in order. -/
structure MergeLaws (a b c : Record) : Prop where
  assoc : ∃ ab bc abc, merge (.record a) (.record b) = .ok ab ∧
    merge (.record b) (.record c) = .ok bc ∧ merge (.record ab) (.record c) = .ok abc ∧
    merge (.record a) (.record bc) = .ok abc
  emptyLeft : merge (.record []) (.record a) = .ok a
  emptyRight : merge (.record a) (.record []) = .ok a
  self : merge (.record a) (.record a) = .ok a
  overrideSelf : mergeOverride (.record a) (.record a) = .ok a
  /-- Overriding is an action of the records under assignment. -/
  action : ∃ ab bc abc, mergeOverride (.record a) (.record b) = .ok ab ∧
    merge (.record b) (.record c) = .ok bc ∧ mergeOverride (.record ab) (.record c) = .ok abc ∧
    mergeOverride (.record a) (.record bc) = .ok abc
  /-- The names of the first record come first, and then the other names of the second, both in
  their order; each with the whole field of the second record, if that declares the name. -/
  fields : ∃ ab, merge (.record a) (.record b) = .ok ab ∧ ab.names.Nodup ∧
    ab.names = a.names ++ b.names.filter (fun n => decide (n ∉ a.names)) ∧
    ∀ f, f ∈ ab ↔ f ∈ b ∨ f ∈ a ∧ f.name ∉ b.names
  /-- To override before an assignment makes no difference. -/
  overrideFirst : ∃ ov ab, mergeOverride (.record a) (.record b) = .ok ov ∧
    merge (.record ov) (.record b) = .ok ab ∧ merge (.record a) (.record b) = .ok ab

theorem merge_record (a b : Record) : merge (.record a) (.record b) = .ok (a.assign b) := rfl

theorem mergeOverride_record (a b : Record) :
    mergeOverride (.record a) (.record b) = .ok (a.override b) := rfl

/-- Records are a monoid under assignment, and overriding is an action of it. -/
theorem merge_laws {a b : Record} (ha : a.names.Nodup) (hb : b.names.Nodup) (c : Record) :
    MergeLaws a b c where
  assoc := by
    refine ⟨_, _, _, merge_record a b, merge_record b c, merge_record _ c, ?_⟩
    rw [merge_record, Record.assign_assign]
  emptyLeft := by rw [merge_record, Record.nil_assign]
  emptyRight := by rw [merge_record, Record.assign_nil]
  self := by rw [merge_record, Record.assign_self ha]
  overrideSelf := by rw [mergeOverride_record, Record.override_self ha]
  action := by
    refine ⟨_, _, _, mergeOverride_record a b, merge_record b c, mergeOverride_record _ c, ?_⟩
    rw [mergeOverride_record, Record.override_override]
  fields := ⟨_, merge_record a b, Record.nodup_names_assign ha hb, Record.names_assign a b,
    fun _ => Record.mem_assign_iff ha hb⟩
  overrideFirst := by
    refine ⟨_, _, mergeOverride_record a b, merge_record _ b, ?_⟩
    rw [merge_record, Record.override_assign hb]

end Schema

/-- An account of a user. -/
def Record.account : Record :=
  [⟨"id", .primitive .number, { readonly := true }⟩, ⟨"name", .primitive .string, {}⟩]

/-- What an account shows to others. -/
def Record.profile : Record :=
  [⟨"photo", .primitive .string, { nullable := true }⟩,
    ⟨"name", .primitive .string, { optional := true }⟩]

/-- What may be changed of an account. -/
def Record.changes : Record :=
  [⟨"name", .never, {}⟩, ⟨"photo", .opaqueLeaf .other (some "Picture"), {}⟩,
    ⟨"id", .primitive .string, {}⟩]

theorem Schema.merge_laws_account : Record.account.names.Nodup ∧ Record.profile.names.Nodup ∧
    MergeLaws Record.account Record.profile Record.changes :=
  ⟨by decide, by decide, Schema.merge_laws (by decide) (by decide) Record.changes⟩

end ShapeAlgebra
