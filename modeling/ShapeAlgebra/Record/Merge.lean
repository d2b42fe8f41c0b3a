import ShapeAlgebra.Record.Selection

/-!
# Merging records

Three ways to merge two records: the fields of the first in the shapes of the second, the same with
the other fields of the second behind them, and the exclusive union of both, in which each variant
has the exclusive fields of the other side with the impossible shape.

Results:

* `Record.names_override`: overriding changes no name and no place.
* `Record.override_nil`, `Record.assign_nil`: the record without fields changes nothing.
-/

namespace ShapeAlgebra

namespace Record

/-- The fields of `base`, each replaced by the field of that name in `other` if there is one (in
`merge_override`). -/
def override (base other : Record) : Record := base.map fun f => (other.find? f.name).getD f

/-- The fields of `other` whose names `base` does not have (in `merge`). -/
def added (base other : Record) : Record := other.select (other.keys.sdiff base.keys)

/-- The fields of `base` overridden by those of `other`, and then the fields that `other` adds (in
`merge`). -/
def assign (base other : Record) : Record := base.override other ++ base.added other

/-- How many fields of `base` are replaced when `other` overrides it (in `merge_override`). -/
def replacedCount (base other : Record) : Nat := (other.keys.inter base.keys).names.length

/-- The fields of `other` with the given names, as optional fields of the impossible shape
(`_with_impossible_fields`). -/
def blocked (other : Record) (forbidden : KeySet) : Record :=
  (other.select forbidden).map fun f => ⟨f.name, .never, { optional := true }⟩

/-- The exclusive union of two records (`ExclusiveUnion.between`). -/
def exclusive (a b : Record) : Schema :=
  let aOnly := a.keys.sdiff b.keys
  let bOnly := b.keys.sdiff a.keys
  .exclusive (a ++ b.blocked bOnly) (b ++ a.blocked aOnly) aOnly bOnly

theorem names_override (base other : Record) : (base.override other).names = base.names := by
  simp only [override, names, List.map_map]
  refine List.map_congr_left fun f _ => ?_
  simp only [Function.comp]
  cases h : other.find? f.name with
  | none => rfl
  | some g => exact (find?_eq_some h).1

@[simp] theorem override_nil (base : Record) : base.override [] = base := by
  simp [override, find?]

@[simp] theorem assign_nil (base : Record) : base.assign [] = base := by
  simp [assign, added, select]

end Record

namespace Schema

/-- The two records that a merge is applied to (`_require_record`). -/
def requireRecords (operation : RecordOperation) (a b : Schema) :
    Except Failure (Record × Record) := do
  let r ← a.requireRecord operation
  let s ← b.requireRecord operation
  return (r, s)

/-- The fields of the first record, in the shapes of the second where it has them
(`merge_override`). -/
def mergeOverride (a b : Schema) : Except Failure Record := do
  let (r, s) ← requireRecords .mergeOverride a b
  return r.override s

/-- The fields of the first record overridden by the second, and the other fields of the second
(`merge`). -/
def merge (a b : Schema) : Except Failure Record := do
  let (r, s) ← requireRecords .merge a b
  return r.assign s

/-- The exclusive union of two records (`merge_exclusive`). -/
def mergeExclusive (a b : Schema) : Except Failure Schema := do
  let (r, s) ← requireRecords .mergeExclusive a b
  return r.exclusive s

end Schema

end ShapeAlgebra
