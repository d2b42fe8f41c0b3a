import ShapeAlgebra.Record.Keys

/-!
# Selecting fields

Records made of some fields of a record, chosen by name or by shape. Every selection keeps the order
of the fields and the fields themselves.

Results:

* `Schema.pickByKey_eq_ok_iff`: picking succeeds exactly when every name is known.
-/

namespace ShapeAlgebra.Schema

/-- The record that an operation is applied to (`_require_record`). -/
def requireRecord (operation : RecordOperation) : Schema → Except Failure Record
  | .record r => .ok r
  | s => .error (.recordNeeded operation s.variety)

/-- The fields with the given names, all of which must be known (`pick_by_key`). -/
def pickByKey (s : Schema) (names : KeySource) : Except Failure Record := do
  let r ← s.requireRecord .pickByKey
  let wanted ← names.keySet
  let unknown := wanted.sdiff r.keys
  if unknown.isEmpty then return r.select wanted
  throw (.unknownNames .record unknown)

/-- The fields without the given names (`omit_by_key`). -/
def omitByKey (s : Schema) (names : KeySource) : Except Failure Record := do
  let r ← s.requireRecord .omitByKey
  return r.select (r.keys.sdiff (← names.keySet))

/-- The fields whose shapes pass a test (`pick_by_value`). -/
def pickPassing (s : Schema) (test : Schema → Bool) : Except Failure Record := do
  let r ← s.requireRecord .pickByValue
  return r.select (r.keysPassing test)

/-- The fields whose shapes do not pass a test (`omit_by_value`). -/
def omitPassing (s : Schema) (test : Schema → Bool) : Except Failure Record := do
  let r ← s.requireRecord .omitByValue
  return r.select (r.keys.sdiff (r.keysPassing test))

/-- The fields whose shapes satisfy a predicate (`pick_by_value`). -/
def pickByValue (s : Schema) (p : Predicate) : Except Failure Record :=
  s.pickPassing fun t => p.holds t

/-- The fields whose shapes do not satisfy a predicate (`omit_by_value`). -/
def omitByValue (s : Schema) (p : Predicate) : Except Failure Record :=
  s.omitPassing fun t => p.holds t

/-- The fields whose names are in a key source (`object_intersect`). -/
def objectIntersect (s : Schema) (other : KeySource) : Except Failure Record := do
  let r ← s.requireRecord .objectIntersect
  return r.select (← KeySource.intersect (.schema (.record r)) other)

/-- The fields whose names are not in a key source (`object_subtract`). -/
def objectSubtract (s : Schema) (other : KeySource) : Except Failure Record := do
  let r ← s.requireRecord .objectSubtract
  return r.select (← KeySource.subtract (.schema (.record r)) other)

/-- The fields outside a key source, which must hold names of the record alone
(`object_complement`). -/
def objectComplement (s : Schema) (subset : KeySource) : Except Failure Record := do
  let r ← s.requireRecord .objectComplement
  return r.select (← KeySource.complement (.schema (.record r)) subset)

theorem pickByKey_eq_ok_iff {r picked : Record} {names : KeySource} {wanted : KeySet}
    (h : names.keySet = .ok wanted) : pickByKey (.record r) names = .ok picked ↔
      (∀ n ∈ wanted, n ∈ r.keys) ∧ picked = r.select wanted := by
  have e : pickByKey (.record r) names =
      if (wanted.sdiff r.keys).isEmpty then .ok (r.select wanted)
      else .error (.unknownNames .record (wanted.sdiff r.keys)) := by
    simp only [pickByKey, requireRecord, h]; rfl
  have key : (wanted.sdiff r.keys).isEmpty = true ↔ ∀ n ∈ wanted, n ∈ r.keys := by
    rw [KeySet.isEmpty_iff]
    constructor
    · intro hn n hw
      by_cases hr : n ∈ r.keys
      · exact hr
      · exact absurd (KeySet.mem_sdiff.2 ⟨hw, hr⟩) (hn n)
    · intro hn n hs
      exact (KeySet.mem_sdiff.1 hs).2 (hn n (KeySet.mem_sdiff.1 hs).1)
  rw [e]
  split
  · next hu =>
    constructor
    · intro hp; exact ⟨key.1 hu, (Except.ok.inj hp).symm⟩
    · rintro ⟨_, rfl⟩; rfl
  · next hu =>
    constructor
    · intro hp; cases hp
    · rintro ⟨hn, _⟩; exact absurd (key.2 hn) hu

end ShapeAlgebra.Schema
