import ShapeAlgebra.Record.Build
import ShapeAlgebra.Schema.Classify

/-!
# Sets of field names

A key source is a record, standing for the set of its field names, or a collection of names given as
plain data. The operations on key sets are defined for key sources.

Results:

* `KeySource.keySet_record`: the key set of a record holds the names of its fields.
* `KeySource.mem_complement`: a complement that exists is the part of the whole outside the
  subset, and the subset has no other names than the whole.
-/

namespace ShapeAlgebra

/-- Where a set of field names comes from. -/
inductive KeySource where
  | schema (s : Schema)
  | data (d : Data)

namespace KeySource

/-- The first item of a list that a set cannot hold (in `key_set`). -/
def firstUnhashable (items : List Data) : Option Data := items.find? fun d => !d.isKey

/-- The names in a list of items, all of which are texts (in `key_set`). -/
def namesOf : List Data → Except Failure (List Text)
  | [] => .ok []
  | .text t :: ds => do
    let ts ← namesOf ds
    return t :: ts
  | d :: _ => .error (.nameNotText d.shown)

/-- The key set of a source (`key_set`). -/
def keySet : KeySource → Except Failure KeySet
  | .schema (.record r) => .ok (Record.keys r)
  | .schema s => .error (.keysNeedRecord s.variety)
  | .data (.text _) => .error .textAsNames
  | .data d =>
    match d.items? with
    | none => .error (.notIterable d.sort)
    | some items =>
      match firstUnhashable items with
      | some item => .error (.unhashable item.sort)
      | none => do
        let names ← namesOf items
        return KeySet.ofList names

/-- The names in both sources (`intersect`). -/
def intersect (a b : KeySource) : Except Failure KeySet := do
  return (← a.keySet).inter (← b.keySet)

/-- The names of `a` that are not in `b` (`subtract`). -/
def subtract (a b : KeySource) : Except Failure KeySet := do
  return (← a.keySet).sdiff (← b.keySet)

/-- The names of a whole outside a subset of it (`complement`). -/
def complement (whole subset : KeySource) : Except Failure KeySet := do
  let u ← whole.keySet
  let s ← subset.keySet
  let unknown := s.sdiff u
  if unknown.isEmpty then return u.sdiff s
  throw (.unknownNames .complementUniverse unknown)

/-- The names in one of two sources or in both (`key_union`). -/
def union (a b : KeySource) : Except Failure KeySet := do
  return (← a.keySet).union (← b.keySet)

/-- The names in exactly one of two sources (`symmetric_difference`). -/
def symmetricDifference (a b : KeySource) : Except Failure KeySet := do
  return (← a.keySet).symmDiff (← b.keySet)

theorem keySet_record (r : Record) : keySet (.schema (.record r)) = .ok r.keys := rfl

theorem mem_complement {a b : KeySource} {s : KeySet} (h : complement a b = .ok s) :
    ∃ u v, a.keySet = .ok u ∧ b.keySet = .ok v ∧ (∀ n ∈ v, n ∈ u) ∧
      ∀ n, n ∈ s ↔ n ∈ u ∧ n ∉ v := by
  simp only [complement] at h
  cases ha : a.keySet with
  | error e => rw [ha] at h; cases h
  | ok u =>
    cases hb : b.keySet with
    | error e => rw [ha, hb] at h; cases h
    | ok v =>
      rw [ha, hb] at h
      simp only [bind, Except.bind] at h
      split at h
      · next hu =>
        cases h
        refine ⟨u, v, rfl, rfl, fun n hn => ?_, fun n => KeySet.mem_sdiff⟩
        by_cases hnu : n ∈ u
        · exact hnu
        · exact absurd (KeySet.mem_sdiff.2 ⟨hn, hnu⟩) (KeySet.isEmpty_iff.1 hu n)
      · cases h

end KeySource

namespace Record

/-- The names of the fields whose shapes pass a test (in `keys_by_value`). -/
def keysPassing (r : Record) (test : Schema → Bool) : KeySet :=
  KeySet.ofList (Record.names (r.filter fun f => test f.shape))

/-- The names of the fields whose shapes satisfy a predicate (in `keys_by_value`). -/
def keysWhere (r : Record) (p : Predicate) : KeySet := r.keysPassing fun s => p.holds s

end Record

namespace Schema

/-- The names of a record's fields whose shapes satisfy a predicate (`keys_by_value`). -/
def keysByValue (s : Schema) (p : Predicate) : Except Failure KeySet :=
  match s with
  | .record r => .ok (Record.keysWhere r p)
  | s => .error (.shapesNeedRecord s.variety)

/-- The names of a record's callable fields (`function_keys`). -/
def functionKeys (s : Schema) : Except Failure KeySet := s.keysByValue (.is .callable)

/-- The names of a record's fields that are not callable (`non_function_keys`). -/
def nonFunctionKeys (s : Schema) : Except Failure KeySet := s.keysByValue (.not (.is .callable))

end Schema

end ShapeAlgebra
