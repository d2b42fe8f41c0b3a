import ShapeAlgebra.Schema

/-!
# Equality of schemas

Two schemas are the same when they differ at most in the order of record fields and of union
members, at any depth. An exclusive union is never the same as a union.

Two lists are compared by a table that says which items of one are like which items of the other,
so that no two items are compared twice. Each item of one list must have its like in the other;
that is symmetric whether or not the lists hold an item twice.

Results:

* `isCovered_iff`: when a table has a mark in every row and in every column.
* `Schema.same_union_iff`, `Schema.same_record_iff`: unions and records are the same when each
  member or field of one has its like in the other.
* `Schema.same_refl`: every schema is the same as itself.
-/

namespace ShapeAlgebra

/-! ## Tables -/

/-- Whether a table with `width` columns has a mark in every row and in every column. -/
def isCovered (width : Nat) (rows : List (List Bool)) : Bool :=
  rows.all (fun row => row.any id) &&
    (rows.foldr (List.zipWith or) (List.replicate width false)).all id

theorem foldr_zipWith_or {α β : Type} (like : α → β → Bool) (xs : List α) (ys : List β) :
    (xs.map fun x => ys.map fun y => like x y).foldr (List.zipWith or)
      (List.replicate ys.length false) = ys.map fun y => xs.any fun x => like x y := by
  induction xs with
  | nil => simp [List.map_const']
  | cons x xs ih => simp [ih, List.zipWith_map, List.zipWith_self]

theorem isCovered_iff {α β : Type} {like : α → β → Bool} {xs : List α} {ys : List β} :
    isCovered ys.length (xs.map fun x => ys.map fun y => like x y) = true ↔
      (∀ x ∈ xs, ∃ y ∈ ys, like x y = true) ∧ ∀ y ∈ ys, ∃ x ∈ xs, like x y = true := by
  simp [isCovered, foldr_zipWith_or]

/-! ## The comparison -/

mutual

/-- Whether two schemas are equal up to the order of fields and members (equality of `Record`,
`Union` and the other nodes). -/
def Schema.same : Schema → Schema → Bool
  | .primitive k, t => match t with
    | .primitive l => k == l
    | _ => false
  | .opaqueLeaf k n, t => match t with
    | .opaqueLeaf l m => k == l && n == m
    | _ => false
  | .sequence e r, t => match t with
    | .sequence f s => Schema.same e f && r == s
    | _ => false
  | .union ms, t => match t with
    | .union ns => isCovered ns.length (Schema.likenesses ms ns)
    | _ => false
  | .record fs, t => match t with
    | .record gs => isCovered gs.length (Field.likenesses fs gs)
    | _ => false
  | .exclusive a b x y, t => match t with
    | .exclusive c d u v =>
      isCovered c.length (Field.likenesses a c) && isCovered d.length (Field.likenesses b d) &&
        x == u && y == v
    | _ => false
termination_by structural s => s

/-- For each schema of the first list, which schemas of the second are the same. -/
def Schema.likenesses : List Schema → List Schema → List (List Bool)
  | [], _ => []
  | s :: ss, ts => (ts.map fun t => Schema.same s t) :: Schema.likenesses ss ts
termination_by structural ss => ss

/-- Whether two fields are equal in name and flags and the same in shape. -/
def Field.same : Field → Field → Bool
  | ⟨n, s, flags⟩, g => n == g.name && flags == g.flags && Schema.same s g.shape
termination_by structural f => f

/-- For each field of the first list, which fields of the second are the same. -/
def Field.likenesses : List Field → List Field → List (List Bool)
  | [], _ => []
  | f :: fs, gs => (gs.map fun g => Field.same f g) :: Field.likenesses fs gs
termination_by structural fs => fs

end

/-- Whether two records have the same fields, in any order (equality of `Record`). -/
def Record.same (r s : Record) : Bool := isCovered s.length (Field.likenesses r s)

theorem Schema.likenesses_eq (ss ts : List Schema) :
    Schema.likenesses ss ts = ss.map fun s => ts.map fun t => s.same t := by
  induction ss with
  | nil => rfl
  | cons s ss ih => simp [Schema.likenesses, ih]

theorem Field.likenesses_eq (fs gs : List Field) :
    Field.likenesses fs gs = fs.map fun f => gs.map fun g => f.same g := by
  induction fs with
  | nil => rfl
  | cons f fs ih => simp [Field.likenesses, ih]

theorem Field.same_iff {f g : Field} : f.same g = true ↔
    f.name = g.name ∧ f.flags = g.flags ∧ f.shape.same g.shape = true := by
  obtain ⟨n, s, flags⟩ := f
  simp [Field.same, and_assoc]

theorem Record.same_iff {r s : Record} : r.same s = true ↔
    (∀ f ∈ r, ∃ g ∈ s, f.same g = true) ∧ ∀ g ∈ s, ∃ f ∈ r, f.same g = true := by
  rw [Record.same, Field.likenesses_eq, isCovered_iff]

namespace Schema

theorem same_union_iff {ms ns : List Schema} : (Schema.union ms).same (.union ns) = true ↔
    (∀ m ∈ ms, ∃ n ∈ ns, m.same n = true) ∧ ∀ n ∈ ns, ∃ m ∈ ms, m.same n = true := by
  rw [same, likenesses_eq, isCovered_iff]

theorem same_record_iff {r s : Record} : (Schema.record r).same (.record s) = true ↔
    (∀ f ∈ r, ∃ g ∈ s, f.same g = true) ∧ ∀ g ∈ s, ∃ f ∈ r, f.same g = true := by
  rw [same, Field.likenesses_eq, isCovered_iff]

theorem same_exclusive_iff {a b c d : Record} {x y u v : KeySet} :
    (Schema.exclusive a b x y).same (.exclusive c d u v) = true ↔
      a.same c = true ∧ b.same d = true ∧ x = u ∧ y = v := by
  simp [same, Record.same, and_assoc]

end Schema

/-! ## Reflexivity -/

mutual

theorem Schema.same_refl : ∀ s : Schema, s.same s = true
  | .primitive _ => by simp [Schema.same]
  | .opaqueLeaf .. => by simp [Schema.same]
  | .sequence e _ => by simp [Schema.same, Schema.same_refl e]
  | .union ms => by
    have h := Schema.mem_same_refl ms
    exact Schema.same_union_iff.2 ⟨fun m hm => ⟨m, hm, h m hm⟩, fun m hm => ⟨m, hm, h m hm⟩⟩
  | .record fs => by
    have h := Field.mem_same_refl fs
    exact Schema.same_record_iff.2 ⟨fun f hf => ⟨f, hf, h f hf⟩, fun f hf => ⟨f, hf, h f hf⟩⟩
  | .exclusive a b _ _ => by
    have ha := Field.mem_same_refl a
    have hb := Field.mem_same_refl b
    exact Schema.same_exclusive_iff.2
      ⟨Record.same_iff.2 ⟨fun f hf => ⟨f, hf, ha f hf⟩, fun f hf => ⟨f, hf, ha f hf⟩⟩,
        Record.same_iff.2 ⟨fun f hf => ⟨f, hf, hb f hf⟩, fun f hf => ⟨f, hf, hb f hf⟩⟩, rfl, rfl⟩

theorem Schema.mem_same_refl : ∀ ss : List Schema, ∀ s ∈ ss, s.same s = true
  | [], _, h => by simp at h
  | s :: ss, t, h => by
    rcases List.mem_cons.1 h with e | h
    · rw [e]; exact Schema.same_refl s
    · exact Schema.mem_same_refl ss t h

theorem Field.mem_same_refl : ∀ fs : List Field, ∀ f ∈ fs, f.same f = true
  | [], _, h => by simp at h
  | ⟨n, s, flags⟩ :: fs, g, h => by
    rcases List.mem_cons.1 h with e | h
    · rw [e]; simp [Field.same, Schema.same_refl s]
    · exact Field.mem_same_refl fs g h

end

end ShapeAlgebra
