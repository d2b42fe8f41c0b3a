import ShapeAlgebra.Schema

/-!
# Induction over schemas

A schema nests schemas in the members of unions and in the fields of records, so that an argument
about all schemas needs its assumption for every member and for every field. The same two lists
stand in the way of saying that something holds at every depth.

Results:

* `Schema.induction`: what a node inherits from its members and from the shapes of its fields holds
  of every schema.
* `Schema.everywhere_union`, `Schema.everywhere_record`, `Schema.everywhere_exclusive`: a property
  of nodes holds at every depth when it holds of the node and at every depth of its parts.
-/

namespace ShapeAlgebra.Schema

/-- Induction over schemas: unions may use the claim for each member, records for the shape of each
field, and exclusive unions for the records that are their variants. -/
theorem induction {motive : Schema → Prop}
    (primitive : ∀ k, motive (.primitive k))
    (opaqueLeaf : ∀ k n, motive (.opaqueLeaf k n))
    (sequence : ∀ e r, motive e → motive (.sequence e r))
    (union : ∀ ms, (∀ m ∈ ms, motive m) → motive (.union ms))
    (record : ∀ fs : List Field, (∀ f ∈ fs, motive f.shape) → motive (.record fs))
    (exclusive : ∀ (a b : List Field) x y, motive (.record a) → motive (.record b) →
      motive (.exclusive a b x y))
    (s : Schema) : motive s := by
  -- The other three motives say the same of a field, of all members and of all fields.
  refine @Schema.rec motive (fun f => motive f.shape) (fun ms => ∀ m ∈ ms, motive m)
    (fun fs => ∀ f ∈ fs, motive f.shape) primitive opaqueLeaf sequence union record
    (fun a b x y ha hb => exclusive a b x y (record a ha) (record b hb))
    (fun _ _ _ h => h) ?_ ?_ ?_ ?_ s
  · intro m hm; cases hm
  · intro m ms hm hms; exact List.forall_mem_cons.2 ⟨hm, hms⟩
  · intro f hf; cases hf
  · intro f fs hf hfs; exact List.forall_mem_cons.2 ⟨hf, hfs⟩

/-! ## Properties at every depth -/

mutual

/-- Whether every node of the schema satisfies `p`: the schema itself, its element or its members,
the shapes of its fields, both variants of an exclusive union, and so on down to the leaves. -/
def Everywhere (p : Schema → Prop) : Schema → Prop
  | .primitive k => p (.primitive k)
  | .opaqueLeaf k n => p (.opaqueLeaf k n)
  | .sequence e r => p (.sequence e r) ∧ Everywhere p e
  | .union ms => p (.union ms) ∧ AllEverywhere p ms
  | .record fs => p (.record fs) ∧ FieldsEverywhere p fs
  | .exclusive a b x y => p (.exclusive a b x y) ∧ (p (.record a) ∧ FieldsEverywhere p a) ∧
      p (.record b) ∧ FieldsEverywhere p b

/-- Whether every node of several schemas satisfies `p`. -/
def AllEverywhere (p : Schema → Prop) : List Schema → Prop
  | [] => True
  | s :: ss => Everywhere p s ∧ AllEverywhere p ss

/-- Whether every node of the shapes of several fields satisfies `p`. -/
def FieldsEverywhere (p : Schema → Prop) : List Field → Prop
  | [] => True
  | ⟨_, s, _⟩ :: fs => Everywhere p s ∧ FieldsEverywhere p fs

end

mutual

/-- A property of nodes that can be decided can be decided at every depth. -/
def decideEverywhere (p : Schema → Prop) [DecidablePred p] (s : Schema) :
    Decidable (s.Everywhere p) :=
  match s with
  | .primitive k => inferInstanceAs (Decidable (p (.primitive k)))
  | .opaqueLeaf k n => inferInstanceAs (Decidable (p (.opaqueLeaf k n)))
  | .sequence e r =>
    have := decideEverywhere p e
    inferInstanceAs (Decidable (p (.sequence e r) ∧ e.Everywhere p))
  | .union ms =>
    have := decideAllEverywhere p ms
    inferInstanceAs (Decidable (p (.union ms) ∧ AllEverywhere p ms))
  | .record fs =>
    have := decideFieldsEverywhere p fs
    inferInstanceAs (Decidable (p (.record fs) ∧ FieldsEverywhere p fs))
  | .exclusive a b x y =>
    have := decideFieldsEverywhere p a
    have := decideFieldsEverywhere p b
    inferInstanceAs (Decidable (p (.exclusive a b x y) ∧
      (p (.record a) ∧ FieldsEverywhere p a) ∧ p (.record b) ∧ FieldsEverywhere p b))

/-- The same for several schemas. -/
def decideAllEverywhere (p : Schema → Prop) [DecidablePred p] (ss : List Schema) :
    Decidable (AllEverywhere p ss) :=
  match ss with
  | [] => inferInstanceAs (Decidable True)
  | s :: ss =>
    have := decideEverywhere p s
    have := decideAllEverywhere p ss
    inferInstanceAs (Decidable (s.Everywhere p ∧ AllEverywhere p ss))

/-- The same for the shapes of several fields. -/
def decideFieldsEverywhere (p : Schema → Prop) [DecidablePred p] (fs : List Field) :
    Decidable (FieldsEverywhere p fs) :=
  match fs with
  | [] => inferInstanceAs (Decidable True)
  | ⟨_, s, _⟩ :: fs =>
    have := decideEverywhere p s
    have := decideFieldsEverywhere p fs
    inferInstanceAs (Decidable (s.Everywhere p ∧ FieldsEverywhere p fs))

end

instance (p : Schema → Prop) [DecidablePred p] (s : Schema) : Decidable (s.Everywhere p) :=
  decideEverywhere p s

section

variable {p : Schema → Prop}

theorem allEverywhere_iff {ss : List Schema} :
    AllEverywhere p ss ↔ ∀ s ∈ ss, s.Everywhere p := by
  induction ss with
  | nil => simp [AllEverywhere]
  | cons s ss ih => simp [AllEverywhere, ih]

theorem fieldsEverywhere_iff {fs : List Field} :
    FieldsEverywhere p fs ↔ ∀ f ∈ fs, f.shape.Everywhere p := by
  induction fs with
  | nil => simp [FieldsEverywhere]
  | cons f fs ih =>
    obtain ⟨n, s, flags⟩ := f
    simp [FieldsEverywhere, ih]

@[simp] theorem everywhere_primitive {k : PrimitiveKind} :
    (Schema.primitive k).Everywhere p ↔ p (.primitive k) := by
  simp [Everywhere]

@[simp] theorem everywhere_opaqueLeaf {k : OpaqueKind} {n : Option Text} :
    (Schema.opaqueLeaf k n).Everywhere p ↔ p (.opaqueLeaf k n) := by
  simp [Everywhere]

@[simp] theorem everywhere_sequence {e : Schema} {r : Bool} :
    (Schema.sequence e r).Everywhere p ↔ p (.sequence e r) ∧ e.Everywhere p := by
  simp [Everywhere]

@[simp] theorem everywhere_union {ms : List Schema} :
    (Schema.union ms).Everywhere p ↔ p (.union ms) ∧ ∀ m ∈ ms, m.Everywhere p := by
  rw [Everywhere, allEverywhere_iff]

@[simp] theorem everywhere_record {fs : List Field} :
    (Schema.record fs).Everywhere p ↔ p (.record fs) ∧ ∀ f ∈ fs, f.shape.Everywhere p := by
  rw [Everywhere, fieldsEverywhere_iff]

@[simp] theorem everywhere_exclusive {a b : List Field} {x y : KeySet} :
    (Schema.exclusive a b x y).Everywhere p ↔ p (.exclusive a b x y) ∧
      (Schema.record a).Everywhere p ∧ (Schema.record b).Everywhere p := by
  simp only [Everywhere]

end

end ShapeAlgebra.Schema
