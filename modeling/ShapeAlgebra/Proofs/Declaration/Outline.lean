import ShapeAlgebra.Declaration.Outline

/-!
# Outlines: legality, references, and how they are read

An outline is legal when no fault is left in it, the fields of its records have distinct names, and
its references go to declared names. The outline of plain data is given here by equations that look
the parts of a mapping up, in place of the recursion along its entries.

Results:

* `Outline.induction`: what an outline inherits from its parts holds of every outline.
* `Outline.ofData_mapping`, `FieldOutline.ofEntries_eq_map`: the parts of a mapping are looked up by
  their keys.
-/

namespace ShapeAlgebra

/-! ## Induction -/

/-- Induction over outlines. -/
theorem Outline.induction {motive : Outline → Prop}
    (leaf : ∀ s, motive (.leaf s))
    (reference : ∀ n, motive (.reference n))
    (fault : ∀ cause, motive (.fault cause))
    (sequence : ∀ e r, motive e → motive (.sequence e r))
    (union : ∀ ms, (∀ m ∈ ms, motive m) → motive (.union ms))
    (record : ∀ fs : List FieldOutline, (∀ f ∈ fs, motive f.shape) → motive (.record fs))
    (o : Outline) : motive o := by
  refine @Outline.rec motive (fun f => motive f.shape) (fun ms => ∀ m ∈ ms, motive m)
    (fun fs => ∀ f ∈ fs, motive f.shape) leaf reference fault sequence union record
    (fun _ _ _ h => h) ?_ ?_ ?_ ?_ o
  · intro m hm; cases hm
  · intro m ms hm hms; exact List.forall_mem_cons.2 ⟨hm, hms⟩
  · intro f hf; cases hf
  · intro f fs hf hfs; exact List.forall_mem_cons.2 ⟨hf, hfs⟩

/-! ## Legal outlines and their references -/

mutual

/-- Whether the outline has no fault, given which names are declared. -/
def Outline.IsLegal (declared : Text → Prop) : Outline → Prop
  | .leaf _ => True
  | .reference n => declared n
  | .fault _ => False
  | .sequence e r => Outline.IsLegal declared e ∧ ∃ b, r = .ok b
  | .union ms => Outline.AllLegal declared ms
  | .record fs => FieldOutline.AllLegal declared fs ∧ (fs.map FieldOutline.name).Nodup

/-- Whether several outlines have no fault. -/
def Outline.AllLegal (declared : Text → Prop) : List Outline → Prop
  | [] => True
  | o :: os => Outline.IsLegal declared o ∧ Outline.AllLegal declared os

/-- Whether the outlines of several fields have no fault. -/
def FieldOutline.AllLegal (declared : Text → Prop) : List FieldOutline → Prop
  | [] => True
  | ⟨_, _, o⟩ :: os => Outline.IsLegal declared o ∧ FieldOutline.AllLegal declared os

end

mutual

/-- The names that the outline refers to, from the left. -/
def Outline.references : Outline → List Text
  | .leaf _ | .fault _ => []
  | .reference n => [n]
  | .sequence e _ => Outline.references e
  | .union ms => Outline.allReferences ms
  | .record fs => FieldOutline.allReferences fs

/-- The names that several outlines refer to. -/
def Outline.allReferences : List Outline → List Text
  | [] => []
  | o :: os => Outline.references o ++ Outline.allReferences os

/-- The names that the outlines of several fields refer to. -/
def FieldOutline.allReferences : List FieldOutline → List Text
  | [] => []
  | ⟨_, _, o⟩ :: os => Outline.references o ++ FieldOutline.allReferences os

end

section

variable {declared : Text → Prop} {n : Text}

theorem Outline.allLegal_iff {os : List Outline} :
    Outline.AllLegal declared os ↔ ∀ o ∈ os, o.IsLegal declared := by
  induction os with
  | nil => simp [Outline.AllLegal]
  | cons o os ih => simp [Outline.AllLegal, ih]

theorem FieldOutline.allLegal_iff {os : List FieldOutline} :
    FieldOutline.AllLegal declared os ↔ ∀ o ∈ os, o.shape.IsLegal declared := by
  induction os with
  | nil => simp [FieldOutline.AllLegal]
  | cons o os ih =>
    obtain ⟨n, flags, o⟩ := o
    simp [FieldOutline.AllLegal, ih]

theorem Outline.mem_allReferences {os : List Outline} :
    n ∈ Outline.allReferences os ↔ ∃ o ∈ os, n ∈ o.references := by
  induction os with
  | nil => simp [Outline.allReferences]
  | cons o os ih => simp [Outline.allReferences, ih]

theorem FieldOutline.mem_allReferences {os : List FieldOutline} :
    n ∈ FieldOutline.allReferences os ↔ ∃ o ∈ os, n ∈ o.shape.references := by
  induction os with
  | nil => simp [FieldOutline.allReferences]
  | cons o os ih =>
    obtain ⟨name, flags, o⟩ := o
    simp [FieldOutline.allReferences, ih]

/-- Only the names that an outline refers to need be declared. -/
theorem Outline.IsLegal.imp {D E : Text → Prop} {o : Outline} (h : o.IsLegal D)
    (hr : ∀ n ∈ o.references, E n) : o.IsLegal E := by
  induction o using Outline.induction with
  | leaf s => trivial
  | reference n => exact hr n (List.mem_singleton_self n)
  | fault cause => exact h.elim
  | sequence e r ih => exact ⟨ih h.1 hr, h.2⟩
  | union ms ih =>
    refine Outline.allLegal_iff.2 fun m hm => ?_
    exact ih m hm (Outline.allLegal_iff.1 h m hm) fun n hn =>
      hr n (Outline.mem_allReferences.2 ⟨m, hm, hn⟩)
  | record fs ih =>
    refine ⟨FieldOutline.allLegal_iff.2 fun f hf => ?_, h.2⟩
    exact ih f hf (FieldOutline.allLegal_iff.1 h.1 f hf) fun n hn =>
      hr n (FieldOutline.mem_allReferences.2 ⟨f, hf, hn⟩)

theorem Outline.IsLegal.of_mem_references {D : Text → Prop} {o : Outline} (h : o.IsLegal D)
    (hn : n ∈ o.references) : D n := by
  induction o using Outline.induction with
  | leaf s => cases hn
  | reference m => exact List.mem_singleton.1 hn ▸ h
  | fault cause => exact h.elim
  | sequence e r ih => exact ih h.1 hn
  | union ms ih =>
    obtain ⟨m, hm, hn⟩ := Outline.mem_allReferences.1 hn
    exact ih m hm (Outline.allLegal_iff.1 h m hm) hn
  | record fs ih =>
    obtain ⟨f, hf, hn⟩ := FieldOutline.mem_allReferences.1 hn
    exact ih f hf (FieldOutline.allLegal_iff.1 h.1 f hf) hn

end

/-! ## Looking up the parts of a mapping -/

theorem Data.find?_nil (key : Text) : Data.find? [] key = none := rfl

theorem Data.find?_cons (k v : Data) (rest : List (Data × Data)) (key : Text) :
    Data.find? ((k, v) :: rest) key =
      if k.sameKey (.text key) then some v else Data.find? rest key := by
  rw [Data.find?, List.find?_cons]
  cases k.sameKey (.text key) <;> rfl

/-- What is found in a mapping is a value of it. -/
theorem Data.mem_of_find? {entries : List (Data × Data)} {key : Text} {v : Data}
    (h : Data.find? entries key = some v) : ∃ k, (k, v) ∈ entries := by
  obtain ⟨⟨k, v⟩, hp, rfl⟩ := Option.map_eq_some_iff.1 h
  exact ⟨k, List.mem_of_find?_eq_some hp⟩

section

variable (declared : Text → Bool) (around : List (Nat × Bool)) (place : Text)

theorem Outline.elementIn_eq (entries : List (Data × Data)) :
    Outline.elementIn declared around place entries =
      (Data.find? entries "element").map (Outline.ofData declared around (place ++ "[]")) := by
  induction entries with
  | nil => simp [Outline.elementIn, Data.find?_nil]
  | cons e rest ih =>
    obtain ⟨k, v⟩ := e
    rw [Outline.elementIn, ih, Data.find?_cons]
    split <;> rfl

theorem Outline.membersIn_eq (entries : List (Data × Data)) :
    Outline.membersIn declared around place entries =
      (Data.find? entries "members").bind (Outline.membersOf declared around place) := by
  induction entries with
  | nil => simp [Outline.membersIn, Data.find?_nil]
  | cons e rest ih =>
    obtain ⟨k, v⟩ := e
    rw [Outline.membersIn, ih, Data.find?_cons]
    split <;> rfl

theorem Outline.fieldsIn_eq (entries : List (Data × Data)) :
    Outline.fieldsIn declared around place entries = ((Data.find? entries "fields").map
      (Outline.fieldsOf declared around place)).getD (.ok []) := by
  induction entries with
  | nil => simp [Outline.fieldsIn, Data.find?_nil]
  | cons e rest ih =>
    obtain ⟨k, v⟩ := e
    rw [Outline.fieldsIn, ih, Data.find?_cons]
    split <;> rfl

theorem Outline.shapeIn_eq (entries : List (Data × Data)) :
    Outline.shapeIn declared around place entries =
      (Data.find? entries "shape").map (Outline.ofData declared around place) := by
  induction entries with
  | nil => simp [Outline.shapeIn, Data.find?_nil]
  | cons e rest ih =>
    obtain ⟨k, v⟩ := e
    rw [Outline.shapeIn, ih, Data.find?_cons]
    split <;> rfl

/-- What a mapping says of a shape, its parts looked up by their keys. -/
def Outline.ofEntries (ownsReadonly : Bool) (entries : List (Data × Data)) : Outline :=
  .ofParts place ownsReadonly entries
    (fun _ => (Data.find? entries "element").map (Outline.ofData declared around (place ++ "[]")))
    (fun _ => (Data.find? entries "members").bind (Outline.membersOf declared around place))
    (fun _ => ((Data.find? entries "fields").map
      (Outline.fieldsOf declared around place)).getD (.ok []))

theorem Outline.ofData_mapping (entries : List (Data × Data)) :
    Outline.ofData declared around place (.mapping entries) =
      Outline.ofEntries declared around place true entries := by
  simp only [Outline.ofData, Outline.elementIn_eq, Outline.membersIn_eq, Outline.fieldsIn_eq,
    Outline.ofEntries]

theorem Outline.membersFrom_eq_mapIdx (index : Nat) (ms : List Data) :
    Outline.membersFrom declared around place index ms = ms.mapIdx fun i m =>
      Outline.ofData declared around (place ++ "|" ++ Text.ofNat (index + i)) m := by
  induction ms generalizing index with
  | nil => simp [Outline.membersFrom]
  | cons m ms ih =>
    rw [Outline.membersFrom, ih, List.mapIdx_cons, Nat.add_zero]
    refine congrArg (List.cons _) (congrArg (List.mapIdx · ms) ?_)
    funext i k
    rw [Nat.add_assoc, Nat.add_comm 1 i]

theorem FieldOutline.ofEntries_eq_map (entries : List (Data × Data)) :
    FieldOutline.ofEntries declared around place entries = entries.map fun e =>
      if e.1.isShowable then
        FieldOutline.ofData declared around e.1.display (place ++ "." ++ e.1.display) e.2
      else ⟨[], {}, .fault .integerTooLong⟩ := by
  induction entries with
  | nil => simp [FieldOutline.ofEntries]
  | cons e rest ih =>
    obtain ⟨k, v⟩ := e
    rw [FieldOutline.ofEntries, ih, List.map_cons]

end

end ShapeAlgebra
