import ShapeAlgebra.Record.Merge

/-!
# Where the fields of records come from

Selections and merges of records take their fields from the records they are applied to, and records
that are built take them from their entries. No name comes twice in what they give.

Results:

* `KeySource.keySet_of_items`: the set of names that a collection of texts stands for.
* `Schema.IsSelection`: what all selections of fields have in common.
* `Record.mem_override`, `Record.mem_assign`: the fields of merged records.
* `Record.nodup_names_assign`: merging brings no name twice into a record.
* `Record.mem_ofShapes`: the fields of a record that is built.
-/

namespace ShapeAlgebra

/-- A result is reached in steps that all have results. -/
theorem exists_of_bind_eq_ok {ε α β : Type} {x : Except ε α} {f : α → Except ε β} {b : β}
    (h : x >>= f = .ok b) : ∃ a, x = .ok a ∧ f a = .ok b := by
  cases x with
  | error e => cases h
  | ok a => exact ⟨a, rfl, h⟩

/-- A failure is that of the first step or of what follows it. -/
theorem eq_error_or_of_bind_eq_error {ε α β : Type} {x : Except ε α} {g : α → Except ε β} {e : ε}
    (h : (x >>= g) = .error e) : x = .error e ∨ ∃ a, x = .ok a ∧ g a = .error e := by
  cases x with
  | error e' => cases h; exact .inl rfl
  | ok a => exact .inr ⟨a, rfl, h⟩

/-! ## Names given as data -/

namespace KeySource

theorem namesOf_texts (ns : List Text) : namesOf (ns.map .text) = .ok ns := by
  induction ns with
  | nil => rfl
  | cons n ns ih =>
    rw [List.map_cons, namesOf, ih]
    rfl

/-- Data whose items are texts stand for the set of these. -/
theorem keySet_of_items {d : Data} {ns : List Text} (h : d.items? = some (ns.map .text)) :
    keySet (.data d) = .ok (KeySet.ofList ns) := by
  have hkeys : firstUnhashable (ns.map .text) = none := by
    rw [firstUnhashable, List.find?_eq_none]
    intro d hd
    obtain ⟨n, -, rfl⟩ := List.mem_map.1 hd
    exact Bool.not_eq_true _ ▸ rfl
  rw [keySet, h]
  · simp only [hkeys, namesOf_texts]
    rfl
  · rintro t rfl
    cases h

end KeySource

/-! ## Selections -/

namespace Schema

theorem eq_record_of_requireRecord {s : Schema} {operation : RecordOperation} {r : Record}
    (h : s.requireRecord operation = .ok r) : s = .record r := by
  cases s with
  | record fs => cases h; rfl
  | _ => cases h

/-- The second is a record of some fields of the first, in their order. -/
def IsSelection (s : Schema) (picked : Record) : Prop :=
  ∃ (r : Record) (ks : KeySet), s = .record r ∧ picked = r.select ks

variable {s : Schema} {picked : Record}

theorem isSelection_pickByKey {names : KeySource} (h : s.pickByKey names = .ok picked) :
    s.IsSelection picked := by
  obtain ⟨r, hr, h⟩ := exists_of_bind_eq_ok h
  obtain ⟨wanted, -, h⟩ := exists_of_bind_eq_ok h
  dsimp only at h
  split at h
  · cases h
    exact ⟨r, wanted, eq_record_of_requireRecord hr, rfl⟩
  · cases h

/-- A selection that finds the names of the fields to keep, and keeps these. -/
theorem isSelection_of_select {operation : RecordOperation}
    (keep : Record → Except Failure KeySet)
    (h : (do let r ← s.requireRecord operation; let ks ← keep r; return r.select ks) =
      .ok picked) : s.IsSelection picked := by
  obtain ⟨r, hr, h⟩ := exists_of_bind_eq_ok h
  obtain ⟨ks, -, h⟩ := exists_of_bind_eq_ok h
  cases h
  exact ⟨r, ks, eq_record_of_requireRecord hr, rfl⟩

theorem isSelection_omitByKey {names : KeySource} (h : s.omitByKey names = .ok picked) :
    s.IsSelection picked :=
  isSelection_of_select (fun r => do return r.keys.sdiff (← names.keySet)) (by
    obtain ⟨r, hr, h⟩ := exists_of_bind_eq_ok h
    obtain ⟨ks, hks, h⟩ := exists_of_bind_eq_ok h
    rw [hr, hks]
    exact h)

theorem isSelection_pickByValue {p : Predicate} (h : s.pickByValue p = .ok picked) :
    s.IsSelection picked :=
  isSelection_of_select (fun r => .ok (r.keysWhere p)) h

theorem isSelection_omitByValue {p : Predicate} (h : s.omitByValue p = .ok picked) :
    s.IsSelection picked :=
  isSelection_of_select (fun r => .ok (r.keys.sdiff (r.keysWhere p))) h

theorem isSelection_objectIntersect {other : KeySource}
    (h : s.objectIntersect other = .ok picked) : s.IsSelection picked :=
  isSelection_of_select (fun r => KeySource.intersect (.schema (.record r)) other) h

theorem isSelection_objectSubtract {other : KeySource}
    (h : s.objectSubtract other = .ok picked) : s.IsSelection picked :=
  isSelection_of_select (fun r => KeySource.subtract (.schema (.record r)) other) h

theorem isSelection_objectComplement {subset : KeySource}
    (h : s.objectComplement subset = .ok picked) : s.IsSelection picked :=
  isSelection_of_select (fun r => KeySource.complement (.schema (.record r)) subset) h

end Schema

namespace Record

theorem nodup_names_select {r : Record} (h : r.names.Nodup) (ks : KeySet) :
    (r.select ks).names.Nodup :=
  h.sublist (List.filter_sublist.map Field.name)

/-! ## Merges -/

theorem mem_override {base other : Record} {f : Field} (h : f ∈ base.override other) :
    f ∈ base ∨ f ∈ other := by
  obtain ⟨g, hg, rfl⟩ := List.mem_map.1 h
  cases ho : other.find? g.name with
  | none => exact .inl hg
  | some k => exact .inr (find?_eq_some ho).2

theorem mem_assign {base other : Record} {f : Field} (h : f ∈ base.assign other) :
    f ∈ base ∨ f ∈ other := by
  rcases List.mem_append.1 h with h | h
  · exact mem_override h
  · exact .inr (mem_select.1 h).1

theorem nodup_names_override {base : Record} (h : base.names.Nodup) (other : Record) :
    (base.override other).names.Nodup := by
  rw [names_override]
  exact h

theorem nodup_names_assign {base other : Record} (hb : base.names.Nodup)
    (ho : other.names.Nodup) : (base.assign other).names.Nodup := by
  have hsplit : (base.assign other).names = base.names ++ (base.added other).names := by
    rw [assign, names, List.map_append]
    exact congrArg (· ++ _) (names_override base other)
  rw [hsplit, List.nodup_append]
  refine ⟨hb, nodup_names_select ho _, ?_⟩
  rintro m hm n hn rfl
  obtain ⟨f, hf, rfl⟩ := List.mem_map.1 hn
  have hnot : f.name ∉ base.keys := (KeySet.mem_sdiff.1 (mem_select.1 hf).2).2
  exact hnot (KeySet.mem_ofList.2 hm)

end Record

/-! ## Building -/

/-- The shape that an entry gives. -/
def Entry.shape (e : Entry) : Schema :=
  match e.content with
  | .field s _ => s
  | .shape s => s

theorem Entry.shape_wrapped (e : Entry) : e.wrapped.shape = e.shape := by
  obtain ⟨n, c⟩ := e
  cases c <;> rfl

theorem Entry.shape_toField {e : Entry} {f : Field} (h : e.toField = .ok f) :
    f.shape = e.shape := by
  obtain ⟨n, c⟩ := e
  cases n with
  | text n =>
    cases c with
    | field s flags => cases h; rfl
    | shape s => cases h
  | _ => cases h

namespace Record

/-- No name comes twice in what is built, nor one that was seen before. -/
theorem ofEntriesFrom_eq_ok {seen : List Text} {es : List Entry} {r : Record}
    (h : ofEntriesFrom seen es = .ok r) : r.names.Nodup ∧ (∀ f ∈ r, f.name ∉ seen) ∧
      ∀ f ∈ r, ∃ e ∈ es, e.toField = .ok f := by
  induction es generalizing seen r with
  | nil =>
    cases h
    simp [names]
  | cons e es ih =>
    rw [ofEntriesFrom] at h
    obtain ⟨f, hf, h⟩ := exists_of_bind_eq_ok h
    dsimp only at h
    split at h
    · cases h
    · next hseen =>
      obtain ⟨fs, hfs, h⟩ := exists_of_bind_eq_ok h
      cases h
      obtain ⟨hnd, hnot, hfrom⟩ := ih hfs
      have hfresh : f.name ∉ Record.names fs := by
        intro hmem
        obtain ⟨g, hg, hname⟩ := List.mem_map.1 hmem
        exact hnot g hg (hname ▸ List.mem_cons_self ..)
      refine ⟨List.nodup_cons.2 ⟨hfresh, hnd⟩, List.forall_mem_cons.2 ⟨hseen, ?_⟩,
        List.forall_mem_cons.2 ⟨⟨e, List.mem_cons_self .., hf⟩, ?_⟩⟩
      · exact fun g hg hmem => hnot g hg (List.mem_cons_of_mem _ hmem)
      · intro g hg
        obtain ⟨e', he', hg⟩ := hfrom g hg
        exact ⟨e', List.mem_cons_of_mem _ he', hg⟩

/-- A record that is built has distinct names, and the shapes of its entries. -/
theorem mem_ofShapes {es : List Entry} {r : Record} (h : ofShapes es = .ok r) :
    r.names.Nodup ∧ ∀ f ∈ r, ∃ e ∈ es, f.shape = e.shape := by
  obtain ⟨hnd, -, hfrom⟩ := ofEntriesFrom_eq_ok h
  refine ⟨hnd, fun f hf => ?_⟩
  obtain ⟨w, hw, hfield⟩ := hfrom f hf
  obtain ⟨e, he, rfl⟩ := List.mem_map.1 hw
  exact ⟨e, he, by rw [Entry.shape_toField hfield, Entry.shape_wrapped]⟩

end Record

end ShapeAlgebra
