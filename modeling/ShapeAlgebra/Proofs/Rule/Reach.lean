import ShapeAlgebra.Proofs.Rule.Composition

/-!
# What a rule reaches and what it leaves alone

After a rule every field at every depth has the flag that the rule sets, no slot holds a primitive
that the rule strips, and every record stands where it stood, with its fields in their order. The
rules that strip nothing change no more than their own flag: once the flag is cleared everywhere,
nothing is left of the change.

What stands where is told by the way down to it, through fields and elements. Unions do not count as
steps on the way, since a rule joins members and puts a single one in the place of its union.

Results:

* `Rule.everywhere_transform`: what every node is like after a rule.
* `Behavior.exists_at_of_transform`, `Behavior.exists_at_transform`: the records after a rule are
  what it makes of those before it.
* `Schema.cleared_deep`: a rule that strips nothing changes its own flag alone.
* `Schema.deep_reaches`: all of this together.
-/

namespace ShapeAlgebra

/-! ## Every node -/

namespace Rule

/-- Whether the flags of a field are as the rule sets them. -/
def Sets : Rule → Flags → Prop
  | .readonly, f => f.readonly = true
  | .partialize, f => f.optional = true
  | .required, f => f.optional = false
  | .nonNullable, f => f.nullable = false

/-- The primitive kinds that the rule leaves in no slot. -/
def barred : Rule → List PrimitiveKind
  | .readonly | .partialize => []
  | .required => [.undefined]
  | .nonNullable => [.null, .undefined]

/-- Whether the shape in a slot neither is a barred primitive nor has one among its members. -/
def Clears (r : Rule) (slot : Schema) : Prop := ∀ k ∈ r.barred, .primitive k ∉ slot.members

/-- Whether a node is as the rule leaves it. -/
def NodeDone (r : Rule) : Schema → Prop
  | .record fs => ∀ f ∈ fs, r.Sets f.flags ∧ r.Clears f.shape
  | .sequence e isReadonly => (r = .readonly → isReadonly = true) ∧ r.Clears e
  | _ => True

theorem barred_eq_nil_iff {r : Rule} : r.barred = [] ↔ r = .readonly ∨ r = .partialize := by
  cases r <;> decide

theorem sets_flags (r : Rule) (f : Flags) : r.Sets (r.behavior.flags f) := by
  cases r <;> rfl

theorem barred_eq (r : Rule) : r.barred = r.behavior.stripped := by
  cases r <;> rfl

end Rule

namespace Schema

theorem mem_members_unionOf {ss : List Schema} (h : ∀ s ∈ ss, s.isUnion = false) {m : Schema}
    (hm : m ∈ (unionOf ss).members) : m ∈ ss := by
  obtain ⟨s, hs, hu⟩ | ⟨-, hu⟩ := unionOf_of_flat h
  · have hmem : s ∈ ss := mem_distinct (by simp [hs])
    rw [hu, members_of_isUnion_eq_false (h s hmem)] at hm
    exact List.mem_singleton.1 hm ▸ hmem
  · rw [hu] at hm
    exact mem_distinct hm

theorem everywhere_unionOf {p : Schema → Prop} {ss : List Schema}
    (hflat : ∀ s ∈ ss, s.isUnion = false) (hunion : ∀ ms, p (.union ms))
    (h : ∀ s ∈ ss, s.Everywhere p) : (unionOf ss).Everywhere p := by
  obtain ⟨s, hs, hu⟩ | ⟨-, hu⟩ := unionOf_of_flat hflat
  · rw [hu]
    exact h s (mem_distinct (by simp [hs]))
  · rw [hu]
    exact everywhere_union.2 ⟨hunion _, fun m hm => h m (mem_distinct hm)⟩

end Schema

namespace Behavior

variable (b : Behavior)

/-- No alternative of what stands in a slot after a rule is stripped by it. -/
theorem isKind_of_mem_members {s m : Schema} (h : s.WellFormed)
    (hm : m ∈ (b.transform true s).members) : m.isKind b.stripped = false := by
  rw [b.transform_eq_unionOf] at hm
  obtain ⟨q, hq, rfl⟩ := List.mem_map.1
    (Schema.mem_members_unionOf (b.isUnion_of_mem_transformed h.flat_parts) hm)
  obtain ⟨hq, hk⟩ := List.mem_filter.1 hq
  rw [b.isKind_transform (h.flat_parts q hq)]
  simpa [keeps] using hk

end Behavior

namespace Rule

theorem clears_transform (r : Rule) {s : Schema} (h : s.WellFormed) :
    r.Clears (r.behavior.transform true s) := by
  intro k hk hm
  have hnot := r.behavior.isKind_of_mem_members h hm
  rw [← r.barred_eq] at hnot
  simp [Schema.isKind, hk] at hnot

theorem everywhere_transform (r : Rule) {s : Schema} (h : s.WellFormed) (inSlot : Bool) :
    (r.behavior.transform inSlot s).Everywhere r.NodeDone := by
  induction s using Schema.partsInduction generalizing inSlot with
  | primitive k =>
    rw [Behavior.transform]
    split <;> simp [Schema.never, NodeDone]
  | opaqueLeaf k n => simp [Behavior.transform, NodeDone]
  | sequence e ro ih =>
    have he := Schema.wellFormed_sequence.1 h
    refine Schema.everywhere_sequence.2 ⟨⟨?_, r.clears_transform he⟩, ih he true⟩
    rintro rfl
    rfl
  | record fs ih =>
    have hfs := (Schema.wellFormed_record.1 h).2
    rw [Behavior.transform, Behavior.transformFields_eq_map]
    refine Schema.everywhere_record.2 ⟨List.forall_mem_map.2 fun f hf => ?_,
      List.forall_mem_map.2 fun f hf => ih f hf (hfs f hf) true⟩
    exact ⟨r.sets_flags f.flags, r.clears_transform (hfs f hf)⟩
  | union s hu ih =>
    rw [Behavior.transform_eq_unionOf]
    refine Schema.everywhere_unionOf (r.behavior.isUnion_of_mem_transformed h.flat_parts)
      (fun _ => trivial) (List.forall_mem_map.2 fun m hm => ?_)
    have hm := (List.mem_filter.1 hm).1
    exact ih m hm (h.of_mem_parts hm).2 false

end Rule

/-! ## Records and their places -/

/-- A step on the way down into a schema. -/
inductive SchemaStep where
  | field (name : Text)
  | element
deriving DecidableEq, Repr

namespace Schema

/-- What stands at the end of a way down into a schema. On the way every member of a union can be
taken, and none of them counts as a step. -/
inductive At : Schema → List SchemaStep → Schema → Prop
  | here {s : Schema} : s.isUnion = false → At s [] s
  | part {s m t : Schema} {way : List SchemaStep} : s.isUnion = true → m ∈ s.parts → At m way t →
      At s way t
  | element {e t : Schema} {r : Bool} {way : List SchemaStep} : At e way t →
      At (.sequence e r) (.element :: way) t
  | field {fs : List Field} {f : Field} {t : Schema} {way : List SchemaStep} : f ∈ fs →
      At f.shape way t → At (.record fs) (.field f.name :: way) t

theorem At.field_of_name {fs : List Field} {f : Field} {n : Text} {t : Schema}
    {way : List SchemaStep} (hf : f ∈ fs) (hn : f.name = n) (h : f.shape.At way t) :
    (Schema.record fs).At (.field n :: way) t := hn ▸ .field hf h

theorem At.unionOf {ss : List Schema} (hflat : ∀ s ∈ ss, s.isUnion = false) {t : Schema}
    {way : List SchemaStep} (h : (unionOf ss).At way t) : ∃ s ∈ ss, s.At way t := by
  obtain ⟨s, hs, hu⟩ | ⟨-, hu⟩ := unionOf_of_flat hflat
  · rw [hu] at h
    exact ⟨s, mem_distinct (by simp [hs]), h⟩
  · rw [hu] at h
    cases h with
    | here h => cases h
    | part _ hm h => exact ⟨_, mem_distinct hm, h⟩

/-- Where a schema has something, a schema that is the same has its like. -/
theorem At.of_same {s s' t : Schema} {way : List SchemaStep} (h : s.At way t)
    (hs : s.same s' = true) : ∃ t', s'.At way t' ∧ t.same t' = true := by
  induction h generalizing s' with
  | here hu => exact ⟨s', .here (isUnion_of_same hs ▸ hu), hs⟩
  | part hu hm _ ih =>
    obtain ⟨n, hn, hmn⟩ := exists_same_part hs hm
    obtain ⟨t', ht, hsame⟩ := ih hmn
    exact ⟨t', .part (isUnion_of_same hs ▸ hu) hn ht, hsame⟩
  | element _ ih =>
    obtain ⟨e', rfl, he⟩ := exists_of_same_sequence hs
    obtain ⟨t', ht, hsame⟩ := ih he
    exact ⟨t', .element ht, hsame⟩
  | field hf _ ih =>
    obtain ⟨gs, rfl, h₁, -⟩ := exists_of_same_record hs
    obtain ⟨g, hg, hfg⟩ := h₁ _ hf
    obtain ⟨hname, -, hshape⟩ := Field.same_iff.1 hfg
    obtain ⟨t', ht, hsame⟩ := ih hshape
    exact ⟨t', .field_of_name hg hname.symm ht, hsame⟩

/-- The union of several schemas has, up to order, what each of them has. -/
theorem At.of_mem_unionOf {ss : List Schema} (hflat : ∀ s ∈ ss, s.isUnion = false) {s t : Schema}
    {way : List SchemaStep} (hs : s ∈ ss) (h : s.At way t) :
    ∃ t', (Schema.unionOf ss).At way t' ∧ t.same t' = true := by
  obtain ⟨u, hu, hsu⟩ := exists_same_mem_distinct hs
  obtain ⟨t', ht, hsame⟩ := h.of_same hsu
  obtain ⟨v, hv, hunion⟩ | ⟨-, hunion⟩ := unionOf_of_flat hflat
  · rw [hv] at hu
    rw [hunion, ← List.mem_singleton.1 hu]
    exact ⟨t', ht, hsame⟩
  · rw [hunion]
    exact ⟨t', .part rfl hu ht, hsame⟩

end Schema

namespace Behavior

variable (b : Behavior)

/-- A record after a rule is what the rule makes of a record in its place. -/
theorem exists_at_of_transform {s : Schema} (h : s.WellFormed) {inSlot : Bool}
    {way : List SchemaStep} {gs : Record} (hat : (b.transform inSlot s).At way (.record gs)) :
    ∃ fs, s.At way (.record fs) ∧ gs = b.transformFields fs := by
  induction s using Schema.partsInduction generalizing inSlot way with
  | primitive k =>
    rw [transform] at hat
    split at hat
    · cases hat with
      | part _ hm => cases hm
    · cases hat with
      | part hu => cases hu
  | opaqueLeaf k n =>
    cases hat with
    | part hu => cases hu
  | sequence e r ih =>
    cases hat with
    | part hu => cases hu
    | element hat =>
      obtain ⟨fs, hfs, hgs⟩ := ih (Schema.wellFormed_sequence.1 h) hat
      exact ⟨fs, .element hfs, hgs⟩
  | record fs ih =>
    rw [transform] at hat
    generalize hchanged : b.transformFields fs = changed at hat
    cases hat with
    | here => exact ⟨fs, .here rfl, hchanged.symm⟩
    | part hu => cases hu
    | field hg hat =>
      rw [← hchanged, transformFields_eq_map] at hg
      obtain ⟨f, hf, rfl⟩ := List.mem_map.1 hg
      obtain ⟨fs', hfs', hgs⟩ := ih f hf ((Schema.wellFormed_record.1 h).2 f hf) hat
      exact ⟨fs', .field_of_name hf rfl hfs', hgs⟩
  | union s hu ih =>
    rw [b.transform_eq_unionOf] at hat
    obtain ⟨_, hn, hat⟩ := Schema.At.unionOf (b.isUnion_of_mem_transformed h.flat_parts) hat
    obtain ⟨m, hkept, rfl⟩ := List.mem_map.1 hn
    have hm := (List.mem_filter.1 hkept).1
    obtain ⟨fs, hfs, hgs⟩ := ih m hm (h.of_mem_parts hm).2 hat
    exact ⟨fs, .part hu hm hfs, hgs⟩

/-- What a rule makes of a record is, up to order, in the place of the record. -/
theorem exists_at_transform {s : Schema} (h : s.WellFormed) (inSlot : Bool)
    {way : List SchemaStep} {fs : Record} (hat : s.At way (.record fs)) :
    ∃ gs, (b.transform inSlot s).At way (.record gs) ∧
      (Schema.record (b.transformFields fs)).same (.record gs) = true := by
  generalize ht : Schema.record fs = t at hat
  induction hat generalizing inSlot with
  | here => subst ht; exact ⟨_, .here rfl, Schema.same_refl _⟩
  | @part s m _ way hu hm hat ih =>
    obtain ⟨gs, hgs, hsame⟩ := ih (h.of_mem_parts hm).2 false ht
    -- A primitive holds no record, so that this member is kept.
    have hkept : b.keeps inSlot m = true := by
      subst ht
      cases m with
      | primitive k =>
        cases hat with
        | part hu => cases hu
      | _ => simp [keeps, Schema.isKind]
    obtain ⟨t', ht', hsame'⟩ := Schema.At.of_mem_unionOf (b.isUnion_of_mem_transformed h.flat_parts)
      (List.mem_map_of_mem (List.mem_filter.2 ⟨hm, hkept⟩)) hgs
    obtain ⟨gs', rfl, -⟩ := Schema.exists_of_same_record hsame'
    rw [b.transform_eq_unionOf inSlot s]
    exact ⟨gs', ht', Schema.same_trans hsame hsame'⟩
  | element _ ih =>
    obtain ⟨gs, hgs, hsame⟩ := ih (Schema.wellFormed_sequence.1 h) true ht
    exact ⟨gs, .element hgs, hsame⟩
  | @field fs' f _ way hf _ ih =>
    obtain ⟨gs, hgs, hsame⟩ := ih ((Schema.wellFormed_record.1 h).2 _ hf) true ht
    refine ⟨gs, ?_, hsame⟩
    rw [transform, transformFields_eq_map]
    exact .field_of_name (List.mem_map_of_mem hf) rfl hgs

end Behavior

/-! ## The frame -/

/-- The flags of a field with the one that the rule sets put back to false. -/
def Rule.clear : Rule → Flags → Flags
  | .readonly, f => { f with readonly := false }
  | .partialize, f | .required, f => { f with optional := false }
  | .nonNullable, f => { f with nullable := false }

namespace Schema

mutual

/-- The schema with the flag that the rule sets put back to false everywhere, and with every union
built anew. -/
def cleared (r : Rule) : Schema → Schema
  | .primitive k => .primitive k
  | .opaqueLeaf k n => .opaqueLeaf k n
  | .sequence e isReadonly =>
    .sequence (cleared r e) (if r = .readonly then false else isReadonly)
  | .union ms => .unionOf (clearedMembers r ms)
  | .record fs => .record (clearedFields r fs)
  | .exclusive first second _ _ =>
    .unionOf [.record (clearedFields r first), .record (clearedFields r second)]

/-- The members of a union with the flag put back. -/
def clearedMembers (r : Rule) : List Schema → List Schema
  | [] => []
  | m :: ms => cleared r m :: clearedMembers r ms

/-- The fields of a record with the flag put back, in them and in their shapes. -/
def clearedFields (r : Rule) : List Field → List Field
  | [] => []
  | ⟨n, s, f⟩ :: fs => ⟨n, cleared r s, r.clear f⟩ :: clearedFields r fs

end

theorem clearedMembers_eq_map (r : Rule) (ms : List Schema) :
    clearedMembers r ms = ms.map (cleared r) := by
  induction ms with
  | nil => rfl
  | cons m ms ih => rw [clearedMembers, ih, List.map_cons]

theorem clearedFields_eq_map (r : Rule) (fs : List Field) :
    clearedFields r fs = fs.map fun f => ⟨f.name, f.shape.cleared r, r.clear f.flags⟩ := by
  induction fs with
  | nil => rfl
  | cons f fs ih =>
    obtain ⟨n, s, flags⟩ := f
    simp [clearedFields, ih]

end Schema

namespace Rule

/-- The behavior that puts the flag of the rule back and does nothing else. -/
def clearing : Rule → Behavior
  | .readonly => { readonly := some false }
  | .partialize | .required => { optional := some false }
  | .nonNullable => { nullable := some false }

@[simp] theorem stripped_clearing (r : Rule) : r.clearing.stripped = [] := by
  cases r <;> rfl

theorem flags_clearing (r : Rule) (f : Flags) : r.clearing.flags f = r.clear f := by
  cases r <;> rfl

theorem readonly_clearing (r : Rule) (isReadonly : Bool) :
    r.clearing.readonly.getD isReadonly = if r = .readonly then false else isReadonly := by
  cases r <;> rfl

theorem cleared_eq_transform (r : Rule) (s : Schema) (inSlot : Bool) :
    s.cleared r = r.clearing.transform inSlot s := by
  induction s using Schema.induction generalizing inSlot with
  | primitive k => simp [Schema.cleared, Behavior.transform]
  | opaqueLeaf k n => rfl
  | sequence e isReadonly ih =>
    rw [Schema.cleared, Behavior.transform, readonly_clearing, ih true]
  | union ms ih =>
    have hkeep : ms.filter (fun m => !(inSlot && m.isKind r.clearing.stripped)) = ms :=
      List.filter_eq_self.2 fun m _ => by cases m <;> simp [Schema.isKind]
    rw [Schema.cleared, Behavior.transform, Schema.clearedMembers_eq_map,
      Behavior.transformMembers_eq_map, hkeep]
    exact congrArg _ (List.map_congr_left fun m hm => ih m hm false)
  | record fs ih =>
    rw [Schema.cleared, Behavior.transform, Schema.clearedFields_eq_map,
      Behavior.transformFields_eq_map]
    exact congrArg _ (List.map_congr_left fun f hf => by rw [ih f hf true, flags_clearing])
  | exclusive first second x y ihf ihs =>
    have hf := ihf false
    have hs := ihs false
    rw [Schema.cleared, Behavior.transform] at hf hs
    rw [Schema.cleared, Behavior.transform, hf, hs]

/-- What a rule that strips nothing does is undone by putting its flag back. -/
theorem andThen_clearing {r : Rule} (h : r.barred = []) :
    r.behavior.andThen r.clearing = r.clearing := by
  cases r with
  | readonly => rfl
  | partialize => rfl
  | required => cases h
  | nonNullable => cases h

end Rule

/-! ## All of it -/

namespace Schema

/-- A rule that strips nothing changes its own flag alone. -/
theorem cleared_deep {s : Schema} (h : s.WellFormed) {r : Rule} (hr : r.barred = []) :
    ((s.deep r).cleared r).same (s.cleared r) = true := by
  have htwice := Behavior.transform_transform r.behavior r.clearing h false
  rw [Rule.andThen_clearing hr, ← r.cleared_eq_transform, ← r.cleared_eq_transform] at htwice
  exact htwice

/-- What a schema has to be after a rule, given what it was before. -/
structure Reached (r : Rule) (before after : Schema) : Prop where
  /-- Every field has the flag, under the read-only rule every sequence too, and no slot holds what
  the rule strips. -/
  done : after.Everywhere r.NodeDone
  /-- No union is exclusive, and none has a single member. -/
  plain : after.IsPlain
  /-- Every record is what the rule makes of a record in its place, and has the names of that one
  in their order. -/
  records {way : List SchemaStep} {gs : Record} : after.At way (.record gs) →
    ∃ fs : Record, before.At way (.record fs) ∧ .record gs = (Schema.record fs).deep r ∧
      gs.names = fs.names
  /-- No record is lost: what the rule makes of it is in its place, as it is or in another order. -/
  kept {way : List SchemaStep} {fs : Record} : before.At way (.record fs) →
    ∃ gs, after.At way (.record gs) ∧ ((Schema.record fs).deep r).same (.record gs) = true
  /-- The read-only and the partial rule change their own flag alone. -/
  frame : r = .readonly ∨ r = .partialize → (after.cleared r).same (before.cleared r) = true

/-- A rule reaches every depth and touches nothing else. -/
theorem deep_reaches {s : Schema} (h : s.WellFormed) (r : Rule) : Reached r s (s.deep r) where
  done := r.everywhere_transform h false
  plain := s.isPlain_deep r
  records hat := by
    obtain ⟨fs, hfs, rfl⟩ := r.behavior.exists_at_of_transform h hat
    exact ⟨fs, hfs, rfl, r.behavior.names_transformFields fs⟩
  kept hat := r.behavior.exists_at_transform h false hat
  frame hr := cleared_deep h (Rule.barred_eq_nil_iff.2 hr)

theorem deep_reaches_loose : loose.WellFormed ∧ Reached .readonly loose (loose.deep .readonly) :=
  ⟨by decide, deep_reaches (by decide) .readonly⟩

end Schema

end ShapeAlgebra
