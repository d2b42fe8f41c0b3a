import ShapeAlgebra.Proofs.Declaration.RoundTrip
import ShapeAlgebra.Proofs.Record.Provenance
import ShapeAlgebra.Proofs.Rule.Preservation

/-!
# Schemas derived from declared ones

The schemas of a catalog are well-formed and plain, and so is whatever is derived from them without
an exclusive merge: every operation that takes members of unions away or brings some together builds
the union anew. Since plain schemas are their own normal forms, up to order, everything derived can
be written and is read back unchanged.

Results:

* `Outline.atomic_ofData`: the leaves of what is read are primitives, opaque leaves and the
  impossible shape.
* `Outline.Means.isRegular`: what is declared is well-formed and plain.
* `Catalog.Derives.isRegular`: so is what is derived from it.
* `Catalog.Derives.redeclared_same`: what is derived is read back as it was written.
-/

namespace ShapeAlgebra

/-! ## Well-formed and plain schemas -/

namespace Schema

/-- Whether the schema keeps what its builders promise and has neither exclusive unions nor unions
of a single member. -/
def IsRegular (s : Schema) : Prop := s.WellFormed ∧ s.IsPlain

theorem isRegular_sequence {e : Schema} {r : Bool} :
    (Schema.sequence e r).IsRegular ↔ e.IsRegular :=
  and_congr wellFormed_sequence isPlain_sequence

theorem isRegular_record {r : Record} :
    (Schema.record r).IsRegular ↔ r.names.Nodup ∧ ∀ f ∈ r, f.shape.IsRegular := by
  rw [IsRegular, wellFormed_record, isPlain_record, and_assoc, ← forall₂_and]
  rfl

theorem isRegular_unionOf {ss : List Schema} (h : ∀ s ∈ ss, s.IsRegular) :
    (unionOf ss).IsRegular :=
  ⟨wellFormed_unionOf fun s hs => (h s hs).1, isPlain_unionOf fun s hs => (h s hs).2⟩

/-- Whether the schema has no parts. -/
def IsAtom : Schema → Prop
  | .primitive _ | .opaqueLeaf .. | .union [] => True
  | _ => False

theorem IsAtom.isRegular {s : Schema} (h : s.IsAtom) : s.IsRegular := by
  cases s with
  | primitive k => simp [IsRegular, WellFormed, NodeWellFormed, IsPlain, NodePlain]
  | opaqueLeaf k n => simp [IsRegular, WellFormed, NodeWellFormed, IsPlain, NodePlain]
  | union ms =>
    cases ms with
    | nil => exact ⟨wellFormed_never, isPlain_never⟩
    | cons m ms => exact h.elim
  | _ => exact h.elim

end Schema

/-! ## The leaves of what is read -/

/-- Whether the leaves of the outline have no parts. -/
inductive Outline.Atomic : Outline → Prop
  | leaf {s : Schema} (h : s.IsAtom) : Outline.Atomic (.leaf s)
  | reference (n : Text) : Outline.Atomic (.reference n)
  | fault (cause : DeclarationFault) : Outline.Atomic (.fault cause)
  | sequence {e : Outline} (r : Except DeclarationFault Bool) (h : Outline.Atomic e) :
      Outline.Atomic (.sequence e r)
  | union {ms : List Outline} (h : ∀ m ∈ ms, Outline.Atomic m) : Outline.Atomic (.union ms)
  | record {fs : List FieldOutline} (h : ∀ f ∈ fs, Outline.Atomic f.shape) :
      Outline.Atomic (.record fs)

section

variable {declared : Text → Bool}

theorem atomic_readWord (place w : Text) : (readWord declared place w).Atomic := by
  rw [readWord]
  split
  · exact .leaf trivial
  · split
    · exact .leaf trivial
    · split
      · exact .leaf trivial
      · split
        · exact .reference w
        · exact .fault _

theorem atomic_readOpaque (place : Text) (entries : List (Data × Data)) :
    (readOpaque place entries).Atomic := by
  rw [readOpaque]
  split
  · exact .fault _
  · split
    · exact .leaf trivial
    · exact .leaf trivial
    · exact .leaf trivial
    · exact .fault _

theorem Outline.atomic_ofParts {place : Text} {own : Bool} {entries : List (Data × Data)}
    {element : Unit → Option Outline} {members : Unit → Option (List Outline)}
    {fields : Unit → Except DeclarationFault (List FieldOutline)}
    (he : ∀ e, element () = some e → e.Atomic)
    (hm : ∀ ms, members () = some ms → ∀ m ∈ ms, m.Atomic)
    (hf : ∀ fs, fields () = .ok fs → ∀ f ∈ fs, f.shape.Atomic) :
    (Outline.ofParts place own entries element members fields).Atomic := by
  obtain ⟨cause, hc⟩ | ⟨t, ht, hne⟩ | ⟨k, ht⟩ | ht | ht | ht | ht | ht :=
    Outline.ofParts_cases place own entries element members fields
  · rw [hc]
    exact .fault cause
  · rw [Outline.ofParts_reference ht hne]
    exact .reference _
  · rw [Outline.ofParts_primitive ht]
    exact .leaf trivial
  · rw [Outline.ofParts_never ht]
    exact .leaf trivial
  · rw [Outline.ofParts_opaque ht]
    exact atomic_readOpaque place entries
  · rw [Outline.ofParts_record ht]
    cases hfs : fields () with
    | error cause => exact .fault cause
    | ok fs => exact .record (hf fs hfs)
  · rw [Outline.ofParts_sequence ht]
    cases hel : element () with
    | none => exact .fault _
    | some e => exact .sequence _ (he e hel)
  · rw [Outline.ofParts_union ht]
    cases hms : members () with
    | none => exact .fault _
    | some ms => exact .union (hm ms hms)

theorem FieldOutline.atomic_ofParts {name : Text} {flags : Except DeclarationFault Flags}
    {o : Outline} (h : o.Atomic) : (FieldOutline.ofParts name flags o).shape.Atomic := by
  cases flags with
  | ok f => exact h
  | error cause => exact .fault cause

mutual

theorem Outline.atomic_ofData (around : List (Nat × Bool)) (place : Text) (d : Data) :
    (Outline.ofData declared around place d).Atomic := by
  cases d with
  | null =>
    rw [Outline.ofData_null]
    exact .leaf trivial
  | text t =>
    rw [Outline.ofData_text]
    exact atomic_readWord place _
  | mapping entries =>
    rw [Outline.ofData_mapping]
    refine Outline.atomic_ofParts (fun e he => ?_) (fun ms hms m hm => ?_) fun fs hfs f hf => ?_
    · obtain ⟨v, hv, rfl⟩ := Option.map_eq_some_iff.1 he
      have hsmall := Data.sizeOf_of_find? hv
      exact Outline.atomic_ofData around _ v
    · obtain ⟨v, hv, hms⟩ := Option.bind_eq_some_iff.1 hms
      have hsmall := Data.sizeOf_of_find? hv
      exact Outline.atomic_membersOf around place v hms m hm
    · cases hv : Data.find? entries "fields" with
      | none =>
        rw [hv] at hfs
        cases hfs
        cases hf
      | some v =>
        have hsmall := Data.sizeOf_of_find? hv
        rw [hv] at hfs
        exact Outline.atomic_fieldsOf around place v hfs f hf
  | recurring n d =>
    rw [Outline.ofData]
    split
    · exact .fault _
    · exact Outline.atomic_ofData _ place d
  | _ =>
    simp only [Outline.ofData]
    exact .fault _
termination_by 2 * sizeOf d
decreasing_by all_goals (subst_vars; simp only [Data.mapping.sizeOf_spec,
  Data.recurring.sizeOf_spec] at *; omega)

theorem Outline.atomic_membersOf (around : List (Nat × Bool)) (place : Text) (d : Data)
    {ms : List Outline} (h : Outline.membersOf declared around place d = some ms) :
    ∀ m ∈ ms, m.Atomic := by
  cases d with
  | list items =>
    rw [Outline.membersOf] at h
    cases h
    intro o ho
    obtain ⟨p, m, hm, rfl⟩ := Outline.mem_membersFrom around place ho
    have hsmall := List.sizeOf_lt_of_mem hm
    exact Outline.atomic_ofData around p m
  | recurring n d =>
    rw [Outline.membersOf] at h
    exact Outline.atomic_membersOf around place d h
  | _ => simp [Outline.membersOf] at h
termination_by 2 * sizeOf d

theorem Outline.atomic_fieldsOf (around : List (Nat × Bool)) (place : Text) (d : Data)
    {fs : List FieldOutline} (h : Outline.fieldsOf declared around place d = .ok fs) :
    ∀ f ∈ fs, f.shape.Atomic := by
  cases d with
  | null =>
    rw [Outline.fieldsOf] at h
    cases h
    intro f hf
    cases hf
  | mapping entries =>
    rw [Outline.fieldsOf] at h
    cases h
    rw [FieldOutline.ofEntries_eq_map]
    refine List.forall_mem_map.2 fun e he => ?_
    have hsmall := Data.sizeOf_of_mem he
    split
    · exact FieldOutline.atomic_ofData around _ _ e.2
    · exact .fault _
  | recurring n d =>
    rw [Outline.fieldsOf] at h
    exact Outline.atomic_fieldsOf around place d h
  | _ => simp [Outline.fieldsOf] at h
termination_by 2 * sizeOf d

theorem FieldOutline.atomic_ofData (around : List (Nat × Bool)) (name place : Text) (d : Data) :
    (FieldOutline.ofData declared around name place d).shape.Atomic := by
  by_cases hd : ∃ n e, d = .recurring n e
  · obtain ⟨n, e, rfl⟩ := hd
    rw [FieldOutline.ofData]
    split
    · exact .fault _
    · exact FieldOutline.atomic_ofData _ name place e
  · have hr : ∀ n e, d ≠ .recurring n e := fun n e he => hd ⟨n, e, he⟩
    have hsmall := Grammar.sizeOf_fieldShape_le d
    rw [FieldOutline.ofData_eq _ _ _ _ hr]
    exact FieldOutline.atomic_ofParts (Outline.atomic_ofData around place (Grammar.fieldShape d))
termination_by 2 * sizeOf d + 1

end

end

/-! ## Declared schemas -/

theorem Outline.Means.isRegular {ds : Declarations} {o : Outline} {s : Schema}
    (h : Outline.Means ds o s) (ha : o.Atomic) : s.IsRegular := by
  refine @Outline.Means.rec ds (fun o s _ => o.Atomic → s.IsRegular)
    (fun os ss _ => (∀ o ∈ os, o.Atomic) → ∀ s ∈ ss, s.IsRegular)
    (fun os fs _ => (∀ o ∈ os, o.shape.Atomic) → ∀ f ∈ fs, f.shape.IsRegular)
    ?leaf ?reference ?sequence ?union ?record ?nil ?cons ?fieldNil ?fieldCons o s h ha
  case leaf =>
    rintro s ⟨hs⟩
    exact hs.isRegular
  case reference =>
    intro n o s ho _ ih _
    obtain ⟨d, -, rfl⟩ := Option.map_eq_some_iff.1 ho
    exact ih (Outline.atomic_ofData [] n d)
  case sequence =>
    intro e s readonly _ ih ha
    cases ha with
    | sequence _ he => exact Schema.isRegular_sequence.2 (ih he)
  case union =>
    intro ms ss _ ih ha
    cases ha with
    | union hms => exact Schema.isRegular_unionOf (ih hms)
  case record =>
    intro fs r _ hr ih ha
    cases ha with
    | record hfs => exact Schema.isRegular_record.2 ⟨hr, ih hfs⟩
  case nil => rintro _ s ⟨⟩
  case cons =>
    intro o s os ss _ _ ih ihs ha
    obtain ⟨ho, hos⟩ := List.forall_mem_cons.1 ha
    exact List.forall_mem_cons.2 ⟨ih ho, ihs hos⟩
  case fieldNil => rintro _ f ⟨⟩
  case fieldCons =>
    intro o s os fs name flags _ _ ih ihs ha
    obtain ⟨ho, hos⟩ := List.forall_mem_cons.1 ha
    exact List.forall_mem_cons.2 ⟨ih ho, ihs hos⟩

/-! ## Derived schemas -/

namespace Catalog

/-- The schemas that are derived from those of a catalog in finitely many steps, none of which is an
exclusive merge. -/
inductive Derives (c : Catalog) : Schema → Prop
  | declared {n : Text} {s : Schema} (h : c.get n = .ok s) : Derives c s
  | deep {s : Schema} (r : Rule) (h : Derives c s) : Derives c (s.deep r)
  | withoutKinds {s : Schema} (kinds : List PrimitiveKind) (h : Derives c s) :
      Derives c (s.withoutKinds kinds)
  | pickByKey {s : Schema} {names : KeySource} {r : Record} (h : Derives c s)
      (hr : s.pickByKey names = .ok r) : Derives c (.record r)
  | omitByKey {s : Schema} {names : KeySource} {r : Record} (h : Derives c s)
      (hr : s.omitByKey names = .ok r) : Derives c (.record r)
  | pickByValue {s : Schema} {p : Predicate} {r : Record} (h : Derives c s)
      (hr : s.pickByValue p = .ok r) : Derives c (.record r)
  | omitByValue {s : Schema} {p : Predicate} {r : Record} (h : Derives c s)
      (hr : s.omitByValue p = .ok r) : Derives c (.record r)
  /-- A selection by any other test on the shapes of fields. -/
  | selectWhere {r : Record} (p : Schema → Bool) (h : Derives c (.record r)) :
      Derives c (.record (r.select (KeySet.ofList (Record.names (r.filter fun f => p f.shape)))))
  | objectIntersect {s : Schema} {other : KeySource} {r : Record} (h : Derives c s)
      (hr : s.objectIntersect other = .ok r) : Derives c (.record r)
  | objectSubtract {s : Schema} {other : KeySource} {r : Record} (h : Derives c s)
      (hr : s.objectSubtract other = .ok r) : Derives c (.record r)
  | objectComplement {s : Schema} {subset : KeySource} {r : Record} (h : Derives c s)
      (hr : s.objectComplement subset = .ok r) : Derives c (.record r)
  | mergeOverride {s t : Schema} {r : Record} (hs : Derives c s) (ht : Derives c t)
      (hr : s.mergeOverride t = .ok r) : Derives c (.record r)
  | merge {s t : Schema} {r : Record} (hs : Derives c s) (ht : Derives c t)
      (hr : s.merge t = .ok r) : Derives c (.record r)
  | unionOf {ss : List Schema} (h : ∀ s ∈ ss, Derives c s) : Derives c (.unionOf ss)
  | sequence {e : Schema} (readonly : Bool) (h : Derives c e) : Derives c (.sequence e readonly)
  | record {es : List Entry} {r : Record} (h : ∀ e ∈ es, Derives c e.shape)
      (hr : Record.ofShapes es = .ok r) : Derives c (.record r)

/-- What a catalog binds a name to is regular. -/
theorem isRegular_of_get {document : List (Data × Data)} {path : Option Text} {c : Catalog}
    (hc : Catalog.ofDocument document path = .ok c) {n : Text} {s : Schema}
    (h : c.get n = .ok s) : s.IsRegular := by
  obtain ⟨ds, -, -, hrs⟩ := exists_entries_of_ofDocument hc
  obtain ⟨hnames, hmeans⟩ := Declarations.means_of_resolve hrs
  have hlookup : c.schemas.lookup n = some s := by
    rw [Catalog.get] at h
    split at h
    · next t ht =>
      cases h
      exact ht
    · cases h
  obtain ⟨before, after, hsplit, -⟩ := List.lookup_eq_some_iff.1 hlookup
  have hmem : (n, s) ∈ c.schemas := by
    rw [hsplit]
    exact List.mem_append_right _ (List.mem_cons_self ..)
  exact (hmeans _ hmem).isRegular (.reference n)

end Catalog

namespace Schema

theorem IsSelection.isRegular {s : Schema} {picked : Record} (h : s.IsSelection picked)
    (hs : s.IsRegular) : (Schema.record picked).IsRegular := by
  obtain ⟨r, ks, rfl, rfl⟩ := h
  obtain ⟨hnd, hfs⟩ := isRegular_record.1 hs
  refine isRegular_record.2 ⟨Record.nodup_names_select hnd ks, fun f hf => ?_⟩
  exact hfs f (Record.mem_select.1 hf).1

/-- Two records that are merged are what a merge says they must be. -/
theorem isRegular_merged {s t : Schema} (hs : s.IsRegular) (ht : t.IsRegular)
    {operation : RecordOperation} {combine : Record → Record → Record} {merged : Record}
    (hnd : ∀ a b : Record, a.names.Nodup → b.names.Nodup → (combine a b).names.Nodup)
    (hmem : ∀ a b : Record, ∀ f ∈ combine a b, f ∈ a ∨ f ∈ b)
    (h : (do let (a, b) ← requireRecords operation s t; return combine a b) = .ok merged) :
    (Schema.record merged).IsRegular := by
  obtain ⟨⟨a, b⟩, hab, h⟩ := exists_of_bind_eq_ok h
  cases h
  obtain ⟨a', ha, hab⟩ := exists_of_bind_eq_ok hab
  obtain ⟨b', hb, hab⟩ := exists_of_bind_eq_ok hab
  cases hab
  obtain rfl := eq_record_of_requireRecord ha
  obtain rfl := eq_record_of_requireRecord hb
  obtain ⟨hna, hfa⟩ := isRegular_record.1 hs
  obtain ⟨hnb, hfb⟩ := isRegular_record.1 ht
  refine isRegular_record.2 ⟨hnd a b hna hnb, fun f hf => ?_⟩
  exact (hmem a b f hf).elim (hfa f) (hfb f)

end Schema

namespace Catalog

/-- What is derived from the schemas of a catalog is regular as they are. -/
theorem Derives.isRegular {document : List (Data × Data)} {path : Option Text} {c : Catalog}
    (hc : Catalog.ofDocument document path = .ok c) {s : Schema} (h : c.Derives s) :
    s.IsRegular := by
  induction h with
  | declared h => exact isRegular_of_get hc h
  | deep r _ ih => exact ⟨Schema.wellFormed_deep ih.1 r, Schema.isPlain_deep _ r⟩
  | withoutKinds kinds _ ih =>
    exact ⟨Schema.wellFormed_withoutKinds ih.1 kinds, Schema.isPlain_withoutKinds ih.2 kinds⟩
  | pickByKey _ hr ih => exact (Schema.isSelection_pickByKey hr).isRegular ih
  | omitByKey _ hr ih => exact (Schema.isSelection_omitByKey hr).isRegular ih
  | pickByValue _ hr ih => exact (Schema.isSelection_pickByValue hr).isRegular ih
  | omitByValue _ hr ih => exact (Schema.isSelection_omitByValue hr).isRegular ih
  | @selectWhere r p _ ih =>
    have hsel : (Schema.record r).IsSelection (r.select (KeySet.ofList (Record.names (r.filter
      fun f => p f.shape)))) := ⟨r, _, rfl, rfl⟩
    exact hsel.isRegular ih
  | objectIntersect _ hr ih => exact (Schema.isSelection_objectIntersect hr).isRegular ih
  | objectSubtract _ hr ih => exact (Schema.isSelection_objectSubtract hr).isRegular ih
  | objectComplement _ hr ih => exact (Schema.isSelection_objectComplement hr).isRegular ih
  | mergeOverride _ _ hr ihs iht =>
    exact Schema.isRegular_merged ihs iht (fun _ b ha _ => Record.nodup_names_override ha b)
      (fun _ _ _ => Record.mem_override) hr
  | merge _ _ hr ihs iht =>
    exact Schema.isRegular_merged ihs iht (fun _ _ => Record.nodup_names_assign)
      (fun _ _ _ => Record.mem_assign) hr
  | unionOf _ ih => exact Schema.isRegular_unionOf ih
  | sequence readonly _ ih => exact Schema.isRegular_sequence.2 ih
  | record _ hr ih =>
    obtain ⟨hnd, hfrom⟩ := Record.mem_ofShapes hr
    refine Schema.isRegular_record.2 ⟨hnd, fun f hf => ?_⟩
    obtain ⟨e, he, hshape⟩ := hfrom f hf
    rw [hshape]
    exact ih e he

/-- What is derived from the schemas of a catalog has no exclusive unions, no unions of a single
member and none directly inside each other, and is read back as it was written. -/
theorem Derives.redeclared_same {document : List (Data × Data)} {path : Option Text} {c : Catalog}
    (hc : Catalog.ofDocument document path = .ok c) {s : Schema} (h : c.Derives s) :
    (s.WellFormed ∧ s.IsPlain) ∧ ∃ t, s.redeclared = .ok t ∧ t.same s = true := by
  obtain ⟨hw, hp⟩ := h.isRegular hc
  exact ⟨⟨hw, hp⟩, s.normal, Schema.redeclared_eq_normal hw, (Schema.normal_same_iff hw).2 hp⟩

/-- A tag or the tag of a person, with all fields optional. -/
def looseTag : Schema :=
  (Schema.unionOf [.primitive .string, .record [⟨"tag", .primitive .string, {}⟩]]).deep .partialize

theorem redeclared_same_looseTag : ∃ c, Catalog.ofDocument (documentOf people.entries) none =
    .ok c ∧ c.Derives looseTag ∧ (looseTag.WellFormed ∧ looseTag.IsPlain) ∧
      ∃ t, looseTag.redeclared = .ok t ∧ t.same looseTag = true := by
  obtain ⟨c, hc, hperson, htag⟩ := exists_of_people (fun _ _ h => h)
    (Declarations.hasNames_entries_iff.2 (by decide)) (by simp [people])
  have hpicked : Schema.pickByKey (.record person) (.data (.list [.text "tag"])) =
      .ok [⟨"tag", .primitive .string, {}⟩] := by rfl
  have hunion : c.Derives (.unionOf [.primitive .string,
      .record [⟨"tag", .primitive .string, {}⟩]]) := by
    refine .unionOf fun s hs => ?_
    simp only [List.mem_cons, List.not_mem_nil, or_false] at hs
    rcases hs with rfl | rfl
    · exact .declared htag
    · exact .pickByKey (.declared hperson) hpicked
  have h : c.Derives looseTag := .deep .partialize hunion
  exact ⟨c, hc, h, Derives.redeclared_same hc h⟩

end Catalog

end ShapeAlgebra
