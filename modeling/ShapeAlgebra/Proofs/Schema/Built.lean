import ShapeAlgebra.Proofs.Declaration.Derivation
import ShapeAlgebra.Proofs.Record.Checked

/-!
# Schemas that are built

A schema is built by the constructors, by the operations and from declarations, and then it may be
taken apart and built further. Whatever is built in this way is sound at every depth: no alternative
of a union is a union, no two of them are the same, no name comes twice in a record, and the
alternatives of an exclusive union are its two variants.

A union is flattened by one step only, so that this depends on every union that goes into it being
flat. Therefore what is shown of the schemas in the order in which they are built is that they are
well-formed, and the rest follows from it node by node.

Results:

* `Merger.wellFormed_apply`, `Selection.wellFormed_apply`: merges and selections of well-formed
  schemas are well-formed.
* `Schema.Built.wellFormed`: every schema that is built is well-formed.
* `Schema.Built.sound_everywhere`: every schema that is built is sound at every depth.
-/

namespace ShapeAlgebra

/-! ## Selections and merges -/

theorem Selection.isSelection_of_apply {p : Selection} {s : Schema} {r : Record}
    (h : p.apply s = .ok r) : s.IsSelection r := by
  cases s with
  | record a =>
    rw [apply_record] at h
    obtain ⟨ks, -, h⟩ := exists_of_bind_eq_ok h
    cases h
    exact ⟨a, ks, rfl, rfl⟩
  | _ =>
    rw [apply_of_not_record p (by simp)] at h
    cases h

/-- A selection from a well-formed schema is well-formed. -/
theorem Selection.wellFormed_apply {p : Selection} {s : Schema} {r : Record} (hs : s.WellFormed)
    (h : p.apply s = .ok r) : (Schema.record r).WellFormed := by
  obtain ⟨a, ks, rfl, rfl⟩ := isSelection_of_apply h
  obtain ⟨hnd, hfs⟩ := Schema.wellFormed_record.1 hs
  refine Schema.wellFormed_record.2 ⟨Record.nodup_names_select hnd ks, fun f hf => ?_⟩
  exact hfs f (Record.mem_select.1 hf).1

/-- What is blocked under other names than those of a record leaves it well-formed. -/
theorem Record.wellFormed_append_blocked {own other : Record}
    (hown : (Schema.record own).WellFormed) (hother : (Schema.record other).WellFormed)
    {forbidden : KeySet} (h : ∀ n ∈ forbidden, n ∉ own.names) :
    (Schema.record (own ++ other.blocked forbidden)).WellFormed := by
  obtain ⟨hnd, hfs⟩ := Schema.wellFormed_record.1 hown
  have hnd' := (Schema.wellFormed_record.1 hother).1
  refine Schema.wellFormed_record.2 ⟨nodup_names_append_blocked hnd hnd' h, fun f hf => ?_⟩
  obtain hf | hf := List.mem_append.1 hf
  · exact hfs f hf
  · rw [mem_blocked hf]
    exact Schema.wellFormed_never

/-- A merge has a result only if both schemas are records. -/
theorem Merger.exists_records {m : Merger} {s t u : Schema} (h : m.apply s t = .ok u) :
    ∃ a b : Record, s = .record a ∧ t = .record b := by
  by_cases hs : ∃ a : Record, s = .record a
  · obtain ⟨a, rfl⟩ := hs
    by_cases ht : ∃ b : Record, t = .record b
    · obtain ⟨b, rfl⟩ := ht
      exact ⟨a, b, rfl, rfl⟩
    · rw [((m.refuses fun b hb => ht ⟨b, hb⟩).2 a).2] at h
      cases h
  · rw [((m.refuses fun a ha => hs ⟨a, ha⟩).1 t).2] at h
    cases h

/-- A merge of well-formed schemas is well-formed. -/
theorem Merger.wellFormed_apply {m : Merger} {s t u : Schema} (hs : s.WellFormed)
    (ht : t.WellFormed) (h : m.apply s t = .ok u) : u.WellFormed := by
  obtain ⟨a, b, rfl, rfl⟩ := exists_records h
  obtain ⟨hna, hfa⟩ := Schema.wellFormed_record.1 hs
  obtain ⟨hnb, hfb⟩ := Schema.wellFormed_record.1 ht
  cases m with
  | override =>
    cases h
    refine Schema.wellFormed_record.2 ⟨Record.nodup_names_override hna b, fun f hf => ?_⟩
    exact (Record.mem_override hf).elim (hfa f) (hfb f)
  | assign =>
    cases h
    refine Schema.wellFormed_record.2 ⟨Record.nodup_names_assign hna hnb, fun f hf => ?_⟩
    exact (Record.mem_assign hf).elim (hfa f) (hfb f)
  | exclusive =>
    cases h
    have hother : ∀ {r t : Record}, ∀ n ∈ t.keys.sdiff r.keys, n ∉ r.names := fun n hn hr =>
      (KeySet.mem_sdiff.1 hn).2 (Record.mem_keys_iff.2 hr)
    exact Schema.wellFormed_exclusive.2 ⟨Record.wellFormed_append_blocked hs ht hother,
      Record.wellFormed_append_blocked ht hs hother⟩

namespace Schema

/-! ## Building -/

/-- The schemas that are built in finitely many steps. -/
inductive Built : Schema → Prop
  | primitive (k : PrimitiveKind) : Built (.primitive k)
  | opaqueLeaf (k : OpaqueKind) (n : Option Text) : Built (.opaqueLeaf k n)
  | sequence {e : Schema} (readonly : Bool) (h : Built e) : Built (.sequence e readonly)
  | union {ss : List Schema} (h : ∀ s ∈ ss, Built s) : Built (.unionWith ss)
  | unionOf {ss : List Schema} (h : ∀ s ∈ ss, Built s) : Built (.unionOf ss)
  /-- A record of fields, given one by one. -/
  | record {es : List Entry} {r : Record} (h : ∀ e ∈ es, Built e.shape)
      (hr : Record.ofEntries es = .ok r) : Built (.record r)
  /-- A record of fields and of bare shapes. -/
  | buildRecord {es : List Entry} {r : Record} (h : ∀ e ∈ es, Built e.shape)
      (hr : Record.ofShapes es = .ok r) : Built (.record r)
  /-- An exclusive union of any two records, whatever names are said to be exclusive. -/
  | exclusive {a b : Record} (x y : KeySet) (ha : Built (.record a)) (hb : Built (.record b)) :
      Built (.exclusive a b x y)
  | merge (m : Merger) {s t u : Schema} (hs : Built s) (ht : Built t)
      (hu : m.apply s t = .ok u) : Built u
  | select (p : Selection) {s : Schema} {r : Record} (hs : Built s) (hr : p.apply s = .ok r) :
      Built (.record r)
  | withoutKinds {s : Schema} (kinds : List PrimitiveKind) (h : Built s) :
      Built (s.withoutKinds kinds)
  | deep {s : Schema} (r : Rule) (h : Built s) : Built (s.deep r)
  | declared {document : List (Data × Data)} {path : Option Text} {c : Catalog} {n : Text}
      {s : Schema} (hc : Catalog.ofDocument document path = .ok c) (h : c.get n = .ok s) : Built s
  /-- The element of a sequence. -/
  | element {e : Schema} {readonly : Bool} (h : Built (.sequence e readonly)) : Built e
  /-- A member of a union or a variant of an exclusive one. -/
  | part {s m : Schema} (h : Built s) (hm : m ∈ s.parts) : Built m
  /-- The shape of a field. -/
  | shape {r : Record} {f : Field} (h : Built (.record r)) (hf : f ∈ r) : Built f.shape

theorem Built.wellFormed {s : Schema} (h : s.Built) : s.WellFormed := by
  induction h with
  | primitive k => exact everywhere_primitive.2 trivial
  | opaqueLeaf k n => exact everywhere_opaqueLeaf.2 trivial
  | sequence readonly _ ih => exact wellFormed_sequence.2 ih
  | union _ ih => exact wellFormed_unionWith ih
  | unionOf _ ih => exact wellFormed_unionOf ih
  | record _ hr ih =>
    obtain ⟨hnd, -, hfrom⟩ := Record.ofEntriesFrom_eq_ok hr
    refine wellFormed_record.2 ⟨hnd, fun f hf => ?_⟩
    obtain ⟨e, he, hfield⟩ := hfrom f hf
    exact Entry.shape_toField hfield ▸ ih e he
  | buildRecord _ hr ih =>
    obtain ⟨hnd, hfrom⟩ := Record.mem_ofShapes hr
    refine wellFormed_record.2 ⟨hnd, fun f hf => ?_⟩
    obtain ⟨e, he, hshape⟩ := hfrom f hf
    exact hshape ▸ ih e he
  | exclusive x y _ _ iha ihb => exact wellFormed_exclusive.2 ⟨iha, ihb⟩
  | merge m _ _ hu ihs iht => exact Merger.wellFormed_apply ihs iht hu
  | select p _ hr ih => exact Selection.wellFormed_apply ih hr
  | withoutKinds kinds _ ih => exact wellFormed_withoutKinds ih kinds
  | deep r _ ih => exact wellFormed_deep ih r
  | declared hc h => exact (Catalog.isRegular_of_get hc h).1
  | element _ ih => exact wellFormed_sequence.1 ih
  | part _ hm ih => exact (ih.of_mem_parts hm).2
  | shape _ hf ih => exact (wellFormed_record.1 ih).2 _ hf

/-! ## Soundness -/

/-- What holds of a single node that is built. -/
structure NodeSound (s : Schema) : Prop where
  /-- No alternative of a union is a union itself. -/
  flat : s.isUnion = true → ∀ m ∈ s.members, m.isUnion = false
  /-- No two alternatives are the same. -/
  unlike : Unlike s.members
  /-- No name comes twice in a record. -/
  distinct : ∀ r : Record, s = .record r → r.names.Nodup
  /-- The alternatives of an exclusive union are its variants, and each of these is among them. -/
  variants : ∀ (a b : Record) (x y : KeySet), s = .exclusive a b x y →
    (∀ m ∈ s.members, m = .record a ∨ m = .record b) ∧
      ∀ v : Record, v = a ∨ v = b → ∃ m ∈ s.members, (Schema.record v).same m = true

/-- What is no union is sound, if no name comes twice in it. -/
theorem nodeSound_of_isUnion_eq_false {s : Schema} (h : s.isUnion = false)
    (hr : ∀ r : Record, s = .record r → r.names.Nodup) : s.NodeSound where
  flat hu := by
    rw [h] at hu
    cases hu
  unlike := by
    cases s with
    | union ms => cases h
    | exclusive a b x y => cases h
    | _ => exact List.pairwise_singleton ..
  distinct := hr
  variants a b x y hs := by
    subst hs
    cases h

/-- The alternatives of an exclusive union come from its variants, so that it is sound in itself. -/
theorem nodeSound_exclusive (a b : Record) (x y : KeySet) :
    (Schema.exclusive a b x y).NodeSound where
  flat _ m hm := by
    obtain rfl | rfl := mem_parts_exclusive.1 (mem_parts_of_mem_members hm) <;> rfl
  unlike := distinct_pairwise _
  distinct r hr := by cases hr
  variants a' b' x' y' hs := by
    cases hs
    refine ⟨fun m hm => mem_parts_exclusive.1 (mem_parts_of_mem_members hm), fun v hv => ?_⟩
    refine exists_same_member_of_mem_parts (mem_parts_exclusive.2 ?_)
    exact hv.imp (congrArg Schema.record) (congrArg Schema.record)

/-- Well-formed schemas are sound at every depth. -/
theorem WellFormed.everywhere_nodeSound {s : Schema} (h : s.WellFormed) :
    s.Everywhere NodeSound := by
  induction s using Schema.induction with
  | primitive k => exact everywhere_primitive.2 (nodeSound_of_isUnion_eq_false rfl nofun)
  | opaqueLeaf k n => exact everywhere_opaqueLeaf.2 (nodeSound_of_isUnion_eq_false rfl nofun)
  | sequence e r ih =>
    exact everywhere_sequence.2 ⟨nodeSound_of_isUnion_eq_false rfl nofun,
      ih (wellFormed_sequence.1 h)⟩
  | union ms ih =>
    obtain ⟨⟨hflat, hunlike⟩, hms⟩ := wellFormed_union.1 h
    refine everywhere_union.2 ⟨?_, fun m hm => ih m hm (hms m hm)⟩
    exact { flat := fun _ => hflat, unlike := hunlike, distinct := nofun, variants := nofun }
  | record fs ih =>
    obtain ⟨hnd, hfs⟩ := wellFormed_record.1 h
    refine everywhere_record.2
      ⟨nodeSound_of_isUnion_eq_false rfl ?_, fun f hf => ih f hf (hfs f hf)⟩
    rintro r hr
    exact record.inj hr ▸ hnd
  | exclusive a b x y iha ihb =>
    obtain ⟨ha, hb⟩ := wellFormed_exclusive.1 h
    exact everywhere_exclusive.2 ⟨nodeSound_exclusive a b x y, iha ha, ihb hb⟩

/-- Every schema that is built is sound at every depth. -/
theorem Built.sound_everywhere {s : Schema} (h : s.Built) : s.Everywhere NodeSound :=
  h.wellFormed.everywhere_nodeSound

/-- A person or an account, whose fields do not mix. -/
def personOrAccount : Schema := Catalog.person.exclusive Record.account

/-- One of them or a list of such, or an account of which parts may be missing. -/
def sharing : Schema :=
  .unionOf [personOrAccount, .sequence personOrAccount true,
    (Schema.record Record.account).deep .partialize]

theorem built_sharing : sharing.Built := by
  obtain ⟨c, hc, hperson, -⟩ := Catalog.exists_of_people (fun _ _ h => h)
    (Declarations.hasNames_entries_iff.2 (by decide)) (by simp [Catalog.people])
  have haccount : Built (.record Record.account) := by
    have hfields : Record.ofEntries (Record.account.map fun f =>
        ⟨.text f.name, .field f.shape f.flags⟩) = .ok Record.account := rfl
    refine .record ?_ hfields
    simp only [Record.account, List.map_cons, List.map_nil, List.forall_mem_cons]
    exact ⟨.primitive _, .primitive _, List.forall_mem_nil _⟩
  have heither : Built personOrAccount := .merge .exclusive (.declared hc hperson) haccount rfl
  rw [sharing]
  refine .unionOf ?_
  simp only [List.forall_mem_cons]
  exact ⟨heither, .sequence true heither, .deep .partialize haccount, List.forall_mem_nil _⟩

theorem sound_everywhere_sharing : sharing.Built ∧ sharing.Everywhere NodeSound :=
  ⟨built_sharing, built_sharing.sound_everywhere⟩

end Schema

end ShapeAlgebra
