import ShapeAlgebra.Proofs.Declaration.Expansion

/-!
# Resolution is substitution

In a document that makes a catalog the expansion of references comes to an end, in whatever order it
is done, and what is left has no references. Read on its own, with no names declared, it gives the
schema that resolution finds with its record of what is known and its path of names in progress.

Results:

* `Grammar.exists_expands`: as long as a reference is left there is something to expand.
* `Grammar.acc_expands`: no declaration that means something is expanded forever.
* `Catalog.get_eq_schemaAlone`: what is left when nothing can be expanded any more gives the schema
  of the name.
-/

namespace ShapeAlgebra

open Grammar

/-! ## References that are left -/

section

variable {ds : Declarations} {n : Text}

theorem Grammar.exists_expands_name {d : Data} (h : Names (Declares ds.entries) d n) :
    ∃ d', Expands ds.entries d d' := by
  have hd : Declares ds.entries n := by
    cases h with
    | word _ hd => exact hd
    | reference _ hd => exact hd
  obtain ⟨target, ht⟩ := hd
  exact ⟨target, .name h ht⟩

mutual

/-- As long as a declaration refers to a name there is something to expand. -/
theorem Grammar.exists_expands (around : List (Nat × Bool)) (place : Text) (d : Data)
    (h : (Outline.ofData ds.declares around place d).IsLegal fun n => ds.declares n = true)
    (hn : n ∈ (Outline.ofData ds.declares around place d).references) :
    ∃ d', Expands ds.entries d d' := by
  cases d with
  | null =>
    rw [Outline.ofData_null] at hn
    cases hn
  | text t =>
    rw [Outline.ofData_text, mem_references_readWord] at hn
    obtain ⟨⟨hb, hd⟩, -⟩ := hn
    exact exists_expands_name (.word hb (Declarations.declares_iff.1 hd))
  | mapping entries =>
    rw [Outline.ofData_mapping] at h hn
    rcases exists_partExpands true around place entries h hn with ⟨m, hm⟩ | ⟨entries', hstep⟩
    · exact exists_expands_name hm
    · exact ⟨_, .parts hstep⟩
  | recurring k d =>
    rw [Outline.ofData] at h hn
    split at h
    · exact h.elim
    · next hk =>
      rw [if_neg hk] at hn
      obtain ⟨d', hstep⟩ := exists_expands _ place d h hn
      exact ⟨d', .recurring k hstep⟩
  | _ => simp [Outline.ofData, Outline.IsLegal] at h
termination_by 3 * sizeOf d + 1
decreasing_by all_goals (subst_vars; simp only [Data.mapping.sizeOf_spec,
  Data.recurring.sizeOf_spec] at *; omega)

/-- The same for mappings: they are references themselves, or have one in a part. -/
theorem Grammar.exists_partExpands (own : Bool) (around : List (Nat × Bool)) (place : Text)
    (entries : List (Data × Data))
    (h : (Outline.ofEntries ds.declares around place own entries).IsLegal
      fun n => ds.declares n = true)
    (hn : n ∈ (Outline.ofEntries ds.declares around place own entries).references) :
    (∃ m, Names (Declares ds.entries) (.mapping entries) m) ∨
      ∃ entries', PartExpands ds.entries entries entries' := by
  obtain ⟨t, ht, hne⟩ | ⟨k, ht⟩ | ht | ht | ht | ht | ht := Outline.type_of_isLegal h
  · rw [Outline.ofEntries, Outline.ofParts_reference ht hne] at h
    exact .inl ⟨_, .reference ht (Declarations.declares_iff.1 h)⟩
  · rw [Outline.ofEntries, Outline.ofParts_primitive ht] at hn
    cases hn
  · rw [Outline.ofEntries, Outline.ofParts_never ht] at hn
    cases hn
  · rw [Outline.ofEntries, Outline.ofParts_opaque ht] at h hn
    obtain ⟨-, -, s, hs⟩ | ⟨-, cause, hc⟩ := readOpaque_cases place entries
    · rw [hs] at hn
      cases hn
    · rw [hc] at h
      exact h.elim
  · obtain ⟨-, ho⟩ | ⟨v, os, hf, hos, ho⟩ := Outline.exists_fields ht h
    · rw [ho] at hn
      cases hn
    have hsmall := Data.sizeOf_of_find? hf
    have hcontent := Data.sizeOf_content_le v
    rw [ho] at h hn
    obtain ⟨-, rfl⟩ | ⟨fs, hv, rfl⟩ := Outline.content_of_fieldsOf hos
    · cases hn
    obtain ⟨o, ho, hn⟩ := FieldOutline.mem_allReferences.1 hn
    have hl := FieldOutline.allLegal_iff.1 h.1 o ho
    rw [FieldOutline.ofEntries_eq_map] at ho
    obtain ⟨⟨k, f⟩, he, rfl⟩ := List.mem_map.1 ho
    have hfield := Data.sizeOf_of_mem he
    split at hl
    · next hk =>
      rw [if_pos hk] at hn
      obtain ⟨f', hstep⟩ := exists_fieldExpands around _ _ f hl hn
      obtain ⟨before, after, rfl⟩ := List.append_of_mem he
      exact .inr ⟨_, .field ht hf hv hstep⟩
    · exact hl.elim
  · obtain ⟨e, he, ho⟩ := Outline.exists_element ht h
    have hsmall := Data.sizeOf_of_find? he
    rw [ho] at h hn
    obtain ⟨e', hstep⟩ := exists_expands around _ e h.1 hn
    exact .inr ⟨_, .element ht he hstep⟩
  · obtain ⟨v, os, hm, hos, ho⟩ := Outline.exists_members ht h
    have hsmall := Data.sizeOf_of_find? hm
    have hcontent := Data.sizeOf_content_le v
    rw [ho] at h hn
    obtain ⟨ms, hv, rfl⟩ := Outline.content_of_membersOf hos
    obtain ⟨o, ho, hn⟩ := Outline.mem_allReferences.1 hn
    have hl := Outline.allLegal_iff.1 h o ho
    obtain ⟨p, m, hmem, rfl⟩ := Outline.mem_membersFrom around place ho
    have hmember := List.sizeOf_lt_of_mem hmem
    obtain ⟨m', hstep⟩ := exists_expands around p m hl hn
    obtain ⟨before, after, rfl⟩ := List.append_of_mem hmem
    exact .inr ⟨_, .member ht hm hv hstep⟩
termination_by 3 * sizeOf (Data.mapping entries)
decreasing_by all_goals (subst_vars; simp only [*, Data.mapping.sizeOf_spec,
  Data.list.sizeOf_spec] at *; omega)

/-- The same for fields. -/
theorem Grammar.exists_fieldExpands (around : List (Nat × Bool)) (name place : Text) (f : Data)
    (h : (FieldOutline.ofData ds.declares around name place f).shape.IsLegal
      fun n => ds.declares n = true)
    (hn : n ∈ (FieldOutline.ofData ds.declares around name place f).shape.references) :
    ∃ f', FieldExpands ds.entries f f' := by
  cases f with
  | null =>
    rw [FieldOutline.ofData] at hn
    cases hn
  | text t =>
    rw [FieldOutline.ofData, mem_references_readWord] at hn
    obtain ⟨⟨hb, hd⟩, -⟩ := hn
    obtain ⟨target, ht⟩ := Declarations.declares_iff.1 hd
    exact ⟨_, .word (.word hb ⟨target, ht⟩) ht⟩
  | mapping entries =>
    have hr : ∀ k e, Data.mapping entries ≠ .recurring k e := fun _ _ => Data.noConfusion
    obtain ⟨hflags, hl⟩ := (FieldOutline.isLegal_ofData _ _ _ _ hr).1 h
    rw [FieldOutline.references_ofData _ _ _ _ hr hflags] at hn
    rw [fieldShape] at hl hn
    cases hs : Data.find? entries "shape" with
    | some v =>
      have hsmall := Data.sizeOf_of_find? hs
      rw [hs, Option.getD_some] at hl hn
      obtain ⟨v', hstep⟩ := exists_expands around place v hl hn
      exact ⟨_, .shape hs hstep⟩
    | none =>
      rw [hs, Option.getD_none, Outline.ofData_mapping, Outline.ofEntries_without _ _ _ hs] at hl hn
      rcases exists_partExpands _ around place entries hl hn with ⟨m, hm⟩ | ⟨entries', hstep⟩
      · have hd : Declares ds.entries m := by
          cases hm with
          | reference _ hd => exact hd
        obtain ⟨target, ht⟩ := hd
        exact ⟨_, .reference hs hm ht⟩
      · exact ⟨_, .inPlace hs hstep⟩
  | recurring k d =>
    rw [FieldOutline.ofData] at h hn
    split at h
    · exact h.elim
    · next hk =>
      rw [if_neg hk] at hn
      obtain ⟨d', hstep⟩ := exists_fieldExpands _ name place d h hn
      exact ⟨d', .recurring k hstep⟩
  | _ => simp [FieldOutline.ofData, Outline.IsLegal] at h
termination_by 3 * sizeOf f + 2
decreasing_by all_goals (subst_vars; simp only [Data.mapping.sizeOf_spec,
  Data.recurring.sizeOf_spec] at *; omega)

end

end

/-! ## Reading what is left -/

/-- The schema of a declaration that is read on its own: no names are declared, and there is no
record of what is known. -/
def Data.schemaAlone (place : Text) (d : Data) : Except DeclarationFault Schema :=
  ((Outline.ofData (fun _ => false) [] place d).resolve
    fun n => throw (.unknownReference n)).run' []

section

variable {ds : Declarations} {d d' : Data} {place : Text} {s : Schema}

/-- Without references, what a declaration means is what is read of it alone. -/
theorem Outline.Means.schemaAlone_eq (h : Outline.Means ds (.ofData ds.declares [] place d) s)
    (hn : (Outline.ofData ds.declares [] place d).references = []) (place' : Text) :
    d.schemaAlone place' = .ok s := by
  have hnone : ∀ n, n ∉ (Outline.ofData ds.declares [] place d).references := by
    rw [hn]
    exact fun n => List.not_mem_nil
  have hlegal : (Outline.ofData ds.declares [] place d).IsLegal fun _ => False :=
    h.isLegal.imp hnone
  have hread : Outline.ofData (fun _ => false) [] place' d = .ofData ds.declares [] place d :=
    Outline.ofData_extend (fun _ hf => hf.elim) (List.Subset.refl _) hlegal
  have hspec : Outline.Resolves ds (fun n => throw (.unknownReference n)) (fun _ => True)
      (fun _ => False) (.ofData ds.declares [] place d) :=
    Outline.resolve_ensures fun n hmem => (hnone n hmem).elim
  rw [Data.schemaAlone, hread]
  exact hspec.run_eq h

/-- A declaration that means something is not expanded forever. -/
theorem Grammar.acc_expands (hnames : HasNames ds.entries) (hlegal : ds.IsLegal)
    (h : Outline.Means ds (.ofData ds.declares [] place d) s) :
    Acc (fun d' d => Expands ds.entries d d') d := by
  have hacc := h.acc_unfolds
  generalize ho : Outline.ofData ds.declares [] place d = o at hacc
  induction hacc generalizing d with
  | intro o _ ih =>
    subst ho
    refine Acc.intro _ fun d' hstep => ?_
    have hunfold := hstep.unfolds hnames hlegal [] place place h.isLegal
    exact ih _ hunfold (hunfold.means h) rfl

/-- Where expansion comes to an end, something is left. -/
theorem Grammar.exists_isExpansion {es : List (Data × Data)}
    (h : Acc (fun d' d => Expands es d d') d) : ∃ d', IsExpansion es d d' := by
  induction h with
  | intro d _ ih =>
    by_cases hd : ∃ d', Expands es d d'
    · obtain ⟨d', hstep⟩ := hd
      obtain ⟨e, hsteps, hlast⟩ := ih d' hstep
      exact ⟨e, .head hstep hsteps, hlast⟩
    · exact ⟨d, .refl, fun d' hstep => hd ⟨d', hstep⟩⟩

/-- What is left of a declaration when nothing can be expanded any more is read alone as what the
declaration means. -/
theorem Grammar.IsExpansion.schemaAlone_eq (hnames : HasNames ds.entries) (hlegal : ds.IsLegal)
    (h : Outline.Means ds (.ofData ds.declares [] place d) s)
    (hd : IsExpansion ds.entries d d') (place' : Text) : d'.schemaAlone place' = .ok s := by
  obtain ⟨hsteps, hlast⟩ := hd
  -- Every expansion is an unfolding, and these keep what is meant.
  have hm : Outline.Means ds (.ofData ds.declares [] place d') s := by
    clear hlast
    induction hsteps with
    | refl => exact h
    | tail _ hstep ih => exact (hstep.unfolds hnames hlegal [] place place ih.isLegal).means ih
  refine hm.schemaAlone_eq ?_ place'
  refine List.eq_nil_iff_forall_not_mem.2 fun n hn => ?_
  obtain ⟨d'', hstep⟩ := exists_expands [] place d' hm.isLegal hn
  exact hlast d'' hstep

end

namespace Catalog

/-- References in the declaration of a name can be followed by expansion, which comes to an end in
whatever order it is done. What is then left is read alone as the schema that the name is bound
to. -/
theorem get_eq_schemaAlone {document es : List (Data × Data)} {path : Option Text} {c : Catalog}
    (hs : (Data.find? document "schemas").bind Data.entries? = some es)
    (hc : Catalog.ofDocument document path = .ok c) {n : Text} {d : Data}
    (hd : Data.find? es n = some d) :
    ∃ s, c.get n = .ok s ∧ Acc (fun d' d => Expands es d d') d ∧ (∃ d', IsExpansion es d d') ∧
      ∀ d', IsExpansion es d d' → ∀ place, d'.schemaAlone place = .ok s := by
  obtain ⟨ds, rfl, hnames, hmeans⟩ := exists_means_of_ofDocument hs hc
  have hlegal : ds.IsLegal := by
    refine (Declarations.isLegal_of_means fun m hm => ?_).1
    obtain ⟨t, ht, -⟩ := hmeans m hm
    exact ⟨t, ht⟩
  obtain ⟨s, hm, hget⟩ := hmeans n (Declarations.declares_iff.2 ⟨d, hd⟩)
  have hmeaning : Outline.Means ds (.ofData ds.declares [] n d) s := by
    cases hm with
    | reference ho hm =>
      rw [Declarations.outline?_eq, hd, Option.map_some] at ho
      cases ho
      exact hm
  have hacc := acc_expands hnames hlegal hmeaning
  refine ⟨s, hget, hacc, exists_isExpansion hacc, fun d' hd' => ?_⟩
  exact hd'.schemaAlone_eq hnames hlegal hmeaning

/-- The declaration of a person with the tags put in. -/
def expandedPerson : Data :=
  .mapping [(.text "type", .text "record"), (.text "fields", .mapping
    [(.text "tag", .mapping [(.text "shape", .text "string")]),
      (.text "best", .mapping [(.text "shape", .text "string"), (.text "readonly", .bool true)])])]

example : expandedPerson.schemaAlone "Person" = .ok (.record person) := by rfl

theorem get_eq_schemaAlone_people : ∃ c d s,
    Catalog.ofDocument (documentOf people.entries) none = .ok c ∧
      Data.find? people.entries "Person" = some d ∧ c.get "Person" = .ok s ∧
      Acc (fun d' d => Expands people.entries d d') d ∧ (∃ d', IsExpansion people.entries d d') ∧
      ∀ d', IsExpansion people.entries d d' → ∀ place, d'.schemaAlone place = .ok s := by
  obtain ⟨c, hc, -⟩ := exists_of_people (fun _ _ h => h)
    (Declarations.hasNames_entries_iff.2 (by decide)) (by simp [people])
  obtain ⟨s, h⟩ := get_eq_schemaAlone rfl hc (n := "Person") rfl
  exact ⟨c, _, s, hc, rfl, h⟩

end Catalog

end ShapeAlgebra
