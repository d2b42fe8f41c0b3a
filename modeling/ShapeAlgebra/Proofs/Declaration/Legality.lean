import ShapeAlgebra.Proofs.Declaration.Reading

/-!
# Legal outlines are the declarations of the grammar

The outline of plain data has no fault exactly when the data is a declaration of the grammar, and
then its references are the names that the declaration mentions. Towards the grammar the data must
be finite, since there what is read is followed down to its leaves.

Results:

* `Grammar.Shape.conveys`: the outline of a declaration of the grammar has no fault, and refers to
  what the declaration mentions.
* `Grammar.shape_of_isLegal`: finite data whose outline has no fault is a declaration of the
  grammar.
-/

namespace ShapeAlgebra

open Grammar

/-! ## From the grammar to outlines -/

/-- An outline without faults that refers to what a declaration mentions. -/
structure Outline.Conveys (D : Text → Prop) (o : Outline) (d : Data) : Prop where
  isLegal : o.IsLegal D
  mem_references : ∀ n, n ∈ o.references ↔ Mentions D d n

theorem Outline.conveys_leaf {D : Text → Prop} {d : Data} (s : Schema) (h : ∀ n, ¬ Mentions D d n) :
    Outline.Conveys D (.leaf s) d :=
  ⟨trivial, fun n => by simp [Outline.references, h]⟩

theorem Grammar.Shape.ne_recurring {D : Text → Prop} {d : Data} (h : Shape D d) (n : Nat)
    (e : Data) : d ≠ .recurring n e := by
  rintro rfl
  cases h

section

variable {declared : Text → Bool} (around : List (Nat × Bool)) (place : Text)

theorem Outline.mem_membersFrom {index : Nat} {ms : List Data} {o : Outline} :
    o ∈ Outline.membersFrom declared around place index ms →
      ∃ p, ∃ m ∈ ms, o = Outline.ofData declared around p m := by
  rw [Outline.membersFrom_eq_mapIdx, List.mem_mapIdx]
  rintro ⟨i, hi, rfl⟩
  exact ⟨_, ms[i], List.getElem_mem hi, rfl⟩

theorem Outline.exists_mem_membersFrom {index : Nat} {ms : List Data} {m : Data} (h : m ∈ ms) :
    ∃ p, Outline.ofData declared around p m ∈
      Outline.membersFrom declared around place index ms := by
  obtain ⟨i, hi, rfl⟩ := List.mem_iff_getElem.1 h
  rw [Outline.membersFrom_eq_mapIdx]
  exact ⟨_, List.mem_mapIdx.2 ⟨i, hi, rfl⟩⟩

variable {D : Text → Prop}

theorem Outline.conveys_sequence {entries : List (Data × Data)} {e : Data}
    (h : HasType entries "sequence") (he : Data.find? entries "element" = some e)
    (hr : IsFlag entries "readonly")
    (hconveys : ∀ p, (Outline.ofData declared around p e).Conveys D e) :
    (Outline.ofEntries declared around place true entries).Conveys D (.mapping entries) := by
  obtain ⟨hl, href⟩ := hconveys (place ++ "[]")
  rw [Outline.ofEntries, Outline.ofParts_sequence h, he]
  exact ⟨⟨hl, exists_flagUnder_iff.2 hr⟩, fun n => by rw [mentions_sequence h he, ← href]; rfl⟩

theorem Outline.conveys_union {entries : List (Data × Data)} {ms : List Data}
    (h : HasType entries "union") (hm : Data.find? entries "members" = some (.list ms))
    (hconveys : ∀ m ∈ ms, ∀ p, (Outline.ofData declared around p m).Conveys D m) :
    (Outline.ofEntries declared around place true entries).Conveys D (.mapping entries) := by
  rw [Outline.ofEntries, Outline.ofParts_union h, hm]
  simp only [Option.bind_some, Outline.membersOf]
  refine ⟨?_, fun n => ?_⟩
  · rw [Outline.IsLegal, Outline.allLegal_iff]
    intro o ho
    obtain ⟨p, m, hm, rfl⟩ := Outline.mem_membersFrom _ _ ho
    exact (hconveys m hm p).isLegal
  · rw [Outline.references, Outline.mem_allReferences, mentions_union h hm]
    constructor
    · rintro ⟨o, ho, hn⟩
      obtain ⟨p, m, hm, rfl⟩ := Outline.mem_membersFrom _ _ ho
      exact ⟨m, hm, ((hconveys m hm p).mem_references n).1 hn⟩
    · rintro ⟨m, hm, hn⟩
      obtain ⟨p, hp⟩ := Outline.exists_mem_membersFrom around place hm
      exact ⟨_, hp, ((hconveys m hm p).mem_references n).2 hn⟩

theorem Outline.conveys_fieldless {entries : List (Data × Data)} (h : HasType entries "record")
    (hf : Data.find? entries "fields" = none ∨ Data.find? entries "fields" = some .null) :
    (Outline.ofEntries declared around place true entries).Conveys D (.mapping entries) := by
  have hfs : ((Data.find? entries "fields").map
      (Outline.fieldsOf declared around place)).getD (.ok []) = .ok [] := by
    rcases hf with hf | hf <;> rw [hf] <;> simp [Outline.fieldsOf]
  rw [Outline.ofEntries, Outline.ofParts_record h, hfs]
  refine ⟨by simp [Outline.IsLegal, FieldOutline.AllLegal], fun n => ?_⟩
  simp [Outline.references, FieldOutline.allReferences, not_mentions_fieldless h hf]

theorem Outline.conveys_record {entries fs : List (Data × Data)} (h : HasType entries "record")
    (hf : Data.find? entries "fields" = some (.mapping fs))
    (hk : HasDistinctTexts (fs.map Prod.fst)) (hflags : ∀ f ∈ fs, HasFieldFlags f.2)
    (hr : ∀ f ∈ fs, ∀ n d, f.2 ≠ .recurring n d)
    (hconveys : ∀ f ∈ fs, ∀ p, (Outline.ofData declared around p (fieldShape f.2)).Conveys D
      (fieldShape f.2)) :
    (Outline.ofEntries declared around place true entries).Conveys D (.mapping entries) := by
  rw [Outline.ofEntries, Outline.ofParts_record h, hf]
  simp only [Option.map_some, Option.getD_some, Outline.fieldsOf]
  refine ⟨?_, fun n => ?_⟩
  · rw [FieldOutline.isLegal_ofEntries_iff _ _ _ hr]
    exact ⟨hk, fun f hf => ⟨hflags f hf, (hconveys f hf _).isLegal⟩⟩
  · rw [Outline.references, FieldOutline.mem_allReferences, mentions_record h hf,
      FieldOutline.ofEntries_of_showable _ _ _ hk.1]
    have hfield : ∀ f (hf : f ∈ fs), n ∈ (FieldOutline.ofData declared around f.1.display
        (place ++ "." ++ f.1.display) f.2).shape.references ↔ Mentions D (fieldShape f.2) n := by
      intro f hf
      rw [FieldOutline.references_ofData _ _ _ _ (hr f hf) (hflags f hf)]
      exact (hconveys f hf _).mem_references n
    constructor
    · rintro ⟨o, ho, hn⟩
      obtain ⟨f, hf, rfl⟩ := List.mem_map.1 ho
      exact ⟨f, hf, (hfield f hf).1 hn⟩
    · rintro ⟨f, hf, hn⟩
      exact ⟨_, List.mem_map_of_mem hf, (hfield f hf).2 hn⟩

theorem Grammar.Shape.conveys (hd : declared [] = false) {d : Data}
    (h : Shape (fun n => declared n = true) d) :
    (Outline.ofData declared around place d).Conveys (fun n => declared n = true) d := by
  induction h generalizing place with
  | null =>
    rw [Outline.ofData_null]
    exact Outline.conveys_leaf _ fun _ => not_mentions_null
  | word h =>
    rw [Outline.ofData_text]
    exact ⟨isLegal_readWord.2 h, fun n => by rw [mem_references_readWord, mentions_text]⟩
  | @reference entries t h ht =>
    have hne : t.strip ≠ [] := by
      intro hnil
      rw [hnil, hd] at ht
      cases ht
    rw [Outline.ofData_mapping, Outline.ofEntries, Outline.ofParts_reference h hne]
    exact ⟨ht, fun n => by simp [Outline.references, mentions_reference h, ht]⟩
  | primitive k h =>
    rw [Outline.ofData_mapping, Outline.ofEntries, Outline.ofParts_primitive h]
    have hk := fun w hw => PrimitiveKind.name_ne_of_ofName? (w := w) hw k
    exact Outline.conveys_leaf _ fun _ =>
      not_mentions h (hk "sequence" rfl) (hk "union" rfl) (hk "record" rfl)
  | never h =>
    rw [Outline.ofData_mapping, Outline.ofEntries, Outline.ofParts_never h]
    exact Outline.conveys_leaf _ fun _ => not_mentions h (by decide) (by decide) (by decide)
  | opaqueLeaf h hk hn =>
    rw [Outline.ofData_mapping, Outline.ofEntries, Outline.ofParts_opaque h]
    obtain ⟨-, -, s, hs⟩ | ⟨hno, -⟩ := readOpaque_cases place _
    · rw [hs]
      exact Outline.conveys_leaf _ fun _ => not_mentions h (by decide) (by decide) (by decide)
    · exact absurd ⟨hk, hn⟩ hno
  | sequence h he hs hr ih =>
    rw [Outline.ofData_mapping]
    exact Outline.conveys_sequence around place h he hr ih
  | union h hm hs ih =>
    rw [Outline.ofData_mapping]
    exact Outline.conveys_union around place h hm ih
  | fieldless h hf =>
    rw [Outline.ofData_mapping]
    exact Outline.conveys_fieldless around place h hf
  | @record entries fs h hf hk hflags hs ih =>
    have hr : ∀ f ∈ fs, ∀ n d, f.2 ≠ .recurring n d := by
      intro f hf n d he
      have := hs f hf
      rw [he] at this
      exact this.ne_recurring n d rfl
    rw [Outline.ofData_mapping]
    exact Outline.conveys_record around place h hf hk hflags hr ih

end

/-! ## Finite data -/

theorem Data.allFinite_iff {ds : List Data} :
    Data.allFinite ds = true ↔ ∀ d ∈ ds, d.isFinite = true := by
  induction ds with
  | nil => simp [Data.allFinite]
  | cons d ds ih => simp [Data.allFinite, ih]

theorem Data.entriesFinite_iff {entries : List (Data × Data)} :
    Data.entriesFinite entries = true ↔
      ∀ e ∈ entries, e.1.isFinite = true ∧ e.2.isFinite = true := by
  induction entries with
  | nil => simp [Data.entriesFinite]
  | cons e rest ih =>
    obtain ⟨k, v⟩ := e
    simp [Data.entriesFinite, ih]

theorem Data.isFinite_of_find? {entries : List (Data × Data)} {key : Text} {v : Data}
    (h : (Data.mapping entries).isFinite = true) (hv : Data.find? entries key = some v) :
    v.isFinite = true := by
  rw [Data.isFinite, Data.entriesFinite_iff] at h
  obtain ⟨k, hk⟩ := Data.mem_of_find? hv
  exact (h _ hk).2

theorem Data.sizeOf_of_mem {entries : List (Data × Data)} {e : Data × Data} (h : e ∈ entries) :
    sizeOf e.2 < sizeOf (Data.mapping entries) := by
  have := List.sizeOf_lt_of_mem h
  obtain ⟨k, v⟩ := e
  simp only [Prod.mk.sizeOf_spec, Data.mapping.sizeOf_spec] at this ⊢
  omega

theorem Data.sizeOf_of_find? {entries : List (Data × Data)} {key : Text} {v : Data}
    (hv : Data.find? entries key = some v) : sizeOf v < sizeOf (Data.mapping entries) := by
  obtain ⟨k, hk⟩ := Data.mem_of_find? hv
  exact Data.sizeOf_of_mem hk

theorem Grammar.isFinite_fieldShape {d : Data} (h : d.isFinite = true) :
    (fieldShape d).isFinite = true := by
  cases d with
  | mapping entries =>
    rw [fieldShape]
    cases hs : Data.find? entries "shape" with
    | some shape => exact Data.isFinite_of_find? h hs
    | none =>
      rw [Data.isFinite, Data.entriesFinite_iff] at h
      rw [Option.getD_none, Data.isFinite, Data.entriesFinite_iff]
      exact fun e he => h e ((List.mem_filter.1 he).1)
  | _ => exact h

theorem Grammar.sizeOf_without_le (keys : List Text) (entries : List (Data × Data)) :
    sizeOf (without keys entries) ≤ sizeOf entries := by
  induction entries with
  | nil => exact Nat.le_refl _
  | cons e rest ih =>
    rw [without, List.filter_cons]
    rw [without] at ih
    split <;> simp only [List.cons.sizeOf_spec] <;> omega

theorem Grammar.sizeOf_fieldShape_le (d : Data) : sizeOf (fieldShape d) ≤ sizeOf d := by
  cases d with
  | mapping entries =>
    rw [fieldShape]
    cases hs : Data.find? entries "shape" with
    | some shape => exact Nat.le_of_lt (Data.sizeOf_of_find? hs)
    | none =>
      have := sizeOf_without_le (ownFlags entries) entries
      simp only [Option.getD_none, Data.mapping.sizeOf_spec]
      omega
  | _ => exact Nat.le_refl _

theorem Data.ne_recurring_of_isFinite {d : Data} (h : d.isFinite = true) (n : Nat) (e : Data) :
    d ≠ .recurring n e := by
  rintro rfl
  rw [Data.isFinite] at h
  cases h

/-! ## From outlines to the grammar -/

section

variable {declared : Text → Bool} {around : List (Nat × Bool)} {place : Text}

theorem Outline.eq_list_of_membersOf {v : Data} {os : List Outline} (hv : v.isFinite = true)
    (h : Outline.membersOf declared around place v = some os) :
    ∃ ms, v = .list ms ∧ os = Outline.membersFrom declared around place 0 ms := by
  cases v with
  | list ms =>
    rw [Outline.membersOf] at h
    cases h
    exact ⟨ms, rfl, rfl⟩
  | recurring n e => exact absurd rfl (Data.ne_recurring_of_isFinite hv n e)
  | _ => simp [Outline.membersOf] at h

theorem Outline.eq_mapping_of_fieldsOf {v : Data} {os : List FieldOutline}
    (hv : v.isFinite = true) (h : Outline.fieldsOf declared around place v = .ok os) :
    v = .null ∨ ∃ fs, v = .mapping fs ∧ os = FieldOutline.ofEntries declared around place fs := by
  cases v with
  | null => exact .inl rfl
  | mapping fs =>
    rw [Outline.fieldsOf] at h
    cases h
    exact .inr ⟨fs, rfl, rfl⟩
  | recurring n e => exact absurd rfl (Data.ne_recurring_of_isFinite hv n e)
  | _ => simp [Outline.fieldsOf] at h

theorem Grammar.shape_of_isLegal {place : Text} {d : Data} (hd : d.isFinite = true)
    (h : (Outline.ofData declared around place d).IsLegal fun n => declared n = true) :
    Shape (fun n => declared n = true) d := by
  cases d with
  | null => exact .null
  | text t =>
    rw [Outline.ofData_text, isLegal_readWord] at h
    exact .word h
  | mapping entries =>
    rw [Outline.ofData_mapping] at h
    obtain ⟨t, ht, hne⟩ | ⟨k, ht⟩ | ht | ht | ht | ht | ht := Outline.type_of_isLegal h
    · rw [Outline.ofEntries, Outline.ofParts_reference ht hne] at h
      exact .reference ht h
    · exact .primitive k ht
    · exact .never ht
    · rw [Outline.ofEntries, Outline.ofParts_opaque ht] at h
      obtain ⟨hk, hn, -⟩ | ⟨-, cause, hc⟩ := readOpaque_cases place entries
      · exact .opaqueLeaf ht hk hn
      · rw [hc] at h
        exact h.elim
    · obtain ⟨hf, -⟩ | ⟨v, os, hf, hos, ho⟩ := Outline.exists_fields ht h
      · exact .fieldless ht (.inl hf)
      · have hv := Data.isFinite_of_find? hd hf
        have hsize := Data.sizeOf_of_find? hf
        obtain rfl | ⟨fs, rfl, rfl⟩ := Outline.eq_mapping_of_fieldsOf hv hos
        · exact .fieldless ht (.inr hf)
        · rw [Data.isFinite, Data.entriesFinite_iff] at hv
          rw [ho, FieldOutline.isLegal_ofEntries_iff _ _ _
            fun f hf => Data.ne_recurring_of_isFinite (hv f hf).2] at h
          refine .record ht hf h.1 (fun f hf => (h.2 f hf).1) fun f hf => ?_
          have hsmall : sizeOf (fieldShape f.2) < sizeOf (Data.mapping entries) :=
            Nat.lt_of_le_of_lt (sizeOf_fieldShape_le f.2)
              (Nat.lt_trans (Data.sizeOf_of_mem hf) hsize)
          exact shape_of_isLegal (isFinite_fieldShape (hv f hf).2) (h.2 f hf).2
    · obtain ⟨e, he, ho⟩ := Outline.exists_element ht h
      have hsmall := Data.sizeOf_of_find? he
      rw [ho, if_pos rfl] at h
      exact .sequence ht he (shape_of_isLegal (Data.isFinite_of_find? hd he) h.1)
        (exists_flagUnder_iff.1 h.2)
    · obtain ⟨v, os, hm, hos, ho⟩ := Outline.exists_members ht h
      have hv := Data.isFinite_of_find? hd hm
      have hsize := Data.sizeOf_of_find? hm
      obtain ⟨ms, rfl, rfl⟩ := Outline.eq_list_of_membersOf hv hos
      rw [Data.isFinite, Data.allFinite_iff] at hv
      rw [ho, Outline.IsLegal, Outline.allLegal_iff] at h
      refine .union ht hm fun m hmem => ?_
      have hsmall : sizeOf m < sizeOf (Data.mapping entries) := by
        have := List.sizeOf_lt_of_mem hmem
        simp only [Data.list.sizeOf_spec, Data.mapping.sizeOf_spec] at *
        omega
      obtain ⟨p, hp⟩ := Outline.exists_mem_membersFrom around place hmem
      exact shape_of_isLegal (hv m hmem) (h _ hp)
  | recurring n e => exact absurd rfl (Data.ne_recurring_of_isFinite hd n e)
  | _ => simp [Outline.ofData, Outline.IsLegal] at h
termination_by sizeOf d
decreasing_by all_goals (subst_vars; exact hsmall)

end

end ShapeAlgebra
