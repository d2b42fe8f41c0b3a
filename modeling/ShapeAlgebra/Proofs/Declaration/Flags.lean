import ShapeAlgebra.Proofs.Declaration.Denotation

/-!
# The flags of fields

The flags in the mapping of a field are those of the field, but for `readonly` beside a sequence
that is described in place: that belongs to the sequence. Whether there is such a sequence is told
by the type alone. A mapping may have the type of a sequence and be a reference all the same; then
its `readonly` is neither that of the field nor that of a sequence.

Results:

* `Grammar.DenotesField.keepsFlags`: what becomes of the flags in the mapping of a field.
* `Catalog.keeps_flags`: the same for all fields that are declared in a document, at any depth.
* `Catalog.exists_readonly_lost`: a field that should be read-only and is not.
-/

namespace ShapeAlgebra

open Grammar

/-! ## Flags that are read -/

theorem eq_true_iff_of_flagUnder {entries : List (Data × Data)} {place key : Text} {b : Bool}
    (h : flagUnder entries place key = .ok b) :
    b = true ↔ Data.find? entries key = some (.bool true) := by
  rw [flagUnder] at h
  cases hv : Data.find? entries key with
  | none => rw [hv] at h; cases h; simp
  | some v =>
    rw [hv] at h
    cases v with
    | null => cases h; simp
    | bool b' => cases h; simp
    | _ => cases h

theorem flagUnder_of_readFlags {entries : List (Data × Data)} {place : Text} {own : Bool}
    {f : Flags} (h : readFlags place entries own = .ok f) :
    flagUnder entries place "optional" = .ok f.optional ∧
      flagUnder entries place "nullable" = .ok f.nullable ∧
      if own then f.readonly = false else flagUnder entries place "readonly" = .ok f.readonly := by
  obtain ⟨optional, ho, h⟩ := exists_of_bind_eq_ok h
  obtain ⟨nullable, hn, h⟩ := exists_of_bind_eq_ok h
  cases own with
  | true => cases h; exact ⟨ho, hn, rfl⟩
  | false =>
    obtain ⟨readonly, hr, h⟩ := exists_of_bind_eq_ok h
    cases h
    exact ⟨ho, hn, hr⟩

/-! ## The mapping of a field -/

namespace Grammar

/-- A mapping that is a reference and has the type of a sequence beside it. -/
def IsTypedReference (m : List (Data × Data)) : Prop :=
  Data.find? m "shape" = none ∧ isInlineSequence m = true ∧ Data.find? m "ref" ≠ none

/-- If the mapping of a field is read-only, the field is, or the sequence that the mapping itself
describes. -/
def KeepsReadonly (m : List (Data × Data)) (f : Field) : Prop :=
  Data.find? m "readonly" = some (.bool true) → f.flags.readonly = true ∨
    Data.find? m "shape" = none ∧ HasType m "sequence" ∧ ∃ e, f.shape = .sequence e true

/-- What becomes of the flags in the mapping of a field: none is lost, unless it is that of a
reference with the type of a sequence, and none is invented. -/
structure KeepsFlags (m : List (Data × Data)) (f : Field) : Prop where
  optional : f.flags.optional = true ↔ Data.find? m "optional" = some (.bool true)
  nullable : f.flags.nullable = true ↔ Data.find? m "nullable" = some (.bool true)
  readonly : ¬ IsTypedReference m → KeepsReadonly m f
  notReadonly : Data.find? m "readonly" ≠ some (.bool true) → f.flags.readonly = false

theorem hasType_of_isInlineSequence {m : List (Data × Data)} (h : isInlineSequence m = true)
    (href : Data.find? m "ref" = none) : HasType m "sequence" := by
  rw [isInlineSequence] at h
  split at h
  · next t ht => exact ⟨href, t, ht, by rw [eq_of_beq h]; decide⟩
  · cases h

/-- The sequence that the mapping of a field describes in place has the `readonly` of the
mapping. -/
theorem DenotesField.exists_inlineSequence {ds : Declarations} {e : Data × Data} {f : Field}
    {m : List (Data × Data)} (h : DenotesField ds e f) (hm : e.2.entries? = some m)
    (hs : Data.find? m "shape" = none) (hinline : isInlineSequence m = true)
    (ht : HasType m "sequence") :
    ∃ t r, f.shape = .sequence t r ∧ ∀ place, flagUnder m place "readonly" = .ok r := by
  have hshape := h.shape
  rw [Data.content_of_entries? hm, fieldShape, hs, Option.getD_none] at hshape
  have htype : HasType (without (ownFlags m) m) "sequence" := by
    rw [HasType, find?_without_ownFlags _ _ (by decide), find?_without_ownFlags _ _ (by decide)]
    exact ht
  obtain ⟨-, t, r, -, hf, -, hflag⟩ := hshape.exists_sequence rfl htype
  refine ⟨t, r, hf, fun place => ?_⟩
  rw [← hflag place, flagUnder_readonly_without place hs, if_pos hinline]

/-- The flags in the mapping of a field are those of the field or of the sequence in place. -/
theorem DenotesField.keepsFlags {ds : Declarations} {e : Data × Data} {f : Field}
    {m : List (Data × Data)} (h : DenotesField ds e f) (hm : e.2.entries? = some m) :
    KeepsFlags m f := by
  have hflags := h.flags []
  rw [Data.content_of_entries? hm] at hflags
  obtain ⟨hoptional, hnullable, hreadonly⟩ := flagUnder_of_readFlags hflags
  refine ⟨eq_true_iff_of_flagUnder hoptional, eq_true_iff_of_flagUnder hnullable,
    fun htyped hm' => ?_, fun hm' => ?_⟩
  · split at hreadonly
    · next hown =>
      obtain ⟨hs, hinline⟩ : Data.find? m "shape" = none ∧ isInlineSequence m = true := by
        simpa using hown
      have href : Data.find? m "ref" = none := by
        cases hr : Data.find? m "ref" with
        | none => rfl
        | some v => exact absurd ⟨hs, hinline, hr ▸ Option.some_ne_none v⟩ htyped
      have ht := hasType_of_isInlineSequence hinline href
      obtain ⟨t, r, hf, hflag⟩ := h.exists_inlineSequence hm hs hinline ht
      obtain rfl : r = true := (eq_true_iff_of_flagUnder (hflag [])).2 hm'
      exact .inr ⟨hs, ht, t, hf⟩
    · exact .inl ((eq_true_iff_of_flagUnder hreadonly).2 hm')
  · split at hreadonly
    · exact hreadonly
    · exact Bool.eq_false_iff.2 fun htrue => hm' ((eq_true_iff_of_flagUnder hreadonly).1 htrue)

/-- Whether a field has the name of an entry and, if the entry holds a mapping, its flags. -/
def IsFieldOf (e : Data × Data) (f : Field) : Prop :=
  f.name = e.1.display ∧ ∀ m, e.2.entries? = some m → KeepsFlags m f

/-- A mapping that declares a record, with the entries for its fields. -/
def HasFields (d : Data) (fs : List (Data × Data)) : Prop :=
  ∃ entries v, d.entries? = some entries ∧ HasType entries "record" ∧
    Data.find? entries "fields" = some v ∧ v.entries? = some fs

end Grammar

/-! ## Documents -/

namespace Catalog

/-- Every record that is declared in a document is read with the flags of its fields, and as it is
read it stands in the schema of the name under which it is declared, up to order. -/
theorem keeps_flags {document es : List (Data × Data)} {path : Option Text} {c : Catalog}
    (hs : (Data.find? document "schemas").bind Data.entries? = some es)
    (hc : Catalog.ofDocument document path = .ok c) {n : Text} {d : Data}
    (hd : Data.find? es n = some d) :
    ∃ s, c.get n = .ok s ∧ (∀ place, c.read place d = .ok s) ∧
      ∀ way t fs, ReadAt d way t → HasFields t fs →
        ∃ r : Record, (∀ place, c.read place t = .ok (.record r)) ∧
          (∃ r', s.At way (.record r') ∧ r.same r' = true) ∧
          List.Forall₂ IsFieldOf fs r := by
  obtain ⟨ds, rfl, -, hmeans⟩ := exists_means_of_ofDocument hs hc
  obtain ⟨s, hm, hget⟩ := hmeans n (Declarations.declares_iff.2 ⟨d, hd⟩)
  have hdenotes : Denotes ds d s := by
    cases hm with
    | reference ho hm =>
      rw [Declarations.outline?_eq, hd, Option.map_some] at ho
      cases ho
      exact .of_means hm
  refine ⟨s, hget, read_of_denotes hmeans hdenotes, fun way t fs hat hfields => ?_⟩
  obtain ⟨entries, v, ht, htype, hv, hfs⟩ := hfields
  obtain ⟨u, hu, hplace⟩ := hat.exists_denoted hdenotes
  obtain ⟨r, rfl, hall⟩ := hu.exists_record ht htype hv hfs
  refine ⟨r, read_of_denotes hmeans hu, ?_, hall.imp fun e f hf =>
    ⟨hf.name, fun _ => hf.keepsFlags⟩⟩
  obtain ⟨u', hat', hsame⟩ := hplace rfl
  obtain ⟨r', rfl, -⟩ := Schema.exists_of_same_record hsame
  exact ⟨r', hat', hsame⟩

/-- The declarations of a record whose one field is described by a mapping, and of the strings that
it may refer to. -/
def holding (m : List (Data × Data)) : Declarations :=
  [("A", .mapping [(.text "type", .text "record"),
      (.text "fields", .mapping [(.text "f", .mapping m)])]),
    ("X", .text "string")]

/-- A record with one field makes a catalog that binds its name to it, if that is what the
declaration means. -/
theorem exists_of_holding {m : List (Data × Data)} {flags : Flags} {o : Outline} {t : Schema}
    (h : (holding m).outline? "A" = some (.record [⟨"f", flags, o⟩]))
    (ht : Outline.Means (holding m) o t) :
    ∃ c, Catalog.ofDocument (documentOf (holding m).entries) none = .ok c ∧
      c.get "A" = .ok (.record [⟨"f", t, flags⟩]) := by
  have hrecord : Outline.Means (holding m) (.reference "A") (.record [⟨"f", t, flags⟩]) :=
    .reference h (.record (.cons _ _ ht .nil) (by simp))
  have hstring : Outline.Means (holding m) (.reference "X") (.primitive .string) :=
    .reference rfl (.leaf _)
  have hall : ∀ n, (holding m).declares n = true →
      ∃ s, Outline.Means (holding m) (.reference n) s := by
    intro n hn
    have hmem := Declarations.mem_of_declares hn
    simp only [holding, List.map_cons, List.map_nil, List.mem_cons, List.not_mem_nil,
      or_false] at hmem
    rcases hmem with rfl | rfl
    · exact ⟨_, hrecord⟩
    · exact ⟨_, hstring⟩
  have hs : (Data.find? (documentOf (holding m).entries) "schemas").bind Data.entries? =
      some (holding m).entries := rfl
  have hnames : HasNames (holding m).entries := by
    rw [Declarations.hasNames_entries_iff]
    simp only [holding, List.map_cons, List.map_nil]
    decide
  obtain ⟨c, hc, hget⟩ := exists_of_means none hs hnames hall
  exact ⟨c, hc, hget _ _ hrecord⟩

/-- A read-only sequence that is described in place, in a field that may be null. -/
def inlineSequence : List (Data × Data) :=
  [(.text "type", .text "sequence"), (.text "element", .text "X"), (.text "readonly", .bool true),
    (.text "nullable", .bool true)]

theorem keeps_flags_inlineSequence : ∃ c d s r,
    Catalog.ofDocument (documentOf (holding inlineSequence).entries) none = .ok c ∧
      Data.find? (holding inlineSequence).entries "A" = some d ∧ c.get "A" = .ok s ∧
      (∀ place, c.read place d = .ok (.record r)) ∧
      List.Forall₂ IsFieldOf [(.text "f", .mapping inlineSequence)] r := by
  obtain ⟨c, hc, -⟩ := exists_of_holding (m := inlineSequence) rfl
    (.sequence true (.reference rfl (.leaf (.primitive .string))))
  obtain ⟨s, hget, -, hrecords⟩ := keeps_flags rfl hc (n := "A") rfl
  obtain ⟨r, hread, -, hfields⟩ := hrecords [] _ [(.text "f", .mapping inlineSequence)] (.here _)
    ⟨_, _, rfl, ⟨rfl, _, rfl, by decide⟩, rfl, rfl⟩
  exact ⟨c, _, s, r, hc, rfl, hget, hread, hfields⟩

/-- A read-only reference that has the type of a sequence beside it. -/
def typedReference : List (Data × Data) :=
  [(.text "ref", .text "X"), (.text "type", .text "sequence"), (.text "readonly", .bool true)]

/-- Beside a reference and the type of a sequence, `readonly` is lost. -/
theorem exists_readonly_lost : ∃ c f,
    Catalog.ofDocument (documentOf (holding typedReference).entries) none = .ok c ∧
      c.get "A" = .ok (.record [f]) ∧ f.name = "f" ∧ f.shape = .primitive .string ∧
      f.flags.readonly = false ∧ ¬ KeepsReadonly typedReference f := by
  obtain ⟨c, hc, hget⟩ := exists_of_holding (m := typedReference) rfl
    (.reference rfl (.leaf (.primitive .string)))
  refine ⟨c, _, hc, hget, rfl, rfl, rfl, fun hkeeps => ?_⟩
  rcases hkeeps rfl with hreadonly | ⟨-, -, e, he⟩
  · cases hreadonly
  · cases he

end Catalog

end ShapeAlgebra
