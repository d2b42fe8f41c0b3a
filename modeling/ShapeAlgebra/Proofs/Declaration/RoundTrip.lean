import ShapeAlgebra.Declaration.Redeclared
import ShapeAlgebra.Proofs.Declaration.Agreement
import ShapeAlgebra.Proofs.Schema.Normal

/-!
# Reading what was written

A schema that is written as a declaration and added to a document under a new name is read back in
its normal form, whatever else the document declares: the words of this library are never taken for
declared names, and what the other names mean stays.

Results:

* `Schema.means_declare`: the declaration of a schema means its normal form.
* `Schema.redeclared_eq_normal`: what is read back from a declaration alone.
* `Catalog.get_declared`: the schema that is read back from a document.
-/

namespace ShapeAlgebra

open Grammar

/-! ## What is written is read -/

section

variable (declared : Text → Bool) (around : List (Nat × Bool)) (place : Text)

theorem ofData_declareOpaque (k : OpaqueKind) (n : Option Text) :
    Outline.ofData declared around place (declareOpaque k n).toData =
      .leaf (.opaqueLeaf k n) := by
  have hmapping : ∀ es : List (Data × Data), HasType es "opaque" →
      Data.find? es "kind" = some (.text (Text.ofString k.name)) →
      Data.find? es "name" = n.map .text →
      Outline.ofData declared around place (.mapping es) = .leaf (.opaqueLeaf k n) := by
    intro es ht hk hn
    rw [Outline.ofData_mapping, Outline.ofEntries, Outline.ofParts_opaque ht, readOpaque, hk, hn]
    simp only [Option.getD_some, OpaqueKind.ofData, OpaqueKind.ofName?_name]
    cases n <;> rfl
  cases n with
  | some n =>
    rw [declareOpaque]
    exact hmapping _ ⟨rfl, _, rfl, by decide⟩ rfl rfl
  | none =>
    cases k with
    | callable =>
      rw [declareOpaque, Document.toData_text, Outline.ofData_text]
      rfl
    | _ => exact hmapping _ ⟨rfl, _, rfl, by decide⟩ rfl rfl

theorem ofData_declareSequence (d : Document) (r : Bool) :
    Outline.ofData declared around place (declareSequence d r).toData =
      .sequence (Outline.ofData declared around (place ++ "[]") d.toData) (.ok r) := by
  cases r with
  | true =>
    have ht : HasType (Document.toDataEntries [("type", .text "sequence"), ("element", d),
        ("readonly", .bool true)]) "sequence" := ⟨rfl, _, rfl, by decide⟩
    rw [declareSequence, if_pos rfl, Document.toData, Outline.ofData_mapping, Outline.ofEntries,
      Outline.ofParts_sequence ht]
    rfl
  | false =>
    have ht : HasType (Document.toDataEntries [("type", .text "sequence"), ("element", d)])
        "sequence" := ⟨rfl, _, rfl, by decide⟩
    rw [declareSequence, if_neg Bool.false_ne_true, Document.toData, Outline.ofData_mapping,
      Outline.ofEntries, Outline.ofParts_sequence ht]
    rfl

theorem ofData_declareRecord (fields : List (Text × Document)) :
    Outline.ofData declared around place (declareRecord fields).toData =
      .record (FieldOutline.ofEntries declared around place (Document.toDataEntries fields)) := by
  have ht : HasType (Document.toDataEntries [("type", .text "record"),
      ("fields", .mapping fields)]) "record" := ⟨rfl, _, rfl, by decide⟩
  rw [declareRecord, Document.toData, Outline.ofData_mapping, Outline.ofEntries,
    Outline.ofParts_record ht]
  have hf : Data.find? (Document.toDataEntries [("type", .text "record"),
      ("fields", .mapping fields)]) "fields" =
        some (.mapping (Document.toDataEntries fields)) := rfl
  rw [hf, Option.map_some, Option.getD_some, Outline.fieldsOf]

theorem ofData_union (ds : List Document) :
    Outline.ofData declared around place
        (Document.mapping [("type", .text "union"), ("members", .list ds)]).toData =
      .union (Outline.membersFrom declared around place 0 (Document.toDataAll ds)) := by
  have ht : HasType (Document.toDataEntries [("type", .text "union"), ("members", .list ds)])
      "union" := ⟨rfl, _, rfl, by decide⟩
  have hm : Data.find? (Document.toDataEntries [("type", .text "union"), ("members", .list ds)])
      "members" = some (.list (Document.toDataAll ds)) := rfl
  rw [Document.toData, Outline.ofData_mapping, Outline.ofEntries, Outline.ofParts_union ht, hm,
    Option.bind_some, Outline.membersOf]

end

/-! ## Fields -/

/-- Documents in which a shape is written: a text, or a mapping that is no field with a shape under
a key of its own. -/
def Document.IsShape : Document → Prop
  | .text _ => True
  | .mapping es => Document.hasKey (.mapping es) "shape" = false
  | _ => False

theorem isShape_declareUnion (members : List (Text × Document)) :
    (declareUnion members).IsShape := by
  rw [declareUnion]
  split
  · trivial
  · exact rfl

theorem Schema.isShape_declare (s : Schema) : s.declare.IsShape := by
  cases s with
  | primitive k => trivial
  | opaqueLeaf k n => cases n <;> cases k <;> trivial
  | sequence e r => cases r <;> exact rfl
  | union ms => exact isShape_declareUnion _
  | record fs => exact rfl
  | exclusive a b x y => exact isShape_declareUnion _

theorem find?_toDataEntries_eq_none {es : List (Text × Document)} {key : Text}
    (h : Document.hasKey (.mapping es) key = false) :
    Data.find? (Document.toDataEntries es) key = none := by
  induction es with
  | nil => rfl
  | cons e es ih =>
    obtain ⟨k, d⟩ := e
    simp only [Document.hasKey, List.any_cons, Bool.or_eq_false_iff, beq_eq_false_iff_ne] at h
    rw [Document.toDataEntries, Data.find?_cons_text, if_neg (Ne.symm h.1)]
    exact ih h.2

theorem Flags.eq_of_declare_isEmpty {f : Flags} (h : f.declare.isEmpty = true) : f = {} := by
  obtain ⟨o, n, r⟩ := f
  cases o <;> cases n <;> cases r <;> first | rfl | cases h

theorem Grammar.without_eq_self {keys : List Text} {entries : List (Data × Data)}
    (h : ∀ key ∈ keys, Data.find? entries key = none) : without keys entries = entries := by
  refine List.filter_eq_self.2 fun e he => ?_
  simp only [Bool.not_eq_true', List.any_eq_false]
  intro key hkey
  exact List.find?_eq_none.1 (Option.map_eq_none_iff.1 (h key hkey)) e he

/-- A field is written as its flags and its shape. -/
theorem read_declareField {d : Document} (hd : d.IsShape) (flags : Flags) (place : Text) :
    fieldShape (declareField d flags).toData = d.toData ∧
      fieldFlags place (declareField d flags).toData = .ok flags := by
  rw [declareField]
  split
  · -- Without flags and without keys that could be taken for them, the shape stands for the field.
    next h =>
    obtain ⟨hset, hkeys⟩ := (Bool.and_eq_true _ _).mp h
    rw [Flags.eq_of_declare_isEmpty hset]
    cases d with
    | text t => exact ⟨rfl, rfl⟩
    | mapping es =>
      have hnone : ∀ key ∈ Flags.names, Data.find? (Document.toDataEntries es) key = none := by
        intro key hkey
        simp only [Bool.not_eq_true', List.any_eq_false, Bool.not_eq_true] at hkeys
        exact find?_toDataEntries_eq_none (hkeys key hkey)
      constructor
      · rw [Document.toData, fieldShape, find?_toDataEntries_eq_none hd, Option.getD_none,
          without_eq_self fun key hkey => hnone key (mem_names_of_mem_ownFlags hkey)]
      · simp only [Document.toData, fieldFlags, readFlags, flagUnder, hnone "optional" (by decide),
          hnone "nullable" (by decide), hnone "readonly" (by decide)]
        split <;> rfl
    | _ => exact hd.elim
  · obtain ⟨o, n, r⟩ := flags
    constructor
    · rfl
    · cases o <;> cases n <;> cases r <;> rfl

/-! ## Meanings -/

section

variable {ds : Declarations} {declared : Text → Bool} {around : List (Nat × Bool)}

theorem Document.toData_ne_recurring (d : Document) (n : Nat) (e : Data) :
    d.toData ≠ .recurring n e := by
  cases d <;> rintro ⟨⟩

theorem FieldOutline.allMean_declareAll {fs : List Field}
    (h : ∀ f ∈ fs, ∀ p, Outline.Means ds (Outline.ofData declared around p f.shape.declare.toData)
      f.shape.normal) (place : Text) :
    FieldOutline.AllMean ds (FieldOutline.ofEntries declared around place
      (Document.toDataEntries (Field.declareAll fs))) (Field.normalAll fs) := by
  induction fs with
  | nil =>
    rw [Field.declareAll, Document.toDataEntries, FieldOutline.ofEntries]
    exact .nil
  | cons f fs ih =>
    have hf := h f (List.mem_cons_self ..)
    obtain ⟨n, s, flags⟩ := f
    obtain ⟨hshape, hflags⟩ := read_declareField s.isShape_declare flags
      (place ++ "." ++ Data.display (.text n))
    have hn : (Data.text n).isShowable = true := rfl
    rw [Field.declareAll, Document.toDataEntries, FieldOutline.ofEntries, if_pos hn,
      FieldOutline.ofData_eq _ _ _ _ (Document.toData_ne_recurring _), hshape, hflags]
    exact .cons n flags (hf _) (ih fun g hg => h g (List.mem_cons_of_mem _ hg))

theorem Outline.allMean_declare {ss : List Schema}
    (h : ∀ s ∈ ss, ∀ p, Outline.Means ds (Outline.ofData declared around p s.declare.toData)
      s.normal) (place : Text) (index : Nat) :
    Outline.AllMean ds (Outline.membersFrom declared around place index
      (Document.toDataAll (ss.map Schema.declare))) (ss.map Schema.normal) := by
  induction ss generalizing index with
  | nil =>
    rw [List.map_nil, Document.toDataAll, Outline.membersFrom]
    exact .nil
  | cons s ss ih =>
    rw [List.map_cons, Document.toDataAll, Outline.membersFrom]
    exact .cons (h s (List.mem_cons_self ..) _)
      (ih (fun t ht => h t (List.mem_cons_of_mem _ ht)) (index + 1))

theorem Schema.declare_of_isUnion {s : Schema} (h : s.isUnion = true) :
    s.declare = if s.members.isEmpty then .text "never" else
      .mapping [("type", .text "union"), ("members", .list ((inOrder s.members).map declare))] := by
  rw [← map_snd_mergeSort]
  cases s with
  | union ms =>
    rw [declare, renderAll_zip declare declareAll rfl (fun _ _ => rfl), declareUnion]
    simp only [List.isEmpty_map]
    rfl
  | exclusive a b x y =>
    rw [declare, members_exclusive]
    cases Record.same a b <;> rfl
  | _ => cases h

/-- A union means its normal form when its members do. -/
theorem Schema.means_declare_of_isUnion {s : Schema} (hu : s.isUnion = true)
    (h : ∀ m ∈ s.members, ∀ p, Outline.Means ds
      (Outline.ofData declared around p m.declare.toData) m.normal) (place : Text) :
    Outline.Means ds (Outline.ofData declared around place s.declare.toData) s.normal := by
  rw [declare_of_isUnion hu, normal_of_isUnion hu]
  split
  · next hnil =>
    have hread : readWord declared place (Text.strip "never") = .leaf .never := rfl
    rw [List.isEmpty_iff.1 hnil, Document.toData_text, Outline.ofData_text, hread, inOrder,
      List.mergeSort_nil]
    exact .leaf .never
  · rw [ofData_union]
    exact .union (Outline.allMean_declare (fun m hm => h m (mem_inOrder.1 hm)) place 0)

/-- The declaration of a schema means its normal form, whatever else is declared. -/
theorem Schema.means_declare {s : Schema} (h : s.WellFormed) (place : Text) :
    Outline.Means ds (Outline.ofData declared around place s.declare.toData) s.normal := by
  induction s using Schema.induction generalizing place with
  | primitive k =>
    have hs : Text.strip (Text.ofString k.name) = Text.ofString k.name := by cases k <;> decide
    rw [declare, Document.toData_text, Outline.ofData_text, hs, readWord_primitive]
    exact .leaf _
  | opaqueLeaf k n =>
    rw [declare, ofData_declareOpaque]
    exact .leaf _
  | sequence e r ih =>
    rw [declare, ofData_declareSequence]
    exact .sequence r (ih (wellFormed_sequence.1 h) _)
  | union ms ih =>
    have hms := (wellFormed_union.1 h).2
    exact means_declare_of_isUnion (s := .union ms) rfl (fun m hm => ih m hm (hms m hm)) place
  | record fs ih =>
    obtain ⟨hn, hfs⟩ := wellFormed_record.1 h
    rw [declare, ofData_declareRecord]
    refine .record (FieldOutline.allMean_declareAll (fun f hf => ih f hf (hfs f hf)) place) ?_
    rw [Field.normalAll_eq_map]
    rw [← names_normal fs] at hn
    exact hn
  | exclusive a b x y iha ihb =>
    obtain ⟨ha, hb⟩ := wellFormed_exclusive.1 h
    refine means_declare_of_isUnion rfl (fun m hm => ?_) place
    obtain rfl | rfl := eq_or_eq_of_mem_members hm
    · exact iha ha
    · exact ihb hb

end

/-- A schema that is declared and nothing else is read back in its normal form. -/
theorem Schema.redeclared_eq_normal {s : Schema} (h : s.WellFormed) :
    s.redeclared = .ok s.normal := by
  let ds : Declarations := [(derivedName, s.declare.toData)]
  have hfind : ds.lookup derivedName = some s.declare.toData := rfl
  have hmeans : Outline.Means ds (.reference derivedName) s.normal := by
    refine .reference (o := Outline.ofData ds.declares [] derivedName s.declare.toData) ?_
      (means_declare h derivedName)
    rw [Declarations.outline?, hfind, Option.map_some]
  have hall : ∀ n, ds.declares n = true → ∃ t, Outline.Means ds (.reference n) t := by
    intro n hn
    obtain rfl := List.mem_singleton.1 (Declarations.mem_of_declares hn)
    exact ⟨_, hmeans⟩
  have hname : derivedName.strip ≠ [] := by decide
  have hnames : HasNames ds.entries := by
    rw [Declarations.hasNames_entries_iff]
    intro n hn
    obtain rfl := List.mem_singleton.1 hn
    exact hname
  have hs : (Data.find? s.derivedDocument "schemas").bind Data.entries? = some ds.entries := by
    rw [find?_derivedDocument]
    rfl
  obtain ⟨c, hc, hget⟩ := Catalog.exists_of_means none hs hnames hall
  rw [redeclared, hc]
  exact hget derivedName _ hmeans

/-! ## Adding a declaration -/

theorem Data.find?_append (es fs : List (Data × Data)) (key : Text) :
    Data.find? (es ++ fs) key = (Data.find? es key).or (Data.find? fs key) := by
  rw [Data.find?, List.find?_append, Data.find?, Data.find?]
  cases es.find? fun p => p.1.sameKey (.text key) <;> rfl

theorem Data.find?_insert {before after : List (Data × Data)} {name : Text} (d : Data)
    (h : Data.find? (before ++ after) name = none) (n : Text) :
    Data.find? (before ++ (.text name, d) :: after) n =
      if n = name then some d else Data.find? (before ++ after) n := by
  rw [Data.find?_append, Data.find?_append, Data.find?_cons_text]
  split
  · next hn =>
    rw [Data.find?_append, ← hn, Option.or_eq_none_iff] at h
    rw [h.1, Option.none_or]
  · rfl

theorem Grammar.hasNames_insert {before after : List (Data × Data)} {name : Text} (d : Data)
    (h : HasNames (before ++ after)) (hn : name.strip ≠ []) :
    HasNames (before ++ (.text name, d) :: after) := by
  intro k hk
  rw [HasNames, List.map_append] at h
  rw [List.map_append, List.map_cons, List.mem_append, List.mem_cons] at hk
  rcases hk with hk | rfl | hk
  · exact h k (List.mem_append_left _ hk)
  · exact ⟨name, rfl, hn⟩
  · exact h k (List.mem_append_right _ hk)

/-- What outlines mean stays when a name is declared that was not declared before. -/
theorem Declarations.means_insert {ds ds' : Declarations} {name : Text} {d : Data}
    (hfind : ∀ n, Data.find? ds'.entries n =
      if n = name then some d else Data.find? ds.entries n)
    (hfresh : Data.find? ds.entries name = none) {o : Outline} {s : Schema}
    (h : Outline.Means ds o s) : Outline.Means ds' o s := by
  refine h.of_agree fun n e he => ?_
  have hne : n ≠ name := by
    rintro rfl
    rw [hfresh] at he
    cases he
  rw [hfind, if_neg hne, he]

namespace Catalog

/-- A schema that is declared under a new name in a document that makes a catalog is read back in
its normal form, and as it was exactly if it has neither exclusive unions nor unions of a single
member. -/
theorem get_declared {document document' before after : List (Data × Data)} {name : Text}
    {path : Option Text} {s : Schema} {c : Catalog}
    (hs : (Data.find? document "schemas").bind Data.entries? = some (before ++ after))
    (hs' : (Data.find? document' "schemas").bind Data.entries? =
      some (before ++ (.text name, s.declare.toData) :: after))
    (hc : Catalog.ofDocument document path = .ok c) (hn : name.strip ≠ [])
    (hfresh : Data.find? (before ++ after) name = none) (hw : s.WellFormed) :
    ∃ c', Catalog.ofDocument document' path = .ok c' ∧ c'.get name = .ok s.normal ∧
      (s.normal.same s = true ↔ s.IsPlain) := by
  obtain ⟨ds, hds, hnames, hrs⟩ := exists_entries_of_ofDocument hc
  have hes : before ++ after = ds.entries := Option.some.inj (hs.symm.trans hds)
  have hfind := Data.find?_insert s.declare.toData hfresh
  have hnames' := hasNames_insert s.declare.toData (hes ▸ hnames) hn
  obtain ⟨ds', hds'⟩ := Declarations.exists_eq_entries hnames'
  rw [hes] at hfind hfresh
  rw [hds'] at hs' hfind hnames'
  have hnew : Outline.Means ds' (.reference name) s.normal := by
    refine .reference (o := Outline.ofData ds'.declares [] name s.declare.toData) ?_
      (Schema.means_declare hw name)
    rw [Declarations.outline?_eq, hfind, if_pos rfl, Option.map_some]
  have hmeans : ∀ n, ds'.declares n = true → ∃ t, Outline.Means ds' (.reference n) t := by
    intro n hn
    by_cases he : n = name
    · exact ⟨s.normal, he ▸ hnew⟩
    · rw [Declarations.declares, ← Declarations.find?_entries, hfind, if_neg he,
        Declarations.find?_entries] at hn
      obtain ⟨t, ht⟩ := Declarations.exists_means_of_resolve hrs n hn
      exact ⟨t, Declarations.means_insert hfind hfresh ht⟩
  obtain ⟨rs', hrs'⟩ := Declarations.exists_resolve_iff.2 (Declarations.isLegal_of_means hmeans)
  refine ⟨⟨path, rs'⟩, ?_, ?_, Schema.normal_same_iff hw⟩
  · rw [ofDocument_eq_of_entries hs' hnames', hrs']
    rfl
  · rw [Catalog.get, Declarations.lookup_of_means hrs' hnew]

/-- A declared name that is a word of this library. -/
def wordName : Declarations := [("string", .text "number")]

/-- A record with a union of a single member, an exclusive union and all flags. -/
def mixedRecord : Schema :=
  .record [⟨"names", .sequence (.union [.primitive .string]) true, ⟨true, false, true⟩⟩,
    ⟨"choice", .exclusive [⟨"x", .primitive .string, {}⟩]
      [⟨"y", .opaqueLeaf .other (some "Y"), {}⟩] (KeySet.ofList ["x"]) (KeySet.ofList ["y"]),
      ⟨false, true, false⟩⟩]

theorem ofDocument_wordName : Catalog.ofDocument (documentOf wordName.entries) none =
    .ok ⟨none, [("string", .primitive .number)]⟩ := by
  have hn : HasNames wordName.entries := by
    intro k hk
    obtain rfl := List.mem_singleton.1 hk
    exact ⟨_, rfl, by decide⟩
  have h : wordName.resolveName [] "string" [] =
      .ok (.primitive .number, [("string", .primitive .number)]) := by
    rw [Declarations.resolveName_fresh rfl rfl List.not_mem_nil]
    rfl
  have hr : wordName.resolve = .ok [("string", .primitive .number)] := by
    rw [Declarations.resolve, wordName, List.map_cons, Declarations.resolveNames, ← wordName, h]
    rfl
  rw [ofDocument_eq_of_entries rfl hn, hr]
  rfl

theorem get_declared_mixedRecord : mixedRecord.WellFormed ∧ ∃ c', Catalog.ofDocument
    (documentOf (wordName.entries ++ [(.text "Derived", mixedRecord.declare.toData)])) none =
      .ok c' ∧ c'.get "Derived" = .ok mixedRecord.normal ∧
      (mixedRecord.normal.same mixedRecord = true ↔ mixedRecord.IsPlain) := by
  have hw : mixedRecord.WellFormed := by decide
  have hs : (Data.find? (documentOf wordName.entries) "schemas").bind Data.entries? =
      some (wordName.entries ++ []) := rfl
  exact ⟨hw, get_declared hs rfl ofDocument_wordName (by decide) rfl hw⟩

end Catalog

end ShapeAlgebra
