import ShapeAlgebra.Proofs.Declaration.Grammar
import ShapeAlgebra.Proofs.Declaration.Outline

/-!
# Reading the parts of declarations

How words, flags, fields and mappings of each type are read, in the terms of the grammar. A mapping
with a type is read by the rule for its type alone, and a field is read as its flags and a
declaration of its shape: what is described in place is read from what the flags leave of its
mapping.

Results:

* `readWord_builtIn`, `readWord_of_not_builtIn`: the words of this library go before declared names.
* `FieldOutline.ofData_eq`: a field is read as flags and a declaration of its shape.
* `FieldOutline.isLegal_ofEntries_iff`: which mappings are fields without faults.
* `Outline.ofParts_cases`: a mapping without fault is a reference or has one of the types.
* `Outline.exists_element`, `Outline.exists_members`, `Outline.exists_fields`: the parts that a
  mapping without fault has by its type.
-/

namespace ShapeAlgebra

open Grammar

/-! ## Keys -/

theorem Data.sameKey_text {d : Data} {key : Text} :
    d.sameKey (.text key) = true ↔ d = .text key := by
  cases d <;> simp [Data.sameKey, Data.number?]

theorem Data.find?_cons_text (k : Text) (v : Data) (rest : List (Data × Data)) (key : Text) :
    Data.find? ((.text k, v) :: rest) key = if key = k then some v else Data.find? rest key := by
  rw [Data.find?_cons]
  refine ite_congr (propext ?_) (fun _ => rfl) (fun _ => rfl)
  rw [Data.sameKey_text, Data.text.injEq, eq_comm]

/-- What is found among the entries that are kept, if it is their keys that decide. -/
theorem Data.find?_filter (keep : Data → Bool) (entries : List (Data × Data)) (key : Text) :
    Data.find? (entries.filter fun e => keep e.1) key =
      if keep (.text key) then Data.find? entries key else none := by
  induction entries with
  | nil => simp [Data.find?_nil]
  | cons e rest ih =>
    obtain ⟨k, v⟩ := e
    rw [List.filter_cons, Data.find?_cons]
    by_cases hk : k.sameKey (.text key) = true
    · obtain rfl := Data.sameKey_text.1 hk
      rw [if_pos hk]
      by_cases hkeep : keep (.text key) = true
      · rw [if_pos hkeep, if_pos hkeep, Data.find?_cons_text, if_pos rfl]
      · rw [if_neg hkeep, if_neg hkeep, ih, if_neg hkeep]
    · rw [if_neg hk]
      by_cases hkeep : keep k = true
      · rw [if_pos hkeep, Data.find?_cons, if_neg hk, ih]
      · rw [if_neg hkeep, ih]

theorem Data.any_sameKey_text {keys : List Text} {key : Text} :
    (keys.any fun k => (Data.text key).sameKey (.text k)) = true ↔ key ∈ keys := by
  simp [Data.sameKey_text]

theorem Grammar.find?_without (keys : List Text) (entries : List (Data × Data)) (key : Text) :
    Data.find? (without keys entries) key =
      if key ∈ keys then none else Data.find? entries key := by
  have hfind := Data.find?_filter (fun k => !keys.any fun q => k.sameKey (.text q)) entries key
  simp only [without, hfind, Bool.not_eq_true', ← Bool.not_eq_true, Data.any_sameKey_text, ite_not]

theorem Grammar.mem_names_of_mem_ownFlags {entries : List (Data × Data)} {key : Text}
    (h : key ∈ ownFlags entries) : key ∈ Flags.names := by
  unfold ownFlags at h
  split at h
  · exact List.mem_of_mem_take (i := 2) (l := Flags.names) h
  · exact h

/-- The flags of a field are no parts of its shape. -/
theorem Grammar.find?_without_ownFlags (entries : List (Data × Data)) (key : Text)
    (h : key ∉ Flags.names) :
    Data.find? (without (ownFlags entries) entries) key = Data.find? entries key := by
  rw [find?_without, if_neg (mt mem_names_of_mem_ownFlags h)]

/-! ## Words and flags -/

theorem PrimitiveKind.name_of_ofName? {w : Text} {k : PrimitiveKind}
    (h : PrimitiveKind.ofName? w = some k) : w = Text.ofString k.name := by
  simpa using List.find?_some h

theorem PrimitiveKind.name_ne_of_ofName? {w : Text} (h : PrimitiveKind.ofName? w = none)
    (k : PrimitiveKind) : Text.ofString k.name ≠ w := by
  rintro rfl
  rw [PrimitiveKind.ofName?_name] at h
  cases h

/-- The words of this library denote the same whatever is declared. -/
theorem readWord_builtIn {w : Text} (h : BuiltIn w) :
    ∃ s, ∀ (declared : Text → Bool) (place : Text), readWord declared place w = .leaf s := by
  rcases h with ⟨k, rfl⟩ | rfl | rfl | rfl
  · exact ⟨_, fun declared place => readWord_primitive declared place k⟩
  · exact ⟨_, fun _ _ => rfl⟩
  · exact ⟨_, fun _ _ => rfl⟩
  · exact ⟨_, fun _ _ => rfl⟩

theorem readWord_of_not_builtIn {w : Text} (h : ¬ BuiltIn w) (declared : Text → Bool)
    (place : Text) : readWord declared place w =
      if declared w then .reference w else .fault (.unknownShape place w) := by
  have hp : PrimitiveKind.ofName? w = none := by
    cases hk : PrimitiveKind.ofName? w with
    | none => rfl
    | some k => exact absurd (.inl ⟨k, PrimitiveKind.name_of_ofName? hk⟩) h
  have hw : ¬ (w = "opaque" ∨ w = "callable") := fun hw => h (.inr (or_assoc.1 (.inl hw)))
  have hn : ¬ w = "never" := fun hn => h (.inr (.inr (.inr hn)))
  simp only [readWord, hp, if_neg hw, if_neg hn]

theorem isLegal_readWord {declared : Text → Bool} {place w : Text} :
    (readWord declared place w).IsLegal (fun n => declared n = true) ↔
      BuiltIn w ∨ declared w = true := by
  by_cases hw : BuiltIn w
  · obtain ⟨s, hs⟩ := readWord_builtIn hw
    simp [hs, hw, Outline.IsLegal]
  · rw [readWord_of_not_builtIn hw]
    split <;> simp_all [Outline.IsLegal]

theorem mem_references_readWord {declared : Text → Bool} {place w n : Text} :
    n ∈ (readWord declared place w).references ↔ (¬ BuiltIn w ∧ declared w = true) ∧ n = w := by
  by_cases hw : BuiltIn w
  · obtain ⟨s, hs⟩ := readWord_builtIn hw
    simp [hs, hw, Outline.references]
  · rw [readWord_of_not_builtIn hw]
    split <;> simp_all [Outline.references]

theorem requireText_eq_ok_iff {place w : Text} {d : Data} :
    requireText place d = .ok w ↔ ∃ t, d = .text t ∧ t.strip = w ∧ w ≠ [] := by
  cases d with
  | text t =>
    simp only [requireText, Data.text.injEq, exists_eq_left']
    split
    · next h =>
      simp only [List.isEmpty_iff] at h
      simp [h]
    · next h =>
      simp only [List.isEmpty_iff] at h
      constructor
      · rintro ⟨⟩
        exact ⟨rfl, h⟩
      · rintro ⟨rfl, _⟩
        rfl
  | _ => simp [requireText]

theorem exists_flagUnder_iff {entries : List (Data × Data)} {place key : Text} :
    (∃ b, flagUnder entries place key = .ok b) ↔ IsFlag entries key := by
  unfold flagUnder IsFlag
  cases Data.find? entries key with
  | none => simp
  | some d => cases d <;> simp

theorem flagUnder_readonly_without {entries : List (Data × Data)} (place : Text)
    (h : Data.find? entries "shape" = none) :
    flagUnder (without (ownFlags entries) entries) place "readonly" =
      if isInlineSequence entries then flagUnder entries place "readonly" else .ok false := by
  have hmem : ("readonly" : Text) ∈ ownFlags entries ↔ isInlineSequence entries = false := by
    unfold ownFlags
    cases isInlineSequence entries
    · simp [Flags.names]
    · simp only [h, and_self, if_true]
      decide
  unfold flagUnder
  rw [find?_without]
  simp only [hmem]
  cases isInlineSequence entries <;> rfl

/-! ## Opaque leaves -/

theorem exists_kind_iff {entries : List (Data × Data)} :
    (∃ k, OpaqueKind.ofData ((Data.find? entries "kind").getD (.text "callable")) = .ok k) ↔
      IsOptionalKind entries := by
  have htext : ∀ t, (∃ k, OpaqueKind.ofData (.text t) = .ok k) ↔
      ∃ k : OpaqueKind, t = Text.ofString k.name := by
    intro t
    constructor
    · rintro ⟨k, hk⟩
      cases hn : OpaqueKind.ofName? t with
      | none => simp [OpaqueKind.ofData, hn] at hk
      | some k => exact ⟨k, by simpa using List.find?_some hn⟩
    · rintro ⟨k, rfl⟩
      exact ⟨k, by simp [OpaqueKind.ofData, OpaqueKind.ofName?_name]⟩
  unfold IsOptionalKind
  cases Data.find? entries "kind" with
  | none => simpa using (htext "callable").2 ⟨.callable, rfl⟩
  | some d =>
    cases d with
    | text t => simpa using htext t
    | _ => simp [OpaqueKind.ofData]

theorem readOpaque_cases (place : Text) (entries : List (Data × Data)) :
    (IsOptionalKind entries ∧ IsOptionalText entries "name" ∧
      ∃ s, readOpaque place entries = .leaf s) ∨
    (¬ (IsOptionalKind entries ∧ IsOptionalText entries "name") ∧
      ∃ cause, readOpaque place entries = .fault cause) := by
  rw [← exists_kind_iff]
  unfold readOpaque IsOptionalText
  cases hk : OpaqueKind.ofData ((Data.find? entries "kind").getD (.text "callable")) with
  | error => exact .inr ⟨by simp, _, by simp only [hk]; rfl⟩
  | ok k =>
    simp only [hk]
    cases Data.find? entries "name" with
    | none => simp
    | some d => cases d <;> simp

/-! ## Mappings by their types -/

theorem requireText_of_hasType {entries : List (Data × Data)} {place w : Text}
    (h : HasType entries w) (hw : w ≠ []) :
    requireText place ((Data.find? entries "type").getD .null) = .ok w := by
  obtain ⟨_, t, ht, rfl⟩ := h
  exact requireText_eq_ok_iff.2 ⟨t, by rw [ht, Option.getD_some], rfl, hw⟩

section

variable {place : Text} {own : Bool} {entries : List (Data × Data)}
  {element : Unit → Option Outline} {members : Unit → Option (List Outline)}
  {fields : Unit → Except DeclarationFault (List FieldOutline)}

theorem Outline.ofParts_reference {t : Text} (h : Data.find? entries "ref" = some (.text t))
    (ht : t.strip ≠ []) :
    Outline.ofParts place own entries element members fields = .reference t.strip := by
  simp only [Outline.ofParts, h, requireText_eq_ok_iff.2 ⟨t, rfl, rfl, ht⟩]

theorem Outline.ofParts_primitive {k : PrimitiveKind}
    (h : HasType entries (Text.ofString k.name)) :
    Outline.ofParts place own entries element members fields = .leaf (.primitive k) := by
  have hw : Text.ofString k.name ≠ [] := PrimitiveKind.name_ne_of_ofName? rfl k
  simp only [Outline.ofParts, h.1, requireText_of_hasType h hw, PrimitiveKind.ofName?_name]

theorem Outline.ofParts_never (h : HasType entries "never") :
    Outline.ofParts place own entries element members fields = .leaf .never := by
  simp only [Outline.ofParts, h.1, requireText_of_hasType h (by decide)]
  rfl

theorem Outline.ofParts_opaque (h : HasType entries "opaque") :
    Outline.ofParts place own entries element members fields = readOpaque place entries := by
  simp only [Outline.ofParts, h.1, requireText_of_hasType h (by decide)]
  rfl

theorem Outline.ofParts_record (h : HasType entries "record") :
    Outline.ofParts place own entries element members fields =
      match fields () with
      | .ok fs => .record fs
      | .error cause => .fault cause := by
  simp only [Outline.ofParts, h.1, requireText_of_hasType h (by decide)]
  rfl

theorem Outline.ofParts_sequence (h : HasType entries "sequence") :
    Outline.ofParts place own entries element members fields =
      match element () with
      | some e => .sequence e (if own then flagUnder entries place "readonly" else .ok false)
      | none => .fault (.noElement place) := by
  simp only [Outline.ofParts, h.1, requireText_of_hasType h (by decide)]
  rfl

theorem Outline.ofParts_union (h : HasType entries "union") :
    Outline.ofParts place own entries element members fields =
      match members () with
      | some ms => .union ms
      | none => .fault (.membersNotList place) := by
  simp only [Outline.ofParts, h.1, requireText_of_hasType h (by decide)]
  rfl

end

/-- A mapping is read as a fault unless it is a reference or has one of the types there are. -/
theorem Outline.ofParts_cases (place : Text) (own : Bool) (entries : List (Data × Data))
    (element : Unit → Option Outline) (members : Unit → Option (List Outline))
    (fields : Unit → Except DeclarationFault (List FieldOutline)) :
    (∃ cause, Outline.ofParts place own entries element members fields = .fault cause) ∨
      (∃ t, Data.find? entries "ref" = some (.text t) ∧ t.strip ≠ []) ∨
      (∃ k : PrimitiveKind, HasType entries (Text.ofString k.name)) ∨
      HasType entries "never" ∨ HasType entries "opaque" ∨ HasType entries "record" ∨
      HasType entries "sequence" ∨ HasType entries "union" := by
  cases hr : Data.find? entries "ref" with
  | some target =>
    cases ht : requireText (place ++ ".ref") target with
    | error cause => exact .inl ⟨cause, by simp only [Outline.ofParts, hr, ht]⟩
    | ok w =>
      obtain ⟨t, rfl, rfl, hne⟩ := requireText_eq_ok_iff.1 ht
      exact .inr (.inl ⟨t, rfl, hne⟩)
  | none =>
    cases ht : requireText (place ++ ".type") ((Data.find? entries "type").getD .null) with
    | error cause => exact .inl ⟨cause, by simp only [Outline.ofParts, hr, ht]⟩
    | ok w =>
      have hw : HasType entries w := by
        obtain ⟨t, htext, rfl, _⟩ := requireText_eq_ok_iff.1 ht
        refine ⟨hr, t, ?_, rfl⟩
        cases hf : Data.find? entries "type" <;> simp_all
      cases hk : PrimitiveKind.ofName? w with
      | some k => exact .inr (.inr (.inl ⟨k, PrimitiveKind.name_of_ofName? hk ▸ hw⟩))
      | none =>
        by_cases hn : w = "never"
        · exact .inr (.inr (.inr (.inl (hn ▸ hw))))
        by_cases ho : w = "opaque"
        · exact .inr (.inr (.inr (.inr (.inl (ho ▸ hw)))))
        by_cases hrec : w = "record"
        · exact .inr (.inr (.inr (.inr (.inr (.inl (hrec ▸ hw))))))
        by_cases hs : w = "sequence"
        · exact .inr (.inr (.inr (.inr (.inr (.inr (.inl (hs ▸ hw)))))))
        by_cases hu : w = "union"
        · exact .inr (.inr (.inr (.inr (.inr (.inr (.inr (hu ▸ hw)))))))
        exact .inl ⟨.unsupportedType place w, by
          simp only [Outline.ofParts, hr, ht, hk, hn, ho, hrec, hs, hu, if_false]⟩

/-! ## Mappings without faults -/

section

variable {D : Text → Prop} {declared : Text → Bool} {around : List (Nat × Bool)} {place : Text}
  {own : Bool} {entries : List (Data × Data)}

theorem Outline.type_of_isLegal
    (h : (Outline.ofEntries declared around place own entries).IsLegal D) :
    (∃ t, Data.find? entries "ref" = some (.text t) ∧ t.strip ≠ []) ∨
      (∃ k : PrimitiveKind, HasType entries (Text.ofString k.name)) ∨
      HasType entries "never" ∨ HasType entries "opaque" ∨ HasType entries "record" ∨
      HasType entries "sequence" ∨ HasType entries "union" := by
  rw [Outline.ofEntries] at h
  rcases Outline.ofParts_cases place own entries
    (fun _ => (Data.find? entries "element").map (Outline.ofData declared around (place ++ "[]")))
    (fun _ => (Data.find? entries "members").bind (Outline.membersOf declared around place))
    (fun _ => ((Data.find? entries "fields").map
      (Outline.fieldsOf declared around place)).getD (.ok [])) with ⟨cause, hc⟩ | htype
  · rw [hc] at h
    exact h.elim
  · exact htype

theorem Outline.exists_element (ht : HasType entries "sequence")
    (h : (Outline.ofEntries declared around place own entries).IsLegal D) :
    ∃ e, Data.find? entries "element" = some e ∧
      Outline.ofEntries declared around place own entries =
        .sequence (Outline.ofData declared around (place ++ "[]") e)
          (if own then flagUnder entries place "readonly" else .ok false) := by
  rw [Outline.ofEntries, Outline.ofParts_sequence ht] at h ⊢
  cases he : Data.find? entries "element" with
  | none =>
    rw [he] at h
    exact h.elim
  | some e => exact ⟨e, rfl, rfl⟩

theorem Outline.exists_members (ht : HasType entries "union")
    (h : (Outline.ofEntries declared around place own entries).IsLegal D) :
    ∃ v os, Data.find? entries "members" = some v ∧
      Outline.membersOf declared around place v = some os ∧
      Outline.ofEntries declared around place own entries = .union os := by
  rw [Outline.ofEntries, Outline.ofParts_union ht] at h ⊢
  cases hm : Data.find? entries "members" with
  | none =>
    rw [hm] at h
    exact h.elim
  | some v =>
    rw [hm, Option.bind_some] at h
    cases hos : Outline.membersOf declared around place v with
    | none =>
      rw [hos] at h
      exact h.elim
    | some os => exact ⟨v, os, rfl, hos, by rw [Option.bind_some, hos]⟩

theorem Outline.exists_fields (ht : HasType entries "record")
    (h : (Outline.ofEntries declared around place own entries).IsLegal D) :
    (Data.find? entries "fields" = none ∧
        Outline.ofEntries declared around place own entries = .record []) ∨
      ∃ v os, Data.find? entries "fields" = some v ∧
        Outline.fieldsOf declared around place v = .ok os ∧
        Outline.ofEntries declared around place own entries = .record os := by
  rw [Outline.ofEntries, Outline.ofParts_record ht] at h ⊢
  cases hf : Data.find? entries "fields" with
  | none => exact .inl ⟨rfl, rfl⟩
  | some v =>
    rw [hf, Option.map_some, Option.getD_some] at h
    cases hos : Outline.fieldsOf declared around place v with
    | error cause =>
      rw [hos] at h
      exact h.elim
    | ok os => exact .inr ⟨v, os, rfl, hos, by rw [Option.map_some, Option.getD_some, hos]⟩

end

/-! ## Fields -/

section

variable (declared : Text → Bool) (around : List (Nat × Bool)) (place : Text)

/-- Without the flags of its field, a mapping says of a shape what it said with them. -/
theorem Outline.ofEntries_without {entries : List (Data × Data)}
    (h : Data.find? entries "shape" = none) :
    Outline.ofEntries declared around place true (without (ownFlags entries) entries) =
      Outline.ofEntries declared around place (isInlineSequence entries) entries := by
  have hkey : ∀ key ∉ Flags.names, Data.find? (without (ownFlags entries) entries) key =
      Data.find? entries key := find?_without_ownFlags entries
  simp only [Outline.ofEntries, Outline.ofParts, readOpaque, hkey "ref" (by decide),
    hkey "type" (by decide), hkey "element" (by decide), hkey "members" (by decide),
    hkey "fields" (by decide), hkey "kind" (by decide), hkey "name" (by decide),
    flagUnder_readonly_without place h, if_true]

/-- The flags of a field. -/
def fieldFlags (place : Text) : Data → Except DeclarationFault Flags
  | .mapping entries =>
    readFlags place entries ((Data.find? entries "shape").isNone && isInlineSequence entries)
  | _ => .ok {}

theorem exists_fieldFlags_iff {place : Text} {d : Data} :
    (∃ f, fieldFlags place d = .ok f) ↔ HasFieldFlags d := by
  cases d with
  | mapping entries =>
    have hread : ∀ own, (∃ f, readFlags place entries own = .ok f) ↔ IsFlag entries "optional" ∧
        IsFlag entries "nullable" ∧ (own = true ∨ IsFlag entries "readonly") := by
      intro own
      simp only [← @exists_flagUnder_iff entries place]
      unfold readFlags
      cases flagUnder entries place "optional" <;> cases flagUnder entries place "nullable" <;>
        cases own <;> cases flagUnder entries place "readonly" <;>
        simp [bind, Except.bind, pure, Except.pure]
    simp only [fieldFlags, hread, HasFieldFlags, ownFlags]
    cases Data.find? entries "shape" <;> cases isInlineSequence entries <;> simp [Flags.names]
  | _ => simp [fieldFlags, HasFieldFlags]

theorem FieldOutline.ofData_eq (name : Text) {d : Data} (h : ∀ n e, d ≠ .recurring n e) :
    FieldOutline.ofData declared around name place d =
      .ofParts name (fieldFlags place d) (Outline.ofData declared around place (fieldShape d)) := by
  cases d with
  | mapping entries =>
    rw [FieldOutline.ofData, Outline.shapeIn_eq]
    cases hs : Data.find? entries "shape" with
    | some shape => simp [fieldFlags, fieldShape, hs]
    | none =>
      rw [fieldShape, hs, Option.getD_none, Outline.ofData_mapping,
        Outline.ofEntries_without _ _ _ hs]
      simp only [fieldFlags, hs, Option.map_none, Option.isNone_none, Bool.true_and,
        Outline.elementIn_eq, Outline.membersIn_eq, Outline.fieldsIn_eq, Outline.ofEntries]
  | recurring n e => exact absurd rfl (h n e)
  | _ => simp [FieldOutline.ofData, fieldFlags, fieldShape, FieldOutline.ofParts, Outline.ofData]

theorem FieldOutline.isLegal_ofData {D : Text → Prop} (name : Text) {d : Data}
    (h : ∀ n e, d ≠ .recurring n e) :
    (FieldOutline.ofData declared around name place d).shape.IsLegal D ↔
      HasFieldFlags d ∧ (Outline.ofData declared around place (fieldShape d)).IsLegal D := by
  rw [FieldOutline.ofData_eq declared around place name h, ← exists_fieldFlags_iff]
  cases fieldFlags place d <;> simp [FieldOutline.ofParts, Outline.IsLegal]

theorem FieldOutline.references_ofData (name : Text) {d : Data} (h : ∀ n e, d ≠ .recurring n e)
    (hf : HasFieldFlags d) :
    (FieldOutline.ofData declared around name place d).shape.references =
      (Outline.ofData declared around place (fieldShape d)).references := by
  obtain ⟨f, hok⟩ := exists_fieldFlags_iff.2 hf
  rw [FieldOutline.ofData_eq declared around place name h, hok]
  rfl

theorem FieldOutline.name_ofData (name : Text) {d : Data} (h : ∀ n e, d ≠ .recurring n e) :
    (FieldOutline.ofData declared around name place d).name = name := by
  rw [FieldOutline.ofData_eq declared around place name h]
  cases fieldFlags place d <;> rfl

theorem FieldOutline.ofEntries_of_showable {entries : List (Data × Data)}
    (h : ∀ k ∈ entries.map Prod.fst, k.isShowable = true) :
    FieldOutline.ofEntries declared around place entries = entries.map fun e =>
      FieldOutline.ofData declared around e.1.display (place ++ "." ++ e.1.display) e.2 := by
  rw [FieldOutline.ofEntries_eq_map]
  refine List.map_congr_left fun e he => ?_
  rw [if_pos (h e.1 (List.mem_map_of_mem he))]

theorem FieldOutline.names_ofEntries {entries : List (Data × Data)}
    (h : ∀ k ∈ entries.map Prod.fst, k.isShowable = true)
    (hr : ∀ e ∈ entries, ∀ n d, e.2 ≠ .recurring n d) :
    (FieldOutline.ofEntries declared around place entries).map FieldOutline.name =
      (entries.map Prod.fst).map Data.display := by
  rw [FieldOutline.ofEntries_of_showable _ _ _ h, List.map_map, List.map_map]
  refine List.map_congr_left fun e he => ?_
  exact FieldOutline.name_ofData _ _ _ _ (hr e he)

theorem FieldOutline.isLegal_ofEntries_iff {D : Text → Prop} {entries : List (Data × Data)}
    (hr : ∀ e ∈ entries, ∀ n d, e.2 ≠ .recurring n d) :
    (Outline.record (FieldOutline.ofEntries declared around place entries)).IsLegal D ↔
      HasDistinctTexts (entries.map Prod.fst) ∧ ∀ e ∈ entries, HasFieldFlags e.2 ∧
        (Outline.ofData declared around (place ++ "." ++ e.1.display)
          (fieldShape e.2)).IsLegal D := by
  by_cases h : ∀ k ∈ entries.map Prod.fst, k.isShowable = true
  · rw [Outline.IsLegal, FieldOutline.names_ofEntries _ _ _ h hr, HasDistinctTexts,
      FieldOutline.allLegal_iff, FieldOutline.ofEntries_of_showable _ _ _ h,
      List.forall_mem_map, and_comm, and_iff_right h]
    refine and_congr_right fun _ => forall₂_congr fun e he => ?_
    exact FieldOutline.isLegal_ofData _ _ _ _ (hr e he)
  · refine iff_of_false ?_ fun hd => h hd.1.1
    rw [List.forall_mem_map, Classical.not_forall] at h
    obtain ⟨e, h⟩ := h
    obtain ⟨he, hk⟩ := Classical.not_imp.1 h
    rw [Outline.IsLegal, FieldOutline.allLegal_iff, FieldOutline.ofEntries_eq_map,
      List.forall_mem_map]
    intro hl
    have hfault := hl.1 e he
    simp [if_neg hk, Outline.IsLegal] at hfault

end

end ShapeAlgebra
