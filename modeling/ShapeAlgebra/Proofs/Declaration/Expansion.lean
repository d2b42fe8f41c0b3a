import ShapeAlgebra.Proofs.Declaration.Agreement
import ShapeAlgebra.Proofs.Declaration.Unfolding

/-!
# Expanding references

References can be followed in the data itself: a reference gives way to the declaration of its name,
and a field that is nothing but a reference keeps its flags and takes the declaration under `shape`.
What is read of a declaration follows: each expansion unfolds one reference of its outline. A
collection that contains itself is another collection after an expansion inside it, and loses its
mark.

Results:

* `fieldFlags_flagEntries`: the flags of a field are the same beside the declaration of a name as
  beside the name.
* `Grammar.Expands.unfolds`: where a declaration is expanded its outline is unfolded.
-/

namespace ShapeAlgebra

/-! ## Collections and their entries -/

namespace Data

/-- The value itself, where it is marked as one that contains itself. -/
def content : Data → Data
  | .recurring _ d => d.content
  | d => d

theorem content_ne_recurring (d : Data) (n : Nat) (e : Data) : d.content ≠ .recurring n e := by
  induction d using content.induct with
  | case1 k d ih => rw [content]; exact ih
  | case2 d h => rw [content.eq_2 d h]; exact h n e

/-- The entries of a mapping with a value under a key. -/
def put (entries : List (Data × Data)) (key : Text) (v : Data) : List (Data × Data) :=
  insertBy sameKey entries (.text key) v

theorem find?_put (entries : List (Data × Data)) (key : Text) (v : Data) (n : Text) :
    find? (put entries key v) n = if n = key then some v else find? entries n := by
  induction entries with
  | nil =>
    rw [put, insertBy, find?_cons_text, find?_nil]
  | cons e rest ih =>
    obtain ⟨k, w⟩ := e
    rw [put, insertBy]
    split
    · next hk =>
      obtain rfl := sameKey_text.1 hk
      rw [find?_cons_text, find?_cons_text]
      split <;> rfl
    · next hk =>
      rw [find?_cons, find?_cons, ← put, ih]
      split
      · next hn =>
        obtain rfl := sameKey_text.1 hn
        have hne : n ≠ key := by
          rintro rfl
          exact hk hn
        rw [if_neg hne]
      · rfl

theorem sizeOf_content_le (d : Data) : sizeOf d.content ≤ sizeOf d := by
  induction d using content.induct with
  | case1 n d ih =>
    rw [content, recurring.sizeOf_spec]
    omega
  | case2 d h => rw [content.eq_2 d h]

end Data

namespace Grammar

/-- The entries of a field's mapping that are flags of the field. -/
def flagEntries (entries : List (Data × Data)) : List (Data × Data) :=
  entries.filter fun e => (ownFlags entries).any fun k => e.1.sameKey (.text k)

/-! ## Expansion -/

mutual

/-- A reference in the declaration of a shape gives way to the declaration of its name, among given
entries of a section. -/
inductive Expands (es : List (Data × Data)) : Data → Data → Prop
  | name {d target : Data} {n : Text} (h : Names (Declares es) d n)
      (ht : Data.find? es n = some target) : Expands es d target
  | parts {entries entries' : List (Data × Data)} (h : PartExpands es entries entries') :
      Expands es (.mapping entries) (.mapping entries')
  /-- What an expansion makes of a collection does not contain itself, but the old collection. -/
  | recurring (k : Nat) {d d' : Data} (h : Expands es d d') : Expands es (.recurring k d) d'

/-- The same in a part of a mapping: its element, one of its members or one of its fields. -/
inductive PartExpands (es : List (Data × Data)) :
    List (Data × Data) → List (Data × Data) → Prop
  | element {entries : List (Data × Data)} {e e' : Data} (ht : HasType entries "sequence")
      (he : Data.find? entries "element" = some e) (h : Expands es e e') :
      PartExpands es entries (Data.put entries "element" e')
  | member {entries : List (Data × Data)} {v m m' : Data} {before after : List Data}
      (ht : HasType entries "union") (hm : Data.find? entries "members" = some v)
      (hv : v.content = .list (before ++ m :: after)) (h : Expands es m m') :
      PartExpands es entries (Data.put entries "members" (.list (before ++ m' :: after)))
  | field {entries before after : List (Data × Data)} {v k f f' : Data}
      (ht : HasType entries "record") (hf : Data.find? entries "fields" = some v)
      (hv : v.content = .mapping (before ++ (k, f) :: after)) (h : FieldExpands es f f') :
      PartExpands es entries (Data.put entries "fields" (.mapping (before ++ (k, f') :: after)))

/-- The same in a field. The declaration of a name does not mix with the flags of the field, but
stands under `shape`. -/
inductive FieldExpands (es : List (Data × Data)) : Data → Data → Prop
  | word {t n : Text} {target : Data} (h : Names (Declares es) (.text t) n)
      (ht : Data.find? es n = some target) :
      FieldExpands es (.text t) (.mapping [(.text "shape", target)])
  | reference {entries : List (Data × Data)} {target : Data} {n : Text}
      (hs : Data.find? entries "shape" = none) (h : Names (Declares es) (.mapping entries) n)
      (ht : Data.find? es n = some target) :
      FieldExpands es (.mapping entries) (.mapping ((.text "shape", target) :: flagEntries entries))
  | shape {entries : List (Data × Data)} {v v' : Data}
      (hs : Data.find? entries "shape" = some v) (h : Expands es v v') :
      FieldExpands es (.mapping entries) (.mapping (Data.put entries "shape" v'))
  | inPlace {entries entries' : List (Data × Data)} (hs : Data.find? entries "shape" = none)
      (h : PartExpands es entries entries') :
      FieldExpands es (.mapping entries) (.mapping entries')
  | recurring (k : Nat) {d d' : Data} (h : FieldExpands es d d') :
      FieldExpands es (.recurring k d) d'

end

/-- What is left of a declaration when nothing can be expanded any more. -/
def IsExpansion (es : List (Data × Data)) (d d' : Data) : Prop :=
  Relation.ReflTransGen (Expands es) d d' ∧ ∀ d'', ¬ Expands es d' d''

end Grammar

open Grammar

/-! ## What is read after an expansion -/

section

variable {es entries entries' : List (Data × Data)}

/-- Expansion leaves everything but the element, the members and the fields as it is. -/
theorem Grammar.PartExpands.find?_eq (h : PartExpands es entries entries') {key : Text}
    (he : key ≠ "element") (hm : key ≠ "members") (hf : key ≠ "fields") :
    Data.find? entries' key = Data.find? entries key := by
  cases h with
  | element => rw [Data.find?_put, if_neg he]
  | member => rw [Data.find?_put, if_neg hm]
  | field => rw [Data.find?_put, if_neg hf]

theorem Grammar.HasType.put {w key : Text} (h : HasType entries w) (hr : key ≠ "ref")
    (ht : key ≠ "type") (v : Data) : HasType (Data.put entries key v) w := by
  rw [HasType, Data.find?_put, Data.find?_put, if_neg hr.symm, if_neg ht.symm]
  exact h

theorem flagUnder_eq_of_find?_eq {place key : Text}
    (h : Data.find? entries' key = Data.find? entries key) :
    flagUnder entries' place key = flagUnder entries place key := by
  rw [flagUnder, flagUnder, h]

theorem Grammar.find?_flagEntries (key : Text) : Data.find? (flagEntries entries) key =
    if key ∈ ownFlags entries then Data.find? entries key else none := by
  have hfind := Data.find?_filter (fun k => (ownFlags entries).any fun q => k.sameKey (.text q))
    entries key
  simp only [flagEntries, hfind, Data.any_sameKey_text]

/-- The flags of a field are the same beside the declaration of a name as beside the name. -/
theorem fieldFlags_flagEntries (hs : Data.find? entries "shape" = none) (target : Data)
    (place : Text) : fieldFlags place (.mapping ((.text "shape", target) :: flagEntries entries)) =
      fieldFlags place (.mapping entries) := by
  have hown : ownFlags entries =
      if isInlineSequence entries then (["optional", "nullable"] : List Text) else Flags.names := by
    simp only [ownFlags, hs, true_and]
  have hfind : ∀ key : Text, key ≠ "shape" →
      Data.find? ((.text "shape", target) :: flagEntries entries) key =
        if key ∈ ownFlags entries then Data.find? entries key else none := by
    intro key hne
    rw [Data.find?_cons_text, if_neg hne, find?_flagEntries]
  have hoptional : flagUnder ((.text "shape", target) :: flagEntries entries) place "optional" =
      flagUnder entries place "optional" := by
    refine flagUnder_eq_of_find?_eq ?_
    rw [hfind _ (by decide), hown, if_pos]
    split <;> decide
  have hnullable : flagUnder ((.text "shape", target) :: flagEntries entries) place "nullable" =
      flagUnder entries place "nullable" := by
    refine flagUnder_eq_of_find?_eq ?_
    rw [hfind _ (by decide), hown, if_pos]
    split <;> decide
  have hreadonly : flagUnder ((.text "shape", target) :: flagEntries entries) place "readonly" =
      if isInlineSequence entries then .ok false else flagUnder entries place "readonly" := by
    have hfound := hfind "readonly" (by decide)
    rw [hown] at hfound
    cases hi : isInlineSequence entries with
    | true =>
      rw [hi, if_pos rfl, if_neg (by decide)] at hfound
      rw [flagUnder, hfound]
      rfl
    | false =>
      rw [hi, if_neg Bool.false_ne_true, if_pos (by decide)] at hfound
      exact flagUnder_eq_of_find?_eq hfound
  have hshape : Data.find? ((.text "shape", target) :: flagEntries entries) "shape" =
      some target := by
    rw [Data.find?_cons_text, if_pos rfl]
  simp only [fieldFlags, hshape, hs, Option.isNone_some, Option.isNone_none, Bool.false_and,
    Bool.true_and, readFlags, hoptional, hnullable, hreadonly]
  cases isInlineSequence entries <;> rfl

/-- The flags of a field depend on nothing but its type, its shape and the flags themselves. -/
theorem fieldFlags_eq_of_find?_eq
    (hs : (Data.find? entries' "shape").isNone = (Data.find? entries "shape").isNone)
    (ht : Data.find? entries' "type" = Data.find? entries "type")
    (hf : ∀ key ∈ Flags.names, Data.find? entries' key = Data.find? entries key) (place : Text) :
    fieldFlags place (.mapping entries') = fieldFlags place (.mapping entries) := by
  have hflag : ∀ key ∈ Flags.names, flagUnder entries' place key = flagUnder entries place key :=
    fun key hkey => flagUnder_eq_of_find?_eq (hf key hkey)
  have hinline : isInlineSequence entries' = isInlineSequence entries := by
    rw [isInlineSequence, isInlineSequence, ht]
  simp only [fieldFlags, readFlags, hinline, hs, hflag "optional" (by decide),
    hflag "nullable" (by decide), hflag "readonly" (by decide)]

end

/-! ## Lists of members and mappings of fields -/

section

variable (declared : Text → Bool) (around : List (Nat × Bool)) (place : Text)

theorem Outline.membersOf_content (v : Data) : Outline.membersOf declared around place v.content =
    Outline.membersOf declared around place v := by
  induction v using Data.content.induct with
  | case1 n d ih => rw [Data.content, ih, Outline.membersOf]
  | case2 d h => rw [Data.content.eq_2 d h]

theorem Outline.fieldsOf_content (v : Data) : Outline.fieldsOf declared around place v.content =
    Outline.fieldsOf declared around place v := by
  induction v using Data.content.induct with
  | case1 n d ih => rw [Data.content, ih, Outline.fieldsOf]
  | case2 d h => rw [Data.content.eq_2 d h]

variable {declared around place} in
theorem Outline.content_of_membersOf {v : Data} {os : List Outline}
    (h : Outline.membersOf declared around place v = some os) :
    ∃ ms, v.content = .list ms ∧ os = Outline.membersFrom declared around place 0 ms := by
  rw [← Outline.membersOf_content] at h
  cases hv : v.content with
  | list ms =>
    rw [hv, Outline.membersOf] at h
    cases h
    exact ⟨ms, rfl, rfl⟩
  | recurring n e => exact absurd hv (Data.content_ne_recurring v n e)
  | _ => simp [hv, Outline.membersOf] at h

variable {declared around place} in
theorem Outline.content_of_fieldsOf {v : Data} {os : List FieldOutline}
    (h : Outline.fieldsOf declared around place v = .ok os) : (v.content = .null ∧ os = []) ∨
      ∃ fs, v.content = .mapping fs ∧ os = FieldOutline.ofEntries declared around place fs := by
  rw [← Outline.fieldsOf_content] at h
  cases hv : v.content with
  | null =>
    rw [hv, Outline.fieldsOf] at h
    cases h
    exact .inl ⟨rfl, rfl⟩
  | mapping fs =>
    rw [hv, Outline.fieldsOf] at h
    cases h
    exact .inr ⟨fs, rfl, rfl⟩
  | recurring n e => exact absurd hv (Data.content_ne_recurring v n e)
  | _ => simp [hv, Outline.fieldsOf] at h

theorem Outline.membersFrom_append (index : Nat) (as bs : List Data) :
    Outline.membersFrom declared around place index (as ++ bs) =
      Outline.membersFrom declared around place index as ++
        Outline.membersFrom declared around place (index + as.length) bs := by
  induction as generalizing index with
  | nil => simp [Outline.membersFrom]
  | cons a as ih =>
    rw [List.cons_append, Outline.membersFrom, Outline.membersFrom, ih, List.length_cons,
      List.cons_append, Nat.add_assoc, Nat.add_comm 1]

theorem FieldOutline.ofEntries_append (as bs : List (Data × Data)) :
    FieldOutline.ofEntries declared around place (as ++ bs) =
      FieldOutline.ofEntries declared around place as ++
        FieldOutline.ofEntries declared around place bs := by
  rw [FieldOutline.ofEntries_eq_map, FieldOutline.ofEntries_eq_map, FieldOutline.ofEntries_eq_map,
    List.map_append]

end

/-! ## Expansion is unfolding -/

section

variable {ds : Declarations}

/-- Read at any place and inside any collections, the first declaration has an outline from which
that of the second is reached by unfolding a reference. The second is read inside no collections:
those around a place that is expanded have lost their marks. -/
def Grammar.Unfolds (ds : Declarations) (d d' : Data) : Prop :=
  ∀ around place place', (Outline.ofData ds.declares around place d).IsLegal
    (fun n => ds.declares n = true) → Outline.Unfolds ds
      (Outline.ofData ds.declares around place d) (Outline.ofData ds.declares [] place' d')

/-- The same for the parts of mappings. -/
def Grammar.PartUnfolds (ds : Declarations) (entries entries' : List (Data × Data)) : Prop :=
  ∀ own around place place', (Outline.ofEntries ds.declares around place own entries).IsLegal
    (fun n => ds.declares n = true) → Outline.Unfolds ds
      (Outline.ofEntries ds.declares around place own entries)
      (Outline.ofEntries ds.declares [] place' own entries')

/-- The same for fields, whose names and flags stay. -/
def Grammar.FieldUnfolds (ds : Declarations) (f f' : Data) : Prop :=
  ∀ around name place place',
    ((FieldOutline.ofData ds.declares around name place f).shape.IsLegal
      fun n => ds.declares n = true) → ∃ flags o o',
        FieldOutline.ofData ds.declares around name place f = ⟨name, flags, o⟩ ∧
        FieldOutline.ofData ds.declares [] name place' f' = ⟨name, flags, o'⟩ ∧
        Outline.Unfolds ds o o'

theorem Grammar.unfolds_name {d target : Data} {n : Text} (hnames : HasNames ds.entries)
    (hlegal : ds.IsLegal) (h : Names (Declares ds.entries) d n)
    (ht : Data.find? ds.entries n = some target) : Unfolds ds d target := by
  intro around place place' _
  have ho : ds.outline? n = some (Outline.ofData ds.declares [] n target) := by
    rw [Declarations.outline?_eq, ht, Option.map_some]
  have hd : ds.declares n = true := by
    rw [← Declarations.isSome_outline?, ho]
    rfl
  have hread : Outline.ofData ds.declares around place d = .reference n := by
    cases h with
    | word hb _ => rw [Outline.ofData_text, readWord_of_not_builtIn hb, if_pos hd]
    | @reference entries t hr _ =>
      have hne : t.strip ≠ [] := by
        intro hnil
        rw [hnil, Declarations.not_declares_nil hnames] at hd
        cases hd
      rw [Outline.ofData_mapping, Outline.ofEntries, Outline.ofParts_reference hr hne]
  rw [hread, Outline.ofData_extend (fun _ _ hd => hd) (List.Subset.refl _) (hlegal n _ ho)]
  exact .reference ho

theorem Grammar.unfolds_element {entries : List (Data × Data)} {e e' : Data}
    (ht : HasType entries "sequence") (he : Data.find? entries "element" = some e)
    (h : Unfolds ds e e') : PartUnfolds ds entries (Data.put entries "element" e') := by
  intro own around place place' hl
  have hflag : Data.find? (Data.put entries "element" e') "readonly" =
      Data.find? entries "readonly" := by
    rw [Data.find?_put, if_neg (by decide)]
  rw [Outline.ofEntries, Outline.ofParts_sequence ht, he] at hl ⊢
  rw [Outline.ofEntries, Outline.ofParts_sequence (ht.put (by decide) (by decide) e'),
    Data.find?_put, if_pos rfl]
  obtain ⟨hel, b, hb⟩ := hl
  have hown : (if own then flagUnder (Data.put entries "element" e') place' "readonly"
      else .ok false) = if own then flagUnder entries place "readonly" else .ok false := by
    cases own with
    | false => rfl
    | true =>
      rw [if_pos rfl] at hb
      rw [if_pos rfl, if_pos rfl, hb, flagUnder_eq_of_find?_eq hflag, flagUnder_extend hb]
  simp only [Option.map_some, hown]
  exact .sequence _ (h _ _ _ hel)

theorem Grammar.unfolds_member {entries : List (Data × Data)} {v m m' : Data}
    {before after : List Data} (ht : HasType entries "union")
    (hm : Data.find? entries "members" = some v) (hv : v.content = .list (before ++ m :: after))
    (h : Unfolds ds m m') :
    PartUnfolds ds entries (Data.put entries "members" (.list (before ++ m' :: after))) := by
  intro own around place place' hl
  rw [Outline.ofEntries, Outline.ofParts_union ht, hm, Option.bind_some,
    ← Outline.membersOf_content, hv, Outline.membersOf] at hl ⊢
  rw [Outline.ofEntries, Outline.ofParts_union (ht.put (by decide) (by decide) _),
    Data.find?_put, if_pos rfl, Option.bind_some, Outline.membersOf]
  rw [Outline.membersFrom_append, Outline.membersFrom] at hl ⊢
  rw [Outline.membersFrom_append, Outline.membersFrom]
  obtain ⟨hbefore, hrest⟩ := List.forall_mem_append.1 (Outline.allLegal_iff.1 hl)
  obtain ⟨hmid, hafter⟩ := List.forall_mem_cons.1 hrest
  -- The members on both sides of the one that is expanded are read as before.
  have hstay : ∀ index ms, (∀ o ∈ Outline.membersFrom ds.declares around place index ms,
      o.IsLegal fun n => ds.declares n = true) →
        Outline.membersFrom ds.declares [] place' index ms =
          Outline.membersFrom ds.declares around place index ms := by
    intro index ms hms
    refine Outline.membersFrom_extend (fun m _ p p' hm => ?_) (Outline.allLegal_iff.2 hms)
    exact Outline.ofData_extend (fun _ _ hd => hd) (List.nil_subset _) hm
  rw [hstay _ _ hbefore, hstay _ _ hafter]
  exact .union _ _ (h _ _ _ hmid)

theorem Grammar.unfolds_field {entries before after : List (Data × Data)} {v k f f' : Data}
    (ht : HasType entries "record") (hf : Data.find? entries "fields" = some v)
    (hv : v.content = .mapping (before ++ (k, f) :: after)) (h : FieldUnfolds ds f f') :
    PartUnfolds ds entries (Data.put entries "fields" (.mapping (before ++ (k, f') :: after))) := by
  intro own around place place' hl
  rw [Outline.ofEntries, Outline.ofParts_record ht, hf, Option.map_some, Option.getD_some,
    ← Outline.fieldsOf_content, hv, Outline.fieldsOf] at hl ⊢
  rw [Outline.ofEntries, Outline.ofParts_record (ht.put (by decide) (by decide) _),
    Data.find?_put, if_pos rfl, Option.map_some, Option.getD_some, Outline.fieldsOf]
  rw [FieldOutline.ofEntries_append, FieldOutline.ofEntries] at hl ⊢
  rw [FieldOutline.ofEntries_append, FieldOutline.ofEntries]
  obtain ⟨hbefore, hrest⟩ := List.forall_mem_append.1 (FieldOutline.allLegal_iff.1 hl.1)
  obtain ⟨hmid, hafter⟩ := List.forall_mem_cons.1 hrest
  have hstay : ∀ fs, (∀ o ∈ FieldOutline.ofEntries ds.declares around place fs,
      o.shape.IsLegal fun n => ds.declares n = true) →
        FieldOutline.ofEntries ds.declares [] place' fs =
          FieldOutline.ofEntries ds.declares around place fs := by
    intro fs hfs
    refine FieldOutline.ofEntries_extend (fun f _ name p p' hf => ?_)
      (FieldOutline.allLegal_iff.2 hfs)
    exact FieldOutline.ofData_extend (fun _ _ hd => hd) (List.nil_subset _) hf
  rw [hstay _ hbefore, hstay _ hafter]
  split at hmid
  · next hk =>
    obtain ⟨flags, o, o', ho, ho', hstep⟩ := h around k.display (place ++ "." ++ k.display)
      (place' ++ "." ++ k.display) hmid
    rw [if_pos hk, if_pos hk, ho, ho']
    exact .record _ _ _ _ hstep
  · exact hmid.elim

/-- A field is expanded by expanding the declaration of its shape and leaving its flags. -/
theorem Grammar.fieldUnfolds {f f' : Data} (hf : ∀ n e, f ≠ .recurring n e)
    (hf' : ∀ n e, f' ≠ .recurring n e) (hflags : ∀ place, fieldFlags place f' = fieldFlags place f)
    (h : Unfolds ds (fieldShape f) (fieldShape f')) : FieldUnfolds ds f f' := by
  intro around name place place' hl
  obtain ⟨hhas, hshape⟩ := (FieldOutline.isLegal_ofData _ _ _ _ hf).1 hl
  obtain ⟨flags, hok⟩ := exists_fieldFlags_iff.2 hhas
  refine ⟨flags, _, _, ?_, ?_, h around place place' hshape⟩
  · rw [FieldOutline.ofData_eq _ _ _ _ hf, hok]
    rfl
  · rw [FieldOutline.ofData_eq _ _ _ _ hf', hflags, fieldFlags_extend hok]
    rfl

theorem Grammar.fieldUnfolds_shape {entries : List (Data × Data)} {v v' : Data}
    (hs : Data.find? entries "shape" = some v) (h : Unfolds ds v v') :
    FieldUnfolds ds (.mapping entries) (.mapping (Data.put entries "shape" v')) := by
  have hv' : Data.find? (Data.put entries "shape" v') "shape" = some v' := by
    rw [Data.find?_put, if_pos rfl]
  have hstay : ∀ key : Text, key ≠ "shape" →
      Data.find? (Data.put entries "shape" v') key = Data.find? entries key := by
    intro key hne
    rw [Data.find?_put, if_neg hne]
  refine fieldUnfolds (fun _ _ => Data.noConfusion) (fun _ _ => Data.noConfusion) ?_ ?_
  · refine fieldFlags_eq_of_find?_eq (by rw [hv', hs]; rfl) (hstay _ (by decide)) ?_
    intro key hkey
    refine hstay key ?_
    rintro rfl
    revert hkey
    decide
  · rw [fieldShape, fieldShape, hs, hv']
    exact h

theorem Grammar.fieldUnfolds_inPlace {entries entries' : List (Data × Data)}
    (hs : Data.find? entries "shape" = none)
    (hfind : ∀ key : Text, key ≠ "element" → key ≠ "members" → key ≠ "fields" →
      Data.find? entries' key = Data.find? entries key)
    (h : PartUnfolds ds entries entries') :
    FieldUnfolds ds (.mapping entries) (.mapping entries') := by
  have htype := hfind "type" (by decide) (by decide) (by decide)
  have hshape := hfind "shape" (by decide) (by decide) (by decide)
  have hinline : isInlineSequence entries' = isInlineSequence entries := by
    rw [isInlineSequence, isInlineSequence, htype]
  refine fieldUnfolds (fun _ _ => Data.noConfusion) (fun _ _ => Data.noConfusion) ?_ ?_
  · refine fieldFlags_eq_of_find?_eq (by rw [hshape]) htype ?_
    intro key hkey
    refine hfind key ?_ ?_ ?_ <;>
    · rintro rfl
      revert hkey
      decide
  · intro around place place'
    rw [fieldShape, fieldShape, hs, hshape.trans hs, Option.getD_none, Option.getD_none,
      Outline.ofData_mapping, Outline.ofData_mapping, Outline.ofEntries_without _ _ _ hs,
      Outline.ofEntries_without _ _ _ (hshape.trans hs), hinline]
    exact h _ around place place'

/-- Where a declaration is expanded its outline is unfolded. -/
theorem Grammar.Expands.unfolds (hnames : HasNames ds.entries) (hlegal : ds.IsLegal) {d d' : Data}
    (h : Expands ds.entries d d') : Unfolds ds d d' := by
  refine @Expands.rec ds.entries (fun d d' _ => Unfolds ds d d')
    (fun entries entries' _ => PartUnfolds ds entries entries') (fun f f' _ => FieldUnfolds ds f f')
    ?name ?parts ?recurring ?element ?member ?field ?word ?reference ?shape ?inPlace
    ?fieldRecurring d d' h
  case name => intro d target n h ht; exact unfolds_name hnames hlegal h ht
  case parts =>
    intro entries entries' _ ih around place place'
    rw [Outline.ofData_mapping, Outline.ofData_mapping]
    exact ih true around place place'
  case recurring =>
    intro k d d' _ ih around place place' hl
    rw [Outline.ofData] at hl ⊢
    split at hl
    · exact hl.elim
    · next hk =>
      rw [if_neg hk]
      exact ih _ place place' hl
  case element => intro entries e e' ht he _ ih; exact unfolds_element ht he ih
  case member => intro entries v m m' before after ht hm hv _ ih; exact unfolds_member ht hm hv ih
  case field => intro entries before after v k f f' ht hf hv _ ih; exact unfolds_field ht hf hv ih
  case word =>
    intro t n target h ht
    refine fieldUnfolds (fun _ _ => Data.noConfusion) (fun _ _ => Data.noConfusion)
      (fun _ => rfl) ?_
    exact unfolds_name hnames hlegal h ht
  case reference =>
    intro entries target n hs h ht
    refine fieldUnfolds (fun _ _ => Data.noConfusion) (fun _ _ => Data.noConfusion)
      (fieldFlags_flagEntries hs target) ?_
    have hshape : fieldShape (.mapping ((.text "shape", target) :: flagEntries entries)) =
        target := by
      rw [fieldShape, Data.find?_cons_text, if_pos rfl, Option.getD_some]
    have hname : Names (Declares ds.entries) (fieldShape (.mapping entries)) n := by
      rw [fieldShape, hs, Option.getD_none]
      cases h with
      | reference hr hd =>
        exact .reference (by rw [find?_without_ownFlags _ _ (by decide), hr]) hd
    rw [hshape]
    exact unfolds_name hnames hlegal hname ht
  case shape => intro entries v v' hs _ ih; exact fieldUnfolds_shape hs ih
  case inPlace =>
    intro entries entries' hs h ih
    exact fieldUnfolds_inPlace hs (fun _ => h.find?_eq) ih
  case fieldRecurring =>
    intro k d d' _ ih around name place place' hl
    rw [FieldOutline.ofData] at hl
    rw [FieldOutline.ofData]
    split at hl
    · exact hl.elim
    · next hk =>
      rw [if_neg hk]
      exact ih _ name place place' hl

end

end ShapeAlgebra
