import ShapeAlgebra.Proofs.Declaration.Agreement

/-!
# White space around words

Two documents are alike that differ only in the white space around words which are read without it:
types, references, and words for shapes. They give the same catalog, or fail in the same way, with
one exception: whether `readonly` in the mapping of a field belongs to the field or to a sequence
described in place is told by the type as it is written.

Results:

* `Grammar.Respaced.readsAlike`: what differs in such white space only is read alike.
* `Declarations.resolveName_congr`: resolution depends on the outlines alone.
* `Catalog.ofDocument_respaced`: documents that differ in such white space only give the same.
-/

namespace ShapeAlgebra

namespace Grammar

/-! ## Documents that differ in white space -/

/-- What is read from a value: a shape or a field, a word, members, fields, or something else. -/
inductive Role where
  | shape
  | word
  | members
  | fields
  | other

/-- What is read from the value under a key in the mapping of a shape or field. -/
def Role.ofKey (k : Data) : Role :=
  if k.sameKey (.text "type") || k.sameKey (.text "ref") then .word
  else if k.sameKey (.text "element") || k.sameKey (.text "shape") then .shape
  else if k.sameKey (.text "members") then .members
  else if k.sameKey (.text "fields") then .fields
  else .other

mutual

/-- Two values that differ in white space around words only; of fields, only such as `P` allows. -/
inductive Respaced (P : Data → Data → Prop) : Role → Data → Data → Prop
  | same (r : Role) (d : Data) : Respaced P r d d
  | shorthand {t u : Text} (h : t.strip = u.strip) : Respaced P .shape (.text t) (.text u)
  | word {t u : Text} (h : t.strip = u.strip) : Respaced P .word (.text t) (.text u)
  | mapping {es es' : List (Data × Data)} (h : PartsRespaced P es es') :
      Respaced P .shape (.mapping es) (.mapping es')
  | members {ms ms' : List Data} (h : AllRespaced P ms ms') :
      Respaced P .members (.list ms) (.list ms')
  | fields {fs fs' : List (Data × Data)} (h : FieldsRespaced P fs fs') :
      Respaced P .fields (.mapping fs) (.mapping fs')
  | recurring {r : Role} (n : Nat) {d d' : Data} (h : Respaced P r d d') :
      Respaced P r (.recurring n d) (.recurring n d')

/-- The parts of two mappings, under the same keys. -/
inductive PartsRespaced (P : Data → Data → Prop) :
    List (Data × Data) → List (Data × Data) → Prop
  | nil : PartsRespaced P [] []
  | cons {k v v' : Data} {es es' : List (Data × Data)} (h : Respaced P (Role.ofKey k) v v')
      (hs : PartsRespaced P es es') : PartsRespaced P ((k, v) :: es) ((k, v') :: es')

/-- The fields of two records, under the same names. -/
inductive FieldsRespaced (P : Data → Data → Prop) :
    List (Data × Data) → List (Data × Data) → Prop
  | nil : FieldsRespaced P [] []
  | cons {k v v' : Data} {fs fs' : List (Data × Data)} (h : Respaced P .shape v v') (hp : P v v')
      (hs : FieldsRespaced P fs fs') : FieldsRespaced P ((k, v) :: fs) ((k, v') :: fs')

/-- The members of two unions. -/
inductive AllRespaced (P : Data → Data → Prop) : List Data → List Data → Prop
  | nil : AllRespaced P [] []
  | cons {d d' : Data} {ds ds' : List Data} (h : Respaced P .shape d d')
      (hs : AllRespaced P ds ds') : AllRespaced P (d :: ds) (d' :: ds')

end

/-- In the mappings of two fields, `readonly` belongs to the field in both or to the sequence in
both, unless they hold their shapes under a key of its own or are not read-only. -/
def OwnersAgree (v v' : Data) : Prop :=
  ∀ es es', v.entries? = some es → v'.entries? = some es' → Data.find? es "shape" = none →
    isInlineSequence es = isInlineSequence es' ∨ Data.find? es "readonly" = none ∨
      Data.find? es "readonly" = some .null ∨ Data.find? es "readonly" = some (.bool false)

/-! ## What is read from them -/

/-- Two values from which the same is read, in a certain role. -/
def ReadsAlike (declared : Text → Bool) : Role → Data → Data → Prop
  | .shape, d, d' => ∀ around place,
      Outline.ofData declared around place d = Outline.ofData declared around place d' ∧
      ∀ name, OwnersAgree d d' → FieldOutline.ofData declared around name place d =
        FieldOutline.ofData declared around name place d'
  | .word, d, d' => ∀ place, requireText place d = requireText place d'
  | .members, d, d' => ∀ around place,
      Outline.membersOf declared around place d = Outline.membersOf declared around place d'
  | .fields, d, d' => ∀ around place,
      Outline.fieldsOf declared around place d = Outline.fieldsOf declared around place d'
  | .other, d, d' => d = d'

theorem ReadsAlike.refl (declared : Text → Bool) (r : Role) (d : Data) :
    ReadsAlike declared r d d := by
  cases r <;> simp [ReadsAlike]

/-- What is found under a key in two lists of entries, whose values are related one by one. -/
theorem rel_find? {R : Data → Data → Data → Prop} {es es' : List (Data × Data)}
    (h : List.Forall₂ (fun e e' => e.1 = e'.1 ∧ R e.1 e.2 e'.2) es es') (key : Text) :
    Option.Rel (R (.text key)) (Data.find? es key) (Data.find? es' key) := by
  induction h with
  | nil => exact .none
  | @cons e e' _ _ he _ ih =>
    obtain ⟨k, v⟩ := e
    obtain ⟨k', v'⟩ := e'
    obtain ⟨rfl, hv⟩ := he
    rw [Data.find?_cons, Data.find?_cons]
    split
    · next hk =>
      rw [Data.sameKey_text.1 hk] at hv
      exact .some hv
    · exact ih

/-- Two mappings with the same keys, from whose parts the same is read. -/
def PartsAlike (declared : Text → Bool) (es es' : List (Data × Data)) : Prop :=
  List.Forall₂ (fun e e' => e.1 = e'.1 ∧ ReadsAlike declared (Role.ofKey e.1) e.2 e'.2) es es'

section

variable {declared : Text → Bool} {es es' : List (Data × Data)}

/-- What is made of a part that is read alike is the same. -/
theorem PartsAlike.find?_congr {α : Type} (h : PartsAlike declared es es') (key : Text)
    {f : Option Data → α}
    (hf : ∀ v v', ReadsAlike declared (Role.ofKey (.text key)) v v' → f (some v) = f (some v')) :
    f (Data.find? es key) = f (Data.find? es' key) := by
  have hrel := rel_find? (R := fun k => ReadsAlike declared (Role.ofKey k)) h key
  generalize Data.find? es key = v, Data.find? es' key = v' at hrel
  cases hrel with
  | none => rfl
  | some hv => exact hf _ _ hv

/-- A part that is nothing of a shape is the same in both. -/
theorem PartsAlike.find?_eq (h : PartsAlike declared es es') (key : Text)
    (hkey : Role.ofKey (.text key) = .other) : Data.find? es key = Data.find? es' key := by
  refine h.find?_congr key (f := id) fun v v' hv => ?_
  rw [hkey] at hv
  exact congrArg some hv

end

end Grammar

open Grammar

section

variable {declared : Text → Bool} {around : List (Nat × Bool)} {place : Text} {own : Bool}
  {es es' : List (Data × Data)}

theorem Outline.ofParts_congr {element : Unit → Option Outline}
    {members : Unit → Option (List Outline)}
    {fields : Unit → Except DeclarationFault (List FieldOutline)}
    (href : (Data.find? es "ref").map (requireText (place ++ ".ref")) =
      (Data.find? es' "ref").map (requireText (place ++ ".ref")))
    (htype : requireText (place ++ ".type") ((Data.find? es "type").getD .null) =
      requireText (place ++ ".type") ((Data.find? es' "type").getD .null))
    (hleaf : readOpaque place es = readOpaque place es')
    (hreadonly : flagUnder es place "readonly" = flagUnder es' place "readonly") :
    Outline.ofParts place own es element members fields =
      Outline.ofParts place own es' element members fields := by
  simp only [Outline.ofParts, htype, hleaf, hreadonly]
  cases h : Data.find? es "ref" with
  | none =>
    cases h' : Data.find? es' "ref" with
    | none => rfl
    | some v' => rw [h, h'] at href; cases href
  | some v =>
    cases h' : Data.find? es' "ref" with
    | none => rw [h, h'] at href; cases href
    | some v' =>
      rw [h, h', Option.map_some, Option.map_some, Option.some.injEq] at href
      simp only [href]

theorem Grammar.PartsAlike.flagUnder_eq (h : PartsAlike declared es es') (key : Text)
    (hkey : Role.ofKey (.text key) = .other) :
    flagUnder es place key = flagUnder es' place key := by
  rw [flagUnder, flagUnder, h.find?_eq key hkey]

theorem Grammar.PartsAlike.readFlags_eq (h : PartsAlike declared es es') :
    readFlags place es own = readFlags place es' own := by
  rw [readFlags, readFlags, h.flagUnder_eq "optional" rfl, h.flagUnder_eq "nullable" rfl,
    h.flagUnder_eq "readonly" rfl]

/-- A mapping says of a shape what one says from whose parts the same is read. -/
theorem Grammar.PartsAlike.ofEntries_eq (h : PartsAlike declared es es') :
    Outline.ofEntries declared around place own es =
      Outline.ofEntries declared around place own es' := by
  have helement := h.find?_congr "element"
    (f := Option.map (Outline.ofData declared around (place ++ "[]")))
    fun v v' hv => congrArg some (hv _ _).1
  have hmembers := h.find?_congr "members"
    (f := fun o => o.bind (Outline.membersOf declared around place)) fun v v' hv => hv _ _
  have hfields := h.find?_congr "fields"
    (f := Option.map (Outline.fieldsOf declared around place))
    fun v v' hv => congrArg some (hv _ _)
  have href := h.find?_congr "ref" (f := Option.map (requireText (place ++ ".ref")))
    fun v v' hv => congrArg some (hv _)
  have htype := h.find?_congr "type"
    (f := fun o => requireText (place ++ ".type") (o.getD .null)) fun v v' hv => hv _
  have hleaf : readOpaque place es = readOpaque place es' := by
    simp only [readOpaque, h.find?_eq "kind" rfl, h.find?_eq "name" rfl]
  rw [Outline.ofEntries, Outline.ofEntries, helement, hmembers, hfields]
  exact Outline.ofParts_congr href htype hleaf (h.flagUnder_eq "readonly" rfl)

/-- If a mapping is not read-only, it does not matter whose `readonly` that would be. -/
theorem Outline.ofEntries_of_not_readonly (h : flagUnder es place "readonly" = .ok false)
    (own own' : Bool) : Outline.ofEntries declared around place own es =
      Outline.ofEntries declared around place own' es := by
  simp only [Outline.ofEntries, Outline.ofParts, h, ite_self]

theorem readFlags_of_not_readonly (h : flagUnder es place "readonly" = .ok false)
    (own own' : Bool) : readFlags place es own = readFlags place es own' := by
  cases own <;> cases own' <;> simp [readFlags, h] <;> rfl

/-- What a mapping says of a field that has a key of its own for its shape. -/
theorem FieldOutline.ofData_of_shape {v : Data} (h : Data.find? es "shape" = some v) (name : Text) :
    FieldOutline.ofData declared around name place (.mapping es) =
      .ofParts name (readFlags place es false) (Outline.ofData declared around place v) := by
  simp only [FieldOutline.ofData, Outline.shapeIn_eq, h, Option.map_some]

/-- What a mapping says of a field that is described in place. -/
theorem FieldOutline.ofData_of_no_shape (h : Data.find? es "shape" = none) (name : Text) :
    FieldOutline.ofData declared around name place (.mapping es) =
      .ofParts name (readFlags place es (isInlineSequence es))
        (Outline.ofEntries declared around place (isInlineSequence es) es) := by
  simp only [FieldOutline.ofData, Outline.shapeIn_eq, Outline.elementIn_eq, Outline.membersIn_eq,
    Outline.fieldsIn_eq, Outline.ofEntries, h, Option.map_none]

theorem Grammar.PartsAlike.fieldOfData_eq (h : PartsAlike declared es es')
    (howner : OwnersAgree (.mapping es) (.mapping es')) (name : Text) :
    FieldOutline.ofData declared around name place (.mapping es) =
      FieldOutline.ofData declared around name place (.mapping es') := by
  have hshape := h.find?_congr "shape" (f := Option.map (Outline.ofData declared around place))
    fun v v' hv => congrArg some (hv _ _).1
  cases hs : Data.find? es "shape" with
  | some v =>
    cases hs' : Data.find? es' "shape" with
    | none => rw [hs, hs'] at hshape; cases hshape
    | some v' =>
      rw [hs, hs'] at hshape
      rw [FieldOutline.ofData_of_shape hs, FieldOutline.ofData_of_shape hs', h.readFlags_eq,
        Option.some.inj hshape]
  | none =>
    have hs' : Data.find? es' "shape" = none := by
      rw [hs] at hshape
      exact Option.map_eq_none_iff.1 hshape.symm
    rw [FieldOutline.ofData_of_no_shape hs, FieldOutline.ofData_of_no_shape hs', ← h.ofEntries_eq,
      ← h.readFlags_eq]
    rcases howner es es' rfl rfl hs with heq | hreadonly
    · rw [heq]
    · have hfalse : flagUnder es place "readonly" = .ok false := by
        rcases hreadonly with hr | hr | hr <;> rw [flagUnder, hr]
      rw [readFlags_of_not_readonly hfalse _ (isInlineSequence es'),
        Outline.ofEntries_of_not_readonly hfalse _ (isInlineSequence es')]

end

/-- What differs in white space around words only is read alike. -/
theorem Grammar.Respaced.readsAlike {declared : Text → Bool} {r : Role} {d d' : Data}
    (h : Respaced OwnersAgree r d d') : ReadsAlike declared r d d' := by
  refine @Respaced.rec OwnersAgree (fun r d d' _ => ReadsAlike declared r d d')
    (fun es es' _ => PartsAlike declared es es')
    (fun fs fs' _ => ∀ around place, FieldOutline.ofEntries declared around place fs =
      FieldOutline.ofEntries declared around place fs')
    (fun ds ds' _ => ∀ around place index, Outline.membersFrom declared around place index ds =
      Outline.membersFrom declared around place index ds')
    ?same ?shorthand ?word ?mapping ?members ?fields ?recurring ?partNil ?partCons ?fieldNil
    ?fieldCons ?nil ?cons r d d' h
  case same => exact .refl declared
  case shorthand =>
    intro t u h around place
    rw [Outline.ofData_text, Outline.ofData_text, h]
    refine ⟨rfl, fun name _ => ?_⟩
    rw [FieldOutline.ofData, FieldOutline.ofData, h]
  case word =>
    intro t u h place
    rw [requireText, requireText, h]
  case mapping =>
    intro es es' _ ih around place
    rw [Outline.ofData_mapping, Outline.ofData_mapping]
    exact ⟨ih.ofEntries_eq, fun name howner => ih.fieldOfData_eq howner name⟩
  case members =>
    intro ms ms' _ ih around place
    rw [Outline.membersOf, Outline.membersOf, ih]
  case fields =>
    intro fs fs' _ ih around place
    rw [Outline.fieldsOf, Outline.fieldsOf, ih]
  case recurring =>
    intro r n d d' _ ih
    cases r with
    | shape =>
      intro around place
      rw [Outline.ofData, Outline.ofData, (ih _ place).1]
      refine ⟨rfl, fun name howner => ?_⟩
      rw [FieldOutline.ofData, FieldOutline.ofData, (ih _ place).2 name howner]
    | word => intro place; rfl
    | members =>
      intro around place
      rw [Outline.membersOf, Outline.membersOf, ih]
    | fields =>
      intro around place
      rw [Outline.fieldsOf, Outline.fieldsOf, ih]
    | other => exact congrArg (Data.recurring n) ih
  case partNil => exact .nil
  case partCons =>
    intro k v v' es es' _ _ ih ihs
    exact .cons ⟨rfl, ih⟩ ihs
  case fieldNil => intro around place; rfl
  case fieldCons =>
    intro k v v' fs fs' _ howner _ ih ihs around place
    rw [FieldOutline.ofEntries, FieldOutline.ofEntries, ihs, (ih _ _).2 _ howner]
  case nil => intro around place index; rfl
  case cons =>
    intro d d' ds ds' _ _ ih ihs around place index
    rw [Outline.membersFrom, Outline.membersFrom, ihs, (ih _ _).1]

/-! ## Catalogs -/

namespace Declarations

section

variable {ds ds' : Declarations} (h : ∀ n, ds.outline? n = ds'.outline? n)
include h

/-- Resolution depends on the outlines of the declarations alone. -/
theorem resolveName_congr (inProgress : List Text) (name : Text) (known : Resolved) :
    ds.resolveName inProgress name known = ds'.resolveName inProgress name known := by
  have hdeclared : ds.lookup name = none ↔ ds'.lookup name = none := by
    rw [← Option.map_eq_none_iff (f := Outline.ofData ds.declares [] name),
      ← Option.map_eq_none_iff (f := Outline.ofData ds'.declares [] name)]
    exact Iff.of_eq (congrArg (· = none) (h name))
  cases hk : known.lookup name with
  | some s => rw [resolveName_of_known hk, resolveName_of_known hk]
  | none =>
    cases hd : ds.lookup name with
    | none => rw [resolveName_unknown hk hd, resolveName_unknown hk (hdeclared.1 hd)]
    | some d =>
      obtain ⟨d', hd'⟩ := Option.ne_none_iff_exists'.1 (mt hdeclared.2 (hd ▸ Option.some_ne_none d))
      by_cases hp : name ∈ inProgress
      · rw [resolveName_again hk hd hp, resolveName_again hk hd' hp]
      · have houtline : Outline.ofData ds.declares [] name d =
            Outline.ofData ds'.declares [] name d' := by
          have hn := h name
          rw [outline?, outline?, hd, hd'] at hn
          exact Option.some.inj hn
        have hnext : (fun n => ds.resolveName (inProgress ++ [name]) n) =
            fun n => ds'.resolveName (inProgress ++ [name]) n := by
          funext n known'
          exact resolveName_congr (inProgress ++ [name]) n known'
        rw [resolveName_fresh hk hd hp, resolveName_fresh hk hd' hp, houtline, hnext]
termination_by ds.pendingCount inProgress
decreasing_by exact pendingCount_lt hd hp

theorem resolveNames_congr (known : Resolved) (ns : List Text) :
    ds.resolveNames known ns = ds'.resolveNames known ns := by
  induction ns generalizing known with
  | nil => rfl
  | cons n ns ih => simp only [resolveNames, resolveName_congr h, ih]

end

/-- Declarations under the same names that differ in white space around words only. -/
def Respaced (P : Data → Data → Prop) (es es' : List (Data × Data)) : Prop :=
  List.Forall₂ (fun e e' => e.1 = e'.1 ∧ Grammar.Respaced P .shape e.2 e'.2) es es'

theorem Respaced.keys {P : Data → Data → Prop} {es es' : List (Data × Data)}
    (h : Respaced P es es') : es.map Prod.fst = es'.map Prod.fst := by
  induction h with
  | nil => rfl
  | cons he _ ih => rw [List.map_cons, List.map_cons, he.1, ih]

theorem Respaced.outline?_eq {ds ds' : Declarations}
    (h : Respaced OwnersAgree ds.entries ds'.entries) (n : Text) :
    ds.outline? n = ds'.outline? n := by
  have hrel := fun n => rel_find? (R := fun _ => Grammar.Respaced OwnersAgree .shape) h n
  have hdeclares : ds.declares = ds'.declares := by
    funext n
    have hn := hrel n
    rw [find?_entries, find?_entries] at hn
    rw [declares, declares]
    generalize ds.lookup n = d, ds'.lookup n = d' at hn
    cases hn <;> rfl
  have hn := hrel n
  rw [Declarations.outline?_eq, Declarations.outline?_eq, hdeclares]
  generalize Data.find? ds.entries n = d, Data.find? ds'.entries n = d' at hn
  cases hn with
  | none => rfl
  | some hd => exact congrArg some (hd.readsAlike [] n).1

theorem ofEntries_eq_error {es : List (Data × Data)} (h : ¬ HasNames es) :
    Declarations.ofEntries es = .error .blankName := by
  induction es with
  | nil => exact absurd (fun k hk => absurd hk List.not_mem_nil) h
  | cons e es ih =>
    obtain ⟨k, d⟩ := e
    cases k with
    | text n =>
      rw [Declarations.ofEntries]
      split
      · rfl
      · next hb =>
        have hrest : ¬ HasNames es := fun hes => h (List.forall_mem_cons.2
          ⟨⟨n, rfl, mt (Text.isBlank_iff_strip_eq_nil n).2 hb⟩, hes⟩)
        rw [ih hrest]
        rfl
    | _ => rfl

end Declarations

namespace Catalog

/-- Documents whose declarations differ in white space around words only give the same catalog or
fail in the same way, if the mappings of fields are read-only for the same one. -/
theorem ofDocument_respaced {document document' es es' : List (Data × Data)}
    (hs : (Data.find? document "schemas").bind Data.entries? = some es)
    (hs' : (Data.find? document' "schemas").bind Data.entries? = some es')
    (h : Declarations.Respaced OwnersAgree es es') (path : Option Text) :
    Catalog.ofDocument document path = Catalog.ofDocument document' path := by
  have hnames : HasNames es ↔ HasNames es' := by rw [HasNames, HasNames, h.keys]
  by_cases hn : HasNames es
  · obtain ⟨ds, rfl⟩ := Declarations.exists_eq_entries hn
    obtain ⟨ds', rfl⟩ := Declarations.exists_eq_entries (hnames.1 hn)
    have hkeys : ds.map Prod.fst = ds'.map Prod.fst := by
      have hk := h.keys
      rw [Declarations.map_fst_entries, Declarations.map_fst_entries] at hk
      exact List.map_injective_iff.2 (fun _ _ => Data.text.inj) hk
    have hresolve : ds.resolve = ds'.resolve := by
      rw [Declarations.resolve, Declarations.resolve, hkeys]
      exact Declarations.resolveNames_congr h.outline?_eq _ _
    rw [ofDocument_eq_of_entries hs hn, ofDocument_eq_of_entries hs' (hnames.1 hn), hresolve]
  · simp only [Catalog.ofDocument, hs, hs', Declarations.ofEntries_eq_error hn,
      Declarations.ofEntries_eq_error (mt hnames.2 hn)]

/-- People with white space around words. -/
def roomyPeople : Declarations :=
  [("Person", .mapping [(.text "type", .text " record"), (.text "fields", .mapping
      [(.text "tag", .text "Tag\t"),
        (.text "best", .mapping [(.text "ref", .text " Tag "), (.text "readonly", .bool true)])])]),
    ("Tag", .text "string\n")]

theorem respaced_people : Declarations.Respaced OwnersAgree people.entries roomyPeople.entries := by
  have htag : OwnersAgree (.text "Tag") (.text "Tag\t") := fun _ _ he => by cases he
  have hbest : ∀ t u : Text, OwnersAgree
      (.mapping [(.text "ref", .text t), (.text "readonly", .bool true)])
      (.mapping [(.text "ref", .text u), (.text "readonly", .bool true)]) := by
    intro t u es es' he he' _
    obtain rfl := Option.some.inj he
    obtain rfl := Option.some.inj he'
    exact .inl rfl
  have hrecord : Grammar.Respaced OwnersAgree .shape
      (.mapping [(.text "type", .text "record"), (.text "fields", .mapping
        [(.text "tag", .text "Tag"),
          (.text "best", .mapping [(.text "ref", .text "Tag"), (.text "readonly", .bool true)])])])
      (.mapping [(.text "type", .text " record"), (.text "fields", .mapping
        [(.text "tag", .text "Tag\t"), (.text "best", .mapping
          [(.text "ref", .text " Tag "), (.text "readonly", .bool true)])])]) :=
    .mapping (.cons (.word (by decide)) (.cons (.fields (.cons (.shorthand (by decide)) htag
      (.cons (.mapping (.cons (.word (by decide)) (.cons (.same _ _) .nil))) (hbest _ _) .nil)))
      .nil))
  exact .cons ⟨rfl, hrecord⟩ (.cons ⟨rfl, .shorthand (by decide)⟩ .nil)

theorem ofDocument_respaced_people :
    Declarations.Respaced OwnersAgree people.entries roomyPeople.entries ∧
    ∃ c, Catalog.ofDocument (documentOf people.entries) none = .ok c ∧
      Catalog.ofDocument (documentOf roomyPeople.entries) none = .ok c := by
  obtain ⟨c, hc, -, -⟩ := exists_of_people (fun _ _ h => h)
    (Declarations.hasNames_entries_iff.2 (by decide)) (by simp [people])
  exact ⟨respaced_people, c, hc, (ofDocument_respaced rfl rfl respaced_people none).symm.trans hc⟩

/-- The declaration of a record whose one field is a read-only sequence described in place. -/
def tagged (type : Text) : Declarations :=
  [("A", .mapping [(.text "type", .text "record"), (.text "fields", .mapping
    [(.text "tags", .mapping [(.text "type", .text type), (.text "element", .text "string"),
      (.text "readonly", .bool true)])])])]

/-- A record whose one field is a sequence makes a catalog that binds its name to it, if that is
what the declaration says. -/
theorem exists_of_tagged (type : Text) (readonly : Bool) (flags : Flags)
    (h : (tagged type).outline? "A" = some
      (.record [⟨"tags", flags, .sequence (.leaf (.primitive .string)) (.ok readonly)⟩])) :
    ∃ c, Catalog.ofDocument (documentOf (tagged type).entries) none = .ok c ∧
      c.get "A" = .ok (.record [⟨"tags", .sequence (.primitive .string) readonly, flags⟩]) := by
  have hmeans : Outline.Means (tagged type) (.reference "A")
      (.record [⟨"tags", .sequence (.primitive .string) readonly, flags⟩]) :=
    .reference h (.record (.cons _ _ (.sequence _ (.leaf _)) .nil) (by simp))
  have hall : ∀ n, (tagged type).declares n = true →
      ∃ s, Outline.Means (tagged type) (.reference n) s := by
    intro n hn
    obtain rfl := List.mem_singleton.1 (Declarations.mem_of_declares hn)
    exact ⟨_, hmeans⟩
  have hs : (Data.find? (documentOf (tagged type).entries) "schemas").bind Data.entries? =
      some (tagged type).entries := rfl
  obtain ⟨c, hc, hget⟩ :=
    exists_of_means none hs (Declarations.hasNames_entries_iff.2 (by simp [tagged]; decide)) hall
  exact ⟨c, hc, hget _ _ hmeans⟩

/-- White space around the type of a sequence moves its `readonly` to the field. -/
theorem exists_respaced_not_same :
    Declarations.Respaced (fun _ _ => True) (tagged "sequence").entries
        (tagged " sequence ").entries ∧
      ∃ c c' s s', Catalog.ofDocument (documentOf (tagged "sequence").entries) none = .ok c ∧
        Catalog.ofDocument (documentOf (tagged " sequence ").entries) none = .ok c' ∧
        c.get "A" = .ok s ∧ c'.get "A" = .ok s' ∧ s.same s' = false := by
  have hfield : Grammar.Respaced (fun _ _ => True) .shape
      (.mapping [(.text "type", .text "sequence"), (.text "element", .text "string"),
        (.text "readonly", .bool true)])
      (.mapping [(.text "type", .text " sequence "), (.text "element", .text "string"),
        (.text "readonly", .bool true)]) :=
    .mapping (.cons (.word (by decide)) (.cons (.same _ _) (.cons (.same _ _) .nil)))
  have hrespaced : Declarations.Respaced (fun _ _ => True) (tagged "sequence").entries
      (tagged " sequence ").entries :=
    .cons ⟨rfl, .mapping (.cons (.same _ _) (.cons (.fields (.cons hfield trivial .nil)) .nil))⟩
      .nil
  obtain ⟨c, hc, hget⟩ := exists_of_tagged "sequence" true {} rfl
  obtain ⟨c', hc', hget'⟩ := exists_of_tagged " sequence " false { readonly := true } rfl
  exact ⟨hrespaced, c, c', _, _, hc, hc', hget, hget', by decide⟩

end Catalog

end ShapeAlgebra
