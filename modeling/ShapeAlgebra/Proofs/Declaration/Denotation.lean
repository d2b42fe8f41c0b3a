import ShapeAlgebra.Proofs.Declaration.Derivation
import ShapeAlgebra.Proofs.Declaration.Expansion
import ShapeAlgebra.Proofs.Rule.Reach
import ShapeAlgebra.Proofs.Schema.Reordering

/-!
# What the parts of a declaration denote

A declaration in a document that makes a catalog denotes a schema, wherever it is read, and so does
everything inside it that is read as a declaration. What the whole denotes is made of what the parts
denote: the schema of a part stands, up to order, where the part stands in the declaration, and a
record has its fields in the order of the mapping.

Results:

* `Grammar.Denotes.exists_sequence`, `Grammar.Denotes.exists_union`,
  `Grammar.Denotes.exists_record`: what the sorts of mappings denote.
* `Grammar.ReadAt.exists_denoted`: the schema of a part has its place in the schema of the whole.
* `Catalog.read_of_denotes`: what a declaration denotes is what is read of it with the names of the
  catalog.
-/

namespace ShapeAlgebra

open Grammar

/-! ## Contents of collections -/

theorem Data.content_of_entries? {d : Data} {entries : List (Data × Data)}
    (h : d.entries? = some entries) : d.content = .mapping entries := by
  induction d using Data.content.induct with
  | case1 n d ih => exact ih h
  | case2 d hd =>
    rw [Data.content.eq_2 d hd]
    cases d with
    | mapping es => rw [Option.some.inj h]
    | recurring n d => exact absurd rfl (hd n d)
    | _ => cases h

section

variable {D : Text → Prop} {declared : Text → Bool} {around : List (Nat × Bool)} {place : Text}

/-- A collection that contains itself is read like its content, where it is read without faults. -/
theorem Outline.ofData_content {d : Data} (h : (Outline.ofData declared around place d).IsLegal D)
    (place' : Text) : Outline.ofData declared [] place' d.content =
      Outline.ofData declared around place d := by
  induction d using Data.content.induct generalizing around with
  | case1 n d ih =>
    rw [Outline.ofData] at h
    rw [Data.content, Outline.ofData]
    split at h
    · exact h.elim
    · next hn =>
      rw [if_neg hn]
      exact ih h
  | case2 d hd =>
    rw [Data.content.eq_2 d hd]
    exact Outline.ofData_extend (fun _ _ hn => hn) (List.nil_subset _) h

theorem FieldOutline.ofData_content {name : Text} {d : Data}
    (h : (FieldOutline.ofData declared around name place d).shape.IsLegal D) (place' : Text) :
    FieldOutline.ofData declared [] name place' d.content =
      FieldOutline.ofData declared around name place d := by
  induction d using Data.content.induct generalizing around with
  | case1 n d ih =>
    rw [FieldOutline.ofData] at h
    rw [Data.content, FieldOutline.ofData]
    split at h
    · exact h.elim
    · next hn =>
      rw [if_neg hn]
      exact ih h
  | case2 d hd =>
    rw [Data.content.eq_2 d hd]
    exact FieldOutline.ofData_extend (fun _ _ hn => hn) (List.nil_subset _) h

end

/-! ## Denotations -/

namespace Grammar

variable {ds : Declarations} {d : Data} {s : Schema} {entries : List (Data × Data)}

/-- A declaration denotes a schema, at whatever place it is read. -/
def Denotes (ds : Declarations) (d : Data) (s : Schema) : Prop :=
  ∀ place, Outline.Means ds (.ofData ds.declares [] place d) s

/-- An entry of a mapping of fields denotes a field. -/
structure DenotesField (ds : Declarations) (e : Data × Data) (f : Field) : Prop where
  name : f.name = e.1.display
  flags : ∀ place, fieldFlags place e.2.content = .ok f.flags
  shape : Denotes ds (fieldShape e.2.content) f.shape

theorem Denotes.of_means {around : List (Nat × Bool)} {place : Text}
    (h : Outline.Means ds (.ofData ds.declares around place d) s) : Denotes ds d s := by
  intro place'
  rwa [Outline.ofData_extend (fun _ _ hn => hn) (List.nil_subset around) h.isLegal]

theorem Denotes.isRegular (h : Denotes ds d s) : s.IsRegular :=
  (h []).isRegular (Outline.atomic_ofData [] [] d)

/-- What a mapping denotes is read of its entries. -/
theorem Denotes.means_ofEntries (h : Denotes ds d s) (hd : d.entries? = some entries)
    (place : Text) : Outline.Means ds (.ofEntries ds.declares [] place true entries) s := by
  have hcontent := h place
  rwa [← Outline.ofData_content (h place).isLegal place, Data.content_of_entries? hd,
    Outline.ofData_mapping] at hcontent

theorem Denotes.exists_sequence (h : Denotes ds d s) (hd : d.entries? = some entries)
    (ht : HasType entries "sequence") : ∃ e t r, Data.find? entries "element" = some e ∧
      s = .sequence t r ∧ Denotes ds e t ∧ ∀ place, flagUnder entries place "readonly" = .ok r := by
  have hmeans := h.means_ofEntries hd []
  obtain ⟨e, he, ho⟩ := Outline.exists_element ht hmeans.isLegal
  rw [ho, if_pos rfl] at hmeans
  obtain ⟨-, r, hflag⟩ := hmeans.isLegal
  rw [hflag] at hmeans
  cases hmeans with
  | sequence _ ht => exact ⟨e, _, r, he, rfl, .of_means ht, flagUnder_extend hflag⟩

theorem forall₂_denotes {place : Text} {index : Nat} {ms : List Data} {ss : List Schema}
    (h : Outline.AllMean ds (Outline.membersFrom ds.declares [] place index ms) ss) :
    List.Forall₂ (Denotes ds) ms ss := by
  induction ms generalizing index ss with
  | nil =>
    rw [Outline.membersFrom] at h
    cases h
    exact .nil
  | cons m ms ih =>
    rw [Outline.membersFrom] at h
    cases h with
    | cons hm hms => exact .cons (.of_means hm) (ih hms)

theorem Denotes.exists_union (h : Denotes ds d s) (hd : d.entries? = some entries)
    (ht : HasType entries "union") : ∃ v ms ss, Data.find? entries "members" = some v ∧
      v.content = .list ms ∧ s = .unionOf ss ∧ List.Forall₂ (Denotes ds) ms ss := by
  have hmeans := h.means_ofEntries hd []
  obtain ⟨v, os, hv, hos, ho⟩ := Outline.exists_members ht hmeans.isLegal
  obtain ⟨ms, hms, rfl⟩ := Outline.content_of_membersOf hos
  rw [ho] at hmeans
  cases hmeans with
  | union hall => exact ⟨v, ms, _, hv, hms, rfl, forall₂_denotes hall⟩

theorem forall₂_of_allMean {os : List FieldOutline} {fs : List Field}
    (h : FieldOutline.AllMean ds os fs) : List.Forall₂ (fun o f => f.name = o.name ∧
      f.flags = o.flags ∧ Outline.Means ds o.shape f.shape) os fs := by
  induction os generalizing fs with
  | nil =>
    cases h
    exact .nil
  | cons o os ih =>
    cases h with
    | cons name flags ho hos => exact .cons ⟨rfl, rfl, ho⟩ (ih hos)

theorem DenotesField.of_means {place : Text} {e : Data × Data} {f : Field}
    (hname : f.name = (FieldOutline.ofData ds.declares [] e.1.display place e.2).name)
    (hflags : f.flags = (FieldOutline.ofData ds.declares [] e.1.display place e.2).flags)
    (hshape : Outline.Means ds (FieldOutline.ofData ds.declares [] e.1.display place e.2).shape
      f.shape) : DenotesField ds e f := by
  rw [← FieldOutline.ofData_content hshape.isLegal place,
    FieldOutline.ofData_eq _ _ _ _ (Data.content_ne_recurring e.2)] at hname hflags hshape
  cases hread : fieldFlags place e.2.content with
  | error cause =>
    rw [hread] at hshape
    exact hshape.isLegal.elim
  | ok flags =>
    rw [hread] at hname hflags hshape
    exact ⟨hname, hflags ▸ fieldFlags_extend hread, .of_means hshape⟩

theorem forall₂_denotesField {place : Text} {fs : List (Data × Data)} {r : List Field}
    (h : FieldOutline.AllMean ds (FieldOutline.ofEntries ds.declares [] place fs) r) :
    List.Forall₂ (DenotesField ds) fs r := by
  rw [FieldOutline.ofEntries_eq_map] at h
  refine (List.forall₂_map_left_iff.1 (forall₂_of_allMean h)).imp ?_
  rintro e f ⟨hname, hflags, hshape⟩
  split at hshape
  · next hk =>
    rw [if_pos hk] at hname hflags
    exact .of_means hname hflags hshape
  · exact hshape.isLegal.elim

theorem Denotes.exists_record {v : Data} {fs : List (Data × Data)} (h : Denotes ds d s)
    (hd : d.entries? = some entries) (ht : HasType entries "record")
    (hv : Data.find? entries "fields" = some v) (hfs : v.entries? = some fs) :
    ∃ r : Record, s = .record r ∧ List.Forall₂ (DenotesField ds) fs r := by
  have hmeans := h.means_ofEntries hd []
  rw [Outline.ofEntries, Outline.ofParts_record ht, hv, Option.map_some, Option.getD_some,
    ← Outline.fieldsOf_content, Data.content_of_entries? hfs, Outline.fieldsOf] at hmeans
  cases hmeans with
  | record hall _ => exact ⟨_, rfl, forall₂_denotesField hall⟩

end Grammar

/-! ## The place of a part -/

namespace Schema

/-- What a schema has, one of its alternatives has up to order. -/
theorem At.exists_member {s t : Schema} {way : List SchemaStep} (h : s.At way t) :
    ∃ m ∈ s.members, ∃ t', m.At way t' ∧ t.same t' = true := by
  cases hu : s.isUnion with
  | false =>
    rw [members_of_isUnion_eq_false hu]
    exact ⟨s, List.mem_singleton_self s, t, h, same_refl t⟩
  | true =>
    cases h with
    | here hflat => rw [hu] at hflat; cases hflat
    | part _ hm h =>
      obtain ⟨n, hn, hmn⟩ := exists_same_member_of_mem_parts hm
      exact ⟨n, hn, h.of_same hmn⟩
    | element => cases hu
    | field => cases hu

/-- The union of several schemas has, up to order, what each of them has, also where some of them
are unions themselves. -/
theorem At.of_mem_flattened {ss : List Schema} (h : ∀ s ∈ ss, s.WellFormed) {s t : Schema}
    {way : List SchemaStep} (hs : s ∈ ss) (hat : s.At way t) :
    ∃ t', (Schema.unionOf ss).At way t' ∧ t.same t' = true := by
  have hflat : ∀ m ∈ ss.flatMap members, m.isUnion = false := fun m hm => by
    obtain ⟨s, hs, hm⟩ := List.mem_flatMap.1 hm
    exact ((h s hs).of_mem_members hm).1
  have hunion : Schema.unionOf ss = Schema.unionOf (ss.flatMap members) := by
    rw [Schema.unionOf, Schema.unionOf, alternatives_of_flat hflat, alternatives]
  obtain ⟨m, hm, t₁, hat₁, hsame₁⟩ := hat.exists_member
  obtain ⟨t₂, hat₂, hsame₂⟩ := At.of_mem_unionOf hflat (List.mem_flatMap.2 ⟨s, hs, hm⟩) hat₁
  exact ⟨t₂, hunion ▸ hat₂, same_trans hsame₁ hsame₂⟩

end Schema

namespace Grammar

/-- What is read as the declaration of a shape inside a declaration, with the way down to it:
the element of a sequence, the members of a union, which are no steps on the way, the shapes of the
fields of a record, and what is read inside these. References are not followed. -/
inductive ReadAt : Data → List SchemaStep → Data → Prop
  | here (d : Data) : ReadAt d [] d
  | element {d e t : Data} {entries : List (Data × Data)} {way : List SchemaStep}
      (hd : d.entries? = some entries) (ht : HasType entries "sequence")
      (he : Data.find? entries "element" = some e) (h : ReadAt e way t) :
      ReadAt d (.element :: way) t
  | member {d v m t : Data} {entries : List (Data × Data)} {ms : List Data} {way : List SchemaStep}
      (hd : d.entries? = some entries) (ht : HasType entries "union")
      (hv : Data.find? entries "members" = some v) (hms : v.content = .list ms) (hm : m ∈ ms)
      (h : ReadAt m way t) : ReadAt d way t
  | field {d v t : Data} {entries fs : List (Data × Data)} {e : Data × Data}
      {way : List SchemaStep} (hd : d.entries? = some entries) (ht : HasType entries "record")
      (hv : Data.find? entries "fields" = some v) (hfs : v.entries? = some fs) (he : e ∈ fs)
      (h : ReadAt (fieldShape e.2.content) way t) : ReadAt d (.field e.1.display :: way) t

/-- What is read inside a declaration that denotes a schema denotes one too. That schema is, up to
order, in its place, unless it is a union and so has no place of its own. -/
theorem ReadAt.exists_denoted {ds : Declarations} {d t : Data} {way : List SchemaStep} {s : Schema}
    (h : ReadAt d way t) (hs : Denotes ds d s) : ∃ u, Denotes ds t u ∧
      (u.isUnion = false → ∃ u', s.At way u' ∧ u.same u' = true) := by
  induction h generalizing s with
  | here d => exact ⟨s, hs, fun hu => ⟨s, .here hu, Schema.same_refl s⟩⟩
  | element hd ht he _ ih =>
    obtain ⟨e', t', r, he', rfl, hdenotes, -⟩ := hs.exists_sequence hd ht
    rw [he] at he'
    cases he'
    obtain ⟨u, hu, hat⟩ := ih hdenotes
    refine ⟨u, hu, fun hflat => ?_⟩
    obtain ⟨u', hat, hsame⟩ := hat hflat
    exact ⟨u', .element hat, hsame⟩
  | member hd ht hv hms hm _ ih =>
    obtain ⟨v', ms', ss, hv', hms', rfl, hall⟩ := hs.exists_union hd ht
    rw [hv] at hv'
    cases hv'
    rw [hms] at hms'
    cases hms'
    obtain ⟨sm, hsm, hdenotes⟩ := exists_of_forall₂_left hall hm
    obtain ⟨u, hu, hat⟩ := ih hdenotes
    refine ⟨u, hu, fun hflat => ?_⟩
    obtain ⟨u₁, hat₁, hsame₁⟩ := hat hflat
    have hwell : ∀ s ∈ ss, s.WellFormed := fun s hs => by
      obtain ⟨m, -, hm⟩ := exists_of_forall₂_right hall hs
      exact hm.isRegular.1
    obtain ⟨u₂, hat₂, hsame₂⟩ := Schema.At.of_mem_flattened hwell hsm hat₁
    exact ⟨u₂, hat₂, Schema.same_trans hsame₁ hsame₂⟩
  | field hd ht hv hfs he _ ih =>
    obtain ⟨r, rfl, hall⟩ := hs.exists_record hd ht hv hfs
    obtain ⟨f, hf, hname, -, hdenotes⟩ := exists_of_forall₂_left hall he
    obtain ⟨u, hu, hat⟩ := ih hdenotes
    refine ⟨u, hu, fun hflat => ?_⟩
    obtain ⟨u', hat, hsame⟩ := hat hflat
    exact ⟨u', .field_of_name hf hname hat, hsame⟩

end Grammar

/-! ## Reading with a catalog -/

namespace Catalog

/-- The schema that is read of a declaration, the names in it standing for the schemas of the
catalog. -/
def read (c : Catalog) (place : Text) (d : Data) : Except DeclarationFault Schema :=
  ((Outline.ofData (fun n => (c.schemas.lookup n).isSome) [] place d).resolve
    fun n => liftM (c.get n)).run' []

/-- With a catalog that binds the declared names to what they mean, a declaration is read as what it
denotes. -/
theorem read_of_denotes {ds : Declarations} {c : Catalog} {d : Data} {s : Schema}
    (hc : ∀ n, ds.declares n = true → ∃ s, Outline.Means ds (.reference n) s ∧ c.get n = .ok s)
    (h : Denotes ds d s) (place : Text) : c.read place d = .ok s := by
  have hmeans := h place
  have hread : Outline.ofData (fun n => (c.schemas.lookup n).isSome) [] place d =
      Outline.ofData ds.declares [] place d := by
    refine Outline.ofData_extend (fun n _ hn => ?_) (List.Subset.refl _) hmeans.isLegal
    obtain ⟨t, -, hget⟩ := hc n hn
    rw [get] at hget
    cases hlookup : c.schemas.lookup n with
    | none => rw [hlookup] at hget; cases hget
    | some t => rfl
  have hresolves : Outline.Resolves ds (fun n => liftM (c.get n)) (fun _ => True) (fun _ => False)
      (.ofData ds.declares [] place d) := by
    refine Outline.resolve_ensures fun n hn known _ => ?_
    obtain ⟨t, ht, hget⟩ := hc n (hmeans.isLegal.of_mem_references hn)
    rw [Outline.resolve, hget]
    exact ⟨ht, trivial⟩
  rw [read, hread]
  exact hresolves.run_eq hmeans

end Catalog

end ShapeAlgebra
