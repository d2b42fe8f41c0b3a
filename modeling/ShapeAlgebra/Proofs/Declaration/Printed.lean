import ShapeAlgebra.Proofs.Declaration.Loading
import ShapeAlgebra.Proofs.Declaration.RoundTrip
import ShapeAlgebra.Proofs.Json.RoundTrip
import ShapeAlgebra.Proofs.Record.Provenance

/-!
# Reading what was printed

The declaration of a schema is printed in YAML or in JSON, and the text is read again. From both it
is read back as it was unless a name in it is too long when it is escaped or too many collections
are inside one another. From JSON, code points beyond the basic plane are read back as the halves of
their surrogate pairs.

Results:

* `IsDeclarative.declare`: what holds of words and is passed on to collections holds of
  declarations.
* `Schema.read_print_yaml`: a declaration is read back from YAML.
* `Catalog.load_declarationText`: a file that declares a schema by its JSON text is loaded.
-/

namespace ShapeAlgebra

/-! ## What holds of declarations -/

/-- The keys in declarations that are no names of fields. -/
def partNames : List Text :=
  ["type", "kind", "name", "shape", "optional", "nullable", "element", "readonly", "members",
    "fields"]

/-- The words for types and for the empty union. -/
def typeNames : List Text := ["opaque", "sequence", "union", "record", "never"]

/-- What makes `P` hold of the declarations of schemas whose nodes satisfy `p`: it holds of the
words in them, and of collections if it holds of their parts. -/
structure IsDeclarative (P : Document → Prop) (p : Schema → Prop) : Prop where
  primitive (k : PrimitiveKind) : P (.text (Text.ofString k.name))
  kind (k : OpaqueKind) : P (.text (Text.ofString k.name))
  type {t : Text} (h : t ∈ typeNames) : P (.text t)
  name {k : OpaqueKind} {n : Text} (h : p (.opaqueLeaf k (some n))) : P (.text n)
  flag : P (.bool true)
  list {items : List Document} (h : ∀ d ∈ items, P d) : P (.list items)
  parts {entries : List (Text × Document)} (hkeys : (entries.map Prod.fst).Sublist partNames)
    (h : ∀ e ∈ entries, P e.2) : P (.mapping entries)
  fields {fs : List Field} (hfs : p (.record fs)) (h : ∀ e ∈ Field.declareAll fs, P e.2) :
    P (.mapping (Field.declareAll fs))

theorem Field.declareAll_eq_map (fs : List Field) : Field.declareAll fs =
    fs.map fun f => (f.name, declareField f.shape.declare f.flags) := by
  induction fs with
  | nil => rfl
  | cons f fs ih =>
    obtain ⟨n, s, flags⟩ := f
    rw [Field.declareAll, ih, List.map_cons]

theorem map_fst_declareAll (fs : List Field) :
    (Field.declareAll fs).map Prod.fst = Record.names fs := by
  rw [Field.declareAll_eq_map, List.map_map]
  rfl

theorem exists_of_mem_declareAll {fs : List Field} {e : Text × Document}
    (h : e ∈ Field.declareAll fs) :
    ∃ f ∈ fs, e = (f.name, declareField f.shape.declare f.flags) := by
  rw [Field.declareAll_eq_map] at h
  obtain ⟨f, hf, he⟩ := List.mem_map.1 h
  exact ⟨f, hf, he.symm⟩

namespace IsDeclarative

variable {P : Document → Prop} {p : Schema → Prop} (hP : IsDeclarative P p)
include hP

theorem declareField {d : Document} (h : P d) (flags : Flags) : P (declareField d flags) := by
  rw [ShapeAlgebra.declareField]
  split
  · exact h
  · obtain ⟨o, n, r⟩ := flags
    have hkeys : (Text.ofString "shape" :: (Flags.declare ⟨o, n, r⟩).map Prod.fst).Sublist
        partNames := by
      cases o <;> cases n <;> cases r <;> decide
    refine hP.parts hkeys (List.forall_mem_cons.2 ⟨h, fun e he => ?_⟩)
    obtain ⟨q, -, hq⟩ := List.mem_filterMap.1 he
    split at hq
    · cases hq
      exact hP.flag
    · cases hq

theorem declareOpaque {k : OpaqueKind} {n : Option Text} (h : p (.opaqueLeaf k n)) :
    P (declareOpaque k n) := by
  have htype : P (.text "opaque") := hP.type (by decide)
  have hkeys : (["type", "kind", "name"] : List Text).Sublist partNames := by decide
  cases n with
  | some n =>
    rw [ShapeAlgebra.declareOpaque]
    exact hP.parts hkeys (by simpa using ⟨htype, hP.kind k, hP.name h⟩)
  | none =>
    cases k with
    | callable => exact htype
    | _ => exact hP.parts ((List.take_sublist 2 _).trans hkeys) (by simpa using ⟨htype, hP.kind _⟩)

theorem declareSequence {d : Document} (h : P d) (readonly : Bool) :
    P (declareSequence d readonly) := by
  have htype : P (.text "sequence") := hP.type (by decide)
  have hkeys : (["type", "element", "readonly"] : List Text).Sublist partNames := by decide
  cases readonly with
  | false => exact hP.parts ((List.take_sublist 2 _).trans hkeys) (by simpa using ⟨htype, h⟩)
  | true => exact hP.parts hkeys (by simpa using ⟨htype, h, hP.flag⟩)

theorem declareRecord {fs : List Field} (hfs : p (.record fs))
    (h : ∀ f ∈ fs, P f.shape.declare) : P (declareRecord (Field.declareAll fs)) := by
  have htype : P (.text "record") := hP.type (by decide)
  have hkeys : (["type", "fields"] : List Text).Sublist partNames := by decide
  have hfields : P (.mapping (Field.declareAll fs)) := by
    refine hP.fields hfs fun e he => ?_
    obtain ⟨f, hf, rfl⟩ := exists_of_mem_declareAll he
    exact hP.declareField (h f hf) f.flags
  exact hP.parts hkeys (by simpa using ⟨htype, hfields⟩)

theorem declare_of_isUnion {s : Schema} (hu : s.isUnion = true)
    (h : ∀ m ∈ s.members, P m.declare) : P s.declare := by
  rw [Schema.declare_of_isUnion hu]
  split
  · exact hP.type (by decide)
  · have htype : P (.text "union") := hP.type (by decide)
    have hkeys : (["type", "members"] : List Text).Sublist partNames := by decide
    have hmembers : P (.list ((Schema.inOrder s.members).map Schema.declare)) := by
      refine hP.list fun d hd => ?_
      obtain ⟨m, hm, rfl⟩ := List.mem_map.1 hd
      exact h m (Schema.mem_inOrder.1 hm)
    exact hP.parts hkeys (by simpa using ⟨htype, hmembers⟩)

/-- What holds of words and is passed on to collections holds of declarations. -/
theorem declare {s : Schema} (h : s.Everywhere p) : P s.declare := by
  induction s using Schema.induction with
  | primitive k => exact hP.primitive k
  | opaqueLeaf k n => exact hP.declareOpaque (Schema.everywhere_opaqueLeaf.1 h)
  | sequence e r ih => exact hP.declareSequence (ih (Schema.everywhere_sequence.1 h).2) r
  | union ms ih =>
    exact hP.declare_of_isUnion rfl fun m hm => ih m hm ((Schema.everywhere_union.1 h).2 m hm)
  | record fs ih =>
    obtain ⟨hfs, hshapes⟩ := Schema.everywhere_record.1 h
    exact hP.declareRecord hfs fun f hf => ih f hf (hshapes f hf)
  | exclusive a b x y iha ihb =>
    obtain ⟨-, ha, hb⟩ := Schema.everywhere_exclusive.1 h
    refine hP.declare_of_isUnion rfl fun m hm => ?_
    obtain rfl | rfl := Schema.eq_or_eq_of_mem_members hm
    · exact iha ha
    · exact ihb hb

end IsDeclarative

/-! ## Keys and names -/

/-- The mappings in the declaration of a schema have each of their keys once. -/
theorem Schema.hasDistinctKeys_declare {s : Schema} (h : s.WellFormed) :
    s.declare.HasDistinctKeys := by
  have hparts : partNames.Nodup := by decide
  have hP : IsDeclarative Document.HasDistinctKeys NodeWellFormed :=
    { primitive := fun k => .text _
      kind := fun k => .text _
      type := fun _ => .text _
      name := fun _ => .text _
      flag := .bool true
      list := .list
      parts := fun hkeys => .mapping (hparts.sublist hkeys)
      fields := fun hfs => .mapping (by rwa [map_fst_declareAll]) }
  exact hP.declare h

/-- Whether the names on a single node can be read back from JSON: their code points are in the
basic plane, and the colon behind the name of a field is not too far away. -/
def Schema.KeepsNames : Schema → Prop
  | .record fs => ∀ n ∈ Record.names fs, Json.IsBasic n ∧ (Json.string n).length ≤ Yaml.keyReach
  | .opaqueLeaf _ (some n) => Json.IsBasic n
  | _ => True

instance : DecidablePred Schema.KeepsNames
  | .record fs => inferInstanceAs (Decidable
      (∀ n ∈ Record.names fs, Json.IsBasic n ∧ (Json.string n).length ≤ Yaml.keyReach))
  | .opaqueLeaf _ (some n) => inferInstanceAs (Decidable (Json.IsBasic n))
  | .opaqueLeaf _ none | .primitive _ | .sequence .. | .union _ | .exclusive .. => .isTrue trivial

/-- A declaration is read back from JSON as it is if the names in the schema are. -/
theorem Schema.keeps_declare {s : Schema} (h : s.Everywhere KeepsNames) :
    Json.keepsKeys s.declare = true ∧ Json.readBack s.declare = s.declare := by
  have hparts : ∀ k ∈ partNames, Json.IsBasic k ∧ (Json.string k).length ≤ Yaml.keyReach := by
    decide
  have htypes : ∀ t ∈ typeNames, Json.IsBasic t := by decide
  have htext : ∀ {t : Text}, Json.IsBasic t →
      Json.keepsKeys (.text t) = true ∧ Json.readBack (.text t) = .text t := fun ht =>
    ⟨rfl, congrArg Document.text (Json.halved_eq_self ht)⟩
  have hentries : ∀ {es : List (Text × Document)},
      (∀ e ∈ es, Json.IsBasic e.1 ∧ (Json.string e.1).length ≤ Yaml.keyReach) →
      (∀ e ∈ es, Json.keepsKeys e.2 = true ∧ Json.readBack e.2 = e.2) →
      Json.keepsKeys (.mapping es) = true ∧ Json.readBack (.mapping es) = .mapping es := by
    intro es hkeys h
    refine ⟨Json.keepsEntries_iff.2 fun e he => ⟨(hkeys e he).2, (h e he).1⟩, ?_⟩
    rw [Json.readBack, Json.readBackEntries_eq_map]
    have hsame : ∀ e ∈ es, (Json.halved e.1, Json.readBack e.2) = id e := fun e he => by
      rw [Json.halved_eq_self (hkeys e he).1, (h e he).2, id]
    rw [List.map_congr_left hsame, List.map_id]
  have hP : IsDeclarative (fun d => Json.keepsKeys d = true ∧ Json.readBack d = d) KeepsNames :=
    { primitive := fun k => htext (by cases k <;> decide)
      kind := fun k => htext (by cases k <;> decide)
      type := fun ht => htext (htypes _ ht)
      name := fun h => htext h
      flag := ⟨rfl, rfl⟩
      list := fun {items} h => by
        refine ⟨Json.keepsItems_iff.2 fun d hd => (h d hd).1, ?_⟩
        have hsame : ∀ d ∈ items, Json.readBack d = id d := fun d hd => (h d hd).2
        rw [Json.readBack, Json.readBackItems_eq_map, List.map_congr_left hsame, List.map_id]
      parts := fun hkeys => hentries fun e he => hparts _ (hkeys.subset (List.mem_map_of_mem he))
      fields := fun hfs => hentries fun e he => by
        obtain ⟨f, hf, rfl⟩ := exists_of_mem_declareAll he
        exact hfs f.name (List.mem_map_of_mem hf) }
  exact hP.declare h

/-! ## A declaration alone -/

namespace Catalog

/-- What a document declares does not depend on where it was found. -/
theorem ofDocument_of_path {document : List (Data × Data)} {path : Option Text} {c : Catalog}
    (h : ofDocument document path = .ok c) (path' : Option Text) :
    ofDocument document path' = .ok ⟨path', c.schemas⟩ := by
  rw [ofDocument] at h ⊢
  split at h
  · obtain ⟨ds, hds, h⟩ := exists_of_bind_eq_ok h
    obtain ⟨rs, hrs, h⟩ := exists_of_bind_eq_ok h
    cases h
    simp only [hds, hrs, bind, Except.bind]
    rfl
  · cases h

end Catalog

namespace Schema

/-- A document that declares a schema and nothing else makes a catalog, wherever it was found. -/
theorem exists_ofDocument_derived {s : Schema} (h : s.WellFormed) (path : Option Text) :
    ∃ c, Catalog.ofDocument s.derivedDocument path = .ok c ∧
      c.get derivedName = s.redeclared := by
  have hback := redeclared_eq_normal h
  obtain ⟨c, hc, hget⟩ := exists_of_bind_eq_ok hback
  exact ⟨_, Catalog.ofDocument_of_path hc path, hget.trans hback.symm⟩

/-! ## Printed as YAML -/

/-- The declaration of a schema is read back from the YAML text in which the schema is printed, with
and without the line breaks at its end, and so declares what it did. -/
theorem read_print_yaml {s : Schema} {cs : List Char} (hs : s.WellFormed)
    (hkeeps : Yaml.keepsNode 0 s.declare = true) (hheight : s.declare.height ≤ Yaml.deepest)
    (hcs : s.print .yaml = Text.ofChars cs) :
    Yaml.read (Yaml.write s.declare) = .ok s.declare.toData ∧
      ∃ d c, Yaml.read cs = .ok d ∧ d = s.declare.toData ∧
        Catalog.ofDocument (Catalog.documentOf [(.text derivedName, d)]) none = .ok c ∧
        c.get derivedName = s.redeclared ∧ s.redeclared = .ok s.normal := by
  obtain rfl := Text.ofChars_injective hcs
  obtain ⟨hfull, hread⟩ := Yaml.read_write (hasDistinctKeys_declare hs) hkeeps hheight
  obtain ⟨c, hc, hget⟩ := exists_ofDocument_derived hs none
  exact ⟨hfull, _, c, hread, rfl, hc, hget, redeclared_eq_normal hs⟩

/-- A record whose names look like other data, stand for marks or need quotes, one of them as the
name of an opaque leaf. -/
def oddNames : Schema :=
  .record [⟨"", .primitive .string, {}⟩, ⟨"null", .primitive .number, ⟨true, true, true⟩⟩,
    ⟨"1e3", .opaqueLeaf .constructor (some "2001-01-40"), {}⟩,
    ⟨"---", .sequence (.record []) true, {}⟩,
    ⟨"<<", .opaqueLeaf .other (some "it's a\n\"name\" "), {}⟩,
    ⟨"a: b #c", .never, {}⟩, ⟨"no\u00e9 \u2028", .primitive .boolean, {}⟩]

theorem read_print_yaml_oddNames : oddNames.WellFormed ∧
    ∃ cs, oddNames.print .yaml = Text.ofChars cs ∧
      Yaml.read (Yaml.write oddNames.declare) = .ok oddNames.declare.toData ∧
      ∃ d c, Yaml.read cs = .ok d ∧ d = oddNames.declare.toData ∧
        Catalog.ofDocument (Catalog.documentOf [(.text derivedName, d)]) none = .ok c ∧
        c.get derivedName = oddNames.redeclared ∧ oddNames.redeclared = .ok oddNames.normal := by
  have hw : oddNames.WellFormed := by decide
  exact ⟨hw, _, rfl, read_print_yaml hw (by decide +kernel) (by decide) rfl⟩

/-- A record with one field. -/
def named (n : Text) : Schema := .record [⟨n, .primitive .string, {}⟩]

/-- A name whose code points take ten characters each between double quotes. -/
def smileys (n : Nat) : Text := List.replicate n (.scalar (Char.ofNat 0x1F600))

/-- The text in which a name of 103 such code points is printed cannot be read. -/
theorem read_print_yaml_smileys : (named (smileys 103)).WellFormed ∧
    ∃ cs, (named (smileys 103)).print .yaml = Text.ofChars cs ∧
      Yaml.read cs = .error .malformed := by
  refine ⟨by decide, _, rfl, ?_⟩
  have hfault : (Yaml.read (withoutFinalBreaks (Yaml.write (named (smileys 103)).declare))).map
      (fun _ => ()) = .error .malformed := by decide +kernel
  revert hfault
  cases Yaml.read (withoutFinalBreaks (Yaml.write (named (smileys 103)).declare)) with
  | ok d => nofun
  | error cause => exact fun h => by cases h; rfl

end Schema

namespace Catalog

theorem withLineFeeds_of_isOrdinary {cs : List Char} (h : ∀ c ∈ cs, Yaml.IsOrdinary c) :
    withLineFeeds cs = cs := by
  induction cs with
  | nil => rfl
  | cons c cs ih =>
    obtain ⟨hc, hcs⟩ := List.forall_mem_cons.1 h
    have hne : c ≠ '\r' := by
      rintro rfl
      exact absurd hc (by decide)
    rw [withLineFeeds.eq_3 _ _ (fun _ heq => absurd heq hne) hne, ih hcs]

/-- The file that holds the JSON text of a document declares what is read back from it. -/
theorem load_of_readBack {s : Schema} {f : Folder} {path : Text} {d : Document} (hs : s.WellFormed)
    (hback : Json.readBack d = s.declare) (hkeeps : Json.keepsKeys d = true)
    (hheight : d.height + 2 ≤ Yaml.deepest) (hfile : f.find (Path.ofText path) =
      .file (Utf8.encode (Json.declarationText (Json.print 0 d)))) :
    ∃ c, load f path = .ok c ∧ c.get Schema.derivedName = s.redeclared := by
  have hkeys : (Json.readBack d).HasDistinctKeys := by
    rw [hback]
    exact Schema.hasDistinctKeys_declare hs
  have hread := Json.read_declarationText hkeys hkeeps hheight
  rw [← withLineFeeds_of_isOrdinary Json.isOrdinary_of_mem_declarationText, hback] at hread
  have hentries : (Json.declarationDocument s.declare).toData.entries? =
      some s.derivedDocument := rfl
  obtain ⟨c, hc, hget⟩ :=
    Schema.exists_ofDocument_derived hs (some (Path.ofText path).text)
  refine ⟨c, ?_, hget⟩
  rw [load_of_text hfile, ofChars_of_entries hread hentries, hc]
  rfl

/-- A file that declares a schema by the JSON text in which it is printed is loaded, and the schema
is the one that is read back from its declaration. -/
theorem load_declarationText {s : Schema} {f : Folder} {path : Text} {cs : List Char}
    (hs : s.WellFormed) (hnames : s.Everywhere Schema.KeepsNames)
    (hheight : s.declare.height + 2 ≤ Yaml.deepest) (hcs : s.print .json = Text.ofChars cs)
    (hfile : f.find (Path.ofText path) = .file (Utf8.encode (Json.declarationText cs))) :
    ∃ c, load f path = .ok c ∧ c.get Schema.derivedName = s.redeclared ∧
      s.redeclared = .ok s.normal := by
  obtain rfl := Text.ofChars_injective hcs
  obtain ⟨hkeeps, hsame⟩ := Schema.keeps_declare hnames
  obtain ⟨c, hc, hget⟩ := load_of_readBack hs hsame hkeeps hheight hfile
  exact ⟨c, hc, hget, Schema.redeclared_eq_normal hs⟩

/-- A folder with a file that declares a schema by its JSON text. -/
def derivedFile (s : Schema) : Folder :=
  .ofFiles [("derived.json", Utf8.encode (Json.declarationText (Json.print 0 s.declare)))]

theorem load_declarationText_oddNames : Schema.oddNames.WellFormed ∧
    Schema.oddNames.Everywhere Schema.KeepsNames ∧
    ∃ c, load (derivedFile Schema.oddNames) "derived.json" = .ok c ∧
      c.get Schema.derivedName = Schema.oddNames.redeclared ∧
      Schema.oddNames.redeclared = .ok Schema.oddNames.normal := by
  have hw : Schema.oddNames.WellFormed := by decide
  have hnames : Schema.oddNames.Everywhere Schema.KeepsNames := by decide +kernel
  exact ⟨hw, hnames, load_declarationText hw hnames (by decide +kernel) rfl rfl⟩

/-- A name with a code point beyond the basic plane is read back as the two halves of its surrogate
pair, and with a name that is too long nothing is read back. -/
theorem load_declarationText_smiley :
    (∃ c, load (derivedFile (.named (Schema.smileys 1))) "derived.json" = .ok c ∧
      c.get Schema.derivedName = .ok (.named [.surrogate 0x03D, .surrogate 0x600])) ∧
    (Schema.named (Schema.smileys 1)).redeclared = .ok (.named (Schema.smileys 1)) ∧
    (Schema.named (Schema.smileys 1)).same (.named [.surrogate 0x03D, .surrogate 0x600]) = false ∧
    (load (derivedFile (.named (List.replicate 1023 (.scalar 'a')))) "derived.json").map
      Catalog.path = .error (.declaration .malformedFile) := by
  have hhalves : (Schema.named [.surrogate 0x03D, .surrogate 0x600]).WellFormed := by decide
  have hback : Json.readBack (Schema.named (Schema.smileys 1)).declare =
      (Schema.named [.surrogate 0x03D, .surrogate 0x600]).declare := rfl
  have hfile : (derivedFile (.named (Schema.smileys 1))).find (Path.ofText "derived.json") =
      .file (Utf8.encode (Json.declarationText
        (Json.print 0 (Schema.named (Schema.smileys 1)).declare))) := rfl
  obtain ⟨c, hc, hget⟩ :=
    load_of_readBack hhalves hback (by decide +kernel) (by decide +kernel) hfile
  refine ⟨⟨c, hc, hget.trans (Schema.redeclared_eq_normal hhalves)⟩, ?_, by decide +kernel,
    by decide +kernel⟩
  exact Schema.redeclared_eq_normal (by decide)

end Catalog

end ShapeAlgebra
