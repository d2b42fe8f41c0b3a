import Mathlib.Logic.Relation
import ShapeAlgebra.Declaration.Outline

/-!
# The grammar of declarations

Which plain data is a declaration of a shape, said of the data alone: without outlines, without an
order in which parts are looked at, and without a record of what was resolved before. Beside it
stands the graph of references: which declared names a declaration mentions at places where a shape
is read.

Results:

* `Grammar.HasType.unique`: a mapping has at most one type.
* `Grammar.mentions_text`, `Grammar.mentions_reference`, `Grammar.mentions_sequence`,
  `Grammar.mentions_union`, `Grammar.mentions_record`, `Grammar.not_mentions`: what each sort of
  declaration mentions.
-/

namespace ShapeAlgebra

namespace Data

mutual

/-- Whether no collection in the value contains itself. -/
def isFinite : Data → Bool
  | .list items | .set items => allFinite items
  | .pair a b => a.isFinite && b.isFinite
  | .mapping entries => entriesFinite entries
  | .recurring .. => false
  | _ => true

/-- Whether this holds of several values. -/
def allFinite : List Data → Bool
  | [] => true
  | d :: ds => d.isFinite && allFinite ds

/-- Whether this holds of the entries of a mapping. -/
def entriesFinite : List (Data × Data) → Bool
  | [] => true
  | (k, v) :: rest => k.isFinite && v.isFinite && entriesFinite rest

end

end Data

namespace Grammar

/-! ## Words and flags -/

/-- The words that denote shapes whatever is declared. -/
def BuiltIn (w : Text) : Prop :=
  (∃ k : PrimitiveKind, w = Text.ofString k.name) ∨ w = "opaque" ∨ w = "callable" ∨ w = "never"

/-- The value under a key is a flag: a truth value, or null, or there is none. -/
def IsFlag (entries : List (Data × Data)) (key : Text) : Prop :=
  Data.find? entries key = none ∨ Data.find? entries key = some .null ∨
    ∃ b, Data.find? entries key = some (.bool b)

/-- The value under a key is a text, or null, or there is none. -/
def IsOptionalText (entries : List (Data × Data)) (key : Text) : Prop :=
  Data.find? entries key = none ∨ Data.find? entries key = some .null ∨
    ∃ t, Data.find? entries key = some (.text t)

/-- The value under `kind` names a kind of opaque leaves, or there is none. -/
def IsOptionalKind (entries : List (Data × Data)) : Prop :=
  Data.find? entries "kind" = none ∨
    ∃ k : OpaqueKind, Data.find? entries "kind" = some (.text (Text.ofString k.name))

/-- All keys have texts, and these are different. -/
def HasDistinctTexts (keys : List Data) : Prop :=
  (∀ k ∈ keys, k.isShowable = true) ∧ (keys.map Data.display).Nodup

/-- A mapping without a reference, whose type is `w` but for white space around it. -/
def HasType (entries : List (Data × Data)) (w : Text) : Prop :=
  Data.find? entries "ref" = none ∧ ∃ t, Data.find? entries "type" = some (.text t) ∧ t.strip = w

theorem HasType.unique {entries : List (Data × Data)} {v w : Text} (hv : HasType entries v)
    (hw : HasType entries w) : v = w := by
  obtain ⟨_, t, ht, rfl⟩ := hv
  obtain ⟨_, u, hu, rfl⟩ := hw
  rw [ht] at hu
  cases hu
  rfl

/-! ## Fields -/

/-- The entries of a mapping but for those under some keys. -/
def without (keys : List Text) (entries : List (Data × Data)) : List (Data × Data) :=
  entries.filter fun e => !keys.any fun k => e.1.sameKey (.text k)

/-- The flags that a field's mapping gives to the field. A sequence described in place keeps
`readonly` for itself. -/
def ownFlags (entries : List (Data × Data)) : List Text :=
  if Data.find? entries "shape" = none ∧ isInlineSequence entries = true then
    ["optional", "nullable"]
  else Flags.names

/-- The declaration of a field's shape: what a mapping holds under `shape`, or what is left of it
without the flags of the field. Anything but a mapping is the declaration itself. -/
def fieldShape : Data → Data
  | .mapping entries =>
    (Data.find? entries "shape").getD (.mapping (without (ownFlags entries) entries))
  | d => d

/-- The flags of a field can be read. -/
def HasFieldFlags : Data → Prop
  | .mapping entries => ∀ flag ∈ ownFlags entries, IsFlag entries flag
  | _ => True

/-! ## Shapes -/

/-- The declarations of shapes, given which names are declared. -/
inductive Shape (declared : Text → Prop) : Data → Prop
  | null : Shape declared .null
  | word {t : Text} (h : BuiltIn t.strip ∨ declared t.strip) : Shape declared (.text t)
  | reference {entries : List (Data × Data)} {t : Text}
      (h : Data.find? entries "ref" = some (.text t)) (hd : declared t.strip) :
      Shape declared (.mapping entries)
  | primitive {entries : List (Data × Data)} (k : PrimitiveKind)
      (h : HasType entries (Text.ofString k.name)) : Shape declared (.mapping entries)
  | never {entries : List (Data × Data)} (h : HasType entries "never") :
      Shape declared (.mapping entries)
  | opaqueLeaf {entries : List (Data × Data)} (h : HasType entries "opaque")
      (hk : IsOptionalKind entries) (hn : IsOptionalText entries "name") :
      Shape declared (.mapping entries)
  | sequence {entries : List (Data × Data)} {e : Data} (h : HasType entries "sequence")
      (he : Data.find? entries "element" = some e) (hs : Shape declared e)
      (hr : IsFlag entries "readonly") : Shape declared (.mapping entries)
  | union {entries : List (Data × Data)} {ms : List Data} (h : HasType entries "union")
      (hm : Data.find? entries "members" = some (.list ms)) (hs : ∀ m ∈ ms, Shape declared m) :
      Shape declared (.mapping entries)
  | fieldless {entries : List (Data × Data)} (h : HasType entries "record")
      (hf : Data.find? entries "fields" = none ∨ Data.find? entries "fields" = some .null) :
      Shape declared (.mapping entries)
  | record {entries fs : List (Data × Data)} (h : HasType entries "record")
      (hf : Data.find? entries "fields" = some (.mapping fs))
      (hk : HasDistinctTexts (fs.map Prod.fst)) (hflags : ∀ f ∈ fs, HasFieldFlags f.2)
      (hs : ∀ f ∈ fs, Shape declared (fieldShape f.2)) : Shape declared (.mapping entries)

/-! ## References -/

/-- The declarations of shapes that are read inside a declaration: itself, its element, its members,
the shapes of its fields, and what is read inside these. -/
inductive Within : Data → Data → Prop
  | self (d : Data) : Within d d
  | element {entries : List (Data × Data)} {e d : Data} (h : HasType entries "sequence")
      (he : Data.find? entries "element" = some e) (hw : Within e d) :
      Within (.mapping entries) d
  | member {entries : List (Data × Data)} {ms : List Data} {m d : Data}
      (h : HasType entries "union") (hms : Data.find? entries "members" = some (.list ms))
      (hm : m ∈ ms) (hw : Within m d) : Within (.mapping entries) d
  | field {entries fs : List (Data × Data)} {f : Data × Data} {d : Data}
      (h : HasType entries "record") (hfs : Data.find? entries "fields" = some (.mapping fs))
      (hf : f ∈ fs) (hw : Within (fieldShape f.2) d) : Within (.mapping entries) d

/-- A declaration that is nothing but a declared name: a word, or a mapping with `ref`. The words of
this library go before declared names. -/
inductive Names (declared : Text → Prop) : Data → Text → Prop
  | word {t : Text} (hb : ¬ BuiltIn t.strip) (hd : declared t.strip) :
      Names declared (.text t) t.strip
  | reference {entries : List (Data × Data)} {t : Text}
      (h : Data.find? entries "ref" = some (.text t)) (hd : declared t.strip) :
      Names declared (.mapping entries) t.strip

/-- Whether a declaration has a declared name at a place where a shape is read. -/
def Mentions (declared : Text → Prop) (d : Data) (n : Text) : Prop :=
  ∃ e, Within d e ∧ Names declared e n

section

variable {declared : Text → Prop} {entries fs : List (Data × Data)} {ms : List Data} {e : Data}
  {n t w : Text}

/-- A mapping with a type is no reference, so that it mentions what its parts mention. -/
theorem HasType.not_names (h : HasType entries w) : ¬ Names declared (.mapping entries) n := by
  intro hn
  cases hn with
  | reference hr _ =>
    rw [h.1] at hr
    cases hr

theorem not_mentions_null : ¬ Mentions declared .null n := by
  rintro ⟨d, hw, hn⟩
  cases hw
  cases hn

theorem mentions_text :
    Mentions declared (.text t) n ↔ (¬ BuiltIn t.strip ∧ declared t.strip) ∧ n = t.strip := by
  constructor
  · rintro ⟨d, hw, hn⟩
    cases hw
    cases hn with
    | word hb hd => exact ⟨⟨hb, hd⟩, rfl⟩
  · rintro ⟨⟨hb, hd⟩, rfl⟩
    exact ⟨_, .self _, .word hb hd⟩

theorem mentions_reference (h : Data.find? entries "ref" = some (.text t)) :
    Mentions declared (.mapping entries) n ↔ declared t.strip ∧ n = t.strip := by
  constructor
  · rintro ⟨d, hw, hn⟩
    cases hw with
    | self =>
      cases hn with
      | reference hr hd =>
        rw [h] at hr
        cases hr
        exact ⟨hd, rfl⟩
    | element ht => rw [ht.1] at h; cases h
    | member ht => rw [ht.1] at h; cases h
    | field ht => rw [ht.1] at h; cases h
  · rintro ⟨hd, rfl⟩
    exact ⟨_, .self _, .reference h hd⟩

theorem not_mentions (h : HasType entries w) (hs : w ≠ "sequence") (hu : w ≠ "union")
    (hr : w ≠ "record") : ¬ Mentions declared (.mapping entries) n := by
  rintro ⟨d, hw, hn⟩
  cases hw with
  | self => exact h.not_names hn
  | element ht => exact hs (h.unique ht)
  | member ht => exact hu (h.unique ht)
  | field ht => exact hr (h.unique ht)

theorem mentions_sequence (h : HasType entries "sequence")
    (he : Data.find? entries "element" = some e) :
    Mentions declared (.mapping entries) n ↔ Mentions declared e n := by
  constructor
  · rintro ⟨d, hw, hn⟩
    cases hw with
    | self => exact absurd hn h.not_names
    | element _ he' hw =>
      rw [he] at he'
      cases he'
      exact ⟨d, hw, hn⟩
    | member ht => exact absurd (h.unique ht) (by decide)
    | field ht => exact absurd (h.unique ht) (by decide)
  · rintro ⟨d, hw, hn⟩
    exact ⟨d, .element h he hw, hn⟩

theorem mentions_union (h : HasType entries "union")
    (hms : Data.find? entries "members" = some (.list ms)) :
    Mentions declared (.mapping entries) n ↔ ∃ m ∈ ms, Mentions declared m n := by
  constructor
  · rintro ⟨d, hw, hn⟩
    cases hw with
    | self => exact absurd hn h.not_names
    | element ht => exact absurd (h.unique ht) (by decide)
    | member _ hms' hm hw =>
      rw [hms] at hms'
      cases hms'
      exact ⟨_, hm, d, hw, hn⟩
    | field ht => exact absurd (h.unique ht) (by decide)
  · rintro ⟨m, hm, d, hw, hn⟩
    exact ⟨d, .member h hms hm hw, hn⟩

theorem mentions_record (h : HasType entries "record")
    (hfs : Data.find? entries "fields" = some (.mapping fs)) :
    Mentions declared (.mapping entries) n ↔ ∃ f ∈ fs, Mentions declared (fieldShape f.2) n := by
  constructor
  · rintro ⟨d, hw, hn⟩
    cases hw with
    | self => exact absurd hn h.not_names
    | element ht => exact absurd (h.unique ht) (by decide)
    | member ht => exact absurd (h.unique ht) (by decide)
    | field _ hfs' hf hw =>
      rw [hfs] at hfs'
      cases hfs'
      exact ⟨_, hf, d, hw, hn⟩
  · rintro ⟨f, hf, d, hw, hn⟩
    exact ⟨d, .field h hfs hf hw, hn⟩

theorem not_mentions_fieldless (h : HasType entries "record")
    (hf : Data.find? entries "fields" = none ∨ Data.find? entries "fields" = some .null) :
    ¬ Mentions declared (.mapping entries) n := by
  rintro ⟨d, hw, hn⟩
  cases hw with
  | self => exact h.not_names hn
  | element ht => exact absurd (h.unique ht) (by decide)
  | member ht => exact absurd (h.unique ht) (by decide)
  | field _ hfs => rcases hf with hf | hf <;> rw [hf] at hfs <;> cases hfs

end

end Grammar

end ShapeAlgebra
