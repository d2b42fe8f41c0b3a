import ShapeAlgebra.Proofs.Schema.Normal
import ShapeAlgebra.Proofs.Text.Joined
import ShapeAlgebra.Schema.Classify

/-!
# Readable schemas

Which schemas are told by their texts, and how the text of a schema begins. Leaves have no names of
their own, fields are not shown with members that they do not have, and names have no marks. Of
sequences, one that is read-only is not the element of one that is not: alternatives are put between
brackets in a sequence, but what is read-only is not.

Results:

* `Schema.not_mem_marks`: letters, digits and underscores are no marks.
* `Schema.bracketed_eq_times`: the text of a sequence by what is innermost in it.
* `Schema.same_of_core`: what tells a sequence.
* `Schema.eq_of_word?`: a word tells its schema.
-/

namespace ShapeAlgebra.Schema

/-! ## What can be told apart -/

/-- The signs that end the name of a field, or a record that has no field. -/
def marks : Text := " ?:\x7d"

/-- The condition of legibility on a single node: leaves have no names of their own, fields are not
nullable, and their names have no marks. -/
def NodeLegible : Schema → Prop
  | .opaqueLeaf _ n => n = none
  | .record fs => ∀ f ∈ fs, f.flags.nullable = false ∧ ∀ c ∈ f.name, c ∉ marks
  | _ => True

/-- No sequence that is not read-only has an element that is a read-only sequence. -/
def NodeOutward : Schema → Prop
  | .sequence (.sequence _ r) r' => r = true → r' = true
  | _ => True

instance : DecidablePred NodeLegible
  | .opaqueLeaf _ n => inferInstanceAs (Decidable (n = none))
  | .record fs => inferInstanceAs
      (Decidable (∀ f ∈ fs, f.flags.nullable = false ∧ ∀ c ∈ f.name, c ∉ marks))
  | .primitive _ | .sequence .. | .union _ | .exclusive .. => .isTrue trivial

instance : DecidablePred NodeOutward
  | .sequence (.sequence _ r) r' => inferInstanceAs (Decidable (r = true → r' = true))
  | .sequence (.primitive _) _ | .sequence (.opaqueLeaf ..) _ | .sequence (.union _) _
  | .sequence (.record _) _ | .sequence (.exclusive ..) _ | .primitive _ | .opaqueLeaf ..
  | .union _ | .record _ | .exclusive .. => .isTrue trivial

/-- Whether a schema can be told from its text: it is as the builders promise, has no exclusive
union, no union of a single member, no names of leaves and no nullable fields, its field names have
no marks, and what is read-only in sequences is outside. -/
structure Readable (s : Schema) : Prop where
  wellFormed : s.WellFormed
  plain : s.IsPlain
  legible : s.Everywhere NodeLegible
  outward : s.Everywhere NodeOutward

/-- Letters, digits and underscores are no marks. -/
theorem not_mem_marks {c : Char} (h : c.isAlphanum = true ∨ c = '_') :
    CodePoint.scalar c ∉ marks := by
  intro hc
  have hmem : c = ' ' ∨ c = '?' ∨ c = ':' ∨ c = '\x7d' := by
    simpa [marks, Text.ofString, Text.ofChars] using hc
  rcases hmem with rfl | rfl | rfl | rfl <;> rcases h with h | h <;> cases h

namespace Readable

theorem of_sequence {e : Schema} {r : Bool} (h : (Schema.sequence e r).Readable) : e.Readable where
  wellFormed := wellFormed_sequence.1 h.wellFormed
  plain := isPlain_sequence.1 h.plain
  legible := (everywhere_sequence.1 h.legible).2
  outward := (everywhere_sequence.1 h.outward).2

theorem of_mem {ms : List Schema} (h : (Schema.union ms).Readable) {m : Schema} (hm : m ∈ ms) :
    m.Readable where
  wellFormed := (wellFormed_union.1 h.wellFormed).2 m hm
  plain := (isPlain_union.1 h.plain).2 m hm
  legible := (everywhere_union.1 h.legible).2 m hm
  outward := (everywhere_union.1 h.outward).2 m hm

theorem isUnion_of_mem {ms : List Schema} (h : (Schema.union ms).Readable) {m : Schema}
    (hm : m ∈ ms) : m.isUnion = false := (wellFormed_union.1 h.wellFormed).1.1 m hm

theorem shape {fs : Record} (h : (Schema.record fs).Readable) {f : Field} (hf : f ∈ fs) :
    f.shape.Readable where
  wellFormed := (wellFormed_record.1 h.wellFormed).2 f hf
  plain := isPlain_record.1 h.plain f hf
  legible := (everywhere_record.1 h.legible).2 f hf
  outward := (everywhere_record.1 h.outward).2 f hf

theorem field {fs : Record} (h : (Schema.record fs).Readable) {f : Field} (hf : f ∈ fs) :
    f.flags.nullable = false ∧ ∀ c ∈ f.name, c ∉ marks := (everywhere_record.1 h.legible).1 f hf

end Readable

/-! ## Sequences -/

/-- What is innermost in sequences. -/
def core : Schema → Schema
  | .sequence e _ => core e
  | s => s

/-- How many sequences there are one in another. -/
def depth : Schema → Nat
  | .sequence e _ => depth e + 1
  | _ => 0

/-- How many of them are read-only. -/
def readonlys : Schema → Nat
  | .sequence e r => if r then readonlys e + 1 else readonlys e
  | _ => 0

/-- Whether a schema is a sequence. -/
def isSequence (s : Schema) : Bool := Classifier.test .sequence s

/-- The text of a schema as the element of a sequence. -/
def bracketed (s : Schema) : Text := if s.isAlternative then "(" ++ s.render ++ ")" else s.render

theorem isSequence_core (s : Schema) : s.core.isSequence = false := by
  induction s using Schema.induction with
  | sequence e r ih => exact ih
  | _ => rfl

theorem Readable.core {s : Schema} (h : s.Readable) : s.core.Readable := by
  induction s using Schema.induction with
  | sequence e r ih => exact ih h.of_sequence
  | _ => exact h

/-- The text of a sequence by what is innermost in it. -/
theorem bracketed_eq_times (s : Schema) : s.bracketed =
    Text.times s.readonlys "readonly " ++ (s.core.bracketed ++ Text.times s.depth "[]") := by
  induction s using Schema.induction with
  | sequence e r ih =>
    have hrender : (Schema.sequence e r).bracketed =
        (if r then "readonly " else "" : Text) ++ e.bracketed ++ "[]" := rfl
    rw [hrender, ih, core, depth, readonlys, Text.times_succ']
    cases r with
    | false => simp [Text.ofString, Text.ofChars]
    | true => simp only [if_true, Text.times_succ, List.append_assoc]
  | _ => exact (List.append_nil _).symm

theorem render_eq_times {s : Schema} (h : s.isAlternative = false) : s.render =
    Text.times s.readonlys "readonly " ++ (s.core.bracketed ++ Text.times s.depth "[]") := by
  rw [← bracketed_eq_times, bracketed, h]
  rfl

/-- In a sequence that is not read-only nothing is. -/
theorem readonlys_eq_zero {e : Schema} (h : (Schema.sequence e false).Readable) :
    e.readonlys = 0 := by
  induction e using Schema.induction with
  | sequence e r ih =>
    have hr : r = true → false = true := (everywhere_sequence.1 h.outward).1
    cases r with
    | false => exact ih h.of_sequence
    | true => cases hr rfl
  | _ => rfl

/-- A sequence is told by what is innermost in it, and by how many sequences and how many read-only
ones there are. -/
theorem same_of_core {s t : Schema} (hs : s.Readable) (ht : t.Readable)
    (hcore : s.core.same t.core = true) (hdepth : s.depth = t.depth)
    (hreadonly : s.readonlys = t.readonlys) : s.same t = true := by
  induction s using Schema.induction generalizing t with
  | sequence e r ih =>
    cases t with
    | sequence e' r' =>
      have hrr : r = r' ∧ e.readonlys = e'.readonlys := by
        rw [readonlys, readonlys] at hreadonly
        cases r with
        | false =>
          have he := readonlys_eq_zero hs
          cases r' with
          | false => exact ⟨rfl, hreadonly⟩
          | true => rw [if_neg Bool.false_ne_true, he] at hreadonly; cases hreadonly
        | true =>
          cases r' with
          | false =>
            rw [if_neg Bool.false_ne_true, readonlys_eq_zero ht] at hreadonly
            cases hreadonly
          | true => exact ⟨rfl, Nat.succ.inj hreadonly⟩
      have he := ih hs.of_sequence ht.of_sequence hcore (Nat.succ.inj hdepth) hrr.2
      rw [same, he, hrr.1, beq_self_eq_true, Bool.and_self]
    | _ => cases hdepth
  | _ =>
    cases t with
    | sequence e' r' => cases hdepth
    | _ => exact hcore

/-! ## What is innermost in sequences -/

/-- The words for schemas without parts. -/
def words : List Text :=
  (["never"] ++ PrimitiveKind.all.map PrimitiveKind.name ++
    OpaqueKind.all.map OpaqueKind.name).map Text.ofString

/-- The word for a schema without parts. -/
def word? : Schema → Option Text
  | .primitive k => some (.ofString k.name)
  | .opaqueLeaf k none => some (.ofString k.name)
  | .union [] => some "never"
  | _ => none

/-- The schema of a word. -/
def ofWord (w : Text) : Schema :=
  match PrimitiveKind.ofName? w, OpaqueKind.ofName? w with
  | some k, _ => .primitive k
  | none, some k => .opaqueLeaf k none
  | none, none => never

/-- No word is the beginning of another. -/
theorem eq_of_prefix_words : ∀ w ∈ words, ∀ w' ∈ words, w.isPrefixOf w' = true → w = w' := by
  decide +kernel

/-- Words begin neither with a bracket nor with the letter with which `readonly` begins. -/
theorem head?_words : ∀ w ∈ words, ∀ c ∈ ['r', '(', '\x7b'].map CodePoint.scalar,
    w ≠ [] ∧ w.head? ≠ some c := by
  decide +kernel

section

variable {s t : Schema} {w : Text}

/-- Words are those of kinds without names, and of the schema that nothing satisfies. -/
theorem cases_of_word? (h : s.word? = some w) :
    (∃ k, s = .primitive k ∧ w = .ofString k.name) ∨
      (∃ k, s = .opaqueLeaf k none ∧ w = .ofString k.name) ∨ (s = never ∧ w = "never") := by
  cases s with
  | primitive k => exact .inl ⟨k, rfl, (Option.some.inj h).symm⟩
  | opaqueLeaf k n =>
    cases n with
    | none => exact .inr (.inl ⟨k, rfl, (Option.some.inj h).symm⟩)
    | some n => cases h
  | union ms =>
    cases ms with
    | nil => exact .inr (.inr ⟨rfl, (Option.some.inj h).symm⟩)
    | cons m ms => cases h
  | _ => cases h

theorem mem_words (h : s.word? = some w) : w ∈ words := by
  obtain ⟨k, -, rfl⟩ | ⟨k, -, rfl⟩ | ⟨-, rfl⟩ := cases_of_word? h
  · cases k <;> decide +kernel
  · cases k <;> decide +kernel
  · exact List.mem_cons_self ..

theorem bracketed_of_word? (h : s.word? = some w) : s.bracketed = w := by
  obtain ⟨k, rfl, rfl⟩ | ⟨k, rfl, rfl⟩ | ⟨rfl, rfl⟩ := cases_of_word? h <;> rfl

theorem ofWord_word? (h : s.word? = some w) : ofWord w = s := by
  obtain ⟨k, rfl, rfl⟩ | ⟨k, rfl, rfl⟩ | ⟨rfl, rfl⟩ := cases_of_word? h
  · cases k <;> rfl
  · cases k <;> rfl
  · rfl

/-- A word is that of one schema only. -/
theorem eq_of_word? (hs : s.word? = some w) (ht : t.word? = some w) : s = t :=
  (ofWord_word? hs).symm.trans (ofWord_word? ht)

/-- What is innermost in sequences is told by a word, by its brackets or by its braces. -/
theorem word?_or_isAlternative_or_record (hs : s.Readable) (hseq : s.isSequence = false) :
    (∃ w, s.word? = some w) ∨ s.isAlternative = true ∨ ∃ fs, s = .record fs := by
  cases s with
  | primitive k => exact .inl ⟨_, rfl⟩
  | opaqueLeaf k n =>
    obtain rfl : n = none := everywhere_opaqueLeaf.1 hs.legible
    exact .inl ⟨_, rfl⟩
  | sequence e r => cases hseq
  | union ms =>
    cases ms with
    | nil => exact .inl ⟨_, rfl⟩
    | cons m ms =>
      cases ms with
      | nil => exact absurd rfl (isPlain_union.1 hs.plain).1
      | cons m' ms => exact .inr (.inl rfl)
  | record fs => exact .inr (.inr ⟨fs, rfl⟩)
  | exclusive a b x y => exact absurd hs.plain not_isPlain_exclusive

theorem bracketed_of_isAlternative (h : s.isAlternative = true) :
    s.bracketed = .scalar '(' :: (s.render ++ [.scalar ')']) := by
  rw [bracketed, if_pos h]
  rfl

theorem bracketed_record (fs : Record) : (Schema.record fs).bracketed =
    .scalar '\x7b' :: (Text.join ", " (Field.renderAll fs) ++ [.scalar '\x7d']) := rfl

theorem head?_of_word? (h : s.word? = some w) (u : Text) {p : Char}
    (hp : p ∈ ['r', '(', '\x7b']) :
    (s.bracketed ++ u).head? ≠ some (.scalar p) := by
  obtain ⟨hne, hhead⟩ := head?_words w (mem_words h) _ (List.mem_map_of_mem hp)
  rwa [bracketed_of_word? h, List.head?_append_of_ne_nil _ hne]

/-- What is innermost in a sequence begins otherwise than what is read-only. -/
theorem head?_bracketed (hs : s.Readable) (hseq : s.isSequence = false) (u : Text) :
    (s.bracketed ++ u).head? ≠ some (.scalar 'r') := by
  obtain ⟨w, hw⟩ | halt | ⟨fs, rfl⟩ := word?_or_isAlternative_or_record hs hseq
  · exact head?_of_word? hw u (by decide)
  · rw [bracketed_of_isAlternative halt]
    simp
  · rw [bracketed_record]
    simp

end

end ShapeAlgebra.Schema
