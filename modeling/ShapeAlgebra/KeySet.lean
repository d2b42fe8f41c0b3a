import ShapeAlgebra.Text

/-!
# Key sets

Finite sets of field names. A key set lists its names in increasing order, each once, so that two
key sets with the same names are equal and every listing of a key set is sorted.

Results:

* `KeySet.mem_ofList`, `KeySet.mem_inter`, `KeySet.mem_sdiff`, `KeySet.mem_union`: what each
  operation holds.
* `KeySet.isEmpty_iff`: a key set is empty exactly when it has no name.
* `KeySet.isSubset_iff`: the test for inclusion decides inclusion.
-/

namespace ShapeAlgebra

/-- Puts a name into an increasing list of names. -/
def insertName (n : Text) : List Text → List Text
  | [] => [n]
  | m :: ms => if n < m then n :: m :: ms else if n = m then m :: ms else m :: insertName n ms

theorem mem_insertName {n x : Text} {ms : List Text} : x ∈ insertName n ms ↔ x = n ∨ x ∈ ms := by
  induction ms with
  | nil => simp [insertName]
  | cons m ms ih =>
    simp only [insertName]
    split
    · simp
    · split
      · next h => subst h; simp
      · simp only [List.mem_cons, ih]
        constructor <;> rintro (h | h | h) <;> simp [h]

theorem insertName_sorted {n : Text} {ms : List Text} (h : ms.Pairwise (· < ·)) :
    (insertName n ms).Pairwise (· < ·) := by
  induction ms with
  | nil => simp [insertName]
  | cons m ms ih =>
    rw [List.pairwise_cons] at h
    simp only [insertName]
    split
    · next hnm =>
      refine List.pairwise_cons.2 ⟨fun x hx => ?_, List.pairwise_cons.2 h⟩
      rcases List.mem_cons.1 hx with rfl | hx
      · exact hnm
      · exact List.lt_trans hnm (h.1 x hx)
    · next hnm =>
      split
      · exact List.pairwise_cons.2 h
      · next hne =>
        refine List.pairwise_cons.2 ⟨fun x hx => ?_, ih h.2⟩
        rcases mem_insertName.1 hx with rfl | hx
        · rcases Std.Trichotomous.rel_or_eq_or_rel_swap (r := (· < · : Text → Text → Prop))
            (a := m) (b := x) with h' | h' | h'
          · exact h'
          · exact absurd h'.symm hne
          · exact absurd h' hnm
        · exact h.1 x hx

/-- A finite set of names, listed in increasing order. -/
structure KeySet where
  names : List Text
  sorted : names.Pairwise (· < ·)
deriving DecidableEq, Repr

namespace KeySet

instance : Membership Text KeySet := ⟨fun s n => n ∈ s.names⟩

instance (n : Text) (s : KeySet) : Decidable (n ∈ s) := inferInstanceAs (Decidable (n ∈ s.names))

/-- The set without names. -/
def empty : KeySet := ⟨[], .nil⟩

instance : Inhabited KeySet := ⟨empty⟩

/-- The set of the names of a list. -/
def ofList : List Text → KeySet
  | [] => empty
  | n :: ns => let s := ofList ns; ⟨insertName n s.names, insertName_sorted s.sorted⟩

/-- The names of a set that satisfy a test. -/
def filter (p : Text → Bool) (s : KeySet) : KeySet := ⟨s.names.filter p, s.sorted.filter p⟩

/-- The names in both sets. -/
def inter (a b : KeySet) : KeySet := a.filter fun n => decide (n ∈ b)

/-- The names of `a` that are not in `b`. -/
def sdiff (a b : KeySet) : KeySet := a.filter fun n => decide (n ∉ b)

/-- The names in one of two sets or in both. -/
def union (a b : KeySet) : KeySet := ofList (a.names ++ b.names)

/-- The names in exactly one of two sets. -/
def symmDiff (a b : KeySet) : KeySet := (a.union b).sdiff (a.inter b)

/-- Whether the set has no name. -/
def isEmpty (s : KeySet) : Bool := s.names.isEmpty

/-- Whether every name of `a` is in `b`. -/
def isSubset (a b : KeySet) : Bool := a.names.all fun n => decide (n ∈ b)

theorem mem_iff {n : Text} {s : KeySet} : n ∈ s ↔ n ∈ s.names := Iff.rfl

@[simp] theorem mem_ofList {n : Text} {ns : List Text} : n ∈ ofList ns ↔ n ∈ ns := by
  induction ns with
  | nil => simp [ofList, empty, mem_iff]
  | cons m ns ih => simpa [ofList, mem_iff, mem_insertName] using or_congr_right ih

@[simp] theorem mem_filter {p : Text → Bool} {n : Text} {s : KeySet} :
    n ∈ s.filter p ↔ n ∈ s ∧ p n = true := List.mem_filter

@[simp] theorem mem_inter {n : Text} {a b : KeySet} : n ∈ a.inter b ↔ n ∈ a ∧ n ∈ b := by
  simp [inter]

@[simp] theorem mem_sdiff {n : Text} {a b : KeySet} : n ∈ a.sdiff b ↔ n ∈ a ∧ n ∉ b := by
  simp [sdiff]

@[simp] theorem mem_union {n : Text} {a b : KeySet} : n ∈ a.union b ↔ n ∈ a ∨ n ∈ b := by
  rw [union, mem_ofList, List.mem_append]; rfl

theorem mem_symmDiff {n : Text} {a b : KeySet} :
    n ∈ a.symmDiff b ↔ (n ∈ a ∧ n ∉ b) ∨ (n ∈ b ∧ n ∉ a) := by
  simp only [symmDiff, mem_sdiff, mem_union, mem_inter]
  by_cases ha : n ∈ a <;> by_cases hb : n ∈ b <;> simp [ha, hb]

theorem isEmpty_iff {s : KeySet} : s.isEmpty = true ↔ ∀ n, n ∉ s := by
  simp [isEmpty, mem_iff, List.eq_nil_iff_forall_not_mem]

theorem isSubset_iff {a b : KeySet} : a.isSubset b = true ↔ ∀ n ∈ a, n ∈ b := by
  simp [isSubset, mem_iff]

end KeySet

end ShapeAlgebra
