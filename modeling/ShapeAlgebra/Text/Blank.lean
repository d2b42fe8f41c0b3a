import ShapeAlgebra.Text

/-!
# Blank code points

Which code points count as white space at the ends of a text, and the text without them.

Results:

* `Text.strip_strip`: stripping twice is stripping once.
* `Text.isBlank_iff_strip_eq_nil`: a text strips to nothing exactly when all of it is white space.
-/

namespace ShapeAlgebra

/-- White space in the sense of Unicode: the separators of category Zs, and the characters whose
direction is that of a paragraph, segment or white-space separator. -/
def CodePoint.isBlank (p : CodePoint) : Bool :=
  let n := p.code
  (0x09 ≤ n && n ≤ 0x0D) || (0x1C ≤ n && n ≤ 0x20) || n == 0x85 || n == 0xA0 || n == 0x1680 ||
    (0x2000 ≤ n && n ≤ 0x200A) || n == 0x2028 || n == 0x2029 || n == 0x202F || n == 0x205F ||
    n == 0x3000

namespace Text

/-- The text without white space at its start. -/
def trimStart (t : Text) : Text := t.dropWhile CodePoint.isBlank

/-- The text without white space at its ends. -/
def strip (t : Text) : Text := (trimStart (trimStart t).reverse).reverse

/-- Whether the text holds nothing but white space. -/
def isBlank (t : Text) : Bool := t.all CodePoint.isBlank

theorem trimStart_eq_self {t : Text} (h : ∀ p r, t = p :: r → p.isBlank = false) :
    trimStart t = t := by
  cases t with
  | nil => rfl
  | cons p r => simp [trimStart, h p r rfl]

theorem head_trimStart {t r : Text} {p : CodePoint} (h : trimStart t = p :: r) :
    p.isBlank = false := by
  induction t with
  | nil => simp [trimStart] at h
  | cons q t ih =>
    by_cases hq : q.isBlank
    · exact ih (by simpa [trimStart, hq] using h)
    · simp only [trimStart, List.dropWhile_cons, hq] at h
      simp at h
      simpa [h.1] using hq

theorem trimStart_trimStart (t : Text) : trimStart (trimStart t) = trimStart t :=
  trimStart_eq_self fun _ _ h => head_trimStart h

theorem strip_strip (t : Text) : strip (strip t) = strip t := by
  have hs : ∃ c, trimStart t = strip t ++ c := by
    obtain ⟨c, hc⟩ := List.dropWhile_suffix (l := (trimStart t).reverse) CodePoint.isBlank
    refine ⟨c.reverse, ?_⟩
    have := congrArg List.reverse hc
    simpa [strip, trimStart] using this.symm
  have hfix : trimStart (strip t) = strip t := by
    refine trimStart_eq_self fun p r h => ?_
    obtain ⟨c, hc⟩ := hs
    exact head_trimStart (r := r ++ c) (by rw [hc, h]; rfl)
  calc strip (strip t) = (trimStart (strip t).reverse).reverse := by rw [strip, hfix]
    _ = strip t := by simp [strip, trimStart_trimStart]

theorem isBlank_iff_strip_eq_nil (t : Text) : isBlank t = true ↔ strip t = [] := by
  have key : ∀ u : Text, trimStart u = [] ↔ isBlank u = true := by
    intro u
    induction u with
    | nil => simp [trimStart, isBlank]
    | cons p u ih =>
      by_cases hp : p.isBlank
      · have h : trimStart (p :: u) = trimStart u := List.dropWhile_cons_of_pos hp
        rw [h, ih]
        simp [isBlank, hp]
      · simp [trimStart, isBlank, hp]
  have rev : ∀ u : Text, isBlank u.reverse = isBlank u := by
    intro u; simp [isBlank]
  simp only [strip, List.reverse_eq_nil_iff]
  rw [key, rev]
  constructor
  · intro h
    rw [(key t).2 h]; rfl
  · intro h
    refine (key t).1 ?_
    cases hs : trimStart t with
    | nil => rfl
    | cons p r =>
      have hp := head_trimStart hs
      rw [hs] at h
      simp [isBlank, hp] at h

end Text

end ShapeAlgebra
