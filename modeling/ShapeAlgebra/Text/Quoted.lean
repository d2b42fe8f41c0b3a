import ShapeAlgebra.Text.Printable

/-!
# Quoted texts

How a text is shown inside a message: between quotes, with everything escaped that would not be
seen.

Results:

* `Text.quote_ends`: the delimiter is the apostrophe unless the text has one and has no double
  quote.
* `Text.quoted_of_plain`: a text without quotes, backslashes and unprintable code points is shown
  as it is.
-/

namespace ShapeAlgebra

/-- The digits of `n` in base sixteen, in small letters, in at least `width` places. -/
def Text.hexDigits (width n : Nat) : Text :=
  let digits := Nat.toDigits 16 n
  Text.ofChars (List.replicate (width - digits.length) '0' ++ digits)

namespace Text

/-- The delimiter around a quoted text. -/
def delimiter (t : Text) : Char :=
  if t.contains (.scalar '\'') && !t.contains (.scalar '"') then '"' else '\''

/-- How one code point is written between two delimiters `quote`. -/
def escaped (quote : Char) (p : CodePoint) : Text :=
  if p = .scalar quote ∨ p = .scalar '\\' then [.scalar '\\', p]
  else if p = .scalar '\t' then "\\t"
  else if p = .scalar '\n' then "\\n"
  else if p = .scalar '\r' then "\\r"
  else if p.isPrintable then [p]
  else if p.code ≤ 0xFF then "\\x" ++ hexDigits 2 p.code
  else if p.code ≤ 0xFFFF then "\\u" ++ hexDigits 4 p.code
  else "\\U" ++ hexDigits 8 p.code

/-- The text between quotes. -/
def quoted (t : Text) : Text :=
  let quote := delimiter t
  .scalar quote :: (t.flatMap (escaped quote) ++ [.scalar quote])

/-- Several texts, each between quotes, as a list in brackets. -/
def quotedList (ts : List Text) : Text := "[" ++ join ", " (ts.map quoted) ++ "]"

theorem quote_ends (t : Text) :
    delimiter t = '"' ↔ CodePoint.scalar '\'' ∈ t ∧ CodePoint.scalar '"' ∉ t := by
  simp only [delimiter]
  split <;> simp_all

theorem quoted_of_plain {t : Text}
    (h : ∀ p ∈ t, p.isPrintable = true ∧ p ≠ .scalar '\'' ∧ p ≠ .scalar '"' ∧ p ≠ .scalar '\\' ∧
      p ≠ .scalar '\t' ∧ p ≠ .scalar '\n' ∧ p ≠ .scalar '\r') :
    quoted t = [.scalar '\''] ++ t ++ [.scalar '\''] := by
  have hd : delimiter t = '\'' := by
    simp only [delimiter]
    split
    · next hq =>
      simp only [List.contains_eq_mem, Bool.and_eq_true, decide_eq_true_eq] at hq
      exact absurd rfl (h _ hq.1).2.1
    · rfl
  have hf : t.flatMap (escaped '\'') = t := by
    clear hd
    induction t with
    | nil => rfl
    | cons p t ih =>
      have hp := h p (by simp)
      simp [escaped, hp, ih fun q hq => h q (by simp [hq])]
  simp [quoted, hd, hf]

end Text

end ShapeAlgebra
