import ShapeAlgebra.Text

/-!
# Decimal digits

The decimal digits of all scripts. The digits of a script follow its zero.

Results:

* `CodePoint.digit?_lt`: a digit is less than ten.
* `CodePoint.digit?_ascii`: below 128 the digits are those from 0 to 9.
-/

namespace ShapeAlgebra

/-- The zeros of the scripts beyond ASCII, in order. -/
def scriptZeros : Array Nat :=
  #[0x660, 0x6F0, 0x7C0, 0x966, 0x9E6, 0xA66, 0xAE6, 0xB66, 0xBE6, 0xC66, 0xCE6, 0xD66, 0xDE6,
   0xE50, 0xED0, 0xF20, 0x1040, 0x1090, 0x17E0, 0x1810, 0x1946, 0x19D0, 0x1A80, 0x1A90, 0x1B50,
   0x1BB0, 0x1C40, 0x1C50, 0xA620, 0xA8D0, 0xA900, 0xA9D0, 0xA9F0, 0xAA50, 0xABF0, 0xFF10, 0x104A0,
   0x10D30, 0x11066, 0x110F0, 0x11136, 0x111D0, 0x112F0, 0x11450, 0x114D0, 0x11650, 0x116C0,
   0x11730, 0x118E0, 0x11950, 0x11C50, 0x11D50, 0x11DA0, 0x16A60, 0x16AC0, 0x16B50, 0x1D7CE,
   0x1D7D8, 0x1D7E2, 0x1D7EC, 0x1D7F6, 0x1E140, 0x1E2F0, 0x1E950, 0x1FBF0]

namespace CodePoint

/-- The value of a decimal digit. -/
def digit? (p : CodePoint) : Option Nat :=
  let n := p.code
  if n < 0x80 then (if 0x30 ≤ n ∧ n < 0x3A then some (n - 0x30) else none)
  else (scriptZeros.find? fun z => z ≤ n && n < z + 10).map fun z => n - z

theorem digit?_ascii {p : CodePoint} (h : p.code < 0x80) :
    p.digit?.isSome = true ↔ 0x30 ≤ p.code ∧ p.code < 0x3A := by
  simp only [digit?, h, if_true]
  split <;> simp_all

theorem digit?_lt {p : CodePoint} {d : Nat} (h : p.digit? = some d) : d < 10 := by
  simp only [digit?] at h
  split at h
  · split at h
    · cases h; omega
    · cases h
  · obtain ⟨z, hz, rfl⟩ := Option.map_eq_some_iff.1 h
    have := Array.find?_some hz
    simp only [Bool.and_eq_true, decide_eq_true_eq] at this
    omega

end CodePoint

end ShapeAlgebra
