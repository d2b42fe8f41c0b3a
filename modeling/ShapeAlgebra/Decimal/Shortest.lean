import ShapeAlgebra.Text
import ShapeAlgebra.Decimal.Double

/-!
# Shortest decimal text of a double

A double is written with the fewest significant digits that read back to it; of two such decimals
the one nearer to it is taken. The digits are set positionally when the number is at least
`10 ^ -4` and below `10 ^ 16`, and with an exponent of at least two digits otherwise.

Results:

* `Double.digitsFrom_reads`: digits that were found by the search read back to the number.
-/

namespace ShapeAlgebra.Double

/-- The two decimals of the grid `10 ^ place` around `num / den`, nearer one first, as multiples of
the grid's unit. -/
def gridNeighbours (num den : Nat) (place : Int) : List Nat :=
  let n := if 0 ≤ place then num else num * Nat.pow 10 (-place).toNat
  let d := if 0 ≤ place then den * Nat.pow 10 place.toNat else den
  let q := n / d
  if roundDiv n d = q then [q, q + 1] else [q + 1, q]

/-- The first decimal that reads back to `x`, among the grids from `10 ^ place` on, each ten times
finer than the last. -/
def digitsFrom (x : Double) (num den : Nat) : Nat → Int → Option (Nat × Int)
  | 0, _ => none
  | grids + 1, place =>
    match (gridNeighbours num den place).find? fun q => ofDecimal false q place = x with
    | some q => some (q, place)
    | none => digitsFrom x num den grids (place - 1)

theorem digitsFrom_reads {x : Double} {num den : Nat} {grids : Nat} {place : Int} {q : Nat}
    {p : Int} (h : digitsFrom x num den grids place = some (q, p)) : ofDecimal false q p = x := by
  induction grids generalizing place with
  | zero => simp [digitsFrom] at h
  | succ grids ih =>
    simp only [digitsFrom] at h
    split at h
    · next q' hq =>
      have := List.find?_some hq
      simp only [Option.some.injEq, Prod.mk.injEq] at h
      obtain ⟨rfl, rfl⟩ := h
      simpa using this
    · exact ih h

/-- The number of decimal places before the point of `num / den`, at most one too many. -/
def magnitude (num den : Nat) : Int :=
  ((Nat.toDigits 10 num).length : Int) - (Nat.toDigits 10 den).length + 1

/-- The shortest digits of `significand * 2 ^ exponent`, without zeros at the end, and the power of
ten of the last of them. -/
def shortest (significand : Nat) (exponent : Int) : List Char × Int :=
  let (num, den) := fraction false significand exponent
  let start := magnitude num.natAbs den
  let (q, place) := (digitsFrom (.finite false significand exponent) num.natAbs den 19 start).getD
    (0, 0)
  let digits := Nat.toDigits 10 q
  let kept := (digits.reverse.dropWhile (· == '0')).reverse
  (kept, place + (digits.length - kept.length : Nat))

/-- Digits `ds`, the last of them standing for `10 ^ place`, in positional or exponent form. -/
def layout (ds : List Char) (place : Int) : List Char :=
  let point : Int := ds.length + place
  if -4 < point ∧ point ≤ 16 then
    if point ≤ 0 then ['0', '.'] ++ List.replicate (-point).toNat '0' ++ ds
    else if 0 ≤ place then ds ++ List.replicate place.toNat '0' ++ ['.', '0']
    else ds.take point.toNat ++ ['.'] ++ ds.drop point.toNat
  else
    let e := point - 1
    let digits := Nat.toDigits 10 e.natAbs
    ds.take 1 ++ (if ds.length = 1 then [] else '.' :: ds.drop 1) ++
      ['e', if e < 0 then '-' else '+'] ++ (if digits.length < 2 then '0' :: digits else digits)

/-- The shortest text of a double that reads back to it. -/
def text : Double → Text
  | .nan => "nan"
  | .infinite s => if s then "-inf" else "inf"
  | .finite s m e =>
    let body := if m = 0 then ['0', '.', '0'] else
      let (ds, place) := shortest m e
      layout ds place
    Text.ofChars (if s then '-' :: body else body)

end ShapeAlgebra.Double
