import ShapeAlgebra.Text

/-!
# Similar texts

How much two texts have in common: the longest block that both have, and then what the parts before
it and the parts behind it have in common. Texts are similar if that makes up three fifths of them.

Results:

* `Text.commonLength_le`: a common beginning is no longer than either text.
* `Text.matched_nil`: the empty text has nothing in common with any text.
-/

namespace ShapeAlgebra.Text

/-- The length of the common beginning of two texts. -/
def commonLength : Text → Text → Nat
  | a :: s, b :: t => if a = b then commonLength s t + 1 else 0
  | _, _ => 0

theorem commonLength_le (s t : Text) :
    commonLength s t ≤ s.length ∧ commonLength s t ≤ t.length := by
  induction s generalizing t with
  | nil => simp [commonLength]
  | cons a s ih =>
    cases t with
    | nil => simp [commonLength]
    | cons b t =>
      simp only [commonLength, List.length_cons]
      have := ih t
      split <;> omega

/-- A block that two texts have in common: where it begins in each, and its length. -/
structure Block where
  first : Nat
  second : Nat
  length : Nat
deriving DecidableEq, Repr

/-- The longest block that two texts have in common, and of several equally long ones the one that
comes first in the first text, and then in the second. -/
def longestBlock (s t : Text) : Block :=
  let places := (List.range s.length).flatMap fun i => (List.range t.length).map fun j => (i, j)
  places.foldl (fun best (i, j) =>
    let n := commonLength (s.drop i) (t.drop j)
    if best.length < n then ⟨i, j, n⟩ else best) ⟨0, 0, 0⟩

/-- The number of code points that two texts have in common. Each step takes a block away, so that
`fuel` need not exceed the length of a text. -/
def matched : (fuel : Nat) → Text → Text → Nat
  | 0, _, _ => 0
  | fuel + 1, s, t =>
    let b := longestBlock s t
    if b.length = 0 then 0
    else b.length + matched fuel (s.take b.first) (t.take b.second) +
      matched fuel (s.drop (b.first + b.length)) (t.drop (b.second + b.length))

theorem matched_nil (fuel : Nat) (t : Text) : matched fuel [] t = 0 := by
  cases fuel <;> simp [matched, longestBlock]

/-- How similar two texts are, as a fraction. -/
def similarity (s t : Text) : Nat × Nat := (2 * matched (s.length + 1) s t, s.length + t.length)

/-- Whether two texts are similar. -/
def isSimilar (s t : Text) : Bool :=
  let (n, d) := similarity s t
  decide (3 * d ≤ 5 * n)

/-- Whether the text `s` goes before the text `t` among those similar to `word`. -/
def moreSimilar (word s t : Text) : Bool :=
  let (a, b) := similarity s word
  let (c, d) := similarity t word
  decide (c * b < a * d) || (a * d == c * b && Text.before t s)

/-- The texts among `candidates` that are similar to `word`, three at most, in their own order. -/
def similarTo (word : Text) (candidates : List Text) : List Text :=
  let best := ((candidates.filter fun s => isSimilar s word).mergeSort (moreSimilar word)).take 3
  best.mergeSort Text.before

end ShapeAlgebra.Text
