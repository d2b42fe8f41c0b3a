import ShapeAlgebra.Text.Quoted
import ShapeAlgebra.Decimal.Shortest
import ShapeAlgebra.Data.Moment

/-!
# Plain data

The values that declaration files and requests hold: null, truth values, numbers, texts, dates,
lists and mappings. A mapping keeps the order of its keys, and a key that comes again keeps its
first place and its first spelling, and takes the last value.

A collection may contain itself. Such a collection has a number, and inside it stands the same
collection with the same number, and so on to a depth that no reader reaches who stops at a number
that he has met before.

Results:

* `Data.keys_insertBy`: putting a value under a key adds the key at the end unless it is there.
* `Data.shown_recurring`: a collection inside itself is shown by three dots.
-/

namespace ShapeAlgebra

/-- A value of plain data. -/
inductive Data where
  | null
  | bool (b : Bool)
  | int (i : Int)
  | float (x : Double)
  | text (t : Text)
  | date (d : Date)
  | timestamp (t : Timestamp)
  | bytes (bs : List UInt8)
  | list (items : List Data)
  | pair (first second : Data)
  | set (items : List Data)
  | mapping (entries : List (Data × Data))
  /-- A collection that contains itself. -/
  | recurring (number : Nat) (content : Data)
deriving Repr, Inhabited

namespace Data

instance : Coe Text Data := ⟨.text⟩

/-! ## Keys -/

/-- Whether a value is a number, and which one; the truth values are the numbers 0 and 1. -/
def number? : Data → Option (Int ⊕ Double)
  | .bool b => some (.inl (if b then 1 else 0))
  | .int i => some (.inl i)
  | .float x => some (.inr x)
  | _ => none

/-- Whether two values are the same key of a mapping: numbers by their value, `nan` like any other
value, and everything else within its own kind. -/
def sameKey : Data → Data → Bool
  | .null, .null => true
  | .text a, .text b => a == b
  | .date a, .date b => a == b
  | .timestamp a, .timestamp b => a.sameInstant b
  | .bytes a, .bytes b => a == b
  | a, b =>
    match a.number?, b.number? with
    | some (.inl i), some (.inl j) => i == j
    | some (.inl i), some (.inr x) | some (.inr x), some (.inl i) => x.isInt i
    | some (.inr .nan), some (.inr .nan) => true
    | some (.inr x), some (.inr y) => x.sameNumber y
    | _, _ => false

/-- Whether a value can be the key of a mapping. -/
def isKey : Data → Bool
  | .list _ | .set _ | .mapping _ | .recurring .. => false
  | .pair a b => a.isKey && b.isKey
  | _ => true

/-- The sort of a value, in the words of messages. -/
def sort : Data → String
  | .null => "NoneType"
  | .bool _ => "bool"
  | .int _ => "int"
  | .float _ => "float"
  | .text _ => "str"
  | .date _ => "datetime.date"
  | .timestamp _ => "datetime.datetime"
  | .bytes _ => "bytes"
  | .list _ => "list"
  | .pair .. => "tuple"
  | .set _ => "set"
  | .mapping _ => "dict"
  | .recurring _ d => d.sort

/-- The items of a value that holds items: the keys of a mapping, the numbers of its bytes. -/
def items? : Data → Option (List Data)
  | .list items | .set items => some items
  | .pair a b => some [a, b]
  | .mapping entries => some (entries.map Prod.fst)
  | .bytes bs => some (bs.map fun b => .int b.toNat)
  | .recurring _ d => d.items?
  | _ => none

/-- The entries of a mapping. -/
def entries? : Data → Option (List (Data × Data))
  | .mapping entries => some entries
  | .recurring _ d => d.entries?
  | _ => none

/-- The entries with `value` under `key`: in the place of that key, or at the end. Which keys are
the same is told by `same`. -/
def insertBy {κ ν : Type} (same : κ → κ → Bool) (entries : List (κ × ν)) (key : κ) (value : ν) :
    List (κ × ν) :=
  match entries with
  | [] => [(key, value)]
  | (k, v) :: rest =>
    if same k key then (k, value) :: rest else (k, v) :: insertBy same rest key value

/-- The mapping of a list of keys and values in their order. -/
def ofPairsBy {κ ν : Type} (same : κ → κ → Bool) (pairs : List (κ × ν)) : List (κ × ν) :=
  pairs.foldl (fun entries p => insertBy same entries p.1 p.2) []

/-- The entries of a mapping given by keys and values in their order. -/
def ofPairs (pairs : List (Data × Data)) : List (Data × Data) := ofPairsBy sameKey pairs

/-- The value under a key that is a text. -/
def find? (entries : List (Data × Data)) (key : Text) : Option Data :=
  (entries.find? fun p => p.1.sameKey (.text key)).map Prod.snd

theorem keys_insertBy {κ ν : Type} (same : κ → κ → Bool) (entries : List (κ × ν)) (key : κ)
    (value : ν) : (insertBy same entries key value).map Prod.fst =
      entries.map Prod.fst ++ if entries.any (fun p => same p.1 key) then [] else [key] := by
  induction entries with
  | nil => rfl
  | cons p rest ih =>
    obtain ⟨k, v⟩ := p
    cases h : same k key with
    | true => simp [insertBy, h]
    | false =>
      rw [insertBy, if_neg (by simp [h]), List.map_cons, ih, List.any_cons]
      simp only [h, Bool.false_or, List.map_cons, List.cons_append]

/-! ## The text of a value -/

/-- The written form of a byte between quotes. -/
def byteShown (quote : Char) (b : UInt8) : Text :=
  let n := b.toNat
  if n = quote.toNat ∨ n = 0x5C then Text.ofChars ['\\', Char.ofNat n]
  else if n = 9 then "\\t" else if n = 10 then "\\n" else if n = 13 then "\\r"
  else if 0x20 ≤ n ∧ n < 0x7F then Text.ofChars [Char.ofNat n]
  else "\\x" ++ Text.hexDigits 2 n

/-- The written form of a sequence of bytes. -/
def bytesShown (bs : List UInt8) : Text :=
  let quote := if bs.contains 0x27 && !bs.contains 0x22 then '"' else '\''
  "b" ++ Text.ofChars [quote] ++ bs.flatMap (byteShown quote) ++ Text.ofChars [quote]

/-- What stands for a collection where it is shown inside itself. -/
def shownAgain : Data → Text
  | .mapping _ => "\x7b...\x7d"
  | _ => "[...]"

mutual

/-- The value as it is shown inside the collections whose numbers are `around`. -/
def shownIn (around : List Nat) : Data → Text
  | .null => "None"
  | .bool b => if b then "True" else "False"
  | .int i => Text.ofString (toString i)
  | .float x => x.text
  | .text t => t.quoted
  | .date d => d.shown
  | .timestamp t => t.shown
  | .bytes bs => bytesShown bs
  | .list items => "[" ++ Text.join ", " (shownAll around items) ++ "]"
  | .pair a b => "(" ++ shownIn around a ++ ", " ++ shownIn around b ++ ")"
  | .set items =>
    if items.isEmpty then "set()" else "\x7b" ++ Text.join ", " (shownAll around items) ++ "\x7d"
  | .mapping entries => "\x7b" ++ Text.join ", " (shownEntries around entries) ++ "\x7d"
  | .recurring n d => if around.contains n then d.shownAgain else shownIn (n :: around) d

/-- Each of several values as it is shown. -/
def shownAll (around : List Nat) : List Data → List Text
  | [] => []
  | d :: ds => shownIn around d :: shownAll around ds

/-- Each entry of a mapping as it is shown. -/
def shownEntries (around : List Nat) : List (Data × Data) → List Text
  | [] => []
  | (k, v) :: rest => (shownIn around k ++ ": " ++ shownIn around v) :: shownEntries around rest

end

/-- The value as it is shown inside another value: texts are quoted. -/
def shown (d : Data) : Text := d.shownIn []

theorem shown_recurring (n : Nat) (rest : List Data) (d : Data) :
    shown (.recurring n (.list (.recurring n d :: rest))) =
      "[" ++ Text.join ", " (d.shownAgain :: shownAll [n] rest) ++ "]" := by
  simp [shown, shownIn, shownAll]

mutual

/-- Whether a value can be shown: the integers in it must have no more digits than a text
holds. -/
def isShowableIn (around : List Nat) : Data → Bool
  | .int i => decide (i.natAbs < Nat.pow 10 Text.digitLimit)
  | .list items | .set items => areShowable around items
  | .pair a b => isShowableIn around a && isShowableIn around b
  | .mapping entries => entriesAreShowable around entries
  | .recurring n d => around.contains n || isShowableIn (n :: around) d
  | _ => true

/-- Whether several values can be shown. -/
def areShowable (around : List Nat) : List Data → Bool
  | [] => true
  | d :: ds => isShowableIn around d && areShowable around ds

/-- Whether the entries of a mapping can be shown. -/
def entriesAreShowable (around : List Nat) : List (Data × Data) → Bool
  | [] => true
  | (k, v) :: rest =>
    isShowableIn around k && isShowableIn around v && entriesAreShowable around rest

end

/-- Whether a value can be shown. -/
def isShowable (d : Data) : Bool := d.isShowableIn []

/-- The text of a value on its own: a text is itself, dates are written out, and everything else is
as it is shown. -/
def display : Data → Text
  | .text t => t
  | .date d => d.text
  | .timestamp t => t.text
  | d => d.shown

end Data

end ShapeAlgebra
