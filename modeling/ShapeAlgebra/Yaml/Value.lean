import ShapeAlgebra.Data
import ShapeAlgebra.Yaml.Moment
import ShapeAlgebra.Yaml.Number

/-!
# Values of scalars

The plain data that the text of a scalar stands for under its tag.

Results:

* `Yaml.scalarValue_text`: under the tag of texts a text stands for itself.
-/

namespace ShapeAlgebra.Yaml

/-- The truth value that a word stands for. -/
def boolOf (t : Text) : Except Fault Bool :=
  let word := t.lower
  if ["yes", "true", "on"].any fun w => Text.ofString w == word then .ok true
  else if ["no", "false", "off"].any fun w => Text.ofString w == word then .ok false
  else .error .notBool

/-- The date that a scalar writes. A line break at its end does not count. -/
def momentOf (t : Text) : Except Fault Data :=
  let t := if t.getLast? == some (.scalar '\n') then t.dropLast else t
  match (Text.chars? t).bind WrittenMoment.ofChars? with
  | none => .error .notMoment
  | some m => m.toData.mapError .moment

/-! ## Bytes in base sixty-four -/

/-- The value of a digit in base sixty-four. -/
def sixtyFourValue? (c : Char) : Option Nat :=
  if 'A' ≤ c ∧ c ≤ 'Z' then some (c.toNat - 'A'.toNat)
  else if 'a' ≤ c ∧ c ≤ 'z' then some (c.toNat - 'a'.toNat + 26)
  else if c.isDigit then some (c.toNat - '0'.toNat + 52)
  else if c == '+' then some 62
  else if c == '/' then some 63
  else none

/-- The bytes that digits in base sixty-four write, in groups of four. `group` holds the digits of
the group so far, the latest first, and `fill` counts the equals signs behind them. Other characters
mean nothing. -/
def bytesOf? (group : List Nat) (fill : Nat) : List Char → Option (List UInt8)
  | [] => if group.isEmpty then some [] else none
  | c :: cs =>
    if c == '=' then
      if 2 ≤ group.length ∧ 4 ≤ group.length + fill + 1 then
        match group with
        | [b, a] => some [((a * 4 + b / 16) % 256).toUInt8]
        | [c, b, a] => some [((a * 4 + b / 16) % 256).toUInt8, ((b * 16 + c / 4) % 256).toUInt8]
        | _ => none
      else bytesOf? group (if 2 ≤ group.length then fill + 1 else fill) cs
    else match sixtyFourValue? c with
      | none => bytesOf? group fill cs
      | some d =>
        match group with
        | [c, b, a] => do
          let rest ← bytesOf? [] 0 cs
          return ((a * 4 + b / 16) % 256).toUInt8 :: ((b * 16 + c / 4) % 256).toUInt8 ::
            ((c * 64 + d) % 256).toUInt8 :: rest
        | group => bytesOf? (d :: group) 0 cs

/-- The bytes that a scalar writes. -/
def binaryOf (t : Text) : Except Fault Data :=
  match t.chars?.filter (·.all fun c => decide (c.toNat < 0x80)) with
  | none => .error .malformed
  | some cs => match bytesOf? [] 0 cs with
    | some bs => .ok (.bytes bs)
    | none => .error .malformed

/-! ## Values by tags -/

/-- The value of a scalar with a tag. -/
def scalarValue (tag : Tag) (t : Text) : Except Fault Data :=
  match tag with
  | .null => .ok .null
  | .bool => Data.bool <$> boolOf t
  | .integer => Data.int <$> integerOf t
  | .decimal => Data.float <$> decimalOf t
  | .moment => momentOf t
  | .binary => binaryOf t
  | .text => .ok (.text t)
  | _ => .error .malformed

theorem scalarValue_text (t : Text) : scalarValue .text t = .ok (.text t) := rfl

end ShapeAlgebra.Yaml
