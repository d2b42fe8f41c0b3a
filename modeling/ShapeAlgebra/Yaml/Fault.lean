import ShapeAlgebra.Data.Moment
import ShapeAlgebra.Text.Quoted

/-!
# Faults of YAML texts

Why a text cannot be read. Most faults mean that the text has no structure; the others are those of
a scalar whose form promises a value that does not exist.

Results:

* `Yaml.Fault.message_moment`: an impossible date is described by what is wrong with it.
* `Yaml.Fault.message_notInteger_length`: a long scalar is not repeated in full.
-/

namespace ShapeAlgebra.Yaml

/-- Why a text cannot be read. -/
inductive Fault where
  /-- The text has no structure, or a part of it has a tag that does not fit. -/
  | malformed
  /-- An escape denotes no code point. -/
  | escapeTooLarge
  /-- An escape denotes a number beyond all code points and beyond 31 bits. -/
  | escapeOverflow
  /-- A date, a time of day or a zone does not exist. -/
  | moment (cause : MomentFault)
  /-- A scalar that must be an integer in the given base is none. -/
  | notInteger (base : Nat) (written : Text)
  /-- A scalar that must be a number is none. -/
  | notNumber (written : Text)
  /-- An integer has more digits than are read. -/
  | tooManyDigits (count : Nat)
  /-- An integer that is to be shown has too many digits. -/
  | integerTooLong
  /-- A number in base sixty has a place too high for a decimal number. -/
  | placeTooHigh
  /-- Nothing is written where a number must be. -/
  | emptyNumber
  /-- A scalar that must be a truth value is none. -/
  | notBool
  /-- A scalar that must be a date is none. -/
  | notMoment
  /-- A mapping stands where a date must be, even if it has a default value. -/
  | momentNotScalar
  /-- The default value of a mapping leads back to itself, or parts are nested too deeply. -/
  | endless
deriving DecidableEq, Repr

namespace Fault

/-- The greatest length of the written form of a scalar in words for what is wrong with it. -/
def longestRepetition : Nat := 200

/-- The words for a fault, if there are any. -/
def message? : Fault → Option Text
  | .malformed => some "malformed text"
  | .escapeTooLarge => some "chr() arg not in range(0x110000)"
  | .moment cause => some cause.message
  | .notInteger base written => some ("invalid literal for int() with base " ++ Text.ofNat base ++
      ": " ++ written.quoted.take longestRepetition)
  | .notNumber written => some ("could not convert string to float: " ++ written.quoted)
  | .tooManyDigits count => some (Text.tooManyDigits (some count))
  | .integerTooLong => some (Text.tooManyDigits none)
  | .momentNotScalar => some "expected string or bytes-like object, got 'list'"
  | .escapeOverflow | .placeTooHigh | .emptyNumber | .notBool | .notMoment | .endless => none

theorem message_moment (cause : MomentFault) : message? (.moment cause) = some cause.message := rfl

theorem message_notInteger_length (base : Nat) (written : Text) :
    ∃ words : Text, message? (.notInteger base written) = some words ∧
      words.length ≤ longestRepetition + (Text.ofNat base).length + 38 := by
  refine ⟨_, rfl, ?_⟩
  have h : ("invalid literal for int() with base " : Text).length = 36 := by decide
  have h' : (": " : Text).length = 2 := by decide
  simp only [List.length_append, List.length_take, h, h']
  omega

end Fault

end ShapeAlgebra.Yaml
