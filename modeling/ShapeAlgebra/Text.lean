/-!
# Text

Texts are sequences of Unicode code points. A code point is a character, or one half of a
surrogate pair standing alone: escapes in declaration files and in JSON can denote such a half,
and two halves written side by side stay two code points.

Results:

* `CodePoint.code_injective`: a code point is determined by its number.
* `CodePoint.ofCode_code`: reading back the number of a code point gives the code point.
* `pieces_join`: cutting a list at a separator loses nothing.
* `Text.ofString_append`: writing a literal is compatible with concatenation.
-/

namespace ShapeAlgebra

/-- A Unicode code point: a character, or half of a surrogate pair on its own. -/
inductive CodePoint where
  | scalar (c : Char)
  | surrogate (half : Fin 2048)
deriving DecidableEq, Repr, Inhabited

namespace CodePoint

/-- The number of a code point. -/
def code : CodePoint → Nat
  | .scalar c => c.toNat
  | .surrogate half => 0xD800 + half

/-- The code point with a given number, if there is one. -/
def ofCode (n : Nat) : Option CodePoint :=
  if h : n.isValidChar then some (.scalar (Char.ofNatAux n h))
  else if h : 0xD800 ≤ n ∧ n < 0xE000 then some (.surrogate ⟨n - 0xD800, by omega⟩)
  else none

instance : LT CodePoint := ⟨fun a b => a.code < b.code⟩

instance : DecidableLT CodePoint := fun a b => inferInstanceAs (Decidable (a.code < b.code))

theorem lt_iff {a b : CodePoint} : a < b ↔ a.code < b.code := Iff.rfl

theorem code_scalar_ne_surrogate (c : Char) (half : Fin 2048) :
    (scalar c).code ≠ (surrogate half).code := by
  have h := c.valid
  have hc : c.val.toNat = c.toNat := rfl
  have hh := half.isLt
  simp only [code, UInt32.isValidChar, Nat.isValidChar] at h ⊢
  omega

theorem code_injective {a b : CodePoint} (h : a.code = b.code) : a = b := by
  cases a with
  | scalar c =>
    cases b with
    | scalar d => exact congrArg scalar (Char.ext (UInt32.toNat_inj.1 h))
    | surrogate half => exact absurd h (code_scalar_ne_surrogate c half)
  | surrogate half =>
    cases b with
    | scalar d => exact absurd h.symm (code_scalar_ne_surrogate d half)
    | surrogate other =>
      refine congrArg surrogate (Fin.ext ?_)
      simp only [code] at h
      omega

theorem lt_irrefl (a : CodePoint) : ¬ a < a := Nat.lt_irrefl _

theorem lt_trans {a b c : CodePoint} (h₁ : a < b) (h₂ : b < c) : a < c := Nat.lt_trans h₁ h₂

theorem lt_asymm {a b : CodePoint} (h : a < b) : ¬ b < a := Nat.lt_asymm h

theorem eq_of_not_lt {a b : CodePoint} (h₁ : ¬ a < b) (h₂ : ¬ b < a) : a = b :=
  code_injective (by simp only [lt_iff] at h₁ h₂; omega)

instance : Std.Irrefl (α := CodePoint) (· < ·) := ⟨lt_irrefl⟩

instance : Std.Asymm (α := CodePoint) (· < ·) := ⟨fun _ _ => lt_asymm⟩

instance : Trans (α := CodePoint) (· < ·) (· < ·) (· < ·) := ⟨lt_trans⟩

instance : Std.Trichotomous (α := CodePoint) (· < ·) := ⟨fun _ _ => eq_of_not_lt⟩

theorem ofCode_code (a : CodePoint) : ofCode a.code = some a := by
  cases a with
  | scalar c =>
    have h : c.toNat.isValidChar := c.valid
    exact (dif_pos h).trans (congrArg (fun d => some (scalar d)) (Char.ext
      (UInt32.toNat_inj.1 (UInt32.toNat_ofNatLT ..))))
  | surrogate half =>
    have hh := half.isLt
    have h : ¬ (0xD800 + (half : Nat)).isValidChar := by
      simp only [Nat.isValidChar]; omega
    have h' : 0xD800 ≤ 0xD800 + (half : Nat) ∧ 0xD800 + (half : Nat) < 0xE000 := by omega
    exact (dif_neg h).trans ((dif_pos h').trans
      (congrArg (fun u => some (surrogate u)) (Fin.ext (by simp [code]))))

end CodePoint

/-- The parts of a list between the places of a separator. -/
def pieces {α : Type} [DecidableEq α] (sep : α) : List α → List (List α)
  | [] => [[]]
  | c :: cs =>
    if c = sep then [] :: pieces sep cs
    else match pieces sep cs with
      | [] => [[c]]
      | p :: ps => (c :: p) :: ps

theorem pieces_join {α : Type} [DecidableEq α] (sep : α) (cs : List α) :
    ((pieces sep cs).intersperse [sep]).flatten = cs := by
  induction cs with
  | nil => rfl
  | cons c cs ih =>
    simp only [pieces]
    split
    · next h =>
      subst h
      cases hp : pieces c cs with
      | nil => rw [hp] at ih; simp at ih; subst ih; simp [pieces] at hp
      | cons p ps => rw [hp] at ih; simp [ih]
    · cases hp : pieces sep cs with
      | nil => rw [hp] at ih; simp at ih; subst ih; simp
      | cons p ps =>
        rw [hp] at ih
        cases ps with
        | nil => simpa using ih
        | cons q qs => simpa using ih

/-- A text: a finite sequence of code points, ordered by their numbers. -/
abbrev Text := List CodePoint

namespace Text

instance lawfulBEq : LawfulBEq Text := inferInstance

/-- The text of a list of characters. -/
def ofChars (cs : List Char) : Text := cs.map .scalar

/-- The characters of a text, if it has no halves of surrogate pairs. -/
def chars? (t : Text) : Option (List Char) :=
  t.mapM fun | .scalar c => some c | .surrogate _ => none

/-- The text of a literal. -/
def ofString (s : String) : Text := ofChars s.toList

/-- The text of a natural number in decimal digits. -/
def ofNat (n : Nat) : Text := ofString (toString n)

/-- The greatest number of digits of an integer that is read from a text or written as a text. -/
def digitLimit : Nat := 4300

/-- The texts `parts` with `sep` between neighbours. -/
def join (sep : Text) (parts : List Text) : Text := (parts.intersperse sep).flatten

/-- Whether `a` comes before `b` or equals it, code point by code point. -/
def before (a b : Text) : Bool := decide (¬ b < a)

theorem ofChars_append (a b : List Char) : ofChars (a ++ b) = ofChars a ++ ofChars b :=
  List.map_append

theorem ofString_append (a b : String) : ofString (a ++ b) = ofString a ++ ofString b := by
  simp [ofString, ofChars]

theorem ofChars_injective {a b : List Char} (h : ofChars a = ofChars b) : a = b := by
  induction a generalizing b with
  | nil => cases b <;> simp_all [ofChars]
  | cons c a ih =>
    cases b with
    | nil => simp [ofChars] at h
    | cons d b =>
      simp only [ofChars, List.map_cons, List.cons.injEq, CodePoint.scalar.injEq] at h ih ⊢
      exact ⟨h.1, ih h.2⟩

end Text

instance : Coe String Text := ⟨Text.ofString⟩

/-- The words for an integer with too many digits, whose number is told if it is known. -/
def Text.tooManyDigits (count : Option Nat) : Text :=
  "Exceeds the limit (" ++ ofNat digitLimit ++ " digits) for integer string conversion" ++
    (match count with
      | some n => ": value has " ++ ofNat n ++ " digits"
      | none => []) ++ "; use sys.set_int_max_str_digits() to increase the limit"

end ShapeAlgebra
