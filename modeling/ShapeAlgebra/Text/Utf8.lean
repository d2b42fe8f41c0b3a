import ShapeAlgebra.Text

/-!
# UTF-8

Characters from bytes. A character takes one to four bytes, always as few as possible, and the
halves of surrogate pairs are no characters.

Results:

* `Utf8.decode_ascii`: bytes below 128 are the characters of those numbers.
-/

namespace ShapeAlgebra.Utf8

/-- The six bits that a byte behind the first byte of a character gives. -/
def continuation? (b : UInt8) : Option Nat :=
  let n := b.toNat
  if 0x80 ≤ n ∧ n < 0xC0 then some (n - 0x80) else none

/-- The character of a number that must be at least `least` to need as many bytes as it has. -/
def charOf? (least n : Nat) : Option Char :=
  if least ≤ n then (match CodePoint.ofCode n with
    | some (.scalar c) => some c
    | _ => none)
  else none

/-- The character at the front of some bytes, and the bytes behind it. -/
def decodeOne? : List UInt8 → Option (Char × List UInt8)
  | [] => none
  | b :: bs =>
    let n := b.toNat
    if n < 0x80 then (charOf? 0 n).map (·, bs)
    else if 0xC0 ≤ n ∧ n < 0xE0 then
      match bs with
      | c :: bs => do
        let x ← continuation? c
        return (← charOf? 0x80 ((n - 0xC0) * 64 + x), bs)
      | _ => none
    else if 0xE0 ≤ n ∧ n < 0xF0 then
      match bs with
      | c :: d :: bs => do
        let x ← continuation? c
        let y ← continuation? d
        return (← charOf? 0x800 (((n - 0xE0) * 64 + x) * 64 + y), bs)
      | _ => none
    else if 0xF0 ≤ n ∧ n < 0xF8 then
      match bs with
      | c :: d :: e :: bs => do
        let x ← continuation? c
        let y ← continuation? d
        let z ← continuation? e
        return (← charOf? 0x10000 ((((n - 0xF0) * 64 + x) * 64 + y) * 64 + z), bs)
      | _ => none
    else none

/-- The characters of some bytes, of which at most `fuel` are read. -/
def decodeFrom : (fuel : Nat) → List UInt8 → Option (List Char)
  | _, [] => some []
  | 0, _ => none
  | fuel + 1, bs => do
    let (c, rest) ← decodeOne? bs
    let cs ← decodeFrom fuel rest
    return c :: cs

/-- The characters of some bytes. -/
def decode (bs : List UInt8) : Option (List Char) := decodeFrom bs.length bs

theorem decode_ascii {bs : List UInt8} (h : ∀ b ∈ bs, b.toNat < 0x80) :
    decode bs = some (bs.map fun b => Char.ofNat b.toNat) := by
  unfold decode
  induction bs with
  | nil => rfl
  | cons b bs ih =>
    have hb : b.toNat < 0x80 := h b (by simp)
    have hv : b.toNat.isValidChar := Or.inl (by omega)
    have hp : CodePoint.ofCode b.toNat = some (.scalar (Char.ofNat b.toNat)) := by
      rw [CodePoint.ofCode, dif_pos hv, Char.ofNat, dif_pos hv]
    have hc : charOf? 0 b.toNat = some (Char.ofNat b.toNat) := by
      rw [charOf?, if_pos (Nat.zero_le _), hp]
    have := ih fun x hx => h x (List.mem_cons_of_mem _ hx)
    simp [decodeFrom, decodeOne?, hb, hc, this]

end ShapeAlgebra.Utf8
