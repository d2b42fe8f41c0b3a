import ShapeAlgebra.Text.Utf8

/-!
# Bytes that are a text

Reading bytes as UTF-8 accepts what writing characters gives, and nothing else: neither characters
in more bytes than they need nor halves of surrogate pairs.

Results:

* `Utf8.decodeOne?_eq_some_iff`: the character at the front of some bytes is the one that is written
  there.
* `Utf8.decode_eq_some_iff`: bytes are read as a text when they are what the text is written as.
-/

namespace ShapeAlgebra.Utf8

/-- The bytes that some characters are written as. -/
def encode (cs : List Char) : List UInt8 := cs.flatMap String.utf8EncodeChar

/-! ## The parts of a character -/

theorem ofCode_eq_scalar_iff {n : Nat} {c : Char} :
    CodePoint.ofCode n = some (.scalar c) ↔ c.toNat = n := by
  refine ⟨fun h => ?_, fun h => h ▸ CodePoint.ofCode_code (.scalar c)⟩
  by_cases hn : n.isValidChar
  · rw [CodePoint.ofCode, dif_pos hn] at h
    obtain rfl := CodePoint.scalar.inj (Option.some.inj h)
    exact UInt32.toNat_ofNatLT ..
  · rw [CodePoint.ofCode, dif_neg hn] at h
    split at h <;> cases h

theorem charOf?_eq_some_iff {least n : Nat} {c : Char} :
    charOf? least n = some c ↔ least ≤ n ∧ c.toNat = n := by
  rw [charOf?, ← ofCode_eq_scalar_iff]
  by_cases hl : least ≤ n
  · rw [if_pos hl]
    split <;> simp_all
  · simp [hl]

theorem continuation?_eq_some_iff {b : UInt8} {x : Nat} :
    continuation? b = some x ↔ x < 0x40 ∧ b.toNat = x + 0x80 := by
  simp only [continuation?]
  split
  · rw [Option.some.injEq]
    omega
  · simp only [reduceCtorEq, false_iff]
    omega

theorem toNat_lt (c : Char) : c.toNat < 0x110000 := by
  have h := c.valid
  have hc : c.val.toNat = c.toNat := rfl
  simp only [UInt32.isValidChar, Nat.isValidChar] at h
  omega

/-! ## Characters by the number of their bytes -/

theorem ofNat_eq_of_toNat {b : UInt8} {n : Nat} (h : b.toNat = n) : .ofNat n = b := by
  rw [← h, UInt8.ofNat_toNat]

section

variable {c : Char} {a b d e : UInt8}

theorem utf8EncodeChar_one (h : c.toNat < 0x80) (ha : a.toNat = c.toNat) :
    String.utf8EncodeChar c = [a] := by
  rw [String.utf8EncodeChar, Char.toNat_val, if_pos (by omega), ofNat_eq_of_toNat ha]

theorem utf8EncodeChar_two (h : 0x80 ≤ c.toNat) (h' : c.toNat < 0x800)
    (ha : a.toNat = c.toNat / 64 + 0xC0) (hb : b.toNat = c.toNat % 64 + 0x80) :
    String.utf8EncodeChar c = [a, b] := by
  rw [String.utf8EncodeChar, Char.toNat_val, if_neg (by omega), if_pos (by omega),
    Nat.mod_eq_of_lt (by omega), ofNat_eq_of_toNat ha, ofNat_eq_of_toNat hb]

theorem utf8EncodeChar_three (h : 0x800 ≤ c.toNat) (h' : c.toNat < 0x10000)
    (ha : a.toNat = c.toNat / 4096 + 0xE0) (hb : b.toNat = c.toNat / 64 % 64 + 0x80)
    (hd : d.toNat = c.toNat % 64 + 0x80) : String.utf8EncodeChar c = [a, b, d] := by
  rw [String.utf8EncodeChar, Char.toNat_val, if_neg (by omega), if_neg (by omega),
    if_pos (by omega), Nat.mod_eq_of_lt (by omega), ofNat_eq_of_toNat ha, ofNat_eq_of_toNat hb,
    ofNat_eq_of_toNat hd]

theorem utf8EncodeChar_four (h : 0x10000 ≤ c.toNat) (ha : a.toNat = c.toNat / 262144 + 0xF0)
    (hb : b.toNat = c.toNat / 4096 % 64 + 0x80) (hd : d.toNat = c.toNat / 64 % 64 + 0x80)
    (he : e.toNat = c.toNat % 64 + 0x80) : String.utf8EncodeChar c = [a, b, d, e] := by
  have := toNat_lt c
  rw [String.utf8EncodeChar, Char.toNat_val, if_neg (by omega), if_neg (by omega),
    if_neg (by omega), Nat.mod_eq_of_lt (by omega), ofNat_eq_of_toNat ha, ofNat_eq_of_toNat hb,
    ofNat_eq_of_toNat hd, ofNat_eq_of_toNat he]

end

/-! ## The character at the front -/

theorem eq_append_of_decodeOne? {bs rest : List UInt8} {c : Char}
    (h : decodeOne? bs = some (c, rest)) : bs = String.utf8EncodeChar c ++ rest := by
  cases bs with
  | nil => cases h
  | cons a bs =>
    simp only [decodeOne?] at h
    split at h
    · simp only [Option.map_eq_some_iff, Prod.mk.injEq, charOf?_eq_some_iff] at h
      obtain ⟨c, ⟨-, hc⟩, rfl, rfl⟩ := h
      have hw : String.utf8EncodeChar c = [a] := utf8EncodeChar_one (by omega) hc.symm
      rw [hw, List.singleton_append]
    simp only [Option.bind_eq_bind, Option.pure_def] at h
    split at h
    · split at h
      · next b bs =>
        simp only [Option.bind_eq_some_iff, continuation?_eq_some_iff, charOf?_eq_some_iff,
          Option.some.injEq, Prod.mk.injEq] at h
        obtain ⟨x, ⟨hx, hb⟩, c, ⟨hl, hc⟩, rfl, rfl⟩ := h
        have hw : String.utf8EncodeChar c = [a, b] :=
          utf8EncodeChar_two (by omega) (by omega) (by omega) (by omega)
        rw [hw, List.cons_append, List.singleton_append]
      · cases h
    split at h
    · split at h
      · next b d bs =>
        simp only [Option.bind_eq_some_iff, continuation?_eq_some_iff, charOf?_eq_some_iff,
          Option.some.injEq, Prod.mk.injEq] at h
        obtain ⟨x, ⟨hx, hb⟩, y, ⟨hy, hd⟩, c, ⟨hl, hc⟩, rfl, rfl⟩ := h
        have hw : String.utf8EncodeChar c = [a, b, d] :=
          utf8EncodeChar_three (by omega) (by omega) (by omega) (by omega) (by omega)
        rw [hw, List.cons_append, List.cons_append, List.singleton_append]
      · cases h
    split at h
    · split at h
      · next b d e bs =>
        simp only [Option.bind_eq_some_iff, continuation?_eq_some_iff, charOf?_eq_some_iff,
          Option.some.injEq, Prod.mk.injEq] at h
        obtain ⟨x, ⟨hx, hb⟩, y, ⟨hy, hd⟩, z, ⟨hz, he⟩, c, ⟨hl, hc⟩, rfl, rfl⟩ := h
        have hw : String.utf8EncodeChar c = [a, b, d, e] :=
          utf8EncodeChar_four (by omega) (by omega) (by omega) (by omega) (by omega)
        rw [hw, List.cons_append, List.cons_append, List.cons_append, List.singleton_append]
      · cases h
    · cases h

theorem decodeOne?_append (c : Char) (rest : List UInt8) :
    decodeOne? (String.utf8EncodeChar c ++ rest) = some (c, rest) := by
  have hlt := toNat_lt c
  have byte : ∀ n, n < 0x100 → ∃ b : UInt8, b.toNat = n :=
    fun n hn => ⟨.ofNat n, UInt8.toNat_ofNat_of_lt' hn⟩
  have further : ∀ n, ∃ b, b.toNat = n % 64 + 0x80 ∧ continuation? b = some (n % 64) := fun n =>
    have ⟨b, hb⟩ := byte (n % 64 + 0x80) (by omega)
    ⟨b, hb, continuation?_eq_some_iff.2 ⟨by omega, hb⟩⟩
  by_cases h₁ : c.toNat < 0x80
  · obtain ⟨a, ha⟩ := byte c.toNat (by omega)
    have hc : charOf? 0 a.toNat = some c := charOf?_eq_some_iff.2 ⟨Nat.zero_le _, ha.symm⟩
    rw [utf8EncodeChar_one h₁ ha, List.singleton_append]
    simp only [decodeOne?]
    rw [if_pos (by omega), hc]
    rfl
  by_cases h₂ : c.toNat < 0x800
  · obtain ⟨a, ha⟩ := byte (c.toNat / 64 + 0xC0) (by omega)
    obtain ⟨b, hb, hx⟩ := further c.toNat
    have hc : charOf? 0x80 ((a.toNat - 0xC0) * 64 + c.toNat % 64) = some c :=
      charOf?_eq_some_iff.2 ⟨by omega, by omega⟩
    rw [utf8EncodeChar_two (by omega) h₂ ha hb]
    simp only [decodeOne?, List.cons_append, List.nil_append]
    rw [if_neg (by omega), if_pos (by omega), hx]
    simp only [Option.bind_eq_bind, Option.bind_some, hc]
    rfl
  by_cases h₃ : c.toNat < 0x10000
  · obtain ⟨a, ha⟩ := byte (c.toNat / 4096 + 0xE0) (by omega)
    obtain ⟨b, hb, hx⟩ := further (c.toNat / 64)
    obtain ⟨d, hd, hy⟩ := further c.toNat
    have hc : charOf? 0x800 (((a.toNat - 0xE0) * 64 + c.toNat / 64 % 64) * 64 + c.toNat % 64) =
        some c := charOf?_eq_some_iff.2 ⟨by omega, by omega⟩
    rw [utf8EncodeChar_three (by omega) h₃ ha hb hd]
    simp only [decodeOne?, List.cons_append, List.nil_append]
    rw [if_neg (by omega), if_neg (by omega), if_pos (by omega), hx, hy]
    simp only [Option.bind_eq_bind, Option.bind_some, hc]
    rfl
  · obtain ⟨a, ha⟩ := byte (c.toNat / 262144 + 0xF0) (by omega)
    obtain ⟨b, hb, hx⟩ := further (c.toNat / 4096)
    obtain ⟨d, hd, hy⟩ := further (c.toNat / 64)
    obtain ⟨e, he, hz⟩ := further c.toNat
    have hc : charOf? 0x10000 ((((a.toNat - 0xF0) * 64 + c.toNat / 4096 % 64) * 64 +
        c.toNat / 64 % 64) * 64 + c.toNat % 64) = some c :=
      charOf?_eq_some_iff.2 ⟨by omega, by omega⟩
    rw [utf8EncodeChar_four (by omega) ha hb hd he]
    simp only [decodeOne?, List.cons_append, List.nil_append]
    rw [if_neg (by omega), if_neg (by omega), if_neg (by omega), if_pos (by omega), hx, hy, hz]
    simp only [Option.bind_eq_bind, Option.bind_some, hc]
    rfl

theorem decodeOne?_eq_some_iff {bs rest : List UInt8} {c : Char} :
    decodeOne? bs = some (c, rest) ↔ bs = String.utf8EncodeChar c ++ rest :=
  ⟨eq_append_of_decodeOne?, fun h => h ▸ decodeOne?_append c rest⟩

/-! ## Whole texts -/

theorem encode_cons (c : Char) (cs : List Char) :
    encode (c :: cs) = String.utf8EncodeChar c ++ encode cs := List.flatMap_cons

theorem length_utf8EncodeChar_pos (c : Char) : 0 < (String.utf8EncodeChar c).length := by
  rw [String.length_utf8EncodeChar]
  exact c.utf8Size_pos

theorem decodeFrom_of_ne_nil {bs : List UInt8} (h : bs ≠ []) (fuel : Nat) :
    decodeFrom (fuel + 1) bs =
      (decodeOne? bs).bind fun p => (decodeFrom fuel p.2).map (p.1 :: ·) := by
  cases bs with
  | nil => exact absurd rfl h
  | cons b bs =>
    simp only [decodeFrom, Option.bind_eq_bind, Option.pure_def, Option.map_eq_bind]
    rfl

theorem eq_encode_of_decodeFrom {fuel : Nat} {bs : List UInt8} {cs : List Char}
    (h : decodeFrom fuel bs = some cs) : bs = encode cs := by
  induction fuel generalizing bs cs with
  | zero =>
    cases bs with
    | nil => cases h; rfl
    | cons b bs => cases h
  | succ fuel ih =>
    by_cases hbs : bs = []
    · subst hbs
      cases h
      rfl
    · rw [decodeFrom_of_ne_nil hbs, Option.bind_eq_some_iff] at h
      obtain ⟨⟨c, rest⟩, hone, h⟩ := h
      obtain ⟨cs, hcs, rfl⟩ := Option.map_eq_some_iff.1 h
      have hrest : rest = encode cs := ih hcs
      rw [decodeOne?_eq_some_iff.1 hone, encode_cons, hrest]

theorem decodeFrom_encode {fuel : Nat} {cs : List Char} (h : (encode cs).length ≤ fuel) :
    decodeFrom fuel (encode cs) = some cs := by
  induction cs generalizing fuel with
  | nil => cases fuel <;> rfl
  | cons c cs ih =>
    have hc := length_utf8EncodeChar_pos c
    rw [encode_cons, List.length_append] at h
    obtain ⟨fuel, rfl⟩ : ∃ k, fuel = k + 1 := ⟨fuel - 1, by omega⟩
    have hne : encode (c :: cs) ≠ [] := by
      rw [encode_cons]
      exact List.append_ne_nil_of_left_ne_nil (List.ne_nil_of_length_pos hc) _
    rw [decodeFrom_of_ne_nil hne, encode_cons, decodeOne?_append, Option.bind_some,
      ih (by omega)]
    rfl

/-- Bytes are read as a text exactly when the text is written as them. -/
theorem decode_eq_some_iff {bs : List UInt8} {cs : List Char} :
    decode bs = some cs ↔ bs = encode cs := by
  refine ⟨eq_encode_of_decodeFrom, ?_⟩
  rintro rfl
  exact decodeFrom_encode (Nat.le_refl _)

end ShapeAlgebra.Utf8
