import Mathlib.Algebra.Group.Nat.Defs
import ShapeAlgebra.Yaml.Scalar
import ShapeAlgebra.Yaml.Token.Quoted

/-!
# Scalars between double quotes

What is written between double quotes is read back as it was, with one exception: where the further
lines of a scalar begin behind `lineWidth`, a blank behind an escaped code point may stand at the
beginning of a broken line, and is then written behind two backslashes.

Results:

* `Yaml.hexValue?_digits`: digits in base sixteen are read back as their number.
* `Yaml.quotedBody_escape`: an escape is read back as the code point that it was written for.
* `Yaml.quotedBody_escapeLines`: a text between double quotes is read back.
-/

namespace ShapeAlgebra.Yaml

/-! ## Printable characters -/

/-- Whether a character is a printable one of ASCII. -/
def IsPrintable (c : Char) : Prop := ' ' ≤ c ∧ c ≤ '~'

instance : DecidablePred IsPrintable := fun c => inferInstanceAs (Decidable (' ' ≤ c ∧ c ≤ '~'))

namespace IsPrintable

variable {c : Char}

theorem isBreak_eq_false (h : IsPrintable c) : isBreak c = false := by
  simp only [isBreak, Bool.or_eq_false_iff, beq_eq_false_iff_ne]
  refine ⟨⟨⟨?_, ?_⟩, ?_⟩, ?_⟩
  all_goals
    rintro rfl
    exact absurd h (by decide)

theorem isSpace_eq_false (h : IsPrintable c) (hc : c ≠ ' ') : isSpace c = false := by
  simp only [isSpace, Bool.or_eq_false_iff, beq_eq_false_iff_ne]
  refine ⟨hc, ?_⟩
  rintro rfl
  exact absurd h (by decide)

end IsPrintable

/-- Whether a character needs no escape: a line feed, or a printable one of ASCII. -/
def IsOrdinary (c : Char) : Prop := c = '\n' ∨ IsPrintable c

instance : DecidablePred IsOrdinary := fun c =>
  inferInstanceAs (Decidable (c = '\n' ∨ IsPrintable c))

/-- A condition on the characters of a text is decided for one after the other. -/
theorem forall_of_all {p : Char → Prop} [DecidablePred p] {cs : List Char}
    (h : cs.all (fun c => decide (p c)) = true) : ∀ c ∈ cs, p c :=
  fun c hc => of_decide_eq_true (List.all_eq_true.1 h c hc)

theorem isOrdinary_of_mem_newline {n : Nat} {c : Char} (h : c ∈ newline n) : IsOrdinary c := by
  rcases List.mem_cons.1 h with rfl | h
  · decide
  · rw [List.eq_of_mem_replicate h]
    decide

/-! ## Digits in base sixteen -/

theorem hexValue?_append_singleton {ds : List Char} {n : Nat} (h : hexValue? ds = some n)
    (d : Char) : hexValue? (ds ++ [d]) = (hexDigitValue? d).map (16 * n + ·) := by
  rw [hexValue?] at h
  simp [hexValue?, List.foldlM_append, h]

theorem hexValue?_replicate_zero (k : Nat) (ds : List Char) :
    hexValue? (List.replicate k '0' ++ ds) = hexValue? ds := by
  induction k with
  | zero => rfl
  | succ k ih => rw [← ih]; rfl

/-- Digits are read back as their number, in small letters or in capital ones. -/
theorem hexValue?_digits {f : Char → Char}
    (hf : ∀ d < 16, hexDigitValue? (f (Nat.digitChar d)) = some d) (n : Nat) :
    hexValue? ((Nat.toDigits 16 n).map f) = some n := by
  induction n using Nat.strongRecOn with
  | ind n ih =>
    by_cases hn : n < 16
    · rw [Nat.toDigits_of_lt_base hn]
      simp [hexValue?, hf n hn]
    · have hrest := ih (n / 16) (by omega)
      rw [Nat.toDigits_of_base_le (by omega) (by omega), List.map_append, List.map_singleton,
        hexValue?_append_singleton hrest, hf (n % 16) (by omega)]
      simp only [Option.map_some, Option.some.injEq]
      omega

theorem mem_toDigits {n : Nat} {c : Char} (h : c ∈ Nat.toDigits 16 n) :
    ∃ d < 16, c = Nat.digitChar d := by
  induction n using Nat.strongRecOn with
  | ind n ih =>
    by_cases hn : n < 16
    · rw [Nat.toDigits_of_lt_base hn] at h
      exact ⟨n, hn, List.mem_singleton.1 h⟩
    · rw [Nat.toDigits_of_base_le (by omega) (by omega), List.mem_append] at h
      rcases h with h | h
      · exact ih (n / 16) (by omega) h
      · exact ⟨n % 16, by omega, List.mem_singleton.1 h⟩

theorem length_paddedDigits {w n : Nat} (hw : 0 < w) (h : n < 16 ^ w) (f : Char → Char) :
    (List.replicate (w - ((Nat.toDigits 16 n).map f).length) '0' ++
      (Nat.toDigits 16 n).map f).length = w := by
  have hlen := (Nat.length_toDigits_le_iff (b := 16) (by omega) hw).2 h
  simp only [List.length_append, List.length_replicate, List.length_map]
  omega

theorem length_hexEscape {w n : Nat} (hw : 0 < w) (h : n < 16 ^ w) : (hexEscape w n).length = w :=
  length_paddedDigits hw h Char.toUpper

theorem escapedCode_of_hexValue? {ds : List Char} {p : CodePoint}
    (h : hexValue? ds = some p.code) : escapedCode ds = .ok p := by
  simp [escapedCode, h, CodePoint.ofCode_code]

theorem escapedCode_hexEscape (w : Nat) (p : CodePoint) :
    escapedCode (hexEscape w p.code) = .ok p :=
  escapedCode_of_hexValue? ((hexValue?_replicate_zero ..).trans (hexValue?_digits (by decide) _))

theorem isPrintable_of_mem_hexEscape {w n : Nat} {c : Char} (h : c ∈ hexEscape w n) :
    IsPrintable c := by
  have hdigit : ∀ d < 16, IsPrintable (Nat.digitChar d).toUpper := by decide
  rcases List.mem_append.1 h with h | h
  · rw [List.eq_of_mem_replicate h]
    decide
  · obtain ⟨x, hx, rfl⟩ := List.mem_map.1 h
    obtain ⟨d, hd, rfl⟩ := mem_toDigits hx
    exact hdigit d hd

/-! ## Escapes -/

/-- The letter of an escape stands for the code point that it was chosen for. -/
theorem escapeValue?_of_escapeLetter? {n : Nat} {c : Char} (h : escapeLetter? n = some c) :
    ∃ v, escapeValue? c = some v ∧ v.toNat = n ∧ c ∉ ['x', 'u', 'U'] ∧ IsPrintable c := by
  obtain ⟨before, after, htable, -⟩ := List.lookup_eq_some_iff.1 h
  have hmem : (n, c) ∈ before ++ (n, c) :: after := by simp
  rw [← htable] at hmem
  simp only [List.mem_cons, Prod.mk.injEq, List.not_mem_nil, or_false] at hmem
  rcases hmem with h | h | h | h | h | h | h | h | h | h | h | h | h | h | h
  all_goals
    obtain ⟨rfl, rfl⟩ := h
    exact ⟨_, rfl, by decide⟩

section

variable {g : Gap} {p : CodePoint} {e rest : List Char}

theorem quotedBody_letter {c v : Char} (h : escapeValue? c = some v) (hc : c ∉ ['x', 'u', 'U'])
    (hprint : IsPrintable c) : quotedBody true g ('\\' :: c :: rest) =
      prepend (Text.ofChars g.text ++ [.scalar v]) (quotedBody true (.blanks []) rest) := by
  simp only [List.mem_cons, List.not_mem_nil, or_false, not_or] at hc
  have hspace : isSpace '\\' = false := rfl
  have hbreak : isBreak '\\' = false := rfl
  rw [quotedBody.eq_def]
  simp [hspace, hbreak, hc, hprint.isBreak_eq_false, h]

/-- The digits of an escape are read back as its code point. -/
theorem quotedBody_digits {ds : List Char} (hp : escapedCode ds = .ok p) :
    (ds.length = 2 → quotedBody true g ('\\' :: 'x' :: (ds ++ rest)) =
      prepend (Text.ofChars g.text ++ [p]) (quotedBody true (.blanks []) rest)) ∧
    (ds.length = 4 → quotedBody true g ('\\' :: 'u' :: (ds ++ rest)) =
      prepend (Text.ofChars g.text ++ [p]) (quotedBody true (.blanks []) rest)) ∧
    (ds.length = 8 → quotedBody true g ('\\' :: 'U' :: (ds ++ rest)) =
      prepend (Text.ofChars g.text ++ [p]) (quotedBody true (.blanks []) rest)) := by
  refine ⟨fun hlen => ?_, fun hlen => ?_, fun hlen => ?_⟩
  · match ds, hlen with
    | [a, b], _ =>
      rw [quotedBody.eq_def]
      simp [isSpace, isBreak, hp]
      rfl
  · match ds, hlen with
    | [a, b, c, d], _ =>
      rw [quotedBody.eq_def]
      simp [isSpace, isBreak, hp]
      rfl
  · match ds, hlen with
    | [a, b, c, d, e, f, g, h], _ =>
      rw [quotedBody.eq_def]
      simp [isSpace, isBreak, hp]
      rfl

theorem code_lt (p : CodePoint) : p.code < 0x110000 := by
  cases p with
  | scalar c =>
    have h := c.valid
    have hc : c.val.toNat = c.toNat := rfl
    simp only [CodePoint.code, UInt32.isValidChar, Nat.isValidChar] at h ⊢
    omega
  | surrogate half =>
    have h := half.isLt
    simp only [CodePoint.code]
    omega

/-- An escape is read back as the code point that it was written for. -/
theorem quotedBody_escape (h : escape? p = some e) : quotedBody true g (e ++ rest) =
    prepend (Text.ofChars g.text ++ [p]) (quotedBody true (.blanks []) rest) := by
  have hdigits := fun w => escapedCode_hexEscape w p
  have hlt := code_lt p
  simp only [escape?] at h
  split at h
  · next c hc =>
    obtain ⟨v, hv, hcode, hx, hprint⟩ := escapeValue?_of_escapeLetter? hc
    have hp : p = .scalar v := CodePoint.code_injective hcode.symm
    cases h
    rw [hp]
    exact quotedBody_letter hv hx hprint
  · split at h
    · cases h
    · split at h
      · cases h
        exact (quotedBody_digits (hdigits 2)).1 (length_hexEscape (by omega) (by omega))
      · split at h
        · cases h
          exact (quotedBody_digits (hdigits 4)).2.1 (length_hexEscape (by omega) (by omega))
        · cases h
          exact (quotedBody_digits (hdigits 8)).2.2 (length_hexEscape (by omega) (by omega))

/-- An escape is written in printable characters. -/
theorem isPrintable_of_mem_escape (h : escape? p = some e) : ∀ c ∈ e, IsPrintable c := by
  have hslash : IsPrintable '\\' := by decide
  have hdigits : ∀ (x : Char) (w : Nat), IsPrintable x →
      ∀ c ∈ '\\' :: x :: hexEscape w p.code, IsPrintable c := fun x w hx =>
    List.forall_mem_cons.2 ⟨hslash, List.forall_mem_cons.2
      ⟨hx, fun _ => isPrintable_of_mem_hexEscape⟩⟩
  simp only [escape?] at h
  split at h
  · next c hc =>
    obtain ⟨v, -, -, -, hprint⟩ := escapeValue?_of_escapeLetter? hc
    cases h
    exact List.forall_mem_cons.2 ⟨hslash, List.forall_mem_singleton.2 hprint⟩
  · split at h
    · cases h
    · split at h
      · cases h
        exact hdigits 'x' 2 (by decide)
      · split at h
        · cases h
          exact hdigits 'u' 4 (by decide)
        · cases h
          exact hdigits 'U' 8 (by decide)

end

/-! ## Broken lines -/

theorem markAhead_cons_of_ne {m c : Char} (h : c ≠ m) (cs : List Char) :
    markAhead m (c :: cs) = false := by
  rw [markAhead.eq_def]
  split
  · next heq =>
    cases heq
    simp [h]
  · rfl

theorem markAhead_blank {m : Char} (h : m ≠ ' ') (c : Char) (cs : List Char) :
    markAhead m (c :: ' ' :: cs) = false := by
  rw [markAhead.eq_def]
  split
  · next heq =>
    cases heq
    simp [h.symm]
  · rfl

theorem separatorAhead_cons {c : Char} (h : c ≠ '-') (h' : c ≠ '.') (cs : List Char) :
    separatorAhead (c :: cs) = false := by
  rw [separatorAhead, markAhead_cons_of_ne h, markAhead_cons_of_ne h']
  rfl

theorem separatorAhead_blanks {n : Nat} (h : 0 < n) (cs : List Char) :
    separatorAhead (blanks n ++ cs) = false := by
  obtain ⟨m, rfl⟩ : ∃ m, n = m + 1 := ⟨n - 1, by omega⟩
  exact separatorAhead_cons (by decide) (by decide) _

theorem prepend_prepend (a b : Text) (r : Except Fault (Text × List Char)) :
    prepend a (prepend b r) = prepend (a ++ b) r := by
  cases r <;> simp [prepend, Except.map]

@[simp] theorem prepend_ok (a t : Text) (rest : List Char) :
    prepend a (.ok (t, rest)) = .ok (a ++ t, rest) := rfl

section

variable {double : Bool} {g : Gap} {indent : Nat} {rest : List Char}

/-- Behind a line break blanks mean nothing. -/
theorem quotedBody_blanks (hg : ∀ c, g.space c = g) (n : Nat) :
    quotedBody double g (blanks n ++ rest) = quotedBody double g rest := by
  induction n with
  | zero => rfl
  | succ n ih =>
    rw [blanks, List.replicate_succ, List.cons_append, quotedBody.eq_def]
    simp [isSpace, hg, ← blanks.eq_1, ih]

/-- A broken line is read as nothing. -/
theorem quotedBody_brokenLine (h : 0 < indent) :
    quotedBody true g ('\\' :: (newline indent ++ rest)) =
      prepend (Text.ofChars g.text) (quotedBody true (.joined []) rest) := by
  have hspace : isSpace '\\' = false := rfl
  have hbreak : isBreak '\\' = false := rfl
  have hnewline : isBreak '\n' = true := rfl
  rw [newline, List.cons_append, quotedBody.eq_def]
  simp [hspace, hbreak, hnewline, separatorAhead_blanks h,
    quotedBody_blanks (g := .joined []) fun _ => rfl]

/-- A character that is neither a blank nor a mark stands for itself. -/
theorem quotedBody_word {c : Char} (hc : IsPrintable c) (hblank : c ≠ ' ')
    (hdouble : double = true → c ≠ '"' ∧ c ≠ '\\') (hsingle : double = false → c ≠ '\'') :
    quotedBody double g (c :: rest) =
      prepend (Text.ofChars g.text ++ [.scalar c]) (quotedBody double (.blanks []) rest) := by
  rw [quotedBody.eq_def]
  cases double with
  | true => simp [hc.isSpace_eq_false hblank, hc.isBreak_eq_false, hdouble]
  | false => simp [hc.isSpace_eq_false hblank, hc.isBreak_eq_false, hsingle]

theorem quotedBody_blank (bs : List Char) : quotedBody double (.blanks bs) (' ' :: rest) =
    quotedBody double (.blanks (' ' :: bs)) rest := by
  rw [quotedBody.eq_def]
  rfl

end

/-! ## Whole texts -/

/-- A code point without an escape is a printable character, but neither a double quote nor a
backslash. -/
theorem eq_scalar_of_escape? {p : CodePoint} (h : escape? p = none) :
    ∃ c, p = .scalar c ∧ plainChar p = c ∧ IsPrintable c ∧ c ≠ '"' ∧ c ≠ '\\' := by
  simp only [escape?] at h
  split at h
  · cases h
  · next hletter =>
    split at h
    · next hn =>
      cases p with
      | surrogate half =>
        simp only [CodePoint.code] at hn
        omega
      | scalar c =>
        refine ⟨c, rfl, Char.ofNat_toNat c, ⟨UInt32.le_iff_toNat_le.2 hn.1,
          UInt32.le_iff_toNat_le.2 hn.2⟩, ?_, ?_⟩
        · rintro rfl
          cases hletter
        · rintro rfl
          cases hletter
    · repeat' split at h
      all_goals cases h

/-- What is written for a code point: printable characters and, if lines are broken, line feeds. -/
theorem escapeLines_cons (breaks : Bool) (indent column : Nat) (afterEscape first : Bool)
    (p : CodePoint) (ps : Text) : ∃ front column' afterEscape',
      escapeLines breaks indent column afterEscape first (p :: ps) =
        front ++ escapeLines breaks indent column' afterEscape' false ps ∧
      ∀ c ∈ front, IsPrintable c ∨ breaks = true ∧ c = '\n' := by
  have hgap : ∀ blank, ∀ c ∈ (brokenLine indent blank).1, IsPrintable c ∨ c = '\n' := by
    intro blank c hc
    have hmem : c = '\\' ∨ c ∈ newline indent := by
      cases blank with
      | false => simpa [brokenLine] using hc
      | true => simpa [brokenLine, or_comm, or_left_comm] using hc
    rcases hmem with rfl | h
    · exact .inl (by decide)
    · exact (isOrdinary_of_mem_newline h).symm
  rw [escapeLines]
  cases hp : escape? p with
  | some e =>
    have he := isPrintable_of_mem_escape hp
    simp only
    split
    · next hbreak =>
      simp only [Bool.and_eq_true] at hbreak
      refine ⟨_, _, _, rfl, fun c hc => ?_⟩
      rcases List.mem_append.1 hc with h | h
      · exact .inl (he c h)
      · exact (hgap _ c h).imp_right fun h => ⟨hbreak.1.1.1, h⟩
    · exact ⟨e, _, _, rfl, fun c hc => .inl (he c hc)⟩
  | none =>
    obtain ⟨c, rfl, hplain, hprint, -⟩ := eq_scalar_of_escape? hp
    simp only [hplain]
    split
    · next hbreak =>
      simp only [Bool.and_eq_true] at hbreak
      refine ⟨(brokenLine indent _).1 ++ [c], _, _, List.append_cons .., fun d hd => ?_⟩
      rcases List.mem_append.1 hd with h | h
      · exact (hgap _ d h).imp_right fun h => ⟨hbreak.1.1.1.1, h⟩
      · exact .inl (List.mem_singleton.1 h ▸ hprint)
    · exact ⟨[c], _, _, rfl, fun d hd => .inl (List.mem_singleton.1 hd ▸ hprint)⟩

theorem isPrintable_or_of_mem_escapeLines {breaks afterEscape first : Bool} {indent column : Nat}
    {t : Text} : ∀ c ∈ escapeLines breaks indent column afterEscape first t,
      IsPrintable c ∨ breaks = true ∧ c = '\n' := by
  induction t generalizing column afterEscape first with
  | nil => exact nofun
  | cons p ps ih =>
    obtain ⟨front, column', afterEscape', heq, hfront⟩ :=
      escapeLines_cons breaks indent column afterEscape first p ps
    rw [heq]
    intro c hc
    exact (List.mem_append.1 hc).elim (hfront c) (ih c)

/-- Where lines are not broken it does not matter where they would begin. -/
theorem escapeLines_unbroken (i j column : Nat) (afterEscape first : Bool) (t : Text) :
    escapeLines false i column afterEscape first t =
      escapeLines false j column afterEscape first t := by
  induction t generalizing column afterEscape first with
  | nil => rfl
  | cons p ps ih =>
    rw [escapeLines, escapeLines]
    cases escape? p with
    | some e => simp only [Bool.false_and, Bool.false_eq_true, if_false, ih]
    | none => simp only [Bool.false_and, Bool.false_eq_true, if_false, ih]

/-- Whether a blank that is not the last code point stands behind an escaped one. -/
def hasBlankBehindEscape : Text → Bool
  | p :: q :: r :: ps =>
    ((escape? p).isSome && q == .scalar ' ') || hasBlankBehindEscape (q :: r :: ps)
  | _ => false

theorem hasBlankBehindEscape_of_cons {p : CodePoint} {t : Text}
    (h : hasBlankBehindEscape (p :: t) = false) : hasBlankBehindEscape t = false := by
  match t with
  | [] | [_] => rfl
  | q :: r :: ps =>
    rw [hasBlankBehindEscape, Bool.or_eq_false_iff] at h
    exact h.2

/-- What was skipped in front of `t` on the way: blanks, or a broken line in front of something
else. -/
inductive Gap.Before : Gap → Text → Prop
  | blanks (bs : List Char) (t : Text) : Gap.Before (.blanks bs) t
  | brokenLine {t : Text} (h : t.head? ≠ some (.scalar ' ')) : Gap.Before (.joined []) t

section

variable {breaks : Bool} {indent : Nat} {rest : List Char}

theorem quotedBody_closing {g : Gap} :
    quotedBody true g ('"' :: rest) = .ok (Text.ofChars g.text, rest) := by
  rw [quotedBody.eq_def]
  rfl

/-- A blank at the beginning of a broken line stands behind a backslash; behind two of them if the
line is broken there once more. -/
theorem quotedBody_keptBlank {t : Text} {column : Nat} {afterEscape : Bool}
    (hkept : breaks = false ∨ column ≤ lineWidth ∨ t = [])
    (ih : ∀ column afterEscape, quotedBody true (.blanks [])
      (escapeLines breaks indent column afterEscape false t ++ '"' :: rest) = .ok (t, rest)) :
    quotedBody true (.joined []) ('\\' ::
      (escapeLines breaks indent column afterEscape false (.scalar ' ' :: t) ++ '"' :: rest)) =
        .ok (.scalar ' ' :: t, rest) := by
  have hescape : escape? (.scalar ' ') = none := rfl
  have hbreak : (breaks && !t.isEmpty && decide (lineWidth < column)) = false := by
    rcases hkept with h | h | h
    · simp [h]
    · simp [Nat.not_lt.2 h]
    · simp [h]
  rw [escapeLines]
  simp only [hescape, beq_self_eq_true, Bool.true_or, Bool.and_true, Bool.not_false, hbreak]
  have hblank : plainChar (.scalar ' ') = ' ' := rfl
  rw [if_neg (by simp), hblank, List.cons_append,
    quotedBody_letter (v := ' ') rfl (by decide) (by decide), ih, prepend_ok]
  rfl

/-- Whether what follows the first character of a text between double quotes is read back, whatever
was skipped in front of it. -/
def ReadsEscaped (breaks : Bool) (indent : Nat) (rest : List Char) (t : Text) : Prop :=
  ∀ ⦃g : Gap⦄ (column : Nat) (afterEscape : Bool), g.Before t →
    quotedBody true g (escapeLines breaks indent column afterEscape false t ++ '"' :: rest) =
      .ok (Text.ofChars g.text ++ t, rest)

section

variable {first afterEscape : Bool} {column : Nat} {g : Gap} {t : Text}

/-- An escaped code point, behind which the line may be broken. Then a blank stands behind a
backslash, for which there must be room. -/
theorem quotedBody_escaped (hindent : 0 < indent) {p : CodePoint} {e : List Char}
    (hp : escape? p = some e) (hread : ReadsEscaped breaks indent rest t)
    (hblank : breaks = true → first = false → ∀ ps, t = .scalar ' ' :: ps →
      (indent < lineWidth ∨ ps = []) ∧ ReadsEscaped breaks indent rest ps) :
    quotedBody true g (escapeLines breaks indent column afterEscape first (p :: t) ++ '"' :: rest) =
      .ok (Text.ofChars g.text ++ p :: t, rest) := by
  rw [escapeLines]
  simp only [hp]
  split
  · next hbreak =>
    simp only [Bool.and_eq_true, Bool.not_eq_true'] at hbreak
    by_cases hhead : t.head? = some (.scalar ' ')
    · obtain ⟨ps, rfl⟩ : ∃ ps, t = .scalar ' ' :: ps := List.head?_eq_some_iff.1 hhead
      obtain ⟨hroom, hps⟩ := hblank hbreak.1.1.1 hbreak.1.1.2 ps rfl
      simp only [brokenLine, List.head?_cons, beq_self_eq_true, if_true, List.append_assoc,
        List.cons_append, List.nil_append]
      rw [quotedBody_escape hp, quotedBody_brokenLine hindent,
        quotedBody_keptBlank (.inr hroom) fun _ _ => hps _ _ (.blanks [] ps)]
      simp [Gap.text, Text.ofChars]
    · simp only [brokenLine, beq_eq_false_iff_ne.2 hhead, Bool.false_eq_true, if_false,
        List.append_assoc, List.cons_append]
      rw [quotedBody_escape hp, quotedBody_brokenLine hindent, hread _ _ (.brokenLine hhead)]
      simp [Gap.text, Text.ofChars]
  · rw [List.append_assoc, quotedBody_escape hp, hread _ _ (.blanks [] t)]
    simp [Gap.text, Text.ofChars]

/-- A character that stands for itself, in front of which the line may be broken. -/
theorem quotedBody_unescaped (hindent : 0 < indent) {p : CodePoint} (hp : escape? p = none)
    (hg : g.Before (p :: t)) (hread : ReadsEscaped breaks indent rest t) :
    quotedBody true g (escapeLines breaks indent column afterEscape first (p :: t) ++ '"' :: rest) =
      .ok (Text.ofChars g.text ++ p :: t, rest) := by
  obtain ⟨c, rfl, hplain, hprint, hquote, hslash⟩ := eq_scalar_of_escape? hp
  have hword : c ≠ ' ' → ∀ (g : Gap) (cs : List Char), quotedBody true g (c :: cs) =
      prepend (Text.ofChars g.text ++ [.scalar c]) (quotedBody true (.blanks []) cs) :=
    fun hc _ _ => quotedBody_word hprint hc (fun _ => ⟨hquote, hslash⟩) (by simp)
  rw [escapeLines]
  simp only [hp, hplain]
  split
  · by_cases hc : c = ' '
    · subst hc
      simp only [brokenLine, beq_self_eq_true, if_true, List.append_assoc, List.cons_append,
        List.nil_append]
      rw [quotedBody_brokenLine hindent,
        quotedBody_letter (v := ' ') rfl (by decide) (by decide), hread _ _ (.blanks [] t)]
      simp [Gap.text, Text.ofChars]
    · have hne : (CodePoint.scalar c == .scalar ' ') = false := by simpa using hc
      simp only [brokenLine, hne, Bool.false_eq_true, if_false, List.append_assoc,
        List.cons_append]
      rw [quotedBody_brokenLine hindent, hword hc, hread _ _ (.blanks [] t)]
      simp [Gap.text, Text.ofChars]
  · rw [List.cons_append]
    by_cases hc : c = ' '
    · subst hc
      cases hg with
      | blanks bs =>
        rw [quotedBody_blank, hread _ _ (.blanks _ t)]
        simp [Gap.text, Text.ofChars]
      | brokenLine h => exact absurd rfl h
    · rw [hword hc, hread _ _ (.blanks [] t)]
      simp [Gap.text, Text.ofChars]

end

/-- A text between double quotes is read back. -/
theorem quotedBody_escapeLines (hindent : 0 < indent) (t : Text) {first afterEscape : Bool}
    {column : Nat} {g : Gap} (hg : g.Before t)
    (hsafe : breaks = false ∨ indent < lineWidth ∨
      hasBlankBehindEscape (if first then t.tail else t) = false) :
    quotedBody true g (escapeLines breaks indent column afterEscape first t ++ '"' :: rest) =
      .ok (Text.ofChars g.text ++ t, rest) := by
  match t with
  | [] => rw [escapeLines, List.nil_append, quotedBody_closing, List.append_nil]
  | p :: t =>
    have hsafe' : breaks = false ∨ indent < lineWidth ∨ hasBlankBehindEscape t = false := by
      refine hsafe.imp_right (Or.imp_right fun h => ?_)
      cases first with
      | true => exact h
      | false => exact hasBlankBehindEscape_of_cons h
    have hread : ReadsEscaped breaks indent rest t := fun _ _ _ hg =>
      quotedBody_escapeLines hindent t hg hsafe'
    cases hp : escape? p with
    | none => exact quotedBody_unescaped hindent hp hg hread
    | some e =>
      refine quotedBody_escaped hindent hp hread ?_
      rintro hbreaks hfirst ps rfl
      rw [hbreaks, hfirst] at hsafe
      refine ⟨(hsafe.resolve_left Bool.noConfusion).imp_right fun h => ?_, fun _ _ _ hg =>
        quotedBody_escapeLines hindent ps hg
          (hsafe'.imp_right (Or.imp_right hasBlankBehindEscape_of_cons))⟩
      cases ps with
      | nil => rfl
      | cons r ps => simp [hasBlankBehindEscape, hp] at h
termination_by t.length

end

end ShapeAlgebra.Yaml
