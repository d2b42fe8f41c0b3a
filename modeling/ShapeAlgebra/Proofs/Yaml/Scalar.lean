import ShapeAlgebra.Proofs.Yaml.Lines
import ShapeAlgebra.Yaml.Token.Lexer

/-!
# The tokens of scalars

Whatever its style, a scalar is read as one token, which ends where the scalar was written to end.

Results:

* `Yaml.writeScalar_of_plain`, `Yaml.writeScalar_of_single`, `Yaml.writeScalar_of_double`: what a
  scalar is written as in each style.
* `Yaml.isOrdinary_of_mem_writeScalar`: a scalar is written in line feeds and printable characters.
* `Yaml.writeScalar_unbroken`: a scalar of one line whose line is not broken looks the same
  everywhere.
-/

namespace ShapeAlgebra.Yaml

/-! ## Styles -/

/-- Whether a text is read back where it stands without quotes, whatever it stands for. -/
structure IsPlain (cs : List Char) : Prop where
  printable : ∀ c ∈ cs, IsPrintable c
  nonempty : cs ≠ []
  head : cs.head? ≠ some ' '
  last : cs.getLast? ≠ some ' '
  marker : startsWithMarker cs = false
  indicator : startsWithIndicator cs = false
  marks : holdsIndicator true cs = false

theorem ordinary?_eq_some {p : CodePoint} {c : Char} (h : ordinary? p = some c) :
    p = .scalar c ∧ IsOrdinary c := by
  cases p with
  | surrogate => cases h
  | scalar d =>
    simp only [ordinary?] at h
    split at h
    · next hd =>
      cases h
      exact ⟨rfl, hd⟩
    · cases h

theorem ordinaryChars?_eq_some {t : Text} {cs : List Char} (h : ordinaryChars? t = some cs) :
    t = Text.ofChars cs ∧ ∀ c ∈ cs, IsOrdinary c := by
  induction t generalizing cs with
  | nil =>
    cases h
    exact ⟨rfl, nofun⟩
  | cons p t ih =>
    simp only [ordinaryChars?, List.mapM_cons, Option.bind_eq_bind, Option.bind_eq_some_iff,
      Option.pure_def, Option.some.injEq] at h
    obtain ⟨c, hc, ds, hds, rfl⟩ := h
    obtain ⟨rfl, hmem⟩ := ih hds
    obtain ⟨rfl, hord⟩ := ordinary?_eq_some hc
    exact ⟨rfl, List.forall_mem_cons.2 ⟨hord, hmem⟩⟩

theorem isPlain_of_allowsPlain {cs : List Char} (hcs : ∀ c ∈ cs, IsOrdinary c)
    (h : allowsPlain cs = true) : Tag.ofPlain cs = .text ∧ IsPlain cs := by
  simp only [allowsPlain, Bool.and_eq_true, Bool.not_eq_true', beq_iff_eq, bne_iff_ne] at h
  obtain ⟨⟨⟨⟨⟨⟨htag, hline⟩, hhead⟩, hlast⟩, hmarker⟩, hindicator⟩, hmarks⟩ := h
  have hline : '\n' ∉ cs := by simpa using hline
  refine ⟨htag, fun c hc => ?_, ?_, hhead, hlast, hmarker, hindicator, hmarks⟩
  · refine (hcs c hc).resolve_left ?_
    rintro rfl
    exact hline hc
  · rintro rfl
    exact absurd htag (by decide)

section

variable {t : Text}

/-- A text without quotes. -/
theorem writeScalar_of_plain (h : Style.of t = .plain) :
    ∃ cs, t = Text.ofChars cs ∧ Tag.ofPlain cs = .text ∧ IsPlain cs ∧ ∀ place, writeScalar place t =
      foldLines place.breaks place.indent place.column .start cs := by
  cases hcs : ordinaryChars? t with
  | none =>
    rw [Style.of_extraordinary hcs] at h
    cases h
  | some cs =>
    obtain ⟨ht, hmem⟩ := ordinaryChars?_eq_some hcs
    have hstyle : Style.ofOrdinary cs = .plain := by simpa [Style.of, hcs] using h
    have hallow : allowsPlain cs = true := by
      rw [Style.ofOrdinary] at hstyle
      split at hstyle
      · assumption
      · split at hstyle <;> cases hstyle
    obtain ⟨htag, hplain⟩ := isPlain_of_allowsPlain hmem hallow
    exact ⟨cs, ht, htag, hplain, fun place => by simp [writeScalar, hcs, hstyle, writeOrdinary]⟩

/-- A text between single quotes. -/
theorem writeScalar_of_single (h : Style.of t = .single) :
    ∃ cs, t = Text.ofChars cs ∧ (∀ c ∈ cs, IsOrdinary c) ∧ allowsSingle cs = true ∧
      ∀ place, writeScalar place t = '\'' :: (foldLines place.breaks place.indent (place.column + 1)
        .start (quotesDoubled cs) ++ ['\'']) := by
  cases hcs : ordinaryChars? t with
  | none =>
    rw [Style.of_extraordinary hcs] at h
    cases h
  | some cs =>
    obtain ⟨ht, hmem⟩ := ordinaryChars?_eq_some hcs
    have hstyle : Style.ofOrdinary cs = .single := by simpa [Style.of, hcs] using h
    have hallow : allowsSingle cs = true := by
      rw [Style.ofOrdinary] at hstyle
      split at hstyle
      · cases hstyle
      · split at hstyle
        · assumption
        · cases hstyle
    exact ⟨cs, ht, hmem, hallow, fun place => by simp [writeScalar, hcs, hstyle, writeOrdinary]⟩

/-- A text between double quotes. -/
theorem writeScalar_of_double (h : Style.of t = .double) (place : Place) :
    writeScalar place t = writeEscaped place t := by
  cases hcs : ordinaryChars? t with
  | none => simp [writeScalar, hcs]
  | some cs =>
    have hstyle : Style.ofOrdinary cs = .double := by simpa [Style.of, hcs] using h
    simp [writeScalar, hcs, hstyle]

end

/-! ## Characters -/

section

variable {t : Text}

/-- A scalar is written in line feeds and printable characters. -/
theorem isOrdinary_of_mem_writeScalar (place : Place) (t : Text) :
    ∀ c ∈ writeScalar place t, IsOrdinary c := by
  intro c hc
  cases hstyle : Style.of t with
  | plain =>
    obtain ⟨cs, -, -, hplain, hwrite⟩ := writeScalar_of_plain hstyle
    rw [hwrite] at hc
    exact isOrdinary_of_mem_foldLines (fun d hd => .inr (hplain.printable d hd)) c hc
  | single =>
    obtain ⟨cs, -, hmem, -, hwrite⟩ := writeScalar_of_single hstyle
    rw [hwrite, List.mem_cons, List.mem_append, List.mem_singleton] at hc
    rcases hc with rfl | hc | rfl
    · decide
    · exact isOrdinary_of_mem_foldLines (fun d hd => hmem d (mem_quotesDoubled.1 hd)) c hc
    · decide
  | double =>
    rw [writeScalar_of_double hstyle, writeEscaped, List.mem_cons, List.mem_append,
      List.mem_singleton] at hc
    rcases hc with rfl | hc | rfl
    · decide
    · exact (isPrintable_or_of_mem_escapeLines c hc).symm.imp_left And.right
    · decide

theorem not_mem_of_isMultiline {cs : List Char} (h : isMultiline (Text.ofChars cs) = false) :
    '\n' ∉ cs := by
  intro hmem
  have hbreak : isLineBreak (.scalar '\n') = true := by decide
  have hall := List.any_eq_false.1 h (.scalar '\n') (List.mem_map_of_mem hmem)
  exact hall hbreak

/-- What a text of one line looks like where its line is not broken. -/
theorem writeScalar_unbroken (h : isMultiline t = false) (i j column : Nat) :
    writeScalar ⟨i, column, false⟩ t = writeScalar ⟨j, column, false⟩ t ∧
      ∀ c ∈ writeScalar ⟨i, column, false⟩ t, IsPrintable c := by
  cases hstyle : Style.of t with
  | plain =>
    obtain ⟨cs, rfl, -, hplain, hwrite⟩ := writeScalar_of_plain hstyle
    have hline := not_mem_of_isMultiline h
    rw [hwrite, hwrite, foldLines_unbroken _ _ _ _ hline, foldLines_unbroken _ _ _ _ hline]
    exact ⟨rfl, hplain.printable⟩
  | single =>
    obtain ⟨cs, rfl, hmem, -, hwrite⟩ := writeScalar_of_single hstyle
    have hline := not_mem_of_isMultiline h
    have hline' : '\n' ∉ quotesDoubled cs := fun hc => hline (mem_quotesDoubled.1 hc)
    rw [hwrite, hwrite, foldLines_unbroken _ _ _ _ hline', foldLines_unbroken _ _ _ _ hline']
    refine ⟨rfl, fun c hc => ?_⟩
    rw [List.mem_cons, List.mem_append, List.mem_singleton] at hc
    rcases hc with rfl | hc | rfl
    · decide
    · have hc' := mem_quotesDoubled.1 hc
      refine (hmem c hc').resolve_left ?_
      rintro rfl
      exact hline hc'
    · decide
  | double =>
    rw [writeScalar_of_double hstyle, writeScalar_of_double hstyle, writeEscaped, writeEscaped,
      escapeLines_unbroken i j]
    refine ⟨rfl, fun c hc => ?_⟩
    rw [List.mem_cons, List.mem_append, List.mem_singleton] at hc
    rcases hc with rfl | hc | rfl
    · decide
    · exact (isPrintable_or_of_mem_escapeLines c hc).resolve_right (fun h => by cases h.1)
    · decide

end

/-! ## Beginnings -/

/-- A character at which a token begins. -/
def BeginsToken (c : Char) : Prop := IsPrintable c ∧ c ≠ ' ' ∧ c ≠ '#'

instance : DecidablePred BeginsToken := fun c =>
  inferInstanceAs (Decidable (IsPrintable c ∧ c ≠ ' ' ∧ c ≠ '#'))

/-- The first character of a plain text is no mark and no gap. -/
theorem IsPlain.begins {cs : List Char} (h : IsPlain cs) :
    ∃ c ds, cs = c :: ds ∧ BeginsToken c ∧ c ≠ '\n' := by
  match cs, h with
  | [], h => exact absurd rfl h.nonempty
  | c :: ds, h =>
    have hc := h.printable c List.mem_cons_self
    have hmarks := h.marks
    simp only [holdsIndicator, Bool.or_eq_false_iff, Bool.and_true, beq_eq_false_iff_ne] at hmarks
    refine ⟨c, ds, rfl, ⟨hc, fun h' => h.head (by rw [h']; rfl), hmarks.1.2⟩, ?_⟩
    rintro rfl
    exact absurd hc (by decide)

/-- The characters with which no plain scalar begins, whatever follows them. -/
def reserved : List Char :=
  ['#', ',', '[', ']', '\x7b', '\x7d', '&', '*', '!', '|', '>', '\'', '"', '%', '@', '\x60']

theorem IsPlain.not_reserved {c : Char} {cs : List Char} (h : IsPlain (c :: cs)) :
    c ∉ reserved ∧ (c = '-' ∨ c = '?' ∨ c = ':' → endsWord cs = false) := by
  have hindicator := h.indicator
  simp only [startsWithIndicator, Bool.or_eq_false_iff, Bool.and_eq_false_iff] at hindicator
  obtain ⟨hreserved, hword⟩ := hindicator
  have hlist : "#,[]\x7b\x7d&*!|>'\"%@`".toList = reserved := by decide
  rw [hlist] at hreserved
  refine ⟨fun hmem => ?_, fun hmem => hword.resolve_left fun hmem' => ?_⟩
  · exact absurd (List.contains_iff_mem.2 hmem) (by rw [hreserved]; decide)
  · rcases hmem with rfl | rfl | rfl <;> exact absurd hmem' (by decide)

/-- Where a plain scalar begins. -/
theorem startsPlain_of_not_reserved {c : Char} {cs : List Char} (hc : IsPrintable c)
    (hblank : c ≠ ' ') (hreserved : c ∉ reserved)
    (hgap : c = '-' ∨ c = '?' ∨ c = ':' → gapAhead cs = false) :
    startsPlain false c cs = true := by
  by_cases hmem : c = '-' ∨ c = '?' ∨ c = ':'
  · rw [startsPlain, hgap hmem]
    rcases hmem with rfl | rfl | rfl <;> rfl
  · have hnone : c ∉ "-?:,[]\x7b\x7d#&*!|>'\"%@`".toList := by
      have hsplit : ∀ d ∈ "-?:,[]\x7b\x7d#&*!|>'\"%@`".toList,
          (d = '-' ∨ d = '?' ∨ d = ':') ∨ d ∈ reserved := forall_of_all (by decide)
      exact fun h => (hsplit c h).elim hmem hreserved
    rw [startsPlain, hc.isSpace_eq_false hblank, hc.isBreak_eq_false,
      List.contains_eq_mem, decide_eq_false hnone]
    rfl

/-- A scalar is written as something that begins a token. -/
theorem writeScalar_begins (place : Place) (t : Text) :
    ∃ c cs, writeScalar place t = c :: cs ∧ BeginsToken c := by
  cases hstyle : Style.of t with
  | plain =>
    obtain ⟨cs, -, -, hplain, hwrite⟩ := writeScalar_of_plain hstyle
    obtain ⟨c, ds, rfl, hc, hbreak⟩ := hplain.begins
    exact ⟨c, _, (hwrite place).trans (foldLines_word hc.2.1 hbreak), hc⟩
  | single =>
    obtain ⟨cs, -, -, -, hwrite⟩ := writeScalar_of_single hstyle
    exact ⟨_, _, hwrite place, by decide⟩
  | double => exact ⟨_, _, writeScalar_of_double hstyle place, by decide⟩

section

variable {breaks : Bool} {indent column : Nat} {before : Before} {cs after : List Char} {m : Char}

/-- Folding keeps the marks with which a text begins, and adds none. -/
theorem eq_cons_of_foldLines {rest : List Char} (hcs : ∀ c ∈ cs, IsPrintable c)
    (hm : m ≠ ' ') (hm' : m ≠ '\n') (hafter : after.head? ≠ some m)
    (h : foldLines breaks indent column before cs ++ after = m :: rest) :
    ∃ ds, cs = m :: ds ∧ rest = foldLines breaks indent (column + 1) .word ds ++ after := by
  cases cs with
  | nil =>
    rw [foldLines, List.nil_append] at h
    exact absurd (by rw [h]; rfl) hafter
  | cons d ds =>
    by_cases hblank : d = ' '
    · subst hblank
      rw [foldLines_blank] at h
      split at h
      · cases h
        exact absurd rfl hm'
      · cases h
        exact absurd rfl hm
    · have hbreak : d ≠ '\n' := by
        rintro rfl
        exact absurd (hcs _ List.mem_cons_self) (by decide)
      rw [foldLines_word hblank hbreak, List.cons_append] at h
      obtain ⟨rfl, rfl⟩ := List.cons.inj h
      exact ⟨ds, rfl, rfl⟩

/-- A line with a scalar without quotes separates no documents. -/
theorem markAhead_foldLines (hcs : IsPlain cs) (hm : m = '-' ∨ m = '.')
    (hafter : after.head? ≠ some m) :
    markAhead m (foldLines breaks indent column before cs ++ after) = false := by
  have hne : m ≠ ' ' ∧ m ≠ '\n' := by rcases hm with rfl | rfl <;> decide
  rw [Bool.eq_false_iff]
  intro hmark
  rw [markAhead.eq_def] at hmark
  split at hmark
  · next a b c rest heq =>
    simp only [Bool.and_eq_true, beq_iff_eq] at hmark
    obtain ⟨⟨⟨rfl, rfl⟩, rfl⟩, -⟩ := hmark
    obtain ⟨ds, rfl, hds⟩ := eq_cons_of_foldLines hcs.printable hne.1 hne.2 hafter heq
    have hprint : ∀ d ∈ ds, IsPrintable d := fun d hd => hcs.printable d (List.mem_cons_of_mem _ hd)
    obtain ⟨es, rfl, hes⟩ := eq_cons_of_foldLines hprint hne.1 hne.2 hafter hds.symm
    have hprint' : ∀ d ∈ es, IsPrintable d := fun d hd => hprint d (List.mem_cons_of_mem _ hd)
    obtain ⟨fs, rfl, -⟩ := eq_cons_of_foldLines hprint' hne.1 hne.2 hafter hes.symm
    have hmarker := hcs.marker
    rcases hm with rfl | rfl <;> simp [startsWithMarker] at hmarker
  · cases hmark

end

/-! ## Tokens -/

/-- Whether a text can be read back from its place: between double quotes, a line may not be broken
once more at its beginning. -/
def Place.Keeps (place : Place) (t : Text) : Prop :=
  place.breaks = false ∨ place.indent < lineWidth ∨ Style.of t ≠ .double ∨
    hasBlankBehindEscape t.tail = false

instance (place : Place) (t : Text) : Decidable (place.Keeps t) :=
  inferInstanceAs (Decidable (place.breaks = false ∨ place.indent < lineWidth ∨
    Style.of t ≠ .double ∨ hasBlankBehindEscape t.tail = false))

namespace Lexer

/-- The state in which a token that begins here is a possible key, if a key may begin here. -/
def remembered (l : Lexer) : Lexer :=
  if l.keyAllowed then
    { l with possible := some ⟨l.tokens.length,
        !l.inFlow && l.indents.head? == some l.place.column, l.place.index, l.place.line,
        l.place.column⟩ }
  else l

/-- The state behind a scalar, which `rest` follows. -/
def behindScalar (l : Lexer) (t : Token) (rest : List Char) (crossed : Bool) : Lexer :=
  ({ l.remembered with keyAllowed := crossed }.put t).moveTo rest

section

variable {l : Lexer} {c : Char} {cs rest : List Char} {t : Text}

theorem rememberKey_of_none (h : l.possible = none) : l.rememberKey = .ok l.remembered := by
  have hforget : l.forgetKey = .ok l := by simp only [forgetKey, h]
  rw [rememberKey, remembered]
  split
  · rw [hforget]
    rfl
  · rfl

@[simp] theorem remembered_place : l.remembered.place = l.place := by
  rw [remembered]; split <;> rfl

@[simp] theorem remembered_tokens : l.remembered.tokens = l.tokens := by
  rw [remembered]; split <;> rfl

@[simp] theorem remembered_indents : l.remembered.indents = l.indents := by
  rw [remembered]; split <;> rfl

@[simp] theorem remembered_around : l.remembered.around = l.around := by
  rw [remembered]; split <;> rfl

/-- A quoted scalar is read by its body. -/
theorem quoted_of_quotedBody {double : Bool} (hpossible : l.possible = none)
    (hrest : l.place.rest = c :: cs) (h : quotedBody double (.blanks []) cs = .ok (t, rest)) :
    l.quoted double = .ok (l.behindScalar (.scalar false t) rest false) := by
  rw [quoted, rememberKey_of_none hpossible]
  simp [bind, Except.bind, hrest, h, behindScalar]
  rfl

/-- A plain scalar is read by its body. -/
theorem plain_of_plainBody {r : PlainRead} (hpossible : l.possible = none)
    (h : plainBody l.inFlow l.innerColumn 0 (.blanks []) l.place.rest = r) :
    l.plain = .ok (l.behindScalar (.scalar true (Text.ofChars r.text)) r.rest r.crossed) := by
  have hread : plainBody l.remembered.inFlow l.remembered.innerColumn 0 (.blanks [])
      l.remembered.place.rest = r := by
    simpa only [inFlow, innerColumn, remembered_around, remembered_indents, remembered_place]
      using h
  rw [plain, rememberKey_of_none hpossible]
  simp only [bind, Except.bind, hread]
  rfl

theorem token_doubleQuote : l.token '"' cs = l.quoted true := by
  simp [token, markAhead_cons_of_ne]

theorem token_singleQuote : l.token '\'' cs = l.quoted false := by
  simp [token, markAhead_cons_of_ne]

/-- What is no mark of its own begins a plain scalar. -/
theorem token_plain (hmark : markAhead '-' (c :: cs) = false ∧ markAhead '.' (c :: cs) = false)
    (hc : c ∉ reserved)
    (hgap : c = '-' ∨ c = '?' ∨ c = ':' → l.inFlow = false ∧ gapAhead cs = false)
    (hstart : startsPlain l.inFlow c cs = true) : l.token c cs = l.plain := by
  simp only [reserved, List.mem_cons, List.not_mem_nil, or_false, not_or] at hc
  have hitem : (c == '-' && gapAhead cs) = false := by
    rw [Bool.and_eq_false_iff]
    exact (Decidable.em (c = '-')).symm.imp (by simp) fun h => (hgap (.inl h)).2
  have hmarks : ∀ d, (d = '?' ∨ d = ':') → (c == d && (l.inFlow || gapAhead cs)) = false := by
    intro d hd
    rw [Bool.and_eq_false_iff]
    refine (Decidable.em (c = d)).symm.imp (by simp) fun h => ?_
    have := hgap (.inr (h ▸ hd))
    rw [this.1, this.2]
    rfl
  simp [token, hmark, hc, hitem, hmarks, hstart]

end

section

variable {l : Lexer} {indent : Nat} {cs after rest : List Char} {crossed : Bool} {t : Text}

/-- A text without quotes is read as one token. -/
theorem token_foldLines (breaks : Bool) (column : Nat) (hpossible : l.possible = none)
    (hflow : l.around = []) (hindent : 0 < indent) (hinner : l.innerColumn ≤ indent)
    (hcs : IsPlain cs) (hafter : after.head? ≠ some '-' ∧ after.head? ≠ some '.')
    (hend : EndsPlain l.innerColumn after rest crossed) :
    ∃ c ds, foldLines breaks indent column .start cs ++ after = c :: ds ∧
      (l.place.rest = c :: ds →
        l.token c ds = .ok (l.behindScalar (.scalar true (Text.ofChars cs)) rest crossed)) := by
  have hflow' : l.inFlow = false := by rw [inFlow, hflow]; rfl
  match cs, hcs.begins with
  | _, ⟨c, cs, rfl, hbegins, hbreak⟩ =>
    have hmark : ∀ m, m = '-' ∨ m = '.' → after.head? ≠ some m →
        markAhead m (foldLines breaks indent column .start (c :: cs) ++ after) = false :=
      fun m hm => markAhead_foldLines hcs hm
    have hread : plainBody false l.innerColumn 0 (.blanks [])
        (foldLines breaks indent column .start (c :: cs) ++ after) = ⟨c :: cs, rest, crossed⟩ :=
      plainBody_foldLines hindent hinner hend hcs.printable hcs.marks hcs.last
        (fun h => by cases h) (.start (c :: cs)) nofun
    obtain ⟨hreserved, hword⟩ := hcs.not_reserved
    have hprint : ∀ d ∈ cs, IsPrintable d := fun d hd =>
      hcs.printable d (List.mem_cons_of_mem c hd)
    rw [foldLines_word hbegins.2.1 hbreak, List.cons_append] at hmark hread ⊢
    refine ⟨c, _, rfl, fun hrest => ?_⟩
    have hgap : c = '-' ∨ c = '?' ∨ c = ':' →
        gapAhead (foldLines breaks indent (column + 1) .word cs ++ after) = false :=
      fun h => gapAhead_foldLines hprint (hword h)
    have hstart := startsPlain_of_not_reserved hbegins.1 hbegins.2.1 hreserved hgap
    rw [token_plain ⟨hmark _ (.inl rfl) hafter.1, hmark _ (.inr rfl) hafter.2⟩ hreserved
      (fun h => ⟨hflow', hgap h⟩) (by rw [hflow']; exact hstart)]
    refine plain_of_plainBody hpossible (r := ⟨c :: cs, rest, crossed⟩) ?_
    rw [hflow', hrest, hread]

/-- What ends a scalar: `rest` is left of what follows it, for a plain one without the blanks in
front, with a line break among them if `crossed`. -/
def Ends (l : Lexer) (plain : Bool) (after rest : List Char) (crossed : Bool) : Prop :=
  (∀ c ∈ ['\'', '-', '.'], after.head? ≠ some c) ∧
    if plain then EndsPlain l.innerColumn after rest crossed else rest = after ∧ crossed = false

/-- A scalar is read as one token. -/
theorem token_writeScalar {place : Place} (hpossible : l.possible = none) (hflow : l.around = [])
    (hindent : 0 < place.indent) (hinner : l.innerColumn ≤ place.indent) (hkeeps : place.Keeps t)
    (hend : l.Ends (Style.of t == .plain) after rest crossed) :
    ∃ c cs, writeScalar place t ++ after = c :: cs ∧ (l.place.rest = c :: cs →
      l.token c cs = .ok (l.behindScalar (.scalar (Style.of t == .plain) t) rest crossed)) := by
  obtain ⟨hafter, hend⟩ := hend
  cases hstyle : Style.of t with
  | plain =>
    rw [hstyle, if_pos (by decide)] at hend
    obtain ⟨cs, rfl, -, hplain, hwrite⟩ := writeScalar_of_plain hstyle
    rw [hwrite]
    exact token_foldLines _ _ hpossible hflow hindent hinner hplain
      ⟨hafter _ (by decide), hafter _ (by decide)⟩ hend
  | single =>
    rw [hstyle, if_neg (by decide)] at hend
    obtain ⟨rfl, rfl⟩ := hend
    obtain ⟨cs, rfl, hmem, hsingle, hwrite⟩ := writeScalar_of_single hstyle
    rw [hwrite, List.cons_append, List.append_assoc]
    refine ⟨_, _, rfl, fun hrest => ?_⟩
    rw [token_singleQuote]
    exact quoted_of_quotedBody hpossible hrest (quotedBody_foldLines hindent hmem hsingle
      (hafter _ (by decide)) (.start cs))
  | double =>
    rw [hstyle, if_neg (by decide)] at hend
    obtain ⟨rfl, rfl⟩ := hend
    rw [writeScalar_of_double hstyle, writeEscaped, List.cons_append, List.append_assoc]
    refine ⟨_, _, rfl, fun hrest => ?_⟩
    rw [token_doubleQuote]
    have hsafe : place.breaks = false ∨ place.indent < lineWidth ∨
        hasBlankBehindEscape (if true then t.tail else t) = false :=
      hkeeps.imp_right (Or.imp_right fun h => h.resolve_left (absurd hstyle))
    exact quoted_of_quotedBody hpossible hrest
      (quotedBody_escapeLines hindent t (.blanks [] t) hsafe)

end

end Lexer

end ShapeAlgebra.Yaml
