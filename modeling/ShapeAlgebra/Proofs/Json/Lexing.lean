import ShapeAlgebra.Json.Printer
import ShapeAlgebra.Proofs.Yaml.Line

/-!
# Tokens between brackets

Between brackets indentation has no meaning, and keys are never required. A JSON string is read as
the text for which it stands, but that the two halves of a surrogate pair are read as code points of
their own.

Results:

* `Json.quotedBody_string`: a string is read back as its text with the halves of surrogate pairs.
* `Yaml.Lexer.InFlow.opening`, `Yaml.Lexer.InFlow.closing`, `Yaml.Lexer.InFlow.comma`: the marks of
  collections between brackets.
* `Yaml.Lexer.InFlow.string`, `Yaml.Lexer.InFlow.boolWord`: the scalars.
* `Yaml.Lexer.InFlow.key`: a string that is near enough to its colon is a key.
-/

namespace ShapeAlgebra.Json

open Yaml

/-! ## Strings -/

/-- The code points that are written for a code point: beyond the basic plane the two halves of its
surrogate pair, and else the code point itself. -/
def halves (p : CodePoint) : Text :=
  if p.code < 0x10000 then [p]
  else [.surrogate (Fin.ofNat 2048 ((p.code - 0x10000) / 0x400)),
    .surrogate (Fin.ofNat 2048 (0x400 + (p.code - 0x10000) % 0x400))]

/-- A text with the halves of surrogate pairs in place of the code points beyond the basic plane. -/
def halved (t : Text) : Text := t.flatMap halves

/-- Whether all code points of a text are in the basic plane. -/
def IsBasic (t : Text) : Prop := ∀ p ∈ t, p.code < 0x10000

instance : DecidablePred IsBasic := fun t =>
  inferInstanceAs (Decidable (∀ p ∈ t, p.code < 0x10000))

theorem halved_eq_self {t : Text} (h : IsBasic t) : halved t = t := by
  induction t with
  | nil => rfl
  | cons p t ih =>
    obtain ⟨hp, ht⟩ := List.forall_mem_cons.1 h
    rw [halved, List.flatMap_cons, ← halved, ih ht, halves, if_pos hp]
    rfl

section

variable {g : Gap} {p : CodePoint} {rest : List Char}

theorem escapedCode_unitEscape (p : CodePoint) :
    escapedCode (List.replicate (4 - (Nat.toDigits 16 p.code).length) '0' ++
      Nat.toDigits 16 p.code) = .ok p := by
  refine escapedCode_of_hexValue? ((hexValue?_replicate_zero ..).trans ?_)
  have hdigits := hexValue?_digits (f := id) (by decide) p.code
  rwa [List.map_id] at hdigits

/-- An escape of four digits is read back as the code point that it was written for. -/
theorem quotedBody_unitEscape (hp : p.code < 0x10000) :
    quotedBody true g (unitEscape p.code ++ rest) =
      prepend (Text.ofChars g.text ++ [p]) (quotedBody true (.blanks []) rest) := by
  have hlength : (List.replicate (4 - (Nat.toDigits 16 p.code).length) '0' ++
      Nat.toDigits 16 p.code).length = 4 := by
    have hpadded := length_paddedDigits (w := 4) (by decide) hp id
    rwa [List.map_id] at hpadded
  exact (quotedBody_digits (escapedCode_unitEscape p)).2.1 hlength

theorem quotedBody_pair {c v : Char} (h : escapeValue? c = some v) (hc : c ∉ ['x', 'u', 'U'])
    (hprint : IsPrintable c) : quotedBody true g (['\\', c] ++ rest) =
      prepend (Text.ofChars g.text ++ [.scalar v]) (quotedBody true (.blanks []) rest) :=
  quotedBody_letter h hc hprint

/-- A code point without an escape is a printable character. -/
theorem eq_scalar_of_printable (h : 0x20 ≤ p.code ∧ p.code < 0x7F) :
    ∃ c, p = .scalar c ∧ IsPrintable c ∧ Char.ofNat p.code = c := by
  obtain ⟨hlow, hhigh⟩ := h
  cases p with
  | surrogate half =>
    simp only [CodePoint.code] at hhigh
    omega
  | scalar c => exact ⟨c, rfl, ⟨hlow, Nat.le_of_lt_succ hhigh⟩, Char.ofNat_toNat c⟩

theorem code_surrogate_ofNat {n : Nat} (h : n < 2048) :
    (CodePoint.surrogate (Fin.ofNat 2048 n)).code = 0xD800 + n := by
  simp [CodePoint.code, Fin.ofNat, Nat.mod_eq_of_lt h]

/-- Beyond the basic plane, what stands for a code point are the escapes of its halves. -/
theorem escaped_of_beyond (h : ¬ p.code < 0x10000) : ∃ a b : CodePoint, halves p = [a, b] ∧
    a.code < 0x10000 ∧ b.code < 0x10000 ∧ escaped p = unitEscape a.code ++ unitEscape b.code := by
  have hcode := code_lt p
  have hhigh := code_surrogate_ofNat (n := (p.code - 0x10000) / 0x400) (by omega)
  have hlow := code_surrogate_ofNat (n := 0x400 + (p.code - 0x10000) % 0x400) (by omega)
  refine ⟨_, _, if_neg h, by omega, by omega, ?_⟩
  rw [hhigh, hlow, ← Nat.add_assoc, escaped.eq_def]
  split
  iterate 7 exact absurd (by decide) h
  simp only
  rw [if_neg (by omega), if_neg h]

/-- Apart from a blank, what stands for a code point in the basic plane is read back as it. -/
theorem quotedBody_basic (hp : p.code < 0x10000) (hblank : p ≠ .scalar ' ') :
    quotedBody true g (escaped p ++ rest) =
      prepend (Text.ofChars g.text ++ [p]) (quotedBody true (.blanks []) rest) := by
  rw [escaped.eq_def]
  split
  iterate 7 exact quotedBody_pair rfl (by decide) (by decide)
  next hquote hslash _ _ _ _ _ =>
    simp only
    split
    · next hprint =>
      obtain ⟨c, rfl, hc, hchar⟩ := eq_scalar_of_printable hprint
      rw [hchar]
      have hne : ∀ x, CodePoint.scalar c ≠ .scalar x → c ≠ x := fun x h heq => h (by rw [heq])
      exact quotedBody_word hc (hne _ hblank) (fun _ => ⟨hne _ hquote, hne _ hslash⟩) nofun
    · exact quotedBody_unitEscape hp

/-- Apart from a blank, what stands for a code point is read back as that code point or as its
halves. -/
theorem quotedBody_escaped (hblank : p ≠ .scalar ' ') :
    quotedBody true g (escaped p ++ rest) =
      prepend (Text.ofChars g.text ++ halves p) (quotedBody true (.blanks []) rest) := by
  by_cases hp : p.code < 0x10000
  · rw [quotedBody_basic hp hblank, halves, if_pos hp]
  · obtain ⟨a, b, hhalves, ha, hb, hescaped⟩ := escaped_of_beyond hp
    rw [hescaped, hhalves, List.append_assoc, quotedBody_unitEscape ha, quotedBody_unitEscape hb,
      prepend_prepend, List.append_assoc]
    rfl

theorem escaped_blank : escaped (.scalar ' ') = [' '] := by decide

/-- A string is read back as its text, with the halves of surrogate pairs. -/
theorem quotedBody_string (t : Text) (bs : List Char) :
    quotedBody true (.blanks bs) (t.flatMap escaped ++ '"' :: rest) =
      .ok (Text.ofChars (Gap.text (.blanks bs)) ++ halved t, rest) := by
  induction t generalizing bs with
  | nil => rw [List.flatMap_nil, List.nil_append, quotedBody_closing, halved, List.flatMap_nil,
      List.append_nil]
  | cons p t ih =>
    have hcons : halved (p :: t) = halves p ++ halved t := List.flatMap_cons
    rw [List.flatMap_cons, List.append_assoc, hcons]
    by_cases hblank : p = .scalar ' '
    · subst hblank
      have hhalves : halves (.scalar ' ') = [.scalar ' '] := by decide
      rw [escaped_blank, List.singleton_append, quotedBody_blank, ih, hhalves]
      simp [Gap.text, Text.ofChars]
    · rw [quotedBody_escaped hblank, ih, prepend_ok]
      simp [Gap.text, Text.ofChars]

/-- Strings are written in printable characters. -/
theorem isPrintable_of_mem_escaped {c : Char} (hc : c ∈ escaped p) : IsPrintable c := by
  have hunit : ∀ n, c ∈ unitEscape n → IsPrintable c := by
    intro n hc
    have hdigit : ∀ d < 16, IsPrintable (Nat.digitChar d) := by decide
    rcases List.mem_cons.1 hc with rfl | hc
    · decide
    rcases List.mem_cons.1 hc with rfl | hc
    · decide
    rcases List.mem_append.1 hc with hc | hc
    · rw [List.eq_of_mem_replicate hc]
      decide
    · obtain ⟨d, hd, rfl⟩ := mem_toDigits hc
      exact hdigit d hd
  rw [escaped.eq_def] at hc
  split at hc
  iterate 7
    rcases List.mem_cons.1 hc with rfl | hc
    · decide
    · rw [List.mem_singleton.1 hc]
      decide
  simp only at hc
  split at hc
  · next hprint =>
    obtain ⟨d, rfl, hd, hchar⟩ := eq_scalar_of_printable hprint
    rwa [List.mem_singleton.1 hc, hchar]
  · split at hc
    · exact hunit _ hc
    · exact (List.mem_append.1 hc).elim (hunit _) (hunit _)

end

theorem isPrintable_of_mem_string {t : Text} {c : Char} (hc : c ∈ string t) : IsPrintable c := by
  rw [string, List.mem_cons, List.mem_append, List.mem_singleton] at hc
  rcases hc with rfl | hc | rfl
  · decide
  · obtain ⟨p, -, hc⟩ := List.mem_flatMap.1 hc
    exact isPrintable_of_mem_escaped hc
  · decide

end ShapeAlgebra.Json

namespace ShapeAlgebra.Yaml.Lexer

/-! ## Between brackets -/

/-- What may stand between two tokens: blanks, or a line break with blanks behind it. -/
def IsGap (gap : List Char) : Prop := (∃ n, gap = blanks n) ∨ ∃ n, gap = newline n

theorem IsGap.nil : IsGap [] := .inl ⟨0, rfl⟩

theorem IsGap.blank : IsGap [' '] := .inl ⟨1, rfl⟩

theorem IsGap.skipGap {gap : List Char} (h : IsGap gap) {c : Char} (hc : BeginsToken c)
    (cs : List Char) : ∃ crossed, skipGap false (gap ++ c :: cs) = (c :: cs, crossed) := by
  rcases h with ⟨n, rfl⟩ | ⟨n, rfl⟩
  · exact ⟨false, by rw [skipGap_blanks, skipGap_of_beginsToken hc]⟩
  · exact ⟨true, by rw [skipGap_newline, skipGap_of_beginsToken hc]⟩

theorem IsGap.head?_ne {gap : List Char} (h : IsGap gap) {c : Char} (hc : BeginsToken c)
    (cs : List Char) : (gap ++ c :: cs).head? ≠ some '\uFEFF' := by
  have hne : c ≠ '\uFEFF' := by
    rintro rfl
    exact absurd hc (by decide)
  rcases h with ⟨n, rfl⟩ | ⟨n, rfl⟩
  · cases n with
    | zero => simpa [blanks] using hne
    | succ n => simp [blanks, List.replicate_succ]
  · simp [newline]

/-- Between brackets, `depth` of which are open: the tokens so far, and what follows a gap. No key
is required there. -/
structure InFlow (l : Lexer) (ts : List Token) (depth : Nat) (next : List Char) : Prop where
  tokens : l.tokens = ts
  indents : l.indents = []
  depth : l.around.length = depth
  optional : ∀ k, some k ∈ l.possible :: l.around → k.required = false
  arrives : ∃ gap, l.place.rest = gap ++ next ∧ IsGap gap

section

variable {l : Lexer} {ts : List Token} {depth : Nat} {c : Char} {cs next : List Char}

theorem InFlow.inFlow (h : InFlow l ts (depth + 1) next) : l.inFlow = true := by
  have hne : l.around ≠ [] := by
    intro hnil
    have hdepth := h.depth
    rw [hnil] at hdepth
    cases hdepth
  rw [Lexer.inFlow, List.isEmpty_eq_false_iff.2 hne]
  rfl

/-- At the next token nothing has changed, but that keys may have been forgotten. -/
theorem InFlow.atToken (h : InFlow l ts (depth + 1) (c :: cs)) (hc : BeginsToken c) :
    ∃ s, l.atToken = .ok s ∧ s.closed = s ∧ s.place.rest = c :: cs ∧
      InFlow s ts (depth + 1) (c :: cs) ∧ s.keyAllowed = l.keyAllowed ∧
      (∀ k, s.possible = some k → l.possible = some k) ∧
      s.place.rest.length ≤ l.place.rest.length := by
  obtain ⟨gap, hrest, hgap⟩ := h.arrives
  obtain ⟨crossed, hskip⟩ := hgap.skipGap hc cs
  have hflow := h.inFlow
  have hat := atToken_eq hrest (hgap.head?_ne hc cs) hskip
  rw [hflow, Bool.not_true, Bool.and_false, Bool.or_false, dropStaleKeys_eq] at hat
  · have hlength := length_rest_atToken hat
    refine ⟨_, hat, ?_, rfl, ⟨h.tokens, h.indents, ?_, ?_, [], rfl, .nil⟩, rfl, ?_, hlength⟩
    · have hclosed : ∀ s : Lexer, s.inFlow = true → s.closed = s := fun s hs => by
        rw [closed, if_pos hs]
      refine hclosed _ ?_
      rw [Lexer.inFlow] at hflow ⊢
      simpa using hflow
    · simpa using h.depth
    · intro k hk
      simp only [List.mem_cons, List.mem_map] at hk
      rcases hk with hk | ⟨k', hk', hk⟩
      · exact h.optional k (List.mem_cons.2 (.inl (Option.filter_eq_some_iff.1 hk.symm).1.symm))
      · obtain ⟨rfl, -⟩ := Option.filter_eq_some_iff.1 hk
        exact h.optional k (List.mem_cons_of_mem _ hk')
    · intro k hk
      exact (Option.filter_eq_some_iff.1 hk).1
  · exact fun k hk _ => h.optional k hk

/-- A token that is read between brackets. -/
theorem InFlow.exists_next {motive : Lexer → Prop} (h : InFlow l ts (depth + 1) (c :: cs))
    (hc : BeginsToken c)
    (htoken : ∀ s, InFlow s ts (depth + 1) (c :: cs) → s.place.rest = c :: cs →
      s.keyAllowed = l.keyAllowed → (∀ k, s.possible = some k → l.possible = some k) →
      ∃ l', s.token c cs = .ok l' ∧ l'.place.rest.length < (c :: cs).length ∧ motive l') :
    ∃ l', Next l l' ∧ motive l' := by
  obtain ⟨s, hat, hclosed, hrest, hs, hallowed, hpossible, hlength⟩ := h.atToken hc
  obtain ⟨l', htoken, hshort, hl'⟩ := htoken s hs hrest hallowed hpossible
  refine ⟨l', .intro hat hrest (by rwa [hclosed]) ?_, hl'⟩
  rw [hrest] at hlength
  omega

theorem InFlow.forgetKey (h : InFlow l ts depth next) :
    l.forgetKey = .ok { l with possible := none } := by
  cases hk : l.possible with
  | none =>
    rw [Lexer.forgetKey, hk]
    simp only [← hk]
  | some k =>
    have hoptional := h.optional k (by rw [hk]; exact List.mem_cons_self)
    rw [Lexer.forgetKey, hk]
    simp only [hoptional]
    rfl

/-- Between brackets a key that is remembered is not required. -/
theorem InFlow.rememberKey (h : InFlow l ts (depth + 1) next) : ∃ key,
    l.rememberKey = .ok { l with possible := key } ∧ (∀ k, key = some k → k.required = false) ∧
      (l.keyAllowed = true →
        key = some ⟨l.tokens.length, false, l.place.index, l.place.line, l.place.column⟩) := by
  by_cases hallowed : l.keyAllowed = true
  · have hremember : l.rememberKey = .ok { l with possible := some ⟨l.tokens.length,
        !l.inFlow && l.indents.head? == some l.place.column, l.place.index, l.place.line,
        l.place.column⟩ } := by
      rw [Lexer.rememberKey, if_pos hallowed, h.forgetKey]
      rfl
    rw [h.inFlow, Bool.not_true, Bool.false_and] at hremember
    refine ⟨_, hremember, ?_, fun _ => rfl⟩
    rintro k hk
    cases hk
    rfl
  · refine ⟨l.possible, ?_, fun k hk => h.optional k (by rw [hk]; exact List.mem_cons_self),
      fun h => absurd h hallowed⟩
    rw [Lexer.rememberKey, if_neg hallowed]

/-! ## Brackets and commas -/

/-- Behind one character of the text. -/
theorem InFlow.single {gap : List Char} (hrest : l.place.rest = c :: (gap ++ next))
    (hgap : IsGap gap) (htokens : l.tokens = ts) (hindents : l.indents = [])
    (hdepth : l.around.length = depth)
    (hoptional : ∀ k, some k ∈ l.possible :: l.around → k.required = false) (t : Token) :
    InFlow (l.single t) (t :: ts) depth next ∧
      (l.single t).place.rest.length < (c :: (gap ++ next)).length ∧
      (l.single t).possible = l.possible ∧ (l.single t).keyAllowed = l.keyAllowed := by
  have hplace : (l.single t).place.rest = gap ++ next := by
    have hmove : (l.single t).place = l.place.moveTo (gap ++ next) := by
      simp only [Lexer.single, put, moveTo, hrest, List.tail_cons]
    have hbehind : l.place.moveTo (gap ++ next) = l.place.behind [c] (gap ++ next) :=
      Cursor.moveTo_append hrest
    rw [hmove, hbehind]
    rfl
  refine ⟨⟨congrArg (t :: ·) htokens, hindents, hdepth, hoptional, gap, hplace, hgap⟩, ?_, rfl, rfl⟩
  rw [hplace]
  exact Nat.lt_succ_self _

section

variable {gap : List Char} {d : Char} {s t : Token}

/-- An opening bracket inside another one. -/
theorem InFlow.opening (h : InFlow l ts (depth + 1) (c :: (gap ++ next)))
    (hb : IsBrackets c d s t) (hgap : IsGap gap) (hdepth : depth + 1 < bracketLimit) :
    ∃ l', Next l l' ∧ InFlow l' (s :: ts) (depth + 2) next ∧ l'.possible = none ∧
      l'.keyAllowed = true := by
  refine h.exists_next hb.beginsToken.1 fun l₁ h₁ hrest _ _ => ?_
  obtain ⟨key, hremember, hoptional, -⟩ := h₁.rememberKey
  have hlimit : ¬ bracketLimit ≤ l₁.around.length := by
    rw [h₁.depth]
    exact Nat.not_le.2 hdepth
  have hopen : l₁.openBracket s = .ok ((({ l₁ with
      around := key :: l₁.around, possible := none, keyAllowed := true } : Lexer)).single s) := by
    rw [openBracket, if_neg hlimit, hremember]
    rfl
  have hall : ∀ k, some k ∈ none :: key :: l₁.around → k.required = false := by
    intro k hk
    simp only [List.mem_cons, reduceCtorEq, false_or] at hk
    rcases hk with hk | hk
    · exact hoptional k hk.symm
    · exact h₁.optional k (List.mem_cons_of_mem _ hk)
  obtain ⟨hflow, hshort, hpossible, hallowed⟩ := InFlow.single (l := { l₁ with
      around := key :: l₁.around, possible := none, keyAllowed := true }) hrest hgap h₁.tokens
    h₁.indents (congrArg (· + 1) h₁.depth) hall s
  exact ⟨_, (token_opening hb).trans hopen, hshort, hflow, hpossible, hallowed⟩

/-- A closing bracket. -/
theorem InFlow.closing (h : InFlow l ts (depth + 1) (d :: (gap ++ next)))
    (hb : IsBrackets c d s t) (hgap : IsGap gap) :
    ∃ l', Next l l' ∧ InFlow l' (t :: ts) depth next := by
  refine h.exists_next hb.beginsToken.2 fun l₁ h₁ hrest _ _ => ?_
  obtain ⟨key, around, haround⟩ : ∃ key around, l₁.around = key :: around :=
    List.exists_cons_of_length_eq_add_one h₁.depth
  have hclose : l₁.closeBracket t = .ok ((({ l₁ with
      around := around, possible := key, keyAllowed := false } : Lexer)).single t) := by
    rw [closeBracket, h₁.forgetKey]
    simp only [bind, Except.bind, haround]
    rfl
  have hdepth : around.length = depth := by
    have hdepth := h₁.depth
    rw [haround] at hdepth
    exact Nat.succ.inj hdepth
  have hall : ∀ k, some k ∈ key :: around → k.required = false := by
    intro k hk
    rw [← haround] at hk
    exact h₁.optional k (List.mem_cons_of_mem _ hk)
  obtain ⟨hflow, hshort, -⟩ := InFlow.single (l := { l₁ with
      around := around, possible := key, keyAllowed := false }) hrest hgap h₁.tokens h₁.indents
    hdepth hall t
  exact ⟨_, (token_closing hb).trans hclose, hshort, hflow⟩

/-- An empty collection. -/
theorem InFlow.emptyBrackets (h : InFlow l ts (depth + 1) (c :: d :: (gap ++ next)))
    (hb : IsBrackets c d s t) (hgap : IsGap gap) (hdepth : depth + 1 < bracketLimit) :
    ∃ l', Reaches l l' ∧ InFlow l' (t :: s :: ts) (depth + 1) next := by
  have hopened : InFlow l ts (depth + 1) (c :: ([] ++ d :: (gap ++ next))) := h
  obtain ⟨l₁, hstep₁, h₁, -⟩ := hopened.opening hb .nil hdepth
  obtain ⟨l₂, hstep₂, h₂⟩ := h₁.closing hb hgap
  exact ⟨l₂, (Relation.ReflTransGen.single hstep₁).tail hstep₂, h₂⟩

/-- A comma. -/
theorem InFlow.comma (h : InFlow l ts (depth + 1) (',' :: (gap ++ next))) (hgap : IsGap gap) :
    ∃ l', Next l l' ∧ InFlow l' (.comma :: ts) (depth + 1) next ∧ l'.possible = none ∧
      l'.keyAllowed = true := by
  refine h.exists_next (by decide) fun l₁ h₁ hrest _ _ => ?_
  have hcomma : l₁.token ',' (gap ++ next) =
      .ok (({ l₁ with possible := none, keyAllowed := true } : Lexer).single .comma) := by
    have htoken : l₁.token ',' (gap ++ next) = l₁.comma := by
      simp [token, markAhead_cons_of_ne]
    rw [htoken, Lexer.comma, h₁.forgetKey]
    rfl
  have hall : ∀ k, some k ∈ none :: l₁.around → k.required = false := by
    intro k hk
    simp only [List.mem_cons, reduceCtorEq, false_or] at hk
    exact h₁.optional k (List.mem_cons_of_mem _ hk)
  obtain ⟨hflow, hshort, hpossible, hallowed⟩ := InFlow.single (l := { l₁ with
      possible := none, keyAllowed := true }) hrest hgap h₁.tokens h₁.indents h₁.depth hall .comma
  exact ⟨_, hcomma, hshort, hflow, hpossible, hallowed⟩

end

/-! ## Strings and words -/

section

variable {gap after : List Char} {x : Text}

/-- Where the reader stands behind a string, of which `key` is remembered. -/
def behindString (l : Lexer) (x : Text) (after : List Char) (key : Option PossibleKey) : Lexer :=
  { l with
    place := l.place.behind (Json.string x) after
    tokens := .scalar false (Json.halved x) :: l.tokens
    possible := key
    keyAllowed := false }

/-- A string is read as one token. -/
theorem InFlow.token_string (h : InFlow l ts (depth + 1) next)
    (hrest : l.place.rest = Json.string x ++ after) :
    ∃ key, l.token '"' (x.flatMap Json.escaped ++ '"' :: after) = .ok (l.behindString x after key) ∧
      (∀ k, key = some k → k.required = false) ∧
      (l.keyAllowed = true →
        key = some ⟨l.tokens.length, false, l.place.index, l.place.line, l.place.column⟩) := by
  obtain ⟨key, hremember, hoptional, hkey⟩ := h.rememberKey
  refine ⟨key, ?_, hoptional, hkey⟩
  have hbody : quotedBody true (.blanks []) (x.flatMap Json.escaped ++ '"' :: after) =
      .ok (Json.halved x, after) := Json.quotedBody_string x []
  have htail : l.place.rest.tail = x.flatMap Json.escaped ++ '"' :: after := by
    rw [hrest, Json.string, List.cons_append, List.tail_cons, List.append_assoc]
    rfl
  rw [token_doubleQuote, quoted, hremember]
  simp only [bind, Except.bind, htail, hbody]
  rw [behindString, ← Cursor.moveTo_append hrest]
  rfl

theorem string_append (x : Text) (after : List Char) :
    Json.string x ++ after = '"' :: (x.flatMap Json.escaped ++ '"' :: after) := by
  rw [Json.string, List.cons_append, List.append_assoc]
  rfl

/-- A string between brackets. -/
theorem InFlow.string (h : InFlow l ts (depth + 1) (Json.string x ++ (gap ++ next)))
    (hgap : IsGap gap) :
    ∃ l', Next l l' ∧ InFlow l' (.scalar false (Json.halved x) :: ts) (depth + 1) next := by
  rw [string_append] at h
  refine h.exists_next (by decide) fun l₁ h₁ hrest _ _ => ?_
  rw [← string_append] at hrest
  obtain ⟨key, htoken, hoptional, -⟩ := h₁.token_string hrest
  refine ⟨_, htoken, ?_, congrArg _ h₁.tokens, h₁.indents, h₁.depth, ?_, gap, rfl, hgap⟩
  · rw [← string_append, List.length_append]
    exact Nat.lt_add_of_pos_left (Nat.succ_pos _)
  · intro k hk
    rcases List.mem_cons.1 hk with hk | hk
    · exact hoptional k hk.symm
    · exact h₁.optional k (List.mem_cons_of_mem _ hk)

/-- The state behind a scalar that may be a key, between brackets. -/
def behindKeyInFlow (p : Cursor) (tokens : List Token) (key : PossibleKey)
    (around : List (Option PossibleKey)) : Lexer :=
  { place := p, tokens, possible := some key, around, keyAllowed := false }

/-- The colon behind a key turns the scalar in front of it into a key. -/
theorem value_behindKeyInFlow {key : PossibleKey} {scalar : Token}
    {around : List (Option PossibleKey)} (q : Cursor) (hnumber : key.number = ts.length)
    (hdepth : around.length = depth + 1) :
    (behindKeyInFlow q (scalar :: ts) key around).value =
      .ok (({ place := q, tokens := scalar :: .key :: ts, around, keyAllowed := false } :
        Lexer).single .value) := by
  obtain ⟨k, ks, rfl⟩ := List.exists_cons_of_length_eq_add_one hdepth
  have hlater : (scalar :: ts).length - key.number = 1 := by
    rw [hnumber, List.length_cons]
    omega
  have hinsert : ({ place := q, tokens := scalar :: ts, around := k :: ks, keyAllowed := false } :
      Lexer).insert key.number [.key] =
      { place := q, tokens := scalar :: .key :: ts, around := k :: ks, keyAllowed := false } := by
    simp only [insert, hlater]
    rfl
  have hvalue : (behindKeyInFlow q (scalar :: ts) key (k :: ks)).value = .ok ((({
      place := q, tokens := scalar :: ts, around := k :: ks, keyAllowed := false } : Lexer).insert
        key.number [.key]).single .value) := rfl
  rw [hvalue, hinsert]

/-- The colon behind a key that is near enough. -/
theorem next_colon_inFlow {q : Cursor} {around : List (Option PossibleKey)} {key : PossibleKey}
    {scalar : Token} (hrest : q.rest = ':' :: ' ' :: next) (hstale : isStale q key = false)
    (hnumber : key.number = ts.length) (hkey : key.required = false)
    (hdepth : around.length = depth + 1) (hoptional : ∀ k, some k ∈ around → k.required = false) :
    ∃ l', Next (behindKeyInFlow q (scalar :: ts) key around) l' ∧
      InFlow l' (.value :: scalar :: .key :: ts) (depth + 1) next ∧ l'.possible = none := by
  obtain ⟨around', haround, hat⟩ : ∃ around' : List (Option PossibleKey),
      (around'.length = depth + 1 ∧ ∀ k, some k ∈ around' → k.required = false) ∧
      (behindKeyInFlow q (scalar :: ts) key around).atToken =
        .ok (behindKeyInFlow q (scalar :: ts) key around') := by
    refine ⟨around.map fun k => k.filter fun k => !isStale q k, ⟨by simpa using hdepth, ?_⟩, ?_⟩
    · intro k hk
      obtain ⟨k', hk', hk⟩ := List.mem_map.1 hk
      obtain ⟨rfl, -⟩ := Option.filter_eq_some_iff.1 hk
      exact hoptional k hk'
    · rw [atToken_of_beginsToken hrest (by decide), dropStaleKeys_eq]
      · simp [behindKeyInFlow, hstale]
      · intro k hk _
        simp only [behindKeyInFlow, List.mem_cons, Option.some.injEq] at hk
        rcases hk with rfl | hk
        · exact hkey
        · exact hoptional k hk
  obtain ⟨hdepth', hoptional'⟩ := haround
  have hall : ∀ k, some k ∈ none :: around' → k.required = false := by
    intro k hk
    simp only [List.mem_cons, reduceCtorEq, false_or] at hk
    exact hoptional' k hk
  have hrest' : q.rest = ':' :: ([' '] ++ next) := hrest
  obtain ⟨hflow, hshort, hpossible, -⟩ := InFlow.single (l := {
      place := q, tokens := scalar :: .key :: ts, around := around', keyAllowed := false }) hrest'
    .blank rfl rfl hdepth' hall .value
  refine ⟨_, .intro hat hrest ?_ ?_, hflow, hpossible⟩
  · have hclosed : (behindKeyInFlow q (scalar :: ts) key around').closed =
        behindKeyInFlow q (scalar :: ts) key around' := by
      obtain ⟨k, ks, rfl⟩ := List.exists_cons_of_length_eq_add_one hdepth'
      rfl
    rw [hclosed, token_colon rfl, value_behindKeyInFlow q hnumber hdepth']
  · rw [behindKeyInFlow, hrest]
    exact hshort

/-- A key with its colon between brackets. -/
theorem InFlow.key (h : InFlow l ts (depth + 1) (Json.string x ++ ':' :: ' ' :: next))
    (hallowed : l.keyAllowed = true) (hreach : (Json.string x).length ≤ keyReach) :
    ∃ l', Reaches l l' ∧
      InFlow l' (.value :: .scalar false (Json.halved x) :: .key :: ts) (depth + 1) next ∧
      l'.possible = none := by
  rw [string_append] at h
  obtain ⟨l₁, hstep, q, around, key, rfl, hrest, hstale, hnumber, hkey, hdepth, hoptional⟩ :
      ∃ l₁, Next l l₁ ∧ ∃ q around key,
        l₁ = behindKeyInFlow q (.scalar false (Json.halved x) :: ts) key around ∧
        q.rest = ':' :: ' ' :: next ∧ isStale q key = false ∧ key.number = ts.length ∧
        key.required = false ∧ around.length = depth + 1 ∧
        ∀ k, some k ∈ around → k.required = false := by
    refine h.exists_next (by decide) fun s hs hrest hallowed' _ => ?_
    rw [← string_append] at hrest
    obtain ⟨key, htoken, -, hkey⟩ := hs.token_string hrest
    obtain rfl := hkey (hallowed'.trans hallowed)
    refine ⟨_, htoken, ?_, s.place.behind (Json.string x) (':' :: ' ' :: next), s.around,
      ⟨s.tokens.length, false, s.place.index, s.place.line, s.place.column⟩, ?_, rfl,
      isStale_behind (fun _ => Json.isPrintable_of_mem_string) hreach _ _ _,
      congrArg List.length hs.tokens, rfl, hs.depth, fun k hk =>
        hs.optional k (List.mem_cons_of_mem _ hk)⟩
    · rw [← string_append, List.length_append]
      exact Nat.lt_add_of_pos_left (Nat.succ_pos _)
    · rw [behindString, behindKeyInFlow, hs.tokens, hs.indents]
  obtain ⟨l₂, hcolon, hflow, hpossible⟩ :=
    next_colon_inFlow hrest hstale hnumber hkey hdepth hoptional
  exact ⟨l₂, (Relation.ReflTransGen.single hstep).tail hcolon, hflow, hpossible⟩

/-- The marks that end a node between brackets. -/
def endMarks : List Char := [',', ']', '\x7d']

theorem plainBody_endMark {d : Char} (hd : d ∈ endMarks) (n indent column : Nat) (g : Gap) :
    plainBody true indent column g (blanks n ++ d :: cs) = ⟨[], d :: cs, g.isCrossed⟩ := by
  induction n generalizing column g with
  | zero =>
    simp only [endMarks, List.mem_cons, List.not_mem_nil, or_false] at hd
    have hzero : blanks 0 ++ d :: cs = d :: cs := rfl
    rw [hzero, plainBody]
    rcases hd with rfl | rfl | rfl <;> simp [isBreak, endsPlain]
  | succ n ih =>
    have hstep : blanks (n + 1) ++ d :: cs = ' ' :: (blanks n ++ d :: cs) := rfl
    have hcrossed : (g.space ' ').isCrossed = g.isCrossed := by cases g <;> rfl
    rw [hstep, plainBody, if_pos (by decide), ih, hcrossed]

/-- A word ends where a mark follows, behind blanks or a line break. -/
theorem plainBody_gap {d : Char} (cs : List Char) (hgap : IsGap gap) (hd : d ∈ endMarks)
    (indent column : Nat) :
    ∃ crossed, plainBody true indent column (.blanks []) (gap ++ d :: cs) =
      ⟨[], d :: cs, crossed⟩ := by
  rcases hgap with ⟨n, rfl⟩ | ⟨n, rfl⟩
  · exact ⟨_, plainBody_endMark hd n indent column _⟩
  · have hseparator : separatorAhead (blanks n ++ d :: cs) = false := by
      cases n with
      | zero =>
        have hne : d ≠ '-' ∧ d ≠ '.' := by
          simp only [endMarks, List.mem_cons, List.not_mem_nil, or_false] at hd
          rcases hd with rfl | rfl | rfl <;> decide
        exact separatorAhead_cons hne.1 hne.2 cs
      | succ n => exact separatorAhead_blanks (Nat.succ_pos n) _
    refine ⟨true, ?_⟩
    rw [newline, List.cons_append, plainBody, if_neg (by decide), if_pos (by decide), hseparator,
      if_neg Bool.false_ne_true]
    exact plainBody_endMark hd n indent 0 _

theorem plainBody_boolWord (b : Bool) {rest : List Char} {crossed : Bool} {indent column : Nat}
    (h : plainBody true indent column (.blanks []) after = ⟨[], rest, crossed⟩) :
    plainBody true indent column (.blanks []) (boolWord b ++ after) =
      ⟨boolWord b, rest, crossed⟩ := by
  have hletter : ∀ (d : Char) (ds : List Char), d ∈ ['t', 'r', 'u', 'e', 'f', 'a', 'l', 's'] →
      plainBody true indent column (.blanks []) (d :: ds) =
        { plainBody true indent column (.blanks []) ds with
          text := d :: (plainBody true indent column (.blanks []) ds).text } := by
    intro d ds hd
    simp only [List.mem_cons, List.not_mem_nil, or_false] at hd
    rw [plainBody]
    rcases hd with rfl | rfl | rfl | rfl | rfl | rfl | rfl | rfl <;>
      simp [isBreak, endsPlain, Gap.isNone, Gap.isCrossed, Gap.text]
  cases b with
  | false =>
    have hword : boolWord false ++ after = 'f' :: 'a' :: 'l' :: 's' :: 'e' :: after := rfl
    rw [hword, hletter _ _ (by decide), hletter _ _ (by decide), hletter _ _ (by decide),
      hletter _ _ (by decide), hletter _ _ (by decide), h]
    rfl
  | true =>
    have hword : boolWord true ++ after = 't' :: 'r' :: 'u' :: 'e' :: after := rfl
    rw [hword, hletter _ _ (by decide), hletter _ _ (by decide), hletter _ _ (by decide),
      hletter _ _ (by decide), h]
    rfl

/-- A truth value between brackets. -/
theorem InFlow.boolWord {b : Bool} {d : Char} (hd : d ∈ endMarks) (hgap : IsGap gap)
    (h : InFlow l ts (depth + 1) (boolWord b ++ (gap ++ d :: cs))) :
    ∃ l', Next l l' ∧
      InFlow l' (.scalar true (Text.ofChars (Yaml.boolWord b)) :: ts) (depth + 1) (d :: cs) := by
  obtain ⟨x, xs, hxs, hx, hplain⟩ : ∃ x xs, Yaml.boolWord b = x :: xs ∧ BeginsToken x ∧
      ∀ (s : Lexer) ds, s.token x ds = s.plain := by
    have hletter : ∀ x ∈ ['t', 'f'], BeginsToken x ∧ ∀ (s : Lexer) ds, s.token x ds = s.plain := by
      intro x hx
      simp only [List.mem_cons, List.not_mem_nil, or_false] at hx
      rcases hx with rfl | rfl <;> exact ⟨by decide, fun s ds => token_plain
        ⟨markAhead_cons_of_ne (by decide) ds, markAhead_cons_of_ne (by decide) ds⟩ (by decide)
        (fun h => absurd h (by decide)) rfl⟩
    cases b with
    | false => exact ⟨'f', ['a', 'l', 's', 'e'], rfl, hletter _ (by decide)⟩
    | true => exact ⟨'t', ['r', 'u', 'e'], rfl, hletter _ (by decide)⟩
  rw [hxs, List.cons_append] at h
  refine h.exists_next hx fun s hs hrest _ _ => ?_
  rw [← List.cons_append, ← hxs] at hrest
  obtain ⟨crossed, hend⟩ := plainBody_gap cs hgap hd s.innerColumn 0
  have hbody := plainBody_boolWord b hend
  obtain ⟨key, hremember, hoptional, -⟩ := hs.rememberKey
  have hread : s.plain = .ok ((({ s with possible := key, keyAllowed := crossed } : Lexer).put
      (.scalar true (Text.ofChars (Yaml.boolWord b)))).moveTo (d :: cs)) := by
    rw [plain, hremember]
    have hinner : ({ s with possible := key } : Lexer).innerColumn = s.innerColumn := rfl
    have hflow : ({ s with possible := key } : Lexer).inFlow = true := hs.inFlow
    simp only [bind, Except.bind, hinner, hflow, hrest, hbody]
    rfl
  have hplace : s.place.moveTo (d :: cs) = s.place.behind (Yaml.boolWord b ++ gap) (d :: cs) :=
    Cursor.moveTo_append (by rw [hrest, List.append_assoc])
  have hmoved : (s.place.moveTo (d :: cs)).rest = d :: cs := by
    rw [hplace]
    rfl
  refine ⟨_, (hplain s _).trans hread, ?_, congrArg _ hs.tokens, hs.indents, hs.depth, ?_, [],
    hmoved, .nil⟩
  · have hshort : (d :: cs).length < (Yaml.boolWord b ++ (gap ++ d :: cs)).length := by
      rw [hxs]
      simp only [List.cons_append, List.length_cons, List.length_append]
      omega
    rw [← List.cons_append, ← hxs]
    exact Nat.lt_of_le_of_lt (Nat.le_of_eq (congrArg List.length hmoved)) hshort
  · intro k hk
    rcases List.mem_cons.1 hk with hk | hk
    · exact hoptional k hk.symm
    · exact hs.optional k (List.mem_cons_of_mem _ hk)

end

end

end ShapeAlgebra.Yaml.Lexer
