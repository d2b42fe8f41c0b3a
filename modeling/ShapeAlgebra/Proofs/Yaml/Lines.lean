import ShapeAlgebra.Proofs.Yaml.Escape
import ShapeAlgebra.Yaml.Token.Plain

/-!
# Scalars over several lines

Scalars without escapes are broken at single blanks between words, and a line break in them is
written as two. What is skipped in front of a character while such a scalar is read back stands in
the text there.

Results:

* `Yaml.quotedBody_foldLines`: a text between single quotes is read back.
* `Yaml.plainBody_foldLines`: a text without quotes is read back, up to where something else begins.
-/

namespace ShapeAlgebra.Yaml

/-- What was skipped in front of `cs`, given what was written in front of it. -/
inductive Skipped : Before → Gap → List Char → Prop
  | start (cs : List Char) : Skipped .start (.blanks []) cs
  | word (cs : List Char) : Skipped .word (.blanks []) cs
  | blank (bs : List Char) {cs : List Char} (h : cs.head? ≠ some '\n') :
      Skipped .blank (.blanks bs) cs
  /-- A line that was broken at a blank. -/
  | broken {c : Char} (cs : List Char) (hblank : c ≠ ' ') (hbreak : c ≠ '\n') :
      Skipped .blank (.folded '\n' []) (c :: cs)
  /-- Line breaks of the text, with one more in front of them. -/
  | lineBreak (more : List Char) {cs : List Char} (h : cs.head? ≠ some ' ') :
      Skipped .lineBreak (.folded '\n' ('\n' :: more)) cs

namespace Skipped

theorem exists_blanks {before : Before} {g : Gap} {cs : List Char}
    (h : Skipped before g (' ' :: cs)) : ∃ bs, g = .blanks bs := by
  cases h with
  | start | word => exact ⟨[], rfl⟩
  | blank bs => exact ⟨bs, rfl⟩
  | broken _ h => exact absurd rfl h
  | lineBreak _ h => exact absurd rfl h

/-- A line is broken in front of words only. -/
theorem of_startsWord {cs : List Char} (hword : startsWord cs = true)
    (hnext : cs.head? ≠ some '\n') : Skipped .blank (.folded '\n' []) cs := by
  cases cs with
  | nil => cases hword
  | cons c cs =>
    rw [startsWord, bne_iff_ne] at hword
    exact .broken cs hword fun h => hnext (by rw [h]; rfl)

end Skipped

section

variable {breaks : Bool} {indent column : Nat} {before : Before} {cs : List Char}

/-! ## Folding character by character -/

theorem foldLines_blank : foldLines breaks indent column before (' ' :: cs) =
    if breaks && before == .word && decide (lineWidth < column) && startsWord cs then
      newline indent ++ foldLines breaks indent indent .blank cs
    else ' ' :: foldLines breaks indent (column + 1) .blank cs := by
  rw [foldLines]

theorem foldLines_lineBreak : foldLines breaks indent column before ('\n' :: cs) =
    (if before == .lineBreak then [] else ['\n']) ++
      (if cs.head? = some '\n' then ['\n'] else newline indent) ++
        foldLines breaks indent indent .lineBreak cs := by
  rw [foldLines]

theorem foldLines_word {c : Char} (hblank : c ≠ ' ') (hbreak : c ≠ '\n') :
    foldLines breaks indent column before (c :: cs) =
      c :: foldLines breaks indent (column + 1) .word cs := by
  rw [foldLines]
  · exact hblank
  · exact hbreak

theorem quotesDoubled_cons (c : Char) (cs : List Char) :
    quotesDoubled (c :: cs) = (if c = '\'' then ['\'', '\''] else [c]) ++ quotesDoubled cs := by
  rw [quotesDoubled, List.flatMap_cons]
  rfl

theorem head?_quotesDoubled (cs : List Char) : (quotesDoubled cs).head? = cs.head? := by
  cases cs with
  | nil => rfl
  | cons c cs =>
    rw [quotesDoubled_cons]
    split
    · next h => simp [h]
    · rfl

theorem startsWord_quotesDoubled (cs : List Char) :
    startsWord (quotesDoubled cs) = startsWord cs := by
  cases cs with
  | nil => rfl
  | cons c cs =>
    rw [quotesDoubled_cons]
    split
    · next h => simp [h, startsWord]
    · rfl

/-- Folding adds nothing but line breaks and blanks. -/
theorem mem_foldLines {c : Char} (h : c ∈ foldLines breaks indent column before cs) :
    c ∈ cs ∨ c ∈ newline indent := by
  induction cs generalizing before column with
  | nil => cases h
  | cons d cs ih =>
    have hrest : ∀ {before column}, c ∈ foldLines breaks indent column before cs →
        c ∈ d :: cs ∨ c ∈ newline indent := fun h => (ih h).imp_left (List.mem_cons_of_mem d)
    by_cases hblank : d = ' '
    · subst hblank
      rw [foldLines_blank] at h
      split at h
      · rcases List.mem_append.1 h with h | h
        · exact .inr h
        · exact hrest h
      · rcases List.mem_cons.1 h with rfl | h
        · exact .inl List.mem_cons_self
        · exact hrest h
    · by_cases hbreak : d = '\n'
      · subst hbreak
        rw [foldLines_lineBreak] at h
        rcases List.mem_append.1 h with h | h
        · rcases List.mem_append.1 h with h | h
          · split at h
            · cases h
            · exact .inl (List.mem_cons.2 (.inl (List.mem_singleton.1 h)))
          · split at h
            · exact .inl (List.mem_cons.2 (.inl (List.mem_singleton.1 h)))
            · exact .inr h
        · exact hrest h
      · rw [foldLines_word hblank hbreak] at h
        rcases List.mem_cons.1 h with rfl | h
        · exact .inl List.mem_cons_self
        · exact hrest h

theorem isOrdinary_of_mem_foldLines (hcs : ∀ c ∈ cs, IsOrdinary c) :
    ∀ c ∈ foldLines breaks indent column before cs, IsOrdinary c :=
  fun c hc => (mem_foldLines hc).elim (hcs c) isOrdinary_of_mem_newline

theorem mem_quotesDoubled {c : Char} : c ∈ quotesDoubled cs ↔ c ∈ cs := by
  simp only [quotesDoubled, List.mem_flatMap]
  constructor
  · rintro ⟨d, hd, hc⟩
    split at hc <;> simp_all
  · intro hc
    refine ⟨c, hc, ?_⟩
    split <;> simp_all

end

/-! ## Between single quotes -/

section

variable {breaks : Bool} {indent column : Nat} {before : Before} {g : Gap} {cs rest : List Char}

theorem quotedBody_break (hg : separatorAhead cs = false) :
    quotedBody false g ('\n' :: cs) = quotedBody false (g.newline '\n') cs := by
  rw [quotedBody.eq_def]
  simp [isSpace, isBreak, hg]

/-- A line break and the blanks behind it. -/
theorem quotedBody_newline (hindent : 0 < indent)
    (hg : ∀ c, (g.newline '\n').space c = g.newline '\n') :
    quotedBody false g (newline indent ++ cs) = quotedBody false (g.newline '\n') cs := by
  rw [newline, List.cons_append, quotedBody_break (separatorAhead_blanks hindent cs),
    quotedBody_blanks hg]

theorem quotedBody_closingSingle (hrest : rest.head? ≠ some '\'') :
    quotedBody false g ('\'' :: rest) = .ok (Text.ofChars g.text, rest) := by
  rw [quotedBody.eq_def]
  cases rest with
  | nil => rfl
  | cons c cs =>
    have hc : c ≠ '\'' := fun h => hrest (by rw [h]; rfl)
    simp [isSpace, isBreak, hc]

theorem quotedBody_quoteTwice : quotedBody false g ('\'' :: '\'' :: cs) =
    prepend (Text.ofChars g.text ++ [.scalar '\'']) (quotedBody false (.blanks []) cs) := by
  rw [quotedBody.eq_def]
  rfl

theorem allowsSingle_of_cons {c : Char} (h : allowsSingle (c :: cs) = true) :
    allowsSingle cs = true := by
  cases cs with
  | nil => rfl
  | cons d ds =>
    simp only [allowsSingle, Bool.and_eq_true] at h
    exact h.2

theorem head?_ne_of_allowsSingle_blank (h : allowsSingle (' ' :: cs) = true) :
    cs.head? ≠ some '\n' := by
  cases cs with
  | nil => simp
  | cons d ds =>
    simp only [allowsSingle, Bool.and_eq_true] at h
    simpa using h.1.1

theorem head?_ne_of_allowsSingle_break (h : allowsSingle ('\n' :: cs) = true) :
    cs.head? ≠ some ' ' := by
  cases cs with
  | nil => simp
  | cons d ds =>
    simp only [allowsSingle, Bool.and_eq_true] at h
    simpa using h.1.2

/-- Behind the first of the line breaks that are written for a run of them. -/
theorem quotedBody_lineBreak (hindent : 0 < indent) (first : Char) (more : List Char) :
    quotedBody false (.folded first more)
      ((if cs.head? = some '\n' then ['\n'] else newline indent) ++
        (foldLines breaks indent indent .lineBreak (quotesDoubled cs) ++ rest)) =
    quotedBody false (.folded first ('\n' :: more))
      (foldLines breaks indent indent .lineBreak (quotesDoubled cs) ++ rest) := by
  split
  · next hnext =>
    obtain ⟨ds, hds⟩ : ∃ ds, quotesDoubled cs = '\n' :: ds := by
      match cs, hnext with
      | _ :: ds, rfl => exact ⟨quotesDoubled ds, rfl⟩
    have hbehind : separatorAhead
        (foldLines breaks indent indent .lineBreak (quotesDoubled cs) ++ rest) = false := by
      obtain ⟨es, hes⟩ : ∃ es, foldLines breaks indent indent .lineBreak (quotesDoubled cs) =
          '\n' :: es := by
        rw [hds, foldLines_lineBreak, if_pos (by decide)]
        split
        · exact ⟨_, rfl⟩
        · exact ⟨_, rfl⟩
      rw [hes, List.cons_append]
      exact separatorAhead_cons (by decide) (by decide) _
    exact quotedBody_break hbehind
  · exact quotedBody_newline hindent fun _ => rfl

/-- Whether characters between single quotes are read back, whatever was skipped in front. -/
def ReadsSingle (breaks : Bool) (indent : Nat) (rest cs : List Char) : Prop :=
  ∀ ⦃before : Before⦄ ⦃g : Gap⦄ (column : Nat), Skipped before g cs →
    quotedBody false g (foldLines breaks indent column before (quotesDoubled cs) ++ '\'' :: rest) =
      .ok (Text.ofChars (g.text ++ cs), rest)

namespace ReadsSingle

theorem blank (hindent : 0 < indent) (hnext : cs.head? ≠ some '\n')
    (h : ReadsSingle breaks indent rest cs) : ReadsSingle breaks indent rest (' ' :: cs) := by
  intro before g column hg
  rw [quotesDoubled_cons, if_neg (by decide), List.singleton_append, foldLines_blank]
  split
  · next hfold =>
    simp only [Bool.and_eq_true, beq_iff_eq, startsWord_quotesDoubled] at hfold
    obtain ⟨⟨⟨-, rfl⟩, -⟩, hword⟩ := hfold
    cases hg
    rw [List.append_assoc, quotedBody_newline hindent fun _ => rfl]
    exact h _ (.of_startsWord hword hnext)
  · obtain ⟨bs, rfl⟩ := hg.exists_blanks
    rw [List.cons_append, quotedBody_blank, h _ (.blank _ hnext)]
    simp [Gap.text]

theorem lineBreak (hindent : 0 < indent) (hnext : cs.head? ≠ some ' ')
    (h : ReadsSingle breaks indent rest cs) : ReadsSingle breaks indent rest ('\n' :: cs) := by
  intro before g column hg
  rw [quotesDoubled_cons, if_neg (by decide), List.singleton_append, foldLines_lineBreak,
    head?_quotesDoubled]
  cases hg with
  | start | word =>
    have hbehind : separatorAhead
        ((if cs.head? = some '\n' then ['\n'] else newline indent) ++
          (foldLines breaks indent indent .lineBreak (quotesDoubled cs) ++ '\'' :: rest)) =
            false := by
      split
      · exact separatorAhead_cons (by decide) (by decide) _
      · exact separatorAhead_cons (by decide) (by decide) _
    rw [if_neg (by decide), List.append_assoc, List.append_assoc, List.singleton_append,
      quotedBody_break hbehind]
    exact (quotedBody_lineBreak hindent _ _).trans (h _ (.lineBreak [] hnext))
  | blank _ h => exact absurd rfl h
  | broken _ _ h => exact absurd rfl h
  | lineBreak more =>
    rw [if_pos (by decide), List.append_assoc, List.append_assoc, List.nil_append,
      quotedBody_lineBreak hindent, h _ (.lineBreak _ hnext)]
    simp [Gap.text]

theorem word {c : Char} (hc : IsPrintable c) (hblank : c ≠ ' ') (hbreak : c ≠ '\n')
    (h : ReadsSingle breaks indent rest cs) : ReadsSingle breaks indent rest (c :: cs) := by
  intro before g column hg
  rw [quotesDoubled_cons]
  by_cases hquote : c = '\''
  · subst hquote
    rw [if_pos rfl, List.cons_append, List.cons_append, List.nil_append,
      foldLines_word (by decide) (by decide), foldLines_word (by decide) (by decide),
      List.cons_append, List.cons_append, quotedBody_quoteTwice, h _ (.word cs)]
    simp [Gap.text, Text.ofChars]
  · rw [if_neg hquote, List.singleton_append, foldLines_word hblank hbreak, List.cons_append,
      quotedBody_word hc hblank (fun h => absurd h Bool.false_ne_true) fun _ => hquote,
      h _ (.word cs)]
    simp [Gap.text, Text.ofChars]

end ReadsSingle

theorem readsSingle (hindent : 0 < indent) (hrest : rest.head? ≠ some '\'')
    (hcs : ∀ c ∈ cs, IsOrdinary c) (hsingle : allowsSingle cs = true) :
    ReadsSingle breaks indent rest cs := by
  induction cs with
  | nil =>
    intro before g column _
    rw [List.append_nil]
    exact quotedBody_closingSingle hrest
  | cons c cs ih =>
    have ih := ih (fun d hd => hcs d (List.mem_cons_of_mem c hd)) (allowsSingle_of_cons hsingle)
    by_cases hblank : c = ' '
    · subst hblank
      exact ih.blank hindent (head?_ne_of_allowsSingle_blank hsingle)
    · by_cases hbreak : c = '\n'
      · subst hbreak
        exact ih.lineBreak hindent (head?_ne_of_allowsSingle_break hsingle)
      · exact ih.word ((hcs c List.mem_cons_self).resolve_left hbreak) hblank hbreak

/-- A text between single quotes is read back. -/
theorem quotedBody_foldLines (hindent : 0 < indent) (hcs : ∀ c ∈ cs, IsOrdinary c)
    (hsingle : allowsSingle cs = true) (hrest : rest.head? ≠ some '\'')
    (hg : Skipped before g cs) :
    quotedBody false g
      (foldLines breaks indent column before (quotesDoubled cs) ++ '\'' :: rest) =
        .ok (Text.ofChars (g.text ++ cs), rest) :=
  readsSingle hindent hrest hcs hsingle column hg

end

/-! ## Without quotes -/

/-- Where a scalar without quotes ends: what follows it is no part of it, of which `rest` is left
when the blanks in front are taken away, with a line break among them if `crossed`. -/
def EndsPlain (inner : Nat) (tail rest : List Char) (crossed : Bool) : Prop :=
  ∀ column, plainBody false inner column (.blanks []) tail = ⟨[], rest, crossed⟩

section

variable {breaks : Bool} {inner indent column column' : Nat} {before : Before} {g : Gap}
  {cs tail rest : List Char} {crossed : Bool}

theorem plainBody_blank (bs : List Char) : plainBody false inner column (.blanks bs) (' ' :: cs) =
    plainBody false inner (column + 1) (.blanks (' ' :: bs)) cs := by
  rw [plainBody]
  rfl

theorem plainBody_blanks (hg : ∀ c, g.space c = g) (n : Nat) :
    plainBody false inner column g (blanks n ++ cs) = plainBody false inner (column + n) g cs := by
  induction n generalizing column with
  | zero => rfl
  | succ n ih =>
    have hstep : blanks (n + 1) ++ cs = ' ' :: (blanks n ++ cs) := rfl
    rw [hstep, plainBody, if_pos (by decide), hg, ih]
    congr 1
    omega

/-- A line break and the blanks behind it. -/
theorem plainBody_newline (hindent : 0 < indent) : plainBody false inner column (.blanks [])
    (newline indent ++ cs) = plainBody false inner indent (.folded '\n' []) cs := by
  have hblanks : plainBody false inner 0 (.folded '\n' []) (blanks indent ++ cs) =
      plainBody false inner (0 + indent) (.folded '\n' []) cs :=
    plainBody_blanks (fun _ => rfl) indent
  rw [newline, List.cons_append, plainBody, if_neg (by decide), if_pos (by decide),
    separatorAhead_blanks hindent, if_neg (by decide)]
  rwa [Nat.zero_add] at hblanks

/-- A scalar ends in front of a line that begins too early. -/
theorem plainBody_outdented {c : Char} (hc : IsPrintable c) (hblank : c ≠ ' ')
    (hg : g.isCrossed = true) (hcolumn : column < inner) :
    plainBody false inner column g (c :: cs) = ⟨[], c :: cs, true⟩ := by
  rw [plainBody]
  simp [hblank, hc.isBreak_eq_false, hg, hcolumn]

/-- A character that is neither a blank nor ends the scalar stands for itself. -/
theorem plainBody_word {c : Char} (hc : IsPrintable c) (hblank : c ≠ ' ')
    (hend : endsPlain false c cs = false) (hhash : g.isNone = false → c ≠ '#')
    (hcolumn : g.isCrossed = true → inner ≤ column) :
    plainBody false inner column g (c :: cs) =
      { plainBody false inner column (.blanks []) cs with
        text := g.text ++ c :: (plainBody false inner column (.blanks []) cs).text } := by
  have hgap : (!g.isNone && c == '#') = false := by
    cases hg : g.isNone with
    | true => rfl
    | false => simpa using hhash hg
  have hinside : (g.isCrossed && decide (column < inner)) = false := by
    cases hg : g.isCrossed with
    | true => simpa using hcolumn hg
    | false => rfl
  rw [plainBody]
  simp [hblank, hc.isBreak_eq_false, hend, hgap, hinside]

theorem holdsIndicator_cons {atGap : Bool} {c : Char} (h : holdsIndicator atGap (c :: cs) = false) :
    (c = ':' → endsWord cs = false) ∧ (atGap = true → c ≠ '#') ∧
      holdsIndicator (c == ' ' || c == '\n') cs = false := by
  simp only [holdsIndicator, Bool.or_eq_false_iff, Bool.and_eq_false_iff, beq_eq_false_iff_ne] at h
  refine ⟨fun hc => ?_, fun hgap => ?_, h.2⟩
  · exact h.1.1.resolve_left (absurd hc)
  · exact h.1.2.resolve_right (by simp [hgap])

/-- Folding keeps a word where it is. -/
theorem gapAhead_foldLines (hcs : ∀ c ∈ cs, IsPrintable c) (hword : endsWord cs = false) :
    gapAhead (foldLines breaks indent column .word cs ++ tail) = false := by
  match cs, hword with
  | d :: ds, hword =>
    simp only [endsWord, Bool.or_eq_false_iff, beq_eq_false_iff_ne] at hword
    have hd := hcs d List.mem_cons_self
    rw [foldLines_word hword.1 hword.2, List.cons_append, gapAhead,
      hd.isSpace_eq_false hword.1, hd.isBreak_eq_false]
    rfl

/-- A colon inside a scalar without quotes stands in front of a word. -/
theorem endsPlain_foldLines {c : Char} (hc : IsPrintable c) (hcs : ∀ d ∈ cs, IsPrintable d)
    (hcolon : c = ':' → endsWord cs = false) :
    endsPlain false c (foldLines breaks indent column .word cs ++ tail) = false := by
  have htab : c ≠ '\t' := by
    rintro rfl
    exact absurd hc (by decide)
  by_cases h : c = ':'
  · simp [endsPlain, htab, gapAhead_foldLines hcs (hcolon h)]
  · simp [endsPlain, htab, h]

/-- Whether characters without quotes are read back, whatever was skipped in front of them and up to
where something else begins. At the end of the scalar nothing may have been skipped. -/
def ReadsPlain (breaks : Bool) (inner indent : Nat) (tail rest : List Char) (crossed : Bool)
    (cs : List Char) : Prop :=
  ∀ ⦃before : Before⦄ ⦃g : Gap⦄ (column column' : Nat),
    holdsIndicator (before != .word) cs = false → (cs = [] → g = .blanks []) →
    Skipped before g cs → (g.isCrossed = true → inner ≤ column') →
      plainBody false inner column' g (foldLines breaks indent column before cs ++ tail) =
        ⟨g.text ++ cs, rest, crossed⟩

namespace ReadsPlain

theorem blank (hindent : 0 < indent) (hinner : inner ≤ indent) (hne : cs ≠ [])
    (hnext : cs.head? ≠ some '\n') (h : ReadsPlain breaks inner indent tail rest crossed cs) :
    ReadsPlain breaks inner indent tail rest crossed (' ' :: cs) := by
  intro before g column column' hmarks hend hg hcolumn
  have hmarks : holdsIndicator (Before.blank != .word) cs = false :=
    (holdsIndicator_cons hmarks).2.2
  rw [foldLines_blank]
  split
  · next hfold =>
    simp only [Bool.and_eq_true, beq_iff_eq] at hfold
    obtain ⟨⟨⟨-, rfl⟩, -⟩, hword⟩ := hfold
    cases hg
    rw [List.append_assoc, plainBody_newline hindent]
    exact h _ _ hmarks (fun h => absurd h hne) (.of_startsWord hword hnext) fun _ => hinner
  · obtain ⟨bs, rfl⟩ := hg.exists_blanks
    rw [List.cons_append, plainBody_blank, h _ _ hmarks (fun h => absurd h hne) (.blank _ hnext)
      fun h => absurd h Bool.false_ne_true]
    simp [Gap.text]

theorem word {c : Char} (hc : IsPrintable c) (hcs : ∀ d ∈ cs, IsPrintable d) (hblank : c ≠ ' ')
    (h : ReadsPlain breaks inner indent tail rest crossed cs) :
    ReadsPlain breaks inner indent tail rest crossed (c :: cs) := by
  intro before g column column' hmarks hend hg hcolumn
  obtain ⟨hcolon, hhash, hmarks⟩ := holdsIndicator_cons hmarks
  have hbreak : c ≠ '\n' := by
    rintro rfl
    exact absurd hc (by decide)
  have hhash : g.isNone = false → c ≠ '#' := by
    intro hgap
    refine hhash ?_
    cases hg with
    | word => cases hgap
    | _ => rfl
  have hmarks : holdsIndicator (Before.word != .word) cs = false := by
    rwa [beq_eq_false_iff_ne.2 hblank, beq_eq_false_iff_ne.2 hbreak] at hmarks
  rw [foldLines_word hblank hbreak, List.cons_append, plainBody_word hc hblank
    (endsPlain_foldLines hc hcs hcolon) hhash hcolumn, h _ _ hmarks (fun _ => rfl) (.word cs)
    fun h => absurd h Bool.false_ne_true]
  simp [Gap.text]

end ReadsPlain

theorem readsPlain (hindent : 0 < indent) (hinner : inner ≤ indent)
    (htail : EndsPlain inner tail rest crossed) (hcs : ∀ c ∈ cs, IsPrintable c)
    (hlast : cs.getLast? ≠ some ' ') : ReadsPlain breaks inner indent tail rest crossed cs := by
  induction cs with
  | nil =>
    intro before g column column' _ hend _ _
    rw [hend rfl]
    exact htail column'
  | cons c cs ih =>
    have hcs' : ∀ d ∈ cs, IsPrintable d := fun d hd => hcs d (List.mem_cons_of_mem c hd)
    have hlast' : cs.getLast? ≠ some ' ' := by
      cases cs with
      | nil => simp
      | cons d ds => rwa [List.getLast?_cons_of_ne_nil (List.cons_ne_nil d ds)] at hlast
    by_cases hblank : c = ' '
    · subst hblank
      have hne : cs ≠ [] := by
        rintro rfl
        exact hlast rfl
      have hnext : cs.head? ≠ some '\n' := fun h =>
        absurd (hcs' _ (List.mem_of_mem_head? h)) (by decide)
      exact (ih hcs' hlast').blank hindent hinner hne hnext
    · exact (ih hcs' hlast').word (hcs c List.mem_cons_self) hcs' hblank

/-- A text without quotes is read back, up to where something else begins. -/
theorem plainBody_foldLines (hindent : 0 < indent) (hinner : inner ≤ indent)
    (htail : EndsPlain inner tail rest crossed) (hcs : ∀ c ∈ cs, IsPrintable c)
    (hmarks : holdsIndicator (before != .word) cs = false) (hlast : cs.getLast? ≠ some ' ')
    (hend : cs = [] → g = .blanks []) (hg : Skipped before g cs)
    (hcolumn : g.isCrossed = true → inner ≤ column') :
    plainBody false inner column' g (foldLines breaks indent column before cs ++ tail) =
      ⟨g.text ++ cs, rest, crossed⟩ :=
  readsPlain hindent hinner htail hcs hlast column column' hmarks hend hg hcolumn

end

end ShapeAlgebra.Yaml
