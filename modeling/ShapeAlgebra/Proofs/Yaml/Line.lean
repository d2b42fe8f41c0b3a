import ShapeAlgebra.Proofs.Yaml.Lexing
import ShapeAlgebra.Yaml.Printer

/-!
# The tokens on a line in block style

Marks, keys, scalars and empty collections as they stand on the lines of a block, and how the reader
gets over the end of a line to the next one.

Results:

* `Yaml.Lexer.goesOn_writeScalar`: a scalar is read as one token, whatever follows it.
* `Yaml.Lexer.goesOn_brackets`: an empty collection is read as two tokens.
* `Yaml.Lexer.reaches_simpleKey`: so is a key with its colon, and the first one opens a block.
* `Yaml.Lexer.next_mark`: a mark in front of a node on the same line.
-/

namespace ShapeAlgebra.Yaml

/-! ## What follows a node -/

/-- What may stand behind a node in a block whose lines begin at `inner` or behind it: the end of
the text, perhaps on a line of its own, or a line that begins at an earlier column `m`. -/
inductive Behind (inner : Nat) : (after next : List Char) → (m : Nat) → Prop
  | textEnd (m : Nat) : Behind inner [] [] m
  | lastLine (m : Nat) : Behind inner ['\n'] [] m
  | line {m : Nat} {c : Char} (cs : List Char) (hm : m < inner) (hc : BeginsToken c) :
      Behind inner (newline m ++ c :: cs) (c :: cs) m

/-- What is skipped behind a node, so that reading goes on with `next` at column `m`: nothing, or a
line break with what follows it. -/
def Follows (after next : List Char) (m : Nat) : Prop :=
  ∃ gap, after = gap ++ next ∧ (next ≠ [] → gap = newline m) ∧
    skipGap false after = (next, !gap.isEmpty) ∧ skipGap false next = (next, false) ∧
    next.head? ≠ some '\uFEFF' ∧ after.head? ≠ some '\uFEFF'

theorem Follows.of_beginsToken {c : Char} (cs : List Char) (m : Nat) (hc : BeginsToken c) :
    Follows (newline m ++ c :: cs) (c :: cs) m := by
  refine ⟨newline m, rfl, fun _ => rfl, ?_, skipGap_of_beginsToken hc, ?_, by simp [newline]⟩
  · rw [skipGap_newline, skipGap_of_beginsToken hc]
    rfl
  · intro h
    cases h
    exact absurd hc (by decide)

namespace Behind

variable {inner inner' m : Nat} {after next : List Char}

theorem mono (h : Behind inner after next m) (hle : inner ≤ inner') :
    Behind inner' after next m := by
  cases h with
  | textEnd => exact .textEnd m
  | lastLine => exact .lastLine m
  | line cs hm hc => exact .line cs (Nat.lt_of_lt_of_le hm hle) hc

theorem lt (h : Behind inner after next m) (hne : next ≠ []) : m < inner := by
  cases h with
  | textEnd => exact absurd rfl hne
  | lastLine => exact absurd rfl hne
  | line cs hm hc => exact hm

theorem head? (h : Behind inner after next m) : after.head? = none ∨ after.head? = some '\n' := by
  cases h with
  | textEnd => exact .inl rfl
  | lastLine => exact .inr rfl
  | line => exact .inr rfl

theorem follows (h : Behind inner after next m) : Follows after next m := by
  cases h with
  | textEnd => exact ⟨[], rfl, fun h => absurd rfl h, rfl, rfl, nofun, nofun⟩
  | lastLine => exact ⟨['\n'], rfl, fun h => absurd rfl h, rfl, rfl, nofun, by decide⟩
  | line cs hm hc => exact .of_beginsToken cs m hc

/-- A plain scalar ends there. -/
theorem endsPlain (h : Behind inner after next m) : EndsPlain inner after next !after.isEmpty := by
  intro column
  cases h with
  | textEnd => rfl
  | lastLine => rfl
  | @line m c cs hm hc =>
    have hstop : plainBody false inner m (.folded '\n' []) (c :: cs) = ⟨[], c :: cs, true⟩ :=
      plainBody_outdented hc.1 hc.2.1 rfl hm
    cases m with
    | zero =>
      have hline : newline 0 ++ c :: cs = '\n' :: c :: cs := rfl
      rw [hline, plainBody, if_neg (by decide), if_pos (by decide)]
      split
      · rfl
      · exact hstop
    | succ m => exact (plainBody_newline (Nat.succ_pos m)).trans hstop

end Behind

namespace Lexer

/-- Whether a scalar that is read at `l` may end at `after`, so that reading goes on with `next` at
column `m`. A plain scalar takes what is skipped with it, up to the last of the line breaks. -/
structure Leaves (l : Lexer) (plain : Bool) (after next : List Char) (m : Nat) : Prop where
  follows : Follows after next m
  ends : ∃ rest crossed, l.Ends plain after rest crossed ∧
    (rest = after ∧ crossed = false ∨ rest = next ∧ crossed = true)

theorem leaves_of_behind {l : Lexer} {after next : List Char} {m : Nat}
    (h : Behind l.innerColumn after next m) (plain : Bool) : l.Leaves plain after next m := by
  refine ⟨h.follows, ?_⟩
  have hafter : ∀ c ∈ ['\'', '-', '.'], after.head? ≠ some c := by
    intro c hc hhead
    rcases h.head? with h | h
    · rw [h] at hhead
      cases hhead
    · rw [h] at hhead
      cases hhead
      exact absurd hc (by decide)
  cases plain with
  | false => exact ⟨after, false, ⟨hafter, rfl, rfl⟩, .inl ⟨rfl, rfl⟩⟩
  | true =>
    refine ⟨next, !after.isEmpty, ⟨hafter, h.endsPlain⟩, ?_⟩
    cases h with
    | textEnd => exact .inl ⟨rfl, rfl⟩
    | lastLine => exact .inr ⟨rfl, rfl⟩
    | line => exact .inr ⟨rfl, rfl⟩

section

variable {l : Lexer} {inner m : Nat} {next after : List Char}

/-- Where the reader arrives behind a node, if `gap` has still to be skipped. -/
theorem arrives_gap (gap : List Char) {crossed : Bool} {ts : List Token} {indents : List Nat}
    {p : Cursor} (hl : l.tokens = ts ∧ l.indents = indents ∧ l.around = [] ∧
      l.place.behind gap next = p) (hrest : l.place.rest = gap ++ next)
    (hmark : (gap ++ next).head? ≠ some '\uFEFF')
    (hskip : skipGap false (gap ++ next) = (next, crossed))
    (hkey : ∀ k, l.possible = some k → k.required = false ∧
      (next ≠ [] → k.line ≠ l.place.line + gap.countP isBreak))
    (hallowed : next ≠ [] → (l.keyAllowed || crossed) = true) :
    Arrives l (inBlock p ts indents true) := by
  obtain ⟨rfl, rfl, hflow, rfl⟩ := hl
  have hinFlow : l.inFlow = false := by rw [inFlow, hflow]; rfl
  have hat := atToken_eq hrest hmark hskip
  rw [dropStaleKeys_eq] at hat
  · refine ⟨_, hat, rfl, fun hne => ?_, fun hnil => ?_⟩
    · have hpossible :
          (l.possible.filter fun k => !isStale (l.place.behind gap next) k) = none := by
        rw [Option.filter_eq_none_iff]
        intro k hk
        have hline : (k.line != l.place.line + gap.countP isBreak) = true :=
          bne_iff_ne.2 ((hkey k hk).2 hne)
        simp [isStale, Cursor.behind, hline]
      simp only [hpossible, hflow, List.map_nil, hinFlow, Bool.not_false, Bool.and_true,
        hallowed hne]
      rfl
    · simp only [finish, forgetKey, closeAllBlocks]
      split
      · next k hk =>
        obtain ⟨hk, -⟩ := Option.filter_eq_some_iff.1 hk
        rw [(hkey k hk).1]
        exact ⟨_, rfl, rfl⟩
      · exact ⟨_, rfl, rfl⟩
  · intro k hk _
    rw [hflow, List.mem_singleton] at hk
    exact (hkey k hk.symm).1

end

section

variable {p : Cursor} {ts : List Token} {indents : List Nat} {keyAllowed crossed : Bool}
  {inner m : Nat} {xs after next rest : List Char} {t : Token}

theorem behindScalar_eq (ts : List Token) (indents : List Nat) (keyAllowed : Bool) (t : Token)
    (crossed : Bool) (hrest : p.rest = xs ++ rest) :
    ((inBlock p ts indents keyAllowed).behindScalar t rest crossed).tokens = t :: ts ∧
    ((inBlock p ts indents keyAllowed).behindScalar t rest crossed).indents = indents ∧
    ((inBlock p ts indents keyAllowed).behindScalar t rest crossed).around = [] ∧
    ((inBlock p ts indents keyAllowed).behindScalar t rest crossed).place = p.behind xs rest := by
  rw [← Cursor.moveTo_append hrest]
  simp [behindScalar, put, moveTo, inBlock]

theorem optional_of_remembered {k : PossibleKey}
    (hkey : keyAllowed = true → indents.head? ≠ some p.column)
    (h : (inBlock p ts indents keyAllowed).remembered.possible = some k) :
    k.required = false ∧ k.line = p.line := by
  cases keyAllowed with
  | false => cases h
  | true =>
    have hk : k = ⟨ts.length, !(inBlock p ts indents true).inFlow &&
        indents.head? == some p.column, p.index, p.line, p.column⟩ := by
      cases h
      rfl
    rw [hk]
    exact ⟨by simp [hkey rfl], rfl⟩

/-- Where the reader arrives behind a scalar. -/
theorem arrives_behindScalar (ts : List Token) (t : Token) (hrest : p.rest = xs ++ after)
    (h : Follows after next m)
    (hkey : keyAllowed = true → indents.head? ≠ some p.column)
    (hread : rest = after ∧ crossed = false ∨ rest = next ∧ crossed = true) :
    ∃ p', Arrives ((inBlock p ts indents keyAllowed).behindScalar t rest crossed)
        (inBlock p' (t :: ts) indents true) ∧ p'.rest = next ∧ (next ≠ [] → p'.column = m) := by
  obtain ⟨gap, rfl, hgap, hskip, hskip', hmark, hmark'⟩ := h
  have hbreaks : next ≠ [] → 0 < gap.countP isBreak := by
    intro hne
    rw [hgap hne, newline, List.countP_cons_of_pos (by decide)]
    omega
  have hcolumn : ∀ column, next ≠ [] → columnBehind column gap = m := by
    intro column hne
    rw [hgap hne, columnBehind_newline]
  have hoptional : ∀ {rest crossed k},
      ((inBlock p ts indents keyAllowed).behindScalar t rest crossed).possible = some k →
        k.required = false ∧ k.line = p.line :=
    fun hk => optional_of_remembered hkey hk
  rcases hread with ⟨rfl, rfl⟩ | ⟨rfl, rfl⟩
  · obtain ⟨htokens, hindents, hflow, hplace⟩ := behindScalar_eq ts indents keyAllowed
      t false hrest
    refine ⟨(p.behind xs (gap ++ next)).behind gap next, ?_, rfl, hcolumn _⟩
    refine arrives_gap gap ⟨htokens, hindents, hflow, by rw [hplace]⟩ (by rw [hplace]; rfl)
      hmark' hskip ?_ ?_
    · intro k hk
      obtain ⟨hrequired, hline⟩ := hoptional hk
      refine ⟨hrequired, fun hne => ?_⟩
      have := hbreaks hne
      rw [hplace, hline, Cursor.behind]
      simp only
      omega
    · intro hne
      rw [hgap hne]
      simp [newline]
  · have hrest' : p.rest = (xs ++ gap) ++ rest := by rw [hrest, List.append_assoc]
    obtain ⟨htokens, hindents, hflow, hplace⟩ := behindScalar_eq ts indents keyAllowed
      t true hrest'
    refine ⟨(p.behind (xs ++ gap) rest).behind [] rest, ?_, rfl, fun hne => ?_⟩
    · refine arrives_gap [] ⟨htokens, hindents, hflow, by rw [hplace]⟩ (by rw [hplace]; rfl)
        hmark hskip' ?_ (fun _ => rfl)
      intro k hk
      obtain ⟨hrequired, hline⟩ := hoptional hk
      refine ⟨hrequired, fun hne => ?_⟩
      have := hbreaks hne
      rw [hplace, hline, Cursor.behind]
      simp only [List.countP_append]
      omega
    · exact (columnBehind_append _ _ _).trans (hcolumn _ hne)

end

/-! ## Scalars -/

/-- Whether the reader gets from `l` over a node and what is skipped behind it, so that with tokens
`ts` and open blocks `indents` it goes on with `next` at column `m`. -/
abbrev GoesOn (l : Lexer) (ts : List Token) (indents : List Nat) (next : List Char) (m : Nat) :
    Prop :=
  ∃ l' p', Reaches l l' ∧ Arrives l' (inBlock p' ts indents true) ∧ p'.rest = next ∧
    (next ≠ [] → p'.column = m)

section

variable {l : Lexer} {p : Cursor} {ts : List Token} {indents : List Nat} {keyAllowed : Bool}
  {m : Nat} {xs after next : List Char}

/-- What is read as one token, however it ends. -/
theorem goesOn_of_token {plain : Bool} {t : Text}
    (hl : Arrives l (inBlock p ts indents keyAllowed)) (hrest : p.rest = xs ++ after)
    (hxs : xs ≠ []) (hfits : ∀ i, indents.head? = some i → i ≤ p.column)
    (hkey : keyAllowed = true → indents.head? ≠ some p.column)
    (h : (inBlock p ts indents keyAllowed).Leaves plain after next m)
    (htoken : ∀ rest crossed, (inBlock p ts indents keyAllowed).Ends plain after rest crossed →
      ∃ c cs, xs ++ after = c :: cs ∧ (p.rest = c :: cs →
        (inBlock p ts indents keyAllowed).token c cs =
          .ok ((inBlock p ts indents keyAllowed).behindScalar (.scalar plain t) rest crossed))) :
    l.GoesOn (.scalar plain t :: ts) indents next m := by
  obtain ⟨rest, crossed, hends, hread⟩ := h.ends
  obtain ⟨c, cs, hcs, htoken⟩ := htoken rest crossed hends
  obtain ⟨p', harrives, hnext, hcolumn⟩ :=
    arrives_behindScalar ts (.scalar plain t) hrest h.follows hkey hread
  obtain ⟨ys, hys, hrest'⟩ : ∃ ys, 0 < ys.length ∧ p.rest = ys ++ rest := by
    have hpos : 0 < xs.length := List.length_pos_iff.2 hxs
    obtain ⟨gap, hafter, -⟩ := h.follows
    rcases hread with ⟨rfl, -⟩ | ⟨rfl, -⟩
    · exact ⟨xs, hpos, hrest⟩
    · refine ⟨xs ++ gap, ?_, by rw [hrest, hafter, List.append_assoc]⟩
      rw [List.length_append]
      omega
  obtain ⟨-, -, -, hplace⟩ := behindScalar_eq ts indents keyAllowed (.scalar plain t) crossed hrest'
  refine ⟨_, p', .single (hl.next (hrest.trans hcs) ?_ ?_), harrives, hnext, hcolumn⟩
  · rw [closed_inBlock hfits]
    exact htoken (hrest.trans hcs)
  · rw [hplace, ← hcs, ← hrest, hrest', List.length_append]
    exact Nat.lt_add_of_pos_left hys

/-- A scalar is read as one token, whatever follows it. -/
theorem goesOn_writeScalar {place : Place} {t : Text}
    (hl : Arrives l (inBlock p ts indents keyAllowed))
    (hrest : p.rest = writeScalar place t ++ after)
    (hfits : ∀ i, indents.head? = some i → i ≤ p.column)
    (hkey : keyAllowed = true → indents.head? ≠ some p.column) (hindent : 0 < place.indent)
    (hinner : (inBlock p ts indents keyAllowed).innerColumn ≤ place.indent)
    (hkeeps : place.Keeps t)
    (h : (inBlock p ts indents keyAllowed).Leaves (Style.of t == .plain) after next m) :
    l.GoesOn (.scalar (Style.of t == .plain) t :: ts) indents next m := by
  have hne : writeScalar place t ≠ [] := by
    obtain ⟨c, cs, hcs, -⟩ := writeScalar_begins place t
    rw [hcs]
    exact List.cons_ne_nil c cs
  refine goesOn_of_token hl hrest hne hfits hkey h fun rest crossed hends => ?_
  obtain ⟨c, cs, hcs, htoken⟩ :=
    token_writeScalar (l := inBlock p ts indents keyAllowed) rfl rfl hindent hinner hkeeps hends
  exact ⟨c, cs, hcs, htoken⟩

theorem isPlain_boolWord (b : Bool) : IsPlain (boolWord b) := by
  cases b with
  | false =>
    exact ⟨forall_of_all (by decide), by decide, by decide, by decide, by decide, by decide,
      by decide⟩
  | true =>
    exact ⟨forall_of_all (by decide), by decide, by decide, by decide, by decide, by decide,
      by decide⟩

/-- A truth value is read as one token, whatever follows it. -/
theorem goesOn_boolWord {b : Bool} (hl : Arrives l (inBlock p ts indents keyAllowed))
    (hrest : p.rest = boolWord b ++ after)
    (hfits : ∀ i, indents.head? = some i → i ≤ p.column)
    (hkey : keyAllowed = true → indents.head? ≠ some p.column)
    (h : (inBlock p ts indents keyAllowed).Leaves true after next m) :
    l.GoesOn (.scalar true (Text.ofChars (boolWord b)) :: ts) indents next m := by
  have hplain := isPlain_boolWord b
  refine goesOn_of_token hl hrest hplain.nonempty hfits hkey h fun rest crossed hends => ?_
  have hline : '\n' ∉ boolWord b := fun hmem => absurd (hplain.printable _ hmem) (by decide)
  have hunbroken := foldLines_unbroken
    ((inBlock p ts indents keyAllowed).innerColumn + 1) 0 .start (boolWord b) hline
  obtain ⟨hafter, hend⟩ := hends
  obtain ⟨c, cs, hcs, htoken⟩ := token_foldLines false 0
    (l := inBlock p ts indents keyAllowed) rfl rfl (Nat.succ_pos _) (Nat.le_succ _) hplain
    ⟨hafter _ (by decide), hafter _ (by decide)⟩ hend
  rw [hunbroken] at hcs
  exact ⟨c, cs, hcs, htoken⟩

end

/-! ## Keys -/

/-- What becomes of the open blocks and the tokens when a line begins at column `n`: it opens a
block if it is deeper than the innermost one, and is a further line of that block otherwise. -/
inductive Opens (t : Token) (n : Nat) (indents : List Nat) (ts : List Token) :
    List Nat → List Token → Prop
  | deeper (h : ∀ i, indents.head? = some i → i < n) : Opens t n indents ts (n :: indents) (t :: ts)
  | level (h : indents.head? = some n) : Opens t n indents ts indents ts

section

variable {l : Lexer} {p : Cursor} {ts ts' : List Token} {indents indents' : List Nat} {n : Nat}
  {after : List Char} {k : Text} {t : Token}

theorem Opens.fits (h : Opens t n indents ts indents' ts') :
    ∀ i, indents.head? = some i → i ≤ n := by
  intro i hi
  cases h with
  | deeper h => exact Nat.le_of_lt (h i hi)
  | level h =>
    rw [h, Option.some.injEq] at hi
    exact Nat.le_of_eq hi.symm

theorem Opens.head? (h : Opens t n indents ts indents' ts') : indents'.head? = some n := by
  cases h with
  | deeper => rfl
  | level h => exact h

/-- A block is opened by the first of its lines. -/
theorem isDeeper_eq_false {s : Lexer} (h : s.indents.head? = some n) : s.isDeeper n = false := by
  rw [isDeeper]
  split
  · next hnil =>
    rw [hnil] at h
    cases h
  · next i is hcons =>
    rw [hcons] at h
    cases h
    simp

theorem isDeeper_eq_true {s : Lexer} (h : ∀ i, s.indents.head? = some i → i < n) :
    s.isDeeper n = true := by
  rw [isDeeper]
  split
  · rfl
  · next i is hcons =>
    have hi := h i (by rw [hcons]; rfl)
    simpa using hi

theorem openBlock_of_opens {s : Lexer}
    (hopens : Opens t s.place.column s.indents s.tokens indents' ts') :
    s.openBlock t = { s with indents := indents', tokens := ts' } := by
  cases hopens with
  | deeper h => rw [openBlock, isDeeper_eq_true h, if_pos rfl]
  | level h => rw [openBlock, isDeeper_eq_false h, if_neg (by decide)]

/-- Behind a scalar on one line that is not too long there may still be the colon of a key. -/
theorem isStale_behind {p : Cursor} {xs : List Char} (hprint : ∀ c ∈ xs, IsPrintable c)
    (hreach : xs.length ≤ keyReach) (after : List Char) (number : Nat) (required : Bool) :
    isStale (p.behind xs after) ⟨number, required, p.index, p.line, p.column⟩ = false := by
  have hbreaks : xs.countP isBreak = 0 :=
    List.countP_eq_zero.2 fun c hc => by simp [(hprint c hc).isBreak_eq_false]
  simp only [isStale, Cursor.behind, hbreaks, Nat.add_zero, bne_self_eq_false, Bool.false_or,
    decide_eq_false_iff_not]
  omega

/-- The state behind a scalar that may be a key. -/
def behindKey (p : Cursor) (tokens : List Token) (indents : List Nat) (key : PossibleKey) : Lexer :=
  { place := p, tokens, indents, possible := some key, keyAllowed := false }

/-- The colon behind a key turns the key into the beginning of an entry. -/
theorem value_behindKey {key : PossibleKey} {scalar : Token} (q : Cursor)
    (hnumber : key.number = ts.length)
    (hopens : Opens .blockMapping key.column indents ts indents' ts') :
    (behindKey q (scalar :: ts) indents key).value =
      .ok ((inBlock q (scalar :: .key :: ts') indents' false).single .value) := by
  have hinsert : ∀ new, (inBlock q (scalar :: ts) indents false).insert key.number new =
      inBlock q (scalar :: (new ++ ts)) indents false := by
    intro new
    have hlater : (scalar :: ts).length - key.number = 1 := by
      rw [hnumber, List.length_cons]
      omega
    simp only [insert, inBlock, hlater]
    rfl
  have hvalue : (behindKey q (scalar :: ts) indents key).value =
      if (inBlock q (scalar :: ts) indents false).isDeeper key.column then
        .ok (({ (inBlock q (scalar :: ts) indents false).insert key.number
          [.key, .blockMapping] with indents := key.column :: indents } : Lexer).single .value)
      else .ok (((inBlock q (scalar :: ts) indents false).insert key.number [.key]).single
        .value) := rfl
  rw [hvalue, hinsert, hinsert]
  cases hopens with
  | deeper h =>
    rw [if_pos (isDeeper_eq_true h)]
    rfl
  | level h =>
    rw [if_neg (by rw [isDeeper_eq_false h]; decide)]
    rfl

theorem token_colon {cs : List Char} (h : gapAhead cs = true) : l.token ':' cs = l.value := by
  simp [token, markAhead_cons_of_ne, h]

/-- The colon behind a key. -/
theorem next_colon {q : Cursor} {key : PossibleKey} {scalar : Token} (hrest : q.rest = ':' :: after)
    (hgap : gapAhead after = true) (hkey : isStale q key = false) (hnumber : key.number = ts.length)
    (hfits : ∀ i, indents.head? = some i → i ≤ q.column)
    (hopens : Opens .blockMapping key.column indents ts indents' ts') :
    Next (behindKey q (scalar :: ts) indents key)
      (inBlock (q.behind [':'] after) (.value :: scalar :: .key :: ts') indents' false) := by
  have hat : (behindKey q (scalar :: ts) indents key).atToken =
      .ok (behindKey q (scalar :: ts) indents key) := by
    rw [atToken_of_beginsToken hrest (by decide), dropStaleKeys_eq]
    · simp [behindKey, hkey]
    · intro k hk hstale
      simp only [behindKey, List.mem_singleton, Option.some.injEq] at hk hstale
      rw [hk, hkey] at hstale
      cases hstale
  have hclosed : (behindKey q (scalar :: ts) indents key).closed =
      behindKey q (scalar :: ts) indents key := closeBlocks_of_le hfits
  have hplace : q.moveTo after = q.behind [':'] after := Cursor.moveTo_append hrest
  refine .intro hat hrest ?_ ?_
  · rw [hclosed, token_colon hgap, value_behindKey q hnumber hopens, ← hplace]
    simp only [single, put, moveTo, inBlock, hrest, List.tail_cons]
  · rw [behindKey, hrest]
    exact Nat.lt_succ_self _

/-- A key on one line is remembered where it begins, and can still be one at its colon. -/
theorem next_simpleKey (hl : Arrives l (inBlock p ts indents true))
    (hrest : p.rest = writeScalar ⟨n, n, false⟩ k ++ ':' :: after) (hcolumn : p.column = n)
    (hsimple : isSimpleKey k = true) (hreach : (writeScalar ⟨n, n, false⟩ k).length ≤ keyReach)
    (hgap : gapAhead after = true) (hfits : ∀ i, indents.head? = some i → i ≤ n) :
    ∃ q key, Next l (behindKey q (.scalar (Style.of k == .plain) k :: ts) indents key) ∧
      q.rest = ':' :: after ∧ isStale q key = false ∧ key.number = ts.length ∧ key.column = n ∧
      n ≤ q.column := by
  have hline : isMultiline k = false := by
    simp only [isSimpleKey, Bool.and_eq_true, Bool.not_eq_true'] at hsimple
    exact hsimple.2
  -- the place of a key leaves no room for further lines, and it needs none
  obtain ⟨hsame, hprint⟩ := writeScalar_unbroken hline n
    ((inBlock p ts indents true).innerColumn + 1) n
  have hends : (inBlock p ts indents true).Ends (Style.of k == .plain) (':' :: after) (':' :: after)
      false := by
    refine ⟨by simp, ?_⟩
    split
    · intro column
      rw [plainBody]
      simp [isBreak, endsPlain, hgap, Gap.isCrossed]
    · exact ⟨rfl, rfl⟩
  have hkeeps : (⟨(inBlock p ts indents true).innerColumn + 1, n, false⟩ : Place).Keeps k :=
    .inl rfl
  obtain ⟨c, cs, hcs, htoken⟩ := token_writeScalar (l := inBlock p ts indents true) rfl rfl
    (Nat.succ_pos _) (Nat.le_succ _) hkeeps hends
  rw [← hsame] at hcs
  obtain ⟨x, xs, hxs, -⟩ := writeScalar_begins ⟨n, n, false⟩ k
  have hpos : 0 < (writeScalar ⟨n, n, false⟩ k).length := by rw [hxs]; exact Nat.succ_pos _
  clear hxs
  generalize writeScalar ⟨n, n, false⟩ k = xs at *
  have hstate : (inBlock p ts indents true).behindScalar (.scalar (Style.of k == .plain) k)
      (':' :: after) false = behindKey (p.behind xs (':' :: after))
        (.scalar (Style.of k == .plain) k :: ts) indents
        ⟨ts.length, true && indents.head? == some p.column, p.index, p.line, p.column⟩ := by
    rw [← Cursor.moveTo_append hrest]
    rfl
  have hcolumn' : (p.behind xs (':' :: after)).column = n + xs.length := by
    rw [← hcolumn]
    exact columnBehind_of_printable hprint p.column
  refine ⟨p.behind xs (':' :: after),
    ⟨ts.length, true && indents.head? == some p.column, p.index, p.line, p.column⟩,
    hl.next (hrest.trans hcs) ?_ ?_, rfl, isStale_behind hprint hreach _ _ _, rfl, hcolumn, ?_⟩
  · rw [closed_inBlock (by rwa [hcolumn]), ← hstate]
    exact htoken (hrest.trans hcs)
  · rw [← hcs, List.length_append]
    exact Nat.lt_add_of_pos_left hpos
  · rw [hcolumn']
    exact Nat.le_add_right n _

/-- A key on one line with its colon. -/
theorem reaches_simpleKey (hl : Arrives l (inBlock p ts indents true))
    (hrest : p.rest = writeScalar ⟨n, n, false⟩ k ++ ':' :: after) (hcolumn : p.column = n)
    (hsimple : isSimpleKey k = true) (hreach : (writeScalar ⟨n, n, false⟩ k).length ≤ keyReach)
    (hgap : gapAhead after = true) (hopens : Opens .blockMapping n indents ts indents' ts') :
    ∃ p', Reaches l (inBlock p'
        (.value :: .scalar (Style.of k == .plain) k :: .key :: ts') indents' false) ∧
      p'.rest = after ∧ n < p'.column := by
  obtain ⟨q, key, hstep, hq, hstale, hnumber, hkey, hbehind⟩ :=
    next_simpleKey hl hrest hcolumn hsimple hreach hgap hopens.fits
  have hfits : ∀ i, indents.head? = some i → i ≤ q.column := fun i hi =>
    Nat.le_trans (hopens.fits i hi) hbehind
  have hcolon : Next (behindKey q (.scalar (Style.of k == .plain) k :: ts) indents key) _ :=
    next_colon hq hgap hstale hnumber hfits (by rwa [hkey])
  exact ⟨_, (Relation.ReflTransGen.single hstep).tail hcolon, rfl, Nat.lt_succ_of_le hbehind⟩

end

/-! ## Marks -/

/-- The marks that stand in front of a node on its line, each with its token and that of the block
in whose lines it stands. -/
inductive IsMark : Char → Token → Token → Prop
  | item : IsMark '-' .item .blockSequence
  | key : IsMark '?' .key .blockMapping
  | value : IsMark ':' .value .blockMapping

section

variable {l : Lexer} {p : Cursor} {ts ts' : List Token} {indents indents' : List Nat} {n : Nat}
  {keyAllowed : Bool} {c d : Char} {cs : List Char} {t b : Token}

/-- Behind a blank nothing has changed. -/
theorem arrives_blank (hrest : p.rest = ' ' :: c :: cs) (hc : BeginsToken c) :
    Arrives (inBlock p ts indents keyAllowed)
      (inBlock (p.behind [' '] (c :: cs)) ts indents keyAllowed) := by
  have hskip : skipGap false ([' '] ++ c :: cs) = (c :: cs, false) :=
    (skipGap_blanks 1).trans (skipGap_of_beginsToken hc)
  have hrest' : (inBlock p ts indents keyAllowed).place.rest = [' '] ++ c :: cs := hrest
  have hat := atToken_eq hrest' (by simp) hskip
  rw [Bool.false_and, Bool.or_false, dropStaleKeys_eq (by simp [inBlock])] at hat
  exact ⟨_, hat, rfl, fun _ => rfl, fun hnil => absurd hnil (List.cons_ne_nil c cs)⟩

/-- Behind a line break a key may begin. -/
theorem arrives_newline (ts : List Token) (indents : List Nat) (keyAllowed : Bool)
    (hrest : p.rest = newline n ++ c :: cs) (hc : BeginsToken c) :
    ∃ p', Arrives (inBlock p ts indents keyAllowed) (inBlock p' ts indents true) ∧
      p'.rest = c :: cs ∧ p'.column = n := by
  have hskip : skipGap false (newline n ++ c :: cs) = (c :: cs, true) := by
    rw [skipGap_newline, skipGap_of_beginsToken hc]
  refine ⟨p.behind (newline n) (c :: cs), ?_, rfl, columnBehind_newline _ _⟩
  exact arrives_gap (l := inBlock p ts indents keyAllowed) (newline n) ⟨rfl, rfl, rfl, rfl⟩ hrest
    (by simp [newline]) hskip nofun (fun _ => Bool.or_true _)

theorem token_mark (h : IsMark c t b) (hopens : Opens b p.column indents ts indents' ts') :
    (inBlock p ts indents true).token c (' ' :: cs) =
      .ok ((inBlock p ts' indents' true).single t) := by
  have hopen : (inBlock p ts indents true).openBlock b = inBlock p ts' indents' true :=
    openBlock_of_opens (s := inBlock p ts indents true) hopens
  have hdash : markAhead '-' (c :: ' ' :: cs) = false := markAhead_blank (by decide) c cs
  have hdot : markAhead '.' (c :: ' ' :: cs) = false := markAhead_blank (by decide) c cs
  have hgap : gapAhead (' ' :: cs) = true := rfl
  cases h with
  | item =>
    have htoken : (inBlock p ts indents true).token '-' (' ' :: cs) =
        (inBlock p ts indents true).item := by
      simp [token, hdash, hdot, hgap]
    have hitem : (inBlock p ts indents true).item = (do
        let l ← ({ (inBlock p ts indents true).openBlock .blockSequence with keyAllowed := true } :
          Lexer).forgetKey
        return l.single .item) := rfl
    rw [htoken, hitem, hopen]
    rfl
  | key =>
    have htoken : (inBlock p ts indents true).token '?' (' ' :: cs) =
        (inBlock p ts indents true).explicitKey := by
      simp [token, hdash, hdot, hgap]
    have hkey : (inBlock p ts indents true).explicitKey = (do
        let l := (inBlock p ts indents true).openBlock .blockMapping
        let l ← ({ l with keyAllowed := !l.inFlow } : Lexer).forgetKey
        return l.single .key) := rfl
    rw [htoken, hkey, hopen]
    rfl
  | value =>
    have hvalue : (inBlock p ts indents true).value = (do
        let l := (inBlock p ts indents true).openBlock .blockMapping
        return ({ l with keyAllowed := !l.inFlow } : Lexer).single .value) := rfl
    rw [token_colon hgap, hvalue, hopen]
    rfl

theorem IsMark.beginsToken (h : IsMark c t b) : BeginsToken c := by
  cases h <;> decide

/-- A mark in front of a node on the same line. -/
theorem next_mark (hl : Arrives l (inBlock p ts indents true)) (h : IsMark c t b)
    (hrest : p.rest = c :: ' ' :: d :: cs) (hd : BeginsToken d) (hcolumn : p.column = n)
    (hopens : Opens b n indents ts indents' ts') :
    ∃ l' p', Next l l' ∧ Arrives l' (inBlock p' (t :: ts') indents' true) ∧
      p'.rest = d :: cs ∧ p'.column = n + 2 := by
  have hfits : ∀ i, indents.head? = some i → i ≤ p.column := by
    rw [hcolumn]
    exact hopens.fits
  have hsingle : (inBlock p ts' indents' true).single t =
      inBlock (p.behind [c] (' ' :: d :: cs)) (t :: ts') indents' true := by
    have hplace : p.moveTo (' ' :: d :: cs) = p.behind [c] (' ' :: d :: cs) :=
      Cursor.moveTo_append hrest
    rw [← hplace]
    simp only [single, put, moveTo, inBlock, hrest, List.tail_cons]
  have harrives : Arrives (inBlock (p.behind [c] (' ' :: d :: cs)) (t :: ts') indents' true)
      (inBlock ((p.behind [c] (' ' :: d :: cs)).behind [' '] (d :: cs)) (t :: ts') indents' true) :=
    arrives_blank rfl hd
  refine ⟨_, _, hl.next hrest ?_ ?_, harrives, rfl, ?_⟩
  · rw [closed_inBlock hfits, token_mark h (by rw [hcolumn]; exact hopens), hsingle]
  · exact Nat.lt_succ_self _
  · have hprint : ∀ x ∈ [c, ' '], IsPrintable x := by
      simpa using ⟨h.beginsToken.1, (by decide : IsPrintable ' ')⟩
    have hbehind : ((p.behind [c] (' ' :: d :: cs)).behind [' '] (d :: cs)).column =
        columnBehind p.column [c, ' '] := rfl
    rw [hbehind, columnBehind_of_printable hprint, hcolumn]
    rfl

end

/-! ## Empty collections -/

/-- The brackets of empty collections, with their tokens. -/
inductive IsBrackets : Char → Char → Token → Token → Prop
  | sequence : IsBrackets '[' ']' .flowSequence .flowSequenceEnd
  | mapping : IsBrackets '\x7b' '\x7d' .flowMapping .flowMappingEnd

section

variable {l : Lexer} {p : Cursor} {ts : List Token} {indents : List Nat} {m : Nat}
  {keyAllowed : Bool} {c d : Char} {cs after next : List Char} {s t : Token}

theorem token_opening (h : IsBrackets c d s t) : l.token c cs = l.openBracket s := by
  cases h <;> simp [token, markAhead_cons_of_ne]

theorem token_closing (h : IsBrackets c d s t) : l.token d cs = l.closeBracket t := by
  cases h <;> simp [token, markAhead_cons_of_ne]

theorem IsBrackets.beginsToken (h : IsBrackets c d s t) : BeginsToken c ∧ BeginsToken d := by
  cases h <;> decide

/-- The state inside the brackets of an empty collection, around which `key` is remembered. -/
def inBrackets (p : Cursor) (tokens : List Token) (indents : List Nat) (key : Option PossibleKey) :
    Lexer :=
  { place := p, tokens, indents, around := [key] }

/-- The state behind the brackets of an empty collection. -/
def behindBrackets (p : Cursor) (tokens : List Token) (indents : List Nat)
    (key : Option PossibleKey) : Lexer :=
  { place := p, tokens, indents, possible := key, keyAllowed := false }

theorem openBracket_inBlock (hrest : p.rest = c :: cs) :
    (inBlock p ts indents keyAllowed).openBracket s = .ok (inBrackets (p.behind [c] cs) (s :: ts)
      indents (inBlock p ts indents keyAllowed).remembered.possible) := by
  have hopen : (inBlock p ts indents keyAllowed).openBracket s =
      (inBlock p ts indents keyAllowed).rememberKey.map fun l =>
        ({ l with around := l.possible :: l.around, possible := none, keyAllowed := true } :
          Lexer).single s := rfl
  have hplace : p.moveTo cs = p.behind [c] cs := Cursor.moveTo_append hrest
  rw [hopen, rememberKey_of_none rfl, ← hplace]
  simp [Except.map, single, put, moveTo, inBlock, inBrackets, hrest]

theorem closeBracket_inBrackets {key : Option PossibleKey} (hrest : p.rest = d :: cs) :
    (inBrackets p ts indents key).closeBracket t =
      .ok (behindBrackets (p.behind [d] cs) (t :: ts) indents key) := by
  have hclose : (inBrackets p ts indents key).closeBracket t =
      .ok ((behindBrackets p ts indents key).single t) := rfl
  have hplace : p.moveTo cs = p.behind [d] cs := Cursor.moveTo_append hrest
  rw [hclose, ← hplace]
  simp [single, put, moveTo, behindBrackets, hrest]

/-- An empty collection is read as two tokens, whatever follows it. -/
theorem goesOn_brackets (hl : Arrives l (inBlock p ts indents keyAllowed))
    (h : IsBrackets c d s t) (hrest : p.rest = c :: d :: after)
    (hfits : ∀ i, indents.head? = some i → i ≤ p.column)
    (hkey : keyAllowed = true → indents.head? ≠ some p.column) (hfollows : Follows after next m) :
    l.GoesOn (t :: s :: ts) indents next m := by
  obtain ⟨hc, hd⟩ := h.beginsToken
  have hoptional : ∀ k, (inBlock p ts indents keyAllowed).remembered.possible = some k →
      k.required = false ∧ k.line = p.line := fun k hk => optional_of_remembered hkey hk
  have hopening : Next l (inBrackets (p.behind [c] (d :: after)) (s :: ts) indents
      (inBlock p ts indents keyAllowed).remembered.possible) := by
    refine hl.next hrest ?_ (Nat.lt_succ_self _)
    rw [closed_inBlock hfits, token_opening h, openBracket_inBlock hrest]
  generalize (inBlock p ts indents keyAllowed).remembered.possible = key at *
  have hplace : (p.behind [c] (d :: after)).rest = d :: after := rfl
  have hline : p.line ≤ (p.behind [c] (d :: after)).line := Nat.le_add_right ..
  generalize p.behind [c] (d :: after) = q at *
  obtain ⟨key', hkey', hat⟩ : ∃ key', (∀ k, key' = some k → key = some k) ∧
      (inBrackets q (s :: ts) indents key).atToken = .ok (inBrackets q (s :: ts) indents key') := by
    refine ⟨key.filter fun k => !isStale q k,
      fun k hk => (Option.filter_eq_some_iff.1 hk).1, ?_⟩
    rw [atToken_of_beginsToken hplace hd, dropStaleKeys_eq]
    · rfl
    · intro k hk _
      simp only [inBrackets, List.mem_cons, List.not_mem_nil, or_false, reduceCtorEq,
        false_or] at hk
      exact (hoptional k hk.symm).1
  have hclosing : Next (inBrackets q (s :: ts) indents key)
      (behindBrackets (q.behind [d] after) (t :: s :: ts) indents key') := by
    refine .intro hat hplace ?_ ?_
    · have hclosed : (inBrackets q (s :: ts) indents key').closed =
          inBrackets q (s :: ts) indents key' := rfl
      rw [hclosed, token_closing h, closeBracket_inBrackets hplace]
    · have hshort : (inBrackets q (s :: ts) indents key).place.rest = d :: after := hplace
      rw [hshort]
      exact Nat.lt_succ_self _
  obtain ⟨gap, rfl, hgap, hskip, -, -, hmark⟩ := hfollows
  refine ⟨_, (q.behind [d] (gap ++ next)).behind gap next,
    (Relation.ReflTransGen.single hopening).tail hclosing, ?_, rfl, fun hne => ?_⟩
  · refine arrives_gap gap ⟨rfl, rfl, rfl, rfl⟩ rfl hmark hskip ?_ fun hne => ?_
    · intro k hk
      obtain ⟨hrequired, hkline⟩ := hoptional k (hkey' k hk)
      refine ⟨hrequired, fun hne => ?_⟩
      have hbreak : 0 < gap.countP isBreak := by
        rw [hgap hne, newline, List.countP_cons_of_pos (by decide)]
        omega
      have hle : q.line ≤ (q.behind [d] (gap ++ next)).line := Nat.le_add_right ..
      have hstate : (behindBrackets (q.behind [d] (gap ++ next)) (t :: s :: ts) indents
          key').place.line = (q.behind [d] (gap ++ next)).line := rfl
      omega
    · rw [hgap hne]
      rfl
  · rw [hgap hne]
    exact columnBehind_newline _ _

end

end Lexer

end ShapeAlgebra.Yaml
