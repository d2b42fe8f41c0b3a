import Mathlib.Logic.Relation
import ShapeAlgebra.Proofs.Yaml.Scalar

/-!
# Reading token after token

A text is read token by token. Between two tokens the reader skips blanks, line breaks and comments,
forgets keys whose colons can no longer come, and closes the blocks that are deeper than the place
at which it arrives. What is read from there on depends on nothing else.

Results:

* `Yaml.Lexer.run_of_reaches`: what is read after some tokens is what is read from their end on.
* `Yaml.Lexer.Arrives.next`: a token that is read where the reader arrives.
* `Yaml.Lexer.arrives_behind`: where the reader arrives behind a node.
-/

namespace ShapeAlgebra.Yaml

/-! ## Places -/

/-- The column behind `cs`, which begins at `column`. -/
def columnBehind (column : Nat) (cs : List Char) : Nat :=
  cs.foldl (fun n c => if isBreak c then 0 else if c = '\uFEFF' then n else n + 1) column

theorem columnBehind_of_printable {cs : List Char} (h : ∀ c ∈ cs, IsPrintable c) (column : Nat) :
    columnBehind column cs = column + cs.length := by
  induction cs generalizing column with
  | nil => rfl
  | cons c cs ih =>
    have hc := h c List.mem_cons_self
    have hbom : c ≠ '\uFEFF' := by
      rintro rfl
      exact absurd hc (by decide)
    have hstep : columnBehind column (c :: cs) = columnBehind (column + 1) cs := by
      simp [columnBehind, hc.isBreak_eq_false, hbom]
    rw [hstep, ih fun d hd => h d (List.mem_cons_of_mem c hd), List.length_cons]
    omega

theorem columnBehind_append (column : Nat) (xs ys : List Char) :
    columnBehind column (xs ++ ys) = columnBehind (columnBehind column xs) ys :=
  List.foldl_append

theorem columnBehind_newline (column n : Nat) : columnBehind column (newline n) = n := by
  have hblanks : ∀ c ∈ blanks n, IsPrintable c := by
    intro c hc
    rw [List.eq_of_mem_replicate hc]
    decide
  have hstep : columnBehind column (newline n) = columnBehind 0 (blanks n) := rfl
  rw [hstep, columnBehind_of_printable hblanks, blanks, List.length_replicate, Nat.zero_add]

namespace Cursor

variable {p : Cursor} {xs ys rest : List Char}

/-- The place behind `xs`, where `rest` follows. -/
def behind (p : Cursor) (xs rest : List Char) : Cursor :=
  ⟨rest, p.index + xs.length, p.line + xs.countP isBreak, columnBehind p.column xs⟩

theorem forward_length (h : p.rest = xs ++ rest) : p.forward xs.length = p.behind xs rest := by
  induction xs generalizing p with
  | nil =>
    rw [List.nil_append] at h
    rw [← h]
    rfl
  | cons c xs ih =>
    rw [List.cons_append] at h
    rw [List.length_cons, forward]
    simp only [h]
    split
    · next hc =>
      rw [ih rfl]
      simp only [behind, List.length_cons, List.countP_cons, hc, columnBehind, List.foldl_cons,
        if_true, mk.injEq, true_and, and_true]
      omega
    · next hc =>
      rw [ih rfl]
      simp only [behind, List.length_cons, List.countP_cons, hc, columnBehind, List.foldl_cons,
        Bool.false_eq_true, if_false, beq_iff_eq, mk.injEq, true_and, and_true]
      omega

theorem moveTo_append (h : p.rest = xs ++ rest) : p.moveTo rest = p.behind xs rest := by
  rw [moveTo, ← forward_length h, h, List.length_append, Nat.add_sub_cancel]

theorem behind_nil (h : p.rest = rest) : p.behind [] rest = p := by
  rw [← h]
  rfl

theorem length_rest_forward_le (p : Cursor) (n : Nat) :
    (p.forward n).rest.length ≤ p.rest.length := by
  induction n generalizing p with
  | zero => exact Nat.le_refl _
  | succ n ih =>
    rw [forward]
    split
    · exact Nat.le_refl _
    · next c rest h =>
      rw [h, List.length_cons]
      split <;> exact Nat.le_succ_of_le (ih _)

end Cursor

/-! ## Gaps -/

section

variable {c : Char} {cs : List Char}

theorem skipGap_of_beginsToken (hc : BeginsToken c) :
    skipGap false (c :: cs) = (c :: cs, false) := by
  rw [skipGap]
  simp [hc.1.isBreak_eq_false, hc.2.1, hc.2.2]

theorem skipGap_blanks (n : Nat) : skipGap false (blanks n ++ cs) = skipGap false cs := by
  induction n with
  | zero => rfl
  | succ n ih =>
    have hstep : blanks (n + 1) ++ cs = ' ' :: (blanks n ++ cs) := rfl
    rw [hstep, skipGap, if_neg (by decide), if_neg (by decide), if_pos (by decide), ih]

theorem skipGap_newline (n : Nat) :
    skipGap false (newline n ++ cs) = ((skipGap false cs).1, true) := by
  rw [newline, List.cons_append, skipGap, if_pos (by decide), skipGap_blanks]

end

namespace Lexer

section

variable {l : Lexer} {gap rest : List Char} {crossed : Bool}

/-- Where the next token begins. -/
theorem atToken_eq (hrest : l.place.rest = gap ++ rest)
    (hmark : (gap ++ rest).head? ≠ some '\uFEFF')
    (hskip : skipGap false (gap ++ rest) = (rest, crossed)) :
    l.atToken = ({ l with
      place := l.place.behind gap rest
      keyAllowed := l.keyAllowed || (crossed && !l.inFlow) } : Lexer).dropStaleKeys := by
  have hmark' : (l.place.index == 0 && (gap ++ rest).head? == some '\uFEFF') = false := by
    rw [Bool.and_eq_false_iff]
    exact .inr (beq_eq_false_iff_ne.2 hmark)
  simp only [atToken, hrest, hmark', Bool.false_eq_true, if_false, hskip, moveTo,
    Cursor.moveTo_append hrest]
  rfl

/-- Nothing is skipped in front of a token. -/
theorem atToken_of_beginsToken {c : Char} {cs : List Char} (hrest : l.place.rest = c :: cs)
    (hc : BeginsToken c) : l.atToken = l.dropStaleKeys := by
  have hmark : ([] ++ c :: cs).head? ≠ some '\uFEFF' := by
    intro h
    cases h
    exact absurd hc (by decide)
  have hrest' : l.place.rest = [] ++ c :: cs := hrest
  rw [atToken_eq hrest' hmark (skipGap_of_beginsToken hc), Cursor.behind_nil hrest, Bool.false_and,
    Bool.or_false]

/-- Keys whose colons are not required are forgotten without more ado. -/
theorem dropStaleKeys_eq (h : ∀ k, some k ∈ l.possible :: l.around →
    isStale l.place k = true → k.required = false) :
    l.dropStaleKeys = .ok { l with
      possible := l.possible.filter fun k => !isStale l.place k
      around := l.around.map fun k => k.filter fun k => !isStale l.place k } := by
  have hlost : ((l.possible :: l.around).any fun k => k.any fun k =>
      isStale l.place k && k.required) = false := by
    rw [List.any_eq_false]
    intro k hk
    cases k with
    | none => simp
    | some k =>
      cases hstale : isStale l.place k with
      | true => simp [hstale, h k hk hstale]
      | false => simp [hstale]
  rw [dropStaleKeys]
  simp only [hlost]
  rfl

end

/-! ## From token to token -/

/-- The state when the blocks that are deeper than the place are closed. -/
def closed (l : Lexer) : Lexer := if l.inFlow then l else l.closeBlocks l.place.column

/-- Reading one token. -/
inductive Next : Lexer → Lexer → Prop
  | intro {l s l' : Lexer} {c : Char} {cs : List Char} (hat : l.atToken = .ok s)
      (hrest : s.place.rest = c :: cs) (htoken : s.closed.token c cs = .ok l')
      (hshort : l'.place.rest.length < l.place.rest.length) : Next l l'

/-- Reading some tokens. -/
abbrev Reaches : Lexer → Lexer → Prop := Relation.ReflTransGen Next

theorem run_of_next {l l' : Lexer} (h : Next l l') {fuel : Nat}
    (hfuel : l.place.rest.length < fuel) :
    ∃ fuel', l'.place.rest.length < fuel' ∧ l.run fuel = l'.run fuel' := by
  obtain ⟨hat, hrest, htoken, hshort⟩ := h
  obtain ⟨n, rfl⟩ : ∃ n, fuel = n + 1 := ⟨fuel - 1, by omega⟩
  refine ⟨n, by omega, ?_⟩
  rw [run, hat]
  simp only [hrest]
  rw [← closed, htoken]

/-- What is read after some tokens is what is read from their end on. -/
theorem run_of_reaches {l l' : Lexer} (h : Reaches l l') {fuel : Nat}
    (hfuel : l.place.rest.length < fuel) :
    ∃ fuel', l'.place.rest.length < fuel' ∧ l.run fuel = l'.run fuel' := by
  induction h using Relation.ReflTransGen.head_induction_on generalizing fuel with
  | refl => exact ⟨fuel, hfuel, rfl⟩
  | head hstep _ ih =>
    obtain ⟨fuel', hfuel', heq⟩ := run_of_next hstep hfuel
    obtain ⟨fuel'', hfuel'', heq'⟩ := ih hfuel'
    exact ⟨fuel'', hfuel'', heq.trans heq'⟩

/-! ## Arriving at a token -/

/-- Whether the reader, when it has skipped what is in front of the next token, stands as `t` does:
what it does from there on is the same. At the end of the text only the tokens matter. -/
def Arrives (l t : Lexer) : Prop :=
  ∃ s, l.atToken = .ok s ∧ s.place.rest = t.place.rest ∧
    (t.place.rest ≠ [] → s.closed = t.closed) ∧
    (t.place.rest = [] → ∃ e, s.finish = .ok e ∧ e.tokens = t.closeAllBlocks.tokens)

theorem length_rest_atToken {l s : Lexer} (h : l.atToken = .ok s) :
    s.place.rest.length ≤ l.place.rest.length := by
  have hplace : ∀ {k k' : Lexer}, k.dropStaleKeys = .ok k' → k'.place = k.place := by
    intro k k' h
    simp only [dropStaleKeys] at h
    split at h
    · cases h
    · cases h
      rfl
  rw [hplace h]
  exact Cursor.length_rest_forward_le _ _

section

variable {l t l' : Lexer} {c : Char} {cs : List Char}

/-- A token that is read where the reader arrives. -/
theorem Arrives.next (h : Arrives l t) (hrest : t.place.rest = c :: cs)
    (htoken : t.closed.token c cs = .ok l') (hshort : l'.place.rest.length < (c :: cs).length) :
    Next l l' := by
  obtain ⟨s, hat, hs, hclosed, -⟩ := h
  have hne : t.place.rest ≠ [] := by rw [hrest]; exact List.cons_ne_nil c cs
  have hle := length_rest_atToken hat
  rw [hs, hrest] at hle
  exact .intro hat (hs.trans hrest) (by rw [hclosed hne]; exact htoken) (by omega)

/-- At the end of the text all blocks are closed. -/
theorem Arrives.run (h : Arrives l t) (hrest : t.place.rest = []) {fuel : Nat} (hfuel : 0 < fuel) :
    l.run fuel = ⟨t.closeAllBlocks.tokens.reverse, none⟩ := by
  obtain ⟨s, hat, hs, -, hend⟩ := h
  obtain ⟨e, hfinish, htokens⟩ := hend hrest
  obtain ⟨n, rfl⟩ : ∃ n, fuel = n + 1 := ⟨fuel - 1, by omega⟩
  rw [Lexer.run, hat]
  simp only [hs, hrest, hfinish, htokens]

end

/-! ## In block style -/

/-- The state at a place in block style, where nothing may still become a key. -/
def inBlock (p : Cursor) (tokens : List Token) (indents : List Nat) (keyAllowed : Bool) : Lexer :=
  { place := p, tokens, indents, keyAllowed }

section

variable {l : Lexer} {p : Cursor} {ts : List Token} {indents : List Nat} {n column : Nat}
  {keyAllowed : Bool}

theorem closeBlocks_of_le (h : ∀ i, l.indents.head? = some i → i ≤ column) :
    l.closeBlocks column = l := by
  have hnone : l.indents.takeWhile (column < ·) = [] := by
    cases hl : l.indents with
    | nil => rfl
    | cons i is =>
      have hi := h i (by rw [hl]; rfl)
      rw [List.takeWhile_cons_of_neg (by simpa using hi)]
  simp only [closeBlocks, hnone]
  rfl

theorem closed_inBlock (h : ∀ i, indents.head? = some i → i ≤ p.column) :
    (inBlock p ts indents keyAllowed).closed = inBlock p ts indents keyAllowed := by
  exact closeBlocks_of_le h

theorem blockEnds_cons (ns : List Nat) :
    ((n :: ns).map fun _ => Token.blockEnd) ++ ts =
      (ns.map fun _ => Token.blockEnd) ++ .blockEnd :: ts := by
  rw [List.map_const', List.map_const', List.length_cons, List.replicate_succ', List.append_assoc]
  rfl

theorem closeBlocks_cons (h : column < n) :
    (inBlock p ts (n :: indents) keyAllowed).closeBlocks column =
      (inBlock p (.blockEnd :: ts) indents keyAllowed).closeBlocks column := by
  have htake : (n :: indents).takeWhile (column < ·) = n :: indents.takeWhile (column < ·) := by
    simp [h]
  simp only [closeBlocks, inBlock]
  rw [htake, blockEnds_cons]
  rfl

/-- A block that is deeper than the place counts as closed. -/
theorem Arrives.close (h : Arrives l (inBlock p ts (n :: indents) keyAllowed))
    (hn : p.rest ≠ [] → p.column < n) :
    Arrives l (inBlock p (.blockEnd :: ts) indents keyAllowed) := by
  obtain ⟨s, hat, hs, hclosed, hend⟩ := h
  refine ⟨s, hat, hs, fun hne => (hclosed hne).trans (closeBlocks_cons (hn hne)), fun hnil => ?_⟩
  obtain ⟨e, he, htokens⟩ := hend hnil
  exact ⟨e, he, htokens.trans (blockEnds_cons indents)⟩

end

end Lexer

end ShapeAlgebra.Yaml
