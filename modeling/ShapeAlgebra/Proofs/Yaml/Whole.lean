import ShapeAlgebra.Output
import ShapeAlgebra.Proofs.Yaml.Block

/-!
# The tokens of a whole text

A whole text is a document in block style and a line break. A single scalar without quotes is
followed by a line that marks its end. Without the last line break the tokens are the same.

Results:

* `Yaml.withoutFinalBreaks_write`: what is left of a text without the line breaks at its end.
* `Yaml.Lexer.ofChars_body`: the tokens of a text, with and without the last line break.
-/

namespace ShapeAlgebra.Yaml

/-! ## What is written -/

/-- Whether a text consists of lines of printable characters and ends inside the last of them. -/
structure IsLines (xs : List Char) : Prop where
  ordinary : ∀ c ∈ xs, IsOrdinary c
  ends : ∃ c, xs.getLast? = some c ∧ c ≠ '\n'

section

variable {xs ys cs : List Char} {breaks : Bool} {indent column : Nat} {before : Before} {c : Char}

theorem IsLines.append (h : IsLines ys) (hxs : ∀ c ∈ xs, IsOrdinary c) : IsLines (xs ++ ys) := by
  obtain ⟨hys, c, hc, hne⟩ := h
  refine ⟨fun d hd => ?_, c, by rw [List.getLast?_append, hc, Option.some_or], hne⟩
  exact (List.mem_append.1 hd).elim (hxs d) (hys d)

theorem IsLines.cons (h : IsLines ys) (hc : IsOrdinary c) : IsLines (c :: ys) :=
  h.append fun d hd => by rwa [List.mem_singleton.1 hd]

/-- Folding goes from character to character. -/
theorem exists_foldLines_cons (x : Char) (cs : List Char) : ∃ written column' before',
    foldLines breaks indent column before (x :: cs) =
      written ++ foldLines breaks indent column' before' cs := by
  by_cases hblank : x = ' '
  · subst hblank
    rw [foldLines_blank]
    split
    · exact ⟨newline indent, _, _, rfl⟩
    · exact ⟨[' '], _, _, rfl⟩
  · by_cases hbreak : x = '\n'
    · subst hbreak
      rw [foldLines_lineBreak]
      exact ⟨_, _, _, rfl⟩
    · rw [foldLines_word hblank hbreak]
      exact ⟨[x], _, _, rfl⟩

theorem getLast?_foldLines (h : cs.getLast? = some c) (hblank : c ≠ ' ') (hbreak : c ≠ '\n') :
    (foldLines breaks indent column before cs).getLast? = some c := by
  induction cs generalizing column before with
  | nil => cases h
  | cons x cs ih =>
    cases cs with
    | nil =>
      obtain rfl : x = c := by simpa using h
      rw [foldLines_word hblank hbreak]
      rfl
    | cons y ys =>
      obtain ⟨written, column', before', hwritten⟩ := exists_foldLines_cons x (y :: ys)
      rw [hwritten, List.getLast?_append, ih (by rwa [List.getLast?_cons_cons] at h),
        Option.some_or]

theorem IsPlain.getLast?_foldLines (h : IsPlain cs) :
    ∃ c, (foldLines breaks indent column before cs).getLast? = some c ∧ c ≠ '\n' := by
  obtain ⟨c, hc⟩ : ∃ c, cs.getLast? = some c :=
    ⟨_, List.getLast?_eq_some_getLast h.nonempty⟩
  have hblank : c ≠ ' ' := fun heq => h.last (by rw [hc, heq])
  have hbreak : c ≠ '\n' := by
    rintro rfl
    exact absurd (h.printable _ (List.mem_of_getLast? hc)) (by decide)
  exact ⟨c, Yaml.getLast?_foldLines hc hblank hbreak, hbreak⟩

end

theorem isLines_writeScalar (place : Place) (t : Text) : IsLines (writeScalar place t) := by
  refine ⟨isOrdinary_of_mem_writeScalar place t, ?_⟩
  cases hstyle : Style.of t with
  | plain =>
    obtain ⟨cs, -, -, hplain, hwrite⟩ := writeScalar_of_plain hstyle
    rw [hwrite]
    exact hplain.getLast?_foldLines
  | single =>
    obtain ⟨cs, -, -, -, hwrite⟩ := writeScalar_of_single hstyle
    rw [hwrite]
    exact ⟨'\'', by rw [← List.cons_append, List.getLast?_concat], by decide⟩
  | double =>
    rw [writeScalar_of_double hstyle, writeEscaped]
    exact ⟨'"', by rw [← List.cons_append, List.getLast?_concat], by decide⟩

theorem isLines_boolWord (b : Bool) : IsLines (boolWord b) := by
  cases b <;> exact ⟨forall_of_all (by decide), 'e', rfl, by decide⟩

theorem isLines_writeItems {items : List Document} (hne : items ≠ [])
    (h : ∀ d ∈ items, ∀ n, IsLines (writeNode n d)) (n : Nat) : IsLines (writeItems n items) := by
  induction items with
  | nil => exact absurd rfl hne
  | cons d ds ih =>
    rw [writeItems]
    have hd := h d List.mem_cons_self (n + 2)
    cases ds with
    | nil =>
      rw [List.isEmpty_nil, if_pos rfl, List.append_nil]
      exact (hd.cons (by decide)).cons (by decide)
    | cons e es =>
      have hmore := ih (List.cons_ne_nil e es) fun d hd => h d (List.mem_cons_of_mem _ hd)
      have hlines : IsLines (newline n ++ writeItems n (e :: es)) :=
        hmore.append fun _ => isOrdinary_of_mem_newline
      exact ((hlines.append hd.ordinary).cons (by decide)).cons (by decide)

theorem isOrdinary_of_mem_writeKey (n : Nat) (k : Text) :
    ∀ c ∈ (writeKey n k).1, IsOrdinary c := by
  rw [writeKey]
  split
  · have hcolon : IsLines (writeScalar ⟨n, n, false⟩ k ++ [':']) :=
      IsLines.append ⟨forall_of_all (by decide), ':', rfl, by decide⟩
        (isOrdinary_of_mem_writeScalar _ k)
    exact hcolon.ordinary
  · have hcolon : IsLines (writeScalar ⟨n + 2, n + 2, true⟩ k ++ newline n ++ [':']) := by
      refine IsLines.append ⟨forall_of_all (by decide), ':', rfl, by decide⟩ fun c hc => ?_
      exact (List.mem_append.1 hc).elim (isOrdinary_of_mem_writeScalar _ k c)
        isOrdinary_of_mem_newline
    exact ((hcolon.cons (by decide)).cons (by decide)).ordinary

theorem isLines_writeEntries {entries : List (Text × Document)} (hne : entries ≠ [])
    (hnodes : ∀ e ∈ entries, ∀ n, IsLines (writeNode n e.2))
    (hvalues : ∀ e ∈ entries, ∀ n column, IsLines (writeValue n column e.2)) (n : Nat) :
    IsLines (writeEntries n entries) := by
  induction entries with
  | nil => exact absurd rfl hne
  | cons e es ih =>
    obtain ⟨k, d⟩ := e
    rw [writeEntries_cons]
    refine IsLines.append ?_ (isOrdinary_of_mem_writeKey n k)
    have hd : IsLines (if isSimpleKey k then writeValue n (writeKey n k).2 d
        else ' ' :: writeNode (n + 2) d) := by
      split
      · exact hvalues _ List.mem_cons_self n _
      · exact (hnodes _ List.mem_cons_self _).cons (by decide)
    cases es with
    | nil => rwa [List.isEmpty_nil, if_pos rfl, List.append_nil]
    | cons f fs =>
      have hmore := ih (List.cons_ne_nil f fs) (fun e he => hnodes e (List.mem_cons_of_mem _ he))
        fun e he => hvalues e (List.mem_cons_of_mem _ he)
      exact (hmore.append fun _ => isOrdinary_of_mem_newline).append hd.ordinary

theorem isLines_write (d : Document) : (∀ n, IsLines (writeNode n d)) ∧
    ∀ n column, IsLines (writeValue n column d) := by
  induction d using Document.induction with
  | text t =>
    refine ⟨fun n => ?_, fun n column => ?_⟩
    · rw [writeNode]
      exact isLines_writeScalar _ t
    · rw [writeValue]
      exact (isLines_writeScalar _ t).cons (by decide)
  | bool b =>
    refine ⟨fun n => ?_, fun n column => ?_⟩
    · rw [writeNode]
      exact isLines_boolWord b
    · rw [writeValue]
      exact (isLines_boolWord b).cons (by decide)
  | list items ih =>
    have hlines : items ≠ [] → ∀ n, IsLines (writeItems n items) := fun hne =>
      isLines_writeItems hne fun d hd => (ih d hd).1
    refine ⟨fun n => ?_, fun n column => ?_⟩
    · rw [writeNode]
      split
      · exact ⟨forall_of_all (by decide), ']', rfl, by decide⟩
      · next hne => exact hlines (by simpa using hne) n
    · rw [writeValue]
      split
      · exact ⟨forall_of_all (by decide), ']', rfl, by decide⟩
      · next hne =>
        exact (hlines (by simpa using hne) n).append fun _ => isOrdinary_of_mem_newline
  | mapping entries ih =>
    have hlines : entries ≠ [] → ∀ n, IsLines (writeEntries n entries) := fun hne =>
      isLines_writeEntries hne (fun e he => (ih e he).1) fun e he => (ih e he).2
    refine ⟨fun n => ?_, fun n column => ?_⟩
    · rw [writeNode]
      split
      · exact ⟨forall_of_all (by decide), '\x7d', rfl, by decide⟩
      · next hne => exact hlines (by simpa using hne) n
    · rw [writeValue]
      split
      · exact ⟨forall_of_all (by decide), '\x7d', rfl, by decide⟩
      · next hne =>
        exact (hlines (by simpa using hne) _).append fun _ => isOrdinary_of_mem_newline

/-! ## Without the last line break -/

/-- The lines of a document. -/
def body : Document → List Char
  | .text t => writeScalar ⟨2, 0, true⟩ t
  | d => writeNode 0 d

/-- The line that marks the end of a document, where there must be one. -/
def endMark (d : Document) : List Char := if isOpenEnded d then ['\n', '.', '.', '.'] else []

theorem write_eq (d : Document) : write d = body d ++ endMark d ++ ['\n'] := by
  have hmark : (if isOpenEnded d then "\n...\n".toList else ['\n']) = endMark d ++ ['\n'] := by
    rw [endMark]
    split <;> rfl
  have hbody : write d = body d ++ (if isOpenEnded d then "\n...\n".toList else ['\n']) := by
    cases d <;> rfl
  rw [hbody, hmark, List.append_assoc]

theorem isLines_body (d : Document) : IsLines (body d ++ endMark d) := by
  have hbody : IsLines (body d) := by
    cases d with
    | text t => exact isLines_writeScalar _ t
    | _ => exact (isLines_write _).1 0
  rw [endMark]
  split
  · exact IsLines.append ⟨forall_of_all (by decide), '.', rfl, by decide⟩ hbody.ordinary
  · rwa [List.append_nil]

theorem withoutFinalBreaks_concat {xs : List Char} (h : IsLines xs) :
    withoutFinalBreaks (xs ++ ['\n']) = xs := by
  obtain ⟨-, c, hc, hne⟩ := h
  obtain ⟨ys, rfl⟩ := List.getLast?_eq_some_iff.1 hc
  have hkeep : (c == '\n') = false := beq_eq_false_iff_ne.2 hne
  simp [withoutFinalBreaks, hkeep]

/-- What is left of a text without the line breaks at its end. -/
theorem withoutFinalBreaks_write (d : Document) :
    withoutFinalBreaks (write d) = body d ++ endMark d := by
  rw [write_eq, withoutFinalBreaks_concat (isLines_body d)]

/-! ## Tokens -/

/-- The token of the line that marks the end of a document. -/
def endTokens (d : Document) : List Token := if isOpenEnded d then [.documentEnd] else []

namespace Lexer

/-- At the beginning of a text. -/
theorem arrives_start {xs : List Char} (hxs : ∃ c cs, xs = c :: cs ∧ BeginsToken c) :
    Arrives { place := ⟨xs, 0, 0, 0⟩ } (inBlock ⟨xs, 0, 0, 0⟩ [] [] true) := by
  obtain ⟨c, cs, rfl, hc⟩ := hxs
  have hat : ({ place := ⟨c :: cs, 0, 0, 0⟩ } : Lexer).atToken =
      .ok (inBlock ⟨c :: cs, 0, 0, 0⟩ [] [] true) := by
    rw [atToken_of_beginsToken rfl hc, dropStaleKeys_eq (by simp)]
    rfl
  exact ⟨_, hat, rfl, fun _ => rfl, nofun⟩

/-- The tokens of a text whose end the reader reaches. -/
theorem ofChars_of_reaches {xs : List Char} {l : Lexer} {p : Cursor} {ts : List Token}
    (hreach : Reaches { place := ⟨xs, 0, 0, 0⟩ } l) (hl : Arrives l (inBlock p ts [] true))
    (hp : p.rest = []) : Tokens.ofChars xs = ⟨ts.reverse, none⟩ := by
  obtain ⟨fuel, hfuel, hrun⟩ := run_of_reaches hreach (Nat.lt_succ_self _)
  rw [Tokens.ofChars, hrun, hl.run hp (Nat.zero_lt_of_lt hfuel)]
  rfl

/-- A text without quotes ends where the line begins that marks the end of the document. -/
theorem leaves_endMark {cs : List Char} (hgap : gapAhead cs = true) (p : Cursor) :
    (inBlock p [] [] true).Leaves true ('\n' :: '.' :: '.' :: '.' :: cs) ('.' :: '.' :: '.' :: cs)
      0 := by
  refine ⟨.of_beginsToken _ 0 (by decide), '.' :: '.' :: '.' :: cs, true, ⟨by simp, ?_⟩,
    .inr ⟨rfl, rfl⟩⟩
  intro column
  have hmark : separatorAhead ('.' :: '.' :: '.' :: cs) = true := by
    simp [separatorAhead, markAhead, hgap]
  rw [plainBody, if_neg (by decide), if_pos (by decide), if_pos hmark]

theorem token_endMark {p : Cursor} {t : Token} {cs : List Char}
    (hrest : p.rest = '.' :: '.' :: '.' :: cs) (hcolumn : p.column = 0)
    (hgap : gapAhead cs = true) :
    (inBlock p [t] [] true).token '.' ('.' :: '.' :: cs) =
      .ok (inBlock (p.behind ['.', '.', '.'] cs) [.documentEnd, t] [] false) := by
  have hmark : markAhead '.' ('.' :: '.' :: '.' :: cs) = true := by simp [markAhead, hgap]
  have htoken : (inBlock p [t] [] true).token '.' ('.' :: '.' :: cs) =
      (inBlock p [t] [] true).separator .documentEnd := by
    have hcolumn' : (inBlock p [t] [] true).place.column = 0 := hcolumn
    simp [token, hcolumn', hmark, markAhead_cons_of_ne]
  have hseparator : (inBlock p [t] [] true).separator .documentEnd =
      .ok ((inBlock p [.documentEnd, t] [] false).moveTo (p.rest.drop 3)) := rfl
  have hplace : p.moveTo cs = p.behind ['.', '.', '.'] cs := Cursor.moveTo_append hrest
  rw [htoken, hseparator, hrest, ← hplace]
  rfl

/-- Behind the line that marks the end of a document nothing is left but a line break. -/
theorem reaches_endMark {l : Lexer} {p : Cursor} {t : Token} {final : List Char}
    (hl : Arrives l (inBlock p [t] [] true)) (hrest : p.rest = '.' :: '.' :: '.' :: final)
    (hcolumn : p.column = 0) (hfinal : final = [] ∨ final = ['\n']) :
    ∃ l' p', Reaches l l' ∧ Arrives l' (inBlock p' [.documentEnd, t] [] true) ∧ p'.rest = [] := by
  have hgap : gapAhead final = true := by rcases hfinal with rfl | rfl <;> rfl
  obtain ⟨hmark, crossed, hskip⟩ : final.head? ≠ some '\uFEFF' ∧
      ∃ crossed, skipGap false final = ([], crossed) := by
    rcases hfinal with rfl | rfl
    · exact ⟨nofun, _, rfl⟩
    · exact ⟨by decide, _, rfl⟩
  have hstep : Next l (inBlock (p.behind ['.', '.', '.'] final) [.documentEnd, t] [] false) := by
    refine hl.next hrest ?_ ?_
    · rw [closed_inBlock (fun i hi => by cases hi), token_endMark hrest hcolumn hgap]
    · exact Nat.lt_add_of_pos_right (Nat.succ_pos 2)
  refine ⟨_, (p.behind ['.', '.', '.'] final).behind final [], .single hstep, ?_, rfl⟩
  exact arrives_gap final ⟨rfl, rfl, rfl, rfl⟩ (List.append_nil _).symm (by rwa [List.append_nil])
    (by rw [List.append_nil]; exact hskip) (fun k hk => by cases hk)
    (fun hne => absurd rfl hne)

/-- A document that is no single scalar without quotes is read to the end of the text. -/
theorem goesOn_body {d : Document} {final : List Char} (hkeeps : keepsNode 0 d = true)
    (hopen : isOpenEnded d = false) (hfinal : final = [] ∨ final = ['\n']) :
    GoesOn { place := ⟨body d ++ final, 0, 0, 0⟩ } (tokensOf false d).reverse [] [] 0 := by
  have hend : ∀ inner, Behind inner final [] 0 := fun inner => by
    rcases hfinal with rfl | rfl
    · exact .textEnd 0
    · exact .lastLine 0
  cases d with
  | text t =>
    have hplace : (⟨2, 0, true⟩ : Place).Keeps t := .inr (.inl (by decide))
    obtain ⟨c, cs, hcs, hc⟩ := writeScalar_begins ⟨2, 0, true⟩ t
    have hstart := arrives_start ⟨c, cs ++ final, congrArg (· ++ final) hcs, hc⟩
    exact goesOn_writeScalar hstart rfl (by simp) (by simp) (Nat.succ_pos 1) (Nat.zero_le 2) hplace
      (leaves_of_behind (hend _) _)
  | bool b => cases hopen
  | list items =>
    obtain ⟨c, cs, hcs, hc⟩ := writeNode_begins 0 (.list items)
    have hstart := arrives_start ⟨c, cs ++ final, congrArg (· ++ final) hcs, hc⟩
    rw [tokensOf]
    by_cases hnil : items.isEmpty = true
    · rw [if_pos hnil]
      exact goesOn_brackets hstart .sequence (by simp [writeNode, hnil]) (by simp) (by simp)
        (hend 0).follows
    · rw [if_neg hnil, if_neg Bool.false_ne_true, ← List.append_nil (List.reverse _)]
      exact readsBlock_items (n := 0) (fun d _ => (reads d).1) (by simpa using hnil)
        (by simpa [keepsNode] using hkeeps) hstart (by simp [writeNode, hnil]) rfl (by simp)
        (hend _)
  | mapping entries =>
    obtain ⟨c, cs, hcs, hc⟩ := writeNode_begins 0 (.mapping entries)
    have hstart := arrives_start ⟨c, cs ++ final, congrArg (· ++ final) hcs, hc⟩
    rw [tokensOf]
    by_cases hnil : entries.isEmpty = true
    · rw [if_pos hnil]
      exact goesOn_brackets hstart .mapping (by simp [writeNode, hnil]) (by simp) (by simp)
        (hend 0).follows
    · rw [if_neg hnil, ← List.append_nil (List.reverse _)]
      exact readsBlock_entries (n := 0) (fun e _ => (reads e.2).1) (fun e _ => (reads e.2).2)
        (by simpa using hnil) (by simpa [keepsNode] using hkeeps) hstart
        (by simp [writeNode, hnil]) rfl (by simp) (hend _)

/-- A single scalar without quotes is read up to the line that marks its end. -/
theorem goesOn_openEnded {d : Document} {cs : List Char} (hopen : isOpenEnded d = true)
    (hgap : gapAhead cs = true) : ∃ t, tokensOf false d = [t] ∧
      GoesOn { place := ⟨body d ++ '\n' :: '.' :: '.' :: '.' :: cs, 0, 0, 0⟩ } [t] []
        ('.' :: '.' :: '.' :: cs) 0 := by
  cases d with
  | text t =>
    have hplain : (Style.of t == .plain) = true := hopen
    have hplace : (⟨2, 0, true⟩ : Place).Keeps t := .inr (.inl (by decide))
    obtain ⟨c, ds, hds, hc⟩ := writeScalar_begins ⟨2, 0, true⟩ t
    have hstart := arrives_start
      ⟨c, ds ++ '\n' :: '.' :: '.' :: '.' :: cs, congrArg (· ++ _) hds, hc⟩
    exact ⟨_, rfl, goesOn_writeScalar hstart rfl nofun nofun (Nat.succ_pos 1) (Nat.zero_le 2)
      hplace (by rw [hplain]; exact leaves_endMark hgap _)⟩
  | bool b =>
    obtain ⟨c, ds, hds, hc⟩ := boolWord_begins b
    have hstart := arrives_start
      ⟨c, ds ++ '\n' :: '.' :: '.' :: '.' :: cs, congrArg (· ++ _) hds, hc⟩
    exact ⟨_, rfl, goesOn_boolWord hstart rfl nofun nofun (leaves_endMark hgap _)⟩
  | list => cases hopen
  | mapping => cases hopen

/-- The tokens of a text, with and without the last line break. -/
theorem ofChars_body {d : Document} {final : List Char} (hkeeps : keepsNode 0 d = true)
    (hfinal : final = [] ∨ final = ['\n']) :
    Tokens.ofChars (body d ++ endMark d ++ final) = ⟨tokensOf false d ++ endTokens d, none⟩ := by
  cases hopen : isOpenEnded d with
  | false =>
    obtain ⟨l, p, hreach, hl, hp, -⟩ := goesOn_body hkeeps hopen hfinal
    rw [endMark, endTokens, hopen, if_neg Bool.false_ne_true, if_neg Bool.false_ne_true,
      List.append_nil, List.append_nil, ofChars_of_reaches hreach hl hp, List.reverse_reverse]
  | true =>
    have hgap : gapAhead final = true := by rcases hfinal with rfl | rfl <;> rfl
    obtain ⟨t, htokens, l, p, hreach, hl, hp, hcolumn⟩ := goesOn_openEnded hopen hgap
    obtain ⟨l', p', hreach', hl', hp'⟩ :=
      reaches_endMark hl hp (hcolumn (List.cons_ne_nil _ _)) hfinal
    rw [endMark, endTokens, hopen, if_pos rfl, if_pos rfl, htokens, List.append_assoc]
    exact ofChars_of_reaches (hreach.trans hreach') hl' hp'

end Lexer

end ShapeAlgebra.Yaml
