import ShapeAlgebra.Proofs.Json.Nodes
import ShapeAlgebra.Proofs.Yaml.RoundTrip

/-!
# Declarations read back from JSON texts

A declaration file may hold the JSON text of a document as the declaration of a schema. It is read
as YAML, and the document is read back with the halves of surrogate pairs in place of the code
points beyond the basic plane, unless it has a key that is too long or too many collections inside
one another.

Results:

* `Json.ofChars_declarationText`: the tokens of such a file.
* `Json.read_declarationText`: what is read from it.
-/

namespace ShapeAlgebra.Json

open Yaml Yaml.Lexer

/-! ## Characters -/

theorem isOrdinary_of_mem_lines {level : Nat} {xs : List (List Char)}
    (h : ∀ x ∈ xs, ∀ c ∈ x, IsOrdinary c) : ∀ c ∈ lines level xs, IsOrdinary c := by
  induction xs with
  | nil => nofun
  | cons x xs ih =>
    intro c hc
    rw [lines_cons, List.mem_append] at hc
    rcases hc with hc | hc
    · exact h x List.mem_cons_self c hc
    · split at hc
      · cases hc
      · rw [List.mem_cons, List.mem_append] at hc
        rcases hc with rfl | hc | hc
        · decide
        · exact isOrdinary_of_mem_newline (n := 2 * level) hc
        · exact ih (fun x hx => h x (List.mem_cons_of_mem _ hx)) c hc

theorem isOrdinary_of_mem_block {opening closing : Char} {level : Nat} {items : List (List Char)}
    (hopening : IsOrdinary opening) (hclosing : IsOrdinary closing)
    (h : ∀ x ∈ items, ∀ c ∈ x, IsOrdinary c) :
    ∀ c ∈ block opening closing level items, IsOrdinary c := by
  intro c hc
  by_cases hne : items = []
  · subst hne
    have hbrackets : block opening closing level [] = [opening, closing] := rfl
    rw [hbrackets, List.mem_cons, List.mem_singleton] at hc
    rcases hc with rfl | rfl
    · exact hopening
    · exact hclosing
  · rw [block_of_ne_nil _ _ _ hne] at hc
    simp only [List.mem_cons, List.mem_append, List.not_mem_nil, or_false] at hc
    rcases hc with rfl | hc | hc | hc | rfl
    · exact hopening
    · exact isOrdinary_of_mem_newline (n := 2 * (level + 1)) hc
    · exact isOrdinary_of_mem_lines h c hc
    · exact isOrdinary_of_mem_newline (n := 2 * level) hc
    · exact hclosing

theorem isOrdinary_of_mem_string {t : Text} {c : Char} (h : c ∈ string t) : IsOrdinary c :=
  .inr (isPrintable_of_mem_string h)

/-- The text of a document consists of printable characters and line feeds. -/
theorem isOrdinary_of_mem_print {d : Document} {level : Nat} {c : Char} (h : c ∈ print level d) :
    IsOrdinary c := by
  induction d using Document.induction generalizing level c with
  | text t => exact isOrdinary_of_mem_string h
  | bool b =>
    have hword : ∀ b, ∀ c ∈ boolWord b, IsOrdinary c := fun b => by
      cases b <;> exact forall_of_all (by decide)
    exact hword b c h
  | list items ih =>
    have hitems : ∀ x ∈ printAll (level + 1) items, ∀ c ∈ x, IsOrdinary c := by
      clear h
      induction items with
      | nil => exact fun x hx => absurd hx List.not_mem_nil
      | cons d ds ihds =>
        rw [printAll]
        refine List.forall_mem_cons.2 ⟨fun c hc => ih d List.mem_cons_self hc, ?_⟩
        exact ihds fun d hd => ih d (List.mem_cons_of_mem _ hd)
    exact isOrdinary_of_mem_block (by decide) (by decide) hitems c h
  | mapping entries ih =>
    have hentries : ∀ x ∈ printEntries (level + 1) entries, ∀ c ∈ x, IsOrdinary c := by
      clear h
      induction entries with
      | nil => exact fun x hx => absurd hx List.not_mem_nil
      | cons e es ihes =>
        rw [printEntries]
        refine List.forall_mem_cons.2 ⟨fun c hc => ?_,
          ihes fun e he => ih e (List.mem_cons_of_mem _ he)⟩
        rw [List.mem_append, List.mem_cons, List.mem_cons] at hc
        rcases hc with hc | rfl | rfl | hc
        · exact isOrdinary_of_mem_string hc
        · decide
        · decide
        · exact ih e List.mem_cons_self hc
    exact isOrdinary_of_mem_block (by decide) (by decide) hentries c h

/-! ## Declaration files -/

/-- A declaration file that declares one schema, for which `cs` stands. -/
def declarationText (cs : List Char) : List Char :=
  "\x7b\"schemas\": \x7b\"Derived\": ".toList ++ (cs ++ "\x7d\x7d".toList)

/-- The document of a declaration file that declares one schema. -/
def declarationDocument (d : Document) : Document :=
  .mapping [("schemas", .mapping [("Derived", d)])]

theorem declarationText_eq (cs : List Char) : declarationText cs =
    '\x7b' :: (string "schemas" ++ ':' :: ' ' :: '\x7b' :: (string "Derived" ++ ':' :: ' ' ::
      (cs ++ ['\x7d', '\x7d']))) := rfl

theorem tokensOf_declarationDocument (d : Document) : tokensOf (declarationDocument d) =
    [.flowMapping, .key, .scalar false "schemas", .value, .flowMapping, .key,
      .scalar false "Derived", .value] ++ (tokensOf d ++ [.flowMappingEnd, .flowMappingEnd]) := by
  simp [declarationDocument, tokensOf, tokensOfEntries]

theorem height_declarationDocument (d : Document) :
    (declarationDocument d).height = d.height + 2 := by
  simp [declarationDocument, Document.height, Document.heightOfEntries]

theorem hasDistinctKeys_declarationDocument {d : Document} (h : d.HasDistinctKeys) :
    (declarationDocument d).HasDistinctKeys := by
  have hone : ∀ {k : Text} {d : Document}, d.HasDistinctKeys →
      (Document.mapping [(k, d)]).HasDistinctKeys := fun hd =>
    .mapping (by simp) fun e he => by rwa [List.mem_singleton.1 he]
  exact hone (hone h)

theorem isOrdinary_of_mem_declarationText {d : Document} {level : Nat} :
    ∀ c ∈ declarationText (print level d), IsOrdinary c := by
  intro c hc
  rw [declarationText_eq] at hc
  simp only [List.mem_cons, List.mem_append, List.not_mem_nil, or_false] at hc
  rcases hc with rfl | hc | rfl | rfl | rfl | hc | rfl | rfl | hc | rfl | rfl
  · decide
  · exact isOrdinary_of_mem_string hc
  · decide
  · decide
  · decide
  · exact isOrdinary_of_mem_string hc
  · decide
  · decide
  · exact isOrdinary_of_mem_print hc
  · decide
  · decide

/-- At the beginning of a text, an opening bracket. -/
theorem next_opening {c d : Char} {s t : Token} {cs : List Char} (hb : IsBrackets c d s t) :
    ∃ l, Next { place := ⟨c :: cs, 0, 0, 0⟩ } l ∧ InFlow l [s] 1 cs ∧ l.keyAllowed = true := by
  have hstart := arrives_start ⟨c, cs, rfl, hb.beginsToken.1⟩
  have hfits : ∀ i, ([] : List Nat).head? = some i → i ≤ 0 := fun i hi => by cases hi
  have hstep : Next { place := ⟨c :: cs, 0, 0, 0⟩ }
      (inBrackets (Cursor.behind ⟨c :: cs, 0, 0, 0⟩ [c] cs) [s] []
        (inBlock ⟨c :: cs, 0, 0, 0⟩ [] [] true).remembered.possible) := by
    refine hstart.next rfl ?_ (Nat.lt_succ_self _)
    rw [closed_inBlock hfits, token_opening hb, openBracket_inBlock rfl]
  refine ⟨_, hstep, ⟨rfl, rfl, rfl, fun k hk => ?_, [], rfl, .nil⟩, rfl⟩
  have hk : some k = (inBlock ⟨c :: cs, 0, 0, 0⟩ [] [] true).remembered.possible := by
    simpa [inBrackets] using hk
  exact (optional_of_remembered (fun _ h => by cases h) hk.symm).1

/-- Behind the last bracket. -/
theorem arrives_end {l : Lexer} {ts : List Token} (h : InFlow l ts 0 []) :
    ∃ p, Arrives l (inBlock p ts [] true) ∧ p.rest = [] := by
  obtain ⟨gap, hrest, hgap⟩ := h.arrives
  have haround : l.around = [] := List.length_eq_zero_iff.1 h.depth
  obtain ⟨hmark, crossed, hskip⟩ : (gap ++ []).head? ≠ some '\uFEFF' ∧
      ∃ crossed, skipGap false (gap ++ []) = ([], crossed) := by
    rcases hgap with ⟨n, rfl⟩ | ⟨n, rfl⟩
    · refine ⟨?_, false, skipGap_blanks n⟩
      cases n <;> simp [blanks, List.replicate_succ]
    · exact ⟨by simp [Yaml.newline], true, skipGap_newline n⟩
  refine ⟨l.place.behind gap [], arrives_gap gap ⟨h.tokens, h.indents, haround, rfl⟩ hrest hmark
    hskip (fun k hk => ⟨h.optional k ?_, fun hne => absurd rfl hne⟩) fun hne => absurd rfl hne, rfl⟩
  rw [hk]
  exact List.mem_cons_self

variable {d : Document}

/-- The tokens of a file that declares one schema are those of its document. -/
theorem ofChars_declarationText (hkeeps : keepsKeys d = true)
    (hheight : d.height + 2 ≤ bracketLimit) : Tokens.ofChars (declarationText (print 0 d)) =
      ⟨tokensOf (declarationDocument (readBack d)), none⟩ := by
  have hschemas : (string "schemas").length ≤ keyReach := by decide
  have hderived : (string "Derived").length ≤ keyReach := by decide
  obtain ⟨l₁, hstep₁, hl₁, hallowed₁⟩ := next_opening .mapping
  obtain ⟨l₂, hreach₂, hl₂, -⟩ := hl₁.key hallowed₁ hschemas
  obtain ⟨l₃, hstep₃, hl₃, -, hallowed₃⟩ := InFlow.opening hl₂ .mapping .nil (by decide)
  obtain ⟨l₄, hreach₄, hl₄, -⟩ := hl₃.key hallowed₃ hderived
  have hreads : ReadsFlow d := reads d
  have hend : '\x7d' ∈ endMarks := by decide
  obtain ⟨l₅, hreach₅, hl₅⟩ := hreads.upTo hl₄ hend hkeeps (by omega)
  obtain ⟨l₆, hstep₆, hl₆⟩ := InFlow.closing hl₅ .mapping .nil
  obtain ⟨l₇, hstep₇, hl₇⟩ := InFlow.closing hl₆ .mapping .nil
  obtain ⟨p, hl, hp⟩ := arrives_end hl₇
  have hreach := ((((Relation.ReflTransGen.single hstep₁).trans hreach₂).tail hstep₃).trans
    hreach₄).trans hreach₅
  rw [declarationText_eq, tokensOf_declarationDocument]
  refine (ofChars_of_reaches ((hreach.tail hstep₆).tail hstep₇) hl hp).trans ?_
  have hnames : halved "schemas" = "schemas" ∧ halved "Derived" = "Derived" := by decide
  simp [hnames]

/-- What is declared in such a file is read back with the halves of surrogate pairs. -/
theorem read_declarationText (hkeys : (readBack d).HasDistinctKeys) (hkeeps : keepsKeys d = true)
    (hheight : d.height + 2 ≤ deepest) :
    Yaml.read (declarationText (print 0 d)) = .ok (declarationDocument (readBack d)).toData := by
  have hlimit : deepest ≤ bracketLimit := by decide
  have htokens := ofChars_declarationText hkeeps (Nat.le_trans hheight hlimit)
  obtain ⟨t, ts, hts, ht⟩ := tokensOf_begins (declarationDocument (readBack d))
  have hinside : t.isOutside = false := by
    cases t <;> first | rfl | cases ht
  have hnone : ∀ t ∈ ([] : List Token), t = .documentEnd := nofun
  obtain ⟨ns, hgraph, hd⟩ : ∃ ns, Graph.ofTokens? ⟨t :: ts, none⟩ = .ok (some ⟨ns, 0⟩) ∧
      Represents ns 0 (declarationDocument (readBack d)) := by
    refine ofTokens?_of_givesNode hinside hnone (reads_tree _ rfl ?_ ?_ ?_)
    · rw [List.append_nil, hts]
    · exact Nat.le_add_right ..
    · rw [height_declarationDocument, height_readBack, Nat.zero_add]
      exact hheight
  rw [← hts, ← htokens] at hgraph
  exact read_of_represents isOrdinary_of_mem_declarationText hgraph hd
    (hasDistinctKeys_declarationDocument hkeys)

end ShapeAlgebra.Json
