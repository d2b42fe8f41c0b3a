import ShapeAlgebra.Proofs.Document
import ShapeAlgebra.Proofs.Json.Lexing

/-!
# JSON texts as YAML tokens

The JSON text of a document is read as the tokens of collections between brackets, and of texts with
the halves of surrogate pairs.

Results:

* `Json.readsItems`, `Json.readsEntries`: the lines between brackets are read as their tokens.
* `Json.reads`: so is the text of a document between brackets.
-/

namespace ShapeAlgebra.Json

open Yaml Yaml.Lexer

/-! ## The tokens of a document -/

mutual

/-- The tokens of a document between brackets. -/
def tokensOf : Document → List Token
  | .text t => [.scalar false t]
  | .bool b => [.scalar true (Text.ofChars (boolWord b))]
  | .list items => .flowSequence :: (tokensOfItems items ++ [.flowSequenceEnd])
  | .mapping entries => .flowMapping :: (tokensOfEntries entries ++ [.flowMappingEnd])

/-- The tokens of items between brackets. -/
def tokensOfItems : List Document → List Token
  | [] => []
  | d :: ds => tokensOf d ++ (if ds.isEmpty then [] else .comma :: tokensOfItems ds)

/-- The tokens of entries between brackets. -/
def tokensOfEntries : List (Text × Document) → List Token
  | [] => []
  | (k, d) :: rest => .key :: .scalar false k :: .value ::
      (tokensOf d ++ (if rest.isEmpty then [] else .comma :: tokensOfEntries rest))

end

/-! ## Documents that are read back -/

mutual

/-- What is read from the text of a document: the document with the halves of surrogate pairs. -/
def readBack : Document → Document
  | .text t => .text (halved t)
  | .bool b => .bool b
  | .list items => .list (readBackItems items)
  | .mapping entries => .mapping (readBackEntries entries)

/-- What is read from the texts of items. -/
def readBackItems : List Document → List Document
  | [] => []
  | d :: ds => readBack d :: readBackItems ds

/-- What is read from the texts of entries. -/
def readBackEntries : List (Text × Document) → List (Text × Document)
  | [] => []
  | (k, d) :: rest => (halved k, readBack d) :: readBackEntries rest

end

mutual

/-- Whether the keys of a document are read as keys: none of their colons is too far away. -/
def keepsKeys : Document → Bool
  | .text _ => true
  | .bool _ => true
  | .list items => keepsItems items
  | .mapping entries => keepsEntries entries

/-- Whether the keys in items are read as keys. -/
def keepsItems : List Document → Bool
  | [] => true
  | d :: ds => keepsKeys d && keepsItems ds

/-- Whether the keys of entries, and those in them, are read as keys. -/
def keepsEntries : List (Text × Document) → Bool
  | [] => true
  | (k, d) :: rest => decide ((string k).length ≤ keyReach) && keepsKeys d && keepsEntries rest

end

theorem readBackItems_eq_map (items : List Document) :
    readBackItems items = items.map readBack := by
  induction items with
  | nil => rfl
  | cons d ds ih => rw [readBackItems, ih, List.map_cons]

theorem readBackEntries_eq_map (entries : List (Text × Document)) :
    readBackEntries entries = entries.map fun e => (halved e.1, readBack e.2) := by
  induction entries with
  | nil => rfl
  | cons e es ih => rw [readBackEntries, ih, List.map_cons]

theorem height_readBack (d : Document) : (readBack d).height = d.height := by
  induction d using Document.induction with
  | text t => rfl
  | bool b => rfl
  | list items ih =>
    rw [readBack, Document.height, Document.height]
    congr 1
    induction items with
    | nil => rfl
    | cons d ds ihds =>
      rw [readBackItems, Document.heightOfItems, Document.heightOfItems, ih d List.mem_cons_self,
        ihds fun d hd => ih d (List.mem_cons_of_mem _ hd)]
  | mapping entries ih =>
    rw [readBack, Document.height, Document.height]
    congr 1
    induction entries with
    | nil => rfl
    | cons e es ihes =>
      rw [readBackEntries, Document.heightOfEntries, Document.heightOfEntries,
        ih e List.mem_cons_self, ihes fun e he => ih e (List.mem_cons_of_mem _ he)]

theorem keepsItems_iff {items : List Document} :
    keepsItems items = true ↔ ∀ d ∈ items, keepsKeys d = true := by
  induction items with
  | nil => simp [keepsItems]
  | cons d ds ih => simp [keepsItems, ih]

theorem keepsEntries_iff {entries : List (Text × Document)} : keepsEntries entries = true ↔
    ∀ e ∈ entries, (string e.1).length ≤ keyReach ∧ keepsKeys e.2 = true := by
  induction entries with
  | nil => simp [keepsEntries]
  | cons e es ih => simp [keepsEntries, ih]

/-! ## Lines -/

/-- The lines between brackets, of which the first begins behind the line break. -/
def lines (level : Nat) (xs : List (List Char)) : List Char :=
  (xs.intersperse (',' :: Json.newline level)).flatten

theorem lines_cons (level : Nat) (x : List Char) (xs : List (List Char)) : lines level (x :: xs) =
    x ++ (if xs.isEmpty then [] else ',' :: (Json.newline level ++ lines level xs)) := by
  cases xs with
  | nil => simp [lines]
  | cons y ys => simp [lines, List.intersperse]

theorem block_of_ne_nil (opening closing : Char) (level : Nat) {items : List (List Char)}
    (h : items ≠ []) : block opening closing level items =
      opening :: (Json.newline (level + 1) ++ (lines (level + 1) items ++
        (Json.newline level ++ [closing]))) := by
  have hlines : ∀ xs : List (List Char), xs ≠ [] →
      ((xs.map fun i => Json.newline (level + 1) ++ i).intersperse [',']).flatten =
        Json.newline (level + 1) ++ lines (level + 1) xs := by
    intro xs hxs
    induction xs with
    | nil => exact absurd rfl hxs
    | cons x xs ih =>
      cases xs with
      | nil => simp [lines]
      | cons y ys =>
        have ih := ih (List.cons_ne_nil y ys)
        rw [List.map_cons] at ih
        rw [lines_cons, List.map_cons, List.map_cons, List.intersperse_cons_cons,
          List.flatten_cons, List.flatten_cons, ih]
        simp
  have hempty : items.isEmpty = false := by simpa using h
  rw [block, hempty, if_neg Bool.false_ne_true, hlines items h]
  simp only [List.append_assoc]

theorem isGap_newline (level : Nat) : IsGap (Json.newline level) := .inr ⟨2 * level, rfl⟩

/-! ## Reading documents -/

/-- Whether a document is read as its tokens between brackets. -/
def ReadsFlow (d : Document) : Prop :=
  ∀ {l : Lexer} {ts : List Token} {depth level : Nat} {gap : List Char} {c : Char}
    {cs : List Char}, InFlow l ts (depth + 1) (print level d ++ (gap ++ c :: cs)) → IsGap gap →
    c ∈ endMarks → keepsKeys d = true → depth + 1 + d.height ≤ bracketLimit →
    ∃ l', Reaches l l' ∧ InFlow l' ((tokensOf (readBack d)).reverse ++ ts) (depth + 1) (c :: cs)

section

variable {l : Lexer} {ts : List Token} {depth level : Nat} {gap : List Char} {c : Char}
  {cs : List Char}

/-- A document up to a mark that follows it at once. -/
theorem ReadsFlow.upTo {d : Document} (h : ReadsFlow d)
    (hl : InFlow l ts (depth + 1) (print level d ++ c :: cs)) (hc : c ∈ endMarks)
    (hkeeps : keepsKeys d = true) (hdepth : depth + 1 + d.height ≤ bracketLimit) :
    ∃ l', Reaches l l' ∧
      InFlow l' ((tokensOf (readBack d)).reverse ++ ts) (depth + 1) (c :: cs) := by
  have hl : InFlow l ts (depth + 1) (print level d ++ ([] ++ c :: cs)) := hl
  exact h hl .nil hc hkeeps hdepth

/-- The items between brackets. -/
theorem readsItems {items : List Document} (hitems : ∀ d ∈ items, ReadsFlow d) (hne : items ≠ [])
    (hl : InFlow l ts (depth + 1) (lines level (printAll level items) ++ (gap ++ c :: cs)))
    (hgap : IsGap gap) (hc : c ∈ endMarks) (hkeeps : keepsItems items = true)
    (hdepth : depth + 1 + Document.heightOfItems items ≤ bracketLimit) :
    ∃ l', Reaches l l' ∧
      InFlow l' ((tokensOfItems (readBackItems items)).reverse ++ ts) (depth + 1) (c :: cs) := by
  induction items generalizing l ts with
  | nil => exact absurd rfl hne
  | cons d ds ih =>
    rw [keepsItems, Bool.and_eq_true] at hkeeps
    rw [Document.heightOfItems] at hdepth
    rw [printAll, lines_cons] at hl
    cases ds with
    | nil =>
      rw [printAll, List.isEmpty_nil, if_pos rfl, List.append_nil] at hl
      rw [readBackItems, readBackItems, tokensOfItems, List.isEmpty_nil, if_pos rfl,
        List.append_nil]
      exact hitems d List.mem_cons_self hl hgap hc hkeeps.1 (by omega)
    | cons e es =>
      rw [printAll, List.isEmpty_cons, if_neg Bool.false_ne_true, ← printAll, List.append_assoc,
        List.cons_append, List.append_assoc] at hl
      have hitem : ReadsFlow d := hitems d List.mem_cons_self
      obtain ⟨l₁, hreach₁, hl₁⟩ := hitem.upTo hl (by decide) hkeeps.1 (by omega)
      obtain ⟨l₂, hstep, hl₂, -⟩ := hl₁.comma (isGap_newline level)
      obtain ⟨l₃, hreach₃, hl₃⟩ := ih (fun d hd => hitems d (List.mem_cons_of_mem _ hd))
        (List.cons_ne_nil e es) hl₂ hkeeps.2 (by omega)
      refine ⟨l₃, (hreach₁.tail hstep).trans hreach₃, ?_⟩
      have htokens : (tokensOfItems (readBackItems (d :: e :: es))).reverse ++ ts =
          (tokensOfItems (readBackItems (e :: es))).reverse ++
            .comma :: ((tokensOf (readBack d)).reverse ++ ts) := by
        simp [readBackItems, tokensOfItems]
      rwa [htokens]

/-- The entries between brackets. -/
theorem readsEntries {entries : List (Text × Document)} (hvalues : ∀ e ∈ entries, ReadsFlow e.2)
    (hne : entries ≠ [])
    (hl : InFlow l ts (depth + 1) (lines level (printEntries level entries) ++ (gap ++ c :: cs)))
    (hallowed : l.keyAllowed = true) (hgap : IsGap gap) (hc : c ∈ endMarks)
    (hkeeps : keepsEntries entries = true)
    (hdepth : depth + 1 + Document.heightOfEntries entries ≤ bracketLimit) :
    ∃ l', Reaches l l' ∧
      InFlow l' ((tokensOfEntries (readBackEntries entries)).reverse ++ ts) (depth + 1)
        (c :: cs) := by
  induction entries generalizing l ts with
  | nil => exact absurd rfl hne
  | cons e es ih =>
    obtain ⟨k, d⟩ := e
    rw [keepsEntries, Bool.and_eq_true, Bool.and_eq_true, decide_eq_true_eq] at hkeeps
    obtain ⟨⟨hreach, hd⟩, hmore⟩ := hkeeps
    rw [Document.heightOfEntries] at hdepth
    rw [printEntries, lines_cons] at hl
    simp only [List.append_assoc, List.cons_append] at hl
    have hvalue : ReadsFlow d := hvalues (k, d) List.mem_cons_self
    obtain ⟨l₁, hreach₁, hl₁, -⟩ := hl.key hallowed hreach
    cases es with
    | nil =>
      rw [printEntries, List.isEmpty_nil, if_pos rfl, List.nil_append] at hl₁
      obtain ⟨l₂, hreach₂, hl₂⟩ := hvalue hl₁ hgap hc hd (by omega)
      refine ⟨l₂, hreach₁.trans hreach₂, ?_⟩
      have htokens : (tokensOfEntries (readBackEntries [(k, d)])).reverse ++ ts =
          (tokensOf (readBack d)).reverse ++ .value :: .scalar false (halved k) :: .key :: ts := by
        simp [readBackEntries, tokensOfEntries]
      rwa [htokens]
    | cons f fs =>
      have hempty : (printEntries level (f :: fs)).isEmpty = false := by
        rw [printEntries]
        rfl
      rw [hempty, if_neg Bool.false_ne_true, List.cons_append, List.append_assoc] at hl₁
      obtain ⟨l₂, hreach₂, hl₂⟩ := hvalue.upTo hl₁ (by decide) hd (by omega)
      obtain ⟨l₃, hstep, hl₃, -, hallowed₃⟩ := hl₂.comma (isGap_newline level)
      obtain ⟨l₄, hreach₄, hl₄⟩ := ih (fun e he => hvalues e (List.mem_cons_of_mem _ he))
        (List.cons_ne_nil f fs) hl₃ hallowed₃ hmore (by omega)
      refine ⟨l₄, ((hreach₁.trans hreach₂).tail hstep).trans hreach₄, ?_⟩
      have htokens : (tokensOfEntries (readBackEntries ((k, d) :: f :: fs))).reverse ++ ts =
          (tokensOfEntries (readBackEntries (f :: fs))).reverse ++
            .comma :: ((tokensOf (readBack d)).reverse ++
              .value :: .scalar false (halved k) :: .key :: ts) := by
        simp [readBackEntries, tokensOfEntries]
      rwa [htokens]

/-- A block is read as what is between its brackets, and the tokens of these. -/
theorem reads_block {opening closing : Char} {s t : Token} {next : List Char}
    {parts : List (List Char)} {us : List Token} (hb : IsBrackets opening closing s t)
    (hne : parts ≠ [])
    (hl : InFlow l ts (depth + 1) (block opening closing level parts ++ (gap ++ next)))
    (hgap : IsGap gap) (hdepth : depth + 1 < bracketLimit)
    (hinner : ∀ {l₁ : Lexer}, InFlow l₁ (s :: ts) (depth + 2) (Json.lines (level + 1) parts ++
      (Json.newline level ++ closing :: (gap ++ next))) → l₁.keyAllowed = true →
      ∃ l₂, Reaches l₁ l₂ ∧
        InFlow l₂ (us.reverse ++ s :: ts) (depth + 2) (closing :: (gap ++ next))) :
    ∃ l', Reaches l l' ∧ InFlow l' ((s :: us ++ [t]).reverse ++ ts) (depth + 1) next := by
  rw [block_of_ne_nil _ _ _ hne] at hl
  simp only [List.cons_append, List.append_assoc, List.nil_append] at hl
  obtain ⟨l₁, hstep₁, hl₁, -, hallowed⟩ := hl.opening hb (isGap_newline _) hdepth
  obtain ⟨l₂, hreach₂, hl₂⟩ := hinner hl₁ hallowed
  obtain ⟨l₃, hstep₃, hl₃⟩ := hl₂.closing hb hgap
  refine ⟨l₃, ((Relation.ReflTransGen.single hstep₁).trans hreach₂).tail hstep₃, ?_⟩
  simpa using hl₃

end

theorem readsFlow_list {items : List Document} (h : ∀ d ∈ items, ReadsFlow d) :
    ReadsFlow (.list items) := by
  intro l ts depth level gap c cs hl hgap hc hkeeps hdepth
  rw [Document.height] at hdepth
  rw [print] at hl
  rw [readBack, tokensOf]
  cases items with
  | nil =>
    have hbrackets : block '[' ']' level (printAll (level + 1) []) = ['[', ']'] := rfl
    rw [hbrackets, List.cons_append, List.singleton_append] at hl
    exact hl.emptyBrackets .sequence hgap (by omega)
  | cons d ds =>
    have hne : printAll (level + 1) (d :: ds) ≠ [] := by
      rw [printAll]
      exact List.cons_ne_nil _ _
    exact reads_block .sequence hne hl hgap (by omega) fun hl₁ _ =>
      readsItems h (List.cons_ne_nil d ds) hl₁ (isGap_newline level) (by decide) hkeeps (by omega)

theorem readsFlow_mapping {entries : List (Text × Document)} (h : ∀ e ∈ entries, ReadsFlow e.2) :
    ReadsFlow (.mapping entries) := by
  intro l ts depth level gap c cs hl hgap hc hkeeps hdepth
  rw [Document.height] at hdepth
  rw [print] at hl
  rw [readBack, tokensOf]
  cases entries with
  | nil =>
    have hbrackets : block '\x7b' '\x7d' level (printEntries (level + 1) []) =
        ['\x7b', '\x7d'] := rfl
    rw [hbrackets, List.cons_append, List.singleton_append] at hl
    exact hl.emptyBrackets .mapping hgap (by omega)
  | cons e es =>
    have hne : printEntries (level + 1) (e :: es) ≠ [] := by
      rw [printEntries]
      exact List.cons_ne_nil _ _
    exact reads_block .mapping hne hl hgap (by omega) fun hl₁ hallowed =>
      readsEntries h (List.cons_ne_nil e es) hl₁ hallowed (isGap_newline level) (by decide) hkeeps
        (by omega)

/-- The text of a document between brackets is read as its tokens. -/
theorem reads (d : Document) : ReadsFlow d := by
  induction d using Document.induction with
  | text t =>
    intro l ts depth level gap c cs hl hgap _ hkeeps _
    rw [print] at hl
    obtain ⟨l', hstep, hl'⟩ := hl.string hgap
    exact ⟨l', .single hstep, hl'⟩
  | bool b =>
    intro l ts depth level gap c cs hl hgap hc _ _
    obtain ⟨l', hstep, hl'⟩ := InFlow.boolWord (b := b) hc hgap hl
    exact ⟨l', .single hstep, hl'⟩
  | list items ih => exact readsFlow_list ih
  | mapping entries ih => exact readsFlow_mapping ih

end ShapeAlgebra.Json
