import ShapeAlgebra.Proofs.Document
import ShapeAlgebra.Proofs.Yaml.Line

/-!
# The tokens of documents in block style

A document in block style is read as the tokens of its structure: the marks for the beginning and
the end of a block come from the columns at which its lines begin, and it makes no difference
whether a key stands in front of its value or behind a question mark.

Results:

* `Yaml.Lexer.readsItems_of_readsNode`, `Yaml.Lexer.readsEntries_of_reads`: the lines of a block are
  read as their tokens if the nodes on them are.
* `Yaml.Lexer.reads`: a document is read as its tokens, behind a mark and behind a key.
-/

namespace ShapeAlgebra.Yaml

/-! ## The tokens of a document -/

mutual

/-- The tokens of a document. The items of a list that is `flush` stand as deep as the key in front
of it, and so do not make up a block of their own. -/
def tokensOf (flush : Bool) : Document → List Token
  | .text t => [.scalar (Style.of t == .plain) t]
  | .bool b => [.scalar true (Text.ofChars (boolWord b))]
  | .list items =>
    if items.isEmpty then [.flowSequence, .flowSequenceEnd]
    else if flush then tokensOfItems items
    else .blockSequence :: (tokensOfItems items ++ [.blockEnd])
  | .mapping entries =>
    if entries.isEmpty then [.flowMapping, .flowMappingEnd]
    else .blockMapping :: (tokensOfEntries entries ++ [.blockEnd])

/-- The tokens of items in block style. -/
def tokensOfItems : List Document → List Token
  | [] => []
  | d :: ds => .item :: (tokensOf false d ++ tokensOfItems ds)

/-- The tokens of entries in block style. -/
def tokensOfEntries : List (Text × Document) → List Token
  | [] => []
  | (k, d) :: rest => .key :: .scalar (Style.of k == .plain) k :: .value ::
      (tokensOf (isSimpleKey k) d ++ tokensOfEntries rest)

end

/-! ## Documents that can be read back -/

/-- Whether a key whose line begins at `indent` can be read back: its colon must not be too far
away, and behind a question mark it must be kept. -/
def keepsKey (indent : Nat) (k : Text) : Bool :=
  if isSimpleKey k then decide ((writeScalar ⟨indent, indent, false⟩ k).length ≤ keyReach)
  else decide (Place.Keeps ⟨indent + 2, indent + 2, true⟩ k)

mutual

/-- Whether the keys and texts of a document behind a mark can be read back. -/
def keepsNode (indent : Nat) : Document → Bool
  | .text t => decide (Place.Keeps ⟨indent, indent, true⟩ t)
  | .bool _ => true
  | .list items => keepsItems indent items
  | .mapping entries => keepsEntries indent entries

/-- Whether the keys and texts of a document behind a key can be read back. -/
def keepsValue (indent : Nat) : Document → Bool
  | .text t => decide (Place.Keeps ⟨indent + 2, indent + 2, true⟩ t)
  | .bool _ => true
  | .list items => keepsItems indent items
  | .mapping entries => keepsEntries (indent + 2) entries

/-- Whether the keys and texts of items can be read back. -/
def keepsItems (indent : Nat) : List Document → Bool
  | [] => true
  | d :: ds => keepsNode (indent + 2) d && keepsItems indent ds

/-- Whether the keys and texts of entries can be read back. -/
def keepsEntries (indent : Nat) : List (Text × Document) → Bool
  | [] => true
  | (k, d) :: rest => keepsKey indent k &&
      (if isSimpleKey k then keepsValue indent d else keepsNode (indent + 2) d) &&
        keepsEntries indent rest

end

/-! ## Beginnings -/

theorem writeKey_begins (n : Nat) (k : Text) :
    ∃ c cs, (writeKey n k).1 = c :: cs ∧ BeginsToken c := by
  rw [writeKey]
  split
  · obtain ⟨c, cs, hcs, hc⟩ := writeScalar_begins ⟨n, n, false⟩ k
    exact ⟨c, cs ++ [':'], by rw [hcs]; rfl, hc⟩
  · exact ⟨'?', _, rfl, by decide⟩

theorem writeItems_begins (n : Nat) {items : List Document} (h : items ≠ []) :
    ∃ c cs, writeItems n items = c :: cs ∧ BeginsToken c := by
  match items, h with
  | d :: ds, _ => exact ⟨'-', _, by rw [writeItems], by decide⟩

theorem writeEntries_cons (n : Nat) (k : Text) (d : Document) (rest : List (Text × Document)) :
    writeEntries n ((k, d) :: rest) = (writeKey n k).1 ++
      ((if isSimpleKey k then writeValue n (writeKey n k).2 d else ' ' :: writeNode (n + 2) d) ++
        if rest.isEmpty then [] else newline n ++ writeEntries n rest) := by
  rw [writeEntries, ← List.append_assoc]

theorem writeEntries_begins (n : Nat) {entries : List (Text × Document)} (h : entries ≠ []) :
    ∃ c cs, writeEntries n entries = c :: cs ∧ BeginsToken c := by
  match entries, h with
  | (k, d) :: rest, _ =>
    obtain ⟨c, cs, hcs, hc⟩ := writeKey_begins n k
    rw [writeEntries_cons, hcs]
    exact ⟨c, _, rfl, hc⟩

theorem boolWord_begins (b : Bool) : ∃ c cs, boolWord b = c :: cs ∧ BeginsToken c := by
  cases b <;> exact ⟨_, _, rfl, by decide⟩

theorem writeNode_begins (n : Nat) (d : Document) :
    ∃ c cs, writeNode n d = c :: cs ∧ BeginsToken c := by
  cases d with
  | text t => rw [writeNode]; exact writeScalar_begins _ t
  | bool b => rw [writeNode]; exact boolWord_begins b
  | list items =>
    rw [writeNode]
    split
    · exact ⟨'[', _, rfl, by decide⟩
    · next h => exact writeItems_begins n (by simpa using h)
  | mapping entries =>
    rw [writeNode]
    split
    · exact ⟨'\x7b', _, rfl, by decide⟩
    · next h => exact writeEntries_begins n (by simpa using h)

namespace Lexer

/-! ## Lines of blocks -/

/-- Whether a document behind a mark is read as its tokens, whatever follows it. -/
def ReadsNode (d : Document) : Prop :=
  ∀ {n m : Nat} {l : Lexer} {p : Cursor} {ts : List Token} {indents : List Nat}
    {after next : List Char}, 0 < n → keepsNode n d = true → Arrives l (inBlock p ts indents true) →
    p.rest = writeNode n d ++ after → p.column = n → (∀ i, indents.head? = some i → i < n) →
    Behind (inBlock p ts indents true).innerColumn after next m →
    l.GoesOn ((tokensOf false d).reverse ++ ts) indents next m

/-- Whether a document behind a key that stands at column `n` is read as its tokens, whatever
follows it. -/
def ReadsValue (d : Document) : Prop :=
  ∀ {n m column : Nat} {p : Cursor} {ts : List Token} {indents : List Nat}
    {after next : List Char}, keepsValue n d = true → p.rest = writeValue n column d ++ after →
    n < p.column → indents.head? = some n → Behind (n + 1) after next m →
    (inBlock p ts indents false).GoesOn ((tokensOf true d).reverse ++ ts) indents next m

section

variable {n m : Nat} {l : Lexer} {p : Cursor} {ts ts' : List Token} {indents indents' : List Nat}
  {after next : List Char}

theorem innerColumn_of_head? {keyAllowed : Bool} (h : indents.head? = some n) :
    (inBlock p ts indents keyAllowed).innerColumn = n + 1 := by
  match indents, h with
  | _ :: _, rfl => rfl

theorem innerColumn_le {keyAllowed : Bool} (h : ∀ i, indents.head? = some i → i < n) :
    (inBlock p ts indents keyAllowed).innerColumn ≤ n := by
  match indents with
  | [] => exact Nat.zero_le n
  | i :: _ => exact h i rfl

/-- A line that begins behind the innermost block is a line of a block of its own. -/
theorem fits_of_head? (hcolumn : p.column = n) (h : ∀ i, indents.head? = some i → i < n) :
    (∀ i, indents.head? = some i → i ≤ p.column) ∧ indents.head? ≠ some p.column := by
  rw [hcolumn]
  exact ⟨fun i hi => Nat.le_of_lt (h i hi), fun hn => Nat.lt_irrefl n (h n hn)⟩

/-- What stands behind the first node of a block: its further lines, if there are any. -/
theorem behind_lines {last : Bool} {lines : List Char}
    (hlines : last = false → ∃ c cs, lines = c :: cs ∧ BeginsToken c)
    (h : Behind (n + 1) after next m) : ∃ next' m',
      Behind (n + 1) ((if last then [] else newline n ++ lines) ++ after) next' m' ∧
      (last = true → next' = next ∧ m' = m) ∧ (last = false → next' = lines ++ after ∧ m' = n) := by
  cases last with
  | true => exact ⟨next, m, h, fun _ => ⟨rfl, rfl⟩, nofun⟩
  | false =>
    obtain ⟨c, cs, rfl, hc⟩ := hlines rfl
    refine ⟨c :: cs ++ after, n, ?_, nofun, fun _ => ⟨rfl, rfl⟩⟩
    rw [if_neg (by decide), List.append_assoc]
    exact .line (cs ++ after) (Nat.lt_succ_self n) hc

/-- The items of a block are read as their tokens if the nodes on its lines are. -/
theorem readsItems_of_readsNode {items : List Document} (hitems : ∀ d ∈ items, ReadsNode d)
    (hne : items ≠ []) (hkeeps : keepsItems n items = true)
    (hl : Arrives l (inBlock p ts indents true)) (hrest : p.rest = writeItems n items ++ after)
    (hcolumn : p.column = n) (hopens : Opens .blockSequence n indents ts indents' ts')
    (hbehind : Behind (n + 1) after next m) :
    l.GoesOn ((tokensOfItems items).reverse ++ ts') indents' next m := by
  induction items generalizing l p ts indents ts' indents' with
  | nil => exact absurd rfl hne
  | cons d ds ih =>
    rw [keepsItems, Bool.and_eq_true] at hkeeps
    obtain ⟨c, cs, hcs, hc⟩ := writeNode_begins (n + 2) d
    have hlines : ds.isEmpty = false →
        ∃ c cs, writeItems n ds = c :: cs ∧ BeginsToken c := fun h =>
      writeItems_begins n (by simpa using h)
    obtain ⟨next', m', hbehind', hlast, hmore⟩ := behind_lines hlines hbehind
    generalize hafter : (if ds.isEmpty then [] else newline n ++ writeItems n ds) ++ after =
      after' at hbehind'
    have hrest' : p.rest = '-' :: ' ' :: c :: (cs ++ after') := by
      rw [hrest, writeItems, ← hafter, ← List.append_assoc, hcs]
      simp only [List.cons_append, List.append_assoc]
    obtain ⟨l₁, p₁, hstep, harrives, hrest₁, hcolumn₁⟩ :=
      next_mark hl .item hrest' hc hcolumn hopens
    have hhead : ∀ i, indents'.head? = some i → i < n + 2 := by
      intro i hi
      rw [hopens.head?, Option.some.injEq] at hi
      omega
    have hrest₁' : p₁.rest = writeNode (n + 2) d ++ after' := by rw [hrest₁, hcs]; rfl
    rw [← innerColumn_of_head? hopens.head?] at hbehind'
    obtain ⟨l₂, p₂, hreach, harrives₂, hrest₂, hcolumn₂⟩ :=
      hitems d List.mem_cons_self (Nat.succ_pos _) hkeeps.1 harrives hrest₁' hcolumn₁ hhead hbehind'
    have hreach' := (Relation.ReflTransGen.single hstep).trans hreach
    have htokens : (tokensOfItems (d :: ds)).reverse ++ ts' = (tokensOfItems ds).reverse ++
        ((tokensOf false d).reverse ++ .item :: ts') := by
      simp [tokensOfItems]
    rw [htokens]
    cases ds with
    | nil =>
      obtain ⟨rfl, rfl⟩ := hlast rfl
      exact ⟨l₂, p₂, hreach', harrives₂, hrest₂, hcolumn₂⟩
    | cons e es =>
      obtain ⟨rfl, hm'⟩ := hmore rfl
      have hne' : writeItems n (e :: es) ++ after ≠ [] := by
        obtain ⟨c, cs, hcs, -⟩ := hlines rfl
        rw [hcs]
        exact List.cons_ne_nil _ _
      obtain ⟨l₃, p₃, hreach₃, hresult⟩ := ih (fun d hd => hitems d (List.mem_cons_of_mem _ hd))
        (List.cons_ne_nil e es) hkeeps.2 harrives₂ hrest₂ ((hcolumn₂ hne').trans hm')
        (.level hopens.head?)
      exact ⟨l₃, p₃, hreach'.trans hreach₃, hresult⟩

theorem gapAhead_writeValue (column : Nat) (d : Document) (cs : List Char) :
    gapAhead (writeValue n column d ++ cs) = true := by
  cases d with
  | text t => rfl
  | bool b => rfl
  | list items => rw [writeValue]; split <;> rfl
  | mapping entries => rw [writeValue]; split <;> rfl

/-- An entry whose key stands on one line. -/
theorem readsEntry_of_simple {k : Text} {d : Document} (hd : ReadsValue d)
    (hsimple : isSimpleKey k = true) (hkey : keepsKey n k = true) (hkeeps : keepsValue n d = true)
    (hl : Arrives l (inBlock p ts indents true))
    (hrest : p.rest = (writeKey n k).1 ++ (writeValue n (writeKey n k).2 d ++ after))
    (hcolumn : p.column = n) (hopens : Opens .blockMapping n indents ts indents' ts')
    (hbehind : Behind (n + 1) after next m) :
    l.GoesOn ((tokensOf true d).reverse ++
      .value :: .scalar (Style.of k == .plain) k :: .key :: ts') indents' next m := by
  have hwrite : (writeKey n k).1 = writeScalar ⟨n, n, false⟩ k ++ [':'] := by
    rw [writeKey, if_pos hsimple]
  have hreach : (writeScalar ⟨n, n, false⟩ k).length ≤ keyReach := by
    simpa [keepsKey, hsimple] using hkey
  have hrest' : p.rest = writeScalar ⟨n, n, false⟩ k ++
      ':' :: (writeValue n (writeKey n k).2 d ++ after) := by
    rw [hrest, hwrite, List.append_assoc]
    rfl
  obtain ⟨p₁, hreach₁, hrest₁, hcolumn₁⟩ := reaches_simpleKey hl hrest' hcolumn hsimple hreach
    (gapAhead_writeValue _ d after) hopens
  obtain ⟨l₂, p₂, hreach₂, hresult⟩ := hd hkeeps hrest₁ hcolumn₁ hopens.head? hbehind
  exact ⟨l₂, p₂, hreach₁.trans hreach₂, hresult⟩

/-- An entry whose key stands behind a question mark. -/
theorem readsEntry_of_not_simple {k : Text} {d : Document} (hd : ReadsNode d)
    (hsimple : isSimpleKey k = false) (hkey : keepsKey n k = true)
    (hkeeps : keepsNode (n + 2) d = true) (hl : Arrives l (inBlock p ts indents true))
    (hrest : p.rest = (writeKey n k).1 ++ (' ' :: writeNode (n + 2) d ++ after))
    (hcolumn : p.column = n) (hopens : Opens .blockMapping n indents ts indents' ts')
    (hbehind : Behind (n + 1) after next m) :
    l.GoesOn ((tokensOf false d).reverse ++
      .value :: .scalar (Style.of k == .plain) k :: .key :: ts') indents' next m := by
  have hwrite : (writeKey n k).1 = '?' :: ' ' ::
      (writeScalar ⟨n + 2, n + 2, true⟩ k ++ newline n ++ [':']) := by
    rw [writeKey, if_neg (by simp [hsimple])]
  have hplace : (⟨n + 2, n + 2, true⟩ : Place).Keeps k := by
    simpa [keepsKey, hsimple] using hkey
  have hhead : ∀ i, indents'.head? = some i → i < n + 2 := by
    intro i hi
    rw [hopens.head?, Option.some.injEq] at hi
    omega
  have hinner : ∀ p ts, (inBlock p ts indents' true).innerColumn = n + 1 := fun _ _ =>
    innerColumn_of_head? hopens.head?
  obtain ⟨c, cs, hcs, hc⟩ := writeScalar_begins ⟨n + 2, n + 2, true⟩ k
  obtain ⟨d', ds, hds, hd'⟩ := writeNode_begins (n + 2) d
  -- the key behind its mark
  have hrest' : p.rest = '?' :: ' ' :: c ::
      (cs ++ (newline n ++ ':' :: ' ' :: (writeNode (n + 2) d ++ after))) := by
    rw [hrest, hwrite, hcs]
    simp only [List.cons_append, List.append_assoc, List.nil_append]
  obtain ⟨l₁, p₁, hstep₁, harrives₁, hrest₁, hcolumn₁⟩ :=
    next_mark hl .key hrest' hc hcolumn hopens
  rw [← List.cons_append, ← hcs] at hrest₁
  obtain ⟨hfits, hnew⟩ := fits_of_head? hcolumn₁ hhead
  obtain ⟨l₂, p₂, hreach₂, harrives₂, hrest₂, hcolumn₂⟩ := goesOn_writeScalar harrives₁ hrest₁
    hfits (fun _ => hnew) (Nat.succ_pos _) (by rw [hinner]; exact Nat.le_succ _) hplace
    (leaves_of_behind (by rw [hinner]; exact .line _ (Nat.lt_succ_self n) (by decide)) _)
  -- the value behind its mark, on a line of the same block
  rw [hds, List.cons_append] at hrest₂
  obtain ⟨l₃, p₃, hstep₃, harrives₃, hrest₃, hcolumn₃⟩ := next_mark harrives₂ .value hrest₂ hd'
    (hcolumn₂ (List.cons_ne_nil _ _)) (.level hopens.head?)
  rw [← List.cons_append, ← hds] at hrest₃
  obtain ⟨l₄, p₄, hreach₄, hresult⟩ := hd (Nat.succ_pos _) hkeeps harrives₃ hrest₃ hcolumn₃ hhead
    (by rw [hinner]; exact hbehind)
  exact ⟨l₄, p₄, (((Relation.ReflTransGen.single hstep₁).trans hreach₂).tail hstep₃).trans hreach₄,
    hresult⟩

/-- The entries of a block are read as their tokens if their values are. -/
theorem readsEntries_of_reads {entries : List (Text × Document)}
    (hnodes : ∀ e ∈ entries, ReadsNode e.2) (hvalues : ∀ e ∈ entries, ReadsValue e.2)
    (hne : entries ≠ []) (hkeeps : keepsEntries n entries = true)
    (hl : Arrives l (inBlock p ts indents true))
    (hrest : p.rest = writeEntries n entries ++ after)
    (hcolumn : p.column = n) (hopens : Opens .blockMapping n indents ts indents' ts')
    (hbehind : Behind (n + 1) after next m) :
    l.GoesOn ((tokensOfEntries entries).reverse ++ ts') indents' next m := by
  induction entries generalizing l p ts indents ts' indents' with
  | nil => exact absurd rfl hne
  | cons e es ih =>
    obtain ⟨k, d⟩ := e
    rw [keepsEntries, Bool.and_eq_true, Bool.and_eq_true] at hkeeps
    obtain ⟨⟨hkey, hvalue⟩, hmore⟩ := hkeeps
    have hlines : es.isEmpty = false →
        ∃ c cs, writeEntries n es = c :: cs ∧ BeginsToken c := fun h =>
      writeEntries_begins n (by simpa using h)
    obtain ⟨next', m', hbehind', hlast, hfurther⟩ := behind_lines hlines hbehind
    generalize hafter : (if es.isEmpty then [] else newline n ++ writeEntries n es) ++ after =
      after' at hbehind'
    have hrest' : p.rest = (writeKey n k).1 ++ ((if isSimpleKey k then
        writeValue n (writeKey n k).2 d else ' ' :: writeNode (n + 2) d) ++ after') := by
      rw [hrest, writeEntries_cons, ← hafter]
      simp only [List.append_assoc]
    obtain ⟨l₁, p₁, hreach₁, harrives₁, hrest₁, hcolumn₁⟩ : l.GoesOn
        ((tokensOf (isSimpleKey k) d).reverse ++
          .value :: .scalar (Style.of k == .plain) k :: .key :: ts') indents' next' m' := by
      cases hsimple : isSimpleKey k with
      | true =>
        rw [hsimple, if_pos rfl] at hrest' hvalue
        exact readsEntry_of_simple (hvalues _ List.mem_cons_self) hsimple hkey hvalue hl hrest'
          hcolumn hopens hbehind'
      | false =>
        rw [hsimple, if_neg Bool.false_ne_true] at hrest' hvalue
        exact readsEntry_of_not_simple (hnodes _ List.mem_cons_self) hsimple hkey hvalue hl hrest'
          hcolumn hopens hbehind'
    have htokens : (tokensOfEntries ((k, d) :: es)).reverse ++ ts' =
        (tokensOfEntries es).reverse ++ ((tokensOf (isSimpleKey k) d).reverse ++
          .value :: .scalar (Style.of k == .plain) k :: .key :: ts') := by
      simp [tokensOfEntries]
    rw [htokens]
    cases es with
    | nil =>
      obtain ⟨rfl, rfl⟩ := hlast rfl
      exact ⟨l₁, p₁, hreach₁, harrives₁, hrest₁, hcolumn₁⟩
    | cons f fs =>
      obtain ⟨rfl, hm'⟩ := hfurther rfl
      have hne' : writeEntries n (f :: fs) ++ after ≠ [] := by
        obtain ⟨c, cs, hcs, -⟩ := hlines rfl
        rw [hcs]
        exact List.cons_ne_nil _ _
      obtain ⟨l₂, p₂, hreach₂, hresult⟩ := ih
        (fun e he => hnodes e (List.mem_cons_of_mem _ he))
        (fun e he => hvalues e (List.mem_cons_of_mem _ he)) (List.cons_ne_nil f fs) hmore
        harrives₁ hrest₁ ((hcolumn₁ hne').trans hm') (.level hopens.head?)
      exact ⟨l₂, p₂, hreach₁.trans hreach₂, hresult⟩

/-! ## Documents -/

/-- Behind the last line of a block that was opened at column `n`, the block is closed. -/
theorem reads_close (hhead : ∀ i, indents.head? = some i → i < n)
    (hbehind : Behind (inBlock p ts indents true).innerColumn after next m)
    (h : l.GoesOn ts' (n :: indents) next m) : l.GoesOn (.blockEnd :: ts') indents next m := by
  obtain ⟨l', p', hreach, harrives, rfl, hcolumn⟩ := h
  refine ⟨l', p', hreach, harrives.close fun hne => ?_, rfl, hcolumn⟩
  rw [hcolumn hne]
  exact Nat.lt_of_lt_of_le (hbehind.lt hne) (innerColumn_le hhead)

/-- The items of a list that opens a block. -/
theorem readsBlock_items {items : List Document} (hitems : ∀ d ∈ items, ReadsNode d)
    (hne : items ≠ []) (hkeeps : keepsItems n items = true)
    (hl : Arrives l (inBlock p ts indents true)) (hrest : p.rest = writeItems n items ++ after)
    (hcolumn : p.column = n) (hhead : ∀ i, indents.head? = some i → i < n)
    (hbehind : Behind (inBlock p ts indents true).innerColumn after next m) :
    l.GoesOn ((.blockSequence :: (tokensOfItems items ++ [.blockEnd])).reverse ++ ts) indents next
      m := by
  have hlines := hbehind.mono (Nat.le_succ_of_le (innerColumn_le hhead))
  have h := reads_close hhead hbehind (readsItems_of_readsNode hitems hne hkeeps hl hrest hcolumn
    (.deeper hhead) hlines)
  simpa using h

/-- The entries of a mapping that opens a block. -/
theorem readsBlock_entries {entries : List (Text × Document)}
    (hnodes : ∀ e ∈ entries, ReadsNode e.2) (hvalues : ∀ e ∈ entries, ReadsValue e.2)
    (hne : entries ≠ []) (hkeeps : keepsEntries n entries = true)
    (hl : Arrives l (inBlock p ts indents true)) (hrest : p.rest = writeEntries n entries ++ after)
    (hcolumn : p.column = n) (hhead : ∀ i, indents.head? = some i → i < n)
    (hbehind : Behind (inBlock p ts indents true).innerColumn after next m) :
    l.GoesOn ((.blockMapping :: (tokensOfEntries entries ++ [.blockEnd])).reverse ++ ts) indents
      next m := by
  have hlines := hbehind.mono (Nat.le_succ_of_le (innerColumn_le hhead))
  have h := reads_close hhead hbehind (readsEntries_of_reads hnodes hvalues hne hkeeps hl hrest
    hcolumn (.deeper hhead) hlines)
  simpa using h

end

/-- Behind a blank on the line of a key. -/
theorem arrives_behindColon {n : Nat} {p : Cursor} (ts : List Token) {indents : List Nat}
    {xs after : List Char} (hrest : p.rest = ' ' :: (xs ++ after))
    (hxs : ∃ c cs, xs = c :: cs ∧ BeginsToken c) (hcolumn : n < p.column)
    (hhead : indents.head? = some n) :
    ∃ p', Arrives (inBlock p ts indents false) (inBlock p' ts indents false) ∧
      p'.rest = xs ++ after ∧ ∀ i, indents.head? = some i → i ≤ p'.column := by
  obtain ⟨c, cs, rfl, hc⟩ := hxs
  refine ⟨p.behind [' '] (c :: cs ++ after), arrives_blank hrest hc, rfl, fun i hi => ?_⟩
  rw [hhead, Option.some.injEq] at hi
  have hbehind : (p.behind [' '] (c :: cs ++ after)).column = p.column + 1 := rfl
  omega

/-! ### By the kind of the document -/

theorem readsNode_text (t : Text) : ReadsNode (.text t) := by
  intro n m l p ts indents after next hn hkeeps hl hrest hcolumn hhead hbehind
  rw [writeNode] at hrest
  obtain ⟨hfits, hnew⟩ := fits_of_head? hcolumn hhead
  exact goesOn_writeScalar hl hrest hfits (fun _ => hnew) hn (innerColumn_le hhead)
    (by simpa [keepsNode] using hkeeps) (leaves_of_behind hbehind _)

theorem readsValue_text (t : Text) : ReadsValue (.text t) := by
  intro n m column p ts indents after next hkeeps hrest hcolumn hhead hbehind
  rw [writeValue] at hrest
  have hplace : (⟨n + 2, column + 1, true⟩ : Place).Keeps t := by
    simpa [keepsValue, Place.Keeps] using hkeeps
  obtain ⟨q, hq, hrest, hfits⟩ :=
    arrives_behindColon ts hrest (writeScalar_begins _ t) hcolumn hhead
  rw [← innerColumn_of_head? hhead] at hbehind
  exact goesOn_writeScalar hq hrest hfits nofun (Nat.succ_pos _)
    (by rw [innerColumn_of_head? hhead]; exact Nat.le_succ _) hplace (leaves_of_behind hbehind _)

theorem readsNode_bool (b : Bool) : ReadsNode (.bool b) := by
  intro n m l p ts indents after next hn hkeeps hl hrest hcolumn hhead hbehind
  rw [writeNode] at hrest
  obtain ⟨hfits, hnew⟩ := fits_of_head? hcolumn hhead
  exact goesOn_boolWord hl hrest hfits (fun _ => hnew) (leaves_of_behind hbehind _)

theorem readsValue_bool (b : Bool) : ReadsValue (.bool b) := by
  intro n m column p ts indents after next hkeeps hrest hcolumn hhead hbehind
  rw [writeValue] at hrest
  obtain ⟨q, hq, hrest, hfits⟩ := arrives_behindColon ts hrest (boolWord_begins b) hcolumn hhead
  rw [← innerColumn_of_head? hhead] at hbehind
  exact goesOn_boolWord hq hrest hfits nofun (leaves_of_behind hbehind _)

theorem readsNode_list {items : List Document} (hitems : ∀ d ∈ items, ReadsNode d) :
    ReadsNode (.list items) := by
  intro n m l p ts indents after next hn hkeeps hl hrest hcolumn hhead hbehind
  rw [writeNode] at hrest
  rw [tokensOf]
  split at hrest
  · next hnil =>
    rw [if_pos hnil]
    obtain ⟨hfits, hnew⟩ := fits_of_head? hcolumn hhead
    exact goesOn_brackets hl .sequence hrest hfits (fun _ => hnew) hbehind.follows
  · next hne =>
    rw [if_neg hne, if_neg Bool.false_ne_true]
    exact readsBlock_items hitems (by simpa using hne) (by simpa [keepsNode] using hkeeps) hl
      hrest hcolumn hhead hbehind

/-- The items of a list under a key stand as deep as the key. -/
theorem readsValue_list {items : List Document} (hitems : ∀ d ∈ items, ReadsNode d) :
    ReadsValue (.list items) := by
  intro n m column p ts indents after next hkeeps hrest hcolumn hhead hbehind
  rw [writeValue] at hrest
  rw [tokensOf]
  split at hrest
  · next hnil =>
    rw [if_pos hnil]
    obtain ⟨q, hq, hrest, hfits⟩ := arrives_behindColon ts hrest ⟨'[', [']'], rfl, by decide⟩
      hcolumn hhead
    exact goesOn_brackets hq .sequence hrest hfits nofun hbehind.follows
  · next hne =>
    rw [if_neg hne, if_pos rfl]
    have hne : items ≠ [] := by simpa using hne
    obtain ⟨c, cs, hcs, hc⟩ := writeItems_begins n hne
    rw [List.append_assoc, hcs, List.cons_append] at hrest
    obtain ⟨q, hq, hrest, hcolumn⟩ := arrives_newline ts indents false hrest hc
    rw [← List.cons_append, ← hcs] at hrest
    exact readsItems_of_readsNode hitems hne (by simpa [keepsValue] using hkeeps) hq hrest hcolumn
      (.level hhead) hbehind

section

variable {entries : List (Text × Document)} (hnodes : ∀ e ∈ entries, ReadsNode e.2)
  (hvalues : ∀ e ∈ entries, ReadsValue e.2)
include hnodes hvalues

theorem readsNode_mapping : ReadsNode (.mapping entries) := by
  intro n m l p ts indents after next hn hkeeps hl hrest hcolumn hhead hbehind
  rw [writeNode] at hrest
  rw [tokensOf]
  split at hrest
  · next hnil =>
    rw [if_pos hnil]
    obtain ⟨hfits, hnew⟩ := fits_of_head? hcolumn hhead
    exact goesOn_brackets hl .mapping hrest hfits (fun _ => hnew) hbehind.follows
  · next hne =>
    rw [if_neg hne]
    exact readsBlock_entries hnodes hvalues (by simpa using hne) (by simpa [keepsNode] using hkeeps)
      hl hrest hcolumn hhead hbehind

theorem readsValue_mapping : ReadsValue (.mapping entries) := by
  intro n m column p ts indents after next hkeeps hrest hcolumn hhead hbehind
  rw [writeValue] at hrest
  rw [tokensOf]
  split at hrest
  · next hnil =>
    rw [if_pos hnil]
    obtain ⟨q, hq, hrest, hfits⟩ := arrives_behindColon ts hrest
      ⟨'\x7b', ['\x7d'], rfl, by decide⟩ hcolumn hhead
    exact goesOn_brackets hq .mapping hrest hfits nofun hbehind.follows
  · next hne =>
    rw [if_neg hne]
    have hne : entries ≠ [] := by simpa using hne
    obtain ⟨c, cs, hcs, hc⟩ := writeEntries_begins (n + 2) hne
    rw [List.append_assoc, hcs, List.cons_append] at hrest
    obtain ⟨q, hq, hrest, hcolumn⟩ := arrives_newline ts indents false hrest hc
    rw [← List.cons_append, ← hcs] at hrest
    have hdeeper : ∀ i, indents.head? = some i → i < n + 2 := by
      intro i hi
      rw [hhead, Option.some.injEq] at hi
      omega
    exact readsBlock_entries hnodes hvalues hne (by simpa [keepsValue] using hkeeps) hq hrest
      hcolumn hdeeper (by rw [innerColumn_of_head? hhead]; exact hbehind)

end

/-- A document is read as its tokens, behind a mark and behind a key. -/
theorem reads (d : Document) : ReadsNode d ∧ ReadsValue d := by
  induction d using Document.induction with
  | text t => exact ⟨readsNode_text t, readsValue_text t⟩
  | bool b => exact ⟨readsNode_bool b, readsValue_bool b⟩
  | list items ih =>
    have hitems : ∀ d ∈ items, ReadsNode d := fun d hd => (ih d hd).1
    exact ⟨readsNode_list hitems, readsValue_list hitems⟩
  | mapping entries ih =>
    have hnodes : ∀ e ∈ entries, ReadsNode e.2 := fun e he => (ih e he).1
    have hvalues : ∀ e ∈ entries, ReadsValue e.2 := fun e he => (ih e he).2
    exact ⟨readsNode_mapping hnodes hvalues, readsValue_mapping hnodes hvalues⟩

end Lexer

end ShapeAlgebra.Yaml
