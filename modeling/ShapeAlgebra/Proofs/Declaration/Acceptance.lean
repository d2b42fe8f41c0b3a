import ShapeAlgebra.Proofs.Declaration.Legality
import ShapeAlgebra.Proofs.Declaration.Resolution

/-!
# Which documents are catalogs

A finite document makes a catalog exactly when it belongs to the grammar and no declared name
refers to itself, not even by way of others. A document that has only such cycles against it is
turned down with one of them.

Results:

* `Declarations.ofEntries_eq_ok_iff`: which entries are declarations under names.
* `Declarations.refers_eq_edge`: the references that are followed are those of the grammar.
* `Catalog.exists_means_of_ofDocument`, `Catalog.exists_of_means`: a catalog binds names to what
  they mean, and there is one where all names have meanings.
* `Catalog.exists_ofDocument_iff`: which finite documents make catalogs.
* `Catalog.ofDocument_of_isSection`: the cycle that is told of.
-/

namespace ShapeAlgebra

/-! ## Sections of declarations -/

namespace Grammar

/-- All keys are names: texts that are not blank. -/
def HasNames (entries : List (Data × Data)) : Prop :=
  ∀ k ∈ entries.map Prod.fst, ∃ n, k = .text n ∧ n.strip ≠ []

/-- There is a declaration under a name. -/
def Declares (entries : List (Data × Data)) (n : Text) : Prop :=
  ∃ d, Data.find? entries n = some d

/-- The declaration of the first name mentions the second, which is declared. -/
def Edge (entries : List (Data × Data)) (m n : Text) : Prop :=
  ∃ d, Data.find? entries m = some d ∧ Mentions (Declares entries) d n

/-- Declarations of shapes under names, with all references to declared names. -/
structure IsSection (entries : List (Data × Data)) : Prop where
  names : HasNames entries
  shapes : ∀ n d, Data.find? entries n = some d → Shape (Declares entries) d

/-- No name leads back to itself. -/
def IsAcyclic (entries : List (Data × Data)) : Prop :=
  ∀ n, ¬ Relation.TransGen (Edge entries) n n

/-- A document that declares schemas: its part `schemas` is a section of declarations without
cycles. -/
def IsDocument (document : List (Data × Data)) : Prop :=
  ∃ entries, Data.find? document "schemas" = some (.mapping entries) ∧ IsSection entries ∧
    IsAcyclic entries

/-- A name from which a cycle is reached. -/
def ReachesCycle (entries : List (Data × Data)) (n : Text) : Prop :=
  ∃ c, Relation.ReflTransGen (Edge entries) n c ∧ Relation.TransGen (Edge entries) c c

/-- The cycle that is told of, from `c` over `cs` back to `c`: declared names without repetition,
each mentioned by the one before it, and reached from the first declared name that reaches any
cycle. -/
structure IsReportedCycle (entries : List (Data × Data)) (c : Text) (cs : List Text) : Prop where
  nodup : (c :: cs).Nodup
  declares : ∀ n ∈ c :: cs, Declares entries n
  edges : List.IsChain (Edge entries) (c :: cs ++ [c])
  reached : ∃ before first after, entries.map Prod.fst = before ++ .text first :: after ∧
    (∀ n, .text n ∈ before → ¬ ReachesCycle entries n) ∧ ReachesCycle entries first ∧
    Relation.ReflTransGen (Edge entries) first c

end Grammar

open Grammar

namespace Declarations

/-- Declarations as entries of a mapping. -/
def entries (ds : Declarations) : List (Data × Data) := ds.map fun p => (.text p.1, p.2)

theorem map_fst_entries (ds : Declarations) :
    ds.entries.map Prod.fst = (ds.map Prod.fst).map .text := by
  rw [entries, List.map_map, List.map_map]
  rfl

theorem find?_entries (ds : Declarations) (n : Text) :
    Data.find? ds.entries n = ds.lookup n := by
  induction ds with
  | nil => rfl
  | cons p ds ih =>
    obtain ⟨k, d⟩ := p
    rw [entries, List.map_cons, Data.find?_cons_text, List.lookup_cons]
    split
    · next h => rw [h, beq_self_eq_true]
    · next h =>
      rw [beq_eq_false_iff_ne.2 h]
      exact ih

theorem ofEntries_eq_ok_iff {es : List (Data × Data)} {ds : Declarations} :
    Declarations.ofEntries es = .ok ds ↔ es = ds.entries ∧ HasNames es := by
  induction es generalizing ds with
  | nil => cases ds <;> simp [Declarations.ofEntries, entries, HasNames]
  | cons e es ih =>
    obtain ⟨k, d⟩ := e
    constructor
    · intro h
      cases k with
      | text n =>
        rw [Declarations.ofEntries] at h
        split at h
        · cases h
        · next hb =>
          cases hrest : Declarations.ofEntries es with
          | error cause => rw [hrest] at h; cases h
          | ok rest =>
            rw [hrest] at h
            cases h
            obtain ⟨rfl, hn⟩ := ih.1 hrest
            refine ⟨rfl, List.forall_mem_cons.2 ⟨⟨n, rfl, ?_⟩, hn⟩⟩
            exact fun hs => hb ((Text.isBlank_iff_strip_eq_nil n).2 hs)
      | _ => simp [Declarations.ofEntries] at h
    · rintro ⟨he, hn⟩
      cases ds with
      | nil => cases he
      | cons p ds =>
        obtain ⟨n, d'⟩ := p
        obtain ⟨hhead, hrest⟩ := List.cons.inj he
        cases hhead
        obtain ⟨⟨m, hm, hb⟩, hn⟩ := List.forall_mem_cons.1 hn
        cases hm
        rw [Declarations.ofEntries, if_neg (mt (Text.isBlank_iff_strip_eq_nil n).1 hb),
          ih.2 ⟨hrest, hn⟩]
        rfl

theorem hasNames_entries_iff {ds : Declarations} :
    HasNames ds.entries ↔ ∀ n ∈ ds.map Prod.fst, n.strip ≠ [] := by
  rw [HasNames, map_fst_entries, List.forall_mem_map]
  refine forall₂_congr fun n _ => ?_
  constructor
  · rintro ⟨m, hm, hs⟩
    cases hm
    exact hs
  · intro hs
    exact ⟨n, rfl, hs⟩

theorem nodup_entries_iff {ds : Declarations} :
    (ds.entries.map Prod.fst).Nodup ↔ (ds.map Prod.fst).Nodup := by
  rw [map_fst_entries, List.Nodup, List.pairwise_map]
  simp only [ne_eq, Data.text.injEq, List.Nodup]

theorem exists_eq_entries {es : List (Data × Data)} (h : HasNames es) :
    ∃ ds : Declarations, es = ds.entries := by
  induction es with
  | nil => exact ⟨[], rfl⟩
  | cons e es ih =>
    obtain ⟨⟨n, hn, -⟩, h⟩ := List.forall_mem_cons.1 h
    obtain ⟨ds, rfl⟩ := ih h
    obtain ⟨k, d⟩ := e
    cases hn
    exact ⟨(n, d) :: ds, rfl⟩

variable {ds : Declarations}

theorem declares_eq (ds : Declarations) :
    (fun n => ds.declares n = true) = Declares ds.entries := by
  funext n
  rw [Declares, find?_entries, declares, Option.isSome_iff_exists]

theorem declares_iff {n : Text} : ds.declares n = true ↔ Declares ds.entries n := by
  rw [← declares_eq]

/-- The blank name is not declared. -/
theorem not_declares_nil (h : HasNames ds.entries) : ds.declares [] = false := by
  rw [← Bool.not_eq_true]
  intro hd
  have hmem := List.mem_map_of_mem (f := Data.text) (mem_of_declares hd)
  obtain ⟨n, he, hb⟩ := h _ (map_fst_entries ds ▸ hmem)
  cases he
  exact hb rfl

theorem outline?_eq (ds : Declarations) (n : Text) :
    ds.outline? n = (Data.find? ds.entries n).map (Outline.ofData ds.declares [] n) := by
  rw [find?_entries, outline?]

theorem isLegal_of_isSection (h : IsSection ds.entries) : ds.IsLegal := by
  intro n o ho
  obtain ⟨d, hd, rfl⟩ := Option.map_eq_some_iff.1 (outline?_eq ds n ▸ ho)
  have hs := h.shapes n d hd
  rw [← declares_eq] at hs
  exact (hs.conveys [] n (not_declares_nil h.names)).isLegal

/-- The references that are followed are those of the grammar. -/
theorem refers_eq_edge (h : IsSection ds.entries) : ds.Refers = Edge ds.entries := by
  funext m n
  rw [Refers, Edge, outline?_eq]
  cases hd : Data.find? ds.entries m with
  | none => simp
  | some d =>
    have hs := h.shapes m d hd
    rw [← declares_eq] at hs ⊢
    have hc := hs.conveys [] m (not_declares_nil h.names)
    simp [hc.mem_references]

/-- Finite declarations without faults are a section of the grammar. -/
theorem isSection_of_isLegal (hf : Data.entriesFinite ds.entries = true)
    (hn : HasNames ds.entries) (hl : ds.IsLegal) : IsSection ds.entries := by
  refine ⟨hn, fun n d hd => ?_⟩
  rw [← declares_eq]
  refine shape_of_isLegal (Data.isFinite_of_find? ?_ hd) (hl n (.ofData ds.declares [] n d) ?_)
  · rw [Data.isFinite]
    exact hf
  · rw [outline?_eq, hd, Option.map_some]

end Declarations

/-! ## Documents -/

/-- In a chain everything but the last is followed by something. -/
theorem exists_rel_of_isChain {α : Type} {r : α → α → Prop} {l : List α} {a b : α}
    (h : List.IsChain r (l ++ [b])) (ha : a ∈ l) : ∃ c, r a c := by
  obtain ⟨before, after, rfl⟩ := List.append_of_mem ha
  rw [List.append_assoc, List.cons_append] at h
  have hrest := h.right_of_append
  cases after with
  | nil => exact ⟨b, (List.isChain_cons_cons.1 hrest).1⟩
  | cons c _ => exact ⟨c, (List.isChain_cons_cons.1 hrest).1⟩

namespace Catalog

theorem ofDocument_eq_of_entries {document : List (Data × Data)} {ds : Declarations}
    (hs : (Data.find? document "schemas").bind Data.entries? = some ds.entries)
    (hn : HasNames ds.entries) (path : Option Text) :
    Catalog.ofDocument document path = (ds.resolve).map (Catalog.mk path) := by
  simp only [Catalog.ofDocument, hs, Declarations.ofEntries_eq_ok_iff.2 ⟨rfl, hn⟩, Bind.bind,
    Except.bind]
  cases ds.resolve <;> rfl

theorem exists_entries_of_ofDocument {document : List (Data × Data)} {path : Option Text}
    {c : Catalog} (h : Catalog.ofDocument document path = .ok c) : ∃ ds : Declarations,
      (Data.find? document "schemas").bind Data.entries? = some ds.entries ∧
        HasNames ds.entries ∧ ds.resolve = .ok c.schemas := by
  rw [Catalog.ofDocument] at h
  split at h
  · next es hs =>
    cases hds : Declarations.ofEntries es with
    | error cause => rw [hds] at h; cases h
    | ok ds =>
      obtain ⟨rfl, hn⟩ := Declarations.ofEntries_eq_ok_iff.1 hds
      rw [hds] at h
      cases hrs : ds.resolve with
      | error cause => simp [hrs, Bind.bind, Except.bind] at h
      | ok rs =>
        simp only [Bind.bind, Except.bind, hrs] at h
        cases h
        exact ⟨ds, hs, hn, hrs⟩
  · cases h

/-- A catalog binds every declared name to what the name means. -/
theorem exists_means_of_ofDocument {document es : List (Data × Data)} {path : Option Text}
    {c : Catalog} (hs : (Data.find? document "schemas").bind Data.entries? = some es)
    (h : Catalog.ofDocument document path = .ok c) :
    ∃ ds : Declarations, es = ds.entries ∧ HasNames es ∧ ∀ n, ds.declares n = true →
      ∃ s, Outline.Means ds (.reference n) s ∧ c.get n = .ok s := by
  obtain ⟨ds, hds, hn, hrs⟩ := exists_entries_of_ofDocument h
  have hes : es = ds.entries := Option.some.inj (hs.symm.trans hds)
  refine ⟨ds, hes, hes ▸ hn, fun n hd => ?_⟩
  obtain ⟨s, hm⟩ := Declarations.exists_means_of_resolve hrs n hd
  exact ⟨s, hm, by rw [Catalog.get, Declarations.lookup_of_means hrs hm]⟩

/-- A document whose names all have meanings makes a catalog of these. -/
theorem exists_of_means {document : List (Data × Data)} {ds : Declarations} (path : Option Text)
    (hs : (Data.find? document "schemas").bind Data.entries? = some ds.entries)
    (hn : HasNames ds.entries)
    (h : ∀ n, ds.declares n = true → ∃ s, Outline.Means ds (.reference n) s) :
    ∃ c, Catalog.ofDocument document path = .ok c ∧
      ∀ n s, Outline.Means ds (.reference n) s → c.get n = .ok s := by
  obtain ⟨rs, hrs⟩ := Declarations.exists_resolve_iff.2 (Declarations.isLegal_of_means h)
  refine ⟨⟨path, rs⟩, ?_, fun n s hm => ?_⟩
  · rw [ofDocument_eq_of_entries hs hn, hrs]
    rfl
  · rw [Catalog.get, Declarations.lookup_of_means hrs hm]

/-- A finite document makes a catalog exactly when it belongs to the grammar. -/
theorem exists_ofDocument_iff {document : List (Data × Data)} (path : Option Text)
    (h : (Data.mapping document).isFinite = true) :
    (∃ c, Catalog.ofDocument document path = .ok c) ↔ IsDocument document := by
  constructor
  · rintro ⟨c, hc⟩
    obtain ⟨ds, hs, hn, hr⟩ := exists_entries_of_ofDocument hc
    obtain ⟨hl, hacyclic⟩ := Declarations.exists_resolve_iff.1 ⟨_, hr⟩
    obtain ⟨v, hv, he⟩ := Option.bind_eq_some_iff.1 hs
    have hf := Data.isFinite_of_find? h hv
    cases v with
    | mapping es =>
      cases he
      rw [Data.isFinite] at hf
      have hsec := Declarations.isSection_of_isLegal hf hn hl
      rw [Declarations.refers_eq_edge hsec] at hacyclic
      exact ⟨_, hv, hsec, hacyclic⟩
    | recurring n d => exact absurd rfl (Data.ne_recurring_of_isFinite hf n d)
    | _ => cases he
  · rintro ⟨es, hs, hsec, hacyclic⟩
    obtain ⟨ds, rfl⟩ := Declarations.exists_eq_entries hsec.names
    obtain ⟨rs, hrs⟩ := Declarations.exists_resolve_iff.2
      ⟨Declarations.isLegal_of_isSection hsec, by rwa [Declarations.refers_eq_edge hsec]⟩
    rw [ofDocument_eq_of_entries (by rw [hs]; rfl) hsec.names, hrs]
    exact ⟨_, rfl⟩

/-- Leaves, and trees that are sequences of trees. -/
def treeSection : List (Data × Data) :=
  [(.text "Leaf", .text "string"),
    (.text "Tree", .mapping [(.text "type", .text "sequence"), (.text "element", .text "Tree")])]

/-- A document with the given declarations and nothing else. -/
def documentOf (entries : List (Data × Data)) : List (Data × Data) :=
  [(.text "schemas", .mapping entries)]

theorem exists_ofDocument_iff_trees : (Data.mapping (documentOf treeSection)).isFinite = true ∧
    ((∃ c, Catalog.ofDocument (documentOf treeSection) none = .ok c) ↔
      IsDocument (documentOf treeSection)) :=
  ⟨by decide, exists_ofDocument_iff none (by decide)⟩

/-- A document without faults but for cycles is turned down with a cycle, which the first name
reaches that reaches any. -/
theorem ofDocument_of_isSection {document es : List (Data × Data)} (path : Option Text)
    (hs : (Data.find? document "schemas").bind Data.entries? = some es) (h : IsSection es) :
    (IsAcyclic es → ∃ c, Catalog.ofDocument document path = .ok c) ∧
      (¬ IsAcyclic es → ∃ c cs cause, Catalog.ofDocument document path = .error cause ∧
        cause.message = "Cyclic schema reference: " ++ Text.join " -> " (c :: cs ++ [c]) ∧
        IsReportedCycle es c cs) := by
  obtain ⟨ds, rfl⟩ := Declarations.exists_eq_entries h.names
  have hl := Declarations.isLegal_of_isSection h
  have he := Declarations.refers_eq_edge h
  have hiff : IsAcyclic ds.entries ↔ ∃ rs, ds.resolve = .ok rs := by
    rw [Declarations.exists_resolve_iff, he, IsAcyclic, and_iff_right hl]
  rw [ofDocument_eq_of_entries hs h.names]
  constructor
  · intro hacyclic
    obtain ⟨rs, hrs⟩ := hiff.1 hacyclic
    rw [hrs]
    exact ⟨_, rfl⟩
  · intro hcyclic
    cases hr : ds.resolve with
    | ok rs => exact absurd (hiff.2 ⟨rs, hr⟩) hcyclic
    | error cause =>
      obtain ⟨before, first, after, hnames, hbefore, htells⟩ := Declarations.resolve_error hl hr
      have hfirst := htells.exists_cycle
      obtain ⟨c, cs, rfl, hnd, hchain, hreach⟩ := htells
      rw [he] at hbefore hfirst hchain hreach
      refine ⟨c, cs, _, rfl, rfl, hnd, fun n hn => ?_, hchain, before.map .text, first,
        after.map .text, ?_, fun n hn => ?_, hfirst, hreach⟩
      · obtain ⟨m, d, hd, -⟩ := exists_rel_of_isChain hchain hn
        exact ⟨d, hd⟩
      · rw [Declarations.map_fst_entries, hnames, List.map_append, List.map_cons]
      · obtain ⟨m, hm, hmn⟩ := List.mem_map.1 hn
        cases hmn
        rintro ⟨c', hnc, hcc⟩
        exact hbefore n hm c' hnc hcc

theorem declares_tree : Declares treeSection "Tree" := ⟨_, rfl⟩

theorem isSection_trees : IsSection treeSection := by
  constructor
  · intro k hk
    simp only [treeSection, List.map_cons, List.map_nil, List.mem_cons, List.not_mem_nil,
      or_false] at hk
    rcases hk with rfl | rfl
    · exact ⟨_, rfl, by decide⟩
    · exact ⟨_, rfl, by decide⟩
  · intro n d hd
    rw [treeSection, Data.find?_cons, Data.find?_cons, Data.find?_nil] at hd
    split at hd
    · cases hd
      exact .word (.inl (.inl ⟨.string, by decide⟩))
    · split at hd
      · cases hd
        exact .sequence ⟨rfl, _, rfl, by decide⟩ rfl (.word (.inr declares_tree)) (.inl rfl)
      · cases hd

/-- Trees contain trees. -/
theorem not_isAcyclic_trees : ¬ IsAcyclic treeSection := by
  intro h
  have hb : ¬ BuiltIn (Text.strip "Tree") := by
    rintro (⟨k, hk⟩ | h | h | h)
    · cases k <;> revert hk <;> decide
    · revert h; decide
    · revert h; decide
    · revert h; decide
  exact h "Tree" (.single ⟨_, rfl, _,
    .element ⟨rfl, _, rfl, by decide⟩ rfl (.self _), .word hb declares_tree⟩)

theorem ofDocument_of_isSection_trees : IsSection treeSection ∧
    ∃ c cs cause, Catalog.ofDocument (documentOf treeSection) none = .error cause ∧
      cause.message = "Cyclic schema reference: " ++ Text.join " -> " (c :: cs ++ [c]) ∧
      IsReportedCycle treeSection c cs :=
  ⟨isSection_trees, (ofDocument_of_isSection none rfl isSection_trees).2 not_isAcyclic_trees⟩

end Catalog

end ShapeAlgebra
