import ShapeAlgebra.Proofs.Declaration.RoundTrip

/-!
# Names for names

A new name is declared by nothing but another name. A name counts without the white space around it
where it is referred to, and with it where it is declared. So the new name stands for the schema of
the other one unless that was declared with white space around it, and then for what is declared
without, or for nothing.

Results:

* `Grammar.Calls.isLegal_iff`, `Grammar.Calls.ofData_eq`: such a declaration is a reference, without
  fault when its name is declared.
* `Catalog.get_referring`: which names can be referred to, and what a new name for them is bound to.
-/

namespace ShapeAlgebra

open Grammar

/-! ## Declarations that are names -/

namespace Grammar

theorem builtIn_iff {w : Text} : ((∃ k ∈ PrimitiveKind.all, w = Text.ofString k.name) ∨
    w = "opaque" ∨ w = "callable" ∨ w = "never") ↔ BuiltIn w := by
  refine or_congr_left ⟨?_, ?_⟩
  · rintro ⟨k, -, hk⟩
    exact ⟨k, hk⟩
  · rintro ⟨k, hk⟩
    exact ⟨k, by cases k <;> decide, hk⟩

instance : DecidablePred BuiltIn := fun _ => decidable_of_iff _ builtIn_iff

/-- A declaration that is nothing but a name, as it is written: a mapping with `ref`, or a word that
is none of this library. -/
inductive Calls (t : Text) : Data → Prop
  | reference {entries : List (Data × Data)} (h : Data.find? entries "ref" = some (.text t)) :
      Calls t (.mapping entries)
  | word (h : ¬ BuiltIn t.strip) : Calls t (.text t)

section

variable {declared : Text → Bool} {around : List (Nat × Bool)} {place t : Text} {d : Data}

theorem Calls.ofData_eq (h : Calls t d) (hblank : declared [] = false)
    (ht : declared t.strip = true) :
    Outline.ofData declared around place d = .reference t.strip := by
  cases h with
  | reference h =>
    have hne : t.strip ≠ [] := by
      intro hnil
      rw [hnil, hblank] at ht
      cases ht
    rw [Outline.ofData_mapping, Outline.ofEntries, Outline.ofParts_reference h hne]
  | word h => rw [Outline.ofData_text, readWord_of_not_builtIn h, if_pos ht]

theorem Calls.isLegal_iff (h : Calls t d) (hblank : declared [] = false) :
    (Outline.ofData declared around place d).IsLegal (fun n => declared n = true) ↔
      declared t.strip = true := by
  refine ⟨fun hl => ?_, fun ht => ?_⟩
  · cases h with
    | reference h =>
      rw [Outline.ofData_mapping, Outline.ofEntries] at hl
      by_cases hne : t.strip = []
      · have hfault : requireText (place ++ ".ref") (.text t) =
            .error (.blankText (place ++ ".ref")) := by simp [requireText, hne]
        simp only [Outline.ofParts, h, hfault] at hl
        exact hl.elim
      · rw [Outline.ofParts_reference h hne] at hl
        exact hl
    | word h =>
      rw [Outline.ofData_text, isLegal_readWord] at hl
      exact hl.resolve_left h
  · rw [h.ofData_eq hblank ht]
    exact ht

end

end Grammar

namespace Declarations

theorem entries_injective : Function.Injective entries := by
  refine List.map_injective_iff.2 fun p q h => ?_
  obtain ⟨hn, hd⟩ := Prod.mk.inj h
  exact Prod.ext (Data.text.inj hn) hd

/-- A name that is declared by nothing but a name means what that name means. -/
theorem means_of_calls {ds : Declarations} {name t : Text} {d : Data} {s : Schema}
    (hblank : ds.declares [] = false) (hname : Data.find? ds.entries name = some d)
    (hd : Calls t d) (hs : Outline.Means ds (.reference t.strip) s) :
    Outline.Means ds (.reference name) s := by
  refine .reference ?_ hs
  rw [outline?_eq, hname, Option.map_some, hd.ofData_eq hblank hs.isLegal]

/-- A name that is declared by nothing but a name refers to that, which is declared, where no
declaration has a fault. -/
theorem refers_of_calls {ds : Declarations} {name t : Text} {d : Data}
    (hblank : ds.declares [] = false) (hname : Data.find? ds.entries name = some d)
    (hd : Calls t d) (hl : ds.IsLegal) : ds.declares t.strip = true ∧ ds.Refers name t.strip := by
  have houtline : ds.outline? name = some (Outline.ofData ds.declares [] name d) := by
    rw [outline?_eq, hname, Option.map_some]
  have ht := (hd.isLegal_iff hblank).1 (hl name _ houtline)
  refine ⟨ht, _, houtline, ?_⟩
  rw [hd.ofData_eq hblank ht]
  exact List.mem_singleton_self _

end Declarations

/-! ## Documents -/

namespace Catalog

section

variable {document document' before after : List (Data × Data)} {path path' : Option Text}
  {name t : Text} {d : Data} {c : Catalog}

/-- A new name that is declared by nothing but a name makes a catalog exactly when that name is
declared without the white space around it. It is then bound to the schema of that name, and the
other names to what they were bound to. -/
theorem get_referring
    (hs : (Data.find? document "schemas").bind Data.entries? = some (before ++ after))
    (hs' : (Data.find? document' "schemas").bind Data.entries? =
      some (before ++ (.text name, d) :: after))
    (hc : Catalog.ofDocument document path = .ok c) (hn : name.strip ≠ [])
    (hfresh : Data.find? (before ++ after) name = none) (hd : Calls t d) :
    ((∃ c', Catalog.ofDocument document' path' = .ok c') ↔ Declares (before ++ after) t.strip) ∧
      (Declares (before ++ after) t.strip → ∃ c' s, Catalog.ofDocument document' path' = .ok c' ∧
        c.get t.strip = .ok s ∧ c'.get name = .ok s ∧
        ∀ n, Declares (before ++ after) n → c'.get n = c.get n) := by
  obtain ⟨ds, hes, hnames, hmeans⟩ := exists_means_of_ofDocument hs hc
  have hfind := Data.find?_insert d hfresh
  have hnames' := hasNames_insert d hnames hn
  obtain ⟨ds', hds'⟩ := Declarations.exists_eq_entries hnames'
  rw [hds'] at hs' hfind hnames'
  rw [hes] at hfind hfresh ⊢
  have hblank := Declarations.not_declares_nil hnames'
  have hname : Data.find? ds'.entries name = some d := by rw [hfind, if_pos rfl]
  have hother : ∀ {n}, n ≠ name → ds'.declares n = true → Declares ds.entries n := by
    intro n hne hn
    rwa [Declarations.declares_iff, Declares, hfind, if_neg hne] at hn
  have hkept : ∀ {n s}, Outline.Means ds (.reference n) s → Outline.Means ds' (.reference n) s :=
    Declarations.means_insert hfind hfresh
  have hbinds : Declares ds.entries t.strip → ∃ c' s,
      Catalog.ofDocument document' path' = .ok c' ∧ c.get t.strip = .ok s ∧ c'.get name = .ok s ∧
        ∀ n, Declares ds.entries n → c'.get n = c.get n := by
    intro ht
    obtain ⟨s, hm, hget⟩ := hmeans t.strip (Declarations.declares_iff.2 ht)
    have hnew : Outline.Means ds' (.reference name) s :=
      Declarations.means_of_calls hblank hname hd (hkept hm)
    have hmeans' : ∀ n, ds'.declares n = true → ∃ u, Outline.Means ds' (.reference n) u := by
      intro n hn
      by_cases he : n = name
      · exact ⟨s, he ▸ hnew⟩
      · obtain ⟨u, hu, -⟩ := hmeans n (Declarations.declares_iff.2 (hother he hn))
        exact ⟨u, hkept hu⟩
    obtain ⟨c', hc', hget'⟩ := exists_of_means path' hs' hnames' hmeans'
    refine ⟨c', s, hc', hget, hget' _ _ hnew, fun n hn => ?_⟩
    obtain ⟨u, hu, hgetu⟩ := hmeans n (Declarations.declares_iff.2 hn)
    rw [hgetu, hget' _ _ (hkept hu)]
  refine ⟨⟨?_, fun ht => ?_⟩, hbinds⟩
  · rintro ⟨c', hc'⟩
    obtain ⟨ds'', hs'', -, hr⟩ := exists_entries_of_ofDocument hc'
    obtain rfl := Declarations.entries_injective (Option.some.inj (hs'.symm.trans hs''))
    obtain ⟨hl, hacyclic⟩ := Declarations.exists_resolve_iff.1 ⟨_, hr⟩
    obtain ⟨ht, hrefers⟩ := Declarations.refers_of_calls hblank hname hd hl
    refine hother (fun he => ?_) ht
    exact hacyclic name (.single (he ▸ hrefers))
  · obtain ⟨c', -, hc', -⟩ := hbinds ht
    exact ⟨c', hc'⟩

end

/-- The declarations of people make a catalog in which a new name for them, with white space around
the old one, stands for them too. -/
theorem get_referring_people : Calls " Person" (.text " Person") ∧ ∃ c c' s,
    Catalog.ofDocument (documentOf people.entries) none = .ok c ∧
    Catalog.ofDocument (documentOf (people.entries ++ [(.text "Human", .text " Person")])) none =
      .ok c' ∧ c.get "Person" = .ok s ∧ c'.get "Human" = .ok s := by
  have hcalls : Calls " Person" (.text " Person") := .word (by decide)
  have hs : (Data.find? (documentOf people.entries) "schemas").bind Data.entries? =
      some (people.entries ++ []) := rfl
  have hs' : (Data.find? (documentOf (people.entries ++ [(.text "Human", .text " Person")]))
      "schemas").bind Data.entries? =
      some (people.entries ++ (.text "Human", .text " Person") :: []) := rfl
  obtain ⟨c, hc, -, -⟩ := exists_of_people (fun _ _ h => h)
    (Declarations.hasNames_entries_iff.2 (by decide)) (by simp [people])
  obtain ⟨c', s, hc', hget, hget', -⟩ :=
    (get_referring hs hs' hc (by decide) rfl hcalls).2 ⟨_, rfl⟩
  exact ⟨hcalls, c, c', s, hc, hc', hget, hget'⟩

/-- A declaration under a name with a blank at its end. -/
def spaced : Declarations := [("A ", .text "string")]

/-- The same with a new name that is declared by some data. -/
def spacedAnd (d : Data) : Declarations := spaced ++ [(("B" : Text), d)]

/-- A name with white space around it is declared and bound, and cannot be referred to. -/
theorem not_exists_ofDocument_spaced :
    (∃ c, Catalog.ofDocument (documentOf spaced.entries) none = .ok c ∧
      c.get "A " = .ok (.primitive .string)) ∧
    ¬ (∃ c, Catalog.ofDocument
      (documentOf (spacedAnd (.mapping [(.text "ref", .text "A ")])).entries) none = .ok c) ∧
    ¬ ∃ c, Catalog.ofDocument (documentOf (spacedAnd (.text "A ")).entries) none = .ok c := by
  have hmeans : Outline.Means spaced (.reference "A ") (.primitive .string) :=
    .reference rfl (.leaf _)
  have hall : ∀ n, spaced.declares n = true → ∃ s, Outline.Means spaced (.reference n) s := by
    intro n hn
    obtain rfl := List.mem_singleton.1 (Declarations.mem_of_declares hn)
    exact ⟨_, hmeans⟩
  have hs : (Data.find? (documentOf spaced.entries) "schemas").bind Data.entries? =
      some spaced.entries := rfl
  obtain ⟨c, hc, hget⟩ :=
    exists_of_means none hs (Declarations.hasNames_entries_iff.2 (by decide)) hall
  have hnot : ∀ d, Calls "A " d →
      ¬ ∃ c, Catalog.ofDocument (documentOf (spacedAnd d).entries) none = .ok c := by
    rintro d hd ⟨c', hc'⟩
    obtain ⟨ds, hs, hnames, hr⟩ := exists_entries_of_ofDocument hc'
    have hs' : (Data.find? (documentOf (spacedAnd d).entries) "schemas").bind Data.entries? =
        some (spacedAnd d).entries := rfl
    obtain rfl := Declarations.entries_injective (Option.some.inj (hs'.symm.trans hs))
    obtain ⟨hl, -⟩ := Declarations.exists_resolve_iff.1 ⟨_, hr⟩
    have hname : Data.find? (spacedAnd d).entries "B" = some d := rfl
    obtain ⟨hdeclared, -⟩ :=
      Declarations.refers_of_calls (Declarations.not_declares_nil hnames) hname hd hl
    cases hdeclared
  exact ⟨⟨c, hc, hget _ _ hmeans⟩, hnot _ (.reference rfl), hnot _ (.word (by decide))⟩

end Catalog

end ShapeAlgebra
