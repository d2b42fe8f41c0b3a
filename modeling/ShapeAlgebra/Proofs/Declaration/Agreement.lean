import ShapeAlgebra.Proofs.Declaration.Acceptance
import ShapeAlgebra.Proofs.Declaration.Extension

/-!
# Documents that agree on their declarations

What a name means depends on the declarations alone that are reached from it: neither on the order
in which names are resolved nor on what else is declared. Hence two documents with the same entries
make catalogs together or not at all, and in two documents that make catalogs the entries they share
are bound to the same schemas. Entries that are named like words of this library change nothing, as
the words go before declared names.

Results:

* `Data.find?_eq_some_iff_mem`: looking up is membership, where no key comes twice.
* `Outline.Means.of_agree`: what an outline means stays where the declarations stay.
* `Catalog.exists_of_perm`: declarations in another order make a catalog as well.
* `Catalog.exists_of_perm_and_get_of_subset`: order does not matter, and further entries change
  nothing.
-/

namespace ShapeAlgebra

open Grammar

/-! ## Entries and their lookups -/

theorem Data.find?_eq_some_iff_mem {entries : List (Data × Data)}
    (h : (entries.map Prod.fst).Nodup) {n : Text} {d : Data} :
    Data.find? entries n = some d ↔ (.text n, d) ∈ entries := by
  induction entries with
  | nil => simp [Data.find?_nil]
  | cons e rest ih =>
    obtain ⟨k, v⟩ := e
    obtain ⟨hhead, hrest⟩ := List.nodup_cons.1 h
    rw [Data.find?_cons, List.mem_cons, Prod.mk.injEq]
    by_cases hk : k = .text n
    · have hnot : (.text n, d) ∉ rest := by
        intro hmem
        exact hhead (List.mem_map.2 ⟨_, hmem, hk.symm⟩)
      rw [if_pos (Data.sameKey_text.2 hk), Option.some.injEq, or_iff_left hnot, eq_comm (a := d),
        and_iff_right hk.symm]
    · rw [if_neg (mt Data.sameKey_text.1 hk), ih hrest, or_iff_right]
      rintro ⟨rfl, -⟩
      exact hk rfl

/-- What is found among entries is found among others in which they all occur. -/
theorem Data.find?_of_subset {es es' : List (Data × Data)} (h : (es.map Prod.fst).Nodup)
    (h' : (es'.map Prod.fst).Nodup) (hsub : ∀ e ∈ es, e ∈ es') {n : Text} {d : Data}
    (hd : Data.find? es n = some d) : Data.find? es' n = some d := by
  have hmem : (.text n, d) ∈ es := (Data.find?_eq_some_iff_mem h).1 hd
  exact (Data.find?_eq_some_iff_mem h').2 (hsub _ hmem)

theorem Grammar.HasNames.perm {es es' : List (Data × Data)} (h : HasNames es) (hp : es.Perm es') :
    HasNames es' := by
  intro k hk
  exact h k ((hp.map Prod.fst).mem_iff.2 hk)

/-! ## Meanings -/

namespace Declarations

/-- Every declaration of the first is one of the second. -/
def Agree (ds ds' : Declarations) : Prop :=
  ∀ n d, Data.find? ds.entries n = some d → Data.find? ds'.entries n = some d

theorem Agree.declares {ds ds' : Declarations} (h : ds.Agree ds') {n : Text}
    (hn : ds.declares n = true) : ds'.declares n = true := by
  obtain ⟨d, hd⟩ := declares_iff.1 hn
  exact declares_iff.2 ⟨d, h n d hd⟩

end Declarations

/-- What an outline means stays where the declarations stay. -/
theorem Outline.Means.of_agree {ds ds' : Declarations} (h : ds.Agree ds') {o : Outline}
    {s : Schema} (hs : Outline.Means ds o s) : Outline.Means ds' o s := by
  refine hs.extend fun n o ho hl => ?_
  obtain ⟨d, hd, rfl⟩ := Option.map_eq_some_iff.1 (Declarations.outline?_eq ds n ▸ ho)
  rw [Declarations.outline?_eq, h n d hd, Option.map_some,
    Outline.ofData_extend (fun _ _ => h.declares) (List.Subset.refl _) hl]

/-! ## Documents -/

namespace Catalog

section

variable {document document' es es' : List (Data × Data)} {path path' : Option Text}

/-- Declarations in another order make a catalog as well. -/
theorem exists_of_perm (hs : (Data.find? document "schemas").bind Data.entries? = some es)
    (hs' : (Data.find? document' "schemas").bind Data.entries? = some es')
    (hk : (es.map Prod.fst).Nodup) (hp : es.Perm es')
    (h : ∃ c, Catalog.ofDocument document path = .ok c) :
    ∃ c, Catalog.ofDocument document' path' = .ok c := by
  obtain ⟨c, hc⟩ := h
  obtain ⟨ds, rfl, hn, hmeans⟩ := exists_means_of_ofDocument hs hc
  obtain ⟨ds', rfl⟩ := Declarations.exists_eq_entries (hn.perm hp)
  have hk' : (ds'.entries.map Prod.fst).Nodup := (hp.map Prod.fst).nodup_iff.1 hk
  have hto : ds.Agree ds' := fun _ _ => Data.find?_of_subset hk hk' fun _ => hp.mem_iff.1
  have hfrom : ds'.Agree ds := fun _ _ => Data.find?_of_subset hk' hk fun _ => hp.mem_iff.2
  have hmeans' : ∀ n, ds'.declares n = true → ∃ s, Outline.Means ds' (.reference n) s := by
    intro n hd
    obtain ⟨s, hm, -⟩ := hmeans n (hfrom.declares hd)
    exact ⟨s, hm.of_agree hto⟩
  obtain ⟨c', hc', -⟩ := exists_of_means path' hs' (hn.perm hp) hmeans'
  exact ⟨c', hc'⟩

/-- A name is bound to the same schema where its document is part of another. -/
theorem get_of_subset (hs : (Data.find? document "schemas").bind Data.entries? = some es)
    (hs' : (Data.find? document' "schemas").bind Data.entries? = some es')
    (hk : (es.map Prod.fst).Nodup) (hk' : (es'.map Prod.fst).Nodup) (hsub : ∀ e ∈ es, e ∈ es')
    {c c' : Catalog} (hc : Catalog.ofDocument document path = .ok c)
    (hc' : Catalog.ofDocument document' path' = .ok c') {n : Text} (hd : Declares es n) :
    ∃ s, c.get n = .ok s ∧ c'.get n = .ok s := by
  obtain ⟨ds, rfl, -, hmeans⟩ := exists_means_of_ofDocument hs hc
  obtain ⟨ds', rfl, -, hmeans'⟩ := exists_means_of_ofDocument hs' hc'
  have hto : ds.Agree ds' := fun _ _ => Data.find?_of_subset hk hk' hsub
  have hd : ds.declares n = true := Declarations.declares_iff.2 hd
  obtain ⟨s, hm, hget⟩ := hmeans n hd
  obtain ⟨s', hm', hget'⟩ := hmeans' n (hto.declares hd)
  have hs : s = s' := (hm.of_agree hto).unique hm'
  exact ⟨s, hget, hs ▸ hget'⟩

/-- Two documents with the same entries in different orders make catalogs together or not at all,
and where all entries of a document occur in another, both bind its names to the same schemas. -/
theorem exists_of_perm_and_get_of_subset
    (hs : (Data.find? document "schemas").bind Data.entries? = some es)
    (hs' : (Data.find? document' "schemas").bind Data.entries? = some es')
    (hk : (es.map Prod.fst).Nodup) (hk' : (es'.map Prod.fst).Nodup) :
    (es.Perm es' → ((∃ c, Catalog.ofDocument document path = .ok c) ↔
      ∃ c, Catalog.ofDocument document' path' = .ok c)) ∧
    ((∀ e ∈ es, e ∈ es') → ∀ c c', Catalog.ofDocument document path = .ok c →
      Catalog.ofDocument document' path' = .ok c' →
      ∀ n, Declares es n → ∃ s, c.get n = .ok s ∧ c'.get n = .ok s) := by
  refine ⟨fun hp => ⟨exists_of_perm hs hs' hk hp, exists_of_perm hs' hs hk' hp.symm⟩, ?_⟩
  intro hsub c c' hc hc' n hd
  exact get_of_subset hs hs' hk hk' hsub hc hc' hd

end

/-- People with tags, of which the best is read-only. -/
def people : Declarations :=
  [("Person", .mapping [(.text "type", .text "record"), (.text "fields", .mapping
      [(.text "tag", .text "Tag"),
        (.text "best", .mapping [(.text "ref", .text "Tag"), (.text "readonly", .bool true)])])]),
    ("Tag", .text "string")]

/-- The same in another order, with a further declaration under a word of this library. -/
def morePeople : Declarations := ("string", .text "number") :: people.reverse

/-- What a person is. -/
def person : Record :=
  [⟨"tag", .primitive .string, {}⟩, ⟨"best", .primitive .string, { readonly := true }⟩]

/-- Where people are declared, and nothing beside them that has no meaning, there is a catalog. -/
theorem exists_of_people {ds : Declarations} (h : people.Agree ds) (hn : HasNames ds.entries)
    (hother : ∀ n ∈ ds.map Prod.fst,
      n = "Person" ∨ n = "Tag" ∨ ∃ s, Outline.Means ds (.reference n) s) :
    ∃ c, Catalog.ofDocument (documentOf ds.entries) none = .ok c ∧
      c.get "Person" = .ok (.record person) ∧ c.get "Tag" = .ok (.primitive .string) := by
  have htag : Outline.Means people (.reference "Tag") (.primitive .string) :=
    .reference rfl (.leaf _)
  have hperson : Outline.Means people (.reference "Person") (.record person) :=
    .reference rfl (.record (.cons _ _ htag (.cons _ _ htag .nil)) (by decide))
  have hmeans : ∀ n, ds.declares n = true → ∃ s, Outline.Means ds (.reference n) s := by
    intro n hd
    rcases hother n (Declarations.mem_of_declares hd) with rfl | rfl | hm
    · exact ⟨_, hperson.of_agree h⟩
    · exact ⟨_, htag.of_agree h⟩
    · exact hm
  have hs : (Data.find? (documentOf ds.entries) "schemas").bind Data.entries? =
      some ds.entries := rfl
  obtain ⟨c, hc, hget⟩ := exists_of_means none hs hn hmeans
  exact ⟨c, hc, hget _ _ (hperson.of_agree h), hget _ _ (htag.of_agree h)⟩

theorem exists_of_perm_and_get_of_subset_people :
    ((∃ c, Catalog.ofDocument (documentOf people.entries) none = .ok c) ↔
      ∃ c, Catalog.ofDocument (documentOf people.entries.reverse) none = .ok c) ∧
    ∃ c c', Catalog.ofDocument (documentOf people.entries) none = .ok c ∧
      Catalog.ofDocument (documentOf morePeople.entries) none = .ok c' ∧
      ∃ s, c.get "Person" = .ok s ∧ c'.get "Person" = .ok s := by
  have hk : (people.entries.map Prod.fst).Nodup := Declarations.nodup_entries_iff.2 (by decide)
  have hkr : (people.entries.reverse.map Prod.fst).Nodup := by
    rw [List.map_reverse]
    exact (List.reverse_perm _).nodup_iff.2 hk
  have hkm : (morePeople.entries.map Prod.fst).Nodup :=
    Declarations.nodup_entries_iff.2 (by decide)
  have hsub : ∀ e ∈ people.entries, e ∈ morePeople.entries := by
    intro e he
    obtain ⟨p, hp, rfl⟩ := List.mem_map.1 he
    exact List.mem_map_of_mem (List.mem_cons_of_mem _ (List.mem_reverse.2 hp))
  have hagree : people.Agree morePeople := fun _ _ => Data.find?_of_subset hk hkm hsub
  have hother : ∀ n ∈ morePeople.map Prod.fst, n = "Person" ∨ n = "Tag" ∨
      ∃ s, Outline.Means morePeople (.reference n) s := by
    intro n hn
    have hmem : n = "string" ∨ n = "Tag" ∨ n = "Person" := by
      simpa [morePeople, people] using hn
    rcases hmem with rfl | rfl | rfl
    · exact .inr (.inr ⟨_, .reference rfl (.leaf _)⟩)
    · exact .inr (.inl rfl)
    · exact .inl rfl
  obtain ⟨c, hc, -⟩ := exists_of_people (fun _ _ h => h)
    (Declarations.hasNames_entries_iff.2 (by decide)) (by simp [people])
  obtain ⟨c', hc', -⟩ := exists_of_people hagree (Declarations.hasNames_entries_iff.2 (by decide))
    hother
  refine ⟨(exists_of_perm_and_get_of_subset rfl rfl hk hkr).1 (List.reverse_perm _).symm, c, c',
    hc, hc', ?_⟩
  exact (exists_of_perm_and_get_of_subset rfl rfl hk hkm).2 hsub c c' hc hc' "Person" ⟨_, rfl⟩

end Catalog

end ShapeAlgebra
