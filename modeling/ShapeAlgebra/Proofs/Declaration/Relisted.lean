import ShapeAlgebra.Proofs.Declaration.Printed
import ShapeAlgebra.Proofs.Schema.Legible
import ShapeAlgebra.Proofs.Schema.Relisting

/-!
# What is printed does not depend on the order of supply

The members of a union are written in the order of their texts, which are themselves written with
the members of inner unions in order. So as long as no two members of a union have the same text,
the order in which members are listed shows neither in the text of a schema nor in its declaration,
and with it the order in which they were supplied.

Texts and declarations are compared together: the order of the members of a declared union is that
of their texts, and only members with different texts have only one order.

Results:

* `declareUnion_of_perm`: members with different texts are declared in one order.
* `Schema.written_of_relisted`: the order in which members are listed shows nowhere.
* `Schema.printsAlike_of_resupplied`: the same of the order in which they are supplied.
-/

namespace ShapeAlgebra

/-- Members with different texts are declared in one order. -/
theorem declareUnion_of_perm {es es' : List (Text × Document)} (h : es.Perm es')
    (htexts : (es.map Prod.fst).Nodup) : declareUnion es = declareUnion es' := by
  have hsorted : ∀ es : List (Text × Document), (es.mergeSort fun a b =>
      Text.before a.1 b.1).Pairwise fun a b => Text.before a.1 b.1 = true :=
    List.pairwise_mergeSort (fun _ _ _ => Text.before_trans) fun a b => Text.before_total a.1 b.1
  have hsort : (es.mergeSort fun a b => Text.before a.1 b.1) =
      es'.mergeSort fun a b => Text.before a.1 b.1 := by
    have hperm := (List.mergeSort_perm es fun a b => Text.before a.1 b.1).trans
      (h.trans (List.mergeSort_perm es' fun a b => Text.before a.1 b.1).symm)
    refine hperm.eq_of_pairwise (fun a b ha hb hab hba => ?_) (hsorted es) (hsorted es')
    have ha' : a ∈ es := (List.mergeSort_perm es _).mem_iff.1 ha
    have hb' : b ∈ es := h.mem_iff.2 ((List.mergeSort_perm es' _).mem_iff.1 hb)
    exact List.inj_on_of_nodup_map htexts ha' hb' (Text.before_antisymm hab hba)
  rw [declareUnion, declareUnion, hsort, h.isEmpty_eq]

namespace Schema

theorem admitsNull_iff {s : Schema} :
    s.admitsNull = true ↔ ∃ m ∈ s.members, m.same (.primitive .null) = true := by
  rw [admitsNull]
  split
  · exact List.any_eq_true
  · next hu => simp [members_of_isUnion_eq_false (Bool.eq_false_iff.2 hu)]

theorem admitsNull_of_relisted {s t : Schema} (h : s.Relisted t) :
    s.admitsNull = t.admitsNull := by
  obtain ⟨paired, hpaired, hperm⟩ := h.exists_pairing_members
  rw [Bool.eq_iff_iff, admitsNull_iff, admitsNull_iff]
  constructor
  · rintro ⟨m, hm, hnull⟩
    obtain ⟨n, hn, hmn⟩ := exists_of_forall₂_left hpaired hm
    exact ⟨n, hperm.mem_iff.1 hn, same_trans (same_symm hmn.same) hnull⟩
  · rintro ⟨n, hn, hnull⟩
    obtain ⟨m, hm, hmn⟩ := exists_of_forall₂_right hpaired (hperm.mem_iff.2 hn)
    exact ⟨m, hm, same_trans hmn.same hnull⟩

theorem isAlternative_of_relisted {s t : Schema} (h : s.Relisted t) :
    s.isAlternative = t.isAlternative := by
  obtain ⟨paired, hpaired, hperm⟩ := h.exists_pairing_members
  have hunion : s.isUnion = t.isUnion := by cases h <;> rfl
  rw [isAlternative, isAlternative, hunion, hpaired.length_eq, hperm.length_eq]

/-- What a schema is written as among the members of a union: its text and its declaration. -/
def written (s : Schema) : Text × Document := (s.render, s.declare)

theorem written_eq_iff {s t : Schema} :
    s.written = t.written ↔ s.render = t.render ∧ s.declare = t.declare := by
  simp only [written, Prod.mk.injEq]

theorem declare_union (ms : List Schema) :
    (Schema.union ms).declare = declareUnion (ms.map written) := by
  rw [declare, renderAll_zip declare declareAll rfl fun _ _ => rfl]
  rfl

theorem written_union {ms paired ns : List Schema} (hperm : paired.Perm ns)
    (hwritten : ms.map written = paired.map written) (htexts : (ms.map render).Nodup) :
    (Schema.union ms).written = (Schema.union ns).written := by
  have hentries : (ms.map written).Perm (ns.map written) := hwritten ▸ hperm.map written
  have hrender : ∀ ss : List Schema, (ss.map written).map Prod.fst = ss.map render :=
    fun ss => by rw [List.map_map]; rfl
  refine written_eq_iff.2 ⟨?_, ?_⟩
  · rw [render, render, renderAll_eq_map, renderAll_eq_map, ← hrender, ← hrender,
      renderUnion_of_perm (hentries.map Prod.fst)]
  · rw [declare_union, declare_union]
    exact declareUnion_of_perm hentries (by rwa [hrender])

theorem written_record {fs gs : List Field} (h : List.Forall₂ Field.Relisted fs gs)
    (hwritten : ∀ f ∈ fs, ∀ t, f.shape.Relisted t → f.shape.written = t.written) :
    (Schema.record fs).written = (Schema.record gs).written := by
  have htext : fs.map Field.text = gs.map Field.text := by
    refine map_eq_map_of_forall₂ h ?_
    rintro _ hf _ _ ⟨n, flags, hs⟩
    obtain ⟨hrender, -⟩ := written_eq_iff.1 (hwritten _ hf _ hs)
    simp only [Field.text, hrender, admitsNull_of_relisted hs]
  have hentry : Field.declareAll fs = Field.declareAll gs := by
    rw [Field.declareAll_eq_map, Field.declareAll_eq_map]
    refine map_eq_map_of_forall₂ h ?_
    rintro _ hf _ _ ⟨n, flags, hs⟩
    obtain ⟨-, hdeclare⟩ := written_eq_iff.1 (hwritten _ hf _ hs)
    simp only [hdeclare]
  refine written_eq_iff.2 ⟨?_, ?_⟩
  · rw [render, render, Field.renderAll_eq_map, Field.renderAll_eq_map, htext]
  · rw [declare, declare, hentry]

theorem written_exclusive {a b c d : Record} {x y : KeySet}
    (ha : (Schema.record a).Relisted (.record c)) (hb : (Schema.record b).Relisted (.record d))
    (hac : (Schema.record a).written = (Schema.record c).written)
    (hbd : (Schema.record b).written = (Schema.record d).written) :
    (Schema.exclusive a b x y).written = (Schema.exclusive c d x y).written := by
  have hmembers : Record.same a b = Record.same c d := same_congr ha.same hb.same
  obtain ⟨hrender, hdeclare⟩ := written_eq_iff.1 hac
  obtain ⟨hrender', hdeclare'⟩ := written_eq_iff.1 hbd
  rw [render, render] at hrender hrender'
  rw [declare, declare] at hdeclare hdeclare'
  refine written_eq_iff.2 ⟨?_, ?_⟩
  · rw [render, render, hrender, hrender', hmembers]
  · rw [declare, declare, hrender, hrender', hdeclare, hdeclare', hmembers]

/-- The order in which the members of unions are listed shows neither in texts nor in
declarations. -/
theorem written_of_relisted {s t : Schema} (h : s.Relisted t) (hs : s.Everywhere TellsApart) :
    s.written = t.written := by
  induction s using Schema.induction generalizing t with
  | primitive k => cases h; rfl
  | opaqueLeaf k n => cases h; rfl
  | sequence e r ih =>
    cases h with
    | sequence _ he =>
      obtain ⟨hrender, hdeclare⟩ := written_eq_iff.1 (ih he (everywhere_sequence.1 hs).2)
      refine written_eq_iff.2 ⟨?_, ?_⟩
      · rw [render, render, hrender, isAlternative_of_relisted he]
      · rw [declare, declare, hdeclare]
  | union ms ih =>
    cases h with
    | union hpaired hperm =>
      obtain ⟨htexts, hms⟩ := everywhere_union.1 hs
      have hwritten := map_eq_map_of_forall₂ hpaired fun m hm n _ hmn => ih m hm hmn (hms m hm)
      exact written_union hperm hwritten htexts
  | record fs ih =>
    cases h with
    | record hpaired =>
      obtain ⟨-, hfs⟩ := everywhere_record.1 hs
      exact written_record hpaired fun f hf t hft => ih f hf hft (hfs f hf)
  | exclusive a b x y iha ihb =>
    cases h with
    | exclusive _ _ ha hb =>
      obtain ⟨-, hsa, hsb⟩ := everywhere_exclusive.1 hs
      exact written_exclusive ha hb (iha ha hsa) (ihb hb hsb)

/-! ## What is printed -/

/-- Whether two schemas are printed alike in every way. -/
structure PrintsAlike (s t : Schema) : Prop where
  render : s.render = t.render
  declare : s.declare = t.declare
  print (format : OutputFormat) : s.print format = t.print format

/-- The order in which the members of unions are supplied does not show in what is printed. -/
theorem printsAlike_of_resupplied {s t : Schema} (h : s.Resupplied t) : PrintsAlike s t := by
  have hst := relistedApart_of_resupplied h
  obtain ⟨hrender, hdeclare⟩ := written_eq_iff.1 (written_of_relisted hst.relisted hst.apart)
  refine ⟨hrender, hdeclare, fun format => ?_⟩
  cases format with
  | text => exact hrender
  | json => rw [print, print, hdeclare]
  | yaml => rw [print, print, hdeclare]

/-- A record with a union of primitives. -/
def keyed (ks : List PrimitiveKind) : Schema :=
  .record [⟨"key", .unionOf (ks.map .primitive), {}⟩]

theorem resupplied_keyed {ks ls : List PrimitiveKind} (h : ks.Perm ls) :
    (keyed ks).Resupplied (keyed ls) := by
  have htexts : ∀ k l : PrimitiveKind, (Schema.primitive k).render = (Schema.primitive l).render →
      (Schema.primitive k).same (.primitive l) = true := by
    intro k l
    cases k <;> cases l <;> decide
  have hflat : (ks.map Schema.primitive).flatMap members = ks.map Schema.primitive :=
    flatMap_members_of_flat (List.forall_mem_map.2 fun _ _ => rfl)
  refine .record (.cons (.intro _ _ (.unionOf ?_ (h.map _) ?_)) .nil)
  · exact List.forall₂_same.2 (List.forall_mem_map.2 fun k _ => .primitive k)
  · rw [hflat]
    refine ⟨List.forall_mem_map.2 fun k _ => List.forall_mem_map.2 fun l _ => htexts k l, ?_⟩
    refine List.forall_mem_map.2 fun k _ => List.forall_mem_map.2 fun l _ hkl => ?_
    exact eq_of_same_primitive hkl ▸ .refl _

theorem clear_keyed :
    Clear [.primitive .null, keyed [.string, .null], keyed [.null, .string]] where
  texts m hm n hn heq := by
    have hne (ks : List PrimitiveKind) : (keyed ks).render ≠ (Schema.primitive .null).render := by
      have hhead : (keyed ks).render.head? = some (.scalar '\x7b') := rfl
      intro h
      rw [h] at hhead
      exact absurd hhead (by decide)
    simp only [List.mem_cons, List.not_mem_nil, or_false] at hm hn
    rcases hm with rfl | rfl | rfl <;> rcases hn with rfl | rfl | rfl
    all_goals first
      | decide
      | exact absurd heq (hne _)
      | exact absurd heq.symm (hne _)
  fields m hm n hn hmn := by
    have hkeyed {ks ls : List PrimitiveKind} (h : ks.Perm ls) : (keyed ks).Relisted (keyed ls) :=
      (relistedApart_of_resupplied (resupplied_keyed h)).relisted
    simp only [List.mem_cons, List.not_mem_nil, or_false] at hm hn
    rcases hm with rfl | rfl | rfl <;> rcases hn with rfl | rfl | rfl
    all_goals first
      | exact .refl _
      | exact hkeyed (by decide)
      | exact absurd hmn (by decide)

/-- A union of three alternatives, of which one is dropped since it is the same as another. -/
def keyedOrNull : Schema :=
  .unionOf [.unionWith [.primitive .null, keyed [.string, .null]], keyed [.null, .string]]

/-- The same with all members in another order, so that the other one is dropped. -/
def nullOrKeyed : Schema :=
  .unionOf [keyed [.string, .null], .unionWith [keyed [.null, .string], .primitive .null]]

theorem resupplied_keyedOrNull : keyedOrNull.Resupplied nullOrKeyed := by
  have hkeyed : (keyed [.string, .null]).Resupplied (keyed [.null, .string]) :=
    resupplied_keyed (by decide)
  have hinner : (unionWith [.primitive .null, keyed [.string, .null]]).Resupplied
      (.unionWith [keyed [.null, .string], .primitive .null]) :=
    .unionWith (.cons (.primitive .null) (.cons hkeyed .nil)) (.swap ..)
      (clear_keyed.of_subset (by simp [members, keyed]))
  exact .unionOf (.cons hinner (.cons (resupplied_keyed (by decide)) .nil)) (.swap ..) clear_keyed

theorem printsAlike_of_resupplied_keyedOrNull : keyedOrNull.Resupplied nullOrKeyed ∧
    PrintsAlike keyedOrNull nullOrKeyed :=
  ⟨resupplied_keyedOrNull, printsAlike_of_resupplied resupplied_keyedOrNull⟩

end Schema

end ShapeAlgebra
