import Mathlib.Data.List.Perm.Basic
import ShapeAlgebra.Proofs.Schema.Hash
import ShapeAlgebra.Proofs.Schema.Normal

/-!
# The order in which members are supplied

A union is put together from members, of which those that are unions are taken apart and those that
come again are dropped. So the order in which members are supplied decides in which order they are
listed, and which of several members that are the same is kept. It decides nothing else, at any
depth, as long as members that are the same have their fields in the same order.

Results:

* `Schema.reordered_of_relisted`, `Schema.Relisted.trans`: schemas that differ in the order in which
  members are listed.
* `Schema.exists_pairing_alternatives`: alternatives of members in another order are paired off.
* `Schema.relistedApart_of_resupplied`: members that are supplied in another order are listed in
  another order, and their texts tell them apart.
* `Schema.resupplied_of_relisted`: well-formed schemas that list their members in another order can
  be put together of members that are supplied in another order.
-/

namespace ShapeAlgebra

/-! ## Members in another order -/

mutual

/-- Whether the second schema comes from the first by listing the members of unions in another
order, at any depth. Fields keep their order. -/
inductive Schema.Relisted : Schema → Schema → Prop
  | primitive (k : PrimitiveKind) : Schema.Relisted (.primitive k) (.primitive k)
  | opaqueLeaf (k : OpaqueKind) (n : Option Text) :
      Schema.Relisted (.opaqueLeaf k n) (.opaqueLeaf k n)
  | sequence {e e' : Schema} (r : Bool) : Schema.Relisted e e' →
      Schema.Relisted (.sequence e r) (.sequence e' r)
  | union {ms paired ns : List Schema} : List.Forall₂ Schema.Relisted ms paired →
      paired.Perm ns → Schema.Relisted (.union ms) (.union ns)
  | record {fs gs : List Field} : List.Forall₂ Field.Relisted fs gs →
      Schema.Relisted (.record fs) (.record gs)
  | exclusive {a b c d : List Field} (x y : KeySet) : Schema.Relisted (.record a) (.record c) →
      Schema.Relisted (.record b) (.record d) →
      Schema.Relisted (.exclusive a b x y) (.exclusive c d x y)

/-- Whether the second field is the first with members of its shape in another order. -/
inductive Field.Relisted : Field → Field → Prop
  | intro {s t : Schema} (n : Text) (flags : Flags) : Schema.Relisted s t →
      Field.Relisted ⟨n, s, flags⟩ ⟨n, t, flags⟩

end

/-- Pairs of items are linked where the second list of one is the first list of the other. -/
theorem forall₂_trans_of_mem {α β γ : Type} {R : α → β → Prop} {S : β → γ → Prop}
    {T : α → γ → Prop} {xs : List α} {ys : List β} {zs : List γ} (h : List.Forall₂ R xs ys)
    (h' : List.Forall₂ S ys zs) (link : ∀ x ∈ xs, ∀ y z, R x y → S y z → T x z) :
    List.Forall₂ T xs zs := by
  induction h generalizing zs with
  | nil => cases h'; exact .nil
  | cons hr _ ih =>
    cases h' with
    | cons hs h' =>
      refine .cons (link _ (List.mem_cons_self ..) _ _ hr hs) (ih h' ?_)
      exact fun x hx => link x (List.mem_cons_of_mem _ hx)

namespace Schema

theorem Relisted.refl (s : Schema) : s.Relisted s := by
  induction s using Schema.induction with
  | primitive k => exact .primitive k
  | opaqueLeaf k n => exact .opaqueLeaf k n
  | sequence e r ih => exact .sequence r ih
  | union ms ih => exact .union (List.forall₂_same.2 ih) (.refl _)
  | record fs ih =>
    refine .record (List.forall₂_same.2 ?_)
    rintro ⟨n, s, flags⟩ hf
    exact .intro n flags (ih _ hf)
  | exclusive a b x y iha ihb => exact .exclusive x y iha ihb

theorem reordered_of_relisted {s t : Schema} (h : s.Relisted t) : s.Reordered t := by
  induction s using Schema.induction generalizing t with
  | primitive k => cases h; exact .primitive k
  | opaqueLeaf k n => cases h; exact .opaqueLeaf k n
  | sequence e r ih =>
    cases h with
    | sequence _ he => exact .sequence r (ih he)
  | union ms ih =>
    cases h with
    | union hpaired hperm =>
      exact .union (forall₂_imp_of_mem hpaired fun m hm n _ hmn => ih m hm hmn) hperm
  | record fs ih =>
    cases h with
    | record hpaired =>
      refine .record (forall₂_imp_of_mem hpaired ?_) (.refl _)
      rintro _ hf _ _ ⟨n, flags, hs⟩
      exact .intro n flags (ih _ hf hs)
  | exclusive a b x y iha ihb =>
    cases h with
    | exclusive _ _ ha hb => exact .exclusive x y (iha ha) (ihb hb)

theorem Relisted.same {s t : Schema} (h : s.Relisted t) : s.same t = true :=
  same_of_reordered (reordered_of_relisted h)

theorem Relisted.trans {s t u : Schema} (h : s.Relisted t) (h' : t.Relisted u) : s.Relisted u := by
  induction s using Schema.induction generalizing t u with
  | primitive k => cases h; exact h'
  | opaqueLeaf k n => cases h; exact h'
  | sequence e r ih =>
    cases h with
    | sequence _ he =>
      cases h' with
      | sequence _ he' => exact .sequence r (ih he he')
  | union ms ih =>
    cases h with
    | union hpaired hperm =>
      cases h' with
      | union hpaired' hperm' =>
        obtain ⟨linked, hlinked, hperm''⟩ := List.perm_comp_forall₂ hperm hpaired'
        exact .union (forall₂_trans_of_mem hpaired hlinked fun m hm _ _ => ih m hm)
          (hperm''.trans hperm')
  | record fs ih =>
    cases h with
    | record hpaired =>
      cases h' with
      | record hpaired' =>
        refine .record (forall₂_trans_of_mem hpaired hpaired' ?_)
        rintro _ hf _ _ ⟨n, flags, hs⟩ ⟨_, _, hs'⟩
        exact .intro n flags (ih _ hf hs hs')
  | exclusive a b x y iha ihb =>
    cases h with
    | exclusive _ _ ha hb =>
      cases h' with
      | exclusive _ _ ha' hb' => exact .exclusive x y (iha ha ha') (ihb hb hb')

theorem Relisted.exists_pairing_members {s t : Schema} (h : s.Relisted t) :
    ∃ paired, List.Forall₂ Relisted s.members paired ∧ paired.Perm t.members := by
  cases h with
  | union hpaired hperm => exact ⟨_, hpaired, hperm⟩
  | @exclusive a b c d x y ha hb =>
    have hsame : Record.same a b = Record.same c d := same_congr ha.same hb.same
    rw [members_exclusive, members_exclusive, hsame]
    cases Record.same c d with
    | true => exact ⟨_, .cons ha .nil, .refl _⟩
    | false => exact ⟨_, .cons ha (.cons hb .nil), .refl _⟩
  | primitive k => exact ⟨_, .cons (.primitive k) .nil, .refl _⟩
  | opaqueLeaf k n => exact ⟨_, .cons (.opaqueLeaf k n) .nil, .refl _⟩
  | sequence r he => exact ⟨_, .cons (.sequence r he) .nil, .refl _⟩
  | record hpaired => exact ⟨_, .cons (.record hpaired) .nil, .refl _⟩

/-! ## Members in the order of their supply -/

/-- Whether the texts of supplied members tell which of them are the same, and those that are have
their fields in the same order. -/
structure Clear (ms : List Schema) : Prop where
  texts : ∀ m ∈ ms, ∀ n ∈ ms, m.render = n.render → m.same n = true
  fields : ∀ m ∈ ms, ∀ n ∈ ms, m.same n = true → m.Relisted n

theorem Clear.of_subset {ms ns : List Schema} (h : Clear ns) (hsub : ms ⊆ ns) : Clear ms where
  texts m hm n hn := h.texts m (hsub hm) n (hsub hn)
  fields m hm n hn := h.fields m (hsub hm) n (hsub hn)

/-- Whether no two members of a union have the same text. -/
def TellsApart : Schema → Prop
  | .union ms => (ms.map render).Nodup
  | _ => True

section

variable {ss paired ts : List Schema}

theorem exists_pairing_flatMap (h : List.Forall₂ Relisted ss paired) :
    ∃ flat, List.Forall₂ Relisted (ss.flatMap members) flat ∧
      flat.Perm (paired.flatMap members) := by
  induction h with
  | nil => exact ⟨[], .nil, .refl _⟩
  | cons hst _ ih =>
    obtain ⟨first, hfirst, hperm⟩ := hst.exists_pairing_members
    obtain ⟨rest, hrest, hperm'⟩ := ih
    exact ⟨first ++ rest, List.rel_append hfirst hrest, hperm.append hperm'⟩

/-- The alternatives of members that are supplied in another order are paired off, whichever of
several that are the same are kept. -/
theorem exists_pairing_alternatives (h : List.Forall₂ Relisted ss paired) (hperm : paired.Perm ts)
    (hclear : Clear (ss.flatMap members)) :
    ∃ kept, List.Forall₂ Relisted (alternatives ss) kept ∧ kept.Perm (alternatives ts) := by
  obtain ⟨flat, hflat, hflatPerm⟩ := exists_pairing_flatMap h
  have hsupplied : flat.Perm (ts.flatMap members) := hflatPerm.trans (hperm.flatMap_right members)
  have hleft : ∀ m ∈ ss.flatMap members, ∃ n ∈ ts.flatMap members, m.same n = true := by
    intro m hm
    obtain ⟨n, hn, hmn⟩ := exists_of_forall₂_left hflat hm
    exact ⟨n, hsupplied.mem_iff.1 hn, hmn.same⟩
  have hright : ∀ n ∈ ts.flatMap members, ∃ m ∈ ss.flatMap members, m.Relisted n :=
    fun n hn => exists_of_forall₂_right hflat (hsupplied.mem_iff.2 hn)
  obtain ⟨h₁, h₂⟩ := distinct_likes hleft fun n hn =>
    (hright n hn).imp fun _ hm => ⟨hm.1, hm.2.same⟩
  obtain ⟨kept, hkept, hkeptPerm⟩ := exists_pairing h₁ h₂
    (Unlike.noShared (distinct_pairwise _)) (Unlike.noShared_flip (distinct_pairwise _))
  refine ⟨kept, forall₂_imp_of_mem hkept fun m hm n hn hmn => ?_, hkeptPerm⟩
  -- The one that was supplied for `n` is the same as `m`, and so has its fields in this order.
  obtain ⟨m', hm', hmn'⟩ := hright n (mem_distinct (hkeptPerm.mem_iff.1 hn))
  have hmm' : m.same m' = true := same_trans hmn (same_symm hmn'.same)
  exact (hclear.fields m (mem_distinct hm) m' hm' hmm').trans hmn'

theorem tellsApart_alternatives (hclear : Clear (ss.flatMap members)) :
    ((alternatives ss).map render).Nodup := by
  refine List.pairwise_map.2 ((distinct_pairwise _).imp_of_mem fun {m n} hm hn hne heq => ?_)
  rw [hclear.texts m (mem_distinct hm) n (mem_distinct hn) heq] at hne
  cases hne

theorem relisted_unionOf {kept : List Schema} (h : List.Forall₂ Relisted (alternatives ss) kept)
    (hperm : kept.Perm (alternatives ts)) : (unionOf ss).Relisted (unionOf ts) := by
  have hlength : (alternatives ss).length = (alternatives ts).length :=
    h.length_eq.trans hperm.length_eq
  obtain ⟨s, hs, hsu⟩ | ⟨hsl, hsu⟩ := unionOf_cases ss <;>
    obtain ⟨t, hts, htu⟩ | ⟨htl, htu⟩ := unionOf_cases ts <;> rw [hsu, htu]
  · rw [hs] at h
    rw [hts] at hperm
    cases List.perm_singleton.1 hperm
    cases h with
    | cons hst _ => exact hst
  · exact absurd (by rw [← hlength, hs]; rfl) htl
  · exact absurd (by rw [hlength, hts]; rfl) hsl
  · exact .union h hperm

end

end Schema

mutual

/-- Whether two schemas are put together alike, except that the members of a union may be supplied
in another order, at any depth. The members that are supplied to a union have to be clear. -/
inductive Schema.Resupplied : Schema → Schema → Prop
  | primitive (k : PrimitiveKind) : Schema.Resupplied (.primitive k) (.primitive k)
  | opaqueLeaf (k : OpaqueKind) (n : Option Text) :
      Schema.Resupplied (.opaqueLeaf k n) (.opaqueLeaf k n)
  | sequence {e e' : Schema} (r : Bool) : Schema.Resupplied e e' →
      Schema.Resupplied (.sequence e r) (.sequence e' r)
  | record {fs gs : List Field} : List.Forall₂ Field.Resupplied fs gs →
      Schema.Resupplied (.record fs) (.record gs)
  | exclusive {a b c d : List Field} (x y : KeySet) :
      Schema.Resupplied (.record a) (.record c) → Schema.Resupplied (.record b) (.record d) →
      Schema.Resupplied (.exclusive a b x y) (.exclusive c d x y)
  | unionWith {ss paired ts : List Schema} : List.Forall₂ Schema.Resupplied ss paired →
      paired.Perm ts → Schema.Clear (ss.flatMap Schema.members) →
      Schema.Resupplied (.unionWith ss) (.unionWith ts)
  | unionOf {ss paired ts : List Schema} : List.Forall₂ Schema.Resupplied ss paired →
      paired.Perm ts → Schema.Clear (ss.flatMap Schema.members) →
      Schema.Resupplied (.unionOf ss) (.unionOf ts)

/-- Whether two fields differ at most in how their shapes were put together. -/
inductive Field.Resupplied : Field → Field → Prop
  | intro {s t : Schema} (n : Text) (flags : Flags) : Schema.Resupplied s t →
      Field.Resupplied ⟨n, s, flags⟩ ⟨n, t, flags⟩

end

namespace Schema

/-- Whether one schema is the other with members listed in another order, and texts tell the
members of every union in it apart. -/
structure RelistedApart (s t : Schema) : Prop where
  relisted : s.Relisted t
  apart : s.Everywhere TellsApart

theorem everywhere_of_mem_members {p : Schema → Prop} {s m : Schema} (h : s.Everywhere p)
    (hm : m ∈ s.members) : m.Everywhere p := by
  cases s with
  | union ms => exact (everywhere_union.1 h).2 m hm
  | exclusive a b x y =>
    obtain ⟨-, ha, hb⟩ := everywhere_exclusive.1 h
    obtain rfl | rfl := eq_or_eq_of_mem_members hm
    · exact ha
    · exact hb
  | _ => exact List.mem_singleton.1 hm ▸ h

section

variable {ss paired ts : List Schema}

theorem everywhere_alternatives (h : List.Forall₂ RelistedApart ss paired) :
    ∀ m ∈ alternatives ss, m.Everywhere TellsApart := by
  intro m hm
  obtain ⟨s, hs, hms⟩ := List.mem_flatMap.1 (mem_distinct hm)
  obtain ⟨t, -, hst⟩ := exists_of_forall₂_left h hs
  exact everywhere_of_mem_members hst.apart hms

theorem relistedApart_unionWith (h : List.Forall₂ RelistedApart ss paired)
    (hperm : paired.Perm ts) (hclear : Clear (ss.flatMap members)) :
    (unionWith ss).RelistedApart (unionWith ts) := by
  obtain ⟨kept, hkept, hkeptPerm⟩ :=
    exists_pairing_alternatives (h.imp fun _ _ hst => hst.relisted) hperm hclear
  exact ⟨.union hkept hkeptPerm,
    everywhere_union.2 ⟨tellsApart_alternatives hclear, everywhere_alternatives h⟩⟩

theorem relistedApart_unionOf (h : List.Forall₂ RelistedApart ss paired)
    (hperm : paired.Perm ts) (hclear : Clear (ss.flatMap members)) :
    (unionOf ss).RelistedApart (unionOf ts) := by
  obtain ⟨kept, hkept, hkeptPerm⟩ :=
    exists_pairing_alternatives (h.imp fun _ _ hst => hst.relisted) hperm hclear
  refine ⟨relisted_unionOf hkept hkeptPerm, ?_⟩
  obtain ⟨s, hs, hu⟩ | ⟨-, hu⟩ := unionOf_cases ss
  · rw [hu]
    exact everywhere_alternatives h s (by simp [hs])
  · rw [hu]
    exact (relistedApart_unionWith h hperm hclear).apart

end

/-- Members that are supplied in another order are listed in another order. -/
theorem relistedApart_of_resupplied {s t : Schema} (h : s.Resupplied t) : s.RelistedApart t := by
  -- The other three motives say the same of a field, of all fields and of all supplied members.
  refine @Schema.Resupplied.rec (fun s t _ => s.RelistedApart t)
    (fun f g _ => Field.Relisted f g ∧ f.shape.Everywhere TellsApart)
    (fun fs gs _ => List.Forall₂ Field.Relisted fs gs ∧ ∀ f ∈ fs, f.shape.Everywhere TellsApart)
    (fun ss ts _ => List.Forall₂ RelistedApart ss ts)
    ?_ ?_ ?_ ?_ ?_ ?_ ?_ ?_ ?_ ?_ ?_ ?_ s t h
  · intro k
    exact ⟨.primitive k, everywhere_primitive.2 trivial⟩
  · intro k n
    exact ⟨.opaqueLeaf k n, everywhere_opaqueLeaf.2 trivial⟩
  · intro e e' r _ he
    exact ⟨.sequence r he.relisted, everywhere_sequence.2 ⟨trivial, he.apart⟩⟩
  · intro fs gs _ hfs
    exact ⟨.record hfs.1, everywhere_record.2 ⟨trivial, hfs.2⟩⟩
  · intro a b c d x y _ _ ha hb
    exact ⟨.exclusive x y ha.relisted hb.relisted,
      everywhere_exclusive.2 ⟨trivial, ha.apart, hb.apart⟩⟩
  · intro ss paired ts _ hperm hclear hss
    exact relistedApart_unionWith hss hperm hclear
  · intro ss paired ts _ hperm hclear hss
    exact relistedApart_unionOf hss hperm hclear
  · intro s t n flags _ hst
    exact ⟨.intro n flags hst.relisted, hst.apart⟩
  · exact ⟨.nil, nofun⟩
  · intro f g fs gs _ _ hfg hfs
    exact ⟨.cons hfg.1 hfs.1, List.forall_mem_cons.2 ⟨hfg.2, hfs.2⟩⟩
  · exact .nil
  · intro s t ss ts _ _ hst hss
    exact .cons hst hss

/-! ## Members that are listed in another order -/

theorem Unlike.eq_of_same {ms : List Schema} (h : Unlike ms) {m n : Schema} (hm : m ∈ ms)
    (hn : n ∈ ms) (hmn : m.same n = true) : m = n := by
  induction ms with
  | nil => cases hm
  | cons s ms ih =>
    obtain ⟨hs, hms⟩ := List.pairwise_cons.1 h
    have hne : ∀ t ∈ ms, ¬ s.same t = true := fun t ht => by simp [hs t ht]
    rcases List.mem_cons.1 hm with rfl | hm' <;> rcases List.mem_cons.1 hn with rfl | hn'
    · rfl
    · exact absurd hmn (hne n hn')
    · exact absurd (same_symm hmn) (hne m hm')
    · exact ih hms hm' hn'

theorem clear_of_nodup {ms : List Schema} (hunlike : Unlike ms) (h : (ms.map render).Nodup) :
    Clear ms where
  texts m hm n hn heq := by
    rw [List.inj_on_of_nodup_map h hm hn heq]
    exact same_refl n
  fields m hm n hn hmn := hunlike.eq_of_same hm hn hmn ▸ .refl m

theorem unionWith_members {ms : List Schema} (h : (Schema.union ms).WellFormed) :
    unionWith ms = .union ms := by
  obtain ⟨⟨hflat, hunlike⟩, -⟩ := wellFormed_union.1 h
  rw [unionWith, alternatives_of_flat hflat, distinct_eq_self hunlike]

/-- Well-formed schemas that list their members in another order can be put together of members
that are supplied in another order. -/
theorem resupplied_of_relisted {s t : Schema} (hs : s.WellFormed) (ht : t.WellFormed)
    (hapart : s.Everywhere TellsApart) (h : s.Relisted t) : s.Resupplied t := by
  induction s using Schema.induction generalizing t with
  | primitive k => cases h; exact .primitive k
  | opaqueLeaf k n => cases h; exact .opaqueLeaf k n
  | sequence e r ih =>
    cases h with
    | sequence _ he =>
      exact .sequence r (ih (wellFormed_sequence.1 hs) (wellFormed_sequence.1 ht)
        (everywhere_sequence.1 hapart).2 he)
  | union ms ih =>
    cases h with
    | @union _ paired ns hpaired hperm =>
      obtain ⟨⟨hflat, hunlike⟩, hms⟩ := wellFormed_union.1 hs
      obtain ⟨hnodup, hmsApart⟩ := everywhere_union.1 hapart
      rw [← unionWith_members hs, ← unionWith_members ht]
      refine .unionWith (forall₂_imp_of_mem hpaired fun m hm n hn hmn => ?_) hperm ?_
      · exact ih m hm (hms m hm) ((wellFormed_union.1 ht).2 n (hperm.mem_iff.1 hn))
          (hmsApart m hm) hmn
      · rw [flatMap_members_of_flat hflat]
        exact clear_of_nodup hunlike hnodup
  | record fs ih =>
    cases h with
    | record hpaired =>
      refine .record (forall₂_imp_of_mem hpaired ?_)
      rintro _ hf _ hg ⟨n, flags, hst⟩
      exact .intro n flags (ih _ hf ((wellFormed_record.1 hs).2 _ hf)
        ((wellFormed_record.1 ht).2 _ hg) ((everywhere_record.1 hapart).2 _ hf) hst)
  | exclusive a b x y iha ihb =>
    cases h with
    | exclusive _ _ ha hb =>
      obtain ⟨hwa, hwb⟩ := wellFormed_exclusive.1 hs
      obtain ⟨hwc, hwd⟩ := wellFormed_exclusive.1 ht
      obtain ⟨-, hapartA, hapartB⟩ := everywhere_exclusive.1 hapart
      exact .exclusive x y (iha hwa hwc hapartA ha) (ihb hwb hwd hapartB hb)

end Schema

end ShapeAlgebra
