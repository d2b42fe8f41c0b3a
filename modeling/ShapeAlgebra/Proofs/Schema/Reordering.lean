import Mathlib.Data.List.Forall2
import ShapeAlgebra.Proofs.Schema.WellFormed

/-!
# What equality of schemas looks at

Schemas are the same when one comes from the other by changing the order of fields and of members,
at any depth, and never otherwise. As no record has a name twice and no union has two members that
are the same, the likes of two lists can be paired off, which no single step of the comparison says.

Results:

* `exists_pairing`: lists in which every item has its like in the other can be paired off.
* `Schema.same_iff_reordered`: schemas are the same when one of them is the other reordered.
-/

namespace ShapeAlgebra

/-! ## Pairing off -/

section

variable {α β : Type} {R : α → β → Prop}

/-- Whether no two items of the list are related to the same item. -/
def NoShared (R : α → β → Prop) (xs : List α) : Prop :=
  xs.Pairwise fun x x' => ∀ y, R x y → ¬ R x' y

/-- Items that share nothing are paired off with different items. -/
theorem exists_pairing_into {xs : List α} {ys : List β} (h : ∀ x ∈ xs, ∃ y ∈ ys, R x y)
    (hx : NoShared R xs) :
    ∃ paired rest, List.Forall₂ R xs paired ∧ (paired ++ rest).Perm ys := by
  induction xs generalizing ys with
  | nil => exact ⟨[], ys, .nil, .refl _⟩
  | cons x xs ih =>
    obtain ⟨hx, hxs⟩ := List.pairwise_cons.1 hx
    obtain ⟨y, hy, hxy⟩ := h x (List.mem_cons_self ..)
    obtain ⟨before, behind, rfl⟩ := List.append_of_mem hy
    -- The item paired with `x` is not needed for the others.
    have hrest : ∀ x' ∈ xs, ∃ y' ∈ before ++ behind, R x' y' := by
      intro x' hx'
      obtain ⟨y', hy', hr⟩ := h x' (List.mem_cons_of_mem _ hx')
      rcases List.mem_cons.1 (List.perm_middle.mem_iff.1 hy') with rfl | hy'
      · exact absurd hr (hx x' hx' y' hxy)
      · exact ⟨y', hy', hr⟩
    obtain ⟨paired, rest, hpaired, hperm⟩ := ih hrest hxs
    exact ⟨y :: paired, rest, .cons hxy hpaired, (hperm.cons y).trans List.perm_middle.symm⟩

theorem length_le_of_pairing {xs : List α} {ys : List β} (h : ∀ x ∈ xs, ∃ y ∈ ys, R x y)
    (hx : NoShared R xs) : xs.length ≤ ys.length := by
  obtain ⟨paired, rest, hpaired, hperm⟩ := exists_pairing_into h hx
  rw [hpaired.length_eq, ← hperm.length_eq, List.length_append]
  exact Nat.le_add_right _ _

/-- Items that share nothing are paired off with a list that is no longer. -/
theorem exists_pairing_of_length {xs : List α} {ys : List β} (h : ∀ x ∈ xs, ∃ y ∈ ys, R x y)
    (hx : NoShared R xs) (hl : ys.length ≤ xs.length) :
    ∃ paired, List.Forall₂ R xs paired ∧ paired.Perm ys := by
  obtain ⟨paired, rest, hpaired, hperm⟩ := exists_pairing_into h hx
  have hlen := hperm.length_eq
  rw [List.length_append, ← hpaired.length_eq] at hlen
  obtain rfl : rest = [] := List.length_eq_zero_iff.1 (by omega)
  rw [List.append_nil] at hperm
  exact ⟨paired, hpaired, hperm⟩

theorem exists_of_forall₂_left {xs : List α} {ys : List β} (h : List.Forall₂ R xs ys) {x : α}
    (hx : x ∈ xs) : ∃ y ∈ ys, R x y := by
  induction h with
  | nil => cases hx
  | cons hr _ ih =>
    rcases List.mem_cons.1 hx with rfl | hx
    · exact ⟨_, List.mem_cons_self .., hr⟩
    · obtain ⟨y, hy, hr⟩ := ih hx
      exact ⟨y, List.mem_cons_of_mem _ hy, hr⟩

theorem exists_of_forall₂_right {xs : List α} {ys : List β} (h : List.Forall₂ R xs ys) {y : β}
    (hy : y ∈ ys) : ∃ x ∈ xs, R x y := exists_of_forall₂_left h.flip hy

theorem forall₂_imp_of_mem {S : α → β → Prop} {xs : List α} {ys : List β}
    (h : List.Forall₂ R xs ys) (himp : ∀ x ∈ xs, ∀ y ∈ ys, R x y → S x y) :
    List.Forall₂ S xs ys := by
  induction h with
  | nil => exact .nil
  | cons hr _ ih =>
    refine .cons (himp _ (List.mem_cons_self ..) _ (List.mem_cons_self ..) hr) (ih ?_)
    exact fun x hx y hy => himp x (List.mem_cons_of_mem _ hx) y (List.mem_cons_of_mem _ hy)

theorem map_eq_map_of_forall₂ {γ : Type} {f : α → γ} {g : β → γ} {xs : List α} {ys : List β}
    (h : List.Forall₂ R xs ys) (hfg : ∀ x ∈ xs, ∀ y ∈ ys, R x y → f x = g y) :
    xs.map f = ys.map g := by
  have heq : List.Forall₂ (fun x y => f x = g y) xs ys := forall₂_imp_of_mem h hfg
  exact List.forall₂_eq_eq_eq ▸ List.forall₂_map_left_iff.2 (List.forall₂_map_right_iff.2 heq)

/-- Lists in which every item has its like in the other are paired off. -/
theorem exists_pairing {xs : List α} {ys : List β} (h₁ : ∀ x ∈ xs, ∃ y ∈ ys, R x y)
    (h₂ : ∀ y ∈ ys, ∃ x ∈ xs, R x y) (hx : NoShared R xs) (hy : NoShared (flip R) ys) :
    ∃ paired, List.Forall₂ R xs paired ∧ paired.Perm ys :=
  exists_pairing_of_length h₁ hx (length_le_of_pairing (R := flip R) h₂ hy)

end

mutual

/-- Whether the second schema comes from the first by changing the order of fields and of members,
at any depth. -/
inductive Schema.Reordered : Schema → Schema → Prop
  | primitive (k : PrimitiveKind) : Schema.Reordered (.primitive k) (.primitive k)
  | opaqueLeaf (k : OpaqueKind) (n : Option Text) :
      Schema.Reordered (.opaqueLeaf k n) (.opaqueLeaf k n)
  | sequence {e e' : Schema} (r : Bool) : Schema.Reordered e e' →
      Schema.Reordered (.sequence e r) (.sequence e' r)
  | union {ms paired ns : List Schema} : List.Forall₂ Schema.Reordered ms paired →
      paired.Perm ns → Schema.Reordered (.union ms) (.union ns)
  | record {fs paired gs : List Field} : List.Forall₂ Field.Reordered fs paired →
      paired.Perm gs → Schema.Reordered (.record fs) (.record gs)
  | exclusive {a b c d : List Field} (x y : KeySet) : Schema.Reordered (.record a) (.record c) →
      Schema.Reordered (.record b) (.record d) →
      Schema.Reordered (.exclusive a b x y) (.exclusive c d x y)

/-- Whether the second field is the first with a reordered shape. -/
inductive Field.Reordered : Field → Field → Prop
  | intro {s t : Schema} (n : Text) (flags : Flags) : Schema.Reordered s t →
      Field.Reordered ⟨n, s, flags⟩ ⟨n, t, flags⟩

end

/-! ## Likes are paired off -/

namespace Schema

theorem Unlike.noShared {ms : List Schema} (h : Unlike ms) :
    NoShared (fun m n : Schema => m.same n = true) ms := by
  refine h.imp fun {m m'} hne n hmn hmn' => ?_
  rw [same_trans hmn (same_symm hmn')] at hne
  cases hne

theorem Unlike.noShared_flip {ns : List Schema} (h : Unlike ns) :
    NoShared (flip fun m n : Schema => m.same n = true) ns := by
  refine h.imp fun {n n'} hne m hmn hmn' => ?_
  rw [same_trans (same_symm hmn) hmn'] at hne
  cases hne

end Schema

theorem Record.noShared_of_nodup {r : Record} (h : r.names.Nodup) :
    NoShared (fun f g : Field => f.same g = true) r := by
  refine (List.pairwise_map.1 h).imp fun {f f'} hne g hfg hfg' => hne ?_
  exact (Field.same_iff.1 hfg).1.trans (Field.same_iff.1 hfg').1.symm

theorem Record.noShared_flip_of_nodup {r : Record} (h : r.names.Nodup) :
    NoShared (flip fun f g : Field => f.same g = true) r := by
  refine (List.pairwise_map.1 h).imp fun {g g'} hne f hfg hfg' => hne ?_
  exact (Field.same_iff.1 hfg).1.symm.trans (Field.same_iff.1 hfg').1

namespace Schema

/-- The members of unions that are the same are paired off. -/
theorem exists_pairing_members {ms ns : List Schema} (hm : (Schema.union ms).WellFormed)
    (hn : (Schema.union ns).WellFormed) (h : (Schema.union ms).same (.union ns) = true) :
    ∃ paired, List.Forall₂ (fun m n : Schema => m.same n = true) ms paired ∧ paired.Perm ns := by
  obtain ⟨h₁, h₂⟩ := same_union_iff.1 h
  exact exists_pairing h₁ h₂ (wellFormed_union.1 hm).1.2.noShared
    (wellFormed_union.1 hn).1.2.noShared_flip

/-- The fields of records that are the same are paired off. -/
theorem exists_pairing_fields {r t : Record} (hr : (Schema.record r).WellFormed)
    (ht : (Schema.record t).WellFormed) (h : (Schema.record r).same (.record t) = true) :
    ∃ paired, List.Forall₂ (fun f g : Field => f.same g = true) r paired ∧ paired.Perm t := by
  obtain ⟨h₁, h₂⟩ := same_record_iff.1 h
  exact exists_pairing h₁ h₂ (Record.noShared_of_nodup (wellFormed_record.1 hr).1)
    (Record.noShared_flip_of_nodup (wellFormed_record.1 ht).1)

/-! ## Order and nothing else -/

theorem same_of_reordered {s t : Schema} (h : s.Reordered t) : s.same t = true := by
  induction s using Schema.induction generalizing t with
  | primitive k => cases h; exact same_refl _
  | opaqueLeaf k n => cases h; exact same_refl _
  | sequence e r ih =>
    cases h with
    | sequence _ he => simp [same, ih he]
  | union ms ih =>
    cases h with
    | union hpaired hperm =>
      refine same_union_iff.2 ⟨fun m hm => ?_, fun n hn => ?_⟩
      · obtain ⟨n, hn, hmn⟩ := exists_of_forall₂_left hpaired hm
        exact ⟨n, hperm.mem_iff.1 hn, ih m hm hmn⟩
      · obtain ⟨m, hm, hmn⟩ := exists_of_forall₂_right hpaired (hperm.mem_iff.2 hn)
        exact ⟨m, hm, ih m hm hmn⟩
  | record fs ih =>
    cases h with
    | record hpaired hperm =>
      have hfield : ∀ f ∈ fs, ∀ g, Field.Reordered f g → f.same g = true := by
        rintro _ hf _ ⟨n, flags, hs⟩
        exact Field.same_iff.2 ⟨rfl, rfl, ih _ hf hs⟩
      refine same_record_iff.2 ⟨fun f hf => ?_, fun g hg => ?_⟩
      · obtain ⟨g, hg, hfg⟩ := exists_of_forall₂_left hpaired hf
        exact ⟨g, hperm.mem_iff.1 hg, hfield f hf g hfg⟩
      · obtain ⟨f, hf, hfg⟩ := exists_of_forall₂_right hpaired (hperm.mem_iff.2 hg)
        exact ⟨f, hf, hfield f hf g hfg⟩
  | exclusive a b x y iha ihb =>
    cases h with
    | exclusive _ _ ha hb => exact same_exclusive_of_records (iha ha) (ihb hb)

theorem reordered_of_same {s t : Schema} (hs : s.WellFormed) (ht : t.WellFormed)
    (h : s.same t = true) : s.Reordered t := by
  induction s using Schema.induction generalizing t with
  | primitive k => rw [eq_of_same_primitive h]; exact .primitive k
  | opaqueLeaf k n => rw [eq_of_same_opaqueLeaf h]; exact .opaqueLeaf k n
  | sequence e r ih =>
    obtain ⟨e', rfl, he⟩ := exists_of_same_sequence h
    exact .sequence r (ih (wellFormed_sequence.1 hs) (wellFormed_sequence.1 ht) he)
  | union ms ih =>
    obtain ⟨ns, rfl, -⟩ := exists_of_same_union h
    obtain ⟨paired, hpaired, hperm⟩ := exists_pairing_members hs ht h
    refine .union (forall₂_imp_of_mem hpaired fun m hm n hn hmn => ?_) hperm
    exact ih m hm ((wellFormed_union.1 hs).2 m hm)
      ((wellFormed_union.1 ht).2 n (hperm.mem_iff.1 hn)) hmn
  | record fs ih =>
    obtain ⟨gs, rfl, -⟩ := exists_of_same_record h
    obtain ⟨paired, hpaired, hperm⟩ := exists_pairing_fields hs ht h
    refine .record (forall₂_imp_of_mem hpaired fun f hf g hg hfg => ?_) hperm
    have hg := (wellFormed_record.1 ht).2 g (hperm.mem_iff.1 hg)
    have hf' := (wellFormed_record.1 hs).2 f hf
    obtain ⟨hname, hflags, hshape⟩ := Field.same_iff.1 hfg
    obtain ⟨n, u, flags⟩ := f
    obtain ⟨n', v, flags'⟩ := g
    obtain rfl : n = n' := hname
    obtain rfl : flags = flags' := hflags
    exact .intro n flags (ih _ hf hf' hg hshape)
  | exclusive a b x y iha ihb =>
    obtain ⟨c, d, rfl, ha, hb⟩ := exists_of_same_exclusive h
    obtain ⟨hwa, hwb⟩ := wellFormed_exclusive.1 hs
    obtain ⟨hwc, hwd⟩ := wellFormed_exclusive.1 ht
    exact .exclusive x y (iha hwa hwc ha) (ihb hwb hwd hb)

theorem same_iff_reordered {s t : Schema} (hs : s.WellFormed) (ht : t.WellFormed) :
    s.same t = true ↔ s.Reordered t :=
  ⟨reordered_of_same hs ht, same_of_reordered⟩

end Schema

end ShapeAlgebra
