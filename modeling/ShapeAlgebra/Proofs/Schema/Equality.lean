import ShapeAlgebra.Schema.Alternatives
import ShapeAlgebra.Proofs.Schema.Induction

/-!
# Equality of schemas is an equivalence

Being the same up to the order of fields and members is symmetric and transitive, at every depth.
Hence a list in which no two schemas are the same stays such a list when its items are exchanged
for others that are the same, and taking away likes leaves it as it is.

Results:

* `Schema.same_symm`, `Schema.same_trans`: with `Schema.same_refl`, an equivalence.
* `Schema.distinct_eq_self`: nothing is taken away from a list without likes.
* `Schema.unionOf_of_flat`: the union of schemas that are no unions has them as its members, each
  once.
* `Schema.unionOf_same`: unions of alike lists are the same.
-/

namespace ShapeAlgebra.Schema

/-! ## What a schema can be the same as -/

theorem eq_of_same_primitive {k : PrimitiveKind} {t : Schema}
    (h : (Schema.primitive k).same t = true) : t = .primitive k := by
  cases t <;> simp_all [Schema.same]

theorem eq_of_same_opaqueLeaf {k : OpaqueKind} {n : Option Text} {t : Schema}
    (h : (Schema.opaqueLeaf k n).same t = true) : t = .opaqueLeaf k n := by
  cases t <;> simp_all [Schema.same]

theorem exists_of_same_sequence {e t : Schema} {r : Bool}
    (h : (Schema.sequence e r).same t = true) : ∃ e', t = .sequence e' r ∧ e.same e' = true := by
  cases t <;> simp_all [Schema.same]

theorem exists_of_same_union {ms : List Schema} {t : Schema}
    (h : (Schema.union ms).same t = true) : ∃ ns, t = .union ns ∧
      (∀ m ∈ ms, ∃ n ∈ ns, m.same n = true) ∧ ∀ n ∈ ns, ∃ m ∈ ms, m.same n = true := by
  cases t with
  | union ns => exact ⟨ns, rfl, same_union_iff.1 h⟩
  | _ => simp [Schema.same] at h

theorem exists_of_same_record {r : Record} {t : Schema}
    (h : (Schema.record r).same t = true) : ∃ r', t = .record r' ∧
      (∀ f ∈ r, ∃ g ∈ r', f.same g = true) ∧ ∀ g ∈ r', ∃ f ∈ r, f.same g = true := by
  cases t with
  | record r' => exact ⟨r', rfl, same_record_iff.1 h⟩
  | _ => simp [Schema.same] at h

theorem exists_of_same_exclusive {a b : Record} {x y : KeySet} {t : Schema}
    (h : (Schema.exclusive a b x y).same t = true) : ∃ c d, t = .exclusive c d x y ∧
      (Schema.record a).same (.record c) = true ∧ (Schema.record b).same (.record d) = true := by
  cases t with
  | exclusive c d u v =>
    obtain ⟨ha, hb, rfl, rfl⟩ := same_exclusive_iff.1 h
    exact ⟨c, d, rfl, same_record_iff.2 (Record.same_iff.1 ha),
      same_record_iff.2 (Record.same_iff.1 hb)⟩
  | _ => simp [Schema.same] at h

theorem same_exclusive_of_records {a b c d : Record} {x y : KeySet}
    (ha : (Schema.record a).same (.record c) = true)
    (hb : (Schema.record b).same (.record d) = true) :
    (Schema.exclusive a b x y).same (.exclusive c d x y) = true :=
  same_exclusive_iff.2 ⟨Record.same_iff.2 (same_record_iff.1 ha),
    Record.same_iff.2 (same_record_iff.1 hb), rfl, rfl⟩

/-! ## Symmetry and transitivity -/

theorem same_symm {s t : Schema} (h : s.same t = true) : t.same s = true := by
  induction s using Schema.induction generalizing t with
  | primitive k => rw [eq_of_same_primitive h]; exact same_refl _
  | opaqueLeaf k n => rw [eq_of_same_opaqueLeaf h]; exact same_refl _
  | sequence e r ih =>
    obtain ⟨e', rfl, he⟩ := exists_of_same_sequence h
    simp [Schema.same, ih he]
  | union ms ih =>
    obtain ⟨ns, rfl, h₁, h₂⟩ := exists_of_same_union h
    refine same_union_iff.2 ⟨fun n hn => ?_, fun m hm => ?_⟩
    · obtain ⟨m, hm, hmn⟩ := h₂ n hn
      exact ⟨m, hm, ih m hm hmn⟩
    · obtain ⟨n, hn, hmn⟩ := h₁ m hm
      exact ⟨n, hn, ih m hm hmn⟩
  | record fs ih =>
    have flip : ∀ f ∈ fs, ∀ g : Field, f.same g = true → g.same f = true := by
      intro f hf g hfg
      obtain ⟨hn, hflags, hs⟩ := Field.same_iff.1 hfg
      exact Field.same_iff.2 ⟨hn.symm, hflags.symm, ih f hf hs⟩
    obtain ⟨gs, rfl, h₁, h₂⟩ := exists_of_same_record h
    refine same_record_iff.2 ⟨fun g hg => ?_, fun f hf => ?_⟩
    · obtain ⟨f, hf, hfg⟩ := h₂ g hg
      exact ⟨f, hf, flip f hf g hfg⟩
    · obtain ⟨g, hg, hfg⟩ := h₁ f hf
      exact ⟨g, hg, flip f hf g hfg⟩
  | exclusive a b x y iha ihb =>
    obtain ⟨c, d, rfl, ha, hb⟩ := exists_of_same_exclusive h
    exact same_exclusive_of_records (iha ha) (ihb hb)

theorem same_trans {s t u : Schema} (h : s.same t = true) (h' : t.same u = true) :
    s.same u = true := by
  induction s using Schema.induction generalizing t u with
  | primitive k => rw [eq_of_same_primitive h] at h'; exact h'
  | opaqueLeaf k n => rw [eq_of_same_opaqueLeaf h] at h'; exact h'
  | sequence e r ih =>
    obtain ⟨e', rfl, he⟩ := exists_of_same_sequence h
    obtain ⟨e'', rfl, he'⟩ := exists_of_same_sequence h'
    simp [Schema.same, ih he he']
  | union ms ih =>
    obtain ⟨ns, rfl, h₁, h₂⟩ := exists_of_same_union h
    obtain ⟨os, rfl, h₁', h₂'⟩ := exists_of_same_union h'
    refine same_union_iff.2 ⟨fun m hm => ?_, fun o ho => ?_⟩
    · obtain ⟨n, hn, hmn⟩ := h₁ m hm
      obtain ⟨o, ho, hno⟩ := h₁' n hn
      exact ⟨o, ho, ih m hm hmn hno⟩
    · obtain ⟨n, hn, hno⟩ := h₂' o ho
      obtain ⟨m, hm, hmn⟩ := h₂ n hn
      exact ⟨m, hm, ih m hm hmn hno⟩
  | record fs ih =>
    have link : ∀ f ∈ fs, ∀ g k : Field, f.same g = true → g.same k = true → f.same k = true := by
      intro f hf g k hfg hgk
      obtain ⟨hn, hflags, hs⟩ := Field.same_iff.1 hfg
      obtain ⟨hn', hflags', hs'⟩ := Field.same_iff.1 hgk
      exact Field.same_iff.2 ⟨hn.trans hn', hflags.trans hflags', ih f hf hs hs'⟩
    obtain ⟨gs, rfl, h₁, h₂⟩ := exists_of_same_record h
    obtain ⟨ks, rfl, h₁', h₂'⟩ := exists_of_same_record h'
    refine same_record_iff.2 ⟨fun f hf => ?_, fun k hk => ?_⟩
    · obtain ⟨g, hg, hfg⟩ := h₁ f hf
      obtain ⟨k, hk, hgk⟩ := h₁' g hg
      exact ⟨k, hk, link f hf g k hfg hgk⟩
    · obtain ⟨g, hg, hgk⟩ := h₂' k hk
      obtain ⟨f, hf, hfg⟩ := h₂ g hg
      exact ⟨f, hf, link f hf g k hfg hgk⟩
  | exclusive a b x y iha ihb =>
    obtain ⟨c, d, rfl, ha, hb⟩ := exists_of_same_exclusive h
    obtain ⟨c', d', rfl, ha', hb'⟩ := exists_of_same_exclusive h'
    exact same_exclusive_of_records (iha ha ha') (ihb hb hb')

/-! ## Lists without likes -/

/-- Whether no two schemas of a list are the same. -/
def Unlike (ss : List Schema) : Prop := ss.Pairwise fun s t => s.same t = false

theorem distinct_eq_self {ss : List Schema} (h : Unlike ss) : distinct ss = ss := by
  induction ss with
  | nil => rfl
  | cons s ss ih =>
    obtain ⟨hs, hss⟩ := List.pairwise_cons.1 h
    rw [distinct, ih hss, List.filter_eq_self.2 fun t ht => by simp [hs t ht]]

/-- Exchanging the items of a list for others that are the same brings no likes into it. -/
theorem unlike_map {f : Schema → Schema} {ss : List Schema}
    (hf : ∀ s ∈ ss, (f s).same s = true) (h : Unlike ss) : Unlike (ss.map f) := by
  refine List.pairwise_map.2 (h.imp_of_mem fun {s t} hs ht hst => ?_)
  refine Bool.eq_false_iff.2 fun hft => ?_
  have hst' : s.same t = true := same_trans (same_trans (same_symm (hf s hs)) hft) (hf t ht)
  rw [hst] at hst'
  cases hst'

/-- Schemas without likes that are all the same as one are no more than one. -/
theorem length_le_one_of_same {ms : List Schema} {n : Schema} (h : Unlike ms)
    (hn : ∀ m ∈ ms, m.same n = true) : ms.length ≤ 1 := by
  match ms, h, hn with
  | [], _, _ => simp
  | [_], _, _ => simp
  | m :: m' :: _, h, hn =>
    have hne : m.same m' = false := (List.pairwise_cons.1 h).1 m' (by simp)
    have heq : m.same m' = true := same_trans (hn m (by simp)) (same_symm (hn m' (by simp)))
    rw [hne] at heq
    cases heq

theorem exists_same_mem_distinct {ss : List Schema} {s : Schema} (h : s ∈ ss) :
    ∃ t ∈ distinct ss, s.same t = true := by
  induction ss with
  | nil => cases h
  | cons u ss ih =>
    by_cases hu : u.same s = true
    · exact ⟨u, List.mem_cons_self .., same_symm hu⟩
    · have hs : s ∈ ss := (List.mem_cons.1 h).resolve_left fun e => hu (e ▸ same_refl s)
      obtain ⟨t, ht, hst⟩ := ih hs
      refine ⟨t, List.mem_cons_of_mem _ (List.mem_filter.2 ⟨ht, ?_⟩), hst⟩
      -- If `u` were the same as the like of `s` that was kept, it would be the same as `s`.
      cases hut : u.same t with
      | false => rfl
      | true => exact absurd (same_trans hut (same_symm hst)) hu

/-- Lists in which every schema has its like in the other list keep likes of all that they keep. -/
theorem distinct_likes {ss ts : List Schema} (h₁ : ∀ s ∈ ss, ∃ t ∈ ts, s.same t = true)
    (h₂ : ∀ t ∈ ts, ∃ s ∈ ss, s.same t = true) :
    (∀ s ∈ distinct ss, ∃ t ∈ distinct ts, s.same t = true) ∧
      ∀ t ∈ distinct ts, ∃ s ∈ distinct ss, s.same t = true := by
  constructor
  · intro s hs
    obtain ⟨t, ht, hst⟩ := h₁ s (mem_distinct hs)
    obtain ⟨u, hu, htu⟩ := exists_same_mem_distinct ht
    exact ⟨u, hu, same_trans hst htu⟩
  · intro t ht
    obtain ⟨s, hs, hst⟩ := h₂ t (mem_distinct ht)
    obtain ⟨u, hu, hsu⟩ := exists_same_mem_distinct hs
    exact ⟨u, hu, same_trans (same_symm hsu) hst⟩

theorem members_of_isUnion_eq_false {s : Schema} (h : s.isUnion = false) : s.members = [s] := by
  cases s <;> first | rfl | simp [isUnion] at h

theorem flatMap_members_of_flat {ss : List Schema} (h : ∀ s ∈ ss, s.isUnion = false) :
    ss.flatMap members = ss := by
  have hm : ss.map members = ss.map fun s => [s] :=
    List.map_congr_left fun s hs => members_of_isUnion_eq_false (h s hs)
  rw [List.flatMap_def, hm, ← List.flatMap_def, List.flatMap_singleton']

theorem alternatives_of_flat {ss : List Schema} (h : ∀ s ∈ ss, s.isUnion = false) :
    alternatives ss = distinct ss := by
  rw [alternatives, flatMap_members_of_flat h]

/-- The union of several schemas is their only alternative, or lists their alternatives. -/
theorem unionOf_cases (ss : List Schema) :
    (∃ s, alternatives ss = [s] ∧ unionOf ss = s) ∨
      (alternatives ss).length ≠ 1 ∧ unionOf ss = .union (alternatives ss) := by
  rw [unionOf]
  split
  · next s hs => exact .inl ⟨s, hs, rfl⟩
  · next hne =>
    refine .inr ⟨fun hl => ?_, rfl⟩
    obtain ⟨s, hs⟩ := List.length_eq_one_iff.1 hl
    exact hne s hs

/-- The union of schemas that are no unions: its members are theirs, each once. -/
theorem unionOf_of_flat {ss : List Schema} (h : ∀ s ∈ ss, s.isUnion = false) :
    (∃ s, distinct ss = [s] ∧ unionOf ss = s) ∨
      (distinct ss).length ≠ 1 ∧ unionOf ss = .union (distinct ss) := by
  rw [← alternatives_of_flat h]
  exact unionOf_cases ss

/-- Unions of lists in which every schema has its like in the other list are the same. -/
theorem unionOf_same {ss ts : List Schema} (hs : ∀ s ∈ ss, s.isUnion = false)
    (ht : ∀ t ∈ ts, t.isUnion = false) (h₁ : ∀ s ∈ ss, ∃ t ∈ ts, s.same t = true)
    (h₂ : ∀ t ∈ ts, ∃ s ∈ ss, s.same t = true) : (unionOf ss).same (unionOf ts) = true := by
  obtain ⟨hd₁, hd₂⟩ := distinct_likes h₁ h₂
  obtain ⟨s, hss, hsu⟩ | ⟨hsl, hsu⟩ := unionOf_of_flat hs <;>
    obtain ⟨t, hts, htu⟩ | ⟨htl, htu⟩ := unionOf_of_flat ht <;> rw [hsu, htu]
  · obtain ⟨u, hu, hsame⟩ := hd₁ s (by simp [hss])
    rw [hts] at hu
    rwa [List.mem_singleton.1 hu] at hsame
  · -- A single schema on one side leaves no more than one on the other.
    exfalso
    have hle := length_le_one_of_same (distinct_pairwise ts) (n := s) fun t ht => by
      obtain ⟨u, hu, hsame⟩ := hd₂ t ht
      rw [hss] at hu
      exact same_symm (List.mem_singleton.1 hu ▸ hsame)
    obtain ⟨u, hu, -⟩ := hd₁ s (by simp [hss])
    have := List.length_pos_of_mem hu
    omega
  · exfalso
    have hle := length_le_one_of_same (distinct_pairwise ss) (n := t) fun s hs => by
      obtain ⟨u, hu, hsame⟩ := hd₁ s hs
      rw [hts] at hu
      exact List.mem_singleton.1 hu ▸ hsame
    obtain ⟨u, hu, -⟩ := hd₂ t (by simp [hts])
    have := List.length_pos_of_mem hu
    omega
  · exact same_union_iff.2 ⟨hd₁, hd₂⟩

end ShapeAlgebra.Schema
