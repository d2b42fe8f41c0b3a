import ShapeAlgebra.Schema.Render
import ShapeAlgebra.Proofs.Schema.WellFormed

/-!
# Normal schemas

The normal form of a schema has every union built anew at every depth: a single member stands for
itself, and an exclusive union becomes the union of its variants. Nothing else changes. As a union
is a set of members, their order is free; they are taken in the order of their rendered texts, in
which they are written down.

Results:

* `Schema.wellFormed_normal`, `Schema.isPlain_normal`: what normal schemas are like.
* `Schema.normal_same_iff`: a schema is the same as its normal form exactly when it is plain.
* `Schema.normal_same_unionOf`: the order in which members are taken makes no difference.
-/

namespace ShapeAlgebra

/-- The union of members that come with texts, in the order of the texts. -/
def Schema.unionInOrder (members : List (Text × Schema)) : Schema :=
  .unionOf ((members.mergeSort fun p q => Text.before p.1 q.1).map Prod.snd)

mutual

/-- The schema with every union in it built anew. -/
def Schema.normal : Schema → Schema
  | .primitive k => .primitive k
  | .opaqueLeaf k n => .opaqueLeaf k n
  | .sequence e r => .sequence (Schema.normal e) r
  | .union ms => .unionInOrder ((Schema.renderAll ms).zip (Schema.normalAll ms))
  | .record fs => .record (Field.normalAll fs)
  | .exclusive a b _ _ =>
    let first := (renderRecord (Field.renderAll a), Schema.record (Field.normalAll a))
    let second := (renderRecord (Field.renderAll b), Schema.record (Field.normalAll b))
    .unionInOrder (if Record.same a b then [first] else [first, second])

/-- Each of several schemas with every union in it built anew. -/
def Schema.normalAll : List Schema → List Schema
  | [] => []
  | s :: ss => Schema.normal s :: Schema.normalAll ss

/-- Each of several fields with every union in its shape built anew. -/
def Field.normalAll : List Field → List Field
  | [] => []
  | ⟨n, s, flags⟩ :: fs => ⟨n, Schema.normal s, flags⟩ :: Field.normalAll fs

end

theorem Field.normalAll_eq_map (fs : List Field) :
    Field.normalAll fs = fs.map fun f => { f with shape := f.shape.normal } := by
  induction fs with
  | nil => rfl
  | cons f fs ih =>
    obtain ⟨n, s, flags⟩ := f
    rw [Field.normalAll, ih, List.map_cons]

namespace Schema

/-! ## Members in the order of their texts -/

/-- Schemas in the order of their rendered texts. -/
def inOrder (ss : List Schema) : List Schema :=
  ss.mergeSort fun s t => Text.before s.render t.render

theorem inOrder_perm (ss : List Schema) : (inOrder ss).Perm ss := List.mergeSort_perm _ _

theorem mem_inOrder {ss : List Schema} {s : Schema} : s ∈ inOrder ss ↔ s ∈ ss :=
  (inOrder_perm ss).mem_iff

/-- What is given beside the texts of schemas is put in the order of the schemas. -/
theorem map_snd_mergeSort {α : Type} (f : Schema → α) (ss : List Schema) :
    ((ss.map fun s => (s.render, f s)).mergeSort fun p q => Text.before p.1 q.1).map Prod.snd =
      (inOrder ss).map f := by
  rw [inOrder, ← List.map_mergeSort (f := fun s => (s.render, f s)) (fun _ _ _ _ => rfl),
    List.map_map]
  rfl

theorem renderAll_zip {α : Type} (f : Schema → α) (g : List Schema → List α)
    (hnil : g [] = []) (hcons : ∀ s ss, g (s :: ss) = f s :: g ss) (ss : List Schema) :
    (renderAll ss).zip (g ss) = ss.map fun s => (s.render, f s) := by
  induction ss with
  | nil => rw [hnil]; rfl
  | cons s ss ih => rw [renderAll, hcons, List.zip_cons_cons, ih, List.map_cons]

theorem members_exclusive (a b : Record) (x y : KeySet) :
    (Schema.exclusive a b x y).members =
      if Record.same a b then [.record a] else [.record a, .record b] := by
  have h : (Schema.record a).same (.record b) = Record.same a b := rfl
  simp only [members, distinct, List.filter_nil, List.filter_cons, h]
  cases Record.same a b <;> rfl

theorem eq_or_eq_of_mem_members {a b : Record} {x y : KeySet} {m : Schema}
    (h : m ∈ (Schema.exclusive a b x y).members) : m = .record a ∨ m = .record b := by
  simpa using mem_distinct h

theorem normal_of_isUnion {s : Schema} (h : s.isUnion = true) :
    s.normal = unionOf ((inOrder s.members).map normal) := by
  rw [← map_snd_mergeSort]
  cases s with
  | union ms =>
    rw [normal, unionInOrder, renderAll_zip normal normalAll rfl (fun _ _ => rfl)]
    rfl
  | exclusive a b x y =>
    rw [normal, unionInOrder, members_exclusive]
    cases Record.same a b <;> rfl
  | _ => cases h

theorem isUnion_normal {s : Schema} (h : s.isUnion = false) : s.normal.isUnion = false := by
  cases s <;> first | rfl | cases h

/-- The order in which the members of a union are taken makes no difference. -/
theorem normal_same_unionOf {s : Schema} (hu : s.isUnion = true) (h : s.WellFormed) :
    s.normal.same (unionOf (s.members.map normal)) = true := by
  have hflat : ∀ m ∈ s.members, m.normal.isUnion = false := fun m hm =>
    isUnion_normal (h.of_mem_members hm).1
  rw [normal_of_isUnion hu]
  refine unionOf_same (List.forall_mem_map.2 fun m hm => hflat m (mem_inOrder.1 hm))
    (List.forall_mem_map.2 hflat) (fun n hn => ⟨n, ?_, same_refl n⟩)
    fun n hn => ⟨n, ?_, same_refl n⟩
  · exact ((inOrder_perm s.members).map normal).mem_iff.1 hn
  · exact ((inOrder_perm s.members).map normal).mem_iff.2 hn

theorem normal_record (r : Record) :
    (Schema.record r).normal = .record (r.map fun f => { f with shape := f.shape.normal }) := by
  rw [normal, Field.normalAll_eq_map]

/-! ## What normal schemas are like -/

theorem names_normal (r : Record) :
    Record.names (r.map fun f => { f with shape := f.shape.normal }) = r.names := by
  rw [Record.names, List.map_map]
  rfl

theorem wellFormed_normal {s : Schema} (h : s.WellFormed) : s.normal.WellFormed := by
  induction s using Schema.induction with
  | primitive k => exact h
  | opaqueLeaf k n => exact h
  | sequence e r ih => exact wellFormed_sequence.2 (ih (wellFormed_sequence.1 h))
  | union ms ih =>
    rw [normal_of_isUnion rfl]
    refine wellFormed_unionOf (List.forall_mem_map.2 fun m hm => ?_)
    have hm' : m ∈ ms := mem_inOrder.1 hm
    exact ih m hm' ((wellFormed_union.1 h).2 m hm')
  | record fs ih =>
    obtain ⟨hn, hfs⟩ := wellFormed_record.1 h
    rw [normal_record]
    refine wellFormed_record.2 ⟨names_normal fs ▸ hn, List.forall_mem_map.2 fun f hf => ?_⟩
    exact ih f hf (hfs f hf)
  | exclusive a b x y iha ihb =>
    obtain ⟨ha, hb⟩ := wellFormed_exclusive.1 h
    rw [normal_of_isUnion rfl]
    refine wellFormed_unionOf (List.forall_mem_map.2 fun m hm => ?_)
    obtain rfl | rfl := eq_or_eq_of_mem_members (mem_inOrder.1 hm)
    · exact iha ha
    · exact ihb hb

theorem isPlain_normal (s : Schema) : s.normal.IsPlain := by
  induction s using Schema.induction with
  | primitive k => simp [normal, IsPlain, NodePlain]
  | opaqueLeaf k n => simp [normal, IsPlain, NodePlain]
  | sequence e r ih => exact isPlain_sequence.2 ih
  | union ms ih =>
    rw [normal_of_isUnion rfl]
    exact isPlain_unionOf (List.forall_mem_map.2 fun m hm => ih m (mem_inOrder.1 hm))
  | record fs ih =>
    rw [normal_record]
    exact isPlain_record.2 (List.forall_mem_map.2 fun f hf => ih f hf)
  | exclusive a b x y iha ihb =>
    rw [normal_of_isUnion rfl]
    refine isPlain_unionOf (List.forall_mem_map.2 fun m hm => ?_)
    obtain rfl | rfl := eq_or_eq_of_mem_members (mem_inOrder.1 hm)
    · exact iha
    · exact ihb

/-! ## Which schemas are the same as their normal forms -/

theorem normal_same_of_isPlain {s : Schema} (h : s.WellFormed) (hp : s.IsPlain) :
    s.normal.same s = true := by
  induction s using Schema.induction with
  | primitive k => exact same_refl _
  | opaqueLeaf k n => exact same_refl _
  | sequence e r ih =>
    have he := ih (wellFormed_sequence.1 h) (isPlain_sequence.1 hp)
    simp [normal, same, he]
  | union ms ih =>
    obtain ⟨⟨hflat, hu⟩, hms⟩ := wellFormed_union.1 h
    obtain ⟨hl, hps⟩ := isPlain_union.1 hp
    have hsame : ∀ m ∈ inOrder ms, m.normal.same m = true := fun m hm =>
      ih m (mem_inOrder.1 hm) (hms m (mem_inOrder.1 hm)) (hps m (mem_inOrder.1 hm))
    have hsort : Unlike (inOrder ms) :=
      (inOrder_perm ms).symm.pairwise hu fun {s t} hst =>
        Bool.eq_false_iff.2 fun hts => by rw [same_symm hts] at hst; cases hst
    have hd := distinct_eq_self (unlike_map hsame hsort)
    rw [normal_of_isUnion rfl, members]
    have hnflat : ∀ n ∈ (inOrder ms).map normal, n.isUnion = false :=
      List.forall_mem_map.2 fun m hm => isUnion_normal (hflat m (mem_inOrder.1 hm))
    obtain ⟨s, hs, -⟩ | ⟨-, heq⟩ := unionOf_of_flat hnflat
    · -- Members that are kept one by one are as many as before.
      refine absurd ?_ hl
      rw [← (inOrder_perm ms).length_eq, ← List.length_map (f := normal), ← hd, hs]
      rfl
    · rw [heq, hd]
      refine same_union_iff.2 ⟨List.forall_mem_map.2 fun m hm => ?_, fun m hm => ?_⟩
      · exact ⟨m, mem_inOrder.1 hm, hsame m hm⟩
      · exact ⟨_, List.mem_map_of_mem (mem_inOrder.2 hm), hsame m (mem_inOrder.2 hm)⟩
  | record fs ih =>
    obtain ⟨_, hfs⟩ := wellFormed_record.1 h
    have hps := isPlain_record.1 hp
    have hsame : ∀ f ∈ fs, Field.same { f with shape := f.shape.normal } f = true := fun f hf =>
      Field.same_iff.2 ⟨rfl, rfl, ih f hf (hfs f hf) (hps f hf)⟩
    rw [normal_record]
    exact same_record_iff.2 ⟨List.forall_mem_map.2 fun f hf => ⟨f, hf, hsame f hf⟩,
      fun f hf => ⟨_, List.mem_map_of_mem hf, hsame f hf⟩⟩
  | exclusive a b x y _ _ => exact absurd hp not_isPlain_exclusive

theorem normal_same_iff {s : Schema} (h : s.WellFormed) :
    s.normal.same s = true ↔ s.IsPlain :=
  ⟨fun hs => isPlain_of_same hs (wellFormed_normal h) (isPlain_normal s),
    normal_same_of_isPlain h⟩

end Schema

end ShapeAlgebra
