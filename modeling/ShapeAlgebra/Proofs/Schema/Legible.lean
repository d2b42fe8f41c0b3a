import ShapeAlgebra.Proofs.Schema.Readable
import ShapeAlgebra.Proofs.Schema.Reordering

/-!
# Rendered texts tell schemas apart

The text of a readable schema, as it is rendered on one line, is that of no other readable schema,
up to the order of fields and members.

What carries the proof is that a text is told with anything behind it that does not go on with it.
Words, records and alternatives between brackets are told in front of any rest, what is no
alternative in front of all but brackets, and every schema in front of all but brackets and blanks.

Results:

* `Schema.render_union_of_perm`: the order in which members are given does not show.
* `Schema.tells_of_parts`: what is innermost in sequences is told when its parts are.
* `Schema.tells_item`, `Schema.tells_of_items`: from there to sequences and to alternatives.
* `Schema.tells`: every readable schema is told.
* `Schema.same_of_render_eq`: schemas with the same text are the same.
-/

namespace ShapeAlgebra

/-! ## The order of texts -/

namespace Text

theorem before_trans {a b c : Text} (hab : before a b = true) (hbc : before b c = true) :
    before a c = true := by
  rw [before, decide_eq_true_iff] at hab hbc ⊢
  intro hca
  rcases Std.Trichotomous.rel_or_eq_or_rel_swap (r := (· < · : Text → Text → Prop)) (a := a)
    (b := b) with h | rfl | h
  · exact hbc (List.lt_trans hca h)
  · exact hbc hca
  · exact hab h

theorem before_total (a b : Text) : (before a b || before b a) = true := by
  rw [Bool.or_eq_true, before, before, decide_eq_true_iff, decide_eq_true_iff]
  by_cases h : b < a
  · exact .inr (List.lt_asymm h)
  · exact .inl h

theorem before_antisymm {a b : Text} (hab : before a b = true) (hba : before b a = true) :
    a = b := by
  rw [before, decide_eq_true_iff] at hab hba
  exact ((Std.Trichotomous.rel_or_eq_or_rel_swap (r := (· < · : Text → Text → Prop))).resolve_left
    hba).resolve_right hab

end Text

/-- The order in which texts are given does not show when they are sorted. -/
theorem sortTexts_of_perm {ts us : List Text} (h : ts.Perm us) : sortTexts ts = sortTexts us := by
  have hsorted : ∀ ts, (sortTexts ts).Pairwise fun a b => Text.before a b = true :=
    List.pairwise_mergeSort (fun _ _ _ => Text.before_trans) Text.before_total
  have hperm : (sortTexts ts).Perm (sortTexts us) :=
    (sortTexts_perm ts).trans (h.trans (sortTexts_perm us).symm)
  exact hperm.eq_of_pairwise (fun _ _ _ _ => Text.before_antisymm) (hsorted ts) (hsorted us)

namespace Schema

/-! ## Texts in front of others -/

/-- The text of a schema, in front of a rest of a certain kind, is that of no other readable schema
of a certain sort. -/
def Tells (text : Schema → Text) (sort : Schema → Bool) (P : Text → Prop) (s : Schema) : Prop :=
  ∀ t, t.Readable → sort t = false → ∀ u v, P u → P v → text s ++ u = text t ++ v →
    s.same t = true ∧ u = v

/-- A rest that does not begin with a bracket, by which a sequence would go on. -/
def EndsItem (u : Text) : Prop := u.head? ≠ some (.scalar '[')

/-- A rest that moreover does not begin with a blank, by which alternatives would go on. -/
def EndsShape (u : Text) : Prop := EndsItem u ∧ u.head? ≠ some (.scalar ' ')

/-- The text of a schema that is no alternative tells it, if that of what is innermost does. -/
theorem tells_item {s : Schema} (hs : s.Readable) (halt : s.isAlternative = false)
    (h : Tells bracketed isSequence (fun _ => True) s.core) :
    Tells render isAlternative EndsItem s := by
  intro t ht htalt u v hu hv heq
  rw [render_eq_times halt, render_eq_times htalt, List.append_assoc, List.append_assoc,
    List.append_assoc, List.append_assoc] at heq
  obtain ⟨hreadonly, heq⟩ := Text.times_append_inj
    (head?_bracketed hs.core (isSequence_core s) _) (head?_bracketed ht.core (isSequence_core t) _)
    heq
  obtain ⟨hcore, heq⟩ := h t.core ht.core (isSequence_core t) _ _ trivial trivial heq
  obtain ⟨hdepth, huv⟩ := Text.times_append_inj hu hv heq
  exact ⟨same_of_core hs ht hcore hdepth hreadonly, huv⟩

/-! ## Alternatives -/

theorem renderAll_eq_map (ss : List Schema) : renderAll ss = ss.map render := by
  induction ss with
  | nil => rfl
  | cons s ss ih => rw [renderAll, ih, List.map_cons]

theorem renderUnion_of_perm {ts us : List Text} (h : ts.Perm us) :
    renderUnion ts = renderUnion us := by
  rw [renderUnion, renderUnion, sortTexts_of_perm h, h.isEmpty_eq]

/-- The order in which the members of a union are given does not show. -/
theorem render_union_of_perm {ms ns : List Schema} (h : ms.Perm ns) :
    (Schema.union ms).render = (Schema.union ns).render := by
  rw [render, render, renderAll_eq_map, renderAll_eq_map, renderUnion_of_perm (h.map render)]

/-- The schemas whose texts stand beside one another in the text of a schema. -/
def items (s : Schema) : List Schema := if s.isAlternative then inOrder s.members else [s]

theorem exists_union_of_isAlternative {s : Schema} (hs : s.Readable) (h : s.isAlternative = true) :
    ∃ ms, s = .union ms := by
  cases s with
  | union ms => exact ⟨ms, rfl⟩
  | exclusive a b x y => exact absurd hs.plain not_isPlain_exclusive
  | _ => cases h

theorem items_of_not_isAlternative {s : Schema} (h : s.isAlternative = false) : s.items = [s] := by
  rw [items, h]
  rfl

theorem items_union {ms : List Schema} (h : (Schema.union ms).isAlternative = true) :
    (Schema.union ms).items = inOrder ms := by
  rw [items, h]
  rfl

theorem length_items_of_isAlternative {s : Schema} (h : s.isAlternative = true) :
    1 < s.items.length := by
  rw [items, if_pos h, (inOrder_perm s.members).length_eq]
  simp only [isAlternative, Bool.and_eq_true, decide_eq_true_eq] at h
  exact h.2

theorem items_ne_nil (s : Schema) : s.items ≠ [] := by
  cases h : s.isAlternative with
  | false =>
    rw [items_of_not_isAlternative h]
    exact List.cons_ne_nil _ _
  | true => exact List.ne_nil_of_length_pos (Nat.zero_lt_of_lt (length_items_of_isAlternative h))

theorem render_eq_join {s : Schema} (hs : s.Readable) :
    s.render = Text.join " | " (s.items.map render) := by
  cases halt : s.isAlternative with
  | false =>
    rw [items_of_not_isAlternative halt, List.map_singleton, Text.join_singleton]
  | true =>
    obtain ⟨ms, rfl⟩ := exists_union_of_isAlternative hs halt
    have hsort : sortTexts (ms.map render) = (inOrder ms).map render := by
      rw [sortTexts, inOrder, List.map_mergeSort (f := render) fun _ _ _ _ => rfl]
    rw [items_union halt, ← hsort, render, renderAll_eq_map, renderUnion]
    cases ms with
    | nil => cases halt
    | cons m ms => rfl

theorem items_readable {s : Schema} (hs : s.Readable) :
    ∀ x ∈ s.items, x.Readable ∧ x.isAlternative = false := by
  intro x hx
  cases halt : s.isAlternative with
  | false =>
    rw [items_of_not_isAlternative halt] at hx
    obtain rfl := List.mem_singleton.1 hx
    exact ⟨hs, halt⟩
  | true =>
    obtain ⟨ms, rfl⟩ := exists_union_of_isAlternative hs halt
    rw [items_union halt] at hx
    have hm := mem_inOrder.1 hx
    exact ⟨hs.of_mem hm, by rw [isAlternative, hs.isUnion_of_mem hm, Bool.false_and]⟩

/-- Schemas are the same when their items are, one by one. -/
theorem same_of_items {s t : Schema} (hs : s.Readable) (ht : t.Readable)
    (h : List.Forall₂ (fun x y : Schema => x.same y = true) s.items t.items) :
    s.same t = true := by
  have hlength := h.length_eq
  cases hsa : s.isAlternative with
  | false =>
    cases hta : t.isAlternative with
    | false =>
      rw [items_of_not_isAlternative hsa, items_of_not_isAlternative hta] at h
      cases h with
      | cons hst _ => exact hst
    | true =>
      have hlt := length_items_of_isAlternative hta
      rw [← hlength, items_of_not_isAlternative hsa] at hlt
      exact absurd hlt (Nat.lt_irrefl 1)
  | true =>
    cases hta : t.isAlternative with
    | false =>
      have hlt := length_items_of_isAlternative hsa
      rw [hlength, items_of_not_isAlternative hta] at hlt
      exact absurd hlt (Nat.lt_irrefl 1)
    | true =>
      obtain ⟨ms, rfl⟩ := exists_union_of_isAlternative hs hsa
      obtain ⟨ns, rfl⟩ := exists_union_of_isAlternative ht hta
      rw [items_union hsa, items_union hta] at h
      refine same_union_iff.2 ⟨fun m hm => ?_, fun n hn => ?_⟩
      · obtain ⟨n, hn, hmn⟩ := exists_of_forall₂_left h (mem_inOrder.2 hm)
        exact ⟨n, mem_inOrder.1 hn, hmn⟩
      · obtain ⟨m, hm, hmn⟩ := exists_of_forall₂_right h (mem_inOrder.2 hn)
        exact ⟨m, mem_inOrder.1 hm, hmn⟩

/-- The text of a schema tells it if the texts of its items do. -/
theorem tells_of_items {s : Schema} (hs : s.Readable)
    (h : ∀ x ∈ s.items, Tells render isAlternative EndsItem x) :
    Tells render (fun _ => false) EndsShape s := by
  intro t ht _ u v hu hv heq
  rw [render_eq_join hs, render_eq_join ht] at heq
  have hsep : ∀ rest : Text, EndsItem (CodePoint.scalar ' ' :: "| " ++ rest) := by
    intro rest
    simp [EndsItem]
  obtain ⟨hitems, huv⟩ := Text.join_append_inj hsep (items_ne_nil s) (items_ne_nil t)
    (fun x hx y hy u v hu hv heq => h x hx y (items_readable ht y hy).1 (items_readable ht y hy).2
      u v hu hv heq) hu.1 hv.1 hu.2 hv.2 heq
  exact ⟨same_of_items hs ht hitems, huv⟩

end Schema

/-! ## Records -/

theorem Flags.eq_of_parts {a b : Flags} (ho : a.optional = b.optional)
    (hn : a.nullable = b.nullable) (hr : a.readonly = b.readonly) : a = b := by
  obtain ⟨o, n, r⟩ := a
  obtain rfl : o = b.optional := ho
  obtain rfl : n = b.nullable := hn
  obtain rfl : r = b.readonly := hr
  rfl

/-- The text of a field. -/
def Field.text (f : Field) : Text := renderField f.name f.shape.render f.flags f.shape.admitsNull

theorem Field.renderAll_eq_map (fs : List Field) : Field.renderAll fs = fs.map Field.text := by
  induction fs with
  | nil => rfl
  | cons f fs ih =>
    obtain ⟨n, s, flags⟩ := f
    rw [Field.renderAll, ih, List.map_cons]
    rfl

namespace Schema

/-- The mark behind the name of a field. -/
def mark (f : Field) : CodePoint := if f.flags.optional then .scalar '?' else .scalar ':'

theorem mark_mem (f : Field) : mark f ∈ marks ∧ mark f ≠ .scalar ' ' ∧ mark f ≠ .scalar '\x7d' := by
  rw [mark]
  split <;> decide

theorem mark_inj {f g : Field} (h : mark f = mark g) : f.flags.optional = g.flags.optional := by
  rw [mark, mark] at h
  cases hf : f.flags.optional <;> cases hg : g.flags.optional <;> simp_all

/-- The text of a field from its name on. -/
def namedText (f : Field) : Text :=
  f.name ++ mark f :: ((if f.flags.optional then Text.ofString ": " else " ") ++ f.shape.render)

theorem text_eq {f : Field} (hf : f.flags.nullable = false) :
    f.text = (if f.flags.readonly then Text.ofString "readonly " else []) ++ namedText f := by
  rw [Field.text, renderField, namedText, mark, hf]
  cases f.flags.optional <;> cases f.flags.readonly <;> simp [Text.ofString, Text.ofChars]

section

variable {f g : Field} {u v : Text}

theorem namedText_inj (hf : ∀ c ∈ f.name, c ∉ marks) (hg : ∀ c ∈ g.name, c ∉ marks)
    (h : Tells render (fun _ => false) EndsShape f.shape) (hr : g.shape.Readable)
    (hu : EndsShape u) (hv : EndsShape v) (heq : namedText f ++ u = namedText g ++ v) :
    f.name = g.name ∧ f.flags.optional = g.flags.optional ∧ f.shape.same g.shape = true ∧
      u = v := by
  rw [namedText, namedText, List.append_assoc, List.append_assoc, List.cons_append,
    List.cons_append] at heq
  obtain ⟨hname, hmark, hrest⟩ := Text.append_mark_inj hf hg (mark_mem f).1 (mark_mem g).1 heq
  have hoptional := mark_inj hmark
  rw [hoptional, List.append_assoc, List.append_assoc] at hrest
  obtain ⟨hsame, huv⟩ := h g.shape hr rfl u v hu hv (List.append_cancel_left hrest)
  exact ⟨hname, hoptional, hsame, huv⟩

/-- No name begins as what is read-only. -/
theorem readonly_append_ne (hg : ∀ c ∈ g.name, c ∉ marks) (x : Text) :
    Text.ofString "readonly " ++ x ≠ namedText g ++ v := by
  intro heq
  have hsplit : Text.ofString "readonly " ++ x = Text.ofString "readonly" ++ .scalar ' ' :: x := by
    simp [Text.ofString, Text.ofChars]
  rw [hsplit, namedText, List.append_assoc, List.cons_append] at heq
  exact (mark_mem g).2.1
    (Text.append_mark_inj (by decide) hg (by decide) (mark_mem g).1 heq).2.1.symm

/-- The text of a field, in front of what ends a shape, is that of no other field. -/
theorem same_of_text (hf : f.flags.nullable = false ∧ ∀ c ∈ f.name, c ∉ marks)
    (hg : g.flags.nullable = false ∧ ∀ c ∈ g.name, c ∉ marks)
    (h : Tells render (fun _ => false) EndsShape f.shape) (hr : g.shape.Readable)
    (hu : EndsShape u) (hv : EndsShape v) (heq : f.text ++ u = g.text ++ v) :
    f.same g = true ∧ u = v := by
  rw [text_eq hf.1, text_eq hg.1, List.append_assoc, List.append_assoc] at heq
  have hreadonly : f.flags.readonly = g.flags.readonly := by
    cases hfr : f.flags.readonly with
    | false =>
      cases hgr : g.flags.readonly with
      | false => rfl
      | true =>
        rw [hfr, hgr] at heq
        exact absurd heq.symm (readonly_append_ne hf.2 _)
    | true =>
      cases hgr : g.flags.readonly with
      | false =>
        rw [hfr, hgr] at heq
        exact absurd heq (readonly_append_ne hg.2 _)
      | true => rfl
  rw [hreadonly] at heq
  obtain ⟨hname, hoptional, hsame, huv⟩ :=
    namedText_inj hf.2 hg.2 h hr hu hv (List.append_cancel_left heq)
  have hflags := Flags.eq_of_parts hoptional (hf.1.trans hg.1.symm) hreadonly
  exact ⟨Field.same_iff.2 ⟨hname, hflags, hsame⟩, huv⟩

theorem head?_text (hf : f.flags.nullable = false ∧ ∀ c ∈ f.name, c ∉ marks) (u : Text) :
    (f.text ++ u).head? ≠ some (.scalar '\x7d') := by
  rw [text_eq hf.1]
  cases f.flags.readonly with
  | true => exact fun h => by cases h
  | false =>
    rw [if_neg Bool.false_ne_true, List.nil_append, namedText]
    cases hn : f.name with
    | nil => exact fun h => (mark_mem f).2.2 (Option.some.inj h)
    | cons c n =>
      intro h
      have hc : c ∉ marks := hf.2 c (hn ▸ List.mem_cons_self ..)
      exact hc (Option.some.inj h ▸ by decide)

end

/-- A record with fields does not end where it begins. -/
theorem join_append_ne {fs : Record} (hf : (Schema.record fs).Readable) (hne : fs ≠ [])
    (u v : Text) : Text.join ", " (fs.map Field.text) ++ u ≠ .scalar '\x7d' :: v := by
  cases fs with
  | nil => exact absurd rfl hne
  | cons f fs =>
    obtain ⟨rest, hrest⟩ := Text.exists_join_cons ", " f.text (fs.map Field.text)
    rw [List.map_cons, hrest, List.append_assoc]
    intro heq
    exact head?_text (hf.field (List.mem_cons_self ..)) _ (congrArg List.head? heq)

/-- The text of a record tells it if those of the shapes of its fields do. -/
theorem bracketed_record_inj {fs gs : Record} (hf : (Schema.record fs).Readable)
    (hg : (Schema.record gs).Readable)
    (h : ∀ f ∈ fs, Tells render (fun _ => false) EndsShape f.shape) {u v : Text}
    (heq : (Schema.record fs).bracketed ++ u = (Schema.record gs).bracketed ++ v) :
    (Schema.record fs).same (.record gs) = true ∧ u = v := by
  rw [bracketed_record, bracketed_record, Field.renderAll_eq_map, Field.renderAll_eq_map,
    List.cons_append, List.cons_append, List.append_assoc, List.append_assoc] at heq
  have heq := (List.cons.inj heq).2
  have hend : ∀ rest : Text, EndsShape (.scalar '\x7d' :: rest) := by
    intro rest
    simp [EndsShape, EndsItem]
  cases fs with
  | nil =>
    cases gs with
    | nil => exact ⟨same_refl _, (List.cons.inj heq).2⟩
    | cons g gs => exact absurd heq.symm (join_append_ne hg (List.cons_ne_nil _ _) _ _)
  | cons f fs =>
    cases gs with
    | nil => exact absurd heq (join_append_ne hf (List.cons_ne_nil _ _) _ _)
    | cons g gs =>
      have hsep : ∀ rest : Text, EndsShape (CodePoint.scalar ',' :: " " ++ rest) := by
        intro rest
        simp [EndsShape, EndsItem]
      obtain ⟨hfields, huv⟩ := Text.join_append_inj hsep (List.cons_ne_nil f fs)
        (List.cons_ne_nil g gs) (fun f hfs g hgs u v hu hv heq => same_of_text (hf.field hfs)
          (hg.field hgs) (h f hfs) (hg.shape hgs) hu hv heq) (hend u) (hend v) (by simp) (by simp)
        heq
      refine ⟨same_record_iff.2 ⟨fun f hfs => ?_, fun g hgs => ?_⟩, (List.cons.inj huv).2⟩
      · exact exists_of_forall₂_left hfields hfs
      · exact exists_of_forall₂_right hfields hgs

/-! ## All schemas -/

section

variable {s t : Schema} {u v : Text}

/-- A word, in front of anything, is that of no other schema. -/
theorem word?_inj {w w' : Text} (hs : s.word? = some w) (ht : t.word? = some w')
    (heq : s.bracketed ++ u = t.bracketed ++ v) : s = t ∧ u = v := by
  rw [bracketed_of_word? hs, bracketed_of_word? ht] at heq
  have hww : w = w' := by
    obtain ⟨x, hx, -⟩ | ⟨x, hx, -⟩ := List.append_eq_append_iff.1 heq
    · exact eq_of_prefix_words w (mem_words hs) w' (mem_words ht)
        (List.isPrefixOf_iff_prefix.2 ⟨x, hx.symm⟩)
    · exact (eq_of_prefix_words w' (mem_words ht) w (mem_words hs)
        (List.isPrefixOf_iff_prefix.2 ⟨x, hx.symm⟩)).symm
  subst hww
  exact ⟨eq_of_word? hs ht, List.append_cancel_left heq⟩

/-- Alternatives between brackets are told if they are told without brackets. -/
theorem bracketed_inj (hs : s.isAlternative = true) (ht : t.isAlternative = true)
    (hr : t.Readable) (h : Tells render (fun _ => false) EndsShape s)
    (heq : s.bracketed ++ u = t.bracketed ++ v) : s.same t = true ∧ u = v := by
  have hend : ∀ rest : Text, EndsShape (.scalar ')' :: rest) := by
    intro rest
    simp [EndsShape, EndsItem]
  rw [bracketed_of_isAlternative hs, bracketed_of_isAlternative ht, List.cons_append,
    List.cons_append, List.append_assoc, List.append_assoc] at heq
  obtain ⟨hsame, huv⟩ := h t hr rfl _ _ (hend u) (hend v) (List.cons.inj heq).2
  exact ⟨hsame, (List.cons.inj huv).2⟩

/-- The text of what is innermost in sequences tells it, if the texts of its parts do. -/
theorem tells_of_parts (hs : s.Readable) (hseq : s.isSequence = false)
    (halternative : s.isAlternative = true → Tells render (fun _ => false) EndsShape s)
    (hrecord : ∀ fs, s = .record fs →
      ∀ f ∈ fs, Tells render (fun _ => false) EndsShape f.shape) :
    Tells bracketed isSequence (fun _ => True) s := by
  intro t ht htseq u v _ _ heq
  have hhead := congrArg List.head? heq
  obtain ⟨w, hw⟩ | hsa | ⟨fs, rfl⟩ := word?_or_isAlternative_or_record hs hseq
  · obtain ⟨w', hw'⟩ | hta | ⟨gs, rfl⟩ := word?_or_isAlternative_or_record ht htseq
    · obtain ⟨rfl, huv⟩ := word?_inj hw hw' heq
      exact ⟨same_refl s, huv⟩
    · rw [bracketed_of_isAlternative hta] at hhead
      exact absurd hhead (head?_of_word? hw u (by decide))
    · exact absurd hhead (head?_of_word? hw u (by decide))
  · obtain ⟨w', hw'⟩ | hta | ⟨gs, rfl⟩ := word?_or_isAlternative_or_record ht htseq
    · rw [bracketed_of_isAlternative hsa] at hhead
      exact absurd hhead.symm (head?_of_word? hw' v (by decide))
    · exact bracketed_inj hsa hta ht (halternative hsa) heq
    · rw [bracketed_of_isAlternative hsa] at hhead
      cases hhead
  · obtain ⟨w', hw'⟩ | hta | ⟨gs, rfl⟩ := word?_or_isAlternative_or_record ht htseq
    · exact absurd hhead.symm (head?_of_word? hw' v (by decide))
    · rw [bracketed_of_isAlternative hta] at hhead
      cases hhead
    · exact bracketed_record_inj hs ht (hrecord fs rfl) heq

/-- A schema that is no alternative is told if what is innermost in it is. -/
theorem tells_of_core (hs : s.Readable) (halt : s.isAlternative = false)
    (h : Tells bracketed isSequence (fun _ => True) s.core) :
    Tells render (fun _ => false) EndsShape s := by
  refine tells_of_items hs fun x hx => ?_
  rw [items_of_not_isAlternative halt] at hx
  obtain rfl := List.mem_singleton.1 hx
  exact tells_item hs halt h

end

/-- What texts tell in front of others: that of what is innermost in a schema, and that of the
schema itself. -/
theorem tells {s : Schema} (hs : s.Readable) :
    Tells bracketed isSequence (fun _ => True) s.core ∧
      Tells render (fun _ => false) EndsShape s := by
  induction s using Schema.induction with
  | primitive k =>
    have hcore := tells_of_parts hs rfl (fun h => by cases h) fun fs h => by cases h
    exact ⟨hcore, tells_of_core hs rfl hcore⟩
  | opaqueLeaf k n =>
    have hcore := tells_of_parts hs rfl (fun h => by cases h) fun fs h => by cases h
    exact ⟨hcore, tells_of_core hs rfl hcore⟩
  | sequence e r ih =>
    have hcore := (ih hs.of_sequence).1
    exact ⟨hcore, tells_of_core hs rfl hcore⟩
  | union ms ih =>
    have halternative : (Schema.union ms).isAlternative = true →
        Tells render (fun _ => false) EndsShape (.union ms) := by
      intro halt
      refine tells_of_items hs fun m hm => ?_
      obtain ⟨hr, hm'⟩ := items_readable hs m hm
      rw [items_union halt] at hm
      exact tells_item hr hm' (ih m (mem_inOrder.1 hm) hr).1
    have hcore := tells_of_parts hs rfl halternative fun fs h => by cases h
    refine ⟨hcore, ?_⟩
    cases halt : (Schema.union ms).isAlternative with
    | false => exact tells_of_core hs halt hcore
    | true => exact halternative halt
  | record fs ih =>
    have hcore : Tells bracketed isSequence (fun _ => True) (.record fs) := by
      refine tells_of_parts hs rfl (fun h => by cases h) fun gs h f hf => ?_
      cases h
      exact (ih f hf (hs.shape hf)).2
    exact ⟨hcore, tells_of_core hs rfl hcore⟩
  | exclusive a b x y _ _ => exact absurd hs.plain not_isPlain_exclusive

/-- Readable schemas with the same text are the same, and no two members of a readable union have
the same text. -/
theorem same_of_render_eq {s : Schema} (hs : s.Readable) :
    (∀ t, t.Readable → s.render = t.render → s.same t = true) ∧
      ∀ ms, s = .union ms → (ms.map render).Nodup := by
  have hsame : ∀ s t : Schema, s.Readable → t.Readable → s.render = t.render →
      s.same t = true := by
    intro s t hs ht heq
    have hend : EndsShape [] := by simp [EndsShape, EndsItem]
    exact ((tells hs).2 t ht rfl [] [] hend hend (congrArg (· ++ []) heq)).1
  refine ⟨fun t => hsame s t hs, ?_⟩
  rintro ms rfl
  refine List.pairwise_map.2 ((wellFormed_union.1 hs.wellFormed).1.2.imp_of_mem ?_)
  intro m n hm hn hmn heq
  rw [hsame m n (hs.of_mem hm) (hs.of_mem hn) heq] at hmn
  cases hmn

/-- Alternatives that are told apart: read-only lists of lists, and a record. -/
def several : List Schema :=
  [.sequence (.sequence (.union [.primitive .string, .primitive .null]) false) true,
    .record [⟨"run", .opaqueLeaf .callable none, { optional := true }⟩,
      ⟨"id", .primitive .number, { readonly := true }⟩]]

theorem readable_several : (Schema.union several).Readable ∧
    (Schema.union several.reverse).Readable := by
  refine ⟨⟨by decide, ?_, by decide, by decide⟩, ⟨by decide, ?_, by decide, by decide⟩⟩ <;>
    simp [IsPlain, NodePlain, several]

theorem same_of_render_eq_several :
    (Schema.union several).Readable ∧ (Schema.union several.reverse).Readable ∧
      (Schema.union several).render = (Schema.union several.reverse).render ∧
      (Schema.union several).same (.union several.reverse) = true ∧
      (several.map render).Nodup := by
  obtain ⟨hs, ht⟩ := readable_several
  have heq := render_union_of_perm (List.reverse_perm several).symm
  obtain ⟨hsame, hnodup⟩ := same_of_render_eq hs
  exact ⟨hs, ht, heq, hsame _ ht heq, hnodup several rfl⟩

/-- A list of lists of texts. -/
def listOfLists (inner outer : Bool) : Schema :=
  .sequence (.sequence (.primitive .string) inner) outer

/-- Which of two lists is read-only, one in the other, is not told. -/
theorem render_listOfLists :
    (∀ inner outer, (listOfLists inner outer).WellFormed ∧ (listOfLists inner outer).IsPlain ∧
      (listOfLists inner outer).Everywhere NodeLegible) ∧
    (listOfLists true false).render = (listOfLists false true).render ∧
    (listOfLists true false).same (listOfLists false true) = false := by
  refine ⟨fun inner outer => ⟨?_, ?_, ?_⟩, rfl, by decide⟩
  · simp [listOfLists, WellFormed, NodeWellFormed]
  · simp [listOfLists, IsPlain, NodePlain]
  · simp [listOfLists, NodeLegible]

end Schema

end ShapeAlgebra
