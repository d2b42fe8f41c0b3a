import ShapeAlgebra.Proofs.Record.Exclusion
import ShapeAlgebra.Proofs.Rule.Composition
import ShapeAlgebra.Proofs.Schema.Hash

/-!
# Derivations respect equality

Equality of schemas forgets the order of fields and of members, while records are lists of fields
and unions are lists of members. No derivation brings that order to light: applied to schemas that
are the same, each gives results that are the same, or fails on both sides for the same reason.

What carries the proofs is that a field is looked up by its name. Records that are the same have the
same key set, and as no name comes twice in them, a look-up finds likes in both.

Results:

* `KeySet.ext`: a key set is determined by its names.
* `Predicate.holds_of_same`: no predicate tells apart schemas that are the same.
* `Record.same_select`, `Record.same_override`, `Record.same_assign`, `Record.same_exclusive`: what
  selections and merges make of records that are the same.
* `Schema.indistinct_of_same`: all derivations together.
-/

namespace ShapeAlgebra

/-- A key set is determined by its names. -/
theorem KeySet.ext {a b : KeySet} (h : ∀ n, n ∈ a ↔ n ∈ b) : a = b := by
  obtain ⟨ms, hms⟩ := a
  obtain ⟨ns, hns⟩ := b
  have nodup : ∀ {l : List Text}, l.Pairwise (· < ·) → l.Nodup := fun hl =>
    hl.imp fun hlt => by rintro rfl; exact List.lt_irrefl _ hlt
  have hperm : ms.Perm ns := (List.perm_ext_iff_of_nodup (nodup hms) (nodup hns)).2 h
  obtain rfl : ms = ns := hperm.eq_of_pairwise
    (fun _ _ _ _ hmn hnm => absurd hnm (List.lt_asymm hmn)) hms hns
  rfl

/-! ## Ending alike -/

/-- Whether two computations end alike: both with results that are related, or both for the same
reason without a result. -/
inductive EndsAlike {ε α β : Type} (R : α → β → Prop) : Except ε α → Except ε β → Prop
  | ok {a : α} {b : β} : R a b → EndsAlike R (.ok a) (.ok b)
  | error (cause : ε) : EndsAlike R (.error cause) (.error cause)

theorem EndsAlike.bind {ε α β γ δ : Type} {R : α → β → Prop} {S : γ → δ → Prop} {x : Except ε α}
    {y : Except ε β} {f : α → Except ε γ} {g : β → Except ε δ} (h : EndsAlike R x y)
    (hfg : ∀ a b, R a b → EndsAlike S (f a) (g b)) : EndsAlike S (x >>= f) (y >>= g) := by
  cases h with
  | ok hab => exact hfg _ _ hab
  | error cause => exact .error cause

theorem EndsAlike.refl {ε α : Type} {R : α → α → Prop} (hR : ∀ a, R a a) (x : Except ε α) :
    EndsAlike R x x := by
  cases x with
  | ok a => exact .ok (hR a)
  | error cause => exact .error cause

/-! ## Predicates -/

namespace Schema

theorem assignable_of_same {s t : Schema} (h : s.same t = true) (kinds : List PrimitiveKind) :
    s.assignable kinds = t.assignable kinds := by
  induction s using Schema.induction generalizing t with
  | primitive k => rw [eq_of_same_primitive h]
  | union ms ih =>
    obtain ⟨ns, rfl, h₁, h₂⟩ := exists_of_same_union h
    rw [Bool.eq_iff_iff, assignable, assignable, allAssignable_iff, allAssignable_iff]
    constructor
    · intro hms n hn
      obtain ⟨m, hm, hmn⟩ := h₂ n hn
      exact ih m hm hmn ▸ hms m hm
    · intro hns m hm
      obtain ⟨n, hn, hmn⟩ := h₁ m hm
      exact (ih m hm hmn).symm ▸ hns n hn
  | _ => cases t <;> simp_all [same, assignable]

end Schema

theorem Classifier.test_of_same (c : Classifier) {s t : Schema} (h : s.same t = true) :
    c.test s = c.test t := by
  cases s with
  | union ms =>
    obtain ⟨ns, rfl, h₁, h₂⟩ := Schema.exists_of_same_union h
    -- Of the tests of unions only the one for the impossible shape looks at members.
    cases ms with
    | nil =>
      cases ns with
      | nil => rfl
      | cons n ns => obtain ⟨m, hm, -⟩ := h₂ n (List.mem_cons_self ..); cases hm
    | cons m ms =>
      cases ns with
      | nil => obtain ⟨n, hn, -⟩ := h₁ m (List.mem_cons_self ..); cases hn
      | cons n ns => cases c <;> rfl
  | _ => cases t <;> cases c <;> simp_all [Schema.same, test, Schema.isUnion]

mutual

theorem Predicate.holds_of_same {s t : Schema} (h : s.same t = true) :
    ∀ p : Predicate, p.holds s = p.holds t
  | .is c => c.test_of_same h
  | .ofKinds kinds => Schema.assignable_of_same h kinds
  | .not p => by simp [Predicate.holds, Predicate.holds_of_same h p]
  | .any ps => by simp [Predicate.holds, Predicate.anyHolds_of_same h ps]

theorem Predicate.anyHolds_of_same {s t : Schema} (h : s.same t = true) :
    ∀ ps : List Predicate, Predicate.anyHolds s ps = Predicate.anyHolds t ps
  | [] => rfl
  | p :: ps => by
    simp [Predicate.anyHolds, Predicate.holds_of_same h p, Predicate.anyHolds_of_same h ps]

end

/-! ## Stripping -/

namespace Schema

theorem exists_same_member {s t m : Schema} (h : s.same t = true) (hm : m ∈ s.members) :
    ∃ n ∈ t.members, m.same n = true := by
  cases s with
  | exclusive a b x y =>
    obtain ⟨c, d, rfl, -⟩ := exists_of_same_exclusive h
    obtain ⟨n, hn, hmn⟩ := exists_same_part h (mem_distinct hm)
    obtain ⟨n', hn', hsame⟩ := exists_same_mem_distinct hn
    exact ⟨n', hn', same_trans hmn hsame⟩
  | union ms =>
    obtain ⟨ns, rfl, -⟩ := exists_of_same_union h
    exact exists_same_part h hm
  | _ =>
    have hflat := isUnion_of_same h
    rw [members_of_isUnion_eq_false (hflat ▸ rfl)]
    obtain rfl := List.mem_singleton.1 hm
    exact ⟨t, List.mem_singleton_self t, h⟩

/-- What is left when anything is taken away is the union of the alternatives that stay. -/
theorem withoutKinds_eq_unionOf (s : Schema) {kinds : List PrimitiveKind}
    (hk : kinds.isEmpty = false) :
    s.withoutKinds kinds = unionOf (s.members.filter fun m => !m.isKind kinds) := by
  rw [withoutKinds, if_neg (by simp [hk])]
  split
  · rfl
  · next hu =>
    have hflat : s.isUnion = false := by simpa using hu
    rw [members_of_isUnion_eq_false hflat]
    split
    · next hs => rw [List.filter_cons_of_neg (by simp [hs])]; rfl
    · next hs =>
      rw [List.filter_cons_of_pos (by simpa using hs), List.filter_nil, unionOf_singleton hflat]

theorem same_withoutKinds {s t : Schema} (hs : s.WellFormed) (ht : t.WellFormed)
    (h : s.same t = true) (kinds : List PrimitiveKind) :
    (s.withoutKinds kinds).same (t.withoutKinds kinds) = true := by
  cases hk : kinds.isEmpty with
  | true => rwa [List.isEmpty_iff.1 hk]
  | false =>
    have keep : ∀ {u v : Schema}, u.same v = true →
        ∀ m ∈ u.members.filter (fun m => !m.isKind kinds),
        ∃ n ∈ v.members.filter (fun m => !m.isKind kinds), m.same n = true := by
      intro u v huv m hm
      obtain ⟨hm, hkind⟩ := List.mem_filter.1 hm
      obtain ⟨n, hn, hmn⟩ := exists_same_member huv hm
      exact ⟨n, List.mem_filter.2 ⟨hn, isKind_of_same hmn kinds ▸ hkind⟩, hmn⟩
    rw [s.withoutKinds_eq_unionOf hk, t.withoutKinds_eq_unionOf hk]
    refine unionOf_same (fun m hm => (hs.of_mem_members (List.mem_filter.1 hm).1).1)
      (fun n hn => (ht.of_mem_members (List.mem_filter.1 hn).1).1) (keep h) fun n hn => ?_
    obtain ⟨m, hm, hnm⟩ := keep (same_symm h) n hn
    exact ⟨m, hm, same_symm hnm⟩

end Schema

/-! ## Records -/

theorem Field.same_symm {f g : Field} (h : f.same g = true) : g.same f = true := by
  obtain ⟨hn, hflags, hs⟩ := Field.same_iff.1 h
  exact Field.same_iff.2 ⟨hn.symm, hflags.symm, Schema.same_symm hs⟩

namespace Record

variable {r t base base' other other' : Record}

/-- Records are the same when each gives likes to the fields of the other. -/
theorem same_of_likes (h₁ : ∀ f ∈ r, ∃ g ∈ t, f.same g = true)
    (h₂ : ∀ g ∈ t, ∃ f ∈ r, g.same f = true) : r.same t = true := by
  refine Record.same_iff.2 ⟨h₁, fun g hg => ?_⟩
  obtain ⟨f, hf, hgf⟩ := h₂ g hg
  exact ⟨f, hf, Field.same_symm hgf⟩

theorem same_symm (h : r.same t = true) : t.same r = true := by
  obtain ⟨h₁, h₂⟩ := Record.same_iff.1 h
  refine same_of_likes (fun g hg => ?_) h₁
  obtain ⟨f, hf, hfg⟩ := h₂ g hg
  exact ⟨f, hf, Field.same_symm hfg⟩

theorem exists_like (h : r.same t = true) {f : Field} (hf : f ∈ r) : ∃ g ∈ t, f.same g = true :=
  (Record.same_iff.1 h).1 f hf

theorem mem_keys_of_same (h : r.same t = true) {n : Text} (hn : n ∈ r.keys) : n ∈ t.keys := by
  obtain ⟨f, hf, rfl⟩ := mem_keys.1 hn
  obtain ⟨g, hg, hfg⟩ := exists_like h hf
  exact mem_keys.2 ⟨g, hg, (Field.same_iff.1 hfg).1.symm⟩

theorem keys_of_same (h : r.same t = true) : r.keys = t.keys :=
  KeySet.ext fun _ => ⟨mem_keys_of_same h, mem_keys_of_same (same_symm h)⟩

theorem keysWhere_of_same (h : r.same t = true) (p : Predicate) :
    r.keysWhere p = t.keysWhere p := by
  have sub : ∀ {u v : Record}, u.same v = true → ∀ n ∈ u.keysWhere p, n ∈ v.keysWhere p := by
    intro u v huv n hn
    obtain ⟨f, hf, rfl⟩ := mem_keys.1 hn
    obtain ⟨hf, hp⟩ := List.mem_filter.1 hf
    obtain ⟨g, hg, hfg⟩ := exists_like huv hf
    obtain ⟨hname, -, hshape⟩ := Field.same_iff.1 hfg
    exact mem_keys.2 ⟨g, List.mem_filter.2 ⟨hg, (p.holds_of_same hshape).symm.trans hp⟩,
      hname.symm⟩
  exact KeySet.ext fun n => ⟨sub h n, sub (same_symm h) n⟩

theorem same_select (h : r.same t = true) (ks : KeySet) :
    (r.select ks).same (t.select ks) = true := by
  have likes : ∀ {u v : Record}, u.same v = true → ∀ f ∈ u.select ks, ∃ g ∈ v.select ks,
      f.same g = true := by
    intro u v huv f hf
    obtain ⟨hf, hn⟩ := mem_select.1 hf
    obtain ⟨g, hg, hfg⟩ := exists_like huv hf
    exact ⟨g, mem_select.2 ⟨hg, (Field.same_iff.1 hfg).1 ▸ hn⟩, hfg⟩
  exact same_of_likes (likes h) (likes (same_symm h))

theorem same_append {u v : Record} (h : r.same t = true) (h' : u.same v = true) :
    Record.same (r ++ u) (t ++ v) = true := by
  have likes : ∀ {r t u v : Record}, r.same t = true → u.same v = true →
      ∀ f ∈ r ++ u, ∃ g ∈ t ++ v, f.same g = true := by
    intro r t u v h h' f hf
    rcases List.mem_append.1 hf with hf | hf
    · obtain ⟨g, hg, hfg⟩ := exists_like h hf
      exact ⟨g, List.mem_append_left _ hg, hfg⟩
    · obtain ⟨g, hg, hfg⟩ := exists_like h' hf
      exact ⟨g, List.mem_append_right _ hg, hfg⟩
  exact same_of_likes (likes h h') (likes (same_symm h) (same_symm h'))

/-! ## Merges -/

/-- A look-up finds likes in records that are the same, since no name comes twice. -/
theorem same_getD_find? (ht : other'.names.Nodup) (h : other.same other' = true)
    {f g : Field} (hfg : f.same g = true) :
    ((other.find? f.name).getD f).same ((other'.find? g.name).getD g) = true := by
  have hname : f.name = g.name := (Field.same_iff.1 hfg).1
  cases ho : other.find? f.name with
  | some k =>
    obtain ⟨hkname, hk⟩ := find?_eq_some ho
    obtain ⟨k', hk', hsame⟩ := exists_like h hk
    have hfound : other'.find? g.name = some k' := (find?_eq_some_iff ht).2
      ⟨hk', (Field.same_iff.1 hsame).1 ▸ hname ▸ hkname⟩
    rw [hfound]
    exact hsame
  | none =>
    have hnone : other'.find? g.name = none := by
      refine List.find?_eq_none.2 fun k' hk' hkn => ?_
      obtain ⟨k, hk, hsame⟩ := exists_like (same_symm h) hk'
      have := List.find?_eq_none.1 ho k hk
      exact this (by simpa [hname, ← (Field.same_iff.1 hsame).1] using hkn)
    rw [hnone]
    exact hfg

theorem same_override (ho : other.names.Nodup) (ho' : other'.names.Nodup)
    (hb : base.same base' = true) (h : other.same other' = true) :
    (base.override other).same (base'.override other') = true := by
  have likes : ∀ {b b' o o' : Record}, o'.names.Nodup → b.same b' = true → o.same o' = true →
      ∀ f ∈ b.override o, ∃ g ∈ b'.override o', f.same g = true := by
    intro b b' o o' ho' hb h f hf
    obtain ⟨k, hk, rfl⟩ := List.mem_map.1 hf
    obtain ⟨g, hg, hkg⟩ := exists_like hb hk
    exact ⟨_, List.mem_map_of_mem hg, same_getD_find? ho' h hkg⟩
  exact same_of_likes (likes ho' hb h) (likes ho (same_symm hb) (same_symm h))

theorem same_assign (ho : other.names.Nodup) (ho' : other'.names.Nodup)
    (hb : base.same base' = true) (h : other.same other' = true) :
    (base.assign other).same (base'.assign other') = true := by
  refine same_append (same_override ho ho' hb h) ?_
  rw [added, added, keys_of_same hb, keys_of_same h]
  exact same_select h _

theorem same_blocked (h : other.same other' = true) (ks : KeySet) :
    (other.blocked ks).same (other'.blocked ks) = true := by
  have likes : ∀ {o o' : Record}, o.same o' = true → ∀ f ∈ o.blocked ks, ∃ g ∈ o'.blocked ks,
      f.same g = true := by
    intro o o' h f hf
    obtain ⟨k, hk, rfl⟩ := List.mem_map.1 hf
    obtain ⟨g, hg, hkg⟩ := exists_like (same_select h ks) hk
    exact ⟨_, List.mem_map_of_mem hg, Field.same_iff.2 ⟨(Field.same_iff.1 hkg).1, rfl,
      Schema.same_refl _⟩⟩
  exact same_of_likes (likes h) (likes (same_symm h))

theorem same_exclusive (hb : base.same base' = true) (h : other.same other' = true) :
    (base.exclusive other).same (base'.exclusive other') = true := by
  rw [exclusive, exclusive, keys_of_same hb, keys_of_same h]
  exact Schema.same_exclusive_iff.2 ⟨same_append hb (same_blocked h _),
    same_append h (same_blocked hb _), rfl, rfl⟩

theorem accepts_of_same (h : r.same t = true) (names : KeySet) :
    r.accepts names = t.accepts names := by
  rw [Bool.eq_iff_iff, accepts_iff_admits, accepts_iff_admits]
  exact ⟨fun hr => hr.of_same h, fun ht => ht.of_same (same_symm h)⟩

end Record

/-! ## Key sources -/

/-- Whether two key sources are schemas that are the same, or the same data. -/
inductive KeySource.Same : KeySource → KeySource → Prop
  | schema {s t : Schema} : s.same t = true → KeySource.Same (.schema s) (.schema t)
  | data (d : Data) : KeySource.Same (.data d) (.data d)

namespace KeySource

theorem Same.keySet_eq {x y : KeySource} (h : x.Same y) : x.keySet = y.keySet := by
  cases h with
  | data d => rfl
  | @schema s t h =>
    cases s with
    | record r =>
      obtain ⟨r', rfl, h₁, h₂⟩ := Schema.exists_of_same_record h
      rw [keySet_record, keySet_record, Record.keys_of_same (Record.same_iff.2 ⟨h₁, h₂⟩)]
    | _ => cases t <;> first | rfl | simp [Schema.same] at h

end KeySource

/-! ## Variants -/

namespace Variants

/-- Whether the variants of two exclusive unions are the same. -/
structure Same (v w : Variants) : Prop where
  first : v.first.same w.first = true
  second : v.second.same w.second = true
  firstOnly : v.firstOnly = w.firstOnly
  secondOnly : v.secondOnly = w.secondOnly

theorem exists_of_same {s t : Schema} (h : s.same t = true) {v : Variants}
    (hv : ofSchema? s = some v) : ∃ w, ofSchema? t = some w ∧ v.Same w := by
  cases s with
  | exclusive a b x y =>
    cases t with
    | exclusive c d u z =>
      cases hv
      obtain ⟨ha, hb, hx, hy⟩ := Schema.same_exclusive_iff.1 h
      exact ⟨_, rfl, ha, hb, hx, hy⟩
    | _ => simp [Schema.same] at h
  | _ => cases hv

variable {v w : Variants}

theorem Same.accepting (h : v.Same w) (names : KeySet) :
    List.Forall₂ (fun r t : Record => r.same t = true) (v.accepting names) (w.accepting names) := by
  rw [Variants.accepting, Variants.accepting, toList, toList]
  have h₁ := Record.accepts_of_same h.first names
  have h₂ := Record.accepts_of_same h.second names
  cases ha : w.first.accepts names <;> cases hb : w.second.accepts names <;>
    simp [h₁, h₂, ha, hb, h.first, h.second]

theorem Same.choose (h : v.Same w) (names : KeySet) :
    EndsAlike (fun r t : Record => r.same t = true) (v.choose names) (w.choose names) := by
  have hacc := h.accepting names
  rw [Variants.choose, Variants.choose, h.firstOnly, h.secondOnly]
  split
  · exact .error _
  · cases hv : v.accepting names with
    | nil =>
      rw [hv, List.forall₂_nil_left_iff] at hacc
      rw [hacc]
      exact .error _
    | cons r rs =>
      rw [hv] at hacc
      obtain ⟨t, ts, hrt, -, hw⟩ := List.forall₂_cons_left_iff.1 hacc
      rw [hw]
      exact .ok hrt

end Variants

/-! ## All derivations -/

namespace Schema

/-- What each derivation makes of `a` and `b` is the same as what it makes of `a'` and `b'`. -/
structure Indistinct (a b a' b' : Schema) : Prop where
  keySet : (KeySource.schema a).keySet = (KeySource.schema a').keySet
  keysByValue (p : Predicate) : a.keysByValue p = a'.keysByValue p
  withoutKinds (kinds : List PrimitiveKind) :
    (a.withoutKinds kinds).same (a'.withoutKinds kinds) = true
  deep (r : Rule) : (a.deep r).same (a'.deep r) = true
  pickByKey {ns ns' : KeySource} : ns.Same ns' →
    EndsAlike (fun r t => Record.same r t = true) (a.pickByKey ns) (a'.pickByKey ns')
  omitByKey {ns ns' : KeySource} : ns.Same ns' →
    EndsAlike (fun r t => Record.same r t = true) (a.omitByKey ns) (a'.omitByKey ns')
  pickByValue (p : Predicate) :
    EndsAlike (fun r t => Record.same r t = true) (a.pickByValue p) (a'.pickByValue p)
  omitByValue (p : Predicate) :
    EndsAlike (fun r t => Record.same r t = true) (a.omitByValue p) (a'.omitByValue p)
  objectIntersect {ns ns' : KeySource} : ns.Same ns' →
    EndsAlike (fun r t => Record.same r t = true) (a.objectIntersect ns) (a'.objectIntersect ns')
  objectSubtract {ns ns' : KeySource} : ns.Same ns' →
    EndsAlike (fun r t => Record.same r t = true) (a.objectSubtract ns) (a'.objectSubtract ns')
  objectComplement {ns ns' : KeySource} : ns.Same ns' →
    EndsAlike (fun r t => Record.same r t = true) (a.objectComplement ns) (a'.objectComplement ns')
  mergeOverride :
    EndsAlike (fun r t => Record.same r t = true) (a.mergeOverride b) (a'.mergeOverride b')
  merge : EndsAlike (fun r t => Record.same r t = true) (a.merge b) (a'.merge b')
  mergeExclusive : EndsAlike (fun s t => Schema.same s t = true) (a.mergeExclusive b)
    (a'.mergeExclusive b')
  /-- If the first is an exclusive union, so is the other, and a value conforms to variants of both
  that are the same. -/
  variants {v : Variants} : Variants.ofSchema? a = some v → ∃ w, Variants.ofSchema? a' = some w ∧
    ∀ {ns ns' : KeySource}, ns.Same ns' →
      EndsAlike (List.Forall₂ fun r t => Record.same r t = true) (v.conforming ns)
        (w.conforming ns') ∧
      EndsAlike (fun r t => Record.same r t = true) (v.select ns) (w.select ns')

section

variable {a a' b b' : Schema}

/-- An operation on records is applied to both, or refuses both in the same words. -/
theorem endsAlike_requireRecord (h : a.same a' = true) (operation : RecordOperation) :
    EndsAlike (fun r t => a = .record r ∧ a' = .record t ∧ Record.same r t = true)
      (a.requireRecord operation) (a'.requireRecord operation) := by
  cases a with
  | record r =>
    obtain ⟨r', rfl, h₁, h₂⟩ := exists_of_same_record h
    exact .ok ⟨rfl, rfl, Record.same_iff.2 ⟨h₁, h₂⟩⟩
  | _ => cases a' <;> first | exact .error _ | simp [same] at h

/-- A selection that keeps the same names of records that are the same. -/
theorem endsAlike_select (h : a.same a' = true) (operation : RecordOperation)
    (keep keep' : Record → Except Failure KeySet)
    (hkeep : ∀ r t : Record, r.same t = true → keep r = keep' t) :
    EndsAlike (fun r t => Record.same r t = true)
      (do let r ← a.requireRecord operation; let ks ← keep r; return r.select ks)
      (do let r ← a'.requireRecord operation; let ks ← keep' r; return r.select ks) := by
  refine (endsAlike_requireRecord h operation).bind fun r t ⟨_, _, hrt⟩ => ?_
  rw [hkeep r t hrt]
  exact (EndsAlike.refl (R := Eq) (fun _ => rfl) (keep' t)).bind fun ks _ hks =>
    hks ▸ .ok (Record.same_select hrt ks)

theorem endsAlike_requireRecords (ha : a.same a' = true) (hb : b.same b' = true)
    (hwb : b.WellFormed) (hwb' : b'.WellFormed) (operation : RecordOperation) :
    EndsAlike (fun p q => Record.same p.1 q.1 = true ∧ Record.same p.2 q.2 = true ∧
        p.2.names.Nodup ∧ q.2.names.Nodup)
      (requireRecords operation a b) (requireRecords operation a' b') :=
  (endsAlike_requireRecord ha operation).bind fun _ _ ⟨_, _, hr⟩ =>
    (endsAlike_requireRecord hb operation).bind fun _ _ ⟨hb, hb', ht⟩ =>
      .ok ⟨hr, ht, (wellFormed_record.1 (hb ▸ hwb)).1, (wellFormed_record.1 (hb' ▸ hwb')).1⟩

theorem endsAlike_pickByKey (h : a.same a' = true) {ns ns' : KeySource} (hns : ns.Same ns') :
    EndsAlike (fun r t => Record.same r t = true) (a.pickByKey ns) (a'.pickByKey ns') := by
  rw [pickByKey, pickByKey, hns.keySet_eq]
  refine (endsAlike_requireRecord h _).bind fun r t hrt => ?_
  obtain ⟨-, -, hrt⟩ := hrt
  refine (EndsAlike.refl (R := Eq) (fun _ => rfl) ns'.keySet).bind fun wanted _ hw => ?_
  subst hw
  rw [Record.keys_of_same hrt]
  dsimp only
  split
  · exact .ok (Record.same_select hrt wanted)
  · exact .error _

/-- A key-set operation on a record and a key source. -/
theorem keySet_operation_eq {r t : Record} (hrt : r.same t = true) {ns ns' : KeySource}
    (hns : ns.Same ns') :
    KeySource.intersect (.schema (.record r)) ns = KeySource.intersect (.schema (.record t)) ns' ∧
    KeySource.subtract (.schema (.record r)) ns = KeySource.subtract (.schema (.record t)) ns' ∧
    KeySource.complement (.schema (.record r)) ns =
      KeySource.complement (.schema (.record t)) ns' := by
  simp only [KeySource.intersect, KeySource.subtract, KeySource.complement,
    KeySource.keySet_record, Record.keys_of_same hrt, hns.keySet_eq, and_self]

/-- No derivation tells apart schemas that are the same. -/
theorem indistinct_of_same (ha : a.WellFormed) (ha' : a'.WellFormed) (hb : b.WellFormed)
    (hb' : b'.WellFormed) (haa : a.same a' = true) (hbb : b.same b' = true) :
    Indistinct a b a' b' where
  keySet := (KeySource.Same.schema haa).keySet_eq
  keysByValue p := by
    cases a with
    | record r =>
      obtain ⟨r', rfl, h₁, h₂⟩ := exists_of_same_record haa
      exact congrArg Except.ok (Record.keysWhere_of_same (Record.same_iff.2 ⟨h₁, h₂⟩) p)
    | _ => cases a' <;> first | rfl | simp [same] at haa
  withoutKinds := same_withoutKinds ha ha' haa
  deep r := r.behavior.same_transform ha ha' haa false
  pickByKey := endsAlike_pickByKey haa
  omitByKey {ns ns'} hns := by
    refine (endsAlike_requireRecord haa _).bind fun r t ⟨_, _, hrt⟩ => ?_
    rw [hns.keySet_eq, Record.keys_of_same hrt]
    exact (EndsAlike.refl (R := Eq) (fun _ => rfl) ns'.keySet).bind fun ks _ hks =>
      hks ▸ .ok (Record.same_select hrt _)
  pickByValue p := endsAlike_select haa _ (fun r => .ok (r.keysWhere p))
    (fun r => .ok (r.keysWhere p)) fun r t hrt =>
      congrArg Except.ok (Record.keysWhere_of_same hrt p)
  omitByValue p := endsAlike_select haa _ (fun r => .ok (r.keys.sdiff (r.keysWhere p)))
    (fun r => .ok (r.keys.sdiff (r.keysWhere p))) fun r t hrt => by
      rw [Record.keysWhere_of_same hrt p, Record.keys_of_same hrt]
  objectIntersect hns := endsAlike_select haa _ _ _ fun r t hrt => (keySet_operation_eq hrt hns).1
  objectSubtract hns := endsAlike_select haa _ _ _ fun r t hrt => (keySet_operation_eq hrt hns).2.1
  objectComplement hns := endsAlike_select haa _ _ _ fun r t hrt =>
    (keySet_operation_eq hrt hns).2.2
  mergeOverride := (endsAlike_requireRecords haa hbb hb hb' _).bind fun _ _ ⟨hr, ht, hn, hn'⟩ =>
    .ok (Record.same_override hn hn' hr ht)
  merge := (endsAlike_requireRecords haa hbb hb hb' _).bind fun _ _ ⟨hr, ht, hn, hn'⟩ =>
    .ok (Record.same_assign hn hn' hr ht)
  mergeExclusive := (endsAlike_requireRecords haa hbb hb hb' _).bind fun _ _ ⟨hr, ht, _⟩ =>
    .ok (Record.same_exclusive hr ht)
  variants hv := by
    obtain ⟨w, hw, hvw⟩ := Variants.exists_of_same haa hv
    refine ⟨w, hw, fun {ns ns'} hns => ?_⟩
    rw [Variants.conforming, Variants.conforming, Variants.select, Variants.select, hns.keySet_eq]
    have hnames := EndsAlike.refl (R := Eq) (fun _ => rfl) ns'.keySet
    exact ⟨hnames.bind fun names _ hn => hn ▸ .ok (hvw.accepting names),
      hnames.bind fun names _ hn => hn ▸ hvw.choose names⟩

end

/-- A record that overrides a part of `contact` and adds to it. -/
def contactChange : Schema := .record [
  ⟨"reach", .union [.primitive .string, .primitive .null], {}⟩,
  ⟨"since", .record [⟨"year", .primitive .number, {}⟩, ⟨"day", .primitive .null, {}⟩], {}⟩]

/-- The same record in another order. -/
def contactChangeReordered : Schema := .record [
  ⟨"since", .record [⟨"day", .primitive .null, {}⟩, ⟨"year", .primitive .number, {}⟩], {}⟩,
  ⟨"reach", .union [.primitive .null, .primitive .string], {}⟩]

theorem indistinct_of_same_contact : contact.WellFormed ∧ contactReordered.WellFormed ∧
    contactChange.WellFormed ∧ contactChangeReordered.WellFormed ∧
    contact.same contactReordered = true ∧ contactChange.same contactChangeReordered = true ∧
    Indistinct contact contactChange contactReordered contactChangeReordered :=
  ⟨by decide, by decide, by decide, by decide, by decide, by decide,
    indistinct_of_same (by decide) (by decide) (by decide) (by decide) (by decide) (by decide)⟩

end Schema

end ShapeAlgebra
