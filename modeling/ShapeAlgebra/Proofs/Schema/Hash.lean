import Mathlib.Data.List.Nodup
import ShapeAlgebra.Schema.Hash
import ShapeAlgebra.Proofs.Schema.Reordering

/-!
# Equality and hashes

A collection that is hashed works only if schemas that are the same have the same hash, and if
finding a schema by look-up comes to the same as comparing it. Both hold whatever the hashes of
leaves are and however hashes are joined, as long as the order of a set makes no difference: the
fields of records, and the members of unions, that are the same can be paired off.

Results:

* `Schema.looksLike_eq_same`: comparison by look-up is equality up to order.
* `Hashing.hash_eq_of_same`: schemas that are the same have the same hash.
* `Schema.same_laws`: equality is an equivalence that ignores order and nothing else, and it agrees
  with look-up and with hashes.
-/

namespace ShapeAlgebra

/-! ## Comparison by look-up -/

theorem Record.find?_eq_some_iff {r : Record} (h : r.names.Nodup) {n : Text} {g : Field} :
    r.find? n = some g ↔ g ∈ r ∧ g.name = n := by
  refine ⟨fun hg => (find?_eq_some hg).symm, ?_⟩
  rintro ⟨hg, rfl⟩
  cases hf : r.find? g.name with
  | none => exact absurd (beq_self_eq_true g.name) (List.find?_eq_none.1 hf g hg)
  | some f =>
    obtain ⟨hname, hf⟩ := find?_eq_some hf
    exact congrArg some (List.inj_on_of_nodup_map h hf hg hname)

namespace Schema

theorem allFound_iff {ss ts : List Schema} :
    allFound ss ts = true ↔ ∀ s ∈ ss, ∃ t ∈ ts, s.looksLike t = true := by
  induction ss with
  | nil => simp [allFound]
  | cons s ss ih => simp [allFound, ih]

end Schema

theorem Field.isFound_iff {f : Field} {r : Record} : f.isFound r = true ↔
    ∃ g, r.find? f.name = some g ∧ f.flags = g.flags ∧ f.shape.looksLike g.shape = true := by
  obtain ⟨n, s, flags⟩ := f
  rw [Field.isFound]
  cases r.find? n <;> simp

theorem Field.allFound_iff {fs : List Field} {r : Record} :
    Field.allFound fs r = true ↔ ∀ f ∈ fs, f.isFound r = true := by
  induction fs with
  | nil => simp [Field.allFound]
  | cons f fs ih => simp [Field.allFound, ih]

namespace Schema

/-- Unions of as many members are the same when each member of the first has its like. -/
theorem same_union_iff_of_length {ms ns : List Schema} (hm : (Schema.union ms).WellFormed)
    (hn : (Schema.union ns).WellFormed) : (Schema.union ms).same (.union ns) = true ↔
      ms.length = ns.length ∧ ∀ m ∈ ms, ∃ n ∈ ns, m.same n = true := by
  constructor
  · intro h
    obtain ⟨paired, hpaired, hperm⟩ := exists_pairing_members hm hn h
    exact ⟨hpaired.length_eq.trans hperm.length_eq, (same_union_iff.1 h).1⟩
  · rintro ⟨hl, h⟩
    obtain ⟨paired, hpaired, hperm⟩ :=
      exists_pairing_of_length h (wellFormed_union.1 hm).1.2.noShared (Nat.le_of_eq hl.symm)
    exact same_union_iff.2 ⟨h, fun n hn =>
      exists_of_forall₂_right hpaired (hperm.mem_iff.2 hn)⟩

/-- Records of as many fields are the same when each field of the first has its like. -/
theorem same_record_iff_of_length {r t : Record} (hr : (Schema.record r).WellFormed)
    (ht : (Schema.record t).WellFormed) : (Schema.record r).same (.record t) = true ↔
      r.length = t.length ∧ ∀ f ∈ r, ∃ g ∈ t, f.same g = true := by
  constructor
  · intro h
    obtain ⟨paired, hpaired, hperm⟩ := exists_pairing_fields hr ht h
    exact ⟨hpaired.length_eq.trans hperm.length_eq, (same_record_iff.1 h).1⟩
  · rintro ⟨hl, h⟩
    obtain ⟨paired, hpaired, hperm⟩ :=
      exists_pairing_of_length h (Record.noShared_of_nodup (wellFormed_record.1 hr).1)
        (Nat.le_of_eq hl.symm)
    exact same_record_iff.2 ⟨h, fun g hg =>
      exists_of_forall₂_right hpaired (hperm.mem_iff.2 hg)⟩

theorem looksLike_union_iff {ms ns : List Schema} : (Schema.union ms).looksLike (.union ns) = true ↔
    ms.length = ns.length ∧ ∀ m ∈ ms, ∃ n ∈ ns, m.looksLike n = true := by
  simp [looksLike, allFound_iff]

theorem looksLike_record_iff {r t : Record} : (Schema.record r).looksLike (.record t) = true ↔
    r.length = t.length ∧ ∀ f ∈ r, f.isFound t = true := by
  simp [looksLike, Field.allFound_iff]

theorem looksLike_exclusive_iff {a b c d : Record} {x y u v : KeySet} :
    (Schema.exclusive a b x y).looksLike (.exclusive c d u v) = true ↔
      (Schema.record a).looksLike (.record c) = true ∧
        (Schema.record b).looksLike (.record d) = true ∧ x = u ∧ y = v := by
  simp [looksLike, and_assoc]

theorem looksLike_iff_same {s t : Schema} (hs : s.WellFormed) (ht : t.WellFormed) :
    s.looksLike t = true ↔ s.same t = true := by
  induction s using Schema.induction generalizing t with
  | primitive k => cases t <;> simp [looksLike, same]
  | opaqueLeaf k n => cases t <;> simp [looksLike, same]
  | sequence e r ih =>
    cases t with
    | sequence e' r' =>
      simp [looksLike, same, ih (wellFormed_sequence.1 hs) (wellFormed_sequence.1 ht)]
    | _ => simp [looksLike, same]
  | union ms ih =>
    cases t with
    | union ns =>
      have hlike : ∀ m ∈ ms, ∀ n ∈ ns, (m.looksLike n = true ↔ m.same n = true) :=
        fun m hm n hn => ih m hm ((wellFormed_union.1 hs).2 m hm) ((wellFormed_union.1 ht).2 n hn)
      rw [looksLike_union_iff, same_union_iff_of_length hs ht]
      refine and_congr_right fun _ => forall₂_congr fun m hm => exists_congr fun n => ?_
      exact and_congr_right fun hn => hlike m hm n hn
    | _ => simp [looksLike, same]
  | record fs ih =>
    cases t with
    | record gs =>
      obtain ⟨hnames, hgs⟩ := wellFormed_record.1 ht
      rw [looksLike_record_iff, same_record_iff_of_length hs ht]
      refine and_congr_right fun _ => forall₂_congr fun f hf => ?_
      rw [Field.isFound_iff]
      refine exists_congr fun g => ?_
      -- The field of a name is the only one that can be the like of a field of that name.
      rw [Record.find?_eq_some_iff hnames, Field.same_iff, and_assoc]
      refine and_congr_right fun hg => ?_
      rw [ih f hf ((wellFormed_record.1 hs).2 f hf) (hgs g hg), eq_comm]
    | _ => simp [looksLike, same]
  | exclusive a b x y iha ihb =>
    cases t with
    | exclusive c d u v =>
      obtain ⟨hwa, hwb⟩ := wellFormed_exclusive.1 hs
      obtain ⟨hwc, hwd⟩ := wellFormed_exclusive.1 ht
      rw [looksLike_exclusive_iff, iha hwa hwc, ihb hwb hwd, same_exclusive_iff]
      rfl
    | _ => simp [looksLike, same]

theorem same_congr {s s' t t' : Schema} (hs : s.same s' = true) (ht : t.same t' = true) :
    s.same t = s'.same t' :=
  Bool.eq_iff_iff.2
    ⟨fun h => same_trans (same_trans (same_symm hs) h) ht,
      fun h => same_trans (same_trans hs h) (same_symm ht)⟩

theorem looksLike_eq_same {s t : Schema} (hs : s.WellFormed) (ht : t.WellFormed) :
    s.looksLike t = s.same t :=
  Bool.eq_iff_iff.2 (looksLike_iff_same hs ht)

end Schema

/-! ## Hashes -/

namespace Hashing

variable {H : Type} (h : Hashing H)

theorem hashAll_eq_map (ss : List Schema) : h.hashAll ss = ss.map h.hash := by
  induction ss with
  | nil => rfl
  | cons s ss ih => rw [hashAll, ih, List.map_cons]

/-- The hash of a name with its field. -/
def hashField (f : Field) : H :=
  h.tuple [h.leaf (.text f.name), h.tuple [h.hash f.shape, h.leaf (.bool f.flags.optional),
    h.leaf (.bool f.flags.nullable), h.leaf (.bool f.flags.readonly)]]

theorem hashFields_eq_map (fs : List Field) : h.hashFields fs = fs.map h.hashField := by
  induction fs with
  | nil => rfl
  | cons f fs ih =>
    obtain ⟨n, s, flags⟩ := f
    rw [hashFields, ih]
    rfl

/-- Sets whose items are paired off with items of the same hashes have the same hash. -/
theorem set_eq_of_pairing {α : Type} {R : α → α → Prop} {f : α → H} {xs paired ys : List α}
    (hpaired : List.Forall₂ R xs paired) (hperm : paired.Perm ys)
    (hf : ∀ x ∈ xs, ∀ y, R x y → f x = f y) : h.set (xs.map f) = h.set (ys.map f) := by
  rw [map_eq_map_of_forall₂ hpaired fun x hx y _ => hf x hx y]
  exact h.set_perm (hperm.map f)

/-- Schemas of which one is the other reordered have the same hash. -/
theorem hash_eq_of_reordered {s t : Schema} (hst : s.Reordered t) : h.hash s = h.hash t := by
  induction s using Schema.induction generalizing t with
  | primitive k => cases hst; rfl
  | opaqueLeaf k n => cases hst; rfl
  | sequence e r ih =>
    cases hst with
    | sequence _ he => rw [hash, hash, ih he]
  | union ms ih =>
    cases hst with
    | union hpaired hperm =>
      rw [hash, hash, hashAll_eq_map, hashAll_eq_map]
      rw [h.set_eq_of_pairing hpaired hperm fun m hm n hmn => ih m hm hmn]
  | record fs ih =>
    cases hst with
    | record hpaired hperm =>
      rw [hash, hash, hashFields_eq_map, hashFields_eq_map]
      refine h.set_eq_of_pairing hpaired hperm ?_
      rintro _ hf _ ⟨n, flags, hs⟩
      rw [hashField, hashField, ih _ hf hs]
  | exclusive a b x y iha ihb =>
    cases hst with
    | @exclusive _ _ c d _ _ ha hb =>
      have hfirst : h.set (h.hashFields a) = h.set (h.hashFields c) := iha ha
      have hsecond : h.set (h.hashFields b) = h.set (h.hashFields d) := ihb hb
      have hmembers : Record.same a b = Record.same c d :=
        Schema.same_congr (Schema.same_of_reordered ha) (Schema.same_of_reordered hb)
      simp only [hash, hfirst, hsecond, hmembers]

/-- Schemas that are the same have the same hash. -/
theorem hash_eq_of_same {s t : Schema} (hs : s.WellFormed) (ht : t.WellFormed)
    (hst : s.same t = true) : h.hash s = h.hash t :=
  h.hash_eq_of_reordered (Schema.reordered_of_same hs ht hst)

end Hashing

/-! ## The laws of equality -/

namespace Schema

/-- What the equality of schemas promises of any three of them. -/
structure SameLaws (s t u : Schema) : Prop where
  refl : s.same s = true
  symm : s.same t = true → t.same s = true
  trans : s.same t = true → t.same u = true → s.same u = true
  /-- Ignored is the order of fields and of members, at every depth, and nothing else. -/
  order : s.same t = true ↔ s.Reordered t
  /-- Looking up the fields of one record in the other by their names comes to the same as comparing
  the two sets of names with their fields. -/
  lookUp : s.looksLike t = s.same t
  /-- Whatever the hashes of leaves are and however hashes are joined. -/
  hash : s.same t = true → ∀ {H : Type} (h : Hashing H), h.hash s = h.hash t

/-- Equality of schemas is an equivalence that ignores order and nothing else, and it agrees with
look-up and with hashes. -/
theorem same_laws {s t : Schema} (hs : s.WellFormed) (ht : t.WellFormed) (u : Schema) :
    SameLaws s t u where
  refl := same_refl s
  symm := same_symm
  trans := same_trans
  order := same_iff_reordered hs ht
  lookUp := looksLike_eq_same hs ht
  hash := fun hst _ h => h.hash_eq_of_same hs ht hst

/-- A record of an alternative and an exclusive union. -/
def contact : Schema := .record [
  ⟨"name", .union [.primitive .string,
    .record [⟨"x", .primitive .null, {}⟩, ⟨"y", never, {}⟩]], {}⟩,
  ⟨"reach", .exclusive [⟨"mail", .primitive .string, {}⟩, ⟨"fax", never, { optional := true }⟩]
    [⟨"fax", .primitive .number, {}⟩, ⟨"mail", never, { optional := true }⟩]
    (.ofList ["mail"]) (.ofList ["fax"]), { readonly := true }⟩]

/-- The same record, with the fields and the members in another order at every depth. -/
def contactReordered : Schema := .record [
  ⟨"reach", .exclusive [⟨"fax", never, { optional := true }⟩, ⟨"mail", .primitive .string, {}⟩]
    [⟨"mail", never, { optional := true }⟩, ⟨"fax", .primitive .number, {}⟩]
    (.ofList ["mail"]) (.ofList ["fax"]), { readonly := true }⟩,
  ⟨"name", .union [.record [⟨"y", never, {}⟩, ⟨"x", .primitive .null, {}⟩],
    .primitive .string], {}⟩]

theorem same_laws_contact : contact.WellFormed ∧ contactReordered.WellFormed ∧
    contact.same contactReordered = true ∧ SameLaws contact contactReordered contact :=
  ⟨by decide, by decide, by decide, same_laws (by decide) (by decide) contact⟩

end Schema

end ShapeAlgebra
