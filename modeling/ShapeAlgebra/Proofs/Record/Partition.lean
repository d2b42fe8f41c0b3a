import ShapeAlgebra.Proofs.Record.Assignment
import ShapeAlgebra.Proofs.Rule.Distribution

/-!
# Records taken apart

A selection of fields and its counterpart take a record apart. The fields that one keeps and the
other drops stand in the order of the record, have no name in common, and are all of its fields;
merged again in either order they make the record, up to the order of its fields. Strict selections,
which refuse names that the record does not have, agree with permissive ones wherever they succeed.

What carries the proofs is that every selection goes by a set of names, even the one by shapes, and
that two records without a name in common are merged by putting one behind the other.

Results:

* `Record.assign_of_disjoint`: merging records without a name in common.
* `Record.splits_select`: a set of names takes a record apart.
* `Schema.takesApart_of_select`: what it takes for a selection and its counterpart to take a record
  apart, and to find nothing more to do in what was kept.
* `Schema.selections_split`: all selections together, with their failures.
-/

namespace ShapeAlgebra

namespace Record

variable {r t kept dropped : Record}

theorem mem_keys_iff {n : Text} : n ∈ r.keys ↔ n ∈ r.names := KeySet.mem_ofList

/-! ## Records without a name in common -/

theorem find?_of_not_mem_names {n : Text} (h : n ∉ r.names) : r.find? n = none :=
  find?_eq_none_iff.2 fun hn => h (mem_keys_iff.1 hn)

theorem override_of_disjoint (h : ∀ n ∈ r.names, n ∉ t.names) : r.override t = r := by
  have hself : ∀ f ∈ r, (t.find? f.name).getD f = f := by
    intro f hf
    rw [find?_of_not_mem_names (h f.name (List.mem_map_of_mem hf)), Option.getD_none]
  rw [override, List.map_congr_left hself, List.map_id']

theorem added_of_disjoint (h : ∀ n ∈ r.names, n ∉ t.names) : r.added t = t := by
  rw [added_eq_filter, List.filter_eq_self]
  intro f hf
  have hnot : f.name ∉ r.keys := fun hr => h f.name (mem_keys_iff.1 hr) (List.mem_map_of_mem hf)
  exact decide_eq_true hnot

/-- Records without a name in common are merged by putting one behind the other. -/
theorem assign_of_disjoint (h : ∀ n ∈ r.names, n ∉ t.names) : r.assign t = r ++ t := by
  rw [assign, override_of_disjoint h, added_of_disjoint h]

theorem same_of_perm (h : r.Perm t) : r.same t = true :=
  Record.same_iff.2 ⟨fun f hf => ⟨f, h.mem_iff.1 hf, Field.mem_same_refl r f hf⟩,
    fun f hf => ⟨f, h.mem_iff.2 hf, Field.mem_same_refl t f hf⟩⟩

/-! ## Two parts of a record -/

/-- Whether a record is taken apart into two: both have fields of the record in its order, without a
name in common, and together they have each of its fields once, as it was. Put together again they
make the record, whichever comes first. -/
structure Splits (r kept dropped : Record) : Prop where
  keptInOrder : kept.Sublist r
  droppedInOrder : dropped.Sublist r
  apart : ∀ n ∈ kept.names, n ∉ dropped.names
  whole : (kept ++ dropped).Perm r
  merged : ∃ t, Schema.merge (.record kept) (.record dropped) = .ok t ∧ t.same r = true
  mergedBack : ∃ t, Schema.merge (.record dropped) (.record kept) = .ok t ∧ t.same r = true

theorem splits_of_perm (hk : kept.Sublist r) (hd : dropped.Sublist r)
    (hapart : ∀ n ∈ kept.names, n ∉ dropped.names) (hwhole : (kept ++ dropped).Perm r) :
    r.Splits kept dropped where
  keptInOrder := hk
  droppedInOrder := hd
  apart := hapart
  whole := hwhole
  merged := by
    refine ⟨_, Schema.merge_record kept dropped, ?_⟩
    rw [assign_of_disjoint hapart]
    exact same_of_perm hwhole
  mergedBack := by
    refine ⟨_, Schema.merge_record dropped kept, ?_⟩
    rw [assign_of_disjoint fun n hd hk => hapart n hk hd]
    exact same_of_perm (List.perm_append_comm.trans hwhole)

/-- The fields outside a set of names are those that a selection by these names leaves. -/
theorem select_sdiff_keys (r : Record) (ks : KeySet) :
    r.select (r.keys.sdiff ks) = r.filter fun f => !decide (f.name ∈ ks) := by
  refine List.filter_congr fun f hf => ?_
  have hr : f.name ∈ r.keys := mem_keys.2 ⟨f, hf, rfl⟩
  by_cases hk : f.name ∈ ks <;> simp [hr, hk]

theorem mem_names_select {ks : KeySet} {n : Text} (h : n ∈ (r.select ks).names) : n ∈ ks := by
  obtain ⟨f, hf, rfl⟩ := List.mem_map.1 h
  exact (mem_select.1 hf).2

/-- A set of names takes a record apart. -/
theorem splits_select (r : Record) (ks : KeySet) :
    r.Splits (r.select ks) (r.select (r.keys.sdiff ks)) := by
  refine splits_of_perm List.filter_sublist List.filter_sublist (fun n hk hd => ?apart) ?whole
  case apart => exact (KeySet.mem_sdiff.1 (mem_names_select hd)).2 (mem_names_select hk)
  case whole =>
    rw [select_sdiff_keys]
    exact List.filter_append_perm _ r

theorem select_eq_self {ks : KeySet} (h : ∀ n ∈ r.names, n ∈ ks) : r.select ks = r :=
  List.filter_eq_self.2 fun _ hf => decide_eq_true (h _ (List.mem_map_of_mem hf))

theorem select_sdiff_eq_nil {ks : KeySet} (h : ∀ n ∈ r.names, n ∈ ks) :
    r.select (r.keys.sdiff ks) = [] := by
  rw [select_sdiff_keys, List.filter_eq_nil_iff]
  intro f hf
  simpa using h f.name (List.mem_map_of_mem hf)

/-- Names are known when none is left without a field. -/
theorem isEmpty_sdiff_keys_iff {ks : KeySet} :
    (ks.sdiff r.keys).isEmpty = true ↔ ∀ n ∈ ks, n ∈ r.names := by
  rw [KeySet.isEmpty_iff]
  simp only [KeySet.mem_sdiff, not_and, not_not, mem_keys_iff]

/-- Known names are the names of the fields that are selected by them. -/
theorem mem_names_select_of_known {ks : KeySet} (h : ∀ n ∈ ks, n ∈ r.names) :
    ∀ n ∈ ks, n ∈ (r.select ks).names := by
  intro n hn
  obtain ⟨f, hf, rfl⟩ := List.mem_map.1 (h n hn)
  exact List.mem_map_of_mem (mem_select.2 ⟨hf, hn⟩)

/-! ## Names of fields whose shapes pass a test -/

theorem mem_keysPassing {test : Schema → Bool} {n : Text} :
    n ∈ r.keysPassing test ↔ ∃ f ∈ r, test f.shape = true ∧ f.name = n := by
  rw [keysPassing, ← keys, mem_keys]
  simp only [List.mem_filter, and_assoc]

/-- As no name comes twice, a name tells whether the shape of its field passes the test. -/
theorem name_mem_keysPassing_iff (h : r.names.Nodup) {test : Schema → Bool} {f : Field}
    (hf : f ∈ r) : f.name ∈ r.keysPassing test ↔ test f.shape = true := by
  rw [mem_keysPassing]
  constructor
  · rintro ⟨g, hg, htest, hname⟩
    rwa [List.inj_on_of_nodup_map h hg hf hname] at htest
  · intro htest
    exact ⟨f, hf, htest, rfl⟩

theorem mem_keysPassing_select {test : Schema → Bool} {n : Text}
    (h : n ∈ (r.select (r.keysPassing test)).names) :
    n ∈ keysPassing (r.select (r.keysPassing test)) test := by
  have hn := mem_names_select h
  obtain ⟨f, hf, htest, rfl⟩ := mem_keysPassing.1 hn
  exact mem_keysPassing.2 ⟨f, mem_select.2 ⟨hf, hn⟩, htest, rfl⟩

end Record

/-! ## The operations -/

theorem KeySource.complement_of_keySet {a b : KeySource} {u v : KeySet} (ha : a.keySet = .ok u)
    (hb : b.keySet = .ok v) : complement a b =
      if (v.sdiff u).isEmpty then .ok (u.sdiff v)
      else .error (.unknownNames .complementUniverse (v.sdiff u)) := by
  simp only [complement, ha, hb]
  rfl

namespace Schema

/-- Whether a selection and its counterpart take a record apart into `kept` and `dropped`, where the
fields that are kept are the wanted ones. In what is kept the selection finds nothing to leave out,
and its counterpart leaves nothing of it. -/
structure TakesApart (keep drop : Schema → Except Failure Record) (wanted : Field → Prop)
    (r kept dropped : Record) : Prop where
  keeps : keep (.record r) = .ok kept
  drops : drop (.record r) = .ok dropped
  splits : r.Splits kept dropped
  keepsWanted : ∀ f ∈ r, (f ∈ kept ↔ wanted f)
  keepsAgain : keep (.record kept) = .ok kept
  dropsAgain : drop (.record kept) = .ok []

section

variable {r : Record} {source names : KeySource} {ks : KeySet}
  {keep drop : Schema → Except Failure Record} {wanted : Field → Prop}

/-- A selection that goes by the names `ks` in the record, and in what it keeps by names that leave
none of these out. -/
theorem takesApart_of_select (again : KeySet) (hkeep : keep (.record r) = .ok (r.select ks))
    (hdrop : drop (.record r) = .ok (r.select (r.keys.sdiff ks)))
    (hwanted : ∀ f ∈ r, (f.name ∈ ks ↔ wanted f))
    (hkeep' : keep (.record (r.select ks)) = .ok (Record.select (r.select ks) again))
    (hdrop' : drop (.record (r.select ks)) =
      .ok (Record.select (r.select ks) ((r.select ks).keys.sdiff again)))
    (hagain : ∀ n ∈ (r.select ks).names, n ∈ again) :
    TakesApart keep drop wanted r (r.select ks) (r.select (r.keys.sdiff ks)) where
  keeps := hkeep
  drops := hdrop
  splits := r.splits_select ks
  keepsWanted f hf := by rw [Record.mem_select, and_iff_right hf, hwanted f hf]
  keepsAgain := by rw [hkeep', Record.select_eq_self hagain]
  dropsAgain := by rw [hdrop', Record.select_sdiff_eq_nil hagain]

/-! ### By names -/

theorem objectIntersect_of_keySet (r : Record) (h : source.keySet = .ok ks) :
    (Schema.record r).objectIntersect source = .ok (r.select ks) := by
  have hselect : r.select (r.keys.inter ks) = r.select ks := by
    refine List.filter_congr fun f hf => decide_eq_decide.2 ?_
    rw [KeySet.mem_inter, and_iff_right (Record.mem_keys.2 ⟨f, hf, rfl⟩)]
  simp only [objectIntersect, requireRecord, KeySource.intersect, KeySource.keySet_record, h]
  exact congrArg Except.ok hselect

theorem objectSubtract_of_keySet (r : Record) (h : source.keySet = .ok ks) :
    (Schema.record r).objectSubtract source = .ok (r.select (r.keys.sdiff ks)) := by
  simp only [objectSubtract, requireRecord, KeySource.subtract, KeySource.keySet_record, h]
  rfl

theorem objectComplement_of_keySet (r : Record) (h : source.keySet = .ok ks) :
    (Schema.record r).objectComplement source =
      if (ks.sdiff r.keys).isEmpty then .ok (r.select (r.keys.sdiff ks))
      else .error (.unknownNames .complementUniverse (ks.sdiff r.keys)) := by
  have hselect : (Schema.record r).objectComplement source =
      (KeySource.complement (.schema (.record r)) source).map r.select := rfl
  rw [hselect, KeySource.complement_of_keySet (KeySource.keySet_record r) h]
  split <;> rfl

theorem pickByKey_of_known (hnames : names.keySet = .ok ks) (h : ∀ n ∈ ks, n ∈ r.names) :
    (Schema.record r).pickByKey names = .ok (r.select ks) := by
  rw [pickByKey_of_keySet r hnames, if_pos (Record.isEmpty_sdiff_keys_iff.2 h)]

theorem objectComplement_of_known (hsource : source.keySet = .ok ks) (h : ∀ n ∈ ks, n ∈ r.names) :
    (Schema.record r).objectComplement source = .ok (r.select (r.keys.sdiff ks)) := by
  rw [objectComplement_of_keySet r hsource, if_pos (Record.isEmpty_sdiff_keys_iff.2 h)]

theorem takesApart_object (hsource : source.keySet = .ok ks) (r : Record) :
    TakesApart (fun s => s.objectIntersect source) (fun s => s.objectSubtract source)
      (fun f => f.name ∈ ks) r (r.select ks) (r.select (r.keys.sdiff ks)) :=
  takesApart_of_select ks (objectIntersect_of_keySet r hsource) (objectSubtract_of_keySet r hsource)
    (fun _ _ => Iff.rfl) (objectIntersect_of_keySet _ hsource)
    (objectSubtract_of_keySet _ hsource) fun _ => Record.mem_names_select

theorem takesApart_byKey (hnames : names.keySet = .ok ks) (h : ∀ n ∈ ks, n ∈ r.names) :
    TakesApart (fun s => s.pickByKey names) (fun s => s.omitByKey names)
      (fun f => f.name ∈ ks) r (r.select ks) (r.select (r.keys.sdiff ks)) :=
  takesApart_of_select ks (pickByKey_of_known hnames h) (omitByKey_of_keySet r hnames)
    (fun _ _ => Iff.rfl) (pickByKey_of_known hnames (Record.mem_names_select_of_known h))
    (omitByKey_of_keySet _ hnames) fun _ => Record.mem_names_select

theorem takesApart_complement (hsource : source.keySet = .ok ks) (hnames : names.keySet = .ok ks)
    (h : ∀ n ∈ ks, n ∈ r.names) :
    TakesApart (fun s => s.pickByKey names) (fun s => s.objectComplement source)
      (fun f => f.name ∈ ks) r (r.select ks) (r.select (r.keys.sdiff ks)) :=
  takesApart_of_select ks (pickByKey_of_known hnames h) (objectComplement_of_known hsource h)
    (fun _ _ => Iff.rfl) (pickByKey_of_known hnames (Record.mem_names_select_of_known h))
    (objectComplement_of_known hsource (Record.mem_names_select_of_known h)) fun _ =>
      Record.mem_names_select

/-! ### By shapes -/

theorem takesApart_passing (h : r.names.Nodup) (test : Schema → Bool) :
    TakesApart (fun s => s.pickPassing test) (fun s => s.omitPassing test)
      (fun f => test f.shape = true) r (r.select (r.keysPassing test))
      (r.select (r.keys.sdiff (r.keysPassing test))) :=
  takesApart_of_select (Record.keysPassing (r.select (r.keysPassing test)) test) rfl rfl
    (fun _ hf => Record.name_mem_keysPassing_iff h hf) rfl rfl fun _ =>
      Record.mem_keysPassing_select

/-! ### All selections -/

/-- How the selections from a record go together. `ks` are the names that `source` stands for, and
`names` is the same or another collection of these names. -/
structure SelectionsSplit (r : Record) (source names : KeySource) (ks : KeySet) : Prop where
  /-- The strict selections fail exactly when a name is unknown, and tell which names are. -/
  unknown : (∃ n ∈ ks, n ∉ r.names) ↔ ∃ missing : KeySet,
    (∀ n, n ∈ missing ↔ n ∈ ks ∧ n ∉ r.names) ∧
    (Schema.record r).pickByKey names = .error (.unknownNames .record missing) ∧
    (Schema.record r).objectComplement source = .error (.unknownNames .complementUniverse missing)
  /-- Otherwise they succeed, with the results of the permissive ones. -/
  known : (∀ n ∈ ks, n ∈ r.names) → ∃ kept dropped,
    TakesApart (fun s => s.pickByKey names) (fun s => s.omitByKey names) (fun f => f.name ∈ ks)
      r kept dropped ∧
    TakesApart (fun s => s.pickByKey names) (fun s => s.objectComplement source)
      (fun f => f.name ∈ ks) r kept dropped ∧
    (Schema.record r).objectIntersect source = .ok kept ∧
    (Schema.record r).objectSubtract source = .ok dropped
  /-- The permissive selections succeed whatever the names are. -/
  byNames : ∃ kept dropped, TakesApart (fun s => s.objectIntersect source)
      (fun s => s.objectSubtract source) (fun f => f.name ∈ ks) r kept dropped ∧
    (Schema.record r).omitByKey names = .ok dropped
  /-- A test need not be one of those that can be described. -/
  byTest (test : Schema → Bool) : ∃ kept dropped, TakesApart (fun s => s.pickPassing test)
    (fun s => s.omitPassing test) (fun f => test f.shape = true) r kept dropped
  byValue (p : Predicate) : ∃ kept dropped, TakesApart (fun s => s.pickByValue p)
    (fun s => s.omitByValue p) (fun f => p.holds f.shape = true) r kept dropped

/-- The strict selections agree with the permissive ones, and each selection takes the record apart
together with its counterpart. -/
theorem selections_split (h : r.names.Nodup) (hsource : source.keySet = .ok ks)
    (hnames : names.keySet = .ok ks) : SelectionsSplit r source names ks where
  unknown := by
    constructor
    · rintro ⟨n, hn, hr⟩
      have hempty : ¬ (ks.sdiff r.keys).isEmpty = true := fun he =>
        hr (Record.isEmpty_sdiff_keys_iff.1 he n hn)
      refine ⟨ks.sdiff r.keys, fun m => ?_, ?_, ?_⟩
      · rw [KeySet.mem_sdiff, Record.mem_keys_iff]
      · rw [pickByKey_of_keySet r hnames, if_neg hempty]
      · rw [objectComplement_of_keySet r hsource, if_neg hempty]
    · rintro ⟨missing, -, hpick, -⟩
      by_contra hall
      rw [pickByKey_of_known hnames (by simpa using hall)] at hpick
      cases hpick
  known hknown := ⟨_, _, takesApart_byKey hnames hknown,
    takesApart_complement hsource hnames hknown, objectIntersect_of_keySet r hsource,
    objectSubtract_of_keySet r hsource⟩
  byNames := ⟨_, _, takesApart_object hsource r, omitByKey_of_keySet r hnames⟩
  byTest test := ⟨_, _, takesApart_passing h test⟩
  byValue p := ⟨_, _, takesApart_passing h fun s => p.holds s⟩

end

/-- Names of which the record lacks one, given once by a record with other shapes and once by a
list. -/
theorem selections_split_account : Record.account.names.Nodup ∧
    (KeySource.schema (.record [⟨"photo", .never, {}⟩, ⟨"name", .never, {}⟩])).keySet =
      .ok (KeySet.ofList ["name", "photo"]) ∧
    (KeySource.data (.list [.text "photo", .text "name", .text "photo"])).keySet =
      .ok (KeySet.ofList ["name", "photo"]) ∧
    SelectionsSplit Record.account
      (.schema (.record [⟨"photo", .never, {}⟩, ⟨"name", .never, {}⟩]))
      (.data (.list [.text "photo", .text "name", .text "photo"]))
      (KeySet.ofList ["name", "photo"]) :=
  ⟨by decide, rfl, rfl, selections_split (by decide) rfl rfl⟩

end Schema

end ShapeAlgebra
