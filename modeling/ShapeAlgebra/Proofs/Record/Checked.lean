import ShapeAlgebra.Proofs.Record.Congruence
import ShapeAlgebra.Proofs.Record.Partition

/-!
# Operations in checked steps

The operations on records, and the rules, done in steps each of which may fail: a selection inside a
merge may be asked for unknown names, a look-up may find nothing, and every record that is put
together is checked for names that come twice. Done in these steps the operations end as they do
without checks, if no name comes twice in what they are applied to. So no check is ever the reason
for a failure.

What carries the proofs is that the names which a merge selects are names of the record they are
selected from, that each name of the base is among those that are kept or those that are replaced,
and that what a merge puts behind a record has none of its names.

Results:

* `Selection.applyChecked_eq`, `Selection.apply_ne_duplicateField`: no selection brings a name twice
  into a record.
* `Schema.overrideInSteps_eq`, `Schema.assignInSteps_eq`, `Schema.exclusiveInSteps_eq`: the merges
  of records come to their ends.
* `Behavior.transformChecked_eq`: no rule brings a name twice into a record.
* `Schema.steps_succeed`: all operations together, and how a merge refuses what is no record.
-/

namespace ShapeAlgebra

/-! ## Steps -/

/-- Why an operation stops before its end. -/
inductive Stop where
  /-- A step of it failed. -/
  | failed (cause : Failure)
  /-- A field was looked up under a name that no field has. -/
  | absent (name : Text)
deriving DecidableEq, Repr

section

variable {α : Type}

/-- What may fail, as a step of an operation. -/
def asStep (x : Except Failure α) : Except Stop α := x.mapError .failed

theorem asStep_ok (a : α) : asStep (.ok a) = .ok a := rfl

theorem bind_ok {ε β : Type} (a : α) (f : α → Except ε β) :
    ((.ok a : Except ε α) >>= f) = f a := rfl

end

/-- Steps that all succeed give their results in order. -/
theorem mapM_map_eq_ok {ε α β γ : Type} {step : β → Except ε γ} {key : α → β} {result : α → γ}
    {as : List α} (h : ∀ a ∈ as, step (key a) = .ok (result a)) :
    (as.map key).mapM step = .ok (as.map result) := by
  induction as with
  | nil => rfl
  | cons a as ih =>
    obtain ⟨ha, has⟩ := List.forall_mem_cons.1 h
    rw [List.map_cons, List.mapM_cons, ha, ih has]
    rfl

namespace Record

variable {r own other : Record} {n : Text}

/-- The field under a name that must be there (in a `field_map`). -/
def lookUp (r : Record) (n : Text) : Except Stop Field :=
  match r.find? n with
  | some f => .ok f
  | none => .error (.absent n)

/-- The field under a name among those that replace others, or else among those that are kept. -/
def chosen (replaced kept : Record) (n : Text) : Except Stop Field :=
  match replaced.find? n with
  | some f => .ok f
  | none => kept.lookUp n

theorem ofFields_of_nodup (h : r.names.Nodup) : ofFields r = .ok r :=
  ofFields_eq_ok_iff.2 ⟨rfl, h⟩

/-- What is blocked under names that a record does not have brings no name twice into it. -/
theorem nodup_names_append_blocked (hown : own.names.Nodup) (hother : other.names.Nodup)
    {forbidden : KeySet} (h : ∀ n ∈ forbidden, n ∉ own.names) :
    names (own ++ other.blocked forbidden) |>.Nodup := by
  have hsplit : names (own ++ other.blocked forbidden) =
      own.names ++ (other.select forbidden).names := by
    simp [names, blocked, Function.comp_def]
  rw [hsplit, List.nodup_append]
  refine ⟨hown, nodup_names_select hother _, ?_⟩
  rintro n hn m hm rfl
  exact h n (mem_names_select hm) hn

end Record

namespace KeySet

/-- A set of names where a collection of names is asked for. -/
def asSource (ks : KeySet) : KeySource := .data (.set (ks.names.map .text))

theorem keySet_asSource (ks : KeySet) : ks.asSource.keySet = .ok ks := by
  have hself : KeySet.ofList ks.names = ks := KeySet.ext fun _ => KeySet.mem_ofList
  rw [asSource, KeySource.keySet_of_items rfl, hself]

end KeySet

/-! ## Selections -/

/-- The ways to select fields of a record. -/
inductive Selection where
  | pickByKey (names : KeySource)
  | omitByKey (names : KeySource)
  | pickByValue (test : Schema → Bool)
  | omitByValue (test : Schema → Bool)
  | objectIntersect (other : KeySource)
  | objectSubtract (other : KeySource)
  | objectComplement (subset : KeySource)

namespace Selection

/-- The fields of a schema that are selected. -/
def apply : Selection → Schema → Except Failure Record
  | .pickByKey names, s => s.pickByKey names
  | .omitByKey names, s => s.omitByKey names
  | .pickByValue test, s => s.pickPassing test
  | .omitByValue test, s => s.omitPassing test
  | .objectIntersect other, s => s.objectIntersect other
  | .objectSubtract other, s => s.objectSubtract other
  | .objectComplement subset, s => s.objectComplement subset

/-- What a selection is called where it is refused. -/
def operation : Selection → RecordOperation
  | .pickByKey _ => .pickByKey
  | .omitByKey _ => .omitByKey
  | .pickByValue _ => .pickByValue
  | .omitByValue _ => .omitByValue
  | .objectIntersect _ => .objectIntersect
  | .objectSubtract _ => .objectSubtract
  | .objectComplement _ => .objectComplement

/-- The names by which a selection goes. -/
def wanted (r : Record) : Selection → Except Failure KeySet
  | .pickByKey names => do
    let ks ← names.keySet
    if (ks.sdiff r.keys).isEmpty then return ks
    throw (.unknownNames .record (ks.sdiff r.keys))
  | .omitByKey names => do return r.keys.sdiff (← names.keySet)
  | .pickByValue test => return r.keysPassing test
  | .omitByValue test => return r.keys.sdiff (r.keysPassing test)
  | .objectIntersect other => KeySource.intersect (.schema (.record r)) other
  | .objectSubtract other => KeySource.subtract (.schema (.record r)) other
  | .objectComplement subset => KeySource.complement (.schema (.record r)) subset

/-- The selected fields, put together with a check (`_select`). -/
def applyChecked (p : Selection) (s : Schema) : Except Failure Record := do
  let r ← s.requireRecord p.operation
  let ks ← p.wanted r
  Record.ofFields (r.select ks)

theorem apply_record (p : Selection) (r : Record) :
    p.apply (.record r) = do return r.select (← p.wanted r) := by
  cases p with
  | pickByKey names =>
    simp only [apply, Schema.pickByKey, Schema.requireRecord, wanted, bind_ok]
    cases names.keySet with
    | error cause => rfl
    | ok ks =>
      simp only [bind_ok]
      split <;> rfl
  | omitByKey names =>
    simp only [apply, Schema.omitByKey, Schema.requireRecord, wanted, bind_ok]
    cases names.keySet <;> rfl
  | _ => rfl

theorem apply_of_not_record (p : Selection) {s : Schema} (h : ∀ r, s ≠ .record r) :
    p.apply s = .error (.recordNeeded p.operation s.variety) := by
  cases s with
  | record r => exact absurd rfl (h r)
  | _ => cases p <;> rfl

/-- No selection brings a name twice into a record. -/
theorem applyChecked_eq (p : Selection) {s : Schema}
    (h : ∀ r : Record, s = .record r → r.names.Nodup) : p.applyChecked s = p.apply s := by
  cases s with
  | record r =>
    rw [apply_record, applyChecked, Schema.requireRecord, bind_ok]
    refine bind_congr fun ks => ?_
    exact Record.ofFields_of_nodup (Record.nodup_names_select (h r rfl) ks)
  | _ =>
    rw [apply_of_not_record p (by simp)]
    rfl

end Selection

/-! ### How selections fail -/

/-- That a name comes twice is never what is wrong with a source of names. -/
theorem KeySource.keySet_ne_duplicateField (source : KeySource) (n : Text) :
    source.keySet ≠ .error (.duplicateField n) := by
  have hnames : ∀ ds : List Data, namesOf ds ≠ .error (.duplicateField n) := by
    intro ds
    induction ds with
    | nil => exact nofun
    | cons d ds ih =>
      cases d with
      | text t =>
        intro h
        obtain h | ⟨ts, -, h⟩ := eq_error_or_of_bind_eq_error h
        · exact ih h
        · cases h
      | _ => exact nofun
  cases source with
  | schema s => cases s <;> exact nofun
  | data d =>
    by_cases ht : ∃ t, d = .text t
    · obtain ⟨t, rfl⟩ := ht
      exact nofun
    · intro h
      rw [keySet] at h
      · cases hitems : d.items? with
        | none => simp [hitems] at h
        | some items =>
          cases hkey : firstUnhashable items with
          | some item => simp [hitems, hkey] at h
          | none =>
            simp only [hitems, hkey] at h
            obtain h | ⟨ts, -, h⟩ := eq_error_or_of_bind_eq_error h
            · exact hnames items h
            · cases h
      · exact fun t hd => ht ⟨t, hd⟩

namespace Selection

variable {r : Record} {n : Text}

theorem wanted_ne_duplicateField (p : Selection) : p.wanted r ≠ .error (.duplicateField n) := by
  intro h
  have hkeys := KeySource.keySet_ne_duplicateField (n := n)
  cases p with
  | pickByKey names =>
    obtain h | ⟨ks, -, h⟩ := eq_error_or_of_bind_eq_error h
    · exact hkeys names h
    · split at h <;> cases h
  | omitByKey names =>
    obtain h | ⟨ks, -, h⟩ := eq_error_or_of_bind_eq_error h
    · exact hkeys names h
    · cases h
  | pickByValue test => cases h
  | omitByValue test => cases h
  | objectIntersect other =>
    obtain h | ⟨ks, -, h⟩ := eq_error_or_of_bind_eq_error h
    · cases h
    obtain h | ⟨ks, -, h⟩ := eq_error_or_of_bind_eq_error h
    · exact hkeys other h
    · cases h
  | objectSubtract other =>
    obtain h | ⟨ks, -, h⟩ := eq_error_or_of_bind_eq_error h
    · cases h
    obtain h | ⟨ks, -, h⟩ := eq_error_or_of_bind_eq_error h
    · exact hkeys other h
    · cases h
  | objectComplement subset =>
    obtain h | ⟨ks, -, h⟩ := eq_error_or_of_bind_eq_error h
    · cases h
    obtain h | ⟨ks, -, h⟩ := eq_error_or_of_bind_eq_error h
    · exact hkeys subset h
    · dsimp only at h
      split at h <;> cases h

/-- That a name comes twice is never why a selection fails. -/
theorem apply_ne_duplicateField (p : Selection) (s : Schema) (n : Text) :
    p.apply s ≠ .error (.duplicateField n) := by
  intro h
  cases s with
  | record r =>
    rw [apply_record] at h
    obtain h | ⟨ks, -, h⟩ := eq_error_or_of_bind_eq_error h
    · exact p.wanted_ne_duplicateField h
    · cases h
  | _ =>
    rw [apply_of_not_record p (by simp)] at h
    cases h

end Selection

/-! ## Merges -/

/-- The ways to merge two records. -/
inductive Merger where
  | override
  | assign
  | exclusive
deriving DecidableEq, Repr

/-- The fields of two schemas, merged. -/
def Merger.apply : Merger → Schema → Schema → Except Failure Schema
  | .override, s, t => do return .record (← s.mergeOverride t)
  | .assign, s, t => do return .record (← s.merge t)
  | .exclusive, s, t => s.mergeExclusive t

/-- What a merge is called where it is refused. -/
def Merger.operation : Merger → RecordOperation
  | .override => .mergeOverride
  | .assign => .merge
  | .exclusive => .mergeExclusive

namespace Schema

/-- The names of the first record that the second does not have (`subtract`). -/
def onlyIn (r other : Record) : Except Stop KeySet :=
  asStep (KeySource.subtract (.schema (.record r)) (.schema (.record other)))

/-- The names of the first record that the second has too (`intersect`). -/
def alsoIn (r other : Record) : Except Stop KeySet :=
  asStep (KeySource.intersect (.schema (.record r)) (.schema (.record other)))

/-- The fields with the given names, all of which must be known (`pick_by_key`). -/
def pickInSteps (r : Record) (ks : KeySet) : Except Stop Record :=
  asStep ((Selection.pickByKey ks.asSource).applyChecked (.record r))

/-- Overriding: the fields that are kept and those that replace others are picked first, and then
each name of the base is looked up in the second and, if it is not there, in the first
(`merge_override`). -/
def overrideInSteps (s t : Schema) : Except Stop Record := do
  let base ← asStep (s.requireRecord .mergeOverride)
  let other ← asStep (t.requireRecord .mergeOverride)
  let kept ← pickInSteps base (← onlyIn base other)
  let replaced ← pickInSteps other (← alsoIn other base)
  let fields ← base.names.mapM (Record.chosen replaced kept)
  asStep (Record.ofFields fields)

/-- Assigning: the base is overridden, and the other fields of the second are put behind it
(`merge`). -/
def assignInSteps (s t : Schema) : Except Stop Record := do
  let base ← asStep (s.requireRecord .merge)
  let other ← asStep (t.requireRecord .merge)
  let overridden ← overrideInSteps (.record base) (.record other)
  let appended ← pickInSteps other (← onlyIn other base)
  asStep (Record.ofFields (overridden ++ appended))

/-- The exclusive merge: behind each record the exclusive fields of the other are blocked
(`merge_exclusive`). -/
def exclusiveInSteps (s t : Schema) : Except Stop Schema := do
  let left ← asStep (s.requireRecord .mergeExclusive)
  let right ← asStep (t.requireRecord .mergeExclusive)
  let leftOnly ← onlyIn left right
  let rightOnly ← onlyIn right left
  let first ← asStep (Record.ofFields (left ++ right.blocked rightOnly))
  let second ← asStep (Record.ofFields (right ++ left.blocked leftOnly))
  return .exclusive first second leftOnly rightOnly

variable {a b : Record}

theorem onlyIn_eq (a b : Record) : onlyIn a b = .ok (a.keys.sdiff b.keys) := rfl

theorem alsoIn_eq (a b : Record) : alsoIn a b = .ok (a.keys.inter b.keys) := rfl

theorem pickInSteps_eq (h : a.names.Nodup) {ks : KeySet} (hks : ∀ n ∈ ks, n ∈ a.keys) :
    pickInSteps a ks = .ok (a.select ks) := by
  have hknown : ∀ n ∈ ks, n ∈ a.names := fun n hn => Record.mem_keys_iff.1 (hks n hn)
  have hchecked := (Selection.pickByKey ks.asSource).applyChecked_eq (s := .record a)
    fun r hr => Schema.record.inj hr ▸ h
  rw [pickInSteps, hchecked, Selection.apply, pickByKey_of_known ks.keySet_asSource hknown,
    asStep_ok]

/-- Every name of the base is found, among the fields that replace others or among those that are
kept. -/
theorem chosen_parts (h : a.names.Nodup) (b : Record) {f : Field} (hf : f ∈ a) :
    Record.chosen (b.select (b.keys.inter a.keys)) (a.select (a.keys.sdiff b.keys)) f.name =
      .ok ((b.find? f.name).getD f) := by
  have ha : f.name ∈ a.keys := Record.mem_keys.2 ⟨f, hf, rfl⟩
  have hself : a.find? f.name = some f := (Record.find?_eq_some_iff h).2 ⟨hf, rfl⟩
  rw [Record.chosen, Record.find?_select]
  cases hb : b.find? f.name with
  | some g =>
    obtain ⟨hname, hg⟩ := Record.find?_eq_some hb
    have hmem : f.name ∈ b.keys.inter a.keys :=
      KeySet.mem_inter.2 ⟨Record.mem_keys.2 ⟨g, hg, hname⟩, ha⟩
    rw [if_pos hmem]
    rfl
  | none =>
    have hmem : f.name ∈ a.keys.sdiff b.keys :=
      KeySet.mem_sdiff.2 ⟨ha, Record.find?_eq_none_iff.1 hb⟩
    rw [ite_self]
    simp only [Record.lookUp, Record.find?_select, if_pos hmem, hself]
    rfl

theorem overrideInSteps_eq (ha : a.names.Nodup) (hb : b.names.Nodup) :
    overrideInSteps (.record a) (.record b) = .ok (a.override b) := by
  have hkept := pickInSteps_eq ha fun n hn => (KeySet.mem_sdiff.1 hn : n ∈ a.keys ∧ n ∉ b.keys).1
  have hreplaced := pickInSteps_eq hb fun n hn =>
    (KeySet.mem_inter.1 hn : n ∈ b.keys ∧ n ∈ a.keys).1
  have hfields : a.names.mapM (Record.chosen (b.select (b.keys.inter a.keys))
      (a.select (a.keys.sdiff b.keys))) = .ok (a.override b) :=
    mapM_map_eq_ok fun f hf => chosen_parts ha b hf
  simp only [overrideInSteps, requireRecord, asStep_ok, bind_ok, onlyIn_eq, alsoIn_eq, hkept,
    hreplaced, hfields, Record.ofFields_of_nodup (Record.nodup_names_override ha b)]

theorem assignInSteps_eq (ha : a.names.Nodup) (hb : b.names.Nodup) :
    assignInSteps (.record a) (.record b) = .ok (a.assign b) := by
  have happended : pickInSteps b (b.keys.sdiff a.keys) = .ok (a.added b) :=
    pickInSteps_eq hb fun n hn => (KeySet.mem_sdiff.1 hn).1
  have hwhole : Record.ofFields (a.override b ++ a.added b) = .ok (a.assign b) :=
    Record.ofFields_of_nodup (Record.nodup_names_assign ha hb)
  simp only [assignInSteps, requireRecord, asStep_ok, bind_ok, overrideInSteps_eq ha hb, onlyIn_eq,
    happended, hwhole]

/-- Behind a record the fields that only another has are blocked. -/
theorem ofFields_append_blocked (ha : a.names.Nodup) (hb : b.names.Nodup) :
    Record.ofFields (a ++ b.blocked (b.keys.sdiff a.keys)) =
      .ok (a ++ b.blocked (b.keys.sdiff a.keys)) := by
  refine Record.ofFields_of_nodup (Record.nodup_names_append_blocked ha hb fun n hn => ?_)
  exact fun hna => (KeySet.mem_sdiff.1 hn).2 (Record.mem_keys_iff.2 hna)

theorem exclusiveInSteps_eq (ha : a.names.Nodup) (hb : b.names.Nodup) :
    exclusiveInSteps (.record a) (.record b) = .ok (a.exclusive b) := by
  simp only [exclusiveInSteps, requireRecord, asStep_ok, bind_ok, onlyIn_eq,
    ofFields_append_blocked ha hb, ofFields_append_blocked hb ha]
  rfl

end Schema

/-! ## Rules -/

namespace Schema

/-- Whether no name comes twice in a single node. -/
def NodeDistinct : Schema → Prop
  | .record fs => (Record.names fs).Nodup
  | _ => True

/-- Whether no name comes twice in a record, at any depth. -/
def HasDistinctNames (s : Schema) : Prop := s.Everywhere NodeDistinct

instance : DecidablePred NodeDistinct
  | .record fs => inferInstanceAs (Decidable (Record.names fs).Nodup)
  | .primitive _ | .opaqueLeaf .. | .sequence .. | .union _ | .exclusive .. => .isTrue trivial

instance (s : Schema) : Decidable s.HasDistinctNames :=
  inferInstanceAs (Decidable (s.Everywhere NodeDistinct))

variable {ms : List Schema} {r a b : Record}

theorem hasDistinctNames_sequence {e : Schema} {readonly : Bool} :
    (Schema.sequence e readonly).HasDistinctNames ↔ e.HasDistinctNames := by
  simp [HasDistinctNames, NodeDistinct]

theorem hasDistinctNames_union :
    (Schema.union ms).HasDistinctNames ↔ ∀ m ∈ ms, m.HasDistinctNames := by
  simp [HasDistinctNames, NodeDistinct]

theorem hasDistinctNames_record : (Schema.record r).HasDistinctNames ↔
    r.names.Nodup ∧ ∀ f ∈ r, f.shape.HasDistinctNames := by
  simp [HasDistinctNames, NodeDistinct]

theorem hasDistinctNames_exclusive {x y : KeySet} :
    (Schema.exclusive a b x y).HasDistinctNames ↔
      (Schema.record a).HasDistinctNames ∧ (Schema.record b).HasDistinctNames := by
  simp [HasDistinctNames, NodeDistinct]

end Schema

namespace Behavior

mutual

/-- The schema after the rule, each of its records put together with a check (`_visit`). -/
def transformChecked (b : Behavior) (inSlot : Bool) : Schema → Except Failure Schema
  | .primitive k => return if inSlot && b.stripped.contains k then .never else .primitive k
  | .opaqueLeaf k n => return .opaqueLeaf k n
  | .sequence e r => do return .sequence (← transformChecked b true e) (b.readonly.getD r)
  | .union ms => do return .unionOf (← transformMembersChecked b inSlot ms)
  | .record fs => do
    let r ← transformFieldsChecked b fs >>= Record.ofFields
    return .record r
  | .exclusive first second _ _ => do
    let r ← transformFieldsChecked b first >>= Record.ofFields
    let s ← transformFieldsChecked b second >>= Record.ofFields
    return .unionOf [.record r, .record s]

/-- The members of a union after the rule, without the stripped ones in a slot. -/
def transformMembersChecked (b : Behavior) (inSlot : Bool) :
    List Schema → Except Failure (List Schema)
  | [] => return []
  | m :: ms =>
    if inSlot && m.isKind b.stripped then transformMembersChecked b inSlot ms
    else do
      let s ← transformChecked b false m
      return s :: (← transformMembersChecked b inSlot ms)

/-- The fields of a record after the rule. -/
def transformFieldsChecked (b : Behavior) : List Field → Except Failure (List Field)
  | [] => return []
  | ⟨n, s, f⟩ :: fs => do
    let t ← transformChecked b true s
    return ⟨n, t, b.flags f⟩ :: (← transformFieldsChecked b fs)

end

variable {b : Behavior}

theorem transformMembersChecked_eq {ms : List Schema} (inSlot : Bool)
    (h : ∀ m ∈ ms, b.transformChecked false m = .ok (b.transform false m)) :
    b.transformMembersChecked inSlot ms = .ok (b.transformMembers inSlot ms) := by
  induction ms with
  | nil => rfl
  | cons m ms ih =>
    obtain ⟨hm, hms⟩ := List.forall_mem_cons.1 h
    rw [transformMembersChecked, transformMembers, ih hms]
    split
    · rfl
    · rw [hm]
      rfl

theorem transformFieldsChecked_eq {fs : List Field}
    (h : ∀ f ∈ fs, b.transformChecked true f.shape = .ok (b.transform true f.shape)) :
    b.transformFieldsChecked fs = .ok (b.transformFields fs) := by
  induction fs with
  | nil => rfl
  | cons f fs ih =>
    obtain ⟨hf, hfs⟩ := List.forall_mem_cons.1 h
    obtain ⟨n, s, flags⟩ := f
    rw [transformFieldsChecked, transformFields, hf, ih hfs]
    rfl

theorem transformFieldsChecked_bind_ofFields {r : Record} (hr : r.names.Nodup)
    (h : ∀ f ∈ r, b.transformChecked true f.shape = .ok (b.transform true f.shape)) :
    (b.transformFieldsChecked r >>= Record.ofFields) = .ok (b.transformFields r) := by
  rw [transformFieldsChecked_eq h, bind_ok]
  exact Record.ofFields_of_nodup ((b.names_transformFields r).symm ▸ hr)

theorem transformFieldsChecked_of_record {r : Record} {inSlot : Bool}
    (h : b.transformChecked inSlot (.record r) = .ok (b.transform inSlot (.record r))) :
    (b.transformFieldsChecked r >>= Record.ofFields) = .ok (b.transformFields r) := by
  rw [transformChecked, transform] at h
  obtain ⟨r', hr', h⟩ := exists_of_bind_eq_ok h
  cases h
  exact hr'

/-- No rule brings a name twice into a record. -/
theorem transformChecked_eq {s : Schema} (h : s.HasDistinctNames) (inSlot : Bool) :
    b.transformChecked inSlot s = .ok (b.transform inSlot s) := by
  induction s using Schema.induction generalizing inSlot with
  | primitive k => rfl
  | opaqueLeaf k n => rfl
  | sequence e r ih =>
    rw [transformChecked, ih (Schema.hasDistinctNames_sequence.1 h) true]
    rfl
  | union ms ih =>
    have hms := Schema.hasDistinctNames_union.1 h
    rw [transformChecked, transformMembersChecked_eq inSlot fun m hm => ih m hm (hms m hm) false]
    rfl
  | record fs ih =>
    obtain ⟨hnd, hfs⟩ := Schema.hasDistinctNames_record.1 h
    rw [transformChecked, transformFieldsChecked_bind_ofFields hnd fun f hf =>
      ih f hf (hfs f hf) true]
    rfl
  | exclusive a c x y iha ihc =>
    obtain ⟨ha, hc⟩ := Schema.hasDistinctNames_exclusive.1 h
    rw [transformChecked, transformFieldsChecked_of_record (iha ha false), bind_ok,
      transformFieldsChecked_of_record (ihc hc false)]
    rfl

end Behavior

/-! ## All operations -/

/-- The merge in steps. -/
def Merger.inSteps : Merger → Schema → Schema → Except Stop Schema
  | .override, s, t => do return .record (← s.overrideInSteps t)
  | .assign, s, t => do return .record (← s.assignInSteps t)
  | .exclusive, s, t => s.exclusiveInSteps t

/-- The merge is done of records alone, of the first as of the second: what is no record is refused,
the first of the two that is none is told of. -/
theorem Merger.refuses (m : Merger) {s : Schema} (h : ∀ r, s ≠ .record r) :
    (∀ t, m.inSteps s t = .error (.failed (.recordNeeded m.operation s.variety)) ∧
      m.apply s t = .error (.recordNeeded m.operation s.variety)) ∧
    ∀ r : Record, m.inSteps (.record r) s = .error (.failed (.recordNeeded m.operation s.variety)) ∧
      m.apply (.record r) s = .error (.recordNeeded m.operation s.variety) := by
  cases s with
  | record r => exact absurd rfl (h r)
  | _ => cases m <;> exact ⟨fun _ => ⟨rfl, rfl⟩, fun _ => ⟨rfl, rfl⟩⟩

namespace Schema

/-- How the operations on the records `a` and `b` and on a schema `s` go when they are done in
steps that may fail. -/
structure StepsSucceed (a b : Record) (s : Schema) : Prop where
  /-- A merge of records comes to its end, with the result that it has without checks. -/
  merges (m : Merger) : ∃ t, m.inSteps (.record a) (.record b) = .ok t ∧
    m.apply (.record a) (.record b) = .ok t
  /-- A selection ends as it does without a check, and no name comes twice in it. -/
  selects (p : Selection) : p.applyChecked s = p.apply s ∧
    ∀ n, p.applyChecked s ≠ .error (.duplicateField n)
  /-- A rule comes to its end, with the result that it has without checks. -/
  transforms (r : Rule) : r.behavior.transformChecked false s = .ok (s.deep r)
  /-- A merge refuses what is no record, and tells of the first if both are none. -/
  refuses (m : Merger) (t : Schema) : (∀ r, t ≠ .record r) →
    (∀ u, m.inSteps t u = .error (.failed (.recordNeeded m.operation t.variety)) ∧
      m.apply t u = .error (.recordNeeded m.operation t.variety)) ∧
    ∀ r : Record, m.inSteps (.record r) t = .error (.failed (.recordNeeded m.operation t.variety)) ∧
      m.apply (.record r) t = .error (.recordNeeded m.operation t.variety)

/-- If no name comes twice in what an operation is applied to, the checks in it never fail. -/
theorem steps_succeed {a b : Record} {s : Schema} (ha : a.names.Nodup) (hb : b.names.Nodup)
    (hs : s.HasDistinctNames) : StepsSucceed a b s where
  merges m := by
    cases m with
    | override =>
      refine ⟨.record (a.override b), ?_, rfl⟩
      rw [Merger.inSteps, overrideInSteps_eq ha hb, bind_ok]
      rfl
    | assign =>
      refine ⟨.record (a.assign b), ?_, rfl⟩
      rw [Merger.inSteps, assignInSteps_eq ha hb, bind_ok]
      rfl
    | exclusive => exact ⟨a.exclusive b, exclusiveInSteps_eq ha hb, rfl⟩
  selects p := by
    have htop : ∀ r : Record, s = .record r → r.names.Nodup := by
      rintro r rfl
      exact (hasDistinctNames_record.1 hs).1
    rw [p.applyChecked_eq htop]
    exact ⟨rfl, p.apply_ne_duplicateField s⟩
  transforms r := Behavior.transformChecked_eq hs false
  refuses m _ h := m.refuses h

/-- A list of accounts, each with what it shows to others or with how it may be written to. -/
def accounts : Schema :=
  .sequence (.record [⟨"account", .record Record.account, {}⟩,
    ⟨"contact", .exclusive Record.profile [⟨"mail", .primitive .string, {}⟩]
      (KeySet.ofList ["name", "photo"]) (KeySet.ofList ["mail"]), { optional := true }⟩]) true

theorem steps_succeed_accounts : Record.account.names.Nodup ∧ Record.profile.names.Nodup ∧
    accounts.HasDistinctNames ∧ StepsSucceed Record.account Record.profile accounts :=
  ⟨by decide, by decide, by decide, steps_succeed (by decide) (by decide) (by decide)⟩

end Schema

end ShapeAlgebra
