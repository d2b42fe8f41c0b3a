import ShapeAlgebra.Command.Run
import ShapeAlgebra.Proofs.Command.Given
import ShapeAlgebra.Proofs.Record.Provenance

/-!
# What jobs print

A job prints what an operation of this library makes of the schemas in a catalog. The operations are
told here by the words for them, beside the types by which commands are read.

Results:

* `Command.Job.derived_of_apply`, `Command.Job.apply_of_derived`: a job prints what its command
  derives.
* `Command.Job.endsAlike_ofVerb`: the order and repetition of names and kinds matters to no job.
-/

namespace ShapeAlgebra

/-! ## Selections by shape -/

namespace Schema

variable {p q : Predicate}

/-- Of a predicate it matters only what it holds of. -/
theorem pickByValue_congr (h : ∀ s, p.holds s = q.holds s) (s : Schema) :
    s.pickByValue p = s.pickByValue q := by
  simp only [pickByValue, h]

theorem omitByValue_congr (h : ∀ s, p.holds s = q.holds s) (s : Schema) :
    s.omitByValue p = s.omitByValue q := by
  simp only [omitByValue, h]

/-- Of some kinds it matters only which they are. -/
theorem assignable_congr {ks ks' : List PrimitiveKind} (h : ∀ k, k ∈ ks ↔ k ∈ ks') (s : Schema) :
    s.assignable ks = s.assignable ks' := by
  induction s using Schema.induction with
  | primitive k => rw [assignable, assignable, Bool.eq_iff_iff, List.contains_iff_mem,
      List.contains_iff_mem, h]
  | union ms ih =>
    rw [assignable, assignable, Bool.eq_iff_iff, allAssignable_iff, allAssignable_iff]
    exact forall₂_congr fun m hm => by rw [ih m hm]
  | _ => rfl

end Schema

/-! ## Selections by name -/

namespace KeySource

/-- Of some names it matters only which they are. -/
theorem keySet_congr {ns ns' : List Text} (h : ∀ n, n ∈ ns ↔ n ∈ ns') :
    keySet (.data (.list (ns.map .text))) = keySet (.data (.list (ns'.map .text))) := by
  have hset : KeySet.ofList ns = KeySet.ofList ns' :=
    KeySet.ext fun n => by rw [KeySet.mem_ofList, KeySet.mem_ofList, h]
  rw [keySet_of_items rfl, keySet_of_items rfl, hset]

end KeySource

namespace Schema

variable {names names' : KeySource}

theorem pickByKey_congr (h : names.keySet = names'.keySet) (s : Schema) :
    s.pickByKey names = s.pickByKey names' := by
  simp only [pickByKey, h]

theorem omitByKey_congr (h : names.keySet = names'.keySet) (s : Schema) :
    s.omitByKey names = s.omitByKey names' := by
  simp only [omitByKey, h]

end Schema

namespace Command

/-! ## Derivations by their words -/

/-- The operations on field names by their words (`_KEY_OPERATIONS`). -/
def keyAlgebra : Choices (KeySource → KeySource → Except Failure KeySet) :=
  [("intersect", KeySource.intersect), ("subtract", KeySource.subtract),
    ("complement", KeySource.complement),
    ("symmetric-difference", KeySource.symmetricDifference), ("union", KeySource.union)]

/-- The merges by their words (`_MERGE_MODES`). -/
def mergers : Choices (Schema → Schema → Except Failure Schema) :=
  [("override", fun a b => .record <$> a.mergeOverride b),
    ("assign", fun a b => .record <$> a.merge b), ("exclusive", Schema.mergeExclusive)]

/-- Whether options ask for a shape: for callables, or for what can be assigned to some kinds. -/
def Options.asksFor (o : Options) (s : Schema) : Bool :=
  o.callable && Classifier.test .callable s || !o.kinds.isEmpty && s.assignable o.kinds

/-- The texts that a command derives with its options and arguments from a catalog. -/
inductive Derived (c : Catalog) (o : Options) : Verb → List Text → List Text → Prop
  | keys {w a b : Text} {op : KeySource → KeySource → Except Failure KeySet} {x y : Record}
      {s : KeySet} (hw : choice? keyAlgebra w = some op) (ha : c.getRecord a = .ok x)
      (hb : c.getRecord b = .ok y) (hs : op (.schema (.record x)) (.schema (.record y)) = .ok s) :
      Derived c o .keys [w, a, b] s.names
  | pick {a : Text} {s : Schema} {r : Record} (ho : o.names ≠ []) (hs : c.get a = .ok s)
      (hr : s.pickByKey (.data (.list (o.names.map .text))) = .ok r) :
      Derived c o .pick [a] [(Schema.record r).print o.format]
  | omit {a : Text} {s : Schema} {r : Record} (ho : o.names ≠ []) (hs : c.get a = .ok s)
      (hr : s.omitByKey (.data (.list (o.names.map .text))) = .ok r) :
      Derived c o .omit [a] [(Schema.record r).print o.format]
  | pickByValue {a : Text} {p : Predicate} {s : Schema} {r : Record}
      (ho : o.callable = true ∨ o.kinds ≠ []) (hp : ∀ s, p.holds s = o.asksFor s)
      (hs : c.get a = .ok s) (hr : s.pickByValue p = .ok r) :
      Derived c o .pickByValue [a] [(Schema.record r).print o.format]
  | omitByValue {a : Text} {p : Predicate} {s : Schema} {r : Record}
      (ho : o.callable = true ∨ o.kinds ≠ []) (hp : ∀ s, p.holds s = o.asksFor s)
      (hs : c.get a = .ok s) (hr : s.omitByValue p = .ok r) :
      Derived c o .omitByValue [a] [(Schema.record r).print o.format]
  | deep {w a : Text} {r : Rule} {s : Schema} (hw : choice? rules w = some r)
      (hs : c.get a = .ok s) : Derived c o .deep [w, a] [(s.deep r).print o.format]
  | merge {w a b : Text} {op : Schema → Schema → Except Failure Schema} {x y s : Schema}
      (hw : choice? mergers w = some op) (ha : c.get a = .ok x) (hb : c.get b = .ok y)
      (hs : op x y = .ok s) : Derived c o .merge [w, a, b] [s.print o.format]

/-- Texts as they are printed, each with a line break. -/
def printedLines (ts : List Text) : Text := (ts.map printed).flatten

/-! ## Computations with results -/

section

variable {ε ε' α β : Type}

theorem bind_eq_ok_iff {x : Except ε α} {f : α → Except ε β} {b : β} :
    x >>= f = .ok b ↔ ∃ a, x = .ok a ∧ f a = .ok b := by
  refine ⟨exists_of_bind_eq_ok, ?_⟩
  rintro ⟨a, rfl, h⟩
  exact h

theorem map_eq_ok_iff {x : Except ε α} {f : α → β} {b : β} :
    f <$> x = .ok b ↔ ∃ a, x = .ok a ∧ f a = b := by
  cases x <;> simp [Functor.map, Except.map]

theorem toOption_eq_some_iff {x : Except ε α} {a : α} : x.toOption = some a ↔ x = .ok a := by
  cases x <;> simp [Except.toOption]

theorem mapError_eq_ok_iff {x : Except ε α} {f : ε → ε'} {a : α} :
    x.mapError f = .ok a ↔ x = .ok a := by
  cases x <;> simp [Except.mapError]

end

/-- What a word stands for when something is made of all choices. -/
theorem choice?_map {α β : Type} (f : α → β) (choices : Choices α) (w : Text) :
    choice? (choices.map (Prod.map id f)) w = (choice? choices w).map f := by
  rw [choice?, choice?, List.findSome?_map, List.map_findSome?]
  congr 1
  funext p
  dsimp only [Function.comp, Prod.map, id]
  split <;> rfl

/-! ## Jobs -/

section

variable {o : Options} {ws rest : List Text}

theorem chosen_eq_ok_iff {α : Type} {choices : Choices α} {x : α} :
    chosen choices ws = .ok (x, rest) ↔ ∃ w, ws = w :: rest ∧ choice? choices w = some x := by
  cases ws with
  | nil => simp [chosen]
  | cons w ws =>
    rw [chosen, bind_eq_ok_iff]
    constructor
    · rintro ⟨y, hy, h⟩
      cases h
      exact ⟨w, rfl, choose_eq_ok_iff.1 hy⟩
    · rintro ⟨w', hws, hx⟩
      cases hws
      exact ⟨x, choose_eq_ok_iff.2 hx, rfl⟩

theorem named_eq_ok_iff {label : String} {w : Text} :
    named label ws = .ok (w, rest) ↔ ws = w :: rest := by
  cases ws <;> simp [named]

theorem noMore_eq_ok_iff {u : Unit} : noMore ws = .ok u ↔ ws = [] := by
  cases ws <;> simp [noMore]

theorem Options.path_eq_ok_iff {t : Text} : o.path = .ok t ↔ o.declarations = some t := by
  rw [Options.path]
  cases o.declarations <;> simp

theorem Options.someNames_eq_ok_iff {ns : List Text} :
    o.someNames = .ok ns ↔ o.names ≠ [] ∧ o.names = ns := by
  rw [Options.someNames]
  cases o.names <;> simp

/-- The options make up a predicate when they ask for a shape, and it holds of what they ask for. -/
theorem Options.predicate_eq_ok {p : Predicate} (h : o.predicate = .ok p) :
    (o.callable = true ∨ o.kinds ≠ []) ∧ ∀ s, p.holds s = o.asksFor s := by
  rw [predicate] at h
  cases hc : o.callable <;> cases hk : o.kinds <;> rw [hc, hk] at h <;> cases h <;>
    simp [asksFor, hc, hk, Predicate.holds, Predicate.anyHolds]

theorem Options.predicate_eq_error (h : ¬ (o.callable = true ∨ o.kinds ≠ [])) :
    o.predicate = .error .noShape := by
  rw [not_or, Bool.not_eq_true, ne_eq, not_not] at h
  rw [predicate, h.1, h.2]

theorem Options.exists_predicate (h : o.callable = true ∨ o.kinds ≠ []) :
    ∃ p, o.predicate = .ok p := by
  rw [predicate]
  cases hc : o.callable with
  | true => cases o.kinds <;> exact ⟨_, rfl⟩
  | false =>
    cases hk : o.kinds with
    | nil => exact absurd hk (h.resolve_left (hc ▸ Bool.false_ne_true))
    | cons k ks => exact ⟨_, rfl⟩

/-- A predicate that holds of what options ask for is as good as the one they make up. -/
theorem Options.exists_predicate_of_holds (h : o.callable = true ∨ o.kinds ≠ []) {p : Predicate}
    (hp : ∀ s, p.holds s = o.asksFor s) :
    ∃ q, o.predicate = .ok q ∧ ∀ s, p.holds s = q.holds s := by
  obtain ⟨q, hq⟩ := exists_predicate h
  exact ⟨q, hq, fun s => (hp s).trans ((predicate_eq_ok hq).2 s).symm⟩

namespace Job

variable {j : Job}

theorem byKey_eq_ok_iff {f : Text → List Text → Derivation} : byKey o ws f = .ok j ↔
    ∃ a path, ws = [a] ∧ o.names ≠ [] ∧ o.declarations = some path ∧
      ofDerivation o path (f a o.names) = j := by
  simp only [byKey, schemaArgument, bind_eq_ok_iff, Prod.exists, named_eq_ok_iff,
    Options.someNames_eq_ok_iff, Options.path_eq_ok_iff, noMore_eq_ok_iff]
  constructor
  · rintro ⟨a, rest, rfl, ns, ⟨hn, rfl⟩, path, hp, u, rfl, h⟩
    exact ⟨a, path, rfl, hn, hp, Except.ok.inj h⟩
  · rintro ⟨a, path, rfl, hn, hp, rfl⟩
    exact ⟨a, [], rfl, _, ⟨hn, rfl⟩, path, hp, (), rfl, rfl⟩

theorem byValue_eq_ok_iff {f : Text → Predicate → Derivation} : byValue o ws f = .ok j ↔
    ∃ a path p, ws = [a] ∧ o.declarations = some path ∧ o.predicate = .ok p ∧
      ofDerivation o path (f a p) = j := by
  simp only [byValue, schemaArgument, bind_eq_ok_iff, Prod.exists, named_eq_ok_iff,
    Options.path_eq_ok_iff, noMore_eq_ok_iff]
  constructor
  · rintro ⟨a, rest, rfl, path, hp, u, rfl, p, hpred, h⟩
    exact ⟨a, path, p, rfl, hp, hpred, Except.ok.inj h⟩
  · rintro ⟨a, path, p, rfl, hp, hpred, rfl⟩
    exact ⟨a, [], rfl, path, hp, (), rfl, p, hpred, rfl⟩

theorem ofVerb_deep_eq_ok_iff : ofVerb .deep o ws = .ok j ↔
    ∃ w a r path, ws = [w, a] ∧ choice? rules w = some r ∧ o.declarations = some path ∧
      ofDerivation o path (.deep r a) = j := by
  simp only [ofVerb, schemaArgument, bind_eq_ok_iff, Prod.exists, chosen_eq_ok_iff,
    named_eq_ok_iff, Options.path_eq_ok_iff, noMore_eq_ok_iff]
  constructor
  · rintro ⟨r, rest, ⟨w, rfl, hw⟩, a, rest', rfl, path, hp, u, rfl, h⟩
    exact ⟨w, a, r, path, rfl, hw, hp, Except.ok.inj h⟩
  · rintro ⟨w, a, r, path, rfl, hw, hp, rfl⟩
    exact ⟨r, [a], ⟨w, rfl, hw⟩, a, [], rfl, path, hp, (), rfl, rfl⟩

theorem ofVerb_keys_eq_ok_iff : ofVerb .keys o ws = .ok j ↔
    ∃ w a b op path, ws = [w, a, b] ∧ choice? keyOperations w = some op ∧
      o.declarations = some path ∧ ⟨.keys op a b, path⟩ = j := by
  simp only [ofVerb, bind_eq_ok_iff, Prod.exists, chosen_eq_ok_iff, named_eq_ok_iff,
    Options.path_eq_ok_iff, noMore_eq_ok_iff]
  constructor
  · rintro ⟨op, rest, ⟨w, rfl, hw⟩, a, rest', rfl, b, rest'', rfl, path, hp, u, rfl, h⟩
    exact ⟨w, a, b, op, path, rfl, hw, hp, Except.ok.inj h⟩
  · rintro ⟨w, a, b, op, path, rfl, hw, hp, rfl⟩
    exact ⟨op, [a, b], ⟨w, rfl, hw⟩, a, [b], rfl, b, [], rfl, path, hp, (), rfl, rfl⟩

theorem ofVerb_merge_eq_ok_iff : ofVerb .merge o ws = .ok j ↔
    ∃ w a b m path, ws = [w, a, b] ∧ choice? mergeModes w = some m ∧
      o.declarations = some path ∧ ofDerivation o path (.merge m a b) = j := by
  simp only [ofVerb, bind_eq_ok_iff, Prod.exists, chosen_eq_ok_iff, named_eq_ok_iff,
    Options.path_eq_ok_iff, noMore_eq_ok_iff]
  constructor
  · rintro ⟨m, rest, ⟨w, rfl, hw⟩, a, rest', rfl, b, rest'', rfl, path, hp, u, rfl, h⟩
    exact ⟨w, a, b, m, path, rfl, hw, hp, Except.ok.inj h⟩
  · rintro ⟨w, a, b, m, path, rfl, hw, hp, rfl⟩
    exact ⟨m, [a, b], ⟨w, rfl, hw⟩, a, [b], rfl, b, [], rfl, path, hp, (), rfl, rfl⟩

end Job

end

/-! ## What jobs print -/

section

variable {c : Catalog} {s : Schema}

theorem printedLines_singleton (t : Text) : printedLines [t] = printed t := List.append_nil _

theorem keyAlgebra_eq : keyAlgebra = keyOperations.map (Prod.map id KeyOperation.apply) := rfl

theorem mergers_eq : mergers = mergeModes.map (Prod.map id MergeMode.apply) := rfl

theorem Derivation.apply_merge_eq_ok_iff {m : MergeMode} {a b : Text} :
    (Derivation.merge m a b).apply c = .ok s ↔
      ∃ x y, c.get a = .ok x ∧ c.get b = .ok y ∧ m.apply x y = .ok s := by
  simp only [Derivation.apply, bind_eq_ok_iff, mapError_eq_ok_iff]
  constructor
  · rintro ⟨x, hx, y, hy, h⟩
    exact ⟨x, y, hx, hy, h⟩
  · rintro ⟨x, y, hx, hy, h⟩
    exact ⟨x, hx, y, hy, h⟩

theorem Task.apply_keys_eq_ok_iff {op : KeyOperation} {a b : Text} {result : Text × Text} :
    (Task.keys op a b).apply c = .ok result ↔ ∃ x y s, c.getRecord a = .ok x ∧
      c.getRecord b = .ok y ∧ op.apply (.schema (.record x)) (.schema (.record y)) = .ok s ∧
      (printedLines s.names, []) = result := by
  simp only [Task.apply, bind_eq_ok_iff, mapError_eq_ok_iff]
  constructor
  · rintro ⟨x, hx, y, hy, s, hs, h⟩
    exact ⟨x, y, s, hx, hy, hs, Except.ok.inj h⟩
  · rintro ⟨x, y, s, hx, hy, hs, rfl⟩
    exact ⟨x, hx, y, hy, s, hs, rfl⟩

theorem Task.apply_derive_eq_ok_iff {d : Derivation} {f : OutputFormat} {result : Text × Text} :
    (Task.derive d f).apply c = .ok result ↔
      ∃ s, d.apply c = .ok s ∧ (printedLines [s.print f], d.tell c s) = result := by
  simp only [Task.apply, bind_eq_ok_iff, printedLines_singleton]
  constructor
  · rintro ⟨s, hs, h⟩
    exact ⟨s, hs, Except.ok.inj h⟩
  · rintro ⟨s, hs, rfl⟩
    exact ⟨s, hs, rfl⟩

/-- A derivation by a selection from one schema has a result when that schema is there and the
selection has. -/
theorem Task.apply_selection_eq_ok_iff {d : Derivation} {format : OutputFormat} {a : Text}
    {f : Schema → Except Failure Record} {result : Text × Text}
    (hd : d.apply c = do (Schema.record <$> f (← c.get a)).mapError DeclarationFault.failure) :
    (Task.derive d format).apply c = .ok result ↔ ∃ x r, c.get a = .ok x ∧ f x = .ok r ∧
      (printedLines [(Schema.record r).print format], d.tell c (.record r)) = result := by
  simp only [Task.apply_derive_eq_ok_iff, hd, bind_eq_ok_iff, mapError_eq_ok_iff, map_eq_ok_iff]
  constructor
  · rintro ⟨s, ⟨x, hx, r, hr, rfl⟩, h⟩
    exact ⟨x, r, hx, hr, h⟩
  · rintro ⟨x, r, hx, hr, h⟩
    exact ⟨_, ⟨x, hx, r, hr, rfl⟩, h⟩

end

namespace Job

variable {v : Verb} {o : Options} {ws : List Text} {c : Catalog}

/-- A job that has a result prints what its command derives. -/
theorem derived_of_apply {j : Job} {result : Text × Text} (hj : ofVerb v o ws = .ok j)
    (h : j.task.apply c = .ok result) : o.declarations = some j.declarations ∧
      ∃ ts, Derived c o v ws ts ∧ result.1 = printedLines ts := by
  cases v with
  | keys =>
    obtain ⟨w, a, b, op, path, rfl, hw, hp, rfl⟩ := ofVerb_keys_eq_ok_iff.1 hj
    obtain ⟨x, y, s, hx, hy, hs, rfl⟩ := Task.apply_keys_eq_ok_iff.1 h
    have hw' : choice? keyAlgebra w = some op.apply := by
      rw [keyAlgebra_eq, choice?_map, hw, Option.map_some]
    exact ⟨hp, _, .keys hw' hx hy hs, rfl⟩
  | pick =>
    obtain ⟨a, path, rfl, hn, hp, rfl⟩ := byKey_eq_ok_iff.1 hj
    obtain ⟨x, r, hx, hr, rfl⟩ := (Task.apply_selection_eq_ok_iff rfl).1 h
    exact ⟨hp, _, .pick hn hx hr, rfl⟩
  | «omit» =>
    obtain ⟨a, path, rfl, hn, hp, rfl⟩ := byKey_eq_ok_iff.1 hj
    obtain ⟨x, r, hx, hr, rfl⟩ := (Task.apply_selection_eq_ok_iff rfl).1 h
    exact ⟨hp, _, .omit hn hx hr, rfl⟩
  | pickByValue =>
    obtain ⟨a, path, p, rfl, hp, hpred, rfl⟩ := byValue_eq_ok_iff.1 hj
    obtain ⟨x, r, hx, hr, rfl⟩ := (Task.apply_selection_eq_ok_iff rfl).1 h
    obtain ⟨hasks, hholds⟩ := Options.predicate_eq_ok hpred
    exact ⟨hp, _, .pickByValue hasks hholds hx hr, rfl⟩
  | omitByValue =>
    obtain ⟨a, path, p, rfl, hp, hpred, rfl⟩ := byValue_eq_ok_iff.1 hj
    obtain ⟨x, r, hx, hr, rfl⟩ := (Task.apply_selection_eq_ok_iff rfl).1 h
    obtain ⟨hasks, hholds⟩ := Options.predicate_eq_ok hpred
    exact ⟨hp, _, .omitByValue hasks hholds hx hr, rfl⟩
  | deep =>
    obtain ⟨w, a, r, path, rfl, hw, hp, rfl⟩ := ofVerb_deep_eq_ok_iff.1 hj
    obtain ⟨s, hs, rfl⟩ := Task.apply_derive_eq_ok_iff.1 h
    obtain ⟨x, hx, hs⟩ := bind_eq_ok_iff.1 hs
    cases hs
    exact ⟨hp, _, .deep hw hx, rfl⟩
  | merge =>
    obtain ⟨w, a, b, m, path, rfl, hw, hp, rfl⟩ := ofVerb_merge_eq_ok_iff.1 hj
    obtain ⟨s, hs, rfl⟩ := Task.apply_derive_eq_ok_iff.1 h
    obtain ⟨x, y, hx, hy, hm⟩ := Derivation.apply_merge_eq_ok_iff.1 hs
    have hw' : choice? mergers w = some m.apply := by
      rw [mergers_eq, choice?_map, hw, Option.map_some]
    exact ⟨hp, _, .merge hw' hx hy hm, rfl⟩

/-- What a command derives is printed by its job. -/
theorem apply_of_derived {path : Text} {ts : List Text} (hp : o.declarations = some path)
    (h : Derived c o v ws ts) : ∃ j steps, ofVerb v o ws = .ok j ∧ j.declarations = path ∧
      j.task.apply c = .ok (printedLines ts, steps) := by
  cases h with
  | @keys w a b op x y s hw ha hb hs =>
    rw [keyAlgebra_eq, choice?_map, Option.map_eq_some_iff] at hw
    obtain ⟨op, hw, rfl⟩ := hw
    exact ⟨_, _, ofVerb_keys_eq_ok_iff.2 ⟨w, a, b, op, path, rfl, hw, hp, rfl⟩, rfl,
      Task.apply_keys_eq_ok_iff.2 ⟨x, y, s, ha, hb, hs, rfl⟩⟩
  | @pick a s r ho hs hr =>
    exact ⟨_, _, byKey_eq_ok_iff.2 ⟨a, path, rfl, ho, hp, rfl⟩, rfl,
      (Task.apply_selection_eq_ok_iff rfl).2 ⟨s, r, hs, hr, rfl⟩⟩
  | @«omit» a s r ho hs hr =>
    exact ⟨_, _, byKey_eq_ok_iff.2 ⟨a, path, rfl, ho, hp, rfl⟩, rfl,
      (Task.apply_selection_eq_ok_iff rfl).2 ⟨s, r, hs, hr, rfl⟩⟩
  | @pickByValue a p s r ho hholds hs hr =>
    obtain ⟨q, hq, hpq⟩ := Options.exists_predicate_of_holds ho hholds
    rw [Schema.pickByValue_congr hpq] at hr
    exact ⟨_, _, byValue_eq_ok_iff.2 ⟨a, path, q, rfl, hp, hq, rfl⟩, rfl,
      (Task.apply_selection_eq_ok_iff rfl).2 ⟨s, r, hs, hr, rfl⟩⟩
  | @omitByValue a p s r ho hholds hs hr =>
    obtain ⟨q, hq, hpq⟩ := Options.exists_predicate_of_holds ho hholds
    rw [Schema.omitByValue_congr hpq] at hr
    exact ⟨_, _, byValue_eq_ok_iff.2 ⟨a, path, q, rfl, hp, hq, rfl⟩, rfl,
      (Task.apply_selection_eq_ok_iff rfl).2 ⟨s, r, hs, hr, rfl⟩⟩
  | @deep w a r s hw hs =>
    exact ⟨_, _, ofVerb_deep_eq_ok_iff.2 ⟨w, a, r, path, rfl, hw, hp, rfl⟩, rfl,
      Task.apply_derive_eq_ok_iff.2 ⟨_, bind_eq_ok_iff.2 ⟨s, hs, rfl⟩, rfl⟩⟩
  | @merge w a b op x y s hw ha hb hs =>
    rw [mergers_eq, choice?_map, Option.map_eq_some_iff] at hw
    obtain ⟨m, hw, rfl⟩ := hw
    exact ⟨_, _, ofVerb_merge_eq_ok_iff.2 ⟨w, a, b, m, path, rfl, hw, hp, rfl⟩, rfl,
      Task.apply_derive_eq_ok_iff.2
        ⟨s, Derivation.apply_merge_eq_ok_iff.2 ⟨x, y, ha, hb, hs⟩, rfl⟩⟩

end Job

/-! ## Order and repetition of options -/

section

variable {o o' : Options}

theorem isEmpty_congr {α : Type} {xs ys : List α} (h : ∀ x, x ∈ xs ↔ x ∈ ys) :
    xs.isEmpty = ys.isEmpty := by
  rw [Bool.eq_iff_iff, List.isEmpty_iff, List.isEmpty_iff, List.eq_nil_iff_forall_not_mem,
    List.eq_nil_iff_forall_not_mem]
  simp only [h]

theorem Options.Alike.asksFor_eq (h : o.Alike o') (s : Schema) : o.asksFor s = o'.asksFor s := by
  rw [asksFor, asksFor, h.callable, isEmpty_congr h.kinds, Schema.assignable_congr h.kinds]

theorem Options.Alike.path_eq (h : o.Alike o') : o.path = o'.path := by
  rw [path, path, h.declarations]

theorem Options.Alike.someNames (h : o.Alike o') :
    EndsAlike (fun ns ns' => ∀ n, n ∈ ns ↔ n ∈ ns') o.someNames o'.someNames := by
  rw [Options.someNames, Options.someNames, isEmpty_congr h.names]
  split
  · exact .error _
  · exact .ok h.names

theorem Options.Alike.predicate (h : o.Alike o') :
    EndsAlike (fun p q => ∀ s, Predicate.holds s p = Predicate.holds s q)
      o.predicate o'.predicate := by
  have hasks : (o.callable = true ∨ o.kinds ≠ []) ↔ (o'.callable = true ∨ o'.kinds ≠ []) := by
    rw [h.callable, ← List.isEmpty_eq_false_iff, isEmpty_congr h.kinds, List.isEmpty_eq_false_iff]
  by_cases ho : o.callable = true ∨ o.kinds ≠ []
  · have ho' := hasks.1 ho
    obtain ⟨p, hp⟩ := exists_predicate ho
    obtain ⟨q, hq⟩ := exists_predicate ho'
    rw [hp, hq]
    exact .ok fun s => ((predicate_eq_ok hp).2 s).trans
      ((h.asksFor_eq s).trans ((predicate_eq_ok hq).2 s).symm)
  · rw [predicate_eq_error ho, predicate_eq_error (mt hasks.2 ho)]
    exact .error _

theorem Options.Alike.ofDerivation_eq (h : o.Alike o') (path : Text) (d : Derivation) :
    Job.ofDerivation o path d = ⟨.derive d o'.format, path⟩ := by
  rw [Job.ofDerivation, h.format]

/-- Jobs with the same declarations that do the same. -/
def Job.Alike (j j' : Job) : Prop :=
  j.declarations = j'.declarations ∧ ∀ c, j.task.apply c = j'.task.apply c

namespace Job

variable {ws : List Text}

theorem endsAlike_byKey (h : o.Alike o') {f : Text → List Text → Derivation}
    (hf : ∀ (a : Text) (ns ns' : List Text) (format : OutputFormat), (∀ n, n ∈ ns ↔ n ∈ ns') →
      ∀ c, (Task.derive (f a ns) format).apply c = (Task.derive (f a ns') format).apply c) :
    EndsAlike Alike (byKey o ws f) (byKey o' ws f) := by
  refine EndsAlike.bind (.refl (R := Eq) (fun _ => rfl) (schemaArgument ws)) ?_
  rintro ⟨a, rest⟩ _ rfl
  refine h.someNames.bind fun ns ns' hns => ?_
  rw [h.path_eq]
  refine EndsAlike.bind (.refl (R := Eq) (fun _ => rfl) o'.path) ?_
  rintro path _ rfl
  refine EndsAlike.bind (.refl (R := Eq) (fun _ => rfl) (noMore rest)) fun _ _ _ => ?_
  rw [h.ofDerivation_eq]
  exact .ok ⟨rfl, hf a ns ns' o'.format hns⟩

theorem endsAlike_byValue (h : o.Alike o') {f : Text → Predicate → Derivation}
    (hf : ∀ (a : Text) (p q : Predicate) (format : OutputFormat), (∀ s, p.holds s = q.holds s) →
      ∀ c, (Task.derive (f a p) format).apply c = (Task.derive (f a q) format).apply c) :
    EndsAlike Alike (byValue o ws f) (byValue o' ws f) := by
  refine EndsAlike.bind (.refl (R := Eq) (fun _ => rfl) (schemaArgument ws)) ?_
  rintro ⟨a, rest⟩ _ rfl
  simp only [h.path_eq]
  refine EndsAlike.bind (.refl (R := Eq) (fun _ => rfl) o'.path) ?_
  rintro path _ rfl
  refine EndsAlike.bind (.refl (R := Eq) (fun _ => rfl) (noMore rest)) fun _ _ _ => ?_
  refine h.predicate.bind fun p q hpq => ?_
  rw [h.ofDerivation_eq]
  exact .ok ⟨rfl, hf a p q o'.format hpq⟩

/-- The order and repetition of names and kinds matters to no job. -/
theorem endsAlike_ofVerb (v : Verb) (h : o.Alike o') (ws : List Text) :
    EndsAlike Alike (ofVerb v o ws) (ofVerb v o' ws) := by
  have hrefl : ∀ x : Except UsageFault Job, EndsAlike Alike x x :=
    .refl fun _ => ⟨rfl, fun _ => rfl⟩
  cases v with
  | pick =>
    refine endsAlike_byKey h fun a ns ns' format hns c => ?_
    simp only [Task.apply, Derivation.apply, Schema.pickByKey_congr (KeySource.keySet_congr hns),
      Derivation.tell]
  | «omit» =>
    refine endsAlike_byKey h fun a ns ns' format hns c => ?_
    simp only [Task.apply, Derivation.apply, Schema.omitByKey_congr (KeySource.keySet_congr hns),
      Derivation.tell]
  | pickByValue =>
    refine endsAlike_byValue h fun a p q format hpq c => ?_
    simp only [Task.apply, Derivation.apply, Schema.pickByValue_congr hpq, Derivation.tell]
  | omitByValue =>
    refine endsAlike_byValue h fun a p q format hpq c => ?_
    simp only [Task.apply, Derivation.apply, Schema.omitByValue_congr hpq, Derivation.tell]
  | keys => simpa only [ofVerb, h.path_eq] using hrefl (ofVerb .keys o' ws)
  | deep =>
    simpa only [ofVerb, h.path_eq, ofDerivation, h.format] using hrefl (ofVerb .deep o' ws)
  | merge =>
    simpa only [ofVerb, h.path_eq, ofDerivation, h.format] using hrefl (ofVerb .merge o' ws)

end Job

end

end Command

end ShapeAlgebra
