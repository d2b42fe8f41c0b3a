import ShapeAlgebra.Command.Request
import ShapeAlgebra.Proofs.Record.Congruence

/-!
# Given options

What the values of the given options come to. Each option is looked at when it comes first, with all
its values: a fault of one of them is the fault of the command line. The order of options that have
no fault does not matter, and of the values of an option that can be given several times only those
that occur.

Results:

* `Command.Options.ofGiven_eq`: the options by their values, and the first fault.
* `Command.Given.Alike.ofGiven`: given options that differ in the order and repetition of names and
  kinds only have the same fault, or come to options that differ in that only.
-/

namespace ShapeAlgebra.Command

namespace Options

variable (given : List Given)

/-- What is wrong with the values of one of the given options. -/
def fault? : Opt → Option UsageFault
  | .kind => match (valuesOf given .kind).mapM (choose Opt.kind.long.toList Command.kinds) with
    | .error cause => some cause
    | .ok _ => none
  | .declarations => ((valuesOf given .declarations).getLast?.bind Path.fault?).map .noPath
  | .format => match (valuesOf given .format).getLast?.map
      (choose Opt.format.long.toList formats) with
    | some (.error cause) => some cause
    | _ => none
  | _ => none

/-- The options with the values of one of them put in. -/
def put (o : Options) : Opt → Options
  | .key => { o with names := valuesOf given .key }
  | .kind => { o with kinds := (valuesOf given .kind).filterMap (choice? Command.kinds) }
  | .callable => { o with callable := true }
  | .declarations => { o with declarations := (valuesOf given .declarations).getLast? }
  | .format => { o with
      format := ((valuesOf given .format).getLast?.bind (choice? formats)).getD o.format }
  | .version | .verbose | .help => o

/-- The options that the given values make up: all names and kinds, the last path, and the last
format or YAML. -/
def ofValues : Options where
  names := valuesOf given .key
  kinds := (valuesOf given .kind).filterMap (choice? Command.kinds)
  callable := given.any fun g => g.1 == .callable
  declarations := (valuesOf given .declarations).getLast?
  format := ((valuesOf given .format).getLast?.bind (choice? formats)).getD .yaml

end Options

/-! ## Choices -/

section

variable {α : Type} {label : List Char} {choices : Choices α}

theorem choose_eq_ok_iff {w : Text} {x : α} :
    choose label choices w = .ok x ↔ choice? choices w = some x := by
  rw [choose]
  cases choice? choices w <;> simp

/-- Several words are choices when each of them is one. -/
theorem mapM_choose_eq_ok {ws : List Text} (h : ∀ w ∈ ws, (choice? choices w).isSome) :
    ws.mapM (choose label choices) = .ok (ws.filterMap (choice? choices)) := by
  induction ws with
  | nil => rfl
  | cons w ws ih =>
    obtain ⟨hw, hws⟩ := List.forall_mem_cons.1 h
    obtain ⟨x, hx⟩ := Option.isSome_iff_exists.1 hw
    rw [List.mapM_cons, choose_eq_ok_iff.2 hx, ih hws, List.filterMap_cons, hx]
    rfl

theorem isSome_of_mapM_choose {ws : List Text} {xs : List α}
    (h : ws.mapM (choose label choices) = .ok xs) : ∀ w ∈ ws, (choice? choices w).isSome := by
  induction ws generalizing xs with
  | nil => exact fun w hw => absurd hw List.not_mem_nil
  | cons w ws ih =>
    rw [List.mapM_cons] at h
    cases hw : choose label choices w with
    | error cause => rw [hw] at h; cases h
    | ok x =>
      cases hws : ws.mapM (choose label choices) with
      | error cause => rw [hw, hws] at h; cases h
      | ok ys =>
        refine List.forall_mem_cons.2 ⟨?_, ih hws⟩
        rw [choose_eq_ok_iff.1 hw, Option.isSome_some]

end

/-! ## The options that are given -/

namespace Options

section

variable {given : List Given}

/-- An option is taken up with its values unless there is something wrong with them. -/
theorem take_eq (options : Options) (o : Opt) : take given options o =
    match fault? given o with
    | some cause => .error cause
    | none => .ok (put given options o) := by
  cases o with
  | kind =>
    rw [take, fault?, put]
    cases h : (valuesOf given .kind).mapM (choose Opt.kind.long.toList Command.kinds) with
    | error cause => rfl
    | ok ks =>
      rw [mapM_choose_eq_ok (isSome_of_mapM_choose h)] at h
      cases h
      rfl
  | declarations =>
    rw [take, fault?, put]
    cases (valuesOf given .declarations).getLast?.bind Path.fault? <;> rfl
  | format =>
    rw [take, fault?, put]
    cases (valuesOf given .format).getLast? with
    | none => rfl
    | some w =>
      dsimp only [Option.map_some, Option.bind_some, choose]
      cases choice? formats w <;> rfl
  | _ => rfl

theorem foldlM_take (options : Options) (os : List Opt) : os.foldlM (take given) options =
    match os.findSome? (fault? given) with
    | some cause => .error cause
    | none => .ok (os.foldl (put given) options) := by
  induction os generalizing options with
  | nil => rfl
  | cons o os ih =>
    rw [List.foldlM_cons, take_eq, List.findSome?_cons]
    cases fault? given o with
    | some cause => rfl
    | none => exact ih _

theorem valuesOf_eq_nil {o : Opt} (h : o ∉ given.map Prod.fst) : valuesOf given o = [] := by
  have hnone : given.filter (fun g => g.1 == o) = [] :=
    List.filter_eq_nil_iff.2 fun g hg he => h (List.mem_map.2 ⟨g, hg, beq_iff_eq.1 he⟩)
  rw [valuesOf, hnone, List.filterMap_nil]

/-- What is put in does not depend on the order. -/
theorem foldl_put (options : Options) (os : List Opt) : os.foldl (put given) options =
    { names := if .key ∈ os then (ofValues given).names else options.names
      kinds := if .kind ∈ os then (ofValues given).kinds else options.kinds
      callable := decide (.callable ∈ os) || options.callable
      declarations := if .declarations ∈ os then (ofValues given).declarations
        else options.declarations
      format := if .format ∈ os then
          ((valuesOf given .format).getLast?.bind (choice? formats)).getD options.format
        else options.format } := by
  induction os generalizing options with
  | nil => simp
  | cons o os ih =>
    rw [List.foldl_cons, ih]
    have hagain : ∀ (x : Option OutputFormat) (y : OutputFormat), x.getD (x.getD y) = x.getD y := by
      intro x y
      cases x <;> rfl
    cases o <;> simp [put, ofValues, hagain]

theorem foldl_put_eraseDups :
    (given.map Prod.fst).eraseDups.foldl (put given) {} = ofValues given := by
  have hcallable : decide (Opt.callable ∈ given.map Prod.fst) =
      given.any fun g => g.1 == .callable := by
    rw [Bool.eq_iff_iff, decide_eq_true_iff, List.any_eq_true, List.mem_map]
    simp only [beq_iff_eq]
  rw [foldl_put]
  simp only [List.mem_eraseDups, hcallable, Bool.or_false]
  have hnil : ∀ o, o ∉ given.map Prod.fst → valuesOf given o = [] := fun _ => valuesOf_eq_nil
  rw [ofValues]
  congr 1 <;> rw [ite_eq_left_iff] <;> intro h <;> rw [hnil _ h] <;> rfl

end

end Options

/-! ## The first fault -/

section

variable {α β : Type} {f : α → Option β}

/-- What gives nothing can be left out of a search. -/
theorem findSome?_filter {p : α → Bool} {xs : List α}
    (h : ∀ x ∈ xs, p x = false → f x = none) : (xs.filter p).findSome? f = xs.findSome? f := by
  induction xs with
  | nil => rfl
  | cons x xs ih =>
    obtain ⟨hx, hxs⟩ := List.forall_mem_cons.1 h
    rw [List.filter_cons, List.findSome?_cons]
    cases hp : p x with
    | false => rw [if_neg Bool.false_ne_true, ih hxs, hx hp]
    | true => rw [if_pos rfl, List.findSome?_cons, ih hxs]

theorem findSome?_eraseDups [BEq α] [LawfulBEq α] (xs : List α) :
    xs.eraseDups.findSome? f = xs.findSome? f := by
  cases xs with
  | nil => rfl
  | cons x xs =>
    rw [List.eraseDups_cons, List.findSome?_cons, List.findSome?_cons, findSome?_eraseDups]
    cases hx : f x with
    | some y => rfl
    | none =>
      refine findSome?_filter fun z _ hz => ?_
      rw [Bool.not_eq_false', beq_iff_eq] at hz
      rw [hz, hx]
termination_by xs.length
decreasing_by exact Nat.lt_succ_of_le (List.length_filter_le _ _)

end

/-- The options are made up by the given values, unless there is something wrong with an option; the
first of them counts. -/
theorem Options.ofGiven_eq (given : List Given) : Options.ofGiven given =
    match (given.map Prod.fst).findSome? (Options.fault? given) with
    | some cause => .error cause
    | none => .ok (Options.ofValues given) := by
  rw [ofGiven, foldlM_take, findSome?_eraseDups, foldl_put_eraseDups]

/-! ## Order and repetition -/

/-- Whether all values of an option count, and not its last one only. -/
def Opt.isRepeatable (o : Opt) : Bool := o == .key || o == .kind

/-- Given options that differ in the order and repetition of names and of kinds only, and all of
whose kinds are some. -/
structure Given.Alike (given given' : List Given) : Prop where
  others : given.filter (fun g => !g.1.isRepeatable) = given'.filter fun g => !g.1.isRepeatable
  names : ∀ w, w ∈ Options.valuesOf given .key ↔ w ∈ Options.valuesOf given' .key
  kinds : ∀ w, w ∈ Options.valuesOf given .kind ↔ w ∈ Options.valuesOf given' .kind
  areKinds : ∀ w ∈ Options.valuesOf given .kind, (choice? Command.kinds w).isSome

/-- Options that differ in the order and repetition of names and of kinds only. -/
structure Options.Alike (o o' : Options) : Prop where
  names : ∀ n, n ∈ o.names ↔ n ∈ o'.names
  kinds : ∀ k, k ∈ o.kinds ↔ k ∈ o'.kinds
  callable : o.callable = o'.callable
  declarations : o.declarations = o'.declarations
  format : o.format = o'.format

namespace Given.Alike

section

variable {given given' : List Given}

theorem symm (h : Alike given given') : Alike given' given where
  others := h.others.symm
  names w := (h.names w).symm
  kinds w := (h.kinds w).symm
  areKinds w hw := h.areKinds w ((h.kinds w).2 hw)

theorem any_eq (h : Alike given given') {o : Opt} (ho : o.isRepeatable = false) :
    (given.any fun g => g.1 == o) = given'.any fun g => g.1 == o := by
  have hfilter : ∀ gs : List Given, ((gs.filter fun g => !g.1.isRepeatable).any fun g => g.1 == o) =
      gs.any fun g => g.1 == o := by
    intro gs
    rw [List.any_filter]
    congr 1
    funext g
    cases hg : g.1 == o with
    | false => rw [Bool.and_false]
    | true => rw [beq_iff_eq.1 hg, ho]; rfl
  rw [← hfilter given, ← hfilter given', h.others]

theorem valuesOf_eq (h : Alike given given') {o : Opt} (ho : o.isRepeatable = false) :
    Options.valuesOf given o = Options.valuesOf given' o := by
  have hfilter : ∀ gs : List Given,
      Options.valuesOf (gs.filter fun g => !g.1.isRepeatable) o = Options.valuesOf gs o := by
    intro gs
    rw [Options.valuesOf, Options.valuesOf, List.filter_filter]
    congr 2
    funext g
    cases hg : g.1 == o with
    | false => rfl
    | true => rw [beq_iff_eq.1 hg, ho]; rfl
  rw [← hfilter given, ← hfilter given', h.others]

theorem fault?_kind (h : Alike given given') : Options.fault? given .kind = none := by
  rw [Options.fault?, mapM_choose_eq_ok h.areKinds]

theorem fault?_eq (h : Alike given given') : Options.fault? given = Options.fault? given' := by
  funext o
  cases o with
  | kind => rw [h.fault?_kind, h.symm.fault?_kind]
  | declarations => rw [Options.fault?, Options.fault?, h.valuesOf_eq (o := .declarations) rfl]
  | format => rw [Options.fault?, Options.fault?, h.valuesOf_eq (o := .format) rfl]
  | _ => rfl

theorem findSome?_eq (h : Alike given given') :
    (given.map Prod.fst).findSome? (Options.fault? given) =
      (given'.map Prod.fst).findSome? (Options.fault? given') := by
  have hfilter : ∀ gs : List Given, (gs.map Prod.fst).findSome? (Options.fault? given) =
      ((gs.filter fun g => !g.1.isRepeatable).map Prod.fst).findSome? (Options.fault? given) := by
    intro gs
    have hmap : (gs.filter fun g => !g.1.isRepeatable).map Prod.fst =
        (gs.map Prod.fst).filter fun o => !o.isRepeatable := by
      rw [List.filter_map]
      rfl
    rw [hmap, findSome?_filter fun o _ ho => ?_]
    rw [Bool.not_eq_false', Opt.isRepeatable, Bool.or_eq_true, beq_iff_eq, beq_iff_eq] at ho
    rcases ho with rfl | rfl
    · rfl
    · exact h.fault?_kind
  rw [← h.fault?_eq, hfilter given, hfilter given', h.others]

theorem ofValues (h : Alike given given') :
    (Options.ofValues given).Alike (Options.ofValues given') where
  names := h.names
  kinds k := by
    simp only [Options.ofValues, List.mem_filterMap, h.kinds]
  callable := h.any_eq rfl
  declarations := congrArg List.getLast? (h.valuesOf_eq rfl)
  format := by rw [Options.ofValues, Options.ofValues, h.valuesOf_eq (o := .format) rfl]

end

/-- The order and repetition of names and kinds matters neither to what is wrong with the given
options nor, but for itself, to what they come to. -/
theorem ofGiven {given given' : List Given} (h : Alike given given') :
    EndsAlike Options.Alike (Options.ofGiven given) (Options.ofGiven given') := by
  rw [Options.ofGiven_eq, Options.ofGiven_eq, ← h.findSome?_eq]
  cases (given.map Prod.fst).findSome? (Options.fault? given) with
  | some cause => exact .error cause
  | none => exact .ok h.ofValues

end Given.Alike

end ShapeAlgebra.Command
