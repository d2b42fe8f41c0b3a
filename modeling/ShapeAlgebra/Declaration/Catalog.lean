import ShapeAlgebra.Declaration.Outline

/-!
# Catalogs of declared schemas

The schemas of a document, found by following the references between its declarations. Declared
names are resolved in their order. What is resolved is kept, and a name that is met again while its
own declaration is being read closes a cycle.

Results:

* `Declarations.pendingCount_lt`: with each name in progress there is one name less to begin with.
* `Declarations.resolveName_of_known`: a name that was resolved before is not resolved again.
-/

namespace ShapeAlgebra

/-- Declared names with their declarations, in order. -/
abbrev Declarations := List (Text × Data)

/-- Names with their schemas. -/
abbrev Resolved := List (Text × Schema)

/-- A reading of schemas that may follow references: it knows what was resolved before and tells
what is resolved after. -/
abbrev Resolve (α : Type) := StateT Resolved (Except DeclarationFault) α

mutual

/-- The schema of an outline, given how names are resolved (what `parse_shape` returns). -/
def Outline.resolve (lookup : Text → Resolve Schema) : Outline → Resolve Schema
  | .leaf s => pure s
  | .reference n => lookup n
  | .fault cause => throw cause
  | .sequence e r => do
    let element ← Outline.resolve lookup e
    match r with
    | .ok readonly => return .sequence element readonly
    | .error cause => throw cause
  | .union ms => do
    let members ← Outline.resolveAll lookup ms
    return .unionOf members
  | .record fs => do
    let fields ← FieldOutline.resolveAll lookup fs
    match Record.ofFields fields with
    | .ok r => return .record r
    | .error cause => throw (.failure cause)

/-- The schemas of several outlines (in `parse_shape` of a union). -/
def Outline.resolveAll (lookup : Text → Resolve Schema) : List Outline → Resolve (List Schema)
  | [] => pure []
  | o :: os => do
    let s ← Outline.resolve lookup o
    let ss ← Outline.resolveAll lookup os
    return s :: ss

/-- The fields of several outlines (in `_parse_record`). -/
def FieldOutline.resolveAll (lookup : Text → Resolve Schema) :
    List FieldOutline → Resolve (List Field)
  | [] => pure []
  | ⟨name, flags, o⟩ :: os => do
    let s ← Outline.resolve lookup o
    let fs ← FieldOutline.resolveAll lookup os
    return ⟨name, s, flags⟩ :: fs

end

namespace Declarations

/-- Whether a name is declared (in `_parse_shorthand`). -/
def declares (ds : Declarations) (name : Text) : Bool := (ds.lookup name).isSome

/-- How many declarations have names that are not in progress. -/
def pendingCount (ds : Declarations) (inProgress : List Text) : Nat :=
  (ds.filter fun d => decide (d.1 ∉ inProgress)).length

theorem pendingCount_lt {ds : Declarations} {inProgress : List Text} {name : Text} {d : Data}
    (h : ds.lookup name = some d) (hp : name ∉ inProgress) :
    ds.pendingCount (inProgress ++ [name]) < ds.pendingCount inProgress := by
  induction ds with
  | nil => simp at h
  | cons e ds ih =>
    obtain ⟨k, v⟩ := e
    have mono : ∀ l : Declarations, (l.filter fun d => decide (d.1 ∉ inProgress ++ [name])).length ≤
        (l.filter fun d => decide (d.1 ∉ inProgress)).length := by
      intro l
      simp only [← List.countP_eq_length_filter]
      refine List.countP_mono_left fun d _ hd => ?_
      simp only [List.mem_append, decide_eq_true_eq, not_or] at hd ⊢
      exact hd.1
    by_cases hk : name = k
    · subst hk
      have := mono ds
      simp only [pendingCount, List.filter_cons, List.mem_append, List.mem_singleton, or_true,
        not_true, decide_false, hp, not_false_iff, decide_true, if_true, List.length_cons]
      simpa [Nat.lt_succ_iff] using this
    · have h' : ds.lookup name = some d := by
        simpa [List.lookup_cons, beq_eq_false_iff_ne.2 hk] using h
      have := ih h'
      simp only [pendingCount, List.filter_cons] at this ⊢
      by_cases hkp : k ∈ inProgress
      · simpa [hkp] using this
      · simpa [hkp, Ne.symm hk] using this

/-- The schema of a declared name (`_Resolver.resolve`). `inProgress` holds the names whose
declarations are being read, the oldest first. -/
def resolveName (ds : Declarations) (inProgress : List Text) (name : Text) (known : Resolved) :
    Except DeclarationFault (Schema × Resolved) :=
  match known.lookup name with
  | some s => .ok (s, known)
  | none =>
    match _h : ds.lookup name with
    | none => .error (.unknownReference name)
    | some d =>
      if _hp : name ∈ inProgress then
        .error (.cyclicReference (inProgress.dropWhile (· != name) ++ [name]))
      else
        match (Outline.ofData ds.declares [] name d).resolve
            (fun n => resolveName ds (inProgress ++ [name]) n) known with
        | .ok (s, known') => .ok (s, known' ++ [(name, s)])
        | .error cause => .error cause
termination_by ds.pendingCount inProgress
decreasing_by exact pendingCount_lt _h _hp

theorem resolveName_of_known {ds : Declarations} {inProgress : List Text} {name : Text}
    {known : Resolved} {s : Schema} (h : known.lookup name = some s) :
    ds.resolveName inProgress name known = .ok (s, known) := by
  rw [resolveName, h]

/-- The schemas of several declared names, in their order (in `parse_declarations`). -/
def resolveNames (ds : Declarations) (known : Resolved) :
    List Text → Except DeclarationFault Resolved
  | [] => .ok []
  | n :: ns => do
    let (s, known') ← ds.resolveName [] n known
    let rest ← ds.resolveNames known' ns
    return (n, s) :: rest

/-- The schemas of all declarations (`parse_declarations`). -/
def resolve (ds : Declarations) : Except DeclarationFault Resolved :=
  ds.resolveNames [] (ds.map Prod.fst)

/-- The declarations that the entries of a mapping give, whose names must be texts and not blank
(the check in `parse_declarations`). -/
def ofEntries : List (Data × Data) → Except DeclarationFault Declarations
  | [] => .ok []
  | (.text n, d) :: rest =>
    if n.isBlank then .error .blankName
    else do
      let ds ← ofEntries rest
      return (n, d) :: ds
  | _ :: _ => .error .blankName

end Declarations

/-- Named schemas in the order of their declarations, and the path they were read from
(`SchemaCatalog`). -/
structure Catalog where
  path : Option Text
  schemas : Resolved

namespace Catalog

/-- The catalog of a document: of the declarations in its part `schemas` (`parse_declarations`). -/
def ofDocument (document : List (Data × Data)) (path : Option Text) :
    Except DeclarationFault Catalog :=
  match (Data.find? document "schemas").bind Data.entries? with
  | some entries => do
    let ds ← Declarations.ofEntries entries
    let schemas ← ds.resolve
    return ⟨path, schemas⟩
  | none => .error (.notMapping "schemas")

/-- The schema of a given name (`SchemaCatalog.get`). -/
def get (c : Catalog) (name : Text) : Except DeclarationFault Schema :=
  match c.schemas.lookup name with
  | some s => .ok s
  | none => .error (.unknownSchema name (c.schemas.map Prod.fst))

/-- The record of a given name (`SchemaCatalog.get_record`). -/
def getRecord (c : Catalog) (name : Text) : Except DeclarationFault Record := do
  match ← c.get name with
  | .record r => return r
  | _ => throw (.notRecord name)

end Catalog

end ShapeAlgebra
